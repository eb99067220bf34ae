import Playback.Decimal.Read
import Playback.Text.Blank
import Playback.Value.Show

/-!
# Conversions between numbers and texts
-/

namespace Playback

def floatToInt (x : Float) : Except Fault Word :=
  match Binary64.toInt? x with
  | none => .error (if x.isNaN then .notANumberToInt else .infinityToInt)
  | some i =>
    match Word.ofInt? i with
    | some w => .ok w
    | none => .error (.overflow "int conversion")

/-- A text without blanks around it and without underscores. -/
def numberText (s : String) : List Char :=
  (Text.trimBlanks s).toList.filter (· != '_')

def Value.toInt (v : Value) : Except Fault Word :=
  match v with
  | .float x => floatToInt x.number
  | .str s =>
    match Word.ofDecimal? (numberText s) with
    | some w => .ok w
    | .none => .error (.intText (Text.quoted s))
  | _ =>
    match v.word? with
    | some w => .ok w
    | .none => .error (.intType v.typeName)

/-- The words that name a double after any number of signs; the first of the signs counts. -/
def namedDouble? (cs : List Char) : Option Double :=
  let isSign := fun c : Char => c == '+' || c == '-'
  let negative := cs.head? == some '-'
  let magnitude : Option Double := match String.ofList (cs.dropWhile isSign) with
    | "inf" | "infinity" => some .infinity
    | "nan" => some (.nan false)
    | _ => none
  magnitude.map fun x => if negative then -x else x

def doubleOfText? (s : String) : Option Double :=
  let cs := (Text.trimBlanks s).toList.map Char.toLower
  match namedDouble? cs with
  | some x => some x
  | none => Decimal.read? (String.ofList (cs.filter (· != '_')))

def Value.toDouble (v : Value) : Except Fault Double :=
  match v with
  | .str s =>
    match doubleOfText? s with
    | some x => .ok x
    | .none => .error (.floatText (Text.quoted s))
  | _ =>
    match v.quantity? with
    | some q => .ok q.toDouble
    | .none => .error (.floatType v.typeName)

/-- A value that must be a number, as a double. -/
def Value.real (v : Value) : Except Fault Double :=
  match v.quantity? with
  | some q => .ok q.toDouble
  | .none => .error (.notReal v.typeName)

def charOfCode (code : Word) : Except Fault Value :=
  let n := code.toInt
  if 0 ≤ n ∧ n.toNat.isValidChar then .ok (.str (Char.ofNat n.toNat).toString) else .error .chrRange

def codeOfChar (v : Value) : Except Fault Value :=
  match v with
  | .str s =>
    match s.toList with
    | [c] => .ok (.int (Int64.ofNat c.toNat))
    | chars => .error (.ordLength chars.length)
  | other => .error (.ordType other.typeName)

end Playback
