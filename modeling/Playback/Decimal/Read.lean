import Playback.Double

/-!
# Reading decimals

The notation of floating point numbers in program texts: an optional sign, digits with an optional
point, an optional exponent; or one of the words `inf`, `infinity`, `nan` in any case.
-/

namespace Playback.Decimal

def digitsValue (cs : List Char) : Nat :=
  cs.foldl (fun n c => 10 * n + (c.toNat - 48)) 0

/-- An optional sign: whether it is a minus, and the rest. -/
def takeSign : List Char → Bool × List Char
  | '-' :: rest => (true, rest)
  | '+' :: rest => (false, rest)
  | cs => (false, cs)

/-- The exponent at the end of a number; no text is exponent zero. -/
def readExponent? : List Char → Option Int
  | [] => some 0
  | c :: rest =>
    if c == 'e' || c == 'E' then
      let (negative, digits) := takeSign rest
      if digits.isEmpty || !digits.all Char.isDigit then none
      else some (if negative then -(digitsValue digits : Int) else digitsValue digits)
    else none

/-- A number without its sign: digits, the count of them after the point, and the exponent. -/
def readUnsigned? (cs : List Char) : Option (Nat × Int) :=
  let whole := cs.takeWhile Char.isDigit
  let rest := cs.dropWhile Char.isDigit
  let (fraction, rest) := match rest with
    | '.' :: more => (more.takeWhile Char.isDigit, more.dropWhile Char.isDigit)
    | _ => ([], rest)
  if whole.isEmpty && fraction.isEmpty then none
  else (readExponent? rest).map fun e =>
    (digitsValue (whole ++ fraction), e - fraction.length)

/-- The double nearest to a number written in decimal. -/
def read? (s : String) : Option Double :=
  let (negative, cs) := takeSign s.toList
  match readUnsigned? cs with
  | some (digits, e) => some (.ofFloat (Binary64.ofDecimal negative digits e))
  | none =>
    match String.ofList (cs.map Char.toLower) with
    | "inf" | "infinity" => some (if negative then -Double.infinity else .infinity)
    | "nan" => some (.nan negative)
    | _ => none

end Playback.Decimal
