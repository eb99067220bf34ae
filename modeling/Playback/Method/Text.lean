import Playback.Function.Arguments
import Playback.Text.Blank
import Playback.Text.Case
import Playback.Text.Numeric
import Playback.Text.Search
import Playback.Value.Elements

/-!
# Methods of texts
-/

namespace Playback

def TextMethod.takes : TextMethod → Nat × Nat
  | .upper => (0, 0)
  | .lower => (0, 0)
  | .strip => (0, 1)
  | .lstrip => (0, 1)
  | .rstrip => (0, 1)
  | .split => (0, 1)
  | .join => (1, 1)
  | .replace => (2, 2)
  | .startsWith => (1, 1)
  | .endsWith => (1, 1)
  | .find => (1, 1)
  | .count => (1, 1)
  | .isDigit => (0, 0)
  | .isAlpha => (0, 0)
  | .title => (0, 0)
  | .capitalize => (0, 0)

def textArgument (method : String) : Value → Except Fault String
  | .str s => .ok s
  | other => .error (.notText method other.typeName)

/-- What a method strips: the characters of its argument, or blanks. -/
def strippable (method : String) (arg : Option Value) : Except Fault (Char → Bool) :=
  match arg.bind Value.given? with
  | none => .ok Text.isBlank
  | some v => do
    let chars := (← textArgument method v).toList
    return fun c => chars.contains c

/-- Whether one of several texts passes a test; those after it are not looked at. -/
def anyText (method : String) (test : String → Bool) : List Value → Except Fault Bool
  | [] => .ok false
  | v :: rest => do
    if test (← textArgument method v) then return true else anyText method test rest

/-- The texts that a method may look for: the items of a tuple, or a single one. -/
def candidates : Value → List Value
  | .tuple _ items => items
  | v => [v]

/-- The texts of a row of values that are to be joined. -/
def Heap.joinedTexts (h : Heap) (v : Value) : Except Fault (List String) := do
  let es ← h.elements v
  let step : Nat × List String → Value → Except Fault (Nat × List String) := fun (index, read) v =>
    match v with
    | .str s => .ok (index + 1, s :: read)
    | other => .error (.joinedItem index other.typeName)
  let (_, read) ← es.fold step (0, [])
  return read.reverse

namespace HeapM

/-- The parts of a text between blanks or at a separator. -/
def splitText (method s : String) (separator : Option Value) : Except Fault (List String) :=
  match separator.bind Value.given? with
  | none => .ok (Text.words s)
  | some v => do
    let sep ← textArgument method v
    if sep.isEmpty then throw .emptySeparator else return Text.splitAt sep s

/-- A method of a text on as many arguments as it takes; `name` is how messages call it. -/
def textMethod (s : String) (m : TextMethod) (name : String) (args : List Value) : HeapM Value := do
  match m, args with
  | .upper, _ => return .str (Text.upper s)
  | .lower, _ => return .str (Text.lower s)
  | .strip, args =>
    let p ← lift (strippable name args.head?)
    return .str (String.ofList (Text.dropEndsWhile p s.toList))
  | .lstrip, args =>
    let p ← lift (strippable name args.head?)
    return .str (String.ofList (s.toList.dropWhile p))
  | .rstrip, args =>
    let p ← lift (strippable name args.head?)
    return .str (String.ofList (Text.dropTailWhile p s.toList))
  | .split, args =>
    let parts ← lift (splitText name s args.head?)
    listOf (parts.map .str)
  | .join, [v] => return .str (s.intercalate (← ask fun h => h.joinedTexts v))
  | .replace, [old, new] =>
    let old ← lift (textArgument name old)
    let new ← lift (textArgument name new)
    return .str (Text.replaceAll old new s)
  | .startsWith, [v] =>
    return .bool (← lift (anyText name (fun head => Text.beginsWith head s) (candidates v)))
  | .endsWith, [v] =>
    return .bool (← lift (anyText name (fun tail => Text.endsWith tail s) (candidates v)))
  | .find, [v] =>
    match Text.indexOf? (← lift (textArgument name v)) s with
    | some p => return .int (Int64.ofNat p)
    | none => return .int (-1)
  | .count, [v] => return .int (Int64.ofNat (Text.occurrences (← lift (textArgument name v)) s))
  | .isDigit, _ => return .bool (!s.isEmpty && s.toList.all Text.isNumeric)
  | .isAlpha, _ => return .bool (!s.isEmpty && s.toList.all Text.isLetter)
  | .title, _ => return .str (Text.title s)
  | .capitalize, _ => return .str (Text.capitalize s)
  | _, _ => return .none

end HeapM

end Playback
