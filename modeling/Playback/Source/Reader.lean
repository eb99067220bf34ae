import Playback.Source.Error

/-!
# Readers

A reader takes lexemes from the front of a row and gives what they stand for, or an error. The row ends
with the end of the file, which is never taken.
-/

namespace Playback.Source

/-- What reads something off the front of a row of lexemes. -/
abbrev Reader := StateT (List Located) (Except ReadError)

namespace Reader

def peek : Reader Located := do
  return ((← get).head?).getD ⟨.mark .endOfFile, ⟨1, 1⟩⟩

def peekSecond? : Reader (Option Lexeme) := do
  return ((← get).tail.head?).map (·.lexeme)

def advance : Reader Unit := do
  if !(← peek).lexeme.isMark .endOfFile then
    modify List.tail

def fail {α : Type} (fault : SyntaxFault) : Reader α := do
  throw (.invalid fault (← peek).place)

/-- A feature that scripts do not have, at the next lexeme. -/
def reject {α : Type} (feature : Feature) : Reader α := do
  throw (.unsupported feature (← peek).place)

/-- Another lexeme was expected than the next. -/
def unexpected {α : Type} (expected : String) : Reader α := do
  fail (.expected expected (← peek).lexeme)

def sees (m : Mark) : Reader Bool := do
  return (← peek).lexeme.isMark m

def eat (m : Mark) : Reader Bool := do
  if ← sees m then
    advance
    return true
  else return false

def expect (m : Mark) (expected : String) : Reader Unit := do
  if !(← eat m) then
    unexpected expected

def expectKeyword (k : Keyword) : Reader Unit := do
  if (← peek).lexeme.isKeyword k then advance else unexpected ("'" ++ k.text ++ "'")

def expectName : Reader String := do
  match (← peek).lexeme with
  | .name s =>
    advance
    return s
  | _ => unexpected "identifier"

def expectNewline : Reader Unit := do
  if ← sees .semicolon then
    fail .severalStatements
  expect .newline "end of line"

/-- How many lexemes are left: more than any repetition can take. -/
def remaining : Reader Nat := do
  return (← get).length

/-- Further items, each after a comma, as far as they go; a comma may also stand last, before a lexeme
that `stop` knows. -/
def furtherItems {α : Type} (stop : Lexeme → Bool) (item : Reader α) : Nat → Reader (List α)
  | 0 => return []
  | fuel + 1 => do
    if !(← eat .comma) then
      return []
    else if stop (← peek).lexeme then
      return []
    else
      let x ← item
      return x :: (← furtherItems stop item fuel)

def more {α : Type} (stop : Lexeme → Bool) (item : Reader α) : Reader (List α) := do
  furtherItems stop item (← remaining)

/-- Items up to a closing bracket, with commas between them and perhaps after the last. Each is read
knowing those before it, last first. -/
def closedItems {α : Type} (b : Bracket) (expected : String) (item : List α → Reader α) :
    Nat → List α → Reader (List α)
  | 0, found => return found.reverse
  | fuel + 1, found => do
    if ← eat (.closing b) then
      return found.reverse
    else
      let x ← item found
      if ← eat .comma then
        closedItems b expected item fuel (x :: found)
      else
        expect (.closing b) expected
        return (x :: found).reverse

/-- The items of a pair of brackets after the opening one. -/
def items {α : Type} (b : Bracket) (expected : String) (item : List α → Reader α) : Reader (List α) := do
  closedItems b expected item (← remaining) []

end Reader

end Playback.Source
