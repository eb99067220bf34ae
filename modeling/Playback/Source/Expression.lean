import Playback.Script.Basic
import Playback.Source.Reader

/-!
# Reading expressions

An expression is read as a flat row: operands with operator markers between them, and prefix markers in
front of their operands. An operand is a literal, a name, a call or a display, followed by any number of
attributes, method calls and subscripts. Every bracket and every one of these steps goes a level deeper,
and the levels are counted.
-/

namespace Playback.Source

open Reader

/-! ## Operator markers -/

/-- The marker of an operator in front of an operand. -/
def prefixSymbol? : Lexeme → Option String
  | .operator "-" => some "-"
  | .operator "+" => some "+"
  | .operator "~" => some "~"
  | .keyword .not_ => some "not"
  | _ => none

/-- The markers in front of an operand, and the lexemes after them. -/
def prefixRow : List Located → List Token × List Located
  | [] => ([], [])
  | l :: rest =>
    match prefixSymbol? l.lexeme with
    | some symbol =>
      let (markers, left) := prefixRow rest
      (.operator symbol :: markers, left)
    | none => ([], l :: rest)

/-- Takes the markers in front of an operand. -/
def prefixMarkers : Reader (List Token) :=
  modifyGet prefixRow

/-- The marker of an operator after an operand, given the lexeme after the next, and how many lexemes it
takes. Markers of two words are `is not` and `not in`. -/
def infixSymbol? (next : Lexeme) (second : Option Lexeme) : Option (String × Nat) :=
  match next, second with
  | .operator "~", _ => none
  | .operator symbol, _ => some (symbol, 1)
  | .keyword .and_, _ => some ("and", 1)
  | .keyword .or_, _ => some ("or", 1)
  | .keyword .in_, _ => some ("in", 1)
  | .keyword .is_, some (.keyword .not_) => some ("is not", 2)
  | .keyword .is_, _ => some ("is", 1)
  | .keyword .not_, some (.keyword .in_) => some ("not in", 2)
  | _, _ => none

/-- Takes the marker of an operator after an operand, if there is one. -/
def infixMarker? : Reader (Option String) := do
  match infixSymbol? (← peek).lexeme (← peekSecond?) with
  | none => return none
  | some (symbol, 1) =>
    advance
    return some symbol
  | some (symbol, _) =>
    advance
    advance
    return some symbol

/-- Operands with their markers, as far as they go. -/
def operandRow (operand : Reader Token) : Nat → Reader (List Token)
  | 0 => return []
  | fuel + 1 => do
    let markers ← prefixMarkers
    let t ← operand
    match ← infixMarker? with
    | none => return markers ++ [t]
    | some symbol => return markers ++ t :: .operator symbol :: (← operandRow operand fuel)

def flatExpression (operand : Reader Token) : Reader Expression := do
  let row ← operandRow operand (← remaining)
  match (← peek).lexeme with
  | .keyword .if_ => fail .conditionalExpression
  | .keyword .for_ => fail .comprehension
  | _ => return row

/-! ## Operands -/

/-- String literals that follow each other, joined, and the lexemes after them. -/
def stringRow : List Located → List String × List Located
  | ⟨.string s, _⟩ :: rest =>
    let (parts, left) := stringRow rest
    (s :: parts, left)
  | rest => ([], rest)

/-- An argument of a call, given those before it. -/
def argument (inner : Reader Expression) (before : List Argument) : Reader Argument := do
  let next := (← peek).lexeme
  let second ← peekSecond?
  match next, second with
  | .operator "*", _ => fail .argumentUnpacking
  | .operator "**", _ => fail .argumentUnpacking
  | .name name, some (.mark .assign) =>
    advance
    advance
    return .keyword name (← inner)
  | _, _ =>
    match before with
    | .keyword _ _ :: _ => fail .positionalAfterKeyword
    | _ => return .positional (← inner)

/-- The arguments of a call after its opening parenthesis. -/
def arguments (inner : Reader Expression) : Reader (List Argument) :=
  items .round "',' or ')'" (argument inner)

/-- What parentheses hold, after the opening one: nothing, an expression, or the elements of a tuple. -/
def parenthesized (inner : Reader Expression) : Reader Token := do
  if ← eat (.closing .round) then
    return .tuple []
  let first ← inner
  if ← eat (.closing .round) then
    return .bracket first
  if !(← sees .comma) then
    unexpected "',' or ')'"
  let rest ← more (Lexeme.isMark (.closing .round)) inner
  expect (.closing .round) "')'"
  return .tuple (first :: rest)

def entry (inner : Reader Expression) : Reader Entry := do
  let key ← inner
  expect .colon "':'"
  return .pair key (← inner)

/-- What braces hold, after the opening one: the entries of a dict or the elements of a set. -/
def braced (inner : Reader Expression) : Reader Token := do
  if ← eat (.closing .curly) then
    return .dict []
  let first ← inner
  let closes := Lexeme.isMark (.closing .curly)
  if ← eat .colon then
    let value ← inner
    let rest ← more closes (entry inner)
    expect (.closing .curly) "',' or '\x7d'"
    return .dict (.pair first value :: rest)
  else
    let rest ← more closes inner
    expect (.closing .curly) "',' or '\x7d'"
    return .set (first :: rest)

def atom (inner : Reader Expression) : Reader Token := do
  let next ← peek
  match next.lexeme with
  | .int i =>
    advance
    return .number (.int i)
  | .float x =>
    advance
    return .number (.float x)
  | .string _ =>
    let parts ← modifyGet stringRow
    return .string (String.join parts)
  | .keyword .true_ =>
    advance
    return .bool true
  | .keyword .false_ =>
    advance
    return .bool false
  | .keyword .none =>
    advance
    return .none
  | .name s =>
    advance
    if ← eat (.opening .round) then
      return .call s (← arguments inner)
    else
      return .name s
  | .mark (.opening .round) =>
    advance
    parenthesized inner
  | .mark (.opening .square) =>
    advance
    return .list (← items .square "',' or ']'" fun _ => inner)
  | .mark (.opening .curly) =>
    advance
    braced inner
  | .reserved word => fail (.reserved word)
  | _ => unexpected "an expression"

/-- A bound of a slice; the empty row where it is left open. -/
def bound (inner : Reader Expression) (isOpen : Lexeme → Bool) : Reader Expression := do
  if isOpen (← peek).lexeme then return [] else inner

/-- A subscript or a slice of a target, after the opening bracket. -/
def subscript (inner : Reader Expression) (target : Token) : Reader Token := do
  let start ← bound inner (Lexeme.isMark .colon)
  if ← eat .colon then
    let stop ← bound inner fun l => l.isMark .colon || l.isMark (.closing .square)
    if ← sees .colon then
      reject .sliceSteps
    expect (.closing .square) "']'"
    return .slice target start stop
  else
    let key ← if ← sees .comma then
        let rest ← more (Lexeme.isMark (.closing .square)) inner
        pure [Token.tuple (start :: rest)]
      else pure start
    expect (.closing .square) "']'"
    return .subscript target key

mutual

/-- An expression with `room` levels left. -/
def expression : Nat → Reader Expression
  | 0 => fail .tooDeep
  | room + 1 => flatExpression do trailers room (← atom (expression room))

/-- The attributes, method calls and subscripts after an operand, with `room` levels left. -/
def trailers : Nat → Token → Reader Token
  | 0, t => do
    match (← peek).lexeme with
    | .mark .dot => fail .tooDeep
    | .mark (.opening .square) => fail .tooDeep
    | .mark (.opening .round) => fail .notCallable
    | _ => return t
  | room + 1, t => do
    match (← peek).lexeme with
    | .mark .dot =>
      advance
      let member ← expectName
      if ← eat (.opening .round) then
        let args ← arguments (expression room)
        trailers room (.callMember t member args)
      else trailers room (.member t member)
    | .mark (.opening .square) =>
      advance
      trailers room (← subscript (expression room) t)
    | .mark (.opening .round) => fail .notCallable
    | _ => return t

end

/-- An expression that is nested in no other. -/
def wholeExpression : Reader Expression :=
  expression (maxNesting + 1)

/-- An operand that is nested in no expression. -/
def wholeOperand : Reader Token := do
  trailers (maxNesting + 1) (← atom (expression (maxNesting + 1)))

/-- Whether a row of expressions ends before this lexeme. -/
def endsRow : Lexeme → Bool
  | .mark .newline => true
  | .mark .endOfFile => true
  | .mark .assign => true
  | .mark .colon => true
  | .mark .semicolon => true
  | _ => false

/-- An expression, or a tuple written without parentheses. -/
def expressionRow : Reader Expression := do
  let first ← wholeExpression
  if ← sees .comma then
    let rest ← more endsRow wholeExpression
    return [.tuple (first :: rest)]
  else return first

end Playback.Source
