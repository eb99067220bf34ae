import Playback.Word

/-!
# Scripts

A script is what an editor tree and a source text have in common: statements whose expressions are flat
rows of tokens. Operands and operator markers alternate in a row; how they bind is decided later.
-/

namespace Playback

/-- A number as a token holds it. -/
inductive Number where
  | int (i : Word)
  | float (x : Float)
  /-- A text typed into the editor, read when the script is compiled. -/
  | text (s : String)

mutual

inductive Token where
  /-- A marker of a binary or prefix operator. -/
  | operator (symbol : String)
  | number (n : Number)
  | string (s : String)
  | bool (b : Bool)
  | none
  | name (s : String)
  | call (name : String) (args : List Argument)
  | callMember (object : Token) (member : String) (args : List Argument)
  | member (object : Token) (member : String)
  | list (elements : List (List Token))
  | tuple (elements : List (List Token))
  | set (elements : List (List Token))
  | dict (entries : List Entry)
  | subscript (target : Token) (key : List Token)
  /-- A slice; an empty bound is open. -/
  | slice (target : Token) (start stop : List Token)
  | bracket (inner : List Token)

inductive Argument where
  | positional (value : List Token)
  | keyword (name : String) (value : List Token)

/-- A key and its value in a dict display. -/
inductive Entry where
  | pair (key value : List Token)

end

/-- An expression: a flat row of tokens. The empty row has no value. -/
abbrev Expression := List Token

mutual

inductive Statement where
  | blank
  | comment (text : String)
  | expression (value : Expression)
  | assignment (targets : List Token) (value : Expression)
  | conditional (condition : Expression) (body : List Statement) (links : List Link)
  | whileLoop (condition : Expression) (body : List Statement)
  | forLoop (targets : List Token) (iterable : Expression) (body : List Statement)
  /-- A function. The id names it in the trace; without one its name does. -/
  | function (name : String) (id : Option String) (params : List String) (body : List Statement)
  /-- A return; an empty value returns nothing. -/
  | return_ (value : Expression)
  | break_
  | continue_
  | import_ (modules : List String)
  | fromImport (module : String) (names : List String)

inductive Link where
  | elif (condition : Expression) (body : List Statement)
  | else_ (body : List Statement)

end

/-- A script: the statements of a file. -/
abbrev Script := List Statement

/-- How deep the expressions of a source text may be nested. -/
def maxNesting : Nat := 200

/-- How deep blocks may be nested: levels of indentation in a source text, bodies in a tree. -/
def maxBlockNesting : Nat := 100

/-- How deep the expressions of a tree may be nested: deeper than any source text asks for. -/
def maxTreeNesting : Nat := 2 * maxNesting + 50

end Playback
