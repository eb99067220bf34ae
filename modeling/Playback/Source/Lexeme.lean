import Playback.Decimal.Layout
import Playback.Text.Escaped
import Playback.Word

/-!
# Lexemes

A source text is read as a row of lexemes. Besides words, literals and symbols there are layout lexemes: the
end of every logical line, and a step of indentation in or out.
-/

namespace Playback.Source

/-- A place in a source text; lines and columns are counted from one. -/
structure Place where
  line : Nat
  column : Nat
deriving DecidableEq

def Place.text (p : Place) : String :=
  s!"line {p.line}, column {p.column}"

def Place.after (p : Place) (c : Char) : Place :=
  if c = '\n' then ⟨p.line + 1, 1⟩ else ⟨p.line, p.column + 1⟩

/-- Words with a meaning of their own. -/
inductive Keyword where
  | def_ | return_ | if_ | elif | else_ | while_ | for_ | in_ | break_ | continue_ | pass
  | import_ | from_ | as_ | and_ | or_ | not_ | is_ | true_ | false_ | none
deriving DecidableEq

def Keyword.table : List (String × Keyword) :=
  [("def", .def_), ("return", .return_), ("if", .if_), ("elif", .elif), ("else", .else_),
    ("while", .while_), ("for", .for_), ("in", .in_), ("break", .break_), ("continue", .continue_),
    ("pass", .pass), ("import", .import_), ("from", .from_), ("as", .as_), ("and", .and_), ("or", .or_),
    ("not", .not_), ("is", .is_), ("True", .true_), ("False", .false_), ("None", .none)]

def Keyword.text (k : Keyword) : String :=
  ((table.find? fun entry => entry.2 == k).map (·.1)).getD ""

def Keyword.ofText? (s : String) : Option Keyword :=
  table.lookup s

def reservedWords : List String :=
  ["class", "lambda", "try", "except", "finally", "raise", "with", "yield", "global", "nonlocal", "del",
    "assert", "async", "await"]

/-- Operator symbols; a symbol stands before its own beginnings. -/
def operatorSymbols : List String :=
  ["**", "//", "<<", ">>", "==", "!=", "<=", ">=", "+", "-", "*", "/", "%", "@", "|", "^", "&", "~", "<",
    ">"]

/-- Symbols of assignments that combine the old value with a new one. -/
def augmentedSymbols : List String :=
  ["**=", "//=", "<<=", ">>=", "+=", "-=", "*=", "/=", "%=", "@=", "|=", "^=", "&="]

inductive Bracket where
  | round | square | curly
deriving DecidableEq

/-- Punctuation and layout. -/
inductive Mark where
  | assign | arrow | dot | colon | comma | semicolon
  | opening (b : Bracket)
  | closing (b : Bracket)
  /-- The end of a logical line. -/
  | newline
  | indent
  | dedent
  | endOfFile
deriving DecidableEq

inductive Lexeme where
  | int (i : Word)
  | float (x : Float)
  | string (s : String)
  | name (s : String)
  | keyword (k : Keyword)
  /-- A keyword that scripts cannot hold. -/
  | reserved (word : String)
  | operator (symbol : String)
  | augmented (symbol : String)
  | mark (m : Mark)
  /-- A comment on a line of its own. -/
  | comment (text : String)

/-- A lexeme and where it starts. -/
structure Located where
  lexeme : Lexeme
  place : Place

/-- Punctuation and layout as messages show them. -/
def Mark.display : Mark → String
  | .assign => "'='"
  | .arrow => "'->'"
  | .dot => "'.'"
  | .colon => "':'"
  | .comma => "','"
  | .semicolon => "';'"
  | .opening .round => "'('"
  | .closing .round => "')'"
  | .opening .square => "'['"
  | .closing .square => "']'"
  | .opening .curly => "'\x7b'"
  | .closing .curly => "'\x7d'"
  | .newline => "end of line"
  | .indent => "indent"
  | .dedent => "dedent"
  | .endOfFile => "end of file"

def Lexeme.display : Lexeme → String
  | .int i => "int literal " ++ i.text
  | .float x => "float literal " ++ Decimal.plain.write x
  | .string s => "string literal " ++ Text.escaped s
  | .name s => s!"identifier '{s}'"
  | .keyword k => "'" ++ k.text ++ "'"
  | .reserved word => s!"'{word}'"
  | .operator symbol => s!"'{symbol}'"
  | .augmented symbol => s!"'{symbol}'"
  | .mark m => m.display
  | .comment _ => "comment"

/-- Whether a lexeme is a given piece of punctuation or layout. -/
def Lexeme.isMark (m : Mark) : Lexeme → Bool
  | .mark n => n == m
  | _ => false

def Lexeme.isKeyword (k : Keyword) : Lexeme → Bool
  | .keyword l => l == k
  | _ => false

end Playback.Source
