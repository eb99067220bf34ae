import Playback.Decimal.Layout
import Playback.Script.Basic
import Playback.Text.Letter
import Playback.Text.Quoted

/-!
# Writing source texts

Every statement and every header of a block is a line, indented by four spaces a level, and an empty
block holds a `pass`. The numbers that compiled statements carry are the numbers of these lines.
-/

namespace Playback

def commas (items : List String) : String :=
  ", ".intercalate items

/-- A number as source text; a double that no literal stands for is a conversion. -/
def Number.source : Number → String
  | .int i => i.text
  | .float x =>
    let text := Decimal.literal.write x
    if Binary64.isFinite x then text else "float('" ++ text ++ "')"
  | .text s => s

/-- An operator marker in front of an operand. A word keeps its distance. -/
def prefixText (symbol : String) : String :=
  if symbol.toList.all Text.isLetter then symbol ++ " " else symbol

mutual

def Token.source : Token → String
  | .operator symbol => symbol
  | .number n => n.source
  | .string s => Text.quoted s
  | .bool true => "True"
  | .bool false => "False"
  | .none => "None"
  | .name s => s
  | .call name args => name ++ "(" ++ commas (argumentSources args) ++ ")"
  | .callMember object member args =>
    object.source ++ "." ++ member ++ "(" ++ commas (argumentSources args) ++ ")"
  | .member object member => object.source ++ "." ++ member
  | .list rows => "[" ++ commas (rowSources rows) ++ "]"
  | .tuple rows =>
    match rowSources rows with
    | [single] => "(" ++ single ++ ",)"
    | texts => "(" ++ commas texts ++ ")"
  | .set rows =>
    match rowSources rows with
    | [] => "set()"
    | texts => "\x7b" ++ commas texts ++ "\x7d"
  | .dict entries => "\x7b" ++ commas (entrySources entries) ++ "\x7d"
  | .subscript target key => target.source ++ "[" ++ rowSource false key ++ "]"
  | .slice target start stop =>
    target.source ++ "[" ++ rowSource false start ++ ":" ++ rowSource false stop ++ "]"
  | .bracket inner => "(" ++ rowSource false inner ++ ")"

/-- A flat row as source text. A marker right after an operand has spaces around it; elsewhere it stands in
front of what follows. -/
def rowSource (afterOperand : Bool) : List Token → String
  | [] => ""
  | .operator symbol :: rest =>
    (if afterOperand then " " ++ symbol ++ " " else prefixText symbol) ++ rowSource false rest
  | t :: rest => t.source ++ rowSource true rest

def rowSources : List (List Token) → List String
  | [] => []
  | row :: rest => rowSource false row :: rowSources rest

def Argument.source : Argument → String
  | .positional value => rowSource false value
  | .keyword name value => name ++ "=" ++ rowSource false value

def argumentSources : List Argument → List String
  | [] => []
  | a :: rest => a.source :: argumentSources rest

def Entry.source : Entry → String
  | .pair key value => rowSource false key ++ ": " ++ rowSource false value

def entrySources : List Entry → List String
  | [] => []
  | e :: rest => e.source :: entrySources rest

end

def expressionSource (e : Expression) : String :=
  rowSource false e

def targetsSource (targets : List Token) : String :=
  commas (targets.map Token.source)

/-- A line at a depth of indentation; an empty one is not indented. -/
def indentedLine (depth : Nat) (text : String) : String :=
  if text.isEmpty then "" else String.join (List.replicate depth "    ") ++ text

mutual

def Statement.lines (depth : Nat) : Statement → List String
  | .blank => [""]
  | .comment text => [indentedLine depth (if text.isEmpty then "#" else "# " ++ text)]
  | .expression value => [indentedLine depth (expressionSource value)]
  | .assignment targets value =>
    [indentedLine depth (targetsSource targets ++ " = " ++ expressionSource value)]
  | .conditional condition body links =>
    indentedLine depth ("if " ++ expressionSource condition ++ ":")
      :: bodyLines (depth + 1) body ++ linkLines depth links
  | .whileLoop condition body =>
    indentedLine depth ("while " ++ expressionSource condition ++ ":") :: bodyLines (depth + 1) body
  | .forLoop targets iterable body =>
    indentedLine depth ("for " ++ targetsSource targets ++ " in " ++ expressionSource iterable ++ ":")
      :: bodyLines (depth + 1) body
  | .function name _ params body =>
    indentedLine depth ("def " ++ name ++ "(" ++ commas params ++ "):") :: bodyLines (depth + 1) body
  | .return_ value =>
    [indentedLine depth (if value.isEmpty then "return" else "return " ++ expressionSource value)]
  | .break_ => [indentedLine depth "break"]
  | .continue_ => [indentedLine depth "continue"]
  | .import_ modules => [indentedLine depth ("import " ++ commas modules)]
  | .fromImport module names =>
    [indentedLine depth ("from " ++ module ++ " import " ++ commas names)]

def bodyLines (depth : Nat) : List Statement → List String
  | [] => [indentedLine depth "pass"]
  | s :: rest => s.lines depth ++ statementLines depth rest

def statementLines (depth : Nat) : List Statement → List String
  | [] => []
  | s :: rest => s.lines depth ++ statementLines depth rest

def linkLines (depth : Nat) : List Link → List String
  | [] => []
  | .elif condition body :: rest =>
    indentedLine depth ("elif " ++ expressionSource condition ++ ":")
      :: bodyLines (depth + 1) body ++ linkLines depth rest
  | .else_ body :: rest =>
    indentedLine depth "else:" :: bodyLines (depth + 1) body ++ linkLines depth rest

end

def Script.toSource (script : Script) : String :=
  String.join ((statementLines 0 script).map (· ++ "\n"))

end Playback
