import Playback.Node.Basic
import Playback.Script.Basic
import Playback.Script.Error

/-!
# The script in a tree

Reading a tree node by node. Tags decide what a node is and are looked at nowhere else. Statements may
stand bare or inside statement nodes, arguments bare or inside argument nodes; empty expressions in
displays and calls are places the editor keeps open and are left out. Nesting is bounded: every reader
takes the `room` that is left below it.
-/

namespace Playback.Node

/-- The children of a set that must have some. -/
def someChildren (node : Node) (set : String) : Except CompileError (Node × List Node) :=
  match node.children set with
  | first :: rest => .ok (first, rest)
  | [] => .error (.missingChildSet node.tag set)

/-- The first child of a set that must have one. -/
def onlyChild (node : Node) (set : String) : Except CompileError Node :=
  (node.someChildren set).map (·.1)

/-- A property whose value is not of the kind asked for. -/
def invalid (node : Node) (property : String) (value : Json) : CompileError :=
  .invalidProperty node.tag property value.text

def stringProperty (node : Node) (property : String) : Except CompileError String :=
  match node.property? property with
  | some (.string s) => .ok s
  | some other => .error (node.invalid property other)
  | none => .error (.missingProperty node.tag property)

def identifier (node : Node) : Except CompileError String :=
  if node.tag = "PY_IDENTIFIER" then node.stringProperty "identifier"
  else .error (.unrecognized node.tag "identifier")

/-- The number in a numeric literal. An integer beyond 64 bits with sign becomes a double. -/
def numberValue (node : Node) : Except CompileError Number :=
  match node.property? "value" with
  | some (.number (.int i)) =>
    match Word.ofInt? i with
    | some w => .ok (.int w)
    | none => .ok (.float (UInt64.ofNat i.toNat).toFloat)
  | some (.number (.float x)) => .ok (.float x)
  | some (.string s) => .ok (.text s)
  | some other => .error (node.invalid "value" other)
  | none => .error (.missingProperty node.tag "value")

def boolValue (node : Node) : Except CompileError Bool :=
  match node.property? "value" with
  | some (.bool b) => .ok b
  | some other => .error (node.invalid "value" other)
  | none => .error (.missingProperty node.tag "value")

def expressionTooDeep : CompileError :=
  .tooDeep "Expressions" maxTreeNesting

/-- A row of tokens, each read with `token`. -/
def tokensWith (token : Node → Except CompileError Token) (nodes : List Node) :
    Except CompileError (List Token) :=
  nodes.mapM token

/-- Reads an expression node; `token` reads its tokens. -/
def expressionWith (token : Node → Except CompileError Token) (node : Node) :
    Except CompileError Expression :=
  if node.tag = "PYTHON_EXPRESSION" then tokensWith token (node.children "tokens")
  else .error (.unrecognized node.tag "expression")

/-- The elements of a display that are not empty. -/
def elementsWith (expression : Node → Except CompileError Expression) (node : Node) :
    Except CompileError (List Expression) := do
  return (← (node.children "elements").mapM expression).filter (!·.isEmpty)

def entryWith (expression : Node → Except CompileError Expression) (node : Node) :
    Except CompileError Entry := do
  if node.tag = "PY_KEYVALUE" then
    return .pair (← expression (← node.onlyChild "key")) (← expression (← node.onlyChild "value"))
  else throw (.unrecognized node.tag "dictionary element")

/-- Reads one argument; an empty place gives none. -/
def argumentWith? (expression : Node → Except CompileError Expression) (node : Node) :
    Except CompileError (Option Argument) := do
  let inner := if node.tag = "PY_ARG" then (node.children "argument").head? else some node
  match inner with
  | none => return none
  | some value =>
    if value.tag = "PYTHON_EXPRESSION" then
      let tokens ← expression value
      return if tokens.isEmpty then none else some (.positional tokens)
    else if value.tag = "PY_KWARG" then
      let name ← value.stringProperty "name"
      return some (.keyword name (← expression (← value.onlyChild "value")))
    else throw (.unrecognized value.tag "call argument")

def argumentsWith (expression : Node → Except CompileError Expression) (node : Node) :
    Except CompileError (List Argument) := do
  return (← (node.children "arguments").mapM (argumentWith? expression)).filterMap id

def boundWith (expression : Node → Except CompileError Expression) (range : Node) (set : String) :
    Except CompileError Expression :=
  match range.children set with
  | [] => .ok []
  | node :: _ => expression node

/-- Reads a token; `token` and `expression` read what is nested in it. -/
def tokenWith (token : Node → Except CompileError Token)
    (expression : Node → Except CompileError Expression) (node : Node) :
    Except CompileError Token :=
  match node.tag with
  | "PYTHON_BINARY_OPERATOR" => return .operator (← node.stringProperty "operator")
  | "NUMERIC_LITERAL" => return .number (← node.numberValue)
  | "STRING_LITERAL" => return .string (← node.stringProperty "value")
  | "PYTHON_BOOL" => return .bool (← node.boolValue)
  | "PYTHON_NONE" => return .none
  | "PY_IDENTIFIER" => return .name (← node.stringProperty "identifier")
  | "PYTHON_CALL_VARIABLE" => do
    let name ← node.stringProperty "identifier"
    return .call name (← argumentsWith expression node)
  | "PYTHON_CALL_MEMBER" => do
    let object ← token (← node.onlyChild "object")
    let member ← node.stringProperty "member"
    return .callMember object member (← argumentsWith expression node)
  | "PYTHON_MEMBER" => do
    let object ← token (← node.onlyChild "object")
    return .member object (← node.stringProperty "member")
  | "PYTHON_LIST" => return .list (← elementsWith expression node)
  | "PY_TUPLE" => return .tuple (← elementsWith expression node)
  | "PY_SET" => return .set (← elementsWith expression node)
  | "PY_DICT" => return .dict (← (node.children "elements").mapM (entryWith expression))
  | "PYTHON_SUBSCRIPT" => do
    let target ← token (← node.onlyChild "target")
    return .subscript target (← expression (← node.onlyChild "key"))
  | "PY_SLICE" => do
    let range ← node.onlyChild "slicerange"
    let target ← token (← node.onlyChild "target")
    let start ← boundWith expression range "start"
    return .slice target start (← boundWith expression range "end")
  | "PY_BRACKET" => return .bracket (← expression (← node.onlyChild "expr"))
  | tag => throw (.unrecognized tag "expression token")

mutual

/-- Reads a token with `room` levels left. -/
def tokenIn : Nat → Node → Except CompileError Token
  | 0, _ => .error expressionTooDeep
  | room + 1, node => tokenWith (tokenIn room) (expressionIn room) node

/-- Reads an expression with `room` levels left. -/
def expressionIn : Nat → Node → Except CompileError Expression
  | 0, _ => .error expressionTooDeep
  | room + 1, node => expressionWith (tokenIn room) node

end

def token (node : Node) : Except CompileError Token :=
  tokenIn (maxTreeNesting + 1) node

def expression (node : Node) : Except CompileError Expression :=
  expressionIn (maxTreeNesting + 1) node

mutual

/-- What the statement nodes around a statement hold at last, if they hold anything. -/
def unwrap? : Node → Option Node
  | ⟨tag, sets, properties⟩ =>
    if tag = "PYTHON_STATEMENT" then unwrapSets? sets else some ⟨tag, sets, properties⟩

/-- Looks for the statement inside a statement node. -/
def unwrapSets? : List (String × List Node) → Option Node
  | [] => none
  | (name, nodes) :: rest => if name = "statement" then unwrapFirst? nodes else unwrapSets? rest

/-- The first of a row of nodes, freed of the statement nodes around it. -/
def unwrapFirst? : List Node → Option Node
  | [] => none
  | node :: _ => unwrap? node

end

/-- The id of a function: a text, or any other value in its JSON text; null is none. -/
def functionId (node : Node) : Option String :=
  match node.property? "id" with
  | none | some .null => none
  | some (.string s) => some s
  | some other => some other.text

/-- Reads a link of a conditional; `block` reads its body. -/
def linkWith (block : List Node → Except CompileError (List Statement)) (node : Node) :
    Except CompileError Link :=
  match node.tag with
  | "PYTHON_ELIF_STATEMENT" => do
    let condition ← expression (← node.onlyChild "condition")
    return .elif condition (← block (node.children "block"))
  | "PYTHON_ELSE_STATEMENT" => return .else_ (← block (node.children "block"))
  | tag => throw (.unrecognized tag "else block")

/-- Reads a statement without the statement nodes around it; `block` reads the bodies in it. -/
def bareStatementWith (block : List Node → Except CompileError (List Statement)) (node : Node) :
    Except CompileError Statement :=
  match node.tag with
  | "PY_COMMENT" =>
    return .comment (match node.property? "value" with
      | some (.string s) => s
      | _ => "")
  | "PYTHON_EXPRESSION" => return .expression (← expression node)
  | "PYTHON_ASSIGNMENT" => do
    let (first, rest) ← node.someChildren "left"
    let targets ← tokensWith token (first :: rest)
    return .assignment targets (← expression (← node.onlyChild "right"))
  | "PYTHON_IF_STATEMENT" => do
    let condition ← expression (← node.onlyChild "condition")
    let body ← block (node.children "trueblock")
    return .conditional condition body (← (node.children "elseblocks").mapM (linkWith block))
  | "PYTHON_WHILE_LOOP" => do
    let condition ← expression (← node.onlyChild "condition")
    return .whileLoop condition (← block (node.children "block"))
  | "PYTHON_FOR_LOOP" => do
    let (first, rest) ← node.someChildren "target"
    let targets ← tokensWith token (first :: rest)
    let iterable ← expression (← node.onlyChild "iterable")
    return .forLoop targets iterable (← block (node.children "block"))
  | "PYTHON_FUNCTION_DECLARATION" => do
    let name ← (← node.onlyChild "identifier").identifier
    let params ← (node.children "params").mapM identifier
    return .function name node.functionId params (← block (node.children "body"))
  | "PYTHON_RETURN" =>
    match node.children "value" with
    | [] => return .return_ []
    | value :: _ => return .return_ (← expression value)
  | "PY_BREAK" => return .break_
  | "PY_CONTINUE" => return .continue_
  | "PYTHON_IMPORT" =>
    return .import_ (← (node.children "modules").mapM (stringProperty · "identifier"))
  | "PYTHON_FROM_IMPORT" => do
    let module ← (← node.onlyChild "module").stringProperty "identifier"
    return .fromImport module (← (node.children "attrs").mapM (stringProperty · "identifier"))
  | tag => throw (.unrecognized tag "statement")

/-- Reads a statement; `block` reads the bodies in it. -/
def statementWith (block : List Node → Except CompileError (List Statement)) (node : Node) :
    Except CompileError Statement :=
  match node.unwrap? with
  | none => .ok .blank
  | some bare => bareStatementWith block bare

/-- Reads a block with room for `room` levels of blocks, its own included. -/
def blockIn : Nat → List Node → Except CompileError (List Statement)
  | 0, _ => .error (.tooDeep "Statement blocks" maxBlockNesting)
  | room + 1, nodes => nodes.mapM (statementWith (blockIn room))

def block (nodes : List Node) : Except CompileError (List Statement) :=
  blockIn (maxBlockNesting + 1) nodes

def statement (node : Node) : Except CompileError Statement :=
  statementWith (blockIn maxBlockNesting) node

def script (node : Node) : Except CompileError Script :=
  if node.tag = "PYTHON_FILE" then block (node.children "body") else .error (.notAFile node.tag)

end Playback.Node
