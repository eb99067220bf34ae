import Playback.Node.Basic
import Playback.Script.Basic

/-!
# The tree of a script

The canonical tree: every statement inside a statement node, every argument inside an argument node, and
no open places.
-/

namespace Playback

def Token.tag : Token → String
  | .operator _ => "PYTHON_BINARY_OPERATOR"
  | .number _ => "NUMERIC_LITERAL"
  | .string _ => "STRING_LITERAL"
  | .bool _ => "PYTHON_BOOL"
  | .none => "PYTHON_NONE"
  | .name _ => "PY_IDENTIFIER"
  | .call _ _ => "PYTHON_CALL_VARIABLE"
  | .callMember _ _ _ => "PYTHON_CALL_MEMBER"
  | .member _ _ => "PYTHON_MEMBER"
  | .list _ => "PYTHON_LIST"
  | .tuple _ => "PY_TUPLE"
  | .set _ => "PY_SET"
  | .dict _ => "PY_DICT"
  | .subscript _ _ => "PYTHON_SUBSCRIPT"
  | .slice _ _ _ => "PY_SLICE"
  | .bracket _ => "PY_BRACKET"

/-- A number as a property; a double without a JSON number is null. -/
def Number.toJson : Number → Json
  | .int i => .number (.int i.toInt)
  | .float x =>
    match Numeral.ofFloat? x with
    | some n => .number n
    | none => .null
  | .text s => .string s

namespace Node

def withProperty (tag property : String) (value : Json) : Node :=
  { tag, childSets := [], properties := [(property, value)] }

def withChildren (tag : String) (childSets : List (String × List Node)) : Node :=
  { tag, childSets, properties := [] }

def ofIdentifier (name : String) : Node :=
  withProperty "PY_IDENTIFIER" "identifier" (.string name)

def ofTokenNodes (tokens : List Node) : Node :=
  withChildren "PYTHON_EXPRESSION" [("tokens", tokens)]

mutual

def ofToken : Token → Node
  | .operator symbol => withProperty "PYTHON_BINARY_OPERATOR" "operator" (.string symbol)
  | .number n => withProperty "NUMERIC_LITERAL" "value" n.toJson
  | .string s => withProperty "STRING_LITERAL" "value" (.string s)
  | .bool b => withProperty "PYTHON_BOOL" "value" (.bool b)
  | .none => leaf "PYTHON_NONE"
  | .name s => ofIdentifier s
  | .call name args =>
    { tag := "PYTHON_CALL_VARIABLE"
      childSets := [("arguments", ofArguments args)]
      properties := [("identifier", .string name)] }
  | .callMember object member args =>
    { tag := "PYTHON_CALL_MEMBER"
      childSets := [("object", [ofToken object]), ("arguments", ofArguments args)]
      properties := [("member", .string member)] }
  | .member object member =>
    { tag := "PYTHON_MEMBER"
      childSets := [("object", [ofToken object])]
      properties := [("member", .string member)] }
  | .list elements => withChildren "PYTHON_LIST" [("elements", ofExpressions elements)]
  | .tuple elements => withChildren "PY_TUPLE" [("elements", ofExpressions elements)]
  | .set elements => withChildren "PY_SET" [("elements", ofExpressions elements)]
  | .dict entries => withChildren "PY_DICT" [("elements", ofEntries entries)]
  | .subscript target key =>
    withChildren "PYTHON_SUBSCRIPT"
      [("target", [ofToken target]), ("key", [ofTokenNodes (ofTokens key)])]
  | .slice target start stop =>
    withChildren "PY_SLICE"
      [("target", [ofToken target]),
       ("slicerange",
        [withChildren "PY_SLICE_RANGE"
          [("start", [ofTokenNodes (ofTokens start)]), ("end", [ofTokenNodes (ofTokens stop)])]])]
  | .bracket inner => withChildren "PY_BRACKET" [("expr", [ofTokenNodes (ofTokens inner)])]

def ofTokens : List Token → List Node
  | [] => []
  | token :: rest => ofToken token :: ofTokens rest

def ofExpressions : List (List Token) → List Node
  | [] => []
  | tokens :: rest => ofTokenNodes (ofTokens tokens) :: ofExpressions rest

def ofEntries : List Entry → List Node
  | [] => []
  | .pair key value :: rest =>
    withChildren "PY_KEYVALUE"
      [("key", [ofTokenNodes (ofTokens key)]), ("value", [ofTokenNodes (ofTokens value)])]
      :: ofEntries rest

def ofArguments : List Argument → List Node
  | [] => []
  | .positional value :: rest =>
    withChildren "PY_ARG" [("argument", [ofTokenNodes (ofTokens value)])] :: ofArguments rest
  | .keyword name value :: rest =>
    withChildren "PY_ARG"
      [("argument",
        [{ tag := "PY_KWARG"
           childSets := [("value", [ofTokenNodes (ofTokens value)])]
           properties := [("name", .string name)] }])]
      :: ofArguments rest

end

def ofExpression (e : Expression) : Node :=
  ofTokenNodes (ofTokens e)

mutual

/-- The node of a statement, without a statement node around it. -/
def ofBareStatement : Statement → Node
  | .blank => withChildren "PYTHON_STATEMENT" [("statement", [])]
  | .comment text => withProperty "PY_COMMENT" "value" (.string text)
  | .expression value => ofExpression value
  | .assignment targets value =>
    withChildren "PYTHON_ASSIGNMENT" [("left", ofTokens targets), ("right", [ofExpression value])]
  | .conditional condition body links =>
    withChildren "PYTHON_IF_STATEMENT"
      [("condition", [ofExpression condition]), ("trueblock", ofBlock body),
       ("elseblocks", ofLinks links)]
  | .whileLoop condition body =>
    withChildren "PYTHON_WHILE_LOOP"
      [("condition", [ofExpression condition]), ("block", ofBlock body)]
  | .forLoop targets iterable body =>
    withChildren "PYTHON_FOR_LOOP"
      [("target", ofTokens targets), ("iterable", [ofExpression iterable]),
       ("block", ofBlock body)]
  | .function name id params body =>
    { tag := "PYTHON_FUNCTION_DECLARATION"
      childSets :=
        [("identifier", [ofIdentifier name]), ("params", params.map ofIdentifier),
         ("body", ofBlock body)]
      properties := [("id", match id with
        | some id => .string id
        | none => .null)] }
  | .return_ value =>
    withChildren "PYTHON_RETURN" [("value", if value.isEmpty then [] else [ofExpression value])]
  | .break_ => leaf "PY_BREAK"
  | .continue_ => leaf "PY_CONTINUE"
  | .import_ modules =>
    withChildren "PYTHON_IMPORT"
      [("modules", modules.map fun m =>
        withProperty "PYTHON_MODULE_IDENTIFIER" "identifier" (.string m))]
  | .fromImport module names =>
    withChildren "PYTHON_FROM_IMPORT"
      [("module", [withProperty "PYTHON_MODULE_IDENTIFIER" "identifier" (.string module)]),
       ("attrs", names.map fun n =>
        withProperty "PYTHON_MODULE_ATTRIBUTE" "identifier" (.string n))]

/-- The nodes of a block, each statement in a statement node of its own. -/
def ofBlock : List Statement → List Node
  | [] => []
  | .blank :: rest => withChildren "PYTHON_STATEMENT" [("statement", [])] :: ofBlock rest
  | statement :: rest =>
    withChildren "PYTHON_STATEMENT" [("statement", [ofBareStatement statement])] :: ofBlock rest

def ofLinks : List Link → List Node
  | [] => []
  | .elif condition body :: rest =>
    withChildren "PYTHON_ELIF_STATEMENT"
      [("condition", [ofExpression condition]), ("block", ofBlock body)] :: ofLinks rest
  | .else_ body :: rest =>
    withChildren "PYTHON_ELSE_STATEMENT" [("block", ofBlock body)] :: ofLinks rest

end

def ofScript (body : Script) : Node :=
  withChildren "PYTHON_FILE" [("body", ofBlock body)]

end Node

end Playback
