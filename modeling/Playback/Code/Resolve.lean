import Playback.Code.Basic
import Playback.Decimal.Read
import Playback.Script.Basic
import Playback.Script.Error
import Playback.Text.Blank

/-!
# Resolving expressions

An expression is a flat row of tokens; resolving it finds the tree that the precedences ask for. A leaf
is an operand, or a prefix operator over a leaf extended by what binds tighter. From a leaf, `climb`
takes in operators that bind at least as tightly as asked for: the operand on the right of each is first
extended by everything that binds tighter still, so that rows of equal precedence group from the left and
powers from the right. Comparisons that follow each other become one chain.

Prefix operators, extensions and nested operands each go one level deeper, and the levels are counted:
`Below` is what resolves the parts one level down, and there is none where no level is left.
-/

namespace Playback.Resolve

def maxDepth : Nat := 1000

def tooDeep : CompileError :=
  .tooDeep "Expressions" maxDepth

abbrev Resolved := Except CompileError (Expr × List Token)

/-- What resolves the parts one level down. -/
structure Below where
  /-- Resolves a leaf at the front of a row. -/
  leaf : List Token → Resolved
  /-- Extends a tree by the operators that bind at least as tightly as asked for. -/
  climb : Nat → Expr → List Token → Resolved
  operand : Token → Except CompileError Expr
  /-- Resolves a row of tokens as a whole; the empty row has no value. -/
  whole : List Token → Except CompileError (Option Expr)

/-! ## Operators -/

/-- The binary operator at the front of a row, with the rest. -/
def peek : List Token → Except CompileError (Option (Operator × List Token))
  | .operator symbol :: rest =>
    match Operator.ofSymbol? symbol with
    | some op => .ok (some (op, rest))
    | none =>
      if (UnaryOp.ofSymbol? symbol).isSome then
        .error (.malformed s!"'{symbol}' is not a binary operator")
      else .error (.unknownOperator symbol)
  | _ => .ok none

/-- The prefix operator with a symbol that stands where an operand should start. -/
def prefixOp (symbol : String) : Except CompileError UnaryOp :=
  match UnaryOp.ofSymbol? symbol with
  | some op => .ok op
  | none =>
    if (Operator.ofSymbol? symbol).isSome then
      .error (.malformed s!"operator '{symbol}' cannot start an operand")
    else .error (.unknownOperator symbol)

/-- Whether an operator takes the operand before it away from an operator further left. -/
def bindsTighter (next op : Operator) : Bool :=
  op.precedence < next.precedence || (next.precedence == op.precedence && next.groupsRight)

/-! ## Operands -/

def describe : Token → String
  | .operator symbol => s!"operator '{symbol}'"
  | .name s => s!"identifier '{s}'"
  | _ => "operand"

def numberConstant : Number → Except CompileError Constant
  | .int i => .ok (.int i)
  | .float x => .ok (.float (.ofFloat x))
  | .text s =>
    let trimmed := Text.trimBlanks s
    match Word.ofDecimal? trimmed.toList with
    | some i => .ok (.int i)
    | none =>
      match Decimal.read? trimmed with
      | some x => .ok (.float x)
      | none => .error (.invalidProperty "NUMERIC_LITERAL" "value" s)

def required (tag set : String) : Option Expr → Except CompileError Expr
  | some e => .ok e
  | none => .error (.missingExpression tag set)

/-- The trees of a row of expressions; empty ones are left out. -/
def elements (whole : List Token → Except CompileError (Option Expr)) (rows : List (List Token)) :
    Except CompileError (List Expr) := do
  return (← rows.mapM whole).filterMap id

def entries (whole : List Token → Except CompileError (Option Expr)) (rows : List Entry) :
    Except CompileError (List (Expr × Expr)) :=
  rows.mapM fun
    | .pair key value => do
      let k ← required "PY_KEYVALUE" "key" (← whole key)
      let v ← required "PY_KEYVALUE" "value" (← whole value)
      return (k, v)

/-- The arguments of a call: positional ones, then keywords, each in their order. -/
def arguments (whole : List Token → Except CompileError (Option Expr)) :
    List Argument → Except CompileError (List Expr × List (String × Expr))
  | [] => .ok ([], [])
  | .positional value :: rest => do
    let e ← whole value
    let (args, keywords) ← arguments whole rest
    return (e.toList ++ args, keywords)
  | .keyword name value :: rest => do
    let e ← required "PY_KWARG" "value" (← whole value)
    let (args, keywords) ← arguments whole rest
    return (args, (name, e) :: keywords)

/-- Resolves an operand with what is nested in it. -/
def operandWith (below : Option Below) (token : Token) : Except CompileError Expr :=
  match below with
  | none => .error tooDeep
  | some below =>
    match token with
    | .operator symbol => .error (.malformed s!"operator '{symbol}' where an operand was expected")
    | .number n => return .const (← numberConstant n)
    | .string s => .ok (.const (.string s))
    | .bool b => .ok (.const (.bool b))
    | .none => .ok (.const .none)
    | .name s => .ok (.name s)
    | .call name args => do
      let (args, keywords) ← arguments below.whole args
      return .call (.name name) args keywords
    | .callMember object member args => do
      let (args, keywords) ← arguments below.whole args
      return .call (.attribute (← below.operand object) member) args keywords
    | .member object member => return .attribute (← below.operand object) member
    | .list rows => return .list (← elements below.whole rows)
    | .tuple rows => return .tuple (← elements below.whole rows)
    | .set rows => return .set (← elements below.whole rows)
    | .dict rows => return .dict (← entries below.whole rows)
    | .subscript target key => do
      let value ← below.operand target
      return .subscript value (← required "PYTHON_SUBSCRIPT" "key" (← below.whole key))
    | .slice target start stop => do
      let value ← below.operand target
      let lower ← below.whole start
      return .slice value lower (← below.whole stop)
    | .bracket inner => do required "PY_BRACKET" "expr" (← below.whole inner)

/-! ## Leaves and climbing -/

def leafWith (below : Option Below) : List Token → Resolved
  | [] => .error (.malformed "expected an operand after the last operator")
  | .operator symbol :: rest => do
    let op ← prefixOp symbol
    match below with
    | none => throw tooDeep
    | some below =>
      let (operand, rest) ← below.leaf rest
      let (operand, rest) ← below.climb op.precedence operand rest
      return (.unary op operand, rest)
  | token :: rest => return (← operandWith below token, rest)

/-- Extends the operand on the right of `op` by the operators that bind tighter, as long as there are
any; every round takes in at least one token. -/
def extend (below : Option Below) (op : Operator) : Nat → Expr → List Token → Resolved
  | 0, rhs, tokens => .ok (rhs, tokens)
  | fuel + 1, rhs, tokens => do
    match ← peek tokens with
    | none => return (rhs, tokens)
    | some (next, _) =>
      if bindsTighter next op then
        match below with
        | none => throw tooDeep
        | some b =>
          let (rhs, tokens) ← b.climb next.precedence rhs tokens
          extend below op fuel rhs tokens
      else return (rhs, tokens)

/-- The tree of an operator over its operands, and whether a comparison may be chained to it. `chainable`
says whether the left operand is a chain of this very row. -/
def combine (op : Operator) (chainable : Bool) (lhs rhs : Expr) : Expr × Bool :=
  match op with
  | .bool op => (.bool op lhs rhs, false)
  | .binary op => (.binary op lhs rhs, false)
  | .compare op =>
    match chainable, lhs with
    | true, .compare first rest => (.compare first (rest ++ [(op, rhs)]), true)
    | _, _ => (.compare lhs [(op, rhs)], true)

/-- Takes operators of precedence `least` and above in from the right of a tree, as long as there are any;
every round takes in at least one token. -/
def climbLoop (below : Option Below) (least : Nat) : Nat → Bool → Expr → List Token → Resolved
  | 0, _, lhs, tokens => .ok (lhs, tokens)
  | fuel + 1, chainable, lhs, tokens => do
    match ← peek tokens with
    | none => return (lhs, tokens)
    | some (op, rest) =>
      if op.precedence < least then return (lhs, tokens)
      else
        let (rhs, rest) ← leafWith below rest
        let (rhs, rest) ← extend below op rest.length rhs rest
        let (lhs, chainable) := combine op chainable lhs rhs
        climbLoop below least fuel chainable lhs rest

/-- Extends a tree by the operators of precedence `least` and above. -/
def climbWith (below : Option Below) (least : Nat) (lhs : Expr) (tokens : List Token) : Resolved :=
  climbLoop below least tokens.length false lhs tokens

def wholeWith (below : Option Below) (tokens : List Token) : Except CompileError (Option Expr) :=
  if tokens.isEmpty then .ok none
  else
    match below with
    | none => .error tooDeep
    | some below => do
      let (lhs, rest) ← below.leaf tokens
      let (e, rest) ← below.climb 0 lhs rest
      match rest with
      | [] => return some e
      | extra :: _ =>
        throw (.malformed s!"unexpected {describe extra} after a complete expression")

/-- What resolves the parts with `room` levels left. -/
def below : Nat → Option Below
  | 0 => none
  | room + 1 =>
    let b := below room
    some { leaf := leafWith b, climb := climbWith b, operand := operandWith b, whole := wholeWith b }

/-- Resolves an expression; the empty one has no value. -/
def expression (e : Expression) : Except CompileError (Option Expr) :=
  wholeWith (below maxDepth) e

/-- Resolves an expression that must have a value. -/
def value (tag set : String) (e : Expression) : Except CompileError Expr := do
  required tag set (← expression e)

def operand (token : Token) : Except CompileError Expr :=
  operandWith (below maxDepth) token

end Playback.Resolve
