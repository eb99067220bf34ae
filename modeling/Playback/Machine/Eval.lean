import Playback.Machine.Call
import Playback.Machine.Console
import Playback.Method.Call
import Playback.Operation.Compare

/-!
# Evaluating expressions

Operands are evaluated from the left to the right, the callee before its arguments and the positional ones
before the keywords. Evaluation is by recursion on the expression; only a call of a function leaves it, and
`invoke` makes that call.
-/

namespace Playback

abbrev Invoke := FunctionCode → List Value → Keywords → Eval Value

namespace Eval

def apply (invoke : Invoke) (callee : Value) (args : List Value) (keywords : Keywords) : Eval Value :=
  match callee with
  | .function code => invoke code args keywords
  | .builtin b => callBuiltin b args keywords
  | .method m => onHeap (HeapM.callMethod m args keywords)
  | other => raise (.notCallable other.typeName)

/-- Whether the left operand decides a boolean operator. -/
def decides (op : BoolOp) (left : Bool) : Bool :=
  match op with
  | .and => !left
  | .or => left

def toBound (v : Value) : Eval (Option Word) :=
  lift (sliceBound v)

mutual

def eval (invoke : Invoke) : Expr → Eval Value
  | .const c => return Value.ofConstant c
  | .name s => load s
  | .unary op e => do
    let v ← eval invoke e
    lift (Arithmetic.unary (← get).heap.truthy op v)
  | .binary op l r => do
    let a ← eval invoke l
    let b ← eval invoke r
    onHeap (HeapM.binary op a b)
  | .bool op l r => do
    let a ← eval invoke l
    if decides op (← truthy a) then return a else eval invoke r
  | .compare l rest => do
    let a ← eval invoke l
    evalChain invoke a rest
  | .call f args keywords => do
    let callee ← eval invoke f
    let vs ← evalAll invoke args
    let ks ← evalKeywords invoke keywords
    apply invoke callee vs ks
  | .attribute e name => do
    let v ← eval invoke e
    lift (v.attribute name)
  | .subscript e i => do
    let container ← eval invoke e
    let index ← eval invoke i
    lift ((← get).heap.item container index)
  | .slice e lower upper => do
    let container ← eval invoke e
    let l ← evalBound invoke lower
    let u ← evalBound invoke upper
    onHeap (HeapM.slice container l u)
  | .list elements => do
    let vs ← evalAll invoke elements
    onHeap (HeapM.listOf vs)
  | .tuple elements => do
    let vs ← evalAll invoke elements
    onHeap (HeapM.newTuple vs)
  | .set elements => do
    let vs ← evalAll invoke elements
    onHeap (HeapM.setOf vs)
  | .dict entries => do
    let pairs ← evalEntries invoke entries
    onHeap (HeapM.dictOf pairs)
  | .log kind e => do
    let v ← eval invoke e
    log kind v
    return v
  | .logStart kind set e => do
    let v ← eval invoke e
    startFrame kind set
    log none v
    return v
  | .logEnd kind until_ e => do
    let v ← eval invoke e
    logEnd kind until_ v
    return v
  | .each _ _ e => eval invoke e

def evalAll (invoke : Invoke) : List Expr → Eval (List Value)
  | [] => return []
  | e :: rest => do
    let v ← eval invoke e
    let vs ← evalAll invoke rest
    return v :: vs

def evalKeywords (invoke : Invoke) : List (String × Expr) → Eval Keywords
  | [] => return []
  | (name, e) :: rest => do
    let v ← eval invoke e
    let vs ← evalKeywords invoke rest
    return (name, v) :: vs

def evalEntries (invoke : Invoke) : List (Expr × Expr) → Eval (List (Value × Value))
  | [] => return []
  | (k, e) :: rest => do
    let key ← eval invoke k
    let v ← eval invoke e
    let vs ← evalEntries invoke rest
    return (key, v) :: vs

def evalBound (invoke : Invoke) : Option Expr → Eval (Option Word)
  | none => return none
  | some e => do
    let v ← eval invoke e
    toBound v

/-- A chain of comparisons from its left operand on: the first that does not hold decides it. -/
def evalChain (invoke : Invoke) (left : Value) : List (CompareOp × Expr) → Eval Value
  | [] => return .bool true
  | (op, e) :: rest => do
    let right ← eval invoke e
    if ← lift ((← get).heap.compare op left right) then evalChain invoke right rest
    else return .bool false

end

end Eval

end Playback
