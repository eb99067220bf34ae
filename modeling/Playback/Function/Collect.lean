import Playback.Function.Pairs
import Playback.Operation.Binary
import Playback.Value.Order

/-!
# Functions on elements
-/

namespace Playback

def Heap.length (h : Heap) : Value → Except Fault Word
  | .str s => .ok (Int64.ofNat s.length)
  | .list ref => .ok (Int64.ofNat (h.list ref).size)
  | .tuple _ items => .ok (Int64.ofNat items.length)
  | .dict ref => .ok (Int64.ofNat (h.dict ref).length)
  | .set ref => .ok (Int64.ofNat (h.set ref).length)
  | .range r => .ok r.length
  | other => .error (.noLength other.typeName)

def rangeOf (bounds : List Word) : Except Fault Value :=
  let (start, stop, step) := match bounds with
    | [stop] => (0, stop, 1)
    | [start, stop] => (start, stop, 1)
    | start :: stop :: step :: _ => (start, stop, step)
    | [] => (0, 0, 1)
  if h : step = 0 then .error .zeroStep else .ok (.range ⟨start, stop, step, h⟩)

/-- The integers that a row of values stands for. -/
def indices : List Value → Except Fault (List Word)
  | [] => .ok []
  | v :: rest => do
    let i ← v.index
    return i :: (← indices rest)

/-- The first of the values that no other comes before, in the order that `symbol` and `wanted` give. -/
def Heap.extreme (h : Heap) (symbol : String) (wanted : Ordering) : Value → List Value → Except Fault Value
  | best, [] => .ok best
  | best, v :: rest => do
    if (← h.order symbol v best) == some wanted then h.extreme symbol wanted v rest
    else h.extreme symbol wanted best rest

/-- The least or greatest of several values, or of the elements of one. -/
def Heap.extremeOf (h : Heap) (b : Builtin) (args : List Value) : Except Fault Value := do
  let values ← match args with
    | [] => throw (.tooFewArguments b.name 1 0)
    | [v] => h.elementList v
    | several => pure several
  match values with
  | [] => throw (.noSmallest b.name)
  | first :: rest =>
    if b = .min then h.extreme "<" .lt first rest else h.extreme ">" .gt first rest

/-- The greatest common divisor of integers, taken in one by one. -/
def divisorOf : Nat → List Value → Except Fault Value
  | divisor, [] => .ok (.int (Int64.ofNat divisor))
  | divisor, v :: rest => do
    let i ← v.index
    match Word.ofInt? i.toInt.natAbs with
    | none => throw (.overflow "gcd")
    | some _ => divisorOf (Nat.gcd i.toInt.natAbs divisor) rest

namespace HeapM

def sorted (v : Value) (reverse : Bool) : HeapM Value := do
  let items ← ask fun h => h.elementList v
  match ← look fun h => h.sort reverse items with
  | (items, none) => listOf items
  | (_, some fault) => raise fault

def enumerate (v : Value) (start : Word) : HeapM Value := do
  let es ← ask fun h => h.elements v
  let step : Nat × List Value → Value → HeapM (Nat × List Value) := fun (count, read) v => do
    match Word.ofInt? (start.toInt + count) with
    | none => raise (.overflow "enumerate")
    | some i =>
      let t ← newTuple [.int i, v]
      return (count + 1, t :: read)
  let (_, read) ← es.fold step (0, [])
  listOf read.reverse

/-- The next element of each row, with the rows after them; none if one row is at its end. -/
def nextRow? : List Elements → Option (List Value × List Elements)
  | [] => some ([], [])
  | es :: rest => do
    let (v, es) ← es.next?
    let (vs, rest) ← nextRow? rest
    return (v :: vs, es :: rest)

/-- Tuples of the elements of several rows, as far as the shortest goes and at most `budget`. -/
def zipRows : Nat → List Value → List Elements → HeapM (List Value)
  | 0, read, _ => return read.reverse
  | budget + 1, read, rows =>
    match nextRow? rows with
    | none => return read.reverse
    | some (vs, rows) => do
      let t ← newTuple vs
      zipRows budget (t :: read) rows

def elementsOfAll : List Value → HeapM (List Elements)
  | [] => return []
  | v :: rest => do
    let es ← ask fun h => h.elements v
    return es :: (← elementsOfAll rest)

def leastCount : List Elements → Nat
  | [] => 0
  | [es] => es.count
  | es :: rest => min es.count (leastCount rest)

/-- Tuples of the elements of several values, as far as the shortest goes. -/
def zip (args : List Value) : HeapM Value := do
  let rows ← elementsOfAll args
  listOf (← zipRows (leastCount rows) [] rows)

def sum (v start : Value) : HeapM Value := do
  match start with
  | .str _ => raise .sumOfTexts
  | _ =>
    let es ← ask fun h => h.elements v
    es.fold (binary .add) start

def reversed (v : Value) : HeapM Value := do
  match v with
  | .set _ => raise .notReversible
  | _ => listOf (← ask fun h => h.elementList v).reverse

end HeapM

end Playback
