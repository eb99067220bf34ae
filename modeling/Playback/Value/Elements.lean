import Playback.Heap

/-!
# Elements

What iterating a value gives, as it was when the iteration began. The elements of a range are computed one by
one; those of everything else are at hand.
-/

namespace Playback

/-- Elements still to come. -/
inductive Elements where
  | items (vs : List Value)
  | range (r : Range)

namespace Elements

def count : Elements → Nat
  | .items vs => vs.length
  | .range r => r.count

def next? : Elements → Option (Value × Elements)
  | .items [] => none
  | .items (v :: vs) => some (v, .items vs)
  | .range r => r.next?.map fun (i, rest) => (.int i, .range rest)

/-- Takes elements in one by one, at most `budget` of them. -/
@[specialize]
def foldUpTo {m : Type → Type} [Monad m] {β : Type} (f : β → Value → m β) : Nat → β → Elements → m β
  | 0, b, _ => pure b
  | budget + 1, b, es =>
    match es.next? with
    | none => pure b
    | some (v, rest) => do foldUpTo f budget (← f b v) rest

@[inline]
def fold {m : Type → Type} [Monad m] {β : Type} (f : β → Value → m β) (b : β) (es : Elements) : m β :=
  foldUpTo f es.count b es

/-- At most `budget` elements, after those in `read`, which are in reverse. -/
def collect : Nat → List Value → Elements → List Value
  | 0, read, _ => read.reverse
  | budget + 1, read, es =>
    match es.next? with
    | none => read.reverse
    | some (v, rest) => collect budget (v :: read) rest

def toList : Elements → List Value
  | .items vs => vs
  | .range r => collect r.count [] (.range r)

end Elements

def charValues (s : String) : List Value :=
  s.toList.map fun c => .str c.toString

def Heap.elements (h : Heap) : Value → Except Fault Elements
  | .range r => .ok (.range r)
  | .str s => .ok (.items (charValues s))
  | .list ref => .ok (.items (h.list ref).toList)
  | .tuple _ items => .ok (.items items)
  | .dict ref => .ok (.items ((h.dict ref).entries.map (·.1)))
  | .set ref => .ok (.items (h.set ref).entries)
  | other => .error (.notIterable other.typeName)

def Heap.elementList (h : Heap) (v : Value) : Except Fault (List Value) := do
  return (← h.elements v).toList

end Playback
