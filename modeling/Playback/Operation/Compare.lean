import Playback.Text.Search
import Playback.Value.Order

/-!
# Comparisons
-/

namespace Playback.Heap

/-- The integer to look for in a range. A double beyond 64 bits stands for the nearest integer. -/
def rangeMember? : Quantity → Option Int
  | .int i => some i.toInt
  | .float x =>
    if Binary64.isIntegral x.number then
      (Binary64.toInt? x.number).map fun i => (Word.saturate i).toInt
    else none

def contains (h : Heap) (container item : Value) : Except Fault Bool :=
  match container with
  | .str text =>
    match item with
    | .str needle => .ok (Text.occursIn needle text)
    | other => .error (.textMembership other.typeName)
  | .list ref => .ok ((h.list ref).any fun v => h.equal v item)
  | .tuple _ items => .ok (items.any fun v => h.equal v item)
  | .dict ref => do return (h.dict ref).has (← item.key)
  | .set ref => do return (h.set ref).has (← item.key)
  | .range r => .ok (((item.quantity?.bind rangeMember?).map r.has).getD false)
  | other => .error (.notContainer other.typeName)

def compare (h : Heap) (op : CompareOp) (a b : Value) : Except Fault Bool :=
  match op with
  | .eq => .ok (h.equal a b)
  | .ne => .ok (!h.equal a b)
  | .is => .ok (h.identical a b)
  | .isNot => .ok (!h.identical a b)
  | .in_ => h.contains b a
  | .notIn => do return !(← h.contains b a)
  | .lt => do return (← h.order "<" a b) == some .lt
  | .le => do
    let o ← h.order "<=" a b
    return o == some .lt || o == some .eq
  | .gt => do return (← h.order ">" a b) == some .gt
  | .ge => do
    let o ← h.order ">=" a b
    return o == some .gt || o == some .eq

end Playback.Heap
