import Playback.Value.Elements

/-!
# Rows of pairs

What a dict is made of or updated from: another dict, or anything whose elements have two elements each.
-/

namespace Playback.Heap

/-- The element of a row of pairs at an index. -/
def pair (h : Heap) (index : Nat) (v : Value) : Except Fault (Value × Value) :=
  match h.elements v with
  | .error _ => .error (.pairElement index)
  | .ok es =>
    if es.count = 2 then
      match es.toList with
      | [a, b] => .ok (a, b)
      | others => .error (.pairLength index others.length)
    else .error (.pairLength index es.count)

def pairs (h : Heap) (source : Value) : Except Fault (List (Value × Value)) :=
  match source with
  | .dict ref => .ok (h.dict ref).entries
  | _ => do
    let es ← h.elements source
    let step : Nat × List (Value × Value) → Value → Except Fault (Nat × List (Value × Value)) :=
      fun (index, read) v => do
        let p ← h.pair index v
        return (index + 1, p :: read)
    let (_, read) ← es.fold step (0, [])
    return read.reverse

end Playback.Heap
