import Playback.Function.Arguments
import Playback.Operation.Access
import Playback.Value.Elements
import Playback.Value.Order

/-!
# Methods of lists
-/

namespace Playback

def ListMethod.takes : ListMethod → Nat × Nat
  | .append => (1, 1)
  | .pop => (0, 1)
  | .insert => (2, 2)
  | .remove => (1, 1)
  | .index => (1, 1)
  | .count => (1, 1)
  | .extend => (1, 1)
  | .reverse => (0, 0)
  | .sort => (0, 0)
  | .copy => (0, 0)
  | .clear => (0, 0)

namespace HeapM

/-- The position of the first item of a list that equals a value. -/
def indexInList (ref : Nat) (v : Value) : HeapM (Option Nat) :=
  look fun h => (h.list ref).findIdx? fun w => h.equal w v

def popFrom (ref : Nat) (index : Option Value) : HeapM Value := do
  let size ← look fun h => (h.list ref).size
  if size = 0 then
    raise .popEmpty
  else
    let i ← match index with
      | some v => lift v.index
      | none => pure (-1)
    let p ← lift (inRange .popRange (position? i size))
    let v ← look fun h => (h.list ref)[p]?.getD .none
    updateList ref (·.eraseIdxIfInBounds p)
    return v

/-- Puts an item into a list before an index, or at the nearest end. -/
def insertInto (ref : Nat) (index v : Value) : HeapM Unit := do
  let i ← lift index.index
  updateList ref fun items => items.insertIdxIfInBounds (clampBound i items.size) v

/-- Sorts a list. While it is compared, the list itself is empty. -/
def sortList (ref : Nat) (reverse : Bool) : HeapM Unit := do
  let items ← look fun h => (h.list ref).toList
  updateList ref fun _ => #[]
  let (sorted, fault) ← look fun h => h.sort reverse items
  updateList ref fun _ => sorted.toArray
  match fault with
  | some fault => raise fault
  | none => return

def listMethod (ref : Nat) (m : ListMethod) (reverse : Bool) (args : List Value) : HeapM Value := do
  match m, args with
  | .append, [v] =>
    updateList ref (·.push v)
    return .none
  | .pop, args => popFrom ref args.head?
  | .insert, [index, v] =>
    insertInto ref index v
    return .none
  | .remove, [v] =>
    match ← indexInList ref v with
    | some p =>
      updateList ref (·.eraseIdxIfInBounds p)
      return .none
    | none => raise .notInListToRemove
  | .index, [v] =>
    match ← indexInList ref v with
    | some p => return .int (Int64.ofNat p)
    | none => raise (.notInList (← look fun h => h.repr v))
  | .count, [v] =>
    return .int (Int64.ofNat (← look fun h => (h.list ref).countP fun w => h.equal w v))
  | .extend, [v] =>
    let items ← ask fun h => h.elementList v
    updateList ref (· ++ items.toArray)
    return .none
  | .reverse, _ =>
    updateList ref (·.reverse)
    return .none
  | .sort, _ =>
    sortList ref reverse
    return .none
  | .copy, _ => newList (← look fun h => h.list ref)
  | .clear, _ =>
    updateList ref fun _ => #[]
    return .none
  | _, _ => return .none

end HeapM

end Playback
