import Playback.Function.Arguments
import Playback.Function.Pairs
import Playback.Value.Show

/-!
# Methods of dicts and sets
-/

namespace Playback

def DictMethod.takes : DictMethod → Nat × Nat
  | .keys => (0, 0)
  | .values => (0, 0)
  | .items => (0, 0)
  | .get => (1, 2)
  | .pop => (1, 2)
  | .update => (1, 1)
  | .copy => (0, 0)
  | .clear => (0, 0)

def SetMethod.takes : SetMethod → Nat × Nat
  | .add => (1, 1)
  | .remove => (1, 1)
  | .discard => (1, 1)
  | .copy => (0, 0)
  | .clear => (0, 0)

namespace HeapM

def missing (key : Value) : HeapM Value := do
  raise (.missingKey (← look fun h => h.repr key))

def pairTuples : List (Value × Value) → HeapM (List Value)
  | [] => return []
  | (k, v) :: rest => do
    let t ← newTuple [k, v]
    return t :: (← pairTuples rest)

def putPairs (ref : Nat) : List (Value × Value) → HeapM Unit
  | [] => return
  | (k, v) :: rest => do
    let key ← lift k.key
    updateDict ref (·.put key (k, v))
    putPairs ref rest

def dictMethod (ref : Nat) (m : DictMethod) (args : List Value) : HeapM Value := do
  match m, args with
  | .keys, _ => listOf (← look fun h => (h.dict ref).entries.map (·.1))
  | .values, _ => listOf (← look fun h => (h.dict ref).entries.map (·.2))
  | .items, _ =>
    let entries ← look fun h => (h.dict ref).entries
    listOf (← pairTuples entries)
  | .get, key :: default =>
    let k ← lift key.key
    match ← look fun h => (h.dict ref).get? k with
    | some (_, v) => return v
    | none => return default.head?.getD .none
  | .pop, key :: default =>
    let k ← lift key.key
    match ← look fun h => (h.dict ref).get? k with
    | some (_, v) =>
      updateDict ref (·.remove k)
      return v
    | none =>
      match default with
      | v :: _ => return v
      | [] => missing key
  | .update, [source] =>
    let pairs ← ask fun h => h.pairs source
    putPairs ref pairs
    return .none
  | .copy, _ => newDict (← look fun h => h.dict ref)
  | .clear, _ =>
    updateDict ref fun _ => []
    return .none
  | _, _ => return .none

def setMethod (ref : Nat) (m : SetMethod) (args : List Value) : HeapM Value := do
  match m, args with
  | .add, [v] =>
    let k ← lift v.key
    updateSet ref (·.putNew k v)
    return .none
  | .remove, [v] =>
    let k ← lift v.key
    if ← look fun h => (h.set ref).has k then
      updateSet ref (·.remove k)
      return .none
    else missing v
  | .discard, [v] =>
    let k ← lift v.key
    updateSet ref (·.remove k)
    return .none
  | .copy, _ => newSet (← look fun h => h.set ref)
  | .clear, _ =>
    updateSet ref fun _ => []
    return .none
  | _, _ => return .none

end HeapM

end Playback
