import Playback.Value.Key

/-!
# The heap

Lists, dicts and sets live in cells; a value refers to a cell by its number. Cells are never taken back.
-/

namespace Playback

/-- A dict: by its key, every entry has the value it was put in under and the value put in. -/
abbrev Dict := Keyed (Value × Value)

/-- A set: its members by their keys. -/
abbrev Members := Keyed Value

/-- The cells of a program. -/
structure Heap where
  lists : Array (Array Value)
  dicts : Array Dict
  sets : Array Members
  /-- The number that the next tuple or module is told apart by. -/
  fresh : Nat

namespace Heap

def empty : Heap :=
  { lists := #[], dicts := #[], sets := #[], fresh := 0 }

instance : Inhabited Heap := ⟨empty⟩

def list (h : Heap) (ref : Nat) : Array Value :=
  h.lists[ref]?.getD #[]

def dict (h : Heap) (ref : Nat) : Dict :=
  h.dicts[ref]?.getD []

def set (h : Heap) (ref : Nat) : Members :=
  h.sets[ref]?.getD []

/-- How many lists and dicts there are. Only these can hold themselves. -/
def containers (h : Heap) : Nat :=
  h.lists.size + h.dicts.size

/-- Whether a value counts as true: none, zero and whatever is empty do not. -/
def truthy (h : Heap) : Value → Bool
  | .none => false
  | .bool b => b
  | .int i => i != 0
  | .float x => x.number != 0.0
  | .str s => !s.isEmpty
  | .list ref => !(h.list ref).isEmpty
  | .tuple _ items => !items.isEmpty
  | .dict ref => !(h.dict ref).isEmpty
  | .set ref => !(h.set ref).isEmpty
  | .range r => 0 < r.count
  | .function _ => true
  | .builtin _ => true
  | .method _ => true
  | .module _ _ => true

end Heap

/-- What works on the heap. A failure keeps what was done before it. -/
abbrev HeapM := EStateM Halt Heap

namespace HeapM

def raise {α : Type} (fault : Fault) : HeapM α :=
  throw (.raised fault)

/-- The outcome of something that does not touch the heap. -/
def lift {α : Type} : Except Fault α → HeapM α
  | .ok a => pure a
  | .error fault => raise fault

def look {α : Type} (f : Heap → α) : HeapM α := do
  return f (← get)

/-- Looks something up in the heap that may fail. -/
def ask {α : Type} (f : Heap → Except Fault α) : HeapM α := do
  lift (f (← get))

def newList (items : Array Value) : HeapM Value :=
  modifyGet fun h =>
    let ref := h.lists.size
    (.list ref, { h with lists := h.lists.push items })

def listOf (items : List Value) : HeapM Value :=
  newList items.toArray

def newTuple (items : List Value) : HeapM Value :=
  modifyGet fun h => (.tuple h.fresh items, { h with fresh := h.fresh + 1 })

def newDict (entries : Dict) : HeapM Value :=
  modifyGet fun h =>
    let ref := h.dicts.size
    (.dict ref, { h with dicts := h.dicts.push entries })

def newSet (members : Members) : HeapM Value :=
  modifyGet fun h =>
    let ref := h.sets.size
    (.set ref, { h with sets := h.sets.push members })

def newModule (library : Library) : HeapM Value :=
  modifyGet fun h => (.module h.fresh library, { h with fresh := h.fresh + 1 })

def updateList (ref : Nat) (f : Array Value → Array Value) : HeapM Unit :=
  modify fun h => { h with lists := h.lists.modify ref f }

def updateDict (ref : Nat) (f : Dict → Dict) : HeapM Unit :=
  modify fun h => { h with dicts := h.dicts.modify ref f }

def updateSet (ref : Nat) (f : Members → Members) : HeapM Unit :=
  modify fun h => { h with sets := h.sets.modify ref f }

/-- Entries of a dict for a row of keys and values; the later of two equal keys takes the place of the
earlier. -/
def entriesOf (start : Dict) : List (Value × Value) → Except Fault Dict
  | [] => .ok start
  | (k, v) :: rest => do entriesOf (start.put (← k.key) (k, v)) rest

/-- Members of a set for a row of values; of equal ones the first stays. -/
def membersOf (start : Members) : List Value → Except Fault Members
  | [] => .ok start
  | v :: rest => do membersOf (start.putNew (← v.key) v) rest

def dictOf (pairs : List (Value × Value)) : HeapM Value := do
  newDict (← lift (entriesOf [] pairs))

def setOf (items : List Value) : HeapM Value := do
  newSet (← lift (membersOf [] items))

end HeapM

end Playback
