import Playback.Value.Show

/-!
# Items, slices and attributes

Indices count from the start, negative ones from the end. An index must hit an item; the bounds of a slice
are moved to the nearest end.
-/

namespace Playback

def fromStart (i : Int) (size : Nat) : Int :=
  if i < 0 then i + size else i

/-- The position an index stands for, if there is one. -/
def position? (i : Word) (size : Nat) : Option Nat :=
  let p := fromStart i.toInt size
  if 0 ≤ p ∧ p < size then some p.toNat else none

/-- The position a bound stands for, moved to the nearest end. -/
def clampBound (bound : Word) (size : Nat) : Nat :=
  (max 0 (min (fromStart bound.toInt size) size)).toNat

/-- The positions that a slice starts at and stops before. -/
def sliceBounds (lower upper : Option Word) (size : Nat) : Nat × Nat :=
  let first := match lower with
    | some bound => clampBound bound size
    | none => 0
  let last := match upper with
    | some bound => clampBound bound size
    | none => size
  (first, max first last)

/-- The items of a row between two positions. -/
def between {α : Type} (bounds : Nat × Nat) (items : List α) : List α :=
  (items.take bounds.2).drop bounds.1

/-- A bound of a slice: an integer, or none. -/
def sliceBound (v : Value) : Except Fault (Option Word) :=
  match v with
  | .none => .ok none
  | _ =>
    match v.word? with
    | some i => .ok (some i)
    | none => .error .sliceBound

def sequenceIndex (container index : Value) : Except Fault Word :=
  match index.word? with
  | some i => .ok i
  | none => .error (.indexType container.typeName index.typeName)

def inRange {α : Type} (fault : Fault) : Option α → Except Fault α
  | some a => .ok a
  | none => .error fault

/-- The size of a range as positions count it. -/
def Range.size (r : Range) : Nat :=
  r.length.toInt.toNat

namespace Heap

def item (h : Heap) (container index : Value) : Except Fault Value :=
  match container with
  | .list ref => do
    let items := h.list ref
    let i ← sequenceIndex container index
    inRange (.indexRange "list") ((position? i items.size).bind fun p => items[p]?)
  | .tuple _ items => do
    let i ← sequenceIndex container index
    inRange (.indexRange "tuple") ((position? i items.length).bind fun p => items[p]?)
  | .str s =>
    match index.word? with
    | none => .error (.textIndexType index.typeName)
    | some i =>
      let chars := s.toList
      inRange (.indexRange "string")
        ((position? i chars.length).bind fun p => (chars[p]?).map fun c => .str c.toString)
  | .range r => do
    let i ← sequenceIndex container index
    inRange (.indexRange "range object") ((position? i r.size).map fun p => .int (r.element p))
  | .dict ref => do
    match (h.dict ref).get? (← index.key) with
    | some (_, v) => return v
    | none => throw (.missingKey (h.repr index))
  | other => .error (.noItems other.typeName)

end Heap

namespace HeapM

def slice (container : Value) (lower upper : Option Word) : HeapM Value := do
  match container with
  | .list ref =>
    let items ← look fun h => h.list ref
    let (first, last) := sliceBounds lower upper items.size
    newList (items.extract first last)
  | .tuple _ items => newTuple (between (sliceBounds lower upper items.length) items)
  | .str s =>
    let chars := s.toList
    return .str (String.ofList (between (sliceBounds lower upper chars.length) chars))
  | .range r =>
    let (first, last) := sliceBounds lower upper r.size
    return .range (r.part first last)
  | other => raise (.noItems other.typeName)

/-- Puts a value at an index of a list or under a key of a dict. -/
def setItem (container index value : Value) : HeapM Unit := do
  match container with
  | .list ref =>
    let i ← lift (sequenceIndex container index)
    let size ← look fun h => (h.list ref).size
    let p ← lift (inRange .assignmentRange (position? i size))
    updateList ref (·.setIfInBounds p value)
  | .dict ref =>
    let k ← lift index.key
    updateDict ref (·.put k (index, value))
  | other => raise (.noItemAssignment other.typeName)

end HeapM

def Library.attribute? (library : Library) (name : String) : Option Value :=
  match library with
  | .math =>
    match name with
    | "pi" => some (.float (.ofFloat 3.141592653589793))
    | "e" => some (.float (.ofFloat 2.718281828459045))
    | "tau" => some (.float (.ofFloat 6.283185307179586))
    | "inf" => some (.float .infinity)
    | _ => (Builtin.mathematics.find? (·.name == name)).map .builtin
  | .string =>
    match name with
    | "ascii_lowercase" => some (.str "abcdefghijklmnopqrstuvwxyz")
    | "ascii_uppercase" => some (.str "ABCDEFGHIJKLMNOPQRSTUVWXYZ")
    | "ascii_letters" => some (.str "abcdefghijklmnopqrstuvwxyzABCDEFGHIJKLMNOPQRSTUVWXYZ")
    | "digits" => some (.str "0123456789")
    | _ => none

def Value.method? (v : Value) (name : String) : Option BoundMethod :=
  match v with
  | .list ref => (ListMethod.table.lookup name).map (.list ref)
  | .str s => (TextMethod.table.lookup name).map (.text s)
  | .dict ref => (DictMethod.table.lookup name).map (.dict ref)
  | .set ref => (SetMethod.table.lookup name).map (.set ref)
  | _ => .none

/-- The attribute of a value: what a module holds, or a method. -/
def Value.attribute (v : Value) (name : String) : Except Fault Value :=
  match v with
  | .module _ library =>
    match library.attribute? name with
    | some found => .ok found
    | .none => .error (.noModuleAttribute library.name name)
  | _ =>
    match v.method? name with
    | some m => .ok (.method m)
    | .none => .error (.noAttribute v.typeName name)

end Playback
