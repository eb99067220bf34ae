import Playback.Value.Basic

/-!
# Keys

What a value is looked up by in a dict or a set. Numbers that are equal have the same key, whatever their
type. Lists, dicts, sets and everything that is called have none.
-/

namespace Playback

/-- What a value is looked up by. -/
inductive Key where
  | none
  | int (i : Word)
  /-- A double that is no integer, by its bits. -/
  | float (bits : UInt64)
  | str (s : String)
  | tuple (items : List Key)

namespace Key

mutual

def same : Key → Key → Bool
  | .none, .none => true
  | .int a, .int b => a == b
  | .float a, .float b => a == b
  | .str a, .str b => a == b
  | .tuple as, .tuple bs => sameItems as bs
  | _, _ => false

def sameItems : List Key → List Key → Bool
  | [], [] => true
  | a :: as, b :: bs => same a b && sameItems as bs
  | _, _ => false

end

instance : BEq Key := ⟨same⟩

/-- The key of a double: that of the integer it equals, if 64 bits hold it with some room. -/
def ofDouble (x : Double) : Key :=
  if Binary64.isIntegral x.number && x.number.abs < 9.2e18 then
    .int (Word.saturate ((Binary64.toInt? x.number).getD 0))
  else .float x.bits

end Key

namespace Value

mutual

def key : Value → Except Fault Key
  | .none => .ok .none
  | .bool b => .ok (.int (boolWord b))
  | .int i => .ok (.int i)
  | .float x => .ok (Key.ofDouble x)
  | .str s => .ok (.str s)
  | .tuple _ items => do return .tuple (← keys items)
  | other => .error (.unhashable other.typeName)

def keys : List Value → Except Fault (List Key)
  | [] => .ok []
  | v :: rest => do
    let k ← key v
    return k :: (← keys rest)

end

end Value

/-- Entries by key, in the order in which the keys came. -/
abbrev Keyed (α : Type) := List (Key × α)

namespace Keyed

variable {α : Type}

def get? (k : Key) : Keyed α → Option α
  | [] => none
  | (l, a) :: rest => if l == k then some a else get? k rest

def has (k : Key) (entries : Keyed α) : Bool :=
  entries.any fun e => e.1 == k

/-- The entries with one more; it takes the place of an entry of the same key. -/
def put (k : Key) (a : α) : Keyed α → Keyed α
  | [] => [(k, a)]
  | (l, b) :: rest => if l == k then (l, a) :: rest else (l, b) :: put k a rest

/-- The entries with one more, unless there is one of the same key. -/
def putNew (k : Key) (a : α) : Keyed α → Keyed α
  | [] => [(k, a)]
  | (l, b) :: rest => if l == k then (l, b) :: rest else (l, b) :: putNew k a rest

def remove (k : Key) : Keyed α → Keyed α
  | [] => []
  | (l, a) :: rest => if l == k then rest else (l, a) :: remove k rest

def entries (m : Keyed α) : List α :=
  m.map (·.2)

end Keyed

end Playback
