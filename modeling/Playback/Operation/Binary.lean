import Playback.Operation.Arithmetic
import Playback.Heap

/-!
# Binary operators

Numbers first; then sequences are joined and repeated, sets made of the members of two, and dicts merged.
-/

namespace Playback.HeapM

/-- Operands that an operator has no meaning for. -/
def unsupported (op : BinaryOp) (a b : Value) : HeapM Value :=
  raise (.operands op.symbol a.typeName b.typeName)

def add (a b : Value) : HeapM Value :=
  match a, b with
  | .str s, .str t => return .str (s ++ t)
  | .list r, .list s => do newList (← look fun h => h.list r ++ h.list s)
  | .tuple _ items, .tuple _ others => newTuple (items ++ others)
  | .str _, other => raise (.concatenation "str" other.typeName)
  | .list _, other => raise (.concatenation "list" other.typeName)
  | .tuple _ _, other => raise (.concatenation "tuple" other.typeName)
  | _, _ => unsupported .add a b

/-- How many bytes an item of a sequence takes. -/
def itemSize : Nat := 32

/-- How often a sequence of `size` units of `unit` bytes can be repeated: not if the number of units passes
64 bits, nor if no memory holds the bytes. -/
def repetitions (times : Word) (size unit : Nat) : HeapM Nat :=
  let count := times.toInt.toNat
  if Nat.pow 2 64 ≤ size * count then raise (.overflow "*")
  else if Nat.pow 2 63 ≤ size * count * unit then throw .capacity
  else if size = 0 then return 0
  else return count

def repeated {α : Type} (count : Nat) (items : List α) : List α :=
  (List.replicate count items).flatten

def repeatSequence (sequence count : Value) : HeapM Value := do
  match count.word? with
  | none => raise (.repetition count.typeName)
  | some times =>
    match sequence with
    | .str s => return .str (String.join (List.replicate (← repetitions times s.utf8ByteSize 1) s))
    | .list ref =>
      let items ← look fun h => (h.list ref).toList
      listOf (repeated (← repetitions times items.length itemSize) items)
    | .tuple _ items => newTuple (repeated (← repetitions times items.length itemSize) items)
    | other => unsupported .mul other count

def isSequence : Value → Bool
  | .str _ => true
  | .list _ => true
  | .tuple _ _ => true
  | _ => false

def multiply (a b : Value) : HeapM Value :=
  if isSequence a then repeatSequence a b
  else if isSequence b then repeatSequence b a
  else unsupported .mul a b

def difference (a b : Members) : Members :=
  a.filter fun (k, _) => !b.has k

def intersection (a b : Members) : Members :=
  a.filter fun (k, _) => b.has k

def merge (a b : Dict) : Dict :=
  b.foldl (fun all (k, entry) => all.put k entry) a

def binary (op : BinaryOp) (a b : Value) : HeapM Value :=
  match Arithmetic.onValues? op a b with
  | some result => lift result
  | none =>
    match op, a, b with
    | .add, _, _ => add a b
    | .mul, _, _ => multiply a b
    | .sub, .set r, .set s => do setOf (← look fun h => (difference (h.set r) (h.set s)).entries)
    | .bitAnd, .set r, .set s => do setOf (← look fun h => (intersection (h.set r) (h.set s)).entries)
    | .bitOr, .set r, .set s => do setOf (← look fun h => (h.set r).entries ++ (h.set s).entries)
    | .bitXor, .set r, .set s => do
      setOf (← look fun h => (difference (h.set r) (h.set s)).entries ++ (difference (h.set s) (h.set r)).entries)
    | .bitOr, .dict r, .dict s => do newDict (← look fun h => merge (h.dict r) (h.dict s))
    | _, _, _ => unsupported op a b

end Playback.HeapM
