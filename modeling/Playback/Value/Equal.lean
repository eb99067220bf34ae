import Playback.Heap

/-!
# Equality

Numbers are equal by value, sequences by their items, dicts and sets by their keys and entries, ranges by
their elements; functions and modules only to themselves, and methods to nothing. Tuples are compared by
recursion on them; every step into a list or a dict uses up one level of a depth that pairs of cells
bound.
-/

namespace Playback

def Quantity.same : Quantity → Quantity → Bool
  | .int a, .int b => a == b
  | a, b => a.toDouble.number == b.toDouble.number

def Value.sameNumber (a b : Value) : Bool :=
  match a.quantity?, b.quantity? with
  | some x, some y => x.same y
  | _, _ => false

namespace Heap

def allEqual (equal : Value → Value → Bool) : List Value → List Value → Bool
  | [], [] => true
  | a :: as, b :: bs => equal a b && allEqual equal as bs
  | _, _ => false

/-- Whether every entry of one dict has an equal one under its key in another. -/
def dictWithin (equal : Value → Value → Bool) (a b : Dict) : Bool :=
  a.all fun (k, _, v) =>
    match b.get? k with
    | some (_, w) => equal v w
    | none => false

/-- Whether the keys of a set are all keys of another. -/
def setWithin (a b : Members) : Bool :=
  a.all fun (k, _) => b.has k

mutual

/-- Whether two values are equal; `deep` compares what lists and dicts hold. -/
def equalStep (h : Heap) (deep : Value → Value → Bool) : Value → Value → Bool
  | .none, .none => true
  | .str a, .str b => a == b
  | .list a, .list b =>
    a == b || ((h.list a).size == (h.list b).size
      && allEqual deep (h.list a).toList (h.list b).toList)
  | .tuple _ as, .tuple _ bs => as.length == bs.length && equalItems h deep as bs
  | .dict a, .dict b =>
    (h.dict a).length == (h.dict b).length && dictWithin deep (h.dict a) (h.dict b)
  | .set a, .set b => (h.set a).length == (h.set b).length && setWithin (h.set a) (h.set b)
  | .range a, .range b => a.same b
  | .function a, .function b => a.serial == b.serial
  | .builtin a, .builtin b => a == b
  | .module a _, .module b _ => a == b
  | a, b => a.sameNumber b

def equalItems (h : Heap) (deep : Value → Value → Bool) : List Value → List Value → Bool
  | [], [] => true
  | a :: as, b :: bs => equalStep h deep a b && equalItems h deep as bs
  | _, _ => false

end

def equalTo (h : Heap) : Nat → Value → Value → Bool
  | 0 => fun _ _ => false
  | depth + 1 => equalStep h (equalTo h depth)

/-- A depth that no comparison passes unless it goes on for ever: on the way down no pair of cells comes
twice. -/
def depthBound (h : Heap) : Nat :=
  (h.containers + 1) * (h.containers + 1) + 1

def equal (h : Heap) (a b : Value) : Bool :=
  h.equalTo h.depthBound a b

mutual

/-- Whether two values are one and the same: a container is its cell, a tuple its number and its items. -/
def alike : Value → Value → Bool
  | .list a, .list b => a == b
  | .dict a, .dict b => a == b
  | .set a, .set b => a == b
  | .tuple a as, .tuple b bs => a == b && alikeItems as bs
  | .none, .none => true
  | .bool a, .bool b => a == b
  | .int a, .int b => a == b
  | .float a, .float b => a == b
  | .str a, .str b => a == b
  | .range a, .range b => a == b
  | .function a, .function b => a.serial == b.serial
  | .builtin a, .builtin b => a == b
  | .method a, .method b => a == b
  | .module a _, .module b _ => a == b
  | _, _ => false

def alikeItems : List Value → List Value → Bool
  | [], [] => true
  | a :: as, b :: bs => alike a b && alikeItems as bs
  | _, _ => false

end

/-- Whether two values are the same: containers and scalars are one, others have the same type and are
equal. -/
def identical (h : Heap) (a b : Value) : Bool :=
  match a with
  | .range _ | .function _ | .builtin _ | .method _ | .module _ _ => a.typeName == b.typeName && h.equal a b
  | _ => alike a b

end Heap

end Playback
