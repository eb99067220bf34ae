import Playback.Value.Equal

/-!
# Order

Numbers by value, texts by their characters, sequences by the first items that are not equal, sets by
inclusion. Values of other types, or of two types, have no order, and that is a fault. Numbers that are no
number, and sets of which neither includes the other, are in no order to each other, and that is none.
-/

namespace Playback

def floatOrder (a b : Float) : Option Ordering :=
  if a < b then some .lt else if a == b then some .eq else if b < a then some .gt else none

def Quantity.order : Quantity → Quantity → Option Ordering
  | .int a, .int b => some (compare a.toInt b.toInt)
  | a, b => floatOrder a.toDouble.number b.toDouble.number

def textOrder (a b : String) : Ordering :=
  if a < b then .lt else if a == b then .eq else .gt

namespace Heap

def setOrder (a b : Members) : Option Ordering :=
  match setWithin a b, setWithin b a with
  | true, true => some .eq
  | true, false => some .lt
  | false, true => some .gt
  | false, false => none

/-- The order of two rows: that of the first items that are not equal, else that of their lengths. -/
def rowOrder (equal : Value → Value → Bool) (order : Value → Value → Except Fault (Option Ordering)) :
    List Value → List Value → Except Fault (Option Ordering)
  | [], [] => .ok (some .eq)
  | [], _ :: _ => .ok (some .lt)
  | _ :: _, [] => .ok (some .gt)
  | a :: as, b :: bs => if equal a b then rowOrder equal order as bs else order a b

mutual

/-- The order of two values; `deep` orders what lists hold and `symbol` is the operator that asks. -/
def orderStep (h : Heap) (symbol : String) (deep : Value → Value → Except Fault (Option Ordering)) :
    Value → Value → Except Fault (Option Ordering)
  | .str a, .str b => .ok (some (textOrder a b))
  | .list a, .list b => rowOrder h.equal deep (h.list a).toList (h.list b).toList
  | .tuple _ as, .tuple _ bs => orderItems h symbol deep as bs
  | .set a, .set b => .ok (setOrder (h.set a) (h.set b))
  | a, b =>
    match a.quantity?, b.quantity? with
    | some x, some y => .ok (x.order y)
    | _, _ => .error (.notOrdered symbol a.typeName b.typeName)

def orderItems (h : Heap) (symbol : String) (deep : Value → Value → Except Fault (Option Ordering)) :
    List Value → List Value → Except Fault (Option Ordering)
  | [], [] => .ok (some .eq)
  | [], _ :: _ => .ok (some .lt)
  | _ :: _, [] => .ok (some .gt)
  | a :: as, b :: bs =>
    if h.equal a b then orderItems h symbol deep as bs else orderStep h symbol deep a b

end

def orderTo (h : Heap) (symbol : String) : Nat → Value → Value → Except Fault (Option Ordering)
  | 0 => fun _ _ => .ok none
  | depth + 1 => orderStep h symbol (orderTo h symbol depth)

/-- The order of two values, for the operator `symbol`. -/
def order (h : Heap) (symbol : String) (a b : Value) : Except Fault (Option Ordering) :=
  h.orderTo symbol h.depthBound a b

/-! ## Sorting -/

/-- Puts a value in its place in a row that is sorted from the last to the first: before it come only values
that are greater. The first fault of a comparison is kept and counts as not greater. -/
def insertSorted (less : Value → Value → Except Fault Bool) (v : Value) :
    List Value → Option Fault → List Value × Option Fault
  | [], fault => ([v], fault)
  | w :: rest, fault =>
    match less v w with
    | .ok true =>
      let (rest, fault) := insertSorted less v rest fault
      (w :: rest, fault)
    | .ok false => (v :: w :: rest, fault)
    | .error e => (v :: w :: rest, fault.or (some e))

/-- Sorts a row, taking its values in their order; `sorted` holds those so far, last first. -/
def sortFrom (less : Value → Value → Except Fault Bool) :
    List Value → List Value → Option Fault → List Value × Option Fault
  | sorted, [], fault => (sorted.reverse, fault)
  | sorted, v :: rest, fault =>
    let (sorted, fault) := insertSorted less v sorted fault
    sortFrom less sorted rest fault

/-- Whether the first of two values belongs before the second. -/
def precedes (h : Heap) (reverse : Bool) (a b : Value) : Except Fault Bool := do
  let result ← if reverse then h.order "<" b a else h.order "<" a b
  return result == some .lt

/-- A row in order, equal values staying in theirs, with the first fault of a comparison. -/
def sort (h : Heap) (reverse : Bool) (items : List Value) : List Value × Option Fault :=
  sortFrom (h.precedes reverse) [] items none

end Heap

end Playback
