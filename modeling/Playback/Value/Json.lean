import Playback.Json.Basic
import Playback.Value.Show

/-!
# Values and JSON

A request comes in as JSON and a response goes out as JSON. Sequences and sets become arrays, dicts become
objects with their keys in text, and what JSON has no form for becomes its text. A container inside itself
is cut off with its text.
-/

namespace Playback

mutual

/-- The value of a JSON value: new lists and dicts for its arrays and objects. -/
def Value.ofJson : Json → HeapM Value
  | .null => return .none
  | .bool b => return .bool b
  | .number (.int i) =>
    match Word.ofInt? i with
    | some w => return .int w
    | none => return .float (.ofFloat (Binary64.ofRatio (decide (i < 0)) i.natAbs 1))
  | .number (.float x) => return .float (.ofFloat x)
  | .string s => return .str s
  | .array items => do HeapM.listOf (← valuesOfJson items)
  | .object members => do HeapM.newDict (← entriesOfJson [] members)

def valuesOfJson : List Json → HeapM (List Value)
  | [] => return []
  | item :: rest => do
    let v ← Value.ofJson item
    return v :: (← valuesOfJson rest)

def entriesOfJson (start : Dict) : List (String × Json) → HeapM Dict
  | [] => return start
  | (key, value) :: rest => do
    let v ← Value.ofJson value
    entriesOfJson (start.put (.str key) (.str key, v)) rest

end

namespace Heap

mutual

/-- The JSON value of a value inside the containers `open_`; `deep` converts what a cell holds. -/
def jsonStep (h : Heap) (deep : List Container → Value → Json) (open_ : List Container) : Value → Json
  | .none => .null
  | .bool b => .bool b
  | .int i => .number (.int i.toInt)
  | .float x =>
    match Numeral.ofFloat? x.number with
    | some n => .number n
    | none => .string (h.str (.float x))
  | .str s => .string s
  | .list ref =>
    if open_.contains (.list ref) then .string (h.repr (.list ref))
    else .array ((h.list ref).toList.map (deep (.list ref :: open_)))
  | .tuple _ items => .array (jsonItems h deep open_ items)
  | .set ref => .array ((h.set ref).entries.map (deep open_))
  | .dict ref =>
    if open_.contains (.dict ref) then .string (h.repr (.dict ref))
    else
      Json.ofMembers ((h.dict ref).entries.map fun (k, v) => (h.str k, deep (.dict ref :: open_) v))
  | v => .string (h.str v)

def jsonItems (h : Heap) (deep : List Container → Value → Json) (open_ : List Container) :
    List Value → List Json
  | [] => []
  | v :: rest => jsonStep h deep open_ v :: jsonItems h deep open_ rest

end

def jsonTo (h : Heap) : Nat → List Container → Value → Json
  | 0 => fun _ _ => .null
  | depth + 1 => jsonStep h (jsonTo h depth)

def toJson (h : Heap) (v : Value) : Json :=
  h.jsonTo h.wayBound [] v

end Heap

end Playback
