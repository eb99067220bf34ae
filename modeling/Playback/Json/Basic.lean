import Playback.Decimal.Layout

/-!
# JSON values

Values as node properties, request payloads and responses hold them. An object is kept in normal form:
members sorted by key, each key once.
-/

namespace Playback

/-- A number of a JSON text: an integer of up to 64 bits, or a double. -/
inductive Numeral where
  /-- An integer from `-2 ^ 63` to `2 ^ 64 - 1`. -/
  | int (i : Int)
  | float (x : Float) {finite : Binary64.isFinite x = true}

/-- A double as a number of a JSON text, if it is finite. -/
def Numeral.ofFloat? (x : Float) : Option Numeral :=
  if finite : Binary64.isFinite x = true then some (@Numeral.float x finite) else none

inductive Json where
  | null
  | bool (b : Bool)
  | number (n : Numeral)
  | string (s : String)
  | array (items : List Json)
  | object (members : List (String × Json))

namespace Json

/-- The members of an object with one more; a member of the same key gives way. -/
def insertMember (key : String) (value : Json) : List (String × Json) → List (String × Json)
  | [] => [(key, value)]
  | (k, v) :: rest =>
    if key < k then (key, value) :: (k, v) :: rest
    else if key = k then (key, value) :: rest
    else (k, v) :: insertMember key value rest

/-- The object with the given members: sorted, the last member of a key winning. -/
def ofMembers (members : List (String × Json)) : Json :=
  .object (members.foldl (fun acc m => insertMember m.1 m.2 acc) [])

end Json

end Playback
