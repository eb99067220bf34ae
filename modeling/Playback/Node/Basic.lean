import Playback.Json.Document
import Playback.Json.Write

/-!
# Nodes

The editor keeps a program as a tree of nodes. A node has a tag that says what it is, named child sets
in an order of their own, and named properties.
-/

namespace Playback

/-- A node of the editor's tree. -/
structure Node where
  tag : String
  /-- Named rows of child nodes, each name once. -/
  childSets : List (String × List Node)
  /-- Named values, each name once. -/
  properties : List (String × Json)

namespace Node

def leaf (tag : String) : Node :=
  { tag, childSets := [], properties := [] }

/-- The children in a set; a missing set has none. -/
def children (node : Node) (set : String) : List Node :=
  (node.childSets.lookup set).getD []

def property? (node : Node) (name : String) : Option Json :=
  node.properties.lookup name

/-! ## Equality -/

/-- Whether two numbers are written alike: integers equal, or doubles equal as doubles. -/
def sameNumeral : Numeral → Numeral → Bool
  | .int i, .int j => i == j
  | .float x, .float y => x == y
  | _, _ => false

mutual

def sameJson : Json → Json → Bool
  | .null, .null => true
  | .bool a, .bool b => a == b
  | .number a, .number b => sameNumeral a b
  | .string a, .string b => a == b
  | .array a, .array b => sameItems a b
  | .object a, .object b => sameMembers a b
  | _, _ => false

def sameItems : List Json → List Json → Bool
  | [], [] => true
  | a :: as, b :: bs => sameJson a b && sameItems as bs
  | _, _ => false

/-- Whether two objects have equal members in the same order. -/
def sameMembers : List (String × Json) → List (String × Json) → Bool
  | [], [] => true
  | (k, a) :: as, (l, b) :: bs => k == l && sameJson a b && sameMembers as bs
  | _, _ => false

end

/-- Whether two rows of properties hold equal values under the same names, in any order. -/
def sameProperties (a b : List (String × Json)) : Bool :=
  a.length == b.length && a.all fun (name, value) =>
    match b.lookup name with
    | some other => sameJson value other
    | none => false

mutual

/-- Whether two nodes are equal; the order of child sets and properties does not matter. -/
def same : Node → Node → Bool
  | ⟨tag, sets, properties⟩, other =>
    tag == other.tag && sameProperties properties other.properties
      && sets.length == other.childSets.length && sameSets sets other.childSets

/-- Whether every child set has an equal partner. -/
def sameSets : List (String × List Node) → List (String × List Node) → Bool
  | [], _ => true
  | (name, nodes) :: rest, others =>
    (match others.lookup name with
      | some partner => sameNodes nodes partner
      | none => false) && sameSets rest others

def sameNodes : List Node → List Node → Bool
  | [], [] => true
  | a :: as, b :: bs => same a b && sameNodes as bs
  | _, _ => false

end

/-! ## JSON -/

mutual

/-- A node as a JSON value, child sets and properties in their own order. -/
def toJson : Node → Json
  | ⟨tag, sets, properties⟩ =>
    .object [("type", .string tag), ("childSets", .object (setsJson sets)),
      ("properties", .object properties)]

def setsJson : List (String × List Node) → List (String × Json)
  | [] => []
  | (name, nodes) :: rest => (name, .array (nodesJson nodes)) :: setsJson rest

def nodesJson : List Node → List Json
  | [] => []
  | node :: rest => toJson node :: nodesJson rest

end

def text (node : Node) : String :=
  node.toJson.text

/-- A row of named things with one more: a name that is there keeps its place and gets the new one. -/
def putNamed {α : Type} (name : String) (a : α) : List (String × α) → List (String × α)
  | [] => [(name, a)]
  | (n, b) :: rest => if n = name then (n, a) :: rest else (n, b) :: putNamed name a rest

/-- The members of an object under names that must be texts, each read with `read`. -/
def readNamed? {α : Type} (read : Document → Option α) :
    List (Option String × Document) → Option (List (String × α)) :=
  fun members => do
    let named ← members.mapM fun (m : Option String × Document) => do
      return (← m.1, ← read m.2)
    return named.foldl (fun acc m => putNamed m.1 m.2 acc) []

/-- The fields of a node as they were written. -/
structure Fields where
  /-- The field `type`. -/
  tag : Option Document := none
  childSets : Option Document := none
  properties : Option Document := none

/-- Collects the fields of a node from the members of an object. Other members are passed over; a field
written twice is refused. -/
def fieldsOf? : Fields → List (Option String × Document) → Option Fields
  | fields, [] => some fields
  | fields, (key, value) :: rest => do
    match ← key with
    | "type" => if fields.tag.isSome then none else fieldsOf? { fields with tag := some value } rest
    | "childSets" =>
      if fields.childSets.isSome then none else fieldsOf? { fields with childSets := some value } rest
    | "properties" =>
      if fields.properties.isSome then none
      else fieldsOf? { fields with properties := some value } rest
    | _ => fieldsOf? fields rest

/-- The fields of a node written as an object, or as an array of its tag, child sets and properties, of
which the last ones may be left out. -/
def fields? : Document → Option Fields
  | .object members => fieldsOf? {} members
  | .array [tag] => some { tag := some tag }
  | .array [tag, sets] => some { tag := some tag, childSets := some sets }
  | .array [tag, sets, properties] =>
    some { tag := some tag, childSets := some sets, properties := some properties }
  | _ => none

/-- The properties of a node, read from an object in which at most `room` levels are nested. -/
def readProperties? (room : Nat) : Document → Option (List (String × Json))
  | .object members =>
    match room with
    | 0 => none
    | room + 1 => readNamed? (Json.ofDocument? room) members
  | _ => none

/-- The child sets of a node: an object of arrays whose items `read` takes. -/
def readChildSets? (read : Document → Option Node) : Document → Option (List (String × List Node))
  | .object members =>
    readNamed? (fun
      | .array items => items.mapM read
      | _ => none) members
  | _ => none

/-- The node a document holds, with at most `room` nested arrays and objects: a level of nodes takes three
of them. -/
def ofDocument? : Nat → Document → Option Node
  | 0, _ => none
  | room + 1, doc => do
    let fields ← fields? doc
    let tag ← match ← fields.tag with
      | .string text => text
      | _ => none
    let childSets ← match fields.childSets with
      | none => some []
      | some sets =>
        match room with
        | room + 2 => readChildSets? (ofDocument? room) sets
        | 1 =>
          -- no room for the arrays of an object that has members
          match sets with
          | .object [] => some []
          | _ => none
        | 0 => none
    let properties ← match fields.properties with
      | none => some []
      | some properties => readProperties? room properties
    return { tag, childSets, properties }

def parse? (s : String) : Option Node := do
  ofDocument? Json.maxNesting (← Document.parse? s)

end Node

end Playback
