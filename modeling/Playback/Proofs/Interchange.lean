import Playback.Node.Basic
import Playback.Proofs.Documents

/-!
# Nodes and their JSON texts

The text of a node is read as the node (`Node.read_back_from_text`). The text is read as a document first, and that the
document is the node's is shown here: names and keys that are there once stay where they are, and a level of nodes takes
three levels of nesting, so that a text within the bound on nesting leaves room enough at every level.
-/

namespace Playback

open List

variable {α : Type} {j : Json} {ms : List (String × Json)} {read : Document → Option α}

/-- Members that are put in one by one, each after all those before it, stay as they are. -/
theorem foldl_eq_append
    (hp : ∀ acc a, (∀ b ∈ acc, r b a) → put acc a = acc ++ [a]) {acc as : List α} (h : (acc ++ as).Pairwise r) :
    as.foldl put acc = acc ++ as := by
  induction as generalizing acc with
  | nil => exact (append_nil acc).symm
  | cons a as ih =>
    have hbe := (pairwise_append.1 h).2.2
    rw [← singleton_append, ← append_assoc] at h
    rw [foldl_cons, hp acc a fun b hb => hbe b hb a mem_cons_self, ih h, append_assoc]
    rfl

namespace Json

/-! ## Values -/

mutual

/-- How deep arrays and objects are nested in a value. -/
def nesting : Json → Nat
  | .array items => itemsNesting items + 1
  | .object members => membersNesting members + 1
  | _ => 0

def itemsNesting : List Json → Nat
  | [] => 0
  | item :: rest => max item.nesting (itemsNesting rest)

def membersNesting : List (String × Json) → Nat
  | [] => 0
  | (_, value) :: rest => max value.nesting (membersNesting rest)

end

theorem nesting_le_items (h : j ∈ xs) : j.nesting ≤ itemsNesting xs := by
  induction xs with
  | nil => cases h
  | cons _ xs ih =>
    rw [itemsNesting]
    rcases mem_cons.1 h with rfl | h
    · omega
    · have := ih h
      omega

theorem nesting_le_members (h : m ∈ ms) : m.2.nesting ≤ membersNesting ms := by
  induction ms with
  | nil => cases h
  | cons _ ms ih =>
    rw [membersNesting]
    rcases mem_cons.1 h with rfl | h
    · omega
    · have := ih h
      omega

theorem mapM_itemDocuments
    (h : List.Forall₂ (fun j a => read j.document = some a) xs as) : (itemDocuments xs).mapM read = some as := by
  induction h with
  | nil => rfl
  | cons hh _ ih =>
    rw [itemDocuments, mapM_cons, hh, ih]
    rfl

theorem mapM_memberDocuments (h : List.Forall₂ (fun m a => m.1 = a.1 ∧ read m.2.document = some a.2) ms as) :
    ((memberDocuments ms).mapM fun (m : Option String × Document) => do return (← m.1, ← read m.2)) = some as := by
  induction h with
  | nil => rfl
  | cons hh _ ih =>
    rw [memberDocuments, mapM_cons, ih, hh.1, hh.2]
    rfl

theorem insertMember_eq_append (acc : List (String × Json)) (m : String × Json) (h : ∀ m' ∈ acc, m'.1 < m.1) :
    insertMember m.1 m.2 acc = acc ++ [m] := by
  induction acc with
  | nil => rfl
  | cons m' acc ih =>
    obtain ⟨hlt, ha⟩ := forall_mem_cons.1 h
    rw [insertMember, if_neg (String.lt_asymm hlt), if_neg (Ne.symm (String.ne_of_lt hlt)), ih ha]
    rfl

theorem ofMembers_eq (h : (ms.map (·.1)).Pairwise (· < ·)) : ofMembers ms = .object ms := by
  have hm : ([] ++ ms).Pairwise fun m m' : String × Json => m.1 < m'.1 := pairwise_map.1 h
  exact congrArg object (foldl_eq_append insertMember_eq_append hm)

theorem ofDocument_document (hj : j.Legal (List.Pairwise (· < ·))) (hr : j.nesting ≤ k) :
    ofDocument? k j.document = some j := by
  induction hj generalizing k with
  | null | bool | int | string => cases k <;> rfl
  | @array xs _ ih =>
    rw [nesting] at hr
    cases k with
    | zero => omega
    | succ k =>
      have hi : (itemDocuments xs).mapM (ofDocument? k) = some xs := by
        refine mapM_itemDocuments (forall₂_same.2 fun j hj => ih j hj ?_)
        exact Nat.le_trans (nesting_le_items hj) (by omega)
      rw [document, ofDocument?, hi]
      rfl
  | @object _ hk _ ih =>
    rw [nesting] at hr
    cases k with
    | zero => omega
    | succ k =>
      have hme := mapM_memberDocuments (forall₂_same.2 fun m hm =>
        ⟨rfl, ih m hm (Nat.le_trans (nesting_le_members hm) (Nat.le_of_succ_le_succ hr))⟩)
      rw [document, ofDocument?, hme]
      exact congrArg some (ofMembers_eq hk)

theorem Legal.mono {keys keys' : List String → Prop} (h : ∀ ns, keys ns → keys' ns)
    (hj : j.Legal keys) : j.Legal keys' := by
  induction hj with
  | null => exact .null
  | bool b => exact .bool b
  | int hl hh => exact .int hl hh
  | string s => exact .string s
  | array _ ih => exact .array ih
  | object hk _ ih => exact .object (h _ hk) ih

end Json

namespace Node

/-! ## Nodes -/

/-- A node whose property values hold no doubles and are in normal form, and in which every name is there once. -/
inductive Normal : Node → Prop
  | intro {tag : String} {childSets : List (String × List Node)} {properties : List (String × Json)}
      (hsets : (childSets.map (·.1)).Nodup) (hproperties : (properties.map (·.1)).Nodup)
      (hvalues : ∀ p ∈ properties, p.2.Legal (List.Pairwise (· < ·)))
      (hchildren : ∀ set ∈ childSets, ∀ child ∈ set.2, Normal child) : Normal ⟨tag, childSets, properties⟩

theorem nodesJson_eq_map (nodes : List Node) : nodesJson nodes = nodes.map toJson := by
  induction nodes with
  | nil => rfl
  | cons _ nodes ih => rw [nodesJson, ih, map_cons]

theorem setsJson_eq_map (ss : List (String × List Node)) :
    setsJson ss = ss.map fun set => (set.1, .array (set.2.map toJson)) := by
  induction ss with
  | nil => rfl
  | cons set ss ih => rw [setsJson, ih, nodesJson_eq_map, map_cons]

theorem Normal.legal {n : Node} (h : n.Normal) : n.toJson.Legal fun _ => True := by
  induction h with
  | @intro tag childSets properties _ _ hv _ ih =>
    have hs : ∀ m ∈ setsJson childSets, m.2.Legal fun _ => True := by
      rw [setsJson_eq_map]
      exact forall_mem_map.2 fun set hse => .array (forall_mem_map.2 (ih set hse))
    have hpr : ∀ p ∈ properties, p.2.Legal fun _ => True :=
      fun p hp => (hv p hp).mono fun _ _ => trivial
    refine .object trivial (forall_mem_cons.2 ⟨.string tag, forall_mem_cons.2 ⟨?_, ?_⟩⟩)
    · exact .object trivial hs
    · exact forall_mem_singleton.2 (.object trivial hpr)

theorem putNamed_eq_append (acc : List (String × α)) (m : String × α) (h : ∀ m' ∈ acc, m'.1 ≠ m.1) :
    putNamed m.1 m.2 acc = acc ++ [m] := by
  induction acc with
  | nil => rfl
  | cons m' acc ih =>
    obtain ⟨hne, ha⟩ := forall_mem_cons.1 h
    rw [putNamed, if_neg hne, ih ha]
    rfl

theorem readNamed_memberDocuments {as : List (String × α)} (hn : (as.map (·.1)).Nodup)
    (h : List.Forall₂ (fun m a => m.1 = a.1 ∧ read m.2.document = some a.2) ms as) :
    readNamed? read (Json.memberDocuments ms) = some as := by
  unfold readNamed?
  rw [Json.mapM_memberDocuments h]
  exact congrArg some (foldl_eq_append putNamed_eq_append (pairwise_map.1 hn))

theorem nesting_child {set : String × List Node} (hs : set ∈ ss)
    (hc : child ∈ set.2) : child.toJson.nesting < Json.membersNesting (setsJson ss) := by
  have hm : (set.1, Json.array (set.2.map toJson)) ∈ setsJson ss := by
    rw [setsJson_eq_map]
    exact mem_map.2 ⟨set, hs, rfl⟩
  calc child.toJson.nesting
    _ ≤ Json.itemsNesting (set.2.map toJson) := Json.nesting_le_items (mem_map_of_mem hc)
    _ < (Json.array (set.2.map toJson)).nesting := by exact Nat.lt_succ_self _
    _ ≤ Json.membersNesting (setsJson ss) := Json.nesting_le_members hm

theorem ofDocument_toJson (hn : n.Normal) {k : Nat} (hr : n.toJson.nesting ≤ k) :
    ofDocument? k n.toJson.document = some n := by
  induction hn generalizing k with
  | @intro tag childSets properties hs hpr hv _ ih =>
    have hf : fields? (toJson ⟨tag, childSets, properties⟩).document = some
        { tag := some (.string (some tag))
          childSets := some (.object (Json.memberDocuments (setsJson childSets)))
          properties := some (.object (Json.memberDocuments properties)) } := rfl
    simp only [toJson, Json.nesting, Json.membersNesting] at hr
    obtain ⟨k, rfl⟩ : ∃ lt, k = lt + 2 := ⟨k - 2, by omega⟩
    have hre : readProperties? (k + 1) (.object (Json.memberDocuments properties)) = some properties := by
      refine readNamed_memberDocuments hpr (forall₂_same.2 fun p hp => ⟨rfl, ?_⟩)
      exact Json.ofDocument_document (hv p hp) (Nat.le_trans (Json.nesting_le_members hp) (by omega))
    cases k with
    | zero =>
      -- no room for the arrays of child sets, so there are no child sets
      cases childSets with
      | nil =>
        unfold ofDocument?
        rw [hf]
        simp [hre, setsJson, Json.memberDocuments]
      | cons set r =>
        rw [setsJson, Json.membersNesting, Json.nesting] at hr
        omega
    | succ k =>
      have hs : readChildSets? (ofDocument? k) (.object (Json.memberDocuments (setsJson childSets)))
          = some childSets := by
        rw [readChildSets?]
        refine readNamed_memberDocuments hs ?_
        rw [setsJson_eq_map, forall₂_map_left_iff]
        refine forall₂_same.2 fun set hse => ⟨rfl, ?_⟩
        refine Json.mapM_itemDocuments (forall₂_map_left_iff.2 (forall₂_same.2 fun child hc => ?_))
        have hl := nesting_child hse hc
        exact ih set hse child hc (by omega)
      unfold ofDocument?
      rw [hf]
      simp [hre, hs]

/-- **A node is read back from its text**: its tag, its child sets and its properties in their order, and every
character of its strings. -/
theorem read_back_from_text {n : Node} (hn : n.Normal) (hnesting : n.toJson.nesting ≤ Json.maxNesting) :
    parse? n.text = some n := by
  unfold parse? text
  rw [Document.parse_text hn.legal]
  exact ofDocument_toJson hn hnesting

/-- A call with one argument and a property that is an object. -/
def notedCall : Node :=
  { tag := "PYTHON_CALL_VARIABLE"
    childSets := [("arguments", [leaf "PYTHON_NONE"])]
    properties := [("identifier", .string "f\t"), ("notes", .object [("a", .number (.int (-7))), ("b", .null)])] }

theorem read_back_notedCall : parse? notedCall.text = some notedCall := by
  have hleaf : (leaf "PYTHON_NONE").Normal := .intro .nil .nil nofun nofun
  have hnotes : (Json.object [("a", .number (.int (-7))), ("b", .null)]).Legal (List.Pairwise (· < ·)) :=
    .object (by decide) (List.forall_mem_cons.2 ⟨.int (by decide) (by decide), List.forall_mem_singleton.2 .null⟩)
  have hcall : notedCall.Normal :=
    .intro (by decide) (by decide) (List.forall_mem_cons.2 ⟨.string _, List.forall_mem_singleton.2 hnotes⟩)
      (List.forall_mem_singleton.2 (List.forall_mem_singleton.2 hleaf))
  exact read_back_from_text hcall (by decide)

end Node

end Playback
