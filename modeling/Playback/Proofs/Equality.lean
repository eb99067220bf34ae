import Mathlib.Data.Finset.Prod
import Mathlib.Data.List.Perm.Subperm
import Mathlib.Data.List.Forall2
import Mathlib.Logic.Relation
import Mathlib.Order.Monotone.Basic
import Playback.Proofs.Keyed
import Playback.Value.Equal

/-!
# Equality as a relation

Equality is computed down to a depth. The depth is enough: one level more changes nothing, since every level before that
adds a pair of cells (`Heap.equalTo_depthBound`). So equality says of two lists what it says of their items. It is
symmetric and transitive wherever no doubles occur (`Heap.equal_symm`, `Heap.equal_trans`).
-/

namespace Playback

open List

variable {R : Value → Value → Prop} {as bs : List Value} {a b : Value}

/-- What holds of a value if it holds of the items of a tuple. -/
theorem Value.items_induction {P : Value → Prop}
    (step : ∀ v, (∀ id xs, v = .tuple id xs → ∀ w ∈ xs, P w) → P v) (v : Value) : P v := by
  induction hk : sizeOf v using Nat.strong_induction_on generalizing v with
  | _ k ih =>
    refine step v fun id xs hv w hw => ih (sizeOf w) ?_ w rfl
    have hlt := sizeOf_lt_of_mem hw
    subst hv
    simp only [Value.tuple.sizeOf_spec] at hk
    omega

theorem forall₂_imp {α : Type} {R R' : α → α → Prop} {as bs : List α} (hf : Forall₂ R as bs)
    (h : ∀ a ∈ as, ∀ b ∈ bs, R a b → R' a b) : Forall₂ R' as bs := by
  induction hf with
  | nil => exact .nil
  | @cons a b as bs _ _ _ => simp_all

theorem forall₂_trans (hf : Forall₂ R as bs)
    (hg : Forall₂ R bs cs) (h : ∀ a ∈ as, ∀ b ∈ bs, ∀ c ∈ cs, R a b → R b c → R a c) : Forall₂ R as cs := by
  induction hf generalizing cs with
  | nil => exact hg
  | cons hab _ ih =>
    cases hg with
    | cons hbc hg =>
      refine .cons (h _ (.head _) _ (.head _) _ (.head _) hab hbc) (ih hg ?_)
      exact fun a ha b hb c hc => h a (.tail _ ha) b (.tail _ hb) c (.tail _ hc)

namespace Keyed

variable {α : Type} {m : Keyed α}

theorem keys_perm {m' : Keyed α} (hm : (m.map (·.1)).Nodup) (hl : m.length = m'.length)
    (hsub : m.map (·.1) ⊆ m'.map (·.1)) : (m.map (·.1)).Perm (m'.map (·.1)) :=
  (hm.subperm hsub).perm_of_length_le (by simp [hl])

/-- If every entry has a partner of its key in another row of the same length, so has every entry of the other. -/
theorem partners_symm {m' : Keyed α} (hm : (m.map (·.1)).Nodup) (hm' : (m'.map (·.1)).Nodup) (hl : m.length = m'.length)
    (R : α → α → Prop) (h : ∀ e ∈ m, ∃ y, m'.get? e.1 = some y ∧ R e.2 y) :
    ∀ e ∈ m', ∃ x, m.get? e.1 = some x ∧ R x e.2 := by
  intro e he
  have hsub : m.map (·.1) ⊆ m'.map (·.1) := by
    intro k hk
    obtain ⟨e, he, rfl⟩ := mem_map.1 hk
    obtain ⟨y, hy, -⟩ := h e he
    exact mem_map.2 ⟨_, mem_of_get? hy, rfl⟩
  obtain ⟨e', he', hk⟩ := mem_map.1 ((keys_perm hm hl hsub).mem_iff.2 (mem_map_of_mem he))
  obtain ⟨y, hy, hR⟩ := h e' he'
  rw [hk, get?_of_mem hm' he] at hy
  cases hy
  exact ⟨e'.2, get?_of_mem hm (hk ▸ he'), hR⟩

end Keyed

namespace Heap

variable {h : Heap} {deep deep' : Value → Value → Bool}

theorem allEqual_iff : allEqual deep as bs = true ↔ Forall₂ (deep · · = true) as bs := by
  induction as generalizing bs with
  | nil => cases bs <;> simp [allEqual]
  | cons a as ih => cases bs <;> simp [allEqual, ih]

theorem equalItems_eq (as bs : List Value) : h.equalItems deep as bs = allEqual (h.equalStep deep) as bs := by
  induction as generalizing bs with
  | nil => cases bs <;> rfl
  | cons a as ih => cases bs <;> simp [equalItems, allEqual, ih]

theorem equalStep_list (i j : Nat) : h.equalStep deep (.list i) (.list j) = true
    ↔ i = j ∨ Forall₂ (deep · · = true) (h.list i).toList (h.list j).toList := by
  have hs (hf : Forall₂ (deep · · = true) (h.list i).toList (h.list j).toList) := hf.length_eq
  simp only [equalStep, Bool.or_eq_true, Bool.and_eq_true, beq_iff_eq, allEqual_iff]
  exact or_congr_right (and_iff_right_of_imp hs)

theorem equalStep_tuple (p q : Nat) (as bs : List Value) : h.equalStep deep (.tuple p as) (.tuple q bs) = true
    ↔ Forall₂ (h.equalStep deep · · = true) as bs := by
  simpa [equalStep, equalItems_eq, allEqual_iff] using fun hf => hf.length_eq

theorem dictWithin_iff {a b : Dict} : dictWithin deep a b = true
    ↔ ∀ e ∈ a, ∃ f, b.get? e.1 = some f ∧ deep e.2.2 f.2 = true := by
  unfold dictWithin
  rw [all_eq_true]
  refine forall₂_congr fun e _ => ?_
  rcases e with ⟨k, e⟩
  cases hk : b.get? k <;> simp [hk]

theorem setWithin_iff {a b : Members} : setWithin a b = true ↔ a.map (·.1) ⊆ b.map (·.1) := by
  simp [setWithin, Keyed.has, subset_def]

/-- What is equal with one way to compare what cells hold is so with another if that holds of cells. -/
theorem equalStep_of_cells
    (hl : ∀ i j, h.equalStep deep (.list i) (.list j) = true → h.equalStep deep' (.list i) (.list j) = true)
    (hd : ∀ i j, h.equalStep deep (.dict i) (.dict j) = true → h.equalStep deep' (.dict i) (.dict j) = true)
    (a b : Value) : h.equalStep deep a b = true → h.equalStep deep' a b = true := by
  induction a using Value.items_induction generalizing b with
  | step a ih =>
  cases a with
  | list i =>
    cases b with
    | list j => exact hl i j
    | _ => exact id
  | dict i =>
    cases b with
    | dict j => exact hd i j
    | _ => exact id
  | tuple p as =>
    cases b with
    | tuple q _ =>
      rw [equalStep_tuple, equalStep_tuple]
      intro hf
      exact forall₂_imp hf fun a ha b _ => ih p as rfl a ha b
    | _ => exact id
  | _ => cases b <;> exact id

theorem equalStep_mono (hdeep : ∀ a b, deep a b = true → deep' a b = true) (a b : Value) :
    h.equalStep deep a b = true → h.equalStep deep' a b = true := by
  refine equalStep_of_cells (fun i j => ?_) (fun i j => ?_) a b
  · rw [equalStep_list, equalStep_list]
    exact Or.imp_right fun hf => hf.imp fun a b => hdeep a b
  · simp only [equalStep, Bool.and_eq_true, dictWithin_iff]
    exact And.imp_right fun hw e he => (hw e he).imp fun f => And.imp_right (hdeep _ _)

theorem equalTo_succ (n : Nat) (a b : Value) : h.equalTo n a b = true → h.equalTo (n + 1) a b = true := by
  induction n generalizing a b with
  | zero => exact fun hab => nomatch hab
  | succ n ih => exact equalStep_mono ih a b

/-! ## The depth is enough -/

/-- The lists of a heap and then its dicts. -/
def cell (h : Heap) (k : Nat) : Value :=
  if k < h.lists.size then .list k else .dict (k - h.lists.size)

theorem cell_list (hi : i < h.lists.size) : h.cell i = .list i :=
  if_pos hi

theorem cell_dict (i : Nat) : h.cell (h.lists.size + i) = .dict i := by
  rw [cell, if_neg (by omega), Nat.add_sub_cancel_left]

def equalCells (h : Heap) (n : Nat) : Finset (Nat × Nat) :=
  (Finset.range h.containers ×ˢ Finset.range h.containers).filter fun p => h.equalTo n (h.cell p.1) (h.cell p.2)

theorem equalCells_subset (n : Nat) : h.equalCells n ⊆ h.equalCells (n + 1) :=
  Finset.monotone_filter_right _ fun _ _ => equalTo_succ n _ _

/-- A level that adds no pair of cells adds no pair of values, for what is not a cell is compared without the depth. -/
theorem equalTo_of_cells (hc : h.equalCells (n + 1) = h.equalCells (n + 2)) :
    h.equalTo (n + 1) = h.equalTo (n + 2) := by
  have hcell (k l : Nat) (hk : k < h.containers) (hl : l < h.containers)
      (heq : h.equalTo (n + 2) (h.cell k) (h.cell l) = true) : h.equalTo (n + 1) (h.cell k) (h.cell l) = true := by
    have hmem : (k, l) ∈ h.equalCells (n + 2) := by simp [equalCells, hk, hl, heq]
    rw [← hc] at hmem
    exact (Finset.mem_filter.1 hmem).2
  refine funext fun a => funext fun b => Bool.eq_iff_iff.2 ⟨equalTo_succ _ a b, ?_⟩
  refine equalStep_of_cells (fun i j => ?_) (fun i j => ?_) a b
  · by_cases hi : i < h.lists.size
    · by_cases hj : j < h.lists.size
      · have hij := hcell i j (Nat.lt_add_right _ hi) (Nat.lt_add_right _ hj)
        rwa [cell_list hi, cell_list hj] at hij
      · have hj0 : h.list j = #[] := by simp [list, hj]
        simp [equalStep_list, hj0]
    · have hi0 : h.list i = #[] := by simp [list, hi]
      simp [equalStep_list, hi0]
  · by_cases hi : i < h.dicts.size
    · by_cases hj : j < h.dicts.size
      · have hij := hcell _ _ (Nat.add_lt_add_left hi _) (Nat.add_lt_add_left hj _)
        rwa [cell_dict, cell_dict] at hij
      · have hj0 : h.dict j = [] := by simp [dict, hj]
        cases hd : h.dict i <;> simp [equalStep, hj0, hd, dictWithin]
    · have hi0 : h.dict i = [] := by simp [dict, hi]
      simp [equalStep, hi0, dictWithin]

/-- **The depth is enough.** One level more makes no more values equal. -/
theorem equalTo_depthBound : h.equalTo h.depthBound = h.equalTo (h.depthBound + 1) := by
  let f (n : Nat) := (h.equalCells (n + 1)).card
  have hmono (n : Nat) : f n ≤ f (n + 1) := Finset.card_le_card (equalCells_subset _)
  have hbound (n : Nat) : f n ≤ h.containers * h.containers :=
    (Finset.card_filter_le _ _).trans (by simp)
  have heq (n : Nat) (hn : f n = f (n + 1)) : h.equalTo (n + 1) = h.equalTo (n + 2) :=
    equalTo_of_cells (Finset.eq_of_subset_of_card_le (equalCells_subset _) hn.ge)
  have hstab (n : Nat) (hn : f n = f (n + 1)) : f (n + 1) = f (n + 2) := by
    have hdeep : h.equalTo (n + 2) = h.equalTo (n + 3) := congrArg h.equalStep (heq n hn)
    simp only [f, equalCells, hdeep]
  have hle : h.containers * h.containers ≤ (h.containers + 1) * (h.containers + 1) :=
    Nat.mul_le_mul (Nat.le_succ _) (Nat.le_succ _)
  have hn {n : Nat} := Nat.stabilises_of_monotone (n := n) (monotone_nat_of_le_succ hmono) hbound hstab
  exact heq _ ((hn hle).trans (hn (hle.trans (Nat.le_succ _))).symm)

theorem equal_eq : h.equal = h.equalStep h.equal :=
  equalTo_depthBound

/-! ## Values without doubles -/

/-- The values that a value holds. -/
def held (h : Heap) : Value → List Value
  | .list i => (h.list i).toList
  | .tuple _ items => items
  | .dict i => (h.dict i).flatMap fun e => [e.2.1, e.2.2]
  | .set i => (h.set i).map (·.2)
  | _ => []

/-- A value occurs in another at some depth. -/
def Inside (h : Heap) : Value → Value → Prop :=
  Relation.ReflTransGen fun v w => w ∈ h.held v

/-- Values that are no doubles and hold only such values, in a heap where no dict has a key twice, and none of the sets
among them. -/
structure Discrete (h : Heap) (S : Value → Prop) : Prop where
  keys (i : Nat) : ((h.dict i).map (·.1)).Nodup
  members {i : Nat} (hi : S (.set i)) : ((h.set i).map (·.1)).Nodup
  not_float {v : Value} (hv : S v) (x : Double) : v ≠ .float x
  held {v : Value} (hv : S v) {w : Value} (hw : w ∈ h.held v) : S w

/-- What a value without items is equal by. -/
inductive Scalar where
  | none
  | number (i : Word)
  | text (s : String)
  | range (length start step : Word)
  | function (serial : Nat)
  | builtin (b : Builtin)
  | module (id : Nat)

def scalar? : Value → Option Scalar
  | .none => some .none
  | .bool b => some (.number (Value.boolWord b))
  | .int i => some (.number i)
  | .str s => some (.text s)
  | .range r =>
    some (.range r.length (if r.length = 0 then 0 else r.start) (if r.length = 0 ∨ r.length = 1 then 0 else r.step))
  | .function code => some (.function code.serial)
  | .builtin b => some (.builtin b)
  | .module id _ => some (.module id)
  | _ => none

/-- How two discrete values can be equal. -/
inductive Alike (h : Heap) (deep : Value → Value → Bool) : Value → Value → Prop
  | scalar {a b : Value} (ha : scalar? a = some s) (hb : scalar? b = some s) : Alike h deep a b
  | list (hf : i = j ∨ Forall₂ (deep · · = true) (h.list i).toList (h.list j).toList) : Alike h deep (.list i) (.list j)
  | tuple {as bs : List Value} (hf : Forall₂ (h.equalStep deep · · = true) as bs) :
      Alike h deep (.tuple p as) (.tuple q bs)
  | dict (hl : (h.dict i).length = (h.dict j).length)
      (hw : ∀ e ∈ h.dict i, ∃ f, (h.dict j).get? e.1 = some f ∧ deep e.2.2 f.2 = true) :
      Alike h deep (.dict i) (.dict j)
  | set (hl : (h.set i).length = (h.set j).length)
      (hw : (h.set i).map (·.1) ⊆ (h.set j).map (·.1)) : Alike h deep (.set i) (.set j)

theorem same_iff_scalar (r r' : Range) : r.same r' = true ↔ scalar? (.range r) = scalar? (.range r') := by
  simp only [Range.same, scalar?, Bool.and_eq_true, beq_iff_eq, Option.some.injEq, Scalar.range.injEq]
  refine and_congr_right fun hl => ?_
  rw [← hl]
  by_cases h0 : r.length = 0 <;> by_cases h1 : r.length = 1 <;> simp [h0, h1]

theorem equalStep_scalar (ha : scalar? a = some s) (hb : ∀ x, b ≠ .float x) :
    h.equalStep deep a b = true ↔ scalar? b = some s := by
  rw [← ha, eq_comm (a := scalar? b)]
  cases a with
  | float | list | tuple | dict | set | method => cases ha
  | range r =>
    cases b with
    | range r' => exact same_iff_scalar r r'
    | float x => exact absurd rfl (hb x)
    | _ => simp [equalStep, scalar?, Value.sameNumber, Value.quantity?]
  | _ =>
    cases b with
    | float x => exact absurd rfl (hb x)
    | _ => simp [equalStep, scalar?, Value.sameNumber, Value.quantity?, Quantity.same]

theorem equalStep_iff {S : Value → Prop} (hS : h.Discrete S) (ha : S a) (hb : S b) :
    h.equalStep deep a b = true ↔ Alike h deep a b := by
  constructor
  · intro heq
    cases hs : scalar? a with
    | some s => exact .scalar hs ((equalStep_scalar hs (hS.not_float hb)).1 heq)
    | none =>
    cases a with
    | float x => exact absurd rfl (hS.not_float ha x)
    | list i =>
      cases b with
      | list j => exact .list ((equalStep_list i j).1 heq)
      | _ => cases heq
    | tuple p as =>
      cases b with
      | tuple q bs => exact .tuple ((equalStep_tuple p q as bs).1 heq)
      | _ => cases heq
    | dict i =>
      cases b with
      | dict j =>
        simp only [equalStep, Bool.and_eq_true, beq_iff_eq, dictWithin_iff] at heq
        exact .dict heq.1 heq.2
      | _ => cases heq
    | set i =>
      cases b with
      | set j =>
        simp only [equalStep, Bool.and_eq_true, beq_iff_eq, setWithin_iff] at heq
        exact .set heq.1 heq.2
      | _ => cases heq
    | method => cases b <;> cases heq
    | _ => cases hs
  · intro hab
    cases hab with
    | scalar hs hs' => exact (equalStep_scalar hs (hS.not_float hb)).2 hs'
    | list hf => exact (equalStep_list _ _).2 hf
    | tuple hf => exact (equalStep_tuple _ _ _ _).2 hf
    | dict hl hw => simpa [equalStep, dictWithin_iff, hl] using hw
    | set hl hw => simp [equalStep, setWithin_iff.2 hw, hl]

section

variable (hS : h.Discrete S)

include hS

theorem Discrete.entry {i : Nat} (hi : S (.dict i)) {e : Key × Value × Value} (he : e ∈ h.dict i) : S e.2.2 :=
  hS.held hi (mem_flatMap.2 ⟨e, he, by simp⟩)

theorem equalTo_symm (n : Nat) (ha : S a) (hb : S b) : h.equalTo n a b = true → h.equalTo n b a = true := by
  induction n generalizing a b with
  | zero => exact fun hab => nomatch hab
  | succ n ih =>
    induction a using Value.items_induction generalizing b with
    | step a iht =>
      intro hab
      refine (equalStep_iff hS hb ha).2 ?_
      cases (equalStep_iff hS ha hb).1 hab with
      | scalar hs hs' => exact .scalar hs' hs
      | list hf =>
        refine .list (hf.imp Eq.symm fun hf => (forall₂_imp hf ?_).flip)
        exact fun a ha' b hb' => ih (hS.held ha ha') (hS.held hb hb')
      | tuple hf =>
        refine .tuple (forall₂_imp hf ?_).flip
        exact fun a ha' b hb' => iht _ _ rfl a ha' (hS.held ha ha') (hS.held hb hb')
      | dict hl hw =>
        refine .dict hl.symm fun e he => ?_
        obtain ⟨f, hf, hR⟩ := Keyed.partners_symm (hS.keys _) (hS.keys _) hl (h.equalTo n ·.2 ·.2 = true) hw e he
        exact ⟨f, hf, ih (hS.entry ha (Keyed.mem_of_get? hf)) (hS.entry hb he) hR⟩
      | set hl hw => exact .set hl.symm (Keyed.keys_perm (hS.members ha) hl hw).symm.subset

theorem equalTo_trans (n : Nat) (ha : S a) (hb : S b) (hc : S c) :
    h.equalTo n a b = true → h.equalTo n b c = true → h.equalTo n a c = true := by
  induction n generalizing a b c with
  | zero => exact fun hab => nomatch hab
  | succ n ih =>
    induction a using Value.items_induction generalizing b c with
    | step a iht =>
      intro hab hbc
      refine (equalStep_iff hS ha hc).2 ?_
      have hbc := (equalStep_iff hS hb hc).1 hbc
      cases (equalStep_iff hS ha hb).1 hab with
      | scalar hs hs' =>
        cases hbc with
        | scalar ht ht' => exact .scalar (hs.trans (hs'.symm.trans ht)) ht'
        | _ => cases hs'
      | list hf =>
        cases hbc with
        | scalar hs => cases hs
        | list hg =>
          rcases hf with rfl | hf
          · exact .list hg
          · rcases hg with rfl | hg
            · exact .list (.inr hf)
            · refine .list (.inr (forall₂_trans hf hg ?_))
              exact fun a ha' b hb' c hc' => ih (hS.held ha ha') (hS.held hb hb') (hS.held hc hc')
      | tuple hf =>
        cases hbc with
        | scalar hs => cases hs
        | tuple hg =>
          refine .tuple (forall₂_trans hf hg ?_)
          exact fun a ha' b hb' c hc' => iht _ _ rfl a ha' (hS.held ha ha') (hS.held hb hb') (hS.held hc hc')
      | dict hl hw =>
        cases hbc with
        | scalar hs => cases hs
        | dict hl' hw' =>
          refine .dict (hl.trans hl') fun e he => ?_
          obtain ⟨f, hf, hR⟩ := hw e he
          obtain ⟨g, hg, hR'⟩ := hw' _ (Keyed.mem_of_get? hf)
          exact ⟨g, hg, ih (hS.entry ha he) (hS.entry hb (Keyed.mem_of_get? hf))
            (hS.entry hc (Keyed.mem_of_get? hg)) hR hR'⟩
      | set hl hw =>
        cases hbc with
        | scalar hs => cases hs
        | set hl' hw' => exact .set (hl.trans hl') (Subset.trans hw hw')

theorem equal_iff (ha : S a) (hb : S b) : h.equal a b = true ↔ Alike h h.equal a b := by
  rw [equal_eq]
  exact equal_eq ▸ equalStep_iff hS ha hb

theorem equal_symm (ha : S a) (hb : S b) : h.equal a b = true → h.equal b a = true :=
  equalTo_symm hS _ ha hb

theorem equal_trans (ha : S a) (hb : S b) (hc : S c) : h.equal a b = true → h.equal b c = true → h.equal a c = true :=
  equalTo_trans hS _ ha hb hc

end

end Heap
end Playback
