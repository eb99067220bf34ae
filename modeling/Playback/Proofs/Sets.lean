import Playback.Proofs.Atomicity

/-!
# Operators on sets

The operators on sets make new ones of members of both, by the keys that these have. They do to what is in the sets what
Boolean operators do, and the comparisons are inclusion (`Heap.set_operators_agree`). What is new in a union comes after
what was there, as it does in a symmetric difference.
-/

namespace Playback

open List HeapM

variable {a b : Members} {h : Heap} {r s : Nat}

namespace Keyed

theorem putNew_eq (a : Members) (k : Key) (v : Value) : a.putNew k v = if a.has k then a else a ++ [(k, v)] := by
  induction a with
  | nil => rfl
  | cons e a ih =>
    rw [putNew, ih, has, has, any_cons]
    cases e.1 == k <;> cases a.any (·.1 == k) <;> rfl

/-- The members of a set, put into another, come after what is there, but for those that it has. -/
theorem membersOf_entries (hb : SetIndexed b) : membersOf a b.entries = .ok (a ++ difference b a) := by
  induction b generalizing a with
  | nil => exact congrArg Except.ok (append_nil a).symm
  | cons e b ih =>
    have hrest : SetIndexed b := hb.sublist (sublist_cons_self e b)
    obtain ⟨hne, -⟩ := nodup_cons.1 (hb.distinct trivial)
    change (e.2.key >>= fun k => membersOf (a.putNew k e.2) (Keyed.entries b)) = _
    rw [hb.all e (.head _)]
    refine (ih hrest).trans (congrArg Except.ok ?_)
    rw [putNew_eq, difference, difference]
    by_cases ha : a.has e.1 = true
    · simp [ha]
    · have hf : b.filter (fun f => !Keyed.has f.1 (a ++ [e])) = b.filter fun f => !a.has f.1 := by
        refine filter_congr fun f hf => ?_
        have hef : e.1 ≠ f.1 := fun hef => hne (mem_map.2 ⟨f, hf, hef.symm⟩)
        simp [has, hef]
      simp [ha, hf]

theorem membersOf_append (vs ws : List Value) (hm : membersOf a vs = .ok m) :
    membersOf a (vs ++ ws) = membersOf m ws := by
  induction vs generalizing a with
  | nil =>
    cases hm
    rfl
  | cons v vs ih =>
    rw [membersOf] at hm
    rw [cons_append, membersOf]
    cases hk : v.key with
    | error e =>
      rw [hk] at hm
      cases hm
    | ok k =>
      rw [hk] at hm
      exact ih hm

theorem membersOf_nil (hb : SetIndexed b) : membersOf [] b.entries = .ok b := by
  rw [membersOf_entries hb]
  simp [difference, has]

theorem has_filter (p : Key → Bool) (a : Members) (k : Key) : Keyed.has k (a.filter (p ·.1)) = (a.has k && p k) := by
  simp only [has, any_filter]
  grind

theorem has_difference (a b : Members) (k : Key) : (difference a b).has k = (a.has k && !b.has k) :=
  has_filter (fun k => !b.has k) a k

theorem has_append (a b : Members) (k : Key) : Keyed.has k (a ++ b) = (a.has k || b.has k) :=
  any_append

end Keyed

/-- What an operator on sets makes of whether something is in the first and in the second. -/
def BinaryOp.onMembership : BinaryOp → Bool → Bool → Bool
  | .bitOr, a, b => a || b
  | .bitAnd, a, b => a && b
  | .sub, a, b => a && !b
  | _, a, b => a ^^ b

namespace Heap

open Keyed

/-- The members of what an operator makes of two sets. -/
def combined : BinaryOp → Members → Members → Members
  | .bitOr, a, b => a ++ difference b a
  | .bitAnd, a, b => intersection a b
  | .sub, a, b => difference a b
  | _, a, b => difference a b ++ difference b a

theorem has_combined (op : BinaryOp) (a b : Members) (k : Key) :
    (combined op a b).has k = op.onMembership (a.has k) (b.has k) := by
  cases op with
  | bitAnd => exact has_filter b.has a k
  | sub => exact has_difference a b k
  | bitOr =>
    rw [combined, has_append, has_difference]
    cases a.has k <;> cases b.has k <;> rfl
  | _ =>
    rw [combined, has_append, has_difference, has_difference]
    · cases a.has k <;> cases b.has k <;> rfl
    all_goals rintro ⟨⟩

theorem difference_differences (a b : Members) :
    difference (difference b a) (difference a b) = difference b a := by
  refine filter_eq_self.2 fun e he => ?_
  have hn : (!a.has e.1) = true := (mem_filter.1 he).2
  simp_all [has_difference]

theorem set_push (lists dicts fresh) (sets : Array Members) (m : Members) (i : Nat) :
    Heap.set ⟨lists, dicts, sets.push m, fresh⟩ i
      = if i = sets.size then m else Heap.set ⟨lists, dicts, sets, fresh⟩ i := by
  rw [set, Array.getElem?_push]
  split <;> rfl

/-- There is one set more, with certain members, and the others are as they were. -/
structure NewSet (h h' : Heap) (m : Members) : Prop where
  size : h'.sets.size = h.sets.size + 1
  new : h'.set h.sets.size = m
  old {i : Nat} : i < h.sets.size → h'.set i = h.set i
  creates : h.Creates h' (.set h.sets.size) (m.map (·.1))

/-- An operator on sets puts the members that it takes, in their order, into a new set. -/
theorem binary_sets (op : BinaryOp) (hop : op ∈ [BinaryOp.bitOr, .bitAnd, .sub, .bitXor]) (ha : SetIndexed (h.set r))
    (hb : SetIndexed (h.set s)) : SetIndexed (combined op (h.set r) (h.set s))
      ∧ ∃ h', HeapM.binary op (.set r) (.set s) h = .ok (.set h.sets.size) h'
        ∧ h.NewSet h' (combined op (h.set r) (h.set s)) := by
  have hset {vs : List Value} {m : Members} (hm : membersOf [] vs = .ok m) :
      SetIndexed m ∧ ∃ h', HeapM.setOf vs h = .ok (.set h.sets.size) h' ∧ h.NewSet h' m := by
    rw [HeapM.setOf, hm]
    refine ⟨Keeps.membersOf .nil (fun _ _ _ => id) m hm, _, rfl, Array.size_push _, ?_, fun hi => ?_, h.creates_newSet m⟩
    · exact (set_push ..).trans (if_pos rfl)
    · exact (set_push ..).trans (if_neg hi.ne)
  have hd {a b : Members} (ha : SetIndexed a) : SetIndexed (difference a b) := ha.sublist filter_sublist
  simp only [mem_cons, not_mem_nil, or_false] at hop
  rcases hop with rfl | rfl | rfl | rfl
  · exact hset ((membersOf_append _ _ (membersOf_nil ha)).trans (membersOf_entries hb))
  · exact hset (membersOf_nil (ha.sublist filter_sublist))
  · exact hset (membersOf_nil (hd ha))
  · refine hset ((membersOf_append _ _ (membersOf_nil (hd ha))).trans ((membersOf_entries (hd hb)).trans ?_))
    rw [difference_differences]
    rfl

theorem contains_set (h : Heap) (i : Nat) (hk : x.key = .ok k) : h.contains (.set i) x = .ok ((h.set i).has k) := by
  rw [contains, hk]
  rfl

/-- Whatever is in the first set is in the second. -/
def Within (h : Heap) (r s : Nat) : Prop :=
  ∀ x, h.contains (.set r) x = .ok true → h.contains (.set s) x = .ok true

theorem within_iff (hr : SetIndexed (h.set r)) : h.Within r s ↔ setWithin (h.set r) (h.set s) = true := by
  rw [setWithin_iff]
  refine ⟨fun hi k hk => ?_, fun hw x hx => ?_⟩
  · obtain ⟨e, he, rfl⟩ := mem_map.1 hk
    have hx := hi e.2
    rw [contains_set h r (hr.all e he), contains_set h s (hr.all e he), has_iff.2 hk] at hx
    exact has_iff.1 (Except.ok.inj (hx rfl))
  · cases hk : x.key with
    | error =>
      rw [contains, hk] at hx
      cases hx
    | ok k =>
      rw [contains_set _ _ hk, Except.ok.injEq, has_iff] at hx ⊢
      exact hw hx

/-- **The operators on sets agree with membership.** A value that has a key is in the union, the intersection, the
difference and the symmetric difference of two sets as it is in one of them, in both, in the first only and in just one;
each is a new set without members of the same key, and the two sets stay as they are. The symmetric difference has the
members of the union of the two differences, in their order. Sets are ordered by inclusion. -/
theorem set_operators_agree (h : Heap) (r s : Nat) (hr : r < h.sets.size) (hs : s < h.sets.size)
    (hra : SetIndexed (h.set r)) (hsa : SetIndexed (h.set s)) :
    (∀ op ∈ [BinaryOp.bitOr, .bitAnd, .sub, .bitXor], ∃ i h', HeapM.binary op (.set r) (.set s) h = .ok (.set i) h'
        ∧ SetIndexed (h'.set i) ∧ h'.set r = h.set r ∧ h'.set s = h.set s
        ∧ ∀ x k, x.key = .ok k → ∃ first second, h.contains (.set r) x = .ok first
          ∧ h.contains (.set s) x = .ok second ∧ h'.contains (.set i) x = .ok (op.onMembership first second))
      ∧ (∃ i h₁ j h₂, HeapM.binary .bitXor (.set r) (.set s) h = .ok (.set i) h₁
        ∧ (do HeapM.binary .bitOr (← HeapM.binary .sub (.set r) (.set s)) (← HeapM.binary .sub (.set s) (.set r))) h
          = .ok (.set j) h₂ ∧ h₁.set i = h₂.set j)
      ∧ ∀ op included, (op, included) ∈ [(CompareOp.le, h.Within r s), (.lt, h.Within r s ∧ ¬ h.Within s r),
          (.ge, h.Within s r), (.gt, h.Within s r ∧ ¬ h.Within r s)] →
        ∃ holds, h.compare op (.set r) (.set s) = .ok holds ∧ (holds = true ↔ included) := by
  refine ⟨fun op hop => ?_, ?_, fun op included hop => ?_⟩
  · obtain ⟨hin, h', hrun, hn⟩ := binary_sets _ hop hra hsa
    refine ⟨_, h', hrun, hn.new.symm ▸ hin, hn.old hr, hn.old hs, fun x k hk => ?_⟩
    refine ⟨_, _, contains_set h r hk, contains_set h s hk, ?_⟩
    rw [contains_set _ _ hk, hn.new, has_combined]
  · obtain ⟨-, _, hxor, hx⟩ := binary_sets .bitXor (by simp) hra hsa
    obtain ⟨hin₁, h₁, hrun₁, hn₁⟩ := binary_sets .sub (by simp) hra hsa
    obtain ⟨hin₂, h₂, hrun₂, hn₂⟩ := binary_sets .sub (by simp) (hn₁.old hs ▸ hsa) (hn₁.old hr ▸ hra)
    have hfirst : h₂.set h.sets.size = _ := (hn₂.old (by rw [hn₁.size]; omega)).trans hn₁.new
    obtain ⟨-, h₃, hrun₃, hn₃⟩ := binary_sets .bitOr (by simp) (hfirst ▸ hin₁) (hn₂.new ▸ hin₂)
    refine ⟨_, _, _, h₃, hxor, (Eval.ok_bind hrun₁).trans ((Eval.ok_bind hrun₂).trans hrun₃), ?_⟩
    rw [hx.new, hn₃.new, hfirst, hn₂.new, hn₁.old hr, hn₁.old hs]
    exact congrArg (difference (h.set r) (h.set s) ++ ·) (difference_differences ..).symm
  · simp only [mem_cons, not_mem_nil, or_false, Prod.mk.injEq] at hop
    rcases hop with ⟨rfl, rfl⟩ | ⟨rfl, rfl⟩ | ⟨rfl, rfl⟩ | ⟨rfl, rfl⟩
    all_goals
      refine ⟨_, rfl, ?_⟩
      simp only [within_iff hra, within_iff hsa, setOrder]
      cases setWithin (h.set r) (h.set s) <;> cases setWithin (h.set s) (h.set r) <;> simp

/-- The symmetric difference of the sets of 1 and 2 and of 2 has `True` in it, as the first set has and the second has
not. -/
theorem set_operators_agree_true :
    let h : Heap := { Heap.empty with sets := #[[(.int 1, .int 1), (.int 2, .int 2)], [(.int 2, .int 2)]] }
    ∃ i h', HeapM.binary .bitXor (.set 0) (.set 1) h = .ok (.set i) h'
      ∧ h'.contains (.set i) (.bool true) = .ok true := by
  intro h
  have hkey : (Value.bool true).key = .ok (.int 1) := rfl
  obtain ⟨hop, -, -⟩ := set_operators_agree h 0 1 (by decide) (by decide)
    ⟨fun _ => by simp [h, set], by simp [h, set, Value.key]⟩ ⟨fun _ => by simp [h, set], by simp [h, set, Value.key]⟩
  obtain ⟨i, h', hrun, -, -, -, hx⟩ := hop .bitXor (by simp)
  obtain ⟨_, _, hr, hs, hx⟩ := hx _ _ hkey
  rw [contains_set _ _ hkey] at hr hs
  cases hr
  cases hs
  exact ⟨i, h', hrun, hx⟩

end Heap

end Playback
