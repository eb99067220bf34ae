import Mathlib.Data.List.Forall2
import Mathlib.Data.List.Nodup
import Playback.Machine.Call
import Playback.Proofs.Resolving

/-!
# Arguments and parameters

A call fills the parameters of a function: positional arguments from the left, keywords by name. What is filled so far
are pairs of a name and a value (`filled`), and every keyword adds its own. So a call succeeds exactly if each parameter
is filled once (`Fills`), and the variables that it starts with are the pairs, in the order of the parameters.
-/

namespace Playback

open List

/-- A call fills each of the parameters, and none of them twice. -/
structure Fills (params : List String) (args : List Value) (keywords : Keywords) : Prop where
  few : args.length ≤ params.length
  named : ∀ k ∈ keywords, k.1 ∈ params ∧ k.1 ∉ params.take args.length
  once : (keywords.map (·.1)).Nodup
  all : ∀ p ∈ params, p ∈ params.take args.length ∨ p ∈ keywords.map (·.1)

/-- The parameters that are bound so far. -/
def filled (slots : Slots) : Scope :=
  slots.filterMap fun slot => slot.2.map (slot.1, ·)

variable {s row : Scope} {slots : Slots} {keywords : Keywords} {params : List String} {args : List Value}

/-! ## Scopes -/

theorem Scope.forall_put {q : String × Value → Prop} (h : ∀ x ∈ s, q x) (hv : q (y, v)) : ∀ x ∈ s.put y v, q x := by
  induction s with
  | nil => exact forall_mem_singleton.2 hv
  | cons x r ih =>
    obtain ⟨hx, hr⟩ := forall_mem_cons.1 h
    unfold Scope.put
    split
    · next hn =>
      cases hn
      exact forall_mem_cons.2 ⟨hv, hr⟩
    · exact forall_mem_cons.2 ⟨hx, ih hr⟩

theorem Scope.put_of_not_mem (h : y ∉ s.map (·.1)) : s.put y v = s ++ [(y, v)] := by
  induction s with
  | nil => rfl
  | cons x r ih =>
    rw [map_cons, mem_cons, not_or] at h
    rw [put, if_neg (Ne.symm h.1), ih h.2, cons_append]

theorem slotScope_eq (slots : Slots) (s : Scope) :
    slotScope slots s = (filled slots).foldl (fun s x => s.put x.1 x.2) s := by
  induction slots generalizing s with
  | nil => rfl
  | cons slot r ih =>
    obtain ⟨p, _ | v⟩ := slot
    · exact ih s
    · exact ih (s.put p v)

theorem Scope.forall_foldl_put {q : String × Value → Prop} (h : ∀ x ∈ s, q x) (hb : ∀ x ∈ row, q x) :
    ∀ x ∈ row.foldl (fun s x => Scope.put x.1 x.2 s) s, q x := by
  induction row generalizing s with
  | nil => exact h
  | cons x r ih =>
    obtain ⟨hx, hr⟩ := forall_mem_cons.1 hb
    exact ih (Scope.forall_put h hx) hr

theorem Scope.foldl_put_of_nodup (h : ((s ++ row).map (·.1)).Nodup) :
    row.foldl (fun s x => Scope.put x.1 x.2 s) s = s ++ row := by
  induction row generalizing s with
  | nil => exact (append_nil s).symm
  | cons x r ih =>
    have hx : x.1 ∉ s.map (·.1) := fun hx => by
      rw [map_append] at h
      exact (nodup_append.1 h).2.2 _ hx _ (.head _) rfl
    rw [append_cons] at h ⊢
    rw [foldl_cons, Scope.put_of_not_mem hx, ih h]

/-- Pairs that are the same but for their order, and have their names in one order, are in one order. -/
theorem eq_of_perm_of_names {s t : Scope} (hp : s.Perm t) (hn : s.map (·.1) = t.map (·.1)) (hd : (s.map (·.1)).Nodup) :
    s = t := by
  induction s generalizing t with
  | nil => exact hp.nil_eq
  | cons x s ih =>
    obtain _ | ⟨y, t⟩ := t
    · cases hn
    obtain ⟨hxy, hst⟩ := cons.inj hn
    obtain ⟨hx, hs⟩ := nodup_cons.1 hd
    obtain rfl | hy := mem_cons.1 (hp.mem_iff.2 (.head _))
    · rw [ih ((perm_cons y).1 hp) hst hs]
    · exact absurd (mem_map.2 ⟨y, hy, hxy.symm⟩) hx

/-! ## Binding arguments -/

theorem filled_positionalSlots (params : List String) (args : List Value) :
    filled (positionalSlots params args) = params.zip args
      ∧ (positionalSlots params args).map (·.1) = params := by
  induction params generalizing args with
  | nil => exact ⟨rfl, rfl⟩
  | cons p r ih =>
    cases args with
    | nil => exact ⟨(ih []).1.trans zip_nil_right, congrArg (p :: ·) (ih []).2⟩
    | cons v args => exact ⟨congrArg ((p, v) :: ·) (ih args).1, congrArg (p :: ·) (ih args).2⟩

theorem bindKeyword_filled (f k : String) (v : Value) (slots : Slots) : Yields (bindKeyword f k v slots) fun slots' =>
    slots'.map (·.1) = slots.map (·.1) ∧ (filled slots').Perm ((k, v) :: filled slots) := by
  induction slots with
  | nil => exact .error _
  | cons slot r ih =>
    obtain ⟨p, b⟩ := slot
    unfold bindKeyword
    split
    · next hp =>
      cases hp
      cases b with
      | some _ => exact .error _
      | none => exact .ok ⟨rfl, .refl _⟩
    · refine ih.bind fun slots' ⟨hn, hf⟩ => .ok ⟨congrArg (p :: ·) hn, ?_⟩
      cases b with
      | none => exact hf
      | some w => exact (hf.cons (p, w)).trans (.swap ..)

theorem bindKeywords_filled (f : String) (keywords : Keywords) (slots : Slots) :
    Yields (bindKeywords f keywords slots) fun slots' =>
      slots'.map (·.1) = slots.map (·.1) ∧ (filled slots').Perm (filled slots ++ keywords) := by
  induction keywords generalizing slots with
  | nil => exact .ok ⟨rfl, by rw [append_nil]⟩
  | cons k r ih =>
    refine (bindKeyword_filled f k.1 k.2 slots).bind fun slots' ⟨hn, hf⟩ => (ih slots').mono fun _ ⟨hn', hf'⟩ => ?_
    exact ⟨hn'.trans hn, hf'.trans ((hf.append_right r).trans perm_middle.symm)⟩

theorem bindKeyword_ok (f : String) (v : Value) (hk : k ∈ slots.map (·.1)) (hf : k ∉ (filled slots).map (·.1)) :
    ∃ slots', bindKeyword f k v slots = .ok slots' := by
  induction slots with
  | nil => cases hk
  | cons slot r ih =>
    obtain ⟨p, b⟩ := slot
    unfold bindKeyword
    split
    · next hp =>
      cases hp
      cases b with
      | none => exact ⟨_, rfl⟩
      | some w => exact absurd (.head _) hf
    · next hp =>
      have hr : k ∉ (filled r).map (·.1) := by
        cases b with
        | none => exact hf
        | some w => exact fun h => hf (.tail _ h)
      obtain ⟨slots', hs⟩ := ih ((mem_cons.1 hk).resolve_left (Ne.symm hp)) hr
      rw [hs]
      exact ⟨_, rfl⟩

theorem bindKeywords_ok (f : String) (hk : ∀ k ∈ keywords, k.1 ∈ slots.map (·.1))
    (hd : ((filled slots ++ keywords).map (·.1)).Nodup) : ∃ slots', bindKeywords f keywords slots = .ok slots' := by
  induction keywords generalizing slots with
  | nil => exact ⟨_, rfl⟩
  | cons k r ih =>
    obtain ⟨hk, hr⟩ := forall_mem_cons.1 hk
    have hp := (perm_middle : filled slots ++ k :: r ~ k :: (filled slots ++ r)).map (·.1)
    have hnew : k.1 ∉ (filled slots).map (·.1) := by
      have hnot := (nodup_cons.1 (hp.nodup_iff.1 hd)).1
      exact fun h => hnot (map_append ▸ mem_append_left _ h)
    obtain ⟨slots', hs⟩ := bindKeyword_ok f k.2 hk hnew
    obtain ⟨hn, hf⟩ := bindKeyword_filled f k.1 k.2 slots slots' hs
    have hd' : ((filled slots' ++ r).map (·.1)).Nodup :=
      ((hf.append_right r).map (·.1)).nodup_iff.2 (hp.nodup_iff.1 hd)
    rw [bindKeywords, hs]
    exact ih (hn ▸ hr) hd'

theorem names_filled (slots : Slots) :
    (filled slots).map (·.1) = (slots.filter fun slot => slot.2.isSome).map (·.1) := by
  induction slots with
  | nil => rfl
  | cons slot r ih =>
    obtain ⟨p, _ | v⟩ := slot
    · exact ih
    · exact congrArg (p :: ·) ih

theorem names_zip (params : List String) (args : List Value) :
    (params.zip args).map (·.1) = params.take args.length := by
  induction params generalizing args with
  | nil => exact take_nil.symm
  | cons p r ih => cases args <;> simp [ih]

theorem zip_take (scope : Scope) (n : Nat) :
    (scope.map (·.1)).zip ((scope.take n).map (·.2)) = scope.take n := by
  induction scope generalizing n with
  | nil => rw [take_nil, map_nil, zip_nil_left]
  | cons x r ih =>
    cases n with
    | zero => rw [take_zero, map_nil, zip_nil_right]
    | succ n => exact congrArg (x :: ·) (ih n)

theorem Fills.perm (hd : params.Nodup) (h : Fills params args keywords) :
    ((params.zip args ++ keywords).map (·.1)).Perm params := by
  have hn : (params.take args.length ++ keywords.map (·.1)).Nodup :=
    (hd.sublist (take_sublist ..)).append h.once fun p hp hpk => by
      obtain ⟨k, hk, rfl⟩ := mem_map.1 hpk
      exact (h.named k hk).2 hp
  rw [map_append, names_zip]
  refine (perm_ext_iff_of_nodup hn hd).2 fun p => mem_append.trans ⟨?_, h.all p⟩
  rintro (hp | hp)
  · exact mem_of_mem_take hp
  · obtain ⟨k, hk, rfl⟩ := mem_map.1 hp
    exact (h.named k hk).1

theorem Fills.of_perm (hd : params.Nodup) (hl : args.length ≤ params.length)
    (hp : ((params.zip args ++ keywords).map (·.1)).Perm params) : Fills params args keywords := by
  rw [map_append, names_zip] at hp
  obtain ⟨_, ho, hnot⟩ := nodup_append.1 (hp.nodup_iff.2 hd)
  refine ⟨hl, fun k hk => ?_, ho, fun p h => mem_append.1 (hp.mem_iff.2 h)⟩
  have hk := mem_map_of_mem (f := (·.1)) hk
  exact ⟨hp.mem_iff.1 (mem_append_right _ hk), fun h => hnot _ h _ hk rfl⟩

namespace FunctionCode

variable (code : FunctionCode)

/-- What is bound are the pairs of parameters with positional arguments, and the keywords. -/
theorem bind_mem (args : List Value) (keywords : Keywords) : Yields (code.bind args keywords) fun scope =>
    ∀ x ∈ scope, x.1 ∈ code.params ∧ x ∈ code.params.zip args ++ keywords := by
  obtain ⟨hf, hn⟩ := filled_positionalSlots code.params args
  refine .ite (.error _) ((bindKeywords_filled _ _ _).bind fun slots ⟨hns, hfs⟩ => .ite (.ok ?_) (.error _))
  rw [slotScope_eq]
  refine Scope.forall_foldl_put (forall_mem_nil _) fun x hx => ⟨?_, hf ▸ hfs.mem_iff.1 hx⟩
  obtain ⟨slot, hs, hx⟩ := mem_filterMap.1 hx
  obtain ⟨_, _, rfl⟩ := Option.map_eq_some_iff.1 hx
  exact hn ▸ hns ▸ mem_map_of_mem hs

/-- What is bound are the parameters, in their order. -/
theorem bind_perm (hd : code.params.Nodup) : Yields (code.bind args keywords) fun scope =>
    args.length ≤ code.params.length ∧ scope.map (·.1) = code.params
      ∧ scope.Perm (code.params.zip args ++ keywords) := by
  obtain ⟨hf, hn⟩ := filled_positionalSlots code.params args
  unfold bind
  dsimp only
  split
  · exact .error _
  · next hl =>
    refine (bindKeywords_filled _ _ _).bind fun slots ⟨hns, hfs⟩ => ?_
    split
    · next hm =>
      have hnames : (filled slots).map (·.1) = code.params := by
        have hall : ∀ slot ∈ slots, slot.2.isSome = true := by simpa [Option.isSome_iff_ne_none] using hm
        rw [names_filled, filter_eq_self.2 hall, hns, hn]
      rw [slotScope_eq, Scope.foldl_put_of_nodup (by simpa [hnames] using hd)]
      exact .ok ⟨Nat.le_of_not_lt hl, hnames, hf ▸ hfs⟩
    · exact .error _

theorem bind_ok (hd : code.params.Nodup) (h : Fills code.params args keywords) :
    ∃ scope, code.bind args keywords = .ok scope := by
  obtain ⟨hf, hn⟩ := filled_positionalSlots code.params args
  have hp := h.perm hd
  obtain ⟨slots, hs⟩ : ∃ slots, bindKeywords code.name keywords (positionalSlots code.params args) = .ok slots :=
    bindKeywords_ok code.name (fun k hk => hn.symm ▸ (h.named k hk).1) (hf ▸ hp.nodup_iff.2 hd)
  obtain ⟨hns, hfs⟩ := bindKeywords_filled _ _ _ slots hs
  have hall : ∀ slot ∈ slots, slot.2.isSome = true := by
    have hl : ((filled slots).map (·.1)).length = (slots.map (·.1)).length := by
      rw [hns, hn, (hfs.map _).length_eq, hf, hp.length_eq]
    rw [names_filled, length_map, length_map] at hl
    exact length_filter_eq_length_iff.1 hl
  have hm : slots.filter (fun slot => slot.2.isNone) = [] := by simpa [Option.isSome_iff_ne_none] using hall
  refine ⟨slotScope slots [], ?_⟩
  unfold bind
  rw [if_neg (Nat.not_lt.2 h.few), hs]
  exact if_pos (isEmpty_iff.2 hm)

/-- **A call fills the parameters of its function.** It binds its arguments if and only if each parameter is filled, and
filled once; then exactly the parameters are bound, each to its argument. How many of the values are positional, and in
which order the keywords stand, makes no difference. -/
theorem bind_fills (code : FunctionCode) (hd : code.params.Nodup) :
    (∀ args keywords, (∃ scope, code.bind args keywords = .ok scope) ↔ Fills code.params args keywords)
      ∧ (∀ args keywords scope, code.bind args keywords = .ok scope →
        scope.map (·.1) = code.params ∧ scope.Perm (code.params.zip args ++ keywords))
      ∧ ∀ scope : Scope, scope.map (·.1) = code.params → ∀ n keywords, keywords.Perm (scope.drop n) →
        code.bind ((scope.take n).map (·.2)) keywords = .ok scope := by
  refine ⟨fun args keywords => ⟨?_, code.bind_ok hd⟩, fun args keywords scope h => (code.bind_perm hd scope h).2,
    fun scope hs n keywords hk => ?_⟩
  · rintro ⟨scope, h⟩
    obtain ⟨hl, hn, hp⟩ := code.bind_perm hd scope h
    exact .of_perm hd hl ((hp.map _).symm.trans (.of_eq hn))
  · have hp : (code.params.zip ((scope.take n).map (·.2)) ++ keywords).Perm scope := by
      rw [← hs, zip_take]
      exact (hk.append_left _).trans (.of_eq (take_append_drop ..))
    have hl : ((scope.take n).map (·.2)).length ≤ code.params.length := by
      rw [← hs, length_map, length_map]
      exact length_take_le' ..
    obtain ⟨found, h⟩ := code.bind_ok hd (.of_perm hd hl ((hp.map _).trans (.of_eq hs)))
    obtain ⟨_, hn, hf⟩ := code.bind_perm hd found h
    rw [h, eq_of_perm_of_names (hf.trans hp) (hn.trans hs.symm) (hn.symm ▸ hd)]

/-- A positional argument, and two keywords out of order. -/
theorem bind_fills_keywords :
    let code : FunctionCode := ⟨0, "f", "f", ["a", "b", "c"], [], [], []⟩
    Fills code.params [.int 1] [("c", .int 3), ("b", .int 2)]
      ∧ code.bind [.int 1] [("c", .int 3), ("b", .int 2)] = .ok [("a", .int 1), ("b", .int 2), ("c", .int 3)] := by
  intro code
  obtain ⟨hiff, _, hsplit⟩ := code.bind_fills (by decide)
  have h := hsplit [("a", .int 1), ("b", .int 2), ("c", .int 3)] rfl 1 [("c", .int 3), ("b", .int 2)] (.swap ..)
  exact ⟨(hiff _ _).1 ⟨_, h⟩, h⟩

end FunctionCode

end Playback
