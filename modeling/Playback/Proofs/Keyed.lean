import Mathlib.Data.List.Nodup
import Playback.Value.Key

/-!
# Entries by key

Rows of entries list their keys in the order in which these came. A key that is there keeps its place when it is put in
again, and one that is not goes to the end (`Key.enter`); taking a key out leaves the others as they are.
-/

namespace Playback

open List Key

mutual

theorem Key.same_iff : ∀ a b : Key, a.same b = true ↔ a = b
  | .tuple as, .tuple bs => by rw [same, sameItems_iff as bs, tuple.injEq]
  | .none, b | .int _, b | .float _, b | .str _, b => by cases b <;> simp [same]
  | .tuple _, .none | .tuple _, .int _ | .tuple _, .float _ | .tuple _, .str _ => by simp [same]

theorem Key.sameItems_iff : ∀ as bs : List Key, sameItems as bs = true ↔ as = bs
  | [], [] | [], _ :: _ | _ :: _, [] => by simp [sameItems]
  | a :: as, b :: bs => by
    rw [sameItems, Bool.and_eq_true, same_iff a b, sameItems_iff as bs, List.cons.injEq]

end

instance : LawfulBEq Key where
  eq_of_beq := (same_iff _ _).1
  rfl := (same_iff _ _).2 rfl

namespace Key

variable {k l : Key} {ks : List Key}

/-- Keys with one more: a key that is there already keeps its place. -/
def enter (ks : List Key) (k : Key) : List Key :=
  if ks.contains k then ks else ks ++ [k]

theorem enter_of_mem (h : k ∈ ks) : enter ks k = ks := by
  simp [enter, h]

theorem enter_of_not_mem (h : k ∉ ks) : enter ks k = ks ++ [k] := by
  simp [enter, h]

theorem enter_cons (h : l ≠ k) : enter (l :: ks) k = l :: enter ks k := by
  by_cases hk : k ∈ ks
  · rw [enter_of_mem hk, enter_of_mem (.tail _ hk)]
  · rw [enter_of_not_mem hk, enter_of_not_mem (by simp [hk, h.symm]), cons_append]

theorem nodup_enter (h : ks.Nodup) (k : Key) : (enter ks k).Nodup := by
  by_cases hk : k ∈ ks
  · rwa [enter_of_mem hk]
  · rw [enter_of_not_mem hk]
    exact h.append (nodup_singleton k) (by simpa using hk)

end Key

namespace Keyed

variable {α : Type} {k : Key} {m : Keyed α} {x : α}

theorem mem_of_get? (h : m.get? k = some x) : (k, x) ∈ m := by
  induction m with
  | nil => cases h
  | cons e m ih =>
    obtain ⟨l, y⟩ := e
    unfold get? at h
    split at h
    · next hl =>
      cases h
      rw [eq_of_beq hl]
      exact .head _
    · exact .tail _ (ih h)

theorem get?_of_mem (hm : (m.map (·.1)).Nodup) (h : (k, x) ∈ m) : m.get? k = some x := by
  induction m with
  | nil => cases h
  | cons e m ih =>
    obtain ⟨hne, hm⟩ := nodup_cons.1 hm
    rcases mem_cons.1 h with rfl | h
    · simp [get?]
    · have hk : e.1 ≠ k := fun hk => hne (mem_map.2 ⟨_, h, hk.symm⟩)
      simp [get?, hk, ih hm h]

theorem has_iff : m.has k = true ↔ k ∈ m.map (·.1) := by
  simp [has]

theorem keys_put (k : Key) (x : α) : (m.put k x).map (·.1) = enter (m.map (·.1)) k := by
  induction m with
  | nil => rfl
  | cons e m ih =>
    unfold put
    split
    · next hl => rw [map_cons, map_cons, eq_of_beq hl, enter_of_mem (.head _)]
    · next hl => rw [map_cons, map_cons, ih, enter_cons (by simpa using hl)]

theorem keys_putNew (k : Key) (x : α) : (m.putNew k x).map (·.1) = enter (m.map (·.1)) k := by
  induction m with
  | nil => rfl
  | cons e m ih =>
    unfold putNew
    split
    · next hl => rw [map_cons, eq_of_beq hl, enter_of_mem (.head _)]
    · next hl => rw [map_cons, map_cons, ih, enter_cons (by simpa using hl)]

theorem mem_put (h : e ∈ m.put k x) : e = (k, x) ∨ e ∈ m := by
  induction m with
  | nil => exact .inl (mem_singleton.1 h)
  | cons f m ih =>
    unfold put at h
    split at h
    · next hl =>
      rw [eq_of_beq hl] at h
      exact (mem_cons.1 h).imp_right (.tail _)
    · rcases mem_cons.1 h with rfl | h
      · exact .inr (.head _)
      · exact (ih h).imp_right (.tail _)

theorem mem_putNew (h : e ∈ m.putNew k x) : e = (k, x) ∨ e ∈ m := by
  induction m with
  | nil => exact .inl (mem_singleton.1 h)
  | cons f m ih =>
    unfold putNew at h
    split at h
    · exact .inr h
    · rcases mem_cons.1 h with rfl | h
      · exact .inr (.head _)
      · exact (ih h).imp_right (.tail _)

theorem remove_sublist (k : Key) : (m.remove k).Sublist m := by
  induction m with
  | nil => exact .slnil
  | cons e m ih =>
    unfold remove
    split
    · exact sublist_cons_self _ _
    · exact ih.cons_cons _

/-- Under every key there is what should be, and no key is there twice if that is asked for. -/
structure Valid (strict : Prop) (q : Key → α → Prop) (m : Keyed α) : Prop where
  distinct : strict → (m.map (·.1)).Nodup
  all : ∀ e ∈ m, q e.1 e.2

namespace Valid

variable {s : Prop} {q : Key → α → Prop} {m' : Keyed α}

theorem nil : Valid s q [] :=
  ⟨fun _ => nodup_nil, forall_mem_nil _⟩

theorem put (h : m.Valid s q) (hx : q k x) : (m.put k x).Valid s q := by
  refine ⟨fun hs => keys_put k x ▸ nodup_enter (h.distinct hs) k, fun e he => ?_⟩
  rcases mem_put he with rfl | he
  · exact hx
  · exact h.all e he

theorem putNew (h : m.Valid s q) (hx : q k x) : (m.putNew k x).Valid s q := by
  refine ⟨fun hs => keys_putNew k x ▸ nodup_enter (h.distinct hs) k, fun e he => ?_⟩
  rcases mem_putNew he with rfl | he
  · exact hx
  · exact h.all e he

theorem sublist (h : m.Valid s q) (hm : m'.Sublist m) : m'.Valid s q :=
  ⟨fun hs => (h.distinct hs).sublist (hm.map _), fun e he => h.all e (hm.subset he)⟩

theorem get? (h : m.Valid s q) (hx : m.get? k = some x) : q k x :=
  h.all _ (mem_of_get? hx)

theorem entries (h : m.Valid s q) : ∀ x ∈ m.entries, ∃ k, q k x := by
  intro x hx
  obtain ⟨e, he, rfl⟩ := mem_map.1 hx
  exact ⟨e.1, h.all e he⟩

end Valid

end Keyed

end Playback
