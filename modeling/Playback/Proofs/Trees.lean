import Mathlib.Data.List.Flatten
import Playback.Proofs.Unfolding

/-!
# Trees of frames

The frames inside a frame are known by their numbers (`tree`), and the trees of the file and of the filed calls share
nothing. A frame that is closed stays as it is (`Arena.closed_moves`), and what is recorded in the frames opened by some
operations was recorded by these (`Arena.notedFrom_moves`). Where a traced call files its frame as soon as it is counted
(`Regular`), the n-th call of a function is the n-th on its file (`Counted`).
-/

namespace Playback.Trace

open List Trace

variable {t t' : Trace}

/-! ## Trees by number -/

/-- A frame and the frames inside it, down to a depth. -/
def treeTo (t : Trace) : Nat → Nat → List Nat
  | 0, _ => []
  | depth + 1, id => id :: (t.children id).flatMap (t.treeTo depth)

def tree (t : Trace) (id : Nat) : List Nat :=
  t.treeTo (t.frames.size - id) id

variable {es : List Entry} {ks : List Kind} {n : Nat} {s : Step}

theorem Move.size_le (h : Move es ks t t') : t.frames.size ≤ t'.frames.size := by
  cases h with
  | quiet hf =>
    exact Nat.le_of_eq (congrArg Array.size hf.symm)
  | note | turn => exact Nat.le_of_eq (Array.size_modify ..).symm
  | add k set => simp [addFrame, openFrame, push]
  | file k set _ => simp [startDetached, openFrame]

theorem Moves.size_le (h : Moves es ks t t') : t.frames.size ≤ t'.frames.size := by
  induction h with
  | refl => exact Nat.le_refl _
  | step hf _ ih => exact Nat.le_trans hf.size_le ih

namespace Arena

variable (h : t.Arena)

include h

/-- Frames have greater numbers than those they are in, so what holds of a frame if it holds of those inside it
holds of all. -/
theorem inside_induction {P : Nat → Prop} (hs : ∀ id < t.frames.size, (∀ child ∈ t.children id, P child) → P id)
    (id : Nat) (hid : id < t.frames.size) : P id := by
  induction hr : t.frames.size - id using Nat.strongRecOn generalizing id with
  | ind r ih =>
    refine hs id hid fun child hc => ?_
    have hlt := h.deeper id child hc
    have hsi := h.child_lt hc
    exact ih (t.frames.size - child) (by omega) child hsi rfl

variable {id : Nat}

theorem treeTo_eq (hid : id < t.frames.size) (hd : t.frames.size ≤ d + id)
    (hd' : t.frames.size ≤ d' + id) : t.treeTo d id = t.treeTo d' id := by
  induction d generalizing id d' with
  | zero => omega
  | succ d ih =>
    obtain ⟨d', rfl⟩ : ∃ n, d' = n + 1 := ⟨d' - 1, by omega⟩
    rw [treeTo]
    congr 1
    refine flatMap_congr fun child hc => ?_
    have hlt := h.deeper id child hc
    exact ih (h.child_lt hc) (by omega) (by omega)

theorem tree_eq (hid : id < t.frames.size) : t.tree id = id :: (t.children id).flatMap t.tree := by
  obtain ⟨d, hd⟩ : ∃ n, t.frames.size - id = n + 1 := ⟨t.frames.size - id - 1, by omega⟩
  rw [tree, hd, treeTo]
  congr 1
  refine flatMap_congr fun child hc => ?_
  have hlt := h.deeper id child hc
  exact h.treeTo_eq (h.child_lt hc) (by omega) (by omega)

theorem frames_tree (hid : id < t.frames.size) : (t.frame id).frames = (t.tree id).map t.frame := by
  refine h.inside_induction (P := fun id => (t.frame id).frames = (t.tree id).map t.frame) (fun id hid ih => ?_) id hid
  rw [h.frames_frame hid, h.tree_eq hid, map_cons, map_flatMap]
  exact congrArg (t.frame id :: ·) (flatMap_congr ih)

theorem le_of_mem_tree (hid : id < t.frames.size) : ∀ i ∈ t.tree id, id ≤ i ∧ i < t.frames.size := by
  refine h.inside_induction (P := fun id => ∀ i ∈ t.tree id, id ≤ i ∧ i < t.frames.size) (fun id hid ih => ?_) id hid
  rw [h.tree_eq hid]
  refine forall_mem_cons.2 ⟨⟨Nat.le_refl _, hid⟩, fun i hi => ?_⟩
  obtain ⟨child, hc, hi⟩ := mem_flatMap.1 hi
  have hlt := h.deeper id child hc
  obtain ⟨_, hs⟩ := ih child hc i hi
  exact ⟨by omega, hs⟩

/-- **The trees of the file and of the filed calls have every frame once.** -/
theorem trees_perm : ((0 :: t.filed).flatMap t.tree).Perm (List.range t.frames.size) := by
  have hpe : ((0 :: t.filed).flatMap t.tree).Perm ((List.range t.frames.size).flatMap fun id => [id]) :=
    flatMap_roots_perm (fun p hp => .of_eq (h.tree_eq hp)) h.roots_perm
  rwa [flatMap_singleton'] at hpe

theorem root_lt (hid : id ∈ 0 :: t.filed) : id < t.frames.size :=
  mem_range.1 (h.roots_perm.subset (mem_append_left _ hid))

theorem tree_subperm (hid : id ∈ 0 :: t.filed) : (t.tree id).Subperm (List.range t.frames.size) := by
  have hs : (t.tree id).Sublist ((0 :: t.filed).flatMap t.tree) := by
    obtain ⟨b, a, hr⟩ := append_of_mem hid
    rw [hr, flatMap_append]
    exact ((sublist_append_left _ _).trans (sublist_append_right _ _))
  exact hs.subperm.trans h.trees_perm.subperm

theorem tree_congr (h' : t'.Arena) (hs : t.frames.size ≤ t'.frames.size) (hid : id < t.frames.size)
    (he : ∀ i ∈ t.tree id, t'.entriesOf i = t.entriesOf i) : t'.tree id = t.tree id := by
  refine h.inside_induction (P := fun id => (∀ i ∈ t.tree id, t'.entriesOf i = t.entriesOf i) →
    t'.tree id = t.tree id) (fun id hid ih he => ?_) id hid he
  rw [h.tree_eq hid] at he
  obtain ⟨hh, hin⟩ := forall_mem_cons.1 he
  rw [h.tree_eq hid, h'.tree_eq (by omega), children_congr hh]
  congr 1
  refine flatMap_congr fun child hc => ih child hc fun i hi => ?_
  exact hin i (mem_flatMap.2 ⟨child, hc, hi⟩)

/-! ## Closed frames -/

theorem top_mem : t.top ∈ t.stack :=
  Sound.top_mem ⟨h.stack_ne_nil, h.known⟩

theorem closed_move (hmo : Move es ks t t') (hid : id < t.frames.size) (hc : id ∉ t.stack) :
    t'.frames[id]? = t.frames[id]? ∧ id ∉ t'.stack := by
  have ht : t.top ≠ id := fun heq => hc (heq ▸ h.top_mem)
  have hn : id ∉ t.frames.size :: t.stack := by
    rw [mem_cons]
    rintro (rfl | hme)
    · exact Nat.lt_irrefl _ hid
    · exact hc hme
  have hm (change : Frame → Frame) : (t.frames.modify t.top change)[id]? = t.frames[id]? := by
    rw [Array.getElem?_modify, if_neg ht]
  have ho (fs : Array Frame) (hsi : fs.size = t.frames.size) (f : Frame) :
      (fs.push f)[id]? = fs[id]? := by
    rw [Array.getElem?_push, if_neg (by omega)]
  cases hmo with
  | quiet hf hs => exact ⟨by rw [hf], fun hme => hc (hs.subset hme)⟩
  | note | turn => exact ⟨hm _, hc⟩
  | add k set =>
    have hst : (t.addFrame k set).stack = t.frames.size :: t.stack := by
      simp [addFrame, openFrame, push]
    exact ⟨(ho _ Array.size_modify _).trans (hm _), hst ▸ hn⟩
  | file k set _ => exact ⟨ho _ rfl _, hn⟩

/-- **A closed frame stays as it is.** -/
theorem closed_moves (hm : Moves es ks t t') (hid : id < t.frames.size) (hc : id ∉ t.stack) :
    t'.frames[id]? = t.frames[id]? ∧ id ∉ t'.stack := by
  induction hm with
  | refl => exact ⟨rfl, hc⟩
  | step hf _ ih =>
    obtain ⟨hfr, hc'⟩ := h.closed_move hf hid hc
    obtain ⟨hfr', hc''⟩ := ih (h.move hf) (Nat.lt_of_lt_of_le hid hf.size_le) hc'
    exact ⟨hfr'.trans hfr, hc''⟩

end Arena

/-! ## What was recorded since -/

/-- What can be said of the values and exceptions of a tree by its record can be said by its frames. -/
theorem Arena.flatMap_notes (h : t.Arena) {id : Nat} (hid : id < t.frames.size) {β : Type} {f : Entry → List β}
    {g : EntryRecord → List β} (hfg : ∀ e, g (entryRecord t.frame e) = f e) :
    ((t.frame id).frames.flatMap fun fr => fr.notes.flatMap g)
      = ((t.tree id).flatMap t.notesOf).flatMap f := by
  rw [h.frames_tree hid, flatMap_map, flatMap_assoc]
  refine flatMap_congr fun i hi => ?_
  rw [h.notes_frame (h.le_of_mem_tree hid i hi).2, flatMap_map]
  exact flatMap_congr fun e _ => hfg e

theorem Arena.notedFrom_moves (h : t.Arena) (hm : Moves es ks t t') (n : Nat) :
    (t'.notedFrom n).Subperm (es ++ t.notedFrom n) := by
  obtain ⟨⟨_, hs, -, hp⟩, -⟩ := h.record_moves hm n
  exact hp.subperm.trans (hs.append_right _).subperm

theorem notedFrom_size (t : Trace) : t.notedFrom t.frames.size = [] := by
  refine flatMap_eq_nil_iff.2 fun _ hid => if_neg ?_
  exact Nat.not_le.2 (mem_range.1 hid)

/-! ## Calls on file -/

def callsOf (t : Trace) (id : String) : List Nat :=
  ((t.detached.lookup id).map (·.frames.toList)).getD []

def Record.callsOf (record : Record) (id : String) : List FrameRecord :=
  ((record.detached.lookup id).map (·.calls)).getD []

theorem record_callsOf (t : Trace) (id : String) : t.record.callsOf id = (t.callsOf id).map t.frame := by
  unfold Record.callsOf callsOf record
  dsimp only
  induction t.detached with
  | nil => rfl
  | cons e r ih =>
    rw [map_cons, lookup_cons, lookup_cons]
    split
    · rfl
    · exact ih

theorem mem_filed_of_mem_callsOf {id : String} (h : n ∈ t.callsOf id) : n ∈ t.filed := by
  unfold callsOf at h
  cases hl : t.detached.lookup id with
  | none =>
    rw [hl] at h
    cases h
  | some cs =>
    rw [hl] at h
    obtain ⟨b, a, hd, -⟩ := lookup_eq_some_iff.1 hl
    rw [filed, hd]
    exact mem_flatMap.2 ⟨(id, cs), mem_append_right _ mem_cons_self, h⟩

def Step.beginsCall : Step → Bool
  | .beginCall _ => true
  | .startDetached _ _ _ => true
  | _ => false

/-- Whether an operation records no exception. -/
def Step.calm : Step → Bool
  | .logException _ _ => false
  | .logUncaught _ _ => false
  | .logCallException _ _ _ _ _ => false
  | _ => true

/-- Operations keep the limits, what is on file changes only where calls begin, and the last exception where one is
recorded. -/
theorem apply_keeps (t : Trace) (s : Step) :
    (t.apply s).callLimit = t.callLimit ∧ (t.apply s).iterationLimit = t.iterationLimit
      ∧ (s.beginsCall = false → (t.apply s).detached = t.detached)
      ∧ (s.calm = true → (t.apply s).lastException = t.lastException) := by
  cases s with
  | startFrame | logAndStart | endFrame | write =>
    simp only [apply, startFrame?, logAndStart?, endFrame, write]
    split <;> exact ⟨rfl, rfl, fun _ => rfl, fun _ => rfl⟩
  | beginCall | startDetached =>
    refine ⟨rfl, rfl, ?_, fun _ => rfl⟩
    rintro ⟨⟩
  | logUncaught | logCallException =>
    simp only [apply, logUncaught, logCallException, keepException]
    split <;> exact ⟨rfl, rfl, fun _ => rfl, by rintro ⟨⟩⟩
  | _ => exact ⟨rfl, rfl, fun _ => rfl, fun _ => rfl⟩

theorem iterationLimit_applyAll (t : Trace) (ss : List Step) : (t.applyAll ss).iterationLimit = t.iterationLimit := by
  induction ss generalizing t with
  | nil => rfl
  | cons s r ih => exact (ih (t.apply s)).trans (t.apply_keeps s).2.1

theorem callsOf_apply (hs : s.beginsCall = false) (id : String) : (t.apply s).callsOf id = t.callsOf id := by
  rw [callsOf, (t.apply_keeps s).2.2.1 hs, callsOf]

theorem invocations_apply (hs : s.beginsCall = false) (id : String) :
    (t.apply s).invocations id = t.invocations id := by
  rw [invocations, (t.apply_keeps s).2.2.1 hs, invocations]

section

variable (t) (k : Kind) (set id id' : String)

theorem callsOf_beginCall : (t.beginCall id).2.callsOf id' = t.callsOf id' := by
  unfold callsOf beginCall
  rw [updateCalls_eq, lookup_alter]
  split
  · rename_i hid
    subst hid
    cases t.detached.lookup id' <;> rfl
  · rfl

theorem invocations_beginCall : (t.beginCall id).2.invocations id' = t.invocations id' + if id' = id then 1 else 0 := by
  unfold invocations beginCall
  rw [updateCalls_eq, lookup_alter]
  split
  · rename_i hid
    subst hid
    cases t.detached.lookup id' <;> rfl
  · rfl

theorem callsOf_startDetached :
    (t.startDetached k set id).callsOf id' = t.callsOf id' ++ if id' = id then [t.frames.size] else [] := by
  unfold callsOf startDetached openFrame
  dsimp only
  rw [updateCalls_eq, lookup_alter]
  split
  · rename_i hid
    subst hid
    cases hl : t.detached.lookup id' <;> simp
  · exact (append_nil _).symm

theorem invocations_startDetached : (t.startDetached k set id).invocations id' = t.invocations id' := by
  unfold invocations startDetached openFrame
  dsimp only
  rw [updateCalls_eq, lookup_alter]
  split
  · rename_i hid
    subst hid
    cases t.detached.lookup id' <;> rfl
  · rfl

theorem callsOf_prefix_apply (s : Step) : t.callsOf id <+: (t.apply s).callsOf id := by
  cases hs : s.beginsCall with
  | false => exact (callsOf_apply hs id) ▸ prefix_rfl
  | true =>
    cases s with
    | beginCall id' => exact (t.callsOf_beginCall id' id) ▸ prefix_rfl
    | startDetached k set id' => exact (t.callsOf_startDetached k set id' id) ▸ prefix_append _ _
    | _ => cases hs

theorem callsOf_prefix_applyAll (ss : List Step) : t.callsOf id <+: (t.applyAll ss).callsOf id := by
  induction ss generalizing t with
  | nil => exact prefix_rfl
  | cons s r ih => exact (t.callsOf_prefix_apply id s).trans (ih (t.apply s))

theorem callsOf_applyAll_getElem? {i : Nat} (h : (t.callsOf id)[i]? = some n) (ss : List Step) :
    ((t.applyAll ss).callsOf id)[i]? = some n := by
  obtain ⟨_, hn⟩ := t.callsOf_prefix_applyAll id ss
  rw [← hn, List.getElem?_append_left (List.getElem?_eq_some_iff.1 h).1]
  exact h

end

/-- Operations in which a call that is to be traced files its frame as soon as it is counted, and no frame is filed
otherwise. -/
inductive Regular : Trace → List Step → Prop
  | nil (t : Trace) : Regular t []
  | other {t : Trace} (hstep : step.beginsCall = false) (hrest : Regular (t.apply step) rest) : Regular t (step :: rest)
  | skipped {t : Trace} {id : String} (hlimit : t.callLimit ≤ t.invocations id)
      (hrest : Regular (t.apply (.beginCall id)) rest) : Regular t (.beginCall id :: rest)
  | traced {t : Trace} {id : String} (hlimit : t.invocations id < t.callLimit)
      (hrest : Regular ((t.apply (.beginCall id)).apply (.startDetached .functionCall "body" id)) rest) :
      Regular t (.beginCall id :: .startDetached .functionCall "body" id :: rest)

theorem Regular.append (h : Regular t ss) (h' : Regular (t.applyAll ss) ss') : Regular t (ss ++ ss') := by
  induction h with
  | nil => exact h'
  | other hs _ ih => exact .other hs (ih h')
  | skipped hl _ ih => exact .skipped hl (ih h')
  | traced hl _ ih => exact .traced hl (ih h')

/-- Of the calls counted under an id, the first ones are on file, as many as the limit allows. -/
def Counted (t : Trace) : Prop :=
  ∀ id, (t.callsOf id).length = min (t.invocations id) t.callLimit

theorem Counted.start (l : Limits) : (start l).Counted :=
  fun _ => (Nat.zero_min _).symm

theorem Counted.applyAll (h : t.Counted) (hst : Regular t ss) : (t.applyAll ss).Counted := by
  induction hst with
  | nil => exact h
  | @other s _ t hs _ ih =>
    refine ih fun id => ?_
    rw [callsOf_apply hs, invocations_apply hs, (t.apply_keeps s).1]
    exact h id
  | @skipped _ t id hl _ ih =>
    refine ih fun id' => ?_
    have hid := h id'
    rw [apply, callsOf_beginCall, invocations_beginCall]
    change _ = min _ t.callLimit
    split
    · rename_i heq
      subst heq
      omega
    · exact hid
  | @traced _ t id hl _ ih =>
    refine ih fun id' => ?_
    have hid := h id'
    rw [apply, apply, callsOf_startDetached, callsOf_beginCall, invocations_startDetached, invocations_beginCall]
    change _ = min _ t.callLimit
    split
    · rename_i heq
      subst heq
      rw [length_append, length_singleton]
      omega
    · rw [append_nil]
      exact hid

end Playback.Trace
