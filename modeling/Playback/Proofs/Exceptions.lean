import Mathlib.Data.List.Chain
import Playback.Proofs.Trees

/-!
# Where exceptions stand

The open frames of a trace are linked: each is inside the one below it, or it is a call's and filed (`Linked`). So
an exception that is recorded in the innermost frame stands in the tree of the innermost open call, or of the file
if no call is open, and in no other tree (`Arena.faults_push`).
-/

namespace Playback.Trace

open List

variable {id r r' n i : Nat} {e : Entry}

variable {t t' : Trace}

/-! ## Exceptions in trees -/

/-- The exception that an entry records, with its message. -/
def Entry.exceptions : Entry → List (String × String)
  | .frame _ => []
  | .result _ _ _ _ => []
  | .exception type message => [(type, message)]

def EntryRecord.exceptions : EntryRecord → List (String × String)
  | .frame _ => []
  | .result _ _ _ _ => []
  | .exception type message => [(type, message)]

/-- All exceptions in a frame of a record and in the frames inside it. -/
def FrameRecord.exceptions (record : FrameRecord) : List (String × String) :=
  record.frames.flatMap fun frame => frame.notes.flatMap EntryRecord.exceptions

def Record.exceptions (record : Record) : List (String × String) :=
  record.notes.flatMap EntryRecord.exceptions

def faults (t : Trace) (id : Nat) : List (String × String) :=
  ((t.tree id).flatMap t.notesOf).flatMap Entry.exceptions

theorem exceptions_entryRecord (f : Nat → FrameRecord) (e : Entry) : (entryRecord f e).exceptions = e.exceptions := by
  cases e <;> rfl

theorem Arena.exceptions_frame (h : t.Arena) (hid : id < t.frames.size) : (t.frame id).exceptions = t.faults id :=
  h.flatMap_notes hid (exceptions_entryRecord t.frame)

/-! ## Trees after something is recorded -/

theorem treeTo_of_children (hc : ∀ id, t'.children id = t.children id) (d id : Nat) :
    t'.treeTo d id = t.treeTo d id := by
  induction d generalizing id with
  | zero => rfl
  | succ d ih => rw [treeTo, treeTo, hc, funext ih]

theorem tree_of_children (hs : t'.frames.size = t.frames.size)
    (hc : ∀ id, t'.children id = t.children id) (id : Nat) : t'.tree id = t.tree id := by
  rw [tree, tree, hs, treeTo_of_children hc]

theorem faults_congr (hf : t'.frames = t.frames) (id : Nat) : t'.faults id = t.faults id := by
  have he := entriesOf_congr hf
  have hn : t'.notesOf = t.notesOf := funext fun i => by rw [notesOf, notesOf, he]
  rw [faults, faults, hn, tree_of_children (by rw [hf]) fun i => children_congr (he i)]

theorem Frame.frames_push (frame : Frame) (he : entry.frame? = none) :
    (frame.push entry).entries.filterMap Entry.frame? = frame.entries.filterMap Entry.frame? := by
  unfold entries push
  rw [appendEntry_eq, filterMap_flatMap, filterMap_flatMap]
  refine flatMap_alter (·.toList.filterMap Entry.frame?) frame.active frame.sets ?_ fun entries => ?_
  · rfl
  · simp [he]

theorem children_push_note (he : e.frame? = none) (id : Nat) : (t.push e).children id = t.children id := by
  unfold children entriesOf Trace.push
  rw [Array.getElem?_modify]
  split
  · cases t.frames[id]? with
    | none => rfl
    | some f => exact f.frames_push he
  · rfl

theorem tree_push_note (he : e.frame? = none) (id : Nat) : (t.push e).tree id = t.tree id :=
  tree_of_children (Array.size_modify ..) (children_push_note he) id

namespace Arena

theorem self_mem_tree (h : t.Arena) (hid : id < t.frames.size) : id ∈ t.tree id := by
  rw [h.tree_eq hid]
  exact mem_cons_self

theorem child_mem_tree (h : t.Arena) (hid : id < t.frames.size) :
    ∀ i ∈ t.tree id, ∀ child ∈ t.children i, child ∈ t.tree id := by
  refine h.inside_induction (P := fun id => ∀ i ∈ t.tree id, ∀ child ∈ t.children i, child ∈ t.tree id)
    (fun id hid ih => ?_) id hid
  intro i hi child hc
  rw [h.tree_eq hid] at hi ⊢
  refine mem_cons_of_mem _ (mem_flatMap.2 ?_)
  rcases mem_cons.1 hi with rfl | hi
  · exact ⟨child, hc, h.self_mem_tree (h.child_lt hc)⟩
  · obtain ⟨inn, hin, hi⟩ := mem_flatMap.1 hi
    exact ⟨inn, hin, ih inn hin i hi child hc⟩

/-- The trees of the file and of the filed calls share nothing, and have no frame twice. -/
theorem tree_disjoint (h : t.Arena) (hr : r ∈ 0 :: t.filed) (hr' : r' ∈ 0 :: t.filed) :
    (t.tree r).Nodup ∧ (r ≠ r' → (t.tree r).Disjoint (t.tree r')) := by
  have hn : ((0 :: t.filed).flatMap t.tree).Nodup := h.trees_perm.nodup_iff.2 nodup_range
  obtain ⟨he, hp⟩ := nodup_flatMap.1 hn
  refine ⟨he r hr, fun hne => ?_⟩
  have hs : Std.Symm (Function.onFun List.Disjoint t.tree) := ⟨fun _ _ hd _ hi hi' => hd hi' hi⟩
  exact hp.forall hr hr' hne

/-- **An exception goes to the tree that the innermost frame is in**, and to no other. -/
theorem faults_push (h : t.Arena) (hn : n ∈ 0 :: t.filed) (ht : t.top ∈ t.tree n)
    (type msg : String) (hr : r ∈ 0 :: t.filed) : ((t.push (.exception type msg)).faults r).Perm
      ((if r = n then [(type, msg)] else []) ++ t.faults r) := by
  unfold faults
  rw [tree_push_note rfl]
  by_cases hrn : r = n
  · subst hrn
    rw [if_pos rfl]
    have hno := flatMap_nodup_perm (h.tree_disjoint hr hr).1 ht (notesOf_push_top h.top_lt (.exception type msg))
      fun _ => notesOf_push_other _
    exact hno.flatMap_right Entry.exceptions
  · rw [if_neg hrn, nil_append]
    have ha := (h.tree_disjoint hr hn).2 hrn
    have hs : (t.tree r).flatMap (t.push (.exception type msg)).notesOf = (t.tree r).flatMap t.notesOf :=
      flatMap_congr fun i hi => notesOf_push_other _ fun heq => ha hi (heq ▸ ht)
    rw [hs]

end Arena

/-! ## Open frames -/

/-- Each open frame is inside the one below it, or filed. -/
def Linked (t : Trace) : Prop :=
  t.stack.IsChain fun upper lower => upper ∈ t.children lower ∨ upper ∈ t.filed

/-- The frames of calls that are open, innermost first. -/
def openCalls (t : Trace) : List Nat :=
  t.stack.filter fun id => decide (id ∈ t.filed)

namespace Linked

theorem start (l : Limits) : (Trace.start l).Linked :=
  .singleton 0

theorem suffix (h : t.Linked) (hs : t'.stack <:+ t.stack) (hc : ∀ p, t'.children p = t.children p)
    (hf : t'.filed = t.filed) : t'.Linked := by
  unfold Linked
  rw [funext hc, hf]
  exact List.IsChain.suffix h hs

theorem cons (ha : t.Arena) (h : t.Linked) (hs : t'.stack = id :: t.stack)
    (hch : ∀ p, t.children p ⊆ t'.children p) (hf : t.filed ⊆ t'.filed)
    (hl : id ∈ t'.children t.top ∨ id ∈ t'.filed) : t'.Linked := by
  have hr : t.stack.IsChain fun upper lower => upper ∈ t'.children lower ∨ upper ∈ t'.filed :=
    h.imp fun _ lower hl => hl.imp (hch lower ·) (hf ·)
  unfold Linked
  rw [hs]
  cases hc : t.stack with
  | nil => exact absurd hc ha.stack_ne_nil
  | cons top r =>
    have ht : t.top = top := by rw [Trace.top, hc]; rfl
    rw [hc] at hr
    exact .cons_cons (ht ▸ hl) hr

variable {es : List Entry} {ks : List Kind}

theorem move (ha : t.Arena) (h : t.Linked) (hm : Move es ks t t') : t'.Linked := by
  cases hm with
  | quiet hfr hs _ hf _ =>
    exact h.suffix hs (fun p => children_congr (entriesOf_congr hfr p)) hf
  | note he => exact h.suffix suffix_rfl (children_push_note he) rfl
  | turn set => exact h.suffix suffix_rfl (fun p => children_congr (t.entriesOf_turn set p)) rfl
  | add k set =>
    have hst : (t.addFrame k set).stack = t.frames.size :: t.stack := by
      simp [Trace.addFrame, Trace.openFrame, Trace.push]
    have hn := children_addFrame k set ha.top_lt
    refine h.cons ha hst (fun p => ?_) (List.Subset.refl _) (.inl (hn.mem_iff.2 mem_cons_self))
    by_cases hp : p = t.top
    · exact hp ▸ fun i hi => hn.mem_iff.2 (mem_cons_of_mem _ hi)
    · rw [children_addFrame_other k set hp]
      exact List.Subset.refl _
  | file k set id =>
    have hf := filed_startDetached (t := t) k set id
    exact h.cons ha rfl (fun p => (children_congr (t.entriesOf_openFrame k set p)).symm ▸ .refl _)
      (fun i hi => hf.mem_iff.2 (mem_cons_of_mem _ hi)) (.inr (hf.mem_iff.2 mem_cons_self))

theorem moves (ha : t.Arena) (h : t.Linked) (hm : Moves es ks t t') : t'.Linked := by
  induction hm with
  | refl => exact h
  | step hf _ ih => exact ih (ha.move hf) (h.move ha hf)

/-- **The innermost frame is in the tree of the innermost open call**, or of what else no filed frame is above. -/
theorem top_mem_tree {inn below : List Nat} (ha : t.Arena) (h : t.Linked)
    (hs : t.stack = inn ++ n :: below) (hin : ∀ i ∈ inn, i ∉ t.filed) : t.top ∈ t.tree n := by
  have hn : n < t.frames.size := ha.known n (by rw [hs]; simp)
  unfold Linked at h
  unfold Trace.top
  rw [hs] at h ⊢
  clear hs
  induction inn with
  | nil => exact ha.self_mem_tree hn
  | cons i r ih =>
    obtain ⟨hi, hr⟩ := forall_mem_cons.1 hin
    have hb := ih h.tail hr
    cases hc : r ++ n :: below with
    | nil => simp at hc
    | cons j _ =>
      rw [hc] at hb
      rw [cons_append, hc] at h
      have hch : i ∈ t.children j := (isChain_cons_cons.1 h).1.resolve_right hi
      exact ha.child_mem_tree hn j hb i hch

end Linked

/-! ## Operations without exceptions -/

/-- Operations none of which records an exception. -/
def Calm (ss : List Step) : Prop :=
  ∀ step ∈ ss, step.calm = true

theorem Step.calm_notes {s : Step} (h : s.calm = true) (t : Trace) : (s.notes t).flatMap Entry.exceptions = [] := by
  cases s with
  | logAndStart k _ _ _ =>
    simp only [Step.notes]
    split <;> rfl
  | logException | logUncaught | logCallException => cases h
  | _ => rfl

namespace Calm

theorem nil : Calm [] :=
  forall_mem_nil _

theorem single (h : s.calm = true) : Calm [s] :=
  forall_mem_singleton.2 h

theorem append (h : Calm ss) (h' : Calm ss') : Calm (ss ++ ss') :=
  forall_mem_append.2 ⟨h, h'⟩

theorem allNotes (h : Calm ss) (t : Trace) : (Trace.allNotes t ss).flatMap Entry.exceptions = [] := by
  induction ss generalizing t with
  | nil => rfl
  | cons s r ih =>
    obtain ⟨hs, hr⟩ := forall_mem_cons.1 h
    rw [Trace.allNotes, flatMap_append, Step.calm_notes hs, ih hr]
    rfl

theorem lastException (h : Calm ss) (t : Trace) : (t.applyAll ss).lastException = t.lastException := by
  induction ss generalizing t with
  | nil => rfl
  | cons s r ih =>
    obtain ⟨hs, hr⟩ := forall_mem_cons.1 h
    exact (ih hr (t.apply s)).trans ((t.apply_keeps s).2.2.2 hs)

theorem faults (h : Calm ss) (l : Limits) (r : Nat) : ((Trace.start l).applyAll ss).faults r = [] := by
  have he := (noted_of_moves ((Trace.start l).moves_applyAll ss)).flatMap_right Entry.exceptions
  rw [h.allNotes, perm_nil, notedFrom, flatMap_assoc] at he
  unfold Trace.faults
  rw [flatMap_assoc]
  refine flatMap_eq_nil_iff.2 fun i _ => ?_
  by_cases hi : i < ((Trace.start l).applyAll ss).frames.size
  · exact flatMap_eq_nil_iff.1 he i (mem_range.2 hi)
  · unfold notesOf entriesOf
    rw [Array.getElem?_eq_none (Nat.le_of_not_lt hi)]
    rfl

end Calm

/-! ## The beginning of a filed call -/

/-- What is filed was opened: among regular operations there are those that began the call, and the calls counted
before it are as many as its place on file says. -/
theorem Regular.begins (h : Regular t ss) (hc : t.Counted) {id : String}
    (hn : (t.callsOf id).length ≤ i) (hf : ((t.applyAll ss).callsOf id)[i]? = some n) :
    ∃ past later, ss = past ++ .beginCall id :: .startDetached .functionCall "body" id :: later
      ∧ (t.applyAll past).invocations id = i ∧ (t.applyAll past).frames.size = n := by
  induction h with
  | nil t =>
    rw [show t.applyAll [] = t from rfl, getElem?_eq_none hn] at hf
    cases hf
  | @other s _ t hst hre ih =>
    have hr : Regular t [s] := .other hst (.nil _)
    obtain ⟨past, later, rfl, hi, hs⟩ :=
      ih (hc.applyAll hr) (by rwa [callsOf_apply hst]) hf
    exact ⟨s :: past, later, rfl, hi, hs⟩
  | @skipped _ t id' hl hre ih =>
    have hr : Regular t [.beginCall id'] := .skipped hl (.nil _)
    obtain ⟨past, later, rfl, hi, hs⟩ :=
      ih (hc.applyAll hr) (by rwa [apply, callsOf_beginCall]) hf
    exact ⟨.beginCall id' :: past, later, rfl, hi, hs⟩
  | @traced r t id' hl hre ih =>
    have hr : Regular t [.beginCall id', .startDetached .functionCall "body" id'] := .traced hl (.nil _)
    have hca : ((t.apply (.beginCall id')).apply (.startDetached .functionCall "body" id')).callsOf id
        = t.callsOf id ++ if id = id' then [t.frames.size] else [] := by
      rw [apply, apply, callsOf_startDetached, callsOf_beginCall]
      rfl
    by_cases ht : (t.callsOf id ++ if id = id' then [t.frames.size] else []).length ≤ i
    · obtain ⟨past, later, rfl, hi, hs⟩ := ih (hc.applyAll hr) (by rwa [hca]) hf
      exact ⟨.beginCall id' :: .startDetached .functionCall "body" id' :: past, later, rfl, hi, hs⟩
    · split at ht
      · rename_i hid
        subst hid
        rw [length_append, length_singleton] at ht
        have hle := hc id
        have hi : i = (t.callsOf id).length := by omega
        have hp : (((t.apply (.beginCall id)).apply (.startDetached .functionCall "body" id)).callsOf id)[i]?
            = some t.frames.size := by
          rw [hca, if_pos rfl, hi, getElem?_append_right (Nat.le_refl _), Nat.sub_self]
          rfl
        have hsa := callsOf_applyAll_getElem? _ id hp r
        refine ⟨[], r, rfl, ?_, Option.some.inj (hsa.symm.trans hf)⟩
        change t.invocations id = i
        omega
      · rw [append_nil] at ht
        exact absurd hn ht

end Playback.Trace
