import Playback.Proofs.Contents
import Playback.Proofs.Exceptions

/-!
# Closed frames

Each operation adds to the innermost frame at most, or to the frame that it opens (`Arena.extends_apply`), so the frames
that are there stay and what is in them stays in its place (`Arena.extends_applyAll`). A frame that is closed is never
the innermost again, nor is any frame inside it (`Linked.parent_mem`); so its record is final (`Arena.frame_closed`),
and the record of a frame that is open only grows (`Arena.frame_extends`).
-/

namespace Playback.Trace

open List

variable {f f' : Frame} {id : Nat}

variable {t t' : Trace}

/-! ## More in a frame -/

/-- Child sets with more in them: each is in its place under its name and begins with the entries that it had, and
those that are new come after those that were there. -/
inductive SetsGrow : List (String × Array Entry) → List (String × Array Entry) → Prop
  | new (sets : List (String × Array Entry)) : SetsGrow [] sets
  | kept (hentries : entries.toList <+: entries'.toList) (hrest : SetsGrow rest rest') :
      SetsGrow ((name, entries) :: rest) ((name, entries') :: rest')

namespace SetsGrow

theorem refl (ss : List (String × Array Entry)) : SetsGrow ss ss := by
  induction ss with
  | nil => exact .new []
  | cons _ r ih => exact .kept prefix_rfl ih

theorem trans (h : SetsGrow ss ss') (h' : SetsGrow ss' ss'') : SetsGrow ss ss'' := by
  induction h generalizing ss'' with
  | new => exact .new ss''
  | kept he _ ih =>
    cases h' with
    | kept he' hr' => exact .kept (he.trans he') (ih hr')

theorem alter (x : String) (hc : ∀ es, es.toList <+: (change es).toList)
    (ss : List (String × Array Entry)) : SetsGrow ss (Trace.alter x #[] change ss) := by
  induction ss with
  | nil => exact .new _
  | cons _ r ih =>
    unfold Trace.alter
    split
    · exact .kept (hc _) (refl r)
    · exact .kept prefix_rfl ih

end SetsGrow

namespace Frame

/-- A frame that is what it was, with more in it. -/
structure Extends (f f' : Frame) : Prop where
  kind : f'.kind = f.kind
  sets : SetsGrow f.sets f'.sets

theorem Extends.refl (f : Frame) : f.Extends f :=
  ⟨rfl, .refl f.sets⟩

theorem Extends.trans (h : f.Extends f') (h' : f'.Extends f'') : f.Extends f'' :=
  ⟨h'.kind.trans h.kind, h.sets.trans h'.sets⟩

theorem extends_push (f : Frame) (e : Entry) : f.Extends (f.push e) := by
  refine ⟨rfl, ?_⟩
  rw [push, appendEntry_eq]
  exact .alter f.active (fun _ => by rw [Array.toList_push]; exact prefix_append _ _) f.sets

theorem extends_turn (f : Frame) (set : String) : f.Extends (f.turn set) := by
  refine ⟨rfl, ?_⟩
  rw [turn, ensureSet_eq]
  exact .alter set (fun _ => prefix_rfl) f.sets

end Frame

/-! ## One operation and many -/

/-- **An operation adds to the innermost frame**: to no other frame that was there, and what it adds comes after what
was there. Frames that were closed stay closed. -/
theorem Arena.extends_apply (h : t.Arena) (st : Step) :
    ∃ change : Frame → Frame, (∀ f : Frame, f.Extends (change f)) ∧ Alters change t (t.apply st) := by
  have hp (en : Entry) (f : Frame) : f.Extends (f.push en) := f.extends_push en
  have hr : ∃ change : Frame → Frame, (∀ f : Frame, f.Extends (change f)) ∧ Alters change t t :=
    ⟨id, .refl, .refl t⟩
  have hk (type msg : String) (e : LastException) :=
    (t.alters_push (.exception type msg)).close (keepException_frames _ e)
      fun _ hid => (quiet_keepException _ e).stack ▸ hid
  cases st with
  | startFrame k set =>
    simp only [apply, Trace.startFrame?]
    split
    · exact hr
    · exact ⟨_, hp _, t.alters_addFrame h.top_lt k set⟩
  | logAndStart k set s type =>
    simp only [apply, Trace.logAndStart?, Trace.startFrame?]
    split
    · exact hr
    · -- the value goes to the frame that was just opened
      have hi : t.frames.size ≤ (t.addFrame k set).top := by
        rw [Trace.top, addFrame_stack]
        exact Nat.le_refl _
      exact ⟨_, hp _, (t.alters_addFrame h.top_lt k set).inside h.top_lt hi (Trace.alters_logResult _ none s type)⟩
  | logAndEnd k _ s type =>
    exact ⟨_, hp _, (t.alters_logResult (some k) s type).close rfl (unwindThrough_suffix _ _ _).subset⟩
  | log k s type => exact ⟨_, hp _, t.alters_logResult k s type⟩
  | beginCall id => exact ⟨_, .refl, .of_frames rfl fun _ hid => hid⟩
  | startDetached k set id =>
    exact ⟨_, .refl, (t.alters_openFrame h.top_lt k set).close rfl fun _ hid => hid⟩
  | turn set => exact ⟨_, fun f => f.extends_turn set, t.alters_turn set⟩
  | endFrame =>
    exact ⟨_, .refl, .of_frames t.endFrame_frames t.endFrame_suffix.subset⟩
  | endLoop => exact ⟨_, .refl, .of_frames rfl (unwindToLoop_suffix _ _).subset⟩
  | unwindTo d => exact ⟨_, .refl, .of_frames rfl (drop_suffix _ _).subset⟩
  | write s =>
    simp only [apply, Trace.write]
    split
    · exact hr
    · exact ⟨_, .refl, .of_frames rfl fun _ hid => hid⟩
  | logException type msg => exact ⟨_, hp _, t.alters_push _⟩
  | logUncaught type msg =>
    exact ⟨_, hp _, hk type msg _⟩
  | logCallException type msg i l d =>
    exact ⟨_, hp _, (hk type msg _).close rfl (drop_suffix _ _).subset⟩

theorem Arena.size_apply (h : t.Arena) (s : Step) : (t.apply s).frames.size ≤ t.frames.size + 1 := by
  obtain ⟨-, hk⟩ := h.record_moves (t.moves_apply s) 0
  have ho : (s.opens t).length ≤ 1 := by
    unfold Step.opens
    split
    · split <;> simp
    · split <;> simp
    · exact Nat.le_refl 1
    · exact Nat.zero_le 1
  have hs (t : Trace) : t.kinds.length = t.frames.size := by simp [kinds]
  have hl := congrArg List.length hk
  rw [length_append, hs, hs] at hl
  omega

/-- **Nothing that is recorded is removed or altered**: every frame stays, with what is in it in its place. -/
theorem Arena.extends_applyAll (h : t.Arena) (ss : List Step)
    (hf : t.frames[id]? = some f) : ∃ f', (t.applyAll ss).frames[id]? = some f' ∧ f.Extends f' := by
  induction ss generalizing t f with
  | nil => exact ⟨f, hf, .refl f⟩
  | cons s r ih =>
    have hid : id < t.frames.size := (Array.getElem?_eq_some_iff.1 hf).1
    obtain ⟨change, hc, ha⟩ := h.extends_apply s
    obtain ⟨f1, hf1, he⟩ : ∃ f1, (t.apply s).frames[id]? = some f1 ∧ f.Extends f1 := by
      by_cases ht : id = t.top
      · subst ht
        exact ⟨change f, by rw [ha.top, hf]; rfl, hc f⟩
      · exact ⟨f, (ha.others id hid ht).trans hf, .refl f⟩
    obtain ⟨f', hf', he'⟩ := ih (h.moves (t.moves_apply s)) hf1
    exact ⟨f', hf', he.trans he'⟩

/-! ## Frames inside closed frames -/

theorem Arena.parent_unique (h : t.Arena) (hp : id ∈ t.children p) : id ∉ t.filed ∧ (id ∈ t.children q → p = q) := by
  have hn : t.references.Nodup := (h.once.nodup_iff.2 nodup_range).of_cons
  obtain ⟨hc, -, ha⟩ := nodup_append.1 hn
  have hlt {p : Nat} (hp : id ∈ t.children p) : p ∈ List.range t.frames.size := by
    have := h.deeper p id hp
    have := h.child_lt hp
    exact mem_range.2 (by omega)
  refine ⟨fun hf => ha id (mem_flatMap.2 ⟨p, hlt hp, hp⟩) id hf rfl, fun hq => ?_⟩
  by_contra hne
  obtain ⟨-, hpa⟩ := nodup_flatMap.1 hc
  have hs : Std.Symm (Function.onFun List.Disjoint t.children) := ⟨fun _ _ hd _ hi hi' => hd hi' hi⟩
  exact hpa.forall (hlt hp) (hlt hq) hne hp hq

/-- **A frame is open only while the frame that it is an entry of is.** -/
theorem Linked.parent_mem {p : Nat} (h : t.Linked) (ha : t.Arena) (hid : id ∈ t.children p)
    (ho : id ∈ t.stack) : p ∈ t.stack := by
  obtain ⟨i, below, hs⟩ := append_of_mem ho
  cases below with
  | nil =>
    -- the outermost frame is the file's, which is in no other
    have hb := ha.bottom
    rw [hs, getLast?_append_of_ne_nil _ (cons_ne_nil _ _)] at hb
    have hd := ha.deeper p id hid
    cases hb
    exact absurd hd (Nat.not_lt_zero p)
  | cons q r =>
    have hl : id ∈ t.children q ∨ id ∈ t.filed := by
      have hc : (id :: q :: r).IsChain fun upper lower => upper ∈ t.children lower ∨ upper ∈ t.filed :=
        List.IsChain.suffix h ⟨i, hs.symm⟩
      exact (isChain_cons_cons.1 hc).1
    obtain ⟨hf, hu⟩ := ha.parent_unique hid
    rw [hu (hl.resolve_right hf), hs]
    simp

/-- **The record of a closed frame is final**, with all the frames inside it. -/
theorem Arena.frame_closed (h : t.Arena) (hl : t.Linked) (ss : List Step)
    (hid : id < t.frames.size) (hc : id ∉ t.stack) : (t.applyAll ss).frame id = t.frame id := by
  have hm := t.moves_applyAll ss
  refine h.inside_induction (P := fun id => id ∉ t.stack → (t.applyAll ss).frame id = t.frame id)
    (fun id hid ih hc => ?_) id hid hc
  have hf : t.frames[id]? = some t.frames[id] := Array.getElem?_eq_getElem hid
  have hf' := (h.closed_moves hm hid hc).1.trans hf
  rw [h.frame_eq hf, (h.moves hm).frame_eq hf']
  exact Frame.record_congr hf fun child hch =>
    ih child hch fun ho => hc (hl.parent_mem h hch ho)

/-! ## More in a record -/

mutual

/-- A record of a frame with more in it: its child sets are in their places, with more in them or after them. -/
inductive FrameRecord.Extends : FrameRecord → FrameRecord → Prop
  | mk (hsets : SetRecordsGrow sets sets') : FrameRecord.Extends ⟨kind, sets⟩ ⟨kind, sets'⟩

/-- Child sets of a record with more in them and after them. -/
inductive SetRecordsGrow : List (String × List EntryRecord) → List (String × List EntryRecord) → Prop
  | new (sets : List (String × List EntryRecord)) : SetRecordsGrow [] sets
  | kept (hentries : EntryRecordsGrow entries entries') (hrest : SetRecordsGrow rest rest') :
      SetRecordsGrow ((name, entries) :: rest) ((name, entries') :: rest')

/-- Entries of a record with more in the frames among them and more after them; values and exceptions are the same. -/
inductive EntryRecordsGrow : List EntryRecord → List EntryRecord → Prop
  | new (entries : List EntryRecord) : EntryRecordsGrow [] entries
  | frame {record record' : FrameRecord} (hrecord : record.Extends record')
      (hrest : EntryRecordsGrow rest rest') : EntryRecordsGrow (.frame record :: rest) (.frame record' :: rest')
  | note (hentry : entry.isNote = true) (hrest : EntryRecordsGrow rest rest') :
      EntryRecordsGrow (entry :: rest) (entry :: rest')

end

section

variable {frame : Nat → FrameRecord}

theorem entryRecordsGrow_map (more : List Entry)
    (hf : ∀ id, Entry.frame id ∈ entries → (frame id).Extends (frame' id)) :
    EntryRecordsGrow (entries.map (entryRecord frame)) ((entries ++ more).map (entryRecord frame')) := by
  induction entries with
  | nil => exact .new _
  | cons entry _ ih =>
    have hr := ih fun id hid => hf id (mem_cons_of_mem entry hid)
    cases entry with
    | frame id => exact .frame (hf id mem_cons_self) hr
    | result | exception => exact .note rfl hr

theorem SetsGrow.record (h : SetsGrow ss ss')
    (hf : ∀ set ∈ ss, ∀ id, Entry.frame id ∈ set.2.toList → (frame id).Extends (frame' id)) :
    SetRecordsGrow (ss.map fun (x, es) => (x, es.toList.map (entryRecord frame)))
      (ss'.map fun (x, es) => (x, es.toList.map (entryRecord frame'))) := by
  induction h with
  | new => exact .new _
  | @kept x es _ r _ he _ ih =>
    obtain ⟨hh, hr⟩ := forall_mem_cons.1 hf
    obtain ⟨more, hm⟩ := he
    refine .kept ?_ (ih hr)
    rw [← hm]
    exact entryRecordsGrow_map more hh

theorem Frame.Extends.record (hf : t.frames[p]? = some f) (h : f.Extends f')
    (hfr : ∀ id ∈ t.children p, (frame id).Extends (frame' id)) : (f.record frame).Extends (f'.record frame') := by
  unfold Frame.record
  rw [h.kind]
  exact .mk (h.sets.record fun _ hs id hid => hfr id (mem_children hf hs hid))

end

/-- **The record of a frame only grows.** -/
theorem Arena.frame_extends (h : t.Arena) (ss : List Step) (hid : id < t.frames.size) :
    (t.frame id).Extends ((t.applyAll ss).frame id) := by
  have h' := h.moves (t.moves_applyAll ss)
  refine h.inside_induction (P := fun id => (t.frame id).Extends ((t.applyAll ss).frame id))
    (fun id hid ih => ?_) id hid
  have hf : t.frames[id]? = some t.frames[id] := Array.getElem?_eq_getElem hid
  obtain ⟨_, hf', he⟩ := h.extends_applyAll ss hf
  rw [h.frame_eq hf, h'.frame_eq hf']
  exact he.record hf ih

/-- **Closed frames are frozen.** After any operations, in any order and with any arguments, and whatever operations
come later: the next operation adds to the innermost frame, to no other frame that is there, and opens one frame at
most; every frame that is there stays, with its child sets and their entries in their places; a frame that is closed
is never open again, and it and its record with all the frames inside it never change; and the record of every frame,
of the file and of every filed call is later what it was with more in it. -/
theorem closed_frames_frozen (limits : Limits) (steps later : List Step) :
    let t := (start limits).applyAll steps
    let t' := t.applyAll later
    (∀ step : Step, (t.apply step).frames.size ≤ t.frames.size + 1 ∧
      ∃ change : Frame → Frame, (∀ f : Frame, f.Extends (change f)) ∧ Alters change t (t.apply step))
      ∧ (∀ (id : Nat) (f : Frame), t.frames[id]? = some f → ∃ f', t'.frames[id]? = some f' ∧ f.Extends f')
      ∧ (∀ id < t.frames.size, id ∉ t.stack → id ∉ t'.stack ∧ t'.frames[id]? = t.frames[id]? ∧ t'.frame id = t.frame id)
      ∧ (∀ id < t.frames.size, (t.frame id).Extends (t'.frame id))
      ∧ t.record.root.Extends t'.record.root
      ∧ ∀ id : String, ∃ calls more,
        t'.record.callsOf id = calls ++ more ∧ List.Forall₂ FrameRecord.Extends (t.record.callsOf id) calls := by
  intro t t'
  have hmoves := (start limits).moves_applyAll steps
  have harena : t.Arena := (Arena.start limits).moves hmoves
  have hlinked : t.Linked := (Linked.start limits).moves (Arena.start limits) hmoves
  refine ⟨fun step => ⟨harena.size_apply step, harena.extends_apply step⟩,
    fun id f => harena.extends_applyAll later, fun id hid hclosed => ?_, fun id => harena.frame_extends later,
    harena.frame_extends later harena.size_pos, fun id => ?_⟩
  · obtain ⟨hframe, hclosed'⟩ := harena.closed_moves (t.moves_applyAll later) hid hclosed
    exact ⟨hclosed', hframe, harena.frame_closed hlinked later hid hclosed⟩
  · -- the calls on file stay in their places, and their frames are among those that are there
    obtain ⟨more, hmore⟩ := t.callsOf_prefix_applyAll id later
    refine ⟨(t.callsOf id).map t'.frame, more.map t'.frame, ?_, ?_⟩
    · rw [record_callsOf, ← hmore, List.map_append]
    · rw [record_callsOf, List.forall₂_map_left_iff, List.forall₂_map_right_iff, List.forall₂_same]
      intro n hn
      exact harena.frame_extends later (harena.root_lt (List.mem_cons_of_mem 0 (mem_filed_of_mem_callsOf hn)))

/-- A loop with one round in it, which is closed; and a value that is recorded afterwards. -/
def oneRound : List Step :=
  [.startFrame .forLoop "iterations", .startFrame .forIteration "body", .log none "1" "int", .endFrame, .endFrame]

/-- The loop is closed and stays closed, and its record is final; the file's record is what it was, with the value
after the loop. -/
theorem closed_frames_frozen_oneRound :
    let t := (start {}).applyAll oneRound
    let t' := t.applyAll [.log none "2" "int"]
    1 < t.frames.size ∧ 1 ∉ t.stack ∧ 1 ∉ t'.stack ∧ t'.frame 1 = t.frame 1
      ∧ (t.frame 0).Extends (t'.frame 0) := by
  intro t t'
  have hsize : 1 < t.frames.size := by decide
  have hclosed : 1 ∉ t.stack := by decide
  obtain ⟨-, -, hfrozen, hextends, -, -⟩ := closed_frames_frozen {} oneRound [.log none "2" "int"]
  obtain ⟨hclosed', -, hframe⟩ := hfrozen 1 hsize hclosed
  exact ⟨hsize, hclosed, hclosed', hframe, hextends 0 (by decide)⟩

end Playback.Trace
