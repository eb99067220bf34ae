import Playback.Proofs.Arena
import Playback.Trace.Record

/-!
# A trace unfolded into its record

The record of a trace has each frame in place of the references to it. Since the references make a forest, the
unfolding comes to an end, and every frame is in the record once, together with what was recorded in it: nothing is
lost and nothing is there twice, whatever operations led to the trace.
-/

namespace Playback.Trace

open List

/-! ## What a record holds -/

mutual

def FrameRecord.frames : FrameRecord → List FrameRecord
  | ⟨kind, sets⟩ => ⟨kind, sets⟩ :: framesOfSets sets

def framesOfSets : List (String × List EntryRecord) → List FrameRecord
  | [] => []
  | (_, entries) :: rest => framesOfEntries entries ++ framesOfSets rest

def framesOfEntries : List EntryRecord → List FrameRecord
  | [] => []
  | .frame record :: rest => record.frames ++ framesOfEntries rest
  | .result _ _ _ _ :: rest => framesOfEntries rest
  | .exception _ _ :: rest => framesOfEntries rest

end

/-- Whether an entry of a record is a value or an exception. -/
def EntryRecord.isNote : EntryRecord → Bool
  | .frame _ => false
  | .result _ _ _ _ => true
  | .exception _ _ => true

/-- The values and exceptions among the entries of a frame itself. -/
def FrameRecord.notes (record : FrameRecord) : List EntryRecord :=
  (record.sets.flatMap (·.2)).filter EntryRecord.isNote

/-- All frames of a record: the file's, the filed ones and those inside them. -/
def Record.frames (record : Record) : List FrameRecord :=
  record.root.frames ++ record.detached.flatMap fun (_, calls) => calls.calls.flatMap FrameRecord.frames

def Record.notes (record : Record) : List EntryRecord :=
  record.frames.flatMap FrameRecord.notes

/-! ## One frame -/

def frame (t : Trace) (id : Nat) : FrameRecord :=
  frameRecord t.frames (t.frames.size + 1) id

def Frame.record (frame : Nat → FrameRecord) (f : Frame) : FrameRecord :=
  ⟨f.kind, f.sets.map fun (name, entries) => (name, entries.toList.map (entryRecord frame))⟩

variable {t : Trace}

variable {p id : Nat} {f : Frame}

theorem mem_children (hf : t.frames[p]? = some f) {set : String × Array Entry} (hs : set ∈ f.sets)
    (hid : Entry.frame id ∈ set.2.toList) : id ∈ t.children p := by
  have he : t.entriesOf p = f.sets.flatMap (·.2.toList) := by
    rw [entriesOf, hf]
    rfl
  refine mem_filterMap.2 ⟨.frame id, ?_, rfl⟩
  rw [he]
  exact mem_flatMap.2 ⟨set, hs, hid⟩

/-- The record of a frame is the same for all functions that agree on what the frame refers to. -/
theorem Frame.record_congr (hf : t.frames[p]? = some f) {fr fr' : Nat → FrameRecord}
    (h : ∀ id ∈ t.children p, fr id = fr' id) : f.record fr = f.record fr' := by
  unfold Frame.record
  congr 1
  refine map_congr_left fun set hs => ?_
  refine congrArg (Prod.mk set.1) ?_
  refine map_congr_left fun e he => ?_
  cases e with
  | frame id => exact congrArg EntryRecord.frame (h id (mem_children hf hs he))
  | result | exception => rfl

/-- References lead to later frames, so that the number of later frames is enough to unfold one. -/
theorem Arena.frameRecord_eq (h : t.Arena) (hfu : t.frames.size < k + id)
    (hfu' : t.frames.size < k' + id) : frameRecord t.frames k id = frameRecord t.frames k' id := by
  induction k generalizing k' id with
  | zero =>
    have hn : t.frames[id]? = none := Array.getElem?_eq_none (by omega)
    cases k' with
    | zero => rfl
    | succ k' =>
      rw [frameRecord, frameRecord, hn]
  | succ k ih =>
    cases hf : t.frames[id]? with
    | none =>
      rw [frameRecord, hf]
      cases k' with
      | zero => rfl
      | succ k' => rw [frameRecord, hf]
    | some f =>
      have hid : id < t.frames.size := (Array.getElem?_eq_some_iff.1 hf).1
      obtain ⟨k', rfl⟩ : ∃ n, k' = n + 1 := ⟨k' - 1, by omega⟩
      rw [frameRecord, frameRecord, hf]
      refine Frame.record_congr hf fun child hc => ?_
      have hlt := h.deeper id child hc
      exact ih (by omega) (by omega)

/-- **Unfolding comes to an end**: a frame's record has the records of the frames it refers to in their places. -/
theorem Arena.frame_eq (h : t.Arena) (hf : t.frames[id]? = some f) : t.frame id = f.record t.frame := by
  rw [frame, frameRecord, hf]
  refine Frame.record_congr hf fun child hc => ?_
  have hlt := h.deeper id child hc
  exact h.frameRecord_eq (by omega) (by omega)

theorem framesOfEntries_map (f : Nat → FrameRecord) (es : List Entry) : framesOfEntries (es.map (entryRecord f))
      = (es.filterMap Entry.frame?).flatMap fun id => (f id).frames := by
  induction es with
  | nil => rfl
  | cons e r ih =>
    cases e with
    | frame id => exact congrArg ((f id).frames ++ ·) ih
    | result | exception => exact ih

theorem framesOfSets_map (f : Nat → FrameRecord) (ss : List (String × Array Entry)) :
    framesOfSets (ss.map fun (x, es) => (x, es.toList.map (entryRecord f)))
      = ((ss.flatMap (·.2.toList)).filterMap Entry.frame?).flatMap fun id => (f id).frames := by
  induction ss with
  | nil => rfl
  | cons set r ih =>
    obtain ⟨x, es⟩ := set
    rw [map_cons, framesOfSets, ih, framesOfEntries_map, flatMap_cons, filterMap_append,
      flatMap_append]

theorem Arena.frames_frame (h : t.Arena) (hid : id < t.frames.size) :
    (t.frame id).frames = [t.frame id] ++ (t.children id).flatMap fun child => (t.frame child).frames := by
  have hf : t.frames[id]? = some t.frames[id] := Array.getElem?_eq_getElem hid
  have hc : t.children id = ((t.frames[id].sets.flatMap (·.2.toList)).filterMap Entry.frame?) := by
    rw [children, entriesOf, hf]
    rfl
  rw [h.frame_eq hf, hc, ← framesOfSets_map t.frame]
  rfl

theorem filter_map_entryRecord (f : Nat → FrameRecord) (es : List Entry) :
    (es.map (entryRecord f)).filter EntryRecord.isNote
      = (es.filter fun e => e.frame?.isNone).map (entryRecord f) := by
  rw [filter_map]
  congr 2
  funext en
  cases en <;> rfl

theorem Arena.notes_frame (h : t.Arena) (hid : id < t.frames.size) :
    (t.frame id).notes = (t.notesOf id).map (entryRecord t.frame) := by
  have hf : t.frames[id]? = some t.frames[id] := Array.getElem?_eq_getElem hid
  have he : t.entriesOf id = t.frames[id].sets.flatMap (·.2.toList) := by
    rw [entriesOf, hf]
    rfl
  rw [h.frame_eq hf, notesOf, he, ← filter_map_entryRecord, map_flatMap]
  unfold FrameRecord.notes Frame.record FrameRecord.sets
  rw [flatMap_map]

/-! ## The whole record -/

/-- Over a forest, what hangs below the roots is what is at the nodes. -/
theorem flatMap_roots_perm {α : Type} {below here : Nat → List α} {children : Nat → List Nat} {roots : List Nat}
    {n : Nat} (hb : ∀ p < n, (below p).Perm (here p ++ (children p).flatMap below))
    (hr : (roots ++ (List.range n).flatMap children).Perm (List.range n)) :
    (roots.flatMap below).Perm ((List.range n).flatMap here) := by
  have ha : (roots.flatMap below ++ ((List.range n).flatMap children).flatMap below).Perm
      ((List.range n).flatMap here ++ ((List.range n).flatMap children).flatMap below) := by
    rw [← flatMap_append, flatMap_assoc]
    calc (roots ++ (List.range n).flatMap children).flatMap below
      _ |>.Perm ((List.range n).flatMap below) := hr.flatMap_right below
      _ |>.Perm ((List.range n).flatMap fun p => here p ++ (children p).flatMap below) :=
        .flatMap_left _ fun p hp => hb p (mem_range.1 hp)
      _ |>.Perm _ := (flatMap_append_perm _ _ _).symm
  exact (perm_append_right_iff _).1 ha

theorem Arena.roots_perm (h : t.Arena) :
    ((0 :: t.filed) ++ (List.range t.frames.size).flatMap t.children).Perm (List.range t.frames.size) := by
  refine .trans ?_ h.once
  exact (perm_append_comm).cons 0

theorem record_frames : t.record.frames = (0 :: t.filed).flatMap fun id => (t.frame id).frames := by
  unfold Record.frames Trace.record filed
  rw [flatMap_cons, flatMap_assoc, flatMap_map]
  congr 2
  funext e
  exact flatMap_map ..

/-- **Every frame is in the record once.** -/
theorem Arena.frames_record (h : t.Arena) : t.record.frames.Perm ((List.range t.frames.size).map t.frame) := by
  rw [record_frames, map_eq_flatMap]
  refine flatMap_roots_perm (fun p hp => ?_) h.roots_perm
  rw [h.frames_frame hp]

/-- **Every value and exception is in the record once.** -/
theorem Arena.notes_record (h : t.Arena) : t.record.notes.Perm ((t.notedFrom 0).map (entryRecord t.frame)) := by
  have hf := h.frames_record.flatMap_right FrameRecord.notes
  have hn : ((List.range t.frames.size).map t.frame).flatMap FrameRecord.notes
      = (t.notedFrom 0).map (entryRecord t.frame) := by
    rw [flatMap_map, notedFrom, map_flatMap]
    refine flatMap_congr fun id hid => ?_
    rw [h.notes_frame (mem_range.1 hid), if_pos (Nat.zero_le id)]
  exact hn ▸ hf

theorem Arena.kinds_record (h : t.Arena) : (t.record.frames.map FrameRecord.kind).Perm t.kinds := by
  have hk : ((List.range t.frames.size).map t.frame).map FrameRecord.kind = t.kinds := by
    refine ext_getElem (by simp [kinds]) fun id hid _ => ?_
    have hs : id < t.frames.size := by simpa using hid
    have hf : t.frames[id]? = some t.frames[id] := Array.getElem?_eq_getElem hs
    simp [kinds, h.frame_eq hf, Frame.record, FrameRecord.kind]
  exact hk ▸ h.frames_record.map FrameRecord.kind

theorem Arena.count_references (h : t.Arena) (id : Nat) :
    t.references.count id = if 0 < id ∧ id < t.frames.size then 1 else 0 := by
  have hc := h.once.count_eq id
  rw [count_cons, nodup_range.count] at hc
  simp only [mem_range, beq_iff_eq] at hc
  split_ifs at hc ⊢ with hid hz hr <;> omega

/-- **Whatever operations are made, in any order and with any arguments, frames are a forest and the record has all
of it**: the open frames are a path of rising numbers from the file's frame, which stays open; every other frame is
referred to once, by an earlier frame or as a filed call; and unfolding the references comes to an end in a record
that has every frame that was opened, and everything that was recorded, once. -/
theorem record_has_everything_once (limits : Limits) (steps : List Step) :
    let t := (start limits).applyAll steps
    (t.stack ≠ [] ∧ t.stack.getLast? = some 0 ∧ t.stack.Pairwise (· > ·) ∧ ∀ id ∈ t.stack, id < t.frames.size)
      ∧ (∀ id, t.references.count id = if 0 < id ∧ id < t.frames.size then 1 else 0)
      ∧ (∀ p, ∀ id ∈ t.children p, p < id)
      ∧ (∀ (id : Nat) (f : Frame), t.frames[id]? = some f → t.frame id = f.record t.frame)
      ∧ t.record.frames.Perm ((List.range t.frames.size).map t.frame)
      ∧ (t.record.frames.map FrameRecord.kind).Perm (.file :: allOpens (start limits) steps)
      ∧ t.record.notes.Perm ((allNotes (start limits) steps).map (entryRecord t.frame))
      ∧ (t.ids.Nodup ∧ ∀ (id : Nat) (f : Frame), t.frames[id]? = some f → f.names.Nodup) := by
  intro t
  have hmoves := (start limits).moves_applyAll steps
  have harena : t.Arena := (Arena.start limits).moves hmoves
  have hnamed : t.Named := (Named.start limits).moves hmoves
  have hnotes := harena.notes_record.trans ((noted_of_moves hmoves).map _)
  have hopened := harena.kinds_record
  rw [((Arena.start limits).record_moves hmoves 0).2] at hopened
  exact ⟨⟨harena.stack_ne_nil, harena.bottom, harena.rising, harena.known⟩, harena.count_references, harena.deeper,
    fun _ _ => harena.frame_eq, harena.frames_record, hopened, hnotes, hnamed.ids, hnamed.sets⟩

end Playback.Trace
