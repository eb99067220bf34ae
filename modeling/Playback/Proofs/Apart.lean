import Playback.Proofs.History

/-!
# The output of calls

A traced call has a tree of frames of its own, and everything in that tree is recorded during the call. So the output
that stands there was written during the call or was pending when it began (`Script.output_of_call`). The second is a
real case: what the parts of an expression before a call wrote is taken by the first value recorded in the call
(`output_before_call`).
-/

namespace Playback

open Trace (Step texts)

/-! ## The output of a tree -/

namespace Trace

def EntryRecord.output : EntryRecord → List String
  | .frame _ => []
  | .result _ _ _ output => output
  | .exception _ _ => []

/-- All the output in a frame of a record and in the frames inside it. -/
def FrameRecord.output (record : FrameRecord) : List String :=
  record.frames.flatMap fun frame => frame.notes.flatMap EntryRecord.output

variable {t t' : Trace}

theorem output_entryRecord (f : Nat → FrameRecord) (e : Entry) : (entryRecord f e).output = e.output := by
  cases e <;> rfl

theorem Arena.output_frame (h : t.Arena) {id : Nat} (hid : id < t.frames.size) :
    (t.frame id).output = ((t.tree id).flatMap t.notesOf).flatMap Entry.output :=
  h.flatMap_notes hid (output_entryRecord t.frame)

/-- What stands in the tree of a filed call was recorded from the call's frame on. -/
theorem Arena.tree_notes_subperm (h : t.Arena) {id : Nat} (hid : id ∈ t.filed) :
    ((t.tree id).flatMap t.notesOf).Subperm (t.notedFrom id) := by
  have hr := List.mem_cons_of_mem 0 hid
  have hn : (t.tree id).flatMap t.notesOf = (t.tree id).flatMap fun i => if id ≤ i then t.notesOf i else [] :=
    List.flatMap_congr fun i hi => (if_pos (h.le_of_mem_tree (h.root_lt hr) i hi).1).symm
  obtain ⟨_, hp, hs⟩ := h.tree_subperm hr
  rw [hn]
  exact ⟨_, hp.flatMap_right _, hs.flatMap _⟩

theorem Arena.closed_tree (h : t.Arena) {id : Nat} (hid : id < t.frames.size)
    (hc : ∀ i ∈ t.stack, i < id) (ss : List Step) : ((t.applyAll ss).frame id).output = (t.frame id).output := by
  have hm := t.moves_applyAll ss
  have h' := h.moves hm
  have hs := hm.size_le
  have hk : ∀ i ∈ t.tree id, (t.applyAll ss).entriesOf i = t.entriesOf i := fun i hi => by
    obtain ⟨hle, hlt⟩ := h.le_of_mem_tree hid i hi
    have ho : i ∉ t.stack := fun hme => absurd (hc i hme) (Nat.not_lt.2 hle)
    rw [entriesOf, (h.closed_moves hm hlt ho).1, entriesOf]
  rw [h.output_frame hid, h'.output_frame (by omega), h.tree_congr h' hs hid hk]
  congr 1
  refine List.flatMap_congr fun i hi => ?_
  unfold notesOf
  rw [hk i hi]

end Trace

/-! ## Calls of a run -/

section

variable {program : Program} {rounds : Nat} {limits : Limits} {mode : Mode} {input : List String} {room : Nat}
  {tk : Task} {code : FunctionCode} {args : List Value} {keywords : Keywords} {locals : Scope} {m m' : Machine}

theorem Reached.counted (h : Reached program rounds limits mode input room tk m) : m.trace.Counted := by
  obtain ⟨_, hp⟩ := h.performs
  obtain ⟨-, -, ht, -⟩ := Machine.sound_ready (p := fun _ => True) limits mode input
  have hr := hp.regular
  rw [ht] at hr
  rw [hp.hasHistory.1]
  exact (Trace.Counted.start limits).applyAll hr

theorem invoke_performs (hb : code.bind args keywords = .ok locals)
    (ha : Eval.after (Eval.invoke rounds (room + 1) code args keywords) m = m') :
    ∃ ss, m.Performs (m.calling code ++ ss) m' := by
  have hbo : Records (Eval.runCall (Eval.execBlock (Eval.invoke rounds room) rounds) code (m.traces code)
      (m.trace.invocations code.id) m.trace.depth) :=
    .runCall (.execBlock (invoke_records rounds room) rounds) _ _ _ _
  obtain ⟨ss, hs⟩ := hbo (m.called code locals)
  unfold Eval.after at hs ha
  rw [← Eval.callWith_ok hb] at hs
  rw [Eval.invoke] at ha
  rw [ha] at hs
  exact ⟨ss, (m.called_performs code locals).trans hs⟩

/-- **The output in a call's frames was written during the call, or was pending when it began.** Of a traced call
that a run comes to, and that ends with a value or an exception: what was pending at its beginning and what is
written during it is what is recorded during it and what is pending at its end, in this order. Whatever is done
later, the record has the call's frame under the function's id, at the place that the number of calls before it
says, and all the output in this frame and in those inside it is among these texts, each as often as it was
written. -/
theorem Script.output_of_call {script : Script} (hcompile : script.compile = .ok program)
    (hreached : Reached program rounds limits mode input (room + 1) (.call code args keywords) m)
    (hbind : code.bind args keywords = .ok locals) (htraces : m.traces code = true)
    (hends : (∃ v, Eval.invoke rounds (room + 1) code args keywords m = .ok v m')
      ∨ ∃ fault, Eval.invoke rounds (room + 1) code args keywords m = .error (.raised fault) m') :
    ∃ steps, m.Performs steps m' ∧ m.trace.pending.toList ++ texts steps
        = (Trace.allNotes m.trace steps).flatMap Trace.Entry.output ++ m'.trace.pending.toList
      ∧ ∀ later : List Step, ∃ call,
        ((m'.trace.applyAll later).record.callsOf code.id)[m.trace.invocations code.id]? = some call
          ∧ call.output.Subperm (m.trace.pending.toList ++ texts steps) := by
  have hafter : Eval.after (Eval.invoke rounds (room + 1) code args keywords) m = m' := by
    unfold Eval.after
    rcases hends with ⟨v, hends⟩ | ⟨fault, hends⟩ <;> rw [hends]
  obtain ⟨rest, hsteps⟩ := invoke_performs hbind hafter
  have hmoves := m.trace.moves_applyAll (m.calling code ++ rest)
  have harena : m'.trace.Arena := hsteps.trace ▸ hreached.arena.moves hmoves
  -- the call has closed all its frames
  have hstack : m'.trace.stack = m.trace.stack := by
    have hfine := hreached.fine hcompile
    obtain ⟨hcode, hargs, hkeywords⟩ := hfine.fits
    have hsettles := invoke_settles (fun _ hcode => hcode.hasBodies) rounds (room + 1) code args keywords hcode
      hargs hkeywords
    obtain ⟨hok, hraised⟩ := hsettles.givesBack hfine.sound
    rcases hends with ⟨v, hends⟩ | ⟨fault, hends⟩
    · exact (hok v m' hends).2
    · exact (hraised fault m' hends).2
  have hfiled : (m'.trace.callsOf code.id)[m.trace.invocations code.id]? = some m.trace.frames.size := by
    rw [hsteps.trace, Trace.applyAll_append, ← (m.called_performs code locals).trace]
    exact Trace.callsOf_applyAll_getElem? _ _ (Machine.callsOf_called hreached.counted htraces locals) rest
  have hmem : m.trace.frames.size ∈ m'.trace.filed :=
    Trace.mem_filed_of_mem_callsOf (List.mem_of_getElem? hfiled)
  have hlt := harena.root_lt (List.mem_cons_of_mem 0 hmem)
  have hpending := m.trace.pending_applyAll (m.calling code ++ rest)
  rw [← hsteps.trace] at hpending
  refine ⟨_, hsteps, hpending, fun later => ⟨(m'.trace.applyAll later).frame m.trace.frames.size, ?_, ?_⟩⟩
  · rw [Trace.record_callsOf, List.getElem?_map, Trace.callsOf_applyAll_getElem? _ _ hfiled later]
    rfl
  · rw [harena.closed_tree hlt (fun i hi => hreached.arena.known i (hstack ▸ hi)) later,
      harena.output_frame hlt, hpending]
    have hnoted := hreached.arena.notedFrom_moves hmoves m.trace.frames.size
    rw [m.trace.notedFrom_size, List.append_nil, ← hsteps.trace] at hnoted
    obtain ⟨_, hperm, hsublist⟩ := (harena.tree_notes_subperm hmem).trans hnoted
    exact .trans ⟨_, hperm.flatMap_right _, hsublist.flatMap _⟩ (List.sublist_append_left _ _).subperm

end

/-! ## A call after something that writes -/

/-- A list display that first writes a letter and then calls a function that writes nothing. -/
def listedCall : Script :=
  [.function "f" none [] [.return_ [.none]],
    .expression [.list [[.call "print" [.positional [.string "a"]]], [.call "f" []]]]]

def listedCallFunction : FunctionCode :=
  ⟨0, "f", "f", [], [], [.at 2 (.return_ (.logEnd .return_ .functionCall (.const .none))), .at 1 .endFrame],
    [.at 2 (.return_ (.const .none))]⟩

def listedCallCode : Program :=
  listedCall.code

/-- A run of `listedCall` comes to a call. -/
abbrev ListedCallReached (m : Machine) : Prop :=
  Reached listedCallCode 1 { recursion := 1 } .command [] 1 (.call listedCallFunction [] []) m

theorem listedCall_reached : ∃ m, ListedCallReached m ∧ m.traces listedCallFunction = true
    ∧ m.trace.pending = #["a", "\n"]
    ∧ ∃ m', Eval.invoke 1 1 listedCallFunction [] [] m = .ok .none m' ∧ m'.output = m.output
      ∧ (m'.trace.record.callsOf "f").map (·.output) = [["a", "\n"]] := by
  have hf : Reached listedCallCode 1 { recursion := 1 } .command [] 1 _ _ := .start
  have hs := hf.next rfl
  have hv := hs.value rfl
  have hli := hv.part (rfl : _ = [] ++ _ :: []) rfl
  have hl := hli.part (rfl : _ = [_] ++ _ :: []) rfl
  exact ⟨_, hl.call rfl rfl rfl, rfl, rfl, _, rfl, rfl, rfl⟩

/-- The call in `listedCall` ends, and its frame has taken no more than was pending. -/
theorem output_of_call_listedCall : ∃ m m', ListedCallReached m
    ∧ Eval.invoke 1 1 listedCallFunction [] [] m = .ok .none m'
    ∧ ∃ steps, m.Performs steps m' ∧ ∀ later : List Step, ∃ call,
      ((m'.trace.applyAll later).record.callsOf "f")[m.trace.invocations "f"]? = some call
        ∧ call.output.Subperm (["a", "\n"] ++ texts steps) := by
  have hcompile : listedCall.compile = .ok listedCallCode := rfl
  obtain ⟨m, hreached, htraces, hpending, m', hinvoke, -, -⟩ := listedCall_reached
  obtain ⟨steps, hsteps, -, hcall⟩ :=
    Script.output_of_call hcompile hreached (rfl : listedCallFunction.bind [] [] = .ok []) htraces (.inl ⟨_, hinvoke⟩)
  rw [hpending] at hcall
  exact ⟨m, m', hreached, hinvoke, steps, hsteps, hcall⟩

/-- **Output that was written before a call can stand in the call's frame**: the call in `listedCall` writes nothing,
and the letter that was written before it stands in its frame. -/
theorem output_before_call : ∃ m m', ListedCallReached m ∧ m.traces listedCallFunction = true
    ∧ Eval.invoke 1 1 listedCallFunction [] [] m = .ok .none m' ∧ m'.output = m.output
    ∧ (m'.trace.record.callsOf "f").map (·.output) = [["a", "\n"]] := by
  obtain ⟨m, hreached, htraces, -, m', hinvoke, houtput, hcalls⟩ := listedCall_reached
  exact ⟨m, m', hreached, htraces, hinvoke, houtput, hcalls⟩

end Playback
