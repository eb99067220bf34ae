import Playback.Proofs.Shadow

/-!
# The limit on traced calls only cuts the trace

Two runs of a program under two limits on traced calls write, publish and raise the same; the file's frame is the same,
the calls are counted alike, and of the calls that the greater limit traces the smaller one traces the first. Only the
output filed with results may be filed elsewhere, as a call without a trace leaves it to the next result.

This is said of programs in which no function is declared inside another, since the functions declared in the two
bodies of one are told apart by their numbers.
-/

namespace Playback

open Eval List
open Lower (Plan Place FitAll emitAll codesAll extra)
open Trace (Pins Aligned)

variable {cp : Nat × Nat} {m m' : Machine} {pins : Pins}

/-! ## Calls side by side -/

section

variable {n n' : Machine}

/-- What the body of a call leaves, by the way it ends. -/
def BodyLeaves (cp : Nat × Nat) (on : Bool × Bool) (pins : Pins) (n n' : Machine) : Except Halt Flow → Prop
  | .ok _ => n.Twins cp pins none n'
  | .error (.raised fault) => Raises cp on pins fault n n'
  | .error _ => True

theorem Both.attempt (hx : Shadow cp on pins x x' m m') :
    Both (Eval.attempt x) (Eval.attempt x') m m' (fun o k k' => BodyLeaves cp on pins k k' o) e := by
  unfold Both Eval.attempt
  unfold Shadow Both at hx
  generalize x m = out at hx ⊢
  generalize x' m' = out' at hx ⊢
  cases hx with
  | ok h | raised h => exact .ok h
  | capacity | exhausted => exact .ok trivial

theorem Machine.Twins.popCall (h : n.Twins cp pins e n') : Machine.Twins cp pins e { n with calls := n.calls.tail }
      { n' with calls := n'.calls.tail } := by
  have hc := h.calls
  refine { h with calls := ?_ }
  generalize n.calls = calls at hc ⊢
  generalize n'.calls = calls' at hc ⊢
  cases hc with
  | nil => exact .nil
  | cons _ hr => exact hr

theorem Trace.Kept.keepException {t : Trace} (h : t.Kept (some f))
    (he : e.type = f.kind.name ∧ e.message = f.message) : (t.keepException e).Kept (some f) := by
  unfold Trace.keepException
  split
  · exact h
  · rintro _ ⟨⟩
    exact he

theorem endCall_both (i i' d d' : Nat) {o : Except Halt Flow} (h : BodyLeaves cp on pins n n' o) :
    Both (popCall >>= fun l => endCall on.1 i l d o) (popCall >>= fun l => endCall on.2 i' l d' o) n n'
      (fun _ k => k.Twins cp pins none) fun e k k' => k.Twins cp pins (some e) k' := by
  obtain ⟨l, hp⟩ := popCall_eq n
  obtain ⟨l', hp'⟩ := popCall_eq n'
  refine .step hp hp' ?_
  match o with
  | .ok f =>
    have hr : ∀ (b : Bool) (i l d : Nat) (k : Machine), endCall b i l d (.ok f) k
          = .ok f.result { k with trace := if b then k.trace.unwindTo d else k.trace } := by
      intro b i l d k
      cases b <;> rfl
    have hs (b : Bool) (d : Nat) (t : Trace) : t.Same (if b then t.unwindTo d else t) := by
      simpa using (t.same_unwindTo d).when b t
    exact .of_ok (hr ..) (hr ..) (Machine.Twins.popCall h |>.same (hs ..) (hs ..))
  | .error (.raised e) =>
    obtain ⟨_, hsu, htw, ha⟩ := h
    let kept (b : Bool) (i l d : Nat) (t : Trace) : Trace :=
      if b then t.logCallException e.kind.name e.message i l d else t
    have hr : ∀ (b : Bool) (i l d : Nat) (k : Machine), endCall b i l d (.error (.raised e)) k
          = .error (.raised e) { k with trace := kept b i l d k.trace } := by
      intro b i l d k
      cases b <;> rfl
    have hk : ∀ (b : Bool) (i l d : Nat) (t : Trace), t.Kept (some e) →
        (kept b i l d t).Kept (some e) := by
      intro b i l d t ht
      cases b with
      | true => exact Trace.Kept.keepException ht ⟨rfl, rfl⟩
      | false => exact ht
    have hl := (htw.trace.logCallException ha e.kind.name e.message i i' l l' d d').sub hsu
    unfold Both
    rw [hr, hr]
    exact .raised (htw.popCall.setTrace hl (hk _ _ _ _ _ htw.kept) (hk _ _ _ _ _ htw.kept'))
  | .error .capacity => exact .capacity _ _
  | .error .exhausted => exact .exhausted _ _

theorem Machine.Twins.called (hle : cp.1 ≤ cp.2) (h : m.Twins cp pins none m') (hm : m.Sound Planned)
    (hm' : m'.Sound Planned) (c : FunctionCode) (hl : ∀ x ∈ ls, x.2.Holds Planned) :
    ∃ pins' : Pins, pins.Sub pins' ∧ Beside cp (m.traces c, m'.traces c) pins' (m.called c ls) (m'.called c ls)
        (m.called c ls) (m'.called c ls) := by
  obtain ⟨pins', hs, ha, ht⟩ := h.trace.enterCall hle c.id
  have hk : ∀ t : Trace, (t.enterCall c.id).lastException = t.lastException := by
    intro t
    unfold Trace.enterCall
    split <;> rfl
  refine ⟨pins', hs, .refl (hm.called c hl) (hm'.called c hl) ?_ ha⟩
  have he := h.setTrace ht (h.kept.congr (hk _)) (h.kept'.congr (hk _))
  exact { he with calls := .cons ⟨rfl, rfl⟩ h.calls }

/-- The body of a function is the code of its plans, which in traced code closes the frame of the call. -/
theorem Planned.body (h : Planned c) : ∃ ps, FitAll Planned .function ps ∧ ∀ t,
      c.body t = emitAll t ps ++ extra t [.at 1 .endFrame] := by
  obtain ⟨ps, hf, ht, hp⟩ := h
  refine ⟨ps, hf.mono fun c hc => (hf.codes c hc).elim, fun t => ?_⟩
  cases t with
  | true => exact ht
  | false => exact hp.trans (append_nil _).symm

/-- **A call does the same in both runs**, whichever of them trace it. -/
theorem callWith_mirrors {iv : Invoke} {c : FunctionCode} {as : List Value} {ks : Keywords}
    (hle : cp.1 ≤ cp.2) (hi : iv.Mirrors cp) (r : Nat) (hc : Planned c) (ha : RowHolds Planned as)
    (hk : ∀ k ∈ ks, k.2.Holds Planned) : Mirrors cp (callWith (execBlock iv r) c as ks)
      (·.Holds Planned) := by
  refine ⟨(callWith_settles hi.settles r hc.hasBodies ha hk).stays, ?_⟩
  intro _ m _ hm hm' h
  cases hb : c.bind as ks with
  | error e =>
    unfold Both
    rw [callWith_error hb, callWith_error hb]
    exact .raised (h.raised e)
  | ok ls =>
    obtain ⟨_, hsu, he⟩ :=
      h.called hle hm hm' c (c.bind_holds ha hk ls hb)
    obtain ⟨ps, hf, hbo⟩ := hc.body
    have hs := (plans_shadow hi r .function ps hf).endFrame 1
    unfold Both
    rw [callWith_ok hb, callWith_ok hb, runCall, runCall, hbo, hbo]
    refine (hs he).attempt.bind fun o n _ h1 => ?_
    exact (endCall_both _ _ _ _ h1).mono (fun _ _ _ h2 => h2.sub hsu) fun _ _ _ h2 => h2.sub hsu

/-- **Calls do the same in both runs to any depth.** -/
theorem invoke_mirrors (hle : cp.1 ≤ cp.2) (n k : Nat) : (Eval.invoke n k).Mirrors cp := by
  refine ⟨invoke_settles (fun _ h => h.hasBodies) n k, ?_⟩
  induction k with
  | zero => exact fun _ _ _ _ _ _ => Mirrors.throw _
  | succ k ih =>
    have hs := invoke_settles (fun _ => Planned.hasBodies) n k
    exact fun c _ _ hc ha hk =>
      callWith_mirrors hle ⟨hs, ih⟩ n hc ha hk

end

/-! ## Records without output -/

namespace Trace

mutual

/-- A recorded frame without the output that was filed in it. -/
def FrameRecord.silent : FrameRecord → FrameRecord
  | ⟨kind, sets⟩ => ⟨kind, silentSets sets⟩

def silentSets : List (String × List EntryRecord) → List (String × List EntryRecord)
  | [] => []
  | (name, entries) :: rest => (name, silentEntries entries) :: silentSets rest

def silentEntries : List EntryRecord → List EntryRecord
  | [] => []
  | .frame record :: rest => .frame record.silent :: silentEntries rest
  | .result kind text type _ :: rest => .result kind text type [] :: silentEntries rest
  | .exception type message :: rest => .exception type message :: silentEntries rest

end

section

variable {t : Trace}

theorem silentEntries_twin {record record' : Nat → FrameRecord}
    (hr : ∀ j j', i < j → g[j]? = some j' → (record j).silent = (record' j').silent)
    (h : List.Forall₂ (EntryTwin g i) es es') : silentEntries (es.map (entryRecord record))
      = silentEntries (es'.map (entryRecord record')) := by
  induction h with
  | nil => rfl
  | cons he _ ih =>
    rw [map_cons, map_cons]
    cases he with
    | frame hlt hj => rw [entryRecord, entryRecord, silentEntries, silentEntries, ih, hr _ _ hlt hj]
    | result | exception => rw [entryRecord, entryRecord, silentEntries, silentEntries, ih]

theorem silentSets_twin {record record' : Nat → FrameRecord}
    (hr : ∀ j j', i < j → g[j]? = some j' → (record j).silent = (record' j').silent)
    (h : List.Forall₂ (SetTwin g i) ss ss') :
    silentSets (ss.map fun (x, es) => (x, es.toList.map (entryRecord record)))
      = silentSets (ss'.map fun (x, es) => (x, es.toList.map (entryRecord record'))) := by
  induction h with
  | nil => rfl
  | @cons s s' r _ hs _ ih =>
    obtain ⟨x, es⟩ := s
    obtain ⟨_, _⟩ := s'
    obtain ⟨rfl, he⟩ := hs
    rw [map_cons, map_cons, silentSets, silentSets, ih, silentEntries_twin hr he]

/-- **Matched frames have the same record** up to output: by induction on how deep frames may be nested, as
matched frames keep their order. -/
theorem Twin.frameRecord {g : List Nat} {t' : Trace} {i i' : Nat} (h : Twin cp g t t') (n n' : Nat)
    (hi : g[i]? = some i') (hfu : t.frames.size ≤ n + i) (hfu' : t'.frames.size ≤ n' + i') :
    (Trace.frameRecord t.frames n i).silent = (Trace.frameRecord t'.frames n' i').silent := by
  obtain ⟨hlt, hg⟩ := List.getElem?_eq_some_iff.1 hi
  have hi' := h.bound i' (List.mem_of_getElem? hi)
  induction n generalizing n' i i' with
  | zero =>
    rw [h.size] at hfu
    omega
  | succ n ih =>
    cases n' with
    | zero => omega
    | succ n' =>
      obtain ⟨f, _, hf, hf', hfr⟩ := h.frames i i' hi
      have hc : ∀ j j', i < j → g[j]? = some j' →
          (Trace.frameRecord t.frames n j).silent = (Trace.frameRecord t'.frames n' j').silent := by
        intro j j' hij hj
        obtain ⟨hjl, hjg⟩ := List.getElem?_eq_some_iff.1 hj
        have hij' : i' < j' := by
          rw [← hg, ← hjg]
          exact List.pairwise_iff_getElem.1 h.sorted i j hlt hjl hij
        exact ih n' hj (by omega) (by omega) hjl hjg (h.bound j' (List.mem_of_getElem? hj))
      rw [Trace.frameRecord, Trace.frameRecord, hf, hf']
      rw [FrameRecord.silent, FrameRecord.silent, hfr.kind, silentSets_twin hc hfr.sets]

/-- Calls under one id: as many calls, and of the traced ones the first `limit`. -/
structure CallsCut (limit : Nat) (c c' : String × CallsRecord) : Prop where
  id : c.1 = c'.1
  invocations : c.2.invocations = c'.2.invocations
  calls : c.2.calls.map FrameRecord.silent = (c'.2.calls.take limit).map FrameRecord.silent

theorem Twin.record (h : Twin cp g t t') : t.record.root.silent = t'.record.root.silent
      ∧ List.Forall₂ (CallsCut cp.1) t.record.detached t'.record.detached := by
  have hfr : ∀ i i', g[i]? = some i' → (Trace.frameRecord t.frames (t.frames.size + 1) i).silent
        = (Trace.frameRecord t'.frames (t'.frames.size + 1) i').silent :=
    fun i i' hi => h.frameRecord _ _ hi (by omega) (by omega)
  refine ⟨hfr 0 0 h.root, ?_⟩
  unfold Trace.record
  rw [forall₂_map_left_iff, forall₂_map_right_iff]
  refine h.detached.imp ?_
  rintro ⟨id, c⟩ ⟨_, c'⟩ hc
  refine ⟨hc.id.symm, hc.invocations.symm, ?_⟩
  have hf := hc.frames
  dsimp only at hf ⊢
  rw [← map_take]
  generalize c.frames.toList = is at hf ⊢
  generalize c'.frames.toList.take cp.1 = is' at hf ⊢
  induction hf with
  | nil => rfl
  | cons hi _ ih => rw [map_cons, map_cons, map_cons, map_cons, ih, hfr _ _ hi]

end

end Trace

/-! ## Runs side by side -/

/-- An execution that differs from another only in that of each function no more than `limit` calls are
traced, and in where output is filed. -/
structure Execution.Cuts (limit : Nat) (x x' : Execution) : Prop where
  output : x.output = x'.output
  response : x.response = x'.response
  exception : x.record.lastException.map (fun e => (e.type, e.message))
    = x'.record.lastException.map (fun e => (e.type, e.message))
  root : x.record.root.silent = x'.record.root.silent
  detached : List.Forall₂ (Trace.CallsCut limit) x.record.detached x'.record.detached

section

variable {limit limit' : Nat}

theorem Machine.Twins.cuts (h : m.Twins (limit, limit') pins f m')
    (he : m.trace.lastException.map (fun e => (e.type, e.message))
      = m'.trace.lastException.map (fun e => (e.type, e.message))) : Execution.Cuts limit m.execution m'.execution := by
  obtain ⟨g, ht, -⟩ := h.trace
  obtain ⟨hr, hd⟩ := ht.record
  refine ⟨h.output.symm, ?_, he, hr, hd⟩
  unfold Machine.execution
  rw [h.response, h.heap]

/-- The frame of the file is matched with itself. -/
def Trace.Pins.file : Pins where
  matched := [0]
  size := 1

theorem Trace.twins_start (limit limit' recursion : Nat) : Trace.Twins (limit, limit') Pins.file
      (Trace.start { iterations := none, tracedCalls := limit, recursion })
      (Trace.start { iterations := none, tracedCalls := limit', recursion }) := by
  refine ⟨[0], ⟨rfl, ?_, pairwise_singleton _ _, rfl, ?_, .nil, ⟨rfl, rfl⟩, ⟨rfl, rfl⟩⟩, .refl _⟩
  · exact forall_mem_singleton.2 Nat.zero_lt_one
  · intro i i' hi
    obtain ⟨rfl, rfl⟩ : i = 0 ∧ i' = 0 := by
      cases i with
      | zero => exact ⟨rfl, (Option.some.inj hi).symm⟩
      | succ i => cases hi
    exact ⟨_, _, rfl, rfl, .open _ _ _ _⟩

theorem Machine.twins_ready (limit limit' recursion : Nat) (m : Mode) (i : List String) :
    (Machine.ready { iterations := none, tracedCalls := limit, recursion } m i).Twins (limit, limit')
      .file none (Machine.ready { iterations := none, tracedCalls := limit', recursion } m i) := by
  have hs := Trace.twins_start limit limit' recursion
  cases m with
  | command | scheduled => exact ⟨rfl, rfl, .nil, rfl, rfl, rfl, rfl, hs, rfl, rfl⟩
  | request payload =>
    have hh : ∀ l : Limits, (Machine.start l i).heap = Heap.empty := fun _ => rfl
    unfold Machine.ready
    dsimp only
    rw [hh, hh]
    cases Value.ofJson payload Heap.empty with
    | ok | error => exact ⟨rfl, rfl, .nil, rfl, rfl, rfl, rfl, hs, rfl, rfl⟩

theorem Trace.Kept.logUncaught {t : Trace} (h : t.Kept (some f)) :
    (t.logUncaught f.kind.name f.message).lastException.map (fun e => (e.type, e.message))
      = some (f.kind.name, f.message) := by
  have hk : (t.logException f.kind.name f.message).Kept (some f) := h
  unfold Trace.logUncaught Trace.keepException
  split
  · rename_i e he
    obtain ⟨ht, hm⟩ := hk e he
    rw [he, Option.map_some, ht, hm]
  · rfl

/-- **The limit on traced calls only cuts the trace.** Where no function is declared inside another and frames
are opened without a limit, two runs that trace `limit` and at least `limit` calls of each function end
together, and differ in nothing but the calls that are traced after the first `limit` and in where output is
filed. -/
theorem Script.run_cuts {script : Script} {program : Program} (hcompile : script.compile = .ok program)
    (hflat : blockIsFlat script = true) (hle : limit ≤ limit') (rounds recursion : Nat) (mode : Mode)
    (input : List String) : Option.Rel (Execution.Cuts limit)
      (program.run rounds { iterations := none, tracedCalls := limit, recursion } mode input)
      (program.run rounds { iterations := none, tracedCalls := limit', recursion } mode input) := by
  obtain ⟨ps, hfit, hbody⟩ := Script.compile_planned hcompile hflat
  let limits : Limits := { iterations := none, tracedCalls := limit, recursion }
  let limits' : Limits := { iterations := none, tracedCalls := limit', recursion }
  obtain ⟨hsound, -, htrace, -⟩ := Machine.sound_ready (p := Planned) limits mode input
  obtain ⟨hsound', -, htrace', -⟩ := Machine.sound_ready (p := Planned) limits' mode input
  have haligned : Aligned (true, true) .file (Machine.ready limits mode input).trace
      (Machine.ready limits' mode input).trace := by
    rw [htrace, htrace']
    rfl
  have hboth : Shadow (limit, limit') (true, true) .file (execBlock _ rounds (emitAll true ps))
      (execBlock _ rounds (emitAll true ps)) (Machine.ready limits mode input) (Machine.ready limits' mode input) :=
    plans_shadow (invoke_mirrors hle rounds recursion) rounds _ ps hfit
      (.refl hsound hsound' (Machine.twins_ready limit limit' recursion mode input) haligned)
  unfold Shadow Both at hboth
  unfold Program.run
  rw [hbody]
  dsimp only
  generalize execBlock _ rounds (emitAll true ps) (Machine.ready limits mode input) = out at hboth ⊢
  generalize execBlock _ rounds (emitAll true ps) (Machine.ready limits' mode input) = out' at hboth ⊢
  cases hboth with
  | ok h =>
    refine .some (h.cuts ?_)
    rw [show _ = none from h.kept, show _ = none from h.kept']
  | @raised m m' fault h =>
    obtain ⟨pins, -, htwins, haligned⟩ := h
    have hlogged : Trace.Twins (limit, limit') pins (m.trace.logUncaught fault.kind.name fault.message)
        (m'.trace.logUncaught fault.kind.name fault.message) :=
      (htwins.trace.logException haligned _ _).keepException true true _ _
    have hkept : ∀ t : Trace, t.Kept (some fault) → (t.logUncaught fault.kind.name fault.message).Kept (some fault) :=
      fun t ht => Trace.Kept.keepException (t := t.logException _ _) ht ⟨rfl, rfl⟩
    refine .some ((htwins.setTrace hlogged (hkept _ htwins.kept) (hkept _ htwins.kept')).cuts ?_)
    exact htwins.kept.logUncaught.trans htwins.kept'.logUncaught.symm
  | capacity m m' => exact .some ⟨rfl, rfl, rfl, rfl, .nil⟩
  | exhausted m m' => exact .none

/-- A function that writes a line, two calls of it, and a name that nothing defines. -/
def printTwice : Script :=
  [.function "f" none [] [.expression [.call "print" []]], .expression [.call "f" []],
    .expression [.call "f" []], .expression [.name "g"]]

def printTwiceCode : Program :=
  printTwice.code

/-- Of the two calls in `printTwice` a limit of one leaves the first; the exception in the end is the same. -/
theorem run_cuts_printTwice : printTwice.compile = .ok printTwiceCode ∧ blockIsFlat printTwice = true ∧ 1 ≤ 2
      ∧ ∃ x x', printTwiceCode.run 0 { tracedCalls := 1, recursion := 1 } .command [] = some x
        ∧ printTwiceCode.run 0 { tracedCalls := 2, recursion := 1 } .command [] = some x'
        ∧ x.Cuts 1 x' ∧ x.record.detached.map (fun c => c.2.calls.length) = [1]
        ∧ x'.record.detached.map (fun c => c.2.calls.length) = [2] := by
  have hcompile : printTwice.compile = .ok printTwiceCode := rfl
  have hcuts : Option.Rel (Execution.Cuts 1) (printTwiceCode.run 0 { tracedCalls := 1, recursion := 1 } .command [])
      (printTwiceCode.run 0 { tracedCalls := 2, recursion := 1 } .command []) :=
    Script.run_cuts hcompile rfl (by decide) 0 1 .command []
  have hone : (printTwiceCode.run 0 { tracedCalls := 1, recursion := 1 } .command []).map
      (fun x => x.record.detached.map fun c => c.2.calls.length) = some [1] := by decide +kernel
  have htwo : (printTwiceCode.run 0 { tracedCalls := 2, recursion := 1 } .command []).map
      (fun x => x.record.detached.map fun c => c.2.calls.length) = some [2] := by decide +kernel
  obtain ⟨x, hx, hcalls⟩ := Option.map_eq_some_iff.1 hone
  obtain ⟨x', hx', hcalls'⟩ := Option.map_eq_some_iff.1 htwo
  rw [hx, hx'] at hcuts
  cases hcuts with
  | some h => exact ⟨hcompile, rfl, by decide, x, x', hx, hx', h, hcalls, hcalls'⟩

end

end Playback
