import Playback.Proofs.Statements

/-!
# Loops in the record of a run

Where iterations are not limited, the frame of a loop has one frame for each value that its condition came to, or for
each element that it took, and nothing else but an exception that ended it (`Script.loops_counted`). This is said of
every loop that traced code comes to, and of every frame of a loop in the record of a run.
-/

namespace Playback

open List

open Lower (Plan Place Lowered emitAll iterationBody)
open Trace (FrameRecord EntryRecord)

/-! ## Loops and their statements -/

/-- A loop is what a statement is in traced code. -/
def TracedLoop.Of (loop : TracedLoop) (s : Statement) : Prop :=
  ∃ place c c', Lower.statement place true s c = .ok (loop.code, c')

variable {p : Plan} {loop : TracedLoop}

theorem Lower.Plan.emit_loop (h : p.loop? = some loop) : p.emit true = loop.code := by
  cases p with
  | whileLoop | forLoop => cases h; rfl
  | _ => cases h

theorem Lower.Plan.loop_of_emit (h : p.emit true = loop.code) : p.loop? = some loop := by
  cases p <;> cases loop <;>
    simp_all [Plan.emit, TracedLoop.code, Plan.loop?, iterationBody, Lower.framed]

/-! ## Loops that code comes to -/

/-- The loop of a plan has plain expressions, and its rounds keep the ledger. -/
theorem Ledger.plan_loopFits {l : Ledger} {p : FunctionCode → Prop} {origin : Plan → Prop} {k : Nat}
    (hl : l.Serves p origin k) {q : Plan} (hlo : q.loop? = some loop) {pl : Lower.Place}
    (hf : q.Fits p pl) (hp : ∀ part ∈ q.parts, origin part) :
    l.LoopFits p k pl (Eval.invoke l.rounds k) l.rounds loop := by
  cases q with
  | whileLoop ln c b =>
    cases hlo
    have hr := plans_trace hl hf.2 (forall_mem_cons.1 hp).2
    exact ⟨hf.1, hr.keeps hl hf.2⟩
  | forLoop ln t e b =>
    cases hlo
    have hr := plans_trace hl hf.2.2 (forall_mem_cons.1 hp).2
    exact ⟨hf.1, hf.2.1, hr.keeps hl hf.2.2⟩
  | _ => cases hlo

def AtMostExceptionRecord (last : List EntryRecord) : Prop :=
  last = [] ∨ ∃ type message, last = [.exception type message]

theorem AtMostException.record (h : AtMostException z) (look : Nat → FrameRecord) :
    AtMostExceptionRecord (z.map (Trace.entryRecord look)) := by
  rcases h with rfl | ⟨type, msg, rfl⟩
  · exact .inl rfl
  · exact .inr ⟨type, msg, rfl⟩

/-- **A loop that a run comes to records its rounds**, one for each value, in the frame that it opens. What the run
does later does not change that frame, and an exception is at most added at the end of it. -/
theorem Reached.loop_recorded {script : Script} {p : Program} (hc : script.compile = .ok p) {limits : Limits}
    (hlimits : limits.iterations = none) {rounds k : Nat} {mode : Mode} {input : List String} {t : Task} {m : Machine}
    (h : Reached p rounds limits mode input k t m) {s : Statement} (hof : loop.Of s) :
    Ends (Eval.execBlock (Eval.invoke rounds k) rounds loop.code) m
      (fun _ m' => ∀ later, loop.Recorded (loop.values (Eval.invoke rounds k) rounds m) []
        ((m'.trace.applyAll later).frame m.trace.frames.size))
      fun m' => ∀ type msg, ∃ z, AtMostExceptionRecord z ∧ loop.Recorded (loop.values (Eval.invoke rounds k) rounds m) z
          ((m'.trace.logException type msg).frame m.trace.frames.size) := by
  obtain ⟨q, c, _, hs⟩ := hof
  obtain ⟨plan, hpl, hco⟩ := Lower.statement_ok.1 hs
  have hpr := Lower.proper_rules.of_plan q s c _ hpl
  have hm := h.inRun hc hlimits
  have hl := Ledger.blank_serves rounds (h.iterationLimit.trans hlimits) h.arena limits.recursion k
  have hfi := Ledger.plan_loopFits hl (Lower.Plan.loop_of_emit hco) hpr fun _ _ => trivial
  have ho := plan_obeys hl.settles rounds hpr m hm.sound
  have hr := (Records.execBlock (invoke_records rounds k) rounds loop.code).ends m
  rw [hco] at ho
  refine (ho.and (hr.and (Ledger.loop_ends hl.spares hm hfi))).mono ?_ ?_
  · rintro f m' ⟨hle, hp, -, hf, -⟩ later
    have ha := (hm.later hle.later hp).arena
    have hla := hf.later (hle.frames_kept hm.sound ha later)
    exact hla.recorded (ha.moves (m'.trace.moves_applyAll later))
  · rintro m' ⟨hb, hp, -, hf, -⟩ type msg
    have ha := (hm.later hb.later hp).arena
    obtain ⟨z, hls, hf⟩ := hf type msg
    exact ⟨_, hls.record _, hf.recorded (ha.move (.note rfl))⟩

/-! ## The frames of loops in a record -/

section

variable (script : Script) (rounds : Nat) {limits : Limits} (hlimits : limits.iterations = none) (mode : Mode)
  (input : List String)

/-- A frame is that of a loop of the script, started in a state of the run. -/
def Script.LoopFrame (limits : Limits) (t : Trace) (id : Nat) : Prop :=
  ∃ s ∈ script.statements, ∃ loop : TracedLoop, loop.Of s ∧
    ∃ room past start last, room + start.calls.length = limits.recursion
      ∧ (Machine.ready limits mode input).Performs past start ∧ AtMostException last
      ∧ loop.Framed (loop.values (Eval.invoke rounds room) rounds start) last t id

variable {script rounds mode input} in
theorem Script.LoopFrame.later {id : Nat} (h : script.LoopFrame rounds mode input limits t id)
    (hs : t.SameFrom id t') : script.LoopFrame rounds mode input limits t' id := by
  obtain ⟨s, hst, loop, hof, k, past, start, z, hr, hp, hla, hf⟩ := h
  exact ⟨s, hst, loop, hof, k, past, start, z, hr, hp, hla, hf.later hs⟩

def Script.loopLedger : Ledger where
  rounds
  start := Machine.ready limits mode input
  unlimited := Machine.ready_unlimited hlimits mode input
  arena := Machine.ready_arena limits mode input
  recursion := limits.recursion
  holds _ t id := (t.kindOf id).isLoop = true → script.LoopFrame rounds mode input limits t id
  later h hid hs hl := (h (Trace.kindOf_congr (hs _ (Nat.le_refl _) hid) ▸ hl)).later hs
  of_well h := h
  other hk hl := absurd (Trace.Kind.isControl_of_isLoop hl) (Bool.eq_false_iff.1 hk)
  conditional hk hl := by
    rw [hk] at hl
    cases hl

theorem Script.loopLedger_explains : (script.loopLedger rounds hlimits mode input).Explains
    (Lower.Defined script.statements) (Plan.Origin script.statements) where
  loop {plan loop room start last _} ho hl hst hla hf _ := by
    obtain ⟨s, hs, p, c, c', hp⟩ := ho
    obtain ⟨past, hpa⟩ := hst.past
    have hof : loop.Of s := ⟨p, c, c', Lower.statement_ok.2 ⟨plan, hp, plan.emit_loop hl⟩⟩
    exact ⟨s, hs s.mem_nested, loop, hof, room, past, start, last, hst.room, hpa, hla, hf⟩
  branch _ _ _ _ hf hl := by
    rw [hf.kind] at hl
    cases hl

end

/-! ## How many rounds there are -/

theorem Eval.truthy_of_mem_dropLast {c : Eval Value} {round : Value → Eval Flow} (n : Nat) (m : Machine) :
    ∀ w ∈ (Eval.conditionValues c round n m).dropLast, w.2.truthy w.1 = true := by
  induction n generalizing m with
  | zero => nofun
  | succ n ih =>
    cases hc : c m with
    | error _ m1 =>
      rw [Eval.conditionValues_error hc]
      nofun
    | ok v m1 =>
      rw [Eval.conditionValues_ok hc]
      cases ht : m1.heap.truthy v with
      | false => nofun
      | true =>
        have hco {r : List (Value × Heap)} (hr : ∀ w ∈ r.dropLast, w.2.truthy w.1 = true) :
            ∀ w ∈ ((v, m1.heap) :: r).dropLast, w.2.truthy w.1 = true := by
          cases r with
          | nil => nofun
          | cons w r => exact forall_mem_cons.2 ⟨ht, hr⟩
        rw [if_pos rfl]
        split
        · exact hco nofun
        · split
          · exact hco (ih _)
          · exact hco nofun

theorem TracedLoop.rounds_have_blocks (h : List.Forall₂ WhileRound ws records) (hws : ∀ w ∈ ws, w.2.truthy w.1 = true) :
    ∀ x ∈ records, "block" ∈ x.sets.map (·.1) := by
  induction h with
  | nil => nofun
  | cons hro _ ih =>
    obtain ⟨hw, hre⟩ := forall_mem_cons.1 hws
    obtain ⟨e, -, hr⟩ := hro
    rw [if_pos hw] at hr
    obtain ⟨b, rfl⟩ := hr
    exact forall_mem_cons.2 ⟨mem_cons_of_mem _ mem_cons_self, ih hre⟩

/-- **A loop that ends on a condition that fails has one more round than its condition held**, and the last one has no
block. -/
theorem TracedLoop.Recorded.last_round {c : Expr} {b : List Instr} {vs : List (Value × Heap)} {w : Value × Heap}
    (h : (TracedLoop.whileLoop l c b).Recorded vs [] r)
    (hv : ∀ w ∈ vs.dropLast, w.2.truthy w.1 = true) (hla : vs.getLast? = some w)
    (hw : w.2.truthy w.1 = false) : ∃ taken z, r = ⟨.whileLoop, [("frames", (taken ++ [z]).map .frame)]⟩
      ∧ taken.length = vs.dropLast.length ∧ (∀ x ∈ taken, "block" ∈ x.sets.map (·.1)) ∧ "block" ∉ z.sets.map (·.1) := by
  obtain ⟨records, rfl, hr⟩ := h
  have hs : vs = vs.dropLast ++ [w] := (dropLast_append_getLast? w hla).symm
  rw [hs] at hr
  have ht := forall₂_take_append _ _ _ hr.flip
  have hd := forall₂_drop_append _ _ _ hr.flip
  generalize hl : records.drop vs.dropLast.length = lasts at hd
  cases hd with
  | @cons z _ _ _ hro hn =>
    cases hn
    refine ⟨records.take vs.dropLast.length, z, ?_, ht.length_eq, rounds_have_blocks ht.flip hv, ?_⟩
    · rw [← hl, take_append_drop, append_nil]
      rfl
    · obtain ⟨e, -, hre⟩ := hro
      rw [if_neg (by simp [hw])] at hre
      rw [hre]
      simp [FrameRecord.sets]

/-! ## The theorem -/

/-- **Loops are recorded round by round**, where iterations are not limited. A loop that a run comes to in traced code
opens a frame with the single child set "frames", and this holds one frame for each value that the condition came to, or
each element that was taken, in turn: such a frame starts with the value, and that of a condition has a block exactly if
the value holds. Nothing else is in the set, and nothing that is done later changes it; if an exception ends the loop,
it may be the last entry. All frames of loops in the record of a run are such frames, of loops of the script and started
in a state of the run. So where the last value of a condition does not hold, each of those before it did, and there is
one frame for each of these and one more, which has no block. -/
theorem Script.loops_counted {script : Script} {program : Program} (hcompile : script.compile = .ok program)
    (rounds : Nat) {limits : Limits} (hlimits : limits.iterations = none) (mode : Mode) (input : List String) :
    (∀ (loop : TracedLoop) (s : Statement) (place : Place) (after : List Instr) (room : Nat) (m : Machine), loop.Of s →
      Reached program rounds limits mode input room (.block place true (loop.code ++ after)) m →
      let run := Eval.execBlock (Eval.invoke rounds room) rounds loop.code m
      let values := loop.values (Eval.invoke rounds room) rounds m
      (∀ flow m', run = .ok flow m' →
        ∀ later, loop.Recorded values [] ((m'.trace.applyAll later).frame m.trace.frames.size))
      ∧ ∀ fault m', run = .error (.raised fault) m' → ∃ last, AtMostExceptionRecord last ∧ loop.Recorded values last
        ((m'.trace.logException fault.kind.name fault.message).frame m.trace.frames.size))
    ∧ (∀ execution, program.run rounds limits mode input = some execution →
      ∀ r ∈ execution.record.frames, r.kind.isLoop = true → ∃ s ∈ script.statements, ∃ loop : TracedLoop, loop.Of s ∧
          ∃ room past start last, room + start.calls.length = limits.recursion
            ∧ (Machine.ready limits mode input).Performs past start ∧ AtMostExceptionRecord last
            ∧ loop.Recorded (loop.values (Eval.invoke rounds room) rounds start) last r)
    ∧ ∀ (line : Nat) (c : Expr) (body : List Instr) (invoke : Invoke) (m : Machine) (w : Value × Heap)
        (r : FrameRecord),
      let loop := TracedLoop.whileLoop line c body
      let values := loop.values invoke rounds m
      values.getLast? = some w → w.2.truthy w.1 = false → loop.Recorded values [] r →
        (∀ v ∈ values.dropLast, v.2.truthy v.1 = true)
        ∧ ∃ taken last, r = ⟨.whileLoop, [("frames", (taken ++ [last]).map .frame)]⟩
          ∧ taken.length = values.dropLast.length ∧ (∀ x ∈ taken, "block" ∈ x.sets.map (·.1))
          ∧ "block" ∉ last.sets.map (·.1) := by
  refine ⟨fun loop s place after room m hof hreached => ?_, fun execution hrun r hr hkind => ?_,
    fun line c body invoke m w r hlast hw hrecorded => ?_⟩
  · have hends := hreached.loop_recorded hcompile hlimits hof
    exact ⟨fun flow m' hok => hends.ok hok, fun fault m' hraised => hends.raised hraised _ _⟩
  · have hexplains := script.loopLedger_explains rounds hlimits mode input
    obtain ⟨t, harena, hrecord, hframes⟩ := Script.run_recorded hcompile hexplains rfl rfl hrun
    rw [hrecord] at hr
    obtain ⟨id, hid, rfl, hkindOf⟩ := harena.mem_frames hr
    obtain ⟨s, hs, loop, hof, room, past, start, last, hroom, hpast, hlast, hframed⟩ :=
      hframes id (Nat.zero_le _) hid (hkindOf ▸ hkind)
    exact ⟨s, hs, loop, hof, room, past, start, _, hroom, hpast, hlast.record _, hframed.recorded harena⟩
  · have hvalues : ∀ v ∈ ((TracedLoop.whileLoop line c body).values invoke rounds m).dropLast, v.2.truthy v.1 = true :=
      Eval.truthy_of_mem_dropLast rounds _
    exact ⟨hvalues, hrecorded.last_round hvalues hlast hw⟩

def countdown : Script :=
  [.assignment [.name "x"] [.number (.int 2)],
    .whileLoop [.name "x"] [.assignment [.name "x"] [.name "x", .operator "-", .number (.int 1)]]]

def countdownLoop : TracedLoop :=
  .whileLoop 2 (.name "x")
    [.at 3 (.assign (.name "x") (.log (some .assignment) (.binary .sub (.name "x") (.const (.int 1)))))]

def countdownCode : Program where
  body := .at 1 (.assign (.name "x") (.log (some .assignment) (.const (.int 2)))) :: countdownLoop.code

/-- The condition of `countdown` holds twice, and its loop has three rounds. -/
theorem loops_counted_countdown : ∃ m m', countdown.compile = .ok countdownCode ∧ ({} : Limits).iterations = none
    ∧ Reached countdownCode 5 {} .command [] 1000 (.block { inLoop := false, inFunction := false } true
      (countdownLoop.code ++ [])) m ∧ Eval.execBlock (Eval.invoke 5 1000) 5 countdownLoop.code m = .ok .normal m'
    ∧ ∃ taken last, m'.trace.frame m.trace.frames.size = ⟨.whileLoop, [("frames", (taken ++ [last]).map .frame)]⟩
      ∧ taken.length = 2 ∧ (∀ x ∈ taken, "block" ∈ x.sets.map (·.1)) ∧ "block" ∉ last.sets.map (·.1) := by
  have hcompile : countdown.compile = .ok countdownCode := rfl
  have hlimits : ({} : Limits).iterations = none := rfl
  have hof : countdownLoop.Of (.whileLoop [.name "x"]
      [.assignment [.name "x"] [.name "x", .operator "-", .number (.int 1)]]) :=
    ⟨{ inLoop := false, inFunction := false }, { line := 2, serial := 0 }, { line := 4, serial := 0 }, rfl⟩
  have hcheck : Eval.endsNormally
      (Eval.exec (Eval.invoke 5 1000) 5 (.at 1 (.assign (.name "x") (.log (some .assignment) (.const (.int 2))))))
      (Machine.ready {} .command []) (fun m =>
        let values := countdownLoop.values (Eval.invoke 5 1000) 5 m
        Eval.endsNormally (Eval.execBlock (Eval.invoke 5 1000) 5 countdownLoop.code) m (fun _ => true)
          && (values.length == 3 && values.getLast?.any fun w => !w.2.truthy w.1)) = true := by decide +kernel
  obtain ⟨m, hassign, hvalues⟩ := Eval.exists_of_endsNormally hcheck
  simp only [Bool.and_eq_true, beq_iff_eq] at hvalues
  obtain ⟨hends, hlength, hlast⟩ := hvalues
  obtain ⟨m', hloop, -⟩ := Eval.exists_of_endsNormally hends
  obtain ⟨w, hw, hfalse⟩ := (Option.any_eq_true _ _).1 hlast
  obtain ⟨hrecords, -, hrounds⟩ := Script.loops_counted hcompile 5 hlimits .command []
  have hreached : Reached countdownCode 5 {} .command [] 1000
      (.block { inLoop := false, inFunction := false } true (countdownLoop.code ++ [])) m := by
    rw [List.append_nil]
    exact .next .start hassign
  have hrecorded := (hrecords countdownLoop _ _ [] 1000 m hof hreached).1 _ m' hloop []
  obtain ⟨-, taken, last, hframe, htaken, hblocks, hnone⟩ :=
    hrounds _ _ _ _ m w _ hw (by simpa using hfalse) hrecorded
  have htrue : (countdownLoop.values (Eval.invoke 5 1000) 5 m).dropLast.length = 2 := by
    rw [List.length_dropLast, hlength]
  exact ⟨m, m', hcompile, hlimits, hreached, hloop, taken, last, hframe, htaken.trans htrue, hblocks, hnone⟩

end Playback
