import Playback.Proofs.Raising

/-!
# The record of an exception

While an exception leaves the calls that were going on, each traced one records it once in its own tree of frames, and
the innermost is kept as the place where it was raised (`AbandonsAll.blamed`). The file records it last. So the record
of a run tells which traced calls were going on when the exception was raised (`Script.exception_recorded`).
-/

namespace Playback

open List Machine

open Trace (Step)

variable {fault : Fault} {t t' : Trace}

/-! ## One call -/

namespace Trace

variable {inner below : List Nat} {n : Nat} (type message : String) (index line : Nat)

/-- What an exception that leaves the innermost open call does to a trace. -/
structure Leaving (t t' : Trace) (n : Nat) (e : LastException) : Prop where
  arena : t'.Arena
  linked : t'.Linked
  detached : t'.detached = t.detached
  below : n ∉ t'.stack
  openCalls : t.openCalls = n :: t'.openCalls
  faults : ∀ r ∈ 0 :: t.filed, (t'.faults r).Perm ((if r = n then [(e.type, e.message)] else []) ++ t.faults r)
  last : t'.lastException = t.lastException.or (some e)

theorem mem_openCalls : i ∈ t.openCalls ↔ i ∈ t.stack ∧ i ∈ t.filed := by
  simp [openCalls]

theorem callsOf_congr (h : t'.detached = t.detached) (id : String) : t'.callsOf id = t.callsOf id := by
  rw [callsOf, callsOf, h]

theorem filed_congr (h : t'.detached = t.detached) : t'.filed = t.filed := by
  rw [filed, filed, h]

theorem Arena.leaving (h : t.Arena) (hl : t.Linked) (hs : t.stack = inner ++ n :: below)
    (hb : below ≠ []) (hin : ∀ i ∈ inner, i ∉ t.filed) (hn : n ∈ t.filed) :
    Leaving t (t.logCallException type message index line below.length) n
      { type, message, frameNumber := some index, lineNumber := some line } := by
  let e : LastException := { type, message, frameNumber := some index, lineNumber := some line }
  have hm := t.moves_apply (.logCallException type message index line below.length)
  obtain ⟨hd, hf⟩ := t.logCallException_keeps type message index line below.length
  have hs' : (t.logCallException type message index line below.length).stack = below := by
    have hk : ((t.logException type message).keepException e).stack = t.stack :=
      (quiet_keepException (t.logException type message) e).stack
    refine unwindTo_of_suffix hb ?_
    rw [hk, hs]
    exact (suffix_cons n below).trans (suffix_append inner _)
  have hfi := filed_congr hd
  have hri := h.rising
  rw [hs] at hri
  have ha := (pairwise_cons.1 (pairwise_append.1 hri).2.1).1
  refine ⟨h.moves hm, hl.moves h hm, hd, ?_, ?_, fun r hr => ?_, ?_⟩
  · rw [hs']
    exact fun hme => Nat.lt_irrefl n (ha n hme)
  · rw [openCalls_append hs hin hn, openCalls, hs', hfi]
  · rw [faults_congr hf]
    exact h.faults_push (mem_cons_of_mem 0 hn) (hl.top_mem_tree h hs hin) type message hr
  · exact lastException_keepException (t.logException type message) e

end Trace

/-! ## All calls -/

/-- The traced ones among the calls that an exception leaves. -/
def captured (left : List (Call × Option Nat)) : List (Call × Nat) :=
  left.filterMap fun a => a.2.map (a.1, ·)

/-- What an exception that leaves calls does to a machine, where the frames of the traced ones are given. -/
structure Blamed (fault : Fault) (left : List (Call × Option Nat)) (frames : List Nat) (m m' : Machine) : Prop where
  arena : m'.trace.Arena
  linked : m'.trace.Linked
  calls : m.calls = left.map (·.1) ++ m'.calls
  openCalls : m.trace.openCalls = frames ++ m'.trace.openCalls
  places : List.Forall₂ (fun a n => (m.trace.callsOf a.1.code.id)[a.2]? = some n) (captured left) frames
  faults : ∀ r ∈ 0 :: m.trace.filed, (m'.trace.faults r).Perm
    ((if r ∈ frames then [(fault.kind.name, fault.message)] else []) ++ m.trace.faults r)
  last : m'.trace.lastException = m.trace.lastException.or ((captured left).head?.map fun a =>
    { type := fault.kind.name, message := fault.message, frameNumber := some a.2, lineNumber := some a.1.line })

/-- **Each traced call that an exception leaves records it once**, and the innermost is kept. -/
theorem AbandonsAll.blamed {left : List (Call × Option Nat)} {m m' : Machine}
    (h : AbandonsAll fault left m m') (ha : m.trace.Arena) (hli : m.trace.Linked) :
    ∃ frames, Blamed fault left frames m m' := by
  induction h with
  | nil m =>
    exact ⟨[], ha, hli, rfl, rfl, .nil, fun r _ => .refl _, Option.or_none.symm⟩
  | @cons _ _ m _ m' hfi hre ih =>
    cases hfi with
    | plain hc =>
      obtain ⟨frames, hb⟩ := ih ha hli
      exact ⟨frames, hb.arena, hb.linked, hc.trans (congrArg (_ :: ·) hb.calls),
        hb.openCalls, hb.places, hb.faults, hb.last⟩
    | @traced call _ n below index _ _ hc hs hbe hi hf =>
      have hn := Trace.mem_filed_of_mem_callsOf (mem_of_getElem? hf)
      have hl := ha.leaving fault.kind.name fault.message index call.line hli hs hbe hi hn
      obtain ⟨frames, hb⟩ := ih hl.arena hl.linked
      have hne : n ∉ frames := fun hm => hl.below (mem_of_mem_filter (hb.openCalls ▸ mem_append_left _ hm))
      refine ⟨n :: frames, hb.arena, hb.linked, hc.trans (congrArg (_ :: ·) hb.calls), ?_,
        .cons hf (hb.places.imp fun a n hp => ?_), fun r hr => ?_, ?_⟩
      · rw [hl.openCalls]
        exact congrArg (n :: ·) hb.openCalls
      · exact (Trace.callsOf_congr hl.detached a.1.code.id) ▸ hp
      · have hre := hb.faults r ((Trace.filed_congr hl.detached) ▸ hr)
        have hh := hl.faults r hr
        refine (hre.trans (hh.append_left _)).trans (.of_eq ?_)
        by_cases hrn : r = n
        · rw [hrn, if_neg hne, if_pos rfl, if_pos mem_cons_self]
          rfl
        · simp only [mem_cons, hrn, false_or, if_false, nil_append]
      · refine hb.last.trans ?_
        rw [hl.last, Option.or_assoc]
        rfl

/-! ## Runs -/

/-- How a program ends, where an exception leaves the machine in the state in which it was raised. -/
def Program.held (program : Program) (rounds : Nat) (limits : Limits) (mode : Mode) (input : List String) :
    EStateM.Result Halt Machine Flow :=
  Eval.execBlock (Eval.hold rounds limits.recursion) rounds program.body (ready limits mode input)

/-- Among the operations that led to a state are those that began a traced call, after as many calls under its id as
are given, and opened the frame of the call. -/
def Machine.Began (limits : Limits) (m : Machine) (a : Call × Nat) (frame : Nat) : Prop :=
  ∃ past later, m.HasHistory limits
      (past ++ .beginCall a.1.code.id :: .startDetached .functionCall "body" a.1.code.id :: later)
    ∧ ((Trace.start limits).applyAll past).invocations a.1.code.id = a.2
    ∧ ((Trace.start limits).applyAll past).frames.size = frame

/-- The traced calls that are going on in a state, innermost first, each with the number of calls before it: theirs
are the frames of calls that are open. -/
structure Machine.Capturing (limits : Limits) (m : Machine) (active : List (Call × Nat)) : Prop where
  calls : (active.map (·.1)).Sublist m.calls
  frames : List.Forall₂ (m.Began limits) active m.trace.openCalls

/-- The record of a trace has an exception once in the tree of the file and once in the tree of each call that was
going on, and nowhere else, and it says which of the calls was the innermost. -/
structure Trace.Blames (t : Trace) (fault : Fault) (active : List (Call × Nat)) (frames : List Nat) : Prop where
  root : t.record.root.exceptions = [(fault.kind.name, fault.message)]
  places : List.Forall₂ (fun a n => (t.record.callsOf a.1.code.id)[a.2]? = some (t.frame n)) active frames
  calls : ∀ n ∈ frames, (t.frame n).exceptions = [(fault.kind.name, fault.message)]
  others : ∀ n ∈ t.filed, n ∉ frames → (t.frame n).exceptions = []
  last : t.record.lastException = some
    { type := fault.kind.name, message := fault.message
      frameNumber := active.head?.map (·.2), lineNumber := active.head?.map (·.1.line) }

theorem Trace.Calm.exceptions (h : Trace.Calm ss) (limits : Limits) :
    ((Trace.start limits).applyAll ss).record.exceptions = [] := by
  have hn := (Trace.notes_applyAll limits ss).flatMap_right Trace.EntryRecord.exceptions
  rw [flatMap_map] at hn
  have hno := h.allNotes (Trace.start limits)
  rw [← perm_nil, ← hno]
  refine hn.trans (.of_eq (flatMap_congr fun e _ => ?_))
  exact Trace.exceptions_entryRecord _ e

namespace Trace

theorem Arena.file_unfiled (h : t.Arena) : 0 ∉ t.filed := by
  have hn : (0 :: t.references).Nodup := h.once.nodup_iff.2 nodup_range
  exact fun hm => (nodup_cons.1 hn).1 (mem_append_right _ hm)

/-- What an exception that leaves the program does to a trace in which no call is open. -/
theorem Arena.uncaught (h : t.Arena) (hl : t.Linked) (ho : t.openCalls = []) (type message : String) :
    (t.logUncaught type message).Arena ∧ (t.logUncaught type message).detached = t.detached
      ∧ (∀ r ∈ 0 :: t.filed, ((t.logUncaught type message).faults r).Perm
        ((if r = 0 then [(type, message)] else []) ++ t.faults r))
      ∧ (t.logUncaught type message).lastException = t.lastException.or (some { type, message }) := by
  have hf : (t.logUncaught type message).frames = (t.push (.exception type message)).frames := by
    unfold Trace.logUncaught Trace.keepException
    split <;> rfl
  obtain ⟨inner, hs⟩ := getLast?_eq_some_iff.1 h.bottom
  have hin : ∀ i ∈ inner, i ∉ t.filed := fun i hi hfi => by
    have hm : i ∈ t.openCalls := mem_openCalls.2 ⟨hs ▸ mem_append_left _ hi, hfi⟩
    rw [ho] at hm
    cases hm
  refine ⟨h.moves (t.moves_logUncaught type message), ?_, fun r hr => ?_,
    lastException_keepException (t.logException type message) _⟩
  · unfold Trace.logUncaught Trace.keepException
    split <;> rfl
  · rw [faults_congr hf]
    exact h.faults_push mem_cons_self (hl.top_mem_tree h hs hin) type message hr

end Trace

section

variable {rounds : Nat} {limits : Limits} {mode : Mode} {input : List String} {raised : Machine}

theorem Machine.orderly_ready (p : FunctionCode → Prop) (limits : Limits) (mode : Mode) (input : List String) :
    (ready limits mode input).Orderly p := by
  obtain ⟨hs, -, ht, -⟩ := sound_ready limits mode input
  exact ⟨hs, ht ▸ .start limits, ht ▸ .start limits, by rw [ht]; rfl⟩

/-- The traced calls that an exception leaves are those that were going on when it was raised. -/
theorem Blamed.capturing {ss : List Step} (hs : (ready limits mode input).Performs ss raised)
    {fs : List Nat} (h : Blamed fault left fs raised m')
    (ho : m'.trace.openCalls = []) : raised.Capturing limits (captured left) where
  calls := by
    have hsu : ((captured left).map (·.1)).Sublist (left.map (·.1)) := by
      clear h
      induction left with
      | nil => exact .slnil
      | cons a r ih =>
        obtain ⟨c, q⟩ := a
        cases q with
        | none => exact ih.cons _
        | some _ => exact ih.cons_cons _
    rw [h.calls]
    exact hsu.trans (sublist_append_left _ _)
  frames := by
    obtain ⟨-, -, ht, -⟩ := sound_ready (p := fun _ => True) limits mode input
    have hr := hs.regular
    have hl := hs.hasHistory.1
    rw [ht] at hr
    rw [h.openCalls, ho, append_nil]
    refine h.places.imp fun a n hp => ?_
    rw [hl] at hp
    obtain ⟨past, later, rfl, hi, hsi⟩ := hr.begins (.start limits) (Nat.zero_le _) hp
    exact ⟨past, later, hs.hasHistory, hi, hsi⟩

theorem Machine.Falls.no_calls_open (h : (ready limits mode input).Falls rounds fault raised m')
    (ha : m'.trace.Arena) : m'.trace.openCalls = [] := by
  obtain ⟨-, -, hr, -⟩ := sound_ready (p := fun _ => True) limits mode input
  refine eq_nil_iff_forall_not_mem.2 fun i hm => ?_
  obtain ⟨hi, hf⟩ := Trace.mem_openCalls.1 hm
  rcases h.stack i hi with hi | hi
  · rw [hr] at hi
    obtain rfl := mem_singleton.1 hi
    exact ha.file_unfiled hf
  · exact hi hf

/-- **The record of an exception names the calls that it left.** -/
theorem Machine.Falls.blames {m' : Machine} (h : (ready limits mode input).Falls rounds fault raised m') :
    ∃ active, raised.Capturing limits active
      ∧ (m'.trace.logUncaught fault.kind.name fault.message).Blames fault active raised.trace.openCalls := by
  obtain ⟨steps, hst, hca⟩ := h.history
  obtain ⟨left, hl⟩ := h.abandons
  have hh := hst.hasHistory.1
  have hm := (Trace.start limits).moves_applyAll steps
  have ha : raised.trace.Arena := hh ▸ (Trace.Arena.start limits).moves hm
  have hli : raised.trace.Linked := hh ▸ (Trace.Linked.start limits).moves (.start limits) hm
  have hno : ∀ r, raised.trace.faults r = [] := fun r => hh ▸ hca.faults limits r
  have hla : raised.trace.lastException = none := by
    rw [hh, hca.lastException]
    rfl
  obtain ⟨frames, hb⟩ := hl.blamed ha hli
  have ho := h.no_calls_open hb.arena
  have hfr : raised.trace.openCalls = frames := by rw [hb.openCalls, ho, append_nil]
  have hf : ∀ n ∈ frames, n ∈ raised.trace.filed := fun n hn =>
    (Trace.mem_openCalls.1 (hfr ▸ hn)).2
  refine ⟨captured left, hb.capturing hst ho, ?_⟩
  rw [hfr]
  obtain ⟨ha', hd, hfa, hla'⟩ := hb.arena.uncaught hb.linked ho fault.kind.name
    fault.message
  have hs := hd.trans hl.detached
  have hro : ∀ r ∈ 0 :: raised.trace.filed,
      ((m'.trace.logUncaught fault.kind.name fault.message).frame r).exceptions.Perm
        ((if r = 0 then [(fault.kind.name, fault.message)] else [])
          ++ if r ∈ frames then [(fault.kind.name, fault.message)] else []) := fun r hr => by
    have hpe := (hfa r (Trace.filed_congr hl.detached ▸ hr)).trans ((hb.faults r hr).append_left _)
    rw [hno, append_nil] at hpe
    rwa [ha'.exceptions_frame (ha'.root_lt (Trace.filed_congr hs ▸ hr))]
  have hfi : ∀ n ∈ raised.trace.filed, n ≠ 0 := fun n hn h0 => ha.file_unfiled (h0 ▸ hn)
  refine ⟨?_, hb.places.imp fun a n hp => ?_, fun n hn => ?_, fun n hn hot => ?_, ?_⟩
  · have hrt := hro 0 mem_cons_self
    rw [if_neg fun h0 => hfi 0 (hf 0 h0) rfl] at hrt
    exact perm_singleton.1 hrt
  · rw [Trace.record_callsOf, getElem?_map, Trace.callsOf_congr hs, hp]
    rfl
  · have hc := hro n (mem_cons_of_mem _ (hf n hn))
    rw [if_pos hn, if_neg (hfi n (hf n hn))] at hc
    exact perm_singleton.1 hc
  · rw [Trace.filed_congr hs] at hn
    have hc := hro n (mem_cons_of_mem _ hn)
    rw [if_neg hot, if_neg (hfi n hn)] at hc
    exact perm_nil.1 hc
  · refine hla'.trans ?_
    rw [hb.last, hla]
    cases captured left with
    | nil | cons => rfl

end

/-- **The record tells of the exception that ends a run.** Whatever script is run, and within whatever limits: if a run
ends with an exception, then of the traced calls that were going on when it was raised, each has the exception once in
its own tree of frames, the file has it once in its tree, and there is no other; and the last exception is of its type
and has its message, and names the innermost of these calls by the number of calls before it, which is its place on
file, with the line that it had reached, or nothing if there were none. If a run ends without an exception there is
none in the record. -/
theorem Script.exception_recorded {script : Script} {program : Program} (hcompile : script.compile = .ok program)
    (rounds : Nat) (limits : Limits) (mode : Mode) (input : List String) :
    match program.held rounds limits mode input with
    | .ok _ _ => ∃ execution, program.run rounds limits mode input = some execution
      ∧ execution.record.exceptions = [] ∧ execution.record.lastException = none
    | .error (.raised fault) raised => ∃ (execution : Execution) (t : Trace) (active : List (Call × Nat)),
      program.run rounds limits mode input = some execution ∧ execution.record = t.record
        ∧ raised.Capturing limits active ∧ t.Blames fault active raised.trace.openCalls
    | .error .capacity _ => program.run rounds limits mode input = some (.failure limits "capacity overflow")
    | .error .exhausted _ => program.run rounds limits mode input = none := by
  have hcodes := Script.compile_lowered hcompile
  have htold := (tells_lockstep Lower.Lowered).execBlock (hold_tells (fun _ h => h.hasBodies) rounds limits.recursion)
    rounds program.body hcodes (fun _ _ => trivial) _ (Machine.orderly_ready _ limits mode input)
  unfold Program.held Program.run
  dsimp only
  generalize Eval.execBlock (Eval.invoke rounds limits.recursion) rounds program.body
    (Machine.ready limits mode input) = x at htold ⊢
  generalize Eval.execBlock (Eval.hold rounds limits.recursion) rounds program.body
    (Machine.ready limits mode input) = y at htold ⊢
  cases htold with
  | @ok _ m _ hpasses =>
    obtain ⟨_, hsteps, hcalm⟩ := hpasses.history
    have htrace := hsteps.hasHistory.1
    refine ⟨_, rfl, ?_, ?_⟩
    · change m.trace.record.exceptions = []
      rw [htrace]
      exact hcalm.exceptions limits
    · change m.trace.lastException = none
      rw [htrace, hcalm.lastException]
      rfl
  | raised hfalls =>
    obtain ⟨active, hactive, hblames⟩ := hfalls.blames
    exact ⟨_, _, active, rfl, rfl, hactive, hblames⟩
  | @stopped halt hhalt _ _ =>
    cases halt with
    | raised fault => exact absurd rfl (hhalt fault)
    | capacity => rfl
    | exhausted => rfl

/-- A function that calls what it is called with, called with itself. -/
def selfCall : Script :=
  [.function "f" none ["x"] [.return_ [.call "x" [.positional [.name "x"]]]],
    .expression [.call "f" [.positional [.name "f"]]]]

def selfCallCode : Program where
  body :=
    [.at 1 (.define (.mk 0 "f" "f" ["x"] ["x"]
        [.at 2 (.return_ (.logEnd .return_ .functionCall (.call (.name "x") [.name "x"] []))), .at 1 .endFrame]
        [.at 2 (.return_ (.call (.name "x") [.name "x"] []))])),
      .at 3 (.eval (.log (some .expression) (.call (.name "f") [.name "f"] [])))]

/-- Two calls are traced, and three may be nested. -/
def selfCallLimits : Limits := { tracedCalls := 2, recursion := 3 }

/-- The fourth call is refused: of the three that are going on, the outer two are traced. -/
theorem selfCall_held : ∃ raised,
    selfCallCode.held 1 selfCallLimits .command [] = .error (.raised .recursionLimit) raised
      ∧ raised.calls.length = 3 ∧ raised.trace.openCalls = [2, 1] :=
  ⟨_, rfl, rfl, rfl⟩

/-- The record of `selfCall` names the two calls that are traced, and says that the second was the innermost. -/
theorem exception_recorded_selfCall : ∃ raised,
    selfCallCode.held 1 selfCallLimits .command [] = .error (.raised .recursionLimit) raised
      ∧ raised.calls.length = 3 ∧ raised.trace.openCalls = [2, 1]
      ∧ ∃ (execution : Execution) (t : Trace) (active : List (Call × Nat)),
        selfCallCode.run 1 selfCallLimits .command [] = some execution ∧ execution.record = t.record
          ∧ raised.Capturing selfCallLimits active ∧ t.Blames .recursionLimit active raised.trace.openCalls := by
  have hcompile : selfCall.compile = .ok selfCallCode := rfl
  obtain ⟨raised, hheld, hcalls, hopen⟩ := selfCall_held
  have hrecorded := Script.exception_recorded hcompile 1 selfCallLimits .command []
  rw [hheld] at hrecorded
  exact ⟨raised, hheld, hcalls, hopen, hrecorded⟩
end Playback
