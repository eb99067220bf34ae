import Playback.Proofs.Branches
import Playback.Proofs.Raising

/-!
# Ledgers of whole runs

A ledger is kept in the traced code of every plan (`plan_traces`) if it says what it should of the loops and
conditionals of the plan (`Explains`), and in calls nested to any depth (`invoke_sparing`). So of the frames of a run
all that the ledger says holds, or what it says after an exception if the run raises one.
-/

namespace Playback

open Eval List
open Lower (Plan Links Place Lowered emitAll FitAll iterationBody)

variable {d : FunctionCode} {i : List String} {j : Nat} {ls : Scope} {m m' m1 : Machine} {md : Mode}
  {origin : Plan → Prop} {ps : List Plan}

variable {q pl : Place}

/-! ## The parts of a plan -/

namespace Lower

mutual

/-- A plan and the plans inside it. -/
def Plan.parts : Plan → List Plan
  | plan@(.conditional _ _ body links) => plan :: (partsAll body ++ links.parts)
  | plan@(.whileLoop _ _ body) | plan@(.forLoop _ _ _ body) => plan :: partsAll body
  | plan => [plan]

def partsAll : List Plan → List Plan
  | [] => []
  | plan :: rest => plan.parts ++ partsAll rest

def Links.parts : Links → List Plan
  | .done => []
  | .elif _ _ body rest => partsAll body ++ rest.parts
  | .else_ _ body => partsAll body

end

def Plan.loop? : Plan → Option TracedLoop
  | .whileLoop line c body => some (.whileLoop line c (emitAll true body))
  | .forLoop line t e body => some (.forLoop line t e (emitAll true body))
  | _ => none

def Plan.branch? : Plan → Option TracedIf
  | .conditional line c body links => some ⟨line, c, emitAll true body, links⟩
  | _ => none

end Lower

namespace Ledger

/-- The ledger says what it should of the frames of loops and conditionals with plans of some origin. -/
structure Explains (l : Ledger) (p : FunctionCode → Prop) (origin : Plan → Prop) : Prop where
  loop {plan : Plan} {loop : TracedLoop} {j : Nat} {m : Machine} {last : List Trace.Entry} {t : Trace} :
    origin plan → plan.loop? = some loop → l.InRun p j m → AtMostException last →
    loop.Framed (loop.values (Eval.invoke l.rounds j) l.rounds m) last t m.trace.frames.size →
    l.holds true t m.trace.frames.size
  branch {plan : Plan} {branch : TracedIf} {j : Nat} {m m1 : Machine} {v : Value} {t : Trace} :
    origin plan → plan.branch? = some branch → l.InRun p j m →
    Eval.eval (Eval.invoke l.rounds j) branch.condition (m.setLine branch.line) = .ok v m1 →
    BranchFramed (!branch.links.isDone) (v, m1.heap) (branch.comes (Eval.invoke l.rounds j) v m1) t
      m1.trace.frames.size →
    l.holds true t m1.trace.frames.size

/-- The calls that code with some room makes keep the ledger, and it explains the plans of the code. -/
structure Serves (l : Ledger) (p : FunctionCode → Prop) (origin : Plan → Prop) (j : Nat) : Prop where
  settles : (Eval.invoke l.rounds j).Settles p
  spares : Evaluates.Calls p (l.Sparing p j) (Eval.invoke l.rounds j)
  explains : l.Explains p origin

section

variable {l : Ledger} {p : FunctionCode → Prop}

theorem logged_noting (hl : l.Serves p origin j) (he : e.Plain) (k : Trace.Kind) :
    l.Noting p j (eval (Eval.invoke l.rounds j) (Lower.logged true k e)) (·.Holds p) := by
  refine ((l.sparing_runs p j).eval hl.spares e (.inl he)).noting.bind fun v hv => ?_
  exact (Noting.log (some k) v).bind fun _ _ => .pure hv

theorem Traces.keeps (hl : l.Serves p origin j)
    (h : l.Traces p j (execBlock (Eval.invoke l.rounds j) l.rounds (emitAll true ps))) (hf : FitAll p q ps) :
    l.Keeps p j q (execBlock (Eval.invoke l.rounds j) l.rounds (emitAll true ps)) :=
  ⟨plans_obey hl.settles l.rounds hf, .execBlock (invoke_records _ _) _ _, h⟩

theorem import_traces {k : Trace.Kind} (hki : k.isControl = false) (ln : Nat) {action : Action}
    {x : Eval Unit} (ha : execAction (Eval.invoke l.rounds j) l.rounds action = x >>= fun _ => pure .normal)
    (hs : Stays p x fun _ => True) (hn : l.Noting p j x fun _ => True) :
    l.Traces p j (execBlock (Eval.invoke l.rounds j) l.rounds (Lower.framed true k ln action)) := by
  have hk : l.Keeps p j .function
      (execBlock (Eval.invoke l.rounds j) l.rounds [.at ln action]) := by
    refine ⟨.single ?_ ln, .execBlock (invoke_records _ _) _ _, .single ?_ ln⟩
    · rw [ha]
      exact .normal hs
    · rw [ha]
      exact .normal hn
  exact .framed hk ln hki "import"

theorem loop_traces (hl : l.Serves p origin j) {q : Plan} (loop : TracedLoop) (hp : q.loop? = some loop) (ho : origin q)
    (hlo : l.LoopFits p j pl (Eval.invoke l.rounds j) l.rounds loop) :
    l.Traces p j (execBlock (Eval.invoke l.rounds j) l.rounds loop.code) := by
  intro m hm
  refine (loop_ends hl.spares hm hlo).mono ?_ ?_
  · rintro _ m' ⟨ha, hf, hs⟩
    exact ⟨ha, hs (hl.explains.loop ho hp hm (.inl rfl) hf)⟩
  · rintro m' ⟨ha, hf, hu⟩
    refine ⟨ha, hu fun type msg => ?_⟩
    obtain ⟨z, hla, hf⟩ := hf type msg
    exact l.of_well (hl.explains.loop ho hp hm hla hf)

mutual

/-- **The ledger is kept in traced code.** -/
theorem plan_traces (hl : l.Serves p origin j) {pl : Place} {q : Plan} (hf : q.Fits p pl)
    (hp : ∀ part ∈ q.parts, origin part) :
    l.Traces p j (execBlock (Eval.invoke l.rounds j) l.rounds (q.emit true)) := by
  match q with
  | .skip =>
    exact .nil l.rounds
  | .eval ln e =>
    refine .single ?_ ln
    exact .normal (logged_noting hl hf .expression)
  | .assign ln t e =>
    refine .single ?_ ln
    rw [execAction, ← bind_assoc]
    exact .normal ((logged_noting hl hf.2 .assignment).bind fun v hv =>
      ((l.sparing_runs p j).assign hl.spares t (.inl hf.1) (fun _ _ => trivial) hv).noting)
  | .conditional ln c b ks =>
    obtain ⟨hc, hbd, hlk⟩ := hf
    obtain ⟨ho, hi⟩ := forall_mem_cons.1 hp
    obtain ⟨hbo, hln⟩ := forall_mem_append.1 hi
    intro m hm
    have hbl := plans_trace hl hbd hbo
    have hch := links_count hl hlk hln
    refine (branch_end ⟨ln, c, emitAll true b, ks⟩ hl.spares hm hc (hbl.keeps hl hbd) hch).mono ?_ fun _ h => h
    rintro _ _ ⟨ha, v, _, he, hfr, hs⟩
    exact ⟨ha, hs (hl.explains.branch ho rfl hm he hfr)⟩
  | .whileLoop ln c b =>
    obtain ⟨ho, hi⟩ := forall_mem_cons.1 hp
    have hr := plans_trace hl hf.2 hi
    exact loop_traces hl (.whileLoop ln c (emitAll true b)) rfl ho ⟨hf.1, hr.keeps hl hf.2⟩
  | .forLoop ln t e b =>
    obtain ⟨ho, hi⟩ := forall_mem_cons.1 hp
    have hr := plans_trace hl hf.2.2 hi
    exact loop_traces hl (.forLoop ln t e (emitAll true b)) rfl ho ⟨hf.1, hf.2.1, hr.keeps hl hf.2.2⟩
  | .define ln d =>
    refine .single ?_ ln
    exact .normal ((l.sparing_runs p j).store _ trivial (.function hf)).noting
  | .return_ ln e =>
    exact .return_ hl.spares l.rounds ln hf.2
  | .break_ ln =>
    exact .leaveLoop l.rounds ln .break_ (by rw [execAction])
  | .continue_ ln =>
    exact .leaveLoop l.rounds ln .continue_ (by rw [execAction])
  | .import_ ln modules =>
    exact import_traces rfl ln (by rw [execAction]) (importAll_stays modules)
      ((l.sparing_runs p j).importAll modules fun _ _ => trivial).noting
  | .fromImport ln module ns =>
    refine import_traces rfl ln (by rw [execAction, ← bind_assoc])
      ((loadModule_stays module).bind fun lb _ => importNames_stays lb module ns) ?_
    exact ((l.sparing_runs p j).loadModule module).noting.bind fun lb _ =>
      ((l.sparing_runs p j).importNames lb module ns fun _ _ => trivial).noting

theorem plans_trace (hl : l.Serves p origin j) {q : Place} {ps : List Plan} (hf : FitAll p q ps)
    (hpa : ∀ part ∈ Lower.partsAll ps, origin part) :
    l.Traces p j (execBlock (Eval.invoke l.rounds j) l.rounds (emitAll true ps)) := by
  match ps with
  | [] =>
    exact .nil l.rounds
  | plan :: r =>
    obtain ⟨hp, hr⟩ := forall_mem_append.1 hpa
    rw [emitAll, execBlock_append]
    exact .andThen ⟨plan_obeys hl.settles l.rounds hf.1, .execBlock (invoke_records _ _) _ _, plan_traces hl hf.1 hp⟩
      ((plans_trace hl hf.2 hr).keeps hl hf.2)

theorem links_count (hl : l.Serves p origin j) {q : Place} {ks : Links} (hf : ks.Fit p q)
    (hp : ∀ part ∈ ks.parts, origin part) (m : Machine) (hm : l.InRun p j m) : l.LinksCount (Eval.invoke l.rounds j) l.rounds ks m := by
  match ks with
  | .done =>
    exact ⟨[], rfl, .nil (.refl hm.sound) (.of_size (Nat.le_refl _))⟩
  | .elif ln c b r =>
    obtain ⟨hbo, hr⟩ := forall_mem_append.1 hp
    have hb := plans_trace hl hf.2.1 hbo
    exact elif_counted hm hl.spares hf.1 ln (hb.keeps hl hf.2.1) (links_count hl hf.2.2 hr)
  | .else_ ln b =>
    have hb := plans_trace hl hf hp
    exact else_counted hm (hb.keeps hl hf) ln

end

end

end Ledger

/-! ## Calls -/

theorem Trace.Arena.le_top {t : Trace} (h : t.Arena) {id : Nat} (hid : id ∈ t.stack) : id ≤ t.top := by
  have hr := h.rising
  unfold Trace.top
  cases hs : t.stack with
  | nil => exact absurd (hs ▸ hid) not_mem_nil
  | cons _ r =>
    rw [hs] at hid hr
    rcases mem_cons.1 hid with rfl | hre
    · exact Nat.le_refl _
    · exact Nat.le_of_lt ((pairwise_cons.1 hr).1 id hre)

namespace Machine

variable {p : FunctionCode → Prop}

theorem alters_called (hm : m.Sound p) (d : FunctionCode) (ls : Scope) : m.trace.Alters id (m.called d ls).trace := by
  have ho := Trace.alters_openFrame m.trace hm.trace.top_lt .functionCall "body"
  unfold Machine.called
  cases m.traces d with
  | false => exact .of_frames rfl fun _ hid => hid
  | true => exact ho.close rfl fun _ hid => hid

theorem size_called (ht : m.traces d = true) (ls : Scope) :
    (m.called d ls).trace.frames.size = m.trace.frames.size + 1 := by
  simp [Machine.called, ht, Trace.startDetached, Trace.openFrame, Trace.beginCall]

theorem kind_called (ht : m.traces d = true) (ls : Scope) :
    (m.called d ls).trace.kindOf m.trace.frames.size = .functionCall := by
  simp [Machine.called, ht, Trace.startDetached, Trace.openFrame, Trace.beginCall, Trace.kindOf, Trace.Frame.open]

end Machine

theorem runCall_ends (t : Bool) {q e : Machine → Prop} (hb : Ends (run (d.body t)) m (fun _ => q) e) (i n : Nat) :
    Ends (runCall run d t i n) m (fun _ m' => ∃ m1, q m1 ∧ m' = m1.returned t n)
      fun m' => ∃ m1 r f l, e m1 ∧ m' = m1.failed r t f i l n := by
  cases hr : run (d.body t) m with
  | ok _ m1 =>
    unfold Ends
    rw [runCall_ok hr]
    exact ⟨m1, hb.ok hr, rfl⟩
  | error halt m1 =>
    cases halt with
    | raised f =>
      obtain ⟨l, hp⟩ := popCall_eq m1
      unfold Ends
      rw [runCall_raised hr hp]
      exact ⟨m1, _, f, l, hb.raised hr, rfl⟩
    | capacity | exhausted =>
      have hst : ∃ m', runCall run d t i n m = .error _ m' := runCall_stopped (by nofun) hr
      obtain ⟨m', hs⟩ := hst
      unfold Ends
      rw [hs]
      trivial

namespace Ledger

variable {l : Ledger} {p : FunctionCode → Prop}

/-- The traced body of a function is the code of plans with an origin. -/
def TracedFrom (origin : Plan → Prop) (p : FunctionCode → Prop) (d : FunctionCode) : Prop :=
  ∃ ps, FitAll p .function ps ∧ (∀ part ∈ Lower.partsAll ps, origin part)
    ∧ d.traced = emitAll true ps ++ [.at 1 .endFrame]

theorem InRun.called (hm : l.InRun p (j + 1) m) (d : FunctionCode) (hl : ∀ x ∈ ls, x.2.Holds p) :
    l.InRun p j (m.called d ls) := by
  obtain ⟨past, hp⟩ := hm.past
  have hs := m.called_performs d ls
  refine ⟨hm.sound.called d hl, ?_, _, hp.trans hs⟩
  have hr := hm.room
  change j + (m.calls.length + 1) = _
  omega

section

variable (hm : m.Sound p) (ht : m.traces d = true)

include ht

theorem top_called (ls : Scope) : (m.called d ls).trace.top = m.trace.frames.size := by
  rw [Trace.top, m.stack_called ht ls]
  rfl

theorem call_settled (hl : (m.called d ls).Later p m1) (hs : l.Settled (m.called d ls) m1) : l.Settled m m1 := by
  have hsi := m.size_called ht ls
  rw [Settled, hsi] at hs
  refine .cons (l.other ?_) hs
  rw [hl.frames.kind _ (by omega), m.kind_called ht ls]
  rfl

include hm

theorem alters_body (had : (m.called d ls).Adds m1) : m.trace.Alters id m1.trace := by
  obtain ⟨_, ha⟩ := had
  exact (m.alters_called hm d ls).inside hm.trace.top_lt (Nat.le_of_eq (top_called ht ls).symm) ha

/-- The exception that leaves a traced call is recorded inside it, and what the callers record is outside. -/
theorem call_upset (hl : (m.called d ls).Later p m1) (hu : l.Upset (m.called d ls) m1)
    (type msg : String) (hf : m'.trace.frames = (m1.trace.logException type msg).frames)
    (hs : m'.trace.stack = m.trace.stack) : l.Upset m m' := by
  have hsi := m.size_called ht ls
  have hto : m'.trace.top < m.trace.frames.size := by
    rw [Trace.top, hs]
    exact hm.trace.top_lt
  have hc : l.Covers false m.trace.frames.size (m1.trace.logException type msg) := by
    refine .cons (l.of_well (l.other ?_)) (hsi ▸ hu type msg)
    have hk := (hl.frames.trans (m1.trace.quiet_push (.exception type msg)).extends_).kind
      m.trace.frames.size (by omega)
    rw [m.kind_called ht ls] at hk
    exact congrArg Trace.Kind.isControl hk
  intro type' msg' id hlo hhi
  have hid := Nat.lt_of_lt_of_eq hhi (Array.size_modify.trans (congrArg Array.size hf))
  refine l.later (hc id hlo hid) hid fun i hi hlt => ?_
  rw [← hf] at hlt ⊢
  exact (m'.trace.alters_push (.exception type' msg')).others i hlt (by omega)

end

section

variable (hl : l.Serves p origin j)

include hl

theorem tracedBody_traces (hco : TracedFrom origin p d) (hm : l.InRun p j m) :
    Ends (execBlock (Eval.invoke l.rounds j) l.rounds d.traced) m
      (fun _ m1 => m.Later p m1 ∧ m.Adds m1 ∧ l.Settled m m1)
      fun m1 => Breaks p m m1 ∧ m.Adds m1 ∧ l.Upset m m1 := by
  obtain ⟨ps, hfi, hp, hb⟩ := hco
  have hk := (plans_trace hl hfi hp).keeps hl hfi
  rw [hb, execBlock_append]
  refine (hk.ends hm).andThen ?_ fun _ _ _ h => ⟨h.1.later, h.2.2⟩
  rintro m1 ⟨hle, -, ha, hs⟩
  have hcl := exec_endFrame (Eval.invoke l.rounds j) l.rounds 1 m1
  have hla := ((endFrame_later l.rounds 1 hle.later.sound fun _ => True).ok hcl).2
  have hf := m1.closeFrame_frames 1
  exact ⟨hle.later.trans hla, ha.close hf (m1.closeFrame_stack 1), hs.close hf⟩

/-- A call leaves the frames alone that were there before it. -/
theorem runCall_spares (hbd : HasBodies p d) (hco : TracedFrom origin p d) (hm : l.InRun p (j + 1) m)
    (hlc : ∀ x ∈ ls, x.2.Holds p) (i : Nat) :
    Ends (runCall (execBlock (Eval.invoke l.rounds j) l.rounds) d (m.traces d) i m.trace.depth)
      (m.called d ls) (fun _ m' => m'.trace.stack = m.trace.stack → m.trace.Alters id m'.trace ∧ l.Settled m m')
      fun m' => m'.trace.stack = m.trace.stack → m.trace.Alters id m'.trace ∧ l.Upset m m' := by
  have hin := hm.called d hlc
  have ha := m.alters_called hm.sound d ls
  cases ht : m.traces d with
  | true =>
    have hr := (Records.execBlock (invoke_records l.rounds j) l.rounds d.traced).ends (m.called d ls)
    have hbo := (tracedBody_traces hl hco hin).and hr
    refine (runCall_ends true hbo i m.trace.depth).mono ?_ ?_
    · rintro - m' ⟨m1, ⟨⟨hla, had, hs⟩, -⟩, rfl⟩ -
      refine ⟨(alters_body hm.sound ht had).close rfl ?_, (call_settled ht hla hs).close rfl⟩
      exact fun _ => mem_of_mem_drop
    · rintro m' ⟨m1, r, e, ln, ⟨⟨hb, had, hu⟩, hp⟩, rfl⟩ hst
      have hf : (m1.failed r true e i ln m.trace.depth).trace.frames
          = (m1.trace.logException e.kind.name e.message).frames :=
        Trace.keepException_frames _ _
      refine ⟨?_, call_upset hm.sound ht hb.later hu _ _ hf hst⟩
      -- the frame of the call is still open, so the exception is recorded in it or further inside
      have ho : m.trace.frames.size ≤ m1.trace.top := by
        refine (hin.later hb.later hp).arena.le_top (hb.stack.subset ?_)
        rw [m.stack_called ht ls]
        exact mem_cons_self
      have hpu := m1.trace.alters_push (.exception e.kind.name e.message)
      have ha := (alters_body hm.sound ht had).inside hm.sound.trace.top_lt ho hpu
      refine ha.close hf fun id hid => ?_
      have hid := mem_of_mem_drop hid
      rwa [(Trace.quiet_keepException _ _).stack] at hid
  | false =>
    obtain ⟨ps, hfi, hbo⟩ := hbd.plain
    have hpl := (l.sparing_runs p j).plans hl.spares l.rounds hfi _ hin
    rw [← hbo] at hpl
    have hsi : (m.called d ls).trace.frames.size = m.trace.frames.size := by
      unfold Machine.called
      rw [ht]
      rfl
    have hto : (m.called d ls).trace.top = m.trace.top := by
      unfold Machine.called
      rw [ht]
      rfl
    refine (runCall_ends false (hpl.mono (fun _ _ h => h.2) fun _ h => h) i m.trace.depth).mono ?_ ?_
    · rintro - m' ⟨m1, ⟨hn, hs⟩, rfl⟩ -
      rw [Settled, hsi] at hs
      exact ⟨ha.trans hto hn.alters, hs⟩
    · rintro m' ⟨m1, r, e, ln, ⟨hn, hu⟩, rfl⟩ hst
      exact ⟨ha.trans hto hn.alters, fun type msg => hsi ▸ hu type msg⟩

/-- **A call changes no frame that was there**, and of those that it opens the ledger is kept. -/
theorem callWith_sparing {as : List Value} {ks : Keywords} (hb : HasBodies p d) (hc : TracedFrom origin p d)
    (har : RowHolds p as) (hk : ∀ k ∈ ks, k.2.Holds p) :
    l.Sparing p (j + 1) (callWith (execBlock (Eval.invoke l.rounds j) l.rounds) d as ks) (·.Holds p) := by
  intro m hm
  have hse := callWith_settles hl.settles l.rounds hb har hk m hm.sound
  have hr := (Records.callWith (.execBlock (invoke_records l.rounds j) l.rounds) d as ks).ends m
  have hca : Ends (callWith (execBlock (Eval.invoke l.rounds j) l.rounds) d as ks) m
      (fun _ m' => m'.trace.stack = m.trace.stack → m.trace.Alters id m'.trace ∧ l.Settled m m')
      fun m' => m'.trace.stack = m.trace.stack → m.trace.Alters id m'.trace ∧ l.Upset m m' := by
    unfold Ends
    cases hbi : d.bind as ks with
    | error e =>
      rw [callWith_error hbi]
      exact fun _ => ⟨.refl _, .of_size (Nat.le_refl _)⟩
    | ok ls =>
      rw [callWith_ok hbi]
      exact runCall_spares hl hb hc hm (d.bind_holds har hk ls hbi) _
  refine (hse.and (hr.and hca)).mono ?_ ?_
  · rintro v m' ⟨⟨hv, hs⟩, hp, he⟩
    obtain ⟨ha, hst⟩ := he hs.trace.stack
    exact ⟨hv, ⟨hs.level, hp, ha⟩, hst⟩
  · rintro m' ⟨hs, hp, he⟩
    obtain ⟨ha, hu⟩ := he hs.trace.stack
    exact ⟨⟨hs.level, hp, ha⟩, hu⟩

end

/-- **Calls keep the ledger**, however deep they are nested. -/
theorem Explains.serves (he : l.Explains p origin) (hp : ∀ d, p d → HasBodies p d)
    (hf : ∀ d, p d → TracedFrom origin p d) (j : Nat) : l.Serves p origin j := by
  refine ⟨invoke_settles hp l.rounds j, ?_, he⟩
  induction j with
  | zero => exact fun _ _ _ _ _ _ => (l.sparing_runs p 0).throw _
  | succ j ih =>
    exact fun d _ _ hc ha hk =>
      callWith_sparing ⟨invoke_settles hp l.rounds j, ih, he⟩ (hp d hc) (hf d hc) ha hk

/-! ## Runs -/

/-- **A run keeps the ledger**: what it says holds of every frame, and after an exception what it says then. -/
theorem run_settles {lim : Limits}
    (he : l.Explains p origin) (hst : l.start = Machine.ready lim md i) (hp : ∀ d, p d → HasBodies p d)
    (hfr : ∀ d, p d → TracedFrom origin p d) (hf : FitAll p q ps)
    (hpa : ∀ part ∈ Lower.partsAll ps, origin part) :
    Ends (execBlock (Eval.invoke l.rounds l.recursion) l.rounds (emitAll true ps)) l.start
      (fun _ m' => l.Covers true 0 m'.trace) fun m' => ∀ type msg, l.Covers false 0 (m'.trace.logException type msg) := by
  have hl := he.serves hp hfr l.recursion
  have hke := (plans_trace hl hf hpa).keeps hl hf
  obtain ⟨hs, hca, htr, -⟩ := Machine.sound_ready lim md i
  rw [← hst] at hs hca htr
  have hr : l.InRun p l.recursion l.start := ⟨hs, by rw [hca]; rfl, [], .refl _⟩
  have hsi : l.start.trace.frames.size = 1 := by rw [htr]; rfl
  have hk : l.start.trace.kindOf 0 = .file := by rw [htr]; rfl
  refine (hke.ends hr).mono ?_ ?_
  · rintro _ m' ⟨hle, -, -, hse⟩
    rw [Settled, hsi] at hse
    refine .cons (l.other ?_) hse
    rw [hle.later.frames.kind 0 (by omega), hk]
    rfl
  · rintro m' ⟨hb, -, hu⟩ type msg
    have hla := hb.later.frames.trans (m'.trace.quiet_push (.exception type msg)).extends_
    rw [Upset, hsi] at hu
    refine .cons (l.of_well (l.other ?_)) (hu type msg)
    exact congrArg Trace.Kind.isControl ((hla.kind 0 (by omega)).trans hk)

/-! ## States that a run comes to -/

/-- A ledger that says nothing, from a state on. -/
def blank (rounds : Nat) {m : Machine} (hl : m.trace.iterationLimit = none) (ha : m.trace.Arena)
    (recursion : Nat) : Ledger where
  rounds
  start := m
  unlimited := hl
  arena := ha
  recursion
  holds _ _ _ := True
  later _ _ _ := trivial
  of_well _ := trivial
  other _ := trivial
  conditional _ := trivial

theorem blank_serves (n : Nat) (hl : m.trace.iterationLimit = none) (ha : m.trace.Arena)
    (recursion j : Nat) : (blank n hl ha recursion).Serves Lowered (fun _ => True) j := by
  have he : (blank n hl ha recursion).Explains Lowered fun _ => True :=
    ⟨fun _ _ _ _ _ => trivial, fun _ _ _ _ _ => trivial⟩
  refine he.serves (fun _ hc => hc.hasBodies) (fun _ hc => ?_) j
  obtain ⟨ps, hf, hb⟩ := hc.hasBodies.traced
  exact ⟨ps, hf, fun _ _ => trivial, hb⟩

end Ledger

theorem Reached.inRun {s : Script} (hc : s.compile = .ok p) (hl : l.iterations = none) (h : Reached p n l md i j t m) :
    (Ledger.blank n (h.iterationLimit.trans hl) h.arena l.recursion).InRun Lowered j m :=
  ⟨(h.fine hc).sound, (h.fine hc).room, [], .refl m⟩

/-- Frames that code has opened and left are closed, and stay as they are whatever is done afterwards. -/
theorem Leaves.frames_kept (hm : m.Sound p) (h : Leaves p q m f m') (ha : m'.trace.Arena) (later : List Trace.Step) :
    m'.trace.SameFrom m.trace.frames.size (m'.trace.applyAll later) := by
  intro i hlo hi
  have hs : m'.trace.stack ⊆ m.trace.stack := by
    rw [h.stack]
    cases f with
    | normal => exact List.Subset.refl _
    | break_ | continue_ => exact (Trace.unwindToLoop_suffix _ _).subset
    | return_ v => exact (Trace.unwindThrough_suffix _ _ _).subset
  refine (ha.closed_moves (m'.trace.moves_applyAll later) hi fun ho => ?_).1
  exact Nat.not_lt.2 hlo (hm.trace.known i (hs ho))

end Playback
