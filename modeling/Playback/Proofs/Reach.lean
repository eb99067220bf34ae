import Playback.Proofs.Standing

/-!
# Reachable states

`Reached` lists what a run may come to do, and in which state: from the first instruction of the file to the next one,
into the parts of an instruction, of an expression and of an assignment, into the rounds of a loop and into the body of
a call. In all of these states the code that is left fits the frames that are open (`Reached.fits`), and the calls going
on and those that may still be nested make up the limit (`Reached.room`).
-/

namespace Playback

open Lower (Plan Links Place Lowered emitAll iterationBody)
open List (forall_mem_append forall_mem_cons)

variable {e c : Expr} {m : Machine}

/-- What a running program may be about to do. -/
inductive Task where
  /-- To execute code of a place, with or without a trace. -/
  | block (place : Place) (tr : Bool) (is : List Instr)
  /-- To go through the rounds of a loop on a condition. -/
  | loop (place : Place) (tr : Bool) (condition : Expr) (body : List Instr)
  /-- To go through the rounds of a loop over elements, each of which may open a frame. -/
  | iterate (place : Place) (tr : Bool) (frame : Option (Trace.Kind × String)) (target : Target)
    (body : List Instr) (es : Elements)
  | eval (e : Expr)
  | assign (target : Target) (v : Value)
  | call (code : FunctionCode) (args : List Value) (keywords : Keywords)

/-- The expression that an action starts with; that of a loop on a condition is evaluated in each round. -/
def Action.value? : Action → Option Expr
  | .eval e => some e
  | .assign _ e => some e
  | .branch c _ _ => some c
  | .iterate _ e _ => some e
  | .return_ e => some e
  | _ => none

/-- Whether a loop goes on after a round that ended so. -/
def Flow.repeats : Flow → Bool
  | .normal => true
  | .continue_ => true
  | _ => false

/-- Opens the frame of an element, if it has one, and records the element in it. -/
def Eval.openRound (frame : Option (Trace.Kind × String)) (v : Value) : Eval Unit :=
  match frame with
  | some (kind, set) => do
    startFrame kind set
    log none v
  | none => return

theorem Alongside.openRound (h : Alongside p s) (f : Option (Trace.Kind × String)) (v : Value) :
    s (Eval.openRound f v) (Eval.openRound f v) fun _ => True := by
  cases f with
  | none => exact h.pure trivial
  | some f => exact h.bind (h.startFrame f.1 f.2) fun _ _ => h.log none v

section

variable (program : Program) (rounds : Nat) (limits : Limits) (mode : Mode) (input : List String)

/-- What a run of a program may come to do, and in which state, where calls may be nested `room` deeper. -/
inductive Reached : Nat → Task → Machine → Prop where
  /-- The file. -/
  | start : Reached limits.recursion
      (.block { inLoop := false, inFunction := false } true program.body) (Machine.ready limits mode input)
  /-- The next instruction. -/
  | next {m : Machine} : Reached room (.block place tr (i :: is)) m →
    Eval.exec (Eval.invoke rounds room) rounds i m = .ok .normal m' → Reached room (.block place tr is) m'
  /-- The expression of an instruction. -/
  | value {e : Expr} {m : Machine} : Reached room (.block place tr (.at line action :: is)) m → action.value? = some e →
    Reached room (.eval e) (m.setLine line)
  /-- The target of an assignment. -/
  | target {e : Expr} {m : Machine} : Reached room (.block place tr (.at line (.assign t e) :: is)) m →
    Eval.eval (Eval.invoke rounds room) e (m.setLine line) = .ok v m' → Reached room (.assign t v) m'
  /-- The branch that a condition decides on. -/
  | branch {c : Expr} {m : Machine} : Reached room (.block place tr (.at line (.branch c body orelse) :: is)) m →
    Eval.eval (Eval.invoke rounds room) c (m.setLine line) = .ok v m' →
    Reached room (.block place tr (if m'.heap.truthy v then body else orelse)) m'
  /-- The rounds of a loop on a condition. -/
  | loop {c : Expr} {m : Machine} : Reached room (.block place tr (.at line (.loop c body) :: is)) m →
    Reached room (.loop place tr c body) (m.setLine line)
  | condition {c : Expr} {m : Machine} : Reached room (.loop place tr c body) m → Reached room (.eval c) m
  | round {c : Expr} {m : Machine} : Reached room (.loop place tr c body) m →
    Eval.eval (Eval.invoke rounds room) c m = .ok v m' → m'.heap.truthy v = true →
    Reached room (.block { place with inLoop := true } tr body) m'
  | again {c : Expr} {m : Machine} : Reached room (.loop place tr c body) m →
    Eval.eval (Eval.invoke rounds room) c m = .ok v m' → m'.heap.truthy v = true →
    Eval.execBlock (Eval.invoke rounds room) rounds body m' = .ok flow m'' → flow.repeats = true →
    Reached room (.loop place tr c body) m''
  /-- The rounds of a loop over elements. -/
  | iterate {e : Expr} {m : Machine} : Reached room (.block place tr (.at line (.iterate t e body) :: is)) m →
    Eval.eval (Eval.invoke rounds room) e (m.setLine line) = .ok v m' → m'.heap.elements v = .ok es →
    Reached room (.iterate place tr (Eval.roundFrame? e) t body es) m'
  | element {m : Machine} : Reached room (.iterate place tr frame t body es) m →
    es.next? = some (v, rest) → Eval.openRound frame v m = .ok () m' → Reached room (.assign t v) m'
  | elementRound {m : Machine} : Reached room (.iterate place tr frame t body es) m →
    es.next? = some (v, rest) → Eval.beginRound (Eval.invoke rounds room) frame t v m = .ok () m' →
    Reached room (.block { place with inLoop := true } tr body) m'
  | elementAgain {m : Machine} : Reached room (.iterate place tr frame t body es) m →
    es.next? = some (v, rest) → Eval.beginRound (Eval.invoke rounds room) frame t v m = .ok () m' →
    Eval.execBlock (Eval.invoke rounds room) rounds body m' = .ok flow m'' → flow.repeats = true →
    Reached room (.iterate place tr frame t body rest) m''
  /-- A part of an expression, after those before it. -/
  | part {e : Expr} {m : Machine} : Reached room (.eval e) m → e.parts = before ++ part :: after →
    Eval.evalAll (Eval.invoke rounds room) before m = .ok vs m' → Reached room (.eval part) m'
  /-- The parts of the target of an assignment. -/
  | container {c : Expr} {m : Machine} : Reached room (.assign (.item c i) v) m → Reached room (.eval c) m
  | index {c : Expr} {m : Machine} : Reached room (.assign (.item c i) v) m →
    Eval.eval (Eval.invoke rounds room) c m = .ok container m' → Reached room (.eval i) m'
  | unpacked {m : Machine} : Reached room (.assign (.unpack (before ++ t :: after)) v) m →
    Eval.unpack m.heap v (before ++ t :: after).length = .ok (vs ++ w :: ws) →
    Eval.assignAll (Eval.invoke rounds room) before vs m = .ok () m' → Reached room (.assign t w) m'
  /-- A call of a function, and its body. -/
  | call {m : Machine} : Reached room (.eval (.call f args keywords)) m →
    Eval.eval (Eval.invoke rounds room) f m = .ok (.function code) m1 →
    Eval.evalAll (Eval.invoke rounds room) args m1 = .ok vs m2 →
    Eval.evalKeywords (Eval.invoke rounds room) keywords m2 = .ok ks m3 → Reached room (.call code vs ks) m3
  | body {m : Machine} : Reached (room + 1) (.call code args keywords) m →
    code.bind args keywords = .ok locals → m.trace.beginCall code.id = (ticket, t) →
    Reached room (.block .function ticket.traced (if ticket.traced then code.traced else code.plain)) { m with
        calls := { code, locals, line := 1 } :: m.calls
        trace := if ticket.traced then t.startDetached .functionCall "body" code.id else t }

end

/-! ## What fits a state -/

/-- What is to be done fits the state: code fits the frames that are open, expressions are those of lowered
code, and functions are lowered. -/
def Task.Fits (m : Machine) : Task → Prop
  | .block place true is => Ready place is m
  | .block place false is => Untraced place is
  | .loop place tr c body => Expects place tr m (.loop c body)
  | .iterate place tr frame t body es => t.Plain ∧ (frame = if tr then some (.forIteration, "iterable") else none)
      ∧ RoundCode place tr body ∧ (tr = true → Within place .forLoop m) ∧ es.Holds Lowered
  | .eval e => e.Recorded
  | .assign t v => t.Plain ∧ v.Holds Lowered
  | .call code args keywords =>
    Lowered code ∧ RowHolds Lowered args ∧ ∀ k ∈ keywords, k.2.Holds Lowered

section

variable {place : Place} {tr : Bool} {m m' m'' : Machine} {line : Nat} {is : List Instr}

theorem Task.Fits.expects (h : (Task.block place tr (.at line action :: is)).Fits m) : Expects place tr m action := by
  cases tr with
  | true => exact (Ready.first h).1
  | false => exact Untraced.expects h m

theorem Expects.value (h : Expects place tr m action) (he : action.value? = some e) : e.Recorded := by
  cases action with
  | eval | branch | return_ => cases he; exact h.1
  | assign t e =>
    cases he
    obtain ⟨-, e', he', rfl⟩ := h
    cases tr with
    | true => exact .log he'
    | false => exact .plain he'
  | iterate t e _ =>
    cases he
    obtain ⟨-, ⟨e', he', rfl⟩, -⟩ := h
    cases tr with
    | true => exact .each he'
    | false => exact .plain he'
  | _ => cases he

variable {c : Expr} {body : List Instr}

theorem Expects.level_loop (h : Expects place tr m (.loop c body)) (hl : m.Level Lowered m') :
    Expects place tr m' (.loop c body) :=
  ⟨h.1, h.2.1, fun ht => (h.2.2 ht).level hl⟩

variable {g : Invoke} (hinvoke : g.Settles Lowered) {rounds : Nat}

include hinvoke

theorem Task.Fits.next (h : (Task.block place tr (i :: is)).Fits m)
    (hm : m.Sound Lowered) (he : Eval.exec g rounds i m = .ok .normal m') :
    m.Later Lowered m' ∧ (Task.block place tr is).Fits m' := by
  cases tr with
  | true => exact Ready.next hinvoke h hm he
  | false => exact Untraced.next hinvoke h hm he

theorem Task.Fits.branch (h : (Task.block place tr (.at line (.branch c body orelse) :: is)).Fits m)
    (hm : m.Sound Lowered) (he : Eval.eval g c (m.setLine line) = .ok v m') (b : Bool) :
    m.Later Lowered m' ∧ (Task.block place tr (if b then body else orelse)).Fits m' := by
  cases tr with
  | true =>
    obtain ⟨hl, hb, ho⟩ := Ready.branch hinvoke h hm he
    cases b with
    | true => exact ⟨hl, hb⟩
    | false => exact ⟨hl, ho⟩
  | false =>
    obtain ⟨hl, hb, ho⟩ := Untraced.branch hinvoke h hm he
    cases b with
    | true => exact ⟨hl, hb⟩
    | false => exact ⟨hl, ho⟩

variable {t : Target} {v : Value}

theorem Expects.assigned (h : Expects place tr m (.assign t e)) (hm : m.Sound Lowered)
    (he : Eval.eval g e (m.setLine line) = .ok v m') : m.Later Lowered m' ∧ (Task.assign t v).Fits m' := by
  obtain ⟨ht, _, he', rfl⟩ := h
  have hs := (logged_settles hinvoke he' tr .assignment).stays
  obtain ⟨hv, hl⟩ := (hs.ends_level (.setLine hm line)).ok he
  exact ⟨hl.later, ht, hv⟩

theorem Expects.iterate (h : Expects place tr m (.iterate t e body)) (hm : m.Sound Lowered)
    (he : Eval.eval g e (m.setLine line) = .ok v m') (hes : m'.heap.elements v = .ok es) :
    m.Later Lowered m' ∧ (Task.iterate place tr (Eval.roundFrame? e) t body es).Fits m' := by
  obtain ⟨ht, ⟨e', he', rfl⟩, hb, hw⟩ := h
  have hp : Eval.eval g e' (m.setLine line) = .ok v m' := by
    cases tr with
    | true => rwa [if_pos rfl] at he
    | false => exact he
  obtain ⟨hv, hl⟩ := ((eval_settles hinvoke e' he').stays.ends_level (.setLine hm line)).ok hp
  have hf : Eval.roundFrame? (if tr then .each .forIteration "iterable" e' else e')
      = if tr then some (.forIteration, "iterable") else none := by
    cases tr with
    | true => rfl
    | false => exact roundFrame?_plain he'
  exact ⟨hl.later, ht, hf, hb, fun htr => (hw htr).level hl, hl.later.sound.heap.elements hv es hes⟩

/-! ## Rounds -/

theorem begun_condition (h : Expects place tr m (.loop c body)) (hm : m.Sound Lowered)
    (he : Eval.eval g c m = .ok v m') : Begun Lowered tr .whileIteration m m' := by
  obtain ⟨⟨c', hc', rfl⟩, -⟩ := h
  cases tr with
  | true => exact (logStart_ends hinvoke hc' (.refl hm) .whileIteration "condition").ok he
  | false => exact (((eval_settles hinvoke c' hc').stays.ends_level (.refl hm)).ok he).2

omit hinvoke in
theorem begun_openRound (hm : m.Sound Lowered)
    (ho : Eval.openRound (if tr then some (.forIteration, "iterable") else none) v m = .ok () m') :
    Begun Lowered tr .forIteration m m' := by
  cases tr with
  | true =>
    have he : Ends (Eval.openRound (some (.forIteration, "iterable")) v) m
        (fun _ => m.Enters Lowered .forIteration) (Breaks Lowered m) :=
      (startFrame_ends (.refl hm) .forIteration "iterable").bind fun _ _ h1 =>
        ((Settles.log none v).stays.ends_enters h1).mono (fun _ _ h => h.2) fun _ h => h
    exact he.ok ho
  | false =>
    cases ho
    exact .refl hm

theorem begun_beginRound (ht : t.Plain) (hm : m.Sound Lowered) (hv : v.Holds Lowered)
    (hb : Eval.beginRound g (if tr then some (.forIteration, "iterable") else none) t v m = .ok () m') :
    Begun Lowered tr .forIteration m m' := by
  cases tr with
  | true => exact (beginRound_ends hinvoke ht hv hm .forIteration "iterable").ok hb
  | false => exact (((assign_stays hinvoke t ht hv).ends_level (.refl hm)).ok hb).2

omit hinvoke in
theorem RoundCode.fits {k i : Trace.Kind} (h : RoundCode place tr body) (hl : k.isLoop = true)
    (hin : i.isInner = true) (hw : tr = true → Within place k m)
    (hb : Begun Lowered tr i m m') : (Task.block { place with inLoop := true } tr body).Fits m' := by
  obtain ⟨line, ps, hps, rfl⟩ := h
  cases tr with
  | true =>
    obtain ⟨_, hm0, hs, he⟩ := hw rfl
    have hi :=
      hs.enterLoop hm0.trace he.opens hl (Trace.Kind.ne_call_of_isLoop hl)
    exact ready_round hps (hi.opens he.later.sound.trace hb.opens (Trace.Kind.ne_call_of_isInner hin)) line
  | false => exact ⟨ps, hps, rfl⟩

theorem RoundCode.level (h : RoundCode place tr body) (hl : k.isLoop = true)
    (hi : i.isInner = true) (hm : m.Sound Lowered) (hw : tr = true → Within place k m) (hb : Begun Lowered tr i m m')
    (he : Eval.execBlock g rounds body m' = .ok f m'') (hf : f.repeats = true) : m.Level Lowered m'' := by
  obtain ⟨line, ps, hps, rfl⟩ := h
  cases tr with
  | true =>
    obtain ⟨_, hm0, -, hen⟩ := hw rfl
    have hc := Closes.iterationBody rounds line i hi (plans_obey hinvoke rounds hps)
    have ha := ((hc m m' hm hb).ok he).afterRound hm0 hen hl (Trace.Kind.ne_call_of_isLoop hl) (.refl hm)
    cases f with
    | normal | continue_ => exact ha
    | break_ | return_ => cases hf
  | false =>
    have hs := plans_stay hinvoke rounds hps m' hb.later.sound
    exact Machine.Level.trans hb (hs.ok he).2

end

/-! ## The invariant of a run -/

theorem Expr.Recorded.parts (h : e.Recorded) : ∀ part ∈ e.parts, part.Plain := by
  cases h with
  | log he | logStart he | logEnd he | each he => exact List.forall_mem_singleton.2 he
  | plain he => exact he.parts

/-- What holds of every reachable state: what is to be done fits it, and the calls that are going on and those
that may still be nested make up the limit. -/
structure Fine (limits : Limits) (room : Nat) (task : Task) (m : Machine) : Prop where
  sound : m.Sound Lowered
  fits : task.Fits m
  room : room + m.calls.length = limits.recursion

section

variable {limits : Limits} {room : Nat} {task : Task} {m m' : Machine} {place : Place} {tr : Bool} {e' : Expr}
  {is : List Instr}

theorem Fine.later (h : Fine limits room task m) (hn : m.Later Lowered m' ∧ task'.Fits m') :
    Fine limits room task' m' :=
  ⟨hn.1.sound, hn.2, hn.1.depth.symm ▸ h.room⟩

/-- The file is fine at the start of a run. -/
theorem Fine.start {s : Script} (hc : s.compile = .ok program) (limits : Limits) (mode : Mode) (input : List String) :
    Fine limits limits.recursion (.block .file true program.body) (Machine.ready limits mode input) := by
  obtain ⟨_, hps, hbo⟩ := Script.compile_plans hc
  obtain ⟨hso, hca, -⟩ := Machine.sound_ready limits mode input
  refine ⟨hso, ?_, by rw [hca]; rfl⟩
  exact .here (hbo ▸ .of_plans hps) (.file _)

/-- The condition of a loop is an expression of lowered code. -/
theorem Fine.condition (h : Fine limits room (.loop place tr c is) m) : Fine limits room (.eval c) m := by
  refine ⟨h.sound, ?_, h.room⟩
  obtain ⟨⟨_, hc, rfl⟩, -⟩ := h.fits
  cases tr with
  | true => exact .logStart hc
  | false => exact .plain hc

theorem Fine.body {c : FunctionCode} (h : Fine limits (room + 1) (.call c as ks) m) (hbi : c.bind as ks = .ok ls) :
    Fine limits room (.block .function (m.traces c) (c.body (m.traces c))) (m.called c ls) := by
  obtain ⟨hco, ha, hk⟩ := h.fits
  refine ⟨h.sound.called c (c.bind_holds ha hk ls hbi), ?_, ?_⟩
  · have ht := (m.trace.quiet_beginCall c.id).sound h.sound.trace
    unfold Machine.called
    cases m.traces c with
    | true =>
      obtain ⟨ps, hf, hb⟩ := hco.hasBodies.traced
      have hcd : Coded .function c.traced := hb ▸ .plans hf (.inr ⟨1, rfl⟩)
      exact .here hcd (.enterCall ht (Trace.opens_startDetached _ _ _ _))
    | false =>
      exact hco.hasBodies.plain
  · have hr := h.room
    change room + (m.calls.length + 1) = _
    omega

variable {g : Invoke} (hinvoke : g.Settles Lowered)

include hinvoke

/-- After a round the rest of the elements is to be gone through, inside the same loop. -/
theorem Fine.elementAgain (h : Fine limits room (.iterate place tr frame t is es) m) (hn : es.next? = some (v, rest))
    (hb : Eval.beginRound g frame t v m = .ok () m') (he : Eval.execBlock g rounds is m' = .ok flow m'')
    (hf : flow.repeats = true) : Fine limits room (.iterate place tr frame t is rest) m'' := by
  obtain ⟨ht, rfl, hbo, hw, hes⟩ := h.fits
  obtain ⟨hv, hre⟩ := hes.next? hn
  have hbe := begun_beginRound hinvoke ht h.sound hv hb
  have hle := hbo.level hinvoke rfl rfl h.sound hw hbe he hf
  exact h.later ⟨hle.later, ht, rfl, hbo, fun htr => (hw htr).level hle, hre⟩

/-- A part of an expression is plain, and so are those evaluated before it. -/
theorem Fine.part (h : Fine limits room (.eval e) m) (hp : e.parts = before ++ e' :: after)
    (he : Eval.evalAll g before m = .ok vs m') : Fine limits room (.eval e') m' := by
  have hpl := h.fits.parts
  rw [hp] at hpl
  obtain ⟨hbe, ha⟩ := forall_mem_append.1 hpl
  have hs := ((settles_evaluates Lowered).evalAll hinvoke _ (.inl hbe) _ h.sound |>.ok he).2
  exact h.later ⟨hs.level.later, .plain (forall_mem_cons.1 ha).1⟩

theorem Fine.index (h : Fine limits room (.assign (.item c i) v) m) (he : Eval.eval g c m = .ok container m') :
    Fine limits room (.eval i) m' := by
  obtain ⟨ht, -⟩ := h.fits
  cases ht with
  | item hc hi =>
    have hs := ((eval_settles hinvoke _ hc _ h.sound).ok he).2
    exact h.later ⟨hs.level.later, .plain hi⟩

/-- What a target takes of an unpacked value is one of its elements. -/
theorem Fine.unpacked (h : Fine limits room (.assign (.unpack (before ++ t :: after)) v) m)
    (hu : Eval.unpack m.heap v (before ++ t :: after).length = .ok (vs ++ w :: ws))
    (ha : Eval.assignAll g before vs m = .ok () m') : Fine limits room (.assign t w) m' := by
  obtain ⟨ht, hv⟩ := h.fits
  obtain ⟨hvs, hws⟩ := forall_mem_append.1 (unpack_holds h.sound.heap hv _ _ hu)
  cases ht with
  | unpack hts =>
    obtain ⟨hbe, haf⟩ := forall_mem_append.1 hts
    have hle := ((assignAll_stays hinvoke _ hbe _ hvs _ h.sound).ok ha).2
    exact h.later ⟨hle.later, (forall_mem_cons.1 haf).1, (forall_mem_cons.1 hws).1⟩

/-- The function that is called is lowered, and its arguments hold lowered functions only. -/
theorem Fine.called (h : Fine limits room (.eval (.call f args keywords)) m)
    (hf : Eval.eval g f m = .ok (.function code) m1) (ha : Eval.evalAll g args m1 = .ok vs m2)
    (hk : Eval.evalKeywords g keywords m2 = .ok ks m3) : Fine limits room (.call code vs ks) m3 := by
  have hr := settles_evaluates Lowered
  have hfi := h.fits
  cases hfi with
  | plain hp =>
    obtain ⟨hfp, hp⟩ := forall_mem_cons.1 hp.parts
    obtain ⟨har, hkp⟩ := forall_mem_append.1 hp
    obtain ⟨hco, h1⟩ := (eval_settles hinvoke _ hfp _ h.sound).ok hf
    obtain ⟨hvs, h2⟩ := (hr.evalAll hinvoke _ (.inl har) _ h1.sound).ok ha
    obtain ⟨hks, h3⟩ := (hr.evalKeywords hinvoke _ (.inl (List.forall_mem_map.1 hkp)) _ h2.sound).ok hk
    exact h.later ⟨(h1.trans (h2.trans h3)).level.later, hco.code, hvs, hks⟩

end

section

variable {program : Program} {rounds : Nat} {limits : Limits} {mode : Mode} {input : List String}

/-- **Every reachable state is fine.** -/
theorem Reached.fine {task : Task} {room : Nat} {s : Script} (hcm : s.compile = .ok program)
    (h : Reached program rounds limits mode input room task m) : Fine limits room task m := by
  have hinvoke : ∀ room, (Eval.invoke rounds room).Settles Lowered :=
    invoke_settles (fun _ hco => hco.hasBodies) rounds
  induction h with
  | start => exact .start hcm limits mode input
  | next _ hex ih => exact ih.later (Task.Fits.next (hinvoke _) ih.fits ih.sound hex)
  | value _ he ih => exact ih.later ⟨(Machine.Level.setLine ih.sound _).later, ih.fits.expects.value he⟩
  | target _ hev ih => exact ih.later (ih.fits.expects.assigned (hinvoke _) ih.sound hev)
  | branch _ hev ih => exact ih.later (Task.Fits.branch (hinvoke _) ih.fits ih.sound hev _)
  | @loop _ _ _ line _ _ _ _ _ ih =>
    have hli := Machine.Level.setLine ih.sound line
    exact ih.later ⟨hli.later, ih.fits.expects.level_loop hli⟩
  | condition _ ih => exact ih.condition
  | round _ hev _ ih =>
    have hb := begun_condition (hinvoke _) ih.fits ih.sound hev
    exact ih.later ⟨hb.later, ih.fits.2.1.fits rfl rfl ih.fits.2.2 hb⟩
  | again _ hev _ hex hfl ih =>
    have hb := begun_condition (hinvoke _) ih.fits ih.sound hev
    have hle := ih.fits.2.1.level (hinvoke _) rfl rfl ih.sound ih.fits.2.2 hb hex hfl
    exact ih.later ⟨hle.later, Expects.level_loop ih.fits hle⟩
  | iterate _ hev hes ih => exact ih.later (ih.fits.expects.iterate (hinvoke _) ih.sound hev hes)
  | element _ hn ho ih =>
    obtain ⟨ht, rfl, -, -, hes⟩ := ih.fits
    exact ih.later ⟨(begun_openRound ih.sound ho).later, ht, (hes.next? hn).1⟩
  | elementRound _ hn hbg ih =>
    obtain ⟨ht, rfl, hbo, hw, hes⟩ := ih.fits
    have hb := begun_beginRound (hinvoke _) ht ih.sound (hes.next? hn).1 hbg
    exact ih.later ⟨hb.later, hbo.fits rfl rfl hw hb⟩
  | elementAgain _ hn hbg hex hfl ih => exact ih.elementAgain (hinvoke _) hn hbg hex hfl
  | part _ hpa hev ih => exact ih.part (hinvoke _) hpa hev
  | container _ ih =>
    obtain ⟨ht, -⟩ := ih.fits
    cases ht with
    | item hc hi => exact ⟨ih.sound, .plain hc, ih.room⟩
  | index _ hev ih => exact ih.index (hinvoke _) hev
  | unpacked _ hu hai ih => exact ih.unpacked (hinvoke _) hu hai
  | call _ hf hag hke ih => exact ih.called (hinvoke _) hf hag hke
  | body _ hbi hti ih =>
    cases hti
    exact ih.body hbi

/-! ## The discipline of a run -/

/-- How code leaves the frames that are open: all of them where it ends normally, those from the innermost loop
on where it leaves a loop, those below the innermost call where it returns, and at least all of them where it
raises an exception. -/
def CutsFrames (x : Eval Flow) (m : Machine) : Prop :=
  (∀ flow m', x m = .ok flow m' → flow.Cuts m.trace m'.trace)
    ∧ ∀ fault m', x m = .error (.raised fault) m' → m.trace.stack <:+ m'.trace.stack

/-- A computation gives back the calls that were going on and the frames that were open. -/
def GivesBack {α : Type} (x : Eval α) (m : Machine) : Prop :=
  (∀ a m', x m = .ok a m' → m'.calls = m.calls ∧ m'.trace.stack = m.trace.stack)
    ∧ ∀ fault m', x m = .error (.raised fault) m' → m'.calls = m.calls ∧ m'.trace.stack = m.trace.stack

theorem Settles.givesBack {α : Type} {x : Eval α} {q : α → Prop} (h : Settles Lowered x q)
    (hm : m.Sound Lowered) : GivesBack x m := by
  refine ⟨fun a m' hok => ?_, fun e m' hr => ?_⟩
  · obtain ⟨-, hs⟩ := (h m hm).ok hok
    exact ⟨hs.calls, hs.trace.stack⟩
  · have hs := (h m hm).raised hr
    exact ⟨hs.calls, hs.trace.stack⟩

theorem Stands.cutsFrames {place : Place} (h : Stands place m.trace) (hm : m.Sound Lowered)
    {x : Eval Flow} (hx : Obeys Lowered place x) : CutsFrames x m := by
  refine ⟨fun f m' hok => ?_, fun e m' hr => ((hx m hm).raised hr).stack⟩
  have hl := (hx m hm).ok hok
  exact h.cuts hl.fits hl.stack

/-- **The frames and calls of a run are balanced.** The traced code of any statements cuts the open frames back
as it should, wherever the frames that its place asks for are open, and so it does wherever a run comes to
it. Every call gives everything back, calls are never nested deeper than the limit, and a run that ends
without an exception ends with only the frame of the file open. -/
theorem Script.frames_balanced {script : Script} (hcompile : script.compile = .ok program) (rounds : Nat)
    (limits : Limits) (mode : Mode) (input : List String) :
    (∀ room task m, Reached program rounds limits mode input room task m →
      ∀ place ss c body c', Lower.block place true ss c = .ok (body, c') → Stands place m.trace →
        CutsFrames (Eval.execBlock (Eval.invoke rounds room) rounds body) m)
    ∧ (∀ room place ss c body c' after m, Lower.block place true ss c = .ok (body, c') →
      Reached program rounds limits mode input room (.block place true (body ++ after)) m →
        CutsFrames (Eval.execBlock (Eval.invoke rounds room) rounds body) m)
    ∧ (∀ room code args keywords m, Reached program rounds limits mode input room (.call code args keywords) m →
        GivesBack (Eval.invoke rounds room code args keywords) m)
    ∧ (∀ room task m, Reached program rounds limits mode input room task m → m.calls.length ≤ limits.recursion)
    ∧ ∀ flow m', Eval.execBlock (Eval.invoke rounds limits.recursion) rounds program.body
        (Machine.ready limits mode input) = .ok flow m' → m'.trace.stack = [0] := by
  have hinvoke : ∀ room, (Eval.invoke rounds room).Settles Lowered :=
    invoke_settles (fun _ hcode => hcode.hasBodies) rounds
  refine ⟨?_, ?_, ?_, ?_, ?_⟩
  · intro room task m hreached place ss c body c' hblock hstands
    obtain ⟨ps, hps, rfl⟩ := Lower.block_plans place true ss c _ hblock
    exact hstands.cutsFrames (hreached.fine hcompile).sound (plans_obey (hinvoke room) rounds hps)
  · intro room place ss c body c' after m hblock hreached
    obtain ⟨ps, hps, rfl⟩ := Lower.block_plans place true ss c _ hblock
    have hfine := hreached.fine hcompile
    rcases Ready.stands hps hfine.fits with hempty | hstands
    · rw [hempty, Eval.execBlock]
      refine ⟨fun flow m' hok => ?_, fun _ m' hraised => ?_⟩
      · cases hok
        exact rfl
      · cases hraised
    · exact hstands.cutsFrames hfine.sound (plans_obey (hinvoke room) rounds hps)
  · intro room code args keywords m hreached
    have hfine := hreached.fine hcompile
    obtain ⟨hcode, hargs, hkeywords⟩ := hfine.fits
    exact (hinvoke room code args keywords hcode hargs hkeywords).givesBack hfine.sound
  · intro room task m hreached
    have := (hreached.fine hcompile).room
    omega
  · intro flow m' hok
    obtain ⟨ps, hps, hbody⟩ := Script.compile_plans hcompile
    obtain ⟨hsound, -, htrace, -⟩ := Machine.sound_ready (p := Lowered) limits mode input
    rw [hbody] at hok
    have hleaves := (plans_obey (hinvoke limits.recursion) rounds hps _ hsound).ok hok
    cases flow with
    | normal =>
      rw [hleaves.stack, htrace]
      rfl
    | break_ => cases hleaves.fits
    | continue_ => cases hleaves.fits
    | return_ v => cases hleaves.fits.1

/-- A function that returns from inside a loop, and a call of it. -/
def earlyReturn : Script :=
  [.function "f" none [] [.whileLoop [.bool true] [.return_ [.none]]], .expression [.call "f" []]]

def earlyReturnCode : Program :=
  earlyReturn.code

/-- Three frames are opened by the call in `earlyReturn`, and only the file's is open in the end. -/
theorem frames_balanced_earlyReturn : earlyReturn.compile = .ok earlyReturnCode
      ∧ CutsFrames (Eval.execBlock (Eval.invoke 1 1) 1 earlyReturnCode.body)
        (Machine.ready { recursion := 1 } .command [])
      ∧ ∃ m', Eval.execBlock (Eval.invoke 1 1) 1 earlyReturnCode.body
          (Machine.ready { recursion := 1 } .command []) = .ok .normal m'
        ∧ m'.trace.frames.size = 4 ∧ m'.trace.stack = [0] := by
  have hcompile : earlyReturn.compile = .ok earlyReturnCode := rfl
  obtain ⟨hblocks, -, -, -, hend⟩ :=
    Script.frames_balanced hcompile 1 { recursion := 1 } .command []
  have hrun : Eval.endsNormally (Eval.execBlock (Eval.invoke 1 1) 1 earlyReturnCode.body)
      (Machine.ready { recursion := 1 } .command []) (·.trace.frames.size == 4) = true := by decide +kernel
  refine ⟨hcompile, ?_, ?_⟩
  · exact hblocks _ _ _ .start _ earlyReturn { line := 1, serial := 0 } _ { line := 5, serial := 1 } rfl (.file _)
  · obtain ⟨m', hok, hsize⟩ := Eval.exists_of_endsNormally hrun
    exact ⟨m', hok, beq_iff_eq.1 hsize, hend _ m' hok⟩

end

end Playback
