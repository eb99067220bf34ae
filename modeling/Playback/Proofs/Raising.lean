import Playback.Proofs.Exceptions
import Playback.Proofs.Failing

/-!
# Exceptions that leave a run

An exception leaves one call after the other, and each traced one records it. Functions can be called so that an
exception ends nothing (`Eval.hold`): what is left then is the state in which it was raised, and otherwise nothing is
different (`hold_tells`). From that state on, the calls are abandoned from the innermost to the outermost
(`AbandonsAll`).
-/

namespace Playback

open Eval List
open Trace (Step)

variable {fault : Fault} {locals ls : Scope} {left : List (Call × Option Nat)} {m m1 m' raised : Machine} {rounds : Nat}
variable {ss steps : List Step}

/-! ## Calls that an exception does not end -/

namespace Eval

/-- Runs the body of a call and ends the call unless there is an exception. -/
def holdCall (run : List Instr → Eval Flow) (code : FunctionCode) (traced : Bool) (index depth : Nat) :
    Eval Value := do
  let flow ← run (if traced then code.traced else code.plain)
  let line ← popCall
  endCall traced index line depth (.ok flow)

/-- Calls a function whose body `run` runs; an exception leaves everything as it is where it was raised. -/
def holdWith (run : List Instr → Eval Flow) (code : FunctionCode) (args : List Value) (keywords : Keywords) :
    Eval Value := do
  let locals ← lift (code.bind args keywords)
  let ticket ← beginCall code.id
  let depth := (← get).trace.depth
  if ticket.traced then
    onTrace (·.startDetached .functionCall "body" code.id)
  pushCall { code, locals, line := 1 }
  holdCall run code ticket.traced ticket.index depth

/-- Calls a function where calls may be nested `room` deeper; an exception ends none of them. -/
def hold (rounds : Nat) : Nat → Invoke
  | 0 => fun _ _ _ => raise .recursionLimit
  | room + 1 => holdWith (execBlock (hold rounds room) rounds)

variable {code : FunctionCode} {args : List Value} {keywords : Keywords} {m : Machine}

theorem holdWith_error (hb : code.bind args keywords = .error fault) :
    holdWith run code args keywords m = .error (.raised fault) m := by
  unfold holdWith
  rw [hb]
  rfl

theorem holdWith_ok (hb : code.bind args keywords = .ok locals) : holdWith run code args keywords m
      = holdCall run code (m.traces code) (m.trace.invocations code.id) m.trace.depth (m.called code locals) := by
  unfold holdWith
  rw [hb]
  exact beginCall_called m code locals (holdCall run code)

end Eval

/-! ## Calls that an exception leaves -/

/-- An exception leaves the innermost call. A traced call records it, and its place on file is given. -/
inductive Abandons (fault : Fault) : Call × Option Nat → Machine → Machine → Prop
  | plain {m : Machine} (hcalls : m.calls = call :: rest) : Abandons fault (call, none) m { m with calls := rest }
  | traced {m : Machine} {inner : List Nat} (hcalls : m.calls = call :: rest)
    (hstack : m.trace.stack = inner ++ n :: below) (hbelow : below ≠ []) (hinner : ∀ i ∈ inner, i ∉ m.trace.filed)
    (hfiled : (m.trace.callsOf call.code.id)[index]? = some n) :
    Abandons fault (call, some index) m
      { m with
        calls := rest
        trace := m.trace.logCallException fault.kind.name fault.message index call.line below.length }

/-- An exception leaves calls one after the other. -/
inductive AbandonsAll (fault : Fault) : List (Call × Option Nat) → Machine → Machine → Prop
  | nil (m : Machine) : AbandonsAll fault [] m m
  | cons {left : Call × Option Nat} {m m1 m' : Machine} (hfirst : Abandons fault left m m1)
    (hrest : AbandonsAll fault more m1 m') : AbandonsAll fault (left :: more) m m'

theorem AbandonsAll.concat (h : AbandonsAll fault left m m1) (hl : Abandons fault z m1 m') :
    AbandonsAll fault (left ++ [z]) m m' := by
  induction h with
  | nil => exact .cons hl (.nil _)
  | cons hf _ ih => exact .cons hf (ih hl)

/-! ## What happens before an exception -/

/-- What the calls of a machine are filed by: its trace is a forest in which the first calls are on file. No exception
is kept in it. -/
structure Machine.Orderly (p : FunctionCode → Prop) (m : Machine) : Prop where
  sound : m.Sound p
  arena : m.trace.Arena
  counted : m.trace.Counted
  clear : m.trace.lastException = none

/-- From one state to another, no exception is recorded, the same functions are being called, and no frame of a
call is open that was not. -/
structure Machine.Passes (p : FunctionCode → Prop) (m m' : Machine) : Prop where
  sound : m'.Sound p
  history : ∃ steps, m.Performs steps m' ∧ Trace.Calm steps
  codes : m'.calls.map (·.code) = m.calls.map (·.code)
  stack : ∀ i ∈ m'.trace.stack, i ∈ m.trace.stack ∨ i ∉ m'.trace.filed

/-- The innermost traced call when an exception was raised in a state. Its body began in the state `start`, where it was
filed after `index` calls under its id, and the exception came from an instruction of the body on line `n`. -/
structure FailingCall (rounds : Nat) (fault : Fault) (raised : Machine) (code : FunctionCode) (index room : Nat)
    (start : Machine) (n : Nat) (last : Option Nat) : Prop where
  calls : ∃ call rest, start.calls = call :: rest ∧ call.code = code
  filed : (start.trace.callsOf code.id)[index]? = some start.trace.top
  innermost : raised.trace.openCalls.head? = some start.trace.top
  raises : execBlock (hold rounds room) rounds code.traced start = .error (.raised fault) raised
  fails : ∃ ended, FailsAt (Eval.invoke rounds room) rounds fault ended code.traced start n last

/-- From a state on, a run came to the innermost traced call of an exception, and the exception that is kept is told
where that call failed. -/
def Machine.Located (rounds : Nat) (m : Machine) (fault : Fault) (raised : Machine)
    (kept : Option Trace.LastException) : Prop :=
  ∃ code index room start n last past, m.Performs past start
    ∧ FailingCall rounds fault raised code index room start n last
    ∧ kept = some
      { type := fault.kind.name, message := fault.message, frameNumber := some index, lineNumber := some (last.getD n) }

theorem Machine.Performs.located (h : m.Performs ss m1) (hl : m1.Located rounds e raised kept) :
    m.Located rounds e raised kept := by
  obtain ⟨code, i, k, start, n, z, _, hp, hc⟩ := hl
  exact ⟨code, i, k, start, n, z, _, h.trans hp, hc⟩

/-- From one state to another an exception is raised in a third, and has left the calls since: no traced one, or what is
kept is told where the innermost failed. -/
structure Machine.Falls (rounds : Nat) (fault : Fault) (m raised m' : Machine) : Prop where
  history : ∃ steps, m.Performs steps raised ∧ Trace.Calm steps
  abandons : ∃ left, AbandonsAll fault left raised m'
  codes : m'.calls.map (·.code) = m.calls.map (·.code)
  stack : ∀ i ∈ m'.trace.stack, i ∈ m.trace.stack ∨ i ∉ m'.trace.filed
  kept : m'.trace = raised.trace ∨ m.Located rounds fault raised m'.trace.lastException

namespace Trace

variable {t : Trace}

theorem Arena.sound (h : t.Arena) : t.Sound :=
  ⟨h.stack_ne_nil, h.known⟩

theorem Moves.filed_new (h : Moves es ks t t') : ∀ i ∈ t'.filed, i ∈ t.filed ∨ t.frames.size ≤ i := by
  induction h with
  | refl t => exact fun _ => .inl
  | @step _ _ _ _ t _ t' hf _ ih =>
    intro i hi
    rcases ih i hi with hi | hi
    · cases hf with
      | quiet _ _ _ hfi => exact .inl (hfi ▸ hi)
      | note | turn | add => exact .inl hi
      | file k set id =>
        rcases mem_cons.1 ((filed_startDetached k set id).mem_iff.1 hi) with rfl | hi
        · exact .inr (Nat.le_refl _)
        · exact .inl hi
    · exact .inr (Nat.le_trans hf.size_le hi)

theorem logCallException_keeps (t : Trace) (type msg : String) (index l depth : Nat) :
    (t.logCallException type msg index l depth).detached = t.detached
      ∧ (t.logCallException type msg index l depth).frames = (t.push (.exception type msg)).frames := by
  unfold Trace.logCallException Trace.keepException
  split <;> exact ⟨rfl, rfl⟩

theorem lastException_keepException (t : Trace) (e : LastException) :
    (t.keepException e).lastException = t.lastException.or (some e) := by
  unfold Trace.keepException
  split
  all_goals
    rename_i hl
    rw [hl]
    rfl

/-- The first open call is that of the innermost frame of a call. -/
theorem openCalls_append (hs : t.stack = is ++ n :: below) (hin : ∀ i ∈ is, i ∉ t.filed) (hn : n ∈ t.filed) :
    t.openCalls = n :: below.filter (· ∈ t.filed) := by
  have hno : is.filter (fun id => decide (id ∈ t.filed)) = [] :=
    filter_eq_nil_iff.2 (by simpa using hin)
  rw [openCalls, hs, filter_append, hno, filter_cons_of_pos (by simpa using hn)]
  rfl

end Trace

theorem Abandons.detached {left : Call × Option Nat}
    (h : Abandons fault left m m') : m'.trace.detached = m.trace.detached := by
  cases h with
  | plain hc => rfl
  | traced hc _ _ _ _ => exact (m.trace.logCallException_keeps _ _ _ _ _).1

theorem AbandonsAll.detached (h : AbandonsAll fault left m m') : m'.trace.detached = m.trace.detached := by
  induction h with
  | nil => rfl
  | cons hf _ ih => exact ih.trans hf.detached

namespace Machine

variable {p : FunctionCode → Prop}

theorem Performs.orderly (h : m.Performs ss m') (hc : Trace.Calm ss) (hm : m.Orderly p) (hs : m'.Sound p) :
    m'.Orderly p where
  sound := hs
  arena := h.trace ▸ hm.arena.moves (m.trace.moves_applyAll ss)
  counted := h.trace ▸ hm.counted.applyAll h.regular
  clear := by rw [h.trace, hc.lastException, hm.clear]

theorem Passes.orderly (h : m.Passes p m') (hm : m.Orderly p) : m'.Orderly p := by
  obtain ⟨_, hs, hc⟩ := h.history
  exact hs.orderly hc hm h.sound

theorem Passes.refl (hm : m.Sound p) : m.Passes p m :=
  ⟨hm, ⟨[], .refl m, .nil⟩, rfl, fun _ => .inl⟩

theorem Performs.unfiled (h : m.Performs ss m') (hm : m.Sound p)
    (hi : i ∈ m.trace.stack) (hu : i ∉ m.trace.filed) : i ∉ m'.trace.filed := by
  intro hf
  rw [h.trace] at hf
  have hk := hm.trace.known i hi
  rcases (m.trace.moves_applyAll ss).filed_new i hf with hf | _
  · exact hu hf
  · omega

theorem Passes.trans (h : m.Passes p m1) (h' : m1.Passes p m') : m.Passes p m' := by
  obtain ⟨_, hs, hc⟩ := h.history
  obtain ⟨_, hm, hc'⟩ := h'.history
  refine ⟨h'.sound, ⟨_, hs.trans hm, hc.append hc'⟩, h'.codes.trans h.codes, fun i hi => ?_⟩
  rcases h'.stack i hi with hi | hi
  · exact (h.stack i hi).imp_right (hm.unfiled h.sound hi)
  · exact .inr hi

theorem Passes.of_level (hl : m.Level p m') (hs : m.Performs ss m') (hc : Trace.Calm ss)
    (hco : m'.calls.map (·.code) = m.calls.map (·.code)) : m.Passes p m' :=
  ⟨hl.later.sound, ⟨ss, hs, hc⟩, hco, fun _ hi => .inl (hl.stack ▸ hi)⟩

theorem codes_setVariable (m : Machine) (x : String) (v : Value) :
    (m.setVariable x v).calls.map (·.code) = m.calls.map (·.code) := by
  unfold Machine.setVariable
  split
  · rfl
  · rename_i hc
    rw [hc]
    rfl

theorem codes_setLine (m : Machine) (l : Nat) : (m.setLine l).calls.map (·.code) = m.calls.map (·.code) := by
  unfold Machine.setLine
  split
  · rfl
  · rename_i hc
    rw [hc]
    rfl

/-- The frame of code that is no call is no frame of a call. -/
theorem Passes.startFrame (hm : m.Orderly p) (hf : m.trace.isFull = false) (k : Trace.Kind) (set : String) :
    m.Passes p { m with trace := m.trace.addFrame k set } := by
  have hs : (m.trace.addFrame k set).stack = m.trace.frames.size :: m.trace.stack := by
    simp [Trace.addFrame, Trace.openFrame, Trace.push]
  have hso : { m with trace := m.trace.addFrame k set }.Sound p :=
    ⟨hm.sound.heap, hm.sound.globals, hm.sound.locals, (hm.arena.add k set).sound⟩
  refine ⟨hso, ⟨_, .startFrame hf k set, .single rfl⟩, rfl, fun i hi => ?_⟩
  rw [hs] at hi
  refine (mem_cons.1 hi).symm.imp_right ?_
  rintro rfl
  exact fun hf => Nat.lt_irrefl _ (hm.arena.root_lt (mem_cons_of_mem 0 hf))

theorem Passes.report (hm : m.Orderly p) (s : Step) (hs : s.reports = true) :
    m.Passes p { m with trace := m.trace.apply s } := by
  have ha : (m.trace.apply s).Arena := hm.arena.moves (m.trace.moves_apply s)
  have hso : { m with trace := m.trace.apply s }.Sound p :=
    ⟨hm.sound.heap, hm.sound.globals, hm.sound.locals, ha.sound⟩
  have ho : (s.text? = none ∧ s.beginsCall = false) ∧ s.calm = true := by
    cases s <;> first | exact ⟨⟨rfl, rfl⟩, rfl⟩ | cases hs
  have hsu : (m.trace.apply s).stack <:+ m.trace.stack := by
    cases s with
    | log | turn => exact suffix_rfl
    | logAndEnd k _ t _ => exact Trace.unwindThrough_suffix _ _ _
    | endFrame => exact m.trace.endFrame_suffix
    | endLoop => exact Trace.unwindToLoop_suffix _ _
    | _ => cases hs
  exact ⟨hso, ⟨[s], .step s ho.1 rfl rfl .refl, .single ho.2⟩, rfl, fun i hi => .inl (hsu.subset hi)⟩

theorem Passes.falls (h : m.Passes p m') (fault : Fault) : m.Falls rounds fault m' m' :=
  ⟨h.history, ⟨[], .nil m'⟩, h.codes, h.stack, .inl rfl⟩

theorem Passes.trans_falls (h : m.Passes p m1) (h' : m1.Falls rounds fault raised m') :
    m.Falls rounds fault raised m' := by
  obtain ⟨_, hs, hc⟩ := h.history
  obtain ⟨_, hm, hc'⟩ := h'.history
  obtain ⟨left, hl⟩ := h'.abandons
  have hf : m'.trace.filed = raised.trace.filed := by rw [Trace.filed, hl.detached]; rfl
  refine ⟨⟨_, hs.trans hm, hc.append hc'⟩, ⟨left, hl⟩, h'.codes.trans h.codes, fun i hi => ?_,
    h'.kept.imp_right hs.located⟩
  rcases h'.stack i hi with hi | hi
  · exact (h.stack i hi).imp_right fun hu => hf ▸ hm.unfiled h.sound hi hu
  · exact .inr hi

theorem codes_cons
    (h : m'.calls.map (·.code) = code :: codes) : ∃ call rest, m'.calls = call :: rest ∧ call.code = code := by
  obtain ⟨call, rest, hc, hco, -⟩ := map_eq_cons_iff.1 h
  exact ⟨call, rest, hc, hco⟩

end Machine

theorem machineRelation_passes (p : FunctionCode → Prop) :
    MachineRelation p (·.Orderly p) (Machine.Passes p) where
  refl hm := .refl hm.sound
  trans := .trans
  keeps hm h := h.orderly hm
  heap hm := hm.sound.heap
  value name hm := hm.sound.value name

/-- **Nothing that code does but calls records an exception or opens the frame of a call.** -/
theorem passes_lockstep (p : FunctionCode → Prop) :
    Lockstep p fun x _ q => Affects (·.Orderly p) (Machine.Passes p) x q where
  toEvaluates := by
    refine Affects.evaluates (machineRelation_passes p) ?_ ?_ ?_
    · exact fun hm hh hp => .of_level (Machine.Steady.heap hm.sound hh).level (.nothing rfl rfl hp) .nil rfl
    · exact fun {m} t hm => .of_level (Machine.Steady.write t hm.sound).level (.write m t) (.single rfl) rfl
    · exact fun l v hm => .of_level (Machine.Steady.aside l v hm.sound).level (.nothing rfl rfl .refl) .nil rfl
  store name v _ hv := .change fun {m} hm =>
    .of_level (.setVariable hm.sound name hv) (.setVariable m name v) .nil (m.codes_setVariable name v)
  setLine line := .change fun {m} hm =>
    .of_level (.setLine hm.sound line) (.setLine m line) .nil (m.codes_setLine line)
  startFrame kind set := .startFrame (machineRelation_passes p) kind set fun hm hf => .startFrame hm hf kind set
  report step hs := .change fun hm => .report hm step hs

/-! ## Two ways to call functions -/

/-- How two computations end from a state: both with the same value in the same state, or both with the same
exception, which the second leaves in the state in which it was raised. -/
inductive Told (p : FunctionCode → Prop) (rounds : Nat) (m : Machine) {α : Type} (q : α → Prop) :
    EStateM.Result Halt Machine α → EStateM.Result Halt Machine α → Prop
  | ok {m' : Machine} (ha : q a) (h : m.Passes p m') : Told p rounds m q (.ok a m') (.ok a m')
  | raised {fault : Fault} {raised m' : Machine} (h : m.Falls rounds fault raised m') :
    Told p rounds m q (.error (.raised fault) m') (.error (.raised fault) raised)
  | stopped (hhalt : ∀ fault, halt ≠ .raised fault) (m1 m2 : Machine) :
    Told p rounds m q (.error halt m1) (.error halt m2)

/-- Two computations do the same, but the second leaves an exception in the state in which it was raised. -/
def Tells (p : FunctionCode → Prop) (rounds : Nat) {α : Type} (x y : Eval α) (q : α → Prop) : Prop :=
  ∀ m, m.Orderly p → Told p rounds m q (x m) (y m)

namespace Tells

variable {p : FunctionCode → Prop} {α β : Type} {x y : Eval α} {q : α → Prop} {r : β → Prop}

theorem bind (hx : Tells p rounds x y q) (hf : ∀ a, q a → Tells p rounds (f a) (g a) r) : Tells p rounds (x >>= f) (y >>= g) r := by
  intro m hm
  change Told p rounds m r (EStateM.bind x f m) (EStateM.bind y g m)
  unfold EStateM.bind
  have hxm := hx m hm
  generalize x m = u at hxm
  generalize y m = v at hxm
  cases hxm with
  | @ok a m1 ha hp =>
    have ht := hf a ha m1 (hp.orderly hm)
    dsimp only
    generalize f a m1 = u at ht
    generalize g a m1 = v at ht
    cases ht with
    | ok hb hp' => exact .ok hb (hp.trans hp')
    | raised hfa => exact .raised (hp.trans_falls hfa)
    | stopped hh m1 m2 => exact .stopped hh m1 m2
  | raised hfa => exact .raised hfa
  | stopped hh m1 m2 => exact .stopped hh m1 m2

theorem of_passes (hx : Affects (·.Orderly p) (Machine.Passes p) x q) : Tells p rounds x x q := by
  intro m hm
  cases hr : x m with
  | ok a m' => exact .ok (hx.gives hm hr) (hx.ok hm hr)
  | error halt m' =>
    cases halt with
    | raised fault => exact .raised ((hx.error hm hr).falls fault)
    | capacity | exhausted => exact .stopped (by rintro _ ⟨⟩) m' m'

end Tells

/-- **Nothing that code does but calls tells the two apart.** -/
theorem tells_lockstep (p : FunctionCode → Prop) : Lockstep p (Tells p rounds) where
  toEvaluates := (passes_lockstep p).weaken .of_passes .bind
  store name _ hn hv := .of_passes ((passes_lockstep p).store name hn hv)
  setLine line := .of_passes ((passes_lockstep p).setLine line)
  startFrame kind set := .of_passes ((passes_lockstep p).startFrame kind set)
  report step hs := .of_passes ((passes_lockstep p).report step hs)

/-! ## The end of a call -/

section

variable {code : FunctionCode} {traced : Bool} {depth : Nat} {m m1 : Machine} {call : Call} {rest : List Call}
  {fault : Fault}

/-- What a call leaves whose body ends without an exception. -/
def Machine.returned (m : Machine) (traced : Bool) (depth : Nat) : Machine :=
  { m with calls := m.calls.tail, trace := if traced then m.trace.unwindTo depth else m.trace }

/-- What a call leaves whose body raises an exception. -/
def Machine.failed (m : Machine) (rest : List Call) (traced : Bool) (fault : Fault) (index line depth : Nat) : Machine :=
  { m with
    calls := rest
    trace := if traced then m.trace.logCallException fault.kind.name fault.message index line depth else m.trace }

theorem Machine.lastException_failed (m : Machine) : (m.failed rest true fault i l d).trace.lastException
    = m.trace.lastException.or (some ⟨fault.kind.name, fault.message, some i, some l⟩) :=
  Trace.lastException_keepException (m.trace.logException _ _) _

theorem Machine.returned_performs (m : Machine) (traced : Bool) (depth : Nat) :
    ∃ ss, m.Performs ss (m.returned traced depth) ∧ Trace.Calm ss := by
  cases traced with
  | true => exact ⟨[.unwindTo depth], .step _ ⟨rfl, rfl⟩ rfl rfl .refl, .single rfl⟩
  | false => exact ⟨[], .nothing rfl rfl .refl, .nil⟩

theorem Eval.endCall_ok (m : Machine) : (popCall >>= fun l => endCall traced index l depth (.ok flow)) m
      = .ok flow.result (m.returned traced depth) := by
  obtain ⟨l, hp⟩ := popCall_eq m
  rw [ok_bind hp]
  cases traced with
  | true => rfl
  | false => rfl

theorem Eval.runCall_ok (hr : run (code.body traced) m = .ok flow m1) :
    runCall run code traced index depth m = .ok flow.result (m1.returned traced depth) := by
  have ha : attempt (run (code.body traced)) m = .ok (.ok flow) m1 := by
    rw [attempt, hr]
  unfold runCall
  rw [ok_bind ha, endCall_ok]

theorem Eval.holdCall_ok (hr : run (code.body traced) m = .ok flow m1) :
    holdCall run code traced index depth m = .ok flow.result (m1.returned traced depth) := by
  unfold holdCall
  rw [ok_bind hr, endCall_ok]

theorem Eval.runCall_raised (hr : run (code.body traced) m = .error (.raised fault) m1)
    (hp : popCall m1 = .ok line { m1 with calls := rest }) : runCall run code traced index depth m
      = .error (.raised fault) (m1.failed rest traced fault index line depth) := by
  have ha : attempt (run (code.body traced)) m = .ok (.error (.raised fault)) m1 := by
    rw [attempt, hr]
  unfold runCall
  rw [ok_bind ha, ok_bind hp]
  cases traced with
  | true => rfl
  | false => rfl

theorem Eval.runCall_stopped (hh : ∀ fault, halt ≠ .raised fault) (hr : run (code.body traced) m = .error halt m1) :
    ∃ m', runCall run code traced index depth m = .error halt m' := by
  have ha : attempt (run (code.body traced)) m = .ok (.error halt) m1 := by
    rw [attempt, hr]
  obtain ⟨l, hp⟩ := popCall_eq m1
  refine ⟨{ m1 with calls := m1.calls.tail }, ?_⟩
  unfold runCall
  rw [ok_bind ha, ok_bind hp]
  cases halt with
  | raised fault => exact absurd rfl (hh fault)
  | capacity => rfl
  | exhausted => rfl

theorem Eval.holdCall_error (hr : run (code.body traced) m = .error halt m1) :
    holdCall run code traced index depth m = .error halt m1 :=
  error_bind hr

end

/-! ## Calls -/

section

variable {p : FunctionCode → Prop} {m : Machine} {code : FunctionCode}

theorem Machine.calm_calling (m : Machine) (code : FunctionCode) : Trace.Calm (m.calling code) := by
  unfold Machine.calling
  split
  · exact forall_mem_cons.2 ⟨rfl, Trace.Calm.single rfl⟩
  · exact .single rfl

theorem Machine.Orderly.called (hm : m.Orderly p) (code : FunctionCode)
    (hl : ∀ x ∈ ls, x.2.Holds p) : (m.called code ls).Orderly p :=
  (m.called_performs code ls).orderly (m.calm_calling code) hm (hm.sound.called code hl)

theorem Machine.stack_called (ht : m.traces code = true) (ls : Scope) :
    (m.called code ls).trace.stack = m.trace.frames.size :: m.trace.stack := by
  unfold Machine.called
  rw [if_pos ht]
  rfl

theorem tracedBody_raises (hi : f.Settles p) (n : Nat) (hco : HasBodies p code) (hm : m.Sound p) :
    Ends (execBlock f n code.traced) m (fun _ _ => True) fun m' => m.trace.stack <:+ m'.trace.stack := by
  obtain ⟨ps, hf, hb⟩ := hco.traced
  rw [hb, execBlock_append]
  have hp := (plans_obey hi n hf m hm).mono (fun _ _ h => h) fun _ h => h.stack
  refine hp.andThen (fun _ _ => ?_) fun _ _ _ _ => trivial
  trivial

theorem HasBodies.codes (hco : HasBodies p code) (traced : Bool) : ∀ c ∈ blockCodes (code.body traced), p c := by
  cases traced with
  | true =>
    obtain ⟨ps, hf, hb⟩ := hco.traced
    rw [FunctionCode.body, if_pos rfl, hb, blockCodes_append, codes_emitAll]
    exact forall_mem_append.2 ⟨hf.codes, List.forall_mem_nil _⟩
  | false =>
    obtain ⟨ps, hf, hb⟩ := hco.plain
    rw [FunctionCode.body, if_neg Bool.false_ne_true, hb, codes_emitAll]
    exact hf.codes

/-- An exception that leaves the frame of a traced call open, and no other call's above it, leaves that call first. -/
theorem Machine.Orderly.entered (hm : m.Orderly p) (ht : m.traces code = true)
    (hs : (m.called code locals).Performs steps m1) (ho : (m.called code locals).trace.stack <:+ m1.trace.stack)
    (hin : ∀ i ∈ m1.trace.stack, i ∈ (m.called code locals).trace.stack ∨ i ∉ m1.trace.filed) :
    (m1.trace.callsOf code.id)[m.trace.invocations code.id]? = some m.trace.frames.size
      ∧ ∃ inner, m1.trace.stack = inner ++ m.trace.frames.size :: m.trace.stack ∧ ∀ i ∈ inner, i ∉ m1.trace.filed := by
  have ha : m1.trace.Arena := by
    rw [hs.trace, (m.called_performs code locals).trace]
    exact (hm.arena.moves (m.trace.moves_applyAll _)).moves (Trace.moves_applyAll _ _)
  have hf := Trace.callsOf_applyAll_getElem? _ _ (m.callsOf_called hm.counted ht locals) steps
  rw [← hs.trace] at hf
  obtain ⟨inner, hst⟩ := ho
  refine ⟨hf, inner, (m.stack_called ht locals) ▸ hst.symm, fun i hi => ?_⟩
  have hr := ha.rising
  rw [← hst] at hr hin
  refine (hin i (mem_append_left _ hi)).resolve_left fun hb => ?_
  exact Nat.lt_irrefl i ((pairwise_append.1 hr).2.2 i hi i hb)

section

variable {call : Call} {rest : List Call} {fault : Fault} {m1 raised : Machine} {n k : Nat} {ls : Scope}
  (hm : m.Orderly p) (hb : HasBodies p call.code) (hc : m1.calls = call :: rest)

include hm hb hc

/-- A traced call whose exception no traced call inside of it has recorded is the innermost, and is told of. -/
theorem Machine.Orderly.located (ht : m.traces call.code = true)
    (hr : execBlock (Eval.invoke n k) n call.code.traced (m.called call.code ls) = .error (.raised fault) m1)
    (hh : execBlock (hold n k) n call.code.traced (m.called call.code ls) = .error (.raised fault) raised)
    (ho : raised.trace.openCalls.head? = some m.trace.frames.size) :
    m.Located n fault raised (some
      { type := fault.kind.name, message := fault.message
        frameNumber := some (m.trace.invocations call.code.id), lineNumber := some call.line }) := by
  obtain ⟨line, z, hfa, _, _, hc', hl⟩ := block_fails (invoke_sameVariables n k) call.code.traced hb.homes
    (List.cons_ne_nil _ _) hr
  cases hc.symm.trans hc'
  have hto : (m.called call.code ls).trace.top = m.trace.frames.size := by
    rw [Trace.top, m.stack_called ht ls]
    rfl
  refine ⟨call.code, _, k, m.called call.code ls, line, z, _, m.called_performs call.code ls,
    ⟨⟨_, _, rfl, rfl⟩, hto ▸ m.callsOf_called hm.counted ht ls, hto ▸ ho, hh, m1, hfa⟩, ?_⟩
  rw [hl]

/-- An exception that has left the body of a call leaves the call, which is abandoned. Where the call is traced, what is
kept is told of the innermost traced one: this call, unless one inside of it has been told of already. -/
theorem Machine.Orderly.falls (hi : (Eval.invoke n k).Settles p) (hcl : (m.called call.code ls).Orderly p)
    (hf : (m.called call.code ls).Falls n fault raised m1)
    (hr : execBlock (Eval.invoke n k) n (call.code.body (m.traces call.code)) (m.called call.code ls)
      = .error (.raised fault) m1)
    (hh : execBlock (hold n k) n (call.code.body (m.traces call.code)) (m.called call.code ls)
      = .error (.raised fault) raised)
    (hl : m1.failed rest (m.traces call.code) fault (m.trace.invocations call.code.id) call.line m.trace.depth = m')
    (hs : m.Steady p m') : m.Falls n fault raised m' := by
  have hbe := m.called_performs call.code ls
  obtain ⟨ss, hse, hca⟩ := hf.history
  obtain ⟨_, hle⟩ := hf.abandons
  suffices ha : ∃ q, Abandons fault (call, q) m1 m'
      ∧ (m'.trace = raised.trace ∨ m.Located n fault raised m'.trace.lastException) by
    obtain ⟨q, ha, hk⟩ := ha
    exact ⟨⟨_, hbe.trans hse, (m.calm_calling call.code).append hca⟩, ⟨_, hle.concat ha⟩,
      congrArg (List.map _) hs.calls, fun i hi => .inl (hs.trace.stack ▸ hi), hk⟩
  cases ht : m.traces call.code with
  | false =>
    rw [ht] at hl
    subst hl
    exact ⟨none, .plain hc, hf.kept.imp_right hbe.located⟩
  | true =>
    rw [ht] at hl hr hh
    subst hl
    have hre := Records.execBlock (invoke_records n k) n (call.code.body true) (m.called call.code ls)
    rw [Eval.after, hr] at hre
    obtain ⟨_, hpe⟩ := hre
    have ho := (tracedBody_raises hi n hb hcl.sound).raised hr
    obtain ⟨hfi, inner, hsta, hin⟩ := hm.entered ht hpe ho hf.stack
    refine ⟨_, .traced hc hsta hm.arena.stack_ne_nil hin hfi, .inr ?_⟩
    rw [Machine.lastException_failed]
    rcases hf.kept with hsa | hl
    · have hno : m1.trace.lastException = none := by rw [hsa, hse.trace, hca.lastException, hcl.clear]
      have hop := Trace.openCalls_append hsta hin (Trace.mem_filed_of_mem_callsOf (mem_of_getElem? hfi))
      rw [hno]
      exact hm.located hb hc ht hr hh (by rw [← hsa, hop, head?_cons])
    · refine hbe.located ?_
      obtain ⟨c, index, room, start, line, last, past, hps, hfc, hke⟩ := hl
      exact ⟨c, index, room, start, line, last, past, hps, hfc, by rw [hke]; rfl⟩

end

/-- **A call tells the two apart only where an exception leaves it**: then it is abandoned, or is going on. -/
theorem callWith_tells (hp : ∀ code, p code → HasBodies p code) (n j : Nat)
    (hc : Lockstep.Calls p (Tells p n) (Eval.invoke n j) (hold n j)) (hco : p code)
    {args : List Value} (har : RowHolds p args) {keywords : Keywords} (hk : ∀ k ∈ keywords, k.2.Holds p) :
    Tells p n (callWith (execBlock (Eval.invoke n j) n) code args keywords)
      (holdWith (execBlock (hold n j) n) code args keywords) (·.Holds p) := by
  intro m hm
  cases hb : code.bind args keywords with
  | error fault =>
    rw [callWith_error hb, holdWith_error hb]
    exact .raised ((Machine.Passes.refl hm.sound).falls fault)
  | ok ls =>
    have hbo := hp code hco
    have hcl := hm.called code (code.bind_holds har hk ls hb)
    have hbe := m.called_performs code ls
    have hs := callWith_settles (invoke_settles hp n j) n hbo har hk m hm.sound
    have hbd := (tells_lockstep p).execBlock hc n _ (hbo.codes (m.traces code)) (fun _ _ => trivial) _ hcl
    unfold Ends at hs
    rw [callWith_ok hb] at hs ⊢
    rw [holdWith_ok hb]
    generalize hr : execBlock (Eval.invoke n j) n
      (if m.traces code then code.traced else code.plain) (m.called code ls) = x at hbd
    generalize hr' : execBlock (hold n j) n
      (if m.traces code then code.traced else code.plain) (m.called code ls) = y at hbd
    cases hbd with
    | @ok _ m1 hfl hpa =>
      obtain ⟨ss, hse, hca⟩ := hpa.history
      obtain ⟨z, hl, hca'⟩ := m1.returned_performs (m.traces code) m.trace.depth
      rw [holdCall_ok hr']
      rw [runCall_ok hr] at hs ⊢
      obtain ⟨-, hst⟩ := hs
      refine .ok hfl ⟨hst.sound, ⟨_, (hbe.trans hse).trans hl, ?_⟩,
        congrArg (List.map _) hst.calls, fun i hi => .inl (hst.trace.stack ▸ hi)⟩
      exact ((m.calm_calling code).append hca).append hca'
    | @raised fault raised m1 hf =>
      obtain ⟨call, rest, hc1, rfl⟩ := Machine.codes_cons hf.codes
      rw [holdCall_error hr']
      rw [runCall_raised hr (popCall_cons hc1)] at hs ⊢
      exact .raised (hm.falls hbo hc1 (invoke_settles hp n j) hcl hf hr hr' rfl hs)
    | stopped hh m1 m2 =>
      obtain ⟨m', hso⟩ := runCall_stopped hh hr
      rw [hso, holdCall_error hr']
      exact .stopped hh m' m2

/-- **Exceptions are held where they are raised**, however deep calls are nested. -/
theorem hold_tells (hp : ∀ code, p code → HasBodies p code) (n k : Nat) :
    Lockstep.Calls p (Tells p n) (Eval.invoke n k) (hold n k) := by
  induction k with
  | zero => exact fun _ _ _ _ _ _ => (tells_lockstep p).throw _
  | succ k ih =>
    exact fun code _ _ hc ha hk => callWith_tells hp n k ih hc ha hk

end

end Playback
