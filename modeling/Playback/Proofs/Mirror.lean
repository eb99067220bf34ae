import Playback.Proofs.Flat
import Playback.Proofs.Twins

/-!
# Runs side by side

Two runs of a program that trace another number of calls each do the same: their machines differ only in the
trace and in the lines that calls have reached (`Machine.Twins`). This is shown of the two runs at once.
`Both` is about one computation in each run: both end in the same way, with the same value or exception, and
in states that are as said.
-/

namespace Playback

open Eval
open Lower (Plan Links Place FitAll emitAll codesAll iterationBody)
open Trace (Pins Aligned)

variable {ft ft' : Option Fault} {t u t' : Trace}

/-! ## Machines side by side -/

/-- What a trace keeps as the last exception: none, or while one is on its way no other than that. -/
def Trace.Kept (ft : Option Fault) (t : Trace) : Prop :=
  match ft with
  | none => t.lastException = none
  | some ft => ∀ e ∈ t.lastException, e.type = ft.kind.name ∧ e.message = ft.message

theorem Trace.Kept.congr (h : t.Kept ft) (hu : u.lastException = t.lastException) : u.Kept ft := by
  unfold Trace.Kept at h ⊢
  rw [hu]
  exact h

/-- Calls that differ only in the line that they have reached. -/
structure Call.Twin (call call' : Call) : Prop where
  code : call'.code = call.code
  locals : call'.locals = call.locals

/-- Machines that differ only in the trace and in the lines of calls. -/
structure Machine.Twins (c : Nat × Nat) (ps : Pins) (ft : Option Fault) (m m' : Machine) :
    Prop where
  heap : m'.heap = m.heap
  globals : m'.globals = m.globals
  calls : List.Forall₂ Call.Twin m.calls m'.calls
  output : m'.output = m.output
  input : m'.input = m.input
  answers : m'.answers = m.answers
  response : m'.response = m.response
  trace : Trace.Twins c ps m.trace m'.trace
  kept : m.trace.Kept ft
  kept' : m'.trace.Kept ft

/-! ## Computations side by side -/

/-- Two computations ended in the same way. -/
inductive Agree {α : Type} (q : α → Machine → Machine → Prop) (e : Fault → Machine → Machine → Prop) :
    EStateM.Result Halt Machine α → EStateM.Result Halt Machine α → Prop where
  | ok : q a m m' → Agree q e (.ok a m) (.ok a m')
  | raised {ft : Fault} : e ft m m' → Agree q e (.error (.raised ft) m) (.error (.raised ft) m')
  | capacity (m m' : Machine) : Agree q e (.error .capacity m) (.error .capacity m')
  | exhausted (m m' : Machine) : Agree q e (.error .exhausted m) (.error .exhausted m')

/-- From two states, two computations end in the same way, with the same value and in states that are as said,
or with the same exception. -/
def Both {α : Type} (x x' : Eval α) (m m' : Machine) (q : α → Machine → Machine → Prop)
    (e : Fault → Machine → Machine → Prop) : Prop :=
  Agree q e (x m) (x' m')

variable {c : Nat × Nat} {n n' : Machine} {on : Bool × Bool} {ps ps' : Pins} {α β : Type}

namespace Both

variable {x : Eval α} {m m' : Machine} {q : α → Machine → Machine → Prop} {e : Fault → Machine → Machine → Prop}
  {r : β → Machine → Machine → Prop}

theorem pure (h : q a m m') : Both (Pure.pure a) (Pure.pure a) m m' q e :=
  .ok h

theorem of_ok (hx : x m = .ok a n) (hx' : x' m' = .ok a n') (h : q a n n') : Both x x' m m' q e := by
  unfold Both
  rw [hx, hx']
  exact .ok h

theorem bind (hx : Both x x' m m' q e)
    (hf : ∀ a n n', q a n n' → Both (f a) (f' a) n n' r e) : Both (x >>= f) (x' >>= f') m m' r e := by
  change Agree r e (EStateM.bind x f m) (EStateM.bind x' f' m')
  unfold Both at hx
  unfold EStateM.bind
  generalize x m = out at hx
  generalize x' m' = out' at hx
  cases hx with
  | ok h => exact hf _ _ _ h
  | raised h => exact .raised h
  | capacity n n' => exact .capacity n n'
  | exhausted n n' => exact .exhausted n n'

theorem step (hx : x m = .ok a n) (hx' : x' m' = .ok a' n')
    (h : Both (f a) (f' a') n n' r e) : Both (x >>= f) (x' >>= f') m m' r e := by
  unfold Both
  rwa [ok_bind hx, ok_bind hx']

theorem mono (hx : Both x x' m m' q e) (hq : ∀ a n n', q a n n' → q1 a n n')
    (he : ∀ ft n n', e ft n n' → e1 ft n n') : Both x x' m m' q1 e1 := by
  unfold Both at hx ⊢
  generalize x m = out at hx ⊢
  generalize x' m' = out' at hx ⊢
  cases hx with
  | ok h => exact .ok (hq _ _ _ h)
  | raised h => exact .raised (he _ _ _ h)
  | capacity n n' => exact .capacity n n'
  | exhausted n n' => exact .exhausted n n'

theorem ends (hx : Both x x' m m' q e)
    (h : Ends x m q0 e0) (h' : Ends x' m' q0' e0') : Both x x' m m' (fun a n n' => q a n n' ∧ q0 a n ∧ q0' a n')
      fun ft n n' => e ft n n' ∧ e0 n ∧ e0' n' := by
  unfold Both at hx ⊢
  unfold Ends at h h'
  generalize x m = out at hx h ⊢
  generalize x' m' = out' at hx h' ⊢
  cases hx with
  | ok hq => exact .ok ⟨hq, h, h'⟩
  | raised he => exact .raised ⟨he, h, h'⟩
  | capacity n n' => exact .capacity n n'
  | exhausted n n' => exact .exhausted n n'

theorem also (hx : Both x x' m m' q e)
    (h : Ends x m q0 e0) (h' : Ends x' m' q0' e0') : Both x x' m m' (fun a n n' => q a n n' ∧ q0 a n ∧ q0' a n') e :=
  (hx.ends h h').mono (fun _ _ _ h => h) fun _ _ _ h => h.1

end Both

namespace Machine.Twins

variable {ft : Option Fault} {m m' : Machine}

theorem sub (h : m.Twins c ps' ft m') (hs : ps.Sub ps') : m.Twins c ps ft m' :=
  { h with trace := h.trace.sub hs }

theorem raised (h : m.Twins c ps none m') (ft : Fault) : m.Twins c ps (some ft) m' := by
  have hn : ∀ t : Trace, t.Kept none → t.Kept (some ft) := by
    intro t hk e he
    rw [show t.lastException = none from hk] at he
    cases he
  exact { h with kept := hn _ h.kept, kept' := hn _ h.kept' }

variable (h : m.Twins c ps ft m')

include h

theorem setHeap (heap : Heap) : Machine.Twins c ps ft { m with heap } { m' with heap } :=
  { h with heap := rfl }

theorem setTrace (ht : Trace.Twins c ps' t t') (hk : t.Kept ft') (hk' : t'.Kept ft') :
    Machine.Twins c ps' ft' { m with trace := t } { m' with trace := t' } :=
  { h with trace := ht, kept := hk, kept' := hk' }

theorem same (ht : m.trace.Same t) (ht' : m'.trace.Same t') :
    Machine.Twins c ps ft { m with trace := t } { m' with trace := t' } :=
  h.setTrace (h.trace.congr ht ht') (h.kept.congr ht.lastException) (h.kept'.congr ht'.lastException)

theorem globalValue (x : String) : m'.globalValue x = m.globalValue x := by
  unfold Machine.globalValue
  rw [h.globals, h.answers]

theorem value (x : String) : m'.value x = m.value x := by
  unfold Machine.value
  have hc := h.calls
  generalize m.calls = calls at hc ⊢
  generalize m'.calls = calls' at hc ⊢
  cases hc with
  | nil => exact h.globalValue x
  | cons hca _ =>
    dsimp only
    rw [hca.locals, hca.code, h.globalValue x]

theorem setVariable (x : String) (v : Value) : (m.setVariable x v).Twins c ps ft (m'.setVariable x v) := by
  have hc := h.calls
  unfold Machine.setVariable
  generalize hm : m.calls = calls at hc ⊢
  generalize hm' : m'.calls = calls' at hc ⊢
  cases hc with
  | nil => exact { h with globals := congrArg (Scope.put x v) h.globals, calls := .nil }
  | cons hca hr =>
    exact { h with calls := .cons ⟨hca.code, by rw [hca.locals]⟩ hr }

theorem setLine_left (l : Nat) : (m.setLine l).Twins c ps ft m' := by
  have hc := h.calls
  unfold Machine.setLine
  generalize hm : m.calls = calls at hc ⊢
  generalize hm' : m'.calls = calls' at hc ⊢
  cases hc with
  | nil => exact h
  | cons hca hr => exact { h with calls := hm' ▸ .cons ⟨hca.code, hca.locals⟩ hr }

theorem setLine_right (l : Nat) : m.Twins c ps ft (m'.setLine l) := by
  have hc := h.calls
  unfold Machine.setLine
  generalize hm : m.calls = calls at hc ⊢
  generalize hm' : m'.calls = calls' at hc ⊢
  cases hc with
  | nil => exact h
  | cons hca hr => exact { h with calls := hm ▸ .cons ⟨hca.code, hca.locals⟩ hr }

end Machine.Twins

/-! ## What leaves the frames alone -/

/-- A computation stays in its call and leaves the open frames as they were, and does the same in both
runs. -/
structure Mirrors (c : Nat × Nat) {α : Type} (x : Eval α) (q : α → Prop) : Prop where
  stays : Stays Planned x q
  both {ps : Pins} {m m' : Machine} : m.Sound Planned → m'.Sound Planned → m.Twins c ps none m' →
    Both x x m m' (fun _ n n' => n.Twins c ps none n') fun ft n n' => n.Twins c ps (some ft) n'

namespace Mirrors

variable {x : Eval α} {q : α → Prop} {r : β → Prop}

theorem pure (ha : q a) : Mirrors c (Pure.pure a) q :=
  ⟨.pure ha, fun _ _ h => .pure h⟩

theorem bind (hx : Mirrors c x q) (hf : ∀ a, q a → Mirrors c (f a) r) : Mirrors c (x >>= f) r := by
  refine ⟨hx.stays.bind fun a ha => (hf a ha).stays, fun {_ m m'} hm hm' h => ?_⟩
  refine ((hx.both hm hm' h).also (hx.stays m hm) (hx.stays m' hm')).bind fun a n _ h => ?_
  obtain ⟨ht, ⟨ha, hl⟩, -, hl'⟩ := h
  exact (hf a ha).both hl.later.sound hl'.later.sound ht

theorem throw (halt : Halt) : Mirrors c (MonadExcept.throw halt : Eval α) q := by
  refine ⟨(stays_runs Planned).throw halt, fun _ _ h => ?_⟩
  cases halt with
  | raised ft => exact .raised (h.raised ft)
  | capacity => exact .capacity _ _
  | exhausted => exact .exhausted _ _

end Mirrors

theorem mirrors_assigns (c : Nat × Nat) : AssignsOn (fun _ => True) Planned fun x _ q => Mirrors c x q where
  pure := .pure
  bind := .bind
  throw := .throw
  heap := by
    refine ⟨(stays_runs Planned).heap, fun {_ m m'} _ _ h => ?_⟩
    change Both (Pure.pure m.heap) (Pure.pure m'.heap) m m' _ _
    rw [h.heap]
    exact .ok h
  onHeap {_ x _} hx := by
    refine ⟨(stays_runs Planned).onHeap hx, fun {ps m m'} hm hm' h => ?_⟩
    unfold Both Eval.onHeap
    dsimp only
    rw [h.heap]
    cases x m.heap with
    | ok a heap => exact .ok (h.setHeap heap)
    | error halt heap =>
      cases halt with
      | raised ft => exact .raised ((h.setHeap heap).raised ft)
      | capacity => exact .capacity _ _
      | exhausted => exact .exhausted _ _
  load name := by
    refine ⟨(stays_runs Planned).load name, fun {ps m m'} hm hm' h => ?_⟩
    change Both (lift (m.value name)) (lift (m'.value name)) m m' _ _
    rw [h.value name]
    cases m.value name with
    | ok v => exact .ok h
    | error ft => exact .raised (h.raised ft)
  write text := by
    refine ⟨(stays_runs Planned).write text, fun {ps m m'} hm hm' h => .ok ?_⟩
    have hs := h.same (m.trace.same_write text) (m'.trace.same_write text)
    exact { hs with output := congrArg (· ++ text) h.output }
  readLine := by
    refine ⟨(stays_runs Planned).readLine, fun {ps m m'} hm hm' h => ?_⟩
    cases hi : m.input with
    | nil =>
      unfold Both
      rw [readLine_nil hi, readLine_nil (h.input.trans hi)]
      exact .raised (h.raised _)
    | cons l r =>
      exact .of_ok (readLine_cons hi) (readLine_cons (h.input.trans hi)) { h with input := rfl }
  publish v := ⟨(stays_runs Planned).publish v, fun _ _ h => .ok { h with response := rfl }⟩
  store name v _ hv := ⟨.store name hv, fun _ _ h => .ok (h.setVariable name v)⟩

/-- Calls leave everything but the heap and the variables of the file as they were, and do the same in both
runs. -/
structure Invoke.Mirrors (c : Nat × Nat) (invoke : Invoke) : Prop where
  settles : invoke.Settles Planned
  mirrors : Evaluates.Calls Planned (Playback.Mirrors c) invoke

/-! ## States side by side -/

/-- Where an exception leaves two runs: both report to where they did at some point before. -/
def Raises (c : Nat × Nat) (on : Bool × Bool) (ps : Pins) (ft : Fault) (n n' : Machine) : Prop :=
  ∃ ps' : Pins, ps.Sub ps' ∧ n.Twins c ps' (some ft) n' ∧ Aligned on ps' n.trace n'.trace

theorem Raises.sub {ft : Fault} (h : Raises c on ps' ft n n') (hs : ps.Sub ps') : Raises c on ps ft n n' := by
  obtain ⟨ps'', hs', ht, ha⟩ := h
  exact ⟨ps'', hs.trans hs', ht, ha⟩

/-- States after `m` and `m'` in which the same frames are open as in those, and in which both runs report to
where they did. -/
structure Beside (c : Nat × Nat) (on : Bool × Bool) (ps : Pins) (m m' n n' : Machine) :
    Prop where
  twins : n.Twins c ps none n'
  aligned : Aligned on ps n.trace n'.trace
  level : m.Level Planned n
  level' : m'.Level Planned n'

/-- States after `m` and `m'` in which, where the runs are traced, a frame was opened. -/
structure Opened (c : Nat × Nat) (on : Bool × Bool) (ps : Pins) (kd : Trace.Kind)
    (m m' n n' : Machine) : Prop where
  twins : n.Twins c ps none n'
  aligned : Aligned on ps n.trace n'.trace
  begun : Begun Planned on.1 kd m n
  begun' : Begun Planned on.2 kd m' n'

section

variable {kd : Trace.Kind} {m m' k k' : Machine}

theorem Beside.refl (hm : m.Sound Planned) (hm' : m'.Sound Planned) (h : m.Twins c ps none m')
    (ha : Aligned on ps m.trace m'.trace) : Beside c on ps m m' m m' :=
  ⟨h, ha, .refl hm, .refl hm'⟩

theorem Beside.of_level (h : Beside c on ps m m' n n')
    (ht : k.Twins c ps none k') (hl : n.Level Planned k) (hl' : n'.Level Planned k') : Beside c on ps m m' k k' :=
  ⟨ht, h.aligned.of_stack hl.stack hl'.stack, h.level.trans hl, h.level'.trans hl'⟩

theorem Beside.sound (h : Beside c on ps m m' n n') : n.Sound Planned :=
  h.level.later.sound

theorem Beside.sound' (h : Beside c on ps m m' n n') : n'.Sound Planned :=
  h.level'.later.sound

theorem Beside.here (h : Beside c on ps m m' n n') : Beside c on ps n n' n n' :=
  .refl h.sound h.sound' h.twins h.aligned

theorem Beside.setLine (h : Beside c on ps m m' n n') (l : Nat) : Beside c on ps m m' (n.setLine l) (n'.setLine l) :=
  h.of_level ((h.twins.setLine_left l).setLine_right l) (.setLine h.sound l) (.setLine h.sound' l)

theorem Opened.here (h : Opened c on ps kd m m' n n') : Beside c on ps n n' n n' :=
  .refl h.begun.later.sound h.begun'.later.sound h.twins h.aligned

theorem Opened.beside (h : Opened c on ps kd m m' n n') (h' : Beside c on ps n n' k k') : Opened c on ps kd m m' k k' :=
  ⟨h'.twins, h'.aligned, h.begun.level h'.level, h.begun'.level h'.level'⟩

theorem Mirrors.beside (hx : Mirrors c x q) (h : Beside c on ps m m' n n') :
    Both x x n n' (fun a k k' => q a ∧ Beside c on ps m m' k k') (Raises c on ps) := by
  refine ((hx.both h.sound h.sound' h.twins).ends (hx.stays n h.sound) (hx.stays n' h.sound')).mono ?_ ?_
  · rintro a k k' ⟨ht, ⟨ha, hl⟩, -, hl'⟩
    exact ⟨ha, h.of_level ht hl hl'⟩
  · rintro _ k k' ⟨ht, hl, hl'⟩
    exact ⟨ps, .refl ps, ht, h.aligned.of_stack hl.stack hl'.stack⟩

/-! ## Reports -/

def Eval.when (traced : Bool) (x : Eval Unit) : Eval Unit :=
  if traced then x else return

variable {x : Eval Unit}

theorem Settles.when (hx : Settles p x fun _ => True) (t : Bool) : Settles p (when t x) fun _ => True := by
  cases t with
  | true => exact hx
  | false => exact .pure trivial

theorem Eval.when_ok (h : x m = .ok () { m with trace := t }) (b : Bool) :
    when b x m = .ok () { m with trace := if b then t else m.trace } := by
  cases b with
  | true => exact h
  | false => rfl

theorem Trace.Kept.when (h : t.Kept ft)
    (hu : u.lastException = t.lastException) (b : Bool) : (if b then u else t).Kept ft := by
  cases b with
  | true => exact h.congr hu
  | false => exact h

variable {e : Fault → Machine → Machine → Prop}

theorem Beside.report (h : Beside c on ps m m' n n') (hx : Settles Planned x fun _ => True) {t : Machine → Trace}
    (hr : ∀ k, x k = .ok () { k with trace := t k }) (hk : ∀ k, (t k).lastException = k.trace.lastException)
    (ht : Trace.Twins c ps (if on.1 then t n else n.trace) (if on.2 then t n' else n'.trace)) :
    Both (when on.1 x) (when on.2 x) n n' (fun _ => Beside c on ps m m') e := by
  have hw := when_ok (hr n) on.1
  have hw' := when_ok (hr n') on.2
  have hke := h.twins.setTrace ht (h.twins.kept.when (hk n) _) (h.twins.kept'.when (hk n') _)
  exact .of_ok hw hw' (h.of_level hke (((hx.when _) n h.sound).ok hw).2.level
    (((hx.when _) n' h.sound').ok hw').2.level)

theorem Beside.log (h : Beside c on ps m m' n n') (kd : Option Trace.Kind) (v : Value) :
    Both (when on.1 (log kd v)) (when on.2 (log kd v)) n n'
      (fun _ => Beside c on ps m m') e := by
  refine h.report (.log kd v) (fun _ => rfl) (fun _ => rfl) ?_
  rw [h.twins.heap]
  exact h.twins.trace.logResult h.aligned kd _ _

theorem Beside.turn (h : Beside c on ps m m' n n') (set : String) :
    Both (when on.1 (onTrace (·.turn set))) (when on.2 (onTrace (·.turn set))) n n'
      (fun _ => Beside c on ps m m') e :=
  h.report (.onTrace fun t => t.quiet_turn set) (fun _ => rfl) (fun _ => rfl) (h.twins.trace.turn h.aligned set)

theorem startFrame_begun (h : m.Level p n) (t : Bool) (kd : Trace.Kind) (set : String) :
    Ends (when t (startFrame kd set)) n (fun _ k => Begun p t kd m k) (Breaks p m) := by
  cases t with
  | true => exact startFrame_ends h kd set
  | false => exact h

theorem Beside.open (h : Beside c on ps m m' n n') (kd : Trace.Kind) (set : String) :
    Both (when on.1 (startFrame kd set)) (when on.2 (startFrame kd set)) n n'
      (fun _ k k' => ∃ ps' : Pins, ps.Sub ps' ∧ Opened c on ps' kd m m' k k') e := by
  have hru : ∀ k : Machine, k.trace.iterationLimit = none →
      startFrame kd set k = .ok () { k with trace := k.trace.addFrame kd set } := by
    intro k hli
    have hf : k.trace.isFull = false := by rw [Trace.isFull, hli]
    rw [startFrame_eq, hf]
    rfl
  have hk (t : Trace) : (t.addFrame kd set).lastException = t.lastException := rfl
  obtain ⟨g, ht, -⟩ := h.twins.trace
  have hl := when_ok (hru n ht.unlimited.1) on.1
  have hr := when_ok (hru n' ht.unlimited.2) on.2
  obtain ⟨ps', hs, ha, htw⟩ := h.twins.trace.addFrame h.aligned kd set
  refine .of_ok hl hr ⟨ps', hs, ?_, ha, ?_, ?_⟩
  · exact h.twins.setTrace htw (h.twins.kept.when (hk _) _) (h.twins.kept'.when (hk _) _)
  · exact (startFrame_begun h.level on.1 kd set).ok hl
  · exact (startFrame_begun h.level' on.2 kd set).ok hr

end

end Playback
