import Playback.Proofs.Traced
import Playback.Run

/-!
# Calls restore what they found

A call leaves the calls that are going on and the open frames as it found them, whichever of its bodies runs
and however that body ends. So evaluation is steady with calls nested to any depth: by induction on how much
deeper they may go.
-/

namespace Playback

open Eval List
open Lower (Plan Place emitAll FitAll Lowered)

variable {locals : Scope}

variable {p : FunctionCode → Prop}

/-! ## Arguments -/

variable {args : List Value} {keywords : Keywords}

theorem FunctionCode.bind_holds (code : FunctionCode) (ha : RowHolds p args) (hk : ∀ k ∈ keywords, k.2.Holds p) :
    Yields (code.bind args keywords) fun s => ∀ x ∈ s, x.2.Holds p := by
  refine (code.bind_mem args keywords).mono fun s hs x hx => ?_
  rcases mem_append.1 (hs x hx).2 with hx | hx
  · exact ha _ (of_mem_zip hx).2
  · exact hk x hx

/-! ## The end of a call -/

/-- A state inside a call that was made in `m`: the callers are the calls of `m`, and the frames that were
open then still are. -/
structure Machine.Inside (p : FunctionCode → Prop) (m m' : Machine) : Prop where
  sound : m'.Sound p
  depth : m'.calls.length = m.calls.length + 1
  callers : m'.calls.tail = m.calls
  frames : m.trace.Extends m'.trace
  stack : m.trace.stack <:+ m'.trace.stack

variable {code : FunctionCode} {m : Machine} {ps : List Plan}

variable {m' : Machine}

variable {e : Machine → Prop}

theorem popCall_ends (h : m.Inside p m') :
    Ends popCall m' (fun _ m'' => m''.calls = m.calls ∧ m''.Sound p ∧ m''.trace = m'.trace) e := by
  have hd := h.depth
  have hc := h.callers
  cases hca : m'.calls with
  | nil =>
    rw [hca] at hd
    cases hd
  | cons c r =>
    have hl := h.sound.locals
    rw [hca] at hc hl
    unfold Ends
    rw [popCall_cons hca]
    exact ⟨hc, ⟨h.sound.heap, h.sound.globals, (forall_mem_cons.1 hl).2, h.sound.trace⟩, rfl⟩

theorem Machine.Inside.unwindTo (hm : m.Sound p) (h : m.Inside p m') {m'' : Machine}
    (hc : m''.calls = m.calls) (hs : m''.Sound p) (hq : m'.trace.Quiet t) :
    m.Steady p { m'' with trace := t.unwindTo m.trace.stack.length } := by
  have hsu : m.trace.stack <:+ t.stack := hq.stack ▸ h.stack
  have hst : (t.unwindTo m.trace.stack.length).stack = m.trace.stack :=
    Trace.unwindTo_of_suffix hm.trace.open_ hsu
  have he : t.Extends (t.unwindTo m.trace.stack.length) := .of_frames rfl
  refine ⟨⟨hs.heap, hs.globals, hs.locals, ?_⟩, hc, hst, h.frames.trans (hq.extends_.trans he)⟩
  refine (hq.sound h.sound.trace).of_stack he ?_ fun _ hid => ?_
  · rw [hst]
    exact hm.trace.open_
  · rw [hst] at hid
    exact hsu.subset hid

/-- How the body of a call that was made in `m` ends. Only a traced body may leave frames open. -/
def BodyEnds (p : FunctionCode → Prop) (m : Machine) (traced : Bool) : Except Halt Flow → Machine → Prop
  | .ok flow, m' => flow.result.Holds p ∧ m.Inside p m' ∧ (traced = false → m'.trace.stack = m.trace.stack)
  | .error (.raised _), m' => m.Inside p m' ∧ (traced = false → m'.trace.stack = m.trace.stack)
  | .error _, _ => True

theorem attempt_ends (hx : Ends x m' q e) (hq : ∀ f m'', q f m'' → BodyEnds p m t (.ok f) m'')
    (he : ∀ ft m'', e m'' → BodyEnds p m t (.error (.raised ft)) m'') : Ends (attempt x) m' (BodyEnds p m t) e' := by
  unfold Ends at hx ⊢
  unfold attempt
  cases hr : x m' with
  | ok f m'' =>
    rw [hr] at hx
    exact hq f m'' hx
  | error halt m'' =>
    rw [hr] at hx
    cases halt with
    | raised ft => exact he ft m'' hx
    | capacity | exhausted => trivial

theorem popCall_stops {α : Type} (halt : Halt) (hh : ∀ f, halt ≠ .raised f) {q : α → Machine → Prop} :
    Ends (popCall >>= fun _ => (throw halt : Eval α)) m q e := by
  obtain ⟨l, hp⟩ := popCall_eq m
  cases halt with
  | raised f => exact absurd rfl (hh f)
  | capacity | exhausted => trivial

/-- **The end of a call gives everything back.** -/
theorem endCall_ends (hm : m.Sound p) (t : Bool) (i : Nat) {o : Except Halt Flow} (h : BodyEnds p m t o m') :
    Ends (popCall >>= fun l => endCall t i l m.trace.depth o) m'
      (fun v m'' => v.Holds p ∧ m.Steady p m'') (m.Steady p) := by
  match o with
  | .ok f =>
    obtain ⟨hr, hi, hp⟩ := h
    refine (popCall_ends hi).bind fun l m1 h1 => ?_
    obtain ⟨hc, hs, ht⟩ := h1
    cases t with
    | true => exact ⟨hr, hi.unwindTo hm hc hs (ht ▸ .refl _)⟩
    | false => exact ⟨hr, hs, hc, ht ▸ hp rfl, ht ▸ hi.frames⟩
  | .error (.raised e) =>
    obtain ⟨hi, hp⟩ := h
    refine (popCall_ends hi).bind fun l m1 h1 => ?_
    obtain ⟨hc, hs, ht⟩ := h1
    cases t with
    | true =>
      refine hi.unwindTo hm hc hs ?_
      rw [← ht]
      exact (m1.trace.quiet_push _).trans (Trace.quiet_keepException _ _)
    | false => exact ⟨hs, hc, ht ▸ hp rfl, ht ▸ hi.frames⟩
  | .error .capacity => exact popCall_stops .capacity nofun
  | .error .exhausted => exact popCall_stops .exhausted nofun

/-! ## The beginning of a call -/

/-- Whether a call of a function will be traced. -/
def Machine.traces (m : Machine) (code : FunctionCode) : Bool :=
  decide (m.trace.invocations code.id < m.trace.callLimit)

/-- A machine that has just come to the body of a call. -/
def Machine.called (m : Machine) (code : FunctionCode) (locals : Scope) : Machine :=
  { m with
    calls := { code, locals, line := 1 } :: m.calls
    trace :=
      if m.traces code then (m.trace.beginCall code.id).2.startDetached .functionCall "body" code.id
      else (m.trace.beginCall code.id).2 }

abbrev FunctionCode.body (code : FunctionCode) (traced : Bool) : List Instr :=
  if traced then code.traced else code.plain

/-- Runs the body of a call and ends the call. -/
def Eval.runCall (run : List Instr → Eval Flow) (code : FunctionCode) (traced : Bool) (index depth : Nat) :
    Eval Value := do
  let outcome ← attempt (run (code.body traced))
  let line ← popCall
  endCall traced index line depth outcome

section

theorem Machine.Sound.called (hm : m.Sound p) (code : FunctionCode)
    (hl : ∀ x ∈ locals, x.2.Holds p) : (m.called code locals).Sound p := by
  refine ⟨hm.heap, hm.globals, forall_mem_cons.2 ⟨hl, hm.locals⟩, ?_⟩
  have hc := (m.trace.quiet_beginCall code.id).sound hm.trace
  unfold Machine.called
  split
  · exact (Trace.opens_startDetached _ _ _ _).sound hc
  · exact hc

/-- Once a call is begun, what goes on knows from the trace whether it is traced and how many came before it. -/
theorem Eval.beginCall_called (m : Machine) (code : FunctionCode) (locals : Scope) (k : Bool → Nat → Nat → Eval Value) :
    (do
      let ticket ← beginCall code.id
      let depth := (← get).trace.depth
      if ticket.traced then
        onTrace (·.startDetached .functionCall "body" code.id)
      pushCall { code, locals, line := 1 }
      k ticket.traced ticket.index depth) m
      = k (m.traces code) (m.trace.invocations code.id) m.trace.depth (m.called code locals) := by
  change (do
      if m.traces code then
        onTrace (·.startDetached .functionCall "body" code.id)
      pushCall { code, locals, line := 1 }
      k (m.traces code) (m.trace.invocations code.id) m.trace.depth)
    { m with trace := (m.trace.beginCall code.id).2 } = _
  unfold Machine.called
  cases m.traces code with
  | true => rfl
  | false => rfl

theorem Eval.callWith_error {e : Fault} (hb : code.bind args keywords = .error e) :
    callWith run code args keywords m = .error (.raised e) m := by
  unfold callWith
  rw [hb]
  rfl

theorem Eval.callWith_ok (hb : code.bind args keywords = .ok locals) :
    callWith run code args keywords m = runCall run code (m.traces code) (m.trace.invocations code.id) m.trace.depth
        (m.called code locals) := by
  unfold callWith
  rw [hb]
  exact beginCall_called m code locals (runCall run code)

end

/-! ## Functions whose bodies are lowered -/

variable {invoke : Invoke}

theorem tracedBody_ends (hi : invoke.Settles p) (n : Nat) (hfi : FitAll p .function ps) (hm : m.Sound p)
    (he : m.Enters p .functionCall m') :
    Ends (execBlock invoke n (emitAll true ps ++ [.at 1 .endFrame])) m'
      (fun f m'' => f.result.Holds p ∧ m.Level p m'') (Breaks p m) := by
  rw [execBlock_append, execBlock_single]
  refine Ends.andThen ((plans_obey hi n hfi m' he.later.sound).mono
    (fun _ _ h => h) fun _ h => .of_enters he h) (fun m1 h1 => ?_) fun f m1 hf h1 => ?_
  · have ho : m.Enters p .functionCall m1 := he.level ⟨h1.later, h1.stack⟩
    refine (endFrame_ends n 1 hm ho).mono ?_ fun _ h => h
    rintro _ _ ⟨rfl, hl⟩
    exact ⟨Value.holds_none, hl⟩
  · cases f with
    | normal => exact absurd rfl hf
    | break_ | continue_ => cases h1.fits
    | return_ v =>
      obtain ⟨_, hs, -, hk⟩ := he.opens.stack
      refine ⟨h1.fits.2, he.later.trans h1.later, h1.stack.trans ?_⟩
      unfold Flow.leaves
      rw [hs]
      exact Trace.unwindThrough_kind hm.trace.open_ hk

theorem plainBody_stays (hi : invoke.Settles p) (n : Nat) (hfi : FitAll p .function ps) :
    Stays p (execBlock invoke n (emitAll false ps)) (·.result.Holds p) := by
  refine (plans_stay hi n hfi).mono fun f hf => ?_
  cases f with
  | normal | break_ | continue_ => exact Value.holds_none
  | return_ v => exact hf.2

theorem Machine.Inside.of_pushed {m1 : Machine} (h : m1.Later p m') (hc : m1.calls = c :: m.calls)
    (ht : m1.trace = m.trace) (hs : m.trace.stack <:+ m'.trace.stack) : m.Inside p m' :=
  ⟨h.sound, by rw [h.depth, hc]; rfl, by rw [h.callers, hc]; rfl, ht ▸ h.frames, hs⟩

theorem body_ends (hi : invoke.Settles p) (rounds : Nat) (hco : HasBodies p code) (hm : m.Sound p)
    (hl : ∀ x ∈ locals, x.2.Holds p) :
    Ends (attempt (execBlock invoke rounds (code.body (m.traces code)))) (m.called code locals)
      (BodyEnds p { m with trace := (m.trace.beginCall code.id).2 } (m.traces code)) e := by
  have hbe := (m.trace.quiet_beginCall code.id).sound hm.trace
  let call : Call := { code, locals, line := 1 }
  let pushed : Machine := { m with calls := call :: m.calls, trace := (m.trace.beginCall code.id).2 }
  have hp : pushed.Sound p := ⟨hm.heap, hm.globals, forall_mem_cons.2 ⟨hl, hm.locals⟩, hbe⟩
  unfold Machine.called
  cases m.traces code with
  | true =>
    obtain ⟨ps, hf, hb⟩ := hco.traced
    have ho := pushed.trace.opens_startDetached .functionCall "body" code.id
    have he : pushed.Enters p .functionCall
        { pushed with trace := pushed.trace.startDetached .functionCall "body" code.id } :=
      ⟨.of_trace hp (ho.sound hbe) ho.extends_, ho⟩
    rw [FunctionCode.body, hb]
    refine attempt_ends (tracedBody_ends hi rounds hf hp he) ?_ ?_
    · intro flow m'' h
      exact ⟨h.1, .of_pushed h.2.later rfl rfl (h.2.stack ▸ suffix_rfl), nofun⟩
    · exact fun fault m'' h => ⟨.of_pushed h.later rfl rfl h.stack, nofun⟩
  | false =>
    obtain ⟨ps, hf, hb⟩ := hco.plain
    rw [FunctionCode.body, hb]
    refine attempt_ends (plainBody_stays hi rounds hf pushed hp) ?_ ?_
    · intro flow m'' h
      exact ⟨h.1, .of_pushed h.2.later rfl rfl (h.2.stack ▸ suffix_rfl), fun _ => h.2.stack⟩
    · exact fun fault m'' h => ⟨.of_pushed h.later rfl rfl (h.stack ▸ suffix_rfl), fun _ => h.stack⟩

/-- **A call leaves the calls and the open frames as it found them**, traced or not, and however its body
ends. -/
theorem callWith_settles (hi : invoke.Settles p) (n : Nat) (hc : HasBodies p code)
    (ha : RowHolds p args) (hk : ∀ k ∈ keywords, k.2.Holds p) :
    Settles p (callWith (execBlock invoke n) code args keywords) (·.Holds p) := by
  intro m hm
  unfold Ends
  cases hbi : code.bind args keywords with
  | error e =>
    rw [callWith_error hbi]
    exact .refl hm
  | ok ls =>
    have hb : m.Steady p { m with trace := (m.trace.beginCall code.id).2 } :=
      .of_trace hm (m.trace.quiet_beginCall code.id)
    rw [callWith_ok hbi]
    refine Ends.bind (body_ends hi n hc hm (code.bind_holds ha hk ls hbi)) fun o _ h => ?_
    exact (endCall_ends hb.sound _ (m.trace.invocations code.id) h).mono
      (fun v m'' h' => ⟨h'.1, hb.trans h'.2⟩) fun m'' h' => hb.trans h'

/-- **Calls are steady to any depth.** -/
theorem invoke_settles (hp : ∀ code, p code → HasBodies p code) (n k : Nat) : (Eval.invoke n k).Settles p := by
  induction k with
  | zero => exact fun _ _ _ _ _ _ => (settles_evaluates _).throw _
  | succ k ih =>
    exact fun code _ _ hc ha hk =>
      callWith_settles ih n (hp code hc) ha hk

/-! ## The start of a run -/

/-- The calls that a machine starts with are none, and its heap and variables hold no functions. -/
theorem Machine.sound_ready (l : Limits) (m : Mode) (i : List String) :
    (Machine.ready l m i).Sound p ∧ (Machine.ready l m i).calls = []
      ∧ (Machine.ready l m i).trace = Trace.start l ∧ Heap.empty.Passes (Machine.ready l m i).heap := by
  have he : (Heap.empty).Holds p := Heap.holds_empty
  have hs : (Machine.start l i).Sound p :=
    ⟨he, forall_mem_nil _, forall_mem_nil _, Trace.sound_start l⟩
  cases m with
  | command | scheduled => exact ⟨hs, rfl, rfl, .refl⟩
  | request payload =>
    have hk := Value.ofJson_keeps (p := p) payload (Machine.start l i).heap he
    unfold Machine.ready
    dsimp only
    split at hk
    · rename_i v heap hv
      rw [hv]
      refine ⟨⟨hk.2.1, ?_, hs.locals, hs.trace⟩, rfl, rfl, hk.2.2⟩
      exact forall_mem_cons.2 ⟨hk.1, forall_mem_nil _⟩
    · rename_i halt heap hv
      rw [hv]
      exact ⟨⟨hk.1, hs.globals, hs.locals, hs.trace⟩, rfl, rfl, hk.2⟩

end Playback
