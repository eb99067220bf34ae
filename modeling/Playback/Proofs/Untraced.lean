import Playback.Proofs.Steady

/-!
# Code without a trace

Code without a trace leaves the open frames as they were, however it ends, and of the calls that are going on
it changes only its own (`Stays`). The rules for sequences and loops at the start of this are about any
computation; code with a trace is shown from them too.
-/

namespace Playback

open Eval List
open Lower (Plan Links Place emitAll FitAll)

variable {m : Machine} {n : Nat} {p : FunctionCode → Prop} {α : Type}

variable {v : Value} {i j : Machine → Prop}

/-- A later state in the same call: the callers are where they were, and no frame is gone. -/
structure Machine.Later (p : FunctionCode → Prop) (m m' : Machine) : Prop where
  sound : m'.Sound p
  depth : m'.calls.length = m.calls.length
  callers : m'.calls.tail = m.calls.tail
  frames : m.trace.Extends m'.trace

/-- A later state in the same call with the same frames open. -/
structure Machine.Level (p : FunctionCode → Prop) (m m' : Machine) : Prop where
  later : m.Later p m'
  stack : m'.trace.stack = m.trace.stack

namespace Machine

variable {m' m'' : Machine}

theorem Later.refl (hm : m.Sound p) : m.Later p m :=
  ⟨hm, rfl, rfl, .refl _⟩

theorem Later.trans (h : m.Later p m') (h' : m'.Later p m'') : m.Later p m'' :=
  ⟨h'.sound, h'.depth.trans h.depth, h'.callers.trans h.callers, h.frames.trans h'.frames⟩

theorem Level.refl (hm : m.Sound p) : m.Level p m :=
  ⟨.refl hm, rfl⟩

theorem Level.trans (h : m.Level p m') (h' : m'.Level p m'') : m.Level p m'' :=
  ⟨h.later.trans h'.later, h'.stack.trans h.stack⟩

theorem Steady.level (h : m.Steady p m') : m.Level p m' :=
  ⟨⟨h.sound, by rw [h.calls], by rw [h.calls], h.trace.extends_⟩, h.trace.stack⟩

theorem Later.of_trace (hm : m.Sound p) (hs : t.Sound) (ht : m.trace.Extends t) : m.Later p { m with trace := t } :=
  ⟨⟨hm.heap, hm.globals, hm.locals, hs⟩, rfl, rfl, ht⟩

/-- Frames are closed, not all of them. -/
theorem Later.cut (h : m.Later p m') (he : m'.trace.Extends t) (hn : t.stack ≠ []) (hs : t.stack <:+ m'.trace.stack) :
    m.Later p { m' with trace := t } :=
  h.trans (.of_trace h.sound (h.sound.trace.of_stack he hn fun _ hid => hs.subset hid) he)

@[simp] theorem trace_setLine (m : Machine) (l : Nat) : (m.setLine l).trace = m.trace := by
  unfold Machine.setLine
  split <;> rfl

theorem trace_setVariable (m : Machine) (x : String) (v : Value) : (m.setVariable x v).trace = m.trace := by
  unfold Machine.setVariable
  split <;> rfl

theorem Level.setLine (hm : m.Sound p) (l : Nat) : m.Level p (m.setLine l) := by
  unfold Machine.setLine
  split
  · exact .refl hm
  · rename_i c r hc
    refine ⟨⟨⟨hm.heap, hm.globals, ?_, hm.trace⟩, by rw [hc]; rfl, by rw [hc]; rfl, .refl _⟩, rfl⟩
    have hl := hm.locals
    rw [hc] at hl
    exact forall_mem_cons.2 (forall_mem_cons.1 hl)

theorem Level.setVariable (hm : m.Sound p) (x : String) (hv : v.Holds p) : m.Level p (m.setVariable x v) := by
  unfold Machine.setVariable
  split
  · rename_i hc
    exact ⟨⟨⟨hm.heap, Scope.forall_put hm.globals hv, hm.locals, hm.trace⟩, rfl, rfl, .refl _⟩, rfl⟩
  · rename_i c r hc
    refine ⟨⟨⟨hm.heap, hm.globals, ?_, hm.trace⟩, by rw [hc]; rfl, by rw [hc]; rfl, .refl _⟩, rfl⟩
    have hl := hm.locals
    rw [hc] at hl
    obtain ⟨hca, hr⟩ := forall_mem_cons.1 hl
    exact forall_mem_cons.2 ⟨Scope.forall_put hca hv, hr⟩

end Machine

/-! ## Steps within a call -/

/-- A computation stays in its call and leaves the open frames as they were; its value is as said. -/
def Stays {α : Type} (p : FunctionCode → Prop) (x : Eval α) (q : α → Prop) : Prop :=
  ∀ m, m.Sound p → Ends x m (fun a m' => q a ∧ m.Level p m') (m.Level p)

theorem Settles.stays {x : Eval α} {q : α → Prop} (h : Settles p x q) : Stays p x q :=
  fun m hm => (h m hm).mono (fun _ _ h => ⟨h.1, h.2.level⟩) fun _ h => h.level

namespace Stays

variable {β : Type} {x : Eval α} {q : α → Prop} {r : β → Prop}

theorem pure (ha : q a) : Stays p (Pure.pure a) q :=
  fun _ hm => ⟨ha, .refl hm⟩

theorem bind (hx : Stays p x q) (hf : ∀ a, q a → Stays p (f a) r) : Stays p (x >>= f) r := by
  intro m hm
  refine (hx m hm).bind fun a m' h => ?_
  obtain ⟨ha, hl⟩ := h
  refine (hf a ha m' hl.later.sound).mono ?_ ?_
  · exact fun b m'' h => ⟨h.1, hl.trans h.2⟩
  · exact fun _ => hl.trans

theorem mono (hx : Stays p x q) (h : ∀ a, q a → q' a) : Stays p x q' :=
  fun m hm => (hx m hm).mono (fun a _ ha => ⟨h a ha.1, ha.2⟩) fun _ h => h

theorem store (x : String) (hv : v.Holds p) : Stays p (store x v) fun _ => True :=
  fun _ hm => ⟨trivial, .setVariable hm x hv⟩

theorem setLine (l : Nat) : Stays p (modify (·.setLine l)) fun _ => True :=
  fun _ hm => ⟨trivial, .setLine hm l⟩

end Stays

/-! ## Assignment and imports -/

theorem stays_runs (p : FunctionCode → Prop) : RunsOn (fun _ => True) p fun x _ q => Stays p x q where
  toEvaluates := (settles_evaluates p).weaken Settles.stays .bind
  store name _ _ hv := .store name hv
  setLine := .setLine

theorem roundFrame?_plain (he : e.Plain) : roundFrame? e = none := by
  cases he with
  | intro hq _ => cases e <;> first | rfl | cases hq

section

theorem Invoke.Settles.stays (hi : g.Settles p) : Evaluates.Calls p (Stays p) g :=
  fun c as ks hc ha hk => (hi c as ks hc ha hk).stays

theorem assign_stays (hi : g.Settles p) (t : Target) (ht : t.Plain)
    (hv : v.Holds p) : Stays p (assign g t v) fun _ => True :=
  (stays_runs p).assign hi.stays t (.inl ht) (fun _ _ => trivial) hv

theorem assignAll_stays (hi : g.Settles p) (ts : List Target) (hts : ∀ t ∈ ts, t.Plain)
    (vs : List Value) (hvs : RowHolds p vs) : Stays p (assignAll g ts vs) fun _ => True :=
  (stays_runs p).assignAll hi.stays ts (.inl hts) (fun _ _ => trivial) vs hvs

theorem loadModule_stays (x : String) : Stays p (loadModule x) fun _ => True :=
  (stays_runs p).loadModule x

theorem importAll_stays (ns : List String) : Stays p (importAll ns) fun _ => True :=
  (stays_runs p).importAll ns fun _ _ => trivial

theorem importNames_stays (l : Library) (module : String) (ns : List String) :
    Stays p (importNames l module ns) fun _ => True :=
  (stays_runs p).importNames l module ns fun _ _ => trivial

end

/-! ## Sequences and loops -/

/-- What a flow carries is as it may be at a place: a loop is left only inside one, and what is returned holds
only functions with the property. -/
def Flow.Fits (p : FunctionCode → Prop) (pl : Place) : Flow → Prop
  | .normal => True
  | .break_ => pl.inLoop = true
  | .continue_ => pl.inLoop = true
  | .return_ v => pl.inFunction = true ∧ v.Holds p

theorem Flow.Fits.afterRound {f : Flow}
    (h : f.Fits p { pl with inLoop := true }) : f.AfterRound True (Flow.Fits p pl) := by
  cases f with
  | normal | break_ | continue_ => trivial
  | return_ v => exact h

/-- Goes on with something where nothing left before. -/
def Eval.andThen (x y : Eval Flow) : Eval Flow := do
  match ← x with
  | .normal => y
  | flow => return flow

theorem Eval.execBlock_cons (g : Invoke) (n : Nat) (i : Instr) (r : List Instr) : execBlock g n (i :: r)
      = andThen (exec g n i) (execBlock g n r) := by
  rfl

theorem Eval.execBlock_append (g : Invoke) (n : Nat) (xs ys : List Instr) : execBlock g n (xs ++ ys)
      = andThen (execBlock g n xs) (execBlock g n ys) := by
  induction xs with
  | nil =>
    rw [nil_append, execBlock, andThen, pure_bind]
  | cons i r ih =>
    rw [cons_append, execBlock, execBlock, ih]
    unfold andThen
    rw [bind_assoc]
    refine bind_congr fun f => ?_
    cases f <;> simp

theorem Eval.execBlock_single (g : Invoke) (n : Nat) (i : Instr) : execBlock g n [i] = exec g n i := by
  rw [execBlock, ← bind_pure (exec g n i), bind_assoc]
  refine bind_congr fun f => ?_
  rw [pure_bind]
  cases f with
  | normal => rw [execBlock]
  | break_ | continue_ | return_ => rfl

variable {r : Flow → Machine → Prop} {e : Machine → Prop}

theorem Ends.andThen (hx : Ends x m q e)
    (hy : ∀ m', q .normal m' → Ends y m' r e) (hl : ∀ f m', f ≠ .normal → q f m' → r f m') :
    Ends (andThen x y) m r e := by
  refine hx.bind fun f m' h => ?_
  cases f with
  | normal => exact hy m' h
  | break_ | continue_ | return_ => exact hl _ m' nofun h

/-- A loop on a condition: `i` holds before each condition, `j` before each round of the body. -/
theorem Ends.whileLoop (hc : ∀ m, i m → Ends c m (fun b m' => if b then j m' else r .normal m') e)
    (hbo : ∀ m, j m → Ends bd m (fun f m' => f.AfterRound (i m') (r · m')) e) (n : Nat) (hm : i m) :
    Ends (whileLoop c bd n) m r e := by
  induction n generalizing m with
  | zero => trivial
  | succ n ih =>
    refine (hc m hm).bind fun b m' hb => ?_
    cases b with
    | false => exact hb
    | true =>
      refine (hbo m' hb).bind fun f _ h => ?_
      cases f with
      | normal | continue_ => exact ih h
      | break_ | return_ => exact h

/-- A loop over elements: `i` holds before each element is taken in, `j` before each round of the body. -/
theorem Ends.forLoop (hb : ∀ m v, i m → v.Holds p → Ends (begin_ v) m (fun _ => j) e)
    (hbo : ∀ m, j m → Ends b m (fun f m' => f.AfterRound (i m') (r · m')) e) (he : ∀ m, i m → r .normal m)
    (n : Nat) (hes : es.Holds p) (hm : i m) : Ends (Eval.forLoop begin_ b n es) m r e := by
  induction n generalizing es m with
  | zero => exact he m hm
  | succ n ih =>
    unfold Eval.forLoop
    split
    · exact he m hm
    · rename_i v rs hn
      obtain ⟨hv, hr⟩ := hes.next? hn
      refine (hb m v hm hv).bind fun _ m' hm' => (hbo m' hm').bind fun f _ h => ?_
      cases f with
      | normal | continue_ => exact ih hr h
      | break_ | return_ => exact h

theorem Stays.at_ (h : Stays p (execAction g n action) q) (l : Nat) : Stays p (exec g n (.at l action)) q := by
  exact (Stays.setLine l).bind fun _ _ => h

/-! ## Code without a trace -/

namespace RunsOn

variable {s : Judgement} (h : RunsOn (fun _ => True) p s)

include h

theorem andThen (hx : s x x' (Flow.Fits p pl)) (hy : s y y' (Flow.Fits p pl)) :
    s (andThen x y) (andThen x' y') (Flow.Fits p pl) := by
  refine h.bind hx fun f hf => ?_
  cases f with
  | normal => exact hy
  | break_ | continue_ | return_ => exact h.pure hf

theorem single (ha : s (execAction g n action) (execAction g' n action) (Flow.Fits p pl))
    (l : Nat) : s (execBlock g n [.at l action]) (execBlock g' n [.at l action]) (Flow.Fits p pl) := by
  rw [execBlock_single, execBlock_single]
  exact h.bind (h.setLine l) fun _ _ => ha

theorem thenNormal {z z' : Eval α} {q : α → Prop} (hz : s z z' q) :
    s (z >>= fun _ => Pure.pure Flow.normal) (z' >>= fun _ => Pure.pure Flow.normal) (Flow.Fits p pl) :=
  h.bind hz fun _ _ => h.pure trivial

mutual

/-- **What has these rules and holds of calls holds of running code without a trace.** -/
theorem plan (hi : Lockstep.Calls p s g g') (n : Nat) {pl : Place} {q : Plan} (hf : q.Fits p pl) :
    s (execBlock g n (q.emit false)) (execBlock g' n (q.emit false)) (Flow.Fits p pl) := by
  match q with
  | .skip =>
    exact h.pure trivial
  | .eval l e =>
    refine h.single ?_ l
    exact h.thenNormal (h.eval hi e (.inl hf))
  | .assign l t e =>
    refine h.single ?_ l
    refine h.bind (h.eval hi e (.inl hf.2)) fun v hv => ?_
    exact h.thenNormal (h.assign hi t (.inl hf.1) (fun _ _ => trivial) hv)
  | .conditional l c _ _ =>
    refine h.single ?_ l
    refine h.bind (h.eval hi c (.inl hf.1)) fun v _ => h.bind (h.truthy v) fun b _ => ?_
    cases b with
    | true => exact plans hi n hf.2.1
    | false => exact links_ hi n hf.2.2
  | .whileLoop l c _ =>
    refine h.single ?_ l
    exact h.whileLoop (h.test hi c (.inl hf.1)) (plans hi n hf.2) (fun _ => Flow.Fits.afterRound) trivial n
  | .forLoop l t e _ =>
    refine h.single ?_ l
    rw [execAction, execAction, roundFrame?_plain hf.2.1]
    refine h.bind (h.eval hi e (.inl hf.2.1)) fun v hv => ?_
    exact h.iterate (fun v hv => h.assign hi t (.inl hf.1) (fun _ _ => trivial) hv) (plans hi n hf.2.2)
      (fun _ => Flow.Fits.afterRound) trivial hv
  | .define l d =>
    refine h.single ?_ l
    exact h.thenNormal (h.store _ trivial (.function hf))
  | .return_ l e =>
    refine h.single ?_ l
    exact h.bind (h.eval hi e (.inl hf.2)) fun v hv => h.pure ⟨hf.1, hv⟩
  | .break_ l | .continue_ l =>
    refine h.single ?_ l
    exact h.pure hf
  | .import_ l modules =>
    refine h.single ?_ l
    exact h.thenNormal (h.importAll modules fun _ _ => trivial)
  | .fromImport l module ns =>
    refine h.single ?_ l
    refine h.bind (h.loadModule module) fun lb _ => ?_
    exact h.thenNormal (h.importNames lb module ns fun _ _ => trivial)

theorem plans (hi : Lockstep.Calls p s g g') (n : Nat) {pl : Place} {ps : List Plan} (hf : FitAll p pl ps) :
    s (execBlock g n (emitAll false ps)) (execBlock g' n (emitAll false ps)) (Flow.Fits p pl) := by
  match ps with
  | [] =>
    exact h.pure trivial
  | _ :: _ =>
    rw [emitAll, execBlock_append, execBlock_append]
    exact h.andThen (plan hi n hf.1) (plans hi n hf.2)

theorem links_ (hi : Lockstep.Calls p s g g') (n : Nat) {pl : Place} {ls : Links} (hf : ls.Fit p pl) :
    s (execBlock g n (ls.emit false)) (execBlock g' n (ls.emit false)) (Flow.Fits p pl) := by
  match ls with
  | .done =>
    exact h.pure trivial
  | .elif l c _ _ =>
    refine h.single ?_ l
    refine h.bind (h.eval hi c (.inl hf.1)) fun v _ => h.bind (h.truthy v) fun b _ => ?_
    cases b with
    | true => exact plans hi n hf.2.1
    | false => exact links_ hi n hf.2.2
  | .else_ _ _ =>
    exact plans hi n hf

end

end RunsOn

section

/-- **Code without a trace leaves the open frames as they were.** -/
theorem plan_stays {g : Invoke} (hi : g.Settles p) (n : Nat) {pl : Place} {q : Plan} (hf : q.Fits p pl) :
    Stays p (execBlock g n (q.emit false)) (Flow.Fits p pl) :=
  (stays_runs p).plan hi.stays n hf

theorem plans_stay (hi : g.Settles p) (n : Nat) {pl : Place} {ps : List Plan} (hf : FitAll p pl ps) :
    Stays p (execBlock g n (emitAll false ps)) (Flow.Fits p pl) :=
  (stays_runs p).plans hi.stays n hf

end

end Playback
