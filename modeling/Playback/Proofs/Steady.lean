import Playback.Proofs.Lockstep
import Playback.Proofs.Parameters

/-!
# Evaluation is steady

Evaluating a plain expression leaves the calls that are going on and the open frames as they were, whether it
ends with a value or an exception, as long as whatever calls functions does. Every value that comes of it
holds only functions that the machine had before.
-/

namespace Playback

open Eval List

/-- Every function that a machine holds has a property, and its trace is sound. -/
structure Machine.Sound (p : FunctionCode → Prop) (m : Machine) : Prop where
  heap : m.heap.Holds p
  globals : ∀ x ∈ m.globals, x.2.Holds p
  locals : ∀ call ∈ m.calls, ∀ x ∈ call.locals, x.2.Holds p
  trace : m.trace.Sound

/-- A later state with the same calls going on and the same frames open. -/
structure Machine.Steady (p : FunctionCode → Prop) (m m' : Machine) : Prop where
  sound : m'.Sound p
  calls : m'.calls = m.calls
  trace : m.trace.Quiet m'.trace

variable {halt : Halt} {p : FunctionCode → Prop} {α β : Type} {a : α}

namespace Machine.Steady

variable {m m' m'' : Machine}

theorem refl (hm : m.Sound p) : m.Steady p m :=
  ⟨hm, rfl, rfl, .refl _⟩

theorem trans (h : m.Steady p m') (h' : m'.Steady p m'') : m.Steady p m'' :=
  ⟨h'.sound, h'.calls.trans h.calls, h'.trace.stack.trans h.trace.stack, h.trace.extends_.trans h'.trace.extends_⟩

theorem of_trace (hm : m.Sound p) (ht : m.trace.Quiet t) : m.Steady p { m with trace := t } :=
  ⟨⟨hm.heap, hm.globals, hm.locals, ht.sound hm.trace⟩, rfl, ht⟩

theorem heap {heap : Heap} (hm : m.Sound p) (hh : heap.Holds p) : m.Steady p { m with heap } :=
  ⟨⟨hh, hm.globals, hm.locals, hm.trace⟩, rfl, rfl, .refl _⟩

theorem write (text : String) (hm : m.Sound p) : m.Steady p (m.write text) :=
  ⟨⟨hm.heap, hm.globals, hm.locals, (m.trace.quiet_write text).sound hm.trace⟩, rfl, m.trace.quiet_write text⟩

theorem aside (input : List String) (response : Option Value) (hm : m.Sound p) :
    m.Steady p { m with input, response } :=
  ⟨⟨hm.heap, hm.globals, hm.locals, hm.trace⟩, rfl, rfl, .refl _⟩

end Machine.Steady

/-! ## Names -/

variable {sc : Scope} {v : Value}

theorem Scope.holds_lookup (h : ∀ x ∈ sc, x.2.Holds p) (hv : sc.lookup y = some v) : v.Holds p := by
  induction sc with
  | nil => cases hv
  | cons x r ih =>
    obtain ⟨hx, hr⟩ := forall_mem_cons.1 h
    rw [lookup_cons] at hv
    split at hv
    · cases hv
      exact hx
    · exact ih hr hv

namespace Machine.Sound

variable {m : Machine}

theorem globalValue (hm : m.Sound p) (x : String) : Yields (m.globalValue x) (·.Holds p) := by
  unfold Machine.globalValue
  split
  · rename_i v hv
    exact .ok (Scope.holds_lookup hm.globals hv)
  · split
    · split
      · exact .error _
      · exact .ok nofun
    · exact .error _

theorem value (hm : m.Sound p) (y : String) : Yields (m.value y) (·.Holds p) := by
  unfold Machine.value
  split
  · exact hm.globalValue y
  · rename_i c r hc
    have hl : ∀ x ∈ c.locals, x.2.Holds p :=
      hm.locals c (by rw [hc]; exact mem_cons_self)
    split
    · rename_i v hv
      exact .ok (Scope.holds_lookup hl hv)
    · split
      · exact .error _
      · exact hm.globalValue y

end Machine.Sound

/-! ## Single steps -/

section

variable {σ : Type} {m m' : σ} {x : EStateM Halt σ α} {f : α → EStateM Halt σ β}

theorem Eval.bind_ok (h : (x >>= f) m = .ok b m') : ∃ a m1, x m = .ok a m1 ∧ f a m1 = .ok b m' := by
  change EStateM.bind x f m = .ok b m' at h
  unfold EStateM.bind at h
  cases hx : x m with
  | ok a m1 =>
    rw [hx] at h
    exact ⟨a, m1, rfl, h⟩
  | error _ m1 =>
    rw [hx] at h
    cases h

theorem Eval.ok_bind (h : x m = .ok a m1) : (x >>= f) m = f a m1 := by
  change EStateM.bind x f m = _
  rw [EStateM.bind, h]

theorem Eval.bind_error (h : (x >>= f) m = .error halt m') :
    x m = .error halt m' ∨ ∃ a m1, x m = .ok a m1 ∧ f a m1 = .error halt m' := by
  change EStateM.bind x f m = .error halt m' at h
  unfold EStateM.bind at h
  cases hx : x m with
  | ok a m1 =>
    rw [hx] at h
    exact .inr ⟨a, m1, rfl, h⟩
  | error _ m1 =>
    rw [hx] at h
    cases h
    exact .inl rfl

theorem Eval.error_bind (h : x m = .error halt m') : (x >>= f) m = .error halt m' := by
  change EStateM.bind x f m = _
  rw [EStateM.bind, h]

end

theorem Eval.startFrame_eq (k : Trace.Kind) (set : String) (m : Machine) : startFrame k set m
      = if m.trace.isFull then .error (.raised .tooManyIterations) m
        else .ok () { m with trace := m.trace.addFrame k set } := by
  change (if m.trace.isFull then _ else _ : Eval Unit) m = _
  split <;> rfl

section

variable {m : Machine}

theorem Eval.readLine_nil (h : m.input = []) : readLine m = .error (.raised .endOfInput) m := by
  cases m
  cases h
  rfl

theorem Eval.readLine_cons (h : m.input = l :: r) : readLine m = .ok (.str (withoutBreak l)) { m with input := r } := by
  cases m
  cases h
  rfl

theorem Eval.popCall_cons (h : m.calls = c :: r) : popCall m = .ok c.line { m with calls := r } := by
  cases m
  cases h
  rfl

theorem Eval.popCall_eq (m : Machine) : ∃ l, popCall m = .ok l { m with calls := m.calls.tail } := by
  cases hc : m.calls with
  | nil =>
    cases m
    cases hc
    exact ⟨1, rfl⟩
  | cons c r => exact ⟨c.line, popCall_cons hc⟩

end

/-! ## How a computation ends -/

/-- From a state, a computation ends with a value and a state, or with an exception and a state, that are as
said. Nothing is said of one that stops otherwise. -/
def Ends {α : Type} (x : Eval α) (m : Machine) (q : α → Machine → Prop) (e : Machine → Prop) : Prop :=
  match x m with
  | .ok a m' => q a m'
  | .error (.raised _) m' => e m'
  | .error _ _ => True

namespace Ends

variable {x : Eval α} {m : Machine} {q q' : α → Machine → Prop} {e e' : Machine → Prop} {r : β → Machine → Prop}

theorem bind (hx : Ends x m q e) (hf : ∀ a m', q a m' → Ends (f a) m' r e) : Ends (x >>= f) m r e := by
  unfold Ends at hx ⊢
  cases hr : x m with
  | ok a m' =>
    rw [hr] at hx
    rw [ok_bind hr]
    exact hf a m' hx
  | error halt m' =>
    rw [hr] at hx
    rw [error_bind hr]
    cases halt with
    | raised _ => exact hx
    | capacity | exhausted => trivial

theorem mono (hx : Ends x m q e) (hq : ∀ a m', q a m' → q' a m') (he : ∀ m', e m' → e' m') : Ends x m q' e' := by
  unfold Ends at hx ⊢
  split at hx
  · exact hq _ _ hx
  · exact he _ hx
  · trivial

theorem ok (hx : Ends x m q e) (h : x m = .ok a m') : q a m' := by
  unfold Ends at hx
  rw [h] at hx
  exact hx

theorem raised (hx : Ends x m q e) (h : x m = .error (.raised f) m') : e m' := by
  unfold Ends at hx
  rw [h] at hx
  exact hx

end Ends

/-- Whether a computation goes on normally, in a state that passes a test. -/
def Eval.endsNormally (x : Eval Flow) (m : Machine) (test : Machine → Bool) : Bool :=
  match x m with
  | .ok .normal m' => test m'
  | _ => false

theorem Eval.exists_of_endsNormally
    (h : endsNormally x m test = true) : ∃ m', x m = .ok .normal m' ∧ test m' = true := by
  unfold endsNormally at h
  split at h
  · rename_i m' hx
    exact ⟨m', hx, h⟩
  · cases h

/-! ## From one machine to another -/

/-- The state that a computation ends in, whichever way it ends. -/
def Eval.after {α : Type} (x : Eval α) (m : Machine) : Machine :=
  match x m with
  | .ok _ m' => m'
  | .error _ m' => m'

/-- From a machine that is as asked, a computation leads to one that is as said, whichever way it ends, and gives values
that are as said. -/
structure Affects (i : Machine → Prop) (r : Machine → Machine → Prop) {α : Type} (x : Eval α) (q : α → Prop) :
    Prop where
  after {m : Machine} : i m → r m (Eval.after x m)
  gives {m : Machine} {a : α} {m' : Machine} : i m → x m = .ok a m' → q a

/-- What is asked of a machine, and said of it and a later one. The functions that a machine holds that is as asked have
a property. -/
structure MachineRelation (p : FunctionCode → Prop) (i : Machine → Prop) (r : Machine → Machine → Prop) : Prop where
  refl {m : Machine} : i m → r m m
  trans {m m1 m2 : Machine} : r m m1 → r m1 m2 → r m m2
  keeps {m m1 : Machine} : i m → r m m1 → i m1
  heap {m : Machine} : i m → m.heap.Holds p
  value {m : Machine} (name : String) : i m → Yields (m.value name) (·.Holds p)

namespace Affects

variable {i : Machine → Prop} {r : Machine → Machine → Prop} {x : Eval α} {q : α → Prop} {s : β → Prop}
  {m m' : Machine}

theorem ok (h : Affects i r x q) (hm : i m) (hx : x m = .ok a m') : r m m' := by
  have ha := h.after hm
  rwa [Eval.after, hx] at ha

theorem error (h : Affects i r x q) (hm : i m) (hx : x m = .error halt m') : r m m' := by
  have ha := h.after hm
  rwa [Eval.after, hx] at ha

theorem ends (h : Affects i r x q) (hm : i m) : Ends x m (fun a m' => q a ∧ r m m') (r m) := by
  unfold Ends
  split
  · rename_i hx
    exact ⟨h.gives hm hx, h.ok hm hx⟩
  · rename_i hx
    exact h.error hm hx
  · trivial

theorem get (hf : ∀ m, i m → Affects i r (f m) s) : Affects i r (MonadState.get >>= f) s :=
  ⟨fun {m} hm => (hf m hm).after hm, fun {m _ _} hm h => (hf m hm).gives hm h⟩

theorem change (hf : ∀ {m}, i m → r m (f m)) : Affects i r (modify f) fun _ => True :=
  ⟨hf, fun _ _ => trivial⟩

variable (hr : MachineRelation p i r)

include hr

theorem bind (hx : Affects i r x q) (hf : ∀ a, q a → Affects i r (f a) s) : Affects i r (x >>= f) s := by
  refine ⟨fun {m} hm => ?_, fun {m b _} hm h => ?_⟩
  · change r m (Eval.after (EStateM.bind x f) m)
    unfold Eval.after EStateM.bind
    cases hre : x m with
    | ok a m1 =>
      have hfi := hx.ok hm hre
      exact hr.trans hfi ((hf a (hx.gives hm hre)).after (hr.keeps hm hfi))
    | error _ m1 => exact hx.error hm hre
  · obtain ⟨a, m1, hok, h⟩ := bind_ok h
    exact (hf a (hx.gives hm hok)).gives (hr.keeps hm (hx.ok hm hok)) h

theorem pure (ha : q a) : Affects i r (Pure.pure a : Eval α) q :=
  ⟨hr.refl, by rintro _ _ _ _ ⟨⟩; exact ha⟩

theorem throw (halt : Halt) : Affects i r (MonadExcept.throw halt : Eval α) q :=
  ⟨hr.refl, nofun⟩

theorem onHeap (hh : ∀ {m heap}, i m → heap.Holds p → m.heap.Passes heap → r m { m with heap }) {x : HeapM α}
    (hx : Keeps p x q) : Affects i r (Eval.onHeap x) q := by
  refine ⟨fun {m} hm => ?_, fun {m a _} hm h => ?_⟩
  all_goals
    have hk := hx m.heap (hr.heap hm)
  · unfold Eval.after Eval.onHeap
    dsimp only
    cases hre : x m.heap with
    | ok a heap =>
      rw [hre] at hk
      exact hh hm hk.2.1 hk.2.2
    | error _ heap =>
      rw [hre] at hk
      exact hh hm hk.1 hk.2
  · unfold Eval.onHeap at h
    dsimp only at h
    cases hre : x m.heap with
    | ok _ heap =>
      rw [hre] at hk h
      cases h
      exact hk.1
    | error _ heap =>
      rw [hre] at h
      cases h

theorem load (x : String) : Affects i r (load x) (·.Holds p) := by
  refine get fun m hm => ?_
  have hv := hr.value x hm
  cases hre : m.value x with
  | ok v => exact pure hr (hv v hre)
  | error e => exact throw hr (.raised e)

theorem startFrame (k : Trace.Kind) (set : String)
    (hf : ∀ {m}, i m → m.trace.isFull = false → r m { m with trace := m.trace.addFrame k set }) :
    Affects i r (Eval.startFrame k set) fun _ => True := by
  refine ⟨fun {m} hm => ?_, fun _ _ => trivial⟩
  rw [Eval.after, startFrame_eq]
  cases hfu : m.trace.isFull with
  | true => exact hr.refl hm
  | false => exact hf hm hfu

/-- What a computation without a trace does to a machine comes to changing its heap, writing, reading and answering. -/
theorem evaluates (heap : ∀ {m heap}, i m → heap.Holds p → m.heap.Passes heap → r m { m with heap })
    (write : ∀ {m} text, i m → r m (m.write text))
    (aside : ∀ {m} input response, i m → r m { m with input, response }) : Evaluates p fun x _ q => Affects i r x q where
  pure := pure hr
  bind := bind hr
  throw := throw hr
  heap := get fun m hm => pure hr (hr.heap hm)
  onHeap := onHeap hr heap
  load := load hr
  write text := change (write text)
  readLine := by
    refine get fun m _ => ?_
    cases m.input with
    | nil => exact throw hr _
    | cons l rest => exact bind hr (change (aside rest _)) fun _ _ => pure hr nofun
  publish v := change (aside _ v)

end Affects

/-! ## Expressions -/

/-- A computation leaves the calls and the open frames as they were; its value is as said. -/
def Settles {α : Type} (p : FunctionCode → Prop) (x : Eval α) (q : α → Prop) : Prop :=
  ∀ m, m.Sound p → Ends x m (fun a m' => q a ∧ m.Steady p m') (m.Steady p)

theorem machineRelation_steady (p : FunctionCode → Prop) : MachineRelation p (·.Sound p) (Machine.Steady p) where
  refl := .refl
  trans := .trans
  keeps _ h := h.sound
  heap hm := hm.heap
  value name hm := hm.value name

theorem steady_evaluates (p : FunctionCode → Prop) :
    Evaluates p fun x _ q => Affects (·.Sound p) (Machine.Steady p) x q :=
  Affects.evaluates (machineRelation_steady p) (fun hm hh _ => .heap hm hh) .write .aside

namespace Settles

variable {x : Eval α} {q : α → Prop} {r : β → Prop}

theorem of (h : Affects (·.Sound p) (Machine.Steady p) x q) : Settles p x q :=
  fun _ hm => h.ends hm

theorem pure (ha : q a) : Settles p (Pure.pure a) q :=
  of ((steady_evaluates p).pure ha)

theorem bind (hx : Settles p x q) (hf : ∀ a, q a → Settles p (f a) r) : Settles p (x >>= f) r := by
  intro m hm
  refine (hx m hm).bind fun a m' h => ?_
  obtain ⟨ha, hs⟩ := h
  refine (hf a ha m' hs.sound).mono ?_ ?_
  · exact fun b m'' h => ⟨h.1, hs.trans h.2⟩
  · exact fun _ => hs.trans

theorem get (hf : ∀ m, m.Sound p → Settles p (f m) r) : Settles p (MonadState.get >>= f) r :=
  fun m hm => hf m hm m hm

theorem onTrace (hf : ∀ t : Trace, t.Quiet (f t)) : Settles p (onTrace f) fun _ => True :=
  of (.change fun {m} hm => .of_trace hm (hf m.trace))

theorem log (k : Option Trace.Kind) (v : Value) : Settles p (log k v) fun _ => True :=
  get fun _ _ => onTrace fun t => t.quiet_logResult k _ _

end Settles

theorem settles_evaluates (p : FunctionCode → Prop) : Evaluates p fun x _ q => Settles p x q :=
  (steady_evaluates p).weaken .of .bind

def Evaluates.Calls (p : FunctionCode → Prop) (s : {α : Type} → Eval α → (α → Prop) → Prop) (invoke : Invoke) : Prop :=
  Lockstep.Calls p (fun x _ q => s x q) invoke invoke

/-- Calling a function that has the property leaves the calls and the open frames as they were. -/
abbrev Invoke.Settles (p : FunctionCode → Prop) (invoke : Invoke) : Prop :=
  Evaluates.Calls p (Playback.Settles p) invoke

/-- **Evaluating a plain expression leaves the calls and the open frames as they were.** -/
theorem eval_settles {f : Invoke} (hi : f.Settles p) (e : Expr) (he : e.Plain) : Settles p (eval f e) (·.Holds p) :=
  (settles_evaluates p).eval hi e (.inl he)

end Playback
