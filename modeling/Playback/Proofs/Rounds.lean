import Playback.Proofs.Bookkeeping
import Playback.Proofs.Locals

/-!
# What a round adds to the frame of its loop

Whether a frame is refused depends on how many entries the child set has that it would go to (`Machine.filled`). The
frame of a loop holds nothing at first (`Ready.first`). Evaluating an expression adds nothing to the innermost
frame (`Reached.eval_filled`), and a round after which the loop goes on adds one entry to that of the loop, its own
frame (`Reached.again_filled`, `Reached.elementAgain_filled`).

The limit on iterations does nothing but refuse frames. So a computation that ends under it without an exception ends
in the same way without it (`unhindered_lockstep`), and what is known of code where iterations are not limited can be
used where they are.
-/

namespace Playback

open Eval

/-! ## States without the limit -/

def Trace.unlimited (t : Trace) : Trace :=
  { t with iterationLimit := none }

def Machine.unlimited (m : Machine) : Machine :=
  { m with trace := m.trace.unlimited }

theorem Trace.unlimited_apply (t : Trace) (h : s.reports = true) : (t.apply s).unlimited = t.unlimited.apply s := by
  cases s with
  | log | logAndEnd | turn | endLoop => rfl
  | endFrame =>
    obtain ⟨_, stack, _, _, _, _, _⟩ := t
    match stack with
    | [] | [_] | _ :: _ :: _ => rfl
  | _ => cases h

theorem Trace.unlimited_write (t : Trace) (s : String) : (t.write s).unlimited = t.unlimited.write s := by
  unfold Trace.write
  split <;> rfl

namespace Machine

variable (m : Machine)

theorem unlimited_setVariable (x : String) (v : Value) :
    (m.setVariable x v).unlimited = m.unlimited.setVariable x v := by
  obtain ⟨_, _, cs, o, i, t, _, _⟩ := m
  cases cs <;> rfl

theorem unlimited_setLine (l : Nat) : (m.setLine l).unlimited = m.unlimited.setLine l := by
  obtain ⟨_, _, cs, o, i, t, _, _⟩ := m
  cases cs <;> rfl

theorem unlimited_write (t : String) : (m.write t).unlimited = m.unlimited.write t := by
  unfold Machine.unlimited Machine.write
  rw [Trace.unlimited_write]

theorem unlimited_called (c : FunctionCode) (ls : Scope) : (m.called c ls).unlimited = m.unlimited.called c ls := by
  have ht : m.unlimited.traces c = m.traces c := rfl
  unfold Machine.called
  rw [ht]
  cases m.traces c <;> rfl

theorem unlimited_returned (t : Bool) (d : Nat) : (m.returned t d).unlimited = m.unlimited.returned t d := by
  cases t <;> rfl

end Machine

/-! ## Computations that the limit does not stop -/

/-- Where a computation ends without an exception, it ends in the same way without the limit, and its value is as
said. -/
structure Unhindered {α : Type} (x : Eval α) (q : α → Prop) : Prop where
  same : ∀ {m a m'}, x m = .ok a m' → x m.unlimited = .ok a m'.unlimited
  gives : ∀ {m a m'}, x m = .ok a m' → q a

namespace Unhindered

variable {α : Type}

theorem change (hf : ∀ m, (f m).unlimited = f m.unlimited) : Unhindered (modify f) fun _ => True := by
  refine ⟨?_, fun _ => trivial⟩
  rintro m _ _ ⟨⟩
  exact congrArg (EStateM.Result.ok ()) (hf m).symm

theorem onHeap (hx : Keeps (fun _ => True) y q) : Unhindered (Eval.onHeap y) q := by
  refine ⟨fun {m a _} h => ?_, ((recordsTo_lockstep).onHeap hx).gives trivial⟩
  have hh : m.unlimited.heap = m.heap := rfl
  unfold Eval.onHeap at h ⊢
  dsimp only at h ⊢
  rw [hh]
  cases hr : y m.heap with
  | ok b heap =>
    rw [hr] at h
    cases h
    rfl
  | error _ heap =>
    rw [hr] at h
    cases h

theorem load (x : String) : Unhindered (Eval.load x) (·.Holds fun _ => True) := by
  refine ⟨fun {m v _} h => ?_, fun _ => .any _⟩
  change Eval.lift (m.value x) m = _ at h
  change Eval.lift (m.value x) m.unlimited = _
  cases hv : m.value x with
  | ok w =>
    rw [hv] at h
    cases h
    rfl
  | error e =>
    rw [hv] at h
    cases h

theorem readLine : Unhindered Eval.readLine (·.Holds fun _ => True) := by
  refine ⟨fun {m v _} h => ?_, fun _ => .any _⟩
  cases hi : m.input with
  | nil =>
    rw [readLine_nil hi] at h
    cases h
  | cons l r =>
    rw [readLine_cons hi] at h
    cases h
    exact readLine_cons hi

theorem startFrame (kd : Trace.Kind) (set : String) : Unhindered (Eval.startFrame kd set) fun _ => True := by
  refine ⟨fun {m a _} h => ?_, fun _ => trivial⟩
  rw [startFrame_eq] at h
  split at h
  · cases h
  · cases h
    exact startFrame_eq kd set m.unlimited

end Unhindered

/-- **A computation that ends under the limit ends in the same way without it**, if calls of functions do. -/
theorem unhindered_lockstep : Lockstep (fun _ => True) fun x _ q => Unhindered x q where
  pure ha := ⟨by rintro _ _ _ ⟨⟩; rfl, by rintro _ _ _ ⟨⟩; exact ha⟩
  bind hx hf := by
    refine ⟨fun {m b m'} h => ?_, fun {m b m'} h => ?_⟩
    · obtain ⟨a, m1, hfi, hr⟩ := bind_ok h
      exact (ok_bind (hx.same hfi)).trans ((hf a (hx.gives hfi)).same hr)
    · obtain ⟨a, m1, hfi, hr⟩ := bind_ok h
      exact (hf a (hx.gives hfi)).gives hr
  throw halt := ⟨nofun, nofun⟩
  heap := ⟨by rintro m _ _ ⟨⟩; rfl, fun _ => .any _⟩
  onHeap := .onHeap
  load := .load
  store name _ _ _ := .change fun m => m.unlimited_setVariable name _
  setLine line := .change fun m => m.unlimited_setLine line
  write text := .change fun m => m.unlimited_write text
  readLine := .readLine
  publish v := .change fun _ => rfl
  startFrame := .startFrame
  report step hs := by
    refine .change fun m => ?_
    unfold Machine.unlimited
    rw [m.trace.unlimited_apply hs]

/-- **So do calls to any depth.** -/
theorem invoke_unhindered (n k : Nat) : Lockstep.Calls (fun _ => True) (fun x _ q => Unhindered x q)
    (Eval.invoke n k) (Eval.invoke n k) := by
  induction k with
  | zero =>
    intro c as ks _ _ _
    exact (unhindered_lockstep).throw _
  | succ k ih =>
    intro c as ks _ _ _
    refine ⟨fun {m v _} h => ?_, fun _ => .any _⟩
    rw [Eval.invoke] at h ⊢
    cases hb : c.bind as ks with
    | error e =>
      rw [callWith_error hb] at h
      cases h
    | ok _ =>
      rw [callWith_ok hb] at h ⊢
      obtain ⟨f, m1, hr, rfl⟩ := runCall_gives h
      rw [runCall_ok hr] at h
      cases h
      have hbo := (unhindered_lockstep).execBlock ih n (c.body (m.traces c)) (fun _ _ => trivial) fun _ _ => trivial
      have hf := hbo.same hr
      rw [m.unlimited_called] at hf
      rw [m1.unlimited_returned]
      exact runCall_ok hf

/-! ## Code -/

section

theorem Eval.eval_unlimited (h : eval (Eval.invoke n k) e m = .ok v m') :
    eval (Eval.invoke n k) e m.unlimited = .ok v m'.unlimited :=
  ((unhindered_lockstep).eval (invoke_unhindered n k) e (.inr (unhindered_lockstep).toAlongside)).same h

theorem Eval.beginRound_unlimited (h : beginRound (Eval.invoke n k) f t v m = .ok () m') :
    beginRound (Eval.invoke n k) f t v m.unlimited = .ok () m'.unlimited :=
  ((unhindered_lockstep).beginRound (invoke_unhindered n k) f t (fun _ _ => trivial) (.any v)).same h

theorem Eval.execBlock_unlimited (h : execBlock (Eval.invoke n k) n is m = .ok f m') :
    execBlock (Eval.invoke n k) n is m.unlimited = .ok f m'.unlimited :=
  ((unhindered_lockstep).execBlock (invoke_unhindered n k) n is (fun _ _ => trivial) fun _ _ => trivial).same h

end

open Lower (Place Lowered)

/-! ## How full the innermost frame is -/

theorem Trace.Frame.activeSize_push (f : Frame) (e : Entry) : (f.push e).activeSize = f.activeSize + 1 := by
  unfold activeSize push
  rw [appendEntry_eq, lookup_alter, if_pos rfl]
  cases f.sets.lookup f.active with
  | none => rfl
  | some _ => exact Array.size_push ..

section

variable {p : FunctionCode → Prop} {m m' : Machine}

theorem Machine.filled_setLine (m : Machine) (l : Nat) : (m.setLine l).filled = m.filled := by
  rw [Machine.filled, Machine.trace_setLine, Machine.filled]

theorem Machine.Notes.filled (h : m.Notes p id m') : m'.filled = m.filled := by
  have ht := h.alters.top
  rw [Option.map_id, id] at ht
  unfold Machine.filled Trace.topFrame
  rw [h.level.top_eq, ht]

theorem Machine.Opened.filled (h : m.Opened f m') (hm : m.Sound p)
    (ht : m'.trace.top = m.trace.top) : m'.filled = m.filled + 1 := by
  have hlt : m.trace.top < m.trace.frames.size := hm.trace.known _ hm.trace.top_mem
  unfold Machine.filled Trace.topFrame
  rw [ht, h.alters.top, Array.getElem?_eq_getElem hlt]
  exact Trace.Frame.activeSize_push _ _

end

/-! ## Expressions and rounds -/

/-- A block whose frame was opened for a value adds nothing but that frame, if the frame around it is the innermost
again. -/
theorem RoundCode.filled {l : Ledger} (hl : l.Serves Lowered (fun _ => True) j) (hbo : RoundCode pl true b)
    (hm : l.InRun Lowered j m) {set : String}
    (hb : l.Began Lowered (.withFirst kd set e) m m') (hs : set ≠ "block") (hi : kd.isInner = true)
    (hk : kd.isControl = false) (he : execBlock (Eval.invoke l.rounds j) l.rounds b m' = .ok fl m'')
    (ht : m''.trace.top = m.trace.top) : m''.filled = m.filled + 1 := by
  obtain ⟨ln, ps, hps, rfl⟩ := hbo
  have hbl := (Ledger.plans_trace hl hps fun _ _ => trivial).keeps hl hps
  obtain ⟨-, -, ⟨_, ho⟩, -⟩ := (hbl.iterationBody_ends hm hb hs hi hk ln).ok he
  exact ho.filled hm.sound ht

section

variable {s : Script} {q : Program} (hco : s.compile = .ok q) {k j : Nat}
  {lim : Limits} {md : Mode} {i : List String} {tk : Task} {m m' m'' : Machine}

include hco

/-- Without the limit, calls in a state of the run keep a ledger that says nothing. -/
theorem Reached.unlimited (h : Reached q k lim md i j tk m) :
    ∃ l : Ledger, l.rounds = k ∧ l.Serves Lowered (fun _ => True) j ∧ l.InRun Lowered j m.unlimited := by
  have hf := h.fine hco
  have hs : m.unlimited.Sound Lowered := { hf.sound with trace := { hf.sound.trace with } }
  have ha : m.unlimited.trace.Arena := { h.arena with }
  exact ⟨.blank k rfl ha lim.recursion, rfl, Ledger.blank_serves .., hs, hf.room, [], .refl _⟩

/-- **Evaluating an expression adds nothing to the innermost frame.** -/
theorem Reached.eval_filled {e : Expr} {v : Value} (h : Reached q k lim md i j tk m) (he : e.Plain)
    (hev : eval (Eval.invoke k j) e m = .ok v m') : m'.filled = m.filled := by
  obtain ⟨l, rfl, hl, hm⟩ := h.unlimited hco
  obtain ⟨-, hn, -⟩ := ((l.sparing_runs Lowered j).eval hl.spares e (.inl he) _ hm).ok (eval_unlimited hev)
  exact hn.filled

variable {pl : Place} {b : List Instr} {fl : Flow}

/-- **A round of a loop on a condition adds its frame to that of the loop**, and nothing else. -/
theorem Reached.again_filled {c : Expr} {v : Value} (h : Reached q k lim md i j (.loop pl true c b) m)
    (he : eval (Eval.invoke k j) c m = .ok v m')
    (hex : execBlock (Eval.invoke k j) k b m' = .ok fl m'') (hfl : fl.repeats = true) : m''.filled = m.filled + 1 := by
  obtain ⟨l, rfl, hl, hm⟩ := h.unlimited hco
  have hf := h.fine hco
  have hbe := begun_condition hl.settles hf.fits hf.sound he
  obtain ⟨⟨_, hc', rfl⟩, hbo, hw⟩ := hf.fits
  have hle := hbo.level hl.settles rfl rfl hf.sound hw hbe hex hfl
  obtain ⟨n, -, ho, hno, -⟩ :=
    (Ledger.logStart_ends hl.spares hc' hm .whileIteration "condition").ok (eval_unlimited he)
  have hn := hm.notes hno
  have hb := Ledger.openFor_began hn .whileIteration "condition" v
  rw [← ho] at hb
  have hfi := hbo.filled hl hn hb (by decide) rfl rfl (execBlock_unlimited hex) (hle.top_eq.trans hno.level.top_eq.symm)
  rw [hno.filled] at hfi
  exact hfi

/-- **So does a round of a loop over elements.** -/
theorem Reached.elementAgain_filled {es r : Elements} {t : Target} {v : Value}
    (h : Reached q k lim md i j (.iterate pl true f t b es) m)
    (hn : es.next? = some (v, r)) (hb : beginRound (Eval.invoke k j) f t v m = .ok () m')
    (he : execBlock (Eval.invoke k j) k b m' = .ok fl m'') (hfl : fl.repeats = true) : m''.filled = m.filled + 1 := by
  obtain ⟨l, rfl, hl, hm⟩ := h.unlimited hco
  have hf := h.fine hco
  obtain ⟨ht, rfl, hbo, hw, hes⟩ := hf.fits
  have hv := (hes.next? hn).1
  have hbe := begun_beginRound hl.settles ht hf.sound hv hb
  have hle := hbo.level hl.settles rfl rfl hf.sound hw hbe he hfl
  have hbg := (Ledger.beginRound_began hl.spares ht hv hm).ok (beginRound_unlimited hb)
  have hfi := hbo.filled hl hm hbg (by decide) rfl rfl (execBlock_unlimited he) hle.top_eq
  exact hfi

end

end Playback
