import Playback.Proofs.History

/-!
# What computations do to the machine

Evaluating an expression is made of a few operations, and none of them binds a name, begins a call or ends one: only
`invoke` does. So what leaves out the heap, what is written and read, the response and the frames of the trace is kept
by each of them (`Affects.alongside`). A call that has begun ends by taking itself away (`Eval.callWith_after`), and
with it the names that its body has bound. So the calls that were going on, their variables and their lines, and the
variables of the file are after an expression what they were before it (`eval_sameVariables`).
-/

namespace Playback

open Eval

namespace Machine

/-- Every name is bound to what it was bound to: those of the file, and those of every call that is going on, which is
on the line that it was on. The heap, what is written and read, the trace and the response may differ. -/
structure SameVariables (m m' : Machine) : Prop where
  globals : m'.globals = m.globals
  calls : m'.calls = m.calls
  answers : m'.answers = m.answers

/-- The calls that are counted and on file are those that were, and as many of them may be traced. -/
structure SameFiles (m m' : Machine) : Prop where
  detached : m'.trace.detached = m.trace.detached
  limit : m'.trace.callLimit = m.trace.callLimit

variable {m m1 m2 : Machine}

theorem SameVariables.refl (m : Machine) : m.SameVariables m :=
  ⟨rfl, rfl, rfl⟩

theorem SameVariables.trans (h : m.SameVariables m1) (h' : m1.SameVariables m2) : m.SameVariables m2 :=
  ⟨h'.globals.trans h.globals, h'.calls.trans h.calls, h'.answers.trans h.answers⟩

theorem SameFiles.refl (m : Machine) : m.SameFiles m :=
  ⟨rfl, rfl⟩

theorem SameFiles.trans (h : m.SameFiles m1) (h' : m1.SameFiles m2) : m.SameFiles m2 :=
  ⟨h'.detached.trans h.detached, h'.limit.trans h.limit⟩

theorem SameFiles.invocations (h : m.SameFiles m1) (id : String) :
    m1.trace.invocations id = m.trace.invocations id := by
  rw [Trace.invocations, h.detached, Trace.invocations]

theorem SameFiles.callsOf (h : m.SameFiles m1) (id : String) : m1.trace.callsOf id = m.trace.callsOf id := by
  rw [Trace.callsOf, h.detached, Trace.callsOf]

theorem SameFiles.apply (s : Trace.Step) (hs : s.beginsCall = false)
    (h : m1.trace = m.trace.apply s) : m.SameFiles m1 := by
  obtain ⟨hl, -, hd, -⟩ := m.trace.apply_keeps s
  exact ⟨by rw [h, hd hs], by rw [h, hl]⟩

end Machine

/-! ## From one machine to another -/

section

variable {p : FunctionCode → Prop} {i : Machine → Prop} {r : Machine → Machine → Prop}

/-- What does not tell apart machines with the same variables and files is kept by evaluating expressions. -/
theorem Affects.alongside (hr : MachineRelation p i r)
    (same : ∀ {m m1}, i m → m1.heap.Holds p → m.SameVariables m1 → m.SameFiles m1 → r m m1) :
    Alongside p fun x _ q => Affects i r x q where
  toEvaluates := evaluates hr (fun hm hh _ => same hm hh ⟨rfl, rfl, rfl⟩ ⟨rfl, rfl⟩)
    (fun {m} text hm => same hm (hr.heap (m := m) hm) ⟨rfl, rfl, rfl⟩ (.apply (.write text) rfl rfl))
    fun {m} _ _ hm => same hm (hr.heap (m := m) hm) ⟨rfl, rfl, rfl⟩ ⟨rfl, rfl⟩
  startFrame kind set := startFrame hr kind set fun {m} hm _ =>
    same hm (hr.heap (m := m) hm) ⟨rfl, rfl, rfl⟩ ⟨rfl, rfl⟩
  report step hs := by
    have hb : step.beginsCall = false := by cases step <;> first | rfl | cases hs
    exact change fun {m} hm => same hm (hr.heap (m := m) hm) ⟨rfl, rfl, rfl⟩ (.apply step hb rfl)

end

/-! ## The end of a call -/

theorem Eval.attempt_ok {α : Type} (x : Eval α) (m : Machine) : ∃ o, attempt x m = .ok o (Eval.after x m) := by
  unfold attempt Eval.after
  cases x m with
  | ok a m1 => exact ⟨.ok a, rfl⟩
  | error halt m1 => exact ⟨.error halt, rfl⟩

theorem Eval.endCall_after (traced : Bool) (index line depth : Nat) (outcome : Except Halt Flow) (m : Machine) :
    ∃ trace, Eval.after (endCall traced index line depth outcome) m = { m with trace }
      ∧ m.SameFiles { m with trace } := by
  unfold endCall
  split
  · cases traced with
    | true => exact ⟨_, rfl, .apply (.unwindTo depth) rfl rfl⟩
    | false => exact ⟨m.trace, rfl, .refl m⟩
  · rename_i fault
    cases traced with
    | true => exact ⟨_, rfl, .apply (.logCallException fault.kind.name fault.message index line depth) rfl rfl⟩
    | false => exact ⟨m.trace, rfl, .refl m⟩
  · exact ⟨m.trace, rfl, .refl m⟩

/-- Whichever way the body of a call ends, the end of the call takes the innermost call away, and apart from that
changes only the trace, where nothing is filed. -/
theorem Eval.callWith_after (run : List Instr → Eval Flow) (hb : code.bind args keywords = .ok locals) (m : Machine) :
    let m1 := Eval.after (run (code.body (m.traces code))) (m.called code locals)
    ∃ trace, Eval.after (callWith run code args keywords) m = { m1 with calls := m1.calls.tail, trace }
      ∧ m1.SameFiles { m1 with calls := m1.calls.tail, trace } := by
  intro m1
  obtain ⟨outcome, ha⟩ := attempt_ok (run (code.body (m.traces code))) (m.called code locals)
  obtain ⟨line, hp⟩ := popCall_eq m1
  obtain ⟨trace, ht, hf⟩ := endCall_after (m.traces code) (m.trace.invocations code.id) line
    m.trace.depth outcome { m1 with calls := m1.calls.tail }
  refine ⟨trace, ?_, hf.detached, hf.limit⟩
  rw [← ht, Eval.after, callWith_ok hb, runCall, ok_bind ha, ok_bind hp]
  rfl

namespace Machine

/-- Everything outside the innermost call is as it was. -/
structure SameOutside (m m' : Machine) : Prop where
  globals : m'.globals = m.globals
  tail : m'.calls.tail = m.calls.tail
  answers : m'.answers = m.answers
  some : m'.calls ≠ []

variable {m : Machine}

theorem SameVariables.sameOutside (h : m.SameVariables m1) (hm : m.calls ≠ []) : m.SameOutside m1 :=
  ⟨h.globals, by rw [h.calls], h.answers, by rwa [h.calls]⟩

theorem SameOutside.trans (h : m.SameOutside m1) (h' : m1.SameOutside m2) : m.SameOutside m2 :=
  ⟨h'.globals.trans h.globals, h'.tail.trans h.tail, h'.answers.trans h.answers, h'.some⟩

theorem SameVariables.value (h : m.SameVariables m1) (x : String) : m1.value x = m.value x := by
  unfold Machine.value Machine.globalValue
  rw [h.calls, h.globals, h.answers]

theorem sameOutside_setVariable (hm : m.calls ≠ []) (x : String) (v : Value) : m.SameOutside (m.setVariable x v) := by
  obtain ⟨c, r, hc⟩ := List.exists_cons_of_ne_nil hm
  have hs : m.setVariable x v = { m with calls := { c with locals := c.locals.put x v } :: r } := by
    rw [Machine.setVariable, hc]
  rw [hs]
  exact ⟨rfl, by rw [hc]; rfl, rfl, List.cons_ne_nil _ _⟩

theorem sameOutside_setLine (hm : m.calls ≠ []) (line : Nat) : m.SameOutside (m.setLine line) := by
  obtain ⟨call, rest, hc⟩ := List.exists_cons_of_ne_nil hm
  have hs : m.setLine line = { m with calls := { call with line } :: rest } := by
    rw [Machine.setLine, hc]
  rw [hs]
  exact ⟨rfl, by rw [hc]; rfl, rfl, List.cons_ne_nil _ _⟩

end Machine

/-! ## Within a call -/

/-- While a call is going on, everything outside the innermost stays as it is. -/
def Machine.StaysWithin (m m' : Machine) : Prop :=
  m.calls ≠ [] → m.SameOutside m'

theorem sameVariables_alongside :
    Alongside (fun _ => True) fun x _ q => Affects (fun _ => True) Machine.SameVariables x q :=
  Affects.alongside (.free .refl .trans) fun _ _ h _ => h

theorem staysWithin_lockstep :
    Lockstep (fun _ => True) fun x _ q => Affects (fun _ => True) Machine.StaysWithin x q where
  toAlongside := Affects.alongside
    (.free (fun m => (Machine.SameVariables.refl m).sameOutside) fun h h' hm => (h hm).trans (h' (h hm).some))
    fun _ _ h _ => h.sameOutside
  store name v _ _ := .change fun _ hm => Machine.sameOutside_setVariable hm name v
  setLine line := .change fun _ hm => Machine.sameOutside_setLine hm line

def Invoke.KeepsVariables (f : Invoke) : Prop :=
  ∀ code args keywords (m : Machine), m.SameVariables (Eval.after (f code args keywords) m)

section

theorem Invoke.KeepsVariables.calls (hi : f.KeepsVariables) (hr : ∀ {m m1 : Machine}, m.SameVariables m1 → r m m1) :
    Lockstep.Calls (fun _ => True) (fun x _ q => Affects (fun _ => True) r x q) f f :=
  fun c as ks _ _ _ => ⟨fun {m} _ => hr (hi c as ks m), fun _ _ => .any _⟩

theorem execBlock_staysWithin (hi : f.KeepsVariables) (n : Nat) (is : List Instr) (m : Machine) :
    m.StaysWithin (Eval.after (Eval.execBlock f n is) m) :=
  ((staysWithin_lockstep).execBlock (hi.calls fun h => h.sameOutside) n is (fun _ _ => trivial)
    fun _ _ => trivial).after trivial

theorem eval_sameVariables (hi : f.KeepsVariables) (e : Expr) (m : Machine) :
    m.SameVariables (Eval.after (Eval.eval f e) m) :=
  (sameVariables_alongside.eval (hi.calls id) e (.inr sameVariables_alongside)).after trivial

end

theorem invoke_sameVariables (n k : Nat) : (Eval.invoke n k).KeepsVariables := by
  induction k with
  | zero => exact fun _ _ _ => .refl
  | succ k ih =>
    intro c as ks m
    rw [Eval.invoke]
    cases hbi : c.bind as ks with
    | error e =>
      rw [Eval.after, Eval.callWith_error hbi]
      exact .refl m
    | ok ls =>
      obtain ⟨t, he, -⟩ := Eval.callWith_after (Eval.execBlock (Eval.invoke n k) n) hbi m
      have hb := execBlock_staysWithin ih n (c.body (m.traces c)) (m.called c ls) (List.cons_ne_nil _ _)
      rw [he]
      exact ⟨hb.globals, hb.tail, hb.answers⟩

/-- **Evaluating an expression rebinds no name, and no more does calling a function**: whichever way either ends, every
variable of the file and of every call that was going on is as it was, every such call is on the line that it was on,
and so every name has the value that it had. -/
theorem eval_rebinds_nothing (rounds room : Nat) (m : Machine) : (∀ e : Expr,
      let m' := Eval.after (Eval.eval (Eval.invoke rounds room) e) m
      m.SameVariables m' ∧ ∀ name, m'.value name = m.value name) ∧
    ∀ (code : FunctionCode) (args : List Value) (keywords : Keywords),
      let m' := Eval.after (Eval.invoke rounds room code args keywords) m
      m.SameVariables m' ∧ ∀ name, m'.value name = m.value name := by
  have hinvoke := invoke_sameVariables rounds room
  constructor
  · intro e
    have hsame := eval_sameVariables hinvoke e m
    exact ⟨hsame, hsame.value⟩
  · intro code args keywords
    have hsame := hinvoke code args keywords m
    exact ⟨hsame, hsame.value⟩

end Playback
