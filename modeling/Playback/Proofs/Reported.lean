import Playback.Proofs.Blame

/-!
# The line of an exception

The record of a run that an exception ended names a line. It is the line that the innermost traced call had noted when
the exception was raised (`Machine.Located`), and so the line of the instruction of that call that it came from, or, if that is
a loop that went on after a `continue`, the line of the `continue` (`Script.failing_line_reported`).
-/

namespace Playback

open Eval

/-- **The line of an exception is that of the instruction that it came from**, in the innermost traced call that was
going on, or, if that is a loop which went on after a `continue`, the line of the `continue`. -/
theorem Script.failing_line_reported {script : Script} {program : Program} (hcompile : script.compile = .ok program)
    {rounds : Nat} {limits : Limits} {mode : Mode} {input : List String} {fault : Fault} {raised : Machine}
    (hheld : program.held rounds limits mode input = .error (.raised fault) raised)
    (hcaptured : raised.trace.openCalls ≠ []) :
    ∃ execution code index room start n last past, program.run rounds limits mode input = some execution
      ∧ (Machine.ready limits mode input).Performs past start
      ∧ FailingCall rounds fault raised code index room start n last
      ∧ execution.record.lastException = some
        { type := fault.kind.name, message := fault.message
          frameNumber := some index, lineNumber := some (last.getD n) } := by
  have hcodes := Script.compile_lowered hcompile
  have hready := Machine.orderly_ready Lower.Lowered limits mode input
  have htold := (tells_lockstep Lower.Lowered).execBlock (hold_tells (fun _ h => h.hasBodies) rounds limits.recursion)
    rounds program.body hcodes (fun _ _ => trivial) _ hready
  rw [show execBlock (hold rounds limits.recursion) rounds program.body _ = _ from hheld] at htold
  generalize hrun : execBlock (Eval.invoke rounds limits.recursion) rounds program.body
    (Machine.ready limits mode input) = outcome at htold
  cases htold with
  | stopped hhalt => exact absurd rfl (hhalt fault)
  | @raised _ _ m' hfalls =>
    have hexecution : program.run rounds limits mode input
        = some { m' with trace := m'.trace.logUncaught fault.kind.name fault.message }.execution := by
      unfold Program.run
      dsimp only
      rw [hrun]
    rcases hfalls.kept with hsame | hlocated
    · obtain ⟨steps, hsteps, -⟩ := hfalls.history
      have harena : m'.trace.Arena := by
        rw [hsame, hsteps.trace]
        exact hready.arena.moves (Trace.moves_applyAll _ steps)
      exact absurd (hsame ▸ hfalls.no_calls_open harena) hcaptured
    · obtain ⟨code, index, room, start, n, last, past, hpast, hfailing, hkept⟩ := hlocated
      refine ⟨_, code, index, room, start, n, last, past, hexecution, hpast, hfailing, ?_⟩
      refine (Trace.lastException_keepException (m'.trace.logException _ _) _).trans ?_
      rw [show (m'.trace.logException _ _).lastException = _ from hkept]
      rfl

/-- Whether an exception leaves all code of a program, in a state that passes a test. -/
def Program.fails (program : Program) (rounds : Nat) (limits : Limits) (mode : Mode) (input : List String)
    (test : Machine → Bool) : Bool :=
  match program.held rounds limits mode input with
  | .error (.raised _) raised => test raised
  | _ => false

theorem Program.exists_of_fails {p : Program} {m : Mode} (h : p.fails rounds l m i test = true) :
    ∃ e raised, p.held rounds l m i = .error (.raised e) raised ∧ test raised = true := by
  unfold Program.fails at h
  split at h
  · rename_i e raised hh
    exact ⟨e, raised, hh, h⟩
  · cases h

/-- A function with a loop whose condition fails after a `continue`, and a call of it. -/
def retried : Script :=
  [.function "f" none [] [.assignment [.name "i"] [.number (.int 0)],
      .whileLoop [.number (.int 1), .operator "//", .bracket [.number (.int 1), .operator "-", .name "i"]]
        [.assignment [.name "i"] [.name "i", .operator "+", .number (.int 1)], .continue_]],
    .expression [.call "f" []]]

def retriedCode : Program :=
  retried.code

/-- The exception of `retried` leaves the call of `f`, and the line in the record is one that the call failed on. -/
theorem failing_line_reported_retried : ∃ fault raised, retried.compile = .ok retriedCode
    ∧ retriedCode.held 2 {} .command [] = .error (.raised fault) raised ∧ raised.trace.openCalls ≠ []
    ∧ ∃ execution code index room start n last past, retriedCode.run 2 {} .command [] = some execution
      ∧ (Machine.ready {} .command []).Performs past start
      ∧ FailingCall 2 fault raised code index room start n last
      ∧ execution.record.lastException = some
        { type := fault.kind.name, message := fault.message
          frameNumber := some index, lineNumber := some (last.getD n) } := by
  have hcompile : retried.compile = .ok retriedCode := rfl
  have hcheck : retriedCode.fails 2 {} .command [] (·.trace.openCalls == [1]) = true := by decide +kernel
  obtain ⟨fault, raised, hheld, hcalls⟩ := Program.exists_of_fails hcheck
  have hopen : raised.trace.openCalls ≠ [] := by
    rw [beq_iff_eq.1 hcalls]
    exact List.cons_ne_nil _ _
  exact ⟨fault, raised, hcompile, hheld, hopen, Script.failing_line_reported hcompile hheld hopen⟩

/-- **The line of a `continue` is reported where the condition of a loop fails**: in `retried` the division is in the
third line, and the record names the fifth. -/
theorem condition_fails_on_line_of_continue : ∃ execution e, retried.compile = .ok retriedCode
    ∧ (Text.lines retried.toSource)[2]? = some "    while 1 // (1 - i):"
    ∧ (Text.lines retried.toSource)[4]? = some "        continue"
    ∧ retriedCode.run 2 {} .command [] = some execution ∧ execution.record.lastException = some e
    ∧ e.type = "ZeroDivisionError" ∧ e.frameNumber = some 0 ∧ e.lineNumber = some 5 := by
  have hlines : (Text.lines retried.toSource)[2]? = some "    while 1 // (1 - i):"
      ∧ (Text.lines retried.toSource)[4]? = some "        continue" := by decide +kernel
  have hcheck : ((retriedCode.run 2 {} .command []).any fun execution => execution.record.lastException.any fun e =>
      e.type == "ZeroDivisionError" && e.frameNumber == some 0 && e.lineNumber == some 5) = true := by decide +kernel
  obtain ⟨execution, hrun, hlast⟩ := (Option.any_eq_true _ _).1 hcheck
  obtain ⟨e, hkept, he⟩ := (Option.any_eq_true _ _).1 hlast
  simp only [Bool.and_eq_true, beq_iff_eq] at he
  obtain ⟨⟨htype, hframe⟩, hline⟩ := he
  exact ⟨execution, e, rfl, hlines.1, hlines.2, hrun, hkept, htype, hframe, hline⟩

end Playback
