import Playback.Machine.Exec
import Playback.Trace.Record
import Playback.Value.Json

/-!
# Runs

A program runs on its own, on a schedule, or to answer a request, whose payload it finds under the name
`request`. Whatever happens, a run ends with a record of it, the text that was written, and the response
that was published. A run that asks for a sequence no memory can hold leaves nothing but that failure.
-/

namespace Playback

/-- What a program is run for. -/
inductive Mode where
  | command
  | scheduled
  /-- To answer a request with a payload. -/
  | request (payload : Json)

/-- Everything that a run leaves. -/
structure Execution where
  record : Trace.Record
  /-- The last value that was published. -/
  response : Option Json
  output : String

def Machine.ready (limits : Limits) (mode : Mode) (input : List String) : Machine :=
  let m := Machine.start limits input
  match mode with
  | .command => m
  | .scheduled => m
  | .request payload =>
    match Value.ofJson payload m.heap with
    | .ok v heap => { m with heap, globals := [("request", v)], answers := true }
    | .error _ heap => { m with heap, answers := true }

def Machine.execution (m : Machine) : Execution :=
  { record := m.trace.record, response := m.response.map m.heap.toJson, output := m.output }

/-- What a run leaves that failed outside the program. -/
def Execution.failure (limits : Limits) (message : String) : Execution :=
  let trace := (Trace.start limits).logUncaught ExceptionKind.internal.name message
  { record := trace.record, response := none, output := "" }

/-- Runs a program in which every loop on a condition may take `rounds` rounds; none if one needs more. -/
def Program.run (program : Program) (rounds : Nat) (limits : Limits) (mode : Mode) (input : List String) :
    Option Execution :=
  let body := Eval.execBlock (Eval.invoke rounds limits.recursion) rounds program.body
  match body (Machine.ready limits mode input) with
  | .ok _ m => some m.execution
  | .error (.raised fault) m =>
    some { m with trace := m.trace.logUncaught fault.kind.name fault.message }.execution
  | .error .capacity _ => some (Execution.failure limits "capacity overflow")
  | .error .exhausted _ => none

end Playback
