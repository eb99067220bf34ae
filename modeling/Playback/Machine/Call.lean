import Playback.Machine.Basic

/-!
# Calls of functions

A call binds its arguments to the parameters, runs the body of the function with variables of its own, and
leaves the trace as deep as it found it. The trace decides whether the traced body runs or the plain one.
-/

namespace Playback

/-- How the instructions of a block end. -/
inductive Flow where
  | normal
  | break_
  | continue_
  | return_ (v : Value)

def Flow.result : Flow → Value
  | .return_ v => v
  | _ => .none

/-- Parameters with the arguments bound to them so far. -/
abbrev Slots := List (String × Option Value)

/-- Binds positional arguments; there are no more of them than parameters. -/
def positionalSlots : List String → List Value → Slots
  | [], _ => []
  | p :: params, [] => (p, none) :: positionalSlots params []
  | p :: params, v :: args => (p, some v) :: positionalSlots params args

def bindKeyword (function keyword : String) (v : Value) : Slots → Except Fault Slots
  | [] => .error (.unexpectedKeyword function keyword)
  | (p, bound) :: rest =>
    if p = keyword then
      match bound with
      | some _ => .error (.repeatedArgument function keyword)
      | none => .ok ((p, some v) :: rest)
    else do return (p, bound) :: (← bindKeyword function keyword v rest)

def bindKeywords (function : String) : Keywords → Slots → Except Fault Slots
  | [], slots => .ok slots
  | (keyword, v) :: rest, slots => do bindKeywords function rest (← bindKeyword function keyword v slots)

/-- The variables that bound parameters start with. -/
def slotScope : Slots → Scope → Scope
  | [], scope => scope
  | (_, none) :: rest, scope => slotScope rest scope
  | (p, some v) :: rest, scope => slotScope rest (scope.put p v)

/-- The variables that a function starts with when it is called with these arguments. -/
def FunctionCode.bind (code : FunctionCode) (args : List Value) (keywords : Keywords) :
    Except Fault Scope := do
  if code.params.length < args.length then
    throw (.surplusArguments code.name code.params.length args.length)
  let slots ← bindKeywords code.name keywords (positionalSlots code.params args)
  let missing := slots.filter fun slot => slot.2.isNone
  if missing.isEmpty then return slotScope slots []
  else throw (.missingArguments code.name (missing.map (·.1)))

namespace Eval

/-- Counts a call in the trace and learns whether it is traced. -/
def beginCall (id : String) : Eval Trace.Ticket :=
  modifyGet fun m =>
    let (ticket, trace) := m.trace.beginCall id
    (ticket, { m with trace })

def pushCall (call : Call) : Eval Unit :=
  modify fun m => { m with calls := call :: m.calls }

/-- Ends the innermost call and gives the line that it reached. -/
def popCall : Eval Nat :=
  modifyGet fun m =>
    match m.calls with
    | [] => (1, m)
    | call :: rest => (call.line, { m with calls := rest })

/-- Ends a call in the trace, after `index` calls before it, at a line and down to a depth. -/
def endCall (traced : Bool) (index line depth : Nat) (outcome : Except Halt Flow) : Eval Value := do
  match outcome with
  | .ok flow =>
    if traced then
      onTrace (·.unwindTo depth)
    return flow.result
  | .error (.raised fault) =>
    if traced then
      onTrace (·.logCallException fault.kind.name fault.message index line depth)
    raise fault
  | .error halt => throw halt

/-- Calls a function whose body `run` runs. -/
def callWith (run : List Instr → Eval Flow) (code : FunctionCode) (args : List Value)
    (keywords : Keywords) : Eval Value := do
  let locals ← lift (code.bind args keywords)
  let ticket ← beginCall code.id
  let depth := (← get).trace.depth
  if ticket.traced then
    onTrace (·.startDetached .functionCall "body" code.id)
  pushCall { code, locals, line := 1 }
  let outcome ← attempt (run (if ticket.traced then code.traced else code.plain))
  let line ← popCall
  endCall ticket.traced ticket.index line depth outcome

end Eval

end Playback
