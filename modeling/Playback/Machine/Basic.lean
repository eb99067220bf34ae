import Playback.Function.Arguments
import Playback.Trace.Basic
import Playback.Value.Show

/-!
# Machines

The state of a running program: its heap, the variables of the file and of every call that is going on, what
it wrote and what it may still read, the trace, and the response it published.
-/

namespace Playback

abbrev Scope := List (String × Value)

def Scope.put (name : String) (v : Value) : Scope → Scope
  | [] => [(name, v)]
  | (n, w) :: rest => if n = name then (n, v) :: rest else (n, w) :: Scope.put name v rest

/-- A call that is going on. -/
structure Call where
  code : FunctionCode
  locals : Scope
  line : Nat

structure Machine where
  heap : Heap
  globals : Scope
  /-- The calls that are going on, innermost first. -/
  calls : List Call
  output : String
  input : List String
  trace : Trace
  /-- Whether the program answers a request. -/
  answers : Bool
  /-- The last value that was published. -/
  response : Option Value

namespace Machine

def start (limits : Limits) (input : List String) : Machine :=
  { heap := Heap.empty
    globals := []
    calls := []
    output := ""
    input
    trace := Trace.start limits
    answers := false
    response := none }

def globalValue (m : Machine) (name : String) : Except Fault Value :=
  match m.globals.lookup name with
  | some v => .ok v
  | none =>
    match Builtin.ofName? name with
    | some b => if b = .setResponse ∧ !m.answers then .error (.undefinedName name) else .ok (.builtin b)
    | none => .error (.undefinedName name)

/-- The value of a name: a variable of the call, of the file, or a builtin. A name that the function binds
anywhere is one of its own variables throughout. -/
def value (m : Machine) (name : String) : Except Fault Value :=
  match m.calls with
  | [] => m.globalValue name
  | call :: _ =>
    match call.locals.lookup name with
    | some v => .ok v
    | none => if call.code.locals.contains name then .error (.unboundLocal name) else m.globalValue name

/-- Sets a variable of the innermost call, or of the file. -/
def setVariable (m : Machine) (name : String) (v : Value) : Machine :=
  match m.calls with
  | [] => { m with globals := m.globals.put name v }
  | call :: rest => { m with calls := { call with locals := call.locals.put name v } :: rest }

/-- Notes the line that the innermost call has reached. -/
def setLine (m : Machine) (line : Nat) : Machine :=
  match m.calls with
  | [] => m
  | call :: rest => { m with calls := { call with line } :: rest }

/-- Writes a text; the trace keeps it for the next result. -/
def write (m : Machine) (text : String) : Machine :=
  { m with output := m.output ++ text, trace := m.trace.write text }

end Machine

/-- What a running program does. A failure keeps the state it arose in. -/
abbrev Eval := EStateM Halt Machine

namespace Eval

def raise {α : Type} (fault : Fault) : Eval α :=
  throw (.raised fault)

/-- The outcome of something that leaves the machine alone. -/
def lift {α : Type} : Except Fault α → Eval α
  | .ok a => pure a
  | .error fault => raise fault

def onHeap {α : Type} (x : HeapM α) : Eval α := fun m =>
  let heap := m.heap
  let m := { m with heap := Heap.empty }
  match x heap with
  | .ok a heap => .ok a { m with heap }
  | .error e heap => .error e { m with heap }

def onTrace (f : Trace → Trace) : Eval Unit :=
  modify fun m => { m with trace := f m.trace }

def truthy (v : Value) : Eval Bool := do
  return (← get).heap.truthy v

def load (name : String) : Eval Value := do
  lift ((← get).value name)

def store (name : String) (v : Value) : Eval Unit :=
  modify (·.setVariable name v)

def write (text : String) : Eval Unit :=
  modify (·.write text)

def writeValue (v : Value) : Eval Unit := do
  write ((← get).heap.str v)

def startFrame (kind : Trace.Kind) (set : String) : Eval Unit := do
  if (← get).trace.isFull then
    raise .tooManyIterations
  onTrace (·.addFrame kind set)

def log (kind : Option Trace.Kind) (v : Value) : Eval Unit := do
  let text := (← get).heap.str v
  onTrace (·.logResult kind text v.typeName)

def logEnd (kind until_ : Trace.Kind) (v : Value) : Eval Unit := do
  let text := (← get).heap.str v
  onTrace (·.logAndEnd kind until_ text v.typeName)

def attempt {α : Type} (x : Eval α) : Eval (Except Halt α) := fun m =>
  match x m with
  | .ok a m => .ok (.ok a) m
  | .error e m => .ok (.error e) m

end Eval

end Playback
