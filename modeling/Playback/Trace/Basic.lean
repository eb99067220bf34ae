import Playback.Limits
import Playback.Trace.Kind

/-!
# Traces

A trace records what a program does while it runs. Every traced construct opens a frame; a frame has
named child sets of entries, and entries go to the child set that is active. A frame opened inside
another is an entry of it from the start. The frame of a function call is filed under the id of the
function instead.

Frames are kept in the order they were opened and referred to by their number; frame 0 is the file's and
is never closed. Output that was written since the last result is pending: the next result takes it.
-/

namespace Playback

namespace Trace

/-- An entry of a child set. -/
inductive Entry where
  /-- A frame, by its number. -/
  | frame (id : Nat)
  /-- A value with the name of its type, and the output that came before it. -/
  | result (kind : Option Kind) (text type : String) (output : List String)
  /-- An exception that passed through. -/
  | exception (type message : String)

structure Frame where
  /-- What the frame was opened for. -/
  kind : Kind
  /-- Child sets in the order they were turned to. -/
  sets : List (String × Array Entry)
  /-- The child set that entries go to. -/
  active : String

/-- The calls filed under an id. -/
structure Calls where
  /-- The numbers of the traced calls' frames. -/
  frames : Array Nat := #[]
  /-- How many calls there were, traced or not. -/
  invocations : Nat := 0

/-- The first exception that left a traced call or the program. -/
structure LastException where
  type : String
  message : String
  /-- Which call of its function it was raised in. -/
  frameNumber : Option Nat := none
  /-- The line of that function. -/
  lineNumber : Option Nat := none

/-- What is decided about one call of a function. -/
structure Ticket where
  /-- How many calls came before. -/
  index : Nat
  traced : Bool

end Trace

open Trace in
structure Trace where
  /-- All frames, in the order they were opened. -/
  frames : Array Frame
  /-- The numbers of the open frames, innermost first. -/
  stack : List Nat
  /-- Calls by id, in the order of the first call. -/
  detached : List (String × Calls)
  /-- Output that no result has taken yet. -/
  pending : Array String
  /-- The first exception that left a traced call or the program. -/
  lastException : Option LastException
  /-- How many entries a child set may hold before frames are refused. -/
  iterationLimit : Option Nat
  callLimit : Nat

namespace Trace

/-- A frame with one child set, empty and active. -/
def Frame.open (kind : Kind) (set : String) : Frame :=
  { kind, sets := [(set, #[])], active := set }

/-- Child sets with an entry added to the one of the given name. -/
def appendEntry (name : String) (entry : Entry) :
    List (String × Array Entry) → List (String × Array Entry)
  | [] => [(name, #[entry])]
  | (n, entries) :: rest =>
    if n = name then (n, entries.push entry) :: rest else (n, entries) :: appendEntry name entry rest

/-- Child sets with the one of the given name present. -/
def ensureSet (name : String) : List (String × Array Entry) → List (String × Array Entry)
  | [] => [(name, #[])]
  | (n, entries) :: rest => if n = name then (n, entries) :: rest else (n, entries) :: ensureSet name rest

namespace Frame

def push (frame : Frame) (entry : Entry) : Frame :=
  { frame with sets := appendEntry frame.active entry frame.sets }

def turn (frame : Frame) (set : String) : Frame :=
  { frame with sets := ensureSet set frame.sets, active := set }

/-- How many entries the active child set holds. -/
def activeSize (frame : Frame) : Nat :=
  ((frame.sets.lookup frame.active).map Array.size).getD 0

end Frame

def start (limits : Limits) : Trace :=
  { frames := #[Frame.open .file "body"]
    stack := [0]
    detached := []
    pending := #[]
    lastException := none
    iterationLimit := limits.iterations
    callLimit := limits.tracedCalls }

def top (t : Trace) : Nat :=
  t.stack.head?.getD 0

def topFrame (t : Trace) : Frame :=
  t.frames[t.top]?.getD (Frame.open .file "body")

def depth (t : Trace) : Nat :=
  t.stack.length

/-- Adds an entry to the innermost open frame. -/
def push (t : Trace) (entry : Entry) : Trace :=
  let i := t.top
  { t with frames := t.frames.modify i (·.push entry) }

/-- Opens a frame that is no entry of another. -/
def openFrame (t : Trace) (kind : Kind) (set : String) : Trace :=
  let id := t.frames.size
  { t with frames := t.frames.push (Frame.open kind set), stack := id :: t.stack }

/-- Whether the active child set of the innermost frame takes no more frames. -/
def isFull (t : Trace) : Bool :=
  match t.iterationLimit with
  | some limit => decide (limit < t.topFrame.activeSize)
  | none => false

/-- Opens a frame as an entry of the innermost one. -/
def addFrame (t : Trace) (kind : Kind) (set : String) : Trace :=
  let id := t.frames.size
  (t.push (.frame id)).openFrame kind set

/-- Opens a frame as an entry of the innermost one, unless that one is full. -/
def startFrame? (t : Trace) (kind : Kind) (set : String) : Option Trace :=
  if t.isFull then none else some (t.addFrame kind set)

/-- Changes what is filed under an id, which is added if it is new. -/
def updateCalls (id : String) (change : Calls → Calls) : List (String × Calls) → List (String × Calls)
  | [] => [(id, change {})]
  | (n, calls) :: rest =>
    if n = id then (n, change calls) :: rest else (n, calls) :: updateCalls id change rest

def invocations (t : Trace) (id : String) : Nat :=
  ((t.detached.lookup id).map (·.invocations)).getD 0

/-- Counts a call under an id and decides whether it is traced. -/
def beginCall (t : Trace) (id : String) : Ticket × Trace :=
  let index := t.invocations id
  ({ index, traced := decide (index < t.callLimit) },
    { t with detached := updateCalls id (fun c => { c with invocations := c.invocations + 1 }) t.detached })

def startDetached (t : Trace) (kind : Kind) (set id : String) : Trace :=
  let frame := t.frames.size
  let t := t.openFrame kind set
  { t with detached := updateCalls id (fun c => { c with frames := c.frames.push frame }) t.detached }

/-- Turns the innermost frame to a child set. -/
def turn (t : Trace) (set : String) : Trace :=
  let i := t.top
  { t with frames := t.frames.modify i (·.turn set) }

/-- Closes the innermost frame; the file's frame stays open. -/
def endFrame (t : Trace) : Trace :=
  match t.stack with
  | _ :: below :: rest => { t with stack := below :: rest }
  | _ => t

def kindOf (t : Trace) (id : Nat) : Kind :=
  ((t.frames[id]?).map (·.kind)).getD .file

/-- Open frames without those inside the innermost loop, call or file. -/
def unwindToLoop (kindOf : Nat → Kind) : List Nat → List Nat
  | top :: below :: rest =>
    if (kindOf top).isLoop || kindOf top == .functionCall then top :: below :: rest
    else unwindToLoop kindOf (below :: rest)
  | stack => stack

/-- Closes frames until the innermost one is a loop, a call or the file. -/
def endLoop (t : Trace) : Trace :=
  { t with stack := unwindToLoop t.kindOf t.stack }

/-- Closes frames until `depth` are open; the file's frame stays open. -/
def unwindTo (t : Trace) (depth : Nat) : Trace :=
  { t with stack := t.stack.drop (t.stack.length - max depth 1) }

/-- Records a value by its text and the name of its type, with the pending output. -/
def logResult (t : Trace) (kind : Option Kind) (text type : String) : Trace :=
  let output := t.pending.toList
  { t with pending := #[] }.push (.result kind text type output)

/-- Opens a frame and records a value in it, unless the innermost frame is full. -/
def logAndStart? (t : Trace) (kind : Kind) (set text type : String) : Option Trace :=
  (t.startFrame? kind set).map (·.logResult none text type)

/-- Open frames without those through the first of a kind; the file's frame stays. -/
def unwindThrough (kindOf : Nat → Kind) (kind : Kind) : List Nat → List Nat
  | top :: below :: rest =>
    if kindOf top == kind then below :: rest else unwindThrough kindOf kind (below :: rest)
  | stack => stack

/-- Records a value and closes frames through the first of kind `until_`. -/
def logAndEnd (t : Trace) (kind until_ : Kind) (text type : String) : Trace :=
  let t := t.logResult (some kind) text type
  { t with stack := unwindThrough t.kindOf until_ t.stack }

/-- Keeps output for the next result; empty output is dropped. -/
def write (t : Trace) (text : String) : Trace :=
  if text.isEmpty then t else { t with pending := t.pending.push text }

def logException (t : Trace) (type message : String) : Trace :=
  t.push (.exception type message)

/-- Keeps an exception as the last one if it is the first. -/
def keepException (t : Trace) (e : LastException) : Trace :=
  match t.lastException with
  | some _ => t
  | none => { t with lastException := some e }

/-- Records an exception that leaves a traced call, and closes the call. -/
def logCallException (t : Trace) (type message : String) (index line depth : Nat) : Trace :=
  ((t.logException type message).keepException
    { type, message, frameNumber := some index, lineNumber := some line }).unwindTo depth

/-- Records an exception that leaves the program. -/
def logUncaught (t : Trace) (type message : String) : Trace :=
  (t.logException type message).keepException { type, message }

end Trace

end Playback
