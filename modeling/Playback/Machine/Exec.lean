import Playback.Machine.Eval

/-!
# Executing instructions

A block runs its instructions until one of them leaves it. Execution is by recursion on the instructions.
Only a loop on a condition can go on for ever: it is given a number of rounds, and a run that needs more is
no run at all.
-/

namespace Playback.Eval

/-! ## Assignment -/

/-- The values that a number of targets take from one value. -/
def unpack (h : Heap) (v : Value) (expected : Nat) : Except Fault (List Value) :=
  match h.elements v with
  | .error _ => .error (.notUnpackable v.typeName)
  | .ok es =>
    let given := es.count
    if given < expected then .error (.tooFewValues expected given)
    else if expected < given then .error (.tooManyValues expected)
    else .ok es.toList

mutual

def assign (invoke : Invoke) : Target → Value → Eval Unit
  | .name s, v => store s v
  | .item c i, v => do
    let container ← eval invoke c
    let index ← eval invoke i
    onHeap (HeapM.setItem container index v)
  | .unpack targets, v => do
    let vs ← lift (unpack (← get).heap v targets.length)
    assignAll invoke targets vs

def assignAll (invoke : Invoke) : List Target → List Value → Eval Unit
  | t :: targets, v :: vs => do
    assign invoke t v
    assignAll invoke targets vs
  | _, _ => return

end

/-! ## Loops -/

/-- Runs a body as long as a condition holds, at most for a number of rounds. -/
def whileLoop (condition : Eval Bool) (body : Eval Flow) : Nat → Eval Flow
  | 0 => throw .exhausted
  | rounds + 1 => do
    if ← condition then
      match ← body with
      | .break_ => return .normal
      | .return_ v => return .return_ v
      | _ => whileLoop condition body rounds
    else return .normal

/-- Runs a body for each of at most `budget` elements, which `begin_` takes in first. -/
def forLoop (begin_ : Value → Eval Unit) (body : Eval Flow) : Nat → Elements → Eval Flow
  | 0, _ => return .normal
  | budget + 1, es =>
    match es.next? with
    | none => return .normal
    | some (v, rest) => do
      begin_ v
      match ← body with
      | .break_ => return .normal
      | .return_ w => return .return_ w
      | _ => forLoop begin_ body budget rest

/-- Takes an element of a loop in: in traced code it opens a frame and is recorded in it, then it is
assigned. -/
def beginRound (invoke : Invoke) (frame : Option (Trace.Kind × String)) (target : Target) (v : Value) :
    Eval Unit := do
  match frame with
  | some (kind, set) =>
    startFrame kind set
    log none v
  | none => pure ()
  assign invoke target v

/-- The frame that each element of an iterable opens. -/
def roundFrame? : Expr → Option (Trace.Kind × String)
  | .each kind set _ => some (kind, set)
  | _ => none

/-! ## Imports -/

def loadModule (name : String) : Eval Library :=
  match Library.ofName? name with
  | some library => return library
  | none => raise (.noModule name)

def importAll : List String → Eval Unit
  | [] => return
  | name :: rest => do
    let library ← loadModule name
    let v ← onHeap (HeapM.newModule library)
    store name v
    importAll rest

def importNames (library : Library) (module : String) : List String → Eval Unit
  | [] => return
  | name :: rest => do
    match library.attribute? name with
    | none => raise (.noImport name module)
    | some v =>
      store name v
      importNames library module rest

/-! ## Instructions -/

mutual

/-- Executes a block. Loops on a condition may take `rounds` rounds each. -/
def execBlock (invoke : Invoke) (rounds : Nat) : List Instr → Eval Flow
  | [] => return .normal
  | i :: rest => do
    match ← exec invoke rounds i with
    | .normal => execBlock invoke rounds rest
    | flow => return flow

def exec (invoke : Invoke) (rounds : Nat) : Instr → Eval Flow
  | .at line action => do
    modify (·.setLine line)
    execAction invoke rounds action

def execAction (invoke : Invoke) (rounds : Nat) : Action → Eval Flow
  | .eval e => do
    let _ ← eval invoke e
    return .normal
  | .assign target e => do
    let v ← eval invoke e
    assign invoke target v
    return .normal
  | .branch condition body orelse => do
    let v ← eval invoke condition
    if ← truthy v then execBlock invoke rounds body else execBlock invoke rounds orelse
  | .loop condition body =>
    whileLoop (do truthy (← eval invoke condition)) (execBlock invoke rounds body) rounds
  | .iterate target iterable body => do
    let v ← eval invoke iterable
    let es ← lift ((← get).heap.elements v)
    forLoop (beginRound invoke (roundFrame? iterable) target) (execBlock invoke rounds body) es.count es
  | .define code => do
    store code.name (.function code)
    return .normal
  | .return_ e => do
    let v ← eval invoke e
    return .return_ v
  | .break_ => return .break_
  | .continue_ => return .continue_
  | .import_ modules => do
    importAll modules
    return .normal
  | .fromImport module names => do
    let library ← loadModule module
    importNames library module names
    return .normal
  | .startFrame kind set => do
    startFrame kind set
    return .normal
  | .childSet set => do
    onTrace (·.turn set)
    return .normal
  | .endFrame => do
    onTrace Trace.endFrame
    return .normal
  | .endLoop => do
    onTrace Trace.endLoop
    return .normal

end

/-- Calls a function where calls may be nested `room` deeper. -/
def invoke (rounds : Nat) : Nat → Invoke
  | 0 => fun _ _ _ => raise .recursionLimit
  | room + 1 => callWith (execBlock (invoke rounds room) rounds)

end Playback.Eval
