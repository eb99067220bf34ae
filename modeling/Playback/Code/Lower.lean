import Playback.Code.Resolve
import Playback.Node.Encode

/-!
# Lowering scripts

Turns statements into instructions. The code of a file is traced: instructions that open and close frames
and record values stand around the statements' own. A function is lowered twice, with and without them.

Every instruction carries the line its statement has when the script is printed; inside a function lines
count from its header, which is line 1.

Traced, a condition opens the frame of its conditional or iteration, and a closing instruction stands at
every end of it: after a conditional, in both branches of an `elif`, at the end of an iteration. A `break`
or `continue` first closes everything up to its loop, a `return` everything through its call.
-/

namespace Playback.Lower

/-- What the lowering has given out so far. -/
structure Counter where
  line : Nat
  /-- The next serial number of a function. -/
  serial : Nat

/-- Lowering counts lines and functions and may fail. -/
abbrev M := StateT Counter (Except CompileError)

/-- Where a statement stands. -/
structure Place where
  /-- Inside a loop of the same function. -/
  inLoop : Bool
  inFunction : Bool

def takeLine : M Nat :=
  modifyGet fun c => (c.line, { c with line := c.line + 1 })

def takeSerial : M Nat :=
  modifyGet fun c => (c.serial, { c with serial := c.serial + 1 })

/-! ## Targets -/

mutual

def target : Token → Except CompileError Target
  | .name s => .ok (.name s)
  | .subscript container key => do
    let container ← Resolve.operand container
    return .item container (← Resolve.value "PYTHON_SUBSCRIPT" "key" key)
  | .tuple rows => return .unpack (← elementTargets rows)
  | .list rows => return .unpack (← elementTargets rows)
  | .bracket inner => elementTarget inner
  | .slice _ _ _ => .error (.unsupported "slice assignment")
  | other => .error (.unrecognized other.tag "assignable")

/-- What an expression inside a target assigns to: it must be a single token. -/
def elementTarget : List Token → Except CompileError Target
  | [token] => target token
  | _ => .error (.unsupported "assignment to an expression")

/-- What the elements of a target assign to; empty ones are left out. -/
def elementTargets : List (List Token) → Except CompileError (List Target)
  | [] => .ok []
  | [] :: rest => elementTargets rest
  | row :: rest => do
    let first ← elementTarget row
    return first :: (← elementTargets rest)

end

/-- The target of an assignment or a loop: several tokens unpack. -/
def targets : List Token → Except CompileError Target
  | [] => .error (.missingChildSet "PYTHON_ASSIGNMENT" "left")
  | [token] => target token
  | tokens => return .unpack (← tokens.mapM target)

/-! ## Names a body binds -/

mutual

def targetNames : Token → List String
  | .name s => [s]
  | .tuple rows => rowsNames rows
  | .list rows => rowsNames rows
  | .bracket inner => rowNames inner
  | _ => []

def rowNames : List Token → List String
  | [] => []
  | token :: rest => targetNames token ++ rowNames rest

def rowsNames : List (List Token) → List String
  | [] => []
  | row :: rest => rowNames row ++ rowsNames rest

end

mutual

/-- The names a statement binds: targets, functions and imports, but not what a nested function binds. -/
def boundNames : Statement → List String
  | .assignment targets _ => rowNames targets
  | .forLoop targets _ body => rowNames targets ++ blockNames body
  | .whileLoop _ body => blockNames body
  | .conditional _ body links => blockNames body ++ linkNames links
  | .function name _ _ _ => [name]
  | .import_ modules => modules
  | .fromImport _ names => names
  | .blank | .comment _ | .expression _ | .return_ _ | .break_ | .continue_ => []

def blockNames : List Statement → List String
  | [] => []
  | statement :: rest => boundNames statement ++ blockNames rest

def linkNames : List Link → List String
  | [] => []
  | .elif _ body :: rest => blockNames body ++ linkNames rest
  | .else_ body :: rest => blockNames body ++ linkNames rest

end

/-! ## Statements -/

def logged (traced : Bool) (kind : Trace.Kind) (e : Expr) : Expr :=
  if traced then .log (some kind) e else e

/-- An import, in a frame of its own in traced code. -/
def framed (traced : Bool) (kind : Trace.Kind) (line : Nat) (action : Action) : List Instr :=
  if traced then
    [.at line (.startFrame kind "import"), .at line action, .at line .endFrame]
  else [.at line action]

/-- The body of a traced iteration: it runs in its block and closes the iteration's frame. -/
def iterationBody (line : Nat) (body : List Instr) : List Instr :=
  .at line (.childSet "block") :: (body ++ [.at line .endFrame])

def misplacedElse : CompileError :=
  .misplaced "'else' must be the last block of an if statement"

mutual

def statement (place : Place) (traced : Bool) : Statement → M (List Instr)
  | .blank => do
    let _ ← takeLine
    return []
  | .comment _ => do
    let _ ← takeLine
    return []
  | .expression value => do
    let line ← takeLine
    match ← Resolve.expression value with
    | none => return []
    | some e => return [.at line (.eval (logged traced .expression e))]
  | .assignment tokens value => do
    let line ← takeLine
    let target ← targets tokens
    let e ← Resolve.value "PYTHON_ASSIGNMENT" "right" value
    return [.at line (.assign target (logged traced .assignment e))]
  | .conditional condition body links => do
    let line ← takeLine
    let c ← Resolve.value "PYTHON_IF_STATEMENT" "condition" condition
    if traced then
      let body ← suite place true body
      let orelse ← tracedLinks place links
      let orelse := if links.isEmpty then [] else .at line (.childSet "elseblocks") :: orelse
      return [.at line (.branch (.logStart .if_ "condition" c)
          (.at line (.childSet "trueblock") :: body) orelse),
        .at line .endFrame]
    else
      let body ← suite place false body
      let orelse ← plainLinks place links
      return [.at line (.branch c body orelse)]
  | .whileLoop condition body => do
    let line ← takeLine
    let c ← Resolve.value "PYTHON_WHILE_LOOP" "condition" condition
    let body ← suite { place with inLoop := true } traced body
    if traced then
      return [.at line (.startFrame .whileLoop "frames"),
        .at line (.loop (.logStart .whileIteration "condition" c) (iterationBody line body)),
        -- the iteration whose condition was false is still open
        .at line .endLoop,
        .at line .endFrame]
    else return [.at line (.loop c body)]
  | .forLoop tokens iterable body => do
    let line ← takeLine
    let target ← targets tokens
    let e ← Resolve.value "PYTHON_FOR_LOOP" "iterable" iterable
    let body ← suite { place with inLoop := true } traced body
    if traced then
      return [.at line (.startFrame .forLoop "frames"),
        .at line (.iterate target (.each .forIteration "iterable" e) (iterationBody line body)),
        .at line .endFrame]
    else return [.at line (.iterate target e body)]
  | .function name id params body => do
    let line ← takeLine
    let serial ← takeSerial
    let after := (← get).line
    let inner : Place := { inLoop := false, inFunction := true }
    modify ({ · with line := 2 })
    let tracedBody ← suite inner true body
    let length := (← get).line - 2
    modify ({ · with line := 2 })
    let plainBody ← suite inner false body
    modify ({ · with line := after + length })
    let code := FunctionCode.mk serial name (id.getD name) params
      (params ++ blockNames body).eraseDups (tracedBody ++ [.at 1 .endFrame]) plainBody
    return [.at line (.define code)]
  | .return_ value => do
    let line ← takeLine
    if !place.inFunction then throw (.misplaced "'return' outside function")
    let e := (← Resolve.expression value).getD (.const .none)
    return [.at line (.return_ (if traced then .logEnd .return_ .functionCall e else e))]
  | .break_ => do
    let line ← takeLine
    if !place.inLoop then throw (.misplaced "'break' outside loop")
    return if traced then [.at line .endLoop, .at line .break_] else [.at line .break_]
  | .continue_ => do
    let line ← takeLine
    if !place.inLoop then throw (.misplaced "'continue' outside loop")
    return if traced then [.at line .endLoop, .at line .continue_] else [.at line .continue_]
  | .import_ modules => do
    let line ← takeLine
    return framed traced .import_ line (.import_ modules)
  | .fromImport module names => do
    let line ← takeLine
    return framed traced .fromImport line (.fromImport module names)

def block (place : Place) (traced : Bool) : List Statement → M (List Instr)
  | [] => return []
  | s :: rest => do
    let first ← statement place traced s
    return first ++ (← block place traced rest)

/-- Lowers an indented block; an empty one still takes the line of its `pass`. -/
def suite (place : Place) (traced : Bool) : List Statement → M (List Instr)
  | [] => do
    let _ ← takeLine
    return []
  | s :: rest => do
    let first ← statement place traced s
    return first ++ (← block place traced rest)

/-- Lowers the links of a traced conditional. Each `elif` opens a frame of its own and closes it in both of
its branches. -/
def tracedLinks (place : Place) : List Link → M (List Instr)
  | [] => return []
  | .elif condition body :: rest => do
    let line ← takeLine
    let c ← Resolve.value "PYTHON_ELIF_STATEMENT" "condition" condition
    let body ← suite place true body
    let orelse ← tracedLinks place rest
    return [.at line (.branch (.logStart .elif "condition" c)
      (iterationBody line body) (.at line .endFrame :: orelse))]
  | .else_ body :: rest => do
    let line ← takeLine
    if !rest.isEmpty then throw misplacedElse
    let body ← suite place true body
    return .at line (.startFrame .else_ "block") :: (body ++ [.at line .endFrame])

def plainLinks (place : Place) : List Link → M (List Instr)
  | [] => return []
  | .elif condition body :: rest => do
    let line ← takeLine
    let c ← Resolve.value "PYTHON_ELIF_STATEMENT" "condition" condition
    let body ← suite place false body
    let orelse ← plainLinks place rest
    return [.at line (.branch c body orelse)]
  | .else_ body :: rest => do
    let _ ← takeLine
    if !rest.isEmpty then throw misplacedElse
    suite place false body

end

end Playback.Lower

namespace Playback

def Script.compile (script : Script) : Except CompileError Program := do
  let (body, _) ← (Lower.block { inLoop := false, inFunction := false } true script).run
    { line := 1, serial := 0 }
  return { body }

end Playback
