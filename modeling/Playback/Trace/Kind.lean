/-!
# Kinds of frames and results

What a frame or a result of a trace was recorded for.
-/

namespace Playback.Trace

/-- What a frame or a result was recorded for. -/
inductive Kind where
  | file | expression | assignment | return_ | if_ | elif | else_ | whileLoop | whileIteration | forLoop
  | forIteration | functionCall | import_ | fromImport
  deriving DecidableEq, Repr

namespace Kind

def name : Kind → String
  | .file => "PYTHON_FILE"
  | .expression => "PYTHON_EXPRESSION"
  | .assignment => "PYTHON_ASSIGNMENT"
  | .return_ => "PYTHON_RETURN"
  | .if_ => "PYTHON_IF_STATEMENT"
  | .elif => "PYTHON_ELIF_STATEMENT"
  | .else_ => "PYTHON_ELSE_STATEMENT"
  | .whileLoop => "PYTHON_WHILE_LOOP"
  | .whileIteration => "PYTHON_WHILE_LOOP_ITERATION"
  | .forLoop => "PYTHON_FOR_LOOP"
  | .forIteration => "PYTHON_FOR_LOOP_ITERATION"
  | .functionCall => "PYTHON_FUNCTION_CALL"
  | .import_ => "PYTHON_IMPORT"
  | .fromImport => "PYTHON_FROM_IMPORT"

def all : List Kind :=
  [.file, .expression, .assignment, .return_, .if_, .elif, .else_, .whileLoop, .whileIteration,
   .forLoop, .forIteration, .functionCall, .import_, .fromImport]

def ofName? (name : String) : Option Kind :=
  all.find? (·.name = name)

/-- Whether a kind is a loop; an iteration of one is not. -/
def isLoop : Kind → Bool
  | .whileLoop | .forLoop => true
  | _ => false

end Kind

end Playback.Trace
