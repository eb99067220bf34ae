/-!
# Why a script does not compile

The first fault found stops a compilation. Each is a cause with what it is about; `message` gives it in
words.
-/

namespace Playback

/-- A fault of a tree or a script. -/
inductive CompileError where
  /-- A node whose tag has no meaning where it stands. -/
  | unrecognized (tag context : String)
  /-- A construct outside the language. -/
  | unsupported (feature : String)
  /-- A child set that must not be missing or empty. -/
  | missingChildSet (tag set : String)
  | missingProperty (tag property : String)
  | invalidProperty (tag property value : String)
  /-- An expression that must have a value and is empty. -/
  | missingExpression (tag set : String)
  | unknownOperator (symbol : String)
  /-- Operands and operators that do not alternate. -/
  | malformed (message : String)
  /-- A statement where it cannot run. -/
  | misplaced (message : String)
  | tooDeep (what : String) (limit : Nat)
  /-- A tree whose root is no file. -/
  | notAFile (tag : String)

def CompileError.message : CompileError → String
  | .unrecognized tag context => s!"Unrecognised {context} type: {tag}"
  | .unsupported feature => s!"Unsupported: {feature}"
  | .missingChildSet tag set => s!"{tag} node is missing child set '{set}'"
  | .missingProperty tag property => s!"{tag} node is missing property '{property}'"
  | .invalidProperty tag property value => s!"{tag} node has an invalid '{property}' property: {value}"
  | .missingExpression tag set => s!"{tag} node requires a non-empty '{set}' expression"
  | .unknownOperator symbol => s!"Unknown operator '{symbol}'"
  | .malformed message => s!"Malformed expression: {message}"
  | .misplaced message => message
  | .tooDeep what limit => s!"{what} nested deeper than {limit} levels"
  | .notAFile tag => s!"Expected a PYTHON_FILE root node, found {tag}"

end Playback
