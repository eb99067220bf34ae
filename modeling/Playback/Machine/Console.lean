import Playback.Function.Call
import Playback.Machine.Basic

/-!
# Builtins that reach outside

Writing and reading text, and publishing a response.
-/

namespace Playback

/-- A line without the line break at its end. -/
def withoutBreak (line : String) : String :=
  match line.toList.reverse with
  | '\n' :: '\r' :: rest => String.ofList rest.reverse
  | '\n' :: rest => String.ofList rest.reverse
  | _ => line

namespace Eval

/-- A text that `print` takes as a keyword; none stands for the default. -/
def printKeyword (keyword default : String) (v : Option Value) : Except Fault String :=
  match v.bind Value.given? with
  | none => .ok default
  | some (.str s) => .ok s
  | some other => .error (.printText keyword other.typeName)

/-- Writes values, each after a separator except the first. -/
def writeAll (separator : String) : Bool → List Value → Eval Unit
  | _, [] => return
  | first, v :: rest => do
    if !first then
      write separator
    writeValue v
    writeAll separator false rest

/-- Writes values with separators between them and an end after them. -/
def print (args : List Value) (keywords : Keywords) : Eval Value := do
  let (separator, keywords) := takeKeyword "sep" keywords
  let separator ← lift (printKeyword "sep" " " separator)
  let (ending, keywords) := takeKeyword "end" keywords
  let ending ← lift (printKeyword "end" "\n" ending)
  match keywords with
  | (keyword, _) :: _ => raise (.printKeyword keyword)
  | [] =>
    writeAll separator true args
    write ending
    return .none

def readLine : Eval Value := do
  match (← get).input with
  | [] => raise .endOfInput
  | line :: rest =>
    modify fun m => { m with input := rest }
    return .str (withoutBreak line)

def callBuiltin (b : Builtin) (args : List Value) (keywords : Keywords) : Eval Value := do
  match b with
  | .print => print args keywords
  | .input =>
    lift (checkNoKeywords b.name keywords)
    lift (b.checkCount args)
    match args with
    | prompt :: _ => writeValue prompt
    | [] => pure ()
    readLine
  | .setResponse =>
    lift (checkNoKeywords b.name keywords)
    lift (b.checkCount args)
    modify fun m => { m with response := args.head? }
    return .none
  | _ => onHeap (HeapM.callBuiltin b args keywords)

end Eval

end Playback
