import Playback.Source.Expression
import Playback.Source.Scan

/-!
# Reading statements

Headers of functions, conditionals and loops are followed by a block: indented lines, or one simple
statement on the same line. All other statements fill one line. A `pass` and blank lines leave nothing.
-/

namespace Playback.Source

open Reader

/-! ## Simple statements -/

def rejectAlias : Reader Unit := do
  if (← peek).lexeme.isKeyword .as_ then
    reject .importAliases

def dottedParts : Nat → Reader (List String)
  | 0 => return []
  | fuel + 1 => do
    if ← eat .dot then
      let part ← expectName
      return part :: (← dottedParts fuel)
    else return []

def dottedName : Reader String := do
  let first ← expectName
  let rest ← dottedParts (← remaining)
  rejectAlias
  return ".".intercalate (first :: rest)

def importStatement : Reader Statement := do
  advance
  let first ← dottedName
  return .import_ (first :: (← more (fun _ => false) dottedName))

def importedName : Reader String := do
  match (← peek).lexeme with
  | .operator "*" => fail .wildcardImport
  | _ =>
    let name ← expectName
    rejectAlias
    return name

def fromImportStatement : Reader Statement := do
  advance
  let module ← dottedName
  expectKeyword .import_
  let enclosed ← eat (.opening .round)
  let first ← importedName
  let rest ← more (fun l => enclosed && l.isMark (.closing .round)) importedName
  if enclosed then
    expect (.closing .round) "')'"
  return .fromImport module (first :: rest)

def target : Reader Token := do
  let place := (← peek).place
  let t ← wholeOperand
  match t with
  | .name _ => return t
  | .subscript _ _ => return t
  | .slice _ _ _ => throw (.unsupported .sliceAssignment place)
  | .member _ _ => throw (.invalid .attributeTarget place)
  | _ => throw (.invalid .invalidTarget place)

def targets : Reader (List Token) := do
  let first ← target
  return first :: (← more (fun l => l.isMark .assign || l.isKeyword .in_) target)

/-- Whether a line assigns: whether it has an assignment outside brackets. `depth` counts the brackets
that are open and `found` says whether an assignment came before. -/
def assigns : Nat → Bool → List Located → Except ReadError Bool
  | _, found, [] => .ok found
  | depth, found, ⟨lexeme, place⟩ :: rest =>
    match lexeme with
    | .mark (.opening _) => assigns (depth + 1) found rest
    | .mark (.closing _) => assigns (depth - 1) found rest
    | .mark .newline => .ok found
    | .mark .semicolon => .ok found
    | .mark .endOfFile => .ok found
    | .mark .assign =>
      if depth = 0 then
        if found then .error (.unsupported .chainedAssignment place) else assigns depth true rest
      else assigns depth found rest
    | .augmented _ =>
      if depth = 0 then .error (.unsupported .augmentedAssignment place) else assigns depth found rest
    | _ => assigns depth found rest

/-- An assignment, or an expression on a line of its own. -/
def expressionStatement : Reader Statement := do
  if ← assigns 0 false (← get) then
    let places ← targets
    expect .assign "'='"
    return .assignment places (← expressionRow)
  else return .expression (← expressionRow)

/-- A simple statement without the end of its line. -/
def simpleBody : Reader (Option Statement) := do
  match (← peek).lexeme with
  | .keyword .pass =>
    advance
    return none
  | .keyword .break_ =>
    advance
    return some .break_
  | .keyword .continue_ =>
    advance
    return some .continue_
  | .keyword .return_ =>
    advance
    return some (.return_ (← bound expressionRow (Lexeme.isMark .newline)))
  | .keyword .import_ => return some (← importStatement)
  | .keyword .from_ => return some (← fromImportStatement)
  | _ => return some (← expressionStatement)

def simpleStatement : Reader (Option Statement) := do
  let s ← simpleBody
  expectNewline
  return s

/-! ## Blocks -/

def indented (statement : Reader (Option Statement)) : Nat → Reader (List Statement)
  | 0 => return []
  | fuel + 1 => do
    if ← eat .dedent then
      return []
    else if ← sees .endOfFile then
      unexpected "dedent"
    else
      let s ← statement
      return s.toList ++ (← indented statement fuel)

def block (statement : Reader (Option Statement)) : Reader (List Statement) := do
  expect .colon "':'"
  if ← eat .newline then
    if !(← eat .indent) then
      fail .expectedBlock
    indented statement (← remaining)
  else return (← simpleStatement).toList

def parameter (before : List String) : Reader String := do
  let place := (← peek).place
  let next := (← peek).lexeme
  let second ← peekSecond?
  match next with
  | .operator symbol =>
    if symbol = "*" ∨ symbol = "**" then
      match second with
      | some (.mark .comma) => reject .keywordOnlyParameters
      | some (.mark (.closing .round)) => reject .keywordOnlyParameters
      | _ => reject .collectingParameters
    else if symbol = "/" then
      reject .positionOnlyParameters
  | _ => pure ()
  let name ← expectName
  if ← sees .assign then
    reject .defaultValues
  if ← sees .colon then
    reject .parameterAnnotations
  if before.contains name then
    throw (.invalid (.duplicateParameter name) place)
  return name

def functionStatement (block : Reader (List Statement)) : Reader Statement := do
  advance
  let name ← expectName
  expect (.opening .round) "'(' after the function name"
  let params ← items .round "',' or ')'" parameter
  if ← sees .arrow then
    reject .returnAnnotations
  return .function name (some name) params (← block)

def links (block : Reader (List Statement)) : Nat → Reader (List Link)
  | 0 => return []
  | fuel + 1 => do
    match (← peek).lexeme with
    | .keyword .elif =>
      advance
      let condition ← wholeExpression
      let body ← block
      return .elif condition body :: (← links block fuel)
    | .keyword .else_ =>
      advance
      return [.else_ (← block)]
    | _ => return []

def conditionalStatement (block : Reader (List Statement)) : Reader Statement := do
  advance
  let condition ← wholeExpression
  let body ← block
  return .conditional condition body (← links block (← remaining))

def rejectLoopElse : Reader Unit := do
  if (← peek).lexeme.isKeyword .else_ then
    reject .loopElse

def whileStatement (block : Reader (List Statement)) : Reader Statement := do
  advance
  let condition ← wholeExpression
  let body ← block
  rejectLoopElse
  return .whileLoop condition body

def forStatement (block : Reader (List Statement)) : Reader Statement := do
  advance
  let places ← targets
  expectKeyword .in_
  let iterable ← expressionRow
  let body ← block
  rejectLoopElse
  return .forLoop places iterable body

/-- A statement, given what reads those in its blocks; `pass` is none. -/
def statementWith (inner : Reader (Option Statement)) : Reader (Option Statement) := do
  let next := (← peek).lexeme
  match next with
  | .comment text =>
    advance
    expectNewline
    return some (.comment text)
  | .keyword .def_ => return some (← functionStatement (block inner))
  | .keyword .if_ => return some (← conditionalStatement (block inner))
  | .keyword .while_ => return some (← whileStatement (block inner))
  | .keyword .for_ => return some (← forStatement (block inner))
  | .keyword .elif => fail (.unmatchedLink next)
  | .keyword .else_ => fail (.unmatchedLink next)
  | .mark .indent => fail .unexpectedIndent
  | .reserved word => fail (.reserved word)
  | _ => simpleStatement

/-- A statement with blocks at most `depth` deep. -/
def statement : Nat → Reader (Option Statement)
  | 0 => fail .unexpectedIndent
  | depth + 1 => statementWith (statement depth)

def fileBody (statement : Reader (Option Statement)) : Nat → Reader (List Statement)
  | 0 => return []
  | fuel + 1 => do
    if ← sees .endOfFile then
      return []
    else
      let s ← statement
      return s.toList ++ (← fileBody statement fuel)

/-- The statements of a row of lexemes. Blocks cannot be nested deeper than there are lexemes. -/
def fileScript (lexemes : List Located) : Except ReadError Script :=
  let size := lexemes.length
  (fileBody (statement (size + 1)) (size + 1)).run' lexemes

end Playback.Source

namespace Playback

def Script.ofSource (text : String) : Except Source.ReadError Script :=
  match Source.lexemes text with
  | .ok lexemes => Source.fileScript lexemes
  | .error e => .error e.toReadError

end Playback
