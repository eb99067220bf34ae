import Playback.Code.Basic
import Playback.Decimal.Layout
import Playback.Text.Quoted

/-!
# Listings of code

Code as text, an instruction a line: two blanks for each level of nesting, the line number of the
statement, and what the instruction does. Expressions and targets are written in parentheses, operator
first.
-/

namespace Playback

def form (words : List String) : String :=
  "(" ++ " ".intercalate words ++ ")"

def bracketed (words : List String) : String :=
  "[" ++ " ".intercalate words ++ "]"

def Constant.listing : Constant → String
  | .none => "None"
  | .bool b => if b then "True" else "False"
  | .int i => form ["int", i.text]
  | .float x => form ["float", Decimal.literal.write x.number]
  | .string s => form ["str", Text.quoted s]

namespace Expr

mutual

def listing : Expr → String
  | .const c => c.listing
  | .name s => form ["name", s]
  | .unary op operand => form ["unary", op.symbol, operand.listing]
  | .binary op left right => form ["binary", op.symbol, left.listing, right.listing]
  | .bool op left right => form [op.symbol, left.listing, right.listing]
  | .compare left rest => form ("compare" :: left.listing :: comparisons rest)
  | .call callee args keywords =>
    form ("call" :: callee.listing :: (listings args ++ keywordListings keywords))
  | .attribute value member => form ["attr", value.listing, member]
  | .subscript value index => form ["subscript", value.listing, index.listing]
  | .slice value lower upper =>
    form ["slice", value.listing, boundListing lower, boundListing upper]
  | .list elements => form ("list" :: listings elements)
  | .tuple elements => form ("tuple" :: listings elements)
  | .set elements => form ("set" :: listings elements)
  | .dict entries => form ("dict" :: entryListings entries)
  | .log kind value => form ["log", (kind.map (·.name)).getD "-", value.listing]
  | .logStart kind slot value => form ["log-start", kind.name, slot, value.listing]
  | .logEnd kind until_ value => form ["log-end", kind.name, until_.name, value.listing]
  | .each kind slot iterable => form ["each", kind.name, slot, iterable.listing]

def listings : List Expr → List String
  | [] => []
  | e :: rest => e.listing :: listings rest

/-- The operators and operands of a chain of comparisons. -/
def comparisons : List (CompareOp × Expr) → List String
  | [] => []
  | (op, e) :: rest => op.symbol :: e.listing :: comparisons rest

def keywordListings : List (String × Expr) → List String
  | [] => []
  | (key, e) :: rest => form ["kw", key, e.listing] :: keywordListings rest

def entryListings : List (Expr × Expr) → List String
  | [] => []
  | (key, value) :: rest => form ["pair", key.listing, value.listing] :: entryListings rest

/-- A bound of a slice; an open one is an underscore. -/
def boundListing : Option Expr → String
  | none => "_"
  | some e => e.listing

end

end Expr

namespace Target

mutual

def listing : Target → String
  | .name s => form ["name", s]
  | .item container index => form ["item", container.listing, index.listing]
  | .unpack targets => form ("targets" :: listings targets)

def listings : List Target → List String
  | [] => []
  | t :: rest => t.listing :: listings rest

end

end Target

/-- A line of a listing at a level of nesting. -/
def indented (level : Nat) (text : String) : String :=
  String.ofList (List.replicate (2 * level) ' ') ++ text

def sortedNames (names : List String) : List String :=
  names.mergeSort fun a b => decide (a ≤ b)

mutual

def Instr.listing (level : Nat) : Instr → List String
  | .at line action => actionListing level s!"{line}: " action

/-- The lines of an action after the number of its line. -/
def actionListing (level : Nat) (number : String) : Action → List String
  | .eval value => [indented level (number ++ "expr " ++ value.listing)]
  | .assign target value =>
    [indented level (number ++ "assign " ++ target.listing ++ " " ++ value.listing)]
  | .branch condition body [] =>
    indented level (number ++ "if " ++ condition.listing) :: blockListing (level + 1) body
  | .branch condition body (first :: rest) =>
    indented level (number ++ "if " ++ condition.listing)
      :: (blockListing (level + 1) body
        ++ indented level "else"
          :: (first.listing (level + 1) ++ blockListing (level + 1) rest))
  | .loop condition body =>
    indented level (number ++ "while " ++ condition.listing) :: blockListing (level + 1) body
  | .iterate target iterable body =>
    indented level (number ++ "for " ++ target.listing ++ " " ++ iterable.listing)
      :: blockListing (level + 1) body
  | .define code => functionListing level number code
  | .return_ value => [indented level (number ++ "return " ++ value.listing)]
  | .break_ => [indented level (number ++ "break")]
  | .continue_ => [indented level (number ++ "continue")]
  | .import_ modules => [indented level (number ++ "import " ++ bracketed modules)]
  | .fromImport module names =>
    [indented level (number ++ "from " ++ module ++ " " ++ bracketed names)]
  | .startFrame kind set => [indented level (number ++ "start-frame " ++ kind.name ++ " " ++ set)]
  | .childSet set => [indented level (number ++ "child-set " ++ set)]
  | .endFrame => [indented level (number ++ "end-frame")]
  | .endLoop => [indented level (number ++ "end-loop")]

/-- The lines of a function: its header, then both of its bodies. -/
def functionListing (level : Nat) (number : String) : FunctionCode → List String
  | .mk _ name id params locals traced plain =>
    indented level (number ++ "def " ++ name ++ " id=" ++ id ++ " params=" ++ bracketed params
        ++ " locals=" ++ bracketed (sortedNames locals))
      :: (indented level "traced" :: blockListing (level + 1) traced)
      ++ (indented level "plain" :: blockListing (level + 1) plain)

def blockListing (level : Nat) : List Instr → List String
  | [] => []
  | instr :: rest => instr.listing level ++ blockListing level rest

end

def Program.listing (program : Program) : List String :=
  blockListing 0 program.body

end Playback
