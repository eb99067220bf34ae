/-!
# Operators

The operators of the language with their symbols and how tightly they bind. A higher precedence binds
tighter; only the power groups from the right.
-/

namespace Playback

inductive BinaryOp where
  | bitOr | bitXor | bitAnd | shiftLeft | shiftRight | add | sub | mul | div | floorDiv | mod | matMul
  | pow
  deriving DecidableEq, Repr

inductive CompareOp where
  | eq | ne | ge | gt | le | lt | isNot | is | notIn | in_
  deriving DecidableEq, Repr

/-- Boolean operators, which stop as soon as they know. -/
inductive BoolOp where
  | and | or
  deriving DecidableEq, Repr

inductive UnaryOp where
  | not | plus | minus | invert
  deriving DecidableEq, Repr

inductive Operator where
  | bool (op : BoolOp)
  | compare (op : CompareOp)
  | binary (op : BinaryOp)
  deriving DecidableEq, Repr

/-- The operators between operands with symbol and precedence. -/
def Operator.table : List (String × Nat × Operator) := [
  ("or", 50, .bool .or),
  ("and", 60, .bool .and),
  ("==", 80, .compare .eq),
  ("!=", 80, .compare .ne),
  (">=", 80, .compare .ge),
  (">", 80, .compare .gt),
  ("<=", 80, .compare .le),
  ("<", 80, .compare .lt),
  ("is not", 80, .compare .isNot),
  ("is", 80, .compare .is),
  ("not in", 80, .compare .notIn),
  ("in", 80, .compare .in_),
  ("|", 90, .binary .bitOr),
  ("^", 100, .binary .bitXor),
  ("&", 110, .binary .bitAnd),
  ("<<", 120, .binary .shiftLeft),
  (">>", 120, .binary .shiftRight),
  ("+", 130, .binary .add),
  ("-", 130, .binary .sub),
  ("*", 140, .binary .mul),
  ("/", 140, .binary .div),
  ("//", 140, .binary .floorDiv),
  ("%", 140, .binary .mod),
  ("@", 140, .binary .matMul),
  ("**", 160, .binary .pow)]

/-- The operators before their operand with symbol and precedence. -/
def UnaryOp.table : List (String × Nat × UnaryOp) := [
  ("not", 70, .not),
  ("+", 150, .plus),
  ("-", 150, .minus),
  ("~", 150, .invert)]

namespace Operator

def ofSymbol? (symbol : String) : Option Operator :=
  (table.lookup symbol).map (·.2)

def precedence : Operator → Nat
  | .bool .or => 50
  | .bool .and => 60
  | .compare _ => 80
  | .binary .bitOr => 90
  | .binary .bitXor => 100
  | .binary .bitAnd => 110
  | .binary .shiftLeft | .binary .shiftRight => 120
  | .binary .add | .binary .sub => 130
  | .binary .mul | .binary .div | .binary .floorDiv | .binary .mod | .binary .matMul => 140
  | .binary .pow => 160

/-- Whether a row of the operator groups from the right. -/
def groupsRight : Operator → Bool
  | .binary .pow => true
  | _ => false

end Operator

def BoolOp.symbol : BoolOp → String
  | .and => "and"
  | .or => "or"

def CompareOp.symbol : CompareOp → String
  | .eq => "=="
  | .ne => "!="
  | .ge => ">="
  | .gt => ">"
  | .le => "<="
  | .lt => "<"
  | .isNot => "is not"
  | .is => "is"
  | .notIn => "not in"
  | .in_ => "in"

def BinaryOp.symbol : BinaryOp → String
  | .bitOr => "|"
  | .bitXor => "^"
  | .bitAnd => "&"
  | .shiftLeft => "<<"
  | .shiftRight => ">>"
  | .add => "+"
  | .sub => "-"
  | .mul => "*"
  | .div => "/"
  | .floorDiv => "//"
  | .mod => "%"
  | .matMul => "@"
  | .pow => "**"

def Operator.symbol : Operator → String
  | .bool op => op.symbol
  | .compare op => op.symbol
  | .binary op => op.symbol

/-- The table agrees with the symbol and the precedence of each of its operators. -/
theorem Operator.table_agrees :
    ∀ row ∈ Operator.table, row.2.2.symbol = row.1 ∧ row.2.2.precedence = row.2.1 := by
  decide

namespace UnaryOp

def ofSymbol? (symbol : String) : Option UnaryOp :=
  (table.lookup symbol).map (·.2)

def precedence : UnaryOp → Nat
  | .not => 70
  | .plus | .minus | .invert => 150

def symbol : UnaryOp → String
  | .not => "not"
  | .plus => "+"
  | .minus => "-"
  | .invert => "~"

/-- The table agrees with the symbol and the precedence of each of its operators. -/
theorem table_agrees :
    ∀ row ∈ table, row.2.2.symbol = row.1 ∧ row.2.2.precedence = row.2.1 := by
  decide

end UnaryOp

def isOperatorSymbol (symbol : String) : Bool :=
  (Operator.ofSymbol? symbol).isSome || (UnaryOp.ofSymbol? symbol).isSome

end Playback
