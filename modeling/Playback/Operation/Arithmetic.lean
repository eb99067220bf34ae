import Playback.Value.Basic

/-!
# Arithmetic

Sums and products of integers must fit 64 bits; where one operand is a double, both are. Division of integers
rounds down, and the remainder has the sign of the divisor. Shifts and powers work on the 64 bits themselves.
-/

namespace Playback.Arithmetic

/-- The integer of an operation, which overflows if there is none. -/
def fitting (operation : String) : Option Word → Except Fault Value
  | some w => .ok (.int w)
  | none => .error (.overflow operation)

def checked (operation : String) (i : Int) : Except Fault Value :=
  fitting operation (Word.ofInt? i)

/-! ## Doubles -/

def divide (a b : Double) : Except Fault Value :=
  if b.number == 0.0 then .error .divisionByZero else .ok (.float (a / b))

def floorDivide (a b : Double) : Except Fault Value :=
  if b.number == 0.0 then .error .floatFloorDivisionByZero else .ok (.float ((a / b).map Float.floor))

/-- The remainder of doubles, with the sign of the divisor. -/
def floatModulo (a b : Double) : Except Fault Value :=
  if b.number == 0.0 then .error .floatModuloByZero
  else
    let r := a.remainder b
    if r.number != 0.0 && (r.number < 0.0) != (b.number < 0.0) then .ok (.float (r + b))
    else .ok (.float r)

/-- A power that must be a number if its operands are. -/
def realPower (a b : Double) : Except Fault Value :=
  let result := a.pow b
  if result.isNaN && !a.isNaN && !b.isNaN then .error .domain else .ok (.float result)

def floatPower (a b : Double) : Except Fault Value :=
  if a.number == 0.0 && b.number < 0.0 then .error .negativePowerOfZero else realPower a b

/-! ## Integers -/

/-- The quotient rounded towards zero. There is none by zero, and the least integer by minus one does not fit. -/
def quotient? (a b : Word) : Option Word :=
  if b == 0 || (a == Int64.minValue && b == -1) then none else some (a / b)

/-- The quotient rounded down: one less than towards zero if something is left over and the signs differ. -/
def floorQuotient (a b : Word) : Word :=
  if a % b != 0 && (a < 0) != (b < 0) then a / b - 1 else a / b

def intFloorDivide (a b : Word) : Except Fault Value :=
  if b == 0 then .error .floorDivisionByZero
  else fitting "//" ((quotient? a b).map fun _ => floorQuotient a b)

/-- The remainder of integers, with the sign of the divisor. Where the quotient does not fit, nothing is left over. -/
def intModulo (a b : Word) : Except Fault Value :=
  if b == 0 then .error .moduloByZero
  else
    let r := ((quotient? a b).map fun _ => a % b).getD 0
    .ok (.int (if r != 0 && (r < 0) != (b < 0) then r + b else r))

def product? (a b : Word) : Option Word :=
  Word.ofInt? (a.toInt * b.toInt)

/-- The product of `product` and a power of `base`, one bit of the exponent at a time: at each bit the base is squared,
and it is taken into the product where the bit is one. Every product on the way must fit. -/
def powerFrom (product base : Word) (exponent : Nat) : Nat → Option Word
  | 0 => some product
  | bits + 1 => do
    let product ← if exponent % 2 = 1 then product? product base else some product
    if exponent ≤ 1 then return product
    powerFrom product (← product? base base) (exponent / 2) bits

/-- A power of integers; a negative exponent makes it one of doubles. From an exponent of more than 32 bits on, only
the bases that stay among minus one, zero and one have a power that fits. -/
def intPower (a b : Word) : Except Fault Value :=
  if b < 0 then floatPower (.ofFloat a.toFloat) (.ofFloat b.toFloat)
  else if b < 0x100000000 then fitting "**" (powerFrom 1 a b.toInt.toNat 32)
  else if a == 0 || a == 1 then .ok (.int a)
  else if a == -1 then .ok (.int (if b % 2 == 0 then 1 else -1))
  else .error (.overflow "**")

/-- An integer shifted to the left. It fits if shifting it back gives it again; from 64 places on only zero does. -/
def shiftLeft (a b : Word) : Except Fault Value :=
  if b < 0 then .error .negativeShift
  else if a == 0 then .ok (.int 0)
  else if 64 ≤ b then .error (.overflow "<<")
  else if (a <<< b) >>> b != a then .error (.overflow "<<")
  else .ok (.int (a <<< b))

/-- An integer shifted to the right. From 64 places on nothing but the sign is left. -/
def shiftRight (a b : Word) : Except Fault Value :=
  if b < 0 then .error .negativeShift
  else .ok (.int (if 64 ≤ b then (if a < 0 then -1 else 0) else a >>> b))

/-! ## Operators on numbers -/

def onInts (op : BinaryOp) (a b : Word) : Except Fault Value :=
  match op with
  | .add => checked "+" (a.toInt + b.toInt)
  | .sub => checked "-" (a.toInt - b.toInt)
  | .mul => checked "*" (a.toInt * b.toInt)
  | .div => divide (.ofFloat a.toFloat) (.ofFloat b.toFloat)
  | .floorDiv => intFloorDivide a b
  | .mod => intModulo a b
  | .pow => intPower a b
  | .shiftLeft => shiftLeft a b
  | .shiftRight => shiftRight a b
  | .bitOr => .ok (.int (a ||| b))
  | .bitXor => .ok (.int (a ^^^ b))
  | .bitAnd => .ok (.int (a &&& b))
  | .matMul => .error (.operands op.symbol "int" "int")

/-- An operator on doubles, if it has a meaning for them. -/
def onDoubles? (op : BinaryOp) (a b : Double) : Option (Except Fault Value) :=
  match op with
  | .add => some (.ok (.float (a + b)))
  | .sub => some (.ok (.float (a - b)))
  | .mul => some (.ok (.float (a * b)))
  | .div => some (divide a b)
  | .floorDiv => some (floorDivide a b)
  | .mod => some (floatModulo a b)
  | .pow => some (floatPower a b)
  | _ => none

/-- An operator on two values that are numbers, if it has a meaning for them. Bit operators on booleans
give booleans. -/
def onValues? (op : BinaryOp) (a b : Value) : Option (Except Fault Value) :=
  match op, a, b with
  | .matMul, _, _ => none
  | .bitOr, .bool x, .bool y => some (.ok (.bool (x || y)))
  | .bitXor, .bool x, .bool y => some (.ok (.bool (x != y)))
  | .bitAnd, .bool x, .bool y => some (.ok (.bool (x && y)))
  | _, _, _ =>
    match a.quantity?, b.quantity? with
    | some (.int x), some (.int y) => some (onInts op x y)
    | some x, some y => onDoubles? op x.toDouble y.toDouble
    | _, _ => none

/-- An operator in front of a number. The logical negation has a meaning for every value: `truthy` says what
counts as true. -/
def unary (truthy : Value → Bool) (op : UnaryOp) (v : Value) : Except Fault Value :=
  match op, v.quantity? with
  | .not, _ => .ok (.bool (!truthy v))
  | .plus, some (.int i) => .ok (.int i)
  | .plus, some (.float x) => .ok (.float x)
  | .minus, some (.int i) => checked "unary -" (-i.toInt)
  | .minus, some (.float x) => .ok (.float (-x))
  | .invert, some (.int i) => .ok (.int (~~~i))
  | _, _ => .error (.unaryOperand op.symbol v.typeName)

end Playback.Arithmetic
