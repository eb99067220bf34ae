import Playback.Function.Arguments
import Playback.Function.Collect
import Playback.Function.Round

/-!
# Calling builtin functions

The functions that only look at their arguments and at the heap.
-/

namespace Playback

/-- The least and the most positional arguments of a function, if it checks them first. -/
def Builtin.takes? : Builtin → Option (Nat × Nat)
  | .len | .repr | .abs | .reversed | .chr | .ord | .type | .sorted | .setResponse => some (1, 1)
  | .sqrt | .floor | .ceil | .fabs | .sin | .cos | .isqrt => some (1, 1)
  | .str | .int | .float | .bool | .list | .tuple | .set | .dict | .input => some (0, 1)
  | .range => some (1, 3)
  | .sum | .enumerate | .round | .log => some (1, 2)
  | .pow => some (2, 2)
  | .print | .min | .max | .zip | .gcd => none

/-- Checks the number of positional arguments of a function. -/
def Builtin.checkCount (b : Builtin) (args : List Value) : Except Fault Unit :=
  match b.takes? with
  | some takes => Playback.checkCount b.name args takes
  | none => .ok ()

def realFunction (f : Double → Except Fault Double) (v : Value) : Except Fault Value := do
  return .float (← f (← v.real))

/-- A logarithm, to the natural base or another. -/
def logarithm (x : Value) (base : Option Value) : Except Fault Value := do
  let x ← x.real
  if x.number ≤ 0.0 then throw .domain
  match base with
  | none => return .float (x.map Float.log)
  | some b =>
    let b ← b.real
    if b.number ≤ 0.0 then throw .domain
    if b.number == 1.0 then throw .logarithmBase
    return .float (x.map Float.log / b.map Float.log)

/-- A number rounded to an integer by `f`. -/
def wholeNumber (f : Float → Float) (v : Value) : Except Fault Value :=
  match v.quantity? with
  | some (.int i) => .ok (.int i)
  | some (.float x) => do return .int (← floatToInt (f x.number))
  | none => .error (.notReal v.typeName)

def absolute (v : Value) : Except Fault Value :=
  match v.quantity? with
  | some (.int i) => Arithmetic.checked "abs" i.toInt.natAbs
  | some (.float x) => .ok (.float x.abs)
  | none => .error (.absOperand v.typeName)

def rootOf (v : Value) : Except Fault Value := do
  let n ← v.index
  if n.toInt < 0 then throw .negativeRoot
  return .int (intRoot n)

/-- A value rounded to as many places as an argument says. -/
def roundedTo (v : Value) (places : Option Value) : Except Fault Value := do
  match places.bind Value.given? with
  | none => roundValue v none
  | some n => roundValue v (some (← n.index))

namespace HeapM

/-- A function on as many positional arguments as it takes. -/
def positional (b : Builtin) (args : List Value) : HeapM Value := do
  match b, args with
  | .len, [v] => return .int (← ask fun h => h.length v)
  | .range, bounds => lift do rangeOf (← indices bounds)
  | .str, [] => return .str ""
  | .str, v :: _ => return .str (← look fun h => h.str v)
  | .repr, [v] => return .str (← look fun h => h.repr v)
  | .int, [] => return .int 0
  | .int, v :: _ => return .int (← lift v.toInt)
  | .float, [] => return .float (.ofFloat 0.0)
  | .float, v :: _ => return .float (← lift v.toDouble)
  | .bool, [] => return .bool false
  | .bool, v :: _ => return .bool (← look fun h => h.truthy v)
  | .list, [] => listOf []
  | .list, v :: _ => listOf (← ask fun h => h.elementList v)
  | .tuple, [] => newTuple []
  | .tuple, v :: _ => newTuple (← ask fun h => h.elementList v)
  | .set, [] => newSet []
  | .set, v :: _ => setOf (← ask fun h => h.elementList v)
  | .abs, [v] => lift (absolute v)
  | .min, args => ask fun h => h.extremeOf .min args
  | .max, args => ask fun h => h.extremeOf .max args
  | .sum, v :: start => sum v (start.head?.getD (.int 0))
  | .reversed, [v] => reversed v
  | .zip, args => zip args
  | .round, v :: places => lift (roundedTo v places.head?)
  | .chr, [v] => lift do charOfCode (← v.index)
  | .ord, [v] => lift (codeOfChar v)
  | .type, [v] => return .str v.typeName
  | .sqrt, [v] => lift (realFunction (fun x => if x.number < 0.0 then .error .domain else .ok (x.map Float.sqrt)) v)
  | .floor, [v] => lift (wholeNumber Float.floor v)
  | .ceil, [v] => lift (wholeNumber Float.ceil v)
  | .fabs, [v] => lift (realFunction (fun x => .ok x.abs) v)
  | .pow, [a, b] => lift do
    let x ← a.real
    let y ← b.real
    Arithmetic.realPower x y
  | .gcd, args => lift (divisorOf 0 args)
  | .log, x :: base => lift (logarithm x base.head?)
  | .sin, [v] => lift (realFunction (fun x => .ok (x.map Float.sin)) v)
  | .cos, [v] => lift (realFunction (fun x => .ok (x.map Float.cos)) v)
  | .isqrt, [v] => lift (rootOf v)
  | _, _ => return .none

/-- Calls a function that only looks at its arguments and at the heap. Three of them take keywords. -/
def callBuiltin (b : Builtin) (args : List Value) (keywords : Keywords) : HeapM Value := do
  match b with
  | .sorted =>
    let (reverse, keywords) := takeKeyword "reverse" keywords
    lift (checkNoKeywords b.name keywords)
    lift (b.checkCount args)
    let reverse ← look fun h => (reverse.map h.truthy).getD false
    sorted (args.head?.getD .none) reverse
  | .enumerate =>
    let (start, keywords) := takeKeyword "start" keywords
    lift (checkNoKeywords b.name keywords)
    lift (b.checkCount args)
    let start ← match args.tail.head?.or start with
      | some v => lift v.index
      | none => pure 0
    enumerate (args.head?.getD .none) start
  | .dict =>
    lift (b.checkCount args)
    let pairs ← match args with
      | [] => pure []
      | source :: _ => ask fun h => h.pairs source
    dictOf (pairs ++ keywords.map fun (k, v) => (.str k, v))
  | _ =>
    lift (checkNoKeywords b.name keywords)
    lift (b.checkCount args)
    positional b args

end HeapM

end Playback
