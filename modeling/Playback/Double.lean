import Playback.Binary64

/-!
# Doubles of the language

`Float` has a single value that is no number. In the language such a value has a sign, which identity and
keys tell apart, so a double is kept by its bits; everything else looks at the number they stand for.

Arithmetic computes the number and then settles the sign of a result that is none: it is that of the first
operand that is none, and where all operands are numbers, as in the difference of two infinities, it is
negative.
-/

namespace Playback

/-- A double by its bits. -/
structure Double where
  /-- Sign, exponent and fraction. -/
  bits : UInt64
  deriving DecidableEq, Repr

namespace Double

def number (x : Double) : Float :=
  Float.ofBits x.bits

def nan (negative : Bool) : Double :=
  ⟨if negative then 0xFFF8000000000000 else 0x7FF8000000000000⟩

def isNaN (x : Double) : Bool :=
  x.number.isNaN

def ofFloat (x : Float) : Double :=
  if x.isNaN then nan false else ⟨x.toBits⟩

def infinity : Double :=
  ⟨0x7FF0000000000000⟩

/-- The double of what was computed from the operands. -/
def result (operands : List Double) (x : Float) : Double :=
  if x.isNaN then (operands.find? isNaN).getD (nan true) else ofFloat x

instance : Add Double := ⟨fun a b => result [a, b] (a.number + b.number)⟩

instance : Sub Double := ⟨fun a b => result [a, b] (a.number - b.number)⟩

instance : Mul Double := ⟨fun a b => result [a, b] (a.number * b.number)⟩

instance : Div Double := ⟨fun a b => result [a, b] (a.number / b.number)⟩

/-- The sign turned round. -/
instance : Neg Double := ⟨fun x => ⟨x.bits ^^^ 0x8000000000000000⟩⟩

def abs (x : Double) : Double :=
  ⟨x.bits &&& 0x7FFFFFFFFFFFFFFF⟩

/-- The image under a function of one number. -/
def map (f : Float → Float) (x : Double) : Double :=
  result [x] (f x.number)

/-- The remainder of a division truncated towards zero. -/
def remainder (a b : Double) : Double :=
  result [a, b] (Binary64.remainder a.number b.number)

/-- A power. What is no number is positive in an odd power and keeps its sign in any other. -/
def pow (a b : Double) : Double :=
  let x := Float.pow a.number b.number
  if x.isNaN && a.isNaN && Binary64.isOdd b.number then nan false else result [a, b] x

end Double

end Playback
