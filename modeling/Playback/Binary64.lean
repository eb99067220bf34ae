/-!
# Doubles, exactly

A finite double is a sign, a mantissa and a power of two. Reading decimals, remainders and conversions
to integers go through these parts in exact arithmetic and round once, at the end.
-/

namespace Playback.Binary64

/-- A finite double: `mantissa · 2 ^ exponent`, negated if `negative`. -/
structure Parts where
  /-- Whether the sign bit is set; also on zero. -/
  negative : Bool
  /-- The mantissa, below `2 ^ 53`. -/
  mantissa : Nat
  exponent : Int

/-- The parts of a double, unless it is an infinity or no number. -/
def parts? (x : Float) : Option Parts :=
  let bits : Nat := x.toBits.toNat
  let raw : Nat := bits / Nat.pow 2 52 % Nat.pow 2 11
  let fraction := bits % Nat.pow 2 52
  let negative := decide (Nat.pow 2 63 ≤ bits)
  if raw = 2047 then none
  else if raw = 0 then some ⟨negative, fraction, -1074⟩
  else some ⟨negative, fraction + Nat.pow 2 52, (raw : Int) - 1075⟩

def isNegative (x : Float) : Bool :=
  decide (Nat.pow 2 63 ≤ x.toBits.toNat)

/-- The quotient of two naturals to the nearest integer, a half going to the even neighbour. -/
def roundDiv (num den : Nat) : Nat :=
  let q := num / den
  let twice := 2 * (num % den)
  if twice < den then q else if den < twice then q + 1 else q + q % 2

/-- The bits of the double nearest to `num / den`, for positive naturals: the quotient is taken with 53
significant bits, or fewer where the least exponent stops it, and a carry moves into the exponent. -/
def nearestBits (num den : Nat) : Nat :=
  let scaled (e : Int) : Nat × Nat :=
    if 0 ≤ e then (num, den * Nat.pow 2 e.toNat) else (num * Nat.pow 2 (-e).toNat, den)
  let low : Int := max (-1074) ((num.log2 : Int) - den.log2 - 53)
  let (n, d) := scaled low
  let e := if n / d < Nat.pow 2 53 then low else low + 1
  let (n, d) := scaled e
  min ((e + 1074).toNat * Nat.pow 2 52 + roundDiv n d) (2047 * Nat.pow 2 52)

/-- The double nearest to a fraction with the given sign; beyond the largest double it is an infinity. -/
def ofRatio (negative : Bool) (num den : Nat) : Float :=
  let bits := if num = 0 then 0 else nearestBits num den
  Float.ofBits (UInt64.ofNat (if negative then bits + Nat.pow 2 63 else bits))

/-- The double nearest to `digits · 10 ^ exponent` with the given sign. Exponents far outside the range of
doubles are answered without computing the power. -/
def ofDecimal (negative : Bool) (digits : Nat) (exponent : Int) : Float :=
  if digits = 0 || exponent < -400 - ((digits.log2 : Int) + 1) then ofRatio negative 0 1
  else if 400 < exponent then ofRatio negative (Nat.pow 10 400) 1
  else if 0 ≤ exponent then ofRatio negative (digits * Nat.pow 10 exponent.toNat) 1
  else ofRatio negative digits (Nat.pow 10 (-exponent).toNat)

def powerOfTen (n : Nat) : Float :=
  ofDecimal false 1 n

/-- The integer part of a finite double, rounded towards zero. -/
def toInt? (x : Float) : Option Int :=
  (parts? x).map fun p =>
    let magnitude : Nat :=
      if 0 ≤ p.exponent then p.mantissa * Nat.pow 2 p.exponent.toNat
      else p.mantissa / Nat.pow 2 (-p.exponent).toNat
    if p.negative then -(magnitude : Int) else magnitude

def isFinite (x : Float) : Bool :=
  (parts? x).isSome

def isIntegral (x : Float) : Bool :=
  match parts? x with
  | none => false
  | some p => decide (0 ≤ p.exponent) || p.mantissa % Nat.pow 2 (-p.exponent).toNat == 0

def isOdd (x : Float) : Bool :=
  isIntegral x && (toInt? x).any (· % 2 != 0)

/-- The remainder of a division truncated towards zero: exact, with the sign of the dividend. -/
def remainder (a b : Float) : Float :=
  match parts? a, parts? b with
  | some p, some q =>
    if q.mantissa = 0 then 0.0 / 0.0
    else
      let low := min p.exponent q.exponent
      let r := (p.mantissa * Nat.pow 2 (p.exponent - low).toNat) % (q.mantissa * Nat.pow 2 (q.exponent - low).toNat)
      if 0 ≤ low then ofRatio p.negative (r * Nat.pow 2 low.toNat) 1
      else ofRatio p.negative r (Nat.pow 2 (-low).toNat)
  | some _, none => if b.isNaN then b else a
  | none, _ => 0.0 / 0.0

/-- The nearest whole number, a half going to the even neighbour. Below `2 ^ 52` adding and taking away
`2 ^ 52` leaves no room for a fraction; from there on every double is whole. -/
def roundHalfEven (x : Float) : Float :=
  let m := x.abs
  if m < 4503599627370496.0 then
    let r := (m + 4503599627370496.0) - 4503599627370496.0
    if isNegative x then -r else r
  else x

/-- The base to a power by repeated squaring: `acc` times `base ^ n`. -/
def powerLoop : Nat → Float → Float → Nat → Float
  | 0, _, acc, _ => acc
  | fuel + 1, base, acc, n =>
    let acc := if n % 2 = 1 then acc * base else acc
    if n / 2 = 0 then acc else powerLoop fuel (base * base) acc (n / 2)

/-- `10 ^ n` by repeated squaring; a negative power is the reciprocal of the positive one. -/
def scaleOfTen (n : Int) : Float :=
  let p := powerLoop 64 10.0 1.0 n.natAbs
  if n < 0 then 1.0 / p else p

end Playback.Binary64
