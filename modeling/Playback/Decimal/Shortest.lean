import Playback.Binary64

/-!
# Shortest decimals

The decimal digits of a double: the fewest that read back as the same double, and of those the nearest
to it. A double is read back from every real in the interval up to half way to its neighbours, the ends
included when its mantissa is even. For 1, 2, … digits the two neighbours of the value on that decimal
grid are tried; seventeen digits always suffice.
-/

namespace Playback.Decimal

/-- What to do when two shortest decimals are equally near. -/
inductive Tie where
  | up
  /-- The one whose last digit is even. -/
  | even

/-- The decimal `0.d₁d₂…dₙ · 10 ^ point`, where `digits` is the natural number `d₁d₂…dₙ`. -/
structure Digits where
  /-- The significant digits as a number, without trailing zeros. -/
  digits : Nat
  /-- Where the decimal point stands, counted from before the first digit. -/
  point : Int

/-- Drops trailing zeros. A number below `2 ^ 64` has fewer than twenty. -/
def dropZeros : Nat → Nat → Nat
  | 0, n => n
  | fuel + 1, n => if n ≠ 0 && n % 10 = 0 then dropZeros fuel (n / 10) else n

/-- A positive rational `4 m · 2 ^ (q - 2)` scaled by `10 ^ s`, as a fraction `x · num / den`. -/
structure Scale where
  /-- Factor of the numerator. -/
  num : Nat
  den : Nat

/-- The scale for the exponent `q` of two and the power `s` of ten. -/
def scale (q s : Int) : Scale :=
  let p := q - 2
  { num := Nat.pow 2 p.toNat * Nat.pow 10 s.toNat
    den := Nat.pow 2 (-p).toNat * Nat.pow 10 (-s).toNat }

/-- Whether `m · 2 ^ q` is below `10 ^ p`. -/
def below (m : Nat) (q p : Int) : Bool :=
  let k := scale q (-p)
  4 * m * k.num < k.den

/-- The least `p` with `m · 2 ^ q < 10 ^ p`, for positive `m`: one of four candidates around an estimate
from the binary logarithm. -/
def pointOf (m : Nat) (q : Int) : Int :=
  let guess := ((m.log2 : Int) + q) * 30103 / 100000 - 1
  if below m q guess then guess
  else if below m q (guess + 1) then guess + 1
  else if below m q (guess + 2) then guess + 2
  else guess + 3

/-- The nearer of the value's two neighbours with `n` digits, if one of them reads back. `wide` is the
width of the interval below, in quarters of the mantissa's unit. -/
def withDigits? (tie : Tie) (m : Nat) (q : Int) (wide : Nat) (point : Int) (n : Nat) : Option Nat :=
  let k := scale q ((n : Int) - point)
  let value := 4 * m * k.num
  let low := (4 * m - wide) * k.num
  let high := (4 * m + 2) * k.num
  let d := value / k.den
  let inside (x : Nat) : Bool :=
    if m % 2 = 0 then low ≤ x && x ≤ high else low < x && x < high
  let down := d * k.den
  let up := (d + 1) * k.den
  match inside down, inside up with
  | false, false => none
  | true, false => some d
  | false, true => some (d + 1)
  | true, true =>
    if value - down < up - value then some d
    else if up - value < value - down then some (d + 1)
    else match tie with
      | .up => some (if value = down then d else d + 1)
      | .even => some (if d % 2 = 0 then d else d + 1)

/-- The first digit count from `n` on that reads back. -/
def search (tie : Tie) (m : Nat) (q : Int) (wide : Nat) (point : Int) : Nat → Nat → Nat × Nat
  | 0, n => (n, 0)
  | fuel + 1, n =>
    match withDigits? tie m q wide point n with
    | some d => (n, d)
    | none => search tie m q wide point fuel (n + 1)

/-- The shortest digits of `m · 2 ^ q`, for positive `m`. -/
def shortest (tie : Tie) (m : Nat) (q : Int) : Digits :=
  let point := pointOf m q
  let wide := if m = Nat.pow 2 52 && -1074 < q then 1 else 2
  let (n, d) := search tie m q wide point 17 1
  -- rounding up may carry into a new leading digit
  if d = Nat.pow 10 n then ⟨1, point + 1⟩ else ⟨dropZeros 20 d, point⟩

end Playback.Decimal
