import Playback.Function.Convert

/-!
# Rounding and roots
-/

namespace Playback

/-- The remainder that is not negative, by a positive divisor. -/
def Word.remainder (a b : Word) : Word :=
  let r := a % b
  if r < 0 then r + b else r

/-- An integer to the nearest multiple of `scale`, a half going to the even one. -/
def roundTo (i scale : Word) : Word :=
  let r := i.remainder scale
  let base := i - r
  if r * 2 < scale then base
  else if scale < r * 2 then base + scale
  else if base / scale % 2 = 0 then base
  else base + scale

/-- An integer rounded to a power of ten; beyond 64 bits that is zero. -/
def roundInt (i places : Word) : Word :=
  if 0 ≤ places.toInt then i
  else if 18 < -places.toInt then 0
  else roundTo i (Int64.ofNat (Nat.pow 10 (-places.toInt).toNat))

/-- A double rounded to a number of decimal places: scaled by a power of ten, rounded, and scaled back. A
result that is not finite leaves the double as it is. -/
def roundDouble (x : Double) (places : Word) : Double :=
  let scale := Binary64.scaleOfTen (max (-308) (min places.toInt 308))
  let rounded := Binary64.roundHalfEven (x.number * scale) / scale
  if Binary64.isFinite rounded then .ofFloat rounded else x

/-- A value rounded: without places to an integer, with places within its type. -/
def roundValue (v : Value) (places : Option Word) : Except Fault Value :=
  match v.quantity?, places with
  | some (.int i), none => .ok (.int i)
  | some (.int i), some n => .ok (.int (roundInt i n))
  | some (.float x), none => do return .int (← floatToInt (Binary64.roundHalfEven x.number))
  | some (.float x), some n => .ok (.float (roundDouble x n))
  | none, _ => .error (.roundType v.typeName)

/-- Whether the square of `root` is at most `n`; one that does not fit is greater. -/
def Word.isRootOf (root n : Word) : Bool :=
  (ofInt? (root.toInt * root.toInt)).any (· ≤ n)

theorem Word.toInt_sub_one {w : Word} (h : w ≠ Int64.minValue) : (w - 1).toInt = w.toInt - 1 := by
  have hl := w.le_toInt
  have hg := w.toInt_lt
  have hn : w.toInt ≠ Int64.minValue.toInt := fun he => h (Int64.toInt_inj.1 he)
  rw [Int64.toInt_minValue] at hn
  rw [Int64.toInt_sub]
  exact Int.bmod_eq_of_le (by simp; omega) (by simp; omega)

theorem Word.toInt_add_one {w : Word} (h : w ≠ Int64.maxValue) : (w + 1).toInt = w.toInt + 1 := by
  have hl := w.le_toInt
  have hg := w.toInt_lt
  have hn : w.toInt ≠ Int64.maxValue.toInt := fun he => h (Int64.toInt_inj.1 he)
  rw [Int64.toInt_maxValue] at hn
  rw [Int64.toInt_add]
  exact Int.bmod_eq_of_le (by simp; omega) (by simp; omega)

/-- The first number down from `root` whose square is at most `n`, if no step leaves 64 bits. -/
def lowerRoot (n root : Word) : Option Word :=
  if root.isRootOf n then some root
  else if root = Int64.minValue then none
  else lowerRoot n (root - 1)
termination_by (root.toInt - Word.least).toNat
decreasing_by
  have hr := Word.toInt_sub_one ‹_›
  have hl := (root - 1).le_toInt
  unfold Word.least
  omega

/-- The last number up from `root` before the first whose square is greater than `n`, if no step leaves 64 bits. -/
def raiseRoot (n root : Word) : Option Word :=
  if root = Int64.maxValue then none
  else if (root + 1).isRootOf n then raiseRoot n (root + 1)
  else some root
termination_by (Word.greatest - root.toInt).toNat
decreasing_by
  have hr := Word.toInt_add_one ‹_›
  have hl := (root + 1).toInt_lt
  unfold Word.greatest
  omega

/-- The integer square root, corrected from an estimate. -/
def rootFrom (n estimate : Word) : Option Word := do
  raiseRoot n (← lowerRoot n estimate)

/-- The integer square root, corrected from what doubles estimate. -/
def intRoot (n : Word) : Word :=
  let estimate := Word.saturate ((Binary64.toInt? (Float.ofNat n.toInt.toNat).sqrt).getD 0).toNat
  (rootFrom n estimate).getD estimate

end Playback
