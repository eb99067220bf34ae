import Playback.Word

/-!
# Ranges

A range is the row of integers from a start in equal steps up to, and without, a stop. Its elements are
never listed: their number and each of them are computed.
-/

namespace Playback

/-- The integers from `start` in steps of `step` before `stop`. -/
structure Range where
  start : Word
  stop : Word
  step : Word
  step_ne : step ≠ 0
deriving DecidableEq

namespace Range

def count (r : Range) : Nat :=
  let start := r.start.toInt
  let stop := r.stop.toInt
  let step := r.step.toInt
  if 0 < step ∧ start < stop then ((stop - start + step - 1) / step).toNat
  else if step < 0 ∧ stop < start then ((start - stop - step - 1) / -step).toNat
  else 0

/-- The length that programs see: it stops at the greatest integer. -/
def length (r : Range) : Word :=
  Word.saturate r.count

/-- The element at a position, or where it would be; beyond 64 bits it is the nearest integer. -/
def element (r : Range) (position : Nat) : Word :=
  Word.saturate (r.start.toInt + (Word.saturate (r.step.toInt * position)).toInt)

/-- The first element and the range after it. If the end of 64 bits keeps the step from moving the start, nothing is
left. -/
def next? (r : Range) : Option (Word × Range) :=
  let done := if 0 < r.step.toInt then r.stop ≤ r.start else r.start ≤ r.stop
  if done then none
  else
    let next := Word.saturate (r.start.toInt + r.step.toInt)
    some (r.start, { r with start := if next = r.start then r.stop else next })

def has (r : Range) (n : Int) : Bool :=
  let offset := n - r.start.toInt
  let step := r.step.toInt
  offset.tmod step == 0 && decide (0 ≤ offset.tdiv step) && decide (offset.tdiv step < r.length.toInt)

def part (r : Range) (first last : Nat) : Range :=
  { r with start := r.element first, stop := r.element last }

def same (a b : Range) : Bool :=
  a.length == b.length
    && (a.length == 0 || (a.start == b.start && (a.length == 1 || a.step == b.step)))

end Range

end Playback
