/-!
# 64-bit integers

Integers of the language are signed and have 64 bits. Arithmetic is done in `Int`; `ofInt?` brings a
result back and fails exactly when it does not fit.
-/

namespace Playback

abbrev Word := Int64

namespace Word

def least : Int := -0x8000000000000000

def greatest : Int := 0x7fffffffffffffff

def ofInt? (i : Int) : Option Word :=
  if least ≤ i ∧ i ≤ greatest then some (Int64.ofInt i) else none

/-- An integer as a word; what does not fit becomes the nearest end of the range. -/
def saturate (i : Int) : Word :=
  Int64.ofInt (max least (min i greatest))

def text (w : Word) : String :=
  toString w.toInt

/-- The value of a digit in bases up to thirty-six, in either case. -/
def digit? (c : Char) : Option Nat :=
  if c.isDigit then some (c.toNat - 48)
  else if 'a' ≤ c ∧ c ≤ 'z' then some (c.toNat - 87)
  else if 'A' ≤ c ∧ c ≤ 'Z' then some (c.toNat - 55)
  else none

/-- The value of a row of digits in the given base; no digits have no value. -/
def natOfDigits? (base : Nat) (cs : List Char) : Option Nat :=
  if cs.isEmpty then none
  else cs.foldlM (fun n c => do
    let d ← digit? c
    if d < base then some (base * n + d) else none) 0

/-- A word written in decimal with an optional sign. -/
def ofDecimal? (cs : List Char) : Option Word :=
  match cs with
  | '-' :: digits => do ofInt? (-(← natOfDigits? 10 digits))
  | '+' :: digits => do ofInt? (← natOfDigits? 10 digits)
  | digits => do ofInt? (← natOfDigits? 10 digits)

end Word

end Playback
