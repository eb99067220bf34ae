/-!
# Character sets as runs of code points

The Unicode properties this library asks for are kept as tables of runs, one module a property, the long ones by their
lengths, which are written down as text. A table is searched from the front; every reader of one answers ASCII
characters before it looks.
-/

namespace Playback.Text

/-- A set of characters: runs of code points, each given by its first and its last member. -/
abbrev Runs := List (Nat × Nat)

/-- The runs from `start` on, from how many code points stand before each, after the one before it, and how many it
has. -/
def Runs.ofLengths (start : Nat) : List Nat → Runs
  | skipped :: size :: rest =>
    (start + skipped, start + skipped + size - 1) :: ofLengths (start + skipped + size) rest
  | _ => []

/-- The numbers a text stands for. A number ends with a digit to the base 44, one of the characters from `0` to `[`; the
digits before it are small letters, to the base 26. -/
def numbersFrom (high : Nat) : List Char → List Nat
  | [] => []
  | c :: rest =>
    if c.isLower then numbersFrom (high * 26 + (c.toNat - 97)) rest
    else (high * 44 + (c.toNat - 48)) :: numbersFrom 0 rest

def numbers (lines : List String) : List Nat :=
  numbersFrom 0 (lines.flatMap String.toList)

def Runs.ofText (lines : List String) : Runs :=
  ofLengths 0 (numbers lines)

def Runs.has (runs : Runs) (c : Char) : Bool :=
  runs.any fun run => run.1 ≤ c.toNat && c.toNat ≤ run.2

end Playback.Text
