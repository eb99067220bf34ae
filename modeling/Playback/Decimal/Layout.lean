import Playback.Decimal.Shortest

/-!
# Layouts of decimals

How the digits of a double are written down. Three layouts occur: plain notation for messages, the
notation of the language's own float literals, and the notation of JSON texts.
-/

namespace Playback.Decimal

def zeros (n : Nat) : String :=
  String.ofList (List.replicate n '0')

/-- Digits in positional notation; `whole` is what follows a whole number. -/
def positional (whole : String) (d : Digits) : String :=
  let text := toString d.digits
  let size : Int := text.length
  if d.point ≤ 0 then "0." ++ zeros (-d.point).toNat ++ text
  else if size ≤ d.point then text ++ zeros (d.point - size).toNat ++ whole
  else String.ofList (text.toList.take d.point.toNat) ++ "."
    ++ String.ofList (text.toList.drop d.point.toNat)

/-- Digits with one before the decimal point, if any follow it. -/
def mantissaText (d : Digits) : String :=
  match (toString d.digits).toList with
  | first :: second :: rest => String.ofList (first :: '.' :: second :: rest)
  | short => String.ofList short

/-- Digits in scientific notation: a plus sign or none on exponents that are not negative, and at least
`width` exponent digits. -/
def scientific (plus : String) (width : Nat) (d : Digits) : String :=
  let e := d.point - 1
  let text := toString e.natAbs
  mantissaText d ++ "e" ++ (if e < 0 then "-" else plus) ++ zeros (width - text.length) ++ text

/-- How doubles are written. -/
structure Layout where
  /-- Which of two equally near decimals is taken. -/
  tie : Tie
  /-- What follows a whole number in positional notation. -/
  whole : String
  /-- Decimal points from here are positional. -/
  firstPoint : Int
  /-- Decimal points up to here are positional. -/
  lastPoint : Int
  /-- Sign of an exponent that is not negative. -/
  plus : String
  /-- Least number of exponent digits. -/
  exponentWidth : Nat

/-- A double in a layout; infinities and what is no number are `inf`, `-inf` and `nan`. -/
def Layout.write (layout : Layout) (x : Float) : String :=
  match Binary64.parts? x with
  | none => if x.isNaN then "nan" else if x < 0.0 then "-inf" else "inf"
  | some p =>
    let sign := if p.negative then "-" else ""
    if p.mantissa = 0 then sign ++ "0" ++ layout.whole
    else
      let d := shortest layout.tie p.mantissa p.exponent
      sign ++ if layout.firstPoint ≤ d.point && d.point ≤ layout.lastPoint then
          positional layout.whole d
        else
          scientific layout.plus layout.exponentWidth d

/-- Plain notation: always positional, nothing after a whole number. -/
def plain : Layout :=
  { tie := .up, whole := "", firstPoint := -400, lastPoint := 400, plus := "", exponentWidth := 1 }

/-- Float literals: positional from `1e-4` up to below `1e16`, whole numbers end in `.0`, exponents have a
sign and two digits. -/
def literal : Layout :=
  { tie := .up, whole := ".0", firstPoint := -3, lastPoint := 16, plus := "+", exponentWidth := 2 }

/-- JSON numbers: positional from `1e-5` up to below `1e16`, whole numbers end in `.0`, exponents have a
sign. -/
def json : Layout :=
  { tie := .even, whole := ".0", firstPoint := -4, lastPoint := 16, plus := "+", exponentWidth := 1 }

end Playback.Decimal
