/-!
# Quoted texts

A text as a literal of the language: between single quotes, or between double quotes when it holds a
single quote and no double one. The quote itself, the backslash and the control characters of ASCII are
escaped; everything else stands for itself.
-/

namespace Playback.Text

def hexDigit (n : Nat) : Char :=
  Nat.digitChar (n % 16)

def hexPair (n : Nat) : List Char :=
  [hexDigit (n / 16), hexDigit n]

def quoteOf (cs : List Char) : Char :=
  if cs.contains '\x27' && !cs.contains '"' then '"' else '\x27'

def quotedChar (quote c : Char) : List Char :=
  if c == '\\' then ['\\', '\\']
  else if c == '\n' then ['\\', 'n']
  else if c == '\r' then ['\\', 'r']
  else if c == '\t' then ['\\', 't']
  else if c == quote then ['\\', c]
  else if c.toNat < 0x20 || c.toNat == 0x7F then '\\' :: 'x' :: hexPair c.toNat
  else [c]

def quotedChars (cs : List Char) : List Char :=
  let quote := quoteOf cs
  quote :: (cs.flatMap (quotedChar quote) ++ [quote])

def quoted (s : String) : String :=
  String.ofList (quotedChars s.toList)

end Playback.Text
