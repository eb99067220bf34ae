import Playback.Text.Visible

/-!
# Escaped texts

A text between double quotes for messages: what would not show is written by its code point.
-/

namespace Playback.Text

/-- A code point in braces after `\u`, in base sixteen and without leading zeros. -/
def codePointEscape (c : Char) : List Char :=
  ['\\', 'u', '\x7b'] ++ Nat.toDigits 16 c.toNat ++ ['\x7d']

def escapedChar (c : Char) : List Char :=
  if c == '"' || c == '\\' then ['\\', c]
  else if c == '\x00' then ['\\', '0']
  else if c == '\t' then ['\\', 't']
  else if c == '\r' then ['\\', 'r']
  else if c == '\n' then ['\\', 'n']
  else if isVisible c then [c]
  else codePointEscape c

/-- A text between double quotes with everything visible. -/
def escaped (s : String) : String :=
  String.ofList ('"' :: (s.toList.flatMap escapedChar ++ ['"']))

end Playback.Text
