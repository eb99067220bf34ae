import Playback.Text.Letter

/-!
# Numeric characters

Digits, letter numbers and other numbers: the Unicode categories Nd, Nl and No.
-/

namespace Playback.Text

def numericRuns : Runs := .ofText [
  "e225123bgQ:d2:eF:j@:cN:46cD:cN:cN:26cF=cK:87c?:c@77CcE:c8:cN:bJDg4:bJ:q?Du13fC:6:F:gT:cX;dQ:6:e6:bZ:d2:6:xR1366:",
  "eFb725qFb@bRFo>NbfE1rM1I9>3hS4d6:N81?P:W?zv<:e<:h<6dF:V:eF:F:bZ:j::spB:l9b1<b=A2hQKT4M181d25eJ:vB8I7W9bO5F6dL22@",
  "2b2bD9b82N3bO5c@8H8Y7hF6b4:6:g>OdJ:Z4cH7d2NcX:b@:d<:7DfO:hR:cN:iF:c>:6DbP<jHCc5:p2:bZMf7:bJ:b::i6:c>Ey;cGnpE:cb:",
  ":bZ:d2:17lZ:fZGhY3uuY:bhJD<DcDIz9b6cbT:jJ:lB:fK:q<9cX:r[b?1314bPb11?vV=cl?:"]

def isNumeric (c : Char) : Bool :=
  if c.toNat < 128 then c.isDigit else numericRuns.has c

/-- Whether a character is a letter or numeric: what may continue a name, beside the underscore. -/
def isAlphanumeric (c : Char) : Bool :=
  isLetter c || isNumeric c

end Playback.Text
