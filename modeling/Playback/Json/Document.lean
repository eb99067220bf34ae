import Playback.Json.Basic

/-!
# JSON documents

A document is a JSON text whose grammar has been checked. Members stand as they were written, repeated
keys included. A number that no double can hold, or a string with half of a surrogate pair, is
grammatical and yet has no value: it is kept as `none`, and only a reader that looks at it refuses it.
-/

namespace Playback

/-- A JSON text with its grammar checked. -/
inductive Document where
  | null
  | bool (b : Bool)
  /-- A number and its value, if it has one. -/
  | number (value : Option Numeral)
  /-- A string and its text, if it has one. -/
  | string (text : Option String)
  | array (items : List Document)
  | object (members : List (Option String × Document))

namespace Document

/-! ## Numbers -/

/-- Reads digits into a significand of 64 bits: the significand, and how many digits at the end no longer
found room. -/
def significand (start : Nat) : List Char → Nat × Nat
  | [] => (start, 0)
  | c :: rest =>
    let next := 10 * start + (c.toNat - 48)
    if next < Nat.pow 2 64 then significand next rest else (start, rest.length + 1)

/-- `significand · 10 ^ exponent` by one multiplication or division of doubles; a power below the table of
powers is taken in steps. No value if it is too large. -/
def scaleFloat? : Nat → Float → Int → Option Float
  | 0, f, _ => some f
  | fuel + 1, f, e =>
    if e.natAbs ≤ 308 then
      let power := Binary64.powerOfTen e.natAbs
      if 0 ≤ e then
        let r := f * power
        if r.isInf then none else some r
      else some (f / power)
    else if f == 0.0 then some f
    else if 0 ≤ e then none
    else scaleFloat? fuel (f / 1e308) (e + 308)

/-- The value of a number from its sign, its digits before and after the point and its exponent. -/
def numberValue (negative : Bool) (whole : List Char) (fraction : List Char)
    (exponent : Option (Bool × List Char)) : Option Numeral :=
  let (s, dropped) := significand 0 whole
  let signed (x : Float) : Option Numeral := Numeral.ofFloat? (if negative then -x else x)
  if fraction.isEmpty && exponent.isNone && dropped = 0 then
    if !negative then some (.int s)
    else if 1 ≤ s ∧ s ≤ Nat.pow 2 63 then some (.int (-s))
    else signed (UInt64.ofNat s).toFloat
  else
    let (s, unread) := significand s fraction
    let start : Int := (dropped : Int) - (fraction.length - unread : Nat)
    let value (e : Int) : Option Numeral :=
      (scaleFloat? 8 (UInt64.ofNat s).toFloat e).bind signed
    match exponent with
    | none => value start
    | some (down, digits) =>
      let e : Nat := digits.foldl (fun n c => 10 * n + (c.toNat - 48)) 0
      if e < Nat.pow 2 31 then value (if down then start - e else start + e)
      else if s ≠ 0 && !down then none
      else signed 0.0

/-- The digits at the front, if there are any, and the rest. -/
def takeDigits? (cs : List Char) : Option (List Char × List Char) :=
  let digits := cs.takeWhile Char.isDigit
  if digits.isEmpty then none else some (digits, cs.dropWhile Char.isDigit)

/-- The whole part of a number: a zero alone, or digits that do not start with zero. -/
def takeWhole? : List Char → Option (List Char × List Char)
  | '0' :: rest => some (['0'], rest)
  | cs => takeDigits? cs

/-- The fraction of a number, empty if there is none. -/
def takeFraction? : List Char → Option (List Char × List Char)
  | '.' :: rest => takeDigits? rest
  | cs => some ([], cs)

/-- The exponent of a number: whether it is negative, and its digits. -/
def takeExponent? (cs : List Char) : Option (Option (Bool × List Char) × List Char) :=
  match cs with
  | c :: rest =>
    if c == 'e' || c == 'E' then
      let (down, rest) := match rest with
        | '-' :: more => (true, more)
        | '+' :: more => (false, more)
        | _ => (false, rest)
      (takeDigits? rest).map fun (digits, rest) => (some (down, digits), rest)
    else some (none, cs)
  | [] => some (none, [])

def readNumber? (cs : List Char) : Option (Document × List Char) := do
  let (negative, cs) := match cs with
    | '-' :: rest => (true, rest)
    | _ => (false, cs)
  let (whole, cs) ← takeWhole? cs
  let (fraction, cs) ← takeFraction? cs
  let (exponent, cs) ← takeExponent? cs
  some (.number (numberValue negative whole fraction exponent), cs)

/-! ## Strings -/

/-- A piece of a string: a character, or an escaped UTF-16 unit. -/
inductive Piece where
  | char (c : Char)
  | unit (n : Nat)

def hexValue? (c : Char) : Option Nat :=
  if c.isDigit then some (c.toNat - 48)
  else if 'a' ≤ c ∧ c ≤ 'f' then some (c.toNat - 87)
  else if 'A' ≤ c ∧ c ≤ 'F' then some (c.toNat - 55)
  else none

/-- What a character after a backslash stands for. -/
def escape? (c : Char) : Option Char :=
  match c with
  | '"' => some '"'
  | '\\' => some '\\'
  | '/' => some '/'
  | 'b' => some '\x08'
  | 'f' => some '\x0c'
  | 'n' => some '\n'
  | 'r' => some '\r'
  | 't' => some '\t'
  | _ => none

def hexUnit? (a b c d : Char) : Option Nat := do
  return 4096 * (← hexValue? a) + 256 * (← hexValue? b) + 16 * (← hexValue? c) + (← hexValue? d)

/-- The pieces of a string up to its closing quote, and the rest. `acc` holds the pieces read, last
first. -/
def readPieces? (acc : List Piece) : List Char → Option (List Piece × List Char)
  | [] => none
  | '"' :: rest => some (acc.reverse, rest)
  | '\\' :: 'u' :: a :: b :: c :: d :: rest =>
    match hexUnit? a b c d with
    | some n => readPieces? (.unit n :: acc) rest
    | none => none
  | '\\' :: c :: rest =>
    match escape? c with
    | some e => readPieces? (.char e :: acc) rest
    | none => none
  | c :: rest => if c.toNat < 0x20 then none else readPieces? (.char c :: acc) rest

/-- The text of a row of pieces: escaped units pair up as UTF-16 asks. -/
def pieceText? : List Piece → Option (List Char)
  | [] => some []
  | .char c :: rest => (pieceText? rest).map (c :: ·)
  | .unit n :: rest =>
    if 0xD800 ≤ n ∧ n < 0xDC00 then
      match rest with
      | .unit m :: rest =>
        if 0xDC00 ≤ m ∧ m < 0xE000 then
          (pieceText? rest).map (Char.ofNat (0x10000 + 0x400 * (n - 0xD800) + (m - 0xDC00)) :: ·)
        else none
      | _ => none
    else if 0xDC00 ≤ n ∧ n < 0xE000 then none
    else (pieceText? rest).map (Char.ofNat n :: ·)

/-- A string after its opening quote: its text, if it has one, and the rest. -/
def readString? (cs : List Char) : Option (Option String × List Char) :=
  (readPieces? [] cs).map fun (pieces, rest) => ((pieceText? pieces).map String.ofList, rest)

/-! ## Values -/

/-- Whether a character may stand between the parts of a document. -/
def isSpace (c : Char) : Bool :=
  c == ' ' || c == '\n' || c == '\t' || c == '\r'

def skip (cs : List Char) : List Char :=
  cs.dropWhile isSpace

mutual

/-- A value at the front of a text, and the rest. -/
def readValue? : Nat → List Char → Option (Document × List Char)
  | 0, _ => none
  | fuel + 1, cs =>
    match skip cs with
    | 'n' :: 'u' :: 'l' :: 'l' :: rest => some (.null, rest)
    | 't' :: 'r' :: 'u' :: 'e' :: rest => some (.bool true, rest)
    | 'f' :: 'a' :: 'l' :: 's' :: 'e' :: rest => some (.bool false, rest)
    | '"' :: rest => (readString? rest).map fun (text, rest) => (.string text, rest)
    | '[' :: rest =>
      match skip rest with
      | ']' :: rest => some (.array [], rest)
      | rest => (readItems? fuel [] rest).map fun (items, rest) => (.array items, rest)
    | '\x7b' :: rest =>
      match skip rest with
      | '\x7d' :: rest => some (.object [], rest)
      | rest => (readMembers? fuel [] rest).map fun (members, rest) => (.object members, rest)
    | rest => readNumber? rest

/-- The items of an array from one of them on. `acc` holds those before, last first. -/
def readItems? : Nat → List Document → List Char → Option (List Document × List Char)
  | 0, _, _ => none
  | fuel + 1, acc, cs =>
    match readValue? fuel cs with
    | none => none
    | some (item, rest) =>
      match skip rest with
      | ',' :: rest => readItems? fuel (item :: acc) rest
      | ']' :: rest => some ((item :: acc).reverse, rest)
      | _ => none

/-- The members of an object from one of them on. `acc` holds those before, last first. -/
def readMembers? : Nat → List (Option String × Document) → List Char →
    Option (List (Option String × Document) × List Char)
  | 0, _, _ => none
  | fuel + 1, acc, cs =>
    match skip cs with
    | '"' :: rest =>
      match readString? rest with
      | none => none
      | some (key, rest) =>
        match skip rest with
        | ':' :: rest =>
          match readValue? fuel rest with
          | none => none
          | some (value, rest) =>
            match skip rest with
            | ',' :: rest => readMembers? fuel ((key, value) :: acc) rest
            | '\x7d' :: rest => some (((key, value) :: acc).reverse, rest)
            | _ => none
        | _ => none
    | _ => none

end

/-- The document a text holds. Every step consumes a character, so the length of the text bounds the
steps. -/
def parse? (s : String) : Option Document :=
  let cs := s.toList
  match readValue? (cs.length + 1) cs with
  | some (doc, rest) => if (skip rest).isEmpty then some doc else none
  | none => none

end Document

/-! ## The value of a document -/

/-- How deep arrays and objects may be nested in a value. -/
def Json.maxNesting : Nat := 127

/-- The value of a document in which at most `room` arrays and objects are nested. -/
def Json.ofDocument? : Nat → Document → Option Json
  | _, .null => some .null
  | _, .bool b => some (.bool b)
  | _, .number value => value.map .number
  | _, .string text => text.map .string
  | 0, .array _ => none
  | 0, .object _ => none
  | room + 1, .array items => (items.mapM (Json.ofDocument? room)).map .array
  | room + 1, .object members =>
    (members.mapM fun (m : Option String × Document) => do
      return (← m.1, ← Json.ofDocument? room m.2)).map Json.ofMembers

def Json.parse? (s : String) : Option Json := do
  Json.ofDocument? Json.maxNesting (← Document.parse? s)

end Playback
