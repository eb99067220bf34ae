import Playback.Decimal.Read
import Playback.Source.Error
import Playback.Text.Numeric

/-!
# Words and literals

Each scanner stands at the start of a lexeme and gives the lexeme with the text after it.
-/

namespace Playback.Source

/-- The unread part of a source text and where it starts. -/
structure Cursor where
  rest : List Char
  place : Place

namespace Cursor

def start (text : List Char) : Cursor :=
  ⟨text, ⟨1, 1⟩⟩

def peek? (c : Cursor) : Option Char :=
  c.rest.head?

def advance : Cursor → Cursor
  | ⟨[], place⟩ => ⟨[], place⟩
  | ⟨ch :: rest, place⟩ => ⟨rest, place.after ch⟩

def skip : Nat → Cursor → Cursor
  | 0, c => c
  | n + 1, c => skip n c.advance

/-- The longest row of characters that pass a test, and the text after it. -/
def takeWhile (p : Char → Bool) (c : Cursor) : List Char × Cursor :=
  let taken := c.rest.takeWhile p
  (taken, ⟨c.rest.dropWhile p, taken.foldl Place.after c.place⟩)

def startsWith (c : Cursor) (s : String) : Bool :=
  s.toList.isPrefixOf c.rest

def fail {α : Type} (c : Cursor) (fault : LexFault) : Except LexError α :=
  .error ⟨fault, c.place⟩

end Cursor

/-! ## Strings -/

def isHexDigit (c : Char) : Bool :=
  match Word.digit? c with
  | some d => d < 16
  | none => false

def charOfNat? (n : Nat) : Option Char :=
  if h : n.isValidChar then some (Char.ofNatAux n h) else none

/-- The character that exactly `count` hexadecimal digits stand for. -/
def hexEscape (count : Nat) (c : Cursor) : Except LexError (Char × Cursor) :=
  let digits := (c.rest.take count).takeWhile isHexDigit
  let value := (Word.natOfDigits? 16 digits).filter fun _ => digits.length == count
  match value.bind charOfNat? with
  | some ch => .ok (ch, c.skip count)
  | none => c.fail (.invalidEscape (String.ofList digits))

/-- What a backslash and the character after it stand for; the cursor is past both. A character without
a meaning keeps its backslash. -/
def unescape (escaped : Char) (c : Cursor) : Except LexError (List Char × Cursor) :=
  match escaped with
  | '\n' => .ok ([], c)
  | 'n' => .ok (['\n'], c)
  | 't' => .ok (['\t'], c)
  | 'r' => .ok (['\r'], c)
  | '0' => .ok (['\x00'], c)
  | 'a' => .ok (['\x07'], c)
  | 'b' => .ok (['\x08'], c)
  | 'f' => .ok (['\x0c'], c)
  | 'v' => .ok (['\x0b'], c)
  | '\\' => .ok (['\\'], c)
  | '\x27' => .ok (['\x27'], c)
  | '"' => .ok (['"'], c)
  | 'x' => do let (ch, c) ← hexEscape 2 c; return ([ch], c)
  | 'u' => do let (ch, c) ← hexEscape 4 c; return ([ch], c)
  | 'U' => do let (ch, c) ← hexEscape 8 c; return ([ch], c)
  | other => .ok (['\\', other], c)

/-- How a string literal is delimited and read. -/
structure StringStyle where
  quote : Char
  /-- Whether three quotes delimit it; line breaks may then stand in it. -/
  triple : Bool
  /-- Whether backslashes stand for themselves. -/
  raw : Bool
  place : Place

/-- One step through the body of a string literal: the characters it adds, or `none` at the end. -/
def stringStep (style : StringStyle) (c : Cursor) : Except LexError (Option (List Char) × Cursor) :=
  let unterminated : Except LexError (Option (List Char) × Cursor) :=
    .error ⟨.unterminatedString, style.place⟩
  match c.rest with
  | [] => unterminated
  | ch :: rest =>
    if ch = '\n' ∧ !style.triple then unterminated
    else if ch = style.quote ∧ !style.triple then .ok (none, c.advance)
    else if ch = style.quote ∧ [style.quote, style.quote].isPrefixOf rest then .ok (none, c.skip 3)
    else if ch = '\\' then
      match rest with
      | [] => c.advance.fail .endInString
      | escaped :: _ =>
        if style.raw then .ok (some ['\\', escaped], c.skip 2)
        else do
          let (chars, c) ← unescape escaped (c.skip 2)
          return (some chars, c)
    else .ok (some [ch], c.advance)

/-- The body of a string literal, with what was read of it in reverse. Every step reads a character, so the
length of the text is fuel enough. -/
def stringBody (style : StringStyle) : Nat → List Char → Cursor → Except LexError (List Char × Cursor)
  | 0, _, _ => .error ⟨.unterminatedString, style.place⟩
  | fuel + 1, read, c => do
    match ← stringStep style c with
    | (none, c) => return (read.reverse, c)
    | (some chars, c) => stringBody style fuel (chars.reverseAux read) c

/-- A string literal whose opening quote is the next character. -/
def stringLiteral (place : Place) (raw : Bool) (c : Cursor) : Except LexError (Lexeme × Cursor) := do
  let quote := c.peek?.getD '\x27'
  let c := c.advance
  let triple := [quote, quote].isPrefixOf c.rest
  let c := if triple then c.skip 2 else c
  let (chars, c) ← stringBody { quote, triple, raw, place } (c.rest.length + 1) [] c
  return (.string (String.ofList chars), c)

/-! ## Numbers -/

/-- Decimal digits and the underscores between them. -/
def isDigitOrUnderscore (c : Char) : Bool :=
  c.isDigit || c == '_'

def withoutUnderscores (cs : List Char) : List Char :=
  cs.filter (· != '_')

/-- The base that the characters after a leading zero announce. -/
def baseOf? : Char → Option Nat
  | 'x' | 'X' => some 16
  | 'o' | 'O' => some 8
  | 'b' | 'B' => some 2
  | _ => none

/-- An integer in an announced base; the cursor is past the announcement. -/
def baseLiteral (place : Place) (base : Nat) (c : Cursor) : Except LexError (Lexeme × Cursor) :=
  let (digits, c) := c.takeWhile fun ch => ch.isAlphanum || ch == '_'
  match (Word.natOfDigits? base (withoutUnderscores digits)).bind (Word.ofInt? ·) with
  | some i => .ok (.int i, c)
  | none => .error ⟨.invalidInteger (String.ofList digits), place⟩

/-- The fraction of a number: the point and the digits after it. -/
def fraction (c : Cursor) : List Char × Cursor :=
  match c.rest with
  | '.' :: _ =>
    let (digits, c) := c.advance.takeWhile isDigitOrUnderscore
    ('.' :: digits, c)
  | _ => ([], c)

/-- The exponent of a number. A letter without digits after it is no exponent. -/
def exponent (c : Cursor) : List Char × Cursor :=
  match c.rest with
  | e :: sign :: digit :: _ =>
    if (e == 'e' || e == 'E') && (sign == '+' || sign == '-') && digit.isDigit then
      let (digits, c) := (c.skip 2).takeWhile isDigitOrUnderscore
      ('e' :: sign :: digits, c)
    else if (e == 'e' || e == 'E') && sign.isDigit then
      let (digits, c) := c.advance.takeWhile isDigitOrUnderscore
      ('e' :: digits, c)
    else ([], c)
  | [e, digit] =>
    if (e == 'e' || e == 'E') && digit.isDigit then (['e', digit], c.skip 2) else ([], c)
  | _ => ([], c)

/-- A decimal number: an integer, or a double if it has a fraction or an exponent. -/
def decimalLiteral (place : Place) (c : Cursor) : Except LexError (Lexeme × Cursor) :=
  let (whole, c) := c.takeWhile isDigitOrUnderscore
  let (fractionDigits, c) := fraction c
  let (exponentDigits, c) := exponent c
  let text := whole ++ fractionDigits ++ exponentDigits
  match c.rest with
  | next :: _ =>
    if Text.isAlphanumeric next || next == '_' then
      .error ⟨.invalidDecimal (String.ofList (text ++ [next])), place⟩
    else finish text (fractionDigits ++ exponentDigits).isEmpty c
  | [] => finish text (fractionDigits ++ exponentDigits).isEmpty c
where
  finish (text : List Char) (isInt : Bool) (c : Cursor) : Except LexError (Lexeme × Cursor) :=
    let clean := withoutUnderscores text
    if isInt then
      match Word.ofDecimal? clean with
      | some i => .ok (.int i, c)
      | none => .error ⟨.integerTooLarge (String.ofList text), place⟩
    else
      match Decimal.read? (String.ofList clean) with
      | some x => .ok (.float x.number, c)
      | none => .error ⟨.invalidFloat (String.ofList text), place⟩

/-- A number whose first digit or point is the next character. -/
def numberLiteral (place : Place) (c : Cursor) : Except LexError (Lexeme × Cursor) :=
  match c.rest with
  | '0' :: letter :: _ =>
    match baseOf? letter with
    | some base => baseLiteral place base (c.skip 2)
    | none => decimalLiteral place c
  | _ => decimalLiteral place c

/-! ## Words -/

def startsWord (c : Char) : Bool :=
  Text.isLetter c || c == '_'

def continuesWord (c : Char) : Bool :=
  Text.isAlphanumeric c || c == '_'

def wordLexeme (word : String) : Lexeme :=
  match Keyword.ofText? word with
  | some k => .keyword k
  | none => if reservedWords.contains word then .reserved word else .name word

/-- A word, or a string literal with letters before its quote. -/
def word (place : Place) (c : Cursor) : Except LexError (Lexeme × Cursor) :=
  let (chars, c) := c.takeWhile continuesWord
  let text := String.ofList chars
  if c.peek? = some '"' ∨ c.peek? = some '\x27' then
    match String.ofList (chars.map Char.toLower) with
    | "r" => stringLiteral place true c
    | "u" => stringLiteral place false c
    | "f" | "b" | "rb" | "br" | "fr" | "rf" => .error ⟨.stringMark text, place⟩
    | _ => .ok (wordLexeme text, c)
  else .ok (wordLexeme text, c)

end Playback.Source
