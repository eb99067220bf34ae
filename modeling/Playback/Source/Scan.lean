import Playback.Script.Basic
import Playback.Source.Literal
import Playback.Text.Blank

/-!
# Dividing a text into lexemes

A line that is indented deeper than the block it is in opens a block, one that is indented less closes
blocks until it fits. Line breaks in brackets and after a backslash end no line, and lines without code
have no layout. A comment on a line of its own is kept; one after code is dropped.
-/

namespace Playback.Source

/-- A text while it is divided. -/
structure Scanner where
  cursor : Cursor
  /-- Widths of the open blocks, innermost first; the file itself has width zero. -/
  widths : List Nat
  brackets : Nat
  /-- The lexemes so far, last first. -/
  found : List Located
  /-- Whether a logical line starts here. -/
  lineStart : Bool

namespace Scanner

def start (text : String) : Scanner :=
  { cursor := Cursor.start text.toList, widths := [], brackets := 0, found := [], lineStart := true }

def emit (s : Scanner) (lexeme : Lexeme) (place : Place) : Scanner :=
  { s with found := ⟨lexeme, place⟩ :: s.found }

def width (s : Scanner) : Nat :=
  s.widths.head?.getD 0

/-! ## Indentation -/

/-- The width of a row of blanks: tabs stop at every eighth column, form feeds have no width. -/
def indentWidth (blanks : List Char) : Nat :=
  blanks.foldl
    (fun width c => if c = ' ' then width + 1 else if c = '\t' then (width / 8 + 1) * 8 else width) 0

def isIndent (c : Char) : Bool :=
  c == ' ' || c == '\t' || c == '\x0c'

/-- The widths that are left when the blocks wider than `width` are closed, and how many those are. -/
def closeWider (width : Nat) : List Nat → List Nat × Nat
  | [] => ([], 0)
  | w :: rest =>
    if width < w then
      let (left, closed) := closeWider width rest
      (left, closed + 1)
    else (w :: rest, 0)

/-- Opens or closes blocks for a line of the given width. With `strict` the line must fit a block. -/
def indentTo (s : Scanner) (width : Nat) (strict : Bool) : Except LexError Scanner :=
  let place := s.cursor.place
  if s.width < width then
    if maxBlockNesting ≤ s.widths.length then .error ⟨.tooManyLevels, place⟩
    else .ok { s.emit (.mark .indent) place with widths := width :: s.widths }
  else
    let (left, closed) := closeWider width s.widths
    let s := { s with widths := left, found := List.replicate closed ⟨.mark .dedent, place⟩ ++ s.found }
    if strict && width != s.width then .error ⟨.unmatchedUnindent, place⟩ else .ok s

/-! ## Comments -/

/-- Whether the last lexemes are a colon and the end of its line. -/
def afterHeader (s : Scanner) : Bool :=
  match s.found with
  | ⟨.mark .newline, _⟩ :: ⟨.mark .colon, _⟩ :: _ => true
  | _ => false

/-- The text of a comment: without blanks at its end and without one space at its start. -/
def commentText (cs : List Char) : String :=
  match Text.dropTailWhile Text.isBlank cs with
  | ' ' :: rest => String.ofList rest
  | rest => String.ofList rest

/-- A comment on a line of its own. It opens a block only after the header of one; indented deeper
elsewhere it stays in the block it is in. -/
def commentLine (s : Scanner) (width : Nat) : Except LexError Scanner := do
  let place := s.cursor.place
  let s ← if width ≤ s.width || s.afterHeader then s.indentTo width false else pure s
  let (chars, c) := s.cursor.advance.takeWhile (· != '\n')
  let s := (s.emit (.comment (commentText chars)) place).emit (.mark .newline) c.place
  return { s with cursor := c.advance, lineStart := true }

/-! ## Symbols -/

def markOf? : Char → Option Mark
  | '=' => some .assign
  | '.' => some .dot
  | ':' => some .colon
  | ',' => some .comma
  | ';' => some .semicolon
  | '(' => some (.opening .round)
  | '[' => some (.opening .square)
  | '\x7b' => some (.opening .curly)
  | ')' => some (.closing .round)
  | ']' => some (.closing .square)
  | '\x7d' => some (.closing .curly)
  | _ => none

/-- A symbol: the longest that the text goes on with. -/
def symbol (c : Cursor) : Except LexError (Lexeme × Cursor) :=
  match augmentedSymbols.find? c.startsWith with
  | some s => .ok (.augmented s, c.skip s.length)
  | none =>
    if c.startsWith "->" then .ok (.mark .arrow, c.skip 2)
    else
      match operatorSymbols.find? c.startsWith with
      | some s => .ok (.operator s, c.skip s.length)
      | none =>
        let ch := c.peek?.getD ' '
        match markOf? ch with
        | some m => .ok (.mark m, c.advance)
        | none => c.fail (.unexpectedCharacter ch)

/-- The lexeme that starts with the next character `ch`. -/
def lexeme (ch : Char) (c : Cursor) : Except LexError (Lexeme × Cursor) :=
  let pointThenDigit := ch == '.' && ((c.advance.peek?).map Char.isDigit).getD false
  if ch = '"' ∨ ch = '\x27' then stringLiteral c.place false c
  else if ch.isDigit || pointThenDigit then numberLiteral c.place c
  else if startsWord ch then word c.place c
  else symbol c

/-- How many brackets are open after a lexeme. -/
def bracketsAfter (brackets : Nat) : Lexeme → Nat
  | .mark (.opening _) => brackets + 1
  | .mark (.closing _) => brackets - 1
  | _ => brackets

/-! ## The whole text -/

/-- Whether a character between lexemes is passed over. -/
def isSpace (c : Char) : Bool :=
  c == ' ' || c == '\t' || c == '\r' || c == '\x0c'

/-- The next lexeme of a line, or the end of the line; `none` at the end of the text. -/
def inLine (s : Scanner) : Except LexError (Option Scanner) :=
  let c := (s.cursor.takeWhile isSpace).2
  match c.rest with
  | [] => .ok none
  | '\n' :: _ =>
    if s.brackets = 0 then
      .ok (some { s.emit (.mark .newline) c.place with cursor := c.advance, lineStart := true })
    else .ok (some { s with cursor := c.advance })
  | '#' :: _ => .ok (some { s with cursor := (c.takeWhile (· != '\n')).2 })
  | '\\' :: '\n' :: _ => .ok (some { s with cursor := c.skip 2 })
  | ch :: _ => do
    let (lexeme, rest) ← lexeme ch c
    return some
      { s.emit lexeme c.place with cursor := rest, brackets := bracketsAfter s.brackets lexeme }

/-- One step through the text; `none` at its end. -/
def step (s : Scanner) : Except LexError (Option Scanner) :=
  if s.lineStart then
    let (blanks, c) := s.cursor.takeWhile isIndent
    let width := indentWidth blanks
    let s := { s with cursor := c, lineStart := false }
    match c.rest with
    | [] => .ok none
    | '\n' :: _ | '\r' :: _ => .ok (some { s with cursor := c.advance, lineStart := true })
    | '#' :: _ => do return some (← s.commentLine width)
    | _ => do (← s.indentTo width true).inLine
  else s.inLine

/-- All steps through the text. Each reads a character, so the length of the text is fuel enough. The
scanner that is left has still to close the file. -/
def run : Nat → Scanner → Except LexError Scanner
  | 0, s => .ok s
  | fuel + 1, s => do
    match ← s.step with
    | none => return s
    | some s => run fuel s

def endPlace (s : Scanner) : Place :=
  s.cursor.rest.foldl Place.after s.cursor.place

/-- Closes the file: ends the last line and all blocks. -/
def close (s : Scanner) : Except LexError (List Located) :=
  let place := s.endPlace
  if 0 < s.brackets then .error ⟨.unclosedBrackets, place⟩
  else
    let s := match s.found with
      | [] | ⟨.mark .newline, _⟩ :: _ => s
      | _ => s.emit (.mark .newline) place
    .ok (s.found.reverse ++ List.replicate s.widths.length ⟨.mark .dedent, place⟩
      ++ [⟨.mark .endOfFile, place⟩])

end Scanner

def lexemes (text : String) : Except LexError (List Located) := do
  let s := Scanner.start text
  (← s.run (s.cursor.rest.length + 1)).close

end Playback.Source
