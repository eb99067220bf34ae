import Playback.Proofs.Wording
import Playback.Source.Print

/-!
# Dividing a written line

The text of an expression is divided into the lexemes of the expression. The scanner is followed step by step
over a text that is known to spell a row of lexemes (`Spells`); such texts are put together like the texts of
the printer, with spaces in front of lexemes where it writes them.
-/

namespace Playback.Source

open List

open Scanner (inLine isSpace bracketsAfter markOf?)

variable {row : List Lexeme} {c : Char}

/-! ## Steps of the scanner -/

/-- A scanner gets to another by steps that each read something. -/
inductive Scanner.Reaches : Scanner → Scanner → Prop
  | refl (s : Scanner) : Reaches s s
  | step (hstep : s.step = .ok (some s1))
      (hless : s1.cursor.rest.length < s.cursor.rest.length) (hrest : Reaches s1 s') : Reaches s s'

namespace Scanner.Reaches

variable {s : Scanner}

theorem trans (h : Reaches s s') (h' : Reaches s' s'') : Reaches s s'' := by
  induction h with
  | refl => exact h'
  | step hs hl _ ih => exact .step hs hl (ih h')

/-- **Fuel for the whole text lasts to every scanner that is reached.** -/
theorem run {s' : Scanner} {n : Nat} (h : Reaches s s') (hf : s.cursor.rest.length < n) :
    ∃ n', s'.cursor.rest.length < n' ∧ Scanner.run n s = Scanner.run n' s' := by
  induction h generalizing n with
  | refl => exact ⟨n, hf, rfl⟩
  | step hs hl _ ih =>
    cases n with
    | zero => omega
    | succ n =>
      obtain ⟨n', hf', hr⟩ := ih (Nat.lt_of_lt_of_le hl (Nat.le_of_lt_succ hf))
      refine ⟨n', hf', ?_⟩
      rw [Scanner.run, hs]
      exact hr

end Scanner.Reaches

/-! ## Texts that spell lexemes -/

/-- A scanner has taken a row of lexemes off a line and stands before the rest. -/
structure Scanner.Took (s : Scanner) (row : List Lexeme) (rest : List Char) (s' : Scanner) : Prop where
  rest : s'.cursor.rest = rest
  found : s'.found.map (·.lexeme) = row.reverse ++ s.found.map (·.lexeme)
  brackets : s'.brackets = row.foldl bracketsAfter s.brackets
  widths : s'.widths = s.widths
  lineStart : s'.lineStart = false

/-- On a line, a text is divided into a row of lexemes if `rest` follows it. Spaces may stand before it. -/
structure Spells (cs : List Char) (row : List Lexeme) (rest : List Char) : Prop where
  nil : row = [] → cs = []
  scan {s : Scanner} {spaces : List Char} (hspaces : ∀ c ∈ spaces, isSpace c = true)
    (hnil : row = [] → spaces = []) (hline : s.lineStart = false)
    (hrest : s.cursor.rest = spaces ++ (cs ++ rest)) : ∃ s', s.Reaches s' ∧ s.Took row rest s'

/-- Whether a character starts a lexeme: it is not passed over and ends no line. -/
def isInk (c : Char) : Bool :=
  !isSpace c && c != '\n' && c != '#' && c != '\\'

variable {tail rest : List Char} {ch : Char} {l : Lexeme}

theorem inLine_lexeme {s : Scanner} (hs : ∀ c ∈ sp, isSpace c = true)
    (hch : isInk ch = true) (hle : Lexes ch tail l rest) (hr : s.cursor.rest = sp ++ (ch :: tail ++ rest)) :
    ∃ p p', s.inLine = .ok (some { s.emit l p with cursor := ⟨rest, p'⟩, brackets := bracketsAfter s.brackets l }) := by
  simp only [isInk, Bool.and_eq_true, Bool.not_eq_true', bne_iff_ne] at hch
  obtain ⟨⟨⟨hsp, hn⟩, hha⟩, hb⟩ := hch
  obtain ⟨p', hl⟩ := hle (sp.foldl Place.after s.cursor.place)
  have hcu : s.cursor.takeWhile isSpace
      = (sp, ⟨ch :: (tail ++ rest), sp.foldl Place.after s.cursor.place⟩) := by
    have hh : Halts isSpace (ch :: (tail ++ rest)) := by
      rintro c hc
      cases hc
      exact hsp
    rw [← Cursor.takeWhile_mk hs hh s.cursor.place, ← cons_append, ← hr]
  refine ⟨sp.foldl Place.after s.cursor.place, p', ?_⟩
  unfold inLine
  rw [hcu]
  dsimp only
  split
  next h => cases h
  next h => exact absurd (List.cons.inj h).1 hn
  next h => exact absurd (List.cons.inj h).1 hha
  next h => exact absurd (List.cons.inj h).1 hb
  next h =>
    obtain ⟨rfl, rfl⟩ := List.cons.inj h
    rw [hl]
    rfl

theorem Spells.lexeme (hch : isInk ch = true) (hle : Lexes ch tail l rest) : Spells (ch :: tail) [l] rest where
  nil := nofun
  scan {s spaces} hs _ hl hr := by
    obtain ⟨p, _, hi⟩ := inLine_lexeme hs hch hle hr
    have hst : s.step = s.inLine := by
      unfold Scanner.step
      rw [hl, if_neg Bool.false_ne_true]
    refine ⟨_, .step (hst.trans hi) ?_ (.refl _), ⟨rfl, rfl, rfl, rfl, hl⟩⟩
    rw [hr]
    simp only [length_append, length_cons]
    omega

theorem Spells.empty (rest : List Char) : Spells [] [] rest where
  nil _ := rfl
  scan {s spaces} _ hn hl hr := by
    obtain rfl := hn rfl
    exact ⟨s, .refl s, ⟨hr, rfl, rfl, rfl, hl⟩⟩

/-- **Texts one after the other spell rows one after the other.** -/
theorem Spells.append {cs ds : List Char} {row row' : List Lexeme} (h : Spells cs row (ds ++ rest))
    (h' : Spells ds row' rest) : Spells (cs ++ ds) (row ++ row') rest where
  nil hr := by
    obtain ⟨hr, hr'⟩ := append_eq_nil_iff.1 hr
    rw [h.nil hr, h'.nil hr', append_nil]
  scan {s spaces} hs hni hl hre := by
    by_cases hr : row = []
    · subst hr
      rw [h.nil rfl] at hre
      exact h'.scan hs hni hl hre
    · rw [append_assoc] at hre
      obtain ⟨_, hra, ht⟩ := h.scan hs (fun h => absurd h hr) hl hre
      have hn : ∀ c ∈ ([] : List Char), isSpace c = true := nofun
      obtain ⟨s', hra', ht'⟩ := h'.scan hn (fun _ => rfl) ht.lineStart ht.rest
      refine ⟨s', hra.trans hra', ht'.rest, ?_, ?_, ?_, ht'.lineStart⟩
      · rw [ht'.found, ht.found, reverse_append, append_assoc]
      · rw [ht'.brackets, ht.brackets, foldl_append]
      · rw [ht'.widths, ht.widths]

theorem Spells.space {cs : List Char} (hr : row ≠ []) (h : Spells cs row rest) : Spells (' ' :: cs) row rest where
  nil hn := absurd hn hr
  scan {s spaces} hs _ hl hre := by
    have hs' : ∀ c ∈ spaces ++ [' '], isSpace c = true :=
      forall_mem_append.2 ⟨hs, forall_mem_singleton.2 rfl⟩
    refine h.scan hs' (fun h => absurd h hr) hl ?_
    rw [hre, append_assoc]
    rfl

/-! ## What follows and what starts a text -/

/-- A text ends, or goes on with one of the given characters. -/
def Among (chars rest : List Char) : Prop :=
  ∀ c ∈ rest.head?, c ∈ chars

theorem Among.halts (h : Among chars rest) (hp : ∀ c ∈ chars, p c = false) : Halts p rest :=
  fun c hc => hp c (h c hc)

theorem among_cons (h : c ∈ chars) (rest : List Char) : Among chars (c :: rest) := by
  rintro d hd
  cases hd
  exact h

def rowEnds : List Char :=
  [' ', '\n', ')', ']', '\x7d', ',', ':']

def operandEnds : List Char :=
  '[' :: '.' :: rowEnds

theorem Among.operand (h : Among rowEnds rest) : Among operandEnds rest :=
  fun c hc => mem_cons_of_mem _ (mem_cons_of_mem _ (h c hc))

/-- Whether a row may start with this character. -/
def opensText (c : Char) : Bool :=
  c.isDigit || isQuote c || startsWord c || ['(', '[', '\x7b', '-', '+', '~'].contains c

def Opens (cs : List Char) : Prop :=
  ∃ c tail, cs = c :: tail ∧ opensText c = true

theorem not_extendsSymbol_of_opensText (h : opensText c = true) : extendsSymbol c = false := by
  have ha : ∀ c ∈ ['=', '*', '/', '<', '>'], opensText c = false := forall_of_all (by decide)
  refine Bool.eq_false_iff.2 fun hc => ?_
  rw [ha c (contains_iff_mem.1 hc)] at h
  cases h

theorem isInk_of_opensText (h : opensText c = true) : isInk c = true := by
  have ha : ∀ c ∈ [' ', '\t', '\r', '\x0c', '\n', '#', '\\'], opensText c = false :=
    forall_of_all (by decide)
  have hn : ∀ d ∈ [' ', '\t', '\r', '\x0c', '\n', '#', '\\'], c ≠ d := by
    rintro d hd rfl
    rw [ha c hd] at h
    cases h
  simp [isInk, isSpace, hn]

namespace Opens

theorem append (h : Opens cs) (ds : List Char) : Opens (cs ++ ds) := by
  obtain ⟨c, tail, rfl, hc⟩ := h
  exact ⟨c, tail ++ ds, rfl, hc⟩

theorem halts (h : Opens cs) : Halts extendsSymbol cs := by
  obtain ⟨c, _, rfl, hc⟩ := h
  rintro d hd
  cases hd
  exact not_extendsSymbol_of_opensText hc

theorem cons (h : opensText c = true) (tail : List Char) : Opens (c :: tail) :=
  ⟨c, tail, rfl, h⟩

theorem word (h : IsWord s) : Opens s.toList := by
  obtain ⟨c, tail, hs, hst, -⟩ := h
  exact ⟨c, tail, hs, by simp [opensText, hst]⟩

theorem string (s : String) : Opens (Text.quoted s).toList := by
  obtain ⟨c, tail, hs, hq, -⟩ := lexes_string s (show Halts isQuote [] from nofun)
  exact ⟨c, tail, hs, by simp [opensText, hq]⟩

theorem int {i : Word} (h : 0 ≤ i.toInt) : Opens i.text.toList := by
  obtain ⟨c, tail, hs, hd, -⟩ := lexes_int h (show Halts extendsNumber [] from nofun)
  exact ⟨c, tail, hs, by simp [opensText, hd]⟩

end Opens

/-! ## Single lexemes -/

namespace Spells

variable {rest : List Char}

theorem int (h : 0 ≤ i.toInt) (hr : Halts extendsNumber rest) : Spells i.text.toList [.int i] rest := by
  obtain ⟨_, _, hs, hd, hl⟩ := lexes_int h hr
  rw [hs]
  exact .lexeme (isInk_of_opensText (by simp [opensText, hd])) hl

theorem string (s : String) (hr : Halts isQuote rest) : Spells (Text.quoted s).toList [.string s] rest := by
  obtain ⟨_, _, hs, hq, hl⟩ := lexes_string s hr
  rw [hs]
  exact .lexeme (isInk_of_opensText (by simp [opensText, hq])) hl

theorem word (h : IsWord s) (hr : Halts extendsWord rest) : Spells s.toList [wordLexeme s] rest := by
  obtain ⟨_, _, hs, hst, hl⟩ := lexes_word h hr
  rw [hs]
  exact .lexeme (isInk_of_opensText (by simp [opensText, hst])) hl

theorem name (h : IsName s) (hr : Halts extendsWord rest) : Spells s.toList [.name s] rest := by
  rw [← h.2]
  exact word h.1 hr

theorem keyword (k : Keyword) (hr : Halts extendsWord rest) : Spells k.text.toList [.keyword k] rest := by
  rw [← wordLexeme_keyword]
  exact word (isWord_keyword k) hr

theorem operator (hs : s ∈ operatorSymbols) (hr : Halts extendsSymbol rest) : Spells s.toList [.operator s] rest := by
  have hink : ∀ s ∈ operatorSymbols, s.toList.all isInk = true := by decide
  obtain ⟨ch, _, ht, hl⟩ := lexes_operator hs hr
  have hch : isInk ch = true := all_eq_true.1 (hink s hs) ch (by rw [ht]; exact mem_cons_self)
  rw [ht]
  exact .lexeme hch hl

theorem mark (ch : Char) (hm : markOf? ch = some m) (hr : Halts extendsSymbol rest)
    (hd : ch = '.' → Halts Char.isDigit rest) : Spells [ch] [.mark m] rest := by
  have hink : ∀ ch ∈ markChars, isInk ch = true := all_eq_true.1 (by decide)
  exact .lexeme (hink ch (mem_markChars hm)) (lexes_mark hm hr hd)

end Spells

/-! ## Brackets, commas and markers -/

def Bracket.openChar : Bracket → Char
  | .round => '('
  | .square => '['
  | .curly => '\x7b'

def Bracket.closeChar : Bracket → Char
  | .round => ')'
  | .square => ']'
  | .curly => '\x7d'

theorem Bracket.closeChar_mem (b : Bracket) : b.closeChar ∈ rowEnds := by
  cases b <;> decide

theorem Among.word (h : Among operandEnds rest) : Halts extendsWord rest :=
  h.halts (forall_of_all (by decide))

theorem Among.quote (h : Among operandEnds rest) : Halts isQuote rest :=
  h.halts (forall_of_all (by decide))

theorem Among.symbol (h : Among operandEnds rest) : Halts extendsSymbol rest :=
  h.halts (forall_of_all (by decide))

namespace Spells

variable {rest : List Char} {row : List Lexeme}

theorem enclosed (h : Spells cs row (b.closeChar :: rest))
    (hs : Halts extendsSymbol (cs ++ b.closeChar :: rest)) (hr : Halts extendsSymbol rest) :
    Spells (b.openChar :: (cs ++ [b.closeChar])) (enclosed b row) rest := by
  have hop : markOf? b.openChar = some (.opening b) := by cases b <;> rfl
  have hcl : markOf? b.closeChar = some (.closing b) := by cases b <;> rfl
  have ho : b.openChar ≠ '.' := by cases b <;> decide
  have hc : b.closeChar ≠ '.' := by cases b <;> decide
  rw [append_cons] at hs
  exact (mark _ hop hs fun h => absurd h ho).append (h.append (mark _ hcl hr fun h => absurd h hc))

theorem dotName (h : IsName m) (hr : Halts extendsWord rest) : Spells ('.' :: m.toList) [.mark .dot, .name m] rest := by
  have hdi : Halts Char.isDigit (m.toList ++ rest) := by
    obtain ⟨c, _, hs, hst, -⟩ := h.1
    rw [hs]
    rintro d hd
    cases hd
    exact not_isDigit_of_startsWord hst
  exact (mark '.' rfl ((Opens.word h.1).append rest).halts fun _ => hdi).append (name h hr)

theorem prefixMarker (hs : symbol ∈ prefixSymbols) (h : Spells cs row rest) (hr : row ≠ []) (hop : Opens cs) :
    Spells ((prefixText symbol).toList ++ cs) (markerLexemes symbol ++ row) rest := by
  have ha : ∀ s ∈ prefixSymbols, s ∈ operatorSymbols ∧ prefixText s = s ∨ s = "not" := by decide
  rcases ha symbol hs with ⟨ho, ht⟩ | rfl
  · rw [ht, markerLexemes_operator ho]
    exact (operator ho (hop.append rest).halts).append h
  · have ht : (prefixText "not").toList ++ cs = Keyword.not_.text.toList ++ ' ' :: cs := by
      rfl
    rw [ht]
    exact (keyword .not_ (halts_cons (by decide) _)).append (h.space hr)

theorem wordMarker (hsy : symbol ∈ wordMarkers) (ds : List Char) :
    Spells symbol.toList (markerLexemes symbol) (' ' :: ds) := by
  have hs : ∀ ds, Halts extendsWord (' ' :: ds) := halts_cons (by decide)
  have ht : ∀ j k : Keyword, Spells (j.text.toList ++ ' ' :: k.text.toList)
      [.keyword j, .keyword k] (' ' :: ds) := fun j k =>
    (keyword j (hs _)).append ((keyword k (hs ds)).space (cons_ne_nil _ _))
  simp only [wordMarkers, mem_cons, not_mem_nil, or_false] at hsy
  rcases hsy with rfl | rfl | rfl | rfl | rfl | rfl | rfl
  · exact keyword .not_ (hs ds)
  · exact keyword .and_ (hs ds)
  · exact keyword .or_ (hs ds)
  · exact keyword .in_ (hs ds)
  · exact keyword .is_ (hs ds)
  · exact ht .is_ .not_
  · exact ht .not_ .in_

theorem infixMarker (hs : symbol ∈ infixSymbols) (h : Spells cs row rest) (hr : row ≠ []) :
    Spells (' ' :: (symbol.toList ++ ' ' :: cs)) (markerLexemes symbol ++ row) rest := by
  have ha : ∀ s ∈ infixSymbols, s ∈ operatorSymbols ∨ s ∈ wordMarkers := by decide
  have hm : ∀ ds, Spells symbol.toList (markerLexemes symbol) (' ' :: ds) := by
    intro ds
    rcases ha symbol hs with ho | hw
    · rw [markerLexemes_operator ho]
      exact operator ho (halts_cons rfl _)
    · exact wordMarker hw ds
  exact ((hm _).append (h.space hr)).space (append_ne_nil_of_right_ne_nil _ hr)

end Spells

/-! ## Items -/

/-- A text spells a row of lexemes wherever a row may stand, and the row closes the brackets it opens. -/
structure Inscribed (text : String) (row : List Lexeme) : Prop where
  some : row ≠ []
  opens : Opens text.toList
  balanced : Balanced row
  spells {rest : List Char} (hrest : Among rowEnds rest) : Spells text.toList row rest

theorem Inscribed.halts (h : Inscribed text row) (rest : List Char) : Halts extendsSymbol (text.toList ++ rest) :=
  (h.opens.append rest).halts

/-- A text spells a row of lexemes, or both are empty. -/
def Optional (text : String) (row : List Lexeme) : Prop :=
  text.toList = [] ∧ row = [] ∨ Inscribed text row

namespace Optional

variable {text : String} {row : List Lexeme} {c : Char} {rest : List Char}

theorem spells (h : Optional text row) (hc : c ∈ rowEnds) : Spells text.toList row (c :: rest) := by
  rcases h with ⟨ht, rfl⟩ | h
  · rw [ht]
    exact .empty _
  · exact h.spells (among_cons hc rest)

theorem halts (h : Optional text row) (hc : c ∈ rowEnds) : Halts extendsSymbol (text.toList ++ c :: rest) := by
  rcases h with ⟨ht, rfl⟩ | h
  · rw [ht]
    exact (among_cons hc rest).operand.symbol
  · exact h.halts _

theorem enclosed (h : Optional text row) (b : Bracket) (hr : Among operandEnds rest) :
    Spells (b.openChar :: (text.toList ++ [b.closeChar])) (Playback.enclosed b row) rest :=
  (h.spells b.closeChar_mem).enclosed (h.halts b.closeChar_mem) hr.symbol

end Optional

section Items

variable {α : Type} {text : α → String} {lexemes : α → List Lexeme}

/-- **Texts with commas between them spell their rows with commas between them.** -/
theorem Inscribed.commas : ∀ {xs : List α}, xs ≠ [] → (∀ a ∈ xs, Inscribed (text a) (lexemes a)) →
    Inscribed (commas (xs.map text)) (commaRow (xs.map lexemes))
  | [a], _, h => by
    simpa [Playback.commas, commaRow] using h a mem_cons_self
  | a :: b :: xs, _, h => by
    obtain ⟨ha, hi⟩ := forall_mem_cons.1 h
    have hn := commas (cons_ne_nil b xs) hi
    have ht : (Playback.commas ((a :: b :: xs).map text)).toList
        = (text a).toList ++ ',' :: ' ' :: (Playback.commas ((b :: xs).map text)).toList := by
      simp [Playback.commas]
    refine ⟨append_ne_nil_of_left_ne_nil ha.some _, ht ▸ ha.opens.append _, ha.balanced.append hn.balanced,
      fun {rest} hr => ?_⟩
    rw [ht]
    have hc : Spells (',' :: ' ' :: (Playback.commas ((b :: xs).map text)).toList)
        (.mark .comma :: commaRow ((b :: xs).map lexemes)) rest :=
      (Spells.mark ',' rfl (halts_cons rfl _) fun h => absurd h (by decide)).append ((hn.spells hr).space hn.some)
    exact (ha.spells (among_cons (by decide) _)).append hc

theorem Optional.commas {xs : List α} (h : ∀ a ∈ xs, Inscribed (text a) (lexemes a)) :
    Optional (Playback.commas (xs.map text)) (commaRow (xs.map lexemes)) := by
  cases xs with
  | nil => exact .inl ⟨rfl, rfl⟩
  | cons a xs => exact .inr (Inscribed.commas (cons_ne_nil a xs) h)

end Items

end Playback.Source

namespace Playback

open Source List

/-! ## Expressions -/

theorem rowSources_eq_map (rows : List (List Token)) : rowSources rows = rows.map (rowSource false) :=
  eq_map rfl (fun _ _ => rfl) rows

theorem argumentSources_eq_map (as : List Argument) : argumentSources as = as.map Argument.source :=
  eq_map rfl (fun _ _ => rfl) as

theorem entrySources_eq_map (es : List Entry) : entrySources es = es.map Entry.source :=
  eq_map rfl (fun _ _ => rfl) es

theorem Token.Fits.rowSource (ht : t.Fits Token.Safe) (afterOperand : Bool) (rest : List Token) :
    rowSource afterOperand (t :: rest) = t.source ++ rowSource true rest := by
  cases ht <;> rw [Playback.rowSource] <;> exact nofun

theorem Token.Fits.opensText {t : Token} (ht : t.Fits Token.Safe) : Opens t.source.toList := by
  match ht with
  | .int h =>
    exact .int h
  | .string s =>
    exact .string s
  | .bool b =>
    cases b
    · exact .word (isWord_keyword .false_)
    · exact .word (isWord_keyword .true_)
  | .none => exact .word (isWord_keyword .none)
  | .name h =>
    exact .word h.1
  | .call h _ _ =>
    rw [Token.source]
    simp only [String.toList_append, append_assoc]
    exact (Opens.word h.1).append _
  | .list _ | .tuple _ | .dict _ | .bracket _ =>
    rw [Token.source]
    try split
    all_goals
      simp only [String.toList_append]
      exact .cons (by decide) _
  | .set _ _ =>
    rw [Token.source]
    split
    · exact .cons (by decide) _
    · simp only [String.toList_append]
      exact .cons (by decide) _
  | .callMember ho _ _ _ _ | .member ho _ _ | .subscript ho _ | .slice ho _ _ =>
    rw [Token.source]
    simp only [String.toList_append, append_assoc]
    exact ho.opensText.append _

theorem RowFits.opensText (hr : RowFits Token.Safe afterIs row) : Opens (rowSource false row).toList := by
  cases hr with
  | @marked symbol _ _ hs _ _ =>
    have ha : ∀ s ∈ prefixSymbols, (prefixText s).toList.head?.any Source.opensText = true := by decide
    obtain ⟨c, hh, hc⟩ := (Option.any_eq_true _ _).1 (ha symbol hs)
    obtain ⟨tail, hte⟩ := head?_eq_some_iff.1 hh
    rw [rowSource, String.toList_append]
    exact Opens.append ⟨c, tail, hte, hc⟩ _
  | last ht | joined ht _ _ =>
    rw [ht.rowSource, String.toList_append]
    exact ht.opensText.append _

theorem RowFits.lexemes_ne_nil (hr : RowFits Token.Safe afterIs row) : rowLexemes row ≠ [] := by
  obtain ⟨x, xs, hxs, -⟩ := hr.opens
  rw [hxs]
  exact cons_ne_nil x xs

/-- The text of an operand spells its lexemes where what follows is like the text after an operand. -/
def Token.Inscribed (t : Token) : Prop :=
  ∀ rest, Among operandEnds rest → (t.isInt = true → rest.head? ≠ some '.') → Spells t.source.toList t.lexemes rest

variable {rest : List Char}

theorem Token.Inscribed.row {t : Token} (ht : t.Inscribed) (hr : Among rowEnds rest) :
    Spells t.source.toList t.lexemes rest :=
  ht rest hr.operand fun _ hd => absurd (hr '.' hd) (by decide)

/-- What follows an operand directly: a point, which must not stand after an integer, or a bracket. -/
theorem Token.Inscribed.append {t : Token} (ht : t.Inscribed)
    {row : List Lexeme} (hc : c ∈ operandEnds) (hint : t.isInt = true → c ≠ '.')
    (h : Spells (c :: cs) row rest) : Spells (t.source.toList ++ c :: cs) (t.lexemes ++ row) rest :=
  (ht _ (among_cons hc _) fun h hcs => hint h (Option.some.inj hcs)).append h

theorem optional_row (h : row ≠ [] → Inscribed (rowSource false row) (rowLexemes row)) :
    Optional (rowSource false row) (rowLexemes row) := by
  cases row with
  | nil => exact .inl ⟨rfl, rfl⟩
  | cons t row => exact .inr (h (cons_ne_nil _ _))

theorem spells_single (h : Inscribed text row) (hr : Among operandEnds rest) :
    Spells ('(' :: (text.toList ++ [','] ++ [')'])) (enclosed .round (row ++ [.mark .comma])) rest := by
  have hc : Spells [','] [.mark .comma] (')' :: rest) :=
    .mark ',' rfl (halts_cons rfl rest) nofun
  have hro := (h.spells (among_cons (by decide) _)).append hc
  refine Spells.enclosed (b := .round) hro ?_ hr.symbol
  rw [append_assoc]
  exact h.halts _

theorem spells_bounds (hs : Optional start startRow) (hst : Optional stop stopRow) (hr : Among operandEnds rest) :
    Spells ('[' :: (start.toList ++ ':' :: stop.toList ++ [']']))
      (enclosed .square (startRow ++ .mark .colon :: stopRow)) rest := by
  have hc : ']' ∈ rowEnds := Bracket.square.closeChar_mem
  have hco : ':' ∈ rowEnds := by decide
  have ha : Spells (':' :: stop.toList) (.mark .colon :: stopRow) (']' :: rest) :=
    (Spells.mark ':' rfl (hst.halts hc) nofun).append (hst.spells hc)
  have hro := (hs.spells hco).append ha
  refine Spells.enclosed (b := .square) hro ?_ hr.symbol
  rw [append_assoc]
  exact hs.halts hco

attribute [local simp] Bracket.openChar Bracket.closeChar

mutual

/-- **The text of an operand is divided into its lexemes.** -/
theorem Token.Fits.inscribed {t : Token} (ht : t.Fits Token.Safe) : t.Inscribed := by
  intro rest hr hint
  match ht with
  | .int h =>
    have hn : Halts extendsNumber rest := by
      intro c hc
      have hal : ∀ c ∈ operandEnds, extendsNumber c = true → c = '.' := forall_of_all (by decide)
      refine Bool.eq_false_iff.2 fun hn => ?_
      rw [hal c (hr c hc) hn] at hc
      exact hint rfl hc
    exact .int h hn
  | .string s =>
    exact .string s hr.quote
  | .bool b =>
    cases b
    · exact .keyword .false_ hr.word
    · exact .keyword .true_ hr.word
  | .none =>
    exact .keyword .none hr.word
  | .name h =>
    exact .name h hr.word
  | .call hna har _ =>
    have hi := (Optional.commas fun a ha => (har a ha).inscribed).enclosed .round hr
    rw [Token.source, Token.lexemes, argumentSources_eq_map, argumentRows_eq_map]
    simpa using (Spells.name hna (halts_cons (by decide) _)).append hi
  | .callMember ho hs hm har _ =>
    have hs := (Bool.not_eq_true' _).mp hs
    have hi := (Optional.commas fun a ha => (har a ha).inscribed).enclosed .round hr
    have hd := (Spells.dotName hm (halts_cons (by decide) _)).append hi
    rw [Token.source, Token.lexemes, argumentSources_eq_map, argumentRows_eq_map]
    simpa using
      ho.inscribed.append (by decide) (fun h => Bool.noConfusion (h.symm.trans hs)) hd
  | .member ho hs hm =>
    have hs := (Bool.not_eq_true' _).mp hs
    have hd := Spells.dotName hm hr.word
    rw [Token.source, Token.lexemes]
    simpa using ho.inscribed.append (by decide) (fun h => Bool.noConfusion (h.symm.trans hs)) hd
  | .list hrw =>
    have hi := (Optional.commas fun row hro => (hrw row hro).inscribed).enclosed .square hr
    rw [Token.source, Token.lexemes, rowSources_eq_map, rowsLexemes_eq_map]
    simpa using hi
  | @Token.Fits.tuple _ rows hrw =>
    have hi := (Optional.commas fun row hro => (hrw row hro).inscribed).enclosed .round hr
    rw [Token.source, Token.lexemes, rowSources_eq_map, rowsLexemes_eq_map]
    match rows with
    | [] => exact hi
    | [row] =>
      simpa [tupleRow] using spells_single (hrw row mem_cons_self).inscribed hr
    | row :: row' :: rows =>
      simpa [tupleRow] using hi
  | @Token.Fits.set _ rows hrw hso =>
    have hi := (Optional.commas fun row hro => (hrw row hro).inscribed).enclosed .curly hr
    rw [Token.source, Token.lexemes, rowSources_eq_map, rowsLexemes_eq_map]
    cases rows with
    | nil => exact absurd rfl hso
    | cons row rows => simpa using hi
  | .dict hen =>
    have hi := (Optional.commas fun e he => (hen e he).inscribed).enclosed .curly hr
    rw [Token.source, Token.lexemes, entrySources_eq_map, entryRows_eq_map]
    simpa using hi
  | .subscript hta hk =>
    have hro := Optional.enclosed (.inr hk.inscribed) .square hr
    rw [Token.source, Token.lexemes]
    simpa using hta.inscribed.append (by decide) (fun _ => by decide) hro
  | .slice hta hst hsp =>
    have hb := spells_bounds (optional_row fun h => (hst h).inscribed) (optional_row fun h => (hsp h).inscribed) hr
    rw [Token.source, Token.lexemes]
    simpa using hta.inscribed.append (by decide) (fun _ => by decide) hb
  | .bracket hin =>
    have hro := Optional.enclosed (.inr hin.inscribed) .round hr
    rw [Token.source, Token.lexemes]
    simpa using hro

/-- **The text of a row is divided into its lexemes.** -/
theorem RowFits.inscribed {afterIs : Bool} (hr : RowFits Token.Safe afterIs row) :
    Inscribed (rowSource false row) (rowLexemes row) := by
  refine ⟨hr.lexemes_ne_nil, hr.opensText, hr.level.balanced, fun {_} hre => ?_⟩
  match hr with
  | .marked hs _ hr =>
    rw [rowSource, String.toList_append]
    exact (hr.inscribed.spells hre).prefixMarker hs hr.lexemes_ne_nil hr.opensText
  | .last ht =>
    rw [ht.rowSource, rowSource, String.append_empty, rowLexemes, rowLexemes, append_nil]
    exact ht.inscribed.row hre
  | .joined ht hs hr =>
    have hm := (hr.inscribed.spells hre).infixMarker hs hr.lexemes_ne_nil
    rw [ht.rowSource, rowSource, rowLexemes, rowLexemes, Token.lexemes]
    simpa using ht.inscribed.append (by decide) (fun _ => by decide) hm

theorem Argument.Fits.inscribed {a : Argument} (ha : a.Fits Token.Safe) : Inscribed a.source a.lexemes := by
  match ha with
  | .positional h => exact h.inscribed
  | .keyword hn h =>
    refine ⟨cons_ne_nil _ _, ?_, h.level.balanced, fun {_} hr => ?_⟩
    · rw [Argument.source, String.toList_append, String.toList_append]
      exact ((Opens.word hn.1).append _).append _
    · have hv := (Spells.mark '=' rfl (h.inscribed.halts _) nofun).append (h.inscribed.spells hr)
      simpa [Argument.source, Argument.lexemes] using (Spells.name hn (halts_cons (by decide) _)).append hv

theorem Entry.Fits.inscribed {e : Entry} (he : e.Fits Token.Safe) : Inscribed e.source e.lexemes := by
  match he with
  | .pair hk hv =>
    refine ⟨append_ne_nil_of_left_ne_nil hk.lexemes_ne_nil _, ?_, hk.level.balanced.append hv.level.balanced,
      fun {_} hr => ?_⟩
    · rw [Entry.source, String.toList_append, String.toList_append]
      exact (hk.opensText.append _).append _
    · have hc := (Spells.mark ':' rfl (halts_cons rfl _) nofun).append
        ((hv.inscribed.spells hr).space hv.lexemes_ne_nil)
      simpa [Entry.source, Entry.lexemes] using (hk.inscribed.spells (among_cons (by decide) _)).append hc

end

end Playback
