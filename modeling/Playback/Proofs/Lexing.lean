import Playback.Proofs.Faithful
import Playback.Proofs.Plain

/-!
# The lexemes that a text holds

What dividing a text gives is proper: integers are not negative, names are words without another meaning, comments
fill the rest of a line. The row of lexemes is well laid out as well: blocks are opened and closed in turn, no layout
stands in brackets, places do not go back, and the end of the file comes last. Every step of the scanner keeps this.
-/

namespace Playback.Source

open List

open Scanner (markOf? symbol bracketsAfter)

def Lexeme.Proper : Lexeme → Prop
  | .int i => 0 ≤ i.toInt
  | .name s => IsName s
  | .operator s => s ∈ operatorSymbols
  | .comment text => IsComment text
  | _ => True

/-- Whether a lexeme stands in a line: it is no layout, no comment and not the end of the file. -/
def Lexeme.isInner : Lexeme → Bool
  | .mark .newline | .mark .indent | .mark .dedent | .mark .endOfFile | .comment _ => false
  | _ => true

/-! ## Places -/

/-- A place is another one or before it. -/
def Place.Upto (p q : Place) : Prop :=
  p.line < q.line ∨ p.line = q.line ∧ p.column ≤ q.column

variable {p : Place} {c : Cursor}

theorem Place.Upto.refl (p : Place) : p.Upto p :=
  .inr ⟨rfl, Nat.le_refl _⟩

theorem Place.Upto.trans {r : Place} (h : p.Upto q) (h' : q.Upto r) : p.Upto r := by
  unfold Place.Upto at *
  omega

theorem Place.upto_foldl (cs : List Char) (p : Place) : p.Upto (cs.foldl Place.after p) := by
  induction cs generalizing p with
  | nil => exact .refl p
  | cons ch cs ih =>
    have ha : p.Upto (p.after ch) := by
      by_cases hc : ch = '\n' <;> simp [Place.Upto, Place.after, hc]
    exact ha.trans (ih _)

namespace Cursor

theorem upto_takeWhile (p : Char → Bool) (c : Cursor) : c.place.Upto (c.takeWhile p).2.place :=
  Place.upto_foldl _ _

theorem upto_advance (c : Cursor) : c.place.Upto c.advance.place := by
  obtain ⟨rest, p⟩ := c
  cases rest with
  | nil => exact .refl p
  | cons ch rest => exact Place.upto_foldl [ch] p

theorem upto_skip (n : Nat) (c : Cursor) : c.place.Upto (c.skip n).place := by
  induction n generalizing c with
  | zero => exact .refl _
  | succ n ih => exact c.upto_advance.trans (ih _)

end Cursor

/-! ## Words and literals -/

/-- What reads a part of a text goes on in it. -/
def Onward {α : Type} (c : Cursor) (x : Except LexError (α × Cursor)) : Prop :=
  Yields x fun r => c.place.Upto r.2.place

/-- What reads a lexeme of a line gives a proper one and goes on in the text. -/
def ReadsOne (c : Cursor) (x : Except LexError (Lexeme × Cursor)) : Prop :=
  Yields x fun r => r.1.Proper ∧ r.1.isInner = true ∧ c.place.Upto r.2.place

theorem ReadsOne.before {c' : Cursor} {x : Except LexError (Lexeme × Cursor)} (hc : c.place.Upto c'.place)
    (h : ReadsOne c' x) : ReadsOne c x :=
  h.mono fun _ h => ⟨h.1, h.2.1, hc.trans h.2.2⟩

theorem nonneg_of_ofInt? {n : Nat} {i : Word} (h : Word.ofInt? n = some i) : 0 ≤ i.toInt := by
  unfold Word.ofInt? Word.greatest at h
  split at h
  · rename_i hr
    cases h
    rw [Int64.toInt_ofInt_of_le (by omega) (by omega)]
    omega
  · cases h

theorem nonneg_of_ofDecimal? {cs : List Char} (hcs : '-' ∉ cs) {i : Word} (h : Word.ofDecimal? cs = some i) :
    0 ≤ i.toInt := by
  unfold Word.ofDecimal? at h
  split at h
  · exact absurd mem_cons_self hcs
  all_goals
    obtain ⟨n, -, hn⟩ := Option.bind_eq_some_iff.1 h
    exact nonneg_of_ofInt? hn

theorem finish_proper {t : List Char} {isInt : Bool} (ht : isInt = true → '-' ∉ t) (c : Cursor) :
    ReadsOne c (decimalLiteral.finish p t isInt c) := by
  unfold decimalLiteral.finish
  dsimp only
  split
  · rename_i hint
    split
    · rename_i hv
      refine .ok ⟨nonneg_of_ofDecimal? (fun hm => ht hint ?_) hv, rfl, .refl _⟩
      exact (mem_filter.1 hm).1
    · exact .error _
  · split
    · exact .ok ⟨trivial, rfl, .refl _⟩
    · exact .error _

theorem fraction_upto (c : Cursor) : c.place.Upto (fraction c).2.place := by
  unfold fraction
  split
  · exact c.upto_advance.trans (Cursor.upto_takeWhile _ _)
  · exact .refl _

theorem exponent_upto (c : Cursor) : c.place.Upto (exponent c).2.place := by
  unfold exponent
  split
  · split
    · exact (c.upto_skip 2).trans (Cursor.upto_takeWhile _ _)
    · split
      · exact c.upto_advance.trans (Cursor.upto_takeWhile _ _)
      · exact .refl _
  · split
    · exact c.upto_skip 2
    · exact .refl _
  · exact .refl _

theorem decimalLiteral_proper (p : Place) (c : Cursor) : ReadsOne c (decimalLiteral p c) := by
  have ht : ∀ more more' : List Char, (more ++ more').isEmpty = true →
      '-' ∉ c.rest.takeWhile isDigitOrUnderscore ++ more ++ more' := by
    intro more more' he hm
    rw [append_assoc, List.isEmpty_iff.1 he, append_nil] at hm
    exact absurd (all_eq_true.1 all_takeWhile _ hm) (by decide)
  have hc := (c.upto_takeWhile isDigitOrUnderscore).trans ((fraction_upto _).trans (exponent_upto _))
  unfold decimalLiteral
  dsimp only
  split
  · split
    · exact .error _
    · exact .before hc (finish_proper (ht _ _) _)
  · exact .before hc (finish_proper (ht _ _) _)

theorem numberLiteral_proper (p : Place) (c : Cursor) : ReadsOne c (numberLiteral p c) := by
  unfold numberLiteral
  split
  · split
    · unfold baseLiteral
      dsimp only
      split
      · rename_i hv
        obtain ⟨n, -, hn⟩ := Option.bind_eq_some_iff.1 hv
        exact .ok ⟨nonneg_of_ofInt? hn, rfl, (c.upto_skip 2).trans (Cursor.upto_takeWhile _ _)⟩
      · exact .error _
    · exact decimalLiteral_proper p c
  · exact decimalLiteral_proper p c

theorem unescape_onward (ch : Char) (c : Cursor) : Onward c (unescape ch c) := by
  have hx n : Onward c (hexEscape n c) := by
    unfold hexEscape
    dsimp only
    split
    · exact .ok (c.upto_skip n)
    · exact .error _
  unfold unescape
  split
  case h_13 | h_14 | h_15 => exact (hx _).bind fun _ h => .ok h
  all_goals exact .ok (.refl _)

theorem stringStep_onward (style : StringStyle) (c : Cursor) : Onward c (stringStep style c) := by
  unfold stringStep
  split
  · exact .error _
  · refine .ite (.error _) (.ite (.ok c.upto_advance) (.ite (.ok (c.upto_skip 3)) (.ite ?_ (.ok c.upto_advance))))
    split
    · exact .error _
    · refine .ite (.ok (c.upto_skip 2)) ?_
      exact (unescape_onward _ _).bind fun _ h => .ok ((c.upto_skip 2).trans h)

theorem stringBody_onward (style : StringStyle) (n : Nat) (cs : List Char) (c : Cursor) :
    Onward c (stringBody style n cs c) := by
  induction n generalizing cs c with
  | zero => exact .error _
  | succ n ih =>
    refine (stringStep_onward style c).bind fun r hr => ?_
    obtain ⟨chars, c'⟩ := r
    cases chars with
    | none => exact .ok hr
    | some chars => exact (ih _ c').mono fun _ h => hr.trans h

theorem stringLiteral_proper (p : Place) (raw : Bool) (c : Cursor) : ReadsOne c (stringLiteral p raw c) := by
  refine (stringBody_onward _ _ _ _).bind fun r hr => .ok ⟨trivial, rfl, c.upto_advance.trans (.trans ?_ hr)⟩
  split
  · exact c.advance.upto_skip 2
  · exact .refl _

theorem wordLexeme_proper {s : String} (h : IsWord s) : (wordLexeme s).Proper ∧ (wordLexeme s).isInner = true := by
  unfold wordLexeme
  split
  · exact ⟨trivial, rfl⟩
  · split
    · exact ⟨trivial, rfl⟩
    · rename_i hk hr
      exact ⟨⟨h, by rw [wordLexeme, hk]; exact if_neg hr⟩, rfl⟩

theorem continuesWord_of_startsWord {c : Char} (h : startsWord c = true) : continuesWord c = true := by
  unfold continuesWord Text.isAlphanumeric
  rcases Bool.or_eq_true_iff.1 h with h | h
  · rw [h]
    rfl
  · rw [h, Bool.or_true]

theorem word_proper (p : Place) (hr : c.rest = ch :: r) (hch : startsWord ch = true) : ReadsOne c (word p c) := by
  have hw : IsWord (String.ofList (c.rest.takeWhile continuesWord)) := by
    refine ⟨ch, r.takeWhile continuesWord, ?_, hch, ?_⟩
    · rw [String.toList_ofList, hr, takeWhile_cons, if_pos (continuesWord_of_startsWord hch)]
    · intro d hd
      rcases mem_cons.1 hd with rfl | hd
      · exact continuesWord_of_startsWord hch
      · exact all_eq_true.1 all_takeWhile d hd
  have hc := c.upto_takeWhile continuesWord
  obtain ⟨hp, hi⟩ := wordLexeme_proper hw
  unfold word
  dsimp only [Cursor.takeWhile]
  split
  · split
    · exact .before hc (stringLiteral_proper p true _)
    · exact .before hc (stringLiteral_proper p false _)
    iterate 6 exact .error _
    exact .ok ⟨hp, hi, hc⟩
  · exact .ok ⟨hp, hi, hc⟩

theorem symbol_proper (c : Cursor) : ReadsOne c (symbol c) := by
  unfold symbol
  split
  · exact .ok ⟨trivial, rfl, c.upto_skip _⟩
  · split
    · exact .ok ⟨trivial, rfl, c.upto_skip 2⟩
    · split
      · rename_i hf
        exact .ok ⟨mem_of_find?_eq_some hf, rfl, c.upto_skip _⟩
      · dsimp only
        split
        · rename_i hm
          refine .ok ⟨trivial, ?_, c.upto_advance⟩
          unfold markOf? at hm
          split at hm <;> cases hm <;> rfl
        · exact .error _

theorem lexeme_proper (hr : c.rest = ch :: r) : ReadsOne c (Scanner.lexeme ch c) := by
  unfold Scanner.lexeme
  dsimp only
  split
  · exact stringLiteral_proper _ false c
  · split
    · exact numberLiteral_proper _ c
    · split
      · rename_i hch
        exact word_proper _ hr hch
      · exact symbol_proper c

/-! ## Comments -/

theorem getLast?_dropTailWhile (p : Char → Bool) (cs : List Char) :
    ∀ c ∈ (Text.dropTailWhile p cs).getLast?, p c = false := by
  intro c hc
  unfold Text.dropTailWhile at hc
  rw [getLast?_reverse] at hc
  have hh := head?_dropWhile_not p cs.reverse
  rwa [hc] at hh

theorem commentText_proper {cs : List Char} (hcs : '\n' ∉ cs) : IsComment (Scanner.commentText cs) := by
  have hl := getLast?_dropTailWhile Text.isBlank cs
  have hs : ∀ c ∈ Text.dropTailWhile Text.isBlank cs, c ∈ cs := fun c hc =>
    mem_reverse.1 ((dropWhile_sublist _).subset (mem_reverse.1 hc))
  unfold Scanner.commentText
  generalize Text.dropTailWhile Text.isBlank cs = text at hl hs
  split
  · rename_i r
    rw [IsComment, String.toList_ofList]
    refine ⟨fun hm => hcs (hs _ (mem_cons_of_mem _ hm)), fun c hc => hl c ?_⟩
    cases r with
    | nil => cases hc
    | cons d r => rwa [getLast?_cons_cons]
  · rw [IsComment, String.toList_ofList]
    exact ⟨fun hm => hcs (hs _ hm), hl⟩

/-! ## Rows -/

def blocksAfter (blocks : Nat) : Lexeme → Nat
  | .mark .indent => blocks + 1
  | .mark .dedent => blocks - 1
  | _ => blocks

theorem blocksAfter_inner {l : Lexeme} (h : l.isInner = true) (n : Nat) : blocksAfter n l = n := by
  unfold blocksAfter
  split <;> first
    | cases h
    | rfl

def openBrackets (ls : List Located) : Nat :=
  ls.foldl (fun n l => bracketsAfter n l.lexeme) 0

def openBlocks (ls : List Located) : Nat :=
  ls.foldl (fun n l => blocksAfter n l.lexeme) 0

/-- Only the end of a line, or nothing, comes before. -/
def AtLineStart (ls : List Located) : Prop :=
  ∀ l ∈ ls.getLast?, l.lexeme = .mark .newline

/-- A lexeme may stand after a row. -/
structure Located.Follows (l : Located) (before : List Located) : Prop where
  proper : l.lexeme.Proper
  place : ∀ k ∈ before.getLast?, k.place.Upto l.place
  outside : l.lexeme.isInner = false → openBrackets before = 0
  indent : l.lexeme = .mark .indent → AtLineStart before ∧ openBlocks before < maxBlockNesting
  dedent : l.lexeme = .mark .dedent → 0 < openBlocks before

/-- Each lexeme of a row may stand after those before it. -/
inductive Arranged : List Located → Prop
  | nil : Arranged []
  | concat (h : Arranged ls) (hl : l.Follows ls) : Arranged (ls ++ [l])

variable {ls : List Located} {l : Located} {n : Nat}

@[simp] theorem openBrackets_concat (ls : List Located) (l : Located) :
    openBrackets (ls ++ [l]) = bracketsAfter (openBrackets ls) l.lexeme := by
  simp [openBrackets]

@[simp] theorem openBlocks_concat (ls : List Located) (l : Located) :
    openBlocks (ls ++ [l]) = blocksAfter (openBlocks ls) l.lexeme := by
  simp [openBlocks]

theorem Arranged.split (h : Arranged ls) :
    ∀ before l after, ls = before ++ l :: after → Arranged before ∧ l.Follows before := by
  induction h with
  | nil =>
    intro before _ _ he
    cases before <;> cases he
  | concat h hl ih =>
    intro before k after he
    rcases eq_nil_or_concat after with rfl | ⟨after, k', rfl⟩
    · obtain ⟨rfl, hk⟩ := append_inj' he rfl
      cases hk
      exact ⟨h, hl⟩
    · rw [concat_eq_append, ← cons_append, ← append_assoc] at he
      exact ih before k after (append_inj' he rfl).1

theorem Located.Follows.inner (hp : l.lexeme.Proper) (hpl : ∀ k ∈ ls.getLast?, k.place.Upto l.place)
    (hi : l.lexeme.isInner = true) : l.Follows ls := by
  refine ⟨hp, hpl, fun h => absurd hi (h ▸ Bool.false_ne_true), fun h => ?_, fun h => ?_⟩
  all_goals
    rw [h] at hi
    cases hi

/-- Blocks that are open can be closed where no bracket is. -/
theorem Arranged.dedents (h : Arranged ls) (hb : openBrackets ls = 0) (hpl : ∀ k ∈ ls.getLast?, k.place.Upto p)
    (hn : n ≤ openBlocks ls) : Arranged (ls ++ replicate n ⟨.mark .dedent, p⟩)
      ∧ openBrackets (ls ++ replicate n ⟨.mark .dedent, p⟩) = 0
      ∧ openBlocks (ls ++ replicate n ⟨.mark .dedent, p⟩) = openBlocks ls - n
      ∧ ∀ k ∈ (ls ++ replicate n (⟨.mark .dedent, p⟩ : Located)).getLast?, k.place.Upto p := by
  induction n with
  | zero => simpa using ⟨h, hb, hpl⟩
  | succ n ih =>
    obtain ⟨har, hbr, hbl, hp⟩ := ih (by omega)
    rw [replicate_succ', ← append_assoc, openBrackets_concat, openBlocks_concat, getLast?_concat, hbr, hbl]
    refine ⟨har.concat ⟨trivial, hp, fun _ => hbr, nofun, fun _ => by omega⟩, rfl, rfl, ?_⟩
    rintro _ ⟨⟩
    exact .refl p

/-! ## The scanner -/

namespace Scanner

/-- What a scanner has found is arranged, and it knows what is open. -/
structure Laid (s : Scanner) : Prop where
  found : Arranged s.found.reverse
  brackets : openBrackets s.found.reverse = s.brackets
  blocks : openBlocks s.found.reverse = s.widths.length
  lineStart : s.lineStart = true → s.brackets = 0 ∧ AtLineStart s.found.reverse
  place : ∀ l ∈ s.found.reverse.getLast?, l.place.Upto s.cursor.place
  unended : ∀ l ∈ s.found, l.lexeme ≠ .mark .endOfFile

/-- A scanner stands before the first lexeme of a line. -/
structure Starts (s : Scanner) : Prop extends Laid s where
  outside : s.brackets = 0
  fresh : AtLineStart s.found.reverse
  inside : s.lineStart = false

variable {s s' : Scanner}

theorem Laid.moved (h : s.Laid) (hc : s.cursor.place.Upto c.place) {b : Bool} (hb : b = true → s.lineStart = true) :
    Laid { s with cursor := c, lineStart := b } :=
  ⟨h.found, h.brackets, h.blocks, fun ht => h.lineStart (hb ht), fun l hl => (h.place l hl).trans hc, h.unended⟩

theorem Laid.add (h : s.Laid) (hl : l.Follows s.found.reverse) (he : l.lexeme ≠ .mark .endOfFile)
    (hf : s'.found = l :: s.found) (hbr : s'.brackets = bracketsAfter s.brackets l.lexeme)
    (hbl : s'.widths.length = blocksAfter s.widths.length l.lexeme) (hp : l.place.Upto s'.cursor.place)
    (hs : s'.lineStart = true → s'.brackets = 0 ∧ l.lexeme = .mark .newline) : s'.Laid := by
  have hr : s'.found.reverse = s.found.reverse ++ [l] := by rw [hf, reverse_cons]
  refine ⟨?_, ?_, ?_, fun ht => ⟨(hs ht).1, ?_⟩, ?_, ?_⟩
  · rw [hr]
    exact h.found.concat hl
  · rw [hr, openBrackets_concat, h.brackets, hbr]
  · rw [hr, openBlocks_concat, h.blocks, hbl]
  · rw [hr, AtLineStart, getLast?_concat]
    rintro _ ⟨⟩
    exact (hs ht).2
  · rw [hr, getLast?_concat]
    rintro _ ⟨⟩
    exact hp
  · rw [hf]
    exact forall_mem_cons.2 ⟨he, h.unended⟩

/-- A line can end where no bracket is open. -/
theorem Laid.newline (h : s.Laid) (hb : s.brackets = 0) (hp : s.cursor.place.Upto p) (hc : p.Upto c.place) (b : Bool) :
    Laid { s.emit (.mark .newline) p with cursor := c, lineStart := b } :=
  h.add (l := ⟨.mark .newline, p⟩) ⟨trivial, fun k hk => (h.place k hk).trans hp, fun _ => h.brackets.trans hb, nofun,
    nofun⟩ nofun rfl rfl rfl hc fun _ => ⟨hb, rfl⟩

theorem length_closeWider (w : Nat) (ws : List Nat) :
    (closeWider w ws).1.length + (closeWider w ws).2 = ws.length := by
  induction ws with
  | nil => rfl
  | cons v ws ih =>
    unfold closeWider
    split
    · simp only [length_cons]
      omega
    · rfl

theorem indentTo_laid (h : s.Starts) (w : Nat) (strict : Bool) : Yields (s.indentTo w strict) fun s' =>
      s'.Laid ∧ s'.brackets = 0 ∧ s'.cursor = s.cursor ∧ s'.lineStart = false := by
  have hbr : openBrackets s.found.reverse = 0 := h.brackets.trans h.outside
  unfold indentTo
  dsimp only
  split
  · split
    · exact .error _
    · refine .ok ⟨h.add (l := ⟨.mark .indent, _⟩) ⟨trivial, h.place, fun _ => hbr, fun _ => ⟨h.fresh, ?_⟩, nofun⟩ nofun
        rfl rfl rfl (.refl _) fun ht => absurd ht (h.inside ▸ Bool.false_ne_true), h.outside, rfl, h.inside⟩
      rw [h.blocks]
      omega
  · split
    · exact .error _
    · have hlen := length_closeWider w s.widths
      obtain ⟨ha, hb, hbl, hp⟩ := h.found.dedents (n := (closeWider w s.widths).2) hbr h.place (by rw [h.blocks]; omega)
      refine .ok ⟨⟨?_, ?_, ?_, fun ht => absurd ht (h.inside ▸ Bool.false_ne_true), ?_, ?_⟩, h.outside, rfl, h.inside⟩
      · rwa [reverse_append, reverse_replicate]
      · rw [reverse_append, reverse_replicate, hb, h.outside]
      · rw [reverse_append, reverse_replicate, hbl, h.blocks]
        dsimp only
        omega
      · rwa [reverse_append, reverse_replicate]
      · rw [forall_mem_append]
        exact ⟨fun l hl => by rw [eq_of_mem_replicate hl]; exact nofun, h.unended⟩

theorem commentLine_laid (h : s.Starts) (w : Nat) : Yields (s.commentLine w) Laid := by
  have hc (s' : Scanner) (h : s'.Laid) (hb : s'.brackets = 0) (hi : s'.lineStart = false) :
      Laid { (s'.emit (.comment (commentText (s'.cursor.advance.takeWhile (· != '\n')).1)) s'.cursor.place).emit
        (.mark .newline) (s'.cursor.advance.takeWhile (· != '\n')).2.place with
        cursor := (s'.cursor.advance.takeWhile (· != '\n')).2.advance, lineStart := true } := by
    have ht : IsComment (commentText (s'.cursor.advance.takeWhile (· != '\n')).1) :=
      commentText_proper fun hm => absurd (all_eq_true.1 all_takeWhile _ hm) (by decide)
    have hbr : openBrackets s'.found.reverse = 0 := h.brackets.trans hb
    have h1 : Laid (s'.emit (.comment _) s'.cursor.place) :=
      h.add (l := ⟨.comment _, _⟩) ⟨ht, h.place, fun _ => hbr, nofun, nofun⟩ nofun rfl rfl rfl (.refl _)
        fun ht => absurd ht (hi ▸ Bool.false_ne_true)
    exact h1.newline hb ((Cursor.upto_advance _).trans (Cursor.upto_takeWhile _ _)) (Cursor.upto_advance _) true
  unfold commentLine
  split
  · refine (indentTo_laid h w false).bind fun s' hs' => .ok ?_
    obtain ⟨hl, hb, hcu, hi⟩ := hs'
    have hres := hc s' hl hb hi
    rwa [hcu] at hres ⊢
  · exact .ok (hc s h.toLaid h.outside h.inside)

theorem laid_some (h : s.Laid) : Yields (ε := LexError) (.ok (some s)) fun s' => ∀ s'' ∈ s', s''.Laid := by
  refine .ok ?_
  rintro _ ⟨⟩
  exact h

theorem inLine_laid (h : s.Laid) (hi : s.lineStart = false) : Yields s.inLine fun s' => ∀ s'' ∈ s', s''.Laid := by
  have hu := s.cursor.upto_takeWhile isSpace
  unfold inLine
  dsimp only
  split
  · exact .ok (by rintro _ ⟨⟩)
  · split
    · rename_i hb
      exact laid_some (h.newline hb hu (Cursor.upto_advance _) true)
    · exact laid_some (h.moved (hu.trans (Cursor.upto_advance _)) fun h => h)
  · exact laid_some (h.moved (hu.trans (Cursor.upto_takeWhile _ _)) fun h => h)
  · exact laid_some (h.moved (hu.trans (Cursor.upto_skip 2 _)) fun h => h)
  · rename_i hr
    refine (lexeme_proper hr).bind fun x hx => laid_some ?_
    obtain ⟨hp, hin, hx⟩ := hx
    have hm := h.moved hu (b := false) (by rintro ⟨⟩)
    refine hm.add (.inner hp hm.place hin) ?_ rfl rfl ?_ hx
      fun ht => absurd ht (hi ▸ Bool.false_ne_true)
    · rintro (he : x.1 = _)
      rw [he] at hin
      cases hin
    · exact (blocksAfter_inner hin _).symm

theorem step_laid (h : s.Laid) : Yields s.step fun s' => ∀ s'' ∈ s', s''.Laid := by
  unfold step
  split
  · rename_i hl
    obtain ⟨hb, he⟩ := h.lineStart hl
    have hu := s.cursor.upto_takeWhile isIndent
    have hs : Starts { s with cursor := (s.cursor.takeWhile isIndent).2, lineStart := false } :=
      ⟨h.moved hu (by rintro ⟨⟩), hb, he, rfl⟩
    have hm := h.moved (b := true) (hu.trans (Cursor.upto_advance _)) fun _ => hl
    dsimp only
    split
    · exact .ok (by rintro _ ⟨⟩)
    iterate 2 exact laid_some hm
    · exact (commentLine_laid hs _).bind fun _ => laid_some
    · exact (indentTo_laid hs _ true).bind fun s' hs' => inLine_laid hs'.1 hs'.2.2.2
  · rename_i hl
    exact inLine_laid h (Bool.not_eq_true _ ▸ hl)

theorem run_laid (h : s.Laid) (n : Nat) : Yields (s.run n) Laid := by
  induction n generalizing s with
  | zero => exact .ok h
  | succ n ih =>
    refine (step_laid h).bind fun s' hs' => ?_
    cases s' with
    | none => exact .ok h
    | some s' => exact ih (hs' s' rfl)

end Scanner

/-- A whole row: nothing is left open, and the end of the file comes last and nowhere else. -/
structure Whole (ls : List Located) : Prop where
  arranged : Arranged ls
  brackets : openBrackets ls = 0
  blocks : openBlocks ls = 0
  ends : ∃ row p, ls = row ++ [⟨.mark .endOfFile, p⟩] ∧ ∀ l ∈ row, l.lexeme ≠ .mark .endOfFile

theorem Scanner.close_laid {s : Scanner} (h : s.Laid) : Yields s.close Whole := by
  have hend (s' : Scanner) (h : s'.Laid) (hb : s'.brackets = 0) {p : Place} (hp : s'.cursor.place.Upto p) :
      Whole (s'.found.reverse ++ replicate s'.widths.length ⟨.mark .dedent, p⟩ ++ [⟨.mark .endOfFile, p⟩]) := by
    obtain ⟨ha, hbr, hbl, hpl⟩ := h.found.dedents (h.brackets.trans hb) (fun k hk => (h.place k hk).trans hp)
      (Nat.le_of_eq h.blocks.symm)
    refine ⟨ha.concat ⟨trivial, hpl, fun _ => hbr, nofun, nofun⟩, ?_, ?_, _, p, rfl, ?_⟩
    · rw [openBrackets_concat, hbr]
      rfl
    · rw [openBlocks_concat, hbl, h.blocks, Nat.sub_self]
      rfl
    · rw [forall_mem_append]
      refine ⟨fun l hl => h.unended l (mem_reverse.1 hl), fun l hl => ?_⟩
      rw [eq_of_mem_replicate hl]
      exact nofun
  have hp : s.cursor.place.Upto s.endPlace := Place.upto_foldl _ _
  unfold close
  split
  · exact .error _
  · rename_i hb
    have hb : s.brackets = 0 := by omega
    refine .ok ?_
    split
    · exact hend s h hb hp
    · exact hend s h hb hp
    · exact hend _ (h.newline hb hp (c := ⟨[], s.endPlace⟩) (.refl _) false) hb (.refl _)

/-- **Dividing a text gives a whole row.** -/
theorem lexemes_whole (t : String) : Yields (lexemes t) Whole := by
  refine (Scanner.run_laid ?_ _).bind fun _ => Scanner.close_laid
  exact ⟨.nil, rfl, rfl, fun _ => ⟨rfl, nofun⟩, nofun, nofun⟩

/-- **The lexemes of a text are proper**, and the last is the end of the file. -/
theorem lexemes_proper (t : String) : Yields (lexemes t) fun ls =>
      (∀ l ∈ ls, l.lexeme.Proper) ∧ ls.getLast?.map (·.lexeme) = some (.mark .endOfFile) := by
  refine (lexemes_whole t).mono fun ls h => ⟨fun l hl => ?_, ?_⟩
  · obtain ⟨before, after, he⟩ := append_of_mem hl
    exact (h.arranged.split before l after he).2.proper
  · obtain ⟨row, p, rfl, -⟩ := h.ends
    rw [getLast?_concat]
    rfl

/-! ## Well laid rows -/

theorem isMark_iff {l : Lexeme} {m : Mark} : l.isMark m = true ↔ l = .mark m := by
  cases l <;> simp [Lexeme.isMark]

theorem isMark_eq_false {l : Lexeme} {m : Mark} (h : l ≠ .mark m) : l.isMark m = false :=
  Bool.eq_false_iff.2 fun hma => h (isMark_iff.1 hma)

def marks (m : Mark) (ls : List Located) : Nat :=
  ls.countP (·.lexeme.isMark m)

structure WellLaid (ls : List Located) : Prop where
  /-- The end of the file comes last and nowhere else. -/
  ends : ∃ row p, ls = row ++ [⟨.mark .endOfFile, p⟩] ∧ ∀ l ∈ row, l.lexeme ≠ .mark .endOfFile
  balanced : marks .indent ls = marks .dedent ls
  /-- Never more blocks are closed than were opened, and never too many are open. -/
  nested : ∀ row, row <+: ls →
    marks .dedent row ≤ marks .indent row ∧ marks .indent row ≤ marks .dedent row + maxBlockNesting
  /-- An opening bracket is followed by one that brings the nesting back to what it was, and no layout or comment is
  between them. -/
  brackets : ∀ before b p tail, ls = before ++ ⟨.mark (.opening b), p⟩ :: tail → ∃ mid b' p' rest,
    tail = mid ++ ⟨.mark (.closing b'), p'⟩ :: rest
      ∧ (∀ row, row <+: mid → openBrackets before < openBrackets (before ++ ⟨.mark (.opening b), p⟩ :: row))
      ∧ openBrackets (before ++ ⟨.mark (.opening b), p⟩ :: (mid ++ [⟨.mark (.closing b'), p'⟩])) = openBrackets before
      ∧ ∀ l ∈ mid, l.lexeme.isInner = true
  indents : ∀ before p after, ls = before ++ ⟨.mark .indent, p⟩ :: after → AtLineStart before
  places : ls.Pairwise (·.place.Upto ·.place)

theorem Arranged.marks (h : Arranged ls) :
    marks .indent ls = marks .dedent ls + openBlocks ls ∧ openBlocks ls ≤ maxBlockNesting := by
  induction h with
  | nil => exact ⟨rfl, Nat.zero_le _⟩
  | @concat ls l h hl ih =>
    obtain ⟨hm, hn⟩ := ih
    obtain ⟨l, p⟩ := l
    rw [openBlocks_concat]
    simp only [Source.marks] at hm ⊢
    unfold blocksAfter
    split
    · have hi := (hl.indent rfl).2
      simp [isMark_iff]
      omega
    · have hd := hl.dedent rfl
      simp [isMark_iff]
      omega
    · rename_i hi hd
      simpa [isMark_eq_false hi, isMark_eq_false hd] using ⟨hm, hn⟩

theorem Arranged.places (h : Arranged ls) :
    ls.Pairwise (·.place.Upto ·.place) ∧ ∀ l ∈ ls, ∀ k ∈ ls.getLast?, l.place.Upto k.place := by
  induction h with
  | nil => exact ⟨.nil, nofun⟩
  | @concat ls l h hl ih =>
    obtain ⟨hp, hk⟩ := ih
    have hup : ∀ k ∈ ls, k.place.Upto l.place := by
      intro k hm
      have hn : ls ≠ [] := ne_nil_of_mem hm
      have hla : ls.getLast hn ∈ ls.getLast? := getLast?_eq_some_getLast hn
      exact (hk k hm _ hla).trans (hl.place _ hla)
    refine ⟨pairwise_append.2 ⟨hp, pairwise_singleton _ _, ?_⟩, ?_⟩
    · intro k hm j hj
      rw [mem_singleton.1 hj]
      exact hup k hm
    · rw [getLast?_concat, forall_mem_append]
      refine ⟨fun k hm j hj => ?_, fun k hm j hj => ?_⟩
      · cases hj
        exact hup k hm
      · cases hj
        rw [mem_singleton.1 hm]
        exact .refl _

/-- Nesting that ends no deeper than `d` comes back to it with a closing bracket. -/
theorem exists_back {d : Nat} (ls : List Located) (hd : d < n)
    (hf : ls.foldl (fun n l => bracketsAfter n l.lexeme) n ≤ d) : ∃ mid b p rest,
      ls = mid ++ ⟨.mark (.closing b), p⟩ :: rest
        ∧ (∀ row, row <+: mid → d < row.foldl (fun n l => bracketsAfter n l.lexeme) n)
        ∧ bracketsAfter (mid.foldl (fun n l => bracketsAfter n l.lexeme) n) (.mark (.closing b)) = d := by
  induction ls generalizing n with
  | nil => exact absurd hf (by simpa using hd)
  | cons l ls ih =>
    by_cases hn : d < bracketsAfter n l.lexeme
    · obtain ⟨mid, b, p, rest, rfl, hm, he⟩ := ih hn hf
      refine ⟨l :: mid, b, p, rest, rfl, fun row hr => ?_, he⟩
      cases row with
      | nil => exact hd
      | cons k row =>
        obtain ⟨rfl, hro⟩ := cons_prefix_cons.1 hr
        exact hm row hro
    · obtain ⟨l, p⟩ := l
      unfold bracketsAfter at hn
      dsimp only at hn
      split at hn
      · omega
      · rename_i b
        refine ⟨[], b, p, ls, rfl, fun row hr => ?_, ?_⟩
        · rw [prefix_nil.1 hr]
          exact hd
        · exact show n - 1 = d by omega
      · exact absurd hd hn

/-- **The lexemes of a text are well laid out.** -/
theorem lexemes_wellLaid {t : String} (h : lexemes t = .ok ls) : WellLaid ls := by
  have hw := lexemes_whole t ls h
  refine ⟨hw.ends, ?_, ?_, ?_, ?_, hw.arranged.places.1⟩
  · rw [hw.arranged.marks.1, hw.blocks, Nat.add_zero]
  · rintro row ⟨rest, rfl⟩
    have hm : marks .indent row = marks .dedent row + openBlocks row ∧ openBlocks row ≤ maxBlockNesting := by
      cases rest with
      | nil => exact (append_nil row ▸ hw.arranged).marks
      | cons l rest => exact (hw.arranged.split row l rest rfl).1.marks
    omega
  · rintro before b p tail rfl
    have hsp (row : List Located) : openBrackets (before ++ ⟨.mark (.opening b), p⟩ :: row)
        = row.foldl (fun n l => bracketsAfter n l.lexeme) (openBrackets before + 1) := by
      simp [openBrackets, bracketsAfter]
    obtain ⟨mid, b', p', rest, rfl, hm, he⟩ := exists_back tail (Nat.lt_add_one (openBrackets before))
      (by rw [← hsp, hw.brackets]; exact Nat.zero_le _)
    refine ⟨mid, b', p', rest, rfl, fun row hr => by rw [hsp]; exact hm row hr, ?_, fun l hl => ?_⟩
    · rw [hsp, foldl_append]
      exact he
    · -- before a lexeme between the brackets the nesting has not come back, so no layout can follow
      obtain ⟨row, after, rfl⟩ := append_of_mem hl
      have hf := (hw.arranged.split (before ++ ⟨.mark (.opening b), p⟩ :: row) l
        (after ++ ⟨.mark (.closing b'), p'⟩ :: rest) (by simp)).2
      have hd := hm row (prefix_append _ _)
      cases hi : l.lexeme.isInner with
      | true => rfl
      | false =>
        have hz := hf.outside hi
        rw [hsp] at hz
        omega
  · rintro before p after rfl
    exact ((hw.arranged.split before _ after rfl).2.indent rfl).1

theorem lexemes_wellLaid_block : WellLaid [⟨.mark .colon, ⟨1, 1⟩⟩, ⟨.mark .newline, ⟨1, 2⟩⟩, ⟨.mark .indent, ⟨2, 2⟩⟩,
    ⟨.mark (.opening .round), ⟨2, 2⟩⟩, ⟨.mark (.closing .round), ⟨3, 1⟩⟩, ⟨.mark .newline, ⟨3, 2⟩⟩,
    ⟨.mark .dedent, ⟨3, 2⟩⟩, ⟨.mark .endOfFile, ⟨3, 2⟩⟩] :=
  lexemes_wellLaid (t := ":\n (\n)") rfl

end Playback.Source
