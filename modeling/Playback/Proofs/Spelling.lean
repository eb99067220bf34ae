import Playback.Source.Scan
import Playback.Text.Quoted

/-!
# Spelled lexemes

A lexeme is spelled by a text: where the text stands and what follows does not run into it, dividing the text
gives the lexeme and leaves what follows.
-/

namespace Playback.Source

open List Text

open Scanner (lexeme symbol)

variable {i : Word} {escaped ch : Char} {s t : String}

/-- What is checked of each member of a list. The check says how it is made, and not by way of all members of the
type. -/
theorem forall_of_all {α : Type} {p : α → Prop} [DecidablePred p] {l : List α} (h : l.all (fun x => p x) = true) :
    ∀ x ∈ l, p x :=
  fun x hx => of_decide_eq_true (all_eq_true.1 h x hx)

/-! ## Cursors -/

theorem Cursor.skip_mk (n : Nat) (cs : List Char) (p : Place) : ∃ p', Cursor.skip n ⟨cs, p⟩ = ⟨cs.drop n, p'⟩ := by
  induction n generalizing cs p with
  | zero => exact ⟨p, rfl⟩
  | succ n ih =>
    cases cs with
    | nil =>
      obtain ⟨p', h⟩ := ih [] p
      exact ⟨p', by rw [Cursor.skip, Cursor.advance, h, drop_nil, drop_nil]⟩
    | cons c cs => exact ih cs (p.after c)

/-- A row does not go on with something that passes a test. -/
def Halts {α : Type} (p : α → Bool) (r : List α) : Prop :=
  ∀ c ∈ r.head?, p c = false

theorem halts_cons {α : Type} {p : α → Bool} {c : α} (hp : p c = false) (r : List α) : Halts p (c :: r) := by
  rintro d hd
  cases hd
  exact hp

variable {cs r : List Char}

section

variable {p : Char → Bool} (hcs : ∀ c ∈ cs, p c = true) (hr : Halts p r)

include hcs hr

theorem takeWhile_append : (cs ++ r).takeWhile p = cs := by
  have hs : r.takeWhile p = [] := by
    cases r with
    | nil => rfl
    | cons c r => exact takeWhile_cons_of_neg (by simp [hr c rfl])
  rw [takeWhile_append_of_pos hcs, hs, append_nil]

theorem dropWhile_append : (cs ++ r).dropWhile p = r := by
  rw [dropWhile_append_of_pos hcs]
  cases r with
  | nil => rfl
  | cons c r => exact dropWhile_cons_of_neg (by simp [hr c rfl])

theorem Cursor.takeWhile_mk (q : Place) : Cursor.takeWhile p ⟨cs ++ r, q⟩ = (cs, ⟨r, cs.foldl Place.after q⟩) := by
  unfold Cursor.takeWhile
  rw [takeWhile_append hcs hr, dropWhile_append hcs hr]

end

/-- Where `ch` and then `tail` stand, a lexeme is read and the rest is left. -/
def Lexes (ch : Char) (tail : List Char) (l : Lexeme) (r : List Char) : Prop :=
  ∀ place, ∃ place', lexeme ch ⟨ch :: (tail ++ r), place⟩ = .ok (l, ⟨r, place'⟩)

/-! ## Numbers -/

def extendsNumber (c : Char) : Bool :=
  isAlphanumeric c || c == '_' || c == '.'

variable {c : Char}

theorem toNat_le_of_isDigit (h : c.isDigit = true) : c.toNat ≤ 57 := by
  simp only [Char.isDigit, Bool.and_eq_true, decide_eq_true_eq] at h
  exact UInt32.le_iff_toNat_le.1 h.2

theorem natOfDigits?_toDigits (n : Nat) : Word.natOfDigits? 10 (Nat.toDigits 10 n) = some n := by
  have hf : ∀ (cs : List Char) (k : Nat), (∀ c ∈ cs, c.isDigit = true) →
      cs.foldlM (fun n c => do
        let d ← Word.digit? c
        if d < 10 then some (10 * n + d) else none) k = some (Nat.ofDigitChars 10 cs k) := by
    intro cs
    induction cs with
    | nil => exact fun k _ => rfl
    | cons c cs ih =>
      intro k hcs
      obtain ⟨hc, hcs⟩ := forall_mem_cons.1 hcs
      have hd : Word.digit? c = some (c.toNat - 48) := if_pos hc
      have hv : c.toNat - 48 < 10 := by
        have hle := toNat_le_of_isDigit hc
        omega
      rw [foldlM_cons, hd]
      change (if c.toNat - 48 < 10 then some (10 * k + (c.toNat - 48)) else none) >>= _ = _
      rw [if_pos hv]
      exact ih _ hcs
  unfold Word.natOfDigits?
  rw [if_neg, hf, Nat.ofDigitChars_toDigits (by decide) (by decide)]
  · exact fun c hc => Nat.isDigit_of_mem_toDigits (by decide) (by decide) hc
  · rw [List.isEmpty_iff, ← length_eq_zero_iff]
    exact Nat.ne_of_gt Nat.length_toDigits_pos

theorem ofInt?_toInt (i : Word) : Word.ofInt? i.toInt = some i := by
  have hl := Int64.le_toInt i
  have hh := Int64.toInt_lt i
  unfold Word.ofInt? Word.least Word.greatest
  rw [if_pos (by omega), Int64.ofInt_toInt]

theorem text_of_nonneg (hi : 0 ≤ i.toInt) : (∀ c ∈ i.text.toList, c.isDigit = true) ∧ i.text.toList ≠ []
      ∧ Word.ofDecimal? i.text.toList = some i := by
  obtain ⟨n, hn⟩ := Int.eq_ofNat_of_zero_le hi
  have ht : i.text.toList = Nat.toDigits 10 n := by
    unfold Word.text
    rw [hn]
    change n.repr.toList = _
    rw [Nat.repr_eq_ofList_toDigits, String.toList_ofList]
  have hd : ∀ c ∈ Nat.toDigits 10 n, c.isDigit = true :=
    fun c hc => Nat.isDigit_of_mem_toDigits (by decide) (by decide) hc
  rw [ht]
  refine ⟨hd, ?_, ?_⟩
  · rw [Ne, ← length_eq_zero_iff]
    exact Nat.ne_of_gt Nat.length_toDigits_pos
  · unfold Word.ofDecimal?
    split
    iterate 2
      · rename_i heq
        rw [heq] at hd
        exact absurd (hd _ mem_cons_self) (by decide)
    · rw [natOfDigits?_toDigits]
      change Word.ofInt? (n : Int) = _
      rw [← hn, ofInt?_toInt]

theorem isAlphanumeric_of_isDigit (h : c.isDigit = true) : isAlphanumeric c = true := by
  have hle := toNat_le_of_isDigit h
  unfold isAlphanumeric isNumeric
  rw [if_pos (by omega), h, Bool.or_true]

theorem Halts.number (h : Halts extendsNumber r) :
    ∀ c ∈ r.head?, isAlphanumeric c = false ∧ c ≠ '_' ∧ c ≠ '.' := by
  intro c hc
  have hs := h c hc
  unfold extendsNumber at hs
  simpa [and_assoc] using hs

theorem fraction_halts (h : Halts extendsNumber r) (p : Place) : fraction ⟨r, p⟩ = ([], ⟨r, p⟩) := by
  unfold fraction
  split
  · rename_i tail heq
    subst heq
    exact absurd rfl (h.number '.' rfl).2.2
  · rfl

theorem exponent_halts (h : Halts extendsNumber r) (p : Place) : exponent ⟨r, p⟩ = ([], ⟨r, p⟩) := by
  have hl : ∀ c ∈ r.head?, (c == 'e' || c == 'E') = false := by
    intro c hc
    have hs := (h.number c hc).1
    rw [Bool.or_eq_false_iff, beq_eq_false_iff_ne, beq_eq_false_iff_ne]
    constructor <;> rintro rfl <;> exact absurd hs (by decide)
  unfold exponent
  split
  iterate 2
    · rename_i heq
      subst heq
      simp [hl _ rfl]
  · rfl

theorem decimalLiteral_digits (hcs : ∀ c ∈ cs, c.isDigit = true) (hv : Word.ofDecimal? cs = some i)
    (hr : Halts extendsNumber r) (start p : Place) :
    decimalLiteral start ⟨cs ++ r, p⟩ = .ok (.int i, ⟨r, cs.foldl Place.after p⟩) := by
  have ht : Cursor.takeWhile isDigitOrUnderscore ⟨cs ++ r, p⟩
      = (cs, ⟨r, cs.foldl Place.after p⟩) := by
    refine Cursor.takeWhile_mk (fun c hc => ?_) (fun c hc => ?_) p
    · rw [isDigitOrUnderscore, hcs c hc]
      rfl
    · obtain ⟨ha, hu, -⟩ := hr.number c hc
      rw [isDigitOrUnderscore, Bool.or_eq_false_iff, beq_eq_false_iff_ne]
      refine ⟨Bool.eq_false_iff.2 fun hd => ?_, hu⟩
      rw [isAlphanumeric_of_isDigit hd] at ha
      cases ha
  have hcl : withoutUnderscores cs = cs := by
    unfold withoutUnderscores
    rw [filter_eq_self]
    intro c hc
    have hd := hcs c hc
    rw [bne_iff_ne]
    rintro rfl
    exact absurd hd (by decide)
  have hf : ∀ c : Cursor, decimalLiteral.finish start cs true c = .ok (.int i, c) := by
    intro c
    unfold decimalLiteral.finish
    rw [if_pos rfl, hcl, hv]
  unfold decimalLiteral
  rw [ht]
  dsimp only
  rw [fraction_halts hr]
  rw [exponent_halts hr]
  rw [append_nil, append_nil]
  cases r with
  | nil => exact hf _
  | cons next _ =>
    obtain ⟨ha, hu, -⟩ := hr.number next rfl
    dsimp only
    rw [ha, beq_eq_false_iff_ne.2 hu]
    exact hf _

theorem baseOf?_eq_none (h : c.isDigit = true ∨ isAlphanumeric c = false) : baseOf? c = none := by
  unfold baseOf?
  split <;> first
    | rfl
    | exact absurd h (by decide)

/-- **Integers are spelled by their digits.** -/
theorem lexes_int (hi : 0 ≤ i.toInt) (hr : Halts extendsNumber r) :
    ∃ ch tail, i.text.toList = ch :: tail ∧ ch.isDigit = true ∧ Lexes ch tail (.int i) r := by
  obtain ⟨hd, hne, hv⟩ := text_of_nonneg hi
  obtain ⟨ch, tail, ht⟩ := exists_cons_of_ne_nil hne
  rw [ht] at hd hv
  have hdi := hd ch mem_cons_self
  refine ⟨ch, tail, ht, hdi, fun p => ⟨(ch :: tail).foldl Place.after p, ?_⟩⟩
  have hb : ∀ letter ∈ (tail ++ r).head?, baseOf? letter = none := by
    intro letter hl
    cases tail with
    | nil => exact baseOf?_eq_none (.inr (hr.number letter hl).1)
    | cons d tail =>
      obtain rfl : d = letter := Option.some.inj hl
      exact baseOf?_eq_none (.inl (hd d (mem_cons_of_mem _ mem_cons_self)))
  have hn : numberLiteral p ⟨ch :: (tail ++ r), p⟩
      = decimalLiteral p ⟨ch :: (tail ++ r), p⟩ := by
    unfold numberLiteral
    split
    · rename_i letter more heq
      injection heq with _ heq
      rw [hb letter (by rw [heq]; rfl)]
    · rfl
  unfold lexeme
  rw [if_neg, if_pos, hn]
  · exact decimalLiteral_digits hd hv hr p p
  · rw [hdi]
    rfl
  · rintro (rfl | rfl) <;> exact absurd hdi (by decide)

/-! ## Strings -/

theorem charOfNat?_toNat (c : Char) : charOfNat? c.toNat = some c := by
  unfold charOfNat?
  have hv : c.toNat.isValidChar := c.valid
  rw [dif_pos hv]
  exact congrArg some (Char.ext (UInt32.toNat_inj.1 rfl))

theorem hexEscape_hexPair (hc : c.toNat < 128) (r : List Char) (p : Place) :
    ∃ p', hexEscape 2 ⟨hexPair c.toNat ++ r, p⟩ = .ok (c, ⟨r, p'⟩) := by
  have hd : ∀ n < 128, (hexPair n).takeWhile isHexDigit = hexPair n
      ∧ Word.natOfDigits? 16 (hexPair n) = some n := by decide
  obtain ⟨ht, hv⟩ := hd c.toNat hc
  obtain ⟨p', hs⟩ := Cursor.skip_mk 2 (hexPair c.toNat ++ r) p
  refine ⟨p', ?_⟩
  have hta : (hexPair c.toNat ++ r).take 2 = hexPair c.toNat := rfl
  have hl : (hexPair c.toNat).length = 2 := rfl
  have hch : ((some c.toNat).filter fun _ => 2 == 2).bind charOfNat? = some c := charOfNat?_toNat c
  unfold hexEscape
  dsimp only
  rw [hta, ht, hv, hl, hs, hch]
  rfl

/-- A character that a string literal could run into. -/
def isQuote (c : Char) : Bool :=
  c == '\x27' || c == '"'

theorem quoteOf_eq (cs : List Char) : quoteOf cs = '\x27' ∨ quoteOf cs = '"' := by
  unfold Text.quoteOf
  split
  · exact .inr rfl
  · exact .inl rfl

section

variable {quote : Char} (hq : quote = '\x27' ∨ quote = '"')

include hq

theorem stringStep_escape (tail : List Char)
    (start p : Place) (h : ∀ p, ∃ p', unescape escaped ⟨tail ++ r, p⟩ = .ok ([c], ⟨r, p'⟩)) :
    ∃ p', stringStep { quote, triple := false, raw := false, place := start }
      ⟨'\\' :: escaped :: (tail ++ r), p⟩ = .ok (some [c], ⟨r, p'⟩) := by
  obtain ⟨p', hre⟩ := h ((p.after '\\').after escaped)
  refine ⟨p', ?_⟩
  have hs : Cursor.skip 2 ⟨'\\' :: escaped :: (tail ++ r), p⟩ = ⟨tail ++ r, (p.after '\\').after escaped⟩ := rfl
  have hne : '\\' ≠ quote := by rcases hq with rfl | rfl <;> decide
  unfold stringStep
  dsimp only
  rw [if_neg (by decide), if_neg (fun h => hne h.1), if_neg (fun h => hne h.1), hs, hre]
  rfl

theorem stringStep_quotedChar (c : Char) (r : List Char) (start p : Place) :
    ∃ p', stringStep { quote, triple := false, raw := false, place := start }
      ⟨quotedChar quote c ++ r, p⟩ = .ok (some [c], ⟨r, p'⟩) := by
  have hs : ∀ {escaped : Char}, (∀ cursor, unescape escaped cursor = .ok ([c], cursor)) →
      ∃ p', stringStep { quote, triple := false, raw := false, place := start }
        ⟨'\\' :: escaped :: r, p⟩ = .ok (some [c], ⟨r, p'⟩) :=
    fun h => stringStep_escape hq [] start p fun p => ⟨p, h _⟩
  unfold quotedChar
  iterate 4
    split
    · rename_i hc
      obtain rfl := beq_iff_eq.1 hc
      exact hs fun _ => rfl
  split
  · rename_i hc
    obtain rfl := beq_iff_eq.1 hc
    exact hs fun _ => by rcases hq with rfl | rfl <;> rfl
  split
  · rename_i hc
    have hsm : c.toNat < 128 := by
      rw [Bool.or_eq_true, decide_eq_true_eq, beq_iff_eq] at hc
      omega
    refine stringStep_escape hq _ start p fun p => ?_
    obtain ⟨p', hre⟩ := hexEscape_hexPair hsm r p
    refine ⟨p', ?_⟩
    unfold unescape
    rw [hre]
    rfl
  · rename_i hb hn _ _ ho _
    rw [beq_iff_eq] at hb hn ho
    refine ⟨p.after c, ?_⟩
    unfold stringStep
    dsimp only [cons_append, nil_append]
    rw [if_neg (fun h => hn h.1), if_neg (fun h => ho h.1), if_neg (fun h => ho h.1), if_neg hb]
    rfl

theorem stringBody_quoted (start : Place) (cs r : List Char) (n : Nat)
    (hf : cs.length < n) (read : List Char) (p : Place) :
    ∃ p', stringBody { quote, triple := false, raw := false, place := start } n read
      ⟨cs.flatMap (Text.quotedChar quote) ++ quote :: r, p⟩
        = .ok (read.reverse ++ cs, ⟨r, p'⟩) := by
  induction cs generalizing n read p with
  | nil =>
    obtain ⟨n, rfl⟩ := Nat.exists_eq_succ_of_ne_zero (Nat.ne_of_gt hf)
    refine ⟨p.after quote, ?_⟩
    have he : stringStep { quote, triple := false, raw := false, place := start } ⟨quote :: r, p⟩
        = .ok (none, ⟨r, p.after quote⟩) := by
      unfold stringStep
      dsimp only
      rw [if_neg (by rcases hq with rfl | rfl <;> decide), if_pos ⟨rfl, rfl⟩]
      rfl
    rw [flatMap_nil, nil_append, append_nil, stringBody, he]
    rfl
  | cons c cs ih =>
    obtain ⟨n, rfl⟩ := Nat.exists_eq_succ_of_ne_zero (Nat.ne_of_gt (Nat.zero_lt_of_lt hf))
    rw [flatMap_cons, append_assoc]
    obtain ⟨p1, hs⟩ := stringStep_quotedChar hq c (cs.flatMap (Text.quotedChar quote) ++ quote :: r) start p
    obtain ⟨p2, hb⟩ := ih n (Nat.lt_of_succ_lt_succ hf) (c :: read) p1
    refine ⟨p2, ?_⟩
    rw [stringBody, hs]
    change stringBody _ n (c :: read) _ = _
    rw [hb, reverse_cons, append_assoc]
    rfl

theorem quotedChar_cons (c : Char) :
    ∃ d tail, quotedChar quote c = d :: tail ∧ d ≠ quote := by
  have hb : '\\' ≠ quote := by rcases hq with rfl | rfl <;> decide
  unfold quotedChar
  repeat' split
  all_goals first
    | exact ⟨_, _, rfl, hb⟩
    | exact ⟨_, _, rfl, fun h => by simp_all⟩

theorem length_le_flatMap_quotedChar (cs : List Char) :
    cs.length ≤ (cs.flatMap (Text.quotedChar quote)).length := by
  induction cs with
  | nil => exact Nat.le_refl _
  | cons c cs _ =>
    obtain ⟨d, _, hc, -⟩ := quotedChar_cons hq c
    rw [flatMap_cons, hc, length_append, length_cons, length_cons]
    omega

end

/-- **Strings are spelled by their quoted text.** -/
theorem lexes_string (s : String) (hr : Halts isQuote r) :
    ∃ ch tail, (Text.quoted s).toList = ch :: tail ∧ isQuote ch = true ∧ Lexes ch tail (.string s) r := by
  have hq := quoteOf_eq s.toList
  refine ⟨Text.quoteOf s.toList, _, String.toList_ofList, ?_, fun p => ?_⟩
  · rcases hq with h | h <;> rw [h] <;> rfl
  generalize Text.quoteOf s.toList = quote at hq ⊢
  rw [append_assoc]
  have ht : [quote, quote].isPrefixOf (s.toList.flatMap (Text.quotedChar quote) ++ quote :: r)
      = false := by
    cases s.toList with
    | nil =>
      cases r with
      | nil => simp
      | cons c r =>
        have hc : quote ≠ c := by
          rintro rfl
          have hs := hr quote rfl
          rcases hq with rfl | rfl <;> cases hs
        simp [List.isPrefixOf, hc]
    | cons c cs =>
      obtain ⟨d, tail, hch, hd⟩ := quotedChar_cons hq c
      simp [List.isPrefixOf, hch, Ne.symm hd]
  have hle := length_le_flatMap_quotedChar hq s.toList
  obtain ⟨p', hb⟩ := stringBody_quoted hq p s.toList r
    ((s.toList.flatMap (Text.quotedChar quote) ++ quote :: r).length + 1)
    (by rw [length_append]; omega) [] (p.after quote)
  refine ⟨p', ?_⟩
  have hl : stringLiteral p false ⟨quote :: (s.toList.flatMap (Text.quotedChar quote) ++ quote :: r), p⟩
        = .ok (.string s, ⟨r, p'⟩) := by
    unfold stringLiteral
    dsimp only [Cursor.peek?, Cursor.advance, head?_cons, Option.getD_some]
    rw [ht, if_neg Bool.false_ne_true, hb]
    change Except.ok (Lexeme.string (String.ofList s.toList), _) = _
    rw [String.ofList_toList]
  unfold lexeme
  rw [if_pos (by rcases hq with rfl | rfl <;> decide)]
  exact hl

/-! ## Words -/

def IsWord (s : String) : Prop :=
  ∃ ch tail, s.toList = ch :: tail ∧ startsWord ch = true ∧ ∀ c ∈ ch :: tail, continuesWord c = true

def extendsWord (c : Char) : Bool :=
  continuesWord c || isQuote c

theorem startsWord_of_lt (h : c.toNat < 58) : startsWord c = false := by
  have ha : ∀ n < 58, startsWord (Char.ofNat n) = false := by decide
  rw [← Char.ofNat_toNat c]
  exact ha c.toNat h

theorem not_isDigit_of_startsWord (h : startsWord c = true) : c.isDigit = false := by
  refine Bool.eq_false_iff.2 fun hd => ?_
  rw [startsWord_of_lt (Nat.lt_succ_of_le (toNat_le_of_isDigit hd))] at h
  exact absurd h (by decide)

/-- **Words are spelled by themselves.** -/
theorem lexes_word (h : IsWord s) (hr : Halts extendsWord r) :
    ∃ ch tail, s.toList = ch :: tail ∧ startsWord ch = true ∧ Lexes ch tail (wordLexeme s) r := by
  obtain ⟨ch, tail, ht, hs, hco⟩ := h
  refine ⟨ch, tail, ht, hs, fun p => ⟨(ch :: tail).foldl Place.after p, ?_⟩⟩
  have hst : ∀ c ∈ r.head?, continuesWord c = false ∧ isQuote c = false :=
    fun c hc => Bool.or_eq_false_iff.1 (hr c hc)
  have hta := Cursor.takeWhile_mk hco (fun c hc => (hst c hc).1) p
  have hw : word p ⟨ch :: (tail ++ r), p⟩
      = .ok (wordLexeme s, ⟨r, (ch :: tail).foldl Place.after p⟩) := by
    unfold word
    rw [← cons_append, hta]
    dsimp only
    rw [← ht, String.ofList_toList, if_neg]
    rintro (hq | hq)
    · exact absurd (hst '"' hq).2 (by decide)
    · exact absurd (hst '\x27' hq).2 (by decide)
  have hch : ∀ c, startsWord c = false → ch ≠ c := by
    rintro c hc rfl
    rw [hs] at hc
    cases hc
  unfold lexeme
  rw [if_neg, if_neg, if_pos hs]
  · exact hw
  · rw [not_isDigit_of_startsWord hs, beq_eq_false_iff_ne.2 (hch '.' (by decide))]
    exact nofun
  · rintro (hq | hq)
    · exact hch '"' (by decide) hq
    · exact hch '\x27' (by decide) hq

theorem isWord_keyword (k : Keyword) : IsWord k.text := by
  cases k <;> exact ⟨_, _, rfl, by decide, all_eq_true.1 (by decide)⟩

@[simp] theorem wordLexeme_keyword (k : Keyword) : wordLexeme k.text = .keyword k := by
  cases k <;> rfl

def IsName (s : String) : Prop :=
  IsWord s ∧ wordLexeme s = .name s

/-! ## Symbols -/

def extendsSymbol (c : Char) : Bool :=
  ['=', '*', '/', '<', '>'].contains c

/-- The symbols that are looked for before punctuation. -/
def longSymbols : List String :=
  augmentedSymbols ++ "->" :: operatorSymbols

/-- Whether each symbol that starts with this text and is longer goes on with a character that extends a symbol. -/
def isClosedSymbol (s : List Char) : Bool :=
  longSymbols.all fun t => !s.isPrefixOf t.toList || (t.toList.drop s.length).head?.all extendsSymbol

theorem extendsSymbol_of_isClosedSymbol {s : List Char} (hs : isClosedSymbol s = true)
    (ht : t ∈ longSymbols) (hst : s.isPrefixOf t.toList = true) :
    ∀ c ∈ (t.toList.drop s.length).head?, extendsSymbol c = true := by
  have ho := all_eq_true.1 hs t ht
  rw [hst] at ho
  intro c hc
  rw [hc] at ho
  exact ho

theorem isPrefixOf_append (hr : Halts q r) {p a : List Char}
    (hp : a.isPrefixOf p = true → ∀ c ∈ (p.drop a.length).head?, q c = true) :
    p.isPrefixOf (a ++ r) = p.isPrefixOf a := by
  induction p generalizing a with
  | nil => rfl
  | cons c p ih =>
    cases a with
    | nil =>
      have hc : q c = true := hp rfl c rfl
      cases r with
      | nil => rfl
      | cons d r =>
        have hne : c ≠ d := by
          rintro rfl
          rw [hr c rfl] at hc
          cases hc
        simp [List.isPrefixOf, hne]
    | cons d a =>
      rw [cons_append, List.isPrefixOf, List.isPrefixOf]
      by_cases hcd : c = d
      · subst hcd
        rw [ih fun h => hp (by rw [List.isPrefixOf, beq_self_eq_true, h]; rfl)]
      · rw [beq_eq_false_iff_ne.2 hcd, Bool.false_and, Bool.false_and]

theorem startsWith_symbol {s : List Char} (hs : isClosedSymbol s = true) (hr : Halts extendsSymbol r)
    (p : Place) (ht : t ∈ longSymbols) : Cursor.startsWith ⟨s ++ r, p⟩ t = t.toList.isPrefixOf s :=
  isPrefixOf_append hr (extendsSymbol_of_isClosedSymbol hs ht)

theorem find?_symbol {s : List Char} (hs : isClosedSymbol s = true) (hr : Halts extendsSymbol r) (p : Place)
    (hts : ts ⊆ longSymbols) :
    ts.find? (Cursor.startsWith ⟨s ++ r, p⟩) = ts.find? (·.toList.isPrefixOf s) := by
  induction ts with
  | nil => rfl
  | cons t ts ih =>
    obtain ⟨ht, hts⟩ := cons_subset.1 hts
    rw [find?_cons, find?_cons, startsWith_symbol hs hr p ht, ih hts]

theorem lexeme_symbol (p : Place) (hq : isQuote ch = false) (hd : ch.isDigit = false)
    (hw : startsWord ch = false) (hdo : ch = '.' → Halts Char.isDigit r) :
    lexeme ch ⟨ch :: r, p⟩ = symbol ⟨ch :: r, p⟩ := by
  have hp : (ch == '.' && (r.head?.map Char.isDigit).getD false) = false := by
    by_cases h : ch = '.'
    · cases r with
      | nil => simp
      | cons c r => simp [hdo h c rfl]
    · simp [h]
  unfold lexeme
  dsimp only [Cursor.advance, Cursor.peek?]
  rw [if_neg, if_neg, if_neg]
  · rw [hw]
    exact Bool.false_ne_true
  · rw [hd, hp]
    rintro (⟨⟨⟩⟩ | ⟨⟨⟩⟩)
  · rintro (rfl | rfl)
    · cases hq
    · cases hq

/-- Among the symbols that an operator starts with, it is the one that is taken. -/
theorem symbol_operator (hs : s ∈ operatorSymbols) (hr : Halts extendsSymbol r) (p : Place) :
    ∃ p', symbol ⟨s.toList ++ r, p⟩ = .ok (.operator s, ⟨r, p'⟩) := by
  have ha : ∀ s ∈ operatorSymbols, isClosedSymbol s.toList = true
      ∧ augmentedSymbols.find? (·.toList.isPrefixOf s.toList) = none ∧ "->".toList.isPrefixOf s.toList = false
      ∧ operatorSymbols.find? (·.toList.isPrefixOf s.toList) = some s := by decide
  obtain ⟨hc, hau, har, hf⟩ := ha s hs
  obtain ⟨p', hsk⟩ := Cursor.skip_mk s.length (s.toList ++ r) p
  refine ⟨p', ?_⟩
  unfold symbol
  rw [find?_symbol hc hr p (subset_append_left _ _), hau]
  rw [startsWith_symbol hc hr p (by simp [longSymbols]), har, if_neg Bool.false_ne_true,
    find?_symbol hc hr p (by simp [longSymbols]), hf]
  dsimp only
  rw [hsk, ← String.length_toList, drop_left]

/-- **Operators are spelled by their symbols.** -/
theorem lexes_operator (hs : s ∈ operatorSymbols) (hr : Halts extendsSymbol r) :
    ∃ ch tail, s.toList = ch :: tail ∧ Lexes ch tail (.operator s) r := by
  have ha : ∀ s ∈ operatorSymbols, s.toList.all (fun ch =>
      isQuote ch = false ∧ ch.isDigit = false ∧ startsWord ch = false ∧ ch ≠ '.') = true := by decide
  have hn : ∀ s ∈ operatorSymbols, s.toList ≠ [] := by decide
  obtain ⟨ch, tail, ht⟩ := exists_cons_of_ne_nil (hn s hs)
  obtain ⟨hq, hd, hw, hdo⟩ := forall_of_all (ha s hs) ch (by rw [ht]; exact mem_cons_self)
  refine ⟨ch, tail, ht, fun p => ?_⟩
  obtain ⟨p', hsy⟩ := symbol_operator hs hr p
  refine ⟨p', ?_⟩
  rw [lexeme_symbol p hq hd hw fun h => absurd h hdo, ← cons_append, ← ht, hsy]

def markChars : List Char :=
  ['=', '.', ':', ',', ';', '(', '[', '\x7b', ')', ']', '\x7d']

theorem mem_markChars (hm : Scanner.markOf? ch = some m) : ch ∈ markChars := by
  unfold Scanner.markOf? at hm
  split at hm
  case h_12 => cases hm
  all_goals decide

/-- **Punctuation is spelled by its character.** A point keeps clear of digits. -/
theorem lexes_mark {m : Mark} (hm : Scanner.markOf? ch = some m) (hr : Halts extendsSymbol r)
    (hdo : ch = '.' → Halts Char.isDigit r) : Lexes ch [] (.mark m) r := by
  have hs : ∀ ch ∈ markChars, isQuote ch = false ∧ ch.isDigit = false ∧ startsWord ch = false :=
    forall_of_all (by decide)
  have hc : ∀ ch ∈ markChars, isClosedSymbol [ch] = true := all_eq_true.1 (by decide)
  have hn : ∀ ch ∈ markChars, augmentedSymbols.find? (·.toList.isPrefixOf [ch]) = none ∧
      "->".toList.isPrefixOf [ch] = false ∧ operatorSymbols.find? (·.toList.isPrefixOf [ch]) = none :=
    forall_of_all (by decide)
  have hch := mem_markChars hm
  obtain ⟨hq, hd, hw⟩ := hs ch hch
  obtain ⟨ha, har, ho⟩ := hn ch hch
  intro p
  refine ⟨p.after ch, ?_⟩
  rw [nil_append, lexeme_symbol p hq hd hw hdo, ← singleton_append]
  unfold symbol
  rw [find?_symbol (hc ch hch) hr p (subset_append_left _ _), ha]
  rw [startsWith_symbol (hc ch hch) hr p (by simp [longSymbols]), har, if_neg Bool.false_ne_true,
    find?_symbol (hc ch hch) hr p (by simp [longSymbols]), ho]
  dsimp only [Cursor.peek?, singleton_append, head?_cons, Option.getD_some]
  rw [hm]
  rfl

end Playback.Source
