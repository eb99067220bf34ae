import Playback.Proofs.Lexing
import Playback.Source.Statement

/-!
# What reading a text gives

The readers keep a row of lexemes as it came from the text: they take lexemes from its front and never its end. What
they give has the shape that `Fits` describes. The shapes of lists come from the order in which the readers go on: an
argument without a keyword is refused after one with a keyword, and `not` after `is` belongs to the same marker.
-/

namespace Playback.Source

open Reader List

/-! ## Rows of lexemes -/

/-- The end of a row of lexemes as a text holds it. -/
structure Row (al : Token → Prop) (ls : List Located) : Prop where
  proper : ∀ l ∈ ls, l.lexeme.Proper
  floats : ∀ l ∈ ls, ∀ x, l.lexeme = .float x → al (.number (.float x))
  ends : ls.getLast?.map (·.lexeme) = some (.mark .endOfFile)

variable {al : Token → Prop}

variable {ls : List Located} {m : Mark} {α β : Type} {f : α → Reader β} {r : Reader α}

namespace Row

theorem ne_nil (h : Row al ls) : ls ≠ [] := by
  rintro rfl
  cases h.ends

theorem tail (h : Row al (l :: ls)) (hl : l.lexeme ≠ .mark .endOfFile) : Row al ls := by
  refine ⟨(forall_mem_cons.1 h.proper).2, (forall_mem_cons.1 h.floats).2, ?_⟩
  cases ls with
  | nil => exact absurd (Option.some.inj h.ends) hl
  | cons _ r =>
    have he := h.ends
    rwa [getLast?_cons_cons] at he

end Row

theorem name_of_proper {l : Lexeme} (h : l.Proper) (hl : l = .name s) : IsName s := by
  subst hl
  exact h

/-! ## Readers -/

/-- From a row as a text holds it, a reader gives something with a property and leaves such a row, which is no
longer. -/
def Reads {α : Type} (al : Token → Prop) (r : Reader α) (q : α → Prop) : Prop :=
  ∀ ls, Row al ls → Yields (r ls) fun x => q x.1 ∧ Row al x.2 ∧ x.2.length ≤ ls.length

namespace Reads

variable {q : α → Prop}

theorem pure (h : q a) : Reads al (Pure.pure a) q :=
  fun _ hls => .ok ⟨h, hls, Nat.le_refl _⟩

theorem throw (e : ReadError) : Reads al (throw e) q :=
  fun _ _ => .error e

theorem bind (hr : Reads al r q) (hf : ∀ a, q a → Reads al (f a) q') : Reads al (r >>= f) q' := by
  intro ls hls
  refine (hr ls hls).bind fun x hx y hy => ?_
  obtain ⟨hq, hro, hl⟩ := hf x.1 hx.1 x.2 hx.2.1 y hy
  exact ⟨hq, hro, Nat.le_trans hl hx.2.2⟩

theorem weaken (hr : Reads al r p) (h : ∀ a, p a → q a) : Reads al r q :=
  fun ls hls x hx => (hr ls hls x hx).imp_left (h x.1)

theorem choose {c : β → Prop} [∀ b, Decidable (c b)] {r' : Reader α} (ht : Reads al t fun _ => True)
    (hr : Reads al r q) (hr' : Reads al r' q) : Reads al (t >>= fun b => if c b then r else r') q := by
  refine ht.bind fun b _ => ?_
  split
  · exact hr
  · exact hr'

theorem guarded {c : β → Prop} [∀ b, Decidable (c b)] {first : Reader PUnit} (ht : Reads al t fun _ => True)
    (hf : Reads al first fun _ => True) (hr : Reads al r q) :
    Reads al (t >>= fun b => if c b then first >>= fun _ => r else r) q :=
  ht.choose (hf.bind fun _ _ => hr) hr

theorem peek : Reads al peek fun l =>
    l.lexeme.Proper ∧ ∀ x, l.lexeme = .float x → al (.number (.float x)) := by
  intro ls hls
  refine .ok ⟨?_, hls, Nat.le_refl _⟩
  cases ls with
  | nil => exact ⟨trivial, nofun⟩
  | cons l r => exact ⟨hls.proper l mem_cons_self, hls.floats l mem_cons_self⟩

theorem peekSecond? : Reads al peekSecond? fun _ => True :=
  fun _ hls => .ok ⟨trivial, hls, Nat.le_refl _⟩

theorem remaining : Reads al remaining fun _ => True :=
  fun _ hls => .ok ⟨trivial, hls, Nat.le_refl _⟩

theorem get : Reads al get fun _ => True :=
  fun _ hls => .ok ⟨trivial, hls, Nat.le_refl _⟩

theorem lift (x : Except ReadError α) : Reads al (liftM x : Reader α) fun _ => True := by
  intro ls hls
  exact .bind (.any x) fun _ _ => .ok ⟨trivial, hls, Nat.le_refl _⟩

theorem advance : Reads al advance fun _ => True := by
  intro ls hls
  cases ls with
  | nil => exact absurd rfl hls.ne_nil
  | cons l r =>
    change Yields ((if !l.lexeme.isMark .endOfFile then modify List.tail else Pure.pure () : Reader Unit) (l :: r)) _
    split
    · rename_i hl
      refine .ok ⟨trivial, hls.tail fun he => ?_, Nat.le_succ _⟩
      rw [he] at hl
      cases hl
    · exact .ok ⟨trivial, hls, Nat.le_refl _⟩

theorem fail (e : SyntaxFault) : Reads al (fail e : Reader α) q :=
  peek.bind fun _ _ => throw _

theorem reject (feature : Feature) : Reads al (reject feature : Reader α) q :=
  peek.bind fun _ _ => throw _

theorem unexpected (expected : String) : Reads al (unexpected expected : Reader α) q :=
  peek.bind fun _ _ => fail _

theorem sees (m : Mark) : Reads al (sees m) fun _ => True :=
  peek.bind fun _ _ => pure trivial

theorem past (hr : Reads al r q) : Reads al (do Reader.advance; r) q :=
  advance.bind fun _ _ => hr

theorem eat (m : Mark) : Reads al (eat m) fun _ => True :=
  (sees m).choose (past (pure trivial)) (pure trivial)

theorem expect (m : Mark) (expected : String) : Reads al (expect m expected) fun _ => True :=
  (eat m).choose (unexpected expected) (pure trivial)

theorem pastMark (hr : Reads al r q) : Reads al (do Reader.expect m expected; r) q :=
  (expect m expected).bind fun _ _ => hr

theorem expectKeyword (k : Keyword) : Reads al (expectKeyword k) fun _ => True := by
  refine peek.bind fun l _ => ?_
  split
  · exact advance
  · exact unexpected _

theorem expectName : Reads al expectName IsName := by
  refine peek.bind fun l hl => ?_
  split
  · rename_i s hs
    exact past (pure (name_of_proper hl.1 hs))
  · exact unexpected _

theorem expectNewline : Reads al expectNewline fun _ => True :=
  (sees .semicolon).guarded (fail _) (expect _ _)

theorem furtherItems (stop : Lexeme → Bool) (hi : Reads al item q) (n : Nat) :
    Reads al (furtherItems stop item n) fun xs => ∀ x ∈ xs, q x := by
  induction n with
  | zero => exact pure nofun
  | succ n ih =>
    refine (eat .comma).choose (pure nofun) (peek.bind fun l _ => ?_)
    split
    · exact pure nofun
    · exact hi.bind fun x hx => ih.bind fun xs hxs => pure (forall_mem_cons.2 ⟨hx, hxs⟩)

theorem more (stop : Lexeme → Bool) (hi : Reads al item q) : Reads al (more stop item) fun xs => ∀ x ∈ xs, q x :=
  remaining.bind fun n _ => furtherItems stop hi n

theorem closedItems {i : List α → Prop}
    (hi : ∀ found, i found → Reads al (item found) fun x => i (x :: found)) (n : Nat) (found : List α) (hf : i found) :
    Reads al (closedItems b expected item n found) fun xs => i xs.reverse := by
  induction n generalizing found with
  | zero => exact pure (by rwa [reverse_reverse])
  | succ n ih =>
    refine (eat (.closing b)).choose (pure (by rwa [reverse_reverse])) ?_
    refine (hi found hf).bind fun x hx => (eat .comma).choose (ih (x :: found) hx) ?_
    exact pastMark (pure (by rwa [reverse_reverse]))

theorem items (b : Bracket) (expected : String) {i : List α → Prop} (hn : i [])
    (hi : ∀ found, i found → Reads al (item found) fun x => i (x :: found)) :
    Reads al (items b expected item) fun xs => i xs.reverse :=
  remaining.bind fun n _ => closedItems hi n [] hn

end Reads

theorem bind_congr_left (h : r ls = r' ls) : (r >>= f) ls = (r' >>= f) ls := by
  change (r ls >>= fun x => f x.1 x.2) = (r' ls >>= fun x => f x.1 x.2)
  rw [h]

/-! ## Flat rows -/

variable {l : Lexeme}

theorem prefixSymbol?_mem (h : prefixSymbol? l = some sym) :
    sym ∈ prefixSymbols ∧ l ≠ .mark .endOfFile ∧ (sym = "not" → l = .keyword .not_) := by
  unfold prefixSymbol? at h
  split at h
  iterate 3
    · cases h
      exact ⟨by decide, nofun, fun hn => absurd hn (by decide)⟩
  · cases h
    exact ⟨by decide, nofun, fun _ => rfl⟩
  · cases h

/-- Whether `not` does not come next. -/
def NoNot (ls : List Located) : Prop :=
  ∀ l ∈ ls.head?, l.lexeme ≠ .keyword .not_

/-- Markers in front of an operand fit, also after `is`, where `not` does not come first. -/
theorem prefixRow_fits (hls : Row al ls) (hn : afterIs = true → NoNot ls) :
    Row al (prefixRow ls).2 ∧ (prefixRow ls).2.length ≤ ls.length
      ∧ ∀ row, (∀ b, RowFits al b row) → RowFits al afterIs ((prefixRow ls).1 ++ row) := by
  induction ls generalizing afterIs with
  | nil => exact absurd rfl hls.ne_nil
  | cons l r ih =>
    unfold prefixRow
    split
    · rename_i sym hs
      obtain ⟨hme, he, hw⟩ := prefixSymbol?_mem hs
      have hp : false = true → NoNot r := nofun
      obtain ⟨hr, hl, hf⟩ := ih (hls.tail he) hp
      refine ⟨hr, Nat.le_succ_of_le hl, fun row h => ?_⟩
      exact .marked hme (fun his heq => hn his l rfl (hw heq)) (hf row h)
    · exact ⟨hls, Nat.le_refl _, fun row h => h afterIs⟩

/-- A marker after an operand is one lexeme or two, and `is` alone has no `not` after it. -/
theorem infixSymbol?_mem {next : Lexeme} {second : Option Lexeme} {n : Nat} (hn : next.Proper)
    (h : infixSymbol? next second = some (sym, n)) :
    sym ∈ infixSymbols ∧ next ≠ .mark .endOfFile ∧ (n = 1 ∧ (sym = "is" → second ≠ some (.keyword .not_))
        ∨ n = 2 ∧ sym ≠ "is" ∧ ∃ k, second = some (.keyword k)) := by
  unfold infixSymbol? at h
  split at h
  · cases h
  · rename_i sym' hne
    cases h
    have hme : sym ∈ infixSymbols :=
      mem_append_left _ ((mem_erase_of_ne hne).2 hn)
    have hs : sym ∈ operatorSymbols := hn
    exact ⟨hme, nofun, .inl ⟨rfl, fun his => absurd (his ▸ hs) (by decide)⟩⟩
  iterate 3
    · cases h
      exact ⟨by decide, nofun, .inl ⟨rfl, fun his => absurd his (by decide)⟩⟩
  · cases h
    exact ⟨by decide, nofun, .inr ⟨rfl, by decide, .not_, rfl⟩⟩
  · rename_i hno
    cases h
    exact ⟨by decide, nofun, .inl ⟨rfl, fun _ => hno⟩⟩
  · cases h
    exact ⟨by decide, nofun, .inr ⟨rfl, by decide, .in_, rfl⟩⟩
  · cases h

theorem isKeyword_eq_false (h : l ≠ .keyword k) : l.isKeyword k = false := by
  cases l with
  | keyword _ => exact beq_eq_false_iff_ne.2 fun heq => h (congrArg _ heq)
  | _ => rfl

theorem advance_cons {l : Located} (hl : l.lexeme ≠ .mark .endOfFile) (r : List Located) :
    advance (l :: r) = .ok ((), r) := by
  change ((if !l.lexeme.isMark .endOfFile then modify List.tail else Pure.pure () : Reader Unit) (l :: r)) = _
  rw [isMark_eq_false hl]
  rfl

def takeMarker : Option (String × Nat) → Reader (Option String)
  | none => return none
  | some (sym, 1) => do
    advance
    return some sym
  | some (sym, _) => do
    advance
    advance
    return some sym

theorem infixMarker?_cons (l : Located) (r : List Located) :
    infixMarker? (l :: r) = takeMarker (infixSymbol? l.lexeme (r.head?.map (·.lexeme))) (l :: r) :=
  rfl

theorem infixMarker?_fits (hls : Row al ls) : Yields (infixMarker? ls) fun x => Row al x.2 ∧ x.2.length ≤ ls.length
      ∧ ∀ sym ∈ x.1, sym ∈ infixSymbols ∧ x.2.length < ls.length ∧ (sym = "is" → NoNot x.2) := by
  cases ls with
  | nil => exact absurd rfl hls.ne_nil
  | cons l r =>
    rw [infixMarker?_cons]
    cases hma : infixSymbol? l.lexeme (r.head?.map (·.lexeme)) with
    | none => exact .ok ⟨hls, Nat.le_refl _, nofun⟩
    | some marker =>
      obtain ⟨sym, n⟩ := marker
      obtain ⟨hme, he, ⟨rfl, hn⟩ | ⟨rfl, his, k, hk⟩⟩ :=
        infixSymbol?_mem (hls.proper l mem_cons_self) hma
      · change Yields (advance (l :: r) >>= fun x => .ok (some sym, x.2)) _
        rw [advance_cons he]
        refine .ok ⟨hls.tail he, Nat.le_succ _, ?_⟩
        rintro _ ⟨⟩
        refine ⟨hme, Nat.lt_succ_self _, fun heq l' hl' hw => hn heq ?_⟩
        rw [hl', Option.map_some, hw]
      · obtain ⟨l', hl', hw⟩ := Option.map_eq_some_iff.1 hk
        obtain ⟨r, rfl⟩ := head?_eq_some_iff.1 hl'
        have he' : l'.lexeme ≠ .mark .endOfFile := by
          rw [hw]
          nofun
        change Yields (advance (l :: l' :: r) >>= fun x => advance x.2 >>= fun y => .ok (some sym, y.2)) _
        rw [advance_cons he]
        change Yields (advance (l' :: r) >>= fun y => .ok (some sym, y.2)) _
        rw [advance_cons he']
        refine .ok ⟨(hls.tail he).tail he', by simp only [length_cons]; omega, ?_⟩
        rintro _ ⟨⟩
        exact ⟨hme, by simp only [length_cons]; omega, fun heq => absurd heq his⟩

/-- The row so far and an operand, and what the marker after the operand brings. -/
def rowAfter (operand : Reader Token) (fuel : Nat) (row : List Token) (t : Token) : Option String → Reader (List Token)
  | none => return row ++ [t]
  | some sym => return row ++ t :: .operator sym :: (← operandRow operand fuel)

theorem operandRow_succ (a : Reader Token) (n : Nat) (ls : List Located) :
    operandRow a (n + 1) ls = a (prefixRow ls).2 >>= fun x =>
      infixMarker? x.2 >>= fun y => rowAfter a n (prefixRow ls).1 x.1 y.1 y.2 :=
  rfl

/-- **A row of operands and markers fits.** Every marker takes a lexeme, so the number of lexemes is fuel enough. -/
theorem operandRow_fits {a : Reader Token} {afterIs : Bool} (ho : Reads al a (Token.Fits al)) (n : Nat)
    (hls : Row al ls) (hf : ls.length ≤ n) (hn : afterIs = true → NoNot ls) : Yields (operandRow a n ls) fun x =>
      RowFits al afterIs x.1 ∧ Row al x.2 ∧ x.2.length ≤ ls.length := by
  induction n generalizing ls afterIs with
  | zero => exact absurd (length_eq_zero_iff.1 (Nat.le_zero.1 hf)) hls.ne_nil
  | succ n ih =>
    obtain ⟨hp, hl, hma⟩ := prefixRow_fits hls hn
    refine (ho _ hp).bind fun x hx => (infixMarker?_fits hx.2.1).bind fun y hy => ?_
    obtain ⟨marker, af⟩ := y
    obtain ⟨hr, hs, hsy⟩ := hy
    have ha : af.length ≤ ls.length := Nat.le_trans hs (Nat.le_trans hx.2.2 hl)
    cases marker with
    | none => exact .ok ⟨hma _ fun b => .last hx.1, hr, ha⟩
    | some sym =>
      obtain ⟨hme, ht, his⟩ := hsy sym rfl
      have hle : af.length ≤ n := by
        dsimp only at ht
        omega
      have hn' : (sym == "is") = true → NoNot af := fun h => his (beq_iff_eq.1 h)
      refine (ih hr hle hn').bind fun z hz => .ok ?_
      exact ⟨hma _ fun b => .joined hx.1 hme hz.1, hz.2.1, Nat.le_trans hz.2.2 ha⟩

theorem flatExpression_fits (ho : Reads al a (Token.Fits al)) : Reads al (flatExpression a) (RowFits al false) := by
  have hr : Reads al (do operandRow a (← remaining)) (RowFits al false) := fun ls hls =>
    operandRow_fits ho ls.length hls (Nat.le_refl _) nofun
  unfold flatExpression
  rw [← bind_assoc]
  refine hr.bind fun _ hr => Reads.peek.bind fun l _ => ?_
  split
  · exact .fail _
  · exact .fail _
  · exact .pure hr

/-! ## Operands -/

theorem stringRow_keeps (hls : Row al ls) : Row al (stringRow ls).2 ∧ (stringRow ls).2.length ≤ ls.length := by
  induction ls with
  | nil => exact absurd rfl hls.ne_nil
  | cons l r ih =>
    unfold stringRow
    split
    · rename_i heq
      cases heq
      obtain ⟨hr, hl⟩ := ih (hls.tail nofun)
      exact ⟨hr, Nat.le_succ_of_le hl⟩
    · exact ⟨hls, Nat.le_refl _⟩

/-- An argument without a keyword may stand after those before it where the last of them has none. -/
theorem keywordsLast_concat (hf : KeywordsLast found.reverse)
    (ha : a.isKeyword = false → ∀ b ∈ found.head?, b.isKeyword = false) : KeywordsLast (a :: found).reverse := by
  rw [KeywordsLast, pairwise_reverse] at hf ⊢
  refine pairwise_cons.2 ⟨fun b hb hk => ?_, hf⟩
  cases found with
  | nil => cases hb
  | cons z r =>
    have hl : z.isKeyword = true := by
      obtain rfl | hr := mem_cons.1 hb
      · exact hk
      · exact (pairwise_cons.1 hf).1 b hr hk
    cases hp : a.isKeyword with
    | true => rfl
    | false => exact absurd hl (Bool.eq_false_iff.1 (ha hp z rfl))

section

variable {inn : Reader Expression} (hin : Reads al inn (RowFits al false))

include hin

theorem argument_fits (bf : List Argument) : Reads al (argument inn bf) fun a =>
      a.Fits al ∧ (a.isKeyword = false → ∀ b ∈ bf.head?, b.isKeyword = false) := by
  refine Reads.peek.bind fun l hl => Reads.peekSecond?.bind fun _ _ => ?_
  split
  · exact .fail _
  · exact .fail _
  · rename_i x hn
    exact .past (.past (hin.bind fun row hr => .pure ⟨.keyword (name_of_proper hl.1 hn) hr, nofun⟩))
  · split
    · exact .fail _
    · rename_i hbe
      refine hin.bind fun row hr => .pure ⟨.positional hr, fun _ b hb => ?_⟩
      cases b with
      | positional v => rfl
      | keyword x v =>
        obtain ⟨r, hre⟩ := head?_eq_some_iff.1 hb
        exact absurd hre (hbe x v r)

theorem arguments_fits : Reads al (arguments inn) fun as => (∀ a ∈ as, a.Fits al) ∧ KeywordsLast as := by
  have hi : Reads al (arguments inn) fun as =>
      (∀ a ∈ as.reverse, a.Fits al) ∧ KeywordsLast as.reverse.reverse := by
    refine Reads.items (i := fun found => (∀ a ∈ found, a.Fits al) ∧ KeywordsLast found.reverse) .round _
      ⟨nofun, .nil⟩ fun found hf => ?_
    exact (argument_fits hin found).weaken fun a ha =>
      ⟨forall_mem_cons.2 ⟨ha.1, hf.1⟩, keywordsLast_concat hf.2 ha.2⟩
  refine hi.weaken fun as har => ⟨fun a ha => har.1 a (mem_reverse.2 ha), ?_⟩
  rw [← reverse_reverse as]
  exact har.2

theorem parenthesized_fits : Reads al (parenthesized inn) (Token.Fits al) := by
  refine (Reads.eat _).choose (.pure (.tuple nofun)) (hin.bind fun _ hf => ?_)
  refine (Reads.eat _).choose (.pure (.bracket hf)) ?_
  exact (Reads.sees _).guarded (.unexpected _) ((Reads.more _ hin).bind fun r hr =>
    .pastMark (.pure (.tuple (forall_mem_cons.2 ⟨hf, hr⟩))))

theorem entry_fits : Reads al (entry inn) (Entry.Fits al) :=
  hin.bind fun _ hk => .pastMark (hin.bind fun _ hv => .pure (.pair hk hv))

theorem braced_fits : Reads al (braced inn) (Token.Fits al) := by
  refine (Reads.eat _).choose (.pure (.dict nofun)) (hin.bind fun _ hf => (Reads.eat _).choose ?_ ?_)
  · exact hin.bind fun v hv => (Reads.more _ (entry_fits hin)).bind fun r hr =>
      .pastMark (.pure (.dict (forall_mem_cons.2 ⟨.pair hf hv, hr⟩)))
  · exact (Reads.more _ hin).bind fun r hr => .pastMark (.pure (.set (forall_mem_cons.2 ⟨hf, hr⟩) nofun))

theorem atom_fits : Reads al (atom inn) (Token.Fits al) := by
  refine Reads.peek.bind fun l hl => ?_
  split
  · rename_i i hi
    have hp := hl.1
    rw [hi] at hp
    exact .past (.pure (.int hp))
  · rename_i x hx
    exact .past (.pure (.float (hl.2 x hx)))
  · have hst : Reads al (modifyGet stringRow : Reader (List String)) fun _ => True := fun _ hls =>
      .ok ⟨trivial, stringRow_keeps hls⟩
    exact hst.bind fun _ _ => .pure (.string _)
  · exact .past (.pure (.bool true))
  · exact .past (.pure (.bool false))
  · exact .past (.pure .none)
  · rename_i s hs
    have hn := name_of_proper hl.1 hs
    refine .past ((Reads.eat _).choose ?_ (.pure (.name hn)))
    exact (arguments_fits hin).bind fun _ ha => .pure (.call hn ha.1 ha.2)
  · exact .past (parenthesized_fits hin)
  · have hie : Reads al (items .square "',' or ']'" fun _ => inn) fun rows =>
        ∀ row ∈ rows.reverse, RowFits al false row :=
      Reads.items (i := fun rows => ∀ row ∈ rows, RowFits al false row) _ _ nofun fun _ hf =>
        hin.weaken fun row hr => forall_mem_cons.2 ⟨hr, hf⟩
    exact .past (hie.bind fun rows hro => .pure (.list fun row hr => hro row (mem_reverse.2 hr)))
  · exact .past (braced_fits hin)
  · exact .fail _
  · exact .unexpected _

theorem bound_fits (isOpen : Lexeme → Bool) :
    Reads al (bound inn isOpen) fun row => row ≠ [] → RowFits al false row := by
  refine Reads.peek.bind fun l _ => ?_
  split
  · exact .pure (absurd rfl)
  · exact hin.weaken fun _ hr _ => hr

/-- A subscript without a colon has a key, because its first bound is left open before a colon only. -/
theorem subscript_fits (ho : object.Fits al) : Reads al (subscript inn object) (Token.Fits al) := by
  have hsl {start : Expression} (hs : start ≠ [] → RowFits al false start) : Reads al (do
      let stop ← bound inn fun l => l.isMark .colon || l.isMark (.closing .square)
      if ← sees .colon then
        reject .sliceSteps
      expect (.closing .square) "']'"
      return Token.slice object start stop) (Token.Fits al) := by
    refine (bound_fits hin _).bind fun stop hst => (Reads.sees _).guarded (.reject _) ?_
    exact .pastMark (.pure (.slice ho hs hst))
  have hk {start : Expression} (hs : RowFits al false start) : Reads al (do
      let key ← if ← sees .comma then
          let r ← more (Lexeme.isMark (.closing .square)) inn
          pure [Token.tuple (start :: r)]
        else pure start
      expect (.closing .square) "']'"
      return Token.subscript object key) (Token.Fits al) := by
    refine (Reads.sees _).choose ?_ (.pastMark (.pure (.subscript ho hs)))
    exact (Reads.more _ hin).bind fun r hr =>
      .pastMark (.pure (.subscript ho (.last (.tuple (forall_mem_cons.2 ⟨hs, hr⟩)))))
  intro ls hls
  cases ls with
  | nil => exact absurd rfl hls.ne_nil
  | cons l r =>
    by_cases hc : l.lexeme = .mark .colon
    · obtain ⟨lexeme, p⟩ := l
      obtain rfl : lexeme = .mark .colon := hc
      have hop : ([] : Expression) ≠ [] → RowFits al false [] := absurd rfl
      intro x hx
      obtain ⟨hf, hro, hl⟩ := hsl hop r (hls.tail nofun) x hx
      exact ⟨hf, hro, Nat.le_succ_of_le hl⟩
    · have hb : bound inn (Lexeme.isMark .colon) (l :: r) = inn (l :: r) := by
        change (if l.lexeme.isMark .colon then pure [] else inn : Reader Expression) (l :: r) = _
        rw [if_neg fun h => hc (isMark_iff.1 h)]
      change Yields ((bound inn (Lexeme.isMark .colon) >>= _) (l :: r)) _
      rw [bind_congr_left hb]
      exact Reads.bind hin (fun start hs => (Reads.eat _).choose (hsl fun _ => hs) (hk hs)) (l :: r) hls

end

/-! ## Expressions -/

section

variable (hm : ∀ object member args, al (.member object member) ∧ al (.callMember object member args))

include hm

/-- Expressions and what follows their operands fit, by induction on the levels left. -/
theorem expression_and_trailers_fit (k : Nat) : Reads al (expression k) (RowFits al false)
      ∧ ∀ t, t.Fits al → Reads al (trailers k t) (Token.Fits al) := by
  induction k with
  | zero =>
    refine ⟨.fail _, fun t ht => Reads.peek.bind fun l _ => ?_⟩
    split
    · exact .fail _
    · exact .fail _
    · exact .fail _
    · exact .pure ht
  | succ k ih =>
    obtain ⟨he, htr⟩ := ih
    refine ⟨flatExpression_fits ((atom_fits he).bind htr), fun t ht => Reads.peek.bind fun l _ => ?_⟩
    split
    · refine .past (Reads.expectName.bind fun m hn => (Reads.eat _).choose ?_ (htr _ (.member ht (hm t m []).1 hn)))
      exact (arguments_fits he).bind fun as ha => htr _ (.callMember ht (hm t m as).2 hn ha.1 ha.2)
    · exact .past ((subscript_fits he ht).bind htr)
    · exact .fail _
    · exact .pure ht

theorem wholeExpression_fits : Reads al wholeExpression (RowFits al false) :=
  (expression_and_trailers_fit hm _).1

theorem wholeOperand_fits : Reads al wholeOperand (Token.Fits al) :=
  (atom_fits (expression_and_trailers_fit hm _).1).bind (expression_and_trailers_fit hm _).2

theorem expressionRow_fits : Reads al expressionRow (RowFits al false) := by
  refine (wholeExpression_fits hm).bind fun _ hf => (Reads.sees _).choose ?_ (.pure hf)
  exact (Reads.more _ (wholeExpression_fits hm)).bind fun r hr => .pure (.last (.tuple (forall_mem_cons.2 ⟨hf, hr⟩)))

end

/-! ## Simple statements -/

theorem rejectAlias_keeps : Reads al rejectAlias fun _ => True := by
  refine Reads.peek.bind fun l _ => ?_
  split
  · exact .reject _
  · exact .pure trivial

theorem dottedParts_fits (n : Nat) : Reads al (dottedParts n) fun parts => ∀ part ∈ parts, IsName part := by
  induction n with
  | zero => exact .pure nofun
  | succ n ih =>
    refine (Reads.eat _).choose ?_ (.pure nofun)
    exact Reads.expectName.bind fun part hpa => ih.bind fun parts hp => .pure (forall_mem_cons.2 ⟨hpa, hp⟩)

theorem IsName.dot_notMem (h : IsName s) : '.' ∉ s.toList := by
  intro hd
  obtain ⟨_, _, hs, -, ha⟩ := h.1
  rw [hs] at hd
  exact absurd (ha '.' hd) (by decide)

theorem isDotted_intercalate (hso : parts ≠ []) (hp : ∀ part ∈ parts, IsName part) :
    IsDotted (".".intercalate parts) := by
  have hs : nameParts (".".intercalate parts) = parts := by
    have hd : ∀ l ∈ parts.map String.toList, '.' ∉ l := by
      intro l hl
      obtain ⟨part, hpa, rfl⟩ := mem_map.1 hl
      exact (hp part hpa).dot_notMem
    have hpo : ".".toList = ['.'] := rfl
    rw [nameParts, String.toList_intercalate, hpo, splitOn_intercalate '.' hd (by simpa using hso)]
    simp
  rw [IsDotted, hs]
  exact hp

theorem dottedName_fits : Reads al dottedName IsDotted :=
  Reads.expectName.bind fun _ hf => Reads.remaining.bind fun n _ => (dottedParts_fits n).bind
    fun _ hr => rejectAlias_keeps.bind fun _ _ =>
      .pure (isDotted_intercalate nofun (forall_mem_cons.2 ⟨hf, hr⟩))

theorem importStatement_fits : Reads al importStatement (Statement.Fits al) :=
  .past (dottedName_fits.bind fun _ hf => (Reads.more _ dottedName_fits).bind fun _ hr =>
    .pure (.import_ nofun (forall_mem_cons.2 ⟨hf, hr⟩)))

theorem importedName_fits : Reads al importedName IsName := by
  refine Reads.peek.bind fun l _ => ?_
  split
  · exact .fail _
  · exact Reads.expectName.bind fun x hn => rejectAlias_keeps.bind fun _ _ => .pure hn

theorem fromImportStatement_fits : Reads al fromImportStatement (Statement.Fits al) := by
  refine .past (dottedName_fits.bind fun _ hmo => (Reads.expectKeyword _).bind fun _ _ => ?_)
  refine (Reads.eat _).bind fun _ _ => importedName_fits.bind fun _ hf => ?_
  refine (Reads.more _ importedName_fits).bind fun r hr => ?_
  have hs : Statement.Fits al _ := .fromImport hmo (cons_ne_nil _ _) (forall_mem_cons.2 ⟨hf, hr⟩)
  split
  · exact .pastMark (.pure hs)
  · exact .pure hs

section

variable (hm : ∀ object member args, al (.member object member) ∧ al (.callMember object member args))

include hm

theorem target_fits : Reads al target fun t => t.Fits al ∧ t.isTarget = true := by
  refine Reads.peek.bind fun l _ => (wholeOperand_fits hm).bind fun t ht => ?_
  split
  · exact .pure ⟨ht, rfl⟩
  · exact .pure ⟨ht, rfl⟩
  · exact .throw _
  · exact .throw _
  · exact .throw _

theorem targets_fit : Reads al targets (TargetsFit al) :=
  (target_fits hm).bind fun _ hf => (Reads.more _ (target_fits hm)).bind fun _ hr =>
    .pure ⟨cons_ne_nil _ _, forall_mem_cons.2 ⟨hf, hr⟩⟩

theorem expressionStatement_fits : Reads al expressionStatement (Statement.Fits al) := by
  refine Reads.get.bind fun _ _ => (Reads.lift _).bind fun _ _ => ?_
  split
  · exact (targets_fit hm).bind fun _ hp => .pastMark ((expressionRow_fits hm).bind fun v hv =>
      .pure (.assignment hp hv))
  · exact (expressionRow_fits hm).bind fun v hv => .pure (.expression hv)

omit hm in
theorem some_fits {s : Statement} (h : s.Fits al) : ∀ x ∈ (some s).toList, x.Fits al :=
  fun _ hx => mem_singleton.1 hx ▸ h

omit hm in
theorem Reads.some {r : Reader Statement} (h : Reads al r (Statement.Fits al)) :
    Reads al (do return some (← r)) fun s => ∀ x ∈ s.toList, x.Fits al :=
  h.bind fun _ hs => .pure (some_fits hs)

theorem simpleStatement_fits : Reads al simpleStatement fun s => ∀ x ∈ s.toList, x.Fits al := by
  have hb : Reads al simpleBody fun s => ∀ x ∈ s.toList, x.Fits al := by
    refine Reads.peek.bind fun l _ => ?_
    split
    · exact .past (.pure nofun)
    · exact .past (.pure (some_fits .break_))
    · exact .past (.pure (some_fits .continue_))
    · exact .past ((bound_fits (expressionRow_fits hm) _).bind fun v hv => .pure (some_fits (.return_ hv)))
    · exact importStatement_fits.some
    · exact fromImportStatement_fits.some
    · exact (expressionStatement_fits hm).some
  exact hb.bind fun s hs => Reads.expectNewline.bind fun _ _ => .pure hs

/-! ## Blocks -/

section

variable {inn : Reader (Option Statement)} (hin : Reads al inn fun s => ∀ x ∈ s.toList, x.Fits al)

include hin

omit hm in
theorem indented_fits (n : Nat) : Reads al (indented inn n) fun b => ∀ s ∈ b, s.Fits al := by
  induction n with
  | zero => exact .pure nofun
  | succ n ih =>
    refine (Reads.eat _).choose (.pure nofun) ((Reads.sees _).choose (.unexpected _) ?_)
    exact hin.bind fun s hs => ih.bind fun r hr => .pure (forall_mem_append.2 ⟨hs, hr⟩)

theorem block_fits : Reads al (block inn) fun b => ∀ s ∈ b, s.Fits al := by
  refine .pastMark ((Reads.eat _).choose ?_ ((simpleStatement_fits hm).bind fun s hs => .pure hs))
  exact (Reads.eat _).guarded (.fail _) (Reads.remaining.bind fun n _ => indented_fits hin n)

end

omit hm in
theorem parameter_fits (b : List String) : Reads al (parameter b) fun x => IsName x ∧ x ∉ b := by
  refine Reads.peek.bind fun l _ => Reads.peek.bind fun _ _ => Reads.peekSecond?.bind fun _ _ => ?_
  have hn : Reads al (do
      let x ← expectName
      if ← sees .assign then
        reject .defaultValues
      if ← sees .colon then
        reject .parameterAnnotations
      if b.contains x then
        throw (.invalid (.duplicateParameter x) l.place)
      return x) fun x => IsName x ∧ x ∉ b := by
    refine Reads.expectName.bind fun x hn => (Reads.sees _).guarded (.reject _) ?_
    refine (Reads.sees _).guarded (.reject _) ?_
    split
    · exact (Reads.throw (q := fun _ => False) _).bind fun _ h => h.elim
    · rename_i hf
      exact .pure ⟨hn, fun h => hf (contains_iff_mem.2 h)⟩
  split
  · split
    · split <;> exact (Reads.reject (q := fun _ => True) _).bind fun _ _ => hn
    · split
      · exact (Reads.reject (q := fun _ => True) _).bind fun _ _ => hn
      · exact hn
  · exact hn

section

variable {inn : Reader (List Statement)} (hin : Reads al inn fun body => ∀ s ∈ body, s.Fits al)

include hin

omit hm in
theorem functionStatement_fits : Reads al (functionStatement inn) (Statement.Fits al) := by
  have hpa : Reads al (items .round "',' or ')'" parameter) fun ps =>
      (∀ p ∈ ps.reverse, IsName p) ∧ ps.reverse.Nodup :=
    Reads.items (i := fun ps => (∀ p ∈ ps, IsName p) ∧ ps.Nodup) _ _ ⟨nofun, .nil⟩ fun found hf =>
      (parameter_fits found).weaken fun p hp =>
        ⟨forall_mem_cons.2 ⟨hp.1, hf.1⟩, nodup_cons.2 ⟨hp.2, hf.2⟩⟩
  refine .past (Reads.expectName.bind fun x hna => .pastMark (hpa.bind fun ps hpa => ?_))
  have hn : ∀ p ∈ ps, IsName p := fun p hp => hpa.1 p (mem_reverse.2 hp)
  have hd : ps.Nodup := (pairwise_reverse.1 hpa.2).imp Ne.symm
  exact (Reads.sees _).guarded (.reject _) (hin.bind fun b hb => .pure (.function hna hn hd hb))

theorem links_fit (n : Nat) : Reads al (links inn n) fun found =>
    (∀ k ∈ found, k.Fits al) ∧ found.Pairwise fun k _ => k.isElse = false := by
  induction n with
  | zero => exact .pure ⟨nofun, .nil⟩
  | succ n ih =>
    refine Reads.peek.bind fun l _ => ?_
    split
    · exact .past ((wholeExpression_fits hm).bind fun c hc => hin.bind fun b hb => ih.bind fun r hr =>
        .pure ⟨forall_mem_cons.2 ⟨.elif hc hb, hr.1⟩, pairwise_cons.2 ⟨fun _ _ => rfl, hr.2⟩⟩)
    · exact .past (hin.bind fun b hb =>
        .pure ⟨fun k hk => mem_singleton.1 hk ▸ .else_ hb, pairwise_singleton _ _⟩)
    · exact .pure ⟨nofun, .nil⟩

theorem conditionalStatement_fits : Reads al (conditionalStatement inn) (Statement.Fits al) :=
  .past ((wholeExpression_fits hm).bind fun _ hc => hin.bind fun _ hb => Reads.remaining.bind fun n _ =>
    (links_fit hm hin n).bind fun _ hl => .pure (.conditional hc hb hl.1 hl.2))

omit hm hin in
theorem rejectLoopElse_keeps : Reads al rejectLoopElse fun _ => True := by
  refine Reads.peek.bind fun l _ => ?_
  split
  · exact .reject _
  · exact .pure trivial

theorem whileStatement_fits : Reads al (whileStatement inn) (Statement.Fits al) :=
  .past ((wholeExpression_fits hm).bind fun _ hc => hin.bind fun _ hb =>
    rejectLoopElse_keeps.bind fun _ _ => .pure (.whileLoop hc hb))

theorem forStatement_fits : Reads al (forStatement inn) (Statement.Fits al) :=
  .past ((targets_fit hm).bind fun _ hp => (Reads.expectKeyword _).bind fun _ _ =>
    (expressionRow_fits hm).bind fun _ hi => hin.bind fun _ hb =>
      rejectLoopElse_keeps.bind fun _ _ => .pure (.forLoop hp hi hb))

end

theorem statement_fits (d : Nat) : Reads al (statement d) fun s => ∀ x ∈ s.toList, x.Fits al := by
  induction d with
  | zero => exact .fail _
  | succ d ih =>
    have hb := block_fits hm ih
    refine Reads.peek.bind fun l hl => ?_
    dsimp only
    split
    · rename_i t ht
      have hc : IsComment t := by
        have hp := hl.1
        rwa [ht] at hp
      exact .past (Reads.expectNewline.bind fun _ _ => .pure (some_fits (.comment hc)))
    · exact (functionStatement_fits hb).some
    · exact (conditionalStatement_fits hm hb).some
    · exact (whileStatement_fits hm hb).some
    · exact (forStatement_fits hm hb).some
    · exact .fail _
    · exact .fail _
    · exact .fail _
    · exact .fail _
    · exact simpleStatement_fits hm

theorem fileBody_fits (d n : Nat) : Reads al (fileBody (statement d) n) fun sc => ∀ s ∈ sc, s.Fits al := by
  induction n with
  | zero => exact .pure nofun
  | succ n ih =>
    refine (Reads.sees _).choose (.pure nofun) ?_
    exact (statement_fits hm d).bind fun s hs => ih.bind fun r hr => .pure (forall_mem_append.2 ⟨hs, hr⟩)

/-- **What reading a text gives fits**, where the doubles of the text are allowed and all members are. -/
theorem ofSource_fits {t : String} {sc : Script}
    (hl : lexemes t = .ok ls) (hf : ∀ l ∈ ls, ∀ x, l.lexeme = .float x → al (.number (.float x)))
    (hr : Script.ofSource t = .ok sc) : ∀ s ∈ sc, s.Fits al := by
  obtain ⟨hp, he⟩ := lexemes_proper t ls hl
  rw [Script.ofSource, hl] at hr
  have hb := fileBody_fits hm (ls.length + 1) (ls.length + 1) ls ⟨hp, hf, he⟩
  change (Prod.fst <$> fileBody (statement (ls.length + 1)) (ls.length + 1) ls) = .ok sc at hr
  cases hru : fileBody (statement (ls.length + 1)) (ls.length + 1) ls with
  | error e =>
    rw [hru] at hr
    cases hr
  | ok x =>
    rw [hru] at hr
    cases hr
    exact (hb x hru).1

end

end Playback.Source
