import Playback.Proofs.Faithful
import Playback.Source.Statement

/-!
# The lexemes of a script

Between a script and its source text stands a row of lexemes, which is what dividing the text gives and what
the readers take. It is given here by recursion on the script. In such a row brackets are closed, and outside
brackets it assigns only where the script does.
-/

namespace Playback

open Source List

/-! ## Rows for expressions -/

def enclosed (b : Bracket) (row : List Lexeme) : List Lexeme :=
  .mark (.opening b) :: row ++ [.mark (.closing b)]

def commaRow (rows : List (List Lexeme)) : List Lexeme :=
  [.mark .comma].intercalate rows

theorem intercalate_cons {α : Type} (x : α) (l : List α) (ls : List (List α)) :
    [x].intercalate (l :: ls) = l ++ ls.flatMap (x :: ·) := by
  induction ls generalizing l with
  | nil => simp
  | cons _ ls ih =>
    rw [intercalate_cons_cons, ih, append_assoc]
    rfl

/-- The elements of a tuple: a single one has a comma after it. -/
def tupleRow : List (List Lexeme) → List Lexeme
  | [row] => row ++ [.mark .comma]
  | rows => commaRow rows

def markerLexemes (symbol : String) : List Lexeme :=
  match symbol with
  | "not" => [.keyword .not_]
  | "and" => [.keyword .and_]
  | "or" => [.keyword .or_]
  | "in" => [.keyword .in_]
  | "is" => [.keyword .is_]
  | "is not" => [.keyword .is_, .keyword .not_]
  | "not in" => [.keyword .not_, .keyword .in_]
  | symbol => [.operator symbol]

def wordMarkers : List String :=
  ["not", "and", "or", "in", "is", "is not", "not in"]

theorem markerLexemes_operator (h : sym ∈ operatorSymbols) : markerLexemes sym = [.operator sym] := by
  have ha : ∀ s ∈ operatorSymbols, s ∉ wordMarkers := by decide
  have hw := ha sym h
  unfold markerLexemes
  split
  case h_8 => rfl
  all_goals exact absurd (by decide) hw

def Number.lexemes : Number → List Lexeme
  | .int i => [.int i]
  | .float x => [.float x]
  | .text _ => []

def boolLexeme (b : Bool) : Lexeme :=
  .keyword (if b then .true_ else .false_)

mutual

def Token.lexemes : Token → List Lexeme
  | .operator symbol => markerLexemes symbol
  | .number n => n.lexemes
  | .string s => [.string s]
  | .bool b => [boolLexeme b]
  | .none => [.keyword .none]
  | .name s => [.name s]
  | .call name args => .name name :: enclosed .round (commaRow (argumentRows args))
  | .callMember object member args =>
    object.lexemes ++ .mark .dot :: .name member :: enclosed .round (commaRow (argumentRows args))
  | .member object member => object.lexemes ++ [.mark .dot, .name member]
  | .list rows => enclosed .square (commaRow (rowsLexemes rows))
  | .tuple rows => enclosed .round (tupleRow (rowsLexemes rows))
  | .set rows => enclosed .curly (commaRow (rowsLexemes rows))
  | .dict entries => enclosed .curly (commaRow (entryRows entries))
  | .subscript target key => target.lexemes ++ enclosed .square (rowLexemes key)
  | .slice target start stop =>
    target.lexemes ++ enclosed .square (rowLexemes start ++ .mark .colon :: rowLexemes stop)
  | .bracket inner => enclosed .round (rowLexemes inner)

def rowLexemes : List Token → List Lexeme
  | [] => []
  | t :: rest => t.lexemes ++ rowLexemes rest

def rowsLexemes : List (List Token) → List (List Lexeme)
  | [] => []
  | row :: rest => rowLexemes row :: rowsLexemes rest

def Argument.lexemes : Argument → List Lexeme
  | .positional value => rowLexemes value
  | .keyword name value => .name name :: .mark .assign :: rowLexemes value

def argumentRows : List Argument → List (List Lexeme)
  | [] => []
  | a :: rest => a.lexemes :: argumentRows rest

def Entry.lexemes : Entry → List Lexeme
  | .pair key value => rowLexemes key ++ .mark .colon :: rowLexemes value

def entryRows : List Entry → List (List Lexeme)
  | [] => []
  | e :: rest => e.lexemes :: entryRows rest

end

/-- What goes from member to member is a map. -/
theorem eq_map {α β : Type} {f : α → β} {g : List α → List β} (hn : g [] = [])
    (hc : ∀ a as, g (a :: as) = f a :: g as) (as : List α) : g as = as.map f := by
  induction as with
  | nil => exact hn
  | cons a as ih => rw [hc, ih, map_cons]

theorem rowsLexemes_eq_map (rows : List (List Token)) : rowsLexemes rows = rows.map rowLexemes :=
  eq_map rfl (fun _ _ => rfl) rows

theorem argumentRows_eq_map (as : List Argument) : argumentRows as = as.map Argument.lexemes :=
  eq_map rfl (fun _ _ => rfl) as

theorem entryRows_eq_map (es : List Entry) : entryRows es = es.map Entry.lexemes :=
  eq_map rfl (fun _ _ => rfl) es

/-! ## Rows for statements -/

def targetsLexemes (targets : List Token) : List Lexeme :=
  commaRow (targets.map Token.lexemes)

def dottedLexemes (s : String) : List Lexeme :=
  [.mark .dot].intercalate ((nameParts s).map fun part => [.name part])

theorem dottedLexemes_eq (s : String) : ∃ part parts, nameParts s = part :: parts
    ∧ dottedLexemes s = [.name part] ++ parts.flatMap fun part => [.mark .dot, .name part] := by
  have hs : nameParts s ≠ [] := by simp [nameParts]
  obtain ⟨part, parts, hp⟩ := exists_cons_of_ne_nil hs
  refine ⟨part, parts, hp, ?_⟩
  rw [dottedLexemes, hp, map_cons, intercalate_cons, flatMap_map]

def namesLexemes (names : List String) : List Lexeme :=
  commaRow (names.map fun name => [.name name])

def headed (header block : List Lexeme) : List Lexeme :=
  header ++ [.mark .colon, .mark .newline, .mark .indent] ++ block ++ [.mark .dedent]

mutual

def Statement.lexemes : Statement → List Lexeme
  | .blank => []
  | .comment text => [.comment text, .mark .newline]
  | .expression value => rowLexemes value ++ [.mark .newline]
  | .assignment targets value =>
    targetsLexemes targets ++ .mark .assign :: rowLexemes value ++ [.mark .newline]
  | .conditional condition body links =>
    headed (.keyword .if_ :: rowLexemes condition) (bodyLexemes body) ++ linksLexemes links
  | .whileLoop condition body => headed (.keyword .while_ :: rowLexemes condition) (bodyLexemes body)
  | .forLoop targets iterable body =>
    headed (.keyword .for_ :: targetsLexemes targets ++ .keyword .in_ :: rowLexemes iterable) (bodyLexemes body)
  | .function name _ params body =>
    headed (.keyword .def_ :: .name name :: enclosed .round (namesLexemes params)) (bodyLexemes body)
  | .return_ value => .keyword .return_ :: rowLexemes value ++ [.mark .newline]
  | .break_ => [.keyword .break_, .mark .newline]
  | .continue_ => [.keyword .continue_, .mark .newline]
  | .import_ modules => .keyword .import_ :: commaRow (modules.map dottedLexemes) ++ [.mark .newline]
  | .fromImport module names =>
    .keyword .from_ :: dottedLexemes module ++ .keyword .import_ :: namesLexemes names ++ [.mark .newline]

def bodyLexemes : List Statement → List Lexeme
  | [] => [.keyword .pass, .mark .newline]
  | s :: rest => s.lexemes ++ statementsLexemes rest

def statementsLexemes : List Statement → List Lexeme
  | [] => []
  | s :: rest => s.lexemes ++ statementsLexemes rest

def linksLexemes : List Link → List Lexeme
  | [] => []
  | .elif condition body :: rest =>
    headed (.keyword .elif :: rowLexemes condition) (bodyLexemes body) ++ linksLexemes rest
  | .else_ body :: rest => headed [.keyword .else_] (bodyLexemes body) ++ linksLexemes rest

end

/-! ## Level rows -/

/-- A row closes the brackets it opens. -/
def Balanced (row : List Lexeme) : Prop :=
  ∀ n, row.foldl Scanner.bracketsAfter n = n

/-- A row that closes the brackets it opens and, within `k` open brackets, assigns nothing. -/
structure Level (k : Nat) (row : List Lexeme) : Prop where
  balanced : Balanced row
  assigns {l : List Located} (hl : l.map (·.lexeme) = row) (n : Nat) (found : Bool) (r : List Located) :
    assigns (k + n) found (l ++ r) = assigns (k + n) found r

/-- Whether a lexeme is passed over when brackets and assignments are looked for. -/
def isQuiet : Lexeme → Bool
  | .mark .dot | .mark .colon | .mark .comma => true
  | .mark _ | .augmented _ => false
  | _ => true

theorem bracketsAfter_quiet (h : isQuiet l = true) (n : Nat) : Scanner.bracketsAfter n l = n := by
  cases l with
  | mark m => cases m <;> first | rfl | cases h
  | _ => rfl

theorem assigns_quiet {l : Located} (h : isQuiet l.lexeme = true) (d : Nat) (found : Bool)
    (r : List Located) : assigns d found (l :: r) = assigns d found r := by
  obtain ⟨x, p⟩ := l
  cases x with
  | mark m => cases m <;> first | rfl | cases h
  | augmented s => cases h
  | _ => rfl

theorem Balanced.append (h : Balanced row) (h' : Balanced row') : Balanced (row ++ row') :=
  fun n => by rw [foldl_append, h, h']

theorem Balanced.enclosed (b : Bracket) (h : Balanced row) : Balanced (enclosed b row) :=
  fun n => by
    rw [Playback.enclosed, cons_append, foldl_cons, foldl_append, h]
    rfl

namespace Level

theorem nil : Level k [] where
  balanced _ := rfl
  assigns hl n found r := by rw [map_eq_nil_iff.1 hl, nil_append]

theorem append (h : Level k row) (h' : Level k row') : Level k (row ++ row') where
  balanced := h.balanced.append h'.balanced
  assigns hl n found r := by
    obtain ⟨l, _, rfl, hl, hl'⟩ := map_eq_append_iff.1 hl
    rw [append_assoc, h.assigns hl, h'.assigns hl']

theorem inner (h : Level k row) : Level (k + 1) row where
  balanced := h.balanced
  assigns hl n found r := by rw [Nat.add_assoc, h.assigns hl]

theorem quiet (h : isQuiet l = true) : Level k [l] where
  balanced := bracketsAfter_quiet h
  assigns hl n found r := by
    obtain ⟨x, rfl, rfl⟩ := map_eq_singleton_iff.1 hl
    exact assigns_quiet h (k + n) found r

theorem assign : Level (k + 1) [.mark .assign] where
  balanced _ := rfl
  assigns hl n found r := by
    obtain ⟨⟨l, p⟩, rfl, hx⟩ := map_eq_singleton_iff.1 hl
    cases hx
    rw [singleton_append, Source.assigns, if_neg (by omega)]

theorem enclosed (b : Bracket) (h : Level (k + 1) row) : Level k (enclosed b row) where
  balanced := h.balanced.enclosed b
  assigns hl n found r := by
    obtain ⟨first, _, rfl, hf, hre⟩ := map_eq_cons_iff.1 hl
    obtain ⟨l, z, rfl, hr, hla⟩ := map_eq_append_iff.1 hre
    obtain ⟨⟨_, _⟩, rfl, hx⟩ := map_eq_singleton_iff.1 hla
    cases hx
    obtain ⟨_, _⟩ := first
    cases hf
    rw [cons_append, Source.assigns, append_assoc, Nat.add_right_comm k n 1, h.assigns hr,
      singleton_append, Source.assigns, ← Nat.add_right_comm k n 1, Nat.add_sub_cancel]

theorem commaRow : ∀ {rows : List (List Lexeme)}, (∀ row ∈ rows, Level k row) → Level k (commaRow rows)
  | [], _ => nil
  | [row], h => by
    rw [Playback.commaRow, intercalate_singleton]
    exact h row mem_cons_self
  | row :: row' :: rows, h => by
    obtain ⟨hro, hr⟩ := forall_mem_cons.1 h
    rw [Playback.commaRow, intercalate_cons_cons]
    exact (hro.append (quiet rfl)).append (commaRow hr)

theorem tupleRow (h : ∀ row ∈ rows, Level k row) : Level k (tupleRow rows) := by
  unfold Playback.tupleRow
  split
  · exact (h _ mem_cons_self).append (quiet rfl)
  · exact commaRow h

theorem marker (s : String) : Level k (markerLexemes s) := by
  unfold markerLexemes
  split
  case h_6 | h_7 => exact (quiet rfl).append (quiet rfl)
  all_goals exact quiet rfl

theorem allQuiet (h : ∀ l ∈ row, isQuiet l = true) : Level k row := by
  induction row with
  | nil => exact nil
  | cons l row ih =>
    obtain ⟨hl, hr⟩ := forall_mem_cons.1 h
    exact (quiet hl).append (ih hr)

theorem names (ns : List String) : Level k (namesLexemes ns) :=
  commaRow (forall_mem_map.2 fun _ _ => quiet rfl)

theorem dotted (s : String) : Level k (dottedLexemes s) := by
  obtain ⟨part, _, -, hr⟩ := dottedLexemes_eq s
  rw [hr]
  refine (quiet rfl).append (allQuiet fun l hl => ?_)
  obtain ⟨part, -, hl⟩ := mem_flatMap.1 hl
  simp only [mem_cons, not_mem_nil, or_false] at hl
  rcases hl with rfl | rfl <;> rfl

end Level

mutual

/-- **Operands close their brackets and assign nothing.** -/
theorem Token.Fits.level {t : Token} (ht : t.Fits al) : Level 0 t.lexemes := by
  match ht with
  | .int _ | .float _ | .string _ | .bool _ | .none | .name _ =>
    exact .quiet rfl
  | .call _ har _ =>
    rw [Token.lexemes, argumentRows_eq_map]
    exact (Level.quiet rfl).append (.enclosed _ (.commaRow (forall_mem_map.2 fun a ha => (har a ha).level)))
  | .callMember ho _ _ har _ =>
    rw [Token.lexemes, argumentRows_eq_map]
    exact ho.level.append ((Level.quiet rfl).append ((Level.quiet rfl).append
      (.enclosed _ (.commaRow (forall_mem_map.2 fun a ha => (har a ha).level)))))
  | .member ho _ _ =>
    exact ho.level.append ((Level.quiet rfl).append (Level.quiet rfl))
  | .list hr | .set hr _ =>
    rw [Token.lexemes, rowsLexemes_eq_map]
    exact .enclosed _ (.commaRow (forall_mem_map.2 fun row hro => (hr row hro).level.inner))
  | .tuple hr =>
    rw [Token.lexemes, rowsLexemes_eq_map]
    exact .enclosed _ (.tupleRow (forall_mem_map.2 fun row hro => (hr row hro).level.inner))
  | .dict hen =>
    rw [Token.lexemes, entryRows_eq_map]
    exact .enclosed _ (.commaRow (forall_mem_map.2 fun e he => (hen e he).level))
  | .subscript hta hk =>
    exact hta.level.append (.enclosed _ hk.level.inner)
  | @Token.Fits.slice _ start stop _ hta hs hst =>
    have hb : ∀ row : List Token, (row ≠ [] → Level 0 (rowLexemes row)) → Level 1 (rowLexemes row) := by
      intro row h
      cases row with
      | nil => exact .nil
      | cons t row => exact (h nofun).inner
    exact hta.level.append (.enclosed _ ((hb start fun h => (hs h).level).append
      ((Level.quiet rfl).append (hb stop fun h => (hst h).level))))
  | .bracket hi =>
    exact .enclosed _ hi.level.inner

/-- **Rows close their brackets and assign nothing.** -/
theorem RowFits.level (hro : RowFits al afterIs row) : Level 0 (rowLexemes row) := by
  match hro with
  | .marked _ _ hr =>
    exact (Level.marker _).append hr.level
  | .last ht =>
    exact ht.level.append .nil
  | .joined ht _ hr =>
    exact ht.level.append ((Level.marker _).append hr.level)

theorem Argument.Fits.level {a : Argument} (ha : a.Fits al) : Level 1 a.lexemes := by
  match ha with
  | .positional h => exact h.level.inner
  | .keyword _ h => exact (Level.quiet rfl).append (Level.assign.append h.level.inner)

theorem Entry.Fits.level {e : Entry} (he : e.Fits al) : Level 1 e.lexemes := by
  match he with
  | .pair hk hv => exact hk.level.inner.append ((Level.quiet rfl).append hv.level.inner)

end

theorem TargetsFit.level {targets : List Token} (h : TargetsFit al targets) : Level 0 (targetsLexemes targets) :=
  .commaRow (forall_mem_map.2 fun t ht => (h.2 t ht).1.level)

/-! ## First lexemes -/

/-- Whether an operand starts with this lexeme. -/
def opensOperand : Lexeme → Bool
  | .int _ | .float _ | .string _ | .name _ => true
  | .keyword .true_ | .keyword .false_ | .keyword .none => true
  | .mark (.opening _) => true
  | _ => false

def opensRow (l : Lexeme) : Bool :=
  opensOperand l || (prefixSymbol? l).isSome

theorem Token.Fits.opens {t : Token} (ht : t.Fits al) : ∃ x xs, t.lexemes = x :: xs ∧ opensOperand x = true := by
  match ht with
  | .int _ | .float _ | .string _ | .none | .name _
  | .call _ _ _ | .list _ | .tuple _ | .set _ _ | .dict _ | .bracket _ =>
    exact ⟨_, _, rfl, rfl⟩
  | .bool b =>
    exact ⟨_, _, rfl, by cases b <;> rfl⟩
  | .callMember ho _ _ _ _ | .member ho _ _ | .subscript ho _ | .slice ho _ _ =>
    obtain ⟨x, xs, hxs, hx⟩ := ho.opens
    rw [Token.lexemes, hxs]
    exact ⟨x, _, rfl, hx⟩

theorem prefixSymbol?_marker (h : s ∈ prefixSymbols) : ∃ x, markerLexemes s = [x] ∧ prefixSymbol? x = some s ∧
      (s ≠ "not" → x ≠ .keyword .not_) := by
  rcases mem_cons.1 h with rfl | h
  · exact ⟨_, rfl, rfl, nofun⟩
  rcases mem_cons.1 h with rfl | h
  · exact ⟨_, rfl, rfl, nofun⟩
  rcases mem_cons.1 h with rfl | h
  · exact ⟨_, rfl, rfl, nofun⟩
  · obtain rfl := mem_singleton.1 h
    exact ⟨_, rfl, rfl, absurd rfl⟩

theorem opensRow_of_operand (h : opensOperand x = true) : opensRow x = true := by
  rw [opensRow, h, Bool.true_or]

theorem prefixSymbol?_of_operand (h : opensOperand x = true) : prefixSymbol? x = none := by
  unfold opensOperand at h
  split at h <;> first | rfl | cases h

theorem RowFits.opens (hr : RowFits al afterIs row) :
    ∃ x xs, rowLexemes row = x :: xs ∧ opensRow x = true ∧ (afterIs = true → x ≠ .keyword .not_) := by
  have ho : ∀ {t : Token} (r : List Token), t.Fits al → ∃ x xs,
      rowLexemes (t :: r) = x :: xs ∧ opensRow x = true ∧ (afterIs = true → x ≠ .keyword .not_) := by
    intro t r ht
    obtain ⟨x, xs, hxs, hx⟩ := ht.opens
    rw [rowLexemes, hxs]
    refine ⟨x, _, rfl, opensRow_of_operand hx, ?_⟩
    rintro - rfl
    cases hx
  cases hr with
  | marked hs hn _ =>
    obtain ⟨x, hm, hp, hx⟩ := prefixSymbol?_marker hs
    rw [rowLexemes, Token.lexemes, hm]
    exact ⟨x, _, rfl, by rw [opensRow, hp, Option.isSome_some, Bool.or_true], fun h => hx (hn h)⟩
  | last ht => exact ho [] ht
  | joined ht _ _ => exact ho _ ht

end Playback
