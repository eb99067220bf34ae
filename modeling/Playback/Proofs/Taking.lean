import Playback.Proofs.Origin
import Playback.Proofs.Wording

/-!
# Reading a row of lexemes back

`Takes r row next a` says that a reader takes exactly a row of lexemes, whatever their places are, where something
that `next` allows follows, and gives `a`; or it says that the row is nested too deep. One rule for each reader that
others are made of is enough to follow the readers of expressions over the lexemes of a script.
-/

namespace Playback.Source

open Reader List

variable {fuel : Nat} {o : Reader Token} {p : Lexeme → Prop} {row : List Lexeme} {sym : String} {ts : List Token}
  {x : Lexeme} {α : Type} {xs : List α}

variable {l y : Lexeme}

/-! ## Taking a row -/

/-- Lexemes that start with one that is allowed. -/
def Follows (next : Lexeme → Prop) (rest : List Located) : Prop :=
  ∃ l tail, rest = l :: tail ∧ next l.lexeme

/-- A row starts with a lexeme that `p` allows, or is empty and what `next` allows is such a lexeme. -/
def Leads (row : List Lexeme) (next p : Lexeme → Prop) : Prop :=
  match row with
  | [] => ∀ l, next l → p l
  | x :: _ => p x

/-- A reader takes a row of lexemes and gives `a`, or says that something is nested too deep. -/
def Takes {α : Type} (r : Reader α) (row : List Lexeme) (next : Lexeme → Prop) (a : α) : Prop :=
  ∀ ls rest, ls.map (·.lexeme) = row → Follows next rest →
    r (ls ++ rest) = .ok (a, rest) ∨ ∃ place, r (ls ++ rest) = .error (.invalid .tooDeep place)

variable {next : Lexeme → Prop}

theorem Leads.follows (h : Leads row next p) (hls : ls.map (·.lexeme) = row)
    (hr : Follows next r) : Follows p (ls ++ r) := by
  subst hls
  cases ls with
  | nil =>
    obtain ⟨l, tail, rfl, hl⟩ := hr
    exact ⟨l, tail, rfl, h l.lexeme hl⟩
  | cons l ls => exact ⟨l, ls ++ r, rfl, h⟩

theorem Leads.weaken (h : Leads row next p) (hq : ∀ l, p l → q l) : Leads row next q := by
  cases row with
  | nil => exact fun l hl => hq l (h l hl)
  | cons x _ => exact hq x h

theorem leads_any : Leads row next fun _ => True := by
  cases row with
  | nil => exact fun _ _ => trivial
  | cons => trivial

theorem leads_of_cons (h : ∃ x xs, row = x :: xs ∧ p x) : Leads row next p := by
  obtain ⟨x, xs, rfl, hx⟩ := h
  exact hx

namespace Takes

variable {β : Type} {r : Reader α} {f : α → Reader β} {next : Lexeme → Prop} {a : α} {b : β}

theorem pure (a : α) : Takes (Pure.pure a) [] next a := by
  intro _ r hls _
  obtain rfl := map_eq_nil_iff.1 hls
  exact .inl rfl

theorem tooDeep : Takes (fail .tooDeep : Reader α) row next a :=
  fun _ _ _ _ => .inr ⟨_, rfl⟩

/-- **One reader after the other takes one row after the other.** -/
theorem bind {row' : List Lexeme} (hr : Takes r row p a) (hf : Takes (f a) row' next b) (hl : Leads row' next p) :
    Takes (r >>= f) (row ++ row') next b := by
  intro ls rs hls hre
  obtain ⟨ls, ls', rfl, hls, hls'⟩ := map_eq_append_iff.1 hls
  rw [append_assoc]
  change (r (ls ++ (ls' ++ rs)) >>= fun x => f x.1 x.2) = _ ∨ ∃ q, (r (ls ++ (ls' ++ rs)) >>= fun x => f x.1 x.2) = _
  rcases hr ls (ls' ++ rs) hls (hl.follows hls' hre) with hok | ⟨q, he⟩
  · rw [hok]
    exact hf ls' rs hls' hre
  · rw [he]
    exact .inr ⟨q, rfl⟩

theorem weaken (h : Takes r row p a) (hp : ∀ l, next l → p l) : Takes r row next a := by
  intro ls _ hls hr
  obtain ⟨l, tail, rfl, hl⟩ := hr
  exact h ls _ hls ⟨l, tail, rfl, hp _ hl⟩

theorem last (hr : Takes r row next a) (hf : Takes (f a) [] next b) : Takes (r >>= f) row next b := by
  have hb := hr.bind hf fun _ hl => hl
  rwa [append_nil] at hb

theorem map (g : α → β) (h : Takes r row next a) : Takes (do return g (← r)) row next (g a) :=
  h.last (pure (g a))

/-! ### Single lexemes -/

/-- What a reader does on a row, when the first lexeme of the row is known. -/
theorem of_cons (h : ∀ p ls rs, ls.map (·.lexeme) = row → Follows next rs → r (⟨x, p⟩ :: (ls ++ rs)) = .ok (a, rs)
        ∨ ∃ p', r (⟨x, p⟩ :: (ls ++ rs)) = .error (.invalid .tooDeep p')) : Takes r (x :: row) next a := by
  intro ls rs hls hr
  obtain ⟨⟨l, p⟩, ls, rfl, rfl, hls'⟩ := map_eq_cons_iff.1 hls
  exact h p ls rs hls' hr

theorem first (hr : Takes r [x] (fun _ => True) a) (hf : Takes (f a) row next b) : Takes (r >>= f) (x :: row) next b :=
  hr.bind hf leads_any

theorem skip (hr : Takes r [] p a) (hf : Takes (f a) row next b) (hl : Leads row next p) : Takes (r >>= f) row next b :=
  hr.bind hf hl

theorem advance (hx : x ≠ .mark .endOfFile) : Takes advance [x] next () := by
  refine of_cons fun p _ r hls _ => .inl ?_
  obtain rfl := map_eq_nil_iff.1 hls
  exact advance_cons hx r

theorem past {f : Unit → Reader β} (hx : x.isMark .endOfFile = false) (hf : Takes (f ()) row next b) :
    Takes (Reader.advance >>= f) (x :: row) next b :=
  (advance fun h => by rw [isMark_iff.2 h] at hx; cases hx).first hf

theorem peek {f : Located → Reader β} (h : ∀ p, Takes (f ⟨x, p⟩) (x :: row) next b) :
    Takes (peek >>= f) (x :: row) next b :=
  of_cons fun p ls r hls hr => h p (⟨x, p⟩ :: ls) r (by rw [map_cons, hls]) hr

theorem peekNext {f : Located → Reader β} (h : ∀ l : Located, next l.lexeme → Takes (f l) [] next b) :
    Takes (Reader.peek >>= f) [] next b := by
  intro _ r hls hr
  obtain rfl := map_eq_nil_iff.1 hls
  obtain ⟨l, tail, rfl, hl⟩ := hr
  exact h l hl [] _ rfl ⟨l, tail, rfl, hl⟩

theorem peekAny {f : Located → Reader β} (h : ∀ l, Takes (f l) row next b) : Takes (Reader.peek >>= f) row next b :=
  fun ls r hls hr => h _ ls r hls hr

/-- The second lexeme of a row, or what comes after a row of one. -/
def Second (row : List Lexeme) (next : Lexeme → Prop) (y : Lexeme) : Prop :=
  match row with
  | [] => next y
  | z :: _ => z = y

theorem peekSecond {f : Option Lexeme → Reader β} (h : ∀ y, Second row next y → Takes (f (some y)) (x :: row) next b) :
    Takes (peekSecond? >>= f) (x :: row) next b := by
  refine of_cons fun p ls r hls hr => ?_
  cases ls with
  | nil =>
    subst hls
    obtain ⟨l, tail, rfl, hl⟩ := hr
    exact h l.lexeme hl [⟨x, p⟩] _ rfl ⟨l, tail, rfl, hl⟩
  | cons l ls =>
    subst hls
    exact h l.lexeme rfl (⟨x, p⟩ :: l :: ls) r rfl hr

theorem peekSecondNext {f : Option Lexeme → Reader β} (h : ∀ y, Takes (f y) row next b) :
    Takes (peekSecond? >>= f) row next b :=
  fun ls r hls hr => h _ ls r hls hr

theorem remaining {f : Nat → Reader β} (h : ∀ n, row.length < n → Takes (f n) row next b) :
    Takes (remaining >>= f) row next b := by
  intro ls r hls hr
  refine h (ls ++ r).length ?_ ls r hls hr
  obtain ⟨l, _, rfl, -⟩ := hr
  rw [← hls, length_map, length_append, length_cons]
  omega

theorem sees (m : Mark) : Takes (sees m) [] (· = .mark m) true := by
  refine peekNext fun l hl => ?_
  rw [isMark_iff.2 hl]
  exact pure true

theorem noSees (m : Mark) : Takes (Reader.sees m) [] (· ≠ .mark m) false := by
  refine peekNext fun l hl => ?_
  rw [isMark_eq_false hl]
  exact pure false

theorem eat (hm : (Lexeme.mark m).isMark .endOfFile = false) : Takes (eat m) [.mark m] next true :=
  (sees m).skip (past hm (pure true)) rfl

theorem eaten {f : Bool → Reader β} (hm : (Lexeme.mark m).isMark .endOfFile = false)
    (hf : Takes (f true) row next b) : Takes (Reader.eat m >>= f) (.mark m :: row) next b :=
  (eat hm).first hf

theorem noEat (m : Mark) : Takes (Reader.eat m) [] (· ≠ .mark m) false :=
  (noSees m).skip (pure false) fun _ h => h

theorem expect (hm : (Lexeme.mark m).isMark .endOfFile = false) (expected : String) :
    Takes (expect m expected) [.mark m] next () :=
  (eat hm).first (pure ())

theorem expected {f : Unit → Reader β} (hm : (Lexeme.mark m).isMark .endOfFile = false)
    (hf : Takes (f ()) row next b) : Takes (Reader.expect m e >>= f) (.mark m :: row) next b :=
  (expect hm e).first hf

theorem expectName (s : String) : Takes expectName [.name s] next s :=
  peek fun _ => past rfl (pure s)

theorem expectKeyword (k : Keyword) : Takes (expectKeyword k) [.keyword k] next () := by
  refine peek fun p => ?_
  have hk : (Lexeme.keyword k).isKeyword k = true := beq_self_eq_true k
  rw [hk]
  exact advance nofun

theorem expectNewline : Takes expectNewline [.mark .newline] next () :=
  (noSees .semicolon).skip (expect rfl _) (by nofun)

end Takes

/-! ## Items -/

theorem commaRow_cons (row : List Lexeme) (rows : List (List Lexeme)) :
    commaRow (row :: rows) = row ++ rows.flatMap (.mark .comma :: ·) :=
  intercalate_cons _ row rows

section Items

variable {tx : α → List Lexeme}

theorem length_le_flatMap (l : Lexeme) (tx : α → List Lexeme) (xs : List α) :
    xs.length ≤ ((xs.map tx).flatMap (l :: ·)).length := by
  induction xs with
  | nil => exact Nat.zero_le _
  | cons x xs _ =>
    rw [map_cons, flatMap_cons, length_append, length_cons, length_cons]
    omega

theorem length_le_commaRow (h : ∀ x ∈ xs, tx x ≠ []) : xs.length ≤ (commaRow (xs.map tx)).length := by
  cases xs with
  | nil => exact Nat.zero_le _
  | cons x xs =>
    have hr := length_le_flatMap (.mark .comma) tx xs
    have hf := length_pos_iff.2 (h x mem_cons_self)
    rw [map_cons, commaRow_cons, length_append, length_cons]
    omega

variable {b : Bracket} {expected : String} {item : List α → Reader α} {next : Lexeme → Prop} {all : List α}

/-- **Items with commas between them are read up to the closing bracket.** Each is read knowing those before it. -/
theorem closedItems_takes {found : List α} (hi : ∀ bf x a, all = bf ++ x :: a →
      Takes (item bf.reverse) (tx x) (fun l => l = .mark .comma ∨ l = .mark (.closing b)) x)
    (hfi : ∀ x ∈ all, ∃ y ys, tx x = y :: ys ∧ y ≠ .mark (.closing b))
    (ha : all = found.reverse ++ xs) (hf : xs.length < fuel) :
    Takes (closedItems b expected item fuel found) (commaRow (xs.map tx) ++ [.mark (.closing b)]) next all := by
  induction fuel generalizing found xs with
  | zero => cases hf
  | succ fuel ih =>
    cases xs with
    | nil =>
      rw [append_nil] at ha
      subst ha
      exact .eaten rfl (.pure _)
    | cons x xs =>
      obtain ⟨y, ys, hy, hc⟩ := hfi x (by rw [ha]; simp)
      have hx : Takes (item found) (tx x) (fun l => l = .mark .comma ∨ l = .mark (.closing b)) x := by
        have h := hi found.reverse x xs ha
        rwa [reverse_reverse] at h
      have ha' : all = (x :: found).reverse ++ xs := by rw [ha]; simp
      rw [map_cons, commaRow_cons, append_assoc]
      refine (Takes.noEat _).skip (hx.bind ?_ ?_) (leads_of_cons ⟨y, _, by rw [hy]; rfl, hc⟩)
      · cases xs with
        | nil =>
          refine (Takes.noEat _).skip (.expected rfl ?_) (by nofun)
          rw [ha', append_nil]
          exact .pure _
        | cons x' xs =>
          have h := ih ha' (Nat.lt_of_succ_lt_succ hf)
          rw [map_cons, commaRow_cons] at h
          exact .eaten rfl h
      · cases xs with
        | nil => exact .inr rfl
        | cons x' xs => exact .inl rfl

theorem items_takes (hi : ∀ bf x a, all = bf ++ x :: a →
      Takes (item bf.reverse) (tx x) (fun l => l = .mark .comma ∨ l = .mark (.closing b)) x)
    (hf : ∀ x ∈ all, ∃ y ys, tx x = y :: ys ∧ y ≠ .mark (.closing b)) :
    Takes (items b expected item) (commaRow (all.map tx) ++ [.mark (.closing b)]) next all := by
  refine Takes.remaining fun n hn => closedItems_takes hi hf rfl ?_
  have hs : ∀ x ∈ all, tx x ≠ [] := by
    intro x hx
    obtain ⟨y, ys, hy, -⟩ := hf x hx
    rw [hy]
    exact nofun
  have hl := length_le_commaRow hs
  rw [length_append] at hn
  omega

/-- **Further items are read**, each after a comma. -/
theorem more_takes {item : Reader α} {stop : Lexeme → Bool}
    (hie : ∀ x ∈ xs, Takes item (tx x) (fun l => l = .mark .comma ∨ next l) x)
    (hfi : ∀ x ∈ xs, ∃ y ys, tx x = y :: ys ∧ stop y = false) (hne : ∀ l, next l → l ≠ .mark .comma) :
    Takes (more stop item) ((xs.map tx).flatMap (.mark .comma :: ·)) next xs := by
  have hfu : ∀ fuel, xs.length < fuel →
      Takes (furtherItems stop item fuel) ((xs.map tx).flatMap (.mark .comma :: ·)) next xs := by
    intro fuel hf
    induction fuel generalizing xs with
    | zero => cases hf
    | succ fuel ih =>
      cases xs with
      | nil => exact (Takes.noEat _).skip (.pure _) hne
      | cons x xs =>
        obtain ⟨hx, hxs⟩ := forall_mem_cons.1 hie
        obtain ⟨⟨y, ys, hy, hs⟩, hfi⟩ := forall_mem_cons.1 hfi
        have hr := ih hxs hfi (Nat.lt_of_succ_lt_succ hf)
        have hle : Leads ((xs.map tx).flatMap (Lexeme.mark .comma :: ·)) next
            fun l => l = .mark .comma ∨ next l := by
          cases xs with
          | nil => exact fun _ => .inr
          | cons x xs => exact .inl rfl
        have hi := hx.bind (f := fun x => do return x :: (← furtherItems stop item fuel)) (hr.map (x :: ·)) hle
        rw [hy] at hi
        rw [map_cons, hy]
        refine .eaten rfl (Takes.peek fun p => ?_)
        rw [hs]
        exact hi
  refine Takes.remaining fun n _ => hfu n ?_
  have hln := length_le_flatMap (.mark .comma) tx xs
  omega

theorem more_takes_none {item : Reader α} : Takes (more stop item) [.mark .comma] (stop · = true) [] := by
  refine Takes.remaining fun n hn => ?_
  cases n with
  | zero => cases hn
  | succ n =>
    refine .eaten rfl (Takes.peekNext fun l hl => ?_)
    rw [hl]
    exact .pure []

end Items

/-! ## Flat rows -/

def closesRow : Lexeme → Bool
  | .mark .comma | .mark (.closing _) | .mark .colon | .mark .newline | .mark .assign => true
  | _ => false

/-- Whether an operand ends before this lexeme. -/
def closesOperand : Lexeme → Bool
  | .mark .dot | .mark (.opening _) | .string _ => false
  | _ => true

/-- Whether the start of an operand ends before this lexeme. -/
def closesAtom : Lexeme → Bool
  | .mark (.opening .round) | .string _ => false
  | _ => true

theorem mark_of_closesRow (h : closesRow l = true) : ∃ m, l = .mark m := by
  unfold closesRow at h
  split at h <;> first | exact ⟨_, rfl⟩ | cases h

theorem closesOperand_of_row (h : closesRow l = true) : closesOperand l = true := by
  unfold closesRow at h
  split at h <;> first | rfl | cases h

theorem closesAtom_of_operand (h : closesOperand l = true) : closesAtom l = true := by
  unfold closesAtom
  split
  · cases h
  · cases h
  · rfl

theorem infixSymbol?_operator (h : sym ≠ "~") (second : Option Lexeme) :
    infixSymbol? (.operator sym) second = some (sym, 1) := by
  unfold infixSymbol?
  split <;> simp_all

theorem infixSymbol?_is (h : y ≠ .keyword .not_) : infixSymbol? (.keyword .is_) (some y) = some ("is", 1) := by
  unfold infixSymbol?
  split <;> simp_all

theorem infixMarker_one (hx : x ≠ .mark .endOfFile)
    (h : ∀ y, next y → infixSymbol? x (some y) = some (sym, 1)) : Takes infixMarker? [x] next (some sym) := by
  refine Takes.peek fun p => Takes.peekSecond fun y hy => ?_
  rw [h y hy]
  exact (Takes.advance hx).first (.pure _)

theorem infixMarker_two (hx : x ≠ .mark .endOfFile) (hy : y ≠ .mark .endOfFile)
    (h : infixSymbol? x (some y) = some (sym, 2)) : Takes infixMarker? [x, y] next (some sym) := by
  refine Takes.peek fun p => Takes.peekSecond fun z hz => ?_
  obtain rfl : y = z := hz
  rw [h]
  exact (Takes.advance hx).first ((Takes.advance hy).first (.pure _))

/-- **A marker between operands is read as that marker**; `not` after `is` would belong to it. -/
theorem infixMarker_takes (h : sym ∈ infixSymbols) :
    Takes infixMarker? (markerLexemes sym) (fun l => sym = "is" → l ≠ .keyword .not_) (some sym) := by
  have ha : ∀ s ∈ infixSymbols, s ∈ operatorSymbols ∧ s ≠ "~" ∨ s ∈ wordMarkers ∧ s ≠ "not" := by decide
  rcases ha sym h with ⟨hop, ht⟩ | ⟨hw, hn⟩
  · rw [markerLexemes_operator hop]
    exact infixMarker_one nofun fun y _ => infixSymbol?_operator ht _
  · simp only [wordMarkers, mem_cons, not_mem_nil, or_false] at hw
    rcases hw with rfl | rfl | rfl | rfl | rfl | rfl | rfl
    · exact absurd rfl hn
    iterate 3
      · exact infixMarker_one nofun fun _ _ => rfl
    · exact infixMarker_one nofun fun y hy => infixSymbol?_is (hy rfl)
    all_goals exact infixMarker_two nofun nofun rfl

theorem infixMarker_none : Takes infixMarker? [] (closesRow · = true) none := by
  refine Takes.peekNext fun l hl => Takes.peekSecondNext fun _ => ?_
  obtain ⟨m, hm⟩ := mark_of_closesRow hl
  rw [hm]
  exact .pure none

section Row

theorem operandRow_cons {l : Located} (h : prefixSymbol? l.lexeme = some sym) (ls : List Located) :
    operandRow o (fuel + 1) (l :: ls)
      = (fun x => (.operator sym :: x.1, x.2)) <$> operandRow o (fuel + 1) ls := by
  have hp : prefixRow (l :: ls) = (.operator sym :: (prefixRow ls).1, (prefixRow ls).2) := by
    rw [prefixRow, h]
  rw [operandRow_succ, operandRow_succ, hp]
  cases o (prefixRow ls).2 with
  | error e => rfl
  | ok x =>
    change (infixMarker? x.2 >>= _) = _ <$> (infixMarker? x.2 >>= _)
    cases infixMarker? x.2 with
    | error e => rfl
    | ok y =>
      obtain ⟨marker, a⟩ := y
      cases marker with
      | none => rfl
      | some _ =>
        change (operandRow o fuel a >>= _) = _ <$> (operandRow o fuel a >>= _)
        cases operandRow o fuel a <;> rfl

theorem operandRow_marked {next : Lexeme → Prop} (hx : prefixSymbol? x = some sym)
    (h : Takes (operandRow o (fuel + 1)) row next ts) :
    Takes (operandRow o (fuel + 1)) (x :: row) next (.operator sym :: ts) := by
  refine Takes.of_cons fun p ls r hls hr => ?_
  rw [operandRow_cons hx]
  rcases h ls r hls hr with hok | ⟨p', he⟩
  · rw [hok]
    exact .inl rfl
  · rw [he]
    exact .inr ⟨p', rfl⟩

theorem prefixMarkers_none : Takes prefixMarkers [] (prefixSymbol? · = none) [] := by
  intro _ r hls hr
  obtain rfl := map_eq_nil_iff.1 hls
  obtain ⟨l, tail, rfl, hl⟩ := hr
  refine .inl ?_
  change (.ok (prefixRow (l :: tail)) : Except ReadError _) = _
  rw [prefixRow, hl]

theorem markerLexemes_closes (sym : String) : ∃ x xs, markerLexemes sym = x :: xs ∧ closesOperand x = true := by
  unfold markerLexemes
  split <;> exact ⟨_, _, rfl, rfl⟩

variable {t : Token} (ht : Takes o t.lexemes (closesOperand · = true) t)
  (ho : ∃ x xs, t.lexemes = x :: xs ∧ opensOperand x = true)

include ht ho

theorem operandRow_last : Takes (operandRow o (fuel + 1)) t.lexemes (closesRow · = true) [t] := by
  obtain ⟨x, xs, hxs, hx⟩ := ho
  exact prefixMarkers_none.skip ((ht.weaken fun _ => closesOperand_of_row).last (infixMarker_none.last (.pure _)))
    (leads_of_cons ⟨x, xs, hxs, prefixSymbol?_of_operand hx⟩)

theorem operandRow_joined (hs : sym ∈ infixSymbols)
    (hl : Leads row (closesRow · = true) fun l => sym = "is" → l ≠ .keyword .not_)
    (hr : Takes (operandRow o fuel) row (closesRow · = true) ts) :
    Takes (operandRow o (fuel + 1)) (t.lexemes ++ (markerLexemes sym ++ row)) (closesRow · = true)
      (t :: .operator sym :: ts) := by
  obtain ⟨x, _, hxs, hx⟩ := ho
  obtain ⟨y, ys, hys, hy⟩ := markerLexemes_closes sym
  have hm := (infixMarker_takes hs).bind (f := rowAfter o fuel [] t) (hr.map (t :: .operator sym :: ·)) hl
  refine prefixMarkers_none.skip (ht.bind hm (leads_of_cons ⟨y, ys ++ row, by rw [hys]; rfl, hy⟩)) ?_
  exact leads_of_cons ⟨x, _, by rw [hxs]; rfl, prefixSymbol?_of_operand hx⟩

end Row

theorem flatExpression_takes (h : ∀ fuel, row.length < fuel → Takes (operandRow o fuel) row (closesRow · = true) ts) :
    Takes (flatExpression o) row (closesRow · = true) ts := by
  refine Takes.remaining fun n hn => (h n hn).last (Takes.peekNext fun l hl => ?_)
  obtain ⟨m, hm⟩ := mark_of_closesRow hl
  rw [hm]
  exact .pure ts

end Playback.Source
