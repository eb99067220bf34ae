import Playback.Proofs.Taking

/-!
# Reading the lexemes of a script

The readers take the lexemes of what fits and give it back. An operand is read from its first atom on: what stands
after the atom is read by `trailers`, one step after the other, each with less room. The room may run out, which is
the only thing that can go wrong.
-/

namespace Playback.Source

open Reader List

variable {next : Lexeme → Prop}

/-- An operand with `room` levels left. -/
def operandIn (room : Nat) : Reader Token := do
  trailers room (← atom (expression room))

/-- A row whose lexemes are read back, whatever room is left. -/
structure RowTakes (row : List Token) : Prop where
  opens : ∃ x xs, rowLexemes row = x :: xs ∧ opensRow x = true
  /-- It is not read as an argument with a keyword. -/
  unnamed (s : String) (xs : List Lexeme) : rowLexemes row ≠ .name s :: .mark .assign :: xs
  takes (room : Nat) : Takes (expression room) (rowLexemes row) (closesRow · = true) row

namespace RowTakes

variable (h : RowTakes row)

include h

theorem starts (hm : ∀ b, m ≠ .opening b) : ∃ x xs, rowLexemes row = x :: xs ∧ x ≠ .mark m := by
  obtain ⟨x, xs, hxs, hx⟩ := h.opens
  refine ⟨x, xs, hxs, ?_⟩
  rintro rfl
  cases m with
  | opening b => exact hm b rfl
  | _ => cases hx

theorem unmarked (hm : ∀ b, m ≠ .opening b) : ∃ x xs, rowLexemes row = x :: xs ∧ x.isMark m = false := by
  obtain ⟨x, xs, hxs, hx⟩ := h.starts hm
  exact ⟨x, xs, hxs, isMark_eq_false hx⟩

theorem leads (hm : ∀ b, m ≠ .opening b) (r : List Lexeme) : Leads (rowLexemes row ++ r) next (· ≠ .mark m) := by
  obtain ⟨x, xs, hxs, hx⟩ := h.starts hm
  exact leads_of_cons ⟨x, xs ++ r, by rw [hxs]; rfl, hx⟩

theorem item (room : Nat) (b : Bracket) :
    Takes (expression room) (rowLexemes row) (fun l => l = .mark .comma ∨ l = .mark (.closing b)) row := by
  refine (h.takes room).weaken ?_
  rintro _ (rfl | rfl) <;> rfl

end RowTakes

/-! ## Atoms -/

theorem atom_int (i : Word) : Takes (atom (expression room)) [.int i] next (.number (.int i)) :=
  Takes.peek fun _ => .past rfl (.pure _)

theorem atom_bool (b : Bool) : Takes (atom (expression room)) [boolLexeme b] next (.bool b) := by
  cases b <;> exact Takes.peek fun _ => .past rfl (.pure _)

theorem atom_none : Takes (atom (expression room)) [.keyword .none] next .none :=
  Takes.peek fun _ => .past rfl (.pure _)

theorem atom_string (s : String) : Takes (atom (expression room)) [.string s] (closesAtom · = true) (.string s) := by
  have hro : Takes (modifyGet stringRow : Reader (List String)) [.string s] (closesAtom · = true) [s] := by
    refine Takes.of_cons fun p _ r hls hr => .inl ?_
    obtain rfl := map_eq_nil_iff.1 hls
    obtain ⟨l, tail, rfl, hl⟩ := hr
    have hs : stringRow (l :: tail) = ([], l :: tail) := by
      unfold stringRow
      split
      · rename_i heq
        obtain ⟨rfl, rfl⟩ := List.cons.inj heq
        cases hl
      · rfl
    change (.ok (s :: (stringRow (l :: tail)).1, (stringRow (l :: tail)).2) : Except ReadError _) = _
    rw [hs]
  refine Takes.peek fun p => hro.last ?_
  exact .pure _

theorem atom_name (s : String) : Takes (atom (expression room)) [.name s] (closesAtom · = true) (.name s) := by
  refine Takes.peek fun p => .past rfl ((Takes.noEat _).skip (.pure _) ?_)
  rintro l hl rfl
  cases hl

theorem atom_list (h : ∀ row ∈ rows, RowTakes row) :
    Takes (atom (expression room)) (enclosed .square (commaRow (rows.map rowLexemes))) next (.list rows) := by
  have hi : Takes (items .square "',' or ']'" fun _ => expression room)
      (commaRow (rows.map rowLexemes) ++ [.mark (.closing .square)]) next rows :=
    items_takes (fun b row a ha => (h row (by rw [ha]; simp)).item room _) fun row hr => (h row hr).starts nofun
  exact Takes.peek fun p => .past rfl (hi.map Token.list)

theorem moreRows_takes (b : Bracket) (h : ∀ row ∈ rows, RowTakes row) :
    Takes (more (Lexeme.isMark (.closing b)) (expression room)) ((rows.map rowLexemes).flatMap (.mark .comma :: ·))
      (· = .mark (.closing b)) rows := by
  refine more_takes (fun row hr => (h row hr).item room b) (fun row hr => (h row hr).unmarked nofun) ?_
  rintro _ rfl
  exact nofun

theorem atom_bracket (h : RowTakes i) :
    Takes (atom (expression room)) (enclosed .round (rowLexemes i)) next (.bracket i) := by
  refine Takes.peek fun p => .past rfl ?_
  refine (Takes.noEat _).skip ((h.item room .round).bind ?_ (.inr rfl)) (h.leads (by nofun) _)
  exact .eaten rfl (.pure _)

theorem atom_tuple (h : ∀ row ∈ rows, RowTakes row) :
    Takes (atom (expression room)) (enclosed .round (tupleRow (rows.map rowLexemes))) next (.tuple rows) := by
  refine Takes.peek fun p => .past rfl ?_
  match rows, h with
  | [], _ => exact .eaten rfl (.pure _)
  | [row], h =>
    have hr := h row mem_cons_self
    change Takes _ ((rowLexemes row ++ [.mark .comma]) ++ [.mark (.closing .round)]) _ _
    rw [append_assoc]
    refine (Takes.noEat _).skip ((hr.item room .round).bind ?_ (.inl rfl)) (hr.leads (by nofun) _)
    refine (Takes.noEat _).skip ((Takes.sees _).skip (more_takes_none.bind ?_ (isMark_iff.2 rfl)) rfl) (by nofun)
    exact .expected rfl (.pure _)
  | row :: row' :: rows, h =>
    obtain ⟨hr, hro⟩ := forall_mem_cons.1 h
    change Takes _ (commaRow ((row :: row' :: rows).map rowLexemes) ++ [.mark (.closing .round)]) _ _
    rw [map_cons, commaRow_cons, append_assoc]
    refine (Takes.noEat _).skip ((hr.item room .round).bind ?_ (.inl rfl)) (hr.leads (by nofun) _)
    refine (Takes.noEat _).skip ((Takes.sees _).skip ((moreRows_takes .round hro).bind ?_ rfl) rfl) (by nofun)
    exact .expected rfl (.pure _)

theorem atom_set (h : ∀ row ∈ rows, RowTakes row) (hs : rows ≠ []) :
    Takes (atom (expression room)) (enclosed .curly (commaRow (rows.map rowLexemes))) next (.set rows) := by
  refine Takes.peek fun q => .past rfl ?_
  obtain ⟨row, rows, rfl⟩ := exists_cons_of_ne_nil hs
  obtain ⟨hr, hro⟩ := forall_mem_cons.1 h
  change Takes _ (commaRow ((row :: rows).map rowLexemes) ++ [.mark (.closing .curly)]) _ _
  rw [map_cons, commaRow_cons, append_assoc]
  have hl {p : Lexeme → Prop} (hp : p (.mark .comma) ∧ p (.mark (.closing .curly))) :
      Leads ((rows.map rowLexemes).flatMap (.mark .comma :: ·) ++ [.mark (.closing .curly)]) next p := by
    cases rows with
    | nil => exact hp.2
    | cons => exact hp.1
  refine (Takes.noEat _).skip ((hr.item room .curly).bind ?_ (hl ⟨.inl rfl, .inr rfl⟩)) (hr.leads (by nofun) _)
  refine (Takes.noEat _).skip ((moreRows_takes .curly hro).bind ?_ rfl) (hl ⟨by nofun, by nofun⟩)
  exact .expected rfl (.pure _)

def EntryTakes : Entry → Prop
  | .pair key value => RowTakes key ∧ RowTakes value

theorem entry_takes (h : EntryTakes e) :
    Takes (entry (expression room)) e.lexemes (fun l => l = .mark .comma ∨ l = .mark (.closing .curly)) e := by
  obtain ⟨_, v⟩ := e
  refine (h.1.takes room).bind ?_ rfl
  exact .expected rfl ((h.2.item room .curly).map _)

theorem atom_dict (h : ∀ e ∈ es, EntryTakes e) :
    Takes (atom (expression room)) (enclosed .curly (commaRow (es.map Entry.lexemes))) next (.dict es) := by
  refine Takes.peek fun p => .past rfl ?_
  cases es with
  | nil => exact .eaten rfl (.pure _)
  | cons e es =>
    obtain ⟨he, hen⟩ := forall_mem_cons.1 h
    obtain ⟨key, v⟩ := e
    obtain ⟨hk, hv⟩ : RowTakes key ∧ RowTakes v := he
    change Takes _ (commaRow ((Entry.pair key v :: es).map Entry.lexemes) ++ [.mark (.closing .curly)]) _ _
    rw [map_cons, commaRow_cons, Entry.lexemes, append_assoc, append_assoc]
    have hr : Takes (more (Lexeme.isMark (.closing .curly)) (entry (expression room)))
        ((es.map Entry.lexemes).flatMap (.mark .comma :: ·)) (· = .mark (.closing .curly)) es := by
      refine more_takes (fun e he => entry_takes (hen e he)) (fun e he => ?_) ?_
      · obtain ⟨key, v⟩ := e
        obtain ⟨x, _, hxs, hx⟩ := (hen _ he).1.starts (m := .closing .curly) (by rintro _ ⟨⟩)
        rw [Entry.lexemes, hxs]
        exact ⟨x, _, rfl, isMark_eq_false hx⟩
      · rintro _ rfl ⟨⟩
    have hl : Leads ((es.map Entry.lexemes).flatMap (.mark .comma :: ·) ++ [.mark (.closing .curly)]) next
        fun l => l = .mark .comma ∨ l = .mark (.closing .curly) := by
      cases es with
      | nil => exact .inr rfl
      | cons => exact .inl rfl
    refine (Takes.noEat _).skip ((hk.takes room).bind ?_ rfl) (hk.leads (by rintro _ ⟨⟩) _)
    refine .eaten rfl ((hv.item room .curly).bind (hr.bind ?_ rfl) hl)
    exact .expected rfl (.pure _)

def ArgumentTakes : Argument → Prop
  | .positional value => RowTakes value
  | .keyword _ value => RowTakes value

theorem argument_takes (h : ArgumentTakes a) (hb : a.isKeyword = false → ∀ b ∈ bf.head?, b.isKeyword = false) :
    Takes (argument (expression room) bf) a.lexemes (fun l => l = .mark .comma ∨ l = .mark (.closing .round)) a := by
  cases a with
  | keyword nm v =>
    refine Takes.peek fun p => Takes.peekSecond fun y hy => ?_
    obtain rfl : _ = y := hy
    refine .past rfl (.past rfl ?_)
    exact (RowTakes.item h room .round).map _
  | positional v =>
    obtain ⟨x, xs, hxs, hx⟩ := RowTakes.opens h
    have hv := (RowTakes.item h room .round).map Argument.positional
    rw [hxs] at hv
    rw [Argument.lexemes, hxs]
    refine Takes.peek fun p => Takes.peekSecond fun y hy => ?_
    dsimp only
    split
    · cases hx
    · cases hx
    · rename_i nm ha
      cases ha
      cases xs with
      | nil =>
        have hm : Lexeme.mark .assign = .mark .comma ∨ Lexeme.mark .assign = .mark (.closing .round) := hy
        simp at hm
      | cons z zs =>
        obtain rfl : z = _ := hy
        exact absurd hxs (RowTakes.unnamed h nm zs)
    · split
      · rename_i nm v' bf
        cases hb rfl _ rfl
      · exact hv

theorem arguments_takes (h : ∀ a ∈ args, ArgumentTakes a) (hl : KeywordsLast args) :
    Takes (arguments (expression room)) (commaRow (args.map Argument.lexemes) ++ [.mark (.closing .round)]) next
      args := by
  refine items_takes (fun before a _ hal => ?_) fun a ha => ?_
  · refine argument_takes (h a (by rw [hal]; simp)) fun hp b hb => ?_
    rw [hal] at hl
    have hbe : b ∈ before := mem_reverse.1 (mem_of_mem_head? hb)
    refine Bool.eq_false_iff.2 fun hk => ?_
    rw [(pairwise_append.1 hl).2.2 b hbe a mem_cons_self hk] at hp
    cases hp
  · cases a with
    | positional value => exact RowTakes.starts (h _ ha) fun _ => by rintro ⟨⟩
    | keyword _ value => exact ⟨_, _, rfl, by rintro ⟨⟩⟩

theorem atom_call (x : String) (h : ∀ a ∈ args, ArgumentTakes a) (hl : KeywordsLast args) :
    Takes (atom (expression room)) (.name x :: enclosed .round (commaRow (args.map Argument.lexemes))) next
      (.call x args) := by
  refine Takes.peek fun p => .past rfl ?_
  exact .eaten rfl ((arguments_takes h hl).map _)

/-! ## What stands after an atom -/

theorem trailers_none (t : Token) : Takes (trailers room t) [] (closesOperand · = true) t := by
  cases room with
  | zero | succ =>
    refine Takes.peekNext fun l _ => ?_
    split <;> simp_all [closesOperand]
    exact .pure t

theorem trailers_member (hl : Leads row next (· ≠ .mark (.opening .round)))
    (h : ∀ room, Takes (trailers room (.member t m)) row next u) :
    Takes (trailers room t) (.mark .dot :: .name m :: row) next u := by
  cases room with
  | zero => exact Takes.peek fun _ => .tooDeep
  | succ room =>
    refine Takes.peek fun _ => .past rfl ?_
    exact (Takes.expectName m).first ((Takes.noEat _).skip (h room) hl)

theorem trailers_callMember (ha : ∀ a ∈ args, ArgumentTakes a) (hl : KeywordsLast args)
    (h : ∀ room, Takes (trailers room (.callMember t m args)) row next u) : Takes (trailers room t)
      (.mark .dot :: .name m :: enclosed .round (commaRow (args.map Argument.lexemes)) ++ row) next u := by
  cases room with
  | zero => exact Takes.peek fun _ => .tooDeep
  | succ room =>
    refine Takes.peek fun _ => .past rfl ?_
    refine (Takes.expectName m).first (.eaten rfl ?_)
    exact (arguments_takes ha hl).bind (h room) leads_any

theorem trailers_subscript
    (hi : ∀ room next, Takes (subscript (expression room) t) (inside ++ [.mark (.closing .square)]) next t')
    (h : ∀ room, Takes (trailers room t') row next u) :
    Takes (trailers room t) (enclosed .square inside ++ row) next u := by
  cases room with
  | zero => exact Takes.peek fun _ => .tooDeep
  | succ room =>
    refine Takes.peek fun _ => .past rfl ?_
    exact (hi room _).bind (h room) leads_any

/-- A bound of a slice that is read back, or is left open. -/
def BoundTakes (bound : List Token) : Prop :=
  bound ≠ [] → RowTakes bound

theorem bound_takes {i : Reader Expression} {isOpen : Lexeme → Bool} {b : List Token}
    (hi : b ≠ [] → Takes i (rowLexemes b) next b) (ho : b = [] → ∀ l, next l → isOpen l = true)
    (hf : b ≠ [] → ∃ x xs, rowLexemes b = x :: xs ∧ isOpen x = false) :
    Takes (Source.bound i isOpen) (rowLexemes b) next b := by
  by_cases hb : b = []
  · subst hb
    refine Takes.peekNext fun l hl => ?_
    rw [ho rfl _ hl]
    exact .pure []
  · obtain ⟨x, xs, hxs, hx⟩ := hf hb
    have h := hi hb
    rw [hxs] at h ⊢
    refine Takes.peek fun p => ?_
    rw [hx]
    exact h

theorem subscript_takes (h : RowTakes key) :
    Takes (subscript (expression room) t) (rowLexemes key ++ [.mark (.closing .square)]) next (.subscript t key) := by
  have hs : Takes (Source.bound (expression room) (Lexeme.isMark .colon)) (rowLexemes key) (closesRow · = true)
      key := by
    refine bound_takes (fun _ => h.takes room) ?_ fun _ => h.unmarked nofun
    rintro rfl
    obtain ⟨_, _, ⟨⟩, -⟩ := h.opens
  refine hs.bind ((Takes.noEat _).skip ((Takes.noSees _).skip ?_ (by nofun)) (by nofun)) rfl
  exact (Takes.pure key).skip (.expected rfl (.pure _)) leads_any

theorem slice_takes (hst : BoundTakes start) (hs : BoundTakes stop) : Takes (subscript (expression room) t)
      (rowLexemes start ++ .mark .colon :: rowLexemes stop ++ [.mark (.closing .square)]) next
      (.slice t start stop) := by
  have hf : Takes (Source.bound (expression room) (Lexeme.isMark .colon)) (rowLexemes start)
      (· = .mark .colon) start := by
    exact bound_takes (fun h => ((hst h).takes room).weaken (by rintro _ rfl; rfl)) (fun _ l hl => isMark_iff.2 hl)
      fun h => (hst h).unmarked nofun
  have hse : Takes (Source.bound (expression room) fun l => l.isMark .colon || l.isMark (.closing .square))
      (rowLexemes stop) (· = .mark (.closing .square)) stop := by
    refine bound_takes (fun h => ((hs h).takes room).weaken (by rintro _ rfl; rfl)) (by rintro _ _ rfl; rfl) fun h => ?_
    obtain ⟨x, xs, hxs, hco⟩ := (hs h).unmarked (m := .colon) nofun
    obtain ⟨x', xs', hxs', hc⟩ := (hs h).unmarked (m := .closing .square) nofun
    obtain ⟨rfl, rfl⟩ := List.cons.inj (hxs.symm.trans hxs')
    exact ⟨x, xs, hxs, by rw [hco, hc]; rfl⟩
  rw [append_assoc]
  refine hf.bind (.eaten rfl (hse.bind ?_ rfl)) rfl
  refine (Takes.noSees _).skip ?_ (by nofun)
  exact .expected rfl (.pure _)

/-! ## Operands and rows -/

theorem assigns_found (d : Nat) (ls : List Located) : assigns d true ls ≠ .ok false := by
  induction ls generalizing d with
  | nil => exact nofun
  | cons l ls ih =>
    obtain ⟨x, p⟩ := l
    unfold assigns
    repeat' split
    all_goals first
      | exact ih _
      | exact nofun

end Playback.Source

namespace Playback

open Source List

theorem Level.unnamed (h : Level 0 row) (s : String) (xs : List Lexeme) : row ≠ .name s :: .mark .assign :: xs := by
  rintro rfl
  have hn := h.assigns (l := (Lexeme.name s :: .mark .assign :: xs).map (⟨·, ⟨1, 1⟩⟩))
    (by simp [Function.comp_def]) 0 false []
  exact assigns_found 0 _ hn

theorem operand_takes {t : Token} (h : ∀ (room : Nat) {row : List Lexeme} {next : Lexeme → Prop} {u : Token},
      Leads row next (closesAtom · = true) → (∀ room, Takes (trailers room t) row next u) →
        Takes (operandIn room) (t.lexemes ++ row) next u) (room : Nat) :
    Takes (operandIn room) t.lexemes (closesOperand · = true) t := by
  have ho := @h room [] _ t (fun _ => closesAtom_of_operand) fun _ => trailers_none t
  rwa [append_nil] at ho

mutual

/-- **An operand is read back**, up to what stands after it. -/
theorem Token.Fits.operand {t : Token} (ht : t.Fits Token.Safe) (room : Nat) {row : List Lexeme} {next : Lexeme → Prop}
    {u : Token} (hl : Leads row next (closesAtom · = true)) (h : ∀ room, Takes (trailers room t) row next u) :
    Takes (operandIn room) (t.lexemes ++ row) next u := by
  match ht with
  | .int _ =>
    exact (atom_int _).bind (h room) leads_any
  | .string s =>
    exact (atom_string s).bind (h room) hl
  | .bool b =>
    exact (atom_bool b).bind (h room) leads_any
  | .none =>
    exact atom_none.bind (h room) leads_any
  | .name _ =>
    exact (atom_name _).bind (h room) hl
  | .call _ har hla =>
    rw [Token.lexemes, argumentRows_eq_map]
    exact (atom_call _ (fun a ha => (har a ha).takes) hla).bind (h room) leads_any
  | .callMember ho _ _ har hla =>
    rw [Token.lexemes, argumentRows_eq_map, append_assoc]
    exact ho.operand room rfl fun room => trailers_callMember (fun a ha => (har a ha).takes) hla h
  | .member ho _ _ =>
    rw [Token.lexemes, append_assoc]
    refine ho.operand room rfl fun room => trailers_member (hl.weaken ?_) h
    rintro _ hru rfl
    cases hru
  | .list hr =>
    rw [Token.lexemes, rowsLexemes_eq_map]
    exact (atom_list fun row hro => (hr row hro).rowTakes).bind (h room) leads_any
  | .tuple hr =>
    rw [Token.lexemes, rowsLexemes_eq_map]
    exact (atom_tuple fun row hro => (hr row hro).rowTakes).bind (h room) leads_any
  | .set hr hs =>
    rw [Token.lexemes, rowsLexemes_eq_map]
    exact (atom_set (fun row hro => (hr row hro).rowTakes) hs).bind (h room) leads_any
  | .dict hen =>
    rw [Token.lexemes, entryRows_eq_map]
    exact (atom_dict fun e he => (hen e he).takes).bind (h room) leads_any
  | .subscript hta hk =>
    rw [Token.lexemes, append_assoc]
    exact hta.operand room rfl fun room => trailers_subscript (fun _ _ => subscript_takes hk.rowTakes) h
  | .slice hta hst hso =>
    rw [Token.lexemes, append_assoc]
    exact hta.operand room rfl fun room => trailers_subscript
      (fun _ _ => slice_takes (fun hs => (hst hs).rowTakes) fun hs => (hso hs).rowTakes) h
  | .bracket hi =>
    exact (atom_bracket hi.rowTakes).bind (h room) leads_any

theorem RowFits.operandRow (hro : RowFits Token.Safe afterIs row) (room n : Nat) (hf : (rowLexemes row).length < n) :
    Takes (Source.operandRow (operandIn room) n) (rowLexemes row) (closesRow · = true) row := by
  match n, hro with
  | n + 1, .marked hs _ hr =>
    obtain ⟨x, hm, hp, -⟩ := prefixSymbol?_marker hs
    rw [rowLexemes, Token.lexemes, hm] at hf ⊢
    exact operandRow_marked hp (hr.operandRow room (n + 1) (Nat.lt_of_succ_lt hf))
  | n + 1, .last ht =>
    rw [rowLexemes, rowLexemes, append_nil]
    exact operandRow_last (operand_takes ht.operand room) ht.opens
  | n + 1, .joined ht hs hr =>
    obtain ⟨x, _, hxs, -⟩ := ht.opens
    obtain ⟨y, ys, hys, -, hy⟩ := hr.opens
    rw [rowLexemes, rowLexemes] at hf ⊢
    simp only [length_append, hxs, length_cons] at hf
    refine operandRow_joined (operand_takes ht.operand room) ht.opens hs ?_ (hr.operandRow room n (by omega))
    exact leads_of_cons ⟨y, ys, hys, fun his => hy (beq_iff_eq.2 his)⟩

/-- **A row is read back.** -/
theorem RowFits.rowTakes (hr : RowFits Token.Safe afterIs row) : RowTakes row := by
  obtain ⟨x, xs, hxs, hx, -⟩ := hr.opens
  refine ⟨⟨x, xs, hxs, hx⟩, hr.level.unnamed, fun room => ?_⟩
  cases room with
  | zero =>
    exact .tooDeep
  | succ room =>
    exact flatExpression_takes (hr.operandRow room)

theorem Argument.Fits.takes (ha : a.Fits Token.Safe) : ArgumentTakes a := by
  match ha with
  | .positional h | .keyword _ h => exact h.rowTakes

theorem Entry.Fits.takes (he : e.Fits Token.Safe) : EntryTakes e := by
  match he with
  | .pair hk hv => exact ⟨hk.rowTakes, hv.rowTakes⟩

end

end Playback
