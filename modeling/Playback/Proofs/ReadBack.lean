import Playback.Proofs.Rereading

/-!
# Reading the statements of a script

Statements are read back from their lexemes: simple ones with the end of their line, the others with their blocks. A
block is read by what reads statements one level further in; the number of lexemes bounds the levels.
-/

namespace Playback.Source

open Reader List

variable {next : Lexeme → Prop} {i : Reader (Option Statement)}

/-! ## Simple statements -/

theorem wholeExpression_takes (h : RowTakes row) : Takes wholeExpression (rowLexemes row) (closesRow · = true) row :=
  h.takes _

/-- Whether a row of expressions ends before this lexeme: no comma goes on with it. -/
def closesRows (l : Lexeme) : Bool :=
  closesRow l && !l.isMark .comma

theorem expressionRow_takes (h : RowTakes row) : Takes expressionRow (rowLexemes row) (closesRows · = true) row := by
  have hw : Takes wholeExpression (rowLexemes row) (closesRows · = true) row :=
    (wholeExpression_takes h).weaken fun l hl => (Bool.and_eq_true_iff.1 hl).1
  refine hw.last ((Takes.noSees _).skip (.pure _) ?_)
  rintro _ hl rfl
  cases hl

theorem target_takes (ht : t.Fits Token.Safe) (hta : t.isTarget = true) :
    Takes target t.lexemes (closesOperand · = true) t := by
  refine Takes.peekAny fun l => ?_
  have ho : Takes wholeOperand t.lexemes (closesOperand · = true) t := operand_takes ht.operand _
  cases t with
  | name | subscript => exact ho.last (.pure _)
  | _ => cases hta

def ClosesTargets (l : Lexeme) : Prop :=
  l = .mark .assign ∨ l = .keyword .in_

theorem targets_takes (h : TargetsFit Token.Safe places) :
    Takes targets (targetsLexemes places) ClosesTargets places := by
  obtain ⟨hs, hf⟩ := h
  obtain ⟨t, r, rfl⟩ := exists_cons_of_ne_nil hs
  obtain ⟨⟨ht, hta⟩, hr⟩ := forall_mem_cons.1 hf
  have hm : Takes (more (fun l => l.isMark .assign || l.isKeyword .in_) target)
      ((r.map Token.lexemes).flatMap (.mark .comma :: ·)) ClosesTargets r := by
    refine more_takes (fun t ht => (target_takes (hr t ht).1 (hr t ht).2).weaken ?_) (fun t ht => ?_) ?_
    · rintro _ (rfl | rfl | rfl) <;> rfl
    · obtain ⟨x, xs, hxs, hx⟩ := (hr t ht).1.opens
      refine ⟨x, xs, hxs, ?_⟩
      unfold opensOperand at hx
      split at hx <;> first | rfl | cases hx
    · rintro _ (rfl | rfl) <;> nofun
  rw [targetsLexemes, map_cons, commaRow_cons]
  refine (target_takes ht hta).bind (hm.map _) ?_
  cases r with
  | nil => rintro _ (rfl | rfl) <;> rfl
  | cons => exact rfl

theorem Takes.assigns (found : Bool) {β : Type} {f : Bool → Reader β} {row : List Lexeme} {b : β}
    (hfo : ∀ ls r, ls.map (·.lexeme) = row → Follows next r → assigns 0 false (ls ++ r) = .ok found)
    (hf : Takes (f found) row next b) : Takes (do
      let assigned ← Source.assigns 0 false (← get)
      f assigned) row next b := by
  intro ls r hls hr
  have hru : (do
      let assigned ← Source.assigns 0 false (← get)
      f assigned : Reader β) (ls ++ r) = f found (ls ++ r) := by
    change ((Source.assigns 0 false (ls ++ r) >>= fun a => .ok (a, ls ++ r)) >>= fun x => f x.1 x.2) = _
    rw [hfo ls r hls hr]
    rfl
  rw [hru]
  exact hf ls r hls hr

theorem assigns_newline (h : Follows (· = .mark .newline) r) (found : Bool) : assigns 0 found r = .ok found := by
  obtain ⟨⟨l, p⟩, _, rfl, hl⟩ := h
  obtain rfl : l = _ := hl
  rfl

theorem expressionStatement_expression (h : RowFits Token.Safe false v) :
    Takes expressionStatement (rowLexemes v) (· = .mark .newline) (.expression v) := by
  refine Takes.assigns false (fun _ r hls hr => ?_) ?_
  · rw [h.level.assigns hls 0 false r]
    exact assigns_newline hr false
  · exact ((expressionRow_takes h.rowTakes).weaken (by rintro _ rfl; rfl)).map _

theorem expressionStatement_assignment (hp : TargetsFit Token.Safe places) (hv : RowFits Token.Safe false v) :
    Takes expressionStatement (targetsLexemes places ++ .mark .assign :: rowLexemes v) (· = .mark .newline)
      (.assignment places v) := by
  refine Takes.assigns true (fun _ r hls hr => ?_) ?_
  · obtain ⟨_, _, rfl, hls1, hls2⟩ := map_eq_append_iff.1 hls
    obtain ⟨⟨l, p⟩, ls3, rfl, ha, hls3⟩ := map_eq_cons_iff.1 hls2
    obtain rfl : l = _ := ha
    rw [append_assoc, hp.level.assigns hls1 0 false]
    change assigns 0 true (ls3 ++ r) = _
    rw [hv.level.assigns hls3 0 true]
    exact assigns_newline hr true
  · refine (targets_takes hp).bind (.expected rfl ?_) (.inl rfl)
    exact ((expressionRow_takes hv.rowTakes).weaken (by rintro _ rfl; rfl)).map _

/-! ### Imports -/

theorem intercalate_nameParts (s : String) : ".".intercalate (nameParts s) = s := by
  apply String.toList_inj.1
  rw [nameParts]
  simp [Function.comp_def]

theorem rejectAlias_takes : Takes rejectAlias [] (· ≠ .keyword .as_) () := by
  refine Takes.peekNext fun l hl => ?_
  rw [isKeyword_eq_false hl]
  exact .pure ()

theorem dottedParts_takes (hf : parts.length < n) :
    Takes (dottedParts n) (parts.flatMap fun part => [.mark .dot, .name part]) (· ≠ .mark .dot) parts := by
  induction n generalizing parts with
  | zero => cases hf
  | succ n ih =>
    cases parts with
    | nil => exact (Takes.noEat _).skip (.pure _) fun _ hl => hl
    | cons part parts =>
      have hr := ih (Nat.lt_of_succ_lt_succ hf)
      exact .eaten rfl ((Takes.expectName part).first (hr.map (part :: ·)))

def ClosesName (l : Lexeme) : Prop :=
  l ≠ .mark .dot ∧ l ≠ .keyword .as_

theorem dottedName_takes (s : String) : Takes dottedName (dottedLexemes s) ClosesName s := by
  obtain ⟨part, parts, hp, hr⟩ := dottedLexemes_eq s
  rw [hr, singleton_append]
  refine (Takes.expectName part).first (Takes.remaining fun n hn => ?_)
  have hle : parts.length < n := by
    have hf := length_le_flatMap (.mark .dot) (fun part => [.name part]) parts
    rw [flatMap_map] at hf
    omega
  refine ((dottedParts_takes hle).weaken fun _ hl => hl.1).last ?_
  refine (rejectAlias_takes.weaken fun _ hl => hl.2).last ?_
  rw [← hp, intercalate_nameParts]
  exact .pure s

theorem importStatement_takes (hs : modules ≠ []) :
    Takes importStatement (.keyword .import_ :: commaRow (modules.map dottedLexemes)) (· = .mark .newline)
      (.import_ modules) := by
  obtain ⟨m, r, rfl⟩ := exists_cons_of_ne_nil hs
  have hm : Takes (more (fun _ => false) dottedName) ((r.map dottedLexemes).flatMap (.mark .comma :: ·))
      (· = .mark .newline) r := by
    refine more_takes (fun m _ => (dottedName_takes m).weaken ?_) (fun m _ => ?_) (by rintro _ rfl; nofun)
    · rintro _ (rfl | rfl) <;> exact ⟨nofun, nofun⟩
    · obtain ⟨_, _, -, hr⟩ := dottedLexemes_eq m
      exact ⟨_, _, hr, rfl⟩
  rw [map_cons, commaRow_cons]
  refine .past rfl ((dottedName_takes m).bind (hm.map _) ?_)
  cases r with
  | nil => rintro _ rfl; exact ⟨nofun, nofun⟩
  | cons => exact ⟨nofun, nofun⟩

theorem importedName_takes (x : String) : Takes importedName [.name x] (· ≠ .keyword .as_) x :=
  Takes.peek fun _ => (Takes.expectName x).bind (rejectAlias_takes.last (.pure x)) fun _ hl => hl

theorem fromImportStatement_takes (module : String) (hs : ns ≠ []) : Takes fromImportStatement
      (.keyword .from_ :: dottedLexemes module ++ .keyword .import_ :: namesLexemes ns) (· = .mark .newline)
      (.fromImport module ns) := by
  obtain ⟨x, r, rfl⟩ := exists_cons_of_ne_nil hs
  have hm : Takes (more (fun l => false && l.isMark (.closing .round)) importedName)
      ((r.map fun x => [Lexeme.name x]).flatMap (.mark .comma :: ·)) (· = .mark .newline) r := by
    refine more_takes (fun x _ => (importedName_takes x).weaken ?_) (fun x _ => ⟨_, _, rfl, rfl⟩) (by rintro _ rfl ⟨⟩)
    rintro _ (rfl | rfl) ⟨⟩
  rw [namesLexemes, map_cons, commaRow_cons]
  refine .past rfl ((dottedName_takes module).bind ?_ ⟨by rintro ⟨⟩, by rintro ⟨⟩⟩)
  refine (Takes.expectKeyword _).first ((Takes.noEat _).skip ?_ (by rintro ⟨⟩))
  refine (importedName_takes x).bind (hm.last (.pure _)) ?_
  cases r with
  | nil => rintro _ rfl ⟨⟩
  | cons => rintro ⟨⟩

/-! ### Lines -/

theorem simpleBody_expression (hx : opensRow x = true)
    (h : Takes expressionStatement (x :: row) (· = .mark .newline) s) :
    Takes simpleBody (x :: row) (· = .mark .newline) (some s) := by
  refine Takes.peek fun p => ?_
  dsimp only
  split
  case h_7 => exact h.map some
  all_goals cases hx

theorem returnStatement_takes (h : v ≠ [] → RowFits Token.Safe false v) :
    Takes simpleBody (.keyword .return_ :: rowLexemes v) (· = .mark .newline) (some (.return_ v)) := by
  have hb : Takes (bound expressionRow (Lexeme.isMark .newline)) (rowLexemes v) (· = .mark .newline) v := by
    exact bound_takes (fun hs => (expressionRow_takes (h hs).rowTakes).weaken (by rintro _ rfl; rfl))
      (fun _ _ => isMark_iff.2) fun hs => (h hs).rowTakes.unmarked nofun
  exact Takes.peek fun _ => .past rfl (hb.map (some <| Statement.return_ ·))

theorem break_takes : Takes simpleBody [.keyword .break_] next (some .break_) :=
  Takes.peek fun _ => .past rfl (.pure _)

theorem continue_takes : Takes simpleBody [.keyword .continue_] next (some .continue_) :=
  Takes.peek fun _ => .past rfl (.pure _)

theorem simpleStatement_takes (h : Takes simpleBody row (· = .mark .newline) s) :
    Takes simpleStatement (row ++ [.mark .newline]) next s :=
  h.bind (Takes.expectNewline.first (.pure s)) rfl

/-- Whether a statement that fills a line starts with this lexeme. -/
def startsSimple : Lexeme → Bool
  | .keyword .pass | .keyword .break_ | .keyword .continue_ => true
  | .keyword .return_ | .keyword .import_ | .keyword .from_ => true
  | l => opensRow l

theorem statementWith_simple (hx : startsSimple x = true) (h : Takes simpleBody (x :: row) (· = .mark .newline) s) :
    Takes (statementWith i) (x :: row ++ [.mark .newline]) next s := by
  have hs : Takes simpleStatement (x :: row ++ [.mark .newline]) next s := simpleStatement_takes h
  refine Takes.peek fun p => ?_
  dsimp only
  split
  case h_10 => exact hs
  all_goals cases hx

/-! ## Blocks -/

/-- Another statement or the end of a block starts with this lexeme. -/
def StartsNext (l : Lexeme) : Prop :=
  l ≠ .keyword .elif ∧ l ≠ .keyword .else_

/-- A statement that is read back at some level. -/
structure StatementTakes (i : Reader (Option Statement)) (s : Statement) : Prop where
  starts : ∃ x xs, s.lexemes = x :: xs ∧ StartsNext x ∧ x ≠ .mark .dedent ∧ x ≠ .mark .endOfFile
  takes : Takes i s.lexemes StartsNext (some s)

theorem StatementTakes.ne_nil (h : StatementTakes i s) : s.lexemes ≠ [] := by
  obtain ⟨x, _, hxs, -⟩ := h.starts
  rw [hxs]
  exact nofun

theorem leads_statements (h : ∀ s ∈ bd, StatementTakes i s)
    (hr : Leads r next StartsNext) : Leads (statementsLexemes bd ++ r) next StartsNext := by
  cases bd with
  | nil => exact hr
  | cons s bd =>
    obtain ⟨x, _, hxs, hx, -⟩ := (h s mem_cons_self).starts
    rw [statementsLexemes, hxs]
    exact hx

/-- **The statements of a block are read up to its end.** -/
theorem indented_takes {bd : List Statement} {n : Nat} (h : ∀ s ∈ bd, StatementTakes i s) (hf : bd.length < n) :
    Takes (indented i n) (statementsLexemes bd ++ [.mark .dedent]) next bd := by
  induction n generalizing bd with
  | zero => cases hf
  | succ n ih =>
    cases bd with
    | nil => exact .eaten rfl (.pure _)
    | cons s bd =>
      obtain ⟨hs, hb⟩ := forall_mem_cons.1 h
      obtain ⟨x, _, hxs, -, hd, he⟩ := hs.starts
      have hr := ih hb (Nat.lt_of_succ_lt_succ hf)
      rw [statementsLexemes, append_assoc]
      have hl : Leads (statementsLexemes bd ++ [.mark .dedent]) next StartsNext :=
        leads_statements hb ⟨nofun, nofun⟩
      refine (Takes.noEat _).skip ((Takes.noSees _).skip (hs.takes.bind (hr.map (s :: ·)) hl) ?_) ?_
      · exact leads_of_cons ⟨x, _, by rw [hxs]; rfl, he⟩
      · exact leads_of_cons ⟨x, _, by rw [hxs]; rfl, hd⟩

theorem length_le_statementsLexemes (h : ∀ s ∈ bd, s.lexemes ≠ []) : bd.length ≤ (statementsLexemes bd).length := by
  induction bd with
  | nil => exact Nat.zero_le _
  | cons s bd ih =>
    obtain ⟨hs, hb⟩ := forall_mem_cons.1 h
    have hf := length_pos_iff.2 hs
    have hr := ih hb
    rw [statementsLexemes, length_append, length_cons]
    omega

def blockLexemes (bd : List Statement) : List Lexeme :=
  .mark .colon :: .mark .newline :: .mark .indent :: (bodyLexemes bd ++ [.mark .dedent])

theorem headed_bodyLexemes (header : List Lexeme) (bd : List Statement) :
    headed header (bodyLexemes bd) = header ++ blockLexemes bd := by
  simp [headed, blockLexemes]

/-- A block that is read back: its statements are, or there are none and a `pass` is. -/
structure BodyTakes (i : Reader (Option Statement)) (bd : List Statement) : Prop where
  statements : ∀ s ∈ bd, StatementTakes i s
  pass : bd = [] → Takes i [.keyword .pass, .mark .newline] (· = .mark .dedent) none

/-- **A block is read back after its header.** -/
theorem block_takes {bd : List Statement}
    (h : BodyTakes i bd) : Takes (block i) (blockLexemes bd) next bd := by
  refine .expected rfl ?_
  refine .eaten rfl ?_
  refine .eaten rfl (Takes.remaining fun n hn => ?_)
  rw [length_append, length_singleton] at hn
  cases bd with
  | nil =>
    obtain ⟨k, rfl⟩ : ∃ k, n = k + 2 := ⟨n - 2, by omega⟩
    have hd : Takes (indented i (k + 1)) [.mark .dedent] next [] :=
      .eaten rfl (.pure _)
    refine (Takes.noEat _).skip ((Takes.noSees _).skip ?_ (by nofun)) (by nofun)
    exact (h.pass rfl).bind (hd.map _) rfl
  | cons s bd =>
    refine indented_takes h.statements ?_
    have hl : (s :: bd).length ≤ (bodyLexemes (s :: bd)).length :=
      length_le_statementsLexemes fun s hs => (h.statements s hs).ne_nil
    omega

/-! ## Compound statements -/

theorem parameter_takes (hn : x ∉ b) :
    Takes (parameter b) [.name x] (fun l => l = .mark .comma ∨ l = .mark (.closing .round)) x := by
  refine Takes.peek fun p => Takes.peek fun _ => Takes.peekSecond fun y _ => ?_
  refine (Takes.expectName x).first ?_
  refine (Takes.noSees _).skip ((Takes.noSees _).skip ?_ ?_) ?_
  · have hc : b.contains x = false := by simpa using hn
    rw [hc]
    exact .pure x
  · rintro _ (rfl | rfl) <;> nofun
  · rintro _ (rfl | rfl) <;> nofun

theorem functionStatement_takes (hd : ps.Nodup) (hbo : BodyTakes i bd) : Takes (functionStatement (block i))
      (.keyword .def_ :: .name x :: enclosed .round (namesLexemes ps) ++ blockLexemes bd) next
      (.function x (some x) ps bd) := by
  have hp : Takes (items .round "',' or ')'" parameter)
      (commaRow (ps.map fun x => [.name x]) ++ [.mark (.closing .round)]) (· = .mark .colon) ps := by
    refine items_takes (fun b x a hp => parameter_takes ?_) fun x _ => ⟨_, _, rfl, nofun⟩
    rw [hp, nodup_append] at hd
    intro hb
    exact hd.2.2 x (mem_reverse.1 hb) x mem_cons_self rfl
  refine .past rfl ((Takes.expectName x).first ?_)
  refine .expected rfl (hp.bind ((Takes.noSees _).skip ?_ (by nofun)) rfl)
  exact (block_takes hbo).map _

/-- A link of a conditional that is read back. -/
def LinkTakes (i : Reader (Option Statement)) : Link → Prop
  | .elif condition bd => RowTakes condition ∧ BodyTakes i bd
  | .else_ bd => BodyTakes i bd

/-- **The links of a conditional are read back**, with an `else` only as the last of them. -/
theorem links_takes {ks : List Link} {n : Nat}
    (h : ∀ k ∈ ks, LinkTakes i k) (he : ks.Pairwise fun k _ => k.isElse = false) (hf : ks.length < n) :
    Takes (links (block i) n) (linksLexemes ks) StartsNext ks := by
  induction n generalizing ks with
  | zero => cases hf
  | succ n ih =>
    cases ks with
    | nil =>
      refine Takes.peekNext fun l hl => ?_
      split
      case h_1 heq => exact absurd heq hl.1
      case h_2 heq => exact absurd heq hl.2
      case h_3 => exact .pure _
    | cons k ks =>
      obtain ⟨hk, hks⟩ := forall_mem_cons.1 h
      obtain ⟨hfi, he⟩ := pairwise_cons.1 he
      have hr := ih hks he (Nat.lt_of_succ_lt_succ hf)
      cases k with
      | elif c bd =>
        obtain ⟨hc, hb⟩ := hk
        rw [linksLexemes, headed_bodyLexemes, append_assoc]
        refine Takes.peek fun _ => .past rfl ?_
        exact (wholeExpression_takes hc).bind ((block_takes hb).bind (hr.map _) leads_any) rfl
      | else_ bd =>
        -- nothing comes after an `else`
        obtain rfl : ks = [] := eq_nil_iff_forall_not_mem.2 fun k hk => by
          cases hfi k hk
        rw [linksLexemes, linksLexemes, append_nil]
        exact Takes.peek fun _ => .past rfl ((block_takes hk).map _)

theorem length_le_linksLexemes (ks : List Link) : ks.length ≤ (linksLexemes ks).length := by
  induction ks with
  | nil => exact Nat.zero_le _
  | cons k ks _ =>
    cases k <;> simp only [linksLexemes, headed_bodyLexemes, length_append, length_cons] <;> omega

theorem conditionalStatement_takes (hc : RowTakes c) (hb : BodyTakes i bd) (hl : ∀ k ∈ ks, LinkTakes i k)
    (he : ks.Pairwise fun k _ => k.isElse = false) : Takes (conditionalStatement (block i))
      (.keyword .if_ :: rowLexemes c ++ blockLexemes bd ++ linksLexemes ks) StartsNext
      (.conditional c bd ks) := by
  rw [append_assoc]
  refine .past rfl ((wholeExpression_takes hc).bind ?_ rfl)
  refine (block_takes hb).bind (Takes.remaining fun n hn => ?_) leads_any
  exact (links_takes hl he (Nat.lt_of_le_of_lt (length_le_linksLexemes ks) hn)).map _

theorem rejectLoopElse_takes : Takes rejectLoopElse [] StartsNext () := by
  refine Takes.peekNext fun l hl => ?_
  rw [isKeyword_eq_false hl.2]
  exact .pure ()

theorem whileStatement_takes (hc : RowTakes c) (hb : BodyTakes i bd) :
    Takes (whileStatement (block i)) (.keyword .while_ :: rowLexemes c ++ blockLexemes bd) StartsNext
      (.whileLoop c bd) := by
  refine .past rfl ((wholeExpression_takes hc).bind ?_ rfl)
  exact (block_takes hb).last (rejectLoopElse_takes.last (.pure _))

theorem forStatement_takes (hp : TargetsFit Token.Safe places) (hi : RowTakes it) (hb : BodyTakes i bd) :
    Takes (forStatement (block i))
      (.keyword .for_ :: targetsLexemes places ++ .keyword .in_ :: rowLexemes it ++ blockLexemes bd) StartsNext
      (.forLoop places it bd) := by
  rw [append_assoc]
  refine .past rfl ((targets_takes hp).bind ?_ (.inr rfl))
  refine (Takes.expectKeyword _).first ((expressionRow_takes hi).bind ?_ rfl)
  exact (block_takes hb).last (rejectLoopElse_takes.last (.pure _))

end Playback.Source

namespace Playback

open Source Reader List

/-! ## Whole scripts -/

theorem Source.StatementTakes.simple {x : Lexeme} (hl : s.lexemes = x :: row ++ [.mark .newline])
    (hx : startsSimple x = true) (h : Takes simpleBody (x :: row) (· = .mark .newline) (some s)) :
    StatementTakes (statementWith i) s where
  starts := by
    refine ⟨x, _, hl, ⟨?_, ?_⟩, ?_, ?_⟩ <;> (rintro rfl; cases hx)
  takes := by
    rw [hl]
    exact statementWith_simple hx h

theorem Source.StatementTakes.line (hl : s.lexemes = row ++ [.mark .newline])
    (hr : ∃ x xs, row = x :: xs ∧ opensRow x = true) (h : Takes expressionStatement row (· = .mark .newline) s) :
    StatementTakes (statementWith i) s := by
  obtain ⟨x, xs, rfl, hx⟩ := hr
  refine .simple hl ?_ (simpleBody_expression hx h)
  unfold startsSimple
  split <;> first | rfl | exact hx

theorem pass_takes (hd : 0 < d) {next : Lexeme → Prop} :
    Takes (statement d) [.keyword .pass, .mark .newline] next none := by
  have hb : Takes simpleBody [.keyword .pass] (· = .mark .newline) none :=
    Takes.peek fun _ => .past rfl (.pure none)
  cases d with
  | zero => cases hd
  | succ d => exact statementWith_simple rfl hb

theorem TargetsFit.opens (h : TargetsFit Token.Safe places) :
    ∃ x xs, targetsLexemes places = x :: xs ∧ opensRow x = true := by
  obtain ⟨hs, hf⟩ := h
  obtain ⟨t, r, rfl⟩ := exists_cons_of_ne_nil hs
  obtain ⟨x, xs, hxs, hx⟩ := (hf t mem_cons_self).1.opens
  rw [targetsLexemes, map_cons, commaRow_cons, hxs]
  exact ⟨x, _, rfl, opensRow_of_operand hx⟩

theorem length_le_of_mem (hs : s ∈ bd) : s.lexemes.length ≤ (statementsLexemes bd).length := by
  induction hs with
  | head r =>
    rw [statementsLexemes, length_append]
    exact Nat.le_add_right ..
  | tail _ _ ih =>
    rw [statementsLexemes, length_append]
    exact Nat.le_trans ih (Nat.le_add_left ..)

theorem statementsLexemes_length_le (bd : List Statement) :
    (statementsLexemes bd).length ≤ (bodyLexemes bd).length := by
  cases bd with
  | nil => exact Nat.zero_le _
  | cons s bd => exact Nat.le_refl _

theorem Source.BodyTakes.of_statements (h : ∀ s ∈ bd, ∀ d, s.lexemes.length < d → StatementTakes (statement d) s)
    (hd : (bodyLexemes bd).length < d) : BodyTakes (statement d) bd where
  statements s hs := by
    have hl := length_le_of_mem hs
    have hb := statementsLexemes_length_le bd
    exact h s hs d (by omega)
  pass _ := pass_takes (Nat.zero_lt_of_lt hd)

theorem length_headed (header b : List Lexeme) : (headed header b).length = header.length + b.length + 4 := by
  simp only [headed, length_append, length_cons, length_nil]
  omega

theorem linksLexemes_length_le (hk : k ∈ ks) : (linksLexemes [k]).length ≤ (linksLexemes ks).length := by
  induction hk with
  | head r => cases k <;> simp only [linksLexemes, length_append, length_nil] <;> omega
  | tail k' _ _ => cases k' <;> rw [linksLexemes, length_append] <;> omega

mutual

/-- **A statement is read back** where more blocks are allowed than it has lexemes. -/
theorem Statement.Fits.takes {s : Statement} (hs : s.Fits Token.Safe) (d : Nat)
    (hd : s.lexemes.length < d) : StatementTakes (statement d) s := by
  obtain ⟨d, rfl⟩ := Nat.exists_eq_add_one_of_ne_zero (Nat.ne_zero_of_lt hd)
  match hs with
  | .comment _ =>
    refine ⟨⟨_, _, rfl, ⟨nofun, nofun⟩, nofun, nofun⟩, Takes.peek fun _ => ?_⟩
    exact .past rfl (Takes.expectNewline.first (.pure _))
  | .expression h => exact .line rfl h.rowTakes.opens (expressionStatement_expression h)
  | .assignment ht hv =>
    refine .line rfl ?_ (expressionStatement_assignment ht hv)
    obtain ⟨x, _, hxs, hx⟩ := ht.opens
    exact ⟨x, _, by rw [hxs]; rfl, hx⟩
  | .conditional hc hb hl he =>
    rw [Statement.lexemes, length_append, length_headed] at hd
    refine ⟨⟨_, _, rfl, ⟨nofun, nofun⟩, nofun, nofun⟩, ?_⟩
    rw [Statement.lexemes, headed_bodyLexemes]
    refine Takes.peek fun _ => (conditionalStatement_takes hc.rowTakes ?_ (fun k hk => ?_) he).map some
    · exact .of_statements (fun s hs => (hb s hs).takes) (by omega)
    · have hle := linksLexemes_length_le hk
      exact (hl k hk).takes d (by omega)
  | .whileLoop hc hb =>
    rw [Statement.lexemes, length_headed] at hd
    refine ⟨⟨_, _, rfl, ⟨nofun, nofun⟩, nofun, nofun⟩, ?_⟩
    rw [Statement.lexemes, headed_bodyLexemes]
    refine Takes.peek fun _ => (whileStatement_takes hc.rowTakes ?_).map some
    exact .of_statements (fun s hs => (hb s hs).takes) (by omega)
  | .forLoop ht hi hb =>
    rw [Statement.lexemes, length_headed] at hd
    refine ⟨⟨_, _, rfl, ⟨nofun, nofun⟩, nofun, nofun⟩, ?_⟩
    rw [Statement.lexemes, headed_bodyLexemes]
    refine Takes.peek fun _ => (forStatement_takes ht hi.rowTakes ?_).map some
    exact .of_statements (fun s hs => (hb s hs).takes) (by omega)
  | .function _ _ hdi hb =>
    rw [Statement.lexemes, length_headed] at hd
    refine ⟨⟨_, _, rfl, ⟨nofun, nofun⟩, nofun, nofun⟩, ?_⟩
    rw [Statement.lexemes, headed_bodyLexemes]
    refine Takes.peek fun _ => (functionStatement_takes hdi ?_).map some
    exact .of_statements (fun s hs => (hb s hs).takes) (by omega)
  | .return_ h => exact .simple rfl rfl (returnStatement_takes h)
  | .break_ => exact .simple rfl rfl break_takes
  | .continue_ => exact .simple rfl rfl continue_takes
  | .import_ hso _ => exact .simple rfl rfl (Takes.peek fun _ => (importStatement_takes hso).map some)
  | .fromImport _ hso _ => exact .simple rfl rfl (Takes.peek fun _ => (fromImportStatement_takes _ hso).map some)

theorem Link.Fits.takes {k : Link} (hk : k.Fits Token.Safe) (d : Nat) (hd : (linksLexemes [k]).length < d) :
    LinkTakes (statement d) k := by
  match hk with
  | .elif hc hb =>
    rw [linksLexemes, length_append, length_headed] at hd
    exact ⟨hc.rowTakes, .of_statements (fun s hs => (hb s hs).takes) (by omega)⟩
  | .else_ hb =>
    rw [linksLexemes, length_append, length_headed] at hd
    exact .of_statements (fun s hs => (hb s hs).takes) (by omega)

end

theorem fileBody_takes (h : ∀ s ∈ sc, StatementTakes i s) (hf : sc.length < n) :
    Takes (fileBody i n) (statementsLexemes sc) (· = .mark .endOfFile) sc := by
  induction n generalizing sc with
  | zero => cases hf
  | succ n ih =>
    cases sc with
    | nil => exact (Takes.sees _).skip (.pure _) fun _ hl => hl
    | cons s sc =>
      obtain ⟨hs, hsc⟩ := forall_mem_cons.1 h
      obtain ⟨x, _, hxs, -, -, he⟩ := hs.starts
      have hr := ih hsc (Nat.lt_of_succ_lt_succ hf)
      have hle : Leads (statementsLexemes sc ++ []) (· = .mark .endOfFile) StartsNext :=
        leads_statements hsc (by rintro _ rfl; exact ⟨nofun, nofun⟩)
      rw [append_nil] at hle
      rw [statementsLexemes]
      refine (Takes.noSees _).skip (hs.takes.bind (hr.map (s :: ·)) hle) ?_
      exact leads_of_cons ⟨x, _, by rw [hxs]; rfl, he⟩

/-- **The lexemes of a script are read as the script**, unless something in it is nested too deep. -/
theorem fileScript_of_lexemes {sc : Script} (h : ∀ s ∈ sc, s.Fits Token.Safe) {ls : List Located}
    (hls : ls.map (·.lexeme) = statementsLexemes sc ++ [.mark .endOfFile]) :
    fileScript ls = .ok sc ∨ ∃ p, fileScript ls = .error (.invalid .tooDeep p) := by
  have hle : (statementsLexemes sc).length < ls.length := by
    have hb := congrArg length hls
    rw [length_map, length_append, length_singleton] at hb
    omega
  have hst : ∀ s ∈ sc, StatementTakes (statement (ls.length + 1)) s := by
    intro s hs
    have hm := length_le_of_mem hs
    exact (h s hs).takes _ (by omega)
  have hf : sc.length < ls.length + 1 := by
    have hso := length_le_statementsLexemes fun s hs => (hst s hs).ne_nil
    omega
  obtain ⟨row, r, rfl, hro, hr⟩ := map_eq_append_iff.1 hls
  obtain ⟨l, tail, rfl, hl, -⟩ := map_eq_cons_iff.1 hr
  have hre := fileBody_takes hst hf row (l :: tail) hro ⟨l, tail, rfl, hl⟩
  change (Prod.fst <$> fileBody _ _ _) = _ ∨ ∃ p, (Prod.fst <$> fileBody _ _ _) = _
  rcases hre with hok | ⟨p, he⟩
  · rw [hok]
    exact .inl rfl
  · rw [he]
    exact .inr ⟨p, rfl⟩

end Playback
