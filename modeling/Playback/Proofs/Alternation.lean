import Playback.Proofs.Precedence
import Playback.Proofs.Resolving
import Playback.Proofs.WellFormed

/-!
# Rows and the tokens of their trees

A row resolves if and only if it is well formed, unless there are too many levels, and its tree is that of a grouping
whose operators and operands, read from the left, are the row (`expression_alternates`). That a row which is well formed
resolves is `below_resolves`; the converse is a `Reading`: what has been taken in so far is the row of a grouping.
-/

namespace Playback

variable {e l r : Expr} {ts : List Token}

namespace Resolve

/-! ## The row of a grouping -/

namespace Grouping

mutual

/-- The operators and operands of a grouping, read from the left. -/
def row : Grouping → List Token
  | .operand token => [token]
  | .unary op inner => .operator op.symbol :: inner.row
  | .binary op left right => left.row ++ .operator op.symbol :: right.row
  | .bool op left right => left.row ++ .operator op.symbol :: right.row
  | .compare first rest => first.row ++ runRow rest

/-- The tokens that a run of comparisons goes on with. -/
def runRow : List (CompareOp × Grouping) → List Token
  | [] => []
  | (op, g) :: rest => .operator op.symbol :: g.row ++ runRow rest

end

theorem runRow_append (r more : List (CompareOp × Grouping)) : runRow (r ++ more) = runRow r ++ runRow more := by
  induction r with
  | nil => rfl
  | cons c r ih => simp [runRow, ih]

theorem row_combine (op : Operator) (chainable : Bool) (lhs rhs : Grouping) :
    (combine op chainable lhs rhs).1.row = lhs.row ++ .operator op.symbol :: rhs.row := by
  cases op with
  | bool | binary => rfl
  | compare op =>
    unfold combine
    dsimp only
    split <;> simp [row, runRow, runRow_append, Operator.symbol]

/-- The grouping has a tree, and its row is well formed with anything after it that is. -/
structure Stands (g : Grouping) (e : Expr) : Prop where
  tree : g.tree = .ok e
  wellFormed {rest : List Token} : RestWellFormed rest → RowWellFormed (g.row ++ rest)

theorem Stands.operand (ht : t.WellFormed) (h : Resolve.operand t = .ok e) : (Grouping.operand t).Stands e where
  tree := h
  wellFormed := .operand ht

theorem Stands.unary (h : g.Stands e) : (Grouping.unary op g).Stands (.unary op e) where
  tree := by rw [Grouping.tree, h.tree]; rfl
  wellFormed hr := .marked (unaryOfSymbol?_symbol op) (h.wellFormed hr)

theorem Stands.combine (hl : lhs.Stands l) (hr : rhs.Stands r) (hc : chainable = true → lhs.isRun = true) :
    (Grouping.combine op chainable lhs rhs).1.Stands (Resolve.combine op chainable l r).1 where
  tree := by rw [tree_combine hc, hl.tree, hr.tree]; rfl
  wellFormed hre := by
    rw [row_combine, List.append_assoc]
    exact hl.wellFormed (.joined (ofSymbol?_symbol op) (hr.wellFormed hre))

end Grouping

/-! ## What has been taken in -/

/-- The tree is that of the tokens; there is none if there are no tokens. -/
def IsReadOff (tokens : List Token) : Option Expr → Prop
  | none => tokens = []
  | some e => ∃ g : Grouping, g.Stands e ∧ g.row = tokens

theorem IsReadOff.wellFormed (h : IsReadOff ts (some e)) : RowWellFormed ts := by
  obtain ⟨g, hg, rfl⟩ := h
  exact List.append_nil g.row ▸ hg.wellFormed .done

theorem IsReadOff.of_ne_nil {e : Option Expr} (h : IsReadOff ts e) (hne : ts ≠ []) : RowWellFormed ts := by
  cases e with
  | none => exact absurd h hne
  | some e => exact h.wellFormed

theorem required_wellFormed (tag set : String) {e : Option Expr} (h : IsReadOff ts e) :
    Yields (required tag set e) fun _ => RowWellFormed ts := by
  cases e with
  | none => exact .error _
  | some e => exact .ok h.wellFormed

section

variable {whole : List Token → Except CompileError (Option Expr)}
variable (hw : ∀ tokens, Yields (whole tokens) (IsReadOff tokens))

include hw

theorem elements_wellFormed (rows : List (List Token)) :
    Yields (elements whole rows) fun _ => ∀ row ∈ rows, row ≠ [] → RowWellFormed row :=
  (Yields.mapM_inputs fun row => (hw row).mono fun _ he hne => he.of_ne_nil hne).bind fun _ h => .ok h

theorem entries_wellFormed (rows : List Entry) : Yields (entries whole rows) fun _ => ∀ e ∈ rows, e.WellFormed := by
  refine Yields.mapM_inputs fun row => ?_
  cases row with
  | pair key value =>
    refine (hw key).bind fun k hk => (required_wellFormed _ _ hk).bind fun k hk => ?_
    exact (hw value).bind fun v hv => (required_wellFormed _ _ hv).bind fun v hv => .ok (.pair hk hv)

theorem arguments_wellFormed (as : List Argument) : Yields (arguments whole as) fun _ => ∀ a ∈ as, a.WellFormed := by
  induction as with
  | nil => exact .ok nofun
  | cons arg _ ih =>
    cases arg with
    | positional v =>
      refine (hw v).bind fun e he => ih.bind fun r hr => .ok (List.forall_mem_cons.2 ⟨?_, hr⟩)
      exact .positional he.of_ne_nil
    | keyword x v =>
      refine (hw v).bind fun e he => (required_wellFormed _ _ he).bind fun e he => ?_
      exact ih.bind fun r hr => .ok (List.forall_mem_cons.2 ⟨.keyword x he, hr⟩)

end

theorem operandWith_wellFormed {n : Nat} (hw : ∀ ts, Yields (wholeWith (below n) ts) (IsReadOff ts))
    (ho : ∀ t, Yields (operandWith (below n) t) fun _ => t.WellFormed) (t : Token) :
    Yields (operandWith (below (n + 1)) t) fun _ => t.WellFormed := by
  cases t with
  | operator _ => exact .error _
  | number n => exact (Yields.self _).bind fun c hc => .ok (.number ((numberConstant_isOk n).1 ⟨c, hc⟩))
  | string s => exact .ok (.string s)
  | bool b => exact .ok (.bool b)
  | none => exact .ok .none
  | name s => exact .ok (.name s)
  | call x as => exact (arguments_wellFormed hw as).bind fun r hr => .ok (.call x hr)
  | callMember object m as =>
    refine (arguments_wellFormed hw as).bind fun r hr => (ho object).bind fun e he => ?_
    exact .ok (.callMember m he hr)
  | member object m => exact (ho object).bind fun e he => .ok (.member m he)
  | list rows | tuple rows | set rows =>
    exact (elements_wellFormed hw rows).bind fun es hes => .ok (by constructor; exact hes)
  | dict rows => exact (entries_wellFormed hw rows).bind fun es hes => .ok (.dict hes)
  | subscript tg key =>
    refine (ho tg).bind fun e he => (hw key).bind fun k hk => ?_
    exact (required_wellFormed _ _ hk).bind fun k hk => .ok (.subscript he hk)
  | slice tg start stop =>
    refine (ho tg).bind fun e he => (hw start).bind fun l hl => ?_
    exact (hw stop).bind fun u hu => .ok (.slice he hl.of_ne_nil hu.of_ne_nil)
  | bracket i => exact (hw i).bind fun e he => (required_wellFormed _ _ he).mono fun e he => .bracket he

/-- Every token that is taken in is part of a grouping, in its place. -/
def tokenReading : Reading where
  operand _ token e := token.WellFormed ∧ operand token = .ok e
  leaf _ tokens r := ∃ g : Grouping, g.Stands r.1 ∧ g.row ++ r.2 = tokens
  climb _ c r r' := ∀ g : Grouping, g.Stands r.1 →
    ∃ g' : Grouping, g'.Stands r'.1 ∧ g'.row ++ r'.2 = g.row ++ r.2 ∧ (c = true → g'.isRun = true)
  whole _ := IsReadOff
  nested hn hw ho e he := by
    refine ⟨operandWith_wellFormed hw (fun token => (ho token).mono fun _ h => h.1) _ e he, ?_⟩
    -- fewer levels than there are in all can only make it fail
    rcases cut_operand hn _ with hcu | hcu
    · rw [← hcu, he]
    · rw [hcu] at he
      cases he
  alone rest h := ⟨.operand _, .operand h.1 h.2, rfl⟩
  marked hop := by
    rintro ⟨g, hg, rfl⟩ hcl
    obtain ⟨g', hg', hr, -⟩ := hcl g hg
    refine ⟨.unary _ g', hg'.unary, ?_⟩
    rw [Grouping.row, symbol_of_prefixOp hop, List.cons_append, hr]
  extended := by
    rintro n _ r r' c ⟨g, hg, rfl⟩ hcl
    obtain ⟨g', hg', hr, -⟩ := hcl g hg
    exact ⟨g', hg', hr⟩
  start r g hg := ⟨g, hg, rfl, nofun⟩
  step := by
    rintro n c first r lhs tokens rest op hcl hp ⟨h, hh, rfl⟩ g hg
    obtain ⟨g', hg', hr, hru⟩ := hcl g hg
    refine ⟨_, hg'.combine hh hru, ?_, fun hc => ?_⟩
    · rw [Grouping.row_combine, ← hr, eq_of_peek hp, List.append_assoc, List.cons_append]
    · rw [← Grouping.combine_snd, ← Grouping.combine_flag op c lhs r.1, hc]
  empty _ := rfl
  full := by
    rintro n _ r e c ⟨g, hg, rfl⟩ hcl
    obtain ⟨g', hg', hr, -⟩ := hcl g hg
    exact ⟨g', hg', by rw [← hr, List.append_nil]⟩

theorem expression_isReadOff (ts : Expression) : Yields (expression ts) (IsReadOff ts) :=
  (tokenReading.holds (Nat.le_refl maxDepth)).whole ts

/-- **Resolving accepts the rows in which markers and operands alternate and keeps every token.** A row has a tree if
and only if it is well formed, unless there are too many levels. The tree is that of a grouping with exactly the
operators and operands of the row, in their order, and only the empty row has none. -/
theorem expression_alternates (tokens : Expression) : (expression tokens ≠ .error tooDeep →
        ((∃ e, expression tokens = .ok (some e)) ↔ tokens ≠ [] ∧ RowWellFormed tokens))
      ∧ (∀ e, expression tokens = .ok (some e) → ∃ g : Grouping, g.row = tokens ∧ g.tree = .ok e)
      ∧ (expression tokens = .ok none ↔ tokens = []) := by
  refine ⟨fun hdeep => ⟨?_, ?_⟩, ?_, ?_, ?_⟩
  · rintro ⟨e, he⟩
    have hrow := (expression_isReadOff tokens _ he).wellFormed
    exact ⟨hrow.ne_nil, hrow⟩
  · rintro ⟨-, hrow⟩
    have hsettles : Settles (expression tokens) (·.isSome = true) :=
      wholeWith_settles (below_resolves maxDepth) hrow
    cases he : expression tokens with
    | error e =>
      rw [he] at hsettles hdeep
      exact absurd (congrArg Except.error hsettles) hdeep
    | ok e =>
      rw [he] at hsettles
      obtain ⟨e, rfl⟩ := Option.isSome_iff_exists.1 hsettles
      exact ⟨e, rfl⟩
  · intro e he
    obtain ⟨g, hg, hrow⟩ := expression_isReadOff tokens _ he
    exact ⟨g, hrow, hg.tree⟩
  · exact fun h => expression_isReadOff tokens _ h
  · rintro rfl
    rfl

/-- A sign before a power, in a run of comparisons. -/
theorem expression_alternates_run :
    let tokens : Expression := [.operator "-", .name "a", .operator "**", .number (.int 2), .operator "<", .name "b",
      .operator "<=", .name "c"]
    RowWellFormed tokens ∧ ∃ g : Grouping, g.row = tokens
      ∧ g.tree = .ok (.compare (.unary .minus (.binary .pow (.name "a") (.const (.int 2))))
        [(.lt, .name "b"), (.le, .name "c")]) := by
  intro tokens
  have hok : expression tokens = .ok (some (.compare (.unary .minus (.binary .pow (.name "a") (.const (.int 2))))
      [(.lt, .name "b"), (.le, .name "c")])) := rfl
  obtain ⟨hiff, hkeeps, -⟩ := expression_alternates tokens
  exact ⟨((hiff (by rw [hok]; nofun)).1 ⟨_, hok⟩).2, hkeeps _ hok⟩

end Resolve

end Playback
