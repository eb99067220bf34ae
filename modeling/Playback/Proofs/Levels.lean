import Playback.Code.Resolve

/-!
# Resolving with fewer levels

Fewer levels never change what a row resolves to: the outcome is the same, or the levels ran out on the
way. `Cut` says so of two outcomes and `Shallower` of two ways to resolve the parts; `below_mono` is the one
induction, and everything else is read off it.
-/

namespace Playback.Resolve

/-- The first outcome is the second, unless the levels ran out before. -/
def Cut {α : Type} (x y : Except CompileError α) : Prop :=
  x = y ∨ x = .error tooDeep

variable {α β : Type}

namespace Cut

theorem refl (x : Except CompileError α) : Cut x x :=
  .inl rfl

theorem tooDeep (y : Except CompileError α) : Cut (.error tooDeep) y :=
  .inr rfl

/-- What goes on from an outcome goes on from a cut one: only its values are looked at. -/
theorem bind (h : Cut x y) (hf : ∀ a, y = .ok a → Cut (f a) (g a)) : Cut (x >>= f) (y >>= g) := by
  rcases h with rfl | rfl
  · cases hx : x with
    | error e => exact .refl _
    | ok a => exact hf a hx
  · exact .tooDeep _

end Cut

/-- What resolves the parts resolves them as the other does, unless its levels run out before. -/
def Shallower : Option Below → Option Below → Prop
  | none, _ => True
  | some _, none => False
  | some b, some c =>
    (∀ tokens, Cut (b.leaf tokens) (c.leaf tokens))
      ∧ (∀ least lhs tokens, Cut (b.climb least lhs tokens) (c.climb least lhs tokens))
      ∧ (∀ token, Cut (b.operand token) (c.operand token))
      ∧ ∀ tokens, Cut (b.whole tokens) (c.whole tokens)

section

/-! ## Operands -/

section

theorem cut_mapM (h : ∀ a, Cut (f a) (g a)) : ∀ xs : List α, Cut (xs.mapM f) (xs.mapM g) := by
  intro xs
  induction xs with
  | nil => exact .refl _
  | cons x xs ih =>
    rw [List.mapM_cons, List.mapM_cons]
    refine (h x).bind fun _ _ => ?_
    exact ih.bind fun _ _ => .refl _

theorem cut_elements (h : ∀ ts, Cut (whole ts) (whole' ts)) (rows : List (List Token)) :
    Cut (elements whole rows) (elements whole' rows) :=
  (cut_mapM h rows).bind fun _ _ => .refl _

theorem cut_entries (h : ∀ ts, Cut (whole ts) (whole' ts)) (rows : List Entry) :
    Cut (entries whole rows) (entries whole' rows) := by
  refine cut_mapM ?_ rows
  rintro ⟨key, v⟩
  refine (h key).bind fun _ _ => Cut.bind (.refl _) fun _ _ => ?_
  exact (h v).bind fun _ _ => .refl _

theorem cut_arguments (h : ∀ ts, Cut (whole ts) (whole' ts)) :
    ∀ as : List Argument, Cut (arguments whole as) (arguments whole' as) := by
  intro as
  induction as with
  | nil => exact .refl _
  | cons arg as ih =>
    cases arg with
    | positional v =>
      exact (h v).bind fun _ _ => ih.bind fun _ _ => .refl _
    | keyword x v =>
      refine (h v).bind fun _ _ => Cut.bind (.refl _) fun _ _ => ?_
      exact ih.bind fun _ _ => .refl _

end

theorem cut_operandWith (h : Shallower b c) (tk : Token) : Cut (operandWith b tk) (operandWith c tk) := by
  match b, c, h with
  | none, _, _ => exact .tooDeep _
  | some b, some c, ⟨_, _, ho, hw⟩ =>
    cases tk with
    | call x as => exact (cut_arguments hw as).bind fun _ _ => .refl _
    | callMember object m as =>
      refine (cut_arguments hw as).bind fun _ _ => ?_
      exact (ho object).bind fun _ _ => .refl _
    | member object m => exact (ho object).bind fun _ _ => .refl _
    | list rows | tuple rows | set rows => exact (cut_elements hw rows).bind fun _ _ => .refl _
    | dict rows => exact (cut_entries hw rows).bind fun _ _ => .refl _
    | subscript t key =>
      refine (ho t).bind fun _ _ => ?_
      exact (hw key).bind fun _ _ => .refl _
    | slice t start stop =>
      refine (ho t).bind fun _ _ => (hw start).bind fun _ _ => ?_
      exact (hw stop).bind fun _ _ => .refl _
    | bracket i => exact (hw i).bind fun _ _ => .refl _
    | operator | number | string | bool | none | name => exact .refl _

/-! ## Leaves, climbing and whole rows -/

/-- Whether a token is an operand and no operator marker. -/
def isOperand : Token → Bool
  | .operator _ => false
  | _ => true

theorem eq_operator_of_not_isOperand (h : isOperand t = false) : ∃ s, t = .operator s := by
  cases t with
  | operator s => exact ⟨s, rfl⟩
  | _ => exact absurd h (by simp [isOperand])

theorem leafWith_operand (h : isOperand t = true) (d : Option Below) (r : List Token) :
    leafWith d (t :: r) = (do return (← operandWith d t, r)) := by
  cases t with
  | operator s => exact absurd h (by simp [isOperand])
  | _ => rfl

theorem cut_leafWith (h : Shallower b c) (ts : List Token) : Cut (leafWith b ts) (leafWith c ts) := by
  match ts with
  | [] => exact .refl _
  | token :: r =>
    cases ho : isOperand token with
    | true =>
      rw [leafWith_operand ho, leafWith_operand ho]
      exact (cut_operandWith h token).bind fun _ _ => .refl _
    | false =>
      obtain ⟨s, rfl⟩ := eq_operator_of_not_isOperand ho
      refine Cut.bind (.refl _) fun op _ => ?_
      match b, c, h with
      | none, _, _ => exact .tooDeep _
      | some b, some c, ⟨hl, hc, _, _⟩ =>
        refine (hl r).bind fun x _ => ?_
        exact (hc op.precedence x.1 x.2).bind fun _ _ => .refl _

theorem cut_extend (h : Shallower b c) (op : Operator) :
    ∀ n rhs ts, Cut (extend b op n rhs ts) (extend c op n rhs ts) := by
  intro n
  induction n with
  | zero => exact fun _ _ => .refl _
  | succ n ih =>
    intro rhs ts
    refine Cut.bind (.refl _) fun next _ => ?_
    match next with
    | none => exact .refl _
    | some (next, _) =>
      dsimp only
      split
      · match b, c, h with
        | none, _, _ => exact .tooDeep _
        | some b, some c, ⟨_, hc, _, _⟩ =>
          exact (hc next.precedence rhs ts).bind fun x _ => ih x.1 x.2
      · exact .refl _

theorem cut_climbLoop (h : Shallower b c) (least : Nat) :
    ∀ n chainable lhs ts, Cut (climbLoop b least n chainable lhs ts)
      (climbLoop c least n chainable lhs ts) := by
  intro n
  induction n with
  | zero => exact fun _ _ _ => .refl _
  | succ n ih =>
    intro chainable lhs ts
    refine Cut.bind (.refl _) fun next _ => ?_
    match next with
    | none => exact .refl _
    | some (op, r) =>
      dsimp only
      split
      · exact .refl _
      · refine (cut_leafWith h r).bind fun x _ => ?_
        exact (cut_extend h op _ x.1 x.2).bind fun y _ => ih _ _ y.2

theorem cut_wholeWith (h : Shallower b c) (ts : List Token) : Cut (wholeWith b ts) (wholeWith c ts) := by
  unfold wholeWith
  split
  · exact .refl _
  · match b, c, h with
    | none, _, _ => exact .tooDeep _
    | some b, some c, ⟨hl, hc, _, _⟩ =>
      refine (hl ts).bind fun x _ => ?_
      exact (hc 0 x.1 x.2).bind fun _ _ => .refl _

end

/-- **Fewer levels cut outcomes short and change nothing else.** -/
theorem below_mono {k k' : Nat} (h : k ≤ k') : Shallower (below k) (below k') := by
  induction k generalizing k' with
  | zero => trivial
  | succ k ih =>
    obtain ⟨larger, rfl⟩ : ∃ larger, k' = larger + 1 := ⟨k' - 1, by omega⟩
    have hb := ih (Nat.le_of_succ_le_succ h)
    refine ⟨cut_leafWith hb, fun least lhs ts => ?_, cut_operandWith hb, cut_wholeWith hb⟩
    exact cut_climbLoop hb least _ false lhs ts

theorem cut_operand (h : k ≤ maxDepth) (t : Token) : Cut (operandWith (below k) t) (operand t) :=
  cut_operandWith (below_mono h) t

end Playback.Resolve
