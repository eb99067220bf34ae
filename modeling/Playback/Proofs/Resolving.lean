import Playback.Proofs.Levels

/-!
# What resolving can come to

`Yields` says something of what comes out, if anything does. What it says of the trees that rows resolve to is shown in
one induction on the levels (`Reading.holds`). A `Reading` is what is said of operands, of leaves, of trees that have
climbed and of whole rows, with a rule for each way in which one of them comes about.
-/

namespace Playback

open List

/-! ## Outcomes -/

/-- What comes out of it, if anything does, has a property. -/
def Yields {α ε : Type} (x : Except ε α) (p : α → Prop) : Prop :=
  ∀ a, x = .ok a → p a

namespace Yields

variable {α β ε : Type} {p : α → Prop} {q : β → Prop} {x : Except ε α}

theorem ok (h : p a) : Yields (.ok a : Except ε α) p := by
  rintro _ ⟨⟩
  exact h

theorem error (e : ε) : Yields (.error e : Except ε α) p :=
  nofun

theorem any (x : Except ε α) : Yields x fun _ => True :=
  fun _ _ => trivial

theorem self (x : Except ε α) : Yields x (x = .ok ·) :=
  fun _ h => h

theorem ite [Decidable c] (hx : Yields x p) (hy : Yields y p) : Yields (if c then x else y) p := by
  split <;> assumption

variable {f : α → Except ε β}

theorem bind (hx : Yields x p) (hf : ∀ a, p a → Yields (f a) q) : Yields (x >>= f) q := by
  intro b hb
  cases hxa : x with
  | error e =>
    rw [hxa] at hb
    cases hb
  | ok a =>
    rw [hxa] at hb
    exact hf a (hx a hxa) b hb

theorem mono (hx : Yields x p) (h : ∀ a, p a → p' a) : Yields x p' :=
  fun a ha => h a (hx a ha)

theorem mapM_of_mem {as : List α} (h : ∀ a ∈ as, Yields (f a) q) : Yields (as.mapM f) fun bs => ∀ b ∈ bs, q b := by
  induction as with
  | nil =>
    exact .ok (by simp)
  | cons a as ih =>
    rw [mapM_cons]
    obtain ⟨ha, has⟩ := forall_mem_cons.1 h
    refine ha.bind fun b hb => (ih has).bind fun bs hbs => ?_
    exact .ok (forall_mem_cons.2 ⟨hb, hbs⟩)

theorem mapM (h : ∀ a, Yields (f a) q) (as : List α) : Yields (as.mapM f) fun bs => ∀ b ∈ bs, q b :=
  mapM_of_mem fun a _ => h a

theorem mapM_inputs (h : ∀ a, Yields (f a) fun _ => p a) {as : List α} : Yields (as.mapM f) fun _ => ∀ a ∈ as, p a := by
  induction as with
  | nil =>
    exact .ok nofun
  | cons a as ih =>
    rw [mapM_cons]
    refine (h a).bind fun b hb => ih.bind fun _ hbs => ?_
    exact .ok (forall_mem_cons.2 ⟨hb, hbs⟩)

end Yields

namespace Resolve

abbrev IfAny (p : Expr → Prop) (e : Option Expr) : Prop :=
  ∀ e' ∈ e, p e'

theorem required_yields (tag set : String) (h : IfAny p e) : Yields (required tag set e) p := by
  cases e with
  | none => exact .error _
  | some e => exact .ok (h e rfl)

section

variable {p : Expr → Prop} {whole : List Token → Except CompileError (Option Expr)}
variable (hw : ∀ tokens, Yields (whole tokens) (IfAny p))

include hw

theorem elements_yields (rows : List (List Token)) : Yields (elements whole rows) fun es => ∀ e ∈ es, p e := by
  refine (Yields.mapM hw rows).bind fun es hes => .ok ?_
  intro e he
  obtain ⟨_, hm, rfl⟩ := mem_filterMap.1 he
  exact hes _ hm e rfl

theorem entries_yields (rows : List Entry) : Yields (entries whole rows) fun es => ∀ e ∈ es, p e.1 ∧ p e.2 := by
  refine Yields.mapM (fun row => ?_) rows
  cases row with
  | pair key value =>
    refine (hw key).bind fun k hk => (required_yields _ _ hk).bind fun k hk => ?_
    exact (hw value).bind fun v hv => (required_yields _ _ hv).bind fun v hv => .ok ⟨hk, hv⟩

theorem arguments_yields (as : List Argument) :
    Yields (arguments whole as) fun r => (∀ a ∈ r.1, p a) ∧ ∀ k ∈ r.2, p k.2 := by
  induction as with
  | nil => exact .ok (by simp)
  | cons arg _ ih =>
    cases arg with
    | positional v =>
      refine (hw v).bind fun e he => ih.bind fun r hr => .ok ⟨?_, hr.2⟩
      intro a ha
      rcases mem_append.1 ha with ha | ha
      · exact he a (Option.mem_toList.1 ha)
      · exact hr.1 a ha
    | keyword x v =>
      refine (hw v).bind fun e he => (required_yields _ _ he).bind fun e he => ?_
      exact ih.bind fun r hr => .ok ⟨hr.1, forall_mem_cons.2 ⟨he, hr.2⟩⟩

end

/-- What is said of the trees that rows resolve to, by the levels that are left. -/
structure Reading where
  operand : Nat → Token → Expr → Prop
  /-- The tree of a leaf, or of one that has been extended, and the tokens after it. -/
  leaf : Nat → List Token → Expr × List Token → Prop
  /-- Where climbing has come to from where it started, and whether a comparison may be chained to the tree there. -/
  climb : Nat → Bool → Expr × List Token → Expr × List Token → Prop
  whole : Nat → List Token → Option Expr → Prop
  nested {n : Nat} {token : Token} : n < maxDepth → (∀ tokens, Yields (wholeWith (below n) tokens) (whole n tokens)) →
    (∀ token, Yields (operandWith (below n) token) (operand n token)) →
    Yields (operandWith (below (n + 1)) token) (operand (n + 1) token)
  alone {n : Nat} {token : Token} {e : Expr} (rest : List Token) : operand n token e → leaf n (token :: rest) (e, rest)
  marked {n : Nat} {symbol : String} {op : UnaryOp} {tokens : List Token} {r r' : Expr × List Token} {c : Bool} :
    prefixOp symbol = .ok op → leaf n tokens r → climb n c r r' →
    leaf (n + 1) (.operator symbol :: tokens) (.unary op r'.1, r'.2)
  extended {n : Nat} {tokens : List Token} {r r' : Expr × List Token} {c : Bool} :
    leaf (n + 1) tokens r → climb n c r r' → leaf (n + 1) tokens r'
  start {n : Nat} (r : Expr × List Token) : climb n false r r
  step {n : Nat} {c : Bool} {first r : Expr × List Token} {lhs : Expr} {tokens rest : List Token} {op : Operator} :
    climb n c first (lhs, tokens) → peek tokens = .ok (some (op, rest)) → leaf n rest r →
    climb n (combine op c lhs r.1).2 first ((combine op c lhs r.1).1, r.2)
  empty (n : Nat) : whole n [] none
  full {n : Nat} {tokens : List Token} {r : Expr × List Token} {e : Expr} {c : Bool} :
    leaf n tokens r → climb n c r (e, []) → whole (n + 1) tokens (some e)

namespace Reading

/-- What is said of resolving with `n` levels left holds. -/
structure Holds (R : Reading) (n : Nat) : Prop where
  operand token : Yields (operandWith (below n) token) (R.operand n token)
  leaf tokens : Yields (leafWith (below n) tokens) (R.leaf n tokens)
  climb least lhs tokens : Yields (climbWith (below n) least lhs tokens) fun r => ∃ c, R.climb n c (lhs, tokens) r
  whole tokens : Yields (wholeWith (below n) tokens) (R.whole n tokens)

variable {R : Reading} {n : Nat}

/-! With some levels left, the parts are resolved with one level less. -/

section

variable (hbe : ∀ k, n = k + 1 → R.Holds k)

include hbe

theorem operandWith_holds (hn : n ≤ maxDepth) (t : Token) : Yields (operandWith (below n) t) (R.operand n t) := by
  cases n with
  | zero => exact .error _
  | succ n => exact R.nested hn (hbe n rfl).whole (hbe n rfl).operand

theorem leafWith_holds (hn : n ≤ maxDepth) (ts : List Token) : Yields (leafWith (below n) ts) (R.leaf n ts) := by
  cases ts with
  | nil => exact .error _
  | cons t rs =>
    cases ho : isOperand t with
    | true =>
      rw [leafWith_operand ho]
      exact (operandWith_holds hbe hn t).bind fun e he => .ok (R.alone rs he)
    | false =>
      obtain ⟨s, rfl⟩ := eq_operator_of_not_isOperand ho
      refine (Yields.self _).bind fun _ hop => ?_
      cases n with
      | zero => exact .error _
      | succ n =>
        have hl := hbe n rfl
        refine (hl.leaf rs).bind fun r hr => (hl.climb _ _ _).bind fun _ hr' => ?_
        obtain ⟨c, hr'⟩ := hr'
        exact .ok (R.marked hop hr hr')

theorem extend_holds (op : Operator) (k : Nat)
    (hrh : R.leaf n row (rhs, ts)) : Yields (extend (below n) op k rhs ts) (R.leaf n row) := by
  induction k generalizing rhs ts with
  | zero => exact .ok hrh
  | succ k ih =>
    refine (Yields.any _).bind fun next _ => ?_
    cases next with
    | none => exact .ok hrh
    | some next =>
      dsimp only
      split
      · cases n with
        | zero => exact .error _
        | succ n =>
          refine ((hbe n rfl).climb _ _ _).bind fun r hr => ?_
          obtain ⟨c, hr⟩ := hr
          exact ih (R.extended hrh hr)
      · exact .ok hrh

theorem climbLoop_holds (hn : n ≤ maxDepth) (least k : Nat) (h : R.climb n c first (lhs, ts)) :
    Yields (climbLoop (below n) least k c lhs ts) fun r => ∃ c, R.climb n c first r := by
  induction k generalizing c lhs ts with
  | zero => exact .ok ⟨c, h⟩
  | succ k ih =>
    refine (Yields.self _).bind fun next hp => ?_
    cases next with
    | none => exact .ok ⟨c, h⟩
    | some next =>
      dsimp only
      split
      · exact .ok ⟨c, h⟩
      · refine (leafWith_holds hbe hn next.2).bind fun r hr => ?_
        exact (extend_holds hbe _ _ hr).bind fun _ hr' => ih (R.step h hp hr')

theorem wholeWith_holds (ts : List Token) : Yields (wholeWith (below n) ts) (R.whole n ts) := by
  cases ts with
  | nil => exact .ok (R.empty n)
  | cons t _ =>
    cases n with
    | zero => exact .error _
    | succ n =>
      have hl := hbe n rfl
      refine (hl.leaf _).bind fun r hr => (hl.climb 0 _ _).bind fun r' hr' => ?_
      obtain ⟨e, left⟩ := r'
      cases left with
      | nil =>
        obtain ⟨c, hr'⟩ := hr'
        exact .ok (R.full hr hr')
      | cons x _ => exact .error _

theorem Holds.of_less (hn : n ≤ maxDepth) : R.Holds n where
  operand := operandWith_holds hbe hn
  leaf := leafWith_holds hbe hn
  climb least lhs tokens := climbLoop_holds hbe hn least _ (R.start (lhs, tokens))
  whole := wholeWith_holds hbe

end

/-- **What is said of resolving holds**, however many of the levels are left. -/
theorem holds (R : Reading) (hn : n ≤ maxDepth) : R.Holds n := by
  induction n with
  | zero => exact .of_less nofun hn
  | succ n ih =>
    refine .of_less (fun k _ => ?_) hn
    obtain rfl : n = k := by omega
    exact ih (Nat.le_of_succ_le hn)

end Reading

end Resolve

end Playback
