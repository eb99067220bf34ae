import Playback.Proofs.Levels

/-!
# Climbing without counting

What climbing does to a row, as relations that know neither levels nor fuel nor failing operands: `Leaf`, `Climb` and
`Extend` follow the three loops, and a `Grouping` keeps the operand tokens as they stand. `cut_leaf`, `cut_climb` and
`cut_extend_of` tie them to resolving: a row that groups in some way resolves to the tree of that grouping, unless the
levels run out.
-/

namespace Playback

theorem mem_of_lookup {α : Type} {table : List (String × α)} {a : α}
    (h : table.lookup s = some a) : (s, a) ∈ table := by
  obtain ⟨b, _, rfl, -⟩ := List.lookup_eq_some_iff.1 h
  simp

theorem Operator.symbol_of_ofSymbol? (h : Operator.ofSymbol? s = some op) : op.symbol = s := by
  obtain ⟨_, hr, rfl⟩ := Option.map_eq_some_iff.1 h
  exact (Operator.table_agrees _ (mem_of_lookup hr)).1

theorem UnaryOp.symbol_of_ofSymbol? {op : UnaryOp} (h : UnaryOp.ofSymbol? s = some op) : op.symbol = s := by
  obtain ⟨_, hr, rfl⟩ := Option.map_eq_some_iff.1 h
  exact (UnaryOp.table_agrees _ (mem_of_lookup hr)).1

namespace Resolve

/-- How a row of tokens groups: operators over operand tokens. -/
inductive Grouping where
  | operand (token : Token)
  | unary (op : UnaryOp) (inner : Grouping)
  | binary (op : BinaryOp) (left right : Grouping)
  | bool (op : BoolOp) (left right : Grouping)
  /-- One run of comparisons. -/
  | compare (first : Grouping) (rs : List (CompareOp × Grouping))

namespace Grouping

mutual

/-- The tree of a grouping: every operand is resolved on its own, from the left to the right. -/
def tree : Grouping → Except CompileError Expr
  | .operand token => Resolve.operand token
  | .unary op inner => do return .unary op (← inner.tree)
  | .binary op left right => do
    let l ← left.tree
    return .binary op l (← right.tree)
  | .bool op left right => do
    let l ← left.tree
    return .bool op l (← right.tree)
  | .compare first rs => do
    let l ← first.tree
    return .compare l (← comparators rs)

def comparators : List (CompareOp × Grouping) → Except CompileError (List (CompareOp × Expr))
  | [] => .ok []
  | (op, g) :: rs => do
    let e ← g.tree
    return (op, e) :: (← comparators rs)

end

/-- The grouping of an operator over its operands; only a run that is still going on takes a comparison
in. -/
def combine (op : Operator) (chainable : Bool) (lhs rhs : Grouping) : Grouping × Bool :=
  match op with
  | .bool op => (.bool op lhs rhs, false)
  | .binary op => (.binary op lhs rhs, false)
  | .compare op =>
    match chainable, lhs with
    | true, .compare first rs => (.compare first (rs ++ [(op, rhs)]), true)
    | _, _ => (.compare lhs [(op, rhs)], true)

/-- Whether a grouping is a run of comparisons. -/
def isRun : Grouping → Bool
  | .compare _ _ => true
  | _ => false

theorem combine_snd (op : Operator) (chainable : Bool) (lhs rhs : Grouping) :
    (combine op chainable lhs rhs).2 = (combine op chainable lhs rhs).1.isRun := by
  unfold combine
  split
  · rfl
  · rfl
  · split <;> rfl

theorem comparators_append (rs more : List (CompareOp × Grouping)) : comparators (rs ++ more) = do
      let es ← comparators rs
      return es ++ (← comparators more) := by
  induction rs with
  | nil =>
    simp only [List.nil_append]
    cases comparators more <;> rfl
  | cons x rs ih =>
    obtain ⟨_, g⟩ := x
    simp only [List.cons_append, comparators, ih]
    cases g.tree with
    | error e => rfl
    | ok v =>
      cases comparators rs with
      | error e => rfl
      | ok es => cases comparators more <;> rfl

theorem tree_combine (hc : chainable = true → lhs.isRun = true) : (combine op chainable lhs rhs).1.tree
      = lhs.tree >>= fun l => rhs.tree.map fun r => (Resolve.combine op chainable l r).1 := by
  match op with
  | .bool _ | .binary _ =>
    simp only [combine, tree]
    cases rhs.tree <;> rfl
  | .compare op =>
    match chainable with
    | false =>
      simp only [combine, tree, comparators]
      cases rhs.tree <;> rfl
    | true =>
      match lhs, hc rfl with
      | .compare first rs, _ =>
        -- the run is extended on both sides
        simp only [combine, tree, comparators_append, comparators]
        cases first.tree with
        | error e => rfl
        | ok f =>
          cases comparators rs with
          | error e => rfl
          | ok _ => cases rhs.tree <;> rfl

theorem combine_flag (op : Operator) (chainable : Bool) (l r : Expr) (lhs rhs : Grouping) :
    (Resolve.combine op chainable l r).2 = (combine op chainable lhs rhs).2 := by
  match op with
  | .bool op => rfl
  | .binary op => rfl
  | .compare op =>
    unfold Resolve.combine combine
    dsimp only
    split <;> split <;> rfl

end Grouping

/-! ## The relations -/

/-- The row goes on with no operator of precedence `least` or above. -/
def Ends (least : Nat) (ts : List Token) : Prop :=
  peek ts = .ok none ∨ ∃ op rs, peek ts = .ok (some (op, rs)) ∧ op.precedence < least

mutual

/-- A leaf stands at the front of a row. -/
inductive Leaf : List Token → Grouping → List Token → Prop
  | operand {rs : List Token} : isOperand token = true → Leaf (token :: rs) (.operand token) rs
  /-- A prefix operator takes in what binds at least as tightly as itself. -/
  | unary {op : UnaryOp} {ts rs left : List Token} : UnaryOp.ofSymbol? symbol = some op → Leaf ts g rs →
      Climb op.precedence false g rs g' left → Leaf (.operator symbol :: ts) (.unary op g') left

/-- A grouping takes the operators of precedence `least` and above in from the row after it. -/
inductive Climb : Nat → Bool → Grouping → List Token → Grouping → List Token → Prop
  | stop {ts : List Token} : Ends least ts → Climb least chainable lhs ts lhs ts
  | step {op : Operator} {ts rs left : List Token} :
      peek ts = .ok (some (op, rs)) → least ≤ op.precedence → Leaf rs rhs after → Extend op rhs after rhs' extended →
      Climb least (Grouping.combine op chainable lhs rhs').2
        (Grouping.combine op chainable lhs rhs').1 extended g left → Climb least chainable lhs ts g left

/-- The operand on the right of an operator takes in what binds tighter. -/
inductive Extend : Operator → Grouping → List Token → Grouping → List Token → Prop
  | stop {op : Operator} {ts : List Token} :
      (∀ next rs, peek ts = .ok (some (next, rs)) → bindsTighter next op = false) →
      (∃ next, peek ts = .ok next) → Extend op rhs ts rhs ts
  | step {op next : Operator} {ts rs left : List Token} :
      peek ts = .ok (some (next, rs)) → bindsTighter next op = true →
      Climb next.precedence false rhs ts rhs' after → Extend op rhs' after g left → Extend op rhs ts g left

end

theorem eq_of_peek (h : peek ts = .ok (some (op, rs))) : ts = .operator op.symbol :: rs := by
  unfold peek at h
  split at h
  · split at h
    · rename_i hs
      cases h
      rw [Operator.symbol_of_ofSymbol? hs]
    · split at h <;> cases h
  · cases h

theorem symbol_of_prefixOp {op : UnaryOp} (h : prefixOp s = .ok op) : op.symbol = s := by
  unfold prefixOp at h
  split at h
  · rename_i hs
    cases h
    exact UnaryOp.symbol_of_ofSymbol? hs
  · split at h <;> cases h

theorem length_lt_of_peek (h : peek ts = .ok (some (op, rs))) : rs.length < ts.length := by
  rw [eq_of_peek h]
  exact Nat.lt_succ_self _

mutual

theorem Leaf.length_lt {ts rs : List Token} (h : Leaf ts g rs) : rs.length < ts.length := by
  match h with
  | .operand _ => simp
  | .unary _ hl hc =>
    have := hl.length_lt
    have := hc.length_le
    simp only [List.length_cons]
    omega

theorem Climb.length_le {least : Nat} {lhs g : Grouping} {ts left : List Token}
    (h : Climb least chainable lhs ts g left) : left.length ≤ ts.length := by
  match h with
  | .stop _ => exact Nat.le_refl _
  | .step hp _ hl he hc =>
    have := length_lt_of_peek hp
    have := hl.length_lt
    have := he.length_le
    have := hc.length_le
    omega

theorem Extend.length_le {op : Operator} {ts left : List Token}
    (h : Extend op rhs ts g left) : left.length ≤ ts.length := by
  match h with
  | .stop _ _ => exact Nat.le_refl _
  | .step _ _ hc he =>
    have := hc.length_le
    have := he.length_le
    omega

end

theorem Climb.length_lt {least : Nat} {lhs g : Grouping} {op : Operator} (h : Climb least chainable lhs ts g left)
    (hp : peek ts = .ok (some (op, rs))) (hop : least ≤ op.precedence) : left.length < ts.length := by
  match h with
  | .stop hen =>
    rcases hen with hn | ⟨_, _, hs, _⟩
    · rw [hn] at hp; cases hp
    · rw [hs] at hp; cases hp; omega
  | .step hp _ hl he hc =>
    have := length_lt_of_peek hp
    have := hl.length_lt
    have := he.length_le
    have := hc.length_le
    omega

/-! ## An operand that does not resolve -/

theorem Climb.tree_error {least : Nat} {ts left : List Token} (h : Climb least chainable lhs ts g left)
    (hc : chainable = true → lhs.isRun = true) (hl : lhs.tree = .error e) : g.tree = .error e := by
  match h with
  | .stop _ => exact hl
  | .step _ _ _ _ hcl =>
    refine hcl.tree_error (Grouping.combine_snd .. ▸ id) ?_
    rw [Grouping.tree_combine hc, hl]
    rfl

theorem Extend.tree_error {op : Operator} {ts left : List Token} (h : Extend op rhs ts g left)
    (hl : rhs.tree = .error e) : g.tree = .error e := by
  match h with
  | .stop _ _ => exact hl
  | .step _ _ hc he => exact he.tree_error (hc.tree_error nofun hl)

/-! ## Resolving follows the relations -/

theorem prefixOp_of {op : UnaryOp} (h : UnaryOp.ofSymbol? s = some op) : prefixOp s = .ok op := by
  simp only [prefixOp, h]

section

theorem climbLoop_stop (h : Ends least ts) : climbLoop b least k chainable lhs ts = .ok (lhs, ts) := by
  match k with
  | 0 => rfl
  | k + 1 =>
    rcases h with hn | ⟨_, _, hs, hlt⟩
    · rw [climbLoop, hn]
      rfl
    · rw [climbLoop, hs]
      exact if_pos hlt

theorem climbLoop_take (hp : peek ts = .ok (some (op, rs))) (hop : least ≤ op.precedence) :
    climbLoop b least (k + 1) chainable lhs ts
      = (leafWith b rs >>= fun x => extend b op x.2.length x.1 x.2 >>= fun y =>
          climbLoop b least k (combine op chainable lhs y.1).2 (combine op chainable lhs y.1).1
            y.2) := by
  rw [climbLoop, hp]
  exact if_neg (Nat.not_lt.mpr hop)

theorem extend_stop {next : Option (Operator × List Token)} (hp : peek ts = .ok next)
    (h : ∀ n rs, next = some (n, rs) → bindsTighter n op = false) : extend b op k lhs ts = .ok (lhs, ts) := by
  match k, next with
  | 0, _ => rfl
  | k + 1, none =>
    rw [extend, hp]
    rfl
  | k + 1, some (next, rs) =>
    rw [extend, hp]
    exact if_neg (by rw [h next rs rfl]; simp)

theorem extend_take (hp : peek ts = .ok (some (next, rs))) (ht : bindsTighter next op = true) :
    extend (some c) op (k + 1) lhs ts = (c.climb next.precedence lhs ts >>= fun x => extend (some c) op k x.1 x.2) := by
  rw [extend, hp]
  exact if_pos ht

theorem extend_tooDeep (hp : peek ts = .ok (some (next, rs)))
    (ht : bindsTighter next op = true) : extend none op (k + 1) lhs ts = .error tooDeep := by
  rw [extend, hp]
  exact if_pos ht

end

/-- Going on from an outcome that is cut from the tree of a grouping: if the grouping has no tree, the
whole has none for the same reason. -/
theorem Cut.bind_tree {x : Resolved} {g g' : Grouping} {f : Expr × List Token → Resolved}
    (hx : Cut x (g.tree.map fun e => (e, rs))) (he : ∀ e, g.tree = .error e → g'.tree = .error e)
    (hok : ∀ e, g.tree = .ok e → Cut (f (e, rs)) (g'.tree.map fun e => (e, left))) :
    Cut (x >>= f) (g'.tree.map fun e => (e, left)) := by
  cases hg : g.tree with
  | error e =>
    rw [hg] at hx
    rw [he e hg]
    rcases hx with rfl | rfl
    · exact .refl _
    · exact .tooDeep _
  | ok e =>
    rw [hg] at hx
    rcases hx with rfl | rfl
    · exact hok e hg
    · exact .tooDeep _

mutual

/-- **A leaf resolves to the tree of its grouping**, unless the levels run out. -/
theorem Leaf.cut {ts rs : List Token} {g : Grouping} (h : Leaf ts g rs)
    (hr : j ≤ maxDepth) : Cut (leafWith (below j) ts) (g.tree.map fun e => (e, rs)) := by
  match h with
  | @Leaf.operand t _ ho =>
    rw [leafWith_operand ho]
    exact (cut_operand hr t).bind fun _ _ => .refl _
  | @Leaf.unary _ g g' op _ _ _ hop hl hc =>
    simp only [leafWith, prefixOp_of hop]
    match j, hr with
    | 0, _ => exact .tooDeep _
    | j + 1, hr =>
      have hr' : j ≤ maxDepth := by omega
      refine Cut.bind_tree (hl.cut hr') ?_ ?_
      · intro e he
        have := hc.tree_error nofun he
        simp only [Grouping.tree, this]
        rfl
      · intro e he
        have hcu := hc.cut hr' he (by simp) (Nat.le_refl _)
        have ht : (Grouping.unary op g').tree.map (fun e => (e, rs))
            = g'.tree.map (fun e => (e, rs)) >>= fun x => .ok (.unary op x.1, x.2) := by
          simp only [Grouping.tree]
          cases g'.tree <;> rfl
        rw [ht]
        exact Cut.bind hcu fun _ _ => .refl _

/-- **Climbing resolves to the tree of what is grouped**, unless the levels run out. -/
theorem Climb.cut {least : Nat} {chainable : Bool} {lhs g : Grouping} {ts left : List Token}
    (h : Climb least chainable lhs ts g left) (hro : j ≤ maxDepth)
    (hl : lhs.tree = .ok l) (hc : chainable = true → lhs.isRun = true) (hf : ts.length ≤ k) :
    Cut (climbLoop (below j) least k chainable l ts) (g.tree.map fun e => (e, left)) := by
  match h with
  | .stop hen =>
    rw [hl, climbLoop_stop hen]
    exact .refl _
  | @Climb.step _ _ _ rhs' _ _ _ _ _ _ _ _ hp hle hla hex hcl =>
    have hre := length_lt_of_peek hp
    have ha := hla.length_lt
    have het := hex.length_le
    match k with
    | 0 => omega
    | k + 1 =>
      rw [climbLoop_take hp hle]
      -- the right operand: a leaf and what binds tighter than the operator
      have hco : ∀ e, rhs'.tree = .error e → g.tree = .error e := by
        intro e he
        refine hcl.tree_error (Grouping.combine_snd .. ▸ id) ?_
        rw [Grouping.tree_combine hc, hl, he]
        rfl
      refine Cut.bind_tree (hla.cut hro) (fun e he => hco e (hex.tree_error he)) ?_
      intro r hr
      refine Cut.bind_tree (hex.cut hro hr (Nat.le_refl _)) hco ?_
      intro _ hr'
      rw [Grouping.combine_flag _ _ _ _ lhs rhs']
      refine hcl.cut hro ?_ ?_ (by omega)
      · rw [Grouping.tree_combine hc, hl, hr']
        rfl
      · rw [Grouping.combine_snd]
        exact id

/-- **The right operand of an operator resolves to the tree of what it takes in**, unless the levels run
out. -/
theorem Extend.cut {op : Operator} {rhs g : Grouping} {ts left : List Token} (h : Extend op rhs ts g left)
    {j k : Nat} (hro : j ≤ maxDepth) (hr : rhs.tree = .ok r) (hf : ts.length ≤ k) :
    Cut (extend (below j) op k r ts) (g.tree.map fun e => (e, left)) := by
  match h with
  | .stop hl hp =>
    obtain ⟨_, hn⟩ := hp
    rw [hr, extend_stop hn fun n rs h => hl n rs (h ▸ hn)]
    exact .refl _
  | .step hp ht hc hex =>
    have ha := hc.length_lt hp (Nat.le_refl _)
    match k with
    | 0 => omega
    | k + 1 =>
      match j, hro with
      | 0, _ =>
        rw [below, extend_tooDeep hp ht]
        exact .tooDeep _
      | j + 1, hro =>
        have hro' : j ≤ maxDepth := by omega
        rw [below, extend_take hp ht]
        refine Cut.bind_tree (hc.cut hro' hr (by simp) (Nat.le_refl _)) (fun _ => hex.tree_error) ?_
        intro _ hr'
        exact hex.cut hro hr' (by omega)

end

end Resolve

end Playback
