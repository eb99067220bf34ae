import Playback.Proofs.Climbing

/-!
# Precedence

The grammar of expressions in levels, from the loosest to the tightest: `or`, `and`, `not`, comparisons, `|`,
`^`, `&`, shifts, sums, products, signs, powers. Levels of binary operators group from the left, a power
takes a sign on its right, and a run of comparisons is one node. `Derives` states it on rows of tokens.

Climbing finds exactly these groupings (`expression_of_derives`). A phrase of a level is passed through:
`Derives.climbs` says that climbing from its first leaf comes by the whole phrase, provided what follows does
not bind its last operand away. The two loops of climbing are reconciled in `Climb.extend`.
-/

namespace Playback.Resolve

variable {b : Nat} {g : Grouping} {l : Level}

variable {right r tokens : List Token}

/-! ## The grammar -/

/-- The levels of the grammar, the loosest first. -/
inductive Level where
  | disjunction | conjunction | negation | comparison | bitOr | bitXor | bitAnd | shift | sum | product
  | sign | power

def Level.tighter : Level → Level
  | .disjunction => .conjunction
  | .conjunction => .negation
  | .negation => .comparison
  | .comparison => .bitOr
  | .bitOr => .bitXor
  | .bitXor => .bitAnd
  | .bitAnd => .shift
  | .shift => .sum
  | .sum => .product
  | .product => .sign
  | .sign => .power
  | .power => .power

def Level.ofBool : BoolOp → Level
  | .or => .disjunction
  | .and => .conjunction

def Level.ofBinary : BinaryOp → Level
  | .bitOr => .bitOr
  | .bitXor => .bitXor
  | .bitAnd => .bitAnd
  | .shiftLeft | .shiftRight => .shift
  | .add | .sub => .sum
  | .mul | .div | .floorDiv | .mod | .matMul => .product
  | .pow => .power

/-- A row of tokens is a phrase of a level, and groups as given. -/
inductive Derives : Level → List Token → Grouping → Prop
  /-- A phrase of the next tighter level is one of this level. -/
  | tighter {tokens : List Token} {g : Grouping} : Derives level.tighter tokens g → Derives level tokens g
  | bool (op : BoolOp) {left right : List Token} {l r : Grouping} :
      Derives (.ofBool op) left l → Derives (Level.ofBool op).tighter right r →
      Derives (.ofBool op) (left ++ .operator op.symbol :: right) (.bool op l r)
  | negation {tokens : List Token} {g : Grouping} : Derives .negation tokens g →
      Derives .negation (.operator UnaryOp.not.symbol :: tokens) (.unary .not g)
  /-- A comparison starts a run. -/
  | comparison (op : CompareOp) {left right : List Token} {l r : Grouping} :
      Derives .bitOr left l → Derives .bitOr right r →
      Derives .comparison (left ++ .operator op.symbol :: right) (.compare l [(op, r)])
  /-- A further comparison joins the run. -/
  | run (op : CompareOp) {left right : List Token} {first r : Grouping} {rest : List (CompareOp × Grouping)} :
      Derives .comparison left (.compare first rest) → Derives .bitOr right r →
      Derives .comparison (left ++ .operator op.symbol :: right) (.compare first (rest ++ [(op, r)]))
  | binary (op : BinaryOp) {left right : List Token} {l r : Grouping} :
      op ≠ .pow → Derives (.ofBinary op) left l → Derives (Level.ofBinary op).tighter right r →
      Derives (.ofBinary op) (left ++ .operator op.symbol :: right) (.binary op l r)
  | sign (op : UnaryOp) {tokens : List Token} {g : Grouping} : op ≠ .not → Derives .sign tokens g →
      Derives .sign (.operator op.symbol :: tokens) (.unary op g)
  | operand : isOperand token = true → Derives .power [token] (.operand token)
  | power {right : List Token} {r : Grouping} : isOperand token = true → Derives .sign right r →
      Derives .power (token :: .operator BinaryOp.pow.symbol :: right) (.binary .pow (.operand token) r)

theorem Derives.ofOperand (t : Token) (h : isOperand t = true) (l : Level) : Derives l [t] (.operand t) := by
  -- down the levels to that of powers
  cases l <;> repeat first
    | exact .operand h
    | apply Derives.tighter

/-! ## Operators by their precedence -/

theorem ofSymbol?_symbol (op : Operator) : Operator.ofSymbol? op.symbol = some op := by
  cases op with
  | bool op | compare op | binary op => cases op <;> decide

theorem unaryOfSymbol?_symbol (op : UnaryOp) : UnaryOp.ofSymbol? op.symbol = some op := by
  cases op <;> decide

theorem peek_symbol (op : Operator) (r : List Token) : peek (.operator op.symbol :: r) = .ok (some (op, r)) := by
  simp only [peek, ofSymbol?_symbol]

theorem groupsRight_iff (op : Operator) : op.groupsRight = true ↔ op.precedence = 160 := by
  cases op with
  | bool op | compare op | binary op => cases op <;> decide

/-- The least precedence that binds tighter than an operator on its left. -/
def above (op : Operator) : Nat :=
  if op.groupsRight then op.precedence else op.precedence + 1

theorem bindsTighter_iff (next op : Operator) : bindsTighter next op = true ↔ above op ≤ next.precedence := by
  have hn := groupsRight_iff next
  have hop := groupsRight_iff op
  simp only [bindsTighter, above, Bool.or_eq_true, Bool.and_eq_true, decide_eq_true_eq, beq_iff_eq, hn]
  split <;> rename_i h
  · have := hop.mp h
    omega
  · have : op.precedence ≠ 160 := fun h' => h (hop.mpr h')
    omega

variable {tokens : List Token}

theorem Ends.mono (h : Ends least tokens) (hle : least ≤ least') : Ends least' tokens := by
  rcases h with hn | ⟨op, r, hs, _⟩
  · exact .inl hn
  · exact .inr ⟨op, r, hs, by omega⟩

theorem ends_symbol (op : Operator) (r : List Token) (h : op.precedence < least) :
    Ends least (.operator op.symbol :: r) :=
  .inr ⟨op, r, peek_symbol op r, h⟩

theorem precedence_of_combine (h : (Grouping.combine op chainable lhs rhs).2 = true) : op.precedence = 80 := by
  match op with
  | .bool _ | .binary _ => cases h
  | .compare op => rfl

/-! ## The two loops -/

variable {g : Grouping} {left : List Token}

theorem Climb.flag (h : Climb least c lhs tokens g left) (hen : Ends 80 tokens)
    (c' : Bool) : Climb least c' lhs tokens g left := by
  cases h with
  | stop hs => exact .stop hs
  | @step _ _ _ rhs' _ _ _ _ op _ _ _ hp hle hl he hcl =>
    have hc : Grouping.combine op c lhs rhs' = Grouping.combine op c' lhs rhs' := by
      cases op with
      | bool | binary => rfl
      | compare op =>
        rcases hen with hn | ⟨_, _, hso, hlt⟩
        · rw [hn] at hp; cases hp
        · rw [hso] at hp; cases hp; exact absurd hlt (Nat.lt_irrefl 80)
    exact .step hp hle hl he (hc ▸ hcl)

theorem Climb.split {lhs g : Grouping} {tokens left : List Token}
    (h : Climb least c lhs tokens g left) (hle : least ≤ least') :
    ∃ g' mid c', Climb least' c lhs tokens g' mid ∧ Climb least c' g' mid g left ∧ Ends least' mid
      ∧ (c' = true → c = true ∨ least' ≤ 80) := by
  match h, hle with
  | .stop he, hle =>
    have he' := he.mono hle
    exact ⟨lhs, tokens, c, .stop he', .stop he, he', .inl⟩
  | @Climb.step _ _ _ _ _ _ _ _ op _ r _ hp hop hl hex hcl, hle =>
    by_cases hop' : least' ≤ op.precedence
    · obtain ⟨g', mid, c', hf, hs, he, hc⟩ := hcl.split hle
      refine ⟨g', mid, c', .step hp hop' hl hex hf, hs, he, fun h => .inr ?_⟩
      rcases hc h with hfl | hlo
      · have := precedence_of_combine hfl
        omega
      · exact hlo
    · have he : Ends least' tokens := .inr ⟨op, r, hp, by omega⟩
      exact ⟨lhs, tokens, c, .stop he, .step hp hop hl hex hcl, he, .inl⟩

/-- **Extending an operand is climbing from it**, over all that binds tighter than the operator. -/
theorem Climb.extend {op : Operator} {lhs g : Grouping} {tokens left : List Token}
    (h : Climb (above op) false lhs tokens g left) : Extend op lhs tokens g left := by
  match h with
  | .stop he =>
    refine .stop ?_ ?_
    · intro next r hp
      rcases he with hn | ⟨next', r', hso, _⟩
      · rw [hn] at hp; cases hp
      · rw [hso] at hp
        cases hp
        have := mt (bindsTighter_iff next op).mp (by omega)
        simpa using this
    · rcases he with hn | ⟨next', r', hso, -⟩
      · exact ⟨_, hn⟩
      · exact ⟨_, hso⟩
  | @Climb.step _ _ _ _ _ _ _ _ next _ _ _ hp hle hl hex hcl =>
    obtain ⟨g', mid, c', hf, hs, he, hc⟩ :=
      (Climb.step hp hle hl hex hcl).split hle
    have hsh := hf.length_lt hp (Nat.le_refl _)
    -- the second go starts afresh: a run that is open cannot be what follows
    have hs' : Climb (above op) false g' mid g left := by
      match c', hc with
      | false, _ => exact hs
      | true, hc =>
        have hlo : next.precedence ≤ 80 := (hc rfl).resolve_left (by simp)
        exact hs.flag (he.mono hlo) false
    exact .step hp ((bindsTighter_iff next op).mpr hle) hf hs'.extend
termination_by tokens.length

/-! ## Phrases are passed through -/

/-- Climbing down to this precedence takes the operators of a level in. -/
def Level.binding : Level → Nat
  | .disjunction => 50
  | .conjunction => 60
  | .negation => 80
  | .comparison => 80
  | .bitOr => 90
  | .bitXor => 100
  | .bitAnd => 110
  | .shift => 120
  | .sum => 130
  | .product => 140
  | .sign => 160
  | .power => 160

/-- An operator of this precedence after a phrase of a level would bind its last operand away. -/
def Level.bound : Level → Nat
  | .negation => 70
  | .sign | .power => 150
  | level => level.binding + 1

theorem Level.binding_le_tighter (l : Level) : l.binding ≤ l.tighter.binding := by
  cases l <;> decide

theorem Level.bound_le_tighter (l : Level) : l.bound ≤ l.tighter.bound := by
  cases l <;> decide

theorem Derives.isRun_eq_false (h : Derives l tokens g) (hl : 80 < l.binding) : g.isRun = false := by
  induction h with
  | @tighter l _ _ _ ih => exact ih (Nat.lt_of_lt_of_le hl l.binding_le_tighter)
  | comparison | run => exact absurd hl (by decide)
  | bool | negation | binary | sign | operand | power => rfl

/-- Climbing from the front of a row comes by a grouping, with the row from there on still to do. -/
def Passes (binding : Nat) (tokens : List Token) (g : Grouping) (rest : List Token) : Prop :=
  ∃ leaf after, Leaf tokens leaf after ∧ ∀ least ≤ binding, ∀ g' left,
    Climb least g.isRun g rest g' left → Climb least false leaf after g' left

/-- **A phrase, an operator and the operand on its right are passed through together**, if the phrase leaves
the operator to climb by and what follows leaves the operand to the operator. -/
theorem passes_between (op : Operator) {l r : Grouping} {boundL bindingL boundR bindingR : Nat} {rs : List Token}
    (hl : ∀ rs, Ends boundL rs → Passes bindingL (left ++ rs) l rs)
    (hr : ∀ rs, Ends boundR rs → Passes bindingR (right ++ rs) r rs) (hbo : op.precedence < boundL)
    (hb : op.precedence ≤ bindingL) (hbi : above op ≤ bindingR) (hed : Ends (above op) rs) (hen : Ends boundR rs) :
    Passes op.precedence ((left ++ .operator op.symbol :: right) ++ rs)
      (Grouping.combine op l.isRun l r).1 rs := by
  obtain ⟨leaf, a, hla, hc⟩ :=
    hl (.operator op.symbol :: (right ++ rs)) (ends_symbol op _ hbo)
  obtain ⟨rleaf, rafter, hrl, hrc⟩ := hr rs hen
  have he : Extend op rleaf rafter r rs := (hrc _ hbi _ _ (.stop hed)).extend
  rw [List.append_assoc]
  refine ⟨leaf, a, hla, fun least hle g' left' h => ?_⟩
  refine hc least (Nat.le_trans hle hb) g' left' ?_
  refine .step (peek_symbol op _) hle hrl he ?_
  rw [Grouping.combine_snd]
  exact h

theorem Passes.ofLeaf (h : Leaf tokens g r) (hg : g.isRun = false) : Passes b tokens g r :=
  ⟨g, r, h, fun _ _ _ _ hc => hg ▸ hc⟩

theorem Passes.unary (h : Passes b tokens g r) (hb : op.precedence ≤ b)
    (he : Ends op.precedence r) : Leaf (.operator op.symbol :: tokens) (.unary op g) r := by
  obtain ⟨_, a, hl, hc⟩ := h
  exact .unary (unaryOfSymbol?_symbol op) hl (hc _ hb _ _ (.stop he))

/-- The numbers of a level whose operators group from the left. -/
def Level.Holds (level : Level) (op : Operator) : Prop :=
  level.binding = op.precedence ∧ level.bound = above op ∧ op.precedence < level.bound
    ∧ above op ≤ level.tighter.binding

theorem Level.holds_ofBool (op : BoolOp) : (Level.ofBool op).Holds (.bool op) := by
  unfold Level.Holds
  cases op <;> decide

theorem Level.holds_ofBinary (h : op ≠ .pow) : (Level.ofBinary op).Holds (.binary op) := by
  unfold Level.Holds
  cases op with
  | pow => exact absurd rfl h
  | _ => decide

theorem precedence_of_ne_not {op : UnaryOp} (h : op ≠ .not) : op.precedence = 150 := by
  cases op with
  | not => exact absurd rfl h
  | _ => rfl

/-- **A phrase is passed through as a whole**, if what follows leaves it its last operand. -/
theorem Derives.climbs {n : Level}
    (h : Derives n tokens g) : ∀ rs, Ends n.bound rs → Passes n.binding (tokens ++ rs) g rs := by
  induction h with
  | @tighter n tokens g _ ih =>
    intro rs he
    obtain ⟨leaf, a, hl, hc⟩ := ih rs (he.mono n.bound_le_tighter)
    exact ⟨leaf, a, hl, fun least hle =>
      hc least (Nat.le_trans hle n.binding_le_tighter)⟩
  | @bool op left right l r _ _ ihl ihr =>
    obtain ⟨hb, hbo, hlt, hbi⟩ := Level.holds_ofBool op
    intro rs he
    rw [hb]
    exact passes_between (.bool op) ihl ihr hlt (Nat.le_of_eq hb.symm) hbi
      (hbo ▸ he) (he.mono (Level.bound_le_tighter _))
  | @negation tokens g _ ih =>
    intro rs he
    exact .ofLeaf ((ih rs he).unary (by decide) he) rfl
  | @comparison op left right l r hlf _ ihl ihr =>
    intro rs he
    have hpa := passes_between (.compare op) ihl ihr (by decide : 80 < 91) (by decide : 80 ≤ 90)
      (by decide : 81 ≤ 90) he (he.mono (by decide))
    -- the operand on the left is no run, so that the comparison starts one
    rw [hlf.isRun_eq_false (by decide)] at hpa
    exact hpa
  | @run op left right _ r run _ _ ihl ihr =>
    intro rs he
    exact passes_between (.compare op) ihl ihr (by decide : 80 < 81) (by decide : 80 ≤ 80)
      (by decide : 81 ≤ 90) he (he.mono (by decide))
  | @binary op left right l r hop _ _ ihl ihr =>
    obtain ⟨hb, hbo, hlt, hbi⟩ := Level.holds_ofBinary hop
    intro rs he
    rw [hb]
    exact passes_between (.binary op) ihl ihr hlt (Nat.le_of_eq hb.symm) hbi
      (hbo ▸ he) (he.mono (Level.bound_le_tighter _))
  | @sign op tokens g hop _ ih =>
    intro rs he
    have hp := precedence_of_ne_not hop
    refine .ofLeaf ((ih rs he).unary ?_ ?_) rfl
    · rw [hp]; decide
    · rw [hp]; exact he
  | @operand t hop =>
    intro rs _
    exact .ofLeaf (.operand hop) rfl
  | @power t right r hop _ ih =>
    intro rs he
    -- the base is no phrase of its own: a power may follow it
    have hba : ∀ rs, Ends 161 rs → Passes 160 ([t] ++ rs) (.operand t) rs :=
      fun _ _ => .ofLeaf (.operand hop) rfl
    exact passes_between (.binary .pow) hba ih (by decide) (by decide) (by decide) (he.mono (by decide)) he

/-- **A phrase of any level resolves to the tree of its grouping**, unless the levels run out. -/
theorem Derives.cut (h : Derives l tokens g) : Cut (expression tokens) (g.tree.map some) := by
  obtain ⟨leaf, a, hl, hcl⟩ := h.climbs [] (.inl rfl)
  have hc : Climb 0 false leaf a g [] := hcl 0 (Nat.zero_le _) g [] (.stop (.inl rfl))
  rw [List.append_nil] at hl
  have hne : tokens.isEmpty = false := by
    match tokens, hl with
    | _ :: _, _ => rfl
  have hro : maxDepth - 1 ≤ maxDepth := Nat.sub_le _ _
  -- what is left of the row after its grouping: nothing
  have ht : g.tree.map some
      = g.tree.map (fun e => (e, ([] : List Token))) >>= fun y => .ok (some y.1) := by
    cases g.tree <;> rfl
  unfold expression wholeWith
  rw [hne, ht]
  -- the row itself takes one level
  change Cut (leafWith (Resolve.below (maxDepth - 1)) tokens >>= fun x =>
    climbWith (Resolve.below (maxDepth - 1)) 0 x.1 x.2 >>= fun y => _) _
  rw [← bind_assoc]
  have hr : Cut (leafWith (Resolve.below (maxDepth - 1)) tokens >>= fun x =>
      climbWith (Resolve.below (maxDepth - 1)) 0 x.1 x.2) (g.tree.map fun e => (e, [])) := by
    refine Cut.bind_tree (hl.cut hro) (fun e => hc.tree_error Bool.noConfusion) fun e he => ?_
    exact hc.cut hro he (by simp) (Nat.le_refl _)
  refine hr.bind fun y hy => ?_
  obtain ⟨e, rfl⟩ : ∃ e, y = (e, []) := by
    cases hg : g.tree with
    | error x => rw [hg] at hy; cases hy
    | ok e => rw [hg] at hy; cases hy; exact ⟨e, rfl⟩
  exact .refl _

/-- **Resolving finds the groupings of the grammar.** A row that is a phrase of the grammar resolves to the
tree of its grouping with every operand resolved on its own, or has too many levels. In particular
parentheses keep a run of comparisons apart: whatever they hold is one operand of the run around it. -/
theorem expression_of_derives : (∀ tokens g, Derives .disjunction tokens g →
      expression tokens = g.tree.map some ∨ expression tokens = .error tooDeep)
    ∧ (∀ inner op right r, Derives .bitOr right r →
      Cut (expression (.bracket inner :: .operator (CompareOp.symbol op) :: right))
        (do
          let b ← operand (.bracket inner)
          return some (.compare b [(op, ← r.tree)]))) ∧ ∀ left l op inner, Derives .bitOr left l →
      Cut (expression (left ++ [.operator (CompareOp.symbol op), .bracket inner]))
        (do
          let first ← l.tree
          return some (.compare first [(op, ← operand (.bracket inner))])) := by
  have hbracket : ∀ inner, Derives .bitOr [.bracket inner] (.operand (.bracket inner)) :=
    fun inner => .ofOperand (.bracket inner) rfl .bitOr
  refine ⟨fun tokens g h => h.cut, fun inner op right r hright => ?_, fun left l op inner hleft => ?_⟩
  · have hcut := (Derives.comparison op (hbracket inner) hright).cut
    have htree : (Grouping.compare (.operand (.bracket inner)) [(op, r)]).tree.map some
        = (do
          let b ← operand (.bracket inner)
          return some (.compare b [(op, ← r.tree)])) := by
      simp only [Grouping.tree, Grouping.comparators]
      cases operand (.bracket inner) with
      | error e => rfl
      | ok b => cases r.tree <;> rfl
    rw [htree] at hcut
    exact hcut
  · have hcut := (Derives.comparison op hleft (hbracket inner)).cut
    have htree : (Grouping.compare l [(op, .operand (.bracket inner))]).tree.map some
        = (do
          let first ← l.tree
          return some (.compare first [(op, ← operand (.bracket inner))])) := by
      simp only [Grouping.tree, Grouping.comparators]
      cases l.tree with
      | error e => rfl
      | ok b => cases operand (.bracket inner) <;> rfl
    rw [htree] at hcut
    exact hcut

/-- A row with every kind of operator: `not a < (b < c) <= -d ** e + f or g`. -/
def mixedRow : List Token :=
  [.operator "not", .name "a", .operator "<", .bracket [.name "b", .operator "<", .name "c"],
    .operator "<=", .operator "-", .name "d", .operator "**", .name "e", .operator "+", .name "f",
    .operator "or", .name "g"]

def mixedGrouping : Grouping :=
  .bool .or (.unary .not (.compare (.operand (.name "a"))
      [(.lt, .operand (.bracket [.name "b", .operator "<", .name "c"])),
        (.le, .binary .add (.unary .minus (.binary .pow (.operand (.name "d")) (.operand (.name "e"))))
          (.operand (.name "f")))]))
    (.operand (.name "g"))

theorem expression_of_derives_mixed : Derives .disjunction mixedRow mixedGrouping
      ∧ (expression mixedRow = mixedGrouping.tree.map some ∨ expression mixedRow = .error tooDeep) := by
  have hpower : Derives .sign [.operator "-", .name "d", .operator "**", .name "e"]
      (.unary .minus (.binary .pow (.operand (.name "d")) (.operand (.name "e")))) :=
    .sign .minus (by decide)
      (.tighter (.power (show isOperand (.name "d") = true from rfl) (.ofOperand (.name "e") rfl .sign)))
  have hsum : Derives .sum [.operator "-", .name "d", .operator "**", .name "e", .operator "+", .name "f"]
      (.binary .add (.unary .minus (.binary .pow (.operand (.name "d")) (.operand (.name "e"))))
        (.operand (.name "f"))) :=
    .binary .add (by decide) (.tighter (.tighter hpower)) (.ofOperand (.name "f") rfl .product)
  have hfirst : Derives .comparison [.name "a", .operator "<", .bracket [.name "b", .operator "<", .name "c"]] _ :=
    .comparison .lt (.ofOperand (.name "a") rfl .bitOr)
      (.ofOperand (.bracket [.name "b", .operator "<", .name "c"]) rfl .bitOr)
  have hrun := Derives.run .le hfirst (.tighter (.tighter (.tighter (.tighter hsum))))
  have hnegation := Derives.negation (.tighter hrun)
  have hrow : Derives .disjunction mixedRow mixedGrouping :=
    .bool .or (.tighter (.tighter hnegation)) (.ofOperand (.name "g") rfl .conjunction)
  exact ⟨hrow, expression_of_derives.1 mixedRow mixedGrouping hrow⟩

end Playback.Resolve
