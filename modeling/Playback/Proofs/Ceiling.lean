import Playback.Proofs.Canonical
import Playback.Proofs.Heights
import Playback.Proofs.Precedence

/-!
# How high compiled code can be

Three bounds are kept while a tree is read and compiled: on the levels of its expressions, on its nested blocks, and on
the levels that resolving goes down. Together they bound the height of a program in which a run of operators and a chain
of conditions are one level (`Node.compiled_height`), but not the height itself: a sum is as high as it is long
(`compiled_height_unbounded`).
-/

namespace Playback

open List Statement

/-! ## What resolving can come to -/

namespace Resolve

theorem Around.height (h : Around p e) (hp : ∀ part, p part → part.height 0 ≤ n) : e.height 0 ≤ n + 1 :=
  Expr.height_of_parts h.alone fun part hm => hp part (h.parts part hm)

/-- A level that is gone down leaves room for two levels of the tree. -/
theorem operandWith_low (hw : ∀ ts, Yields (wholeWith (below n) ts) (IfAny (·.height 0 ≤ 2 * n)))
    (ho : ∀ t, Yields (operandWith (below n) t) (·.height 0 ≤ 2 * n)) (t : Token) :
    Yields (operandWith (below (n + 1)) t) (·.height 0 ≤ 2 * (n + 1)) := by
  refine (operandWith_around hw ho t).mono fun e he => ?_
  rcases he with he | he
  · omega
  · refine he.height (n := 2 * n + 1) fun part hp => ?_
    rcases hp with hp | hp
    · omega
    · exact hp.height fun _ => id

/-- An operator goes one level above its right operand; its left operand is on the level of the operator. -/
theorem combine_low (op : Operator) (chainable : Bool) {lhs rhs : Expr} (hl : lhs.height 0 ≤ n + 1)
    (hr : rhs.height 0 ≤ n) : (combine op chainable lhs rhs).1.height 0 ≤ n + 1 := by
  obtain ⟨-, ho⟩ := combine_operands op chainable lhs rhs
  rcases ho with ⟨hle, hi⟩ | ⟨hle, hi⟩ <;> rw [Expr.height_le, hle, hi]
  · exact ⟨fun _ h => Option.mem_some.1 h ▸ hl, forall_mem_singleton.2 hr⟩
  · obtain ⟨hf, hre⟩ := Expr.height_le.1 hl
    exact ⟨hf, forall_mem_append.2 ⟨hre, forall_mem_singleton.2 hr⟩⟩

/-- What is resolved has two levels for each level that resolving can go down, where a run of operators is one. Climbing
makes a tree higher only up to what its right operands ask for. -/
def lowReading : Reading where
  operand n _ e := e.height 0 ≤ 2 * n
  leaf n _ r := r.1.height 0 ≤ 2 * n
  climb n _ r r' := ∀ k, 2 * n ≤ k → r.1.height 0 ≤ k + 1 → r'.1.height 0 ≤ k + 1
  whole n _ := IfAny (·.height 0 ≤ 2 * n)
  nested _ hw ho := operandWith_low hw ho _
  alone _ he := he
  marked {n} _ _ _ _ _ _ _ hl hc :=
    Expr.height_of_parts rfl (List.forall_mem_singleton.2 (hc (2 * n) (Nat.le_refl _) (Nat.le_succ_of_le hl)))
  extended {n} _ _ _ _ hl hc := hc (2 * n + 1) (Nat.le_succ _) hl
  start _ _ _ h := h
  step hc _ hl k hk h := combine_low _ _ (hc k hk h) (Nat.le_trans hl hk)
  empty _ := nofun
  full {n} _ _ _ _ hl hc := by
    rintro _ ⟨⟩
    exact Nat.le_succ_of_le (hc (2 * n) (Nat.le_refl _) (Nat.le_succ_of_le hl))

theorem expression_low (e : Expression) : Yields (expression e) (IfAny (·.height 0 ≤ 2 * maxDepth)) :=
  (lowReading.holds (Nat.le_refl maxDepth)).whole e

theorem value_low (tag set : String) (e : Expression) : Yields (value tag set e) (·.height 0 ≤ 2 * maxDepth) :=
  (expression_low e).bind fun _ => required_yields tag set

theorem operand_low (t : Token) : Yields (operand t) (·.height 0 ≤ 2 * maxDepth) :=
  (lowReading.holds (Nat.le_refl maxDepth)).operand t

end Resolve

/-! ## What compiling can come to -/

/-- How high the expressions and targets of an instruction can be, where runs count as one level. -/
def maxValueHeight : Nat :=
  maxTreeNesting + 2 * Resolve.maxDepth + 2

/-- How high a program can be, where runs of operators and chains of conditions count as one level. -/
def maxHeight : Nat :=
  maxBlockNesting + maxValueHeight

theorem Target.height_item (hc : c.height 0 ≤ n) (hi : i.height 0 ≤ n) : (Target.item c i).toExpr.height 0 ≤ n + 1 := by
  rw [Target.toExpr]
  exact Expr.height_of_parts rfl (forall_mem_cons.2 ⟨hc, forall_mem_singleton.2 hi⟩)

theorem Target.height_unpack (h : ∀ t ∈ ts, t.toExpr.height 0 ≤ n) : (Target.unpack ts).toExpr.height 0 ≤ n + 1 := by
  rw [Target.toExpr]
  exact Expr.height_of_parts rfl (forall_mem_map.2 h)

namespace Lower

open Resolve (maxDepth)

theorem low_targets : TargetRules (fun t u => u.toExpr.height 0 ≤ 2 * maxDepth + t.levels)
    (fun row us => ∀ u ∈ us, u.toExpr.height 0 ≤ 2 * maxDepth + rowLevels row)
    fun rows us => ∀ u ∈ us, u.toExpr.height 0 ≤ 2 * maxDepth + rowsLevels rows where
  name s := by
    have hn : (Expr.name s).height 0 ≤ 0 + 1 := Expr.height_of_parts rfl nofun
    rw [Target.toExpr, Token.levels]
    omega
  subscript hc hk := by
    have hi := Target.height_item (Resolve.operand_low _ _ hc) (Resolve.value_low _ _ _ _ hk)
    rw [Token.levels]
    omega
  tuple h := Target.height_unpack h
  list h := Target.height_unpack h
  bracket h := by
    have hu := h _ mem_cons_self
    rw [Token.levels]
    omega
  nil := nofun
  cons hu hr := by
    rw [rowLevels]
    exact forall_mem_cons.2 ⟨by omega, fun u' hu' => Nat.le_trans (hr u' hu') (by omega)⟩
  none := nofun
  empty hr u hu := Nat.le_trans (hr u hu) (by rw [rowsLevels]; omega)
  row hu hr := by
    have hu := hu _ mem_cons_self
    rw [rowsLevels]
    exact forall_mem_cons.2 ⟨by omega, fun u' hu' => Nat.le_trans (hr u' hu') (by omega)⟩

theorem targets_low (ts : List Token) : Yields (targets ts) (·.toExpr.height 0 ≤ 2 * maxDepth + rowLevels ts + 1) := by
  intro u hu
  rcases low_targets.of_targets ts u hu with h | ⟨us, rfl, h⟩
  · exact Nat.le_succ_of_le (h u mem_cons_self)
  · exact Target.height_unpack h

/-- What is planned is emitted at most `n` levels high, traced or not. -/
def Plan.Low (n : Nat) (p : Plan) : Prop :=
  ∀ traced, blockHeight 0 (p.emit traced) ≤ n

def LowAll (n : Nat) (ps : List Plan) : Prop :=
  ∀ traced, blockHeight 0 (emitAll traced ps) ≤ n

def Links.Low (n : Nat) (links : Links) : Prop :=
  ∀ traced, blockHeight 0 (links.emit traced) ≤ n

theorem height_logged (t : Bool) (k : Trace.Kind) (he : e.height 0 ≤ n) : (logged t k e).height 0 ≤ n + 1 := by
  cases t with
  | true => exact Expr.height_of_parts rfl (forall_mem_singleton.2 he)
  | false => exact Nat.le_succ_of_le he

theorem height_logStart (k : Trace.Kind) (s : String) (he : e.height 0 ≤ n) : (Expr.logStart k s e).height 0 ≤ n + 1 :=
  Expr.height_of_parts rfl (forall_mem_singleton.2 he)

theorem blockHeight_append (along : Nat) (is js : List Instr) :
    blockHeight along (is ++ js) = max (blockHeight along is) (blockHeight along js) := by
  induction is with
  | nil => exact (Nat.zero_max _).symm
  | cons i is ih => rw [cons_append, blockHeight, blockHeight, ih, Nat.max_assoc]

theorem LowAll.cons (hp : p.Low n) (hps : LowAll k ps) : LowAll (max n k) (p :: ps) := by
  intro t
  have hf := hp t
  have hr := hps t
  rw [emitAll, blockHeight_append]
  omega

attribute [local simp] Plan.emit Links.emit blockHeight blockHeight_append iterationBody Instr.height Action.height
  FunctionCode.height blocks linksBlocks

theorem maxValueHeight_eq : maxValueHeight = maxTreeNesting + 2 * maxDepth + 2 :=
  rfl

section

variable {ps : List Plan} {ls : Links} {c : Expr} {n k : Nat} (hc : c.height 0 ≤ 2 * maxDepth)
  (hb : LowAll (n + maxValueHeight) ps) (line : Nat)

include hc hb

theorem conditional_low (hl : ls.Low (k + maxValueHeight)) :
    (Plan.conditional line c ps ls).Low (max (n + 1) k + maxValueHeight) := by
  intro t
  have hbo := maxValueHeight_eq
  have hlo := height_logStart .if_ "condition" hc
  have hb := hb t
  have hl := hl t
  cases t <;> cases hd : ls.isDone <;> simp [hd] <;> omega

theorem elif_low (hl : ls.Low (k + maxValueHeight)) :
    (Links.elif line c ps ls).Low (max (n + 1) k + maxValueHeight) := by
  intro t
  have hbo := maxValueHeight_eq
  have hlo := height_logStart .elif "condition" hc
  have hb := hb t
  have hl := hl t
  cases t <;> simp <;> omega

theorem whileLoop_low : (Plan.whileLoop line c ps).Low (n + 1 + maxValueHeight) := by
  intro t
  have hbo := maxValueHeight_eq
  have hlo := height_logStart .whileIteration "condition" hc
  have hb := hb t
  cases t <;> simp <;> omega

theorem forLoop_low (ht : u.toExpr.height 0 ≤ maxValueHeight) :
    (Plan.forLoop line u c ps).Low (n + 1 + maxValueHeight) := by
  intro t
  have hbo := maxValueHeight_eq
  have hea := Expr.height_of_parts (e := .each .forIteration "iterable" c) rfl (forall_mem_singleton.2 hc)
  have hb := hb t
  cases t <;> simp <;> omega

omit hb

theorem return_low : (Plan.return_ line c).Low (n + maxValueHeight) := by
  intro t
  have hbo := maxValueHeight_eq
  have hlo : (Expr.logEnd .return_ .functionCall c).height 0 ≤ 2 * maxDepth + 1 :=
    Expr.height_of_parts rfl (forall_mem_singleton.2 hc)
  cases t <;> simp <;> omega

end

theorem low_rules : BlockRules
    (fun _ s _ p _ => s.levels ≤ maxTreeNesting + 1 → p.Low (s.blocks + maxValueHeight))
    (fun _ ss _ ps _ => statementsLevels ss ≤ maxTreeNesting + 1 → LowAll (statementsBlocks ss + maxValueHeight) ps)
    fun _ ks _ ls _ => linksLevels ks ≤ maxTreeNesting + 1 → ls.Low (linksBlocks ks + maxValueHeight) where
  skip _ _ _ := Nat.zero_le _
  eval he _ t := by
    have hbo := maxValueHeight_eq
    have hl := height_logged t .expression (Resolve.expression_low _ _ he _ rfl)
    simp
    omega
  assign hu he hs t := by
    have hbo := maxValueHeight_eq
    have hu := targets_low _ _ hu
    have hl := height_logged t .assignment (Resolve.value_low _ _ _ _ he)
    simp only [levels, Nat.max_le] at hs
    simp
    omega
  conditional he hb _ hl hs := by
    rw [levels, Nat.max_le, Nat.max_le] at hs
    rw [blocks]
    exact conditional_low (Resolve.value_low _ _ _ _ he) (hb hs.2.1) _ (hl hs.2.2)
  whileLoop he hb hs := by
    rw [levels, Nat.max_le] at hs
    rw [blocks]
    exact whileLoop_low (Resolve.value_low _ _ _ _ he) (hb hs.2) _
  forLoop hu he hb hs := by
    simp only [levels, Nat.max_le] at hs
    have hbo := maxValueHeight_eq
    have hu := targets_low _ _ hu
    rw [blocks]
    exact forLoop_low (Resolve.value_low _ _ _ _ he) (hb hs.2) _ (by omega)
  function _ _ _ _ ht _ hp hs _ := by
    have hbo := maxValueHeight_eq
    have ht := ht hs true
    have hp := hp hs false
    simp
    omega
  return_ e _ he _ := by
    refine return_low ?_ _
    cases e with
    | none => exact Expr.height_of_parts rfl (forall_mem_nil _)
    | some e => exact Resolve.expression_low _ _ he e rfl
  break_ _ _ t := by cases t <;> exact Nat.zero_le _
  continue_ _ _ t := by cases t <;> exact Nat.zero_le _
  import_ _ _ t := by cases t <;> exact Nat.zero_le _
  fromImport _ _ _ t := by cases t <;> exact Nat.zero_le _
  nil _ _ := Nat.zero_le _
  cons _ hp hr hs := by
    rw [statementsLevels, Nat.max_le] at hs
    rw [statementsBlocks, ← Nat.add_max_add_right]
    exact .cons (hp hs.1) (hr hs.2)
  empty _ _ := Nat.zero_le _
  suite h := h
  done _ _ := Nat.zero_le _
  elif he hb _ hl hs := by
    simp only [linksLevels, Nat.max_le] at hs
    rw [linksBlocks]
    exact elif_low (Resolve.value_low _ _ _ _ he) (hb hs.1.2) _ (hl hs.2)
  else_ hb hs t := by
    have hbo := maxValueHeight_eq
    simp only [linksLevels, Nat.max_le] at hs
    have hb := hb hs.1 t
    cases t <;> simp <;> omega

end Lower

/-! ## Programs -/

/-- **A compiled tree is at most `maxHeight` levels high, where a run of operators and a chain of conditions are one
level.** The true height is bounded only together with the longest such run or chain. -/
theorem Node.compiled_height {node : Node} {script : Script} {program : Program} (hread : node.script = .ok script)
    (hcompile : script.compile = .ok program) :
    program.height 0 ≤ maxHeight ∧ program.height 1 ≤ (maxHeight + 1) * (program.longest + 1) := by
  obtain ⟨-, hlevels, _⟩ := Node.script_readable hread
  have hlow : program.height 0 ≤ maxHeight := by
    obtain ⟨r, hplan, hbody⟩ := Script.compile_ok hcompile
    have hplans := Lower.low_rules.of_block _ script _ r hplan hlevels true
    change blockHeight 0 program.body ≤ maxBlockNesting + maxValueHeight
    rw [hbody]
    omega
  have hchains := block_height_of_chains program.body (Nat.le_refl _) hlow
  have hchain := blockChain_le_longest program.body
  refine ⟨hlow, ?_⟩
  rw [Nat.succ_mul]
  change blockHeight 1 program.body ≤ maxHeight * (blockLongest program.body + 1) + (blockLongest program.body + 1)
  omega

/-! ## Sums -/

def addedOnes : Nat → List Token
  | 0 => []
  | n + 1 => .operator "+" :: .number (.int 1) :: addedOnes n

def sumOfOnes (n : Nat) : Script :=
  [.expression (.number (.int 1) :: addedOnes n)]

def addOnes : Nat → Expr → Expr
  | 0, e => e
  | n + 1, e => addOnes n (.binary .add e (.const (.int 1)))

namespace Resolve

theorem peek_addedOnes (n : Nat) :
    peek (addedOnes (n + 1)) = .ok (some (.binary .add, .number (.int 1) :: addedOnes n)) :=
  peek_symbol (.binary .add) _

theorem extend_addedOnes (b : Option Below) (k n : Nat) (e : Expr) :
    extend b (.binary .add) k e (addedOnes n) = .ok (e, addedOnes n) := by
  cases n with
  | zero => exact extend_stop rfl nofun
  | succ n =>
    refine extend_stop (peek_addedOnes n) ?_
    rintro _ _ ⟨⟩
    rfl

/-- A sum is one round of climbing for each marker, and every round goes on from the tree of the rounds before. -/
theorem climbLoop_addedOnes (b : Below) (n : Nat) (hf : n ≤ fuel) (chainable : Bool) (e : Expr) :
    climbLoop (some b) 0 fuel chainable e (addedOnes n) = .ok (addOnes n e, []) := by
  induction n generalizing fuel chainable e with
  | zero => exact climbLoop_stop (.inl rfl)
  | succ n ih =>
    obtain ⟨fuel, rfl⟩ : ∃ k, fuel = k + 1 := ⟨fuel - 1, by omega⟩
    change (extend (some b) (.binary .add) (addedOnes n).length (.const (.int 1)) (addedOnes n) >>= _) = _
    rw [extend_addedOnes]
    exact ih (by omega) false _

theorem length_addedOnes (n : Nat) : (addedOnes n).length = 2 * n := by
  induction n with
  | zero => rfl
  | succ n ih =>
    rw [addedOnes, length_cons, length_cons]
    omega

theorem expression_addedOnes (n : Nat) :
    expression (.number (.int 1) :: addedOnes n) = .ok (some (addOnes n (.const (.int 1)))) := by
  change (climbLoop (below (maxDepth - 1)) 0 (addedOnes n).length false (.const (.int 1)) (addedOnes n) >>= _) = _
  obtain ⟨b, hb⟩ : ∃ b, below (maxDepth - 1) = some b := ⟨_, rfl⟩
  rw [hb, climbLoop_addedOnes b n (by rw [length_addedOnes]; omega)]
  rfl

end Resolve

theorem height_addOnes (n : Nat) (e : Expr) : e.height 1 + n ≤ (addOnes n e).height 1 := by
  induction n generalizing e with
  | zero => exact Nat.le_refl _
  | succ n ih =>
    -- the tree goes on growing from its left operand
    have hs := ih (.binary .add e (.const (.int 1)))
    have hl : e.height 1 + 1 ≤ (Expr.binary .add e (.const (.int 1))).height 1 := Expr.height_left rfl
    rw [addOnes]
    omega

theorem script_sumOfOnes (n : Nat) : (Node.ofScript (sumOfOnes n)).script = .ok (sumOfOnes n) := by
  have hr (n : Nat) : RowCanonical (addedOnes n) ∧ rowLevels (addedOnes n) ≤ 1 := by
    induction n with
    | zero => exact ⟨List.forall_mem_nil _, Nat.zero_le 1⟩
    | succ n ih =>
      refine ⟨List.forall_mem_cons.2 ⟨.operator _, List.forall_mem_cons.2 ⟨.number trivial, ih.1⟩⟩, ?_⟩
      rw [addedOnes, rowLevels, rowLevels, Token.levels, Token.levels]
      have hl := ih.2
      omega
  obtain ⟨hc, hl⟩ := hr n
  have ho : (Token.number (.int 1)).levels = 1 := by rw [Token.levels]
  refine (Node.script_ofScript (List.forall_mem_singleton.2 ?_)).ok ⟨?_, Nat.zero_le _⟩
  · exact .expression (List.forall_mem_cons.2 ⟨.number trivial, hc⟩)
  · simp only [statementsLevels, levels, rowLevels, maxTreeNesting]
    omega

theorem compile_sumOfOnes (n : Nat) : (sumOfOnes n).compile
      = .ok { body := [.at 1 (.eval (.log (some .expression) (addOnes n (.const (.int 1)))))] } := by
  have hp : Lower.plan { inLoop := false, inFunction := false }
      (.expression (.number (.int 1) :: addedOnes n)) { line := 1, serial := 0 }
      = .ok (.eval 1 (addOnes n (.const (.int 1))), { line := 2, serial := 0 }) := by
    rw [Lower.plan, Resolve.expression_addedOnes]
    rfl
  rw [Script.compile_eq]
  change Except.map _ (Lower.plan _ _ _ >>= _) = _
  rw [hp]
  rfl

/-- The sum of three ones compiles, and is within the bounds. -/
theorem compiled_height_sum : ∃ program, (Node.ofScript (sumOfOnes 2)).script = .ok (sumOfOnes 2)
    ∧ (sumOfOnes 2).compile = .ok program
    ∧ program.height 0 ≤ maxHeight ∧ program.height 1 ≤ (maxHeight + 1) * (program.longest + 1) :=
  ⟨_, script_sumOfOnes 2, compile_sumOfOnes 2, Node.compiled_height (script_sumOfOnes 2) (compile_sumOfOnes 2)⟩

/-- **No height is a bound for what compiles**: a sum is as high as it is long. -/
theorem compiled_height_unbounded : ¬ ∃ bound, ∀ (node : Node) (script : Script) (program : Program),
    node.script = .ok script → script.compile = .ok program → program.height 1 ≤ bound := by
  rintro ⟨bound, h⟩
  have hbound := h _ _ _ (script_sumOfOnes bound) (compile_sumOfOnes bound)
  have hsum := height_addOnes bound (.const (.int 1))
  have hlogged : (addOnes bound (.const (.int 1))).height 1
      < (Expr.log (some .expression) (addOnes bound (.const (.int 1)))).height 1 :=
    Expr.height_inner List.mem_cons_self
  simp only [Program.height, blockHeight, Instr.height, Action.height] at hbound
  omega

end Playback
