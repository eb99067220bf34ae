import Playback.Proofs.Reach

/-!
# How deep code is nested

What bounds the recursion of running code is its height. Two things can be long without being nested in the text: a run
of operators, which groups from the left, and a chain of conditions. A step along either counts `along`: with 1 the
height is how deep the code is nested, with 0 a run or a chain is one level. Between the two heights stands the length
of the longest run or chain (`block_height_of_chains`).
-/

namespace Playback

open List

/-! ## The height of expressions -/

def largest (ns : List Nat) : Nat :=
  ns.foldr max 0

theorem largest_le : largest ns ≤ n ↔ ∀ k ∈ ns, k ≤ n := by
  induction ns with
  | nil => simp [largest]
  | cons k ns ih =>
    rw [largest, foldr_cons, Nat.max_le, forall_mem_cons]
    exact and_congr_right fun _ => ih

theorem sizeOf_map_snd {α : Type} [SizeOf α] {es : List (α × Expr)} {p : Expr} (h : p ∈ es.map (·.2)) :
    sizeOf p < sizeOf es := by
  obtain ⟨e, he, rfl⟩ := mem_map.1 h
  have hs := sizeOf_lt_of_mem he
  have hp : sizeOf e = 1 + sizeOf e.1 + sizeOf e.2 := rfl
  omega

theorem sizeOf_toList {e : Option Expr} (h : p ∈ e.toList) : sizeOf p < sizeOf e := by
  obtain rfl := Option.mem_toList.1 h
  simp

theorem sizeOf_flatMap {es : List (Expr × Expr)} (h : p ∈ es.flatMap fun e => [e.1, e.2]) : sizeOf p < sizeOf es := by
  obtain ⟨e, he, hp⟩ := mem_flatMap.1 h
  have hs := sizeOf_lt_of_mem he
  have hpa : sizeOf e = 1 + sizeOf e.1 + sizeOf e.2 := rfl
  simp only [mem_cons, not_mem_nil, or_false] at hp
  rcases hp with rfl | rfl <;> omega

theorem Expr.sizeOf_parts {e p : Expr} (h : p ∈ e.parts) : sizeOf p < sizeOf e := by
  cases e with
  | const | name => cases h
  | binary | bool | subscript =>
    rw [parts, mem_pair] at h
    rcases h with rfl | rfl <;> simp +arith
  | compare l r =>
    rw [compare.sizeOf_spec]
    rcases mem_cons.1 h with rfl | h
    · omega
    · have hr := sizeOf_map_snd h
      omega
  | call f _ _ =>
    rw [call.sizeOf_spec]
    rw [parts, mem_cons, mem_append] at h
    rcases h with rfl | h | h
    · omega
    · have ha := sizeOf_lt_of_mem h
      omega
    · have hk := sizeOf_map_snd h
      omega
  | slice e _ _ =>
    rw [slice.sizeOf_spec]
    rw [parts, mem_cons, mem_append] at h
    rcases h with rfl | h | h
    · omega
    all_goals
      have hb := sizeOf_toList h
      omega
  | list | tuple | set =>
    rw [parts] at h
    have he := sizeOf_lt_of_mem h
    simp; omega
  | dict _ =>
    have hen := sizeOf_flatMap h
    simp; omega
  | _ =>
    obtain rfl := mem_singleton.1 h
    simp +arith

/-- How deep an expression is nested, where a step along a run of operators, into the left operand, counts `along`. -/
def Expr.height (along : Nat) (e : Expr) : Nat :=
  max (largest (e.left?.toList.attach.map fun l => l.1.height along + along))
    (largest (e.inner.attach.map fun p => p.1.height along) + 1)
termination_by sizeOf e
decreasing_by
  · exact e.sizeOf_parts (mem_parts.2 (.inl (Option.mem_toList.1 l.2)))
  · exact e.sizeOf_parts (mem_parts.2 (.inr p.2))

theorem Expr.height_le {e : Expr} : e.height along ≤ n + 1
    ↔ (∀ l ∈ e.left?, l.height along + along ≤ n + 1) ∧ ∀ p ∈ e.inner, p.height along ≤ n := by
  rw [height, Nat.max_le, Nat.succ_le_succ_iff, largest_le, largest_le]
  simp

theorem Expr.height_of_parts {e : Expr} (hle : e.left? = none)
    (h : ∀ p ∈ e.parts, p.height along ≤ n) : e.height along ≤ n + 1 := by
  refine height_le.2 ⟨fun l hl => ?_, fun p hp => h p (mem_parts.2 (.inr hp))⟩
  rw [hle] at hl
  cases hl

theorem Expr.height_pos (along : Nat) (e : Expr) : 0 < e.height along := by
  rw [height]
  omega

theorem Expr.height_left {e l : Expr} (h : l ∈ e.left?) : l.height along + along ≤ e.height along := by
  have hk := Nat.sub_add_cancel (e.height_pos along)
  exact Nat.le_trans ((height_le.1 (Nat.le_of_eq hk.symm)).1 l h) (Nat.le_of_eq hk)

theorem Expr.height_inner {e p : Expr} (h : p ∈ e.inner) : p.height along < e.height along := by
  have hk := Nat.sub_add_cancel (e.height_pos along)
  exact Nat.lt_of_le_of_lt ((height_le.1 (Nat.le_of_eq hk.symm)).2 p h) (Nat.lt_of_succ_le (Nat.le_of_eq hk))

/-- How many operators a run has that an expression ends. -/
def Expr.run : Expr → Nat
  | .binary _ l _ => l.run + 1
  | .bool _ l _ => l.run + 1
  | .compare l _ => l.run + 1
  | _ => 0

theorem Expr.run_left {e l : Expr} (h : l ∈ e.left?) : e.run = l.run + 1 := by
  cases e <;> cases h <;> rfl

/-- How many operators the longest run in an expression has. -/
def Expr.longest (e : Expr) : Nat :=
  max e.run (largest (e.parts.attach.map fun p => p.1.longest))
termination_by sizeOf e
decreasing_by exact e.sizeOf_parts p.2

theorem Expr.longest_le {e : Expr} : e.longest ≤ w ↔ e.run ≤ w ∧ ∀ p ∈ e.parts, p.longest ≤ w := by
  rw [longest, Nat.max_le, largest_le]
  simp

theorem Expr.height_of_runs {w n : Nat} (e : Expr) (hw : e.longest ≤ w) (hn : e.height 0 ≤ n + 1) :
    e.height 1 ≤ n * (w + 1) + e.run + 1 := by
  obtain ⟨hle, hi⟩ := height_le.1 hn
  obtain ⟨_, hpa⟩ := longest_le.1 hw
  refine height_le.2 ⟨fun l hl => ?_, fun p hp => ?_⟩
  · have hl' := l.height_of_runs (hpa l (mem_parts.2 (.inl hl))) (hle l hl)
    rw [e.run_left hl]
    omega
  · have hpo := p.height_pos 0
    have hlv := hi p hp
    have hp' := p.height_of_runs (n := n - 1) (hpa p (mem_parts.2 (.inr hp))) (by omega)
    have hr := (longest_le.1 (hpa p (mem_parts.2 (.inr hp)))).1
    obtain ⟨k, rfl⟩ : ∃ k, n = k + 1 := ⟨n - 1, by omega⟩
    rw [Nat.succ_mul]
    rw [Nat.add_sub_cancel] at hp'
    omega
termination_by sizeOf e
decreasing_by
  · exact e.sizeOf_parts (mem_parts.2 (.inl hl))
  · exact e.sizeOf_parts (mem_parts.2 (.inr hp))

/-! ## The height of code -/

def Target.toExpr : Target → Expr
  | .name s => .name s
  | .item container index => .subscript container index
  | .unpack ts => .tuple (ts.map Target.toExpr)

mutual

def Instr.height (along : Nat) : Instr → Nat
  | .at _ action => action.height along

/-- How deep an action is nested, where a step along a chain of conditions, from one to the next, counts `along`. -/
def Action.height (along : Nat) : Action → Nat
  | .eval e => e.height along
  | .return_ e => e.height along
  | .assign t e => max (t.toExpr.height along) (e.height along)
  | .branch c body orelse =>
    max (c.height along) (max (blockHeight along body + 1) (blockHeight along orelse + along))
  | .loop c body => max (c.height along) (blockHeight along body + 1)
  | .iterate t e body => max (max (t.toExpr.height along) (e.height along)) (blockHeight along body + 1)
  | .define code => code.height along + 1
  | _ => 0

def blockHeight (along : Nat) : List Instr → Nat
  | [] => 0
  | i :: rest => max (i.height along) (blockHeight along rest)

def FunctionCode.height (along : Nat) : FunctionCode → Nat
  | .mk _ _ _ _ _ traced plain => max (blockHeight along traced) (blockHeight along plain)

end

def Program.height (along : Nat) (program : Program) : Nat :=
  blockHeight along program.body

mutual

/-- How many conditions come one after the other, each if those before it fail. -/
def Instr.chain : Instr → Nat
  | .at _ action => action.chain

def Action.chain : Action → Nat
  | .branch _ _ orelse => blockChain orelse + 1
  | _ => 0

def blockChain : List Instr → Nat
  | [] => 0
  | i :: rest => max i.chain (blockChain rest)

end

mutual

/-- The length of the longest run of operators or chain of conditions in an instruction. -/
def Instr.longest : Instr → Nat
  | .at _ action => action.longest

def Action.longest : Action → Nat
  | .eval e => e.longest
  | .return_ e => e.longest
  | .assign t e => max t.toExpr.longest e.longest
  | .branch c body orelse =>
    max (blockChain orelse + 1) (max c.longest (max (blockLongest body) (blockLongest orelse)))
  | .loop c body => max c.longest (blockLongest body)
  | .iterate t e body => max (max t.toExpr.longest e.longest) (blockLongest body)
  | .define code => code.longest
  | _ => 0

def blockLongest : List Instr → Nat
  | [] => 0
  | i :: rest => max i.longest (blockLongest rest)

def FunctionCode.longest : FunctionCode → Nat
  | .mk _ _ _ _ _ traced plain => max (blockLongest traced) (blockLongest plain)

end

/-- The length of the longest run of operators or chain of conditions in a program. -/
def Program.longest (program : Program) : Nat :=
  blockLongest program.body

theorem Instr.chain_le_longest (i : Instr) : i.chain ≤ i.longest := by
  obtain ⟨l, action⟩ := i
  cases action with
  | branch c b _ => exact Nat.le_max_left _ _
  | _ => exact Nat.zero_le _

theorem blockChain_le_longest (is : List Instr) : blockChain is ≤ blockLongest is := by
  induction is with
  | nil => exact Nat.le_refl 0
  | cons i r _ =>
    rw [blockChain, blockLongest]
    have hi := i.chain_le_longest
    omega

theorem Expr.height_of_longest {e : Expr} (hw : e.longest ≤ w) (hn : e.height 0 ≤ n) : e.height 1 ≤ n * (w + 1) := by
  have hp := e.height_pos 0
  obtain ⟨k, rfl⟩ : ∃ k, n = k + 1 := ⟨n - 1, by omega⟩
  have hr := e.height_of_runs hw hn
  have hru := (longest_le.1 hw).1
  rw [Nat.succ_mul]
  omega

theorem level_le (hn : low + 1 ≤ n) (hc : chain ≤ w) (h : high ≤ low * (w + 1) + chain) : high + 1 ≤ n * (w + 1) := by
  have hm : (low + 1) * (w + 1) ≤ n * (w + 1) := Nat.mul_le_mul_right _ hn
  rw [Nat.succ_mul] at hm
  omega

mutual

theorem Instr.height_of_chains (i : Instr) (hw : i.longest ≤ w) (hn : i.height 0 ≤ n) :
    i.height 1 ≤ n * (w + 1) + i.chain := by
  match i with
  | .at l action => exact action.height_of_chains hw hn

theorem Action.height_of_chains (action : Action) (hw : action.longest ≤ w) (hn : action.height 0 ≤ n) :
    action.height 1 ≤ n * (w + 1) + action.chain := by
  -- a body is one level down, where there is room for its own chains
  have hbo {b : List Instr} (hw : blockLongest b ≤ w) (hn : blockHeight 0 b + 1 ≤ n)
      (h : blockHeight 1 b ≤ blockHeight 0 b * (w + 1) + blockChain b) :
      blockHeight 1 b + 1 ≤ n * (w + 1) :=
    level_le hn (Nat.le_trans (blockChain_le_longest b) hw) h
  match action with
  | .eval _ | .return_ _ => exact Expr.height_of_longest hw hn
  | .assign t e =>
    simp only [Action.longest, Action.height, Nat.max_le] at hw hn
    exact Nat.max_le.2 ⟨Expr.height_of_longest hw.1 hn.1, Expr.height_of_longest hw.2 hn.2⟩
  | .branch c b orelse =>
    simp only [Action.longest, Action.height, Nat.max_le] at hw hn
    obtain ⟨_, hwc, hwb, hwo⟩ := hw
    have hc := Expr.height_of_longest hwc hn.1
    have hb := hbo hwb hn.2.1 (block_height_of_chains b hwb (Nat.le_refl _))
    have ho := block_height_of_chains orelse hwo hn.2.2
    simp only [Action.height, Action.chain]
    omega
  | .loop c b =>
    simp only [Action.longest, Action.height, Nat.max_le] at hw hn
    have hb := hbo hw.2 hn.2 (block_height_of_chains b hw.2 (Nat.le_refl _))
    exact Nat.max_le.2 ⟨Expr.height_of_longest hw.1 hn.1, hb⟩
  | .iterate t e b =>
    simp only [Action.longest, Action.height, Nat.max_le] at hw hn
    have hb := hbo hw.2 hn.2 (block_height_of_chains b hw.2 (Nat.le_refl _))
    exact Nat.max_le.2 ⟨Nat.max_le.2 ⟨Expr.height_of_longest hw.1.1 hn.1.1, Expr.height_of_longest hw.1.2 hn.1.2⟩, hb⟩
  | .define d => exact level_le hn (Nat.le_refl w) (d.height_of_chains hw (Nat.le_refl _))
  | .break_ | .continue_ | .import_ _ | .fromImport _ _ | .startFrame _ _ | .childSet _ | .endFrame | .endLoop =>
    exact Nat.zero_le _

theorem block_height_of_chains (is : List Instr) (hw : blockLongest is ≤ w) (hn : blockHeight 0 is ≤ n) :
    blockHeight 1 is ≤ n * (w + 1) + blockChain is := by
  match is with
  | [] => exact Nat.zero_le _
  | i :: r =>
    simp only [blockLongest, blockHeight, Nat.max_le] at hw hn
    rw [blockHeight, blockChain]
    have hi := i.height_of_chains hw.1 hn.1
    have hr := block_height_of_chains r hw.2 hn.2
    omega

theorem FunctionCode.height_of_chains (c : FunctionCode) (hw : c.longest ≤ w)
    (hn : c.height 0 ≤ n) : c.height 1 ≤ n * (w + 1) + w := by
  match c with
  | .mk _ _ _ _ _ t plain =>
    simp only [FunctionCode.longest, FunctionCode.height, Nat.max_le] at hw hn
    have ht := block_height_of_chains t hw.1 hn.1
    have hp := block_height_of_chains plain hw.2 hn.2
    have hc := blockChain_le_longest t
    have hc' := blockChain_le_longest plain
    rw [FunctionCode.height]
    omega

end

end Playback
