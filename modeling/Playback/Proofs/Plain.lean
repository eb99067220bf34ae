import Playback.Code.Lower
import Playback.Proofs.Resolving

/-!
# Plain expressions

An expression is plain if no part of it reports to the trace. What resolving a row of tokens gives is always
plain: reporting is put around it later, by the lowering of statements. So a traced body and a plain one
evaluate the same expressions, and only what stands around them opens and closes frames.
-/

namespace Playback

open List

/-- The parts of an expression, in the order in which they are evaluated. -/
def Expr.parts : Expr → List Expr
  | .const _ => []
  | .name _ => []
  | .unary _ e => [e]
  | .binary _ l r => [l, r]
  | .bool _ l r => [l, r]
  | .compare l rest => l :: rest.map (·.2)
  | .call f args keywords => f :: (args ++ keywords.map (·.2))
  | .attribute e _ => [e]
  | .subscript e i => [e, i]
  | .slice e lower upper => e :: (lower.toList ++ upper.toList)
  | .list elements => elements
  | .tuple elements => elements
  | .set elements => elements
  | .dict entries => entries.flatMap fun entry => [entry.1, entry.2]
  | .log _ e => [e]
  | .logStart _ _ e => [e]
  | .logEnd _ _ e => [e]
  | .each _ _ e => [e]

/-- The left operand of an operator, along which a run of operators goes on. -/
def Expr.left? : Expr → Option Expr
  | .binary _ l _ => some l
  | .bool _ l _ => some l
  | .compare l _ => some l
  | _ => none

/-- The parts of an expression but for its left operand. -/
def Expr.inner : Expr → List Expr
  | .binary _ _ r => [r]
  | .bool _ _ r => [r]
  | .compare _ rest => rest.map (·.2)
  | e => e.parts

theorem Expr.mem_parts {e p : Expr} : p ∈ e.parts ↔ p ∈ e.left? ∨ p ∈ e.inner := by
  cases e <;> simp [parts, left?, inner, eq_comm]

/-- Whether an expression reports to the trace itself. -/
def Expr.reports : Expr → Bool
  | .log _ _ => true
  | .logStart _ _ _ => true
  | .logEnd _ _ _ => true
  | .each _ _ _ => true
  | _ => false

/-- No part of the expression reports to the trace. -/
inductive Expr.Plain : Expr → Prop where
  | intro : e.reports = false → (∀ part ∈ e.parts, Plain part) → Plain e

theorem Expr.Plain.parts {e : Expr} (h : e.Plain) : ∀ part ∈ e.parts, part.Plain := by
  cases h with
  | intro _ hp => exact hp

inductive Target.Plain : Target → Prop where
  | name (s : String) : Plain (.name s)
  | item : c.Plain → i.Plain → Plain (.item c i)
  | unpack : (∀ t ∈ ts, Plain t) → Plain (.unpack ts)

namespace Resolve

/-- Neither an operator nor a report, and of its parts something is said. -/
structure Around (p : Expr → Prop) (e : Expr) : Prop where
  quiet : e.reports = false
  alone : e.left? = none
  parts : ∀ part ∈ e.parts, p part

/-- An operand is what a row resolves to, or it stands around such trees and around operands that do. -/
theorem operandWith_around (hw : ∀ ts, Yields (wholeWith (below n) ts) (IfAny p))
    (ho : ∀ t, Yields (operandWith (below n) t) p) (t : Token) :
    Yields (operandWith (below (n + 1)) t) fun e => p e ∨ Around (fun part => p part ∨ Around p part) e := by
  cases t with
  | operator _ => exact .error _
  | number n => exact (Yields.any _).bind fun c _ => .ok (.inr ⟨rfl, rfl, nofun⟩)
  | string | bool | none | name => exact .ok (.inr ⟨rfl, rfl, nofun⟩)
  | call x as =>
    refine (arguments_yields hw as).bind fun r hr => .ok (.inr ⟨rfl, rfl, ?_⟩)
    refine forall_mem_cons.2 ⟨.inr ⟨rfl, rfl, nofun⟩, forall_mem_append.2 ⟨fun a ha => .inl (hr.1 a ha), ?_⟩⟩
    exact forall_mem_map.2 fun k hk => .inl (hr.2 k hk)
  | callMember object m as =>
    refine (arguments_yields hw as).bind fun r hr => (ho object).bind fun e he => .ok (.inr ⟨rfl, rfl, ?_⟩)
    refine forall_mem_cons.2 ⟨?_, forall_mem_append.2 ⟨fun a ha => .inl (hr.1 a ha), ?_⟩⟩
    · exact .inr ⟨rfl, rfl, forall_mem_singleton.2 he⟩
    · exact forall_mem_map.2 fun k hk => .inl (hr.2 k hk)
  | member object m =>
    exact (ho object).bind fun e he => .ok (.inr ⟨rfl, rfl, forall_mem_singleton.2 (.inl he)⟩)
  | list rows | tuple rows | set rows =>
    exact (elements_yields hw rows).bind fun es hes => .ok (.inr ⟨rfl, rfl, fun e he => .inl (hes e he)⟩)
  | dict rows =>
    refine (entries_yields hw rows).bind fun es hes => .ok (.inr ⟨rfl, rfl, forall_mem_flatMap.2 fun e he => ?_⟩)
    exact forall_mem_cons.2 ⟨.inl (hes e he).1, forall_mem_singleton.2 (.inl (hes e he).2)⟩
  | subscript tg key =>
    refine (ho tg).bind fun e he => (hw key).bind fun k hk => (required_yields _ _ hk).bind fun k hk => ?_
    exact .ok (.inr ⟨rfl, rfl, forall_mem_cons.2 ⟨.inl he, forall_mem_singleton.2 (.inl hk)⟩⟩)
  | slice tg start stop =>
    refine (ho tg).bind fun e he => (hw start).bind fun l hl => (hw stop).bind fun u hu => ?_
    refine .ok (.inr ⟨rfl, rfl, forall_mem_cons.2 ⟨.inl he, forall_mem_append.2 ⟨?_, ?_⟩⟩⟩)
    · exact fun part hp => .inl (hl part (Option.mem_toList.1 hp))
    · exact fun part hp => .inl (hu part (Option.mem_toList.1 hp))
  | bracket i => exact ((hw i).bind fun _ => required_yields _ _).mono fun _ => .inl

theorem Around.plain (h : Around p e) (hp : ∀ part, p part → part.Plain) : e.Plain :=
  .intro h.quiet fun part hm => hp part (h.parts part hm)

theorem operandWith_plain (hw : ∀ ts, Yields (wholeWith (below n) ts) (IfAny Expr.Plain))
    (ho : ∀ t, Yields (operandWith (below n) t) Expr.Plain) (t : Token) :
    Yields (operandWith (below (n + 1)) t) Expr.Plain :=
  (operandWith_around hw ho t).mono fun _ he =>
    he.elim id (·.plain fun _ hp => hp.elim id (·.plain fun _ => id))

/-- An operator stands between its operands; a comparison may go on with a chain instead. -/
theorem combine_operands (op : Operator) (chainable : Bool) (lhs rhs : Expr) :
    let e := (combine op chainable lhs rhs).1
    e.reports = false ∧ (e.left? = some lhs ∧ e.inner = [rhs] ∨ e.left? = lhs.left? ∧ e.inner = lhs.inner ++ [rhs]) := by
  cases op with
  | bool | binary => exact ⟨rfl, .inl ⟨rfl, rfl⟩⟩
  | compare op =>
    unfold combine
    dsimp only
    split
    · exact ⟨rfl, .inr ⟨rfl, map_append⟩⟩
    · exact ⟨rfl, .inl ⟨rfl, rfl⟩⟩

theorem combine_plain (op : Operator) (chainable : Bool) (hl : lhs.Plain)
    (hr : rhs.Plain) : (combine op chainable lhs rhs).1.Plain := by
  obtain ⟨hq, ho⟩ := combine_operands op chainable lhs rhs
  refine .intro hq fun part hp => ?_
  rw [Expr.mem_parts] at hp
  rcases ho with ⟨hle, hi⟩ | ⟨hle, hi⟩ <;> rw [hle, hi] at hp
  · rcases hp with hp | hp
    · exact Option.mem_some.1 hp ▸ hl
    · exact mem_singleton.1 hp ▸ hr
  · rw [mem_append, ← or_assoc, ← Expr.mem_parts] at hp
    rcases hp with hp | hp
    · exact hl.parts part hp
    · exact mem_singleton.1 hp ▸ hr

def plainReading : Reading where
  operand _ _ e := e.Plain
  leaf _ _ r := r.1.Plain
  climb _ _ r r' := r.1.Plain → r'.1.Plain
  whole _ _ := IfAny Expr.Plain
  nested _ hw ho := operandWith_plain hw ho _
  alone _ he := he
  marked _ hl hc := .intro rfl (forall_mem_singleton.2 (hc hl))
  extended hl hc := hc hl
  start _ h := h
  step hc _ hl h := combine_plain _ _ (hc h) hl
  empty _ := nofun
  full hl hc := by
    rintro _ ⟨⟩
    exact hc hl

theorem expression_plain (e : Expression) : Yields (expression e) (IfAny Expr.Plain) :=
  (plainReading.holds (Nat.le_refl maxDepth)).whole e

theorem value_plain (tag set : String) (e : Expression) : Yields (value tag set e) Expr.Plain :=
  (expression_plain e).bind fun _ => required_yields tag set

theorem operand_plain (t : Token) : Yields (operand t) Expr.Plain :=
  (plainReading.holds (Nat.le_refl maxDepth)).operand t

end Resolve

namespace Lower

/-- Properties of what single tokens, the tokens of a row and the rows of a target assign to, which follow from those of
their parts. -/
structure TargetRules (P : Token → Target → Prop) (M : List Token → List Target → Prop)
    (E : List (List Token) → List Target → Prop) : Prop where
  name (s : String) : P (.name s) (.name s)
  subscript (hc : Resolve.operand t = .ok c) (hk : Resolve.value "PYTHON_SUBSCRIPT" "key" v = .ok k) :
    P (.subscript t v) (.item c k)
  tuple (h : E rows us) : P (.tuple rows) (.unpack us)
  list (h : E rows us) : P (.list rows) (.unpack us)
  bracket (h : M row [u]) : P (.bracket row) u
  nil : M [] []
  cons (hu : P t u) (hr : M r us) : M (t :: r) (u :: us)
  none : E [] []
  empty (hr : E r us) : E ([] :: r) us
  row (hu : M i [u]) (hr : E r us) : E (i :: r) (u :: us)

namespace TargetRules

variable {P : Token → Target → Prop} {M : List Token → List Target → Prop} {E : List (List Token) → List Target → Prop}
  (R : TargetRules P M E)

include R

mutual

theorem of_target (t : Token) : Yields (target t) (P t) := by
  match t with
  | .name s => exact .ok (R.name s)
  | .subscript t v =>
    exact (Yields.self _).bind fun c hc => (Yields.self _).bind fun k hk => .ok (R.subscript hc hk)
  | .tuple rows => exact (of_elements rows).bind fun _ h => .ok (R.tuple h)
  | .list rows => exact (of_elements rows).bind fun _ h => .ok (R.list h)
  | .bracket row => exact (of_element row).mono fun _ => R.bracket
  | .slice _ _ _ => exact .error _
  | .operator _ | .number _ | .string _ | .bool _ | .none | .call _ _ | .callMember _ _ _ | .member _ _
  | .set _ | .dict _ => exact .error _

theorem of_element (row : List Token) : Yields (elementTarget row) (M row [·]) := by
  match row with
  | [] => exact .error _
  | [t] => exact (of_target t).mono fun _ h => R.cons h R.nil
  | _ :: _ :: _ => exact .error _

theorem of_elements (rows : List (List Token)) : Yields (elementTargets rows) (E rows) := by
  match rows with
  | [] => exact .ok R.none
  | [] :: r => exact (of_elements r).mono fun _ => R.empty
  | (t :: row) :: r =>
    rw [elementTargets]
    · exact (of_element (t :: row)).bind fun _ hu => (of_elements r).bind fun _ hr => .ok (R.row hu hr)
    · nofun

end

theorem of_targets (ts : List Token) : Yields (targets ts) fun u => M ts [u] ∨ ∃ us, u = .unpack us ∧ M ts us := by
  have hm (ts : List Token) : Yields (ts.mapM target) (M ts) := by
    induction ts with
    | nil => exact .ok R.nil
    | cons t r ih =>
      rw [mapM_cons]
      exact (R.of_target t).bind fun _ hu => ih.bind fun _ hr => .ok (R.cons hu hr)
  match ts with
  | [] => exact .error _
  | [t] => exact (R.of_target t).mono fun _ h => .inl (R.cons h R.nil)
  | a :: b :: r => exact (hm (a :: b :: r)).bind fun us h => .ok (.inr ⟨us, rfl, h⟩)

end TargetRules

theorem plain_rules : TargetRules (fun _ u => u.Plain) (fun _ us => ∀ u ∈ us, u.Plain) fun _ us => ∀ u ∈ us, u.Plain where
  name s := .name s
  subscript hc hk := .item (Resolve.operand_plain _ _ hc) (Resolve.value_plain _ _ _ _ hk)
  tuple h := .unpack h
  list h := .unpack h
  bracket h := h _ mem_cons_self
  nil := nofun
  cons hu hr := forall_mem_cons.2 ⟨hu, hr⟩
  none := nofun
  empty hr := hr
  row hu hr := forall_mem_cons.2 ⟨hu _ mem_cons_self, hr⟩

theorem targets_plain (ts : List Token) : Yields (targets ts) Target.Plain := by
  intro u hu
  rcases plain_rules.of_targets ts u hu with h | ⟨us, rfl, h⟩
  · exact h u mem_cons_self
  · exact .unpack h

end Lower

end Playback
