import Playback.Proofs.Levels

/-!
# Rows that resolve

A row of tokens is well formed if markers and operands alternate in it as they should (`RowWellFormed`): any number of
prefix operators and an operand, and the same again after every binary operator. Every operand has to be well formed
too, with everything in it. Nothing else can be wrong with a row: one that is well formed resolves, unless there are
too many levels (`below_resolves`).
-/

namespace Playback

open List

/-- Whether a number stands for a constant. A text does if it is that of an integer or of a decimal, with blanks around
it or not. -/
def Number.isNumeric : Number → Bool
  | .int _ => true
  | .float _ => true
  | .text s =>
    (Word.ofDecimal? (Text.trimBlanks s).toList).isSome || (Decimal.read? (Text.trimBlanks s)).isSome

/-! ## Well-formed tokens -/

mutual

/-- An operand that has a value: its texts of numbers are numeric, and the rows that have to be there are, and are well
formed. -/
inductive Token.WellFormed : Token → Prop
  | number (h : n.isNumeric = true) : Token.WellFormed (.number n)
  | string (s : String) : Token.WellFormed (.string s)
  | bool (b : Bool) : Token.WellFormed (.bool b)
  | none : Token.WellFormed .none
  | name (s : String) : Token.WellFormed (.name s)
  | call (name : String) {args : List Argument} (hargs : ∀ a ∈ args, a.WellFormed) : Token.WellFormed (.call name args)
  | callMember (member : String) {args : List Argument} (hobject : object.WellFormed)
      (hargs : ∀ a ∈ args, a.WellFormed) : Token.WellFormed (.callMember object member args)
  | member (member : String) (hobject : object.WellFormed) : Token.WellFormed (.member object member)
  /-- Elements may be left empty. -/
  | list (hrows : ∀ row ∈ rows, row ≠ [] → RowWellFormed row) : Token.WellFormed (.list rows)
  | tuple (hrows : ∀ row ∈ rows, row ≠ [] → RowWellFormed row) : Token.WellFormed (.tuple rows)
  | set (hrows : ∀ row ∈ rows, row ≠ [] → RowWellFormed row) : Token.WellFormed (.set rows)
  | dict (hentries : ∀ e ∈ entries, e.WellFormed) : Token.WellFormed (.dict entries)
  | subscript (htarget : target.WellFormed) (hkey : RowWellFormed key) : Token.WellFormed (.subscript target key)
  /-- A bound may be left open. -/
  | slice (htarget : target.WellFormed)
      (hstart : start ≠ [] → RowWellFormed start) (hstop : stop ≠ [] → RowWellFormed stop) :
      Token.WellFormed (.slice target start stop)
  | bracket {inner : List Token} (hinner : RowWellFormed inner) : Token.WellFormed (.bracket inner)

/-- An argument that has a value, or a positional one that is left empty. -/
inductive Argument.WellFormed : Argument → Prop
  | positional (h : value ≠ [] → RowWellFormed value) : Argument.WellFormed (.positional value)
  | keyword (name : String) {value : List Token} (h : RowWellFormed value) : Argument.WellFormed (.keyword name value)

inductive Entry.WellFormed : Entry → Prop
  | pair (hkey : RowWellFormed key) (hvalue : RowWellFormed value) : Entry.WellFormed (.pair key value)

/-- A row that starts where an operand should: prefix operators, an operand, and what is well formed after it. -/
inductive RowWellFormed : List Token → Prop
  | marked (hsymbol : UnaryOp.ofSymbol? symbol = some op)
      (hrest : RowWellFormed rest) : RowWellFormed (.operator symbol :: rest)
  | operand (htoken : token.WellFormed) (hrest : RestWellFormed rest) : RowWellFormed (token :: rest)

/-- What is left of a row after an operand: nothing, or a binary operator and a row again. -/
inductive RestWellFormed : List Token → Prop
  | done : RestWellFormed []
  | joined (hsymbol : Operator.ofSymbol? symbol = some op)
      (hrest : RowWellFormed rest) : RestWellFormed (.operator symbol :: rest)

end

variable {t : Token} {ts : List Token}

theorem RowWellFormed.ne_nil (h : RowWellFormed ts) : ts ≠ [] := by
  cases h <;> exact cons_ne_nil _ _

namespace Resolve

theorem isOperand_of_wellFormed (h : t.WellFormed) : isOperand t = true := by
  cases h <;> rfl

theorem numberConstant_isOk (n : Number) : (∃ c, numberConstant n = .ok c) ↔ n.isNumeric = true := by
  cases n with
  | int | float => exact ⟨fun _ => rfl, fun _ => ⟨_, rfl⟩⟩
  | text s =>
    simp only [numberConstant, Number.isNumeric]
    cases Word.ofDecimal? (Text.trimBlanks s).toList with
    | some i => exact ⟨fun _ => rfl, fun _ => ⟨_, rfl⟩⟩
    | none =>
      cases Decimal.read? (Text.trimBlanks s) with
      | some x => exact ⟨fun _ => rfl, fun _ => ⟨_, rfl⟩⟩
      | none => exact ⟨by rintro ⟨_, ⟨⟩⟩, by rintro ⟨⟩⟩

/-! ## Outcomes -/

/-- It gives something with a property, or there are too many levels. -/
def Settles {α : Type} (x : Except CompileError α) (p : α → Prop) : Prop :=
  match x with
  | .ok a => p a
  | .error e => e = tooDeep

namespace Settles

variable {α β : Type} {q : β → Prop}

theorem ok (h : p a) : Settles (.ok a) p :=
  h

theorem deep : Settles (.error tooDeep : Except CompileError α) p :=
  rfl

theorem bind (hx : Settles x p) (hf : ∀ a, p a → Settles (f a) q) : Settles (x >>= f) q := by
  cases x with
  | ok a => exact hf a hx
  | error e => exact hx

theorem mono (hx : Settles x p) (h : ∀ a, p a → p' a) : Settles x p' := by
  cases x with
  | ok a => exact h a hx
  | error e => exact hx

theorem mapM {as : List α} (h : ∀ a ∈ as, Settles (f a) q) : Settles (as.mapM f) fun _ => True := by
  induction as with
  | nil =>
    exact ok trivial
  | cons a as ih =>
    rw [mapM_cons]
    obtain ⟨ha, has⟩ := forall_mem_cons.1 h
    exact ha.bind fun b _ => (ih has).bind fun _ _ => ok trivial

end Settles

/-! ## Resolving what is well formed -/

/-- What resolves the parts takes in rows that are well formed. A leaf leaves less than it found, and climbing from
precedence 0 leaves nothing. -/
structure Below.Resolves (b : Below) : Prop where
  leaf {ts : List Token} : RowWellFormed ts → Settles (b.leaf ts) fun r => RestWellFormed r.2 ∧ r.2.length < ts.length
  climb (least : Nat) (lhs : Expr) {ts : List Token} : RestWellFormed ts →
    Settles (b.climb least lhs ts) fun r =>
      RestWellFormed r.2 ∧ r.2.length ≤ ts.length ∧ (least = 0 → r.2 = [])
  operand {token : Token} : token.WellFormed → Settles (b.operand token) fun _ => True
  whole {ts : List Token} : RowWellFormed ts → Settles (b.whole ts) (·.isSome = true)
  nothing : b.whole [] = .ok none

theorem peek_of_wellFormed (h : RestWellFormed ts) : ts = [] ∧ peek ts = .ok none
      ∨ ∃ op r, peek ts = .ok (some (op, r)) ∧ RowWellFormed r ∧ ts.length = r.length + 1 := by
  cases h with
  | done => exact .inl ⟨rfl, rfl⟩
  | @joined s op r hs hr =>
    exact .inr ⟨op, r, by rw [Resolve.peek, hs], hr, rfl⟩

theorem required_settles (tag set : String) (h : e.isSome = true) : Settles (required tag set e) fun _ => True := by
  obtain ⟨e, rfl⟩ := Option.isSome_iff_exists.1 h
  exact .ok trivial

section

variable {b : Below} (hb : b.Resolves)

include hb

theorem optional_settles (hr : row ≠ [] → RowWellFormed row) : Settles (b.whole row) fun _ => True := by
  cases row with
  | nil =>
    rw [hb.nothing]
    exact .ok trivial
  | cons t r => exact (hb.whole (hr (cons_ne_nil t r))).mono fun _ _ => trivial

theorem elements_settles {rows : List (List Token)} (hr : ∀ row ∈ rows, row ≠ [] → RowWellFormed row) :
    Settles (elements b.whole rows) fun _ => True :=
  (Settles.mapM fun row hro => optional_settles hb (hr row hro)).bind fun _ _ => .ok trivial

theorem entries_settles {rows : List Entry} (hr : ∀ e ∈ rows, e.WellFormed) :
    Settles (entries b.whole rows) fun _ => True := by
  refine Settles.mapM (q := fun _ => True) fun row hro => ?_
  cases hr row hro with
  | pair hke hva =>
    refine (hb.whole hke).bind fun k hk => (required_settles _ _ hk).bind fun k _ => ?_
    exact (hb.whole hva).bind fun v hv => (required_settles _ _ hv).bind fun v _ => .ok trivial

theorem arguments_settles (ha : ∀ a ∈ as, a.WellFormed) : Settles (arguments b.whole as) fun _ => True := by
  induction as with
  | nil => exact .ok trivial
  | cons _ _ ih =>
    obtain ⟨har, hr⟩ := forall_mem_cons.1 ha
    cases har with
    | positional hv =>
      exact (optional_settles hb hv).bind fun e _ => (ih hr).bind fun r _ => .ok trivial
    | keyword _ hv =>
      refine (hb.whole hv).bind fun e he => (required_settles _ _ he).bind fun e _ => ?_
      exact (ih hr).bind fun r _ => .ok trivial

end

section

variable {b : Option Below} (hb : ∀ b' ∈ b, b'.Resolves)

include hb

theorem operandWith_settles (hto : t.WellFormed) : Settles (operandWith b t) fun _ => True := by
  cases b with
  | none => exact .deep
  | some b =>
    have hb : b.Resolves := hb b rfl
    cases hto with
    | number hn =>
      obtain ⟨c, hc⟩ := (numberConstant_isOk _).2 hn
      rw [operandWith, hc]
      exact .ok trivial
    | string | bool | none | name => exact .ok trivial
    | call _ ha => exact (arguments_settles hb ha).bind fun r _ => .ok trivial
    | callMember _ ho ha =>
      exact (arguments_settles hb ha).bind fun r _ => (hb.operand ho).bind fun e _ => .ok trivial
    | member _ ho => exact (hb.operand ho).bind fun e _ => .ok trivial
    | list hr | tuple hr | set hr => exact (elements_settles hb hr).bind fun es _ => .ok trivial
    | dict hen => exact (entries_settles hb hen).bind fun es _ => .ok trivial
    | subscript ht hke =>
      refine (hb.operand ht).bind fun e _ => (hb.whole hke).bind fun k hk => ?_
      exact (required_settles _ _ hk).bind fun k _ => .ok trivial
    | slice ht hs hst =>
      refine (hb.operand ht).bind fun e _ => (optional_settles hb hs).bind fun l _ => ?_
      exact (optional_settles hb hst).bind fun u _ => .ok trivial
    | bracket hi => exact (hb.whole hi).bind fun _ => required_settles _ _

theorem leafWith_settles (hto : RowWellFormed ts) :
    Settles (leafWith b ts) fun r => RestWellFormed r.2 ∧ r.2.length < ts.length := by
  cases hto with
  | operand ht hre =>
    rw [leafWith_operand (isOperand_of_wellFormed ht)]
    exact (operandWith_settles hb ht).bind fun e _ => .ok ⟨hre, Nat.lt_succ_self _⟩
  | marked hs hre =>
    rw [leafWith, prefixOp, hs]
    cases b with
    | none => exact .deep
    | some b =>
      have hb : b.Resolves := hb b rfl
      refine (hb.leaf hre).bind fun r hr => (hb.climb _ r.1 hr.1).bind fun _ hr' => .ok ⟨hr'.1, ?_⟩
      simp only [length_cons]
      omega

theorem extend_settles (op : Operator) (n : Nat) (rhs : Expr) (ht : RestWellFormed ts) :
    Settles (extend b op n rhs ts) fun r => RestWellFormed r.2 ∧ r.2.length ≤ ts.length := by
  induction n generalizing rhs ts with
  | zero => exact .ok ⟨ht, Nat.le_refl _⟩
  | succ n ih =>
    rw [extend]
    obtain ⟨rfl, hp⟩ | ⟨next, _, hp, -, -⟩ := peek_of_wellFormed ht
    · exact .ok ⟨.done, Nat.le_refl _⟩
    · rw [hp]
      change Settles (if bindsTighter next op = true then _ else _) _
      split
      · cases b with
        | none => exact .deep
        | some b =>
          refine ((hb b rfl).climb next.precedence rhs ht).bind fun r hr => ?_
          refine (ih r.1 hr.1).mono fun _ hr' => ⟨hr'.1, ?_⟩
          exact Nat.le_trans hr'.2 hr.2.1
      · exact .ok ⟨ht, Nat.le_refl _⟩

/-- Every round of climbing takes in a marker and an operand, so there are rounds enough for the whole row. -/
theorem climbLoop_settles (least n : Nat) (chainable : Bool) (lhs : Expr) (ht : RestWellFormed ts)
    (hf : ts.length ≤ n) : Settles (climbLoop b least n chainable lhs ts) fun r =>
      RestWellFormed r.2 ∧ r.2.length ≤ ts.length ∧ (least = 0 → r.2 = []) := by
  induction n generalizing chainable lhs ts with
  | zero => exact .ok ⟨ht, Nat.le_refl _, fun _ => length_eq_zero_iff.1 (Nat.le_zero.1 hf)⟩
  | succ n ih =>
    rw [climbLoop]
    obtain ⟨rfl, hp⟩ | ⟨op, _, hp, hre, _⟩ := peek_of_wellFormed ht
    · exact .ok ⟨.done, Nat.le_refl _, fun _ => rfl⟩
    · rw [hp]
      change Settles (if op.precedence < least then _ else _) _
      split
      · rename_i hla
        exact .ok ⟨ht, Nat.le_refl _, fun _ => by omega⟩
      · refine (leafWith_settles hb hre).bind fun r hr => ?_
        refine (extend_settles hb op r.2.length r.1 hr.1).bind fun _ hr' => ?_
        refine (ih _ _ hr'.1 (by omega)).mono fun _ hl => ⟨hl.1, ?_, hl.2.2⟩
        omega

theorem wholeWith_settles (ht : RowWellFormed ts) : Settles (wholeWith b ts) (·.isSome = true) := by
  unfold wholeWith
  rw [if_neg (by rw [List.isEmpty_iff]; exact ht.ne_nil)]
  cases b with
  | none => exact .deep
  | some b =>
    have hb : b.Resolves := hb b rfl
    refine (hb.leaf ht).bind fun r hr => (hb.climb 0 r.1 hr.1).bind fun r' hr' => ?_
    obtain ⟨e, rs⟩ := r'
    obtain rfl : rs = [] := hr'.2.2 rfl
    exact .ok rfl

end

/-- **A row that is well formed is taken in as a whole**, at every level, unless there are no levels left. -/
theorem below_resolves (k : Nat) : ∀ b ∈ below k, b.Resolves := by
  induction k with
  | zero => exact nofun
  | succ k ih =>
    rintro _ ⟨⟩
    exact
      { leaf := leafWith_settles ih
        climb := fun least lhs _ ht => climbLoop_settles ih least _ false lhs ht (Nat.le_refl _)
        operand := operandWith_settles ih
        whole := wholeWith_settles ih
        nothing := rfl }

end Resolve

end Playback
