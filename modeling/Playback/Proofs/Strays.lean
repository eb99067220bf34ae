import Playback.Proofs.Plan
import Playback.Proofs.RoundTrip
import Playback.Proofs.WellFormed

/-!
# Why a text that is read does not compile

Reading and compiling meet in the shapes that reading gives (`Fits`): every marker is an operator, every target can be
assigned to, every `else` is the last link. So a row that fits resolves or runs out of levels (`RowFits.wellFormed`),
and what is left to refuse is a statement that strays: a `return` outside every function, a `break` or `continue`
without a loop around it (`planBlock_placed`).
-/

namespace Playback

open List

/-! ## Resolving what fits -/

theorem operator_of_infix : ∀ s ∈ infixSymbols, ∃ op, Operator.ofSymbol? s = some op := by
  have ha : ∀ s ∈ infixSymbols, (Operator.ofSymbol? s).isSome = true := by decide
  exact fun s h => Option.isSome_iff_exists.1 (ha s h)

theorem unaryOp_of_prefix : ∀ s ∈ prefixSymbols, ∃ op, UnaryOp.ofSymbol? s = some op := by
  have ha : ∀ s ∈ prefixSymbols, (UnaryOp.ofSymbol? s).isSome = true := by decide
  exact fun s h => Option.isSome_iff_exists.1 (ha s h)

section

mutual

/-- **What a source text holds is well formed.** -/
theorem Token.Fits.wellFormed {t : Token} (h : t.Fits al) : t.WellFormed := by
  match h with
  | .int _ | .float _ => exact .number rfl
  | .string s => exact .string s
  | .bool b => exact .bool b
  | .none => exact .none
  | .name _ => exact .name _
  | .call _ har _ => exact .call _ fun a ha => (har a ha).wellFormed
  | .callMember ho _ _ har _ =>
    exact .callMember _ ho.wellFormed fun a ha => (har a ha).wellFormed
  | .member ho _ _ => exact .member _ ho.wellFormed
  | .list hr | .tuple hr | .set hr _ =>
    constructor
    exact fun row hro _ => (hr row hro).wellFormed
  | .dict hen => exact .dict fun e he => (hen e he).wellFormed
  | .subscript ht hk => exact .subscript ht.wellFormed hk.wellFormed
  | .slice ht hst hso =>
    exact .slice ht.wellFormed (fun hs => (hst hs).wellFormed) fun hs => (hso hs).wellFormed
  | .bracket hi => exact .bracket hi.wellFormed

theorem RowFits.wellFormed (h : RowFits al afterIs ts) : RowWellFormed ts := by
  match h with
  | .marked hs _ hr =>
    obtain ⟨op, hop⟩ := unaryOp_of_prefix _ hs
    exact .marked hop hr.wellFormed
  | .last ht => exact .operand ht.wellFormed .done
  | .joined ht hs hr =>
    obtain ⟨op, hop⟩ := operator_of_infix _ hs
    exact .operand ht.wellFormed (.joined hop hr.wellFormed)

theorem Argument.Fits.wellFormed {arg : Argument} (h : arg.Fits al) : arg.WellFormed := by
  match h with
  | .positional hv => exact .positional fun _ => hv.wellFormed
  | .keyword _ hv => exact .keyword _ hv.wellFormed

theorem Entry.Fits.wellFormed {e : Entry} (h : e.Fits al) : e.WellFormed := by
  match h with
  | .pair hk hv => exact .pair hk.wellFormed hv.wellFormed

end

end

namespace Resolve

theorem expression_settles {e : Expression} (he : e ≠ [] → RowFits al false e) :
    Settles (expression e) fun _ => True := by
  cases e with
  | nil => exact .ok trivial
  | cons t r =>
    have hw := wholeWith_settles (below_resolves maxDepth) (he (cons_ne_nil t r)).wellFormed
    exact hw.mono fun _ _ => trivial

theorem value_settles (tag set : String) {e : Expression} (he : RowFits al false e) :
    Settles (value tag set e) fun _ => True :=
  (wholeWith_settles (below_resolves maxDepth) he.wellFormed).bind fun _ => required_settles tag set

theorem operand_settles (ht : t.Fits al) : Settles (operand t) fun _ => True :=
  operandWith_settles (below_resolves maxDepth) ht.wellFormed

end Resolve

/-! ## Statements that stray -/

open Lower (Place)

mutual

/-- Whether a statement at a place holds a `return` outside every function, or a `break` or `continue` that has no loop
around it in its own function. -/
def Statement.strays (place : Place) : Statement → Bool
  | .return_ _ => !place.inFunction
  | .break_ | .continue_ => !place.inLoop
  | .conditional _ body links => statementsStray place body || linksStray place links
  | .whileLoop _ body | .forLoop _ _ body => statementsStray { place with inLoop := true } body
  | .function _ _ _ body => statementsStray { inLoop := false, inFunction := true } body
  | .blank | .comment _ | .expression _ | .assignment _ _ | .import_ _ | .fromImport _ _ => false

def statementsStray (place : Place) : List Statement → Bool
  | [] => false
  | s :: rest => s.strays place || statementsStray place rest

def linksStray (place : Place) : List Link → Bool
  | [] => false
  | .elif _ body :: rest => statementsStray place body || linksStray place rest
  | .else_ body :: rest => statementsStray place body || linksStray place rest

end

def Script.strays (script : Script) : Bool :=
  statementsStray { inLoop := false, inFunction := false } script

namespace Lower

/-- Planning gives something where nothing strays. It fails where there are too many levels, and otherwise only where
something strays, with an error that says so. -/
def Placed {α : Type} (stray : Bool) (x : M α) : Prop :=
  ∀ c, match x c with
    | .ok _ => stray = false
    | .error e => e = Resolve.tooDeep ∨ stray = true ∧ ∃ message, e = .misplaced message

namespace Placed

variable {α β : Type}

theorem pure (a : α) : Placed false (Pure.pure a : M α) :=
  fun _ => rfl

theorem throw (msg : String) (f : α → M β) : Placed true (MonadExcept.throw (.misplaced msg) >>= f) :=
  fun _ => .inr ⟨rfl, msg, rfl⟩

theorem bind (hx : Placed stray x) (hf : ∀ a, Placed stray' (f a)) : Placed (stray || stray') (x >>= f) := by
  intro c
  have hxc := hx c
  change match x c >>= fun r => f r.1 r.2 with
    | .ok _ => _
    | .error e => _
  cases hr : x c with
  | error e =>
    rw [hr] at hxc
    exact hxc.imp_right fun h => ⟨by rw [h.1, Bool.true_or], h.2⟩
  | ok r =>
    rw [hr] at hxc
    obtain rfl : stray = _ := hxc
    exact hf r.1 r.2

theorem after (hx : Placed false x) (hf : ∀ a, Placed stray (f a)) : Placed stray (x >>= f) :=
  hx.bind hf

theorem before (hx : Placed stray x) (hf : ∀ a, Placed false (f a)) : Placed stray (x >>= f) := by
  have hb := hx.bind hf
  rwa [Bool.or_false] at hb

theorem map (hx : Placed stray x) (f : α → β) : Placed stray (x >>= fun a => Pure.pure (f a)) :=
  hx.before fun a => .pure (f a)

theorem takeLine : Placed false takeLine :=
  fun _ => rfl

theorem lift (h : Resolve.Settles e p) : Placed false (liftM e : M α) := by
  intro c
  cases e with
  | ok a => exact rfl
  | error e => exact .inl h

end Placed

theorem target_settles (hto : t.Fits al) (ht : t.isTarget = true) : Resolve.Settles (target t) fun _ => True := by
  cases hto with
  | name _ => exact .ok trivial
  | subscript hc hk =>
    refine (Resolve.operand_settles hc).bind fun c _ => ?_
    exact (Resolve.value_settles _ _ hk).bind fun k _ => .ok trivial
  | _ => cases ht

theorem targets_settles (hto : TargetsFit al us) : Resolve.Settles (targets us) fun _ => True := by
  obtain ⟨hs, hto⟩ := hto
  have hta (t : Token) (ht : t ∈ us) := target_settles (hto t ht).1 (hto t ht).2
  match us with
  | [] => exact absurd rfl hs
  | [t] => exact hta t (mem_singleton_self t)
  | t :: t' :: r => exact (Resolve.Settles.mapM hta).bind fun _ _ => .ok trivial

theorem Placed.suite (h : Placed (statementsStray p ss) (planBlock p ss)) :
    Placed (statementsStray p ss) (planSuite p ss) := by
  cases ss with
  | nil =>
    exact Placed.takeLine.map _
  | cons s r =>
    exact h

mutual

theorem plan_placed (p : Place) (s : Statement) (hs : s.Fits al) : Placed (s.strays p) (plan p s) := by
  match s with
  | .blank => cases hs
  | .comment _ | .import_ _ | .fromImport _ _ =>
    exact Placed.takeLine.map _
  | .expression v =>
    cases hs with
    | expression hv =>
      refine Placed.takeLine.after fun l => ?_
      refine (Placed.lift (Resolve.expression_settles fun _ => hv)).after fun e => ?_
      cases e with
      | none | some => exact .pure _
  | .assignment ts v =>
    cases hs with
    | assignment ht hv =>
      refine Placed.takeLine.after fun l => (Placed.lift (targets_settles ht)).after fun t => ?_
      exact (Placed.lift (Resolve.value_settles _ _ hv)).map _
  | .conditional cond b ls =>
    cases hs with
    | conditional hc hb hl he =>
      refine Placed.takeLine.after fun l => (Placed.lift (Resolve.value_settles _ _ hc)).after fun c => ?_
      refine (planBlock_placed p b hb).suite.bind fun _ => ?_
      exact (planLinks_placed p ls hl he).map _
  | .whileLoop cond b =>
    cases hs with
    | whileLoop hc hb =>
      refine Placed.takeLine.after fun l => (Placed.lift (Resolve.value_settles _ _ hc)).after fun c => ?_
      exact (planBlock_placed _ b hb).suite.map _
  | .forLoop ts _ b =>
    cases hs with
    | forLoop ht hi hb =>
      refine Placed.takeLine.after fun l => (Placed.lift (targets_settles ht)).after fun t => ?_
      refine (Placed.lift (Resolve.value_settles _ _ hi)).after fun e => ?_
      exact (planBlock_placed _ b hb).suite.map _
  | .function x _ params b =>
    cases hs with
    | function _ _ _ hb =>
      -- the body is planned twice, traced and plain, at the same place
      have hsu := (planBlock_placed .function b hb).suite
      have htw : Placed (statementsStray .function b || statementsStray .function b)
          (plan p (.function x (some x) params b)) := by
        refine Placed.takeLine.after fun l => .after (fun _ => rfl) fun _ => .after (fun _ => rfl) fun _ => ?_
        refine .after (fun _ => rfl) fun _ => hsu.bind fun _ => .after (fun _ => rfl) fun _ => ?_
        exact .after (fun _ => rfl) fun _ => hsu.before fun _ => .after (fun _ => rfl) fun _ => .pure _
      rwa [Bool.or_self] at htw
  | .return_ v =>
    cases hs with
    | return_ hv =>
      refine Placed.takeLine.after fun l => ?_
      rw [Statement.strays]
      cases p.inFunction with
      | false => exact .throw _ _
      | true => exact (Placed.lift (Resolve.expression_settles hv)).map _
  | .break_ | .continue_ =>
    refine Placed.takeLine.after fun l => ?_
    rw [Statement.strays]
    cases p.inLoop with
    | false => exact .throw _ _
    | true => exact .pure _

theorem planBlock_placed (q : Place) (ss : List Statement) (hss : ∀ s ∈ ss, s.Fits al) :
    Placed (statementsStray q ss) (planBlock q ss) := by
  match ss with
  | [] =>
    exact .pure _
  | s :: r =>
    obtain ⟨hs, hr⟩ := forall_mem_cons.1 hss
    exact (plan_placed q s hs).bind fun p => (planBlock_placed q r hr).map _

theorem planLinks_placed (p : Place) (ls : List Link) (hli : ∀ k ∈ ls, k.Fits al)
    (he : ls.Pairwise fun k _ => k.isElse = false) : Placed (linksStray p ls) (planLinks p ls) := by
  match ls with
  | [] =>
    exact .pure _
  | .elif e b :: r =>
    obtain ⟨hl, hr⟩ := forall_mem_cons.1 hli
    obtain ⟨-, he⟩ := pairwise_cons.1 he
    cases hl with
    | elif hc hb =>
      refine Placed.takeLine.after fun l => (Placed.lift (Resolve.value_settles _ _ hc)).after fun c => ?_
      exact (planBlock_placed p b hb).suite.bind fun _ => (planLinks_placed p r hr he).map _
  | .else_ b :: r =>
    obtain ⟨hl, -⟩ := forall_mem_cons.1 hli
    obtain ⟨hla, -⟩ := pairwise_cons.1 he
    cases hl with
    | else_ hb =>
      cases r with
      -- an `else` before another link does not fit
      | cons k r => cases hla k mem_cons_self
      | nil =>
        rw [linksStray, linksStray, Bool.or_false]
        exact Placed.takeLine.after fun l => (planBlock_placed p b hb).suite.map _

end

end Lower

/-! ## Texts -/

/-- **A text that is read compiles, or has expressions with too many levels, or a statement strays.** With levels enough
it fails to compile exactly if a statement strays: a `return` outside every function, or a `break` or `continue` without
a loop around it in its own function. -/
theorem Script.compile_of_text {text : String} {script : Script} (hread : Script.ofSource text = .ok script) :
    ((∃ program, script.compile = .ok program) ∨ script.compile = .error Resolve.tooDeep
      ∨ ∃ message, script.compile = .error (.misplaced message)) ∧ (script.compile ≠ .error Resolve.tooDeep →
      ((∃ e, script.compile = .error e) ↔ script.strays = true)) := by
  have hplaced := Lower.planBlock_placed .file script (fits_of_ofSource hread) { line := 1, serial := 0 }
  rw [Script.compile_eq]
  cases hplan : Lower.planBlock .file script { line := 1, serial := 0 } with
  | ok r =>
    rw [hplan] at hplaced
    have hplaced : script.strays = false := hplaced
    refine ⟨.inl ⟨_, rfl⟩, fun _ => ⟨nofun, fun hstrays => ?_⟩⟩
    rw [hplaced] at hstrays
    cases hstrays
  | error e =>
    rw [hplan] at hplaced
    rcases hplaced with rfl | ⟨hstrays, message, rfl⟩
    · exact ⟨.inr (.inl rfl), fun hdeep => absurd rfl hdeep⟩
    · exact ⟨.inr (.inr ⟨message, rfl⟩), fun _ => ⟨fun _ => hstrays, fun _ => ⟨_, rfl⟩⟩⟩

/-- A loop that defines a function, with a `break` in the function's own condition and one in its own loop. -/
def brokenText : List Char :=
  "for n in ns:\n    def f(x):\n        while x:\n            break\n        if x:\n            break\n".toList

/-- The `break` outside the function's loop strays, although a loop stands around the function. -/
theorem compile_of_text_broken :
    ∃ script message, Script.ofSource (String.ofList brokenText) = .ok script ∧ script.strays = true
      ∧ script.compile = .error (.misplaced message) := by
  have hcheck : (plainScript? (String.ofList brokenText)).any (fun script =>
      script.strays && !(script.compile matches .error (.tooDeep _ _))) = true := by
    rw [plainScript?, lexemes_ofList]
    decide +kernel
  obtain ⟨_, script, -, -, hread, hboth⟩ := exists_of_plainScript? hcheck
  obtain ⟨hstrays, hlevels⟩ := Bool.and_eq_true_iff.1 hboth
  have hdeep : script.compile ≠ .error Resolve.tooDeep := by
    intro h
    rw [h] at hlevels
    cases hlevels
  obtain ⟨hoptions, hfails⟩ := Script.compile_of_text hread
  obtain ⟨e, herror⟩ := (hfails hdeep).2 hstrays
  rcases hoptions with ⟨_, hok⟩ | h | ⟨message, hmisplaced⟩
  · rw [hok] at herror
    cases herror
  · exact absurd h hdeep
  · exact ⟨script, message, hread, hstrays, hmisplaced⟩

end Playback
