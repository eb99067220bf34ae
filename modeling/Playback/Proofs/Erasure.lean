import Playback.Proofs.Serials

/-!
# Erasing the trace

Traced code does what plain code does and reports it. What reports stands around the rest: instructions of its own, and
wrappings of expressions. `eraseBlock` takes it away, and what is left of the traced code of any plan is its plain code
(`erase_emitAll`). So the traced body of a function, erased, is its plain body, and lowering a body with a trace and
without comes to the same end (`Lower.function_erases`).
-/

namespace Playback

open Lower (Plan Links Place Counter emitAll iterationBody)

/-! ## Code -/

/-- The expression that an instruction evaluates, without the report around it. -/
def Expr.erase : Expr → Expr
  | .log _ e => e
  | .logStart _ _ e => e
  | .logEnd _ _ e => e
  | .each _ _ e => e
  | e => e

mutual

/-- What an action does besides reporting, if it does anything. A function stays as it is: it has both bodies. -/
def Action.erase : Action → Option Action
  | .eval e => some (.eval e.erase)
  | .assign target e => some (.assign target e.erase)
  | .branch c body orelse => some (.branch c.erase (eraseBlock body) (eraseBlock orelse))
  | .loop c body => some (.loop c.erase (eraseBlock body))
  | .iterate target e body => some (.iterate target e.erase (eraseBlock body))
  | .return_ e => some (.return_ e.erase)
  | .startFrame _ _ | .childSet _ | .endFrame | .endLoop => none
  | action => some action

/-- What is left of code when what reports is taken away. -/
def eraseBlock : List Instr → List Instr
  | [] => []
  | .at line action :: rest => (action.erase.map (Instr.at line)).toList ++ eraseBlock rest

end

theorem eraseBlock_append (xs ys : List Instr) : eraseBlock (xs ++ ys) = eraseBlock xs ++ eraseBlock ys := by
  induction xs with
  | nil => rfl
  | cons i r ih =>
    obtain ⟨l, _⟩ := i
    rw [List.cons_append, eraseBlock, eraseBlock, ih, List.append_assoc]

attribute [local simp] Plan.emit Links.emit Links.isDone iterationBody eraseBlock eraseBlock_append Action.erase
  Expr.erase

mutual

theorem erase_emit (p : Plan) : eraseBlock (p.emit true) = p.emit false := by
  match p with
  | .skip | .eval _ _ | .assign _ _ _ | .define _ _ | .return_ _ _ | .break_ _ | .continue_ _ | .import_ _ _
  | .fromImport _ _ _ => rfl
  | .conditional l c b ls =>
    have hb := erase_emitAll b
    have hl := erase_links ls
    cases ls <;> simp_all
  | .whileLoop _ _ b | .forLoop _ _ _ b => simp [erase_emitAll b]

/-- **The traced code of plans, erased, is their plain code.** -/
theorem erase_emitAll (ps : List Plan) : eraseBlock (emitAll true ps) = emitAll false ps := by
  match ps with
  | [] => rfl
  | p :: r => rw [emitAll, emitAll, eraseBlock_append, erase_emit p, erase_emitAll r]

theorem erase_links (ls : Links) : eraseBlock (ls.emit true) = ls.emit false := by
  match ls with
  | .done => rfl
  | .elif l c b r => simp [erase_emitAll b, erase_links r]
  | .else_ l b => simp [erase_emitAll b]

end

namespace Lower

/-! ## Bodies of functions -/

/-- **A body is lowered with a trace as it is without**, to the same code but for the trace, or to the same error. -/
theorem suite_inStep (p : Place) (b : List Statement) (n n' : Nat) :
    InStep (suite p true b) (suite p false b) n n' fun is js _ => SameCode (eraseBlock is) js := by
  rw [suite_eq, suite_eq]
  refine (planBlock_inStep p b n n').suite.bind fun _ _ _ _ h => .pure ?_
  rw [erase_emitAll, SameCode, bare_emitAll, bare_emitAll, h.1]

theorem Twofold.erases (h : Twofold c) : SameCode (eraseBlock c.traced) c.plain := by
  obtain ⟨_, _, hb, ht, hp⟩ := h
  have hc : eraseBlock [.at 1 .endFrame] = [] := rfl
  rw [ht, hp, eraseBlock_append, hc, List.append_nil, erase_emitAll, SameCode, bare_emitAll, bare_emitAll, hb]

theorem plan_function (q : Place) (x : String) (id : Option String) (ps : List String) (b : List Statement) (c : Counter) :
    From c (plan q (.function x id ps b)) fun p _ => ∃ l d, p = .define l d :=
  (Yields.any _).bind fun _ _ => (Yields.any _).bind fun _ _ => .ok ⟨_, _, rfl⟩

/-- **Erasing the trace from the traced body of a function gives its plain body.** Whatever function declaration is
lowered, wherever it stands, the code it defines has a traced body that, without what reports to the trace, is the plain
one, each instruction on its line; the functions inside have the same code in both, and only their numbers differ. And
from the same line a body is lowered with a trace exactly where it is lowered without, and otherwise refused with the
same error. -/
theorem function_erases (place : Place) (traced : Bool) (name : String) (id : Option String) (params : List String)
    (body : List Statement) (counter : Counter) :
    (∀ is counter', statement place traced (.function name id params body) counter = .ok (is, counter') →
      ∃ line code, is = [.at line (.define code)] ∧ SameCode (eraseBlock code.traced) code.plain)
    ∧ ∀ place n n', InStep (suite place true body) (suite place false body) n n' fun is js _ =>
      SameCode (eraseBlock is) js := by
  refine ⟨fun is counter' h => ?_, fun place => suite_inStep place body⟩
  obtain ⟨p, hplan, rfl⟩ := statement_ok.1 h
  obtain ⟨line, code, rfl⟩ := plan_function place name id params body counter _ hplan
  have hstep := plan_inStep place (.function name id params body) counter.serial counter.serial counter.line
  rw [hplan] at hstep
  cases hstep with
  | ok halike _ =>
    refine ⟨line, code, rfl, (halike.2.bodies code ?_).erases⟩
    rw [Plan.codes, List.flatMap_singleton, code.functions_eq]
    exact List.mem_cons_self

/-- The body of a function with a loop, a branch and a function inside. -/
def picker : List Statement :=
  [.forLoop [.name "x"] [.name "xs"]
    [.conditional [.name "x"] [.function "get" none [] [.return_ [.name "x"]], .return_ [.name "get"]]
      [.else_ [.continue_]]]]

theorem function_erases_picker : ∃ line code counter,
    statement .file true (.function "pick" none ["xs"] picker) { line := 1, serial := 0 }
      = .ok ([.at line (.define code)], counter) ∧ SameCode (eraseBlock code.traced) code.plain := by
  have hok : (statement .file true (.function "pick" none ["xs"] picker) { line := 1, serial := 0 }).isOk = true := by
    decide +kernel
  cases h : statement .file true (.function "pick" none ["xs"] picker) { line := 1, serial := 0 } with
  | error e =>
    rw [h] at hok
    cases hok
  | ok r =>
    obtain ⟨line, code, his, hsame⟩ := (function_erases .file true "pick" none ["xs"] picker _).1 r.1 r.2 h
    exact ⟨line, code, r.2, by rw [← his], hsame⟩

end Lower

end Playback
