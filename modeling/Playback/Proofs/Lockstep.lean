import Playback.Machine.Exec
import Playback.Proofs.Arena
import Playback.Proofs.Builtins
import Playback.Proofs.Plan

/-!
# Running code with two ways to call functions

Running code leaves the calls of functions to `invoke`. So what is kept by the few operations that running is made of
(`Lockstep`) holds of running any code with two ways to call functions as soon as it holds of their calls. Plain code
reports nothing (`Evaluates`, `Assigns`), and code binds no names but those that stand in it (`LockstepOn`).
-/

namespace Playback

open Eval
open Lower (Plan Links emitAll codesAll iterationBody)
open List (forall_mem_append forall_mem_cons forall_mem_map mem_cons_self)

/-! ## The functions that code defines -/

mutual

def Instr.codes : Instr → List FunctionCode
  | .at _ action => action.codes

def Action.codes : Action → List FunctionCode
  | .branch _ body orelse => blockCodes body ++ blockCodes orelse
  | .loop _ body => blockCodes body
  | .iterate _ _ body => blockCodes body
  | .define code => [code]
  | _ => []

def blockCodes : List Instr → List FunctionCode
  | [] => []
  | i :: rest => i.codes ++ blockCodes rest

end

theorem blockCodes_append (xs ys : List Instr) : blockCodes (xs ++ ys) = blockCodes xs ++ blockCodes ys := by
  induction xs with
  | nil => rfl
  | cons i r ih => rw [List.cons_append, blockCodes, blockCodes, ih, List.append_assoc]

attribute [local simp] Plan.emit Links.emit Links.isDone iterationBody Plan.codes Links.codes blockCodes
  blockCodes_append Instr.codes Action.codes

theorem blockCodes_iterationBody (l : Nat) (b : List Instr) : blockCodes (iterationBody l b) = blockCodes b := by
  simp

mutual

theorem codes_emit (t : Bool) (p : Plan) : blockCodes (p.emit t) = p.codes := by
  match p with
  | .skip | .eval _ _ | .assign _ _ _ | .define _ _ | .return_ _ _ => rfl
  | .conditional l c b ls =>
    have hb := codes_emitAll t b
    have hl := codes_links t ls
    cases ls <;> cases t <;> simp_all
  | .whileLoop _ _ b | .forLoop _ _ _ b =>
    have hb := codes_emitAll t b
    cases t <;> simp [hb]
  | .break_ _ | .continue_ _ | .import_ _ _ | .fromImport _ _ _ => cases t <;> rfl

theorem codes_emitAll (t : Bool) (ps : List Plan) : blockCodes (emitAll t ps) = codesAll ps := by
  match ps with
  | [] => rfl
  | plan :: r =>
    rw [emitAll, codesAll, blockCodes_append, codes_emit t plan, codes_emitAll t r]

theorem codes_links (t : Bool) (ls : Links) : blockCodes (ls.emit t) = ls.codes := by
  match ls with
  | .done => rfl
  | .elif l c b r =>
    have hb := codes_emitAll t b
    have hr := codes_links t r
    cases t <;> simp [hb, hr]
  | .else_ l b =>
    have hb := codes_emitAll t b
    cases t <;> simp [hb]

end

theorem Script.compile_lowered {s : Script} (h : s.compile = .ok p) :
    ∀ code ∈ blockCodes p.body, Lower.Lowered code := by
  obtain ⟨_, hp, hb⟩ := Script.compile_plans h
  rw [hb, codes_emitAll]
  exact hp.codes

/-! ## The names that code binds -/

mutual

def Target.binds : Target → List String
  | .name s => [s]
  | .item _ _ => []
  | .unpack targets => targetsBind targets

def targetsBind : List Target → List String
  | [] => []
  | t :: rest => t.binds ++ targetsBind rest

end

mutual

def Instr.binds : Instr → List String
  | .at _ action => action.binds

/-- The names that an action binds; what a function binds that it defines is no name of its own. -/
def Action.binds : Action → List String
  | .assign t _ => t.binds
  | .branch _ body orelse => blockBinds body ++ blockBinds orelse
  | .loop _ body => blockBinds body
  | .iterate t _ body => t.binds ++ blockBinds body
  | .define code => [code.name]
  | .import_ modules => modules
  | .fromImport _ names => names
  | _ => []

def blockBinds : List Instr → List String
  | [] => []
  | i :: rest => i.binds ++ blockBinds rest

end

/-! ## Rules -/

/-- Whether an operation on a trace is one of those that code makes without opening a frame. -/
def Trace.Step.reports : Trace.Step → Bool
  | .log _ _ _ => true
  | .logAndEnd _ _ _ _ => true
  | .turn _ => true
  | .endFrame => true
  | .endLoop => true
  | _ => false

/-- What holds after a round of a loop: `again` where the loop goes on, else `done` of the way it ends. -/
def Flow.AfterRound (again : Prop) (done : Flow → Prop) : Flow → Prop
  | .break_ => done .normal
  | .return_ v => done (.return_ v)
  | _ => again

theorem Flow.AfterRound.mono {fl : Flow}
    (h : fl.AfterRound again done) (ha : again → again') (hd : ∀ f, done f → done' f) : fl.AfterRound again' done' := by
  cases fl with
  | normal | continue_ => exact ha h
  | break_ | return_ => exact hd _ h

theorem Flow.afterRound_holds {f : Flow} (h : f.result.Holds p) : f.AfterRound True (·.result.Holds p) := by
  cases f with
  | normal | continue_ => trivial
  | break_ => exact nofun
  | return_ v => exact h

theorem unpack_holds (hh : heap.Holds p) (hv : v.Holds p)
    (expected : Nat) : Yields (Eval.unpack heap v expected) (RowHolds p) := by
  have he := hh.elements hv
  unfold Eval.unpack
  split
  · exact .error _
  · rename_i es hes
    dsimp only
    split
    · exact .error _
    split
    · exact .error _
    · exact .ok (he es hes).toList

/-- The heap that a computation finds. -/
def Eval.heap : Eval Heap :=
  return (← get).heap

/-- What is said of two computations and of a property of their value. -/
abbrev Judgement : Type 1 :=
  {α : Type} → Eval α → Eval α → (α → Prop) → Prop

/-- The rules that evaluating plain expressions needs of what is said of two computations: of their values, and of
whatever else they do. -/
structure Evaluates (p : FunctionCode → Prop) (s : Judgement) : Prop where
  pure {α : Type} {a : α} {q : α → Prop} : q a → s (Pure.pure a) (Pure.pure a) q
  bind {α β : Type} {x y : Eval α} {f g : α → Eval β} {q : α → Prop} {r : β → Prop} :
    s x y q → (∀ a, q a → s (f a) (g a) r) → s (x >>= f) (y >>= g) r
  throw {α : Type} {q : α → Prop} (halt : Halt) : s (MonadExcept.throw halt : Eval α) (MonadExcept.throw halt) q
  heap : s Eval.heap Eval.heap (·.Holds p)
  onHeap {α : Type} {x : HeapM α} {q : α → Prop} : Keeps p x q → s (Eval.onHeap x) (Eval.onHeap x) q
  load (name : String) : s (Eval.load name) (Eval.load name) (·.Holds p)
  write (text : String) : s (Eval.write text) (Eval.write text) fun _ => True
  readLine : s Eval.readLine Eval.readLine (·.Holds p)
  publish (v : Option Value) : s (modify fun m : Machine => { m with response := v })
    (modify fun m : Machine => { m with response := v }) fun _ => True

/-- What follows of what has these rules has them if it has those for what goes on. -/
theorem Evaluates.weaken {s s' : Judgement} (h : Evaluates p s)
    (of : ∀ {α : Type} {x : Eval α} {q : α → Prop}, s x x q → s' x x q)
    (bind : ∀ {α β : Type} {x y : Eval α} {f g : α → Eval β} {q : α → Prop} {r : β → Prop},
      s' x y q → (∀ a, q a → s' (f a) (g a) r) → s' (x >>= f) (y >>= g) r) :
    Evaluates p s' where
  pure ha := of (h.pure ha)
  bind := bind
  throw halt := of (h.throw halt)
  heap := of h.heap
  onHeap hx := of (h.onHeap hx)
  load name := of (h.load name)
  write text := of (h.write text)
  readLine := of h.readLine
  publish v := of (h.publish v)

/-- The rules that evaluating any expression needs: one that is not plain also reports to the trace. -/
structure Alongside (p : FunctionCode → Prop) (s : Judgement) : Prop extends Evaluates p s where
  startFrame (kind : Trace.Kind) (set : String) : s (Eval.startFrame kind set) (Eval.startFrame kind set) fun _ => True
  report (step : Trace.Step) : step.reports = true →
    s (Eval.onTrace (·.apply step)) (Eval.onTrace (·.apply step)) fun _ => True

/-- The rules that assignment needs that binds no names but certain ones. -/
structure AssignsOn (n : String → Prop) (p : FunctionCode → Prop) (s : Judgement) : Prop extends Evaluates p s where
  store (name : String) {v : Value} : n name → v.Holds p → s (Eval.store name v) (Eval.store name v) fun _ => True

/-- The rules that running plain code needs that binds no names but certain ones. -/
structure RunsOn (n : String → Prop) (p : FunctionCode → Prop) (s : Judgement) : Prop extends AssignsOn n p s where
  setLine (line : Nat) : s (modify (·.setLine line)) (modify (·.setLine line)) fun _ => True

/-- The rules that running code needs that binds no names but certain ones. -/
structure LockstepOn (n : String → Prop) (p : FunctionCode → Prop) (s : Judgement) : Prop
    extends Alongside p s, RunsOn n p s

/-- The rules that running code needs that may bind any name. -/
abbrev Lockstep (p : FunctionCode → Prop) (s : Judgement) : Prop :=
  LockstepOn (fun _ => True) p s

/-- What is said of every call of a function that has the property. -/
def Lockstep.Calls (p : FunctionCode → Prop) (s : Judgement) (iv iv' : Invoke) : Prop :=
  ∀ code args keywords, p code → RowHolds p args → (∀ k ∈ keywords, k.2.Holds p) →
    s (iv code args keywords) (iv' code args keywords) (·.Holds p)

open Lockstep (Calls)

variable {s : Judgement}

/-- What goes on from the heap that is found. -/
theorem Evaluates.look {β : Type} {r : β → Prop} (h : Evaluates p s) (f g : Heap → Eval β)
    (hf : ∀ heap : Heap, heap.Holds p → s (f heap) (g heap) r) :
    s (get >>= fun m : Machine => f m.heap) (get >>= fun m : Machine => g m.heap) r :=
  (h.bind h.heap hf :)

theorem Evaluates.see {β : Type} {r : β → Prop} (h : Evaluates p s) (f : Heap → Eval β)
    (hf : ∀ heap : Heap, heap.Holds p → s (f heap) (f heap) r) :
    s (get >>= fun m : Machine => f m.heap) (get >>= fun m : Machine => f m.heap) r :=
  h.look f f hf

theorem Alongside.log (h : Alongside p s) (k : Option Trace.Kind) (v : Value) :
    s (log k v) (log k v) fun _ => True := by
  refine h.see (fun heap => onTrace (·.apply (.log k (heap.str v) v.typeName))) fun heap _ => ?_
  exact h.report (.log k (heap.str v) v.typeName) rfl

theorem Alongside.logEnd (h : Alongside p s) (k until_ : Trace.Kind) (v : Value) :
    s (logEnd k until_ v) (logEnd k until_ v) fun _ => True := by
  refine h.see (fun heap => onTrace (·.apply (.logAndEnd k until_ (heap.str v) v.typeName))) fun heap _ => ?_
  exact h.report (.logAndEnd k until_ (heap.str v) v.typeName) rfl

namespace Evaluates

/-! ## Built-in functions -/

variable {α β : Type} (h : Evaluates p s)

include h

theorem lift (hx : Yields x q) : s (Eval.lift x) (Eval.lift x) q := by
  cases x with
  | ok a => exact h.pure (hx a rfl)
  | error e => exact h.throw (.raised e)

/-- What goes on after something whose outcome is checked and then dropped. -/
theorem check {x : Except Fault α} {f g : α → Eval β} (hf : ∀ a, s (f a) (g a) r) :
    s (Eval.lift x >>= f) (Eval.lift x >>= g) r :=
  h.bind (h.lift (Yields.any x)) fun a _ => hf a

theorem truthy (v : Value) : s (Eval.truthy v) (Eval.truthy v) fun _ => True :=
  h.see (fun heap => Pure.pure (heap.truthy v)) fun _ _ => h.pure trivial

theorem writeValue (v : Value) : s (writeValue v) (writeValue v) fun _ => True :=
  h.see (fun heap => Eval.write (heap.str v)) fun _ _ => h.write _

theorem writeAll (separator : String) (first : Bool) (vs : List Value) :
    s (writeAll separator first vs) (writeAll separator first vs) fun _ => True := by
  induction vs generalizing first with
  | nil => exact h.pure trivial
  | cons v r ih =>
    have hr := h.bind (h.writeValue v) fun _ _ => ih false
    cases first with
    | true => exact hr
    | false => exact h.bind (h.write separator) fun _ _ => hr

theorem print (as : List Value) (ks : Keywords) : s (Eval.print as ks) (Eval.print as ks) (·.Holds p) := by
  refine h.check fun separator => h.check fun ending => ?_
  split
  · exact h.throw _
  · refine h.bind (h.writeAll separator true as) fun _ _ => h.bind (h.write ending) fun _ _ => ?_
    exact h.pure Value.holds_none

theorem callBuiltin (b : Builtin) (ha : RowHolds p as) (hk : ∀ k ∈ ks, k.2.Holds p) :
    s (Eval.callBuiltin b as ks) (Eval.callBuiltin b as ks) (·.Holds p) := by
  unfold Eval.callBuiltin
  split
  · exact h.print as ks
  · refine h.check fun _ => h.check fun _ => ?_
    cases as with
    | nil => exact h.readLine
    | cons prompt r => exact h.bind (h.writeValue prompt) fun _ _ => h.readLine
  · exact h.check fun _ => h.check fun _ => h.bind (h.publish _) fun _ _ => h.pure Value.holds_none
  · exact h.onHeap (.callBuiltin b ha hk)

/-! ## Expressions -/

theorem apply (hi : Calls p s iv iv') (hc : callee.Holds p) (ha : RowHolds p as) (hk : ∀ k ∈ ks, k.2.Holds p) :
    s (apply iv callee as ks) (apply iv' callee as ks) (·.Holds p) := by
  cases callee with
  | function c => exact hi _ _ _ hc.code ha hk
  | builtin b => exact h.callBuiltin b ha hk
  | method m => exact h.onHeap (.callMethod m ha ks)
  | _ => exact h.throw _

omit h in
theorem part {e a : Expr} (he : e.Plain ∨ Alongside p s) (hm : a ∈ e.parts) : a.Plain ∨ Alongside p s :=
  he.imp_left (·.parts a hm)

mutual

/-- **What has these rules and holds of calls holds of evaluating an expression.** Only what is plain has no need of
the rules for reports. -/
theorem eval (hin : Calls p s iv iv') (e : Expr) (he : e.Plain ∨ Alongside p s) :
    s (Eval.eval iv e) (Eval.eval iv' e) (·.Holds p) := by
  match e with
  | .const c =>
    exact h.pure (Value.holds_ofConstant c)
  | .name x =>
    exact h.load x
  | .unary op e =>
    refine h.bind (eval hin e (part he (.head _))) fun v _ => ?_
    exact h.see (fun heap => Eval.lift (Arithmetic.unary heap.truthy op v)) fun _ _ =>
      h.lift (Arithmetic.unary_holds _ op v)
  | .binary op l r =>
    refine h.bind (eval hin l (part he (.head _))) fun a ha => ?_
    exact h.bind (eval hin r (part he (.tail _ (.head _)))) fun b hb => h.onHeap (.binary op ha hb)
  | .bool op l r =>
    refine h.bind (eval hin l (part he (.head _))) fun a ha => h.bind (h.truthy a) fun t _ => ?_
    split
    · exact h.pure ha
    · exact eval hin r (part he (.tail _ (.head _)))
  | .compare l rs =>
    refine h.bind (eval hin l (part he (.head _))) fun a _ => ?_
    exact evalChain hin a rs (he.imp_left fun he => forall_mem_map.1 (forall_mem_cons.1 he.parts).2)
  | .call f as kws =>
    refine h.bind (eval hin f (part he (.head _))) fun _ hca => ?_
    have hr := he.imp_left fun he => forall_mem_append.1 (forall_mem_cons.1 he.parts).2
    refine h.bind (evalAll hin as (hr.imp_left (·.1))) fun vs hvs => ?_
    refine h.bind (evalKeywords hin kws (hr.imp_left fun hr => forall_mem_map.1 hr.2)) fun _ hks => ?_
    exact h.apply hin hca hvs hks
  | .attribute e m =>
    refine h.bind (eval hin e (part he (.head _))) fun v _ => ?_
    exact h.lift (v.attribute_holds m)
  | .subscript e i =>
    refine h.bind (eval hin e (part he (.head _))) fun c hc => ?_
    refine h.bind (eval hin i (part he (.tail _ (.head _)))) fun j _ => ?_
    exact h.see (fun heap => Eval.lift (heap.item c j)) fun _ hh => h.lift (hh.item hc j)
  | .slice e lower upper =>
    refine h.bind (eval hin e (part he (.head _))) fun c hc => ?_
    have hr := he.imp_left fun he => forall_mem_append.1 (forall_mem_cons.1 he.parts).2
    refine h.bind (evalBound hin lower (hr.imp_left fun hr e he => hr.1 e (Option.mem_toList.2 he))) fun l _ => ?_
    refine h.bind (evalBound hin upper (hr.imp_left fun hr e he => hr.2 e (Option.mem_toList.2 he))) fun u _ => ?_
    exact h.onHeap (.slice hc l u)
  | .list es =>
    refine h.bind (evalAll hin es (he.imp_left (·.parts))) fun vs hvs => ?_
    exact h.onHeap (.listOf hvs)
  | .tuple es =>
    refine h.bind (evalAll hin es (he.imp_left (·.parts))) fun vs hvs => ?_
    exact h.onHeap (.newTuple hvs)
  | .set es =>
    refine h.bind (evalAll hin es (he.imp_left (·.parts))) fun vs hvs => ?_
    exact h.onHeap (.setOf hvs)
  | .dict es =>
    have hes := he.imp_left fun he e hm =>
      And.imp_right List.forall_mem_singleton.1 (forall_mem_cons.1 (List.forall_mem_flatMap.1 he.parts e hm))
    exact h.bind (evalEntries hin es hes) fun _ hps => h.onHeap (.dictOf hps)
  | .log k e =>
    obtain ⟨⟨⟩, -⟩ | ha := he
    exact h.bind (eval hin e (.inr ha)) fun v hv => h.bind (ha.log k v) fun _ _ => h.pure hv
  | .logStart k set e =>
    obtain ⟨⟨⟩, -⟩ | ha := he
    refine h.bind (eval hin e (.inr ha)) fun v hv => h.bind (ha.startFrame k set) fun _ _ => ?_
    exact h.bind (ha.log none v) fun _ _ => h.pure hv
  | .logEnd k until_ e =>
    obtain ⟨⟨⟩, -⟩ | ha := he
    exact h.bind (eval hin e (.inr ha)) fun v hv => h.bind (ha.logEnd k until_ v) fun _ _ => h.pure hv
  | .each k set e =>
    obtain ⟨⟨⟩, -⟩ | ha := he
    exact eval hin e (.inr ha)

theorem evalAll (hi : Calls p s iv iv') (es : List Expr) (hes : (∀ e ∈ es, e.Plain) ∨ Alongside p s) :
    s (Eval.evalAll iv es) (Eval.evalAll iv' es) (RowHolds p) := by
  match es with
  | [] =>
    exact h.pure .nil
  | e :: r =>
    have hr := hes.imp_left fun hes => (forall_mem_cons.1 hes).2
    refine h.bind (eval hi e (hes.imp_left fun hes => hes e mem_cons_self)) fun v hv => ?_
    exact h.bind (evalAll hi r hr) fun _ hvs => h.pure (.cons hv hvs)

theorem evalKeywords (hi : Calls p s iv iv') (ks : List (String × Expr)) (hks : (∀ k ∈ ks, k.2.Plain) ∨ Alongside p s) :
    s (Eval.evalKeywords iv ks) (Eval.evalKeywords iv' ks) fun vs => ∀ k ∈ vs, k.2.Holds p := by
  match ks with
  | [] =>
    exact h.pure (List.forall_mem_nil _)
  | (x, e) :: r =>
    have hr := hks.imp_left fun hks => (forall_mem_cons.1 hks).2
    refine h.bind (eval hi e (hks.imp_left fun hks => hks (x, e) mem_cons_self)) fun v hv => ?_
    refine h.bind (evalKeywords hi r hr) fun vs hvs => ?_
    exact h.pure (forall_mem_cons.2 ⟨hv, hvs⟩)

theorem evalEntries (hi : Calls p s iv iv') (es : List (Expr × Expr))
    (hes : (∀ e ∈ es, e.1.Plain ∧ e.2.Plain) ∨ Alongside p s) :
    s (Eval.evalEntries iv es) (Eval.evalEntries iv' es) fun vs => ∀ e ∈ vs, PairHolds p e := by
  match es with
  | [] =>
    exact h.pure (List.forall_mem_nil _)
  | (k, e) :: r =>
    have hf := hes.imp_left fun hes => hes (k, e) mem_cons_self
    have hr := hes.imp_left fun hes => (forall_mem_cons.1 hes).2
    refine h.bind (eval hi k (hf.imp_left (·.1))) fun _ hk => ?_
    refine h.bind (eval hi e (hf.imp_left (·.2))) fun v hv => ?_
    refine h.bind (evalEntries hi r hr) fun vs hvs => ?_
    exact h.pure (forall_mem_cons.2 ⟨⟨hk, hv⟩, hvs⟩)

theorem evalBound (hi : Calls p s iv iv') (b : Option Expr) (hb : (∀ e ∈ b, e.Plain) ∨ Alongside p s) :
    s (Eval.evalBound iv b) (Eval.evalBound iv' b) fun _ => True := by
  match b with
  | none =>
    exact h.pure trivial
  | some e =>
    refine h.bind (eval hi e (hb.imp_left fun hb => hb e rfl)) fun v _ => ?_
    exact h.lift (Yields.any _)

theorem evalChain (hi : Calls p s iv iv') (left : Value)
    (r : List (CompareOp × Expr)) (hr : (∀ c ∈ r, c.2.Plain) ∨ Alongside p s) :
    s (Eval.evalChain iv left r) (Eval.evalChain iv' left r) (·.Holds p) := by
  match r with
  | [] =>
    exact h.pure nofun
  | (op, e) :: r =>
    have he := hr.imp_left fun hr => hr (op, e) mem_cons_self
    have hr := hr.imp_left fun hr => (forall_mem_cons.1 hr).2
    refine h.bind (eval hi e he) fun right _ => ?_
    refine h.look
      (fun heap => Eval.lift (heap.compare op left right) >>= fun holds =>
        if holds then Eval.evalChain iv right r else return .bool false)
      (fun heap => Eval.lift (heap.compare op left right) >>= fun holds =>
        if holds then Eval.evalChain iv' right r else return .bool false) fun _ _ => ?_
    refine h.check fun holds => ?_
    split
    · exact evalChain hi right r hr
    · exact h.pure nofun

end

theorem test (hi : Calls p s iv iv') (e : Expr) (he : e.Plain ∨ Alongside p s) :
    s (do Eval.truthy (← Eval.eval iv e)) (do Eval.truthy (← Eval.eval iv' e)) fun _ => True :=
  h.bind (h.eval hi e he) fun v _ => h.truthy v

/-! ## Loops -/

/-- A loop on a condition ends in a way that is as said, if a round does that ends it. -/
theorem whileLoop {q r : Flow → Prop} (hc : s c d fun _ => True) (hb : s x y q) (hr : ∀ f, q f → f.AfterRound True r)
    (hd : r .normal) (n : Nat) : s (whileLoop c x n) (whileLoop d y n) r := by
  induction n with
  | zero => exact h.throw _
  | succ n ih =>
    refine h.bind hc fun b _ => ?_
    split
    · refine h.bind hb fun f hf => ?_
      have hf := hr f hf
      cases f with
      | normal | continue_ => exact ih
      | break_ | return_ => exact h.pure hf
    · exact h.pure hd

theorem forLoop {q r : Flow → Prop} (hb : ∀ v, v.Holds p → s (f v) (g v) fun _ => True) (hbo : s x y q)
    (hr : ∀ fl, q fl → fl.AfterRound True r) (hd : r .normal) (n : Nat)
    (hes : es.Holds p) : s (Eval.forLoop f x n es) (Eval.forLoop g y n es) r := by
  induction n generalizing es with
  | zero => exact h.pure hd
  | succ n ih =>
    cases hn : es.next? with
    | none =>
      simp only [Eval.forLoop, hn]
      exact h.pure hd
    | some next =>
      obtain ⟨v, _⟩ := next
      obtain ⟨hv, hre⟩ := hes.next? hn
      simp only [Eval.forLoop, hn]
      refine h.bind (hb v hv) fun _ _ => h.bind hbo fun fl hf => ?_
      have hf := hr fl hf
      cases fl with
      | normal | continue_ => exact ih hre
      | break_ | return_ => exact h.pure hf

theorem iterate {q r : Flow → Prop} (hb : ∀ v, v.Holds p → s (f v) (g v) fun _ => True) (hbo : s x y q)
    (hr : ∀ fl, q fl → fl.AfterRound True r) (hd : r .normal) (hv : v.Holds p) :
    s (do Eval.lift ((← get).heap.elements v) >>= fun es => Eval.forLoop f x es.count es)
      (do Eval.lift ((← get).heap.elements v) >>= fun es => Eval.forLoop g y es.count es) r := by
  refine h.look (fun heap => Eval.lift (heap.elements v) >>= fun es => Eval.forLoop f x es.count es)
    (fun heap => Eval.lift (heap.elements v) >>= fun es => Eval.forLoop g y es.count es) fun heap hh => ?_
  exact h.bind (h.lift (hh.elements hv)) fun es => h.forLoop hb hbo hr hd es.count

/-! ## Imports -/

theorem loadModule (x : String) : s (Eval.loadModule x) (Eval.loadModule x) fun _ => True := by
  unfold Eval.loadModule
  split
  · exact h.pure trivial
  · exact h.throw _

end Evaluates

namespace AssignsOn

variable (h : AssignsOn n p s)

include h

/-! ## Assignment and imports -/

mutual

theorem assign (hin : Calls p s iv iv') (t : Target)
    (ht : t.Plain ∨ Alongside p s) (hn : ∀ x ∈ t.binds, n x) (hv : v.Holds p) :
    s (Eval.assign iv t v) (Eval.assign iv' t v) fun _ => True := by
  match t with
  | .name x =>
    exact h.store x (hn x mem_cons_self) hv
  | .item c i =>
    refine h.bind (h.eval hin c (ht.imp_left fun (.item hc _) => hc)) fun container _ => ?_
    refine h.bind (h.eval hin i (ht.imp_left fun (.item _ hi) => hi)) fun j hie => ?_
    exact h.onHeap (.setItem container hie hv)
  | .unpack ts =>
    refine h.look (fun heap => Eval.lift (Eval.unpack heap v ts.length) >>= Eval.assignAll iv ts)
      (fun heap => Eval.lift (Eval.unpack heap v ts.length) >>= Eval.assignAll iv' ts) fun heap hh => ?_
    have hts := ht.imp_left fun (.unpack hts) => hts
    exact h.bind (h.lift (unpack_holds hh hv _)) (assignAll hin ts hts hn)

theorem assignAll (hi : Calls p s iv iv') (ts : List Target)
    (hts : (∀ t ∈ ts, t.Plain) ∨ Alongside p s) (hn : ∀ x ∈ targetsBind ts, n x) (vs : List Value)
    (hvs : RowHolds p vs) : s (Eval.assignAll iv ts vs) (Eval.assignAll iv' ts vs) fun _ => True := by
  match ts, vs with
  | [], _ | _ :: _, [] =>
    rw [Eval.assignAll, Eval.assignAll]
    · exact h.pure trivial
    · exact nofun
    · exact nofun
  | t :: ts, v :: vs =>
    have ht := hts.imp_left fun hts => hts t mem_cons_self
    have hts := hts.imp_left fun hts => (forall_mem_cons.1 hts).2
    obtain ⟨hna, hn⟩ := forall_mem_append.1 hn
    obtain ⟨hv, hvs⟩ := forall_mem_cons.1 hvs
    exact h.bind (assign hi t ht hna hv) fun _ _ => assignAll hi ts hts hn vs hvs

end

theorem importAll (ns : List String) (hn : ∀ x ∈ ns, n x) : s (importAll ns) (importAll ns) fun _ => True := by
  induction ns with
  | nil => exact h.pure trivial
  | cons x r ih =>
    obtain ⟨hna, hr⟩ := forall_mem_cons.1 hn
    refine h.bind (h.loadModule x) fun l _ => ?_
    refine h.bind (h.onHeap (.newModule l)) fun v hv => ?_
    exact h.bind (h.store x hna hv) fun _ _ => ih hr

theorem importNames (l : Library) (module : String) (ns : List String) (hn : ∀ x ∈ ns, n x) :
    s (Eval.importNames l module ns) (Eval.importNames l module ns) fun _ => True := by
  induction ns with
  | nil => exact h.pure trivial
  | cons x r ih =>
    obtain ⟨hna, hr⟩ := forall_mem_cons.1 hn
    unfold Eval.importNames
    split
    · exact h.throw _
    · rename_i v hv
      exact h.bind (h.store x hna (l.attribute?_holds x v hv)) fun _ _ => ih hr

/-! ## Instructions -/

theorem beginRound (ha : Alongside p s) (hi : Calls p s iv iv') (f : Option (Trace.Kind × String))
    (t : Target) (hn : ∀ x ∈ t.binds, n x) (hv : v.Holds p) :
    s (beginRound iv f t v) (beginRound iv' f t v) fun _ => True := by
  cases f with
  | none => exact h.assign hi t (.inr ha) hn hv
  | some f =>
    refine h.bind (ha.startFrame f.1 f.2) fun _ _ => h.bind (ha.log none v) fun _ _ => ?_
    exact h.assign hi t (.inr ha) hn hv

/-- An instruction without a block needs no rule for lines. -/
theorem simple (ha : Alongside p s) (hi : Calls p s iv iv') (k : Nat) (hs : action.isSimple = true)
    (hn : ∀ x ∈ action.binds, n x) :
    s (Eval.execAction iv k action) (Eval.execAction iv' k action) (·.result.Holds p) := by
  cases action with
  | eval e =>
    exact h.bind (h.eval hi e (.inr ha)) fun _ _ => h.pure nofun
  | assign t e =>
    refine h.bind (h.eval hi e (.inr ha)) fun v hv => ?_
    exact h.bind (h.assign hi t (.inr ha) hn hv) fun _ _ => h.pure nofun
  | return_ e =>
    exact h.bind (h.eval hi e (.inr ha)) fun _ hv => h.pure hv
  | break_ | continue_ =>
    exact h.pure nofun
  | import_ modules =>
    exact h.bind (h.importAll modules hn) fun _ _ => h.pure nofun
  | fromImport module ns =>
    refine h.bind (h.loadModule module) fun l _ => ?_
    exact h.bind (h.importNames l module ns hn) fun _ _ => h.pure nofun
  | startFrame kd set =>
    exact h.bind (ha.startFrame kd set) fun _ _ => h.pure nofun
  | childSet set =>
    exact h.bind (ha.report (.turn set) rfl) fun _ _ => h.pure nofun
  | endFrame =>
    exact h.bind (ha.report .endFrame rfl) fun _ _ => h.pure nofun
  | endLoop =>
    exact h.bind (ha.report .endLoop rfl) fun _ _ => h.pure nofun
  | branch | loop | iterate | define => cases hs

end AssignsOn

namespace LockstepOn

variable (h : LockstepOn n p s)

include h

theorem beginRound (hi : Calls p s iv iv') (f : Option (Trace.Kind × String)) (t : Target) (hn : ∀ x ∈ t.binds, n x)
    (hv : v.Holds p) : s (beginRound iv f t v) (beginRound iv' f t v) fun _ => True :=
  h.toAssignsOn.beginRound h.toAlongside hi f t hn hv

mutual

/-- **What has these rules and holds of calls holds of running a block**, if the functions that the block defines
have the property and the names that it binds are among the certain ones. -/
theorem execBlock (hin : Calls p s iv iv') (k : Nat) (is : List Instr)
    (hc : ∀ c ∈ blockCodes is, p c) (hn : ∀ x ∈ blockBinds is, n x) :
    s (Eval.execBlock iv k is) (Eval.execBlock iv' k is) (·.result.Holds p) := by
  match is with
  | [] =>
    exact h.pure nofun
  | i :: r =>
    obtain ⟨hi, hr⟩ := forall_mem_append.1 hc
    obtain ⟨hi', hr'⟩ := forall_mem_append.1 hn
    refine h.bind (exec hin k i hi hi') fun f hf => ?_
    cases f with
    | normal => exact execBlock hin k r hr hr'
    | break_ | continue_ | return_ => exact h.pure hf

theorem exec (hi : Calls p s iv iv') (k : Nat) (i : Instr) (hc : ∀ c ∈ i.codes, p c) (hn : ∀ x ∈ i.binds, n x) :
    s (Eval.exec iv k i) (Eval.exec iv' k i) (·.result.Holds p) := by
  match i with
  | .at l action =>
    exact h.bind (h.setLine l) fun _ _ => execAction hi k action hc hn

theorem execAction (hi : Calls p s iv iv') (k : Nat) (action : Action)
    (hc : ∀ d ∈ action.codes, p d) (hn : ∀ x ∈ action.binds, n x) :
    s (Eval.execAction iv k action) (Eval.execAction iv' k action) (·.result.Holds p) := by
  match action with
  | .branch c bd orelse =>
    obtain ⟨hb, ho⟩ := forall_mem_append.1 hc
    obtain ⟨hb', ho'⟩ := forall_mem_append.1 hn
    refine h.bind (h.eval hi c (.inr h.toAlongside)) fun v _ => h.bind (h.truthy v) fun b _ => ?_
    split
    · exact execBlock hi k bd hb hb'
    · exact execBlock hi k orelse ho ho'
  | .loop c bd =>
    exact h.whileLoop (h.test hi c (.inr h.toAlongside)) (execBlock hi k bd hc hn)
      (fun _ => Flow.afterRound_holds) nofun k
  | .iterate t e bd =>
    obtain ⟨ht, hb'⟩ := forall_mem_append.1 hn
    have hb := execBlock hi k bd hc hb'
    refine h.bind (h.eval hi e (.inr h.toAlongside)) fun v hv => ?_
    exact h.iterate (fun _ => h.beginRound hi _ t ht) hb (fun _ => Flow.afterRound_holds) nofun hv
  | .define d =>
    have hna := hn d.name mem_cons_self
    exact h.bind (h.store _ hna (.function (hc d mem_cons_self))) fun _ _ => h.pure nofun
  | .eval _ | .assign _ _ | .return_ _ | .break_ | .continue_ | .import_ _ | .fromImport _ _ | .startFrame _ _
  | .childSet _ | .endFrame | .endLoop => exact h.simple h.toAlongside hi k rfl hn

end

end LockstepOn

end Playback
