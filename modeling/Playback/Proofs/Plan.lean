import Playback.Proofs.Plain

/-!
# Plans

A plan lies between a statement and its instructions: its expressions are resolved and its line is known, and `emit`
writes the instructions, with or without those of the trace. Lowering is planning and then emitting (`statement_eq`), so
what holds of the code of every plan holds of all lowered code.
-/

namespace Playback

namespace Lower

mutual

/-- A statement whose expressions are resolved. -/
inductive Plan where
  /-- Nothing to do: a blank line, a comment, an empty expression. -/
  | skip
  | eval (line : Nat) (e : Expr)
  | assign (line : Nat) (target : Target) (e : Expr)
  | conditional (line : Nat) (condition : Expr) (body : List Plan) (links : Links)
  | whileLoop (line : Nat) (condition : Expr) (body : List Plan)
  | forLoop (line : Nat) (target : Target) (iterable : Expr) (body : List Plan)
  | define (line : Nat) (code : FunctionCode)
  | return_ (line : Nat) (e : Expr)
  | break_ (line : Nat)
  | continue_ (line : Nat)
  | import_ (line : Nat) (modules : List String)
  | fromImport (line : Nat) (module : String) (names : List String)

inductive Links where
  | done
  | elif (line : Nat) (condition : Expr) (body : List Plan) (rest : Links)
  | else_ (line : Nat) (body : List Plan)

end

def Links.isDone : Links → Bool
  | .done => true
  | _ => false

/-! ## Emitting -/

mutual

def Plan.emit (traced : Bool) : Plan → List Instr
  | .skip => []
  | .eval line e => [.at line (.eval (logged traced .expression e))]
  | .assign line target e => [.at line (.assign target (logged traced .assignment e))]
  | .conditional line c body links =>
    if traced then
      [.at line (.branch (.logStart .if_ "condition" c) (.at line (.childSet "trueblock") :: emitAll true body)
          (if links.isDone then [] else .at line (.childSet "elseblocks") :: links.emit true)),
        .at line .endFrame]
    else [.at line (.branch c (emitAll false body) (links.emit false))]
  | .whileLoop line c body =>
    if traced then
      [.at line (.startFrame .whileLoop "frames"),
        .at line (.loop (.logStart .whileIteration "condition" c) (iterationBody line (emitAll true body))),
        .at line .endLoop,
        .at line .endFrame]
    else [.at line (.loop c (emitAll false body))]
  | .forLoop line target e body =>
    if traced then
      [.at line (.startFrame .forLoop "frames"), .at line (.iterate target (.each .forIteration "iterable" e)
          (iterationBody line (emitAll true body))),
        .at line .endFrame]
    else [.at line (.iterate target e (emitAll false body))]
  | .define line code => [.at line (.define code)]
  | .return_ line e => [.at line (.return_ (if traced then .logEnd .return_ .functionCall e else e))]
  | .break_ line => if traced then [.at line .endLoop, .at line .break_] else [.at line .break_]
  | .continue_ line => if traced then [.at line .endLoop, .at line .continue_] else [.at line .continue_]
  | .import_ line modules => framed traced .import_ line (.import_ modules)
  | .fromImport line module names => framed traced .fromImport line (.fromImport module names)

def emitAll (traced : Bool) : List Plan → List Instr
  | [] => []
  | p :: rest => p.emit traced ++ emitAll traced rest

def Links.emit (traced : Bool) : Links → List Instr
  | .done => []
  | .elif line c body rest =>
    if traced then
      [.at line (.branch (.logStart .elif "condition" c)
        (iterationBody line (emitAll true body)) (.at line .endFrame :: rest.emit true))]
    else [.at line (.branch c (emitAll false body) (rest.emit false))]
  | .else_ line body =>
    if traced then .at line (.startFrame .else_ "block") :: (emitAll true body ++ [.at line .endFrame])
    else emitAll false body

end

/-! ## Planning -/

mutual

def plan (place : Place) : Statement → M Plan
  | .blank => do
    let _ ← takeLine
    return .skip
  | .comment _ => do
    let _ ← takeLine
    return .skip
  | .expression value => do
    let line ← takeLine
    match ← Resolve.expression value with
    | none => return .skip
    | some e => return .eval line e
  | .assignment tokens value => do
    let line ← takeLine
    let target ← targets tokens
    let e ← Resolve.value "PYTHON_ASSIGNMENT" "right" value
    return .assign line target e
  | .conditional condition body links => do
    let line ← takeLine
    let c ← Resolve.value "PYTHON_IF_STATEMENT" "condition" condition
    let body ← planSuite place body
    return .conditional line c body (← planLinks place links)
  | .whileLoop condition body => do
    let line ← takeLine
    let c ← Resolve.value "PYTHON_WHILE_LOOP" "condition" condition
    return .whileLoop line c (← planSuite { place with inLoop := true } body)
  | .forLoop tokens iterable body => do
    let line ← takeLine
    let target ← targets tokens
    let e ← Resolve.value "PYTHON_FOR_LOOP" "iterable" iterable
    return .forLoop line target e (← planSuite { place with inLoop := true } body)
  | .function name id params body => do
    let line ← takeLine
    let serial ← takeSerial
    let after := (← get).line
    let inner : Place := { inLoop := false, inFunction := true }
    modify ({ · with line := 2 })
    let tracedBody ← planSuite inner body
    let length := (← get).line - 2
    modify ({ · with line := 2 })
    let plainBody ← planSuite inner body
    modify ({ · with line := after + length })
    return .define line (.mk serial name (id.getD name) params (params ++ blockNames body).eraseDups
      (emitAll true tracedBody ++ [.at 1 .endFrame]) (emitAll false plainBody))
  | .return_ value => do
    let line ← takeLine
    if !place.inFunction then throw (.misplaced "'return' outside function")
    return .return_ line ((← Resolve.expression value).getD (.const .none))
  | .break_ => do
    let line ← takeLine
    if !place.inLoop then throw (.misplaced "'break' outside loop")
    return .break_ line
  | .continue_ => do
    let line ← takeLine
    if !place.inLoop then throw (.misplaced "'continue' outside loop")
    return .continue_ line
  | .import_ modules => return .import_ (← takeLine) modules
  | .fromImport module names => return .fromImport (← takeLine) module names

def planBlock (place : Place) : List Statement → M (List Plan)
  | [] => return []
  | s :: rest => do
    let first ← plan place s
    return first :: (← planBlock place rest)

def planSuite (place : Place) : List Statement → M (List Plan)
  | [] => do
    let _ ← takeLine
    return []
  | s :: rest => do
    let first ← plan place s
    return first :: (← planBlock place rest)

def planLinks (place : Place) : List Link → M Links
  | [] => return .done
  | .elif condition body :: rest => do
    let line ← takeLine
    let c ← Resolve.value "PYTHON_ELIF_STATEMENT" "condition" condition
    let body ← planSuite place body
    return .elif line c body (← planLinks place rest)
  | .else_ body :: rest => do
    let line ← takeLine
    if !rest.isEmpty then throw misplacedElse
    return .else_ line (← planSuite place body)

end

/-! ## Lowering is planning and emitting -/

theorem bind_ok {α β : Type} {x : M α} {f : α → M β} {c : Counter} {r : β × Counter} (h : (x >>= f) c = .ok r) :
    ∃ a c', x c = .ok (a, c') ∧ f a c' = .ok r := by
  change (x c >>= fun r => f r.1 r.2) = .ok r at h
  cases hx : x c with
  | error e =>
    rw [hx] at h
    cases h
  | ok r' =>
    rw [hx] at h
    exact ⟨r'.1, r'.2, rfl, h⟩

attribute [local simp] statement block suite tracedLinks plainLinks plan planBlock planSuite planLinks Plan.emit emitAll
  Links.emit Links.isDone

mutual
theorem statement_eq (p : Place) (tr : Bool) (s : Statement) : statement p tr s = Plan.emit tr <$> plan p s := by
  match s with
  | .blank | .comment _ | .assignment _ _ | .import_ _ | .fromImport _ _ => simp
  | .expression v =>
    simp
    refine bind_congr fun l => bind_congr fun r => ?_
    cases r <;> simp
  | .conditional e b ls =>
    have hb := fun t => suite_eq p t b
    have hl := links_eq p ls
    cases tr with
    | false => simp [hb, hl]
    | true =>
      cases ls with
      | nil => simp [hb]
      | cons link rs =>
        simp only [statement, plan, Plan.emit, hb, hl, ↓reduceIte, List.isEmpty_cons,
          Bool.false_eq_true, map_bind, map_pure, bind_map_left]
        refine bind_congr fun l => bind_congr fun c => bind_congr fun b => ?_
        cases link with
        | elif e b => simp
        | else_ b => cases rs <;> simp
  | .whileLoop _ b | .forLoop _ _ b =>
    have hb := fun t => suite_eq { p with inLoop := true } t b
    cases tr <;> simp [hb]
  | .function x _ _ b =>
    have hb := fun t => suite_eq { inLoop := false, inFunction := true } t b
    simp [hb]
  | .return_ v =>
    cases h : p.inFunction <;> simp [h]
  | .break_ | .continue_ => cases h : p.inLoop <;> cases tr <;> simp [h]

theorem block_eq (p : Place) (t : Bool) (ss : List Statement) : block p t ss = emitAll t <$> planBlock p ss := by
  match ss with
  | [] => simp
  | s :: r => simp [statement_eq p t s, block_eq p t r]

theorem suite_eq (p : Place) (t : Bool) (ss : List Statement) : suite p t ss = emitAll t <$> planSuite p ss := by
  match ss with
  | [] => simp
  | s :: r => simp [statement_eq p t s, block_eq p t r]

theorem links_eq (p : Place) (ls : List Link) : tracedLinks p ls = Links.emit true <$> planLinks p ls
      ∧ plainLinks p ls = Links.emit false <$> planLinks p ls := by
  match ls with
  | [] => simp
  | .elif c b :: r =>
    have hb := fun t => suite_eq p t b
    simp [hb, links_eq p r]
  | .else_ b :: r =>
    have hb := fun t => suite_eq p t b
    cases h : r.isEmpty <;> simp [hb, h]
end

theorem statement_ok {q : Place} {t : Bool} {c c' : Counter} :
    statement q t s c = .ok (d, c') ↔ ∃ p, plan q s c = .ok (p, c') ∧ p.emit t = d := by
  rw [statement_eq, map_eq_pure_bind]
  constructor
  · intro h
    obtain ⟨p, _, hp, hc⟩ := bind_ok h
    cases hc
    exact ⟨p, hp, rfl⟩
  · rintro ⟨p, hp, rfl⟩
    change (plan q s c >>= fun r => pure (r.1.emit t, r.2)) = _
    rw [hp]
    rfl

/-! ## Plans that fit their place -/

section

variable (p : FunctionCode → Prop)

mutual

/-- A plan fits a place: its expressions are plain, it leaves a loop or a function only from inside one, and the
functions that it defines have a property. -/
def Plan.Fits (place : Place) : Plan → Prop
  | .skip => True
  | .eval _ e => e.Plain
  | .assign _ target e => target.Plain ∧ e.Plain
  | .conditional _ c body links => c.Plain ∧ FitAll place body ∧ links.Fit place
  | .whileLoop _ c body => c.Plain ∧ FitAll { place with inLoop := true } body
  | .forLoop _ target e body => target.Plain ∧ e.Plain ∧ FitAll { place with inLoop := true } body
  | .define _ code => p code
  | .return_ _ e => place.inFunction = true ∧ e.Plain
  | .break_ _ => place.inLoop = true
  | .continue_ _ => place.inLoop = true
  | .import_ _ _ => True
  | .fromImport _ _ _ => True

def FitAll (place : Place) : List Plan → Prop
  | [] => True
  | plan :: rest => plan.Fits place ∧ FitAll place rest

def Links.Fit (place : Place) : Links → Prop
  | .done => True
  | .elif _ c body rest => c.Plain ∧ FitAll place body ∧ rest.Fit place
  | .else_ _ body => FitAll place body

end

end

mutual

def Plan.codes : Plan → List FunctionCode
  | .conditional _ _ body links => codesAll body ++ links.codes
  | .whileLoop _ _ body => codesAll body
  | .forLoop _ _ _ body => codesAll body
  | .define _ code => [code]
  | _ => []

def codesAll : List Plan → List FunctionCode
  | [] => []
  | p :: rest => p.codes ++ codesAll rest

def Links.codes : Links → List FunctionCode
  | .done => []
  | .elif _ _ body rest => codesAll body ++ rest.codes
  | .else_ _ body => codesAll body

end

section

open List

mutual

/-- What is asked of the functions that a plan defines can be asked apart from the rest. -/
theorem Plan.fits_iff (p : FunctionCode → Prop) (q : Place) (plan : Plan) :
    plan.Fits p q ↔ plan.Fits (fun _ => True) q ∧ ∀ c ∈ plan.codes, p c := by
  match plan with
  | .conditional _ _ b ls =>
    have hb := fitAll_iff p q b
    have hl := Links.fit_iff p q ls
    simp only [Plan.Fits, Plan.codes, forall_mem_append]
    grind
  | .whileLoop _ _ b | .forLoop _ _ _ b =>
    have hb := fitAll_iff p { q with inLoop := true } b
    simp only [Plan.Fits, Plan.codes]
    grind
  | .define _ _ => simp [Plan.Fits, Plan.codes]
  | .skip | .eval _ _ | .assign _ _ _ | .return_ _ _ | .break_ _ | .continue_ _ | .import_ _ _ | .fromImport _ _ _ =>
    exact (and_iff_left (forall_mem_nil _)).symm

theorem fitAll_iff (p : FunctionCode → Prop) (q : Place) (ps : List Plan) :
    FitAll p q ps ↔ FitAll (fun _ => True) q ps ∧ ∀ c ∈ codesAll ps, p c := by
  match ps with
  | [] => simp [FitAll, codesAll]
  | plan :: ps =>
    have hp := plan.fits_iff p q
    have hr := fitAll_iff p q ps
    simp only [FitAll, codesAll, forall_mem_append]
    grind

theorem Links.fit_iff (p : FunctionCode → Prop) (q : Place) (ls : Links) :
    ls.Fit p q ↔ ls.Fit (fun _ => True) q ∧ ∀ c ∈ ls.codes, p c := by
  match ls with
  | .done => simp [Links.Fit, Links.codes]
  | .elif _ _ b r =>
    have hb := fitAll_iff p q b
    have hr := r.fit_iff p q
    simp only [Links.Fit, Links.codes, forall_mem_append]
    grind
  | .else_ _ b => exact fitAll_iff p q b

end

variable {p p' : FunctionCode → Prop}

theorem FitAll.codes (h : FitAll p q ps) : ∀ c ∈ codesAll ps, p c :=
  ((fitAll_iff p q ps).1 h).2

theorem FitAll.mono (h : FitAll p q ps) (hp : ∀ c ∈ codesAll ps, p' c) : FitAll p' q ps :=
  (fitAll_iff p' q ps).2 ⟨((fitAll_iff p q ps).1 h).1, hp⟩

end

abbrev Place.file : Place :=
  { inLoop := false, inFunction := false }

def Place.function : Place :=
  { inLoop := false, inFunction := true }

end Lower

open Lower (FitAll emitAll)

/-- Both bodies of a function are the code of plans that fit, and the functions that they define have a property; the
traced one closes the call's frame at its end. -/
structure HasBodies (p : FunctionCode → Prop) (code : FunctionCode) : Prop where
  traced : ∃ ps, FitAll p .function ps ∧ code.traced = emitAll true ps ++ [.at 1 .endFrame]
  plain : ∃ ps, FitAll p .function ps ∧ code.plain = emitAll false ps

theorem HasBodies.mono (h : HasBodies p d) (hp : ∀ c, p c → p' c) : HasBodies p' d := by
  obtain ⟨⟨ps, hf, ht⟩, qs, hf', hp'⟩ := h
  exact ⟨⟨ps, hf.mono fun c hc => hp c (hf.codes c hc), ht⟩, qs, hf'.mono fun c hc => hp c (hf'.codes c hc), hp'⟩

namespace Lower

/-- Both bodies of a function, and those of the functions it defines, are the code of plans that fit. -/
def Lowered (code : FunctionCode) : Prop :=
  ∃ p : FunctionCode → Prop, p code ∧ ∀ c, p c → HasBodies p c

theorem Lowered.hasBodies (h : Lowered code) : HasBodies Lowered code := by
  obtain ⟨p, hc, hp⟩ := h
  exact (hp code hc).mono fun c hc => ⟨p, hc, hp⟩

theorem Lowered.of_bodies (h : HasBodies Lowered code) : Lowered code :=
  ⟨HasBodies Lowered, h, fun _ hc => hc.mono fun _ => Lowered.hasBodies⟩

abbrev Counter.next (c : Counter) : Counter :=
  { c with line := c.line + 1 }

/-- What planning gives from a counter on, if it gives anything, is as said. -/
def From {α : Type} (c : Counter) (x : M α) (q : α → Counter → Prop) : Prop :=
  Yields (x c) fun r => q r.1 r.2

namespace From

variable {α β : Type} {q : β → Counter → Prop}

theorem pure (h : q a c) : From c (Pure.pure a) q :=
  .ok h

theorem line (h : From c.next (f c.line) q) : From c (takeLine >>= f) q :=
  h

theorem lift {e : Except CompileError α} (h : ∀ a, e = .ok a → From c (f a) q) : From c ((liftM e : M α) >>= f) q := by
  cases e with
  | error e => exact .error e
  | ok a => exact h a rfl

theorem guarded (h : b = true → From c x q) : From c (if !b then (throw e : M PUnit) >>= fun _ => x else x) q := by
  cases b with
  | true => exact h rfl
  | false => exact .error e

theorem bind {x : M α} {p : α → Counter → Prop} (hx : From c x p)
    (hf : ∀ a c', x c = .ok (a, c') → p a c' → From c' (f a) q) : From c (x >>= f) q :=
  (Yields.self (x c)).bind fun r hr => hf r.1 r.2 hr (hx r hr)

end From

/-- Properties of plans, of those of a block or a suite, and of links, which follow from those of their parts. -/
structure PlanRules (P : Place → Statement → Counter → Plan → Counter → Prop)
    (B S : Place → List Statement → Counter → List Plan → Counter → Prop)
    (L : Place → List Link → Counter → Links → Counter → Prop) : Prop where
  skip (h : s = .blank ∨ (∃ text, s = .comment text) ∨ ∃ v, s = .expression v) : P q s c .skip c.next
  eval (he : Resolve.expression v = .ok (some e)) : P q (.expression v) c (.eval c.line e) c.next
  assign (ht : targets ts = .ok t) (he : Resolve.value "PYTHON_ASSIGNMENT" "right" v = .ok e) :
    P q (.assignment ts v) c (.assign c.line t e) c.next
  conditional (he : Resolve.value "PYTHON_IF_STATEMENT" "condition" v = .ok e) (hb : S q b c.next ps c1)
    (hl : planLinks q ks c1 = .ok (ls, c2)) (hls : L q ks c1 ls c2) :
    P q (.conditional v b ks) c (.conditional c.line e ps ls) c2
  whileLoop (he : Resolve.value "PYTHON_WHILE_LOOP" "condition" v = .ok e)
    (hb : S { q with inLoop := true } b c.next ps c1) : P q (.whileLoop v b) c (.whileLoop c.line e ps) c1
  forLoop (ht : targets ts = .ok t) (he : Resolve.value "PYTHON_FOR_LOOP" "iterable" v = .ok e)
    (hb : S { q with inLoop := true } b c.next ps c1) : P q (.forLoop ts v b) c (.forLoop c.line t e ps) c1
  /-- The body is planned twice, each time from line 2 on. -/
  function (x : String) (id : Option String) (params : List String)
    (ht : planSuite .function b ⟨2, c.serial + 1⟩ = .ok (ps, c1)) (hts : S .function b ⟨2, c.serial + 1⟩ ps c1)
    (hp : planSuite .function b ⟨2, c1.serial⟩ = .ok (ps', c2)) (hps : S .function b ⟨2, c1.serial⟩ ps' c2) :
    P q (.function x id params b) c (.define c.line (.mk c.serial x (id.getD x) params
      (params ++ blockNames b).eraseDups (emitAll true ps ++ [.at 1 .endFrame]) (emitAll false ps')))
      ⟨c.line + 1 + (c1.line - 2), c2.serial⟩
  return_ (e : Option Expr) (hq : q.inFunction = true) (he : Resolve.expression v = .ok e) :
    P q (.return_ v) c (.return_ c.line (e.getD (.const .none))) c.next
  break_ (hq : q.inLoop = true) : P q .break_ c (.break_ c.line) c.next
  continue_ (hq : q.inLoop = true) : P q .continue_ c (.continue_ c.line) c.next
  import_ (ms : List String) : P q (.import_ ms) c (.import_ c.line ms) c.next
  fromImport (x : String) (xs : List String) : P q (.fromImport x xs) c (.fromImport c.line x xs) c.next
  nil : B q [] c [] c
  cons (hp : plan q s c = .ok (p, c1)) (hps : P q s c p c1) (hr : B q r c1 ps c2) : B q (s :: r) c (p :: ps) c2
  empty : S q [] c [] c.next
  suite (h : B q (s :: r) c ps c1) : S q (s :: r) c ps c1
  done : L q [] c .done c
  elif (he : Resolve.value "PYTHON_ELIF_STATEMENT" "condition" v = .ok e) (hb : S q b c.next ps c1)
    (hl : planLinks q r c1 = .ok (ls, c2)) (hls : L q r c1 ls c2) : L q (.elif v b :: r) c (.elif c.line e ps ls) c2
  else_ (hb : S q b c.next ps c1) : L q [.else_ b] c (.else_ c.line ps) c1

/-- Rules that do not tell a suite from a block. -/
abbrev BlockRules (P : Place → Statement → Counter → Plan → Counter → Prop)
    (B : Place → List Statement → Counter → List Plan → Counter → Prop)
    (L : Place → List Link → Counter → Links → Counter → Prop) : Prop :=
  PlanRules P B B L

namespace PlanRules

variable {P : Place → Statement → Counter → Plan → Counter → Prop}
  {B S : Place → List Statement → Counter → List Plan → Counter → Prop}
  {L : Place → List Link → Counter → Links → Counter → Prop} (R : PlanRules P B S L)

include R

mutual

theorem of_plan (q : Place) (s : Statement) (c : Counter) : From c (plan q s) (P q s c) := by
  unfold plan
  match s with
  | .blank => exact .line (.pure (R.skip (.inl rfl)))
  | .comment text => exact .line (.pure (R.skip (.inr (.inl ⟨text, rfl⟩))))
  | .expression v =>
    refine .line (.lift fun e he => ?_)
    cases e with
    | none => exact .pure (R.skip (.inr (.inr ⟨v, rfl⟩)))
    | some e => exact .pure (R.eval he)
  | .assignment ts v => exact .line (.lift fun t ht => .lift fun e he => .pure (R.assign ht he))
  | .conditional v b ks =>
    refine .line (.lift fun e he => .bind (of_suite q b _) fun ps c1 _ hb => ?_)
    exact .bind (of_links q ks c1) fun ls _ hl hls => .pure (R.conditional he hb hl hls)
  | .whileLoop v b =>
    exact .line (.lift fun e he => .bind (of_suite _ b _) fun ps _ _ hb => .pure (R.whileLoop he hb))
  | .forLoop ts v b =>
    refine .line (.lift fun t ht => .lift fun e he => ?_)
    exact .bind (of_suite _ b _) fun ps _ _ hb => .pure (R.forLoop ht he hb)
  | .function x id params b =>
    refine (Yields.self (planSuite .function b ⟨2, c.serial + 1⟩)).bind fun r ht => ?_
    refine (Yields.self (planSuite .function b ⟨2, r.2.serial⟩)).bind fun r' hp => .ok ?_
    exact R.function x id params ht (of_suite _ b _ r ht) hp (of_suite _ b _ r' hp)
  | .return_ v => exact .line (.guarded fun hq => .lift fun e he => .pure (R.return_ e hq he))
  | .break_ => exact .line (.guarded fun hq => .pure (R.break_ hq))
  | .continue_ => exact .line (.guarded fun hq => .pure (R.continue_ hq))
  | .import_ ms => exact .line (.pure (R.import_ ms))
  | .fromImport x xs => exact .line (.pure (R.fromImport x xs))

theorem of_block (q : Place) (ss : List Statement) (c : Counter) : From c (planBlock q ss) (B q ss c) := by
  unfold planBlock
  match ss with
  | [] => exact .pure R.nil
  | s :: r =>
    exact .bind (of_plan q s c) fun p c1 hp hps => .bind (of_block q r c1) fun _ _ _ hr => .pure (R.cons hp hps hr)

theorem of_suite (q : Place) (ss : List Statement) (c : Counter) : From c (planSuite q ss) (S q ss c) := by
  unfold planSuite
  match ss with
  | [] => exact .line (.pure R.empty)
  | s :: r =>
    refine .bind (of_plan q s c) fun p c1 hp hps => ?_
    exact .bind (of_block q r c1) fun _ _ _ hr => .pure (R.suite (R.cons hp hps hr))

theorem of_links (q : Place) (ks : List Link) (c : Counter) : From c (planLinks q ks) (L q ks c) := by
  unfold planLinks
  match ks with
  | [] => exact .pure R.done
  | .elif v b :: r =>
    refine .line (.lift fun e he => .bind (of_suite q b _) fun ps c1 _ hb => ?_)
    exact .bind (of_links q r c1) fun ls _ hl hls => .pure (R.elif he hb hl hls)
  | .else_ b :: r =>
    refine .line (.guarded fun hr => .bind (of_suite q b _) fun ps _ _ hb => .pure ?_)
    obtain rfl := List.isEmpty_iff.1 hr
    exact R.else_ hb

end

end PlanRules

/-- A plan fits its place, and the functions that it defines are lowered. -/
theorem proper_rules : BlockRules (fun q _ _ p _ => p.Fits Lowered q) (fun q _ _ ps _ => FitAll Lowered q ps)
    fun q _ _ ls _ => ls.Fit Lowered q where
  skip _ := trivial
  eval he := Resolve.expression_plain _ _ he _ rfl
  assign ht he := ⟨targets_plain _ _ ht, Resolve.value_plain _ _ _ _ he⟩
  conditional he hb _ hl := ⟨Resolve.value_plain _ _ _ _ he, hb, hl⟩
  whileLoop he hb := ⟨Resolve.value_plain _ _ _ _ he, hb⟩
  forLoop ht he hb := ⟨targets_plain _ _ ht, Resolve.value_plain _ _ _ _ he, hb⟩
  function _ _ _ _ ht _ hp := .of_bodies ⟨⟨_, ht, rfl⟩, _, hp, rfl⟩
  return_ e hq he := by
    refine ⟨hq, ?_⟩
    cases e with
    | none => exact .intro rfl nofun
    | some e => exact Resolve.expression_plain _ _ he e rfl
  break_ hq := hq
  continue_ hq := hq
  import_ _ := trivial
  fromImport _ _ := trivial
  nil := trivial
  cons _ hp hr := ⟨hp, hr⟩
  empty := trivial
  suite h := h
  done := trivial
  elif he hb _ hl := ⟨Resolve.value_plain _ _ _ _ he, hb, hl⟩
  else_ hb := hb

/-- **Lowered code is the code of plans that fit its place.** -/
theorem block_plans (p : Place) (t : Bool) (ss : List Statement) (c : Counter) :
    From c (block p t ss) fun is _ => ∃ ps, FitAll Lowered p ps ∧ is = emitAll t ps := by
  rw [block_eq]
  exact .bind (proper_rules.of_block p ss c) fun ps _ _ hps => .pure ⟨ps, hps, rfl⟩

end Lower

theorem Script.compile_eq (s : Script) : s.compile = (Lower.planBlock .file s { line := 1, serial := 0 }).map
      fun r => { body := Lower.emitAll true r.1 } := by
  rw [Script.compile, Lower.block_eq]
  change ((Lower.planBlock .file s _ >>= fun r => _) >>= fun r => _) = _
  cases Lower.planBlock .file s { line := 1, serial := 0 } with
  | ok | error => rfl

/-- The program that a script compiles to, or an empty one. -/
def Script.code (script : Script) : Program :=
  script.compile.toOption.getD { body := [] }

theorem Script.compile_ok {s : Script} (h : s.compile = .ok p) :
    ∃ r, Lower.planBlock .file s { line := 1, serial := 0 } = .ok r ∧ p.body = Lower.emitAll true r.1 := by
  rw [Script.compile_eq] at h
  cases hp : Lower.planBlock .file s { line := 1, serial := 0 } with
  | error e =>
    rw [hp] at h
    cases h
  | ok r =>
    rw [hp] at h
    cases h
    exact ⟨r, rfl, rfl⟩

theorem Script.compile_plans {s : Script} (h : s.compile = .ok p) :
    ∃ ps, Lower.FitAll Lower.Lowered .file ps ∧ p.body = Lower.emitAll true ps := by
  obtain ⟨r, hp, hb⟩ := Script.compile_ok h
  exact ⟨r.1, Lower.proper_rules.of_block _ s _ r hp, hb⟩

def Action.isSimple : Action → Bool
  | .branch _ _ _ | .loop _ _ | .iterate _ _ _ | .define _ => false
  | _ => true

end Playback
