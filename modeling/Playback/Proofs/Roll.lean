import Playback.Proofs.Effects

/-!
# The roll of calls

Which functions a run calls, in the order in which the calls start, can be read off the code and the machines that it
comes to: a construct makes the calls of its parts one after the other, as far as it gets. A call that is refused is not
on the roll. These are exactly the calls that the trace counts (`block_makes`, `invoke_makes`).
-/

namespace Playback

open Eval

/-- A call that has begun: calls are not nested too deep, and its arguments fit. -/
structure Admitted where
  code : FunctionCode
  locals : Scope
  machine : Machine

/-- The calls that a computation makes, in the order in which they start, from the machine that it starts on. -/
abbrev Roll := Machine → List Admitted

namespace Roll

def nothing : Roll :=
  fun _ => []

/-- The calls of something, and of what goes on from where it ends. -/
def andThen {α : Type} (roll : Roll) (x : Eval α) (next : α → Roll) : Roll :=
  fun m => roll m ++ match x m with
    | .ok a m' => next a m'
    | .error _ _ => []

/-- The calls of what goes on from what a machine has, if it has it. -/
def given {α : Type} (find : Machine → Except Fault α) (next : α → Roll) : Roll :=
  fun m => match find m with
    | .ok a => next a m
    | .error _ => []

/-- The calls of what goes on from whether a value counts as true. -/
def decided (v : Value) (next : Bool → Roll) : Roll :=
  fun m => next (m.heap.truthy v) m

end Roll

open Roll (nothing)

section

variable (g : Invoke) (cs : FunctionCode → List Value → Keywords → Roll)

/-! ## Expressions -/

def applyRoll (callee : Value) (args : List Value) (keywords : Keywords) : Roll :=
  match callee with
  | .function code => cs code args keywords
  | _ => nothing

mutual

def evalRoll : Expr → Roll
  | .const _ => nothing
  | .name _ => nothing
  | .unary _ e => evalRoll e
  | .binary _ l r => (evalRoll l).andThen (Eval.eval g l) fun _ => evalRoll r
  | .bool op l r => (evalRoll l).andThen (Eval.eval g l) fun a =>
    .decided a fun left => if Eval.decides op left then nothing else evalRoll r
  | .compare l rest => (evalRoll l).andThen (Eval.eval g l) fun a => chainRoll a rest
  | .call f args keywords => (evalRoll f).andThen (Eval.eval g f) fun callee =>
    (rowRoll args).andThen (Eval.evalAll g args) fun vs =>
      (keywordsRoll keywords).andThen (Eval.evalKeywords g keywords) fun ks => applyRoll cs callee vs ks
  | .attribute e _ => evalRoll e
  | .subscript e i => (evalRoll e).andThen (Eval.eval g e) fun _ => evalRoll i
  | .slice e lower upper => (evalRoll e).andThen (Eval.eval g e) fun _ =>
    (boundRoll lower).andThen (Eval.evalBound g lower) fun _ => boundRoll upper
  | .list es => rowRoll es
  | .tuple es => rowRoll es
  | .set es => rowRoll es
  | .dict entries => entriesRoll entries
  | .log _ e => evalRoll e
  | .logStart _ _ e => evalRoll e
  | .logEnd _ _ e => evalRoll e
  | .each _ _ e => evalRoll e

def rowRoll : List Expr → Roll
  | [] => nothing
  | e :: rest => (evalRoll e).andThen (Eval.eval g e) fun _ => rowRoll rest

def keywordsRoll : List (String × Expr) → Roll
  | [] => nothing
  | (_, e) :: rest => (evalRoll e).andThen (Eval.eval g e) fun _ => keywordsRoll rest

def entriesRoll : List (Expr × Expr) → Roll
  | [] => nothing
  | (k, e) :: rest => (evalRoll k).andThen (Eval.eval g k) fun _ =>
    (evalRoll e).andThen (Eval.eval g e) fun _ => entriesRoll rest

def boundRoll : Option Expr → Roll
  | none => nothing
  | some e => evalRoll e

/-- The calls of a chain of comparisons, up to the first that does not hold. -/
def chainRoll (left : Value) : List (CompareOp × Expr) → Roll
  | [] => nothing
  | (op, e) :: rest => (evalRoll e).andThen (Eval.eval g e) fun right =>
    .given (·.heap.compare op left right) fun holds => if holds then chainRoll right rest else nothing

end

/-! ## Assignments and loops -/

mutual

def assignRoll : Target → Value → Roll
  | .name _, _ => nothing
  | .item c i, _ => (evalRoll g cs c).andThen (Eval.eval g c) fun _ => evalRoll g cs i
  | .unpack targets, v => .given (Eval.unpack ·.heap v targets.length) fun vs => assignAllRoll targets vs

def assignAllRoll : List Target → List Value → Roll
  | t :: targets, v :: vs => (assignRoll t v).andThen (Eval.assign g t v) fun _ => assignAllRoll targets vs
  | _, _ => nothing

end

def whileRoll (condition : Eval Bool) (conditionRoll : Roll) (bd : Eval Flow) (bodyRoll : Roll) : Nat → Roll
  | 0 => nothing
  | n + 1 => conditionRoll.andThen condition fun holds =>
    if holds then
      bodyRoll.andThen bd fun flow =>
        if flow.repeats then whileRoll condition conditionRoll bd bodyRoll n else nothing
    else nothing

def forRoll (begin_ : Value → Eval Unit) (beginRoll : Value → Roll) (bd : Eval Flow) (bodyRoll : Roll) :
    Nat → Elements → Roll
  | 0, _ => nothing
  | budget + 1, es =>
    match es.next? with
    | none => nothing
    | some (v, rest) => (beginRoll v).andThen (begin_ v) fun _ =>
      bodyRoll.andThen bd fun flow =>
        if flow.repeats then forRoll begin_ beginRoll bd bodyRoll budget rest else nothing

def roundRoll (frame : Option (Trace.Kind × String)) (target : Target) (v : Value) : Roll :=
  nothing.andThen (Eval.openRound frame v) fun _ => assignRoll g cs target v

/-! ## Instructions -/

variable (n : Nat)

mutual

def blockRoll : List Instr → Roll
  | [] => nothing
  | i :: rest => (instrRoll i).andThen (Eval.exec g n i) fun flow =>
    match flow with
    | .normal => blockRoll rest
    | _ => nothing

def instrRoll : Instr → Roll
  | .at line action => fun m => actionRoll action (m.setLine line)

def actionRoll : Action → Roll
  | .eval e => evalRoll g cs e
  | .return_ e => evalRoll g cs e
  | .assign t e => (evalRoll g cs e).andThen (Eval.eval g e) fun v => assignRoll g cs t v
  | .branch c bd orelse => (evalRoll g cs c).andThen (Eval.eval g c) fun v =>
    .decided v fun holds => if holds then blockRoll bd else blockRoll orelse
  | .loop c bd =>
    whileRoll (do Eval.truthy (← Eval.eval g c)) (evalRoll g cs c) (Eval.execBlock g n bd) (blockRoll bd) n
  | .iterate t e bd => (evalRoll g cs e).andThen (Eval.eval g e) fun v =>
    .given (·.heap.elements v) fun es =>
      forRoll (Eval.beginRound g (Eval.roundFrame? e) t) (roundRoll g cs (Eval.roundFrame? e) t)
        (Eval.execBlock g n bd) (blockRoll bd) es.count es
  | .define _ | .break_ | .continue_ | .import_ _ | .fromImport _ _ | .startFrame _ _ | .childSet _ | .endFrame
  | .endLoop => nothing

end

end

/-- The calls of calling a function where calls may be nested `room` deeper: itself, if it is not refused, and those of
the body that it runs. -/
def invokeRoll (n : Nat) : Nat → FunctionCode → List Value → Keywords → Roll
  | 0, _, _, _ => nothing
  | room + 1, code, args, keywords => fun m =>
    match code.bind args keywords with
    | .error _ => []
    | .ok locals => ⟨code, locals, m⟩ :: blockRoll (Eval.invoke n room) (invokeRoll n room) n
      (code.body (m.traces code)) (m.called code locals)

def Program.roll (program : Program) (n : Nat) (limits : Limits) (mode : Mode) (input : List String) : List Admitted :=
  blockRoll (Eval.invoke n limits.recursion) (invokeRoll n limits.recursion) n program.body
    (Machine.ready limits mode input)

/-! ## What the roll leaves out -/

/-- From one machine to another these calls begin, each on the machine that it says, and apart from that nothing is
filed. -/
inductive Begins : List Admitted → Machine → Machine → Prop where
  | quiet : m.SameFiles m' → Begins [] m m'
  | call : m.SameFiles a.machine → Begins rest (a.machine.called a.code a.locals) m' → Begins (a :: rest) m m'

namespace Begins

theorem before (h : m.SameFiles m1) (hb : Begins as m1 m2) : Begins as m m2 := by
  cases hb with
  | quiet hq => exact .quiet (h.trans hq)
  | call hc hr => exact .call (h.trans hc) hr

theorem append (has : Begins as m m1) (hbs : Begins bs m1 m2) : Begins (as ++ bs) m m2 := by
  induction has with
  | quiet hq => exact hbs.before hq
  | call hc _ ih => exact .call hc (ih hbs)

theorem after (hb : Begins as m m1) (h : m1.SameFiles m2) : Begins as m m2 := by
  have hq := hb.append (.quiet h)
  rwa [List.append_nil] at hq

end Begins

/-- The calls that a computation makes are those on a roll. -/
def Makes {α : Type} (x : Eval α) (roll : Roll) : Prop :=
  ∀ m, Begins (roll m) m (Eval.after x m)

abbrev FilesNothing {α : Type} (x : Eval α) : Prop :=
  Affects (fun _ => True) Machine.SameFiles x fun _ => True

theorem machineRelation_sameFiles : MachineRelation (fun _ => True) (fun _ => True) Machine.SameFiles :=
  .free .refl .trans

theorem quiet_lockstep : Lockstep (fun _ => True) fun x _ q => Affects (fun _ => True) Machine.SameFiles x q where
  toAlongside := Affects.alongside machineRelation_sameFiles fun _ _ _ h => h
  store name v _ _ := .change fun {m} _ =>
    ⟨congrArg Trace.detached (m.trace_setVariable name v), congrArg Trace.callLimit (m.trace_setVariable name v)⟩
  setLine line := .change fun {m} _ =>
    ⟨congrArg Trace.detached (m.trace_setLine line), congrArg Trace.callLimit (m.trace_setLine line)⟩

namespace FilesNothing

variable {α β : Type}

theorem of (h : Affects (fun _ => True) Machine.SameFiles x q) : FilesNothing x :=
  ⟨h.after, fun _ _ => trivial⟩

theorem pure (a : α) : FilesNothing (Pure.pure a : Eval α) :=
  quiet_lockstep.pure trivial

theorem throw (halt : Halt) : FilesNothing (MonadExcept.throw halt : Eval α) :=
  quiet_lockstep.throw halt

theorem bind {f : α → Eval β} (hx : FilesNothing x) (hf : ∀ a, FilesNothing (f a)) : FilesNothing (x >>= f) :=
  Affects.bind machineRelation_sameFiles hx fun a _ => hf a

theorem lift (e : Except Fault α) : FilesNothing (lift e) :=
  quiet_lockstep.lift (Yields.any e)

theorem onHeap (x : HeapM α) : FilesNothing (onHeap x) := by
  refine ⟨fun {m} _ => ?_, fun _ _ => trivial⟩
  unfold Eval.after Eval.onHeap
  dsimp only
  cases x m.heap <;> exact ⟨rfl, rfl⟩

theorem log (k : Option Trace.Kind) (v : Value) : FilesNothing (log k v) :=
  quiet_lockstep.log k v

end FilesNothing

namespace Makes

variable {α β : Type}

theorem quiet (hx : FilesNothing x) : Makes x nothing :=
  fun _ => .quiet (hx.after trivial)

theorem bind (hx : Makes x roll) (hf : ∀ a, Makes (f a) (next a)) : Makes (x >>= f) (roll.andThen x next) := by
  intro m
  have hb := hx m
  change Begins (roll.andThen x next m) m (after (EStateM.bind x f) m)
  unfold Roll.andThen after EStateM.bind
  rw [after] at hb
  cases hr : x m with
  | ok a m1 =>
    rw [hr] at hb
    exact hb.append (hf a m1)
  | error _ m1 =>
    rw [hr] at hb
    exact hb.append (.quiet (.refl m1))

theorem followed (hx : Makes x roll) (hf : ∀ a, FilesNothing (f a)) : Makes (x >>= f) roll := by
  intro m
  have hb := hx.bind (fun a => quiet (hf a)) m
  have hn : roll.andThen x (fun _ => nothing) m = roll m := by
    unfold Roll.andThen
    cases x m <;> exact List.append_nil _
  rwa [hn] at hb

theorem given (hf : ∀ a, Makes (f a) (next a)) :
    Makes (MonadState.get >>= fun m => lift (find m) >>= f) (.given find next) := by
  intro m
  change Begins (Roll.given find next m) m (after (lift (find m) >>= f) m)
  unfold Roll.given
  cases find m with
  | ok a => exact hf a m
  | error _ => exact .quiet (.refl m)

theorem decided {f : Bool → Eval β} (hf : ∀ b, Makes (f b) (next b)) : Makes (truthy v >>= f) (.decided v next) :=
  fun m => hf (m.heap.truthy v) m

end Makes

/-- An instruction makes no calls that does the same where all calls are refused. -/
theorem Makes.indifferent (n : Nat) (h : execAction g n action = execAction (Eval.invoke n 0) n action) :
    Makes (execAction g n action) nothing := by
  have hn : Lockstep.Calls (fun _ => True) (fun x _ q => Affects (fun _ => True) Machine.SameFiles x q)
      (Eval.invoke n 0) (Eval.invoke n 0) := fun _ _ _ _ _ _ => quiet_lockstep.throw _
  rw [h]
  exact quiet (.of (quiet_lockstep.execAction hn n action (fun _ _ => trivial) fun _ _ => trivial))

/-- What calls functions makes the calls on a roll. -/
def Invoke.Makes (g : Invoke) (cs : FunctionCode → List Value → Keywords → Roll) : Prop :=
  ∀ code args keywords, Playback.Makes (g code args keywords) (cs code args keywords)

section

theorem apply_makes (hi : g.Makes cs) (callee : Value) (as : List Value) (ks : Keywords) :
    Makes (apply g callee as ks) (applyRoll cs callee as ks) := by
  cases callee with
  | function c => exact hi c as ks
  | builtin b =>
    have ha : RowHolds (fun _ => True) as := fun v _ => .any v
    have hk : ∀ k ∈ ks, k.2.Holds fun _ => True := fun k _ => .any k.2
    exact .quiet (.of (quiet_lockstep.callBuiltin b ha hk))
  | method m => exact .quiet (.onHeap _)
  | _ => exact .quiet (.throw _)

mutual

theorem eval_makes (hi : g.Makes cs) (e : Expr) : Makes (eval g e) (evalRoll g cs e) := by
  match e with
  | .const c =>
    exact .quiet (.pure _)
  | .name s =>
    exact .quiet (.of (quiet_lockstep.load s))
  | .unary op e =>
    exact (eval_makes hi e).followed fun v => .get fun m _ => FilesNothing.lift _
  | .binary op l r =>
    exact (eval_makes hi l).bind fun a => (eval_makes hi r).followed fun b => .onHeap _
  | .bool op l r =>
    refine (eval_makes hi l).bind fun a => .decided fun _ => ?_
    split
    · exact .quiet (.pure a)
    · exact eval_makes hi r
  | .compare l rs =>
    exact (eval_makes hi l).bind fun a => chain_makes hi a rs
  | .call f as kws =>
    refine (eval_makes hi f).bind fun callee => (row_makes hi as).bind fun vs => ?_
    exact (keywords_makes hi kws).bind (apply_makes hi callee vs)
  | .attribute e x =>
    exact (eval_makes hi e).followed fun v => .lift _
  | .subscript e i =>
    refine (eval_makes hi e).bind fun container => (eval_makes hi i).followed fun j => ?_
    exact .get fun m _ => FilesNothing.lift _
  | .slice e lower upper =>
    refine (eval_makes hi e).bind fun container => (bound_makes hi lower).bind fun l => ?_
    exact (bound_makes hi upper).followed fun u => .onHeap _
  | .list es | .tuple es | .set es =>
    exact (row_makes hi es).followed fun vs => .onHeap _
  | .dict xs =>
    exact (entries_makes hi xs).followed fun _ => .onHeap _
  | .log k e =>
    exact (eval_makes hi e).followed fun v => (FilesNothing.log k v).bind fun _ => .pure v
  | .logStart k set e =>
    refine (eval_makes hi e).followed fun v => FilesNothing.bind (quiet_lockstep.startFrame k set) fun _ => ?_
    exact (FilesNothing.log none v).bind fun _ => .pure v
  | .logEnd k until_ e =>
    refine (eval_makes hi e).followed fun v => ?_
    exact FilesNothing.bind (quiet_lockstep.logEnd k until_ v) fun _ => .pure v
  | .each k set e =>
    exact eval_makes hi e

theorem row_makes (hi : g.Makes cs) (es : List Expr) : Makes (evalAll g es) (rowRoll g cs es) := by
  match es with
  | [] =>
    exact .quiet (.pure _)
  | e :: r =>
    exact (eval_makes hi e).bind fun v => (row_makes hi r).followed fun _ => .pure _

theorem keywords_makes (hi : g.Makes cs) (ks : List (String × Expr)) :
    Makes (evalKeywords g ks) (keywordsRoll g cs ks) := by
  match ks with
  | [] =>
    exact .quiet (.pure _)
  | (x, e) :: r =>
    exact (eval_makes hi e).bind fun v => (keywords_makes hi r).followed fun _ => .pure _

theorem entries_makes (hi : g.Makes cs) (es : List (Expr × Expr)) : Makes (evalEntries g es) (entriesRoll g cs es) := by
  match es with
  | [] =>
    exact .quiet (.pure _)
  | (k, e) :: r =>
    refine (eval_makes hi k).bind fun _ => (eval_makes hi e).bind fun v => ?_
    exact (entries_makes hi r).followed fun _ => .pure _

theorem bound_makes (hi : g.Makes cs) (b : Option Expr) : Makes (evalBound g b) (boundRoll g cs b) := by
  match b with
  | none =>
    exact .quiet (.pure _)
  | some e =>
    exact (eval_makes hi e).followed fun v => .lift _

theorem chain_makes (hi : g.Makes cs) (left : Value) (r : List (CompareOp × Expr)) :
    Makes (evalChain g left r) (chainRoll g cs left r) := by
  match r with
  | [] =>
    exact .quiet (.pure _)
  | (op, e) :: r =>
    refine (eval_makes hi e).bind fun right => .given fun holds => ?_
    cases holds with
    | true => exact chain_makes hi right r
    | false => exact .quiet (.pure _)

end

mutual

theorem assign_makes (hi : g.Makes cs) (t : Target) (v : Value) : Makes (assign g t v) (assignRoll g cs t v) := by
  match t with
  | .name s =>
    exact .quiet (quiet_lockstep.store s trivial (.any v))
  | .item c i =>
    exact (eval_makes hi c).bind fun _ => (eval_makes hi i).followed fun j => .onHeap _
  | .unpack ts =>
    exact .given (assignAll_makes hi ts)

theorem assignAll_makes (hi : g.Makes cs) (ts : List Target) (vs : List Value) :
    Makes (assignAll g ts vs) (assignAllRoll g cs ts vs) := by
  match ts, vs with
  | [], _ | _ :: _, [] =>
    rw [assignAll, assignAllRoll]
    · exact .quiet (.pure _)
    · exact nofun
    · exact nofun
  | t :: ts, v :: vs =>
    exact (assign_makes hi t v).bind fun _ => assignAll_makes hi ts vs

end

theorem whileLoop_makes (hc : Makes c conditionRoll)
    (hb : Makes bd bodyRoll) (n : Nat) : Makes (whileLoop c bd n) (whileRoll c conditionRoll bd bodyRoll n) := by
  induction n with
  | zero => exact .quiet (.throw _)
  | succ n ih =>
    refine hc.bind fun holds => ?_
    cases holds with
    | false => exact .quiet (.pure _)
    | true =>
      refine hb.bind fun f => ?_
      cases f with
      | normal | continue_ => exact ih
      | break_ | return_ => exact .quiet (.pure _)

theorem forLoop_makes (hb : ∀ v, Makes (begin_ v) (beginRoll v)) (hbo : Makes bd bodyRoll) (b : Nat) (es : Elements) :
    Makes (forLoop begin_ bd b es) (forRoll begin_ beginRoll bd bodyRoll b es) := by
  induction b generalizing es with
  | zero => exact .quiet (.pure _)
  | succ b ih =>
    rw [forLoop, forRoll]
    cases es.next? with
    | none => exact .quiet (.pure _)
    | some next =>
      refine (hb next.1).bind fun _ => hbo.bind fun f => ?_
      cases f with
      | normal | continue_ => exact ih next.2
      | break_ | return_ => exact .quiet (.pure _)

theorem beginRound_makes (hi : g.Makes cs) (f : Option (Trace.Kind × String)) (t : Target)
    (v : Value) : Makes (beginRound g f t v) (roundRoll g cs f t v) := by
  have ho := Makes.bind (.quiet (quiet_lockstep.openRound f v)) fun _ => assign_makes hi t v
  cases f with
  | none => exact ho
  | some f =>
    rw [openRound, bind_assoc] at ho
    exact ho

variable (n : Nat)

mutual

/-- **The calls of a block are those on its roll**, if it is so with the calls that they make. -/
theorem block_makes (hi : g.Makes cs) (is : List Instr) : Makes (execBlock g n is) (blockRoll g cs n is) := by
  match is with
  | [] =>
    exact .quiet (.pure _)
  | i :: r =>
    refine (instr_makes hi i).bind fun f => ?_
    cases f with
    | normal => exact block_makes hi r
    | break_ | continue_ | return_ => exact .quiet (.pure _)

theorem instr_makes (hi : g.Makes cs) (i : Instr) : Makes (exec g n i) (instrRoll g cs n i) := by
  match i with
  | .at l action =>
    -- the roll starts from the machine with its line noted, which has the same files
    intro m
    have hl := (quiet_lockstep.setLine l).after (m := m) trivial
    exact (action_makes hi action (m.setLine l)).before hl

theorem action_makes (hi : g.Makes cs) (action : Action) :
    Makes (execAction g n action) (actionRoll g cs n action) := by
  match action with
  | .eval e | .return_ e =>
    exact (eval_makes hi e).followed fun _ => .pure _
  | .assign t e =>
    exact (eval_makes hi e).bind fun v => (assign_makes hi t v).followed fun _ => .pure _
  | .branch c bd orelse =>
    refine (eval_makes hi c).bind fun v => .decided fun holds => ?_
    cases holds with
    | true => exact block_makes hi bd
    | false => exact block_makes hi orelse
  | .loop c bd =>
    have hc := (eval_makes hi c).followed fun v => .of (quiet_lockstep.truthy v)
    exact whileLoop_makes hc (block_makes hi bd) n
  | .iterate t e bd =>
    refine (eval_makes hi e).bind fun v => .given fun es => ?_
    exact forLoop_makes (beginRound_makes hi _ t) (block_makes hi bd) _ es
  | .define _ | .break_ | .continue_ | .import_ _ | .fromImport _ _ | .startFrame _ _ | .childSet _ | .endFrame
  | .endLoop => exact .indifferent n rfl

end

end

theorem invoke_makes (n k : Nat) : (Eval.invoke n k).Makes (invokeRoll n k) := by
  induction k with
  | zero => exact fun _ _ _ => .quiet (.throw _)
  | succ k ih =>
    intro c as ks m
    rw [Eval.invoke, invokeRoll]
    cases hb : c.bind as ks with
    | error e =>
      rw [after, callWith_error hb]
      exact .quiet (.refl m)
    | ok ls =>
      obtain ⟨t, he, hf⟩ := callWith_after (execBlock (Eval.invoke n k) n) hb m
      have hbo := block_makes n ih (c.body (m.traces c)) (m.called c ls)
      -- the call itself comes first, then those of its body; its end files nothing
      have hc := Begins.call (a := ⟨c, ls, m⟩) (.refl m) (hbo.after hf)
      rwa [← he] at hc

end Playback
