import Playback.Proofs.Reach
import Playback.Proofs.Trees

/-!
# What is written and what is recorded

Output that is written is pending until a value is recorded, which takes it; nothing gets lost, doubled or out of order
on the way (`pending_applyAll`). A running program writes with the same operation to its output and to the trace
(`Records`), so its output is at all times what was recorded and what is pending.
-/

namespace Playback

open Eval List

variable {m m' : Machine} {α : Type}

variable {m0 : Machine}

namespace Trace

def Entry.output : Entry → List String
  | .frame _ => []
  | .result _ _ _ output => output
  | .exception _ _ => []

/-- The text that an operation writes, unless it is empty. -/
def Step.text? : Step → Option String
  | .write text => if text.isEmpty then none else some text
  | _ => none

def texts (steps : List Step) : List String :=
  steps.filterMap Step.text?

/-! ## Operations one after the other -/

section

variable (t : Trace) (steps steps' : List Step)

theorem applyAll_append : t.applyAll (steps ++ steps') = (t.applyAll steps).applyAll steps' :=
  foldl_append ..

theorem texts_append : texts (steps ++ steps') = texts steps ++ texts steps' :=
  filterMap_append ..

theorem texts_cons (s : Step) : texts (s :: steps) = s.text?.toList ++ texts steps := by
  unfold texts
  rw [filterMap_cons]
  split <;> simp [*]

end

theorem pending_keepException (t : Trace) (e : LastException) : (t.keepException e).pending = t.pending := by
  unfold Trace.keepException
  split <;> rfl

theorem pending_endFrame (t : Trace) : t.endFrame.pending = t.pending := by
  unfold Trace.endFrame
  split <;> rfl

theorem pending_taken (t : Trace) (k : Option Kind) (s type : String) : t.pending.toList ++ []
      = [Entry.result k s type t.pending.toList].flatMap Entry.output ++ (#[] : Array String).toList := by
  simp [Entry.output]

/-- What was pending and what an operation writes is what the operation records and what is pending then. -/
theorem pending_apply (t : Trace) (step : Step) : t.pending.toList ++ step.text?.toList
      = (step.notes t).flatMap Entry.output ++ (t.apply step).pending.toList := by
  cases step with
  | startFrame kind set =>
    simp only [apply, Trace.startFrame?]
    split <;> exact append_nil _
  | logAndStart kind set text type =>
    simp only [apply, Step.notes, Trace.logAndStart?, Trace.startFrame?]
    split
    · exact append_nil _
    · exact t.pending_taken none text type
  | logAndEnd kind _ text type => exact t.pending_taken (some kind) text type
  | log kind text type => exact t.pending_taken kind text type
  | beginCall | startDetached | turn => exact append_nil _
  | endFrame => exact (append_nil _).trans (congrArg Array.toList t.pending_endFrame.symm)
  | endLoop | unwindTo => exact append_nil _
  | write text =>
    simp only [apply, Step.text?, Trace.write]
    split
    · exact append_nil _
    · exact Array.toList_push.symm
  | logException type message => exact append_nil _
  | logUncaught type message =>
    have hp := pending_keepException (t.logException type message) { type, message }
    exact (append_nil _).trans (congrArg Array.toList hp.symm)
  | logCallException type message index line _ =>
    have hp := pending_keepException (t.logException type message)
      { type, message, frameNumber := some index, lineNumber := some line }
    exact (append_nil _).trans (congrArg Array.toList hp.symm)

/-- **Output is neither lost nor doubled nor put out of order**: what was pending and what operations write is, in this
order, what the recorded values take and what is pending in the end. -/
theorem pending_applyAll (t : Trace) (steps : List Step) : t.pending.toList ++ texts steps
      = (allNotes t steps).flatMap Entry.output ++ (t.applyAll steps).pending.toList := by
  induction steps generalizing t with
  | nil => exact append_nil _
  | cons s r ih =>
    calc t.pending.toList ++ texts (s :: r)
      _ = (t.pending.toList ++ s.text?.toList) ++ texts r := by rw [texts_cons, append_assoc]
      _ = (s.notes t).flatMap Entry.output ++ ((t.apply s).pending.toList ++ texts r) := by
        rw [pending_apply, append_assoc]
      _ = (s.notes t).flatMap Entry.output ++ ((allNotes (t.apply s) r).flatMap Entry.output
            ++ ((t.apply s).applyAll r).pending.toList) := by rw [ih]
      _ = _ := by rw [← append_assoc, ← flatMap_append]; rfl

end Trace

open Trace (Step texts)

/-! ## What a machine does to its trace -/

variable {x : Eval α}

/-- From one state to another, a machine makes operations on its trace, in which calls are filed as they are
counted, and writes what they write. The keys in its heap change one by one. -/
structure Machine.Performs (steps : List Step) (m m' : Machine) : Prop where
  trace : m'.trace = m.trace.applyAll steps
  regular : m.trace.Regular steps
  output : m'.output = m.output ++ String.join (texts steps)
  heap : m.heap.Passes m'.heap

namespace Machine.Performs

variable {steps : List Step}

theorem nothing (ht : m'.trace = m.trace) (ho : m'.output = m.output) (hh : m.heap.Passes m'.heap) :
    m.Performs [] m' :=
  ⟨ht, .nil _, ho.trans (String.append_empty).symm, hh⟩

theorem refl (m : Machine) : m.Performs [] m :=
  nothing rfl rfl .refl

theorem trans (h : m.Performs steps m') (h' : m'.Performs steps' m'') : m.Performs (steps ++ steps') m'' where
  trace := by rw [h'.trace, h.trace, Trace.applyAll_append]
  regular := h.regular.append (h.trace ▸ h'.regular)
  output := by rw [h'.output, h.output, Trace.texts_append, String.join_append, String.append_assoc]
  heap := h.heap.trans h'.heap

theorem silent (hs : texts steps = []) (hr : m.trace.Regular steps) (ht : m'.trace = m.trace.applyAll steps)
    (ho : m'.output = m.output) (hh : m.heap.Passes m'.heap) : m.Performs steps m' where
  trace := ht
  regular := hr
  output := by
    rw [hs, ho]
    exact String.append_empty.symm
  heap := hh

theorem step (s : Step) (hs : s.text? = none ∧ s.beginsCall = false) (ht : m'.trace = m.trace.apply s)
    (ho : m'.output = m.output) (hh : m.heap.Passes m'.heap) : m.Performs [s] m' := by
  refine silent ?_ (.other hs.2 (.nil _)) ht ho hh
  rw [Trace.texts_cons, hs.1]
  rfl

theorem write (m : Machine) (t : String) : m.Performs [.write t] (m.write t) where
  trace := rfl
  regular := .other rfl (.nil _)
  output := by
    rw [Trace.texts_cons, Trace.Step.text?]
    split
    · rename_i he
      rw [String.isEmpty_iff.1 he]
      rfl
    · simp [Machine.write, texts]
  heap := .refl

theorem setLine (m : Machine) (l : Nat) : m.Performs [] (m.setLine l) := by
  unfold Machine.setLine
  split <;> exact nothing rfl rfl .refl

theorem setVariable (m : Machine) (x : String) (v : Value) : m.Performs [] (m.setVariable x v) := by
  unfold Machine.setVariable
  split <;> exact nothing rfl rfl .refl

theorem startFrame (hf : m.trace.isFull = false) (k : Trace.Kind) (set : String) :
    m.Performs [.startFrame k set] { m with trace := m.trace.addFrame k set } := by
  refine step _ ⟨rfl, rfl⟩ ?_ rfl .refl
  simp [Trace.apply, Trace.startFrame?, hf]

end Machine.Performs

/-! ## The beginning of a call -/

def Machine.calling (m : Machine) (cd : FunctionCode) : List Step :=
  if m.traces cd then [.beginCall cd.id, .startDetached .functionCall "body" cd.id] else [.beginCall cd.id]

section

variable {cd : FunctionCode}

theorem Machine.called_performs (m : Machine) (cd : FunctionCode) (ls : Scope) :
    m.Performs (m.calling cd) (m.called cd ls) := by
  unfold Machine.calling Machine.called
  cases ht : m.traces cd with
  | true => exact .silent rfl (.traced (of_decide_eq_true ht) (.nil _)) rfl rfl .refl
  | false =>
    exact .silent rfl (.skipped (Nat.le_of_not_lt (of_decide_eq_false ht)) (.nil _)) rfl rfl .refl

/-- The frame of a traced call has the place on file that the number of calls before it says. -/
theorem Machine.callsOf_called (hc : m.trace.Counted) (ht : m.traces cd = true) (ls : Scope) :
    ((m.called cd ls).trace.callsOf cd.id)[m.trace.invocations cd.id]? = some m.trace.frames.size := by
  have hli : m.trace.invocations cd.id < m.trace.callLimit := of_decide_eq_true ht
  have hl := hc cd.id
  rw [Nat.min_eq_left (Nat.le_of_lt hli)] at hl
  have hca : (m.called cd ls).trace.callsOf cd.id = m.trace.callsOf cd.id ++ [m.trace.frames.size] := by
    unfold Machine.called
    rw [if_pos ht, Trace.callsOf_startDetached, Trace.callsOf_beginCall, if_pos rfl]
    rfl
  rw [hca, ← hl, getElem?_append_right (Nat.le_refl _), Nat.sub_self]
  rfl

end

/-! ## Code -/

theorem Value.Holds.any (v : Value) : v.Holds fun _ => True :=
  fun _ _ => trivial

theorem Heap.Holds.any (heap : Heap) : heap.Holds fun _ => True :=
  have hn : ¬Demanding fun _ => True := fun ⟨_, h⟩ => h trivial
  ⟨fun _ _ _ => .any _, fun _ => ⟨hn.elim, fun _ _ => ⟨hn.elim, .any _, .any _⟩⟩,
    fun _ => ⟨hn.elim, fun _ _ => ⟨hn.elim, .any _⟩⟩⟩

theorem Elements.Holds.any (es : Elements) : es.Holds fun _ => True := by
  cases es with
  | items _ => exact fun _ _ => .any _
  | range r => trivial

theorem MachineRelation.free {r : Machine → Machine → Prop} (refl : ∀ m, r m m)
    (trans : ∀ {m m1 m2}, r m m1 → r m1 m2 → r m m2) : MachineRelation (fun _ => True) (fun _ => True) r where
  refl {m} _ := refl m
  trans := trans
  keeps _ _ := trivial
  heap {m} _ := .any m.heap
  value _ _ := fun v _ => .any v

/-- A computation does nothing to the trace but operations, writes what they write, and gives values that are as
said. -/
abbrev RecordsTo {α : Type} (x : Eval α) (q : α → Prop) : Prop :=
  Affects (fun _ => True) (fun m m' => ∃ steps, m.Performs steps m') x q

theorem machineRelation_performs :
    MachineRelation (fun _ => True) (fun _ => True) fun m m' => ∃ steps, m.Performs steps m' := by
  refine .free (fun m => ⟨[], .refl m⟩) ?_
  rintro _ _ _ ⟨_, hs⟩ ⟨_, hm⟩
  exact ⟨_, hs.trans hm⟩

/-- Of the operations that running code is made of, none does more to the trace. Nothing is asked of functions. -/
theorem recordsTo_lockstep : Lockstep (fun _ => True) fun x _ q => RecordsTo x q where
  toEvaluates := Affects.evaluates machineRelation_performs (fun _ _ hh => ⟨[], .nothing rfl rfl hh⟩)
    (fun text _ => ⟨[.write text], .write _ text⟩) fun _ _ _ => ⟨[], .nothing rfl rfl .refl⟩
  store name v _ _ := .change fun {m} _ => ⟨[], .setVariable m name v⟩
  setLine line := .change fun {m} _ => ⟨[], .setLine m line⟩
  startFrame kind set := .startFrame machineRelation_performs kind set fun _ hf => ⟨_, .startFrame hf kind set⟩
  report step hs := by
    refine .change fun _ => ⟨[step], .step step ?_ rfl rfl .refl⟩
    cases step <;> first | exact ⟨rfl, rfl⟩ | cases hs

/-- A computation does nothing to the trace but operations, and writes what they write. -/
def Records {α : Type} (x : Eval α) : Prop :=
  ∀ m : Machine, ∃ steps, m.Performs steps (Eval.after x m)

theorem Affects.records (h : RecordsTo x q) : Records x :=
  fun _ => h.after trivial

theorem Records.to (h : Records x) : RecordsTo x fun _ => True :=
  ⟨fun {m} _ => h m, fun _ _ => trivial⟩

/-- Calling a function does nothing to the trace but operations. -/
def Invoke.Records (iv : Invoke) : Prop :=
  ∀ cd args keywords, Playback.Records (iv cd args keywords)

theorem Invoke.Records.calls (h : iv.Records) : Lockstep.Calls (fun _ => True) (fun x _ q => RecordsTo x q) iv iv :=
  fun cd as ks _ _ _ => ⟨fun {m} _ => h cd as ks m, fun _ _ => .any _⟩

namespace Records

theorem eval (hi : iv.Records) (e : Expr) : Records (eval iv e) :=
  ((recordsTo_lockstep).eval hi.calls e (.inr (recordsTo_lockstep).toAlongside)).records

theorem evalAll (hi : iv.Records) (es : List Expr) : Records (evalAll iv es) :=
  ((recordsTo_lockstep).evalAll hi.calls es (.inr (recordsTo_lockstep).toAlongside)).records

theorem assign (hi : iv.Records) (t : Target) (v : Value) : Records (assign iv t v) :=
  ((recordsTo_lockstep).assign hi.calls t (.inr (recordsTo_lockstep).toAlongside) (fun _ _ => trivial) (.any v)).records

theorem whileLoop {x : Eval Flow} (hc : RecordsTo c fun _ => True)
    (hb : RecordsTo x (·.result.Holds fun _ => True)) (rounds : Nat) : Records (whileLoop c x rounds) :=
  ((recordsTo_lockstep).whileLoop (d := c) (y := x) hc hb (fun _ => Flow.afterRound_holds) (by rintro _ ⟨⟩)
    rounds).records

theorem forLoop {x : Eval Flow} (hb : ∀ v, RecordsTo (f v) fun _ => True)
    (hbo : RecordsTo x (·.result.Holds fun _ => True)) (n : Nat) (es : Elements) : Records (forLoop f x n es) :=
  ((recordsTo_lockstep).forLoop (g := f) (y := x) (fun v _ => hb v) hbo (fun _ => Flow.afterRound_holds)
    (by rintro _ ⟨⟩) n (.any es)).records

theorem beginRound (hi : iv.Records) (f : Option (Trace.Kind × String)) (t : Target) (v : Value) :
    Records (beginRound iv f t v) :=
  ((recordsTo_lockstep).beginRound hi.calls f t (fun _ _ => trivial) (.any v)).records

theorem execBlock (hi : iv.Records) (rounds : Nat) (is : List Instr) : Records (execBlock iv rounds is) :=
  ((recordsTo_lockstep).execBlock hi.calls rounds is (fun _ _ => trivial) fun _ _ => trivial).records

/-! ## Calls -/

variable {β : Type} {x : Eval α}

theorem pure (a : α) : Records (Pure.pure a : Eval α) :=
  fun m => ⟨[], .refl m⟩

theorem throw (halt : Halt) : Records (MonadExcept.throw halt : Eval α) :=
  fun m => ⟨[], .refl m⟩

theorem bind {f : α → Eval β} (hx : Records x) (hf : ∀ a, Records (f a)) : Records (x >>= f) :=
  (Affects.bind machineRelation_performs hx.to fun a _ => (hf a).to).records

theorem onTrace (s : Step) (hs : s.text? = none ∧ s.beginsCall = false)
    (hf : ∀ t, f t = t.apply s) : Records (onTrace f) := by
  intro m
  exact ⟨[s], .step s hs (hf m.trace) rfl .refl⟩

theorem attempt (hx : Records x) : Records (Eval.attempt x) := by
  intro m
  obtain ⟨steps, hs⟩ := hx m
  refine ⟨steps, ?_⟩
  unfold Eval.after Eval.attempt at *
  cases hr : x m with
  | ok | error => rwa [hr] at hs

theorem popCall : Records popCall := by
  intro m
  refine ⟨[], ?_⟩
  obtain ⟨l, hp⟩ := popCall_eq m
  rw [Eval.after, hp]
  exact .nothing rfl rfl .refl

theorem endCall (t : Bool) (i l d : Nat) (o : Except Halt Flow) : Records (Eval.endCall t i l d o) := by
  unfold Eval.endCall
  split
  · cases t with
    | true => exact (onTrace (.unwindTo d) ⟨rfl, rfl⟩ fun _ => rfl).bind fun _ => .pure _
    | false => exact .pure _
  · rename_i e
    cases t with
    | true =>
      have hl := onTrace (.logCallException e.kind.name e.message i l d) ⟨rfl, rfl⟩ fun _ => rfl
      exact hl.bind fun _ => .throw _
    | false => exact .throw _
  · exact .throw _

variable {run : List Instr → Eval Flow}

theorem runCall (hr : ∀ is, Records (run is)) (cd : FunctionCode) (t : Bool) (i d : Nat) :
    Records (runCall run cd t i d) :=
  (hr _).attempt.bind fun _ => popCall.bind fun _ => endCall _ _ _ _ _

theorem callWith (hr : ∀ is, Records (run is)) (cd : FunctionCode) (as : List Value) (ks : Keywords) :
    Records (callWith run cd as ks) := by
  intro m
  cases hb : cd.bind as ks with
  | error e =>
    refine ⟨[], ?_⟩
    unfold Eval.after
    rw [callWith_error hb]
    exact .refl m
  | ok ls =>
    obtain ⟨_, hs⟩ := runCall hr cd (m.traces cd) (m.trace.invocations cd.id) m.trace.depth (m.called cd ls)
    unfold Eval.after at hs ⊢
    rw [← callWith_ok hb] at hs
    exact ⟨_, (m.called_performs cd ls).trans hs⟩

end Records

theorem invoke_records (rounds k : Nat) : (Eval.invoke rounds k).Records := by
  induction k with
  | zero => exact fun _ _ _ => .throw _
  | succ k ih => exact fun cd as ks => .callWith (fun is => .execBlock ih rounds is) cd as ks

/-! ## Runs -/

def Task.run (rounds room : Nat) : Task → Eval Unit
  | .block _ _ is => discard (Eval.execBlock (Eval.invoke rounds room) rounds is)
  | .loop _ _ c body =>
    discard (Eval.whileLoop (do Eval.truthy (← Eval.eval (Eval.invoke rounds room) c))
      (Eval.execBlock (Eval.invoke rounds room) rounds body) rounds)
  | .iterate _ _ frame t body es =>
    discard (Eval.forLoop (Eval.beginRound (Eval.invoke rounds room) frame t)
      (Eval.execBlock (Eval.invoke rounds room) rounds body) es.count es)
  | .eval e => discard (Eval.eval (Eval.invoke rounds room) e)
  | .assign t v => Eval.assign (Eval.invoke rounds room) t v
  | .call cd args keywords => discard (Eval.invoke rounds room cd args keywords)

theorem Records.discard (hx : Records x) : Records (discard x) :=
  hx.bind fun _ => .pure _

theorem Task.run_records (rounds k : Nat) (tk : Task) : Records (tk.run rounds k) := by
  have h := recordsTo_lockstep
  have hi := invoke_records rounds k
  cases tk with
  | block p b is => exact (Records.execBlock hi rounds is).discard
  | loop p b c bd =>
    have hb := h.execBlock hi.calls rounds bd (fun _ _ => trivial) fun _ _ => trivial
    exact (Records.whileLoop (h.test hi.calls c (.inr h.toAlongside)) hb rounds).discard
  | iterate p b f t bd es =>
    have hb := h.execBlock hi.calls rounds bd (fun _ _ => trivial) fun _ _ => trivial
    have hbe v := h.beginRound hi.calls f t (fun _ _ => trivial) (.any v)
    exact (Records.forLoop hbe hb _ es).discard
  | eval e => exact (Records.eval hi e).discard
  | assign t v => exact .assign hi t v
  | call cd as ks => exact (hi cd as ks).discard

/-- What comes after states that operations lead to is led to by operations as well. -/
theorem Records.after (hx : Records x) (h : ∃ steps, m0.Performs steps m)
    (ha : Eval.after x m = m') : ∃ steps, m0.Performs steps m' := by
  obtain ⟨steps, hs⟩ := h
  obtain ⟨more, hm⟩ := hx m
  exact ⟨steps ++ more, hs.trans (ha ▸ hm)⟩

theorem Records.ok (hx : Records x) (h : ∃ steps, m0.Performs steps m) (hok : x m = .ok a m') :
    ∃ steps, m0.Performs steps m' :=
  hx.after h (by rw [Eval.after, hok])

section

variable {program : Program} {rounds : Nat} {limits : Limits} {mode : Mode} {input : List String}

theorem setLine_performs (h : ∃ steps, m0.Performs steps m) (l : Nat) : ∃ steps, m0.Performs steps (m.setLine l) :=
  ((recordsTo_lockstep).setLine l).records.ok h rfl

/-- Whatever a run comes to, steps of the trace lead there. -/
theorem Reached.performs (h : Reached program rounds limits mode input k t m) :
    ∃ steps, (Machine.ready limits mode input).Performs steps m := by
  have hs := recordsTo_lockstep
  have hi := invoke_records rounds
  induction h with
  | start => exact ⟨[], .refl _⟩
  | next _ hex ih => exact (hs.exec (hi _).calls rounds _ (fun _ _ => trivial) fun _ _ => trivial).records.ok ih hex
  | value _ _ ih | loop _ ih => exact setLine_performs ih _
  | target _ he ih | branch _ he ih | iterate _ he _ ih => exact (Records.eval (hi _) _).ok (setLine_performs ih _) he
  | condition _ ih | container _ ih => exact ih
  | round _ he _ ih | index _ he ih => exact (Records.eval (hi _) _).ok ih he
  | again _ he _ hex _ ih =>
    exact (Records.execBlock (hi _) rounds _).ok ((Records.eval (hi _) _).ok ih he) hex
  | element _ _ ho ih => exact (hs.openRound _ _).records.ok ih ho
  | elementRound _ _ hb ih => exact (Records.beginRound (hi _) _ _ _).ok ih hb
  | elementAgain _ _ hb hex _ ih =>
    exact (Records.execBlock (hi _) rounds _).ok ((Records.beginRound (hi _) _ _ _).ok ih hb) hex
  | part _ _ he ih => exact (Records.evalAll (hi _) _).ok ih he
  | unpacked _ _ ha ih =>
    exact (hs.assignAll (hi _).calls _ (.inr hs.toAlongside) (fun _ _ => trivial) _ fun _ _ => .any _).records.ok ih ha
  | call _ hf har hk ih =>
    have hc := (Records.eval (hi _) _).ok ih hf
    have hvs := (Records.evalAll (hi _) _).ok hc har
    exact (hs.evalKeywords (hi _).calls _ (.inr hs.toAlongside)).records.ok hvs hk
  | @body _ cd _ _ ls _ _ m _ _ ht ih =>
    obtain ⟨_, hp⟩ := ih
    cases ht
    exact ⟨_, hp.trans (m.called_performs cd ls)⟩

def Machine.HasHistory (limits : Limits) (m : Machine) (steps : List Step) : Prop :=
  m.trace = (Trace.start limits).applyAll steps ∧ m.output = String.join (texts steps)

theorem Machine.output_ready : (Machine.ready limits mode input).output = "" := by
  unfold Machine.ready
  cases mode with
  | command => rfl
  | scheduled => rfl
  | request _ =>
    dsimp only
    split <;> rfl

theorem Machine.Performs.hasHistory
    (h : (Machine.ready limits mode input).Performs steps m) : m.HasHistory limits steps := by
  obtain ⟨-, -, ht, -⟩ := Machine.sound_ready (p := fun _ => True) limits mode input
  refine ⟨h.trace.trans (by rw [ht]), h.output.trans ?_⟩
  rw [Machine.output_ready, String.empty_append]

theorem Machine.Performs.arena (h : m.Performs steps m') (hm : m.trace.Arena) : m'.trace.Arena := by
  rw [h.trace]
  exact hm.moves (m.trace.moves_applyAll steps)

theorem Machine.ready_arena (limits : Limits) (mode : Mode) (input : List String) :
    (Machine.ready limits mode input).trace.Arena := by
  rw [(Machine.sound_ready (p := fun _ => True) limits mode input).2.2.1]
  exact .start limits

theorem Reached.arena (h : Reached program rounds limits mode input k t m) : m.trace.Arena := by
  obtain ⟨_, hp⟩ := h.performs
  exact hp.arena (Machine.ready_arena limits mode input)

theorem Trace.notes_applyAll (limits : Limits) (steps : List Step) :
    let t := (Trace.start limits).applyAll steps
    t.record.notes.Perm ((Trace.allNotes (Trace.start limits) steps).map (Trace.entryRecord t.frame)) := by
  have hm := (Trace.start limits).moves_applyAll steps
  have hn := ((Trace.Arena.start limits).moves hm).notes_record
  exact hn.trans ((Trace.noted_of_moves hm).map _)

/-- What a run leaves comes of operations. -/
theorem Program.run_history (hrun : Program.run program rounds limits mode input = some execution) :
    ∃ steps, execution.record = ((Trace.start limits).applyAll steps).record
      ∧ execution.output = String.join (texts steps) := by
  obtain ⟨steps, hsteps⟩ := Records.execBlock (invoke_records rounds limits.recursion) rounds program.body
    (Machine.ready limits mode input)
  unfold Eval.after at hsteps
  unfold Program.run at hrun
  dsimp only at hrun
  split at hrun
  · rename_i m hok
    cases hrun
    rw [hok] at hsteps
    obtain ⟨htrace, houtput⟩ := hsteps.hasHistory
    exact ⟨steps, congrArg Trace.record htrace, houtput⟩
  · rename_i fault m hraised
    cases hrun
    rw [hraised] at hsteps
    have huncaught : m.Performs [.logUncaught fault.kind.name fault.message]
        { m with trace := m.trace.logUncaught fault.kind.name fault.message } := .step _ ⟨rfl, rfl⟩ rfl rfl .refl
    obtain ⟨htrace, houtput⟩ := (hsteps.trans huncaught).hasHistory
    exact ⟨_, congrArg Trace.record htrace, houtput⟩
  · cases hrun
    exact ⟨[.logUncaught ExceptionKind.internal.name "capacity overflow"], rfl, rfl⟩
  · cases hrun

/-- **The record keeps output in order.** Whatever operations a trace goes through, the texts that they write are
those that the recorded values have taken, one value after the other as they were recorded, and then what is
pending; and all these values stand in the record. A running program goes through such operations: in every state
that it comes to, before and after all that it does there, what it has written is the texts of the operations so far,
and so it is with what a run leaves. -/
theorem Program.output_kept_in_order (program : Program) (rounds : Nat) (limits : Limits) (mode : Mode)
    (input : List String) : (∀ steps : List Step,
      let t := (Trace.start limits).applyAll steps
      let notes := Trace.allNotes (Trace.start limits) steps
      texts steps = notes.flatMap Trace.Entry.output ++ t.pending.toList
        ∧ t.record.notes.Perm (notes.map (Trace.entryRecord t.frame)))
    ∧ (∀ room task m, Reached program rounds limits mode input room task m → ∃ past, m.HasHistory limits past
        ∧ ∃ more, (Eval.after (task.run rounds room) m).HasHistory limits (past ++ more))
    ∧ ∀ execution, program.run rounds limits mode input = some execution →
      ∃ steps, execution.record = ((Trace.start limits).applyAll steps).record
        ∧ execution.output = String.join (texts steps) := by
  refine ⟨fun steps => ⟨?_, Trace.notes_applyAll limits steps⟩, fun room task m hreached => ?_,
    fun execution hrun => ?_⟩
  · exact (Trace.start limits).pending_applyAll steps
  · obtain ⟨past, hpast⟩ := hreached.performs
    obtain ⟨more, hmore⟩ := task.run_records rounds room m
    exact ⟨past, hpast.hasHistory, more, (hpast.trans hmore).hasHistory⟩
  · exact Program.run_history hrun

end

/-- Writes a letter, asks for a line and takes it in. -/
def askTwice : Program where
  body :=
    [.at 1 (.eval (.log (some .expression) (.call (.name "print") [.const (.string "a")] []))),
      .at 2 (.eval (.call (.name "input") [.const (.string "b")] []))]

/-- The letter is recorded with its end of line, and the question is pending. -/
theorem output_kept_in_order_askTwice :
    Reached askTwice 1 {} .command ["c"] 1000 (.block { inLoop := false, inFunction := false } true askTwice.body)
        (Machine.ready {} .command ["c"])
      ∧ (∃ steps, (Eval.after (Eval.execBlock (Eval.invoke 1 1000) 1 askTwice.body)
        (Machine.ready {} .command ["c"])).HasHistory {} steps)
      ∧ (Eval.after (Eval.execBlock (Eval.invoke 1 1000) 1 askTwice.body)
        (Machine.ready {} .command ["c"])).output = "a\nb" := by
  obtain ⟨-, hreached, -⟩ := Program.output_kept_in_order askTwice 1 {} .command ["c"]
  obtain ⟨_, -, _, hmore⟩ := hreached _ _ _ .start
  exact ⟨.start, ⟨_, hmore⟩, rfl⟩

end Playback
