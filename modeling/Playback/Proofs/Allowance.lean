import Playback.Proofs.Rounds
import Playback.Proofs.Statements

/-!
# What the limit on iterations allows

A traced loop opens a frame for each of its rounds, and one more for a condition that fails. Each whole round adds one
entry to the frame of the loop (`Task.Repeats.filled`), so under a limit of `n` the frame that a loop asks for after `k`
whole rounds is opened exactly if `k ≤ n`. The body of a loop is then run `n + 1` times at most, and a loop that takes
no more than `n` rounds is never stopped on its own account (`Script.iterations_allowed`). In a record, frames are among
the first `n + 1` entries of every child set, because every operation on a trace keeps to this (`Trace.Early.apply`).
-/

namespace Playback

namespace Trace

/-! ## Child sets -/

/-- In each of these child sets, frames are among the first `n + 1` entries. -/
def SetsEarly (n : Nat) (ss : List (String × Array Entry)) : Prop :=
  ∀ set ∈ ss, ∀ i id : Nat, set.2[i]? = some (.frame id) → i ≤ n

/-- In each child set of a recorded frame, frames are among the first `n + 1` entries. -/
def FrameRecord.Early (n : Nat) (r : FrameRecord) : Prop :=
  ∀ set ∈ r.sets, ∀ (i : Nat) (inner : FrameRecord), set.2[i]? = some (.frame inner) → i ≤ n

section

variable {n : Nat} {en : Entry} {x : String}

theorem setsEarly_push {es : Array Entry} (h : ∀ i id : Nat, es[i]? = some (.frame id) → i ≤ n)
    (he : en.frame? = none ∨ es.size ≤ n) : ∀ i id : Nat, (es.push en)[i]? = some (.frame id) → i ≤ n := by
  intro i id hi
  rw [Array.getElem?_push] at hi
  split at hi
  · rename_i hl
    cases hi
    rcases he with hn | _
    · cases hn
    · omega
  · exact h i id hi

theorem SetsEarly.appendEntry (h : SetsEarly n ss) (he : en.frame? = none ∨ ((ss.lookup x).map Array.size).getD 0 ≤ n) :
    SetsEarly n (appendEntry x en ss) := by
  rw [appendEntry_eq]
  refine forall_alter (P := fun es => ∀ i id : Nat, es[i]? = some (.frame id) → i ≤ n) x ss h (by simp)
    fun hs => setsEarly_push hs (he.imp_right ?_)
  cases ss.lookup x with
  | none => exact id
  | some _ => exact id

theorem SetsEarly.ensureSet (h : SetsEarly n ss) (x : String) : SetsEarly n (ensureSet x ss) := by
  rw [ensureSet_eq]
  exact forall_alter (P := fun es => ∀ i id : Nat, es[i]? = some (.frame id) → i ≤ n) x ss h (by simp) fun hs => hs

end

/-! ## Traces -/

/-- In every child set of a trace, frames are among the first `n + 1` entries. -/
def Early (n : Nat) (t : Trace) : Prop :=
  ∀ (id : Nat) (f : Frame), t.frames[id]? = some f → SetsEarly n f.sets

namespace Early

variable {n : Nat} {t t' : Trace}

theorem start (n : Nat) (l : Limits) : (Trace.start l).Early n := by
  intro id f hf
  cases id with
  | zero =>
    cases hf
    exact List.forall_mem_singleton.2 (by simp)
  | succ id => cases hf

theorem of_frames (h : t.Early n) (hf : t'.frames = t.frames) : t'.Early n := by
  unfold Early
  rw [hf]
  exact h

theorem modify (h : t.Early n)
    (hc : ∀ f, t.frames[t.top]? = some f → SetsEarly n f.sets → SetsEarly n (change f).sets) :
    Early n { t with frames := t.frames.modify t.top change } := by
  intro id f hf
  rw [Array.getElem?_modify] at hf
  split at hf
  · rename_i ht
    obtain ⟨g, hg, rfl⟩ := Option.map_eq_some_iff.1 hf
    exact hc g (ht ▸ hg) (h id g hg)
  · exact h id f hf

theorem note (h : t.Early n) (he : en.frame? = none) : (t.push en).Early n :=
  h.modify fun _ _ hs => hs.appendEntry (.inl he)

theorem turn (h : t.Early n) (set : String) : (t.turn set).Early n :=
  h.modify fun _ _ hs => hs.ensureSet set

theorem openFrame (h : t.Early n) (kd : Kind) (set : String) : (t.openFrame kd set).Early n := by
  intro id f hf
  change (t.frames.push (Frame.open kd set))[id]? = some f at hf
  rw [Array.getElem?_push] at hf
  split at hf
  · cases hf
    exact List.forall_mem_singleton.2 (by simp)
  · exact h id f hf

theorem addFrame (h : t.Early n) (hl : t.iterationLimit = some n) (hfu : t.isFull = false) (kd : Kind)
    (set : String) : (t.addFrame kd set).Early n := by
  refine openFrame (h.modify fun f hf hs => hs.appendEntry (.inr ?_)) kd set
  have hsi : t.topFrame.activeSize ≤ n := by
    rw [isFull, hl] at hfu
    exact Nat.not_lt.1 (of_decide_eq_false hfu)
  rwa [topFrame, hf] at hsi

theorem logResult (h : t.Early n) (kd : Option Kind) (s type : String) : (t.logResult kd s type).Early n :=
  note h rfl

theorem keepException (h : t.Early n) (e : LastException) : (t.keepException e).Early n := by
  unfold Trace.keepException
  split
  · exact h
  · exact h

/-- **Operations keep frames early.** -/
theorem apply (h : t.Early n) (hl : t.iterationLimit = some n) (st : Step) : (t.apply st).Early n := by
  cases st with
  | startFrame kd set =>
    simp only [Trace.apply, Trace.startFrame?]
    split
    · exact h
    · rename_i hf
      exact h.addFrame hl (Bool.eq_false_iff.2 hf) kd set
  | logAndStart kd set s type =>
    simp only [Trace.apply, Trace.logAndStart?, Trace.startFrame?]
    split
    · exact h
    · rename_i hf
      exact (h.addFrame hl (Bool.eq_false_iff.2 hf) kd set).logResult none s type
  | logAndEnd kd _ s type => exact (h.logResult (some kd) s type).of_frames rfl
  | log kd s type => exact h.logResult kd s type
  | beginCall | endLoop | unwindTo => exact h.of_frames rfl
  | startDetached kd set _ => exact (h.openFrame kd set).of_frames rfl
  | turn set => exact h.turn set
  | endFrame => exact h.of_frames t.endFrame_frames
  | write s =>
    simp only [Trace.apply, Trace.write]
    split
    · exact h
    · exact h.of_frames rfl
  | logException type msg => exact h.note rfl
  | logUncaught type msg => exact (h.note rfl).keepException _
  | logCallException type msg i _ d => exact ((h.note rfl).keepException _).of_frames rfl

theorem applyAll (h : t.Early n) (hl : t.iterationLimit = some n) (sts : List Step) : (t.applyAll sts).Early n := by
  induction sts generalizing t with
  | nil => exact h
  | cons s r ih => exact ih (h.apply hl s) ((t.apply_keeps s).2.1.trans hl)

theorem record (h : t.Early n) (ht : t.Arena) : ∀ r ∈ t.record.frames, r.Early n := by
  intro r hr _ hs i inn hi
  obtain ⟨id, hid, rfl, -⟩ := ht.mem_frames hr
  have hf : t.frames[id]? = some t.frames[id] := Array.getElem?_eq_getElem hid
  rw [ht.frame_eq hf] at hs
  obtain ⟨⟨x, _⟩, he, rfl⟩ := List.mem_map.1 hs
  rw [List.getElem?_map] at hi
  obtain ⟨en, _, hfr⟩ := Option.map_eq_some_iff.1 hi
  cases en with
  | frame inn => exact h id _ hf _ he i inn (by rwa [← Array.getElem?_toList])
  | result | exception => cases hfr

end Early

end Trace

theorem Trace.early_record {l : Limits} (hl : l.iterations = some n) (sts : List Trace.Step) :
    ∀ r ∈ ((Trace.start l).applyAll sts).record.frames, r.Early n := by
  have hm := (Trace.start l).moves_applyAll sts
  exact (Trace.Early.applyAll (.start n l) hl sts).record ((Trace.Arena.start l).moves hm)

open Eval
open Lower (Place)

/-! ## The rounds of a loop -/

/-- A traced loop takes another round in: its body is to be run, and then what is left of the loop. -/
inductive Task.Enters (invoke : Invoke) : Task → Machine → List Instr → Task → Machine → Prop where
  | condition : Eval.eval invoke c m = .ok v m₁ → m₁.heap.truthy v = true →
    Enters invoke (.loop place true c body) m body (.loop place true c body) m₁
  | element : es.next? = some (v, rest) → Eval.beginRound invoke frame t v m = .ok () m₁ →
    Enters invoke (.iterate place true frame t body es) m body (.iterate place true frame t body rest) m₁

/-- A traced loop asks for the frame of a round: its condition has a value, or there is another element. -/
inductive Task.Asks (invoke : Invoke) : Task → Machine → Trace.Kind → String → Machine → Prop where
  | condition {set : String} :
    Eval.eval invoke c m = .ok v m₁ → Asks invoke (.loop place true (.logStart kind set c) body) m kind set m₁
  | element {set : String} :
    es.next? = some (v, rest) → Asks invoke (.iterate place true (some (kind, set)) t body es) m kind set m

/-- A loop goes through so many whole rounds, and on after each of them. -/
inductive Task.Repeats (invoke : Invoke) (rounds : Nat) (task : Task) (m : Machine) : Nat → Task → Machine → Prop where
  | none : Repeats invoke rounds task m 0 task m
  | again : Repeats invoke rounds task m k task1 m₁ → task1.Enters invoke m₁ body task2 m₂ →
    Eval.execBlock invoke rounds body m₂ = .ok flow m₃ → flow.repeats = true →
    Repeats invoke rounds task m (k + 1) task2 m₃

/-- Traced code comes to a loop, whose rounds begin. -/
inductive LoopBegins (program : Program) (rounds : Nat) (limits : Limits) (mode : Mode) (input : List String)
    (room : Nat) : Task → Machine → Prop where
  | loop : Reached program rounds limits mode input room (.block place true (.at line (.loop c body) :: is)) m →
    LoopBegins program rounds limits mode input room (.loop place true c body) (m.setLine line)
  | iterate : Reached program rounds limits mode input room (.block place true (.at line (.iterate t e body) :: is)) m →
    Eval.eval (Eval.invoke rounds room) e (m.setLine line) = .ok v m₁ → m₁.heap.elements v = .ok es →
    LoopBegins program rounds limits mode input room (.iterate place true (Eval.roundFrame? e) t body es) m₁

/-! ## The frame of the loop -/

theorem Eval.startFrame_granted {set : String} : (∃ m₁, startFrame k set m = .ok () m₁) ↔ m.trace.isFull = false := by
  rw [startFrame_eq]
  cases m.trace.isFull with
  | false => exact ⟨fun _ => rfl, fun _ => ⟨_, rfl⟩⟩
  | true => exact ⟨nofun, nofun⟩

section

variable {script : Script} {program : Program} (hcompile : script.compile = .ok program) {rounds room : Nat}
  {limits : Limits} {mode : Mode} {input : List String} {task task' : Task} {m m' : Machine}

include hcompile

theorem LoopBegins.unfilled (h : LoopBegins program rounds limits mode input room task m) :
    Reached program rounds limits mode input room task m ∧ m.filled = 0 := by
  cases h with
  | loop h =>
    refine ⟨.loop h, ?_⟩
    rw [Machine.filled_setLine, (Ready.first (h.fine hcompile).fits).2 rfl]
  | iterate h hev hes =>
    have hf := (h.fine hcompile).fits
    obtain ⟨-, ⟨e, he, hi⟩, -⟩ := hf.expects
    refine ⟨.iterate h hev hes, ?_⟩
    rw [hi] at hev
    rw [(Reached.value h rfl).eval_filled hcompile he hev, Machine.filled_setLine, (Ready.first hf).2 rfl]

/-- **Each whole round adds one entry to the frame of the loop.** -/
theorem Task.Repeats.filled {k : Nat} (hm : Reached program rounds limits mode input room task m)
    (h : task.Repeats (Eval.invoke rounds room) rounds m k task' m') :
    Reached program rounds limits mode input room task' m' ∧ m'.filled = m.filled + k := by
  induction h with
  | none => exact ⟨hm, rfl⟩
  | again _ hen he hf ih =>
    obtain ⟨hr, hfi⟩ := ih
    cases hen with
    | condition hev ht =>
      refine ⟨.again hr hev ht he hf, ?_⟩
      rw [hr.again_filled hcompile hev he hf, hfi, Nat.add_assoc]
    | element hn hb =>
      refine ⟨.elementAgain hr hn hb he hf, ?_⟩
      rw [hr.elementAgain_filled hcompile hn hb he hf, hfi, Nat.add_assoc]

/-- The frame of a round is asked for where that of the loop is the innermost, and as full as before. -/
theorem Reached.asks_full (h : Reached program rounds limits mode input room task m)
    (hl : limits.iterations = some n) {set : String}
    (ha : task.Asks (Eval.invoke rounds room) m k set m₁) : m₁.trace.isFull = decide (n < m.filled) := by
  have hf {m : Machine} (hk : m.trace.iterationLimit = some n) : m.trace.isFull = decide (n < m.filled) := by
    rw [Trace.isFull, hk]
    rfl
  cases ha with
  | @condition c _ _ _ _ _ _ _ he =>
    obtain ⟨⟨_, hc, ⟨⟩⟩, -⟩ := (h.fine hcompile).fits
    obtain ⟨_, hs⟩ := (Records.eval (invoke_records rounds room) c).ok ⟨[], .refl m⟩ he
    rw [← h.eval_filled hcompile hc he]
    exact hf (by rw [hs.trace, Trace.iterationLimit_applyAll, h.iterationLimit, hl])
  | element => exact hf (h.iterationLimit.trans hl)

theorem Reached.enters_asks (h : Reached program rounds limits mode input room task m)
    (hen : task.Enters (Eval.invoke rounds room) m b task' m') :
    ∃ k set m₁ m₂, task.Asks (Eval.invoke rounds room) m k set m₁ ∧ startFrame k set m₁ = .ok () m₂ := by
  cases hen with
  | condition he =>
    obtain ⟨⟨c, -, rfl⟩, -⟩ := (h.fine hcompile).fits
    obtain ⟨v, m₁, hv, he⟩ := bind_ok he
    obtain ⟨_, m₂, hs, -⟩ := bind_ok he
    exact ⟨_, _, m₁, m₂, .condition hv, hs⟩
  | element hn hb =>
    obtain ⟨-, rfl, -⟩ := (h.fine hcompile).fits
    obtain ⟨_, m₂, hs, -⟩ := bind_ok hb
    exact ⟨_, _, m, m₂, .element hn, hs⟩

end

/-! ## The theorem -/

/-- **A limit of `n` on iterations lets every loop of traced code run its body `n + 1` times.** After `k` whole rounds
the body of a loop is entered again only if `k ≤ n`, and the frame that the loop asks for then is opened exactly if `k ≤
n`; so a loop that takes no more than `n` rounds is not stopped by its own frames. In the record of every state of a
run, and in that of the run itself, frames are among the first `n + 1` entries of each child set. -/
theorem Script.iterations_allowed {script : Script} {program : Program} (hcompile : script.compile = .ok program)
    (rounds : Nat) {limits : Limits} {n : Nat} (hlimit : limits.iterations = some n) (mode : Mode)
    (input : List String) : (∀ room task m, LoopBegins program rounds limits mode input room task m →
      ∀ k task' m', task.Repeats (Eval.invoke rounds room) rounds m k task' m' →
        (∀ body rest m₁, task'.Enters (Eval.invoke rounds room) m' body rest m₁ → k ≤ n)
        ∧ ∀ kind set m₁, task'.Asks (Eval.invoke rounds room) m' kind set m₁ →
          ((∃ m₂, Eval.startFrame kind set m₁ = .ok () m₂) ↔ k ≤ n))
    ∧ (∀ room task m, Reached program rounds limits mode input room task m → ∀ r ∈ m.trace.record.frames, r.Early n)
    ∧ ∀ execution, program.run rounds limits mode input = some execution →
      ∀ r ∈ execution.record.frames, r.Early n := by
  refine ⟨fun room task m hbegins k task' m' hrepeats => ?_, fun room task m h => ?_, fun execution hrun => ?_⟩
  · obtain ⟨hm, hempty⟩ := hbegins.unfilled hcompile
    obtain ⟨hm', hfilled⟩ := hrepeats.filled hcompile hm
    rw [hempty, Nat.zero_add] at hfilled
    have hgranted : ∀ kind set m₁, task'.Asks (Eval.invoke rounds room) m' kind set m₁ →
        ((∃ m₂, Eval.startFrame kind set m₁ = .ok () m₂) ↔ k ≤ n) := by
      intro kind set m₁ hasks
      rw [Eval.startFrame_granted, hm'.asks_full hcompile hlimit hasks, hfilled, decide_eq_false_iff_not, Nat.not_lt]
    refine ⟨fun body rest m₁ henters => ?_, hgranted⟩
    obtain ⟨kind, set, m₂, m₃, hasks, hstart⟩ := hm'.enters_asks hcompile henters
    exact (hgranted kind set m₂ hasks).1 ⟨m₃, hstart⟩
  · obtain ⟨steps, hsteps⟩ := h.performs
    rw [hsteps.hasHistory.1]
    exact Trace.early_record hlimit steps
  · obtain ⟨steps, hrecord, -⟩ := Program.run_history hrun
    rw [hrecord]
    exact Trace.early_record hlimit steps

def endless : Script :=
  [.whileLoop [.bool true] []]

def endlessLoop : Task :=
  .loop { inLoop := false, inFunction := false } true (.logStart .whileIteration "condition" (.const (.bool true)))
    (Lower.iterationBody 1 [])

def endlessCode : Program :=
  endless.code

/-- A limit of none lets `endless` go through one round, and opens no frame for a second one. -/
theorem iterations_allowed_endless :
    ∃ m m', LoopBegins endlessCode 1 { iterations := some 0 } .command [] 1000 endlessLoop m
      ∧ endlessLoop.Repeats (Eval.invoke 1 1000) 1 m 1 endlessLoop m'
      ∧ (∃ m₁, Eval.startFrame .whileIteration "condition" m = .ok () m₁)
      ∧ ¬ ∃ m₁, Eval.startFrame .whileIteration "condition" m' = .ok () m₁ := by
  have hcompile : endless.compile = .ok endlessCode := rfl
  have hcheck : Eval.endsNormally (Eval.exec (Eval.invoke 1 1000) 1 (.at 1 (.startFrame .whileLoop "frames")))
      (Machine.ready { iterations := some 0 } .command []) (fun m =>
        Eval.endsNormally (do
          let v ← Eval.eval (Eval.invoke 1 1000) (.logStart .whileIteration "condition" (.const (.bool true)))
          if ← Eval.truthy v then Eval.execBlock (Eval.invoke 1 1000) 1 (Lower.iterationBody 1 []) else return .break_)
          (m.setLine 1) fun _ => true) = true := by
    decide +kernel
  obtain ⟨m₀, hstart, hcheck⟩ := Eval.exists_of_endsNormally hcheck
  obtain ⟨m', hround, -⟩ := Eval.exists_of_endsNormally hcheck
  obtain ⟨v, m₁, heval, hround⟩ := Eval.bind_ok hround
  obtain ⟨_, _, ⟨⟩, hexec⟩ := Eval.bind_ok hround
  cases htruthy : m₁.heap.truthy v with
  | false =>
    rw [htruthy] at hexec
    cases hexec
  | true =>
    rw [htruthy] at hexec
    have hbegins : LoopBegins endlessCode 1 { iterations := some 0 } .command [] 1000 endlessLoop (m₀.setLine 1) :=
      .loop (.next .start hstart)
    have hrepeats : endlessLoop.Repeats (Eval.invoke 1 1000) 1 (m₀.setLine 1) 1 endlessLoop m' :=
      .again .none (.condition heval htruthy) hexec rfl
    have hasks (m : Machine) : endlessLoop.Asks (Eval.invoke 1 1000) m .whileIteration "condition" m :=
      .condition (v := .bool true) (by rw [Eval.eval]; rfl)
    have hlimit : ({ iterations := some 0 } : Limits).iterations = some 0 := rfl
    obtain ⟨hloops, -, -⟩ := Script.iterations_allowed hcompile 1 hlimit .command []
    have hfirst := (hloops _ _ _ hbegins _ _ _ .none).2 _ _ _ (hasks _)
    have hsecond := (hloops _ _ _ hbegins _ _ _ hrepeats).2 _ _ _ (hasks _)
    exact ⟨_, m', hbegins, hrepeats, hfirst.2 (Nat.zero_le _), fun h => absurd (hsecond.1 h) (Nat.not_succ_le_zero 0)⟩

end Playback
