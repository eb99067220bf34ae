import Playback.Proofs.Ledger

/-!
# Frames that code opens

A frame that code opens is an entry of the one that was the innermost (`Opened`), and what is done while it is open
changes it and no other frame that was there (`Began.inside`). So traced code only adds entries to the frame that it
starts in, and of the frames that it opens a ledger is kept (`Traces`): code in a frame of its own does that where the
code inside does (`Traces.framed`).
-/

namespace Playback

open Eval
open Lower (Place)

/-! ## Frames that were opened -/

/-- Entries were added to the innermost frame, and no other frame that was there has changed. -/
def Machine.Adds (m m' : Machine) : Prop :=
  ∃ entries, m.trace.Alters (·.pushAll entries) m'.trace

/-- The first frame that was opened since a state is an entry of the one that was the innermost, in which nothing else
has changed, and it is now as is said. -/
structure Machine.Opened (frame : Trace.Frame) (m m' : Machine) : Prop where
  alters : m.trace.Alters (·.push (.frame m.trace.frames.size)) m'.trace
  content : m'.trace.frames[m.trace.frames.size]? = some frame

variable {action : Action} {change : Trace.Frame → Trace.Frame} {frame : Trace.Frame} {invoke : Invoke} {l : Ledger}
  {m m' m1 m2 : Machine} {p : FunctionCode → Prop} {place : Place} {room rounds : Nat}

namespace Machine

theorem Adds.trans (h : m.Adds m1) (ht : m1.trace.top = m.trace.top) (h' : m1.Adds m2) : m.Adds m2 := by
  obtain ⟨es, h⟩ := h
  obtain ⟨more, h'⟩ := h'
  exact ⟨es ++ more, (h.trans ht h').of_eq fun frame => (frame.pushAll_append es more).symm⟩

theorem Adds.of_trace (h : m.Adds m') (hm : m1.trace = m.trace) (hm' : m2.trace = m'.trace) : m1.Adds m2 := by
  unfold Adds
  rw [hm, hm']
  exact h

theorem Adds.close (h : m.Adds m1) (hf : m2.trace.frames = m1.trace.frames)
    (hs : ∀ id ∈ m2.trace.stack, id ∈ m1.trace.stack) : m.Adds m2 := by
  obtain ⟨es, h⟩ := h
  exact ⟨es, h.close hf hs⟩

namespace Opened

theorem adds (h : m.Opened frame m') : m.Adds m' :=
  ⟨[.frame m.trace.frames.size], h.alters⟩

theorem kind (h : m.Opened frame m') : m'.trace.kindOf m.trace.frames.size = frame.kind := by
  rw [Trace.kindOf, h.content]
  rfl

theorem lt (h : m.Opened frame m') : m.trace.frames.size < m'.trace.frames.size :=
  (Array.getElem?_eq_some_iff.1 h.content).1

theorem kind_logException (h : m.Opened frame m') (type msg : String) :
    (m'.trace.logException type msg).kindOf m.trace.frames.size = frame.kind :=
  ((m'.trace.quiet_push _).extends_.kind _ h.lt).trans h.kind

theorem logException (h : m.Opened frame m') (type msg : String) : ∃ more, (more = [] ∨ more = [.exception type msg])
      ∧ (m'.trace.logException type msg).frames[m.trace.frames.size]? = some (frame.pushAll more) := by
  have ha := m'.trace.alters_push (.exception type msg)
  by_cases ht : m.trace.frames.size = m'.trace.top
  · have hf := ha.top
    rw [← ht, h.content] at hf
    exact ⟨[_], .inr rfl, hf⟩
  · exact ⟨[], .inl rfl, (ha.others _ h.lt ht).trans h.content⟩

theorem close (h : m.Opened frame m1) (hf : m2.trace.frames = m1.trace.frames)
    (hs : ∀ id ∈ m2.trace.stack, id ∈ m1.trace.stack) : m.Opened frame m2 :=
  ⟨h.alters.close hf hs, by rw [hf, h.content]⟩

theorem of_trace (h : m.Opened frame m') (hm : m1.trace = m.trace) (hm' : m2.trace = m'.trace) :
    m1.Opened frame m2 := by
  constructor
  · rw [hm, hm']
    exact h.alters
  · rw [hm, hm']
    exact h.content

end Opened

end Machine

namespace Ledger

/-- A frame was opened and is the innermost, it is now as is said, and of the frames that were opened after it the
ledger is kept. -/
structure Began (l : Ledger) (p : FunctionCode → Prop) (frame : Trace.Frame) (m m' : Machine) : Prop
    extends m.Opened frame m' where
  enters : m.Enters p frame.kind m'
  performs : ∃ steps, m.Performs steps m'
  stack : m'.trace.stack = m.trace.frames.size :: m.trace.stack
  inner : l.Covers true (m.trace.frames.size + 1) m'.trace

theorem InRun.began (hm : l.InRun p room m) (h : l.Began p frame m m1) : l.InRun p room m1 :=
  hm.later h.enters.later h.performs

namespace Began

theorem top (h : l.Began p frame m m1) : m1.trace.top = m.trace.frames.size := by
  rw [Trace.top, h.stack]
  rfl

theorem sameFrom (hm : m.Sound p) (h : l.Began p frame m m1) (hs : m1.trace.Spares t) :
    m1.trace.SameFrom (m.trace.frames.size + 1) t := by
  intro i hlo hi
  refine hs i hi ?_
  rw [h.stack, List.mem_cons, not_or]
  exact ⟨Nat.ne_of_gt hlo, fun ho => Nat.lt_asymm hlo (hm.trace.known i ho)⟩

section

variable (hm : m.Sound p) (h : l.Began p frame m m1) (h' : m1.trace.Alters change m2.trace)

include hm h h'

theorem inside : m.Opened (change frame) m2 := by
  refine ⟨h.alters.inside hm.trace.top_lt (Nat.le_of_eq h.top.symm) h', ?_⟩
  have ht := h'.top
  rw [h.top, h.content] at ht
  exact ht

theorem inner_later (hs : l.Settled m1 m2) : l.Covers true (m.trace.frames.size + 1) m2.trace :=
  h.inner.trans (h.sameFrom hm (h'.spares h.enters.later.sound.trace)) hs

theorem settled (hs : l.Settled m1 m2) (hg : l.holds true m2.trace m.trace.frames.size) : l.Settled m m2 :=
  .cons hg (h.inner_later hm h' hs)

theorem upset (hm2 : m2.trace.Sound) (hu : l.Upset m1 m2)
    (hr : ∀ type msg, l.holds false (m2.trace.logException type msg) m.trace.frames.size) : l.Upset m m2 := by
  have hs := h'.spares_push h.enters.later.sound.trace hm2
  exact fun type msg => .cons (hr type msg) (h.inner.trans (h.sameFrom hm (hs _)) (hu type msg))

end

theorem notes (hm : m.Sound p) (h : l.Began p frame m m1) (h' : m1.Notes p change m2) (hs : l.Settled m1 m2)
    (hk : (change frame).kind = frame.kind) : l.Began p (change frame) m m2 := by
  obtain ⟨_, hst⟩ := h.performs
  obtain ⟨_, hmo⟩ := h'.performs
  exact { h.inside hm h'.alters with
    enters := hk ▸ h.enters.level h'.level
    performs := ⟨_, hst.trans hmo⟩
    stack := h'.level.stack.trans h.stack
    inner := h.inner_later hm h'.alters hs }

theorem of_setLine (hm : m.Sound p) (ln : Nat) (h : l.Began p frame (m.setLine ln) m1) : l.Began p frame m m1 := by
  have hl := Machine.Level.setLine hm ln
  have ht := m.trace_setLine ln
  obtain ⟨_, hs⟩ := h.performs
  exact { h.toOpened.of_trace ht.symm rfl with
    enters := .of_level hl h.enters
    performs := ⟨_, (Machine.Performs.setLine m ln).trans hs⟩
    stack := by rw [h.stack, ht]
    inner := by
      have hi := h.inner
      rwa [ht] at hi }

end Began

theorem good_opened (h : m.Opened frame m') (hk : frame.kind.isControl = false) :
    l.holds true m'.trace m.trace.frames.size :=
  l.other (by rw [h.kind, hk])

theorem raised_opened (h : m.Opened frame m') (hk : frame.kind.isControl = false) (type msg : String) :
    l.holds false (m'.trace.logException type msg) m.trace.frames.size :=
  l.of_well (l.other (by rw [h.kind_logException, hk]))

theorem startFrame_began (hm : l.InRun p room m) (kind : Trace.Kind) (set : String) :
    l.Began p (.open kind set) m { m with trace := m.trace.addFrame kind set } where
  alters := m.trace.alters_addFrame hm.sound.trace.top_lt kind set
  content := m.trace.addFrame_new kind set
  enters := by
    have he := startFrame_ends (.refl hm.sound) kind set
    exact he.ok (hm.startFrame_eq kind set)
  performs := ⟨_, .startFrame hm.not_full kind set⟩
  stack := m.trace.addFrame_stack kind set
  inner := .of_size (Nat.le_of_eq (m.trace.addFrame_size kind set))

/-! ## Traced code -/

/-- Traced code only adds entries to the innermost frame, and of the frames that it opens the ledger is kept. -/
def Traces (l : Ledger) (p : FunctionCode → Prop) (room : Nat) (x : Eval Flow) : Prop :=
  ∀ m, l.InRun p room m → Ends x m (fun _ m' => m.Adds m' ∧ l.Settled m m') fun m' => m.Adds m' ∧ l.Upset m m'

/-- Traced code that keeps the discipline of frames and the ledger. -/
structure Keeps (l : Ledger) (p : FunctionCode → Prop) (room : Nat) (place : Place) (x : Eval Flow) : Prop where
  obeys : Obeys p place x
  records : Records x
  traces : l.Traces p room x

section

theorem Keeps.ends (hx : l.Keeps p room place x) (hm : l.InRun p room m) : Ends x m
      (fun f m' => Leaves p place m f m' ∧ (∃ ss, m.Performs ss m') ∧ m.Adds m' ∧ l.Settled m m')
      fun m' => Breaks p m m' ∧ m.Adds m' ∧ l.Upset m m' :=
  ((hx.obeys m hm.sound).and ((hx.records.ends m).and (hx.traces m hm))).mono (fun _ _ h => h) fun _ h => ⟨h.1, h.2.2⟩

theorem Traces.andThen (hx : l.Keeps p room place x) (hy : l.Keeps p room place y) : l.Traces p room (andThen x y) := by
  intro m hm
  refine ((hx.ends hm).mono (fun _ _ h => h) fun _ h => h.2).andThen ?_ fun _ _ _ h => h.2.2
  rintro m1 ⟨hle, hp, ha, hs⟩
  have hl : m.Level p m1 := ⟨hle.later, hle.stack⟩
  refine (hy.ends (hm.later hle.later hp)).mono ?_ ?_
  · rintro f m2 ⟨-, -, ha', hs'⟩
    obtain ⟨es, hal⟩ := id ha'
    exact ⟨ha.trans hl.top_eq ha', hs.trans hm.sound hl hal hs'⟩
  · rintro m2 ⟨hb, ha', hu⟩
    obtain ⟨es, hal⟩ := id ha'
    exact ⟨ha.trans hl.top_eq ha', hs.upset hm.sound hl hal hb.later.sound.trace hu⟩

theorem Traces.nil (rounds : Nat) : l.Traces p room (execBlock invoke rounds []) := by
  intro m _
  exact ⟨⟨[], .refl _⟩, .of_size (Nat.le_refl _)⟩

theorem Traces.normal {α : Type} {z : Eval α} {q : α → Prop} (hz : l.Noting p room z q) :
    l.Traces p room (z >>= fun _ => Pure.pure Flow.normal) := by
  intro m hm
  refine ((hz m hm).mono (fun _ _ h => h) ?_).bind ?_
  · rintro m' ⟨⟨es, hn⟩, hu⟩
    exact ⟨⟨es, hn.alters⟩, hu⟩
  · rintro a m' ⟨-, ⟨es, hn⟩, hs⟩
    exact ⟨⟨es, hn.alters⟩, hs⟩

theorem Traces.single (h : l.Traces p room (execAction invoke rounds action)) (ln : Nat) :
    l.Traces p room (execBlock invoke rounds [.at ln action]) := by
  intro m hm
  have ht := (m.trace_setLine ln).symm
  rw [execBlock_single]
  exact (h (m.setLine ln) (hm.setLine ln)).mono (fun _ _ h => ⟨h.1.of_trace ht rfl, h.2.of_trace ht⟩)
    fun _ h => ⟨h.1.of_trace ht rfl, h.2.of_trace ht⟩

end

end Ledger

/-! ## Instructions that open and close frames -/

def Machine.openFrame (m : Machine) (line : Nat) (kind : Trace.Kind) (set : String) : Machine :=
  { m.setLine line with trace := (m.setLine line).trace.addFrame kind set }

def Machine.closeFrame (m : Machine) (line : Nat) : Machine :=
  { m.setLine line with trace := (m.setLine line).trace.endFrame }

/-- The state after an instruction that closes the frames inside the innermost loop. -/
def Machine.closeLoop (m : Machine) (line : Nat) : Machine :=
  { m.setLine line with trace := (m.setLine line).trace.endLoop }

/-- The state after an instruction that turns to another child set. -/
def Machine.turnTo (m : Machine) (line : Nat) (set : String) : Machine :=
  { m.setLine line with trace := (m.setLine line).trace.turn set }

/-- The entry for a value that is recorded as the first of a frame. -/
def Machine.shown (m : Machine) (v : Value) : Trace.Entry :=
  .result none (m.heap.str v) v.typeName m.trace.pending.toList

def Machine.openFor (m : Machine) (kind : Trace.Kind) (set : String) (v : Value) : Machine :=
  { m with trace := (m.trace.addFrame kind set).logResult none (m.heap.str v) v.typeName }

def Trace.Frame.withFirst (kind : Kind) (set : String) (entry : Entry) : Frame :=
  { kind, sets := [(set, #[entry])], active := set }

/-- A frame that was opened for a value and has turned to its block. -/
def Trace.Frame.withBlock (kind : Kind) (set : String) (entry : Entry) (block : Array Entry) : Frame :=
  { kind, sets := [(set, #[entry]), ("block", block)], active := "block" }

@[simp] theorem Machine.closeFrame_frames (m : Machine) (l : Nat) :
    (m.closeFrame l).trace.frames = m.trace.frames := by
  unfold Machine.closeFrame
  rw [Machine.trace_setLine, Trace.endFrame_frames]

theorem Machine.closeFrame_stack (m : Machine) (l : Nat) : ∀ id ∈ (m.closeFrame l).trace.stack, id ∈ m.trace.stack := by
  unfold Machine.closeFrame
  rw [Machine.trace_setLine]
  exact m.trace.endFrame_suffix.subset

theorem Machine.closeFrame_performs (m : Machine) (l : Nat) : ∃ ss, m.Performs ss (m.closeFrame l) :=
  ⟨_, (Machine.Performs.setLine m l).trans (.step .endFrame ⟨rfl, rfl⟩ rfl rfl .refl)⟩

theorem Eval.exec_endFrame (invoke : Invoke) (rounds l : Nat) (m : Machine) :
    exec invoke rounds (.at l .endFrame) m = .ok .normal (m.closeFrame l) := by
  rfl

@[simp] theorem Machine.closeLoop_frames (m : Machine) (l : Nat) :
    (m.closeLoop l).trace.frames = m.trace.frames := by
  unfold Machine.closeLoop
  rw [Machine.trace_setLine]
  rfl

theorem Machine.closeLoop_stack (m : Machine) (l : Nat) : ∀ id ∈ (m.closeLoop l).trace.stack, id ∈ m.trace.stack := by
  unfold Machine.closeLoop
  rw [Machine.trace_setLine]
  exact (Trace.unwindToLoop_suffix _ _).subset

theorem Eval.exec_endLoop (invoke : Invoke) (rounds l : Nat) (m : Machine) :
    exec invoke rounds (.at l .endLoop) m = .ok .normal (m.closeLoop l) := by
  rfl

theorem Eval.execBlock_cons_ok (h : exec invoke rounds i m = .ok .normal m') (is : List Instr) :
    execBlock invoke rounds (i :: is) m = execBlock invoke rounds is m' := by
  exact ok_bind h

namespace Ledger

theorem turnTo_notes (hm : m.Sound p) (l : Nat) (set : String) : m.Notes p (·.turn set) (m.turnTo l set) := by
  have hl := (Machine.Idles.setLine hm l).notes
  have ht : (m.setLine l).Notes p (·.turn set) (m.turnTo l set) :=
    ⟨(Machine.Steady.of_trace hl.level.later.sound ((m.setLine l).trace.quiet_turn set)).level,
      ⟨[.turn set], .step _ ⟨rfl, rfl⟩ rfl rfl .refl⟩, (m.setLine l).trace.alters_turn set⟩
  exact hl.trans ht

theorem turnTo_began (hm : m.Sound p) (h : l.Began p frame m m1) (ln : Nat) (set : String) :
    l.Began p (frame.turn set) m (m1.turnTo ln set) := by
  refine h.notes hm (turnTo_notes h.enters.later.sound ln set) (.of_size (Nat.le_of_eq ?_)) rfl
  change ((m1.setLine ln).trace.turn set).frames.size = _
  rw [Machine.trace_setLine]
  exact Array.size_modify

theorem exec_startFrame (hm : l.InRun p room m) (rounds ln : Nat) (kind : Trace.Kind) (set : String) :
    exec invoke rounds (.at ln (.startFrame kind set)) m = .ok .normal (m.openFrame ln kind set) := by
  change (startFrame kind set >>= fun _ => pure Flow.normal) (m.setLine ln) = _
  rw [ok_bind ((hm.setLine ln).startFrame_eq kind set)]
  rfl

theorem openFrame_began (hm : l.InRun p room m) (ln : Nat) (kind : Trace.Kind) (set : String) :
    l.Began p (.open kind set) m (m.openFrame ln kind set) :=
  .of_setLine hm.sound ln (startFrame_began (hm.setLine ln) kind set)

theorem openRound_eq (hm : l.InRun p room m) (kind : Trace.Kind) (set : String) (v : Value) :
    openRound (some (kind, set)) v m = .ok () (m.openFor kind set v) := by
  change (startFrame kind set >>= fun _ => log none v) m = _
  rw [ok_bind (hm.startFrame_eq kind set)]
  rfl

theorem openFor_began (hm : l.InRun p room m) (kind : Trace.Kind) (set : String) (v : Value) :
    l.Began p (.withFirst kind set (m.shown v)) m (m.openFor kind set v) := by
  have hb := startFrame_began hm kind set
  have hp : (Trace.Frame.open kind set).push (m.shown v) = .withFirst kind set (m.shown v) :=
    Trace.Frame.pushAll_open kind set [m.shown v]
  have hl := log_notes hb.enters.later.sound none (m.heap.str v) v.typeName
  rw [← hp]
  exact hb.notes hm.sound hl (.of_size (Nat.le_of_eq Array.size_modify)) rfl

theorem logStart_ends (hi : Evaluates.Calls p (l.Sparing p room) invoke) (hc : c.Plain)
    (hm : l.InRun p room m) (kind : Trace.Kind) (set : String) : Ends (eval invoke (.logStart kind set c)) m
      (fun v m' => ∃ m1, eval invoke c m = .ok v m1 ∧ m' = m1.openFor kind set v ∧ m.Notes p id m1 ∧ l.Settled m m1)
      fun m' => (∃ e, eval invoke c m = .error (.raised e) m') ∧ m.Notes p id m' ∧ l.Upset m m' := by
  refine ((l.sparing_runs p room).eval hi c (.inl hc) m hm).eqn.bind ?_
  rintro v m1 ⟨he, -, hn, hs⟩
  unfold Ends
  rw [ok_bind ((hm.notes hn).startFrame_eq kind set)]
  exact ⟨m1, he, rfl, hn, hs⟩

theorem Keeps.inside (hx : l.Keeps p room place x) (hm : l.InRun p room m) (h : l.Began p frame m m1) :
    Ends x m1 (fun f m2 => Leaves p place m1 f m2 ∧ (∃ ss, m1.Performs ss m2) ∧ ∃ es,
        m.Opened (frame.pushAll es) m2 ∧ (l.holds true m2.trace m.trace.frames.size → l.Settled m m2))
      fun m2 => Breaks p m1 m2 ∧ ∃ es, m.Opened (frame.pushAll es) m2
        ∧ ((∀ type msg, l.holds false (m2.trace.logException type msg) m.trace.frames.size) → l.Upset m m2) := by
  refine (hx.ends (hm.began h)).mono ?_ ?_
  · rintro f m2 ⟨hl, hp, ⟨es, ha⟩, hs⟩
    exact ⟨hl, hp, es, h.inside hm.sound ha, h.settled hm.sound ha hs⟩
  · rintro m2 ⟨hb, ⟨es, ha⟩, hu⟩
    exact ⟨hb, es, h.inside hm.sound ha, h.upset hm.sound ha hb.later.sound.trace hu⟩

variable {is : List Instr} {kind : Trace.Kind}

theorem Keeps.closing_ends (his : l.Keeps p room place (execBlock invoke rounds is)) (hm : l.InRun p room m)
    (h : l.Began p frame m m1) (hk : frame.kind.isControl = false) (ln : Nat) :
    Ends (execBlock invoke rounds (is ++ [.at ln .endFrame])) m1
      (fun _ m2 => (∃ ss, m.Performs ss m2) ∧ (∃ es, m.Opened (frame.pushAll es) m2) ∧ l.Settled m m2)
      fun m2 => m2.trace.Sound ∧ (∃ es, m.Opened (frame.pushAll es) m2) ∧ l.Upset m m2 := by
  have hot (es : List Trace.Entry) : (frame.pushAll es).kind.isControl = false := by
    rw [Trace.Frame.kind_pushAll]
    exact hk
  obtain ⟨b, hb⟩ := h.performs
  rw [execBlock_append]
  refine ((his.inside hm h).mono (fun _ _ h => h) ?_).andThen ?_ ?_
  · rintro m2 ⟨hbr, es, ho, hu⟩
    exact ⟨hbr.later.sound.trace, ⟨es, ho⟩, hu (raised_opened ho (hot es))⟩
  · rintro m2 ⟨-, ⟨ss, hst⟩, es, ho, hs⟩
    obtain ⟨a, ha⟩ := m2.closeFrame_performs ln
    have hf := m2.closeFrame_frames ln
    refine ⟨⟨_, hb.trans (hst.trans ha)⟩, ⟨es, ho.close hf (m2.closeFrame_stack ln)⟩, ?_⟩
    exact (hs (good_opened ho (hot es))).close hf
  · rintro f m2 - ⟨-, ⟨ss, hst⟩, es, ho, hs⟩
    exact ⟨⟨_, hb.trans hst⟩, ⟨es, ho⟩, hs (good_opened ho (hot es))⟩

theorem Keeps.framed_ends (his : l.Keeps p room place (execBlock invoke rounds is)) (hm : l.InRun p room m)
    (ln : Nat) (hk : kind.isControl = false) (set : String) :
    Ends (execBlock invoke rounds (.at ln (.startFrame kind set) :: (is ++ [.at ln .endFrame]))) m
      (fun _ m' => (∃ ss, m.Performs ss m')
        ∧ (∃ es, m.Opened ((Trace.Frame.open kind set).pushAll es) m') ∧ l.Settled m m')
      fun m' => m'.trace.Sound ∧ (∃ es, m.Opened ((Trace.Frame.open kind set).pushAll es) m')
        ∧ l.Upset m m' := by
  unfold Ends
  rw [execBlock_cons_ok (exec_startFrame hm rounds ln kind set)]
  exact his.closing_ends hm (openFrame_began hm ln kind set) hk ln

theorem Traces.framed (his : l.Keeps p room place (execBlock invoke rounds is)) (ln : Nat)
    (hk : kind.isControl = false) (set : String) : l.Traces p room
      (execBlock invoke rounds (.at ln (.startFrame kind set) :: (is ++ [.at ln .endFrame]))) := by
  intro m hm
  refine (his.framed_ends hm ln hk set).mono ?_ ?_
  · rintro _ m' ⟨-, ⟨es, ho⟩, hs⟩
    exact ⟨ho.adds, hs⟩
  · rintro m' ⟨-, ⟨es, ho⟩, hu⟩
    exact ⟨ho.adds, hu⟩

/-- The block of a frame that was opened for a value, such as that of a round. -/
theorem Keeps.iterationBody_ends (his : l.Keeps p room place (execBlock invoke rounds is)) (hm : l.InRun p room m)
    {set : String} (h : l.Began p (.withFirst kind set entry) m m1) (hse : set ≠ "block")
    (hin : kind.isInner = true) (hk : kind.isControl = false) (line : Nat) :
    Ends (execBlock invoke rounds (Lower.iterationBody line is)) m1
      (fun flow m2 => Leaves p place m flow m2 ∧ (∃ steps, m.Performs steps m2)
        ∧ (∃ block, m.Opened (.withBlock kind set entry block) m2) ∧ l.Settled m m2)
      fun m2 => Breaks p m m2 ∧ (∃ block, m.Opened (.withBlock kind set entry block) m2) ∧ l.Upset m m2 := by
  have hbe := turnTo_began hm.sound h line "block"
  have hb (entries : List Trace.Entry) : ((Trace.Frame.withFirst kind set entry).turn "block").pushAll entries
        = .withBlock kind set entry entries.toArray :=
    Trace.Frame.pushAll_turn kind hse #[entry] entries
  have hc := Closes.iterationBody rounds line kind hin his.obeys m m1 hm.sound h.enters
  have hi := his.closing_ends hm hbe hk line
  refine (hc.and hi).mono ?_ ?_
  · rintro flow m2 ⟨hl, hp, ⟨entries, ho⟩, hs⟩
    exact ⟨hl, hp, ⟨_, hb entries ▸ ho⟩, hs⟩
  · rintro m2 ⟨hbr, -, ⟨entries, ho⟩, hu⟩
    exact ⟨hbr, ⟨_, hb entries ▸ ho⟩, hu⟩

theorem Traces.leaveLoop (rounds ln : Nat) (f : Flow) (ha : execAction invoke rounds action = Pure.pure f) :
    l.Traces p room (execBlock invoke rounds [.at ln .endLoop, .at ln action]) := by
  intro m _
  have ht := (m.closeLoop ln).trace_setLine ln
  unfold Ends
  rw [execBlock_cons_ok (exec_endLoop invoke rounds ln m), execBlock_single, exec, ha]
  refine ⟨.of_trace ⟨[], .of_frames (m.closeLoop_frames ln) (m.closeLoop_stack ln)⟩ rfl ht, .of_size (Nat.le_of_eq ?_)⟩
  rw [ht, m.closeLoop_frames]

theorem Traces.return_ (hi : Evaluates.Calls p (l.Sparing p room) invoke) (rounds ln : Nat) (he : e.Plain) :
    l.Traces p room (execBlock invoke rounds [.at ln (.return_ (.logEnd .return_ .functionCall e))]) := by
  refine .single ?_ ln
  intro m hm
  have hv := (l.sparing_runs p room).eval hi e (.inl he) m hm
  rw [execAction, eval, bind_assoc]
  refine (hv.mono (fun _ _ h => h) fun _ h => ⟨⟨[], h.1.alters⟩, h.2⟩).bind ?_
  rintro v m1 ⟨-, hn, hs⟩
  have hl := m1.trace.alters_logResult (some .return_) (m1.heap.str v) v.typeName
  have hen : m1.trace.Alters _ (m1.trace.logAndEnd .return_ .functionCall (m1.heap.str v) v.typeName) :=
    hl.close rfl (Trace.unwindThrough_suffix _ _ _).subset
  refine ⟨⟨[_], hn.alters.trans hn.level.top_eq hen⟩, ?_⟩
  exact hs.trans hm.sound hn.level hen (.of_size (Nat.le_of_eq Array.size_modify))

end Ledger

end Playback
