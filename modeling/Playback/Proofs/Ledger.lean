import Playback.Proofs.Contents
import Playback.Proofs.History

/-!
# Accounts of the frames of a run

A ledger says something of every frame of a run, by the frame's number: one thing of the frames of code that has ended
without an exception, and another, weaker one, of those that an exception has left. Evaluating expressions and running
code without a trace change no frame that was there (`Sparing`), so of these the ledger is kept if calls keep it.
-/

namespace Playback

open Lower (Place)

variable {change : Trace.Frame → Trace.Frame} {m m' m1 m2 : Machine} {room : Nat} {α : Type} {x : Eval α}

/-- Whether a kind is that of a loop or of a conditional as a whole. -/
def Trace.Kind.isControl : Kind → Bool
  | .whileLoop | .forLoop | .if_ => true
  | _ => false

theorem Trace.Kind.isControl_of_isLoop {k : Kind} (h : k.isLoop = true) : k.isControl = true := by
  cases k <;> first | rfl | cases h

/-- What is said of the frames of a run in which iterations are not limited. -/
structure Ledger where
  /-- How many rounds a loop on a condition may take. -/
  rounds : Nat
  /-- The state that the run starts in, -/
  start : Machine
  unlimited : start.trace.iterationLimit = none
  arena : start.trace.Arena
  /-- and how deep its calls may be nested. -/
  recursion : Nat
  /-- What is said of a frame: after code that ended well, or after an exception was recorded. -/
  holds (well : Bool) : Trace → Nat → Prop
  later {b : Bool} {t t' : Trace} {id : Nat} : holds b t id → id < t.frames.size → t.SameFrom id t' → holds b t' id
  of_well {b : Bool} {t : Trace} {id : Nat} : holds true t id → holds b t id
  /-- Something is said only of loops and conditionals, -/
  other {t : Trace} {id : Nat} : (t.kindOf id).isControl = false → holds true t id
  /-- and after an exception only of loops. -/
  conditional {t : Trace} {id : Nat} : t.kindOf id = .if_ → holds false t id

theorem Machine.ready_unlimited (hl : l.iterations = none) (m : Mode)
    (i : List String) : (Machine.ready l m i).trace.iterationLimit = none := by
  rw [(Machine.sound_ready (p := fun _ => True) l m i).2.2.1]
  exact hl

theorem Reached.iterationLimit (h : Reached p n l md i room t m) : m.trace.iterationLimit = l.iterations := by
  obtain ⟨_, hs⟩ := h.performs
  rw [hs.hasHistory.1, Trace.iterationLimit_applyAll]
  rfl

namespace Ledger

variable {l : Ledger} {p : FunctionCode → Prop}

/-! ## States of the run -/

/-- A state of the run, in which calls may be nested `room` deeper. -/
structure InRun (l : Ledger) (p : FunctionCode → Prop) (room : Nat) (m : Machine) : Prop where
  sound : m.Sound p
  room : room + m.calls.length = l.recursion
  past : ∃ past, l.start.Performs past m

namespace InRun

theorem later (h : l.InRun p room m) (hl : m.Later p m') (hp : ∃ steps, m.Performs steps m') : l.InRun p room m' := by
  obtain ⟨past, hpa⟩ := h.past
  obtain ⟨steps, hs⟩ := hp
  exact ⟨hl.sound, hl.depth ▸ h.room, past ++ steps, hpa.trans hs⟩

theorem setLine (h : l.InRun p room m) (ln : Nat) : l.InRun p room (m.setLine ln) :=
  h.later (Machine.Level.setLine h.sound ln).later ⟨[], .setLine m ln⟩

theorem arena (h : l.InRun p room m) : m.trace.Arena := by
  obtain ⟨past, hp⟩ := h.past
  exact hp.arena l.arena

theorem not_full (h : l.InRun p room m) : m.trace.isFull = false := by
  obtain ⟨past, hp⟩ := h.past
  have hn : m.trace.iterationLimit = none := by
    rw [hp.trace, Trace.iterationLimit_applyAll, l.unlimited]
  rw [Trace.isFull, hn]

theorem startFrame_eq (h : l.InRun p room m) (k : Trace.Kind) (set : String) :
    Eval.startFrame k set m = .ok () { m with trace := m.trace.addFrame k set } := by
  rw [Eval.startFrame_eq, h.not_full]
  rfl

end InRun

/-! ## What is said of the frames that were opened -/

/-- What the ledger says holds of all frames of a trace from a number on. -/
def Covers (l : Ledger) (well : Bool) (n : Nat) (t : Trace) : Prop :=
  ∀ id, n ≤ id → id < t.frames.size → l.holds well t id

/-- From one state to another, what the ledger says holds of all frames that were opened. -/
def Settled (l : Ledger) (m m' : Machine) : Prop :=
  l.Covers true m.trace.frames.size m'.trace

/-- From one state to another, what the ledger says after an exception holds of all frames that were opened, once the
exception is recorded. -/
def Upset (l : Ledger) (m m' : Machine) : Prop :=
  ∀ type message, l.Covers false m.trace.frames.size (m'.trace.logException type message)

namespace Covers

variable {b : Bool} {n : Nat} {t t' : Trace}

theorem of_size (h : t.frames.size ≤ n) : l.Covers b n t :=
  fun _ hlo hhi => absurd (Nat.lt_of_lt_of_le hhi h) (Nat.not_lt.2 hlo)

theorem cons (h : l.holds b t n) (h' : l.Covers b (n + 1) t) : l.Covers b n t := by
  intro id hlo hhi
  rcases Nat.eq_or_lt_of_le hlo with rfl | hlt
  · exact h
  · exact h' id hlt hhi

theorem trans (h : l.Covers true n t) (hs : t.SameFrom n t') (h' : l.Covers b t.frames.size t') : l.Covers b n t' := by
  intro id hlo hhi
  by_cases hid : id < t.frames.size
  · exact l.later (l.of_well (h id hlo hid)) hid fun i hi => hs i (Nat.le_trans hlo hi)
  · exact h' id (Nat.le_of_not_lt hid) hhi

end Covers

theorem Upset.of_size (h : m'.trace.frames.size ≤ m.trace.frames.size) : l.Upset m m' :=
  fun _ _ => .of_size (Nat.le_trans (Nat.le_of_eq Array.size_modify) h)

theorem Settled.of_trace (h : l.Settled m m') (hm : m1.trace = m.trace) : l.Settled m1 m' := by
  rw [Settled, hm]
  exact h

theorem Upset.of_trace (h : l.Upset m m') (hm : m1.trace = m.trace) : l.Upset m1 m' := by
  rw [Upset, hm]
  exact h

theorem Settled.close (h : l.Settled m m1) (hf : m2.trace.frames = m1.trace.frames) : l.Settled m m2 :=
  Covers.trans h (fun _ _ _ => by rw [hf]) (.of_size (Nat.le_of_eq (by rw [hf])))

theorem sameFrom_of_level (hm : m.Sound p) (hl : m.Level p m1) (hs : m1.trace.Spares t) :
    m1.trace.SameFrom m.trace.frames.size t := by
  intro i hlo hi
  refine hs i hi ?_
  rw [hl.stack]
  exact fun ho => Nat.not_lt.2 hlo (hm.trace.known i ho)

theorem Settled.trans (hm : m.Sound p) (h : l.Settled m m1) (hl : m.Level p m1)
    (ha : m1.trace.Alters change m2.trace) (h' : l.Settled m1 m2) : l.Settled m m2 :=
  Covers.trans h (sameFrom_of_level hm hl (ha.spares hl.later.sound.trace)) h'

theorem Settled.upset (hm : m.Sound p) (h : l.Settled m m1) (hl : m.Level p m1)
    (ha : m1.trace.Alters change m2.trace) (hm2 : m2.trace.Sound) (h' : l.Upset m1 m2) : l.Upset m m2 :=
  fun type msg => Covers.trans h (sameFrom_of_level hm hl (ha.spares_push hl.later.sound.trace hm2 _)) (h' type msg)

end Ledger

/-! ## Computations that keep the open frames -/

/-- A later state with the same frames open, in which the innermost frame has changed as is said and no other that was
there has. -/
structure Machine.Notes (p : FunctionCode → Prop) (change : Trace.Frame → Trace.Frame) (m m' : Machine) : Prop where
  level : m.Level p m'
  performs : ∃ steps, m.Performs steps m'
  alters : m.trace.Alters change m'.trace

theorem Machine.Level.top_eq (h : m.Level p m') : m'.trace.top = m.trace.top := by
  rw [Trace.top, h.stack, Trace.top]

namespace Machine.Notes

variable {p : FunctionCode → Prop} {change' : Trace.Frame → Trace.Frame}

theorem refl (hm : m.Sound p) : m.Notes p id m :=
  ⟨.refl hm, ⟨[], .refl m⟩, .refl _⟩

theorem trans (h : m.Notes p change m1) (h' : m1.Notes p change' m2) : m.Notes p (change' ∘ change) m2 := by
  obtain ⟨_, hs⟩ := h.performs
  obtain ⟨_, hm⟩ := h'.performs
  exact ⟨h.level.trans h'.level, ⟨_, hs.trans hm⟩, h.alters.trans h.level.top_eq h'.alters⟩

end Machine.Notes

/-- A later state with the same frames, of which the same are open. -/
structure Machine.Idles (p : FunctionCode → Prop) (m m' : Machine) : Prop where
  level : m.Level p m'
  performs : ∃ steps, m.Performs steps m'
  frames : m'.trace.frames = m.trace.frames

theorem Machine.Idles.notes (h : m.Idles p m') : m.Notes p id m' :=
  ⟨h.level, h.performs, .of_frames h.frames fun _ hid => h.level.stack ▸ hid⟩

theorem Machine.Idles.setLine (hm : m.Sound p) (line : Nat) : m.Idles p (m.setLine line) :=
  ⟨.setLine hm line, ⟨[], .setLine m line⟩, congrArg Trace.frames (m.trace_setLine line)⟩

theorem machineRelation_idles (p : FunctionCode → Prop) : MachineRelation p (·.Sound p) (Machine.Idles p) where
  refl {m} hm := ⟨.refl hm, ⟨[], .refl m⟩, rfl⟩
  trans h h' :=
    ⟨h.level.trans h'.level, machineRelation_performs.trans h.performs h'.performs, h'.frames.trans h.frames⟩
  keeps _ h := h.level.later.sound
  heap hm := hm.heap
  value name hm := hm.value name

theorem idles_runs (p : FunctionCode → Prop) :
    RunsOn (fun _ => True) p fun x _ q => Affects (·.Sound p) (Machine.Idles p) x q where
  toEvaluates := by
    refine Affects.evaluates (machineRelation_idles p) ?_ ?_ ?_
    · exact fun hm hh hp => ⟨(Machine.Steady.heap hm hh).level, ⟨[], .nothing rfl rfl hp⟩, rfl⟩
    · refine fun {m} text hm => ⟨(Machine.Steady.write text hm).level, ⟨_, .write m text⟩, ?_⟩
      change (m.trace.write text).frames = _
      unfold Trace.write
      split <;> rfl
    · exact fun l v hm => ⟨(Machine.Steady.aside l v hm).level, ⟨[], .nothing rfl rfl .refl⟩, rfl⟩
  store name v _ hv := .change fun {m} hm =>
    ⟨.setVariable hm name hv, ⟨[], .setVariable m name v⟩, congrArg Trace.frames (m.trace_setVariable name v)⟩
  setLine line := .change fun hm => .setLine hm line

variable {e : Machine → Prop} {q : α → Machine → Prop}

theorem Ends.and (h : Ends x m q e)
    (h' : Ends x m q' e') : Ends x m (fun a m' => q a m' ∧ q' a m') fun m' => e m' ∧ e' m' := by
  unfold Ends at h h' ⊢
  split
  iterate 2
    · rename_i hx
      rw [hx] at h h'
      exact ⟨h, h'⟩
  · trivial

theorem Ends.eqn (h : Ends x m q e) :
    Ends x m (fun a m' => x m = .ok a m' ∧ q a m') fun m' => (∃ f, x m = .error (.raised f) m') ∧ e m' := by
  unfold Ends at h ⊢
  split
  · rename_i hx
    rw [hx] at h
    exact ⟨hx, h⟩
  · rename_i f m' hx
    rw [hx] at h
    exact ⟨⟨f, hx⟩, h⟩
  · trivial

theorem Records.ends (h : Records x) (m : Machine) :
    Ends x m (fun _ m' => ∃ ss, m.Performs ss m') fun m' => ∃ ss, m.Performs ss m' :=
  (h.to.ends trivial).mono (fun _ _ h => h.2) fun _ h => h

namespace Ledger

variable {l : Ledger} {p : FunctionCode → Prop} {β : Type} {q : α → Prop} {r : β → Prop}

theorem InRun.notes (h : l.InRun p room m) (hn : m.Notes p change m') : l.InRun p room m' :=
  h.later hn.level.later hn.performs

/-- A computation changes no frame that was there and leaves the same ones open, and of those that it opens the ledger
is kept. -/
def Sparing (l : Ledger) (p : FunctionCode → Prop) (room : Nat) {α : Type} (x : Eval α) (q : α → Prop) : Prop :=
  ∀ m, l.InRun p room m → Ends x m (fun a m' => q a ∧ m.Notes p id m' ∧ l.Settled m m')
    fun m' => m.Notes p id m' ∧ l.Upset m m'

/-- A computation leaves the same frames open and only adds entries to the innermost one, and of the frames that it
opens the ledger is kept. -/
def Noting (l : Ledger) (p : FunctionCode → Prop) (room : Nat) {α : Type} (x : Eval α) (q : α → Prop) : Prop :=
  ∀ m, l.InRun p room m → Ends x m (fun a m' => q a ∧ (∃ entries, m.Notes p (·.pushAll entries) m') ∧ l.Settled m m')
      fun m' => (∃ entries, m.Notes p (·.pushAll entries) m') ∧ l.Upset m m'

namespace Sparing

theorem of_idles (hx : Affects (·.Sound p) (Machine.Idles p) x q) : l.Sparing p room x q := by
  intro m hm
  refine (hx.ends hm.sound).mono ?_ ?_
  · exact fun a m' h => ⟨h.1, h.2.notes, .of_size (Nat.le_of_eq (by rw [h.2.frames]))⟩
  · exact fun m' h => ⟨h.notes, .of_size (Nat.le_of_eq (by rw [h.frames]))⟩

theorem bind (hx : l.Sparing p room x q) (hf : ∀ a, q a → l.Sparing p room (f a) r) : l.Sparing p room (x >>= f) r := by
  intro m hm
  refine (hx m hm).bind ?_
  rintro a m1 ⟨ha, hn, hs⟩
  refine (hf a ha m1 (hm.notes hn)).mono ?_ ?_
  · rintro b m2 ⟨hb, hn', hs'⟩
    exact ⟨hb, hn.trans hn', hs.trans hm.sound hn.level hn'.alters hs'⟩
  · rintro m2 ⟨hn', hu⟩
    refine ⟨hn.trans hn', ?_⟩
    exact hs.upset hm.sound hn.level hn'.alters hn'.level.later.sound.trace hu

theorem noting (hx : l.Sparing p room x q) : l.Noting p room x q :=
  fun m hm => (hx m hm).mono (fun _ _ h => ⟨h.1, ⟨[], h.2.1⟩, h.2.2⟩) fun _ h => ⟨⟨[], h.1⟩, h.2⟩

end Sparing

/-- **Evaluation and code without a trace leave the frames alone that were there**, but for what calls do. -/
theorem sparing_runs (l : Ledger) (p : FunctionCode → Prop) (room : Nat) :
    RunsOn (fun _ => True) p fun x _ q => l.Sparing p room x q where
  toEvaluates := (idles_runs p).weaken .of_idles .bind
  store name _ hn hv := .of_idles ((idles_runs p).store name hn hv)
  setLine line := .of_idles ((idles_runs p).setLine line)

namespace Noting

theorem bind (hx : l.Noting p room x q) (hf : ∀ a, q a → l.Noting p room (f a) r) : l.Noting p room (x >>= f) r := by
  intro m hm
  refine (hx m hm).bind ?_
  rintro a m1 ⟨ha, ⟨es, hn⟩, hs⟩
  have ht {more : List Trace.Entry} {m2 : Machine} (h : m1.Notes p (·.pushAll more) m2) :
      m.Notes p (·.pushAll (es ++ more)) m2 := by
    have hbo := hn.trans h
    exact ⟨hbo.level, hbo.performs, hbo.alters.of_eq fun fr => (fr.pushAll_append es more).symm⟩
  refine (hf a ha m1 (hm.notes hn)).mono ?_ ?_
  · rintro b m2 ⟨hb, ⟨more, hn'⟩, hs'⟩
    exact ⟨hb, ⟨_, ht hn'⟩, hs.trans hm.sound hn.level hn'.alters hs'⟩
  · rintro m2 ⟨⟨more, hn'⟩, hu⟩
    refine ⟨⟨_, ht hn'⟩, ?_⟩
    exact hs.upset hm.sound hn.level hn'.alters hn'.level.later.sound.trace hu

theorem pure (ha : q a) : l.Noting p room (Pure.pure a) q :=
  Sparing.noting ((l.sparing_runs p room).pure ha)

end Noting

theorem log_notes (hm : m.Sound p) (k : Option Trace.Kind) (t type : String) :
    m.Notes p (·.push (.result k t type m.trace.pending.toList))
      { m with trace := m.trace.logResult k t type } := by
  have hq := m.trace.quiet_logResult k t type
  refine ⟨(Machine.Steady.of_trace hm hq).level, ⟨[.log k t type], .step _ ⟨rfl, rfl⟩ rfl rfl .refl⟩, ?_⟩
  exact m.trace.alters_logResult k t type

theorem Noting.log (k : Option Trace.Kind) (v : Value) : l.Noting p room (Eval.log k v) fun _ => True := by
  intro m hm
  have hn := log_notes hm.sound k (m.heap.str v) v.typeName
  exact ⟨trivial, ⟨[.result k (m.heap.str v) v.typeName m.trace.pending.toList], hn⟩,
    .of_size (Nat.le_of_eq Array.size_modify)⟩

end Ledger

end Playback
