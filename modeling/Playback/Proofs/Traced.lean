import Playback.Proofs.Untraced

/-!
# Code with a trace

Traced code that ends normally leaves the open frames as they were. Where it leaves a loop it leaves the frames up to
the innermost loop, where it returns those below the innermost call, and where it raises an exception at least those
that were open (`Leaves`, `Breaks`). `Closes` is what is said of code that starts inside a frame just opened and ends
outside it.
-/

namespace Playback

open Eval List Trace
open Lower (Plan Links Place emitAll FitAll iterationBody)

/-- The frames that traced code leaves open, by the way it ends. -/
def Flow.leaves (t : Trace) : Flow → List Nat
  | .normal => t.stack
  | .break_ => unwindToLoop t.kindOf t.stack
  | .continue_ => unwindToLoop t.kindOf t.stack
  | .return_ _ => unwindThrough t.kindOf .functionCall t.stack

variable {a : Machine → Prop} {fl : Flow} {is : List Instr} {k : Trace.Kind}

namespace Flow

variable {t : Trace}

theorem leaves_quiet (ht : t.Sound) (h : t.Quiet t') (fl : Flow) : fl.leaves t' = fl.leaves t := by
  have hk : ∀ id ∈ t.stack, t'.kindOf id = t.kindOf id :=
    fun id hid => h.extends_.kind id (ht.known id hid)
  cases fl with
  | normal => exact h.stack
  | break_ | continue_ => exact (congrArg _ h.stack).trans (unwindToLoop_congr hk)
  | return_ v => exact (congrArg _ h.stack).trans (unwindThrough_congr hk)

theorem leaves_return_opened (ht : t.Sound) (h : Trace.Opens k t t') (hc : k ≠ .functionCall)
    (v : Value) : (return_ v).leaves t' = (return_ v).leaves t := by
  obtain ⟨_, hs, -, hk⟩ := h.stack
  unfold leaves
  rw [hs, unwindThrough_cons ht.open_ (hk ▸ hc)]
  exact unwindThrough_congr fun i hi => h.extends_.kind i (ht.known i hi)

theorem leaves_opened (ht : t.Sound) (h : Trace.Opens k t t') (hie : k.isInner = true)
    (hf : fl ≠ normal) : fl.leaves t' = fl.leaves t := by
  have hb : unwindToLoop t'.kindOf t'.stack = unwindToLoop t.kindOf t.stack := by
    obtain ⟨_, hs, -, hk⟩ := h.stack
    rw [hs, unwindToLoop_cons ht.open_ (hk ▸ hie)]
    exact unwindToLoop_congr fun i hi => h.extends_.kind i (ht.known i hi)
  cases fl with
  | normal => exact absurd rfl hf
  | break_ | continue_ => exact hb
  | return_ v => exact leaves_return_opened ht h (Trace.Kind.ne_call_of_isInner hie) v

theorem leaves_loop (h : Trace.Opens k t t') (hl : k.isLoop = true) :
    unwindToLoop t'.kindOf t'.stack = t'.stack := by
  obtain ⟨_, hs, -, hk⟩ := h.stack
  rw [hs]
  exact unwindToLoop_loop (hk ▸ hl)

end Flow

/-- How traced code ends that raises nothing. -/
structure Leaves (p : FunctionCode → Prop) (pl : Place) (m : Machine) (fl : Flow) (m' : Machine) :
    Prop where
  fits : fl.Fits p pl
  later : m.Later p m'
  stack : m'.trace.stack = fl.leaves m.trace

/-- How traced code ends that raises an exception. -/
structure Breaks (p : FunctionCode → Prop) (m m' : Machine) : Prop where
  later : m.Later p m'
  stack : m.trace.stack <:+ m'.trace.stack

/-- A computation keeps the discipline of frames. -/
def Obeys (p : FunctionCode → Prop) (pl : Place) (x : Eval Flow) : Prop :=
  ∀ m, m.Sound p → Ends x m (Leaves p pl m) (Breaks p m)

/-- A frame was opened and nothing else. -/
structure Machine.Enters (p : FunctionCode → Prop) (k : Trace.Kind) (m m' : Machine) : Prop where
  later : m.Later p m'
  opens : Trace.Opens k m.trace m'.trace

/-- In traced code a frame was opened, and in code without a trace nothing. -/
def Begun (p : FunctionCode → Prop) (traced : Bool) (k : Trace.Kind) (m m' : Machine) : Prop :=
  if traced then m.Enters p k m' else m.Level p m'

/-- From inside a frame just opened, a computation ends outside it as code does that keeps the discipline. -/
def Closes (p : FunctionCode → Prop) (pl : Place) (k : Trace.Kind) (x : Eval Flow) : Prop :=
  ∀ m m', m.Sound p → m.Enters p k m' → Ends x m' (Leaves p pl m) (Breaks p m)

section

variable {p : FunctionCode → Prop} {pl : Place} {m m' m'' : Machine}

theorem Leaves.normal (h : m.Level p m') : Leaves p pl m .normal m' :=
  ⟨trivial, h.later, h.stack⟩

theorem Breaks.level (h : m.Level p m') : Breaks p m m' :=
  ⟨h.later, h.stack ▸ suffix_rfl⟩

theorem Leaves.of_level (hm : m.Sound p) (h : m.Level p m') (h' : Leaves p pl m' fl m'') : Leaves p pl m fl m'' :=
  ⟨h'.fits, h.later.trans h'.later, h'.stack.trans (Flow.leaves_quiet hm.trace ⟨h.stack, h.later.frames⟩ fl)⟩

theorem Breaks.of_level (h : m.Level p m') (h' : Breaks p m' m'') : Breaks p m m'' :=
  ⟨h.later.trans h'.later, h.stack ▸ h'.stack⟩

theorem Breaks.of_enters (h : m.Enters p k m') (h' : Breaks p m' m'') : Breaks p m m'' := by
  obtain ⟨id, hs, -, -⟩ := h.opens.stack
  exact ⟨h.later.trans h'.later, (hs ▸ suffix_cons id _).trans h'.stack⟩

theorem Machine.Enters.level (h : m.Enters p k m') (h' : m'.Level p m'') : m.Enters p k m'' :=
  ⟨h.later.trans h'.later, h.opens.trans_quiet ⟨h'.stack, h'.later.frames⟩⟩

theorem Machine.Enters.of_level (h : m.Level p m') (h' : m'.Enters p k m'') : m.Enters p k m'' :=
  ⟨h.later.trans h'.later, .of_quiet ⟨h.stack, h.later.frames⟩ h'.opens⟩

theorem Begun.later (h : Begun p t k m m') : m.Later p m' := by
  cases t with
  | true => exact Machine.Enters.later h
  | false => exact Machine.Level.later h

theorem Begun.level (h : Begun p t k m m') (h' : m'.Level p m'') : Begun p t k m m'' := by
  cases t with
  | true => exact Machine.Enters.level h h'
  | false => exact Machine.Level.trans h h'

/-! ## Instructions of the trace -/

theorem Machine.Enters.endFrame (hm : m.Sound p) (h : m.Enters p k m') :
    m.Level p { m' with trace := m'.trace.endFrame } := by
  obtain ⟨_, hs, -, -⟩ := h.opens.stack
  have he : m'.trace.Extends m'.trace.endFrame := .of_frames m'.trace.endFrame_frames
  have hc : m'.trace.endFrame.stack = m.trace.stack := endFrame_of_stack hs hm.trace.open_
  exact ⟨h.later.cut he (hc ▸ hm.trace.open_) m'.trace.endFrame_suffix, hc⟩

variable {α : Type} {z : Eval α} {q : α → Prop}

theorem Stays.ends_level (hz : Stays p z q) (h : m.Level p m') :
    Ends z m' (fun a m'' => q a ∧ m.Level p m'') (Breaks p m) :=
  (hz m' h.later.sound).mono (fun _ _ h' => ⟨h'.1, h.trans h'.2⟩) fun _ h' => .level (h.trans h')

theorem Stays.ends_enters (hz : Stays p z q) (h : m.Enters p k m') :
    Ends z m' (fun a m'' => q a ∧ m.Enters p k m'') (Breaks p m) :=
  (hz m' h.later.sound).mono (fun _ _ h' => ⟨h'.1, h.level h'.2⟩) fun _ h' => .of_enters h (.level h')

theorem startFrame_ends (h : m.Level p m') (k : Trace.Kind) (set : String) :
    Ends (startFrame k set) m' (fun _ => m.Enters p k) (Breaks p m) := by
  have hm' := h.later.sound
  have ho := m'.trace.opens_addFrame k set
  unfold Ends
  rw [startFrame_eq]
  cases m'.trace.isFull with
  | true => exact .level h
  | false =>
    exact .of_level h ⟨.of_trace hm' (ho.sound hm'.trace) ho.extends_, ho⟩

variable {g : Invoke}

variable {e : Expr}

theorem logStart_ends (hin : g.Settles p) (he : e.Plain) (h : m.Level p m') (k : Trace.Kind) (set : String) :
    Ends (eval g (.logStart k set e)) m' (fun _ => m.Enters p k) (Breaks p m) := by
  refine ((eval_settles hin e he).stays.ends_level h).bind fun v _ h1 => ?_
  refine (startFrame_ends h1.2 k set).bind fun _ _ h2 => ?_
  exact ((Settles.log none v).stays.ends_enters h2).bind fun _ _ h3 => h3.2

theorem test_ends (hin : g.Settles p) (he : e.Plain) (h : m.Level p m') (k : Trace.Kind) (set : String) :
    Ends (eval g (.logStart k set e) >>= truthy) m' (fun _ => m.Enters p k) (Breaks p m) :=
  (logStart_ends hin he h k set).bind fun v _ h1 =>
    (((settles_evaluates p).truthy v).stays.ends_enters h1).mono (fun _ _ h2 => h2.2) fun _ h2 => h2

theorem logged_settles (hin : g.Settles p) (he : e.Plain) (t : Bool) (k : Trace.Kind) :
    Settles p (eval g (Lower.logged t k e)) (·.Holds p) := by
  cases t with
  | false => exact eval_settles hin e he
  | true =>
    exact (eval_settles hin e he).bind fun v hv => (Settles.log _ v).bind fun _ _ => .pure hv

/-! ## Sequences -/

namespace Obeys

theorem after (h : Obeys p pl x) (hm : m.Sound p) (hl : m.Level p m') : Ends x m' (Leaves p pl m) (Breaks p m) :=
  (h m' hl.later.sound).mono (fun _ _ h' => .of_level hm hl h') fun _ h' => .of_level hl h'

theorem andThen (hx : Obeys p pl x) (hy : Obeys p pl y) : Obeys p pl (andThen x y) :=
  fun m hm => (hx m hm).andThen (fun _ h => hy.after hm ⟨h.later, h.stack⟩) fun _ _ _ h => h

theorem normal {α : Type} {z : Eval α} {q : α → Prop} (hz : Stays p z q) :
    Obeys p pl (z >>= fun _ => Pure.pure Flow.normal) :=
  fun _ hm => (hz.ends_level (.refl hm)).bind fun _ _ h => .normal h.2

variable {n : Nat}

theorem at_ (h : Obeys p pl (execAction g n action)) (l : Nat) : Obeys p pl (exec g n (.at l action)) :=
  fun _ hm => h.after hm (.setLine hm l)

theorem single (h : Obeys p pl (execAction g n action)) (l : Nat) : Obeys p pl (execBlock g n [.at l action]) := by
  rw [execBlock_single]
  exact h.at_ l

theorem nil (n : Nat) : Obeys p pl (execBlock g n []) := by
  intro m hm
  exact .normal (.refl hm)

end Obeys

variable (hin : g.Settles p) (n l : Nat)

theorem endFrame_later (hm : m.Sound p) (e : Machine → Prop) : Ends (exec g n (.at l .endFrame)) m
      (fun fl m' => fl = .normal ∧ m.Later p m') e := by
  have hl := (Machine.Level.setLine hm l).later
  exact ⟨rfl, hl.cut (.of_frames (endFrame_frames _)) (endFrame_ne_nil hl.sound.trace.open_) (endFrame_suffix _)⟩

theorem endFrame_ends (hm : m.Sound p) (h : m.Enters p k m') : Ends (exec g n (.at l .endFrame)) m'
      (fun fl m'' => fl = .normal ∧ m.Level p m'') (Breaks p m) := by
  exact ⟨rfl, (h.level (.setLine h.later.sound l)).endFrame hm⟩

theorem endFrame_leaves (hm : m.Sound p) (h : m.Enters p k m') :
    Ends (exec g n (.at l .endFrame)) m' (Leaves p pl m) (Breaks p m) := by
  refine (endFrame_ends n l hm h).mono ?_ fun _ h' => h'
  rintro _ _ ⟨rfl, hl⟩
  exact .normal hl

theorem childSet_stays (set : String) : Stays p (exec g n (.at l (.childSet set))) (· = .normal) := by
  refine Stays.at_ ?_ l
  exact (Settles.onTrace fun t => t.quiet_turn set).stays.bind fun _ _ => .pure rfl

theorem Obeys.childSet_cons (set : String) (h : Obeys p pl (execBlock g n is)) :
    Obeys p pl (execBlock g n (.at l (.childSet set) :: is)) := by
  intro m hm
  exact Ends.andThen ((childSet_stays n l set).ends_level (.refl hm)) (fun _ h' => h.after hm h'.2)
    fun _ _ hf h' => absurd h'.1 hf

namespace Closes

/-- Code that keeps the discipline, and then the instruction that closes the frame. -/
theorem append (k : Trace.Kind) (hi : k.isInner = true) (h : Obeys p pl (execBlock g n is)) :
    Closes p pl k (execBlock g n (is ++ [.at l .endFrame])) := by
  intro m m' hm he
  rw [execBlock_append, execBlock_single]
  refine Ends.andThen ((h m' he.later.sound).mono (fun _ _ h' => h') fun _ h' => .of_enters he h')
    (fun m'' h' => ?_) fun _ m'' hf h' => ?_
  · exact endFrame_leaves n l hm (he.level ⟨h'.later, h'.stack⟩)
  · refine ⟨h'.fits, he.later.trans h'.later, h'.stack.trans ?_⟩
    exact Flow.leaves_opened hm.trace he.opens hi hf

/-- The instruction that closes the frame, and then code that keeps the discipline. -/
theorem endFrame_cons (h : Obeys p pl (execBlock g n is)) : Closes p pl k (execBlock g n (.at l .endFrame :: is)) := by
  intro m _ hm he
  exact Ends.andThen (endFrame_ends n l hm he) (fun _ h' => h.after hm h'.2) fun _ _ hf h' => absurd h'.1 hf

theorem childSet_cons (set : String) (h : Closes p pl k (execBlock g n is)) :
    Closes p pl k (execBlock g n (.at l (.childSet set) :: is)) := by
  intro m _ hm he
  refine Ends.andThen ((childSet_stays n l set).ends_enters he) (fun m'' h' => ?_) fun _ m'' hf h' => absurd h'.1 hf
  exact h m m'' hm h'.2

theorem iterationBody (k : Trace.Kind) (hi : k.isInner = true) (h : Obeys p pl (execBlock g n is)) :
    Closes p pl k (execBlock g n (Lower.iterationBody l is)) :=
  childSet_cons n l _ (append n l k hi h)

end Closes

/-! ## Statements that open frames -/

theorem startFrame_exec (hm : m.Sound p) (k : Trace.Kind) (set : String) : Ends (exec g n (.at l (.startFrame k set))) m
      (fun fl m' => fl = .normal ∧ m.Enters p k m') (Breaks p m) := by
  exact (startFrame_ends (.setLine hm l) k set).bind fun _ m' h' => ⟨rfl, h'⟩

theorem Obeys.startFrame_cons (set : String) (h : Closes p pl k (execBlock g n is)) :
    Obeys p pl (execBlock g n (.at l (.startFrame k set) :: is)) := by
  intro m hm
  refine (startFrame_exec n l hm k set).andThen (fun m' h' => h m m' hm h'.2) fun _ m' hf h' => absurd h'.1 hf

variable {c : Expr} {bd orelse : List Instr}

section

include hin

theorem branch_ends (hc : c.Plain) (k : Trace.Kind) (set : String) (hm : m.Sound p) {q : Flow → Machine → Prop}
    (hb : ∀ m', m.Enters p k m' → Ends (execBlock g n bd) m' q (Breaks p m))
    (ho : ∀ m', m.Enters p k m' → Ends (execBlock g n orelse) m' q (Breaks p m)) :
    Ends (exec g n (.at l (.branch (.logStart k set c) bd orelse))) m q
      (Breaks p m) := by
  change Ends (eval g (.logStart k set c) >>= fun v => truthy v >>= fun b =>
    if b then execBlock g n bd else execBlock g n orelse)
    (m.setLine l) q (Breaks p m)
  rw [← bind_assoc]
  refine (test_ends hin hc (.setLine hm l) k set).bind fun b m1 h1 => ?_
  cases b with
  | true => exact hb m1 h1
  | false => exact ho m1 h1

theorem ifBranch_ends (hc : c.Plain) (hb : Obeys p pl (execBlock g n bd))
    (ho : Obeys p pl (execBlock g n orelse)) (hm : m.Sound p) :
    Ends (exec g n (.at l (.branch (.logStart .if_ "condition" c) bd orelse))) m
      (fun fl m' => ∃ m1, m.Enters p .if_ m1 ∧ Leaves p pl m1 fl m') (Breaks p m) := by
  have hi : ∀ {is : List Instr}, Obeys p pl (execBlock g n is) → ∀ m', m.Enters p .if_ m' → Ends (execBlock g n is) m'
        (fun fl m'' => ∃ m1, m.Enters p .if_ m1 ∧ Leaves p pl m1 fl m'') (Breaks p m) :=
    fun his m' h => (his m' h.later.sound).mono (fun _ _ h' => ⟨m', h, h'⟩) fun _ h' => .of_enters h h'
  exact branch_ends hin n l hc .if_ "condition" hm (hi hb) (hi ho)

theorem conditional_obeys (hc : c.Plain) (hb : Obeys p pl (execBlock g n bd)) (ho : Obeys p pl (execBlock g n orelse)) :
    Obeys p pl (execBlock g n
      [.at l (.branch (.logStart .if_ "condition" c) bd orelse), .at l .endFrame]) := by
  intro m hm
  rw [execBlock_cons, execBlock_single]
  refine (ifBranch_ends hin n l hc hb ho hm).andThen ?_ ?_
  · rintro m' ⟨m1, he, hl⟩
    exact endFrame_leaves n l hm (he.level ⟨hl.later, hl.stack⟩)
  · rintro _ m' hf ⟨m1, he, hl⟩
    refine ⟨hl.fits, he.later.trans hl.later, hl.stack.trans ?_⟩
    exact Flow.leaves_opened hm.trace he.opens rfl hf

theorem elif_obeys (hc : c.Plain) (hb : Closes p pl .elif (execBlock g n bd))
    (ho : Closes p pl .elif (execBlock g n orelse)) : Obeys p pl (execBlock g n
      [.at l (.branch (.logStart .elif "condition" c) bd orelse)]) := by
  intro m hm
  rw [execBlock_single]
  exact branch_ends hin n l hc .elif "condition" hm (fun m' h => hb m m' hm h) fun m' h => ho m m' hm h

end

/-! ## Loops -/

/-- How the rounds of a loop end: normally in a state that is as said, or with a return. -/
def Rounds (p : FunctionCode → Prop) (pl : Place) (m : Machine) (after : Machine → Prop) : Flow → Machine → Prop
  | .normal, m' => after m'
  | .return_ v, m' => Leaves p pl m (.return_ v) m'
  | _, _ => False

theorem Rounds.mono (h : Rounds p pl m a fl m') (ha : a m' → a' m') : Rounds p pl m a' fl m' := by
  cases fl with
  | normal => exact ha h
  | return_ | break_ | continue_ => exact h

theorem Rounds.leaves (h : Rounds p pl m a fl m') (hf : fl ≠ .normal) : Leaves p pl m fl m' := by
  cases fl with
  | normal => exact absurd rfl hf
  | return_ v => exact h
  | break_ | continue_ => exact h.elim

/-- A round that closes itself leaves the frames of the loop, which was opened in `m`. -/
theorem Leaves.afterRound (hm : m.Sound p) (he : m.Enters p k m')
    (hlo : k.isLoop = true) (hca : k ≠ .functionCall) (hl : m'.Level p m1)
    (hc : Leaves p { pl with inLoop := true } m1 fl m2) :
    fl.AfterRound (m'.Level p m2) (Rounds p pl m (m'.Level p) · m2) := by
  have hm' := he.later.sound
  have hst := Flow.leaves_loop he.opens hlo
  have hs : m2.trace.stack = fl.leaves m'.trace :=
    hc.stack.trans (Flow.leaves_quiet hm'.trace ⟨hl.stack, hl.later.frames⟩ fl)
  have hla : m'.Later p m2 := hl.later.trans hc.later
  cases fl with
  | normal => exact ⟨hla, hs⟩
  | continue_ | break_ => exact ⟨hla, hs.trans hst⟩
  | return_ v =>
    refine ⟨hc.fits, he.later.trans hla, hs.trans ?_⟩
    exact Flow.leaves_return_opened hm.trace he.opens hca v

/-- A later state in which unwinding to a loop leaves the frames that were open. -/
structure Machine.Unwinds (p : FunctionCode → Prop) (m m' : Machine) : Prop where
  later : m.Later p m'
  stack : unwindToLoop m'.trace.kindOf m'.trace.stack = m.trace.stack

theorem endLoop_later (hm : m.Sound p) (e : Machine → Prop) : Ends (exec g n (.at l .endLoop)) m
      (fun fl m' => fl = .normal ∧ m.Later p m'
        ∧ m'.trace.stack = unwindToLoop m.trace.kindOf m.trace.stack) e := by
  have hl : m.Level p (m.setLine l) := .setLine hm l
  refine ⟨rfl, hl.later.cut (.of_frames rfl) ?_ (unwindToLoop_suffix _ _), ?_⟩
  · exact unwindToLoop_ne_nil _ hl.later.sound.trace.open_
  · exact Flow.leaves_quiet hm.trace ⟨hl.stack, hl.later.frames⟩ .break_

theorem endLoop_ends (he : m.Enters p k m') (h : m'.Unwinds p m'') : Ends (exec g n (.at l .endLoop)) m''
      (fun fl m1 => fl = .normal ∧ m.Enters p k m1) (Breaks p m) := by
  refine (endLoop_later n l h.later.sound (Breaks p m)).mono ?_ fun _ h' => h'
  rintro fl m1 ⟨hf, hl, hs⟩
  exact ⟨hf, he.level ⟨h.later.trans hl, hs.trans h.stack⟩⟩

section

include hin

theorem loop_ends (hc : c.Plain) (hb : Closes p { pl with inLoop := true } .whileIteration (execBlock g n bd))
    (hm : m.Sound p) (he : m.Enters p .whileLoop m') :
    Ends (exec g n (.at l (.loop (.logStart .whileIteration "condition" c) bd))) m'
      (Rounds p pl m (m'.Unwinds p)) (Breaks p m) := by
  have hm' := he.later.sound
  have hl : ∀ m1, m'.Level p m1 → m'.Unwinds p m1 := fun m1 h1 =>
    ⟨h1.later, (Flow.leaves_quiet hm'.trace ⟨h1.stack, h1.later.frames⟩ .break_).trans (Flow.leaves_loop he.opens rfl)⟩
  refine Ends.whileLoop (i := m'.Level p) (j := fun m2 => ∃ m1, m'.Level p m1 ∧ m1.Enters p .whileIteration m2)
    (fun m1 h1 => ?_) ?_ n (.setLine hm' l)
  · refine (test_ends hin hc (.refl h1.later.sound) .whileIteration "condition").mono ?_ ?_
    · rintro (_ | _) m2 h2
      · -- the condition failed: its round is open and is passed on the way to the loop
        have hp : Flow.break_.leaves m2.trace = Flow.break_.leaves m1.trace :=
          Flow.leaves_opened h1.later.sound.trace h2.opens rfl nofun
        exact ⟨h1.later.trans h2.later, hp.trans (hl m1 h1).stack⟩
      · exact ⟨m1, h1, h2⟩
    · exact fun m2 h2 => .of_enters he (.of_level h1 h2)
  · rintro m2 ⟨m1, h1, h2⟩
    refine (hb m1 m2 h1.later.sound h2).mono (fun _ m3 h3 => ?_) fun m3 h3 => ?_
    · exact (h3.afterRound hm he rfl nofun h1).mono id fun f h4 => h4.mono (hl m3)
    · exact .of_enters he (.of_level h1 h3)

theorem whileLoop_obeys (hc : c.Plain) (hb : Closes p { pl with inLoop := true } .whileIteration (execBlock g n bd)) :
    Obeys p pl (execBlock g n [.at l (.startFrame .whileLoop "frames"),
        .at l (.loop (.logStart .whileIteration "condition" c) bd),
        .at l .endLoop, .at l .endFrame]) := by
  refine .startFrame_cons n l "frames" fun m _ hm he => ?_
  rw [execBlock_cons, execBlock_cons, execBlock_single]
  refine (loop_ends hin n l hc hb hm he).andThen (fun m1 h1 => ?_) fun fl m1 hf h1 => h1.leaves hf
  refine (endLoop_ends n l he h1).andThen (fun m2 h2 => ?_) fun fl m2 hf h2 => absurd h2.1 hf
  exact endFrame_leaves n l hm h2.2

theorem beginRound_ends (ht : t.Plain) (hv : v.Holds p) (hm : m.Sound p) (k : Trace.Kind) (set : String) :
    Ends (beginRound g (some (k, set)) t v) m (fun _ => m.Enters p k) (Breaks p m) := by
  refine (startFrame_ends (.refl hm) k set).bind fun _ _ h1 => ?_
  refine ((Settles.log none v).stays.ends_enters h1).bind fun _ _ h2 => ?_
  exact ((assign_stays hin t ht hv).ends_enters h2.2).mono (fun _ _ h => h.2) fun _ h => h

theorem iterate_ends (ht : t.Plain) (he : e.Plain)
    (hbo : Closes p { pl with inLoop := true } .forIteration (execBlock g n bd)) (hm : m.Sound p)
    (hen : m.Enters p .forLoop m') : Ends (exec g n (.at l (.iterate t (.each .forIteration "iterable" e) bd))) m'
      (Rounds p pl m (m'.Level p)) (Breaks p m) := by
  have hm' := hen.later.sound
  have hl : m'.Level p (m'.setLine l) := .setLine hm' l
  have hb : ∀ {m1 m2}, m'.Level p m1 → Breaks p m1 m2 → Breaks p m m2 :=
    fun h1 h2 => .of_enters hen (.of_level h1 h2)
  refine (((eval_settles hin e he).stays.ends_level hl).mono (fun _ _ h => h)
    fun _ h => .of_enters hen h).bind fun v m1 h1 => ?_
  refine ((((settles_evaluates p).lift (h1.2.later.sound.heap.elements h1.1)).stays.ends_level h1.2).mono
    (fun _ _ h => h) fun _ h => .of_enters hen h).bind fun es m2 h2 => ?_
  refine Ends.forLoop (p := p)
    (j := fun m4 => ∃ m3, m'.Level p m3 ∧ m3.Enters p .forIteration m4) (fun m3 w h3 hw => ?_) ?_
    (fun m3 h3 => h3) _ h2.1 h2.2
  · exact (beginRound_ends hin ht hw h3.later.sound .forIteration "iterable").mono
      (fun _ m4 h4 => ⟨m3, h3, h4⟩) fun _ h4 => hb h3 h4
  · rintro m4 ⟨m3, h3, h4⟩
    exact (hbo m3 m4 h3.later.sound h4).mono (fun _ _ h5 => h5.afterRound hm hen rfl (by decide) h3)
      fun _ h5 => hb h3 h5

theorem forLoop_obeys {t : Target} (ht : t.Plain) (he : e.Plain)
    (hb : Closes p { pl with inLoop := true } .forIteration (execBlock g n bd)) :
    Obeys p pl (execBlock g n [.at l (.startFrame .forLoop "frames"),
        .at l (.iterate t (.each .forIteration "iterable" e) bd),
        .at l .endFrame]) := by
  refine .startFrame_cons n l "frames" fun m _ hm hen => ?_
  rw [execBlock_cons, execBlock_single]
  exact (iterate_ends hin n l ht he hb hm hen).andThen
    (fun m1 h1 => endFrame_leaves n l hm (hen.level h1)) fun _ m1 hf h1 => h1.leaves hf

/-! ## Statements that leave -/

omit hin in
theorem leaveLoop_obeys (fl : Flow) (ha : execAction g n action = Pure.pure fl)
    (hf : fl.Fits p pl) (hle : ∀ t, fl.leaves t = unwindToLoop t.kindOf t.stack) :
    Obeys p pl (execBlock g n [.at l .endLoop, .at l action]) := by
  intro m hm
  rw [execBlock_cons, execBlock_single]
  refine (endLoop_later n l hm _).andThen (fun m' h => ?_) fun fl m' hfl h => absurd h.1 hfl
  obtain ⟨-, hl, hs⟩ := h
  have hli := Machine.Level.setLine hl.sound l
  rw [exec, ha]
  refine ⟨hf, hl.trans hli.later, ?_⟩
  rw [hle]
  exact hli.stack.trans hs

theorem return_obeys (he : e.Plain) (hp : pl.inFunction = true) : Obeys p pl (execBlock g n
      [.at l (.return_ (.logEnd .return_ .functionCall e))]) := by
  refine .single (fun m hm => ?_) l
  refine Ends.bind (q := fun v m' => v.Holds p ∧ m.Later p m' ∧
    m'.trace.stack = (Flow.return_ v).leaves m.trace) ?_ fun v m' h => ⟨⟨hp, h.1⟩, h.2.1, h.2.2⟩
  refine ((eval_settles hin e he).stays.ends_level (.refl hm)).bind fun v m1 h1 => ?_
  have hm1 := h1.2.later.sound
  have hq := m1.trace.quiet_logResult (some .return_) (m1.heap.str v) v.typeName
  have hc : ((m1.trace.logAndEnd .return_ .functionCall (m1.heap.str v) v.typeName).stack)
      = (Flow.return_ v).leaves m.trace :=
    (Flow.leaves_quiet hm1.trace hq (.return_ v)).trans
      (Flow.leaves_quiet hm.trace ⟨h1.2.stack, h1.2.later.frames⟩ (.return_ v))
  have hla := h1.2.later.trans (Machine.Steady.of_trace hm1 hq).level.later
  refine ⟨h1.1, hla.cut (.of_frames rfl) ?_ (unwindThrough_suffix _ _ _), hc⟩
  exact unwindThrough_ne_nil _ _ hla.sound.trace.open_

end

theorem framed_obeys (k : Trace.Kind) (hi : k.isInner = true) (h : Obeys p pl (execAction g n action)) :
    Obeys p pl (execBlock g n (Lower.framed true k l action)) :=
  .startFrame_cons n l "import" (Closes.append n l k hi (.single h l))

/-! ## Plans -/

theorem Obeys.elseBlocks {ls : Links} (h : Obeys p pl (execBlock g n (ls.emit true))) : Obeys p pl (execBlock g n
      (if ls.isDone then [] else .at l (.childSet "elseblocks") :: ls.emit true)) := by
  split
  · exact .nil n
  · exact h.childSet_cons n l _

mutual

/-- **Traced code keeps the discipline of frames.** -/
theorem plan_obeys (hin : g.Settles p) (n : Nat) {pl : Place} {q : Plan} (hf : q.Fits p pl) :
    Obeys p pl (execBlock g n (q.emit true)) := by
  match q with
  | .skip =>
    exact .nil n
  | .eval l e =>
    refine .single ?_ l
    exact .normal (logged_settles hin hf true .expression).stays
  | .assign l t e =>
    refine .single ?_ l
    rw [execAction, ← bind_assoc]
    exact .normal ((logged_settles hin hf.2 true .assignment).stays.bind fun v hv => assign_stays hin t hf.1 hv)
  | .conditional l _ _ _ =>
    refine conditional_obeys hin n l hf.1 ?_ ?_
    · exact .childSet_cons n l _ (plans_obey hin n hf.2.1)
    · exact .elseBlocks n l (links_obey hin n hf.2.2)
  | .whileLoop l _ _ =>
    refine whileLoop_obeys hin n l hf.1 ?_
    exact .iterationBody n l _ rfl (plans_obey hin n hf.2)
  | .forLoop l _ _ _ =>
    refine forLoop_obeys hin n l hf.1 hf.2.1 ?_
    exact .iterationBody n l _ rfl (plans_obey hin n hf.2.2)
  | .define l d =>
    refine .single ?_ l
    exact .normal (Stays.store _ (.function hf))
  | .return_ l e =>
    exact return_obeys hin n l hf.2 hf.1
  | .break_ l =>
    exact leaveLoop_obeys n l .break_ (by rw [execAction]) hf fun _ => rfl
  | .continue_ l =>
    exact leaveLoop_obeys n l .continue_ (by rw [execAction]) hf fun _ => rfl
  | .import_ l modules =>
    refine framed_obeys n l _ rfl ?_
    exact .normal (importAll_stays modules)
  | .fromImport l module ns =>
    refine framed_obeys n l _ rfl ?_
    rw [execAction, ← bind_assoc]
    exact .normal ((loadModule_stays module).bind fun lb _ => importNames_stays lb module ns)

theorem plans_obey (hin : g.Settles p) (n : Nat) {pl : Place} {ps : List Plan} (hf : FitAll p pl ps) :
    Obeys p pl (execBlock g n (emitAll true ps)) := by
  match ps with
  | [] =>
    exact .nil n
  | _ :: _ =>
    rw [emitAll, execBlock_append]
    exact (plan_obeys hin n hf.1).andThen (plans_obey hin n hf.2)

theorem links_obey (hin : g.Settles p) (n : Nat) {pl : Place} {ls : Links} (hf : ls.Fit p pl) :
    Obeys p pl (execBlock g n (ls.emit true)) := by
  match ls with
  | .done =>
    exact .nil n
  | .elif l _ _ _ =>
    refine elif_obeys hin n l hf.1 ?_ ?_
    · exact .iterationBody n l _ rfl (plans_obey hin n hf.2.1)
    · exact .endFrame_cons n l (links_obey hin n hf.2.2)
  | .else_ l _ =>
    refine .startFrame_cons n l _ (Closes.append n l _ rfl ?_)
    exact plans_obey hin n hf

end

end

end Playback
