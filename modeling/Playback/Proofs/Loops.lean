import Playback.Proofs.Opened

/-!
# What the frame of a loop holds

A traced loop opens a frame, and in it one frame for each value that its condition comes to, or each element that it
takes. `TracedLoop.values` says from the code and the state alone which values these are, and `TracedLoop.Recorded` what
the record of such a loop is. Each round adds its own frame (`Counted.append`), however it ends (`whileRounds_counted`,
`forRounds_counted`).
-/

namespace Playback

open Eval
open Lower (Place iterationBody)
open Trace (FrameRecord EntryRecord)

variable {es : Elements} {invoke : Invoke} {is : List Instr} {l : Ledger} {m m' m0 m1 m2 : Machine}
  {p : FunctionCode → Prop} {place : Place} {room rounds : Nat} {t' : Trace} {v : Value}

variable {lo i line : Nat} {k : Trace.Kind}

/-! ## The values of a loop -/

/-- The values that a condition comes to, each with the heap that it is found in. Where one of them holds, a round is
gone through, and the condition comes up again unless the round leaves the loop. -/
def Eval.conditionValues (condition : Eval Value) (round : Value → Eval Flow) : Nat → Machine → List (Value × Heap)
  | 0, _ => []
  | rounds + 1, m =>
    match condition m with
    | .error _ _ => []
    | .ok v m1 =>
      (v, m1.heap) ::
        if m1.heap.truthy v then
          match round v m1 with
          | .error _ _ => []
          | .ok flow m2 => if flow.repeats then conditionValues condition round rounds m2 else []
        else []

/-- The elements that a loop takes, each with the heap that it is found in. A round is gone through for each, and the
next one is taken unless the round leaves the loop. -/
def Eval.elementsTaken (round : Value → Eval Flow) : Nat → Elements → Machine → List (Value × Heap)
  | 0, _, _ => []
  | budget + 1, es, m =>
    match es.next? with
    | none => []
    | some (v, rest) =>
      (v, m.heap) ::
        match round v m with
        | .error _ _ => []
        | .ok flow m1 => if flow.repeats then elementsTaken round budget rest m1 else []

/-- A round of a traced loop on a condition that came to a value. -/
def Eval.whileRound (invoke : Invoke) (rounds line : Nat) (body : List Instr) (v : Value) : Eval Flow := do
  openRound (some (.whileIteration, "condition")) v
  execBlock invoke rounds (iterationBody line body)

def Eval.forRound (invoke : Invoke) (rounds line : Nat) (target : Target) (body : List Instr) (v : Value) :
    Eval Flow := do
  beginRound invoke (some (.forIteration, "iterable")) target v
  execBlock invoke rounds (iterationBody line body)

inductive TracedLoop where
  | whileLoop (line : Nat) (condition : Expr) (body : List Instr)
  | forLoop (line : Nat) (target : Target) (iterable : Expr) (body : List Instr)

namespace TracedLoop

def code : TracedLoop → List Instr
  | .whileLoop line c body =>
    [.at line (.startFrame .whileLoop "frames"),
      .at line (.loop (.logStart .whileIteration "condition" c) (iterationBody line body)),
      .at line .endLoop,
      .at line .endFrame]
  | .forLoop line t e body =>
    [.at line (.startFrame .forLoop "frames"),
      .at line (.iterate t (.each .forIteration "iterable" e) (iterationBody line body)),
      .at line .endFrame]

def kind : TracedLoop → Trace.Kind
  | .whileLoop _ _ _ => .whileLoop
  | .forLoop _ _ _ _ => .forLoop

/-- The values that the condition of a loop comes to, or the elements that it takes, where the loop itself is started in
a state: its frame is opened first. -/
def values (invoke : Invoke) (rounds : Nat) (m : Machine) : TracedLoop → List (Value × Heap)
  | .whileLoop line c body =>
    Eval.conditionValues (Eval.eval invoke c) (Eval.whileRound invoke rounds line body) rounds
      ((m.openFrame line .whileLoop "frames").setLine line)
  | .forLoop line t e body =>
    match Eval.eval invoke e ((m.openFrame line .forLoop "frames").setLine line) with
    | .error _ _ => []
    | .ok v m1 =>
      match m1.heap.elements v with
      | .error _ => []
      | .ok es => Eval.elementsTaken (Eval.forRound invoke rounds line t body) es.count es m1

/-! ## The record of a loop -/

def Shows (w : Value × Heap) (entry : EntryRecord) : Prop :=
  ∃ output, entry = .result none (w.2.str w.1) w.1.typeName output

/-- The record of the round of a condition that came to a value: it has a block where the value holds. -/
def WhileRound (w : Value × Heap) (r : FrameRecord) : Prop :=
  ∃ entry, Shows w entry ∧
    if w.2.truthy w.1 then ∃ block, r = ⟨.whileIteration, [("condition", [entry]), ("block", block)]⟩
    else r = ⟨.whileIteration, [("condition", [entry])]⟩

/-- The record of the round of an element: it has a block unless an exception was raised while the element was
assigned. -/
def ForRound (w : Value × Heap) (r : FrameRecord) : Prop :=
  ∃ entry, Shows w entry ∧ ((∃ block, r = ⟨.forIteration, [("iterable", [entry]), ("block", block)]⟩)
      ∨ ∃ type message, r = ⟨.forIteration, [("iterable", [entry, .exception type message])]⟩)

def Round : TracedLoop → Value × Heap → FrameRecord → Prop
  | .whileLoop _ _ _ => WhileRound
  | .forLoop _ _ _ _ => ForRound

/-- The record of a loop with these values. It has one frame for each of them in turn, and then only what is said. -/
def Recorded (loop : TracedLoop) (values : List (Value × Heap)) (last : List EntryRecord) (r : FrameRecord) : Prop :=
  ∃ records : List FrameRecord, r = ⟨loop.kind, [("frames", records.map .frame ++ last)]⟩
    ∧ List.Forall₂ loop.Round values records

end TracedLoop

section

variable {condition : Eval Value} {round : Value → Eval Flow}

theorem Eval.conditionValues_error (h : condition m = .error halt m1) (n : Nat) :
    conditionValues condition round n m = [] := by
  cases n with
  | zero => rfl
  | succ n => rw [conditionValues, h]

theorem Eval.conditionValues_ok (h : condition m = .ok v m1) (n : Nat) :
    conditionValues condition round (n + 1) m = (v, m1.heap) ::
      if m1.heap.truthy v then
        match round v m1 with
        | .error _ _ => []
        | .ok f m2 => if f.repeats then conditionValues condition round n m2 else []
      else [] := by
  rw [conditionValues, h]

theorem Eval.elementsTaken_some (h : es.next? = some (v, r)) (n : Nat) :
    elementsTaken round (n + 1) es m = (v, m.heap) :: match round v m with
      | .error _ _ => []
      | .ok f m1 => if f.repeats then elementsTaken round n r m1 else [] := by
  rw [elementsTaken, h]

end

/-! ## Rounds -/

/-- A frame from a number on has such a record, whatever the records of the frames in it are. -/
def Trace.Shaped (t : Trace) (lo : Nat) (q : FrameRecord → Prop) (i : Nat) : Prop :=
  lo ≤ i ∧ ∃ f, t.frames[i]? = some f ∧ ∀ look, q (f.record look)

theorem Trace.Shaped.later {t : Trace} (h : t.Shaped lo q i) (hs : t.SameFrom lo t') : t'.Shaped lo q i := by
  obtain ⟨hlo, f, hf, hq⟩ := h
  exact ⟨hlo, f, (hs i hlo (Array.getElem?_eq_some_iff.1 hf).1).trans hf, hq⟩

theorem Trace.Shaped.from_ {t : Trace} (h : t.Shaped lo q i) (hle : n ≤ lo) : t.Shaped n q i :=
  ⟨Nat.le_trans hle h.1, h.2⟩

theorem Trace.Alters.pushAll_frames {t t'' : Trace} {ids ids' : List Nat}
    (h : t.Alters (·.pushAll (ids.map .frame)) t') (ht : t'.top = t.top)
    (h' : t'.Alters (·.pushAll (ids'.map .frame)) t'') : t.Alters (·.pushAll ((ids ++ ids').map .frame)) t'' := by
  refine (h.trans ht h').of_eq fun f => ?_
  rw [List.map_append]
  exact (f.pushAll_append _ _).symm

namespace Ledger

variable {α : Type} {round : α → FrameRecord → Prop} {w : α} {values more : List α}

/-- What was opened since a state has frames for values, and of all of it the ledger is kept. -/
structure Lists (l : Ledger) (well : Bool) {α : Type} (round : α → FrameRecord → Prop) (m : Machine) (values : List α)
    (ids : List Nat) (t : Trace) : Prop where
  covers : l.Covers well m.trace.frames.size t
  rounds : List.Forall₂ (fun w => t.Shaped m.trace.frames.size (round w)) values ids

/-- Rounds for values were gone through: each has added a frame for its value to the innermost frame, and nothing else
was added. -/
def Counted (l : Ledger) {α : Type} (round : α → FrameRecord → Prop) (m : Machine) (values : List α) (m' : Machine) :
    Prop :=
  ∃ ids, m.trace.Alters (·.pushAll (ids.map .frame)) m'.trace ∧ l.Lists true round m values ids m'.trace

/-- The same of rounds of which the last was ended by an exception, once the exception is recorded. -/
def Broken (l : Ledger) {α : Type} (round : α → FrameRecord → Prop) (m : Machine) (values : List α) (m' : Machine) :
    Prop :=
  m'.trace.Sound ∧ ∃ ids, m.trace.Alters (·.pushAll (ids.map .frame)) m'.trace
    ∧ ∀ type message, l.Lists false round m values ids (m'.trace.logException type message)

theorem Counted.nil (h : m.Notes p id m') (hs : l.Settled m m') : l.Counted round m [] m' :=
  ⟨[], h.alters, hs, .nil⟩

theorem Broken.nil (h : m.Notes p id m') (hu : l.Upset m m') : l.Broken round m [] m' :=
  ⟨h.level.later.sound.trace, [], h.alters, fun type msg => ⟨hu type msg, .nil⟩⟩

theorem Counted.single (hm : m.Sound p) (hn : m.Notes p id m1) (hs : l.Settled m m1)
    (ho : m1.Opened f m2) (hs' : l.Settled m1 m2) (hr : ∀ look, round w (f.record look)) :
    l.Counted round m [w] m2 := by
  refine ⟨[m1.trace.frames.size], hn.alters.trans hn.level.top_eq ho.alters,
    hs.trans hm hn.level ho.alters hs', .cons ?_ .nil⟩
  exact ⟨hn.alters.size, f, ho.content, hr⟩

theorem Broken.single (hm : m.Sound p) (hn : m.Notes p id m1) (hs : l.Settled m m1)
    (ho : m1.Opened f m2) (hm2 : m2.trace.Sound) (hu : l.Upset m1 m2)
    (hr : ∀ type msg, ∃ f, (m2.trace.logException type msg).frames[m1.trace.frames.size]? = some f
      ∧ ∀ look, round w (f.record look)) : l.Broken round m [w] m2 := by
  refine ⟨hm2, [m1.trace.frames.size], hn.alters.trans hn.level.top_eq ho.alters,
    fun type msg => ⟨hs.upset hm hn.level ho.alters hm2 hu type msg, .cons ?_ .nil⟩⟩
  exact ⟨hn.alters.size, hr type msg⟩

/-- From a state on, a computation goes through rounds, whichever way it ends. -/
def Counts (l : Ledger) {α : Type} (round : α → FrameRecord → Prop) (m : Machine) (values : List α) (x : Eval Flow)
    (m1 : Machine) : Prop :=
  Ends x m1 (fun _ m' => l.Counted round m values m') fun m' => l.Broken round m values m'

theorem Lists.append (h : l.Lists true round m values ids m1.trace) (hs : m1.trace.SameFrom m.trace.frames.size t')
    (hle : m.trace.frames.size ≤ m1.trace.frames.size) (h' : l.Lists b round m1 more ids' t') :
    l.Lists b round m (values ++ more) (ids ++ ids') t' :=
  ⟨h.covers.trans hs h'.covers, List.rel_append (h.rounds.imp fun _ _ hr => hr.later hs)
    (h'.rounds.imp fun _ _ hr => hr.from_ hle)⟩

section

variable (hm : m.Sound p) (h : l.Counted round m values m1) (hl : m.Level p m1)

include hm h hl

theorem Counted.append (h' : l.Counted round m1 more m2) : l.Counted round m (values ++ more) m2 := by
  obtain ⟨ids, ha, hr⟩ := h
  obtain ⟨ids', ha', hr'⟩ := h'
  have hs := sameFrom_of_level hm hl (ha'.spares hl.later.sound.trace)
  exact ⟨ids ++ ids', ha.pushAll_frames hl.top_eq ha', hr.append hs ha.size hr'⟩

theorem Broken.append (h' : l.Broken round m1 more m2) : l.Broken round m (values ++ more) m2 := by
  obtain ⟨ids, ha, hr⟩ := h
  obtain ⟨hm2, ids', ha', hr'⟩ := h'
  have hs (e : Trace.Entry) := sameFrom_of_level hm hl (ha'.spares_push hl.later.sound.trace hm2 e)
  exact ⟨hm2, ids ++ ids', ha.pushAll_frames hl.top_eq ha', fun type msg => hr.append (hs _) ha.size (hr' type msg)⟩

theorem Counts.append (hx : l.Counts round m1 more x m1) : l.Counts round m (values ++ more) x m1 :=
  hx.mono (fun _ _ => .append hm h hl) fun _ => .append hm h hl

end

/-! ## The two loops -/

/-- A frame that was opened for the value of a condition has such a record. -/
def DecidedBy (k : Trace.Kind) (w : Value × Heap) (r : FrameRecord) : Prop :=
  ∃ entry, TracedLoop.Shows w entry ∧
    if w.2.truthy w.1 then ∃ block, r = ⟨k, [("condition", [entry]), ("block", block)]⟩
    else r = ⟨k, [("condition", [entry])]⟩

theorem decidedBy_of_not (h : m.heap.truthy v = false) (look : Nat → FrameRecord) :
    DecidedBy k (v, m.heap) ((Trace.Frame.withFirst k "condition" (m.shown v)).record look) := by
  refine ⟨.result none _ _ m.trace.pending.toList, ⟨_, rfl⟩, ?_⟩
  rw [if_neg (by simp [h])]
  rfl

theorem decidedBy_of_truthy (h : m.heap.truthy v = true) (b : Array Trace.Entry) (look : Nat → FrameRecord) :
    DecidedBy k (v, m.heap) ((Trace.Frame.withBlock k "condition" (m.shown v) b).record look) := by
  refine ⟨.result none _ _ m.trace.pending.toList, ⟨_, rfl⟩, ?_⟩
  rw [if_pos h]
  exact ⟨_, rfl⟩

theorem forRound_block (v : Value) (b : Array Trace.Entry) (look : Nat → FrameRecord) :
    TracedLoop.ForRound (v, m.heap) ((Trace.Frame.withBlock .forIteration "iterable" (m.shown v) b).record look) :=
  ⟨.result none _ _ m.trace.pending.toList, ⟨_, rfl⟩, .inl ⟨_, rfl⟩⟩

theorem forRound_exception (v : Value) (type msg : String) (look : Nat → FrameRecord) : TracedLoop.ForRound (v, m.heap)
      (((Trace.Frame.withFirst .forIteration "iterable" (m.shown v)).push (.exception type msg)).record look) :=
  ⟨.result none _ _ m.trace.pending.toList, ⟨_, rfl⟩, .inr ⟨type, msg, rfl⟩⟩

/-- An exception leaves a frame that has turned to its block as it is, or is one more entry of the block. -/
theorem withBlock_logException {set : String}
    (h : m.Opened (.withBlock k set e b) m') (hs : set ≠ "block") (type msg : String) :
    ∃ b, (m'.trace.logException type msg).frames[m.trace.frames.size]? = some (.withBlock k set e b) := by
  have ha : "block" ∉ [(set, #[e])].map (·.1) := by simpa using Ne.symm hs
  obtain ⟨more, -, hf⟩ := h.logException type msg
  refine ⟨b ++ more.toArray, hf.trans (congrArg some ?_)⟩
  exact Trace.Frame.pushAll_eq _ [(set, #[e])] rfl ha more

/-- The block of a round, whose frame was opened for a value, and which is the next of the rounds. -/
theorem Keeps.block_counted (his : l.Keeps p room place (execBlock invoke rounds is))
    (hm : l.InRun p room m) (hn : m.Notes p id m1) (hs : l.Settled m m1) {set : String}
    (h : l.Began p (.withFirst k set e) m1 m2) (hse : set ≠ "block")
    (hin : k.isInner = true) (hk : k.isControl = false)
    (hr : ∀ b look, round w ((Trace.Frame.withBlock k set e b).record look)) (line : Nat) :
    Ends (execBlock invoke rounds (iterationBody line is)) m2
      (fun f m3 => Leaves p place m1 f m3 ∧ (∃ ss, m1.Performs ss m3) ∧ l.Counted round m [w] m3)
      fun m3 => l.Broken round m [w] m3 := by
  refine (his.iterationBody_ends (hm.notes hn) h hse hin hk line).mono ?_ ?_
  · rintro f m3 ⟨hle, hp, ⟨b, ho⟩, hs'⟩
    exact ⟨hle, hp, .single hm.sound hn hs ho hs' (hr b)⟩
  · rintro m3 ⟨hb, ⟨b, ho⟩, hu⟩
    refine .single hm.sound hn hs ho hb.later.sound.trace hu fun type msg => ?_
    obtain ⟨b', hf⟩ := withBlock_logException ho hse type msg
    exact ⟨_, hf, hr b'⟩

section

variable (hi : Evaluates.Calls p (l.Sparing p room) invoke) (line : Nat)
  (his : l.Keeps p room { place with inLoop := true } (execBlock invoke rounds is)) (hm0 : m0.Sound p)

include hm0

theorem round_level (hk : k.isLoop = true) (he : m0.Enters p k m1) (hl : m1.Level p m) (hn : m.Notes p id m2)
    (hle : Leaves p { place with inLoop := true } m2 f m3) (hf : f.repeats = true) : m1.Level p m3 ∧ m.Level p m3 := by
  have haf := hle.afterRound hm0 he hk (Trace.Kind.ne_call_of_isLoop hk) (hl.trans hn.level)
  have ha : m1.Level p m3 := by
    cases f with
    | normal | continue_ => exact haf
    | break_ | return_ => cases hf
  exact ⟨ha, hn.level.later.trans hle.later, ha.stack.trans hl.stack.symm⟩

include hi his

/-- **The rounds of a loop on a condition** add one frame for each value that the condition comes to. The frame of the
loop was opened in `m₀`. -/
theorem whileRounds_counted {c : Expr} (hc : c.Plain) (hen : m0.Enters p .whileLoop m1) (n : Nat)
    (hm : l.InRun p room m) (hl : m1.Level p m) :
    l.Counts TracedLoop.WhileRound m (conditionValues (eval invoke c) (whileRound invoke rounds line is) n m)
      (whileLoop (do truthy (← eval invoke (.logStart .whileIteration "condition" c)))
        (execBlock invoke rounds (iterationBody line is)) n) m := by
  induction n generalizing m with
  | zero => trivial
  | succ n ih =>
    rw [whileLoop, bind_assoc]
    refine ((logStart_ends hi hc hm .whileIteration "condition").mono (fun _ _ h => h) ?_).bind ?_
    · rintro _ ⟨⟨e, he⟩, hn, hu⟩
      rw [conditionValues_error he]
      exact .nil hn hu
    rintro v _ ⟨m2, he, rfl, hn, hs⟩
    have hm2 := hm.notes hn
    have hb := openFor_began hm2 .whileIteration "condition" v
    have hr : whileRound invoke rounds line is v m2 = execBlock invoke rounds (iterationBody line is)
        (m2.openFor .whileIteration "condition" v) :=
      ok_bind (openRound_eq hm2 .whileIteration "condition" v)
    rw [conditionValues_ok he, hr]
    change Ends (if m2.heap.truthy v then _ else _) _ _ _
    cases ht : m2.heap.truthy v with
    | false =>
      refine Counted.single hm.sound hn hs hb.toOpened ?_ (decidedBy_of_not ht)
      exact hb.settled hm2.sound (.refl _) (.of_size (Nat.le_refl _)) (good_opened hb.toOpened rfl)
    | true =>
      have hbl := his.block_counted hm hn hs hb (by decide) rfl rfl (decidedBy_of_truthy ht) line
      refine (hbl.eqn.mono (fun _ _ h => h) ?_).bind ?_
      · rintro m3 ⟨⟨e, hex⟩, hbr⟩
        rw [hex]
        exact hbr
      · rintro f m3 ⟨hex, hle, hp, ho⟩
        have ha (hf : f.repeats = true) := by
          obtain ⟨hlo, hl'⟩ := round_level hm0 rfl hen hl hn hle hf
          exact Counts.append hm.sound ho hl' (ih (hm2.later hle.later hp) hlo)
        rw [hex]
        cases f with
        | normal | continue_ => exact ha rfl
        | break_ | return_ => exact ho

omit his hm0 in
theorem beginRound_began (ht : t.Plain) (hv : v.Holds p) (hm : l.InRun p room m) :
    Ends (beginRound invoke (some (.forIteration, "iterable")) t v) m
      (fun _ m2 => l.Began p (.withFirst .forIteration "iterable" (m.shown v)) m m2)
      fun m2 => l.Broken TracedLoop.ForRound m [(v, m.heap)] m2 := by
  have hb := openFor_began hm .forIteration "iterable" v
  have hbe : beginRound invoke (some (.forIteration, "iterable")) t v m
      = assign invoke t v (m.openFor .forIteration "iterable" v) := by
    change (startFrame .forIteration "iterable" >>= fun _ => log none v >>= fun _ =>
      assign invoke t v) m = _
    rw [ok_bind (hm.startFrame_eq .forIteration "iterable")]
    rfl
  have ha := (l.sparing_runs p room).assign hi t (.inl ht) (fun _ _ => trivial) hv _ (hm.began hb)
  unfold Ends at ha ⊢
  rw [hbe]
  refine Ends.mono ha ?_ ?_
  · rintro _ m2 ⟨-, hn, hs⟩
    exact hb.notes hm.sound hn hs rfl
  · rintro m2 ⟨hn, hu⟩
    have ho := hb.inside hm.sound hn.alters
    have hm2 := hn.level.later.sound.trace
    refine .single hm.sound (.refl hm.sound) (.of_size (Nat.le_refl _)) ho hm2 ?_ fun type msg => ?_
    · exact hb.upset hm.sound hn.alters hm2 hu (raised_opened ho rfl)
    · -- the frame of the round is the innermost, so the exception is recorded in it
      have hto : m2.trace.top = m.trace.frames.size := hn.level.top_eq.trans hb.top
      have hf := (m2.trace.alters_push (.exception type msg)).top
      rw [hto, ho.content] at hf
      exact ⟨_, hf, forRound_exception v type msg⟩

/-- **The rounds of a loop over elements** add one frame for each element that is taken. The frame of the loop was
opened in `m₀`. -/
theorem forRounds_counted {t : Target} (ht : t.Plain) (hen : m0.Enters p .forLoop m1) (n : Nat)
    (hes : es.Holds p) (hm : l.InRun p room m) (hl : m1.Level p m) :
    l.Counts TracedLoop.ForRound m (elementsTaken (forRound invoke rounds line t is) n es m)
      (forLoop (beginRound invoke (some (.forIteration, "iterable")) t)
        (execBlock invoke rounds (iterationBody line is)) n es) m := by
  induction n generalizing m es with
  | zero => exact .nil (.refl hm.sound) (.of_size (Nat.le_refl _))
  | succ n ih =>
    unfold forLoop
    split
    · rename_i hn
      rw [elementsTaken, hn]
      exact .nil (.refl hm.sound) (.of_size (Nat.le_refl _))
    rename_i v r hn
    obtain ⟨hv, hre⟩ := hes.next? hn
    rw [elementsTaken_some hn]
    refine ((beginRound_began hi ht hv hm).eqn.mono (fun _ _ h => h) ?_).bind ?_
    · rintro m2 ⟨⟨e, hbe⟩, hb⟩
      rw [forRound, error_bind hbe]
      exact hb
    rintro _ m2 ⟨hbe, hbg⟩
    have hr : forRound invoke rounds line t is v m = execBlock invoke rounds (iterationBody line is) m2 := ok_bind hbe
    rw [hr]
    have hbl := his.block_counted hm (.refl hm.sound) (.of_size (Nat.le_refl _)) hbg (by decide) rfl rfl
      (forRound_block v) line
    refine (hbl.eqn.mono (fun _ _ h => h) ?_).bind ?_
    · rintro m3 ⟨⟨e, he⟩, hb⟩
      rw [he]
      exact hb
    · rintro f m3 ⟨he, hle, hp, ho⟩
      have ha (hf : f.repeats = true) := by
        obtain ⟨hlo, hl'⟩ := round_level hm0 rfl hen hl (.refl hm.sound) hle hf
        exact Counts.append hm.sound ho hl' (ih hre (hm.later hle.later hp) hlo)
      rw [he]
      cases f with
      | normal | continue_ => exact ha rfl
      | break_ | return_ => exact ho

end

end Ledger

/-! ## The frame of a loop -/

/-- A frame of a trace is that of a loop with these values. -/
def TracedLoop.Framed (loop : TracedLoop) (values : List (Value × Heap)) (last : List Trace.Entry) (t : Trace)
    (id : Nat) : Prop :=
  ∃ ids : List Nat,
    t.frames[id]? = some ⟨loop.kind, [("frames", (ids.map Trace.Entry.frame ++ last).toArray)], "frames"⟩
      ∧ List.Forall₂ (fun w => t.Shaped (id + 1) (loop.Round w)) values ids

def AtMostException (last : List Trace.Entry) : Prop :=
  last = [] ∨ ∃ type message, last = [.exception type message]

namespace TracedLoop

variable {loop : TracedLoop} {values : List (Value × Heap)} {last : List Trace.Entry} {t : Trace} {id : Nat}

theorem Framed.lt (h : loop.Framed values last t id) : id < t.frames.size := by
  obtain ⟨_, hf, -⟩ := h
  exact (Array.getElem?_eq_some_iff.1 hf).1

theorem Framed.kind (h : loop.Framed values last t id) : t.kindOf id = loop.kind := by
  obtain ⟨_, hf, -⟩ := h
  rw [Trace.kindOf, hf]
  rfl

theorem Framed.later (h : loop.Framed values last t id) (hs : t.SameFrom id t') : loop.Framed values last t' id := by
  have hlt := h.lt
  obtain ⟨ids, hf, hr⟩ := h
  refine ⟨ids, (hs id (Nat.le_refl _) hlt).trans hf, ?_⟩
  exact hr.imp fun w i hr => hr.later fun j hj => hs j (Nat.le_of_succ_le hj)

/-- **The record of a loop is that of its frame.** -/
theorem Framed.recorded (h : loop.Framed values last t id) (ht : t.Arena) :
    loop.Recorded values (last.map (Trace.entryRecord t.frame)) (t.frame id) := by
  obtain ⟨ids, hfr, hr⟩ := h
  refine ⟨ids.map t.frame, ?_, List.forall₂_map_right_iff.2 (hr.imp fun w i ⟨_, f, hf, hro⟩ => ?_)⟩
  · rw [ht.frame_eq hfr]
    simp [Trace.Frame.record, Trace.entryRecord]
  · rw [ht.frame_eq hf]
    exact hro t.frame

end TracedLoop

namespace Ledger

variable {loop : TracedLoop} {values : List (Value × Heap)}

/-- A loop with these values has ended: it has added its frame, and the ledger is kept if it says of that frame what
it should. -/
def LoopEnds (l : Ledger) (loop : TracedLoop) (values : List (Value × Heap)) (m m' : Machine) : Prop :=
  m.Adds m' ∧ loop.Framed values [] m'.trace m.trace.frames.size
    ∧ (l.holds true m'.trace m.trace.frames.size → l.Settled m m')

/-- The same of a loop that an exception has ended, once the exception is recorded. -/
def LoopBreaks (l : Ledger) (loop : TracedLoop) (values : List (Value × Heap)) (m m' : Machine) : Prop :=
  m.Adds m' ∧ (∀ type message, ∃ last, AtMostException last
      ∧ loop.Framed values last (m'.trace.logException type message) m.trace.frames.size)
    ∧ ((∀ type message, l.holds false (m'.trace.logException type message) m.trace.frames.size) → l.Upset m m')

theorem LoopEnds.close (h : l.LoopEnds loop values m m1) (hf : m2.trace.frames = m1.trace.frames)
    (hst : ∀ id ∈ m2.trace.stack, id ∈ m1.trace.stack) : l.LoopEnds loop values m m2 := by
  obtain ⟨ha, hfr, hs⟩ := h
  have hla : loop.Framed values [] m2.trace _ := hfr.later fun i _ _ => by rw [hf]
  refine ⟨ha.close hf hst, hla, fun hg => ?_⟩
  exact (hs (l.later hg hla.lt fun i _ _ => by rw [hf])).close hf

section

variable (loop) (hm : m.Sound p) (h : l.Began p (.open loop.kind "frames") m m1)

include hm h

theorem Counted.loopEnds (hr : l.Counted loop.Round m1 values m2) : l.LoopEnds loop values m m2 := by
  obtain ⟨ids, ha, hse, hr⟩ := hr
  have ho := h.inside hm ha
  refine ⟨ho.adds, ⟨ids, ?_, hr.imp fun _ _ hr => hr.from_ h.lt⟩, h.settled hm ha hse⟩
  rw [List.append_nil, ← Trace.Frame.pushAll_open]
  exact ho.content

theorem Broken.loopBreaks (hr : l.Broken loop.Round m1 values m2) : l.LoopBreaks loop values m m2 := by
  obtain ⟨hm2, ids, ha, hr⟩ := hr
  have ho := h.inside hm ha
  refine ⟨ho.adds, fun type msg => ?_, h.upset hm ha hm2 fun type msg => (hr type msg).covers⟩
  obtain ⟨last, hla, hf⟩ := ho.logException type msg
  refine ⟨last, hla.imp_right fun h => ⟨type, msg, h⟩, ids, ?_, (hr type msg).rounds.imp fun _ _ hr => hr.from_ h.lt⟩
  rw [hf, ← Trace.Frame.pushAll_append, Trace.Frame.pushAll_open]

end

/-- The parts of a loop are as they should be. -/
def LoopFits (l : Ledger) (p : FunctionCode → Prop) (room : Nat) (place : Place) (invoke : Invoke) (rounds : Nat) :
    TracedLoop → Prop
  | .whileLoop _ c body =>
    c.Plain ∧ l.Keeps p room { place with inLoop := true } (Eval.execBlock invoke rounds body)
  | .forLoop _ t e body =>
    t.Plain ∧ e.Plain ∧ l.Keeps p room { place with inLoop := true } (Eval.execBlock invoke rounds body)

section

variable (hi : Evaluates.Calls p (l.Sparing p room) invoke) (hm : l.InRun p room m)

include hi hm

theorem iterate_counts (hlo : l.LoopFits p room place invoke rounds (.forLoop line t e b)) (hm0 : m0.Sound p)
    (hen : m0.Enters p .forLoop m) : l.Counts TracedLoop.ForRound m (match eval invoke e m with
      | .error _ _ => []
      | .ok v m1 => match m1.heap.elements v with
        | .error _ => []
        | .ok es => elementsTaken (forRound invoke rounds line t b) es.count es m1) (execAction invoke rounds
        (.iterate t (.each .forIteration "iterable" e) (iterationBody line b))) m := by
  obtain ⟨ht, he, hb⟩ := hlo
  have hva := ((l.sparing_runs p room).eval hi e (.inl he) m hm).eqn
  refine (hva.mono (fun _ _ h => h) ?_).bind ?_
  · rintro m1 ⟨⟨f, hev⟩, hn, hu⟩
    rw [hev]
    exact .nil hn hu
  rintro v m1 ⟨hev, hv, hn, hs⟩
  have hno : l.Counted TracedLoop.ForRound m [] m1 := .nil hn hs
  rw [hev]
  dsimp only
  change Ends (lift (m1.heap.elements v) >>= fun es => forLoop _ _ es.count es) m1 _ _
  cases hel : m1.heap.elements v with
  | error f =>
    have hm1 := hn.level.later.sound.trace
    exact Broken.nil hn (hs.upset hm.sound hn.level (.refl _) hm1 (.of_size (Nat.le_refl _)))
  | ok es =>
    have hes := hn.level.later.sound.heap.elements hv es hel
    have hr := forRounds_counted hi line hb hm0 ht hen es.count hes (hm.notes hn) hn.level
    exact Counts.append hm.sound hno hn.level hr

/-- **A traced loop** adds a frame to the innermost one, and that frame holds one frame for each of the values of the
loop in turn, and nothing else but an exception that has ended it. -/
theorem loop_ends (hlo : l.LoopFits p room place invoke rounds loop) :
    Ends (execBlock invoke rounds loop.code) m (fun _ m' => l.LoopEnds loop (loop.values invoke rounds m) m m')
      fun m' => l.LoopBreaks loop (loop.values invoke rounds m) m m' := by
  have hs (line : Nat) (kind : Trace.Kind) :
      l.Began p (.open kind "frames") m ((m.openFrame line kind "frames").setLine line) := by
    have hb := openFrame_began hm line kind "frames"
    refine hb.notes hm.sound (Machine.Idles.setLine hb.enters.later.sound line).notes (.of_size (Nat.le_of_eq ?_)) rfl
    rw [Machine.trace_setLine]
  cases loop with
  | whileLoop line c body =>
    have hb := hs line .whileLoop
    have hr := whileRounds_counted hi line hlo.2 hm.sound hlo.1 hb.enters rounds (hm.began hb)
      (.refl hb.enters.later.sound)
    unfold Ends TracedLoop.code
    rw [execBlock_cons_ok (exec_startFrame hm rounds line .whileLoop "frames")]
    refine Ends.andThen (hr.mono (fun _ m' h => ?_) fun m' h => ?_) (fun m' h => ?_) fun _ _ _ h => h
    · exact Counted.loopEnds (.whileLoop line c body) hm.sound hb h
    · exact Broken.loopBreaks (.whileLoop line c body) hm.sound hb h
    · exact (h.close (m'.closeLoop_frames line) (m'.closeLoop_stack line)).close
        (Machine.closeFrame_frames _ line) (Machine.closeFrame_stack _ line)
  | forLoop line t e body =>
    have hb := hs line .forLoop
    have hr := iterate_counts hi (hm.began hb) hlo hm.sound hb.enters
    unfold Ends TracedLoop.code
    rw [execBlock_cons_ok (exec_startFrame hm rounds line .forLoop "frames")]
    refine Ends.andThen (hr.mono (fun _ m' h => ?_) fun m' h => ?_) (fun m' h => ?_) fun _ _ _ h => h
    · exact Counted.loopEnds (.forLoop line t e body) hm.sound hb h
    · exact Broken.loopBreaks (.forLoop line t e body) hm.sound hb h
    · exact h.close (m'.closeFrame_frames line) (m'.closeFrame_stack line)

end

end Ledger

end Playback
