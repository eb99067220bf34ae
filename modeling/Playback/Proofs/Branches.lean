import Playback.Proofs.Loops

/-!
# What the frame of a conditional holds

A traced conditional opens a frame for the value of its condition, and then runs its block, or comes to its links one
after the other, each in a frame of its own, until one is taken. `Links.comes` says which these are, `BranchRecord` what
the record is. The links are nested in one another as code, but their frames are side by side (`elif_counted`).
-/

namespace Playback

open Eval
open Lower (Plan Links Place emitAll iterationBody)
open Trace (FrameRecord EntryRecord)

variable {b : List Plan} {f : Trace.Frame} {g : Invoke} {k n : Nat} {m m' m1 m2 : Machine} {p : FunctionCode → Prop}
  {pl : Place} {v : Value}

variable {c : Expr}

/-- A link that a conditional comes to: an `elif` whose condition has a value, found in a heap, or the `else`. -/
inductive Came where
  | elif (w : Value × Heap)
  | else_

/-- The links that a conditional comes to from a state on, if each condition among them has a value. An `elif` whose
condition holds is the last. -/
def Lower.Links.comes (g : Invoke) : Links → Machine → Option (List Came)
  | .done, _ => some []
  | .elif line c _ rest, m =>
    match Eval.eval g c (m.setLine line) with
    | .error _ _ => none
    | .ok v m1 =>
      if m1.heap.truthy v then some [.elif (v, m1.heap)]
      else (rest.comes g ((m1.openFor .elif "condition" v).closeFrame line)).map (.elif (v, m1.heap) :: ·)
  | .else_ _ _, _ => some [.else_]

theorem Lower.Links.comes_elif
    (h : eval g c (m.setLine l) = .ok v m1) (b : List Plan) (r : Links) : (Links.elif l c b r).comes g m =
      if m1.heap.truthy v then some [.elif (v, m1.heap)]
      else (r.comes g ((m1.openFor .elif "condition" v).closeFrame l)).map (.elif (v, m1.heap) :: ·) := by
  rw [Links.comes, h]

/-- The record of a link: an `elif` has a block where its condition holds. -/
def Came.Recorded : Came → FrameRecord → Prop
  | .elif w, r =>
    ∃ entry, TracedLoop.Shows w entry ∧
      if w.2.truthy w.1 then ∃ block, r = ⟨.elif, [("condition", [entry]), ("block", block)]⟩
      else r = ⟨.elif, [("condition", [entry])]⟩
  | .else_, r => ∃ block, r = ⟨.else_, [("block", block)]⟩

namespace Ledger

variable {l : Ledger}

theorem cameElse (es : List Trace.Entry) (look : Nat → FrameRecord) :
    Came.Recorded .else_ (((Trace.Frame.open .else_ "block").pushAll es).record look) := by
  rw [Trace.Frame.pushAll_open]
  exact ⟨_, rfl⟩

/-- The code of links adds one frame for each that the conditional comes to. -/
def LinksCount (l : Ledger) (g : Invoke) (n : Nat) (links : Links) (m : Machine) : Prop :=
  Ends (Eval.execBlock g n (links.emit true)) m
    (fun _ m' => ∃ items, links.comes g m = some items ∧ l.Counted Came.Recorded m items m')
    fun m' => ∃ items, l.Broken Came.Recorded m items m'

section

variable (hm : l.InRun p k m)

include hm

theorem else_counted (hb : l.Keeps p k pl (execBlock g n (emitAll true b))) (ln : Nat) :
    l.LinksCount g n (.else_ ln b) m := by
  have hst := Machine.Notes.refl hm.sound
  refine (hb.framed_ends hm ln rfl "block").mono ?_ ?_
  · rintro _ m' ⟨-, ⟨es, ho⟩, hs⟩
    exact ⟨_, rfl, .single hm.sound hst (.of_size (Nat.le_refl _)) ho hs (cameElse es)⟩
  · rintro m' ⟨hm', ⟨es, ho⟩, hu⟩
    refine ⟨[.else_], .single hm.sound hst (.of_size (Nat.le_refl _)) ho hm' hu fun type msg => ?_⟩
    obtain ⟨_, -, hf⟩ := ho.logException type msg
    rw [← Trace.Frame.pushAll_append] at hf
    exact ⟨_, hf, cameElse _⟩

theorem branch_splits (hi : Evaluates.Calls p (l.Sparing p k) g) (hc : c.Plain) (ln : Nat)
    (kd : Trace.Kind) (set : String)
    (hr : ∀ m', (∃ f, eval g c (m.setLine ln) = .error (.raised f) m') → m.Notes p id m' → l.Upset m m' → e m')
    (hv : ∀ v m1, eval g c (m.setLine ln) = .ok v m1 → m.Notes p id m1 → l.Settled m m1 →
      Ends (execBlock g n (if m1.heap.truthy v then bd else orelse)) (m1.openFor kd set v) q e) :
    Ends (exec g n (.at ln (.branch (.logStart kd set c) bd orelse))) m q e := by
  have ht := (m.trace_setLine ln).symm
  have hl := (Machine.Idles.setLine hm.sound ln).notes
  refine ((logStart_ends hi hc (hm.setLine ln) kd set).mono (fun _ _ h => h) ?_).bind ?_
  · rintro m' ⟨hf, hn, hu⟩
    exact hr m' hf (hl.trans hn) (hu.of_trace ht)
  · rintro v _ ⟨m1, he, rfl, hn, hs⟩
    have hen := hv v m1 he (hl.trans hn) (hs.of_trace ht)
    change Ends (if m1.heap.truthy v then execBlock g n bd else execBlock g n orelse)
      _ q e
    cases htr : m1.heap.truthy v with
    | true | false => rwa [htr] at hen

/-- An `elif` is in a frame of its own, and the links after it are not inside that frame. -/
theorem elif_counted (hi : Evaluates.Calls p (l.Sparing p k) g) (hc : c.Plain) (ln : Nat)
    (hbo : l.Keeps p k pl (execBlock g n (emitAll true b)))
    (hr : ∀ m, l.InRun p k m → l.LinksCount g n r m) : l.LinksCount g n (.elif ln c b r) m := by
  rw [LinksCount, Links.emit, if_pos rfl, execBlock_single]
  refine branch_splits hm hi hc ln .elif "condition" ?_ ?_
  · rintro _ - hn hu
    exact ⟨[], .nil hn hu⟩
  rintro v m1 he hn hs
  have hm1 := hm.notes hn
  have hb := openFor_began hm1 .elif "condition" v
  rw [Links.comes_elif he]
  cases ht : m1.heap.truthy v with
  | true =>
    have hd : ∀ b look, Came.Recorded (.elif (v, m1.heap)) _ := decidedBy_of_truthy ht
    have hbl := hbo.block_counted hm hn hs hb (by decide) rfl rfl hd ln
    exact hbl.mono (fun _ _ h => ⟨_, rfl, h.2.2⟩) fun _ h => ⟨_, h⟩
  | false =>
    have hcl := exec_endFrame g n ln (m1.openFor .elif "condition" v)
    have hl := ((endFrame_ends n ln hm1.sound hb.enters).ok hcl).2
    have hf := (m1.openFor .elif "condition" v).closeFrame_frames ln
    have ho := hb.toOpened.close hf (Machine.closeFrame_stack _ ln)
    have hs' := hb.settled hm1.sound (.refl _) (.of_size (Nat.le_refl _)) (good_opened hb.toOpened rfl)
    have hon : l.Counted Came.Recorded m [Came.elif (v, m1.heap)] _ :=
      .single hm.sound hn hs ho (hs'.close hf) (decidedBy_of_not ht)
    have hin : l.InRun p k ((m1.openFor .elif "condition" v).closeFrame ln) := by
      obtain ⟨_, hst⟩ := hb.performs
      obtain ⟨_, hmo⟩ := (m1.openFor .elif "condition" v).closeFrame_performs ln
      exact hm1.later hl.later ⟨_, hst.trans hmo⟩
    have hl' := hn.level.trans hl
    unfold Ends
    rw [if_neg (by simp), execBlock_cons_ok hcl]
    refine Ends.mono (hr _ hin) ?_ ?_
    · rintro _ m2 ⟨xs, hcm, hco⟩
      rw [hcm]
      exact ⟨_, rfl, .append hm.sound hon hl' hco⟩
    · rintro m2 ⟨xs, hbr⟩
      exact ⟨_, .append hm.sound hon hl' hbr⟩

end

end Ledger

/-! ## The frame of a conditional -/

structure TracedIf where
  line : Nat
  condition : Expr
  body : List Instr
  links : Links

/-- The record of a conditional whose condition has a value, and which comes to these links if it has any and the
value does not hold. -/
def BranchRecord (linked : Bool) (w : Value × Heap) (came : Option (List Came)) (r : FrameRecord) : Prop :=
  ∃ entry, TracedLoop.Shows w entry ∧
    if w.2.truthy w.1 then ∃ block, r = ⟨.if_, [("condition", [entry]), ("trueblock", block)]⟩
    else if linked then
      ∃ (items : List Came) (records : List FrameRecord), came = some items
        ∧ r = ⟨.if_, [("condition", [entry]), ("elseblocks", records.map .frame)]⟩
        ∧ List.Forall₂ Came.Recorded items records
    else r = ⟨.if_, [("condition", [entry])]⟩

/-- A frame of a trace is that of such a conditional. -/
def BranchFramed (linked : Bool) (w : Value × Heap) (came : Option (List Came)) (t : Trace) (id : Nat) : Prop :=
  ∃ output sets active,
    t.frames[id]? = some ⟨.if_, ("condition", #[.result none (w.2.str w.1) w.1.typeName output]) :: sets, active⟩
      ∧ if w.2.truthy w.1 then ∃ block, sets = [("trueblock", block)]
        else if linked then
          ∃ (items : List Came) (ids : List Nat), came = some items
            ∧ sets = [("elseblocks", (ids.map Trace.Entry.frame).toArray)]
            ∧ List.Forall₂ (fun item => t.Shaped (id + 1) item.Recorded) items ids
        else sets = []

namespace TracedIf

def code (branch : TracedIf) : List Instr :=
  [.at branch.line (.branch (.logStart .if_ "condition" branch.condition)
      (.at branch.line (.childSet "trueblock") :: branch.body)
      (if branch.links.isDone then [] else .at branch.line (.childSet "elseblocks") :: branch.links.emit true)),
    .at branch.line .endFrame]

/-- The links that a conditional comes to whose condition has a value that does not hold. -/
def comes (branch : TracedIf) (g : Invoke) (v : Value) (m : Machine) : Option (List Came) :=
  branch.links.comes g ((m.openFor .if_ "condition" v).turnTo branch.line "elseblocks")

end TracedIf

section

variable {linked : Bool} {w : Value × Heap} {came : Option (List Came)} {t t' : Trace} {id : Nat}

theorem BranchFramed.lt (h : BranchFramed linked w came t id) : id < t.frames.size := by
  obtain ⟨o, _, _, hf, -⟩ := h
  exact (Array.getElem?_eq_some_iff.1 hf).1

theorem BranchFramed.kind (h : BranchFramed linked w came t id) : t.kindOf id = .if_ := by
  obtain ⟨o, _, _, hf, -⟩ := h
  rw [Trace.kindOf, hf]
  rfl

theorem BranchFramed.later (h : BranchFramed linked w came t id) (hl : t.SameFrom id t') :
    BranchFramed linked w came t' id := by
  have hlt := h.lt
  obtain ⟨o, ss, active, hf, hse⟩ := h
  refine ⟨o, ss, active, (hl id (Nat.le_refl _) hlt).trans hf, ?_⟩
  split
  · rwa [if_pos ‹_›] at hse
  rw [if_neg ‹_›] at hse
  split
  · rw [if_pos ‹_›] at hse
    obtain ⟨xs, ids, hc, hi, hli⟩ := hse
    refine ⟨xs, ids, hc, hi, hli.imp fun _ i hsh => ?_⟩
    exact hsh.later fun j hj => hl j (Nat.le_of_succ_le hj)
  · rwa [if_neg ‹_›] at hse

/-- **The record of a conditional is that of its frame.** -/
theorem BranchFramed.recorded (h : BranchFramed linked w came t id) (ht : t.Arena) :
    BranchRecord linked w came (t.frame id) := by
  obtain ⟨o, _, _, hfr, hse⟩ := h
  refine ⟨.result none (w.2.str w.1) w.1.typeName o, ⟨o, rfl⟩, ?_⟩
  rw [ht.frame_eq hfr]
  split
  · rw [if_pos ‹_›] at hse
    obtain ⟨b, rfl⟩ := hse
    exact ⟨_, rfl⟩
  rw [if_neg ‹_›] at hse
  split
  · rw [if_pos ‹_›] at hse
    obtain ⟨xs, ids, hc, rfl, hl⟩ := hse
    refine ⟨xs, ids.map t.frame, hc, ?_, List.forall₂_map_right_iff.2 (hl.imp fun _ i ⟨_, f, hf, hi⟩ => ?_)⟩
    · simp [Trace.Frame.record, Trace.entryRecord]
    · rw [ht.frame_eq hf]
      exact hi t.frame
  · rw [if_neg ‹_›] at hse
    rw [hse]
    rfl

end

namespace Ledger

variable {l : Ledger} {branch : TracedIf}

/-- A conditional has ended: it has added its frame, and the ledger is kept if it says of that frame what it should. -/
def BranchEnds (l : Ledger) (branch : TracedIf) (g : Invoke) (m m' : Machine) : Prop :=
  m.Adds m' ∧ ∃ v m1, Eval.eval g branch.condition (m.setLine branch.line) = .ok v m1
    ∧ BranchFramed (!branch.links.isDone) (v, m1.heap) (branch.comes g v m1) m'.trace m1.trace.frames.size
    ∧ (l.holds true m'.trace m1.trace.frames.size → l.Settled m m')

theorem BranchEnds.close (h : l.BranchEnds branch g m m1) (hf : m2.trace.frames = m1.trace.frames)
    (hst : ∀ id ∈ m2.trace.stack, id ∈ m1.trace.stack) : l.BranchEnds branch g m m2 := by
  obtain ⟨ha, v, m0, he, hfr, hs⟩ := h
  have hl : BranchFramed _ _ _ m2.trace _ := hfr.later fun i _ _ => by rw [hf]
  refine ⟨ha.close hf hst, v, m0, he, hl, fun hg => ?_⟩
  exact (hs (l.later hg hl.lt fun i _ _ => by rw [hf])).close hf

section

variable (hm : l.InRun p k m) (hn : m.Notes p id m1) (hs : l.Settled m m1)
  (he : eval g branch.condition (m.setLine branch.line) = .ok v m1)

include hm hn hs

/-- An exception ends a conditional, of which the ledger says nothing then. -/
theorem branch_upset (ho : m1.Opened f m2) (hk : f.kind = .if_) (hm2 : m2.trace.Sound)
    (hu : (∀ type msg, l.holds false (m2.trace.logException type msg) m1.trace.frames.size) → l.Upset m1 m2) :
    m.Adds m2 ∧ l.Upset m m2 := by
  refine ⟨⟨[_], hn.alters.trans hn.level.top_eq ho.alters⟩, ?_⟩
  refine hs.upset hm.sound hn.level ho.alters hm2 (hu fun type msg => ?_)
  exact l.conditional (by rw [ho.kind_logException, hk])

include he

theorem branchEnds_of_opened (ho : m1.Opened f m2)
    (hf : BranchFramed (!branch.links.isDone) (v, m1.heap) (branch.comes g v m1) m2.trace m1.trace.frames.size)
    (hg : l.holds true m2.trace m1.trace.frames.size → l.Settled m1 m2) : l.BranchEnds branch g m m2 := by
  refine ⟨⟨[_], hn.alters.trans hn.level.top_eq ho.alters⟩, v, m1, he, hf, fun h => ?_⟩
  exact hs.trans hm.sound hn.level ho.alters (hg h)

theorem trueblock_ends (hbo : l.Keeps p k pl (execBlock g n branch.body)) (ht : m1.heap.truthy v = true) :
    Ends (execBlock g n (.at branch.line (.childSet "trueblock") :: branch.body))
      (m1.openFor .if_ "condition" v) (fun _ => l.BranchEnds branch g m) fun m' => m.Adds m' ∧ l.Upset m m' := by
  have hm1 := hm.notes hn
  have hbe := turnTo_began hm1.sound (openFor_began hm1 .if_ "condition" v) branch.line "trueblock"
  refine Ends.mono (hbo.inside hm1 hbe) ?_ ?_
  · rintro _ m2 ⟨-, -, es, ho, hg⟩
    rw [Trace.Frame.withFirst, Trace.Frame.pushAll_turn .if_ (by decide)] at ho
    refine branchEnds_of_opened hm hn hs he ho ⟨_, _, _, ho.content, ?_⟩ hg
    rw [if_pos ht]
    exact ⟨_, rfl⟩
  · rintro m2 ⟨hb, es, ho, hu⟩
    exact branch_upset hm hn hs ho (Trace.Frame.kind_pushAll _ _) hb.later.sound.trace hu

theorem elseblocks_end (hl : ∀ m, l.InRun p k m → l.LinksCount g n branch.links m)
    (htr : m1.heap.truthy v = false) : Ends (execBlock g n
        (if branch.links.isDone then [] else .at branch.line (.childSet "elseblocks") :: branch.links.emit true))
      (m1.openFor .if_ "condition" v) (fun _ => l.BranchEnds branch g m) fun m' => m.Adds m' ∧ l.Upset m m' := by
  have hm1 := hm.notes hn
  have hb := openFor_began hm1 .if_ "condition" v
  cases hd : branch.links.isDone with
  | true =>
    refine branchEnds_of_opened hm hn hs he hb.toOpened ⟨_, _, _, hb.content, ?_⟩
      (hb.settled hm1.sound (.refl _) (.of_size (Nat.le_refl _)))
    rw [if_neg (by simp [htr]), hd]
    rfl
  | false =>
    have ht := turnTo_began hm1.sound hb branch.line "elseblocks"
    refine Ends.mono (hl _ (hm1.began ht)) ?_ ?_
    · rintro _ m2 ⟨xs, hc, ids, ha, hs', hi⟩
      have ho := ht.inside hm1.sound ha
      rw [Trace.Frame.withFirst, Trace.Frame.pushAll_turn .if_ (by decide)] at ho
      refine branchEnds_of_opened hm hn hs he ho ⟨_, _, _, ho.content, ?_⟩ (ht.settled hm1.sound ha hs')
      rw [if_neg (by simp [htr]), hd]
      exact ⟨xs, ids, hc, rfl, hi.imp fun _ _ hr => hr.from_ ht.lt⟩
    · rintro m2 ⟨xs, hm2, ids, ha, hr⟩
      have ho := ht.inside hm1.sound ha
      refine branch_upset hm hn hs ho (Trace.Frame.kind_pushAll _ _) hm2 ?_
      exact ht.upset hm1.sound ha hm2 fun type msg => (hr type msg).covers

end

variable (branch) in
/-- **A traced conditional** adds a frame to the innermost one, and that frame holds the value of its condition and the
branch that it takes. -/
theorem branch_end (hi : Evaluates.Calls p (l.Sparing p k) g) (hm : l.InRun p k m)
    (hc : branch.condition.Plain) (hb : l.Keeps p k pl (execBlock g n branch.body))
    (hl : ∀ m, l.InRun p k m → l.LinksCount g n branch.links m) :
    Ends (execBlock g n branch.code) m (fun _ => l.BranchEnds branch g m) fun m' => m.Adds m' ∧ l.Upset m m' := by
  refine (branch_splits hm hi hc branch.line .if_ "condition" ?_ ?_).andThen ?_ fun _ _ _ h => h
  · rintro m' - hn hu
    exact ⟨⟨[], hn.alters⟩, hu⟩
  · rintro v m1 he hn hs
    cases ht : m1.heap.truthy v with
    | true => exact trueblock_ends hm hn hs he hb ht
    | false => exact elseblocks_end hm hn hs he hl ht
  · rintro m' hen
    exact hen.close (m'.closeFrame_frames branch.line) (m'.closeFrame_stack branch.line)

end Ledger

end Playback
