import Playback.Proofs.Calls

/-!
# Where execution stands

A statement may leave a loop or a function only from inside one, and in traced code the frame of that loop or call is
then open: `Stands` says so of a place and a trace, and with it the frames that code leaves can be said without
unwinding (`Flow.Cuts`). `Ready` lists what code may be left in which state: the code of plans, or the rest of the code
of one statement with the frames that it still has to close.
-/

namespace Playback

open Eval List
open Lower (Plan Links Place FitAll Lowered emitAll iterationBody)

variable {loop l : Nat} {q : Place} {p : FunctionCode → Prop} {r is b orelse a : List Instr}

/-! ## Places and open frames -/

/-- The frames that a place asks for are open: a loop's inside a loop, above the innermost call's, and a
call's inside a function. -/
structure Stands (q : Place) (t : Trace) : Prop where
  loop : q.inLoop = true → ∃ inn loop o, t.stack = inn ++ loop :: o
    ∧ (t.kindOf loop).isLoop = true ∧ ∀ id ∈ inn, t.kindOf id ≠ .functionCall
  call : q.inFunction = true → ∃ inn call o, t.stack = inn ++ call :: o ∧ t.kindOf call = .functionCall ∧ o ≠ []

variable {f : Invoke} {fl : Flow} {i : Instr} {ls : Links} {t' : Trace} {v : Value}

namespace Stands

variable {q : Place} {t : Trace} {k : Trace.Kind}

theorem file (t : Trace) : Stands { inLoop := false, inFunction := false } t :=
  ⟨nofun, nofun⟩

/-- Frames on top of the open ones take none of them away, unless one is a call's. -/
theorem grow (h : Stands q t) (ht : t.Sound) (he : t.Extends t') (x : List Nat)
    (hg : t'.stack = x ++ t.stack) (hex : ∀ id ∈ x, t'.kindOf id ≠ .functionCall) : Stands q t' := by
  have hk : ∀ id ∈ t.stack, t'.kindOf id = t.kindOf id := fun id hid => he.kind id (ht.known id hid)
  refine ⟨fun hp => ?_, fun hp => ?_⟩
  · obtain ⟨inn, loop, o, hs, _, hin⟩ := h.loop hp
    rw [hs] at hk hg
    refine ⟨x ++ inn, loop, o, by rw [hg, append_assoc], ?_, forall_mem_append.2 ⟨hex, fun id hid => ?_⟩⟩
    · rwa [hk loop (by simp)]
    · rw [hk id (mem_append_left _ hid)]
      exact hin id hid
  · obtain ⟨inn, c, o, hs, _, ho⟩ := h.call hp
    rw [hs] at hk hg
    refine ⟨x ++ inn, c, o, by rw [hg, append_assoc], ?_, ho⟩
    rwa [hk c (by simp)]

theorem quiet (h : Stands q t) (ht : t.Sound) (hq : t.Quiet t') : Stands q t' :=
  h.grow ht hq.extends_ [] hq.stack (forall_mem_nil _)

theorem opens (h : Stands q t) (ht : t.Sound) (ho : Trace.Opens k t t') (hk : k ≠ .functionCall) : Stands q t' := by
  obtain ⟨id, hc, -, hid⟩ := ho.stack
  exact h.grow ht ho.extends_ [id] hc (forall_mem_cons.2 ⟨hid ▸ hk, forall_mem_nil _⟩)

theorem enterLoop (h : Stands q t) (ht : t.Sound) (ho : Trace.Opens k t t')
    (hl : k.isLoop = true) (hk : k ≠ .functionCall) : Stands { q with inLoop := true } t' := by
  obtain ⟨id, hc, -, hid⟩ := ho.stack
  exact ⟨fun _ => ⟨[], id, t.stack, hc, hid ▸ hl, forall_mem_nil _⟩, fun hp => (h.opens ht ho hk).call hp⟩

theorem enterCall (ht : t.Sound) (ho : Trace.Opens .functionCall t t') : Stands .function t' := by
  obtain ⟨id, hc, -, hid⟩ := ho.stack
  exact ⟨nofun, fun _ => ⟨[], id, t.stack, hc, hid, ht.open_⟩⟩

end Stands

/-- The frames that are left by the way that code ends: all of them, those from the innermost loop on, or those
below the innermost call. -/
def Flow.Cuts (t t' : Trace) : Flow → Prop
  | .normal => t'.stack = t.stack
  | .return_ _ => ∃ inn call o, t.stack = inn ++ call :: o
      ∧ t.kindOf call = .functionCall ∧ (∀ id ∈ inn, t.kindOf id ≠ .functionCall)
      ∧ t'.stack = o
  | _ => ∃ inn loop o, t.stack = inn ++ loop :: o
      ∧ (t.kindOf loop).isLoop = true ∧ (∀ id ∈ inn, (t.kindOf id).isInner = true)
      ∧ t'.stack = loop :: o

variable {kindOf : Nat → Trace.Kind} {inn o : List Nat}

theorem Trace.unwindToLoop_split (hl : (kindOf loop).isLoop = true) (hin : ∀ id ∈ inn, kindOf id ≠ .functionCall) :
    ∃ inn' loop' o', inn ++ loop :: o = inn' ++ loop' :: o'
      ∧ (kindOf loop').isLoop = true ∧ (∀ id ∈ inn', (kindOf id).isInner = true)
      ∧ Trace.unwindToLoop kindOf (inn ++ loop :: o) = loop' :: o' := by
  induction inn with
  | nil => exact ⟨[], loop, o, rfl, hl, forall_mem_nil _, Trace.unwindToLoop_loop hl⟩
  | cons id r ih =>
    obtain ⟨hid, hr⟩ := forall_mem_cons.1 hin
    cases hk : (kindOf id).isLoop with
    | true => exact ⟨[], id, r ++ loop :: o, rfl, hk, forall_mem_nil _, Trace.unwindToLoop_loop hk⟩
    | false =>
      obtain ⟨inn', loop', o', hs, hl', hin', hu⟩ := ih hr
      have hp : (kindOf id).isInner = true := by simp [Trace.Kind.isInner, hk, hid]
      refine ⟨id :: inn', loop', o', congrArg (id :: ·) hs, hl', forall_mem_cons.2 ⟨hp, hin'⟩, ?_⟩
      exact (Trace.unwindToLoop_cons (by simp) hp).trans hu

theorem Trace.unwindThrough_split (hc : kindOf c = k) (ho : o ≠ []) :
    ∃ inn' c' o', inn ++ c :: o = inn' ++ c' :: o' ∧ kindOf c' = k ∧ (∀ id ∈ inn', kindOf id ≠ k)
      ∧ Trace.unwindThrough kindOf k (inn ++ c :: o) = o' := by
  induction inn with
  | nil =>
    exact ⟨[], c, o, rfl, hc, forall_mem_nil _, Trace.unwindThrough_kind ho hc⟩
  | cons id r ih =>
    by_cases hk : kindOf id = k
    · exact ⟨[], id, r ++ c :: o, rfl, hk, forall_mem_nil _, Trace.unwindThrough_kind (by simp) hk⟩
    · obtain ⟨inn', c', o', hs, hc', hin', hu⟩ := ih
      refine ⟨id :: inn', c', o', congrArg (id :: ·) hs, hc', forall_mem_cons.2 ⟨hk, hin'⟩, ?_⟩
      exact (Trace.unwindThrough_cons (by simp) hk).trans hu

/-- **Where the frames that a place asks for are open, unwinding finds them.** -/
theorem Stands.cuts {t : Trace} (h : Stands q t) (hf : fl.Fits p q) (hl : t'.stack = fl.leaves t) : fl.Cuts t t' := by
  have hlo : q.inLoop = true → t'.stack = Trace.unwindToLoop t.kindOf t.stack →
      Flow.break_.Cuts t t' := by
    intro hp hst
    obtain ⟨inn, loop, o, hs, hk, hin⟩ := h.loop hp
    rw [hs] at hst
    obtain ⟨inn', loop', o', hs', hk', hin', hu⟩ :=
      Trace.unwindToLoop_split hk hin
    exact ⟨inn', loop', o', hs.trans hs', hk', hin', hst.trans hu⟩
  cases fl with
  | normal => exact hl
  | break_ | continue_ => exact hlo hf hl
  | return_ v =>
    obtain ⟨inn, c, o, hs, hk, ho⟩ := h.call hf.1
    unfold Flow.leaves at hl
    rw [hs] at hl
    obtain ⟨inn', c', o', hs', hk', hin', hu⟩ :=
      Trace.unwindThrough_split hk ho
    exact ⟨inn', c', o', hs.trans hs', hk', hin', hl.trans hu⟩

/-! ## What is left of traced code -/

/-- An expression of lowered code: plain, or one that is plain with a report to the trace around it. -/
inductive Expr.Recorded : Expr → Prop where
  | plain : e.Plain → Recorded e
  | log : e.Plain → Recorded (.log k e)
  | logStart {set : String} : e.Plain → Recorded (.logStart k set e)
  | logEnd : e.Plain → Recorded (.logEnd k until_ e)
  | each {set : String} : e.Plain → Recorded (.each k set e)

/-- An expression that records its value once it is evaluated. -/
inductive Expr.Takes : Expr → Prop where
  | log (k : Option Trace.Kind) (e : Expr) : Takes (.log k e)
  | logStart (k : Trace.Kind) (set : String) (e : Expr) : Takes (.logStart k set e)
  | logEnd (k until_ : Trace.Kind) (e : Expr) : Takes (.logEnd k until_ e)

/-- What may stand after the statements of a block: nothing, or the end of the frame around them. -/
def Tail (is : List Instr) : Prop :=
  is = [] ∨ ∃ line, is = [.at line .endFrame]

/-- The traced code of statements, or of the links of a conditional. -/
inductive Coded (q : Place) : List Instr → Prop where
  | plans : FitAll Lowered q ps → Tail rest → Coded q (emitAll true ps ++ rest)
  | links {links : Links} : links.Fit Lowered q → Coded q (links.emit true)

theorem Coded.of_plans (hps : FitAll Lowered q ps) : Coded q (emitAll true ps) := by
  have hc : Coded q (emitAll true ps ++ []) := .plans hps (.inl rfl)
  rwa [append_nil] at hc

/-- The first instruction of the code of plans is that of one of them, and the others come after it. -/
theorem uncons_plans (hps : FitAll Lowered q ps) (hc : emitAll t ps ++ r = i :: is) :
    (∃ (p : Plan) (ps' : List Plan) (tail : List Instr), p.Fits Lowered q ∧ FitAll Lowered q ps'
      ∧ p.emit t = i :: tail ∧ is = tail ++ (emitAll t ps' ++ r)) ∨ r = i :: is := by
  induction ps with
  | nil => exact .inr hc
  | cons p ps ih =>
    obtain ⟨hp, hpr⟩ := hps
    rw [emitAll, append_assoc] at hc
    cases he : p.emit t with
    | nil =>
      rw [he] at hc
      exact ih hpr hc
    | cons j tail =>
      rw [he] at hc
      cases hc
      exact .inl ⟨p, ps, tail, hp, hpr, he, rfl⟩

/-- A frame of the given kind was opened where a place stands, and is still the innermost. -/
def Within (q : Place) (k : Trace.Kind) (m : Machine) : Prop :=
  ∃ m0 : Machine, m0.Sound Lowered ∧ Stands q m0.trace ∧ m0.Enters Lowered k m

/-- How many entries the child set has that the next frame would be added to. -/
def Machine.filled (m : Machine) : Nat :=
  m.trace.topFrame.activeSize

def Action.isLoop : Action → Bool
  | .loop _ _ => true
  | .iterate _ _ _ => true
  | _ => false

def Action.isImport : Action → Bool
  | .import_ _ => true
  | .fromImport _ _ => true
  | _ => false

/-- What traced code may be left in which state. -/
inductive Ready (q : Place) : List Instr → Machine → Prop where
  | nothing (m : Machine) : Ready q [] m
  /-- The loop is left. -/
  | left {is : List Instr} (m : Machine) : action = .break_ ∨ action = .continue_ → Ready q (.at line action :: is) m
  /-- Statements stand here. -/
  | here {is : List Instr} : Coded q is → Stands q m.trace → Ready q is m
  | turn {set : String} {is : List Instr} : Coded q is → Stands q m.trace → Ready q (.at line (.childSet set) :: is) m
  /-- A frame is to be closed. -/
  | close {is : List Instr} : Coded q is → Within q k m → Ready q (.at line .endFrame :: is) m
  /-- The rounds of a loop on a condition are over. -/
  | unwind {is : List Instr} : Coded q is → Within q .whileLoop m → m.Unwinds Lowered m' →
    Ready q (.at line .endLoop :: .at line' .endFrame :: is) m'
  /-- The rounds of a loop on a condition are to come, and its frame is empty. -/
  | loop {is : List Instr} :
    c.Plain → FitAll Lowered { q with inLoop := true } ps → Coded q is → Within q .whileLoop m → m.filled = 0 →
    Ready q (.at line (.loop (.logStart .whileIteration "condition" c)
      (iterationBody line (emitAll true ps))) :: .at line .endLoop :: .at line .endFrame :: is) m
  /-- The rounds of a loop over elements are to come. -/
  | iterate {is : List Instr} : t.Plain → e.Plain → FitAll Lowered { q with inLoop := true } ps → Coded q is →
    Within q .forLoop m → m.filled = 0 → Ready q (.at line (.iterate t (.each .forIteration "iterable" e)
      (iterationBody line (emitAll true ps))) :: .at line .endFrame :: is) m
  /-- An import is to come. -/
  | import_ {is : List Instr} : action.isImport = true → Coded q is → Within q k m →
    Ready q (.at line action :: .at line .endFrame :: is) m

section

variable {q : Place} {k : Trace.Kind} {m m' : Machine}

theorem Within.level (h : Within q k m) (hl : m.Level Lowered m') : Within q k m' := by
  obtain ⟨m0, hm0, hs, he⟩ := h
  exact ⟨m0, hm0, hs, he.level hl⟩

theorem Within.of_stands (hm : m.Sound Lowered) (hs : Stands q m.trace) (he : m.Enters Lowered k m') : Within q k m' :=
  ⟨m, hm, hs, he⟩

/-! ## One instruction further -/

theorem import_stays (n ln : Nat) (h : action.isImport = true) : Stays p (exec f n (.at ln action)) (· = .normal) := by
  refine Stays.at_ ?_ ln
  unfold Action.isImport at h
  split at h
  · exact (importAll_stays _).bind fun _ _ => .pure rfl
  · refine (loadModule_stays _).bind fun l _ => ?_
    exact (importNames_stays l _ _).bind fun _ _ => .pure rfl
  · cases h

theorem Machine.filled_addFrame (m : Machine) (k : Trace.Kind) (set : String) :
    Machine.filled { m with trace := m.trace.addFrame k set } = 0 := by
  have ht (t : Trace) : (t.openFrame k set).topFrame = .open k set := by
    change (t.frames.push _)[t.frames.size]?.getD _ = _
    rw [Array.getElem?_push_size]
    rfl
  rw [Machine.filled, Trace.addFrame, ht]
  simp [Trace.Frame.activeSize, Trace.Frame.open]

variable {n : Nat}

theorem exec_startFrame_filled {set : String}
    (h : exec f n (.at l (.startFrame k set)) m = .ok fl m') : m'.filled = 0 := by
  change (startFrame k set >>= fun _ => pure Flow.normal) (m.setLine l) = _ at h
  obtain ⟨_, _, hs, hd⟩ := bind_ok h
  rw [startFrame_eq] at hs
  split at hs
  · cases hs
  · cases hs
    cases hd
    exact Machine.filled_addFrame _ k set

variable (hi : f.Settles Lowered)

include hi

variable {ps : List Plan}

variable {is : List Instr}

/-- After an instruction of traced code the rest fits the open frames. -/
theorem ready_plans (hps : FitAll Lowered q ps) (hr : Tail r) (hm : m.Sound Lowered)
    (hs : Stands q m.trace) (hcd : emitAll true ps ++ r = i :: is)
    (hex : exec f n i m = .ok .normal m') : m.Later Lowered m' ∧ Ready q is m' := by
  rcases uncons_plans hps hcd with ⟨p, ps', tail, hp, hps', hem, rfl⟩ | rfl
  · have ha : Coded q (emitAll true ps' ++ r) := .plans hps' hr
    have ho := plan_obeys hi n hp m hm
    -- a plan of one instruction ends level, so the plans after it stand there
    have hsi : tail = [] →
        m.Later Lowered m' ∧ Ready q (tail ++ (emitAll true ps' ++ r)) m' := by
      rintro rfl
      rw [hem, execBlock_single] at ho
      have hl := ho.ok hex
      refine ⟨hl.later, .here ha ?_⟩
      exact hs.quiet hm.trace ⟨hl.stack, hl.later.frames⟩
    cases p with
    | skip => cases hem
    | eval | assign | define | return_ =>
      cases hem
      exact hsi rfl
    | break_ l =>
      cases hem
      exact ⟨((endLoop_later n l hm (Breaks Lowered m)).ok hex).2.1, .left m' (.inl rfl)⟩
    | continue_ l =>
      cases hem
      exact ⟨((endLoop_later n l hm (Breaks Lowered m)).ok hex).2.1, .left m' (.inr rfl)⟩
    | conditional l c b _ =>
      cases hem
      obtain ⟨hc, hb, hln⟩ := hp
      obtain ⟨_, he, hl⟩ := (ifBranch_ends hi n l hc (.childSet_cons n l _ (plans_obey hi n hb))
        (.elseBlocks n l (links_obey hi n hln)) hm).ok hex
      have hop := he.level ⟨hl.later, hl.stack⟩
      exact ⟨hop.later, .close ha (.of_stands hm hs hop)⟩
    | whileLoop l c b =>
      cases hem
      have he := ((startFrame_exec n l hm .whileLoop "frames").ok hex).2
      exact ⟨he.later, .loop hp.1 hp.2 ha (.of_stands hm hs he) (exec_startFrame_filled hex)⟩
    | forLoop l t e b =>
      cases hem
      have he := ((startFrame_exec n l hm .forLoop "frames").ok hex).2
      exact ⟨he.later, .iterate hp.1 hp.2.1 hp.2.2 ha (.of_stands hm hs he) (exec_startFrame_filled hex)⟩
    | import_ l _ =>
      cases hem
      have he := ((startFrame_exec n l hm .import_ "import").ok hex).2
      exact ⟨he.later, .import_ rfl ha (.of_stands hm hs he)⟩
    | fromImport l _ _ =>
      cases hem
      have he := ((startFrame_exec n l hm .fromImport "import").ok hex).2
      exact ⟨he.later, .import_ rfl ha (.of_stands hm hs he)⟩
  · rcases hr with hr | ⟨l, hr⟩
    · cases hr
    · cases hr
      exact ⟨((endFrame_later n l hm (Breaks Lowered m)).ok hex).2, .nothing m'⟩

theorem ready_links (hl : ls.Fit Lowered q) (hm : m.Sound Lowered) (hs : Stands q m.trace) (hc : ls.emit true = i :: is)
    (hex : exec f n i m = .ok .normal m') : m.Later Lowered m' ∧ Ready q is m' := by
  have ho := links_obey hi n hl m hm
  cases ls with
  | done => cases hc
  | elif l c b r =>
    rw [hc] at ho
    cases hc
    rw [execBlock_single] at ho
    exact ⟨(ho.ok hex).later, .nothing m'⟩
  | else_ l b =>
    cases hc
    have he := ((startFrame_exec n l hm .else_ "block").ok hex).2
    exact ⟨he.later, .here (.plans hl (.inr ⟨l, rfl⟩)) (hs.opens hm.trace he.opens nofun)⟩

/-- **What is left after an instruction is ready again.** -/
theorem Ready.next (h : Ready q (i :: is) m) (hm : m.Sound Lowered)
    (hex : exec f n i m = .ok .normal m') : m.Later Lowered m' ∧ Ready q is m' := by
  generalize hcd : i :: is = code at h
  cases h with
  | nothing => cases hcd
  | left _ ha =>
    cases hcd
    rcases ha with rfl | rfl
    all_goals
      cases hex
  | here hco hs =>
    cases hco with
    | plans hps hre => exact ready_plans hi hps hre hm hs hcd.symm hex
    | links hli => exact ready_links hi hli hm hs hcd.symm hex
  | turn hco hs =>
    cases hcd
    have hl := ((childSet_stays n _ _ m hm).ok hex).2
    exact ⟨hl.later, .here hco (hs.quiet hm.trace ⟨hl.stack, hl.later.frames⟩)⟩
  | close hco hw =>
    cases hcd
    obtain ⟨m0, hm0, hs, hen⟩ := hw
    have hl := ((endFrame_ends n _ hm0 hen).ok hex).2
    refine ⟨((endFrame_later n _ hm (Breaks Lowered m)).ok hex).2, .here hco ?_⟩
    exact hs.quiet hm0.trace ⟨hl.stack, hl.later.frames⟩
  | unwind hco hw hu =>
    cases hcd
    obtain ⟨m0, hm0, hs, hen⟩ := hw
    have ho := ((endLoop_ends n _ hen hu).ok hex).2
    exact ⟨((endLoop_later n _ hm (Breaks Lowered m)).ok hex).2.1, .close hco (.of_stands hm0 hs ho)⟩
  | loop hc hps hco hw =>
    cases hcd
    obtain ⟨m0, hm0, hs, hen⟩ := hw
    have hr := (loop_ends hi n _ hc (.iterationBody n _ _ rfl (plans_obey hi n hps)) hm0 hen).ok hex
    exact ⟨hr.later, .unwind hco (.of_stands hm0 hs hen) hr⟩
  | iterate ht he hps hco hw =>
    cases hcd
    obtain ⟨m0, hm0, hs, hen⟩ := hw
    have hr := (iterate_ends hi n _ ht he (.iterationBody n _ _ rfl (plans_obey hi n hps)) hm0 hen).ok hex
    exact ⟨hr.later, .close hco (.of_stands hm0 hs (hen.level hr))⟩
  | import_ ha hco hw =>
    cases hcd
    have hl := ((import_stays n _ ha m hm).ok hex).2
    exact ⟨hl.later, .close hco (hw.level hl)⟩

/-! ## Blocks inside instructions -/

omit hi in
theorem ready_round (hps : FitAll Lowered q ps) (hs : Stands q m.trace) (l : Nat) :
    Ready q (iterationBody l (emitAll true ps)) m :=
  .turn (.plans hps (.inr ⟨l, rfl⟩)) hs

theorem Ready.branch (h : Ready q (.at l (.branch c b orelse) :: is) m) (hm : m.Sound Lowered)
    (hev : eval f c (m.setLine l) = .ok v m') : m.Later Lowered m' ∧ Ready q b m' ∧ Ready q orelse m' := by
  generalize hco : Instr.at l (.branch c b orelse) :: is = code at h
  cases h with
  | here hce hs =>
    cases hce with
    | plans hps hr =>
      rcases uncons_plans hps hco.symm with ⟨p, _, _, hp, _, hem, -⟩ | rfl
      · cases p with
        | conditional l c b ls =>
          cases hem
          obtain ⟨hc, hb, hl⟩ := hp
          have he := (logStart_ends hi hc (.setLine hm l) .if_ "condition").ok hev
          have hin := hs.opens hm.trace he.opens nofun
          refine ⟨he.later, .turn (.of_plans hb) hin, ?_⟩
          split
          · exact .nothing m'
          · exact .turn (.links hl) hin
        | _ => cases hem
      · rcases hr with hr | ⟨l, hr⟩
        · cases hr
        · cases hr
    | @links ls hl =>
      cases ls with
      | elif l c b r =>
        cases hco
        obtain ⟨hc, hb, hr⟩ := hl
        have he := (logStart_ends hi hc (.setLine hm _) .elif "condition").ok hev
        have hin := hs.opens hm.trace he.opens nofun
        refine ⟨he.later, ready_round hb hin _, ?_⟩
        exact .close (.links hr) (.of_stands hm hs he)
      | _ => cases hco
  | left _ ha =>
    cases hco
    rcases ha with h | h <;> cases h
  | import_ ha =>
    cases hco
    cases ha
  | _ => cases hco

/-- The code of a round of a loop at a place. -/
def RoundCode (q : Place) (traced : Bool) (body : List Instr) : Prop :=
  ∃ line ps, FitAll Lowered { q with inLoop := true } ps
    ∧ body = if traced then iterationBody line (emitAll true ps) else emitAll false ps

/-- An expression that code evaluates for its value, which traced code records. -/
def Expr.Valued (traced : Bool) (e : Expr) : Prop :=
  e.Recorded ∧ (traced = true → e.Takes)

/-- What code asks for where it comes to an action. -/
def Expects (q : Place) (traced : Bool) (m : Machine) : Action → Prop
  | .eval e => e.Valued traced
  | .assign t e => t.Plain ∧ ∃ e', e'.Plain ∧ e = Lower.logged traced .assignment e'
  | .branch c _ _ => c.Valued traced
  | .loop c body =>
    (∃ c', c'.Plain ∧ c = if traced then .logStart .whileIteration "condition" c' else c')
      ∧ RoundCode q traced body ∧ (traced = true → Within q .whileLoop m)
  | .iterate t e body => t.Plain ∧ (∃ e', e'.Plain ∧ e = if traced then .each .forIteration "iterable" e' else e')
      ∧ RoundCode q traced body ∧ (traced = true → Within q .forLoop m)
  | .return_ e => e.Valued traced
  | _ => True

omit hi in
/-- **Whatever traced code comes to, it has what it asks for**, and where it comes to a loop the frame of the loop is
empty. -/
theorem Ready.first {action : Action} (h : Ready q (.at l action :: is) m) :
    Expects q true m action ∧ (action.isLoop = true → m.filled = 0) := by
  generalize hco : Instr.at l action :: is = code at h
  cases h with
  | nothing => cases hco
  | left _ ha =>
    cases hco
    rcases ha with rfl | rfl <;> exact ⟨trivial, nofun⟩
  | here hcd _ =>
    cases hcd with
    | plans hps hr =>
      rcases uncons_plans hps hco.symm with ⟨p, _, _, hp, _, hem, -⟩ | rfl
      · cases p with
        | skip => cases hem
        | eval l e =>
          cases hem
          exact ⟨⟨.log hp, fun _ => .log _ _⟩, nofun⟩
        | assign l t e =>
          cases hem
          exact ⟨⟨hp.1, e, hp.2, rfl⟩, nofun⟩
        | conditional l c b ls =>
          cases hem
          exact ⟨⟨.logStart hp.1, fun _ => .logStart _ _ _⟩, nofun⟩
        | return_ l e =>
          cases hem
          exact ⟨⟨.logEnd hp.2, fun _ => .logEnd _ _ _⟩, nofun⟩
        | _ =>
          cases hem
          exact ⟨trivial, nofun⟩
      · rcases hr with hr | ⟨l, hr⟩
        · cases hr
        · cases hr
          exact ⟨trivial, nofun⟩
    | @links ls hl =>
      cases ls with
      | done => cases hco
      | elif l c b r =>
        cases hco
        exact ⟨⟨.logStart hl.1, fun _ => .logStart _ _ _⟩, nofun⟩
      | else_ l b =>
        cases hco
        exact ⟨trivial, nofun⟩
  | turn | close | unwind =>
    cases hco
    exact ⟨trivial, nofun⟩
  | loop hc hps hcd hw hem =>
    cases hco
    exact ⟨⟨⟨_, hc, rfl⟩, ⟨_, _, hps, rfl⟩, fun _ => hw⟩, fun _ => hem⟩
  | iterate ht he hps hcd hw hem =>
    cases hco
    exact ⟨⟨ht, ⟨_, he, rfl⟩, ⟨_, _, hps, rfl⟩, fun _ => hw⟩, fun _ => hem⟩
  | import_ ha hcd hw =>
    cases hco
    cases action with
    | import_ | fromImport => exact ⟨trivial, nofun⟩
    | _ => cases ha

omit hi in
theorem Ready.stands (hps : FitAll Lowered q ps) (h : Ready q (emitAll true ps ++ a) m) :
    emitAll true ps = [] ∨ Stands q m.trace := by
  cases hb : emitAll true ps with
  | nil => exact .inl rfl
  | cons i is =>
    refine .inr ?_
    have hc : emitAll true ps ++ [] = i :: is := by rw [hb, append_nil]
    obtain ⟨p, ps', tail, -, -, he, rfl⟩ := (uncons_plans hps hc).resolve_right nofun
    rw [hb] at h
    generalize hal : i :: (tail ++ (emitAll true ps' ++ [])) ++ a = code at h
    cases h with
    | nothing => cases hal
    | here _ hs => exact hs
    | left _ ha =>
      cases hal
      rcases ha with rfl | rfl <;> cases p <;> cases he
    | import_ ha =>
      obtain ⟨rfl, -⟩ := List.cons.inj hal
      cases p <;> cases he <;> cases ha
    | _ => cases p <;> cases he <;> cases hal

/-! ## What is left of code without a trace -/

def Untraced (q : Place) (is : List Instr) : Prop :=
  ∃ ps, FitAll Lowered q ps ∧ is = emitAll false ps

omit hi in
theorem Untraced.of_links (h : ls.Fit Lowered q) : Untraced q (ls.emit false) := by
  cases ls with
  | done => exact ⟨[], trivial, rfl⟩
  | elif l c b r => exact ⟨[.conditional l c b r], ⟨h, trivial⟩, rfl⟩
  | else_ l b => exact ⟨b, h, rfl⟩

omit hi in
theorem Untraced.uncons (h : Untraced q (i :: is)) : ∃ p : Plan, p.Fits Lowered q ∧ p.emit false = [i] ∧ Untraced q is := by
  obtain ⟨ps, hps, hc⟩ := h
  rw [← append_nil (emitAll false ps)] at hc
  obtain ⟨p, ps', tail, hp, hps', he, rfl⟩ := (uncons_plans hps hc.symm).resolve_right nofun
  have ht : tail = [] := by cases p <;> cases he <;> rfl
  subst ht
  exact ⟨p, hp, he, ps', hps', by rw [nil_append, append_nil]⟩

theorem Untraced.next (h : Untraced q (i :: is)) (hm : m.Sound Lowered)
    (he : exec f n i m = .ok .normal m') : m.Later Lowered m' ∧ Untraced q is := by
  obtain ⟨p, hp, hem, hr⟩ := h.uncons
  have hs := plan_stays hi n hp m hm
  rw [hem, execBlock_single] at hs
  exact ⟨(hs.ok he).2.later, hr⟩

omit hi in
theorem Untraced.expects (h : Untraced q (.at l action :: is)) (m : Machine) : Expects q false m action := by
  obtain ⟨p, hp, he, -⟩ := h.uncons
  cases p with
  | skip => cases he
  | eval l e =>
    cases he
    exact ⟨.plain hp, Bool.noConfusion⟩
  | assign l t e =>
    cases he
    exact ⟨hp.1, e, hp.2, rfl⟩
  | conditional l c b _ =>
    cases he
    exact ⟨.plain hp.1, Bool.noConfusion⟩
  | whileLoop l c b =>
    cases he
    exact ⟨⟨c, hp.1, rfl⟩, ⟨l, b, hp.2, rfl⟩, Bool.noConfusion⟩
  | forLoop l t e b =>
    cases he
    exact ⟨hp.1, ⟨e, hp.2.1, rfl⟩, ⟨l, b, hp.2.2, rfl⟩, Bool.noConfusion⟩
  | return_ l e =>
    cases he
    exact ⟨.plain hp.2, Bool.noConfusion⟩
  | _ =>
    cases he
    trivial

theorem Untraced.branch (h : Untraced q (.at l (.branch c b orelse) :: is)) (hm : m.Sound Lowered)
    (hev : eval f c (m.setLine l) = .ok v m') : m.Later Lowered m' ∧ Untraced q b ∧ Untraced q orelse := by
  obtain ⟨p, hp, he, -⟩ := h.uncons
  cases p with
  | conditional l c b _ =>
    cases he
    obtain ⟨hc, hb, hli⟩ := hp
    have hs := ((eval_settles hi c hc).stays.ends_level (.setLine hm l)).ok hev
    exact ⟨hs.2.later, ⟨b, hb, rfl⟩, .of_links hli⟩
  | _ => cases he

end

end Playback
