import Playback.Trace.Basic

/-!
# Open frames

What the operations of a trace do to its open frames. Child sets and filed calls are rows of things by name, in which
every operation changes what one name stands for (`alter`). Frames are only ever added, and none changes its kind,
so what an open frame is can be said once and for all: `Extends` carries that from one trace to a later one,
and the two ways to unwind are read off the kinds of the frames they pass.
-/

namespace Playback.Trace

open List Trace

variable {kind : Kind} {stack : List Nat}

variable {t t' : Trace}

/-! ## Rows by name -/

/-- A row of things by name with the one of a name changed; if there is none, it is added at the end. -/
def alter {α : Type} (name : String) (new : α) (change : α → α) : List (String × α) → List (String × α)
  | [] => [(name, change new)]
  | (n, x) :: rest => if n = name then (n, change x) :: rest else (n, x) :: alter name new change rest

theorem appendEntry_eq (name : String) (e : Entry) (ss : List (String × Array Entry)) :
    appendEntry name e ss = alter name #[] (·.push e) ss := by
  induction ss with
  | nil => rfl
  | cons _ r ih => rw [appendEntry, alter, ih]

theorem ensureSet_eq (name : String) (ss : List (String × Array Entry)) : ensureSet name ss = alter name #[] id ss := by
  induction ss with
  | nil => rfl
  | cons _ r ih => rw [ensureSet, alter, ih, id]

theorem updateCalls_eq (id : String) (change : Calls → Calls) (detached : List (String × Calls)) :
    updateCalls id change detached = alter id {} change detached := by
  induction detached with
  | nil => rfl
  | cons e r ih => rw [updateCalls, alter, ih]

def withName (name : String) : List String → List String
  | [] => [name]
  | n :: rest => if n = name then n :: rest else n :: withName name rest

theorem mem_withName (h : n ∈ withName name ns) : n = name ∨ n ∈ ns := by
  induction ns with
  | nil => exact .inl (mem_singleton.1 h)
  | cons first r ih =>
    unfold withName at h
    split at h
    · exact .inr h
    · rcases mem_cons.1 h with rfl | h
      · exact .inr mem_cons_self
      · exact (ih h).imp_right (mem_cons_of_mem first)

theorem nodup_withName (name : String) (h : ns.Nodup) : (withName name ns).Nodup := by
  induction ns with
  | nil => exact pairwise_singleton _ _
  | cons _ r ih =>
    obtain ⟨hn, hr⟩ := nodup_cons.1 h
    unfold withName
    split
    · exact h
    · rename_i hne
      exact nodup_cons.2 ⟨fun hm => (mem_withName hm).elim hne hn, ih hr⟩

section

variable {α β : Type} (f : α → List β) (name : String) (row : List (String × α))

theorem names_alter : (alter name new change row).map (·.1) = withName name (row.map (·.1)) := by
  induction row with
  | nil => rfl
  | cons x r ih =>
    unfold alter
    rw [map_cons, withName]
    split
    · rfl
    · exact congrArg (x.1 :: ·) ih

theorem lookup_alter (n : String) : (alter name new change row).lookup n
    = if n = name then some (change ((row.lookup name).getD new)) else row.lookup n := by
  induction row with
  | nil =>
    by_cases hn : n = name
    · simp [alter, hn]
    · simp [alter, hn]
  | cons x r ih =>
    obtain ⟨k, x⟩ := x
    by_cases hk : k = name
    · subst hk
      by_cases hn : n = k
      · simp [alter, hn]
      · simp [alter, lookup_cons, hn, beq_eq_false_iff_ne.2 hn]
    · by_cases hn : n = k
      · subst hn
        simp [alter, hk]
      · simp [alter, hk, lookup_cons, ih, beq_eq_false_iff_ne.2 (Ne.symm hk), beq_eq_false_iff_ne.2 hn]

theorem forall_alter {P : α → Prop} (hro : ∀ x ∈ row, P x.2) (hn : P new)
    (hc : P ((row.lookup name).getD new) → P (change ((row.lookup name).getD new))) :
    ∀ x ∈ alter name new change row, P x.2 := by
  induction row with
  | nil => exact forall_mem_singleton.2 (hc hn)
  | cons x r ih =>
    obtain ⟨k, x⟩ := x
    obtain ⟨hx, hr⟩ := forall_mem_cons.1 hro
    unfold alter
    split
    · rename_i hk
      subst hk
      rw [lookup_cons_self] at hc
      exact forall_mem_cons.2 ⟨hc hx, hr⟩
    · rename_i hk
      rw [lookup_cons, beq_eq_false_iff_ne.2 (Ne.symm hk)] at hc
      exact forall_mem_cons.2 ⟨hx, ih hr hc⟩

theorem flatMap_alter (hn : f new = []) (hc : ∀ x, f (change x) = f x) :
    (alter name new change row).flatMap (f ·.2) = row.flatMap (f ·.2) := by
  induction row with
  | nil => rw [alter, flatMap_singleton, hc, hn, flatMap_nil]
  | cons x r ih =>
    unfold alter
    split
    · rw [flatMap_cons, flatMap_cons, hc]
    · rw [flatMap_cons, flatMap_cons, ih]

theorem flatMap_alter_perm (hn : f new = []) (hc : ∀ x, f (change x) = f x ++ [y]) :
    ((alter name new change row).flatMap (f ·.2)).Perm (y :: row.flatMap (f ·.2)) := by
  induction row with
  | nil =>
    rw [alter, flatMap_singleton, hc, hn]
    exact .refl _
  | cons x r ih =>
    unfold alter
    split
    · rw [flatMap_cons, hc, append_assoc]
      exact perm_middle
    · exact (ih.append_left _).trans perm_middle

end

/-! ## Frames and kinds -/

/-- A trace whose frames are numbered right: one is open, and those that are open exist. -/
structure Sound (t : Trace) : Prop where
  open_ : t.stack ≠ []
  known : ∀ id ∈ t.stack, id < t.frames.size

/-- A later trace: no frame is gone or has become something else. -/
structure Extends (t t' : Trace) : Prop where
  size : t.frames.size ≤ t'.frames.size
  kind : ∀ id < t.frames.size, t'.kindOf id = t.kindOf id

theorem sound_start (l : Limits) : (start l).Sound :=
  ⟨nofun, by simp [start]⟩

theorem Sound.top_mem (h : t.Sound) : t.top ∈ t.stack := by
  unfold top
  cases hs : t.stack with
  | nil => exact absurd hs h.open_
  | cons _ r => exact mem_cons_self

theorem Sound.top_lt (h : t.Sound) : t.top < t.frames.size :=
  h.known _ h.top_mem

namespace Extends

theorem refl (t : Trace) : Extends t t :=
  ⟨Nat.le_refl _, fun _ _ => rfl⟩

theorem trans (h : Extends t t') (h' : Extends t' t'') : Extends t t'' :=
  ⟨Nat.le_trans h.size h'.size, fun id hid => (h'.kind id (Nat.lt_of_lt_of_le hid h.size)).trans (h.kind id hid)⟩

theorem of_modify (i : Nat) (f : Frame → Frame)
    (h : t'.frames = t.frames.modify i f) (hf : ∀ fr, (f fr).kind = fr.kind) : Extends t t' := by
  refine ⟨Nat.le_of_eq (by rw [h, Array.size_modify]), fun id _ => ?_⟩
  unfold kindOf
  rw [h, Array.getElem?_modify]
  split
  · cases t.frames[id]? with
    | none => rfl
    | some fr => exact congrArg (·.getD Kind.file) (congrArg some (hf fr))
  · rfl

theorem of_frames (h : t'.frames = t.frames) : Extends t t' := by
  refine ⟨Nat.le_of_eq (by rw [h]), fun _ _ => ?_⟩
  unfold kindOf
  rw [h]

end Extends

theorem Sound.of_stack (hs : t.Sound) (h : t.Extends t') (hne : t'.stack ≠ [])
    (hsu : ∀ id ∈ t'.stack, id ∈ t.stack) : t'.Sound :=
  ⟨hne, fun id hid => Nat.lt_of_lt_of_le (hs.known id (hsu id hid)) h.size⟩

/-! ## Operations that leave the open frames alone -/

/-- A later trace with the same frames open. -/
structure Quiet (t t' : Trace) : Prop where
  stack : t'.stack = t.stack
  extends_ : t.Extends t'

theorem Quiet.refl (t : Trace) : Quiet t t :=
  ⟨rfl, .refl t⟩

theorem Quiet.trans (h : Quiet t t') (h' : Quiet t' t'') : Quiet t t'' :=
  ⟨h'.stack.trans h.stack, h.extends_.trans h'.extends_⟩

theorem Quiet.sound (h : Quiet t t') (hs : t.Sound) : t'.Sound :=
  hs.of_stack h.extends_ (h.stack ▸ hs.open_) fun _ hid => h.stack ▸ hid

variable (t : Trace)

theorem quiet_push (e : Entry) : Quiet t (t.push e) :=
  ⟨rfl, .of_modify t.top (·.push e) rfl fun _ => rfl⟩

theorem quiet_turn (set : String) : Quiet t (t.turn set) :=
  ⟨rfl, .of_modify t.top (·.turn set) rfl fun _ => rfl⟩

theorem quiet_logResult (kind : Option Kind) (s type : String) : Quiet t (t.logResult kind s type) :=
  ⟨rfl, .of_modify t.top (·.push _) rfl fun _ => rfl⟩

theorem quiet_write (s : String) : Quiet t (t.write s) := by
  unfold write
  split
  · exact ⟨rfl, .refl t⟩
  · exact ⟨rfl, .of_frames rfl⟩

theorem quiet_beginCall (id : String) : Quiet t (t.beginCall id).2 :=
  ⟨rfl, .of_frames rfl⟩

theorem quiet_keepException (e : LastException) : Quiet t (t.keepException e) := by
  unfold keepException
  split
  · exact ⟨rfl, .refl t⟩
  · exact ⟨rfl, .of_frames rfl⟩

theorem keepException_frames (e : LastException) : (t.keepException e).frames = t.frames := by
  unfold keepException
  split <;> rfl

/-! ## Opening -/

/-- A later trace in which one more frame is open, of the given kind. -/
structure Opens (kind : Kind) (t t' : Trace) : Prop where
  stack : ∃ id, t'.stack = id :: t.stack ∧ id < t'.frames.size ∧ t'.kindOf id = kind
  extends_ : t.Extends t'

variable {t} in
theorem Opens.sound (h : Opens kind t t') (hs : t.Sound) : t'.Sound := by
  obtain ⟨_, hst, hid, -⟩ := h.stack
  refine ⟨by rw [hst]; exact nofun, fun i hi => ?_⟩
  rw [hst] at hi
  rcases mem_cons.1 hi with rfl | hi
  · exact hid
  · exact Nat.lt_of_lt_of_le (hs.known i hi) h.extends_.size

variable {t} in
theorem Opens.trans_quiet (h : Opens kind t t') (h' : Quiet t' t'') : Opens kind t t'' := by
  obtain ⟨id, hs, hid, hk⟩ := h.stack
  refine ⟨⟨id, h'.stack.trans hs, Nat.lt_of_lt_of_le hid h'.extends_.size, ?_⟩, h.extends_.trans h'.extends_⟩
  rw [h'.extends_.kind id hid, hk]

variable {t} in
theorem Opens.of_quiet (h : Quiet t t') (h' : Opens kind t' t'') : Opens kind t t'' := by
  obtain ⟨id, hs, hid, hk⟩ := h'.stack
  exact ⟨⟨id, by rw [hs, h.stack], hid, hk⟩, h.extends_.trans h'.extends_⟩

theorem opens_openFrame (kind : Kind) (set : String) : Opens kind t (t.openFrame kind set) := by
  refine ⟨⟨t.frames.size, rfl, ?_, ?_⟩, ?_, fun _ hid => ?_⟩
  · simp [openFrame]
  · simp [kindOf, openFrame, Frame.open]
  · simp [openFrame]
  · simp only [kindOf, openFrame, Array.getElem?_push, if_neg (Nat.ne_of_lt hid)]

theorem opens_addFrame (kind : Kind) (set : String) : Opens kind t (t.addFrame kind set) :=
  .of_quiet (t.quiet_push _) ((t.push _).opens_openFrame kind set)

theorem opens_startDetached (kind : Kind) (set id : String) : Opens kind t (t.startDetached kind set id) :=
  (t.opens_openFrame kind set).trans_quiet ⟨rfl, .of_frames rfl⟩

/-! ## Unwinding -/

/-- Whether a kind is neither a loop nor a call: what unwinding to a loop passes. -/
def Kind.isInner (kind : Kind) : Bool :=
  !kind.isLoop && kind != .functionCall

theorem Kind.ne_call_of_isInner (h : kind.isInner = true) : kind ≠ .functionCall := by
  rintro rfl
  cases h

theorem Kind.ne_call_of_isLoop (h : kind.isLoop = true) : kind ≠ .functionCall := by
  rintro rfl
  cases h

section

variable {kindOf kindOf' : Nat → Kind} {top : Nat}

theorem unwindToLoop_cons (hne : stack ≠ []) (hi : (kindOf top).isInner = true) :
    unwindToLoop kindOf (top :: stack) = unwindToLoop kindOf stack := by
  cases stack with
  | nil => exact absurd rfl hne
  | cons _ _ =>
    rw [unwindToLoop]
    cases hk : kindOf top <;> simp_all [Kind.isInner, Kind.isLoop]

theorem unwindToLoop_loop (hl : (kindOf top).isLoop = true) : unwindToLoop kindOf (top :: stack) = top :: stack := by
  cases stack with
  | nil => rfl
  | cons _ r =>
    rw [unwindToLoop]
    simp [hl]

theorem unwindThrough_cons (hne : stack ≠ []) (hk : kindOf top ≠ kind) :
    unwindThrough kindOf kind (top :: stack) = unwindThrough kindOf kind stack := by
  cases stack with
  | nil => exact absurd rfl hne
  | cons _ r =>
    rw [unwindThrough, if_neg]
    simpa using hk

theorem unwindThrough_kind (hne : stack ≠ []) (hk : kindOf top = kind) :
    unwindThrough kindOf kind (top :: stack) = stack := by
  cases stack with
  | nil => exact absurd rfl hne
  | cons _ r =>
    rw [unwindThrough, if_pos]
    simpa using hk

theorem unwindToLoop_suffix (kindOf : Nat → Kind) (stack : List Nat) : unwindToLoop kindOf stack <:+ stack := by
  fun_induction unwindToLoop kindOf stack with
  | case1 | case3 => exact suffix_rfl
  | case2 _ _ r _ ih => exact ih.trans (suffix_cons _ _)

theorem unwindThrough_suffix (kindOf : Nat → Kind) (kind : Kind) (stack : List Nat) :
    unwindThrough kindOf kind stack <:+ stack := by
  fun_induction unwindThrough kindOf kind stack with
  | case1 => exact suffix_cons _ _
  | case2 _ _ r _ ih => exact ih.trans (suffix_cons _ _)
  | case3 => exact suffix_rfl

theorem unwindToLoop_ne_nil (kindOf : Nat → Kind) (hne : stack ≠ []) : unwindToLoop kindOf stack ≠ [] := by
  fun_induction unwindToLoop kindOf stack with
  | case1 => exact nofun
  | case2 _ _ r _ ih => exact ih nofun
  | case3 => exact hne

theorem unwindThrough_ne_nil (kindOf : Nat → Kind) (kind : Kind) (hne : stack ≠ []) :
    unwindThrough kindOf kind stack ≠ [] := by
  fun_induction unwindThrough kindOf kind stack with
  | case1 => exact nofun
  | case2 _ _ r _ ih => exact ih nofun
  | case3 => exact hne

theorem unwindToLoop_congr (h : ∀ id ∈ stack, kindOf id = kindOf' id) :
    unwindToLoop kindOf stack = unwindToLoop kindOf' stack := by
  fun_induction unwindToLoop kindOf stack with
  | case1 top below r hc =>
    rw [unwindToLoop, ← h top mem_cons_self, if_pos hc]
  | case2 top below r hc ih =>
    rw [unwindToLoop, ← h top mem_cons_self, if_neg hc]
    exact ih fun id hid => h id (mem_cons_of_mem _ hid)
  | case3 stack hs =>
    rw [unwindToLoop]
    exact hs

theorem unwindThrough_congr (h : ∀ id ∈ stack, kindOf id = kindOf' id) :
    unwindThrough kindOf kind stack = unwindThrough kindOf' kind stack := by
  fun_induction unwindThrough kindOf kind stack with
  | case1 top below r hc =>
    rw [unwindThrough, ← h top mem_cons_self, if_pos hc]
  | case2 top below r hc ih =>
    rw [unwindThrough, ← h top mem_cons_self, if_neg hc]
    exact ih fun id hid => h id (mem_cons_of_mem _ hid)
  | case3 stack hs =>
    rw [unwindThrough]
    exact hs

end

variable {t}

theorem endFrame_of_stack {id : Nat} (h : t.stack = id :: r) (hne : r ≠ []) : t.endFrame.stack = r := by
  cases r with
  | nil => exact absurd rfl hne
  | cons _ r =>
    unfold endFrame
    rw [h]

theorem endFrame_frames (t : Trace) : t.endFrame.frames = t.frames := by
  unfold endFrame
  split <;> rfl

theorem endFrame_suffix (t : Trace) : t.endFrame.stack <:+ t.stack := by
  unfold endFrame
  split
  · rename_i h
    rw [h]
    exact suffix_cons _ _
  · exact suffix_rfl

theorem endFrame_ne_nil (h : t.stack ≠ []) : t.endFrame.stack ≠ [] := by
  unfold endFrame
  split
  · exact nofun
  · exact h

theorem unwindTo_of_suffix (hne : stack ≠ []) (h : stack <:+ t.stack) : (t.unwindTo stack.length).stack = stack := by
  have hp : 0 < stack.length := length_pos_iff.2 hne
  have hm : max stack.length 1 = stack.length := Nat.max_eq_left hp
  unfold unwindTo
  rw [hm]
  exact (suffix_iff_eq_drop.1 h).symm

end Playback.Trace
