import Mathlib.Data.List.Nodup
import Mathlib.Data.List.Perm.Basic
import Playback.Proofs.Frames

/-!
# The arena of a trace

Frames refer to each other by number: a frame to its entries, an id to the calls that are filed under it. `Arena` says
that these references make a forest rooted in the file and in the filed calls, and that the open frames are a path of
numbers going up. Every operation on a trace is made of a few moves (`Move`), so that what moves keep is kept by any
sequence of operations.
-/

namespace Playback.Trace

open List hiding set

variable {id p i n : Nat} {t' t : Trace} {es : List Entry}

/-! ## References -/

def Entry.frame? : Entry → Option Nat
  | .frame id => some id
  | .result _ _ _ _ => none
  | .exception _ _ => none

/-- All entries of a frame, child set by child set. -/
def Frame.entries (frame : Frame) : List Entry :=
  frame.sets.flatMap (·.2.toList)

/-- The entries of a frame by its number; a frame that was never opened has none. -/
def entriesOf (t : Trace) (id : Nat) : List Entry :=
  ((t.frames[id]?).map Frame.entries).getD []

def children (t : Trace) (id : Nat) : List Nat :=
  (t.entriesOf id).filterMap Entry.frame?

def filed (t : Trace) : List Nat :=
  t.detached.flatMap (·.2.frames.toList)

def ids (t : Trace) : List String :=
  t.detached.map (·.1)

/-- All references to frames: from entries of frames and from filed calls. -/
def references (t : Trace) : List Nat :=
  (range t.frames.size).flatMap t.children ++ t.filed

/-- The frames of a trace are a forest, and those that are open are a path in it from the file's frame. -/
structure Arena (t : Trace) : Prop where
  bottom : t.stack.getLast? = some 0
  rising : t.stack.Pairwise (· > ·)
  known : ∀ id ∈ t.stack, id < t.frames.size
  /-- The file's frame and the references are all frames, each once. -/
  once : (0 :: t.references).Perm (range t.frames.size)
  deeper : ∀ p, ∀ id ∈ t.children p, p < id

/-! ## Entries after an operation -/

theorem Frame.entries_push (f : Frame) (e : Entry) : (f.push e).entries.Perm (e :: f.entries) := by
  unfold push
  rw [appendEntry_eq]
  exact flatMap_alter_perm Array.toList f.active f.sets rfl fun _ => Array.toList_push

theorem Frame.entries_turn (f : Frame) (set : String) : (f.turn set).entries = f.entries := by
  unfold turn
  rw [ensureSet_eq]
  exact flatMap_alter Array.toList set f.sets rfl fun _ => rfl

variable (t : Trace)

theorem entriesOf_push_top (e : Entry) (ht : t.top < t.frames.size) :
    ((t.push e).entriesOf t.top).Perm (e :: t.entriesOf t.top) := by
  have hf : t.frames[t.top]? = some t.frames[t.top] := Array.getElem?_eq_getElem ht
  unfold entriesOf push
  rw [Array.getElem?_modify, if_pos rfl, hf]
  exact Frame.entries_push _ e

theorem entriesOf_push_other (e : Entry) (hid : id ≠ t.top) : (t.push e).entriesOf id = t.entriesOf id := by
  unfold entriesOf push
  rw [Array.getElem?_modify, if_neg (Ne.symm hid)]

@[simp] theorem entriesOf_turn (set : String) (id : Nat) : (t.turn set).entriesOf id = t.entriesOf id := by
  unfold entriesOf turn
  rw [Array.getElem?_modify]
  split
  · cases t.frames[id]? with
    | none => rfl
    | some f => exact f.entries_turn set
  · rfl

@[simp] theorem entriesOf_openFrame (k : Kind) (set : String) (id : Nat) :
    (t.openFrame k set).entriesOf id = t.entriesOf id := by
  unfold entriesOf openFrame
  rw [Array.getElem?_push]
  split
  · rename_i hid
    rw [hid, Array.getElem?_eq_none (Nat.le_refl _)]
    rfl
  · rfl

variable {t}

theorem entriesOf_congr (h : t'.frames = t.frames) (id : Nat) : t'.entriesOf id = t.entriesOf id := by
  unfold entriesOf
  rw [h]

theorem children_congr (h : t'.entriesOf id = t.entriesOf id) : t'.children id = t.children id := by
  unfold children
  rw [h]

theorem children_push (he : e.frame? = none) (ht : t.top < t.frames.size)
    (id : Nat) : ((t.push e).children id).Perm (t.children id) := by
  by_cases hid : id = t.top
  · subst hid
    have hp := (t.entriesOf_push_top e ht).filterMap Entry.frame?
    rwa [filterMap_cons, he] at hp
  · rw [children_congr (t.entriesOf_push_other e hid)]

theorem children_addFrame (k : Kind) (set : String) (ht : t.top < t.frames.size) :
    ((t.addFrame k set).children t.top).Perm (t.frames.size :: t.children t.top) := by
  have hp := (t.entriesOf_push_top (.frame t.frames.size) ht).filterMap Entry.frame?
  unfold children addFrame
  rwa [entriesOf_openFrame]

theorem children_addFrame_other (k : Kind) (set : String) (hid : id ≠ t.top) :
    (t.addFrame k set).children id = t.children id := by
  refine children_congr ?_
  unfold addFrame
  rw [entriesOf_openFrame, t.entriesOf_push_other _ hid]

theorem ids_updateCalls (t : Trace) (id : String) (change : Calls → Calls) :
    (updateCalls id change t.detached).map (·.1) = withName id t.ids := by
  rw [updateCalls_eq, names_alter]
  rfl

theorem entriesOf_eq_nil (hid : t.frames.size ≤ id) : t.entriesOf id = [] := by
  rw [entriesOf, Array.getElem?_eq_none hid]
  rfl

theorem children_eq_nil (hid : t.frames.size ≤ id) : t.children id = [] := by
  rw [children, entriesOf_eq_nil hid, filterMap_nil]

theorem filed_startDetached (k : Kind) (set id : String) :
    (t.startDetached k set id).filed.Perm (t.frames.size :: t.filed) := by
  unfold startDetached
  dsimp only
  rw [updateCalls_eq]
  refine flatMap_alter_perm (·.frames.toList) id t.detached ?_ fun _ => ?_
  · rfl
  · exact Array.toList_push

/-! ## Moves -/

/-- What an operation does at a time, with the values and exceptions that it records and the kinds of the frames
that it opens. -/
inductive Move : List Entry → List Kind → Trace → Trace → Prop
  /-- Some of the innermost frames are closed, or something besides frames and references changes. -/
  | quiet {t t' : Trace} (hframes : t'.frames = t.frames) (hsuffix : t'.stack <:+ t.stack)
      (hopen : t.stack ≠ [] → t'.stack ≠ []) (hfiled : t'.filed = t.filed)
      (hids : t'.ids = t.ids ∨ ∃ id, t'.ids = withName id t.ids) : Move [] [] t t'
  | note {t : Trace} (hentry : entry.frame? = none) : Move [entry] [] t (t.push entry)
  | turn {t : Trace} (set : String) : Move [] [] t (t.turn set)
  | add {t : Trace} (kind : Kind) (set : String) : Move [] [kind] t (t.addFrame kind set)
  | file {t : Trace} (kind : Kind) (set id : String) : Move [] [kind] t (t.startDetached kind set id)

theorem Move.close (hf : t'.frames = t.frames) (hd : t'.detached = t.detached)
    (hs : t'.stack <:+ t.stack) (ho : t.stack ≠ [] → t'.stack ≠ []) : Move [] [] t t' :=
  .quiet hf hs ho (by rw [filed, hd, filed]) (.inl (by rw [ids, hd, ids]))

inductive Moves : List Entry → List Kind → Trace → Trace → Prop
  | refl (t : Trace) : Moves [] [] t t
  | step {es es' : List Entry} {t t' t'' : Trace} (hfirst : Move es ks t t')
      (hrest : Moves es' ks' t' t'') : Moves (es ++ es') (ks ++ ks') t t''

theorem Moves.single (h : Move es ks t t') : Moves es ks t t' := by
  have hs := Moves.step h (.refl t')
  rwa [append_nil, append_nil] at hs

theorem Moves.trans (h : Moves es ks t t') (h' : Moves es' ks' t' t'') : Moves (es ++ es') (ks ++ ks') t t'' := by
  induction h with
  | refl => exact h'
  | step hf _ ih =>
    rw [append_assoc, append_assoc]
    exact .step hf (ih h')

theorem flatMap_nodup_perm {α β : Type} {g g' : α → List β} {l : List α} (hl : l.Nodup) {a : α} (ha : a ∈ l)
    {xs : List β} (hh : (g' a).Perm (xs ++ g a)) (ho : ∀ b, b ≠ a → g' b = g b) :
    (l.flatMap g').Perm (xs ++ l.flatMap g) := by
  obtain ⟨bf, af, rfl⟩ := append_of_mem ha
  obtain ⟨hn, -⟩ := nodup_cons.1 (nodup_middle.1 hl)
  have hs : ∀ l' : List α, a ∉ l' → l'.flatMap g' = l'.flatMap g := fun l' hl' =>
    flatMap_congr fun b hb => ho b fun heq => hl' (heq ▸ hb)
  rw [flatMap_append, flatMap_cons, flatMap_append, flatMap_cons,
    hs bf fun hm => hn (mem_append_left _ hm),
    hs af fun hm => hn (mem_append_right _ hm)]
  calc (bf.flatMap g ++ (g' a ++ af.flatMap g)).Perm
        (bf.flatMap g ++ (xs ++ g a ++ af.flatMap g)) := (hh.append_right _).append_left _
    _ |>.Perm (bf.flatMap g ++ (xs ++ (g a ++ af.flatMap g))) := by rw [append_assoc]
    _ |>.Perm (xs ++ (bf.flatMap g ++ (g a ++ af.flatMap g))) := perm_append_comm_assoc _ _ _

namespace Arena

variable {t t' : Trace}

theorem top_lt (h : t.Arena) : t.top < t.frames.size := by
  have hb := h.bottom
  have hk := h.known
  unfold top
  cases hs : t.stack with
  | nil =>
    rw [hs] at hb
    cases hb
  | cons id r => exact hk id (by rw [hs]; exact mem_cons_self)

theorem size_pos (h : t.Arena) : 0 < t.frames.size :=
  Nat.lt_of_le_of_lt (Nat.zero_le _) h.top_lt

theorem child_lt (h : t.Arena) (hid : id ∈ t.children p) : id < t.frames.size := by
  have hp : p < t.frames.size := by
    by_contra hp
    rw [children_eq_nil (Nat.le_of_not_lt hp)] at hid
    cases hid
  have hm : id ∈ 0 :: t.references := by
    refine mem_cons_of_mem _ (mem_append_left _ ?_)
    exact mem_flatMap.2 ⟨p, mem_range.2 hp, hid⟩
  exact mem_range.1 (h.once.mem_iff.1 hm)

theorem start (l : Limits) : (start l).Arena where
  bottom := rfl
  rising := pairwise_singleton _ _
  known := forall_mem_singleton.2 Nat.zero_lt_one
  once := .refl _
  deeper p id hid := by cases p <;> cases hid

variable (h : t.Arena)

include h

theorem of_references (hsi : t'.frames.size = t.frames.size) (hc : ∀ id, (t'.children id).Perm (t.children id))
    (hf : t'.filed = t.filed) (ho : t'.stack ≠ []) (hs : t'.stack <:+ t.stack) : t'.Arena where
  bottom := by
    obtain ⟨_, ha⟩ := hs
    rw [← h.bottom, ← ha, getLast?_append_of_ne_nil _ ho]
  rising := h.rising.sublist hs.sublist
  known id hid := hsi ▸ h.known id (hs.subset hid)
  once := by
    unfold references
    rw [hsi, hf]
    exact (((List.Perm.flatMap_left _ fun id _ => hc id).append_right _).cons 0).trans h.once
  deeper p id hid := h.deeper p id ((hc p).mem_iff.1 hid)

theorem stack_ne_nil : t.stack ≠ [] := by
  intro hn
  have hb := h.bottom
  rw [hn] at hb
  cases hb

theorem note (he : e.frame? = none) : (t.push e).Arena :=
  h.of_references (Array.size_modify ..) (children_push he h.top_lt) rfl h.stack_ne_nil suffix_rfl

theorem rising_cons : (t.frames.size :: t.stack).Pairwise (· > ·) :=
  pairwise_cons.2 ⟨h.known, h.rising⟩

theorem bottom_cons : (t.frames.size :: t.stack).getLast? = some 0 := by
  rw [← h.bottom, ← singleton_append, getLast?_append_of_ne_nil _ h.stack_ne_nil]

theorem known_cons : ∀ id ∈ t.frames.size :: t.stack, id < t.frames.size + 1 :=
  forall_mem_cons.2 ⟨Nat.lt_succ_self _, fun id hid => Nat.lt_succ_of_lt (h.known id hid)⟩

theorem once_of_new (hs : t'.frames.size = t.frames.size + 1)
    (hr : t'.references.Perm (t.frames.size :: t.references)) : (0 :: t'.references).Perm (range t'.frames.size) := by
  rw [hs, range_succ]
  calc (0 :: t'.references).Perm (0 :: t.frames.size :: t.references) := hr.cons 0
    _ |>.Perm (t.frames.size :: 0 :: t.references) := .swap ..
    _ |>.Perm (t.frames.size :: range t.frames.size) := h.once.cons _
    _ |>.Perm (range t.frames.size ++ [t.frames.size]) := (perm_append_singleton _ _).symm

theorem add (k : Kind) (set : String) : (t.addFrame k set).Arena := by
  have hsi : (t.addFrame k set).frames.size = t.frames.size + 1 := by
    simp [addFrame, openFrame, push]
  have hs : (t.addFrame k set).stack = t.frames.size :: t.stack := by
    simp [addFrame, openFrame, push]
  have hr : (t.addFrame k set).references.Perm (t.frames.size :: t.references) := by
    have hn : (t.addFrame k set).children t.frames.size = [] := by
      rw [children_addFrame_other k set (Nat.ne_of_gt h.top_lt), children_eq_nil (Nat.le_refl _)]
    unfold references
    rw [hsi, range_succ, flatMap_append, flatMap_singleton, hn, append_nil]
    have hh : ((t.addFrame k set).children t.top).Perm ([t.frames.size] ++ t.children t.top) :=
      children_addFrame k set h.top_lt
    exact (flatMap_nodup_perm nodup_range (mem_range.2 h.top_lt) hh fun j hj =>
      children_addFrame_other k set hj).append_right _
  refine ⟨hs ▸ h.bottom_cons, hs ▸ h.rising_cons, hs ▸ hsi ▸ h.known_cons, h.once_of_new hsi hr, ?_⟩
  intro p id hid
  by_cases hp : p = t.top
  · subst hp
    rcases mem_cons.1 ((children_addFrame k set h.top_lt).mem_iff.1 hid) with rfl | hid
    · exact h.top_lt
    · exact h.deeper _ id hid
  · rw [children_addFrame_other k set hp] at hid
    exact h.deeper p id hid

theorem file (k : Kind) (set id : String) : (t.startDetached k set id).Arena := by
  have hs : (t.startDetached k set id).frames.size = t.frames.size + 1 := by
    simp [startDetached, openFrame]
  have hc : ∀ p, (t.startDetached k set id).children p = t.children p := fun p =>
    children_congr (t.entriesOf_openFrame k set p)
  have hr : (t.startDetached k set id).references.Perm (t.frames.size :: t.references) := by
    unfold references
    rw [hs, range_succ, flatMap_append, flatMap_singleton, hc,
      children_eq_nil (Nat.le_refl _), append_nil,
      show (t.startDetached k set id).children = t.children from funext hc]
    exact ((filed_startDetached k set id).append_left _).trans perm_middle
  refine ⟨h.bottom_cons, h.rising_cons, hs ▸ h.known_cons, h.once_of_new hs hr, ?_⟩
  intro p id hid
  rw [hc] at hid
  exact h.deeper p id hid

variable {es : List Entry} {ks : List Kind}

/-- **Every move keeps the arena.** -/
theorem move (hm : Move es ks t t') : t'.Arena := by
  cases hm with
  | quiet hf hs ho hfi _ =>
    refine h.of_references (by rw [hf]) (fun id => ?_) hfi (ho h.stack_ne_nil) hs
    rw [children_congr (entriesOf_congr hf id)]
  | note he => exact h.note he
  | turn set =>
    refine h.of_references (Array.size_modify ..) (fun id => ?_) rfl h.stack_ne_nil suffix_rfl
    rw [children_congr (t.entriesOf_turn set id)]
  | add k set => exact h.add k set
  | file k set id => exact h.file k set id

theorem moves (hm : Moves es ks t t') : t'.Arena := by
  induction hm with
  | refl => exact h
  | step hf _ ih => exact ih (h.move hf)

end Arena

/-! ## Names -/

def Frame.names (frame : Frame) : List String :=
  frame.sets.map (·.1)

/-- No id is listed twice, and no child set of a frame. -/
structure Named (t : Trace) : Prop where
  ids : t.ids.Nodup
  sets : ∀ (id : Nat) (f : Frame), t.frames[id]? = some f → f.names.Nodup

namespace Named

variable {t t' : Trace}

theorem start (l : Limits) : (start l).Named where
  ids := nodup_nil
  sets id f hf := by
    cases id with
    | zero =>
      cases hf
      exact pairwise_singleton _ _
    | succ id => cases hf

theorem modify (h : t.Named) (hc : ∀ f : Frame, ∃ x, (change f).names = withName x f.names) :
    { t with frames := t.frames.modify i change }.Named where
  ids := h.ids
  sets id f hf := by
    rw [Array.getElem?_modify] at hf
    split at hf
    · obtain ⟨f, hold, rfl⟩ := Option.map_eq_some_iff.1 hf
      obtain ⟨x, hn⟩ := hc f
      exact hn ▸ nodup_withName x (h.sets id f hold)
    · exact h.sets id f hf

theorem push (h : t.Named) (e : Entry) : (t.push e).Named :=
  h.modify fun f => ⟨f.active, by rw [Frame.names, Frame.push, appendEntry_eq, names_alter]; rfl⟩

theorem openFrame (h : t.Named) (k : Kind) (set : String) : (t.openFrame k set).Named where
  ids := h.ids
  sets id f hf := by
    change (t.frames.push (Frame.open k set))[id]? = some f at hf
    rw [Array.getElem?_push] at hf
    split at hf
    · cases hf
      exact pairwise_singleton _ _
    · exact h.sets id f hf

theorem move (h : t.Named) (hm : Move es ks t t') : t'.Named := by
  cases hm with
  | quiet hf _ _ _ hi =>
    refine ⟨?_, hf ▸ h.sets⟩
    rcases hi with hi | ⟨id, hi⟩
    · exact hi ▸ h.ids
    · exact hi ▸ nodup_withName id h.ids
  | @note e _ _ => exact h.push e
  | turn set => exact h.modify fun f => ⟨set, by rw [Frame.names, Frame.turn, ensureSet_eq, names_alter]; rfl⟩
  | add k set => exact (h.push _).openFrame k set
  | file k set id =>
    have hi : (t.startDetached k set id).ids = withName id t.ids := ids_updateCalls t id _
    exact ⟨hi ▸ nodup_withName id h.ids, (h.openFrame k set).sets⟩

theorem moves (h : t.Named) (hm : Moves es ks t t') : t'.Named := by
  induction hm with
  | refl => exact h
  | step hf _ ih => exact ih (h.move hf)

end Named

/-! ## What was recorded -/

def notesOf (t : Trace) (id : Nat) : List Entry :=
  (t.entriesOf id).filter fun e => e.frame?.isNone

/-- The values and exceptions in the frames from one on. -/
def notedFrom (t : Trace) (n : Nat) : List Entry :=
  (range t.frames.size).flatMap fun id => if n ≤ id then t.notesOf id else []

def kinds (t : Trace) : List Kind :=
  t.frames.toList.map (·.kind)

section

variable {t t' : Trace}

/-- What is recorded in the frames from one on was there before or is among what is recorded meanwhile; in all frames,
that is all of it. -/
def Gains (n : Nat) (es : List Entry) (t t' : Trace) : Prop :=
  ∃ new, new.Sublist es ∧ (n = 0 → new = es) ∧ (t'.notedFrom n).Perm (new ++ t.notedFrom n)

theorem Gains.trans (h : Gains n es t t') (h' : Gains n es' t' t'') : Gains n (es ++ es') t t'' := by
  obtain ⟨new, hs, ha, hp⟩ := h
  obtain ⟨new', hs', ha', hp'⟩ := h'
  refine ⟨new ++ new', hs.append hs', fun hn => by rw [ha hn, ha' hn], ?_⟩
  rw [append_assoc]
  exact hp'.trans ((hp.append_left _).trans (perm_append_comm_assoc _ _ _))

theorem gains_nothing (hs : t'.frames.size = t.frames.size) (he : ∀ id, t'.entriesOf id = t.entriesOf id)
    (n : Nat) : Gains n [] t t' := by
  refine ⟨[], .refl _, fun _ => rfl, .of_eq ?_⟩
  unfold notedFrom notesOf
  rw [hs, funext he, nil_append]

theorem gains_openFrame (k : Kind) (set : String) (n : Nat) : Gains n [] t (t.openFrame k set) := by
  have hs : (t.openFrame k set).frames.size = t.frames.size + 1 := by simp [openFrame]
  have hn : t.entriesOf t.frames.size = [] := entriesOf_eq_nil (Nat.le_refl _)
  refine ⟨[], .refl _, fun _ => rfl, .of_eq ?_⟩
  unfold notedFrom notesOf
  simp only [hs, entriesOf_openFrame, range_succ, flatMap_append, flatMap_singleton, hn,
    filter_nil, ite_self, append_nil, nil_append]

theorem notesOf_push_top (ht : t.top < t.frames.size) (en : Entry) :
    ((t.push en).notesOf t.top).Perm ([en].filter (fun e => e.frame?.isNone) ++ t.notesOf t.top) := by
  rw [notesOf, notesOf, ← filter_append]
  exact (t.entriesOf_push_top en ht).filter _

theorem notesOf_push_other (e : Entry) (hid : id ≠ t.top) : (t.push e).notesOf id = t.notesOf id := by
  rw [notesOf, t.entriesOf_push_other e hid, notesOf]

theorem gains_push (ht : t.top < t.frames.size) (en : Entry) (n : Nat) :
    Gains n ([en].filter fun e => e.frame?.isNone) t (t.push en) := by
  have hs : (t.push en).frames.size = t.frames.size := Array.size_modify ..
  unfold Gains notedFrom
  rw [hs]
  by_cases hn : n ≤ t.top
  · refine ⟨_, .refl _, fun _ => rfl, flatMap_nodup_perm nodup_range (mem_range.2 ht) ?_ fun id hid => ?_⟩
    · rw [if_pos hn, if_pos hn]
      exact notesOf_push_top ht en
    · rw [notesOf_push_other en hid]
  · -- the entry goes to an earlier frame
    refine ⟨[], nil_sublist _, by omega, .of_eq (flatMap_congr fun id _ => ?_)⟩
    split
    · exact notesOf_push_other en (by omega)
    · rfl

theorem kinds_modify (hf : ∀ fr, (f fr).kind = fr.kind) (h : t'.frames = t.frames.modify i f) : t'.kinds = t.kinds := by
  refine ext_getElem? fun _ => ?_
  unfold kinds
  rw [getElem?_map, getElem?_map, Array.getElem?_toList, Array.getElem?_toList, h, Array.getElem?_modify]
  split
  · rw [Option.map_map]
    exact congrArg (Option.map · _) (funext hf)
  · rfl

theorem kinds_openFrame (k : Kind) (set : String) : (t.openFrame k set).kinds = t.kinds ++ [k] := by
  simp [kinds, openFrame, Frame.open]

/-- **A move records its values and exceptions and opens its frames**, and nothing that was there is gone. -/
theorem Arena.record_move {ks : List Kind} (h : t.Arena) (hm : Move es ks t t') (n : Nat) :
    Gains n es t t' ∧ t'.kinds = t.kinds ++ ks := by
  cases hm with
  | quiet hf =>
    exact ⟨gains_nothing (by rw [hf]) (entriesOf_congr hf) n, by rw [kinds, hf, append_nil]; rfl⟩
  | @note e _ he =>
    have hg := gains_push h.top_lt e n
    rw [filter_singleton, he] at hg
    refine ⟨hg, ?_⟩
    rw [append_nil]
    exact kinds_modify (f := (·.push e)) (fun _ => rfl) rfl
  | turn set =>
    rw [append_nil]
    exact ⟨gains_nothing (Array.size_modify ..) (t.entriesOf_turn set) n,
      kinds_modify (f := (·.turn set)) (fun _ => rfl) rfl⟩
  | add k set =>
    refine ⟨(gains_push h.top_lt (.frame t.frames.size) n).trans (gains_openFrame k set n), ?_⟩
    unfold addFrame
    rw [kinds_openFrame]
    exact congrArg (· ++ [k]) (kinds_modify (f := (·.push (.frame t.frames.size))) (fun _ => rfl) rfl)
  | file k set _ =>
    exact ⟨(gains_openFrame k set n).trans (gains_nothing rfl (entriesOf_congr rfl) n), kinds_openFrame k set⟩

theorem Arena.record_moves (h : t.Arena) (hm : Moves es ks t t') (n : Nat) :
    Gains n es t t' ∧ t'.kinds = t.kinds ++ ks := by
  induction hm with
  | refl t => exact ⟨gains_nothing rfl (fun _ => rfl) n, (append_nil _).symm⟩
  | step hf _ ih =>
    obtain ⟨hg, hk⟩ := h.record_move hf n
    obtain ⟨hg', hk'⟩ := ih (h.move hf)
    exact ⟨hg.trans hg', by rw [hk', hk, append_assoc]⟩

theorem noted_of_moves (hm : Moves es ks (start l) t) : (t.notedFrom 0).Perm es := by
  obtain ⟨⟨_, -, ha, hp⟩, -⟩ := (Arena.start l).record_moves hm 0
  rwa [ha rfl, show (start l).notedFrom 0 = [] from rfl, append_nil] at hp

end

/-! ## Operations in any order -/

/-- An operation on a trace with its arguments. -/
inductive Step where
  | startFrame (kind : Kind) (set : String)
  | logAndStart (kind : Kind) (set text type : String)
  | logAndEnd (kind until_ : Kind) (text type : String)
  | log (kind : Option Kind) (text type : String)
  | beginCall (id : String)
  | startDetached (kind : Kind) (set id : String)
  | turn (set : String)
  | endFrame
  | endLoop
  | unwindTo (depth : Nat)
  | write (text : String)
  | logException (type message : String)
  | logUncaught (type message : String)
  | logCallException (type message : String) (index line depth : Nat)

/-- The trace after an operation; a frame that is refused changes nothing. -/
def apply (t : Trace) : Step → Trace
  | .startFrame kind set => (t.startFrame? kind set).getD t
  | .logAndStart kind set text type => (t.logAndStart? kind set text type).getD t
  | .logAndEnd kind until_ text type => t.logAndEnd kind until_ text type
  | .log kind text type => t.logResult kind text type
  | .beginCall id => (t.beginCall id).2
  | .startDetached kind set id => t.startDetached kind set id
  | .turn set => t.turn set
  | .endFrame => t.endFrame
  | .endLoop => t.endLoop
  | .unwindTo depth => t.unwindTo depth
  | .write text => t.write text
  | .logException type message => t.logException type message
  | .logUncaught type message => t.logUncaught type message
  | .logCallException type message index line depth => t.logCallException type message index line depth

/-- The values and exceptions that an operation records. -/
def Step.notes (t : Trace) : Step → List Entry
  | .logAndStart _ _ text type => if t.isFull then [] else [.result none text type t.pending.toList]
  | .logAndEnd kind _ text type => [.result (some kind) text type t.pending.toList]
  | .log kind text type => [.result kind text type t.pending.toList]
  | .logException type message => [.exception type message]
  | .logUncaught type message => [.exception type message]
  | .logCallException type message _ _ _ => [.exception type message]
  | _ => []

/-- The kinds of the frames that an operation opens. -/
def Step.opens (t : Trace) : Step → List Kind
  | .startFrame kind _ => if t.isFull then [] else [kind]
  | .logAndStart kind _ _ _ => if t.isFull then [] else [kind]
  | .startDetached kind _ _ => [kind]
  | _ => []

def applyAll : Trace → List Step → Trace :=
  foldl apply

/-- The values and exceptions that operations one after the other record. -/
def allNotes : Trace → List Step → List Entry
  | _, [] => []
  | t, step :: rest => step.notes t ++ allNotes (t.apply step) rest

/-- The kinds of the frames that operations one after the other open. -/
def allOpens : Trace → List Step → List Kind
  | _, [] => []
  | t, step :: rest => step.opens t ++ allOpens (t.apply step) rest

section

variable (t : Trace)

theorem moves_logResult (k : Option Kind) (s type : String) :
    Moves [.result k s type t.pending.toList] [] t (t.logResult k s type) := by
  have ht : Move [] [] t { t with pending := #[] } := .close rfl rfl suffix_rfl id
  exact .step ht (.single (.note rfl))

theorem move_keepException (e : LastException) : Move [] [] t (t.keepException e) := by
  unfold keepException
  split <;> exact .close rfl rfl suffix_rfl id

theorem move_unwindTo (d : Nat) : Move [] [] t (t.unwindTo d) := by
  refine .close rfl rfl (drop_suffix _ _) fun ho => ?_
  have hl : 0 < t.stack.length := length_pos_iff.2 ho
  change t.stack.drop (t.stack.length - max d 1) ≠ []
  rw [Ne, drop_eq_nil_iff]
  omega

theorem moves_logUncaught (type msg : String) : Moves [.exception type msg] [] t (t.logUncaught type msg) :=
  .step (.note rfl) (.single (move_keepException _ _))

/-- **An operation is made of moves.** -/
theorem moves_apply (st : Step) : Moves (st.notes t) (st.opens t) t (t.apply st) := by
  cases st with
  | startFrame k set =>
    simp only [apply, Step.opens, startFrame?]
    split
    · exact .refl t
    · exact .single (.add k set)
  | logAndStart k set s type =>
    simp only [apply, Step.notes, Step.opens, logAndStart?, startFrame?]
    split
    · exact .refl t
    · exact .step (.add k set) ((t.addFrame k set).moves_logResult none s type)
  | logAndEnd k until_ s type =>
    have hc : Move [] [] (t.logResult (some k) s type) (t.logAndEnd k until_ s type) :=
      .close rfl rfl (unwindThrough_suffix _ _ _) (unwindThrough_ne_nil _ _)
    exact (t.moves_logResult (some k) s type).trans (.single hc)
  | log k s type => exact t.moves_logResult k s type
  | beginCall id =>
    have hf : (t.beginCall id).2.filed = t.filed := by
      unfold beginCall
      rw [updateCalls_eq]
      refine flatMap_alter (·.frames.toList) id t.detached ?_ fun _ => ?_ <;> rfl
    exact .single (.quiet rfl suffix_rfl (fun h => h) hf (.inr ⟨id, ids_updateCalls t id _⟩))
  | startDetached k set id => exact .single (.file k set id)
  | turn set => exact .single (.turn set)
  | endFrame =>
    have hd : t.endFrame.detached = t.detached := by
      unfold endFrame
      split <;> rfl
    exact .single (.close t.endFrame_frames hd t.endFrame_suffix endFrame_ne_nil)
  | endLoop =>
    exact .single (.close rfl rfl (unwindToLoop_suffix _ _) (unwindToLoop_ne_nil _))
  | unwindTo d => exact .single (t.move_unwindTo d)
  | write s =>
    simp only [apply, write]
    split
    · exact .refl t
    · exact .single (.close rfl rfl suffix_rfl id)
  | logException type msg => exact .single (.note rfl)
  | logUncaught type msg => exact t.moves_logUncaught type msg
  | logCallException type msg i l d =>
    exact .step (.note rfl) (.step (move_keepException _ _) (.single (move_unwindTo _ d)))

theorem moves_applyAll (ss : List Step) : Moves (allNotes t ss) (allOpens t ss) t (t.applyAll ss) := by
  induction ss generalizing t with
  | nil => exact .refl t
  | cons s r ih => exact (t.moves_apply s).trans (ih (t.apply s))

end

end Playback.Trace
