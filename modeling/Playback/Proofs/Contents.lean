import Playback.Proofs.Trees

/-!
# What frames hold

Between two states of a trace, code changes no frame that was there but the innermost open one (`Alters`), and what
is done inside a frame that was opened since leaves the frames outside it alone (`Alters.inside`). So the contents of
a frame are put together from what was done while it was the innermost: entries are added to its active child set
(`Frame.pushAll`), and it turns from one child set to the next.
-/

namespace Playback.Trace

open List

/-! ## Entries of a frame -/

/-- Adds entries to the active child set one after the other. -/
def Frame.pushAll (frame : Frame) (entries : List Entry) : Frame :=
  entries.foldl Frame.push frame

theorem Frame.pushAll_append (f : Frame) (es more : List Entry) :
    f.pushAll (es ++ more) = (f.pushAll es).pushAll more :=
  foldl_append ..

theorem appendEntry_last (e : Entry)
    (hn : x ∉ b.map (·.1)) (es : Array Entry) : appendEntry x e (b ++ [(x, es)]) = b ++ [(x, es.push e)] := by
  induction b with
  | nil => exact if_pos rfl
  | cons _ r ih =>
    rw [map_cons, mem_cons, not_or] at hn
    obtain ⟨hne, hr⟩ := hn
    rw [cons_append, appendEntry, if_neg (Ne.symm hne), ih hr, cons_append]

/-- Where the active child set is the last, entries are added at the end of everything. -/
theorem Frame.pushAll_eq (f : Frame) (b : List (String × Array Entry))
    (hs : f.sets = b ++ [(f.active, es)]) (ha : f.active ∉ b.map (·.1)) (more : List Entry) :
    f.pushAll more = { f with sets := b ++ [(f.active, es ++ more.toArray)] } := by
  induction more generalizing f es with
  | nil => rw [Array.append_empty, ← hs]; rfl
  | cons e r ih =>
    have hp : f.push e
        = { f with sets := b ++ [(f.active, es.push e)] } := by
      rw [Frame.push, hs, appendEntry_last e ha]
    change (f.push e).pushAll r = _
    rw [hp, ih { f with sets := b ++ [(f.active, es.push e)] } rfl ha]
    simp

theorem Frame.kind_pushAll (f : Frame) (es : List Entry) : (f.pushAll es).kind = f.kind := by
  induction es generalizing f with
  | nil => rfl
  | cons e r ih => exact ih (f.push e)

theorem Frame.pushAll_open (kind : Kind) (set : String) (entries : List Entry) :
    (Frame.open kind set).pushAll entries = { kind, sets := [(set, entries.toArray)], active := set } := by
  rw [Frame.pushAll_eq (Frame.open kind set) [] rfl not_mem_nil]
  simp [Frame.open]

theorem Frame.pushAll_turn (kind : Kind) {set set' : String} (hs : set ≠ set') (first : Array Entry)
    (entries : List Entry) : (Frame.turn { kind, sets := [(set, first)], active := set } set').pushAll entries
      = { kind, sets := [(set, first), (set', entries.toArray)], active := set' } := by
  have ht : Frame.turn { kind, sets := [(set, first)], active := set } set'
      = { kind, sets := [(set, first), (set', #[])], active := set' } := by
    rw [Frame.turn, ensureSet, if_neg hs]
    rfl
  rw [ht, Frame.pushAll_eq { kind, sets := [(set, first), (set', #[])], active := set' } [(set, first)] rfl
    (by simpa using Ne.symm hs)]
  simp

/-! ## What changes in between -/

/-- From one trace to a later one, the frame that was the innermost has changed as is said and no other frame that was
there has, and none of them that was closed is open. -/
structure Alters (change : Frame → Frame) (t t' : Trace) : Prop where
  size : t.frames.size ≤ t'.frames.size
  top : t'.frames[t.top]? = t.frames[t.top]?.map change
  others : ∀ id < t.frames.size, id ≠ t.top → t'.frames[id]? = t.frames[id]?
  closed : ∀ id < t.frames.size, id ∈ t'.stack → id ∈ t.stack

/-- No frame that was closed has changed. -/
def Spares (t t' : Trace) : Prop :=
  ∀ i < t.frames.size, i ∉ t.stack → t'.frames[i]? = t.frames[i]?

/-- From a number on, no frame that was there has changed. -/
def SameFrom (n : Nat) (t t' : Trace) : Prop :=
  ∀ i, n ≤ i → i < t.frames.size → t'.frames[i]? = t.frames[i]?

namespace Alters

theorem of_frames (hf : t'.frames = t.frames) (hs : ∀ id ∈ t'.stack, id ∈ t.stack) : Alters id t t' where
  size := Nat.le_of_eq (by rw [hf])
  top := by rw [hf, Option.map_id, id]
  others _ _ _ := by rw [hf]
  closed id _ hid := hs id hid

theorem refl (t : Trace) : Alters id t t :=
  of_frames rfl fun _ h => h

theorem trans (h : Alters change t t') (ht : t'.top = t.top) (h' : Alters change' t' t'') :
    Alters (change' ∘ change) t t'' where
  size := Nat.le_trans h.size h'.size
  top := by rw [← ht, h'.top, ht, h.top, Option.map_map]
  others id hid hne := by
    rw [h'.others id (Nat.lt_of_lt_of_le hid h.size) (ht ▸ hne), h.others id hid hne]
  closed id hid ho := h.closed id hid (h'.closed id (Nat.lt_of_lt_of_le hid h.size) ho)

theorem of_eq (h : Alters change t t') (heq : ∀ f, change f = change' f) : Alters change' t t' :=
  (funext heq : change = change') ▸ h

theorem inside (h : Alters change t t') (ht : t.top < t.frames.size) (hi : t.frames.size ≤ t'.top)
    (h' : Alters change' t' t'') : Alters change t t'' where
  size := Nat.le_trans h.size h'.size
  top := (h'.others t.top (Nat.lt_of_lt_of_le ht h.size) (by omega)).trans h.top
  others id hid hne :=
    (h'.others id (Nat.lt_of_lt_of_le hid h.size) (by omega)).trans (h.others id hid hne)
  closed id hid ho := h.closed id hid (h'.closed id (Nat.lt_of_lt_of_le hid h.size) ho)

theorem close (h : Alters change t t') (hf : t''.frames = t'.frames) (hs : ∀ id ∈ t''.stack, id ∈ t'.stack) :
    Alters change t t'' where
  size := by rw [hf]; exact h.size
  top := by rw [hf]; exact h.top
  others := by rw [hf]; exact h.others
  closed id hid ho := h.closed id hid (hs id ho)

theorem of_same (h : Alters change t' t'') (hf : t'.frames = t.frames) (hs : t'.stack = t.stack) :
    Alters change t t'' := by
  have ht : t'.top = t.top := by rw [Trace.top, hs, Trace.top]
  exact (of_frames hf (fun _ hid => hs ▸ hid)).trans ht h

end Alters

variable (t : Trace)

theorem alters_modify (change : Frame → Frame) : Alters change t { t with frames := t.frames.modify t.top change } where
  size := Nat.le_of_eq Array.size_modify.symm
  top := by rw [Array.getElem?_modify, if_pos rfl]
  others id _ hne := by rw [Array.getElem?_modify, if_neg (Ne.symm hne)]
  closed _ _ hid := hid

theorem alters_push (e : Entry) : Alters (·.push e) t (t.push e) :=
  t.alters_modify (·.push e)

namespace Alters

variable {t}

theorem spares (h : Alters change t t') (ht : t.Sound) : t.Spares t' := by
  intro i hi hc
  refine h.others i hi ?_
  rintro rfl
  exact hc ht.top_mem

theorem spares_push (h : Alters change t t') (ht : t.Sound) (ht' : t'.Sound) (e : Entry) : t.Spares (t'.push e) := by
  intro i hi hc
  have hc' : i ∉ t'.stack := fun ho => hc (h.closed i hi ho)
  rw [(t'.alters_push e).spares ht' i (Nat.lt_of_lt_of_le hi h.size) hc', h.spares ht i hi hc]

end Alters

theorem alters_turn (set : String) : Alters (·.turn set) t (t.turn set) :=
  t.alters_modify (·.turn set)

theorem alters_logResult (k : Option Kind) (s type : String) :
    Alters (·.push (.result k s type t.pending.toList)) t (t.logResult k s type) := by
  have hp := Trace.alters_push { t with pending := #[] } (.result k s type t.pending.toList)
  exact hp.of_same rfl rfl

theorem alters_openFrame (ht : t.top < t.frames.size) (k : Kind) (set : String) : Alters id t (t.openFrame k set) := by
  have hk : ∀ id < t.frames.size, (t.openFrame k set).frames[id]? = t.frames[id]? := fun id hid => by
    change (t.frames.push _)[id]? = _
    rw [Array.getElem?_push, if_neg (Nat.ne_of_lt hid)]
  refine ⟨?_, by rw [hk _ ht, Option.map_id, id], fun id hid _ => hk id hid, fun id hid ho => ?_⟩
  · exact Nat.le_of_lt (Nat.lt_of_lt_of_eq (Nat.lt_succ_self _) (Array.size_push _).symm)
  · rcases mem_cons.1 ho with rfl | ho
    · exact absurd hid (Nat.lt_irrefl _)
    · exact ho

theorem alters_addFrame (ht : t.top < t.frames.size) (k : Kind) (set : String) :
    Alters (·.push (.frame t.frames.size)) t (t.addFrame k set) := by
  have hp := t.alters_push (.frame t.frames.size)
  have hi : (t.push (.frame t.frames.size)).top < (t.push (.frame t.frames.size)).frames.size :=
    Nat.lt_of_lt_of_eq ht Array.size_modify.symm
  exact hp.trans rfl (Trace.alters_openFrame _ hi k set)

@[simp] theorem addFrame_stack (k : Kind) (set : String) :
    (t.addFrame k set).stack = t.frames.size :: t.stack := by
  simp [Trace.addFrame, Trace.openFrame, Trace.push]

@[simp] theorem addFrame_size (k : Kind) (set : String) : (t.addFrame k set).frames.size = t.frames.size + 1 := by
  simp [Trace.addFrame, Trace.openFrame, Trace.push]

theorem addFrame_new (k : Kind) (set : String) :
    (t.addFrame k set).frames[t.frames.size]? = some (Frame.open k set) := by
  have hs : (t.push (.frame t.frames.size)).frames.size = t.frames.size := Array.size_modify
  change ((t.push (.frame t.frames.size)).frames.push (Frame.open k set))[t.frames.size]? = _
  rw [Array.getElem?_push, if_pos hs.symm]

end Playback.Trace
