import Playback.Proofs.Frames
import Mathlib.Data.List.Forall2

/-!
# Traces with the same frames

Two runs that trace another number of calls open other frames; the pair `caps` says how many calls of a function each
of them traces. `Twin` matches the frames of the trace with fewer calls with those of the other, whose numbers are in
the list `g`. What matched frames hold differs only in the output that their results took. Pins are how the frames were
matched at some point: a computation keeps what is matched, and matches no frame that was matched with none.
-/

namespace Playback.Trace

open List

variable {j j' i k i' : Nat}

/-- Entries that differ only in output and in the numbers of frames; frames inside frame `i` come after it. -/
inductive EntryTwin (g : List Nat) (i : Nat) : Entry → Entry → Prop where
  | frame {j j' : Nat} : i < j → g[j]? = some j' → EntryTwin g i (.frame j) (.frame j')
  | result (kind : Option Kind) (text type : String) (output output' : List String) :
    EntryTwin g i (.result kind text type output) (.result kind text type output')
  | exception (type message : String) : EntryTwin g i (.exception type message) (.exception type message)

structure SetTwin (g : List Nat) (i : Nat) (s s' : String × Array Entry) : Prop where
  name : s'.1 = s.1
  entries : List.Forall₂ (EntryTwin g i) s.2.toList s'.2.toList

/-- Frames with the same entries. -/
structure FrameTwin (g : List Nat) (i : Nat) (f f' : Frame) : Prop where
  kind : f'.kind = f.kind
  active : f'.active = f.active
  sets : List.Forall₂ (SetTwin g i) f.sets f'.sets

/-- Calls under one id: as many calls, and of the traced ones the first `caps.1` are the same. -/
structure CallsTwin (cp : Nat × Nat) (g : List Nat) (c c' : String × Calls) : Prop where
  id : c'.1 = c.1
  invocations : c'.2.invocations = c.2.invocations
  size : c.2.frames.size = min cp.1 c.2.invocations
  size' : c'.2.frames.size = min cp.2 c.2.invocations
  frames : List.Forall₂ (fun i i' => g[i]? = some i') c.2.frames.toList (c'.2.frames.toList.take cp.1)

/-- The frames of `t` are the frames of `t'` that `g` lists. -/
structure Twin (cp : Nat × Nat) (g : List Nat) (t t' : Trace) : Prop where
  size : t.frames.size = g.length
  bound : ∀ i ∈ g, i < t'.frames.size
  sorted : g.Pairwise (· < ·)
  root : g[0]? = some 0
  frames : ∀ i i' : Nat, g[i]? = some i' → ∃ f f', t.frames[i]? = some f ∧ t'.frames[i']? = some f' ∧ FrameTwin g i f f'
  detached : List.Forall₂ (CallsTwin cp g) t.detached t'.detached
  unlimited : t.iterationLimit = none ∧ t'.iterationLimit = none
  limits : t.callLimit = cp.1 ∧ t'.callLimit = cp.2

/-- A trace that differs at most in the frames that are open and in the output that is pending. -/
structure Same (t u : Trace) : Prop where
  frames : u.frames = t.frames
  detached : u.detached = t.detached
  lastException : u.lastException = t.lastException
  iterationLimit : u.iterationLimit = t.iterationLimit
  callLimit : u.callLimit = t.callLimit

theorem Same.refl (t : Trace) : t.Same t :=
  ⟨rfl, rfl, rfl, rfl, rfl⟩

variable {cp : Nat × Nat} {f f' : Frame} {on : Bool × Bool} {p : Pins} {t t' : Trace}

theorem Same.when (h : t.Same u) (b : Bool) (v : Trace) : (if b then t else v).Same (if b then u else v) := by
  cases b with
  | true => exact h
  | false => exact .refl v

theorem same_write (t : Trace) (s : String) : t.Same (t.write s) := by
  unfold write
  split
  · exact .refl t
  · exact ⟨rfl, rfl, rfl, rfl, rfl⟩

theorem same_endFrame (t : Trace) : t.Same t.endFrame := by
  unfold endFrame
  split
  · exact ⟨rfl, rfl, rfl, rfl, rfl⟩
  · exact .refl t

theorem same_endLoop (t : Trace) : t.Same t.endLoop :=
  ⟨rfl, rfl, rfl, rfl, rfl⟩

theorem same_unwindTo (t : Trace) (d : Nat) : t.Same (t.unwindTo d) :=
  ⟨rfl, rfl, rfl, rfl, rfl⟩

/-! ## A longer list -/

section

variable {g : List Nat} {i : Nat} (more : List Nat)

theorem getElem?_append_of_some (h : g[j]? = some j') : (g ++ more)[j]? = some j' := by
  obtain ⟨hlt, -⟩ := List.getElem?_eq_some_iff.1 h
  rw [List.getElem?_append_left hlt]
  exact h

theorem EntryTwin.append (h : EntryTwin g i e e') : EntryTwin (g ++ more) i e e' := by
  cases h with
  | frame hlt hj => exact .frame hlt (getElem?_append_of_some more hj)
  | result => exact .result ..
  | exception => exact .exception ..

theorem FrameTwin.append (h : FrameTwin g i f f') : FrameTwin (g ++ more) i f f' :=
  ⟨h.kind, h.active, h.sets.imp fun _ _ hs => ⟨hs.name, hs.entries.imp fun _ _ => .append more⟩⟩

theorem CallsTwin.append (h : CallsTwin cp g c c') : CallsTwin cp (g ++ more) c c' :=
  ⟨h.id, h.invocations, h.size, h.size', h.frames.imp fun _ _ => getElem?_append_of_some more⟩

end

/-! ## What happens inside frames -/

section

variable {g : List Nat} {i : Nat}

theorem alter_twin {α : Type} {q : String × α → String × α → Prop} {y : String} {new : α} {change change' : α → α}
    {row row' : List (String × α)} (h : List.Forall₂ q row row') (hna : ∀ x x', q x x' → x.1 = x'.1)
    (hne : q (y, new) (y, new))
    (hc : ∀ x', q (y, (row.lookup y).getD new) (y, x') → q (y, change ((row.lookup y).getD new)) (y, change' x')) :
    List.Forall₂ q (alter y new change row) (alter y new change' row') := by
  induction h with
  | nil => exact .cons (hc _ hne) .nil
  | @cons x x' r _ hx hr ih =>
    obtain ⟨n, x⟩ := x
    obtain ⟨n', x'⟩ := x'
    obtain rfl : n = n' := hna _ _ hx
    unfold alter
    split
    · rename_i hn
      subst hn
      rw [lookup_cons_self] at hc
      exact .cons (hc x' hx) hr
    · rename_i hn
      rw [lookup_cons, beq_eq_false_iff_ne.2 (Ne.symm hn)] at hc
      exact .cons hx (ih hc)

theorem FrameTwin.push (h : FrameTwin g i f f') {e e' : Entry} (he : EntryTwin g i e e') :
    FrameTwin g i (f.push e) (f'.push e') := by
  refine ⟨h.kind, h.active, ?_⟩
  unfold Frame.push
  rw [h.active, appendEntry_eq, appendEntry_eq]
  refine alter_twin h.sets (fun _ _ hs => hs.name.symm) ⟨rfl, .nil⟩ fun _ hs => ⟨rfl, ?_⟩
  rw [Array.toList_push, Array.toList_push]
  exact rel_append hs.entries (.cons he .nil)

theorem FrameTwin.turn (h : FrameTwin g i f f') (set : String) : FrameTwin g i (f.turn set) (f'.turn set) := by
  refine ⟨h.kind, rfl, ?_⟩
  unfold Frame.turn
  rw [ensureSet_eq, ensureSet_eq]
  exact alter_twin h.sets (fun _ _ hs => hs.name.symm) ⟨rfl, .nil⟩ fun _ hs => hs

theorem FrameTwin.open (g : List Nat) (i : Nat) (k : Kind) (set : String) :
    FrameTwin g i (Frame.open k set) (Frame.open k set) :=
  ⟨rfl, rfl, .cons ⟨rfl, .nil⟩ .nil⟩

end

/-! ## What happens to frames -/

namespace Twin

variable {g : List Nat}

variable (h : Twin cp g t t')

include h

/-- What is said of two traces is about their frames, their calls and their limits. -/
theorem congr (hu : t.Same u) (hu' : t'.Same u') : Twin cp g u u' := by
  obtain ⟨size, b, s, root, fs, detached, unlimited, l⟩ := h
  rw [← hu.frames] at size fs
  rw [← hu'.frames] at b fs
  rw [← hu.detached, ← hu'.detached] at detached
  rw [← hu.iterationLimit, ← hu'.iterationLimit] at unlimited
  rw [← hu.callLimit, ← hu'.callLimit] at l
  exact ⟨size, b, s, root, fs, detached, unlimited, l⟩

theorem inj (hi : g[i]? = some k) (hj : g[j]? = some k) : i = j := by
  obtain ⟨hil, rfl⟩ := List.getElem?_eq_some_iff.1 hi
  obtain ⟨hjl, hk⟩ := List.getElem?_eq_some_iff.1 hj
  have hs := List.pairwise_iff_getElem.1 h.sorted
  rcases Nat.lt_trichotomy i j with hlt | heq | hlt
  · exact absurd hk (Nat.ne_of_gt (hs i j hil hjl hlt))
  · exact heq
  · exact absurd hk (Nat.ne_of_lt (hs j i hjl hil hlt))

theorem modify (hi : g[i]? = some i') (hc : ∀ f f', FrameTwin g i f f' → FrameTwin g i (change f) (change' f')) :
    Twin cp g { t with frames := t.frames.modify i change }
      { t' with frames := t'.frames.modify i' change' } := by
  refine ⟨?_, ?_, h.sorted, h.root, ?_, h.detached, h.unlimited, h.limits⟩
  · exact (Array.size_modify).trans h.size
  · intro j hj
    exact Nat.lt_of_lt_of_eq (h.bound j hj) Array.size_modify.symm
  · intro j j' hj
    obtain ⟨f, f', hf, hf', ht⟩ := h.frames j j' hj
    rw [Array.getElem?_modify, Array.getElem?_modify, hf, hf']
    by_cases hij : i = j
    · subst hij
      obtain rfl : i' = j' := Option.some.inj (hi.symm.trans hj)
      exact ⟨change f, change' f', by simp, by simp, hc f f' ht⟩
    · have hij' : i' ≠ j' := by
        rintro rfl
        exact hij (h.inj hi hj)
      exact ⟨f, f', by simp [hij], by simp [hij'], ht⟩

theorem changeRight (stack' : List Nat) (hs : t'.frames.size ≤ fs'.size)
    (hfr : ∀ i ∈ g, fs'[i]? = t'.frames[i]?) : Twin cp g t { t' with frames := fs', stack := stack' } := by
  refine ⟨h.size, fun i hi => Nat.lt_of_lt_of_le (h.bound i hi) hs, h.sorted, h.root, ?_, h.detached, h.unlimited,
    h.limits⟩
  intro i i' hi
  obtain ⟨f, f', hf, hf', ht⟩ := h.frames i i' hi
  exact ⟨f, f', hf, (hfr i' (mem_of_getElem? hi)).trans hf', ht⟩

theorem modify_right (hi : i' ∉ g) (change' : Frame → Frame) :
    Twin cp g t { t' with frames := t'.frames.modify i' change' } :=
  h.changeRight t'.stack (Nat.le_of_eq Array.size_modify.symm) fun i hm => by
    rw [Array.getElem?_modify, if_neg (by rintro rfl; exact hi hm)]

theorem openFrame_right (k : Kind) (set : String) : Twin cp g t (t'.openFrame k set) :=
  h.changeRight _ (by rw [Array.size_push]; exact Nat.le_succ _) fun i hm => by
    rw [Array.getElem?_push, if_neg (Nat.ne_of_lt (h.bound i hm))]

theorem openFrame (k : Kind) (set : String) :
    Twin cp (g ++ [t'.frames.size]) (t.openFrame k set) (t'.openFrame k set) := by
  have hs : (t'.openFrame k set).frames.size = t'.frames.size + 1 := Array.size_push _
  refine ⟨?_, ?_, ?_, ?_, ?_, ?_, h.unlimited, h.limits⟩
  · exact (Array.size_push _).trans (by rw [h.size, length_append]; rfl)
  · intro i hi
    rw [hs]
    rcases mem_append.1 hi with hi | hi
    · exact Nat.lt_succ_of_lt (h.bound i hi)
    · rw [mem_singleton.1 hi]
      exact Nat.lt_succ_self _
  · refine pairwise_append.2 ⟨h.sorted, pairwise_singleton _ _, fun i hi j hj => ?_⟩
    rw [mem_singleton.1 hj]
    exact h.bound i hi
  · exact getElem?_append_of_some _ h.root
  · intro i i' hi
    have hfr : (t.openFrame k set).frames = t.frames.push (Frame.open k set) := rfl
    have hfr' : (t'.openFrame k set).frames = t'.frames.push (Frame.open k set) := rfl
    rw [hfr, hfr', Array.getElem?_push, Array.getElem?_push]
    rw [getElem?_append] at hi
    split at hi
    · rename_i hlt
      obtain ⟨f, f', hf, hf', ht⟩ := h.frames i i' hi
      have hi' := h.bound i' (mem_of_getElem? hi)
      rw [if_neg (by rw [h.size]; omega), if_neg (by omega)]
      exact ⟨f, f', hf, hf', ht.append _⟩
    · rename_i hge
      obtain ⟨_, rfl⟩ : i - g.length = 0 ∧ t'.frames.size = i' := by
        cases hp : i - g.length with
        | zero =>
          rw [hp] at hi
          exact ⟨rfl, Option.some.inj hi⟩
        | succ n =>
          rw [hp] at hi
          cases hi
      rw [if_pos (by rw [h.size]; omega), if_pos rfl]
      exact ⟨_, _, rfl, rfl, .open _ _ k set⟩
  · exact h.detached.imp fun _ _ => .append _

end Twin

/-! ## Pins -/

/-- How frames are matched: the frames of the second trace that are, and how many it has. -/
structure Pins where
  matched : List Nat
  size : Nat

/-- Later pins lose no frame that is matched, and match none that is matched with none. -/
structure Pins.Sub (p p' : Pins) : Prop where
  matched : p.matched <+: p'.matched
  size : p.size ≤ p'.size
  spare : ∀ i ∈ p'.matched, i < p.size → i ∈ p.matched

theorem Pins.Sub.refl (p : Pins) : p.Sub p :=
  ⟨prefix_refl _, Nat.le_refl _, fun _ hi _ => hi⟩

theorem Pins.Sub.trans (h : p.Sub p') (h' : p'.Sub p'') : p.Sub p'' :=
  ⟨h.matched.trans h'.matched, Nat.le_trans h.size h'.size,
    fun i hi hlt => h.spare i (h'.spare i hi (Nat.lt_of_lt_of_le hlt h.size)) hlt⟩

theorem Pins.sub_openFrame (p : Pins) : p.Sub ⟨p.matched ++ [p.size], p.size + 1⟩ := by
  refine ⟨prefix_append _ _, Nat.le_succ _, fun i hi hlt => ?_⟩
  rcases mem_append.1 hi with hi | hi
  · exact hi
  · exact absurd (mem_singleton.1 hi) (Nat.ne_of_lt hlt)

/-- Two traces whose frames are matched as pinned. -/
def Twins (cp : Nat × Nat) (p : Pins) (t t' : Trace) : Prop :=
  ∃ g, Twin cp g t t' ∧ p.Sub ⟨g, t'.frames.size⟩

/-- The runs in `on` report to the frames `i` and `i'`, which are matched, or the second alone to one that is matched
with none. -/
def Pins.Meet (p : Pins) (on : Bool × Bool) (i i' : Nat) : Prop :=
  match on with
  | (true, true) => p.matched[i]? = some i'
  | (false, true) => i' < p.size ∧ i' ∉ p.matched
  | (false, false) => True
  | (true, false) => False

theorem Pins.Meet.sub (h : p.Meet on i i') (hs : p.Sub p') : p'.Meet on i i' := by
  match on, h with
  | (true, true), h =>
    obtain ⟨more, hm⟩ := hs.matched
    exact show p'.matched[i]? = _ from hm ▸ getElem?_append_of_some more h
  | (false, true), h => exact ⟨Nat.lt_of_lt_of_le h.1 hs.size, fun hm => h.2 (hs.spare i' hm h.1)⟩
  | (false, false), _ => trivial

/-- Where two runs of the same code report to, each of them with a trace or without. -/
def Aligned (on : Bool × Bool) (p : Pins) (t t' : Trace) : Prop :=
  p.Meet on t.top t'.top

theorem Aligned.of_stack (h : Aligned on p t t')
    (hu : u.stack = t.stack) (hu' : u'.stack = t'.stack) : Aligned on p u u' := by
  have ht : u.top = t.top := by rw [top, top, hu]
  have ht' : u'.top = t'.top := by rw [top, top, hu']
  unfold Aligned
  rw [ht, ht']
  exact h

/-- Traces with the frames that were matched still matched, which the runs in `on` report to as they may. -/
def Joint (cp : Nat × Nat) (on : Bool × Bool) (p : Pins) (t t' : Trace) : Prop :=
  ∃ p' : Pins, p.Sub p' ∧ Aligned on p' t t' ∧ Twins cp p' t t'

namespace Twins

variable {p' : Pins}

theorem sub (h : Twins cp p' t t') (hs : p.Sub p') : Twins cp p t t' := by
  obtain ⟨g, ht, hp⟩ := h
  exact ⟨g, ht, hs.trans hp⟩

variable (h : Twins cp p t t')

include h

theorem congr (hu : t.Same u) (hu' : t'.Same u') : Twins cp p u u' := by
  obtain ⟨g, ht, hp⟩ := h
  exact ⟨g, ht.congr hu hu', hu'.frames ▸ hp⟩

theorem inside (hm : p.Meet on i i') (change : Frame → Frame)
    (hc : ∀ g f f', on = (true, true) → p.Sub ⟨g, t'.frames.size⟩ → FrameTwin g i f f' →
      FrameTwin g i (change f) (change' f')) :
    Twins cp p (if on.1 then { t with frames := t.frames.modify i change } else t)
      (if on.2 then { t' with frames := t'.frames.modify i' change' } else t') := by
  obtain ⟨g, ht, hp⟩ := h
  have hs : p.Sub ⟨g, (t'.frames.modify i' change').size⟩ := by
    rw [Array.size_modify]
    exact hp
  match on, hm.sub hp with
  | (true, true), hm => exact ⟨g, ht.modify hm fun f f' => hc g f f' rfl hp, hs⟩
  | (false, true), hm => exact ⟨g, ht.modify_right hm.2 change', hs⟩
  | (false, false), _ => exact ⟨g, ht, hp⟩

theorem turn (ha : Aligned on p t t') (set : String) :
    Twins cp p (if on.1 then t.turn set else t) (if on.2 then t'.turn set else t') :=
  h.inside ha _ fun _ _ _ _ _ hf => hf.turn set

theorem logException (ha : Aligned on p t t') (type msg : String) :
    Twins cp p (if on.1 then t.logException type msg else t) (if on.2 then t'.logException type msg else t') :=
  h.inside ha _ fun _ _ _ _ _ hf => hf.push (.exception type msg)

theorem logResult (ha : Aligned on p t t') (k : Option Kind) (s type : String) :
    Twins cp p (if on.1 then t.logResult k s type else t)
      (if on.2 then t'.logResult k s type else t') := by
  have hs (u : Trace) : Same { u with frames := u.frames.modify u.top (·.push (.result k s type u.pending.toList)) }
        (u.logResult k s type) := ⟨rfl, rfl, rfl, rfl, rfl⟩
  exact (h.inside ha _ fun _ _ _ _ _ hf => hf.push (.result ..)).congr ((hs t).when _ t) ((hs t').when _ t')

theorem keepException (b b' : Bool) (e e' : LastException) :
    Twins cp p (if b then t.keepException e else t) (if b' then t'.keepException e' else t') := by
  obtain ⟨g, ht, hp⟩ := h
  have hk (b : Bool) (u : Trace) (e : LastException) :
      ∃ z, (if b then u.keepException e else u) = { u with lastException := z } := by
    cases b with
    | true =>
      rw [if_pos rfl, Trace.keepException]
      split
      · exact ⟨u.lastException, rfl⟩
      · exact ⟨some e, rfl⟩
    | false => exact ⟨u.lastException, rfl⟩
  obtain ⟨z, hl⟩ := hk b t e
  obtain ⟨_, hl'⟩ := hk b' t' e'
  rw [hl, hl']
  exact ⟨g, { ht with }, hp⟩

theorem logCallException (ha : Aligned on p t t') (type message : String) (index index' line line' depth depth' : Nat) :
    Twins cp p (if on.1 then t.logCallException type message index line depth else t)
      (if on.2 then t'.logCallException type message index' line' depth' else t') := by
  let last (index line : Nat) : LastException :=
    { type, message, frameNumber := some index, lineNumber := some line }
  have hk := (h.logException ha type message).keepException on.1 on.2 (last index line) (last index' line')
  have hs : ∀ (b : Bool) (index line depth : Nat) (u : Trace),
      (if b then (if b then u.logException type message else u).keepException (last index line)
        else (if b then u.logException type message else u)).Same
        (if b then u.logCallException type message index line depth else u) := by
    intro b index line depth u
    cases b with
    | true => exact same_unwindTo _ depth
    | false => exact .refl u
  exact hk.congr (hs ..) (hs ..)

theorem openFrame (on : Bool × Bool) (hon : on.1 = true → on.2 = true) (k : Kind) (set : String) :
    Joint cp on p (if on.1 then t.openFrame k set else t) (if on.2 then t'.openFrame k set else t') := by
  obtain ⟨g, ht, hp⟩ := h
  have hs' : (t'.openFrame k set).frames.size = t'.frames.size + 1 := Array.size_push _
  match on with
  | (true, true) =>
    refine ⟨_, hp.trans (Pins.sub_openFrame _), ?_, _, ht.openFrame k set, hs' ▸ .refl _⟩
    exact (congrArg _ ht.size).trans getElem?_concat_length
  | (false, true) =>
    refine ⟨⟨g, t'.frames.size + 1⟩, hp.trans ⟨prefix_refl _, Nat.le_succ _, fun _ hi _ => hi⟩, ?_, g,
      ht.openFrame_right k set, hs' ▸ .refl _⟩
    exact ⟨Nat.lt_succ_self _, fun hm => Nat.lt_irrefl _ (ht.bound _ hm)⟩
  | (false, false) => exact ⟨p, .refl p, trivial, g, ht, hp⟩
  | (true, false) => exact absurd (hon rfl) nofun

omit h in
/-- Opening a frame as an entry of the innermost one, in the order that suits matching: the entry comes
last. -/
theorem addFrame_eq (ht : t.top < t.frames.size) (k : Kind) (set : String) : t.addFrame k set = { t.openFrame k set with
      frames := (t.openFrame k set).frames.modify t.top (·.push (.frame t.frames.size)) } := by
  have hf : (t.frames.modify t.top (·.push (.frame t.frames.size))).push (Frame.open k set)
      = (t.frames.push (Frame.open k set)).modify t.top (·.push (.frame t.frames.size)) := by
    apply Array.ext_getElem?
    intro i
    rw [Array.getElem?_push, Array.getElem?_modify, Array.getElem?_modify, Array.getElem?_push, Array.size_modify]
    by_cases hi : i = t.frames.size
    · rw [if_pos hi, if_pos hi, if_neg (by omega)]
    · rw [if_neg hi, if_neg hi]
  unfold Trace.addFrame Trace.push Trace.openFrame
  dsimp only
  rw [hf, Array.size_modify]

theorem addFrame (ha : Aligned on p t t') (k : Kind) (set : String) :
    Joint cp on p (if on.1 then t.addFrame k set else t) (if on.2 then t'.addFrame k set else t') := by
  obtain ⟨g, ht, hp⟩ := id h
  match on, ha with
  | (true, true), ha =>
    obtain ⟨p', hs, hn, ho⟩ := h.openFrame (true, true) id k set
    have hto := Pins.Meet.sub ha hp
    obtain ⟨hlt, -⟩ := List.getElem?_eq_some_iff.1 hto
    rw [← ht.size] at hlt
    rw [addFrame_eq hlt, addFrame_eq (ht.bound _ (List.mem_of_getElem? hto))]
    exact ⟨p', hs, hn, ho.inside (Pins.Meet.sub ha hs) _ fun _ _ _ _ hh hf => hf.push (.frame hlt (hn.sub hh))⟩
  | (false, true), ha =>
    obtain ⟨p', hs, hn, ho⟩ := h.openFrame (false, true) nofun k set
    rw [addFrame_eq (Pins.Meet.sub ha hp).1]
    exact ⟨p', hs, hn, ho.inside (Pins.Meet.sub ha hs) id nofun⟩
  | (false, false), _ => exact ⟨p, .refl p, trivial, h⟩
  | (true, false), ha => exact ha.elim

end Twins

/-! ## Calls -/

/-- A trace when a call under an id has begun: the call is counted, and if it is traced its frame is open. -/
def enterCall (t : Trace) (id : String) : Trace :=
  if (t.beginCall id).1.traced then (t.beginCall id).2.startDetached .functionCall "body" id
  else (t.beginCall id).2

theorem updateCalls_updateCalls (id : String) (change change' : Calls → Calls) (xs : List (String × Calls)) :
    updateCalls id change' (updateCalls id change xs) = updateCalls id (fun c => change' (change c)) xs := by
  induction xs with
  | nil => simp [updateCalls]
  | cons x r ih =>
    obtain ⟨y, c⟩ := x
    by_cases hid : y = id
    · simp [updateCalls, hid]
    · simp [updateCalls, hid, ih]

def countCall (frame : Option Nat) (c : Calls) : Calls :=
  { frames := frame.elim c.frames c.frames.push, invocations := c.invocations + 1 }

theorem enterCall_eq (t : Trace) (id : String) (ht : (t.beginCall id).1.traced = b) :
    t.enterCall id = { (if b then t.openFrame .functionCall "body" else t) with
      detached := updateCalls id (countCall (if b then some t.frames.size else none)) t.detached } := by
  unfold enterCall
  rw [ht]
  cases b with
  | true =>
    unfold startDetached beginCall openFrame
    dsimp only
    rw [updateCalls_updateCalls]
    rfl
  | false => rfl

section

theorem Twin.invocations (h : Twin cp g t t') (id : String) : t'.invocations id = t.invocations id := by
  have hd := h.detached
  unfold Trace.invocations
  generalize t.detached = d at hd ⊢
  generalize t'.detached = d' at hd ⊢
  induction hd with
  | nil => rfl
  | @cons x x' r _ hx _ ih =>
    obtain ⟨y, c⟩ := x
    obtain ⟨y', _⟩ := x'
    obtain rfl : y' = y := hx.id
    rw [lookup_cons, lookup_cons]
    split
    · exact hx.invocations
    · exact ih

/-- One more call under an id: the frames of both traces, of the second, or of none are filed. -/
theorem CallsTwin.countCall (hle : cp.1 ≤ cp.2) {id : String}
    (h : CallsTwin cp g (id, c) (id, c')) (hi : c.invocations < cp.1 → g[i]? = some i') :
    CallsTwin cp g (id, Trace.countCall (if decide (c.invocations < cp.1) then some i else none) c)
      (id, Trace.countCall (if decide (c.invocations < cp.2) then some i' else none) c') := by
  obtain ⟨-, hin, hs, hs', hf⟩ := h
  dsimp only at hin hs hs' hf
  refine ⟨rfl, by rw [Trace.countCall, Trace.countCall, hin], ?_, ?_, ?_⟩
  · by_cases hlt : c.invocations < cp.1 <;> simp [Trace.countCall, hlt] <;> omega
  · by_cases hlt : c.invocations < cp.2 <;> simp [Trace.countCall, hlt] <;> omega
  · have hl : c'.frames.toList.length = min cp.2 c.invocations := by
      rw [Array.length_toList, hs']
    by_cases hlt : c.invocations < cp.1
    · have hlt' : c.invocations < cp.2 := Nat.lt_of_lt_of_le hlt hle
      simp only [Trace.countCall, hlt, hlt', decide_true, if_true, Option.elim_some, Array.toList_push]
      rw [take_of_length_le (by omega)] at hf
      rw [take_of_length_le (by rw [length_append, length_singleton]; omega)]
      exact rel_append hf (.cons (hi hlt) .nil)
    · -- the first calls were traced before
      by_cases hlt' : c.invocations < cp.2
      · have hk : (c'.frames.toList ++ [i']).take cp.1 = c'.frames.toList.take cp.1 :=
          take_append_of_le_length (by omega)
        simpa [Trace.countCall, hlt, hlt', hk] using hf
      · simpa [Trace.countCall, hlt, hlt'] using hf

/-- **A call enters the same way in both traces**, whichever of them trace it. -/
theorem Twins.enterCall (hle : cp.1 ≤ cp.2) (h : Twins cp p t t') (id : String) :
    Joint cp ((t.beginCall id).1.traced, (t'.beginCall id).1.traced) p (t.enterCall id) (t'.enterCall id) := by
  obtain ⟨g, htw, hp⟩ := h
  have ht : (t.beginCall id).1.traced = decide (t.invocations id < cp.1) := by
    rw [← htw.limits.1]
    rfl
  have ht' : (t'.beginCall id).1.traced = decide (t.invocations id < cp.2) := by
    rw [← htw.limits.2, ← htw.invocations id]
    rfl
  have hi : decide (t.invocations id < cp.1) = true → decide (t.invocations id < cp.2) = true := by
    rw [decide_eq_true_iff, decide_eq_true_iff]
    exact fun hlt => Nat.lt_of_lt_of_le hlt hle
  rw [enterCall_eq t id ht, enterCall_eq t' id ht', ht, ht']
  obtain ⟨p', hs, ha, g', htw', hp'⟩ := Twins.openFrame ⟨g, htw, hp⟩
    (decide (t.invocations id < cp.1), decide (t.invocations id < cp.2)) hi .functionCall "body"
  refine ⟨p', hs, ha.of_stack rfl rfl, g', { htw' with detached := ?_ }, hp'⟩
  have hk : ∀ (b : Bool) (u : Trace),
      (if b then u.openFrame .functionCall "body" else u).detached = u.detached := by
    intro b u
    cases b <;> rfl
  have hd := htw'.detached
  rw [hk, hk] at hd
  have hpa : t.invocations id < cp.1 → g'[t.frames.size]? = some t'.frames.size := by
    intro hlt
    have hlt' : t.invocations id < cp.2 := Nat.lt_of_lt_of_le hlt hle
    simp only [hlt, hlt'] at ha
    exact ha.sub hp'
  have hf : CallsTwin cp g' (id, {}) (id, {}) :=
    ⟨rfl, rfl, (Nat.min_zero cp.1).symm, (Nat.min_zero cp.2).symm, by simp⟩
  have hco : t.invocations id = ((t.detached.lookup id).getD {}).invocations := by
    unfold Trace.invocations
    cases t.detached.lookup id <;> rfl
  rw [updateCalls_eq, updateCalls_eq]
  refine alter_twin hd (fun _ _ hc => hc.id.symm) hf fun _ hc => ?_
  rw [hco] at hpa ⊢
  exact hc.countCall hle hpa

end

end Playback.Trace
