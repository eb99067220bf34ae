import Playback.Operation.Binary
import Playback.Proofs.Ranges

/-!
# Indices and slices

An index stands for the same position wherever it is used: when an item is read, set, or taken out. Slices are runs of
items, and an item is put in where the slices before an index and from it on meet (`Heap.indices_agree`).
-/

namespace Playback

open List HeapM

/-- A sequence and its items; those of a text are its characters. -/
inductive Heap.Row (h : Heap) : Value → List Value → Prop
  | list (hr : ref < h.lists.size) (hi : (h.list ref).toList = items) : Row h (.list ref) items
  | tuple (id : Nat) (items : List Value) : Row h (.tuple id items) items
  | str (s : String) : Row h (.str s) (charValues s)

/-- What a computation gives is a sequence of the type of another with the given items, and the sequences that there
were stay as they are. -/
def Heap.Makes (h : Heap) (c : HeapM Value) (like : Value) (items : List Value) : Prop :=
  ∃ v h', c h = .ok v h' ∧ v.typeName = like.typeName ∧ h'.Row v items ∧ ∀ w ws, h.Row w ws → h'.Row w ws

variable {h h' : Heap} {v w like : Value} {a b items : List Value} {n p ref : Nat} {i : Word}

/-! ## Positions -/

theorem position?_none (hi : ¬ (-n ≤ i.toInt ∧ i.toInt < n)) : position? i n = none := by
  unfold position? fromStart
  exact if_neg (by split <;> omega)

theorem exists_position (hi : -n ≤ i.toInt ∧ i.toInt < n) : ∃ p < n, i.toInt = p ∨ i.toInt = p - n := by
  refine ⟨(fromStart i.toInt n).toNat, ?_⟩
  unfold fromStart
  split <;> omega

/-- A position is in a slice if it is not before the lower bound, and before the upper one. -/
theorem sliceBounds_iff (lower upper : Option Word) (hp : p < n) :
    ((sliceBounds lower upper n).1 ≤ p ∧ p < (sliceBounds lower upper n).2)
      ↔ (∀ l ∈ lower, fromStart l.toInt n ≤ p) ∧ ∀ u ∈ upper, p < fromStart u.toInt n := by
  cases lower <;> cases upper <;> simp [sliceBounds, clampBound] <;> omega

theorem insertIdx_eq_append (items : List α) (hk : k ≤ items.length) (y : α) :
    items.insertIdx k y = items.take k ++ [y] ++ items.drop k := by
  induction items generalizing k with
  | nil =>
    obtain rfl := Nat.le_zero.1 hk
    rfl
  | cons x items ih =>
    cases k with
    | zero => rfl
    | succ k => simp [ih (Nat.le_of_succ_le_succ hk)]

/-! ## Sequences -/

namespace Heap

theorem Row.mono (hv : h.Row v items)
    (hl : ∀ ref < h.lists.size, ref < h'.lists.size ∧ h'.list ref = h.list ref) : h'.Row v items := by
  cases hv with
  | list hr hi => exact .list (hl _ hr).1 ((hl _ hr).2 ▸ hi)
  | tuple => exact .tuple _ _
  | str => exact .str _

theorem row_modify (hr : ref < h.lists.size) (f : Array Value → Array Value) (hf : (f (h.list ref)).toList = items) :
    Heap.Row { h with lists := h.lists.modify ref f } (.list ref) items :=
  .list (by simpa) (by simpa [list, Array.getElem_modify, hr] using hf)

theorem makes_newList (items : Array Value) : h.Makes (newList items) (.list ref) items.toList := by
  refine ⟨_, _, rfl, rfl, .list (by simp) (by simp [list]), fun w ws hw => hw.mono fun ref hr => ?_⟩
  simpa [list, Array.getElem?_push, hr.ne] using Nat.lt_succ_of_lt hr

theorem makes_newTuple (items : List Value) : h.Makes (newTuple items) (.tuple k b) items :=
  ⟨_, _, rfl, rfl, .tuple _ _, fun _ _ hw => hw.mono fun _ hr => ⟨hr, rfl⟩⟩

theorem makes_str (s : String) : h.Makes (pure (.str s)) (.str t) (charValues s) :=
  ⟨_, _, rfl, rfl, .str s, fun _ _ hw => hw⟩

theorem Row.makes_add (hv : h.Row v a) (hw : h.Row w b) (hk : w.typeName = v.typeName) :
    h.Makes (add v w) v (a ++ b) := by
  cases hv <;> cases hw <;> try simp [Value.typeName] at hk
  case list.list _ _ hi _ _ hj => exact hi ▸ hj ▸ Array.toList_append ▸ makes_newList _
  case tuple.tuple => exact makes_newTuple _
  case str.str s t =>
    have hst : charValues (s ++ t) = charValues s ++ charValues t := by simp [charValues]
    exact hst ▸ makes_str _

theorem Makes.add (hx : h.Makes x like a) (hy : ∀ h' : Heap, (∀ w ws, h.Row w ws → h'.Row w ws) → h'.Makes y like b) :
    h.Makes (do add (← x) (← y)) like (a ++ b) := by
  obtain ⟨v, h1, hx, hv, hra, hk⟩ := hx
  obtain ⟨w, h2, hy, hw, hrb, hk'⟩ := hy h1 hk
  obtain ⟨u, h3, hu, hs, hr, hk''⟩ := (hk' v a hra).makes_add hrb (hw.trans hv.symm)
  refine ⟨u, h3, ?_, hs.trans hv, hr, fun _ _ h => hk'' _ _ (hk' _ _ (hk _ _ h))⟩
  simp [bind, EStateM.bind, hx, hy, hu]

namespace Row

theorem item_eq (hv : h.Row v items) (i : Word) :
    ∃ fault, h.item v (.int i) = inRange fault ((position? i items.length).bind (items[·]?)) := by
  cases hv with
  | list _ hi => exact ⟨_, by simp [← hi]; rfl⟩
  | tuple => exact ⟨_, rfl⟩
  | str s => exact ⟨_, by simp [charValues]; rfl⟩

theorem makes_slice (hv : h.Row v items) (lower upper : Option Word) :
    h.Makes (slice v lower upper) v (between (sliceBounds lower upper items.length) items) := by
  cases hv with
  | @list ref _ _ hi =>
    subst hi
    have hs (b : Nat × Nat) : between b (h.list ref).toList = ((h.list ref).extract b.1 b.2).toList := by
      rw [between, drop_take, Array.toList_extract, extract_eq_take_drop]
    exact hs _ ▸ makes_newList _
  | tuple => exact makes_newTuple _
  | str s =>
    have hs : charValues (String.ofList (between (sliceBounds lower upper s.toList.length) s.toList))
        = between (sliceBounds lower upper (charValues s).length) (charValues s) := by
      simp [charValues, between]
    exact hs ▸ makes_str _

theorem makes_until (hv : h.Row v items) (i : Word) :
    h.Makes (slice v none (some i)) v (items.take (clampBound i items.length)) := by
  simpa [between, sliceBounds] using hv.makes_slice none (some i)

theorem makes_from (hv : h.Row v items) (i : Word) :
    h.Makes (slice v (some i) none) v (items.drop (clampBound i items.length)) := by
  have hs := hv.makes_slice (some i) none
  rwa [between, sliceBounds, take_of_length_le (le_max_right _ _)] at hs

end Row

/-! ## Lists -/

theorem setItem_list (h : Heap) (ref : Nat) (i : Word) (y : Value) : setItem (.list ref) (.int i) y h
    = (lift (inRange .assignmentRange (position? i (h.list ref).size)) >>= fun p =>
      updateList ref (·.setIfInBounds p y)) h :=
  rfl

theorem pop_list (h : Heap) (ref : Nat) (i : Word) : listMethod ref .pop false [.int i] h
    = ite ((h.list ref).size = 0) (raise .popEmpty)
      (lift (inRange .popRange (position? i (h.list ref).size)) >>= fun p => do
        let v ← look fun h => (h.list ref)[p]?.getD .none
        updateList ref (·.eraseIdxIfInBounds p)
        return v) h :=
  rfl

theorem insert_list (hv : h.Row (.list ref) items) (i : Word) (y : Value) :
    ∃ h' items', listMethod ref .insert false [.int i, y] h = .ok .none h' ∧ h'.Row (.list ref) items'
      ∧ h.Makes (do add (← add (← slice (.list ref) none (some i)) (← listOf [y])) (← slice (.list ref) (some i) none))
        (.list ref) items' := by
  have hm := ((hv.makes_until i).add fun _ _ => makes_newList #[y]).add fun _ hk => (hk _ _ hv).makes_from i
  cases hv with
  | list hr hi =>
    subst hi
    have hk := sliceBounds_le (some i) none (h.list ref).size
    have hk : clampBound i (h.list ref).size ≤ (h.list ref).size := hk.1.trans hk.2
    rw [bind_assoc] at hm
    refine ⟨_, _, rfl, row_modify hr _ ?_, hm⟩
    rw [Array.insertIdxIfInBounds, dif_pos hk, Array.toList_insertIdx, insertIdx_eq_append _ hk]
    rfl

/-- **Indices and slices agree.** For a sequence of `n` items, an index from `-n` up to `n` stands for one position, where
the item is read, set and taken out; with any other, each of these fails and changes nothing. What is put in at an index
stands between the slices before it and from it on, and these make up the sequence. A slice is the run of the items at
the positions not before its lower bound and before its upper one. No position counted from the end is beyond 64
bits. -/
theorem indices_agree (h : Heap) (v : Value) (items : List Value) (i : Word) (hv : h.Row v items) :
    (-items.length ≤ i.toInt ∧ i.toInt < items.length → ∃ (p : Nat) (x : Value), items[p]? = some x
        ∧ (i.toInt = p ∨ i.toInt = p - items.length) ∧ h.item v (.int i) = .ok x
        ∧ ∀ ref, v = .list ref → (∀ y, ∃ h', setItem v (.int i) y h = .ok () h' ∧ h'.Row v (items.set p y))
          ∧ ∃ h', listMethod ref .pop false [.int i] h = .ok x h' ∧ h'.Row v (items.eraseIdx p))
      ∧ (¬ (-items.length ≤ i.toInt ∧ i.toInt < items.length) → (∃ fault, h.item v (.int i) = .error fault)
        ∧ ∀ ref, v = .list ref → (∀ y, ∃ fault, setItem v (.int i) y h = .error (.raised fault) h)
          ∧ ∃ fault, listMethod ref .pop false [.int i] h = .error (.raised fault) h)
      ∧ (∀ ref y, v = .list ref → ∃ h' items', listMethod ref .insert false [.int i, y] h = .ok .none h'
        ∧ h'.Row v items'
        ∧ h.Makes (do add (← add (← slice v none (some i)) (← listOf [y])) (← slice v (some i) none)) v items')
      ∧ h.Makes (do add (← slice v none (some i)) (← slice v (some i) none)) v items
      ∧ (∀ lower upper, ∃ first last, h.Makes (slice v lower upper) v (between (first, last) items)
        ∧ ∀ p < items.length, first ≤ p ∧ p < last ↔ (∀ l ∈ lower, fromStart l.toInt items.length ≤ p)
          ∧ ∀ u ∈ upper, p < fromStart u.toInt items.length)
      ∧ (items.length ≤ Word.greatest → Word.Fits (fromStart i.toInt items.length)) := by
  obtain ⟨fault, hitem⟩ := hv.item_eq i
  refine ⟨fun hi => ?_, fun hi => ?_, ?_, ?_, fun lower upper => ?_, fun hn => ?_⟩
  · obtain ⟨p, hp, hip⟩ := exists_position hi
    have hpos := position?_eq hp hip
    have hx : items[p]? = some items[p] := getElem?_eq_getElem hp
    refine ⟨p, _, hx, hip, ?_, ?_⟩
    · rw [hitem, hpos, Option.bind_some, hx]
      rfl
    · rintro ref rfl
      cases hv with
      | list hr hi =>
        subst hi
        rw [Array.length_toList] at hpos hp
        refine ⟨fun y => ⟨_, ?_, row_modify hr (·.setIfInBounds p y) Array.toList_setIfInBounds⟩, _, ?_,
          row_modify hr (·.eraseIdxIfInBounds p) Array.toList_eraseIdxIfInBounds⟩
        · rw [setItem_list, hpos]
          rfl
        · rw [pop_list, if_neg (Nat.ne_zero_of_lt hp), hpos]
          exact congrArg (EStateM.Result.ok · _) (by simpa using congrArg (·.getD .none) hx)
  · have hpos := position?_none hi
    refine ⟨⟨fault, by rw [hitem, hpos]; rfl⟩, ?_⟩
    rintro ref rfl
    cases hv with
    | list _ hi =>
      subst hi
      rw [Array.length_toList] at hpos
      rw [pop_list, hpos]
      refine ⟨fun y => ⟨_, by rw [setItem_list, hpos]; rfl⟩, ?_⟩
      split <;> exact ⟨_, rfl⟩
  · rintro ref y rfl
    exact insert_list hv i y
  · have hm := (hv.makes_until i).add fun _ hk => (hk _ _ hv).makes_from i
    rwa [take_append_drop] at hm
  · exact ⟨_, _, hv.makes_slice lower upper, fun p hp => sliceBounds_iff lower upper hp⟩
  · have hi := Word.fits_toInt i
    unfold Word.Fits Word.least Word.greatest fromStart at *
    split <;> omega

/-- The last of two items is found from the end. -/
theorem indices_agree_last : let h : Heap := { Heap.empty with lists := #[#[.int 1, .int 2]] }
    h.item (.list 0) (.int (-1)) = .ok (.int 2) := by
  intro h
  obtain ⟨p, x, hx, hp, hitem, -⟩ :=
    (indices_agree h (.list 0) [.int 1, .int 2] (-1) (.list (by decide) rfl)).1 (by decide)
  have hw : (-1 : Word).toInt = -1 := by decide
  obtain rfl : p = 1 := by
    simp only [hw, length_cons, length_nil] at hp
    omega
  cases hx
  exact hitem

end Heap

end Playback
