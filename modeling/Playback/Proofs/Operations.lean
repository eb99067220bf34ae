import Playback.Operation.Access
import Playback.Operation.Binary
import Playback.Proofs.Values

/-!
# No operator makes functions up

One statement per operator, and for items, slices and attributes: each gives values in which there are only
functions that its operands or the heap had.
-/

namespace Playback

open List

variable {p : FunctionCode → Prop}

/-! ## Numbers -/

namespace Arithmetic

theorem fitting_holds (operation : String) (w : Option Word) : Yields (fitting operation w) (·.Holds p) := by
  cases w with
  | some => exact .ok nofun
  | none => exact .error _

theorem divide_holds (a b : Double) : Yields (divide a b) (·.Holds p) :=
  .ite (.error _) (.ok nofun)

theorem floorDivide_holds (a b : Double) : Yields (floorDivide a b) (·.Holds p) :=
  .ite (.error _) (.ok nofun)

theorem floatModulo_holds (a b : Double) : Yields (floatModulo a b) (·.Holds p) :=
  .ite (.error _) (.ite (.ok nofun) (.ok nofun))

theorem realPower_holds (a b : Double) : Yields (realPower a b) (·.Holds p) :=
  .ite (.error _) (.ok nofun)

theorem floatPower_holds (a b : Double) : Yields (floatPower a b) (·.Holds p) :=
  .ite (.error _) (realPower_holds a b)

theorem intFloorDivide_holds (a b : Word) : Yields (intFloorDivide a b) (·.Holds p) :=
  .ite (.error _) (fitting_holds _ _)

theorem intModulo_holds (a b : Word) : Yields (intModulo a b) (·.Holds p) :=
  .ite (.error _) (.ok nofun)

theorem intPower_holds (a b : Word) : Yields (intPower a b) (·.Holds p) :=
  .ite (floatPower_holds _ _) (.ite (fitting_holds _ _) (.ite (.ok nofun) (.ite (.ok nofun) (.error _))))

theorem shiftLeft_holds (a b : Word) : Yields (shiftLeft a b) (·.Holds p) :=
  .ite (.error _) (.ite (.ok nofun) (.ite (.error _) (.ite (.error _) (.ok nofun))))

theorem shiftRight_holds (a b : Word) : Yields (shiftRight a b) (·.Holds p) :=
  .ite (.error _) (.ok nofun)

theorem onInts_holds (op : BinaryOp) (a b : Word) : Yields (onInts op a b) (·.Holds p) := by
  cases op with
  | add | sub | mul => exact fitting_holds _ _
  | div => exact divide_holds _ _
  | floorDiv => exact intFloorDivide_holds a b
  | mod => exact intModulo_holds a b
  | pow => exact intPower_holds a b
  | shiftLeft => exact shiftLeft_holds a b
  | shiftRight => exact shiftRight_holds a b
  | bitOr | bitXor | bitAnd => exact .ok nofun
  | matMul => exact .error _

theorem onDoubles?_holds (op : BinaryOp) (a b : Double) : ∀ r ∈ onDoubles? op a b, Yields r (·.Holds p) := by
  cases op with
  | add | sub | mul => exact fun _ h => Option.some.inj h ▸ .ok nofun
  | div => exact fun _ h => Option.some.inj h ▸ divide_holds a b
  | floorDiv => exact fun _ h => Option.some.inj h ▸ floorDivide_holds a b
  | mod => exact fun _ h => Option.some.inj h ▸ floatModulo_holds a b
  | pow => exact fun _ h => Option.some.inj h ▸ floatPower_holds a b
  | _ => nofun

theorem onValues?_holds (op : BinaryOp) (a b : Value) : ∀ r ∈ onValues? op a b, Yields r (·.Holds p) := by
  intro r hr
  unfold onValues? at hr
  split at hr
  case h_1 => cases hr
  case h_5 =>
    split at hr
    · cases hr
      exact onInts_holds _ _ _
    · exact onDoubles?_holds _ _ _ r hr
    · cases hr
  all_goals
    cases hr
    exact .ok nofun

theorem unary_holds (truthy : Value → Bool) (op : UnaryOp) (v : Value) : Yields (unary truthy op v) (·.Holds p) := by
  unfold unary
  split
  case h_4 => exact fitting_holds _ _
  case h_7 => exact .error _
  all_goals exact .ok nofun

end Arithmetic

theorem RowHolds.repeated (h : RowHolds p vs) (n : Nat) : RowHolds p (HeapM.repeated n vs) := by
  intro v hv
  obtain ⟨_, hr, hm⟩ := mem_flatten.1 hv
  rw [(mem_replicate.1 hr).2] at hm
  exact h v hm

/-! ## Items, slices and attributes -/

theorem inRange_yields {α : Type} {q : α → Prop} (e : Fault) {o : Option α} (h : ∀ a ∈ o, q a) :
    Yields (inRange e o) q := by
  cases o with
  | none => exact .error _
  | some a => exact .ok (h a rfl)

theorem Heap.Holds.item {heap : Heap} (h : heap.Holds p) (hc : container.Holds p)
    (index : Value) : Yields (heap.item container index) (·.Holds p) := by
  cases container with
  | list ref =>
    refine (Yields.any _).bind fun i _ => inRange_yields _ fun v hv => ?_
    obtain ⟨j, -, hj⟩ := Option.bind_eq_some_iff.1 hv
    exact h.list ref v (Array.mem_toList_iff.2 (Array.mem_of_getElem? hj))
  | tuple _ _ =>
    refine (Yields.any _).bind fun i _ => inRange_yields _ fun v hv => ?_
    obtain ⟨j, -, hj⟩ := Option.bind_eq_some_iff.1 hv
    exact holds_tuple.1 hc v (mem_of_getElem? hj)
  | str s =>
    unfold Heap.item
    dsimp only
    split
    · exact .error _
    · refine inRange_yields _ fun v hv => ?_
      obtain ⟨j, -, hj⟩ := Option.bind_eq_some_iff.1 hv
      obtain ⟨c, -, rfl⟩ := Option.map_eq_some_iff.1 hj
      exact nofun
  | range r =>
    refine (Yields.any _).bind fun i _ => inRange_yields _ fun v hv => ?_
    obtain ⟨j, -, rfl⟩ := Option.map_eq_some_iff.1 hv
    exact nofun
  | dict ref =>
    refine (Yields.any _).bind fun k _ => ?_
    split
    · rename_i v hg
      exact .ok ((h.dict ref).get? hg).2.2
    · exact .error _
  | _ => exact .error _

theorem Library.attribute?_holds (l : Library) (x : String) : ∀ v ∈ l.attribute? x, v.Holds p := by
  intro v hv
  unfold Library.attribute? at hv
  split at hv <;> split at hv
  case h_5 =>
    obtain ⟨b, -, rfl⟩ := Option.map_eq_some_iff.1 hv
    exact nofun
  all_goals
    cases hv
    try exact nofun

theorem Value.attribute_holds (v : Value) (x : String) : Yields (v.attribute x) (·.Holds p) := by
  unfold Value.attribute
  split
  · split
    · rename_i l found hf
      exact .ok (Library.attribute?_holds _ _ found hf)
    · exact .error _
  · split
    · exact .ok nofun
    · exact .error _

theorem Value.holds_ofConstant (c : Constant) : (Value.ofConstant c).Holds p := by
  cases c <;> exact nofun

namespace Keeps

theorem lookList (ref : Nat) : Keeps p (HeapM.look fun h => h.list ref) (RowHolds p ·.toList) :=
  look fun _ hh => hh.list ref

theorem slice (hc : container.Holds p) (lower upper : Option Word) :
    Keeps p (HeapM.slice container lower upper) (·.Holds p) := by
  cases container with
  | list ref =>
    refine (lookList ref).bind fun xs hi => newList ?_
    refine hi.of_subset fun v hv => ?_
    rw [Array.toList_extract] at hv
    exact mem_of_mem_drop (mem_of_mem_take hv)
  | tuple _ xs =>
    refine newTuple ((holds_tuple.1 hc).of_subset fun v hv => ?_)
    exact mem_of_mem_take (mem_of_mem_drop hv)
  | str | range => exact .pure nofun
  | _ => exact .raise _

theorem setItem (container : Value) (hi : j.Holds p) (hv : v.Holds p) :
    Keeps p (HeapM.setItem container j v) fun _ => True := by
  cases container with
  | list ref =>
    refine check fun i => peek fun _ => check fun _ => updateList ref fun _ hie => ?_
    intro w hw
    rw [Array.toList_setIfInBounds] at hw
    rcases mem_or_eq_of_mem_set hw with hw | rfl
    · exact hie w hw
    · exact hv
  | dict ref =>
    refine (lift (.self _)).bind fun k hk => updateDict ref (Keyed.edit_put _ _) fun d hd => hd.put ?_
    exact ⟨fun _ => hk, hi, hv⟩
  | _ => exact .raise _

/-! ## Operators -/

theorem add (ha : a.Holds p) (hb : b.Holds p) : Keeps p (HeapM.add a b) (·.Holds p) := by
  unfold HeapM.add
  split
  · exact .pure nofun
  · rename_i r s
    refine (look fun h hh => ?_).bind fun xs (hi : RowHolds p xs.toList) => newList hi
    rw [Array.toList_append]
    exact (hh.list r).append (hh.list s)
  · exact newTuple ((holds_tuple.1 ha).append (holds_tuple.1 hb))
  all_goals exact .raise _

theorem repetitions (times : Word) (size unit : Nat) : Keeps p (HeapM.repetitions times size unit) fun _ => True := by
  unfold HeapM.repetitions
  dsimp only
  split
  · exact .raise _
  split
  · exact .throw _
  split <;> exact .pure trivial

theorem repeatSequence {sequence : Value} (hs : sequence.Holds p) (c : Value) :
    Keeps p (HeapM.repeatSequence sequence c) (·.Holds p) := by
  unfold HeapM.repeatSequence
  split
  · exact .raise _
  · split
    · exact (repetitions _ _ _).bind fun _ _ => .pure nofun
    · rename_i ref
      refine (look fun h hh => hh.list ref).bind fun _ hi => ?_
      exact (repetitions _ _ _).bind fun n _ => listOf (hi.repeated n)
    · exact (repetitions _ _ _).bind fun n _ => newTuple ((holds_tuple.1 hs).repeated n)
    · exact .raise _

theorem multiply (ha : a.Holds p) (hb : b.Holds p) : Keeps p (HeapM.multiply a b) (·.Holds p) := by
  unfold HeapM.multiply
  split
  · exact repeatSequence ha b
  split
  · exact repeatSequence hb a
  · exact .raise _

section

variable {α : Type} {s : Prop} {q : Key → α → Prop} {a b : Keyed α}

theorem valid_fold (hf : ∀ m e, m.Valid s q → q e.1 e.2 → (f m e).Valid s q)
    (ha : a.Valid s q) (hb : b.Valid s q) : (b.foldl f a).Valid s q :=
  foldlRecOn b f ha fun m hm e he => hf m e hm (hb.all e he)

end

theorem lookMembers (hf : ∀ h, h.Holds p → RowHolds p (f h)) : Keeps p (HeapM.look f >>= HeapM.setOf) (·.Holds p) :=
  (look hf).bind fun _ => setOf

theorem binary (op : BinaryOp) (ha : a.Holds p) (hb : b.Holds p) : Keeps p (HeapM.binary op a b) (·.Holds p) := by
  have hchosen {h : Heap} (hh : h.Holds p) (ref : Nat) (t : Key × Value → Bool) :
      RowHolds p (Keyed.entries ((h.set ref).filter t)) :=
    SetHolds.members ((hh.set ref).sublist filter_sublist)
  unfold HeapM.binary
  split
  · rename_i r hr
    exact lift (Arithmetic.onValues?_holds op a b r hr)
  · split
    · exact add ha hb
    · exact multiply ha hb
    iterate 2
      · exact lookMembers fun h hh => hchosen hh _ _
    · exact lookMembers fun h hh => (hh.set _).members.append (hh.set _).members
    · exact lookMembers fun h hh => (hchosen hh _ _).append (hchosen hh _ _)
    · refine (look fun h hh => ?_).bind fun d (hd : DictHolds p d) => newDict hd
      exact valid_fold (fun _ _ hm => hm.put) (hh.dict _) (hh.dict _)
    · exact .raise _

end Keeps

end Playback
