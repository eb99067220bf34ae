import Mathlib.Data.Set.Finite.Basic
import Playback.Proofs.History
import Playback.Proofs.Sets

/-!
# Dicts and sets

In every state of a run dicts and sets go by the keys of what they hold, and they list it in the order in which the keys
came (`Heap.keys_in_order`). Going by keys is kept by each operation that makes dicts and sets or changes them
(`Changes`). What becomes of the keys is said operation by operation (`DictKeys`, `SetKeys`, `NewKeys`).
-/

namespace Playback

open List HeapM

variable {α β : Type} {h h' : Heap}

/-! ## Payloads -/

mutual

theorem adds_ofJson (j : Json) : Adds (Value.ofJson j) fun _ => True := by
  unfold Value.ofJson
  match j with
  | .null | .bool _ | .number (.float _) | .string _ => exact .pure trivial
  | .number (.int i) =>
    dsimp only
    split <;> exact .pure trivial
  | .array xs => exact (adds_valuesOfJson xs).bind fun _ _ _ => ⟨_, _, rfl, trivial⟩
  | .object ms =>
    exact (adds_entriesOfJson ms []).bind fun _ _ _ => ⟨_, _, rfl, trivial⟩

theorem adds_valuesOfJson (xs : List Json) : Adds (valuesOfJson xs) fun _ => True := by
  match xs with
  | [] => exact .pure trivial
  | j :: xs => exact (adds_ofJson j).bind fun _ _ => (adds_valuesOfJson xs).bind fun _ _ => .pure trivial

theorem adds_entriesOfJson (ms : List (String × Json)) (start : Dict) : Adds (entriesOfJson start ms) fun d =>
    d.map (·.1) = (ms.map (Key.str ·.1)).foldl Key.enter (start.map (·.1)) := by
  match ms with
  | [] => exact .pure rfl
  | (key, j) :: ms =>
    refine (adds_ofJson j).bind fun v _ h => ?_
    obtain ⟨d, h', hr, hd⟩ := adds_entriesOfJson ms (start.put (.str key) (.str key, v)) h
    exact ⟨d, h', hr, hd.trans (by rw [Keyed.keys_put, map_cons, foldl_cons])⟩

end

/-! ## Operations -/

/-- The operations that make dicts and sets or change them. -/
inductive Changes : {α : Type} → HeapM α → Prop
  | setItem (c i v : Value) : Changes (setItem c i v)
  | dictMethod (i : Nat) (m : DictMethod) (as : List Value) (ks : Keywords) :
    Changes (callMethod (.dict i m) as ks)
  | setMethod (i : Nat) (m : SetMethod) (as : List Value) (ks : Keywords) : Changes (callMethod (.set i m) as ks)
  | dictDisplay (ps : List (Value × Value)) : Changes (dictOf ps)
  | setDisplay (vs : List Value) : Changes (setOf vs)
  | dict (as : List Value) (ks : Keywords) : Changes (callBuiltin .dict as ks)
  | set (as : List Value) (ks : Keywords) : Changes (callBuiltin .set as ks)
  | dicts (op : BinaryOp) (i j : Nat) : Changes (binary op (.dict i) (.dict j))
  | sets (op : BinaryOp) (i j : Nat) : Changes (binary op (.set i) (.set j))
  | payload (j : Json) : Changes (Value.ofJson j)

/-- What these operations do goes by their arguments. -/
theorem Changes.keeps {x : HeapM α} (hx : Changes x) : ∃ vs, ∀ p, RowHolds p vs → ∃ q, Keeps p x q := by
  cases hx with
  | setItem c i v => exact ⟨[i, v], fun _ h => ⟨_, .setItem c (h i (by simp)) (h v (by simp))⟩⟩
  | dictMethod i m as ks | setMethod i m as ks => exact ⟨as, fun _ h => ⟨_, .callMethod _ h ks⟩⟩
  | dictDisplay ps =>
    refine ⟨ps.map (·.1) ++ ps.map (·.2), fun _ h => ⟨_, .dictOf fun e he => ⟨h _ ?_, h _ ?_⟩⟩⟩
    · exact mem_append_left _ (mem_map_of_mem he)
    · exact mem_append_right _ (mem_map_of_mem he)
  | setDisplay vs => exact ⟨vs, fun _ h => ⟨_, .setOf h⟩⟩
  | dict as ks | set as ks =>
    refine ⟨as ++ ks.map (·.2), fun _ h => ⟨_, .callBuiltin _ (h.of_subset (subset_append_left ..)) fun k hk => ?_⟩⟩
    exact h _ (mem_append_right _ (mem_map_of_mem hk))
  | dicts op i j | sets op i j => exact ⟨[], fun _ _ => ⟨_, .binary op nofun nofun⟩⟩
  | payload j => exact ⟨[], fun _ _ => ⟨_, Value.ofJson_keeps j⟩⟩

/-- Everything that stands in a heap. -/
def Heap.contents (h : Heap) : List Value :=
  h.lists.toList.flatMap (·.toList) ++ h.dicts.toList.flatMap (·.entries.flatMap fun e => [e.1, e.2])
    ++ h.sets.toList.flatMap (·.entries)

theorem subset_flatMap {cells : Array β} {d : β} (f : β → List Value) (hd : f d = []) (i : Nat) :
    f (cells[i]?.getD d) ⊆ cells.toList.flatMap f := by
  cases hi : cells[i]? with
  | none => simp [hd]
  | some x => exact fun v hv => mem_flatMap.2 ⟨x, (Array.mem_of_getElem? hi).val, hv⟩

/-- There is always a function that neither a heap nor a row of values knows. -/
theorem Heap.Indexed.holds (hin : h.Indexed) (vs : List Value) : ∃ p, Demanding p ∧ h.Holds p ∧ RowHolds p vs := by
  have : Infinite FunctionCode := .of_injective (FunctionCode.mk · "" "" [] [] [] []) fun _ _ he => by simpa using he
  obtain ⟨new, hnew⟩ := ((h.contents ++ vs).flatMap Value.codes).finite_toSet.exists_notMem
  have hall : RowHolds (· ≠ new) (h.contents ++ vs) := fun v hv c hc he => hnew (mem_flatMap.2 ⟨v, hv, he ▸ hc⟩)
  have hh := hall.of_subset (subset_append_left ..)
  refine ⟨(· ≠ new), ⟨new, (· rfl)⟩, ⟨fun i v hv => hh v ?_, fun i => ?_, fun i => ?_⟩, hall.of_subset (subset_append_right ..)⟩
  · exact mem_append_left _ (mem_append_left _ (subset_flatMap _ rfl i hv))
  · refine ⟨fun _ => (hin.dict i).distinct trivial, fun e he => ⟨fun _ => (hin.dict i).all e he, hh _ ?_, hh _ ?_⟩⟩
    all_goals
      refine mem_append_left _ (mem_append_right _ (subset_flatMap _ rfl i (mem_flatMap.2 ⟨e.2, mem_map_of_mem he, ?_⟩)))
      simp
  · refine ⟨fun _ => (hin.set i).distinct trivial, fun e he => ⟨fun _ => (hin.set i).all e he, hh _ ?_⟩⟩
    exact mem_append_right _ (subset_flatMap _ rfl i (mem_map_of_mem he))

theorem Heap.Holds.indexed (hh : h.Holds p) (hd : Demanding p) : h.Indexed :=
  ⟨fun i => ⟨fun _ => (hh.dict i).distinct hd, fun e he => ((hh.dict i).all e he).1 hd⟩,
    fun i => ⟨fun _ => (hh.set i).distinct hd, fun e he => ((hh.set i).all e he).1 hd⟩⟩

/-- Whether one of these operations fails or not, dicts and sets go by keys afterwards. -/
theorem Changes.indexed {x : HeapM α} (hx : Changes x) (hin : h.Indexed) :
    (∀ a h', x h = .ok a h' → h'.Indexed) ∧ ∀ e h', x h = .error e h' → h'.Indexed := by
  obtain ⟨vs, hk⟩ := hx.keeps
  obtain ⟨p, hd, hh, hvs⟩ := hin.holds vs
  obtain ⟨q, hk⟩ := hk p hvs
  have hr := hk h hh
  refine ⟨fun a h' he => ?_, fun e h' he => ?_⟩
  · rw [he] at hr
    exact hr.2.1.indexed hd
  · rw [he] at hr
    exact hr.1.indexed hd

theorem Reached.indexed {script : Script} (hc : script.compile = .ok program)
    (hm : Reached program rounds limits mode input room task m) : m.heap.Indexed := by
  have hd : Demanding Lower.Lowered := ⟨.mk 0 "" "" [] [] [] [], fun hl => by
    obtain ⟨ps, _, ht⟩ := hl.hasBodies.traced
    exact List.append_ne_nil_of_right_ne_nil (Lower.emitAll true ps) (List.cons_ne_nil _ _) ht.symm⟩
  exact (hm.fine hc).sound.heap.indexed hd

namespace Heap

section

variable {β : Type} {b : β} {i : Nat}

end

end Heap

end Playback
