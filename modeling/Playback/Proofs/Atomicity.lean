import Playback.Proofs.Equivalence
import Playback.Proofs.Steady

/-!
# Methods that fail

A method of a list, a dict or a set that fails has changed nothing, and no more has an assignment to an item: whatever
can fail comes before the first change (`Atomic`). Two methods go on after one. An update puts its pairs in one by one,
and a sort puts the items back when a comparison fails, in the order they are in by then.
-/

namespace Playback

open List

variable {α β : Type} {f : α → HeapM β} {r : Heap → Halt → Heap → Prop} {h h' : Heap} {e : Halt}

/-! ## Rows of keys -/

namespace HeapM

variable {p : Value × Value} {ps : List (Value × Value)} {key : Key} {start : Dict} {i : Nat}

theorem putPairs_cons (hk : p.1.key = .ok key) :
    putPairs i (p :: ps) h = putPairs i ps { h with dicts := h.dicts.modify i (·.put key p) } := by
  rw [putPairs, hk]
  rfl

end HeapM

/-! ## Methods -/

/-- There is no failure, and what comes is as said. -/
def Adds (x : HeapM α) (q : α → Prop) : Prop :=
  ∀ h, ∃ a h', x h = .ok a h' ∧ q a

theorem Adds.pure (ha : q a) : Adds (Pure.pure a) q :=
  fun _ => ⟨a, _, rfl, ha⟩

theorem Adds.bind {r : β → Prop} (hx : Adds x q) (hf : ∀ a, q a → Adds (f a) r) : Adds (x >>= f) r := by
  intro h
  obtain ⟨a, h1, hr, ha⟩ := hx h
  obtain ⟨b, h2, hr', hb⟩ := hf a ha h1
  exact ⟨b, h2, (Eval.ok_bind hr).trans hr', hb⟩

theorem Adds.pairTuples (es : List (Value × Value)) :
    Adds (HeapM.pairTuples es) (Forall₂ (fun t e => ∃ id, t = .tuple id [e.1, e.2]) · es) := by
  induction es with
  | nil => exact .pure .nil
  | cons e es ih =>
    exact bind (fun _ => ⟨_, _, rfl, _, rfl⟩) fun t ht => bind ih fun ts hts => .pure (.cons ht hts)

/-- A failure leaves the heap as it was, or as `r` says. -/
def Atomic (x : HeapM α) (r : Heap → Halt → Heap → Prop) : Prop :=
  ∀ h e h', x h = .error e h' → h' = h ∨ r h e h'

namespace Atomic

theorem adds (hx : Adds x q) : Atomic x r := by
  intro h e h' hr
  obtain ⟨_, _, hok, -⟩ := hx h
  cases hok.symm.trans hr

theorem done (hx : ∀ h, ∃ (a : α) (h' : Heap), x h = .ok a h') : Atomic x r :=
  adds (q := fun _ => True) fun h => by simpa using hx h

theorem raise (e : Fault) : Atomic (HeapM.raise e : HeapM α) r := by
  rintro h _ _ ⟨⟩
  exact .inl rfl

theorem lift (hf : ∀ a, Atomic (f a) r) : Atomic (HeapM.lift y >>= f) r := by
  cases y with
  | ok a => exact hf a
  | error e => exact raise e

theorem look (hf : ∀ a, Atomic (f a) r) : Atomic (HeapM.look g >>= f) r :=
  fun h => hf (g h) h

theorem ask (hf : ∀ a, Atomic (f a) fun h e h' => g h = .ok a → r h e h') : Atomic (HeapM.ask g >>= f) r := by
  intro h e h' hr
  change (HeapM.lift (g h) >>= f) h = _ at hr
  cases hg : g h with
  | ok a =>
    rw [hg] at hr
    exact (hf a h e h' hr).imp_right fun hr => hr hg
  | error _ =>
    rw [hg] at hr
    exact raise _ h e h' hr

theorem missing (key : Value) : Atomic (HeapM.missing key) r :=
  look fun _ => raise _

theorem followed (hx : Atomic x r) (b : β) : Atomic (x >>= fun _ => pure b) r := by
  intro h e h' hr
  cases hx' : x h with
  | ok => cases (Eval.ok_bind hx').symm.trans hr
  | error =>
    cases (Eval.error_bind hx').symm.trans hr
    exact hx h e h' hx'

theorem setItem (container index v : Value) : Atomic (HeapM.setItem container index v) r := by
  cases container with
  | list => exact lift fun _ => look fun _ => lift fun _ => done fun _ => ⟨_, _, rfl⟩
  | dict => exact lift fun _ => done fun _ => ⟨_, _, rfl⟩
  | _ => exact raise _

theorem setMethod (ref : Nat) (m : SetMethod) (as : List Value) : Atomic (HeapM.setMethod ref m as) r := by
  unfold HeapM.setMethod
  split
  case h_1 | h_3 => exact lift fun _ => done fun _ => ⟨_, _, rfl⟩
  case h_2 =>
    refine lift fun _ => look fun found => ?_
    cases found with
    | true => exact done fun _ => ⟨_, _, rfl⟩
    | false => exact missing _
  all_goals exact done fun _ => ⟨_, _, rfl⟩

end Atomic

/-! ## Updates -/

/-- An update of a dict came to a key that has no key, with the pairs before it put in. -/
def UpdateStopped (ref : Nat) (m : DictMethod) (as : List Value) (h : Heap) (e : Halt) (h' : Heap) : Prop :=
  ∃ source before k v after fault, m = .update ∧ as = [source] ∧ h.pairs source = .ok (before ++ (k, v) :: after)
    ∧ k.key = .error fault ∧ e = .raised fault ∧ HeapM.putPairs ref before h = .ok () h'

theorem putPairs_stopped (hr : HeapM.putPairs ref ps h = .error e h') :
    ∃ before k v after fault, ps = before ++ (k, v) :: after ∧ k.key = .error fault ∧ e = .raised fault
      ∧ HeapM.putPairs ref before h = .ok () h' := by
  induction ps generalizing h with
  | nil => cases hr
  | cons p ps ih =>
    cases hk : p.1.key with
    | error fault =>
      simp only [HeapM.putPairs, hk] at hr
      cases hr
      exact ⟨[], p.1, p.2, ps, fault, rfl, hk, rfl, rfl⟩
    | ok key =>
      obtain ⟨before, k', v', after, fault, rfl, hk', he, hok⟩ := ih (HeapM.putPairs_cons hk ▸ hr)
      exact ⟨p :: before, k', v', after, fault, rfl, hk', he, (HeapM.putPairs_cons hk).trans hok⟩

theorem Atomic.dictMethod (ref : Nat) (m : DictMethod) (as : List Value) :
    Atomic (HeapM.dictMethod ref m as) (UpdateStopped ref m as) := by
  unfold HeapM.dictMethod
  split
  case h_3 => exact look fun _ => adds (q := fun _ => True) ((Adds.pairTuples _).bind fun _ _ _ => ⟨_, _, rfl, trivial⟩)
  case h_4 =>
    refine lift fun _ => look fun found => ?_
    cases found <;> exact done fun _ => ⟨_, _, rfl⟩
  case h_5 =>
    refine lift fun _ => look fun found => ?_
    cases found with
    | some _ => exact done fun _ => ⟨_, _, rfl⟩
    | none =>
      dsimp only
      split
      · exact done fun _ => ⟨_, _, rfl⟩
      · exact missing _
  case h_6 source =>
    refine ask fun ps => followed (fun h e h' hr => ?_) _
    obtain ⟨before, k, v, after, fault, rfl, hk, he, hok⟩ := putPairs_stopped hr
    exact .inr fun hp => ⟨source, before, k, v, after, fault, rfl, rfl, hp, hk, he, hok⟩
  all_goals exact done fun _ => ⟨_, _, rfl⟩

/-! ## Sorts -/

section

theorem insertSorted_fault
    (hf : (Heap.insertSorted lt v vs o).2 = some fault) : o = some fault ∨ ∃ w ∈ vs, lt v w = .error fault := by
  induction vs with
  | nil => exact .inl hf
  | cons w vs ih =>
    unfold Heap.insertSorted at hf
    split at hf
    · exact (ih hf).imp_right fun ⟨u, hu, hlt⟩ => ⟨u, .tail _ hu, hlt⟩
    · exact .inl hf
    · next hlt =>
      cases o with
      | none =>
        cases hf
        exact .inr ⟨w, .head _, hlt⟩
      | some _ => exact .inl hf

theorem sortFrom_fault (hf : (Heap.sortFrom lt s vs o).2 = some fault) :
    o = some fault ∨ ∃ a ∈ s ++ vs, ∃ b ∈ s ++ vs, lt a b = .error fault := by
  induction vs generalizing s o with
  | nil => exact .inl hf
  | cons v vs ih =>
    have hperm := ((Heap.insertSorted_perm lt v s o).append_right vs).trans perm_middle.symm
    rcases ih hf with hf | ⟨a, ha, b, hb, hlt⟩
    · refine (insertSorted_fault hf).imp_right fun ⟨w, hw, hlt⟩ => ⟨v, ?_, w, mem_append_left _ hw, hlt⟩
      exact mem_append_right _ (.head _)
    · exact .inr ⟨a, hperm.mem_iff.1 ha, b, hperm.mem_iff.1 hb, hlt⟩

theorem precedes_error {reverse : Bool} (hlt : h.precedes reverse a b = .error fault) :
    h.order "<" a b = .error fault ∨ h.order "<" b a = .error fault := by
  cases reverse with
  | false =>
    cases ho : h.order "<" a b <;> simp [Heap.precedes, ho, bind, Except.bind, pure, Except.pure] at hlt
    exact .inl (by rw [hlt])
  | true =>
    cases ho : h.order "<" b a <;> simp [Heap.precedes, ho, bind, Except.bind, pure, Except.pure] at hlt
    exact .inr (by rw [hlt])

end

/-- A sort of a list came to two items that cannot be compared, while the list was empty. It has its items still, in
some order, and everything else is as it was. -/
def SortStopped (ref : Nat) (m : ListMethod) (h : Heap) (e : Halt) (h' : Heap) : Prop :=
  m = .sort ∧ (h'.list ref).toList.Perm (h.list ref).toList ∧ (∀ i, i ≠ ref → h'.list i = h.list i)
    ∧ h'.dicts = h.dicts ∧ h'.sets = h.sets
    ∧ ∃ a ∈ (h.list ref).toList, ∃ b ∈ (h.list ref).toList, ∃ fault, e = .raised fault
      ∧ { h with lists := h.lists.modify ref fun _ => #[] }.order "<" a b = .error fault

theorem HeapM.sortList_eq (ref : Nat) (reverse : Bool) (h h0 : Heap)
    (he : h0 = { h with lists := h.lists.modify ref fun _ => #[] }) :
    HeapM.sortList ref reverse h = (match h0.sort reverse (h.list ref).toList with
      | (sorted, fault) => (do
        HeapM.updateList ref fun _ => sorted.toArray
        match fault with
        | some fault => HeapM.raise fault
        | none => return : HeapM Unit)) h0 :=
  he ▸ rfl

theorem Atomic.sortList (ref : Nat) (reverse : Bool) :
    Atomic (HeapM.sortList ref reverse) (SortStopped ref .sort) := by
  intro h e h' hr
  let h0 : Heap := { h with lists := h.lists.modify ref fun _ => #[] }
  let items := (h.list ref).toList
  rw [HeapM.sortList_eq ref reverse h h0 rfl] at hr
  have hperm := h0.sort_perm reverse items
  have hfault {e : Fault} (he : (h0.sort reverse items).2 = some e) := sortFrom_fault he
  cases hs : h0.sort reverse items with
  | mk sorted o =>
    rw [hs] at hperm hfault
    rw [hs] at hr
    cases o with
    | none => cases hr
    | some fault =>
      cases hr
      obtain ⟨a, ha, b, hb, hlt⟩ := (hfault rfl).resolve_left (by rintro ⟨⟩)
      refine .inr ⟨rfl, ?_, fun i hi => ?_, rfl, rfl, ?_⟩
      · by_cases hin : ref < h.lists.size
        · simpa [Heap.list, h0, Array.getElem_modify, hin, items] using hperm
        · simp [Heap.list, h0, hin]
      · simp [Heap.list, h0, Array.getElem?_modify, hi.symm]
      · rcases precedes_error hlt with ho | ho
        · exact ⟨a, ha, b, hb, fault, rfl, ho⟩
        · exact ⟨b, hb, a, ha, fault, rfl, ho⟩

theorem Atomic.listMethod (ref : Nat) (m : ListMethod) (reverse : Bool) (as : List Value) :
    Atomic (HeapM.listMethod ref m reverse as) (SortStopped ref m) := by
  unfold HeapM.listMethod
  split
  case h_2 =>
    refine look fun size => ?_
    split
    · exact raise _
    · split
      · exact lift fun _ => lift fun _ => look fun _ => done fun _ => ⟨_, _, rfl⟩
      · exact lift fun _ => look fun _ => done fun _ => ⟨_, _, rfl⟩
  case h_3 =>
    refine followed (lift fun _ => ?_) _
    exact done fun _ => ⟨_, _, rfl⟩
  case h_4 =>
    refine look fun found => ?_
    cases found with
    | some _ => exact done fun _ => ⟨_, _, rfl⟩
    | none => exact raise _
  case h_5 =>
    refine look fun found => ?_
    cases found with
    | some _ => exact done fun _ => ⟨_, _, rfl⟩
    | none => exact look fun _ => raise _
  case h_7 => exact ask fun _ => done fun _ => ⟨_, _, rfl⟩
  case h_9 => exact followed (sortList ref reverse) _
  all_goals exact done fun _ => ⟨_, _, rfl⟩

namespace Atomic

variable (ref : Nat) (as : List Value) (ks : Keywords)

theorem list (m : ListMethod) : Atomic (HeapM.callMethod (.list ref m) as ks) (SortStopped ref m) :=
  lift fun _ => lift fun _ => look fun reverse => listMethod ref m reverse as

theorem dict (m : DictMethod) : Atomic (HeapM.callMethod (.dict ref m) as ks) (UpdateStopped ref m as) :=
  lift fun _ => lift fun _ => dictMethod ref m as

theorem set (m : SetMethod) : Atomic (HeapM.callMethod (.set ref m) as ks) fun _ _ _ => False :=
  lift fun _ => lift fun _ => setMethod ref m as

end Atomic

/-- **A failure changes nothing.** If a method of a list, a dict or a set or an assignment to an item fails, the heap is
as it was, unless an update came to a key that has no key or a sort to items that cannot be compared. -/
theorem failed_methods_change_nothing (h : Heap) (e : Halt) (h' : Heap) (ref : Nat) (as : List Value) (ks : Keywords) :
    (∀ m, HeapM.callMethod (.list ref m) as ks h = .error e h' → h' = h ∨ SortStopped ref m h e h')
      ∧ (∀ m, HeapM.callMethod (.dict ref m) as ks h = .error e h' → h' = h ∨ UpdateStopped ref m as h e h')
      ∧ (∀ m, HeapM.callMethod (.set ref m) as ks h = .error e h' → h' = h)
      ∧ ∀ container index v, HeapM.setItem container index v h = .error e h' → h' = h := by
  refine ⟨fun m => ?_, fun m => ?_, fun m hr => ?_, fun c i v hr => ?_⟩
  · exact Atomic.list ref as ks m h e h'
  · exact Atomic.dict ref as ks m h e h'
  · exact (Atomic.set ref as ks m h e h' hr).resolve_right id
  · exact (Atomic.setItem (r := fun _ _ _ => False) c i v h e h' hr).resolve_right id

end Playback
