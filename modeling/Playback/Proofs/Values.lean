import Playback.Proofs.Ordering
import Playback.Proofs.Plain
import Playback.Value.Elements

/-!
# Functions inside values

`Holds p` says of a value, a row or a heap that every function in it has a property. Nothing that works on the heap
makes functions up, so a property of all functions that a program defines is one of all functions there are; `Keeps` is
that statement for one operation, with what it does to keys, and its rules follow the way operations are written.
-/

namespace Playback

open List

variable {p : FunctionCode → Prop} {v : Value} {vs : List Value} {α : Type}

variable {d c : FunctionCode} {xs read : List Value} {rs es : Elements}

mutual

def Value.codes : Value → List FunctionCode
  | .function code => [code]
  | .tuple _ xs => rowCodes xs
  | _ => []

def rowCodes : List Value → List FunctionCode
  | [] => []
  | v :: rest => v.codes ++ rowCodes rest

end

/-- Every function inside a value has a property. -/
def Value.Holds (p : FunctionCode → Prop) (v : Value) : Prop :=
  ∀ code ∈ v.codes, p code

def RowHolds (p : FunctionCode → Prop) (vs : List Value) : Prop :=
  ∀ v ∈ vs, v.Holds p

def PairHolds (p : FunctionCode → Prop) (pair : Value × Value) : Prop :=
  pair.1.Holds p ∧ pair.2.Holds p

/-- Every function among elements still to come has a property. -/
def Elements.Holds (p : FunctionCode → Prop) : Elements → Prop
  | .items vs => RowHolds p vs
  | .range _ => True

/-- Not every function has the property. One that all have asks nothing of a heap, of the keys in it no more than of the
functions. -/
def Demanding (p : FunctionCode → Prop) : Prop :=
  ∃ code, ¬p code

/-- Every function inside a dict has a property, no key is there twice, and each is that of the value it was put in
under. -/
def DictHolds (p : FunctionCode → Prop) : Dict → Prop :=
  Keyed.Valid (Demanding p) fun k e => (Demanding p → e.1.key = .ok k) ∧ PairHolds p e

/-- Every function inside a set has a property, no key is there twice, and each is that of its member. -/
def SetHolds (p : FunctionCode → Prop) : Members → Prop :=
  Keyed.Valid (Demanding p) fun k v => (Demanding p → v.key = .ok k) ∧ v.Holds p

/-- Every function in a heap has a property, and dicts and sets go by the keys of what they hold. -/
structure Heap.Holds (p : FunctionCode → Prop) (h : Heap) : Prop where
  list : ∀ ref, RowHolds p (h.list ref).toList
  dict : ∀ ref, DictHolds p (h.dict ref)
  set : ∀ ref, SetHolds p (h.set ref)

section

theorem Value.Holds.function (h : p d) : (Value.function d).Holds p := by
  intro c hc
  rw [mem_singleton.1 hc]
  exact h

theorem Value.Holds.code (h : (Value.function c).Holds p) : p c :=
  h c (mem_singleton.2 rfl)

theorem Value.holds_none : Value.none.Holds p :=
  forall_mem_nil _

theorem Value.holds_str (s : String) : (Value.str s).Holds p :=
  forall_mem_nil _

theorem mem_rowCodes : c ∈ rowCodes vs ↔ ∃ v ∈ vs, c ∈ v.codes := by
  induction vs with
  | nil => simp [rowCodes]
  | cons v r ih => simp [rowCodes, ih]

theorem holds_tuple {id : Nat} : (Value.tuple id xs).Holds p ↔ RowHolds p xs := by
  have hco : ∀ c, c ∈ (Value.tuple id xs).codes ↔ ∃ v ∈ xs, c ∈ v.codes :=
    fun c => mem_rowCodes
  constructor
  · intro h v hv c hc
    exact h c ((hco c).2 ⟨v, hv, hc⟩)
  · intro h c hc
    obtain ⟨v, hv, hm⟩ := (hco c).1 hc
    exact h v hv c hm

theorem RowHolds.nil : RowHolds p [] :=
  nofun

theorem RowHolds.cons (hv : v.Holds p) (hvs : RowHolds p vs) : RowHolds p (v :: vs) :=
  forall_mem_cons.2 ⟨hv, hvs⟩

theorem RowHolds.append (hv : RowHolds p vs) (hw : RowHolds p ws) : RowHolds p (vs ++ ws) :=
  forall_mem_append.2 ⟨hv, hw⟩

theorem RowHolds.reverse (h : RowHolds p vs) : RowHolds p vs.reverse :=
  fun v hv => h v (mem_reverse.1 hv)

theorem RowHolds.of_subset (h : RowHolds p ws) (hs : vs ⊆ ws) : RowHolds p vs :=
  fun v hv => h v (hs hv)

theorem RowHolds.map_str (f : α → String) (as : List α) : RowHolds p (as.map fun a => .str (f a)) := by
  intro v hv
  obtain ⟨a, -, rfl⟩ := mem_map.1 hv
  exact nofun

theorem RowHolds.head?_getD (h : RowHolds p vs) {d : Value} (hd : d.Holds p) : (vs.head?.getD d).Holds p := by
  cases vs with
  | nil => exact hd
  | cons v r => exact h v mem_cons_self

end

/-! ## Elements -/

section

variable {es : Elements}

theorem Elements.Holds.next? (h : es.Holds p) (hn : es.next? = some (v, rs)) : v.Holds p ∧ rs.Holds p := by
  cases es with
  | items vs =>
    cases vs with
    | nil => cases hn
    | cons w _ =>
      cases hn
      exact forall_mem_cons.1 h
  | range r =>
    obtain ⟨x, -, hx⟩ := Option.map_eq_some_iff.1 hn
    cases hx
    exact ⟨nofun, trivial⟩

theorem Elements.Holds.collect (h : es.Holds p) (n : Nat)
    (hr : RowHolds p read) : RowHolds p (Elements.collect n read es) := by
  induction n generalizing es read with
  | zero => exact hr.reverse
  | succ n ih =>
    unfold Elements.collect
    split
    · exact hr.reverse
    · rename_i v r hn
      obtain ⟨hv, hre⟩ := h.next? hn
      exact ih hre (.cons hv hr)

theorem Elements.Holds.toList (h : es.Holds p) : RowHolds p es.toList := by
  cases es with
  | items _ => exact h
  | range r => exact Elements.Holds.collect h _ .nil

theorem DictHolds.pairs {d : Dict} (h : DictHolds p d) : ∀ e ∈ d.entries, PairHolds p e := by
  intro e he
  obtain ⟨_, -, he⟩ := h.entries e he
  exact he

theorem SetHolds.members {s : Members} (h : SetHolds p s) : RowHolds p s.entries := by
  intro v hv
  obtain ⟨_, -, hv⟩ := h.entries v hv
  exact hv

theorem Heap.holds_empty : Heap.empty.Holds p :=
  ⟨fun _ => forall_mem_nil _, fun _ => .nil, fun _ => .nil⟩

theorem Heap.Holds.elements {heap : Heap} (h : heap.Holds p) (hv : v.Holds p) :
    Yields (heap.elements v) (·.Holds p) := by
  cases v with
  | range r => exact .ok trivial
  | str s => exact .ok (.map_str _ _)
  | list ref => exact .ok (h.list ref)
  | tuple _ _ => exact .ok (holds_tuple.1 hv)
  | dict ref =>
    refine .ok fun v hv => ?_
    obtain ⟨e, he, rfl⟩ := mem_map.1 hv
    exact ((h.dict ref).pairs e he).1
  | set ref => exact .ok (h.set ref).members
  | _ => exact .error _

theorem Heap.Holds.elementList {heap : Heap} (h : heap.Holds p) (hv : v.Holds p) :
    Yields (heap.elementList v) (RowHolds p) :=
  (h.elements hv).bind fun _ hes => .ok hes.toList

theorem Yields.foldUpTo {β ε : Type} {q : β → Prop} {f : β → Value → Except ε β}
    (hf : ∀ b v, q b → v.Holds p → Yields (f b v) q) (n : Nat) {b : β} (hb : q b)
    (hes : es.Holds p) : Yields (Elements.foldUpTo f n b es) q := by
  induction n generalizing b es with
  | zero => exact .ok hb
  | succ n ih =>
    unfold Elements.foldUpTo
    split
    · exact .ok hb
    · rename_i v r hn
      obtain ⟨hv, hr⟩ := hes.next? hn
      exact (hf b v hb hv).bind fun _ hb' => ih hb' hr

end

/-! ## What works on the heap -/

/-- An operation on the heap makes no functions up: what it gives has a property, and whether it succeeds or
fails it leaves a heap in which every function has one, changing keys one by one. -/
def Keeps {α : Type} (p : FunctionCode → Prop) (x : HeapM α) (q : α → Prop) : Prop :=
  ∀ h, h.Holds p →
    match x h with
    | .ok a h' => q a ∧ h'.Holds p ∧ h.Passes h'
    | .error _ h' => h'.Holds p ∧ h.Passes h'

namespace Keeps

variable {β : Type} {r : β → Prop}

theorem pure (ha : q a) : Keeps p (Pure.pure a) q :=
  fun _ hh => ⟨ha, hh, .refl⟩

theorem bind (hx : Keeps p x q) (hf : ∀ a, q a → Keeps p (f a) r) : Keeps p (x >>= f) r := by
  intro h hh
  have hxh := hx h hh
  change match EStateM.bind x f h with
    | .ok a h' => r a ∧ h'.Holds p ∧ h.Passes h'
    | .error _ h' => h'.Holds p ∧ h.Passes h'
  unfold EStateM.bind
  cases hr : x h with
  | ok a h1 =>
    rw [hr] at hxh
    obtain ⟨ha, hh1, hp⟩ := hxh
    have hfa := hf a ha h1 hh1
    dsimp only
    split <;> simp_all [hp.trans]
  | error e h' =>
    rw [hr] at hxh
    exact hxh

theorem raise (e : Fault) : Keeps p (HeapM.raise e) q :=
  fun _ hh => ⟨hh, .refl⟩

theorem throw (halt : Halt) : Keeps p (MonadExcept.throw halt : HeapM α) q :=
  fun _ hh => ⟨hh, .refl⟩

theorem lift {x : Except Fault α} (hx : Yields x q) : Keeps p (HeapM.lift x) q := by
  cases x with
  | ok a => exact .pure (hx a rfl)
  | error e => exact .raise e

/-- What goes on after something whose outcome is checked and then dropped. -/
theorem check {x : Except Fault α} (hf : ∀ a, Keeps p (f a) r) : Keeps p (HeapM.lift x >>= f) r :=
  (lift (Yields.any x)).bind fun a _ => hf a

theorem look (hf : ∀ h, h.Holds p → q (f h)) : Keeps p (HeapM.look f) q :=
  fun h hh => ⟨hf h hh, hh, .refl⟩

theorem peek {f : Heap → α} {g : α → HeapM β} (hg : ∀ a, Keeps p (g a) r) : Keeps p (HeapM.look f >>= g) r :=
  (look (q := fun _ => True) fun _ _ => trivial).bind fun a _ => hg a

theorem ask {f : Heap → Except Fault α} (hf : ∀ h, h.Holds p → Yields (f h) q) : Keeps p (HeapM.ask f) q :=
  fun h hh => lift (hf h hh) h hh

theorem foldUpTo (hf : ∀ b v, r b → v.Holds p → Keeps p (f b v) r)
    (n : Nat) (hb : r b) (hes : es.Holds p) : Keeps p (Elements.foldUpTo f n b es) r := by
  induction n generalizing b es with
  | zero => exact .pure hb
  | succ n ih =>
    unfold Elements.foldUpTo
    split
    · exact .pure hb
    · rename_i v rs hn
      obtain ⟨hv, hr⟩ := hes.next? hn
      exact (hf b v hb hv).bind fun _ hb' => ih hb' hr

/-! ### New cells and changed ones -/

section

variable {γ : Type} {s : γ → Prop} {cells : Array γ} {c empty : γ} {f : γ → γ}

theorem getD_push (hn : s c) (hc : ∀ i : Nat, s (cells[i]?.getD empty)) (i : Nat) :
    s ((cells.push c)[i]?.getD empty) := by
  rw [Array.getElem?_push]
  split
  · exact hn
  · exact hc i

theorem getD_modify (he : s empty) (hc : ∀ i : Nat, s (cells[i]?.getD empty)) (ref : Nat) (hf : ∀ c, s c → s (f c))
    (i : Nat) : s ((cells.modify ref f)[i]?.getD empty) := by
  have hi := hc i
  rw [Array.getElem?_modify]
  split
  · cases hce : cells[i]? with
    | none => exact he
    | some c =>
      rw [hce] at hi
      exact hf c hi
  · exact hi

end

theorem newList {xs : Array Value} (hi : RowHolds p xs.toList) : Keeps p (HeapM.newList xs) (·.Holds p) :=
  fun _ hh => ⟨nofun, ⟨getD_push (s := fun xs : Array Value => RowHolds p xs.toList) hi hh.list, hh.dict, hh.set⟩,
    .single (.same rfl rfl)⟩

variable {xs : List Value}

theorem listOf (hi : RowHolds p xs) : Keeps p (HeapM.listOf xs) (·.Holds p) :=
  newList hi

theorem newTuple (hi : RowHolds p xs) : Keeps p (HeapM.newTuple xs) (·.Holds p) :=
  fun _ hh => ⟨holds_tuple.2 hi, ⟨hh.list, hh.dict, hh.set⟩, .single (.same rfl rfl)⟩

theorem newDict {es : Dict} (he : DictHolds p es) : Keeps p (HeapM.newDict es) (·.Holds p) :=
  fun h hh => ⟨nofun, ⟨hh.list, getD_push he hh.dict, hh.set⟩, .single (.newDict h es)⟩

theorem newSet (hm : SetHolds p ms) : Keeps p (HeapM.newSet ms) (·.Holds p) :=
  fun h hh => ⟨nofun, ⟨hh.list, hh.dict, getD_push hm hh.set⟩, .single (.newSet h ms)⟩

theorem newModule (l : Library) : Keeps p (HeapM.newModule l) (·.Holds p) :=
  fun _ hh => ⟨nofun, ⟨hh.list, hh.dict, hh.set⟩, .single (.same rfl rfl)⟩

theorem updateList (ref : Nat)
    (hf : ∀ xs, RowHolds p xs.toList → RowHolds p (f xs).toList) : Keeps p (HeapM.updateList ref f) fun _ => True :=
  fun _ hh => ⟨trivial, ⟨getD_modify .nil hh.list ref hf, hh.dict, hh.set⟩, .single (.same rfl rfl)⟩

theorem updateDict (ref : Nat) (he : ∀ d, Key.Edit (d.map (·.1)) ((f d).map (·.1)))
    (hf : ∀ d, DictHolds p d → DictHolds p (f d)) : Keeps p (HeapM.updateDict ref f) fun _ => True :=
  fun h hh => ⟨trivial, ⟨hh.list, getD_modify .nil hh.dict ref hf, hh.set⟩, .single (.dict he h ref)⟩

theorem updateSet (ref : Nat) (he : ∀ s, Key.Edit (s.map (·.1)) ((f s).map (·.1)))
    (hf : ∀ s, SetHolds p s → SetHolds p (f s)) : Keeps p (HeapM.updateSet ref f) fun _ => True :=
  fun h hh => ⟨trivial, ⟨hh.list, hh.dict, getD_modify .nil hh.set ref hf⟩, .single (.set he h ref)⟩

theorem entriesOf (hs : DictHolds p start) (hp : ∀ e ∈ pairs, PairHolds p e) :
    Yields (HeapM.entriesOf start pairs) (DictHolds p) := by
  induction pairs generalizing start with
  | nil => exact .ok hs
  | cons e r ih =>
    obtain ⟨he, hr⟩ := forall_mem_cons.1 hp
    exact (Yields.self _).bind fun k hk => ih (hs.put ⟨fun _ => hk, he⟩) hr

theorem membersOf {s : Prop} {g : Key → Value → Prop} (hs : Keyed.Valid s g start)
    (hg : ∀ v ∈ vs, ∀ k, v.key = .ok k → g k v) : Yields (HeapM.membersOf start vs) (Keyed.Valid s g) := by
  induction vs generalizing start with
  | nil => exact .ok hs
  | cons v r ih =>
    obtain ⟨hv, hr⟩ := forall_mem_cons.1 hg
    exact (Yields.self _).bind fun k hk => ih (hs.putNew (hv k hk)) hr

theorem dictOf (hp : ∀ e ∈ pairs, PairHolds p e) : Keeps p (HeapM.dictOf pairs) (·.Holds p) :=
  (lift (entriesOf .nil hp)).bind fun _ => newDict

theorem setOf (hi : RowHolds p xs) : Keeps p (HeapM.setOf xs) (·.Holds p) :=
  (lift (membersOf .nil fun v hv _ hk => ⟨fun _ => hk, hi v hv⟩)).bind fun _ => newSet

end Keeps

end Playback
