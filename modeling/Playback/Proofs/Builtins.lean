import Mathlib.Data.List.InsertIdx
import Playback.Function.Call
import Playback.Method.Call
import Playback.Proofs.Operations
import Playback.Value.Json

/-!
# No builtin makes functions up

One statement per builtin function and method, and for values from JSON: each gives values in which there are
only functions that its arguments or the heap had.
-/

namespace Playback

open List

variable {best v source start : Value} {vs as xs read : List Value} {heap : Heap} {rows rows' : List Elements}

variable {p : FunctionCode → Prop}

/-! ## Builtin functions -/

theorem rangeOf_holds (bounds : List Word) : Yields (rangeOf bounds) (·.Holds p) := by
  have hr (start stop step : Word) : Yields (if h : step = 0 then .error Fault.zeroStep
      else .ok (.range ⟨start, stop, step, h⟩)) (Value.Holds p) := by
    split
    · exact .error _
    · exact .ok nofun
  unfold rangeOf
  split
  exact hr _ _ _

theorem divisorOf_holds (divisor : Nat) (vs : List Value) : Yields (divisorOf divisor vs) (·.Holds p) := by
  induction vs generalizing divisor with
  | nil => exact .ok nofun
  | cons v r ih =>
    refine (Yields.any _).bind fun i _ => ?_
    split
    · exact .error _
    · exact ih _

theorem realFunction_holds (f : Double → Except Fault Double) (v : Value) : Yields (realFunction f v) (·.Holds p) :=
  (Yields.any _).bind fun _ _ => (Yields.any _).bind fun _ _ => .ok nofun

theorem logarithm_holds (x : Value) (base : Option Value) : Yields (logarithm x base) (·.Holds p) := by
  refine (Yields.any _).bind fun x _ => .ite (.error _) ?_
  cases base with
  | none => exact .ok nofun
  | some b => exact (Yields.any _).bind fun b _ => .ite (.error _) (.ite (.error _) (.ok nofun))

theorem wholeNumber_holds (f : Float → Float) (v : Value) : Yields (wholeNumber f v) (·.Holds p) := by
  unfold wholeNumber
  split
  · exact .ok nofun
  · exact (Yields.any _).bind fun _ _ => .ok nofun
  · exact .error _

theorem absolute_holds (v : Value) : Yields (absolute v) (·.Holds p) := by
  unfold absolute
  split
  · exact Arithmetic.fitting_holds _ _
  · exact .ok nofun
  · exact .error _

theorem rootOf_holds (v : Value) : Yields (rootOf v) (·.Holds p) :=
  (Yields.any _).bind fun _ _ => .ite (.error _) (.ok nofun)

theorem roundValue_holds (v : Value) (places : Option Word) : Yields (roundValue v places) (·.Holds p) := by
  unfold roundValue
  split
  case h_3 => exact (Yields.any _).bind fun _ _ => .ok nofun
  case h_5 => exact .error _
  all_goals exact .ok nofun

theorem roundedTo_holds (v : Value) (places : Option Value) : Yields (roundedTo v places) (·.Holds p) := by
  unfold roundedTo
  split
  · exact roundValue_holds v none
  · exact (Yields.any _).bind fun _ _ => roundValue_holds v _

theorem charOfCode_holds (c : Word) : Yields (charOfCode c) (·.Holds p) := by
  unfold charOfCode
  dsimp only
  split
  · exact .ok nofun
  · exact .error _

theorem codeOfChar_holds (v : Value) : Yields (codeOfChar v) (·.Holds p) := by
  unfold codeOfChar
  split
  · split
    · exact .ok nofun
    · exact .error _
  · exact .error _

namespace Heap

theorem extreme_holds (heap : Heap) (s : String) (w : Ordering) (hb : best.Holds p) (hvs : RowHolds p vs) :
    Yields (heap.extreme s w best vs) (·.Holds p) := by
  induction vs generalizing best with
  | nil => exact .ok hb
  | cons v r ih =>
    obtain ⟨hv, hr⟩ := forall_mem_cons.1 hvs
    refine (Yields.any _).bind fun o _ => ?_
    split
    · exact ih hv hr
    · exact ih hb hr

theorem Holds.extremeOf (h : heap.Holds p) (b : Builtin)
    (ha : RowHolds p as) : Yields (heap.extremeOf b as) (·.Holds p) := by
  unfold Heap.extremeOf
  extract_lets pick
  have hp : ∀ vs : List Value, RowHolds p vs → Yields (pick vs) (·.Holds p) := by
    intro vs hv
    cases vs with
    | nil => exact .error _
    | cons _ r =>
      obtain ⟨hf, hr⟩ := forall_mem_cons.1 hv
      dsimp only [pick]
      split <;> exact heap.extreme_holds _ _ hf hr
  split
  · exact .error _
  · exact (h.elementList (ha _ mem_cons_self)).bind hp
  · exact hp _ ha

theorem Holds.pair (h : heap.Holds p) (i : Nat) (hv : v.Holds p) : Yields (heap.pair i v) (PairHolds p) := by
  have he := h.elements hv
  unfold Heap.pair
  split
  · exact .error _
  · rename_i es hes
    have ht := (he es hes).toList
    split
    · split
      · rename_i a b hab
        rw [hab] at ht
        exact .ok ⟨ht a (by simp), ht b (by simp)⟩
      · exact .error _
    · exact .error _

theorem Holds.pairs (h : heap.Holds p) (hs : source.Holds p) :
    Yields (heap.pairs source) fun ps => ∀ e ∈ ps, PairHolds p e := by
  unfold Heap.pairs
  split
  · exact .ok (h.dict _).pairs
  · refine (h.elements hs).bind fun _ hes => ?_
    refine (Yields.foldUpTo (q := fun r : Nat × List (Value × Value) => ∀ e ∈ r.2, PairHolds p e)
      (fun r v hr hv => ?_) _ (forall_mem_nil _) hes).bind fun r hr => .ok ?_
    · exact (h.pair _ hv).bind fun e he => .ok (forall_mem_cons.2 ⟨he, hr⟩)
    · exact fun e he => hr e (mem_reverse.1 he)

theorem insertSorted_perm (lt : Value → Value → Except Fault Bool) (v : Value) (vs : List Value)
    (e : Option Fault) : (insertSorted lt v vs e).1.Perm (v :: vs) := by
  induction vs with
  | nil => exact .refl _
  | cons w r ih =>
    unfold insertSorted
    split
    · exact (ih.cons w).trans (.swap v w r)
    all_goals exact .refl _

theorem sortFrom_perm (lt : Value → Value → Except Fault Bool) (s vs : List Value) (e : Option Fault) :
    (sortFrom lt s vs e).1.Perm (s ++ vs) := by
  induction vs generalizing s e with
  | nil => simp [sortFrom]
  | cons v r ih => exact (ih _ _).trans (((insertSorted_perm lt v s e).append_right r).trans perm_middle.symm)

theorem sort_perm (heap : Heap) (rev : Bool) (xs : List Value) : (heap.sort rev xs).1.Perm xs :=
  sortFrom_perm _ [] xs none

theorem sort_holds (heap : Heap) (rev : Bool) (hi : RowHolds p xs) : RowHolds p (heap.sort rev xs).1 :=
  hi.of_subset (heap.sort_perm rev xs).subset

end Heap

namespace Keeps

variable {v : Value}

theorem askElements (hv : v.Holds p) : Keeps p (HeapM.ask fun h => h.elements v) (·.Holds p) :=
  ask fun _ hh => hh.elements hv

theorem askElementList (hv : v.Holds p) : Keeps p (HeapM.ask fun h => h.elementList v) (RowHolds p) :=
  ask fun _ hh => hh.elementList hv

theorem sorted (hv : v.Holds p) (rev : Bool) : Keeps p (HeapM.sorted v rev) (·.Holds p) := by
  refine (askElementList hv).bind fun _ hi => ?_
  refine (look (q := fun r => RowHolds p r.1) fun h _ => h.sort_holds rev hi).bind fun r hr => ?_
  obtain ⟨_, e⟩ := r
  cases e with
  | none => exact listOf hr
  | some e => exact .raise e

theorem enumerate (hv : v.Holds p) (start : Word) : Keeps p (HeapM.enumerate v start) (·.Holds p) := by
  refine (askElements hv).bind fun _ hes => ?_
  refine (foldUpTo (r := fun r : Nat × List Value => RowHolds p r.2) (fun r v hr hv => ?_) _ .nil
    hes).bind fun r hr => listOf hr.reverse
  dsimp only
  split
  · exact .raise _
  · refine (newTuple (.cons nofun (.cons hv .nil))).bind fun t ht => ?_
    exact .pure (.cons ht hr)

theorem nextRow?_holds (h : ∀ es ∈ rows, es.Holds p)
    (hn : HeapM.nextRow? rows = some (vs, rows')) : RowHolds p vs ∧ ∀ es ∈ rows', es.Holds p := by
  induction rows generalizing vs rows' with
  | nil =>
    cases hn
    exact ⟨.nil, forall_mem_nil _⟩
  | cons es r ih =>
    obtain ⟨hes, hr⟩ := forall_mem_cons.1 h
    obtain ⟨⟨v, _⟩, hv, hm⟩ := Option.bind_eq_some_iff.1 hn
    obtain ⟨⟨_, _⟩, hws, hm⟩ := Option.bind_eq_some_iff.1 hm
    cases hm
    obtain ⟨hv, hes'⟩ := hes.next? hv
    obtain ⟨hws, hr'⟩ := ih hr hws
    exact ⟨.cons hv hws, forall_mem_cons.2 ⟨hes', hr'⟩⟩

theorem zipRows (n : Nat) (hr : RowHolds p read)
    (hro : ∀ es ∈ rows, es.Holds p) : Keeps p (HeapM.zipRows n read rows) (RowHolds p) := by
  induction n generalizing read rows with
  | zero => exact .pure hr.reverse
  | succ n ih =>
    unfold HeapM.zipRows
    split
    · exact .pure hr.reverse
    · rename_i vs rows' hn
      obtain ⟨hvs, hro'⟩ := nextRow?_holds hro hn
      exact (newTuple hvs).bind fun t ht => ih (.cons ht hr) hro'

theorem elementsOfAll (hvs : RowHolds p vs) : Keeps p (HeapM.elementsOfAll vs) fun rows => ∀ es ∈ rows, es.Holds p := by
  induction vs with
  | nil => exact .pure (forall_mem_nil _)
  | cons v r ih =>
    obtain ⟨hv, hr⟩ := forall_mem_cons.1 hvs
    refine (askElements hv).bind fun es hes => (ih hr).bind fun rows hro => ?_
    exact .pure (forall_mem_cons.2 ⟨hes, hro⟩)

theorem zip (ha : RowHolds p as) : Keeps p (HeapM.zip as) (·.Holds p) := by
  refine (elementsOfAll ha).bind fun _ hr => ?_
  exact (zipRows _ .nil hr).bind fun _ => listOf

theorem sum (hv : v.Holds p) (hs : start.Holds p) : Keeps p (HeapM.sum v start) (·.Holds p) := by
  unfold HeapM.sum
  split
  · exact .raise _
  · refine (askElements hv).bind fun _ hes => ?_
    exact foldUpTo (fun _ _ => binary .add) _ hs hes

theorem reversed (hv : v.Holds p) : Keeps p (HeapM.reversed v) (·.Holds p) := by
  unfold HeapM.reversed
  split
  · exact .raise _
  · exact (askElementList hv).bind fun _ hvs => listOf hvs.reverse

theorem scalar {α : Type} {x : HeapM α} (hx : Keeps p x fun _ => True) {f : α → Value}
    (hf : ∀ a, (f a).Holds p) : Keeps p (x >>= fun a => Pure.pure (f a)) (·.Holds p) :=
  hx.bind fun a _ => .pure (hf a)

theorem positional (b : Builtin) (ha : RowHolds p as) : Keeps p (HeapM.positional b as) (·.Holds p) := by
  have hf : ∀ v r, as = v :: r → v.Holds p ∧ RowHolds p r := by
    rintro v r rfl
    exact forall_mem_cons.1 ha
  unfold HeapM.positional
  split
  · exact scalar (ask fun _ _ => Yields.any _) nofun
  · exact lift ((Yields.any _).bind fun _ _ => rangeOf_holds _)
  · exact .pure nofun
  · exact peek fun _ => .pure nofun
  · exact peek fun _ => .pure nofun
  · exact .pure nofun
  · exact check fun _ => .pure nofun
  · exact .pure nofun
  · exact check fun _ => .pure nofun
  · exact .pure nofun
  · exact peek fun _ => .pure nofun
  · exact listOf .nil
  · exact (askElementList (hf _ _ rfl).1).bind fun _ => listOf
  · exact newTuple .nil
  · exact (askElementList (hf _ _ rfl).1).bind fun _ => newTuple
  · exact newSet .nil
  · exact (askElementList (hf _ _ rfl).1).bind fun _ => setOf
  · exact lift (absolute_holds _)
  · exact ask fun h hh => hh.extremeOf _ ha
  · exact ask fun h hh => hh.extremeOf _ ha
  · exact sum (hf _ _ rfl).1 ((hf _ _ rfl).2.head?_getD nofun)
  · exact reversed (hf _ _ rfl).1
  · exact zip ha
  · exact lift (roundedTo_holds _ _)
  · exact lift ((Yields.any _).bind fun _ _ => charOfCode_holds _)
  · exact lift (codeOfChar_holds _)
  · exact .pure nofun
  · exact lift (realFunction_holds _ _)
  · exact lift (wholeNumber_holds _ _)
  · exact lift (wholeNumber_holds _ _)
  · exact lift (realFunction_holds _ _)
  · exact lift ((Yields.any _).bind fun _ _ => (Yields.any _).bind fun _ _ =>
      Arithmetic.realPower_holds _ _)
  · exact lift (divisorOf_holds _ _)
  · exact lift (logarithm_holds _ _)
  · exact lift (realFunction_holds _ _)
  · exact lift (realFunction_holds _ _)
  · exact lift (rootOf_holds _)
  · exact .pure nofun

theorem pairHolds_keywords {ks : Keywords} (h : ∀ k ∈ ks, k.2.Holds p) (hp : ∀ k, pair k = (.str k.1, k.2)) :
    ∀ e ∈ ks.map pair, PairHolds p e := by
  intro e he
  obtain ⟨k, hk, rfl⟩ := mem_map.1 he
  rw [hp]
  exact ⟨nofun, h k hk⟩

theorem callBuiltin (b : Builtin) (ha : RowHolds p as) {ks : Keywords}
    (hk : ∀ k ∈ ks, k.2.Holds p) : Keeps p (HeapM.callBuiltin b as ks) (·.Holds p) := by
  have hhe : (as.head?.getD .none).Holds p := ha.head?_getD Value.holds_none
  unfold HeapM.callBuiltin
  split
  · exact check fun _ => check fun _ => peek fun rev => sorted hhe rev
  · refine check fun _ => check fun _ => ?_
    split
    · exact check (enumerate hhe)
    · exact enumerate hhe 0
  · refine check fun _ => ?_
    cases as with
    | nil => exact dictOf (pairHolds_keywords hk fun _ => rfl)
    | cons _ r =>
      have hs := (forall_mem_cons.1 ha).1
      refine (ask fun h hh => hh.pairs hs).bind fun pairs hp => ?_
      exact dictOf (forall_mem_append.2 ⟨hp, pairHolds_keywords hk fun _ => rfl⟩)
  · exact check fun _ => check fun _ => positional b ha

/-! ## Methods -/

theorem missing (key : Value) : Keeps p (HeapM.missing key) (·.Holds p) :=
  peek fun _ => .raise _

variable {es : List (Value × Value)}

theorem pairTuples (hes : ∀ e ∈ es, PairHolds p e) : Keeps p (HeapM.pairTuples es) (RowHolds p) := by
  induction es with
  | nil => exact .pure .nil
  | cons e r ih =>
    obtain ⟨he, hr⟩ := forall_mem_cons.1 hes
    refine (newTuple (.cons he.1 (.cons he.2 .nil))).bind fun t ht => ?_
    exact (ih hr).bind fun _ hts => .pure (.cons ht hts)

theorem putPairs (ref : Nat) (hes : ∀ e ∈ es, PairHolds p e) : Keeps p (HeapM.putPairs ref es) fun _ => True := by
  induction es with
  | nil => exact .pure trivial
  | cons e r ih =>
    obtain ⟨he, hr⟩ := forall_mem_cons.1 hes
    refine (lift (.self _)).bind fun k hk => (updateDict ref (Keyed.edit_put _ _) fun d hd => hd.put ⟨fun _ => hk, he⟩).bind fun _ _ => ?_
    exact ih hr

theorem dictMethod (ref : Nat) (m : DictMethod) (ha : RowHolds p as) :
    Keeps p (HeapM.dictMethod ref m as) (·.Holds p) := by
  have hen : Keeps p (HeapM.look fun h => (h.dict ref).entries) fun es => ∀ e ∈ es, PairHolds p e :=
    look fun h hh => (hh.dict ref).pairs
  have hg : ∀ k, Keeps p (HeapM.look fun h => (h.dict ref).get? k) fun o => ∀ e ∈ o, PairHolds p e :=
    fun k => look fun h hh e he => ((hh.dict ref).get? he).2
  have hm : ∀ f : Value × Value → Value, (∀ e, PairHolds p e → (f e).Holds p) →
      Keeps p (HeapM.look fun h => (h.dict ref).entries.map f) (RowHolds p) := by
    refine fun f hf => look fun h hh v hv => ?_
    obtain ⟨e, he, rfl⟩ := mem_map.1 hv
    exact hf e ((hh.dict ref).pairs e he)
  unfold HeapM.dictMethod
  split
  · exact (hm (·.1) fun e he => he.1).bind fun vs hvs => listOf hvs
  · exact (hm (·.2) fun e he => he.2).bind fun vs hvs => listOf hvs
  · exact hen.bind fun es hes => (pairTuples hes).bind fun _ hts => listOf hts
  · obtain ⟨hk, hde⟩ := forall_mem_cons.1 ha
    refine check fun k => (hg k).bind fun o ho => ?_
    split
    · rename_i v
      exact .pure (ho _ rfl).2
    · exact .pure (RowHolds.head?_getD hde nofun)
  · obtain ⟨hk, hde⟩ := forall_mem_cons.1 ha
    refine check fun k => (hg k).bind fun o ho => ?_
    split
    · refine (updateDict ref (Keyed.edit_remove k) fun d hd => hd.sublist (Keyed.remove_sublist k)).bind fun _ _ => ?_
      exact .pure (ho _ rfl).2
    · split
      · exact .pure (forall_mem_cons.1 hde).1
      · exact missing _
  · refine (ask fun h hh => hh.pairs (ha _ mem_cons_self)).bind fun es hes => ?_
    exact (putPairs ref hes).bind fun _ _ => .pure nofun
  · exact (look fun h hh => hh.dict ref).bind fun d hd => newDict hd
  · exact (updateDict ref (fun _ => .clear) fun _ _ => .nil).bind fun _ _ => .pure nofun
  · exact .pure nofun

theorem setMethod (ref : Nat) (m : SetMethod) (ha : RowHolds p as) :
    Keeps p (HeapM.setMethod ref m as) (·.Holds p) := by
  have hr : ∀ k, Keeps p (HeapM.updateSet ref (·.remove k)) fun _ => True :=
    fun k => updateSet ref (Keyed.edit_remove k) fun d hd => hd.sublist (Keyed.remove_sublist k)
  unfold HeapM.setMethod
  split
  · refine (lift (.self _)).bind fun k hk => ?_
    exact (updateSet ref (Keyed.edit_putNew _ _) fun d hd => hd.putNew ⟨fun _ => hk, ha _ mem_cons_self⟩).bind fun _ _ => .pure nofun
  · refine check fun k => peek fun _ => ?_
    split
    · exact (hr k).bind fun _ _ => .pure nofun
    · exact missing _
  · exact check fun k => (hr k).bind fun _ _ => .pure nofun
  · exact (look fun h hh => hh.set ref).bind fun d hd => newSet hd
  · exact (updateSet ref (fun _ => .clear) fun _ _ => .nil).bind fun _ _ => .pure nofun
  · exact .pure nofun

theorem popFrom (ref : Nat) (j : Option Value) : Keeps p (HeapM.popFrom ref j) (·.Holds p) := by
  have hp : ∀ i size, Keeps p (do
      let at_ ← HeapM.lift (inRange .popRange (position? i size))
      let v ← HeapM.look fun h => (h.list ref)[at_]?.getD .none
      HeapM.updateList ref (·.eraseIdxIfInBounds at_)
      return v) (·.Holds p) := by
    intro i size
    refine check fun at_ => (look fun h hh => ?_).bind fun v (hv : v.Holds p) => ?_
    · cases hie : (h.list ref)[at_]? with
      | none => exact nofun
      | some v => exact hh.list ref v (Array.mem_toList_iff.2 (Array.mem_of_getElem? hie))
    · refine (updateList ref fun _ hi => hi.of_subset fun w hw => ?_).bind fun _ _ => .pure hv
      rw [Array.toList_eraseIdxIfInBounds] at hw
      exact mem_of_mem_eraseIdx hw
  refine peek fun size => ?_
  split
  · exact .raise _
  · split
    · exact check fun i => hp i size
    · exact hp _ size

theorem insertInto (ref : Nat) (j : Value) (hv : v.Holds p) : Keeps p (HeapM.insertInto ref j v) fun _ => True := by
  refine check fun i => updateList ref fun _ hi w hw => ?_
  unfold Array.insertIdxIfInBounds at hw
  split at hw
  · rw [Array.toList_insertIdx] at hw
    rcases eq_or_mem_of_mem_insertIdx hw with rfl | hw
    · exact hv
    · exact hi w hw
  · exact hi w hw

theorem sortList (ref : Nat) (rev : Bool) : Keeps p (HeapM.sortList ref rev) fun _ => True := by
  refine (look fun h hh => hh.list ref).bind fun _ hi => ?_
  refine (updateList ref fun _ _ => .nil).bind fun _ _ => ?_
  refine (look (q := fun r => RowHolds p r.1) fun h _ => h.sort_holds rev hi).bind fun r hr => ?_
  refine (updateList ref fun _ _ => hr).bind fun _ _ => ?_
  split
  · exact .raise _
  · exact .pure trivial

theorem listMethod (ref : Nat) (m : ListMethod) (rev : Bool)
    (ha : RowHolds p as) : Keeps p (HeapM.listMethod ref m rev as) (·.Holds p) := by
  have hd : ∀ {x : HeapM Unit}, Keeps p x (fun _ => True) → Keeps p (x >>= fun _ => Pure.pure Value.none) (·.Holds p) :=
    fun hx => scalar hx fun _ => nofun
  unfold HeapM.listMethod
  split
  · refine hd (updateList ref fun xs hi => ?_)
    rw [Array.toList_push]
    exact hi.append (.cons (ha _ mem_cons_self) .nil)
  · exact popFrom ref _
  · exact hd (insertInto ref _ (ha _ (mem_cons_of_mem _ mem_cons_self)))
  · refine peek fun found => ?_
    split
    · refine hd (updateList ref fun xs hi => hi.of_subset fun w hw => ?_)
      rw [Array.toList_eraseIdxIfInBounds] at hw
      exact mem_of_mem_eraseIdx hw
    · exact .raise _
  · refine peek fun found => ?_
    split
    · exact .pure nofun
    · exact peek fun _ => .raise _
  · exact peek fun _ => .pure nofun
  · refine (askElementList (ha _ mem_cons_self)).bind fun _ hvs => hd ?_
    refine updateList ref fun xs hi => ?_
    rw [Array.toList_append]
    exact hi.append hvs
  · refine hd (updateList ref fun xs hi => ?_)
    rw [Array.toList_reverse]
    exact hi.reverse
  · exact hd (sortList ref rev)
  · exact (lookList ref).bind fun _ => newList
  · exact hd (updateList ref fun _ _ => .nil)
  · exact .pure nofun

theorem textMethod (s : String) (m : TextMethod) (x : String) (as : List Value) :
    Keeps p (HeapM.textMethod s m x as) (·.Holds p) := by
  unfold HeapM.textMethod
  split
  case h_6 => exact check fun parts => listOf (.map_str _ parts)
  case h_7 => exact scalar (ask fun _ _ => Yields.any _) fun _ => nofun
  case h_8 => exact check fun _ => check fun _ => .pure nofun
  case h_11 =>
    refine check fun _ => ?_
    split <;> exact .pure nofun
  all_goals first
    | exact .pure nofun
    | exact check fun _ => .pure nofun

theorem callMethod (m : BoundMethod) (ha : RowHolds p as) (ks : Keywords) :
    Keeps p (HeapM.callMethod m as ks) (·.Holds p) := by
  refine check fun _ => check fun _ => ?_
  split
  · exact peek fun rev => listMethod _ _ rev ha
  · exact textMethod _ _ _ as
  · exact dictMethod _ _ ha
  · exact setMethod _ _ ha

end Keeps

/-! ## Values from JSON -/

mutual

theorem Value.ofJson_keeps (j : Json) : Keeps p (Value.ofJson j) (·.Holds p) := by
  match j with
  | .null | .bool _ | .number (.float _) | .string _ =>
    exact .pure nofun
  | .number (.int i) =>
    rw [Value.ofJson]
    split <;> exact .pure nofun
  | .array xs =>
    exact (valuesOfJson_keeps xs).bind fun _ => .listOf
  | .object ms =>
    exact (entriesOfJson_keeps .nil ms).bind fun _ => .newDict

theorem valuesOfJson_keeps (xs : List Json) : Keeps p (valuesOfJson xs) (RowHolds p) := by
  match xs with
  | [] => exact .pure .nil
  | item :: r =>
    refine (Value.ofJson_keeps item).bind fun v hv => ?_
    exact (valuesOfJson_keeps r).bind fun _ hvs => .pure (.cons hv hvs)

theorem entriesOfJson_keeps {start : Dict} (hs : DictHolds p start) (ms : List (String × Json)) :
    Keeps p (entriesOfJson start ms) (DictHolds p) := by
  match ms with
  | [] => exact .pure hs
  | (key, value) :: r =>
    refine (Value.ofJson_keeps value).bind fun v hv => ?_
    exact entriesOfJson_keeps (hs.put ⟨fun _ => by rw [Value.key], Value.holds_str _, hv⟩) r

end

end Playback
