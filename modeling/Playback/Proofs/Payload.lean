import Playback.Code.Lower
import Playback.Proofs.Interchange
import Playback.Proofs.Steady
import Playback.Run
import Playback.Source.Statement

/-!
# Payloads

A payload whose numbers are words comes back as it went in (`payload_comes_back`): every array and object of it gets a
cell of its own, which stays as it is while the rest of the payload is taken in. A cell is newer than what it holds. So
none is inside itself, and the way down is no longer than there are cells: nothing is cut off.
-/

namespace Playback

open List

/-- The numbers of a value are words, and the keys of its objects are in order, each there once. -/
inductive Json.Plain : Json → Prop
  | null : Plain .null
  | bool (b : Bool) : Plain (.bool b)
  | int (hlow : Word.least ≤ i) (hhigh : i ≤ Word.greatest) : Plain (.number (.int i))
  | string (s : String) : Plain (.string s)
  | array (hitems : ∀ item ∈ items, Plain item) : Plain (.array items)
  | object (hkeys : (members.map (·.1)).Pairwise (· < ·)) (hmembers : ∀ m ∈ members, Plain m.2) :
      Plain (.object members)

/-- A cell that is not there yet. -/
def Container.Later (h : Heap) : Container → Prop
  | .list i => h.lists.size ≤ i
  | .dict i => h.dicts.size ≤ i

namespace Heap

/-- A heap with more lists and dicts in it. -/
structure Extends (h h' : Heap) : Prop where
  lists : h.lists.toList <+: h'.lists.toList
  dicts : h.dicts.toList <+: h'.dicts.toList

/-- Whatever comes after it, a value gives this JSON inside cells that are newer. -/
def Gives (h : Heap) (v : Value) (j : Json) : Prop :=
  ∀ h' o n, h.Extends h' → (∀ c ∈ o, c.Later h) → h.containers < n → h'.jsonTo n o v = j

variable {h h' h'' : Heap} {v : Value} {j : Json} {ms : List (String × Json)}

theorem Extends.refl (h : Heap) : h.Extends h :=
  ⟨prefix_rfl, prefix_rfl⟩

theorem Extends.trans (he : h.Extends h') (he' : h'.Extends h'') : h.Extends h'' :=
  ⟨he.lists.trans he'.lists, he.dicts.trans he'.dicts⟩

theorem Extends.containers_le (he : h.Extends h') : h.containers ≤ h'.containers :=
  Nat.add_le_add he.lists.length_le he.dicts.length_le

theorem Extends.later (he : h.Extends h') {c : Container} (hc : c.Later h') : c.Later h := by
  cases c with
  | list => exact Nat.le_trans he.lists.length_le hc
  | dict => exact Nat.le_trans he.dicts.length_le hc

theorem Gives.extend (hv : h.Gives v j) (he : h.Extends h') : h'.Gives v j := fun g o n hg ho hn =>
  hv g o n (he.trans hg) (fun c hc => he.later (ho c hc)) (Nat.lt_of_le_of_lt he.containers_le hn)

theorem gives_scalar (hj : ∀ g deep o, jsonStep g deep o v = j) : h.Gives v j := by
  intro g o n _ _ hn
  cases n with
  | zero => cases hn
  | succ n => exact hj g _ o

/-! ## New cells -/

/-- What a new cell holds was there before it. -/
theorem Gives.below {c : Container} (hv : h.Gives v j) (hc : c.Later h) (hnew : h.Extends h')
    (hlt : h.containers < h'.containers) (hg : h'.Extends g) (ho : ∀ c ∈ o, c.Later h') (hn : h'.containers < n + 1) :
    g.jsonTo n (c :: o) v = j :=
  hv g _ n (hnew.trans hg) (forall_mem_cons.2 ⟨hc, fun c hc => hnew.later (ho c hc)⟩) (by omega)

theorem getElem?_of_prefix {α : Type} {a b : Array α} {x : α} (hp : (a.push x).toList <+: b.toList) :
    b[a.size]? = some x := by
  obtain ⟨more, hb⟩ := hp
  rw [← Array.getElem?_toList, ← hb]
  simp

/-- **A new list gives the array of what its items give.** -/
theorem gives_list {vs : List Value} {xs : List Json} (hvs : Forall₂ h.Gives vs xs) :
    ∃ v h', HeapM.listOf vs h = .ok v h' ∧ h.Extends h' ∧ h'.Gives v (.array xs) := by
  have hnew : h.Extends { h with lists := h.lists.push vs.toArray } := ⟨by simp, prefix_rfl⟩
  refine ⟨_, _, rfl, hnew, fun g o n hg ho hn => ?_⟩
  have hclosed : .list h.lists.size ∉ o := fun hc => by simpa [Container.Later, Nat.not_succ_le_self] using ho _ hc
  have hlist : g.list h.lists.size = vs.toArray := by rw [list, getElem?_of_prefix hg.lists, Option.getD_some]
  obtain ⟨n, rfl⟩ := Nat.exists_eq_add_one_of_ne_zero (Nat.ne_zero_of_lt hn)
  have hitems : Forall₂ (g.jsonTo n (.list h.lists.size :: o) · = ·) vs xs := hvs.imp fun v x hv =>
    hv.below (Nat.le_refl h.lists.size) hnew (by simp [containers]) hg ho hn
  rw [← forall₂_map_left_iff, forall₂_eq_eq_eq] at hitems
  rw [jsonTo, jsonStep, if_neg (by simpa using hclosed), hlist, hitems]

/-- The entry of a dict for a member of an object. -/
def entered (e : String × Value) : Key × Value × Value :=
  (.str e.1, .str e.1, e.2)

/-- **A new dict gives the object of what its entries give**, if their names are in order. -/
theorem gives_dict {es : List (String × Value)} (hes : Forall₂ (fun e m => e.1 = m.1 ∧ h.Gives e.2 m.2) es ms)
    (hkeys : (ms.map (·.1)).Pairwise (· < ·)) :
    ∃ v h', HeapM.newDict (es.map entered) h = .ok v h' ∧ h.Extends h' ∧ h'.Gives v (.object ms) := by
  have hnew : h.Extends { h with dicts := h.dicts.push (es.map entered) } := ⟨prefix_rfl, by simp⟩
  refine ⟨_, _, rfl, hnew, fun g o n hg ho hn => ?_⟩
  have hclosed : .dict h.dicts.size ∉ o := fun hc => by simpa [Container.Later, Nat.not_succ_le_self] using ho _ hc
  have hdict : (g.dict h.dicts.size).entries = es.map fun e => (.str e.1, e.2) := by
    rw [dict, getElem?_of_prefix hg.dicts, Option.getD_some, Keyed.entries, map_map]
    rfl
  obtain ⟨n, rfl⟩ := Nat.exists_eq_add_one_of_ne_zero (Nat.ne_zero_of_lt hn)
  have hmembers : Forall₂ (fun e m => (e.1, g.jsonTo n (.dict h.dicts.size :: o) e.2) = m) es ms :=
    hes.imp fun e m hm => Prod.ext hm.1
      (hm.2.below (Nat.le_refl h.dicts.size) hnew (by simp [containers]) hg ho hn)
  rw [← forall₂_map_left_iff, forall₂_eq_eq_eq] at hmembers
  rw [jsonTo, jsonStep, if_neg (by simpa using hclosed), hdict, map_map, ← Json.ofMembers_eq hkeys, ← hmembers]
  rfl

/-! ## Taking a payload in -/

/-- A JSON value is taken in, whatever the heap is. -/
def Enters (j : Json) : Prop :=
  ∀ h : Heap, ∃ v h', Value.ofJson j h = .ok v h' ∧ h.Extends h' ∧ h'.Gives v j

theorem enters_items {xs : List Json} (hxs : ∀ x ∈ xs, Enters x) (h : Heap) :
    ∃ vs h', valuesOfJson xs h = .ok vs h' ∧ h.Extends h' ∧ Forall₂ h'.Gives vs xs := by
  induction xs generalizing h with
  | nil => exact ⟨[], h, rfl, .refl h, .nil⟩
  | cons x xs ih =>
    obtain ⟨hx, hxs⟩ := forall_mem_cons.1 hxs
    obtain ⟨v, h1, hv, he, hg⟩ := hx h
    obtain ⟨vs, h2, hvs, he', hgs⟩ := ih hxs h1
    refine ⟨v :: vs, h2, ?_, he.trans he', .cons (hg.extend he') hgs⟩
    rw [valuesOfJson, Eval.ok_bind hv, Eval.ok_bind hvs]
    rfl

theorem put_of_not_mem {α : Type} {m : Keyed α} {k : Key} {a : α} (hk : k ∉ m.map (·.1)) :
    m.put k a = m ++ [(k, a)] := by
  induction m with
  | nil => rfl
  | cons e m ih =>
    rw [map_cons, mem_cons, not_or] at hk
    rw [Keyed.put, if_neg (by simpa using Ne.symm hk.1), ih hk.2]
    rfl

/-- A key that is not there yet goes to the end, so members in order are entries in order. -/
theorem enters_members (hms : ∀ m ∈ ms, Enters m.2) (start : Dict)
    (hkeys : (start.map (·.1) ++ ms.map (Key.str ·.1)).Nodup) (h : Heap) :
    ∃ es h', entriesOfJson start ms h = .ok (start ++ es.map entered) h'
      ∧ h.Extends h' ∧ Forall₂ (fun e m => e.1 = m.1 ∧ h'.Gives e.2 m.2) es ms := by
  induction ms generalizing start h with
  | nil => exact ⟨[], h, by rw [map_nil, append_nil]; rfl, .refl h, .nil⟩
  | cons m ms ih =>
    obtain ⟨hm, hms⟩ := forall_mem_cons.1 hms
    obtain ⟨v, h1, hv, he, hg⟩ := hm h
    have hnew : Key.str m.1 ∉ start.map (·.1) := fun hin => (nodup_append.1 hkeys).2.2 _ hin _ (.head _) rfl
    have hput := put_of_not_mem (a := (Value.str m.1, v)) hnew
    obtain ⟨es, h2, hes, he', hgs⟩ := ih hms (start.put (.str m.1) (.str m.1, v)) (by simpa [hput] using hkeys) h1
    refine ⟨(m.1, v) :: es, h2, ?_, he.trans he', .cons ⟨rfl, hg.extend he'⟩ hgs⟩
    rw [entriesOfJson, Eval.ok_bind hv, hes, hput, append_assoc]
    rfl

theorem enters (hj : j.Plain) : Enters j := by
  induction hj with
  | null | bool | string => exact fun h => ⟨_, h, rfl, .refl h, gives_scalar fun _ _ _ => rfl⟩
  | @int i hlow hhigh =>
    have hi : (Int64.ofInt i).toInt = i := by
      unfold Word.least at hlow
      unfold Word.greatest at hhigh
      exact Int64.toInt_ofInt_of_le (by omega) (by omega)
    refine fun h => ⟨.int (Int64.ofInt i), h, ?_, .refl h, gives_scalar fun _ _ _ => by rw [jsonStep, hi]⟩
    rw [Value.ofJson, Word.ofInt?, if_pos ⟨hlow, hhigh⟩]
    rfl
  | array _ ih =>
    intro h
    obtain ⟨vs, h1, hvs, he, hgs⟩ := enters_items ih h
    obtain ⟨v, h2, hv, he', hg⟩ := gives_list hgs
    exact ⟨v, h2, (Eval.ok_bind hvs).trans hv, he.trans he', hg⟩
  | @object ms hkeys _ ih =>
    intro h
    have hnodup : (([] : Dict).map (·.1) ++ ms.map (Key.str ·.1)).Nodup := by
      have hk : (ms.map (·.1)).Nodup := hkeys.imp String.ne_of_lt
      simpa [Function.comp_def] using hk.map fun _ _ => Key.str.inj
    obtain ⟨es, h1, hes, he, hgs⟩ := enters_members ih [] hnodup h
    obtain ⟨v, h2, hv, he', hg⟩ := gives_dict hgs hkeys
    exact ⟨v, h2, (Eval.ok_bind hes).trans hv, he.trans he', hg⟩

end Heap

/-! ## Answering with the payload -/

/-- A script that answers with the payload. -/
def echo : Script :=
  [.expression [.call "set_response" [.positional [.name "request"]]]]

def echoCode : Program where
  body := [.at 1 (.eval (.log (some .expression) (.call (.name "set_response") [.name "request"] [])))]

/-- **A payload comes back as it went in**, and the program that answers a request with it publishes it. -/
theorem payload_comes_back (j : Json) (hj : j.Plain) :
    (∀ h : Heap, ∃ v h', Value.ofJson j h = .ok v h' ∧ h'.toJson v = j)
      ∧ Script.ofSource "set_response(request)" = .ok echo ∧ echo.compile = .ok echoCode
      ∧ ∀ rounds limits input, ∃ execution, echoCode.run rounds limits (.request j) input = some execution
        ∧ execution.response = some j := by
  have hback (h : Heap) : ∃ v h', Value.ofJson j h = .ok v h' ∧ h'.toJson v = j := by
    obtain ⟨v, h', hv, -, hg⟩ := Heap.enters hj h
    exact ⟨v, h', hv, hg h' [] _ (.refl h') (forall_mem_nil _) (Nat.lt_add_of_pos_right (by decide))⟩
  refine ⟨hback, rfl, rfl, fun rounds limits input => ?_⟩
  obtain ⟨v, h', hv, hj⟩ := hback Heap.empty
  have hready : Machine.ready limits (.request j) input
      = { Machine.start limits input with heap := h', globals := [("request", v)], answers := true } := by
    unfold Machine.ready Machine.start
    dsimp only
    rw [hv]
  refine ⟨_, by rw [Program.run, hready]; rfl, congrArg some hj⟩

/-- A payload with an object in an array, next to the least and the greatest word. -/
theorem payload_comes_back_nested :
    let j : Json := .array [.object [("a", .null), ("b", .array [])], .number (.int Word.least),
      .number (.int Word.greatest)]
    ∃ execution, echoCode.run 0 {} (.request j) [] = some execution ∧ execution.response = some j := by
  intro j
  have hobject : Json.Plain (.object [("a", .null), ("b", .array [])]) := by
    refine .object (by decide) (forall_mem_cons.2 ⟨.null, forall_mem_cons.2 ⟨?_, forall_mem_nil _⟩⟩)
    exact .array (forall_mem_nil _)
  have hnumbers : ∀ x ∈ [Word.least, Word.greatest], Json.Plain (.number (.int x)) := by
    refine forall_mem_cons.2 ⟨.int (Int.le_refl _) (by decide), forall_mem_cons.2 ⟨?_, forall_mem_nil _⟩⟩
    exact .int (by decide) (Int.le_refl _)
  have hj : j.Plain := .array (forall_mem_cons.2 ⟨hobject, forall_mem_cons.2 ⟨hnumbers _ (.head _),
    forall_mem_cons.2 ⟨hnumbers _ (.tail _ (.head _)), forall_mem_nil _⟩⟩⟩)
  exact (payload_comes_back j hj).2.2.2 0 {} []

end Playback
