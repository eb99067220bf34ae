import Mathlib.Data.List.Sort
import Mathlib.Data.String.Basic
import Mathlib.Data.Sum.Order
import Mathlib.Order.Compare
import Playback.Function.Collect
import Playback.Proofs.Equality

/-!
# Sorting

`Heap.Orders` is the order of rows as a relation: it turns round with its sides, does not tell equal values apart, is in
the same place just where it finds equality, and so is transitive. Of values any two of which can be ordered, each then
has a place (`Heap.order_place`), and sorting is sorting by places: stable, with the extremes first
(`Heap.sorts_stably`).
-/

namespace Playback

open List

variable {x : Int ⊕ₗ String} {items : List Value} {v m : Value}

namespace Heap

theorem textOrder_compares (s t : String) : (textOrder s t).Compares (Sum.inrₗ s : Int ⊕ₗ String) (Sum.inrₗ t) := by
  unfold textOrder
  split
  · next hlt => exact Sum.Lex.inr_lt_inr_iff.2 hlt
  · next hlt =>
    split
    · next heq => exact congrArg Sum.inrₗ (eq_of_beq heq)
    · next hne => exact Sum.Lex.inr_lt_inr_iff.2 ((not_lt.1 hlt).lt_of_ne fun h => hne (beq_iff_eq.2 h.symm))

theorem compare_compares (i j : Int) : (Ord.compare i j).Compares (Sum.inlₗ i : Int ⊕ₗ String) (Sum.inlₗ j) := by
  cases ho : Ord.compare i j with
  | lt => exact Sum.Lex.inl_lt_inl_iff.2 (compare_lt_iff_lt.1 ho)
  | eq => exact congrArg Sum.inlₗ (compare_eq_iff_eq.1 ho)
  | gt => exact Sum.Lex.inl_lt_inl_iff.2 (compare_gt_iff_gt.1 ho)

/-- What a number or a text is ordered by. -/
def Scalar.rank? : Scalar → Option (Int ⊕ₗ String)
  | .number i => some (Sum.inlₗ i.toInt)
  | .text s => some (Sum.inrₗ s)
  | _ => Option.none

theorem Scalar.eq_of_rank? {s t : Scalar} (hs : s.rank? = some x) (ht : t.rank? = some x) : s = t := by
  have hst := hs.trans ht.symm
  cases s with
  | number i =>
    cases t with
    | number j => simpa [rank?, Int64.toInt_inj] using hst
    | _ => simp [rank?] at hst
  | text =>
    cases t with
    | text => simpa [rank?] using hst
    | _ => simp [rank?] at hst
  | _ => cases hs

def rank? (v : Value) : Option (Int ⊕ₗ String) :=
  (scalar? v).bind Scalar.rank?

/-- The items of a list or of a tuple, and which of them it is. -/
def row? (h : Heap) : Value → Option (Bool × List Value)
  | .list i => some (true, (h.list i).toList)
  | .tuple _ items => some (false, items)
  | _ => none

inductive Orders (h : Heap) (S : Value → Prop) : List Value → List Value → Ordering → Prop
  | nil : Orders h S [] [] .eq
  | short : Orders h S [] (b :: bs) .lt
  | long : Orders h S (a :: as) [] .gt
  | same (ha : S a) (hb : S b) (hab : h.equal a b = true) (ho : Orders h S as bs o) : Orders h S (a :: as) (b :: bs) o
  | rank (ha : S a) (hb : S b) (hab : ¬ h.equal a b = true)
      {x y : Int ⊕ₗ String} (hx : rank? a = some x) (hy : rank? b = some y) (ho : o.Compares x y) :
      Orders h S (a :: as) (b :: bs) o
  | row (ha : S a) (hb : S b) (hab : ¬ h.equal a b = true) {k : Bool}
      {xs ys : List Value} (hx : h.row? a = some (k, xs)) (hy : h.row? b = some (k, ys)) (ho : Orders h S xs ys o) :
      Orders h S (a :: as) (b :: bs) o

section

variable {h : Heap} {S : Value → Prop} {a b c : Value} {o : Ordering}

theorem row?_of_scalar (hs : scalar? a = some s) : h.row? a = none := by
  cases a with
  | list | tuple => cases hs
  | _ => rfl

theorem row?_of_rank? (hx : rank? a = some x) : h.row? a = none := by
  obtain ⟨s, hs, -⟩ := Option.bind_eq_some_iff.1 hx
  exact row?_of_scalar hs

theorem held_of_row? (hx : h.row? a = some (k, xs)) : h.held a = xs := by
  cases a with
  | list | tuple =>
    cases hx
    rfl
  | _ => cases hx

variable (hS : h.Discrete S)

include hS

theorem rank?_of_equal (ha : S a) (hb : S b) (hab : h.equal a b = true) : rank? a = rank? b := by
  cases (equal_iff hS ha hb).1 hab with
  | scalar hs hs' => rw [rank?, rank?, hs, hs']
  | _ => rfl

theorem equal_of_rank? (ha : S a) (hb : S b) (hx : rank? a = some x) (hy : rank? b = some x) : h.equal a b = true := by
  refine (equal_iff hS ha hb).2 ?_
  obtain ⟨s, hs, hr⟩ := Option.bind_eq_some_iff.1 hx
  obtain ⟨t, ht, hr'⟩ := Option.bind_eq_some_iff.1 hy
  exact .scalar hs (Scalar.eq_of_rank? hr hr' ▸ ht)

theorem row?_of_equal (ha : S a) (hb : S b) (hab : h.equal a b = true) (hx : h.row? a = some (k, xs)) :
    ∃ ys, h.row? b = some (k, ys) ∧ (xs = ys ∨ Forall₂ (h.equal · · = true) xs ys) := by
  cases (equal_iff hS ha hb).1 hab with
  | scalar hs => cases (row?_of_scalar hs).symm.trans hx
  | list hf =>
    cases hx
    exact ⟨_, rfl, hf.imp_left fun hij => by rw [hij]⟩
  | tuple hf =>
    cases hx
    rw [← equal_eq] at hf
    exact ⟨_, rfl, .inr hf⟩
  | dict | set => cases hx

theorem equal_of_row? (ha : S a) (hb : S b) (hx : h.row? a = some (k, xs))
    (hy : h.row? b = some (k, ys)) (hf : Forall₂ (h.equal · · = true) xs ys) : h.equal a b = true := by
  refine (equal_iff hS ha hb).2 ?_
  cases a with
  | list =>
    cases hx
    cases b with
    | list =>
      cases hy
      exact .list (.inr hf)
    | _ => cases hy
  | tuple =>
    cases hx
    cases b with
    | tuple =>
      cases hy
      exact .tuple (equal_eq ▸ hf)
    | _ => cases hy
  | _ => cases hx

namespace Orders

theorem swap (ho : Orders h S as bs o) : Orders h S bs as o.swap := by
  induction ho with
  | nil => exact .nil
  | short => exact .long
  | long => exact .short
  | same ha hb hab _ ih => exact .same hb ha (equal_symm hS ha hb hab) ih
  | rank ha hb hab hx hy ho => exact .rank hb ha (mt (equal_symm hS hb ha) hab) hy hx ho.swap
  | row ha hb hab hx hy _ ih => exact .row hb ha (mt (equal_symm hS hb ha) hab) hy hx ih

omit hS in
theorem of_rank (ho : Orders h S (a :: as) (b :: bs) o) (hab : ¬ h.equal a b = true) (hx : rank? a = some x) :
    ∃ y, rank? b = some y ∧ o.Compares x y := by
  cases ho with
  | same _ _ hab' => exact absurd hab' hab
  | rank _ _ _ hx' hy ho =>
    cases hx.symm.trans hx'
    exact ⟨_, hy, ho⟩
  | row _ _ _ hx' => cases (row?_of_rank? hx).symm.trans hx'

omit hS in
theorem of_row (ho : Orders h S (a :: as) (b :: bs) o) (hab : ¬ h.equal a b = true) (hx : h.row? a = some (k, xs)) :
    ∃ ys, h.row? b = some (k, ys) ∧ Orders h S xs ys o := by
  cases ho with
  | same _ _ hab' => exact absurd hab' hab
  | rank _ _ _ hx' => cases (row?_of_rank? hx').symm.trans hx
  | row _ _ _ hx' hy ho =>
    cases hx.symm.trans hx'
    exact ⟨_, hy, ho⟩

omit hS in
theorem inj (ho : Orders h S as bs o) (ho' : Orders h S as bs o') : o = o' := by
  induction ho generalizing o' with
  | nil | short | long =>
    cases ho'
    rfl
  | same _ _ hab _ ih =>
    cases ho' with
    | same _ _ _ ho' => exact ih ho'
    | rank _ _ hab' | row _ _ hab' => exact absurd hab hab'
  | rank _ _ hab hx hy ho =>
    obtain ⟨_, hy', ho'⟩ := ho'.of_rank hab hx
    cases hy.symm.trans hy'
    exact ho.inj ho'
  | row _ _ hab hx hy _ ih =>
    obtain ⟨_, hy', ho'⟩ := ho'.of_row hab hx
    cases hy.symm.trans hy'
    exact ih ho'

theorem eq_iff (ho : Orders h S as bs o) : o = .eq ↔ Forall₂ (h.equal · · = true) as bs := by
  induction ho with
  | nil => simp
  | short | long => simp
  | same _ _ hab _ ih => simp [hab, ih]
  | rank ha hb hab hx hy ho =>
    refine iff_of_false (fun heq => hab ?_) fun hf => hab (forall₂_cons.1 hf).1
    exact equal_of_rank? hS ha hb hx (ho.eq_eq.1 heq ▸ hy)
  | row ha hb hab hx hy _ ih =>
    refine iff_of_false (fun heq => hab ?_) fun hf => hab (forall₂_cons.1 hf).1
    exact equal_of_row? hS ha hb hx hy (ih.1 heq)

theorem congr (ho : Orders h S as bs o) (hcs : ∀ c ∈ cs, S c) (hf : Forall₂ (h.equal · · = true) as cs) :
    Orders h S cs bs o := by
  induction ho generalizing cs with
  | nil | short =>
    cases hf
    constructor
  | long =>
    cases hf
    exact .long
  | @same a b as bs o ha hb hab _ ih =>
    cases hf with
    | @cons _ c _ cs hac hf =>
      have hc := hcs c (.head _)
      exact .same hc hb (equal_trans hS hc ha hb (equal_symm hS ha hc hac) hab) (ih (fun c hc => hcs c (.tail _ hc)) hf)
  | @rank a b as bs o ha hb hab x y hx hy ho =>
    cases hf with
    | @cons _ c _ cs hac hf =>
      have hc := hcs c (.head _)
      refine .rank hc hb (fun hcb => hab (equal_trans hS ha hc hb hac hcb)) ?_ hy ho
      rw [← rank?_of_equal hS ha hc hac, hx]
  | @row a b as bs o ha hb hab k _ _ hx hy ho ih =>
    cases hf with
    | @cons _ c _ cs hac hf =>
      have hc := hcs c (.head _)
      obtain ⟨_, hz, hxz⟩ := row?_of_equal hS ha hc hac hx
      refine .row hc hb (fun hcb => hab (equal_trans hS ha hc hb hac hcb)) hz hy ?_
      rcases hxz with rfl | hxz
      · exact ho
      · exact ih (fun z hz' => hS.held hc (held_of_row? hz ▸ hz')) hxz

omit hS in
/-- Items that are not equal decide, whatever comes after them. -/
theorem head (hab : ¬ h.equal a b = true) (ho : Orders h S (a :: as) (b :: bs) o) (as' bs' : List Value) :
    Orders h S (a :: as') (b :: bs') o := by
  cases ho with
  | same _ _ hab' => exact absurd hab' hab
  | rank ha hb _ hx hy ho => exact .rank ha hb hab hx hy ho
  | row ha hb _ hx hy ho => exact .row ha hb hab hx hy ho

theorem congr_left (hc : S c) (hac : h.equal a c = true) (ho : Orders h S [a] [b] o) : Orders h S [c] [b] o :=
  congr hS ho (by simpa using hc) (.cons hac .nil)

theorem congr_right (hc : S c) (hbc : h.equal b c = true) (ho : Orders h S [a] [b] o) : Orders h S [a] [c] o := by
  have hs := swap hS (congr_left hS hc hbc (swap hS ho))
  rwa [Ordering.swap_swap] at hs

omit hS in
theorem mem_heads (ho : Orders h S (a :: as) (b :: bs) o) : S a ∧ S b := by
  cases ho <;> exact ⟨‹_›, ‹_›⟩

/-- What the items that two rows start with decide. Only where no two of three are equal does it depend on how they are
ordered. -/
theorem trans_head (hab : ¬ h.equal a b = true) (h1 : Orders h S (a :: as) (b :: bs) o)
    (h2 : Orders h S (b :: bs) (c :: cs) o') (h3 : Orders h S (a :: as) (c :: cs) o'') (ho : o ≠ .gt) (ho' : o' ≠ .gt)
    (hd : ¬ h.equal b c = true → ¬ h.equal a c = true → o'' ≠ .gt) : o'' ≠ .gt := by
  obtain ⟨ha, hb⟩ := mem_heads h1
  have hc := (mem_heads h2).2
  have h1 := head hab h1 [] []
  by_cases hbc : h.equal b c = true
  · have hac : ¬ h.equal a c = true := fun hac => hab (equal_trans hS ha hc hb hac (equal_symm hS hb hc hbc))
    rwa [inj (head hac h3 [] []) (congr_right hS hc hbc h1)]
  · by_cases hac : h.equal a c = true
    · have h2 := congr_right hS ha (equal_symm hS ha hc hac) (head hbc h2 [] [])
      have hs : o = o'.swap := inj h1 (by simpa using swap hS h2)
      have heq : o = .eq := by
        cases o' <;> simp_all
      exact absurd (forall₂_cons.1 ((eq_iff hS h1).1 heq)).1 hab
    · exact hd hbc hac

/-- **The order of rows is transitive.** -/
theorem trans {as bs cs : List Value} {o' o'' : Ordering}
    (h1 : Orders h S as bs o) (h2 : Orders h S bs cs o') (h3 : Orders h S as cs o'') (ho : o ≠ .gt)
    (ho' : o' ≠ .gt) : o'' ≠ .gt := by
  induction h1 generalizing cs o' o'' with
  | nil => rwa [inj h3 h2]
  | short =>
    cases h3 with
    | nil => cases h2; contradiction
    | short => simp
  | long => contradiction
  | @same a b as bs o ha hb hab h1 ih =>
    cases cs with
    | nil => cases h2; contradiction
    | cons c cs =>
    have hc := (mem_heads h2).2
    by_cases hbc : h.equal b c = true
    · have hac := equal_trans hS ha hb hc hab hbc
      cases h2 with
      | rank _ _ hbc' | row _ _ hbc' => exact absurd hbc hbc'
      | same _ _ _ h2 =>
      cases h3 with
      | rank _ _ hac' | row _ _ hac' => exact absurd hac hac'
      | same _ _ _ h3 => exact ih h2 h3 ho ho'
    · have hba := equal_symm hS ha hb hab
      have hac : ¬ h.equal a c = true := fun hac => hbc (equal_trans hS hb ha hc hba hac)
      rwa [inj (head hac h3 [] []) (congr_left hS ha hba (head hbc h2 [] []))]
  | @rank a b as bs o ha hb hab x y hx hy hxy =>
    cases cs with
    | nil => cases h2; contradiction
    | cons c cs =>
    refine trans_head hS hab (.rank ha hb hab hx hy hxy) h2 h3 ho ho' fun hbc hac => ?_
    obtain ⟨_, hz, hyz⟩ := h2.of_rank hbc hy
    obtain ⟨_, hz', hxz⟩ := h3.of_rank hac hx
    cases hz.symm.trans hz'
    exact hxz.ne_gt.2 ((hxy.ne_gt.1 ho).trans (hyz.ne_gt.1 ho'))
  | @row a b as bs o ha hb hab k _ _ hx hy h1 ih =>
    cases cs with
    | nil => cases h2; contradiction
    | cons c cs =>
    refine trans_head hS hab (.row ha hb hab hx hy h1) h2 h3 ho ho' fun hbc hac => ?_
    obtain ⟨_, hz, h2⟩ := h2.of_row hbc hy
    obtain ⟨_, hz', h3⟩ := h3.of_row hac hx
    cases hz.symm.trans hz'
    exact ih h2 h3 ho ho'

end Orders

/-! ## The order of values -/

omit hS in
theorem orderItems_eq (as bs : List Value) :
    h.orderItems sym deep as bs = rowOrder h.equal (h.orderStep sym deep) as bs := by
  induction as generalizing bs with
  | nil => cases bs <;> rfl
  | cons a as ih => cases bs <;> simp [orderItems, rowOrder, ih]

theorem orders_rank (ha : S a) (hb : S b) (hx : rank? a = some x) (hy : rank? b = some y)
    (ho : o.Compares x y) : Orders h S [a] [b] o := by
  by_cases hab : h.equal a b = true
  · rw [rank?_of_equal hS ha hb hab, hy] at hx
    cases hx
    cases ho.eq_eq.2 rfl
    exact .same ha hb hab .nil
  · exact .rank ha hb hab hx hy ho

theorem orders_row (ha : S a) (hb : S b) (hx : h.row? a = some (k, as)) (hy : h.row? b = some (k, bs))
    (ho : Orders h S as bs o) : Orders h S [a] [b] o := by
  by_cases hab : h.equal a b = true
  · obtain ⟨_, hz, hxz⟩ := row?_of_equal hS ha hb hab hx
    cases hy.symm.trans hz
    have heq : o = .eq := by
      rcases hxz with rfl | hf
      · cases o with
        | eq => rfl
        | lt | gt => cases ho.inj (ho.swap hS)
      · exact (ho.eq_iff hS).2 hf
    rw [heq]
    exact .same ha hb hab .nil
  · exact .row ha hb hab hx hy ho

omit hS in
theorem orders_of_rowOrder (has : ∀ a ∈ as, S a) (hbs : ∀ b ∈ bs, S b)
    (hd : ∀ a ∈ as, ∀ b ∈ bs, ∀ o, deep a b = .ok (some o) → Orders h S [a] [b] o)
    (ho : rowOrder h.equal deep as bs = .ok (some o)) : Orders h S as bs o := by
  induction as generalizing bs with
  | nil =>
    cases bs <;> cases ho
    · exact .nil
    · exact .short
  | cons a as ih =>
    cases bs with
    | nil =>
      cases ho
      exact .long
    | cons b bs =>
      unfold rowOrder at ho
      split at ho
      · next hab =>
        refine .same (has a (.head _)) (hbs b (.head _)) hab (ih ?_ ?_ ?_ ho)
        · exact fun a ha => has a (.tail _ ha)
        · exact fun b hb => hbs b (.tail _ hb)
        · exact fun a ha b hb => hd a (.tail _ ha) b (.tail _ hb)
      · next hab => exact (hd a (.head _) b (.head _) o ho).head hab as bs

theorem orders_of_orderTo (hn : ∀ v, S v → ∀ i, v ≠ .set i) (ha : S a) (hb : S b)
    (ho : h.orderTo sym n a b = .ok (some o)) : Orders h S [a] [b] o := by
  induction n generalizing a b o with
  | zero => cases ho
  | succ n ih =>
    induction a using Value.items_induction generalizing b o with
    | step a iht =>
      cases a with
      | float x => exact absurd rfl (hS.not_float ha x)
      | set i => exact absurd rfl (hn _ ha i)
      | list i =>
        cases b with
        | list j =>
          refine orders_row hS ha hb rfl rfl (orders_of_rowOrder (fun a => hS.held ha) (fun b => hS.held hb) ?_ ho)
          exact fun a ha' b hb' o => ih (hS.held ha ha') (hS.held hb hb')
        | _ => cases ho
      | tuple p as =>
        cases b with
        | tuple q bs =>
          have ho : h.orderItems sym (h.orderTo sym n) as bs = .ok (some o) := ho
          rw [orderItems_eq] at ho
          refine orders_row hS ha hb rfl rfl (orders_of_rowOrder (fun a => hS.held ha) (fun b => hS.held hb) ?_ ho)
          exact fun a ha' b hb' o => iht p as rfl a ha' (hS.held ha ha') (hS.held hb hb')
        | _ => cases ho
      | str s =>
        cases b with
        | str t =>
          cases ho
          exact orders_rank hS ha hb rfl rfl (textOrder_compares s t)
        | _ => cases ho
      | bool | int =>
        cases b with
        | float x => exact absurd rfl (hS.not_float hb x)
        | bool | int =>
          cases ho
          exact orders_rank hS ha hb rfl rfl (compare_compares _ _)
        | _ => cases ho
      | _ => cases b <;> cases ho

omit hS in
theorem rowOrder_imp (hd : ∀ a ∈ as, ∀ b ∈ bs, ∀ r, deep a b = .ok r → deep' a b = .ok r)
    (ho : rowOrder h.equal deep as bs = .ok r) : rowOrder h.equal deep' as bs = .ok r := by
  induction as generalizing bs with
  | nil => cases bs <;> exact ho
  | cons a as ih =>
    cases bs with
    | nil => exact ho
    | cons b bs =>
      unfold rowOrder at ho ⊢
      split at ho
      · next hab => rw [if_pos hab, ih (fun a ha b hb => hd a (.tail _ ha) b (.tail _ hb)) ho]
      · next hab => rw [if_neg hab, hd a (.head _) b (.head _) r ho]

omit hS in
theorem orderTo_symbol (ho : h.orderTo sym n a b = .ok r) : h.orderTo sym' n a b = .ok r := by
  induction n generalizing a b r with
  | zero => exact ho
  | succ n ih =>
    induction a using Value.items_induction generalizing b r with
    | step a iht =>
      cases a with
      | list i =>
        cases b with
        | list j => exact rowOrder_imp (fun a _ b _ r => ih) ho
        | _ => cases ho
      | tuple p as =>
        cases b with
        | tuple q bs =>
          have ho : h.orderItems sym (h.orderTo sym n) as bs = .ok r := ho
          change h.orderItems sym' (h.orderTo sym' n) as bs = .ok r
          rw [orderItems_eq] at ho ⊢
          exact rowOrder_imp (fun a ha b _ r => iht p as rfl a ha) ho
        | _ => cases ho
      | _ =>
        cases b <;> cases ho
        all_goals rfl

end

/-! ## Sorting by keys -/

section

variable {h : Heap} (key : Value → Int) {items : List Value}

/-- A row in the order of keys, values of the same key staying in theirs. -/
def sortBy (key : Value → Int) (items : List Value) : List Value :=
  (items.reverse.insertionSort fun a b => key b ≤ key a).reverse

theorem insertSorted_eq (ws : List Value) (hl : ∀ w ∈ ws, less v w = .ok (decide (key v < key w)))
    (e : Option Fault) : insertSorted less v ws e = (ws.orderedInsert (fun a b => key b ≤ key a) v, e) := by
  induction ws with
  | nil => rfl
  | cons w ws ih =>
    unfold insertSorted
    rw [hl w (.head _), ih fun w hw => hl w (.tail _ hw)]
    by_cases hlt : key v < key w
    · simp [hlt]
    · simp [hlt]

theorem sortFrom_eq (ps items : List Value)
    (hl : ∀ v ∈ ps ++ items, ∀ w ∈ ps ++ items, less v w = .ok (decide (key v < key w))) :
    sortFrom less (ps.insertionSort fun a b => key b ≤ key a) items none
      = (((items.reverse ++ ps).insertionSort fun a b => key b ≤ key a).reverse, none) := by
  induction items generalizing ps with
  | nil => rfl
  | cons v items ih =>
    have hi := insertSorted_eq key (ps.insertionSort fun a b => key b ≤ key a)
      (fun w _ => hl v (by simp) w (by simp_all)) none
    rw [sortFrom, hi, reverse_cons, append_assoc]
    exact ih (v :: ps) fun a _ b _ => hl a (by grind) b (by grind)

theorem sortBy_perm (items : List Value) : (sortBy key items).Perm items :=
  (reverse_perm _).trans ((perm_insertionSort _ _).trans (reverse_perm _))

theorem sortBy_pairwise (items : List Value) : (sortBy key items).Pairwise fun a b => key a ≤ key b :=
  pairwise_reverse.2 (pairwise_insertionSort _ _)

theorem sortBy_filter (items : List Value)
    (hp : ∀ a ∈ items, ∀ b ∈ items, p a → p b → key a = key b) : (sortBy key items).filter p = items.filter p := by
  have hpa : (items.reverse.filter p).Pairwise fun a b => key b ≤ key a :=
    pairwise_of_forall_mem_list fun a ha b hb => by
      simp only [mem_filter, mem_reverse] at ha hb
      exact (hp b hb.1 a ha.1 hb.2 ha.2).le
  have hs := (sublist_insertionSort hpa filter_sublist).filter p
  simp only [filter_filter, Bool.and_self] at hs
  have heq := hs.eq_of_length ((perm_insertionSort _ _).filter p).length_eq.symm
  rw [sortBy, filter_reverse, ← heq, filter_reverse, reverse_reverse]

theorem sortBy_head? (hp : ∀ x ∈ pre, key m < key x)
    (hpo : ∀ x ∈ post, key m ≤ key x) : (sortBy key (pre ++ m :: post)).head? = some m := by
  have hme {x : Value} : x ∈ sortBy key (pre ++ m :: post) ↔ x ∈ pre ++ m :: post := (sortBy_perm key _).mem_iff
  have hf := sortBy_filter key (pre ++ m :: post) (p := fun x => key x == key m)
    fun a _ b _ ha hb => (eq_of_beq ha).trans (eq_of_beq hb).symm
  have hp' : pre.filter (fun x => key x == key m) = [] :=
    filter_eq_nil_iff.2 fun x hx heq => (hp x hx).ne' (eq_of_beq heq)
  rw [filter_append, hp', filter_cons, if_pos (beq_self_eq_true _)] at hf
  have hso := sortBy_pairwise key (pre ++ m :: post)
  cases hs : sortBy key (pre ++ m :: post) with
  | nil => cases hs ▸ hf
  | cons x s =>
    rw [hs] at hme hf hso
    have hx : key m ≤ key x := by
      have hx := hme.1 (.head s)
      grind
    have hm : key x ≤ key m := by
      rcases mem_cons.1 (hme.2 (by simp : m ∈ _)) with rfl | hm
      · exact le_rfl
      · exact (pairwise_cons.1 hso).1 m hm
    rw [filter_cons, if_pos (beq_iff_eq.2 (le_antisymm hm hx))] at hf
    rw [head?_cons, (List.cons.inj hf).1]

theorem extreme_split (sym : String) (wanted : Ordering) (best : Value) (r : List Value)
    (hor : ∀ v ∈ best :: r, ∀ w ∈ best :: r, ∃ o, h.order sym v w = .ok (some o) ∧ (o = wanted ↔ key v < key w)) :
    ∃ pre m post, h.extreme sym wanted best r = .ok m ∧ best :: r = pre ++ m :: post
      ∧ (∀ x ∈ pre, key m < key x) ∧ ∀ x ∈ post, key m ≤ key x := by
  induction r generalizing best with
  | nil => exact ⟨[], best, [], rfl, rfl, by simp, by simp⟩
  | cons v r ih =>
    obtain ⟨o, ho, hlt⟩ := hor v (by simp) best (by simp)
    have hst : h.extreme sym wanted best (v :: r)
        = if key v < key best then h.extreme sym wanted v r else h.extreme sym wanted best r := by
      unfold extreme
      rw [ho]
      exact if_congr (by rw [beq_iff_eq, Option.some.injEq, hlt]) (by cases r <;> rfl) (by cases r <;> rfl)
    rw [hst]
    split
    · next hw =>
      obtain ⟨pre, m, post, hm, hs, hpr, hp⟩ := ih v fun a ha b hb => hor a (.tail _ ha) b (.tail _ hb)
      refine ⟨best :: pre, m, post, hm, by rw [hs]; rfl, ?_, hp⟩
      have hv : v ∈ pre ++ m :: post := hs ▸ .head _
      grind
    · next hw =>
      obtain ⟨pre, m, post, hm, hs, hpr, hp⟩ := ih best fun a ha b hb => hor a (by grind) b (by grind)
      cases pre with
      | nil =>
        obtain ⟨rfl, rfl⟩ := List.cons.inj hs
        exact ⟨[], best, v :: r, hm, rfl, hpr, by grind⟩
      | cons x pre =>
        obtain ⟨rfl, rfl⟩ := List.cons.inj hs
        exact ⟨best :: v :: pre, m, post, hm, rfl, by grind, hp⟩

end

section

open Classical

variable {h : Heap} {S : Value → Prop} {a b c : Value} {items : List Value} {o : Ordering}

/-- The first of two values does not come after the second. -/
def Le (h : Heap) (a b : Value) : Prop :=
  ∃ o, h.order "<" a b = .ok (some o) ∧ o ≠ .gt

/-- How many of a row of values come before a value. -/
noncomputable def place (h : Heap) (items : List Value) (v : Value) : Int :=
  (items.filter fun w => ¬ h.Le v w).length

variable (hS : h.Discrete S) (hn : ∀ v, S v → ∀ i, v ≠ .set i) (hitems : ∀ v ∈ items, S v)
  (horder : ∀ a ∈ items, ∀ b ∈ items, ∃ o, h.order "<" a b = .ok (some o))

include hS hn hitems horder

theorem Le.trans (ha : a ∈ items) (hb : b ∈ items) (hc : c ∈ items) (hab : h.Le a b) (hbc : h.Le b c) : h.Le a c := by
  obtain ⟨_, h1, ho1⟩ := hab
  obtain ⟨_, h2, ho2⟩ := hbc
  obtain ⟨o3, h3⟩ := horder a ha c hc
  have ha := hitems a ha
  have hb := hitems b hb
  have hc := hitems c hc
  refine ⟨o3, h3, (orders_of_orderTo hS hn ha hb h1).trans hS ?_ (orders_of_orderTo hS hn ha hc h3) ho1 ho2⟩
  exact orders_of_orderTo hS hn hb hc h2

omit hS hn hitems horder in
theorem le_iff (ho : h.order "<" a b = .ok (some o)) : h.Le a b ↔ o ≠ .gt := by
  simp [Le, ho]

theorem le_swap_iff (ha : a ∈ items) (hb : b ∈ items) (ho : h.order "<" a b = .ok (some o)) : h.Le b a ↔ o ≠ .lt := by
  obtain ⟨_, ho'⟩ := horder b hb a ha
  have ha := hitems a ha
  have hb := hitems b hb
  rw [le_iff ho', (orders_of_orderTo hS hn hb ha ho').inj ((orders_of_orderTo hS hn ha hb ho).swap hS)]
  cases o <;> simp

theorem place_le_iff (ha : a ∈ items) (hb : b ∈ items) : h.place items a ≤ h.place items b ↔ h.Le a b := by
  have ht {a b c : Value} := Le.trans (a := a) (b := b) (c := c) hS hn hitems horder
  unfold place
  rw [Int.ofNat_le]
  constructor
  · contrapose!
    intro hab
    have hba : h.Le b a := by
      obtain ⟨o, ho⟩ := horder a ha b hb
      rw [le_iff ho, not_not] at hab
      simp [le_swap_iff hS hn hitems horder ha hb ho, hab]
    have hbb : h.Le b b := by
      obtain ⟨o, ho⟩ := horder b hb b hb
      have hi := (le_iff ho).symm.trans (le_swap_iff hS hn hitems horder hb hb ho)
      rw [le_iff ho]
      rintro rfl
      simp at hi
    have hf : (items.filter fun w => ¬ h.Le a w).filter (fun w => ¬ h.Le b w) = items.filter fun w => ¬ h.Le b w := by
      rw [filter_filter]
      refine filter_congr fun w hw => ?_
      have him := mt (ht hb ha hw hba)
      by_cases hbw : h.Le b w <;> simp_all
    rw [← hf]
    exact length_filter_lt_length_iff_exists.2 ⟨b, mem_filter.2 ⟨hb, by simpa using hab⟩, by simpa using hbb⟩
  · intro hab
    rw [← countP_eq_length_filter, ← countP_eq_length_filter]
    refine countP_mono_left fun w hw => ?_
    simp only [decide_eq_true_eq]
    exact mt (ht ha hb hw hab)

/-- **The order of values is that of their places.** -/
theorem order_place (ha : a ∈ items) (hb : b ∈ items) (ho : h.order "<" a b = .ok (some o)) :
    o.Compares (h.place items a) (h.place items b) := by
  have hab := (place_le_iff hS hn hitems horder ha hb).trans (le_iff ho)
  have hba := (place_le_iff hS hn hitems horder hb ha).trans (le_swap_iff hS hn hitems horder ha hb ho)
  cases o with
  | lt => exact not_le.1 (by simpa using hba)
  | eq => exact le_antisymm (by simpa using hab) (by simpa using hba)
  | gt => exact not_le.1 (by simpa using hab)

theorem place_of_equal (ha : a ∈ items) (hb : b ∈ items) (hab : h.equal a b = true) :
    h.place items a = h.place items b := by
  obtain ⟨o, ho⟩ := horder a ha b hb
  have heq : o = .eq := ((orders_of_orderTo hS hn (hitems a ha) (hitems b hb) ho).eq_iff hS).2 (.cons hab .nil)
  exact (order_place hS hn hitems horder ha hb ho).eq_eq.1 heq

end

theorem sorted_eq (key : Value → Int) (hv : h.elementList v = .ok items)
    (hl : ∀ a ∈ items, ∀ b ∈ items, h.precedes rev a b = .ok (decide (key a < key b))) :
    HeapM.sorted v rev h = .ok (.list h.lists.size) { h with lists := h.lists.push (sortBy key items).toArray } := by
  have hs : h.sort rev items = (sortBy key items, none) := by
    have hf : sortFrom (h.precedes rev) [] items none = _ := sortFrom_eq key [] items (by simpa using hl)
    rwa [append_nil] at hf
  have ha : HeapM.ask (fun h => h.elementList v) h = .ok items h := by
    change HeapM.lift (h.elementList v) h = _
    rw [hv]
    rfl
  have hk : HeapM.look (fun h => h.sort rev items) h = .ok (sortBy key items, none) h := by
    rw [← hs]
    rfl
  change EStateM.bind _ _ h = _
  rw [EStateM.bind, ha]
  change EStateM.bind _ _ h = _
  rw [EStateM.bind, hk]
  rfl

/-- **Sorting keeps the values, puts them in order and leaves equal ones in theirs, and the least and the greatest value
come first.** This holds of values that are and hold no doubles and no sets, if any two of them can be ordered; an
order of none is that of a comparison that never ends. -/
theorem sorts_stably (h : Heap) (v : Value) (items : List Value) (hv : h.elementList v = .ok items)
    (hkeys : ∀ i, ((h.dict i).map (·.1)).Nodup)
    (hdiscrete : ∀ a ∈ items, ∀ w, h.Inside a w → (∀ x, w ≠ .float x) ∧ ∀ i, w ≠ .set i)
    (horder : ∀ a ∈ items, ∀ b ∈ items, ∃ o, h.order "<" a b = .ok (some o)) (reverse : Bool) :
    ∃ ref h' result, HeapM.sorted v reverse h = .ok (.list ref) h' ∧ (h'.list ref).toList = result ∧ result.Perm items
      ∧ result.Pairwise (fun a b => ∃ o, h.order "<" a b = .ok (some o) ∧ o ≠ if reverse then .lt else .gt)
      ∧ (∀ a ∈ items, result.filter (h.equal a) = items.filter (h.equal a))
      ∧ ∀ first, result.head? = some first → h.extremeOf (if reverse then .max else .min) [v] = .ok first := by
  let S (w : Value) : Prop := ∃ a ∈ items, h.Inside a w
  have hitems (a : Value) (ha : a ∈ items) : S a := ⟨a, ha, .refl⟩
  have hn : ∀ w, S w → ∀ i, w ≠ .set i := fun _ ⟨a, ha, hw⟩ => (hdiscrete a ha _ hw).2
  have hS : h.Discrete S := {
    keys := hkeys
    members := fun hi => absurd rfl (hn _ hi _)
    not_float := fun ⟨a, ha, hw⟩ => (hdiscrete a ha _ hw).1
    held := fun ⟨a, ha, hw⟩ _ hw' => ⟨a, ha, hw.tail hw'⟩ }
  have hplace (a : Value) (ha : a ∈ items) (b : Value) (hb : b ∈ items) :
      ∃ o, h.order "<" a b = .ok (some o) ∧ o.Compares (h.place items a) (h.place items b) := by
    obtain ⟨o, ho⟩ := horder a ha b hb
    exact ⟨o, ho, order_place hS hn hitems horder ha hb ho⟩
  -- Down is up with the places turned round.
  let key (a : Value) : Int := if reverse then -h.place items a else h.place items a
  have hkey {a b : Value} (hab : h.place items a = h.place items b) : key a = key b := by simp only [key, hab]
  have hless (a : Value) (ha : a ∈ items) (b : Value) (hb : b ∈ items) :
      h.precedes reverse a b = .ok (decide (key a < key b)) := by
    cases reverse with
    | false =>
      obtain ⟨o, ho, hc⟩ := hplace a ha b hb
      simp only [precedes, ho, key]
      exact congrArg Except.ok (Bool.eq_iff_iff.2 (by simpa using hc.eq_lt))
    | true =>
      obtain ⟨o, ho, hc⟩ := hplace b hb a ha
      simp only [precedes, ho, key]
      exact congrArg Except.ok (Bool.eq_iff_iff.2 (by simpa using hc.eq_lt))
  refine ⟨_, _, sortBy key items, sorted_eq key hv hless, by simp [list], sortBy_perm _ _, ?_, ?_, ?_⟩
  · refine (sortBy_pairwise _ _).imp_of_mem fun ha hb hle => ?_
    obtain ⟨o, ho, hc⟩ := hplace _ ((sortBy_perm _ _).mem_iff.1 ha) _ ((sortBy_perm _ _).mem_iff.1 hb)
    refine ⟨o, ho, ?_⟩
    cases reverse with
    | false => exact hc.ne_gt.2 hle
    | true => exact hc.ne_lt.2 (Int.neg_le_neg_iff.1 hle)
  · refine fun a ha => sortBy_filter _ _ fun b hb c hc hab hac => hkey ?_
    exact (place_of_equal hS hn hitems horder ha hb hab).symm.trans (place_of_equal hS hn hitems horder ha hc hac)
  · intro m hm
    cases items with
    | nil => cases hm
    | cons best rest =>
      have hext : h.extremeOf (if reverse then .max else .min) [v]
          = h.extreme (if reverse then ">" else "<") (if reverse then .gt else .lt) best rest := by
        simp only [extremeOf, hv]
        cases reverse <;> rfl
      obtain ⟨_, _, _, hm', hsplit, hpre, hpost⟩ := extreme_split (h := h) key
          (if reverse then ">" else "<") (if reverse then .gt else .lt) best rest
        fun a ha b hb => by
          obtain ⟨o, ho, hc⟩ := hplace a ha b hb
          cases reverse with
          | false => exact ⟨o, ho, hc.eq_lt⟩
          | true => exact ⟨o, orderTo_symbol ho, hc.eq_gt.trans (by simp [key])⟩
      rw [hsplit, sortBy_head? key hpre hpost, Option.some.injEq] at hm
      rw [hext, hm', hm]

/-- Of two equal lists that are the greatest, the one that came first comes first. -/
theorem sorts_stably_lists :
    let h : Heap := { Heap.empty with lists := #[#[.bool true, .int 2], #[.int 1], #[.int 1, .int 2]] }
    let v : Value := .tuple 0 [.list 0, .list 1, .list 2]
    h.extremeOf .max [v] = .ok (.list 0) := by
  intro h v
  let inside : List Value := [.list 0, .list 1, .list 2, .bool true, .int 2, .int 1]
  have hheld : ∀ v ∈ inside, ∀ w ∈ h.held v, w ∈ inside := by
    simp [inside, held, h, list]
  have hinside {a w : Value} (ha : a ∈ inside) (hw : h.Inside a w) : w ∈ inside := by
    induction hw with
    | refl => exact ha
    | tail _ hw ih => exact hheld _ ih _ hw
  have horder : ∀ a ∈ [Value.list 0, .list 1, .list 2], ∀ b ∈ [Value.list 0, .list 1, .list 2],
      ∃ o, h.order "<" a b = .ok (some o) := by
    simp only [List.forall_mem_cons, List.not_mem_nil, false_imp_iff, implies_true, and_true]
    exact ⟨⟨⟨_, rfl⟩, ⟨_, rfl⟩, ⟨_, rfl⟩⟩, ⟨⟨_, rfl⟩, ⟨_, rfl⟩, ⟨_, rfl⟩⟩, ⟨_, rfl⟩, ⟨_, rfl⟩, ⟨_, rfl⟩⟩
  obtain ⟨_, _, _, hs, hr, -, -, -, hfirst⟩ := sorts_stably h v [.list 0, .list 1, .list 2] rfl
    (fun i => by simp [h, dict, Heap.empty])
    (fun a ha w hw => by
      have hw := hinside ((by simp [inside] : [Value.list 0, .list 1, .list 2] ⊆ inside) ha) hw
      simp only [inside, List.mem_cons, List.not_mem_nil, or_false] at hw
      rcases hw with rfl | rfl | rfl | rfl | rfl | rfl <;> simp)
    horder true
  have hsorted : HeapM.sorted v true h
      = .ok (.list 3) { h with lists := h.lists.push #[.list 0, .list 2, .list 1] } := rfl
  cases hs.symm.trans hsorted
  exact hfirst _ (hr ▸ rfl)

end Heap
end Playback
