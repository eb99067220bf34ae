import Playback.Machine.Exec
import Playback.Proofs.Exactness

/-!
# Ranges and their elements

The elements of a range are computed one after the other, by their number, by where they stand, and by whether an
integer is one of them. All of this is about the same row, `nth` for the numbers below `count`. A running value that
passes 64 bits stops at their end, which is not before the stop of any range, so no element is lost or made up
(`Range.iterates_exactly`).

Only the distance of an element from the start may pass 64 bits and is then cut off. Where it does not, a range is like
the list of its elements (`Heap.range_as_list`).
-/

namespace Playback

open List Word Int64

variable {k n p z j first : Nat} {v : Value}

theorem Word.toInt_saturate (i : Int) : (saturate i).toInt = max least (min i greatest) := by
  refine toInt_ofInt ⟨le_max_left _ _, max_le (by decide) (min_le_right _ _)⟩

theorem Word.saturate_of_fits (h : Fits i) : (saturate i).toInt = i := by
  rw [toInt_saturate, min_eq_left h.2, max_eq_right h.1]

variable {r r' : Range}

namespace Range

/-- The integer so many steps from the start, whether or not the range goes so far. -/
def nth (r : Range) (k : Nat) : Int :=
  r.start.toInt + k * r.step.toInt

/-- Whether an integer comes before the stop, in the direction of the steps. -/
def Before (r : Range) (i : Int) : Prop :=
  if 0 < r.step.toInt then i < r.stop.toInt else r.stop.toInt < i

/-- The word so many steps from the start, or the nearest one. -/
def word (r : Range) (k : Nat) : Word :=
  saturate (r.nth k)

def words (r : Range) : List Word :=
  (List.range r.count).map r.word

def from_ (r : Range) (k : Nat) : Range :=
  { r with start := r.word k }

theorem nth_succ (r : Range) (k : Nat) : r.nth (k + 1) = r.nth k + r.step.toInt := by
  unfold nth
  rw [Int.natCast_add, Int.add_mul]
  omega

theorem word_zero (r : Range) : r.word 0 = r.start := by
  have hz : r.nth 0 = r.start.toInt := by simp [nth]
  refine toInt_inj.1 ?_
  rw [word, hz, saturate_of_fits r.start.fits_toInt]

theorem toInt_step_ne (r : Range) : r.step.toInt ≠ 0 :=
  fun h => r.step_ne (toInt_inj.1 h)

theorem step_pos_or_neg (r : Range) (k : Nat) :
    0 < r.step.toInt ∧ 0 ≤ k * r.step.toInt ∨ r.step.toInt < 0 ∧ k * r.step.toInt ≤ 0 := by
  rcases r.toInt_step_ne.lt_or_gt with h | h
  · exact .inr ⟨h, mul_nonpos_of_nonneg_of_nonpos (by positivity) h.le⟩
  · exact .inl ⟨h, by positivity⟩

/-- **The count is the number of steps that stay before the stop.** -/
theorem lt_count_iff (r : Range) (k : Nat) : k < r.count ↔ r.Before (r.nth k) := by
  unfold count Before nth
  rcases step_pos_or_neg r k with ⟨h, hk⟩ | ⟨h, hk⟩
  · have hle := Int.le_ediv_iff_mul_le (a := (k : Int) + 1) (b := r.stop.toInt - r.start.toInt + r.step.toInt - 1) h
    rw [Int.add_mul] at hle
    simp only [not_lt_of_gt h, false_and, if_false]
    split <;> omega
  · have hle := Int.le_ediv_iff_mul_le (a := (k : Int) + 1) (b := r.start.toInt - r.stop.toInt - r.step.toInt - 1)
      (Int.neg_pos_of_neg h)
    rw [Int.add_mul, Int.mul_neg] at hle
    simp only [not_lt_of_gt h, false_and, if_false]
    split <;> omega

theorem fits_nth (hk : k < r.count) : Word.Fits (r.nth k) := by
  have hb := (lt_count_iff r k).1 hk
  have hs := r.start.fits_toInt
  have hst := r.stop.fits_toInt
  unfold Word.Fits at *
  unfold Before nth at hb
  unfold nth
  rcases step_pos_or_neg r k with ⟨h, hk⟩ | ⟨h, hk⟩
  · rw [if_pos h] at hb
    omega
  · rw [if_neg (not_lt_of_gt h)] at hb
    omega

theorem before_saturate (hk : k ≤ r.count) : r.Before (saturate (r.nth k)).toInt ↔ k < r.count := by
  rcases Nat.lt_or_eq_of_le hk with hlt | rfl
  · rw [saturate_of_fits (fits_nth hlt), lt_count_iff r]
  · have hno := (not_congr (lt_count_iff r r.count)).1 (Nat.lt_irrefl _)
    have hst := r.stop.fits_toInt
    refine iff_of_false (fun h => hno ?_) (Nat.lt_irrefl _)
    unfold Word.Fits at hst
    rw [toInt_saturate] at h
    unfold Before at *
    split at h <;> rename_i hs <;> simp only [hs, if_true, if_false] <;> omega

theorem toInt_word (hk : k < r.count) : (r.word k).toInt = r.nth k :=
  saturate_of_fits (fits_nth hk)

/-- The step moves every running value that comes before the stop, also where it leads to the end of 64 bits. -/
theorem word_succ_ne (hk : k < r.count) : r.word (k + 1) ≠ r.word k := by
  have hb := (r.lt_count_iff k).1 hk
  have hst := r.stop.fits_toInt
  have hs := r.toInt_step_ne
  rw [ne_eq, ← toInt_inj, toInt_word hk, word, toInt_saturate, nth_succ]
  unfold Before at hb
  unfold Word.Fits at hst
  split at hb <;> omega

theorem next?_from (hk : k ≤ r.count) :
    (r.from_ k).next? = if k < r.count then some (r.word k, r.from_ (k + 1)) else none := by
  have hb := before_saturate hk
  have hdo : (if 0 < r.step.toInt then r.stop ≤ r.word k else r.word k ≤ r.stop) ↔ ¬ r.Before (r.word k).toInt := by
    unfold Before
    split <;> rw [le_iff_toInt_le, not_lt]
  let next := saturate ((r.word k).toInt + r.step.toInt)
  change (if (if 0 < r.step.toInt then r.stop ≤ r.word k else r.word k ≤ r.stop) then none
    else some (r.word k, { r with start := if next = r.word k then r.stop else next })) = _
  by_cases h : k < r.count
  · rw [if_neg (fun hd => hdo.1 hd (hb.2 h)), if_pos h, show next = r.word (k + 1) by rw [word, nth_succ, ← toInt_word h],
      if_neg (word_succ_ne h)]
    rfl
  · rw [if_pos (hdo.2 fun hbe => h (hb.1 hbe)), if_neg h]

end Range

namespace Elements

/-- Iterating gives these values one after the other, and then it ends. -/
def Gives : Elements → List Value → Prop
  | es, [] => es.next? = none
  | es, v :: vs => ∃ rest, es.next? = some (v, rest) ∧ rest.Gives vs

theorem Gives.collect (h : es.Gives vs) (hb : vs.length ≤ n) (read : List Value) :
    collect n read es = read.reverse ++ vs := by
  induction vs generalizing es n read with
  | nil =>
    cases n with
    | zero => exact (append_nil _).symm
    | succ n => simp [Elements.collect, show es.next? = none from h]
  | cons v vs ih =>
    obtain ⟨r, hn, hr⟩ := h
    cases n with
    | zero => cases hb
    | succ n => simp [Elements.collect, hn, ih hr (Nat.le_of_succ_le_succ hb)]

theorem Gives.forLoop (h : es.Gives vs) (hb : vs.length ≤ n) (begin_ : Value → Eval Unit)
    (b : Eval Flow) : Eval.forLoop begin_ b n es = Eval.forLoop begin_ b vs.length (.items vs) := by
  induction vs generalizing es n with
  | nil =>
    cases n with
    | zero => rfl
    | succ n =>
      rw [Eval.forLoop, show es.next? = none from h]
      rfl
  | cons v vs ih =>
    obtain ⟨r, hn, hr⟩ := h
    cases n with
    | zero => cases hb
    | succ n =>
      rw [Eval.forLoop, hn, length_cons, Eval.forLoop]
      simp only [next?, ih hr (Nat.le_of_succ_le_succ hb)]

end Elements

namespace Range

theorem gives_from (n : Nat) (hk : k + n = r.count) :
    (Elements.range (r.from_ k)).Gives (((List.range' k n).map r.word).map .int) := by
  have hn := next?_from (show k ≤ r.count by omega)
  induction n generalizing k with
  | zero =>
    rw [if_neg (by omega)] at hn
    simp [Elements.Gives, Elements.next?, hn]
  | succ n ih =>
    rw [if_pos (by omega)] at hn
    refine ⟨.range (r.from_ (k + 1)), by simp [Elements.next?, hn], ?_⟩
    exact ih (by omega) (next?_from (by omega))

theorem gives_words (r : Range) : (Elements.range r).Gives (r.words.map .int) := by
  have h := gives_from (r := r) r.count (Nat.zero_add _)
  have h0 : r.from_ 0 = r := by rw [from_, word_zero]
  rwa [h0, ← range_eq_range'] at h

theorem elementList_eq (r : Range) (h : Heap) : h.elementList (.range r) = .ok (r.words.map .int) := by
  have hc := r.gives_words.collect (by simp [words] : _ ≤ r.count) []
  exact congrArg Except.ok hc

/-- **Iteration is exact up to the ends of 64 bits.** A range gives `start + k * step` for every `k` for which that
comes before the stop, in order, and then it ends: iterated, listed, or in a loop. -/
theorem iterates_exactly (h : Heap) (start stop step : Word) (hstep : step ≠ 0) :
    let r : Range := ⟨start, stop, step, hstep⟩
    rangeOf [start, stop, step] = .ok (.range r) ∧ h.elements (.range r) = .ok (.range r) ∧ ∃ words : List Word,
      (∀ k : Nat, k < words.length ↔ if 0 < step.toInt then start.toInt + k * step.toInt < stop.toInt
        else stop.toInt < start.toInt + k * step.toInt)
      ∧ words.map Int64.toInt = (List.range words.length).map (fun k : Nat => start.toInt + k * step.toInt)
      ∧ (Elements.range r).Gives (words.map .int) ∧ h.elementList (.range r) = .ok (words.map .int)
      ∧ ∀ begin_ body, Eval.forLoop begin_ body (Elements.range r).count (.range r)
        = Eval.forLoop begin_ body words.length (.items (words.map .int)) := by
  intro r
  have hlen : r.words.length = r.count := by simp [words]
  refine ⟨dif_neg hstep, rfl, r.words, ?_, ?_, r.gives_words, r.elementList_eq h, ?_⟩
  · intro k
    rw [hlen]
    exact lt_count_iff r k
  · rw [hlen, words, List.map_map]
    exact List.map_congr_left fun k hk => toInt_word (List.mem_range.1 hk)
  · intro begin_ body
    have hle : (r.words.map Value.int).length ≤ r.count := by rw [List.length_map, hlen]
    have hloop := r.gives_words.forLoop hle begin_ body
    rwa [List.length_map] at hloop

/-- The last element of a range may be so near to the end of 64 bits that the next one would pass it. -/
theorem iterates_to_greatest : Heap.empty.elementList (.range ⟨9223372036854775802, 9223372036854775807, 3, by decide⟩)
    = .ok [.int 9223372036854775802, .int 9223372036854775805] := by
  obtain ⟨-, -, words, hlen, hwords, -, hlist, -⟩ :=
    iterates_exactly .empty 9223372036854775802 9223372036854775807 3 (by decide)
  have h2 : words.length = 2 := by
    have h1 := (hlen 1).2 (by decide)
    have h2 := mt (hlen 2).1 (by decide)
    omega
  obtain ⟨a, b, rfl⟩ := List.length_eq_two.1 h2
  have hab : [a, b] = [9223372036854775802, 9223372036854775805] :=
    List.map_injective_iff.2 (fun _ _ h => Int64.toInt_inj.1 h) (hwords.trans (by rfl))
  rw [hlist, hab]
  rfl

theorem toInt_element (r : Range) (p : Nat) : (r.element p).toInt = max least (min (r.start.toInt
    + max least (min (p * r.step.toInt) greatest)) greatest) := by
  rw [element, toInt_saturate, toInt_saturate, Int.mul_comm]

/-- **An element is found where it stands just when its distance from the start fits in 64 bits.** -/
theorem element_eq_word_iff (hp : p < r.count) : r.element p = r.word p ↔ Word.Fits (p * r.step.toInt) := by
  have hf := fits_nth hp
  have hs := r.start.fits_toInt
  rw [← toInt_inj, toInt_element, toInt_word hp]
  unfold Word.Fits least greatest nth at *
  omega

theorem part_before_iff (first : Nat) (hl : z < r.count) (j : Nat) : (r.part first (z + 1)).Before
    (r.nth j) ↔ j ≤ z ∧ least < j * r.step.toInt ∧ j * r.step.toInt < greatest := by
  have hb := (lt_count_iff r z).1 hl
  have hs := r.start.fits_toInt
  have hst := r.stop.fits_toInt
  have he := r.toInt_element (z + 1)
  rw [Int.natCast_add, Int.add_mul] at he
  unfold Before nth at *
  change (if 0 < r.step.toInt then _ < (r.element (z + 1)).toInt else (r.element (z + 1)).toInt < _) ↔ _
  unfold Word.Fits least greatest at *
  rcases step_pos_or_neg r j with ⟨h, hd⟩ | ⟨h, hd⟩
  · have hj : j ≤ z ↔ (j : Int) * r.step.toInt ≤ z * r.step.toInt := by
      rw [Int.mul_le_mul_right h, Int.ofNat_le]
    have hj' : j < z + 1 ↔ (j : Int) * r.step.toInt < (z + 1) * r.step.toInt := by
      rw [Int.mul_lt_mul_right h]
      omega
    rw [Int.add_mul] at hj'
    simp only [h, if_true] at *
    omega
  · have hj : j ≤ z ↔ (z : Int) * r.step.toInt ≤ j * r.step.toInt := by
      rw [mul_le_mul_right_of_neg h, Int.ofNat_le]
    have hj' : j < z + 1 ↔ (z + 1) * r.step.toInt < (j : Int) * r.step.toInt := by
      rw [mul_lt_mul_right_of_neg h]
      omega
    rw [Int.add_mul] at hj'
    simp only [not_lt_of_gt h, if_false] at *
    omega

theorem distance_of_le (hj : j ≤ z) (h : least < z * r.step.toInt ∧ z * r.step.toInt <
    greatest) : least < j * r.step.toInt ∧ j * r.step.toInt < greatest := by
  have hj' : (j : Int) ≤ z := Int.ofNat_le.2 hj
  unfold least greatest at *
  rcases step_pos_or_neg r j with ⟨hs, hd⟩ | ⟨hs, hd⟩
  · have hle := Int.mul_le_mul_of_nonneg_right hj' hs.le
    omega
  · have hle := Int.mul_le_mul_of_nonpos_right hj' hs.le
    omega

/-- **A part has the elements between its positions just when the last of them is less than the greatest distance from
the start.** -/
theorem words_part_iff (hf : first ≤ z) (hl : z < r.count) :
    (r.part first (z + 1)).words = (List.range' first (z + 1 - first)).map r.word
      ↔ least < z * r.step.toInt ∧ z * r.step.toInt < greatest := by
  constructor
  · intro h
    have hm : r.word z ∈ (r.part first (z + 1)).words := by
      rw [h]
      exact mem_map_of_mem (by rw [mem_range'_1]; omega)
    obtain ⟨k, hk, hw⟩ := mem_map.1 hm
    have hb := (lt_count_iff _ k).1 (mem_range.1 hk)
    rw [← toInt_word (mem_range.1 hk), hw, toInt_word hl] at hb
    exact ((part_before_iff first hl z).1 hb).2
  · intro h
    have hd := distance_of_le hf h
    have hs := (element_eq_word_iff (by omega : first < r.count)).2 ⟨hd.1.le, hd.2.le⟩
    have hn (k : Nat) : (r.part first (z + 1)).nth k = r.nth (first + k) := by
      change (r.element first).toInt + k * r.step.toInt = r.start.toInt + ((first + k : Nat) : Int) * r.step.toInt
      rw [hs, toInt_word (by omega), nth, Int.natCast_add, Int.add_mul]
      omega
    have hc : (r.part first (z + 1)).count = z + 1 - first := by
      refine eq_of_forall_lt_iff fun k => ?_
      rw [lt_count_iff, hn, part_before_iff first hl]
      refine ⟨fun hk => by omega, fun hk => ?_⟩
      have hle : first + k ≤ z := by omega
      exact ⟨hle, distance_of_le hle h⟩
    rw [words, hc, range'_eq_map_range, map_map]
    exact map_congr_left fun k _ => by rw [word, hn]; rfl

theorem toInt_length (hc : r.count ≤ greatest) : r.length.toInt = r.count :=
  saturate_of_fits ⟨le_trans (by decide) (Int.natCast_nonneg _), hc⟩

theorem has_iff (hc : r.count ≤ greatest) (n : Word) : r.has n.toInt = true ↔ n ∈ r.words := by
  have hs := r.toInt_step_ne
  unfold has
  simp only [toInt_length hc, Bool.and_eq_true, beq_iff_eq, decide_eq_true_eq, words, mem_map, mem_range]
  constructor
  · rintro ⟨⟨hm, h0⟩, hlt⟩
    have hmu := Int.tdiv_mul_cancel_of_tmod_eq_zero hm
    refine ⟨_, Int.toNat_lt h0 |>.2 hlt, toInt_inj.1 ?_⟩
    rw [toInt_word (Int.toNat_lt h0 |>.2 hlt), nth, Int.toNat_of_nonneg h0]
    omega
  · rintro ⟨k, hk, rfl⟩
    have hd : (r.word k).toInt - r.start.toInt = k * r.step.toInt := by
      rw [toInt_word hk, nth]
      omega
    rw [hd, Int.mul_tmod_left, Int.mul_tdiv_cancel _ hs]
    omega

theorem same_iff (hc : r.count ≤ greatest) (hc' : r'.count ≤ greatest) :
    r.same r' = true ↔ r.words = r'.words := by
  have hwo : r.words = r'.words ↔ r.count = r'.count ∧ ∀ k < r.count, r.word k = r'.word k := by
    refine ⟨fun h => ?_, fun ⟨hco, h⟩ => ?_⟩
    · have hco : r.count = r'.count := by simpa [words] using congrArg List.length h
      rw [words, words, ← hco, map_inj_left] at h
      exact ⟨hco, fun k hk => h k (mem_range.2 hk)⟩
    · rw [words, words, ← hco]
      exact map_congr_left fun k hk => h k (mem_range.1 hk)
  have hn (n : Word) : r.length = n ↔ (r.count : Int) = n.toInt := by rw [← toInt_inj, toInt_length hc]
  unfold same
  simp only [Bool.and_eq_true, Bool.or_eq_true, beq_iff_eq, hwo]
  rw [hn, toInt_length hc', Int.ofNat_inj, hn, hn, toInt_zero, toInt_one]
  refine and_congr_right fun hco => ⟨?_, fun h => ?_⟩
  · rintro (hz | ⟨hs, ho | hst⟩) k hk
    · omega
    · obtain rfl : k = 0 := by omega
      rw [word_zero, word_zero, hs]
    · rw [word, word, nth, nth, hs, hst]
  · rcases Nat.eq_zero_or_pos r.count with hz | hp
    · exact .inl (by omega)
    · have hs : r.start = r'.start := by simpa only [word_zero] using h 0 hp
      refine .inr ⟨hs, or_iff_not_imp_left.2 fun ho => ?_⟩
      have hw := congrArg toInt (h 1 (by omega))
      rw [toInt_word (by omega), toInt_word (by omega), nth, nth, hs] at hw
      exact toInt_inj.1 (by omega)

end Range

theorem position?_eq {i : Word} (hp : p < n) (h : i.toInt = p ∨ i.toInt = p - n) : position? i n = some p := by
  unfold position? fromStart
  rw [if_pos (by split <;> omega)]
  exact congrArg some (by split <;> omega)

theorem sliceBounds_le (lower upper : Option Word) (n : Nat) :
    (sliceBounds lower upper n).1 ≤ (sliceBounds lower upper n).2 ∧ (sliceBounds lower upper n).2 ≤ n := by
  have hc (b : Word) : clampBound b n ≤ n := by
    unfold clampBound
    omega
  refine ⟨le_max_left _ _, max_le ?_ ?_⟩
  · cases lower <;> simp [hc]
  · cases upper <;> simp [hc]

namespace Heap

variable {h : Heap}

theorem equalTo_int (d : Nat) {n : Word} (hv : v.word? = some n) (w : Word) :
    h.equalTo (d + 1) (.int w) v = (w == n) := by
  cases v with
  | bool | int =>
    cases hv
    rfl
  | _ => cases hv

theorem allEqual_int (d : Nat) (as bs : List Word) :
    allEqual (h.equalTo (d + 1)) (as.map .int) (bs.map .int) = decide (as = bs) := by
  induction as generalizing bs with
  | nil => cases bs <;> rfl
  | cons a as ih =>
    cases bs with
    | nil => rfl
    | cons b bs =>
      rw [map_cons, map_cons, allEqual, equalTo_int d rfl, ih]
      by_cases hab : a = b <;> simp [hab]

section

variable {ref ref' : Nat} (hc : r.count ≤ greatest)
  (href : (h.list ref).toList = r.words.map .int)

include hc href

omit hc in
theorem size_of_words : (h.list ref).size = r.count := by
  rw [← Array.length_toList, href, length_map, Range.words, length_map, length_range]

theorem size_eq : r.size = (h.list ref).size := by
  rw [Range.size, Range.toInt_length hc, Int.toNat_natCast, size_of_words href]

theorem contains_range {n : Word} (hv : v.word? = some n) : h.contains (.range r) v = h.contains (.list ref) v := by
  have hh := Range.has_iff hc n
  have ha : (h.list ref).any (fun w => h.equal w v) = r.words.any (· == n) := by
    rw [← Array.any_toList, href, any_map]
    exact congrArg r.words.any (funext (equalTo_int (h := h) ((h.containers + 1) * (h.containers + 1)) hv))
  have hra : h.contains (.range r) v = .ok (r.has n.toInt) := by
    simp only [contains, Arithmetic.quantity?_of_word? hv]
    rfl
  rw [hra, contains, ha]
  refine congrArg Except.ok (Bool.eq_iff_iff.2 ?_)
  simp [hh]

theorem item_range {i : Word} (hv : v.word? = some i) (hp : p < (h.list ref).size)
    (hi : i.toInt = p ∨ i.toInt = p - (h.list ref).size) :
    h.item (.range r) v = h.item (.list ref) v ↔ Word.Fits (p * r.step.toInt) := by
  have hg : (h.list ref)[p]? = some (.int (r.word p)) := by
    rw [← Array.getElem?_toList, href, Range.words, map_map, getElem?_map,
      getElem?_range (size_of_words href ▸ hp)]
    rfl
  have hpo := position?_eq hp hi
  have hra : h.item (.range r) v = .ok (.int (r.element p)) := by
    simp only [item, sequenceIndex, hv, size_eq hc href]
    change inRange _ ((position? i _).map _) = _
    rw [hpo]
    rfl
  have hl : h.item (.list ref) v = .ok (.int (r.word p)) := by
    simp only [item, sequenceIndex, hv]
    change inRange _ ((position? i _).bind _) = _
    rw [hpo, Option.bind_some, hg]
    rfl
  rw [hra, hl, Except.ok.injEq, Value.int.injEq]
  exact Range.element_eq_word_iff (size_of_words href ▸ hp)

theorem slice_range (hb : sliceBounds lower upper (h.list ref).size = (first, z)) :
    ∃ part cell h', HeapM.slice (.range r) lower upper h = .ok (.range part) h
      ∧ HeapM.slice (.list ref) lower upper h = .ok (.list cell) h'
      ∧ (h'.elementList (.range part) = .ok (h'.list cell).toList ↔ first = z
        ∨ least < (z - 1 : Int) * r.step.toInt ∧ (z - 1 : Int) * r.step.toInt < greatest) := by
  obtain ⟨hle, hle'⟩ : first ≤ z ∧ z ≤ r.count := by
    simpa only [hb, ← size_of_words href] using sliceBounds_le lower upper (h.list ref).size
  have hra : HeapM.slice (.range r) lower upper h = .ok (.range (r.part first z)) h := by
    simp only [HeapM.slice, size_eq hc href, hb]
    rfl
  have hl : HeapM.slice (.list ref) lower upper h
      = .ok (.list h.lists.size) { h with lists := h.lists.push ((h.list ref).extract first z) } := by
    let bounds := sliceBounds lower upper (h.list ref).size
    change EStateM.Result.ok _ { h with lists := h.lists.push ((h.list ref).extract bounds.1 bounds.2) } = _
    rw [show bounds = _ from hb]
  have hce : ((h.list ref).extract first z).toList = ((List.range' first (z - first)).map r.word).map .int := by
    rw [Array.toList_extract, href, Range.words, extract_eq_take_drop, ← map_drop, ← map_drop,
      ← map_take, ← map_take, range_eq_range', drop_range',
      take_range'_of_length_ge (Nat.sub_le_sub_right hle' first), Nat.zero_add, Nat.mul_one]
  refine ⟨_, _, _, hra, hl, ?_⟩
  rw [Range.elementList_eq, list, Array.getElem?_push_size, Option.getD_some, hce, Except.ok.injEq,
    map_inj_right fun _ _ => Value.int.inj]
  rcases hle.eq_or_lt with rfl | hlt
  · have hco : (r.part first first).count = 0 := by simp [Range.count, Range.part]
    simp [Range.words, hco]
  · obtain ⟨z, rfl⟩ := Nat.exists_eq_add_one_of_ne_zero (Nat.ne_zero_of_lt hlt)
    rw [Range.words_part_iff (Nat.le_of_lt_succ hlt) hle']
    simp [hlt.ne]

theorem equal_ranges (hc' : r'.count ≤ greatest)
    (href' : (h.list ref').toList = r'.words.map .int) :
    h.equal (.range r) (.range r') = h.equal (.list ref) (.list ref') := by
  have hs := Range.same_iff hc hc'
  change r.same r' = (ref == ref' || ((h.list ref).size == (h.list ref').size
      && allEqual (h.equalTo ((h.containers + 1) * (h.containers + 1))) (h.list ref).toList (h.list ref').toList))
  rw [href, href', Nat.mul_add_one, ← Nat.add_assoc, allEqual_int, size_of_words href, size_of_words href']
  refine Bool.eq_iff_iff.2 ?_
  simp only [Bool.or_eq_true, Bool.and_eq_true, beq_iff_eq, decide_eq_true_eq, hs]
  constructor
  · intro h
    refine .inr ⟨?_, h⟩
    simpa [Range.words] using congrArg List.length h
  · rintro (rfl | ⟨-, h⟩)
    · exact (map_inj_right fun _ _ => Value.int.inj).1 (href.symm.trans href')
    · exact h

end

/-- **A range is like the list of its elements, except where a distance from its start is cut off.** The length, what it
contains and what it equals are those of the list. An index finds the element of the list just when the distance to the
element fits in 64 bits, and a slice has the elements of the slice of the list just when the distance to the last of
them is less than the greatest one. -/
theorem range_as_list (h : Heap) (r : Range) (ref : Nat) (hc : (h.list ref).size ≤ Word.greatest)
    (href : h.elementList (.range r) = .ok (h.list ref).toList) : h.length (.range r) = h.length (.list ref)
    ∧ (∀ (v : Value) (n : Word), v.word? = some n → h.contains (.range r) v = h.contains (.list ref) v)
    ∧ (∀ (v : Value) (i : Word) (p : Nat), v.word? = some i → p < (h.list ref).size →
        i.toInt = p ∨ i.toInt = p - (h.list ref).size →
        (h.item (.range r) v = h.item (.list ref) v ↔ Word.Fits (p * r.step.toInt)))
    ∧ (∀ lower upper first last, sliceBounds lower upper (h.list ref).size = (first, last) →
        ∃ part cell h', HeapM.slice (.range r) lower upper h = .ok (.range part) h
          ∧ HeapM.slice (.list ref) lower upper h = .ok (.list cell) h'
          ∧ (h'.elementList (.range part) = .ok (h'.list cell).toList ↔ first = last
            ∨ Word.least < (last - 1 : Int) * r.step.toInt ∧ (last - 1 : Int) * r.step.toInt < Word.greatest))
    ∧ ∀ (r' : Range) (ref' : Nat), (h.list ref').size ≤ Word.greatest →
        h.elementList (.range r') = .ok (h.list ref').toList →
        h.equal (.range r) (.range r') = h.equal (.list ref) (.list ref') := by
  have hwords {r : Range} {ref : Nat} (href : h.elementList (.range r) = .ok (h.list ref).toList) :
      (h.list ref).toList = r.words.map .int :=
    Except.ok.inj (href.symm.trans (r.elementList_eq h))
  have hw := hwords href
  rw [size_of_words hw] at hc
  refine ⟨?_, fun v n => contains_range hc hw, fun v i p hv hp => item_range hc hw hv hp,
    fun lower upper first last => slice_range hc hw, fun r' ref' hc' href' => ?_⟩
  · have hle : Word.least ≤ r.count := le_trans (by decide) (Int.natCast_nonneg _)
    rw [length, length, Range.length, Word.saturate, min_eq_left hc, max_eq_right hle, size_of_words hw]
    rfl
  · have hw' := hwords href'
    rw [size_of_words hw'] at hc'
    exact equal_ranges hc hw hc' hw'

/-- The last element before the end of 64 bits is found from the back. -/
theorem range_as_list_least :
    let h := { Heap.empty with lists := #[#[.int (-9223372036854775803), .int (-9223372036854775806)]] }
    let r : Range := ⟨-9223372036854775803, -9223372036854775808, -3, by decide⟩
    h.elementList (.range r) = .ok (h.list 0).toList
      ∧ h.item (.range r) (.int (-1)) = h.item (.list 0) (.int (-1)) := by
  intro h r
  have hlist : h.elementList (.range r) = .ok (h.list 0).toList := rfl
  obtain ⟨-, -, hitem, -⟩ := range_as_list h r 0 (by decide) hlist
  exact ⟨hlist, (hitem (.int (-1)) (-1) 1 rfl (by decide) (by decide)).2 (by decide)⟩

/-- An index of a long range does not find its element: 2 steps from the start are 2 ^ 63. -/
theorem range_index_cut_off :
    let r : Range := ⟨-9223372036854775808, 9223372036854775807, 4611686018427387904, by decide⟩
    Heap.empty.elementList (.range r)
      = .ok [.int (-9223372036854775808), .int (-4611686018427387904), .int 0, .int 4611686018427387904]
    ∧ Heap.empty.item (.range r) (.int 2) = .ok (.int (-1)) := by
  exact ⟨rfl, rfl⟩

end Heap
end Playback
