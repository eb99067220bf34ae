import Mathlib.Algebra.Group.Int.Even
import Playback.Proofs.Ranges

/-!
# Rounding and roots

Rounding to a power of ten is done step by step with 64 bits. Up to `2 ^ 62` no step leaves them, and the outcome is the
nearest multiple, the even one of two (`rounds_to_tens`). That it is nearest already makes it stay where it is and keep
the order of what is rounded.

An integer square root is searched down and then up from an estimate. The estimate decides how long the search is, but not
what it finds (`root_from_any_estimate`).
-/

namespace Playback

open Word Int64

variable {i j m k p q s : Int}

/-! ## The nearest multiple -/

/-- `m` is the multiple of `scale` nearest to `i`; of two that are as near it is the even one. -/
structure Nearest (scale i m : Int) : Prop where
  multiple : scale ∣ m
  near (k : Int) : scale ∣ k → |i - m| ≤ |i - k|
  even (k : Int) : scale ∣ k → k ≠ m → |i - k| = |i - m| → Even (m / scale)

theorem mul_apart (hs : 0 < s) (h : p < q) : p * s + s ≤ q * s := by
  have hm := mul_le_mul_of_nonneg_right (Int.add_one_le_of_lt h) hs.le
  rwa [Int.add_mul, Int.one_mul] at hm

/-- Nearest is what is at most half a step away, and only from an even multiple a whole half. -/
theorem nearest_mul_iff (hs : 0 < s) :
    Nearest s i (q * s) ↔ 2 * |i - q * s| ≤ s ∧ (2 * |i - q * s| = s → Even q) := by
  simp only [Int.abs_eq_natAbs]
  constructor
  · intro h
    have hup := h.near ((q + 1) * s) (Int.dvd_mul_left ..)
    have hlo := h.near ((q - 1) * s) (Int.dvd_mul_left ..)
    simp only [Int.abs_eq_natAbs, Int.add_mul, Int.sub_mul] at hup hlo
    refine ⟨by omega, fun ht => ?_⟩
    have he (k : Int) (hk : s ∣ k) (hne : k ≠ q * s) (heq : (i - k).natAbs = (i - q * s).natAbs) : Even q := by
      have hev := h.even k hk hne (by simp only [Int.abs_eq_natAbs]; omega)
      rwa [Int.mul_ediv_cancel q hs.ne'] at hev
    -- the other multiple as near lies on the side of `i`
    rcases Int.le_total (q * s) i with hi | hi
    · refine he ((q + 1) * s) (Int.dvd_mul_left ..) ?_ ?_ <;> rw [Int.add_mul] <;> omega
    · refine he ((q - 1) * s) (Int.dvd_mul_left ..) ?_ ?_ <;> rw [Int.sub_mul] <;> omega
  · rintro ⟨hh, he⟩
    have hap {k : Int} (hk : s ∣ k) (hne : k ≠ q * s) : k + s ≤ q * s ∨ q * s + s ≤ k := by
      obtain ⟨p, rfl⟩ := hk
      rw [Int.mul_comm] at hne ⊢
      rcases lt_trichotomy p q with h | rfl | h
      · exact .inl (mul_apart hs h)
      · exact absurd rfl hne
      · exact .inr (mul_apart hs h)
    refine ⟨Int.dvd_mul_left .., fun k hk => ?_, fun k hk hne heq => ?_⟩
    · simp only [Int.abs_eq_natAbs]
      by_cases hne : k = q * s
      · rw [hne]
      · have := hap hk hne
        omega
    · simp only [Int.abs_eq_natAbs] at heq
      rw [Int.mul_ediv_cancel q hs.ne']
      have := hap hk hne
      exact he (by omega)

namespace Nearest

theorem half (hs : 0 < s) (h : Nearest s i m) : 2 * |i - m| ≤ s := by
  obtain ⟨q, rfl⟩ := h.multiple
  rw [Int.mul_comm s] at h ⊢
  exact ((nearest_mul_iff hs).1 h).1

theorem mono (hs : 0 < s) (h : Nearest s i m) (h' : Nearest s j k) (hij : i ≤ j) : m ≤ k := by
  obtain ⟨q, rfl⟩ := h.multiple
  obtain ⟨p, rfl⟩ := h'.multiple
  rw [Int.mul_comm s] at h h' ⊢
  rw [Int.mul_comm s]
  obtain ⟨hh, he⟩ := (nearest_mul_iff hs).1 h
  obtain ⟨hh', he'⟩ := (nearest_mul_iff hs).1 h'
  simp only [Int.abs_eq_natAbs] at hh he hh' he'
  by_contra hlt
  have hpq : p < q := lt_of_mul_lt_mul_right (not_le.1 hlt) hs.le
  have hap := mul_apart hs hpq
  -- both are ties between neighbours, and only one of these is even
  have hqp : q = p + 1 := by
    refine mul_right_cancel₀ hs.ne' ?_
    rw [Int.add_mul]
    omega
  have hq := he (by omega)
  have hp := he' (by omega)
  rw [hqp] at hq
  exact Int.not_even_iff_odd.2 hp.add_one hq

theorem eq_self (hm : s ∣ i) (h : Nearest s i m) : m = i := by
  have hn := h.near i hm
  rw [Int.sub_self, abs_zero, abs_nonpos_iff] at hn
  omega

end Nearest

/-! ## Words that do not wrap -/

theorem Word.toInt_remainder {a b : Word} (hb : 0 < b.toInt) : (a.remainder b).toInt = a.toInt % b.toInt := by
  have hz : (0 : Word).toInt = 0 := rfl
  have hlo := Int.emod_nonneg a.toInt hb.ne'
  have hhi := Int.emod_lt_of_pos a.toInt hb
  have hf := b.fits_toInt
  have ht := @Int.tmod_eq_emod a.toInt b.toInt
  unfold Word.remainder
  simp only [lt_iff_toInt_lt, toInt_mod]
  split at ht <;> rename_i hs
  · rw [if_neg (by omega), toInt_mod]
    omega
  · rw [if_pos (by omega), toInt_add, toInt_mod, Fits.bmod]
    · omega
    · unfold Fits least greatest at *
      omega

/-- No step of `roundTo` leaves 64 bits: each word is what the step gives on integers. -/
structure RoundsExactly (i scale : Word) : Prop where
  remainder : (i.remainder scale).toInt = i.toInt % scale.toInt
  base : (i - i.remainder scale).toInt = i.toInt - (i.remainder scale).toInt
  twice : (i.remainder scale * 2).toInt = (i.remainder scale).toInt * 2
  quotient : ((i - i.remainder scale) / scale).toInt = (i - i.remainder scale).toInt.tdiv scale.toInt
  next : (i - i.remainder scale + scale).toInt = (i - i.remainder scale).toInt + scale.toInt

variable {w scale places : Word}

theorem roundsExactly (hs : 0 < scale.toInt) (hs' : scale.toInt * 2 ≤ greatest)
    (hw : |w.toInt| + scale.toInt ≤ greatest) : RoundsExactly w scale := by
  have hr := toInt_remainder (a := w) hs
  have hlo := Int.emod_nonneg w.toInt hs.ne'
  have hhi := Int.emod_lt_of_pos w.toInt hs
  rw [Int.abs_eq_natAbs] at hw
  unfold greatest at hs' hw
  have hb : (w - w.remainder scale).toInt = w.toInt - (w.remainder scale).toInt := by
    rw [toInt_sub, Fits.bmod]
    unfold Fits least greatest
    omega
  refine ⟨hr, hb, ?_, ?_, ?_⟩
  · have htwo : (2 : Word).toInt = 2 := rfl
    rw [toInt_mul, htwo, Fits.bmod]
    unfold Fits least greatest
    omega
  · refine toInt_div_of_ne_left _ _ fun hmin => ?_
    have hmin' : (Int64.minValue).toInt = -0x8000000000000000 := rfl
    rw [hmin] at hb
    omega
  · rw [toInt_add, Fits.bmod]
    unfold Fits least greatest
    omega

theorem roundTo_nearest (hs : 0 < scale.toInt) (h : RoundsExactly w scale) :
    Nearest scale.toInt w.toInt (roundTo w scale).toInt := by
  obtain ⟨hr, hb, ht, hq, hn⟩ := h
  have hlo := Int.emod_nonneg w.toInt hs.ne'
  have hhi := Int.emod_lt_of_pos w.toInt hs
  have hdm := Int.mul_ediv_add_emod w.toInt scale.toInt
  rw [Int.mul_comm] at hdm
  have hbase : (w - w.remainder scale).toInt = w.toInt / scale.toInt * scale.toInt := by omega
  have hnext : (w - w.remainder scale + scale).toInt = (w.toInt / scale.toInt + 1) * scale.toInt := by
    rw [Int.add_mul]
    omega
  have hpar : (w - w.remainder scale) / scale % 2 = 0 ↔ Even (w.toInt / scale.toInt) := by
    have htwo : (2 : Word).toInt = 2 := rfl
    have hz : (0 : Word).toInt = 0 := rfl
    rw [← toInt_inj, toInt_mod, hq, hbase, Int.mul_tdiv_cancel _ hs.ne', htwo, hz, even_iff_two_dvd,
      Int.dvd_iff_tmod_eq_zero]
  unfold roundTo
  simp only [lt_iff_toInt_lt, hpar]
  split
  · rw [hbase, nearest_mul_iff hs, Int.abs_eq_natAbs]
    exact ⟨by omega, fun _ => by omega⟩
  split
  · rw [hnext, nearest_mul_iff hs, Int.abs_eq_natAbs]
    exact ⟨by omega, fun _ => by omega⟩
  split
  · rename_i he
    rw [hbase, nearest_mul_iff hs, Int.abs_eq_natAbs]
    exact ⟨by omega, fun _ => he⟩
  · rename_i he
    rw [hnext, nearest_mul_iff hs, Int.abs_eq_natAbs]
    exact ⟨by omega, fun _ => (Int.not_even_iff_odd.1 he).add_one⟩

/-! ## Powers of ten -/

theorem toInt_powerOfTen (hp : -18 ≤ places.toInt ∧ places.toInt < 0) :
    let scale : Word := Int64.ofNat (Nat.pow 10 (-places.toInt).toNat)
    scale.toInt = 10 ^ (-places.toInt).toNat ∧ 0 < scale.toInt ∧ scale.toInt ≤ 10 ^ 18 := by
  have hpos : 0 < 10 ^ (-places.toInt).toNat := Nat.pow_pos (by decide)
  have hle : 10 ^ (-places.toInt).toNat ≤ 10 ^ 18 := Nat.pow_le_pow_right (by decide) (by omega)
  have ht : (Int64.ofNat (10 ^ (-places.toInt).toNat)).toInt = (10 ^ (-places.toInt).toNat : Nat) :=
    toInt_ofNat_of_lt (by omega)
  refine ⟨ht.trans (by push_cast; rfl), ?_, ?_⟩
  · exact ht ▸ Int.natCast_pos.2 hpos
  · exact ht ▸ Int.ofNat_le.2 hle

theorem roundInt_nearest (hp : -18 ≤ places.toInt ∧ places.toInt < 0) (hw : |w.toInt| ≤ 2 ^ 62 + 10 ^ 18) :
    RoundsExactly w (Int64.ofNat (Nat.pow 10 (-places.toInt).toNat))
      ∧ Nearest (10 ^ (-places.toInt).toNat) w.toInt (roundInt w places).toInt := by
  obtain ⟨ht, hpos, hle⟩ := toInt_powerOfTen hp
  have he : RoundsExactly w _ := roundsExactly hpos (by unfold greatest; omega) (by unfold greatest; omega)
  refine ⟨he, ?_⟩
  unfold roundInt
  rw [if_neg (by omega), if_neg (by omega), ← ht]
  exact roundTo_nearest hpos he

theorem callBuiltin_round {a b : Value} (ha : a.word? = some w) (hb : b.word? = some places) (h : Heap) :
    HeapM.callBuiltin .round [a, b] [] h = .ok (.int (roundInt w places)) h := by
  have hr : roundedTo a (some b) = .ok (.int (roundInt w places)) := by
    have hg : b.given? = some b := by
      cases b with
      | none => cases hb
      | _ => rfl
    unfold roundedTo Value.index roundValue
    simp only [Option.bind_some, hg, hb, Arithmetic.quantity?_of_word? ha]
    rfl
  change HeapM.lift (roundedTo a (some b)) h = _
  rw [hr]
  rfl

/-- **Integers are rounded to tens exactly.** For integers up to `2 ^ 62` and at most eighteen places no step leaves 64
bits, and the outcome is the nearest multiple of the power of ten, the even one of two. Rounded again it stays, and
greater integers are not rounded to lesser ones. -/
theorem rounds_to_tens {a b : Value} {i n : Word} (ha : a.word? = some i) (hb : b.word? = some n)
    (hi : |i.toInt| ≤ 2 ^ 62) (hn : -18 ≤ n.toInt ∧ n.toInt < 0) (h : Heap) :
    ∃ m : Word, HeapM.callBuiltin .round [a, b] [] h = .ok (.int m) h
      ∧ Nearest (10 ^ (-n.toInt).toNat) i.toInt m.toInt
      ∧ RoundsExactly i (Int64.ofNat (Nat.pow 10 (-n.toInt).toNat))
      ∧ HeapM.callBuiltin .round [.int m, b] [] h = .ok (.int m) h
      ∧ ∀ (c : Value) (j : Word), c.word? = some j → |j.toInt| ≤ 2 ^ 62 → i.toInt ≤ j.toInt →
        ∃ k : Word, HeapM.callBuiltin .round [c, b] [] h = .ok (.int k) h ∧ m.toInt ≤ k.toInt := by
  obtain ⟨ht, hpos, hle⟩ := toInt_powerOfTen hn
  obtain ⟨he, hne⟩ := roundInt_nearest hn (by omega : |i.toInt| ≤ 2 ^ 62 + 10 ^ 18)
  rw [ht] at hpos hle
  refine ⟨roundInt i n, callBuiltin_round ha hb h, hne, he, ?_, fun c j hc hj hij => ?_⟩
  · have hh := hne.half hpos
    rw [Int.abs_eq_natAbs] at hh hi
    have hm := (roundInt_nearest hn (w := roundInt i n) (by rw [Int.abs_eq_natAbs]; omega)).2
    rw [callBuiltin_round rfl hb, toInt_inj.1 (hm.eq_self hne.multiple)]
  · exact ⟨roundInt j n, callBuiltin_round hc hb h, hne.mono hpos (roundInt_nearest hn (by omega)).2 hij⟩

theorem rounds_to_tens_half : (Value.int (-25)).word? = some (-25) ∧ (Value.int (-1)).word? = some (-1)
    ∧ |(-25 : Word).toInt| ≤ 2 ^ 62 ∧ (-18 ≤ (-1 : Word).toInt ∧ (-1 : Word).toInt < 0)
    ∧ ∃ m : Word, HeapM.callBuiltin .round [.int (-25), .int (-1)] [] .empty = .ok (.int m) .empty
      ∧ Nearest 10 (-25) m.toInt ∧ m = -20 := by
  obtain ⟨m, hc, hm, -⟩ := rounds_to_tens (a := .int (-25)) (b := .int (-1)) rfl rfl (by decide) (by decide) .empty
  refine ⟨rfl, rfl, by decide, by decide, m, hc, hm, ?_⟩
  rw [callBuiltin_round rfl rfl] at hc
  cases hc
  decide

/-! ## Square roots -/

theorem Word.isRootOf_iff (r n : Word) : r.isRootOf n = true ↔ r.toInt * r.toInt ≤ n.toInt := by
  have hz := mul_self_nonneg r.toInt
  have hn := n.fits_toInt
  unfold Word.isRootOf ofInt?
  by_cases hf : Fits (r.toInt * r.toInt)
  · rw [if_pos (show least ≤ _ ∧ _ from hf)]
    rw [Option.any_some, decide_eq_true_iff, le_iff_toInt_le, toInt_ofInt hf]
  · rw [if_neg (show ¬ (least ≤ _ ∧ _) from hf)]
    unfold Fits least at *
    simp
    omega

variable {n r : Word}

/-- The search down from an estimate ends, at zero at the latest. -/
theorem lowerRoot_ends (hn : 0 ≤ n.toInt) (hr : 0 ≤ r.toInt) :
    ∃ r', lowerRoot n r = some r' ∧ 0 ≤ r'.toInt ∧ r'.toInt * r'.toInt ≤ n.toInt := by
  fun_induction lowerRoot n r with
  | case1 r hw => exact ⟨r, rfl, hr, (isRootOf_iff r n).1 hw⟩
  | case2 => exact absurd hr (by decide)
  | case3 r hw hne ih =>
    have hpos : 0 < r.toInt := hr.lt_of_ne fun hz => hw ((isRootOf_iff r n).2 (by rw [← hz]; exact hn))
    have hb := toInt_sub_one hne
    exact ih (by omega)

/-- The search up from a root that is not too great ends below the next one, and what is tried on the way fits. -/
theorem raiseRoot_ends (hr : 0 ≤ r.toInt) (hle : r.toInt * r.toInt ≤ n.toInt) :
    ∃ r', raiseRoot n r = some r' ∧ 0 ≤ r'.toInt ∧ r'.toInt * r'.toInt ≤ n.toInt
      ∧ n.toInt < (r'.toInt + 1) * (r'.toInt + 1) := by
  fun_induction raiseRoot n r with
  | case1 => exact absurd (hle.trans n.fits_toInt.2) (by decide)
  | case2 r hne hw ih =>
    have hx := toInt_add_one hne
    exact ih (by omega) ((isRootOf_iff _ n).1 hw)
  | case3 r hne hw =>
    rw [isRootOf_iff, not_le, toInt_add_one hne] at hw
    exact ⟨r, rfl, hr, hle, hw⟩

/-- There is one root at most, and it is not negative. -/
theorem root_unique (hq : q * q ≤ k ∧ k < (q + 1) * (q + 1)) (hp : p * p ≤ k ∧ k < (p + 1) * (p + 1)) : q = p := by
  have hq' : 0 ≤ q := by nlinarith
  have hp' : 0 ≤ p := by nlinarith
  have hlt : q < p + 1 := lt_of_mul_self_lt_mul_self₀ (by omega) (by omega)
  have hlt' : p < q + 1 := lt_of_mul_self_lt_mul_self₀ (by omega) (by omega)
  omega

theorem rootFrom_ends (hn : 0 ≤ n.toInt) (hr : 0 ≤ r.toInt) : ∃ r' : Word, rootFrom n r = some r'
    ∧ ∀ q : Int, q * q ≤ n.toInt ∧ n.toInt < (q + 1) * (q + 1) ↔ q = r'.toInt := by
  obtain ⟨low, hl, hlow, hsq⟩ := lowerRoot_ends hn hr
  obtain ⟨r', hr', -, hle, hlt⟩ := raiseRoot_ends hlow hsq
  refine ⟨r', ?_, fun q => ⟨fun hq => root_unique hq ⟨hle, hlt⟩, fun hq => hq ▸ ⟨hle, hlt⟩⟩⟩
  rw [rootFrom, hl]
  exact hr'

/-- **The integer square root is exact whatever it is estimated to be.** From any estimate the search ends without a step
that leaves 64 bits, at the one integer whose square is not greater while that of the next is. This is what programs get. -/
theorem root_from_any_estimate {n e : Word} (hn : 0 ≤ n.toInt) (h₀ : 0 ≤ e.toInt) :
    ∃ r : Word, rootFrom n e = some r
      ∧ (∀ q : Int, q * q ≤ n.toInt ∧ n.toInt < (q + 1) * (q + 1) ↔ q = r.toInt)
      ∧ ∀ (v : Value) (h : Heap), v.word? = some n → HeapM.callBuiltin .isqrt [v] [] h = .ok (.int r) h := by
  obtain ⟨r, hr, hu⟩ := rootFrom_ends hn h₀
  refine ⟨r, hr, hu, fun v h hv => ?_⟩
  have hi : intRoot n = r := by
    unfold intRoot
    extract_lets estimate
    have he : 0 ≤ estimate.toInt := by
      rw [toInt_saturate]
      unfold least greatest
      omega
    obtain ⟨r', hr', hu'⟩ := rootFrom_ends hn he
    rw [hr']
    exact toInt_inj.1 ((hu r'.toInt).1 ((hu' r'.toInt).2 rfl))
  have ho : rootOf v = .ok (.int r) := by
    unfold rootOf Value.index
    rw [hv, ← hi]
    exact if_neg (by omega)
  change HeapM.lift (rootOf v) h = _
  rw [ho]
  rfl

theorem root_from_any_estimate_greatest : 0 ≤ Int64.maxValue.toInt ∧ 0 ≤ (4 : Word).toInt
    ∧ ∃ r : Word, rootFrom Int64.maxValue 4 = some r
      ∧ HeapM.callBuiltin .isqrt [.int Int64.maxValue] [] .empty = .ok (.int r) .empty ∧ r = 3037000499 := by
  obtain ⟨r, hr, hu, hc⟩ := root_from_any_estimate (n := Int64.maxValue) (e := 4) (by decide) (by decide)
  exact ⟨by decide, by decide, r, hr, hc _ _ rfl, toInt_inj.1 ((hu 3037000499).1 (by decide)).symm⟩

end Playback
