import Mathlib.Data.Int.Bitwise
import Mathlib.Data.Rat.Floor
import Mathlib.Tactic.Linarith
import Playback.Function.Call

/-!
# Integers are exact

What an operator makes of two integers is an integer without a bound, `BinaryOp.exact`, or nothing: there is no quotient
by zero and no shift by a negative count. A program gets exactly that integer if it fits 64 bits, and an overflow if
it does not (`integers_exact`). Bits are those of the two's complement without an end, quotients are rounded down.
-/

namespace Playback

variable {i j : Int}

namespace Word

def Fits (i : Int) : Prop :=
  least ≤ i ∧ i ≤ greatest

instance (i : Int) : Decidable (Fits i) := inferInstanceAs (Decidable (_ ∧ _))

theorem fits_toInt (w : Word) : Fits w.toInt := by
  have hlo := Int64.le_toInt w
  have hhi := Int64.toInt_lt w
  unfold Fits least greatest
  omega

theorem toInt_ofInt (h : Fits i) : (Int64.ofInt i).toInt = i := by
  unfold Fits least greatest at h
  exact Int64.toInt_ofInt_of_le (by omega) (by omega)

/-- Arithmetic on words does not wrap where its exact result fits. -/
theorem Fits.bmod (h : Fits i) : i.bmod (2 ^ 64) = i := by
  unfold Fits least greatest at h
  exact Int.bmod_eq_of_le (by omega) (by omega)

theorem testBit_toInt (w : Word) (k : Nat) :
    w.toInt.testBit k = if k < 64 then w.toBitVec.getLsbD k else w.toBitVec.msb := by
  have hlt := w.toBitVec.isLt
  have hf (hk : ¬ k < 64) : w.toBitVec.toNat.testBit k = false :=
    Nat.testBit_lt_two_pow (Nat.lt_of_lt_of_le hlt (Nat.pow_le_pow_right (by omega) (by omega)))
  change w.toBitVec.toInt.testBit k = _
  rw [BitVec.toInt_eq_msb_cond, BitVec.getLsbD]
  cases w.toBitVec.msb with
  | false =>
    rw [if_neg Bool.false_ne_true]
    split
    · rfl
    · rename_i hk
      exact hf hk
  | true =>
    have hn : ((w.toBitVec.toNat : Int) - (2 ^ 64 : Nat)) = Int.negSucc (2 ^ 64 - (w.toBitVec.toNat + 1)) := by omega
    rw [hn]
    change (!(2 ^ 64 - (w.toBitVec.toNat + 1)).testBit k) = _
    rw [Nat.testBit_two_pow_sub_succ hlt]
    by_cases hk : k < 64 <;> simp [hk]

end Word

theorem eq_of_testBit (h : ∀ k, i.testBit k = j.testBit k) : i = j := by
  have hf (m n : Nat) : ∃ k, m.testBit k = false ∧ n.testBit k = false :=
    ⟨m + n, Nat.testBit_lt_two_pow (Nat.lt_of_le_of_lt (by omega) (m + n).lt_two_pow_self),
      Nat.testBit_lt_two_pow (Nat.lt_of_le_of_lt (by omega) (m + n).lt_two_pow_self)⟩
  match i, j with
  | .ofNat m, .ofNat n => exact congrArg _ (Nat.eq_of_testBit_eq h)
  | .negSucc m, .negSucc n => exact congrArg _ (Nat.eq_of_testBit_eq fun k => Bool.not_inj (h k))
  | .ofNat m, .negSucc n | .negSucc m, .ofNat n =>
    obtain ⟨k, hm, hn⟩ := hf m n
    have hk := h k
    simp [Int.testBit, hm, hn] at hk

theorem toInt_lnot (x : Word) : (~~~x).toInt = -x.toInt - 1 := by
  have hlo := Int64.le_toInt x
  have hhi := Int64.toInt_lt x
  rw [Int64.toInt_not, Int.bmod_eq_of_le (by omega) (by omega)]

/-! ## What operators make of integers -/

def BinaryOp.isExact : BinaryOp → Bool
  | .div | .matMul => false
  | _ => true

/-- The integer that an operator makes of two, however large, or the exception if there is none. A power has no
negative exponent. -/
def BinaryOp.exact (op : BinaryOp) (a b : Int) : Except ExceptionKind Int :=
  match op with
  | .add => .ok (a + b)
  | .sub => .ok (a - b)
  | .mul => .ok (a * b)
  | .floorDiv => if b = 0 then .error .zeroDivision else .ok ⌊(a / b : ℚ)⌋
  | .mod => if b = 0 then .error .zeroDivision else .ok (a - ⌊(a / b : ℚ)⌋ * b)
  | .pow => .ok (a ^ b.toNat)
  | .shiftLeft => if b < 0 then .error .valueError else .ok (a * 2 ^ b.toNat)
  | .shiftRight => if b < 0 then .error .valueError else .ok ⌊(a / 2 ^ b.toNat : ℚ)⌋
  | .bitAnd => .ok (a.land b)
  | .bitOr => .ok (a.lor b)
  | .bitXor => .ok (a.xor b)
  | .div | .matMul => .error .typeError

/-- The integer that an operator in front of an integer makes of it. -/
def UnaryOp.exact (op : UnaryOp) (a : Int) : Int :=
  match op with
  | .minus => -a
  | .invert => -a - 1
  | .plus | .not => a

namespace Arithmetic

/-- An outcome is an integer if the integer fits, and an overflow otherwise; if there is none it is the exception. -/
def Comes (exact : Except ExceptionKind Int) (result : Except Fault Value) : Prop :=
  match exact with
  | .error kind => ∃ fault, result = .error fault ∧ fault.kind = kind
  | .ok i =>
    if Word.Fits i then ∃ v w, result = .ok v ∧ v.word? = some w ∧ w.toInt = i
    else ∃ fault, result = .error fault ∧ fault.kind = .overflow

theorem Comes.word (h : w.toInt = i) : Comes (.ok i) (.ok (.int w)) := by
  unfold Comes
  dsimp only
  rw [if_pos (h ▸ w.fits_toInt)]
  exact ⟨_, w, rfl, rfl, h⟩

theorem Comes.overflow (h : ¬ Word.Fits i) (operation : String) : Comes (.ok i) (.error (.overflow operation)) := by
  unfold Comes
  dsimp only
  rw [if_neg h]
  exact ⟨_, rfl, rfl⟩

theorem Comes.checked (operation : String) (i : Int) : Comes (.ok i) (checked operation i) := by
  unfold Arithmetic.checked Word.ofInt?
  by_cases hi : Word.Fits i
  · rw [if_pos (show Word.least ≤ i ∧ i ≤ Word.greatest from hi)]
    exact .word (Word.toInt_ofInt hi)
  · rw [if_neg (show ¬ (Word.least ≤ i ∧ i ≤ Word.greatest) from hi)]
    exact .overflow hi _

/-! ### Quotients and remainders -/

theorem fdiv_eq_floor (a b : Int) : a.fdiv b = ⌊(a / b : ℚ)⌋ := by
  have hn (a : Int) (n : Nat) : a.fdiv n = ⌊(a / n : ℚ)⌋ := by
    rw [Int.fdiv_eq_ediv_of_nonneg a (Int.natCast_nonneg n)]
    exact (Rat.floor_intCast_div_natCast a n).symm
  obtain ⟨n, rfl | rfl⟩ := Int.eq_nat_or_neg b
  · exact hn a n
  · rw [← Int.neg_fdiv_neg, Int.neg_neg, hn (-a) n]
    push_cast
    rw [neg_div, div_neg]

theorem fmod_eq (a b : Int) : a.fmod b = a - ⌊(a / b : ℚ)⌋ * b := by
  rw [← fdiv_eq_floor, Int.fmod_def, Int.mul_comm]

/-- Rounding down differs from rounding towards zero where something is left over and the signs differ. -/
theorem fdiv_fmod_eq (i : Int) (hj : j ≠ 0) :
    let off := i.tmod j ≠ 0 ∧ ¬(i < 0 ↔ j < 0)
    i.fdiv j = (if off then i.tdiv j - 1 else i.tdiv j) ∧ i.fmod j = if off then i.tmod j + j else i.tmod j := by
  rw [Int.fdiv_eq_tdiv, Int.fmod_eq_tmod]
  simp only [Int.dvd_iff_tmod_eq_zero]
  rcases hj.lt_or_gt with h | h
  · rw [Int.sign_eq_neg_one_of_neg h]
    grind
  · rw [Int.sign_eq_one_of_pos h]
    grind

/-- What is left over has the sign of what is divided. -/
theorem tmod_neg_iff (h : i.tmod j ≠ 0) : i.tmod j < 0 ↔ i < 0 := by
  rcases Int.lt_or_le i 0 with hi | hi
  · have hn := Int.tmod_nonneg j (Int.neg_nonneg_of_nonpos hi.le)
    rw [Int.neg_tmod] at hn
    omega
  · have hn := Int.tmod_nonneg j hi
    omega

section

variable {x y : Word}

/-- The one quotient that does not fit leaves nothing over. -/
theorem quotient?_cases (hy : y.toInt ≠ 0) : (quotient? x y = none ∧ x = Int64.minValue ∧ y = -1)
    ∨ quotient? x y = some (x / y) ∧ (x / y).toInt = x.toInt.tdiv y.toInt := by
  have hz : y ≠ 0 := fun h => hy (h ▸ rfl)
  by_cases ho : x = Int64.minValue ∧ y = -1
  · exact .inl ⟨by simp [quotient?, ho], ho⟩
  · refine .inr ⟨by simp [quotient?, hz]; tauto, ?_⟩
    by_cases hx : x = Int64.minValue
    · exact Int64.toInt_div_of_ne_right x y fun hy => ho ⟨hx, hy⟩
    · exact Int64.toInt_div_of_ne_left x y hx

theorem natAbs_tmod_lt (i : Int) (hj : j ≠ 0) : (i.tmod j).natAbs < j.natAbs := by
  rw [Int.natAbs_tmod]
  exact Nat.mod_lt _ (Int.natAbs_pos.2 hj)

/-- One less than a quotient is still an integer of 64 bits, as something is left over. -/
theorem fits_tdiv_sub_one (hy : y.toInt ≠ 0) (hr : x.toInt.tmod y.toInt ≠ 0) :
    Word.Fits (x.toInt.tdiv y.toInt - 1) := by
  have hx := x.fits_toInt
  have hlt := natAbs_tmod_lt x.toInt hy
  have hle : (x.toInt.tdiv y.toInt).natAbs ≤ x.toInt.natAbs / 2 := by
    rw [Int.natAbs_tdiv]
    exact Nat.div_le_div_left (by omega) (by decide)
  generalize x.toInt.tdiv y.toInt = q at hle ⊢
  unfold Word.Fits Word.least Word.greatest at *
  omega

theorem zero_or (y : Word) : y = 0 ∨ y.toInt ≠ 0 ∧ (y == 0) = false := by
  simpa [← Int64.toInt_inj] using eq_or_ne y.toInt 0

theorem intFloorDivide_comes (x y : Word) :
    Comes (BinaryOp.floorDiv.exact x.toInt y.toInt) (intFloorDivide x y) := by
  obtain rfl | ⟨hy, hz⟩ := zero_or y
  · exact ⟨_, rfl, rfl⟩
  rw [BinaryOp.exact, if_neg hy, ← fdiv_eq_floor, intFloorDivide, hz]
  rcases quotient?_cases (x := x) hy with ⟨hq, rfl, rfl⟩ | ⟨hq, ht⟩
  · exact hq ▸ .overflow (by decide) _
  · refine hq ▸ .word (w := floorQuotient x y) ?_
    rw [(fdiv_fmod_eq x.toInt hy).1, floorQuotient]
    simp only [bne_iff_ne, Bool.and_eq_true, ne_eq, decide_eq_decide, Int64.lt_iff_toInt_lt, ← Int64.toInt_inj,
      Int64.toInt_mod, Int64.toInt_zero]
    split
    · rename_i hoff
      rw [Int64.toInt_sub, ht]
      exact (fits_tdiv_sub_one hy hoff.1).bmod
    · exact ht

theorem intModulo_comes (x y : Word) : Comes (BinaryOp.mod.exact x.toInt y.toInt) (intModulo x y) := by
  obtain rfl | ⟨hy, hz⟩ := zero_or y
  · exact ⟨_, rfl, rfl⟩
  rw [BinaryOp.exact, if_neg hy, ← fmod_eq, intModulo, hz]
  rcases quotient?_cases (x := x) hy with ⟨hq, rfl, rfl⟩ | ⟨hq, -⟩
  · rw [hq]
    exact .word rfl
  · rw [hq, (fdiv_fmod_eq x.toInt hy).2]
    refine .word ?_
    simp only [Option.map_some, Option.getD_some, bne_iff_ne, Bool.and_eq_true, ne_eq, decide_eq_decide,
      Int64.lt_iff_toInt_lt, ← Int64.toInt_inj, Int64.toInt_mod, Int64.toInt_zero]
    by_cases hr : x.toInt.tmod y.toInt = 0
    · simp [hr]
    · have hs := tmod_neg_iff hr
      simp only [hr, hs, not_false_eq_true, true_and]
      split
      · have hlt := natAbs_tmod_lt x.toInt hy
        have hfits := y.fits_toInt
        rw [Int64.toInt_add, Int64.toInt_mod, Word.Fits.bmod]
        unfold Word.Fits Word.least Word.greatest at *
        omega
      · exact Int64.toInt_mod x y

/-! ### Powers -/

/-- What does not fit does not come to fit by a positive factor. -/
theorem not_fits_mul (hi : ¬ Word.Fits i) (hs : 0 < s) : ¬ Word.Fits (i * s) := by
  unfold Word.Fits Word.least Word.greatest at *
  rcases not_and_or.1 hi with h | h
  · exact fun hf => h (by nlinarith [hf.1])
  · exact fun hf => h (by nlinarith [hf.2])

/-- A square that does not fit does not fit with a negative sign either: no square is the distance to the least. -/
theorem not_fits_neg_square (hj : ¬ Word.Fits (j * j)) : ¬ Word.Fits (-(j * j)) := by
  unfold Word.Fits Word.least Word.greatest at *
  rcases le_or_gt |j| 3037000499 with h | h
  · have := abs_le.1 h
    exact absurd ⟨by nlinarith, by nlinarith⟩ hj
  · have := abs_mul_abs_self j
    rintro ⟨hlo, -⟩
    nlinarith

theorem not_fits_mul_square (hj : ¬ Word.Fits (j * j)) (hs : s ≠ 0) : ¬ Word.Fits (j * j * s) := by
  rcases hs.lt_or_gt with h | h
  · rw [← neg_mul_neg]
    exact not_fits_mul (not_fits_neg_square hj) (Int.neg_pos_of_neg h)
  · exact not_fits_mul hj h

theorem product?_cases (x y : Word) : ¬ Word.Fits (x.toInt * y.toInt) ∧ product? x y = none
    ∨ ∃ z : Word, product? x y = some z ∧ z.toInt = x.toInt * y.toInt := by
  by_cases h : Word.Fits (x.toInt * y.toInt)
  · exact .inr ⟨_, if_pos h, Word.toInt_ofInt h⟩
  · exact .inl ⟨h, if_neg h⟩

/-- **A power is found if it fits**: where a product on the way does not fit, the power does not fit either. -/
theorem powerFrom_comes (operation : String) (bits n : Nat) (hn : n < 2 ^ bits) (hx : y.toInt ≠ 0 → x.toInt ≠ 0) :
    Comes (.ok (x.toInt * y.toInt ^ n)) (fitting operation (powerFrom x y n bits)) := by
  induction bits generalizing x y n with
  | zero =>
    obtain rfl : n = 0 := by omega
    exact .word (by simp)
  | succ bits ih =>
    have hpow : y.toInt ^ n = y.toInt ^ (n % 2) * (y.toInt * y.toInt) ^ (n / 2) := by
      rw [← pow_two, ← pow_mul, ← pow_add, Nat.mod_add_div]
    -- the product with the odd bit taken in, and then the square for the other bits
    have hrest (z : Word) (hz : y.toInt ≠ 0 → z.toInt ≠ 0) :
        Comes (.ok (z.toInt * (y.toInt * y.toInt) ^ (n / 2))) (fitting operation
          (if n ≤ 1 then some z else product? y y >>= fun base => powerFrom z base (n / 2) bits)) := by
      by_cases hle : n ≤ 1
      · rw [if_pos hle, Nat.div_eq_of_lt (Nat.lt_succ_of_le hle), pow_zero, mul_one]
        exact .word rfl
      rw [if_neg hle]
      rcases product?_cases y y with ⟨hno, hp⟩ | ⟨base, hp, hb⟩
      · obtain ⟨k, hk⟩ : ∃ k, n / 2 = k + 1 := ⟨n / 2 - 1, by omega⟩
        have hy : y.toInt ≠ 0 := by
          intro h0
          exact hno (by rw [h0]; decide)
        rw [hp, hk, pow_succ', mul_left_comm]
        exact .overflow (not_fits_mul_square hno (mul_ne_zero (hz hy) (pow_ne_zero _ (mul_ne_zero hy hy)))) _
      · rw [hp, ← hb]
        exact ih (n / 2) (by omega) fun h => hz fun h0 => h (by rw [hb, h0, mul_zero])
    rw [hpow, ← mul_assoc]
    unfold powerFrom
    rcases Nat.mod_two_eq_zero_or_one n with h0 | h1
    · rw [h0, if_neg (by decide), pow_zero, mul_one]
      exact hrest x hx
    · rw [h1, if_pos rfl, pow_one]
      rcases product?_cases x y with ⟨hno, hp⟩ | ⟨z, hp, hz⟩
      · have hy : y.toInt ≠ 0 := by
          intro h0
          exact hno (by rw [h0, mul_zero]; decide)
        rw [hp]
        exact .overflow (not_fits_mul hno (pow_pos (mul_self_pos.2 hy) _)) _
      · rw [hp, ← hz]
        exact hrest z fun hy => hz ▸ mul_ne_zero (hx hy) hy

theorem not_fits_pow (ha : 2 ≤ a.natAbs) (hn : 64 ≤ n) : ¬ Word.Fits (a ^ n) := by
  intro h
  have hp : 2 ^ 64 ≤ (a ^ n).natAbs := calc
    2 ^ 64 ≤ a.natAbs ^ 64 := Nat.pow_le_pow_left ha 64
    _ ≤ a.natAbs ^ n := Nat.pow_le_pow_right (by omega) hn
    _ = (a ^ n).natAbs := (Int.natAbs_pow a n).symm
  unfold Word.Fits Word.least Word.greatest at h
  omega

theorem intPower_comes (x y : Word) (hy : 0 ≤ y.toInt) :
    Comes (BinaryOp.pow.exact x.toInt y.toInt) (intPower x y) := by
  have hodd : (y % 2 = 0) ↔ y.toInt.toNat % 2 = 0 := by
    have ht := Int64.toInt_mod y 2
    rw [← Int64.toInt_inj, ht, Int.tmod_eq_emod_of_nonneg hy]
    change y.toInt % 2 = 0 ↔ _
    omega
  rw [BinaryOp.exact, intPower, if_neg (by rw [Int64.lt_iff_toInt_lt]; exact not_lt.2 hy)]
  split
  · rename_i hl
    have hp := powerFrom_comes "**" (x := 1) (y := x) 32 y.toInt.toNat (by
      rw [Int64.lt_iff_toInt_lt] at hl
      change y.toInt < 4294967296 at hl
      omega) fun _ => by decide
    change Comes (.ok (1 * x.toInt ^ y.toInt.toNat)) _ at hp
    rwa [one_mul] at hp
  rename_i hl
  have hl : 4294967296 ≤ y.toInt.toNat := by
    rw [Int64.lt_iff_toInt_lt] at hl
    change ¬ y.toInt < 4294967296 at hl
    omega
  split
  · rename_i hb
    rcases Bool.or_eq_true_iff.1 hb with h | h
    · exact .word (by rw [beq_iff_eq.1 h, Int64.toInt_zero, zero_pow (by omega)])
    · exact .word (by rw [beq_iff_eq.1 h, Int64.toInt_one, one_pow])
  rename_i hb
  simp only [Bool.or_eq_true, beq_iff_eq, not_or] at hb
  split
  · rename_i h
    rw [beq_iff_eq.1 h]
    change Comes (.ok ((-1) ^ y.toInt.toNat)) _
    split
    · rename_i he
      exact .word (Even.neg_one_pow (Nat.even_iff.2 (hodd.1 (beq_iff_eq.1 he)))).symm
    · rename_i ho
      have ho := mt (fun h => beq_iff_eq.2 (hodd.2 h)) ho
      exact .word (Odd.neg_one_pow (Nat.odd_iff.2 (by omega))).symm
  · rename_i h
    refine .overflow (not_fits_pow ?_ (by omega)) _
    have h1 : x.toInt ≠ -1 := fun h' => h (beq_iff_eq.2 (Int64.toInt_inj.1 h'))
    have h2 : x.toInt ≠ 0 := fun h' => hb.1 (Int64.toInt_inj.1 h')
    have h3 : x.toInt ≠ 1 := fun h' => hb.2 (Int64.toInt_inj.1 h')
    omega

/-! ### Shifts -/

/-- How many places a shift goes by: below 64 the count itself. -/
theorem shift_places (hy : 0 ≤ y.toInt) (h : y.toInt < 64) : (y.toBitVec.smod 64).toNat = y.toInt.toNat := by
  have hs : (y.toBitVec.smod 64).toInt = y.toInt := by
    rw [BitVec.toInt_smod]
    exact Int.fmod_eq_of_lt hy h
  rw [BitVec.toInt_eq_toNat_cond] at hs
  split at hs <;> omega

theorem toInt_shiftRight (x : Word) (hy : 0 ≤ y.toInt) (h : y.toInt < 64) :
    (x >>> y).toInt = x.toInt / 2 ^ y.toInt.toNat := by
  change (x >>> y).toBitVec.toInt = _
  rw [Int64.toBitVec_shiftRight, BitVec.sshiftRight_eq', BitVec.toInt_sshiftRight, shift_places hy h,
    Int.shiftRight_eq_div_pow]
  rfl

theorem toInt_shiftLeft (x : Word) (hy : 0 ≤ y.toInt) (h : y.toInt < 64) :
    (x <<< y).toInt = (x.toInt * 2 ^ y.toInt.toNat).bmod (2 ^ 64) := by
  change (x <<< y).toBitVec.toInt = (x.toBitVec.toInt * _).bmod _
  rw [Int64.toBitVec_shiftLeft, BitVec.shiftLeft_eq', BitVec.toInt_shiftLeft, shift_places hy h, Nat.shiftLeft_eq,
    BitVec.toInt_eq_toNat_bmod, Int.bmod_mul_bmod]
  push_cast
  rfl

/-- **A shift to the left that can be undone is exact**: what wraps is off by a multiple of `2 ^ 64`, which is still
there after the shift to the right. -/
theorem shift_back_iff (x : Word) (hy : 0 ≤ y.toInt) (h : y.toInt < 64) :
    (x <<< y) >>> y = x ↔ Word.Fits (x.toInt * 2 ^ y.toInt.toNat) := by
  have hs := toInt_shiftLeft x hy h
  have hp : (2 : Int) ^ y.toInt.toNat ≠ 0 := by positivity
  rw [← Int64.toInt_inj, toInt_shiftRight _ hy h]
  constructor
  · intro hb
    obtain ⟨k, hk⟩ : (2 ^ 64 : Int) ∣ (x <<< y).toInt - x.toInt * 2 ^ y.toInt.toNat := hs ▸ Int.dvd_bmod_sub_self
    obtain ⟨n, hn⟩ : ∃ n : Nat, y.toInt.toNat + n = 64 := ⟨64 - y.toInt.toNat, by omega⟩
    have hx : (x <<< y).toInt = (x.toInt + 2 ^ n * k) * 2 ^ y.toInt.toNat := by
      rw [← hn, pow_add] at hk
      linarith
    rw [hx, Int.mul_ediv_cancel _ hp] at hb
    have hk : 2 ^ n * k = 0 := by omega
    rw [hk, Int.add_zero] at hx
    exact hx ▸ (x <<< y).fits_toInt
  · intro hf
    rw [hs, hf.bmod, Int.mul_ediv_cancel _ hp]

theorem shiftLeft_comes (x y : Word) : Comes (BinaryOp.shiftLeft.exact x.toInt y.toInt) (shiftLeft x y) := by
  have hz : y < 0 ↔ y.toInt < 0 := Int64.lt_iff_toInt_lt
  have hl : 64 ≤ y ↔ 64 ≤ y.toInt := Int64.le_iff_toInt_le
  simp only [BinaryOp.exact, shiftLeft, hz, hl, beq_iff_eq, bne_iff_ne]
  split
  · exact ⟨_, rfl, rfl⟩
  rename_i hy
  split
  · rename_i hx
    rw [hx]
    exact .word (Int.zero_mul _).symm
  rename_i hx
  split
  · rename_i hl
    refine .overflow (fun h => ?_) _
    obtain ⟨n, hn⟩ : ∃ n, y.toInt.toNat = 64 + n := ⟨y.toInt.toNat - 64, by omega⟩
    have hne : x.toInt ≠ 0 := fun h => hx (Int64.toInt_inj.1 h)
    have hp : (0 : Int) < 2 ^ n := by positivity
    rw [hn, pow_add] at h
    unfold Word.Fits Word.least Word.greatest at h
    rcases lt_or_gt_of_ne hne with hng | hp' <;> nlinarith
  rename_i hl
  have hb := shift_back_iff x (y := y) (by omega) (by omega)
  split
  · rename_i hne
    exact .overflow (mt hb.2 hne) _
  · rename_i heq
    have hf := hb.1 (not_not.1 heq)
    exact .word (by rw [toInt_shiftLeft x (by omega) (by omega), hf.bmod])

theorem shiftRight_comes (x y : Word) : Comes (BinaryOp.shiftRight.exact x.toInt y.toInt) (shiftRight x y) := by
  have hz : y < 0 ↔ y.toInt < 0 := Int64.lt_iff_toInt_lt
  have hl : 64 ≤ y ↔ 64 ≤ y.toInt := Int64.le_iff_toInt_le
  have hfloor : x.toInt / 2 ^ y.toInt.toNat = ⌊(x.toInt / 2 ^ y.toInt.toNat : ℚ)⌋ := by
    rw [← Int.fdiv_eq_ediv_of_nonneg _ (by positivity), fdiv_eq_floor]
    push_cast
    rfl
  simp only [BinaryOp.exact, shiftRight, hz, hl, ← hfloor]
  split
  · exact ⟨_, rfl, rfl⟩
  refine .word ?_
  split
  · -- from 64 places on nothing but the sign is left
    have hx := x.fits_toInt
    have hle : (2 : Int) ^ 64 ≤ 2 ^ y.toInt.toNat := pow_le_pow_right₀ (by omega) (by omega)
    have hn : x < 0 ↔ x.toInt < 0 := Int64.lt_iff_toInt_lt
    unfold Word.Fits Word.least Word.greatest at hx
    simp only [hn]
    split
    · exact (Int.ediv_eq_neg_one_of_neg_of_le ‹_› (by omega)).symm
    · exact (Int.ediv_eq_zero_of_lt (by omega) (by omega)).symm
  · exact toInt_shiftRight x (by omega) (by omega)

end

theorem onInts_comes (hop : op.isExact = true) (x y : Word) (hy : op = .pow → 0 ≤ y.toInt) :
    Comes (op.exact x.toInt y.toInt) (onInts op x y) := by
  cases op with
  | add | sub | mul => exact .checked _ _
  | floorDiv => exact intFloorDivide_comes x y
  | mod => exact intModulo_comes x y
  | pow => exact intPower_comes x y (hy rfl)
  | shiftLeft => exact shiftLeft_comes x y
  | shiftRight => exact shiftRight_comes x y
  | bitAnd | bitOr | bitXor =>
    refine .word (eq_of_testBit fun k => ?_)
    simp only [Int.testBit_land, Int.testBit_lor, Int.testBit_lxor, Word.testBit_toInt]
    split <;> simp
  | div | matMul => cases hop

/-! ## Values that are integers -/

variable {a b : Value} {x y : Word}

theorem quantity?_of_word? (h : a.word? = some x) : a.quantity? = some (.int x) := by
  cases a with
  | bool | int =>
    cases h
    rfl
  | _ => cases h

theorem binary_comes (ha : a.word? = some x) (hb : b.word? = some y) (op : BinaryOp) (hop : op.isExact = true)
    (hy : op = .pow → 0 ≤ y.toInt) : ∃ r, HeapM.binary op a b = HeapM.lift r ∧ Comes (op.exact x.toInt y.toInt) r := by
  by_cases hbi : ∃ p q, a = .bool p ∧ b = .bool q ∧ (op = .bitAnd ∨ op = .bitOr ∨ op = .bitXor)
  · -- two booleans stay booleans
    obtain ⟨p, q, rfl, rfl, hop⟩ := hbi
    cases ha
    cases hb
    rcases hop with rfl | rfl | rfl <;> cases p <;> cases q <;> exact ⟨_, rfl, _, _, rfl, rfl, by decide⟩
  · refine ⟨onInts op x y, ?_, onInts_comes hop x y hy⟩
    have hv : onValues? op a b = some (onInts op x y) := by
      unfold onValues?
      split
      · cases hop
      · exact absurd ⟨_, _, rfl, rfl, .inr (.inl rfl)⟩ hbi
      · exact absurd ⟨_, _, rfl, rfl, .inr (.inr rfl)⟩ hbi
      · exact absurd ⟨_, _, rfl, rfl, .inl rfl⟩ hbi
      · rw [quantity?_of_word? ha, quantity?_of_word? hb]
    unfold HeapM.binary
    rw [hv]

theorem unary_comes (ha : a.word? = some x) (truthy : Value → Bool) (hop : op ≠ .not) :
    Comes (.ok (op.exact x.toInt)) (unary truthy op a) := by
  unfold unary
  rw [quantity?_of_word? ha]
  cases op with
  | not => exact absurd rfl hop
  | plus => exact .word rfl
  | minus => exact .checked _ _
  | invert => exact .word (toInt_lnot x)

theorem absolute_comes (ha : a.word? = some x) : Comes (.ok |x.toInt|) (absolute a) := by
  unfold absolute
  rw [quantity?_of_word? ha, Int.abs_eq_natAbs]
  exact .checked _ _

/-- A quotient and a remainder make up what was divided, and the remainder is on the side of the divisor. -/
theorem floor_mul_add (i : Int) (hj : j ≠ 0) :
    let r := i - ⌊(i / j : ℚ)⌋ * j
    0 ≤ r ∧ r < j ∨ j < r ∧ r ≤ 0 := by
  rw [← fmod_eq]
  rcases lt_or_gt_of_ne hj with h | h
  · have hlo := Int.fmod_nonneg_of_pos (-i) (Int.neg_pos_of_neg h)
    have hhi := Int.fmod_lt_of_pos (-i) (Int.neg_pos_of_neg h)
    rw [Int.neg_fmod_neg] at hlo hhi
    exact .inr ⟨by omega, by omega⟩
  · exact .inl ⟨Int.fmod_nonneg_of_pos i h, Int.fmod_lt_of_pos i h⟩

end Arithmetic

open Arithmetic in
/-- **Arithmetic on integers is exact or raises.** Operators, signs and absolute values give the exact integer where it
fits and overflow elsewhere; only a division by zero and a shift by a negative count have no integer. So a quotient and
a remainder that a program gets make up what it divided. -/
theorem integers_exact (h : Heap) (truthy : Value → Bool) {a b : Value} {x y : Word} (ha : a.word? = some x)
    (hb : b.word? = some y) : (∀ op : BinaryOp, op.isExact = true → (op = .pow → 0 ≤ y.toInt) →
      ∃ result, HeapM.binary op a b h = HeapM.lift result h ∧ Comes (op.exact x.toInt y.toInt) result)
      ∧ (∀ op : UnaryOp, op ≠ .not → Comes (.ok (op.exact x.toInt)) (unary truthy op a))
      ∧ (∃ result, HeapM.callBuiltin .abs [a] [] h = HeapM.lift result h ∧ Comes (.ok |x.toInt|) result)
      ∧ ∀ q, HeapM.binary .floorDiv a b h = .ok q h → ∃ r i j, HeapM.binary .mod a b h = .ok r h
        ∧ q.word? = some i ∧ r.word? = some j ∧ x.toInt = i.toInt * y.toInt + j.toInt
        ∧ (0 ≤ j.toInt ∧ j.toInt < y.toInt ∨ y.toInt < j.toInt ∧ j.toInt ≤ 0) := by
  refine ⟨fun op hop hy => ?_, fun op hop => unary_comes ha truthy hop, ⟨_, rfl, absolute_comes ha⟩, fun q hq => ?_⟩
  · obtain ⟨result, heq, hcomes⟩ := binary_comes ha hb op hop hy
    exact ⟨result, congrFun heq h, hcomes⟩
  obtain ⟨result, heq, hcomes⟩ := binary_comes ha hb .floorDiv rfl nofun
  obtain ⟨_, heq', hcomes'⟩ := binary_comes ha hb .mod rfl nofun
  rw [heq] at hq
  rw [heq']
  by_cases hy : y.toInt = 0
  · simp only [BinaryOp.exact, hy, if_true] at hcomes
    obtain ⟨fault, rfl, -⟩ := hcomes
    cases hq
  have hside := floor_mul_add x.toInt hy
  have hfits := y.fits_toInt
  unfold Word.Fits at hfits
  simp only [BinaryOp.exact, hy, if_false, Comes] at hcomes hcomes'
  split at hcomes
  · obtain ⟨_, i, rfl, hi, hiq⟩ := hcomes
    rw [if_pos (by unfold Word.Fits Word.least Word.greatest at *; omega)] at hcomes'
    obtain ⟨r, j, rfl, hj, hjr⟩ := hcomes'
    cases hq
    exact ⟨r, i, j, rfl, hi, hj, by rw [hiq, hjr]; omega, hjr ▸ hside⟩
  · obtain ⟨fault, rfl, -⟩ := hcomes
    cases hq

theorem integers_exact_least : (Value.int Int64.minValue).word? = some Int64.minValue
    ∧ (Value.int (-1)).word? = some (-1)
    ∧ ∃ result, HeapM.binary .floorDiv (.int Int64.minValue) (.int (-1)) .empty = HeapM.lift result .empty
      ∧ Arithmetic.Comes (BinaryOp.floorDiv.exact Int64.minValue.toInt (-1 : Word).toInt) result :=
  ⟨rfl, rfl, (integers_exact .empty (fun _ => true) rfl rfl).1 .floorDiv rfl nofun⟩

end Playback
