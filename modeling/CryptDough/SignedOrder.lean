import Mathlib.Data.BitVec
import Mathlib.Data.Nat.Bitwise
import Mathlib.Data.Nat.Find

/-! The order of signed words: by the sign of their difference, and by the highest bit in which they
differ. -/

namespace CryptDough

variable {w : ℕ}

section Difference

theorem msb_sub_of_msb_eq (x y : BitVec w) (hsigns : x.msb = y.msb) :
    (y - x).msb = decide (y.toInt < x.toInt) := by
  rw [BitVec.msb_eq_toInt, BitVec.msb_eq_toInt, decide_eq_decide] at hsigns
  have hx := BitVec.two_mul_toInt_lt (x := x)
  have hx' := BitVec.le_two_mul_toInt (x := x)
  have hy := BitVec.two_mul_toInt_lt (x := y)
  have hy' := BitVec.le_two_mul_toInt (x := y)
  rw [BitVec.msb_eq_toInt, BitVec.toInt_sub, Int.bmod_eq_of_le_mul_two]
  · rw [decide_eq_decide]
    omega
  · push_cast
    omega
  · push_cast
    omega

/-- Operands of different signs are compared by the sign of the second. -/
theorem msb_of_msb_ne (x y : BitVec w) (hsigns : x.msb ≠ y.msb) :
    y.msb = decide (y.toInt < x.toInt) := by
  rw [BitVec.msb_eq_toInt, BitVec.msb_eq_toInt, Ne, decide_eq_decide] at hsigns
  rw [BitVec.msb_eq_toInt, decide_eq_decide]
  omega

theorem not_msb_sub_and_not_msb_sub (x y : BitVec w) :
    (!(y - x).msb && !(x - y).msb) = decide (x = y) := by
  by_cases heq : x = y
  · simp [heq]
  · have hne : y - x ≠ 0 := fun hzero => heq (sub_eq_zero.mp hzero).symm
    rw [← neg_sub y x, BitVec.msb_neg, decide_eq_false heq]
    cases hmsb : (y - x).msb with
    | true => rfl
    | false =>
        have hmin : y - x ≠ BitVec.intMin w := by
          intro hmin
          rw [hmin, BitVec.msb_intMin, decide_eq_false_iff_not] at hmsb
          obtain rfl : w = 0 := by omega
          exact hne (Subsingleton.elim _ _)
        simpa [hmin] using hne

def SubFits (x y : BitVec w) : Prop :=
  -2 ^ (w - 1) ≤ x.toInt - y.toInt ∧ x.toInt - y.toInt < 2 ^ (w - 1)

instance (x y : BitVec w) : Decidable (SubFits x y) := inferInstanceAs (Decidable (_ ∧ _))

/-- The sign of the difference is the order exactly if the difference can be represented. -/
theorem msb_sub_eq_iff (hw : 0 < w) (x y : BitVec w) :
    (x - y).msb = decide (x.toInt < y.toInt) ↔ SubFits x y := by
  have hx := BitVec.two_mul_toInt_lt (x := x)
  have hx' := BitVec.le_two_mul_toInt (x := x)
  have hy := BitVec.two_mul_toInt_lt (x := y)
  have hy' := BitVec.le_two_mul_toInt (x := y)
  have hr := BitVec.two_mul_toInt_lt (x := x - y)
  have hr' := BitVec.le_two_mul_toInt (x := x - y)
  obtain ⟨k, hk⟩ : ((2 ^ w : ℕ) : ℤ) ∣ (x - y).toInt - (x.toInt - y.toInt) := by
    rw [BitVec.toInt_sub]
    exact Int.dvd_bmod_sub_self
  have hhalf : (2 : ℤ) ^ w = 2 * 2 ^ (w - 1) := by
    rw [← pow_succ', Nat.sub_add_cancel hw]
  have hpos : (0 : ℤ) < 2 ^ (w - 1) := Int.pow_pos (by decide)
  unfold SubFits
  rw [BitVec.msb_eq_toInt, decide_eq_decide]
  push_cast at hk
  rw [hhalf] at hx hx' hy hy' hr hr' hk
  generalize (2 : ℤ) ^ (w - 1) = half at *
  have hupper : k < 2 := by
    by_contra hge
    have hmul := Int.mul_le_mul_of_nonneg_left (Int.not_lt.mp hge) (by omega : 0 ≤ 2 * half)
    omega
  have hlower : -2 < k := by
    by_contra hge
    have hmul := Int.mul_le_mul_of_nonneg_left (Int.not_lt.mp hge) (by omega : 0 ≤ 2 * half)
    omega
  have hcases : k = -1 ∨ k = 0 ∨ k = 1 := by omega
  rcases hcases with rfl | rfl | rfl <;> omega

end Difference

section HighestBit

theorem toNat_lt_of_bit {x y : BitVec w} {m : ℕ} (hx : x.getLsbD m = false) (hy : y.getLsbD m = true)
    (hsame : ∀ j, m < j → x.getLsbD j = y.getLsbD j) : x.toNat < y.toNat := by
  refine Nat.lt_of_testBit m ?_ ?_ fun j hj => ?_
  · rw [BitVec.testBit_toNat, hx]
  · rw [BitVec.testBit_toNat, hy]
  · rw [BitVec.testBit_toNat, BitVec.testBit_toNat, hsame j hj]

theorem exists_highest_bit {x y : BitVec w} (hne : x ≠ y) :
    ∃ m, m < w ∧ x.getLsbD m ≠ y.getLsbD m ∧ ∀ j, m < j → x.getLsbD j = y.getLsbD j := by
  obtain ⟨i, hi, hdiff⟩ : ∃ i, i < w ∧ x.getLsbD i ≠ y.getLsbD i := by
    by_contra hnot
    push Not at hnot
    exact hne (BitVec.eq_of_getLsbD_eq hnot)
  have hspec := Nat.findGreatest_spec (P := fun j => x.getLsbD j ≠ y.getLsbD j) hi.le hdiff
  have hle := Nat.findGreatest_le (P := fun j => x.getLsbD j ≠ y.getLsbD j) w
  refine ⟨_, ?_, hspec, fun j hj => ?_⟩
  · rcases Nat.eq_or_lt_of_le hle with heq | hlt
    · rw [heq] at hspec
      exact absurd (by rw [BitVec.getLsbD_of_ge x w le_rfl, BitVec.getLsbD_of_ge y w le_rfl]) hspec
    · exact hlt
  · by_contra hbad
    by_cases hjw : j ≤ w
    · exact Nat.findGreatest_is_greatest hj hjw hbad
    · exact hbad (by rw [BitVec.getLsbD_of_ge x j (by omega), BitVec.getLsbD_of_ge y j (by omega)])

/-- Words of one sign are ordered like their bits. -/
theorem toInt_lt_iff_toNat_lt {x y : BitVec w} (hsigns : x.msb = y.msb) :
    x.toInt < y.toInt ↔ x.toNat < y.toNat := by
  rw [BitVec.toInt_eq_msb_cond, BitVec.toInt_eq_msb_cond, hsigns]
  split <;> omega

end HighestBit

end CryptDough
