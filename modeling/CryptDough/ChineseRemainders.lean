import Mathlib.Algebra.BigOperators.Group.Finset.Basic
import Mathlib.Data.ZMod.Basic
import Mathlib.Data.Int.ModEq
import Mathlib.Data.Nat.GCD.BigOperators
import Mathlib.RingTheory.Coprime.Lemmas

/-! Numbers from their remainders: a basis for pairwise coprime moduli, each element of which is one
for its own modulus and zero for the others. -/

namespace CryptDough.ChineseRemainders

/-- The coefficient of a modulus: a multiple of all the others, times its inverse. -/
def coefficient (moduli : List ℕ) (m : ℕ) : ℕ :=
  moduli.prod / m * ((moduli.prod / m : ℕ) : ZMod m)⁻¹.val

theorem eq_of_modEq_of_mem {moduli : List ℕ} (hnodup : moduli.Nodup)
    (hcoprime : moduli.Pairwise Nat.Coprime)
    {a b : ℤ} (hmod : ∀ m ∈ moduli, a ≡ b [ZMOD m]) : a ≡ b [ZMOD moduli.prod] := by
  rw [Int.modEq_iff_dvd, Nat.cast_list_prod, ← List.prod_toFinset _ hnodup]
  apply Finset.prod_dvd_of_coprime
  · intro m hm m' hm' hne
    exact (hcoprime.forall (List.mem_toFinset.mp hm)
      (List.mem_toFinset.mp hm') hne).isCoprime
  · intro m hm
    exact (Int.modEq_iff_dvd).mp (hmod m (List.mem_toFinset.mp hm))

theorem dvd_quotient {moduli : List ℕ} {m m' : ℕ} (hm : m ∈ moduli) (hm' : m' ∈ moduli) (hne : m ≠ m') :
    m ∣ moduli.prod / m' := by
  have hprod : m' * (moduli.erase m').prod = moduli.prod := List.prod_erase hm'
  rcases Nat.eq_zero_or_pos m' with hzero | hpos
  · rw [hzero, Nat.div_zero]
    exact Nat.dvd_zero m
  · rw [← hprod, Nat.mul_div_cancel_left _ hpos]
    exact List.dvd_prod ((List.mem_erase_of_ne hne).mpr hm)

theorem coefficient_other {moduli : List ℕ} {m m' : ℕ} (hm : m ∈ moduli) (hm' : m' ∈ moduli)
    (hne : m ≠ m') :
    (coefficient moduli m' : ZMod m) = 0 := by
  rw [ZMod.natCast_eq_zero_iff, coefficient]
  exact Dvd.dvd.mul_right (dvd_quotient hm hm' hne) _

section Basis

variable {moduli : List ℕ} (hnodup : moduli.Nodup) (hcoprime : moduli.Pairwise Nat.Coprime)
include hnodup hcoprime

theorem coprime_quotient {m : ℕ} (hm : m ∈ moduli) (hpos : 0 < m) :
    Nat.Coprime (moduli.prod / m) m := by
  have hprod : m * (moduli.erase m).prod = moduli.prod := List.prod_erase hm
  rw [← hprod, Nat.mul_div_cancel_left _ hpos]
  refine Nat.Coprime.symm (Nat.coprime_list_prod_right_iff.mpr fun m' hm' => ?_)
  have hmem := (hnodup.mem_erase_iff).mp hm'
  exact hcoprime.forall hm hmem.2 (Ne.symm hmem.1)

theorem coefficient_self {m : ℕ} (hm : m ∈ moduli) (hpos : 0 < m) :
    (coefficient moduli m : ZMod m) = 1 := by
  have : NeZero m := ⟨hpos.ne'⟩
  rw [coefficient, Nat.cast_mul, ZMod.natCast_val, ZMod.cast_id]
  exact ZMod.coe_mul_inv_eq_one _ (coprime_quotient hnodup hcoprime hm hpos)

/-- The combination of remainders has these remainders. -/
theorem combination_modEq (hpos : ∀ m ∈ moduli, 0 < m) {remainder : ℕ → ℤ} {y : ℤ}
    (hremainder : ∀ m ∈ moduli, remainder m ≡ y [ZMOD m]) :
    (moduli.map fun m => remainder m * coefficient moduli m).sum ≡ y [ZMOD moduli.prod] := by
  refine eq_of_modEq_of_mem hnodup hcoprime fun m hm => ?_
  rw [← ZMod.intCast_eq_intCast_iff, ← List.sum_toFinset _ hnodup, Int.cast_sum,
    Finset.sum_eq_single_of_mem m (List.mem_toFinset.mpr hm)]
  · rw [Int.cast_mul, Int.cast_natCast, coefficient_self hnodup hcoprime hm (hpos m hm), mul_one]
    exact (ZMod.intCast_eq_intCast_iff _ _ m).mpr (hremainder m hm)
  · intro m' hm' hne
    rw [Int.cast_mul, Int.cast_natCast,
      coefficient_other hm (List.mem_toFinset.mp hm') (Ne.symm hne), mul_zero]

end Basis

end CryptDough.ChineseRemainders
