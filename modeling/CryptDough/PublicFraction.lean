import CryptDough.FixedPointTruncation
import CryptDough.MachineIntegers
import CryptDough.PrivateDivision
import Mathlib.Algebra.BigOperators.Fin
import Mathlib.Algebra.Order.Round
import Mathlib.Data.Rat.Floor

/-! Multiplication of a fixed-point vector by a public fraction: every share is scaled and divided on
its own, so the signed sum of the scaled shares must not wrap around. -/

namespace CryptDough

open Process Sharing

variable {w n : ℕ}

section Model

variable {K : Type} [Field K] [LinearOrder K] [FloorRing K]

/-- The nearest integer, halves away from zero. -/
def nearest (y : K) : ℤ := if 0 ≤ y then round y else -round (-y)

/-- `std::llround`, whose result is unspecified if a `long long` does not hold it. -/
def llround (y : K) : Option ℤ := if InLongLong (nearest y) then some (nearest y) else none

/-- `Share(1) << p`; the shift promotes small share types to `int`. -/
def oneShifted (w p : ℕ) : Option (BitVec (max w 32)) :=
  if p < max w 32 then some ((1 : BitVec (max w 32)) <<< p) else none

/-- `ASharedVector::operator*` with a fraction `y`, on the shares of one party. -/
def multiplyFraction {S : Scheme} (y : K) (x : FixedEVec S w n) : Option (FixedEVec S w n) := do
  let p := x.precision
  let rounded ← llround (y * 2 ^ p)
  let scaled : BitVec w := BitVec.ofInt w rounded
  let result : EVec S w n := fun r i => x.contents r i * scaled
  if 0 < p then
    let divisor ← oneShifted w p
    let quotient : EVec S w n := fun r i =>
      (((result r i).signExtend (max w 32)).sdiv divisor).setWidth w
    some { contents := quotient, precision := p }
  else some { contents := result, precision := p }

end Model

/-- The value `v` is within `R` units of `xs / 2 ^ p`. -/
def WithinUnits (R p : ℕ) (xs v : ℤ) : Prop := |v * 2 ^ p - xs| ≤ R * 2 ^ p

/-- The multiples of `2 ^ p` in an element of `p + 2` bits. -/
def units (p : ℕ) (a : ℤ) : ℤ :=
  if 2 ^ p ≤ a then 1 else if a = -2 ^ (p + 1) then -2 else if a ≤ -2 ^ p then -1 else 0

/-- The scaled shares of an element do not wrap around, where that matters for the precision. -/
def SharesFit {m : ℕ} (w p : ℕ) (a : Fin m → ℤ) (xs : ℤ) : Prop :=
  w ≤ p + 1 ∨
    (p + 2 = w ∧ (|∑ q, units p (a q)| < m ∨ (∑ q, units p (a q) = m ∧ 0 ≤ xs) ∨
      (∑ q, units p (a q) = -m ∧ xs ≤ 0))) ∨
    (p + 3 ≤ w ∧ 2 ^ (w + p) ∣ (∑ q, a q) - xs)

theorem ofInt_eq_ofInt_iff (u v : ℤ) : BitVec.ofInt w u = BitVec.ofInt w v ↔ (2 : ℤ) ^ w ∣ u - v := by
  have hpow : ((2 ^ w : ℕ) : ℤ) = 2 ^ w := by push_cast; rfl
  rw [← BitVec.toInt_inj, BitVec.toInt_ofInt, BitVec.toInt_ofInt, Int.bmod_eq_bmod_iff_bmod_sub_eq_zero,
    ← Int.dvd_iff_bmod_eq_zero, hpow]

theorem dvd_toInt_ofInt_sub (v : ℤ) : (2 : ℤ) ^ w ∣ (BitVec.ofInt w v).toInt - v := by
  rw [← ofInt_eq_ofInt_iff, BitVec.ofInt_toInt]

section Sums

variable {m : ℕ} {a : Fin m → ℤ} {d : ℤ}

theorem sum_tdiv_bounds (hd : 0 < d) (a : Fin m → ℤ) :
    (∑ q, a q) - m * (d - 1) ≤ (∑ q, (a q).tdiv d) * d ∧
      (∑ q, (a q).tdiv d) * d ≤ (∑ q, a q) + m * (d - 1) := by
  have hside : ∀ q, a q - (d - 1) ≤ (a q).tdiv d * d ∧ (a q).tdiv d * d ≤ a q + (d - 1) := by
    intro q
    have hdiv := Int.mul_tdiv_add_tmod (a q) d
    obtain ⟨hlow, hhigh, -, -⟩ := tmod_bounds hd (a q)
    constructor <;> linarith
  have hlow := Finset.sum_le_sum fun q (_ : q ∈ Finset.univ) => (hside q).1
  have hhigh := Finset.sum_le_sum fun q (_ : q ∈ Finset.univ) => (hside q).2
  simp only [Finset.sum_sub_distrib, Finset.sum_add_distrib, Finset.sum_const, Finset.card_univ,
    Fintype.card_fin,
    nsmul_eq_mul, ← Finset.sum_mul] at hlow hhigh
  constructor <;> linarith

variable {p : ℕ} {xs : ℤ}

theorem tdiv_eq_units {z : ℤ} (hz : -2 ^ (p + 1) ≤ z ∧ z < 2 ^ (p + 1)) :
    z.tdiv (2 ^ p) = units p z := by
  have hpos : (0 : ℤ) < 2 ^ p := by positivity
  have hdiv := Int.mul_tdiv_add_tmod z (2 ^ p)
  obtain ⟨hlow, hhigh, hnonneg, hnonpos⟩ := tmod_bounds hpos z
  rw [pow_succ] at hz
  rw [units, pow_succ]
  generalize (2 : ℤ) ^ p = d at *
  generalize z.tdiv d = t at *
  have htwo : -3 < t ∧ t < 2 := by
    rcases le_total 0 z with hz0 | hz0
    · have hmod := hnonneg hz0
      constructor <;> nlinarith
    · have hmod := hnonpos hz0
      constructor <;> nlinarith
  obtain rfl | rfl | rfl | rfl : t = -2 ∨ t = -1 ∨ t = 0 ∨ t = 1 := by omega
  · rw [if_neg (by omega), if_pos (by omega)]
  · rw [if_neg (by omega), if_neg (by omega), if_pos (by omega)]
  · rw [if_neg (by omega), if_neg (by omega), if_neg (by omega)]
  · rw [if_pos (by omega)]

/-- A wrap of the signed sum shows in the quotients, unless it is a multiple of `2 ^ p` wraps. -/
theorem within_iff_dvd (hm : m ≤ 4) (hm' : 0 < m) (hp : 0 < p) (hpw : p + 3 ≤ w)
    (hxs : |xs| < 2 ^ (w - 2))
    (hsum : (2 : ℤ) ^ w ∣ (∑ q, a q) - xs) :
    WithinUnits m p xs (BitVec.ofInt w (∑ q, (a q).tdiv (2 ^ p))).toInt ↔
      (2 : ℤ) ^ (w + p) ∣ (∑ q, a q) - xs := by
  have hpos : (0 : ℤ) < 2 ^ p := by positivity
  have hbounds := sum_tdiv_bounds hpos a
  have hmpos : (0 : ℤ) < m := by exact_mod_cast hm'
  have hmle : (m : ℤ) ≤ 4 := by exact_mod_cast hm
  have hshift : (2 : ℤ) ^ (w + p) = 2 ^ w * 2 ^ p := pow_add 2 w p
  obtain ⟨r, hr⟩ := dvd_toInt_ofInt_sub (w := w) (∑ q, (a q).tdiv (2 ^ p))
  rw [abs_lt] at hxs
  rw [WithinUnits, abs_le]
  generalize (∑ q, (a q).tdiv (2 ^ p)) = v at *
  generalize (∑ q, a q) = s at *
  rw [mul_sub, mul_one] at hbounds
  constructor
  · rintro ⟨hleft, hright⟩
    obtain ⟨k, hk⟩ := hsum
    have hunits : (8 : ℤ) * 2 ^ p ≤ 2 ^ w := by
      have hpow : (2 : ℤ) ^ (p + 3) ≤ 2 ^ w := pow_le_pow_right₀ (by decide) hpw
      rw [pow_add] at hpow
      linarith
    have hmunits : (m : ℤ) * 2 ^ p ≤ 4 * 2 ^ p := mul_le_mul_of_nonneg_right hmle hpos.le
    rw [eq_add_of_sub_eq hr] at hleft hright
    -- the wraps of the sum and of the quotients are too close to differ
    have hwraps : 2 ^ w * (k + r * 2 ^ p) = s - xs + 2 ^ w * r * 2 ^ p := by
      rw [hk]
      ring
    have hupper : 2 ^ w * (k + r * 2 ^ p) < 2 ^ w * 1 := by
      rw [hwraps]
      linarith
    have hlower : 2 ^ w * (-1) < 2 ^ w * (k + r * 2 ^ p) := by
      rw [hwraps]
      linarith
    have hzero : k + r * 2 ^ p = 0 := by
      have hwpos : (0 : ℤ) < 2 ^ w := by positivity
      have hlt := lt_of_mul_lt_mul_left hupper hwpos.le
      have hgt := lt_of_mul_lt_mul_left hlower hwpos.le
      omega
    refine ⟨-r, ?_⟩
    rw [hk, hshift, eq_neg_of_add_eq_zero_left hzero]
    ring
  · rintro ⟨j, hj⟩
    have hroom : (m : ℤ) ≤ 2 ^ (w - 2) := by
      have hpow : (2 : ℤ) ^ 2 ≤ 2 ^ (w - 2) := pow_le_pow_right₀ (by decide) (by omega)
      linarith
    have hxs' : -2 ^ (w - 1) ≤ xs ∧ xs < 2 ^ (w - 1) := by
      have hhalf : (2 : ℤ) ^ (w - 1) = 2 * 2 ^ (w - 2) := by
        rw [← pow_succ']
        congr 1
        omega
      omega
    have hunwrapped : (v - 2 ^ w * j) * 2 ^ p = v * 2 ^ p - (s - xs) := by
      rw [hj, hshift]
      ring
    have hexact := toInt_ofInt_of_near (v := v - 2 ^ w * j) hp (by omega) hxs' hroom
      (by rw [hunwrapped]; linarith) (by rw [hunwrapped]; linarith)
    have hsame : BitVec.ofInt w v = BitVec.ofInt w (v - 2 ^ w * j) := by
      rw [ofInt_eq_ofInt_iff, sub_sub_cancel]
      exact dvd_mul_right _ _
    rw [hsame, hexact, hunwrapped]
    constructor <;> linarith

/-- Whole units next to a value of less than one unit. -/
theorem within_iff_abs_lt {v m : ℤ} (hm : 0 < m) (hd : 0 < d) (hxs : |xs| < d) :
    |v * d - xs| ≤ m * d ↔ |v| < m ∨ (v = m ∧ 0 ≤ xs) ∨ (v = -m ∧ xs ≤ 0) := by
  have hunit : d ≤ m * d := le_mul_of_one_le_left hd.le hm
  rw [abs_lt] at hxs
  rw [abs_le, abs_lt]
  constructor
  · rintro ⟨hlow, hhigh⟩
    have hle : v < m + 1 := by
      refine lt_of_mul_lt_mul_right ?_ hd.le
      rw [add_mul, one_mul]
      linarith
    have hge : -m - 1 < v := by
      refine lt_of_mul_lt_mul_right ?_ hd.le
      rw [sub_mul, neg_mul, one_mul]
      linarith
    rcases lt_trichotomy v m with hlt | rfl | hgt
    · rcases eq_or_lt_of_le (show -m ≤ v by omega) with heq | hlt'
      · obtain rfl := heq
        refine Or.inr (Or.inr ⟨rfl, ?_⟩)
        rw [neg_mul] at hlow
        linarith
      · exact Or.inl ⟨hlt', hlt⟩
    · exact Or.inr (Or.inl ⟨rfl, by linarith⟩)
    · omega
  · rintro (⟨hlow, hhigh⟩ | ⟨rfl, hxs0⟩ | ⟨rfl, hxs0⟩)
    · have hle : v * d ≤ (m - 1) * d := mul_le_mul_of_nonneg_right (by omega) hd.le
      have hge : (1 - m) * d ≤ v * d := mul_le_mul_of_nonneg_right (by omega) hd.le
      rw [sub_mul, one_mul] at hle hge
      constructor <;> linarith
    · constructor <;> linarith
    · rw [neg_mul]
      constructor <;> linarith

theorem sum_tdiv_eq_units (hpw : p + 2 = w) (ha : ∀ q, -2 ^ (w - 1) ≤ a q ∧ a q < 2 ^ (w - 1)) :
    ∑ q, (a q).tdiv (2 ^ p) = ∑ q, units p (a q) := by
  subst hpw
  exact Finset.sum_congr rfl fun q _ => tdiv_eq_units (ha q)

theorem within_iff_units (hw : 4 ≤ w) (hm : m ≤ 4) (hm' : 0 < m) (hpw : p + 2 = w)
    (hxs : |xs| < 2 ^ (w - 2))
    (ha : ∀ q, -2 ^ (w - 1) ≤ a q ∧ a q < 2 ^ (w - 1)) :
    WithinUnits m p xs (BitVec.ofInt w (∑ q, (a q).tdiv (2 ^ p))).toInt ↔
      |∑ q, units p (a q)| < m ∨ (∑ q, units p (a q) = m ∧ 0 ≤ xs) ∨
        (∑ q, units p (a q) = -m ∧ xs ≤ 0) := by
  rw [sum_tdiv_eq_units hpw ha]
  subst hpw
  have hside : ∀ q, -2 ≤ units p (a q) ∧ units p (a q) ≤ 1 := by
    intro q
    rw [units]
    split_ifs <;> omega
  have hlow := Finset.sum_le_sum fun q (_ : q ∈ Finset.univ) => (hside q).1
  have hhigh := Finset.sum_le_sum fun q (_ : q ∈ Finset.univ) => (hside q).2
  simp only [Finset.sum_const, Finset.card_univ, Fintype.card_fin, nsmul_eq_mul] at hlow hhigh
  have hroom : (2 : ℤ) ^ 3 ≤ 2 ^ (p + 2 - 1) := pow_le_pow_right₀ (by decide) (by omega)
  have hmle : (m : ℤ) ≤ 4 := by exact_mod_cast hm
  rw [WithinUnits, BitVec.toInt_ofInt_eq_self (by omega) (by linarith) (by linarith)]
  exact within_iff_abs_lt (by exact_mod_cast hm') (by positivity) hxs

/-- What `Share(1) << p` stands for; the sign bit may be set. -/
def shiftedOne (w p : ℕ) : ℤ := if p + 1 < max w 32 then 2 ^ p else -2 ^ p

/-- The quotients by a divisor of at least half the range. -/
theorem tdiv_shiftedOne (hpw : w ≤ p + 1) {z : ℤ} (hz : -2 ^ (w - 1) ≤ z ∧ z < 2 ^ (w - 1)) :
    |z.tdiv (shiftedOne w p)| ≤ 1 ∧ (z.tdiv (shiftedOne w p) ≠ 0 → z = -2 ^ p) := by
  have hpow : (2 : ℤ) ^ (w - 1) ≤ 2 ^ p := pow_le_pow_right₀ (by decide) (by omega)
  have hpos : (0 : ℤ) < 2 ^ p := by positivity
  have hquotient : z.tdiv (2 ^ p) = 0 ∨ (z = -2 ^ p ∧ z.tdiv (2 ^ p) = -1) := by
    by_cases hz' : z = -2 ^ p
    · refine Or.inr ⟨hz', ?_⟩
      rw [hz', Int.neg_tdiv, Int.tdiv_self hpos.ne']
    · apply Or.inl
      have hunits := @tdiv_eq_units p z ⟨by rw [pow_succ]; linarith, by rw [pow_succ]; linarith⟩
      rw [hunits, units, if_neg (by linarith), if_neg (by rw [pow_succ]; omega), if_neg (by omega)]
  rw [shiftedOne]
  split_ifs
  · rcases hquotient with hzero | ⟨hz', hone⟩
    · simp [hzero]
    · simp [hz']
  · rw [Int.tdiv_neg]
    rcases hquotient with hzero | ⟨hz', hone⟩
    · simp [hzero]
    · simp [hz']

/-- With such a divisor a wrap is at most one unit for each share. -/
theorem within_of_large (hw : 4 ≤ w) (hm : m ≤ 4) (hm' : 0 < m) (hpw : w ≤ p + 1)
    (hxs : |xs| < 2 ^ (w - 2))
    (ha : ∀ q, -2 ^ (w - 1) ≤ a q ∧ a q < 2 ^ (w - 1)) (hsum : (2 : ℤ) ^ w ∣ (∑ q, a q) - xs) :
    WithinUnits m p xs (BitVec.ofInt w (∑ q, (a q).tdiv (shiftedOne w p))).toInt := by
  have hquotient : ∀ q, |(a q).tdiv (shiftedOne w p)| ≤ 1 := fun q => (tdiv_shiftedOne hpw (ha q)).1
  have hall : ∀ q, (a q).tdiv (shiftedOne w p) ≠ 0 → a q = -2 ^ p :=
    fun q => (tdiv_shiftedOne hpw (ha q)).2
  have hpos : (0 : ℤ) < 2 ^ p := by positivity
  have hmpos : (0 : ℤ) < m := by exact_mod_cast hm'
  have hmle : (m : ℤ) ≤ 4 := by exact_mod_cast hm
  have hroom : (2 : ℤ) ^ 3 ≤ 2 ^ (w - 1) := pow_le_pow_right₀ (by decide) (by omega)
  have hxs' : |xs| < 2 ^ p := lt_of_lt_of_le hxs (pow_le_pow_right₀ (by decide) (by omega))
  have hones : ∑ _q : Fin m, (1 : ℤ) = m := by
    rw [Finset.sum_const, Finset.card_univ, Fintype.card_fin, nsmul_eq_mul, mul_one]
  have hbound : |∑ q, (a q).tdiv (shiftedOne w p)| ≤ m :=
    calc |∑ q, (a q).tdiv (shiftedOne w p)|
        ≤ ∑ q, |(a q).tdiv (shiftedOne w p)| := Finset.abs_sum_le_sum_abs _ _
      _ ≤ ∑ _q : Fin m, 1 := Finset.sum_le_sum fun q _ => hquotient q
      _ = m := hones
  have hrange := abs_le.mp hbound
  rw [WithinUnits, BitVec.toInt_ofInt_eq_self (by omega) (by linarith) (by linarith)]
  by_cases hfull : ∀ q, (a q).tdiv (shiftedOne w p) ≠ 0
  · -- all shares are the least element, so their sum is a multiple of the unit
    have hparts : ∀ q, a q = -2 ^ p := fun q => hall q (hfull q)
    have hunit : (2 : ℤ) ^ p ∣ 2 ^ w := by
      apply pow_dvd_pow 2
      have hleast := (ha ⟨0, hm'⟩).1
      rw [hparts, neg_le_neg_iff] at hleast
      have hle := (pow_le_pow_iff_right₀ (by decide : (1 : ℤ) < 2)).mp hleast
      omega
    have hdvd : (2 : ℤ) ^ p ∣ ∑ q, a q := Finset.dvd_sum fun q _ => by
      rw [hparts]
      exact (dvd_refl _).neg_right
    obtain rfl := Int.eq_zero_of_abs_lt_dvd ((dvd_sub_right hdvd).mp (hunit.trans hsum)) hxs'
    rw [sub_zero, abs_mul, abs_of_pos hpos]
    exact mul_le_mul_of_nonneg_right hbound hpos.le
  · obtain ⟨q, hq⟩ := not_forall.mp hfull
    have hless : |∑ q, (a q).tdiv (shiftedOne w p)| < m := by
      refine (Finset.abs_sum_le_sum_abs _ _).trans_lt (lt_of_lt_of_eq ?_ hones)
      refine Finset.sum_lt_sum (fun q _ => hquotient q) ⟨q, Finset.mem_univ q, ?_⟩
      rw [not_not.mp hq]
      decide
    exact (within_iff_abs_lt hmpos hpos hxs').mpr (Or.inl hless)

/-- Scaled shares that add up to the scaled value fit. -/
theorem sharesFit_of_sum_eq (hm' : 0 < m) (hxs : |xs| < 2 ^ (w - 2))
    (ha : ∀ q, -2 ^ (w - 1) ≤ a q ∧ a q < 2 ^ (w - 1)) (hsum : ∑ q, a q = xs) : SharesFit w p a xs := by
  by_cases hlarge : w ≤ p + 1
  · exact Or.inl hlarge
  by_cases hpw : p + 2 = w
  · refine Or.inr (Or.inl ⟨hpw, ?_⟩)
    have hpos : (0 : ℤ) < 2 ^ p := by positivity
    have hmpos : (0 : ℤ) < m := by exact_mod_cast hm'
    have hbounds := sum_tdiv_bounds hpos a
    rw [sum_tdiv_eq_units hpw ha, hsum, mul_sub, mul_one] at hbounds
    rw [← hpw] at hxs
    refine (within_iff_abs_lt hmpos hpos hxs).mp (abs_le.mpr ?_)
    constructor <;> linarith
  · refine Or.inr (Or.inr ⟨by omega, ?_⟩)
    rw [hsum, sub_self]
    exact dvd_zero _

/-- The bound holds of one element exactly where its scaled shares fit. -/
theorem within_iff_sharesFit (hw : 4 ≤ w) (hm : m ≤ 4) (hm' : 0 < m) (hp : 0 < p)
    (hxs : |xs| < 2 ^ (w - 2))
    (ha : ∀ q, -2 ^ (w - 1) ≤ a q ∧ a q < 2 ^ (w - 1)) (hsum : (2 : ℤ) ^ w ∣ (∑ q, a q) - xs) :
    WithinUnits m p xs (BitVec.ofInt w (∑ q, (a q).tdiv (shiftedOne w p))).toInt ↔
      SharesFit w p a xs := by
  rw [SharesFit]
  by_cases hlarge : w ≤ p + 1
  · exact iff_of_true (within_of_large hw hm hm' hlarge hxs ha hsum) (Or.inl hlarge)
  · have hone : shiftedOne w p = 2 ^ p := if_pos (by omega)
    rw [hone]
    by_cases hpw : p + 2 = w
    · rw [within_iff_units hw hm hm' hpw hxs ha]
      constructor
      · exact fun hunits => Or.inr (Or.inl ⟨hpw, hunits⟩)
      · rintro (hlarge' | ⟨-, hunits⟩ | ⟨hsmall, -⟩)
        · exact absurd hlarge' hlarge
        · exact hunits
        · omega
    · rw [within_iff_dvd hm hm' hp (by omega) hxs hsum]
      constructor
      · exact fun hdvd => Or.inr (Or.inr ⟨by omega, hdvd⟩)
      · rintro (hlarge' | ⟨hpw', -⟩ | ⟨-, hdvd⟩)
        · exact absurd hlarge' hlarge
        · exact absurd hpw' hpw
        · exact hdvd

end Sums

section Shares

variable {S : Scheme} {p : ℕ}

theorem combine_add_eq_sum {m : ℕ} (x : Fin (m + 1) → Vec w n) : combine (· + ·) x = ∑ q, x q := by
  induction m with
  | zero => exact (Fin.sum_univ_one x).symm
  | succ m ih =>
      rw [combine_succ, ih]
      exact (Fin.sum_univ_castSucc x).symm

theorem ofInt_sum {m : ℕ} (a : Fin m → ℤ) : BitVec.ofInt w (∑ q, a q) = ∑ q, BitVec.ofInt w (a q) := by
  induction m with
  | zero => rfl
  | succ m ih => rw [Fin.sum_univ_castSucc, Fin.sum_univ_castSucc, BitVec.ofInt_add, ih]

theorem oneShifted_toInt (hp : p < max w 32) :
    ∃ divisor, oneShifted w p = some divisor ∧ divisor.toInt = shiftedOne w p := by
  refine ⟨_, if_pos hp, ?_⟩
  have hshift : ((1 : BitVec (max w 32)) <<< p) = BitVec.twoPow (max w 32) p :=
    (BitVec.twoPow_eq _ p).symm
  rw [hshift, BitVec.toInt_twoPow, if_neg (not_le.mpr hp), shiftedOne]
  by_cases hsign : p + 1 = max w 32
  · rw [if_pos hsign, if_neg (by omega)]
    push_cast
    rfl
  · rw [if_neg hsign, if_pos (by omega)]

theorem quotient_eq_ofInt {divisor : BitVec (max w 32)} (hdivisor : divisor.toInt = shiftedOne w p)
    (z : BitVec w) :
    ((z.signExtend (max w 32)).sdiv divisor).setWidth w =
      BitVec.ofInt w (z.toInt.tdiv (shiftedOne w p)) := by
  rw [sdiv_eq_ofInt, hdivisor, BitVec.toInt_signExtend_of_le (le_max_left w 32)]
  exact Opened.setWidth_ofInt (le_max_left w 32) _

variable {K : Type} [Field K] [LinearOrder K] [FloorRing K]

/-- The signed values of the scaled shares of one element. -/
def scaledShares (p : ℕ) (y : K) (x : S.Shares (Vec w n)) (k : Fin n) (q : S.Party) : ℤ :=
  (x q 0 k * BitVec.ofInt w (nearest (y * 2 ^ p))).toInt

/-- The parties end with a sharing of the same precision, which opens to within a unit for each
share. -/
def Accurate (p : ℕ) (y : K) (x : S.Shares (Vec w n)) (a : Vec w n) : Prop :=
  ∃ z : S.Party → FixedEVec S w n, (∀ q, multiplyFraction y ⟨x q, p⟩ = some (z q)) ∧
    (∀ q, (z q).precision = p) ∧
    ∃ v, OpensA (fun q => (z q).contents) v ∧
      ∀ k, WithinUnits (S.last + 1) p ((a k).toInt * nearest (y * 2 ^ p)) (v k).toInt

theorem sum_scaledShares {x : S.Shares (Vec w n)} {a : Vec w n} (hx : OpensA x a) (p : ℕ) (y : K)
    (k : Fin n) :
    (2 : ℤ) ^ w ∣ (∑ q, scaledShares p y x k q) - (a k).toInt * nearest (y * 2 ^ p) := by
  have hparts : a k = ∑ q, x q 0 k := by
    rw [← hx.2, Scheme.reconstruct, combine_add_eq_sum, Finset.sum_apply]
  rw [← ofInt_eq_ofInt_iff, ofInt_sum, BitVec.ofInt_mul, BitVec.ofInt_toInt, hparts, Finset.sum_mul]
  exact Finset.sum_congr rfl fun q _ => BitVec.ofInt_toInt

/-- One share after the multiplication. -/
def scaledQuotient (p : ℕ) (y : K) (share : BitVec w) : BitVec w :=
  BitVec.ofInt w ((share * BitVec.ofInt w (nearest (y * 2 ^ p))).toInt.tdiv (shiftedOne w p))

theorem multiplyFraction_eq {p : ℕ} (hp : 0 < p) (hp' : p < max w 32) {y : K}
    (hy : InLongLong (nearest (y * 2 ^ p))) (x : EVec S w n) :
    multiplyFraction y ⟨x, p⟩ = some ⟨fun r i => scaledQuotient p y (x r i), p⟩ := by
  obtain ⟨divisor, hone, hvalue⟩ := oneShifted_toInt hp'
  have hround : llround (y * 2 ^ p) = some (nearest (y * 2 ^ p)) := if_pos hy
  simp only [multiplyFraction, hround, if_pos hp, hone, Option.bind_eq_bind, Option.bind_some,
    quotient_eq_ofInt hvalue]
  rfl

/-- A result is rounded to a `long long`, and its shift is defined. -/
theorem defined_of_multiplyFraction {p : ℕ} (hp : 0 < p) {y : K} {x : EVec S w n}
    {z : FixedEVec S w n} (h : multiplyFraction y ⟨x, p⟩ = some z) :
    InLongLong (nearest (y * 2 ^ p)) ∧ p < max w 32 := by
  simp only [multiplyFraction, if_pos hp, Option.bind_eq_bind] at h
  obtain ⟨rounded, hround, hrest⟩ := Option.bind_eq_some_iff.mp h
  obtain ⟨divisor, hone, -⟩ := Option.bind_eq_some_iff.mp hrest
  exact ⟨(Option.ite_none_right_eq_some.mp hround).1, (Option.ite_none_right_eq_some.mp hone).1⟩

/-- The parts of the product add up to the quotients of the scaled shares. -/
theorem opens_quotients {x : S.Shares (Vec w n)} (hx : Scheme.Consistent x) (p : ℕ) (y : K) :
    OpensA (fun q r i => scaledQuotient p y (x q r i))
      fun k => BitVec.ofInt w (∑ q, (scaledShares p y x k q).tdiv (shiftedOne w p)) := by
  refine ⟨hx.map fun (v : Vec w n) i => scaledQuotient p y (v i), ?_⟩
  rw [Scheme.reconstruct, combine_add_eq_sum]
  ext k
  rw [Finset.sum_apply, ofInt_sum]
  rfl

/-- What the operator relies on apart from the shares: the scaled constant is a `long long`, and the
shift that makes the divisor is defined. -/
def ScaleDefined (w p : ℕ) (y : K) : Prop := InLongLong (nearest (y * 2 ^ p)) ∧ p < max w 32

/-- The product opens within the bound exactly where the shares of every element fit. -/
theorem accurate_iff (hS : S.last ≤ 3) (hw : 4 ≤ w) {p : ℕ} (hp : 0 < p) (y : K)
    {x : S.Shares (Vec w n)} {a : Vec w n} (hx : OpensA x a)
    (hbound : ∀ k, |(a k).toInt * nearest (y * 2 ^ p)| < 2 ^ (w - 2)) :
    Accurate p y x a ↔ ScaleDefined w p y ∧
      ∀ k, SharesFit w p (scaledShares p y x k) ((a k).toInt * nearest (y * 2 ^ p)) := by
  by_cases hdefined : ScaleDefined w p y
  · obtain ⟨hy, hp'⟩ := hdefined
    have hopens := opens_quotients hx.1 p y
    have hfit :=
      fun k => within_iff_sharesFit hw (by omega : S.last + 1 ≤ 4) (Nat.succ_pos _) hp (hbound k)
      (fun q => toInt_range _) (sum_scaledShares hx p y k)
    constructor
    · rintro ⟨z, hz, -, v, hv, hwithin⟩
      obtain rfl : z = _ := funext fun q =>
        Option.some.inj ((hz q).symm.trans (multiplyFraction_eq hp hp' hy (x q)))
      obtain rfl := hv.unique hopens
      exact ⟨⟨hy, hp'⟩, fun k => (hfit k).mp (hwithin k)⟩
    · rintro ⟨-, hshares⟩
      exact ⟨_, fun q => multiplyFraction_eq hp hp' hy (x q), fun q => rfl, _, hopens,
        fun k => (hfit k).mpr (hshares k)⟩
  · constructor
    · rintro ⟨z, hz, -⟩
      exact absurd (defined_of_multiplyFraction hp (hz 0)) hdefined
    · exact fun hshares => absurd hshares.1 hdefined

end Shares

section Multiplication

variable {K : Type} [Field K] [LinearOrder K] [FloorRing K]

/-- Two parties are accurate if the signed sum of the scaled shares does not overflow; more parties
exactly where the scaled shares fit. -/
theorem multiply_fraction_iff (hw : 4 ≤ w) {p : ℕ} (hp : 0 < p) (y : K) :
    (∀ (x : Beaver2PC.scheme.Shares (Vec w n)) (a : Vec w n), OpensA x a →
      (∀ k, |(a k).toInt * nearest (y * 2 ^ p)| < 2 ^ (w - 2)) →
      (∀ k, -2 ^ (w - 1) ≤ ∑ q, scaledShares p y x k q ∧ ∑ q, scaledShares p y x k q < 2 ^ (w - 1)) →
      (Accurate p y x a ↔ ScaleDefined w p y)) ∧
    ∀ S : Scheme, S = Replicated3PC.scheme ∨ S = Fantastic4PC.scheme ∨ S = Custom4PC.scheme →
      ∀ (x : S.Shares (Vec w n)) (a : Vec w n), OpensA x a →
        (∀ k, |(a k).toInt * nearest (y * 2 ^ p)| < 2 ^ (w - 2)) →
        (Accurate p y x a ↔ ScaleDefined w p y ∧
          ∀ k, SharesFit w p (scaledShares p y x k) ((a k).toInt * nearest (y * 2 ^ p))) := by
  refine ⟨fun x a hx hbound hfits => ?_, fun S hS x a hx hbound => ?_⟩
  · rw [accurate_iff (by decide) hw hp y hx hbound]
    refine and_iff_left fun k =>
      sharesFit_of_sum_eq (Nat.succ_pos _) (hbound k) (fun q => toInt_range _) ?_
    have hdvd := sum_scaledShares hx p y k
    have hsmall : |(∑ q, scaledShares p y x k q) - (a k).toInt * nearest (y * 2 ^ p)| < 2 ^ w := by
      have hxs := abs_lt.mp (hbound k)
      have hrange := hfits k
      have hhalf : (2 : ℤ) ^ w = 2 ^ (w - 1) + 2 ^ (w - 1) := by
        rw [← two_mul, ← pow_succ']
        congr 1
        omega
      have hquarter : (2 : ℤ) ^ (w - 2) ≤ 2 ^ (w - 1) := pow_le_pow_right₀ (by decide) (by omega)
      rw [abs_lt]
      constructor <;> linarith
    exact sub_eq_zero.mp (Int.eq_zero_of_abs_lt_dvd hdvd hsmall)
  · refine accurate_iff ?_ hw hp y hx hbound
    rcases hS with rfl | rfl | rfl <;> decide

end Multiplication

theorem nearest_one (p : ℕ) : nearest ((1 : ℚ) * 2 ^ p) = 2 ^ p := by
  have hnonneg : (0 : ℚ) ≤ 1 * 2 ^ p := by positivity
  have hcast : (1 : ℚ) * 2 ^ p = ((2 ^ p : ℤ) : ℚ) := by push_cast; rw [one_mul]
  rw [nearest, if_pos hnonneg, hcast, round_intCast]

/-- Zero in three parts, with two large ones. -/
def largeZero : Replicated3PC.scheme.Shares (Vec 64 1) :=
  Scheme.deal ![![2 ^ 47], ![-2 ^ 47], ![0]]

theorem opens_largeZero : OpensA largeZero (0 : Vec 64 1) := ⟨⟨_, rfl⟩, by decide⟩

theorem largeZero_bound (k : Fin 1) :
    |((0 : Vec 64 1) k).toInt * nearest ((1 : ℚ) * 2 ^ 16)| < 2 ^ (64 - 2) := by
  have hzero : ((0 : Vec 64 1) k).toInt = 0 := rfl
  rw [hzero, zero_mul, abs_zero]
  decide

theorem multiply_fraction_iff_one :
    Accurate 16 (1 : ℚ) largeZero (0 : Vec 64 1) ↔
      ScaleDefined 64 16 (1 : ℚ) ∧ ∀ k, SharesFit 64 16 (scaledShares 16 (1 : ℚ) largeZero k)
        (((0 : Vec 64 1) k).toInt * nearest ((1 : ℚ) * 2 ^ 16)) :=
  (multiply_fraction_iff (by decide) (by decide) (1 : ℚ)).2 _ (Or.inl rfl) largeZero 0 opens_largeZero
    largeZero_bound

/-- Both scaled shares are the least element, and zero times one opens to `-2 ^ 48`. -/
theorem multiply_fraction_fails :
    ¬ ∀ (w p n : ℕ) (y : ℚ) (x : Replicated3PC.scheme.Shares (Vec w n)) (a : Vec w n),
      8 ≤ w → w ≤ 64 → 0 < p → OpensA x a →
      (∀ k, |(a k).toInt * nearest (y * 2 ^ p)| < 2 ^ (w - 2)) → Accurate p y x a := by
  intro hall
  have hzero : ((0 : Vec 64 1) 0).toInt = 0 := rfl
  have haccurate := hall 64 16 1 1 largeZero 0 (by decide) (by decide) (by decide) opens_largeZero
    largeZero_bound
  have hshares := ((accurate_iff (by decide) (by decide) (by decide) 1 opens_largeZero
    largeZero_bound).mp haccurate).2 0
  have hsum : ∑ q, scaledShares 16 (1 : ℚ) largeZero 0 q = -2 ^ 64 := by
    simp only [scaledShares, nearest_one]
    decide
  rw [SharesFit, hsum, hzero, zero_mul, sub_zero] at hshares
  rcases hshares with hlarge | ⟨hpw, -⟩ | ⟨-, hdvd⟩
  · exact absurd hlarge (by decide)
  · exact absurd hpw (by decide)
  · exact absurd hdvd (by decide)

end CryptDough
