import CryptDough.EdaBitsComparison

/-! Division by a power of two with edaBits. -/

namespace CryptDough

open Execution ArithmeticProtocol

section Integers

variable {M P q rho : ℤ}

/-- What the code makes of an opened value with quotient `q` and remainder `rho`: the wrap bit is taken
off and the rest divided, both rounding towards zero. -/
theorem tdiv_tmod_of_nonneg (hM : 0 < M) (hrho : 0 ≤ rho ∧ rho < M) (hq : 0 ≤ q ∧ q < P) :
    ((q * M + rho).tmod (P * M)).tdiv M = q := by
  have hnonneg : 0 ≤ q * M + rho := by
    have := mul_nonneg hq.1 hM.le
    omega
  have hlt : q * M + rho < P * M := by
    have := mul_le_mul_of_nonneg_right (Int.add_one_le_iff.mpr hq.2) hM.le
    linarith [hrho.2]
  rw [Int.tmod_eq_of_lt hnonneg hlt, Int.tdiv_eq_ediv_of_nonneg hnonneg, add_comm,
    Int.add_mul_ediv_right _ _ hM.ne', Int.ediv_eq_zero_of_lt hrho.1 hrho.2, zero_add]

theorem tdiv_tmod_of_neg (hM : 0 < M) (hrho : 0 ≤ rho ∧ rho < M) (hq : -P ≤ q ∧ q < 0) :
    ((q * M + rho).tmod (P * M)).tdiv M =
      if rho = 0 then if q = -P then 0 else q else q + 1 := by
  have hneg : q * M + rho < 0 := by
    have := mul_le_mul_of_nonneg_right (Int.add_one_le_iff.mpr hq.2) hM.le
    linarith [hrho.2]
  by_cases hmin : rho = 0 ∧ q = -P
  · rw [if_pos hmin.1, if_pos hmin.2, hmin.1, hmin.2]
    simp
  · have hgt : -(P * M) < q * M + rho := by
      have hle := mul_le_mul_of_nonneg_right hq.1 hM.le
      rcases eq_or_ne rho 0 with hzero | hpos
      · have hlt := mul_lt_mul_of_pos_right (lt_of_le_of_ne hq.1 fun h => hmin ⟨hzero, h.symm⟩) hM
        linarith
      · have : 0 < rho := by omega
        linarith
    have htmod : (q * M + rho).tmod (P * M) = q * M + rho := by
      rw [← neg_neg (q * M + rho), Int.neg_tmod, Int.tmod_eq_of_lt (by omega) (by omega)]
    have hediv : (q * M + rho) / M = q := by
      rw [add_comm, Int.add_mul_ediv_right _ _ hM.ne', Int.ediv_eq_zero_of_lt hrho.1 hrho.2, zero_add]
    have hdvd : M ∣ q * M + rho ↔ rho = 0 := by
      rw [Int.dvd_add_right (Dvd.intro_left q rfl)]
      refine ⟨fun h => Int.eq_zero_of_dvd_of_nonneg_of_lt hrho.1 hrho.2 h, fun h => h ▸ dvd_zero M⟩
    rw [htmod, Int.tdiv_eq_ediv, hediv]
    by_cases hzero : rho = 0
    · have hne : q ≠ -P := fun h => hmin ⟨hzero, h⟩
      simp [hzero, hne]
    · have hnot : ¬ 0 ≤ q * M + rho := by omega
      simp [hdvd, hzero, hnot, Int.sign_eq_one_of_pos hM]

/-- The result at an element, as an integer: `c` is the opened value, `b` and `ra` mask it. -/
def divided (M P c b ra : ℤ) : ℤ :=
  (c.tmod (P * M)).tdiv M - ra + if c < 0 ↔ b = 1 then 0 else P

variable {X b ra ra_ c : ℤ}

theorem mul_add_neg_iff (hM : 0 < M) (hrho : 0 ≤ rho ∧ rho < M) : q * M + rho < 0 ↔ q < 0 := by
  constructor
  · intro hneg
    by_contra hle
    have := mul_nonneg (not_lt.mp hle) hM.le
    omega
  · intro hneg
    have := mul_le_mul_of_nonneg_right (Int.add_one_le_iff.mpr hneg) hM.le
    linarith [hrho.2]

theorem divided_of_nonneg (hM : 0 < M) (hrho : 0 ≤ rho ∧ rho < M) (hq : 0 ≤ q ∧ q < P) :
    divided M P (q * M + rho) b ra = q - ra + if b = 1 then P else 0 := by
  have hnonneg : ¬ q * M + rho < 0 := by
    rw [mul_add_neg_iff hM hrho]
    omega
  rw [divided, tdiv_tmod_of_nonneg hM hrho hq]
  by_cases hb : b = 1
  · simp [hnonneg, hb]
  · simp [hnonneg, hb]

theorem divided_of_neg (hM : 0 < M) (hrho : 0 ≤ rho ∧ rho < M) (hq : -P ≤ q ∧ q < 0) :
    divided M P (q * M + rho) b ra =
      (if rho = 0 then if q = -P then 0 else q else q + 1) - ra + if b = 1 then 0 else P := by
  have hneg : q * M + rho < 0 := (mul_add_neg_iff hM hrho).mpr hq.2
  rw [divided, tdiv_tmod_of_neg hM hrho hq]
  simp only [hneg, true_iff]

/-- The masked value before it wraps around has the quotient `Q` and the remainder `rho`. -/
structure Masked (M P X ra ra_ Q rho : ℤ) : Prop where
  sum : X + (ra * M + ra_) = Q * M + rho
  rho_nonneg : 0 ≤ rho
  rho_lt : rho < M
  lower : -P < Q
  upper : Q < 2 * P - 1
  quotient : (Q = X / M + ra ∧ rho = X % M + ra_) ∨ (Q = X / M + ra + 1 ∧ rho = X % M + ra_ - M)

theorem exists_masked (hM : 0 < M) (hP : 2 ≤ P) (hX : -(P * M) < 2 * X ∧ 2 * X < P * M)
    (hra : 0 ≤ ra ∧ ra < P) (hra_ : 0 ≤ ra_ ∧ ra_ < M) : ∃ Q rho, Masked M P X ra ra_ Q rho := by
  have hfloor := Int.mul_ediv_add_emod X M
  have hmod := Int.emod_nonneg X hM.ne'
  have hmod' := Int.emod_lt_of_pos X hM
  have hN : 2 * M ≤ P * M := mul_le_mul_of_nonneg_right hP hM.le
  have hshift : ra * M + M ≤ P * M := by
    have := mul_le_mul_of_nonneg_right (Int.add_one_le_iff.mpr hra.2) hM.le
    linarith
  have hra0 : 0 ≤ ra * M := mul_nonneg hra.1 hM.le
  obtain ⟨Q, rho, hsum, hrho, hquotient⟩ : ∃ Q rho, X + (ra * M + ra_) = Q * M + rho ∧
      (0 ≤ rho ∧ rho < M) ∧ ((Q = X / M + ra ∧ rho = X % M + ra_) ∨
        (Q = X / M + ra + 1 ∧ rho = X % M + ra_ - M)) := by
    by_cases hcarry : X % M + ra_ < M
    · exact ⟨_, _, by linarith, ⟨by omega, hcarry⟩, .inl ⟨rfl, rfl⟩⟩
    · exact ⟨_, _, by linarith, ⟨by omega, by omega⟩, .inr ⟨rfl, rfl⟩⟩
  refine ⟨Q, rho, hsum, hrho.1, hrho.2, ?_, ?_, hquotient⟩
  · by_contra hle
    have := mul_le_mul_of_nonneg_right (not_lt.mp hle) hM.le
    linarith
  · by_contra hle
    have := mul_le_mul_of_nonneg_right (not_lt.mp hle) hM.le
    linarith

namespace Masked

variable {Q rho : ℤ}

theorem lt_iff (hmasked : Masked M P X ra ra_ Q rho) (hM : 0 < M) (q : ℤ) :
    X + (ra * M + ra_) < q * M ↔ Q < q := by
  have hneg : (Q - q) * M + rho < 0 ↔ Q - q < 0 :=
    mul_add_neg_iff hM ⟨hmasked.rho_nonneg, hmasked.rho_lt⟩
  rw [sub_mul] at hneg
  rw [hmasked.sum]
  constructor
  · intro hlt
    have := hneg.mp (by linarith)
    omega
  · intro hlt
    have := hneg.mpr (by omega)
    linarith

theorem eq_iff (hmasked : Masked M P X ra ra_ Q rho) (hM : 0 < M) (q : ℤ) :
    X + (ra * M + ra_) = q * M ↔ Q = q ∧ rho = 0 := by
  constructor
  · intro heq
    have hlt := (hmasked.lt_iff hM (q + 1)).mp (by linarith)
    have hge : q ≤ Q := by
      by_contra hlt'
      exact absurd ((hmasked.lt_iff hM q).mpr (not_le.mp hlt')) (by omega)
    obtain rfl : Q = q := by omega
    exact ⟨rfl, by linarith [hmasked.sum]⟩
  · rintro ⟨rfl, hzero⟩
    rw [hmasked.sum, hzero, add_zero]

end Masked

/-- The condition of the theorem below in terms of quotient and remainder. -/
theorem Masked.condition_iff {Q rho : ℤ} (hmasked : Masked M P X ra ra_ Q rho) (hM : 0 < M) :
    (0 ≤ X + (ra * M + ra_) ∧
        (b = 0 ∧ X + (ra * M + ra_) ≤ P * M ∨
          b = 1 ∧ (X + (ra * M + ra_) = 0 ∨ P * M ≤ X + (ra * M + ra_)) ∨
          P = 2 ∧ M < X % M + ra_)) ↔
      0 ≤ Q ∧ (b = 0 ∧ (Q < P ∨ Q = P ∧ rho = 0) ∨ b = 1 ∧ (Q = 0 ∧ rho = 0 ∨ P ≤ Q) ∨
        P = 2 ∧ Q = X / M + ra + 1 ∧ rho ≠ 0) := by
  have hneg : X + (ra * M + ra_) < 0 ↔ Q < 0 := by
    simpa using hmasked.lt_iff hM 0
  have hbig := hmasked.lt_iff hM P
  have hzero : X + (ra * M + ra_) = 0 ↔ Q = 0 ∧ rho = 0 := by
    simpa using hmasked.eq_iff hM 0
  have hwrap := hmasked.eq_iff hM P
  have hround : M < X % M + ra_ ↔ Q = X / M + ra + 1 ∧ rho ≠ 0 := by
    have hquotient := hmasked.quotient
    have hnonneg := hmasked.rho_nonneg
    have hlt := hmasked.rho_lt
    omega
  have hnonneg : 0 ≤ X + (ra * M + ra_) ↔ 0 ≤ Q := by
    rw [← not_lt, hneg, not_lt]
  have hge : P * M ≤ X + (ra * M + ra_) ↔ P ≤ Q := by
    rw [← not_lt, hbig, not_lt]
  have hle : X + (ra * M + ra_) ≤ P * M ↔ Q < P ∨ Q = P ∧ rho = 0 := by
    rw [le_iff_lt_or_eq, hbig, hwrap]
  rw [hround, hnonneg, hle, hzero, hge]

/-- The result is the quotient or one more exactly if the masked value is not negative and either the
wrap bit comes off or, with a mask of two values, rounding makes up for it. -/
theorem divided_iff (hM : 0 < M) (hP : 2 ≤ P) (hX : -(P * M) < 2 * X ∧ 2 * X < P * M)
    (hra : 0 ≤ ra ∧ ra < P) (hra_ : 0 ≤ ra_ ∧ ra_ < M) (hb : b = 0 ∨ b = 1)
    (hc : c = if X + (ra * M + ra_) + b * (P * M) < P * M then X + (ra * M + ra_) + b * (P * M)
      else X + (ra * M + ra_) + b * (P * M) - 2 * (P * M)) :
    (-P ≤ divided M P c b ra - X / M ∧ divided M P c b ra - X / M ≤ 2 * P + 1) ∧
    ((divided M P c b ra = X / M ∨ divided M P c b ra = X / M + 1) ↔
      0 ≤ X + (ra * M + ra_) ∧
        (b = 0 ∧ X + (ra * M + ra_) ≤ P * M ∨
          b = 1 ∧ (X + (ra * M + ra_) = 0 ∨ P * M ≤ X + (ra * M + ra_)) ∨
          P = 2 ∧ M < X % M + ra_)) := by
  obtain ⟨Q, rho, hmasked⟩ := exists_masked hM hP hX hra hra_
  have hrho := And.intro hmasked.rho_nonneg hmasked.rho_lt
  have hlower := hmasked.lower
  have hupper := hmasked.upper
  have hquotient : Q = X / M + ra ∨ Q = X / M + ra + 1 :=
    hmasked.quotient.imp And.left And.left
  have hneg : X + (ra * M + ra_) < 0 ↔ Q < 0 := by
    simpa using hmasked.lt_iff hM 0
  have hbig := hmasked.lt_iff hM P
  rw [hmasked.condition_iff hM]
  rw [hmasked.sum] at hc hneg hbig
  clear hX hra_ hmasked
  rcases hb with rfl | rfl
  · rw [zero_mul, add_zero] at hc
    rcases lt_or_ge Q 0 with hQ | hQ
    · have hcQ : c = Q * M + rho := by
        rw [hc, if_pos (hbig.mpr (by omega))]
      rw [hcQ, divided_of_neg hM hrho ⟨hlower.le, hQ⟩]
      clear hc hcQ hneg hbig
      split_ifs <;> omega
    · rcases lt_or_ge Q P with hQP | hQP
      · have hcQ : c = Q * M + rho := by
          rw [hc, if_pos (hbig.mpr hQP)]
        rw [hcQ, divided_of_nonneg hM hrho ⟨hQ, hQP⟩]
        clear hc hcQ hneg hbig
        split_ifs <;> omega
      · have hcQ : c = (Q - 2 * P) * M + rho := by
          rw [hc, if_neg (fun h => absurd (hbig.mp h) (by omega))]
          ring
        rw [hcQ, divided_of_neg hM hrho ⟨by omega, by omega⟩]
        clear hc hcQ hneg hbig
        split_ifs <;> omega
  · rw [one_mul] at hc
    rcases lt_or_ge Q 0 with hQ | hQ
    · have hcQ : c = (Q + P) * M + rho := by
        rw [hc, if_pos (by have := hneg.mpr hQ; omega)]
        ring
      rw [hcQ, divided_of_nonneg hM hrho ⟨by omega, by omega⟩]
      clear hc hcQ hneg hbig
      split_ifs <;> omega
    · have hcQ : c = (Q - P) * M + rho := by
        rw [hc, if_neg (fun h => absurd (hneg.mp (by omega)) (by omega))]
        ring
      rcases lt_or_ge Q P with hQP | hQP
      · rw [hcQ, divided_of_neg hM hrho ⟨by omega, by omega⟩]
        clear hc hcQ hneg hbig
        split_ifs <;> omega
      · rw [hcQ, divided_of_nonneg hM hrho ⟨by omega, by omega⟩]
        clear hc hcQ hneg hbig
        split_ifs <;> omega

end Integers

namespace EdabitsProtocol

variable {w n : ℕ}

theorem powerOf_two_pow (m : ℕ) : powerOf (2 ^ m) = m := by
  induction m with
  | zero => simp [powerOf]
  | succ m ih =>
      have hlt : 1 < 2 ^ (m + 1) := Nat.one_lt_two_pow (Nat.succ_ne_zero m)
      have hhalf : 2 ^ (m + 1) / 2 = 2 ^ m := by
        rw [pow_succ]
        exact Nat.mul_div_cancel _ Nat.two_pos
      rw [powerOf, if_pos hlt, hhalf, ih]

theorem toInt_twoPow {m : ℕ} (hm : m + 1 < w) : (BitVec.twoPow w m).toInt = 2 ^ m := by
  rw [BitVec.toInt_twoPow, if_neg (by omega), if_neg (by omega)]

theorem toInt_twoPow_top (hw : 0 < w) : (BitVec.twoPow w (w - 1)).toInt = -2 ^ (w - 1) := by
  rw [BitVec.toInt_twoPow, if_neg (by omega), if_pos (by omega)]
  push_cast
  rfl

theorem isPowerOfTwo_twoPow {m : ℕ} (hm : m + 1 < w) : 0 < (BitVec.twoPow w m).toInt ∧
    BitVec.twoPow w m &&& (BitVec.twoPow w m - 1) = 0 := by
  constructor
  · rw [toInt_twoPow hm]
    positivity
  · have hpow : (BitVec.twoPow w m).toNat = 2 ^ m := BitVec.toNat_twoPow_of_lt (by omega)
    have hone : (1 : BitVec w).toNat = 1 := BitVec.toNat_one (by omega)
    have hle : (1 : BitVec w) ≤ BitVec.twoPow w m := by
      rw [BitVec.le_def, hpow, hone]
      exact Nat.one_le_two_pow
    apply BitVec.eq_of_toNat_eq
    rw [BitVec.toNat_and, BitVec.toNat_sub_of_le hle, hpow, hone, Nat.and_two_pow_sub_one_eq_mod,
      Nat.mod_self]
    rfl

theorem two_mul_two_pow_pred (hw : 0 < w) : (2 : ℤ) ^ w = 2 * 2 ^ (w - 1) := by
  rw [← pow_succ']
  congr 1
  omega

theorem toInt_ofInt_eq_iff {R F : ℤ} (hw : 0 < w) (hF : -2 ^ (w - 1) ≤ F ∧ F < 2 ^ (w - 1))
    (hR : -2 ^ w < R - F ∧ R - F < 2 ^ w) : (BitVec.ofInt w R).toInt = F ↔ R = F := by
  have hpow := two_mul_two_pow_pred hw
  rw [BitVec.toInt_ofInt]
  constructor
  · intro heq
    obtain ⟨-, -, hdvd⟩ := (Int.bmod_eq_iff (Nat.two_pow_pos w)).mp heq
    have hzero : F - R = 0 := by
      apply Int.eq_zero_of_abs_lt_dvd hdvd
      push_cast
      rw [abs_lt]
      omega
    omega
  · rintro rfl
    apply Int.bmod_eq_of_le_mul_two
    · push_cast
      omega
    · push_cast
      omega

/-- An opened value that leaves the signed integers by at most half of them wraps around once. -/
theorem bmod_eq_ite {T : ℤ} (hw : 0 < w) (hT : -2 ^ (w - 1) ≤ T ∧ T < 3 * 2 ^ (w - 1)) :
    T.bmod (2 ^ w) = if T < 2 ^ (w - 1) then T else T - 2 * 2 ^ (w - 1) := by
  have hpow := two_mul_two_pow_pred hw
  split_ifs with hlt
  · apply Int.bmod_eq_of_le_mul_two
    · push_cast
      omega
    · push_cast
      omega
  · have hsub : (T - (2 ^ w : ℕ)).bmod (2 ^ w) = T - 2 ^ w := by
      apply Int.bmod_eq_of_le_mul_two
      · push_cast
        omega
      · push_cast
        omega
    rw [Int.sub_bmod_right] at hsub
    rw [hsub, hpow]

theorem bitOf_eq_ofInt (b : Bool) : (bitOf b : BitVec w) = BitVec.ofInt w (if b then 1 else 0) := by
  cases b <;> simp [bitOf]

theorem setWidth_eq_ofInt {len : ℕ} (r : BitVec len) : r.setWidth w = BitVec.ofInt w r.toNat := by
  apply BitVec.eq_of_toNat_eq
  rw [BitVec.ofInt_natCast, BitVec.toNat_setWidth, BitVec.toNat_ofNat]

theorem ofInt_sub (i j : ℤ) : BitVec.ofInt w (i - j) = BitVec.ofInt w i - BitVec.ofInt w j := by
  rw [sub_eq_add_neg, BitVec.ofInt_add, BitVec.ofInt_neg, sub_eq_add_neg]

theorem twoPow_eq_ofInt (i : ℕ) : BitVec.twoPow w i = BitVec.ofInt w (2 ^ i) := by
  rw [← ofNat_two_pow, ← BitVec.ofInt_natCast]
  push_cast
  rfl

theorem sdiv_srem_eq_ofInt {m : ℕ} (hm : m + 1 < w) (c : BitVec w) :
    (c.srem (BitVec.twoPow w (w - 1))).sdiv (BitVec.twoPow w m) =
      BitVec.ofInt w ((c.toInt.tmod (2 ^ (w - 1))).tdiv (2 ^ m)) := by
  apply BitVec.eq_of_toInt_eq
  rw [BitVec.toInt_sdiv, BitVec.toInt_srem, BitVec.toInt_ofInt, toInt_twoPow hm,
    toInt_twoPow_top (by omega), Int.tmod_neg]

theorem two_pow_mul_two_pow {m : ℕ} (hm : m + 1 < w) :
    (2 : ℤ) ^ (w - 1 - m) * 2 ^ m = 2 ^ (w - 1) := by
  rw [← pow_add]
  congr 1
  omega

theorem setWidth_one_eq (b : BitVec 1) : b.setWidth w = bitOf (b.getLsbD 0) := by
  rcases BitVec.eq_zero_or_eq_one b with rfl | rfl
  · simp [bitOf]
  · apply BitVec.eq_of_toNat_eq
    simp [bitOf]

theorem toNat_one_eq_iff (b : BitVec 1) : (b.toNat : ℤ) = 1 ↔ b.getLsbD 0 = true := by
  rcases BitVec.eq_zero_or_eq_one b with rfl | rfl
  · simp
  · simp

/-- The result of the truncation at an element. -/
theorem quotient_eq_ofInt {m : ℕ} (hm : m + 1 < w) (c : BitVec w) (ra : BitVec (w - 1 - m))
    (b : BitVec 1) :
    (c.srem (BitVec.twoPow w (w - 1))).sdiv (BitVec.twoPow w m) - ra.setWidth w +
        (b.setWidth w + bitOf (c.getLsbD (w - 1)) - b.setWidth w * bitOf (c.getLsbD (w - 1)) * 2) *
          BitVec.twoPow w (w - 1 - m) =
      BitVec.ofInt w (divided (2 ^ m) (2 ^ (w - 1 - m)) c.toInt b.toNat ra.toNat) := by
  have hsign : (b.setWidth w + bitOf (c.getLsbD (w - 1)) -
      b.setWidth w * bitOf (c.getLsbD (w - 1)) * 2) * BitVec.twoPow w (w - 1 - m) =
      BitVec.ofInt w (if c.toInt < 0 ↔ (b.toNat : ℤ) = 1 then 0 else 2 ^ (w - 1 - m)) := by
    have hmsb : c.getLsbD (w - 1) = decide (c.toInt < 0) := by
      rw [← BitVec.msb_eq_getLsbD_last, BitVec.msb_eq_toInt]
    rw [setWidth_one_eq, bitOf_xor, bitOf_eq_ofInt, twoPow_eq_ofInt, ← BitVec.ofInt_mul, hmsb]
    congr 1
    simp only [toNat_one_eq_iff]
    by_cases hc : c.toInt < 0
    · cases b.getLsbD 0 <;> simp [hc]
    · cases b.getLsbD 0 <;> simp [hc]
  rw [hsign, sdiv_srem_eq_ofInt hm, setWidth_eq_ofInt, ← ofInt_sub, ← BitVec.ofInt_add, divided,
    two_pow_mul_two_pow hm]

/-- The opened value, as an integer. -/
theorem opened_eq_ofInt {m : ℕ} (x : BitVec w) (ra : BitVec (w - 1 - m)) (ra_ : BitVec m) (b : BitVec 1) :
    x + b.setWidth w * BitVec.twoPow w (w - 1) + ra.setWidth w * BitVec.twoPow w m + ra_.setWidth w =
      BitVec.ofInt w (x.toInt + (ra.toNat * 2 ^ m + ra_.toNat) + b.toNat * 2 ^ (w - 1)) := by
  rw [setWidth_eq_ofInt, setWidth_eq_ofInt, setWidth_eq_ofInt, twoPow_eq_ofInt, twoPow_eq_ofInt,
    BitVec.ofInt_add, BitVec.ofInt_add, BitVec.ofInt_add, BitVec.ofInt_mul, BitVec.ofInt_mul,
    BitVec.ofInt_toInt]
  ring

variable {E : EdabitsProtocol w n} {x : E.Container} {u : Vec w n}

/-- What the truncation opens to at each element. -/
theorem truncated_yields {m : ℕ} (hm : m + 1 < w) (hx : E.aProtocol.Opens x u)
    (ra : EdaBits E.aProtocol (w - 1 - m)) (ra_ : EdaBits E.aProtocol m)
    (rbit : EdaBits E.aProtocol 1) :
    E.aProtocol.Yields (E.truncated x m ra ra_ rbit) fun z => E.aProtocol.Opens z fun k =>
      BitVec.ofInt w (divided (2 ^ m) (2 ^ (w - 1 - m))
        (((u k).toInt + ((ra.random k).toNat * 2 ^ m + (ra_.random k).toNat) +
          (rbit.random k).toNat * 2 ^ (w - 1)).bmod (2 ^ w))
        (rbit.random k).toNat (ra.random k).toNat) := by
  apply (((hx.add (rbit.sum_opens.mul _)).add (ra.sum_opens.mul _)).add
    ra_.sum_opens).openSharesA.bind
  intro c hc
  apply Meets.pure
  apply (((Opens.publicShare _).sub ra.sum_opens).add
    (((rbit.sum_opens.add (Opens.publicShare _)).sub ((rbit.sum_opens.mul _).mul _)).mul _)).congr
  ext1 k
  have hck : c k = BitVec.ofInt w ((u k).toInt + ((ra.random k).toNat * 2 ^ m +
      (ra_.random k).toNat) + (rbit.random k).toNat * 2 ^ (w - 1)) := by
    rw [← opened_eq_ofInt, hc]
    rfl
  rw [← BitVec.toInt_ofInt, ← hck, ← quotient_eq_ofInt hm]
  rfl

theorem powerOf_twoPow {m : ℕ} (hm : m + 1 < w) : powerOf (BitVec.twoPow w m).toInt.toNat = m := by
  have hpow : (BitVec.twoPow w m).toInt.toNat = 2 ^ m := by
    rw [toInt_twoPow hm]
    exact Int.toNat_natCast (2 ^ m)
  rw [hpow, powerOf_two_pow]

theorem divConstA_true {m : ℕ} (hm : m + 1 < w) (x : E.Container) :
    E.divConstA true x (BitVec.twoPow w m) = do
      let edaBits ← E.getEdaBits w
      let diffOpened ← E.aProtocol.openSharesA (x - edaBits.sum)
      let rca ← publicRca E.aProtocol edaBits.bits diffOpened w (some 0) none m
      return (rca.res.getD 0, 0) := by
  simp only [divConstA, if_pos (isPowerOfTwo_twoPow hm), if_true, BitVec.ofInt_toInt,
    powerOf_twoPow hm]

theorem divConstA_false {m : ℕ} (hm : m + 1 < w) (x : E.Container) :
    E.divConstA false x (BitVec.twoPow w m) = do
      return (← E.truncate x m, 0) := by
  simp only [divConstA, if_pos (isPowerOfTwo_twoPow hm), Bool.false_eq_true, if_false,
    BitVec.ofInt_toInt, powerOf_twoPow hm]

/-- With the correction the quotient is rounded down. -/
theorem divConstA_corrected {m : ℕ} (hm : m + 1 < w) (hx : E.aProtocol.Opens x u) :
    E.aProtocol.Yields (E.divConstA true x (BitVec.twoPow w m)) fun q =>
      E.aProtocol.Opens q.1 fun k => BitVec.ofInt w ((u k).toInt / 2 ^ m) := by
  rw [divConstA_true hm]
  apply (E.getEdaBits_yields w).bind
  intro edaBits _
  apply (hx.sub edaBits.sum_opens).openSharesA.bind
  intro opened hopened
  apply (publicRca_yields (by omega) fun z hz => (Option.some.inj hz) ▸ Opens.zero).bind
  rintro rca ⟨-, hsome, hres⟩
  apply Meets.pure
  obtain ⟨res, hrca⟩ := Option.isSome_iff_exists.mp (hsome rfl)
  rw [hrca]
  apply (hres res hrca).congr
  ext1 k
  rw [hopened]
  simp

/-- The edaBits that `truncate` obtains from the state `s`, and its result. -/
theorem truncate_outcome {m : ℕ} (hm : m + 1 < w) (hx : E.aProtocol.Opens x u) {s : E.State}
    (hs : E.aProtocol.Inv s) : ∃ ra s₁ ra_ s₂ rbit s₃ z s',
      outcome (E.getEdaBits (w - 1 - m)) s = (some ra, s₁) ∧
      outcome (E.getEdaBits m) s₁ = (some ra_, s₂) ∧
      outcome (E.getEdaBits 1) s₂ = (some rbit, s₃) ∧
      outcome (E.divConstA false x (BitVec.twoPow w m)) s = (some (z, 0), s') ∧
      E.aProtocol.Opens z fun k =>
        BitVec.ofInt w (divided (2 ^ m) (2 ^ (w - 1 - m))
          (((u k).toInt + ((ra.random k).toNat * 2 ^ m + (ra_.random k).toNat) +
            (rbit.random k).toNat * 2 ^ (w - 1)).bmod (2 ^ w))
          (rbit.random k).toNat (ra.random k).toNat) := by
  obtain ⟨ra, s₁, hra, -, hs₁⟩ := (E.getEdaBits_yields (w - 1 - m)).exists_result hs
  obtain ⟨ra_, s₂, hra_, -, hs₂⟩ := (E.getEdaBits_yields m).exists_result hs₁
  obtain ⟨rbit, s₃, hrbit, -, hs₃⟩ := (E.getEdaBits_yields 1).exists_result hs₂
  obtain ⟨z, s', hz, hopens, -⟩ := (truncated_yields hm hx ra ra_ rbit).exists_result hs₃
  refine ⟨ra, s₁, ra_, s₂, rbit, s₃, z, s', hra, hra_, hrbit, ?_, hopens⟩
  rw [divConstA_false hm, truncate]
  simp only [outcome_bind, hra, hra_, hrbit, hz, outcome_pure]

theorem ediv_two_pow_bounds {X : ℤ} {B : ℤ} (hX : |X| < B) (m : ℕ) :
    -B ≤ X / 2 ^ m ∧ X / 2 ^ m < B := by
  have hM : (0 : ℤ) < 2 ^ m := by positivity
  have hB : B ≤ B * 2 ^ m := le_mul_of_one_le_right (by linarith [abs_nonneg X]) (by omega)
  rw [abs_lt] at hX
  constructor
  · rw [Int.le_ediv_iff_mul_le hM]
    linarith
  · rw [Int.ediv_lt_iff_lt_mul hM]
    linarith

/-- The condition for the division to be right at an element. -/
theorem divided_right_iff {m : ℕ} (hm : 0 < m ∧ m < w - 1) {X : ℤ} (hX : |X| < 2 ^ (w - 2))
    (ra : BitVec (w - 1 - m)) (ra_ : BitVec m) (b : BitVec 1) :
    let r : ℤ := ra.toNat * 2 ^ m + ra_.toNat
    let res := BitVec.ofInt w (divided (2 ^ m) (2 ^ (w - 1 - m))
      ((X + r + b.toNat * 2 ^ (w - 1)).bmod (2 ^ w)) b.toNat ra.toNat)
    (res.toInt = X / 2 ^ m ∨ res.toInt = X / 2 ^ m + 1) ↔
      0 ≤ X + r ∧ (b = 0 ∧ X + r ≤ 2 ^ (w - 1) ∨ b = 1 ∧ (X + r = 0 ∨ 2 ^ (w - 1) ≤ X + r) ∨
        m = w - 2 ∧ 2 ^ m < X % 2 ^ m + ra_.toNat) := by
  intro r res
  have hM : (2 : ℤ) ≤ 2 ^ m := le_self_pow₀ (by norm_num) (by omega)
  have hP : (2 : ℤ) ≤ 2 ^ (w - 1 - m) := le_self_pow₀ (by norm_num) (by omega)
  have hN : (2 : ℤ) ^ (w - 1 - m) * 2 ^ m = 2 ^ (w - 1) := two_pow_mul_two_pow (by omega)
  have hhalf : (2 : ℤ) ^ (w - 1) = 2 * 2 ^ (w - 2) := two_mul_two_pow_pred (w := w - 1) (by omega)
  have hfull := two_mul_two_pow_pred (w := w) (by omega)
  have hra : (ra.toNat : ℤ) < 2 ^ (w - 1 - m) := by exact_mod_cast ra.isLt
  have hra_ : (ra_.toNat : ℤ) < 2 ^ m := by exact_mod_cast ra_.isLt
  have hX' := abs_lt.mp hX
  have hb : (b.toNat : ℤ) = 0 ∧ b = 0 ∨ (b.toNat : ℤ) = 1 ∧ b = 1 := by
    rcases BitVec.eq_zero_or_eq_one b with rfl | rfl
    · exact .inl ⟨rfl, rfl⟩
    · exact .inr ⟨rfl, rfl⟩
  have hr : 0 ≤ r ∧ r < 2 ^ (w - 1) := by
    have hle := mul_le_mul_of_nonneg_right (Int.add_one_le_iff.mpr hra) (by positivity : (0 : ℤ) ≤ 2 ^ m)
    constructor
    · positivity
    · rw [← hN]
      linarith
  have hT : -2 ^ (w - 1) ≤ X + r + b.toNat * 2 ^ (w - 1) ∧
      X + r + b.toNat * 2 ^ (w - 1) < 3 * 2 ^ (w - 1) := by
    rcases hb with ⟨hb, -⟩ | ⟨hb, -⟩
    · rw [hb]
      constructor <;> linarith
    · rw [hb]
      constructor <;> linarith
  have hwrap := bmod_eq_ite (by omega) hT
  have hXN : -((2 : ℤ) ^ (w - 1 - m) * 2 ^ m) < 2 * X ∧ 2 * X < 2 ^ (w - 1 - m) * 2 ^ m := by
    rw [hN]
    omega
  rw [← hN] at hwrap
  obtain ⟨hbounds, hiff⟩ := divided_iff (by linarith) hP hXN ⟨by positivity, hra⟩
    ⟨by positivity, hra_⟩ (hb.imp And.left And.left) hwrap
  rw [hN] at hbounds hiff
  obtain ⟨hlower, hupper⟩ := ediv_two_pow_bounds hX m
  have hpow : 2 * (2 : ℤ) ^ (w - 1 - m) + 2 < 2 ^ w := by
    have hle := mul_le_mul_of_nonneg_left hM (by positivity : (0 : ℤ) ≤ 2 ^ (w - 1 - m))
    linarith
  have hfloor : res.toInt = X / 2 ^ m ↔ divided (2 ^ m) (2 ^ (w - 1 - m)) _ b.toNat ra.toNat = X / 2 ^ m :=
    toInt_ofInt_eq_iff (by omega) (by omega) (by omega)
  have hnext : res.toInt = X / 2 ^ m + 1 ↔
      divided (2 ^ m) (2 ^ (w - 1 - m)) _ b.toNat ra.toNat = X / 2 ^ m + 1 :=
    toInt_ofInt_eq_iff (by omega) (by omega) (by omega)
  have htwo : (2 : ℤ) ^ (w - 1 - m) = 2 ↔ m = w - 2 := by
    constructor
    · intro heq
      have hexponent : 2 ^ (w - 1 - m) = 2 ^ 1 := by exact_mod_cast heq
      have := Nat.pow_right_injective le_rfl hexponent
      omega
    · intro heq
      have hexponent : w - 1 - m = 1 := by omega
      rw [hexponent, pow_one]
  have hzero : (b.toNat : ℤ) = 0 ↔ b = 0 := by
    rw [← BitVec.toNat_inj]
    exact Int.natCast_eq_zero
  have hone : (b.toNat : ℤ) = 1 ↔ b = 1 := by
    rw [← BitVec.toNat_inj]
    exact Nat.cast_eq_one
  rw [hfloor, hnext, hiff, htwo, hzero, hone]

end EdabitsProtocol

end CryptDough
