import CryptDough.EdaBits
import Mathlib.Tactic.Linarith

/-! The adder of a number shared by its digits and a public number. -/

namespace CryptDough

open Execution

variable {w n : ℕ}

section Bits

/-- The digit of the sum of three digits. -/
theorem bitOf_sum (x y c : Bool) :
    (bitOf x + bitOf y + bitOf c - (bitOf x * bitOf y + bitOf c * bitOf y + bitOf x * bitOf c) * 2 +
      bitOf x * bitOf c * bitOf y * 4 : BitVec w) = bitOf (x ^^ y ^^ c) := by
  cases x <;> cases y <;> cases c <;>
    simp only [bitOf, if_true, if_false, Bool.false_eq_true, Bool.xor_true, Bool.xor_false,
      Bool.not_true, Bool.not_false] <;> ring

/-- The carry of the sum of three digits. -/
theorem bitOf_carry (x y c : Bool) :
    (bitOf x * bitOf y + bitOf c * bitOf y + bitOf x * bitOf c + bitOf x * bitOf c * bitOf y * (-2) :
      BitVec w) = bitOf (Bool.atLeastTwo x y c) := by
  cases x <;> cases y <;> cases c <;>
    simp only [bitOf, Bool.atLeastTwo, Bool.and_true, Bool.and_false, Bool.or_true, Bool.or_false,
      if_true, if_false, Bool.false_eq_true] <;> ring

theorem bitOf_xor (x y : Bool) :
    (bitOf x + bitOf y - bitOf x * bitOf y * 2 : BitVec w) = bitOf (x ^^ y) := by
  cases x <;> cases y <;>
    simp only [bitOf, if_true, if_false, Bool.false_eq_true, Bool.xor_true, Bool.xor_false,
      Bool.not_true, Bool.not_false] <;> ring

theorem bitOf_inj (hw : 0 < w) {x y : Bool} : (bitOf x : BitVec w) = bitOf y ↔ x = y := by
  cases x <;> cases y <;> simp [bitOf, hw.ne']

end Bits

namespace EdabitsProtocol

variable {P : ArithmeticProtocol w n}

theorem ofNat_two_pow (i : ℕ) : BitVec.ofNat w (2 ^ i) = BitVec.twoPow w i := by
  apply BitVec.eq_of_toNat_eq
  rw [BitVec.toNat_ofNat, BitVec.toNat_twoPow]

/-- The number with the bits of `x`, extended by its sign to `w + lsb` bits. -/
def extended (x : BitVec w) (lsb : ℕ) : ℕ := (x.signExtend (w + lsb)).toNat

/-- The bits of `x` from `lsb` up to below `i`, with the sign above them. -/
def accumulated (x : Vec w n) (lsb i : ℕ) : Vec w n := fun k =>
  BitVec.ofNat w (extended (x k) lsb % 2 ^ i / 2 ^ lsb)

theorem extended_testBit (x : BitVec w) (lsb i : ℕ) (hi : i < w + lsb) :
    (extended x lsb).testBit i = if i < w then x.getLsbD i else x.msb := by
  rw [extended, BitVec.testBit_toNat, BitVec.getLsbD_signExtend]
  simp [hi]

theorem accumulated_of_le {x : Vec w n} {lsb i : ℕ} (hi : i ≤ lsb) : accumulated x lsb i = 0 := by
  ext1 k
  have hlt : extended (x k) lsb % 2 ^ i < 2 ^ lsb :=
    (Nat.mod_lt _ (Nat.two_pow_pos i)).trans_le (Nat.pow_le_pow_right Nat.two_pos hi)
  simp [accumulated, Nat.div_eq_of_lt hlt]

theorem accumulated_succ {x : Vec w n} {lsb i : ℕ} (hlsb : lsb ≤ i) (hi : i < w + lsb) :
    accumulated x lsb (i + 1) = accumulated x lsb i +
      ofBits (fun k => if i < w then (x k).getLsbD i else (x k).msb) *
        Vec.replicate n (BitVec.twoPow w (i - lsb)) := by
  ext1 k
  have hbit := extended_testBit (x k) lsb i hi
  have hpow : 2 ^ i = 2 ^ (i - lsb) * 2 ^ lsb := by
    rw [← Nat.pow_add]
    congr 1
    omega
  simp only [accumulated, Pi.add_apply, Pi.mul_apply, Vec.replicate_apply, ofBits, ← hbit]
  rw [Nat.mod_pow_succ, Nat.testBit_eq_decide_div_mod_eq]
  rcases Nat.mod_two_eq_zero_or_one (extended (x k) lsb / 2 ^ i) with hzero | hone
  · simp [hzero, bitOf]
  · have hdiv : (extended (x k) lsb % 2 ^ i + 2 ^ i) / 2 ^ lsb =
        extended (x k) lsb % 2 ^ i / 2 ^ lsb + 2 ^ (i - lsb) := by
      rw [hpow]
      exact Nat.add_mul_div_right _ _ (Nat.two_pow_pos lsb)
    simp only [hone, mul_one, bitOf, decide_true, if_true, one_mul]
    rw [hdiv, BitVec.ofNat_add, ofNat_two_pow]

theorem emod_mul_ediv (c : ℤ) {a b : ℤ} (ha : 0 < a) : c % (a * b) / a = c / a % b := by
  rw [Int.emod_def, mul_assoc, Int.sub_mul_ediv_left _ _ ha.ne', Int.emod_def,
    Int.ediv_ediv_of_nonneg ha.le]

theorem ofInt_emod (i : ℤ) : BitVec.ofInt w (i % 2 ^ w) = BitVec.ofInt w i := by
  apply BitVec.eq_of_toNat_eq
  simp

theorem extended_eq (x : BitVec w) (lsb : ℕ) : (extended x lsb : ℤ) = x.toInt % (2 ^ lsb * 2 ^ w) := by
  rw [extended, BitVec.signExtend, BitVec.toNat_ofInt, Int.toNat_of_nonneg]
  · rw [← pow_add, Nat.add_comm]
    simp
  · exact Int.emod_nonneg _ (by simp)

/-- All of the bits make the number shifted arithmetically, which divides it rounding down. -/
theorem accumulated_all (x : Vec w n) (lsb : ℕ) :
    accumulated x lsb (w + lsb) = fun k => BitVec.ofInt w ((x k).toInt / 2 ^ lsb) := by
  ext1 k
  have hlt : extended (x k) lsb < 2 ^ (w + lsb) := BitVec.isLt _
  calc accumulated x lsb (w + lsb) k
      = BitVec.ofInt w ((extended (x k) lsb : ℤ) / 2 ^ lsb) := by
        rw [accumulated, Nat.mod_eq_of_lt hlt, ← BitVec.ofInt_natCast]
        simp
    _ = BitVec.ofInt w ((x k).toInt / 2 ^ lsb % 2 ^ w) := by
        rw [extended_eq, emod_mul_ediv _ (by positivity)]
    _ = BitVec.ofInt w ((x k).toInt / 2 ^ lsb) := ofInt_emod _

section Loop

variable {random y : Vec w n} {lsb : ℕ}

/-- Copies of the sign accumulate to all of the extended number. -/
theorem signExtension_opens {sign res : P.Container} {x : Vec w n} (hlsb : lsb < w)
    (hsign : P.Opens sign (ofBits fun k => (x k).msb)) (hres : P.Opens res (accumulated x lsb w)) :
    P.Opens (signExtension P sign w lsb (w - 1) res) (accumulated x lsb (w + lsb)) := by
  have hprogress : ∀ m ≤ lsb, P.Opens ((List.range' w m).foldl
      (fun res i => res + sign * Vec.replicate n (BitVec.twoPow w (i - lsb))) res)
      (accumulated x lsb (w + m)) := by
    intro m hm
    induction m with
    | zero => exact hres
    | succ m ih =>
        rw [List.range'_1_concat, List.foldl_append, ← Nat.add_assoc,
          accumulated_succ (by omega) (by omega)]
        apply (ih (by omega)).add
        have hnot : ¬ w + m < w := by omega
        simpa only [hnot, if_false] using hsign.mul _
  have hstart : w - 1 + 1 = w := by omega
  have hcount : w + lsb - w = lsb := by omega
  unfold signExtension
  rw [hstart, hcount]
  exact hprogress lsb le_rfl

/-- The containers after `i` iterations, and after the copies of the sign that follow the last. -/
structure RcaProgress (random y : Vec w n) (lsb : ℕ) (hasRes signRes : Bool) (i : ℕ)
    (st : Rca P.Container) : Prop where
  isSome : hasRes = true → st.res.isSome = true
  carry : i < w → P.Opens st.carry (ofBits fun k => BitVec.carry i (random k) (y k) false)
  sign : i = w → signRes = true → P.Opens st.sign (ofBits fun k => (random k + y k).msb)
  res : ∀ res, st.res = some res →
    P.Opens res (accumulated (random + y) lsb (if i = w then w + lsb else i))

/-- The digit of the sum at `i`, as the loop computes it from the carry. -/
theorem opens_digit {xBit carryBit xcBit : P.Container} {i : ℕ} (hi : i < w)
    (hx : P.Opens xBit (ofBits fun k => (random k).getLsbD i))
    (hcarry : P.Opens carryBit (ofBits fun k => BitVec.carry i (random k) (y k) false))
    (hxc : P.Opens xcBit ((ofBits fun k => (random k).getLsbD i) *
      ofBits fun k => BitVec.carry i (random k) (y k) false)) :
    let yBit : Vec w n := ofBits fun k => (y k).getLsbD i
    P.Opens (xBit + P.publicShare yBit + carryBit -
      (xBit * yBit + carryBit * yBit + xcBit) * (Vec.replicate n 2 : Vec w n) +
      xcBit * yBit * (Vec.replicate n 4 : Vec w n)) (ofBits fun k => (random k + y k).getLsbD i) := by
  intro yBit
  have hy : P.Opens (P.publicShare yBit) yBit := ArithmeticProtocol.Opens.publicShare yBit
  apply ((((hx.add hy).add hcarry).sub ((((hx.mul yBit).add (hcarry.mul yBit)).add hxc).mul _)).add
    ((hxc.mul yBit).mul _)).congr
  ext1 k
  rw [ofBits, BitVec.getLsbD_add hi, ← Bool.xor_assoc, ← bitOf_sum]
  rfl

/-- The carry into the next digit. -/
theorem opens_carry {xBit carryBit xcBit : P.Container} {i : ℕ}
    (hx : P.Opens xBit (ofBits fun k => (random k).getLsbD i))
    (hcarry : P.Opens carryBit (ofBits fun k => BitVec.carry i (random k) (y k) false))
    (hxc : P.Opens xcBit ((ofBits fun k => (random k).getLsbD i) *
      ofBits fun k => BitVec.carry i (random k) (y k) false)) :
    let yBit : Vec w n := ofBits fun k => (y k).getLsbD i
    P.Opens (xBit * yBit + carryBit * yBit + xcBit + xcBit * yBit * (Vec.replicate n (-2) : Vec w n))
      (ofBits fun k => BitVec.carry (i + 1) (random k) (y k) false) := by
  intro yBit
  apply ((((hx.mul yBit).add (hcarry.mul yBit)).add hxc).add ((hxc.mul yBit).mul _)).congr
  ext1 k
  rw [ofBits, BitVec.carry_succ, ← bitOf_carry]
  rfl

theorem publicRcaStep_yields {edaBits : EdaBits P w} {st : Rca P.Container} {hasRes signRes : Bool}
    {i : ℕ} (hlsb : lsb < w) (hi : i < w) (hst : RcaProgress edaBits.random y lsb hasRes signRes i st) :
    P.Yields (publicRcaStep P edaBits.bits y w lsb (w - 1) signRes true st i)
      (RcaProgress edaBits.random y lsb hasRes signRes (i + 1)) := by
  have hx := edaBits.bits_open i hi
  have hcarry := hst.carry hi
  apply (hx.multiplyA hcarry).bind
  intro xcBit hxc
  have hdigit := opens_digit hi hx hcarry hxc
  have hnext := opens_carry hx hcarry hxc
  have hmsb : i ≤ w - 1 := by omega
  have hne : i ≠ w := by omega
  simp only [hmsb, and_true]
  generalize hsign : (if (i = w - 1 ∧ signRes = true) ∨ (st.res.isSome = true ∧ lsb ≤ i) then _
    else st.sign) = sign
  have hres : ∀ res, (if st.res.isSome = true ∧ lsb ≤ i then
        st.res.map fun res => res + sign * Vec.replicate n (BitVec.twoPow w (i - lsb))
      else st.res) = some res → P.Opens res (accumulated (edaBits.random + y) lsb (i + 1)) := by
    intro res hsome
    by_cases hrange : st.res.isSome = true ∧ lsb ≤ i
    · rw [if_pos hrange] at hsome
      rw [if_pos (.inr hrange)] at hsign
      obtain ⟨old, hold, rfl⟩ := Option.map_eq_some_iff.mp hsome
      have hopens := hst.res old hold
      rw [if_neg hne] at hopens
      rw [accumulated_succ hrange.2 (by omega)]
      simp only [hi, if_true]
      subst hsign
      exact hopens.add (hdigit.mul _)
    · rw [if_neg hrange] at hsome
      have hopens := hst.res res hsome
      have hlt : i < lsb := by
        by_contra hge
        exact hrange ⟨by simp [hsome], by omega⟩
      rw [if_neg hne, accumulated_of_le hlt.le] at hopens
      rwa [accumulated_of_le hlt]
  have hisSome : hasRes = true → (if st.res.isSome = true ∧ lsb ≤ i then
        st.res.map fun res => res + sign * Vec.replicate n (BitVec.twoPow w (i - lsb))
      else st.res).isSome = true := by
    intro hhas
    split_ifs
    · simpa using hst.isSome hhas
    · exact hst.isSome hhas
  by_cases hlast : i = w - 1
  · rw [if_pos hlast]
    apply Meets.pure
    have hmost : ∀ k, (edaBits.random k + y k).getLsbD i = (edaBits.random k + y k).msb := by
      intro k
      rw [hlast, BitVec.msb_eq_getLsbD_last]
    have hend : i + 1 = w := by omega
    simp only [hmost] at hdigit
    constructor
    · intro hhas
      simpa using hisSome hhas
    · intro hlt
      omega
    · intro _ hsignRes
      rw [if_pos (.inl ⟨hlast, hsignRes⟩)] at hsign
      subst hsign
      exact hdigit
    · intro res hsome
      obtain ⟨old, hold, rfl⟩ := Option.map_eq_some_iff.mp hsome
      have hopens := hres old hold
      have hres : st.res.isSome = true := by
        by_contra hnone
        rw [if_neg fun h => hnone h.1] at hold
        exact hnone (by simp [hold])
      rw [if_pos (.inr ⟨hres, by omega⟩)] at hsign
      subst hsign
      rw [hend] at hopens
      rw [if_pos hend]
      exact signExtension_opens hlsb hdigit hopens
  · rw [if_neg hlast]
    apply Meets.pure
    have hnotEnd : i + 1 ≠ w := by omega
    constructor
    · exact hisSome
    · intro _
      exact hnext
    · intro hend
      exact absurd hend hnotEnd
    · intro res hsome
      rw [if_neg hnotEnd]
      exact hres res hsome

/-- The sum of the random number and the public one: its sign, and the sum divided by `2 ^ lsb`. -/
theorem publicRca_yields {edaBits : EdaBits P w} {res signRes : Option P.Container} (hlsb : lsb < w)
    (hres : ∀ z, res = some z → P.Opens z 0) :
    P.Yields (publicRca P edaBits.bits y w res signRes lsb) fun rca =>
      (signRes.isSome = true → P.Opens rca.sign (ofBits fun k => (edaBits.random k + y k).msb)) ∧
      (res.isSome = true → rca.res.isSome = true) ∧ ∀ z, rca.res = some z →
        P.Opens z fun k => BitVec.ofInt w ((edaBits.random k + y k).toInt / 2 ^ lsb) := by
  have hinit : RcaProgress edaBits.random y lsb res.isSome signRes.isSome 0
      { carry := 0, sign := signRes.getD 0, res := res : Rca P.Container } := by
    have hpositive : 0 ≠ w := by omega
    constructor
    · exact id
    · intro _
      simp only [BitVec.carry_zero]
      exact ArithmeticProtocol.Opens.zero
    · intro hzero
      exact absurd hzero hpositive
    · intro z hz
      rw [if_neg hpositive, accumulated_of_le (Nat.zero_le lsb)]
      exact hres z hz
  apply (Meets.foldlM_range hinit fun i hi st hst => publicRcaStep_yields hlsb hi hst).mono
  rintro rca ⟨hisSome, -, hsign, hres⟩
  refine ⟨hsign rfl, hisSome, fun z hz => ?_⟩
  have hopens := hres z hz
  rwa [if_pos rfl, accumulated_all] at hopens

end Loop

end EdabitsProtocol

end CryptDough
