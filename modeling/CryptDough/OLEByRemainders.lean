import CryptDough.ChineseRemainders
import CryptDough.OLEModPrime
import Mathlib.Data.Int.ConditionallyCompleteOrder
import Mathlib.Data.Int.Interval
import Mathlib.Tactic.Linarith
import Mathlib.Tactic.NormNum.Prime

/-! Oblivious linear evaluation from evaluations modulo small primes. The sender hides its share
behind a multiple of the element type's range; the receiver puts its share together from remainders.
-/

namespace CryptDough

/-- `log2` of `double`s, which is off by less than a hundredth. -/
structure LogRounds (log2 : ℕ → ℚ) : Prop where
  above : ∀ x bits : ℕ, 2 ^ (100 * bits + 1) ≤ x ^ 100 → (bits : ℚ) ≤ log2 x
  below : ∀ x bits : ℕ, 0 < x → 2 * x ^ 100 ≤ 2 ^ (100 * bits) → log2 x < bits

def primesWithinByte : List ℕ :=
  [2, 3, 5, 7, 11, 13, 17, 19, 23, 29, 31, 37, 41, 43, 47, 53, 59, 61,
    67, 71, 73, 79, 83, 89, 97, 101, 103, 107, 109, 113, 127, 131, 137, 139, 149, 151,
    157, 163, 167, 173, 179, 181, 191, 193, 197, 199, 211, 223, 227, 229, 233, 239, 241, 251]

/-- The loop over the primes, with the product of those before. -/
def primorialFrom (log2 : ℕ → ℚ) (reqBits : ℕ) : List ℕ → (x i : ℕ) → ℕ × ℤ
  | [], _, _ => (0, -1)
  | p :: primes, x, i =>
      if (reqBits : ℚ) ≤ log2 (x * p) then (x * p, i) else primorialFrom log2 reqBits primes (x * p) (i + 1)

def primorialGtBits (log2 : ℕ → ℚ) (reqBits : ℕ) :
    ℕ × ℤ := primorialFrom log2 reqBits primesWithinByte 1 0

theorem prime_of_mem : ∀ p ∈ primesWithinByte, p.Prime := by
  simp only [primesWithinByte, List.forall_mem_cons]
  norm_num

theorem nodup_primes : primesWithinByte.Nodup := by decide

section Primorial

variable {log2 : ℕ → ℚ} (hlog : LogRounds log2) {bits : ℕ}
include hlog

/-- The primes of a product that is too small are passed over. -/
theorem primorialFrom_append (front back : List ℕ) (p x i : ℕ) (hx : 0 < x) (hpos : ∀ q ∈ front, 0 < q)
    (hbelow : front ≠ [] → 2 * (x * front.prod) ^ 100 ≤ 2 ^ (100 * bits))
    (habove : 2 ^ (100 * bits + 1) ≤ (x * front.prod * p) ^ 100) :
    primorialFrom log2 bits (front ++ p :: back) x i =
      (x * front.prod * p, ((i + front.length : ℕ) : ℤ)) := by
  induction front generalizing x i with
  | nil =>
      rw [List.prod_nil, mul_one] at habove ⊢
      rw [List.nil_append, primorialFrom, if_pos (hlog.above _ _ habove)]
      rfl
  | cons q front ih =>
      obtain ⟨hq, hrest⟩ := List.forall_mem_cons.mp hpos
      have hprod : 1 ≤ front.prod := List.prod_pos hrest
      rw [List.prod_cons, ← mul_assoc] at hbelow habove
      have hsmall : 2 * (x * q) ^ 100 ≤ 2 ^ (100 * bits) :=
        le_trans (Nat.mul_le_mul_left 2 (Nat.pow_le_pow_left (Nat.le_mul_of_pos_right _ hprod) 100))
          (hbelow (List.cons_ne_nil q front))
      rw [List.cons_append, primorialFrom,
        if_neg (not_le.mpr (hlog.below _ _ (Nat.mul_pos hx hq) hsmall)),
        ih (x * q) (i + 1) (Nat.mul_pos hx hq) hrest (fun _ => hbelow (List.cons_ne_nil q front)) habove,
        List.prod_cons, ← mul_assoc]
      congr 2
      rw [List.length_cons]
      omega

/-- The primes up to the first one that reaches the bits. -/
theorem primorialGtBits_eq (index : ℕ) (hindex : index < 54)
    (hbelow : 2 * (primesWithinByte.take index).prod ^ 100 ≤ 2 ^ (100 * bits))
    (habove : 2 ^ (100 * bits + 1) ≤ (primesWithinByte.take (index + 1)).prod ^ 100) :
    primorialGtBits log2 bits = ((primesWithinByte.take (index + 1)).prod, (index : ℤ)) := by
  have hlength : index < primesWithinByte.length := hindex
  have htake : (primesWithinByte.take (index + 1)).prod =
      (primesWithinByte.take index).prod * primesWithinByte[index] := by
    rw [List.take_succ_eq_append_getElem hlength, List.prod_append, List.prod_singleton]
  have hsplit : primesWithinByte =
      primesWithinByte.take index ++ primesWithinByte[index] :: primesWithinByte.drop (index + 1) := by
    rw [List.getElem_cons_drop, List.take_append_drop]
  have hpos : ∀ q ∈ primesWithinByte.take index, 0 < q :=
    fun q hq => (prime_of_mem q (List.mem_of_mem_take hq)).pos
  rw [htake] at habove ⊢
  have hfrom :=
    primorialFrom_append hlog (primesWithinByte.take index) (primesWithinByte.drop (index + 1))
    primesWithinByte[index] 1 0 Nat.one_pos hpos (fun _ => by rwa [one_mul]) (by rwa [one_mul])
  rw [← hsplit, one_mul, Nat.zero_add, List.length_take, Nat.min_eq_left hlength.le] at hfrom
  exact hfrom

end Primorial

/-! Elements as integers without a bound. -/

section Conversions

variable {L : ℕ}

/-- The integer an element stands for. -/
def elementValue (signed : Bool) (x : BitVec L) : ℤ := if signed then x.toInt else x.toNat

def toZZ (signed : Bool) (x : BitVec L) : ℤ :=
  if L ≤ 64 then elementValue signed x
  else
    let lo := x.setWidth 64
    let hi := (x >>> 64).setWidth 64
    let res : ℤ := ((hi.toNat <<< 64 ||| lo.toNat : ℕ) : ℤ)
    if signed && decide (x.toInt < 0) then res - 2 ^ 128 else res

/-- The low words of a number, which are cast to the element type. -/
def fromZZ (L : ℕ) (signed : Bool) (x : ℤ) : BitVec L :=
  if L ≤ 64 then (BitVec.ofInt 64 x).setWidth L
  else
    let x := if signed && decide (x < 0) then x + 2 ^ 128 else x
    let lo := BitVec.ofInt 64 x
    let hi := BitVec.ofInt 64 (x / 2 ^ 64)
    ((hi.setWidth L) <<< 64) ||| lo.setWidth L

def elementWidths : List ℕ := [8, 16, 32, 64, 128]

theorem toZZ_eq (hL : L ∈ elementWidths) (signed : Bool) (x : BitVec L) :
    toZZ signed x = elementValue signed x := by
  by_cases hsmall : L ≤ 64
  · rw [toZZ, if_pos hsmall]
  · have hwide : L = 128 := by
      simp only [elementWidths, List.mem_cons, List.not_mem_nil, or_false] at hL
      omega
    subst hwide
    have hwords : ((x >>> 64).setWidth 64).toNat <<< 64 ||| (x.setWidth 64).toNat = x.toNat := by
      have hlow : (x.setWidth 64).toNat < 2 ^ 64 := BitVec.isLt _
      rw [← Nat.shiftLeft_add_eq_or_of_lt hlow, Nat.shiftLeft_eq, BitVec.toNat_setWidth,
        BitVec.toNat_setWidth,
        BitVec.toNat_ushiftRight, Nat.shiftRight_eq_div_pow]
      have hx := x.isLt
      omega
    have hx := x.isLt
    have hcond := BitVec.toInt_eq_toNat_cond x
    unfold toZZ elementValue
    rw [if_neg hsmall]
    simp only [hwords]
    cases signed with
    | false => rfl
    | true =>
        rw [Bool.true_and, if_pos rfl]
        split at hcond
        · rw [decide_eq_false (by omega), if_neg (by decide), hcond]
        · rw [decide_eq_true (by omega), if_pos rfl, hcond]
          norm_num

theorem fromZZ_eq (hL : L ∈ elementWidths) (signed : Bool) {x : ℤ} (hx : 0 ≤ x) :
    fromZZ L signed x = BitVec.ofInt L x := by
  unfold fromZZ
  by_cases hsmall : L ≤ 64
  · rw [if_pos hsmall]
    apply BitVec.eq_of_toNat_eq
    rw [BitVec.toNat_setWidth, BitVec.toNat_ofInt, BitVec.toNat_ofInt]
    fin_cases hL <;> omega
  · have hwide : L = 128 := by
      simp only [elementWidths, List.mem_cons, List.not_mem_nil, or_false] at hL
      omega
    subst hwide
    rw [if_neg hsmall, decide_eq_false (not_lt.mpr hx), Bool.and_false, if_neg (by decide)]
    apply BitVec.eq_of_toNat_eq
    have hlow : ((BitVec.ofInt 64 x).setWidth 128).toNat < 2 ^ 64 := by
      rw [BitVec.toNat_setWidth]
      omega
    have hhigh : ((BitVec.ofInt 64 (x / 2 ^ 64)).setWidth 128 <<< 64).toNat =
        (x / 2 ^ 64 % 2 ^ 64).toNat <<< 64 := by
      rw [BitVec.toNat_shiftLeft, BitVec.toNat_setWidth, BitVec.toNat_ofInt, Nat.shiftLeft_eq,
        Nat.shiftLeft_eq]
      omega
    rw [BitVec.toNat_or, hhigh, ← Nat.shiftLeft_add_eq_or_of_lt hlow, Nat.shiftLeft_eq,
      BitVec.toNat_setWidth,
      BitVec.toNat_ofInt, BitVec.toNat_ofInt]
    omega

end Conversions

/-! The receiver's numbers from their remainders modulo the first primes. -/

/-- The inverse modulo `n`, below `n`. -/
def invMod (a n : ℕ) : ℕ := ((a : ZMod n)⁻¹).val

structure CRTbasis where
  prodPrimes : ℕ
  coeffs : List ℕ

def CRTbasis.upTo (numPrimes : ℕ) : CRTbasis :=
  let P := primesWithinByte.take numPrimes
  { prodPrimes := P.prod
    coeffs := P.map fun Pi =>
      let Mi := P.prod / Pi
      Mi * invMod (Mi % Pi) Pi }

/-- Whatever the remainders, the result is below zero. -/
def CRTbasis.apply (basis : CRTbasis) (residues : List ℕ) : ℤ :=
  ((List.zipWith (· * ·) residues basis.coeffs).sum % basis.prodPrimes : ℕ) - basis.prodPrimes

theorem CRTbasis.apply_eq (numPrimes : ℕ) (residue : ℕ → ℕ) {y : ℤ}
    (hresidue : ∀ p ∈ primesWithinByte.take numPrimes, (residue p : ℤ) ≡ y [ZMOD p]) :
    (CRTbasis.upTo numPrimes).apply ((primesWithinByte.take numPrimes).map residue) =
      y % (primesWithinByte.take numPrimes).prod - (primesWithinByte.take numPrimes).prod := by
  have hprime : ∀ p ∈ primesWithinByte.take numPrimes, p.Prime :=
    fun p hp => prime_of_mem p (List.mem_of_mem_take hp)
  have hnodup : (primesWithinByte.take numPrimes).Nodup := nodup_primes.sublist (List.take_sublist _ _)
  have hcoprime : (primesWithinByte.take numPrimes).Pairwise Nat.Coprime :=
    hnodup.imp_of_mem fun hp hq hne => (Nat.coprime_primes (hprime _ hp) (hprime _ hq)).mpr hne
  have hcoeffs : (CRTbasis.upTo numPrimes).coeffs = (primesWithinByte.take numPrimes).map
      (ChineseRemainders.coefficient (primesWithinByte.take numPrimes)) := by
    refine List.map_congr_left fun p _ => ?_
    simp only [ChineseRemainders.coefficient, invMod, ZMod.natCast_mod]
  have hcombination :=
    ChineseRemainders.combination_modEq hnodup hcoprime (fun p hp => (hprime p hp).pos) hresidue
  rw [CRTbasis.apply, hcoeffs, List.zipWith_map, List.zipWith_self]
  change ((((primesWithinByte.take numPrimes).map _).sum % (primesWithinByte.take numPrimes).prod : ℕ) : ℤ) -
    (primesWithinByte.take numPrimes).prod = _
  rw [← hcombination.eq, Int.natCast_mod, Nat.cast_list_sum, List.map_map]
  simp only [Function.comp_def, Nat.cast_mul]

/-! The evaluation over integers, and over elements. -/

namespace GilboaCRTSmooth

/-- What goes into the evaluation modulo a prime. -/
def residue (p : ℕ) (z : ℤ) : BitVec 8 := BitVec.ofInt 8 (z % p)

/-- The evaluations modulo the first primes give shares `w` of the products. -/
def CorrectOLEs (numPrimes : ℕ) (a x b : ℤ) (w : ℕ → BitVec 16) : Prop :=
  ∀ p ∈ primesWithinByte.take numPrimes,
    ProductShares p (residue p a).toNat (residue p x).toNat (residue p b).toNat (w p).toNat

/-- The receiver's part of `getNext`. -/
def getNext (numPrimes : ℕ) (w : ℕ → BitVec 16) : ℤ :=
  (CRTbasis.upTo numPrimes).apply ((primesWithinByte.take numPrimes).map fun p => (w p).toNat)

theorem lt_of_mem : ∀ p ∈ primesWithinByte, p < 256 := by decide

theorem residue_toNat {p : ℕ} (hp : p ∈ primesWithinByte) (z : ℤ) :
    ((residue p z).toNat : ℤ) = z % p := by
  have hpos := (prime_of_mem p hp).pos
  have hlt := lt_of_mem p hp
  have hlower := Int.emod_nonneg z (by omega : (p : ℤ) ≠ 0)
  have hupper := Int.emod_lt_of_pos z (by omega : (0 : ℤ) < p)
  rw [residue, BitVec.toNat_ofInt]
  omega

/-- The result is the difference modulo all the primes, below zero. -/
theorem getNext_eq {numPrimes : ℕ} {a x b : ℤ} {w : ℕ → BitVec 16}
    (hcorrect : CorrectOLEs numPrimes a x b w) :
    getNext numPrimes w = (a * x - b) % (primesWithinByte.take numPrimes).prod -
      (primesWithinByte.take numPrimes).prod := by
  refine CRTbasis.apply_eq numPrimes (fun p => (w p).toNat) fun p hp => ?_
  have hmem := List.mem_of_mem_take hp
  have hsum := Int.natCast_modEq_iff.mpr (hcorrect p hp).sum
  push_cast at hsum
  rw [residue_toNat hmem, residue_toNat hmem, residue_toNat hmem] at hsum
  have hb := Int.mod_modEq b p
  calc ((w p).toNat : ℤ) = (b % p + (w p).toNat) - b % p := by ring
    _ ≡ a % p * (x % p) - b [ZMOD p] := hsum.sub hb
    _ ≡ a * x - b [ZMOD p] := ((Int.mod_modEq a p).mul (Int.mod_modEq x p)).sub_right b

/-- There are such shares for all numbers. -/
theorem exists_correctOLEs (numPrimes : ℕ) (a x b : ℤ) : CorrectOLEs numPrimes a x b fun p =>
    BitVec.ofInt 16 ((a * x - b) % p) := by
  intro p hp
  have hmem := List.mem_of_mem_take hp
  have hpos := (prime_of_mem p hmem).pos
  have hlt := lt_of_mem p hmem
  have hlower := Int.emod_nonneg (a * x - b) (by omega : (p : ℤ) ≠ 0)
  have hupper := Int.emod_lt_of_pos (a * x - b) (by omega : (0 : ℤ) < p)
  have hw : ((BitVec.ofInt 16 ((a * x - b) % p)).toNat : ℤ) = (a * x - b) % p := by
    rw [BitVec.toNat_ofInt]
    omega
  exact DerivedOLEmodP.productShares_of_emod hpos (residue_toNat hmem a) (residue_toNat hmem x)
    (residue_toNat hmem b) hw (by ring)

end GilboaCRTSmooth

structure GilboaCRT where
  smoothMod : ℕ
  numPrimes : ℕ
  samplingBound : ℤ

namespace GilboaCRT

variable {L : ℕ}

/-- The constructor, with its assertion. -/
def new (log2 : ℕ → ℚ) (L : ℕ) : Option GilboaCRT :=
  let Q := 2 ^ L
  let (smoothMod, maxPrimeIdx) := primorialGtBits log2 (2 * L + 40)
  if Q * Q < smoothMod then
    some
      { smoothMod
        numPrimes := (maxPrimeIdx + 1).toNat
        samplingBound := ((smoothMod : ℤ) - Q * Q) / Q - 1 }
  else none

/-- The sender's share, masked by a multiple of the range. -/
def masked (signed : Bool) (b : BitVec L) (k : ℤ) : ℤ := toZZ signed b + 2 ^ L * k

/-- The receiver's share, from its shares `w` of the evaluations modulo the primes. -/
def getNext (crt : GilboaCRT) (L : ℕ) (signed : Bool) (w : ℕ → BitVec 16) : BitVec L :=
  let v := GilboaCRTSmooth.getNext crt.numPrimes w
  let v := if v < 0 then v % 2 ^ L + 2 ^ L else v
  fromZZ L signed v

/-- What the constructor leaves: the product of the first primes, and a bound that keeps masked shares a
square of the range away from it. -/
structure Proper (crt : GilboaCRT) (L : ℕ) : Prop where
  smoothMod : crt.smoothMod = (primesWithinByte.take crt.numPrimes).prod
  bits : 2 ^ (2 * L + 40) ≤ crt.smoothMod
  bound : 2 ^ L * (crt.samplingBound + 1) ≤ crt.smoothMod - 2 ^ L * 2 ^ L
  security : (2 ^ L - 1) * 2 ^ 40 ≤ crt.samplingBound + 1

/-- The primes that serve a width. -/
theorem exists_index (hL : L ∈ elementWidths) : ∃ index < 54,
    2 * (primesWithinByte.take index).prod ^ 100 ≤ 2 ^ (100 * (2 * L + 40)) ∧
    2 ^ (100 * (2 * L + 40) + 1) ≤ (primesWithinByte.take (index + 1)).prod ^ 100 ∧
    2 ^ (2 * L + 40) ≤ (primesWithinByte.take (index + 1)).prod ∧
    (2 ^ L - 1) * 2 ^ 40 * 2 ^ L + 2 ^ L * 2 ^ L ≤ (primesWithinByte.take (index + 1)).prod := by
  fin_cases hL
  · exact ⟨14, by decide +kernel⟩
  · exact ⟨17, by decide +kernel⟩
  · exact ⟨22, by decide +kernel⟩
  · exact ⟨31, by decide +kernel⟩
  · exact ⟨49, by decide +kernel⟩

theorem two_le_of_mem (hL : L ∈ elementWidths) : 2 ≤ L := by
  fin_cases hL <;> decide

theorem new_proper {log2 : ℕ → ℚ} (hlog : LogRounds log2) (hL : L ∈ elementWidths) :
    ∃ crt, new log2 L = some crt ∧ crt.Proper L := by
  obtain ⟨index, hindex, hbelow, habove, hbits, hsecurity⟩ := exists_index hL
  have hpos : 0 < 2 ^ L := Nat.two_pow_pos L
  have hsquare : 2 ^ L * 2 ^ L < (primesWithinByte.take (index + 1)).prod := by
    refine lt_of_lt_of_le ?_ hbits
    rw [← pow_add]
    exact Nat.pow_lt_pow_right (by decide) (by omega)
  have hpos' : (2 : ℤ) ^ L ≠ 0 := pow_ne_zero L (by decide)
  let smoothMod := (primesWithinByte.take (index + 1)).prod
  refine ⟨⟨smoothMod, index + 1, ((smoothMod : ℤ) - (2 ^ L : ℕ) * (2 ^ L : ℕ)) / (2 ^ L : ℕ) - 1⟩, ?_, ?_⟩
  · rw [new, primorialGtBits_eq hlog index hindex hbelow habove]
    exact if_pos hsquare
  · constructor
    · rfl
    · exact hbits
    · rw [sub_add_cancel]
      push_cast
      exact Int.mul_ediv_self_le hpos'
    · rw [sub_add_cancel]
      apply Int.le_ediv_of_mul_le (by exact_mod_cast hpos)
      have hcast : (((2 ^ L - 1) * 2 ^ 40 * 2 ^ L + 2 ^ L * 2 ^ L : ℕ) : ℤ) ≤
          (smoothMod : ℕ) := Int.ofNat_le.mpr hsecurity
      push_cast [Nat.one_le_two_pow] at hcast ⊢
      exact le_sub_iff_add_le.mpr hcast

theorem elementValue_bounds (signed : Bool) (x : BitVec L) :
    (signed = false → 0 ≤ elementValue signed x) ∧
    (signed = true → -2 ^ L ≤ 2 * elementValue signed x ∧ 2 * elementValue signed x ≤ 2 ^ L) ∧
    elementValue signed x < 2 ^ L := by
  have hx : (x.toNat : ℤ) < 2 ^ L := by exact_mod_cast x.isLt
  cases signed with
  | false => exact ⟨fun _ => Int.natCast_nonneg _, fun h => absurd h (by decide), hx⟩
  | true =>
      have hlower := BitVec.le_two_mul_toInt (x := x)
      have hupper := BitVec.two_mul_toInt_lt (x := x)
      have hpos : (0 : ℤ) < 2 ^ L := pow_pos (by decide) L
      refine ⟨fun h => absurd h (by decide), fun _ => ⟨hlower, hupper.le⟩, ?_⟩
      rw [elementValue, if_pos rfl]
      omega

/-- From one mask on, a masked share is above all products. -/
theorem product_lt (hL : 2 ≤ L) (signed : Bool) (a x b : BitVec L) {k : ℤ} (hk : 2 ^ L - 1 ≤ k) :
    elementValue signed a * elementValue signed x < elementValue signed b + 2 ^ L * k := by
  have hrange : (4 : ℤ) ≤ 2 ^ L := by
    calc (4 : ℤ) = 2 ^ 2 := by norm_num
      _ ≤ 2 ^ L := pow_le_pow_right₀ (by decide) hL
  have hmask : (2 : ℤ) ^ L * (2 ^ L - 1) ≤ 2 ^ L * k := mul_le_mul_of_nonneg_left hk (by omega)
  obtain ⟨ha, ha', ha''⟩ := elementValue_bounds signed a
  obtain ⟨hx, hx', hx''⟩ := elementValue_bounds signed x
  obtain ⟨hb, hb', hb''⟩ := elementValue_bounds signed b
  cases signed with
  | false =>
      have ha := ha rfl
      have hx := hx rfl
      have hb := hb rfl
      nlinarith
  | true =>
      obtain ⟨halower, haupper⟩ := ha' rfl
      obtain ⟨hxlower, hxupper⟩ := hx' rfl
      obtain ⟨hblower, hbupper⟩ := hb' rfl
      have hproduct : 4 * (elementValue true a * elementValue true x) ≤ 2 ^ L * 2 ^ L := by nlinarith
      nlinarith

/-- Products are far from the masked shares. -/
theorem masked_sub_product_le {crt : GilboaCRT} (hproper : crt.Proper L) (signed : Bool)
    (a x b : BitVec L) {k : ℤ}
    (hk : k ≤ crt.samplingBound) : elementValue signed b + 2 ^ L * k < crt.smoothMod ∧
      elementValue signed b + 2 ^ L * k - elementValue signed a * elementValue signed x ≤ crt.smoothMod := by
  have hpos : (0 : ℤ) < 2 ^ L := pow_pos (by decide) L
  have hbound := hproper.bound
  have hmask : (2 : ℤ) ^ L * k ≤ 2 ^ L * crt.samplingBound := mul_le_mul_of_nonneg_left hk hpos.le
  obtain ⟨ha, ha', ha''⟩ := elementValue_bounds signed a
  obtain ⟨hx, hx', hx''⟩ := elementValue_bounds signed x
  obtain ⟨hb, hb', hb''⟩ := elementValue_bounds signed b
  refine ⟨by nlinarith, ?_⟩
  cases signed with
  | false =>
      have hproduct := mul_nonneg (ha rfl) (hx rfl)
      nlinarith
  | true =>
      obtain ⟨halower, haupper⟩ := ha' rfl
      obtain ⟨hxlower, hxupper⟩ := hx' rfl
      have hproduct : -(2 ^ L * 2 ^ L) ≤ 4 * (elementValue true a * elementValue true x) := by nlinarith
      nlinarith

theorem ofInt_elementValue (signed : Bool) (x : BitVec L) : BitVec.ofInt L (elementValue signed x) =
    x := by
  cases signed with
  | false =>
      rw [elementValue, if_neg (by decide), BitVec.ofInt_natCast, BitVec.ofNat_toNat, BitVec.setWidth_eq]
  | true => rw [elementValue, if_pos rfl, BitVec.ofInt_toInt]

theorem ofInt_eq_of_modEq {y z : ℤ} (hmod : y ≡ z [ZMOD 2 ^ L]) :
    BitVec.ofInt L y = BitVec.ofInt L z := by
  apply BitVec.eq_of_toNat_eq
  rw [BitVec.toNat_ofInt, BitVec.toNat_ofInt, Nat.cast_pow, Nat.cast_ofNat, hmod.eq]

/-- A negative difference comes out of the remainders as it is, and its low bits are the share. -/
theorem getNext_eq (hL : L ∈ elementWidths) {crt : GilboaCRT} (hproper : crt.Proper L) (signed : Bool)
    (a x b : BitVec L) {k : ℤ} (hk : k ≤ crt.samplingBound)
    (hlt : toZZ signed a * toZZ signed x < masked signed b k) {w : ℕ → BitVec 16}
    (hcorrect : GilboaCRTSmooth.CorrectOLEs crt.numPrimes (toZZ signed a) (toZZ signed x)
      (masked signed b k) w) :
    crt.getNext L signed w = a * x - b := by
  have hpos : (0 : ℤ) < 2 ^ L := pow_pos (by decide) L
  have hfar := (masked_sub_product_le hproper signed a x b hk).2
  have hv := GilboaCRTSmooth.getNext_eq hcorrect
  rw [masked, toZZ_eq hL, toZZ_eq hL, toZZ_eq hL] at hlt
  rw [masked, toZZ_eq hL, toZZ_eq hL, toZZ_eq hL, ← hproper.smoothMod] at hv
  have hmod :
      (elementValue signed a * elementValue signed x - (elementValue signed b + 2 ^ L * k)) % crt.smoothMod =
        elementValue signed a * elementValue signed x - (elementValue signed b + 2 ^ L * k) +
          crt.smoothMod := by
    rw [← Int.add_emod_right, Int.emod_eq_of_lt (by omega) (by omega)]
  rw [hmod, add_sub_cancel_right] at hv
  have hlow := Int.emod_nonneg (elementValue signed a * elementValue signed x -
    (elementValue signed b + 2 ^ L * k)) hpos.ne'
  have hlow' :
      (elementValue signed a * elementValue signed x - (elementValue signed b + 2 ^ L * k)) % 2 ^ L + 2 ^ L ≡
      elementValue signed a * elementValue signed x - elementValue signed b [ZMOD 2 ^ L] := by
    calc _ ≡ elementValue signed a * elementValue signed x - (elementValue signed b + 2 ^ L * k) [ZMOD 2 ^ L] :=
          Int.add_modEq_right.trans (Int.mod_modEq _ _)
      _ = elementValue signed a * elementValue signed x - elementValue signed b + 2 ^ L * (-k) := by ring
      _ ≡ elementValue signed a * elementValue signed x - elementValue signed b [ZMOD 2 ^ L] :=
          Int.add_mul_emod_self_left _ _ _
  rw [getNext, hv]
  simp only [if_pos (by omega : elementValue signed a * elementValue signed x -
    (elementValue signed b + 2 ^ L * k) < 0)]
  rw [fromZZ_eq hL signed (by omega)]
  rw [ofInt_eq_of_modEq hlow', sub_eq_add_neg, BitVec.ofInt_add, BitVec.ofInt_neg, BitVec.ofInt_mul,
    ofInt_elementValue, ofInt_elementValue, ofInt_elementValue, ← BitVec.sub_eq_add_neg]

/-- The evaluation with masks: the constructor finds a product of primes for it; a masked share is
below the product, and the shares add up to `a * x` whenever it is above `a * x`, which hardly any
mask fails. -/
theorem crt_ole_correct {log2 : ℕ → ℚ} (hlog : LogRounds log2) {L : ℕ} (hL : L ∈ elementWidths)
    (signed : Bool) :
    ∃ crt, GilboaCRT.new log2 L = some crt ∧
      crt.smoothMod = (primesWithinByte.take crt.numPrimes).prod ∧ 2 ^ (2 * L + 40) ≤ crt.smoothMod ∧
      ∀ a x b : BitVec L,
        (∀ k, 0 ≤ k → k ≤ crt.samplingBound → masked signed b k < crt.smoothMod ∧
          (toZZ signed a * toZZ signed x < masked signed b k → ∀ w,
            GilboaCRTSmooth.CorrectOLEs crt.numPrimes (toZZ signed a) (toZZ signed x) (masked signed b k) w →
            crt.getNext L signed w = a * x - b ∧ b + crt.getNext L signed w = a * x)) ∧
        {k ∈ Finset.Icc 0 crt.samplingBound |
          ¬ toZZ signed a * toZZ signed x < masked signed b k}.card * 2 ^ 40 ≤
          (Finset.Icc 0 crt.samplingBound).card := by
  obtain ⟨crt, hnew, hproper⟩ := new_proper hlog hL
  refine ⟨crt, hnew, hproper.smoothMod, hproper.bits, fun a x b => ⟨fun k _ hk => ⟨?_, ?_⟩, ?_⟩⟩
  · rw [masked, toZZ_eq hL]
    exact (masked_sub_product_le hproper signed a x b hk).1
  · intro hlt w hcorrect
    have hshare := getNext_eq hL hproper signed a x b hk hlt hcorrect
    refine ⟨hshare, ?_⟩
    rw [hshare, add_sub_cancel]
  · have hsubset : {k ∈ Finset.Icc 0 crt.samplingBound |
        ¬ toZZ signed a * toZZ signed x < masked signed b k} ⊆ Finset.Ico 0 (2 ^ L - 1) := by
      intro k hk
      obtain ⟨hrange, hfails⟩ := Finset.mem_filter.mp hk
      refine Finset.mem_Ico.mpr ⟨(Finset.mem_Icc.mp hrange).1, ?_⟩
      by_contra hlarge
      rw [masked, toZZ_eq hL, toZZ_eq hL, toZZ_eq hL] at hfails
      exact hfails (product_lt (two_le_of_mem hL) signed a x b (not_lt.mp hlarge))
    have hcard := Finset.card_le_card hsubset
    have hsecurity := hproper.security
    rw [Int.card_Ico, sub_zero] at hcard
    rw [Int.card_Icc, sub_zero]
    omega

/-- A logarithm that is rounded down to a multiple of `1 / 128`. -/
def fineLog2 (x : ℕ) : ℚ := (Nat.log 2 (x ^ 128) : ℚ) / 128

theorem fineLog2_rounds : LogRounds fineLog2 := by
  constructor
  · intro x bits hle
    have hpow : 2 ^ bits ≤ x := by
      by_contra hlt
      have hmono : x ^ 100 ≤ (2 ^ bits) ^ 100 := Nat.pow_le_pow_left (not_le.mp hlt).le 100
      have hdouble : (2 ^ bits) ^ 100 < 2 ^ (100 * bits + 1) := by
        rw [← pow_mul]
        exact Nat.pow_lt_pow_right (by decide) (by omega)
      omega
    have hlog : bits * 128 ≤ Nat.log 2 (x ^ 128) := by
      apply Nat.le_log_of_pow_le (by decide)
      rw [pow_mul]
      exact Nat.pow_le_pow_left hpow 128
    rw [fineLog2, le_div_iff₀ (by norm_num)]
    exact_mod_cast hlog
  · intro x bits hx hle
    have hpow : x < 2 ^ bits := by
      by_contra hge
      have hmono : (2 ^ bits) ^ 100 ≤ x ^ 100 := Nat.pow_le_pow_left (not_lt.mp hge) 100
      have hpos : 0 < 2 ^ (100 * bits) := Nat.two_pow_pos _
      rw [← pow_mul, Nat.mul_comm bits] at hmono
      omega
    have hlog : Nat.log 2 (x ^ 128) < bits * 128 := by
      apply Nat.log_lt_of_lt_pow (pow_pos hx 128).ne'
      rw [pow_mul]
      exact Nat.pow_lt_pow_left hpow (by decide)
    rw [fineLog2, div_lt_iff₀ (by norm_num)]
    exact_mod_cast hlog

theorem crt_ole_correct_bytes : ∃ crt, GilboaCRT.new fineLog2 8 = some crt ∧
    crt.getNext 8 true (fun p =>
    BitVec.ofInt 16 ((-100 * 100 - (7 + 2 ^ 8 * 3000)) % p)) = (-100 : BitVec 8) * 100 - 7 := by
  obtain ⟨crt, hnew, hprod, hbits, hcorrect⟩ :=
    crt_ole_correct fineLog2_rounds (by decide : 8 ∈ elementWidths) true
  obtain ⟨crt', hnew', hproper⟩ := new_proper fineLog2_rounds (by decide : 8 ∈ elementWidths)
  have hsame : crt = crt' := Option.some.inj (hnew.symm.trans hnew')
  have hmask : (3000 : ℤ) ≤ crt.samplingBound := by
    have hsecurity := hproper.security
    rw [← hsame] at hsecurity
    omega
  obtain ⟨-, hshare⟩ := (hcorrect (-100) 100 7).1 3000 (by decide) hmask
  have hresidues := GilboaCRTSmooth.exists_correctOLEs crt.numPrimes (toZZ true (-100 : BitVec 8))
    (toZZ true (100 : BitVec 8)) (masked true (7 : BitVec 8) 3000)
  exact ⟨crt, hnew, (hshare (by decide) _ hresidues).1⟩

end GilboaCRT

end CryptDough
