import CryptDough.SortPadding

/-! The radix sort: one stable counting pass per bit, from the least significant one to the sign. -/

namespace CryptDough

open StableSort ElementwisePermutation

variable {w n : ℕ}

namespace RadixSort

/-- The destinations of a counting pass over the bits `f1`: the prefix sums of the complemented bits
for the zeros and, counted on from there, those of the bits for the ones. -/
def bitPermutation (f1 : Vec 32 n) : ElementwisePermutation n :=
  let f0 := Vec.replicate n 1 - f1
  let s : Vec 32 (n + n) := Fin.append f0 f1
  let s : Vec 32 (n + n) := fun k => if k.val = 0 then s k - 1 else s k
  let s := s.prefixSum
  let s0 : Vec 32 n := fun i => s (Fin.castAdd n i)
  let s1 : Vec 32 n := fun i => s (Fin.natAdd n i)
  s0 + f1 * (s1 - s0)

/-- The least significant bit as a number. -/
def b2aBit (x : Vec 32 n) : Vec 32 n := x.mask 1

/-- The pass over bit `i` of the values; the sign bit is inverted. -/
def radixPass (bits : ℕ) (fullWidth : Bool) (i : ℕ) (v : Vec w n) : Draws (Vec w n) :=
  let vShift := v.bitArithmeticRightShift (32 + i)
  let vShift := if fullWidth && decide (i + 1 = bits) then ~~~ vShift else vShift
  let vprime : Vec 32 n := fun k => (vShift k).setWidth 32
  let f1 := b2aBit vprime
  obliviousApplyElementwisePerm v (bitPermutation f1)

/-- The passes from bit `i` on. -/
def radixLoop (bits : ℕ) (fullWidth : Bool) : (rest i : ℕ) → Vec w n → Draws (Vec w n)
  | 0, _, v => pure v
  | rest + 1, i, v => do
      let v ← radixPass bits fullWidth i v
      radixLoop bits fullWidth rest (i + 1) v

def radixSortBody (bits : ℕ) (fullWidth : Bool) (v : Vec w n) : Draws (Vec w n) :=
  radixLoop bits fullWidth bits 0 v

end RadixSort

def radixSort (numParties : ℕ) (v : Vec w n) (order : SortOrder) (bits : ℕ) :
    Draws (Vec w n × ElementwisePermutation n) := do
  let fullWidth := decide (w = bits)
  let padded := padInput v (order = .desc)
  let padded ← RadixSort.radixSortBody bits fullWidth padded
  finish numParties padded (order = .desc)

namespace RadixSort

/-- Zero or one. -/
def bitVector (bit : Fin n → Bool) : Vec 32 n := fun k => if bit k then 1 else 0

/-- Decrementing the first element decrements every prefix sum. -/
theorem prefixSum_decrement {m : ℕ} (hm : 0 < m) (x : Vec 32 m) (i : Fin m) :
    Vec.prefixSum (fun k => if k.val = 0 then x k - 1 else x k) i = x.prefixSum i - 1 := by
  have hfirst : ∑ j : Fin m, (if j = ⟨0, hm⟩ then (1 : BitVec 32) else 0) = 1 := by
    rw [Finset.sum_ite_eq', if_pos (Finset.mem_univ _)]
  calc Vec.prefixSum (fun k => if k.val = 0 then x k - 1 else x k) i
      = ∑ j : Fin m, ((if j ≤ i then x j else 0) - if j = ⟨0, hm⟩ then (1 : BitVec 32) else 0) := by
        refine Finset.sum_congr rfl fun j _ => ?_
        by_cases hj : j.val = 0
        · obtain rfl : j = ⟨0, hm⟩ := Fin.ext hj
          simp [Fin.le_def]
        · have hne : j ≠ ⟨0, hm⟩ := fun heq => hj (congrArg Fin.val heq)
          simp [hj, hne]
    _ = x.prefixSum i - 1 := by
        rw [Finset.sum_sub_distrib, hfirst]
        rfl

theorem sum_boole_le (bit : Fin n → Bool) (i : Fin n) (b : Bool) :
    ∑ j : Fin n, (if j ≤ i then (if bit j = b then (1 : BitVec 32) else 0) else 0) =
      (countUpTo bit b i : BitVec 32) := by
  rw [countUpTo, ← Finset.sum_boole]
  refine Finset.sum_congr rfl fun j _ => ?_
  by_cases hj : j ≤ i <;> simp [hj]

section Counts

variable (bit : Fin n → Bool)

/-- The complemented bits followed by the bits. -/
def bothBits : Vec 32 (n + n) := Fin.append (Vec.replicate n 1 - bitVector bit) (bitVector bit)

theorem bothBits_castAdd (j : Fin n) :
    bothBits bit (Fin.castAdd n j) = if bit j = false then 1 else 0 := by
  rw [bothBits, Fin.append_left]
  cases hj : bit j <;> simp [bitVector, hj]

theorem bothBits_natAdd (j : Fin n) :
    bothBits bit (Fin.natAdd n j) = if bit j = true then 1 else 0 := by
  rw [bothBits, Fin.append_right]
  rfl

theorem prefixSum_castAdd (i : Fin n) :
    (bothBits bit).prefixSum (Fin.castAdd n i) = (countUpTo bit false i : BitVec 32) := by
  rw [Vec.prefixSum, Fin.sum_univ_add, ← sum_boole_le]
  have hright : ∑ j : Fin n, (if Fin.natAdd n j ≤ Fin.castAdd n i then
      bothBits bit (Fin.natAdd n j) else 0) = 0 := by
    refine Finset.sum_eq_zero fun j _ => if_neg ?_
    have hi := i.isLt
    simp only [Fin.le_def, Fin.val_natAdd, Fin.val_castAdd]
    omega
  rw [hright, add_zero]
  refine Finset.sum_congr rfl fun j _ => ?_
  rw [bothBits_castAdd]
  simp only [Fin.le_def, Fin.val_castAdd]

theorem prefixSum_natAdd (i : Fin n) :
    (bothBits bit).prefixSum (Fin.natAdd n i) =
      (countAll bit false : BitVec 32) + (countUpTo bit true i : BitVec 32) := by
  rw [Vec.prefixSum, Fin.sum_univ_add, ← sum_boole_le]
  congr 1
  · rw [countAll, ← Finset.sum_boole]
    refine Finset.sum_congr rfl fun j _ => ?_
    have hj := j.isLt
    have hle : Fin.castAdd n j ≤ Fin.natAdd n i := by
      simp only [Fin.le_def, Fin.val_natAdd, Fin.val_castAdd]
      omega
    rw [if_pos hle, bothBits_castAdd]
  · refine Finset.sum_congr rfl fun j _ => ?_
    rw [bothBits_natAdd]
    simp only [Fin.le_def, Fin.val_natAdd, Nat.add_le_add_iff_left]

/-- The vector computed from the prefix sums holds the destinations of the counting pass. -/
theorem bitPermutation_apply (i : Fin n) :
    bitPermutation (bitVector bit) i = BitVec.ofNat 32 (bitDest bit i) := by
  have hm : 0 < n + n := by
    have hi := i.isLt
    omega
  have hsum : bitPermutation (bitVector bit) i =
      ((bothBits bit).prefixSum (Fin.castAdd n i) - 1) + bitVector bit i *
        (((bothBits bit).prefixSum (Fin.natAdd n i) - 1) -
          ((bothBits bit).prefixSum (Fin.castAdd n i) - 1)) := by
    rw [← prefixSum_decrement hm, ← prefixSum_decrement hm]
    rfl
  have hpos := countUpTo_pos bit i
  have hone : ∀ c : ℕ, 0 < c → (c : BitVec 32) - 1 = BitVec.ofNat 32 (c - 1) := by
    intro c hc
    obtain ⟨d, rfl⟩ : ∃ d, c = d + 1 := ⟨c - 1, by omega⟩
    rw [Nat.cast_succ, add_sub_cancel_right]
    rfl
  rw [hsum, prefixSum_castAdd, prefixSum_natAdd, bitDest]
  cases hbit : bit i with
  | false =>
      rw [hbit] at hpos
      simp only [bitVector, hbit, Bool.false_eq_true, if_false, zero_mul, add_zero]
      exact hone _ hpos
  | true =>
      rw [hbit] at hpos
      simp only [bitVector, hbit, if_true, one_mul]
      rw [add_sub_cancel, ← Nat.cast_add]
      exact hone _ (by omega)

/-- The pass destinations form a permutation that sorts by the bit, stably. -/
theorem exists_bitPermutation :
    ∃ σ : Equiv.Perm (Fin n), bitPermutation (bitVector bit) = ofPerm σ ∧
      StableSorts (fun i j => bit i = false ∧ bit j = true) σ := by
  obtain ⟨σ, hσ, hsorts⟩ := exists_bitDest_perm bit
  refine ⟨σ, ?_, hsorts⟩
  ext i
  rw [bitPermutation_apply, ← hσ i]
  rfl

end Counts

section Passes

/-- The bit by which a pass sorts an element. -/
def passBit (bits : ℕ) (fullWidth : Bool) (i : ℕ) (e : BitVec w) : Bool :=
  e.getLsbD (32 + i) ^^ (fullWidth && decide (i + 1 = bits))

theorem returns_radixPass (hn : n < 2 ^ 31) (bits : ℕ) (fullWidth : Bool) {i : ℕ} (hi : 32 + i < w)
    (v : Vec w n) :
    Draws.Returns (radixPass bits fullWidth i v) fun y =>
      ∃ σ, y = rearrange σ v ∧ StableSorts (fun a b => passBit bits fullWidth i (v a) = false ∧
        passBit bits fullWidth i (v b) = true) σ := by
  have hf1 : b2aBit (fun k => ((if fullWidth && decide (i + 1 = bits) then
      ~~~ v.bitArithmeticRightShift (32 + i) else v.bitArithmeticRightShift (32 + i)) k).setWidth 32) =
      bitVector fun k => passBit bits fullWidth i (v k) := by
    ext k
    have hw : 0 < w := by omega
    rw [b2aBit, Vec.mask, Vec.mask_one_eq, bitVector, passBit]
    congr 1
    cases fullWidth && decide (i + 1 = bits) <;>
      simp [Vec.bitArithmeticRightShift, BitVec.getElem_sshiftRight, hi, hw]
  obtain ⟨σ, hσ, hsorts⟩ := exists_bitPermutation fun k => passBit bits fullWidth i (v k)
  have hpass : radixPass bits fullWidth i v = obliviousApplyElementwisePerm v (ofPerm σ) := by
    rw [← hσ, ← hf1]
    rfl
  rw [hpass]
  exact (returns_obliviousApply hn v σ).mono fun y hy => ⟨σ, hy, hsorts⟩

/-- The order by the bits below `i`, the highest first. -/
def digitLt (bit : ℕ → Fin n → Bool) : ℕ → Fin n → Fin n → Prop
  | 0 => fun _ _ => False
  | i + 1 => lexRel (fun a b => bit i a = false ∧ bit i b = true) (digitLt bit i)

/-- After the passes over the bits below `i` the vector is sorted by them. -/
theorem returns_radixLoop (hn : n < 2 ^ 31) (bits : ℕ) (fullWidth : Bool) (hbits : 32 + bits ≤ w)
    (x : Vec w n) (rest : ℕ) {i : ℕ} (hi : i + rest = bits) {σ : Equiv.Perm (Fin n)}
    (hσ : StableSorts (digitLt (fun k a => passBit bits fullWidth k (x a)) i) σ) :
    Draws.Returns (radixLoop bits fullWidth rest i (rearrange σ x)) fun y =>
      ∃ τ, y = rearrange τ x ∧
        StableSorts (digitLt (fun k a => passBit bits fullWidth k (x a)) bits) τ := by
  induction rest generalizing i σ with
  | zero =>
      obtain rfl : i = bits := by omega
      exact Draws.Returns.pure ⟨σ, rfl, hσ⟩
  | succ rest ih =>
      rw [radixLoop]
      refine (returns_radixPass hn bits fullWidth (by omega) (rearrange σ x)).bind fun y hy => ?_
      obtain ⟨τ, rfl, hτ⟩ := hy
      exact ih (i := i + 1) (σ := σ.trans τ) (by omega) (hσ.trans hτ)

end Passes

section Order

theorem digitLt_congr {bit bit' : ℕ → Fin n → Bool} {i : ℕ} (heq : ∀ k, k < i → bit k = bit' k) :
    digitLt bit i = digitLt bit' i := by
  induction i with
  | zero => rfl
  | succ i ih =>
      rw [digitLt, digitLt, heq i (Nat.lt_succ_self i), ih fun k hk => heq k (by omega)]

theorem mod_two_pow_succ (x i : ℕ) :
    x % 2 ^ (i + 1) = x % 2 ^ i + 2 ^ i * (x.testBit i).toNat := by
  rw [Nat.mod_pow_succ, Nat.toNat_testBit]

theorem digitLt_iff (u : Vec w n) (i : ℕ) (a b : Fin n) :
    digitLt (fun k c => (u c).getLsbD k) i a b ↔ (u a).toNat % 2 ^ i < (u b).toNat % 2 ^ i := by
  induction i generalizing a b with
  | zero => simp [digitLt, Nat.mod_one]
  | succ i ih =>
      have ha := Nat.mod_lt (u a).toNat (Nat.two_pow_pos i)
      have hb := Nat.mod_lt (u b).toNat (Nat.two_pow_pos i)
      rw [digitLt, lexRel, ih, mod_two_pow_succ, mod_two_pow_succ]
      simp only [BitVec.getLsbD]
      cases (u a).toNat.testBit i <;> cases (u b).toNat.testBit i <;> simp <;> omega

/-- A signed number is its bits below the sign, less the weight of the sign. -/
theorem toInt_eq_sub {m : ℕ} (v : BitVec (m + 1)) :
    v.toInt = (v.toNat % 2 ^ m : ℕ) - if v.getLsbD m then ((2 ^ m : ℕ) : ℤ) else 0 := by
  have hsplit := mod_two_pow_succ v.toNat m
  rw [Nat.mod_eq_of_lt v.isLt] at hsplit
  rw [BitVec.toInt_eq_msb_cond, BitVec.msb_eq_getLsbD_last, Nat.add_sub_cancel, Nat.pow_succ]
  rw [BitVec.getLsbD]
  generalize 2 ^ m = weight at hsplit ⊢
  generalize v.toNat % weight = low at hsplit ⊢
  generalize v.toNat.testBit m = sign at hsplit ⊢
  cases sign with
  | false => simpa using hsplit
  | true =>
      simp only [Bool.toNat_true, mul_one] at hsplit
      simp only [if_true]
      omega

/-- With the sign bit inverted, the order by all bits is the one of signed numbers. -/
theorem digitLt_signed (hw : 0 < w) (u : Vec w n) (a b : Fin n) :
    digitLt (fun k c => (u c).getLsbD k ^^ decide (k + 1 = w)) w a b ↔
      (u a).toInt < (u b).toInt := by
  obtain ⟨m, rfl⟩ : ∃ m, w = m + 1 := ⟨w - 1, by omega⟩
  have hlow : digitLt (fun k c => (u c).getLsbD k ^^ decide (k + 1 = m + 1)) m =
      digitLt (fun k c => (u c).getLsbD k) m := by
    refine digitLt_congr fun k hk => ?_
    ext c
    rw [decide_eq_false (by omega), Bool.xor_false]
  have ha := Nat.mod_lt (u a).toNat (Nat.two_pow_pos m)
  have hb := Nat.mod_lt (u b).toNat (Nat.two_pow_pos m)
  rw [digitLt, lexRel, hlow, digitLt_iff, toInt_eq_sub, toInt_eq_sub]
  generalize 2 ^ m = weight at ha hb ⊢
  cases (u a).getLsbD m <;> cases (u b).getLsbD m <;> simp <;> omega

end Order

/-- Before the sort an element starts with its value. -/
theorem getLsbD_padInput (hw0 : 0 < w) (hw : w + 32 ≤ padWidth w) (v : Vec w n) (order : SortOrder)
    (a : Fin n) {i : ℕ} (hi : i < w) :
    (padInput v (order = .desc) a).getLsbD (32 + i) = (inOrder order v a).getLsbD i := by
  cases order with
  | asc =>
      apply (getLsbD_padElement hw0 hw _ _ (by omega)).trans
      rw [if_neg (by omega), Nat.add_sub_cancel_left]
      rfl
  | desc =>
      apply (getLsbD_padElement hw0 hw _ _ (by omega)).trans
      rw [if_neg (by omega), Nat.add_sub_cancel_left]
      rfl

theorem returns_radixSort_of (hn : n < 2 ^ 31) (hw0 : 0 < w) (hw : w + 32 ≤ padWidth w)
    (numParties : ℕ) (v : Vec w n) (order : SortOrder) {bits : ℕ} (hbits : bits ≤ w)
    (hlt : ∀ a b, digitLt (fun k c => (inOrder order v c).getLsbD k ^^
        (decide (w = bits) && decide (k + 1 = bits))) bits a b ↔ keyLt .asc (inOrder order v) a b) :
    Draws.Returns (radixSort numParties v order bits) fun r =>
      ∃ τ, StableSorts (keyLt order v) τ ∧ r = (rearrange τ v, ofPerm τ) := by
  refine (returns_radixLoop hn bits (decide (w = bits)) (by omega) (padInput v (order = .desc)) bits
    (Nat.zero_add bits) stableSorts_refl).bind fun y hy => ?_
  obtain ⟨σ, rfl, hσ⟩ := hy
  refine returns_finish hn hw0 hw numParties v order (hσ.congr fun a b => ?_)
  rw [← hlt, digitLt_congr]
  intro k hk
  ext c
  rw [passBit, getLsbD_padInput hw0 hw v order c (by omega)]

theorem lt_of_returns_radixSort {numParties bits : ℕ} (hbits : 0 < bits) {v : Vec w n}
    {order : SortOrder} {post : Vec w n × ElementwisePermutation n → Prop}
    (hreturns : Draws.Returns (radixSort numParties v order bits) post) : n < 2 ^ 31 := by
  have hbody := hreturns.of_bind
  obtain ⟨rest, rfl⟩ := Nat.exists_eq_succ_of_ne_zero hbits.ne'
  rw [radixSortBody, radixLoop] at hbody
  exact lt_of_returns_obliviousApply hbody.of_bind

end RadixSort

/-- On all bits the radix sort is the stable sort of signed numbers. -/
theorem returns_radixSort (hn : n < 2 ^ 31) (hw0 : 0 < w) (hw : w + 32 ≤ padWidth w)
    (numParties : ℕ) (v : Vec w n) (order : SortOrder) :
    Draws.Returns (radixSort numParties v order w) fun r =>
      ∃ τ, StableSorts (keyLt order v) τ ∧ r = (rearrange τ v, ofPerm τ) := by
  refine RadixSort.returns_radixSort_of hn hw0 hw numParties v order le_rfl fun a b => ?_
  rw [keyLt, ← RadixSort.digitLt_signed hw0]
  simp

/-- One pass is enough for a column of zeros and ones. -/
theorem returns_radixSort_bit (hn : n < 2 ^ 31) (hw0 : 1 < w) (hw : w + 32 ≤ padWidth w)
    (numParties : ℕ) (v : Vec w n) (hv : ∀ k, v k = 0 ∨ v k = 1) (order : SortOrder) :
    Draws.Returns (radixSort numParties v order 1) fun r =>
      ∃ τ, StableSorts (keyLt order v) τ ∧ r = (rearrange τ v, ofPerm τ) := by
  refine RadixSort.returns_radixSort_of hn (by omega) hw numParties v order (by omega) fun a b => ?_
  have hne : ¬ w = 1 := by omega
  have hu : ∀ k, inOrder order v k = 0 ∨ inOrder order v k = 1 := by
    intro k
    cases order with
    | asc => exact hv k
    | desc => exact hv k.rev
  simp only [RadixSort.digitLt, lexRel, keyLt, decide_eq_false hne, Bool.false_and, Bool.xor_false]
  have hpos : 0 < w := by omega
  rcases hu a with ha | ha <;> rcases hu b with hb | hb <;>
    simp [ha, hb, BitVec.toInt_one hw0, hpos]

end CryptDough
