import CryptDough.Circuits
import Mathlib.Data.Nat.Notation
import Mathlib.Tactic.Common

/-! What the two adders compute: the ripple-carry adder adds in every protocol, while the
parallel-prefix adder flips the lowest bit of the sum with a carry when the number of parts of a
sharing is even. Both compute the carries of a binary addition from generate and propagate bits, the
second by doubling the range that these bits summarise. -/

namespace CryptDough.CarryChain

variable {c g p : ℕ → Bool} {span : ℕ}

def carryInto (g p : ℕ → Bool) : ℕ → Bool
  | 0 => false
  | j + 1 => g j || (p j && carryInto g p j)

/-- The bits `g` and `p` summarise `span` positions: the carry out of `j` is generated within them,
or propagated from the carry into the lowest. -/
def Covers (c g p : ℕ → Bool) (span : ℕ) : Prop :=
  ∀ j, c (j + 1) = (g j || (p j && c (j + 1 - span)))

def shifted (b : ℕ → Bool) (span : ℕ) : ℕ → Bool := fun j => !decide (j < span) && b (j - span)

theorem covers_carryInto (g p : ℕ → Bool) : Covers (carryInto g p) g p 1 := fun _ => rfl

/-- Combining each position with the one `span` below doubles the summarised range. -/
theorem Covers.double (hcov : Covers c g p span) (hzero : c 0 = false) :
    Covers c (fun j => g j || (p j && shifted g span j)) (fun j => p j && shifted p span j)
      (2 * span) := by
  intro j
  rw [hcov j]
  by_cases hj : j < span
  · have hlow : j + 1 - span = 0 := by omega
    simp [shifted, hj, hlow, hzero]
  · have hsplit : j + 1 - span = (j - span) + 1 := by omega
    have hlow : j - span + 1 - span = j + 1 - 2 * span := by omega
    rw [hsplit, hcov (j - span), hlow]
    simp only [shifted, hj, decide_false, Bool.not_false, Bool.true_and]
    cases g j <;> cases p j <;> cases g (j - span) <;> cases p (j - span) <;> rfl

theorem Covers.generate (hcov : Covers c g p span) (hzero : c 0 = false) {j : ℕ}
    (hj : j + 1 ≤ span) : c (j + 1) = g j := by
  have hlow : j + 1 - span = 0 := by omega
  rw [hcov j, hlow, hzero, Bool.and_false, Bool.or_false]

end CryptDough.CarryChain

namespace CryptDough

open Process Sharing

variable {w n : ℕ}

def addWithCarry (a b : Vec w n) (carryIn : Bool) : Vec w n :=
  fun k => a k + b k + if carryIn then 1 else 0

theorem getLsbD_addWithCarry (a b : Vec w n) (carryIn : Bool) (k : Fin n) {i : ℕ} (hi : i < w) :
    (addWithCarry a b carryIn k).getLsbD i =
      ((a k).getLsbD i ^^ ((b k).getLsbD i ^^ BitVec.carry i (a k) (b k) carryIn)) := by
  have hcarry : (if carryIn then 1 else 0 : BitVec w) = (BitVec.ofBool carryIn).setWidth w := by
    cases carryIn with
    | false => simp
    | true =>
        apply BitVec.eq_of_toNat_eq
        simp
  rw [addWithCarry, hcarry]
  exact BitVec.getLsbD_add_add_bool hi (a k) (b k) carryIn

/-- Bit `i` of every element, packed. -/
def PacksBit (c : Vec w (Vec.compressedSize w n)) (bit : Fin n → Bool) : Prop :=
  ∀ (k : Fin n) (hk : k.val / w < Vec.compressedSize w n), (c ⟨k.val / w, hk⟩).getLsbD (k.val % w) = bit k

namespace Protocol

variable {P : Protocol w}

section RippleCarry

theorem carry_step (x y c : Bool) : (((c ^^ x) && (x ^^ y)) ^^ x) = Bool.atLeastTwo x y c := by
  cases x <;> cases y <;> cases c <;> rfl

theorem packsBit_nextCarry (hw : 0 < w) {a b : Vec w n} {carryIn : Bool} {i : ℕ}
    {c : Vec w (Vec.compressedSize w n)}
    (hc : PacksBit c fun k => BitVec.carry i (a k) (b k) carryIn) :
    PacksBit (((c ^^^ Vec.packFrom a i) &&& Vec.packFrom (a ^^^ b) i) ^^^ Vec.packFrom a i)
      fun k => BitVec.carry (i + 1) (a k) (b k) carryIn := by
  intro k hk
  show _ = BitVec.carry (i + 1) (a k) (b k) carryIn
  rw [BitVec.carry_succ, ← carry_step]
  simp only [Vec.xor_apply, Vec.and_apply, BitVec.getLsbD_xor, BitVec.getLsbD_and,
    Vec.getLsbD_packFrom k hk hw, hc k hk]

theorem packsBit_digit (hw : 0 < w) {a b : Vec w n} {carryIn : Bool} {i : ℕ} (hi : i < w)
    {c : Vec w (Vec.compressedSize w n)}
    (hc : PacksBit c fun k => BitVec.carry i (a k) (b k) carryIn) :
    PacksBit (Vec.packFrom (a ^^^ b) i ^^^ c) fun k => (addWithCarry a b carryIn k).getLsbD i := by
  intro k hk
  show _ = (addWithCarry a b carryIn k).getLsbD i
  rw [getLsbD_addWithCarry a b carryIn k hi, Vec.xor_apply, BitVec.getLsbD_xor,
    Vec.getLsbD_packFrom k hk hw, hc k hk, Vec.xor_apply, BitVec.getLsbD_xor, Bool.xor_assoc]

/-- Without a carry no bit is set, with one every bit is. -/
theorem packsBit_carryIn (hw : 0 < w) (a b : Vec w n) (carryIn : Bool) :
    PacksBit (if carryIn then ~~~ (0 : Vec w (Vec.compressedSize w n)) else 0)
      fun k => BitVec.carry 0 (a k) (b k) carryIn := by
  intro k hk
  have hmod := Nat.mod_lt k.val hw
  show _ = BitVec.carry 0 (a k) (b k) carryIn
  rw [BitVec.carry_zero]
  cases carryIn with
  | false => simp
  | true => simp [hmod]

theorem carryIn_opens (carryIn : Bool) :
    OpensB (fun p => if carryIn then P.notB p fun _ => 0 else fun _ => 0)
      (if carryIn then ~~~ (0 : Vec w (Vec.compressedSize w n)) else 0) := by
  cases carryIn with
  | false => exact zero_opens
  | true => exact P.notB_opens zero_opens

/-- From bit `i` on: the packed carries are those into bit `i`, and the bits below `i` of the sum are
already in place. -/
theorem rippleCarryLoop_ensures (hw : 0 < w) (a b : Vec w n) (carryIn : Bool)
    {aXorB aBits : P.Party → ℕ → EVec P.scheme w (Vec.compressedSize w n)}
    (hxor : ∀ i, OpensB (fun p => aXorB p i) (Vec.packFrom (a ^^^ b) i))
    (hbits : ∀ i, OpensB (fun p => aBits p i) (Vec.packFrom a i)) (rounds i : ℕ)
    (hi : i + rounds = w) {carry : P.scheme.Shares (Vec w (Vec.compressedSize w n))}
    {c : Vec w (Vec.compressedSize w n)} (hcarry : OpensB carry c)
    (hc : PacksBit c fun k => BitVec.carry i (a k) (b k) carryIn)
    {sum : P.scheme.Shares (Vec w n)} {s : Vec w n} (hsum : OpensB sum s)
    (hs : ∀ k j, j < i → (s k).getLsbD j = (addWithCarry a b carryIn k).getLsbD j) :
    P.Ensures (fun p => P.rippleCarryLoop p (aXorB p) (aBits p) rounds i (carry p) (sum p))
      fun z => OpensB z (addWithCarry a b carryIn) := by
  induction rounds generalizing i carry c sum s with
  | zero =>
      have heq : s = addWithCarry a b carryIn := by
        funext k
        exact BitVec.eq_of_getLsbD_eq fun j hj => hs k j (by omega)
      rw [← heq]
      exact Computes.pure hsum
  | succ rounds ih =>
      have hunpack := unpackFrom_opens hsum (xorB_opens (hxor i) hcarry) i
      have hs' : ∀ k j, j < i + 1 →
          (Vec.unpackFrom s (Vec.packFrom (a ^^^ b) i ^^^ c) i k).getLsbD j =
            (addWithCarry a b carryIn k).getLsbD j := by
        intro k j hj
        have hk := Vec.div_lt_compressedSize k.isLt hw
        rw [Vec.getLsbD_unpackFrom k hk]
        split
        · rename_i hji
          subst hji
          have hjw : j < w := by omega
          rw [packsBit_digit hw hjw hc k hk]
          simp only [hjw, decide_true, Bool.true_and]
        · exact hs k j (by omega)
      simp only [rippleCarryLoop]
      by_cases hlast : i + 1 = w
      · simp only [if_pos hlast]
        have heq : Vec.unpackFrom s (Vec.packFrom (a ^^^ b) i ^^^ c) i = addWithCarry a b carryIn := by
          funext k
          exact BitVec.eq_of_getLsbD_eq fun j hj => hs' k j (by omega)
        rw [← heq]
        exact Computes.pure hunpack
      · simp only [if_neg hlast]
        refine (P.andB_computes (xorB_opens hcarry (hbits i)) (hxor i)).bind fun z hz => ?_
        exact ih (i + 1) (by omega) (xorB_opens hz (hbits i)) (packsBit_nextCarry hw hc) hunpack hs'

theorem rippleCarryAdder_ensures (hw : 0 < w) {x y : P.scheme.Shares (Vec w n)} {a b : Vec w n}
    (hx : OpensB x a) (hy : OpensB y b) (carryIn : Bool) :
    P.Ensures (fun p => P.rippleCarryAdder p (x p) (y p) carryIn)
      fun z => OpensB z (addWithCarry a b carryIn) := by
  exact rippleCarryLoop_ensures hw a b carryIn (fun i => bitDecomposition_opens (xorB_opens hx hy) i)
    (fun i => bitDecomposition_opens hx i) w 0 (Nat.zero_add w) (carryIn_opens carryIn)
    (packsBit_carryIn hw a b carryIn) zero_opens (fun k j hj => absurd hj (Nat.not_lt_zero j))

theorem packedSignLoop_ensures (hw : 0 < w) (a b : Vec w n) (carryIn : Bool)
    {aXorB aBits : P.Party → ℕ → EVec P.scheme w (Vec.compressedSize w n)}
    (hxor : ∀ i, OpensB (fun p => aXorB p i) (Vec.packFrom (a ^^^ b) i))
    (hbits : ∀ i, OpensB (fun p => aBits p i) (Vec.packFrom a i)) (rounds i : ℕ)
    (hi : i + rounds = w) (hlt : i < w) {carry : P.scheme.Shares (Vec w (Vec.compressedSize w n))}
    {c : Vec w (Vec.compressedSize w n)} (hcarry : OpensB carry c)
    (hc : PacksBit c fun k => BitVec.carry i (a k) (b k) carryIn) :
    P.Ensures (fun p => P.packedSignLoop p (aXorB p) (aBits p) rounds i (carry p))
      fun z => ∃ s, OpensB z s ∧ PacksBit s fun k => (addWithCarry a b carryIn k).msb := by
  induction rounds generalizing i carry c with
  | zero => omega
  | succ rounds ih =>
      simp only [packedSignLoop]
      by_cases hlast : i + 1 = w
      · have hdigit := packsBit_digit hw hlt hc
        have hmsb : ∀ k, (addWithCarry a b carryIn k).getLsbD i =
            (addWithCarry a b carryIn k).msb := by
          intro k
          rw [BitVec.msb_eq_getLsbD_last, show w - 1 = i from by omega]
        simp only [hmsb] at hdigit
        simp only [if_pos hlast]
        exact Computes.pure ⟨_, xorB_opens (hxor i) hcarry, hdigit⟩
      · simp only [if_neg hlast]
        refine (P.andB_computes (xorB_opens hcarry (hbits i)) (hxor i)).bind fun z hz => ?_
        exact ih (i + 1) (by omega) (by omega) (xorB_opens hz (hbits i)) (packsBit_nextCarry hw hc)

/-- The packed signs of the sums. -/
theorem rippleCarryAdderPackedSign_ensures (hw : 0 < w) {x y : P.scheme.Shares (Vec w n)}
    {a b : Vec w n} (hx : OpensB x a) (hy : OpensB y b) (carryIn : Bool) :
    P.Ensures (fun p => P.rippleCarryAdderPackedSign p (x p) (y p) carryIn)
      fun z => ∃ s, OpensB z s ∧ PacksBit s fun k => (addWithCarry a b carryIn k).msb :=
  packedSignLoop_ensures hw a b carryIn (fun i => bitDecomposition_opens (xorB_opens hx hy) i)
    (fun i => bitDecomposition_opens hx i) w 0 (Nat.zero_add w) hw (carryIn_opens carryIn)
    (packsBit_carryIn hw a b carryIn)

end RippleCarry

section ParallelPrefix

open CarryChain

def combineG (gx px gy : Vec w n) : Vec w n := (gx &&& (gy &&& px)) ^^^ gx ^^^ (gy &&& px)

theorem prefixSum_ensures {gx px gy py : P.scheme.Shares (Vec w n)} {a b c d : Vec w n}
    (hgx : OpensB gx a) (hpx : OpensB px b) (hgy : OpensB gy c) (hpy : OpensB py d) :
    P.Ensures (fun p => P.prefixSum p (gx p) (px p) (gy p) (py p)) fun z =>
      OpensB (fun p => (z p).1) (combineG a b c) ∧ OpensB (fun p => (z p).2) (d &&& b) := by
  refine (P.andB_computes hpy hpx).bind fun py' hpy' => ?_
  refine (P.andB_computes hgy hpx).bind fun gy' hgy' => ?_
  refine (P.andB_computes hgx hgy').bind fun gpg hgpg => ?_
  exact Computes.pure ⟨xorB_opens (xorB_opens hgpg hgx) hgy', hpy'⟩

theorem getLsbD_combineG (g p : Vec w n) (s : ℕ) (k : Fin n) (j : ℕ) :
    (combineG g p (Vec.bitLeftShift g s) k).getLsbD j =
      ((g k).getLsbD j || ((p k).getLsbD j && shifted (g k).getLsbD s j)) := by
  by_cases hj : j < w
  · simp only [combineG, Vec.xor_apply, Vec.and_apply, Vec.bitLeftShift, BitVec.getLsbD_xor,
      BitVec.getLsbD_and, BitVec.getLsbD_shiftLeft, hj, decide_true, Bool.true_and, shifted]
    cases (g k).getLsbD j <;> cases (p k).getLsbD j <;>
      cases (!decide (j < s) && (g k).getLsbD (j - s)) <;> rfl
  · rw [BitVec.getLsbD_of_ge _ _ (by omega), BitVec.getLsbD_of_ge _ _ (by omega),
      BitVec.getLsbD_of_ge _ _ (by omega)]
    rfl

theorem getLsbD_combineP (p : Vec w n) (s : ℕ) (k : Fin n) (j : ℕ) :
    ((Vec.bitLeftShift p s &&& p) k).getLsbD j =
      ((p k).getLsbD j && shifted (p k).getLsbD s j) := by
  by_cases hj : j < w
  · simp only [Vec.and_apply, Vec.bitLeftShift, BitVec.getLsbD_and, BitVec.getLsbD_shiftLeft, hj,
      decide_true, Bool.true_and, shifted, Bool.and_comm]
  · rw [BitVec.getLsbD_of_ge _ _ (by omega), BitVec.getLsbD_of_ge _ _ (by omega), Bool.false_and]

/-- Each level doubles the number of positions the generate and propagate bits summarise. -/
theorem prefixLoop_ensures {c : Fin n → ℕ → Bool} (hc : ∀ k, c k 0 = false) (levels i : ℕ)
    {gs ps : P.scheme.Shares (Vec w n)} {g p : Vec w n} (hg : OpensB gs g) (hp : OpensB ps p)
    (hcov : ∀ k, Covers (c k) (g k).getLsbD (p k).getLsbD (2 ^ i)) :
    P.Ensures (fun q => P.prefixLoop q levels i (gs q) (ps q)) fun z => ∃ g' p' : Vec w n,
      OpensB (fun q => (z q).1) g' ∧ OpensB (fun q => (z q).2) p' ∧
        ∀ k, Covers (c k) (g' k).getLsbD (p' k).getLsbD (2 ^ (i + levels)) := by
  induction levels generalizing i gs ps g p with
  | zero => exact Computes.pure ⟨g, p, hg, hp, hcov⟩
  | succ levels ih =>
      refine (prefixSum_ensures hg hp (bitLeftShift_opens hg (2 ^ i))
        (bitLeftShift_opens hp (2 ^ i))).bind fun z hz => ?_
      have hnext := ih (i + 1) hz.1 hz.2 ?_
      · have hexp : i + (levels + 1) = i + 1 + levels := by omega
        rw [hexp]
        exact hnext
      · intro k
        have hdouble := (hcov k).double (hc k)
        rw [pow_succ, Nat.mul_comm]
        convert hdouble using 1
        · ext j
          exact getLsbD_combineG g p (2 ^ i) k j
        · ext j
          exact getLsbD_combineP p (2 ^ i) k j

/-- A constant XORed into every part of a sharing changes the secret if the parts are odd in
number. -/
theorem combine_xor_const (last : ℕ) (c : Vec w n) :
    combine (· ^^^ ·) (fun _ : Fin (last + 1) => c) = if Even last then c else 0 := by
  induction last with
  | zero => simp [combine_zero]
  | succ last ih =>
      rw [combine_succ, ih]
      by_cases heven : Even last
      · have hodd : ¬ Even (last + 1) := by simpa [Nat.even_add_one] using heven
        rw [if_pos heven, if_neg hodd]
        ext i
        simp
      · have heven' : Even (last + 1) := by simpa [Nat.even_add_one] using heven
        rw [if_neg heven, if_pos heven']
        ext i
        simp

theorem xor_every_share {x : P.scheme.Shares (Vec w n)} {a : Vec w n} (hx : OpensB x a)
    (c : Vec w n) : OpensB (fun p => P.xorB (x p) fun _ => c)
      (a ^^^ if Even P.scheme.last then c else 0) := by
  refine hx.op ⟨⟨fun _ => c, rfl⟩, ?_⟩
  exact combine_xor_const P.scheme.last c

/-- The generate bits with the carry taken in, as the adder computes them. -/
def generateBits (a b : Vec w n) (carryIn : Bool) : Vec w n :=
  if carryIn then (a &&& b) ^^^ Vec.mask (a ^^^ b) 1 else a &&& b

/-- The propagate bits: with a carry, the constant one in every share flips the lowest bit or, for an
even number of parts, none. -/
def propagateBits (P : Protocol w) (a b : Vec w n) (carryIn : Bool) : Vec w n :=
  if carryIn then (a ^^^ b) ^^^ (if Even P.scheme.last then Vec.replicate n 1 else 0) else a ^^^ b

theorem getLsbD_propagateBits_succ (a b : Vec w n) (carryIn : Bool) (k : Fin n) (j : ℕ) :
    (propagateBits P a b carryIn k).getLsbD (j + 1) =
      ((a k).getLsbD (j + 1) ^^ (b k).getLsbD (j + 1)) := by
  unfold propagateBits
  split
  · split <;> simp [BitVec.getLsbD_one]
  · simp

/-- Whatever became of the lowest propagate bit, the carries are those of the addition. -/
theorem carryInto_eq_carry (hw : 0 < w) (a b : Vec w n) (carryIn : Bool) (k : Fin n) (j : ℕ) :
    carryInto (generateBits a b carryIn k).getLsbD (propagateBits P a b carryIn k).getLsbD (j + 1) =
      BitVec.carry (j + 1) (a k) (b k) carryIn := by
  induction j with
  | zero =>
      rw [BitVec.carry_succ, BitVec.carry_zero]
      simp only [carryInto, Bool.and_false, Bool.or_false, generateBits]
      cases carryIn with
      | false =>
          simp only [Bool.false_eq_true, if_false, Vec.and_apply, BitVec.getLsbD_and]
          cases (a k).getLsbD 0 <;> cases (b k).getLsbD 0 <;> rfl
      | true =>
          simp only [if_true, Vec.xor_apply, Vec.and_apply, Vec.mask, BitVec.getLsbD_xor,
            BitVec.getLsbD_and, BitVec.ofNat_eq_ofNat, BitVec.getLsbD_one, hw, decide_true,
            Bool.and_self, Bool.and_true]
          cases (a k).getLsbD 0 <;> cases (b k).getLsbD 0 <;> rfl
  | succ j ih =>
      rw [carryInto, ih, getLsbD_propagateBits_succ, BitVec.carry_succ (j + 1)]
      have hgen : (generateBits a b carryIn k).getLsbD (j + 1) =
          ((a k).getLsbD (j + 1) && (b k).getLsbD (j + 1)) := by
        unfold generateBits
        split <;> simp [Vec.mask, BitVec.getLsbD_one]
      rw [hgen]
      cases (a k).getLsbD (j + 1) <;> cases (b k).getLsbD (j + 1) <;>
        cases BitVec.carry (j + 1) (a k) (b k) carryIn <;> rfl

/-- What the parallel-prefix adder computes: with a carry and an even number of parts, the lowest bit
of the sum is wrong. -/
def parallelPrefixSum (P : Protocol w) (a b : Vec w n) (carryIn : Bool) : Vec w n := fun k =>
  addWithCarry a b carryIn k ^^^ if carryIn && !decide (Even P.scheme.last) then 1 else 0

theorem propagate_xor_carries (hw : 0 < w) (a b g : Vec w n) (carryIn : Bool)
    (hg : ∀ k j, j + 1 < w → (g k).getLsbD j = BitVec.carry (j + 1) (a k) (b k) carryIn) :
    propagateBits P a b carryIn ^^^ Vec.bitLeftShift g 1 = parallelPrefixSum P a b carryIn := by
  funext k
  apply BitVec.eq_of_getLsbD_eq
  intro j hj
  rw [parallelPrefixSum, BitVec.getLsbD_xor, getLsbD_addWithCarry a b carryIn k hj, Vec.xor_apply,
    BitVec.getLsbD_xor, Vec.bitLeftShift, BitVec.getLsbD_shiftLeft]
  cases j with
  | zero =>
      rw [BitVec.carry_zero]
      unfold propagateBits
      cases carryIn with
      | false => simp
      | true =>
          by_cases heven : Even P.scheme.last
          · simp [heven, hw]
          · simp [heven, hw]
  | succ j =>
      rw [getLsbD_propagateBits_succ, Nat.add_sub_cancel, hg k j hj]
      split <;> simp [hj]

theorem parallelPrefixAdder_ensures (hw : 0 < w) {x y : P.scheme.Shares (Vec w n)} {a b : Vec w n}
    (hx : OpensB x a) (hy : OpensB y b) (carryIn : Bool) :
    P.Ensures (fun p => P.parallelPrefixAdder p (x p) (y p) carryIn)
      fun z => OpensB z (parallelPrefixSum P a b carryIn) := by
  have hxor := xorB_opens hx hy
  refine (P.andB_computes hx hy).bind fun g hg => ?_
  have hgen : OpensB (fun p => if carryIn then P.xorB (g p) (P.maskB (P.xorB (x p) (y p)) 1) else g p)
      (generateBits a b carryIn) := by
    cases carryIn with
    | false => exact hg
    | true => exact xorB_opens hg (maskB_opens hxor 1)
  have hprop : OpensB (fun p => if carryIn then P.xorB (P.xorB (x p) (y p))
      (fun _ => Vec.replicate n 1) else P.xorB (x p) (y p)) (propagateBits P a b carryIn) := by
    cases carryIn with
    | false => exact hxor
    | true => exact xor_every_share hxor (Vec.replicate n 1)
  refine (prefixLoop_ensures (fun _ => rfl) (logMaxBitsNumber w) 0 hgen hprop
    fun k => covers_carryInto _ _).bind fun z hz => ?_
  obtain ⟨g', p', hg', -, hcov⟩ := hz
  have hspan : w ≤ 2 ^ (0 + logMaxBitsNumber w) := by
    have hsize := Nat.lt_size_self (w - 1)
    rw [Nat.zero_add, logMaxBitsNumber]
    omega
  rw [← propagate_xor_carries hw a b g' carryIn fun k j hj => ?_]
  · exact Computes.pure (xorB_opens hprop (bitLeftShift_opens hg' 1))
  · rw [← (hcov k).generate rfl (by omega)]
    exact carryInto_eq_carry hw a b carryIn k j

end ParallelPrefix

end Protocol

end CryptDough
