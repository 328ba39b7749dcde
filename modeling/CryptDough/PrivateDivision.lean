import CryptDough.DivisionByConstant
import CryptDough.RowComparison

/-! Division of boolean shares by non-restoring long division, in twice the width. -/

namespace CryptDough

open Process Sharing

/-! The remainder stays between the negated divisor and the divisor, both shifted to the upper half. The
digits of the quotient are one and minus one, kept as the bits one and zero. -/

namespace Opened

variable {w : ℕ}

/-- `!r.ltz()` -/
def nonnegB (r : BitVec w) : BitVec w := bit !decide (r.toInt < 0)

/-- The round for bit `i`, of the remainder and the quotient. -/
def divRound (d negD : BitVec w) (i : ℕ) (s : BitVec w × BitVec w) : BitVec w × BitVec w :=
  ((s.1 <<< 1) + multiplexB (nonnegB s.1) d negD, s.2 ^^^ (nonnegB s.1 <<< i))

def divRounds (d negD : BitVec w) : (rounds : ℕ) → BitVec w × BitVec w → BitVec w × BitVec w
  | 0, s => s
  | i + 1, s => divRounds d negD i (divRound d negD i s)

def signBit (r : BitVec w) : BitVec w := bit (decide (r.toInt < 0))

/-- `q - (~q + ltz(r))` -/
def correctParity (s : BitVec w × BitVec w) : BitVec w := s.2 - (~~~ s.2 + signBit s.1)

def divB (x d : BitVec w) : BitVec w :=
  let shifted := d.signExtend (2 * w) <<< w
  (correctParity (divRounds shifted (-shifted) w (x.signExtend (2 * w), 0))).setWidth w

/-- After the rounds for the bits from `i` on. -/
structure DivInvariant (x D : ℤ) (done i : ℕ) (s : BitVec w × BitVec w) (R : ℤ) (Q : ℕ) : Prop where
  remainder : s.1 = BitVec.ofInt w R
  quotient : s.2 = BitVec.ofNat w Q <<< i
  lower : -D ≤ R
  upper : R < D
  divided : R = 2 ^ done * x - D * (2 * Q + 1 - 2 ^ done)

theorem shiftLeft_ofInt (R : ℤ) (k : ℕ) : BitVec.ofInt w R <<< k = BitVec.ofInt w (2 ^ k * R) := by
  have hpow : BitVec.twoPow w k = BitVec.ofInt w (2 ^ k) := by
    have hcast : (2 : ℤ) ^ k = (2 ^ k : ℕ) := by push_cast; rfl
    rw [hcast, BitVec.ofInt_natCast]
    exact BitVec.eq_of_toNat_eq (by rw [BitVec.toNat_twoPow, BitVec.toNat_ofNat])
  rw [BitVec.shiftLeft_eq_mul_twoPow, hpow, ← BitVec.ofInt_mul, Int.mul_comm]

theorem ofInt_add_two_pow (z : ℤ) : BitVec.ofInt w (z + 2 ^ w) = BitVec.ofInt w z := by
  apply BitVec.eq_of_toInt_eq
  have hcast : (2 : ℤ) ^ w = (2 ^ w : ℕ) := by push_cast; rfl
  rw [BitVec.toInt_ofInt, BitVec.toInt_ofInt, hcast]
  exact Int.add_bmod_right z (2 ^ w)

/-- The bit fills the place the shift has made for it. -/
theorem append_digit (Q i : ℕ) (digit : Bool) :
    (BitVec.ofNat w Q <<< (i + 1)) ^^^ (bit digit <<< i) = BitVec.ofNat w (2 * Q + digit.toNat) <<< i := by
  have hdigit : (BitVec.ofNat w Q <<< 1) ^^^ bit digit = BitVec.ofNat w (2 * Q + digit.toNat) := by
    apply BitVec.eq_of_getLsbD_eq
    intro j hj
    have hbit : (bit digit : BitVec w).getLsbD j = (digit && decide (j = 0)) := by
      cases digit <;> simp [bit, hj]
    rw [BitVec.getLsbD_xor, BitVec.getLsbD_shiftLeft, BitVec.getLsbD_ofNat, BitVec.getLsbD_ofNat, hbit]
    cases j with
    | zero =>
        rw [Nat.testBit_zero]
        cases digit <;> simp [hj]
    | succ j =>
        have hhalf : (2 * Q + digit.toNat) / 2 = Q := by cases digit <;> (simp; try omega)
        rw [Nat.testBit_succ, hhalf]
        simp [hj, Nat.lt_of_succ_lt hj]
  rw [← hdigit, BitVec.shiftLeft_xor_distrib, ← BitVec.shiftLeft_add, Nat.add_comm 1 i]

theorem toInt_remainder {R D : ℤ} (hw : 0 < w) (hlower : -D ≤ R) (hupper : R < D)
    (hD : D ≤ 2 ^ (w - 1)) : (BitVec.ofInt w R).toInt = R :=
  BitVec.toInt_ofInt_eq_self hw (by omega) (by omega)

theorem divRound_invariant (hw : 0 < w) {x D R : ℤ} {done i Q : ℕ} {s : BitVec w × BitVec w}
    (hD : D ≤ 2 ^ (w - 1)) (hs : DivInvariant x D done (i + 1) s R Q) :
    ∃ R' Q', DivInvariant x D (done + 1) i (divRound (BitVec.ofInt w D) (-BitVec.ofInt w D) i s) R' Q' := by
  have hR := toInt_remainder hw hs.lower hs.upper hD
  have hlower := hs.lower
  have hupper := hs.upper
  have hdigit := append_digit (w := w) Q i (!decide (R < 0))
  have hfst : (divRound (BitVec.ofInt w D) (-BitVec.ofInt w D) i s).1 =
      BitVec.ofInt w (2 * R) + if !decide (R < 0) then -BitVec.ofInt w D else BitVec.ofInt w D := by
    rw [divRound, nonnegB, multiplexB_bit hw, hs.remainder, hR, shiftLeft_ofInt, pow_one]
  have hsnd : (divRound (BitVec.ofInt w D) (-BitVec.ofInt w D) i s).2 =
      BitVec.ofNat w (2 * Q + (!decide (R < 0)).toNat) <<< i := by
    rw [← hdigit, divRound, nonnegB, hs.remainder, hR, hs.quotient]
  by_cases hneg : R < 0
  · rw [decide_eq_true hneg] at hfst hsnd
    refine ⟨2 * R + D, 2 * Q, ?_, hsnd, by omega, by omega, ?_⟩
    · rw [hfst, BitVec.ofInt_add]
      rfl
    · rw [hs.divided, pow_succ]
      push_cast
      ring
  · rw [decide_eq_false hneg] at hfst hsnd
    refine ⟨2 * R + -D, 2 * Q + 1, ?_, hsnd, by omega, by omega, ?_⟩
    · rw [hfst, BitVec.ofInt_add, BitVec.ofInt_neg]
      rfl
    · rw [hs.divided, pow_succ]
      push_cast
      ring

theorem divRounds_invariant (hw : 0 < w) {x D R : ℤ} {done i Q : ℕ} {s : BitVec w × BitVec w}
    (hD : D ≤ 2 ^ (w - 1)) (hs : DivInvariant x D done i s R Q) :
    ∃ R' Q', DivInvariant x D (done + i) 0 (divRounds (BitVec.ofInt w D) (-BitVec.ofInt w D) i s) R' Q' := by
  induction i generalizing done s R Q with
  | zero => exact ⟨R, Q, hs⟩
  | succ i ih =>
      obtain ⟨R', Q', hround⟩ := divRound_invariant hw hD hs
      have hrest := ih hround
      rwa [Nat.add_right_comm] at hrest

theorem setWidth_ofInt {v : ℕ} (hv : w ≤ v) (z : ℤ) :
    (BitVec.ofInt v z).setWidth w = BitVec.ofInt w z := by
  rw [← BitVec.signExtend_eq_setWidth_of_le _ hv, BitVec.signExtend, BitVec.toInt_ofInt]
  apply BitVec.eq_of_toInt_eq
  rw [BitVec.toInt_ofInt, BitVec.toInt_ofInt]
  exact Int.bmod_bmod_of_dvd (Nat.pow_dvd_pow 2 hv)

theorem ltz_eq_signBit {n : ℕ} (v : Vec w n) : Vec.ltz v = fun k => signBit (v k) := by
  ext k
  rw [Vec.ltz, signBit, bit]
  by_cases hneg : (v k).toInt < 0
  · simp [hneg]
  · simp [hneg]

/-- Twice the digits and one, less the one of a negative remainder. -/
theorem correctParity_eq {s : BitVec w × BitVec w} {Q : ℕ} (hq : s.2 = BitVec.ofNat w Q) :
    correctParity s = BitVec.ofInt w (2 * Q + 1 - if s.1.toInt < 0 then 1 else 0) := by
  obtain ⟨r, q⟩ := s
  have hsign : signBit r = BitVec.ofInt w (if r.toInt < 0 then 1 else 0) := by
    rw [signBit, bit]
    by_cases hneg : r.toInt < 0
    · simp [hneg]
    · simp [hneg]
  have hvalue : q = BitVec.ofInt w Q := by
    exact hq.trans (BitVec.ofInt_natCast w Q).symm
  have hone : BitVec.ofInt w 1 = 1 := BitVec.ofInt_ofNat ..
  rw [correctParity, BitVec.not_eq_neg_add, hsign, hvalue, Vec.ofInt_sub, BitVec.ofInt_add, two_mul,
    BitVec.ofInt_add]
  generalize BitVec.ofInt w Q = a
  generalize BitVec.ofInt w (if r.toInt < 0 then 1 else 0) = b
  rw [hone]
  change a - (-a - 1 + b) = a + a + 1 - b
  ring

/-- The digits and the sign of the remainder make up the quotient rounded down. -/
theorem divB_eq (hw : 0 < w) (x d : BitVec w) (hd : 0 < d.toInt) :
    divB x d = BitVec.ofInt w (x.toInt.fdiv d.toInt) := by
  have hpos : (0 : ℤ) < 2 ^ w := by positivity
  have hhalf : (2 : ℤ) ^ w = 2 * 2 ^ (w - 1) := by rw [← pow_succ', Nat.sub_add_cancel hw]
  have hxlower := BitVec.le_toInt x
  have hxupper := BitVec.toInt_lt (x := x)
  have hdupper := BitVec.toInt_lt (x := d)
  have hdpow : (2 : ℤ) ^ w ≤ 2 ^ w * d.toInt := le_mul_of_one_le_right hpos.le (by omega)
  have hD : 2 ^ w * d.toInt ≤ 2 ^ (2 * w - 1) := by
    rw [(by omega : 2 * w - 1 = w + (w - 1)), pow_add]
    exact mul_le_mul_of_nonneg_left hdupper.le hpos.le
  have hshifted : d.signExtend (2 * w) <<< w = BitVec.ofInt (2 * w) (2 ^ w * d.toInt) :=
    shiftLeft_ofInt _ _
  have hstart : DivInvariant x.toInt (2 ^ w * d.toInt) 0 w (x.signExtend (2 * w), 0) x.toInt 0 := by
    refine ⟨rfl, ?_, by omega, by omega, by simp⟩
    simp
  obtain ⟨R, Q, hend⟩ := divRounds_invariant (by omega) hD hstart
  have hR := toInt_remainder (by omega) hend.lower hend.upper hD
  have hquotient := hend.quotient
  rw [BitVec.shiftLeft_zero] at hquotient
  have hparity := correctParity_eq hquotient
  rw [hend.remainder, hR] at hparity
  let S : ℤ := 2 * Q + 1 - 2 ^ w
  have hdivided : R = 2 ^ w * (x.toInt - d.toInt * S) := by
    rw [hend.divided, Nat.zero_add]
    ring
  have hlower : -d.toInt ≤ x.toInt - d.toInt * S := by
    have hscaled := hend.lower
    rw [hdivided, ← mul_neg] at hscaled
    exact le_of_mul_le_mul_left hscaled hpos
  have hupper : x.toInt - d.toInt * S < d.toInt := by
    have hscaled := hend.upper
    rw [hdivided] at hscaled
    exact lt_of_mul_lt_mul_left hscaled hpos.le
  have hsign : R < 0 ↔ x.toInt - d.toInt * S < 0 := by
    rw [hdivided]
    refine ⟨fun hneg => ?_, mul_neg_of_pos_of_neg hpos⟩
    exact not_le.mp fun hnonneg => absurd hneg (mul_nonneg hpos.le hnonneg).not_gt
  have hfloor : x.toInt.fdiv d.toInt = S - if R < 0 then 1 else 0 := by
    rw [Int.fdiv_eq_ediv_of_nonneg _ hd.le]
    by_cases hneg : R < 0
    · rw [if_pos hneg]
      refine ((Int.ediv_emod_unique hd (r := x.toInt - d.toInt * S + d.toInt)).mpr ⟨by ring, ?_, ?_⟩).1
      · omega
      · have hbelow := hsign.mp hneg
        omega
    · rw [if_neg hneg, sub_zero]
      refine ((Int.ediv_emod_unique hd (r := x.toInt - d.toInt * S)).mpr ⟨by ring, ?_, hupper⟩).1
      exact not_lt.mp fun hbelow => hneg (hsign.mpr hbelow)
  have hsum : 2 * (Q : ℤ) + 1 - (if R < 0 then 1 else 0) = x.toInt.fdiv d.toInt + 2 ^ w := by
    rw [hfloor]
    ring
  rw [divB, hshifted]
  apply (congrArg (BitVec.setWidth w) hparity).trans
  rw [setWidth_ofInt (by omega), hsum, ofInt_add_two_pow]

end Opened

namespace Protocol

section Programs

variable {w n : ℕ} (P : Protocol w) (rcaFaster : Bool) (partyID : P.Party)

def multiplexB (sel a b : EVec P.scheme w n) : P.Program (EVec P.scheme w n) := do
  let tmp ← P.andB partyID (P.extendLsb sel) (P.xorB b a)
  pure (P.xorB a tmp)

/-- The rounds of the division for the bits below a number. -/
def divRounds (d negD : EVec P.scheme w n) : (rounds : ℕ) → (r q : EVec P.scheme w n) →
    P.Program (EVec P.scheme w n × EVec P.scheme w n)
  | 0, r, q => pure (r, q)
  | i + 1, r, q => do
      let c := P.notB1 partyID (P.ltz r)
      let q := P.xorB q (P.bitLeftShift c i)
      let addend ← P.multiplexB partyID c d negD
      let r ← P.add rcaFaster partyID (P.bitLeftShift r 1) addend
      divRounds d negD i r q

end Programs

/-- A share of twice the width, with the sign extended, and back. -/
def widen {S : Scheme} {w n : ℕ} (x : EVec S w n) :
    EVec S (2 * w) n := fun r k => (x r k).signExtend (2 * w)

def narrow {S : Scheme} {w n : ℕ} (x : EVec S (2 * w) n) : EVec S w n := fun r k => (x r k).setWidth w

/-- `operator/` of boolean shares. -/
def divB {w n : ℕ} (P : Protocol (2 * w)) (rcaFaster : Bool) (partyID : P.Party)
    (x y : EVec P.scheme w n) : P.Program (EVec P.scheme w n) := do
  let d := P.bitLeftShift (widen y) w
  let negD ← P.neg rcaFaster partyID d
  let (r, q) ← P.divRounds rcaFaster partyID d negD w (widen x) fun _ => 0
  let sum ← P.add rcaFaster partyID (P.notB partyID q) (P.ltz r)
  let q ← P.sub rcaFaster partyID q sum
  pure (narrow q)

/-- The circuits that the division takes over from the protocol: the adder that the times select for `n`
elements, and the logical complement of a sign. -/
structure CircuitsCorrect {w : ℕ} (P : Protocol w) (rcaFaster : Bool) (n : ℕ) : Prop where
  adder : ∀ {x y : P.scheme.Shares (Vec w n)} {a b : Vec w n} (carryIn : Bool), OpensB x a → OpensB y b →
    P.Ensures (fun p => P.binaryAdder rcaFaster p (x p) (y p) carryIn) fun z =>
      OpensB z (addWithCarry a b carryIn)
  notLtz : ∀ {x : P.scheme.Shares (Vec w n)} {a : Vec w n}, OpensB x a →
    OpensB (fun p => P.notB1 p (P.ltz (x p))) fun k => Opened.nonnegB (a k)

section Opening

variable {w n : ℕ} {P : Protocol w} {rcaFaster : Bool} {x y s : P.scheme.Shares (Vec w n)}
  {a b v : Vec w n}

theorem multiplexB_ensures (hs : OpensB s v) (hx : OpensB x a) (hy : OpensB y b) :
    P.Ensures (fun p => P.multiplexB p (s p) (x p) (y p)) fun z =>
      OpensB z fun k => Opened.multiplexB (v k) (a k) (b k) := by
  refine (P.andB_computes (extendLsb_opens hs) (xorB_opens hy hx)).bind fun tmp htmp => ?_
  exact Computes.pure (xorB_opens hx htmp)

theorem CircuitsCorrect.add (hcorrect : P.CircuitsCorrect rcaFaster n) (hx : OpensB x a)
    (hy : OpensB y b) :
    P.Ensures (fun p => P.add rcaFaster p (x p) (y p)) fun z => OpensB z (a + b) := by
  rw [← addWithCarry_false]
  exact hcorrect.adder false hx hy

theorem CircuitsCorrect.sub (hcorrect : P.CircuitsCorrect rcaFaster n) (hx : OpensB x a)
    (hy : OpensB y b) :
    P.Ensures (fun p => P.sub rcaFaster p (x p) (y p)) fun z => OpensB z (a - b) := by
  rw [← addWithCarry_not]
  exact hcorrect.adder true hx (P.notB_opens hy)

theorem CircuitsCorrect.neg (hcorrect : P.CircuitsCorrect rcaFaster n) (hx : OpensB x a) :
    P.Ensures (fun p => P.neg rcaFaster p (x p)) fun z => OpensB z (-a) := by
  rw [← zero_sub]
  exact hcorrect.sub zero_opens hx

theorem divRounds_ensures (hcorrect : P.CircuitsCorrect rcaFaster n)
    {d negD r q : P.scheme.Shares (Vec w n)}
    {dv negDv rv qv : Vec w n} (hd : OpensB d dv) (hnegD : OpensB negD negDv) (rounds : ℕ)
    (hr : OpensB r rv) (hq : OpensB q qv) :
    P.Ensures (fun p => P.divRounds rcaFaster p (d p) (negD p) rounds (r p) (q p)) fun z =>
      OpensB (fun p => (z p).1) (fun k => (Opened.divRounds (dv k) (negDv k) rounds (rv k, qv k)).1) ∧
        OpensB (fun p => (z p).2) fun k => (Opened.divRounds (dv k) (negDv k) rounds (rv k, qv k)).2 := by
  induction rounds generalizing r q rv qv with
  | zero => exact Computes.pure ⟨hr, hq⟩
  | succ i ih =>
      have hc := hcorrect.notLtz hr
      refine (multiplexB_ensures hc hd hnegD).bind fun addend haddend => ?_
      refine (hcorrect.add (bitLeftShift_opens hr 1) haddend).bind fun r' hr' => ?_
      exact ih hr' (xorB_opens hq (bitLeftShift_opens hc i))

theorem widen_opens {S : Scheme} {x : S.Shares (Vec w n)} (hx : OpensB x a) :
    OpensB (fun p => widen (x p)) fun k => (a k).signExtend (2 * w) :=
  hx.map (fun (u : Vec w n) k => (u k).signExtend (2 * w)) fun _ _ => funext fun _ => BitVec.signExtend_xor

theorem narrow_opens {S : Scheme} {x : S.Shares (Vec (2 * w) n)} {a : Vec (2 * w) n} (hx : OpensB x a) :
    OpensB (fun p => narrow (x p)) fun k => (a k).setWidth w :=
  hx.map (fun (u : Vec (2 * w) n) k => (u k).setWidth w) fun _ _ => funext fun _ => BitVec.setWidth_xor

end Opening

/-- The division opens to the quotient rounded down, for every dividend and every positive divisor. -/
theorem divB_ensures {w n : ℕ} (hw : 0 < w) {P : Protocol (2 * w)} {rcaFaster : Bool}
    (hcorrect : P.CircuitsCorrect rcaFaster n) {x y : P.scheme.Shares (Vec w n)} {a b : Vec w n}
    (hx : OpensB x a) (hy : OpensB y b) (hb : ∀ k, 0 < (b k).toInt) :
    P.Ensures (fun p => P.divB rcaFaster p (x p) (y p)) fun z =>
      OpensB z fun k => BitVec.ofInt w ((a k).toInt.fdiv (b k).toInt) := by
  have hd := bitLeftShift_opens (P := P) (widen_opens hy) w
  refine (hcorrect.neg hd).bind fun negD hnegD => ?_
  refine (divRounds_ensures hcorrect hd hnegD w (widen_opens hx) zero_opens).bind fun s hs => ?_
  have hsign := ltz_opens hs.1
  rw [Opened.ltz_eq_signBit] at hsign
  refine (hcorrect.add (P.notB_opens hs.2) hsign).bind fun sum hsum => ?_
  refine (hcorrect.sub hs.2 hsum).bind fun q hq => Computes.pure ?_
  convert narrow_opens hq using 1
  ext k
  rw [← Opened.divB_eq hw _ _ (hb k), Opened.divB, Opened.correctParity]
  rfl

end Protocol

/-! The circuits of the protocols, with the ripple-carry adder. -/

namespace ProtocolName

variable {w n : ℕ}

/-- Every share of the complement of a sign is a bit. -/
theorem maskB_notB1_ltz (name : ProtocolName) (p : (name.protocol w).Party)
    (x : EVec (name.protocol w).scheme w n) :
    (name.protocol w).maskB ((name.protocol w).notB1 p ((name.protocol w).ltz x)) 1 =
      (name.protocol w).notB1 p ((name.protocol w).ltz x) := by
  have hltz : ∀ v : Vec w n, Vec.mask (Vec.ltz v) 1 = Vec.ltz v := by
    intro v
    ext k
    rw [Vec.mask, Vec.ltz]
    split <;> simp
  have hnot : ∀ v : Vec w n, Vec.mask (Vec.logicalNot v) 1 = Vec.logicalNot v := by
    intro v
    ext k
    rw [Vec.mask, Vec.logicalNot_apply]
    split <;> simp
  have hmask : ∀ v : Vec w n, Vec.mask (Vec.mask v 1) 1 = Vec.mask v 1 := by
    intro v
    ext k
    rw [Vec.mask, Vec.mask, BitVec.and_assoc, BitVec.and_self]
  cases name with
  | beaver2PC stacked =>
      change (fun r => Vec.mask (Beaver2PC.notB1 p _ r) 1) = Beaver2PC.notB1 p _
      funext r
      rw [Beaver2PC.notB1]
      split
      · exact hnot _
      · exact hltz _
  | replicated3PC => exact funext fun r => hnot _
  | fantastic4PC =>
      funext r
      change Vec.mask (Fantastic4PC.notB1 p _ r) 1 = Fantastic4PC.notB1 p _ r
      rw [Fantastic4PC.notB1]
      fin_cases r
      · show Vec.mask (if p = 2 then _ else _) 1 = if p = 2 then _ else _
        split
        · exact hnot _
        · exact hmask _
      · show Vec.mask (if p = 1 then _ else _) 1 = if p = 1 then _ else _
        split
        · exact hnot _
        · exact hmask _
      · show Vec.mask (if p = 0 then _ else _) 1 = if p = 0 then _ else _
        split
        · exact hnot _
        · exact hmask _

theorem notLtz_opens (hw : 0 < w) (name : ProtocolName)
    {x : (name.protocol w).scheme.Shares (Vec w n)} {a : Vec w n} (hx : OpensB x a) :
    OpensB (fun p => (name.protocol w).notB1 p ((name.protocol w).ltz (x p))) fun k =>
      Opened.nonnegB (a k) := by
  obtain ⟨hconsistent, hbits⟩ := flipsLsb_ltz hw name hx.1
  have hvalue : reconstructFromB (fun p => (name.protocol w).ltz (x p)) = Vec.ltz a :=
    (Protocol.ltz_opens hx).2
  have hmasked := Protocol.maskB_opens (P := name.protocol w) ⟨hconsistent, rfl⟩ 1
  simp only [maskB_notB1_ltz] at hmasked
  convert hmasked using 1
  funext k
  have hbit := hbits k
  rw [hvalue, Opened.ltz_eq_signBit] at hbit
  refine Eq.trans ?_ (Vec.mask_one_eq _).symm
  change Opened.nonnegB (a k) = if lsb (reconstructFromB fun p =>
    (name.protocol w).notB1 p ((name.protocol w).ltz (x p))) k then 1 else 0
  rw [hbit, lsb, Opened.nonnegB, Opened.signBit]
  by_cases hneg : (a k).toInt < 0
  · simp [hneg, Opened.bit, hw]
  · simp [hneg, Opened.bit]

theorem circuitsCorrect_rca (hw : 0 < w) (name : ProtocolName) (n : ℕ) :
    (name.protocol w).CircuitsCorrect true n where
  adder carryIn hx hy := Protocol.rippleCarryAdder_ensures hw hx hy carryIn
  notLtz hx := name.notLtz_opens hw hx

end ProtocolName

/-- Bytes in two shares: `-128 / 3`. -/
theorem Protocol.divB_ensures_bytes :
    0 < 8 ∧ ((ProtocolName.beaver2PC false).protocol (2 * 8)).CircuitsCorrect true 1 ∧
      ((ProtocolName.beaver2PC false).protocol (2 * 8)).Ensures
        (fun p => ((ProtocolName.beaver2PC false).protocol (2 * 8)).divB true p
          (byteShares 128 p) (byteShares 3 p))
        fun z => OpensB z fun k =>
          BitVec.ofInt 8 ((![(128 : BitVec 8)] k).toInt.fdiv (![(3 : BitVec 8)] k).toInt) :=
  ⟨by decide, ProtocolName.circuitsCorrect_rca (by decide) _ 1,
    Protocol.divB_ensures (by decide) (ProtocolName.circuitsCorrect_rca (by decide) _ 1)
      (byteShares_opens 128) (byteShares_opens 3) (by decide)⟩

end CryptDough
