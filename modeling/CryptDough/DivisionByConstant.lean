import CryptDough.Comparison
import CryptDough.ConversionProtocols
import CryptDough.LogicalNot
import Mathlib.Tactic.Linarith

/-! Division of an arithmetic sharing by a public constant: two sides divide their summands of the
secret, and a sign test of the remainders decides whether one is added. It can only add one. -/

namespace CryptDough

open Process Sharing Communicator

variable {w n : ℕ}

namespace Vec

/-- Quotient and remainder of one side; a negative value passes one divisor on to the remainder. -/
def divSide (x : Vec w n) (c : BitVec w) : Vec w n × Vec w n :=
  (fun i => (x i).sdiv c - ltz x i, fun i => (x i).srem c + ltz x i * c)

end Vec

section Integers

variable {x y c : ℤ}

/-- Quotient and remainder of a side as integers. -/
def sideQuotient (x c : ℤ) : ℤ := x.tdiv c - if x < 0 then 1 else 0

def sideRemainder (x c : ℤ) : ℤ := x.tmod c + if x < 0 then c else 0

theorem side_eq (x c : ℤ) : c * sideQuotient x c + sideRemainder x c = x := by
  have hdiv := Int.mul_tdiv_add_tmod x c
  rw [sideQuotient, sideRemainder]
  split <;> linarith

/-- A remainder is the divisor where a negative value is divisible. -/
theorem sideRemainder_bounds (hc : 0 < c) :
    0 ≤ sideRemainder x c ∧ sideRemainder x c ≤ c ∧
      (sideRemainder x c = c ↔ x < 0 ∧ c ∣ x) := by
  have hlt := Int.tmod_lt_of_pos x hc
  have hgt : -c < x.tmod c := by
    have hneg := Int.tmod_lt_of_pos (-x) hc
    rw [Int.neg_tmod] at hneg
    omega
  have hdvd : c ∣ x ↔ x.tmod c = 0 := Int.dvd_iff_tmod_eq_zero
  rw [sideRemainder, hdvd]
  by_cases hx : x < 0
  · have hle : x.tmod c ≤ 0 := by
      have hnonneg := Int.tmod_nonneg c (neg_nonneg.mpr hx.le)
      rw [Int.neg_tmod] at hnonneg
      omega
    rw [if_pos hx]
    omega
  · have hnonneg := Int.tmod_nonneg c (not_lt.mp hx)
    rw [if_neg hx]
    omega

/-- The sum of the quotients, and one if the remainders make up a divisor. -/
def correctedQuotient (x y c : ℤ) : ℤ :=
  sideQuotient x c + sideQuotient y c +
    if sideRemainder x c + sideRemainder y c - c < 0 then 0 else 1

/-- A side that passes on a whole divisor. -/
def NegativeMultiple (x c : ℤ) : Prop := x < 0 ∧ c ∣ x

instance (x c : ℤ) : Decidable (NegativeMultiple x c) := inferInstanceAs (Decidable (_ ∧ _))

/-- Two whole divisors are one more than the correction makes up for. -/
theorem correctedQuotient_eq (hc : 0 < c) :
    correctedQuotient x y c =
      (x + y).fdiv c - if NegativeMultiple x c ∧ NegativeMultiple y c then 1 else 0 := by
  obtain ⟨hx, hx', hxc⟩ := sideRemainder_bounds (x := x) hc
  obtain ⟨hy, hy', hyc⟩ := sideRemainder_bounds (x := y) hc
  have hsum : x + y = (sideRemainder x c + sideRemainder y c) +
      (sideQuotient x c + sideQuotient y c) * c := by
    linarith [side_eq x c, side_eq y c]
  rw [Int.fdiv_eq_ediv_of_nonneg _ hc.le, hsum, Int.add_mul_ediv_right _ _ hc.ne', correctedQuotient]
  simp only [NegativeMultiple, ← hxc, ← hyc]
  generalize sideRemainder x c = ex at *
  generalize sideRemainder y c = ey at *
  have hdivided : (ex + ey) / c = (ex + ey - c) / c + 1 := by
    rw [← Int.add_mul_ediv_right _ _ hc.ne', one_mul, sub_add_cancel]
  by_cases hneg : ex + ey - c < 0
  · have hquot : (ex + ey) / c = 0 := Int.ediv_eq_zero_of_lt (by omega) (by omega)
    have hnot : ¬ (ex = c ∧ ey = c) := by omega
    rw [if_pos hneg, if_neg hnot, hquot]
    omega
  · rw [if_neg hneg, hdivided]
    by_cases hfull : ex = c ∧ ey = c
    · have hquot : (ex + ey - c) / c = 1 := by
        rw [hfull.1, hfull.2, add_sub_cancel_right, Int.ediv_self hc.ne']
      rw [if_pos hfull, hquot]
      omega
    · have hquot : (ex + ey - c) / c = 0 := Int.ediv_eq_zero_of_lt (by omega) (by omega)
      rw [if_neg hfull, hquot]
      omega

end Integers

namespace Vec

theorem ofInt_sub (a b : ℤ) : BitVec.ofInt w (a - b) = BitVec.ofInt w a - BitVec.ofInt w b := by
  rw [sub_eq_add_neg, BitVec.ofInt_add, BitVec.ofInt_neg, BitVec.sub_eq_add_neg]

theorem ltz_eq_ofInt (x : Vec w n) (i : Fin n) :
    ltz x i = BitVec.ofInt w (if (x i).toInt < 0 then 1 else 0) := by
  rw [ltz]
  split
  · exact (BitVec.ofInt_ofNat ..).symm
  · exact (BitVec.ofInt_ofNat ..).symm

theorem divSide_eq_ofInt (x : Vec w n) (c : BitVec w) (i : Fin n) :
    (divSide x c).1 i = BitVec.ofInt w (sideQuotient (x i).toInt c.toInt) ∧
      (divSide x c).2 i = BitVec.ofInt w (sideRemainder (x i).toInt c.toInt) := by
  have hdiv : (x i).sdiv c = BitVec.ofInt w ((x i).toInt.tdiv c.toInt) := by
    apply BitVec.eq_of_toInt_eq
    rw [BitVec.toInt_sdiv, BitVec.toInt_ofInt]
  have hrem : (x i).srem c = BitVec.ofInt w ((x i).toInt.tmod c.toInt) := by
    rw [← BitVec.toInt_srem, BitVec.ofInt_toInt]
  constructor
  · rw [sideQuotient, ofInt_sub, ← hdiv, ← ltz_eq_ofInt]
    rfl
  · rw [sideRemainder, BitVec.ofInt_add, ← hrem]
    show (x i).srem c + ltz x i * c = _
    rw [ltz]
    split
    · rw [BitVec.ofInt_toInt, one_mul]
    · rw [zero_mul]
      exact congrArg _ (BitVec.ofInt_ofNat ..).symm

theorem width_pos {c : BitVec w} (hc : 0 < c.toInt) : 0 < w := by
  by_contra hzero
  obtain rfl : w = 0 := by omega
  rw [BitVec.toInt_of_zero_length rfl] at hc
  omega

/-- Two remainders less one divisor do not overflow. -/
theorem toInt_remainders {c : BitVec w} (hc : 0 < c.toInt) (x y : ℤ) :
    (BitVec.ofInt w (sideRemainder x c.toInt) + BitVec.ofInt w (sideRemainder y c.toInt) - c).toInt =
      sideRemainder x c.toInt + sideRemainder y c.toInt - c.toInt := by
  have hx := sideRemainder_bounds (x := x) hc
  have hy := sideRemainder_bounds (x := y) hc
  have hmax := BitVec.two_mul_toInt_lt (x := c)
  have hsum : BitVec.ofInt w (sideRemainder x c.toInt) + BitVec.ofInt w (sideRemainder y c.toInt) - c =
      BitVec.ofInt w (sideRemainder x c.toInt + sideRemainder y c.toInt - c.toInt) := by
    rw [ofInt_sub, BitVec.ofInt_add, BitVec.ofInt_toInt]
  rw [hsum, BitVec.toInt_ofInt, Int.bmod_eq_of_le_mul_two]
  · push_cast
    omega
  · push_cast
    omega

end Vec

namespace Beaver2PC

/-- The second party takes one divisor off its remainder. -/
def divConstA (partyID : Fin 2) (x : EVec scheme w n) (c : BitVec w) :
    EVec scheme w n × EVec scheme w n :=
  let (res, err) := Vec.divSide (x 0) c
  if partyID = 0 then (fun _ => res, fun _ => err)
  else (fun _ => res, fun _ => err - Vec.replicate n c)

theorem divConstA_opens (x : scheme.Shares (Vec w n)) (c : BitVec w) :
    OpensA (fun p => (divConstA p (x p) c).1)
        ((Vec.divSide (x 0 0) c).1 + (Vec.divSide (x 1 0) c).1) ∧
      OpensA (fun p => (divConstA p (x p) c).2)
        ((Vec.divSide (x 0 0) c).2 + (Vec.divSide (x 1 0) c).2 - Vec.replicate n c) :=
  ⟨opens_iff.mpr rfl, opens_iff.mpr (add_sub_assoc _ _ _).symm⟩

end Beaver2PC

namespace Replicated3PC

/-- The first party divides the sum of its parts and masks both results with what it draws in common
with the second, the third party divides its first part. -/
def divParts (partyID : Fin 3) (x : EVec scheme w n) (c : BitVec w) :
    Program w (Vec w n × Vec w n) :=
  match partyID with
  | 0 => do
      let (res, err) := Vec.divSide (x 0 + x 1) c
      let r ← getNext (.common 1) n
      let r' ← getNext (.common 1) n
      pure (res - r, err - r')
  | 1 => do
      let res ← getNext (.common (-1)) n
      let err ← getNext (.common (-1)) n
      pure (res, err)
  | 2 =>
      let (res, err) := Vec.divSide (x 0) c
      pure (res, err - Vec.replicate n c)

def divConstA (partyID : Fin 3) (x : EVec scheme w n) (c : BitVec w) :
    Program w (EVec scheme w n × EVec scheme w n) := do
  let (res, err) ← divParts partyID x c
  let res1 ← exchangeShares partyID res 2 1
  let err1 ← exchangeShares partyID err 2 1
  pure (![res, res1], ![err, err1])

/-- The parts of the quotient and of the remainder. -/
def dividedParts (x : scheme.Shares (Vec w n)) (c : BitVec w)
    (tape : Fin 3 → Source → ℕ → BitVec w) : Fin 3 → Vec w n × Vec w n :=
  let mask : Vec w n := fun i => tape 0 (.common 1) i
  let mask' : Vec w n := fun i => tape 0 (.common 1) (n + i)
  let first := Vec.divSide (x 0 0 + x 0 1) c
  let last := Vec.divSide (x 2 0) c
  ![(first.1 - mask, first.2 - mask'), (mask, mask'), (last.1, last.2 - Vec.replicate n c)]

/-- The first party and the second have made two draws. -/
def divTape (n : ℕ) (tape : Fin 3 → Source → ℕ → BitVec w) : Fin 3 → Source → ℕ → BitVec w := fun p =>
  match p with
  | 0 => advance (advance (tape 0) (.common 1) n) (.common 1) n
  | 1 => advance (advance (tape 1) (.common (-1)) n) (.common (-1)) n
  | 2 => tape 2

theorem Correlated.divTape {tape : Fin 3 → Source → ℕ → BitVec w} (hcorr : Correlated tape) (n : ℕ) :
    Correlated (divTape n tape) where
  zeroArithmetic := fun i => by
    simpa [Replicated3PC.divTape, advance_apply] using hcorr.zeroArithmetic i
  zeroBinary := fun i => by
    simpa [Replicated3PC.divTape, advance_apply] using hcorr.zeroBinary i
  commonAll := fun p q i => by
    have hall : ∀ p, Replicated3PC.divTape n tape p .commonAll i = tape p .commonAll i := by
      intro p
      fin_cases p <;> simp [Replicated3PC.divTape, advance_apply]
    rw [hall p, hall q]
    exact hcorr.commonAll p q i
  common := fun p i => by
    fin_cases p
    · simpa [Replicated3PC.divTape, advance_apply] using hcorr.common 0 (n + (n + i))
    · simpa [Replicated3PC.divTape, advance_apply, neg_one_ne_one, Ne.symm neg_one_ne_one]
        using hcorr.common 1 i
    · simpa [Replicated3PC.divTape, advance_apply, neg_one_ne_one, Ne.symm neg_one_ne_one]
        using hcorr.common 2 i

theorem runs_divParts (x : scheme.Shares (Vec w n)) (c : BitVec w)
    {tape : Fin 3 → Source → ℕ → BitVec w} (hcorr : Correlated tape) :
    Runs (fun p => divParts p (x p) c) tape (dividedParts x c tape) (divTape n tape) := by
  have hnext : tape 1 (.common (-1)) = tape 0 (.common 1) :=
    funext fun i => (hcorr.common 0 i).symm
  apply Runs.settle
  convert Runs.pure (dividedParts x c tape) (divTape n tape) using 1
  · ext p
    fin_cases p
    · rfl
    · simp only [dividedParts, ← hnext]
      rfl
    · rfl
  · ext p
    fin_cases p <;> rfl

theorem computes_divConstA {x : scheme.Shares (Vec w n)} (c : BitVec w) :
    Computes Correlated (fun p => divConstA p (x p) c) fun z =>
      OpensA (fun p => (z p).1 : scheme.Shares (Vec w n))
          ((Vec.divSide (x 0 0 + x 0 1) c).1 + (Vec.divSide (x 2 0) c).1) ∧
        OpensA (fun p => (z p).2 : scheme.Shares (Vec w n))
          ((Vec.divSide (x 0 0 + x 0 1) c).2 + (Vec.divSide (x 2 0) c).2 - Vec.replicate n c) := by
  refine Computes.of_runs fun tape hcorr => ⟨fun p =>
    (Scheme.deal (fun p => (dividedParts x c tape p).1) p,
      Scheme.deal (fun p => (dividedParts x c tape p).2) p), _, ?_, hcorr.divTape n, ?_, ?_⟩
  · rw [deal_eq, deal_eq]
    apply (runs_divParts x c hcorr).bind
    apply (runs_exchangeShares (fun p => (dividedParts x c tape p).1) 2 1 rfl _).bind
    exact (runs_exchangeShares (fun p => (dividedParts x c tape p).2) 2 1 rfl _).bind
      (Runs.pure _ _)
  · refine ⟨⟨fun p => (dividedParts x c tape p).1, rfl⟩, (reconstruct_deal (· + ·) _).trans ?_⟩
    simp only [combine_three, dividedParts, Matrix.cons_val, sub_add_cancel]
  · refine ⟨⟨fun p => (dividedParts x c tape p).2, rfl⟩, (reconstruct_deal (· + ·) _).trans ?_⟩
    simp only [combine_three, dividedParts, Matrix.cons_val, sub_add_cancel, add_sub_assoc]

end Replicated3PC

namespace Fantastic4PC

/-- Each pair divides the sum of the parts it has in common and shares both results. -/
def divConstA (partyID : Fin 4) (x : EVec scheme w n) (c : BitVec w) :
    Program w (EVec scheme w n × EVec scheme w n) := do
  let sum := if partyID = 3 ∨ partyID = 1 then x 0 + x 1 else x 1 + x 2
  let (res_, err_) := Vec.divSide sum c
  let err_ := if partyID = 3 ∨ partyID = 2 then err_ - Vec.replicate n c else err_
  let err1 ← inpA partyID err_ 3 2
  let err2 ← inpA partyID err_ 1 0
  let res1 ← inpA partyID res_ 3 2
  let res2 ← inpA partyID res_ 1 0
  pure (fun r => res1 r + res2 r, fun r => err1 r + err2 r)

theorem computes_divConstA {x : scheme.Shares (Vec w n)} (hx : Scheme.Consistent x) (c : BitVec w) :
    Computes Correlated (fun p => divConstA p (x p) c) fun z =>
      OpensA (fun p => (z p).1 : scheme.Shares (Vec w n))
          ((Vec.divSide (x 3 0 + x 3 1) c).1 + (Vec.divSide (x 1 0 + x 1 1) c).1) ∧
        OpensA (fun p => (z p).2 : scheme.Shares (Vec w n))
          ((Vec.divSide (x 3 0 + x 3 1) c).2 + (Vec.divSide (x 1 0 + x 1 1) c).2 -
            Vec.replicate n c) := by
  obtain ⟨x, rfl⟩ := hx
  let first := Vec.divSide (x 0 + x 1) c
  let last := Vec.divSide (x 2 + x 3) c
  simp only [divConstA]
  refine (computes_inpA (first.2 - Vec.replicate n c) (by decide) rfl rfl).bind fun err1 h1 => ?_
  refine (computes_inpA last.2 (by decide) rfl rfl).bind fun err2 h2 => ?_
  refine (computes_inpA first.1 (by decide) rfl rfl).bind fun res1 h3 => ?_
  refine (computes_inpA last.1 (by decide) rfl rfl).bind fun res2 h4 => ?_
  refine Computes.pure ⟨Scheme.Opens.op h3 h4, ?_⟩
  have herr := Scheme.Opens.op h1 h2
  rw [sub_add_eq_add_sub] at herr
  exact herr

end Fantastic4PC

namespace ProtocolName

/-- The two summands of the secret that are divided. -/
def sides : (name : ProtocolName) → (name.converting w).scheme.Shares (Vec w n) →
    Vec w n × Vec w n
  | beaver2PC _, x => (x 0 0, x 1 0)
  | replicated3PC, x => (x 0 0 + x 0 1, x 2 0)
  | fantastic4PC, x => (x 3 0 + x 3 1, x 1 0 + x 1 1)

def divConstA : (name : ProtocolName) → (name.converting w).Party →
    EVec (name.converting w).scheme w n → BitVec w → (name.converting w).Program
      (EVec (name.converting w).scheme w n × EVec (name.converting w).scheme w n)
  | beaver2PC _, p, x, c => pure (Beaver2PC.divConstA p x c)
  | replicated3PC, p, x, c => (Replicated3PC.divConstA p x c).embed Embedding.firstSource
  | fantastic4PC, p, x, c => (Fantastic4PC.divConstA p x c).embed Embedding.firstSource

/-- `ASharedVector::operator/` with `USE_DIVISION_CORRECTION`. -/
def divide (name : ProtocolName) (rcaFaster : Bool) (partyID : (name.converting w).Party)
    (x : EVec (name.converting w).scheme w n) (c : BitVec w) :
    (name.converting w).Program (EVec (name.converting w).scheme w n) := do
  let (res, err) ← name.divConstA partyID x c
  let err ← (name.converter w).a2b rcaFaster partyID err
  let negative := (name.converting w).ltz err
  let correction ← (name.converter w).b2aBit partyID
    ((name.converting w).notB1 partyID negative)
  pure (Converter.addA res correction)

variable {name : ProtocolName} {x : (name.converting w).scheme.Shares (Vec w n)} {c : BitVec w}

theorem divConstA_ensures (hx : Scheme.Consistent x) (c : BitVec w) :
    (name.converting w).Ensures (fun p => name.divConstA p (x p) c) fun z =>
      OpensA (fun p => (z p).1) ((Vec.divSide (name.sides x).1 c).1 + (Vec.divSide (name.sides x).2 c).1) ∧
        OpensA (fun p => (z p).2) ((Vec.divSide (name.sides x).1 c).2 +
          (Vec.divSide (name.sides x).2 c).2 - Vec.replicate n c) := by
  cases name with
  | beaver2PC stacked => exact Computes.pure (Beaver2PC.divConstA_opens x c)
  | replicated3PC =>
      exact (Replicated3PC.computes_divConstA c).embed Embedding.firstSource_respects
  | fantastic4PC =>
      exact (Fantastic4PC.computes_divConstA hx c).embed Embedding.firstSource_respects

/-- Nothing but the lowest bit of a sign is set, also in the shares. -/
theorem flipsLsb_ltz (hw : 0 < w) (name : ProtocolName)
    {x : (name.protocol w).scheme.Shares (Vec w n)} (hx : Scheme.Consistent x) :
    (name.protocol w).FlipsLsb fun p => (name.protocol w).ltz (x p) := by
  apply (flipsLsb_iff hw name (hx.map Vec.ltz)).mpr
  cases name with
  | beaver2PC stacked =>
      intro k
      show Vec.ltz (x 0 0) k = 0 ∨ (Vec.ltz (x 0 0) k).getLsbD 0 = true
      rw [Vec.ltz]
      split
      · right
        simp [hw]
      · left
        rfl
  | replicated3PC => trivial
  | fantastic4PC => trivial

theorem notB1_ltz_opens (hw : 0 < w) {a : Vec w n} (hx : OpensB x a) :
    ∃ v, OpensB (fun p => (name.converting w).notB1 p ((name.converting w).ltz (x p))) v ∧
      Vec.mask v 1 = fun k => if (a k).toInt < 0 then 0 else 1 := by
  have hflips : (name.converting w).FlipsLsb fun p => (name.converting w).ltz (x p) := by
    cases name with
    | beaver2PC stacked => exact flipsLsb_ltz hw (.beaver2PC stacked) hx.1
    | replicated3PC => exact flipsLsb_ltz hw .replicated3PC hx.1
    | fantastic4PC => exact flipsLsb_ltz hw .fantastic4PC hx.1
  have hvalue : reconstructFromB (fun p => (name.converting w).ltz (x p)) = Vec.ltz a :=
    (Protocol.ltz_opens hx).2
  let v := reconstructFromB fun p => (name.converting w).notB1 p ((name.converting w).ltz (x p))
  have hbit : ∀ k, lsb v k = !lsb (Vec.ltz a) k := by
    rw [← hvalue]
    exact hflips.2
  refine ⟨v, ⟨hflips.1, rfl⟩, funext fun k => ?_⟩
  have hmask : Vec.mask v 1 k = if lsb v k then 1 else 0 := Vec.mask_one_eq _
  rw [hmask, hbit k, lsb, Vec.ltz]
  by_cases hneg : (a k).toInt < 0
  · simp [hneg, hw]
  · simp [hneg]

theorem divide_ensures (hc : 0 < c.toInt) (hx : Scheme.Consistent x) (rcaFaster : Bool) :
    (name.converting w).Ensures (fun p => name.divide rcaFaster p (x p) c) fun z => OpensA z fun k =>
      BitVec.ofInt w (correctedQuotient ((name.sides x).1 k).toInt ((name.sides x).2 k).toInt
        c.toInt) := by
  have hw := Vec.width_pos hc
  refine (divConstA_ensures hx c).bind fun z hz => ?_
  obtain ⟨hres, herr⟩ := hz
  refine (Converter.a2b_computes hw herr).bind fun e he => ?_
  obtain ⟨v, hv, hmask⟩ := notB1_ltz_opens hw he
  refine ((name.converter w).b2aBit_computes hv).bind fun r hr => Computes.pure ?_
  convert Converter.addA_opens hres hr using 1
  rw [hmask]
  funext k
  show BitVec.ofInt w _ = (Vec.divSide (name.sides x).1 c).1 k + (Vec.divSide (name.sides x).2 c).1 k +
    if ((Vec.divSide (name.sides x).1 c).2 k + (Vec.divSide (name.sides x).2 c).2 k - c).toInt < 0
      then 0 else 1
  rw [(Vec.divSide_eq_ofInt _ c k).1, (Vec.divSide_eq_ofInt _ c k).1,
    (Vec.divSide_eq_ofInt _ c k).2, (Vec.divSide_eq_ofInt _ c k).2, Vec.toInt_remainders hc,
    correctedQuotient, BitVec.ofInt_add, BitVec.ofInt_add]
  congr 1
  split
  · exact BitVec.ofInt_ofNat ..
  · exact BitVec.ofInt_ofNat ..

end ProtocolName

theorem ofInt_sub_one_ne (hw : 0 < w) (q : ℤ) : BitVec.ofInt w (q - 1) ≠ BitVec.ofInt w q := by
  intro heq
  rw [Vec.ofInt_sub, BitVec.ofInt_ofNat (w := w) (n := 1), sub_eq_self] at heq
  have hbit := congrArg (fun b => b.getLsbD 0) heq
  simp [hw] at hbit

/-- The floor of the quotient of two summands. -/
def floorQuotient (sides : Vec w n × Vec w n) (c : BitVec w) : Vec w n := fun k =>
  BitVec.ofInt w (((sides.1 k).toInt + (sides.2 k).toInt).fdiv c.toInt)

/-- Division rounds down exactly where not both summands are negative multiples of the divisor. -/
theorem divide_iff (name : ProtocolName) (rcaFaster : Bool) {c : BitVec w} (hc : 0 < c.toInt)
    {x : (name.converting w).scheme.Shares (Vec w n)} (hx : Scheme.Consistent x) :
    (name.converting w).Ensures (fun p => name.divide rcaFaster p (x p) c)
        (fun z => OpensA z (floorQuotient (name.sides x) c)) ↔
      ∀ k, ¬ (NegativeMultiple ((name.sides x).1 k).toInt c.toInt ∧
        NegativeMultiple ((name.sides x).2 k).toInt c.toInt) := by
  have hw := Vec.width_pos hc
  have hdivide := ProtocolName.divide_ensures hc hx rcaFaster
  constructor
  · intro hfloor k hboth
    obtain ⟨z, hz, hz'⟩ := (Computes.and hdivide hfloor).exists_value
      (name.converting w).correlated_zero
    have heq := congrFun (hz.unique hz') k
    simp only [floorQuotient, correctedQuotient_eq hc, if_pos hboth] at heq
    exact ofInt_sub_one_ne hw _ heq
  · intro hnot
    convert hdivide using 3
    ext k
    rw [correctedQuotient_eq hc, if_neg (hnot k), sub_zero]
    rfl

/-- Shares of one byte. -/
def byteSummands (x y : BitVec 8) : Beaver2PC.scheme.Shares (Vec 8 1) := fun p _ =>
  if p = 0 then ![x] else ![y]

theorem byteSummands_consistent (x y : BitVec 8) : Scheme.Consistent (byteSummands x y) :=
  (Beaver2PC.opens_iff.mpr rfl : OpensA (byteSummands x y) _).1

theorem divide_iff_seven :
    (beaver2PCConverting false 8).Ensures
        (fun p => (ProtocolName.beaver2PC false).divide false p (byteSummands 10 (-3) p) 3)
        (fun z => OpensA z (floorQuotient (![10], ![-3]) 3)) ↔
      ∀ k, ¬ (NegativeMultiple ((![10] : Vec 8 1) k).toInt (3 : BitVec 8).toInt ∧
        NegativeMultiple ((![-3] : Vec 8 1) k).toInt (3 : BitVec 8).toInt) :=
  divide_iff (.beaver2PC false) false (by decide) (byteSummands_consistent 10 (-3))

/-- Nothing overflows, but minus six divided by three opens to minus three. -/
theorem divide_minus_six :
    (0 < (3 : BitVec 8).toInt ∧ 2 * (3 : BitVec 8).toInt < 2 ^ 7 ∧
      -2 ^ 7 ≤ (-3 : BitVec 8).toInt + (-3 : BitVec 8).toInt) ∧
    (beaver2PCConverting false 8).Ensures
      (fun p => (ProtocolName.beaver2PC false).divide false p (byteSummands (-3) (-3) p) 3)
      (fun z => OpensA z ![-3]) ∧
    ¬ (beaver2PCConverting false 8).Ensures
      (fun p => (ProtocolName.beaver2PC false).divide false p (byteSummands (-3) (-3) p) 3)
      fun z => OpensA z (floorQuotient (![-3], ![-3]) 3) := by
  have hdivide := @ProtocolName.divide_ensures 8 1 (.beaver2PC false) _ 3 (by decide)
    (byteSummands_consistent (-3) (-3)) false
  have hopens : (beaver2PCConverting false 8).Ensures
      (fun p => (ProtocolName.beaver2PC false).divide false p (byteSummands (-3) (-3) p) 3)
      (fun z => OpensA z ![-3]) := by
    convert hdivide using 3
    decide
  refine ⟨by decide, hopens, fun hfloor => ?_⟩
  obtain ⟨z, hz, hz'⟩ := (Computes.and hopens hfloor).exists_value
    (beaver2PCConverting false 8).correlated_zero
  exact absurd (hz.unique hz') (by decide)

end CryptDough
