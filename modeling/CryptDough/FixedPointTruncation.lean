import CryptDough.Custom4PCPrimitives
import CryptDough.DivisionByConstant
import Mathlib.Tactic.IntervalCases

/-! Truncation of fixed-point numbers: two parties shift their shares, three parties shift two summands
and mask one of them anew, and four parties divide two summands by a constant that is computed as an
`int`. -/

namespace CryptDough

open Process Sharing Communicator

variable {w n : ℕ}

/-- The share vectors of a party with the number of their fractional bits. -/
structure FixedEVec (S : Scheme) (w n : ℕ) where
  contents : EVec S w n
  precision : ℕ

/-- `1 << precision`, an `int`, as an element; a shift by 32 or more is undefined. -/
def divisor (w precision : ℕ) : Option (BitVec w) :=
  if precision < 32 then some (((1 : BitVec 32) <<< precision).signExtend w) else none

/-- The default `Protocol::truncate`: the division by a constant without its error. -/
def truncateByDivision {S : Scheme} {M : Type → Type} [Monad M]
    (divConstA : EVec S w n → BitVec w → M (EVec S w n × EVec S w n)) (x : FixedEVec S w n) :
    Option (M (FixedEVec S w n)) :=
  if x.precision = 0 then some (pure x)
  else do
    let divisor ← divisor w x.precision
    pure do
      let ret ← divConstA x.contents divisor
      pure { contents := ret.1, precision := x.precision }

namespace Beaver2PC

def truncate (x : FixedEVec scheme w n) : FixedEVec scheme w n :=
  if x.precision = 0 then x
  else { x with contents := fun r => Vec.bitArithmeticRightShift (x.contents r) x.precision }

end Beaver2PC

namespace Replicated3PC

/-- The parties 0 and 2 shift the first part, the parties 1 and 2 draw the last one, and party 1
computes the second part and sends it to party 0. -/
def truncate (partyID : Fin 3) (x : FixedEVec scheme w n) : Program w (FixedEVec scheme w n) :=
  if x.precision = 0 then pure x
  else match partyID with
    | 0 => do
        let share0 := Vec.bitArithmeticRightShift (x.contents 0) x.precision
        let share1 ← receiveShares 0 1 n
        pure { x with contents := ![share0, share1] }
    | 1 => do
        let r ← getNext (.common 1) n
        let share := Vec.bitArithmeticRightShift (x.contents 0 + x.contents 1) x.precision - r
        sendShares 1 (-1) share
        pure { x with contents := ![share, r] }
    | 2 => do
        let share0 := Vec.bitArithmeticRightShift (x.contents 1) x.precision
        let r ← getNext (.common (-1)) n
        pure { x with contents := ![r, share0] }

end Replicated3PC

namespace Fantastic4PC

/-- `div_const_a` without `USE_DIVISION_CORRECTION`. -/
def divUncorrectedA (partyID : Fin 4) (x : EVec scheme w n) (c : BitVec w) :
    Program w (EVec scheme w n × EVec scheme w n) := do
  let sum := if partyID = 3 ∨ partyID = 1 then x 0 + x 1 else x 1 + x 2
  let res_ : Vec w n := fun i => (sum i).sdiv c
  let res1 ← inpA partyID res_ 3 2
  let res2 ← inpA partyID res_ 1 0
  pure (fun r => res1 r + res2 r, fun _ => 0)

def truncate (correction : Bool) (partyID : Fin 4) (x : FixedEVec scheme w n) :
    Option (Program w (FixedEVec scheme w n)) :=
  truncateByDivision (if correction then divConstA partyID else divUncorrectedA partyID) x

end Fantastic4PC

namespace Custom4PC

variable {D : Type} [DecidableEq D] (generateHash : ∀ {n : ℕ}, Vec w n → D)

def truncate (correction : Bool) (partyID : Fin 4) (x : FixedEVec scheme w n) :
    Option (Program w D (FixedEVec scheme w n)) :=
  truncateByDivision (divConstA generateHash correction partyID) x

end Custom4PC

section Integers

variable {x y d : ℤ}

/-- Rounding two summands down is at most one less than rounding their sum down. -/
theorem fdiv_add_fdiv (hd : 0 < d) :
    x.fdiv d + y.fdiv d = (x + y).fdiv d ∨ x.fdiv d + y.fdiv d = (x + y).fdiv d - 1 := by
  simp only [Int.fdiv_eq_ediv_of_nonneg _ hd.le]
  have hx := Int.mul_ediv_add_emod x d
  have hy := Int.mul_ediv_add_emod y d
  have hx0 := Int.emod_nonneg x hd.ne'
  have hy0 := Int.emod_nonneg y hd.ne'
  have hxd := Int.emod_lt_of_pos x hd
  have hyd := Int.emod_lt_of_pos y hd
  have hsum : x + y = x % d + y % d + (x / d + y / d) * d := by linarith
  rw [hsum, Int.add_mul_ediv_right _ _ hd.ne']
  by_cases hsmall : x % d + y % d < d
  · rw [Int.ediv_eq_zero_of_lt (by omega) hsmall]
    omega
  · have hone : (x % d + y % d) / d = 1 := by
      rw [Int.ediv_eq_iff_of_pos hd]
      omega
    omega

/-- The quotient of one summand; a correction rounds negative ones down. -/
def roundedQuotient (correction : Bool) (x c : ℤ) : ℤ := x.tdiv c - if correction ∧ x < 0 then 1 else 0

theorem tmod_bounds (hd : 0 < d) (x : ℤ) :
    -d < x.tmod d ∧ x.tmod d < d ∧ (0 ≤ x → 0 ≤ x.tmod d) ∧ (x ≤ 0 → x.tmod d ≤ 0) := by
  have hneg := Int.tmod_lt_of_pos (-x) hd
  rw [Int.neg_tmod] at hneg
  refine ⟨by omega, Int.tmod_lt_of_pos x hd, Int.tmod_nonneg d, fun hx => ?_⟩
  have hnonneg := Int.tmod_nonneg d (neg_nonneg.mpr hx)
  rw [Int.neg_tmod] at hnonneg
  omega

theorem roundedQuotient_bounds (correction : Bool) (hd : 0 < d) (x : ℤ) :
    x - d ≤ roundedQuotient correction x d * d ∧ roundedQuotient correction x d * d ≤ x + d := by
  have hdiv := Int.mul_tdiv_add_tmod x d
  obtain ⟨hlow, hhigh, -, hneg⟩ := tmod_bounds hd x
  rw [roundedQuotient]
  split
  · rename_i hx
    have := hneg hx.2.le
    constructor <;> linarith
  · constructor <;> linarith

/-- The multiples of `2 ^ 31` in two summands nearly cancel. -/
def UnitsCancel (correction : Bool) (x y : ℤ) : Prop :=
  let units := x.tdiv (2 ^ 31) + y.tdiv (2 ^ 31)
  if correction then
    units = 0 ∨ units = -1 ∨ (x = 2 ^ 31 ∧ y = 0) ∨ (x = 0 ∧ y = 2 ^ 31) ∨ (x = -2 ^ 31 ∧ y = -2 ^ 31)
  else units = 0 ∨ (units = 1 ∧ x + y ≤ 2 ^ 31) ∨ (units = -1 ∧ -2 ^ 31 ≤ x + y)

/-- What division by `-2 ^ 31` is off by. -/
theorem negated_bound_iff (correction : Bool) (x y : ℤ) :
    |(roundedQuotient correction x (-2 ^ 31) + roundedQuotient correction y (-2 ^ 31)) * 2 ^ 31 - (x + y)| ≤
        2 * 2 ^ 31 ↔ UnitsCancel correction x y := by
  have hx := Int.mul_tdiv_add_tmod x (2 ^ 31)
  have hy := Int.mul_tdiv_add_tmod y (2 ^ 31)
  obtain ⟨hx₁, hx₂, hx₃, hx₄⟩ := tmod_bounds (d := 2 ^ 31) (by decide) x
  obtain ⟨hy₁, hy₂, hy₃, hy₄⟩ := tmod_bounds (d := 2 ^ 31) (by decide) y
  simp only [roundedQuotient, UnitsCancel, Int.tdiv_neg]
  generalize x.tdiv (2 ^ 31) = tx at *
  generalize y.tdiv (2 ^ 31) = ty at *
  generalize x.tmod (2 ^ 31) = rx at *
  generalize y.tmod (2 ^ 31) = ry at *
  cases correction with
  | false =>
      simp only [Bool.false_eq_true, false_and, if_false]
      rw [abs_le]
      omega
  | true =>
      simp only [true_and, if_true]
      rw [abs_le]
      by_cases hxneg : x < 0
      · by_cases hyneg : y < 0
        · simp only [hxneg, hyneg, if_true]
          omega
        · simp only [hxneg, hyneg, if_true, if_false]
          omega
      · by_cases hyneg : y < 0
        · simp only [hxneg, hyneg, if_true, if_false]
          omega
        · simp only [hxneg, hyneg, if_false]
          omega

/-- The negated quotients are off by less than four units. -/
theorem negated_quotient_bounds (correction : Bool) (hd : 0 < d) (x : ℤ) :
    x - 2 * d ≤ -roundedQuotient correction x (-d) * d ∧
      -roundedQuotient correction x (-d) * d ≤ x + 2 * d := by
  have hdiv := Int.mul_tdiv_add_tmod x d
  obtain ⟨hlow, hhigh, -, -⟩ := tmod_bounds hd x
  rw [roundedQuotient, Int.tdiv_neg]
  split
  · constructor <;> linarith
  · constructor <;> linarith

end Integers

/-- The floor of the exact quotient, or one less. -/
def FloorOrBelow (p : ℕ) (x v : ℤ) : Prop := v = x.fdiv (2 ^ p) ∨ v = x.fdiv (2 ^ p) - 1

/-- Two units off at most. -/
def WithinTwoUnits (p : ℕ) (x v : ℤ) : Prop := |v * 2 ^ p - x| ≤ 2 * 2 ^ p

/-- The signed sums do not overflow. -/
def SumFits (s t : Vec w n) : Prop := ∀ k, (s k + t k).toInt = (s k).toInt + (t k).toInt

section Words

variable {p : ℕ}

/-- A value of about `x / 2 ^ p` does not overflow. -/
theorem toInt_ofInt_of_near (hp : 0 < p) (hpw : p + 1 < w) {m v x : ℤ}
    (hx : -2 ^ (w - 1) ≤ x ∧ x < 2 ^ (w - 1))
    (hm : m ≤ 2 ^ (w - 2)) (hlow : x - m * 2 ^ p ≤ v * 2 ^ p) (hhigh : v * 2 ^ p ≤ x + m * 2 ^ p) :
    (BitVec.ofInt w v).toInt = v := by
  obtain ⟨u, rfl⟩ := Nat.exists_eq_add_of_le' (by omega : 2 ≤ w)
  obtain ⟨q, rfl⟩ := Nat.exists_eq_add_of_lt hp
  have hhalf : (2 : ℤ) ^ (u + 2 - 1) = 2 * 2 ^ u := by
    rw [Nat.add_sub_assoc (by decide), pow_succ, mul_comm]
  have hunit : (2 : ℤ) ^ (0 + q + 1) = 2 * 2 ^ q := by ring
  have hq : (0 : ℤ) < 2 ^ q := by positivity
  have hu : (0 : ℤ) < 2 ^ u := by positivity
  rw [hunit] at hlow hhigh
  rw [hhalf] at hx
  rw [Nat.add_sub_cancel] at hm
  apply BitVec.toInt_ofInt_eq_self (by omega)
  · rw [hhalf]
    by_contra hv
    nlinarith
  · rw [hhalf]
    by_contra hv
    nlinarith

/-- The range of a signed element. -/
theorem toInt_range (x : BitVec w) : -2 ^ (w - 1) ≤ x.toInt ∧ x.toInt < 2 ^ (w - 1) :=
  ⟨BitVec.le_toInt x, BitVec.toInt_lt⟩

theorem two_le_pow (hp : 0 < p) (hpw : p + 1 < w) : (2 : ℤ) ≤ 2 ^ (w - 2) := by
  have hpow : (2 : ℤ) ^ 1 ≤ 2 ^ (w - 2) := pow_le_pow_right₀ (by decide) (by omega)
  simpa using hpow

theorem sshiftRight_eq_ofInt (x : BitVec w) (p : ℕ) :
    x.sshiftRight p = BitVec.ofInt w (x.toInt.fdiv (2 ^ p)) := by
  have hpos : (0 : ℤ) ≤ 2 ^ p := by positivity
  rw [BitVec.sshiftRight_eq, Int.shiftRight_eq_div_pow, Int.fdiv_eq_ediv_of_nonneg _ hpos]
  push_cast
  rfl

/-- Two shifted summands add up to the shifted sum, or one less. -/
theorem sshiftRight_add_floor (hp : 0 < p) (hpw : p + 1 < w) {s t : BitVec w}
    (hfits : (s + t).toInt = s.toInt + t.toInt) :
    FloorOrBelow p (s + t).toInt (s.sshiftRight p + t.sshiftRight p).toInt := by
  have hpos : (0 : ℤ) < 2 ^ p := by positivity
  have hfloor := fdiv_add_fdiv (x := s.toInt) (y := t.toInt) hpos
  rw [← hfits] at hfloor
  have hdiv := Int.mul_ediv_add_emod (s + t).toInt (2 ^ p)
  have hmod := Int.emod_nonneg (s + t).toInt hpos.ne'
  have hlt := Int.emod_lt_of_pos (s + t).toInt hpos
  rw [← Int.fdiv_eq_ediv_of_nonneg _ hpos.le] at hdiv
  rw [sshiftRight_eq_ofInt, sshiftRight_eq_ofInt, ← BitVec.ofInt_add]
  generalize s.toInt.fdiv (2 ^ p) + t.toInt.fdiv (2 ^ p) = v at hfloor
  have hexact : (BitVec.ofInt w v).toInt = v := by
    rcases hfloor with rfl | rfl
    · exact toInt_ofInt_of_near hp hpw (toInt_range (s + t)) (two_le_pow hp hpw) (by linarith) (by linarith)
    · exact toInt_ofInt_of_near hp hpw (toInt_range (s + t)) (two_le_pow hp hpw) (by linarith) (by linarith)
  rw [hexact]
  exact hfloor

theorem divisor_toInt (hp : p ≤ 30) (hpw : p + 1 < w) : ∃ c, divisor w p = some c ∧
    c.toInt = 2 ^ p := by
  refine ⟨_, if_pos (by omega), ?_⟩
  have hone : ((1 : BitVec 32) <<< p).toInt = 2 ^ p := by
    interval_cases p <;> rfl
  have hpow : 2 ^ (p + 2) ≤ 2 ^ min w 32 := Nat.pow_le_pow_right (by decide) (by omega)
  rw [BitVec.toInt_signExtend, hone, Int.bmod_eq_of_le_mul_two]
  · have hpos : (0 : ℤ) < 2 ^ p := by positivity
    push_cast
    have := Int.pow_pos (n := 2) (m := min w 32) (by decide)
    omega
  · have hcast : (2 : ℤ) ^ (p + 2) ≤ 2 ^ min w 32 := by exact_mod_cast hpow
    have hpos : (0 : ℤ) < 2 ^ p := by positivity
    rw [pow_add] at hcast
    push_cast
    linarith

/-- The sign bit of an `int` is shifted in. -/
theorem divisor_thirty_one (hw : 32 ≤ w) : ∃ c, divisor w 31 = some c ∧ c.toInt = -2 ^ 31 := by
  refine ⟨_, rfl, ?_⟩
  rw [BitVec.toInt_signExtend_of_le hw]
  rfl

end Words

/-- The parties end with sharings of precision `p` whose value is the same whatever they draw, and
within `bound` of what they had. -/
def TruncatesTo {S : Scheme} (ensures : ((S.Party → FixedEVec S w n) → Prop) → Prop)
    (bound : ℤ → ℤ → Prop)
    (p : ℕ) (a : Vec w n) : Prop :=
  ∃ v : Vec w n, (∀ k, bound (a k).toInt (v k).toInt) ∧
    ensures fun z => OpensA (fun q => (z q).contents) v ∧ ∀ q, (z q).precision = p

section Runs

variable {p : ℕ} {a : Vec w n}

theorem Beaver2PC.truncate_within (stacked : Bool) (hp : 0 < p) (hpw : p + 1 < w)
    {x : Beaver2PC.scheme.Shares (Vec w n)} (hx : OpensA x a) (hfits : SumFits (x 0 0) (x 1 0)) :
    TruncatesTo ((beaver2PC stacked w).Ensures fun q => pure (Beaver2PC.truncate ⟨x q, p⟩))
      (FloorOrBelow p) p a := by
  have hsum : a = x 0 0 + x 1 0 := (Beaver2PC.opens_iff.mp hx).symm
  have hx' : ∀ q, Beaver2PC.truncate ⟨x q, p⟩ =
      ⟨fun r => Vec.bitArithmeticRightShift (x q r) p, p⟩ := fun q => if_neg hp.ne'
  simp only [hx']
  refine ⟨_, fun k => ?_, Computes.pure ⟨Beaver2PC.opens_iff.mpr rfl, fun q => rfl⟩⟩
  rw [hsum]
  exact sshiftRight_add_floor hp hpw (hfits k)

namespace Replicated3PC

/-- The parts after a truncation with the mask `r`. -/
def truncatedParts (p : ℕ) (x : Fin 3 → Vec w n) (r : Vec w n) : Fin 3 → Vec w n :=
  ![Vec.bitArithmeticRightShift (x 0) p, Vec.bitArithmeticRightShift (x 1 + x 2) p - r, r]

/-- The parties 1 and 2 have drawn the mask. -/
def truncateTape (n : ℕ) (tape : Fin 3 → Source → ℕ → BitVec w) :
    Fin 3 → Source → ℕ → BitVec w := fun q =>
  match q with
  | 0 => tape 0
  | 1 => advance (tape 1) (.common 1) n
  | 2 => advance (tape 2) (.common (-1)) n

theorem Correlated.truncateTape {tape : Fin 3 → Source → ℕ → BitVec w} (hcorr : Correlated tape)
    (n : ℕ) :
    Correlated (truncateTape n tape) where
  zeroArithmetic := fun i => by
    simpa [Replicated3PC.truncateTape, advance_apply] using hcorr.zeroArithmetic i
  zeroBinary := fun i => by
    simpa [Replicated3PC.truncateTape, advance_apply] using hcorr.zeroBinary i
  commonAll := fun p q i => by
    have hall : ∀ p, Replicated3PC.truncateTape n tape p .commonAll i = tape p .commonAll i := by
      intro p
      fin_cases p <;> simp [Replicated3PC.truncateTape, advance_apply]
    rw [hall p, hall q]
    exact hcorr.commonAll p q i
  common := fun p i => by
    fin_cases p
    · simpa [Replicated3PC.truncateTape, advance_apply, neg_one_ne_one] using hcorr.common 0 i
    · simpa [Replicated3PC.truncateTape, advance_apply] using hcorr.common 1 (n + i)
    · simpa [Replicated3PC.truncateTape, advance_apply, Ne.symm neg_one_ne_one] using hcorr.common 2 i

theorem runs_truncate (hp : 0 < p) (x : Fin 3 → Vec w n) {tape : Fin 3 → Source → ℕ → BitVec w}
    (hcorr : Correlated tape) :
    Runs (fun q => truncate q ⟨Scheme.deal x q, p⟩) tape
      (fun q => ⟨Scheme.deal (truncatedParts p x fun i => tape 1 (.common 1) i) q, p⟩)
      (truncateTape n tape) := by
  have hmask : tape 2 (.common (-1)) = tape 1 (.common 1) := funext fun i => (hcorr.common 1 i).symm
  have hprecision : p ≠ 0 := hp.ne'
  let mask : Vec w n := fun i => tape 1 (.common 1) i
  let sent : Vec w n := Vec.bitArithmeticRightShift (x 1 + x 2) p - mask
  let rest : Fin 3 → Program w (FixedEVec scheme w n) := fun q => match q with
    | 0 => .recv 1 n fun share1 => .done ⟨![Vec.bitArithmeticRightShift (x 0) p, share1], p⟩
    | 1 => .done ⟨![sent, mask], p⟩
    | 2 => .done ⟨![mask, Vec.bitArithmeticRightShift (x 0) p], p⟩
  let out : Fin 3 → Fin 3 → List (BitVec w) := fun q r =>
    if q = 1 then (if r = 0 then List.ofFn sent else []) ++ [] else []
  rw [deal_eq, deal_eq]
  have hflush : ∀ q, (truncate q ⟨![x q, x (q + 1)], p⟩).flush (tape q) =
      (rest q, out q, truncateTape n tape q) := by
    intro q
    rw [truncate.eq_def, if_neg hprecision]
    match q with
    | 0 => rfl
    | 1 => rfl
    | 2 =>
        have hdrawn : rest 2 =
            .done ⟨![fun i => tape 2 (.common (-1)) i, Vec.bitArithmeticRightShift (x 0) p], p⟩ := by
          rw [hmask]
        rw [hdrawn]
        rfl
  have htake : ∀ q, (rest q).take (fun r => out r q) =
      some (⟨![truncatedParts p x mask q, truncatedParts p x mask (q + 1)], p⟩, fun _ => []) := by
    intro q
    match q with
    | 0 =>
        let ins : Fin 3 → List (BitVec w) := fun r => out r 0
        have hins : ins 1 = List.ofFn sent ++ [] := rfl
        have hempty : Function.update ins 1 [] = fun _ => [] := by
          ext r
          match r with
          | 0 => rfl
          | 1 => rfl
          | 2 => rfl
        apply (Proc.take_recv_append hins).trans
        rw [hempty]
        rfl
    | 1 => simp [rest, out, Proc.take, truncatedParts, sent]
    | 2 => simp [rest, out, Proc.take, truncatedParts]
  exact Runs.exchange hflush htake

theorem truncate_within (hp : 0 < p) (hpw : p + 1 < w) {x : scheme.Shares (Vec w n)} (hx : OpensA x a)
    (hfits : SumFits (x 0 0) (x 1 0 + x 1 1)) :
    TruncatesTo ((replicated3PC w).Ensures fun q => truncate q ⟨x q, p⟩) (FloorOrBelow p) p a := by
  obtain ⟨⟨x, rfl⟩, rfl⟩ := hx
  refine ⟨Vec.bitArithmeticRightShift (x 0) p + Vec.bitArithmeticRightShift (x 1 + x 2) p, fun k => ?_, ?_⟩
  · have hsum : Scheme.reconstruct (· + ·) (Scheme.deal x : scheme.Shares (Vec w n)) =
        x 0 + (x 1 + x 2) := by
      rw [reconstruct_deal, combine_three, add_assoc]
    rw [hsum]
    exact sshiftRight_add_floor hp hpw (hfits k)
  · refine Computes.of_runs fun tape hcorr =>
      ⟨_, _, runs_truncate hp x hcorr, hcorr.truncateTape n, ⟨⟨truncatedParts p x _, rfl⟩, ?_⟩, fun q => rfl⟩
    -- what party 1 takes off the second part is the last part
    apply (reconstruct_deal (· + ·) _).trans
    simp only [combine_three, truncatedParts, Matrix.cons_val, add_assoc, sub_add_cancel]

end Replicated3PC

section Division

/-- The quotients of the two summands that are divided, added up. -/
def dividedSum (correction : Bool) (s t : Vec w n) (c : BitVec w) : Vec w n := fun k =>
  BitVec.ofInt w (roundedQuotient correction (s k).toInt c.toInt +
    roundedQuotient correction (t k).toInt c.toInt)

theorem sdiv_eq_ofInt (x c : BitVec w) : x.sdiv c = BitVec.ofInt w (x.toInt.tdiv c.toInt) := by
  apply BitVec.eq_of_toInt_eq
  rw [BitVec.toInt_sdiv, BitVec.toInt_ofInt]

theorem roundedQuotient_true (x c : ℤ) : roundedQuotient true x c = sideQuotient x c := by
  simp only [roundedQuotient, sideQuotient, true_and]

theorem roundedQuotient_false (x c : ℤ) : roundedQuotient false x c = x.tdiv c := by
  simp only [roundedQuotient, Bool.false_eq_true, false_and, if_false, sub_zero]

/-- The condition under which the division by the `int` keeps the bound. -/
def DivisionFits (correction : Bool) (p : ℕ) (s t : Vec w n) : Prop :=
  p ≤ 30 ∨ p = 31 ∧ ∀ k, UnitsCancel correction (s k).toInt (t k).toInt

theorem divisor_eq_some {p : ℕ} {c : BitVec w} (hc : divisor w p = some c) : p < 32 := by
  by_contra hge
  rw [divisor, if_neg hge] at hc
  cases hc

/-- Division by the `int` is within two units where the `int` is positive, or else where the units
cancel. -/
theorem dividedSum_within_iff (correction : Bool) (hp : 0 < p) (hpw : p + 1 < w) {c : BitVec w}
    (hc : divisor w p = some c) {s t : Vec w n} (hfits : SumFits s t) (k : Fin n) :
    WithinTwoUnits p (s k + t k).toInt (dividedSum correction s t c k).toInt ↔
      p ≤ 30 ∨ p = 31 ∧ UnitsCancel correction (s k).toInt (t k).toInt := by
  have hpos : (0 : ℤ) < 2 ^ p := by positivity
  have hlt := divisor_eq_some hc
  rw [dividedSum, WithinTwoUnits]
  rcases Nat.lt_or_ge p 31 with hsmall | hlarge
  · obtain ⟨c', hc', hvalue⟩ := divisor_toInt (Nat.le_of_lt_succ hsmall) hpw
    obtain rfl := Option.some.inj (hc.symm.trans hc')
    rw [hvalue]
    have hs := roundedQuotient_bounds correction hpos (s k).toInt
    have ht := roundedQuotient_bounds correction hpos (t k).toInt
    have hsum := hfits k
    rw [toInt_ofInt_of_near hp hpw (toInt_range (s k + t k)) (two_le_pow hp hpw) (by linarith) (by linarith)]
    refine iff_of_true ?_ (Or.inl (Nat.le_of_lt_succ hsmall))
    rw [abs_le]
    constructor <;> linarith
  · obtain rfl : p = 31 := by omega
    obtain ⟨c', hc', hvalue⟩ := divisor_thirty_one (by omega : 32 ≤ w)
    obtain rfl := Option.some.inj (hc.symm.trans hc')
    rw [hvalue]
    have hs := negated_quotient_bounds correction hpos (s k).toInt
    have ht := negated_quotient_bounds correction hpos (t k).toInt
    have hsum := hfits k
    have hroom : (5 : ℤ) ≤ 2 ^ (w - 2) := by
      have hpow : (2 : ℤ) ^ 3 ≤ 2 ^ (w - 2) := pow_le_pow_right₀ (by decide) (by omega)
      linarith
    have hrange := toInt_range (s k + t k)
    -- the quotient is near the negated sum, which may overflow, and so near its complement
    have hexact := toInt_ofInt_of_near (x := -(s k + t k).toInt - 1)
      (v := roundedQuotient correction (s k).toInt (-2 ^ 31) +
        roundedQuotient correction (t k).toInt (-2 ^ 31))
      hp hpw ⟨by omega, by omega⟩ hroom (by linarith) (by linarith)
    rw [hexact, hsum, negated_bound_iff]
    constructor
    · exact fun hcancel => Or.inr ⟨rfl, hcancel⟩
    · rintro (hsmall | ⟨-, hcancel⟩)
      · omega
      · exact hcancel

/-- The first one of both results, with the precision put back. -/
def quotientOf {S : Scheme} {M : Type → Type} [Monad M] (p : ℕ) (result : M (EVec S w n × EVec S w n)) :
    M (FixedEVec S w n) := do
  let ret ← result
  pure { contents := ret.1, precision := p }

theorem truncateByDivision_eq {S : Scheme} {M : Type → Type} [Monad M]
    (divConstA : EVec S w n → BitVec w → M (EVec S w n × EVec S w n)) (hp : 0 < p) {c : BitVec w}
    (hc : divisor w p = some c) (x : EVec S w n) :
    truncateByDivision divConstA ⟨x, p⟩ = some (quotientOf p (divConstA x c)) := by
  rw [truncateByDivision, if_neg hp.ne', hc]
  rfl

/-- Truncation by a division that opens to the sum of the quotients keeps the bound where the
division fits. -/
theorem truncatesTo_division_iff {S : Scheme} {M : Type → Type} [Monad M]
    {ensures : (S.Party → M (FixedEVec S w n)) → ((S.Party → FixedEVec S w n) → Prop) → Prop}
    (hagree : ∀ prog post post', ensures prog post → ensures prog post' → ∃ z, post z ∧ post' z)
    {divConstA : S.Party → EVec S w n → BitVec w → M (EVec S w n × EVec S w n)} {x : S.Shares (Vec w n)}
    {s t : Vec w n} (correction : Bool) (hp : 0 < p) (hpw : p + 1 < w)
    (hdiv : ∀ c, ensures (fun q => quotientOf p (divConstA q (x q) c)) fun z =>
      OpensA (fun q => (z q).contents) (dividedSum correction s t c) ∧ ∀ q, (z q).precision = p)
    (hfits : SumFits s t) :
    TruncatesTo
        (fun post => ∃ prog, (∀ q, truncateByDivision (divConstA q) ⟨x q, p⟩ = some (prog q)) ∧
          ensures prog post)
        (WithinTwoUnits p) p (s + t) ↔
      DivisionFits correction p s t := by
  cases hc : divisor w p with
  | none =>
      have hlarge : ¬ p < 32 := by
        intro hlt
        rw [divisor, if_pos hlt] at hc
        cases hc
      constructor
      · rintro ⟨v, -, prog, hprog, -⟩
        have hnone := hprog 0
        rw [truncateByDivision, if_neg hp.ne', hc] at hnone
        cases hnone
      · rintro (hsmall | ⟨rfl, -⟩)
        · omega
        · omega
  | some c =>
      have hbound := dividedSum_within_iff correction hp hpw hc hfits
      have hlt := divisor_eq_some hc
      constructor
      · rintro ⟨v, hv, prog, hprog, hpost⟩
        obtain rfl : prog = fun q => quotientOf p (divConstA q (x q) c) :=
          funext fun q => Option.some.inj ((hprog q).symm.trans (truncateByDivision_eq _ hp hc _))
        obtain ⟨z, hz, hz'⟩ := hagree _ _ _ hpost (hdiv c)
        obtain rfl := hz.1.unique hz'.1
        rcases Nat.lt_or_ge p 31 with hsmall | hlarge
        · exact Or.inl (Nat.le_of_lt_succ hsmall)
        · refine Or.inr ⟨by omega, fun k => ?_⟩
          rcases (hbound k).mp (hv k) with hsmall | hcancel
          · omega
          · exact hcancel.2
      · intro hcondition
        refine ⟨dividedSum correction s t c, fun k => (hbound k).mpr ?_, _,
          fun q => truncateByDivision_eq _ hp hc _, hdiv c⟩
        rcases hcondition with hsmall | ⟨hp31, hcancel⟩
        · exact Or.inl hsmall
        · exact Or.inr ⟨hp31, hcancel k⟩

end Division

namespace Fantastic4PC

theorem computes_quotientOf (correction : Bool) {x : scheme.Shares (Vec w n)} (hx : Scheme.Consistent x)
    (c : BitVec w) :
    Computes Correlated
      (fun q => quotientOf p ((if correction then divConstA q else divUncorrectedA q) (x q) c)) fun z =>
      OpensA (fun q => (z q).contents) (dividedSum correction (x 3 0 + x 3 1) (x 1 0 + x 1 1) c) ∧
        ∀ q, (z q).precision = p := by
  cases correction with
  | true =>
      refine (computes_divConstA hx c).bind fun z hz => Computes.pure ⟨?_, fun q => rfl⟩
      convert hz.1 using 1
      funext k
      rw [dividedSum, roundedQuotient_true, roundedQuotient_true, BitVec.ofInt_add]
      exact congrArg₂ (· + ·) (Vec.divSide_eq_ofInt _ c k).1.symm (Vec.divSide_eq_ofInt _ c k).1.symm
  | false =>
      obtain ⟨x, rfl⟩ := hx
      let first : Vec w n := fun i => ((x 0 + x 1) i).sdiv c
      let last : Vec w n := fun i => ((x 2 + x 3) i).sdiv c
      have hdiv :
          Computes Correlated (fun q => divUncorrectedA q ((Scheme.deal x : scheme.Shares _) q) c)
          fun z => OpensA (fun q => (z q).1 : scheme.Shares (Vec w n)) (first + last) := by
        simp only [divUncorrectedA]
        refine (computes_inpA first (by decide) rfl rfl).bind fun res1 h1 => ?_
        refine (computes_inpA last (by decide) rfl rfl).bind fun res2 h2 => ?_
        exact Computes.pure (Scheme.Opens.op h1 h2)
      refine hdiv.bind fun z hz => Computes.pure ⟨?_, fun q => rfl⟩
      convert hz using 1
      ext k
      rw [dividedSum, roundedQuotient_false, roundedQuotient_false, BitVec.ofInt_add, ← sdiv_eq_ofInt,
        ← sdiv_eq_ofInt]
      rfl

theorem truncate_within_iff (correction : Bool) (hp : 0 < p) (hpw : p + 1 < w)
    {x : scheme.Shares (Vec w n)}
    (hx : OpensA x a) (hfits : SumFits (x 3 0 + x 3 1) (x 1 0 + x 1 1)) :
    TruncatesTo (S := scheme)
        (fun post => ∃ prog, (∀ q, truncate correction q ⟨x q, p⟩ = some (prog q)) ∧
          Computes Correlated prog post)
        (WithinTwoUnits p) p a ↔
      DivisionFits correction p (x 3 0 + x 3 1) (x 1 0 + x 1 1) := by
  have hsum : a = x 3 0 + x 3 1 + (x 1 0 + x 1 1) := by
    obtain ⟨⟨x, rfl⟩, rfl⟩ := hx
    rw [reconstruct_deal, combine_four, add_assoc]
    rfl
  rw [hsum]
  refine truncatesTo_division_iff (fun prog post post' h h' => ?_) correction hp hpw
    (computes_quotientOf correction hx.1) hfits
  have hzero : Correlated fun _ _ _ => (0 : BitVec w) := fun _ _ _ _ _ _ => rfl
  exact (Computes.and h h').exists_value hzero

end Fantastic4PC

namespace Custom4PC

variable {D : Type} [DecidableEq D] (generateHash : ∀ {n : ℕ}, Vec w n → D)

theorem quotient_add_eq (correction : Bool) (s t : Vec w n) (c : BitVec w) :
    quotient correction s c + quotient correction t c = dividedSum correction s t c := by
  have hquotient : ∀ (s : Vec w n) k,
      quotient correction s c k = BitVec.ofInt w (roundedQuotient correction (s k).toInt c.toInt) := by
    intro s k
    cases correction with
    | true =>
        have hslt : (if (s k).slt 0 then (1 : BitVec w) else 0) = Vec.ltz s k := by
          have hzero : BitVec.toInt (0 : BitVec w) = 0 := BitVec.toInt_zero
          simp only [Vec.ltz, BitVec.slt_eq_decide, hzero, decide_eq_true_eq]
        rw [quotient, if_pos rfl, hslt, roundedQuotient_true]
        exact (Vec.divSide_eq_ofInt s c k).1
    | false =>
        rw [roundedQuotient_false, ← sdiv_eq_ofInt]
        rfl
  ext k
  rw [dividedSum, BitVec.ofInt_add, ← hquotient, ← hquotient]
  rfl

theorem truncate_within_iff (correction : Bool) (hp : 0 < p) (hpw : p + 1 < w)
    {x : scheme.Shares (Vec w n)}
    (hx : OpensA x a) (hfits : SumFits (x 3 0 + x 3 1) (x 1 0 + x 1 1)) :
    TruncatesTo (S := scheme)
        (fun post => ∃ prog, (∀ q, truncate generateHash correction q ⟨x q, p⟩ = some (prog q)) ∧
          Completes Correlated prog post)
        (WithinTwoUnits p) p a ↔
      DivisionFits correction p (x 3 0 + x 3 1) (x 1 0 + x 1 1) := by
  obtain ⟨⟨x, rfl⟩, rfl⟩ := hx
  have hsum : Scheme.reconstruct (· + ·) (deal x) = x 3 + x 0 + (x 1 + x 2) := by
    rw [reconstruct_deal, combine_four]
    abel
  rw [hsum]
  refine truncatesTo_division_iff (fun prog post post' h h' => ?_) correction hp hpw (fun c => ?_) hfits
  · have hzero : Correlated fun _ _ _ => (Cell.word 0 : Cell w D) :=
      ⟨fun _ _ _ _ _ _ => rfl, fun _ _ _ _ _ => rfl⟩
    obtain ⟨result, ⟨z, hz, hpost⟩, z', hz', hpost'⟩ := (Computes.and h h').exists_value hzero
    obtain rfl : z = z' := funext fun q => Except.ok.inj (congrFun (hz.symm.trans hz') q)
    exact ⟨z, hpost, hpost'⟩
  · refine (completes_divConstA generateHash correction c).bind fun z hz =>
      Completes.pure ⟨?_, fun q => rfl⟩
    rw [← quotient_add_eq]
    exact hz.1

end Custom4PC

end Runs

/-- Two and three parties round down, or to one less; four parties stay within two units where the
divisor is a positive `int`, or where the summands hardly contain the negative one. -/
theorem truncate_iff {p : ℕ} (hp : 0 < p) (hpw : p + 1 < w) :
    (∀ (stacked : Bool) (x : Beaver2PC.scheme.Shares (Vec w n)) (a : Vec w n), OpensA x a →
      SumFits (x 0 0) (x 1 0) →
      TruncatesTo ((beaver2PC stacked w).Ensures fun q => pure (Beaver2PC.truncate ⟨x q, p⟩))
        (FloorOrBelow p) p a) ∧
    (∀ (x : Replicated3PC.scheme.Shares (Vec w n)) (a : Vec w n), OpensA x a →
      SumFits (x 0 0) (x 1 0 + x 1 1) →
      TruncatesTo ((replicated3PC w).Ensures fun q => Replicated3PC.truncate q ⟨x q, p⟩)
        (FloorOrBelow p) p a) ∧
    (∀ (correction : Bool) (x : Fantastic4PC.scheme.Shares (Vec w n)) (a : Vec w n), OpensA x a →
      SumFits (x 3 0 + x 3 1) (x 1 0 + x 1 1) →
      (TruncatesTo (S := Fantastic4PC.scheme)
          (fun post => ∃ prog, (∀ q, Fantastic4PC.truncate correction q ⟨x q, p⟩ = some (prog q)) ∧
            Computes Fantastic4PC.Correlated prog post)
          (WithinTwoUnits p) p a ↔
        DivisionFits correction p (x 3 0 + x 3 1) (x 1 0 + x 1 1))) ∧
    ∀ (D : Type) [DecidableEq D] (generateHash : ∀ {n : ℕ}, Vec w n → D) (correction : Bool)
      (x : Custom4PC.scheme.Shares (Vec w n)) (a : Vec w n), OpensA x a →
      SumFits (x 3 0 + x 3 1) (x 1 0 + x 1 1) →
      (TruncatesTo (S := Custom4PC.scheme)
          (fun post => ∃ prog,
            (∀ q, Custom4PC.truncate generateHash correction q ⟨x q, p⟩ = some (prog q)) ∧
            Completes Custom4PC.Correlated prog post)
          (WithinTwoUnits p) p a ↔
        DivisionFits correction p (x 3 0 + x 3 1) (x 1 0 + x 1 1)) :=
  ⟨fun stacked _ _ hx hfits => Beaver2PC.truncate_within stacked hp hpw hx hfits,
    fun _ _ hx hfits => Replicated3PC.truncate_within hp hpw hx hfits,
    fun correction _ _ hx hfits => Fantastic4PC.truncate_within_iff correction hp hpw hx hfits,
    fun _ _ generateHash correction _ _ hx hfits =>
      Custom4PC.truncate_within_iff generateHash correction hp hpw hx hfits⟩

/-- Sharings of minus twenty-one and fourteen among two, three and four parties. -/
theorem truncate_iff_byte :
    let x2 : Beaver2PC.scheme.Shares (Vec 8 2) := Scheme.deal ![![10, 100], ![-31, -86]]
    let x3 : Replicated3PC.scheme.Shares (Vec 8 2) := Scheme.deal ![![10, 100], ![-30, -80], ![-1, -6]]
    let x4 : Fantastic4PC.scheme.Shares (Vec 8 2) :=
      Scheme.deal ![![5, 50], ![-30, -80], ![5, 50], ![-1, -6]]
    let y4 : Custom4PC.scheme.Shares (Vec 8 2) :=
      Custom4PC.deal ![![5, 50], ![-30, -80], ![5, 50], ![-1, -6]]
    TruncatesTo ((beaver2PC false 8).Ensures fun q => pure (Beaver2PC.truncate ⟨x2 q, 2⟩))
        (FloorOrBelow 2) 2 (![-21, 14] : Vec 8 2) ∧
      TruncatesTo ((replicated3PC 8).Ensures fun q => Replicated3PC.truncate q ⟨x3 q, 2⟩)
        (FloorOrBelow 2) 2 (![-21, 14] : Vec 8 2) ∧
      TruncatesTo (S := Fantastic4PC.scheme)
        (fun post => ∃ prog, (∀ q, Fantastic4PC.truncate true q ⟨x4 q, 2⟩ = some (prog q)) ∧
          Computes Fantastic4PC.Correlated prog post)
        (WithinTwoUnits 2) 2 (![-21, 14] : Vec 8 2) ∧
      TruncatesTo (S := Custom4PC.scheme)
        (fun post => ∃ prog, (∀ q, Custom4PC.truncate (fun _ => ()) true q ⟨y4 q, 2⟩ = some (prog q)) ∧
          Completes Custom4PC.Correlated prog post)
        (WithinTwoUnits 2) 2 (![-21, 14] : Vec 8 2) := by
  intro x2 x3 x4 y4
  obtain ⟨hbeaver, hreplicated, hfantastic, hcustom⟩ :=
    truncate_iff (w := 8) (n := 2) (p := 2) (by decide) (by decide)
  have hsmall : ∀ s t : Vec 8 2, DivisionFits true 2 s t := fun s t => .inl (by decide)
  refine ⟨hbeaver false x2 _ ⟨⟨_, rfl⟩, by decide⟩ (by unfold SumFits; decide),
    hreplicated x3 _ ⟨⟨_, rfl⟩, by decide⟩ (by unfold SumFits; decide), ?_, ?_⟩
  · exact (hfantastic true x4 _ ⟨⟨_, rfl⟩, by decide⟩ (by unfold SumFits; decide)).mpr (hsmall _ _)
  · exact (hcustom Unit (fun _ => ()) true y4 _ ⟨⟨_, rfl⟩, by decide⟩
      (by unfold SumFits; decide)).mpr (hsmall _ _)

/-- One part of `2 ^ 40`, the others zero. -/
def largeShares : Custom4PC.scheme.Shares (Vec 64 1) := Custom4PC.deal ![![0], ![0], ![0], ![2 ^ 40]]

/-- With 31 fractional bits the divisor is `-2 ^ 31`. -/
theorem truncate_fails :
    ¬ ∀ (w p n : ℕ) (x : Custom4PC.scheme.Shares (Vec w n)) (a : Vec w n), 0 < p → p + 1 < w → w ≤ 64 →
      OpensA x a → SumFits (x 3 0 + x 3 1) (x 1 0 + x 1 1) →
      TruncatesTo (S := Custom4PC.scheme)
        (fun post => ∃ prog, (∀ q, Custom4PC.truncate (fun _ => ()) true q ⟨x q, p⟩ = some (prog q)) ∧
          Completes Custom4PC.Correlated prog post)
        (WithinTwoUnits p) p a := by
  intro hall
  have hx : OpensA largeShares (![2 ^ 40] : Vec 64 1) := ⟨⟨_, rfl⟩, by decide⟩
  have hfits : SumFits (largeShares 3 0 + largeShares 3 1) (largeShares 1 0 + largeShares 1 1) := by
    unfold SumFits
    decide
  have htruncates := hall 64 31 1 largeShares ![2 ^ 40] (by decide) (by decide) le_rfl hx hfits
  have hdivision := (Custom4PC.truncate_within_iff (fun _ => ()) true (by decide) (by decide) hx hfits).mp
    htruncates
  rcases hdivision with hsmall | ⟨-, hcancel⟩
  · exact absurd hsmall (by decide)
  · have hunits := hcancel 0
    unfold UnitsCancel at hunits
    revert hunits
    decide

end CryptDough
