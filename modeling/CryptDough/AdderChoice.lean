import CryptDough.Adders
import CryptDough.Beaver2PC
import CryptDough.Fantastic4PC
import CryptDough.Replicated3PC

/-! The three protocols that the library can be built with, and when the choice between the two adders
is invisible in them. -/

namespace CryptDough

open Process Sharing Protocol

inductive ProtocolName
  | beaver2PC (stacked : Bool)
  | replicated3PC
  | fantastic4PC
deriving DecidableEq

namespace ProtocolName

abbrev protocol (w : ℕ) : ProtocolName → Protocol w
  | beaver2PC stacked => CryptDough.beaver2PC stacked w
  | replicated3PC => CryptDough.replicated3PC w
  | fantastic4PC => CryptDough.fantastic4PC w

/-- Only the three-party protocol splits a secret into an odd number of parts. -/
theorem even_last_iff {w : ℕ} (name : ProtocolName) :
    Even (name.protocol w).scheme.last ↔ name = replicated3PC := by
  cases name with
  | beaver2PC stacked => simp
  | replicated3PC => simp
  | fantastic4PC => simp; decide

end ProtocolName

variable {w n : ℕ}

theorem parallelPrefixSum_eq_iff {P : Protocol w} (hw : 0 < w) (a b : Vec w n) (carryIn : Bool) :
    parallelPrefixSum P a b carryIn = addWithCarry a b carryIn ↔
      carryIn = false ∨ Even P.scheme.last ∨ n = 0 := by
  constructor
  · intro heq
    by_contra hcond
    push Not at hcond
    obtain ⟨hcarry, hodd, hn⟩ := hcond
    have hk := congrFun heq ⟨0, Nat.pos_of_ne_zero hn⟩
    have hbit := congrArg (fun v => v.getLsbD 0) hk
    simp [parallelPrefixSum, hcarry, hodd, hw] at hbit
  · intro hcond
    ext k
    rcases hcond with hcarry | heven | hn
    · simp [parallelPrefixSum, hcarry]
    · simp [parallelPrefixSum, heven]
    · exact absurd k.isLt (by omega)

theorem parallelPrefixAdder_iff {P : Protocol w} (hw : 0 < w) {x y : P.scheme.Shares (Vec w n)}
    {a b : Vec w n} (hx : OpensB x a) (hy : OpensB y b) (carryIn : Bool) :
    P.Ensures (fun p => P.parallelPrefixAdder p (x p) (y p) carryIn)
        (fun z => OpensB z (addWithCarry a b carryIn)) ↔
      carryIn = false ∨ Even P.scheme.last ∨ n = 0 := by
  have hppa := parallelPrefixAdder_ensures hw hx hy carryIn
  rw [← parallelPrefixSum_eq_iff hw a b carryIn]
  constructor
  · intro hsum
    exact hppa.opens_unique hsum
  · intro heq
    rwa [heq] at hppa

theorem addWithCarry_false (a b : Vec w n) : addWithCarry a b false = a + b := by
  ext k
  simp [addWithCarry]

theorem addWithCarry_not (a b : Vec w n) : addWithCarry a (~~~ b) true = a - b := by
  funext k
  simp only [addWithCarry, Vec.not_apply, if_true, Pi.sub_apply]
  rw [BitVec.sub_eq_add_neg, BitVec.neg_eq_not_add, BitVec.add_assoc]
  rfl

/-- Either adder may be chosen without a carry; with one, when the choice makes no difference. -/
theorem binaryAdder_iff {P : Protocol w} (hw : 0 < w) {x y : P.scheme.Shares (Vec w n)}
    {a b : Vec w n} (hx : OpensB x a) (hy : OpensB y b) (carryIn : Bool) :
    (∀ rcaFaster, P.Ensures (fun p => P.binaryAdder rcaFaster p (x p) (y p) carryIn)
        (fun z => OpensB z (addWithCarry a b carryIn))) ↔
      carryIn = false ∨ Even P.scheme.last ∨ n = 0 := by
  rw [← parallelPrefixAdder_iff hw hx hy carryIn]
  constructor
  · exact fun hall => hall false
  · intro hppa rcaFaster
    cases rcaFaster with
    | false => exact hppa
    | true => exact rippleCarryAdder_ensures hw hx hy carryIn

/-- Both adders open to the sum and the carry exactly when there is no carry, or the parts of a
sharing are odd in number, or there is nothing to add; then the operators do not depend on the choice
either. -/
theorem adders_agree_iff (name : ProtocolName) (hw : 0 < w)
    {x y : (name.protocol w).scheme.Shares (Vec w n)} {a b : Vec w n} (hx : OpensB x a)
    (hy : OpensB y b) (carryIn : Bool) :
    ((name.protocol w).Ensures
        (fun p => (name.protocol w).rippleCarryAdder p (x p) (y p) carryIn)
        (fun z => OpensB z (addWithCarry a b carryIn)) ∧
      (name.protocol w).Ensures
        (fun p => (name.protocol w).parallelPrefixAdder p (x p) (y p) carryIn)
        (fun z => OpensB z (addWithCarry a b carryIn)) ↔
      carryIn = false ∨ name = .replicated3PC ∨ n = 0) ∧
    (∀ rcaFaster, (name.protocol w).Ensures
      (fun p => (name.protocol w).add rcaFaster p (x p) (y p)) (fun z => OpensB z (a + b))) ∧
    ((∀ rcaFaster, (name.protocol w).Ensures
      (fun p => (name.protocol w).sub rcaFaster p (x p) (y p)) (fun z => OpensB z (a - b))) ↔
      name = .replicated3PC ∨ n = 0) ∧
    ((∀ rcaFaster, (name.protocol w).Ensures
      (fun p => (name.protocol w).neg rcaFaster p (x p)) (fun z => OpensB z (-a))) ↔
      name = .replicated3PC ∨ n = 0) := by
  have heven := name.even_last_iff (w := w)
  refine ⟨?_, ?_, ?_, ?_⟩
  · rw [← heven, ← parallelPrefixAdder_iff hw hx hy carryIn]
    exact and_iff_right (rippleCarryAdder_ensures hw hx hy carryIn)
  · have hadd := (binaryAdder_iff hw hx hy false).mpr (Or.inl rfl)
    rw [addWithCarry_false] at hadd
    exact hadd
  · have hsub := binaryAdder_iff hw hx ((name.protocol w).notB_opens hy) true
    rw [addWithCarry_not, heven] at hsub
    simp only [Bool.true_eq_false, false_or] at hsub
    exact hsub
  · have hneg := binaryAdder_iff hw zero_opens ((name.protocol w).notB_opens hx) true
    rw [addWithCarry_not, heven, zero_sub] at hneg
    simp only [Bool.true_eq_false, false_or] at hneg
    exact hneg

/-- Shares of the one-element vector zero, four bits of which are hidden. -/
def maskedZero : Beaver2PC.scheme.Shares (Vec 8 1) := fun _ _ => ![15]

theorem maskedZero_opens : OpensB maskedZero ![0] := by
  apply Beaver2PC.opens_iff.mpr
  decide

theorem adders_agree_iff_masked :
    ((beaver2PC false 8).Ensures
        (fun p => (beaver2PC false 8).rippleCarryAdder p (maskedZero p) (maskedZero p) true)
        (fun z => OpensB z (addWithCarry ![0] ![0] true)) ∧
      (beaver2PC false 8).Ensures
        (fun p => (beaver2PC false 8).parallelPrefixAdder p (maskedZero p) (maskedZero p) true)
        (fun z => OpensB z (addWithCarry ![0] ![0] true)) ↔
      true = false ∨ ProtocolName.beaver2PC false = .replicated3PC ∨ 1 = 0) :=
  (adders_agree_iff (.beaver2PC false) (by decide) maskedZero_opens maskedZero_opens true).1

/-- In the two-party protocol, zero plus zero plus a carry is one by the ripple-carry adder and zero
by the parallel-prefix adder. -/
theorem parallelPrefixAdder_loses_carry :
    (beaver2PC false 8).Ensures
        (fun p => (beaver2PC false 8).rippleCarryAdder p (maskedZero p) (maskedZero p) true)
        (fun z => OpensB z ![1]) ∧
      (beaver2PC false 8).Ensures
        (fun p => (beaver2PC false 8).parallelPrefixAdder p (maskedZero p) (maskedZero p) true)
        (fun z => OpensB z ![0]) ∧
      ¬ (beaver2PC false 8).Ensures
        (fun p => (beaver2PC false 8).parallelPrefixAdder p (maskedZero p) (maskedZero p) true)
        (fun z => OpensB z (addWithCarry ![0] ![0] true)) := by
  have hrca : addWithCarry ![0] ![0] true = (![1] : Vec 8 1) := by decide
  have hppa : parallelPrefixSum (beaver2PC false 8) ![0] ![0] true = (![0] : Vec 8 1) := by decide
  have hbad := @parallelPrefixAdder_ensures 8 1 (beaver2PC false 8) (by decide) _ _ _ _ maskedZero_opens
    maskedZero_opens true
  rw [hppa] at hbad
  refine ⟨?_, hbad, fun hgood => ?_⟩
  · rw [← hrca]
    exact rippleCarryAdder_ensures (by decide) maskedZero_opens maskedZero_opens true
  · have heq := hbad.opens_unique hgood
    exact absurd heq (by decide)

end CryptDough
