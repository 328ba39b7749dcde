import CryptDough.DummyPermutations
import CryptDough.ObliviousPermutation

/-! Permutation correlations of two parties through their life: generated alone or in pairs, converted
to a narrower type or to the arithmetic encoding, applied and undone. -/

namespace CryptDough.Beaver2PC

open Process Sharing Communicator StableSort

variable {w n : ℕ} {Source : Type}

/-- Party 0's `B` and party 1's `C` are a sharing, and so are the other two. The converted shares are
written over those of `perm`, which the result takes its vectors from. -/
def dmPermConvertB2a
    (b2a : (partyID : Fin 2) → EVec scheme w n → Proc (Fin 2) Source (BitVec w) (EVec scheme w n))
    (partyID : Fin 2) (perm : DMTuple w n) : Proc (Fin 2) Source (BitVec w) (DMTuple w n) := do
  let binaryB := if partyID = 0 then perm.B else perm.C
  let binaryC := if partyID = 0 then perm.C else perm.B
  let arithmeticB ← b2a partyID fun _ => binaryB
  let arithmeticC ← b2a partyID fun _ => binaryC
  pure (if partyID = 0 then ⟨perm.pi, perm.A, arithmeticB 0, arithmeticC 0⟩
    else ⟨perm.pi, perm.A, arithmeticC 0, arithmeticB 0⟩)

/-- The conversion without oblivious transfer: the value is opened, and party 0 takes it. -/
def insecureB2a (partyID : Fin 2) (x : EVec scheme w n) : Program w (EVec scheme w n) := do
  let opened ← uncheckedOpenB partyID x
  pure fun _ => if partyID = 0 then opened else 0

section Conversions

variable [DecidableEq Source] {corr : (Fin 2 → Source → ℕ → BitVec w) → Prop}

/-- A conversion from the boolean to the arithmetic encoding does what it should. -/
def ConvertsB2a (corr : (Fin 2 → Source → ℕ → BitVec w) → Prop)
    (b2a : (partyID : Fin 2) → EVec scheme w n → Proc (Fin 2) Source (BitVec w) (EVec scheme w n)) :
    Prop :=
  ∀ (x : scheme.Shares (Vec w n)) (a : Vec w n), OpensB x a →
    Computes corr (fun p => b2a p (x p)) fun y : scheme.Shares (Vec w n) => OpensA y a

theorem convertsB2a_insecureB2a : ConvertsB2a (fun _ => True) (insecureB2a (w := w) (n := n)) := by
  intro x a hx
  refine Computes.of_runs fun tape hcorr => ⟨_, tape, (runs_uncheckedOpenB x tape).map
    fun p opened _ => if p = 0 then opened else 0, hcorr, opens_iff.mpr ?_⟩
  have hvalue : (x 0 0 ^^^ x 1 0) + 0 = a := (add_zero _).trans (opens_iff.mp hx)
  exact hvalue

/-- The sum of the converted shares is the correlation in the arithmetic encoding. -/
theorem computes_dmPermConvertB2a
    {b2a : (partyID : Fin 2) → EVec scheme w n → Proc (Fin 2) Source (BitVec w) (EVec scheme w n)}
    (hb2a : ConvertsB2a corr b2a) (perm : DMShardedPermutation w n true) :
    Computes corr (fun p => dmPermConvertB2a b2a p (perm.getTuple p))
      fun y => ∃ converted : DMShardedPermutation w n false, (∀ rank, y rank = converted.getTuple rank) ∧
        ∀ rank, (converted.getTuple rank).pi = (perm.getTuple rank).pi := by
  let binaryB : scheme.Shares (Vec w n) :=
    fun p _ => if p = 0 then (perm.getTuple p).B else (perm.getTuple p).C
  let binaryC : scheme.Shares (Vec w n) :=
    fun p _ => if p = 0 then (perm.getTuple p).C else (perm.getTuple p).B
  refine (hb2a binaryB ((perm.getTuple 0).B ^^^ (perm.getTuple 1).C) (opens_iff.mpr rfl)).bind
    fun B hB => ?_
  refine (hb2a binaryC ((perm.getTuple 0).C ^^^ (perm.getTuple 1).B) (opens_iff.mpr rfl)).bind
    fun C hC => ?_
  refine Computes.pure ⟨perm.convertB2a ![B 0 0, C 1 0] ![C 0 0, B 1 0] fun sender => ?_,
    fun rank => ?_, fun rank => rfl⟩
  · fin_cases sender
    · calc C 1 0 + C 0 0 = C 0 0 + C 1 0 := add_comm _ _
        _ = (perm.getTuple 0).C ^^^ (perm.getTuple 1).B := opens_iff.mp hC
        _ = (perm.getTuple 1).B ^^^ (perm.getTuple 0).C := Vec.plus_comm true _ _
    · exact opens_iff.mp hB
  · fin_cases rank
    · rfl
    · rfl

end Conversions

/-! What is expected of the permutation correlations, for every kind of them. -/

section Lifecycle

variable (Source) [DecidableEq Source]

/-- One permutation after the other, and back with the same correlation. -/
def AppliesAndInverts (w n : ℕ) : Prop :=
  ∀ (binary : Bool) (perm : DMShardedPermutation w n binary) (x : scheme.Shares (Vec w n))
    (a : Vec w n), OpensE binary x a →
    Computes (fun _ : Fin 2 → Source → ℕ → BitVec w => True)
      (fun p => dmObliviousApplyShardedPerm p (x p) perm)
      (fun y : scheme.Shares (Vec w n) => OpensE binary y
        (localApplyPerm (localApplyPerm a (perm.getTuple 0).pi) (perm.getTuple 1).pi)) ∧
    Computes (fun _ : Fin 2 → Source → ℕ → BitVec w => True)
      (fun p => do
        let y ← dmObliviousApplyShardedPerm p (x p) perm
        dmObliviousApplyInverseShardedPerm p y perm)
      fun y : scheme.Shares (Vec w n) => OpensE binary y a

/-- When a permutation is found, the tuples that the parties generate are a correlation, and the
generator they have in common stays alike. -/
def GeneratesCorrelations (size : ElementSize) (n : ℕ) : Prop :=
  ∀ (fuel : ℕ) (allPrg : CommonPRG) (prg : Option (Fin 2 → CommonPRG)),
    (∀ rank, (DMDummyGenerator.drawPerm n fuel rank allPrg (prg.map (· rank))).isSome) →
    Computes (fun _ : Fin 2 → Source → ℕ → BitVec 32 => True)
      (fun rank => DMDummyGenerator.getNext size n fuel rank allPrg (prg.map (· rank)))
      fun y => ∃ (perm : DMShardedPermutation (8 * size.bytes) n true) (after : CommonPRG),
        ∀ rank, y rank = some (perm.getTuple rank, after)

/-- The correlations of a pair apply the same permutations. -/
def GeneratesPairs (size : ElementSize) (n : ℕ) : Prop :=
  ∀ (fuel : Fin 2 → ℕ) (allPrg : CommonPRG) (seed : Fin 2 → AESPRGAlgorithm.Keystream),
    (∀ k rank, (genPerm n (fuel k) (DMDummyGenerator.setupDmPair (seed rank)).1).isSome) →
    Computes (fun _ : Fin 2 → Source → ℕ → BitVec 32 => True)
      (fun rank => DMDummyGenerator.generatePair size n fuel rank allPrg (seed rank))
      fun y => ∃ first second : DMShardedPermutation (8 * size.bytes) n true,
        (∀ rank, y rank = some (first.getTuple rank, second.getTuple rank)) ∧
          ∀ rank, (first.getTuple rank).pi = (second.getTuple rank).pi

/-- A conversion to a type that is no wider leaves a correlation of the same permutations. -/
def ConvertsType (w n : ℕ) : Prop :=
  ∀ (binary : Bool) (perm : DMShardedPermutation w n binary) (w' : ℕ), w' ≤ w →
    ∃ converted : DMShardedPermutation w' n binary,
      (∀ rank, dmPermConvertType w' (perm.getTuple rank) = converted.getTuple rank) ∧
        ∀ rank, (converted.getTuple rank).pi = (perm.getTuple rank).pi

/-- With a conversion of shares that is right, a boolean correlation becomes an arithmetic one of the
same permutations. -/
def ConvertsEncoding (w n : ℕ) : Prop :=
  ∀ (corr : (Fin 2 → Source → ℕ → BitVec w) → Prop)
    (b2a : (partyID : Fin 2) → EVec scheme w n → Proc (Fin 2) Source (BitVec w) (EVec scheme w n)),
    ConvertsB2a corr b2a → ∀ perm : DMShardedPermutation w n true,
    Computes corr (fun p => dmPermConvertB2a b2a p (perm.getTuple p))
      fun y => ∃ converted : DMShardedPermutation w n false,
        (∀ rank, y rank = converted.getTuple rank) ∧
          ∀ rank, (converted.getTuple rank).pi = (perm.getTuple rank).pi

end Lifecycle

section Results

variable [DecidableEq Source]

theorem appliesAndInverts (w n : ℕ) : AppliesAndInverts Source w n := by
  intro binary perm x a hx
  refine ⟨?_, ?_⟩
  · refine (computes_dmApply hx perm).mono fun y hy => ?_
    rw [localApplyPerm_eq, localApplyPerm_eq]
    exact hy
  · refine (computes_dmApply hx perm).bind fun y hy =>
      (computes_dmApplyInverse hy perm).mono fun z hz => ?_
    rw [rearrange_symm_rearrange] at hz
    exact hz

theorem generatesCorrelations (size : ElementSize) (n : ℕ) : GeneratesCorrelations Source size n := by
  intro fuel allPrg prg hdraws
  obtain ⟨pi, drawn, hpi⟩ := DMDummyGenerator.drawPerm_alike hdraws
  refine (DMDummyGenerator.computes_getNext hpi).mono fun y hy => ?_
  obtain ⟨perm, after, htuple, -⟩ := hy
  exact ⟨perm, after, htuple⟩

theorem generatesPairs (size : ElementSize) (n : ℕ) : GeneratesPairs Source size n :=
  fun _ allPrg _ hdraws => DMDummyGenerator.computes_generatePair allPrg hdraws

theorem convertsType (w n : ℕ) : ConvertsType w n :=
  fun _ perm _ hw => ⟨perm.convertType hw, fun _ => rfl, fun _ => rfl⟩

theorem convertsEncoding (w n : ℕ) : ConvertsEncoding Source w n :=
  fun _ _ hb2a perm => computes_dmPermConvertB2a hb2a perm

end Results

def swapShares : scheme.Shares (Vec 8 2) := fun p _ => if p = 0 then ![7, 9] else ![1, 3]

end CryptDough.Beaver2PC
