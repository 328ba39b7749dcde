import CryptDough.AdderChoice
import CryptDough.DishonestMajorityShuffle
import CryptDough.Fantastic4PCConversion

/-! Secret-shared permutations: applying, composing and inverting them. Whatever is opened on the way
has been shuffled with a sharded permutation, and the shuffle cancels. -/

namespace CryptDough

open Process Sharing Communicator StableSort

/-- What permutations are applied with: the sharded permutations the parties hold together in either
encoding, how they are applied to a sharing of `w` bits, and how a sharing is opened. -/
structure Shuffler (S : Scheme) (w : ℕ) where
  Source : Type
  [decSource : DecidableEq Source]
  correlated : (S.Party → Source → ℕ → BitVec w) → Prop
  ShardedPerm : Bool → ℕ → Type
  shuffle : ∀ {binary : Bool} {n : ℕ}, ShardedPerm binary n → LocalPermutation n
  applyShardedPerm : ∀ {binary : Bool} {n : ℕ}, S.Party → EVec S w n → ShardedPerm binary n →
    Proc S.Party Source (BitVec w) (EVec S w n)
  applyInverseShardedPerm : ∀ {binary : Bool} {n : ℕ}, S.Party → EVec S w n →
    ShardedPerm binary n → Proc S.Party Source (BitVec w) (EVec S w n)
  openShares : Bool → ∀ {n : ℕ}, S.Party → EVec S w n → Proc S.Party Source (BitVec w) (Vec w n)
  publicShare : ∀ {n : ℕ}, S.Party → Vec w n → EVec S w n
  apply_computes : ∀ {binary : Bool} {n : ℕ} {x : S.Shares (Vec w n)} {a : Vec w n},
    OpensE binary x a → ∀ pi : ShardedPerm binary n,
    Computes correlated (fun p => applyShardedPerm p (x p) pi)
      fun y => OpensE binary y (rearrange (shuffle pi) a)
  applyInverse_computes : ∀ {binary : Bool} {n : ℕ} {x : S.Shares (Vec w n)} {a : Vec w n},
    OpensE binary x a → ∀ pi : ShardedPerm binary n,
    Computes correlated (fun p => applyInverseShardedPerm p (x p) pi)
      fun y => OpensE binary y (rearrange (shuffle pi).symm a)
  open_computes : ∀ {binary : Bool} {n : ℕ} {x : S.Shares (Vec w n)} {a : Vec w n},
    OpensE binary x a →
    Computes correlated (fun p => openShares binary p (x p)) fun value => ∀ p, value p = a
  publicShare_opens : ∀ (binary : Bool) {n : ℕ} (a : Vec w n),
    OpensE binary (fun p => publicShare p a) a

attribute [instance] Shuffler.decSource

/-! The public value is one part, and all other parts are zero. -/

theorem combine_publicPart (binary : Bool) {w n k : ℕ} (j : Fin (k + 1)) (a : Vec w n) :
    combine (Vec.plus binary) (fun i => if i = j then a else 0) = a := by
  induction k with
  | zero => rw [combine_zero, if_pos (Fin.fin_one_eq_zero j).symm]
  | succ k ih =>
      rw [combine_succ]
      cases j using Fin.lastCases with
      | last =>
          have hinit : (fun i : Fin (k + 1) => if i.castSucc = Fin.last (k + 1) then a else 0) =
              fun _ => 0 := funext fun i => if_neg (Fin.castSucc_lt_last i).ne
          rw [hinit, combine_const_idem _ 0 (Vec.plus_zero binary 0), if_pos rfl, Vec.plus_comm,
            Vec.plus_zero]
      | cast j =>
          have hinit : (fun i : Fin (k + 1) => if i.castSucc = j.castSucc then a else 0) =
              fun i => if i = j then a else 0 := by
            ext i
            simp only [Fin.castSucc_inj]
          rw [hinit, ih, if_neg (Fin.castSucc_lt_last j).ne', Vec.plus_zero]

namespace Beaver2PC

variable {w n : ℕ}

def publicShare (partyID : Fin 2) (data : Vec w n) : EVec scheme w n :=
  if partyID = 0 then fun _ => data else fun _ => 0

def openShares (binary : Bool) (partyID : Fin 2) (shares : EVec scheme w n) :
    Program w (Vec w n) :=
  if binary then uncheckedOpenB partyID shares else uncheckedOpenA partyID shares

theorem publicShare_opens (binary : Bool) (a : Vec w n) :
    OpensE binary (fun p => publicShare p a) a :=
  (opensE_iff 0).mpr (Vec.plus_zero binary a)

theorem computes_openShares {corr : (Fin 2 → Beaver2PC.Source → ℕ → BitVec w) → Prop}
    {binary : Bool} {x : scheme.Shares (Vec w n)} {a : Vec w n} (hx : OpensE binary x a) :
    Computes corr (fun p => openShares binary p (x p)) fun value => ∀ p, value p = a := by
  have hopen := (opensE_iff 0).mp hx
  cases binary with
  | false =>
      exact Computes.of_runs fun tape hcorr =>
        ⟨_, tape, runs_uncheckedOpenA x tape, hcorr, fun _ => hopen⟩
  | true =>
      exact Computes.of_runs fun tape hcorr =>
        ⟨_, tape, runs_uncheckedOpenB x tape, hcorr, fun _ => hopen⟩

end Beaver2PC

namespace Replicated3PC

variable {w n : ℕ} {Source : Type}

def publicShare (partyID : Fin 3) (x : Vec w n) : EVec scheme w n :=
  ![if partyID = 0 then x else 0, if partyID + 1 = 0 then x else 0]

def openShares (binary : Bool) (partyID : Fin 3) (shares : EVec scheme w n) :
    Proc (Fin 3) Source (BitVec w) (Vec w n) := do
  let shares3 ← exchangeShares partyID (shares 1) 2 1
  pure (Vec.plus binary (Vec.plus binary (shares 0) (shares 1)) shares3)

theorem publicShare_opens (binary : Bool) (a : Vec w n) :
    OpensE binary (fun p => publicShare p a) a := by
  have hdeal : (fun p => publicShare p a) =
      (Scheme.deal (fun i => if i = 0 then a else 0) : scheme.Shares (Vec w n)) := (deal_eq _).symm
  rw [hdeal]
  exact ⟨⟨_, rfl⟩, (reconstruct_deal _ _).trans (combine_publicPart binary 0 a)⟩

theorem computes_openShares [DecidableEq Source] {corr : (Fin 3 → Source → ℕ → BitVec w) → Prop}
    {binary : Bool} {x : scheme.Shares (Vec w n)} {a : Vec w n} (hx : OpensE binary x a) :
    Computes corr (fun p => openShares binary p (x p)) fun value => ∀ p, value p = a := by
  obtain ⟨⟨z, rfl⟩, rfl⟩ := hx
  refine Computes.of_runs fun tape hcorr => ⟨_, tape,
    (runs_exchangeShares (fun p => (Scheme.deal z : scheme.Shares (Vec w n)) p 1) 2 1 rfl tape).bind
      (Runs.pure _ _), hcorr, fun p => ?_⟩
  rw [reconstruct_deal, combine_three, deal_eq]
  show Vec.plus binary (Vec.plus binary (z p) (z (p + 1))) (z (p + 1 + 1)) = _
  fin_cases p
  · rfl
  · show Vec.plus binary (Vec.plus binary (z 1) (z 2)) (z 0) = _
    ac_rfl
  · show Vec.plus binary (Vec.plus binary (z 2) (z 0)) (z 1) = _
    ac_rfl

end Replicated3PC

namespace Fantastic4PC

variable {w n : ℕ}

def publicShare (partyID : Fin 4) (x : Vec w n) : EVec scheme w n :=
  if partyID ≠ 0 then Function.update (fun _ => 0) (abs2sh partyID 0) x else fun _ => 0

def openSharesE (binary : Bool) (partyID : Fin 4) (shares : EVec scheme w n) :
    Program w (Vec w n) :=
  if binary then uncheckedOpenB partyID shares else uncheckedOpenA partyID shares

theorem publicShare_opens (binary : Bool) (a : Vec w n) :
    OpensE binary (fun p => publicShare p a) a := by
  have hdeal : (fun p => publicShare p a) =
      (Scheme.deal (fun i => if i = 0 then a else 0) : scheme.Shares (Vec w n)) := by
    ext p r
    by_cases hp : p = 0
    · have hne := held_ne p r
      rw [hp] at hne
      simp only [publicShare, hp, ne_eq, not_true, if_false, Scheme.deal, if_neg hne]
    · simp only [publicShare, ne_eq, hp, not_false_eq_true, if_true, update_abs2sh (Ne.symm hp),
        Scheme.deal]
  rw [hdeal]
  exact ⟨⟨_, rfl⟩, (reconstruct_deal _ _).trans (combine_publicPart binary 0 a)⟩

theorem computes_openSharesE {corr : (Fin 4 → Fantastic4PC.Source → ℕ → BitVec w) → Prop}
    {binary : Bool} {x : scheme.Shares (Vec w n)} {a : Vec w n} (hx : OpensE binary x a) :
    Computes corr (fun p => openSharesE binary p (x p)) fun value => ∀ p, value p = a := by
  obtain ⟨⟨z, rfl⟩, rfl⟩ := hx
  cases binary with
  | false =>
      exact Computes.of_runs fun tape hcorr => ⟨_, tape,
        (runs_openShares z tape).bind (Runs.pure _ _), hcorr,
        fun p => @combine_received w n (fun u v => u + v) _ _ z p⟩
  | true =>
      exact Computes.of_runs fun tape hcorr => ⟨_, tape,
        (runs_openShares z tape).bind (Runs.pure _ _), hcorr,
        fun p => @combine_received w n (fun u v => u ^^^ v) _ _ z p⟩

end Fantastic4PC

abbrev beaver2PCShuffler (w : ℕ) : Shuffler Beaver2PC.scheme w where
  Source := Beaver2PC.Source
  correlated := fun _ => True
  ShardedPerm := fun binary n => Beaver2PC.DMShardedPermutation w n binary
  shuffle := Beaver2PC.DMShardedPermutation.composed
  applyShardedPerm := fun p x pi => Beaver2PC.dmObliviousApplyShardedPerm p x pi
  applyInverseShardedPerm := fun p x pi => Beaver2PC.dmObliviousApplyInverseShardedPerm p x pi
  openShares := fun binary _ => Beaver2PC.openShares binary
  publicShare := Beaver2PC.publicShare
  apply_computes := fun hx pi => Beaver2PC.computes_dmApply hx pi
  applyInverse_computes := fun hx pi => Beaver2PC.computes_dmApplyInverse hx pi
  open_computes := Beaver2PC.computes_openShares
  publicShare_opens := fun binary _ a => Beaver2PC.publicShare_opens binary a

abbrev replicated3PCShuffler (w : ℕ) : Shuffler Replicated3PC.scheme w where
  Source := Group 2
  correlated := GroupCorrelated
  ShardedPerm := fun _ n => HMShardedPermutation 2 n
  shuffle := fun pi => ResharingProtocol.composed pi Replicated3PC.getGroups
  applyShardedPerm := fun {binary} _ p x pi =>
    (replicated3PCResharing w).hmObliviousApplyShardedPerm p x pi binary
  applyInverseShardedPerm := fun {binary} _ p x pi =>
    (replicated3PCResharing w).hmObliviousApplyInverseShardedPerm p x pi binary
  openShares := fun binary _ => Replicated3PC.openShares binary
  publicShare := Replicated3PC.publicShare
  apply_computes := fun hx pi =>
    ResharingProtocol.computes_apply (P := replicated3PCResharing w) hx pi
  applyInverse_computes := fun hx pi =>
    ResharingProtocol.computes_applyInverse (P := replicated3PCResharing w) hx pi
  open_computes := Replicated3PC.computes_openShares
  publicShare_opens := fun binary _ a => Replicated3PC.publicShare_opens binary a

abbrev fantastic4PCShuffler (w : ℕ) : Shuffler Fantastic4PC.scheme w where
  Source := Fantastic4PC.Source ⊕ Group 3
  correlated := Fantastic4PC.GroupsCorrelated
  ShardedPerm := fun _ n => HMShardedPermutation 3 n
  shuffle := fun pi => ResharingProtocol.composed pi Fantastic4PC.getGroups
  applyShardedPerm := fun {binary} _ p x pi =>
    (fantastic4PCResharing w).hmObliviousApplyShardedPerm p x pi binary
  applyInverseShardedPerm := fun {binary} _ p x pi =>
    (fantastic4PCResharing w).hmObliviousApplyInverseShardedPerm p x pi binary
  openShares := fun binary _ p shares =>
    (Fantastic4PC.openSharesE binary p shares).embed Embedding.firstSource
  publicShare := Fantastic4PC.publicShare
  apply_computes := fun hx pi =>
    ResharingProtocol.computes_apply (P := fantastic4PCResharing w) hx pi
  applyInverse_computes := fun hx pi =>
    ResharingProtocol.computes_applyInverse (P := fantastic4PCResharing w) hx pi
  open_computes := fun hx => (Fantastic4PC.computes_openSharesE hx).embed Fantastic4PC.firstSource_respects
  publicShare_opens := fun binary _ a => Fantastic4PC.publicShare_opens binary a

namespace ProtocolName

abbrev scheme : ProtocolName → Scheme
  | beaver2PC _ => Beaver2PC.scheme
  | replicated3PC => Replicated3PC.scheme
  | fantastic4PC => Fantastic4PC.scheme

abbrev shuffler (w : ℕ) : (name : ProtocolName) → Shuffler name.scheme w
  | beaver2PC _ => beaver2PCShuffler w
  | replicated3PC => replicated3PCShuffler w
  | fantastic4PC => fantastic4PCShuffler w

end ProtocolName

namespace ElementwisePermutation

variable {n : ℕ} {v : ElementwisePermutation n} {σ : Equiv.Perm (Fin n)}

/-- The elements, as signed integers, are the destinations of `σ`. -/
def IsPermutation (v : ElementwisePermutation n) (σ : Equiv.Perm (Fin n)) : Prop :=
  ∀ i, (v i).toInt = (σ i).val

/-- More elements than 31 bits can count have no elementwise permutation. -/
theorem IsPermutation.size_le (hv : IsPermutation v σ) : n ≤ 2 ^ 31 := by
  rcases Nat.eq_zero_or_pos n with hn | hn
  · omega
  · let last : Fin n := ⟨n - 1, by omega⟩
    have hlast := hv (σ.symm last)
    rw [Equiv.apply_symm_apply] at hlast
    have hlt : (v (σ.symm last)).toInt < 2 ^ 31 := BitVec.toInt_lt
    have hval : (last.val : ℤ) = n - 1 := by
      show ((n - 1 : ℕ) : ℤ) = n - 1
      omega
    omega

theorem IsPermutation.eq_ofPerm (hv : IsPermutation v σ) : v = ofPerm σ := by
  ext i
  have hi : v i = BitVec.ofInt 32 (σ i).val := by rw [← hv i, BitVec.ofInt_toInt]
  rw [hi, ofPerm, BitVec.ofInt_natCast]

theorem isPermutation_ofPerm (hn : n ≤ 2 ^ 31) (σ : Equiv.Perm (Fin n)) :
    IsPermutation (ofPerm σ) σ := by
  intro i
  have hi := (σ i).isLt
  have hnat := toNat_ofPerm hn σ i
  rw [BitVec.toInt_eq_toNat_of_lt (by omega), hnat]

end ElementwisePermutation

namespace Shuffler

open ElementwisePermutation

variable {S : Scheme} {w n : ℕ} (X : Shuffler S w) (Q : Shuffler S 32)

/-- Programs on vectors of `w` bits and on permutations. -/
abbrev Program (β : Type) := Proc S.Party (X.Source ⊕ Q.Source) (BitVec w ⊕ BitVec 32) β

abbrev Correlated (tape : S.Party → X.Source ⊕ Q.Source → ℕ → BitVec w ⊕ BitVec 32) : Prop :=
  BothCorrelated X.correlated Q.correlated tape

/-- The vector, and the permutation, of which only a copy is shuffled. -/
def obliviousApplyElementwisePerm {bx bp : Bool} (partyID : S.Party) (x : EVec S w n)
    (perm : EVec S 32 n) (pi1 : X.ShardedPerm bx n) (pi2 : Q.ShardedPerm bp n) :
    Program X Q (EVec S w n × EVec S 32 n) := do
  let permutation := perm
  let x ← (X.applyShardedPerm partyID x pi1).embed Embedding.left
  let permutation ← (Q.applyShardedPerm partyID permutation pi2).embed Embedding.right
  let piPerm ← (Q.openShares bp partyID permutation).embed Embedding.right
  pure (fun r => ElementwisePermutation.localApplyPerm (x r) piPerm, perm)

/-- What `sigma` and `rho` are afterwards; the composition is `rho`. -/
def composePermutations {b : Bool} (partyID : S.Party) (sigma rho : EVec S 32 n)
    (pi : Q.ShardedPerm b n) : Proc S.Party Q.Source (BitVec 32) (EVec S 32 n × EVec S 32 n) := do
  let sigma ← Q.applyShardedPerm partyID sigma pi
  let piSigma ← Q.openShares b partyID sigma
  let rho : EVec S 32 n := fun r => ElementwisePermutation.localApplyInversePerm (rho r) piSigma
  let rho ← Q.applyInverseShardedPerm partyID rho pi
  pure (sigma, rho)

def invert {b : Bool} (partyID : S.Party) (this : EVec S 32 n) (pi1 pi2 : Q.ShardedPerm b n) :
    Program Q Q (EVec S 32 n) := do
  let inverse := Q.publicShare partyID (identity n)
  let (inverse, _) ← obliviousApplyElementwisePerm Q Q partyID inverse this pi1 pi2
  pure inverse

variable {X Q} {bx bp : Bool} {x : S.Shares (Vec w n)} {a : Vec w n} {s r : S.Shares (Vec 32 n)}
  {v u : ElementwisePermutation n} {σ ρ : Equiv.Perm (Fin n)}

theorem localApplyPerm_opens {x : S.Shares (Vec w n)} (hx : OpensE bx x a) (hn : n ≤ 2 ^ 31)
    (τ : Equiv.Perm (Fin n)) :
    OpensE bx (fun p r => ElementwisePermutation.localApplyPerm (x p r) (ofPerm τ))
      (rearrange τ a) := by
  simp only [localApplyPerm_ofPerm hn]
  exact hx.map (rearrange τ) (ResharingProtocol.rearrange_plus bx τ)

theorem computes_obliviousApply (hx : OpensE bx x a) (hs : OpensE bp s v)
    (hσ : IsPermutation v σ) {pi1 : X.ShardedPerm bx n} {pi2 : Q.ShardedPerm bp n}
    (hpair : X.shuffle pi1 = Q.shuffle pi2) :
    Computes (Correlated X Q)
      (fun p => obliviousApplyElementwisePerm X Q p (x p) (s p) pi1 pi2)
      fun y => OpensE bx (fun p => (y p).1) (rearrange σ a) ∧ OpensE bp (fun p => (y p).2) v := by
  have hn := hσ.size_le
  refine ((X.apply_computes hx pi1).embed Embedding.left_respects).bind fun x' hx' => ?_
  refine ((Q.apply_computes hs pi2).embed Embedding.right_respects).bind fun s' hs' => ?_
  refine ((Q.open_computes hs').embed Embedding.right_respects).bind fun value hvalue => ?_
  refine Computes.pure ⟨?_, hs⟩
  have hopened : ∀ p, value p = ofPerm ((Q.shuffle pi2).symm.trans σ) := by
    intro p
    rw [hvalue p, hσ.eq_ofPerm, rearrange_ofPerm]
  simp only [hopened]
  have hresult := localApplyPerm_opens hx' hn ((Q.shuffle pi2).symm.trans σ)
  rw [rearrange_rearrange, hpair, ← Equiv.trans_assoc, Equiv.self_trans_symm,
    Equiv.refl_trans] at hresult
  exact hresult

theorem computes_composePermutations (hs : OpensE bp s v) (hσ : IsPermutation v σ)
    (hr : OpensE bp r u) (hρ : IsPermutation u ρ) (pi : Q.ShardedPerm bp n) :
    Computes Q.correlated (fun p => composePermutations Q p (s p) (r p) pi)
      fun y => OpensE bp (fun p => (y p).2) (ofPerm (σ.trans ρ)) := by
  have hn := hσ.size_le
  refine (Q.apply_computes hs pi).bind fun s' hs' => ?_
  refine (Q.open_computes hs').bind fun value hvalue => ?_
  have hopened : ∀ p, value p = ofPerm ((Q.shuffle pi).symm.trans σ) := by
    intro p
    rw [hvalue p, hσ.eq_ofPerm, rearrange_ofPerm]
  simp only [hopened, localApplyInversePerm_ofPerm hn]
  have hlocal : OpensE bp (fun p q => rearrange ((Q.shuffle pi).symm.trans σ).symm (r p q))
      (rearrange ((Q.shuffle pi).symm.trans σ).symm u) :=
    hr.map _ (ResharingProtocol.rearrange_plus bp _)
  refine (Q.applyInverse_computes hlocal pi).bind fun r' hr' => Computes.pure ?_
  rw [rearrange_rearrange, hρ.eq_ofPerm, rearrange_ofPerm] at hr'
  have hcancel : ((((Q.shuffle pi).symm.trans σ).symm.trans (Q.shuffle pi).symm).symm.trans ρ) =
      σ.trans ρ := by
    ext i
    simp
  rw [hcancel] at hr'
  exact hr'

theorem computes_invert (hs : OpensE bp s v) (hσ : IsPermutation v σ)
    {pi1 pi2 : Q.ShardedPerm bp n} (hpair : Q.shuffle pi1 = Q.shuffle pi2) :
    Computes (Correlated Q Q) (fun p => invert Q p (s p) pi1 pi2)
      fun y => OpensE bp y (ofPerm σ.symm) := by
  refine (computes_obliviousApply (Q.publicShare_opens bp (identity n)) hs hσ hpair).bind
    fun y hy => Computes.pure ?_
  exact hy.1

end Shuffler

/-- Applying a shared permutation sends element `i` to position `σ i` and leaves the permutation as
it was; composing and inverting do on the opened permutations what their names say, whatever the
shuffles are; and applying two permutations in turn is applying their composition. -/
theorem elementwisePermutation_algebra (name : ProtocolName) {w n : ℕ} {bx bp : Bool}
    {x : name.scheme.Shares (Vec w n)} {a : Vec w n} {s r : name.scheme.Shares (Vec 32 n)}
    {v u : ElementwisePermutation n} {σ ρ : Equiv.Perm (Fin n)} (hx : OpensE bx x a)
    (hs : OpensE bp s v) (hσ : ElementwisePermutation.IsPermutation v σ) (hr : OpensE bp r u)
    (hρ : ElementwisePermutation.IsPermutation u ρ) :
    let X := name.shuffler w
    let Q := name.shuffler 32
    (∀ (pi1 : X.ShardedPerm bx n) (pi2 : Q.ShardedPerm bp n), X.shuffle pi1 = Q.shuffle pi2 →
      Computes (Shuffler.Correlated X Q)
        (fun p => X.obliviousApplyElementwisePerm Q p (x p) (s p) pi1 pi2)
        fun y => (∃ b, OpensE bx (fun p => (y p).1) b ∧ ∀ i, b (σ i) = a i) ∧
          OpensE bp (fun p => (y p).2) v) ∧
    (∀ pi : Q.ShardedPerm bp n,
      Computes Q.correlated (fun p => Q.composePermutations p (s p) (r p) pi)
        fun y => ∃ c, OpensE bp (fun p => (y p).2) c ∧
          ElementwisePermutation.IsPermutation c (σ.trans ρ)) ∧
    (∀ pi1 pi2 : Q.ShardedPerm bp n, Q.shuffle pi1 = Q.shuffle pi2 →
      Computes (Shuffler.Correlated Q Q) (fun p => Q.invert p (s p) pi1 pi2)
        fun y => ∃ c, OpensE bp y c ∧ ElementwisePermutation.IsPermutation c σ.symm) ∧
    ∀ (pi1 pi3 pi5 : X.ShardedPerm bx n) (pi2 pi4 pi6 pi : Q.ShardedPerm bp n),
      X.shuffle pi1 = Q.shuffle pi2 → X.shuffle pi3 = Q.shuffle pi4 →
      X.shuffle pi5 = Q.shuffle pi6 → ∃ b,
        Computes (Shuffler.Correlated X Q)
          (fun p => X.obliviousApplyElementwisePerm Q p (x p) (s p) pi1 pi2 >>= fun y =>
            X.obliviousApplyElementwisePerm Q p y.1 (r p) pi3 pi4)
          (fun z => OpensE bx (fun p => (z p).1) b) ∧
        Computes (Shuffler.Correlated X Q)
          (fun p => (Q.composePermutations p (s p) (r p) pi).embed Embedding.right >>= fun y =>
            X.obliviousApplyElementwisePerm Q p (x p) y.2 pi5 pi6)
          (fun z => OpensE bx (fun p => (z p).1) b) := by
  intro X Q
  have hn := hσ.size_le
  refine ⟨fun pi1 pi2 hpair => ?_, fun pi => ?_, fun pi1 pi2 hpair => ?_, ?_⟩
  · refine (Shuffler.computes_obliviousApply hx hs hσ hpair).mono fun y hy => ⟨⟨_, hy.1, ?_⟩, hy.2⟩
    exact fun i => rearrange_apply σ a i
  · refine (Shuffler.computes_composePermutations hs hσ hr hρ pi).mono fun y hy => ⟨_, hy, ?_⟩
    exact ElementwisePermutation.isPermutation_ofPerm hn _
  · refine (Shuffler.computes_invert hs hσ hpair).mono fun y hy => ⟨_, hy, ?_⟩
    exact ElementwisePermutation.isPermutation_ofPerm hn _
  · intro pi1 pi3 pi5 pi2 pi4 pi6 pi h12 h34 h56
    refine ⟨rearrange (σ.trans ρ) a, ?_, ?_⟩
    · refine (Shuffler.computes_obliviousApply hx hs hσ h12).bind fun y hy => ?_
      exact (Shuffler.computes_obliviousApply hy.1 hr hρ h34).mono fun z hz => hz.1
    · refine ((Shuffler.computes_composePermutations hs hσ hr hρ pi).embed
        Embedding.right_respects).bind fun y hy => ?_
      exact (Shuffler.computes_obliviousApply hx hy
        (ElementwisePermutation.isPermutation_ofPerm hn _) h56).mono fun z hz => hz.1

section Example

/-- The two elements are swapped. -/
def exampleSwap : Equiv.Perm (Fin 2) := Equiv.swap 0 1

def examplePerm : Beaver2PC.scheme.Shares (Vec 32 2) :=
  fun p => Beaver2PC.publicShare p (ElementwisePermutation.ofPerm exampleSwap)

def exampleVector : Beaver2PC.scheme.Shares (Vec 8 2) := fun p => Beaver2PC.publicShare p ![5, 7]

/-- A mask of `w` bits, from the vectors both parties have drawn. -/
def exampleMask (w : ℕ) : Beaver2PC.DMShardedPermutation w 2 true :=
  Beaver2PC.DMShardedPermutation.getNextImpl (by decide) ![exampleSwap, Equiv.refl _] ![![3, 1], ![4, 1]]
    ![![5, 9], ![2, 6]]

theorem exampleSwap_isPermutation :
    ElementwisePermutation.IsPermutation (ElementwisePermutation.ofPerm exampleSwap) exampleSwap :=
  ElementwisePermutation.isPermutation_ofPerm (by decide) exampleSwap

theorem elementwisePermutation_algebra_example :
    Computes (Shuffler.Correlated (beaver2PCShuffler 8) (beaver2PCShuffler 32))
      (fun p => (beaver2PCShuffler 8).obliviousApplyElementwisePerm (beaver2PCShuffler 32) p
        (exampleVector p) (examplePerm p) (exampleMask 8) (exampleMask 32))
      fun y => (∃ b, OpensE true (fun p => (y p).1) b ∧ ∀ i, b (exampleSwap i) = ![5, 7] i) ∧
        OpensE true (fun p => (y p).2) (ElementwisePermutation.ofPerm exampleSwap) :=
  (elementwisePermutation_algebra (.beaver2PC false) (Beaver2PC.publicShare_opens true _)
    (Beaver2PC.publicShare_opens true _) exampleSwap_isPermutation
    (Beaver2PC.publicShare_opens true _) exampleSwap_isPermutation).1 _ _ rfl

end Example

end CryptDough
