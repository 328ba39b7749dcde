import CryptDough.Beaver2PC
import CryptDough.HonestMajorityShuffle

/-! Sharded permutations of two parties: each of them in turn permutes the sharing with a local
permutation the other one does not know, masked with a permutation correlation. -/

namespace CryptDough.Beaver2PC

open Process Sharing Communicator StableSort

/-- One party's part of the correlations: as the sender it uses `pi` and `C`, as the receiver `A` and
`B`. -/
structure DMTuple (w n : ℕ) where
  pi : LocalPermutation n
  A : Vec w n
  B : Vec w n
  C : Vec w n

/-- The tuples of both parties, in the encoding of what they mask. A permutation is kept as a vector of
`int`s. -/
structure DMShardedPermutation (w n : ℕ) (binary : Bool) where
  getTuple : Fin 2 → DMTuple w n
  index_int : n ≤ 2 ^ 31
  correlated : ∀ sender, rearrange (getTuple sender).pi (getTuple (sender + 1)).A =
    Vec.plus binary (getTuple (sender + 1)).B (getTuple sender).C

variable {w n : ℕ} {Source : Type}

/-- `static_cast` of every element to a type that is no wider. -/
def dmPermConvertType (w' : ℕ) (perm : DMTuple w n) : DMTuple w' n :=
  ⟨perm.pi, fun i => (perm.A i).setWidth w', fun i => (perm.B i).setWidth w',
    fun i => (perm.C i).setWidth w'⟩

namespace DMShardedPermutation

/-- The correlation of the dummy generator, from the vectors both parties draw alike. -/
def getNextImpl (hn : n ≤ 2 ^ 31) (pi : Fin 2 → LocalPermutation n) (A B : Fin 2 → Vec w n) :
    DMShardedPermutation w n true where
  index_int := hn
  getTuple := fun rank =>
    ⟨pi rank, A (rank + 1), B (rank + 1), localApplyPerm (A rank) (pi rank) ^^^ B rank⟩
  correlated := by
    intro sender
    have hback : sender + 1 + 1 = sender := by
      revert sender
      decide
    rw [hback, localApplyPerm_eq]
    exact (Vec.plus_minus true (B sender) _).symm

/-- The converted tuples of both parties. -/
def convertType {binary : Bool} {w' : ℕ} (hw : w' ≤ w) (perm : DMShardedPermutation w n binary) :
    DMShardedPermutation w' n binary where
  getTuple := fun rank => dmPermConvertType w' (perm.getTuple rank)
  index_int := perm.index_int
  correlated := by
    intro sender
    funext i
    have hi := congrArg (BitVec.setWidth w') (congrFun (perm.correlated sender) i)
    cases binary with
    | false => exact hi.trans (BitVec.setWidth_add _ _ hw)
    | true => exact hi.trans BitVec.setWidth_xor

/-- `B` and `C` are converted to an arithmetic sharing of what they share. -/
def convertB2a (perm : DMShardedPermutation w n true) (B C : Fin 2 → Vec w n)
    (hb2a : ∀ sender, B (sender + 1) + C sender =
      (perm.getTuple (sender + 1)).B ^^^ (perm.getTuple sender).C) :
    DMShardedPermutation w n false where
  getTuple := fun rank => ⟨(perm.getTuple rank).pi, (perm.getTuple rank).A, B rank, C rank⟩
  index_int := perm.index_int
  correlated := fun sender => (perm.correlated sender).trans (hb2a sender).symm

end DMShardedPermutation

def permuteAndShare (partyID : Fin 2) (x : EVec scheme w n) (perm : DMTuple w n) (binary : Bool)
    (sendParty : Fin 2) : Proc (Fin 2) Source (BitVec w) (EVec scheme w n) :=
  if partyID = sendParty then do
    let delta ← receiveShares partyID 1 n
    let delta := Vec.plus binary (localApplyPerm delta perm.pi) perm.C
    pure fun r => Vec.plus binary (localApplyPerm (x r) perm.pi) delta
  else do
    sendShares partyID 1 (Vec.minus binary (x 0) perm.A)
    pure fun _ => perm.B

def permuteAndShareInverse (partyID : Fin 2) (x : EVec scheme w n) (perm : DMTuple w n)
    (binary : Bool) (sendParty : Fin 2) : Proc (Fin 2) Source (BitVec w) (EVec scheme w n) :=
  if partyID = sendParty then do
    let delta ← receiveShares partyID 1 n
    let delta := localApplyInversePerm (Vec.minus binary delta perm.C) perm.pi
    pure fun r => Vec.plus binary (localApplyInversePerm (x r) perm.pi) delta
  else do
    sendShares partyID 1 (Vec.minus binary (x 0) perm.B)
    pure fun _ => perm.A

def dmObliviousApplyShardedPerm (partyID : Fin 2) (x : EVec scheme w n) {binary : Bool}
    (permutation : DMShardedPermutation w n binary) :
    Proc (Fin 2) Source (BitVec w) (EVec scheme w n) := do
  let x ← permuteAndShare partyID x (permutation.getTuple partyID) binary 0
  permuteAndShare partyID x (permutation.getTuple partyID) binary 1

def dmObliviousApplyInverseShardedPerm (partyID : Fin 2) (x : EVec scheme w n) {binary : Bool}
    (permutation : DMShardedPermutation w n binary) :
    Proc (Fin 2) Source (BitVec w) (EVec scheme w n) := do
  let x ← permuteAndShareInverse partyID x (permutation.getTuple partyID) binary 1
  permuteAndShareInverse partyID x (permutation.getTuple partyID) binary 0

/-- Which of the two shares comes first does not matter. -/
theorem opensE_iff {binary : Bool} {x : scheme.Shares (Vec w n)} {a : Vec w n} (s : Fin 2) :
    OpensE binary x a ↔ Vec.plus binary (x s 0) (x (s + 1) 0) = a := by
  apply opens_iff.trans
  fin_cases s
  · rfl
  · rw [Vec.plus_comm binary (x 0 0)]
    rfl

/-- The other one of two parties. -/
theorem other (s : Fin 2) : s + 1 ≠ s ∧ s + 1 + 1 = s := by
  revert s
  decide

theorem eq_other {p s : Fin 2} (hne : p ≠ s) : p = s + 1 := by
  revert p s
  decide

section Masks

variable {D : Type} {op : D → D → D} [Std.Commutative op] [Std.Associative op] {f : D → D}

/-- What is left of the masks once both parties add up their shares. -/
theorem unmask (hf : ∀ a b, f (op a b) = op (f a) (f b)) {x y delta A B C : D}
    (hdelta : op A delta = y) (hcorr : f A = op B C) :
    op (op (f x) (op (f delta) C)) B = f (op x y) := by
  calc op (op (f x) (op (f delta) C)) B = op (f x) (op (op B C) (f delta)) := by ac_rfl
    _ = op (f x) (op (f A) (f delta)) := by rw [hcorr]
    _ = op (f x) (f y) := by rw [← hf, hdelta]
    _ = f (op x y) := (hf x y).symm

theorem unmask_inverse (hf : ∀ a b, f (op a b) = op (f a) (f b)) {x y delta delta' A B C : D}
    (hdelta : op B delta = y) (hdelta' : op C delta' = delta) (hcorr : A = f (op B C)) :
    op (op (f x) (f delta')) A = f (op x y) := by
  calc op (op (f x) (f delta')) A = op (f x) (op (f (op B C)) (f delta')) := by rw [hcorr]; ac_rfl
    _ = op (f x) (f (op (op B C) delta')) := by rw [hf (op B C)]
    _ = op (f x) (f (op B (op C delta'))) := by
        have hassoc : op (op B C) delta' = op B (op C delta') := Std.Associative.assoc B C delta'
        rw [hassoc]
    _ = op (f x) (f y) := by rw [hdelta', hdelta]
    _ = f (op x y) := (hf x y).symm

end Masks

section OneWay

variable [DecidableEq Source]

/-- One party sends a vector and keeps another, the other one takes it and makes its share of it. -/
def oneWay (s : Fin 2) (delta : Vec w n) (result : Vec w n → EVec scheme w n)
    (kept : EVec scheme w n) (partyID : Fin 2) : Proc (Fin 2) Source (BitVec w) (EVec scheme w n) :=
  if partyID = s then do
    let received ← receiveShares partyID 1 n
    pure (result received)
  else do
    sendShares partyID 1 delta
    pure kept

theorem runs_oneWay (s : Fin 2) (delta : Vec w n) (result : Vec w n → EVec scheme w n)
    (kept : EVec scheme w n) (tape : Fin 2 → Source → ℕ → BitVec w) :
    Runs (oneWay s delta result kept) tape (fun p => if p = s then result delta else kept) tape := by
  obtain ⟨hne, hback⟩ := other s
  have htransfer := (runs_transfer hne delta (fun _ => 0) tape).map
    fun p received => if p = s then result received else kept
  convert htransfer using 1
  · ext p
    by_cases hp : p = s
    · subst hp
      simp only [oneWay, if_true, if_neg hne.symm]
      rfl
    · obtain rfl := eq_other hp
      simp only [oneWay, if_true, if_neg hp]
      show Proc.send (s + 1 + 1) n delta _ = Proc.send s n delta _
      rw [hback]
      rfl
  · ext p
    by_cases hp : p = s
    · simp only [hp, if_true]
    · simp only [hp, if_false]

theorem computes_oneWay {corr : (Fin 2 → Source → ℕ → BitVec w) → Prop} {s : Fin 2}
    {delta : Vec w n} {result : Vec w n → EVec scheme w n} {kept : EVec scheme w n} {binary : Bool}
    {a : Vec w n} (ha : Vec.plus binary (result delta 0) (kept 0) = a) :
    Computes corr (oneWay s delta result kept) fun y : scheme.Shares (Vec w n) =>
      OpensE binary y a := by
  refine Computes.of_runs fun tape hcorr =>
    ⟨_, tape, runs_oneWay s delta result kept tape, hcorr, (opensE_iff s).mpr ?_⟩
  simp only [if_true, if_neg (other s).1]
  exact ha

variable {corr : (Fin 2 → Source → ℕ → BitVec w) → Prop} {binary : Bool}

theorem computes_permuteAndShare {x : scheme.Shares (Vec w n)} {a : Vec w n}
    (hx : OpensE binary x a) (permutation : DMShardedPermutation w n binary) (s : Fin 2) :
    Computes corr (fun p => permuteAndShare p (x p) (permutation.getTuple p) binary s)
      fun y : scheme.Shares (Vec w n) =>
        OpensE binary y (rearrange (permutation.getTuple s).pi a) := by
  have hopen := (opensE_iff s).mp hx
  have hprog : (fun p => permuteAndShare p (x p) (permutation.getTuple p) binary s) =
      (oneWay s (Vec.minus binary (x (s + 1) 0) (permutation.getTuple (s + 1)).A)
        (fun received r => Vec.plus binary (localApplyPerm (x s r) (permutation.getTuple s).pi)
          (Vec.plus binary (localApplyPerm received (permutation.getTuple s).pi)
            (permutation.getTuple s).C)) (fun _ => (permutation.getTuple (s + 1)).B) :
        Fin 2 → Proc (Fin 2) Source (BitVec w) (EVec scheme w n)) := by
    ext p
    by_cases hp : p = s
    · subst hp
      simp only [permuteAndShare, oneWay, if_true]
    · obtain rfl := eq_other hp
      simp only [permuteAndShare, oneWay, if_neg hp]
  rw [hprog]
  apply computes_oneWay
  rw [localApplyPerm_eq, localApplyPerm_eq, ← hopen]
  exact unmask (ResharingProtocol.rearrange_plus binary _) (Vec.plus_minus binary _ _)
    (permutation.correlated s)

theorem computes_permuteAndShareInverse {x : scheme.Shares (Vec w n)} {a : Vec w n}
    (hx : OpensE binary x a) (permutation : DMShardedPermutation w n binary) (s : Fin 2) :
    Computes corr (fun p => permuteAndShareInverse p (x p) (permutation.getTuple p) binary s)
      fun y : scheme.Shares (Vec w n) =>
        OpensE binary y (rearrange (permutation.getTuple s).pi.symm a) := by
  have hopen := (opensE_iff s).mp hx
  have hprog : (fun p => permuteAndShareInverse p (x p) (permutation.getTuple p) binary s) =
      (oneWay s (Vec.minus binary (x (s + 1) 0) (permutation.getTuple (s + 1)).B)
        (fun received r => Vec.plus binary
          (localApplyInversePerm (x s r) (permutation.getTuple s).pi)
          (localApplyInversePerm (Vec.minus binary received (permutation.getTuple s).C)
            (permutation.getTuple s).pi)) (fun _ => (permutation.getTuple (s + 1)).A) :
        Fin 2 → Proc (Fin 2) Source (BitVec w) (EVec scheme w n)) := by
    ext p
    by_cases hp : p = s
    · subst hp
      simp only [permuteAndShareInverse, oneWay, if_true]
    · obtain rfl := eq_other hp
      simp only [permuteAndShareInverse, oneWay, if_neg hp]
  rw [hprog]
  apply computes_oneWay
  rw [localApplyInversePerm_eq, localApplyInversePerm_eq, ← hopen]
  refine unmask_inverse (ResharingProtocol.rearrange_plus binary _) (Vec.plus_minus binary _ _)
    (Vec.plus_minus binary _ _) ?_
  rw [← permutation.correlated s, rearrange_symm_rearrange]

/-- Party 0's permutation, then party 1's. -/
def DMShardedPermutation.composed (permutation : DMShardedPermutation w n binary) :
    LocalPermutation n :=
  (permutation.getTuple 0).pi.trans (permutation.getTuple 1).pi

theorem computes_dmApply {x : scheme.Shares (Vec w n)} {a : Vec w n} (hx : OpensE binary x a)
    (permutation : DMShardedPermutation w n binary) :
    Computes corr (fun p => dmObliviousApplyShardedPerm p (x p) permutation)
      fun y : scheme.Shares (Vec w n) => OpensE binary y (rearrange permutation.composed a) :=
  (computes_permuteAndShare hx permutation 0).bind fun _ hy =>
    computes_permuteAndShare hy permutation 1

theorem computes_dmApplyInverse {x : scheme.Shares (Vec w n)} {a : Vec w n} (hx : OpensE binary x a)
    (permutation : DMShardedPermutation w n binary) :
    Computes corr (fun p => dmObliviousApplyInverseShardedPerm p (x p) permutation)
      fun y : scheme.Shares (Vec w n) => OpensE binary y (rearrange permutation.composed.symm a) :=
  (computes_permuteAndShareInverse hx permutation 1).bind fun _ hy =>
    computes_permuteAndShareInverse hy permutation 0

end OneWay

end CryptDough.Beaver2PC
