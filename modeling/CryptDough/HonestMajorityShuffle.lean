import CryptDough.ElementwisePermutation
import CryptDough.ResharingProtocols

/-! Sharded permutations with an honest majority: every group of parties knows one local permutation,
applies it to its shares and reshares the result to the parties outside. -/

namespace CryptDough

open Process Sharing StableSort

section LocalPermutations

variable {n : ℕ} {α : Type}

/-- A vector of destinations that is a permutation. -/
abbrev LocalPermutation (n : ℕ) := Equiv.Perm (Fin n)

/-- `newX[permutation[i]] = x[i]`, for one `i` after the other. -/
def localApplyPerm (x : Fin n → α) (permutation : LocalPermutation n) : Fin n → α :=
  (List.finRange n).foldl (fun newX i => Function.update newX (permutation i) (x i)) x

def localApplyInversePerm (x : Fin n → α) (permutation : LocalPermutation n) : Fin n → α :=
  fun i => x (permutation i)

theorem localApplyPerm_eq (x : Fin n → α) (permutation : LocalPermutation n) :
    localApplyPerm x permutation = rearrange permutation x := by
  ext k
  obtain ⟨i, rfl⟩ := permutation.surjective k
  rw [localApplyPerm, ElementwisePermutation.foldl_update, if_pos (List.mem_finRange i), rearrange_apply]

theorem localApplyInversePerm_eq (x : Fin n → α) (permutation : LocalPermutation n) :
    localApplyInversePerm x permutation = rearrange permutation.symm x := rfl

end LocalPermutations

/-- One local permutation per group. -/
abbrev HMShardedPermutation (last n : ℕ) := Group last → LocalPermutation n

/-- A protocol whose groups reshare: what the members hold becomes a sharing of all parties. -/
structure ResharingProtocol (w : ℕ) where
  scheme : Scheme
  Source : Type
  [decSource : DecidableEq Source]
  correlated : (scheme.Party → Source → ℕ → BitVec w) → Prop
  getGroups : List (Group scheme.last)
  reshare : ∀ {n : ℕ}, scheme.Party → EVec scheme w n → Group scheme.last → Bool →
    Proc scheme.Party Source (BitVec w) (EVec scheme w n)
  reshare_computes : ∀ {n : ℕ} {group : Group scheme.last}, group ∈ getGroups →
    ∀ {x : scheme.Party → Vec w n} {v : scheme.Shares (Vec w n)},
    (∀ p ∈ group, ∀ r, v p r = x (scheme.held p r)) → ∀ binary : Bool,
    Computes correlated (fun p => reshare p (v p) group binary)
      fun y => OpensE binary y (combine (Vec.plus binary) x)
  reconstruct_deal : ∀ {n : ℕ} (binary : Bool) (x : scheme.Party → Vec w n),
    Scheme.reconstruct (Vec.plus binary) (Scheme.deal x : scheme.Shares (Vec w n)) =
      combine (Vec.plus binary) x

attribute [instance] ResharingProtocol.decSource

abbrev replicated3PCResharing (w : ℕ) : ResharingProtocol w where
  scheme := Replicated3PC.scheme
  Source := Group 2
  correlated := GroupCorrelated
  getGroups := Replicated3PC.getGroups
  reshare := Replicated3PC.reshare
  reshare_computes := Replicated3PC.computes_reshare
  reconstruct_deal := fun binary => Replicated3PC.reconstruct_deal (Vec.plus binary)

abbrev fantastic4PCResharing (w : ℕ) : ResharingProtocol w where
  scheme := Fantastic4PC.scheme
  Source := Fantastic4PC.Source ⊕ Group 3
  correlated := Fantastic4PC.GroupsCorrelated
  getGroups := Fantastic4PC.getGroups
  reshare := Fantastic4PC.reshare
  reshare_computes := Fantastic4PC.computes_reshare
  reconstruct_deal := fun binary => Fantastic4PC.reconstruct_deal (Vec.plus binary)

namespace ResharingProtocol

variable {w n : ℕ} (P : ResharingProtocol w)

abbrev Program (β : Type) := Proc P.scheme.Party P.Source (BitVec w) β

/-- The loop over the groups: `step` is what the members do to each of their share vectors. -/
def shuffleLoop (step : Group P.scheme.last → Vec w n → Vec w n) (partyID : P.scheme.Party)
    (binary : Bool) : List (Group P.scheme.last) → EVec P.scheme w n → P.Program (EVec P.scheme w n)
  | [], x => pure x
  | group :: groups, x => do
      let x := if partyID ∈ group then fun r => step group (x r) else x
      let x ← P.reshare partyID x group binary
      shuffleLoop step partyID binary groups x

def hmObliviousApplyShardedPerm (partyID : P.scheme.Party) (x : EVec P.scheme w n)
    (permutation : HMShardedPermutation P.scheme.last n) (binary : Bool) :
    P.Program (EVec P.scheme w n) :=
  P.shuffleLoop (fun group v => localApplyPerm v (permutation group)) partyID binary P.getGroups x

def hmObliviousApplyInverseShardedPerm (partyID : P.scheme.Party) (x : EVec P.scheme w n)
    (permutation : HMShardedPermutation P.scheme.last n) (binary : Bool) :
    P.Program (EVec P.scheme w n) :=
  P.shuffleLoop (fun group v => localApplyInversePerm v (permutation group)) partyID binary
    P.getGroups.reverse x

/-- The permutations of the groups, the first group's first. -/
def composed {last : ℕ} (permutation : HMShardedPermutation last n) :
    List (Group last) → LocalPermutation n
  | [] => Equiv.refl (Fin n)
  | group :: groups => (permutation group).trans (composed permutation groups)

theorem composed_append {last : ℕ} (permutation : HMShardedPermutation last n)
    (groups groups' : List (Group last)) :
    composed permutation (groups ++ groups') =
      (composed permutation groups).trans (composed permutation groups') := by
  induction groups with
  | nil => rfl
  | cons group groups ih => rw [List.cons_append, composed, composed, ih, Equiv.trans_assoc]

theorem composed_symm_reverse {last : ℕ} (permutation : HMShardedPermutation last n)
    (groups : List (Group last)) :
    composed (fun group => (permutation group).symm) groups.reverse =
      (composed permutation groups).symm := by
  induction groups with
  | nil => rfl
  | cons group groups ih =>
      rw [List.reverse_cons, composed_append, ih]
      rfl

theorem rearrange_plus (binary : Bool) (σ : LocalPermutation n) (x y : Vec w n) :
    rearrange σ (Vec.plus binary x y) = Vec.plus binary (rearrange σ x) (rearrange σ y) := by
  cases binary <;> rfl

variable {P}

/-- One group after the other rearranges the opened vector. -/
theorem computes_shuffleLoop (permutation : HMShardedPermutation P.scheme.last n) {binary : Bool}
    {step : Group P.scheme.last → Vec w n → Vec w n}
    (hstep : ∀ group v, step group v = rearrange (permutation group) v)
    {groups : List (Group P.scheme.last)} (hgroups : ∀ group ∈ groups, group ∈ P.getGroups)
    {x : P.scheme.Shares (Vec w n)} {a : Vec w n} (hx : OpensE binary x a) :
    Computes P.correlated (fun p => P.shuffleLoop step p binary groups (x p))
      fun y => OpensE binary y (rearrange (composed permutation groups) a) := by
  induction groups generalizing x a with
  | nil => exact Computes.pure hx
  | cons group groups ih =>
      obtain ⟨⟨parts, rfl⟩, rfl⟩ := hx
      let moved (i : P.scheme.Party) : Vec w n := rearrange (permutation group) (parts i)
      let v : P.scheme.Shares (Vec w n) := fun p =>
        if p ∈ group then fun r => step group (Scheme.deal parts p r) else Scheme.deal parts p
      have hv : ∀ p ∈ group, ∀ r, v p r = moved (P.scheme.held p r) := by
        intro p hp r
        show (if p ∈ group then fun r => step group (Scheme.deal parts p r)
          else Scheme.deal parts p) r = _
        rw [if_pos hp, hstep]
        rfl
      have hmoved : combine (Vec.plus binary) moved =
          rearrange (permutation group) (combine (Vec.plus binary) parts) :=
        combine_map (Vec.plus binary) (rearrange (permutation group))
          (rearrange_plus binary (permutation group)) parts
      refine (P.reshare_computes (hgroups group List.mem_cons_self) hv binary).bind fun y hy => ?_
      rw [hmoved, ← P.reconstruct_deal] at hy
      exact ih (fun g hg => hgroups g (List.mem_cons_of_mem _ hg)) hy

theorem computes_apply {x : P.scheme.Shares (Vec w n)} {a : Vec w n} {binary : Bool}
    (hx : OpensE binary x a) (permutation : HMShardedPermutation P.scheme.last n) :
    Computes P.correlated (fun p => P.hmObliviousApplyShardedPerm p (x p) permutation binary)
      fun y => OpensE binary y (rearrange (composed permutation P.getGroups) a) :=
  computes_shuffleLoop permutation (fun group v => localApplyPerm_eq v (permutation group))
    (fun _ h => h) hx

theorem computes_applyInverse {x : P.scheme.Shares (Vec w n)} {a : Vec w n} {binary : Bool}
    (hx : OpensE binary x a) (permutation : HMShardedPermutation P.scheme.last n) :
    Computes P.correlated (fun p => P.hmObliviousApplyInverseShardedPerm p (x p) permutation binary)
      fun y => OpensE binary y (rearrange (composed permutation P.getGroups).symm a) := by
  rw [← composed_symm_reverse]
  exact computes_shuffleLoop (fun group => (permutation group).symm)
    (fun group v => localApplyInversePerm_eq v (permutation group))
    (fun _ h => List.mem_reverse.mp h) hx

variable (P) in
/-- Applying a sharded permutation keeps the sharing consistent and rearranges the opened vector;
applying the inverse afterwards restores it. -/
def ShufflesCorrectly : Prop :=
  ∀ {n : ℕ} {binary : Bool} {x : P.scheme.Shares (Vec w n)} {a : Vec w n}
    (permutation : HMShardedPermutation P.scheme.last n), OpensE binary x a →
    Computes P.correlated (fun p => P.hmObliviousApplyShardedPerm p (x p) permutation binary)
      (fun y => OpensE binary y (rearrange (composed permutation P.getGroups) a)) ∧
    Computes P.correlated (fun p =>
        P.hmObliviousApplyShardedPerm p (x p) permutation binary >>= fun y =>
          P.hmObliviousApplyInverseShardedPerm p y permutation binary)
      fun z => OpensE binary z a

theorem shufflesCorrectly : P.ShufflesCorrectly := by
  intro n binary x a permutation hx
  refine ⟨computes_apply hx permutation, (computes_apply hx permutation).bind fun y hy => ?_⟩
  refine (computes_applyInverse hy permutation).mono fun z hz => ?_
  rw [rearrange_symm_rearrange] at hz
  exact hz

end ResharingProtocol

/-- Each group exchanges two elements, not all groups the same. -/
def groupSwaps (last : ℕ) : HMShardedPermutation last 4 := fun group =>
  if (Fin.last last).rev ∉ group then Equiv.swap 0 1
  else if Fin.last last ∈ group then Equiv.swap 1 2 else Equiv.swap 2 3

end CryptDough
