import CryptDough.ShareVector
import CryptDough.StableSort

/-! Secret-shared permutations, on opened values. A permutation is a vector of 32-bit destinations;
whatever is opened on the way has been shuffled with a permutation drawn for the purpose. -/

namespace CryptDough

open StableSort

/-- The shuffles the permutation manager hands out: draw number `k`, if it is of size `n`. -/
abbrev Shuffles := ℕ → (n : ℕ) → Equiv.Perm (Fin n)

/-- What a run draws. `shares k v i` is the first party's share of the element `i` of the vector `v`
that the operator number `k` is applied to, for the operators whose result depends on it. -/
structure Drawn where
  shuffles : Shuffles
  shares : ℕ → ℕ → ℕ → (w : ℕ) → BitVec w

instance : Inhabited Drawn := ⟨⟨fun _ _ => Equiv.refl _, fun _ _ _ w => 0#w⟩⟩

/-- Computations that draw; `none` when a loop does not end, or nothing defines the result. -/
abbrev Draws := StateT Drawn Option

namespace Draws

variable {α β : Type}

/-- The mask of `gen_perm` is a shifted `int`: there is none for longer vectors. -/
def getNext (n : ℕ) : Draws (Equiv.Perm (Fin n)) := fun s =>
  if n < 2 ^ 31 then some (s.shuffles 0 n, { s with shuffles := fun k => s.shuffles (k + 1) })
  else none

def nextShares : Draws (ℕ → ℕ → (w : ℕ) → BitVec w) := fun s =>
  some (s.shares 0, { s with shares := fun k => s.shares (k + 1) })

/-- Whatever is drawn, the computation returns, with a value that satisfies `post`. -/
def Returns (prog : Draws β) (post : β → Prop) : Prop :=
  ∀ s, ∃ v s', prog s = some (v, s') ∧ post v

theorem Returns.pure {v : β} {post : β → Prop} (hpost : post v) : Returns (Pure.pure v) post :=
  fun s => ⟨v, s, rfl, hpost⟩

theorem Returns.bind {prog : Draws α} {next : α → Draws β} {mid : α → Prop} {post : β → Prop}
    (hprog : Returns prog mid) (hnext : ∀ v, mid v → Returns (next v) post) :
    Returns (prog >>= next) post := by
  intro s
  obtain ⟨v, s', hv, hmid⟩ := hprog s
  obtain ⟨v', s'', hv', hpost⟩ := hnext v hmid s'
  refine ⟨v', s'', ?_, hpost⟩
  change (prog s >>= fun r => next r.1 r.2) = some (v', s'')
  rw [hv]
  exact hv'

/-- A loop that ended. -/
theorem Returns.lift {result : Option β} {v : β} {post : β → Prop} (hresult : result = some v)
    (hpost : post v) : Returns (liftM result) post := by
  subst hresult
  exact fun s => ⟨v, s, rfl, hpost⟩

theorem Returns.mono {prog : Draws β} {post post' : β → Prop} (hprog : Returns prog post)
    (himp : ∀ v, post v → post' v) : Returns prog post' := by
  intro s
  obtain ⟨v, s', hv, hpost⟩ := hprog s
  exact ⟨v, s', hv, himp v hpost⟩

theorem returns_pure_iff {v : β} {post : β → Prop} : Returns (Pure.pure v) post ↔ post v := by
  refine ⟨fun h => ?_, Returns.pure⟩
  obtain ⟨v', s', hv, hpost⟩ := h default
  obtain ⟨rfl, -⟩ := Prod.mk.inj (Option.some.inj hv)
  exact hpost

/-- What a program needs, its first step needs. -/
theorem Returns.of_bind {prog : Draws α} {next : α → Draws β} {post : β → Prop}
    (hreturns : Returns (prog >>= next) post) : Returns prog fun _ => True := by
  intro s
  obtain ⟨v', s'', hv', -⟩ := hreturns s
  change (prog s >>= fun r => next r.1 r.2) = some (v', s'') at hv'
  obtain ⟨⟨v, s'⟩, hv, -⟩ := Option.bind_eq_some_iff.mp hv'
  exact ⟨v, s', hv, trivial⟩

theorem returns_guard_bind_iff {p : Prop} [Decidable p] {next : Draws β} {post : β → Prop} :
    Returns (guard p >>= fun _ => next) post ↔ p ∧ Returns next post := by
  by_cases hp : p
  · rw [guard, if_pos hp, pure_bind]
    exact ⟨fun h => ⟨hp, h⟩, fun h => h.2⟩
  · refine ⟨fun h => ?_, fun h => absurd h.1 hp⟩
    rw [guard, if_neg hp] at h
    obtain ⟨v, s', hv, -⟩ := h default
    exact absurd hv nofun

theorem returns_getNext {n : ℕ} (hn : n < 2 ^ 31) : Returns (getNext n) fun _ => True :=
  fun s => ⟨s.shuffles 0 n, _, if_pos hn, trivial⟩

/-- Nothing draws a shuffle of a longer vector. -/
theorem Returns.lt_of_getNext {n : ℕ} {post : Equiv.Perm (Fin n) → Prop}
    (hreturns : Returns (getNext n) post) : n < 2 ^ 31 := by
  by_contra hn
  obtain ⟨v, s', hv, -⟩ := hreturns default
  rw [getNext, if_neg hn] at hv
  exact absurd hv nofun

end Draws

/-- A vector of destinations. -/
abbrev ElementwisePermutation (n : ℕ) := Vec 32 n

namespace ElementwisePermutation

variable {n : ℕ} {α : Type}

/-- `newX[permutation[i]] = x[i]`, for one `i` after the other. -/
def localApplyPerm (x : Fin n → α) (permutation : ElementwisePermutation n) : Fin n → α :=
  (List.finRange n).foldl
    (fun newX i => if h : (permutation i).toNat < n then
      Function.update newX ⟨(permutation i).toNat, h⟩ (x i) else newX) x

/-- `newX[i] = x[permutation[i]]`. -/
def localApplyInversePerm (x : Fin n → α) (permutation : ElementwisePermutation n) : Fin n → α :=
  fun i => if h : (permutation i).toNat < n then x ⟨(permutation i).toNat, h⟩ else x i

/-- The vector and the permutation are shuffled alike, and the shuffled permutation is opened. -/
def obliviousApplyElementwisePerm (x : Fin n → α) (perm : ElementwisePermutation n) :
    Draws (Fin n → α) := do
  let pi ← Draws.getNext n
  pure (localApplyPerm (rearrange pi x) (rearrange pi perm))

def composePermutations (sigma rho : ElementwisePermutation n) :
    Draws (ElementwisePermutation n) := do
  let pi ← Draws.getNext n
  let piSigma := rearrange pi sigma
  pure (rearrange pi.symm (localApplyInversePerm rho piSigma))

/-- The destinations `0`, …, `n - 1`. -/
def identity (n : ℕ) : ElementwisePermutation n := fun i => BitVec.ofNat 32 i

def invert (permutation : ElementwisePermutation n) : Draws (ElementwisePermutation n) :=
  obliviousApplyElementwisePerm (identity n) permutation

/-- From a boolean to an arithmetic sharing: directly between two parties, else by opening the
shuffled permutation. -/
def b2a (numParties : ℕ) (permutation : ElementwisePermutation n) :
    Draws (ElementwisePermutation n) :=
  if numParties = 2 then pure permutation
  else do
    let pi ← Draws.getNext n
    let piPerm := rearrange pi permutation
    pure (rearrange pi.symm piPerm)

/-- From the values `-1`, …, `-n` to `0`, …, `n - 1`. -/
def negate (permutation : ElementwisePermutation n) : ElementwisePermutation n :=
  fun i => permutation i * -1 + -1

/-- The destinations of a permutation. -/
def ofPerm (σ : Equiv.Perm (Fin n)) : ElementwisePermutation n := fun i => BitVec.ofNat 32 (σ i)

theorem toNat_ofPerm (hn : n ≤ 2 ^ 31) (σ : Equiv.Perm (Fin n)) (i : Fin n) :
    (ofPerm σ i).toNat = (σ i).val := by
  have hi := (σ i).isLt
  rw [ofPerm, BitVec.toNat_ofNat, Nat.mod_eq_of_lt (by omega)]

theorem rearrange_ofPerm (pi σ : Equiv.Perm (Fin n)) :
    rearrange pi (ofPerm σ) = ofPerm (pi.symm.trans σ) := rfl

/-- The writes to the destinations of `is` are there, and the rest is untouched. -/
theorem foldl_update (σ : Equiv.Perm (Fin n)) (x y : Fin n → α) (is : List (Fin n)) (i : Fin n) :
    (is.foldl (fun newX j => Function.update newX (σ j) (x j)) y) (σ i) =
      if i ∈ is then x i else y (σ i) := by
  induction is generalizing y with
  | nil => simp
  | cons j is ih =>
      rw [List.foldl_cons, ih]
      by_cases hmem : i ∈ is
      · simp [hmem]
      · by_cases hij : i = j
        · simp [hij]
        · simp [hmem, hij]

theorem localApplyPerm_ofPerm (hn : n ≤ 2 ^ 31) (x : Fin n → α) (σ : Equiv.Perm (Fin n)) :
    localApplyPerm x (ofPerm σ) = rearrange σ x := by
  have hwrite : ∀ (newX : Fin n → α) (i : Fin n),
      (if h : (ofPerm σ i).toNat < n then
        Function.update newX ⟨(ofPerm σ i).toNat, h⟩ (x i) else newX) =
      Function.update newX (σ i) (x i) := by
    intro newX i
    have hi : (ofPerm σ i).toNat < n := by
      rw [toNat_ofPerm hn]
      exact (σ i).isLt
    rw [dif_pos hi]
    congr 1
    exact Fin.ext (toNat_ofPerm hn σ i)
  ext k
  obtain ⟨i, rfl⟩ := σ.surjective k
  simp only [localApplyPerm, hwrite]
  rw [foldl_update, rearrange_apply, if_pos (List.mem_finRange i)]

theorem localApplyInversePerm_ofPerm (hn : n ≤ 2 ^ 31) (x : Fin n → α) (σ : Equiv.Perm (Fin n)) :
    localApplyInversePerm x (ofPerm σ) = fun i => x (σ i) := by
  ext i
  have hi : (ofPerm σ i).toNat < n := by
    rw [toNat_ofPerm hn]
    exact (σ i).isLt
  rw [localApplyInversePerm, dif_pos hi]
  exact congrArg x (Fin.ext (toNat_ofPerm hn σ i))

/-- Applying a shared permutation rearranges, whatever shuffle is drawn. -/
theorem returns_obliviousApply (hn : n < 2 ^ 31) (x : Fin n → α) (σ : Equiv.Perm (Fin n)) :
    Draws.Returns (obliviousApplyElementwisePerm x (ofPerm σ)) (· = rearrange σ x) := by
  refine (Draws.returns_getNext hn).bind fun pi _ => Draws.Returns.pure ?_
  rw [rearrange_ofPerm, localApplyPerm_ofPerm hn.le, rearrange_rearrange, ← Equiv.trans_assoc,
    Equiv.self_trans_symm, Equiv.refl_trans]

theorem lt_of_returns_obliviousApply {x : Fin n → α} {perm : ElementwisePermutation n}
    {post : (Fin n → α) → Prop}
    (hreturns : Draws.Returns (obliviousApplyElementwisePerm x perm) post) : n < 2 ^ 31 :=
  hreturns.of_bind.lt_of_getNext

theorem returns_composePermutations (hn : n < 2 ^ 31) (σ τ : Equiv.Perm (Fin n)) :
    Draws.Returns (composePermutations (ofPerm σ) (ofPerm τ)) (· = ofPerm (σ.trans τ)) := by
  refine (Draws.returns_getNext hn).bind fun pi _ => Draws.Returns.pure ?_
  rw [rearrange_ofPerm, localApplyInversePerm_ofPerm hn.le]
  ext i
  simp [rearrange, ofPerm]

theorem returns_invert (hn : n < 2 ^ 31) (σ : Equiv.Perm (Fin n)) :
    Draws.Returns (invert (ofPerm σ)) (· = ofPerm σ.symm) :=
  returns_obliviousApply hn (identity n) σ

theorem returns_b2a (hn : n < 2 ^ 31) (numParties : ℕ) (permutation : ElementwisePermutation n) :
    Draws.Returns (b2a numParties permutation) (· = permutation) := by
  unfold b2a
  split
  · exact Draws.Returns.pure rfl
  · refine (Draws.returns_getNext hn).bind fun pi _ => Draws.Returns.pure ?_
    exact rearrange_symm_rearrange pi permutation

end ElementwisePermutation

end CryptDough
