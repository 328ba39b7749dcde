import CryptDough.PairwiseNetwork
import CryptDough.PrefixNetwork

/-! The rounds of the sorting network that the code generates. They are the pairwise network, without
the rounds past the end, as long as the next power of two is an `int`. -/

namespace CryptDough

/-- Comparisons start at `startLeft` and `startRight`, in chunks of the size `step`. -/
structure PairwiseRound where
  startLeft : ℕ
  startRight : ℕ
  step : ℕ
deriving DecidableEq

namespace Pairwise

/-- `cmp.reserve(n_pow_2 * (n_pow_2 + 1) / 2)` on `int`; a negative size is refused. -/
def reserve (nPow2 : BitVec 32) : Option Unit := guard (0 ≤ ((nPow2 * (nPow2 + 1)).sdiv 2).toInt)

/-- The loop over `a` of the first half. -/
def firstLoop (n_ nPow2 : ℕ) : (fuel a : ℕ) → Option (List PairwiseRound)
  | 0, _ => none
  | fuel + 1, a =>
      if a < nPow2 then do
        let rounds ← firstLoop n_ nPow2 fuel (a <<< 1)
        pure (if a < n_ then { startLeft := 0, startRight := a, step := a } :: rounds else rounds)
      else some []

/-- The loop over `d`. -/
def mergeLoop (n_ a : ℕ) : (fuel d : ℕ) → Option (List PairwiseRound)
  | 0, _ => none
  | fuel + 1, d =>
      if 0 < d then do
        let startRight := (d + 1) * a
        let rounds ← mergeLoop n_ a fuel (d >>> 1)
        pure (if startRight < n_ then
          { startLeft := a, startRight := startRight, step := a } :: rounds else rounds)
      else some []

/-- The loop over `a` and `e` of the second half. -/
def secondLoop (n_ nPow2 : ℕ) : (fuel a e : ℕ) → Option (List PairwiseRound)
  | 0, _, _ => none
  | fuel + 1, a, e =>
      if 0 < a ∧ e < nPow2 then do
        let merge ← mergeLoop n_ a 64 e
        let rounds ← secondLoop n_ nPow2 fuel (a >>> 1) (2 * e + 1)
        pure (merge ++ rounds)
      else some []

/-- `1 << std::bit_width(n_ - 1)` is an `int`. -/
def pwComparisons (n_ : BitVec 64) : Option (List PairwiseRound) := do
  let nPow2 ← shiftOne (bitWidth (n_ - 1))
  reserve nPow2
  let first ← firstLoop n_.toNat nPow2.toNat 64 1
  let second ← secondLoop n_.toNat nPow2.toNat 64 (nPow2.toNat >>> 2) 1
  pure (first ++ second)

end Pairwise

namespace Pairwise

section Rounds

/-- The rounds of the first half from `2 ^ t` on, and those of a merge and of the second half, before
rounds that start past the end are left out. -/
def firstRounds (t len : ℕ) : List PairwiseRound :=
  (List.range' t len).map fun t => { startLeft := 0, startRight := 2 ^ t, step := 2 ^ t }

def mergeRounds (a : ℕ) : ℕ → List PairwiseRound
  | 0 => []
  | t + 1 => { startLeft := a, startRight := 2 ^ (t + 1) * a, step := a } :: mergeRounds a t

def secondRounds : (i t : ℕ) → List PairwiseRound
  | 0, _ => []
  | i + 1, t => mergeRounds (2 ^ i) t ++ secondRounds i (t + 1)

def allRounds (k : ℕ) : List PairwiseRound := firstRounds 0 k ++ secondRounds (k - 1) 1

/-- The rounds that compare anything. -/
def within (n_ : ℕ) (rounds : List PairwiseRound) : List PairwiseRound :=
  rounds.filter fun c => c.startRight < n_

theorem within_cons (n_ : ℕ) (c : PairwiseRound) (rounds : List PairwiseRound) :
    within n_ (c :: rounds) =
      if c.startRight < n_ then c :: within n_ rounds else within n_ rounds := by
  simp only [within, List.filter_cons, decide_eq_true_eq]

theorem firstLoop_eq (n_ t len : ℕ) {fuel : ℕ} (hfuel : len < fuel) :
    firstLoop n_ (2 ^ (t + len)) fuel (2 ^ t) = some (within n_ (firstRounds t len)) := by
  induction len generalizing t fuel with
  | zero =>
      obtain ⟨fuel, rfl⟩ := Nat.exists_eq_succ_of_ne_zero (by omega : fuel ≠ 0)
      rw [firstLoop, Nat.add_zero, if_neg (lt_irrefl _)]
      rfl
  | succ len ih =>
      obtain ⟨fuel, rfl⟩ := Nat.exists_eq_succ_of_ne_zero (by omega : fuel ≠ 0)
      have hlt : 2 ^ t < 2 ^ (t + (len + 1)) := Nat.pow_lt_pow_right (by omega) (by omega)
      have hnext : 2 ^ t <<< 1 = 2 ^ (t + 1) := by rw [Nat.shiftLeft_eq, pow_one, pow_succ]
      have hsum : t + (len + 1) = t + 1 + len := by omega
      rw [firstLoop, if_pos hlt, hnext, hsum, ih (t + 1) (by omega)]
      have hrounds : firstRounds t (len + 1) =
          { startLeft := 0, startRight := 2 ^ t, step := 2 ^ t } :: firstRounds (t + 1) len := rfl
      rw [hrounds, within_cons]
      rfl

theorem mergeLoop_eq (n_ a t : ℕ) {fuel : ℕ} (hfuel : t < fuel) :
    mergeLoop n_ a fuel (2 ^ t - 1) = some (within n_ (mergeRounds a t)) := by
  induction t generalizing fuel with
  | zero =>
      obtain ⟨fuel, rfl⟩ := Nat.exists_eq_succ_of_ne_zero (by omega : fuel ≠ 0)
      rfl
  | succ t ih =>
      obtain ⟨fuel, rfl⟩ := Nat.exists_eq_succ_of_ne_zero (by omega : fuel ≠ 0)
      have hpos := Nat.two_pow_pos t
      have hpow : 2 ^ (t + 1) = 2 * 2 ^ t := pow_succ' 2 t
      have hhalf : (2 ^ (t + 1) - 1) >>> 1 = 2 ^ t - 1 := by
        rw [Nat.shiftRight_eq_div_pow, pow_one]
        omega
      have hsucc : 2 ^ (t + 1) - 1 + 1 = 2 ^ (t + 1) := by omega
      rw [mergeLoop, if_pos (by omega), hhalf, hsucc, ih (by omega), mergeRounds, within_cons]
      rfl

theorem secondLoop_eq (n_ i t : ℕ) {k fuel : ℕ} (hk : i = 0 ∨ i + t = k) (hfuel : i < fuel)
    (hwidth : i + t < 64) :
    secondLoop n_ (2 ^ k) fuel (2 ^ i >>> 1) (2 ^ t - 1) = some (within n_ (secondRounds i t)) := by
  induction i generalizing t fuel with
  | zero =>
      obtain ⟨fuel, rfl⟩ := Nat.exists_eq_succ_of_ne_zero (by omega : fuel ≠ 0)
      rw [secondLoop, if_neg (by simp)]
      rfl
  | succ i ih =>
      obtain ⟨fuel, rfl⟩ := Nat.exists_eq_succ_of_ne_zero (by omega : fuel ≠ 0)
      have hpos := Nat.two_pow_pos i
      have ha : 2 ^ (i + 1) >>> 1 = 2 ^ i := by
        rw [Nat.shiftRight_eq_div_pow, pow_one, pow_succ, Nat.mul_div_cancel _ (by omega)]
      have he : 2 ^ t - 1 < 2 ^ k := by
        have hle : 2 ^ t ≤ 2 ^ k := Nat.pow_le_pow_right (by omega) (by omega)
        have hpos' := Nat.two_pow_pos t
        omega
      have hnext : 2 * (2 ^ t - 1) + 1 = 2 ^ (t + 1) - 1 := by
        have hpos' := Nat.two_pow_pos t
        rw [pow_succ]
        omega
      have hrest := @ih (t + 1) fuel (by omega) (by omega) (by omega)
      rw [secondLoop, ha, if_pos ⟨hpos, he⟩, mergeLoop_eq n_ _ t (by omega), hnext, hrest, secondRounds,
        within, within, within, List.filter_append]
      rfl

theorem shiftOne_reserve {k : ℕ} (hk : k ≤ 30) :
    ∃ nPow2, shiftOne k = some nPow2 ∧ reserve nPow2 = some () ∧ nPow2.toNat = 2 ^ k := by
  interval_cases k <;> exact ⟨_, rfl, by decide, by decide⟩

/-- A power of two that is no `int` is not had. -/
theorem pwComparisons_eq_none {n : BitVec 64} (hn : 30 < (n - 1).toNat.size) :
    pwComparisons n = none := by
  rw [pwComparisons, bitWidth]
  by_cases hlast : (n - 1).toNat.size = 31
  · rw [hlast]
    rfl
  · have hnone : shiftOne ((n - 1).toNat.size : ℤ) = none := by
      rw [shiftOne, if_neg (by omega)]
    rw [hnone]
    rfl

theorem pwComparisons_eq {n : BitVec 64} (hn : (n - 1).toNat.size ≤ 30) :
    pwComparisons n = some (within n.toNat (allRounds (n - 1).toNat.size)) := by
  generalize hk : (n - 1).toNat.size = k at hn
  obtain ⟨nPow2, hshift, hreserve, hpow⟩ := shiftOne_reserve hn
  have hfirst := firstLoop_eq n.toNat 0 k (by omega : k < 64)
  rw [Nat.zero_add, pow_zero] at hfirst
  have hsecond := @secondLoop_eq n.toNat (k - 1) 1 k 64 (by omega) (by omega) (by omega)
  have ha : 2 ^ k >>> 2 = 2 ^ (k - 1) >>> 1 := by
    cases k with
    | zero => rfl
    | succ k =>
        rw [Nat.shiftRight_eq_div_pow, Nat.shiftRight_eq_div_pow, pow_succ, Nat.add_sub_cancel, pow_one]
        omega
  rw [pow_one] at hsecond
  rw [pwComparisons, bitWidth, hk, hshift]
  change (reserve nPow2).bind _ = _
  rw [hreserve, hpow]
  change (firstLoop n.toNat (2 ^ k) 64 1).bind _ = _
  rw [hfirst, ha]
  change (secondLoop n.toNat (2 ^ k) 64 (2 ^ (k - 1) >>> 1) 1).bind _ = _
  rw [hsecond, allRounds, within, within, within, List.filter_append]
  rfl

end Rounds

section Layers

open PairwiseNetwork

/-- What a round compares when nothing is cut off. -/
def layer (c : PairwiseRound) : ComparatorLayer where
  gap := c.startRight - c.startLeft
  left p := decide (c.startLeft ≤ p ∧ (p - c.startLeft) / c.step % 2 = 0)

theorem layer_first (a : ℕ) :
    layer { startLeft := 0, startRight := a, step := a } = pairs.stride a := by
  simp [layer, pairs, ComparatorLayer.stride]

theorem layer_merge {a : ℕ} (ha : 0 < a) (t : ℕ) :
    layer { startLeft := a, startRight := 2 ^ (t + 1) * a, step := a } =
      (mergePairs (2 ^ t)).stride a := by
  have hgap : 2 ^ (t + 1) * a - a = a * (2 * 2 ^ t - 1) := by
    rw [Nat.mul_sub, pow_succ', Nat.mul_comm a, Nat.mul_one]
  have hleft : ∀ p, (a ≤ p ∧ (p - a) / a % 2 = 0) ↔ p / a % 2 = 1 := by
    intro p
    by_cases hp : a ≤ p
    · have hdiv : p / a = (p - a) / a + 1 := Nat.div_eq_sub_div ha hp
      omega
    · have hzero : p / a = 0 := Nat.div_eq_of_lt (not_le.mp hp)
      omega
  simp only [layer, mergePairs, ComparatorLayer.stride, hgap, hleft]

theorem map_layer_mergeRounds {a : ℕ} (ha : 0 < a) (t : ℕ) :
    (mergeRounds a t).map layer = (merges t).map fun L => L.stride a := by
  induction t with
  | zero => rfl
  | succ t ih => rw [mergeRounds, merges, List.map_cons, List.map_cons, ih, layer_merge ha]

theorem map_layer_secondRounds (i t : ℕ) : (secondRounds i t).map layer = secondHalf i t := by
  induction i generalizing t with
  | zero => rfl
  | succ i ih =>
      rw [secondRounds, secondHalf, List.map_append, map_layer_mergeRounds (Nat.two_pow_pos i), ih]

/-- The rounds are the layers of the pairwise network. -/
theorem map_layer_allRounds (k : ℕ) : (allRounds k).map layer = network k := by
  have hfirst : (firstRounds 0 k).map layer = firstHalf k := by
    rw [firstRounds, List.map_map, firstHalf, List.range_eq_range']
    exact List.map_congr_left fun t _ => layer_first (2 ^ t)
  have hsecond : secondHalf k 0 = secondHalf (k - 1) 1 := by
    cases k with
    | zero => rfl
    | succ k => rfl
  rw [allRounds, network, List.map_append, hfirst, map_layer_secondRounds, hsecond]

end Layers

end Pairwise

end CryptDough
