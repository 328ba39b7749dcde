import CryptDough.SortPadding

/-! The iterative quicksort. Every iteration partitions all segments between two pivots at once,
with the comparisons opened before the first swap. -/

namespace CryptDough.Quicksort

open StableSort

variable {w n : ℕ}

/-- The elements, and the positions that hold a pivot. -/
structure State (w : ℕ) where
  v : ℕ → BitVec w
  pivots : ℕ → Bool

/-- The scan of one segment: `comparisons j` tells that element `j` stays on the right. -/
def partitionLoop (comparisons : ℕ → Bool) : (len j i : ℕ) → (ℕ → BitVec w) → (ℕ → BitVec w) × ℕ
  | 0, _, i, v => (v, i)
  | len + 1, j, i, v =>
      if comparisons j then partitionLoop comparisons len (j + 1) i v
      else partitionLoop comparisons len (j + 1) (i + 1) (v ∘ Equiv.swap j (i + 1))

/-- Partitions the segment from `start` to `last` around the element at `start`, and sets the next
pivots. -/
def partition (comparisons : ℕ → Bool) (start last : ℕ) (s : State w) : State w :=
  let (v, i) := partitionLoop comparisons (last - start) (start + 1) start s.v
  let pivots := Function.update s.pivots i true
  { v := v ∘ Equiv.swap start i
    pivots := if i + 1 ≤ last then Function.update pivots (i + 1) true else pivots }

/-- The pass over the positions from `p` on; `index` is the last pivot before `p`. -/
def partitionAll (comparisons : ℕ → Bool) : (rest p : ℕ) → (index : ℤ) → State w → State w
  | 0, p, index, s => partition comparisons index.toNat (p - 1) s
  | rest + 1, p, index, s =>
      if s.pivots p = false then partitionAll comparisons rest (p + 1) index s
      else if (p : ℤ) - index = 1 then partitionAll comparisons rest (p + 1) (index + 1) s
      else partitionAll comparisons rest (p + 1) p (partition comparisons index.toNat (p - 1) s)

/-- The prefix maximum of the pivots: the nearest one at or before position `j`. -/
def nearestPivot (pivots : ℕ → Bool) : ℕ → ℕ
  | 0 => 0
  | j + 1 => if pivots (j + 1) then j + 1 else nearestPivot pivots j

def comparisonsOf (s : State w) (j : ℕ) : Bool := (s.v (nearestPivot s.pivots j)).slt (s.v j)

def iteration (n : ℕ) (s : State w) : State w := partitionAll (comparisonsOf s) n 0 (-1) s

def numPivots (n : ℕ) (pivots : ℕ → Bool) : ℕ :=
  ((Finset.range n).filter fun p => pivots p = true).card

/-- Positions and sizes are `int`s. With `2 ^ 31` elements the scan of the last segment does not get
past its end, `j <= end` being true of every `int`; with more, `int size` does not hold the number of
comparisons of the first iteration. -/
def FitsInts (n : ℕ) : Prop := n < 2 ^ 31

instance (n : ℕ) : Decidable (FitsInts n) := inferInstanceAs (Decidable (n < 2 ^ 31))

/-- The main loop, cut off after `fuel` iterations. -/
def loop (n : ℕ) : (fuel : ℕ) → State w → Option (ℕ → BitVec w)
  | 0, _ => none
  | fuel + 1, s => do
      guard (FitsInts n)
      let s := iteration n s
      if n ≤ numPivots n s.pivots then some s.v else loop n fuel s

def initial (x : Vec w n) : State w where
  v k := if h : k < n then x ⟨k, h⟩ else 0
  pivots p := p = 0

/-- Shuffles, and iterates at most once per element. -/
def quicksortBody (x : Vec w n) : Draws (Vec w n) := do
  let pi ← Draws.getNext n
  let sorted ← (loop n n (initial (rearrange pi x)) : Option (ℕ → BitVec w))
  pure fun k => sorted k

section Partition

/-- The elements outside `start`, …, `last` do not move. -/
def FixesOutside (start last : ℕ) (σ : Equiv.Perm ℕ) : Prop :=
  ∀ k, k < start ∨ last < k → σ k = k

theorem FixesOutside.mem {start last : ℕ} {σ : Equiv.Perm ℕ} (hσ : FixesOutside start last σ)
    {k : ℕ} (hk : start ≤ k ∧ k ≤ last) : start ≤ σ k ∧ σ k ≤ last := by
  by_contra hout
  have hfix : σ (σ k) = σ k := hσ (σ k) (by omega)
  have heq : σ k = k := σ.injective hfix
  omega

theorem FixesOutside.swap {start last : ℕ} {σ : Equiv.Perm ℕ} (hσ : FixesOutside start last σ)
    {a b : ℕ} (ha : start ≤ a ∧ a ≤ last) (hb : start ≤ b ∧ b ≤ last) :
    FixesOutside start last ((Equiv.swap a b).trans σ) := by
  intro k hk
  rw [Equiv.trans_apply, Equiv.swap_apply_of_ne_of_ne (by omega) (by omega)]
  exact hσ k hk

/-- The scan invariant: up to `i` elements that are not greater than the pivot, from there to `j`
greater ones, and from `j` on the original elements. -/
structure Scanned (v₀ : ℕ → BitVec w) (start last i j : ℕ) (v : ℕ → BitVec w) : Prop where
  start_le : start ≤ i
  lt : i < j
  perm : ∃ σ : Equiv.Perm ℕ, FixesOutside start last σ ∧ v = v₀ ∘ σ
  pivot : v start = v₀ start
  left : ∀ k, start < k → k ≤ i → (v k).toInt ≤ (v₀ start).toInt
  right : ∀ k, i < k → k < j → (v₀ start).toInt < (v k).toInt
  rest : ∀ k, j ≤ k → v k = v₀ k

theorem Scanned.step_right {v₀ v : ℕ → BitVec w} {start last i j : ℕ}
    (hs : Scanned v₀ start last i j v) (hgt : (v₀ start).toInt < (v₀ j).toInt) :
    Scanned v₀ start last i (j + 1) v where
  start_le := hs.start_le
  lt := hs.lt.trans (Nat.lt_succ_self j)
  perm := hs.perm
  pivot := hs.pivot
  left := hs.left
  right k hik hkj := by
    rcases Nat.lt_succ_iff_lt_or_eq.mp hkj with hlt | rfl
    · exact hs.right k hik hlt
    · rwa [hs.rest k le_rfl]
  rest k hk := hs.rest k (by omega)

theorem Scanned.step_left {v₀ v : ℕ → BitVec w} {start last i j : ℕ}
    (hs : Scanned v₀ start last i j v) (hj : j ≤ last) (hle : (v₀ j).toInt ≤ (v₀ start).toInt) :
    Scanned v₀ start last (i + 1) (j + 1) (v ∘ Equiv.swap j (i + 1)) where
  start_le := by
    have := hs.start_le
    omega
  lt := by
    have := hs.lt
    omega
  perm := by
    obtain ⟨σ, hσ, rfl⟩ := hs.perm
    have hi := hs.start_le
    have hij := hs.lt
    exact ⟨_, hσ.swap (a := j) (b := i + 1) (by omega) (by omega), rfl⟩
  pivot := by
    have hi := hs.start_le
    have hij := hs.lt
    rw [Function.comp_apply, Equiv.swap_apply_of_ne_of_ne (by omega) (by omega)]
    exact hs.pivot
  left k hk hki := by
    have hij := hs.lt
    rcases Nat.lt_succ_iff_lt_or_eq.mp (Nat.lt_succ_of_le hki) with hlt | rfl
    · rw [Function.comp_apply, Equiv.swap_apply_of_ne_of_ne (by omega) (by omega)]
      exact hs.left k hk (by omega)
    · rwa [Function.comp_apply, Equiv.swap_apply_right, hs.rest j le_rfl]
  right k hik hkj := by
    by_cases hkeq : k = j
    · subst hkeq
      rw [Function.comp_apply, Equiv.swap_apply_left]
      have hij := hs.lt
      exact hs.right (i + 1) (by omega) (by omega)
    · rw [Function.comp_apply, Equiv.swap_apply_of_ne_of_ne hkeq (by omega)]
      exact hs.right k (by omega) (by omega)
  rest k hk := by
    have hij := hs.lt
    rw [Function.comp_apply, Equiv.swap_apply_of_ne_of_ne (by omega) (by omega)]
    exact hs.rest k (by omega)

theorem partitionLoop_scanned {comparisons : ℕ → Bool} {v₀ : ℕ → BitVec w} {start last : ℕ}
    (hcmp : ∀ j, start < j → j ≤ last →
      (comparisons j = true ↔ (v₀ start).toInt < (v₀ j).toInt))
    (len : ℕ) {i j : ℕ} {v : ℕ → BitVec w} (hlen : j + len = last + 1)
    (hs : Scanned v₀ start last i j v) :
    Scanned v₀ start last (partitionLoop comparisons len j i v).2 (last + 1)
      (partitionLoop comparisons len j i v).1 := by
  induction len generalizing i j v with
  | zero =>
      obtain rfl : j = last + 1 := by omega
      exact hs
  | succ len ih =>
      have hj := hcmp j (lt_of_le_of_lt hs.start_le hs.lt) (by omega)
      rw [partitionLoop]
      split
      · rename_i hright
        exact ih (by omega) (hs.step_right (hj.mp hright))
      · rename_i hleft
        exact ih (by omega) (hs.step_left (by omega) (not_lt.mp fun hgt => hleft (hj.mpr hgt)))

/-- What a partition does to the elements: the pivot ends at position `i`, and the others on their
sides of it. -/
theorem partition_elements {comparisons : ℕ → Bool} {s : State w} {start last : ℕ}
    (hle : start ≤ last)
    (hcmp : ∀ j, start < j → j ≤ last →
      (comparisons j = true ↔ (s.v start).toInt < (s.v j).toInt)) :
    ∃ i, start ≤ i ∧ i ≤ last ∧
      (∃ σ : Equiv.Perm ℕ, FixesOutside start last σ ∧
        (partition comparisons start last s).v = s.v ∘ σ) ∧
      (partition comparisons start last s).v i = s.v start ∧
      (∀ k, start ≤ k → k < i →
        ((partition comparisons start last s).v k).toInt ≤ (s.v start).toInt) ∧
      (∀ k, i < k → k ≤ last →
        (s.v start).toInt < ((partition comparisons start last s).v k).toInt) ∧
      (partition comparisons start last s).pivots =
        if i + 1 ≤ last then Function.update (Function.update s.pivots i true) (i + 1) true
        else Function.update s.pivots i true := by
  have hstart : Scanned s.v start last start (start + 1) s.v :=
    { start_le := le_rfl
      lt := Nat.lt_succ_self start
      perm := ⟨Equiv.refl ℕ, fun _ _ => rfl, rfl⟩
      pivot := rfl
      left := fun k hk hk' => by omega
      right := fun k hk hk' => by omega
      rest := fun _ _ => rfl }
  have hs := partitionLoop_scanned hcmp (last - start) (by omega) hstart
  set r := partitionLoop comparisons (last - start) (start + 1) start s.v with hr
  have hv : (partition comparisons start last s).v = r.1 ∘ Equiv.swap start r.2 := by
    simp only [partition, ← hr]
  have hi := hs.start_le
  have hlast := hs.lt
  refine ⟨r.2, hi, by omega, ?_, ?_, ?_, ?_, ?_⟩
  · obtain ⟨σ, hσ, heq⟩ := hs.perm
    refine ⟨_, hσ.swap (a := start) (b := r.2) (by omega) (by omega), ?_⟩
    rw [hv, heq]
    rfl
  · rw [hv, Function.comp_apply, Equiv.swap_apply_right, hs.pivot]
  · intro k hk hki
    rw [hv, Function.comp_apply]
    rcases Nat.eq_or_lt_of_le hk with rfl | hlt
    · rw [Equiv.swap_apply_left]
      exact hs.left r.2 hki le_rfl
    · rw [Equiv.swap_apply_of_ne_of_ne (by omega) (by omega)]
      exact hs.left k hlt hki.le
  · intro k hik hk
    rw [hv, Function.comp_apply, Equiv.swap_apply_of_ne_of_ne (by omega) (by omega)]
    exact hs.right k hik (by omega)
  · simp only [partition, ← hr]

/-- No element before a pivot is greater than an element at or after it. -/
structure Inv (n : ℕ) (s : State w) : Prop where
  first : s.pivots 0 = true
  split : ∀ p, p < n → s.pivots p = true →
    ∀ a b, a < p → p ≤ b → b < n → (s.v a).toInt ≤ (s.v b).toInt

/-- What one partition of the segment from `start` to `last` guarantees. -/
structure Partitioned (n start last : ℕ) (s s' : State w) : Prop where
  inv : Inv n s'
  perm : ∃ σ : Equiv.Perm ℕ, FixesOutside start last σ ∧ s'.v = s.v ∘ σ
  keeps : ∀ p, s.pivots p = true → s'.pivots p = true
  outside : ∀ p, p < start ∨ last < p → s'.pivots p = s.pivots p
  progress : start < last → ∃ p, start < p ∧ p ≤ last ∧ s'.pivots p = true

/-- What `partition` adds to the pivots. -/
theorem setPivots_iff (pivots : ℕ → Bool) (i last p : ℕ) :
    (if i + 1 ≤ last then Function.update (Function.update pivots i true) (i + 1) true
      else Function.update pivots i true) p = true ↔
      pivots p = true ∨ p = i ∨ (p = i + 1 ∧ i + 1 ≤ last) := by
  split
  · rename_i hsucc
    rw [Function.update_apply, Function.update_apply]
    split
    · simp [*]
    · split <;> simp [*]
  · rename_i hsucc
    rw [Function.update_apply]
    split <;> simp [*]

section Segment

variable {s : State w} {start last : ℕ} {σ : Equiv.Perm ℕ} {a b : ℕ}

/-- An element of the segment is still not smaller than what stands before it. -/
theorem Inv.le_from_start (hs : Inv n s) (hσ : FixesOutside start last σ) (hlast : last < n)
    (hstart : s.pivots start = true) (ha : a < start) (hb : start ≤ b) (hbn : b < n) :
    (s.v (σ a)).toInt ≤ (s.v (σ b)).toInt := by
  rw [hσ a (Or.inl ha)]
  by_cases hbl : b ≤ last
  · obtain ⟨hm, hm'⟩ := hσ.mem ⟨hb, hbl⟩
    exact hs.split start (by omega) hstart a (σ b) ha hm (by omega)
  · rw [hσ b (Or.inr (by omega))]
    exact hs.split start (by omega) hstart a b ha hb hbn

theorem Inv.le_after_last (hs : Inv n s) (hσ : FixesOutside start last σ)
    (hnext : last + 1 < n → s.pivots (last + 1) = true) (ha : a ≤ last) (hb : last < b)
    (hbn : b < n) : (s.v (σ a)).toInt ≤ (s.v (σ b)).toInt := by
  rw [hσ b (Or.inr hb)]
  have hsplit := hs.split (last + 1) (by omega) (hnext (by omega))
  by_cases has : start ≤ a
  · obtain ⟨hm, hm'⟩ := hσ.mem ⟨has, ha⟩
    exact hsplit (σ a) b (by omega) hb hbn
  · rw [hσ a (Or.inl (by omega))]
    exact hsplit a b (by omega) hb hbn

end Segment

theorem partition_partitioned {comparisons : ℕ → Bool} {s : State w} {start last : ℕ}
    (hs : Inv n s) (hle : start ≤ last) (hlast : last < n) (hstart : s.pivots start = true)
    (hfree : ∀ p, start < p → p ≤ last → s.pivots p = false)
    (hnext : last + 1 < n → s.pivots (last + 1) = true)
    (hcmp : ∀ j, start < j → j ≤ last →
      (comparisons j = true ↔ (s.v start).toInt < (s.v j).toInt)) :
    Partitioned n start last s (partition comparisons start last s) := by
  obtain ⟨i, hi, hilast, ⟨σ, hσ, hv⟩, hpivot, hleft, hright, hpivots⟩ := partition_elements hle hcmp
  set s' := partition comparisons start last s
  have hmem : ∀ p, s'.pivots p = true ↔ s.pivots p = true ∨ p = i ∨ (p = i + 1 ∧ i + 1 ≤ last) := by
    intro p
    rw [hpivots, setPivots_iff]
  have hold : ∀ p, p < start ∨ last < p → s'.pivots p = true → s.pivots p = true := by
    intro p hp hpp
    rcases (hmem p).mp hpp with hold | hnew | hnew
    · exact hold
    · omega
    · omega
  have hout : ∀ k, k < start ∨ last < k → s'.v k = s.v k := by
    intro k hk
    rw [hv, Function.comp_apply, hσ k hk]
  refine ⟨⟨(hmem 0).mpr (Or.inl hs.first), ?_⟩, ⟨σ, hσ, hv⟩, fun p hp => (hmem p).mpr (Or.inl hp),
    ?_, ?_⟩
  · intro p hp hpp a b hap hpb hbn
    by_cases hlow : a < start
    · by_cases hb : start ≤ b
      · rw [hv]
        exact hs.le_from_start hσ hlast hstart hlow hb hbn
      · rw [hout a (Or.inl hlow), hout b (Or.inl (by omega))]
        exact hs.split p hp (hold p (Or.inl (by omega)) hpp) a b hap hpb hbn
    · by_cases hhigh : last < b
      · by_cases ha : a ≤ last
        · rw [hv]
          exact hs.le_after_last hσ hnext ha hhigh hbn
        · rw [hout a (Or.inr (by omega)), hout b (Or.inr hhigh)]
          exact hs.split p hp (hold p (Or.inr (by omega)) hpp) a b hap hpb hbn
      · -- both stand in the segment
        rcases (hmem p).mp hpp with hpold | rfl | ⟨rfl, _⟩
        · rw [hfree p (by omega) (by omega)] at hpold
          exact absurd hpold Bool.false_ne_true
        · have hle_a := hleft a (by omega) hap
          rcases Nat.eq_or_lt_of_le hpb with rfl | hlt
          · rwa [hpivot]
          · exact hle_a.trans (hright b hlt (by omega)).le
        · have hlt_b := hright b (by omega) (by omega)
          rcases Nat.eq_or_lt_of_le (Nat.lt_succ_iff.mp hap) with rfl | hlt
          · rw [hpivot]
            exact hlt_b.le
          · exact (hleft a (by omega) hlt).trans hlt_b.le
  · intro p hp
    rw [hpivots]
    split
    · rw [Function.update_of_ne (by omega), Function.update_of_ne (by omega)]
    · rw [Function.update_of_ne (by omega)]
  · intro hlt
    by_cases hsi : start < i
    · exact ⟨i, hsi, hilast, (hmem i).mpr (Or.inr (Or.inl rfl))⟩
    · exact ⟨i + 1, by omega, by omega, (hmem (i + 1)).mpr (Or.inr (Or.inr ⟨rfl, by omega⟩))⟩

end Partition

section Pass

theorem nearestPivot_eq {pivots : ℕ → Bool} {index j : ℕ} (hindex : pivots index = true)
    (hle : index ≤ j) (hfree : ∀ q, index < q → q ≤ j → pivots q = false) :
    nearestPivot pivots j = index := by
  induction j with
  | zero =>
      obtain rfl : index = 0 := by omega
      rfl
  | succ j ih =>
      rw [nearestPivot]
      rcases Nat.eq_or_lt_of_le hle with rfl | hlt
      · rw [if_pos hindex]
      · rw [hfree (j + 1) hlt le_rfl, if_neg Bool.false_ne_true]
        exact ih (Nat.lt_succ_iff.mp hlt) fun q hq hqj => hfree q hq (by omega)

/-- The pass from state `s₀` has reached position `p`; the segment that starts at `index` is open. -/
structure Passed (n p index : ℕ) (s₀ s : State w) : Prop where
  inv : Inv n s
  lt : index < p
  pivot : s₀.pivots index = true
  free : ∀ q, index < q → q < p → s₀.pivots q = false
  perm : ∃ σ : Equiv.Perm ℕ, (∀ k, n ≤ k → σ k = k) ∧ s.v = s₀.v ∘ σ
  keeps : ∀ q, s₀.pivots q = true → s.pivots q = true
  rest : ∀ q, index ≤ q → s.v q = s₀.v q ∧ s.pivots q = s₀.pivots q
  progress : (∃ q, q < index ∧ s₀.pivots q = false) →
    ∃ q, q < n ∧ s.pivots q = true ∧ s₀.pivots q = false

theorem Passed.comparisons {n p index : ℕ} {s₀ s : State w} (hs : Passed n p index s₀ s) (j : ℕ)
    (hj : index < j) (hjp : j ≤ p - 1) :
    comparisonsOf s₀ j = true ↔ (s.v index).toInt < (s.v j).toInt := by
  have hlt := hs.lt
  have hnear := nearestPivot_eq hs.pivot hj.le fun q hq hqj => hs.free q hq (by omega)
  rw [comparisonsOf, hnear, BitVec.slt_iff_toInt_lt, (hs.rest index le_rfl).1, (hs.rest j hj.le).1]

theorem Passed.partitioned {n p index : ℕ} {s₀ s : State w} (hs : Passed n p index s₀ s)
    (hp : p ≤ n) (hnext : p < n → s₀.pivots p = true) :
    Partitioned n index (p - 1) s (partition (comparisonsOf s₀) index (p - 1) s) := by
  have hlt := hs.lt
  have hpivot : s.pivots index = true := by rw [(hs.rest index le_rfl).2, hs.pivot]
  refine partition_partitioned hs.inv (by omega) (by omega) hpivot ?_ ?_ hs.comparisons
  · intro q hq hqp
    rw [(hs.rest q hq.le).2]
    exact hs.free q hq (by omega)
  · intro hlast
    rw [Nat.sub_add_cancel (by omega)] at hlast ⊢
    rw [(hs.rest p hlt.le).2]
    exact hnext hlast

/-- After the partition nothing is left to do before `p`. -/
theorem Passed.close {n p index : ℕ} {s₀ s s' : State w} (hs : Passed n p index s₀ s) (hp : p ≤ n)
    (hpart : Partitioned n index (p - 1) s s') :
    (∃ σ : Equiv.Perm ℕ, (∀ k, n ≤ k → σ k = k) ∧ s'.v = s₀.v ∘ σ) ∧
      (∀ q, s₀.pivots q = true → s'.pivots q = true) ∧
      (∀ q, p ≤ q → s'.v q = s₀.v q ∧ s'.pivots q = s₀.pivots q) ∧
      ((∃ q, q < p ∧ s₀.pivots q = false) →
        ∃ q, q < n ∧ s'.pivots q = true ∧ s₀.pivots q = false) := by
  have hlt := hs.lt
  obtain ⟨σ, hσ, hv⟩ := hs.perm
  obtain ⟨τ, hτ, hv'⟩ := hpart.perm
  refine ⟨⟨τ.trans σ, ?_, ?_⟩, fun q hq => hpart.keeps q (hs.keeps q hq), ?_, ?_⟩
  · intro k hk
    rw [Equiv.trans_apply, hτ k (Or.inr (by omega)), hσ k hk]
  · rw [hv', hv]
    rfl
  · intro q hq
    have hrest := hs.rest q (by omega)
    refine ⟨?_, ?_⟩
    · rw [hv', Function.comp_apply, hτ q (Or.inr (by omega))]
      exact hrest.1
    · rw [hpart.outside q (Or.inr (by omega))]
      exact hrest.2
  · rintro ⟨q, hqp, hq⟩
    by_cases hbefore : q < index
    · obtain ⟨r, hrn, hr, hr₀⟩ := hs.progress ⟨q, hbefore, hq⟩
      exact ⟨r, hrn, hpart.keeps r hr, hr₀⟩
    · have hne : q ≠ index := by
        rintro rfl
        rw [hs.pivot] at hq
        exact absurd hq.symm Bool.false_ne_true
      obtain ⟨r, hr, hrp, hnew⟩ := hpart.progress (by omega)
      exact ⟨r, by omega, hnew, hs.free r hr (by omega)⟩

/-- A whole iteration: the elements are permuted, the invariant is kept, no pivot is lost, and there
is a new one unless all positions are pivots. -/
structure Advances (n : ℕ) (s₀ s : State w) : Prop where
  inv : Inv n s
  perm : ∃ σ : Equiv.Perm ℕ, (∀ k, n ≤ k → σ k = k) ∧ s.v = s₀.v ∘ σ
  keeps : ∀ q, s₀.pivots q = true → s.pivots q = true
  progress : (∃ q, q < n ∧ s₀.pivots q = false) →
    ∃ q, q < n ∧ s.pivots q = true ∧ s₀.pivots q = false

theorem Passed.skip {n p index : ℕ} {s₀ s : State w} (hs : Passed n p index s₀ s)
    (hp : s₀.pivots p = false) : Passed n (p + 1) index s₀ s := by
  have hlt := hs.lt
  refine { hs with lt := by omega, free := fun q hq hqp => ?_ }
  rcases Nat.lt_succ_iff_lt_or_eq.mp hqp with hlt' | rfl
  · exact hs.free q hq hlt'
  · exact hp

theorem Passed.adjacent {n index : ℕ} {s₀ s : State w} (hs : Passed n (index + 1) index s₀ s)
    (hp : s₀.pivots (index + 1) = true) : Passed n (index + 1 + 1) (index + 1) s₀ s := by
  refine { hs with
    lt := Nat.lt_succ_self _
    pivot := hp
    free := fun q hq hqp => by omega
    rest := fun q hq => hs.rest q (by omega)
    progress := ?_ }
  rintro ⟨q, hqi, hq⟩
  refine hs.progress ⟨q, ?_, hq⟩
  rcases Nat.lt_succ_iff_lt_or_eq.mp hqi with hlt | rfl
  · exact hlt
  · rw [hs.pivot] at hq
    exact absurd hq.symm Bool.false_ne_true

theorem Passed.next {n p index : ℕ} {s₀ s s' : State w} (hs : Passed n p index s₀ s) (hpn : p < n)
    (hp : s₀.pivots p = true) (hpart : Partitioned n index (p - 1) s s') :
    Passed n (p + 1) p s₀ s' := by
  obtain ⟨hperm, hkeeps, hrest, hprogress⟩ := hs.close hpn.le hpart
  exact
    { inv := hpart.inv
      lt := Nat.lt_succ_self p
      pivot := hp
      free := fun q hq hqp => by omega
      perm := hperm
      keeps := hkeeps
      rest := hrest
      progress := hprogress }

theorem partitionAll_advances {n : ℕ} {s₀ : State w} (rest : ℕ) {p index : ℕ} {s : State w}
    (hrest : p + rest = n) (hs : Passed n p index s₀ s) :
    Advances n s₀ (partitionAll (comparisonsOf s₀) rest p index s) := by
  induction rest generalizing p index s with
  | zero =>
      have hpart := hs.partitioned (by omega) (by omega)
      obtain ⟨hperm, hkeeps, -, hprogress⟩ := hs.close (by omega) hpart
      obtain rfl : p = n := by omega
      rw [partitionAll, Int.toNat_natCast]
      exact ⟨hpart.inv, hperm, hkeeps, hprogress⟩
  | succ rest ih =>
      rw [partitionAll, (hs.rest p hs.lt.le).2]
      cases hp : s₀.pivots p with
      | false =>
          rw [if_pos rfl]
          exact ih (by omega) (hs.skip hp)
      | true =>
          rw [if_neg Bool.true_eq_false_eq_False]
          by_cases hadj : (p : ℤ) - index = 1
          · rw [if_pos hadj]
            obtain rfl : p = index + 1 := by omega
            have hnext := ih (by omega) (hs.adjacent hp)
            exact_mod_cast hnext
          · rw [if_neg hadj, Int.toNat_natCast]
            exact ih (by omega) (hs.next (by omega) hp (hs.partitioned (by omega) fun _ => hp))

theorem Passed.start {n : ℕ} {s : State w} (hs : Inv n s) : Passed n 1 0 s s where
  inv := hs
  lt := Nat.zero_lt_one
  pivot := hs.first
  free := fun q hq hq' => by omega
  perm := ⟨Equiv.refl ℕ, fun _ _ => rfl, rfl⟩
  keeps := fun _ hq => hq
  rest := fun _ _ => ⟨rfl, rfl⟩
  progress := fun ⟨q, hq, _⟩ => absurd hq (Nat.not_lt_zero q)

theorem partitionAll_first (comparisons : ℕ → Bool) {m : ℕ} {s : State w}
    (hfirst : s.pivots 0 = true) :
    partitionAll comparisons (m + 1) 0 (-1) s = partitionAll comparisons m 1 (0 : ℕ) s := by
  rw [partitionAll, hfirst, if_neg (by decide), if_pos (by decide)]
  rfl

theorem iteration_advances {n : ℕ} (hn : 0 < n) {s : State w} (hs : Inv n s) :
    Advances n s (iteration n s) := by
  obtain ⟨m, rfl⟩ : ∃ m, n = m + 1 := ⟨n - 1, by omega⟩
  rw [iteration, partitionAll_first _ hs.first]
  exact partitionAll_advances m (by omega) (Passed.start hs)

theorem Advances.numPivots_lt {s₀ s : State w} (hs : Advances n s₀ s)
    (hlt : numPivots n s₀.pivots < n) : numPivots n s₀.pivots < numPivots n s.pivots := by
  have hmiss : ∃ q, q < n ∧ s₀.pivots q = false := by
    by_contra hall
    push Not at hall
    have hfull : (Finset.range n).filter (fun p => s₀.pivots p = true) = Finset.range n := by
      refine Finset.filter_true_of_mem fun p hp => ?_
      simpa using hall p (Finset.mem_range.mp hp)
    rw [numPivots, hfull, Finset.card_range] at hlt
    exact lt_irrefl n hlt
  obtain ⟨q, hqn, hq, hq₀⟩ := hs.progress hmiss
  refine Finset.card_lt_card ((Finset.ssubset_iff_of_subset ?_).mpr ⟨q, ?_, ?_⟩)
  · intro p hp
    rw [Finset.mem_filter] at hp ⊢
    exact ⟨hp.1, hs.keeps p hp.2⟩
  · exact Finset.mem_filter.mpr ⟨Finset.mem_range.mpr hqn, hq⟩
  · rw [Finset.mem_filter, hq₀]
    exact fun hbad => Bool.false_ne_true hbad.2

/-- When every position is a pivot the elements are in order. -/
theorem Inv.sorted {s : State w} (hs : Inv n s) (hfull : n ≤ numPivots n s.pivots) {a b : ℕ}
    (hab : a < b) (hb : b < n) : (s.v a).toInt ≤ (s.v b).toInt := by
  have heq : (Finset.range n).filter (fun p => s.pivots p = true) = Finset.range n :=
    Finset.eq_of_subset_of_card_le (Finset.filter_subset _ _) (by rwa [Finset.card_range])
  have hmem : b ∈ (Finset.range n).filter fun p => s.pivots p = true := by
    rw [heq]
    exact Finset.mem_range.mpr hb
  exact hs.split b hb (Finset.mem_filter.mp hmem).2 a b hab le_rfl hb

end Pass

theorem loop_succ (hn : FitsInts n) (fuel : ℕ) (s : State w) : loop n (fuel + 1) s =
    if n ≤ numPivots n (iteration n s).pivots then some (iteration n s).v
    else loop n fuel (iteration n s) := by
  rw [loop, guard, if_pos hn]
  rfl

theorem loop_returns (hn : 0 < n) (hn31 : FitsInts n) (fuel : ℕ) {s : State w} (hs : Inv n s)
    (hfuel : 0 < fuel)
    (hmiss : n ≤ numPivots n s.pivots + fuel) :
    ∃ v, loop n fuel s = some v ∧
      (∃ σ : Equiv.Perm ℕ, (∀ k, n ≤ k → σ k = k) ∧ v = s.v ∘ σ) ∧
      ∀ a b, a < b → b < n → (v a).toInt ≤ (v b).toInt := by
  induction fuel generalizing s with
  | zero => exact absurd hfuel (lt_irrefl 0)
  | succ fuel ih =>
      have hadv := iteration_advances hn hs
      rw [loop_succ hn31]
      split
      · rename_i hfull
        exact ⟨_, rfl, hadv.perm, fun a b hab hb => hadv.inv.sorted hfull hab hb⟩
      · rename_i hopen
        have hmono : numPivots n s.pivots ≤ numPivots n (iteration n s).pivots :=
          Finset.card_le_card fun p hp => by
            rw [Finset.mem_filter] at hp ⊢
            exact ⟨hp.1, hadv.keeps p hp.2⟩
        have hstep := hadv.numPivots_lt (by omega)
        obtain ⟨v, hv, ⟨σ, hσ, heq⟩, hsorted⟩ := ih hadv.inv (by omega) (by omega)
        obtain ⟨τ, hτ, hτeq⟩ := hadv.perm
        refine ⟨v, hv, ⟨σ.trans τ, fun k hk => ?_, ?_⟩, hsorted⟩
        · rw [Equiv.trans_apply, hσ k hk, hτ k hk]
        · rw [heq, hτeq]
          rfl

/-- Whatever shuffle is drawn, the loop ends, with the elements in order. -/
theorem returns_quicksortBody (hn : 0 < n) (hn31 : n < 2 ^ 31) (x : Vec w n) :
    Draws.Returns (quicksortBody x) fun y =>
      ∃ σ : Equiv.Perm (Fin n), y = rearrange σ x ∧ ∀ a b, a < b → (y a).toInt ≤ (y b).toInt := by
  refine (Draws.returns_getNext hn31).bind fun pi _ => ?_
  have hstart : Inv n (initial (rearrange pi x)) := by
    refine ⟨rfl, fun p hp hpivot a b hap => ?_⟩
    obtain rfl : p = 0 := of_decide_eq_true hpivot
    exact absurd hap (Nat.not_lt_zero a)
  obtain ⟨v, hloop, ⟨σ, hσ, hv⟩, hsorted⟩ := loop_returns hn hn31 n hstart hn (Nat.le_add_left n _)
  have hlift : Draws.Returns (liftM (loop n n (initial (rearrange pi x)))) (· = v) :=
    Draws.Returns.lift hloop rfl
  refine hlift.bind fun y hy => Draws.Returns.pure ?_
  subst hy
  have hlt : ∀ k : Fin n, σ k < n := by
    intro k
    by_contra hge
    have hfix : σ (σ k) = σ k := hσ _ (not_lt.mp hge)
    have heq : σ k = k := σ.injective hfix
    omega
  have hinj : Function.Injective fun k : Fin n => (⟨σ k, hlt k⟩ : Fin n) := fun a b hab =>
    Fin.ext (σ.injective (congrArg Fin.val hab))
  obtain ⟨τ, hτ⟩ := exists_perm_of_injective hinj
  refine ⟨(τ.trans pi.symm).symm, ?_, fun a b hab => hsorted a b hab b.isLt⟩
  ext k
  have hread : (initial (rearrange pi x)).v (σ k) = rearrange pi x (τ k) := by
    rw [hτ k]
    exact dif_pos (hlt k)
  rw [hv, Function.comp_apply, hread]
  rfl

end CryptDough.Quicksort

namespace CryptDough

open StableSort ElementwisePermutation

variable {w n : ℕ}

/-- The sorted vector, and the permutation that sorts it. -/
def quicksort (numParties : ℕ) (v : Vec w n) (order : SortOrder) :
    Draws (Vec w n × ElementwisePermutation n) := do
  let padded := padInput v (order = .desc)
  let padded ← Quicksort.quicksortBody padded
  finish numParties padded (order = .desc)

/-- The positions below the values make all elements different, so the order is the stable one. -/
theorem returns_quicksort (hn0 : 0 < n) (hn : n < 2 ^ 31) (hw0 : 0 < w) (hw : w + 32 ≤ padWidth w)
    (numParties : ℕ) (v : Vec w n) (order : SortOrder) :
    Draws.Returns (quicksort numParties v order) fun r =>
      ∃ τ, StableSorts (keyLt order v) τ ∧ r = (rearrange τ v, ofPerm τ) := by
  refine (Quicksort.returns_quicksortBody hn0 hn (padInput v (order = .desc))).bind fun y hy => ?_
  obtain ⟨σ, rfl, hsorted⟩ := hy
  refine returns_finish hn hw0 hw numParties v order fun i j => ?_
  rw [← toInt_padInput_lt_iff hn.le hw0 hw v order i j]
  have hread : ∀ k, (rearrange σ (padInput v (order = .desc)) (σ k)).toInt =
      (padInput v (order = .desc) k).toInt := fun k => by rw [rearrange_apply]
  constructor
  · intro hlt
    refine lt_of_le_of_ne ?_ fun heq => ?_
    · rw [← hread i, ← hread j]
      exact hsorted _ _ hlt
    · have hij := toInt_padInput_lt_iff hn.le hw0 hw v order i j
      have hji := toInt_padInput_lt_iff hn.le hw0 hw v order j i
      rw [heq, lt_self_iff_false, false_iff] at hij hji
      have hne : i ≠ j := by
        rintro rfl
        exact lt_irrefl _ hlt
      rcases lt_or_gt_of_ne hne with h | h
      · tauto
      · tauto
  · intro hlt
    by_contra hge
    rcases Fin.eq_or_lt_of_le (not_lt.mp hge) with heq | hgt
    · rw [σ.injective heq] at hlt
      exact lt_irrefl _ hlt
    · have hle := hsorted _ _ hgt
      rw [hread, hread] at hle
      omega

end CryptDough
