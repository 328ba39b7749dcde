import CryptDough.ComparatorNetwork
import Mathlib.Data.Nat.Find
import Mathlib.Tactic.Ring

/-! The pairwise sorting network. Its first half orders the pairs at every power of two; the second half
sorts the subsequences of all strides, down to the whole sequence, by merging two of one stride into one
of half the stride. -/

namespace CryptDough.PairwiseNetwork

open ComparatorNetwork

/-- Neighbours. -/
def pairs : ComparatorLayer where
  gap := 1
  left p := decide (p % 2 = 0)

/-- The element `j` of the odd positions with the element `j + m` of the even ones. -/
def mergePairs (m : ℕ) : ComparatorLayer where
  gap := 2 * m - 1
  left p := decide (p % 2 = 1)

/-- Merges what stands at the even and at the odd positions. -/
def merges : ℕ → List ComparatorLayer
  | 0 => []
  | t + 1 => mergePairs (2 ^ t) :: merges t

def firstHalf (k : ℕ) : List ComparatorLayer := (List.range k).map fun t => pairs.stride (2 ^ t)

/-- The merges of stride `2 ^ (i - 1)` and below; `2 ^ t` elements have the stride `2 ^ i`. -/
def secondHalf : (i t : ℕ) → List ComparatorLayer
  | 0, _ => []
  | i + 1, t => ((merges t).map fun L => L.stride (2 ^ i)) ++ secondHalf i (t + 1)

def network (k : ℕ) : List ComparatorLayer := firstHalf k ++ secondHalf k 0

theorem pairs_proper : pairs.Proper where
  gap_pos := Nat.zero_lt_one
  disjoint := by
    intro p hp
    simp only [pairs, decide_eq_true_eq, decide_eq_false_iff_not] at hp ⊢
    omega

theorem mergePairs_proper {m : ℕ} (hm : 0 < m) : (mergePairs m).Proper where
  gap_pos := by
    change 0 < 2 * m - 1
    omega
  disjoint := by
    intro p hp
    simp only [mergePairs, decide_eq_true_eq, decide_eq_false_iff_not] at hp ⊢
    omega

theorem merges_proper (t : ℕ) : ∀ L ∈ merges t, L.Proper := by
  induction t with
  | zero => exact fun L hL => absurd hL List.not_mem_nil
  | succ t ih =>
      intro L hL
      rcases List.mem_cons.mp hL with rfl | hL
      · exact mergePairs_proper (Nat.two_pow_pos t)
      · exact ih L hL

theorem stride_proper {layers : List ComparatorLayer} (hlayers : ∀ L ∈ layers, L.Proper) {a : ℕ}
    (ha : 0 < a) : ∀ L ∈ layers.map fun L => L.stride a, L.Proper := by
  intro L hL
  obtain ⟨L', hL', rfl⟩ := List.mem_map.mp hL
  exact (hlayers L' hL').stride ha

theorem firstHalf_proper (k : ℕ) : ∀ L ∈ firstHalf k, L.Proper := by
  intro L hL
  obtain ⟨t, -, rfl⟩ := List.mem_map.mp hL
  exact pairs_proper.stride (Nat.two_pow_pos t)

theorem secondHalf_proper (i t : ℕ) : ∀ L ∈ secondHalf i t, L.Proper := by
  induction i generalizing t with
  | zero => exact fun L hL => absurd hL List.not_mem_nil
  | succ i ih =>
      intro L hL
      rcases List.mem_append.mp hL with hL | hL
      · exact stride_proper (merges_proper t) (Nat.two_pow_pos i) L hL
      · exact ih (t + 1) L hL

section Merge

/-- The even and the odd positions hold zeros up to `p` and up to `q` of them, and ones from there. -/
structure Thresholds (u : ℕ → Bool) (p q : ℕ) : Prop where
  even : ∀ j, u (2 * j) = decide (p ≤ j)
  odd : ∀ j, u (2 * j + 1) = decide (q ≤ j)

/-- Zeros that the even positions have too many move to the odd ones. -/
theorem Thresholds.step {u : ℕ → Bool} {p q m : ℕ} (hu : Thresholds u p q) (hm : 0 < m) :
    Thresholds ((mergePairs m).apply u) (min p (q + m)) (max q (p - m)) where
  even := by
    intro j
    have hleft : (mergePairs m).left (2 * j) = false := by simp [mergePairs]
    by_cases hj : m ≤ j
    · obtain ⟨i, rfl⟩ := Nat.exists_eq_add_of_le' hj
      have hright : (mergePairs m).left (2 * i + 1) = true := by
        simp only [mergePairs, decide_eq_true_eq]
        omega
      have hpos : 2 * (i + m) = 2 * i + 1 + (mergePairs m).gap := by
        change 2 * (i + m) = 2 * i + 1 + (2 * m - 1)
        omega
      rw [hpos, ComparatorLayer.apply_right (mergePairs_proper hm) hright, ← hpos, hu.even, hu.odd,
        Bool.max_eq_or, Bool.eq_iff_iff]
      simp only [Bool.or_eq_true, decide_eq_true_eq]
      omega
    · have hright : (mergePairs m).gap ≤ 2 * j →
        (mergePairs m).left (2 * j - (mergePairs m).gap) = false := by
        intro hle
        change 2 * m - 1 ≤ 2 * j at hle
        omega
      rw [ComparatorLayer.apply_other hleft hright, hu.even, decide_eq_decide]
      omega
  odd := by
    intro j
    have hleft : (mergePairs m).left (2 * j + 1) = true := by
      simp only [mergePairs, decide_eq_true_eq]
      omega
    have hpos : 2 * j + 1 + (mergePairs m).gap = 2 * (j + m) := by
      change 2 * j + 1 + (2 * m - 1) = 2 * (j + m)
      omega
    rw [ComparatorLayer.apply_left hleft, hpos, hu.even, hu.odd, Bool.min_eq_and, Bool.eq_iff_iff]
    simp only [Bool.and_eq_true, decide_eq_true_eq]
    omega

/-- One zero too many at the even positions is in order. -/
theorem Thresholds.monotone {u : ℕ → Bool} {p q : ℕ} (hu : Thresholds u p q) (hqp : q ≤ p)
    (hpq : p ≤ q + 1) : Monotone u := by
  refine monotone_nat_of_le_succ fun i => ?_
  rw [Bool.le_iff_imp]
  obtain ⟨j, rfl | rfl⟩ := Nat.even_or_odd' i
  · rw [hu.even, hu.odd, decide_eq_true_eq, decide_eq_true_eq]
    omega
  · have hpos : 2 * j + 1 + 1 = 2 * (j + 1) := by ring
    rw [hpos, hu.even, hu.odd, decide_eq_true_eq, decide_eq_true_eq]
    omega

theorem Thresholds.merges {u : ℕ → Bool} {p q t : ℕ} (hu : Thresholds u p q) (hqp : q ≤ p)
    (hpq : p ≤ q + 2 ^ t) : Monotone (run (merges t) u) := by
  induction t generalizing u p q with
  | zero => exact hu.monotone hqp hpq
  | succ t ih =>
      have hstep := hu.step (Nat.two_pow_pos t)
      rw [pow_succ] at hpq
      exact ih hstep (by omega) (by omega)

/-- A monotone sequence of booleans has a threshold. -/
theorem exists_threshold {f : ℕ → Bool} (hf : Monotone f) {M : ℕ} (hM : f M = true) :
    ∃ p, p ≤ M ∧ ∀ j, f j = decide (p ≤ j) := by
  have hex : ∃ p, f p = true := ⟨M, hM⟩
  refine ⟨Nat.find hex, Nat.find_min' hex hM, fun j => ?_⟩
  rw [Bool.eq_iff_iff, decide_eq_true_eq]
  constructor
  · exact Nat.find_min' hex
  · exact fun hle => Bool.le_iff_imp.mp (hf hle) (Nat.find_spec hex)

end Merge

section Stages

theorem subsequence_even {β : Type} (a r j : ℕ) (x : ℕ → β) :
    ComparatorLayer.subsequence a r x (2 * j) = ComparatorLayer.subsequence (2 * a) r x j := by
  change x _ = x _
  congr 1
  ring

theorem subsequence_odd {β : Type} (a r j : ℕ) (x : ℕ → β) :
    ComparatorLayer.subsequence a r x (2 * j + 1) =
      ComparatorLayer.subsequence (2 * a) (r + a) x j := by
  change x _ = x _
  congr 1
  ring

variable {α : Type} [LinearOrder α] {x : ℕ → α}

/-- All subsequences of stride `a` are in order. -/
def Striped (a : ℕ) (x : ℕ → α) : Prop :=
  ∀ r, r < a → Monotone (ComparatorLayer.subsequence a r x)

/-- The elements whose position has the bit `b` are not smaller than those without it. -/
def PairsOrdered (b : ℕ) (x : ℕ → α) : Prop :=
  ∀ r, r < b → ∀ j, ComparatorLayer.subsequence (2 * b) r x j ≤
    ComparatorLayer.subsequence (2 * b) (r + b) x j

/-- A layer of neighbours orders the pairs of its stride. -/
theorem pairsOrdered_pairs (b : ℕ) (x : ℕ → α) : PairsOrdered b ((pairs.stride b).apply x) := by
  intro r hr j
  have hleft : pairs.left (2 * j) = true := by simp [pairs]
  rw [← subsequence_even, ← subsequence_odd, ComparatorLayer.subsequence_stride hr,
    ComparatorLayer.apply_left hleft]
  exact (min_le_max).trans_eq (ComparatorLayer.apply_right pairs_proper hleft).symm

/-- Layers of a larger stride do the same on both sides of the pairs. -/
theorem PairsOrdered.run {b : ℕ} (hx : PairsOrdered b x) (layers : List ComparatorLayer) (d : ℕ) :
    PairsOrdered b (run (layers.map fun L => L.stride (2 * b * d)) x) := by
  intro r hr j
  have hstride : (layers.map fun L => L.stride (2 * b * d)) =
      (layers.map fun L => L.stride d).map fun L => L.stride (2 * b) := by
    rw [List.map_map]
    exact List.map_congr_left fun L _ => (ComparatorLayer.stride_stride d (2 * b)).symm
  rw [hstride, run_stride (by omega), run_stride (by omega)]
  exact run_mono (hx r hr) j

theorem PairsOrdered.run_two_pow {s i : ℕ} (hs : s < i) (hx : PairsOrdered (2 ^ s) x)
    (layers : List ComparatorLayer) :
    PairsOrdered (2 ^ s) (ComparatorNetwork.run (layers.map fun L => L.stride (2 ^ i)) x) := by
  have hpow : 2 ^ i = 2 * 2 ^ s * 2 ^ (i - s - 1) := by
    rw [← pow_succ', ← pow_add]
    congr 1
    omega
  rw [hpow]
  exact hx.run layers _

theorem pairsOrdered_firstHalf (k : ℕ) (x : ℕ → α) {s : ℕ} (hs : s < k) :
    PairsOrdered (2 ^ s) (run (firstHalf k) x) := by
  induction k with
  | zero => exact absurd hs (Nat.not_lt_zero s)
  | succ k ih =>
      have hsplit : firstHalf (k + 1) = firstHalf k ++ [pairs].map fun L => L.stride (2 ^ k) := by
        simp [firstHalf, List.range_succ]
      rw [hsplit, run_append]
      rcases Nat.lt_succ_iff_lt_or_eq.mp hs with hlt | rfl
      · exact (ih hlt).run_two_pow hlt [pairs]
      · exact pairsOrdered_pairs _ _

/-- Two subsequences are merged into one of half the stride. -/
theorem striped_merges {a t : ℕ} {x : ℕ → Bool} (hx : Striped (2 * a) x) (hpairs : PairsOrdered a x)
    (hend : ∀ p, 2 * a * 2 ^ t ≤ p → x p = true) :
    Striped a (run ((merges t).map fun L => L.stride a) x) := by
  intro r hr
  rw [run_stride hr]
  have hlast : ∀ r', x (r' + 2 * a * 2 ^ t) = true := fun r' => hend _ (Nat.le_add_left _ _)
  obtain ⟨p, hp, heven⟩ := exists_threshold (hx r (by omega)) (hlast r)
  obtain ⟨q, hq, hodd⟩ := exists_threshold (hx (r + a) (by omega)) (hlast (r + a))
  have hthresholds : Thresholds (ComparatorLayer.subsequence a r x) p q :=
    ⟨fun j => by rw [subsequence_even, heven], fun j => by rw [subsequence_odd, hodd]⟩
  have hqp : q ≤ p := by
    have hle := hpairs r hr p
    rw [heven, hodd, Bool.le_iff_imp, decide_eq_true_eq, decide_eq_true_eq] at hle
    exact hle le_rfl
  exact hthresholds.merges hqp (by omega)

theorem monotone_secondHalf (i t : ℕ) {x : ℕ → Bool} (hx : Striped (2 ^ i) x)
    (hpairs : ∀ s, s < i → PairsOrdered (2 ^ s) x) (hend : ∀ p, 2 ^ (i + t) ≤ p → x p = true) :
    Monotone (run (secondHalf i t) x) := by
  induction i generalizing t x with
  | zero =>
      have hone := hx 0 Nat.zero_lt_one
      have heq : ComparatorLayer.subsequence (2 ^ 0) 0 x = x := funext fun j => by
        change x (0 + 1 * j) = x j
        rw [Nat.zero_add, Nat.one_mul]
      rwa [heq] at hone
  | succ i ih =>
      have hpow : 2 * 2 ^ i * 2 ^ t = 2 ^ (i + 1 + t) := by ring
      have hstage := striped_merges (t := t) (by rwa [pow_succ'] at hx) (hpairs i (Nat.lt_succ_self i))
        fun p hp => hend p (by rwa [hpow] at hp)
      rw [secondHalf, run_append]
      refine ih (t + 1) hstage (fun s hs => ?_) fun p hp => ?_
      · exact (hpairs s (by omega)).run_two_pow hs (merges t)
      · have hproper := stride_proper (merges_proper t) (Nat.two_pow_pos i)
        refine (run_truncate hproper fun q hq => ?_).2 p hp
        exact hend q (by rwa [Nat.add_assoc, Nat.add_comm 1 t])

theorem monotone_network (k : ℕ) {x : ℕ → Bool} (hx : ∀ p, 2 ^ k ≤ p → x p = true) :
    Monotone (run (network k) x) := by
  have hend := (run_truncate (firstHalf_proper k) hx).2
  rw [network, run_append]
  refine monotone_secondHalf k 0 (fun r _ => ?_) (fun s hs => pairsOrdered_firstHalf k x hs) hend
  refine monotone_nat_of_le_succ fun j => ?_
  have hlast : ComparatorLayer.subsequence (2 ^ k) r (run (firstHalf k) x) (j + 1) = true := by
    apply hend _
    rw [Nat.mul_add, Nat.mul_one]
    omega
  rw [hlast]
  exact Bool.le_true _

theorem network_proper (k : ℕ) : ∀ L ∈ network k, L.Proper := by
  intro L hL
  rcases List.mem_append.mp hL with hL | hL
  · exact firstHalf_proper k L hL
  · exact secondHalf_proper k 0 L hL

/-- The pairs that lie within the first `n` positions are enough to sort these. -/
theorem sorts_truncate {n k : ℕ} (hn : n ≤ 2 ^ k) :
    Sorts α n ((network k).map fun L => L.truncate n) := by
  refine Sorts.of_bool fun x i j hij hj => ?_
  let padded : ℕ → Bool := fun p => if p < n then x p else true
  have hpadded : ∀ p, n ≤ p → padded p = ⊤ := fun p hp => if_neg (not_lt.mpr hp)
  have hrun : ∀ p, p < n → run ((network k).map fun L => L.truncate n) x p = run (network k) padded p := by
    intro p hp
    rw [← (run_truncate (network_proper k) hpadded).1]
    exact run_truncate_congr (fun q hq => (if_pos hq).symm) hp
  rw [hrun i (by omega), hrun j hj]
  exact monotone_network k (fun p hp => hpadded p (hn.trans hp)) hij

end Stages

end CryptDough.PairwiseNetwork
