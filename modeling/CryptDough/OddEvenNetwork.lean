import CryptDough.BitonicNetwork

/-! Odd-even merging. What stands at the even and at the odd positions is merged first; then the even
positions hold at most two of the smaller elements too many. -/

namespace CryptDough.OddEvenNetwork

open ComparatorNetwork PairwiseNetwork

/-- Odd positions with the even ones after them, at the strides `2 ^ (t - 1)` down to one. -/
def offsets : ℕ → List ComparatorLayer
  | 0 => []
  | t + 1 => (mergePairs 1).stride (2 ^ t) :: offsets t

/-- Merges two halves of `2 ^ t` elements. -/
def oddEven (t : ℕ) : List ComparatorLayer := pairs.stride (2 ^ t) :: offsets t

theorem offsets_succ (t : ℕ) :
    offsets (t + 1) = ((offsets t).map fun L => L.stride 2) ++ [mergePairs 1] := by
  induction t with
  | zero => simp [offsets, ComparatorLayer.stride]
  | succ t ih =>
      have hstride : (mergePairs 1).stride (2 ^ (t + 1)) =
          ((mergePairs 1).stride (2 ^ t)).stride 2 := by
        rw [ComparatorLayer.stride_stride, pow_succ']
      calc offsets (t + 1 + 1) = (mergePairs 1).stride (2 ^ (t + 1)) :: offsets (t + 1) := rfl
        _ = ((mergePairs 1).stride (2 ^ t)).stride 2 ::
            (((offsets t).map fun L => L.stride 2) ++ [mergePairs 1]) := by
            rw [hstride, ih]
        _ = ((offsets (t + 1)).map fun L => L.stride 2) ++ [mergePairs 1] := rfl

theorem oddEven_succ (t : ℕ) :
    oddEven (t + 1) = ((oddEven t).map fun L => L.stride 2) ++ [mergePairs 1] := by
  have hstride : pairs.stride (2 ^ (t + 1)) = (pairs.stride (2 ^ t)).stride 2 := by
    rw [ComparatorLayer.stride_stride, pow_succ']
  rw [oddEven, offsets_succ, hstride]
  rfl

theorem oddEven_proper (t : ℕ) : ∀ L ∈ oddEven t, L.Proper := by
  have hoffsets : ∀ t, ∀ L ∈ offsets t, L.Proper := by
    intro t
    induction t with
    | zero => exact fun L hL => absurd hL List.not_mem_nil
    | succ t ih =>
        intro L hL
        rcases List.mem_cons.mp hL with rfl | hL
        · exact (mergePairs_proper Nat.one_pos).stride (Nat.two_pow_pos t)
        · exact ih L hL
  intro L hL
  rcases List.mem_cons.mp hL with rfl | hL
  · exact pairs_proper.stride (Nat.two_pow_pos t)
  · exact hoffsets t L hL

/-- The halves of `m` elements have `a` and `b` zeros, and what is past them is one. -/
structure Halves (m a b : ℕ) (u : ℕ → Bool) : Prop where
  count : a ≤ m ∧ b ≤ m
  first : ∀ j, j < m → u j = decide (a ≤ j)
  second : ∀ j, j < m → u (m + j) = decide (b ≤ j)
  rest : ∀ p, m + m ≤ p → u p = true

/-- The zeros of both halves come to the front. -/
theorem Halves.merged {t a b : ℕ} {u : ℕ → Bool} (hu : Halves (2 ^ t) a b u) (p : ℕ) :
    run (oddEven t) u p = decide (a + b ≤ p) := by
  induction t generalizing a b u p with
  | zero =>
      obtain ⟨⟨ha, hb⟩, hfirst, hsecond, hrest⟩ := hu
      rw [pow_zero] at ha hb hfirst hsecond hrest
      have hlayer : run (oddEven 0) u = pairs.apply u := by
        change ComparatorLayer.apply (pairs.stride (2 ^ 0)) u = pairs.apply u
        congr 1
        simp [ComparatorLayer.stride]
      rw [hlayer]
      have hleft : ∀ j, pairs.left (2 * j) = true := fun j => by simp [pairs]
      obtain ⟨j, rfl | rfl⟩ := Nat.even_or_odd' p
      · rw [ComparatorLayer.apply_left (hleft j)]
        change min (u (2 * j)) (u (2 * j + 1)) = _
        rcases Nat.eq_zero_or_pos j with rfl | hj
        · rw [hfirst 0 Nat.one_pos, Nat.mul_zero, Nat.zero_add, ← Nat.add_zero 1, hsecond 0 Nat.one_pos,
            Bool.min_eq_and, ← Bool.decide_and, decide_eq_decide]
          omega
        · rw [hrest _ (by omega), hrest _ (by omega), min_self, eq_comm, decide_eq_true_eq]
          omega
      · have hright := ComparatorLayer.apply_right (x := u) pairs_proper (hleft j)
        apply hright.trans
        change max (u (2 * j)) (u (2 * j + 1)) = _
        rcases Nat.eq_zero_or_pos j with rfl | hj
        · rw [hfirst 0 Nat.one_pos, Nat.mul_zero, Nat.zero_add, ← Nat.add_zero 1, hsecond 0 Nat.one_pos,
            Bool.max_eq_or, ← Bool.decide_or, decide_eq_decide]
          omega
        · rw [hrest _ (by omega), hrest _ (by omega), max_self, eq_comm, decide_eq_true_eq]
          omega
  | succ t ih =>
      obtain ⟨⟨ha, hb⟩, hfirst, hsecond, hrest⟩ := hu
      have htwo : 2 ^ (t + 1) = 2 * 2 ^ t := pow_succ' 2 t
      rw [htwo] at ha hb hfirst hsecond hrest
      -- the zeros at the even positions, and those at the odd ones
      have heven : Halves (2 ^ t) ((a + 1) / 2) ((b + 1) / 2) (ComparatorLayer.subsequence 2 0 u) := by
        refine ⟨⟨by omega, by omega⟩, fun j hj => ?_, fun j hj => ?_, fun p hp => hrest _ (by omega)⟩
        · change u (0 + 2 * j) = _
          rw [Nat.zero_add, hfirst _ (by omega), decide_eq_decide]
          omega
        · change u (0 + 2 * (2 ^ t + j)) = _
          rw [Nat.zero_add, Nat.mul_add, hsecond _ (by omega), decide_eq_decide]
          omega
      have hodd : Halves (2 ^ t) (a / 2) (b / 2) (ComparatorLayer.subsequence 2 1 u) := by
        refine ⟨⟨by omega, by omega⟩, fun j hj => ?_, fun j hj => ?_, fun p hp => hrest _ (by omega)⟩
        · change u (1 + 2 * j) = _
          rw [hfirst _ (by omega), decide_eq_decide]
          omega
        · change u (1 + 2 * (2 ^ t + j)) = _
          rw [Nat.mul_add, Nat.add_left_comm, hsecond _ (by omega), decide_eq_decide]
          omega
      have hthresholds : Thresholds (run ((oddEven t).map fun L => L.stride 2) u)
          ((a + 1) / 2 + (b + 1) / 2) (a / 2 + b / 2) := by
        constructor
        · intro j
          have hrun := congrFun (run_stride (by omega : 0 < 2) u : _ = run (oddEven t) _) j
          rw [ih heven] at hrun
          rw [← hrun, ComparatorLayer.subsequence, Nat.zero_add]
        · intro j
          have hrun := congrFun (run_stride (by omega : 1 < 2) u : _ = run (oddEven t) _) j
          rw [ih hodd] at hrun
          rw [← hrun, ComparatorLayer.subsequence, Nat.add_comm]
      have hstep := hthresholds.step Nat.one_pos
      rw [oddEven_succ, run_append]
      change (mergePairs 1).apply _ p = _
      obtain ⟨j, rfl | rfl⟩ := Nat.even_or_odd' p
      · rw [hstep.even, decide_eq_decide]
        omega
      · rw [hstep.odd, decide_eq_decide]
        omega

/-- Sequences with sorted halves are merged. -/
theorem sorted_oddEven {α : Type} [LinearOrder α] {t : ℕ} {x : ℕ → α}
    (hx : BitonicNetwork.Blocks (2 ^ t) (2 ^ (t + 1)) x) :
    BitonicNetwork.SortedBlock (2 ^ (t + 1)) (run ((oddEven t).map fun L => L.truncate (2 ^ (t + 1))) x) := by
  intro i j hij hj
  refine run_le_of_bool fun f hf => ?_
  have htwo : 2 ^ (t + 1) = 2 ^ t + 2 ^ t := by ring
  have hhalf : ∀ b, b < 2 → BitonicNetwork.SortedBlock (2 ^ t) fun j => f (x (b * 2 ^ t + j)) := by
    intro b hb i' j' hij' hj'
    have hle : (b + 1) * 2 ^ t ≤ 2 ^ (t + 1) := by
      rw [pow_succ']
      exact Nat.mul_le_mul_right _ hb
    exact hf (hx b hle i' j' hij' hj')
  obtain ⟨a, ha, hfirst⟩ := BitonicNetwork.exists_count (hhalf 0 (by omega))
  obtain ⟨b, hb, hsecond⟩ := BitonicNetwork.exists_count (hhalf 1 (by omega))
  simp only [Nat.zero_mul, Nat.zero_add, Nat.one_mul] at hfirst hsecond
  let padded : ℕ → Bool := fun p => if p < 2 ^ (t + 1) then f (x p) else true
  have hpadded : ∀ p, 2 ^ (t + 1) ≤ p → padded p = ⊤ := fun p hp => if_neg (not_lt.mpr hp)
  have hhalves : Halves (2 ^ t) a b padded := by
    refine ⟨⟨ha, hb⟩, fun j hj => ?_, fun j hj => ?_, fun p hp => hpadded p (by omega)⟩
    · exact (if_pos (by omega)).trans (hfirst j hj)
    · exact (if_pos (by omega)).trans (hsecond j hj)
  have hrun : ∀ p, p < 2 ^ (t + 1) →
      run ((oddEven t).map fun L => L.truncate (2 ^ (t + 1))) (f ∘ x) p = decide (a + b ≤ p) := by
    intro p hp
    rw [← hhalves.merged p, ← (run_truncate (oddEven_proper t) hpadded).1]
    exact run_truncate_congr (fun q hq => (if_pos hq).symm) hp
  rw [hrun i (by omega), hrun j hj, Bool.le_iff_imp, decide_eq_true_eq, decide_eq_true_eq]
  exact fun hle => hle.trans hij

end CryptDough.OddEvenNetwork
