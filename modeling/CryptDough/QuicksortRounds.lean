import CryptDough.Comparison
import CryptDough.PrefixNetwork
import CryptDough.Quicksort

/-! The rounds of quicksort with the vectors the code keeps: pivots as numbers, the operands of all
comparisons read through index mappings, and the opened bits scattered over those of earlier rounds.
They are the iterations of the quicksort above, and every pivot they use ends where it belongs. -/

namespace CryptDough.Quicksort

open Protocol PrefixNetwork

variable {w n : ℕ}

/-- The vectors of `quicksort_body` that outlive an iteration; a pivot is its own position, other
positions hold minus one. -/
structure Body (w : ℕ) where
  v : ℕ → BitVec w
  pivots : ℕ → ℤ
  expCmpPlaintext : ℕ → BitVec w

/-- Pivots are stored as non-negative values. -/
def isPivot (pivots : ℕ → ℤ) (p : ℕ) : Bool := decide (0 ≤ pivots p)

/-- `prefix_sum(std::max)`. -/
def prefixMax (pivots : ℕ → ℤ) : ℕ → ℤ
  | 0 => pivots 0
  | j + 1 => max (prefixMax pivots j) (pivots (j + 1))

/-- The entries of a mapping whose flag is set; missing flags are zero. -/
def includedReference : (mapping : List ℕ) → (flag : List Bool) → List ℕ
  | m :: mapping, f :: flag =>
      if f then m :: includedReference mapping flag else includedReference mapping flag
  | _, _ => []

namespace Body

def nonPivots (n : ℕ) (s : Body w) : List ℕ :=
  includedReference (List.range n) ((List.range n).map fun p => decide (s.pivots p < 0))

/-- The comparisons of an iteration: the elements that are no pivots with the nearest pivot before. -/
def cmpPlaintext (n : ℕ) (s : Body w) : List (BitVec w) :=
  let pivotVec := ((s.nonPivots n).map (prefixMax s.pivots)).map fun index => s.v index.toNat
  let reducedVec := (s.nonPivots n).map s.v
  List.zipWith Opened.greaterB reducedVec pivotVec

/-- Elements whose comparison is zero move to the left of the pivot at `start`. -/
def partition (start last : ℕ) (s : Body w) : Body w :=
  let (v, i) := partitionLoop (fun j => decide (s.expCmpPlaintext j ≠ 0)) (last - start) (start + 1)
    start s.v
  let pivots := Function.update s.pivots i i
  { s with
    v := v ∘ Equiv.swap start i
    pivots := if i + 1 ≤ last then Function.update pivots (i + 1) ((i + 1 : ℕ) : ℤ) else pivots }

def partitionAll : (rest p : ℕ) → (index : ℤ) → Body w → Body w
  | 0, p, index, s => s.partition index.toNat (p - 1)
  | rest + 1, p, index, s =>
      if s.pivots p < 0 then partitionAll rest (p + 1) index s
      else if (p : ℤ) - index = 1 then partitionAll rest (p + 1) (index + 1) s
      else partitionAll rest (p + 1) p (s.partition index.toNat (p - 1))

def pass (n : ℕ) (s : Body w) : Body w :=
  let expCmpPlaintext := assignView s.expCmpPlaintext (s.nonPivots n) (s.cmpPlaintext n)
  partitionAll n 0 (-1) { s with expCmpPlaintext }

/-- One iteration of `quicksort_body`. -/
def round (n : ℕ) (s : Body w) : Option (Body w) :=
  if FitsInts n then some (pass n s) else none

def start (x : Vec w n) : Body w where
  v k := if h : k < n then x ⟨k, h⟩ else 0
  pivots p := if p = 0 then 0 else -1
  expCmpPlaintext _ := 0

/-- The main loop, cut off after `fuel` iterations. -/
def loop (n : ℕ) : (fuel : ℕ) → Body w → Option (Body w)
  | 0, _ => none
  | fuel + 1, s => do
      let s ← round n s
      if n ≤ numPivots n (isPivot s.pivots) then some s else loop n fuel s

/-- The vectors at the start of an iteration. -/
inductive Reached (n : ℕ) (s₀ : Body w) : Body w → Prop
  | start : Reached n s₀ s₀
  | next {s s' : Body w} : Reached n s₀ s → round n s = some s' →
      numPivots n (isPivot s'.pivots) < n → Reached n s₀ s'

/-- The multiset of the elements. -/
def elements (n : ℕ) (s : Body w) : Multiset (BitVec w) := (Multiset.range n).map s.v

end Body

section Gather

theorem includedReference_map (flag : ℕ → Bool) (mapping : List ℕ) :
    includedReference mapping (mapping.map flag) = mapping.filter flag := by
  induction mapping with
  | nil => rfl
  | cons m mapping ih =>
      rw [List.map_cons, includedReference, ih, List.filter_cons]

theorem Body.nonPivots_eq (n : ℕ) (s : Body w) :
    s.nonPivots n = (List.range n).filter fun p => decide (s.pivots p < 0) :=
  includedReference_map _ _

/-- The bit of an element that is no pivot, whatever an earlier iteration has left there. -/
theorem Body.assignView_cmpPlaintext (s : Body w) {j : ℕ} (hj : j < n) (hneg : s.pivots j < 0)
    (f : ℕ → BitVec w) :
    assignView f (s.nonPivots n) (s.cmpPlaintext n) j =
      Opened.greaterB (s.v j) (s.v (prefixMax s.pivots j).toNat) := by
  have hcmp : s.cmpPlaintext n = (s.nonPivots n).map fun j =>
      Opened.greaterB (s.v j) (s.v (prefixMax s.pivots j).toNat) := by
    rw [cmpPlaintext, List.map_map, List.zipWith_map, List.zipWith_self]
    rfl
  have hmem : j ∈ s.nonPivots n := by
    rw [s.nonPivots_eq]
    exact List.mem_filter.mpr ⟨List.mem_range.mpr hj, decide_eq_true hneg⟩
  have hnodup : (s.nonPivots n).Nodup := by
    rw [s.nonPivots_eq]
    exact List.nodup_range.filter _
  have hread := @assignView_of_mem _ id (s.nonPivots n) f
    (fun j => Opened.greaterB (s.v j) (s.v (prefixMax s.pivots j).toNat)) (by rwa [List.map_id]) j hmem
  rw [List.map_id, ← hcmp] at hread
  exact hread

end Gather

section Simulation

/-- The elements and the pivots as the iteration of `Quicksort` has them. -/
def Body.state (s : Body w) : State w := ⟨s.v, isPivot s.pivots⟩

theorem isPivot_update (pivots : ℕ → ℤ) (i : ℕ) :
    isPivot (Function.update pivots i (i : ℤ)) = Function.update (isPivot pivots) i true := by
  ext p
  by_cases hp : p = i
  · subst hp
    simp [isPivot]
  · simp [isPivot, hp]

namespace Body

theorem state_partition (start last : ℕ) (s : Body w) :
    (s.partition start last).state =
      Quicksort.partition (fun j => decide (s.expCmpPlaintext j ≠ 0)) start last s.state := by
  simp only [partition, Quicksort.partition, state, apply_ite isPivot, isPivot_update]
  rfl

theorem state_partitionAll (rest p : ℕ) (index : ℤ) (s : Body w) :
    (partitionAll rest p index s).state =
      Quicksort.partitionAll (fun j => decide (s.expCmpPlaintext j ≠ 0)) rest p index s.state := by
  induction rest generalizing p index s with
  | zero => exact state_partition _ _ s
  | succ rest ih =>
      have hpivot : s.state.pivots p = false ↔ s.pivots p < 0 := by
        simp [state, isPivot]
      rw [partitionAll, Quicksort.partitionAll]
      simp only [hpivot]
      split
      · exact ih _ _ s
      · split
        · exact ih _ _ s
        · rw [ih, state_partition]
          rfl

end Body

/-! The bits that a pass reads belong to positions that are no pivots. -/

theorem partitionLoop_congr {cmp cmp' : ℕ → Bool} (len : ℕ) {j i : ℕ} {v : ℕ → BitVec w}
    (hcmp : ∀ k, j ≤ k → k < j + len → cmp k = cmp' k) :
    partitionLoop cmp len j i v = partitionLoop cmp' len j i v := by
  induction len generalizing j i v with
  | zero => rfl
  | succ len ih =>
      rw [partitionLoop, partitionLoop, hcmp j le_rfl (by omega),
        ih fun k hk hk' => hcmp k (by omega) (by omega),
        ih fun k hk hk' => hcmp k (by omega) (by omega)]

theorem partition_congr {cmp cmp' : ℕ → Bool} {p index : ℕ} {s : State w} (hindex : index < p)
    (hcmp : ∀ j, index < j → j < p → cmp j = cmp' j) :
    partition cmp index (p - 1) s = partition cmp' index (p - 1) s := by
  have hloop := @partitionLoop_congr _ cmp cmp' (p - 1 - index) (index + 1) index s.v fun k hk hk' =>
    hcmp k (by omega) (by omega)
  simp only [partition, hloop]

theorem partitionLoop_le (cmp : ℕ → Bool) (len : ℕ) (j i : ℕ) (v : ℕ → BitVec w) :
    (partitionLoop cmp len j i v).2 ≤ i + len := by
  induction len generalizing j i v with
  | zero => exact le_rfl
  | succ len ih =>
      rw [partitionLoop]
      split
      · exact (ih (j + 1) i v).trans (by omega)
      · exact (ih (j + 1) (i + 1) _).trans (by omega)

theorem partition_pivots_of_lt {cmp : ℕ → Bool} {start last q : ℕ} (hle : start ≤ last)
    (hq : last < q) (s : State w) : (partition cmp start last s).pivots q = s.pivots q := by
  have hi := partitionLoop_le cmp (last - start) (start + 1) start s.v
  simp only [partition]
  split
  · rw [Function.update_of_ne (by omega), Function.update_of_ne (by omega)]
  · rw [Function.update_of_ne (by omega)]

theorem partitionAll_congr {cmp cmp' : ℕ → Bool} (rest : ℕ) {p index : ℕ} {s₀ s : State w}
    (hcmp : ∀ j, j < p + rest → s₀.pivots j = false → cmp j = cmp' j) (hindex : index < p)
    (hfree : ∀ j, index < j → j < p → s₀.pivots j = false)
    (hrest : ∀ j, p ≤ j → s.pivots j = s₀.pivots j) :
    partitionAll cmp rest p index s = partitionAll cmp' rest p index s := by
  induction rest generalizing p index s with
  | zero =>
      have hpart := @partition_congr _ cmp cmp' p index s hindex fun j hj hjp =>
        hcmp j (by omega) (hfree j hj hjp)
      rw [partitionAll, partitionAll, Int.toNat_natCast, hpart]
  | succ rest ih =>
      rw [partitionAll, partitionAll, hrest p le_rfl]
      cases hp : s₀.pivots p with
      | false =>
          rw [if_pos rfl, if_pos rfl]
          refine ih (fun j hj => hcmp j (by omega)) (by omega) (fun j hj hjp => ?_)
            fun j hj => hrest j (by omega)
          rcases Nat.lt_succ_iff_lt_or_eq.mp hjp with hlt | rfl
          · exact hfree j hj hlt
          · exact hp
      | true =>
          rw [if_neg Bool.true_eq_false_eq_False, if_neg Bool.true_eq_false_eq_False]
          by_cases hadj : (p : ℤ) - index = 1
          · rw [if_pos hadj, if_pos hadj]
            have hnext := @ih (p + 1) (index + 1) s (fun j hj => hcmp j (by omega)) (by omega)
              (fun j hj hjp => by omega) fun j hj => hrest j (by omega)
            exact_mod_cast hnext
          · have hpart := @partition_congr _ cmp cmp' p index s hindex fun j hj hjp =>
              hcmp j (by omega) (hfree j hj hjp)
            rw [if_neg hadj, if_neg hadj, Int.toNat_natCast, hpart]
            refine ih (fun j hj => hcmp j (by omega)) (Nat.lt_succ_self p)
              (fun j hj hjp => by omega) fun j hj => ?_
            rw [partition_pivots_of_lt (by omega) (by omega), hrest j (by omega)]

theorem nearestPivot_le (pivots : ℕ → Bool) (j : ℕ) : nearestPivot pivots j ≤ j := by
  induction j with
  | zero => exact le_rfl
  | succ j ih =>
      rw [nearestPivot]
      split
      · exact le_rfl
      · omega

/-- A pivot is its own position. -/
def WellMarked (pivots : ℕ → ℤ) : Prop := ∀ p, pivots p = -1 ∨ pivots p = p

theorem WellMarked.update {pivots : ℕ → ℤ} (hp : WellMarked pivots) (i : ℕ) :
    WellMarked (Function.update pivots i (i : ℤ)) := by
  intro p
  by_cases heq : p = i
  · subst heq
    simp
  · rw [Function.update_of_ne heq]
    exact hp p

theorem WellMarked.prefixMax_eq {pivots : ℕ → ℤ} (hp : WellMarked pivots)
    (hfirst : isPivot pivots 0 = true) (j : ℕ) :
    prefixMax pivots j = nearestPivot (isPivot pivots) j := by
  induction j with
  | zero =>
      have hzero : 0 ≤ pivots 0 := of_decide_eq_true hfirst
      have hmark := hp 0
      rw [prefixMax, nearestPivot]
      omega
  | succ j ih =>
      have hle := nearestPivot_le (isPivot pivots) j
      have hmark := hp (j + 1)
      rw [prefixMax, nearestPivot, ih]
      by_cases hpivot : 0 ≤ pivots (j + 1)
      · rw [isPivot, decide_eq_true hpivot, if_pos rfl]
        omega
      · rw [isPivot, decide_eq_false hpivot, if_neg Bool.false_ne_true]
        omega

namespace Body

theorem wellMarked_partition {s : Body w} (hs : WellMarked s.pivots) (start last : ℕ) :
    WellMarked (s.partition start last).pivots := by
  simp only [partition]
  split
  · exact (hs.update _).update _
  · exact hs.update _

theorem wellMarked_partitionAll (rest p : ℕ) (index : ℤ) {s : Body w} (hs : WellMarked s.pivots) :
    WellMarked (partitionAll rest p index s).pivots := by
  induction rest generalizing p index s with
  | zero => exact wellMarked_partition hs _ _
  | succ rest ih =>
      rw [partitionAll]
      split
      · exact ih _ _ hs
      · split
        · exact ih _ _ hs
        · exact ih _ _ (wellMarked_partition hs _ _)

/-- A pass is an iteration on the elements and the pivots; the old bits do not matter. -/
theorem state_pass {s : Body w} (hs : WellMarked s.pivots) (hfirst : isPivot s.pivots 0 = true)
    (hn : 0 < n) : (pass n s).state = iteration n s.state := by
  obtain ⟨m, rfl⟩ : ∃ m, n = m + 1 := ⟨n - 1, by omega⟩
  have hcmp : ∀ j, j < m + 1 → s.state.pivots j = false →
      decide (assignView s.expCmpPlaintext (s.nonPivots (m + 1)) (s.cmpPlaintext (m + 1)) j ≠ 0) =
        comparisonsOf s.state j := by
    intro j hj hpivot
    have hneg : s.pivots j < 0 := by simpa [state, isPivot] using hpivot
    rw [s.assignView_cmpPlaintext hj hneg, hs.prefixMax_eq hfirst, Int.toNat_natCast,
      Bool.eq_iff_iff, decide_eq_true_iff, comparisonsOf, BitVec.slt_iff_toInt_lt, Opened.greaterB]
    change _ ↔ (s.v (nearestPivot (isPivot s.pivots) j)).toInt < (s.v j).toInt
    by_cases hlt : (s.v (nearestPivot (isPivot s.pivots) j)).toInt < (s.v j).toInt
    · have hw : w ≠ 0 := by
        rintro rfl
        rw [BitVec.eq_nil (s.v j), BitVec.eq_nil (s.v _)] at hlt
        exact lt_irrefl _ hlt
      simp [hlt, hw, Opened.bit]
    · simp [hlt, Opened.bit]
  have hstart : s.state.pivots 0 = true := hfirst
  rw [pass, state_partitionAll, iteration]
  change Quicksort.partitionAll _ (m + 1) 0 (-1) s.state = _
  rw [partitionAll_first _ hstart, partitionAll_first _ hstart]
  exact partitionAll_congr m (fun j hj => hcmp j (by omega)) Nat.zero_lt_one
    (fun j hj hj' => by omega) fun _ _ => rfl

end Body

end Simulation

section Placed

/-- A pivot followed by another, or by the end: its segment is the pivot alone. -/
structure Settled (n : ℕ) (s : State w) (r : ℕ) : Prop where
  lt : r < n
  pivot : s.pivots r = true
  next : r + 1 < n → s.pivots (r + 1) = true

theorem Settled.mono {s s' : State w} {r : ℕ} (hr : Settled n s r)
    (hkeeps : ∀ q, s.pivots q = true → s'.pivots q = true) : Settled n s' r where
  lt := hr.lt
  pivot := hkeeps r hr.pivot
  next := fun hlt => hkeeps _ (hr.next hlt)

/-- The pivots of the segments before `index` have been put where they belong. -/
def Placed (n index : ℕ) (s₀ s : State w) : Prop :=
  ∀ q, q < index → s₀.pivots q = true → ∃ r, r < index ∧ Settled n s r ∧ s.v r = s₀.v q

theorem Placed.adjacent {index : ℕ} {s₀ s : State w} (hs : Passed n (index + 1) index s₀ s)
    (hp : s₀.pivots (index + 1) = true) (hlt : index + 1 < n) (hplaced : Placed n index s₀ s) :
    Placed n (index + 1) s₀ s := by
  intro q hq hpivot
  rcases Nat.lt_succ_iff_lt_or_eq.mp hq with hbefore | rfl
  · obtain ⟨r, hr, hsettled, hv⟩ := hplaced q hbefore hpivot
    exact ⟨r, by omega, hsettled, hv⟩
  · have hrest := hs.rest q le_rfl
    have hnext := hs.rest (q + 1) (by omega)
    refine ⟨q, hq, ⟨by omega, ?_, fun _ => ?_⟩, hrest.1⟩
    · rw [hrest.2, hpivot]
    · rw [hnext.2, hp]

/-- The pivot of the segment that is partitioned joins them. -/
theorem Placed.close {p index : ℕ} {s₀ s : State w} (hs : Passed n p index s₀ s) (hp : p ≤ n)
    (hnext : p < n → s₀.pivots p = true) (hplaced : Placed n index s₀ s) :
    Placed n p s₀ (partition (comparisonsOf s₀) index (p - 1) s) := by
  have hlt := hs.lt
  have hpart := hs.partitioned hp hnext
  obtain ⟨i, hi, hip, -, hpivot, -, -, hpivots⟩ := partition_elements (by omega) hs.comparisons
  obtain ⟨σ, hσ, hv⟩ := hpart.perm
  set s' := partition (comparisonsOf s₀) index (p - 1) s
  intro q hq hmarked
  rcases lt_trichotomy q index with hbefore | rfl | hafter
  · obtain ⟨r, hr, hsettled, heq⟩ := hplaced q hbefore hmarked
    refine ⟨r, by omega, hsettled.mono hpart.keeps, ?_⟩
    rw [hv, Function.comp_apply, hσ r (Or.inl hr), heq]
  · refine ⟨i, by omega, ⟨by omega, ?_, fun hin => ?_⟩, ?_⟩
    · rw [hpivots]
      split <;> simp
    · by_cases hinside : i + 1 ≤ p - 1
      · rw [hpivots, if_pos hinside, Function.update_self]
      · obtain rfl : i + 1 = p := by omega
        apply hpart.keeps _
        rw [(hs.rest (i + 1) (by omega)).2]
        exact hnext hin
    · rw [hpivot, (hs.rest q le_rfl).1]
  · rw [hs.free q hafter hq] at hmarked
    exact absurd hmarked Bool.false_ne_true

theorem partitionAll_placed {s₀ : State w} (rest : ℕ) {p index : ℕ} {s : State w}
    (hrest : p + rest = n) (hs : Passed n p index s₀ s) (hplaced : Placed n index s₀ s) :
    Placed n n s₀ (partitionAll (comparisonsOf s₀) rest p index s) := by
  induction rest generalizing p index s with
  | zero =>
      obtain rfl : p = n := by omega
      rw [partitionAll, Int.toNat_natCast]
      exact hplaced.close hs le_rfl fun hlt => absurd hlt (lt_irrefl p)
  | succ rest ih =>
      rw [partitionAll, (hs.rest p hs.lt.le).2]
      cases hp : s₀.pivots p with
      | false =>
          rw [if_pos rfl]
          exact ih (by omega) (hs.skip hp) hplaced
      | true =>
          rw [if_neg Bool.true_eq_false_eq_False]
          by_cases hadj : (p : ℤ) - index = 1
          · rw [if_pos hadj]
            obtain rfl : p = index + 1 := by omega
            have hnext := ih (by omega) (hs.adjacent hp) (hplaced.adjacent hs hp (by omega))
            exact_mod_cast hnext
          · rw [if_neg hadj, Int.toNat_natCast]
            exact ih (by omega) (hs.next (by omega) hp (hs.partitioned (by omega) fun _ => hp))
              (hplaced.close hs (by omega) fun _ => hp)

theorem iteration_placed (hn : 0 < n) {s : State w} (hs : Inv n s) :
    Placed n n s (iteration n s) := by
  obtain ⟨m, rfl⟩ : ∃ m, n = m + 1 := ⟨n - 1, by omega⟩
  rw [iteration, partitionAll_first _ hs.first]
  exact partitionAll_placed m (by omega) (Passed.start hs) fun q hq => absurd hq (Nat.not_lt_zero q)

end Placed

section Rounds

/-- No element before is smaller, and none after is larger: this is where the element ends. -/
structure AtFinalPosition (n : ℕ) (v : ℕ → BitVec w) (q : ℕ) : Prop where
  lt : q < n
  left : ∀ a, a < q → (v a).toInt < (v q).toInt
  right : ∀ b, q < b → b < n → (v q).toInt < (v b).toInt

/-- As many elements are smaller as there are positions before. -/
theorem AtFinalPosition.countP_eq {v : ℕ → BitVec w} {q : ℕ} (hq : AtFinalPosition n v q) :
    Multiset.countP (fun b : BitVec w => b.toInt < (v q).toInt) ((Multiset.range n).map v) = q := by
  have hfilter : (Finset.range n).filter (fun k => (v k).toInt < (v q).toInt) = Finset.range q := by
    ext k
    rw [Finset.mem_filter, Finset.mem_range, Finset.mem_range]
    constructor
    · rintro ⟨hk, hlt⟩
      rcases lt_trichotomy k q with hkq | rfl | hqk
      · exact hkq
      · exact absurd hlt (lt_irrefl _)
      · exact absurd (hq.right k hqk hk) (not_lt.mpr hlt.le)
    · exact fun hk => ⟨hk.trans hq.lt, hq.left k hk⟩
  rw [Multiset.countP_map]
  calc _ = ((Finset.range n).filter (fun k => (v k).toInt < (v q).toInt)).card := rfl
    _ = q := by rw [hfilter, Finset.card_range]

/-- The same element is in its final position at one place only. -/
theorem AtFinalPosition.unique {v v' : ℕ → BitVec w} {q q' : ℕ} (hq : AtFinalPosition n v q)
    (hq' : AtFinalPosition n v' q')
    (helements : (Multiset.range n).map v' = (Multiset.range n).map v) (heq : v' q' = v q) :
    q' = q := by
  rw [← hq'.countP_eq, helements, heq, hq.countP_eq]

theorem map_perm_range {σ : Equiv.Perm ℕ} (hσ : ∀ k, n ≤ k → σ k = k) :
    (Multiset.range n).map σ = Multiset.range n := by
  refine (Multiset.Nodup.ext ((Multiset.nodup_range n).map σ.injective)
    (Multiset.nodup_range n)).mpr fun a => ?_
  have hlt : ∀ k, σ k < n ↔ k < n := by
    intro k
    constructor
    · intro hk
      by_contra hge
      rw [hσ k (not_lt.mp hge)] at hk
      exact hge hk
    · intro hk
      by_contra hge
      have hfix : σ (σ k) = σ k := hσ _ (not_lt.mp hge)
      rw [σ.injective hfix] at hge
      exact hge hk
  rw [Multiset.mem_map, Multiset.mem_range]
  constructor
  · rintro ⟨k, hk, rfl⟩
    exact (hlt k).mpr (Multiset.mem_range.mp hk)
  · intro ha
    refine ⟨σ.symm a, Multiset.mem_range.mpr ((hlt _).mp ?_), σ.apply_symm_apply a⟩
    rwa [σ.apply_symm_apply]

namespace Body

theorem elements_start (x : Vec w n) : (start x).elements n = Finset.univ.val.map x := by
  rw [Fin.univ_val_map, elements, ← Multiset.coe_range, Multiset.map_coe]
  congr 1
  apply List.ext_getElem
  · simp
  · intro k hk hk'
    rw [List.length_map, List.length_range] at hk
    simp [start, hk]

theorem elements_rearrange (pi : Equiv.Perm (Fin n)) (x : Vec w n) :
    (start (StableSort.rearrange pi x)).elements n = Finset.univ.val.map x := by
  rw [elements_start]
  calc Finset.univ.val.map (StableSort.rearrange pi x)
      = (Finset.univ.val.map pi.symm).map x := (Multiset.map_map x pi.symm _).symm
    _ = Finset.univ.val.map x := by rw [Multiset.map_univ_val_equiv]

/-- What holds at the start of every iteration. -/
structure Valid (n : ℕ) (s : Body w) : Prop where
  marked : WellMarked s.pivots
  inv : Inv n s.state

theorem Valid.start (x : Vec w n) : Valid n (Body.start x) where
  marked := by
    intro p
    by_cases hp : p = 0
    · subst hp
      exact Or.inr rfl
    · exact Or.inl (if_neg hp)
  inv := by
    refine ⟨rfl, fun p hp hpivot a b hap => ?_⟩
    have hnonneg : (0 : ℤ) ≤ if p = 0 then 0 else -1 := of_decide_eq_true hpivot
    split at hnonneg <;> omega

theorem Valid.state_pass (hn : 0 < n) {s : Body w} (hs : Valid n s) :
    (pass n s).state = iteration n s.state := Body.state_pass hs.marked hs.inv.first hn

theorem Valid.advances (hn : 0 < n) {s : Body w} (hs : Valid n s) :
    Advances n s.state (pass n s).state := by
  rw [hs.state_pass hn]
  exact iteration_advances hn hs.inv

theorem Valid.next (hn : 0 < n) {s : Body w} (hs : Valid n s) : Valid n (pass n s) where
  marked := wellMarked_partitionAll _ _ _ hs.marked
  inv := (hs.advances hn).inv

theorem Valid.elements_pass (hn : 0 < n) {s : Body w} (hs : Valid n s) :
    (pass n s).elements n = s.elements n := by
  obtain ⟨σ, hσ, hv⟩ := (hs.advances hn).perm
  have hv' : (pass n s).v = s.v ∘ σ := hv
  calc (Multiset.range n).map (pass n s).v
      = ((Multiset.range n).map σ).map s.v := by rw [hv', Multiset.map_map]
    _ = (Multiset.range n).map s.v := by rw [map_perm_range hσ]

/-- With different elements the order that the pivots impose is strict. -/
theorem Valid.separates {s : Body w} (hs : Valid n s) (hnodup : (s.elements n).Nodup) {p : ℕ}
    (hp : p < n) (hpivot : isPivot s.pivots p = true) {a b : ℕ} (hap : a < p) (hpb : p ≤ b)
    (hb : b < n) : (s.v a).toInt < (s.v b).toInt := by
  refine lt_of_le_of_ne (hs.inv.split p hp hpivot a b hap hpb hb) fun heq => ?_
  have hinj := Multiset.inj_on_of_nodup_map hnodup a (Multiset.mem_range.mpr (by omega)) b
    (Multiset.mem_range.mpr hb) (BitVec.eq_of_toInt_eq heq)
  omega

theorem Valid.atFinalPosition {s : Body w} (hs : Valid n s) (hnodup : (s.elements n).Nodup) {r : ℕ}
    (hr : Settled n s.state r) : AtFinalPosition n s.v r where
  lt := hr.lt
  left := fun _ ha => hs.separates hnodup hr.lt hr.pivot ha le_rfl hr.lt
  right := fun _ hb hbn =>
    hs.separates hnodup (by omega) (hr.next (by omega)) (Nat.lt_succ_self r) hb hbn

/-- What an iteration does to the vectors `s`. -/
structure RoundCorrect (n : ℕ) (s s' : Body w) : Prop where
  increases : numPivots n (isPivot s.pivots) < n →
    numPivots n (isPivot s.pivots) < numPivots n (isPivot s'.pivots)
  elements : s'.elements n = s.elements n
  separates : ∀ p, p < n → isPivot s'.pivots p = true →
    ∀ a b, a < p → p ≤ b → b < n → (s'.v a).toInt < (s'.v b).toInt
  placed : ∀ p, p < n → isPivot s.pivots p = true →
    ∃ q, isPivot s'.pivots q = true ∧ s'.v q = s.v p ∧ AtFinalPosition n s'.v q
  stays : ∀ p, p < n → isPivot s.pivots p = true → AtFinalPosition n s.v p →
    isPivot s'.pivots p = true ∧ s'.v p = s.v p

theorem Valid.roundCorrect (hn : 0 < n) {s : Body w} (hs : Valid n s)
    (hnodup : (s.elements n).Nodup) : RoundCorrect n s (pass n s) := by
  have hadvances := hs.advances hn
  have helements := hs.elements_pass hn
  have hvalid := hs.next hn
  have hnodup' : ((pass n s).elements n).Nodup := by rwa [helements]
  have hplaced : ∀ p, p < n → isPivot s.pivots p = true →
      ∃ q, isPivot (pass n s).pivots q = true ∧ (pass n s).v q = s.v p ∧
        AtFinalPosition n (pass n s).v q := by
    intro p hp hpivot
    have hall := iteration_placed hn hs.inv
    rw [← hs.state_pass hn] at hall
    obtain ⟨q, -, hq, hv⟩ := hall p hp hpivot
    exact ⟨q, hq.pivot, hv, hvalid.atFinalPosition hnodup' hq⟩
  refine ⟨hadvances.numPivots_lt, helements, fun p hp hpivot a b => hvalid.separates hnodup' hp hpivot,
    hplaced, fun p hp hpivot hfinal => ⟨hadvances.keeps p hpivot, ?_⟩⟩
  obtain ⟨q, -, hv, hq⟩ := hplaced p hp hpivot
  obtain rfl : q = p := hfinal.unique hq helements hv
  exact hv

theorem round_of_fits (hfits : FitsInts n) (s : Body w) : round n s = some (pass n s) := if_pos hfits

theorem round_eq_some {s s' : Body w} (hround : round n s = some s') : s' = pass n s := by
  rw [round] at hround
  split at hround
  · exact (Option.some.inj hround).symm
  · cases hround

theorem Valid.reached (hn : 0 < n) {s₀ s : Body w} (hs : Reached n s₀ s) (h₀ : Valid n s₀) :
    Valid n s ∧ s.elements n = s₀.elements n := by
  induction hs with
  | start => exact ⟨h₀, rfl⟩
  | next _ hround _ ih =>
      rw [round_eq_some hround]
      exact ⟨ih.1.next hn, (ih.1.elements_pass hn).trans ih.2⟩

theorem loop_v (hn : 0 < n) (hfits : FitsInts n) (fuel : ℕ) {s : Body w} (hs : Valid n s) :
    (loop n fuel s).map Body.v = Quicksort.loop n fuel s.state := by
  induction fuel generalizing s with
  | zero => rfl
  | succ fuel ih =>
      rw [loop, loop_succ hfits, ← hs.state_pass hn, round_of_fits hfits]
      change Option.map v (if n ≤ numPivots n (isPivot (pass n s).pivots) then _ else _) =
        if n ≤ numPivots n (isPivot (pass n s).pivots) then _ else _
      split
      · rfl
      · exact ih (hs.next hn)

theorem loop_returns (hn : 0 < n) (hfits : FitsInts n) {s : Body w} (hs : Valid n s)
    (hnodup : (s.elements n).Nodup) :
    ∃ s', loop n n s = some s' ∧ s'.elements n = s.elements n ∧
      ∀ a b, a < b → b < n → (s'.v a).toInt < (s'.v b).toInt := by
  obtain ⟨v, hv, ⟨σ, hσ, rfl⟩, hsorted⟩ := Quicksort.loop_returns hn hfits n hs.inv hn
    (Nat.le_add_left n _)
  rw [← loop_v hn hfits n hs, Option.map_eq_some_iff] at hv
  obtain ⟨s', hloop, hv⟩ := hv
  have helements : s'.elements n = s.elements n := by
    calc (Multiset.range n).map s'.v = ((Multiset.range n).map σ).map s.v := by
          rw [hv, Multiset.map_map]
          rfl
      _ = (Multiset.range n).map s.v := by rw [map_perm_range hσ]
  refine ⟨s', hloop, helements, fun a b hab hb => lt_of_le_of_ne ?_ fun heq => ?_⟩
  · rw [hv]
    exact hsorted a b hab hb
  · rw [← helements] at hnodup
    have hinj := Multiset.inj_on_of_nodup_map hnodup a
      (Multiset.mem_range.mpr (by omega)) b (Multiset.mem_range.mpr hb) (BitVec.eq_of_toInt_eq heq)
    omega

end Body

/-- Whatever the shuffle, every iteration makes more pivots, keeps the elements, lets no larger element
stand before a pivot's position and puts every pivot it has used where it stays; in the end all
elements are in order. -/
theorem rounds_correct (hn : 0 < n) (hn31 : n < 2 ^ 31) {x : Vec w n} (hx : Function.Injective x)
    (pi : Equiv.Perm (Fin n)) :
    (∀ s, Body.Reached n (Body.start (StableSort.rearrange pi x)) s →
      s.elements n = Finset.univ.val.map x ∧ ∃ s', Body.round n s = some s' ∧ Body.RoundCorrect n s s') ∧
    ∃ s, Body.loop n n (Body.start (StableSort.rearrange pi x)) = some s ∧
      s.elements n = Finset.univ.val.map x ∧
      ∀ a b, a < b → b < n → (s.v a).toInt < (s.v b).toInt := by
  have helements := Body.elements_rearrange pi x
  have hnodup : (Finset.univ.val.map x).Nodup := Finset.univ.nodup.map hx
  constructor
  · intro s hs
    obtain ⟨hvalid, hsame⟩ := Body.Valid.reached hn hs (Body.Valid.start _)
    rw [helements] at hsame
    exact ⟨hsame, Body.pass n s, Body.round_of_fits hn31 s, hvalid.roundCorrect hn (by rwa [hsame])⟩
  · have hreturns := Body.loop_returns hn hn31 (Body.Valid.start (StableSort.rearrange pi x))
      (by rwa [helements])
    rwa [helements] at hreturns

/-- Four bytes, the smallest first. -/
def fourBytes : Vec 8 4 := ![0, 3, 1, 2]

theorem rounds_correct_fourBytes :
    (∀ s, Body.Reached 4 (Body.start (StableSort.rearrange (Equiv.refl _) fourBytes)) s →
      s.elements 4 = Finset.univ.val.map fourBytes ∧
        ∃ s', Body.round 4 s = some s' ∧ Body.RoundCorrect 4 s s') ∧
    ∃ s, Body.loop 4 4 (Body.start (StableSort.rearrange (Equiv.refl _) fourBytes)) = some s ∧
      s.elements 4 = Finset.univ.val.map fourBytes ∧
      ∀ a b, a < b → b < 4 → (s.v a).toInt < (s.v b).toInt :=
  rounds_correct (by decide) (by decide) (by decide) (Equiv.refl _)

/-- Different values, one more of them than the positive `int`s and zero. -/
def manyWords : Vec 64 (2 ^ 31) := fun k => BitVec.ofNat 64 k

theorem manyWords_injective : Function.Injective manyWords := by
  intro a b heq
  have ha := a.isLt
  have hb := b.isLt
  have hnat := congrArg BitVec.toNat heq
  rw [manyWords, manyWords, BitVec.toNat_ofNat, BitVec.toNat_ofNat, Nat.mod_eq_of_lt (by omega),
    Nat.mod_eq_of_lt (by omega)] at hnat
  exact Fin.ext hnat

/-- The first iteration marks position one for the next one to use: smaller elements stand after it,
and the next iteration moves what it holds. Among `2 ^ 31` elements there is no next iteration. -/
theorem marked_position_moves :
    (∃ s s', Body.Reached 4 (Body.start (StableSort.rearrange (Equiv.refl _) fourBytes)) s ∧
      isPivot s.pivots 1 = true ∧ (s.v 2).toInt < (s.v 1).toInt ∧ Body.round 4 s = some s' ∧
      s'.v 1 ≠ s.v 1) ∧
    Function.Injective manyWords ∧
      Body.round (2 ^ 31) (Body.start (StableSort.rearrange (Equiv.refl _) manyWords)) = none := by
  refine ⟨⟨Body.pass 4 (Body.start (StableSort.rearrange (Equiv.refl _) fourBytes)), _,
    .next .start (Body.round_of_fits (by decide) _) (by decide), by decide, by decide,
    Body.round_of_fits (by decide) _, by decide⟩, manyWords_injective, ?_⟩
  exact if_neg (lt_irrefl _)

end Rounds

end CryptDough.Quicksort
