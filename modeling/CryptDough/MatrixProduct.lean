import CryptDough.AccessPatterns
import CryptDough.OptionLoop
import Mathlib.Algebra.BigOperators.Fin
import Mathlib.Data.BitVec
import Mathlib.Data.Matrix.Mul

/-! The product of matrices, the left one stored by rows and the right one by columns: directly on
vectors, and on shares as every protocol inherits it, by views, a multiplication and sums over chunks.
-/

namespace CryptDough

open OptionLoop

variable {T : Type}

section Direct

variable [NonUnitalNonAssocSemiring T]

/-- The dot product of `n` elements from two pointers on. -/
def dotProductFrom (lhs rhs : List T) (lhsPtr rhsPtr n : ℕ) : Option T :=
  (List.range n).foldlM (fun sum k => do
    let a ← lhs[lhsPtr + k]?
    let b ← rhs[rhsPtr + k]?
    pure (sum + a * b)) 0

def matrixRightMultiplyWithColumnMatrixVectorized (lhs rhs : List T)
    (lhsRows lhsCols rhsRows rhsCols : ℕ) : Option (List T) := do
  let s ← (List.range (strideCount (lhsRows * lhsCols) lhsCols)).foldlM (fun s i =>
    (List.range (strideCount (rhsRows * rhsCols) rhsRows)).foldlM (fun (s : List T × ℕ) j => do
      let sum ← dotProductFrom lhs rhs (i * lhsCols) (j * rhsRows) lhsCols
      let output ← writeAt s.1 s.2 sum
      pure (output, s.2 + 1)) s) (List.replicate (lhsRows * rhsCols) 0, 0)
  pure s.1

/-- Zero asks for a single chunk. -/
def chunkedSum (v : List T) (aggSize : ℕ) : Option (List T) :=
  let aggSize := if aggSize = 0 then v.length else aggSize
  if aggSize = 0 then none
  else do
    let newSize := (v.length + aggSize - 1) / aggSize
    let s ← (List.range newSize).foldlM (fun (s : List T × ℕ) i => do
      let stop := min (s.2 + aggSize) v.length
      let sum ← (List.range (stop - s.2)).foldlM (fun sum p => do
        let x ← v[s.2 + p]?
        pure (sum + x)) 0
      let res ← writeAt s.1 i sum
      pure (res, stop)) (List.replicate newSize 0, 0)
    pure s.1

end Direct

/-- The parts of a shared vector. -/
abbrev Shares (T : Type) := List (List T)

namespace Shares

section Operations

variable [NonUnitalNonAssocSemiring T] (multiplyA : Shares T → Shares T → Option (Shares T))

def repeatedSubsets (x : Shares T) (elementsCount repetition : ℕ) : Option (Shares T) :=
  x.mapM fun part => do
    let v ← (MappedVector.view part none).repeatedSubsets elementsCount repetition
    v.elements

def cyclic (x : Shares T) (cycles : ℕ) : Option (Shares T) :=
  x.mapM fun part => do
    let v ← (MappedVector.view part none).cyclic cycles
    v.elements

def dotProductA (x y : Shares T) (aggSize : ℕ) : Option (Shares T) := do
  let res ← multiplyA x y
  res.mapM fun part => chunkedSum part aggSize

/-- The way of a protocol that does not bring its own. -/
def matrixRightMultiplyA (x y : Shares T) (lhsRows lhsCols rhsCols : ℕ) : Option (Shares T) := do
  let xRef ← x.repeatedSubsets lhsCols rhsCols
  let yRef ← y.cyclic lhsRows
  dotProductA multiplyA xRef yRef lhsCols

/-- Element `i` of the vector that is shared. -/
def opened (x : Shares T) (i : ℕ) : T := (x.map fun part => part.getD i 0).sum

def openedVector (x : Shares T) (n : ℕ) : List T := (List.range n).map x.opened

structure HasSize (x : Shares T) (parts n : ℕ) : Prop where
  length : x.length = parts
  size : ∀ part ∈ x, part.length = n

/-- The multiplication of the protocol multiplies what is shared. -/
def Multiplies (parts : ℕ) : Prop :=
  ∀ (n : ℕ) (x y : Shares T), x.HasSize parts n → y.HasSize parts n → ∃ z, multiplyA x y = some z ∧
    z.HasSize parts n ∧ ∀ i < n, z.opened i = x.opened i * y.opened i

end Operations

end Shares

section Direct

variable [NonUnitalNonAssocSemiring T] {lhs rhs v : List T} {m k n : ℕ}

theorem getElem?_eq_getD {i : ℕ} (hi : i < v.length) : v[i]? = some (v.getD i 0) := by
  rw [List.getD_eq_getElem?_getD, List.getElem?_eq_getElem hi]
  rfl

theorem dotProductFrom_spec {lhsPtr rhsPtr : ℕ} (hlhs : lhsPtr + n ≤ lhs.length)
    (hrhs : rhsPtr + n ≤ rhs.length) : dotProductFrom lhs rhs lhsPtr rhsPtr n =
      some (∑ l ∈ Finset.range n, lhs.getD (lhsPtr + l) 0 * rhs.getD (rhsPtr + l) 0) := by
  have hsum := sum_range (n := n) (f := fun l => do
      let a ← lhs[lhsPtr + l]?
      let b ← rhs[rhsPtr + l]?
      pure (a * b)) (g := fun l => lhs.getD (lhsPtr + l) 0 * rhs.getD (rhsPtr + l) 0) (fun l hl => by
    rw [getElem?_eq_getD (by omega), getElem?_eq_getD (by omega)]
    rfl) 0
  rw [zero_add] at hsum
  rw [dotProductFrom, ← hsum]
  refine congr (fun l hl sum => ?_) 0
  rw [getElem?_eq_getD (by omega), getElem?_eq_getD (by omega)]
  rfl

/-- Row `o / n` times column `o % n`. -/
def productAt (f g : ℕ → T) (k n o : ℕ) : T :=
  ∑ l ∈ Finset.range k, f (o / n * k + l) * g (o % n * k + l)

theorem matrixRightMultiply_spec (hlhs : lhs.length = m * k) (hrhs : rhs.length = k * n) :
    matrixRightMultiplyWithColumnMatrixVectorized lhs rhs m k k n =
      some ((List.range (m * n)).map (productAt (lhs.getD · 0) (rhs.getD · 0) k n)) := by
  rcases Nat.eq_zero_or_pos k with rfl | hpos
  · -- the products of an empty dimension stay zero
    have hnone : strideCount (m * 0) 0 = 0 := by rw [strideCount, Nat.div_zero]
    rw [matrixRightMultiplyWithColumnMatrixVectorized, hnone]
    refine congrArg some (List.ext_getElem? fun i => ?_)
    rw [List.getElem?_map, List.getElem?_replicate]
    split
    · rename_i hi
      rw [List.getElem?_range hi]
      rfl
    · rename_i hi
      rw [List.getElem?_eq_none (by rw [List.length_range]; omega)]
      rfl
  · have hloops : (List.range m).foldlM (fun s i =>
        (List.range n).foldlM (fun (s : List T × ℕ) j => do
          let sum ← dotProductFrom lhs rhs (i * k) (j * k) k
          let output ← writeAt s.1 s.2 sum
          pure (output, s.2 + 1)) s) (List.replicate (m * n) (0 : T), 0) =
        (List.range (m * n)).foldlM
          (push fun o => some (productAt (lhs.getD · 0) (rhs.getD · 0) k n o))
          (List.replicate (m * n) 0, 0) := by
      rw [← product]
      refine congr (fun i hi s => congr (fun j hj s => ?_) s) _
      obtain ⟨hrow, hcolumn⟩ := row_column (i := i) hj
      have hi' : (i + 1) * k ≤ m * k := Nat.mul_le_mul_right k hi
      have hj' : (j + 1) * k ≤ n * k := Nat.mul_le_mul_right k hj
      rw [Nat.succ_mul] at hi' hj'
      rw [Nat.mul_comm k] at hrhs
      rw [dotProductFrom_spec (by omega) (by omega), push, productAt, hrow, hcolumn]
    rw [matrixRightMultiplyWithColumnMatrixVectorized, strideCount_mul hpos, Nat.mul_comm k n,
      strideCount_mul hpos, hloops, push_range List.length_replicate fun _ _ => rfl]
    rfl

/-- The sums of full chunks. -/
theorem chunkedSum_spec {count aggSize : ℕ} (hpos : 0 < aggSize) (hlen : v.length = count * aggSize) :
    chunkedSum v aggSize = some ((List.range count).map fun i =>
      ∑ p ∈ Finset.range aggSize, v.getD (i * aggSize + p) 0) := by
  have hsize : (v.length + aggSize - 1) / aggSize = count := by
    rw [hlen]
    exact strideCount_mul hpos
  have hindex := tracked (fun i => aggSize * i) (n := count)
    (f := fun (s : List T × ℕ) i => do
      let stop := min (s.2 + aggSize) v.length
      let sum ← (List.range (stop - s.2)).foldlM (fun sum p => do
        let x ← v[s.2 + p]?
        pure (sum + x)) 0
      let res ← writeAt s.1 i sum
      pure (res, stop))
    (g := fun out i => do
      let x ← some (∑ p ∈ Finset.range aggSize, v.getD (i * aggSize + p) 0)
      writeAt out i x) (fun i hi out => ?_) (List.replicate count 0)
  · rw [fill_range List.length_replicate fun _ _ => rfl] at hindex
    rw [chunkedSum, if_neg hpos.ne', if_neg hpos.ne', hsize]
    exact congrArg (fun r => r.bind fun s => some s.1) hindex
  · have hnext : aggSize * i + aggSize ≤ v.length := by
      have hle : (i + 1) * aggSize ≤ count * aggSize := Nat.mul_le_mul_right aggSize hi
      rw [Nat.succ_mul, Nat.mul_comm i] at hle
      omega
    have hstop : min (aggSize * i + aggSize) v.length = aggSize * (i + 1) := by
      rw [Nat.min_eq_left hnext, Nat.mul_succ]
    have hlength : aggSize * (i + 1) - aggSize * i = aggSize := by
      rw [Nat.mul_succ]
      omega
    have hsum := sum_range (n := aggSize) (f := fun p => v[aggSize * i + p]?)
      (g := fun p => v.getD (i * aggSize + p) 0) (fun p hp => by
        rw [getElem?_eq_getD (by omega), Nat.mul_comm i]) 0
    rw [zero_add] at hsum
    simp only [hstop, hlength, hsum]
    exact Option.map_eq_bind.symm

end Direct

namespace Shares

theorem HasSize.exists_part {x : Shares T} {parts n : ℕ} (hx : x.HasSize parts n) (hparts : 0 < parts) :
    ∃ part, part ∈ x :=
  List.exists_mem_of_length_pos (hx.length ▸ hparts)

section Views

variable [NonUnitalNonAssocSemiring T] {x y : Shares T} {parts m k n : ℕ}

/-- Place `j` of block `i`. -/
theorem getElem?_flatMap_range {f : ℕ → List ℕ} {count : ℕ} (size : ℕ)
    (hf : ∀ i < count, (f i).length = size)
    {i j : ℕ} (hi : i < count) (hj : j < size) :
    ((List.range count).flatMap f)[i * size + j]? = (f i)[j]? := by
  induction count with
  | zero => omega
  | succ count ih =>
      have hlen : ((List.range count).flatMap f).length = count * size := by
        rw [List.length_flatMap, List.map_congr_left fun i hi => hf i (by
          have hlt := List.mem_range.mp hi
          omega), List.map_const', List.sum_replicate, List.length_range, smul_eq_mul]
      rw [List.range_succ, List.flatMap_append, List.flatMap_singleton]
      rcases Nat.lt_succ_iff_lt_or_eq.mp hi with hlt | rfl
      · rw [List.getElem?_append_left (by rw [hlen]; exact place_lt hlt hj)]
        exact ih (fun i hi => hf i (by omega)) hlt
      · rw [List.getElem?_append_right (by rw [hlen]; omega), hlen]
        congr 1
        omega

/-- Nested loops as a single one. -/
theorem flatMap_range_eq_map {count size : ℕ} {f : ℕ → List ℕ} {g : ℕ → ℕ → ℕ}
    (hf : ∀ i < count, f i = (List.range size).map (g i)) :
    (List.range count).flatMap f = (List.range (count * size)).map fun p => g (p / size) (p % size) := by
  have hlen : ∀ i < count, (f i).length = size := fun i hi => by
    rw [hf i hi, List.length_map, List.length_range]
  have hlength : ((List.range count).flatMap f).length = count * size := by
    rw [List.length_flatMap, List.map_congr_left fun i hi => hlen i (List.mem_range.mp hi),
      List.map_const', List.sum_replicate, List.length_range, smul_eq_mul]
  refine List.ext_getElem? fun p => ?_
  rcases Nat.lt_or_ge p (count * size) with hp | hp
  · have hpos : 0 < size := Nat.pos_of_ne_zero fun hzero => by simp [hzero] at hp
    have hi : p / size < count := (Nat.div_lt_iff_lt_mul hpos).mpr hp
    have hj := Nat.mod_lt p hpos
    have hplace := getElem?_flatMap_range size hlen hi hj
    rw [Nat.div_add_mod', hf _ hi, List.getElem?_map, List.getElem?_range hj] at hplace
    rw [hplace, List.getElem?_map, List.getElem?_range hp]
    rfl
  · rw [List.getElem?_eq_none (by omega), List.getElem?_eq_none]
    rw [List.length_map, List.length_range]
    exact hp

theorem cyclicIndices_eq_map (total cycles : ℕ) : MappedVector.cyclicIndices total cycles =
    (List.range (intSteps cycles * intSteps total)).map (· % intSteps total) := by
  rw [MappedVector.cyclicIndices]
  generalize intSteps cycles = count
  generalize intSteps total = size
  exact flatMap_range_eq_map (g := fun _ t => t) fun _ _ => (List.map_id _).symm

theorem flatMap_subsets (starts : List ℕ) (repeats count : ℕ) :
    (starts.flatMap fun j => (List.range repeats).flatMap fun _ => (List.range count).map fun l => j + l) =
      (List.range (starts.length * (repeats * count))).map fun p =>
        starts.getD (p / count / repeats) 0 + p % count := by
  have hrange : starts = (List.range starts.length).map (starts.getD · 0) := by
    refine List.ext_getElem? fun i => ?_
    rw [List.getElem?_map]
    rcases Nat.lt_or_ge i starts.length with hi | hi
    · rw [List.getElem?_range hi, Option.map_some, List.getD_eq_getElem?_getD,
        List.getElem?_eq_getElem hi]
      rfl
    · rw [List.getElem?_eq_none hi, List.getElem?_eq_none (by rw [List.length_range]; exact hi)]
      rfl
  conv_lhs => rw [hrange]
  rw [List.flatMap_map]
  refine (flatMap_range_eq_map (g := fun i p => starts.getD i 0 + p % count)
    fun i _ => ?_).trans (List.map_congr_left fun p _ => ?_)
  · exact flatMap_range_eq_map (g := fun _ l => starts.getD i 0 + l) fun _ _ => rfl
  · rw [Nat.mod_mul_left_mod, Nat.mul_comm repeats, ← Nat.div_div_eq_div_mul]

theorem repeatedSubsetIndices_eq_map (total elementsCount repetition : ℕ) :
    MappedVector.repeatedSubsetIndices total elementsCount repetition =
      (List.range ((MappedVector.subsetStarts total elementsCount).length *
        (intSteps repetition * intSteps elementsCount))).map fun p =>
          (MappedVector.subsetStarts total elementsCount).getD
            (p / intSteps elementsCount / intSteps repetition) 0 + p % intSteps elementsCount := by
  rw [MappedVector.repeatedSubsetIndices]
  exact flatMap_subsets _ _ _

/-- The subsets follow each other, as long as an `int` counts them. -/
theorem subsetStarts_eq (hpos : 0 < k) (hle : m * k ≤ intEntries) :
    MappedVector.subsetStarts (m * k) k = (List.range m).map (· * k) := by
  unfold MappedVector.subsetStarts
  split_ifs with hneg
  · have hlarge := (MappedVector.castInt_neg_iff.mp hneg).trans (Nat.mod_le _ _)
    have hone : m ≤ 1 := (mul_le_iff_le_one_left intEntries_pos).mp
      ((Nat.mul_le_mul_left m hlarge).trans hle)
    rcases Nat.le_one_iff_eq_zero_or_eq_one.mp hone with rfl | rfl
    · rw [Nat.zero_mul]
      rfl
    · rw [Nat.one_mul, Nat.min_eq_right hpos]
      simp
  · rcases Nat.eq_zero_or_pos m with rfl | hm
    · rw [Nat.zero_mul, intSteps_eq (Nat.zero_le _), strideCount, Nat.zero_add]
      rcases Nat.eq_zero_or_pos (castInt k).toNat with hzero | hcast
      · rw [hzero, Nat.div_zero]
        simp
      · rw [Nat.div_eq_of_lt (by omega)]
        simp
    · have hlt : k < intEntries := by
        refine lt_of_le_of_ne ((Nat.le_mul_of_pos_left k hm).trans hle) fun heq => hneg ?_
        rw [heq]
        decide
      have hcast : castInt k = k := castInt_natCast hlt
      rw [hcast, Int.toNat_natCast, intSteps_eq hle, strideCount_mul hpos]

/-- When the two views of a multiplication can be built: there are few summands, or two of the three
dimensions are one. -/
def ViewsFit (m k n : ℕ) : Prop :=
  (m * k * n ≤ intEntries ∧ (m * k = 0 ∨ ¬ 2 ^ 32 ∣ k)) ∨
    m * k * n < 2 ^ 60 ∧
      (m = 1 ∧ k = 1 ∨ k = 1 ∧ n = 1 ∨ m = 1 ∧ n = 1 ∧ intEntries ≤ k % 2 ^ 32)

theorem viewsFit_iff (hpos : 0 < k) : ViewsFit m k n ↔
    MappedVector.SubsetsFit (m * k) k n ∧ MappedVector.RepeatsFit (k * n) m := by
  have hproduct : k * n * m = m * k * n := by ring
  rw [ViewsFit, MappedVector.SubsetsFit, MappedVector.RepeatsFit, MappedVector.SubsetsEnd, hproduct]
  constructor
  · rintro (⟨hle, hstep⟩ | ⟨hsize, hshape⟩)
    · have hsize : m * k * n < 2 ^ 60 := lt_of_le_of_lt hle (by decide)
      exact ⟨⟨hsize, hstep, Or.inr (Or.inl ⟨Nat.dvd_mul_left k m, hle⟩)⟩, hsize, Or.inl hle⟩
    · rcases hshape with ⟨rfl, rfl⟩ | ⟨rfl, rfl⟩ | ⟨rfl, rfl, hmod⟩
      · exact ⟨⟨hsize, Or.inr (by decide), Or.inr (Or.inr (Or.inl ⟨rfl, rfl⟩))⟩, hsize,
          Or.inr (Or.inr rfl)⟩
      · refine ⟨⟨hsize, Or.inr (by decide), ?_⟩, hsize, Or.inr (Or.inl rfl)⟩
        rcases le_or_gt m intEntries with hle | hlt
        · exact Or.inr (Or.inl ⟨one_dvd _, by omega⟩)
        · exact Or.inr (Or.inr (Or.inr ⟨rfl, by omega, Or.inl (one_dvd _)⟩))
      · have hlarge := hmod.trans (Nat.mod_le _ _)
        refine ⟨⟨hsize, Or.inr fun hdvd => ?_, ?_⟩, hsize, Or.inr (Or.inr rfl)⟩
        · rw [Nat.mod_eq_zero_of_dvd hdvd] at hmod
          exact absurd hmod (by decide)
        · exact Or.inr (Or.inr (Or.inr ⟨rfl, by omega, Or.inr hmod⟩))
  · rintro ⟨⟨hsize, hstep, hend⟩, -, hcycles⟩
    rcases le_or_gt (m * k * n) intEntries with hle | hlt
    · exact Or.inl ⟨hle, hstep⟩
    refine Or.inr ⟨hsize, ?_⟩
    rcases hend with hzero | ⟨-, hle⟩ | ⟨hone, hk⟩ | ⟨hn, -, hdvd⟩
    · exact absurd (hzero ▸ hlt) (Nat.not_lt_zero _)
    · exact absurd hle (not_le.mpr hlt)
    · rw [hk, Nat.mul_one] at hone
      exact Or.inl ⟨hone, hk⟩
    · subst hn
      rw [Nat.mul_one, Nat.mul_one] at *
      rcases hcycles with hle | hone | hone
      · exact absurd hle (not_le.mpr hlt)
      · exact Or.inr (Or.inl ⟨hone, rfl⟩)
      · subst hone
        rw [Nat.one_mul] at hlt
        refine Or.inr (Or.inr ⟨rfl, rfl, hdvd.resolve_left fun hdvd => ?_⟩)
        exact absurd (Nat.le_of_dvd intEntries_pos hdvd) (not_le.mpr hlt)

theorem cyclicIndices_eq (hpos : 0 < k) (hfits : ViewsFit m k n) :
    MappedVector.cyclicIndices (k * n) m =
      (List.range (min (m * n * k) intEntries)).map fun p => p / k % n * k + p % k := by
  have hplace : ∀ p, p / k % n * k + p % k = p % (k * n) := fun p => by
    rw [Nat.mod_mul, Nat.mul_comm, Nat.add_comm]
  have hproduct : m * n * k = m * (k * n) := by ring
  obtain ⟨-, -, hcycles⟩ := (viewsFit_iff hpos).mp hfits
  simp only [cyclicIndices_eq_map, hplace, hproduct]
  rw [Nat.mul_comm] at hcycles
  rcases hcycles with hle | hone | hone
  · rw [Nat.min_eq_left hle]
    rcases Nat.eq_zero_or_pos m with rfl | hm
    · rw [intSteps_eq (Nat.zero_le _), Nat.zero_mul, Nat.zero_mul, List.range_zero]
      rfl
    rcases Nat.eq_zero_or_pos (k * n) with hzero | hkn
    · rw [hzero, intSteps_eq (Nat.zero_le _), Nat.mul_zero, Nat.mul_zero]
    · rw [intSteps_eq ((Nat.le_mul_of_pos_left _ hm).trans hle),
        intSteps_eq ((Nat.le_mul_of_pos_right _ hkn).trans hle)]
  · rw [hone, intSteps_eq (by decide), Nat.mul_one, Nat.mul_one, intSteps]
  · rw [hone, intSteps_eq (n := 1) (by decide), Nat.one_mul, Nat.one_mul]
    refine List.map_congr_left fun p hp => ?_
    have hp := List.mem_range.mp hp
    rw [Nat.mod_eq_of_lt hp, Nat.mod_eq_of_lt (hp.trans_le (Nat.min_le_left _ _))]

theorem repeatedSubsetIndices_eq (hpos : 0 < k) (hfits : ViewsFit m k n) :
    MappedVector.repeatedSubsetIndices (m * k) k n =
      (List.range (min (m * n * k) intEntries)).map fun p => p / k / n * k + p % k := by
  have hproduct : m * n * k = m * (n * k) := Nat.mul_assoc m n k
  have hone : intSteps 1 = 1 := intSteps_eq (by decide)
  rw [repeatedSubsetIndices_eq_map]
  rcases hfits with ⟨hle, -⟩ | ⟨-, ⟨rfl, rfl⟩ | ⟨rfl, rfl⟩ | ⟨rfl, rfl, hmod⟩⟩
  · rcases Nat.eq_zero_or_pos n with rfl | hn
    · rw [intSteps_eq (Nat.zero_le _), Nat.zero_mul, Nat.mul_zero, Nat.mul_zero, Nat.zero_mul,
        Nat.zero_min, List.range_zero, List.map_nil, List.map_nil]
    rcases Nat.eq_zero_or_pos m with rfl | hm
    · rw [Nat.zero_mul, MappedVector.subsetStarts_zero, List.length_nil, Nat.zero_mul, Nat.zero_mul,
        Nat.zero_mul, Nat.zero_min, List.range_zero, List.map_nil, List.map_nil]
    have hmk : m * k ≤ intEntries := (Nat.le_mul_of_pos_right _ hn).trans hle
    have hk : k ≤ intEntries := (Nat.le_mul_of_pos_left k hm).trans hmk
    have hn_le : n ≤ intEntries := (Nat.le_mul_of_pos_left n (Nat.mul_pos hm hpos)).trans hle
    have hcount : m * n * k ≤ intEntries :=
      calc m * n * k = m * k * n := by ring
        _ ≤ intEntries := hle
    rw [subsetStarts_eq hpos hmk, intSteps_eq hk, intSteps_eq hn_le, List.length_map,
      List.length_range, ← hproduct, Nat.min_eq_left hcount]
    refine List.map_congr_left fun p hp => ?_
    have hp := List.mem_range.mp hp
    have hi : p / k / n < m :=
      (Nat.div_lt_iff_lt_mul hn).mpr ((Nat.div_lt_iff_lt_mul hpos).mpr hp)
    rw [getD_map_range _ hi]
  · -- the only row is repeated, element by element
    have hstarts : MappedVector.subsetStarts (1 * 1) 1 = [0] := by decide
    rw [hstarts, hone, Nat.one_mul, Nat.mul_one, Nat.mul_one, List.length_singleton, Nat.one_mul]
    refine List.map_congr_left fun p hp => ?_
    have hp : p < intSteps n := List.mem_range.mp hp
    have hlt : p < n := hp.trans_le (Nat.min_le_left _ _)
    rw [Nat.div_one, Nat.div_eq_of_lt hp, Nat.div_eq_of_lt hlt]
    rfl
  · -- every element is a subset, and there is one of each
    have hstarts : MappedVector.subsetStarts (m * 1) 1 = (List.range (intSteps m)).map (· * 1) := by
      have hcast : castInt (1 : ℕ) = 1 := by decide
      rw [MappedVector.subsetStarts, Nat.mul_one, hcast, if_neg (by decide), Int.toNat_one]
      exact congrArg (fun n => (List.range n).map (· * 1))
        ((congrArg (strideCount · 1) (Nat.mul_one _).symm).trans (strideCount_mul Nat.one_pos))
    rw [hstarts, hone, Nat.mul_one, Nat.mul_one, List.length_map, List.length_range, Nat.mul_one]
    refine List.map_congr_left fun p hp => ?_
    have hp : p < intSteps m := List.mem_range.mp hp
    rw [Nat.div_one, Nat.div_one, getD_map_range _ hp]
  · -- one subset, cut off where an `int` ends
    have hlarge : intEntries ≤ k := hmod.trans (Nat.mod_le _ _)
    have hstarts : MappedVector.subsetStarts (1 * k) k = [0] := by
      rw [MappedVector.subsetStarts, if_pos (MappedVector.castInt_neg_iff.mpr hmod), Nat.one_mul,
        Nat.min_eq_right hpos]
      decide
    rw [hstarts, hone, intSteps_of_ge hlarge, Nat.one_mul, Nat.one_mul, List.length_singleton,
      Nat.one_mul, Nat.min_eq_right hlarge]
    refine List.map_congr_left fun p hp => ?_
    have hp := List.mem_range.mp hp
    have hlt : p < k := hp.trans_le hlarge
    rw [Nat.div_eq_of_lt hp, Nat.div_eq_of_lt hlt, Nat.mod_eq_of_lt hp, Nat.mod_eq_of_lt hlt,
      Nat.zero_div, Nat.zero_mul]
    rfl

/-- A view that is filled as far as an `int` counts; the rest of it shows the first element. -/
def counted (place : ℕ → ℕ) (p : ℕ) : ℕ := if p < intEntries then place p else 0

theorem elements_of_filled {part : List T} {u : MappedVector T} {place : ℕ → ℕ} {size : ℕ}
    (hu : u.Proper) (hfilled : MappedVector.Filled (MappedVector.view part none) size
      ((List.range (min size intEntries)).map place) u) :
    u.elements = some ((List.range size).map fun p => part.getD (counted place p) 0) := by
  have hread : ∀ p < size, u.read p = part[counted place p]? := by
    intro p hp
    rw [hu.read_eq, hfilled.data, counted]
    split_ifs with hlt
    · have hindex : ((List.range (min size intEntries)).map place)[p]? = some (place p) := by
        rw [List.getElem?_map, List.getElem?_range (lt_min hp hlt)]
        rfl
      rw [hfilled.entry p _ hindex]
      rfl
    · rw [hfilled.rest p _ hp]
      · rfl
      · rw [List.length_map, List.length_range]
        exact (Nat.min_le_right _ _).trans (not_lt.mp hlt)
  obtain ⟨xs, hxs, hlen, hget⟩ := hu.elements_eq
  rw [hfilled.totalSize] at hlen hget
  rw [hxs]
  refine congrArg some (List.ext_getElem? fun p => ?_)
  rw [List.getElem?_map]
  rcases Nat.lt_or_ge p size with hp | hp
  · obtain ⟨e, he⟩ := hu.exists_read (hfilled.totalSize ▸ hp)
    have hlt : counted place p < part.length := by
      rw [hread p hp] at he
      exact (List.getElem?_eq_some_iff.mp he).1
    rw [hget p hp, hread p hp, List.getElem?_range hp]
    exact getElem?_eq_getD hlt
  · rw [List.getElem?_eq_none (by omega), List.getElem?_eq_none (by rw [List.length_range]; exact hp)]
    rfl

theorem elements_of_filled_le {part : List T} {u : MappedVector T} {place : ℕ → ℕ} {size : ℕ}
    (hsize : size ≤ intEntries) (hu : u.Proper)
    (hfilled : MappedVector.Filled (MappedVector.view part none) size ((List.range size).map place) u) :
    u.elements = some ((List.range size).map fun p => part.getD (place p) 0) := by
  have hcut : (List.range (min size intEntries)).map place = (List.range size).map place := by
    rw [Nat.min_eq_left hsize]
  rw [elements_of_filled hu (hcut ▸ hfilled)]
  refine congrArg some (List.map_congr_left fun p hp => ?_)
  rw [counted, if_pos ((List.mem_range.mp hp).trans_le hsize)]

/-- The parts with their elements rearranged. -/
def rearrange (x : Shares T) (size : ℕ) (place : ℕ → ℕ) : Shares T :=
  x.map fun part => (List.range size).map fun p => part.getD (place p) 0

theorem hasSize_rearrange (hx : x.HasSize parts n) (size : ℕ) (place : ℕ → ℕ) :
    (x.rearrange size place).HasSize parts size := by
  refine ⟨(List.length_map _).trans hx.length, fun part hpart => ?_⟩
  obtain ⟨part', -, rfl⟩ := List.mem_map.mp hpart
  rw [List.length_map, List.length_range]

theorem opened_rearrange {size : ℕ} (place : ℕ → ℕ) {p : ℕ} (hp : p < size) :
    (x.rearrange size place).opened p = x.opened (place p) := by
  rw [opened, opened, rearrange, List.map_map]
  exact congrArg List.sum (List.map_congr_left fun part _ => getD_map_range _ hp)

/-- The element of a summand in the left matrix. -/
def leftPlace (k n p : ℕ) : ℕ := p / k / n * k + p % k

/-- The element of a summand in the right matrix. -/
def rightPlace (k n p : ℕ) : ℕ := p / k % n * k + p % k

theorem repeatedSubsets_eq (hx : x.HasSize parts (m * k)) (hsize : m * k < 2 ^ 64) (hpos : 0 < k)
    (hfits : ViewsFit m k n) :
    x.repeatedSubsets k n = some (x.rearrange (m * n * k) (counted (leftPlace k n))) := by
  refine mapM_some fun part hpart => ?_
  have hlen := hx.size part hpart
  have htotal : (MappedVector.view part none).totalSize = m * k := hlen
  have hproduct : m * k * n = m * n * k := by ring
  obtain ⟨u, hview, hu, hfilled⟩ := MappedVector.repeatedSubsets_spec
    (MappedVector.proper_view (hlen.trans_lt hsize)) hpos (htotal ▸ ((viewsFit_iff hpos).mp hfits).1)
  rw [htotal, repeatedSubsetIndices_eq hpos hfits, hproduct] at hfilled
  rw [hview]
  exact elements_of_filled hu hfilled

theorem cyclic_eq (hy : y.HasSize parts (k * n)) (hsize : k * n < 2 ^ 64) (hpos : 0 < k)
    (hfits : ViewsFit m k n) :
    y.cyclic m = some (y.rearrange (m * n * k) (counted (rightPlace k n))) := by
  refine mapM_some fun part hpart => ?_
  have hlen := hy.size part hpart
  have htotal : (MappedVector.view part none).totalSize = k * n := hlen
  have hproduct : k * n * m = m * n * k := by ring
  obtain ⟨u, hview, hu, hfilled⟩ := MappedVector.cyclic_spec
    (MappedVector.proper_view (hlen.trans_lt hsize)) (htotal ▸ ((viewsFit_iff hpos).mp hfits).2)
  rw [htotal, cyclicIndices_eq hpos hfits, hproduct] at hfilled
  rw [hview]
  exact elements_of_filled hu hfilled

theorem dotProductA_eq {multiplyA : Shares T → Shares T → Option (Shares T)} {z : Shares T}
    (hz : multiplyA x y = some z) (hsize : z.HasSize parts (m * n * k)) (hpos : 0 < k) :
    ∃ sums, dotProductA multiplyA x y k = some sums ∧ sums.HasSize parts (m * n) ∧
      ∀ o < m * n, sums.opened o = ∑ l ∈ Finset.range k, z.opened (o * k + l) := by
  have hsums : dotProductA multiplyA x y k = some (z.map fun part => (List.range (m * n)).map fun o =>
      ∑ l ∈ Finset.range k, part.getD (o * k + l) 0) := by
    rw [dotProductA, hz]
    exact mapM_some fun part hpart => chunkedSum_spec hpos (hsize.size part hpart)
  refine ⟨_, hsums, ⟨(List.length_map _).trans hsize.length, fun part hpart => ?_⟩, fun o ho => ?_⟩
  · obtain ⟨part', -, rfl⟩ := List.mem_map.mp hpart
    rw [List.length_map, List.length_range]
  · rw [opened, List.map_map]
    have hparts : ∀ parts : Shares T, (parts.map fun part => ∑ l ∈ Finset.range k,
        part.getD (o * k + l) 0).sum = ∑ l ∈ Finset.range k, Shares.opened parts (o * k + l) := by
      intro parts
      induction parts with
      | nil => exact (Finset.sum_const_zero).symm
      | cons part parts ih =>
          rw [List.map_cons, List.sum_cons, ih, ← Finset.sum_add_distrib]
          rfl
    rw [← hparts z]
    exact congrArg List.sum (List.map_congr_left fun part _ => getD_map_range _ ho)

/-- Summand `l` of entry `o`, as the views show its factors. -/
def summand (f g : ℕ → T) (k n o l : ℕ) : T :=
  f (counted (leftPlace k n) (o * k + l)) * g (counted (rightPlace k n) (o * k + l))

theorem matrixRightMultiplyA_spec {multiplyA : Shares T → Shares T → Option (Shares T)}
    (hmultiplies : Multiplies multiplyA parts) (hx : x.HasSize parts (m * k)) (hy : y.HasSize parts (k * n))
    (hlhs : m * k < 2 ^ 64) (hrhs : k * n < 2 ^ 64) (hpos : 0 < k) (hfits : ViewsFit m k n) :
    ∃ z, matrixRightMultiplyA multiplyA x y m k n = some z ∧ z.HasSize parts (m * n) ∧
      ∀ o < m * n, z.opened o = ∑ l ∈ Finset.range k, summand x.opened y.opened k n o l := by
  obtain ⟨z, hz, hsize, hopened⟩ := hmultiplies (m * n * k) _ _
    (hasSize_rearrange hx _ (counted (leftPlace k n)))
    (hasSize_rearrange hy _ (counted (rightPlace k n)))
  obtain ⟨sums, hsums, hsumsize, hsumopened⟩ := dotProductA_eq hz hsize hpos
  refine ⟨sums, ?_, hsumsize, fun o ho => ?_⟩
  · rw [matrixRightMultiplyA, repeatedSubsets_eq hx hlhs hpos hfits, cyclic_eq hy hrhs hpos hfits]
    exact hsums
  · rw [hsumopened o ho]
    refine Finset.sum_congr rfl fun l hl => ?_
    have hplace := place_lt ho (Finset.mem_range.mp hl)
    rw [hopened _ hplace, opened_rearrange _ hplace, opened_rearrange _ hplace, summand]

theorem summand_of_lt {f g : ℕ → T} {o l : ℕ} (hl : l < k) (hlt : o * k + l < intEntries) :
    summand f g k n o l = f (o / n * k + l) * g (o % n * k + l) := by
  rw [summand, counted, counted, if_pos hlt, if_pos hlt, leftPlace, rightPlace, (row_column hl).1,
    (row_column hl).2]

theorem summand_of_ge {f g : ℕ → T} {o l : ℕ} (hge : intEntries ≤ o * k + l) :
    summand f g k n o l = f 0 * g 0 := by
  rw [summand, counted, counted, if_neg (not_lt.mpr hge), if_neg (not_lt.mpr hge)]

/-- Without summands the views are empty, and the chunks of the sum have no length. -/
theorem matrixRightMultiplyA_no_summands {multiplyA : Shares T → Shares T → Option (Shares T)}
    (hmultiplies : Multiplies multiplyA parts) (hparts : 0 < parts) (hx : x.HasSize parts 0)
    (hy : y.HasSize parts 0) : matrixRightMultiplyA multiplyA x y m 0 n = none := by
  have hnothing : ∀ n, sizeMul 0 n = 0 := fun n => by rw [sizeMul, Nat.zero_mul, Nat.zero_mod]
  have htotal : (MappedVector.view ([] : List T) none).totalSize = 0 := rfl
  have hxRef : x.repeatedSubsets 0 n = some (x.map fun _ => []) := by
    refine mapM_some fun part hpart => ?_
    obtain rfl := List.eq_nil_of_length_eq_zero (hx.size part hpart)
    rw [MappedVector.repeatedSubsets, htotal, if_neg (by omega), hnothing,
      MappedVector.repeatedSubsetIndices, MappedVector.subsetStarts_zero]
    rfl
  have hyRef : y.cyclic m = some (y.map fun _ => []) := by
    refine mapM_some fun part hpart => ?_
    obtain rfl := List.eq_nil_of_length_eq_zero (hy.size part hpart)
    have hindices : MappedVector.cyclicIndices 0 m = [] :=
      List.eq_nil_of_length_eq_zero ((MappedVector.length_cyclicIndices m).trans
        ((congrArg (· * intSteps m) (intSteps_eq (Nat.zero_le _))).trans (Nat.zero_mul _)))
    rw [MappedVector.cyclic, htotal, hnothing, hindices]
    rfl
  have hempty : ∀ z : Shares T, z.length = parts → HasSize (z.map fun _ => ([] : List T)) parts 0 := by
    refine fun z hz => ⟨(List.length_map _).trans hz, fun part hpart => ?_⟩
    obtain ⟨-, -, rfl⟩ := List.mem_map.mp hpart
    rfl
  obtain ⟨z, hz, hsize, -⟩ := hmultiplies 0 _ _ (hempty x hx.length) (hempty y hy.length)
  obtain ⟨part, hpart⟩ := hsize.exists_part hparts
  have hchunks : chunkedSum part 0 = none := by
    rw [chunkedSum, if_pos rfl, if_pos (hsize.size part hpart)]
  rw [matrixRightMultiplyA, hxRef, hyRef]
  change dotProductA multiplyA _ _ 0 = none
  rw [dotProductA, hz]
  exact mapM_none hpart hchunks

/-- Without a view or without a size of the chunks the multiplication fails. -/
theorem matrixRightMultiplyA_eq_none {multiplyA : Shares T → Shares T → Option (Shares T)}
    (hmultiplies : Multiplies multiplyA parts) (hparts : 0 < parts) (hx : x.HasSize parts (m * k))
    (hy : y.HasSize parts (k * n)) (hlhs : m * k < 2 ^ 64) (hrhs : k * n < 2 ^ 64)
    (hfails : ¬ (0 < k ∧ ViewsFit m k n)) : matrixRightMultiplyA multiplyA x y m k n = none := by
  rcases Nat.eq_zero_or_pos k with rfl | hpos
  · rw [Nat.mul_zero] at hx
    rw [Nat.zero_mul] at hy
    exact matrixRightMultiplyA_no_summands hmultiplies hparts hx hy
  · have hm : m < 2 ^ 64 := (Nat.le_mul_of_pos_right m hpos).trans_lt hlhs
    have hn : n < 2 ^ 64 := (Nat.le_mul_of_pos_left n hpos).trans_lt hrhs
    have hviews : ¬ ViewsFit m k n := fun hfits => hfails ⟨hpos, hfits⟩
    rw [viewsFit_iff hpos, not_and_or] at hviews
    rw [matrixRightMultiplyA]
    rcases hviews with hrows | hcolumns
    · obtain ⟨part, hpart⟩ := hx.exists_part hparts
      have htotal : (MappedVector.view part none).totalSize = m * k := hx.size part hpart
      have hview := MappedVector.repeatedSubsets_of_not_fits
        (MappedVector.proper_view ((hx.size part hpart).trans_lt hlhs)) hpos hn (htotal.symm ▸ hrows)
      have hnone : x.repeatedSubsets k n = none := mapM_none hpart (by rw [hview]; rfl)
      rw [hnone]
      rfl
    · obtain ⟨part, hpart⟩ := hy.exists_part hparts
      have htotal : (MappedVector.view part none).totalSize = k * n := hy.size part hpart
      have hview := MappedVector.fill_repeats_of_not_fits
        (MappedVector.proper_view ((hy.size part hpart).trans_lt hrhs)) hm
        (MappedVector.length_cyclicIndices m) (htotal.symm ▸ hcolumns)
      have hnone : y.cyclic m = none := mapM_none hpart (by rw [MappedVector.cyclic, hview]; rfl)
      rw [hnone]
      cases x.repeatedSubsets k n <;> rfl

end Views

/-- The result is defined, and what it opens to is both the direct product of what is shared and the
product of the matrices. -/
structure MultipliesMatrices {w : ℕ} (multiplyA : Shares (BitVec w) → Shares (BitVec w) →
    Option (Shares (BitVec w))) (x y z : Shares (BitVec w)) (m k n : ℕ) : Prop where
  run : matrixRightMultiplyA multiplyA x y m k n = some z
  size : ∀ part ∈ z, part.length = m * n
  direct : matrixRightMultiplyWithColumnMatrixVectorized (x.openedVector (m * k)) (y.openedVector (k * n))
    m k k n = some (z.openedVector (m * n))
  product : ∀ (i : Fin m) (j : Fin n), z.opened (i * n + j) =
    ((Matrix.of fun (i : Fin m) (l : Fin k) => x.opened (i * k + l)) *
      Matrix.of fun (l : Fin k) (j : Fin n) => y.opened (j * k + l)) i j

/-- What the summands behind the reach of an `int` add up to does not change if they are all the product
of the first elements. -/
def KeepsRest (f g : ℕ → T) [NonUnitalNonAssocSemiring T] (m k n : ℕ) : Prop :=
  ∀ o < m * n, ∑ l ∈ Finset.range k with intEntries ≤ o * k + l, f (o / n * k + l) * g (o % n * k + l) =
    ∑ l ∈ Finset.range k with intEntries ≤ o * k + l, f 0 * g 0

theorem sum_summand_eq_iff [NonUnitalNonAssocRing T] {f g : ℕ → T} {k n o : ℕ} :
    ∑ l ∈ Finset.range k, summand f g k n o l = productAt f g k n o ↔
      ∑ l ∈ Finset.range k with intEntries ≤ o * k + l, f (o / n * k + l) * g (o % n * k + l) =
        ∑ l ∈ Finset.range k with intEntries ≤ o * k + l, f 0 * g 0 := by
  have hcounted : ∑ l ∈ Finset.range k with ¬ intEntries ≤ o * k + l, summand f g k n o l =
      ∑ l ∈ Finset.range k with ¬ intEntries ≤ o * k + l, f (o / n * k + l) * g (o % n * k + l) := by
    refine Finset.sum_congr rfl fun l hl => ?_
    obtain ⟨hl, hlt⟩ := Finset.mem_filter.mp hl
    exact summand_of_lt (Finset.mem_range.mp hl) (not_le.mp hlt)
  have hrest : ∑ l ∈ Finset.range k with intEntries ≤ o * k + l, summand f g k n o l =
      ∑ l ∈ Finset.range k with intEntries ≤ o * k + l, f 0 * g 0 :=
    Finset.sum_congr rfl fun l hl => summand_of_ge (Finset.mem_filter.mp hl).2
  rw [productAt, ← Finset.sum_filter_add_sum_filter_not (Finset.range k) (fun l => intEntries ≤ o * k + l),
    ← Finset.sum_filter_add_sum_filter_not (Finset.range k) (fun l => intEntries ≤ o * k + l)
      (fun l => f (o / n * k + l) * g (o % n * k + l)), hcounted, hrest, add_left_inj]
  exact eq_comm

theorem multipliesMatrices_iff {w parts m k n : ℕ} {multiplyA : Shares (BitVec w) →
    Shares (BitVec w) → Option (Shares (BitVec w))} {x y z : Shares (BitVec w)}
    (hrun : matrixRightMultiplyA multiplyA x y m k n = some z) (hsize : z.HasSize parts (m * n)) :
    MultipliesMatrices multiplyA x y z m k n ↔
      ∀ o < m * n, z.opened o = productAt x.opened y.opened k n o := by
  constructor
  · intro hz o ho
    have hn : 0 < n := Nat.pos_of_ne_zero fun hzero => by simp [hzero] at ho
    have hproduct := hz.product ⟨o / n, (Nat.div_lt_iff_lt_mul hn).mpr ho⟩ ⟨o % n, Nat.mod_lt o hn⟩
    rw [Nat.div_add_mod', Matrix.mul_apply] at hproduct
    rw [hproduct, productAt, Finset.sum_range]
    rfl
  · intro hopened
    refine ⟨hrun, hsize.size, ?_, fun i j => ?_⟩
    · rw [matrixRightMultiply_spec (by rw [openedVector, List.length_map, List.length_range])
        (by rw [openedVector, List.length_map, List.length_range])]
      refine congrArg some (List.map_congr_left fun o ho => ?_)
      have ho := List.mem_range.mp ho
      have hn : 0 < n := Nat.pos_of_ne_zero fun hzero => by simp [hzero] at ho
      rw [hopened o ho]
      refine Finset.sum_congr rfl fun l hl => ?_
      have hl := Finset.mem_range.mp hl
      have hcolumn : o % n * k + l < k * n := by
        rw [Nat.mul_comm k]
        exact place_lt (Nat.mod_lt o hn) hl
      simp only
      rw [openedVector, openedVector, getD_map_range _ (place_lt ((Nat.div_lt_iff_lt_mul hn).mpr ho) hl),
        getD_map_range _ hcolumn]
    · rw [hopened _ (place_lt i.isLt j.isLt), productAt, (row_column j.isLt).1, (row_column j.isLt).2,
        Matrix.mul_apply, Finset.sum_range]
      rfl

/-- The inherited multiplication is the direct one exactly if there is something to sum up, the views
can be built and the entries that their counters do not reach make no difference. -/
theorem matrix_multiplication_iff {w parts m k n : ℕ} {multiplyA : Shares (BitVec w) →
    Shares (BitVec w) → Option (Shares (BitVec w))} (hmultiplies : Multiplies multiplyA parts)
    (hparts : 0 < parts) {x y : Shares (BitVec w)} (hx : x.HasSize parts (m * k))
    (hy : y.HasSize parts (k * n)) (hlhs : m * k < 2 ^ 64) (hrhs : k * n < 2 ^ 64) :
    (∃ z, MultipliesMatrices multiplyA x y z m k n) ↔
      0 < k ∧ ViewsFit m k n ∧ KeepsRest x.opened y.opened m k n := by
  by_cases hfits : 0 < k ∧ ViewsFit m k n
  · obtain ⟨hpos, hviews⟩ := hfits
    obtain ⟨z, hrun, hsize, hopened⟩ :=
      matrixRightMultiplyA_spec hmultiplies hx hy hlhs hrhs hpos hviews
    have hz : MultipliesMatrices multiplyA x y z m k n ↔ KeepsRest x.opened y.opened m k n := by
      rw [multipliesMatrices_iff hrun hsize]
      exact forall₂_congr fun o ho => by rw [hopened o ho, sum_summand_eq_iff]
    constructor
    · rintro ⟨z', hz'⟩
      obtain rfl := Option.some.inj (hz'.run.symm.trans hrun)
      exact ⟨hpos, hviews, hz.mp hz'⟩
    · rintro ⟨-, -, hrest⟩
      exact ⟨z, hz.mpr hrest⟩
  · refine iff_of_false ?_ fun h => hfits ⟨h.1, h.2.1⟩
    rintro ⟨z, hz⟩
    have hrun := hz.run
    rw [matrixRightMultiplyA_eq_none hmultiplies hparts hx hy hlhs hrhs hfits] at hrun
    cases hrun

/-- The multiplication of the plaintext protocol, whose vectors have one part. -/
def plaintextMultiplyA [Mul T] (x y : Shares T) : Option (Shares T) :=
  some (List.zipWith (List.zipWith (· * ·)) x y)

theorem multiplies_plaintext [NonUnitalNonAssocSemiring T] : Multiplies (plaintextMultiplyA (T := T)) 1 := by
  intro n x y hx hy
  obtain ⟨a, rfl⟩ := List.length_eq_one_iff.mp hx.length
  obtain ⟨b, rfl⟩ := List.length_eq_one_iff.mp hy.length
  have ha : a.length = n := hx.size a List.mem_cons_self
  have hb : b.length = n := hy.size b List.mem_cons_self
  refine ⟨[List.zipWith (· * ·) a b], rfl, ⟨rfl, fun part hpart => ?_⟩, fun i hi => ?_⟩
  · obtain rfl := List.mem_singleton.mp hpart
    rw [List.length_zipWith, ha, hb, Nat.min_self]
  · have hget : (List.zipWith (· * ·) a b)[i]? = some (a.getD i 0 * b.getD i 0) := by
      rw [List.getElem?_zipWith, getElem?_eq_getD (by omega), getElem?_eq_getD (by omega)]
    simp only [opened, List.map_cons, List.map_nil, List.sum_cons, List.sum_nil, add_zero]
    rw [List.getD_eq_getElem?_getD, hget]
    rfl

theorem matrix_multiplication_iff_plaintext :
    (∃ z, MultipliesMatrices plaintextMultiplyA [[1#8, 2#8, 3#8, 4#8, 5#8, 6#8]] [[7#8, 8#8, 9#8]] z 2 3 1) ↔
      0 < 3 ∧ ViewsFit 2 3 1 ∧ KeepsRest (opened [[1#8, 2#8, 3#8, 4#8, 5#8, 6#8]])
        (opened [[7#8, 8#8, 9#8]]) 2 3 1 :=
  matrix_multiplication_iff multiplies_plaintext Nat.one_pos ⟨rfl, by decide⟩ ⟨rfl, by decide⟩ (by decide)
    (by decide)

/-- A column times a row whose product has more elements than an `int` can index. -/
theorem matrix_multiplication_fails :
    ¬ ∃ z, MultipliesMatrices plaintextMultiplyA [List.replicate (2 ^ 16) (0 : BitVec 8)]
      [List.replicate (2 ^ 16) 0] z (2 ^ 16) 1 (2 ^ 16) := by
  rintro ⟨z, hz⟩
  have hsize : ∀ part ∈ [List.replicate (2 ^ 16) (0 : BitVec 8)], part.length = 2 ^ 16 := by
    intro part hpart
    rw [List.mem_singleton.mp hpart, List.length_replicate]
  have hlarge : ¬ (0 < 1 ∧ ViewsFit (2 ^ 16) 1 (2 ^ 16)) := by
    unfold ViewsFit intEntries
    omega
  have hnone := matrixRightMultiplyA_eq_none (m := 2 ^ 16) (k := 1) (n := 2 ^ 16) multiplies_plaintext
    Nat.one_pos ⟨rfl, hsize⟩ ⟨rfl, hsize⟩ (by decide) (by decide) hlarge
  cases hnone.symm.trans hz.run

end Shares

end CryptDough
