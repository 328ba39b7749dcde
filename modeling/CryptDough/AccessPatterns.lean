import CryptDough.MappedVector
import Mathlib.Algebra.BigOperators.Group.List.Basic
import Mathlib.Algebra.Group.Action.Defs
import Mathlib.Algebra.Ring.Nat
import Mathlib.Data.BitVec

/-! The access patterns: views of a vector on the same storage, by a new mapping that is read off the
present one. Their chains show what the same chains show of copies. -/

namespace CryptDough

namespace MappedVector

variable {T : Type}

section Indices

/-- The outer loop while `remaining` entries are missing; `j` is where the next chunk begins. -/
def alternatingIndices (included chunk : ℕ) : ℕ → ℕ → ℕ → List ℕ
  | 0, _, _ => []
  | fuel + 1, remaining, j =>
      if remaining = 0 then []
      else (List.range (min included remaining)).map (j + ·) ++
        alternatingIndices included chunk fuel (remaining - included) (j + chunk)

/-- The size of an alternating pattern. -/
def alternatingSize (total included chunk : ℕ) : ℕ :=
  total / chunk * included + min included (total % chunk)

/-- Every full chunk backwards, then what is left from the end of the vector on. -/
def reversedAlternatingIndices (total included chunk : ℕ) : List ℕ :=
  ((List.range (total / chunk)).flatMap fun c =>
      (List.range included).map fun j => c * chunk + (included - 1) - j) ++
    (List.range (min included (total % chunk))).map fun j => total - 1 - j

def repeatedIndices (total repetition : ℕ) : List ℕ :=
  (List.range (intSteps total)).flatMap fun j => (List.range (intSteps repetition)).map fun _ => j

/-- Where the subsets begin. The `int` counter of the places is behind the vector, or negative, after as
many steps; a step that is negative as an `int` ends the loop. -/
def subsetStarts (total elementsCount : ℕ) : List ℕ :=
  if castInt elementsCount < 0 then List.range (min total 1)
  else (List.range (OptionLoop.strideCount (intSteps total) (castInt elementsCount).toNat)).map
    (· * (castInt elementsCount).toNat)

/-- The loop over the subsets does not look where the last one ends. -/
def repeatedSubsetIndices (total elementsCount repetition : ℕ) : List ℕ :=
  (subsetStarts total elementsCount).flatMap fun j =>
    (List.range (intSteps repetition)).flatMap fun _ =>
      (List.range (intSteps elementsCount)).map fun l => j + l

def cyclicIndices (total cycles : ℕ) : List ℕ :=
  (List.range (intSteps cycles)).flatMap fun _ => List.range (intSteps total)

end Indices

section Patterns

variable (v : MappedVector T)

/-- The mapped variant copies all of the range, whatever the size of the new mapping. -/
def slice (start stop : ℕ) : Option (MappedVector T) :=
  let n := min (sizeSub stop start) v.size
  match v.mapping with
  | some m =>
      if sizeSub stop start ≤ n then
        ((List.range n).mapM fun i => m[start + i]?).map fun m => view v.data (some m)
      else none
  | none => some (view v.data (some ((List.range n).map (start + ·))))

def sliceFrom (start : ℕ) : Option (MappedVector T) := v.slice start v.size

/-- The end is included. -/
def simpleSubset (start step stop : ℕ) : Option (MappedVector T) :=
  if step = 1 then v.slice start (if stop = sizeMax then 0 else stop + 1)
  else if step = 0 then none
  else v.remap ((List.range (min v.totalSize (sizeSub stop start / step + 1))).map
    fun i => start + i * step)

def simpleSubsetFrom (start step : ℕ) : Option (MappedVector T) :=
  v.simpleSubset start step (sizeSub v.totalSize 1)

def simpleSubsetTail (start : ℕ) : Option (MappedVector T) :=
  v.simpleSubset start 1 (sizeSub v.totalSize 1)

/-- The positions with a nonzero flag. -/
def included [Zero T] [DecidableEq T] (flag : List T) : Option (MappedVector T) :=
  v.remap ((List.range (min v.totalSize flag.length)).filter fun i => flag[i]? ≠ some 0)

/-- The chunks of an alternating pattern; `-1` stands for everything but the included elements. -/
def chunkSize (total includedSize excluded : ℕ) : ℕ :=
  sizeAdd includedSize (if excluded = sizeMax then sizeSub total includedSize else excluded)

def alternating (includedSize excluded : ℕ) : Option (MappedVector T) :=
  let chunk := chunkSize v.totalSize includedSize excluded
  let size := alternatingSize v.totalSize includedSize chunk
  if chunk = 0 then none else v.remap (alternatingIndices includedSize chunk size size 0)

def alternatingEqual (subsetSize : ℕ) : Option (MappedVector T) := v.alternating subsetSize subsetSize

def reversedAlternating (includedSize excluded : ℕ) : Option (MappedVector T) :=
  let chunk := chunkSize v.totalSize includedSize excluded
  if chunk = 0 then none else v.remap (reversedAlternatingIndices v.totalSize includedSize chunk)

/-- A new mapping that holds zeros and is written from the beginning on. The `int` index is out of its
bounds after `2 ^ 31` entries, and no vector of indices has `2 ^ 60` of them. -/
def fill (size : ℕ) (indices : List ℕ) : Option (MappedVector T) :=
  if size < 2 ^ 60 ∧ indices.length ≤ min size intEntries then
    (indices.mapM v.entry).map fun m => view v.data (some (m ++ List.replicate (size - m.length) 0))
  else none

def repeated (repetition : ℕ) : Option (MappedVector T) :=
  v.fill (sizeMul v.totalSize repetition) (repeatedIndices v.totalSize repetition)

/-- The `int` counter of the subsets stays zero if `elementsCount` is a multiple of `2 ^ 32`. -/
def repeatedSubsets (elementsCount repetition : ℕ) : Option (MappedVector T) :=
  if 0 < v.totalSize ∧ castInt elementsCount = 0 then none
  else v.fill (sizeMul v.totalSize repetition)
    (repeatedSubsetIndices v.totalSize elementsCount repetition)

def cyclic (cycles : ℕ) : Option (MappedVector T) :=
  v.fill (sizeMul v.totalSize cycles) (cyclicIndices v.totalSize cycles)

def directed (direction : ℤ) : Option (MappedVector T) :=
  if direction = -1 then v.remap ((List.range v.totalSize).map fun i => v.totalSize - 1 - i) else some v

end Patterns

section Lists

variable {total included chunk : ℕ}

theorem lt_of_mem_alternatingIndices (hle : included ≤ chunk) {fuel remaining j q r p : ℕ}
    (hr : r ≤ included) (hremaining : remaining ≤ q * included + r)
    (hp : p ∈ alternatingIndices included chunk fuel remaining j) : p < j + q * chunk + r := by
  induction fuel generalizing remaining j q with
  | zero => cases hp
  | succ fuel ih =>
      rw [alternatingIndices] at hp
      split at hp
      · cases hp
      rcases List.mem_append.mp hp with hfirst | hrest
      · obtain ⟨k, hk, rfl⟩ := List.mem_map.mp hfirst
        have hk := List.mem_range.mp hk
        cases q with
        | zero => omega
        | succ q =>
            rw [Nat.succ_mul]
            omega
      · cases q with
        | zero =>
            have hnone : remaining - included = 0 := by omega
            rw [hnone] at hrest
            cases fuel <;> cases hrest
        | succ q =>
            rw [Nat.succ_mul] at hremaining
            have hlt := ih (q := q) (by omega) hrest
            rw [Nat.succ_mul]
            omega

theorem length_alternatingIndices (hpos : 0 < included) {fuel remaining : ℕ} (hfuel : remaining ≤ fuel)
    (j : ℕ) : (alternatingIndices included chunk fuel remaining j).length = remaining := by
  induction fuel generalizing remaining j with
  | zero =>
      obtain rfl : remaining = 0 := by omega
      rfl
  | succ fuel ih =>
      rw [alternatingIndices]
      split
      · rename_i hzero
        exact hzero.symm
      · rw [List.length_append, List.length_map, List.length_range, ih (by omega)]
        omega

theorem alternatingSize_le (hle : included ≤ chunk) : alternatingSize total included chunk ≤ total := by
  have hdiv := Nat.div_add_mod total chunk
  have hmul : total / chunk * included ≤ chunk * (total / chunk) := by
    rw [Nat.mul_comm]
    exact Nat.mul_le_mul_right _ hle
  rw [alternatingSize]
  omega

theorem lt_of_mem_reversedAlternatingIndices (hle : included ≤ chunk) {p : ℕ}
    (hp : p ∈ reversedAlternatingIndices total included chunk) : p < total := by
  have hdiv := Nat.div_add_mod total chunk
  rcases List.mem_append.mp hp with hfull | hlast
  · obtain ⟨c, hc, hmem⟩ := List.mem_flatMap.mp hfull
    obtain ⟨j, hj, rfl⟩ := List.mem_map.mp hmem
    have hc := List.mem_range.mp hc
    have hj := List.mem_range.mp hj
    have hchunk : (c + 1) * chunk ≤ total / chunk * chunk := Nat.mul_le_mul_right _ hc
    rw [Nat.succ_mul, Nat.mul_comm (total / chunk)] at hchunk
    omega
  · obtain ⟨j, hj, rfl⟩ := List.mem_map.mp hlast
    have hj := List.mem_range.mp hj
    omega

theorem length_flatMap_range (count size : ℕ) (f : ℕ → List ℕ) (hf : ∀ i, (f i).length = size) :
    ((List.range count).flatMap f).length = count * size := by
  rw [List.length_flatMap, List.map_congr_left fun i _ => hf i, List.map_const', List.sum_replicate,
    List.length_range, smul_eq_mul]

theorem length_reversedAlternatingIndices :
    (reversedAlternatingIndices total included chunk).length = alternatingSize total included chunk := by
  rw [reversedAlternatingIndices, List.length_append, List.length_map, List.length_range,
    length_flatMap_range _ included _ fun c => by rw [List.length_map, List.length_range]]
  rfl

theorem length_repeatedIndices (repetition : ℕ) :
    (repeatedIndices total repetition).length = intSteps total * intSteps repetition :=
  length_flatMap_range _ _ _ fun j => by rw [List.length_map, List.length_range]

theorem length_cyclicIndices (cycles : ℕ) :
    (cyclicIndices total cycles).length = intSteps total * intSteps cycles := by
  rw [Nat.mul_comm]
  exact length_flatMap_range _ _ _ fun _ => List.length_range

theorem length_repeatedSubsetIndices (elementsCount repetition : ℕ) :
    (repeatedSubsetIndices total elementsCount repetition).length =
      (subsetStarts total elementsCount).length * (intSteps repetition * intSteps elementsCount) := by
  have hinner : ∀ j, ((List.range (intSteps repetition)).flatMap fun _ =>
      (List.range (intSteps elementsCount)).map fun l => j + l).length =
        intSteps repetition * intSteps elementsCount := fun j =>
    length_flatMap_range _ _ _ fun _ => by rw [List.length_map, List.length_range]
  rw [repeatedSubsetIndices, List.length_flatMap, List.map_congr_left fun j _ => hinner j,
    List.map_const', List.sum_replicate, smul_eq_mul]

theorem lt_of_mem_repeatedIndices {repetition p : ℕ} (hp : p ∈ repeatedIndices total repetition) :
    p < total := by
  obtain ⟨j, hj, hp⟩ := List.mem_flatMap.mp hp
  obtain ⟨k, -, rfl⟩ := List.mem_map.mp hp
  exact lt_of_lt_of_le (List.mem_range.mp hj) (Nat.min_le_left _ _)

theorem lt_of_mem_cyclicIndices {cycles p : ℕ} (hp : p ∈ cyclicIndices total cycles) : p < total := by
  obtain ⟨j, -, hp⟩ := List.mem_flatMap.mp hp
  exact lt_of_lt_of_le (List.mem_range.mp hp) (Nat.min_le_left _ _)

theorem subsetStarts_zero (elementsCount : ℕ) : subsetStarts 0 elementsCount = [] := by
  unfold subsetStarts
  split_ifs with hneg
  · rfl
  · have hnone : OptionLoop.strideCount 0 (castInt elementsCount).toNat = 0 := by
      rw [OptionLoop.strideCount, Nat.zero_add]
      rcases Nat.eq_zero_or_pos (castInt elementsCount).toNat with hzero | hpos
      · rw [hzero, Nat.div_zero]
      · exact Nat.div_eq_of_lt (by omega)
    rw [intSteps_eq (Nat.zero_le _), hnone]
    rfl

theorem toNat_castInt_le (n : ℕ) : (castInt n).toNat ≤ intSteps n := by
  have hle := castInt_le n
  have hlt := (castInt_inInt n).2
  unfold intSteps intEntries
  omega

/-- Every subset lies where the ones before it leave off, or begins in front of it. -/
theorem lt_of_mem_repeatedSubsetIndices {elementsCount repetition p : ℕ}
    (hp : p ∈ repeatedSubsetIndices total elementsCount repetition) :
    p < (subsetStarts total elementsCount).length * intSteps elementsCount := by
  obtain ⟨j, hj, hp⟩ := List.mem_flatMap.mp hp
  obtain ⟨-, -, hp⟩ := List.mem_flatMap.mp hp
  obtain ⟨l, hl, rfl⟩ := List.mem_map.mp hp
  have hl := List.mem_range.mp hl
  have hstep : (castInt elementsCount).toNat ≤ intSteps elementsCount := toNat_castInt_le elementsCount
  have hstart : ∃ i < (subsetStarts total elementsCount).length, j ≤ i * intSteps elementsCount := by
    obtain ⟨i, hi, rfl⟩ := List.getElem_of_mem hj
    refine ⟨i, hi, ?_⟩
    unfold subsetStarts
    split_ifs with hneg
    · rw [List.getElem_range]
      exact Nat.le_mul_of_pos_right i (Nat.zero_lt_of_lt hl)
    · rw [List.getElem_map, List.getElem_range]
      exact Nat.mul_le_mul_left i hstep
  obtain ⟨i, hi, hj⟩ := hstart
  calc j + l < i * intSteps elementsCount + intSteps elementsCount := by omega
    _ = (i + 1) * intSteps elementsCount := (Nat.succ_mul _ _).symm
    _ ≤ _ := Nat.mul_le_mul_right _ hi

end Lists

section Specs

variable {v : MappedVector T}

theorem slice_eq_remap (hv : v.Proper) {start stop : ℕ} (hle : start ≤ stop) (hstop : stop ≤ v.totalSize) :
    v.slice start stop = v.remap ((List.range (stop - start)).map (start + ·)) := by
  have hn : min (sizeSub stop start) v.size = stop - start := by
    rw [sizeSub_of_le hle, hv.size]
    omega
  rw [slice, remap, hn, List.mapM_map]
  cases hmap : v.mapping with
  | none =>
      have hentry : v.entry = some := by
        ext j
        rw [entry, hmap]
      have hall : (List.range (stop - start)).mapM (fun a => v.entry (start + a)) =
          some ((List.range (stop - start)).map (start + ·)) := mapM_some fun i _ => by rw [hentry]
      exact (congrArg (Option.map fun m => view v.data (some m)) hall).symm
  | some m =>
      have hentry : v.entry = fun j => m[j]? := by
        ext j
        rw [entry, hmap]
      rw [hentry]
      exact if_pos (by rw [sizeSub_of_le hle])

theorem remap_map_range_spec (hv : v.Proper) {n : ℕ} {f : ℕ → ℕ} (hn : n ≤ v.totalSize)
    (hinside : ∀ i < n, f i < v.totalSize) :
    ∃ v', v.remap ((List.range n).map f) = some v' ∧ v'.Proper ∧ Picks v ((List.range n).map f) v' := by
  have hbound := hv.bound
  refine remap_spec hv ?_ ?_
  · rw [List.length_map, List.length_range]
    omega
  · intro j hj
    obtain ⟨i, hi, rfl⟩ := List.mem_map.mp hj
    exact hinside i (List.mem_range.mp hi)

theorem slice_spec (hv : v.Proper) {start stop : ℕ} (hle : start ≤ stop) (hstop : stop ≤ v.totalSize) :
    ∃ v', v.slice start stop = some v' ∧ v'.Proper ∧
      Picks v ((List.range (stop - start)).map (start + ·)) v' := by
  rw [slice_eq_remap hv hle hstop]
  exact remap_map_range_spec hv (by omega) fun i hi => by omega

theorem simpleSubset_spec (hv : v.Proper) {start step stop : ℕ} (hstep : 0 < step) (hle : start ≤ stop)
    (hstop : stop < v.totalSize) :
    ∃ v', v.simpleSubset start step stop = some v' ∧ v'.Proper ∧
      Picks v ((List.range ((stop - start) / step + 1)).map fun i => start + i * step) v' := by
  have hbound := hv.bound
  have hquot := Nat.div_le_self (stop - start) step
  by_cases hone : step = 1
  · subst hone
    have hmax : stop ≠ sizeMax := by
      unfold sizeMax
      omega
    have hlen : stop + 1 - start = stop - start + 1 := by omega
    rw [simpleSubset, if_pos rfl, if_neg hmax, Nat.div_one]
    simp only [Nat.mul_one]
    rw [← hlen]
    exact slice_spec hv (by omega) (by omega)
  · have hsize : min v.totalSize (sizeSub stop start / step + 1) = (stop - start) / step + 1 := by
      rw [sizeSub_of_le hle]
      omega
    rw [simpleSubset, if_neg hone, if_neg hstep.ne', hsize]
    refine remap_map_range_spec hv (by omega) fun i hi => ?_
    have hmul : i * step ≤ stop - start := (Nat.le_div_iff_mul_le hstep).mp (Nat.lt_succ_iff.mp hi)
    omega

theorem simpleSubsetTail_spec (hv : v.Proper) {start : ℕ} (hstart : start ≤ v.totalSize) :
    ∃ v', v.simpleSubsetTail start = some v' ∧ v'.Proper ∧
      Picks v ((List.range (v.totalSize - start)).map (start + ·)) v' := by
  have hbound := hv.bound
  have hstop : (if sizeSub v.totalSize 1 = sizeMax then 0 else sizeSub v.totalSize 1 + 1) = v.totalSize := by
    unfold sizeSub sizeMax
    split <;> split <;> omega
  rw [simpleSubsetTail, simpleSubset, if_pos rfl, hstop]
  exact slice_spec hv hstart (le_refl _)

theorem alternating_spec (hv : v.Proper) {includedSize excluded chunk : ℕ}
    (hchunk : chunkSize v.totalSize includedSize excluded = chunk) (hpos : 0 < chunk)
    (hle : includedSize ≤ chunk) :
    ∃ v', v.alternating includedSize excluded = some v' ∧ v'.Proper ∧
      Picks v (alternatingIndices includedSize chunk (alternatingSize v.totalSize includedSize chunk)
        (alternatingSize v.totalSize includedSize chunk) 0) v' := by
  have hbound := hv.bound
  have hsize : alternatingSize v.totalSize includedSize chunk ≤ v.totalSize := alternatingSize_le hle
  rw [alternating, hchunk, if_neg hpos.ne']
  refine remap_spec hv ?_ ?_
  · rcases Nat.eq_zero_or_pos includedSize with hzero | hincluded
    · have hnone : alternatingSize v.totalSize includedSize chunk = 0 := by
        rw [alternatingSize, hzero, Nat.mul_zero, Nat.zero_min]
      rw [hnone]
      exact Nat.two_pow_pos 64
    · rw [length_alternatingIndices hincluded (le_refl _)]
      omega
  · intro p hp
    have hdiv := Nat.div_add_mod v.totalSize chunk
    have hlt := lt_of_mem_alternatingIndices hle (q := v.totalSize / chunk)
      (Nat.min_le_left includedSize (v.totalSize % chunk)) (le_refl _) hp
    rw [Nat.mul_comm] at hdiv
    omega

theorem reversedAlternating_spec (hv : v.Proper) {includedSize excluded chunk : ℕ}
    (hchunk : chunkSize v.totalSize includedSize excluded = chunk) (hpos : 0 < chunk)
    (hle : includedSize ≤ chunk) :
    ∃ v', v.reversedAlternating includedSize excluded = some v' ∧ v'.Proper ∧
      Picks v (reversedAlternatingIndices v.totalSize includedSize chunk) v' := by
  have hbound := hv.bound
  have hsize : alternatingSize v.totalSize includedSize chunk ≤ v.totalSize := alternatingSize_le hle
  rw [reversedAlternating, hchunk, if_neg hpos.ne']
  refine remap_spec hv ?_ fun p hp => lt_of_mem_reversedAlternatingIndices hle hp
  rw [length_reversedAlternatingIndices]
  omega

/-- The new mapping has the entries of the old one at the indices, and zeros behind them. -/
structure Filled (v : MappedVector T) (size : ℕ) (indices : List ℕ) (v' : MappedVector T) : Prop where
  data : v'.data = v.data
  totalSize : v'.totalSize = size
  length_le : indices.length ≤ size
  entry : ∀ i j : ℕ, indices[i]? = some j → v'.entry i = v.entry j
  rest : ∀ i, indices.length ≤ i → i < size → v'.entry i = some 0
  pos : indices.length < size → 0 < v.totalSize

theorem Picks.filled {v v' : MappedVector T} {indices : List ℕ} (hpicks : Picks v indices v') :
    Filled v indices.length indices v' :=
  ⟨hpicks.data, hpicks.totalSize, le_refl _, hpicks.entry,
    fun _ hle hlt => absurd hlt (not_lt.mpr hle),
    fun hlt => absurd hlt (lt_irrefl _)⟩

theorem fill_spec (hv : v.Proper) {size : ℕ} {indices : List ℕ} (hsize : size < 2 ^ 60)
    (hlen : indices.length ≤ min size intEntries) (hinside : ∀ j ∈ indices, j < v.totalSize)
    (hpos : indices.length < size → 0 < v.totalSize) :
    ∃ v', v.fill size indices = some v' ∧ v'.Proper ∧ Filled v size indices v' := by
  have hentry : ∀ j ∈ indices, ∃ p, v.entry j = some p := by
    intro j hj
    obtain ⟨p, -, heq⟩ := hv.inside j (hinside j hj)
    exact ⟨p, heq⟩
  obtain ⟨m, hm, hmlen, hget⟩ := exists_mapM hentry
  have hfill : v.fill size indices =
      some (view v.data (some (m ++ List.replicate (size - m.length) 0))) := by
    rw [fill, if_pos ⟨hsize, hlen⟩, hm]
    rfl
  have hle : m.length ≤ size :=
    calc m.length = indices.length := hmlen
      _ ≤ min size intEntries := hlen
      _ ≤ size := Nat.min_le_left _ _
  have htotal : (view v.data (some (m ++ List.replicate (size - m.length) 0))).totalSize = size := by
    change (m ++ List.replicate (size - m.length) 0).length = size
    rw [List.length_append, List.length_replicate]
    omega
  have hfilled : Filled v size indices (view v.data (some (m ++ List.replicate (size - m.length) 0))) := by
    refine ⟨rfl, htotal, hlen.trans (Nat.min_le_left _ _), fun i j hij => ?_, fun i hge hlt => ?_, hpos⟩
    · have hi : i < m.length := hmlen ▸ (List.getElem?_eq_some_iff.mp hij).1
      exact (List.getElem?_append_left hi).trans (hget i j hij)
    · have hge : m.length ≤ i := hmlen ▸ hge
      refine (List.getElem?_append_right hge).trans (List.getElem?_replicate_of_lt ?_)
      omega
  refine ⟨_, hfill, ⟨rfl, (totalSize_view _ _).symm, by omega, fun i hi => ?_⟩, hfilled⟩
  rcases Nat.lt_or_ge i indices.length with hlt | hge
  · have hij : indices[i]? = some indices[i] := List.getElem?_eq_getElem hlt
    obtain ⟨p, hp, heq⟩ := hv.inside _ (hinside _ (List.mem_of_getElem? hij))
    exact ⟨p, hp, (hfilled.entry i _ hij).trans heq⟩
  · rw [htotal] at hi
    obtain ⟨p, hp, -⟩ := hv.inside 0 (hpos (lt_of_le_of_lt hge hi))
    exact ⟨0, Nat.zero_lt_of_lt hp, hfilled.rest i hge hi⟩

/-- When two nested loops stay within their mapping and its index. -/
def RepeatsFit (total repetition : ℕ) : Prop :=
  total * repetition < 2 ^ 60 ∧ (total * repetition ≤ intEntries ∨ total = 1 ∨ repetition = 1)

theorem RepeatsFit.of_le {total repetition : ℕ} (hfits : total * repetition ≤ intEntries) :
    RepeatsFit total repetition := ⟨lt_of_le_of_lt hfits (by decide), Or.inl hfits⟩

theorem intSteps_mul_le (m n : ℕ) : intSteps m * intSteps n ≤ m * n :=
  Nat.mul_le_mul (Nat.min_le_left _ _) (Nat.min_le_left _ _)

/-- In bounds of an `int`, sizes do not wrap around either. -/
theorem mul_lt_of_intSteps {total repetition : ℕ} (htotal : total < 2 ^ 64) (hrep : repetition < 2 ^ 64)
    (hle : intSteps total * intSteps repetition ≤ intEntries) : total * repetition < 2 ^ 64 := by
  rcases intSteps_mul_le_iff.mp hle with hle | rfl | rfl
  · exact lt_of_le_of_lt hle (by decide)
  · rwa [Nat.one_mul]
  · rwa [Nat.mul_one]

section Repeats

variable {repetition : ℕ} {indices : List ℕ}

theorem fill_repeats (hv : v.Proper) (hlen : indices.length = intSteps v.totalSize * intSteps repetition)
    (hinside : ∀ j ∈ indices, j < v.totalSize) (hfits : RepeatsFit v.totalSize repetition) :
    ∃ v', v.fill (sizeMul v.totalSize repetition) indices = some v' ∧ v'.Proper ∧
      Filled v (v.totalSize * repetition) indices v' := by
  obtain ⟨hsize, hcount⟩ := hfits
  rw [sizeMul_of_lt (by omega)]
  refine fill_spec hv hsize ?_ hinside fun hlt => ?_
  · rw [hlen]
    exact le_min (intSteps_mul_le _ _) (intSteps_mul_le_iff.mpr hcount)
  · exact Nat.pos_of_ne_zero fun hzero => by simp [hzero] at hlt

theorem fill_repeats_of_not_fits (hv : v.Proper) (hrep : repetition < 2 ^ 64)
    (hlen : indices.length = intSteps v.totalSize * intSteps repetition)
    (hfits : ¬ RepeatsFit v.totalSize repetition) :
    v.fill (sizeMul v.totalSize repetition) indices = none := by
  rw [fill, if_neg]
  rintro ⟨hsize, hle⟩
  have hcount : intSteps v.totalSize * intSteps repetition ≤ intEntries :=
    hlen ▸ hle.trans (Nat.min_le_right _ _)
  rw [sizeMul_of_lt (mul_lt_of_intSteps hv.bound hrep hcount)] at hsize
  exact hfits ⟨hsize, intSteps_mul_le_iff.mp hcount⟩

end Repeats

theorem repeated_spec (hv : v.Proper) {repetition : ℕ} (hfits : RepeatsFit v.totalSize repetition) :
    ∃ v', v.repeated repetition = some v' ∧ v'.Proper ∧
      Filled v (v.totalSize * repetition) (repeatedIndices v.totalSize repetition) v' :=
  fill_repeats hv (length_repeatedIndices _) (fun _ => lt_of_mem_repeatedIndices) hfits

theorem cyclic_spec (hv : v.Proper) {cycles : ℕ} (hfits : RepeatsFit v.totalSize cycles) :
    ∃ v', v.cyclic cycles = some v' ∧ v'.Proper ∧
      Filled v (v.totalSize * cycles) (cyclicIndices v.totalSize cycles) v' :=
  fill_repeats hv (length_cyclicIndices _) (fun _ => lt_of_mem_cyclicIndices) hfits

section Subsets

variable {total elementsCount repetition : ℕ}

theorem castInt_neg_iff : castInt elementsCount < 0 ↔ intEntries ≤ elementsCount % 2 ^ 32 := by
  rw [castInt_natCast_eq, intEntries]
  split <;> omega

theorem castInt_eq_zero_iff : castInt elementsCount = 0 ↔ 2 ^ 32 ∣ elementsCount := by
  rw [castInt_natCast_eq, Nat.dvd_iff_mod_eq_zero]
  split <;> omega

/-- When the loops over the subsets write no more entries than there are. -/
def SubsetsEnd (total elementsCount repetition : ℕ) : Prop :=
  total * repetition = 0 ∨ (elementsCount ∣ total ∧ total * repetition ≤ intEntries) ∨
    (total = 1 ∧ elementsCount = 1) ∨
    repetition = 1 ∧ intEntries ≤ total ∧
      (elementsCount ∣ intEntries ∨ intEntries ≤ elementsCount % 2 ^ 32)

/-- A step that is negative as an `int`: there is one subset. -/
theorem subsets_le_iff_of_neg (htotal : 0 < total) (hrep : 0 < repetition)
    (hneg : castInt elementsCount < 0) :
    (subsetStarts total elementsCount).length * (intSteps repetition * intSteps elementsCount) ≤
      min (total * repetition) intEntries ↔ repetition = 1 ∧ intEntries ≤ total := by
  have hlarge : intEntries ≤ elementsCount := (castInt_neg_iff.mp hneg).trans (Nat.mod_le _ _)
  have hstarts : (subsetStarts total elementsCount).length = 1 := by
    rw [subsetStarts, if_pos hneg, List.length_range]
    omega
  have hsteps : intSteps elementsCount = intEntries := intSteps_of_ge hlarge
  have hone : intSteps repetition * intEntries ≤ intEntries ↔ repetition = 1 := by
    rw [mul_le_iff_le_one_left intEntries_pos, intSteps_le_one_iff]
    omega
  rw [hstarts, hsteps, Nat.one_mul, le_min_iff, hone]
  constructor
  · rintro ⟨hle, rfl⟩
    rw [Nat.mul_one, intSteps_eq (by decide), Nat.one_mul] at hle
    exact ⟨rfl, hle⟩
  · rintro ⟨rfl, hle⟩
    rw [Nat.mul_one, intSteps_eq (by decide), Nat.one_mul]
    exact ⟨hle, rfl⟩

/-- A positive step below the range of an `int`: the subsets follow each other, and the last one may
reach behind the vector. -/
theorem subsets_le_iff_of_lt (htotal : 0 < total) (hrep : 0 < repetition) (hpos : 0 < elementsCount)
    (hlt : elementsCount < intEntries) :
    (subsetStarts total elementsCount).length * (intSteps repetition * intSteps elementsCount) ≤
      min (total * repetition) intEntries ↔
      (elementsCount ∣ total ∧ total * repetition ≤ intEntries) ∨ (total = 1 ∧ elementsCount = 1) ∨
        repetition = 1 ∧ intEntries ≤ total ∧ elementsCount ∣ intEntries := by
  have hcast : castInt elementsCount = elementsCount := castInt_natCast hlt
  have hstarts : (subsetStarts total elementsCount).length =
      OptionLoop.strideCount (intSteps total) elementsCount := by
    rw [subsetStarts, hcast, if_neg (by omega), List.length_map, List.length_range, Int.toNat_natCast]
  have hge := OptionLoop.le_strideCount_mul (intSteps total) hpos
  have heq : elementsCount ∣ intSteps total →
      OptionLoop.strideCount (intSteps total) elementsCount * elementsCount = intSteps total :=
    OptionLoop.strideCount_mul_of_dvd hpos
  have hdvd : elementsCount ∣ OptionLoop.strideCount (intSteps total) elementsCount * elementsCount :=
    Nat.dvd_mul_left _ _
  rw [hstarts, intSteps_eq hlt.le, Nat.mul_left_comm]
  generalize OptionLoop.strideCount (intSteps total) elementsCount * elementsCount = covered at *
  constructor
  · intro hle
    obtain ⟨hsize, hint⟩ := le_min_iff.mp hle
    rcases le_or_gt total intEntries with hsmall | hmany
    · rw [intSteps_eq hsmall] at hge heq
      rcases le_or_gt repetition intEntries with hrep_le | hrep_gt
      · rw [intSteps_eq hrep_le, Nat.mul_comm] at hsize hint
        obtain rfl : covered = total := le_antisymm (Nat.le_of_mul_le_mul_right hsize hrep) hge
        exact Or.inl ⟨hdvd, hint⟩
      · rw [intSteps_of_ge hrep_gt.le, mul_le_iff_le_one_right intEntries_pos] at hint
        obtain rfl : covered = 1 := by omega
        exact Or.inr (Or.inl ⟨by omega, Nat.dvd_one.mp hdvd⟩)
    · rw [intSteps_of_ge hmany.le] at hge heq
      have hone : intSteps repetition ≤ 1 := by
        by_contra hnot
        have hmul := Nat.mul_le_mul (not_le.mp hnot) hge
        rw [intEntries] at *
        omega
      have hrep_one : repetition = 1 := by
        rw [intSteps_le_one_iff] at hone
        omega
      subst hrep_one
      rw [intSteps_eq (by decide), Nat.one_mul] at hint
      exact Or.inr (Or.inr ⟨rfl, hmany.le, le_antisymm hint hge ▸ hdvd⟩)
  · rintro (⟨hmul, hle⟩ | ⟨rfl, rfl⟩ | ⟨rfl, hmany, hmul⟩)
    · have hsmall : total ≤ intEntries := (Nat.le_mul_of_pos_right total hrep).trans hle
      rw [intSteps_eq hsmall] at heq
      rw [heq hmul, Nat.mul_comm total]
      exact le_min (Nat.mul_le_mul_right _ (Nat.min_le_left _ _))
        ((Nat.mul_le_mul_right _ (Nat.min_le_left _ _)).trans (Nat.mul_comm total _ ▸ hle))
    · rw [heq (one_dvd _), intSteps_eq (by decide : 1 ≤ intEntries), Nat.mul_one, Nat.one_mul]
      exact le_refl _
    · rw [intSteps_of_ge hmany] at heq
      rw [heq hmul, intSteps_eq (by decide), Nat.one_mul, Nat.mul_one]
      exact le_min hmany (le_refl _)

/-- A positive step that has wrapped around: the first subset is too long already. -/
theorem not_subsets_le (htotal : 0 < total) (hrep : 0 < repetition) (hpos : 0 < castInt elementsCount)
    (hlarge : intEntries ≤ elementsCount) :
    ¬ (subsetStarts total elementsCount).length * (intSteps repetition * intSteps elementsCount) ≤
      min (total * repetition) intEntries := by
  intro hle
  obtain ⟨hsize, hint⟩ := le_min_iff.mp hle
  have hstep : (castInt elementsCount).toNat < intEntries := by
    have hlt := (castInt_inInt elementsCount).2
    unfold intEntries
    omega
  have hstarts : (subsetStarts total elementsCount).length =
      OptionLoop.strideCount (intSteps total) (castInt elementsCount).toNat := by
    rw [subsetStarts, if_neg (by omega), List.length_map, List.length_range]
  have hge := OptionLoop.le_strideCount_mul (intSteps total)
    (by omega : 0 < (castInt elementsCount).toNat)
  rw [hstarts, intSteps_of_ge hlarge, ← Nat.mul_assoc] at hsize hint
  rw [mul_le_iff_le_one_left intEntries_pos] at hint
  generalize OptionLoop.strideCount (intSteps total) (castInt elementsCount).toNat = count at *
  have hcount : 0 < count := Nat.pos_of_ne_zero fun hzero => by
    have hsteps : 0 < intSteps total := lt_min htotal (by decide)
    rw [hzero] at hge
    omega
  have hrep_pos : 0 < intSteps repetition := lt_min hrep intEntries_pos
  have hmul : count * intSteps repetition = 1 := le_antisymm hint (Nat.mul_pos hcount hrep_pos)
  obtain rfl : count = 1 := Nat.eq_one_of_mul_eq_one_right hmul
  have hsteps : intSteps repetition = 1 := (Nat.one_mul _).symm.trans hmul
  have hrep_le := intSteps_le_one_iff.mp hsteps.le
  obtain rfl : repetition = 1 := by omega
  have hmany : intEntries ≤ total := by
    rw [hsteps] at hsize
    omega
  rw [intSteps_of_ge hmany] at hge
  omega

theorem subsets_le_iff (hpos : 0 < elementsCount) (hstep : total = 0 ∨ ¬ 2 ^ 32 ∣ elementsCount) :
    (repeatedSubsetIndices total elementsCount repetition).length ≤ min (total * repetition) intEntries ↔
      SubsetsEnd total elementsCount repetition := by
  rw [length_repeatedSubsetIndices, SubsetsEnd]
  rcases Nat.eq_zero_or_pos total with rfl | htotal
  · rw [subsetStarts_zero]
    simp
  rcases Nat.eq_zero_or_pos repetition with rfl | hrep
  · simp [intSteps]
  have hne : castInt elementsCount ≠ 0 := castInt_eq_zero_iff.not.mpr (hstep.resolve_left htotal.ne')
  rw [or_iff_right (Nat.mul_pos htotal hrep).ne']
  rcases lt_or_gt_of_ne hne with hneg | hsign
  · rw [subsets_le_iff_of_neg htotal hrep hneg]
    have hmod := castInt_neg_iff.mp hneg
    have hlarge : intEntries ≤ elementsCount := hmod.trans (Nat.mod_le _ _)
    constructor
    · rintro ⟨hone, hmany⟩
      exact Or.inr (Or.inr ⟨hone, hmany, Or.inr hmod⟩)
    · rintro (⟨hdvd, hle⟩ | ⟨-, hone⟩ | ⟨hone, hmany, -⟩)
      · have hmany := hlarge.trans (Nat.le_of_dvd htotal hdvd)
        have hone : repetition ≤ 1 := Nat.le_of_mul_le_mul_left
          (calc total * repetition ≤ intEntries := hle
            _ ≤ total := hmany
            _ = total * 1 := (Nat.mul_one _).symm) htotal
        exact ⟨by omega, hmany⟩
      · rw [hone] at hlarge
        exact absurd hlarge (by decide)
      · exact ⟨hone, hmany⟩
  · have hmod : ¬ intEntries ≤ elementsCount % 2 ^ 32 := castInt_neg_iff.not.mp (by omega)
    rcases lt_or_ge elementsCount intEntries with hlt | hlarge
    · rw [subsets_le_iff_of_lt htotal hrep hpos hlt]
      simp only [hmod, or_false]
    · apply iff_of_false (not_subsets_le htotal hrep hsign hlarge)
      have hmore : intEntries < elementsCount := lt_of_le_of_ne hlarge fun heq => hmod (heq ▸ by decide)
      rintro (⟨hdvd, hle⟩ | ⟨-, hone⟩ | ⟨-, -, hdvd | hmod'⟩)
      · have hmany : intEntries < total * repetition :=
          calc intEntries < elementsCount := hmore
            _ ≤ total := Nat.le_of_dvd htotal hdvd
            _ ≤ total * repetition := Nat.le_mul_of_pos_right total hrep
        exact absurd hle (not_le.mpr hmany)
      · rw [hone] at hmore
        exact absurd hmore (by decide)
      · exact absurd (Nat.le_of_dvd (Nat.two_pow_pos 31) hdvd) (not_le.mpr hmore)
      · exact hmod hmod'

/-- The subsets cover as much of the vector as an `int` counts. -/
theorem intSteps_le_covered (hne : castInt elementsCount ≠ 0) :
    intSteps total ≤ (subsetStarts total elementsCount).length * intSteps elementsCount := by
  unfold subsetStarts
  split_ifs with hneg
  · have hlarge : intEntries ≤ elementsCount := (castInt_neg_iff.mp hneg).trans (Nat.mod_le _ _)
    rw [intSteps_of_ge hlarge, List.length_range]
    unfold intSteps
    rcases Nat.eq_zero_or_pos total with rfl | hpos
    · exact Nat.zero_le _
    · rw [Nat.min_eq_right hpos, Nat.one_mul]
      exact Nat.min_le_right _ _
  · rw [List.length_map, List.length_range]
    exact (OptionLoop.le_strideCount_mul _ (by omega)).trans
      (Nat.mul_le_mul_left _ (toNat_castInt_le elementsCount))

/-- When the pattern of repeated subsets stays within its mapping and its counters. -/
def SubsetsFit (total elementsCount repetition : ℕ) : Prop :=
  total * repetition < 2 ^ 60 ∧ (total = 0 ∨ ¬ 2 ^ 32 ∣ elementsCount) ∧
    SubsetsEnd total elementsCount repetition

/-- Subsets that write no more entries than there are do not reach behind the vector. -/
theorem lt_of_mem_of_length_le {p : ℕ} (hp : p ∈ repeatedSubsetIndices total elementsCount repetition)
    (hle : (repeatedSubsetIndices total elementsCount repetition).length ≤
      min (total * repetition) intEntries) : p < total := by
  have hcovered := lt_of_mem_repeatedSubsetIndices hp
  have htotal : 0 < total := Nat.pos_of_ne_zero fun hzero => by
    rw [hzero, repeatedSubsetIndices, subsetStarts_zero] at hp
    cases hp
  rw [length_repeatedSubsetIndices, Nat.mul_left_comm] at hle
  generalize (subsetStarts total elementsCount).length * intSteps elementsCount = covered at *
  obtain ⟨hsize, hint⟩ := le_min_iff.mp hle
  rcases le_or_gt repetition intEntries with hsmall | hmany
  · have hrep : 0 < repetition := Nat.pos_of_ne_zero fun hzero => by
      rw [hzero, repeatedSubsetIndices] at hp
      simp [intSteps] at hp
    rw [intSteps_eq hsmall, Nat.mul_comm] at hsize
    exact hcovered.trans_le (Nat.le_of_mul_le_mul_right hsize hrep)
  · rw [intSteps_of_ge hmany.le, mul_le_iff_le_one_right intEntries_pos] at hint
    omega

theorem repeatedSubsets_spec (hv : v.Proper) (hpos : 0 < elementsCount)
    (hfits : SubsetsFit v.totalSize elementsCount repetition) :
    ∃ v', v.repeatedSubsets elementsCount repetition = some v' ∧ v'.Proper ∧
      Filled v (v.totalSize * repetition) (repeatedSubsetIndices v.totalSize elementsCount repetition)
        v' := by
  obtain ⟨hsize, hstep, hend⟩ := hfits
  have hle := (subsets_le_iff hpos hstep).mpr hend
  have hloop : ¬ (0 < v.totalSize ∧ castInt elementsCount = 0) := by
    rintro ⟨htotal, hzero⟩
    exact hstep.resolve_left htotal.ne' (castInt_eq_zero_iff.mp hzero)
  rw [repeatedSubsets, if_neg hloop, sizeMul_of_lt (by omega)]
  refine fill_spec hv hsize hle (fun p hp => lt_of_mem_of_length_le hp hle) fun hlt => ?_
  exact Nat.pos_of_ne_zero fun hzero => by simp [hzero] at hlt

theorem repeatedSubsets_of_not_fits (hv : v.Proper) (hpos : 0 < elementsCount)
    (hrep : repetition < 2 ^ 64) (hfits : ¬ SubsetsFit v.totalSize elementsCount repetition) :
    v.repeatedSubsets elementsCount repetition = none := by
  rw [repeatedSubsets]
  split
  · rfl
  rename_i hloop
  have hstep : v.totalSize = 0 ∨ ¬ 2 ^ 32 ∣ elementsCount := by
    rw [← castInt_eq_zero_iff]
    omega
  rw [fill, if_neg]
  rintro ⟨hsize, hle⟩
  have hcount : intSteps v.totalSize * intSteps repetition ≤ intEntries := by
    rcases Nat.eq_zero_or_pos v.totalSize with hzero | htotal
    · rw [hzero, intSteps, Nat.zero_min, Nat.zero_mul]
      exact Nat.zero_le _
    have hint := hle.trans (Nat.min_le_right _ _)
    rw [length_repeatedSubsetIndices, Nat.mul_comm (intSteps repetition), ← Nat.mul_assoc] at hint
    refine (Nat.mul_le_mul_right _ (intSteps_le_covered ?_)).trans hint
    exact castInt_eq_zero_iff.not.mpr (hstep.resolve_left htotal.ne')
  rw [sizeMul_of_lt (mul_lt_of_intSteps hv.bound hrep hcount)] at hsize hle
  exact hfits ⟨hsize, hstep, (subsets_le_iff hpos hstep).mp hle⟩

end Subsets

/-- Not reversed it is the vector itself, which has a mapping only if it had one. -/
theorem directed_spec (hv : v.Proper) (direction : ℤ) :
    ∃ v', v.directed direction = some v' ∧ v'.Proper ∧
      Picks v ((List.range v.totalSize).map fun i => if direction = -1 then v.totalSize - 1 - i else i)
        v' := by
  rw [directed]
  split
  · exact remap_map_range_spec hv (le_refl _) fun i hi => by omega
  · refine ⟨v, rfl, hv, rfl, by simp, fun i j hij => ?_⟩
    obtain ⟨hi, rfl⟩ : i < v.totalSize ∧ i = j := by
      rw [List.map_id'] at hij
      have hlt : i < v.totalSize := by simpa using (List.getElem?_eq_some_iff.mp hij).1
      rw [List.getElem?_range hlt] at hij
      exact ⟨hlt, Option.some.inj hij⟩
    rfl

end Specs

end MappedVector

inductive AccessPattern (T : Type)
  | simpleSubset (start step stop : ℕ)
  | simpleSubsetFrom (start step : ℕ)
  | simpleSubsetTail (start : ℕ)
  | slice (start stop : ℕ)
  | sliceFrom (start : ℕ)
  | included (flag : List T)
  | alternating (includedSize excluded : ℕ)
  | alternatingEqual (subsetSize : ℕ)
  | reversedAlternating (includedSize excluded : ℕ)
  | repeated (repetition : ℕ)
  | repeatedSubsets (elementsCount repetition : ℕ)
  | cyclic (cycles : ℕ)
  | directed (direction : ℤ)

namespace AccessPattern

variable {T : Type}

def apply [Zero T] [DecidableEq T] (v : MappedVector T) : AccessPattern T → Option (MappedVector T)
  | simpleSubset start step stop => v.simpleSubset start step stop
  | simpleSubsetFrom start step => v.simpleSubsetFrom start step
  | simpleSubsetTail start => v.simpleSubsetTail start
  | slice start stop => v.slice start stop
  | sliceFrom start => v.sliceFrom start
  | included flag => v.included flag
  | alternating includedSize excluded => v.alternating includedSize excluded
  | alternatingEqual subsetSize => v.alternatingEqual subsetSize
  | reversedAlternating includedSize excluded => v.reversedAlternating includedSize excluded
  | repeated repetition => v.repeated repetition
  | repeatedSubsets elementsCount repetition => v.repeatedSubsets elementsCount repetition
  | cyclic cycles => v.cyclic cycles
  | directed direction => v.directed direction

/-- The indices of a vector of `n` elements that the pattern shows. -/
def indices [Zero T] [DecidableEq T] (n : ℕ) : AccessPattern T → List ℕ
  | simpleSubset start step stop => (List.range ((stop - start) / step + 1)).map fun i => start + i * step
  | simpleSubsetFrom start step => (List.range ((n - 1 - start) / step + 1)).map fun i => start + i * step
  | simpleSubsetTail start => (List.range (n - start)).map (start + ·)
  | slice start stop => (List.range (stop - start)).map (start + ·)
  | sliceFrom start => (List.range (n - start)).map (start + ·)
  | included flag => (List.range (min n flag.length)).filter fun i => flag[i]? ≠ some 0
  | alternating includedSize excluded =>
      let chunk := MappedVector.chunkSize n includedSize excluded
      let size := MappedVector.alternatingSize n includedSize chunk
      MappedVector.alternatingIndices includedSize chunk size size 0
  | alternatingEqual subsetSize =>
      let chunk := MappedVector.chunkSize n subsetSize subsetSize
      let size := MappedVector.alternatingSize n subsetSize chunk
      MappedVector.alternatingIndices subsetSize chunk size size 0
  | reversedAlternating includedSize excluded =>
      MappedVector.reversedAlternatingIndices n includedSize
        (MappedVector.chunkSize n includedSize excluded)
  | repeated repetition => MappedVector.repeatedIndices n repetition
  | repeatedSubsets elementsCount repetition =>
      MappedVector.repeatedSubsetIndices n elementsCount repetition
  | cyclic cycles => MappedVector.cyclicIndices n cycles
  | directed direction => (List.range n).map fun i => if direction = -1 then n - 1 - i else i

/-- How many entries the new mapping has. -/
def size [Zero T] [DecidableEq T] (n : ℕ) : AccessPattern T → ℕ
  | repeated repetition => n * repetition
  | repeatedSubsets _ repetition => n * repetition
  | cyclic cycles => n * cycles
  | p => (p.indices n).length

/-- The chunks are not empty, and their size does not wrap around. -/
def ChunkInRange (n includedSize excluded : ℕ) : Prop :=
  0 < MappedVector.chunkSize n includedSize excluded ∧
    includedSize ≤ MappedVector.chunkSize n includedSize excluded

/-- The parameters make sense for a vector of `n` elements. -/
def InRange (n : ℕ) : AccessPattern T → Prop
  | simpleSubset start step stop => 0 < step ∧ start ≤ stop ∧ stop < n
  | simpleSubsetFrom start step => 0 < step ∧ start < n
  | simpleSubsetTail start => start ≤ n
  | slice start stop => start ≤ stop ∧ stop ≤ n
  | sliceFrom start => start ≤ n
  | included _ => True
  | alternating includedSize excluded => ChunkInRange n includedSize excluded
  | alternatingEqual subsetSize => ChunkInRange n subsetSize subsetSize
  | reversedAlternating includedSize excluded => ChunkInRange n includedSize excluded
  | repeated repetition => repetition < 2 ^ 64
  | repeatedSubsets elementsCount repetition => 0 < elementsCount ∧ repetition < 2 ^ 64
  | cyclic cycles => cycles < 2 ^ 64
  | directed _ => True

/-- The loops stay within the mapping and its index, and end. -/
def Fits (n : ℕ) : AccessPattern T → Prop
  | repeated repetition => MappedVector.RepeatsFit n repetition
  | repeatedSubsets elementsCount repetition => MappedVector.SubsetsFit n elementsCount repetition
  | cyclic cycles => MappedVector.RepeatsFit n cycles
  | _ => True

/-- Entries that the loops do not reach show the first element of the storage. -/
def Holds [Zero T] [DecidableEq T] (v : MappedVector T) (p : AccessPattern T) : Prop :=
  p.Fits v.totalSize ∧
    ((p.indices v.totalSize).length < p.size v.totalSize → v.read 0 = v.data[0]?)

section Views

variable {v : MappedVector T}

/-- The two vectors have the same elements. -/
structure ShowsSame (v w : MappedVector T) : Prop where
  totalSize : v.totalSize = w.totalSize
  read : ∀ i < v.totalSize, v.read i = w.read i

/-- The results of a pattern on a vector and on a copy of it. -/
theorem ShowsSame.filled_iff {u v' u' : MappedVector T} (hsame : ShowsSame v u) (hv : v.Proper)
    (hu : u.Proper) (hv' : v'.Proper) (hu' : u'.Proper) (hcopy : u.mapping = none) {size : ℕ}
    {indices : List ℕ} (hinside : ∀ j ∈ indices, j < v.totalSize)
    (hfv : MappedVector.Filled v size indices v') (hfu : MappedVector.Filled u size indices u') :
    ShowsSame v' u' ↔ (indices.length < size → v.read 0 = v.data[0]?) := by
  have hentry : u.entry 0 = some 0 := by rw [MappedVector.entry, hcopy]
  have hrest : ∀ i, indices.length ≤ i → i < size →
      v'.read i = v.data[0]? ∧ u'.read i = v.read 0 := by
    intro i hge hlt
    rw [hv'.read_eq, hu'.read_eq, hfv.rest i hge hlt, hfu.rest i hge hlt, hfv.data, hfu.data,
      hsame.read 0 (hfv.pos (lt_of_le_of_lt hge hlt)), hu.read_eq, hentry]
    exact ⟨rfl, rfl⟩
  constructor
  · intro hshows hlt
    obtain ⟨hread, hread'⟩ := hrest _ (le_refl _) hlt
    rw [← hread, ← hread']
    exact (hshows.read _ (hfv.totalSize ▸ hlt)).symm
  · intro hfirst
    refine ⟨hfv.totalSize.trans hfu.totalSize.symm, fun i hi => ?_⟩
    rw [hfv.totalSize] at hi
    rcases Nat.lt_or_ge i indices.length with hlt | hge
    · have hij : indices[i]? = some indices[i] := List.getElem?_eq_getElem hlt
      have hread := hsame.read _ (hinside _ (List.mem_of_getElem? hij))
      rw [hv'.read_eq, hu'.read_eq, hfv.entry i _ hij, hfu.entry i _ hij, hfv.data, hfu.data,
        ← hv.read_eq, ← hu.read_eq, hread]
    · obtain ⟨hread, hread'⟩ := hrest i hge hi
      rw [hread, hread', hfirst (lt_of_le_of_lt hge hi)]

/-- An assignment to `v` changes the elements of the storage that `v` shows, and no others. -/
def AssignsExactly (v : MappedVector T) : Prop :=
  ∀ other : List T, other.length = v.size → ∃ u, v.assign other = some u ∧
    u.mapping = v.mapping ∧ u.data.length = v.data.length ∧
    (∀ i < v.size, ∀ p, v.entry i = some p → u.data[p]? = other[i]?) ∧
    ∀ p, (∀ i < v.size, v.entry i ≠ some p) → u.data[p]? = v.data[p]?

theorem assignsExactly_of_distinct (hv : v.Proper) (hdistinct : v.Distinct) : AssignsExactly v := by
  intro other hlen
  rw [hv.size] at hlen
  obtain ⟨u, hassign, hu⟩ := MappedVector.assign_spec hv hdistinct hlen
  rw [hv.size]
  exact ⟨u, hassign, hu.mapping, hu.length, hu.changed, hu.kept⟩

end Views

variable [Zero T] [DecidableEq T] {v : MappedVector T}

theorem apply_spec (hv : v.Proper) {p : AccessPattern T} (hrange : p.InRange v.totalSize)
    (hfits : p.Fits v.totalSize) :
    ∃ v', p.apply v = some v' ∧ v'.Proper ∧
      MappedVector.Filled v (p.size v.totalSize) (p.indices v.totalSize) v' := by
  have hpicks : ∀ {indices : List ℕ} {result : Option (MappedVector T)},
      (∃ v', result = some v' ∧ v'.Proper ∧ MappedVector.Picks v indices v') →
      ∃ v', result = some v' ∧ v'.Proper ∧ MappedVector.Filled v indices.length indices v' := by
    rintro indices result ⟨v', hresult, hv', hpicks⟩
    exact ⟨v', hresult, hv', hpicks.filled⟩
  cases p with
  | simpleSubset start step stop =>
      exact hpicks (MappedVector.simpleSubset_spec hv hrange.1 hrange.2.1 hrange.2.2)
  | simpleSubsetFrom start step =>
      obtain ⟨hstep, hstart⟩ := hrange
      have hlast : sizeSub v.totalSize 1 = v.totalSize - 1 := sizeSub_of_le (by omega)
      have hle : start ≤ v.totalSize - 1 := by omega
      have hlt : v.totalSize - 1 < v.totalSize := by omega
      rw [apply, MappedVector.simpleSubsetFrom, hlast]
      exact hpicks (MappedVector.simpleSubset_spec hv hstep hle hlt)
  | simpleSubsetTail start => exact hpicks (MappedVector.simpleSubsetTail_spec hv hrange)
  | slice start stop => exact hpicks (MappedVector.slice_spec hv hrange.1 hrange.2)
  | sliceFrom start =>
      rw [apply, MappedVector.sliceFrom, hv.size]
      exact hpicks (MappedVector.slice_spec hv hrange (le_refl _))
  | included flag =>
      have hbound := hv.bound
      refine hpicks (MappedVector.remap_spec hv ?_ ?_)
      · apply lt_of_le_of_lt (List.length_filter_le _ _)
        rw [List.length_range]
        omega
      · intro j hj
        have hj := List.mem_range.mp (List.mem_filter.mp hj).1
        omega
  | alternating includedSize excluded =>
      exact hpicks (MappedVector.alternating_spec hv rfl hrange.1 hrange.2)
  | alternatingEqual subsetSize =>
      exact hpicks (MappedVector.alternating_spec hv rfl hrange.1 hrange.2)
  | reversedAlternating includedSize excluded =>
      exact hpicks (MappedVector.reversedAlternating_spec hv rfl hrange.1 hrange.2)
  | repeated repetition => exact MappedVector.repeated_spec hv hfits
  | repeatedSubsets elementsCount repetition =>
      exact MappedVector.repeatedSubsets_spec hv hrange.1 hfits
  | cyclic cycles => exact MappedVector.cyclic_spec hv hfits
  | directed direction => exact hpicks (MappedVector.directed_spec hv direction)

theorem apply_of_not_fits (hv : v.Proper) {p : AccessPattern T} (hrange : p.InRange v.totalSize)
    (hfits : ¬ p.Fits v.totalSize) : p.apply v = none := by
  cases p with
  | repeated repetition =>
      exact MappedVector.fill_repeats_of_not_fits hv hrange (MappedVector.length_repeatedIndices _) hfits
  | repeatedSubsets elementsCount repetition =>
      exact MappedVector.repeatedSubsets_of_not_fits hv hrange.1 hrange.2 hfits
  | cyclic cycles =>
      exact MappedVector.fill_repeats_of_not_fits hv hrange (MappedVector.length_cyclicIndices _) hfits
  | _ => exact absurd trivial hfits

omit [Zero T] [DecidableEq T] in
/-- The pattern reads elements of the vector only. -/
theorem lt_of_mem_indices {v' : MappedVector T} (hv' : v'.Proper) {size : ℕ} {indices : List ℕ}
    (hfilled : MappedVector.Filled v size indices v') {j : ℕ} (hj : j ∈ indices) : j < v.totalSize := by
  obtain ⟨i, hi, rfl⟩ := List.getElem_of_mem hj
  have hlt : i < v'.totalSize := hfilled.totalSize ▸ hi.trans_le hfilled.length_le
  obtain ⟨p, hp, hentry⟩ := hv'.inside i hlt
  rw [hfilled.entry i _ (List.getElem?_eq_getElem hi)] at hentry
  rw [hfilled.data] at hp
  exact MappedVector.lt_totalSize_of_entry hentry hp

section Chains

/-- A view of a view, and so on. -/
def applyAll (v : MappedVector T) (ps : List (AccessPattern T)) : Option (MappedVector T) :=
  ps.foldlM (fun v p => p.apply v) v

/-- Every pattern is applied to a copy of what the ones before it show. -/
def applyToCopies (v : MappedVector T) (ps : List (AccessPattern T)) : Option (MappedVector T) :=
  ps.foldlM (fun v p => do
    let u ← v.materialize
    p.apply u) v

/-- Every pattern is in range for the vector it is applied to. -/
def AllInRange : ℕ → List (AccessPattern T) → Prop
  | _, [] => True
  | n, p :: ps => p.InRange n ∧ AllInRange (p.size n) ps

/-- Every pattern holds of the view it is applied to. -/
def AllHold : MappedVector T → List (AccessPattern T) → Prop
  | _, [] => True
  | v, p :: ps => p.Holds v ∧ ∀ v', p.apply v = some v' → AllHold v' ps

/-- A view and what the chain of copies has: the same size and elements, and an assignment to the view
changes what it shows. -/
structure Matches (v v' w' : MappedVector T) : Prop where
  data : v'.data = v.data
  size : v'.size = w'.size
  elements : ∀ i < v'.size, ∃ x, v'.read i = some x ∧ w'.read i = some x
  assigns : v'.Distinct → AssignsExactly v'

omit [Zero T] [DecidableEq T] in
theorem matches_iff {v' w' : MappedVector T} (hdata : v'.data = v.data) (hv' : v'.Proper)
    (hw' : w'.Proper) : Matches v v' w' ↔ ShowsSame v' w' := by
  constructor
  · intro hmatches
    refine ⟨?_, fun i hi => ?_⟩
    · rw [← hv'.size, hmatches.size, hw'.size]
    · obtain ⟨x, hx, hx'⟩ := hmatches.elements i (hv'.size ▸ hi)
      rw [hx, hx']
  · intro hsame
    refine ⟨hdata, ?_, fun i hi => ?_, assignsExactly_of_distinct hv'⟩
    · rw [hv'.size, hw'.size, hsame.totalSize]
    · rw [hv'.size] at hi
      obtain ⟨x, hx⟩ := hv'.exists_read hi
      exact ⟨x, hx, (hsame.read i hi).symm.trans hx⟩

/-- After every pattern of the chain, the views from `v` on match the copies from `w` on. -/
def ComposesWith (v w : MappedVector T) (ps : List (AccessPattern T)) : Prop :=
  ∀ qs, qs <+: ps → ∃ v' w', applyAll v qs = some v' ∧ applyToCopies w qs = some w' ∧ Matches v v' w'

def Composes (v : MappedVector T) (ps : List (AccessPattern T)) : Prop := ComposesWith v v ps

/-- One pattern, on a view and on a copy of the same elements. -/
theorem exists_step {w : MappedVector T} (hv : v.Proper) (hw : w.Proper) (hsame : ShowsSame v w)
    {p : AccessPattern T} (hrange : p.InRange v.totalSize) (hfits : p.Fits v.totalSize) :
    ∃ v' w', p.apply v = some v' ∧ applyToCopies w [p] = some w' ∧ v'.Proper ∧ w'.Proper ∧
      v'.data = v.data ∧ v'.totalSize = p.size v.totalSize ∧ (ShowsSame v' w' ↔ p.Holds v) := by
  obtain ⟨u, hcopy, hu, hmapping, htotal, hread⟩ := hw.materialize
  have htotal' : u.totalSize = v.totalSize := htotal.trans hsame.totalSize.symm
  have hsame' : ShowsSame v u := by
    refine ⟨htotal'.symm, fun i hi => ?_⟩
    rw [hread i (hsame.totalSize ▸ hi)]
    exact hsame.read i hi
  obtain ⟨v', happly, hv', hfv⟩ := apply_spec hv hrange hfits
  obtain ⟨w', happly', hw', hfu⟩ := apply_spec hu (htotal' ▸ hrange) (htotal' ▸ hfits)
  rw [htotal'] at hfu
  refine ⟨v', w', happly, ?_, hv', hw', hfv.data, hfv.totalSize, ?_⟩
  · rw [applyToCopies, List.foldlM_cons, hcopy, Option.bind_eq_bind, Option.bind_some, happly']
    rfl
  · rw [hsame'.filled_iff hv hu hv' hw' hmapping (fun j hj => lt_of_mem_indices hv' hfv hj) hfv hfu]
    exact (and_iff_right hfits).symm

theorem applyAll_cons (v : MappedVector T) (p : AccessPattern T) (ps : List (AccessPattern T)) :
    applyAll v (p :: ps) = (p.apply v).bind fun v' => applyAll v' ps := by
  rw [applyAll, List.foldlM_cons]
  rfl

theorem applyToCopies_cons (w : MappedVector T) (p : AccessPattern T) (ps : List (AccessPattern T)) :
    applyToCopies w (p :: ps) = (applyToCopies w [p]).bind fun w' => applyToCopies w' ps := by
  rw [applyToCopies, applyToCopies, List.foldlM_cons, List.foldlM_cons]
  exact congrArg (· >>= fun w' => applyToCopies w' ps) (bind_pure _).symm

theorem composesWith_iff {w : MappedVector T} (hv : v.Proper) (hw : w.Proper) (hsame : ShowsSame v w)
    {ps : List (AccessPattern T)} (hrange : AllInRange v.totalSize ps) :
    ComposesWith v w ps ↔ AllHold v ps := by
  induction ps generalizing v w with
  | nil =>
      refine iff_of_true (fun qs hqs => ?_) trivial
      rw [List.prefix_nil.mp hqs]
      exact ⟨v, w, rfl, rfl, (matches_iff rfl hv hw).mpr hsame⟩
  | cons p ps ih =>
      obtain ⟨hp, hrange⟩ := hrange
      by_cases hfits : p.Fits v.totalSize
      swap
      · refine iff_of_false (fun hall => ?_) fun hall => hfits hall.1.1
        obtain ⟨v', w', hrun, -⟩ := hall [p] (List.prefix_append [p] ps)
        rw [applyAll_cons, apply_of_not_fits hv hp hfits] at hrun
        cases hrun
      obtain ⟨v', w', happly, hcopy, hv', hw', hdata, htotal, hiff⟩ := exists_step hv hw hsame hp hfits
      have hrun : ∀ qs, applyAll v (p :: qs) = applyAll v' qs := fun qs => by
        rw [applyAll_cons, happly, Option.bind_some]
      have hrun' : ∀ qs, applyToCopies w (p :: qs) = applyToCopies w' qs := fun qs => by
        rw [applyToCopies_cons, hcopy, Option.bind_some]
      have hfirst : (∃ u u', applyAll v [p] = some u ∧ applyToCopies w [p] = some u' ∧ Matches v u u') ↔
          p.Holds v := by
        rw [← hiff, ← matches_iff hdata hv' hw', hrun, hrun']
        constructor
        · rintro ⟨u, u', hu, hu', hmatches⟩
          obtain rfl := Option.some.inj hu
          obtain rfl := Option.some.inj hu'
          exact hmatches
        · exact fun hmatches => ⟨v', w', rfl, rfl, hmatches⟩
      have hsplit : ComposesWith v w (p :: ps) ↔ p.Holds v ∧ ComposesWith v' w' ps := by
        constructor
        · intro hall
          refine ⟨hfirst.mp (hall [p] (List.prefix_append [p] ps)), fun qs hqs => ?_⟩
          obtain ⟨u, u', hu, hu', hmatches⟩ := hall (p :: qs) (List.cons_prefix_cons.mpr ⟨rfl, hqs⟩)
          exact ⟨u, u', (hrun qs).symm.trans hu, (hrun' qs).symm.trans hu',
            hdata ▸ hmatches.data, hmatches.size, hmatches.elements, hmatches.assigns⟩
        · rintro ⟨hhold, hall⟩ qs hqs
          rcases List.prefix_cons_iff.mp hqs with rfl | ⟨qs, rfl, hrest⟩
          · exact ⟨v, w, rfl, rfl, (matches_iff rfl hv hw).mpr hsame⟩
          · obtain ⟨u, u', hu, hu', hmatches⟩ := hall qs hrest
            exact ⟨u, u', (hrun qs).trans hu, (hrun' qs).trans hu',
              hmatches.data.trans hdata, hmatches.size, hmatches.elements, hmatches.assigns⟩
      rw [hsplit, AllHold]
      refine and_congr_right fun hhold => ?_
      rw [ih hv' hw' (hiff.mpr hhold) (htotal ▸ hrange)]
      constructor
      · intro hall u hu
        rw [happly] at hu
        obtain rfl := Option.some.inj hu
        exact hall
      · exact fun hall => hall v' happly

end Chains

end AccessPattern

end CryptDough
