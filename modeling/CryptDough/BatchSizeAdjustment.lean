import CryptDough.WorkPartition

/-! # Batch sizes that a divisor divides

An aggregating call and a matrix call raise the runtime's batch size to a multiple of what they work on,
and put the old one back when their tasks are made. -/

namespace CryptDough

/-- What a call uses of the runtime. -/
structure RunTime where
  numThreads : ℕ
  /-- An `ssize_t`; negative for equal batches. -/
  batchSize : Int64

namespace RunTime

/-- The conversion of an `ssize_t` to a `size_t`. -/
def toSize (x : Int64) : ℕ := (x.toInt % 2 ^ 64).toNat

def setBatchSize (rt : RunTime) (batchSize : Int64) : RunTime :=
  { rt with batchSize := batchSize }

/-- A number of batches that wraps to zero is a division by zero in the source. -/
def makeBatchSizeDivisibleBy (rt : RunTime) (total divisor : ℕ) : Int64 × RunTime :=
  let oldBatchSize := rt.batchSize
  let batchSize :=
    if rt.batchSize.toInt < 0 then
      Int64.ofNat (computeEqualBatches 0 (total - 1)
        (Int64.ofNat (rt.batchSize.toInt.natAbs * rt.numThreads)).toInt)
    else rt.batchSize
  let rest := toSize batchSize % divisor
  let batchSize :=
    if rest ≠ 0 then Int64.ofNat (toSize batchSize + (divisor - rest)) else batchSize
  (oldBatchSize, rt.setBatchSize batchSize)

/-- The division of the size by a batch size of zero traps. -/
def addTask (rt : RunTime) (total : ℕ) : Option (List (ℕ × ℕ)) :=
  if rt.batchSize = 0 then none else some (callRanges rt.numThreads rt.batchSize.toInt total)

/-- The tasks of `eval_protocol_aggregator_2arg`, where `divisor` is the aggregation size, and of
`eval_protocol_matrix_2arg`, where it is the size of one matrix. -/
def evalDivisible (rt : RunTime) (total divisor : ℕ) : Option (List (ℕ × ℕ)) × RunTime :=
  let (oldBatchSize, adjusted) := rt.makeBatchSizeDivisibleBy total divisor
  (adjusted.addTask total, adjusted.setBatchSize oldBatchSize)

/-- The adjusted batch size can be used, and is gone after the call. -/
structure AdjustsTo (rt : RunTime) (total divisor : ℕ) : Prop where
  positive : 0 < (rt.makeBatchSizeDivisibleBy total divisor).2.batchSize.toInt
  multiple : (divisor : ℤ) ∣ (rt.makeBatchSizeDivisibleBy total divisor).2.batchSize.toInt
  tasks : ∃ ranges, (rt.evalDivisible total divisor).1 = some ranges ∧
    ∀ r ∈ ranges, divisor ∣ r.1 ∧ divisor ∣ r.2
  restored : (rt.evalDivisible total divisor).2 = rt

/-- The batch size that is raised to a multiple, before it is converted. -/
def startingSize (rt : RunTime) (total : ℕ) : ℕ :=
  if rt.batchSize.toInt < 0 then
    computeEqualBatches 0 (total - 1)
      (Int64.ofNat (rt.batchSize.toInt.natAbs * rt.numThreads)).toInt
  else rt.batchSize.toInt.toNat

end RunTime

section Adjustment

variable (rt : RunTime) {total divisor : ℕ}

theorem computeEqualBatches_eq {stop : ℕ} (hstop : stop < 2 ^ 63) (k : ℤ) :
    computeEqualBatches 0 stop k =
      ((stop + 255) / 256 + k.natAbs - 1) / k.natAbs * 256 := by
  rw [computeEqualBatches, minimumChunkSize, Nat.mod_eq_of_lt (by omega)]
  rfl

theorem computeEqualBatches_pos {stop : ℕ} (hstop : stop < 2 ^ 63) {k : ℤ} :
    0 < computeEqualBatches 0 stop k ↔ 0 < stop ∧ k ≠ 0 := by
  rw [computeEqualBatches_eq hstop]
  constructor
  · intro hpos
    constructor
    · by_contra hstop
      obtain rfl : stop = 0 := by omega
      rcases Nat.eq_zero_or_pos k.natAbs with hk | hk
      · simp [hk] at hpos
      · rw [Nat.div_eq_of_lt (show (0 + 255) / 256 + k.natAbs - 1 < k.natAbs by omega)] at hpos
        omega
    · rintro rfl
      simp at hpos
  · rintro ⟨hstop, hk⟩
    have hk : 0 < k.natAbs := Int.natAbs_pos.mpr hk
    have hround := Nat.div_pos
      (show k.natAbs ≤ (stop + 255) / 256 + k.natAbs - 1 by omega) hk
    omega

theorem computeEqualBatches_le {stop : ℕ} (hstop : stop < 2 ^ 63) (k : ℤ) :
    computeEqualBatches 0 stop k ≤ stop + 255 := by
  have hchunks : (stop + 255) / 256 * 256 ≤ stop + 255 := by omega
  rw [computeEqualBatches_eq hstop]
  calc _ ≤ (stop + 255) / 256 * 256 := Nat.mul_le_mul_right 256 (ceilDiv_le _ _)
    _ ≤ stop + 255 := hchunks

/-- Every batch size is a whole number of chunks. -/
theorem dvd_computeEqualBatches (stop : ℕ) (k : ℤ) : 256 ∣ computeEqualBatches 0 stop k :=
  Dvd.intro_left _ rfl

theorem toInt_ofNat_of_lt {x : ℕ} (hx : x < 2 ^ 63) : (Int64.ofNat x).toInt = x := by
  rw [Int64.toInt_ofNat', Int64.size, Int.bmod_def]
  split
  · omega
  · omega

theorem toInt_ofNat_neg {x : ℕ} (hx : 2 ^ 63 ≤ x) (hx' : x < 2 ^ 64) :
    (Int64.ofNat x).toInt < 0 := by
  rw [Int64.toInt_ofNat', Int64.size, Int.bmod_def]
  split
  · omega
  · omega

theorem toSize_ofNat {x : ℕ} (hx : x < 2 ^ 64) : RunTime.toSize (Int64.ofNat x) = x := by
  rw [RunTime.toSize, Int64.toInt_ofNat', Int64.size, Int.bmod_def]
  split
  · omega
  · omega

theorem ofNat_toNat_toInt {x : Int64} (hx : 0 ≤ x.toInt) : Int64.ofNat x.toInt.toNat = x := by
  have hlt := x.toInt_lt
  apply Int64.toInt_inj.mp
  rw [toInt_ofNat_of_lt (by omega)]
  omega

/-- The sizes below are those of vectors, whose elements a signed index can count. -/
theorem startingSize_le (htotal : total < 2 ^ 63) : rt.startingSize total ≤ 2 ^ 63 := by
  rw [RunTime.startingSize]
  split
  · have hle := computeEqualBatches_le (show total - 1 < 2 ^ 63 by omega)
      (Int64.ofNat (rt.batchSize.toInt.natAbs * rt.numThreads)).toInt
    obtain ⟨chunks, hchunks⟩ := dvd_computeEqualBatches (total - 1)
      (Int64.ofNat (rt.batchSize.toInt.natAbs * rt.numThreads)).toInt
    omega
  · have hlt := rt.batchSize.toInt_lt
    omega

/-- In all, the first multiple of the divisor is converted to an `ssize_t`. -/
theorem makeBatchSizeDivisibleBy_eq (htotal : total < 2 ^ 63) :
    rt.makeBatchSizeDivisibleBy total divisor =
      (rt.batchSize,
        rt.setBatchSize (Int64.ofNat (nextMultiple divisor (rt.startingSize total)))) := by
  have hle := startingSize_le rt htotal
  have hstart : (if rt.batchSize.toInt < 0 then
      Int64.ofNat (computeEqualBatches 0 (total - 1)
        (Int64.ofNat (rt.batchSize.toInt.natAbs * rt.numThreads)).toInt)
      else rt.batchSize) = Int64.ofNat (rt.startingSize total) := by
    rw [RunTime.startingSize]
    split
    · rfl
    · exact (ofNat_toNat_toInt (by omega)).symm
  rw [RunTime.makeBatchSizeDivisibleBy]
  simp only [hstart, toSize_ofNat (show rt.startingSize total < 2 ^ 64 by omega)]
  rw [nextMultiple]
  split
  · rfl
  · rfl

theorem startingSize_pos (htotal : total < 2 ^ 63) :
    0 < rt.startingSize total ↔ 0 < rt.batchSize.toInt ∨
      rt.batchSize.toInt < 0 ∧ 2 ≤ total ∧ ¬ 2 ^ 64 ∣ rt.batchSize.toInt.natAbs * rt.numThreads := by
  rw [RunTime.startingSize]
  by_cases hneg : rt.batchSize.toInt < 0
  · have hwrap : (Int64.ofNat (rt.batchSize.toInt.natAbs * rt.numThreads)).toInt ≠ 0 ↔
        ¬ 2 ^ 64 ∣ rt.batchSize.toInt.natAbs * rt.numThreads := by
      rw [Int64.toInt_ofNat', Ne, ← Int.dvd_iff_bmod_eq_zero, Int.natCast_dvd_natCast]
      exact Iff.rfl
    rw [if_pos hneg, computeEqualBatches_pos (by omega), hwrap]
    constructor
    · rintro ⟨htotal, hbatches⟩
      exact .inr ⟨hneg, by omega, hbatches⟩
    · rintro (hpos | ⟨-, htotal, hbatches⟩)
      · omega
      · exact ⟨by omega, hbatches⟩
  · rw [if_neg hneg]
    omega

/-- The condition under which the adjusted batch size can be used: a number of equal batches needs two
elements and a number of batches that does not wrap to zero, and the multiple has to be an `ssize_t`. -/
def RunTime.Adjustable (rt : RunTime) (total divisor : ℕ) : Prop :=
  (0 < rt.batchSize.toInt ∨
      rt.batchSize.toInt < 0 ∧ 2 ≤ total ∧
        ¬ 2 ^ 64 ∣ rt.batchSize.toInt.natAbs * rt.numThreads) ∧
    nextMultiple divisor (rt.startingSize total) < 2 ^ 63

/-- The adjusted batch size is positive exactly where it is the first multiple of the divisor. -/
theorem adjusted_pos (htotal : total < 2 ^ 63) (hdivisor : divisor ≤ total) :
    0 < (rt.makeBatchSizeDivisibleBy total divisor).2.batchSize.toInt ↔ rt.Adjustable total divisor := by
  have hstart := startingSize_le rt htotal
  have hnext : nextMultiple divisor (rt.startingSize total) ≤ rt.startingSize total + divisor :=
    nextMultiple_le
  rw [makeBatchSizeDivisibleBy_eq rt htotal, RunTime.Adjustable, ← startingSize_pos rt htotal,
    ← nextMultiple_pos (d := divisor)]
  change 0 < (Int64.ofNat (nextMultiple divisor (rt.startingSize total))).toInt ↔ _
  rcases lt_or_ge (nextMultiple divisor (rt.startingSize total)) (2 ^ 63) with hlt | hge
  · rw [toInt_ofNat_of_lt hlt]
    omega
  · have hneg := toInt_ofNat_neg hge (by omega)
    omega

omit rt in
/-- With a batch size that the divisor divides, every range has its ends on multiples. -/
theorem addTask_exact {adjusted : RunTime} (hthreads : 0 < adjusted.numThreads)
    (hpos : 0 < adjusted.batchSize.toInt) (hdvd : divisor ∣ adjusted.batchSize.toInt.toNat)
    (htotal : divisor ∣ total) :
    ∃ ranges, adjusted.addTask total = some ranges ∧
      ∀ r ∈ ranges, divisor ∣ r.1 ∧ divisor ∣ r.2 := by
  refine ⟨_, if_neg ?_, fun r hr => ?_⟩
  · intro hzero
    rw [hzero] at hpos
    exact absurd hpos (by decide)
  · have hdvd : divisor ∣ if adjusted.batchSize.toInt < 0 then minimumChunkSize
        else adjusted.batchSize.toInt.toNat := by
      rw [if_neg (not_lt.mpr hpos.le)]
      exact hdvd
    obtain ⟨hfirst, hlast⟩ := dvd_callRanges hthreads hpos.ne' hdvd hr
    exact ⟨hfirst, hlast.elim id fun hend => hend ▸ htotal⟩

/-- The adjustment works exactly where its condition holds. -/
theorem adjustsTo_iff (rt : RunTime) (total divisor : ℕ) (hthreads : 0 < rt.numThreads)
    (htotal : 1 ≤ total ∧ total < 2 ^ 63) (hdivisor : 1 ≤ divisor ∧ divisor ∣ total) :
    rt.AdjustsTo total divisor ↔ rt.Adjustable total divisor := by
  have hle : divisor ≤ total := Nat.le_of_dvd htotal.1 hdivisor.2
  have hpos := adjusted_pos rt htotal.2 hle
  refine ⟨fun h => hpos.mp h.positive, fun h => ?_⟩
  obtain ⟨hstart, hfits⟩ := h
  have hadjusted := hpos.mpr ⟨hstart, hfits⟩
  have heq : rt.makeBatchSizeDivisibleBy total divisor = _ := makeBatchSizeDivisibleBy_eq rt htotal.2
  have hsize : (rt.makeBatchSizeDivisibleBy total divisor).2.batchSize.toInt =
      nextMultiple divisor (rt.startingSize total) := by
    rw [heq]
    exact toInt_ofNat_of_lt hfits
  refine ⟨hadjusted, ?_, ?_, ?_⟩
  · rw [hsize]
    exact Int.natCast_dvd_natCast.mpr (dvd_nextMultiple hdivisor.1)
  · rw [RunTime.evalDivisible, heq]
    refine addTask_exact hthreads ?_ ?_ hdivisor.2
    · rw [heq] at hadjusted
      exact hadjusted
    · change divisor ∣ (Int64.ofNat _).toInt.toNat
      rw [toInt_ofNat_of_lt hfits]
      exact dvd_nextMultiple hdivisor.1
  · rw [RunTime.evalDivisible, heq]
    rfl

/-- One element, one thread and the default batch size. -/
theorem adjustsTo_fails_one : ¬ (RunTime.mk 1 (-12)).AdjustsTo 1 1 := by
  intro h
  exact absurd h.positive (by decide)

theorem adjustsTo_iff_two : (RunTime.mk 1 (-12)).AdjustsTo 2 1 :=
  (adjustsTo_iff ⟨1, -12⟩ 2 1 (by decide) (by decide) (by decide)).mpr
    (by unfold RunTime.Adjustable; decide)

end Adjustment

end CryptDough
