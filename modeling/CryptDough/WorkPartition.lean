import Mathlib.Data.Int.ModEq
import Mathlib.Tactic.Linarith
import Mathlib.Tactic.Ring
import CryptDough.IntervalTiling

/-! # How the runtime divides a call among its threads  Every thread gets whole batches and the last
one what is left; a thread's task then runs over its own interval in batches. A batch size is an
`ssize_t`, the sizes of vectors and the counters of the loops are `size_t`s, which wrap around. -/

namespace CryptDough

def minimumChunkSize : ℕ := 256

/-- The size of the interval, raised by a chunk, may not fit. -/
def computeEqualBatches (start stop : ℕ) (batchesNum : ℤ) : ℕ :=
  let numBatches := batchesNum.natAbs
  let numChunks := (stop - start + minimumChunkSize - 1) % 2 ^ 64 / minimumChunkSize
  (numChunks + numBatches - 1) / numBatches * minimumChunkSize

structure Task where
  start : ℕ
  stop : ℕ
  batchSize : ℕ

namespace Task

/-- The constructor: a negative batch size stands for that many equal batches. -/
def new (start stop : ℕ) (batchSize : ℤ) : Task :=
  ⟨start, stop, if batchSize < 0 then computeEqualBatches start stop batchSize else batchSize.toNat⟩

def executeFrom (t : Task) : (fuel i : ℕ) → Option (List (ℕ × ℕ))
  | 0, i => if i < t.stop then none else some []
  | fuel + 1, i =>
      if i < t.stop then
        let next := (i + t.batchSize) % 2 ^ 64
        (t.executeFrom fuel next).map ((i, min next t.stop) :: ·)
      else some []

/-- The ranges `sub_execute` is called on, one after the other. -/
def execute (t : Task) (fuel : ℕ) : Option (List (ℕ × ℕ)) :=
  t.executeFrom fuel t.start

end Task

def threadBoundaries (batchSize batchesPerThread : ℕ) :
    (numThreads remaining start : ℕ) → List (ℕ × ℕ)
  | 0, _, _ => []
  | numThreads + 1, remaining, start =>
      let n := batchesPerThread * batchSize + if remaining > 0 then batchSize else 0
      (start, start + n) ::
        threadBoundaries batchSize batchesPerThread numThreads (remaining - 1) (start + n)

def getThreadBatchBoundaries (numThreads : ℕ) (batchSize : ℤ) (totalSize : ℕ) : List (ℕ × ℕ) :=
  let batchSize := if batchSize < 0 then minimumChunkSize else batchSize.toNat
  let wholeBatches := totalSize / batchSize
  let boundaries := threadBoundaries batchSize (wholeBatches / numThreads) numThreads
    (wholeBatches % numThreads) 0
  -- the last thread gets the partial batch
  boundaries.modify (numThreads - 1) fun r => (r.1, r.2 + totalSize % batchSize)

/-- The length of a task's batches where nothing wraps around. -/
def batchLength (start stop : ℕ) (batchSize : ℤ) : ℕ :=
  if batchSize < 0 then
    let numChunks := (stop - start + minimumChunkSize - 1) / minimumChunkSize
    (numChunks + batchSize.natAbs - 1) / batchSize.natAbs * minimumChunkSize
  else batchSize.toNat

/-- The batches of a task where nothing wraps around, as in every interval below `2 ^ 63`
(`Task.execute_eq_subRanges`). -/
def subRanges (start stop : ℕ) (batchSize : ℤ) : List (ℕ × ℕ) :=
  slices (batchLength start stop batchSize) stop (stop - start) start

/-- The ranges that the tasks of one call are executed on, thread by thread. -/
def callRanges (numThreads : ℕ) (batchSize : ℤ) (totalSize : ℕ) : List (ℕ × ℕ) :=
  (getThreadBatchBoundaries numThreads batchSize totalSize).flatMap fun r => subRanges r.1 r.2 batchSize

def lastStart (numThreads : ℕ) (batchSize : ℤ) (totalSize : ℕ) : ℕ :=
  let batchSize := if batchSize < 0 then minimumChunkSize else batchSize.toNat
  (totalSize / batchSize - totalSize / batchSize / numThreads) * batchSize

/-- Where the last thread's last batch ends if it is a whole one, too. -/
def lastBatchEnd (numThreads : ℕ) (batchSize : ℤ) (totalSize : ℕ) : ℕ :=
  let start := lastStart numThreads batchSize totalSize
  start + nextMultiple (batchLength start totalSize batchSize) (totalSize - start)

/-- The threads' intervals tile the vector, and every task ends after ranges that are not empty and tile
its interval. -/
structure PartitionExact (numThreads : ℕ) (batchSize : ℤ) (totalSize : ℕ) : Prop where
  length : (getThreadBatchBoundaries numThreads batchSize totalSize).length = numThreads
  tiles : Tiles 0 (getThreadBatchBoundaries numThreads batchSize totalSize) totalSize
  tasks : ∀ interval ∈ getThreadBatchBoundaries numThreads batchSize totalSize, ∃ fuel ranges,
    (Task.new interval.1 interval.2 batchSize).execute fuel = some ranges ∧
      Tiles interval.1 ranges interval.2 ∧ (∀ r ∈ ranges, r.1 < r.2) ∧
      (batchSize < 0 ∨ 128 ∣ batchSize → ∀ r ∈ ranges, 128 ∣ r.1)

section Execute

variable {t : Task}

theorem Task.executeFrom_done {i : ℕ} (hi : t.stop ≤ i) (fuel : ℕ) :
    t.executeFrom fuel i = some [] := by
  cases fuel with
  | zero => exact if_neg (not_lt.mpr hi)
  | succ fuel => exact if_neg (not_lt.mpr hi)

/-- As long as the end of the last batch can be counted, the loop goes over the slices. -/
theorem Task.executeFrom_slices (hbatch : 0 < t.batchSize) {fuel i : ℕ}
    (hfits : i + nextMultiple t.batchSize (t.stop - i) < 2 ^ 64) (hfuel : t.stop - i ≤ fuel) :
    t.executeFrom fuel i = some (slices t.batchSize t.stop fuel i) := by
  induction fuel generalizing i with
  | zero => exact if_neg (by omega)
  | succ fuel ih =>
      rw [Task.executeFrom, slices]
      by_cases hlt : i < t.stop
      · rw [if_pos hlt, if_pos hlt]
        rcases le_or_gt t.batchSize (t.stop - i) with hle | hgt
        · rw [nextMultiple_add hle, Nat.sub_sub] at hfits
          have hnext : (i + t.batchSize) % 2 ^ 64 = i + t.batchSize := Nat.mod_eq_of_lt (by omega)
          simp only [hnext]
          rw [ih (by omega) (by omega)]
          rfl
        · rw [nextMultiple_of_le (by omega) hgt.le] at hfits
          have hnext : (i + t.batchSize) % 2 ^ 64 = i + t.batchSize := Nat.mod_eq_of_lt hfits
          simp only [hnext]
          rw [Task.executeFrom_done (by omega), slices_done (by omega)]
          rfl
      · rw [if_neg hlt, if_neg hlt]

/-- A counter that wraps around is behind the range before it, and without batches it stays where it
is. -/
theorem Task.fits_of_executeFrom (hbatch : t.batchSize < 2 ^ 64) (hstop : t.stop < 2 ^ 64)
    {fuel i : ℕ} (hi : i < t.stop) {ranges : List (ℕ × ℕ)}
    (hrun : t.executeFrom fuel i = some ranges) (htiles : Tiles i ranges t.stop) :
    0 < t.batchSize ∧ i + nextMultiple t.batchSize (t.stop - i) < 2 ^ 64 := by
  induction fuel generalizing i ranges with
  | zero =>
      rw [Task.executeFrom, if_pos hi] at hrun
      cases hrun
  | succ fuel ih =>
      rw [Task.executeFrom, if_pos hi] at hrun
      obtain ⟨rest, hrest, rfl⟩ := Option.map_eq_some_iff.mp hrun
      obtain ⟨-, hle, htail⟩ := htiles
      simp only at hle htail
      have hnext : (i + t.batchSize) % 2 ^ 64 = i + t.batchSize := by omega
      rw [hnext] at hrest htail
      rcases Nat.lt_or_ge (i + t.batchSize) t.stop with hlt | hge
      · rw [min_eq_left hlt.le] at htail
        obtain ⟨hpos, hfits⟩ := ih hlt hrest htail
        refine ⟨hpos, ?_⟩
        rw [nextMultiple_add (by omega), Nat.sub_sub]
        omega
      · refine ⟨by omega, ?_⟩
        rw [nextMultiple_of_le (by omega) (by omega)]
        omega

theorem Task.new_batchSize {start stop : ℕ} {batchSize : ℤ}
    (hfits : batchSize < 0 → stop - start + 255 < 2 ^ 64) :
    (Task.new start stop batchSize).batchSize = batchLength start stop batchSize := by
  rw [Task.new, batchLength]
  split
  · have hlt := hfits ‹_›
    rw [computeEqualBatches, minimumChunkSize, Nat.mod_eq_of_lt (by omega)]
  · rfl

end Execute

section Boundaries

variable {b q : ℕ}

theorem threadShare_add (numThreads remaining : ℕ) :
    (q * b + if remaining > 0 then b else 0) + (numThreads * q + (remaining - 1)) * b =
      ((numThreads + 1) * q + remaining) * b := by
  cases remaining with
  | zero =>
      rw [if_neg (lt_irrefl 0)]
      ring
  | succ remaining =>
      rw [if_pos (Nat.succ_pos remaining), Nat.add_sub_cancel]
      ring

theorem dvd_threadShare (remaining : ℕ) : b ∣ q * b + if remaining > 0 then b else 0 := by
  apply Nat.dvd_add (Nat.dvd_mul_left b q)
  split
  · exact dvd_rfl
  · exact dvd_zero b

theorem threadBoundaries_exact (partialBatch : ℕ) {numThreads remaining start : ℕ}
    (hremaining : remaining ≤ numThreads + 1) (hstart : b ∣ start) :
    let boundaries := (threadBoundaries b q (numThreads + 1) remaining start).modify numThreads
      fun r => (r.1, r.2 + partialBatch)
    let stop := start + ((numThreads + 1) * q + remaining) * b + partialBatch
    Tiles start boundaries stop ∧ boundaries.length = numThreads + 1 ∧
      ∀ r ∈ boundaries, b ∣ r.1 ∧ (b ∣ r.2 ∨ r.2 = stop) := by
  induction numThreads generalizing remaining start with
  | zero =>
      have hshare := threadShare_add (b := b) (q := q) 0 remaining
      rw [Nat.sub_eq_zero_of_le (by omega), Nat.zero_mul, Nat.zero_add, Nat.zero_mul,
        Nat.add_zero] at hshare
      simp only [threadBoundaries, List.modify_zero_cons, hshare, Nat.zero_add]
      refine ⟨⟨rfl, by omega, rfl⟩, rfl, fun r hr => ?_⟩
      obtain rfl := List.mem_singleton.mp hr
      exact ⟨hstart, .inr rfl⟩
  | succ numThreads ih =>
      have hn := dvd_threadShare (b := b) (q := q) remaining
      obtain ⟨htiles, hlength, hmem⟩ := @ih (remaining - 1) _ (by omega) (Nat.dvd_add hstart hn)
      have hstop : start + (q * b + if remaining > 0 then b else 0) +
            ((numThreads + 1) * q + (remaining - 1)) * b + partialBatch =
          start + ((numThreads + 1 + 1) * q + remaining) * b + partialBatch := by
        rw [← threadShare_add (numThreads + 1) remaining, Nat.add_assoc start]
      rw [hstop] at htiles hmem
      rw [threadBoundaries, List.modify_succ_cons]
      refine ⟨⟨rfl, Nat.le_add_right _ _, htiles⟩, ?_, fun r hr => ?_⟩
      · rw [List.length_cons, hlength]
      · rcases List.mem_cons.mp hr with rfl | hr
        · exact ⟨hstart, .inl (Nat.dvd_add hstart hn)⟩
        · exact hmem r hr

/-- The last thread gets no extra batch. -/
theorem threadBoundaries_split (partialBatch start : ℕ) {numThreads remaining : ℕ}
    (hremaining : remaining ≤ numThreads) :
    let last := start + (numThreads * q + remaining) * b
    ∃ others, (threadBoundaries b q (numThreads + 1) remaining start).modify numThreads
        (fun r => (r.1, r.2 + partialBatch)) = others ++ [(last, last + q * b + partialBatch)] ∧
      ∀ r ∈ others, r.2 ≤ last ∧ ∃ k ≤ q + 1, r.2 = r.1 + k * b := by
  induction numThreads generalizing remaining start with
  | zero =>
      obtain rfl := Nat.le_zero.mp hremaining
      refine ⟨[], ?_, fun r hr => absurd hr List.not_mem_nil⟩
      simp [threadBoundaries]
  | succ numThreads ih =>
      obtain ⟨others, hothers, hmem⟩ :=
        @ih (start + (q * b + if remaining > 0 then b else 0)) (remaining - 1) (by omega)
      rw [Nat.add_assoc start, threadShare_add] at hothers hmem
      refine ⟨(start, start + (q * b + if remaining > 0 then b else 0)) :: others, ?_, fun r hr => ?_⟩
      · rw [threadBoundaries, List.modify_succ_cons, hothers]
        rfl
      · rcases List.mem_cons.mp hr with rfl | hr
        · have hshare := threadShare_add (b := b) (q := q) numThreads remaining
          refine ⟨by simp only; omega, ?_⟩
          rcases Nat.eq_zero_or_pos remaining with rfl | hpos
          · exact ⟨q, Nat.le_succ q, by simp⟩
          · exact ⟨q + 1, le_rfl, by simp only [if_pos hpos, Nat.add_mul, Nat.one_mul]⟩
        · exact hmem r hr

theorem getThreadBatchBoundaries_exact {numThreads : ℕ} (hthreads : 0 < numThreads)
    (batchSize : ℤ) (total : ℕ) :
    let boundaries := getThreadBatchBoundaries numThreads batchSize total
    let batch := if batchSize < 0 then minimumChunkSize else batchSize.toNat
    Tiles 0 boundaries total ∧ boundaries.length = numThreads ∧
      ∀ r ∈ boundaries, batch ∣ r.1 ∧ (batch ∣ r.2 ∨ r.2 = total) := by
  obtain ⟨threads, rfl⟩ : ∃ threads, numThreads = threads + 1 := ⟨numThreads - 1, by omega⟩
  intro boundaries batch
  have hremaining : total / batch % (threads + 1) ≤ threads + 1 := (Nat.mod_lt _ hthreads).le
  have hexact := threadBoundaries_exact (q := total / batch / (threads + 1)) (total % batch)
    hremaining (dvd_zero batch)
  rw [Nat.zero_add, Nat.div_add_mod, Nat.div_add_mod'] at hexact
  exact hexact

/-- The other threads have at most one batch more than the last. -/
theorem getThreadBatchBoundaries_split {numThreads : ℕ} (hthreads : 0 < numThreads)
    (batchSize : ℤ) (total : ℕ) :
    let batch := if batchSize < 0 then minimumChunkSize else batchSize.toNat
    let last := lastStart numThreads batchSize total
    ∃ others, getThreadBatchBoundaries numThreads batchSize total = others ++ [(last, total)] ∧
      last + total / batch / numThreads * batch ≤ total ∧
      ∀ r ∈ others, r.2 ≤ last ∧ ∃ k ≤ total / batch / numThreads + 1, r.2 = r.1 + k * batch := by
  obtain ⟨threads, rfl⟩ : ∃ threads, numThreads = threads + 1 := ⟨numThreads - 1, by omega⟩
  intro batch last
  have hremaining : total / batch % (threads + 1) ≤ threads :=
    Nat.le_of_lt_succ (Nat.mod_lt (total / batch) hthreads)
  obtain ⟨others, hothers, hmem⟩ := threadBoundaries_split (b := batch)
    (q := total / batch / (threads + 1)) (total % batch) 0 hremaining
  have hlast : 0 + (threads * (total / batch / (threads + 1)) + total / batch % (threads + 1)) * batch =
      last := by
    have hwhole := Nat.div_add_mod (total / batch) (threads + 1)
    rw [Nat.add_mul, Nat.one_mul] at hwhole
    rw [Nat.zero_add, show last = (total / batch - total / batch / (threads + 1)) * batch from rfl]
    exact congrArg (· * batch) (by omega)
  have hle : total / batch / (threads + 1) ≤ total / batch := Nat.div_le_self _ _
  have hmul := Nat.mul_le_mul_right batch hle
  have htotal := Nat.div_add_mod' total batch
  have hend : last + total / batch / (threads + 1) * batch + total % batch = total := by
    rw [show last = (total / batch - total / batch / (threads + 1)) * batch from rfl, Nat.sub_mul]
    omega
  rw [hlast] at hothers hmem
  rw [hend] at hothers
  exact ⟨others, hothers, by omega, hmem⟩

end Boundaries

section Partition

variable {numThreads total : ℕ} {batchSize : ℤ}

theorem batchLength_pos (hbatch : batchSize ≠ 0) {start stop : ℕ} (h : start < stop) :
    0 < batchLength start stop batchSize := by
  rw [batchLength]
  split
  · have hchunks : 0 < (stop - start + minimumChunkSize - 1) / minimumChunkSize :=
      Nat.div_pos (by rw [minimumChunkSize]; omega) (by decide)
    have hbatches : 0 < batchSize.natAbs := Int.natAbs_pos.mpr hbatch
    have hround := Nat.div_pos (show batchSize.natAbs ≤
      (stop - start + minimumChunkSize - 1) / minimumChunkSize + batchSize.natAbs - 1 by omega)
      hbatches
    exact Nat.mul_pos hround (by decide)
  · omega

theorem dvd_batchLength {d : ℕ} (start stop : ℕ)
    (hd : d ∣ if batchSize < 0 then minimumChunkSize else batchSize.toNat) :
    d ∣ batchLength start stop batchSize := by
  rw [batchLength]
  split at hd
  · rw [if_pos ‹_›]
    exact hd.mul_left _
  · rw [if_neg ‹_›]
    exact hd

theorem ceilDiv_le (c k : ℕ) : (c + k - 1) / k ≤ c := by
  cases k with
  | zero => exact (Nat.div_zero _).le.trans (Nat.zero_le c)
  | succ k =>
      rw [Nat.add_succ_sub_one]
      cases c with
      | zero => exact (Nat.div_eq_of_lt (by omega)).le
      | succ c =>
          apply Nat.div_le_of_le_mul
          nlinarith [Nat.zero_le (k * c)]

theorem batchLength_le (hneg : batchSize < 0) (start stop : ℕ) :
    batchLength start stop batchSize ≤ stop - start + 255 := by
  rw [batchLength, if_pos hneg]
  calc _ ≤ (stop - start + minimumChunkSize - 1) / minimumChunkSize * minimumChunkSize :=
        Nat.mul_le_mul_right _ (ceilDiv_le _ _)
    _ ≤ stop - start + 255 := Nat.div_mul_le_self _ _

theorem subRanges_exact (hbatch : batchSize ≠ 0) {start stop : ℕ} (h : start ≤ stop) :
    Tiles start (subRanges start stop batchSize) stop ∧ ∀ r ∈ subRanges start stop batchSize,
      r.1 < r.2 ∧ (∃ k, r.1 = start + k * batchLength start stop batchSize) ∧
      (r.2 = r.1 + batchLength start stop batchSize ∨
        r.2 = stop ∧ r.2 ≤ r.1 + batchLength start stop batchSize) := by
  rw [subRanges]
  rcases Nat.eq_or_lt_of_le h with rfl | hlt
  · rw [slices_done le_rfl]
    exact ⟨rfl, fun r hr => absurd hr List.not_mem_nil⟩
  · exact slices_exact (batchLength_pos hbatch hlt) h le_rfl

theorem tiles_callRanges (hthreads : 0 < numThreads) (hbatch : batchSize ≠ 0) :
    Tiles 0 (callRanges numThreads batchSize total) total := by
  obtain ⟨htiles, -, -⟩ := getThreadBatchBoundaries_exact hthreads batchSize total
  exact htiles.flatMap fun r hr => (subRanges_exact hbatch (htiles.bounds hr).2.1).1

theorem callRanges_nonempty (hthreads : 0 < numThreads) (hbatch : batchSize ≠ 0) {r : ℕ × ℕ}
    (hr : r ∈ callRanges numThreads batchSize total) : r.1 < r.2 := by
  obtain ⟨htiles, -, -⟩ := getThreadBatchBoundaries_exact hthreads batchSize total
  obtain ⟨interval, hinterval, hr⟩ := List.mem_flatMap.mp hr
  exact ((subRanges_exact hbatch (htiles.bounds hinterval).2.1).2 r hr).1

/-- What divides the batches of the threads divides the start of every range, and the end of every
range that does not end the vector. -/
theorem dvd_callRanges (hthreads : 0 < numThreads) (hbatch : batchSize ≠ 0) {d : ℕ}
    (hd : d ∣ if batchSize < 0 then minimumChunkSize else batchSize.toNat) {r : ℕ × ℕ}
    (hr : r ∈ callRanges numThreads batchSize total) : d ∣ r.1 ∧ (d ∣ r.2 ∨ r.2 = total) := by
  obtain ⟨htiles, -, hmem⟩ := getThreadBatchBoundaries_exact hthreads batchSize total
  obtain ⟨interval, hinterval, hr⟩ := List.mem_flatMap.mp hr
  obtain ⟨hstart, hstop⟩ := hmem interval hinterval
  obtain ⟨-, ⟨k, hk⟩, hend⟩ :=
    (subRanges_exact hbatch (htiles.bounds hinterval).2.1).2 r hr
  have htask := dvd_batchLength interval.1 interval.2 hd
  have hfirst : d ∣ r.1 := hk ▸ Nat.dvd_add (hd.trans hstart) (htask.mul_left k)
  refine ⟨hfirst, ?_⟩
  rcases hend with hend | ⟨hend, -⟩
  · exact .inl (hend ▸ Nat.dvd_add hfirst htask)
  · rw [hend]
    exact hstop.imp_left hd.trans

theorem Task.execute_eq_subRanges (hbatch : batchSize ≠ 0) {start stop : ℕ}
    (hfits : start + nextMultiple (batchLength start stop batchSize) (stop - start) < 2 ^ 64) :
    (Task.new start stop batchSize).execute (stop - start) = some (subRanges start stop batchSize) := by
  rcases Nat.lt_or_ge start stop with hlt | hge
  · have hpos := batchLength_pos hbatch hlt
    have hsize : (Task.new start stop batchSize).batchSize = batchLength start stop batchSize := by
      refine Task.new_batchSize fun hneg => ?_
      -- a whole number of chunks is not shorter than the interval
      have hdvd : 256 ∣ batchLength start stop batchSize :=
        dvd_batchLength start stop (by rw [if_pos hneg]; exact dvd_rfl)
      have hchunks := hdvd.trans (dvd_nextMultiple (s := stop - start) hpos)
      have hle := le_nextMultiple (d := batchLength start stop batchSize) (s := stop - start)
      omega
    rw [subRanges, ← hsize]
    exact Task.executeFrom_slices (hsize ▸ hpos) (hsize ▸ hfits) le_rfl
  · rw [subRanges, slices_done hge]
    exact Task.executeFrom_done hge _

/-- Equal batches of `k` chunks are at most `k - 1` chunks longer. -/
theorem equalBatches_fit (hneg : batchSize < 0) (start : ℕ) {k q : ℕ} (hk : k ≤ q + 1) :
    nextMultiple (batchLength start (start + k * 256) batchSize) (k * 256) ≤ k * 256 + q * 256 := by
  have hchunks : (k * 256 + 256 - 1) / 256 = k := by omega
  rw [batchLength, if_pos hneg, Nat.add_sub_cancel_left, minimumChunkSize, hchunks, nextMultiple_mul,
    ← Nat.add_mul]
  apply Nat.mul_le_mul_right 256
  rcases Nat.eq_zero_or_pos k with rfl | hpos
  · rw [nextMultiple_of_dvd (dvd_zero _)]
    exact Nat.zero_le _
  · have hbatches : 0 < batchSize.natAbs := by omega
    have hle := ceilDiv_le k batchSize.natAbs
    have hlt := nextMultiple_lt (d := (k + batchSize.natAbs - 1) / batchSize.natAbs) (s := k)
      (Nat.div_pos (by omega) hbatches)
    omega

theorem intervals_fit (hthreads : 0 < numThreads)
    (hfits : lastBatchEnd numThreads batchSize total < 2 ^ 64) {r : ℕ × ℕ}
    (hr : r ∈ getThreadBatchBoundaries numThreads batchSize total) :
    r.1 + nextMultiple (batchLength r.1 r.2 batchSize) (r.2 - r.1) < 2 ^ 64 := by
  obtain ⟨others, hothers, htotal, hmem⟩ := getThreadBatchBoundaries_split hthreads batchSize total
  rw [hothers] at hr
  rcases List.mem_append.mp hr with hr | hr
  · obtain ⟨hlast, k, hk, hstop⟩ := hmem r hr
    have hend : total ≤ lastBatchEnd numThreads batchSize total := by
      have hle := le_nextMultiple (s := total - lastStart numThreads batchSize total)
        (d := batchLength (lastStart numThreads batchSize total) total batchSize)
      rw [lastBatchEnd]
      omega
    refine lt_of_le_of_lt ?_ (hend.trans_lt hfits)
    by_cases hneg : batchSize < 0
    · simp only [if_pos hneg, minimumChunkSize] at htotal hk hstop
      have hle := equalBatches_fit hneg r.1 hk
      rw [← hstop] at hle
      rw [show r.2 - r.1 = k * 256 by omega]
      omega
    · simp only [if_neg hneg] at hstop
      rw [batchLength, if_neg hneg, show r.2 - r.1 = k * batchSize.toNat by omega,
        nextMultiple_of_dvd (Nat.dvd_mul_left _ _)]
      omega
  · obtain rfl := List.mem_singleton.mp hr
    exact hfits

theorem Task.new_batchSize_of_pos {start stop : ℕ} (hstop : stop < 2 ^ 64)
    (hpos : 0 < (Task.new start stop batchSize).batchSize) :
    (Task.new start stop batchSize).batchSize = batchLength start stop batchSize := by
  refine Task.new_batchSize fun hneg => ?_
  by_contra hwraps
  have hchunks : (stop - start + 256 - 1) % 2 ^ 64 / 256 = 0 := by omega
  rw [Task.new, if_pos hneg, computeEqualBatches, minimumChunkSize, hchunks] at hpos
  simp only at hpos
  rw [Nat.div_eq_of_lt (by omega)] at hpos
  omega

theorem Task.new_batchSize_lt (hbatch : batchSize < 2 ^ 63) (start stop : ℕ) :
    (Task.new start stop batchSize).batchSize < 2 ^ 64 := by
  rw [Task.new]
  split
  · have hle : computeEqualBatches start stop batchSize ≤
        (stop - start + minimumChunkSize - 1) % 2 ^ 64 / minimumChunkSize * minimumChunkSize :=
      Nat.mul_le_mul_right _ (ceilDiv_le _ _)
    have hmod := Nat.mod_lt (stop - start + minimumChunkSize - 1) (show 0 < 2 ^ 64 by decide)
    calc computeEqualBatches start stop batchSize
        ≤ (stop - start + minimumChunkSize - 1) % 2 ^ 64 / minimumChunkSize * minimumChunkSize := hle
      _ ≤ (stop - start + minimumChunkSize - 1) % 2 ^ 64 := Nat.div_mul_le_self _ _
      _ < 2 ^ 64 := hmod
  · simp only
    omega

/-- The division is exact where the end of the last batch can be counted. -/
theorem partitionExact_iff (hthreads : 0 < numThreads) (hbatch : batchSize ≠ 0)
    (hlt : batchSize < 2 ^ 63) (htotal : total < 2 ^ 64) :
    PartitionExact numThreads batchSize total ↔ lastBatchEnd numThreads batchSize total < 2 ^ 64 := by
  constructor
  · intro h
    obtain ⟨others, hothers, hle, -⟩ := getThreadBatchBoundaries_split hthreads batchSize total
    have hlast : (lastStart numThreads batchSize total, total) ∈
        getThreadBatchBoundaries numThreads batchSize total := by
      rw [hothers]
      exact List.mem_append_right _ List.mem_cons_self
    obtain ⟨fuel, ranges, hrun, htiles, -, -⟩ := h.tasks _ hlast
    rw [lastBatchEnd]
    rcases Nat.lt_or_ge (lastStart numThreads batchSize total) total with hstart | hstart
    · obtain ⟨hpos, hfits⟩ := Task.fits_of_executeFrom
        (Task.new_batchSize_lt hlt _ _) htotal hstart hrun htiles
      rw [Task.new_batchSize_of_pos htotal hpos] at hfits
      exact hfits
    · rw [Nat.sub_eq_zero_of_le hstart, nextMultiple_of_dvd (dvd_zero _)]
      omega
  · intro hfits
    obtain ⟨htiles, hlength, hmem⟩ := getThreadBatchBoundaries_exact hthreads batchSize total
    refine ⟨hlength, htiles, fun interval hinterval => ?_⟩
    obtain ⟨hranges, hbounds⟩ := subRanges_exact hbatch (htiles.bounds hinterval).2.1
    refine ⟨_, _, Task.execute_eq_subRanges hbatch (intervals_fit hthreads hfits hinterval), hranges,
      fun r hr => (hbounds r hr).1, fun haligned r hr => ?_⟩
    have hdvd : 128 ∣ if batchSize < 0 then minimumChunkSize else batchSize.toNat := by
      split
      · decide
      · have hbatch := haligned.resolve_left ‹_›
        omega
    obtain ⟨-, ⟨k, hk⟩, -⟩ := hbounds r hr
    rw [hk]
    exact Nat.dvd_add (hdvd.trans (hmem interval hinterval).1) ((dvd_batchLength _ _ hdvd).mul_left k)

/-- The elements of a vector in memory can be counted with a sign, and its batches never wrap around. -/
theorem lastBatchEnd_lt (hthreads : 0 < numThreads) (hlt : batchSize < 2 ^ 63) (htotal : total < 2 ^ 63) :
    lastBatchEnd numThreads batchSize total < 2 ^ 64 := by
  obtain ⟨-, -, hle, -⟩ := getThreadBatchBoundaries_split hthreads batchSize total
  rw [lastBatchEnd]
  generalize lastStart numThreads batchSize total = start at hle ⊢
  by_cases hneg : batchSize < 0
  · have hlength := batchLength_le hneg start total
    rcases le_total (total - start) (batchLength start total batchSize) with hshort | hlong
    · rcases Nat.eq_zero_or_pos (total - start) with hempty | hpos
      · rw [hempty, nextMultiple_of_dvd (dvd_zero _)]
        omega
      · rw [nextMultiple_of_le hpos hshort]
        omega
    · have hnext := nextMultiple_le (d := batchLength start total batchSize) (s := total - start)
      omega
  · have hnext := nextMultiple_le (d := batchLength start total batchSize) (s := total - start)
    have hlength : batchLength start total batchSize = batchSize.toNat := if_neg hneg
    omega

/-- The division is exact for the sizes whose last batch ends at a number that can be counted, as it
does below `2 ^ 63`. -/
theorem work_partition_exact (numThreads total : ℕ) (batchSize : Int64) (hthreads : 0 < numThreads)
    (hbatch : batchSize.toInt ≠ 0) (htotal : total < 2 ^ 64) :
    (PartitionExact numThreads batchSize.toInt total ↔
        lastBatchEnd numThreads batchSize.toInt total < 2 ^ 64) ∧
      (total < 2 ^ 63 → PartitionExact numThreads batchSize.toInt total) := by
  have hlt : batchSize.toInt < 2 ^ 63 := batchSize.toInt_lt
  have hiff := partitionExact_iff hthreads hbatch hlt htotal
  exact ⟨hiff, fun hsmall => hiff.mpr (lastBatchEnd_lt hthreads hlt hsmall)⟩

/-- One thread with batches of a quarter of what can be counted. -/
theorem work_partition_fails : ¬ PartitionExact 1 (2 ^ 62) (2 ^ 64 - 1) := by
  intro h
  have hfits := (partitionExact_iff (by decide) (by decide) (by decide) (by decide)).mp h
  exact absurd hfits (by decide)

theorem work_partition_exact_default :
    getThreadBatchBoundaries 3 (-12) 1000 = [(0, 256), (256, 512), (512, 1000)] ∧
      PartitionExact 3 (-12) 1000 :=
  ⟨by decide, (work_partition_exact 3 1000 (-12) (by decide) (by decide) (by decide)).1.mpr (by decide)⟩

end Partition

end CryptDough
