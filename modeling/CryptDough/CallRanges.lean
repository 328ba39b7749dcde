import CryptDough.WorkPartition

/-! # Calls that the runtime does not divide

When all of a vector is one range of one task, and how long the ranges are otherwise. -/

namespace CryptDough

/-- The batch size is positive and the vector no longer, or there is one chunk of equal batches, or one
thread and one batch. -/
def OneRange (numThreads : ℕ) (batchSize : ℤ) (n : ℕ) : Prop :=
  if 0 < batchSize then (n : ℤ) ≤ batchSize else n ≤ 256 ∨ numThreads = 1 ∧ batchSize = -1

theorem oneRange_zero (numThreads : ℕ) (batchSize : ℤ) : OneRange numThreads batchSize 0 := by
  rw [OneRange]
  split
  · omega
  · exact .inl (Nat.zero_le 256)

instance (numThreads : ℕ) (batchSize : ℤ) (n : ℕ) : Decidable (OneRange numThreads batchSize n) :=
  inferInstanceAs (Decidable (if 0 < batchSize then _ else _))

section Singleton

variable {n : ℕ} {rs : List (ℕ × ℕ)}

theorem tiles_singleton (htiles : Tiles 0 rs n) (hn : 0 < n) (hnonempty : ∀ r ∈ rs, r.1 < r.2)
    (hfirst : ∀ r ∈ rs, r.1 = 0 → r.2 = n) : rs = [(0, n)] := by
  cases rs with
  | nil => exact absurd htiles hn.ne
  | cons r rs =>
      obtain ⟨hstart, -, hrest⟩ := htiles
      have hend := hfirst r List.mem_cons_self hstart
      have hrs : rs = [] := by
        refine List.eq_nil_iff_forall_not_mem.mpr fun r' hr' => ?_
        have hlt := hnonempty r' (List.mem_cons_of_mem r hr')
        have hbounds := hrest.bounds hr'
        omega
      rw [hrs, ← hstart, ← hend]

theorem tiles_head (htiles : Tiles 0 rs n) (hn : 0 < n) (hnonempty : ∀ r ∈ rs, r.1 < r.2)
    (hfirst : ∀ r ∈ rs, r.1 = 0 → r.2 < n) :
    ∃ e rs', rs = (0, e) :: rs' ∧ 0 < e ∧ e < n ∧ Tiles e rs' n := by
  cases rs with
  | nil => exact absurd htiles hn.ne
  | cons r rs =>
      obtain ⟨hstart, -, hrest⟩ := htiles
      refine ⟨r.2, rs, by rw [← hstart], ?_, hfirst r List.mem_cons_self hstart, hrest⟩
      exact hstart ▸ hnonempty r List.mem_cons_self

end Singleton

section OneRange

variable {numThreads n : ℕ} {batchSize : ℤ}

/-- The intervals of a single thread are one. -/
theorem getThreadBatchBoundaries_one :
    getThreadBatchBoundaries 1 batchSize n = [(0, n)] := by
  obtain ⟨htiles, hlength, -⟩ := getThreadBatchBoundaries_exact Nat.one_pos batchSize n
  obtain ⟨r, hr⟩ := List.length_eq_one_iff.mp hlength
  rw [hr] at htiles
  obtain ⟨hstart, -, hstop⟩ := htiles
  rw [hr, ← hstart, ← hstop]

theorem callRanges_one : callRanges 1 batchSize n = subRanges 0 n batchSize := by
  rw [callRanges, getThreadBatchBoundaries_one, List.flatMap_singleton]

theorem callRanges_oneRange (hthreads : 0 < numThreads) (hbatch : batchSize ≠ 0) (hn : 0 < n)
    (hone : OneRange numThreads batchSize n) : callRanges numThreads batchSize n = [(0, n)] := by
  refine tiles_singleton (tiles_callRanges hthreads hbatch) hn
    (fun r hr => callRanges_nonempty hthreads hbatch hr) fun r hr hstart => ?_
  have hbounds := (tiles_callRanges hthreads hbatch).bounds hr
  have hlt := callRanges_nonempty hthreads hbatch hr
  rw [OneRange] at hone
  have hwhole (hle : n ≤ if batchSize < 0 then minimumChunkSize else batchSize.toNat) : r.2 = n := by
    obtain ⟨-, hend⟩ := dvd_callRanges hthreads hbatch dvd_rfl hr
    refine hend.elim (fun hdvd => ?_) id
    have hge := Nat.le_of_dvd (by omega) hdvd
    omega
  by_cases hpos : 0 < batchSize
  · rw [if_pos hpos] at hone
    apply hwhole
    rw [if_neg (by omega)]
    omega
  · rw [if_neg hpos] at hone
    rcases hone with hsmall | ⟨rfl, rfl⟩
    · apply hwhole
      rw [if_pos (by omega)]
      exact hsmall
    · rw [callRanges_one] at hr
      obtain ⟨-, -, hend⟩ := (subRanges_exact hbatch (Nat.zero_le n)).2 r hr
      have hsize : n ≤ batchLength 0 n (-1) := by
        rw [batchLength, if_pos (by decide), minimumChunkSize]
        norm_num
        omega
      omega

/-- A negative batch size of two or more batches makes a task's batches shorter than the vector. -/
theorem batchLength_lt (hbatch : batchSize ≤ -2) (hn : 256 < n) :
    batchLength 0 n batchSize < n ∧ batchLength 0 n batchSize ≤ n / 2 + 256 := by
  rw [batchLength, if_pos (by omega), minimumChunkSize]
  have hk : 2 ≤ batchSize.natAbs := by omega
  obtain ⟨chunks, hchunks⟩ : ∃ chunks, (n - 0 + 256 - 1) / 256 = chunks + 2 :=
    ⟨(n - 0 + 256 - 1) / 256 - 2, by omega⟩
  simp only [hchunks]
  -- more batches are not longer
  have hhalf : (chunks + 2 + batchSize.natAbs - 1) / batchSize.natAbs ≤ (chunks + 3) / 2 := by
    have hfloor : (chunks + 1) / batchSize.natAbs ≤ (chunks + 1) / 2 :=
      Nat.div_le_div_left hk Nat.two_pos
    calc (chunks + 2 + batchSize.natAbs - 1) / batchSize.natAbs
        = (chunks + 1 + batchSize.natAbs) / batchSize.natAbs :=
          congrArg (· / batchSize.natAbs) (by omega)
      _ = (chunks + 1) / batchSize.natAbs + 1 := Nat.add_div_right _ (by omega)
      _ ≤ (chunks + 1) / 2 + 1 := Nat.add_le_add_right hfloor 1
      _ = (chunks + 3) / 2 := by omega
  omega

variable {b q : ℕ}

/-- The interval of the first of several threads. -/
theorem getThreadBatchBoundaries_cons (numThreads : ℕ) (hbatch : batchSize < 0) :
    ∃ rest, getThreadBatchBoundaries (numThreads + 2) batchSize n =
      (0, n / 256 / (numThreads + 2) * 256 + if n / 256 % (numThreads + 2) > 0 then 256 else 0) ::
        rest := by
  rw [getThreadBatchBoundaries, if_pos hbatch, minimumChunkSize, threadBoundaries]
  simp only [Nat.zero_add]
  exact ⟨_, List.modify_succ_cons _ _ _ _⟩

theorem firstShare_lt {numThreads remaining : ℕ} (hthreads : 2 ≤ numThreads) (hn : 256 < n)
    (hwhole : numThreads * q + remaining = n / 256) :
    0 < (q * 256 + if remaining > 0 then 256 else 0) ∧
      (q * 256 + if remaining > 0 then 256 else 0) < n := by
  have hshare : 2 * q ≤ numThreads * q := Nat.mul_le_mul_right q hthreads
  have hzero : q = 0 → numThreads * q = 0 := fun hq => by rw [hq, Nat.mul_zero]
  generalize numThreads * q = whole at hshare hwhole hzero
  split
  · omega
  · omega

theorem threadBoundaries_le (partialBatch : ℕ) {numThreads remaining start : ℕ} {r : ℕ × ℕ}
    (hr : r ∈ (threadBoundaries b q (numThreads + 1) remaining start).modify numThreads
      fun r => (r.1, r.2 + partialBatch)) : r.2 ≤ r.1 + (q * b + b + partialBatch) := by
  have hn (remaining : ℕ) : (q * b + if remaining > 0 then b else 0) ≤ q * b + b := by
    split
    · exact le_rfl
    · omega
  induction numThreads generalizing remaining start with
  | zero =>
      have hle := hn remaining
      rw [threadBoundaries, threadBoundaries, List.modify_zero_cons] at hr
      obtain rfl := List.mem_singleton.mp hr
      simp only
      omega
  | succ numThreads ih =>
      rw [threadBoundaries, List.modify_succ_cons] at hr
      rcases List.mem_cons.mp hr with rfl | hr
      · have hle := hn remaining
        simp only
        omega
      · exact ih hr

theorem callRanges_zero (hthreads : 0 < numThreads) (hbatch : batchSize ≠ 0) :
    callRanges numThreads batchSize 0 = [] := by
  refine List.eq_nil_iff_forall_not_mem.mpr fun r hr => ?_
  have hbounds := (tiles_callRanges hthreads hbatch).bounds hr
  have hlt := callRanges_nonempty hthreads hbatch hr
  omega

/-- With several threads the first interval ends before the vector. -/
theorem callRanges_first_lt (hthreads : 2 ≤ numThreads) (hbatch : batchSize < 0) (hn : 256 < n)
    {r : ℕ × ℕ} (hr : r ∈ callRanges numThreads batchSize n) (hstart : r.1 = 0) : r.2 < n := by
  obtain ⟨threads, rfl⟩ : ∃ threads, numThreads = threads + 2 := ⟨numThreads - 2, by omega⟩
  obtain ⟨htiles, -, -⟩ := getThreadBatchBoundaries_exact (show 0 < threads + 2 by omega) batchSize n
  obtain ⟨rest, hrest⟩ := getThreadBatchBoundaries_cons (n := n) threads hbatch
  obtain ⟨interval, hinterval, hr⟩ := List.mem_flatMap.mp hr
  have hsub := subRanges_exact hbatch.ne (htiles.bounds hinterval).2.1
  have hbounds := hsub.1.bounds hr
  rw [hrest] at hinterval htiles
  obtain ⟨-, -, htail⟩ := htiles
  have hfirst := firstShare_lt (show 2 ≤ threads + 2 by omega) hn (Nat.div_add_mod (n / 256) _)
  rcases List.mem_cons.mp hinterval with rfl | hinterval
  · exact lt_of_le_of_lt hbounds.2.2 hfirst.2
  · -- the interval of a later thread starts further on
    have hlater := (htail.bounds hinterval).1
    simp only at hlater
    omega

theorem callRanges_le_batchSize (hthreads : 0 < numThreads) (hbatch : 0 < batchSize) {r : ℕ × ℕ}
    (hr : r ∈ callRanges numThreads batchSize n) : r.2 ≤ r.1 + batchSize.toNat := by
  obtain ⟨htiles, -, -⟩ := getThreadBatchBoundaries_exact hthreads batchSize n
  obtain ⟨interval, hinterval, hr⟩ := List.mem_flatMap.mp hr
  obtain ⟨-, -, hend⟩ :=
    (subRanges_exact hbatch.ne' (htiles.bounds hinterval).2.1).2 r hr
  have hsize : batchLength interval.1 interval.2 batchSize = batchSize.toNat := if_neg (by omega)
  rw [hsize] at hend
  omega

/-- Equal batches of a divided vector are not much longer than half of it. -/
theorem callRanges_le_half (hthreads : 0 < numThreads) (hbatch : batchSize < 0)
    (hone : ¬ OneRange numThreads batchSize n) {r : ℕ × ℕ}
    (hr : r ∈ callRanges numThreads batchSize n) : r.2 ≤ r.1 + (n / 2 + 511) := by
  rw [OneRange, if_neg (by omega), not_or, not_and_or] at hone
  by_cases hthread : numThreads = 1
  · subst hthread
    rw [callRanges_one] at hr
    have hle := (batchLength_lt (show batchSize ≤ -2 by omega) (show 256 < n by omega)).2
    obtain ⟨-, -, hend⟩ := (subRanges_exact hbatch.ne (Nat.zero_le n)).2 r hr
    omega
  · obtain ⟨threads, rfl⟩ : ∃ threads, numThreads = threads + 1 := ⟨numThreads - 1, by omega⟩
    obtain ⟨htiles, -, -⟩ := getThreadBatchBoundaries_exact hthreads batchSize n
    obtain ⟨interval, hinterval, hr⟩ := List.mem_flatMap.mp hr
    have hbounds := (subRanges_exact hbatch.ne (htiles.bounds hinterval).2.1).1.bounds hr
    rw [getThreadBatchBoundaries, if_pos hbatch, minimumChunkSize] at hinterval
    have hle := threadBoundaries_le (n % 256) hinterval
    have hhalf : n / 256 / (threads + 1) ≤ n / 256 / 2 :=
      Nat.div_le_div_left (by omega) Nat.two_pos
    generalize n / 256 / (threads + 1) = q at hle hhalf
    omega

/-- A vector that is not one range is divided, its first range shorter than all of it. -/
theorem callRanges_not_oneRange (hthreads : 0 < numThreads) (hbatch : batchSize ≠ 0) (hn : 0 < n)
    (hone : ¬ OneRange numThreads batchSize n) :
    ∃ e rs, callRanges numThreads batchSize n = (0, e) :: rs ∧ 0 < e ∧ e < n ∧ Tiles e rs n := by
  refine tiles_head (tiles_callRanges hthreads hbatch) hn
    (fun r hr => callRanges_nonempty hthreads hbatch hr) fun r hr hstart => ?_
  rw [OneRange] at hone
  by_cases hpos : 0 < batchSize
  · rw [if_pos hpos] at hone
    have hle := callRanges_le_batchSize hthreads hpos hr
    omega
  · rw [if_neg hpos, not_or, not_and_or] at hone
    by_cases hthread : numThreads = 1
    · subst hthread
      rw [callRanges_one] at hr
      have hlt := (batchLength_lt (show batchSize ≤ -2 by omega) (show 256 < n by omega)).1
      obtain ⟨-, -, hend⟩ := (subRanges_exact hbatch (Nat.zero_le n)).2 r hr
      omega
    · exact callRanges_first_lt (by omega) (by omega) (by omega) hr hstart

end OneRange

end CryptDough
