import CryptDough.WorkPartition
import CryptDough.WorkerPoolProgress

/-! The calls that the runtime makes through its workers. `addTask` has a task for every worker, also
where the worker's interval is empty. `evaluate_oprf` leaves out the workers that have no work, so it
only returns when there is none; and element-wise work comes out as if it were done in one loop,
whatever the threads, the batches and the order of their steps. -/

namespace CryptDough.WorkerPool

variable {σ : Type}

/-- `addTask`: a task for the interval of every worker. -/
def addTask (numThreads : ℕ) (batchSize : ℤ) (size : ℕ) (taskFactory : ℕ → ℕ → Code σ) :
    Call σ numThreads := fun t =>
  (getThreadBatchBoundaries numThreads batchSize size)[t.val]?.map fun r => taskFactory r.1 r.2

/-- The chunk of a thread in `evaluate_oprf`. -/
def perThread (numThreads size : ℕ) : ℕ := max 1 ((size + numThreads - 1) / numThreads)

def evaluateOprf (numThreads size : ℕ) (taskFactory : ℕ → ℕ → Code σ) : Call σ numThreads := fun t =>
  (getThreadBatchBoundaries numThreads (perThread numThreads size) size)[t.val]?.bind fun r =>
    -- threads without work are skipped
    if r.1 ≥ r.2 then none else some (taskFactory r.1 r.2)

section Boundaries

variable {b q : ℕ}

theorem threadBoundaries_getElem (numThreads remaining start : ℕ) {t : ℕ} (ht : t < numThreads) :
    ∃ s, (threadBoundaries b q numThreads remaining start)[t]? =
      some (s, s + (q * b + if t < remaining then b else 0)) := by
  induction numThreads generalizing remaining start t with
  | zero => exact absurd ht (Nat.not_lt_zero t)
  | succ numThreads ih =>
      rw [threadBoundaries]
      cases t with
      | zero => exact ⟨start, rfl⟩
      | succ t =>
          obtain ⟨s, hs⟩ := ih (remaining - 1) (start + (q * b + if remaining > 0 then b else 0))
            (Nat.lt_of_succ_lt_succ ht)
          refine ⟨s, hs.trans ?_⟩
          have hiff : t < remaining - 1 ↔ t + 1 < remaining := by omega
          simp only [hiff]

theorem boundaries_getElem {numThreads : ℕ} (batchSize size : ℕ) {t : ℕ} (ht : t < numThreads) :
    ∃ s, (getThreadBatchBoundaries numThreads batchSize size)[t]? =
      some (s, s + (size / batchSize / numThreads * batchSize +
        (if t < size / batchSize % numThreads then batchSize else 0) +
        if t = numThreads - 1 then size % batchSize else 0)) := by
  have hbatch :
      (if (batchSize : ℤ) < 0 then minimumChunkSize else (batchSize : ℤ).toNat) = batchSize := by
    rw [if_neg (by omega), Int.toNat_natCast]
  obtain ⟨s, hs⟩ := threadBoundaries_getElem (b := batchSize) (q := size / batchSize / numThreads)
    numThreads (size / batchSize % numThreads) 0 ht
  refine ⟨s, ?_⟩
  rw [getThreadBatchBoundaries]
  simp only [hbatch]
  rw [List.getElem?_modify, hs]
  by_cases hlast : t = numThreads - 1
  · rw [if_pos hlast, hlast]
    simp [Nat.add_assoc]
  · rw [if_neg hlast]
    simp [Ne.symm hlast]

/-- Every thread has some of the vector exactly when it is longer than the batches of all but one. -/
theorem all_work_iff {numThreads batchSize size : ℕ} (hthreads : 0 < numThreads)
    (hbatch : 0 < batchSize) :
    (∀ t, t < numThreads → 0 < size / batchSize / numThreads * batchSize +
      (if t < size / batchSize % numThreads then batchSize else 0) +
      if t = numThreads - 1 then size % batchSize else 0) ↔ (numThreads - 1) * batchSize < size := by
  have hsize := Nat.div_add_mod size batchSize
  have hwhole : (numThreads - 1) * batchSize + batchSize = numThreads * batchSize := by
    rw [← Nat.succ_mul, Nat.succ_eq_add_one, Nat.sub_add_cancel hthreads]
  rcases Nat.lt_or_ge (size / batchSize) numThreads with hlt | hge
  · -- no thread has two whole batches
    simp only [Nat.div_eq_of_lt hlt, Nat.mod_eq_of_lt hlt, Nat.zero_mul, Nat.zero_add]
    constructor
    · intro hall
      have hlast := hall (numThreads - 1) (by omega)
      rw [if_pos rfl] at hlast
      rcases Nat.lt_or_ge (size / batchSize) (numThreads - 1) with hless | hmore
      · have hfirst := hall (size / batchSize) (by omega)
        rw [if_neg (lt_irrefl _), if_neg (by omega)] at hfirst
        exact absurd hfirst (lt_irrefl 0)
      · rw [if_neg (by omega)] at hlast
        have hexact : size / batchSize = numThreads - 1 := by omega
        rw [hexact, Nat.mul_comm] at hsize
        omega
    · intro hlong t ht
      have hmod := Nat.mod_lt size hbatch
      have hle : numThreads - 1 ≤ size / batchSize :=
        (Nat.le_div_iff_mul_le hbatch).mpr hlong.le
      have hexact : size / batchSize = numThreads - 1 := by omega
      rcases Nat.lt_or_ge t (numThreads - 1) with hfront | hback
      · rw [if_pos (by omega)]
        omega
      · rw [if_pos (show t = numThreads - 1 by omega)]
        rw [hexact, Nat.mul_comm] at hsize
        omega
  · have hpos : 0 < size / batchSize / numThreads := Nat.div_pos hge hthreads
    have hmul := Nat.mul_pos hpos hbatch
    have hbig : numThreads * batchSize ≤ size := by
      calc numThreads * batchSize ≤ size / batchSize * batchSize := Nat.mul_le_mul_right _ hge
        _ ≤ size := Nat.div_mul_le_self _ _
    refine iff_of_true (fun t _ => ?_) (by omega)
    omega

end Boundaries

section Oprf

variable {numThreads : ℕ}

theorem evaluateOprf_isSome {size : ℕ} (taskFactory : ℕ → ℕ → Code σ) (hthreads : 0 < numThreads) :
    (∀ t, (evaluateOprf numThreads size taskFactory t).isSome) ↔
      (numThreads - 1) * perThread numThreads size < size := by
  have hbatch : 0 < perThread numThreads size := Nat.lt_of_lt_of_le Nat.one_pos (le_max_left _ _)
  rw [← all_work_iff hthreads hbatch]
  have hone : ∀ (chunk : ℕ) (t : Fin numThreads), perThread numThreads size = chunk →
      ((evaluateOprf numThreads size taskFactory t).isSome ↔ 0 < size / chunk / numThreads * chunk +
        (if t.val < size / chunk % numThreads then chunk else 0) +
        if t.val = numThreads - 1 then size % chunk else 0) := by
    intro chunk t hchunk
    obtain ⟨s, hs⟩ := boundaries_getElem chunk size t.isLt
    rw [evaluateOprf, hchunk, hs, Option.bind_some]
    generalize size / chunk / numThreads * chunk +
      (if t.val < size / chunk % numThreads then chunk else 0) +
      (if t.val = numThreads - 1 then size % chunk else 0) = length
    by_cases hlength : 0 < length
    · rw [if_neg (by simp only; omega)]
      exact iff_of_true rfl hlength
    · rw [if_pos (by simp only; omega)]
      exact iff_of_false nofun hlength
  exact ⟨fun h t ht => (hone _ ⟨t, ht⟩ rfl).mp (h ⟨t, ht⟩),
    fun h t => (hone _ t rfl).mpr (h t t.isLt)⟩

/-- After calls that have a task for everybody, `evaluate_oprf` can return, and the runtime can end,
exactly when the vector is longer than the chunks of all threads but one; otherwise it waits forever in
every run. -/
theorem evaluate_oprf_returns_iff (hthreads : 0 < numThreads) (before : List (Call σ numThreads))
    (hbefore : Total before) (size : ℕ) (taskFactory : ℕ → ℕ → Code σ) (mem : σ) :
    let calls := before ++ [evaluateOprf numThreads size taskFactory]
    ((∃ s, Reachable calls mem s ∧ s.main = .done) ↔
        (numThreads - 1) * perThread numThreads size < size) ∧
      (¬(numThreads - 1) * perThread numThreads size < size → ∀ s, Reachable calls mem s →
        s.main ≠ .afterCalls calls calls.length) := by
  intro calls
  have htotal : Total calls ↔ (numThreads - 1) * perThread numThreads size < size := by
    rw [← evaluateOprf_isSome taskFactory hthreads]
    refine ⟨fun h => h _ (List.mem_append_right _ List.mem_cons_self), fun h call hcall => ?_⟩
    rcases List.mem_append.mp hcall with hcall | hcall
    · exact hbefore call hcall
    · rw [List.mem_singleton.mp hcall]
      exact h
  refine ⟨⟨?_, fun h => (htotal.mpr h).exists_ended .refl⟩, fun hshort s hrun hmain => hshort ?_⟩
  · rintro ⟨s, hrun, hmain⟩
    exact htotal.mp (total_of_ended hrun hmain)
  · refine htotal.mp fun call hcall i => ?_
    obtain ⟨hall, -, -⟩ := (reachable_inv hrun).returned le_rfl hmain i
    rw [List.take_length] at hall
    have hmem : call i ∈ calls.map (· i) := List.mem_map.mpr ⟨call, hcall, rfl⟩
    rw [← hall] at hmem
    obtain ⟨t, -, ht⟩ := List.mem_map.mp hmem
    rw [← ht]
    rfl

/-- Five elements on four threads: two of each for the first two, the fifth for the last. -/
theorem evaluate_oprf_returns_iff_five :
    ¬ ∃ s, Reachable [evaluateOprf 4 5 fun _ _ => ([] : Code Unit)] () s ∧ s.main = .done := by
  intro hends
  have h := (evaluate_oprf_returns_iff (by decide : 0 < 4) [] nofun 5
    (fun _ _ => ([] : Code Unit)) ()).1.mp hends
  exact absurd h (by decide)

end Oprf

section Elementwise

variable {α : Type}

/-- The vectors of a program by number, and their elements. -/
abbrev Store (α : Type) := ℕ → ℕ → α

/-- Element-wise work on two vectors of `size` elements that are both batched: what an element of `dst`
becomes is a function of the same element of `src` and of itself. -/
structure ElementOp (α : Type) where
  dst : ℕ
  src : ℕ
  size : ℕ
  f : α → α → α

namespace ElementOp

/-- `execute_parallel` with a function of single elements, from `x` into `res`. -/
def executeParallel (x res size : ℕ) (f : α → α) : ElementOp α := ⟨res, x, size, fun a _ => f a⟩

/-- `modify_parallel_2arg`, which changes `x` by `y`. -/
def modifyParallel2arg (x y size : ℕ) (f : α → α → α) : ElementOp α := ⟨x, y, size, fun b a => f a b⟩

variable (op : ElementOp α)

def write (i : ℕ) (m : Store α) : Store α :=
  Function.update m op.dst (Function.update (m op.dst) i (op.f (m op.src i) (m op.dst i)))

/-- The whole of the work at once. -/
def apply (m : Store α) : Store α := fun v i =>
  if v = op.dst ∧ i < op.size then op.f (m op.src i) (m op.dst i) else m v i

def code (batchSize : ℤ) (start stop : ℕ) : Code (Store α) :=
  (((Task.new start stop batchSize).execute (stop - start)).getD []).flatMap fun r =>
    (List.range' r.1 (r.2 - r.1)).map op.write

def call (numThreads : ℕ) (batchSize : ℤ) : Call (Store α) numThreads :=
  addTask numThreads batchSize op.size (op.code batchSize)

variable {op}

theorem write_apply (i v x : ℕ) (m : Store α) :
    op.write i m v x = if v = op.dst ∧ x = i then op.f (m op.src i) (m op.dst i) else m v x := by
  rw [write]
  by_cases hv : v = op.dst
  · subst hv
    rw [Function.update_self]
    by_cases hx : x = i
    · subst hx
      simp
    · simp [hx]
  · simp [hv]

theorem write_commute {i j : ℕ} (hij : i ≠ j) : Function.Commute (op.write i) (op.write j) := by
  intro m
  -- writing at one index does not change what is read at the other
  have hread : ∀ i j : ℕ, i ≠ j → ∀ v, op.write j m v i = m v i := by
    intro i j hij v
    rw [write_apply, if_neg fun h => hij h.2]
  ext v x
  rw [write_apply i, write_apply j v x (op.write i m), hread i j hij, hread i j hij,
    hread j i hij.symm, hread j i hij.symm, write_apply j v x m, write_apply i v x m]
  by_cases hx : x = i
  · subst hx
    simp [hij]
  · simp [hx]

theorem perform_writes (m : Store α) :
    Threads.perform ((List.range op.size).map op.write) m = op.apply m := by
  have hprefix : ∀ k, Threads.perform ((List.range k).map op.write) m = fun v i =>
      if v = op.dst ∧ i < k then op.f (m op.src i) (m op.dst i) else m v i := by
    intro k
    induction k with
    | zero =>
        ext v i
        simp
    | succ k ih =>
        rw [List.range_succ, List.map_append, Threads.perform_append, ih]
        ext v i
        rw [List.map_singleton, Threads.perform_cons, Threads.perform_nil, write_apply]
        by_cases hi : i = k
        · subst hi
          simp
        · have hiff : i < k + 1 ↔ i < k := by omega
          simp [hi, hiff]
  exact hprefix op.size

end ElementOp

section Tiling

theorem Tiles.flatMap_range' {rs : List (ℕ × ℕ)} {a b : ℕ} (h : Tiles a rs b) :
    rs.flatMap (fun r => List.range' r.1 (r.2 - r.1)) = List.range' a (b - a) := by
  induction rs generalizing a with
  | nil =>
      obtain rfl := h
      rw [Nat.sub_self]
      rfl
  | cons r rs ih =>
      obtain ⟨rfl, hr, hrs⟩ := h
      have hle := hrs.le
      rw [List.flatMap_cons, ih hrs]
      have hsplit : b - r.1 = r.2 - r.1 + (b - r.2) := by omega
      rw [hsplit, ← List.range'_append_1, show r.1 + (r.2 - r.1) = r.2 by omega]

theorem Tiles.before {rs : List (ℕ × ℕ)} {a b : ℕ} (h : Tiles a rs b) {t u : ℕ} (htu : t < u)
    {r r' : ℕ × ℕ} (hr : rs[t]? = some r) (hr' : rs[u]? = some r') : r.2 ≤ r'.1 := by
  induction rs generalizing a t u with
  | nil => cases hr
  | cons r₀ rs ih =>
      obtain ⟨-, -, hrs⟩ := h
      obtain ⟨u, rfl⟩ := Nat.exists_eq_add_of_lt htu
      cases t with
      | zero =>
          cases hr
          exact (hrs.bounds (List.mem_of_getElem? (by simpa using hr'))).1
      | succ t => exact ih hrs (t := t) (u := t + u + 1) (by omega) hr (by
          rw [show t + 1 + u + 1 = t + u + 1 + 1 by omega] at hr'
          exact hr')

end Tiling

section Programs

variable {numThreads : ℕ} {batchSize : ℤ} {op : ElementOp α}

/-- In a vector that fits in memory every task goes over its slices. -/
theorem ElementOp.code_eq (hthreads : 0 < numThreads) (hbatch : batchSize ≠ 0)
    (hlt : batchSize < 2 ^ 63) (hsize : op.size < 2 ^ 63) {r : ℕ × ℕ}
    (hr : r ∈ getThreadBatchBoundaries numThreads batchSize op.size) :
    op.code batchSize r.1 r.2 = (subRanges r.1 r.2 batchSize).flatMap fun r =>
      (List.range' r.1 (r.2 - r.1)).map op.write := by
  rw [ElementOp.code, Task.execute_eq_subRanges hbatch
    (intervals_fit hthreads (lastBatchEnd_lt hthreads hlt hsize) hr)]
  rfl

theorem ElementOp.mem_code (hthreads : 0 < numThreads) (hbatch : batchSize ≠ 0)
    (hlt : batchSize < 2 ^ 63) (hsize : op.size < 2 ^ 63) {interval : ℕ × ℕ}
    (hinterval : interval ∈ getThreadBatchBoundaries numThreads batchSize op.size)
    {a : Store α → Store α} (ha : a ∈ op.code batchSize interval.1 interval.2) :
    ∃ i, interval.1 ≤ i ∧ i < interval.2 ∧ a = op.write i := by
  obtain ⟨htiles, -, -⟩ := getThreadBatchBoundaries_exact hthreads batchSize op.size
  rw [ElementOp.code_eq hthreads hbatch hlt hsize hinterval] at ha
  obtain ⟨r, hr, ha⟩ := List.mem_flatMap.mp ha
  obtain ⟨i, hi, rfl⟩ := List.mem_map.mp ha
  obtain ⟨hstart, -, hstop⟩ := (subRanges_exact hbatch (htiles.bounds hinterval).2.1).1.bounds hr
  have hbounds := List.mem_range'_1.mp hi
  exact ⟨i, by omega, by omega, rfl⟩

theorem call_independent (hthreads : 0 < numThreads) (hbatch : batchSize ≠ 0)
    (hlt : batchSize < 2 ^ 63) {ops : List (ElementOp α)} (hsize : ∀ op ∈ ops, op.size < 2 ^ 63) :
    Independent (ops.map (·.call numThreads batchSize)) := by
  intro call hcall i j hij t ht u hu a ha b hb
  obtain ⟨op, hop, rfl⟩ := List.mem_map.mp hcall
  obtain ⟨htiles, -, -⟩ := getThreadBatchBoundaries_exact hthreads batchSize op.size
  obtain ⟨r, hr, rfl⟩ := Option.map_eq_some_iff.mp ht
  obtain ⟨r', hr', rfl⟩ := Option.map_eq_some_iff.mp hu
  obtain ⟨x, hx, hx', rfl⟩ :=
    ElementOp.mem_code hthreads hbatch hlt (hsize op hop) (List.mem_of_getElem? hr) ha
  obtain ⟨y, hy, hy', rfl⟩ :=
    ElementOp.mem_code hthreads hbatch hlt (hsize op hop) (List.mem_of_getElem? hr') hb
  apply ElementOp.write_commute
  rcases Nat.lt_or_gt_of_ne (Fin.val_ne_of_ne hij) with hless | hmore
  · have hbefore := Tiles.before htiles hless hr hr'
    omega
  · have hbefore := Tiles.before htiles hmore hr' hr
    omega

theorem addTask_total (hthreads : 0 < numThreads) (size : ℕ) (taskFactory : ℕ → ℕ → Code σ)
    (t : Fin numThreads) : (addTask numThreads batchSize size taskFactory t).isSome := by
  obtain ⟨-, hlength, -⟩ := getThreadBatchBoundaries_exact hthreads batchSize size
  rw [addTask, Option.isSome_map, List.getElem?_eq_getElem (by rw [hlength]; exact t.isLt)]
  rfl

theorem flatMap_addTask (hthreads : 0 < numThreads) (size : ℕ) (taskFactory : ℕ → ℕ → Code σ) :
    (List.finRange numThreads).flatMap
        (fun t => (addTask numThreads batchSize size taskFactory t).getD []) =
      (getThreadBatchBoundaries numThreads batchSize size).flatMap fun r => taskFactory r.1 r.2 := by
  obtain ⟨-, hlength, -⟩ := getThreadBatchBoundaries_exact hthreads batchSize size
  have hlist : (List.finRange numThreads).map (fun t =>
        (getThreadBatchBoundaries numThreads batchSize size).get (t.cast hlength.symm)) =
      getThreadBatchBoundaries numThreads batchSize size := by
    refine List.ext_getElem (by simp [hlength]) fun t _ _ => ?_
    simp
  conv_rhs => rw [← hlist, List.flatMap_map]
  refine List.flatMap_congr fun t _ => ?_
  rw [addTask, List.getElem?_eq_getElem (by rw [hlength]; exact t.isLt)]
  rfl

theorem callResult_call (hthreads : 0 < numThreads) (hbatch : batchSize ≠ 0) (hlt : batchSize < 2 ^ 63)
    (hsize : op.size < 2 ^ 63) (m : Store α) :
    callResult (op.call numThreads batchSize) m = op.apply m := by
  rw [callResult, Threads.inTurn, ElementOp.call, flatMap_addTask hthreads, ← op.perform_writes]
  have htiles : Tiles 0 (callRanges numThreads batchSize op.size) op.size :=
    tiles_callRanges hthreads hbatch
  have hranges := Tiles.flatMap_range' htiles
  rw [Nat.sub_zero, callRanges, List.flatMap_assoc] at hranges
  rw [List.range_eq_range', ← hranges, List.map_flatMap]
  refine congrArg (Threads.perform · m) (List.flatMap_congr fun r hr => ?_)
  rw [ElementOp.code_eq hthreads hbatch hlt hsize hr, List.map_flatMap]

theorem callsResult_calls (hthreads : 0 < numThreads) (hbatch : batchSize ≠ 0) (hlt : batchSize < 2 ^ 63)
    {ops : List (ElementOp α)} (hsize : ∀ op ∈ ops, op.size < 2 ^ 63) (m : Store α) :
    callsResult (ops.map (·.call numThreads batchSize)) m = ops.foldl (fun m op => op.apply m) m := by
  rw [callsResult, List.foldl_map]
  exact List.foldl_ext _ _ m fun m op hop => callResult_call hthreads hbatch hlt (hsize op hop) m

/-- A program of element-wise calls: after the `k`-th of them the vectors are those that the calls give
one after the other without threads or batches, and no run of the program gets stuck before its end. -/
theorem execute_parallel_sequential (hthreads : 0 < numThreads) (batchSize : Int64)
    (hbatch : batchSize.toInt ≠ 0) (ops : List (ElementOp α)) (hsize : ∀ op ∈ ops, op.size < 2 ^ 63)
    (mem : Store α) :
    let calls := ops.map (·.call numThreads batchSize.toInt)
    ∀ s, Reachable calls mem s →
      (∀ k ≤ ops.length, s.main = .afterCalls calls k →
        s.mem = (ops.take k).foldl (fun m op => op.apply m) mem) ∧
      ((∃ s', Step calls s s') ∨
        s.main = .done ∧ s.mem = ops.foldl (fun m op => op.apply m) mem) := by
  intro calls s hrun
  have hlt : batchSize.toInt < 2 ^ 63 := batchSize.toInt_lt
  have hind := call_independent hthreads hbatch hlt hsize
  have htotal : Total calls := by
    intro call hcall t
    obtain ⟨op, -, rfl⟩ := List.mem_map.mp hcall
    exact addTask_total hthreads op.size _ t
  refine ⟨fun k hk hmain => ?_, ((reachable_inv hrun).progress htotal).imp id fun hdone => ⟨hdone, ?_⟩⟩
  · rw [(reachable_mem hind hrun).returned k (by rw [List.length_map]; exact hk) hmain, ← List.map_take]
    exact callsResult_calls hthreads hbatch hlt (fun op hop => hsize op (List.mem_of_mem_take hop)) mem
  · rw [reachable_ended_mem hind hrun hdone]
    exact callsResult_calls hthreads hbatch hlt hsize mem

/-- Two threads double a vector of three elements into another one, which they then add to the first. -/
theorem execute_parallel_sequential_three :
    let ops : List (ElementOp ℕ) :=
      [.executeParallel 0 1 3 (2 * ·), .modifyParallel2arg 0 1 3 (· + ·)]
    let mem : Store ℕ := fun v i => 10 * v + i
    ∃ s, Reachable (ops.map (·.call 2 1)) mem s ∧ s.main = .done ∧
      ∀ i < 3, s.mem 0 i = 3 * i ∧ s.mem 1 i = 2 * i := by
  intro ops mem
  have htotal : Total (ops.map (·.call 2 1)) := by
    intro call hcall t
    obtain ⟨op, -, rfl⟩ := List.mem_map.mp hcall
    exact addTask_total (by decide) op.size _ t
  have hinit : Reachable (ops.map (·.call 2 1)) mem (init 2 mem) := .refl
  obtain ⟨s, hrun, hdone⟩ := htotal.exists_ended hinit
  have hresult := (execute_parallel_sequential (by decide : 0 < 2) 1 (by decide) ops
    (by simp [ops, ElementOp.executeParallel, ElementOp.modifyParallel2arg]) mem s hrun).2
  rcases hresult with hstep | ⟨-, hmem⟩
  · exact absurd hstep ((reachable_inv hrun).no_step hdone)
  · refine ⟨s, hrun, hdone, fun i hi => ?_⟩
    rw [hmem]
    simp [ops, mem, ElementOp.apply, ElementOp.executeParallel, ElementOp.modifyParallel2arg, hi]
    omega

end Programs

end Elementwise

end CryptDough.WorkerPool
