import CryptDough.MachineIntegers
import Mathlib.Algebra.Order.Ring.Nat
import Mathlib.Data.List.Basic

/-! The queues of permutation correlations: `reserve` tops them up, `getNext` and `getNextPair` serve
from them. A permutation is known here by its size only. -/

namespace CryptDough

structure ShardedPermutation where
  size : ℕ
deriving DecidableEq

structure PermutationManager where
  queue : List ShardedPermutation
  /-- Two-party computation only. -/
  pairQueue : List (ShardedPermutation × ShardedPermutation)
  storedSize : ℕ
deriving DecidableEq

namespace PermutationManager

/-- What ends the program: `front` of an empty queue, a failed assertion on the size, an access behind
the end of a vector, more entries than fit in memory, or a permutation whose mask `1 << bits` is no
`int`. -/
inductive Failure where
  | emptyQueue
  | wrongSize
  | outOfBounds
  | outOfMemory
  | noMask
deriving DecidableEq

def new : PermutationManager where
  queue := []
  pairQueue := []
  storedSize := 0

/-- A negative number becomes a `size_t` that no counter reaches. -/
def allocate (numPermutations : ℤ) (size : ℕ) : Except Failure (List ShardedPermutation) :=
  if numPermutations < 0 then .error .outOfMemory
  else .ok (List.replicate numPermutations.toNat ⟨size⟩)

/-- `getNext` of the generator for every one of them. -/
def generatePermutations (ret : List ShardedPermutation) : Except Failure (List ShardedPermutation) :=
  if ∀ perm ∈ ret, perm.size < 2 ^ 31 then .ok ret else .error .noMask

/-- Entries `2i` and `2i + 1`, for every `i < n`. -/
def pairUp {α : Type} : ℕ → List α → List (α × α)
  | n + 1, a :: b :: rest => (a, b) :: pairUp n rest
  | _, _ => []

/-- A queue that holds fewer than `request` entries lacks the difference; the request of a queue that
holds enough is left as it is. -/
def missing (request stored : ℕ) : ℕ :=
  if stored < request then request - stored else request

/-- Except in 2PC, pairs are just individual permutations. -/
def individual (numParties numPermutations numPairs : ℕ) : ℕ :=
  if numParties = 2 then numPermutations else sizeAdd numPermutations numPairs

def paired (numParties numPairs : ℕ) : ℕ :=
  if numParties = 2 then numPairs else 0

/-- Empties both queues if they hold permutations of another size. -/
def discard (size : ℕ) (m : PermutationManager) : PermutationManager :=
  if (m.queue ≠ [] ∨ m.pairQueue ≠ []) ∧ m.storedSize ≠ size then
    { queue := [], pairQueue := [], storedSize := size }
  else { m with storedSize := size }

/-- The number to generate is kept in an `int`; the permutations of the pairs come first. -/
def reserve (numParties size numPermutations numPairs : ℕ) (m : PermutationManager) :
    Except Failure PermutationManager :=
  let perms := individual numParties numPermutations numPairs
  let pairs := paired numParties numPairs
  let m := discard size m
  if perms ≤ m.queue.length ∧ pairs ≤ m.pairQueue.length then .ok m
  else do
    let perms := missing perms m.queue.length
    let pairs := missing pairs m.pairQueue.length
    let ret ← allocate (castInt (perms + 2 * pairs : ℕ)) size
    if ret.length < 2 * pairs then .error .outOfBounds
    else do
      let ret ← generatePermutations ret
      return { m with
        pairQueue := m.pairQueue ++ if numParties = 2 then pairUp pairs ret else []
        queue := m.queue ++ ret.drop (pairs * 2) }

/-- What the generator returns for a queue that is empty. -/
def generateOne (size : ℕ) : Except Failure ShardedPermutation :=
  if size < 2 ^ 31 then .ok ⟨size⟩ else .error .noMask

def getNext (numParties size : ℕ) (m : PermutationManager) :
    Except Failure (ShardedPermutation × PermutationManager) :=
  if m.queue = [] then do
    let next ← generateOne size
    return (next, m)
  else do
    let m ← if size ≠ m.storedSize then reserve numParties size 1 0 m else .ok m
    match m.queue with
    | [] => .error .emptyQueue
    | next :: rest =>
      if next.size = size then .ok (next, { m with queue := rest }) else .error .wrongSize

def getNextPair (numParties size : ℕ) (m : PermutationManager) :
    Except Failure ((ShardedPermutation × ShardedPermutation) × PermutationManager) :=
  if numParties ≠ 2 then
    match m.queue with
    | [] => do
      let perm ← generateOne size
      return ((perm, perm), m)
    | perm :: rest =>
      -- a mere warning where `size` is not the stored size, then the assertion
      if perm.size = size then .ok ((perm, perm), { m with queue := rest }) else .error .wrongSize
  else do
    let m ← if m.pairQueue = [] then reserve numParties size 0 1 m else .ok m
    match m.pairQueue with
    | [] => .error .emptyQueue
    | pair :: rest => .ok (pair, { m with pairQueue := rest })

@[simp] theorem ok_bind {α β : Type} (a : α) (next : α → Except Failure β) :
    (Except.ok a >>= next) = next a := rfl

@[simp] theorem error_bind {α β : Type} (failure : Failure) (next : α → Except Failure β) :
    (Except.error failure >>= next) = .error failure := rfl

/-! ### Runs -/

inductive Request where
  | reserve (size numPermutations numPairs : ℕ)
  | getNext (size : ℕ)
  | getNextPair (size : ℕ)
deriving DecidableEq

/-- What a request hands out, each with the size it was asked for. -/
def serve (numParties : ℕ) (m : PermutationManager) :
    Request → Except Failure (List (ℕ × ShardedPermutation) × PermutationManager)
  | .reserve size perms pairs => do
    let m ← reserve numParties size perms pairs m
    return ([], m)
  | .getNext size => do
    let (next, m) ← getNext numParties size m
    return ([(size, next)], m)
  | .getNextPair size => do
    let (pair, m) ← getNextPair numParties size m
    return ([(size, pair.1), (size, pair.2)], m)

/-- Everything a sequence of requests hands out, until the program ends. -/
def run (numParties : ℕ) : PermutationManager → List Request →
    List (ℕ × ShardedPermutation) × Except Failure PermutationManager
  | m, [] => ([], .ok m)
  | m, request :: rest =>
    match serve numParties m request with
    | .error failure => ([], .error failure)
    | .ok (handed, m) => (handed ++ (run numParties m rest).1, (run numParties m rest).2)

/-- Every request of a run is made in a state that meets a condition. -/
def Along (numParties : ℕ) (cond : Request → PermutationManager → Prop) :
    PermutationManager → List Request → Prop
  | _, [] => True
  | m, request :: rest => cond request m ∧
      ∀ handed m', serve numParties m request = .ok (handed, m') → Along numParties cond m' rest

/-- A state that some sequence of requests leads to. -/
def Reachable (numParties : ℕ) (m : PermutationManager) : Prop :=
  ∃ history, (run numParties new history).2 = .ok m

/-! ### What `reserve` adds -/

section Reserve

variable {numParties size numPermutations numPairs : ℕ} {m : PermutationManager}

theorem pairUp_replicate {count pairs : ℕ} (hpairs : 2 * pairs ≤ count) (perm : ShardedPermutation) :
    pairUp pairs (List.replicate count perm) = List.replicate pairs (perm, perm) := by
  induction pairs generalizing count with
  | zero => rw [pairUp, List.replicate_zero]; exact fun _ _ _ _ h => absurd h (Nat.succ_ne_zero _).symm
  | succ pairs ih =>
      obtain ⟨count, rfl⟩ := Nat.exists_eq_add_of_le' (show 2 ≤ count by omega)
      rw [List.replicate_succ, List.replicate_succ, pairUp, ih (by omega), List.replicate_succ]

@[simp] theorem missing_zero (stored : ℕ) : missing 0 stored = 0 := by
  simp [missing]

@[simp] theorem individual_two (p q : ℕ) : individual 2 p q = p := rfl

@[simp] theorem paired_two (q : ℕ) : paired 2 q = q := rfl

theorem individual_of_ne (hparties : numParties ≠ 2) {p q : ℕ} (hsize : p + q < 2 ^ 64) :
    individual numParties p q = p + q := by
  rw [individual, if_neg hparties, sizeAdd, if_pos hsize]

theorem paired_of_ne (hparties : numParties ≠ 2) (q : ℕ) : paired numParties q = 0 :=
  if_neg hparties

theorem discard_same (hsize : m.storedSize = size) : discard size m = m := by
  subst hsize
  simp [discard]

@[simp] theorem discard_storedSize : (discard size m).storedSize = size := by
  unfold discard
  split <;> rfl

theorem reserve_covered (hperms : individual numParties numPermutations numPairs ≤
      (discard size m).queue.length)
    (hpairs : paired numParties numPairs ≤ (discard size m).pairQueue.length) :
    reserve numParties size numPermutations numPairs m = .ok (discard size m) :=
  if_pos ⟨hperms, hpairs⟩

/-- What `reserve` asks the generator for, in permutations that are not paired and in pairs. -/
def lacks (numParties size numPermutations numPairs : ℕ) (m : PermutationManager) : ℕ × ℕ :=
  (missing (individual numParties numPermutations numPairs) (discard size m).queue.length,
    missing (paired numParties numPairs) (discard size m).pairQueue.length)

/-- The queues after `reserve` has appended permutations and pairs. -/
def topped (size perms pairs : ℕ) (m : PermutationManager) : PermutationManager where
  queue := (discard size m).queue ++ List.replicate perms ⟨size⟩
  pairQueue := (discard size m).pairQueue ++ List.replicate pairs (⟨size⟩, ⟨size⟩)
  storedSize := size

/-- A request that is not covered appends as many entries as the `int` says, or fails. -/
theorem reserve_lacking (hlacking : ¬ (individual numParties numPermutations numPairs ≤
      (discard size m).queue.length ∧
      paired numParties numPairs ≤ (discard size m).pairQueue.length))
    {perms pairs : ℕ} (hlacks : lacks numParties size numPermutations numPairs m = (perms, pairs))
    {count : ℤ} (hcount : castInt (perms + 2 * pairs : ℕ) = count) :
    reserve numParties size numPermutations numPairs m =
      if count < 0 then .error .outOfMemory
      else if count.toNat < 2 * pairs then .error .outOfBounds
      else if count.toNat = 0 ∨ size < 2 ^ 31 then .ok (topped size (count.toNat - 2 * pairs) pairs m)
      else .error .noMask := by
  obtain ⟨hperms, hpairs⟩ := Prod.mk.inj hlacks
  have hgenerated : ∀ n, (∀ perm ∈ List.replicate n (⟨size⟩ : ShardedPermutation),
      perm.size < 2 ^ 31) ↔ n = 0 ∨ size < 2 ^ 31 := by
    intro n
    rw [List.forall_mem_replicate]
  simp only [reserve, if_neg hlacking, hperms, hpairs, hcount, allocate]
  split
  · rfl
  rw [ok_bind, List.length_replicate]
  split
  · rfl
  rename_i hroom
  rw [generatePermutations]
  simp only [hgenerated]
  split
  · have hpaired : (if numParties = 2 then pairUp pairs (List.replicate count.toNat ⟨size⟩) else []) =
        List.replicate pairs ((⟨size⟩ : ShardedPermutation), ⟨size⟩) := by
      by_cases hparties : numParties = 2
      · rw [if_pos hparties, pairUp_replicate (not_lt.mp hroom)]
      · rw [paired_of_ne hparties, missing_zero] at hpairs
        rw [if_neg hparties, ← hpairs, List.replicate_zero]
    rw [ok_bind, hpaired, List.drop_replicate, Nat.mul_comm, discard_storedSize]
    rfl
  · rfl

/-- A request that is covered, or for which the `int` holds the number to generate. -/
theorem reserve_eq (hsize : size < 2 ^ 31) {perms pairs : ℕ}
    (hlacks : lacks numParties size numPermutations numPairs m = (perms, pairs))
    (hint : perms + 2 * pairs < 2 ^ 31)
    (hlacking : ¬ (individual numParties numPermutations numPairs ≤ (discard size m).queue.length ∧
      paired numParties numPairs ≤ (discard size m).pairQueue.length)) :
    reserve numParties size numPermutations numPairs m = .ok (topped size perms pairs m) := by
  rw [reserve_lacking hlacking hlacks (castInt_natCast hint), if_neg (by omega), Int.toNat_natCast,
    if_neg (by omega), if_pos (.inr hsize), Nat.add_sub_cancel]

/-- What a reservation leaves behind, however much it generates. -/
theorem reserve_ok {m' : PermutationManager}
    (hreserve : reserve numParties size numPermutations numPairs m = .ok m') :
    m' = discard size m ∨ ∃ perms pairs, m' = topped size perms pairs m := by
  by_cases hcovered : individual numParties numPermutations numPairs ≤
      (discard size m).queue.length ∧
      paired numParties numPairs ≤ (discard size m).pairQueue.length
  · rw [reserve_covered hcovered.1 hcovered.2, Except.ok.injEq] at hreserve
    exact .inl hreserve.symm
  · rw [reserve_lacking hcovered rfl rfl] at hreserve
    split at hreserve
    · cases hreserve
    split at hreserve
    · cases hreserve
    split at hreserve
    · rw [Except.ok.injEq] at hreserve
      exact .inr ⟨_, _, hreserve.symm⟩
    · cases hreserve

/-- A reservation does not pop anything. -/
theorem reserve_ne_emptyQueue :
    reserve numParties size numPermutations numPairs m ≠ .error .emptyQueue := by
  by_cases hcovered : individual numParties numPermutations numPairs ≤
      (discard size m).queue.length ∧
      paired numParties numPairs ≤ (discard size m).pairQueue.length
  · rw [reserve_covered hcovered.1 hcovered.2]
    nofun
  · rw [reserve_lacking hcovered rfl rfl]
    split
    · nofun
    split
    · nofun
    split <;> nofun

end Reserve

/-! ### The sizes handed out -/

/-- Whatever the queues hold is of the stored size. -/
structure Fits (m : PermutationManager) : Prop where
  queue : ∀ perm ∈ m.queue, perm = ⟨m.storedSize⟩
  pairs : ∀ pair ∈ m.pairQueue, pair = (⟨m.storedSize⟩, ⟨m.storedSize⟩)

theorem new_fits : new.Fits where
  queue := by simp [new]
  pairs := by simp [new]

theorem Fits.discard {m : PermutationManager} (hfits : m.Fits) (size : ℕ) :
    (discard size m).Fits := by
  unfold PermutationManager.discard
  split
  · exact ⟨by simp, by simp⟩
  case isFalse hkept =>
    by_cases hsize : m.storedSize = size
    · subst hsize
      exact hfits
    · -- of another size, hence both queues are empty
      have hempty : m.queue = [] ∧ m.pairQueue = [] := by
        by_contra hnot
        exact hkept ⟨by tauto, hsize⟩
      exact ⟨by simp [hempty.1], by simp [hempty.2]⟩

theorem Fits.topped {m : PermutationManager} (hfits : m.Fits) (size perms pairs : ℕ) :
    (topped size perms pairs m).Fits where
  queue perm hperm := by
    rcases List.mem_append.1 hperm with hold | hnew
    · rw [(hfits.discard size).queue perm hold, discard_storedSize]
      rfl
    · exact List.eq_of_mem_replicate hnew
  pairs pair hpair := by
    rcases List.mem_append.1 hpair with hold | hnew
    · rw [(hfits.discard size).pairs pair hold, discard_storedSize]
      rfl
    · exact List.eq_of_mem_replicate hnew

theorem Fits.reserve {m m' : PermutationManager} (hfits : m.Fits)
    {numParties size numPermutations numPairs : ℕ}
    (hreserve : reserve numParties size numPermutations numPairs m = .ok m') : m'.Fits := by
  rcases reserve_ok hreserve with rfl | ⟨perms, pairs, rfl⟩
  · exact hfits.discard size
  · exact hfits.topped size perms pairs

/-- Served with the value, in good order, or refused for another reason than an empty queue. -/
def Serves {β : Type} (result : Except Failure (β × PermutationManager)) (value : β) : Prop :=
  (∃ m', result = .ok (value, m') ∧ m'.Fits) ∨
    ∃ failure, result = .error failure ∧ failure ≠ .emptyQueue

section Served

variable {numParties size : ℕ} {m : PermutationManager}

/-- Serving from a queue of the right size. -/
theorem getNext_stored (hfits : m.Fits) (hsize : m.storedSize = size) (hqueue : m.queue ≠ []) :
    getNext numParties size m = .ok (⟨size⟩, { m with queue := m.queue.tail }) := by
  obtain ⟨next, rest, hcons⟩ := List.exists_cons_of_ne_nil hqueue
  have hnext : next = ⟨size⟩ := by
    rw [hfits.queue next (by simp [hcons]), hsize]
  simp [getNext, hcons, hsize, hnext]

theorem Fits.tail (hfits : m.Fits) : Fits { m with queue := m.queue.tail } where
  queue perm hperm := hfits.queue perm (List.mem_of_mem_tail hperm)
  pairs := hfits.pairs

theorem Fits.pairTail (hfits : m.Fits) : Fits { m with pairQueue := m.pairQueue.tail } where
  queue := hfits.queue
  pairs pair hpair := hfits.pairs pair (List.mem_of_mem_tail hpair)

theorem generateOne_serves (hfits : m.Fits) (size : ℕ) {β : Type} (value : ShardedPermutation → β) :
    Serves (generateOne size >>= fun perm => pure (value perm, m)) (value ⟨size⟩) := by
  unfold generateOne
  split
  · exact .inl ⟨m, rfl, hfits⟩
  · exact .inr ⟨.noMask, rfl, nofun⟩

/-- An individual permutation always fits: another size in the queue is thrown away first. -/
theorem getNext_serves (hfits : m.Fits) (numParties size : ℕ) :
    Serves (getNext numParties size m) ⟨size⟩ := by
  by_cases hqueue : m.queue = []
  · rw [getNext, if_pos hqueue]
    exact generateOne_serves hfits size id
  by_cases hsize : m.storedSize = size
  · exact .inl ⟨_, getNext_stored hfits hsize hqueue, hfits.tail⟩
  -- the queues are emptied, and one permutation is generated
  have hdiscard : discard size m = { queue := [], pairQueue := [], storedSize := size } :=
    if_pos ⟨.inl hqueue, hsize⟩
  have hone : individual numParties 1 0 = 1 := by
    unfold individual
    split <;> rfl
  have hnone : paired numParties 0 = 0 := by simp [paired]
  have hlacks : lacks numParties size 1 0 m = (1, 0) := by
    rw [lacks, hdiscard, hone, hnone]
    rfl
  have hlacking : ¬ (individual numParties 1 0 ≤ (discard size m).queue.length ∧
      paired numParties 0 ≤ (discard size m).pairQueue.length) := by
    rw [hdiscard, hone]
    exact fun hcovered => absurd hcovered.1 (Nat.not_succ_le_zero 0)
  rw [getNext, if_neg hqueue, if_pos (Ne.symm hsize)]
  by_cases hmask : size < 2 ^ 31
  · rw [reserve_eq hmask hlacks (by decide) hlacking]
    refine .inl ⟨{ queue := [], pairQueue := [], storedSize := size }, ?_, ⟨by simp, by simp⟩⟩
    simp [topped, hdiscard]
  · have hcount : castInt (1 + 2 * 0 : ℕ) = 1 := by decide
    rw [reserve_lacking hlacking hlacks hcount, if_neg (by decide), if_neg (by decide),
      if_neg (by omega)]
    exact .inr ⟨.noMask, rfl, nofun⟩

/-- Outside 2PC a pair of another size is refused. -/
theorem getNextPair_copied (hfits : m.Fits) (hparties : numParties ≠ 2) (size : ℕ) :
    Serves (getNextPair numParties size m) (⟨size⟩, ⟨size⟩) := by
  rw [getNextPair, if_pos hparties]
  cases hqueue : m.queue with
  | nil => exact generateOne_serves hfits size fun perm => (perm, perm)
  | cons perm rest =>
      by_cases hsize : perm.size = size
      · subst hsize
        refine .inl ⟨{ m with queue := rest }, if_pos rfl, ?_⟩
        have hkept := hfits.tail
        rwa [hqueue, List.tail_cons] at hkept
      · exact .inr ⟨.wrongSize, if_neg hsize, nofun⟩

/-- In 2PC a stored pair is handed out whatever the size asked for. -/
theorem getNextPair_stored (hfits : m.Fits) (hpairs : m.pairQueue ≠ []) (size : ℕ) :
    getNextPair 2 size m = .ok ((⟨m.storedSize⟩, ⟨m.storedSize⟩),
      { m with pairQueue := m.pairQueue.tail }) := by
  obtain ⟨pair, rest, hcons⟩ := List.exists_cons_of_ne_nil hpairs
  have hpair : pair = (⟨m.storedSize⟩, ⟨m.storedSize⟩) := hfits.pairs pair (by simp [hcons])
  simp [getNextPair, hcons, hpair]

theorem getNextPair_generated (hfits : m.Fits) (hpairs : m.pairQueue = []) (size : ℕ) :
    Serves (getNextPair 2 size m) (⟨size⟩, ⟨size⟩) := by
  have hdiscard : (discard size m).pairQueue = [] := by
    unfold discard
    split
    · rfl
    · exact hpairs
  have hlacks : lacks 2 size 0 1 m = (0, 1) := by
    rw [lacks, hdiscard, individual_two, missing_zero]
    rfl
  have hlacking : ¬ (individual 2 0 1 ≤ (discard size m).queue.length ∧
      paired 2 1 ≤ (discard size m).pairQueue.length) := by
    rw [hdiscard]
    exact fun hcovered => absurd hcovered.2 (by decide)
  rw [getNextPair, if_neg (by decide), if_pos hpairs]
  by_cases hmask : size < 2 ^ 31
  · have hkept := (hfits.topped size 0 1).pairTail
    rw [reserve_eq hmask hlacks (by decide) hlacking]
    refine .inl ⟨_, ?_, hkept⟩
    simp [topped, hdiscard]
  · have hcount : castInt (0 + 2 * 1 : ℕ) = 2 := by decide
    rw [reserve_lacking hlacking hlacks hcount, if_neg (by decide), if_neg (by decide),
      if_neg (by omega)]
    exact .inr ⟨.noMask, rfl, nofun⟩

end Served

/-- In 2PC a pair is asked for when none is stored, or in the size of those that are. -/
def PairFits (numParties : ℕ) : Request → PermutationManager → Prop
  | .getNextPair size, m => numParties = 2 → m.pairQueue = [] ∨ m.storedSize = size
  | _, _ => True

def HandedFit (handed : List (ℕ × ShardedPermutation)) : Prop :=
  ∀ h ∈ handed, h.2.size = h.1

theorem serve_fits {m : PermutationManager} (hfits : m.Fits) (numParties : ℕ) (request : Request) :
    (∃ handed m', serve numParties m request = .ok (handed, m') ∧ m'.Fits ∧
      (HandedFit handed ↔ PairFits numParties request m)) ∨
    (∃ failure, serve numParties m request = .error failure ∧ failure ≠ .emptyQueue ∧
      PairFits numParties request m) := by
  -- a pair that is served in the size it is asked for
  have hpair : ∀ size, Serves (getNextPair numParties size m) (⟨size⟩, ⟨size⟩) →
      PairFits numParties (.getNextPair size) m →
      (∃ handed m', serve numParties m (.getNextPair size) = .ok (handed, m') ∧ m'.Fits ∧
        (HandedFit handed ↔ PairFits numParties (.getNextPair size) m)) ∨
      (∃ failure, serve numParties m (.getNextPair size) = .error failure ∧ failure ≠ .emptyQueue ∧
        PairFits numParties (.getNextPair size) m) := by
    rintro size (⟨m', hserved, hfits'⟩ | ⟨failure, hrefused, hne⟩) hcond
    · exact .inl ⟨[(size, ⟨size⟩), (size, ⟨size⟩)], m', by rw [serve, hserved]; rfl, hfits',
        iff_of_true (by simp [HandedFit]) hcond⟩
    · exact .inr ⟨failure, by rw [serve, hrefused]; rfl, hne, hcond⟩
  cases request with
  | reserve size perms pairs =>
      cases hreserve : reserve numParties size perms pairs m with
      | error failure =>
          refine .inr ⟨failure, by rw [serve, hreserve]; rfl, ?_, trivial⟩
          rintro rfl
          exact reserve_ne_emptyQueue hreserve
      | ok m' =>
          exact .inl ⟨[], m', by rw [serve, hreserve]; rfl, hfits.reserve hreserve,
            iff_of_true (by simp [HandedFit]) trivial⟩
  | getNext size =>
      rcases getNext_serves hfits numParties size with ⟨m', hserved, hfits'⟩ | ⟨failure, hrefused, hne⟩
      · exact .inl ⟨[(size, ⟨size⟩)], m', by rw [serve, hserved]; rfl, hfits',
          iff_of_true (by simp [HandedFit]) trivial⟩
      · exact .inr ⟨failure, by rw [serve, hrefused]; rfl, hne, trivial⟩
  | getNextPair size =>
      by_cases hparties : numParties = 2
      · subst hparties
        by_cases hpairs : m.pairQueue = []
        · exact hpair size (getNextPair_generated hfits hpairs size) fun _ => .inl hpairs
        · exact .inl ⟨[(size, ⟨m.storedSize⟩), (size, ⟨m.storedSize⟩)], _,
            by rw [serve, getNextPair_stored hfits hpairs]; rfl,
            hfits.pairTail, by simp [HandedFit, PairFits, hpairs]⟩
      · exact hpair size (getNextPair_copied hfits hparties size) fun htwo => absurd htwo hparties

theorem run_fits (numParties : ℕ) (requests : List Request) {m : PermutationManager}
    (hfits : m.Fits) :
    (HandedFit (run numParties m requests).1 ↔
      Along numParties (PairFits numParties) m requests) ∧
    (run numParties m requests).2 ≠ .error .emptyQueue ∧
    ∀ m', (run numParties m requests).2 = .ok m' → m'.Fits := by
  induction requests generalizing m with
  | nil => exact ⟨by simp [run, HandedFit, Along], by simp [run], by simp [run, hfits]⟩
  | cons request rest ih =>
      rcases serve_fits hfits numParties request with ⟨handed, m', hserved, hfits', hhanded⟩ |
        ⟨failure, hrefused, hne, hpair⟩
      · obtain ⟨hrest, hnonempty, hlast⟩ := ih hfits'
        have hsplit : HandedFit (handed ++ (run numParties m' rest).1) ↔
            HandedFit handed ∧ HandedFit (run numParties m' rest).1 := by
          simp [HandedFit, or_imp, forall_and]
        refine ⟨?_, by simpa [run, hserved] using hnonempty, by simpa [run, hserved] using hlast⟩
        simp only [run, hserved, Along, Except.ok.injEq, Prod.mk.injEq]
        rw [hsplit, hhanded, hrest]
        constructor
        · rintro ⟨hfirst, hlater⟩
          exact ⟨hfirst, by rintro _ _ ⟨rfl, rfl⟩; exact hlater⟩
        · rintro ⟨hfirst, hlater⟩
          exact ⟨hfirst, hlater _ _ ⟨rfl, rfl⟩⟩
      · refine ⟨?_, by simpa [run, hrefused] using hne, by simp [run, hrefused]⟩
        simp [run, hrefused, Along, HandedFit, hpair]

theorem Reachable.fits {numParties : ℕ} {m : PermutationManager} (hreach : Reachable numParties m) :
    m.Fits := by
  obtain ⟨history, hrun⟩ := hreach
  exact (run_fits numParties history new_fits).2.2 m hrun

/-- No queue is ever popped while empty, and what is handed out fits its request as long as, in 2PC,
pairs are asked for in the size of the stored ones. -/
theorem handedOut_fit_iff (numParties : ℕ) (history : List Request) :
    (HandedFit (run numParties new history).1 ∧
      (run numParties new history).2 ≠ .error .emptyQueue) ↔
    Along numParties (PairFits numParties) new history := by
  obtain ⟨hhanded, hnonempty, -⟩ := run_fits numParties history new_fits
  rw [hhanded]
  exact and_iff_left hnonempty

/-- Two parties reserve a pair for four elements, then ask for one for eight. -/
theorem stalePair_handedOut :
    ¬ (HandedFit (run 2 new [.reserve 4 0 1, .getNextPair 8]).1 ∧
      (run 2 new [.reserve 4 0 1, .getNextPair 8]).2 ≠ .error .emptyQueue) := by
  intro h
  have hfour : (8, (⟨4⟩ : ShardedPermutation)) ∈
      (run 2 new [.reserve 4 0 1, .getNextPair 8]).1 := by decide
  exact absurd (h.1 _ hfour) (by decide)

/-! ### What a sort consumes -/

/-- Queues of these lengths both cover what is asked of them, or they both lack some of it; a queue
that nothing is asked of does not count. -/
def Unmixed (stored storedPairs numPermutations numPairs : ℕ) : Prop :=
  (numPermutations ≤ stored ∧ numPairs ≤ storedPairs) ∨
    ((stored < numPermutations ∨ numPermutations = 0) ∧ (storedPairs < numPairs ∨ numPairs = 0))

/-- There is nothing to generate, or the `int` holds the number to generate and there is a mask. -/
def Generates (size stored storedPairs numPermutations numPairs : ℕ) : Prop :=
  (numPermutations ≤ stored ∧ numPairs ≤ storedPairs) ∨
    (size < 2 ^ 31 ∧ missing numPermutations stored + 2 * missing numPairs storedPairs < 2 ^ 31)

section TopUp

variable {size p q : ℕ} {m : PermutationManager}

theorem reserve_two (hsize : m.storedSize = size)
    (hgenerates : Generates size m.queue.length m.pairQueue.length p q) :
    reserve 2 size p q m = .ok (if p ≤ m.queue.length ∧ q ≤ m.pairQueue.length then m
      else topped size (missing p m.queue.length) (missing q m.pairQueue.length) m) := by
  have hkept := discard_same hsize
  split
  case isTrue hcovered =>
    rw [reserve_covered (by rw [hkept]; exact hcovered.1) (by rw [hkept]; exact hcovered.2), hkept]
  case isFalse hlacking =>
    obtain ⟨hmask, hint⟩ := hgenerates.resolve_left hlacking
    refine reserve_eq hmask ?_ hint (by rwa [hkept, individual_two, paired_two])
    rw [lacks, hkept, individual_two, paired_two]

/-- The entries a queue already holds stay at its front, and it never falls short of the request. -/
theorem reserve_extends (hsize : m.storedSize = size)
    (hgenerates : Generates size m.queue.length m.pairQueue.length p q) :
    ∃ m', reserve 2 size p q m = .ok m' ∧ m'.storedSize = size ∧ m.queue <+: m'.queue ∧
      m.pairQueue <+: m'.pairQueue ∧ max m.queue.length p ≤ m'.queue.length ∧
      max m.pairQueue.length q ≤ m'.pairQueue.length ∧
      (m'.queue.length = max m.queue.length p ∧ m'.pairQueue.length = max m.pairQueue.length q ↔
        Unmixed m.queue.length m.pairQueue.length p q) := by
  refine ⟨_, reserve_two hsize hgenerates, ?_⟩
  split
  case isTrue hcovered =>
    exact ⟨hsize, List.prefix_refl _, List.prefix_refl _, by omega, by omega,
      iff_of_true ⟨by omega, by omega⟩ (.inl hcovered)⟩
  case isFalse hlacking =>
    have hkept := discard_same hsize
    refine ⟨rfl, ?_, ?_, ?_, ?_, ?_⟩
    · rw [topped, hkept]
      exact List.prefix_append _ _
    · rw [topped, hkept]
      exact List.prefix_append _ _
    all_goals simp only [topped, hkept, List.length_append, List.length_replicate, missing, Unmixed]
    · split <;> omega
    · split <;> omega
    · split <;> split <;> omega

end TopUp

/-- Requests of one size for `p` permutations and `q` pairs; those that reserve ask for no more than is
still to be taken. -/
inductive Consumes (size : ℕ) : ℕ → ℕ → List Request → Prop where
  | done : Consumes size 0 0 []
  | next {p q : ℕ} {rest : List Request} (hrest : Consumes size p q rest) :
      Consumes size (p + 1) q (.getNext size :: rest)
  | pair {p q : ℕ} {rest : List Request} (hrest : Consumes size p q rest) :
      Consumes size p (q + 1) (.getNextPair size :: rest)
  | reserve {p q p' q' : ℕ} {rest : List Request} (hp : p' ≤ p) (hq : q' ≤ q)
      (hrest : Consumes size p q rest) : Consumes size p q (.reserve size p' q' :: rest)

/-- A request that finds its queue empty, or generates anything, is not stocked. -/
def Stocked (numParties : ℕ) : Request → PermutationManager → Prop
  | .reserve size perms pairs, m => reserve numParties size perms pairs m = .ok m
  | .getNext _, m => m.queue ≠ []
  | .getNextPair _, m => if numParties = 2 then m.pairQueue ≠ [] else m.queue ≠ []

theorem run_cons {numParties : ℕ} {m m' : PermutationManager} {request : Request}
    {handed : List (ℕ × ShardedPermutation)} (rest : List Request)
    (hserve : serve numParties m request = .ok (handed, m')) :
    (run numParties m (request :: rest)).2 = (run numParties m' rest).2 := by
  rw [run, hserve]

theorem along_cons {numParties : ℕ} {cond : Request → PermutationManager → Prop}
    {m m' : PermutationManager} {request : Request} {handed : List (ℕ × ShardedPermutation)}
    {rest : List Request} (hserve : serve numParties m request = .ok (handed, m')) :
    Along numParties cond m (request :: rest) ↔ cond request m ∧ Along numParties cond m' rest := by
  rw [Along, hserve]
  refine and_congr_right fun _ => ⟨fun h => h _ _ rfl, ?_⟩
  rintro hrest _ _ ⟨rfl, rfl⟩
  exact hrest

theorem run_append {numParties : ℕ} {m m' : PermutationManager} {first : List Request}
    (rest : List Request) (hfirst : (run numParties m first).2 = .ok m') :
    (run numParties m (first ++ rest)).2 = (run numParties m' rest).2 := by
  induction first generalizing m with
  | nil =>
      rw [run, Except.ok.injEq] at hfirst
      rw [hfirst, List.nil_append]
  | cons request first ih =>
      cases hserve : serve numParties m request with
      | error failure => simp [run, hserve] at hfirst
      | ok served =>
          rw [List.cons_append, run_cons _ hserve]
          rw [run_cons _ hserve] at hfirst
          exact ih hfirst

/-- The individual permutations taken for `p` of them and `q` pairs. -/
def taken (numParties p q : ℕ) : ℕ := if numParties = 2 then p else p + q

@[simp] theorem taken_two (p q : ℕ) : taken 2 p q = p := rfl

theorem taken_of_ne {numParties : ℕ} (hparties : numParties ≠ 2) (p q : ℕ) :
    taken numParties p q = p + q := if_neg hparties

theorem individual_le_taken (numParties p q : ℕ) : individual numParties p q ≤ taken numParties p q := by
  unfold individual taken sizeAdd
  split
  · exact le_rfl
  · split <;> omega

/-- What is consumed comes off the front of the queues, and nothing is generated. -/
theorem run_consumes {numParties size p q : ℕ} {requests : List Request}
    (hconsumes : Consumes size p q requests) {m : PermutationManager} (hfits : m.Fits)
    (hsize : m.storedSize = size) (hp : taken numParties p q ≤ m.queue.length)
    (hq : paired numParties q ≤ m.pairQueue.length) :
    (run numParties m requests).2 = .ok { m with
        queue := m.queue.drop (taken numParties p q)
        pairQueue := m.pairQueue.drop (paired numParties q) } ∧
      Along numParties (Stocked numParties) m requests := by
  induction hconsumes generalizing m with
  | done => exact ⟨by simp [run, taken, paired], trivial⟩
  | @next p q rest _ ih =>
      have hsucc : taken numParties (p + 1) q = taken numParties p q + 1 := by
        unfold taken
        split <;> omega
      rw [hsucc] at hp ⊢
      have hqueue : m.queue ≠ [] := by
        rintro hnil
        simp [hnil] at hp
      have hserve : serve numParties m (.getNext size) =
          .ok ([(size, ⟨size⟩)], { m with queue := m.queue.tail }) := by
        simp [serve, getNext_stored hfits hsize hqueue, bind, Except.bind, pure, Except.pure]
      obtain ⟨hrun, hstocked⟩ := ih hfits.tail hsize (by rw [List.length_tail]; omega) hq
      rw [run_cons _ hserve, along_cons hserve, hrun]
      exact ⟨by simp, hqueue, hstocked⟩
  | @pair p q rest _ ih =>
      by_cases hparties : numParties = 2
      · subst hparties
        rw [paired_two] at hq ⊢
        have hpairs : m.pairQueue ≠ [] := by
          rintro hnil
          simp [hnil] at hq
        have hserve : serve 2 m (.getNextPair size) =
            .ok ([(size, ⟨size⟩), (size, ⟨size⟩)], { m with pairQueue := m.pairQueue.tail }) := by
          simp [serve, getNextPair_stored hfits hpairs, hsize, bind, Except.bind, pure, Except.pure]
        obtain ⟨hrun, hstocked⟩ := ih hfits.pairTail hsize hp
          (by rw [List.length_tail, paired_two]; omega)
        rw [run_cons _ hserve, along_cons hserve, hrun]
        exact ⟨by simp, by simpa [Stocked] using hpairs, hstocked⟩
      · rw [taken_of_ne hparties, ← Nat.add_assoc] at hp ⊢
        rw [paired_of_ne hparties]
        have hqueue : m.queue ≠ [] := by
          rintro hnil
          simp [hnil] at hp
        obtain ⟨perm, tail, hcons⟩ := List.exists_cons_of_ne_nil hqueue
        have hperm : perm = ⟨size⟩ := by rw [hfits.queue perm (by simp [hcons]), hsize]
        have hserve : serve numParties m (.getNextPair size) =
            .ok ([(size, ⟨size⟩), (size, ⟨size⟩)], { m with queue := m.queue.tail }) := by
          simp [serve, getNextPair, hparties, hcons, hperm, bind, Except.bind, pure, Except.pure]
        obtain ⟨hrun, hstocked⟩ := ih hfits.tail hsize
          (by rw [List.length_tail, taken_of_ne hparties]; omega)
          (by rw [paired_of_ne hparties]; omega)
        rw [run_cons _ hserve, along_cons hserve, hrun, taken_of_ne hparties,
          paired_of_ne hparties]
        exact ⟨by simp, by simpa [Stocked, hparties] using hqueue, hstocked⟩
  | @reserve p q p' q' rest hp' hq' _ ih =>
      have hkept := discard_same hsize
      have hless : individual numParties p' q' ≤ taken numParties p q ∧
          paired numParties q' ≤ paired numParties q := by
        refine ⟨(individual_le_taken numParties p' q').trans ?_, ?_⟩
        · unfold taken
          split <;> omega
        · unfold paired
          split <;> omega
      have hcovered : PermutationManager.reserve numParties size p' q' m = .ok m := by
        rw [reserve_covered (by rw [hkept]; omega) (by rw [hkept]; omega), hkept]
      have hserve : serve numParties m (.reserve size p' q') = .ok ([], m) := by
        rw [serve, hcovered]
        rfl
      obtain ⟨hrun, hstocked⟩ := ih hfits hsize hp hq
      rw [run_cons _ hserve, along_cons hserve, hrun]
      exact ⟨rfl, hcovered, hstocked⟩

/-- A sort: what it reserves, then its requests. -/
structure SortCall where
  perms : ℕ
  pairs : ℕ
  requests : List Request

def SortCall.trace (size : ℕ) (call : SortCall) : List Request :=
  .reserve size call.perms call.pairs :: call.requests

/-- Every reservation of a sequence of sorts generates what is missing, and none finds one queue covered
and the other lacking. -/
def AllReserved (size : ℕ) : ℕ → ℕ → List SortCall → Prop
  | _, _, [] => True
  | stored, storedPairs, call :: calls => Generates size stored storedPairs call.perms call.pairs ∧
      Unmixed stored storedPairs call.perms call.pairs ∧
      AllReserved size (stored - call.perms) (storedPairs - call.pairs) calls

/-- Sorts that start from empty queues leave them empty, so nothing is ever covered. -/
theorem allReserved_empty {size : ℕ} {calls : List SortCall}
    (hcalls : ∀ call ∈ calls, Generates size 0 0 call.perms call.pairs) : AllReserved size 0 0 calls := by
  induction calls with
  | nil => trivial
  | cons call calls ih =>
      refine ⟨hcalls call List.mem_cons_self, ?_, ?_⟩
      · unfold Unmixed
        omega
      · rw [Nat.zero_sub, Nat.zero_sub]
        exact ih fun c hc => hcalls c (List.mem_cons_of_mem call hc)

theorem run_sortCalls {size : ℕ} (calls : List SortCall)
    (hcalls : ∀ call ∈ calls, Consumes size call.perms call.pairs call.requests)
    {m : PermutationManager} (hfits : m.Fits) (hsize : m.storedSize = size)
    (hreserved : AllReserved size m.queue.length m.pairQueue.length calls) :
    ∃ m', (run 2 m (calls.flatMap (SortCall.trace size))).2 = .ok m' ∧
      m'.queue.length = m.queue.length - (calls.map SortCall.perms).sum ∧
      m'.pairQueue.length = m.pairQueue.length - (calls.map SortCall.pairs).sum := by
  induction calls generalizing m with
  | nil => exact ⟨m, by simp [run], by simp, by simp⟩
  | cons call calls ih =>
      obtain ⟨hgenerates, hunmixed, hlater⟩ := hreserved
      obtain ⟨reserved, hreserve, hstored, -, -, -, -, hexact⟩ := reserve_extends hsize hgenerates
      obtain ⟨hqueue, hpairQueue⟩ := hexact.2 hunmixed
      have hfits' : reserved.Fits := hfits.reserve hreserve
      have hrun := (@run_consumes 2 _ _ _ _ (hcalls call List.mem_cons_self) _ hfits' hstored
        (by rw [taken_two]; omega) (by rw [paired_two]; omega)).1
      have hserve : serve 2 m (.reserve size call.perms call.pairs) = .ok ([], reserved) := by
        rw [serve, hreserve]
        rfl
      have htrace : (run 2 m (call.trace size)).2 = .ok { reserved with
          queue := reserved.queue.drop call.perms
          pairQueue := reserved.pairQueue.drop call.pairs } := (run_cons _ hserve).trans hrun
      have hdropped : Fits { reserved with
          queue := reserved.queue.drop call.perms
          pairQueue := reserved.pairQueue.drop call.pairs } :=
        ⟨fun perm hperm => hfits'.queue perm (List.mem_of_mem_drop hperm),
          fun pair hpair => hfits'.pairs pair (List.mem_of_mem_drop hpair)⟩
      have hleft : reserved.queue.length - call.perms = m.queue.length - call.perms := by omega
      have hpairsLeft : reserved.pairQueue.length - call.pairs =
          m.pairQueue.length - call.pairs := by omega
      obtain ⟨m', hlast, hlength, hpairLength⟩ := ih (fun c hc => hcalls c (List.mem_cons_of_mem call hc))
        hdropped hstored (by simpa only [List.length_drop, hleft, hpairsLeft] using hlater)
      refine ⟨m', ?_, ?_, ?_⟩
      · rw [List.flatMap_cons, run_append _ htrace, hlast]
      · rw [hlength, List.length_drop, hleft, List.map_cons, List.sum_cons]
        omega
      · rw [hpairLength, List.length_drop, hpairsLeft, List.map_cons, List.sum_cons]
        omega

/-- What `reserve` does to queues of the requested size, and what is left of them after sorts that
consume exactly what they reserve. -/
theorem reserve_topsUp {m : PermutationManager} (hreach : Reachable 2 m) {size : ℕ}
    (hsize : m.storedSize = size) :
    (∀ p q, Generates size m.queue.length m.pairQueue.length p q →
      ∃ m', reserve 2 size p q m = .ok m' ∧ m.queue <+: m'.queue ∧ m.pairQueue <+: m'.pairQueue ∧
        max m.queue.length p ≤ m'.queue.length ∧ max m.pairQueue.length q ≤ m'.pairQueue.length ∧
        (Unmixed m.queue.length m.pairQueue.length p q →
          m'.queue.length = max m.queue.length p ∧ m'.pairQueue.length = max m.pairQueue.length q)) ∧
    ∀ calls : List SortCall,
      (∀ call ∈ calls, Consumes size call.perms call.pairs call.requests) →
      (m.queue = [] ∧ m.pairQueue = [] ∧ (∀ call ∈ calls, Generates size 0 0 call.perms call.pairs) ∨
        AllReserved size m.queue.length m.pairQueue.length calls) →
      ∃ m', (run 2 m (calls.flatMap (SortCall.trace size))).2 = .ok m' ∧
        m'.queue.length = m.queue.length - (calls.map SortCall.perms).sum ∧
        m'.pairQueue.length = m.pairQueue.length - (calls.map SortCall.pairs).sum := by
  refine ⟨fun p q hgenerates => ?_, fun calls hcalls hstart => ?_⟩
  · obtain ⟨m', hreserve, -, hfront, hpairFront, hmax, hpairMax, hexact⟩ :=
      reserve_extends hsize hgenerates
    exact ⟨m', hreserve, hfront, hpairFront, hmax, hpairMax, hexact.2⟩
  · apply run_sortCalls calls hcalls hreach.fits hsize
    rcases hstart with ⟨hqueue, hpairQueue, hgenerates⟩ | hreserved
    · rw [hqueue, hpairQueue]
      exact allReserved_empty hgenerates
    · exact hreserved

/-- One stored permutation, and two sorts that take permutations and pairs. -/
theorem reserve_topsUp_example :
    Reachable 2 { queue := [⟨4⟩], pairQueue := [], storedSize := 4 } ∧
    ∃ m', (run 2 { queue := [⟨4⟩], pairQueue := [], storedSize := 4 }
        [.reserve 4 2 1, .getNext 4, .getNextPair 4, .getNext 4, .reserve 4 1 2, .getNextPair 4,
          .getNext 4, .getNextPair 4]).2 = .ok m' ∧
      m'.queue.length = 0 ∧ m'.pairQueue.length = 0 := by
  have hreach : Reachable 2 { queue := [⟨4⟩], pairQueue := [], storedSize := 4 } :=
    ⟨[.reserve 4 1 0], by decide⟩
  refine ⟨hreach, ?_⟩
  exact (reserve_topsUp hreach rfl).2
    [⟨2, 1, [.getNext 4, .getNextPair 4, .getNext 4]⟩, ⟨1, 2, [.getNextPair 4, .getNext 4, .getNextPair 4]⟩]
    (by simpa using ⟨.next (.pair (.next .done)), .pair (.next (.pair .done))⟩)
    (.inr (by simp [AllReserved, Generates, Unmixed, missing]))

/-- With one permutation stored, a request for one permutation and one pair generates the permutation
again, and a sort that takes one permutation leaves none. -/
theorem reserve_overfills :
    (¬ ∀ (m : PermutationManager) (size p q : ℕ), Reachable 2 m → m.storedSize = size →
      ∃ m', reserve 2 size p q m = .ok m' ∧ m'.queue.length = max m.queue.length p ∧
        m'.pairQueue.length = max m.pairQueue.length q) ∧
    ¬ ∀ (m : PermutationManager) (size : ℕ), Reachable 2 m → m.storedSize = size →
      ∀ calls : List SortCall,
        (∀ call ∈ calls, Consumes size call.perms call.pairs call.requests) →
        ∃ m', (run 2 m (calls.flatMap (SortCall.trace size))).2 = .ok m' ∧
          m'.queue.length = m.queue.length ∧ m'.pairQueue.length = m.pairQueue.length := by
  have hreach : Reachable 2 { queue := [⟨4⟩], pairQueue := [], storedSize := 4 } :=
    ⟨[.reserve 4 1 0], by decide⟩
  constructor
  · intro h
    obtain ⟨m', hreserve, hqueue, -⟩ := h _ 4 1 1 hreach rfl
    have hfilled : reserve 2 4 1 1 { queue := [⟨4⟩], pairQueue := [], storedSize := 4 } =
        .ok { queue := [⟨4⟩, ⟨4⟩], pairQueue := [(⟨4⟩, ⟨4⟩)], storedSize := 4 } := by decide
    rw [hfilled, Except.ok.injEq] at hreserve
    subst hreserve
    exact absurd hqueue (by decide)
  · intro h
    obtain ⟨m', hrun, hqueue, -⟩ := h _ 4 hreach rfl [⟨1, 0, [.getNext 4]⟩]
      (by simpa using .next .done)
    have hempty : (run 2 { queue := [⟨4⟩], pairQueue := [], storedSize := 4 }
        ([⟨1, 0, [.getNext 4]⟩].flatMap (SortCall.trace 4))).2 =
      .ok { queue := [], pairQueue := [], storedSize := 4 } := by decide
    rw [hempty, Except.ok.injEq] at hrun
    subst hrun
    exact absurd hqueue (by decide)

end PermutationManager

end CryptDough
