import Mathlib.Data.List.Basic
import Mathlib.Data.List.Forall2
import Mathlib.Data.List.Nodup
import Mathlib.Data.List.Range
import Mathlib.Data.List.Perm.Basic

/-! The pool in front of a generator of correlations: a queue for each component of a correlation, which
`reserve` fills and `getNext` empties from the front. A request for more than the pool holds goes to the
generator instead. -/

namespace CryptDough

/-- A vector for each component of the correlations. -/
abbrev CorrelationBatch {last : ℕ} (Ts : Fin (last + 1) → Type) : Type := ∀ i, List (Ts i)

structure PooledGenerator {last : ℕ} (Ts : Fin (last + 1) → Type) (σ : Type) where
  generator : σ
  queueTuple : ∀ i, List (Ts i)

namespace PooledGenerator

inductive Call
  | reserve (count : ℕ)
  | getNext (count : ℕ)
deriving DecidableEq

section Source

variable {last : ℕ} {Ts : Fin (last + 1) → Type} {σ : Type}
  (getNextFunc : σ → ℕ → CorrelationBatch Ts × σ)

def addToQueue (p : PooledGenerator Ts σ) (batch : CorrelationBatch Ts) : PooledGenerator Ts σ :=
  { p with queueTuple := fun i => p.queueTuple i ++ batch i }

def reserve (p : PooledGenerator Ts σ) (count : ℕ) : PooledGenerator Ts σ :=
  addToQueue { p with generator := (getNextFunc p.generator count).2 } (getNextFunc p.generator count).1

/-- Queues of different sizes throw. -/
def size (p : PooledGenerator Ts σ) : Option ℕ :=
  let first := p.queueTuple ⟨0, last.succ_pos⟩
  if ∀ i, (p.queueTuple i).length = first.length then some first.length else none

/-- The first `count` elements of each queue, which have to be there, are copied and erased. -/
def getNextImpl (p : PooledGenerator Ts σ) (count : ℕ) : Option
    (CorrelationBatch Ts × PooledGenerator Ts σ) :=
  if ∀ i, count ≤ (p.queueTuple i).length then
    some (fun i => (p.queueTuple i).take count,
      { p with queueTuple := fun i => (p.queueTuple i).drop count })
  else none

def getNext (p : PooledGenerator Ts σ) (count : ℕ) :
    Option (CorrelationBatch Ts × PooledGenerator Ts σ) := do
  let currentSize ← p.size
  if currentSize < count then
    pure ((getNextFunc p.generator count).1, { p with generator := (getNextFunc p.generator count).2 })
  else p.getNextImpl count

/-- The tuples returned so far, and the pool. -/
def step (s : List (CorrelationBatch Ts) × PooledGenerator Ts σ) :
    Call → Option (List (CorrelationBatch Ts) × PooledGenerator Ts σ)
  | .reserve count => some (s.1, s.2.reserve getNextFunc count)
  | .getNext count => do
      let (batch, p) ← s.2.getNext getNextFunc count
      pure (s.1 ++ [batch], p)

def run (g : σ) (calls : List Call) : Option (List (CorrelationBatch Ts) × PooledGenerator Ts σ) :=
  calls.foldlM (step getNextFunc) ([], ⟨g, fun _ => []⟩)

end Source

/-- A pool of numbers, which stand for the correlations in the order of their generation. -/
structure Ledger where
  generated : ℕ
  requests : List ℕ
  reserved : List ℕ
  pool : List ℕ
  returned : List (List ℕ)

namespace Ledger

def empty : Ledger := ⟨0, [], [], [], []⟩

def step (l : Ledger) : Call → Ledger
  | .reserve count =>
      { l with
        generated := l.generated + count
        requests := l.requests ++ [count]
        reserved := l.reserved ++ List.range' l.generated count
        pool := l.pool ++ List.range' l.generated count }
  | .getNext count =>
      if l.pool.length < count then
        { l with
          generated := l.generated + count
          requests := l.requests ++ [count]
          returned := l.returned ++ [List.range' l.generated count] }
      else
        { l with
          pool := l.pool.drop count
          returned := l.returned ++ [l.pool.take count] }

def run (calls : List Call) : Ledger := calls.foldl step empty

/-- Every correlation is in the pool or returned, once, and both ends of the pool keep the order. -/
structure Sound (l : Ledger) : Prop where
  accounted : (l.returned.flatten ++ l.pool).Perm (List.range l.generated)
  fifo : ∃ taken, l.reserved = taken ++ l.pool ∧ ∀ n ∈ taken, n ∈ l.returned.flatten
  reserved_ordered : l.reserved.Pairwise (· < ·)
  reserved_lt : ∀ n ∈ l.reserved, n < l.generated
  returned_ordered : ∀ ids ∈ l.returned, ids.Pairwise (· < ·)

theorem sound_empty : empty.Sound where
  accounted := List.Perm.refl _
  fifo := ⟨[], rfl, fun _ hn => absurd hn List.not_mem_nil⟩
  reserved_ordered := List.Pairwise.nil
  reserved_lt := fun _ hn => absurd hn List.not_mem_nil
  returned_ordered := fun _ hids => absurd hids List.not_mem_nil

variable {l : Ledger} {count : ℕ}

theorem range_add_eq (m n : ℕ) : List.range (m + n) = List.range m ++ List.range' m n := by
  rw [List.range_eq_range', List.range_eq_range', ← List.range'_append_1, Nat.zero_add]

theorem Sound.reserve (h : l.Sound) (count : ℕ) : (l.step (.reserve count)).Sound where
  accounted := by
    rw [step, range_add_eq, ← List.append_assoc]
    exact h.accounted.append_right _
  fifo := by
    obtain ⟨taken, hreserved, htaken⟩ := h.fifo
    refine ⟨taken, ?_, htaken⟩
    rw [step, hreserved, List.append_assoc]
  reserved_ordered := by
    refine List.pairwise_append.mpr ⟨h.reserved_ordered, List.pairwise_lt_range', fun n hn n' hn' => ?_⟩
    have hlt := h.reserved_lt n hn
    have hle := (List.mem_range'_1.mp hn').1
    omega
  reserved_lt := by
    intro n hn
    rw [step] at hn ⊢
    rcases List.mem_append.mp hn with hold | hnew
    · exact Nat.lt_add_right count (h.reserved_lt n hold)
    · exact (List.mem_range'_1.mp hnew).2
  returned_ordered := h.returned_ordered

/-- A request that goes to the generator. -/
theorem Sound.bypass (h : l.Sound) (hfew : l.pool.length < count) : (l.step (.getNext count)).Sound := by
  rw [step, if_pos hfew]
  refine ⟨?_, ?_, h.reserved_ordered, fun n hn => Nat.lt_add_right count (h.reserved_lt n hn), ?_⟩
  · rw [range_add_eq, List.flatten_append, List.flatten_singleton, List.append_assoc]
    apply (List.Perm.append_left _ List.perm_append_comm).trans
    rw [← List.append_assoc]
    exact h.accounted.append_right _
  · obtain ⟨taken, hreserved, htaken⟩ := h.fifo
    refine ⟨taken, hreserved, fun n hn => ?_⟩
    rw [List.flatten_append]
    exact List.mem_append_left _ (htaken n hn)
  · intro ids hids
    rcases List.mem_append.mp hids with hold | hnew
    · exact h.returned_ordered ids hold
    · rw [List.mem_singleton.mp hnew]
      exact List.pairwise_lt_range'

theorem Sound.take (h : l.Sound) (henough : ¬ l.pool.length < count) : (l.step (.getNext count)).Sound := by
  rw [step, if_neg henough]
  obtain ⟨taken, hreserved, htaken⟩ := h.fifo
  refine ⟨?_, ⟨taken ++ l.pool.take count, ?_, fun n hn => ?_⟩, h.reserved_ordered, h.reserved_lt, ?_⟩
  · rw [List.flatten_append, List.flatten_singleton, List.append_assoc, List.take_append_drop]
    exact h.accounted
  · rw [List.append_assoc, List.take_append_drop]
    exact hreserved
  · rw [List.flatten_append, List.flatten_singleton]
    rcases List.mem_append.mp hn with hold | hnew
    · exact List.mem_append_left _ (htaken n hold)
    · exact List.mem_append_right _ hnew
  · intro ids hids
    rcases List.mem_append.mp hids with hold | hnew
    · exact h.returned_ordered ids hold
    · have hordered := h.reserved_ordered
      rw [hreserved] at hordered
      rw [List.mem_singleton.mp hnew]
      exact (List.pairwise_append.mp hordered).2.1.sublist (List.take_sublist _ _)

theorem Sound.step (h : l.Sound) (call : Call) : (l.step call).Sound := by
  cases call with
  | reserve count => exact h.reserve count
  | getNext count =>
      by_cases hfew : l.pool.length < count
      · exact h.bypass hfew
      · exact h.take hfew

theorem Sound.foldl (h : l.Sound) (calls : List Call) : (calls.foldl Ledger.step l).Sound := by
  induction calls generalizing l with
  | nil => exact h
  | cons call calls ih => exact ih (h.step call)

theorem sound_run (calls : List Call) : (run calls).Sound := sound_empty.foldl calls

/-- No correlation is returned twice, and none that is still in the pool. -/
theorem Sound.nodup (h : l.Sound) : (l.returned.flatten ++ l.pool).Nodup :=
  h.accounted.nodup_iff.mpr List.nodup_range

theorem Sound.returned_lt (h : l.Sound) {ids : List ℕ} (hids : ids ∈ l.returned) {n : ℕ} (hn : n ∈ ids) :
    n < l.generated :=
  List.mem_range.mp (h.accounted.mem_iff.mp
    (List.mem_append_left _ (List.mem_flatten.mpr ⟨ids, hids, hn⟩)))

theorem Sound.pool_lt (h : l.Sound) {n : ℕ} (hn : n ∈ l.pool) : n < l.generated :=
  List.mem_range.mp (h.accounted.mem_iff.mp (List.mem_append_right _ hn))

/-- The pool is what was reserved and is not yet returned. -/
theorem Sound.pool_eq (h : l.Sound) : l.pool = l.reserved.filter (· ∉ l.returned.flatten) := by
  obtain ⟨taken, hreserved, htaken⟩ := h.fifo
  have hdisjoint := (List.nodup_append.mp h.nodup).2.2
  have hfront : taken.filter (· ∉ l.returned.flatten) = [] :=
    List.filter_eq_nil_iff.mpr fun n hn hnot => (of_decide_eq_true hnot) (htaken n hn)
  have hback : l.pool.filter (· ∉ l.returned.flatten) = l.pool :=
    List.filter_eq_self.mpr fun n hn => decide_eq_true fun hmem => hdisjoint n hmem n hn rfl
  rw [hreserved, List.filter_append, hfront, hback, List.nil_append]

end Ledger

section Refinement

variable {last : ℕ} {Ts : Fin (last + 1) → Type} {σ : Type}
  (getNextFunc : σ → ℕ → CorrelationBatch Ts × σ) (g : σ)

/-- All that the generator produces for some requests, one after the other, and its state after them. -/
def produced (requests : List ℕ) : CorrelationBatch Ts × σ :=
  requests.foldl (fun s count =>
    (fun i => s.1 i ++ (getNextFunc s.2 count).1 i, (getNextFunc s.2 count).2)) (fun _ => [], g)

/-- The components of a batch are those of the correlations with the numbers `ids`, in this order. -/
def ShowsCorrelations (requests : List ℕ) (ids : List ℕ) (batch : CorrelationBatch Ts) : Prop :=
  ∀ i, (batch i).map some = ids.map fun n => ((produced getNextFunc g requests).1 i)[n]?

variable {getNextFunc g}

theorem produced_append (requests : List ℕ) (count : ℕ) :
    produced getNextFunc g (requests ++ [count]) =
      (fun i => (produced getNextFunc g requests).1 i ++
          (getNextFunc (produced getNextFunc g requests).2 count).1 i,
        (getNextFunc (produced getNextFunc g requests).2 count).2) := by
  rw [produced, List.foldl_append]
  rfl

/-- More requests leave the correlations there are as they are. -/
theorem ShowsCorrelations.append {requests ids : List ℕ} {batch : CorrelationBatch Ts}
    (h : ShowsCorrelations getNextFunc g requests ids batch) (count : ℕ)
    (hids : ∀ n ∈ ids, ∀ i, n < ((produced getNextFunc g requests).1 i).length) :
    ShowsCorrelations getNextFunc g (requests ++ [count]) ids batch := by
  intro i
  rw [h i, produced_append]
  refine List.map_congr_left fun n hn => ?_
  rw [List.getElem?_append_left (hids n hn i)]

/-- A batch on its own shows the correlations that its request has produced. -/
theorem showsCorrelations_new {requests : List ℕ} {total : ℕ} (count : ℕ)
    (htotal : ∀ i, ((produced getNextFunc g requests).1 i).length = total)
    (hlength : ∀ s n i, ((getNextFunc s n).1 i).length = n) :
    ShowsCorrelations getNextFunc g (requests ++ [count]) (List.range' total count)
      (getNextFunc (produced getNextFunc g requests).2 count).1 := by
  intro i
  rw [produced_append]
  refine List.ext_getElem? fun j => ?_
  rw [List.getElem?_map, List.getElem?_map]
  rcases Nat.lt_or_ge j count with hj | hj
  · rw [List.getElem?_range' hj, Option.map_some, Nat.one_mul,
      List.getElem?_append_right (by rw [htotal]; omega), htotal, Nat.add_sub_cancel_left,
      List.getElem?_eq_getElem (by rw [hlength]; exact hj)]
    rfl
  · rw [List.getElem?_eq_none (by rw [hlength]; exact hj),
      List.getElem?_eq_none (by rw [List.length_range']; exact hj)]
    rfl

/-- What a run of the pool has in common with the ledger of its calls. -/
structure Follows (getNextFunc : σ → ℕ → CorrelationBatch Ts × σ) (g : σ)
    (s : List (CorrelationBatch Ts) × PooledGenerator Ts σ) (l : Ledger) : Prop where
  generator : s.2.generator = (produced getNextFunc g l.requests).2
  generated : ∀ i, ((produced getNextFunc g l.requests).1 i).length = l.generated
  queues : ShowsCorrelations getNextFunc g l.requests l.pool s.2.queueTuple
  returned : List.Forall₂ (ShowsCorrelations getNextFunc g l.requests) l.returned s.1

namespace Follows

variable {s : List (CorrelationBatch Ts) × PooledGenerator Ts σ} {l : Ledger} {count : ℕ}

theorem length_queue (h : Follows getNextFunc g s l) (i : Fin (last + 1)) :
    (s.2.queueTuple i).length = l.pool.length := by
  have hlength := congrArg List.length (h.queues i)
  rwa [List.length_map, List.length_map] at hlength

theorem size_eq (h : Follows getNextFunc g s l) : s.2.size = some l.pool.length := by
  have hequal : ∀ i, (s.2.queueTuple i).length = (s.2.queueTuple ⟨0, last.succ_pos⟩).length := fun i =>
    (h.length_queue i).trans (h.length_queue _).symm
  rw [size, if_pos hequal, h.length_queue]

/-- Another request to the generator. -/
theorem generated_append (h : Follows getNextFunc g s l)
    (hlength : ∀ s n i, ((getNextFunc s n).1 i).length = n) (count : ℕ) (i : Fin (last + 1)) :
    ((produced getNextFunc g (l.requests ++ [count])).1 i).length = l.generated + count := by
  rw [produced_append, List.length_append, h.generated, hlength]

theorem returned_append (h : Follows getNextFunc g s l) (hsound : l.Sound) (count : ℕ) :
    List.Forall₂ (ShowsCorrelations getNextFunc g (l.requests ++ [count])) l.returned s.1 := by
  refine List.forall₂_iff_get.mpr ⟨h.returned.length_eq, fun k hk hk' => ?_⟩
  have hshows := (List.forall₂_iff_get.mp h.returned).2 k hk hk'
  refine hshows.append count fun n hn i => ?_
  rw [h.generated]
  exact hsound.returned_lt (List.get_mem _ _) hn

theorem queues_append (h : Follows getNextFunc g s l) (hsound : l.Sound) (count : ℕ) :
    ShowsCorrelations getNextFunc g (l.requests ++ [count]) l.pool s.2.queueTuple := by
  refine h.queues.append count fun n hn i => ?_
  rw [h.generated]
  exact hsound.pool_lt hn

theorem reserve (h : Follows getNextFunc g s l) (hsound : l.Sound)
    (hlength : ∀ s n i, ((getNextFunc s n).1 i).length = n) (count : ℕ) :
    Follows getNextFunc g (s.1, s.2.reserve getNextFunc count) (l.step (.reserve count)) where
  generator := by
    rw [Ledger.step, produced_append, ← h.generator]
    rfl
  generated := h.generated_append hlength count
  queues := by
    intro i
    have hold := h.queues_append hsound count i
    have hnew := showsCorrelations_new count h.generated hlength i
    rw [Ledger.step, List.map_append, ← hold, ← hnew, ← List.map_append, ← h.generator]
    rfl
  returned := h.returned_append hsound count

theorem bypass (h : Follows getNextFunc g s l) (hsound : l.Sound)
    (hlength : ∀ s n i, ((getNextFunc s n).1 i).length = n) (hfew : l.pool.length < count) :
    Follows getNextFunc g (s.1 ++ [(getNextFunc s.2.generator count).1],
      { s.2 with generator := (getNextFunc s.2.generator count).2 }) (l.step (.getNext count)) := by
  rw [Ledger.step, if_pos hfew]
  refine ⟨?_, h.generated_append hlength count, h.queues_append hsound count, ?_⟩
  · rw [produced_append, ← h.generator]
  · refine List.rel_append (h.returned_append hsound count) (List.Forall₂.cons ?_ List.Forall₂.nil)
    rw [h.generator]
    exact showsCorrelations_new count h.generated hlength

theorem take (h : Follows getNextFunc g s l) (henough : ¬ l.pool.length < count) :
    Follows getNextFunc g (s.1 ++ [fun i => (s.2.queueTuple i).take count],
      { s.2 with queueTuple := fun i => (s.2.queueTuple i).drop count }) (l.step (.getNext count)) := by
  rw [Ledger.step, if_neg henough]
  refine ⟨h.generator, h.generated, fun i => ?_, ?_⟩
  · rw [List.map_drop, h.queues i, List.map_drop]
  · refine List.rel_append h.returned (List.Forall₂.cons (fun i => ?_) List.Forall₂.nil)
    rw [List.map_take, h.queues i, List.map_take]

theorem step (h : Follows getNextFunc g s l) (hsound : l.Sound)
    (hlength : ∀ s n i, ((getNextFunc s n).1 i).length = n) (call : Call) :
    ∃ s', PooledGenerator.step getNextFunc s call = some s' ∧ Follows getNextFunc g s' (l.step call) := by
  cases call with
  | reserve count => exact ⟨_, rfl, h.reserve hsound hlength count⟩
  | getNext count =>
      by_cases hfew : l.pool.length < count
      · refine ⟨_, ?_, h.bypass hsound hlength hfew⟩
        rw [PooledGenerator.step, getNext, h.size_eq]
        simp only [Option.bind_eq_bind, Option.bind_some, if_pos hfew]
        rfl
      · have henough : ∀ i, count ≤ (s.2.queueTuple i).length := fun i => by
          rw [h.length_queue i]
          omega
        refine ⟨_, ?_, h.take hfew⟩
        rw [PooledGenerator.step, getNext, h.size_eq]
        simp only [Option.bind_eq_bind, Option.bind_some, if_neg hfew, getNextImpl, if_pos henough]
        rfl

theorem foldlM (h : Follows getNextFunc g s l) (hsound : l.Sound)
    (hlength : ∀ s n i, ((getNextFunc s n).1 i).length = n) (calls : List Call) :
    ∃ s', calls.foldlM (PooledGenerator.step getNextFunc) s = some s' ∧
      Follows getNextFunc g s' (calls.foldl Ledger.step l) := by
  induction calls generalizing s l with
  | nil => exact ⟨s, rfl, h⟩
  | cons call calls ih =>
      obtain ⟨s', hstep, hfollows⟩ := h.step hsound hlength call
      obtain ⟨s'', hrun, hend⟩ := ih hfollows (hsound.step call)
      refine ⟨s'', ?_, hend⟩
      rw [List.foldlM_cons, hstep]
      exact hrun

end Follows

theorem follows_empty : Follows getNextFunc g ([], ⟨g, fun _ => []⟩) Ledger.empty :=
  ⟨rfl, fun _ => rfl, fun _ => rfl, List.Forall₂.nil⟩

/-- What a run has handed out and what it keeps, in the numbers of a ledger. -/
structure Accounted (getNextFunc : σ → ℕ → CorrelationBatch Ts × σ) (g : σ) (l : Ledger)
    (outputs : List (CorrelationBatch Ts)) (p : PooledGenerator Ts σ) : Prop where
  even : ∀ i j, (p.queueTuple i).length = (p.queueTuple j).length
  generated : ∀ i, ((produced getNextFunc g l.requests).1 i).length = l.generated
  aligned : List.Forall₂ (ShowsCorrelations getNextFunc g l.requests) l.returned outputs
  ordered : ∀ ids ∈ l.returned, ids.Pairwise (· < ·)
  once : (l.returned.flatten ++ l.pool).Nodup
  pooled : ShowsCorrelations getNextFunc g l.requests l.pool p.queueTuple
  reserved_ordered : l.reserved.Pairwise (· < ·)
  fifo : l.pool = l.reserved.filter (· ∉ l.returned.flatten)

/-- No run of the pool fails, and it hands out what its ledger does: every correlation at most once,
whole and in order. -/
theorem pooled_correlations (hlength : ∀ s n i, ((getNextFunc s n).1 i).length = n) (calls : List Call) :
    ∃ outputs p, run getNextFunc g calls = some (outputs, p) ∧
      Accounted getNextFunc g (Ledger.run calls) outputs p := by
  obtain ⟨⟨outputs, p⟩, hrun, h⟩ := follows_empty.foldlM Ledger.sound_empty hlength calls
  have hsound := Ledger.sound_run calls
  exact ⟨outputs, p, hrun, fun i j => (h.length_queue i).trans (h.length_queue j).symm, h.generated, h.returned,
    hsound.returned_ordered, hsound.nodup, h.queues, hsound.reserved_ordered, hsound.pool_eq⟩

/-- Two components that count the correlations. -/
def countingGenerator (s n : ℕ) : CorrelationBatch (fun _ : Fin 2 => ℕ) × ℕ :=
  (fun i => (List.range' s n).map (2 * · + i), s + n)

theorem pooled_correlations_counting : ∃ outputs p,
    run countingGenerator 0 [.reserve 3, .getNext 2, .getNext 5, .reserve 4, .getNext 4] = some (outputs, p) ∧
      Accounted countingGenerator 0 (Ledger.run [.reserve 3, .getNext 2, .getNext 5, .reserve 4, .getNext 4])
        outputs p :=
  pooled_correlations (fun s n i => by rw [countingGenerator, List.length_map, List.length_range']) _

end Refinement

end PooledGenerator

end CryptDough
