import Mathlib.Data.Fintype.Basic
import Mathlib.Data.Fintype.Card
import Mathlib.Data.Fintype.Option
import Mathlib.Data.List.FinRange
import Mathlib.Logic.Function.Conjugate
import Mathlib.Tactic.Linarith

/-! What threads share. A cyclic barrier lets a fixed number of threads pass phase by phase: a thread
that arrives keeps the phase it arrived in and waits until the barrier is in another one; the last
thread to arrive completes the phase, and may arrive again before the others have left. When the
actions of different threads on a memory commute, a step of any of them leaves the memory that the
threads end in, one after the other, as it is: whatever the order of the steps, the threads end where
they would have ended in turn. -/

namespace CryptDough

/-- The phase, and how many threads have arrived in it. -/
structure Barrier where
  phase : ℕ
  arrived : ℕ
  deriving DecidableEq

namespace Barrier

def start : Barrier := ⟨0, 0⟩

def arrive (expected : ℕ) (b : Barrier) : Barrier :=
  if b.arrived + 1 = expected then ⟨b.phase + 1, 0⟩ else ⟨b.phase, b.arrived + 1⟩

/-- How often a thread has arrived, and whether it has not left yet. -/
structure Visits where
  arrivals : ℕ
  inside : Bool

variable {ι : Type*} [Fintype ι] {b : Barrier} {v : ι → Visits} {t : ι}

/-- Nobody is more than one arrival ahead of the phase, nobody behind it, and only a thread inside the
barrier is ahead. -/
structure Inv (b : Barrier) (v : ι → Visits) : Prop where
  outside : ∀ t, (v t).inside = false → (v t).arrivals = b.phase
  inside : ∀ t, (v t).inside = true → (v t).arrivals = b.phase ∨ (v t).arrivals = b.phase + 1
  counted : b.arrived = (Finset.univ.filter fun t => (v t).arrivals = b.phase + 1).card
  missing : b.arrived < Fintype.card ι

theorem Inv.start [Nonempty ι] : Inv Barrier.start fun _ : ι => ⟨0, false⟩ where
  outside _ _ := rfl
  inside _ h := absurd h Bool.false_ne_true
  counted := by simp [Barrier.start]
  missing := Fintype.card_pos

theorem Inv.arrivals (h : Inv b v) (t : ι) :
    (v t).arrivals = b.phase ∨ (v t).arrivals = b.phase + 1 := by
  cases hin : (v t).inside with
  | false => exact .inl (h.outside t hin)
  | true => exact h.inside t hin

/-- Some thread has not arrived in the phase. -/
theorem Inv.exists_late (h : Inv b v) : ∃ t, (v t).arrivals = b.phase := by
  by_contra hnone
  have hall : (Finset.univ.filter fun t => (v t).arrivals = b.phase + 1) = Finset.univ := by
    refine Finset.filter_true_of_mem fun t _ => (h.arrivals t).resolve_left fun ht => ?_
    exact hnone ⟨t, ht⟩
  have hmissing := h.missing
  rw [h.counted, hall, Finset.card_univ] at hmissing
  exact lt_irrefl _ hmissing

variable [DecidableEq ι]

/-- The threads that have arrived in the phase, after one more has. -/
theorem filter_arrive (hlate : (v t).arrivals = b.phase) :
    (Finset.univ.filter fun u =>
        (Function.update v t ⟨(v t).arrivals + 1, true⟩ u).arrivals = b.phase + 1) =
      insert t (Finset.univ.filter fun u => (v u).arrivals = b.phase + 1) := by
  ext u
  rw [Finset.mem_insert, Finset.mem_filter, Finset.mem_filter]
  by_cases hu : u = t
  · subst hu
    simp [hlate]
  · rw [Function.update_of_ne hu]
    simp [hu]

/-- When the last thread arrives, everybody is one arrival ahead of the phase that ends. -/
theorem Inv.all_arrived (h : Inv b v) (hlate : (v t).arrivals = b.phase)
    (hlast : b.arrived + 1 = Fintype.card ι) (u : ι) :
    (Function.update v t ⟨(v t).arrivals + 1, true⟩ u).arrivals = b.phase + 1 := by
  have hnot : t ∉ Finset.univ.filter fun u => (v u).arrivals = b.phase + 1 := by
    rw [Finset.mem_filter, hlate]
    omega
  have hcard := Finset.card_insert_of_notMem hnot
  rw [← filter_arrive hlate, ← h.counted, hlast, Finset.card_eq_iff_eq_univ] at hcard
  have hu := Finset.mem_univ u
  rw [← hcard, Finset.mem_filter] at hu
  exact hu.2

theorem Inv.arrive (h : Inv b v) (hout : (v t).inside = false) :
    Inv (b.arrive (Fintype.card ι)) (Function.update v t ⟨(v t).arrivals + 1, true⟩) := by
  have hlate := h.outside t hout
  rw [Barrier.arrive]
  split
  · -- the phase is complete
    rename_i hlast
    have hall := h.all_arrived hlate hlast
    refine ⟨fun u hu => hall u, fun u _ => .inl (hall u), ?_, Fintype.card_pos_iff.mpr ⟨t⟩⟩
    refine (Finset.card_eq_zero.mpr (Finset.filter_eq_empty_iff.mpr fun u _ => ?_)).symm
    rw [hall u]
    exact (Nat.lt_succ_self _).ne
  · rename_i hmore
    refine ⟨fun u hu => ?_, fun u hu => ?_, ?_, ?_⟩
    · by_cases hut : u = t
      · subst hut
        rw [Function.update_self] at hu
        exact absurd hu.symm Bool.false_ne_true
      · rw [Function.update_of_ne hut] at hu ⊢
        exact h.outside u hu
    · by_cases hut : u = t
      · subst hut
        rw [Function.update_self]
        exact .inr (congrArg (· + 1) hlate)
      · rw [Function.update_of_ne hut] at hu ⊢
        exact h.inside u hu
    · change b.arrived + 1 = _
      rw [filter_arrive hlate, Finset.card_insert_of_notMem, ← h.counted]
      rw [Finset.mem_filter, hlate]
      omega
    · have hmissing := h.missing
      change b.arrived + 1 < _
      omega

/-- A thread leaves when the phase is no longer the one it arrived in. -/
theorem Inv.leave (h : Inv b v) (hreleased : (v t).arrivals ≠ b.phase + 1) :
    Inv b (Function.update v t ⟨(v t).arrivals, false⟩) := by
  have hphase := (h.arrivals t).resolve_right hreleased
  have harrivals : ∀ u, (Function.update v t ⟨(v t).arrivals, false⟩ u).arrivals = (v u).arrivals := by
    intro u
    by_cases hut : u = t
    · subst hut
      rw [Function.update_self]
    · rw [Function.update_of_ne hut]
  refine ⟨fun u hu => ?_, fun u _ => ?_, ?_, h.missing⟩
  · by_cases hut : u = t
    · subst hut
      rw [harrivals, hphase]
    · rw [Function.update_of_ne hut] at hu ⊢
      exact h.outside u hu
  · rw [harrivals]
    exact h.arrivals u
  · simp only [harrivals]
    exact h.counted

end Barrier

end CryptDough

namespace CryptDough.Threads

variable {σ : Type*} {ι : Type*}

/-- The actions, one after the other. -/
def perform (actions : List (σ → σ)) (m : σ) : σ := actions.foldl (fun m a => a m) m

@[simp] theorem perform_nil (m : σ) : perform [] m = m := rfl

@[simp] theorem perform_cons (a : σ → σ) (actions : List (σ → σ)) (m : σ) :
    perform (a :: actions) m = perform actions (a m) := rfl

@[simp] theorem perform_append (first rest : List (σ → σ)) (m : σ) :
    perform (first ++ rest) m = perform rest (perform first m) :=
  List.foldl_append

theorem perform_commute {a : σ → σ} {actions : List (σ → σ)}
    (h : ∀ b ∈ actions, Function.Commute a b) (m : σ) :
    perform actions (a m) = a (perform actions m) := by
  induction actions generalizing m with
  | nil => rfl
  | cons b actions ih =>
      rw [perform_cons, perform_cons, ← h b List.mem_cons_self m]
      exact ih (fun c hc => h c (List.mem_cons_of_mem b hc)) (b m)

/-- The threads of `ids` in turn, each from its first action to its last. -/
def inTurn (ids : List ι) (threads : ι → List (σ → σ)) (m : σ) : σ := perform (ids.flatMap threads) m

theorem inTurn_cons (i : ι) (ids : List ι) (threads : ι → List (σ → σ)) (m : σ) :
    inTurn (i :: ids) threads m = inTurn ids threads (perform (threads i) m) := by
  rw [inTurn, List.flatMap_cons, perform_append]
  rfl

theorem inTurn_congr {ids : List ι} {threads threads' : ι → List (σ → σ)}
    (h : ∀ i ∈ ids, threads i = threads' i) (m : σ) : inTurn ids threads m = inTurn ids threads' m := by
  rw [inTurn, inTurn, List.flatMap_congr h]

theorem inTurn_nil_threads (ids : List ι) (m : σ) : inTurn ids (fun _ => []) m = m := by
  rw [inTurn, List.flatMap_eq_nil_iff.mpr fun _ _ => rfl, perform_nil]

variable [DecidableEq ι]

/-- A thread's next action may be performed before everything that the other threads have left. -/
theorem inTurn_step {ids : List ι} (hnodup : ids.Nodup) {threads : ι → List (σ → σ)} {i : ι}
    (hi : i ∈ ids) {a : σ → σ} {rest : List (σ → σ)} (hthread : threads i = a :: rest)
    (hcommute : ∀ j, j ≠ i → ∀ b ∈ threads j, Function.Commute a b) (m : σ) :
    inTurn ids (Function.update threads i rest) (a m) = inTurn ids threads m := by
  induction ids generalizing m with
  | nil => exact absurd hi List.not_mem_nil
  | cons j ids ih =>
      obtain ⟨hj, hnodup⟩ := List.nodup_cons.mp hnodup
      rw [inTurn_cons, inTurn_cons]
      rcases eq_or_ne j i with rfl | hne
      · -- the thread itself: the others still have all that they had
        rw [Function.update_self, hthread, perform_cons]
        refine inTurn_congr (fun k hk => ?_) _
        have hkj : k ≠ j := fun h => hj (h ▸ hk)
        exact Function.update_of_ne hkj rest threads
      · have hrest := (List.mem_cons.mp hi).resolve_left (Ne.symm hne)
        rw [Function.update_of_ne hne, perform_commute (hcommute j hne)]
        exact ih hnodup hrest _

end CryptDough.Threads
