import CryptDough.WorkerPoolCalls
import Mathlib.Algebra.BigOperators.Fin
import Mathlib.Tactic.Ring

/-! That a worker pool comes to its end. As long as every call has a task for every worker some thread
can always move, and every step but a spurious wake-up brings the end closer. A call without a task for
some worker never returns: that worker does not arrive at the barrier. -/

namespace CryptDough.WorkerPool

open Threads

variable {σ : Type} {n : ℕ} {calls : List (Call σ n)} {mem : σ} {s s' : State σ n} {k : ℕ} {i : Fin n}

/-- Every call has a task for every worker. -/
def Total (calls : List (Call σ n)) : Prop := ∀ call ∈ calls, ∀ i, (call i).isSome

section Progress

/-- A worker moves unless it sleeps, waits at the barrier or has ended. -/
theorem Worker.Inv.enabled {v : View σ} {w : Worker σ} (h : w.Inv v) (b : Barrier) (m : σ)
    (hholds : v.holds = false) (hstarted : v.started = true) (hdone : w.pc ≠ .done)
    (hasleep : w.pc ≠ .asleep) (hbarrier : ∀ phase, w.pc = .barrier phase → b.phase ≠ phase) :
    ∃ w' b' m', WorkerStep n w b m w' b' m' := by
  cases hpc : w.pc with
  | unstarted =>
      rw [h.started.mp hpc] at hstarted
      cases hstarted
  | loop =>
      cases hterminate : w.terminate with
      | false => exact ⟨_, _, _, .loop hpc hterminate⟩
      | true => exact ⟨_, _, _, .terminated hpc hterminate⟩
  | arrive => exact ⟨_, _, _, .arrive hpc⟩
  | barrier phase => exact ⟨_, _, _, .leave hpc (hbarrier phase hpc)⟩
  | lock =>
      cases hm : w.m with
      | none => exact ⟨_, _, _, .lock hpc hm⟩
      | some holder =>
          cases holder with
          | main =>
              rw [h.heldByMain.mp hm] at hholds
              cases hholds
          | worker =>
              have hcritical := h.heldByWorker.mp hm
              rw [hpc] at hcritical
              cases hcritical
  | test =>
      by_cases hready : w.q ≠ [] ∨ w.terminate = true
      · exact ⟨_, _, _, .ready hpc hready⟩
      · rw [not_or, not_not, Bool.not_eq_true] at hready
        exact ⟨_, _, _, .sleep hpc hready.1 hready.2⟩
  | asleep => exact absurd hpc hasleep
  | pull =>
      cases hterminate : w.terminate with
      | true => exact ⟨_, _, _, .exit hpc hterminate⟩
      | false =>
          cases hq : w.q with
          | nil => exact absurd hq ((h.pull hpc).resolve_right (by rw [hterminate]; nofun))
          | cons t q => exact ⟨_, _, _, .pull hpc hterminate hq⟩
  | execute rest =>
      cases rest with
      | nil => exact ⟨_, _, _, .finished hpc⟩
      | cons a rest => exact ⟨_, _, _, .act hpc⟩
  | done => exact absurd hpc hdone

theorem Inv.worker_moves (h : Inv calls s) (i : Fin n) (hholds : (s.main.view calls i).holds = false)
    (hstarted : (s.main.view calls i).started = true) (hdone : (s.workers i).pc ≠ .done)
    (hasleep : (s.workers i).pc ≠ .asleep)
    (hbarrier : ∀ phase, (s.workers i).pc = .barrier phase → s.barrier.phase ≠ phase) :
    ∃ s', Step calls s s' := by
  obtain ⟨w, b, m, hstep⟩ :=
    (h.workers i).enabled s.barrier s.mem hholds hstarted hdone hasleep hbarrier
  exact ⟨_, .worker hstep⟩

/-- The main thread is not stuck at a mutex: who has it can leave it. -/
theorem Inv.lock_moves (h : Inv calls s) {op : Op} (hmain : s.main = .method op i .lock) :
    ∃ s', Step calls s s' := by
  have hview : (s.main.view calls i).holds = false ∧ (s.main.view calls i).started = true := by
    rw [hmain]
    cases op <;> exact ⟨by simp [Main.view, Stage.holding], rfl⟩
  cases hm : (s.workers i).m with
  | none =>
      by_cases hcalled : op.Called calls i
      · exact ⟨_, .main (.lock hmain hcalled hm)⟩
      · cases op with
        | add k => exact ⟨_, .main (.skip hmain (Option.not_isSome_iff_eq_none.mp hcalled))⟩
        | stop => exact absurd trivial hcalled
  | some holder =>
      cases holder with
      | main =>
          rw [(h.workers i).heldByMain, hview.1] at hm
          cases hm
      | worker =>
          have hcritical := (h.workers i).heldByWorker.mp hm
          refine h.worker_moves i hview.1 hview.2 ?_ ?_ fun phase hpc => ?_
          · exact fun hpc => by rw [hpc] at hcritical; cases hcritical
          · exact fun hpc => by rw [hpc] at hcritical; cases hcritical
          · rw [hpc] at hcritical
            cases hcritical

/-- With a task in every call a worker has as many as there were calls. -/
theorem Total.length_given (htotal : Total calls) (hk : k ≤ calls.length) (i : Fin n) :
    (given calls k i).length = k := by
  have hfull : (given calls k i).length = (calls.take k).length := by
    rw [given, List.filterMap_length_eq_length]
    exact fun call hcall => htotal call (List.mem_of_mem_take hcall) i
  rw [hfull, List.length_take, min_eq_left hk]

/-- While the main thread waits for a phase to complete, a worker that has not arrived moves. -/
theorem Inv.late_moves (h : Inv calls s) (htotal : Total calls) (hk : k ≤ calls.length)
    (hmain : s.main = .barrier k s.barrier.phase) : ∃ s', Step calls s s' := by
  have hvalid := h.main
  rw [hmain] at hvalid
  have hphase : s.barrier.phase = k := hvalid.2
  obtain ⟨t, hlate⟩ := h.barrier.exists_late
  cases t with
  | none =>
      rw [State.visits, hmain] at hlate
      exact absurd hlate (Nat.succ_ne_self _)
  | some i =>
      have hworker := h.workers i
      rw [hmain] at hworker
      apply h.worker_moves i (by rw [hmain]; rfl) (by rw [hmain]; rfl)
      · intro hpc
        have hterminate := hworker.exited hpc
        rw [hworker.terminate] at hterminate
        cases hterminate
      · -- a sleeping worker has executed all its tasks, so it is ahead of the others
        intro hpc
        obtain ⟨hq, -⟩ := (hworker.asleep hpc).resolve_right (by simp [Main.view])
        have hfifo := hworker.fifo
        rw [hq, List.append_nil] at hfifo
        have hlength := htotal.length_given hk i
        have hpulled : (s.workers i).pulled.length = k := by
          rw [hfifo]
          exact hlength
        have hvisits : (s.workers i).visits = ⟨(s.workers i).pulled.length + 1, false⟩ := by
          rw [Worker.visits, hpc]
        rw [State.visits, hvisits] at hlate
        have hlate : (s.workers i).pulled.length + 1 = s.barrier.phase := hlate
        omega
      · intro phase hpc hsame
        have hvisits : (s.workers i).visits = ⟨phase + 1, true⟩ := by rw [Worker.visits, hpc]
        rw [State.visits, hvisits] at hlate
        have hlate : phase + 1 = s.barrier.phase := hlate
        omega

/-- A worker that is joined before it has ended was stopped, and moves. -/
theorem Inv.join_moves (h : Inv calls s) (hmain : s.main = .join i) : ∃ s', Step calls s s' := by
  by_cases hdone : (s.workers i).pc = .done
  · exact ⟨_, .main (.join hmain hdone)⟩
  · have hworker := h.workers i
    rw [hmain] at hworker
    have hstopped : (Main.view calls (.join i) i).stopped = true := decide_eq_true le_rfl
    have hphase := h.stopped_phase (i := i) (by rw [hmain]; exact hstopped)
    apply h.worker_moves i (by rw [hmain]; rfl) (by rw [hmain]; rfl) hdone
    · intro hpc
      obtain ⟨-, hterminate⟩ := (hworker.asleep hpc).resolve_right (by simp [Main.view])
      rw [hworker.terminate, hstopped] at hterminate
      cases hterminate
    · intro phase hpc hsame
      have htoken := hworker.token phase hpc
      have hle := h.pulled_le i
      omega

theorem Inv.all_done (h : Inv calls s) (hmain : s.main = .done) (i : Fin n) :
    (s.workers i).pc = .done := by
  have hworker := h.workers i
  rw [hmain] at hworker
  exact hworker.joined rfl

theorem Inv.progress (h : Inv calls s) (htotal : Total calls) :
    (∃ s', Step calls s s') ∨ s.main = .done := by
  have hvalid := h.main
  cases hmain : s.main with
  | start j =>
      rw [hmain] at hvalid
      rcases Nat.lt_or_eq_of_le hvalid with hlt | rfl
      · exact .inl ⟨_, .main (.start (i := ⟨j, hlt⟩) hmain)⟩
      · exact .inl ⟨_, .main (.started hmain)⟩
  | method op j stage =>
      rw [hmain] at hvalid
      have hj : j < n ∨ j = n ∧ stage = .lock := by
        cases op with
        | add k => exact hvalid.2
        | stop => exact hvalid
      rcases hj with hlt | ⟨rfl, rfl⟩
      · have hmain : s.main = .method op (⟨j, hlt⟩ : Fin n) stage := hmain
        cases stage with
        | lock => exact .inl (h.lock_moves hmain)
        | update => exact .inl ⟨_, .main (.update hmain)⟩
        | unlock => exact .inl ⟨_, .main (.unlock hmain)⟩
        | notify => exact .inl ⟨_, .main (.notify hmain)⟩
      · cases op with
        | add k => exact .inl ⟨_, .main (.added hmain)⟩
        | stop => exact .inl ⟨_, .main (.stopped hmain)⟩
  | arrive k => exact .inl ⟨_, .main (.arrive hmain)⟩
  | barrier k phase =>
      by_cases hphase : s.barrier.phase = phase
      · rw [hmain] at hvalid
        subst hphase
        exact .inl (h.late_moves htotal hvalid.1 hmain)
      · exact .inl ⟨_, .main (.leave hmain hphase)⟩
  | join j =>
      rw [hmain] at hvalid
      exact .inl (h.join_moves (i := ⟨j, hvalid⟩) hmain)
  | done => exact .inr rfl

end Progress

section Termination

/-- The most steps that a worker does from a place to where it pulls its next task. -/
def Pc.cost : Pc σ → ℕ
  | .unstarted => 10
  | .loop => 9
  | .arrive => 8
  | .barrier _ => 7
  | .lock => 6
  | .test => 5
  | .pull => 4
  | .asleep => 3
  | .execute rest => rest.length + 10
  | .done => 0

variable (calls) in
/-- With the tasks that it has not pulled. -/
def Worker.cost (i : Fin n) (w : Worker σ) : ℕ :=
  w.pc.cost + (((given calls calls.length i).drop w.pulled.length).map fun t => t.length + 10).sum

def Stage.cost : Stage → ℕ
  | .lock => 0
  | .update => 1
  | .unlock => 2
  | .notify => 3

/-- The steps of the main thread from where `left` calls are left. -/
def callsCost (n left : ℕ) : ℕ := left * (8 * n + 3) + (8 * n + 1)

variable (calls) in
def Main.cost : Main → ℕ
  | .start j => n - j + 1 + (callsCost n calls.length + 2)
  | .method (.add k) j stage =>
      8 * (n - j) - stage.cost + 1 + (callsCost n (calls.length - (k + 1)) + 2)
  | .method .stop j stage => 8 * (n - j) - stage.cost + 1
  | .arrive k => callsCost n (calls.length - k) + 2
  | .barrier k _ => callsCost n (calls.length - k) + 1
  | .join j => 8 * (n - j) - 6
  | .done => 0

variable (calls) in
def State.cost (s : State σ n) : ℕ := s.main.cost calls + ∑ i, (s.workers i).cost calls i

theorem afterCalls_cost (hk : k ≤ calls.length) :
    (Main.afterCalls calls k).cost calls = callsCost n (calls.length - k) := by
  rw [Main.afterCalls]
  split
  · rename_i hlt
    obtain ⟨left, hleft⟩ : ∃ left, calls.length - k = left + 1 := ⟨calls.length - k - 1, by omega⟩
    have hnext : calls.length - (k + 1) = left := by omega
    rw [Main.cost, hleft, hnext, callsCost, callsCost, Stage.cost]
    ring_nf
    omega
  · rw [show calls.length - k = 0 by omega, callsCost, Main.cost, Stage.cost]
    omega

variable (calls) in
theorem next_cost (op : Op) (i : Fin n) :
    (op.next i).cost calls + 4 ≤ Main.cost calls (.method op i .notify) := by
  have hlt := i.isLt
  cases op with
  | add k =>
      simp only [Op.next, Main.cost, Stage.cost]
      omega
  | stop =>
      simp only [Op.next, Main.cost, Stage.cost]
      omega

variable (calls) in
/-- The costs of the workers after one of them has changed. -/
theorem sum_setWorker (s : State σ n) (i : Fin n) (w : Worker σ) :
    (∑ j, ((s.setWorker i w).workers j).cost calls j) + (s.workers i).cost calls i =
      (∑ j, (s.workers j).cost calls j) + w.cost calls i := by
  have hother : ∑ j ∈ Finset.univ.erase i, ((s.setWorker i w).workers j).cost calls j =
      ∑ j ∈ Finset.univ.erase i, (s.workers j).cost calls j := by
    refine Finset.sum_congr rfl fun j hj => ?_
    change (Function.update s.workers i w j).cost calls j = _
    rw [Function.update_of_ne (Finset.ne_of_mem_erase hj)]
  have hself : ((s.setWorker i w).workers i).cost calls i = w.cost calls i := by
    change (Function.update s.workers i w i).cost calls i = _
    rw [Function.update_self]
  have hnew := Finset.add_sum_erase Finset.univ
    (fun j => ((s.setWorker i w).workers j).cost calls j) (Finset.mem_univ i)
  have hold := Finset.add_sum_erase Finset.univ
    (fun j => (s.workers j).cost calls j) (Finset.mem_univ i)
  rw [← hnew, ← hold, hother, hself]
  ring

theorem Inv.given_eq_cons (h : Inv calls s) {t : Code σ} {q : List (Code σ)}
    (hq : (s.workers i).q = t :: q) :
    (given calls calls.length i).drop (s.workers i).pulled.length =
      t :: (given calls calls.length i).drop ((s.workers i).pulled.length + 1) := by
  have hupto : s.main.upto calls ≤ calls.length := by
    have hvalid := h.main
    cases hm : s.main with
    | start j => exact Nat.zero_le _
    | method op j stage =>
        rw [hm] at hvalid
        cases op with
        | add k => exact hvalid.1
        | stop => exact le_rfl
    | arrive k =>
        rw [hm] at hvalid
        exact hvalid
    | barrier k phase =>
        rw [hm] at hvalid
        exact hvalid.1
    | join j => exact le_rfl
    | done => exact le_rfl
  obtain ⟨more, hmore⟩ :=
    (Main.view_given_mono calls s.main i).trans (given_mono hupto i)
  rw [← (h.workers i).fifo, hq] at hmore
  rw [← hmore]
  simp [List.append_assoc, List.drop_append]

theorem Inv.worker_cost (h : Inv calls s) {w : Worker σ} {b : Barrier} {m : σ}
    (hstep : WorkerStep n (s.workers i) s.barrier s.mem w b m) :
    w.cost calls i + 1 ≤ (s.workers i).cost calls i := by
  have hpc : ∀ pc pc' : Pc σ, (s.workers i).pc = pc → w.pc = pc' → pc'.cost + 1 ≤ pc.cost →
      w.pulled = (s.workers i).pulled → w.cost calls i + 1 ≤ (s.workers i).cost calls i := by
    intro pc pc' h h' hle hpulled
    rw [Worker.cost, Worker.cost, h, h', hpulled]
    omega
  cases hstep with
  | terminated h _ => exact hpc _ _ h rfl (by simp [Pc.cost]) rfl
  | loop h _ => exact hpc _ _ h rfl (by simp [Pc.cost]) rfl
  | arrive h => exact hpc _ _ h rfl (by simp [Pc.cost]) rfl
  | leave h _ => exact hpc _ _ h rfl (by simp [Pc.cost]) rfl
  | lock h _ => exact hpc _ _ h rfl (by simp [Pc.cost]) rfl
  | sleep h _ _ => exact hpc _ _ h rfl (by simp [Pc.cost]) rfl
  | ready h _ => exact hpc _ _ h rfl (by simp [Pc.cost]) rfl
  | exit h _ => exact hpc _ _ h rfl (by simp [Pc.cost]) rfl
  | finished h => exact hpc _ _ h rfl (by simp [Pc.cost]) rfl
  | act h => exact hpc _ _ h rfl (by simp [Pc.cost]) rfl
  | pull hpull _ hq =>
      rw [Worker.cost, Worker.cost, hpull, h.given_eq_cons hq, List.map_cons, List.sum_cons,
        List.length_append, List.length_singleton, Pc.cost, Pc.cost]
      omega

variable (calls) in
theorem State.cost_setWorker (s : State σ n) (i : Fin n) (w : Worker σ) (main : Main) :
    State.cost calls { s.setWorker i w with main := main } + (s.workers i).cost calls i =
      main.cost calls + (∑ j, (s.workers j).cost calls j) + w.cost calls i := by
  have hsum := sum_setWorker calls s i w
  rw [State.cost]
  change main.cost calls + (∑ j, ((s.setWorker i w).workers j).cost calls j) + _ = _
  omega

theorem changeWorker_cost (main : Main) {w : Worker σ}
    (hless : main.cost calls + w.cost calls i + 1 ≤ s.main.cost calls + (s.workers i).cost calls i) :
    State.cost calls { s.setWorker i w with main := main } + 1 ≤ s.cost calls := by
  have hcost := State.cost_setWorker calls s i w main
  rw [show s.cost calls = s.main.cost calls + ∑ j, (s.workers j).cost calls j from rfl]
  omega

theorem moveMain_cost {main : Main} {b : Barrier} (hless : main.cost calls + 1 ≤ s.main.cost calls) :
    State.cost calls { s with main := main, barrier := b } + 1 ≤ s.cost calls := by
  change main.cost calls + (∑ j, (s.workers j).cost calls j) + 1 ≤
    s.main.cost calls + ∑ j, (s.workers j).cost calls j
  omega

variable (calls) in
theorem stage_cost (op : Op) (i : Fin n) (stage stage' : Stage)
    (hstage : stage'.cost = stage.cost + 1) :
    Main.cost calls (.method op i stage') + 1 = Main.cost calls (.method op i stage) := by
  have hlt := i.isLt
  have hle : stage'.cost ≤ 3 := by cases stage' <;> decide
  cases op with
  | add k =>
      simp only [Main.cost]
      omega
  | stop =>
      simp only [Main.cost]
      omega

variable (calls) in
theorem Worker.notified_cost (i : Fin n) (w : Worker σ) :
    w.notified.cost calls i ≤ w.cost calls i + 3 := by
  have hpulled := (Worker.notified_quiet w).2
  by_cases hpc : w.pc = .asleep
  · have hcost : w.notified.pc.cost = 6 := by
      rw [Worker.notified_of_asleep hpc]
      rfl
    rw [Worker.cost, Worker.cost, hpulled, hcost, hpc, Pc.cost]
    omega
  · rw [Worker.notified_of_ne hpc]
    omega

theorem Inv.main_cost (h : Inv calls s) (hstep : MainStep calls s s') :
    s'.cost calls + 1 ≤ s.cost calls := by
  have hvalid := h.main
  cases hstep with
  | @start i hmain =>
      have hlt := i.isLt
      have hpc : (s.workers i).pc = .unstarted := by
        have hworker := h.workers i
        rw [hmain] at hworker
        exact hworker.started.mpr (by simp [Main.view])
      apply changeWorker_cost _
      rw [hmain, Worker.cost, Worker.cost, hpc]
      simp only [Main.cost, Pc.cost]
      omega
  | started hmain =>
      apply moveMain_cost
      rw [hmain, Main.cost, Main.cost, Nat.sub_zero]
      omega
  | @skip k i hmain hnone =>
      have hlt := i.isLt
      apply moveMain_cost
      rw [hmain]
      simp only [Main.cost, Stage.cost]
      omega
  | @lock op i hmain _ _ =>
      have hstage := stage_cost calls op i .lock .update rfl
      apply changeWorker_cost _
      rw [hmain, ← hstage]
      exact le_of_eq (Nat.add_right_comm ..)
  | @update op i hmain =>
      have hstage := stage_cost calls op i .update .unlock rfl
      have hsame : (op.update calls i (s.workers i)).cost calls i = (s.workers i).cost calls i := by
        cases op <;> rfl
      apply changeWorker_cost _
      rw [hmain, ← hstage, hsame]
      exact le_of_eq (Nat.add_right_comm ..)
  | @unlock op i hmain =>
      have hstage := stage_cost calls op i .unlock .notify rfl
      apply changeWorker_cost _
      rw [hmain, ← hstage]
      exact le_of_eq (Nat.add_right_comm ..)
  | @notify op i hmain =>
      have hnext := next_cost calls op i
      have hwoken := Worker.notified_cost calls i (s.workers i)
      apply changeWorker_cost _
      rw [hmain]
      omega
  | added hmain =>
      apply moveMain_cost
      rw [hmain]
      simp only [Main.cost, Stage.cost]
      omega
  | arrive hmain =>
      apply moveMain_cost
      rw [hmain]
      simp only [Main.cost]
      omega
  | @leave k phase hmain _ =>
      rw [hmain] at hvalid
      apply moveMain_cost
      rw [hmain, afterCalls_cost hvalid.1]
      exact le_rfl
  | @join i hmain _ =>
      have hlt := i.isLt
      apply moveMain_cost
      rw [hmain]
      simp only [Main.cost, Stage.cost]
      omega
  | stopped hmain =>
      apply moveMain_cost
      rw [hmain]
      simp only [Main.cost, Stage.cost]
      omega

theorem Inv.step_cost (h : Inv calls s) (hstep : Step calls s s') :
    s'.cost calls + 1 ≤ s.cost calls := by
  cases hstep with
  | main hmain => exact h.main_cost hmain
  | @worker i w b m hworker =>
      have hless := h.worker_cost hworker
      exact changeWorker_cost (s := s) s.main (by omega)

variable (calls) in
theorem wake_cost (hstep : Wake s s') : s'.cost calls ≤ s.cost calls + 3 := by
  cases hstep with
  | @wake i hpc =>
      have hwoken := Worker.notified_cost calls i (s.workers i)
      have hcost := State.cost_setWorker calls s i (s.workers i).notified s.main
      have hs : s.cost calls = s.main.cost calls + ∑ j, (s.workers j).cost calls j := rfl
      rw [← Worker.notified_of_asleep hpc]
      change State.cost calls { s.setWorker i _ with main := s.main } ≤ _
      omega

variable (calls) in
/-- The runs of a number of steps and of spurious wake-ups. -/
inductive Run (s : State σ n) : (steps wakes : ℕ) → State σ n → Prop
  | refl : Run s 0 0 s
  | step {steps wakes s' s''} (hrun : Run s steps wakes s') (h : Step calls s' s'') :
      Run s (steps + 1) wakes s''
  | wake {steps wakes s' s''} (hrun : Run s steps wakes s') (h : Wake s' s'') :
      Run s steps (wakes + 1) s''

theorem Run.reachable {steps wakes : ℕ} (h : Run calls (init n mem) steps wakes s) :
    Reachable calls mem s := by
  induction h with
  | refl => exact .refl
  | step _ hstep ih => exact ih.tail (.inl hstep)
  | wake _ hstep ih => exact ih.tail (.inr hstep)

theorem Run.bounded {steps wakes : ℕ} (h : Run calls (init n mem) steps wakes s) :
    steps + s.cost calls ≤ (init n mem).cost calls + 3 * wakes := by
  induction h with
  | refl => omega
  | step hrun hstep ih =>
      have hless := (reachable_inv hrun.reachable).step_cost hstep
      omega
  | wake hrun hstep ih =>
      have hmore := wake_cost calls hstep
      omega

end Termination

section Results

local instance (priority := high) twoWorkers : @NeZero ℕ Zero.ofOfNat0 (1 + 1) :=
  ⟨Nat.succ_ne_zero 1⟩

/-- Two workers, and two calls with a task for each of them that adds to a counter. -/
def twoCalls : List (Call ℕ 2) :=
  [fun i => some [(· + (i.val + 1))], fun i => some [(· + 10 * (i.val + 1))]]

theorem twoCalls_independent : Independent twoCalls := by
  intro call hcall i j _ t ht u hu a ha b hb m
  simp only [twoCalls, List.mem_cons, List.not_mem_nil, or_false] at hcall
  rcases hcall with rfl | rfl
  · cases ht
    cases hu
    rw [List.mem_singleton.mp ha, List.mem_singleton.mp hb]
    exact Nat.add_right_comm _ _ _
  · cases ht
    cases hu
    rw [List.mem_singleton.mp ha, List.mem_singleton.mp hb]
    exact Nat.add_right_comm _ _ _

theorem twoCalls_total : Total twoCalls := by
  intro call hcall i
  simp only [twoCalls, List.mem_cons, List.not_mem_nil, or_false] at hcall
  rcases hcall with rfl | rfl <;> rfl

/-- A run up to the tasks of the first call. -/
theorem twoCalls_executing : Reachable twoCalls 0 ⟨.barrier 1 1,
    fun i => ⟨[], false, none, .execute [(· + (i.val + 1))], [[(· + (i.val + 1))]]⟩, ⟨1, 1⟩, 0⟩ := by
  have h : Reachable twoCalls 0 (init 2 0) := .refl
  have h := h.tail (.inl (.main (.start (i := 0) rfl)))
  have h := h.tail (.inl (.main (.start (i := 1) rfl)))
  have h := h.tail (.inl (.main (.started rfl)))
  have h := h.tail (.inl (.main (.arrive rfl)))
  have h := h.tail (.inl (.worker (i := 0) (.loop rfl rfl)))
  have h := h.tail (.inl (.worker (i := 0) (.arrive rfl)))
  have h := h.tail (.inl (.worker (i := 1) (.loop rfl rfl)))
  have h := h.tail (.inl (.worker (i := 1) (.arrive rfl)))
  have h := h.tail (.inl (.main (.leave rfl Nat.one_ne_zero)))
  have hcalled (i : Fin 2) : (Op.add 0).Called twoCalls i := rfl
  have h := h.tail (.inl (.main (.lock (i := 0) rfl (hcalled 0) rfl)))
  have h := h.tail (.inl (.main (.update (i := 0) rfl)))
  have h := h.tail (.inl (.main (.unlock (i := 0) rfl)))
  have h := h.tail (.inl (.main (.notify (i := 0) rfl)))
  have h := h.tail (.inl (.main (.lock (i := 1) rfl (hcalled 1) rfl)))
  have h := h.tail (.inl (.main (.update (i := 1) rfl)))
  have h := h.tail (.inl (.main (.unlock (i := 1) rfl)))
  have h := h.tail (.inl (.main (.notify (i := 1) rfl)))
  have h := h.tail (.inl (.main (.added (k := 0) rfl)))
  have h := h.tail (.inl (.main (.arrive rfl)))
  have h := h.tail (.inl (.worker (i := 0) (.leave rfl Nat.one_ne_zero)))
  have h := h.tail (.inl (.worker (i := 1) (.leave rfl Nat.one_ne_zero)))
  have h := h.tail (.inl (.worker (i := 0) (.lock rfl rfl)))
  have h := h.tail (.inl (.worker (i := 1) (.lock rfl rfl)))
  have h := h.tail (.inl (.worker (i := 0) (.ready rfl (.inl nofun))))
  have h := h.tail (.inl (.worker (i := 1) (.ready rfl (.inl nofun))))
  have h := h.tail (.inl (.worker (i := 0) (.pull rfl rfl rfl)))
  have h := h.tail (.inl (.worker (i := 1) (.pull rfl rfl rfl)))
  refine cast (congrArg (Reachable twoCalls 0) ?_) h
  refine congrArg (State.mk _ · _ _) (funext fun i => ?_)
  match i with
  | 0 => rfl
  | 1 => rfl

/-- The run goes on to the tasks of the second call. -/
theorem twoCalls_executing_second : Reachable twoCalls 0 ⟨.barrier 2 2,
    fun i => ⟨[], false, none, .execute [(· + 10 * (i.val + 1))],
      [[(· + (i.val + 1))], [(· + 10 * (i.val + 1))]]⟩, ⟨2, 1⟩, 3⟩ := by
  have h := twoCalls_executing
  have h := h.tail (.inl (.worker (i := 0) (.act rfl)))
  have h := h.tail (.inl (.worker (i := 1) (.act rfl)))
  have h := h.tail (.inl (.worker (i := 0) (.finished rfl)))
  have h := h.tail (.inl (.worker (i := 1) (.finished rfl)))
  have h := h.tail (.inl (.worker (i := 0) (.loop rfl rfl)))
  have h := h.tail (.inl (.worker (i := 0) (.arrive rfl)))
  have h := h.tail (.inl (.worker (i := 1) (.loop rfl rfl)))
  have h := h.tail (.inl (.worker (i := 1) (.arrive rfl)))
  have h := h.tail (.inl (.main (.leave rfl (by decide))))
  have hcalled (i : Fin 2) : (Op.add 1).Called twoCalls i := rfl
  have h := h.tail (.inl (.main (.lock (i := 0) rfl (hcalled 0) rfl)))
  have h := h.tail (.inl (.main (.update (i := 0) rfl)))
  have h := h.tail (.inl (.main (.unlock (i := 0) rfl)))
  have h := h.tail (.inl (.main (.notify (i := 0) rfl)))
  have h := h.tail (.inl (.main (.lock (i := 1) rfl (hcalled 1) rfl)))
  have h := h.tail (.inl (.main (.update (i := 1) rfl)))
  have h := h.tail (.inl (.main (.unlock (i := 1) rfl)))
  have h := h.tail (.inl (.main (.notify (i := 1) rfl)))
  have h := h.tail (.inl (.main (.added (k := 1) rfl)))
  have h := h.tail (.inl (.main (.arrive rfl)))
  have h := h.tail (.inl (.worker (i := 0) (.leave rfl (by decide))))
  have h := h.tail (.inl (.worker (i := 1) (.leave rfl (by decide))))
  have h := h.tail (.inl (.worker (i := 0) (.lock rfl rfl)))
  have h := h.tail (.inl (.worker (i := 1) (.lock rfl rfl)))
  have h := h.tail (.inl (.worker (i := 0) (.ready rfl (.inl nofun))))
  have h := h.tail (.inl (.worker (i := 1) (.ready rfl (.inl nofun))))
  have h := h.tail (.inl (.worker (i := 0) (.pull rfl rfl rfl)))
  have h := h.tail (.inl (.worker (i := 1) (.pull rfl rfl rfl)))
  refine cast (congrArg (Reachable twoCalls 0) ?_) h
  refine congrArg (State.mk _ · _ _) (funext fun i => ?_)
  match i with
  | 0 => rfl
  | 1 => rfl

/-- A wait that has returned: everything handed out before it is done, and nothing else. -/
theorem wait_returns (calls : List (Call σ n)) {mem : σ} {s : State σ n} (hrun : Reachable calls mem s)
    {k : ℕ} (hk : k ≤ calls.length) (hmain : s.main = .afterCalls calls k) :
    (∀ i, (s.workers i).pulled.map some = (calls.take k).map (· i) ∧ (s.workers i).q = [] ∧
      ∀ rest, (s.workers i).pc ≠ .execute rest) ∧
      (Independent calls → s.mem = callsResult (calls.take k) mem) :=
  ⟨(reachable_inv hrun).returned hk hmain, fun hind => (reachable_mem hind hrun).returned k hk hmain⟩

theorem wait_returns_twoCalls : ∃ s, Reachable twoCalls 0 s ∧
    (∀ i, (s.workers i).pulled.map some = twoCalls.map (· i)) ∧ s.mem = 33 := by
  have h := twoCalls_executing_second
  have h := h.tail (.inl (.worker (i := 0) (.act rfl)))
  have h := h.tail (.inl (.worker (i := 1) (.act rfl)))
  have h := h.tail (.inl (.worker (i := 0) (.finished rfl)))
  have h := h.tail (.inl (.worker (i := 1) (.finished rfl)))
  have h := h.tail (.inl (.worker (i := 0) (.loop rfl rfl)))
  have h := h.tail (.inl (.worker (i := 0) (.arrive rfl)))
  have h := h.tail (.inl (.worker (i := 1) (.loop rfl rfl)))
  have h := h.tail (.inl (.worker (i := 1) (.arrive rfl)))
  have h := h.tail (.inl (.main (.leave rfl (by decide))))
  obtain ⟨hall, hmem⟩ := wait_returns twoCalls h (k := 2) le_rfl rfl
  exact ⟨_, h, fun i => (hall i).1, hmem twoCalls_independent⟩

/-- Tasks that run at the same time are of one call, the one that the main thread is at; and the main
thread changes the queue or the flag of a worker only where the worker does not look at it. -/
theorem calls_never_overlap (calls : List (Call σ n)) {mem : σ} {s : State σ n}
    (hrun : Reachable calls mem s) :
    (∀ i j rest rest', (s.workers i).pc = .execute rest → (s.workers j).pc = .execute rest' →
      ∃ k t u, s.main.call = some k ∧ taskOf calls k i = some t ∧ taskOf calls k j = some u ∧
        rest <:+ t ∧ rest' <:+ u) ∧
    ∀ (op : Op) (i : Fin n), s.main = .method op i .update →
      (s.workers i).pc.critical = false ∧ (op = .stop → (s.workers i).pc ≠ .loop) := by
  have hinv := reachable_inv hrun
  refine ⟨fun i j rest rest' hi hj => ?_, fun op i hmain => ⟨?_, fun hop hloop => ?_⟩⟩
  · obtain ⟨k, t, hcall, -, htask, hrest, -⟩ := hinv.executing hi
    obtain ⟨k', u, hcall', -, hutask, hrest', -⟩ := hinv.executing hj
    rw [hcall] at hcall'
    cases hcall'
    exact ⟨k, t, u, hcall, htask, hutask, hrest, hrest'⟩
  · apply (hinv.workers i).not_critical
    rw [hmain]
    cases op <;> simp [Main.view, Stage.holding]
  · -- all threads have passed the last wait, so the worker would have a task too many
    have houtside := hinv.barrier.outside none
    rw [State.visits, hmain, hop] at houtside
    have hphase : calls.length + 1 = s.barrier.phase := houtside rfl
    have hworker := hinv.barrier.outside (some i)
    have hvisits : (s.workers i).visits = ⟨(s.workers i).pulled.length, false⟩ := by
      rw [Worker.visits, hloop]
    rw [State.visits, hvisits] at hworker
    have hpulled : (s.workers i).pulled.length = s.barrier.phase := hworker rfl
    have hle := hinv.pulled_le i
    omega

theorem calls_never_overlap_twoCalls : ∃ s, Reachable twoCalls 0 s ∧
    ∃ k t u, s.main.call = some k ∧ taskOf twoCalls k 0 = some t ∧ taskOf twoCalls k 1 = some u ∧
      (s.workers 0).pc = .execute t ∧ (s.workers 1).pc = .execute u := by
  have h := twoCalls_executing_second
  obtain ⟨k, t, u, hcall, ht, hu, -⟩ := (calls_never_overlap twoCalls h).1 0 1 _ _ rfl rfl
  refine ⟨_, h, k, t, u, hcall, ht, hu, ?_⟩
  cases hcall
  cases ht
  cases hu
  exact ⟨rfl, rfl⟩

theorem Inv.ended (h : Inv calls s) (hmain : s.main = .done) (i : Fin n) :
    (s.workers i).pulled.map some = calls.map (· i) ∧ (s.workers i).pc = .done := by
  have houtside := h.barrier.outside none
  rw [State.visits, hmain] at houtside
  obtain ⟨hpulled, -, hlength, -⟩ := h.round_done (i := i) (k := calls.length) (houtside rfl).symm
    (by rw [hmain]; rfl)
  have hmap := map_some_given (le_refl calls.length) hlength
  rw [List.take_length] at hmap
  rw [hpulled]
  exact ⟨hmap, h.all_done hmain i⟩

theorem reachable_ended_mem (hind : Independent calls) (hrun : Reachable calls mem s)
    (hmain : s.main = .done) : s.mem = callsResult calls mem := by
  have hinv := reachable_inv hrun
  have howed : s.owed calls = fun _ => [] := by
    funext i
    have houtside := hinv.barrier.outside none
    rw [State.visits, hmain] at houtside
    obtain ⟨hpulled, -, -, hidle⟩ := hinv.round_done (i := i) (k := calls.length) (houtside rfl).symm
      (by rw [hmain]; rfl)
    exact State.owed_eq_nil (by rw [hmain]; rfl) hpulled hidle
  have hmem := (reachable_mem hind hrun).owed
  rw [howed, inTurn_nil_threads, hmain] at hmem
  change s.mem = callsResult (calls.take calls.length) mem at hmem
  rw [List.take_length] at hmem
  exact hmem

/-- A pool whose calls have a task for every worker runs to its end, however it is scheduled. -/
theorem pool_completes (calls : List (Call σ n)) (htotal : Total calls) (mem : σ) :
    (∃ bound, ∀ steps wakes s, Run calls (init n mem) steps wakes s → steps ≤ bound + 3 * wakes) ∧
      ∀ s, Reachable calls mem s → (∃ s', Step calls s s') ∨
        s.main = .done ∧
          (∀ i, (s.workers i).pulled.map some = calls.map (· i) ∧ (s.workers i).pc = .done) ∧
          (Independent calls → s.mem = callsResult calls mem) := by
  refine ⟨⟨(init n mem).cost calls, fun steps wakes s hrun => ?_⟩, fun s hrun => ?_⟩
  · have hbounded := hrun.bounded
    omega
  · have hinv := reachable_inv hrun
    exact (hinv.progress htotal).imp id fun hdone =>
      ⟨hdone, hinv.ended hdone, fun hind => reachable_ended_mem hind hrun hdone⟩

theorem MainStep.main_ne_done (h : MainStep calls s s') : s.main ≠ .done := by
  cases h <;> simp [*]

/-- After the end nothing moves. -/
theorem Inv.no_step (h : Inv calls s) (hmain : s.main = .done) : ¬ ∃ s', Step calls s s' := by
  rintro ⟨s', hstep⟩
  cases hstep with
  | main hstep => exact hstep.main_ne_done hmain
  | worker hworker => exact hworker.pc_ne.2 (h.all_done hmain _)

theorem Total.exists_ended (htotal : Total calls) (hrun : Reachable calls mem s) :
    ∃ s', Reachable calls mem s' ∧ s'.main = .done := by
  induction hcost : s.cost calls using Nat.strong_induction_on generalizing s with
  | _ cost ih =>
      rcases (reachable_inv hrun).progress htotal with ⟨s', hstep⟩ | hdone
      · have hless := (reachable_inv hrun).step_cost hstep
        exact ih _ (by omega) (hrun.tail (.inl hstep)) rfl
      · exact ⟨s, hrun, hdone⟩

theorem pool_completes_twoCalls : ∃ s, Reachable twoCalls 0 s ∧ s.main = .done ∧ s.mem = 33 := by
  obtain ⟨s, hrun, hdone⟩ := twoCalls_total.exists_ended (.refl : Reachable twoCalls 0 _)
  rcases (pool_completes twoCalls twoCalls_total 0).2 s hrun with hstep | ⟨-, -, hmem⟩
  · exact absurd hstep ((reachable_inv hrun).no_step hdone)
  · exact ⟨s, hrun, hdone, hmem twoCalls_independent⟩

theorem total_of_ended (hrun : Reachable calls mem s) (hmain : s.main = .done) : Total calls := by
  intro call hcall i
  have hall := ((reachable_inv hrun).ended hmain i).1
  have hmem : call i ∈ calls.map (· i) := List.mem_map.mpr ⟨call, hcall, rfl⟩
  rw [← hall] at hmem
  obtain ⟨t, -, ht⟩ := List.mem_map.mp hmem
  rw [← ht]
  rfl

/-- The runtime can be destroyed exactly when no call left out a worker: one that did never returns. -/
theorem ends_iff_total (calls : List (Call σ n)) (mem : σ) :
    ((∃ s, Reachable calls mem s ∧ s.main = .done) ↔ Total calls) ∧
      ∀ k i, k < calls.length → taskOf calls k i = none → ∀ s, Reachable calls mem s →
        ∀ j, k < j → j ≤ calls.length → s.main ≠ .afterCalls calls j := by
  refine ⟨⟨?_, fun htotal => htotal.exists_ended .refl⟩, ?_⟩
  · rintro ⟨s, hrun, hmain⟩
    exact total_of_ended hrun hmain
  · intro k i hk hnone s hrun j hkj hj hmain
    obtain ⟨hall, -, -⟩ := (reachable_inv hrun).returned hj hmain i
    have hmem : calls[k] i ∈ (calls.take j).map (· i) :=
      List.mem_map.mpr ⟨calls[k], List.mem_take_iff_getElem.mpr ⟨k, by omega, rfl⟩, rfl⟩
    rw [← hall, ← taskOf_eq hk, hnone] at hmem
    obtain ⟨t, -, ht⟩ := List.mem_map.mp hmem
    cases ht

end Results

end CryptDough.WorkerPool
