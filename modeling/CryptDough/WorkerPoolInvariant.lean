import CryptDough.WorkerPool

/-! What holds in every state of a worker pool: no task is lost or moved past another, the mutex of a
worker is held by who is inside it, a worker that sleeps has nothing to do or is about to be woken up,
and nobody is more than one phase of the barrier ahead of the others. -/

namespace CryptDough.WorkerPool

variable {σ : Type} {n : ℕ}

/-- What a position of the main thread says about one worker: the tasks it was given, whether it was
stopped, whether the main thread holds its mutex or is about to wake it up, whether it was started and
whether it was joined. -/
structure View (σ : Type) where
  given : List (Code σ)
  stopped : Bool
  holds : Bool
  waking : Bool
  started : Bool
  joined : Bool

def Stage.updated : Stage → Bool
  | .lock | .update => false
  | .unlock | .notify => true

def Stage.holding : Stage → Bool
  | .update | .unlock => true
  | .lock | .notify => false

section Positions

variable (calls : List (Call σ n))

/-- The tasks that the first `k` calls have for the worker. -/
def given (k : ℕ) (i : Fin n) : List (Code σ) := (calls.take k).filterMap (· i)

theorem given_succ (k : ℕ) (i : Fin n) :
    given calls (k + 1) i = given calls k i ++ (taskOf calls k i).toList := by
  rw [given, List.take_add_one, List.filterMap_append, taskOf]
  cases calls[k]? with
  | none => rfl
  | some call =>
      apply congrArg (given calls k i ++ ·)
      change List.filterMap (fun call : Call σ n => call i) [call] = (call i).toList
      cases h : call i with
      | none => simp [h]
      | some t => simp [h]

theorem length_given_le (k : ℕ) (i : Fin n) : (given calls k i).length ≤ k :=
  (List.length_filterMap_le _ _).trans (List.length_take_le k calls)

def Main.view (main : Main) (i : Fin n) : View σ :=
  match main with
  | .start j => ⟨[], false, false, false, decide (i.val < j), false⟩
  | .method (.add k) j stage =>
      ⟨given calls (if i.val < j ∨ i.val = j ∧ stage.updated then k + 1 else k) i, false,
        decide (i.val = j ∧ stage.holding), decide (i.val = j ∧ stage.updated), true, false⟩
  | .method .stop j stage =>
      ⟨given calls calls.length i, decide (i.val < j ∨ i.val = j ∧ stage.updated),
        decide (i.val = j ∧ stage.holding), decide (i.val = j ∧ stage.updated), true,
        decide (i.val < j)⟩
  | .arrive k => ⟨given calls k i, false, false, false, true, false⟩
  | .barrier k _ => ⟨given calls k i, false, false, false, true, false⟩
  | .join j => ⟨given calls calls.length i, decide (i.val ≤ j), false, false, true, decide (i.val < j)⟩
  | .done => ⟨given calls calls.length i, true, false, false, true, true⟩

def Main.visits : Main → Barrier.Visits
  | .start _ => ⟨0, false⟩
  | .method (.add k) _ _ => ⟨k + 1, false⟩
  | .method .stop _ _ => ⟨calls.length + 1, false⟩
  | .arrive k => ⟨k, false⟩
  | .barrier _ phase => ⟨phase + 1, true⟩
  | .join _ => ⟨calls.length + 1, false⟩
  | .done => ⟨calls.length + 1, false⟩

/-- The positions there are. -/
def Main.Valid (n : ℕ) : Main → Prop
  | .start j => j ≤ n
  | .method (.add k) j stage => k < calls.length ∧ (j < n ∨ j = n ∧ stage = .lock)
  | .method .stop j stage => j < n ∨ j = n ∧ stage = .lock
  | .arrive k => k ≤ calls.length
  | .barrier k phase => k ≤ calls.length ∧ phase = k
  | .join j => j < n
  | .done => True

end Positions

/-- With the mutex. -/
def Pc.critical : Pc σ → Bool
  | .test | .pull => true
  | _ => false

def Worker.visits (w : Worker σ) : Barrier.Visits :=
  match w.pc with
  | .unstarted | .loop | .arrive | .execute _ => ⟨w.pulled.length, false⟩
  | .barrier phase => ⟨phase + 1, true⟩
  | .lock | .test | .asleep | .pull | .done => ⟨w.pulled.length + 1, false⟩

structure Worker.Inv (v : View σ) (w : Worker σ) : Prop where
  fifo : w.pulled ++ w.q = v.given
  terminate : w.terminate = v.stopped
  heldByMain : w.m = some .main ↔ v.holds = true
  heldByWorker : w.m = some .worker ↔ w.pc.critical = true
  asleep : w.pc = .asleep → w.q = [] ∧ w.terminate = false ∨ v.waking = true
  pull : w.pc = .pull → w.q ≠ [] ∨ w.terminate = true
  token : ∀ phase, w.pc = .barrier phase → phase = w.pulled.length
  started : w.pc = .unstarted ↔ v.started = false
  executing : ∀ rest, w.pc = .execute rest → ∃ t, w.pulled.getLast? = some t ∧ rest <:+ t
  exited : w.pc = .done → w.terminate = true
  joined : v.joined = true → w.pc = .done

/-- All threads of the runtime: the main thread and its workers. -/
def State.visits (calls : List (Call σ n)) (s : State σ n) : Option (Fin n) → Barrier.Visits
  | none => s.main.visits calls
  | some i => (s.workers i).visits

structure Inv (calls : List (Call σ n)) (s : State σ n) : Prop where
  main : s.main.Valid calls n
  workers : ∀ i, (s.workers i).Inv (s.main.view calls i)
  barrier : Barrier.Inv s.barrier (s.visits calls)

section WorkerSteps

variable {v : View σ} {w w' : Worker σ} {b b' : Barrier} {mem mem' : σ}

theorem Worker.Inv.isStarted (h : w.Inv v) (hpc : w.pc ≠ .unstarted) : v.started = true := by
  cases hv : v.started with
  | false => exact absurd (h.started.mpr hv) hpc
  | true => rfl

theorem Worker.Inv.not_joined (h : w.Inv v) (hpc : w.pc ≠ .done) : v.joined = false := by
  cases hv : v.joined with
  | false => rfl
  | true => exact absurd (h.joined hv) hpc

theorem Worker.Inv.not_holding (h : w.Inv v) (hpc : w.pc.critical = false) : w.m ≠ some .worker :=
  fun hm => Bool.false_ne_true (hpc.symm.trans (h.heldByWorker.mp hm))

/-- While the worker is inside its mutex the main thread is not. -/
theorem Worker.Inv.exclusive (h : w.Inv v) (hpc : w.pc.critical = true) : v.holds = false := by
  rw [← Bool.not_eq_true, ← h.heldByMain, h.heldByWorker.mpr hpc]
  exact fun hm => nomatch hm

/-- A move outside of the mutex to a place where nothing more has to be known. -/
theorem Worker.Inv.goto (h : w.Inv v) (hpc : w.pc.critical = false) (hstarted : w.pc ≠ .unstarted)
    (hdone : w.pc ≠ .done) {pc : Pc σ}
    (hnew : pc = .loop ∨ pc = .arrive ∨ pc = .lock ∨ pc = .done ∧ w.terminate = true) :
    Worker.Inv v { w with pc := pc } where
  fifo := h.fifo
  terminate := h.terminate
  heldByMain := h.heldByMain
  heldByWorker := by
    have hcritical : pc.critical = false := by rcases hnew with rfl | rfl | rfl | ⟨rfl, -⟩ <;> rfl
    rw [hcritical]
    exact iff_of_false (h.not_holding hpc) Bool.false_ne_true
  asleep hp := by rcases hnew with rfl | rfl | rfl | ⟨rfl, -⟩ <;> cases hp
  pull hp := by rcases hnew with rfl | rfl | rfl | ⟨rfl, -⟩ <;> cases hp
  token _ hp := by rcases hnew with rfl | rfl | rfl | ⟨rfl, -⟩ <;> cases hp
  started := by
    rw [h.isStarted hstarted]
    refine iff_of_false ?_ nofun
    rcases hnew with rfl | rfl | rfl | ⟨rfl, -⟩ <;> exact fun hp => nomatch hp
  executing _ hp := by rcases hnew with rfl | rfl | rfl | ⟨rfl, -⟩ <;> cases hp
  exited hp := by
    rcases hnew with rfl | rfl | rfl | ⟨-, hterminate⟩
    · cases hp
    · cases hp
    · cases hp
    · exact hterminate
  joined hv := absurd (h.joined hv) hdone

/-- The worker leaves its mutex. -/
theorem Worker.Inv.release (h : w.Inv v) (hpc : w.pc.critical = true) {pc : Pc σ}
    (hnew : pc = .done ∧ w.terminate = true ∨ pc = .asleep ∧ w.q = [] ∧ w.terminate = false) :
    Worker.Inv v { w with pc := pc, m := none } where
  fifo := h.fifo
  terminate := h.terminate
  heldByMain := by
    rw [h.exclusive hpc]
    exact iff_of_false nofun nofun
  heldByWorker := by rcases hnew with ⟨rfl, -⟩ | ⟨rfl, -⟩ <;> exact iff_of_false nofun nofun
  asleep hp := by
    rcases hnew with ⟨rfl, -⟩ | ⟨-, hidle⟩
    · cases hp
    · exact .inl hidle
  pull hp := by rcases hnew with ⟨rfl, -⟩ | ⟨rfl, -⟩ <;> cases hp
  token _ hp := by rcases hnew with ⟨rfl, -⟩ | ⟨rfl, -⟩ <;> cases hp
  started := by
    have hstarted : w.pc ≠ .unstarted := fun hp => by rw [hp] at hpc; cases hpc
    rw [h.isStarted hstarted]
    rcases hnew with ⟨rfl, -⟩ | ⟨rfl, -⟩ <;> exact iff_of_false nofun nofun
  executing _ hp := by rcases hnew with ⟨rfl, -⟩ | ⟨rfl, -⟩ <;> cases hp
  exited hp := by
    rcases hnew with ⟨-, hterminate⟩ | ⟨rfl, -⟩
    · exact hterminate
    · cases hp
  joined hv := by
    have hdone : w.pc ≠ .done := fun hp => by rw [hp] at hpc; cases hpc
    rw [h.not_joined hdone] at hv
    cases hv

/-- A worker inside its mutex, which it may just have got. -/
theorem Worker.Inv.hold (h : w.Inv v) (hmain : v.holds = false) (hstarted : v.started = true)
    (hjoined : v.joined = false) {pc : Pc σ}
    (hnew : pc = .test ∨ pc = .pull ∧ (w.q ≠ [] ∨ w.terminate = true)) :
    Worker.Inv v { w with pc := pc, m := some .worker } where
  fifo := h.fifo
  terminate := h.terminate
  heldByMain := by
    rw [hmain]
    exact iff_of_false nofun nofun
  heldByWorker := by rcases hnew with rfl | ⟨rfl, -⟩ <;> exact iff_of_true rfl rfl
  asleep hp := by rcases hnew with rfl | ⟨rfl, -⟩ <;> cases hp
  pull hp := by
    rcases hnew with rfl | ⟨-, hready⟩
    · cases hp
    · exact hready
  token _ hp := by rcases hnew with rfl | ⟨rfl, -⟩ <;> cases hp
  started := by
    rw [hstarted]
    rcases hnew with rfl | ⟨rfl, -⟩ <;> exact iff_of_false nofun nofun
  executing _ hp := by rcases hnew with rfl | ⟨rfl, -⟩ <;> cases hp
  exited hp := by rcases hnew with rfl | ⟨rfl, -⟩ <;> cases hp
  joined hv := by
    rw [hjoined] at hv
    cases hv

/-- The worker runs what is left of the last task it pulled. -/
theorem Worker.Inv.running (h : w.Inv v) {w' : Worker σ} {rest t : Code σ}
    (hw : w'.pulled ++ w'.q = w.pulled ++ w.q ∧ w'.terminate = w.terminate) (hm : w'.m ≠ some .worker)
    (hmain : w'.m = some .main ↔ v.holds = true) (hpc : w'.pc = .execute rest)
    (hstarted : v.started = true) (hjoined : v.joined = false) (hlast : w'.pulled.getLast? = some t)
    (hrest : rest <:+ t) : w'.Inv v where
  fifo := hw.1.trans h.fifo
  terminate := hw.2.trans h.terminate
  heldByMain := hmain
  heldByWorker := by
    rw [hpc]
    exact iff_of_false hm nofun
  asleep hp := by rw [hpc] at hp; cases hp
  pull hp := by rw [hpc] at hp; cases hp
  token _ hp := by rw [hpc] at hp; cases hp
  started := by
    rw [hpc, hstarted]
    exact iff_of_false nofun nofun
  executing rest' hp := by
    rw [hpc] at hp
    cases hp
    exact ⟨t, hlast, hrest⟩
  exited hp := by rw [hpc] at hp; cases hp
  joined hv := by
    rw [hjoined] at hv
    cases hv

theorem Worker.Inv.arrived (h : w.Inv v) (hpc : w.pc = .arrive)
    (harrivals : w.pulled.length = b.phase) : Worker.Inv v { w with pc := .barrier b.phase } where
  fifo := h.fifo
  terminate := h.terminate
  heldByMain := h.heldByMain
  heldByWorker := iff_of_false (h.not_holding (hpc ▸ rfl)) nofun
  asleep := nofun
  pull := nofun
  token phase hp := by
    cases hp
    exact harrivals.symm
  started := by
    rw [h.isStarted (by rw [hpc]; nofun)]
    exact iff_of_false nofun nofun
  executing := nofun
  exited := nofun
  joined hv := by
    rw [h.not_joined (by rw [hpc]; nofun)] at hv
    cases hv

theorem WorkerStep.pc_ne (hstep : WorkerStep n w b mem w' b' mem') :
    w.pc ≠ .unstarted ∧ w.pc ≠ .done := by
  cases hstep <;> exact ⟨by simp [*], by simp [*]⟩

theorem Worker.Inv.step (h : w.Inv v) (hphase : w.visits.inside = false → w.visits.arrivals = b.phase)
    (hstep : WorkerStep n w b mem w' b' mem') : w'.Inv v := by
  obtain ⟨hstarted, hdone⟩ := hstep.pc_ne
  have hvs := h.isStarted hstarted
  have hvj := h.not_joined hdone
  cases hstep with
  | terminated hpc hterminate =>
      exact h.goto (hpc ▸ rfl) hstarted hdone (.inr (.inr (.inr ⟨rfl, hterminate⟩)))
  | loop hpc _ => exact h.goto (hpc ▸ rfl) hstarted hdone (.inr (.inl rfl))
  | arrive hpc =>
      rw [Worker.visits, hpc] at hphase
      exact h.arrived hpc (hphase rfl)
  | leave hpc _ => exact h.goto (hpc ▸ rfl) hstarted hdone (.inr (.inr (.inl rfl)))
  | lock hpc hfree =>
      have hmain : v.holds = false := by
        rw [← Bool.not_eq_true, ← h.heldByMain, hfree]
        exact nofun
      exact h.hold hmain hvs hvj (.inl rfl)
  | sleep hpc hempty hterminate => exact h.release (hpc ▸ rfl) (.inr ⟨rfl, hempty, hterminate⟩)
  | ready hpc hready =>
      have hcritical : w.pc.critical = true := hpc ▸ rfl
      have hnew := h.hold (h.exclusive hcritical) hvs hvj (.inr ⟨rfl, hready⟩)
      rw [← h.heldByWorker.mpr hcritical] at hnew
      exact hnew
  | exit hpc hterminate => exact h.release (hpc ▸ rfl) (.inl ⟨rfl, hterminate⟩)
  | pull hpc hterminate hq =>
      have hmain := h.exclusive (hpc ▸ rfl)
      refine h.running ⟨?_, rfl⟩ nofun ?_ rfl hvs hvj List.getLast?_concat List.suffix_rfl
      · rw [hq, List.append_assoc, List.singleton_append]
      · rw [hmain]
        exact iff_of_false nofun nofun
  | act hpc =>
      obtain ⟨t, hlast, hrest⟩ := h.executing _ hpc
      exact h.running ⟨rfl, rfl⟩ (h.not_holding (hpc ▸ rfl)) h.heldByMain rfl hvs hvj hlast
        ((List.suffix_cons _ _).trans hrest)
  | finished hpc => exact h.goto (hpc ▸ rfl) hstarted hdone (.inl rfl)

end WorkerSteps

section MainSteps

variable {v : View σ} {w : Worker σ}

theorem Worker.Inv.launched (h : w.Inv v) (hpc : w.pc = .unstarted) :
    Worker.Inv { v with started := true } { w with pc := .loop } where
  fifo := h.fifo
  terminate := h.terminate
  heldByMain := h.heldByMain
  heldByWorker := iff_of_false (h.not_holding (hpc ▸ rfl)) nofun
  asleep := nofun
  pull := nofun
  token := nofun
  started := iff_of_false nofun nofun
  executing := nofun
  exited := nofun
  joined hv := by
    have hdone := h.joined hv
    rw [hpc] at hdone
    cases hdone

theorem Worker.Inv.locked (h : w.Inv v) (hfree : w.m = none) :
    Worker.Inv { v with holds := true } { w with m := some .main } where
  fifo := h.fifo
  terminate := h.terminate
  heldByMain := iff_of_true rfl rfl
  heldByWorker := by
    refine iff_of_false nofun fun hpc => ?_
    have hm := h.heldByWorker.mpr hpc
    rw [hfree] at hm
    cases hm
  asleep := h.asleep
  pull := h.pull
  token := h.token
  started := h.started
  executing := h.executing
  exited := h.exited
  joined := h.joined

theorem Worker.Inv.not_critical (h : w.Inv v) (hheld : v.holds = true) : w.pc.critical = false := by
  rw [← Bool.not_eq_true]
  intro hpc
  rw [h.exclusive hpc] at hheld
  cases hheld

/-- The main thread changes the queue or the flag under the mutex: it will wake the worker up. -/
theorem Worker.Inv.updated (h : w.Inv v) (hheld : v.holds = true) {q given : List (Code σ)}
    {terminate stopped : Bool} (hq : w.pulled ++ q = given) (hterminate : terminate = stopped)
    (hmore : w.terminate = true → terminate = true) :
    Worker.Inv { v with given := given, stopped := stopped, waking := true }
      { w with q := q, terminate := terminate } where
  fifo := hq
  terminate := hterminate
  heldByMain := h.heldByMain
  heldByWorker := h.heldByWorker
  asleep _ := .inr rfl
  pull hp := by
    have hcritical := h.not_critical hheld
    rw [show w.pc = .pull from hp] at hcritical
    cases hcritical
  token := h.token
  started := h.started
  executing := h.executing
  exited hp := hmore (h.exited hp)
  joined := h.joined

theorem Worker.Inv.unlocked (h : w.Inv v) (hheld : v.holds = true) :
    Worker.Inv { v with holds := false } { w with m := none } where
  fifo := h.fifo
  terminate := h.terminate
  heldByMain := iff_of_false nofun nofun
  heldByWorker := by
    apply iff_of_false nofun
    rw [show w.pc.critical = false from h.not_critical hheld]
    exact nofun
  asleep := h.asleep
  pull := h.pull
  token := h.token
  started := h.started
  executing := h.executing
  exited := h.exited
  joined := h.joined

theorem Worker.notified_of_ne (hpc : w.pc ≠ .asleep) : w.notified = w := by
  rw [Worker.notified]
  split
  · exact absurd ‹_› hpc
  · rfl

theorem Worker.notified_of_asleep (hpc : w.pc = .asleep) : w.notified = { w with pc := .lock } := by
  rw [Worker.notified, hpc]

theorem Worker.notified_visits : w.notified.visits = w.visits := by
  by_cases hpc : w.pc = .asleep
  · rw [Worker.notified_of_asleep hpc, Worker.visits, Worker.visits, hpc]
  · rw [Worker.notified_of_ne hpc]

theorem Worker.Inv.woken (h : w.Inv v) : Worker.Inv { v with waking := false } w.notified := by
  by_cases hpc : w.pc = .asleep
  · rw [Worker.notified_of_asleep hpc]
    have hnew := h.goto (hpc ▸ rfl) (by rw [hpc]; nofun) (by rw [hpc]; nofun) (.inr (.inr (.inl rfl)))
    exact { hnew with asleep := nofun }
  · rw [Worker.notified_of_ne hpc]
    exact { h with asleep := fun hp => absurd hp hpc }

end MainSteps

section Runs

variable {calls : List (Call σ n)} {s s' : State σ n}

theorem State.visits_setWorker (s : State σ n) (i : Fin n) (w : Worker σ) (b : Barrier) (mem : σ) :
    State.visits calls { s.setWorker i w with barrier := b, mem := mem } =
      Function.update (s.visits calls) (some i) w.visits := by
  ext t
  cases t with
  | none => rfl
  | some j =>
      by_cases hj : j = i
      · subst hj
        rw [Function.update_self]
        exact congrArg Worker.visits (Function.update_self ..)
      · rw [Function.update_of_ne fun h => hj (Option.some.inj h)]
        exact congrArg Worker.visits (Function.update_of_ne hj ..)

theorem State.visits_main (s : State σ n) (main : Main) (b : Barrier) :
    State.visits calls { s with main := main, barrier := b } =
      Function.update (s.visits calls) none (main.visits calls) := by
  ext t
  cases t with
  | none =>
      rw [Function.update_self]
      rfl
  | some j =>
      rw [Function.update_of_ne (Option.some_ne_none j)]
      rfl

theorem Main.Valid.given_le {main : Main} (h : main.Valid calls n) (i : Fin n) :
    (main.view calls i).given.length ≤ calls.length := by
  have hle := fun k (hk : k ≤ calls.length) => (length_given_le calls k i).trans hk
  cases main with
  | start j => exact Nat.zero_le _
  | method op j stage =>
      cases op with
      | add k =>
          apply hle _
          have hk : k < calls.length := h.1
          split <;> omega
      | stop => exact hle _ le_rfl
  | arrive k => exact hle k h
  | barrier k phase => exact hle k h.1
  | join j => exact hle _ le_rfl
  | done => exact hle _ le_rfl

/-- Once a worker is being stopped, all threads have passed the wait after the last call. -/
theorem Inv.stopped_phase (h : Inv calls s) {i : Fin n}
    (hstopped : (s.main.view calls i).stopped = true) : s.barrier.phase = calls.length + 1 := by
  have houtside := h.barrier.outside none
  cases hmain : s.main with
  | start j => rw [hmain] at hstopped; cases hstopped
  | method op j stage =>
      cases op with
      | add k => rw [hmain] at hstopped; cases hstopped
      | stop =>
          rw [State.visits, hmain] at houtside
          exact (houtside rfl).symm
  | arrive k => rw [hmain] at hstopped; cases hstopped
  | barrier k phase => rw [hmain] at hstopped; cases hstopped
  | join j =>
      rw [State.visits, hmain] at houtside
      exact (houtside rfl).symm
  | done =>
      rw [State.visits, hmain] at houtside
      exact (houtside rfl).symm

theorem Inv.pulled_le (h : Inv calls s) (i : Fin n) : (s.workers i).pulled.length ≤ calls.length := by
  refine le_trans ?_ (h.main.given_le i)
  rw [← (h.workers i).fifo, List.length_append]
  exact Nat.le_add_right _ _

/-- A worker that has work, or that may still get some, has not been stopped. -/
theorem Inv.not_stopped (h : Inv calls s) {i : Fin n}
    (hvisits : (s.workers i).visits = ⟨(s.workers i).pulled.length, false⟩) :
    (s.workers i).terminate = false := by
  rw [← Bool.not_eq_true]
  intro hterminate
  rw [(h.workers i).terminate] at hterminate
  have hphase := h.barrier.outside (some i)
  rw [State.visits, hvisits, h.stopped_phase hterminate] at hphase
  have hle := h.pulled_le i
  have hlength : (s.workers i).pulled.length = calls.length + 1 := hphase rfl
  omega

/-- A step of a worker, seen from the barrier. -/
theorem WorkerStep.visits {v : View σ} {w w' : Worker σ} {b b' : Barrier} {mem mem' : σ} (h : w.Inv v)
    (hphase : w.visits.inside = false → w.visits.arrivals = b.phase)
    (hloop : w.pc = .loop → w.terminate = false) (hstep : WorkerStep n w b mem w' b' mem') :
    w'.visits = w.visits ∧ b' = b ∨
      w.visits.inside = false ∧ w'.visits = ⟨w.visits.arrivals + 1, true⟩ ∧ b' = b.arrive (n + 1) ∨
      w.visits.arrivals ≠ b.phase + 1 ∧ w'.visits = ⟨w.visits.arrivals, false⟩ ∧ b' = b := by
  cases hstep with
  | terminated hpc hterminate =>
      rw [hloop hpc] at hterminate
      cases hterminate
  | loop hpc _ => exact .inl ⟨by rw [Worker.visits, Worker.visits, hpc], rfl⟩
  | arrive hpc =>
      have hvisits : w.visits = ⟨w.pulled.length, false⟩ := by rw [Worker.visits, hpc]
      rw [hvisits] at hphase ⊢
      exact .inr (.inl ⟨rfl, by rw [hphase rfl]; rfl, rfl⟩)
  | leave hpc hne =>
      have hvisits : w.visits = ⟨w.pulled.length + 1, true⟩ := by
        rw [Worker.visits, hpc, ← h.token _ hpc]
      rw [h.token _ hpc] at hne
      rw [hvisits]
      exact .inr (.inr ⟨fun heq => hne (Nat.succ_injective heq).symm, rfl, rfl⟩)
  | lock hpc _ => exact .inl ⟨by rw [Worker.visits, Worker.visits, hpc], rfl⟩
  | sleep hpc _ _ => exact .inl ⟨by rw [Worker.visits, Worker.visits, hpc], rfl⟩
  | ready hpc _ => exact .inl ⟨by rw [Worker.visits, Worker.visits, hpc], rfl⟩
  | exit hpc _ => exact .inl ⟨by rw [Worker.visits, Worker.visits, hpc], rfl⟩
  | pull hpc _ _ =>
      refine .inl ⟨?_, rfl⟩
      rw [Worker.visits, Worker.visits, hpc]
      exact congrArg (Barrier.Visits.mk · false) List.length_append
  | act hpc => exact .inl ⟨by rw [Worker.visits, Worker.visits, hpc], rfl⟩
  | finished hpc => exact .inl ⟨by rw [Worker.visits, Worker.visits, hpc], rfl⟩

theorem Inv.worker (h : Inv calls s) {i : Fin n} {w : Worker σ} {b : Barrier} {mem : σ}
    (hstep : WorkerStep n (s.workers i) s.barrier s.mem w b mem) :
    Inv calls { s.setWorker i w with barrier := b, mem := mem } where
  main := h.main
  workers j := by
    by_cases hj : j = i
    · subst hj
      change (Function.update s.workers j w j).Inv _
      rw [Function.update_self]
      exact (h.workers j).step (h.barrier.outside (some j)) hstep
    · change (Function.update s.workers i w j).Inv _
      rw [Function.update_of_ne hj]
      exact h.workers j
  barrier := by
    have hloop : (s.workers i).pc = .loop → (s.workers i).terminate = false := fun hpc =>
      h.not_stopped (by rw [Worker.visits, hpc])
    have hcard : Fintype.card (Option (Fin n)) = n + 1 := by rw [Fintype.card_option, Fintype.card_fin]
    rw [State.visits_setWorker]
    rcases hstep.visits (h.workers i) (h.barrier.outside (some i)) hloop with
      ⟨hv, rfl⟩ | ⟨hout, hv, rfl⟩ | ⟨hreleased, hv, rfl⟩
    · rw [hv]
      exact (Function.update_eq_self (some i) (s.visits calls)).symm ▸ h.barrier
    · rw [hv, ← hcard]
      exact h.barrier.arrive (t := some i) hout
    · rw [hv]
      exact h.barrier.leave (t := some i) hreleased

/-- The main thread moves on to where it says the same about every worker. -/
theorem Inv.moveMain (h : Inv calls s) {main : Main} {b : Barrier} (hvalid : main.Valid calls n)
    (hbarrier : Barrier.Inv b (Function.update (s.visits calls) none (main.visits calls)))
    (hview : ∀ j, main.view calls j = s.main.view calls j) :
    Inv calls { s with main := main, barrier := b } where
  main := hvalid
  workers j := hview j ▸ h.workers j
  barrier := s.visits_main main b ▸ hbarrier

theorem Inv.sameVisits (h : Inv calls s) {main : Main}
    (hvisits : main.visits calls = s.main.visits calls) :
    Barrier.Inv s.barrier (Function.update (s.visits calls) none (main.visits calls)) := by
  rw [hvisits]
  exact (Function.update_eq_self none (s.visits calls)).symm ▸ h.barrier

/-- The main thread changes one worker and moves on. -/
theorem Inv.changeWorker (h : Inv calls s) {main : Main} {i : Fin n} {w : Worker σ}
    (hvalid : main.Valid calls n) (hvisits : main.visits calls = s.main.visits calls)
    (hw : w.visits = (s.workers i).visits) (hworker : w.Inv (main.view calls i))
    (hview : ∀ j, j ≠ i → main.view calls j = s.main.view calls j) :
    Inv calls { s.setWorker i w with main := main } where
  main := hvalid
  workers j := by
    by_cases hj : j = i
    · subst hj
      change (Function.update s.workers j w j).Inv _
      rw [Function.update_self]
      exact hworker
    · change (Function.update s.workers i w j).Inv _
      rw [Function.update_of_ne hj, hview j hj]
      exact h.workers j
  barrier := by
    have hsame : State.visits calls { s.setWorker i w with main := main } = s.visits calls := by
      ext t
      cases t with
      | none => exact hvisits
      | some j =>
          by_cases hj : j = i
          · subst hj
            change (Function.update s.workers j w j).visits = _
            rw [Function.update_self]
            exact hw
          · change (Function.update s.workers i w j).visits = _
            rw [Function.update_of_ne hj]
            rfl
    rw [hsame]
    exact h.barrier

section Views

variable {op : Op} {k : ℕ} {i j : Fin n}

theorem view_start_of_ne (hj : j ≠ i) :
    Main.view calls (.start (i + 1)) j = Main.view calls (.start i) j := by
  have hval := Fin.val_ne_of_ne hj
  have hiff : j.val < i.val + 1 ↔ j.val < i.val := by omega
  simp only [Main.view, hiff]

theorem view_stage_of_ne (hj : j ≠ i) (stage stage' : Stage) :
    Main.view calls (.method op i stage) j = Main.view calls (.method op i stage') j := by
  have hval := Fin.val_ne_of_ne hj
  cases op with
  | add k => simp only [Main.view, hval, false_and]
  | stop => simp only [Main.view, hval, false_and]

theorem view_next_of_ne (op : Op) (hj : j ≠ i) (stage : Stage) :
    Main.view calls (op.next i) j = Main.view calls (.method op i stage) j := by
  have hval := Fin.val_ne_of_ne hj
  cases op with
  | add k =>
      have hiff : j.val < i.val + 1 ↔ j.val < i.val := by omega
      simp [Main.view, Op.next, Stage.updated, Stage.holding, hval, hiff]
  | stop =>
      have hiff : j.val ≤ i.val ↔ j.val < i.val := by omega
      simp [Main.view, Op.next, hval, hiff]

theorem view_lock (op : Op) (i : Fin n) :
    Main.view calls (.method op i .update) i =
      { Main.view calls (.method op i .lock) i with holds := true } := by
  cases op with
  | add k => simp [Main.view, Stage.updated, Stage.holding]
  | stop => simp [Main.view, Stage.updated, Stage.holding]

theorem view_unlock (op : Op) (i : Fin n) :
    Main.view calls (.method op i .notify) i =
      { Main.view calls (.method op i .unlock) i with holds := false } := by
  cases op with
  | add k => simp [Main.view, Stage.updated, Stage.holding]
  | stop => simp [Main.view, Stage.updated, Stage.holding]

theorem view_notify (op : Op) (i : Fin n) :
    Main.view calls (op.next i) i =
      { Main.view calls (.method op i .notify) i with waking := false } := by
  cases op with
  | add k => simp [Main.view, Op.next, Stage.updated, Stage.holding]
  | stop => simp [Main.view, Op.next, Stage.updated, Stage.holding]

theorem view_skip (hnone : taskOf calls k i = none) (j : Fin n) :
    Main.view calls (.method (.add k) (i + 1) .lock) j =
      Main.view calls (.method (.add k) i .lock) j := by
  by_cases hj : j = i
  · subst hj
    have hgiven : given calls (k + 1) j = given calls k j := by
      rw [given_succ, hnone]
      exact List.append_nil _
    simp [Main.view, Stage.updated, Stage.holding, hgiven]
  · exact view_next_of_ne (.add k) hj .lock

theorem view_afterCalls (hk : k ≤ calls.length) (phase : ℕ) (j : Fin n) :
    Main.view calls (.afterCalls calls k) j = Main.view calls (.barrier k phase) j := by
  rw [Main.afterCalls]
  split
  · simp [Main.view, Stage.updated, Stage.holding]
  · rename_i hlast
    obtain rfl : k = calls.length := by omega
    simp [Main.view, Stage.updated, Stage.holding]

theorem view_join (i j : Fin n) :
    Main.view calls (.method .stop (i + 1) .lock) j =
      { Main.view calls (.join i) j with joined := decide (j.val ≤ i.val) } := by
  have hiff : j.val < i.val + 1 ↔ j.val ≤ i.val := by omega
  simp [Main.view, Stage.updated, Stage.holding, hiff]

end Views

theorem Main.Valid.after (i : Fin n) : i.val + 1 < n ∨ i.val + 1 = n ∧ Stage.lock = .lock := by
  have hlt := i.isLt
  rcases Nat.lt_or_eq_of_le (show i.val + 1 ≤ n by omega) with hlt | heq
  · exact .inl hlt
  · exact .inr ⟨heq, rfl⟩

theorem Main.Valid.next {op : Op} {i : Fin n} {stage : Stage}
    (h : Main.Valid calls n (.method op i stage)) : (op.next i).Valid calls n := by
  cases op with
  | add k => exact ⟨h.1, Main.Valid.after i⟩
  | stop => exact i.isLt

theorem Main.Valid.stage {op : Op} {i : Fin n} {stage : Stage}
    (h : Main.Valid calls n (.method op i stage)) (stage' : Stage) :
    Main.Valid calls n (.method op i stage') := by
  cases op with
  | add k => exact ⟨h.1, .inl i.isLt⟩
  | stop => exact .inl i.isLt

theorem visits_method (op : Op) (i j : ℕ) (stage stage' : Stage) :
    Main.visits calls (.method op i stage) = Main.visits calls (.method op j stage') := by
  cases op with
  | add k => rfl
  | stop => rfl

theorem visits_next (op : Op) (i : ℕ) (stage : Stage) :
    Main.visits calls (op.next i) = Main.visits calls (.method op i stage) := by
  cases op with
  | add k => rfl
  | stop => rfl

theorem Inv.mainStep (h : Inv calls s) (hstep : MainStep calls s s') : Inv calls s' := by
  have hvalid := h.main
  cases hstep with
  | @start i hmain =>
      rw [hmain] at hvalid
      have hworker := h.workers i
      rw [hmain] at hworker
      have hpc : (s.workers i).pc = .unstarted := hworker.started.mpr (by simp [Main.view])
      have hvisits : Worker.visits { s.workers i with pc := .loop } = (s.workers i).visits := by
        rw [Worker.visits, Worker.visits, hpc]
      refine h.changeWorker i.isLt (by rw [hmain]; rfl) hvisits ?_ ?_
      · have hlaunched := hworker.launched hpc
        simpa [Main.view] using hlaunched
      · intro j hj
        rw [hmain, view_start_of_ne hj]
  | started hmain =>
      rw [hmain] at hvalid
      have hview : ∀ j : Fin n, Main.view calls (.arrive 0) j = Main.view calls (.start n) j := by
        intro j
        simp [Main.view, given]
      exact h.moveMain (Nat.zero_le _) (h.sameVisits (by rw [hmain]; rfl)) (by rw [hmain]; exact hview)
  | @skip k i hmain hnone =>
      rw [hmain] at hvalid
      have hvisits : Main.visits calls (.method (.add k) (i + 1) .lock) = s.main.visits calls := by
        rw [hmain]
        exact visits_method ..
      refine h.moveMain ⟨hvalid.1, Main.Valid.after i⟩ (h.sameVisits hvisits) fun j => ?_
      rw [hmain, view_skip hnone]
  | @lock op i hmain _ hfree =>
      rw [hmain] at hvalid
      have hworker := (h.workers i).locked hfree
      rw [hmain, ← view_lock] at hworker
      refine h.changeWorker (hvalid.stage _) (by rw [hmain]; exact visits_method ..) rfl hworker ?_
      intro j hj
      rw [hmain, view_stage_of_ne hj]
  | @update op i hmain =>
      rw [hmain] at hvalid
      have hworker := h.workers i
      rw [hmain] at hworker
      have hholds : (Main.view calls (.method op i .update) i).holds = true := by
        cases op <;> simp [Main.view, Stage.holding]
      apply h.changeWorker (hvalid.stage _) (by rw [hmain]; exact visits_method ..)
      · cases op <;> rfl
      · cases op with
        | add k =>
            have hfifo := hworker.fifo
            have hgiven : (s.workers i).pulled ++ ((s.workers i).q ++ (taskOf calls k i).toList) =
                given calls (k + 1) i := by
              rw [← List.append_assoc, hfifo, given_succ]
              simp [Main.view, Stage.updated]
            have hupdated := hworker.updated hholds hgiven hworker.terminate id
            simpa [Main.view, Stage.updated, Stage.holding, Op.update] using hupdated
        | stop =>
            have hupdated := hworker.updated hholds hworker.fifo (rfl : true = true) fun _ => rfl
            simpa [Main.view, Stage.updated, Stage.holding, Op.update] using hupdated
      · intro j hj
        rw [hmain, view_stage_of_ne hj]
  | @unlock op i hmain =>
      rw [hmain] at hvalid
      have hholds : (Main.view calls (.method op i .unlock) i).holds = true := by
        cases op <;> simp [Main.view, Stage.holding]
      have hworker := h.workers i
      rw [hmain] at hworker
      have hunlocked := hworker.unlocked hholds
      rw [← view_unlock] at hunlocked
      refine h.changeWorker (hvalid.stage _) (by rw [hmain]; exact visits_method ..) rfl hunlocked ?_
      intro j hj
      rw [hmain, view_stage_of_ne hj]
  | @notify op i hmain =>
      rw [hmain] at hvalid
      have hworker := (h.workers i).woken
      rw [hmain, ← view_notify] at hworker
      have hvisits : (op.next i).visits calls = s.main.visits calls := by
        rw [hmain]
        exact visits_next ..
      refine h.changeWorker hvalid.next hvisits Worker.notified_visits hworker fun j hj => ?_
      rw [hmain, view_next_of_ne op hj]
  | @added k hmain =>
      rw [hmain] at hvalid
      have hview : ∀ j : Fin n, Main.view calls (.arrive (k + 1)) j =
          Main.view calls (.method (.add k) n .lock) j := by
        intro j
        have hne : j.val ≠ n := j.isLt.ne
        simp [Main.view, Stage.updated, Stage.holding]
      exact h.moveMain hvalid.1 (h.sameVisits (by rw [hmain]; rfl)) (by rw [hmain]; exact hview)
  | @arrive k hmain =>
      rw [hmain] at hvalid
      have hcard : Fintype.card (Option (Fin n)) = n + 1 := by simp
      have hvisits : s.visits calls none = ⟨k, false⟩ := by rw [State.visits, hmain]; rfl
      have hphase := h.barrier.outside none (by rw [hvisits])
      rw [hvisits] at hphase
      have hbarrier := h.barrier.arrive (t := none) (by rw [hvisits])
      rw [hvisits, hcard] at hbarrier
      refine h.moveMain ⟨hvalid, hphase.symm⟩ ?_ (by rw [hmain]; exact fun j => rfl)
      rw [← hphase]
      exact hbarrier
  | @leave k phase hmain hne =>
      rw [hmain] at hvalid
      obtain ⟨hk, rfl⟩ := hvalid
      have hvisits : s.visits calls none = ⟨phase + 1, true⟩ := by rw [State.visits, hmain]; rfl
      have hreleased : (s.visits calls none).arrivals ≠ s.barrier.phase + 1 := by
        rw [hvisits]
        exact fun heq => hne (Nat.succ_injective heq).symm
      have hbarrier := h.barrier.leave (t := none) hreleased
      rw [hvisits] at hbarrier
      have hnext : (Main.afterCalls calls phase).visits calls = ⟨phase + 1, false⟩ := by
        rw [Main.afterCalls]
        split
        · rfl
        · rw [show phase = calls.length by omega]
          rfl
      refine h.moveMain ?_ (hnext ▸ hbarrier) fun j => ?_
      · rw [Main.afterCalls]
        split
        · exact ⟨‹_›, n.eq_zero_or_pos.elim (fun h => .inr ⟨h.symm, rfl⟩) .inl⟩
        · exact n.eq_zero_or_pos.elim (fun h => .inr ⟨h.symm, rfl⟩) .inl
      · rw [hmain, view_afterCalls hk]
  | @join i hmain hdone =>
      have hworker := h.workers
      rw [hmain] at hworker
      refine ⟨Main.Valid.after i, fun j => ?_, ?_⟩
      · change (s.workers j).Inv (Main.view calls (.method .stop (i + 1) .lock) j)
        rw [view_join]
        refine { hworker j with joined := fun hj => ?_ }
        rcases Nat.lt_or_eq_of_le (of_decide_eq_true hj) with hlt | heq
        · exact (hworker j).joined (decide_eq_true hlt)
        · rw [Fin.eq_of_val_eq heq]
          exact hdone
      · have hvisits : Main.visits calls (.method .stop (i + 1) .lock) = s.main.visits calls := by
          rw [hmain]
          rfl
        have hbarrier := h.sameVisits hvisits
        rw [← State.visits_main s _ s.barrier] at hbarrier
        exact hbarrier
  | stopped hmain =>
      have hview : ∀ j : Fin n,
          Main.view calls .done j = Main.view calls (.method .stop n .lock) j := by
        intro j
        have hne : j.val ≠ n := j.isLt.ne
        simp [Main.view, Stage.updated, Stage.holding]
      exact h.moveMain trivial (h.sameVisits (by rw [hmain]; rfl)) (by rw [hmain]; exact hview)

theorem Inv.wake (h : Inv calls s) {i : Fin n} (hpc : (s.workers i).pc = .asleep) :
    Inv calls (s.setWorker i { s.workers i with pc := .lock }) := by
  have hworker := (h.workers i).goto (hpc ▸ rfl) (by rw [hpc]; nofun) (by rw [hpc]; nofun)
    (.inr (.inr (.inl rfl)))
  have hvisits : Worker.visits { s.workers i with pc := .lock } = (s.workers i).visits := by
    rw [Worker.visits, Worker.visits, hpc]
  have hsame : ∀ j, j ≠ i → s.main.view calls j = s.main.view calls j := fun _ _ => rfl
  exact h.changeWorker h.main rfl hvisits hworker hsame

theorem Inv.init (calls : List (Call σ n)) (mem : σ) : Inv calls (init n mem) where
  main := Nat.zero_le n
  workers i :=
    { fifo := rfl
      terminate := rfl
      heldByMain := iff_of_false nofun nofun
      heldByWorker := iff_of_false nofun nofun
      asleep := nofun
      pull := nofun
      token := nofun
      started := iff_of_true rfl rfl
      executing := nofun
      exited := nofun
      joined := nofun }
  barrier := by
    have hvisits : State.visits calls (WorkerPool.init n mem) = fun _ => ⟨0, false⟩ := by
      ext t
      cases t <;> rfl
    rw [hvisits]
    exact Barrier.Inv.start

theorem Inv.next (h : Inv calls s) (hstep : Step calls s s' ∨ Wake s s') : Inv calls s' := by
  rcases hstep with hstep | hwake
  · cases hstep with
    | main hmain => exact h.mainStep hmain
    | worker hworker => exact h.worker hworker
  · cases hwake with
    | wake hpc => exact h.wake hpc

theorem reachable_inv {mem : σ} (h : Reachable calls mem s) : Inv calls s := by
  induction h with
  | refl => exact Inv.init calls mem
  | tail _ hstep ih => exact ih.next hstep

end Runs

end CryptDough.WorkerPool
