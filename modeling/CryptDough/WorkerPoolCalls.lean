import CryptDough.WorkerPoolInvariant

/-! What a call through the worker pool does. When the wait that follows a call returns, every worker
has executed the tasks it has in the calls up to it, each once and in order, and nothing else; tasks of
different calls never run at the same time. So the memory is the one that the calls leave when each of
them is run by one thread, as long as the tasks of a call do not depend on each other. -/

namespace CryptDough.WorkerPool

open Threads

variable {σ : Type} {n : ℕ} {calls : List (Call σ n)} {s s' : State σ n} {k : ℕ} {i : Fin n}

section Positions

theorem Worker.Inv.visits_bounds {v : View σ} {w : Worker σ} (h : w.Inv v) :
    w.pulled.length ≤ w.visits.arrivals ∧ w.visits.arrivals ≤ w.pulled.length + 1 := by
  rw [Worker.visits]
  cases hpc : w.pc with
  | barrier phase =>
      have htoken := h.token phase hpc
      simp only
      omega
  | _ =>
      simp only
      omega

theorem Inv.phase_le (h : Inv calls s) (i : Fin n) :
    s.barrier.phase ≤ (s.workers i).pulled.length + 1 := by
  have hbounds := (h.workers i).visits_bounds
  have harrivals := h.barrier.arrivals (some i)
  simp only [State.visits] at harrivals
  omega

/-- A worker that executes a task has pulled one for every phase so far. -/
theorem Inv.executing_phase (h : Inv calls s) {rest : Code σ} (hpc : (s.workers i).pc = .execute rest) :
    (s.workers i).pulled.length = s.barrier.phase := by
  have houtside := h.barrier.outside (some i)
  have hvisits : (s.workers i).visits = ⟨(s.workers i).pulled.length, false⟩ := by
    rw [Worker.visits, hpc]
  rw [State.visits, hvisits] at houtside
  exact houtside rfl

theorem Inv.pulled_given (h : Inv calls s) {ts : List (Code σ)}
    (hgiven : (s.main.view calls i).given = ts) (hlength : ts.length ≤ (s.workers i).pulled.length) :
    (s.workers i).pulled = ts ∧ (s.workers i).q = [] := by
  have hfifo := (h.workers i).fifo
  rw [hgiven] at hfifo
  have hq : (s.workers i).q = [] := by
    rw [← hfifo, List.length_append] at hlength
    exact List.length_eq_zero_iff.mp (by omega)
  rw [hq, List.append_nil] at hfifo
  exact ⟨hfifo, hq⟩

/-- All workers once all threads have passed the wait that follows the first `k` calls, and the main
thread has given no task since. -/
theorem Inv.round_done (h : Inv calls s) (hphase : s.barrier.phase = k + 1)
    (hgiven : (s.main.view calls i).given = given calls k i) :
    (s.workers i).pulled = given calls k i ∧ (s.workers i).q = [] ∧
      (given calls k i).length = k ∧ ∀ rest, (s.workers i).pc ≠ .execute rest := by
  have hle := h.phase_le i
  have hlength := length_given_le calls k i
  obtain ⟨hpulled, hq⟩ := h.pulled_given hgiven (by omega)
  rw [hpulled] at hle
  refine ⟨hpulled, hq, by omega, fun rest hpc => ?_⟩
  have hexecuting := h.executing_phase hpc
  rw [hpulled] at hexecuting
  omega

theorem Main.afterCalls_view (hk : k ≤ calls.length) (i : Fin n) :
    (Main.view calls (.afterCalls calls k) i).given = given calls k i := by
  rw [view_afterCalls hk 0]
  rfl

theorem Main.afterCalls_visits (hk : k ≤ calls.length) :
    (Main.afterCalls calls k).visits calls = ⟨k + 1, false⟩ := by
  rw [Main.afterCalls]
  split
  · rfl
  · rw [show k = calls.length by omega]
    rfl

theorem Inv.afterCalls_phase (h : Inv calls s) (hk : k ≤ calls.length)
    (hmain : s.main = .afterCalls calls k) : s.barrier.phase = k + 1 := by
  have houtside := h.barrier.outside none
  rw [State.visits, hmain, Main.afterCalls_visits hk] at houtside
  exact (houtside rfl).symm

/-- A list of as many tasks as there are calls has one of every call. -/
theorem map_some_given (hk : k ≤ calls.length) (hlength : (given calls k i).length = k) :
    (given calls k i).map some = (calls.take k).map (· i) := by
  have hfull : ((calls.take k).filterMap (· i)).length = (calls.take k).length := by
    rw [List.length_take, min_eq_left hk]
    exact hlength
  rw [List.filterMap_length_eq_length] at hfull
  rw [given]
  generalize calls.take k = l at hfull ⊢
  induction l with
  | nil => rfl
  | cons call l ih =>
      obtain ⟨t, ht⟩ := Option.isSome_iff_exists.mp (hfull call List.mem_cons_self)
      rw [List.filterMap_cons_some (f := fun call : Call σ n => call i) ht, List.map_cons,
        List.map_cons, ht, ih fun c hc => hfull c (List.mem_cons_of_mem call hc)]

theorem Inv.returned (h : Inv calls s) (hk : k ≤ calls.length) (hmain : s.main = .afterCalls calls k)
    (i : Fin n) :
    (s.workers i).pulled.map some = (calls.take k).map (· i) ∧ (s.workers i).q = [] ∧
      ∀ rest, (s.workers i).pc ≠ .execute rest := by
  obtain ⟨hpulled, hq, hlength, hidle⟩ := h.round_done (i := i) (h.afterCalls_phase hk hmain)
    (by rw [hmain, Main.afterCalls_view hk])
  rw [hpulled]
  exact ⟨map_some_given hk hlength, hq, hidle⟩

/-- The call whose tasks the main thread hands out or waits for. -/
def Main.call : Main → Option ℕ
  | .method (.add k) _ _ => some k
  | .arrive (k + 1) => some k
  | .barrier (k + 1) _ => some k
  | _ => none

/-- The last task that a worker was given, when it has as many tasks as there were calls. -/
theorem last_given (hlength : (given calls (k + 1) i).length = k + 1) :
    ∃ t, taskOf calls k i = some t ∧ (given calls (k + 1) i).getLast? = some t := by
  rw [given_succ] at hlength ⊢
  cases htask : taskOf calls k i with
  | none =>
      have hle := length_given_le calls k i
      rw [htask, List.length_append] at hlength
      have hnil : (none : Option (Code σ)).toList.length = 0 := rfl
      omega
  | some t => exact ⟨t, rfl, List.getLast?_concat⟩

theorem Inv.executing (h : Inv calls s) {rest : Code σ} (hpc : (s.workers i).pc = .execute rest) :
    ∃ k t, s.main.call = some k ∧ k < calls.length ∧ taskOf calls k i = some t ∧ rest <:+ t ∧
      (s.workers i).pulled = given calls (k + 1) i := by
  have hphase := h.executing_phase hpc
  obtain ⟨t, hlast, hrest⟩ := (h.workers i).executing rest hpc
  have hpos : 0 < (s.workers i).pulled.length := by
    rw [List.length_pos_iff]
    intro hnil
    rw [hnil] at hlast
    cases hlast
  have hle : (s.workers i).pulled.length ≤ (s.main.view calls i).given.length := by
    rw [← (h.workers i).fifo, List.length_append]
    exact Nat.le_add_right _ _
  have hvalid := h.main
  have hmain := h.barrier.arrivals none
  have houtside := h.barrier.outside none
  -- the position says how many tasks the worker may have been given
  have hfinish : ∀ k, s.main.call = some k → k < calls.length → (s.workers i).pulled.length = k + 1 →
      (s.main.view calls i).given = given calls (k + 1) i →
      ∃ k t, s.main.call = some k ∧ k < calls.length ∧ taskOf calls k i = some t ∧ rest <:+ t ∧
        (s.workers i).pulled = given calls (k + 1) i := by
    intro k hcall hk hpulled hgiven
    have hlength := length_given_le calls (k + 1) i
    obtain ⟨heq, -⟩ := h.pulled_given hgiven (by omega)
    obtain ⟨t', htask, hlast'⟩ := last_given (k := k) (i := i) (by rw [← heq, hpulled])
    rw [heq, hlast'] at hlast
    cases hlast
    exact ⟨k, t, hcall, hk, htask, hrest, heq⟩
  cases hm : s.main with
  | start j =>
      rw [hm] at hle
      exact absurd hle (Nat.not_le.mpr hpos)
  | method op j stage =>
      cases op with
      | add k =>
          rw [State.visits, hm] at houtside
          rw [hm] at hvalid hle hfinish
          have hk : k + 1 = s.barrier.phase := houtside rfl
          apply hfinish k rfl hvalid.1 (by omega)
          have hgiven := length_given_le calls k i
          simp only [Main.view] at hle ⊢
          split at hle
          · rw [if_pos ‹_›]
          · omega
      | stop =>
          rw [State.visits, hm] at houtside
          have hpulled := h.pulled_le i
          have hk : calls.length + 1 = s.barrier.phase := houtside rfl
          omega
  | arrive k =>
      rw [State.visits, hm] at houtside
      rw [hm] at hvalid hfinish
      have hk : k = s.barrier.phase := houtside rfl
      cases k with
      | zero => omega
      | succ k => exact hfinish k rfl hvalid (by omega) rfl
  | barrier k phase =>
      rw [State.visits, hm] at hmain
      rw [hm] at hvalid hfinish hle
      obtain ⟨hk, rfl⟩ := hvalid
      have hgiven := length_given_le calls phase i
      have hle : (s.workers i).pulled.length ≤ (given calls phase i).length := hle
      have hmain : phase + 1 = s.barrier.phase ∨ phase + 1 = s.barrier.phase + 1 := hmain
      cases phase with
      | zero => omega
      | succ k => exact hfinish k rfl hk (by omega) rfl
  | join j =>
      rw [State.visits, hm] at houtside
      have hpulled := h.pulled_le i
      have hk : calls.length + 1 = s.barrier.phase := houtside rfl
      omega
  | done =>
      rw [State.visits, hm] at houtside
      have hpulled := h.pulled_le i
      have hk : calls.length + 1 = s.barrier.phase := houtside rfl
      omega

end Positions

section Memory

variable (calls)

/-- What the call does when its tasks run one after the other. -/
def callResult (call : Call σ n) (mem : σ) : σ :=
  inTurn (List.finRange n) (fun i => (call i).getD []) mem

def callsResult (mem : σ) : σ := calls.foldl (fun m call => callResult call m) mem

/-- Tasks of one call for different workers do not depend on each other. -/
def Independent : Prop :=
  ∀ call ∈ calls, ∀ i j, i ≠ j → ∀ t ∈ call i, ∀ u ∈ call j, ∀ a ∈ t, ∀ b ∈ u, Function.Commute a b

/-- How many calls have started when the main thread is there. -/
def Main.upto : Main → ℕ
  | .start _ => 0
  | .method (.add k) _ _ => k + 1
  | .arrive k | .barrier k _ => k
  | .method .stop _ _ | .join _ | .done => calls.length

def Pc.rest : Pc σ → Code σ
  | .execute rest => rest
  | _ => []

/-- What a worker has not done yet of the calls that have started. -/
def State.owed (s : State σ n) (i : Fin n) : Code σ :=
  (s.workers i).pc.rest ++
    ((given calls (s.main.upto calls) i).drop (s.workers i).pulled.length).flatten

/-- The memory, when the workers do what they still owe one after the other, is that of the calls. -/
structure MemInv (mem : σ) (s : State σ n) : Prop where
  owed : inTurn (List.finRange n) (s.owed calls) s.mem =
    callsResult (calls.take (s.main.upto calls)) mem
  returned : ∀ k ≤ calls.length, s.main = .afterCalls calls k → s.mem = callsResult (calls.take k) mem

variable {calls} {mem : σ}

theorem callsResult_take_succ (hk : k < calls.length) :
    callsResult (calls.take (k + 1)) mem = callResult calls[k] (callsResult (calls.take k) mem) := by
  rw [callsResult, List.take_add_one, List.foldl_append, List.getElem?_eq_getElem hk]
  rfl

theorem taskOf_eq (hk : k < calls.length) (i : Fin n) : taskOf calls k i = calls[k] i := by
  rw [taskOf, List.getElem?_eq_getElem hk]
  rfl

/-- Nothing is owed when the workers have done what they have in the first `k` calls. -/
theorem State.owed_eq_nil (hupto : s.main.upto calls = k)
    (hpulled : (s.workers i).pulled = given calls k i)
    (hidle : ∀ rest, (s.workers i).pc ≠ .execute rest) : s.owed calls i = [] := by
  have hrest : (s.workers i).pc.rest = [] := by
    cases hpc : (s.workers i).pc with
    | execute rest => exact absurd hpc (hidle rest)
    | _ => rfl
  rw [State.owed, hrest, hupto, hpulled, List.drop_length]
  rfl

/-- While a worker executes a task of a call, the others owe no more than their tasks of that call. -/
theorem Inv.owed_subset (h : Inv calls s) (hcall : s.main.call = some k) (j : Fin n) {b : σ → σ}
    (hb : b ∈ s.owed calls j) : ∃ u ∈ taskOf calls k j, b ∈ u := by
  have hupto : s.main.upto calls = k + 1 ∧ k ≤ (s.workers j).pulled.length := by
    have hphase := h.phase_le j
    have harrivals := h.barrier.arrivals none
    have hvalid := h.main
    rw [State.visits] at harrivals
    cases hm : s.main with
    | start j => rw [hm] at hcall; cases hcall
    | method op j stage =>
        cases op with
        | add k' =>
            rw [hm] at hcall harrivals
            cases hcall
            have houtside : k + 1 = s.barrier.phase :=
              harrivals.elim id fun _ => by
                have hout := h.barrier.outside none
                rw [State.visits, hm] at hout
                exact hout rfl
            exact ⟨rfl, by omega⟩
        | stop => rw [hm] at hcall; cases hcall
    | arrive k' =>
        rw [hm] at hcall
        cases k' with
        | zero => cases hcall
        | succ k' =>
            cases hcall
            have hout := h.barrier.outside none
            rw [State.visits, hm] at hout
            have hout : k + 1 = s.barrier.phase := hout rfl
            exact ⟨rfl, by omega⟩
    | barrier k' phase =>
        rw [hm] at hcall hvalid harrivals
        cases k' with
        | zero => cases hcall
        | succ k' =>
            cases hcall
            have harrivals : phase + 1 = s.barrier.phase ∨ phase + 1 = s.barrier.phase + 1 := harrivals
            have hvalid : phase = k + 1 := hvalid.2
            exact ⟨rfl, by omega⟩
    | join j => rw [hm] at hcall; cases hcall
    | done => rw [hm] at hcall; cases hcall
  rw [State.owed, List.mem_append, hupto.1] at hb
  rcases hb with hb | hb
  · cases hpc : (s.workers j).pc with
    | execute rest =>
        obtain ⟨k', t, hcall', -, htask, hrest, -⟩ := h.executing hpc
        rw [hcall] at hcall'
        cases hcall'
        rw [hpc] at hb
        exact ⟨t, htask, hrest.subset hb⟩
    | _ =>
        rw [hpc] at hb
        exact absurd hb List.not_mem_nil
  · obtain ⟨u, hu, hb⟩ := List.mem_flatten.mp hb
    refine ⟨u, ?_, hb⟩
    have hdone := (length_given_le calls k j).trans hupto.2
    rw [given_succ, List.drop_append, List.drop_eq_nil_of_le hdone, List.nil_append] at hu
    exact Option.mem_toList.mp (List.mem_of_mem_drop hu)

theorem State.owed_setWorker (s : State σ n) (i : Fin n) (w : Worker σ) (b : Barrier) (m : σ) :
    State.owed calls { s.setWorker i w with barrier := b, mem := m } =
      Function.update (s.owed calls) i
        (w.pc.rest ++ ((given calls (s.main.upto calls) i).drop w.pulled.length).flatten) := by
  funext j
  rw [State.owed]
  change (Function.update s.workers i w j).pc.rest ++ ((given calls (s.main.upto calls) j).drop
    (Function.update s.workers i w j).pulled.length).flatten = _
  by_cases hj : j = i
  · subst hj
    rw [Function.update_self, Function.update_self]
  · rw [Function.update_of_ne hj, Function.update_of_ne hj]
    rfl

theorem given_mono {k k' : ℕ} (hk : k ≤ k') (i : Fin n) : given calls k i <+: given calls k' i := by
  obtain ⟨d, rfl⟩ := Nat.exists_eq_add_of_le hk
  rw [given, given, List.take_add, List.filterMap_append]
  exact List.prefix_append _ _

/-- The main thread has given no task of a call that has not started. -/
theorem Main.view_given_mono (calls : List (Call σ n)) (main : Main) (i : Fin n) :
    (main.view calls i).given <+: given calls (main.upto calls) i := by
  cases main with
  | start j => exact List.nil_prefix
  | method op j stage =>
      cases op with
      | add k =>
          refine given_mono ?_ i
          split
          · exact le_rfl
          · exact Nat.le_succ k
      | stop => exact List.prefix_rfl
  | arrive k => exact List.prefix_rfl
  | barrier k phase => exact List.prefix_rfl
  | join j => exact List.prefix_rfl
  | done => exact List.prefix_rfl

/-- Pulling a task does not change what the worker owes. -/
theorem Inv.owed_pull (h : Inv calls s) {t : Code σ} {q : List (Code σ)}
    (hq : (s.workers i).q = t :: q) :
    (given calls (s.main.upto calls) i).drop (s.workers i).pulled.length =
      t :: (given calls (s.main.upto calls) i).drop ((s.workers i).pulled.length + 1) := by
  obtain ⟨more, hmore⟩ := Main.view_given_mono calls s.main i
  rw [← (h.workers i).fifo, hq] at hmore
  rw [← hmore]
  simp [List.append_assoc, List.drop_append]

theorem Inv.mem_worker (hinv : Inv calls s) (hind : Independent calls) (h : MemInv calls mem s)
    {w : Worker σ} {b : Barrier} {m : σ} (hstep : WorkerStep n (s.workers i) s.barrier s.mem w b m) :
    MemInv calls mem { s.setWorker i w with barrier := b, mem := m } := by
  have hsame : ∀ b : Barrier, w.pc.rest = (s.workers i).pc.rest → w.pulled = (s.workers i).pulled →
      MemInv calls mem { s.setWorker i w with barrier := b, mem := s.mem } := by
    intro b hrest hpulled
    refine ⟨?_, h.returned⟩
    rw [State.owed_setWorker, hrest, hpulled]
    exact (congrArg (inTurn _ · s.mem) (Function.update_eq_self i (s.owed calls))).trans h.owed
  cases hstep with
  | terminated hpc _ => exact hsame _ (by rw [hpc]; rfl) rfl
  | loop hpc _ => exact hsame _ (by rw [hpc]; rfl) rfl
  | arrive hpc => exact hsame _ (by rw [hpc]; rfl) rfl
  | leave hpc _ => exact hsame _ (by rw [hpc]; rfl) rfl
  | lock hpc _ => exact hsame _ (by rw [hpc]; rfl) rfl
  | sleep hpc _ _ => exact hsame _ (by rw [hpc]; rfl) rfl
  | ready hpc _ => exact hsame _ (by rw [hpc]; rfl) rfl
  | exit hpc _ => exact hsame _ (by rw [hpc]; rfl) rfl
  | finished hpc => exact hsame _ (by rw [hpc]; rfl) rfl
  | @pull t q hpc _ hq =>
      refine ⟨?_, h.returned⟩
      have howed : s.owed calls i = t ++ ((given calls (s.main.upto calls) i).drop
          ((s.workers i).pulled ++ [t]).length).flatten := by
        rw [State.owed, hpc, hinv.owed_pull hq, List.flatten_cons, List.length_append]
        rfl
      rw [State.owed_setWorker]
      change inTurn _ (Function.update _ i (t ++ _)) s.mem = _
      rw [← howed]
      exact (congrArg (inTurn _ · s.mem) (Function.update_eq_self i (s.owed calls))).trans h.owed
  | @act a rest hpc =>
      obtain ⟨k, t, hcall, hk, htask, hrest, -⟩ := hinv.executing hpc
      refine ⟨?_, fun k' hk' hmain => ?_⟩
      · rw [State.owed_setWorker]
        have howed : s.owed calls i = a :: (rest ++ ((given calls (s.main.upto calls) i).drop
            (s.workers i).pulled.length).flatten) := by
          rw [State.owed, hpc]
          rfl
        refine (inTurn_step (List.nodup_finRange n) (List.mem_finRange i) howed ?_ s.mem).trans h.owed
        intro j hj b hb
        obtain ⟨u, hu, hb⟩ := hinv.owed_subset hcall j hb
        rw [taskOf_eq hk] at htask hu
        have ha : a ∈ t := hrest.subset List.mem_cons_self
        exact hind _ (List.getElem_mem hk) i j hj.symm t htask u hu a ha b hb
      · exact absurd hpc ((hinv.returned hk' hmain i).2.2 _)

theorem Main.afterCalls_cases (calls : List (Call σ n)) (k : ℕ) :
    ∃ op, Main.afterCalls calls k = .method op 0 .lock := by
  rw [Main.afterCalls]
  split
  · exact ⟨.add k, rfl⟩
  · exact ⟨.stop, rfl⟩

/-- A step that leaves the memory, what the workers have pulled and what they execute. -/
theorem MemInv.same (h : MemInv calls mem s) (hmem : s'.mem = s.mem)
    (hupto : s'.main.upto calls = s.main.upto calls)
    (hworkers : ∀ i, (s'.workers i).pc.rest = (s.workers i).pc.rest ∧
      (s'.workers i).pulled = (s.workers i).pulled)
    (hnext : ∀ op, s'.main = .method op 0 .lock → s'.main = s.main) : MemInv calls mem s' := by
  have howed : s'.owed calls = s.owed calls := by
    ext i
    rw [State.owed, State.owed, hupto, (hworkers i).1, (hworkers i).2]
  refine ⟨by rw [howed, hmem, hupto]; exact h.owed, fun k hk hmain => ?_⟩
  obtain ⟨op, hop⟩ := Main.afterCalls_cases calls k
  rw [hmem]
  exact h.returned k hk ((hnext op (hmain.trans hop)).symm.trans hmain)

theorem setWorker_quiet {w : Worker σ} (hrest : w.pc.rest = (s.workers i).pc.rest)
    (hpulled : w.pulled = (s.workers i).pulled) (j : Fin n) :
    ((s.setWorker i w).workers j).pc.rest = (s.workers j).pc.rest ∧
      ((s.setWorker i w).workers j).pulled = (s.workers j).pulled := by
  change (Function.update s.workers i w j).pc.rest = _ ∧ (Function.update s.workers i w j).pulled = _
  by_cases hj : j = i
  · subst hj
    rw [Function.update_self]
    exact ⟨hrest, hpulled⟩
  · rw [Function.update_of_ne hj]
    exact ⟨rfl, rfl⟩

theorem Worker.notified_quiet (w : Worker σ) :
    w.notified.pc.rest = w.pc.rest ∧ w.notified.pulled = w.pulled := by
  by_cases hpc : w.pc = .asleep
  · rw [Worker.notified_of_asleep hpc, hpc]
    exact ⟨rfl, rfl⟩
  · rw [Worker.notified_of_ne hpc]
    exact ⟨rfl, rfl⟩

variable (calls) in
theorem upto_next (op : Op) (i : ℕ) (stage : Stage) :
    (op.next i).upto calls = Main.upto calls (.method op i stage) := by
  cases op with
  | add k => rfl
  | stop => rfl

theorem upto_method (op : Op) (i j : ℕ) (stage stage' : Stage) :
    Main.upto calls (.method op i stage) = Main.upto calls (.method op j stage') := by
  cases op with
  | add k => rfl
  | stop => rfl

/-- The wait after the first `k` calls is over: what they leave is in the memory. -/
theorem Inv.mem_leave (hinv : Inv calls s) (h : MemInv calls mem s) {phase : ℕ}
    (hmain : s.main = .barrier k phase) (hphase : s.barrier.phase ≠ phase) :
    MemInv calls mem { s with main := .afterCalls calls k } := by
  have hvalid := hinv.main
  have harrivals := hinv.barrier.arrivals none
  rw [hmain] at hvalid
  rw [State.visits, hmain] at harrivals
  obtain ⟨hk, rfl⟩ := hvalid
  have harrivals : phase + 1 = s.barrier.phase ∨ phase + 1 = s.barrier.phase + 1 := harrivals
  have hround : ∀ i, _ := fun i =>
    hinv.round_done (i := i) (k := phase) (by omega) (by rw [hmain]; rfl)
  have hmem : s.mem = callsResult (calls.take phase) mem := by
    have howed : s.owed calls = fun _ => [] := by
      funext i
      obtain ⟨hpulled, -, -, hidle⟩ := hround i
      exact State.owed_eq_nil (by rw [hmain]; rfl) hpulled hidle
    have hall := h.owed
    rw [howed, inTurn_nil_threads, hmain] at hall
    exact hall
  refine ⟨?_, fun k' hk' hmain' => ?_⟩
  · change inTurn _ (State.owed calls _) s.mem =
      callsResult (calls.take ((Main.afterCalls calls phase).upto calls)) mem
    rcases Nat.lt_or_ge phase calls.length with hlt | hge
    · -- the next call starts: everybody owes a whole task of it
      have hnext : Main.afterCalls calls phase = .method (.add phase) 0 .lock := if_pos hlt
      have howed : State.owed calls { s with main := .afterCalls calls phase } =
          fun i => (calls[phase] i).getD [] := by
        funext i
        obtain ⟨hpulled, -, hlength, hidle⟩ := hround i
        have hrest : (s.workers i).pc.rest = [] := by
          cases hpc : (s.workers i).pc with
          | execute rest => exact absurd hpc (hidle rest)
          | _ => rfl
        rw [State.owed]
        change (s.workers i).pc.rest ++
          ((given calls ((Main.afterCalls calls phase).upto calls) i).drop _).flatten = _
        rw [hrest, hnext, hpulled]
        change [] ++ ((given calls (phase + 1) i).drop _).flatten = _
        rw [given_succ, List.drop_left, taskOf_eq hlt]
        cases calls[phase] i with
        | none => rfl
        | some t => exact (List.nil_append _).trans (List.flatten_singleton ..)
      rw [howed, hnext, hmem]
      exact (callsResult_take_succ hlt).symm
    · have heq : phase = calls.length := by omega
      have hupto : (Main.afterCalls calls phase).upto calls = phase := by
        rw [Main.afterCalls, if_neg (by omega), heq]
        rfl
      have howed : State.owed calls { s with main := .afterCalls calls phase } = fun _ => [] := by
        funext i
        obtain ⟨hpulled, -, -, hidle⟩ := hround i
        exact State.owed_eq_nil hupto hpulled hidle
      rw [howed, inTurn_nil_threads, hupto]
      exact hmem
  · have hkk : k' = phase := by
      have hvisits := Main.afterCalls_visits hk
      rw [show Main.afterCalls calls phase = Main.afterCalls calls k' from hmain',
        Main.afterCalls_visits hk'] at hvisits
      exact Nat.succ_injective (congrArg Barrier.Visits.arrivals hvisits)
    rw [hkk]
    exact hmem

theorem Inv.mem_main (hinv : Inv calls s) (h : MemInv calls mem s) (hstep : MainStep calls s s') :
    MemInv calls mem s' := by
  cases hstep with
  | @start i hmain =>
      have hpc : (s.workers i).pc = .unstarted := by
        have hworker := hinv.workers i
        rw [hmain] at hworker
        exact hworker.started.mpr (by simp [Main.view])
      exact h.same rfl (by rw [hmain]; rfl) (setWorker_quiet (by rw [hpc]; rfl) rfl) (by simp)
  | started hmain => exact h.same rfl (by rw [hmain]; rfl) (fun i => ⟨rfl, rfl⟩) (by simp)
  | skip hmain hnone => exact h.same rfl (by rw [hmain]; rfl) (fun i => ⟨rfl, rfl⟩) (by simp)
  | lock hmain hcalled hfree =>
      exact h.same rfl (by rw [hmain]; exact upto_method ..) (setWorker_quiet rfl rfl)
        (by simp)
  | @update op i hmain =>
      refine h.same rfl (by rw [hmain]; exact upto_method ..) (setWorker_quiet ?_ ?_)
        (by simp)
      · cases op <;> rfl
      · cases op <;> rfl
  | unlock hmain =>
      exact h.same rfl (by rw [hmain]; exact upto_method ..) (setWorker_quiet rfl rfl)
        (by simp)
  | @notify op i hmain =>
      obtain ⟨hrest, hpulled⟩ := (s.workers i).notified_quiet
      have hupto := upto_next calls op i .notify
      refine h.same rfl (hmain ▸ hupto) (setWorker_quiet hrest hpulled) fun op' heq => ?_
      cases op with
      | add k => cases heq
      | stop => cases heq
  | added hmain => exact h.same rfl (by rw [hmain]; rfl) (fun i => ⟨rfl, rfl⟩) (by simp)
  | arrive hmain => exact h.same rfl (by rw [hmain]; rfl) (fun i => ⟨rfl, rfl⟩) (by simp)
  | leave hmain hphase => exact hinv.mem_leave h hmain hphase
  | join hmain _ => exact h.same rfl (by rw [hmain]; rfl) (fun i => ⟨rfl, rfl⟩) (by simp)
  | stopped hmain => exact h.same rfl (by rw [hmain]; rfl) (fun i => ⟨rfl, rfl⟩) (by simp)

theorem MemInv.init (calls : List (Call σ n)) (mem : σ) : MemInv calls mem (init n mem) := by
  have howed : State.owed calls (WorkerPool.init n mem) = fun _ => [] := by
    ext i
    rfl
  refine ⟨?_, fun k hk hmain => ?_⟩
  · rw [howed, inTurn_nil_threads]
    rfl
  · obtain ⟨op, hop⟩ := Main.afterCalls_cases calls k
    rw [hop] at hmain
    cases hmain

theorem reachable_mem (hind : Independent calls) (h : Reachable calls mem s) : MemInv calls mem s := by
  induction h with
  | refl => exact MemInv.init calls mem
  | tail hrun hstep ih =>
      have hinv := reachable_inv hrun
      rcases hstep with hstep | hwake
      · cases hstep with
        | main hmain => exact hinv.mem_main ih hmain
        | worker hworker => exact hinv.mem_worker hind ih hworker
      · cases hwake with
        | wake hpc => exact ih.same rfl rfl (setWorker_quiet (by rw [hpc]; rfl) rfl) fun _ _ => rfl

end Memory

end CryptDough.WorkerPool
