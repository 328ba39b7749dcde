import CryptDough.SharedMemory
import Mathlib.Logic.Relation

/-! # The workers of a runtime and its main thread

Every worker has a queue under a mutex with a condition variable, and all threads of the runtime share
one barrier. The main thread starts the workers, hands out the tasks of one call after the other and
waits at the barrier after each call; when the runtime is destroyed it stops and joins the workers. A
task is the list of what it does to the memory, and a step of a thread is one access to what the threads
share. -/

namespace CryptDough.WorkerPool

variable {σ : Type} {n : ℕ}

/-- What a task does to the memory. -/
abbrev Code (σ : Type) := List (σ → σ)

/-- The task that a call has for each worker. -/
abbrev Call (σ : Type) (n : ℕ) := Fin n → Option (Code σ)

inductive Holder
  | main
  | worker
  deriving DecidableEq

inductive Pc (σ : Type)
  | unstarted
  /-- before `if (terminate_)` -/
  | loop
  /-- before `b_->arrive_and_wait()` -/
  | arrive
  | barrier (phase : ℕ)
  /-- before it has the mutex, also after it was woken up -/
  | lock
  /-- with the mutex, before the condition of `cv_->wait` -/
  | test
  | asleep
  /-- with the mutex, after `cv_->wait` -/
  | pull
  | execute (rest : Code σ)
  | done

/-- `pulled` is the history of the tasks that were popped from `q`. -/
structure Worker (σ : Type) where
  q : List (Code σ)
  terminate : Bool
  m : Option Holder
  pc : Pc σ
  pulled : List (Code σ)

/-- The methods by which the main thread changes a worker: `addTask` for the call `k`, and `stop`. -/
inductive Op
  | add (k : ℕ)
  | stop
  deriving DecidableEq

/-- The steps of such a method: lock, the update, unlock, `notify_all`. -/
inductive Stage
  | lock
  | update
  | unlock
  | notify
  deriving DecidableEq

/-- Where the main thread is: in `setup_workers` before worker `i`, in a method of worker `i`, before
and inside the wait that follows the first `k` calls, in the destructor of worker `i`. -/
inductive Main
  | start (i : ℕ)
  | method (op : Op) (i : ℕ) (stage : Stage)
  | arrive (k : ℕ)
  | barrier (k phase : ℕ)
  | join (i : ℕ)
  | done
  deriving DecidableEq

structure State (σ : Type) (n : ℕ) where
  main : Main
  workers : Fin n → Worker σ
  barrier : Barrier
  mem : σ

def State.setWorker (s : State σ n) (i : Fin n) (w : Worker σ) : State σ n :=
  { s with workers := Function.update s.workers i w }

section Steps

variable (calls : List (Call σ n))

def taskOf (k : ℕ) (i : Fin n) : Option (Code σ) := calls[k]?.bind (· i)

/-- A method that is called on the worker: a call may have no task for it. -/
def Op.Called (op : Op) (i : Fin n) : Prop :=
  match op with
  | .add k => (taskOf calls k i).isSome
  | .stop => True

def Op.update (op : Op) (i : Fin n) (w : Worker σ) : Worker σ :=
  match op with
  | .add k => { w with q := w.q ++ (taskOf calls k i).toList }
  | .stop => { w with terminate := true }

def Op.next (op : Op) (i : ℕ) : Main :=
  match op with
  | .add k => .method (.add k) (i + 1) .lock
  | .stop => .join i

def Main.afterCalls (k : ℕ) : Main :=
  if k < calls.length then .method (.add k) 0 .lock else .method .stop 0 .lock

def Worker.notified (w : Worker σ) : Worker σ :=
  match w.pc with
  | .asleep => { w with pc := .lock }
  | _ => w

inductive MainStep (s : State σ n) : State σ n → Prop
  | start {i : Fin n} (h : s.main = .start i) :
      MainStep s { s.setWorker i { s.workers i with pc := .loop } with main := .start (i + 1) }
  | started (h : s.main = .start n) : MainStep s { s with main := .arrive 0 }
  | skip {k : ℕ} {i : Fin n} (h : s.main = .method (.add k) i .lock) (hnone : taskOf calls k i = none) :
      MainStep s { s with main := .method (.add k) (i + 1) .lock }
  | lock {op : Op} {i : Fin n} (h : s.main = .method op i .lock) (hcalled : op.Called calls i)
      (hfree : (s.workers i).m = none) :
      MainStep s
        { s.setWorker i { s.workers i with m := some .main } with main := .method op i .update }
  | update {op : Op} {i : Fin n} (h : s.main = .method op i .update) :
      MainStep s { s.setWorker i (op.update calls i (s.workers i)) with main := .method op i .unlock }
  | unlock {op : Op} {i : Fin n} (h : s.main = .method op i .unlock) :
      MainStep s { s.setWorker i { s.workers i with m := none } with main := .method op i .notify }
  | notify {op : Op} {i : Fin n} (h : s.main = .method op i .notify) :
      MainStep s { s.setWorker i (s.workers i).notified with main := op.next i }
  | added {k : ℕ} (h : s.main = .method (.add k) n .lock) :
      MainStep s { s with main := .arrive (k + 1) }
  | arrive {k : ℕ} (h : s.main = .arrive k) :
      MainStep s { s with main := .barrier k s.barrier.phase, barrier := s.barrier.arrive (n + 1) }
  | leave {k phase : ℕ} (h : s.main = .barrier k phase) (hphase : s.barrier.phase ≠ phase) :
      MainStep s { s with main := .afterCalls calls k }
  | join {i : Fin n} (h : s.main = .join i) (hdone : (s.workers i).pc = .done) :
      MainStep s { s with main := .method .stop (i + 1) .lock }
  | stopped (h : s.main = .method .stop n .lock) : MainStep s { s with main := .done }

/-- A step of a worker of `n`, with the barrier and the memory before and after it. -/
inductive WorkerStep (n : ℕ) (w : Worker σ) (b : Barrier) (mem : σ) : Worker σ → Barrier → σ → Prop
  | terminated (h : w.pc = .loop) (hterminate : w.terminate = true) :
      WorkerStep n w b mem { w with pc := .done } b mem
  | loop (h : w.pc = .loop) (hterminate : w.terminate = false) :
      WorkerStep n w b mem { w with pc := .arrive } b mem
  | arrive (h : w.pc = .arrive) :
      WorkerStep n w b mem { w with pc := .barrier b.phase } (b.arrive (n + 1)) mem
  | leave {phase : ℕ} (h : w.pc = .barrier phase) (hphase : b.phase ≠ phase) :
      WorkerStep n w b mem { w with pc := .lock } b mem
  | lock (h : w.pc = .lock) (hfree : w.m = none) :
      WorkerStep n w b mem { w with pc := .test, m := some .worker } b mem
  | sleep (h : w.pc = .test) (hempty : w.q = []) (hterminate : w.terminate = false) :
      WorkerStep n w b mem { w with pc := .asleep, m := none } b mem
  | ready (h : w.pc = .test) (hready : w.q ≠ [] ∨ w.terminate = true) :
      WorkerStep n w b mem { w with pc := .pull } b mem
  | exit (h : w.pc = .pull) (hterminate : w.terminate = true) :
      WorkerStep n w b mem { w with pc := .done, m := none } b mem
  | pull {t : Code σ} {q : List (Code σ)} (h : w.pc = .pull) (hterminate : w.terminate = false)
      (hq : w.q = t :: q) :
      WorkerStep n w b mem { w with q, pc := .execute t, m := none, pulled := w.pulled ++ [t] } b mem
  | act {a : σ → σ} {rest : Code σ} (h : w.pc = .execute (a :: rest)) :
      WorkerStep n w b mem { w with pc := .execute rest } b (a mem)
  | finished (h : w.pc = .execute []) : WorkerStep n w b mem { w with pc := .loop } b mem

inductive Step (s : State σ n) : State σ n → Prop
  | main {s'} (h : MainStep calls s s') : Step s s'
  | worker {i : Fin n} {w b mem} (h : WorkerStep n (s.workers i) s.barrier s.mem w b mem) :
      Step s { s.setWorker i w with barrier := b, mem := mem }

/-- A worker that wakes up without being notified. -/
inductive Wake (s : State σ n) : State σ n → Prop
  | wake {i : Fin n} (h : (s.workers i).pc = .asleep) :
      Wake s (s.setWorker i { s.workers i with pc := .lock })

def init (n : ℕ) (mem : σ) : State σ n :=
  ⟨.start 0, fun _ => ⟨[], false, none, .unstarted, []⟩, .start, mem⟩

def Reachable (mem : σ) : State σ n → Prop :=
  Relation.ReflTransGen (fun s s' => Step calls s s' ∨ Wake s s') (init n mem)

end Steps

end CryptDough.WorkerPool
