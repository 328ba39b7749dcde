import Mathlib.Control.Lawful
import Mathlib.Data.Nat.Notation

/-! Computations on a state that may stop the program, and the rules for what they establish while an
invariant of the state holds. -/

namespace CryptDough

/-- A stopped computation leaves the state it stopped in. -/
abbrev Execution (σ α : Type) := OptionT (StateM σ) α

namespace Execution

variable {σ α β : Type} {Inv : σ → Prop} {mayStop : Prop}

/-- End the program. -/
def stop : Execution σ α := fun s => (none, s)

/-- Read and update the state. -/
def act (f : σ → α × σ) : Execution σ α := fun s => (some (f s).1, (f s).2)

/-- What is computed from `s`, if the program goes on, and the state reached. -/
def outcome (op : Execution σ α) (s : σ) : Option α × σ := op s

@[simp] theorem outcome_pure (a : α) (s : σ) :
    outcome (pure a : Execution σ α) s = (some a, s) := rfl

@[simp] theorem outcome_stop (s : σ) : outcome (stop : Execution σ α) s = (none, s) := rfl

@[simp] theorem outcome_act (f : σ → α × σ) (s : σ) :
    outcome (act f) s = (some (f s).1, (f s).2) := rfl

theorem outcome_bind (op : Execution σ α) (next : α → Execution σ β) (s : σ) :
    outcome (op >>= next) s = match outcome op s with
      | (some a, s') => outcome (next a) s'
      | (none, s') => (none, s') := by
  unfold outcome
  rcases heq : op s with ⟨_ | a, s'⟩
  · simp only [Bind.bind, OptionT.bind, OptionT.mk, StateT.bind, heq]
    rfl
  · simp only [Bind.bind, OptionT.bind, OptionT.mk, StateT.bind, heq]

/-- From every state of the invariant `op` keeps the invariant and yields a result with `post`;
it stops only if it may. -/
structure Meets (Inv : σ → Prop) (mayStop : Prop) (op : Execution σ α) (post : α → Prop) :
    Prop where
  keeps : ∀ s, Inv s → Inv (outcome op s).2
  yields : ∀ s, Inv s → ∀ a, (outcome op s).1 = some a → post a
  stops : ∀ s, Inv s → (outcome op s).1 = none → mayStop

namespace Meets

theorem pure {a : α} {post : α → Prop} (ha : post a) :
    Meets Inv mayStop (Pure.pure a : Execution σ α) post where
  keeps _ hinv := hinv
  yields _ _ _ h := Option.some.inj h ▸ ha
  stops _ _ h := nomatch h

theorem stop {post : α → Prop} (hstop : mayStop) :
    Meets Inv mayStop (Execution.stop : Execution σ α) post where
  keeps _ hinv := hinv
  yields _ _ _ h := nomatch h
  stops _ _ _ := hstop

theorem act {f : σ → α × σ} {post : α → Prop} (hkeeps : ∀ s, Inv s → Inv (f s).2)
    (hpost : ∀ s, Inv s → post (f s).1) : Meets Inv mayStop (Execution.act f) post where
  keeps := hkeeps
  yields s hinv _ h := Option.some.inj h ▸ hpost s hinv
  stops _ _ h := nomatch h

theorem mono {op : Execution σ α} {post post' : α → Prop} (hop : Meets Inv mayStop op post)
    (himp : ∀ a, post a → post' a) : Meets Inv mayStop op post' where
  keeps := hop.keeps
  yields s hinv a h := himp a (hop.yields s hinv a h)
  stops := hop.stops

theorem never_stops {op : Execution σ α} {post post' : α → Prop} (hop : Meets Inv mayStop op post)
    (hstop : ¬ mayStop) (himp : ∀ a, post a → post' a) : Meets Inv False op post' where
  keeps := hop.keeps
  yields s hinv a h := himp a (hop.yields s hinv a h)
  stops s hinv h := hstop (hop.stops s hinv h)

theorem bind {op : Execution σ α} {next : α → Execution σ β} {mid : α → Prop} {post : β → Prop}
    (hop : Meets Inv mayStop op mid) (hnext : ∀ a, mid a → Meets Inv mayStop (next a) post) :
    Meets Inv mayStop (op >>= next) post := by
  have hcases : ∀ s, Inv s → (∃ a s', outcome (op >>= next) s = outcome (next a) s' ∧ mid a ∧ Inv s') ∨
      (∃ s', outcome (op >>= next) s = (none, s') ∧ Inv s' ∧ mayStop) := by
    intro s hinv
    have hkeeps := hop.keeps s hinv
    have hyields := hop.yields s hinv
    have hstops := hop.stops s hinv
    rw [outcome_bind]
    rcases heq : outcome op s with ⟨_ | a, s'⟩
    · rw [heq] at hkeeps hstops
      exact .inr ⟨s', rfl, hkeeps, hstops rfl⟩
    · rw [heq] at hkeeps hyields
      exact .inl ⟨a, s', rfl, hyields a rfl, hkeeps⟩
  constructor
  · intro s hinv
    obtain ⟨a, s', heq, hmid, hinv'⟩ | ⟨s', heq, hinv', -⟩ := hcases s hinv
    · rw [heq]
      exact (hnext a hmid).keeps s' hinv'
    · rwa [heq]
  · intro s hinv b hb
    obtain ⟨a, s', heq, hmid, hinv'⟩ | ⟨s', heq, -, -⟩ := hcases s hinv
    · rw [heq] at hb
      exact (hnext a hmid).yields s' hinv' b hb
    · rw [heq] at hb
      exact nomatch hb
  · intro s hinv hnone
    obtain ⟨a, s', heq, hmid, hinv'⟩ | ⟨s', -, -, hstop⟩ := hcases s hinv
    · rw [heq] at hnone
      exact (hnext a hmid).stops s' hinv' hnone
    · exact hstop

/-- The loop rule: the invariant of the loop counts the iterations made. -/
theorem foldlM_range {step : α → ℕ → Execution σ α} {init : α} {LoopInv : ℕ → α → Prop} {bound : ℕ}
    (hinit : LoopInv 0 init)
    (hstep : ∀ i < bound, ∀ a, LoopInv i a → Meets Inv mayStop (step a i) (LoopInv (i + 1))) :
    Meets Inv mayStop ((List.range bound).foldlM step init) (LoopInv bound) := by
  induction bound with
  | zero => exact pure hinit
  | succ bound ih =>
      rw [List.range_succ, List.foldlM_append]
      apply (ih fun i hi => hstep i (Nat.lt_succ_of_lt hi)).bind
      intro a ha
      rw [List.foldlM_cons]
      apply (hstep bound (Nat.lt_succ_self bound) a ha).bind
      intro b hb
      exact pure hb

theorem exists_result {op : Execution σ α} {post : α → Prop} (hop : Meets Inv False op post) {s : σ}
    (hinv : Inv s) : ∃ a s', outcome op s = (some a, s') ∧ post a ∧ Inv s' := by
  rcases heq : outcome op s with ⟨_ | a, s'⟩
  · exact (hop.stops s hinv (by rw [heq])).elim
  · refine ⟨a, s', rfl, hop.yields s hinv a (by rw [heq]), ?_⟩
    simpa [heq] using hop.keeps s hinv

end Meets

end Execution

end CryptDough
