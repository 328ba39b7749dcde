import Mathlib.Logic.Relation
import Mathlib.Logic.Function.Basic
import Mathlib.Data.Fintype.Basic
import Mathlib.Data.List.OfFn
import Mathlib.Data.Finset.Basic
import Mathlib.Control.Basic
import Mathlib.Tactic.Common

/-! Local programs of a fixed set of parties that exchange vectors over pairwise FIFO channels and
read private random tapes. A run interleaves the parties' steps arbitrarily; the steps of two
parties commute, so one complete run decides the outcome of every interleaving. -/

namespace CryptDough.Process

open Relation

/-- The program one party runs: channels carry elements, tapes are read front to back. -/
inductive Proc (P S W β : Type)
  | done (value : β)
  | send (dst : P) (len : ℕ) (msg : Fin len → W) (next : Proc P S W β)
  | recv (src : P) (len : ℕ) (next : (Fin len → W) → Proc P S W β)
  | draw (source : S) (len : ℕ) (next : (Fin len → W) → Proc P S W β)

namespace Proc

variable {P S W α β γ : Type}

def bind (x : Proc P S W α) (f : α → Proc P S W β) : Proc P S W β :=
  match x with
  | done v => f v
  | send q n m k => send q n m (k.bind f)
  | recv q n k => recv q n fun v => (k v).bind f
  | draw s n k => draw s n fun v => (k v).bind f

instance : Monad (Proc P S W) where
  pure := done
  bind := bind

theorem bind_done (x : Proc P S W α) : x.bind done = x := by
  induction x with
  | done v => rfl
  | send q n m k ih => rw [bind, ih]
  | recv q n k ih => rw [bind, funext ih]
  | draw s n k ih => rw [bind, funext ih]

theorem bind_assoc (x : Proc P S W α) (f : α → Proc P S W β) (g : β → Proc P S W γ) :
    (x.bind f).bind g = x.bind fun v => (f v).bind g := by
  induction x with
  | done v => rfl
  | send q n m k ih => simp only [bind, ih]
  | recv q n k ih => simp only [bind, ih]
  | draw s n k ih => simp only [bind, ih]

instance : LawfulMonad (Proc P S W) :=
  LawfulMonad.mk' (Proc P S W) bind_done (fun _ _ => rfl) bind_assoc

end Proc

/-- What one step of a party does: its remaining program, what it appends to its outgoing channels,
how much it takes off its incoming ones, and its tapes afterwards. -/
structure Move (P S W β : Type) where
  prog : Proc P S W β
  out : P → List W
  taken : P → ℕ
  tape : S → ℕ → W

section Moves

variable {P S W β : Type} [DecidableEq P] [DecidableEq S]

/-- A tape after its first `len` elements were read. -/
def advance (tape : S → ℕ → W) (source : S) (len : ℕ) : S → ℕ → W :=
  Function.update tape source fun i => tape source (len + i)

/-- The step a party can take; `none` when it has finished or waits for elements not yet sent. -/
def Proc.act (prog : Proc P S W β) (inbox : P → List W) (tape : S → ℕ → W) :
    Option (Move P S W β) :=
  match prog with
  | done _ => none
  | send q _ m k => some ⟨k, fun r => if r = q then List.ofFn m else [], fun _ => 0, tape⟩
  | recv q n k =>
      if h : n ≤ (inbox q).length then
        some ⟨k fun i => (inbox q).get (i.castLE h), fun _ => [],
          fun r => if r = q then n else 0, tape⟩
      else none
  | draw s n k => some ⟨k fun i => tape s i, fun _ => [], fun _ => 0, advance tape s n⟩

/-- Elements that arrive meanwhile do not change a step that is already possible. -/
theorem Proc.act_append {prog : Proc P S W β} {inbox : P → List W} {tape : S → ℕ → W}
    {m : Move P S W β} (hact : prog.act inbox tape = some m) (extra : P → List W) :
    prog.act (fun q => inbox q ++ extra q) tape = some m := by
  cases prog with
  | done v => simp [act] at hact
  | send q n msg k => simpa [act] using hact
  | draw s n k => simpa [act] using hact
  | recv q n k =>
      simp only [act] at hact ⊢
      split at hact
      · rename_i hlen
        have hlen' : n ≤ (inbox q ++ extra q).length := by
          rw [List.length_append]
          omega
        rw [dif_pos hlen', ← hact]
        congr 3
        ext i
        simp [List.getElem_append_left (lt_of_lt_of_le i.isLt hlen)]
      · cases hact

theorem Proc.act_taken {prog : Proc P S W β} {inbox : P → List W} {tape : S → ℕ → W}
    {m : Move P S W β} (hact : prog.act inbox tape = some m) (q : P) :
    m.taken q ≤ (inbox q).length := by
  cases prog with
  | done v => simp [act] at hact
  | send q n msg k =>
      obtain rfl := Option.some.inj hact
      exact Nat.zero_le _
  | draw s n k =>
      obtain rfl := Option.some.inj hact
      exact Nat.zero_le _
  | recv src n k =>
      simp only [act] at hact
      split at hact
      · rename_i hlen
        obtain rfl := Option.some.inj hact
        dsimp only
        split
        · rename_i hq
          rw [hq]
          exact hlen
        · exact Nat.zero_le _
      · cases hact

theorem Proc.act_bind {γ : Type} {prog : Proc P S W β} {inbox : P → List W} {tape : S → ℕ → W}
    {m : Move P S W β} (hact : prog.act inbox tape = some m) (f : β → Proc P S W γ) :
    (prog.bind f).act inbox tape = some ⟨m.prog.bind f, m.out, m.taken, m.tape⟩ := by
  cases prog with
  | done v => simp [act] at hact
  | send q n msg k =>
      obtain rfl := Option.some.inj hact
      rfl
  | draw s n k =>
      obtain rfl := Option.some.inj hact
      rfl
  | recv q n k =>
      simp only [act] at hact
      split at hact
      · rename_i hlen
        obtain rfl := Option.some.inj hact
        simp only [bind, act, dif_pos hlen]
      · cases hact

end Moves

/-- The state of all parties and of everything in flight; `chan p q` is what `p` sent to `q` and `q`
has not taken yet. -/
@[ext]
structure Net (P S W β : Type) where
  prog : P → Proc P S W β
  chan : P → P → List W
  tape : P → S → ℕ → W

namespace Net

variable {P S W β γ : Type} [DecidableEq P] [DecidableEq S]

def inbox (c : Net P S W β) (p : P) : P → List W := fun q => c.chan q p

def apply (c : Net P S W β) (p : P) (m : Move P S W β) : Net P S W β where
  prog := Function.update c.prog p m.prog
  chan := fun a b =>
    (if b = p then (c.chan a b).drop (m.taken a) else c.chan a b) ++
      (if a = p then m.out b else [])
  tape := Function.update c.tape p m.tape

def step (c : Net P S W β) (p : P) : Option (Net P S W β) :=
  ((c.prog p).act (c.inbox p) (c.tape p)).map (c.apply p)

/-- One step of some party. -/
def Step (c d : Net P S W β) : Prop := ∃ p, c.step p = some d

/-- Any interleaving of the parties' steps. -/
abbrev Reaches : Net P S W β → Net P S W β → Prop := ReflTransGen Step

theorem step_eq_some {c d : Net P S W β} {p : P} :
    c.step p = some d ↔
      ∃ m, (c.prog p).act (c.inbox p) (c.tape p) = some m ∧ c.apply p m = d := by
  simp [step]

omit [DecidableEq S] in
/-- The inbox of another party only grows by a step of `p`. -/
theorem inbox_apply (c : Net P S W β) {p q : P} (hpq : q ≠ p) (m : Move P S W β) :
    (c.apply p m).inbox q = fun a => c.inbox q a ++ (if a = p then m.out q else []) := by
  ext a
  simp [inbox, apply, hpq]

omit [DecidableEq S] in
theorem apply_comm (c : Net P S W β) {p q : P} (hpq : p ≠ q) {m m' : Move P S W β}
    (hm : ∀ a, m.taken a ≤ (c.inbox p a).length) (hm' : ∀ a, m'.taken a ≤ (c.inbox q a).length) :
    (c.apply p m).apply q m' = (c.apply q m').apply p m := by
  have hqp : q ≠ p := hpq.symm
  ext1
  · simp only [apply]
    rw [Function.update_comm hqp]
  · ext a b
    have hb := hm a
    have hb' := hm' a
    simp only [inbox] at hb hb'
    simp only [apply]
    by_cases hbp : b = p
    · subst hbp
      simp only [if_true, if_neg hpq]
      by_cases haq : a = q
      · subst haq
        simp [hqp, List.drop_append_of_le_length hb]
      · simp [haq]
    · by_cases hbq : b = q
      · subst hbq
        simp only [if_true, if_neg hqp]
        by_cases hap : a = p
        · subst hap
          simp [hpq, List.drop_append_of_le_length hb']
        · simp [hap]
      · simp only [if_neg hbp, if_neg hbq]
        by_cases hap : a = p
        · subst hap
          simp [hpq]
        · simp [hap]
  · simp only [apply]
    rw [Function.update_comm hqp]

/-- Steps of two different parties commute. -/
theorem diamond {c d e : Net P S W β} {p q : P} (hpq : p ≠ q) (hd : c.step p = some d)
    (he : c.step q = some e) : ∃ f, d.step q = some f ∧ e.step p = some f := by
  obtain ⟨m, hm, rfl⟩ := step_eq_some.mp hd
  obtain ⟨m', hm', rfl⟩ := step_eq_some.mp he
  refine ⟨(c.apply p m).apply q m', step_eq_some.mpr ⟨m', ?_, rfl⟩,
    step_eq_some.mpr ⟨m, ?_, (apply_comm c hpq (Proc.act_taken hm) (Proc.act_taken hm')).symm⟩⟩
  · rw [inbox_apply c hpq.symm]
    simpa [apply, Function.update_of_ne hpq.symm] using Proc.act_append hm' _
  · rw [inbox_apply c hpq]
    simpa [apply, Function.update_of_ne hpq] using Proc.act_append hm _

theorem confluence {c d e : Net P S W β} (hd : Reaches c d) (he : Reaches c e) :
    Join Reaches d e := by
  refine church_rosser ?_ hd he
  rintro a b b' ⟨p, hb⟩ ⟨q, hb'⟩
  by_cases hpq : p = q
  · subst hpq
    obtain rfl := Option.some.inj (hb.symm.trans hb')
    exact ⟨b, ReflGen.refl, ReflTransGen.refl⟩
  · obtain ⟨f, hf, hf'⟩ := diamond hpq hb hb'
    exact ⟨f, ReflGen.single ⟨q, hf⟩, ReflTransGen.single ⟨p, hf'⟩⟩

/-- Before the first step, nothing is in flight. -/
def start (prog : P → Proc P S W β) (tape : P → S → ℕ → W) : Net P S W β :=
  ⟨prog, fun _ _ => [], tape⟩

/-- Every party has returned and every message was taken. -/
def final (value : P → β) (tape : P → S → ℕ → W) : Net P S W β :=
  start (fun p => .done (value p)) tape

theorem not_step_final (value : P → β) (tape : P → S → ℕ → W) (d : Net P S W β) :
    ¬ Step (final value tape) d := by
  rintro ⟨p, hstep⟩
  simp [step, final, start, Proc.act] at hstep

theorem reaches_final {value : P → β} {tape : P → S → ℕ → W} {d : Net P S W β}
    (hd : Reaches (final value tape) d) : d = final value tape := by
  induction hd with
  | refl => rfl
  | tail _ hstep ih =>
      rw [ih] at hstep
      exact absurd hstep (not_step_final value tape _)

def bind (c : Net P S W β) (f : P → β → Proc P S W γ) : Net P S W γ :=
  ⟨fun p => (c.prog p).bind (f p), c.chan, c.tape⟩

theorem step_bind {c d : Net P S W β} {p : P} (hstep : c.step p = some d)
    (f : P → β → Proc P S W γ) : (c.bind f).step p = some (d.bind f) := by
  obtain ⟨m, hm, rfl⟩ := step_eq_some.mp hstep
  refine step_eq_some.mpr ⟨_, Proc.act_bind hm (f p), ?_⟩
  ext1
  · ext q
    simp only [apply, bind, Function.update_apply]
    split
    · rename_i hq
      rw [hq]
    · rfl
  · rfl
  · rfl

theorem reaches_bind {c d : Net P S W β} (hreach : Reaches c d) (f : P → β → Proc P S W γ) :
    Reaches (c.bind f) (d.bind f) := by
  induction hreach with
  | refl => exact ReflTransGen.refl
  | tail _ hstep ih =>
      obtain ⟨p, hp⟩ := hstep
      exact ih.tail ⟨p, step_bind hp f⟩

end Net

end CryptDough.Process
