import CryptDough.ProcessStreams
import Mathlib.Tactic.LinearCombination
import Mathlib.Tactic.Ring

/-! Rounds of two parties that hold the outputs of oblivious transfers on their tapes: the sender both
messages, the receiver the one it has chosen. In a round the sender sends one more vector. -/

namespace CryptDough.CorrelatedTransfer

open Process

inductive Source
  | prg
  | zero
  | one
  | chosen
  deriving DecidableEq

variable {W β : Type} {n : ℕ}

/-- The receiver's tape holds the messages of its choices, for as many transfers of `n` messages. -/
structure Delivered (choices : ℕ → Fin n → Bool) (rounds : ℕ) (tape : Fin 2 → Source → ℕ → W) : Prop where
  chosen : ∀ bit < rounds, ∀ i : Fin n, tape 1 .chosen (bit * n + i) =
    if choices bit i then tape 0 .one (bit * n + i) else tape 0 .zero (bit * n + i)

/-- The outputs of one transfer were read. -/
structure Advanced (n : ℕ) (tape tape' : Fin 2 → Source → ℕ → W) : Prop where
  zero : ∀ i, tape' 0 .zero i = tape 0 .zero (n + i)
  one : ∀ i, tape' 0 .one i = tape 0 .one (n + i)
  chosen : ∀ i, tape' 1 .chosen i = tape 1 .chosen (n + i)

theorem Delivered.advance {choices : ℕ → Fin n → Bool} {rounds : ℕ}
    {tape tape' : Fin 2 → Source → ℕ → W}
    (hdelivered : Delivered choices (rounds + 1) tape) (hadvanced : Advanced n tape tape') :
    Delivered (fun bit => choices (bit + 1)) rounds tape' := by
  constructor
  intro bit hbit i
  have hplace : n + (bit * n + i) = (bit + 1) * n + i := by
    rw [Nat.succ_mul]
    omega
  rw [hadvanced.zero, hadvanced.one, hadvanced.chosen, hplace]
  exact hdelivered.chosen (bit + 1) (by omega) i

theorem Delivered.first {choices : ℕ → Fin n → Bool} {rounds : ℕ} {tape : Fin 2 → Source → ℕ → W}
    (hdelivered : Delivered choices (rounds + 1) tape) (i : Fin n) :
    tape 1 .chosen i = if choices 0 i then tape 0 .one i else tape 0 .zero i := by
  have hfirst := hdelivered.chosen 0 (Nat.succ_pos rounds) i
  rwa [Nat.zero_mul, Nat.zero_add] at hfirst

/-- The sender sends and the receiver takes. -/
theorem runs_message {S : Type} [DecidableEq S] (m : Fin n → W) (kept : β) (taken : (Fin n → W) → β)
    (tape : Fin 2 → S → ℕ → W) :
    Runs (fun p : Fin 2 => if p = 0 then (.send 1 n m (.done kept) : Proc (Fin 2) S W β)
        else .recv 0 n fun v => .done (taken v)) tape (fun p => if p = 0 then kept else taken m) tape := by
  let rest : Fin 2 → Proc (Fin 2) S W β := fun p =>
    if p = 0 then .done kept else .recv 0 n fun v => .done (taken v)
  let out : Fin 2 → Fin 2 → List W := fun p q =>
    if p = 0 then (if q = 1 then List.ofFn m else []) ++ [] else []
  have hflush : ∀ p : Fin 2, (if p = 0 then (.send 1 n m (.done kept) : Proc (Fin 2) S W β)
      else .recv 0 n fun v => .done (taken v)).flush (tape p) = (rest p, out p, tape p) :=
    Fin.forall_fin_two.mpr ⟨rfl, rfl⟩
  have htake : ∀ p, (rest p).take (fun q => out q p) =
      some (if p = 0 then kept else taken m, fun _ => []) := by
    refine Fin.forall_fin_two.mpr ⟨?_, ?_⟩
    · simp [rest, out, Proc.take]
    · let ins : Fin 2 → List W := fun q => out q 1
      have hins : ins 0 = List.ofFn m ++ [] := rfl
      have hempty : Function.update ins 0 [] = fun _ => [] :=
        funext (Fin.forall_fin_two.mpr ⟨rfl, rfl⟩)
      apply (Proc.take_recv_append hins).trans
      rw [hempty]
      rfl
  exact Runs.exchange hflush htake

/-- The sender reads both messages and sends; the receiver reads its message and takes what was sent. -/
theorem runs_round (sent : (Fin n → W) → (Fin n → W) → Fin n → W) (kept : (Fin n → W) → (Fin n → W) → β)
    (taken : (Fin n → W) → (Fin n → W) → β) (tape : Fin 2 → Source → ℕ → W) :
    ∃ tape', Advanced n tape tape' ∧
      Runs (fun p : Fin 2 => if p = 0 then
          (.draw .zero n fun m0 => .draw .one n fun m1 => .send 1 n (sent m0 m1) (.done (kept m0 m1)) :
            Proc (Fin 2) Source W β)
        else .draw .chosen n fun m => .recv 0 n fun v => .done (taken m v)) tape
      (fun p => if p = 0 then kept (fun i => tape 0 .zero i) (fun i => tape 0 .one i)
        else taken (fun i => tape 1 .chosen i) (sent (fun i => tape 0 .zero i) fun i => tape 0 .one i))
      tape' := by
  let tape' : Fin 2 → Source → ℕ → W := fun p =>
    if p = 0 then advance (advance (tape 0) .zero n) .one n else advance (tape 1) .chosen n
  refine ⟨tape', ?_, ?_⟩
  · constructor
    · intro i
      simp [tape', advance]
    · intro i
      simp [tape', advance]
    · intro i
      simp [tape', advance]
  · let m0 : Fin n → W := fun i => tape 0 .zero i
    let m1 : Fin n → W := fun i => tape 0 .one i
    have hsettled : ∀ p : Fin 2, ((if p = 0 then
          (.draw .zero n fun m0 => .draw .one n fun m1 => .send 1 n (sent m0 m1) (.done (kept m0 m1)) :
            Proc (Fin 2) Source W β)
        else .draw .chosen n fun m => .recv 0 n fun v => .done (taken m v)) : Proc _ _ _ _).settle (tape p) =
        (if p = 0 then .send 1 n (sent m0 m1) (.done (kept m0 m1))
          else .recv 0 n fun v => .done (taken (fun i => tape 1 .chosen i) v), tape' p) := by
      refine Fin.forall_fin_two.mpr ⟨?_, rfl⟩
      simp only [if_true, Proc.settle, advance_of_ne _ (by decide : Source.one ≠ Source.zero)]
      rfl
    apply Runs.settle
    simp only [hsettled]
    exact runs_message _ _ _ _

/-- In any ring, one transfer multiplies by one bit at its place. -/
theorem transfer_identity {R : Type} [CommRing R] (m0 m1 a b y x place : R) (choice : Bool)
    (hinv : b + y = a * x) :
    b - m0 * place + (y + ((if choice then m1 else m0) - if choice then m1 - (m0 + a) else 0) * place) =
      a * (x + if choice then place else 0) := by
  cases choice with
  | false =>
      simp only [Bool.false_eq_true, if_false]
      linear_combination hinv
  | true =>
      simp only [if_true]
      linear_combination hinv

end CryptDough.CorrelatedTransfer
