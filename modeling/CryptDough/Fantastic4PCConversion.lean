import CryptDough.Fantastic4PC
import Mathlib.Tactic.Abel

/-! The products, conversions and the opening of the four-party protocol. -/

namespace CryptDough.Fantastic4PC

open Process Sharing Communicator

variable {w n : ℕ}

def multiplyA (partyID : Fin 4) (x y : EVec scheme w n) : Program w (EVec scheme w n) :=
  genericMultiply (· + ·) (· - ·) (· * ·) partyID x y

def dotProductA (partyID : Fin 4) (x y : EVec scheme w n) (aggSize : ℕ) :
    Program w (EVec scheme w (Vec.chunkCount n aggSize)) :=
  genericMultiply (· + ·) (· - ·) (Vec.dotProductChunks aggSize) partyID x y

def matrixRightMultiplyA {m : ℕ} (partyID : Fin 4) (x : EVec scheme w n) (y : EVec scheme w m)
    (lhsRows lhsCols rhsRows rhsCols : ℕ) : Program w (EVec scheme w (lhsRows * rhsCols)) :=
  genericMultiply (· + ·) (· - ·) (Vec.matrixRightMultiply lhsRows lhsCols rhsRows rhsCols)
    partyID x y

section Input

variable (partyID : Fin 4) (x : Vec w n) (Pi Pj : Fin 4)

/-- The receiver, and the party that is excluded, are computed from the owners. -/
def inpA : Program w (EVec scheme w n) :=
  inp (· - ·) partyID x Pi Pj (nextParty Pi Pj) (excludedParty Pi Pj (nextParty Pi Pj))

def inpB : Program w (EVec scheme w n) :=
  inp (· ^^^ ·) partyID x Pi Pj (nextParty Pi Pj) (excludedParty Pi Pj (nextParty Pi Pj))

end Input

/-- Parts 2 and 3 are known to the first two parties, parts 0 and 1 to the others; both XORs are
shared, and their difference is squared. -/
def b2aBit (partyID : Fin 4) (x : EVec scheme w n) : Program w (EVec scheme w n) := do
  let xPrime : EVec scheme w n := fun r => Vec.mask (x r) 1
  let s0 := if partyID = 0 then xPrime 1 ^^^ xPrime 2
    else if partyID = 1 then xPrime 0 ^^^ xPrime 1 else 0
  let s1 := if partyID = 2 then xPrime 1 ^^^ xPrime 2
    else if partyID = 3 then xPrime 0 ^^^ xPrime 1 else 0
  let share0 ← inpA partyID s0 1 0
  let share1 ← inpA partyID s1 3 2
  let difference : EVec scheme w n := fun r => share0 r - share1 r
  multiplyA partyID difference difference

def redistributeSharesB (partyID : Fin 4) (x : EVec scheme w n) :
    Program w (EVec scheme w n × EVec scheme w n) := do
  let summand := if partyID = 0 ∨ partyID = 2 then x 0 + x 1 else x 1 + x 2
  let res1 ← inpB partyID summand 0 3
  let res2 ← inpB partyID summand 2 1
  pure (res1, res2)

/-- Each party in turn is passed the part it lacks by the pair that precedes it. -/
def openLoop (partyID : Fin 4) (sh : EVec scheme w n) :
    List (Fin 4) → Vec w n → Program w (Vec w n)
  | [], sh3 => pure sh3
  | Pi :: rest, sh3 => do
      let Pj := Pi + 1
      let Pr := nextParty Pi Pj
      let received ← jmp partyID (sh (abs2sh partyID Pr)) Pi Pj Pr
      openLoop partyID sh rest (if partyID = Pr then received else sh3)

def openShares (partyID : Fin 4) (sh : EVec scheme w n) : Program w (Vec w n) :=
  openLoop partyID sh [0, 1, 2, 3] 0

def uncheckedOpenA (partyID : Fin 4) (shares : EVec scheme w n) : Program w (Vec w n) := do
  let sh3 ← openShares partyID shares
  pure (shares 0 + shares 1 + shares 2 + sh3)

def uncheckedOpenB (partyID : Fin 4) (shares : EVec scheme w n) : Program w (Vec w n) := do
  let sh3 ← openShares partyID shares
  pure (shares 0 ^^^ shares 1 ^^^ shares 2 ^^^ sh3)

theorem distinctRoles {Pi Pj : Fin 4} (hne : Pi ≠ Pj) : DistinctRoles (Pi, Pj) := by
  revert Pi Pj
  unfold DistinctRoles
  decide

theorem add_zero_minus : (∀ a : Vec w n, 0 + a = a) ∧ ∀ a b : Vec w n, b + (a - b) = a :=
  ⟨zero_add, fun a b => add_sub_cancel b a⟩

theorem xor_zero_minus : (∀ a : Vec w n, 0 ^^^ a = a) ∧ ∀ a b : Vec w n, b ^^^ (a ^^^ b) = a := by
  refine ⟨fun a => funext fun i => BitVec.zero_xor, fun a b => funext fun i => ?_⟩
  rw [Vec.xor_apply, Vec.xor_apply, BitVec.xor_comm (a i), ← BitVec.xor_assoc, BitVec.xor_self,
    BitVec.zero_xor]

section Input

variable {v : Fin 4 → Vec w n} (secret : Vec w n) {Pi Pj : Fin 4}

theorem computes_inpA (hne : Pi ≠ Pj) (hi : v Pi = secret) (hj : v Pj = secret) :
    Computes Correlated (fun p => inpA p (v p) Pi Pj) fun z : scheme.Shares (Vec w n) =>
      OpensA z secret :=
  computes_inp add_zero_minus.1 add_zero_minus.2 v hi hj (distinctRoles hne)

theorem computes_inpB (hne : Pi ≠ Pj) (hi : v Pi = secret) (hj : v Pj = secret) :
    Computes Correlated (fun p => inpB p (v p) Pi Pj) fun z : scheme.Shares (Vec w n) =>
      OpensB z secret :=
  computes_inp xor_zero_minus.1 xor_zero_minus.2 v hi hj (distinctRoles hne)

end Input

section Products

variable {m : ℕ} {x : scheme.Shares (Vec w n)} {a : Vec w n}

theorem computes_multiplyA {y : scheme.Shares (Vec w n)} {b : Vec w n} (hx : OpensA x a)
    (hy : OpensA y b) :
    Computes Correlated (fun p => multiplyA p (x p) (y p)) fun z : scheme.Shares (Vec w n) =>
      OpensA z (a * b) :=
  computes_genericMultiply add_zero_minus.1 add_zero_minus.2 add_mul mul_add hx hy

theorem computes_dotProductA {y : scheme.Shares (Vec w n)} {b : Vec w n} (hx : OpensA x a)
    (hy : OpensA y b) (aggSize : ℕ) :
    Computes Correlated (fun p => dotProductA p (x p) (y p) aggSize)
      fun z : scheme.Shares (Vec w (Vec.chunkCount n aggSize)) =>
        OpensA z (Vec.dotProductChunks aggSize a b) :=
  computes_genericMultiply add_zero_minus.1 add_zero_minus.2
    (fun u u' v => Vec.selectedProducts_add_left _ u u' v)
    (fun u v v' => Vec.selectedProducts_add_right _ u v v') hx hy

theorem computes_matrixRightMultiplyA {y : scheme.Shares (Vec w m)} {b : Vec w m} (hx : OpensA x a)
    (hy : OpensA y b) (lhsRows lhsCols rhsRows rhsCols : ℕ) :
    Computes Correlated (fun p => matrixRightMultiplyA p (x p) (y p) lhsRows lhsCols rhsRows rhsCols)
      fun z : scheme.Shares (Vec w (lhsRows * rhsCols)) =>
        OpensA z (Vec.matrixRightMultiply lhsRows lhsCols rhsRows rhsCols a b) :=
  computes_genericMultiply add_zero_minus.1 add_zero_minus.2
    (fun u u' v => Vec.matrixRightMultiply_add_left lhsRows lhsCols rhsRows rhsCols u u' v)
    (fun u v v' => Vec.matrixRightMultiply_add_right lhsRows lhsCols rhsRows rhsCols u v v') hx hy

end Products

theorem opensA_sub {S : Scheme} {x y : S.Shares (Vec w n)} {a b : Vec w n} (hx : OpensA x a)
    (hy : OpensA y b) : OpensA (fun p r => x p r - y p r : S.Shares (Vec w n)) (a - b) := by
  refine ⟨hx.1.map₂ hy.1 (· - ·), ?_⟩
  rw [← hx.2, ← hy.2]
  exact combine_map₂ (· - ·) (fun u v u' v' => by abel) _ _

section Conversions

variable {x : scheme.Shares (Vec w n)} {a : Vec w n}

theorem computes_b2aBit (hx : OpensB x a) :
    Computes Correlated (fun p => b2aBit p (x p)) fun z : scheme.Shares (Vec w n) =>
      OpensA z (Vec.mask a 1) := by
  obtain ⟨⟨x, rfl⟩, rfl⟩ := hx
  let s0 : Vec w n := Vec.mask (x 2) 1 ^^^ Vec.mask (x 3) 1
  let s1 : Vec w n := Vec.mask (x 0) 1 ^^^ Vec.mask (x 1) 1
  have hbits : (s0 - s1) * (s0 - s1) =
      Vec.mask (Scheme.reconstruct (· ^^^ ·) (Scheme.deal x : scheme.Shares (Vec w n))) 1 := by
    rw [reconstruct_deal, combine_four]
    ext i
    simp only [s0, s1, ← Vec.mask_xor, Pi.mul_apply, Pi.sub_apply, Vec.mask, Vec.xor_apply,
      Vec.sq_sub_bits]
    congr 1
    ac_rfl
  rw [← hbits]
  simp only [b2aBit]
  refine (computes_inpA s0 (by decide) rfl rfl).bind fun share0 h0 => ?_
  refine (computes_inpA s1 (by decide) rfl rfl).bind fun share1 h1 => ?_
  exact computes_multiplyA (opensA_sub h0 h1) (opensA_sub h0 h1)

theorem computes_redistributeSharesB (hx : OpensA x a) :
    Computes Correlated (fun p => redistributeSharesB p (x p)) fun z =>
      ∃ b c : Vec w n, OpensB (fun p => (z p).1 : scheme.Shares (Vec w n)) b ∧
        OpensB (fun p => (z p).2 : scheme.Shares (Vec w n)) c ∧ b + c = a := by
  obtain ⟨⟨x, rfl⟩, rfl⟩ := hx
  simp only [redistributeSharesB]
  refine (computes_inpB (x 1 + x 2) (by decide) rfl rfl).bind fun res1 h1 => ?_
  refine (computes_inpB (x 3 + x 0) (by decide) rfl rfl).bind fun res2 h2 => ?_
  refine Computes.pure ⟨x 1 + x 2, x 3 + x 0, h1, h2, ?_⟩
  rw [reconstruct_deal, combine_four]
  abel

end Conversions

section Open

/-- The receiver of the part that `Pi` and its successor pass on. -/
abbrev opensTo (Pi : Fin 4) : Fin 4 := nextParty Pi (Pi + 1)

theorem opensTo_surjective (p : Fin 4) : p ∈ [0, 1, 2, 3].map opensTo := by
  revert p
  decide

theorem jmpSender_ne_opensTo (Pi : Fin 4) : jmpSender Pi (Pi + 1) ≠ opensTo Pi := by
  revert Pi
  decide

theorem runs_openLoop (z : Fin 4 → Vec w n) (pairs : List (Fin 4)) (sh3 : Fin 4 → Vec w n)
    (tape : Fin 4 → Source → ℕ → BitVec w) :
    Runs (fun p => openLoop p (Scheme.deal z p) pairs (sh3 p)) tape
      (fun p => if p ∈ pairs.map opensTo then z p else sh3 p) tape := by
  induction pairs generalizing sh3 with
  | nil => exact Runs.pure sh3 tape
  | cons Pi pairs ih =>
      have hsender := jmpSender_ne_opensTo Pi
      have hpart : (Scheme.deal z : scheme.Shares (Vec w n)) (jmpSender Pi (Pi + 1))
          (abs2sh (jmpSender Pi (Pi + 1)) (opensTo Pi)) = z (opensTo Pi) :=
        deal_abs2sh z (Ne.symm hsender)
      refine (runs_jmp (fun p => (Scheme.deal z : scheme.Shares (Vec w n)) p (abs2sh p (opensTo Pi)))
        hsender tape).bind ?_
      convert ih (fun p => if p = opensTo Pi then z (opensTo Pi) else sh3 p) using 1
      · ext p
        rw [hpart]
        by_cases hp : p = opensTo Pi
        · simp [hp]
        · simp [hp]
      · ext p
        by_cases hp : p = opensTo Pi
        · simp [hp]
        · simp [hp]

/-- Every party receives the part it lacks. -/
theorem runs_openShares (z : Fin 4 → Vec w n) (tape : Fin 4 → Source → ℕ → BitVec w) :
    Runs (fun p => openShares p (Scheme.deal z p)) tape z tape := by
  have hloop := runs_openLoop z [0, 1, 2, 3] (fun _ => 0) tape
  simp only [opensTo_surjective, if_true] at hloop
  exact hloop

/-- The three parts a party keeps, and the one it received, are all parts. -/
theorem combine_received {op : Vec w n → Vec w n → Vec w n} [Std.Commutative op] [Std.Associative op]
    (z : Fin 4 → Vec w n) (p : Fin 4) :
    op (op (op ((Scheme.deal z : scheme.Shares (Vec w n)) p 0)
        ((Scheme.deal z : scheme.Shares (Vec w n)) p 1))
      ((Scheme.deal z : scheme.Shares (Vec w n)) p 2)) (z p) =
    Scheme.reconstruct op (Scheme.deal z : scheme.Shares (Vec w n)) := by
  rw [reconstruct_deal, combine_four, deal_eq]
  fin_cases p
  · show op (op (op (z 1) (z 2)) (z 3)) (z 0) = _
    ac_rfl
  · show op (op (op (z 2) (z 3)) (z 0)) (z 1) = _
    ac_rfl
  · show op (op (op (z 3) (z 0)) (z 1)) (z 2) = _
    ac_rfl
  · rfl

theorem computes_uncheckedOpenA {x : scheme.Shares (Vec w n)} {a : Vec w n} (hx : OpensA x a) :
    Computes Correlated (fun p => uncheckedOpenA p (x p)) fun value => ∀ p, value p = a := by
  obtain ⟨⟨z, rfl⟩, rfl⟩ := hx
  refine Computes.of_runs fun tape hcorr => ⟨_, tape,
    (runs_openShares z tape).bind (Runs.pure _ _), hcorr, fun p => ?_⟩
  exact combine_received z p

theorem computes_uncheckedOpenB {x : scheme.Shares (Vec w n)} {a : Vec w n} (hx : OpensB x a) :
    Computes Correlated (fun p => uncheckedOpenB p (x p)) fun value => ∀ p, value p = a := by
  obtain ⟨⟨z, rfl⟩, rfl⟩ := hx
  refine Computes.of_runs fun tape hcorr => ⟨_, tape,
    (runs_openShares z tape).bind (Runs.pure _ _), hcorr, fun p => ?_⟩
  exact combine_received z p

end Open

end CryptDough.Fantastic4PC
