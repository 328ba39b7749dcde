import CryptDough.PRGAlgorithm
import CryptDough.Resharing
import Mathlib.Data.Fintype.Fin
import Mathlib.Data.Fintype.Powerset
import Mathlib.Tactic.IntervalCases

/-! The generators that parties have in common, and the shares of zero drawn from them: every party
draws from the generator it shares with its predecessor and from the one it shares with its
successor, and the shares of all parties cancel when the holders of a generator read it alike. -/

namespace CryptDough

open Sharing AESPRGAlgorithm

local instance (priority := high) ranks (last : ℕ) : @NeZero ℕ Zero.ofOfNat0 (last + 1) :=
  ⟨last.succ_ne_zero⟩

/-- The generators of an engine: a party's own one, the one whose seed a party sent to the others
that hold it, and the one a group agreed on. -/
inductive PRG (last : ℕ)
  | own (rank : Fin (last + 1))
  | key (rank : Fin (last + 1))
  | group (group : Group last)

instance {last : ℕ} : DecidableEq (PRG last)
  | .own p, .own q => decidable_of_iff (p = q) (by rw [PRG.own.injEq])
  | .key p, .key q => decidable_of_iff (p = q) (by rw [PRG.key.injEq])
  | .group g, .group h => decidable_of_iff (g = h) (by rw [PRG.group.injEq])
  | .own _, .key _ | .own _, .group _ | .key _, .own _ | .key _, .group _ | .group _, .own _
  | .group _, .key _ => isFalse (by simp)

namespace CommonPRGManager

variable {last : ℕ} (spdz : Bool)

/-- The generators by relative rank as the setup of the two-, three- and four-party protocols and of
SPDZ2k leaves them; in four parties a generator is common to all but the party at that rank. There is
a null pointer where the setup adds nothing. -/
def commonPrgs (rank index : Fin (last + 1)) : Option (PRG last) :=
  if last = 0 then some (.group Finset.univ)
  else if spdz then
    if index = -1 then some (.group {rank, rank - 1})
    else if index = 1 then some (.group {rank, rank + 1})
    else if index = 0 then some (.own rank) else none
  else if index = 0 then some (.own rank)
  else if last = 1 then some (.group Finset.univ)
  else if last = 2 then some (.key (if index = 1 then rank else rank - 1))
  else if last = 3 then some (.key (rank + index - 1))
  else none

/-- The parties that a manager gives a generator to: by relative rank or by group. -/
def Holds (groups : Finset (Group last)) (rank : Fin (last + 1)) (prg : PRG last) : Prop :=
  (∃ index, commonPrgs spdz rank index = some prg) ∨ ∃ g ∈ groups, rank ∈ g ∧ .group g = prg

/-- What a party has used of each of its generators. -/
abbrev Nonces (last : ℕ) := PRG last → ℕ

/-- The holders of a generator have used equally much of it, and read the same stream. -/
def InSync (groups : Finset (Group last)) (s : Fin (last + 1) → Nonces last) : Prop :=
  ∀ prg p q, Holds spdz groups p prg → Holds spdz groups q prg → s p prg = s q prg

abbrev Streams (last : ℕ) := StateT (Nonces last) Option

variable (aes : PRG last → Keystream)

/-- A call to a generator through its pointer. -/
def call {β : Type} (prg : Option (PRG last)) (algorithm : Keystream → StateM ℕ β) :
    Streams last β := fun nonces =>
  prg.map fun prg =>
    ((algorithm (aes prg) (nonces prg)).1,
      Function.update nonces prg (algorithm (aes prg) (nonces prg)).2)

theorem call_some {β : Type} {algorithm : Keystream → StateM ℕ β} {k : ℕ}
    (hk : ∀ key nonce, (algorithm key nonce).2 = nonce + k) (prg : PRG last) (s : Nonces last) :
    call aes (some prg) algorithm s =
      some ((algorithm (aes prg) (s prg)).1, fun g => s g + if prg = g then k else 0) := by
  rw [call, Option.map_some, hk]
  congr 2
  ext g
  by_cases hg : g = prg
  · rw [hg, Function.update_self, if_pos rfl]
  · rw [Function.update_of_ne hg, if_neg (Ne.symm hg), Nat.add_zero]

theorem bind_some {β γ : Type} {x : Streams last β} {s s' : Nonces last} {v : β}
    (hx : x s = some (v, s')) (f : β → Streams last γ) : (x >>= f) s = f v s' := by
  show (x s).bind _ = _
  rw [hx, Option.bind_some]

end CommonPRGManager

open CommonPRGManager

namespace ZeroSharingGenerator

section Code

variable {last : ℕ} (spdz : Bool) (aes : PRG last → Keystream) (rank : Fin (last + 1))

variable (last) in
def returnPlaintextZero : Bool := last + 1 = 1

def arithmeticFlip : Bool := last + 1 = 2 ∧ rank = 0

/-- The draws from `get(-1)` and `get(+1)`. -/
def neighbours {β : Type} (algorithm : Keystream → StateM ℕ β) : Streams last (β × β) := do
  let prev ← call aes (commonPrgs spdz rank (-1)) algorithm
  let next ← call aes (commonPrgs spdz rank 1) algorithm
  pure (prev, next)

/-- `getNextArithmetic` of a single number: what is drawn is not used. -/
def getNextArithmeticNum (size : ElementSize) (num : BitVec (8 * size.bytes)) :
    Streams last (BitVec (8 * size.bytes)) :=
  if returnPlaintextZero last then pure 0 else do
    let _ ← neighbours spdz aes rank fun key => getNextNum key size
    pure (if arithmeticFlip rank then -num else num)

/-- `getNextBinary` of a single number. -/
def getNextBinaryNum (size : ElementSize) : Streams last (BitVec (8 * size.bytes)) :=
  if returnPlaintextZero last then pure 0 else do
    let (prev, next) ← neighbours spdz aes rank fun key => getNextNum key size
    pure (prev ^^^ next)

def getNextArithmetic (size : ElementSize) (n : ℕ) : Streams last (Vec (8 * size.bytes) n) :=
  if returnPlaintextZero last then pure 0 else do
    let (nums, next) ← neighbours spdz aes rank fun key => getNext key size n
    if last + 1 = 4 then call aes (commonPrgs spdz rank 2) fun _ => incrementNonce
    let nums := nums - next
    pure (if arithmeticFlip rank then -nums else nums)

def getNextBinary (size : ElementSize) (n : ℕ) : Streams last (Vec (8 * size.bytes) n) :=
  if returnPlaintextZero last then pure 0 else do
    let (prev, next) ← neighbours spdz aes rank fun key => getNext key size n
    pure (prev ^^^ next)

/-- The independent vectors of a group, in the order in which they are drawn. -/
def drawGroup (group : Group last) (size : ElementSize) (n : ℕ) :
    (m : ℕ) → Streams last (Fin m → Vec (8 * size.bytes) n)
  | 0 => pure Fin.elim0
  | m + 1 => do
      let nums ← drawGroup group size n m
      let next ← call aes (some (.group group)) fun key => getNext key size n
      pure (Fin.snoc (α := fun _ => Vec (8 * size.bytes) n) nums next)

/-- `groupGetNextArithmetic` and `groupGetNextBinary` of `m + 1` vectors at a member. -/
def groupGetNextVectors (binary : Bool) (group : Group last) (size : ElementSize) (m n : ℕ) :
    Streams last (Fin (m + 1) → Vec (8 * size.bytes) n) := do
  let nums ← drawGroup aes group size n m
  pure (Fin.snoc (α := fun _ => Vec (8 * size.bytes) n) nums (dependent binary nums))

end Code

/-! The parties stand in a ring: what a party shares with its predecessor is what the predecessor
shares with its successor. -/

section Ring

variable {last : ℕ} (spdz : Bool)

/-- The generator at relative rank 1. -/
def nextPrg (rank : Fin (last + 1)) : PRG last :=
  if last = 1 then .group Finset.univ
  else if spdz then .group {rank, rank + 1}
  else .key rank

/-- The party whose generator at rank 1 is the one at rank -1. -/
def before : Equiv.Perm (Fin (last + 1)) :=
  if spdz = false ∧ last = 3 then Equiv.subRight 2 else Equiv.subRight 1

/-- How many of the two draws, which a party that is alone does not make, are from `prg`. -/
def neighbourUses (rank : Fin (last + 1)) (prg : PRG last) : ℕ :=
  if last = 0 then 0
  else (if nextPrg spdz (before spdz rank) = prg then 1 else 0) +
    if nextPrg spdz rank = prg then 1 else 0

variable {spdz}

theorem commonPrgs_next (hpos : 0 < last) (hlast : last ≤ 3) (rank : Fin (last + 1)) :
    commonPrgs spdz rank 1 = some (nextPrg spdz rank) := by
  interval_cases last <;> cases spdz <;> revert rank <;> decide

theorem commonPrgs_prev (hpos : 0 < last) (hlast : last ≤ 3) (rank : Fin (last + 1)) :
    commonPrgs spdz rank (-1) = some (nextPrg spdz (before spdz rank)) := by
  interval_cases last <;> cases spdz <;> revert rank <;> decide

theorem next_ne_before (hone : 1 < last) (hlast : last ≤ 3) (rank : Fin (last + 1)) :
    nextPrg spdz (before spdz rank) ≠ nextPrg spdz rank := by
  interval_cases last <;> cases spdz <;> revert rank <;> decide

section Draw

variable {β : Type} (aes : PRG last → Keystream) (algorithm : Keystream → StateM ℕ β) (k : ℕ)

variable (spdz)

/-- What the two draws return where each uses `k` nonces. -/
def drawn (rank : Fin (last + 1)) (s : Nonces last) : β × β :=
  ((algorithm (aes (nextPrg spdz (before spdz rank))) (s (nextPrg spdz (before spdz rank)))).1,
    (algorithm (aes (nextPrg spdz rank)) (s (nextPrg spdz rank) +
      if nextPrg spdz (before spdz rank) = nextPrg spdz rank then k else 0)).1)

variable {algorithm k}

theorem neighbours_run (hpos : 0 < last) (hlast : last ≤ 3)
    (hk : ∀ key nonce, (algorithm key nonce).2 = nonce + k) (rank : Fin (last + 1))
    (s : Nonces last) :
    neighbours spdz aes rank algorithm s =
      some (drawn spdz aes algorithm k rank s, fun g => s g + k * neighbourUses spdz rank g) := by
  have hprev := call_some aes hk (nextPrg spdz (before spdz rank)) s
  have hnext := call_some aes hk (nextPrg spdz rank) fun g =>
    s g + if nextPrg spdz (before spdz rank) = g then k else 0
  unfold neighbours
  rw [commonPrgs_prev hpos hlast, commonPrgs_next hpos hlast, bind_some hprev, bind_some hnext]
  refine congrArg some (Prod.ext rfl (funext fun g => ?_))
  change _ = s g + k * neighbourUses spdz rank g
  rw [neighbourUses, if_neg hpos.ne', Nat.mul_add, mul_ite, mul_ite, Nat.mul_one, Nat.mul_zero]
  exact Nat.add_assoc _ _ _

end Draw

/-- The members of a group share its generator, whoever set it up. -/
def memberOf (rank : Fin (last + 1)) : PRG last → Prop
  | .group g => rank ∈ g
  | _ => False

instance (rank : Fin (last + 1)) : DecidablePred (memberOf rank)
  | .group g => inferInstanceAs (Decidable (rank ∈ g))
  | .own _ | .key _ => inferInstanceAs (Decidable False)

/-- The parties that draw zero sharings from a generator: its two neighbours in the ring, or the
members of its group. -/
def Draws (spdz : Bool) (rank : Fin (last + 1)) (prg : PRG last) : Prop :=
  nextPrg spdz (before spdz rank) = prg ∨ nextPrg spdz rank = prg ∨ memberOf rank prg

instance (rank : Fin (last + 1)) : DecidablePred (Draws spdz rank) := fun prg =>
  inferInstanceAs (Decidable (_ ∨ _ ∨ memberOf rank prg))

/-- Whoever draws zero sharings from a generator draws equally often. -/
theorem neighbourUses_eq (hlast : last ≤ 3) (prg : PRG last)
    (p q : Fin (last + 1)) (hp : Draws spdz p prg) (hq : Draws spdz q prg) :
    neighbourUses spdz p prg = neighbourUses spdz q prg := by
  cases prg with
  | own r => interval_cases last <;> cases spdz <;> revert p q r <;> decide
  | key r => interval_cases last <;> cases spdz <;> revert p q r <;> decide
  | group g => interval_cases last <;> cases spdz <;> revert p q g <;> decide

theorem mem_of_nextPrg {q : Fin (last + 1)} {g : Group last} (hq : nextPrg spdz q = .group g) :
    q ∈ g ∧ q + 1 ∈ g ∧ ¬ (spdz = false ∧ last = 3) := by
  unfold nextPrg at hq
  split at hq
  · rw [← PRG.group.inj hq]
    exact ⟨Finset.mem_univ _, Finset.mem_univ _, by omega⟩
  · split at hq
    case isTrue hspdz =>
      rw [← PRG.group.inj hq]
      exact ⟨Finset.mem_insert_self _ _, Finset.mem_insert_of_mem (Finset.mem_singleton_self _),
        fun h => Bool.false_ne_true (h.1.symm.trans hspdz)⟩
    case isFalse => cases hq

theorem mem_of_draws {p : Fin (last + 1)} {g : Group last} (hp : Draws spdz p (.group g)) :
    p ∈ g := by
  rcases hp with hp | hp | hp
  · obtain ⟨-, hmem, hring⟩ := mem_of_nextPrg hp
    rw [before, if_neg hring, Equiv.subRight_apply, sub_add_cancel] at hmem
    exact hmem
  · exact (mem_of_nextPrg hp).1
  · exact hp

/-- The party opposite draws no zero sharings from the generator it is given. -/
theorem not_draws_opposite {prg : PRG last} {p : Fin (last + 1)} (hfour : last = 3)
    (hp : Draws spdz p prg) : commonPrgs spdz p 2 ≠ some prg := by
  subst hfour
  cases prg with
  | own r => cases spdz <;> revert p r <;> decide
  | key r => cases spdz <;> revert p r <;> decide
  | group g => cases spdz <;> revert p g <;> decide

/-- The readers of a generator have used equally much of it. -/
def Paired (spdz : Bool) (groups : Finset (Group last)) (s : Fin (last + 1) → Nonces last) : Prop :=
  ∀ prg p q, Holds spdz groups p prg → Holds spdz groups q prg → Draws spdz p prg →
    Draws spdz q prg → s p prg = s q prg

theorem paired_of_inSync {groups : Finset (Group last)} {s : Fin (last + 1) → Nonces last}
    (hsync : InSync spdz groups s) : Paired spdz groups s :=
  fun prg p q hp hq _ _ => hsync prg p q hp hq

end Ring

end ZeroSharingGenerator

end CryptDough
