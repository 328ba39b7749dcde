import CryptDough.ProcessRules
import CryptDough.ShareVector

/-! The interface every protocol implements on boolean shares, the communicator the implementations
exchange vectors with, and the operations the interface derives from the primitives. -/

namespace CryptDough

open Process Sharing

namespace Communicator

variable {k w n : ℕ} {S : Type}

/-- Ranks are relative: `toRank` counts from the sending party. -/
def sendShares (partyID toRank : Fin (k + 1)) (shares : Vec w n) :
    Proc (Fin (k + 1)) S (BitVec w) Unit :=
  .send (partyID + toRank) n shares (.done ())

def receiveShares (partyID fromRank : Fin (k + 1)) (size : ℕ) :
    Proc (Fin (k + 1)) S (BitVec w) (Vec w size) :=
  .recv (partyID + fromRank) size .done

def exchangeShares (partyID : Fin (k + 1)) (sent : Vec w n) (toRank fromRank : Fin (k + 1)) :
    Proc (Fin (k + 1)) S (BitVec w) (Vec w n) := do
  sendShares partyID toRank sent
  receiveShares partyID fromRank n

/-- If everybody sends to `toRank` and takes from the opposite rank, everybody gets what was meant for
it. -/
theorem runs_exchangeShares [DecidableEq S] (sent : Fin (k + 1) → Vec w n)
    (toRank fromRank : Fin (k + 1)) (hopp : fromRank + toRank = 0)
    (tape : Fin (k + 1) → S → ℕ → BitVec w) :
    Runs (fun p => exchangeShares p (sent p) toRank fromRank) tape (fun p => sent (p + fromRank)) tape := by
  have hround := (Runs.round (fun p => some (p + toRank, sent p)) (fun p => some (p + fromRank))
    ?_ tape).map fun p o => o.getD (sent p)
  · exact hround
  · intro p q
    constructor
    · intro hq
      refine ⟨sent q, ?_⟩
      rw [← Option.some.inj hq, add_assoc, hopp, add_zero]
    · rintro ⟨m, hm⟩
      have hp := congrArg Prod.fst (Option.some.inj hm)
      dsimp only at hp
      have hopp' : toRank + fromRank = 0 := (add_comm toRank fromRank).trans hopp
      rw [← hp, add_assoc, hopp', add_zero]

/-- One party sends a vector and one other party takes it. -/
theorem runs_transfer [DecidableEq S] {src dst : Fin (k + 1)} (hne : src ≠ dst) (m : Vec w n)
    (x : Fin (k + 1) → Vec w n) (tape : Fin (k + 1) → S → ℕ → BitVec w) :
    Runs (fun p => (fun o => o.getD (x p)) <$> Proc.round (if p = src then some (dst, m) else none)
        (if p = dst then some src else none)) tape
      (fun p => if p = dst then m else x p) tape := by
  have hround := (Runs.round (fun p => if p = src then some (dst, m) else none)
    (fun p => if p = dst then some src else none) ?_ tape).map fun p o => o.getD (x p)
  · convert hround using 1
    ext p
    by_cases hp : p = dst
    · simp [hp]
    · simp [hp]
  · intro p q
    by_cases hp : p = dst
    · subst hp
      constructor
      · intro hq
        simp only [if_true, Option.some.injEq] at hq
        exact ⟨m, by simp [hq]⟩
      · rintro ⟨m', hm'⟩
        by_cases hq : q = src
        · simp [hq]
        · simp [hq] at hm'
    · constructor
      · intro hq
        simp [hp] at hq
      · rintro ⟨m', hm'⟩
        by_cases hq : q = src
        · simp only [hq, if_true, Option.some.injEq, Prod.mk.injEq] at hm'
          exact absurd hm'.1.symm hp
        · simp [hq] at hm'

end Communicator

/-- The share vectors one party keeps: one per slot. -/
abbrev EVec (S : Scheme) (w n : ℕ) := S.Slot → Vec w n

/-- A consistent boolean sharing: the parts XOR to the secret. -/
abbrev OpensB {S : Scheme} {w n : ℕ} (s : S.Shares (Vec w n)) (secret : Vec w n) : Prop :=
  Scheme.Opens (· ^^^ ·) s secret

/-- A consistent arithmetic sharing: the parts add up to the secret. -/
abbrev OpensA {S : Scheme} {w n : ℕ} (s : S.Shares (Vec w n)) (secret : Vec w n) : Prop :=
  Scheme.Opens (· + ·) s secret

/-- The value of an arithmetic sharing. -/
def reconstructFromA {S : Scheme} {w n : ℕ} (s : S.Shares (Vec w n)) : Vec w n :=
  Scheme.reconstruct (· + ·) s

/-- The value of a boolean sharing. -/
def reconstructFromB {S : Scheme} {w n : ℕ} (s : S.Shares (Vec w n)) : Vec w n :=
  Scheme.reconstruct (· ^^^ ·) s

/-- A protocol on boolean shares of `w` bits: who holds what, the tapes its parties draw from and
the relation between them, and its primitives, which keep the sharing consistent. -/
structure Protocol (w : ℕ) where
  scheme : Scheme
  Source : Type
  [decSource : DecidableEq Source]
  correlated : (scheme.Party → Source → ℕ → BitVec w) → Prop
  andB : ∀ {n : ℕ}, scheme.Party → EVec scheme w n → EVec scheme w n →
    Proc scheme.Party Source (BitVec w) (EVec scheme w n)
  notB : ∀ {n : ℕ}, scheme.Party → EVec scheme w n → EVec scheme w n
  notB1 : ∀ {n : ℕ}, scheme.Party → EVec scheme w n → EVec scheme w n
  correlated_zero : correlated fun _ _ _ => 0
  andB_computes : ∀ {n : ℕ} {x y : scheme.Shares (Vec w n)} {a b : Vec w n}, OpensB x a → OpensB y b →
    Computes correlated (fun p => andB p (x p) (y p)) fun z => OpensB z (a &&& b)
  notB_opens : ∀ {n : ℕ} {x : scheme.Shares (Vec w n)} {a : Vec w n}, OpensB x a →
    OpensB (fun p => notB p (x p)) (~~~ a)

attribute [instance] Protocol.decSource

namespace Protocol

variable {w n : ℕ} (P : Protocol w)

abbrev Party := P.scheme.Party

/-- The program of one party that ends with a value of type `β`. -/
abbrev Program (β : Type) := Proc P.Party P.Source (BitVec w) β

/-- Every interleaving of the parties' programs ends with values that satisfy `post`. -/
abbrev Ensures {β : Type} (prog : P.Party → P.Program β) (post : (P.Party → β) → Prop) : Prop :=
  Computes P.correlated prog post

def xorB (x y : EVec P.scheme w n) : EVec P.scheme w n := fun r => x r ^^^ y r

def maskB (x : EVec P.scheme w n) (maskValue : BitVec w) : EVec P.scheme w n :=
  fun r => Vec.mask (x r) maskValue

def bitLeftShift (x : EVec P.scheme w n) (shiftSize : ℕ) : EVec P.scheme w n :=
  fun r => Vec.bitLeftShift (x r) shiftSize

def bitArithmeticRightShift (x : EVec P.scheme w n) (shiftSize : ℕ) : EVec P.scheme w n :=
  fun r => Vec.bitArithmeticRightShift (x r) shiftSize

def unpackFrom (this : EVec P.scheme w n) (source : EVec P.scheme w (Vec.compressedSize w n))
    (position : ℕ) : EVec P.scheme w n :=
  fun r => Vec.unpackFrom (this r) (source r) position

def bitDecomposition (x : EVec P.scheme w n) (bit : ℕ) :
    EVec P.scheme w (Vec.compressedSize w n) :=
  fun r => Vec.bitDecomposition (x r) bit

/-- The logical AND is the bitwise one. -/
def andB1 (partyID : P.Party) (x y : EVec P.scheme w n) : P.Program (EVec P.scheme w n) :=
  P.andB partyID x y

def orB (partyID : P.Party) (x y : EVec P.scheme w n) : P.Program (EVec P.scheme w n) := do
  let tmp1 ← P.andB partyID (P.notB partyID x) (P.notB partyID y)
  pure (P.notB partyID tmp1)

def orB1 (partyID : P.Party) (x y : EVec P.scheme w n) : P.Program (EVec P.scheme w n) :=
  P.orB partyID x y

variable {P} {x y : P.scheme.Shares (Vec w n)} {a b : Vec w n}

theorem xorB_opens (hx : OpensB x a) (hy : OpensB y b) :
    OpensB (fun p => P.xorB (x p) (y p)) (a ^^^ b) :=
  hx.op hy

theorem maskB_opens (hx : OpensB x a) (c : BitVec w) :
    OpensB (fun p => P.maskB (x p) c) (Vec.mask a c) :=
  hx.map (fun v => Vec.mask v c) fun u v => Vec.mask_xor u v c

theorem bitLeftShift_opens (hx : OpensB x a) (s : ℕ) :
    OpensB (fun p => P.bitLeftShift (x p) s) (Vec.bitLeftShift a s) :=
  hx.map (fun v => Vec.bitLeftShift v s) fun u v => Vec.bitLeftShift_xor u v s

theorem bitArithmeticRightShift_opens (hx : OpensB x a) (s : ℕ) :
    OpensB (fun p => P.bitArithmeticRightShift (x p) s) (Vec.bitArithmeticRightShift a s) :=
  hx.map (fun v => Vec.bitArithmeticRightShift v s) fun u v =>
    Vec.bitArithmeticRightShift_xor u v s

theorem bitDecomposition_opens (hx : OpensB x a) (bit : ℕ) :
    OpensB (fun p => P.bitDecomposition (x p) bit) (Vec.packFrom a bit) :=
  hx.map (fun v => Vec.bitDecomposition v bit) fun u v => Vec.packFrom_xor u v bit

theorem unpackFrom_opens {z : P.scheme.Shares (Vec w (Vec.compressedSize w n))}
    {c : Vec w (Vec.compressedSize w n)} (hx : OpensB x a) (hz : OpensB z c) (position : ℕ) :
    OpensB (fun p => P.unpackFrom (x p) (z p) position) (Vec.unpackFrom a c position) := by
  refine ⟨hx.1.map₂ hz.1 fun u v => Vec.unpackFrom u v position, ?_⟩
  rw [← hx.2, ← hz.2]
  exact combine_map₂ (fun u v => Vec.unpackFrom u v position)
    (fun u u' v v' => Vec.unpackFrom_xor u u' v v' position) _ _

theorem zero_opens : OpensB (fun (_ : P.Party) (_ : P.scheme.Slot) => (0 : Vec w n)) 0 := by
  refine ⟨⟨fun _ => 0, rfl⟩, ?_⟩
  exact combine_const_idem _ 0 (by funext i; simp)

/-- A program opens to one value only. -/
theorem Ensures.opens_unique {prog : P.Party → P.Program (EVec P.scheme w n)} {a b : Vec w n}
    (ha : P.Ensures prog fun z => OpensB z a) (hb : P.Ensures prog fun z => OpensB z b) : a = b := by
  obtain ⟨z, hza, hzb⟩ := (Computes.and ha hb).exists_value P.correlated_zero
  exact hza.unique hzb

theorem orB_ensures (hx : OpensB x a) (hy : OpensB y b) :
    P.Ensures (fun p => P.orB p (x p) (y p)) fun z => OpensB z (~~~ (~~~ a &&& ~~~ b)) :=
  (P.andB_computes (P.notB_opens hx) (P.notB_opens hy)).bind fun _ hz =>
    Computes.pure (P.notB_opens hz)

end Protocol

end CryptDough
