import CryptDough.Beaver2PC
import Mathlib.Data.BitVec
import Mathlib.Tactic.LinearCombination
import Mathlib.Tactic.Ring

/-! Beaver triples cut out of one oblivious linear evaluation of twice the length, and the products
they give. -/

namespace CryptDough.Beaver2PC

open Process Sharing

variable {w n : ℕ}

/-- One party's shares of a triple. -/
structure Triple (w n : ℕ) where
  a : Vec w n
  b : Vec w n
  c : Vec w n

/-- One party's half of an oblivious linear evaluation. -/
structure Ole (w n : ℕ) where
  multiplicative : Vec w n
  additive : Vec w n

/-- What `BeaverTripleGenerator` builds from a correlation of length `2n`, with the sum and product of
its encoding. -/
def tripleOf (add mul : Vec w n → Vec w n → Vec w n) (rank : Fin 2) (ole : Ole w (n + n)) :
    Triple w n :=
  let vABLeft : Vec w n := fun i => ole.additive (Fin.castAdd n i)
  let vABRight : Vec w n := fun i => ole.additive (Fin.natAdd n i)
  let vCDLeft : Vec w n := fun i => ole.multiplicative (Fin.castAdd n i)
  let vCDRight : Vec w n := fun i => ole.multiplicative (Fin.natAdd n i)
  -- the second party is reversed, so that cross terms arise
  let a := if rank = 0 then vCDLeft else vCDRight
  let b := if rank = 0 then vCDRight else vCDLeft
  { a := a, b := b, c := add (add (mul a b) vABLeft) vABRight }

def tripleOfA (rank : Fin 2) (ole : Ole w (n + n)) : Triple w n :=
  tripleOf (· + ·) (· * ·) rank ole

def tripleOfB (rank : Fin 2) (ole : Ole w (n + n)) : Triple w n :=
  tripleOf (· ^^^ ·) (· &&& ·) rank ole

def IsTripleA (t : Fin 2 → Triple w n) : Prop :=
  (t 0).c + (t 1).c = ((t 0).a + (t 1).a) * ((t 0).b + (t 1).b)

def IsTripleB (t : Fin 2 → Triple w n) : Prop :=
  (t 0).c ^^^ (t 1).c = ((t 0).a ^^^ (t 1).a) &&& ((t 0).b ^^^ (t 1).b)

def IsOleA (ole : Fin 2 → Ole w n) : Prop :=
  (ole 0).additive + (ole 1).additive = (ole 0).multiplicative * (ole 1).multiplicative

def IsOleB (ole : Fin 2 → Ole w n) : Prop :=
  (ole 0).additive ^^^ (ole 1).additive = (ole 0).multiplicative &&& (ole 1).multiplicative

theorem tripleOfA_isTriple {ole : Fin 2 → Ole w (n + n)} (hole : IsOleA ole) :
    IsTripleA fun p => tripleOfA p (ole p) := by
  funext i
  have hleft := congrFun hole (Fin.castAdd n i)
  have hright := congrFun hole (Fin.natAdd n i)
  simp only [Pi.add_apply, Pi.mul_apply] at hleft hright
  simp only [tripleOfA, tripleOf, if_true, one_ne_zero, if_false, Pi.add_apply, Pi.mul_apply]
  linear_combination hleft + hright

theorem cross_terms (a a' d d' : BitVec w) :
    ((a &&& a') ^^^ (d' &&& d)) ^^^ ((a &&& d) ^^^ (a' &&& d')) = (a ^^^ d') &&& (a' ^^^ d) := by
  ext i hi
  simp only [BitVec.getElem_xor, BitVec.getElem_and]
  cases a[i] <;> cases a'[i] <;> cases d[i] <;> cases d'[i] <;> rfl

theorem tripleOfB_isTriple {ole : Fin 2 → Ole w (n + n)} (hole : IsOleB ole) :
    IsTripleB fun p => tripleOfB p (ole p) := by
  funext i
  have hleft := congrFun hole (Fin.castAdd n i)
  have hright := congrFun hole (Fin.natAdd n i)
  simp only [Vec.xor_apply, Vec.and_apply] at hleft hright
  simp only [tripleOfB, tripleOf, if_true, one_ne_zero, if_false, Vec.xor_apply, Vec.and_apply]
  -- the additive halves of the two parties meet
  calc _ = (((ole 0).multiplicative (Fin.castAdd n i) &&& (ole 0).multiplicative (Fin.natAdd n i)) ^^^
          ((ole 1).multiplicative (Fin.natAdd n i) &&& (ole 1).multiplicative (Fin.castAdd n i))) ^^^
        (((ole 0).additive (Fin.castAdd n i) ^^^ (ole 1).additive (Fin.castAdd n i)) ^^^
          ((ole 0).additive (Fin.natAdd n i) ^^^ (ole 1).additive (Fin.natAdd n i))) := by ac_rfl
    _ = _ := by
        rw [hleft, hright]
        exact cross_terms _ _ _ _

/-- The next triple on the tapes. -/
def Holds (tape : Fin 2 → Source → ℕ → BitVec w) (t : Fin 2 → Triple w n) : Prop :=
  ∀ p, nextOf tape n .a p = (t p).a ∧ nextOf tape n .b p = (t p).b ∧ nextOf tape n .c p = (t p).c

/-- What each party is left with after a multiplication. -/
def productShare (x y : scheme.Shares (Vec w n)) (t : Fin 2 → Triple w n) :
    scheme.Shares (Vec w n) := fun p r =>
  y p r * ((x 0 0 + (t 0).a) + (x 1 0 + (t 1).a)) -
    (t p).a * ((y 0 0 + (t 0).b) + (y 1 0 + (t 1).b)) + (t p).c

def andShare (x y : scheme.Shares (Vec w n)) (t : Fin 2 → Triple w n) :
    scheme.Shares (Vec w n) := fun p r =>
  (y p r &&& ((x 0 0 ^^^ (t 0).a) ^^^ (x 1 0 ^^^ (t 1).a))) ^^^
    ((t p).a &&& ((y 0 0 ^^^ (t 0).b) ^^^ (y 1 0 ^^^ (t 1).b))) ^^^ (t p).c

section Run

variable {x y : scheme.Shares (Vec w n)} {a b : Vec w n} {t : Fin 2 → Triple w n}
  {tape : Fin 2 → Source → ℕ → BitVec w}

theorem delivers_multiplyA (htape : Holds tape t) (stacked : Bool) :
    Delivers (fun p => multiplyA stacked p (x p) (y p)) tape (productShare x y t)
      (fun p s i => tape p s (n + i)) := by
  have hrun := runs_multiplyA stacked x y tape
  simp only [(htape _).1, (htape _).2.1, (htape _).2.2] at hrun
  exact delivers_iff_runs.mpr hrun

theorem delivers_andB (htape : Holds tape t) (stacked : Bool) :
    Delivers (fun p => andB stacked p (x p) (y p)) tape (andShare x y t)
      (fun p s i => tape p s (n + i)) := by
  have hrun := runs_andB stacked x y tape
  simp only [(htape _).1, (htape _).2.1, (htape _).2.2] at hrun
  exact delivers_iff_runs.mpr hrun

theorem productShare_opens (ht : IsTripleA t) (hx : OpensA x a) (hy : OpensA y b) :
    OpensA (productShare x y t) (a * b) := by
  replace hx := opens_iff.mp hx
  replace hy := opens_iff.mp hy
  apply opens_iff.mpr
  have htriple : (t 0).c + (t 1).c = ((t 0).a + (t 1).a) * ((t 0).b + (t 1).b) := ht
  show productShare x y t 0 0 + productShare x y t 1 0 = a * b
  calc _ = (y 0 0 + y 1 0) * ((x 0 0 + x 1 0) + ((t 0).a + (t 1).a)) -
          ((t 0).a + (t 1).a) * ((y 0 0 + y 1 0) + ((t 0).b + (t 1).b)) + ((t 0).c + (t 1).c) := by
        simp only [productShare]
        ring
    _ = a * b := by
        rw [htriple, show x 0 0 + x 1 0 = a from hx, show y 0 0 + y 1 0 = b from hy]
        ring

theorem andShare_opens (ht : IsTripleB t) (hx : OpensB x a) (hy : OpensB y b) :
    OpensB (andShare x y t) (a &&& b) := by
  replace hx := opens_iff.mp hx
  replace hy := opens_iff.mp hy
  apply opens_iff.mpr
  funext i
  have hti : (t 0).c i ^^^ (t 1).c i =
      ((t 0).a i ^^^ (t 1).a i) &&& ((t 0).b i ^^^ (t 1).b i) := congrFun ht i
  have hxi : x 0 0 i ^^^ x 1 0 i = a i := congrFun hx i
  have hyi : y 0 0 i ^^^ y 1 0 i = b i := congrFun hy i
  have hA : (x 0 0 i ^^^ (t 0).a i) ^^^ (x 1 0 i ^^^ (t 1).a i) = a i ^^^ ((t 0).a i ^^^ (t 1).a i) := by
    rw [← hxi]
    ac_rfl
  have hB : (y 0 0 i ^^^ (t 0).b i) ^^^ (y 1 0 i ^^^ (t 1).b i) = b i ^^^ ((t 0).b i ^^^ (t 1).b i) := by
    rw [← hyi]
    ac_rfl
  show andShare x y t 0 0 i ^^^ andShare x y t 1 0 i = a i &&& b i
  rw [← beaver_identity (a i) (b i) ((t 0).a i ^^^ (t 1).a i) ((t 0).b i ^^^ (t 1).b i), ← hti,
    ← hA, ← hB, ← hyi]
  simp only [andShare, Vec.xor_apply, Vec.and_apply, xor_and_distrib]
  ac_rfl

end Run

/-- Multiplication and AND are right for every triple, the generator's among them, and both variants
of the opening leave every party with the same share. -/
theorem beaver_correct :
    (∀ {w n : ℕ} {x y : scheme.Shares (Vec w n)} {a b : Vec w n} {t : Fin 2 → Triple w n}
      {tape : Fin 2 → Source → ℕ → BitVec w}, Holds tape t →
      (OpensA x a → OpensA y b → IsTripleA t → ∃ (z : scheme.Shares (Vec w n)) (tape' : _),
        OpensA z (a * b) ∧
        ∀ stacked, Delivers (fun p => multiplyA stacked p (x p) (y p)) tape z tape') ∧
      (OpensB x a → OpensB y b → IsTripleB t → ∃ (z : scheme.Shares (Vec w n)) (tape' : _),
        OpensB z (a &&& b) ∧
        ∀ stacked, Delivers (fun p => andB stacked p (x p) (y p)) tape z tape')) ∧
    ∀ {w n : ℕ} {ole : Fin 2 → Ole w (n + n)},
      (IsOleA ole → IsTripleA fun p => tripleOfA p (ole p)) ∧
      (IsOleB ole → IsTripleB fun p => tripleOfB p (ole p)) := by
  refine ⟨fun htape => ⟨fun hx hy ht => ?_, fun hx hy ht => ?_⟩,
    ⟨tripleOfA_isTriple, tripleOfB_isTriple⟩⟩
  · exact ⟨_, _, productShare_opens ht hx hy, delivers_multiplyA htape⟩
  · exact ⟨_, _, andShare_opens ht hx hy, delivers_andB htape⟩

/-- Tapes that hold one triple, and zeros after it. -/
def tapeOf (t : Fin 2 → Triple w n) : Fin 2 → Source → ℕ → BitVec w := fun p s i =>
  if h : i < n then
    match s with
    | .a => (t p).a ⟨i, h⟩
    | .b => (t p).b ⟨i, h⟩
    | .c => (t p).c ⟨i, h⟩
  else 0

theorem holds_tapeOf (t : Fin 2 → Triple w n) : Holds (tapeOf t) t := by
  intro p
  refine ⟨?_, ?_, ?_⟩ <;> exact funext fun i => dif_pos i.isLt

def exampleOle : Fin 2 → Ole 8 (1 + 1) :=
  ![⟨![3, 5], ![1, 4]⟩, ⟨![7, 2], ![20, 6]⟩]

/-- Ten times three, with the shares `4 + 6` and `1 + 2`. -/
theorem beaver_correct_example :
    ∃ (z : scheme.Shares (Vec 8 1)) (tape' : _), OpensA z (![10] * ![3]) ∧
      ∀ stacked, Delivers (fun p => multiplyA stacked p (fun _ => ![![4], ![6]] p)
        (fun _ => ![![1], ![2]] p)) (tapeOf fun p => tripleOfA p (exampleOle p)) z tape' :=
  (beaver_correct.1 (holds_tapeOf _)).1 (opens_iff.2 (by decide)) (opens_iff.2 (by decide))
    (beaver_correct.2.1 (by unfold IsOleA; decide))

end CryptDough.Beaver2PC
