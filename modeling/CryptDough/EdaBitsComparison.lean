import CryptDough.EdaBitsAdder
import CryptDough.SignedOrder

/-! Comparisons with edaBits: the sign of a difference, corrected where the difference overflows. -/

namespace CryptDough

open Execution ArithmeticProtocol

variable {w n : ℕ}

namespace EdabitsProtocol

variable {E : EdabitsProtocol w n} {x y : E.Container} {u v : Vec w n}

theorem xorB1_yields {a b : Fin n → Bool} (hx : E.aProtocol.Opens x (ofBits a))
    (hy : E.aProtocol.Opens y (ofBits b)) :
    E.aProtocol.Yields (E.xorB1 x y) fun z => E.aProtocol.Opens z (ofBits fun k => a k ^^ b k) := by
  apply (hx.multiplyA hy).bind
  intro xy hxy
  apply Meets.pure
  apply ((hx.add hy).sub (hxy.mul _)).congr
  ext1 k
  exact bitOf_xor (a k) (b k)

theorem multiplyA_bits {a b : Fin n → Bool} (hx : E.aProtocol.Opens x (ofBits a))
    (hy : E.aProtocol.Opens y (ofBits b)) : E.aProtocol.Yields (E.aProtocol.multiplyA x y) fun z =>
      E.aProtocol.Opens z (ofBits fun k => a k && b k) := by
  apply (hx.multiplyA hy).mono
  intro z hz
  apply hz.congr
  ext1 k
  cases ha : a k <;> cases hb : b k <;> simp [ofBits, bitOf, ha, hb]

theorem ltz_yields (hw : 0 < w) (hx : E.aProtocol.Opens x u) (out : E.Container) :
    E.aProtocol.Yields (E.ltz x out) fun z => E.aProtocol.Opens z (ofBits fun k => (u k).msb) := by
  apply (E.getEdaBits_yields w).bind
  intro edaBits _
  apply (hx.sub edaBits.sum_opens).openSharesA.bind
  intro opened hopened
  apply (publicRca_yields hw fun z hz => (Option.some_ne_none z hz.symm).elim).bind
  rintro rca ⟨hsign, -⟩
  apply Meets.pure
  apply (hsign rfl).congr
  ext1 k
  rw [ofBits, ofBits, hopened]
  simp

/-- `1 - gt - lt + gt * lt`, the conjunction of the negations. -/
theorem opens_neither {gtBits ltBits gtAndLt : E.Container} {a b : Fin n → Bool}
    (hgt : E.aProtocol.Opens gtBits (ofBits a)) (hlt : E.aProtocol.Opens ltBits (ofBits b))
    (hand : E.aProtocol.Opens gtAndLt (ofBits fun k => a k && b k)) :
    E.aProtocol.Opens (E.aProtocol.publicShare (Vec.replicate n 1) - gtBits - ltBits + gtAndLt)
      (ofBits fun k => !a k && !b k) := by
  apply ((((Opens.publicShare _).sub hgt).sub hlt).add hand).congr
  ext1 k
  cases ha : a k <;> cases hb : b k <;> simp [ofBits, bitOf, ha, hb]

theorem equalB_yields (hw : 0 < w) (hx : E.aProtocol.Opens x u) (hy : E.aProtocol.Opens y v) :
    E.aProtocol.Yields (E.equalB x y) fun z =>
      E.aProtocol.Opens z (ofBits fun k => decide (u k = v k)) := by
  apply (ltz_yields hw (hy.sub hx) 0).bind
  intro gtBits hgt
  apply (ltz_yields hw (hx.sub hy) 0).bind
  intro ltBits hlt
  apply (multiplyA_bits hgt hlt).bind
  intro gtAndLt hand
  apply Meets.pure
  apply (opens_neither hgt hlt hand).congr
  ext1 k
  exact congrArg bitOf (not_msb_sub_and_not_msb_sub (u k) (v k))

/-- With `mid` what `gtBits` holds when the signs are compared, the result is the sign of the second
operand where the signs differ, and `mid` elsewhere. -/
theorem linearCompareB_yields {L : Type} [DecidableEq L] (hw : 0 < w) (hx : E.aProtocol.Opens x u)
    (hy : E.aProtocol.Opens y v) (eqBits gtBits : L) (mem : L → E.Container) :
    E.aProtocol.Yields (E.linearCompareB x y eqBits gtBits mem) fun mem' =>
      (eqBits ≠ gtBits → E.aProtocol.Opens (mem' eqBits) (ofBits fun k => decide (u k = v k))) ∧
      E.aProtocol.Opens (mem' gtBits) (ofBits fun k =>
        if (u k).msb = (v k).msb then
          if eqBits = gtBits then decide (u k = v k) else (v k - u k).msb
        else (v k).msb) := by
  apply (ltz_yields hw (hy.sub hx) _).bind
  intro gt hgt
  apply (ltz_yields hw (hx.sub hy) 0).bind
  intro ltBits hlt
  simp only [Function.update_self]
  apply (multiplyA_bits hgt hlt).bind
  intro gtAndLt hand
  have heq := opens_neither hgt hlt hand
  simp only [Pi.sub_apply, not_msb_sub_and_not_msb_sub] at heq
  apply (ltz_yields hw hx 0).bind
  intro xNegative hxNegative
  apply (ltz_yields hw hy 0).bind
  intro yNegative hyNegative
  apply (xorB1_yields hxNegative hyNegative).bind
  intro differentSigns hdifferent
  apply (multiplyA_bits hdifferent hyNegative).bind
  intro maskedYSign hmaskedY
  have hmid : E.aProtocol.Opens (Function.update (Function.update mem gtBits gt) eqBits
      (E.aProtocol.publicShare (Vec.replicate n 1) - gt - ltBits + gtAndLt) gtBits)
      (ofBits fun k => if eqBits = gtBits then decide (u k = v k) else (v k - u k).msb) := by
    by_cases hsame : eqBits = gtBits
    · subst hsame
      simpa only [Function.update_self, if_true] using heq
    · rw [Function.update_of_ne (Ne.symm hsame), Function.update_self]
      simpa only [hsame, if_false, Pi.sub_apply] using hgt
  apply (multiplyA_bits hdifferent hmid).bind
  intro maskedGTSign hmaskedGT
  apply Meets.pure
  constructor
  · intro hne
    rw [Function.update_of_ne hne, Function.update_self]
    exact heq
  · rw [Function.update_self]
    apply ((hmid.add hmaskedY).sub hmaskedGT).congr
    ext1 k
    simp only [ofBits, Pi.add_apply, Pi.sub_apply]
    cases (u k).msb <;> cases (v k).msb <;> simp [bitOf]

/-- The edaBits in use: all their digits are zero. -/
def dummy (P : ArithmeticProtocol w n) : EdabitsProtocol w n where
  aProtocol := P
  getEdaBits bitLength := pure
    { bits := fun _ => 0
      sum := 0
      random := fun _ => 0
      bits_open := fun i _ => Opens.zero.congr (by ext1 k; simp [ofBits, bitOf])
      sum_opens := Opens.zero.congr (by ext1 k; simp) }
  getEdaBits_yields _ := Meets.pure trivial

/-- Two honest parties of SPDZ-2k with key shares 3 and 5, bytes, and the edaBits in use. -/
def twoParties : EdabitsProtocol 8 1 :=
  dummy (SPDZ2k.arithmetic
    (SPDZ2k.Setup.dealing ![3, 5] 0 fun _ _ => 0 : SPDZ2k.Setup 2 8 56 (Vec 64 1)) (fun _ _ => rfl) 1)

theorem twoParties_initial : twoParties.aProtocol.Inv ({} : SPDZ2k.Joint 2 64) :=
  ⟨[], [], SPDZ2k.Account.initial⟩

end EdabitsProtocol

end CryptDough
