import CryptDough.Circuits

/-! The equality circuit opens to one where the operands are equal and to zero elsewhere. -/

namespace CryptDough.Protocol

open Process Sharing

variable {w n : ℕ} {P : Protocol w}

/-- Bit `i` of `v` tells whether the bits `i`, …, `i + len - 1` of `u` are set, as far as they exist. -/
def AllSet (u v : Vec w n) (len : ℕ) : Prop :=
  ∀ (k : Fin n) (i : ℕ), i < w →
    ((v k).getLsbD i = true ↔ ∀ j, i ≤ j → j < w → j < i + len → (u k).getLsbD j = true)

/-- One level of `bitSame`: the replicated sign bit adds no condition of its own. -/
theorem AllSet.double {u v : Vec w n} {len : ℕ} (hlen : 0 < len) (hv : AllSet u v len) :
    AllSet u (v &&& Vec.bitArithmeticRightShift v len) (2 * len) := by
  intro k i hi
  have hshift : (Vec.bitArithmeticRightShift v len k).getLsbD i =
      (v k).getLsbD (min (len + i) (w - 1)) := by
    rw [Vec.bitArithmeticRightShift, BitVec.getLsbD_sshiftRight, BitVec.msb_eq_getLsbD_last]
    have hmem : ¬ w ≤ i := by omega
    by_cases hlt : len + i < w
    · have hmin : min (len + i) (w - 1) = len + i := by omega
      simp [hmem, hlt, hmin]
    · have hmin : min (len + i) (w - 1) = w - 1 := by omega
      simp [hmem, hlt, hmin]
  rw [Vec.and_apply, BitVec.getLsbD_and, Bool.and_eq_true, hshift, hv k i hi,
    hv k _ (by omega : min (len + i) (w - 1) < w)]
  constructor
  · rintro ⟨hlow, hhigh⟩ j hle hj hj'
    by_cases hjlen : j < i + len
    · exact hlow j hle hj hjlen
    · exact hhigh j (by omega) hj (by omega)
  · intro hall
    exact ⟨fun j hle hj hj' => hall j hle hj (by omega),
      fun j hle hj hj' => hall j (by omega) hj (by omega)⟩

theorem bitSameLoop_ensures {u : Vec w n} (rounds level : ℕ) {x : P.scheme.Shares (Vec w n)}
    {v : Vec w n} (hx : OpensB x v) (hv : AllSet u v (2 ^ level)) :
    P.Ensures (fun p => P.bitSameLoop p rounds level (x p))
      fun z => ∃ v', OpensB z v' ∧ AllSet u v' (2 ^ (level + rounds)) := by
  induction rounds generalizing level x v with
  | zero => exact Computes.pure ⟨v, hx, hv⟩
  | succ rounds ih =>
      refine (P.andB_computes hx (bitArithmeticRightShift_opens hx (2 ^ level))).bind fun y hy => ?_
      have hdouble := hv.double (Nat.two_pow_pos level)
      rw [← Nat.pow_succ'] at hdouble
      have hnext := ih (level + 1) hy hdouble
      rwa [Nat.add_right_comm level 1 rounds] at hnext

theorem bitSame_ensures {x y : P.scheme.Shares (Vec w n)} {a b : Vec w n} (hx : OpensB x a)
    (hy : OpensB y b) :
    P.Ensures (fun p => P.bitSame p (x p) (y p))
      fun z => ∃ v, OpensB z v ∧ AllSet (~~~ (a ^^^ b)) v (2 ^ logMaxBitsNumber w) := by
  have hstart : AllSet (~~~ (a ^^^ b)) (~~~ (a ^^^ b)) (2 ^ 0) := by
    intro k i hi
    constructor
    · intro hset j hle hj hj'
      obtain rfl : j = i := by omega
      exact hset
    · intro hall
      exact hall i le_rfl hi (by omega)
  have hloop := bitSameLoop_ensures (logMaxBitsNumber w) 0 (P.notB_opens (xorB_opens hx hy)) hstart
  rwa [Nat.zero_add] at hloop

/-- One where the elements are equal, zero elsewhere. -/
def equalBits (a b : Vec w n) : Vec w n := fun k => if a k = b k then 1 else 0

theorem mask_allSet (hw : 0 < w) {a b v : Vec w n}
    (hv : AllSet (~~~ (a ^^^ b)) v (2 ^ logMaxBitsNumber w)) : Vec.mask v 1 = equalBits a b := by
  ext k
  have hlog : w - 1 < 2 ^ logMaxBitsNumber w := Nat.lt_size_self (w - 1)
  have hbit : (v k).getLsbD 0 = true ↔ a k = b k := by
    rw [hv k 0 hw]
    constructor
    · intro hall
      apply BitVec.eq_of_getLsbD_eq
      intro j hj
      have hset := hall j (Nat.zero_le j) hj (by omega)
      simpa [hj] using hset
    · intro heq j _ hj _
      simp [heq, hj]
  simp only [Vec.mask, Vec.mask_one_eq, hbit, equalBits]

theorem equalB_ensures (hw : 0 < w) {x y : P.scheme.Shares (Vec w n)} {a b : Vec w n}
    (hx : OpensB x a) (hy : OpensB y b) :
    P.Ensures (fun p => P.equalB p (x p) (y p)) fun z => OpensB z (equalBits a b) := by
  refine (bitSame_ensures hx hy).bind fun z hz => ?_
  obtain ⟨v, hzv, hv⟩ := hz
  apply Computes.pure
  rw [← mask_allSet hw hv]
  exact maskB_opens hzv 1

end CryptDough.Protocol
