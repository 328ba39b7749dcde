import CryptDough.Sharing
import Mathlib.Algebra.BigOperators.Fin
import Mathlib.Algebra.Ring.Pi
import Mathlib.Data.BitVec
import Mathlib.Data.Matrix.Mul
import Mathlib.Logic.Equiv.Fin.Basic
import Mathlib.Tactic.Ring

/-! Vectors of fixed-width share elements with the elementwise, bit-packing and chunked operations
the protocols apply to them. -/

namespace CryptDough

open Sharing

/-- A vector of `n` elements of `w` bits. -/
abbrev Vec (w n : ℕ) := Fin n → BitVec w

theorem xor_and_distrib {w : ℕ} (a b c : BitVec w) :
    (a ^^^ b) &&& c = (a &&& c) ^^^ (b &&& c) := by
  ext j hj
  simp only [BitVec.getElem_and, BitVec.getElem_xor, Bool.and_xor_distrib_right]

namespace Vec

variable {w n : ℕ}

instance : XorOp (Vec w n) := ⟨fun x y i => x i ^^^ y i⟩

instance : AndOp (Vec w n) := ⟨fun x y i => x i &&& y i⟩

instance : Complement (Vec w n) := ⟨fun x i => ~~~ x i⟩

@[simp] theorem xor_apply (x y : Vec w n) (i : Fin n) : (x ^^^ y) i = x i ^^^ y i := rfl

@[simp] theorem and_apply (x y : Vec w n) (i : Fin n) : (x &&& y) i = x i &&& y i := rfl

@[simp] theorem not_apply (x : Vec w n) (i : Fin n) : (~~~ x) i = ~~~ x i := rfl

instance : Std.Commutative (α := Vec w n) (· ^^^ ·) :=
  ⟨fun x y => funext fun i => BitVec.xor_comm (x i) (y i)⟩

instance : Std.Associative (α := Vec w n) (· ^^^ ·) :=
  ⟨fun x y z => funext fun i => BitVec.xor_assoc (x i) (y i) (z i)⟩

instance : Std.Commutative (α := Vec w n) (· + ·) := ⟨add_comm⟩

instance : Std.Associative (α := Vec w n) (· + ·) := ⟨add_assoc⟩

theorem and_xor (x y z : Vec w n) : x &&& (y ^^^ z) = (x &&& y) ^^^ (x &&& z) := by
  ext i
  simp only [and_apply, xor_apply, BitVec.and_comm (x i), xor_and_distrib]

theorem xor_and (x y z : Vec w n) : (x ^^^ y) &&& z = (x &&& z) ^^^ (y &&& z) := by
  funext i
  exact xor_and_distrib (x i) (y i) (z i)

/-- Every element equal to `c`. -/
def replicate (n : ℕ) (c : BitVec w) : Vec w n := fun _ => c

@[simp] theorem replicate_apply (c : BitVec w) (i : Fin n) : replicate n c i = c := rfl

/-- The negation of a C++ integer: one if the element is zero, zero otherwise. -/
def logicalNot (x : Vec w n) : Vec w n := fun i => if x i = 0 then 1 else 0

def mask (x : Vec w n) (maskValue : BitVec w) : Vec w n := fun i => x i &&& maskValue

def bitLeftShift (x : Vec w n) (shiftSize : ℕ) : Vec w n := fun i => x i <<< shiftSize

def bitArithmeticRightShift (x : Vec w n) (shiftSize : ℕ) : Vec w n :=
  fun i => (x i).sshiftRight shiftSize

/-- The number of elements that hold one bit of each of `n` elements. -/
def compressedSize (w n : ℕ) : ℕ := n / w + if 0 < n % w then 1 else 0

def getBit (share : BitVec w) (bitIndex : ℕ) : BitVec w := (share >>> bitIndex) &&& 1

def setBitValue (share value : BitVec w) (bitIndex : ℕ) : BitVec w :=
  (share &&& ~~~ ((1 : BitVec w) <<< bitIndex)) ||| (value <<< bitIndex)

/-- Chunk `c` of `source`, one bit per element: the loop body `r |= bit << p` for `p < len`. -/
def packChunk (source : Vec w n) (position c : ℕ) : ℕ → BitVec w
  | 0 => 0
  | p + 1 => packChunk source position c p |||
      if h : c * w + p < n then getBit (source ⟨c * w + p, h⟩) position <<< p else 0

/-- Bit `p` of packed element `c` is bit `position` of element `c * w + p`. -/
def packFrom (source : Vec w n) (position : ℕ) : Vec w (compressedSize w n) := fun c =>
  packChunk source position c w

theorem div_lt_compressedSize {i : ℕ} (hi : i < n) (hw : 0 < w) : i / w < compressedSize w n := by
  unfold compressedSize
  have hn := Nat.div_add_mod n w
  split
  · have hle : i / w ≤ n / w := Nat.div_le_div_right hi.le
    omega
  · rename_i hmod
    have hn' : n = n / w * w := by
      rw [Nat.mul_comm]
      omega
    rw [Nat.add_zero, Nat.div_lt_iff_lt_mul hw]
    omega

/-- The elements of `this` with bit `position` taken from the packed `source`. -/
def unpackFrom (this : Vec w n) (source : Vec w (compressedSize w n)) (position : ℕ) : Vec w n :=
  fun k => if h : k.val / w < compressedSize w n then
    setBitValue (this k) (getBit (source ⟨k.val / w, h⟩) (k.val % w)) position else this k

/-- One packed vector per bit position. -/
def bitDecomposition (x : Vec w n) : ℕ → Vec w (compressedSize w n) := packFrom x

/-- Element `i` becomes the sum of the elements up to `i`. -/
def prefixSum (x : Vec w n) : Vec w n := fun i => ∑ j : Fin n, if j ≤ i then x j else 0

/-- The elements in the opposite order. -/
def reverse (x : Vec w n) : Vec w n := fun i => x i.rev

/-- The sums of `x j * y j` over the positions selected for each element of the result. -/
def selectedProducts {k : ℕ} (sel : Fin k → Fin n → Prop) [∀ c j, Decidable (sel c j)]
    (x y : Vec w n) : Vec w k := fun c => ∑ j : Fin n, if sel c j then x j * y j else 0

/-- How many chunks of `aggSize` elements there are; zero asks for a single chunk. -/
def chunkCount (n aggSize : ℕ) : ℕ :=
  let aggSize := if aggSize = 0 then n else aggSize
  (n + aggSize - 1) / aggSize

/-- The dot product that keeps a last chunk that is not full. -/
def dotProductChunks (aggSize : ℕ) (x y : Vec w n) : Vec w (chunkCount n aggSize) :=
  let aggSize := if aggSize = 0 then n else aggSize
  selectedProducts (fun c j => c.val * aggSize ≤ j.val ∧ j.val < (c.val + 1) * aggSize) x y

/-- Element `i`, zero past the end. -/
def getElem (x : Vec w n) (i : ℕ) : BitVec w := if h : i < n then x ⟨i, h⟩ else 0

/-- The product of matrices, the left one stored by rows and the right one by columns; the result is
stored by rows. -/
def matrixRightMultiply {m : ℕ} (lhsRows lhsCols rhsRows rhsCols : ℕ) (x : Vec w n) (rhs : Vec w m) :
    Vec w (lhsRows * rhsCols) := fun o =>
  ∑ k : Fin lhsCols, x.getElem (o.val / rhsCols * lhsCols + k) *
    rhs.getElem (o.val % rhsCols * rhsRows + k)

theorem logicalNot_apply (x : Vec w n) (i : Fin n) :
    logicalNot x i = if x i = 0 then 1 else 0 := rfl

theorem mask_one_eq (v : BitVec w) : v &&& 1 = if v.getLsbD 0 then 1 else 0 := by
  apply BitVec.eq_of_getLsbD_eq
  intro j hj
  by_cases h0 : j = 0
  · subst h0
    split
    · rename_i hv
      simp [hj, hv]
    · rename_i hv
      simp [hv]
  · split <;> simp [BitVec.getLsbD_one, h0]

theorem mask_xor (x y : Vec w n) (c : BitVec w) : mask (x ^^^ y) c = mask x c ^^^ mask y c := by
  funext i
  exact xor_and_distrib (x i) (y i) c

theorem bitLeftShift_xor (x y : Vec w n) (s : ℕ) :
    bitLeftShift (x ^^^ y) s = bitLeftShift x s ^^^ bitLeftShift y s := by
  funext i
  exact BitVec.shiftLeft_xor_distrib (x i) (y i) s

theorem bitArithmeticRightShift_xor (x y : Vec w n) (s : ℕ) :
    bitArithmeticRightShift (x ^^^ y) s =
      bitArithmeticRightShift x s ^^^ bitArithmeticRightShift y s := by
  funext i
  exact BitVec.sshiftRight_xor_distrib (x i) (y i) s

theorem getLsbD_getBit (v : BitVec w) (b j : ℕ) :
    (getBit v b).getLsbD j = (decide (j = 0) && v.getLsbD b) := by
  by_cases hj : j = 0
  · subst hj
    by_cases hw : 0 < w
    · simp [getBit, hw]
    · have hw0 : w = 0 := by omega
      subst hw0
      simp
  · simp [getBit, BitVec.getLsbD_one, hj]

theorem getLsbD_packChunk (source : Vec w n) (position c len j : ℕ) :
    (packChunk source position c len).getLsbD j =
      (decide (j < len) && decide (j < w) &&
        if h : c * w + j < n then (source ⟨c * w + j, h⟩).getLsbD position else false) := by
  induction len with
  | zero => simp [packChunk]
  | succ p ih =>
      rw [packChunk, BitVec.getLsbD_or, ih]
      rcases Nat.lt_trichotomy j p with hlt | rfl | hgt
      · have hlt' : j < p + 1 := by omega
        split
        · split <;> simp [hlt, hlt']
        · split <;> simp [hlt, hlt']
      · split
        · simp [getLsbD_getBit]
        · simp
      · have hge : ¬ j < p := by omega
        have hge' : ¬ j < p + 1 := by omega
        have hsub : ¬ j - p = 0 := by omega
        have hlast : (if h : c * w + p < n then
            getBit (source ⟨c * w + p, h⟩) position <<< p else 0).getLsbD j = false := by
          split
          · simp only [BitVec.getLsbD_shiftLeft, getLsbD_getBit, hsub, decide_false,
              Bool.false_and, Bool.and_false]
          · simp
        rw [hlast]
        simp [hge, hge']

theorem packFrom_xor (x y : Vec w n) (position : ℕ) :
    packFrom (x ^^^ y) position = packFrom x position ^^^ packFrom y position := by
  funext c
  apply BitVec.eq_of_getLsbD_eq
  intro p hp
  simp only [packFrom, xor_apply, BitVec.getLsbD_xor, getLsbD_packChunk]
  split <;> simp [hp]

theorem getLsbD_packFrom {x : Vec w n} {position : ℕ} (i : Fin n)
    (hc : i.val / w < compressedSize w n) (hw : 0 < w) :
    (packFrom x position ⟨i.val / w, hc⟩).getLsbD (i.val % w) = (x i).getLsbD position := by
  have hmod := Nat.mod_lt i.val hw
  have hi : i.val / w * w + i.val % w = i.val := Nat.div_add_mod' i.val w
  simp only [packFrom, getLsbD_packChunk, hi, i.isLt, dite_true, hmod, decide_true, Bool.true_and]

theorem getLsbD_setBitValue (v u : BitVec w) (b c j : ℕ) :
    (setBitValue v (getBit u c) b).getLsbD j =
      if j = b then decide (b < w) && u.getLsbD c else v.getLsbD j := by
  by_cases hjw : j < w
  · by_cases hjb : j = b
    · subst hjb
      simp only [setBitValue, BitVec.getLsbD_or, BitVec.getLsbD_and, BitVec.getLsbD_not,
        BitVec.getLsbD_shiftLeft, getLsbD_getBit, Nat.sub_self]
      simp [hjw]
      omega
    · simp only [setBitValue, BitVec.getLsbD_or, BitVec.getLsbD_and, BitVec.getLsbD_not,
        BitVec.getLsbD_shiftLeft, getLsbD_getBit]
      rcases Nat.lt_or_gt_of_ne hjb with hlt | hgt
      · simp [hjw, hjb, hlt]
      · have hsub : ¬ j - b = 0 := by omega
        simp [hjw, hjb, hsub]
  · have hv : v.getLsbD j = false := BitVec.getLsbD_of_ge v j (by omega)
    rw [BitVec.getLsbD_of_ge _ j (by omega), hv]
    split
    · rename_i hjb
      subst hjb
      simp [hjw]
    · rfl

/-- Unpacking sets one bit and keeps the others. -/
theorem getLsbD_unpackFrom {x : Vec w n} {y : Vec w (compressedSize w n)} {position : ℕ}
    (k : Fin n) (hc : k.val / w < compressedSize w n) (j : ℕ) :
    (unpackFrom x y position k).getLsbD j =
      if j = position then
        decide (position < w) && (y ⟨k.val / w, hc⟩).getLsbD (k.val % w)
      else (x k).getLsbD j := by
  simp only [unpackFrom, hc, dite_true]
  exact getLsbD_setBitValue _ _ _ _ _

theorem unpackFrom_xor (x x' : Vec w n) (y y' : Vec w (compressedSize w n)) (position : ℕ) :
    unpackFrom (x ^^^ x') (y ^^^ y') position =
      unpackFrom x y position ^^^ unpackFrom x' y' position := by
  funext k
  by_cases hc : k.val / w < compressedSize w n
  · apply BitVec.eq_of_getLsbD_eq
    intro j hj
    rw [xor_apply, BitVec.getLsbD_xor, getLsbD_unpackFrom k hc, getLsbD_unpackFrom k hc,
      getLsbD_unpackFrom k hc]
    split
    · rename_i hjp
      have hpos : position < w := hjp ▸ hj
      simp [hpos]
    · simp
  · simp [unpackFrom, hc]

section Products

variable {k : ℕ} (sel : Fin k → Fin n → Prop) [∀ c j, Decidable (sel c j)]

theorem selectedProducts_add_left (x x' y : Vec w n) :
    selectedProducts sel (x + x') y = selectedProducts sel x y + selectedProducts sel x' y := by
  funext c
  simp only [selectedProducts, Pi.add_apply, ← Finset.sum_add_distrib, add_mul]
  refine Finset.sum_congr rfl fun j _ => ?_
  split <;> simp

theorem selectedProducts_add_right (x y y' : Vec w n) :
    selectedProducts sel x (y + y') = selectedProducts sel x y + selectedProducts sel x y' := by
  funext c
  simp only [selectedProducts, Pi.add_apply, ← Finset.sum_add_distrib, mul_add]
  refine Finset.sum_congr rfl fun j _ => ?_
  split <;> simp

end Products

/-- No chunk is cut short. -/
theorem chunkCount_le_iff {aggSize : ℕ} (hpos : 0 < aggSize) :
    chunkCount n aggSize ≤ n / aggSize ↔ aggSize ∣ n := by
  unfold chunkCount
  rw [if_neg hpos.ne', ← Nat.lt_succ_iff, Nat.div_lt_iff_lt_mul hpos, Nat.dvd_iff_mod_eq_zero,
    Nat.succ_mul]
  have hdiv := Nat.div_add_mod' n aggSize
  have hmod := Nat.mod_lt n hpos
  omega

theorem getElem_add (x x' : Vec w n) (i : ℕ) : (x + x').getElem i = x.getElem i + x'.getElem i := by
  unfold getElem
  split
  · rfl
  · simp

section Matrix

variable {m : ℕ} (lhsRows lhsCols rhsRows rhsCols : ℕ)

theorem matrixRightMultiply_add_left (x x' : Vec w n) (y : Vec w m) :
    matrixRightMultiply lhsRows lhsCols rhsRows rhsCols (x + x') y =
      matrixRightMultiply lhsRows lhsCols rhsRows rhsCols x y +
        matrixRightMultiply lhsRows lhsCols rhsRows rhsCols x' y := by
  ext o
  simp only [matrixRightMultiply, Pi.add_apply, getElem_add, add_mul, Finset.sum_add_distrib]

theorem matrixRightMultiply_add_right (x : Vec w n) (y y' : Vec w m) :
    matrixRightMultiply lhsRows lhsCols rhsRows rhsCols x (y + y') =
      matrixRightMultiply lhsRows lhsCols rhsRows rhsCols x y +
        matrixRightMultiply lhsRows lhsCols rhsRows rhsCols x y' := by
  ext o
  simp only [matrixRightMultiply, Pi.add_apply, getElem_add, mul_add, Finset.sum_add_distrib]

end Matrix

/-- A matrix stored by rows. -/
def rowMajor {r c : ℕ} (x : Vec w (r * c)) : Matrix (Fin r) (Fin c) (BitVec w) :=
  Matrix.of fun i j => x (finProdFinEquiv (i, j))

/-- With matching shapes it is the product of the two matrices. -/
theorem rowMajor_matrixRightMultiply {r k c : ℕ} (x : Vec w (r * k)) (y : Vec w (c * k)) :
    rowMajor (matrixRightMultiply r k k c x y) = rowMajor x * (rowMajor y).transpose := by
  funext i j
  rw [Matrix.mul_apply]
  show (∑ l : Fin k, x.getElem ((finProdFinEquiv (i, j)).val / c * k + l) *
    y.getElem ((finProdFinEquiv (i, j)).val % c * k + l)) = _
  refine Finset.sum_congr rfl fun l _ => ?_
  have hc : 0 < c := Fin.pos j
  have hrow : (j.val + c * i.val) / c = i.val := by
    rw [Nat.add_mul_div_left _ _ hc, Nat.div_eq_of_lt j.isLt, Nat.zero_add]
  have hcol : (j.val + c * i.val) % c = j.val := by
    rw [Nat.add_mul_mod_self_left, Nat.mod_eq_of_lt j.isLt]
  have hread : ∀ {a : ℕ} (z : Vec w (a * k)) (b : Fin a),
      z.getElem (b.val * k + l) = rowMajor z b l := by
    intro a z b
    have hlt := (finProdFinEquiv (b, l)).isLt
    have hval : (finProdFinEquiv (b, l)).val = b.val * k + l := by
      rw [finProdFinEquiv_apply_val, Nat.add_comm, Nat.mul_comm]
    rw [getElem, dif_pos (hval ▸ hlt)]
    exact congrArg z (Fin.ext hval.symm)
  rw [finProdFinEquiv_apply_val, hrow, hcol, hread x i, hread y j, Matrix.transpose_apply]

/-- The difference of two bits, squared, is their XOR. -/
theorem sq_sub_bits (s t : BitVec w) :
    ((s &&& 1) - (t &&& 1)) * ((s &&& 1) - (t &&& 1)) = (s ^^^ t) &&& 1 := by
  rw [mask_one_eq, mask_one_eq, mask_one_eq, BitVec.getLsbD_xor]
  cases s.getLsbD 0 <;> cases t.getLsbD 0
  · simp
  · simp only [Bool.false_eq_true, if_false, if_true, Bool.false_bne]
    ring
  · simp
  · simp

end Vec

end CryptDough
