import CryptDough.ElementwisePermutation

/-! Both sorting algorithms attach the position of an element below its value, sort, and read the
permutation off the positions. -/

namespace CryptDough

open StableSort ElementwisePermutation

inductive SortOrder
  | asc | desc
deriving DecidableEq

variable {w n : ℕ}

/-- The width of a padded element: at least 32 bits more than that of the share. -/
def padWidth (w : ℕ) : ℕ := if w = 64 then 128 else 64

/-- The value above and the index in the lowest 32 bits. -/
def padElement (value : BitVec w) (index : BitVec 32) : BitVec (padWidth w) :=
  (value.signExtend (padWidth w) <<< 32) ||| index.setWidth (padWidth w)

/-- The indices are `0`, …, `n - 1`, or `-1`, …, `-n` on the way to a reversed vector. -/
def storedIndex (reverseOrder : Bool) (i : Fin n) : BitVec 32 :=
  if reverseOrder then BitVec.ofInt 32 (-1 - i) else BitVec.ofNat 32 i

def padInput (v : Vec w n) (reverseOrder : Bool) : Vec (padWidth w) n :=
  let padded : Vec (padWidth w) n := fun i => padElement (v i) (storedIndex reverseOrder i)
  if reverseOrder then padded.reverse else padded

/-- The values, and the permutation found in the lowest 32 bits. -/
def removePadding (numParties : ℕ) (padded : Vec (padWidth w) n) (reverseOrder : Bool) :
    Draws (Vec w n × ElementwisePermutation n) := do
  let permutation : ElementwisePermutation n := fun i => (padded i).setWidth 32
  let v : Vec w n := fun i => ((padded i).sshiftRight 32).setWidth w
  let permutation ← b2a numParties permutation
  pure (v, if reverseOrder then negate permutation else permutation)

/-- The share widths that fit under the index. -/
def ShareWidth (w : ℕ) : Prop := w = 8 ∨ w = 16 ∨ w = 32 ∨ w = 64

theorem ShareWidth.padWidth_le (hw : ShareWidth w) : w + 32 ≤ padWidth w := by
  rcases hw with rfl | rfl | rfl | rfl <;> decide

theorem ShareWidth.one_lt (hw : ShareWidth w) : 1 < w := by
  rcases hw with rfl | rfl | rfl | rfl <;> decide

theorem ShareWidth.pos (hw : ShareWidth w) : 0 < w := by
  rcases hw with rfl | rfl | rfl | rfl <;> decide

/-- A padded element is the value followed by the index, with the sign extended. -/
theorem padElement_eq (hw0 : 0 < w) (value : BitVec w)
    (index : BitVec 32) : padElement value index = (value ++ index).signExtend (padWidth w) := by
  apply BitVec.eq_of_getLsbD_eq
  intro i hi
  rw [padElement, BitVec.getLsbD_or, BitVec.getLsbD_shiftLeft, BitVec.getLsbD_signExtend,
    BitVec.getLsbD_setWidth, BitVec.getLsbD_signExtend, BitVec.getLsbD_append, BitVec.msb_append,
    if_neg hw0.ne']
  by_cases hlow : i < 32
  · have hlt : i < w + 32 := by omega
    simp [hi, hlow, hlt]
  · have hindex : index.getLsbD i = false := BitVec.getLsbD_of_ge index i (by omega)
    have hsub : i - 32 < padWidth w := by omega
    have hiff : i - 32 < w ↔ i < w + 32 := by omega
    simp [hi, hlow, hindex, hsub, hiff]

/-- As a signed number a padded element is its value, and below it its index. -/
theorem toInt_padElement (hw0 : 0 < w) (hw : w + 32 ≤ padWidth w) (value : BitVec w)
    (index : BitVec 32) :
    (padElement value index).toInt = 2 ^ 32 * value.toInt + index.toNat := by
  have hne : (w == 0) = false := beq_eq_false_iff_ne.mpr hw0.ne'
  rw [padElement_eq hw0, BitVec.toInt_signExtend_of_le hw, BitVec.toInt_append, hne]
  rfl

theorem getLsbD_padElement (hw0 : 0 < w) (hw : w + 32 ≤ padWidth w) (value : BitVec w)
    (index : BitVec 32) {i : ℕ} (hi : i < w + 32) :
    (padElement value index).getLsbD i =
      if i < 32 then index.getLsbD i else value.getLsbD (i - 32) := by
  have hlt : i < padWidth w := by omega
  rw [padElement_eq hw0, BitVec.getLsbD_signExtend, if_pos hi, BitVec.getLsbD_append]
  simp [hlt]

theorem setWidth_padElement (hw0 : 0 < w) (hw : w + 32 ≤ padWidth w) (value : BitVec w)
    (index : BitVec 32) : (padElement value index).setWidth 32 = index := by
  apply BitVec.eq_of_getLsbD_eq
  intro i hi
  rw [BitVec.getLsbD_setWidth, getLsbD_padElement hw0 hw value index (by omega), if_pos hi]
  simp [hi]

theorem sshiftRight_padElement (hw0 : 0 < w) (hw : w + 32 ≤ padWidth w) (value : BitVec w)
    (index : BitVec 32) : ((padElement value index).sshiftRight 32).setWidth w = value := by
  apply BitVec.eq_of_getLsbD_eq
  intro i hi
  have hge : ¬ padWidth w ≤ i := by omega
  rw [BitVec.getLsbD_setWidth, BitVec.getLsbD_sshiftRight, if_pos (by omega : 32 + i < padWidth w),
    getLsbD_padElement hw0 hw value index (by omega), if_neg (by omega), Nat.add_sub_cancel_left]
  simp [hi, hge]

theorem toNat_storedIndex (hn : n ≤ 2 ^ 31) (reverseOrder : Bool) (i : Fin n) :
    (storedIndex reverseOrder i).toNat = if reverseOrder then 2 ^ 32 - 1 - i.val else i.val := by
  have hi := i.isLt
  cases reverseOrder with
  | false =>
      rw [storedIndex, if_neg Bool.false_ne_true, BitVec.toNat_ofNat, Nat.mod_eq_of_lt (by omega)]
      rfl
  | true =>
      rw [storedIndex, if_pos rfl, BitVec.toNat_ofInt, if_pos rfl]
      omega

/-- The order of the values: `i` comes strictly before `j`. -/
def keyLt (order : SortOrder) (v : Vec w n) (i j : Fin n) : Prop :=
  match order with
  | .asc => (v i).toInt < (v j).toInt
  | .desc => (v j).toInt < (v i).toInt

/-- The vector that is sorted upwards on behalf of `order`. -/
def inOrder (order : SortOrder) (v : Vec w n) : Vec w n :=
  match order with
  | .asc => v
  | .desc => v.reverse

/-- Padded elements are in the order of their values, and those of equal values in the order in
which they stand. -/
theorem toInt_padInput_lt_iff (hn : n ≤ 2 ^ 31) (hw0 : 0 < w) (hw : w + 32 ≤ padWidth w)
    (v : Vec w n) (order : SortOrder) (i j : Fin n) :
    (padInput v (order = .desc) i).toInt < (padInput v (order = .desc) j).toInt ↔
      keyLt .asc (inOrder order v) i j ∨ (¬ keyLt .asc (inOrder order v) j i ∧ i < j) := by
  have hi := i.isLt
  have hj := j.isLt
  cases order with
  | asc =>
      have hpad : ∀ k : Fin n, (padInput v false k).toInt = 2 ^ 32 * (v k).toInt + k.val := by
        intro k
        apply (toInt_padElement hw0 hw _ _).trans
        rw [toNat_storedIndex hn, if_neg Bool.false_ne_true]
      change (padInput v false i).toInt < (padInput v false j).toInt ↔
        (v i).toInt < (v j).toInt ∨ (¬ (v j).toInt < (v i).toInt ∧ i < j)
      rw [hpad, hpad]
      omega
  | desc =>
      have hpad : ∀ k : Fin n, (padInput v true k).toInt =
          2 ^ 32 * (v k.rev).toInt + (2 ^ 32 - 1 - k.rev.val : ℕ) := by
        intro k
        apply (toInt_padElement hw0 hw _ _).trans
        rw [toNat_storedIndex hn, if_pos rfl]
      change (padInput v true i).toInt < (padInput v true j).toInt ↔
        (v i.rev).toInt < (v j.rev).toInt ∨ (¬ (v j.rev).toInt < (v i.rev).toInt ∧ i < j)
      rw [hpad, hpad, Fin.val_rev, Fin.val_rev]
      omega

/-- The steps both algorithms end with: undo the reversal, take the padding off, and invert. -/
def finish (numParties : ℕ) (padded : Vec (padWidth w) n) (reversed : Bool) :
    Draws (Vec w n × ElementwisePermutation n) := do
  let (v, permutation) ← removePadding numParties (if reversed then padded.reverse else padded) reversed
  let permutation ← permutation.invert
  pure (v, permutation)

theorem negate_storedIndex (i : Fin n) :
    storedIndex true i * -1 + -1 = BitVec.ofNat 32 i := by
  have hone : (-1 : BitVec 32) = BitVec.ofInt 32 (-1) := by decide
  rw [storedIndex, if_pos rfl, hone, ← BitVec.ofInt_mul, ← BitVec.ofInt_add, ← BitVec.ofInt_natCast]
  congr 1
  omega

/-- The padding comes off elements in the order of `τ`, with the permutation behind the order. -/
theorem returns_removePadding (hn : n < 2 ^ 31) (hw0 : 0 < w) (hw : w + 32 ≤ padWidth w) (numParties : ℕ)
    (v : Vec w n) (τ : Equiv.Perm (Fin n)) (reverseOrder : Bool) :
    Draws.Returns
      (removePadding numParties (fun k => padElement (v (τ.symm k)) (storedIndex reverseOrder (τ.symm k)))
        reverseOrder)
      (· = (rearrange τ v, ofPerm τ.symm)) := by
  refine (returns_b2a hn numParties _).bind fun p hp => Draws.Returns.pure ?_
  subst hp
  have hindex : ∀ k, (padElement (v (τ.symm k)) (storedIndex reverseOrder (τ.symm k))).setWidth 32 =
      storedIndex reverseOrder (τ.symm k) := fun k => setWidth_padElement hw0 hw _ _
  apply Prod.ext
  · funext k
    exact sshiftRight_padElement hw0 hw _ _
  · cases reverseOrder with
    | false => exact funext hindex
    | true =>
        funext k
        change (padElement _ _).setWidth 32 * -1 + -1 = BitVec.ofNat 32 (τ.symm k)
        rw [hindex, negate_storedIndex]

theorem returns_finish_of (hn : n < 2 ^ 31) (hw0 : 0 < w) (hw : w + 32 ≤ padWidth w) (numParties : ℕ)
    (v : Vec w n) (τ : Equiv.Perm (Fin n)) {reversed : Bool} {padded : Vec (padWidth w) n}
    (hpadded : (if reversed then padded.reverse else padded) =
      fun k => padElement (v (τ.symm k)) (storedIndex reversed (τ.symm k))) :
    Draws.Returns (finish numParties padded reversed) (· = (rearrange τ v, ofPerm τ)) := by
  rw [finish, hpadded]
  refine (returns_removePadding hn hw0 hw numParties v τ reversed).bind fun r hr => ?_
  subst hr
  exact (returns_invert hn τ.symm).bind fun p hp => Draws.Returns.pure (by rw [hp, Equiv.symm_symm])

/-- A stable permutation of the padded elements comes out as the stable permutation of the values. -/
theorem returns_finish (hn : n < 2 ^ 31) (hw0 : 0 < w) (hw : w + 32 ≤ padWidth w) (numParties : ℕ)
    (v : Vec w n) (order : SortOrder) {σ : Equiv.Perm (Fin n)}
    (hσ : StableSorts (keyLt .asc (inOrder order v)) σ) :
    Draws.Returns
      (finish numParties (rearrange σ (padInput v (order = .desc))) (order = .desc))
      fun r => ∃ τ, StableSorts (keyLt order v) τ ∧ r = (rearrange τ v, ofPerm τ) := by
  cases order with
  | asc => exact (returns_finish_of hn hw0 hw numParties v σ rfl).mono fun r hr => ⟨σ, hσ, hr⟩
  | desc =>
      exact (returns_finish_of hn hw0 hw numParties v ((Fin.revPerm.trans σ).trans Fin.revPerm)
        rfl).mono fun r hr => ⟨_, hσ.rev, hr⟩

end CryptDough
