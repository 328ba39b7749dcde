import Mathlib.Order.Fin.Basic
import Mathlib.Order.Hom.Set
import Mathlib.Logic.Equiv.Basic
import Mathlib.Data.Fintype.Card
import Mathlib.Data.Fintype.EquivFin
import Mathlib.Data.Finset.Card

/-! Stable sorting permutations. A permutation `σ` sends the element at `i` to position `σ i`; what it
sorts is a relation between positions, so that several keys and directions can be combined. -/

namespace CryptDough.StableSort

variable {n : ℕ} {α : Type}

/-- The vector in which element `i` of `x` stands at position `σ i`. -/
def rearrange (σ : Equiv.Perm (Fin n)) (x : Fin n → α) : Fin n → α := fun k => x (σ.symm k)

@[simp] theorem rearrange_apply (σ : Equiv.Perm (Fin n)) (x : Fin n → α) (i : Fin n) :
    rearrange σ x (σ i) = x i := by
  simp [rearrange]

theorem rearrange_rearrange (σ τ : Equiv.Perm (Fin n)) (x : Fin n → α) :
    rearrange τ (rearrange σ x) = rearrange (σ.trans τ) x := rfl

@[simp] theorem rearrange_refl (x : Fin n → α) : rearrange (Equiv.refl (Fin n)) x = x := rfl

@[simp] theorem rearrange_symm_rearrange (σ : Equiv.Perm (Fin n)) (x : Fin n → α) :
    rearrange σ.symm (rearrange σ x) = x := by
  rw [rearrange_rearrange, Equiv.self_trans_symm, rearrange_refl]

/-- Smaller elements come first, and elements neither of which is smaller keep their order. -/
def StableSorts (lt : Fin n → Fin n → Prop) (σ : Equiv.Perm (Fin n)) : Prop :=
  ∀ i j, σ i < σ j ↔ lt i j ∨ (¬ lt j i ∧ i < j)

/-- First by `lt₁`, and where that does not decide by `lt₂`. -/
def lexRel (lt₁ lt₂ : Fin n → Fin n → Prop) (i j : Fin n) : Prop :=
  lt₁ i j ∨ (¬ lt₁ j i ∧ lt₂ i j)

theorem StableSorts.congr {lt lt' : Fin n → Fin n → Prop} {σ : Equiv.Perm (Fin n)}
    (hσ : StableSorts lt σ) (heq : ∀ i j, lt' i j ↔ lt i j) : StableSorts lt' σ := by
  intro i j
  rw [hσ i j, heq i j, heq j i]

/-- There is at most one stable sorting permutation. -/
theorem StableSorts.unique {lt : Fin n → Fin n → Prop} {σ τ : Equiv.Perm (Fin n)}
    (hσ : StableSorts lt σ) (hτ : StableSorts lt τ) : σ = τ := by
  have hiff : ∀ i j, σ i < σ j ↔ τ i < τ j := fun i j => (hσ i j).trans (hτ i j).symm
  let e : Fin n ≃o Fin n :=
    { toEquiv := σ.symm.trans τ
      map_rel_iff' := by
        intro a b
        have hab := hiff (σ.symm b) (σ.symm a)
        simp only [Equiv.apply_symm_apply] at hab
        simp only [Equiv.trans_apply, ← not_lt, hab] }
  have hrefl : e = OrderIso.refl (Fin n) := Subsingleton.elim _ _
  apply Equiv.ext
  intro i
  have hi : τ (σ.symm (σ i)) = σ i := by
    show e (σ i) = σ i
    rw [hrefl]
    rfl
  rw [Equiv.symm_apply_apply] at hi
  exact hi.symm

/-- Nothing to compare by: the order stays. -/
theorem stableSorts_refl : StableSorts (fun _ _ : Fin n => False) (Equiv.refl (Fin n)) := by
  intro i j
  simp

/-- Sorting by the less significant key first and then, stably, by the more significant one. -/
theorem StableSorts.trans {lt₁ lt₂ : Fin n → Fin n → Prop} {σ τ : Equiv.Perm (Fin n)}
    (hσ : StableSorts lt₂ σ) (hτ : StableSorts (fun a b => lt₁ (σ.symm a) (σ.symm b)) τ) :
    StableSorts (lexRel lt₁ lt₂) (σ.trans τ) := by
  intro i j
  have hτij := hτ (σ i) (σ j)
  simp only [Equiv.symm_apply_apply] at hτij
  rw [Equiv.trans_apply, Equiv.trans_apply, hτij, hσ i j]
  unfold lexRel
  tauto

/-- Sorting the reversed vector and reversing the result sorts in the other direction, stably. -/
theorem StableSorts.rev {lt : Fin n → Fin n → Prop} {σ : Equiv.Perm (Fin n)}
    (hσ : StableSorts (fun a b => lt a.rev b.rev) σ) :
    StableSorts (fun i j => lt j i) ((Fin.revPerm.trans σ).trans Fin.revPerm) := by
  intro i j
  have hji := hσ j.rev i.rev
  simp only [Fin.rev_rev, Fin.rev_lt_rev] at hji
  simp only [Equiv.trans_apply, Fin.revPerm_apply, Fin.rev_lt_rev]
  exact hji

/-- An injective assignment of destinations is a permutation. -/
theorem exists_perm_of_injective {dest : Fin n → Fin n} (hinj : Function.Injective dest) :
    ∃ σ : Equiv.Perm (Fin n), ∀ i, σ i = dest i :=
  ⟨Equiv.ofBijective dest (Finite.injective_iff_bijective.mp hinj), fun _ => rfl⟩

section Bit

variable (bit : Fin n → Bool)

/-- How many positions up to `i` have the bit `b`. -/
def countUpTo (b : Bool) (i : Fin n) : ℕ := (Finset.univ.filter fun j => j ≤ i ∧ bit j = b).card

/-- How many positions have the bit `b`. -/
def countAll (b : Bool) : ℕ := (Finset.univ.filter fun j => bit j = b).card

theorem countUpTo_pos (i : Fin n) : 0 < countUpTo bit (bit i) i :=
  Finset.card_pos.mpr ⟨i, by simp⟩

theorem countUpTo_le (b : Bool) (i : Fin n) : countUpTo bit b i ≤ countAll bit b :=
  Finset.card_le_card fun j hj => by
    simp only [Finset.mem_filter, Finset.mem_univ, true_and] at hj ⊢
    exact hj.2

theorem countUpTo_lt {i j : Fin n} (hij : i < j) :
    countUpTo bit (bit j) i < countUpTo bit (bit j) j := by
  refine Finset.card_lt_card (Finset.ssubset_iff_of_subset ?_ |>.mpr ⟨j, ?_, ?_⟩)
  · intro k hk
    simp only [Finset.mem_filter, Finset.mem_univ, true_and] at hk ⊢
    exact ⟨hk.1.trans hij.le, hk.2⟩
  · simp
  · simp [hij]

theorem countAll_add : countAll bit false + countAll bit true = n := by
  have hsplit := Finset.card_filter_add_card_filter_not (s := (Finset.univ : Finset (Fin n)))
    (fun j => bit j = false)
  simp only [Bool.not_eq_false, Finset.card_univ, Fintype.card_fin] at hsplit
  exact hsplit

/-- Where a counting pass puts element `i`. -/
def bitDest (i : Fin n) : ℕ :=
  if bit i then countAll bit false + countUpTo bit true i - 1 else countUpTo bit false i - 1

theorem bitDest_lt (i : Fin n) : bitDest bit i < n := by
  have hpos := countUpTo_pos bit i
  have hall := countAll_add bit
  have hle := countUpTo_le bit (bit i) i
  unfold bitDest
  cases hbit : bit i <;> simp only [hbit] at hpos hle <;> simp <;> omega

theorem bitDest_lt_iff (i j : Fin n) :
    bitDest bit i < bitDest bit j ↔
      (bit i = false ∧ bit j = true) ∨ (¬ (bit j = false ∧ bit i = true) ∧ i < j) := by
  have hi := countUpTo_pos bit i
  have hj := countUpTo_pos bit j
  have hilt := countUpTo_le bit (bit i) i
  have hjlt := countUpTo_le bit (bit j) j
  unfold bitDest
  rcases lt_trichotomy i j with hlt | rfl | hgt
  · have hij := countUpTo_lt bit hlt
    cases hbi : bit i <;> cases hbj : bit j <;> simp only [hbi, hbj] at hi hj hilt hjlt hij <;>
      simp [hlt] <;> omega
  · simp
  · have hji := countUpTo_lt bit hgt
    have hnlt : ¬ i < j := hgt.not_gt
    cases hbi : bit i <;> cases hbj : bit j <;> simp only [hbi, hbj] at hi hj hilt hjlt hji <;>
      simp [hnlt] <;> omega

/-- A counting pass on one bit is a stable sort. -/
theorem exists_bitDest_perm :
    ∃ σ : Equiv.Perm (Fin n), (∀ i, (σ i).val = bitDest bit i) ∧
      StableSorts (fun i j => bit i = false ∧ bit j = true) σ := by
  have hinj : Function.Injective fun i => (⟨bitDest bit i, bitDest_lt bit i⟩ : Fin n) := by
    intro i j heq
    have hval : bitDest bit i = bitDest bit j := congrArg Fin.val heq
    have hij := bitDest_lt_iff bit i j
    have hji := bitDest_lt_iff bit j i
    rw [hval] at hij hji
    by_contra hne
    rcases lt_or_gt_of_ne hne with hlt | hgt
    · simp only [hlt, lt_self_iff_false, false_iff] at hij hji
      tauto
    · simp only [hgt, lt_self_iff_false, false_iff] at hij hji
      tauto
  obtain ⟨σ, hσ⟩ := exists_perm_of_injective hinj
  refine ⟨σ, fun i => by rw [hσ i], fun i j => ?_⟩
  rw [hσ i, hσ j]
  exact bitDest_lt_iff bit i j

end Bit

end CryptDough.StableSort
