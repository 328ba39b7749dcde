import Mathlib.Data.Fintype.BigOperators
import Mathlib.Data.Fintype.Perm
import Mathlib.Data.Nat.Factorial.BigOperators
import Mathlib.GroupTheory.Perm.Basic
import Mathlib.Data.List.FinRange

/-! Permutations as products of swaps, one for each position with a position not before it. -/

namespace FisherYates

open Equiv

variable {n : ℕ}

/-- One draw for each position: how far behind it the other position is. -/
abbrev Offsets (n : ℕ) := ∀ i : Fin n, Fin (n - i)

def location (draws : Offsets n) (i : Fin n) : Fin n := ⟨i + draws i, by have := (draws i).isLt; omega⟩

/-- The swaps at the positions of a list, the first one outermost. -/
def swaps (draws : Offsets n) (l : List (Fin n)) : Perm (Fin n) :=
  (l.map fun i => swap i (location draws i)).prod

def shuffle (draws : Offsets n) : Perm (Fin n) := swaps draws (List.finRange n)

theorem swaps_cons (draws : Offsets n) (i : Fin n) (l : List (Fin n)) :
    swaps draws (i :: l) = swap i (location draws i) * swaps draws l := by
  rw [swaps, List.map_cons, List.prod_cons]
  rfl

theorem swaps_congr {draws draws' : Offsets n} {l : List (Fin n)}
    (hdraws : ∀ i ∈ l, draws i = draws' i) :
    swaps draws l = swaps draws' l := by
  rw [swaps, swaps, List.map_congr_left]
  intro i hi
  have hloc : location draws i = location draws' i :=
    Fin.ext (congrArg (fun draw : Fin (n - i) => i.val + draw) (hdraws i hi))
  rw [hloc]

/-- Swaps at later positions leave a position alone. -/
theorem swaps_of_lt (draws : Offsets n) {i : Fin n} {l : List (Fin n)} (hlater : ∀ j ∈ l, i < j) :
    swaps draws l i = i := by
  induction l with
  | nil => rfl
  | cons j l ih =>
      have hj : i < j := hlater j List.mem_cons_self
      have hloc : i < location draws j := lt_of_lt_of_le hj (Nat.le_add_right _ _)
      rw [swaps_cons, Perm.mul_apply, ih fun j' hj' => hlater j' (List.mem_cons_of_mem j hj')]
      exact swap_apply_of_ne_of_ne hj.ne hloc.ne

/-- The outermost swap is read off at its position, and the others once it is undone. -/
theorem draws_eq_of_swaps_eq {draws draws' : Offsets n} {l : List (Fin n)}
    (hsorted : l.Pairwise (· < ·))
    (heq : swaps draws l = swaps draws' l) : ∀ i ∈ l, draws i = draws' i := by
  induction l with
  | nil => exact fun i hi => absurd hi List.not_mem_nil
  | cons i l ih =>
      obtain ⟨hlater, hsorted'⟩ := List.pairwise_cons.mp hsorted
      rw [swaps_cons, swaps_cons] at heq
      have hi := Perm.congr_fun heq i
      rw [Perm.mul_apply, Perm.mul_apply, swaps_of_lt draws hlater, swaps_of_lt draws' hlater,
        swap_apply_left, swap_apply_left] at hi
      have hdraw : draws i = draws' i := by
        have hval : i.val + draws i = i + draws' i := congrArg Fin.val hi
        exact Fin.ext (by omega)
      rw [hi] at heq
      have hrest := ih hsorted' (mul_left_cancel heq)
      intro j hj
      rcases List.mem_cons.mp hj with rfl | hmem
      · exact hdraw
      · exact hrest j hmem

theorem shuffle_injective : Function.Injective (shuffle (n := n)) := by
  intro draws draws' heq
  funext i
  exact draws_eq_of_swaps_eq (List.pairwise_lt_finRange n) heq i (List.mem_finRange i)

theorem card_offsets : Fintype.card (Offsets n) = n.factorial := by
  rw [Fintype.card_pi]
  simp only [Fintype.card_fin]
  rw [Fin.prod_univ_eq_prod_range fun i => n - i, ← Nat.descFactorial_eq_prod_range,
    Nat.descFactorial_self]

/-- The sequences of draws are as many as the permutations. -/
theorem shuffle_bijective : Function.Bijective (shuffle (n := n)) := by
  refine (Fintype.bijective_iff_injective_and_card _).mpr ⟨shuffle_injective, ?_⟩
  rw [card_offsets, Fintype.card_perm, Fintype.card_fin]

end FisherYates
