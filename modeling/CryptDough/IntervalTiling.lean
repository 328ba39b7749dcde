import Mathlib.Data.List.Basic
import Mathlib.Order.Basic
import Mathlib.Order.Lattice
import Mathlib.Tactic.Ring

/-! # Ranges that tile an interval

A list of half-open ranges tiles an interval when each range begins where the one before it ends. An
interval of natural numbers is cut into ranges of one length, the last of which may be shorter. -/

namespace CryptDough

section Tiles

variable {α : Type}

/-- The ranges follow one another from `start` to `stop`. -/
def Tiles [LE α] : α → List (α × α) → α → Prop
  | start, [], stop => start = stop
  | start, r :: rs, stop => r.1 = start ∧ r.1 ≤ r.2 ∧ Tiles r.2 rs stop

section Preorder

variable [Preorder α] {a b c x : α} {rs rs' : List (α × α)}

@[simp] theorem tiles_nil : Tiles a [] b ↔ a = b := Iff.rfl

@[simp] theorem tiles_cons {r : α × α} :
    Tiles a (r :: rs) b ↔ r.1 = a ∧ r.1 ≤ r.2 ∧ Tiles r.2 rs b := Iff.rfl

theorem Tiles.le (h : Tiles a rs b) : a ≤ b := by
  induction rs generalizing a with
  | nil => exact le_of_eq h
  | cons r rs ih =>
      obtain ⟨rfl, hr, hrs⟩ := h
      exact hr.trans (ih hrs)

theorem Tiles.append (h : Tiles a rs b) (h' : Tiles b rs' c) : Tiles a (rs ++ rs') c := by
  induction rs generalizing a with
  | nil =>
      obtain rfl := h
      exact h'
  | cons r rs ih =>
      obtain ⟨hstart, hr, hrs⟩ := h
      exact ⟨hstart, hr, ih hrs⟩

/-- Tilings of the ranges of a tiling are together a tiling. -/
theorem Tiles.flatMap {f : α × α → List (α × α)} (h : Tiles a rs b)
    (hf : ∀ r ∈ rs, Tiles r.1 (f r) r.2) : Tiles a (rs.flatMap f) b := by
  induction rs generalizing a with
  | nil => exact h
  | cons r rs ih =>
      obtain ⟨rfl, hr, hrs⟩ := h
      rw [List.flatMap_cons]
      exact (hf r List.mem_cons_self).append (ih hrs fun r' hr' => hf r' (List.mem_cons_of_mem r hr'))

theorem Tiles.bounds (h : Tiles a rs b) {r : α × α} (hr : r ∈ rs) : a ≤ r.1 ∧ r.1 ≤ r.2 ∧ r.2 ≤ b := by
  induction rs generalizing a with
  | nil => exact absurd hr List.not_mem_nil
  | cons r' rs ih =>
      obtain ⟨rfl, hle, hrs⟩ := h
      rcases List.mem_cons.mp hr with rfl | hmem
      · exact ⟨le_rfl, hle, hrs.le⟩
      · obtain ⟨hstart, hrest⟩ := ih hrs hmem
        exact ⟨hle.trans hstart, hrest⟩

end Preorder

end Tiles

section Slices

/-- The ranges of `b` elements from `i` on. -/
def slices (b stop : ℕ) : (fuel i : ℕ) → List (ℕ × ℕ)
  | 0, _ => []
  | fuel + 1, i => if i < stop then (i, min (i + b) stop) :: slices b stop fuel (i + b) else []

variable {b stop : ℕ}

theorem slices_done {i : ℕ} (hi : stop ≤ i) (fuel : ℕ) : slices b stop fuel i = [] := by
  cases fuel with
  | zero => rfl
  | succ fuel => exact if_neg (not_lt.mpr hi)

/-- They tile what is left of the interval, and all but the last have the length. -/
theorem slices_exact (hb : 0 < b) {fuel i : ℕ} (hi : i ≤ stop) (hfuel : stop - i ≤ fuel) :
    Tiles i (slices b stop fuel i) stop ∧ ∀ r ∈ slices b stop fuel i, r.1 < r.2 ∧
      (∃ k, r.1 = i + k * b) ∧ (r.2 = r.1 + b ∨ r.2 = stop ∧ r.2 ≤ r.1 + b) := by
  induction fuel generalizing i with
  | zero => exact ⟨by simp only [slices, tiles_nil]; omega, fun r hr => absurd hr List.not_mem_nil⟩
  | succ fuel ih =>
      rcases Nat.eq_or_lt_of_le hi with rfl | hlt
      · rw [slices_done le_rfl]
        exact ⟨rfl, fun r hr => absurd hr List.not_mem_nil⟩
      · -- one range, then the rest of the interval
        have hrest : Tiles (min (i + b) stop) (slices b stop fuel (i + b)) stop ∧
            ∀ r ∈ slices b stop fuel (i + b), r.1 < r.2 ∧ (∃ k, r.1 = i + b + k * b) ∧
              (r.2 = r.1 + b ∨ r.2 = stop ∧ r.2 ≤ r.1 + b) := by
          rcases le_total (i + b) stop with hnext | hnext
          · rw [min_eq_left hnext]
            exact ih hnext (by omega)
          · rw [min_eq_right hnext, slices_done hnext]
            exact ⟨rfl, fun r hr => absurd hr List.not_mem_nil⟩
        rw [slices, if_pos hlt]
        refine ⟨⟨rfl, by omega, hrest.1⟩, fun r hr => ?_⟩
        rcases List.mem_cons.mp hr with rfl | hr
        · refine ⟨lt_min (by omega) hlt, ⟨0, by simp⟩, ?_⟩
          rcases le_total (i + b) stop with hnext | hnext
          · exact .inl (min_eq_left hnext)
          · exact .inr ⟨min_eq_right hnext, min_le_left _ _⟩
        · obtain ⟨hne, ⟨k, hk⟩, hend⟩ := hrest.2 r hr
          exact ⟨hne, ⟨k + 1, by rw [hk]; ring⟩, hend⟩

end Slices

/-- The first multiple of `d` from `s` on. -/
def nextMultiple (d s : ℕ) : ℕ :=
  s + if s % d ≠ 0 then d - s % d else 0

section NextMultiple

variable {d s : ℕ}

theorem dvd_nextMultiple (hd : 0 < d) : d ∣ nextMultiple d s := by
  rw [nextMultiple]
  by_cases hrest : s % d = 0
  · rw [if_neg (not_not.mpr hrest), Nat.add_zero]
    exact Nat.dvd_of_mod_eq_zero hrest
  · rw [if_pos hrest]
    have hlt := Nat.mod_lt s hd
    have hsum : s + (d - s % d) = d * (s / d + 1) := by
      have hdiv := Nat.div_add_mod s d
      rw [Nat.mul_add]
      omega
    exact ⟨_, hsum⟩

theorem nextMultiple_pos : 0 < nextMultiple d s ↔ 0 < s := by
  rw [nextMultiple]
  constructor
  · intro h
    rcases Nat.eq_zero_or_pos s with rfl | hs
    · simp at h
    · exact hs
  · omega

theorem le_nextMultiple : s ≤ nextMultiple d s := Nat.le_add_right _ _

theorem nextMultiple_le : nextMultiple d s ≤ s + d := by
  rw [nextMultiple]
  split
  · omega
  · omega

theorem nextMultiple_of_dvd (hdvd : d ∣ s) : nextMultiple d s = s := by
  rw [nextMultiple, if_neg (not_not.mpr (Nat.mod_eq_zero_of_dvd hdvd)), Nat.add_zero]

theorem nextMultiple_lt (hd : 0 < d) : nextMultiple d s < s + d := by
  rw [nextMultiple]
  split
  · omega
  · omega

/-- The first multiple from a number on that is not zero and no larger than `d`. -/
theorem nextMultiple_of_le (hs : 0 < s) (hle : s ≤ d) : nextMultiple d s = d := by
  rcases Nat.eq_or_lt_of_le hle with rfl | hlt
  · exact nextMultiple_of_dvd dvd_rfl
  · rw [nextMultiple, Nat.mod_eq_of_lt hlt, if_pos hs.ne']
    omega

theorem nextMultiple_mul (c : ℕ) : nextMultiple (d * c) (s * c) = nextMultiple d s * c := by
  rcases Nat.eq_zero_or_pos c with rfl | hc
  · simp [nextMultiple]
  · rw [nextMultiple, nextMultiple, Nat.mul_mod_mul_right]
    by_cases hrest : s % d = 0
    · rw [hrest, Nat.zero_mul]
      simp
    · rw [if_pos (Nat.mul_ne_zero hrest hc.ne'), if_pos hrest, ← Nat.sub_mul, ← Nat.add_mul]

theorem nextMultiple_add (hle : d ≤ s) : nextMultiple d s = d + nextMultiple d (s - d) := by
  rw [nextMultiple, nextMultiple, Nat.mod_eq_sub_mod hle]
  omega

end NextMultiple

end CryptDough
