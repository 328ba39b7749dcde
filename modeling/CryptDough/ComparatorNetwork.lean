import Mathlib.Order.Lattice
import Mathlib.Order.BooleanAlgebra.Basic
import Mathlib.Order.MinMax
import Mathlib.Logic.Equiv.Basic

/-! Networks of comparators on sequences. A layer compares pairs of positions at one distance, and moves
the smaller element to the left. Networks commute with monotone maps, so one that sorts the sequences
of booleans sorts the sequences over any linear order. -/

namespace CryptDough

/-- Every position that is a left end is compared with the one at distance `gap` to its right. -/
structure ComparatorLayer where
  gap : ℕ
  left : ℕ → Bool

namespace ComparatorLayer

variable {α β : Type} [LinearOrder α] [LinearOrder β] (L : ComparatorLayer)

def apply (x : ℕ → α) (p : ℕ) : α :=
  if L.left p then min (x p) (x (p + L.gap))
  else if L.gap ≤ p ∧ L.left (p - L.gap) then max (x (p - L.gap)) (x p)
  else x p

/-- No position is in two pairs. -/
structure Proper : Prop where
  gap_pos : 0 < L.gap
  disjoint : ∀ p, L.left p = true → L.left (p + L.gap) = false

/-- Only the pairs within the first `n` positions. -/
def truncate (n : ℕ) : ComparatorLayer where
  gap := L.gap
  left p := L.left p && decide (p + L.gap < n)

/-- The layer that acts alike on all subsequences of stride `a`. -/
def stride (a : ℕ) : ComparatorLayer where
  gap := a * L.gap
  left p := L.left (p / a)

/-- Where the element that moves to position `p` comes from. -/
def exchange (key : ℕ → α) (p : ℕ) : ℕ :=
  if L.left p = true ∧ key (p + L.gap) < key p then p + L.gap
  else if L.gap ≤ p ∧ L.left (p - L.gap) = true ∧ key p < key (p - L.gap) then p - L.gap
  else p

variable {L} {x y : ℕ → α}

theorem apply_left {p : ℕ} (hp : L.left p = true) : L.apply x p = min (x p) (x (p + L.gap)) := by
  rw [apply, if_pos hp]

theorem apply_right (hL : L.Proper) {p : ℕ} (hp : L.left p = true) :
    L.apply x (p + L.gap) = max (x p) (x (p + L.gap)) := by
  rw [apply, hL.disjoint p hp, if_neg Bool.false_ne_true, Nat.add_sub_cancel,
    if_pos ⟨Nat.le_add_left _ _, hp⟩]

theorem apply_other {p : ℕ} (hp : L.left p = false) (hright : L.gap ≤ p → L.left (p - L.gap) = false) :
    L.apply x p = x p := by
  rw [apply, hp, if_neg Bool.false_ne_true, if_neg]
  rintro ⟨hle, hleft⟩
  rw [hright hle] at hleft
  exact Bool.false_ne_true hleft

/-- A position is a left end, a right end, or in no pair. -/
theorem Proper.cases (hL : L.Proper) (p : ℕ) :
    (L.left p = true ∧ (L.gap ≤ p → L.left (p - L.gap) = false)) ∨
      (L.left p = false ∧ ∃ q, p = q + L.gap ∧ L.left q = true) ∨
      (L.left p = false ∧ (L.gap ≤ p → L.left (p - L.gap) = false)) := by
  by_cases hright : L.gap ≤ p ∧ L.left (p - L.gap) = true
  · have hp : p - L.gap + L.gap = p := Nat.sub_add_cancel hright.1
    have hfalse := hL.disjoint _ hright.2
    rw [hp] at hfalse
    exact .inr (.inl ⟨hfalse, p - L.gap, hp.symm, hright.2⟩)
  · have hnot : L.gap ≤ p → L.left (p - L.gap) = false := fun hle =>
      Bool.eq_false_iff.mpr fun hleft => hright ⟨hle, hleft⟩
    cases hleft : L.left p with
    | true => exact .inl ⟨rfl, hnot⟩
    | false => exact .inr (.inr ⟨rfl, hnot⟩)

theorem apply_map {f : α → β} (hf : Monotone f) : L.apply (f ∘ x) = f ∘ L.apply x := by
  ext p
  simp only [apply, Function.comp_apply]
  split
  · exact (hf.map_min).symm
  · split
    · exact (hf.map_max).symm
    · rfl

theorem apply_mono (hxy : ∀ p, x p ≤ y p) (p : ℕ) : L.apply x p ≤ L.apply y p := by
  simp only [apply]
  split
  · exact min_le_min (hxy _) (hxy _)
  · split
    · exact max_le_max (hxy _) (hxy _)
    · exact hxy p

section Truncate

theorem Proper.truncate (hL : L.Proper) (n : ℕ) : (L.truncate n).Proper where
  gap_pos := hL.gap_pos
  disjoint := by
    intro p hp
    simp only [ComparatorLayer.truncate, Bool.and_eq_true] at hp ⊢
    rw [hL.disjoint p hp.1, Bool.false_and]

/-- The rest is in no pair of a truncated layer. -/
theorem truncate_left_of_le (L : ComparatorLayer) {n p : ℕ} (hp : n ≤ p) :
    (L.truncate n).left p = false ∧ (L.gap ≤ p → (L.truncate n).left (p - L.gap) = false) := by
  constructor
  · simp [truncate]
    omega
  · intro hle
    simp [truncate]
    omega

/-- A truncated layer leaves the rest alone. -/
theorem truncate_apply_of_le {n p : ℕ} (hp : n ≤ p) : (L.truncate n).apply x p = x p :=
  apply_other (L.truncate_left_of_le hp).1 (L.truncate_left_of_le hp).2

/-- Nor does it look at it. -/
theorem truncate_apply_congr {n : ℕ} (hxy : ∀ p, p < n → x p = y p) {p : ℕ} (hp : p < n) :
    (L.truncate n).apply x p = (L.truncate n).apply y p := by
  simp only [apply]
  split
  · rename_i hleft
    simp only [truncate, Bool.and_eq_true, decide_eq_true_eq] at hleft ⊢
    rw [hxy p hp, hxy _ hleft.2]
  · split
    · rw [hxy p hp, hxy _ (by omega)]
    · exact hxy p hp

/-- Where a largest element fills the rest, truncation makes no difference. -/
theorem truncate_apply [OrderTop α] (hL : L.Proper) {n : ℕ} (hx : ∀ p, n ≤ p → x p = ⊤) :
    (L.truncate n).apply x = L.apply x := by
  ext p
  rcases hL.cases p with ⟨hleft, hright⟩ | ⟨-, q, rfl, hleft⟩ | ⟨hleft, hright⟩
  · by_cases hn : p + L.gap < n
    · have htrunc : (L.truncate n).left p = true := by simp [truncate, hleft, hn]
      rw [apply_left htrunc, apply_left hleft]
      rfl
    · rw [apply_left hleft, hx _ (not_lt.mp hn), min_top_right]
      refine apply_other (by simp [truncate, hn]) fun hle => ?_
      simp [truncate, hright hle]
  · by_cases hn : q + L.gap < n
    · have htrunc : (L.truncate n).left q = true := by simp [truncate, hleft, hn]
      rw [apply_right hL hleft]
      exact apply_right (hL.truncate n) htrunc
    · rw [apply_right hL hleft, truncate_apply_of_le (not_lt.mp hn), hx _ (not_lt.mp hn), max_top_right]
  · rw [apply_other hleft hright]
    refine apply_other (by simp [truncate, hleft]) fun hle => ?_
    simp [truncate, hright hle]

/-- A layer whose pairs do not leave the first `n` positions does not lose any of them. -/
theorem truncate_apply_of_closed {n : ℕ} (hclosed : ∀ p, p < n → L.left p = true → p + L.gap < n) {p : ℕ}
    (hp : p < n) : (L.truncate n).apply x p = L.apply x p := by
  have hleft : ∀ q, q < n → (L.truncate n).left q = L.left q := by
    intro q hq
    cases hl : L.left q with
    | false => simp [truncate, hl]
    | true => simp [truncate, hl, hclosed q hq hl]
  have hgap : (L.truncate n).gap = L.gap := rfl
  rw [apply, apply, hgap, hleft p hp, hleft (p - L.gap) (by omega)]

end Truncate

section Stride

theorem Proper.stride (hL : L.Proper) {a : ℕ} (ha : 0 < a) : (L.stride a).Proper where
  gap_pos := Nat.mul_pos ha hL.gap_pos
  disjoint := by
    intro p hp
    change L.left ((p + a * L.gap) / a) = false
    rw [Nat.add_mul_div_left _ _ ha]
    exact hL.disjoint _ hp

theorem stride_stride (a b : ℕ) : (L.stride a).stride b = L.stride (b * a) := by
  simp only [stride, Nat.div_div_eq_div_mul, Nat.mul_assoc]

/-- Every `a`-th element, from `r` on. -/
def subsequence (a r : ℕ) (x : ℕ → α) : ℕ → α := fun j => x (r + a * j)

theorem subsequence_stride {a r : ℕ} (hr : r < a) :
    subsequence a r ((L.stride a).apply x) = L.apply (subsequence a r x) := by
  ext j
  have hpos : 0 < a := by omega
  have hdiv : (r + a * j) / a = j := by
    rw [Nat.add_mul_div_left _ _ hpos, Nat.div_eq_of_lt hr, Nat.zero_add]
  have hle : a * L.gap ≤ r + a * j ↔ L.gap ≤ j := by
    constructor
    · intro hgap
      have hquot := Nat.div_le_div_right (c := a) hgap
      rwa [Nat.mul_div_cancel_left _ hpos, hdiv] at hquot
    · intro hgap
      exact (Nat.mul_le_mul_left a hgap).trans (Nat.le_add_left _ _)
  have hadd : r + a * j + a * L.gap = r + a * (j + L.gap) := by rw [Nat.mul_add, Nat.add_assoc]
  simp only [subsequence, apply, stride, hdiv, hle, hadd]
  by_cases hgap : L.gap ≤ j
  · have hsub : r + a * j - a * L.gap = r + a * (j - L.gap) := by
      rw [Nat.mul_sub, Nat.add_sub_assoc (Nat.mul_le_mul_left a hgap)]
    have hdiv' : (r + a * (j - L.gap)) / a = j - L.gap := by
      rw [Nat.add_mul_div_left _ _ hpos, Nat.div_eq_of_lt hr, Nat.zero_add]
    rw [hsub, hdiv']
  · simp only [hgap, false_and, if_false]

end Stride

section Exchange

theorem exchange_left {key : ℕ → α} {p : ℕ} (hp : L.left p = true)
    (hright : L.gap ≤ p → L.left (p - L.gap) = false) :
    L.exchange key p = if key (p + L.gap) < key p then p + L.gap else p := by
  by_cases hlt : key (p + L.gap) < key p
  · rw [exchange, if_pos ⟨hp, hlt⟩, if_pos hlt]
  · rw [exchange, if_neg fun h => hlt h.2, if_neg hlt, if_neg]
    rintro ⟨hle, hleft, -⟩
    rw [hright hle] at hleft
    exact Bool.false_ne_true hleft

theorem exchange_right (hL : L.Proper) {key : ℕ → α} {p : ℕ} (hp : L.left p = true) :
    L.exchange key (p + L.gap) = if key (p + L.gap) < key p then p else p + L.gap := by
  rw [exchange, hL.disjoint p hp, if_neg (by simp), Nat.add_sub_cancel]
  simp only [Nat.le_add_left, hp, true_and]

theorem exchange_other {key : ℕ → α} {p : ℕ} (hp : L.left p = false)
    (hright : L.gap ≤ p → L.left (p - L.gap) = false) : L.exchange key p = p := by
  rw [exchange, hp, if_neg (by simp), if_neg]
  rintro ⟨hle, hleft, -⟩
  rw [hright hle] at hleft
  exact Bool.false_ne_true hleft

theorem exchange_involutive (hL : L.Proper) (key : ℕ → α) : Function.Involutive (L.exchange key) := by
  have hswap : ∀ q, L.left q = true → L.exchange key (L.exchange key q) = q ∧
      L.exchange key (L.exchange key (q + L.gap)) = q + L.gap := by
    intro q hq
    have hnot : L.gap ≤ q → L.left (q - L.gap) = false := by
      intro hle
      by_contra hleft
      have hfalse := hL.disjoint (q - L.gap) (Bool.eq_true_of_not_eq_false hleft)
      rw [Nat.sub_add_cancel hle, hq] at hfalse
      exact Bool.false_ne_true hfalse.symm
    have hleft := @exchange_left α _ L key q hq hnot
    have hright := @exchange_right α _ L hL key q hq
    by_cases hlt : key (q + L.gap) < key q
    · rw [if_pos hlt] at hleft hright
      exact ⟨by rw [hleft, hright], by rw [hright, hleft]⟩
    · rw [if_neg hlt] at hleft hright
      exact ⟨by rw [hleft, hleft], by rw [hright, hright]⟩
  intro p
  rcases hL.cases p with ⟨hp, -⟩ | ⟨-, q, rfl, hq⟩ | ⟨hp, hnot⟩
  · exact (hswap p hp).1
  · exact (hswap q hq).2
  · rw [exchange_other hp hnot, exchange_other hp hnot]

/-- The exchanges of a layer as a permutation. -/
def exchangePerm (hL : L.Proper) (key : ℕ → α) : Equiv.Perm ℕ :=
  (exchange_involutive hL key).toPerm

/-- The layer does to the keys what the exchanges do. -/
theorem apply_eq_comp_exchange (hL : L.Proper) (key : ℕ → α) :
    L.apply key = key ∘ L.exchange key := by
  ext p
  rw [Function.comp_apply]
  rcases hL.cases p with ⟨hleft, hright⟩ | ⟨-, q, rfl, hq⟩ | ⟨hleft, hright⟩
  · rw [apply_left hleft, exchange_left hleft hright]
    split
    · rename_i hlt
      exact min_eq_right hlt.le
    · rename_i hle
      exact min_eq_left (not_lt.mp hle)
  · rw [apply_right hL hq, exchange_right hL hq]
    split
    · rename_i hlt
      exact max_eq_left hlt.le
    · rename_i hle
      exact max_eq_right (not_lt.mp hle)
  · rw [apply_other hleft hright, exchange_other hleft hright]

/-- Positions out of all pairs stay. -/
theorem exchange_truncate_of_le {n p : ℕ} (key : ℕ → α) (hp : n ≤ p) :
    (L.truncate n).exchange key p = p :=
  exchange_other (L.truncate_left_of_le hp).1 (L.truncate_left_of_le hp).2

end Exchange

end ComparatorLayer

namespace ComparatorNetwork

variable {α β : Type} [LinearOrder α] [LinearOrder β] {layers : List ComparatorLayer} {x : ℕ → α}

def run (layers : List ComparatorLayer) (x : ℕ → α) : ℕ → α := layers.foldl (fun x L => L.apply x) x

theorem run_map (layers : List ComparatorLayer) {f : α → β} (hf : Monotone f) (x : ℕ → α) :
    run layers (f ∘ x) = f ∘ run layers x := by
  induction layers generalizing x with
  | nil => rfl
  | cons L layers ih =>
      change run layers (L.apply (f ∘ x)) = f ∘ run layers (L.apply x)
      rw [ComparatorLayer.apply_map hf, ih]

theorem run_append (layers layers' : List ComparatorLayer) (x : ℕ → α) :
    run (layers ++ layers') x = run layers' (run layers x) := List.foldl_append

theorem run_truncate [OrderTop α] (hproper : ∀ L ∈ layers, L.Proper) {n : ℕ}
    (hx : ∀ p, n ≤ p → x p = ⊤) :
    run (layers.map fun L => L.truncate n) x = run layers x ∧
      ∀ p, n ≤ p → run layers x p = ⊤ := by
  induction layers generalizing x with
  | nil => exact ⟨rfl, hx⟩
  | cons L layers ih =>
      have hL := L.truncate_apply (hproper L List.mem_cons_self) hx
      have hx' : ∀ p, n ≤ p → L.apply x p = ⊤ := by
        intro p hp
        rw [← hL, ComparatorLayer.truncate_apply_of_le hp, hx p hp]
      obtain ⟨hrun, htop⟩ := ih (fun L' hL' => hproper L' (List.mem_cons_of_mem L hL')) hx'
      refine ⟨?_, htop⟩
      change run (layers.map fun L => L.truncate n) ((L.truncate n).apply x) = run layers (L.apply x)
      rw [hL, hrun]

theorem run_truncate_congr {y : ℕ → α} {n : ℕ} (hxy : ∀ p, p < n → x p = y p) {p : ℕ} (hp : p < n) :
    run (layers.map fun L => L.truncate n) x p = run (layers.map fun L => L.truncate n) y p := by
  induction layers generalizing x y with
  | nil => exact hxy p hp
  | cons L layers ih => exact ih fun q hq => ComparatorLayer.truncate_apply_congr hxy hq

theorem run_truncate_of_closed {n : ℕ}
    (hclosed : ∀ L ∈ layers, ∀ p, p < n → L.left p = true → p + L.gap < n) {p : ℕ} (hp : p < n) :
    run (layers.map fun L => L.truncate n) x p = run layers x p := by
  induction layers generalizing x with
  | nil => rfl
  | cons L layers ih =>
      have hL := hclosed L List.mem_cons_self
      have hrest := ih (x := L.apply x) fun L' hL' => hclosed L' (List.mem_cons_of_mem L hL')
      change run _ ((L.truncate n).apply x) p = run layers (L.apply x) p
      rw [← hrest]
      exact run_truncate_congr (fun q hq => ComparatorLayer.truncate_apply_of_closed hL hq) hp

theorem run_stride {a r : ℕ} (hr : r < a) (x : ℕ → α) :
    ComparatorLayer.subsequence a r (run (layers.map fun L => L.stride a) x) =
      run layers (ComparatorLayer.subsequence a r x) := by
  induction layers generalizing x with
  | nil => rfl
  | cons L layers ih =>
      change ComparatorLayer.subsequence a r (run _ ((L.stride a).apply x)) = run layers (L.apply _)
      rw [ih, ComparatorLayer.subsequence_stride hr]

theorem run_mono {y : ℕ → α} (hxy : ∀ p, x p ≤ y p) (p : ℕ) : run layers x p ≤ run layers y p := by
  induction layers generalizing x y with
  | nil => exact hxy p
  | cons L layers ih => exact ih (ComparatorLayer.apply_mono hxy)

/-- The first `n` elements come out in order. -/
def Sorts (α : Type) [LinearOrder α] (n : ℕ) (layers : List ComparatorLayer) : Prop :=
  ∀ (x : ℕ → α) (i j : ℕ), i ≤ j → j < n → run layers x i ≤ run layers x j

/-- Two elements in the wrong order are told apart by a threshold. -/
theorem run_le_of_bool {i j : ℕ}
    (hbool : ∀ f : α → Bool, Monotone f → run layers (f ∘ x) i ≤ run layers (f ∘ x) j) :
    run layers x i ≤ run layers x j := by
  by_contra hgt
  let threshold : α → Bool := fun a => decide (run layers x j < a)
  have hmono : Monotone threshold := by
    intro a b hab
    simp only [threshold, Bool.le_iff_imp, decide_eq_true_eq]
    exact fun ha => ha.trans_le hab
  have hle := hbool threshold hmono
  rw [run_map layers hmono, Function.comp_apply, Function.comp_apply, Bool.le_iff_imp] at hle
  have hbad := hle (decide_eq_true (not_le.mp hgt))
  exact lt_irrefl _ (of_decide_eq_true hbad)

/-- The 0-1 principle. -/
theorem Sorts.of_bool {n : ℕ} (hbool : Sorts Bool n layers) : Sorts α n layers :=
  fun x i j hij hj => run_le_of_bool fun f _ => hbool (f ∘ x) i j hij hj

end ComparatorNetwork

end CryptDough
