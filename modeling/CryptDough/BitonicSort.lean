import CryptDough.BitonicNetwork
import CryptDough.PairwiseSort

/-! Bitonic sorting of the columns of a table. Instead of changing the direction of comparisons, the
code writes one of the two views back in the opposite order, in every column. -/

namespace CryptDough

open StableSort Opened PrefixNetwork

variable {wK w : ℕ}

/-- `std::reverse` of the entries that a view shows. -/
def View.reversed {β : Type} (v : View) (x : ℕ → β) : ℕ → β := assignView x v (v.map x).reverse

/-- The view is reversed in all columns. -/
def SortVectors.reversed (v : View) (t : SortVectors wK w) : SortVectors wK w where
  keys := t.keys.map v.reversed
  dataA := t.dataA.map v.reversed
  dataB := t.dataB.map v.reversed

namespace BitonicSort

/-- The two views of a step. A spacing of zero would be divided by. -/
def views (n spacing : BitVec 64) : Option (View × View) := do
  guard (0 < spacing.toNat)
  let column : View := List.range n.toNat
  let x ← column.alternatingSubsetReference spacing.toNat spacing.toNat
  let y ← column.sliceFrom spacing
  let y ← y.alternatingSubsetReference spacing.toNat spacing.toNat
  pure (x, y)

/-- `compare_rows` takes the size of its arguments for an `int`. -/
def compareSwap (order : List SortOrder) (x y : View) (t : SortVectors wK w) :
    Option (SortVectors wK w) := do
  guard (x.length < 2 ^ 31)
  PairwiseSort.compareSwap order x y t

/-- The body of the loops over `i` and `j`. -/
def step (n : BitVec 64) (order : List SortOrder) (i : ℕ) (t : SortVectors wK w) (j : ℕ) :
    Option (SortVectors wK w) := do
  let spacing ← gapOf ((i : ℤ) - j)
  let (x, y) ← views n spacing
  compareSwap order x y (if j = 0 then t.reversed y else t)

def round (n : BitVec 64) (order : List SortOrder) (t : SortVectors wK w) (i : ℕ) :
    Option (SortVectors wK w) :=
  (List.range (i + 1)).foldlM (step n order i) t

/-- `bitonic_sort` with its assertions. -/
def bitonicSort (n : BitVec 64) (order : List SortOrder) (t : SortVectors wK w) :
    Option (SortVectors wK w) := do
  guard (0 < t.keys.length)
  let accepted ← PrefixNetwork.isPowerOfTwo n
  guard accepted
  (List.range (Nat.log2 n.toNat)).foldlM (round n order) t

end BitonicSort

section Views

open BitonicNetwork

/-- The round that compares chunks of the size `s`. -/
def chunks (s : ℕ) : PairwiseRound where
  startLeft := 0
  startRight := s
  step := s

theorem layer_chunks (s : ℕ) : Pairwise.layer (chunks s) = cleaner s := Pairwise.layer_first s

variable {m s : ℕ}

/-- The left ends of the pairs among `m` pairs of chunks. -/
def leftEnds (m s : ℕ) : List ℕ := (List.range (m * s)).map (alternating s)

theorem alternatingSize {Q : ℕ} (hs : 0 < s) (hQ : Q = m * (s + s) ∨ Q + s = m * (s + s)) :
    Q / (s + s) * s + min s (Q % (s + s)) = m * s := by
  rcases hQ with rfl | hQ
  · rw [Nat.mul_div_cancel _ (by omega), Nat.mul_mod_left, Nat.min_zero, Nat.add_zero]
  · cases m with
    | zero => omega
    | succ m =>
        have hsplit : Q = s + (s + s) * m := by
          have hsucc : (m + 1) * (s + s) = (s + s) * m + (s + s) := by ring
          omega
        rw [hsplit, Nat.add_mul_div_left _ _ (by omega), Nat.add_mul_mod_self_left,
          Nat.div_eq_of_lt (by omega : s < s + s), Nat.mod_eq_of_lt (by omega : s < s + s), Nat.min_self]
        ring

theorem shown_leftEnds (hs : 0 < s) : Shown (m * (s + s)) (chunks s) (leftEnds m s) where
  nodup := (List.nodup_map_iff (alternating_injective hs)).mpr List.nodup_range
  mem_iff := by
    intro p
    rw [leftEnds, List.mem_map, Pairwise.truncate_left_iff]
    have hends := exists_alternating_iff hs (m * (s + s)) p
    rw [alternatingSize hs (.inl rfl)] at hends
    simp only [List.mem_range, hends, chunks, Nat.zero_le, true_and, Nat.sub_zero]
    constructor
    · exact fun h => ⟨h.2, add_lt_of_even hs h.1 h.2⟩
    · rintro ⟨heven, hp⟩
      exact ⟨by omega, heven⟩

theorem BitonicSort.views_eq {n spacing : BitVec 64} (hs : 0 < s) (hm : 0 < m)
    (hn : n.toNat = m * (s + s))
    (hspacing : spacing.toNat = s) :
    views n spacing = some (leftEnds m s, (leftEnds m s).map fun p => p + s) := by
  have hlt := n.isLt
  have hle : s + s ≤ m * (s + s) := Nat.le_mul_of_pos_left _ hm
  have hlen : (BitVec.ofNat 64 n.toNat - spacing).toNat = n.toNat - s := by
    rw [BitVec.ofNat_toNat, BitVec.setWidth_eq, BitVec.toNat_sub_of_le (by rw [BitVec.le_def]; omega),
      hspacing]
  have hy := @View.slice_eq n.toNat id _ _ _ _ hspacing hlen (by omega) hlt
  have hfrom : View.sliceFrom (List.range n.toNat) spacing =
      some ((List.range (n.toNat - s)).map fun i => id (s + i)) := by
    rw [View.sliceFrom, List.length_range, ← hy, List.map_id]
  have hx := View.alternatingSubsetReference_map hs n.toNat id
  rw [List.map_id, alternatingSize hs (.inl hn)] at hx
  have hy' := View.alternatingSubsetReference_map hs (n.toNat - s) fun i => id (s + i)
  rw [alternatingSize hs (.inr (by omega : n.toNat - s + s = m * (s + s)))] at hy'
  simp only [views, hspacing, hfrom, guard, if_pos hs, Option.pure_def, Option.bind_eq_bind,
    Option.bind_some, hx,
    hy', leftEnds, List.map_map]
  have hcomm : ∀ i, s + alternating s i = alternating s i + s := fun i => Nat.add_comm _ _
  simp only [id_eq, hcomm, Function.comp_def]

theorem mirror_alternating {i : ℕ} (hi : i < m * s) :
    mirror (m * (s + s)) s (alternating s i + s) = alternating s (m * s - 1 - i) + s := by
  have hs : 0 < s := Nat.pos_of_mul_pos_left (by omega : 0 < m * s)
  have hq : i / s < m := Nat.div_lt_of_lt_mul (by rwa [Nat.mul_comm])
  have hr := Nat.mod_lt i hs
  have hsplit := Nat.div_add_mod' i s
  obtain ⟨rest, hrest⟩ := Nat.exists_eq_add_of_lt hq
  have hprod : m * s = i / s * s + rest * s + s := by
    rw [hrest]
    ring
  have hother : m * s - 1 - i = s - 1 - i % s + s * rest := by
    rw [Nat.mul_comm s]
    omega
  have hdiv : (m * s - 1 - i) / s = rest ∧ (m * s - 1 - i) % s = s - 1 - i % s := by
    rw [hother, Nat.add_mul_div_left _ _ hs, Nat.add_mul_mod_self_left, Nat.div_eq_of_lt (by omega),
      Nat.mod_eq_of_lt (by omega), Nat.zero_add]
    exact ⟨rfl, rfl⟩
  have hpos : alternating s i + s = i / s * (s + s) + (s + i % s) := by
    rw [alternating]
    omega
  have hindex : m - 1 - i / s = rest := by omega
  rw [hpos, mirror_odd hr hq, alternating, hdiv.1, hdiv.2, hindex]
  ring

/-- The second view shows the odd chunks. -/
theorem exists_of_odd {p : ℕ} (hs : 0 < s) (hp : p < m * (s + s)) (hodd : p / s % 2 = 1) :
    ∃ i, i < m * s ∧ alternating s i + s = p := by
  have hle : s ≤ p := by
    by_contra hlow
    rw [Nat.div_eq_of_lt (not_le.mp hlow)] at hodd
    omega
  have hdiv : (p - s) / s = p / s - 1 := by
    have hsub := Nat.sub_mul_div p s 1
    rwa [Nat.mul_one] at hsub
  have hends := (exists_alternating_iff hs (m * (s + s) - s) (p - s)).mpr ⟨by omega, by omega⟩
  rw [alternatingSize hs (.inr (by omega : m * (s + s) - s + s = m * (s + s)))] at hends
  obtain ⟨i, hi, heq⟩ := hends
  exact ⟨i, hi, by omega⟩

/-- Reversing the second view mirrors the odd chunks. -/
theorem View.reversed_leftEnds {β : Type} (hs : 0 < s) (x : ℕ → β) :
    View.reversed ((leftEnds m s).map fun p => p + s) x = x ∘ mirror (m * (s + s)) s := by
  let pos : ℕ → ℕ := fun i => alternating s i + s
  have hview : ((leftEnds m s).map fun p => p + s) = (List.range (m * s)).map pos := by
    rw [leftEnds, List.map_map]
    rfl
  have hreverse : (((List.range (m * s)).map pos).map x).reverse =
      (List.range (m * s)).map fun i => x (pos (m * s - 1 - i)) := by
    rw [List.map_map, ← List.map_reverse, List.range_eq_range', List.reverse_range', List.map_map,
      ← List.range_eq_range']
    simp only [Nat.zero_add]
    rfl
  have hnodup : ((List.range (m * s)).map pos).Nodup :=
    (List.nodup_map_iff fun i j heq => alternating_injective hs (Nat.add_right_cancel heq)).mpr
      List.nodup_range
  rw [View.reversed, hview, hreverse]
  ext p
  rw [Function.comp_apply]
  by_cases hp : p ∈ (List.range (m * s)).map pos
  · obtain ⟨i, hi, rfl⟩ := List.mem_map.mp hp
    rw [assignView_of_mem x _ hnodup hi, mirror_alternating (List.mem_range.mp hi)]
  · rw [assignView_of_notMem x _ hp, mirror, if_neg]
    rintro ⟨hlt, hodd⟩
    obtain ⟨i, hi, hpos⟩ := exists_of_odd hs hlt hodd
    exact hp (List.mem_map.mpr ⟨i, List.mem_range.mpr hi, hpos⟩)

theorem SortVectors.reversed_leftEnds (hs : 0 < s) (t : SortVectors wK w) :
    t.reversed ((leftEnds m s).map fun p => p + s) = t.permuted (mirror (m * (s + s)) s) := by
  rw [SortVectors.reversed, SortVectors.permuted]
  congr 1
  · exact List.map_congr_left fun col _ => View.reversed_leftEnds hs col
  · exact List.map_congr_left fun col _ => View.reversed_leftEnds hs col
  · exact List.map_congr_left fun col _ => View.reversed_leftEnds hs col

end Views

section Run

open BitonicNetwork ComparatorNetwork

/-- The columns of `t'` are those of `t` under one permutation of the first `n` rows. -/
def Rearranged (n : ℕ) (t t' : SortVectors wK w) : Prop :=
  ∃ σ : Equiv.Perm ℕ, (∀ p, n ≤ p → σ p = p) ∧ t' = t.permuted σ

theorem Rearranged.refl (n : ℕ) (t : SortVectors wK w) : Rearranged n t t :=
  ⟨Equiv.refl ℕ, fun _ _ => rfl, (t.permuted_id).symm⟩

theorem Rearranged.trans {n : ℕ} {t t' t'' : SortVectors wK w} (hfirst : Rearranged n t t')
    (hsecond : Rearranged n t' t'') : Rearranged n t t'' := by
  obtain ⟨σ, hσ, rfl⟩ := hfirst
  obtain ⟨τ, hτ, rfl⟩ := hsecond
  refine ⟨τ.trans σ, fun p hp => ?_, t.permuted_permuted σ τ⟩
  rw [Equiv.trans_apply, hτ p hp, hσ p hp]

theorem Rearranged.keys_ne {n : ℕ} {t t' : SortVectors wK w} (h : Rearranged n t t')
    (hkeys : t.keys ≠ []) :
    t'.keys ≠ [] := by
  obtain ⟨σ, -, rfl⟩ := h
  exact List.map_eq_nil_iff.not.mpr hkeys

theorem mirror_involutive {m s : ℕ} (hs : 0 < s) : Function.Involutive (mirror (m * (s + s)) s) := by
  intro p
  by_cases hp : p < m * (s + s) ∧ p / s % 2 = 1
  · obtain ⟨i, hi, rfl⟩ := exists_of_odd hs hp.1 hp.2
    rw [mirror_alternating hi, mirror_alternating (by omega),
      (by omega : m * s - 1 - (m * s - 1 - i) = i)]
  · have hfix : mirror (m * (s + s)) s p = p := if_neg hp
    rw [hfix, hfix]

theorem rearranged_mirror {m s : ℕ} (hs : 0 < s) (t : SortVectors wK w) :
    Rearranged (m * (s + s)) t (t.permuted (mirror (m * (s + s)) s)) :=
  ⟨(mirror_involutive hs).toPerm, fun _ hp => if_neg fun h => absurd h.1 (not_lt.mpr hp), rfl⟩

variable {n : BitVec 64} {order : List SortOrder} {t : SortVectors wK w}

namespace BitonicSort

/-- What a pair of views is good for: to mirror the odd chunks, and to clean. -/
structure Cleans (k a : ℕ) (order : List SortOrder) (x y : View) : Prop where
  reversed : ∀ t : SortVectors wK w, t.reversed y = t.permuted (mirror (2 ^ k) (2 ^ a))
  swapped : ∀ t : SortVectors wK w, t.keys ≠ [] → ∃ t', compareSwap order x y t = some t' ∧
    Rearranged (2 ^ k) t t' ∧ t'.rowKeys order = ((cleaner (2 ^ a)).truncate (2 ^ k)).apply (t.rowKeys order)

theorem spacing_toNat {a : ℕ} (ha : a ≤ 30) : (BitVec.ofNat 64 (2 ^ a)).toNat = 2 ^ a := by
  have hlt : 2 ^ a < 2 ^ 64 := Nat.pow_lt_pow_right (by decide) (by omega)
  rw [BitVec.toNat_ofNat, Nat.mod_eq_of_lt hlt]

theorem exists_views (hwK : 0 < wK) (hw : 0 < w) (horder : order ≠ []) {k a : ℕ} (hak : a < k)
    (hk : k ≤ 30)
    (hn : n.toNat = 2 ^ k) {spacing : BitVec 64} (hspacing : spacing.toNat = 2 ^ a) :
    ∃ x y, views n spacing = some (x, y) ∧ @Cleans wK w k a order x y := by
  have hs := Nat.two_pow_pos a
  have hm := Nat.two_pow_pos (k - a - 1)
  have hsplit := two_pow_split hak
  refine ⟨_, _, views_eq hs hm (hn.trans hsplit) hspacing, ⟨fun t => ?_, fun t hkeys => ?_⟩⟩
  · rw [hsplit]
    exact SortVectors.reversed_leftEnds hs t
  · have hL : ((Pairwise.layer (chunks (2 ^ a))).truncate (2 ^ k)).Proper := by
      rw [layer_chunks]
      exact (cleaner_proper hs).truncate _
    have hT : Shown (2 ^ k) (chunks (2 ^ a)) (leftEnds (2 ^ (k - a - 1)) (2 ^ a)) := by
      rw [hsplit]
      exact shown_leftEnds hs
    have hlength : (leftEnds (2 ^ (k - a - 1)) (2 ^ a)).length < 2 ^ 31 := by
      rw [leftEnds, List.length_map, List.length_range, ← pow_add]
      exact Nat.pow_lt_pow_right (by decide) (by omega)
    have hswap := PairwiseSort.compareSwap_eq hwK hw horder hkeys hL hT
    refine ⟨_, ?_, ⟨ComparatorLayer.exchangePerm hL (t.rowKeys order), fun _ hp => ?_, rfl⟩, ?_⟩
    · rw [compareSwap, guard, if_pos hlength]
      exact hswap
    · exact ComparatorLayer.exchange_truncate_of_le _ hp
    · rw [SortVectors.rowKeys_permuted, ← layer_chunks, ComparatorLayer.apply_eq_comp_exchange hL]
      rfl

theorem step_of_views {i j : ℕ} {spacing : BitVec 64} {x y : View}
    (hgap : gapOf ((i : ℤ) - j) = some spacing)
    (hviews : views n spacing = some (x, y)) :
    step n order i t j = compareSwap order x y (if j = 0 then t.reversed y else t) := by
  rw [step, hgap, Option.bind_eq_bind, Option.bind_some, hviews]
  rfl

/-- A step without a reversal. -/
theorem step_eq (hwK : 0 < wK) (hw : 0 < w) (hkeys : t.keys ≠ []) (horder : order ≠ []) {k i j : ℕ}
    (hi : i < k) (hk : k ≤ 30) (hn : n.toNat = 2 ^ k) (hj : 0 < j) (hji : j ≤ i) :
    ∃ t', step n order i t j = some t' ∧ Rearranged (2 ^ k) t t' ∧
      t'.rowKeys order = ((cleaner (2 ^ (i - j))).truncate (2 ^ k)).apply (t.rowKeys order) := by
  have hspacing := spacing_toNat (by omega : i - j ≤ 30)
  obtain ⟨x, y, hviews, hcleans⟩ := exists_views hwK hw horder (by omega : i - j < k) hk hn hspacing
  obtain ⟨t', hswap, hrows⟩ := hcleans.swapped t hkeys
  refine ⟨t', ?_, hrows⟩
  have hgap : gapOf ((i : ℤ) - j) = some (BitVec.ofNat 64 (2 ^ (i - j))) := by
    rw [← Nat.cast_sub hji, gapOf_eq (by omega)]
  rw [step_of_views hgap hviews, if_neg hj.ne', hswap]

/-- The steps of a round after the first one clean at the distances that are left. -/
theorem steps_eq (hwK : 0 < wK) (hw : 0 < w) (hkeys : t.keys ≠ []) (horder : order ≠ []) {k i : ℕ}
    (hi : i < k)
    (hk : k ≤ 30) (hn : n.toNat = 2 ^ k) (len j : ℕ) (hj : 0 < j) (hlen : j + len = i + 1) :
    ∃ t', (List.range' j len).foldlM (step n order i) t = some t' ∧ Rearranged (2 ^ k) t t' ∧
      t'.rowKeys order = run ((cleaners len).map fun L => L.truncate (2 ^ k)) (t.rowKeys order) := by
  induction len generalizing j t with
  | zero => exact ⟨t, rfl, Rearranged.refl _ t, rfl⟩
  | succ len ih =>
      obtain ⟨t', hstep, hrows, happly⟩ := step_eq hwK hw hkeys horder hi hk hn hj (by omega)
      obtain ⟨t'', hsteps, hrows', hrun⟩ := ih (hrows.keys_ne hkeys) (j + 1) (by omega) (by omega)
      have hexp : i - j = len := by omega
      refine ⟨t'', ?_, hrows.trans hrows', ?_⟩
      · rw [List.range'_succ, List.foldlM_cons, hstep]
        exact hsteps
      · rw [hrun, happly, hexp]
        rfl

/-- A round mirrors the odd chunks and cleans. -/
theorem round_eq (hwK : 0 < wK) (hw : 0 < w) (hkeys : t.keys ≠ []) (horder : order ≠ []) {k i : ℕ}
    (hi : i < k)
    (hk : k ≤ 30) (hn : n.toNat = 2 ^ k) :
    ∃ t', round n order t i = some t' ∧ Rearranged (2 ^ k) t t' ∧ t'.rowKeys order =
      run ((cleaners (i + 1)).map fun L => L.truncate (2 ^ k))
        (t.rowKeys order ∘ mirror (2 ^ k) (2 ^ i)) := by
  have hspacing := spacing_toNat (by omega : i ≤ 30)
  obtain ⟨x, y, hviews, hcleans⟩ := exists_views hwK hw horder hi hk hn hspacing
  let mirrored := t.permuted (mirror (2 ^ k) (2 ^ i))
  have hmirrored : Rearranged (2 ^ k) t mirrored := by
    have hrearranged := rearranged_mirror (Nat.two_pow_pos i) (m := 2 ^ (k - i - 1)) t
    rwa [← two_pow_split hi] at hrearranged
  obtain ⟨t', hswap, hrows, happly⟩ := hcleans.swapped mirrored (hmirrored.keys_ne hkeys)
  have hkeys' := hrows.keys_ne (hmirrored.keys_ne hkeys)
  obtain ⟨t'', hsteps, hrows', hrun⟩ := steps_eq hwK hw hkeys' horder hi hk hn i 1 Nat.one_pos (by omega)
  have hfirst : step n order i t 0 = some t' := by
    have hgap : gapOf ((i : ℤ) - (0 : ℕ)) = some (BitVec.ofNat 64 (2 ^ i)) := by
      rw [Nat.cast_zero, sub_zero, gapOf_eq (by omega)]
    rw [step_of_views hgap hviews, if_pos rfl, hcleans.reversed t, ← hswap]
  refine ⟨t'', ?_, (hmirrored.trans hrows).trans hrows', ?_⟩
  · rw [round, List.range_eq_range', List.range'_succ, List.foldlM_cons, hfirst]
    exact hsteps
  · rw [hrun, happly, SortVectors.rowKeys_permuted]
    rfl

/-- After the rounds before the number `i`, the blocks of the size `2 ^ i` are sorted. -/
theorem rounds_eq (hwK : 0 < wK) (hw : 0 < w) (hkeys : t.keys ≠ []) (horder : order ≠ []) {k : ℕ}
    (i : ℕ)
    (hi : i ≤ k) (hk : k ≤ 30) (hn : n.toNat = 2 ^ k) :
    ∃ t', (List.range i).foldlM (round n order) t = some t' ∧ Rearranged (2 ^ k) t t' ∧
      Blocks (2 ^ i) (2 ^ k) (t'.rowKeys order) := by
  induction i with
  | zero =>
      refine ⟨t, rfl, Rearranged.refl _ t, fun b _ i j hij hj => ?_⟩
      obtain rfl : i = j := by omega
      exact le_rfl
  | succ i ih =>
      obtain ⟨t', hrounds, hrows, hblocks⟩ := ih (by omega)
      obtain ⟨t'', hround, hrows', hrun⟩ := round_eq hwK hw (hrows.keys_ne hkeys) horder hi hk hn
      refine ⟨t'', ?_, hrows.trans hrows', ?_⟩
      · rw [List.range_succ, List.foldlM_append, hrounds]
        change (List.foldlM (round n order) t' [i]) = _
        rw [List.foldlM_cons, hround]
        rfl
      · rw [hrun]
        exact blocks_round hi hblocks

theorem bitonicSort_sorts (hwK : 0 < wK) (hw : 0 < w) {k : ℕ} (hn : n.toNat = 2 ^ k) (hk : k ≤ 30)
    (hkeys : t.keys ≠ []) (hlen : t.keys.length = order.length) :
    ∃ t', bitonicSort n order t = some t' ∧ SortsRows n.toNat order t t' := by
  have horder : order ≠ [] := by
    rintro rfl
    exact hkeys (List.eq_nil_of_length_eq_zero hlen)
  have hlog : Nat.log2 n.toNat = k := by rw [hn, Nat.log2_two_pow]
  obtain ⟨t', hrounds, hrows, hblocks⟩ := rounds_eq hwK hw hkeys horder k le_rfl hk hn
  refine ⟨t', ?_, ?_⟩
  · have haccepted := (isPowerOfTwo_eq_true_iff n).mpr ⟨k, hk, hn⟩
    rw [bitonicSort, hlog, guard, if_pos (List.length_pos_of_ne_nil hkeys), haccepted]
    exact hrounds
  · rw [hn]
    refine ⟨fun i j hij hj => ?_, hrows⟩
    have hsorted := hblocks 0 (by omega) i j hij hj
    simpa only [Nat.zero_mul, Nat.zero_add] using hsorted

/-- The size is asserted to be a power of two that an `int` counts. -/
theorem bitonicSort_eq_none {k : ℕ} (hn : n.toNat = 2 ^ k) (hk : 30 < k) :
    bitonicSort n order t = none := by
  have hrefused := isPowerOfTwo_ne_true hn hk
  rw [bitonicSort]
  generalize (guard (0 < t.keys.length) : Option Unit) = checked
  cases checked with
  | none => rfl
  | some _ =>
      cases haccepted : PrefixNetwork.isPowerOfTwo n with
      | none => rfl
      | some accepted =>
          have hfalse : accepted = false := by simpa [haccepted] using hrefused
          subst hfalse
          rfl

/-- Every table of `2 ^ k` rows is sorted, as long as an `int` counts them. -/
theorem bitonicSort_iff (hwK : 0 < wK) (hw : 0 < w) {k : ℕ} (hn : n.toNat = 2 ^ k) (hkeys : t.keys ≠ [])
    (hlen : t.keys.length = order.length) :
    (∃ t', bitonicSort n order t = some t' ∧ SortsRows n.toNat order t t') ↔ n.toNat ≤ 2 ^ 30 := by
  have hpow : n.toNat ≤ 2 ^ 30 ↔ k ≤ 30 := by rw [hn, Nat.pow_le_pow_iff_right (by decide)]
  rw [hpow]
  constructor
  · rintro ⟨t', hsort, -⟩
    by_contra hk
    rw [bitonicSort_eq_none hn (not_le.mp hk)] at hsort
    exact Option.some_ne_none t' hsort.symm
  · exact fun hk => bitonicSort_sorts hwK hw hn hk hkeys hlen

theorem bitonicSort_iff_four :
    (∃ t', bitonicSort 4 [.asc, .desc] PairwiseSort.exampleVectors = some t' ∧
      SortsRows (4 : BitVec 64).toNat [.asc, .desc] PairwiseSort.exampleVectors t') ↔
      (4 : BitVec 64).toNat ≤ 2 ^ 30 :=
  bitonicSort_iff (k := 2) (by decide) (by decide) rfl (List.cons_ne_nil _ _) rfl

/-- The rows are one more than the greatest `int`. -/
theorem bitonicSort_fails :
    ¬ ∀ (wK w k : ℕ) (n : BitVec 64) (order : List SortOrder) (t : SortVectors wK w), 0 < wK → 0 < w →
      n.toNat = 2 ^ k → t.keys ≠ [] → t.keys.length = order.length →
      ∃ t', bitonicSort n order t = some t' ∧ SortsRows n.toNat order t t' := by
  intro hall
  have hn : (BitVec.ofNat 64 (2 ^ 31)).toNat = 2 ^ 31 := rfl
  obtain ⟨t', hsort, -⟩ :=
    hall 8 16 31 _ [.asc, .desc] PairwiseSort.exampleVectors (by decide) (by decide) hn
    (List.cons_ne_nil _ _) rfl
  rw [bitonicSort_eq_none hn (by decide)] at hsort
  exact Option.some_ne_none t' hsort.symm

end BitonicSort

end Run

end CryptDough
