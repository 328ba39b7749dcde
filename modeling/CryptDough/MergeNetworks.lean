import CryptDough.BitonicSort
import CryptDough.OddEvenNetwork

/-! Merging vectors with sorted halves: odd-even merging of one vector, and bitonic merging of the
columns of a table. -/

namespace CryptDough

open StableSort Opened PrefixNetwork BitonicNetwork

variable {w : ℕ}

namespace OddEvenMerge

/-- `compare_swap` on two views of a vector; both results are computed before they are assigned. -/
def compareSwap (x y : View) (col : Column w) : Column w :=
  let comparisons := (x.zip y).map fun p => notB1 (greaterB (col p.2) (col p.1))
  PairwiseSort.swapColumn (fun c a b => (multiplexB c a b, multiplexB c b a)) x y comparisons col

def views (n d : BitVec 64) : Option (View × View) := do
  let column : View := List.range n.toNat
  let c3 ← column.slice d (n - d)
  let c3 ← c3.alternatingSubsetReference d.toNat d.toNat
  let c4 ← column.slice (d * 2) n
  let c4 ← c4.alternatingSubsetReference d.toNat d.toNat
  pure (c3, c4)

/-- The loop over `d`. -/
def offsetLoop (n : BitVec 64) : ℕ → BitVec 64 → Column w → Option (Column w)
  | 0, _, _ => none
  | fuel + 1, d, col =>
      if 1 ≤ d.toNat then do
        let (c3, c4) ← views n d
        offsetLoop n fuel (d >>> 1) (compareSwap c3 c4 col)
      else some col

def oddEvenMerge (n : BitVec 64) (col : Column w) : Option (Column w) := do
  let column : View := List.range n.toNat
  let d := n / 2
  let c1 ← column.slice 0 (n - d)
  let c2 ← column.slice (n - d) n
  offsetLoop n 64 (n >>> 2) (compareSwap c1 c2 col)

end OddEvenMerge

namespace BitonicMerge

/-- The loop over the distances, which are `int`s. -/
def mergeLoop (n : BitVec 64) (order : List SortOrder) : ℕ → BitVec 32 → SortVectors w w →
    Option (SortVectors w w)
  | 0, _, t => some t
  | rounds + 1, distance, t => do
      let distance := distance.sdiv 2
      let (x, y) ← BitonicSort.views n (distance.signExtend 64)
      let t ← BitonicSort.compareSwap order x y t
      mergeLoop n order rounds distance t

/-- `bitonic_merge` with its assertions. -/
def bitonicMerge (n : BitVec 64) (order : List SortOrder) (t : SortVectors w w) :
    Option (SortVectors w w) := do
  guard (0 < t.keys.length)
  guard (n.toNat = 2 ^ Nat.log2 n.toNat)
  let secondHalf ← View.slice (List.range n.toNat) (n / 2) n
  mergeLoop n order (Nat.log2 n.toNat) (n.setWidth 32) (t.reversed secondHalf)

end BitonicMerge

/-- Both halves are in order. -/
structure HalvesSorted {α : Type} [LinearOrder α] (n : ℕ) (key : ℕ → α) : Prop where
  first : ∀ i j, i ≤ j → j < n / 2 → key i ≤ key j
  second : ∀ i j, n / 2 ≤ i → i ≤ j → j < n → key i ≤ key j

theorem HalvesSorted.blocks {α : Type} [LinearOrder α] {t : ℕ} {key : ℕ → α}
    (h : HalvesSorted (2 ^ (t + 1)) key) :
    Blocks (2 ^ t) (2 ^ (t + 1)) key := by
  have htwo : 2 ^ (t + 1) = 2 ^ t * 2 := pow_succ 2 t
  have hhalf : 2 ^ (t + 1) / 2 = 2 ^ t := by rw [htwo, Nat.mul_div_cancel _ (by decide)]
  have hpos := Nat.two_pow_pos t
  obtain ⟨hfirst, hsecond⟩ := h
  rw [hhalf] at hfirst hsecond
  intro b hb i j hij hj
  have hb2 : b + 1 ≤ 2 := Nat.le_of_mul_le_mul_right (by rwa [htwo, Nat.mul_comm _ 2] at hb) hpos
  obtain rfl | rfl : b = 0 ∨ b = 1 := by omega
  · exact hfirst _ _ (by omega) (by omega)
  · exact hsecond _ _ (by omega) (by omega) (by omega)

section Halves

variable {n : BitVec 64} {t : ℕ}

theorem half_toNat (hn : n.toNat = 2 ^ (t + 1)) : (n / 2).toNat = 2 ^ t ∧ n - n / 2 = n / 2 := by
  have htwo : 2 ^ (t + 1) = 2 ^ t * 2 := pow_succ 2 t
  have hhalf : (n / 2).toNat = 2 ^ t := by
    rw [BitVec.toNat_udiv, hn, htwo]
    exact Nat.mul_div_cancel _ (by decide)
  refine ⟨hhalf, BitVec.eq_of_toNat_eq ?_⟩
  rw [BitVec.toNat_sub_of_le (by rw [BitVec.le_def]; omega), hhalf]
  omega

theorem alternating_of_lt {s i : ℕ} (hi : i < s) : alternating s i = i := by
  rw [alternating, Nat.div_eq_of_lt hi, Nat.mod_eq_of_lt hi, Nat.zero_mul, Nat.zero_add]

theorem slice_first (hn : n.toNat = 2 ^ (t + 1)) :
    View.slice (List.range n.toNat) 0 (n / 2) = some (leftEnds 1 (2 ^ t)) := by
  have hpow : 2 ^ (t + 1) = 2 ^ t * 2 := pow_succ 2 t
  have hlen : (n / 2 - 0).toNat = 2 ^ t := by rw [sub_zero, (half_toNat hn).1]
  have hslice := @View.slice_eq n.toNat id 0 (n / 2) 0 (2 ^ t) rfl hlen (by omega) n.isLt
  rw [List.map_id] at hslice
  rw [hslice, leftEnds, Nat.one_mul]
  congr 1
  refine List.map_congr_left fun i hi => ?_
  rw [alternating_of_lt (List.mem_range.mp hi), id_eq, Nat.zero_add]

theorem slice_second (hn : n.toNat = 2 ^ (t + 1)) :
    View.slice (List.range n.toNat) (n / 2) n = some ((leftEnds 1 (2 ^ t)).map fun p => p + 2 ^ t) := by
  have hpow : 2 ^ (t + 1) = 2 ^ t * 2 := pow_succ 2 t
  obtain ⟨hhalf, hrest⟩ := half_toNat hn
  have hlen : (n - n / 2).toNat = 2 ^ t := by rw [hrest, hhalf]
  have hslice := @View.slice_eq n.toNat id (n / 2) n (2 ^ t) (2 ^ t) hhalf hlen (by omega) n.isLt
  rw [List.map_id] at hslice
  rw [hslice, leftEnds, Nat.one_mul, List.map_map]
  congr 1
  refine List.map_congr_left fun i hi => ?_
  rw [Function.comp_apply, alternating_of_lt (List.mem_range.mp hi), id_eq, Nat.add_comm]

end Halves

namespace OddEvenMerge

theorem compareSwap_eq (hw : 0 < w) {n : ℕ} {c : PairwiseRound} {T : List ℕ}
    (hL : ((Pairwise.layer c).truncate n).Proper) (hT : Shown n c T) (col : Column w) :
    compareSwap T (T.map fun p => p + (c.startRight - c.startLeft)) col =
      col ∘ ((Pairwise.layer c).truncate n).exchange fun p => (col p).toInt := by
  set delta := c.startRight - c.startLeft with hdelta
  let bits : ℕ → BitVec w := fun p => notB1 (greaterB (col (p + delta)) (col p))
  have hbits : ((T.zip (T.map fun p => p + delta)).map fun p => notB1 (greaterB (col p.2) (col p.1))) =
      T.map bits := by
    have hpairs := @List.zip_map' ℕ ℕ ℕ id (fun p => p + delta) T
    rw [List.map_id] at hpairs
    rw [hpairs, List.map_map]
    rfl
  rw [compareSwap, hbits]
  refine PairwiseSort.swapColumn_of_pairs hL hT bits _ col fun p => ?_
  rw [← hdelta]
  have hbit : bits p = bit (!decide ((col p).toInt < (col (p + delta)).toInt)) := notB1_bit _
  rw [hbit, multiplexB_bit hw, multiplexB_bit hw]
  rcases lt_trichotomy (col p).toInt (col (p + delta)).toInt with hlt | heq | hgt
  · simp [hlt, hlt.not_gt]
  · have hsame := BitVec.eq_of_toInt_eq heq
    simp [hsame]
  · simp [hgt, hgt.not_gt]

section Run

open ComparatorNetwork OddEvenNetwork PairwiseNetwork

/-- The elements of `col'` are those of `col` under a permutation of the first `n`. -/
def Reordered (n : ℕ) (col col' : Column w) : Prop :=
  ∃ σ : Equiv.Perm ℕ, (∀ p, n ≤ p → σ p = p) ∧ col' = col ∘ σ

theorem Reordered.trans {n : ℕ} {col col' col'' : Column w} (hfirst : Reordered n col col')
    (hsecond : Reordered n col' col'') : Reordered n col col'' := by
  obtain ⟨σ, hσ, rfl⟩ := hfirst
  obtain ⟨τ, hτ, rfl⟩ := hsecond
  refine ⟨τ.trans σ, fun p hp => ?_, rfl⟩
  rw [Equiv.trans_apply, hτ p hp, hσ p hp]

/-- The element's order. -/
def value (col : Column w) (p : ℕ) : ℤ := (col p).toInt

/-- A round on the views of a layer is the layer. -/
theorem compareSwap_layer (hw : 0 < w) {n : ℕ} {c : PairwiseRound} {T : List ℕ} {L : ComparatorLayer}
    (hc : Pairwise.layer c = L) (hL : L.Proper) (hT : Shown n c T) (col : Column w) :
    ∃ col', compareSwap T (T.map fun p => p + (c.startRight - c.startLeft)) col = col' ∧
      Reordered n col col' ∧ value col' = (L.truncate n).apply (value col) := by
  subst hc
  refine ⟨_, rfl, ⟨ComparatorLayer.exchangePerm (hL.truncate n) (value col), fun p hp => ?_, ?_⟩, ?_⟩
  · exact ComparatorLayer.exchange_truncate_of_le _ hp
  · exact compareSwap_eq hw (hL.truncate n) hT col
  · rw [compareSwap_eq hw (hL.truncate n) hT, ComparatorLayer.apply_eq_comp_exchange (hL.truncate n)]
    rfl

variable {n : BitVec 64} {k : ℕ}

/-- The round at the offset `2 ^ t`. -/
def offsetRound (t : ℕ) : PairwiseRound where
  startLeft := 2 ^ t
  startRight := 2 ^ (0 + 1) * 2 ^ t
  step := 2 ^ t

theorem layer_offsetRound (t : ℕ) : Pairwise.layer (offsetRound t) = (mergePairs 1).stride (2 ^ t) :=
  Pairwise.layer_merge (Nat.two_pow_pos t) 0

theorem views_eq {t : ℕ} (ht : t + 1 < k) (hn : n.toNat = 2 ^ k) {d : BitVec 64}
    (hd : d.toNat = 2 ^ t) :
    ∃ T, views n d = some (T, T.map fun p => p + ((offsetRound t).startRight - (offsetRound t).startLeft)) ∧
      Shown (2 ^ k) (offsetRound t) T := by
  have hlt : 2 ^ (t + 1) < 2 ^ k := Nat.pow_lt_pow_right (by decide) ht
  have hright : (offsetRound t).startRight = 2 * 2 ^ t := rfl
  rw [pow_succ'] at hlt
  obtain ⟨T, hviews, hT⟩ := PairwiseSort.views_eq (n := n) (c := offsetRound t) (Nat.two_pow_pos t)
    (by rw [hright]; exact Nat.le_mul_of_pos_left _ (by decide)) (by rw [hright, hn]; exact hlt)
  rw [hn] at hT
  refine ⟨T, ?_, hT⟩
  have hleft' : (offsetRound t).startLeft = 2 ^ t := rfl
  have hleft : BitVec.ofNat 64 (offsetRound t).startLeft = d :=
    BitVec.eq_of_toNat_eq (by rw [BitVec.toNat_ofNat, hleft', ← hd]; exact Nat.mod_eq_of_lt d.isLt)
  have hdouble : BitVec.ofNat 64 (offsetRound t).startRight = d * 2 := by
    apply BitVec.eq_of_toNat_eq
    rw [BitVec.toNat_ofNat, hright, ← hd, BitVec.toNat_mul, Nat.mul_comm]
    rfl
  have hdelta : d * 2 - d = d := by
    rw [mul_two, add_sub_cancel_right]
  have hend : View.sliceFrom (List.range n.toNat) (d * 2) =
      View.slice (List.range n.toNat) (d * 2) n := by
    rw [View.sliceFrom, List.length_range, BitVec.ofNat_toNat, BitVec.setWidth_eq]
  rw [← hviews, PairwiseSort.views, hleft, hdouble, hdelta, hend, views, hd]
  rfl

/-- The loop passes the offsets below `2 ^ t`. -/
theorem offsetLoop_eq (hw : 0 < w) (hn : n.toNat = 2 ^ k) (t : ℕ) {fuel : ℕ} (ht : t < k)
    (hfuel : t < fuel)
    {d : BitVec 64} (hd : d.toNat = 2 ^ t / 2) (col : Column w) :
    ∃ col', offsetLoop n fuel d col = some col' ∧ Reordered (2 ^ k) col col' ∧
      value col' = run ((offsets t).map fun L => L.truncate (2 ^ k)) (value col) := by
  induction t generalizing fuel d col with
  | zero =>
      obtain ⟨fuel, rfl⟩ := Nat.exists_eq_succ_of_ne_zero (by omega : fuel ≠ 0)
      refine ⟨col, ?_, ⟨Equiv.refl ℕ, fun _ _ => rfl, rfl⟩, rfl⟩
      rw [offsetLoop, if_neg (by omega)]
  | succ t ih =>
      obtain ⟨fuel, rfl⟩ := Nat.exists_eq_succ_of_ne_zero (by omega : fuel ≠ 0)
      have hpos := Nat.two_pow_pos t
      rw [pow_succ, Nat.mul_div_cancel _ (by decide)] at hd
      obtain ⟨T, hviews, hT⟩ := views_eq ht hn hd
      have hproper : ((mergePairs 1).stride (2 ^ t)).Proper :=
        (mergePairs_proper Nat.one_pos).stride hpos
      obtain ⟨col', hswap, hrows, happly⟩ := compareSwap_layer hw (layer_offsetRound t) hproper hT col
      have hhalf : (d >>> 1).toNat = 2 ^ t / 2 := by
        rw [BitVec.toNat_ushiftRight, hd, Nat.shiftRight_eq_div_pow, pow_one]
      obtain ⟨col'', hloop, hrows', hrun⟩ := ih (by omega) (by omega : t < fuel) hhalf col'
      refine ⟨col'', ?_, hrows.trans hrows', ?_⟩
      · rw [offsetLoop, if_pos (by omega), hviews]
        change offsetLoop n fuel (d >>> 1) (compareSwap T _ col) = _
        rw [hswap, hloop]
      · rw [hrun, happly]
        rfl

/-- Sorted halves are merged, whatever their size. -/
theorem oddEvenMerge_merges (hw : 0 < w) (hn : n.toNat = 2 ^ k) (hk : 0 < k) {col : Column w}
    (hhalves : HalvesSorted (2 ^ k) (value col)) :
    ∃ col', oddEvenMerge n col = some col' ∧ (∀ i j, i ≤ j → j < 2 ^ k → value col' i ≤ value col' j) ∧
      Reordered (2 ^ k) col col' := by
  obtain ⟨t, rfl⟩ := Nat.exists_eq_add_one_of_ne_zero hk.ne'
  have hlt := n.isLt
  have hpos := Nat.two_pow_pos t
  have htwo : 2 ^ (t + 1) = 2 ^ t * 2 := pow_succ 2 t
  have hquarter : (n >>> 2).toNat = 2 ^ t / 2 := by
    rw [BitVec.toNat_ushiftRight, hn, Nat.shiftRight_eq_div_pow, htwo]
    omega
  have hT : Shown (2 ^ (t + 1)) (chunks (2 ^ t)) (leftEnds 1 (2 ^ t)) := by
    have hshown := shown_leftEnds (m := 1) hpos
    rwa [Nat.one_mul, ← Nat.mul_two, ← htwo] at hshown
  obtain ⟨col', hswap, hrows, happly⟩ :=
    compareSwap_layer hw (layer_chunks (2 ^ t)) (cleaner_proper hpos) hT col
  have hfuel : t < 64 := by
    by_contra hge
    have hpow : 2 ^ 64 ≤ 2 ^ t := Nat.pow_le_pow_right (by decide) (not_lt.mp hge)
    omega
  obtain ⟨col'', hloop, hrows', hrun⟩ := offsetLoop_eq hw hn t (Nat.lt_succ_self t) hfuel hquarter col'
  refine ⟨col'', ?_, ?_, hrows.trans hrows'⟩
  · rw [oddEvenMerge, (half_toNat hn).2, slice_first hn, slice_second hn]
    change offsetLoop n 64 (n >>> 2) (compareSwap _ _ col) = _
    have hhalf : compareSwap (leftEnds 1 (2 ^ t)) ((leftEnds 1 (2 ^ t)).map fun p => p + 2 ^ t) col =
        col' := hswap
    rw [hhalf, hloop]
  · rw [hrun, happly]
    exact sorted_oddEven hhalves.blocks

end Run

end OddEvenMerge

namespace BitonicMerge

open ComparatorNetwork

variable {n : BitVec 64} {k : ℕ} {order : List SortOrder} {t : SortVectors w w}

theorem distance_half {r : ℕ} (hr : r ≤ 29) : (BitVec.ofNat 32 (2 ^ (r + 1))).sdiv 2 =
    BitVec.ofNat 32 (2 ^ r) ∧
    ((BitVec.ofNat 32 (2 ^ r)).signExtend 64).toNat = 2 ^ r := by
  interval_cases r <;> decide

/-- The loop cleans at the distances below the one it is given. -/
theorem mergeLoop_eq (hw : 0 < w) (horder : order ≠ []) (hk : k ≤ 30) (hn : n.toNat = 2 ^ k) (r : ℕ)
    (hr : r ≤ k)
    (hkeys : t.keys ≠ []) :
    ∃ t', mergeLoop n order r (BitVec.ofNat 32 (2 ^ r)) t = some t' ∧ Rearranged (2 ^ k) t t' ∧
      t'.rowKeys order = run ((cleaners r).map fun L => L.truncate (2 ^ k)) (t.rowKeys order) := by
  induction r generalizing t with
  | zero => exact ⟨t, rfl, Rearranged.refl _ t, rfl⟩
  | succ r ih =>
      obtain ⟨hdiv, hspacing⟩ := distance_half (by omega : r ≤ 29)
      obtain ⟨x, y, hviews, hcleans⟩ := BitonicSort.exists_views hw hw horder hr (by omega) hn hspacing
      obtain ⟨t', hswap, hrows, happly⟩ := hcleans.swapped t hkeys
      obtain ⟨t'', hloop, hrows', hrun⟩ := ih (by omega) (hrows.keys_ne hkeys)
      refine ⟨t'', ?_, hrows.trans hrows', ?_⟩
      · rw [mergeLoop]
        simp only [hdiv, hviews, Option.bind_eq_bind, Option.bind_some, hswap]
        exact hloop
      · rw [hrun, happly]
        rfl

theorem bitonicMerge_merges (hw : 0 < w) (hn : n.toNat = 2 ^ k) (hk : 0 < k) (hk' : k ≤ 30)
    (hkeys : t.keys ≠ [])
    (hlen : t.keys.length = order.length) (hhalves : HalvesSorted (2 ^ k) (t.rowKeys order)) :
    ∃ t', bitonicMerge n order t = some t' ∧ SortsRows (2 ^ k) order t t' := by
  obtain ⟨i, rfl⟩ := Nat.exists_eq_add_one_of_ne_zero hk.ne'
  have horder : order ≠ [] := by
    rintro rfl
    exact hkeys (List.eq_nil_of_length_eq_zero hlen)
  have hlog : Nat.log2 n.toNat = i + 1 := by rw [hn, Nat.log2_two_pow]
  have hdistance : n.setWidth 32 = BitVec.ofNat 32 (2 ^ (i + 1)) :=
    BitVec.eq_of_toNat_eq (by rw [BitVec.toNat_setWidth, hn, BitVec.toNat_ofNat])
  have hsize : 2 ^ (i + 1) = 1 * (2 ^ i + 2 ^ i) := by ring
  have hmirrored : Rearranged (2 ^ (i + 1)) t (t.permuted (mirror (2 ^ (i + 1)) (2 ^ i))) := by
    rw [hsize]
    exact rearranged_mirror (Nat.two_pow_pos i) t
  have hreversed : t.reversed ((leftEnds 1 (2 ^ i)).map fun p => p + 2 ^ i) =
      t.permuted (mirror (2 ^ (i + 1)) (2 ^ i)) := by
    rw [hsize]
    exact SortVectors.reversed_leftEnds (Nat.two_pow_pos i) t
  obtain ⟨t', hloop, hrows, hrun⟩ := mergeLoop_eq hw horder hk' hn (i + 1) le_rfl (hmirrored.keys_ne hkeys)
  refine ⟨t', ?_, fun a b hab hb => ?_, hmirrored.trans hrows⟩
  · rw [bitonicMerge, guard, guard, if_pos (List.length_pos_of_ne_nil hkeys), hlog, if_pos hn, hdistance,
      slice_second hn]
    simp only [Option.pure_def, Option.bind_eq_bind, Option.bind_some, hreversed]
    exact hloop
  · have hsorted := blocks_round (Nat.lt_succ_self i) hhalves.blocks 0 (by omega) a b hab hb
    rw [hrun, SortVectors.rowKeys_permuted]
    simpa only [Nat.zero_mul, Nat.zero_add] using hsorted

/-- A distance that is zero, or past the end, gives no views. -/
theorem views_eq_none {spacing : BitVec 64} (hspacing : spacing.toNat = 0 ∨ n.toNat < spacing.toNat)
    (hn : 0 < n.toNat) : BitonicSort.views n spacing = none := by
  rcases hspacing with hzero | hlarge
  · rw [BitonicSort.views, guard, if_neg (by omega)]
    rfl
  · have hcount : 0 < min (BitVec.ofNat 64 n.toNat - spacing).toNat n.toNat := by
      rw [BitVec.ofNat_toNat, BitVec.setWidth_eq, BitVec.toNat_sub]
      have hlt := spacing.isLt
      omega
    obtain ⟨count, hcount⟩ := Nat.exists_eq_add_one_of_ne_zero hcount.ne'
    have hoff : (List.range n.toNat)[(spacing + BitVec.ofNat 64 0).toNat]? = none := by
      rw [List.getElem?_eq_none_iff, List.length_range]
      change n.toNat ≤ (spacing + 0).toNat
      rw [add_zero]
      exact hlarge.le
    have hslice : View.sliceFrom (List.range n.toNat) spacing = none := by
      rw [View.sliceFrom, View.slice, List.length_range, hcount, List.range_succ_eq_map,
        List.mapM_cons, hoff]
      rfl
    rw [BitonicSort.views, guard, if_pos (by omega)]
    simp only [hslice]
    cases View.alternatingSubsetReference (List.range n.toNat) spacing.toNat spacing.toNat <;> rfl

theorem bitonicMerge_eq_none (hn : n.toNat = 2 ^ k) (hk : 30 < k) : bitonicMerge n order t = none := by
  obtain ⟨rest, rfl⟩ := Nat.exists_eq_add_of_lt hk
  have hlog : Nat.log2 n.toNat = 30 + rest + 1 := by rw [hn, Nat.log2_two_pow]
  have hviews : BitonicSort.views n (((n.setWidth 32).sdiv 2).signExtend 64) = none := by
    refine views_eq_none ?_ (by rw [hn]; exact Nat.two_pow_pos _)
    rcases Nat.eq_zero_or_pos rest with rfl | hrest
    · have hwidth : n.setWidth 32 = BitVec.ofNat 32 (2 ^ 31) :=
        BitVec.eq_of_toNat_eq (by rw [BitVec.toNat_setWidth, hn, BitVec.toNat_ofNat])
      right
      rw [hwidth, hn]
      decide
    · have hwidth : n.setWidth 32 = 0 := by
        apply BitVec.eq_of_toNat_eq
        have hpow : 2 ^ (30 + rest + 1) = 2 ^ 32 * 2 ^ (rest - 1) := by
          rw [← pow_add]
          congr 1
          omega
        rw [BitVec.toNat_setWidth, hn, hpow, Nat.mul_mod_right]
        rfl
      left
      rw [hwidth]
      decide
  rw [bitonicMerge, hlog]
  generalize (guard (0 < t.keys.length) : Option Unit) = checked
  generalize (guard (n.toNat = 2 ^ (30 + rest + 1)) : Option Unit) = checked'
  cases checked with
  | none => rfl
  | some _ =>
      cases checked' with
      | none => rfl
      | some _ =>
          cases View.slice (List.range n.toNat) (n / 2) n with
          | none => rfl
          | some secondHalf =>
              change mergeLoop n order (30 + rest + 1) (n.setWidth 32) (t.reversed secondHalf) = none
              rw [mergeLoop, hviews]
              rfl

end BitonicMerge

/-- Odd-even merging merges all halves, and bitonic merging those whose rows an `int` counts. -/
theorem merge_networks_iff (hw : 0 < w) {n : BitVec 64} {k : ℕ} (hn : n.toNat = 2 ^ k) (hk : 0 < k) :
    (∀ col : Column w, HalvesSorted n.toNat (OddEvenMerge.value col) →
      ∃ col', OddEvenMerge.oddEvenMerge n col = some col' ∧
        (∀ i j, i ≤ j → j < n.toNat → OddEvenMerge.value col' i ≤ OddEvenMerge.value col' j) ∧
        OddEvenMerge.Reordered n.toNat col col') ∧
    ∀ (order : List SortOrder) (t : SortVectors w w), t.keys ≠ [] → t.keys.length = order.length →
      HalvesSorted n.toNat (t.rowKeys order) →
      ((∃ t', BitonicMerge.bitonicMerge n order t = some t' ∧ SortsRows n.toNat order t t') ↔
        n.toNat ≤ 2 ^ 30) := by
  rw [hn]
  refine ⟨fun col hhalves => OddEvenMerge.oddEvenMerge_merges hw hn hk hhalves,
    fun order t hkeys hlen hhalves => ?_⟩
  rw [Nat.pow_le_pow_iff_right (by decide)]
  constructor
  · rintro ⟨t', hmerge, -⟩
    by_contra hlarge
    rw [BitonicMerge.bitonicMerge_eq_none hn (not_le.mp hlarge)] at hmerge
    exact Option.some_ne_none t' hmerge.symm
  · exact fun hsmall => BitonicMerge.bitonicMerge_merges hw hn hk hsmall hkeys hlen hhalves

/-- Rows that are equal are in order. -/
def equalRows : SortVectors 8 8 where
  keys := [fun _ => 3]
  dataA := [fun i => BitVec.ofNat 8 i]
  dataB := []

theorem equalRows_halves (n : ℕ) (order : List SortOrder) : HalvesSorted n (equalRows.rowKeys order) :=
  ⟨fun _ _ _ _ => le_rfl, fun _ _ _ _ _ => le_rfl⟩

theorem merge_networks_iff_eight :
    (∃ t', BitonicMerge.bitonicMerge 8 [.desc] equalRows = some t' ∧
      SortsRows (8 : BitVec 64).toNat [.desc] equalRows t') ↔ (8 : BitVec 64).toNat ≤ 2 ^ 30 :=
  (merge_networks_iff (k := 3) (by decide) rfl (by decide)).2 [.desc] equalRows (List.cons_ne_nil _ _) rfl
    (equalRows_halves _ _)

/-- The distance of `2 ^ 31` rows is a negative `int`. -/
theorem bitonicMerge_fails :
    ¬ ∀ (w k : ℕ) (n : BitVec 64) (order : List SortOrder) (t : SortVectors w w), 0 < w →
      n.toNat = 2 ^ k → 0 < k → t.keys ≠ [] → t.keys.length = order.length →
        HalvesSorted n.toNat (t.rowKeys order) →
      ∃ t', BitonicMerge.bitonicMerge n order t = some t' ∧ SortsRows n.toNat order t t' := by
  intro hall
  have hn : (BitVec.ofNat 64 (2 ^ 31)).toNat = 2 ^ 31 := rfl
  obtain ⟨t', hmerge, -⟩ :=
    hall 8 31 _ [.asc] equalRows (by decide) hn (by decide) (List.cons_ne_nil _ _) rfl
    (equalRows_halves _ _)
  rw [BitonicMerge.bitonicMerge_eq_none hn (by decide)] at hmerge
  exact Option.some_ne_none t' hmerge.symm

end CryptDough
