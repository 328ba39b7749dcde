import CryptDough.MatrixProduct
import CryptDough.NetworkAggregation

/-! The most common of a number of classes, on opened values: the occurrences of every class are
summed up from a table of equality bits, and maxima are taken by a prefix network over vectors that
are padded with zeros, first of the occurrences and then of the classes that have the most of them. -/

namespace CryptDough.MostCommon

open Opened OptionLoop

variable {w : ℕ}

/-- An operator on two vectors of one size. -/
def elementwise (op : BitVec w → BitVec w → BitVec w) (x y : List (BitVec w)) : Option (List (BitVec w)) :=
  if x.length = y.length then some (List.zipWith op x y) else none

/-- New elements are zero, and no vector has `2 ^ 63` elements. -/
def resize (x : List (BitVec w)) (n : ℕ) : Option (List (BitVec w)) :=
  if n < 2 ^ 63 then some (x.take n ++ List.replicate (n - x.length) 0) else none

def tail (x : List (BitVec w)) (n : ℕ) : Option (List (BitVec w)) :=
  if n ≤ x.length then some (x.drop (x.length - n)) else none

def cyclic (x : List (BitVec w)) (cycles : ℕ) : Option (List (BitVec w)) := do
  let v ← (MappedVector.view x none).cyclic cycles
  v.elements

def repeated (x : List (BitVec w)) (repetition : ℕ) : Option (List (BitVec w)) := do
  let v ← (MappedVector.view x none).repeated repetition
  v.elements

/-- The aggregation of one vector by `max` without keys, where all group bits are one. -/
def aggregateMax (x : List (BitVec w)) : Option (List (BitVec w)) := do
  let net ← NetworkClass.brentKung.construct .forward (BitVec.ofNat 64 x.length)
  let out ← net.aggregateLevels ([] : List (Column w))
    (fun b a => AggregationSelector.max.apply 1 a b) (net.depth.toNat + 1) fun i => x.getD i 0
  pure ((List.range x.length).map out)

/-- `1 << std::bit_width(numClasses - 1)` -/
def nextPowerOfTwo (numClasses : ℕ) : Option (BitVec 64) := gapOf (bitWidth (BitVec.ofNat 64 numClasses - 1))

def mostCommon (x : List (BitVec w)) (numClasses : Option ℕ) : Option (List (BitVec w)) := do
  let n := x.length
  let k := numClasses.getD n
  let classesShared := (List.range k).map (BitVec.ofNat w)
  let xRepeated ← cyclic x k
  let classesRepeated ← repeated classesShared n
  let equal ← elementwise equalB xRepeated classesRepeated
  let eqA := equal.map (· &&& 1)
  let classCounts ← chunkedSum eqA n
  let nextPow2 ← nextPowerOfTwo k
  let classCounts ← resize classCounts nextPow2.toNat
  let maxCount ← aggregateMax classCounts
  let maxCount ← tail maxCount 1
  let classCounts ← resize classCounts k
  let m ← repeated maxCount k
  let mask ← elementwise equalB m classCounts
  let freq ← elementwise (fun bit c => multiplexB bit 0 c) mask classesShared
  let freq ← resize freq nextPow2.toNat
  let freq ← aggregateMax freq
  tail freq 1

def occurrences (x : List (BitVec w)) (c : ℕ) : ℕ := x.countP fun v => v.toNat = c

/-- The largest class of those that occur most often. -/
structure IsPlurality (x : List (BitVec w)) (numClasses c : ℕ) : Prop where
  lt : c < numClasses
  most : ∀ d < numClasses, occurrences x d ≤ occurrences x c
  largest : ∀ d < numClasses, occurrences x d = occurrences x c → d ≤ c

section Values

theorem toInt_ofNat {m : ℕ} (hm : m < 2 ^ (w - 1)) : (BitVec.ofNat w m).toInt = m := by
  have hdouble : 2 * 2 ^ (w - 1) ≤ 2 ^ w ∨ w = 0 := by
    rcases Nat.eq_zero_or_pos w with hzero | hpos
    · exact Or.inr hzero
    · apply Or.inl
      rw [SegmentedScan.two_mul_two_pow, Nat.sub_add_cancel hpos]
  rcases hdouble with hdouble | rfl
  · have hnat : (BitVec.ofNat w m).toNat = m := by
      rw [BitVec.toNat_ofNat]
      exact Nat.mod_eq_of_lt (by omega)
    rw [BitVec.toInt_eq_toNat_of_lt (by omega), hnat]
  · have hzero : m = 0 := by omega
    subst hzero
    rfl

/-- Folding the larger one gives a member that no member exceeds. -/
theorem foldl_signedMax (a : BitVec w) (x : List (BitVec w)) :
    x.foldl signedMax a ∈ a :: x ∧ ∀ v ∈ a :: x, v.toInt ≤ (x.foldl signedMax a).toInt := by
  induction x generalizing a with
  | nil => simp
  | cons b x ih =>
      obtain ⟨hmem, hle⟩ := ih (signedMax a b)
      have hmax : (signedMax a b = a ∨ signedMax a b = b) ∧ a.toInt ≤ (signedMax a b).toInt ∧
          b.toInt ≤ (signedMax a b).toInt := by
        unfold signedMax
        split
        · exact ⟨Or.inl rfl, le_refl _, by omega⟩
        · exact ⟨Or.inr rfl, by omega, le_refl _⟩
      obtain ⟨hcases, ha, hb⟩ := hmax
      have hfirst := hle _ List.mem_cons_self
      rw [List.foldl_cons]
      constructor
      · rcases List.mem_cons.mp hmem with heq | hx
        · rw [heq]
          rcases hcases with hcase | hcase
          · rw [hcase]
            exact List.mem_cons_self
          · rw [hcase]
            exact List.mem_cons_of_mem _ List.mem_cons_self
        · exact List.mem_cons_of_mem _ (List.mem_cons_of_mem _ hx)
      · intro v hv
        rcases List.mem_cons.mp hv with rfl | hv
        · exact ha.trans hfirst
        · rcases List.mem_cons.mp hv with rfl | hv
          · exact hb.trans hfirst
          · exact hle v (List.mem_cons_of_mem _ hv)

/-- A sum of equality bits is the number of equal elements. -/
theorem sum_equalB (x : List (BitVec w)) (c : BitVec w) :
    ∑ p ∈ Finset.range x.length, equalB (x.getD p 0) c = BitVec.ofNat w (x.countP fun v => v = c) := by
  induction x with
  | nil => rfl
  | cons v x ih =>
      rw [List.length_cons, Finset.sum_range_succ', List.countP_cons, BitVec.ofNat_add]
      apply congrArg₂ (· + ·) ih
      change equalB v c = _
      rw [equalB, bit]
      split <;> rfl

end Values

section Network

variable {x : List (BitVec w)} {k : ℕ}

theorem max_apply_one (hw : 0 < w) :
    (fun b a : BitVec w => AggregationSelector.max.apply 1 a b) = signedMax := by
  funext b a
  exact AggregationSelector.apply_bit hw .max true a b

theorem groupUpTo_last {n i : ℕ} (hi : i + 1 = n) :
    PrefixNetwork.groupUpTo .forward n ([] : List (Column w)) i = List.range n := by
  have hall : ∀ u ∈ (List.range (i + 1)).map (Direction.forward.position n),
      decide (PrefixNetwork.SameKeys ([] : List (Column w)) u i) = true := fun u _ =>
    decide_eq_true fun key hkey => absurd hkey List.not_mem_nil
  rw [PrefixNetwork.groupUpTo, Direction.position, List.filter_eq_self.mpr hall, hi]
  exact List.map_id _

theorem map_getD_range (x : List (BitVec w)) : (List.range x.length).map (fun i => x.getD i 0) = x := by
  refine List.ext_getElem (by rw [List.length_map, List.length_range]) fun i hi hlt => ?_
  rw [List.getElem_map, List.getElem_range]
  exact List.getD_eq_getElem x 0 hlt

/-- The loop over the levels leaves the maximum in the last element. -/
theorem aggregateLevels_last (hpos : 0 < k) (hk : k ≤ 30) (hlen : x.length = 2 ^ k) :
    ∃ net y m, NetworkClass.brentKung.construct .forward (BitVec.ofNat 64 x.length) = some net ∧
      net.aggregateLevels ([] : List (Column w)) signedMax (net.depth.toNat + 1) (fun i => x.getD i 0) =
        some y ∧ y (x.length - 1) = m ∧ m ∈ x ∧ ∀ v ∈ x, v.toInt ≤ m.toInt := by
  have hsize : 0 < x.length := hlen ▸ Nat.two_pow_pos k
  have hn : (BitVec.ofNat 64 x.length).toNat = 2 ^ k := by
    rw [BitVec.toNat_ofNat, hlen]
    exact Nat.mod_eq_of_lt (Nat.pow_lt_pow_right (by omega) (by omega))
  have hdepth : (NetworkClass.brentKung.network (decide (Direction.forward = .reverse))
      (BitVec.ofNat 64 x.length)).depth = NetworkClass.brentKung.levelCount k :=
    NetworkClass.depth_eq hn (Or.inr hpos) _
  have hgroups : PrefixNetwork.FoldsGroups .brentKung .forward (BitVec.ofNat 64 x.length)
      ([] : List (Column w)) signedMax fun i => x.getD i 0 :=
    PrefixNetwork.foldsGroups_brentKung hn hpos hk
      (fun _ _ _ _ _ _ _ key hkey => absurd hkey List.not_mem_nil) .forward signedMax _
  obtain ⟨net, fuel, y, hnet, hy, hfold⟩ := hgroups
  obtain ⟨-, rfl⟩ := NetworkClass.construct_eq_some_iff.mp hnet
  obtain ⟨y', hy', -⟩ := PrefixNetwork.aggregateLevels_scan hn hk hdepth ([] : List (Column w)) signedMax
    fun i => x.getD i 0
  obtain rfl := PrefixNetwork.forLevels_unique _ hy hy'
  have hfuel : NetworkClass.brentKung.levelCount k = (NetworkClass.brentKung.network
      (decide (Direction.forward = .reverse)) (BitVec.ofNat 64 x.length)).depth.toNat := by
    rw [hdepth, Int.toNat_natCast]
  have hrow := hfold (x.length - 1) (by rw [hn, ← hlen]; omega)
  rw [hn, ← hlen, groupUpTo_last (by omega), map_getD_range] at hrow
  refine ⟨_, y, y (x.length - 1), hnet, hfuel ▸ hy', rfl, ?_⟩
  cases x with
  | nil => cases hsize
  | cons a x =>
      rw [← Option.some.inj hrow]
      exact foldl_signedMax a x

/-- The last element of the scan is the maximum. -/
theorem aggregateMax_spec (hw : 0 < w) (hpos : 0 < k) (hk : k ≤ 30) (hlen : x.length = 2 ^ k) :
    ∃ out m, aggregateMax x = some out ∧ tail out 1 = some [m] ∧ m ∈ x ∧ ∀ v ∈ x, v.toInt ≤ m.toInt := by
  obtain ⟨net, y, m, hnet, hy, hlast, hmax⟩ := aggregateLevels_last hpos hk hlen
  have hsize : 1 ≤ x.length := hlen ▸ Nat.two_pow_pos k
  refine ⟨(List.range x.length).map y, m, ?_, ?_, hmax⟩
  · rw [aggregateMax, hnet, max_apply_one hw]
    simp only [Option.bind_eq_bind, Option.bind_some, hy, Option.pure_def]
  · have hdrop : ((List.range x.length).map y).drop (x.length - 1) = [y (x.length - 1)] := by
      obtain ⟨n, hn⟩ := Nat.exists_eq_succ_of_ne_zero (Nat.ne_of_gt hsize)
      rw [hn, Nat.succ_sub_one, List.range_succ, List.map_append,
        List.drop_left' (by rw [List.length_map, List.length_range])]
      rfl
    rw [tail, List.length_map, List.length_range, if_pos hsize, hdrop, hlast]

/-- The maximum of values that are padded with zeros. -/
theorem max_of_padded (hw : 0 < w) {size : BitVec 64} (hpos : 0 < k) (hk : k ≤ 30)
    (hsize : size.toNat = 2 ^ k) {f : ℕ → ℕ} {n : ℕ} (hn : 0 < n) (hle : n ≤ 2 ^ k)
    (hf : ∀ i < n, f i < 2 ^ (w - 1)) :
    ∃ padded out, ∃ i < n,
      resize ((List.range n).map fun i => BitVec.ofNat w (f i)) size.toNat = some padded ∧
      padded.take n = ((List.range n).map fun i => BitVec.ofNat w (f i)) ∧ padded.length = 2 ^ k ∧
      aggregateMax padded = some out ∧ tail out 1 = some [BitVec.ofNat w (f i)] ∧ ∀ j < n, f j ≤ f i := by
  have hbound : (2 : ℕ) ^ k < 2 ^ 63 := Nat.pow_lt_pow_right (by omega) (by omega)
  have hlength : ((List.range n).map fun i => BitVec.ofNat w (f i)).length = n := by
    rw [List.length_map, List.length_range]
  have hpadded : resize ((List.range n).map fun i => BitVec.ofNat w (f i)) size.toNat =
      some (((List.range n).map fun i => BitVec.ofNat w (f i)) ++ List.replicate (2 ^ k - n) 0) := by
    rw [resize, hsize, if_pos hbound, hlength, List.take_of_length_le (hlength.trans_le hle)]
  generalize hcounts : ((List.range n).map fun i => BitVec.ofNat w (f i)) = counts at hlength hpadded ⊢
  have hmem : ∀ j < n, BitVec.ofNat w (f j) ∈ counts := fun j hj =>
    hcounts ▸ List.mem_map.mpr ⟨j, List.mem_range.mpr hj, rfl⟩
  have htotal : (counts ++ List.replicate (2 ^ k - n) 0).length = 2 ^ k := by
    rw [List.length_append, List.length_replicate, hlength]
    omega
  obtain ⟨out, m, hout, htail, hin, hmax⟩ := aggregateMax_spec hw hpos hk htotal
  have hat : ∃ i < n, m = BitVec.ofNat w (f i) := by
    rcases List.mem_append.mp hin with hcount | hpad
    · rw [← hcounts] at hcount
      obtain ⟨i, hi, rfl⟩ := List.mem_map.mp hcount
      exact ⟨i, List.mem_range.mp hi, rfl⟩
    · -- a maximum that is zero is the first value as well
      have hzero := List.eq_of_mem_replicate hpad
      have hint : (0 : BitVec w).toInt = 0 := BitVec.toInt_zero
      have hfirst := hmax _ (List.mem_append_left _ (hmem 0 hn))
      rw [hzero, toInt_ofNat (hf 0 hn), hint] at hfirst
      refine ⟨0, hn, ?_⟩
      rw [hzero, Int.natCast_eq_zero.mp (le_antisymm hfirst (Int.natCast_nonneg _))]
      rfl
  obtain ⟨i, hi, rfl⟩ := hat
  refine ⟨_, out, i, hi, hpadded, List.take_left' hlength, htotal, hout, htail, fun j hj => ?_⟩
  have hj' := hmax _ (List.mem_append_left _ (hmem j hj))
  rw [toInt_ofNat (hf j hj), toInt_ofNat (hf i hi)] at hj'
  exact Int.ofNat_le.mp hj'

end Network

section Views

variable {x : List (BitVec w)}

theorem cyclic_eq_some {cycles : ℕ} (hlen : x.length < 2 ^ 64) (hfits : x.length * cycles ≤ intEntries) :
    cyclic x cycles = some ((List.range (cycles * x.length)).map fun p => x.getD (p % x.length) 0) := by
  obtain ⟨u, hview, hu, hfilled⟩ :=
    MappedVector.cyclic_spec (MappedVector.proper_view hlen) (MappedVector.RepeatsFit.of_le hfits)
  have htotal : (MappedVector.view x none).totalSize = x.length := rfl
  have hindices : MappedVector.cyclicIndices x.length cycles =
      (List.range (cycles * x.length)).map (· % x.length) := by
    rw [Shares.cyclicIndices_eq_map]
    rcases Nat.eq_zero_or_pos x.length with hzero | hpos
    · rw [hzero, intSteps_eq (Nat.zero_le _), Nat.mul_zero, Nat.mul_zero]
    rcases Nat.eq_zero_or_pos cycles with rfl | hcycles
    · rw [intSteps_eq (Nat.zero_le _), Nat.zero_mul, Nat.zero_mul, List.range_zero]
      rfl
    · rw [intSteps_eq ((Nat.le_mul_of_pos_right _ hcycles).trans hfits),
        intSteps_eq ((Nat.le_mul_of_pos_left _ hpos).trans hfits)]
  rw [Nat.mul_comm] at hfits
  rw [htotal, hindices, Nat.mul_comm] at hfilled
  rw [cyclic, hview]
  exact Shares.elements_of_filled_le hfits hu hfilled

/-- Beyond the range of an `int`, only a single element is still turned around. -/
theorem eq_one_of_cyclic {cycles : ℕ} {out : List (BitVec w)} (hrun : cyclic x cycles = some out)
    (hlarge : intEntries < x.length * cycles) (htwo : 2 ≤ cycles) :
    x.length = 1 ∧ intEntries ≤ cycles % 2 ^ 64 := by
  have htotal : (MappedVector.view x none).totalSize = x.length := rfl
  have hfill : sizeMul x.length cycles < 2 ^ 60 ∧
      (MappedVector.cyclicIndices x.length cycles).length ≤ min (sizeMul x.length cycles) intEntries := by
    by_contra hnot
    have hnone : (MappedVector.view x none).cyclic cycles = none := if_neg hnot
    rw [cyclic, hnone] at hrun
    cases hrun
  have hle := hfill.2
  rw [MappedVector.length_cyclicIndices] at hle
  have hone : x.length = 1 := by
    rcases intSteps_mul_le_iff.mp (hle.trans (Nat.min_le_right _ _)) with hle | hone | hone
    · exact absurd hle (not_le.mpr hlarge)
    · exact hone
    · omega
  rw [hone, Nat.one_mul] at hlarge
  rw [hone, intSteps_eq (by decide), Nat.one_mul, intSteps_of_ge hlarge.le, sizeMul, Nat.one_mul] at hle
  exact ⟨hone, hle.trans (Nat.min_le_left _ _)⟩

theorem repeated_eq_some {repetition : ℕ} (hlen : x.length < 2 ^ 64)
    (hfits : x.length * repetition ≤ intEntries) : repeated x repetition =
      some ((List.range (x.length * repetition)).map fun p => x.getD (p / repetition) 0) := by
  obtain ⟨u, hview, hu, hfilled⟩ :=
    MappedVector.repeated_spec (MappedVector.proper_view hlen) (MappedVector.RepeatsFit.of_le hfits)
  have htotal : (MappedVector.view x none).totalSize = x.length := rfl
  have hindices : MappedVector.repeatedIndices x.length repetition =
      (List.range (x.length * repetition)).map (· / repetition) := by
    rw [MappedVector.repeatedIndices]
    rcases Nat.eq_zero_or_pos repetition with rfl | hpos
    · rw [intSteps_eq (Nat.zero_le _), Nat.mul_zero, List.range_zero]
      simp
    rcases Nat.eq_zero_or_pos x.length with hzero | hlength
    · rw [hzero, intSteps_eq (Nat.zero_le _), Nat.zero_mul]
      rfl
    · rw [intSteps_eq ((Nat.le_mul_of_pos_right _ hpos).trans hfits),
        intSteps_eq ((Nat.le_mul_of_pos_left _ hlength).trans hfits)]
      exact Shares.flatMap_range_eq_map (g := fun i _ => i) fun _ _ => rfl
  rw [htotal, hindices] at hfilled
  rw [repeated, hview]
  exact Shares.elements_of_filled_le hfits hu hfilled

theorem elementwise_range (op : BitVec w → BitVec w → BitVec w) (f g : ℕ → BitVec w) (n : ℕ) :
    elementwise op ((List.range n).map f) ((List.range n).map g) =
      some ((List.range n).map fun p => op (f p) (g p)) := by
  rw [elementwise, if_pos (by rw [List.length_map, List.length_map]), List.zipWith_map, List.zipWith_self]

theorem equalB_and_one (a b : BitVec w) : equalB a b &&& 1 = equalB a b := by
  rw [equalB, bit]
  split
  · exact BitVec.and_self
  · exact BitVec.zero_and

theorem countP_ofNat (x : List (BitVec w)) {c : ℕ} (hc : c < 2 ^ w) :
    (x.countP fun v => v = BitVec.ofNat w c) = occurrences x c := by
  refine List.countP_congr fun v _ => ?_
  rw [decide_eq_true_iff, decide_eq_true_iff]
  constructor
  · rintro rfl
    rw [BitVec.toNat_ofNat, Nat.mod_eq_of_lt hc]
  · rintro rfl
    apply BitVec.eq_of_toNat_eq
    rw [BitVec.toNat_ofNat, Nat.mod_eq_of_lt v.isLt]

end Views

section Run

variable {x : List (BitVec w)} {n : ℕ}

/-- The table of equality bits, and the sums of its rows. -/
theorem class_counts (hpos : 0 < x.length) (hnpos : 0 < n) (hn : n ≤ 2 ^ w)
    (hfits : n * x.length ≤ intEntries) :
    ∃ xRepeated classesRepeated equal, cyclic x n = some xRepeated ∧
      repeated ((List.range n).map (BitVec.ofNat w)) x.length = some classesRepeated ∧
      elementwise equalB xRepeated classesRepeated = some equal ∧
      chunkedSum (equal.map (· &&& 1)) x.length =
        some ((List.range n).map fun c => BitVec.ofNat w (occurrences x c)) := by
  have hclasses : ((List.range n).map (BitVec.ofNat w)).length = n := by
    rw [List.length_map, List.length_range]
  have hbounds : x.length < 2 ^ 64 ∧ n < 2 ^ 64 := by
    have hsize := Nat.le_mul_of_pos_left x.length hnpos
    have hcount := Nat.le_mul_of_pos_right n hpos
    unfold intEntries at hfits
    omega
  have hrepeated : repeated ((List.range n).map (BitVec.ofNat w)) x.length = _ :=
    repeated_eq_some (hclasses.trans_lt hbounds.2) (by rwa [hclasses])
  rw [hclasses] at hrepeated
  refine ⟨_, _, _, cyclic_eq_some hbounds.1 (Nat.mul_comm n _ ▸ hfits), hrepeated,
    elementwise_range _ _ _ _, ?_⟩
  rw [List.map_map, chunkedSum_spec hpos (by rw [List.length_map, List.length_range])]
  refine congrArg some (List.map_congr_left fun c hc => ?_)
  have hc := List.mem_range.mp hc
  rw [← countP_ofNat x (hc.trans_le hn), ← sum_equalB]
  refine Finset.sum_congr rfl fun p hp => ?_
  have hp := Finset.mem_range.mp hp
  rw [getD_map_range _ (place_lt hc hp), Function.comp_apply, equalB_and_one, (row_column hp).1,
    (row_column hp).2, getD_map_range _ hc]

theorem bitWidth_sub_one (hn : n < 2 ^ 64) (hpos : 0 < n) :
    bitWidth (BitVec.ofNat 64 n - 1) = ((n - 1).size : ℤ) := by
  have hnat : (BitVec.ofNat 64 n).toNat = n := by
    rw [BitVec.toNat_ofNat]
    exact Nat.mod_eq_of_lt hn
  have hle : (1 : BitVec 64).toNat ≤ (BitVec.ofNat 64 n).toNat := by
    rw [hnat]
    exact hpos
  rw [bitWidth, BitVec.toNat_sub_of_le hle, hnat]
  rfl

theorem nextPowerOfTwo_eq_some (htwo : 2 ≤ n) (hn : n ≤ 2 ^ 30) :
    ∃ k size, 0 < k ∧ k ≤ 30 ∧ nextPowerOfTwo n = some size ∧ size.toNat = 2 ^ k ∧ n ≤ 2 ^ k := by
  have hk : (n - 1).size ≤ 30 := Nat.size_le.mpr (by omega)
  have hlt := Nat.lt_size_self (n - 1)
  refine ⟨(n - 1).size, BitVec.ofNat 64 (2 ^ (n - 1).size), Nat.size_pos.mpr (by omega), hk, ?_, ?_, by omega⟩
  · rw [nextPowerOfTwo, bitWidth_sub_one (by omega) (by omega), gapOf_eq hk]
  · rw [BitVec.toNat_ofNat]
    exact Nat.mod_eq_of_lt (Nat.pow_lt_pow_right (by omega) (by omega))

/-- The power of two becomes negative, or the shift leaves the range of an `int`. -/
theorem nextPowerOfTwo_large {size : BitVec 64} (hlarge : 2 ^ 30 < n % 2 ^ 64)
    (hrun : nextPowerOfTwo n = some size) : 2 ^ 63 ≤ size.toNat := by
  have hmod : BitVec.ofNat 64 n = BitVec.ofNat 64 (n % 2 ^ 64) := by
    apply BitVec.eq_of_toNat_eq
    rw [BitVec.toNat_ofNat, BitVec.toNat_ofNat, Nat.mod_mod]
  have hsize : 30 < (n % 2 ^ 64 - 1).size := Nat.lt_size.mpr (by omega)
  rw [nextPowerOfTwo, hmod, bitWidth_sub_one (Nat.mod_lt _ (by decide)) (by omega), gapOf, shiftOne] at hrun
  split at hrun
  · rename_i hshift
    obtain hlast : (n % 2 ^ 64 - 1).size = 31 := by omega
    rw [hlast] at hrun
    obtain rfl := Option.some.inj hrun
    decide
  · cases hrun

theorem occurrences_le (x : List (BitVec w)) (c : ℕ) : occurrences x c ≤ x.length := List.countP_le_length

/-- The largest class that occurs as often as the most common one; where it is zero, zero is that
class. -/
theorem isPlurality_of_largest {i j : ℕ} (hi : i < n) (hj : j < n)
    (hmost : ∀ d < n, occurrences x d ≤ occurrences x i)
    (hlargest : ∀ d < n, (if occurrences x d = occurrences x i then d else 0) ≤
      if occurrences x j = occurrences x i then j else 0) :
    IsPlurality x n (if occurrences x j = occurrences x i then j else 0) := by
  by_cases hsame : occurrences x j = occurrences x i
  · simp only [if_pos hsame] at hlargest ⊢
    refine ⟨hj, fun d hd => hsame ▸ hmost d hd, fun d hd heq => ?_⟩
    have hle := hlargest d hd
    rwa [if_pos (heq.trans hsame)] at hle
  · simp only [if_neg hsame] at hlargest ⊢
    have hzero := hlargest i hi
    rw [if_pos rfl] at hzero
    obtain rfl : i = 0 := Nat.le_zero.mp hzero
    refine ⟨hi, hmost, fun d hd heq => ?_⟩
    have hle := hlargest d hd
    rwa [if_pos heq] at hle

/-- The classes whose count is the maximum. -/
theorem masked_classes (hw : 0 < w) {f : ℕ → ℕ} (hf : ∀ c, f c < 2 ^ w) (i c : ℕ) :
    multiplexB (equalB (BitVec.ofNat w (f i)) (BitVec.ofNat w (f c))) 0 (BitVec.ofNat w c) =
      BitVec.ofNat w (if f c = f i then c else 0) := by
  have hsame : BitVec.ofNat w (f i) = BitVec.ofNat w (f c) ↔ f c = f i := by
    constructor
    · intro heq
      have hnat := congrArg BitVec.toNat heq
      rw [BitVec.toNat_ofNat, BitVec.toNat_ofNat, Nat.mod_eq_of_lt (hf i), Nat.mod_eq_of_lt (hf c)] at hnat
      exact hnat.symm
    · intro heq
      rw [heq]
  rw [equalB, multiplexB_bit hw]
  simp only [hsame, decide_eq_true_eq]
  split <;> rfl

theorem mostCommon_of_fits (htwo : 2 ≤ n) (hpos : 0 < x.length) (hlen : x.length < 2 ^ (w - 1))
    (hclasses : n < 2 ^ (w - 1)) (hn : n ≤ 2 ^ 30) (hfits : n * x.length ≤ intEntries) :
    ∃ c, IsPlurality x n c ∧ mostCommon x (some n) = some [BitVec.ofNat w c] := by
  have hw : 0 < w := Nat.pos_of_ne_zero fun hzero => by
    subst hzero
    omega
  have hwidth : (2 : ℕ) ^ (w - 1) ≤ 2 ^ w := Nat.pow_le_pow_right (by omega) (by omega)
  obtain ⟨xRepeated, classesRepeated, equal, hx, hc, hequal, hcounts⟩ :=
    class_counts hpos (by omega) (by omega) hfits
  obtain ⟨k, size, hk, hk', hnext, hsize, hle⟩ := nextPowerOfTwo_eq_some htwo hn
  obtain ⟨padded, scanned, i, hi, hpad, hback, hlength, hscan, htail, hmost⟩ :=
    max_of_padded hw hk hk' hsize (f := occurrences x) (by omega) hle
      fun c _ => (occurrences_le x c).trans_lt hlen
  -- the classes that do not occur as often as the most common one are replaced by zero
  obtain ⟨padded', scanned', j, hj, hpad', -, -, hscan', htail', hlargest⟩ :=
    max_of_padded hw hk hk' hsize (f := fun c => if occurrences x c = occurrences x i then c else 0)
      (by omega) hle fun c hc => by
        split
        · omega
        · omega
  refine ⟨_, isPlurality_of_largest hi hj hmost hlargest, ?_⟩
  have hresize : resize padded n =
      some ((List.range n).map fun c => BitVec.ofNat w (occurrences x c)) := by
    rw [resize, if_pos (by omega), hback, hlength, Nat.sub_eq_zero_of_le hle, List.replicate_zero,
      List.append_nil]
  have hrepeated : repeated [BitVec.ofNat w (occurrences x i)] n =
      some ((List.range n).map fun _ => BitVec.ofNat w (occurrences x i)) := by
    have hint : 1 * n ≤ intEntries := by
      unfold intEntries
      omega
    rw [repeated_eq_some (Nat.one_lt_two_pow (by omega)) hint, List.length_singleton, Nat.one_mul]
    refine congrArg some (List.map_congr_left fun p hp => ?_)
    rw [Nat.div_eq_of_lt (List.mem_range.mp hp)]
    rfl
  have hocc : ∀ c, occurrences x c < 2 ^ w := fun c => by
    have hle := occurrences_le x c
    omega
  have hmask : elementwise equalB ((List.range n).map fun _ => BitVec.ofNat w (occurrences x i))
      ((List.range n).map fun c => BitVec.ofNat w (occurrences x c)) =
        some ((List.range n).map fun c =>
          equalB (BitVec.ofNat w (occurrences x i)) (BitVec.ofNat w (occurrences x c))) :=
    elementwise_range equalB _ _ n
  have hfreq : elementwise (fun bit c => multiplexB bit 0 c) ((List.range n).map fun c =>
      equalB (BitVec.ofNat w (occurrences x i)) (BitVec.ofNat w (occurrences x c)))
        ((List.range n).map (BitVec.ofNat w)) = some ((List.range n).map fun c =>
          BitVec.ofNat w (if occurrences x c = occurrences x i then c else 0)) := by
    rw [elementwise_range]
    exact congrArg some (List.map_congr_left fun c _ => masked_classes hw hocc i c)
  rw [mostCommon]
  refine Option.bind_eq_some_iff.mpr ⟨xRepeated, hx, ?_⟩
  refine Option.bind_eq_some_iff.mpr ⟨classesRepeated, hc, ?_⟩
  refine Option.bind_eq_some_iff.mpr ⟨equal, hequal, ?_⟩
  refine Option.bind_eq_some_iff.mpr ⟨_, hcounts, ?_⟩
  refine Option.bind_eq_some_iff.mpr ⟨size, hnext, ?_⟩
  refine Option.bind_eq_some_iff.mpr ⟨padded, hpad, ?_⟩
  refine Option.bind_eq_some_iff.mpr ⟨scanned, hscan, ?_⟩
  refine Option.bind_eq_some_iff.mpr ⟨_, htail, ?_⟩
  refine Option.bind_eq_some_iff.mpr ⟨_, hresize, ?_⟩
  refine Option.bind_eq_some_iff.mpr ⟨_, hrepeated, ?_⟩
  refine Option.bind_eq_some_iff.mpr ⟨_, hmask, ?_⟩
  refine Option.bind_eq_some_iff.mpr ⟨_, hfreq, ?_⟩
  refine Option.bind_eq_some_iff.mpr ⟨padded', hpad', ?_⟩
  exact Option.bind_eq_some_iff.mpr ⟨scanned', hscan', htail'⟩

theorem fits_of_mostCommon (hpos : 0 < x.length) (htwo : 2 ≤ n) {out : List (BitVec w)}
    (hrun : mostCommon x (some n) = some out) :
    n ≤ 2 ^ 30 ∧ n * x.length ≤ intEntries := by
  rw [mostCommon] at hrun
  obtain ⟨xRepeated, hx, hrun⟩ := Option.bind_eq_some_iff.mp hrun
  obtain ⟨classesRepeated, -, hrun⟩ := Option.bind_eq_some_iff.mp hrun
  obtain ⟨equal, -, hrun⟩ := Option.bind_eq_some_iff.mp hrun
  obtain ⟨classCounts, -, hrun⟩ := Option.bind_eq_some_iff.mp hrun
  obtain ⟨size, hnext, hrun⟩ := Option.bind_eq_some_iff.mp hrun
  obtain ⟨padded, hresize, -⟩ := Option.bind_eq_some_iff.mp hrun
  have hsize : size.toNat < 2 ^ 63 := by
    by_contra hnot
    rw [resize, if_neg hnot] at hresize
    cases hresize
  have hsmall : n % 2 ^ 64 ≤ 2 ^ 30 := by
    by_contra hnot
    exact absurd (nextPowerOfTwo_large (not_le.mp hnot) hnext) (not_le.mpr hsize)
  have hfits : n * x.length ≤ intEntries := by
    by_contra hnot
    obtain ⟨-, hmod⟩ := eq_one_of_cyclic hx (Nat.mul_comm n _ ▸ not_le.mp hnot) htwo
    exact absurd (hmod.trans hsmall) (by decide)
  have hn : n < 2 ^ 64 :=
    calc n ≤ n * x.length := Nat.le_mul_of_pos_right n hpos
      _ ≤ intEntries := hfits
      _ < 2 ^ 64 := by decide
  exact ⟨Nat.mod_eq_of_lt hn ▸ hsmall, hfits⟩

end Run

/-- For which sizes the largest of the most common classes is returned. -/
theorem most_common_iff (x : List (BitVec w)) (numClasses : ℕ) (hclasses : 2 ≤ numClasses) (hx : x ≠ [])
    (hsize : x.length < 2 ^ (w - 1)) (hfits : numClasses < 2 ^ (w - 1)) :
    (∃ c, IsPlurality x numClasses c ∧ mostCommon x (some numClasses) = some [BitVec.ofNat w c]) ↔
      numClasses ≤ 2 ^ 30 ∧ numClasses * x.length ≤ intEntries := by
  have hpos := List.length_pos_iff.mpr hx
  have hwidth : (2 : ℕ) ^ (w - 1) ≤ 2 ^ w := Nat.pow_le_pow_right (by omega) (by omega)
  constructor
  · rintro ⟨c, -, hrun⟩
    exact fits_of_mostCommon hpos hclasses hrun
  · rintro ⟨hn, hcount⟩
    exact mostCommon_of_fits hclasses hpos hsize hfits hn hcount

theorem most_common_iff_tie :
    (∃ c, IsPlurality [2#8, 0#8, 2#8, 0#8, 1#8] 3 c ∧
      mostCommon [2#8, 0#8, 2#8, 0#8, 1#8] (some 3) = some [BitVec.ofNat 8 c]) ↔
      3 ≤ 2 ^ 30 ∧ 3 * 5 ≤ intEntries :=
  most_common_iff [2#8, 0#8, 2#8, 0#8, 1#8] 3 (by decide) (by decide) (by decide) (by decide)

/-- The table for `2 ^ 16` classes of as many elements is too large for the views. -/
theorem most_common_fails :
    ¬ ∃ c, IsPlurality (List.replicate (2 ^ 16) 0#64) (2 ^ 16) c ∧
      mostCommon (List.replicate (2 ^ 16) 0#64) (some (2 ^ 16)) = some [BitVec.ofNat 64 c] := by
  rintro ⟨c, -, hrun⟩
  have hfits := (fits_of_mostCommon (by rw [List.length_replicate]; omega) (by omega) hrun).2
  rw [List.length_replicate, intEntries] at hfits
  omega

end CryptDough.MostCommon
