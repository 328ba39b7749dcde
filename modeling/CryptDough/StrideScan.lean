import CryptDough.SegmentedScan
import Mathlib.Data.Multiset.Filter
import Mathlib.Data.Multiset.MapFold
import Mathlib.Data.Multiset.Range

/-! Scans by whole strides: with growing strides they are right for every associative operation, with
shrinking ones only for operations whose earlier arguments can be swapped. -/

namespace CryptDough.SegmentedScan

variable {β : Type} {op : β → β → β} {same : ℕ → ℕ → Bool} {good : ℕ → Prop} {start : ℕ → ℕ}

/-- Every position from `stride` on takes in what is `stride` before it. -/
def strideLevel (stride : ℕ) : Level where
  gap := stride
  target := fun t => stride ≤ t

/-- The strides 1, 2, 4 and so on. -/
def ascending (depth : ℕ) : List Level :=
  (List.range depth).map fun i => strideLevel (2 ^ i)

/-- The same strides, the largest one first. -/
def descending (depth : ℕ) : List Level :=
  (List.range depth).map fun i => strideLevel (2 ^ (depth - 1 - i))

theorem strideLevel_target {stride t : ℕ} : (strideLevel stride).target t = true ↔ stride ≤ t :=
  decide_eq_true_iff

/-- A stride that leaves the segment changes nothing. -/
theorem scanStep_of_far (hseg : Segments same good start) {stride t : ℕ} (ht : good t)
    (hfar : t < start t + stride) (x : ℕ → β) :
    scanStep op same (strideLevel stride) x t = x t := by
  unfold scanStep
  refine if_neg fun hboth => ?_
  obtain ⟨htarget, hsame⟩ := (Bool.and_eq_true _ _).mp hboth
  have hle : stride ≤ t := strideLevel_target.mp htarget
  have hin : start t ≤ t - stride := (hseg.same_iff t ht _ (Nat.sub_le t stride)).mp hsame
  omega

theorem scanStep_of_near (hseg : Segments same good start) {stride t : ℕ} (ht : good t)
    (hnear : start t + stride ≤ t) (x : ℕ → β) :
    scanStep op same (strideLevel stride) x t = op (x (t - stride)) (x t) := by
  have hle : stride ≤ t := by omega
  have hsame : same (t - stride) t = true :=
    (hseg.same_iff t ht _ (Nat.sub_le t stride)).mpr (by omega)
  exact if_pos ((Bool.and_eq_true _ _).mpr ⟨strideLevel_target.mpr hle, hsame⟩)

theorem scan_range_succ (level : ℕ → Level) (i : ℕ) (x : ℕ → β) :
    scan op same ((List.range (i + 1)).map level) x =
      scanStep op same (level i) (scan op same ((List.range i).map level) x) := by
  rw [List.range_succ, List.map_append, scan, List.foldl_append]
  rfl

section Ascending

theorem scan_ascending_covered [Std.Associative op] (hseg : Segments same good start) (i : ℕ)
    (x₀ : ℕ → β) : ∀ t, good t → Covered op start x₀ (scan op same (ascending i) x₀) t (2 ^ i) := by
  induction i with
  | zero =>
      intro t ht
      have hst := hseg.start_le t ht
      have hstart : coverStart start t (2 ^ 0) = t := by
        unfold coverStart
        omega
      rw [Covered, hstart, Nat.sub_self]
      rfl
  | succ i ih =>
      intro t ht
      have hstep : scan op same (ascending (i + 1)) x₀ =
          scanStep op same (strideLevel (2 ^ i)) (scan op same (ascending i) x₀) :=
        scan_range_succ (fun i => strideLevel (2 ^ i)) i x₀
      rw [hstep, ← two_mul_two_pow, two_mul]
      have hpos := Nat.two_pow_pos i
      by_cases hle : 2 ^ i ≤ t
      · exact Covered.merge hseg rfl ht (strideLevel_target.mpr hle) hpos hle hpos (ih t ht)
          fun hgood => ih _ hgood
      · -- the whole segment is covered already
        have hsame : coverStart start t (2 ^ i + 2 ^ i) = coverStart start t (2 ^ i) := by
          unfold coverStart
          omega
        have hkeep := @Covered.keep _ op same _ _ _ _ _ _ (ih t ht) fun htrue =>
          hle (strideLevel_target.mp htrue)
        rwa [Covered, hsame]

/-- Growing strides leave the fold of the segment up to `t` at every good position `t`. -/
theorem scan_ascending [Std.Associative op] (hseg : Segments same good start) {depth : ℕ}
    (x₀ : ℕ → β) {t : ℕ} (ht : good t) (htn : t < 2 ^ depth) :
    scan op same (ascending depth) x₀ t = foldRange op x₀ (start t) (t - start t) := by
  have hcovered := @scan_ascending_covered _ op _ _ _ _ hseg depth x₀ t ht
  have hstart : coverStart start t (2 ^ depth) = start t := by
    unfold coverStart
    omega
  rwa [Covered, hstart] at hcovered

end Ascending

section Descending

/-- The first `i` of the shrinking strides. -/
def descendingTo (depth i : ℕ) : List Level :=
  (List.range i).map fun i => strideLevel (2 ^ (depth - 1 - i))

theorem scan_descendingTo_succ (depth i : ℕ) (x : ℕ → β) :
    scan op same (descendingTo depth (i + 1)) x =
      scanStep op same (strideLevel (2 ^ (depth - 1 - i)))
        (scan op same (descendingTo depth i) x) :=
  scan_range_succ (fun i => strideLevel (2 ^ (depth - 1 - i))) i x

/-- As long as the strides are longer than the segment so far, nothing happens. -/
theorem scan_descendingTo_of_far (hseg : Segments same good start) {depth i t : ℕ}
    (hi : i ≤ depth) (ht : good t) (hfar : t < start t + 2 ^ (depth - i)) (x : ℕ → β) :
    scan op same (descendingTo depth i) x t = x t := by
  induction i with
  | zero => rfl
  | succ i ih =>
      have hindex : depth - i = depth - 1 - i + 1 := by omega
      have hindex' : depth - (i + 1) = depth - 1 - i := by omega
      rw [hindex'] at hfar
      rw [scan_descendingTo_succ, scanStep_of_far hseg ht hfar]
      apply ih (by omega)
      rw [hindex, ← two_mul_two_pow]
      omega

/-- The second position of a segment. -/
theorem scan_descending_of_short (hseg : Segments same good start) {depth t : ℕ}
    (hdepth : 0 < depth) (ht : good t) (hshort : t ≤ start t + 1) (x : ℕ → β) :
    scan op same (descending depth) x t = foldRange op x (start t) (t - start t) := by
  obtain ⟨m, rfl⟩ : ∃ m, depth = m + 1 := ⟨depth - 1, by omega⟩
  have hst := hseg.start_le t ht
  have hone : m + 1 - m = 1 := by omega
  have hlast : scan op same (descending (m + 1)) x =
      scanStep op same (strideLevel (2 ^ (m + 1 - 1 - m)))
        (scan op same (descendingTo (m + 1) m) x) := scan_descendingTo_succ (m + 1) m x
  have hstride : 2 ^ (m + 1 - 1 - m) = 1 := by
    rw [Nat.add_sub_cancel, Nat.sub_self, Nat.pow_zero]
  rw [hlast, hstride]
  have hkeep : ∀ u, good u → u ≤ start u + 1 →
      scan op same (descendingTo (m + 1) m) x u = x u := fun u hu hle =>
    scan_descendingTo_of_far hseg (Nat.le_succ m) hu (by rw [hone]; omega) x
  by_cases hfirst : t = start t
  · rw [scanStep_of_far hseg ht (by omega), hkeep t ht hshort, ← hfirst, Nat.sub_self]
    rfl
  · have hnear : start t + 1 ≤ t := by omega
    obtain ⟨hgood, hstart⟩ := hseg.mem t ht (t - 1) (by omega) (Nat.sub_le t 1)
    have hsecond : t = start t + 0 + 1 := by omega
    have hlen : t - start t = 1 := by omega
    rw [scanStep_of_near hseg ht hnear, hkeep t ht hshort, hkeep _ hgood (by omega), hlen, foldRange,
      ← hsecond, foldRange]
    congr 2
    omega

/-- The third position of a segment has its first two positions in the wrong order. -/
theorem scan_descending_third (hseg : Segments same good start) {depth t : ℕ}
    (hdepth : 2 ≤ depth) (ht : good t) (hthird : t = start t + 2) (x : ℕ → β) :
    scan op same (descending depth) x t = op (x (t - 1)) (op (x (t - 2)) (x t)) := by
  obtain ⟨m, rfl⟩ : ∃ m, depth = m + 2 := ⟨depth - 2, by omega⟩
  have htwo : m + 2 - m = 2 := by omega
  have hkeep : ∀ u, good u → u ≤ start u + 2 →
      scan op same (descendingTo (m + 2) m) x u = x u := fun u hu hle =>
    scan_descendingTo_of_far hseg (by omega) hu (by rw [htwo]; omega) x
  have hsplit : scan op same (descending (m + 2)) x =
      scanStep op same (strideLevel (2 ^ (m + 2 - 1 - (m + 1))))
        (scanStep op same (strideLevel (2 ^ (m + 2 - 1 - m)))
          (scan op same (descendingTo (m + 2) m) x)) := by
    rw [← scan_descendingTo_succ, ← scan_descendingTo_succ]
    rfl
  have hsecond : 2 ^ (m + 2 - 1 - m) = 2 := by
    have hexp : m + 2 - 1 - m = 1 := by omega
    rw [hexp, Nat.pow_one]
  have hfirst : 2 ^ (m + 2 - 1 - (m + 1)) = 1 := by
    have hexp : m + 2 - 1 - (m + 1) = 0 := by omega
    rw [hexp, Nat.pow_zero]
  obtain ⟨hgood, hstart⟩ := hseg.mem t ht (t - 1) (by omega) (Nat.sub_le t 1)
  obtain ⟨hgood', hstart'⟩ := hseg.mem t ht (t - 2) (by omega) (Nat.sub_le t 2)
  rw [hsplit, hfirst, hsecond, scanStep_of_near hseg ht (by omega),
    scanStep_of_far hseg hgood (by omega), scanStep_of_near hseg ht (by omega),
    hkeep t ht (by omega), hkeep _ hgood (by omega), hkeep _ hgood' (by omega)]

/-- The earlier positions of the segment at multiples of `g` from `t`. -/
def spread (start : ℕ → ℕ) (t g : ℕ) : Multiset ℕ :=
  (Multiset.range t).filter fun u => start t ≤ u ∧ g ∣ t - u

theorem mem_spread {t g u : ℕ} : u ∈ spread start t g ↔ u < t ∧ start t ≤ u ∧ g ∣ t - u := by
  rw [spread, Multiset.mem_filter, Multiset.mem_range]

theorem nodup_spread (start : ℕ → ℕ) (t g : ℕ) : (spread start t g).Nodup :=
  (Multiset.nodup_range t).filter _

/-- At `t` the positions at multiples of `g` before it are reached, in any order. -/
def Reached (op : β → β → β) [LeftCommutative op] (start : ℕ → ℕ) (x₀ x : ℕ → β) (t g : ℕ) : Prop :=
  x t = ((spread start t g).map x₀).foldr op (x₀ t)

theorem spread_of_far {t h : ℕ} (hfar : t < start t + h) : spread start t h = 0 := by
  refine Multiset.eq_zero_of_forall_notMem fun u hu => ?_
  obtain ⟨hut, hle, hdvd⟩ := mem_spread.mp hu
  have hbound := Nat.le_of_dvd (by omega) hdvd
  omega

/-- Half the distance: the old positions, and those of the position `h` before. -/
theorem spread_half (hseg : Segments same good start) {t h : ℕ} (ht : good t) (hpos : 0 < h)
    (hnear : start t + h ≤ t) :
    spread start t h = spread start t (2 * h) + ((t - h) ::ₘ spread start (t - h) (2 * h)) := by
  obtain ⟨-, hstart⟩ := hseg.mem t ht (t - h) (by omega) (Nat.sub_le t h)
  have hsplit := Multiset.filter_add_not (fun u => 2 * h ∣ t - u) (spread start t h)
  have heven : (spread start t h).filter (fun u => 2 * h ∣ t - u) = spread start t (2 * h) := by
    rw [Multiset.Nodup.ext ((nodup_spread start t h).filter _) (nodup_spread start t (2 * h))]
    intro u
    rw [Multiset.mem_filter, mem_spread, mem_spread]
    constructor
    · rintro ⟨⟨hut, hle, -⟩, hdvd⟩
      exact ⟨hut, hle, hdvd⟩
    · rintro ⟨hut, hle, hdvd⟩
      exact ⟨⟨hut, hle, (Nat.dvd_mul_left h 2).trans hdvd⟩, hdvd⟩
  have hnot : t - h ∉ spread start (t - h) (2 * h) := fun hmem =>
    absurd (mem_spread.mp hmem).1 (Nat.lt_irrefl _)
  have hodd : (spread start t h).filter (fun u => ¬ 2 * h ∣ t - u) =
      (t - h) ::ₘ spread start (t - h) (2 * h) := by
    rw [Multiset.Nodup.ext ((nodup_spread start t h).filter _)
      (Multiset.nodup_cons.mpr ⟨hnot, nodup_spread start (t - h) (2 * h)⟩)]
    intro u
    rw [Multiset.mem_filter, mem_spread, Multiset.mem_cons, mem_spread, hstart]
    constructor
    · rintro ⟨⟨hut, hle, hdvd⟩, hodd⟩
      have hbound := Nat.le_of_dvd (by omega) hdvd
      rcases Nat.eq_or_lt_of_le (by omega : u ≤ t - h) with heq | hlt
      · exact Or.inl heq
      · refine Or.inr ⟨hlt, hle, ?_⟩
        have heq : t - h - u = t - u - h := by omega
        rw [heq]
        exact two_mul_dvd_sub hdvd hodd
    · rintro (rfl | ⟨hut, hle, hdvd⟩)
      · have heq : t - (t - h) = h := by omega
        rw [heq]
        refine ⟨⟨by omega, by omega, dvd_rfl⟩, fun hbad => ?_⟩
        have := Nat.le_of_dvd hpos hbad
        omega
      · have heq : t - u = t - h - u + h := by omega
        have hself : h ∣ t - h - u := (Nat.dvd_mul_left h 2).trans hdvd
        refine ⟨⟨by omega, hle, ?_⟩, fun hbad => ?_⟩
        · rw [heq]
          exact Nat.dvd_add hself dvd_rfl
        · rw [heq] at hbad
          have := Nat.le_of_dvd hpos ((Nat.dvd_add_right hdvd).mp hbad)
          omega
  rw [← hsplit, heven, hodd]

theorem op_foldr [Std.Associative op] [LeftCommutative op] (s : Multiset β) (a b : β) :
    op (s.foldr op a) b = (a ::ₘ s).foldr op b := by
  induction s using Multiset.induction with
  | empty => simp
  | cons d s ih =>
      rw [Multiset.foldr_cons, @Std.Associative.assoc _ op, ih, Multiset.cons_swap,
        Multiset.foldr_cons op b d]

theorem Reached.step [Std.Associative op] [LeftCommutative op] (hseg : Segments same good start)
    {x₀ x : ℕ → β} {h : ℕ} (hpos : 0 < h)
    (hx : ∀ t, good t → Reached op start x₀ x t (2 * h)) :
    ∀ t, good t → Reached op start x₀ (scanStep op same (strideLevel h) x) t h := by
  intro t ht
  have hxt : x t = ((spread start t (2 * h)).map x₀).foldr op (x₀ t) := hx t ht
  unfold Reached
  by_cases hnear : start t + h ≤ t
  · obtain ⟨hgood, -⟩ := hseg.mem t ht (t - h) (by omega) (Nat.sub_le t h)
    have hxs : x (t - h) = ((spread start (t - h) (2 * h)).map x₀).foldr op (x₀ (t - h)) :=
      hx _ hgood
    rw [scanStep_of_near hseg ht hnear, hxt, hxs, spread_half hseg ht hpos hnear,
      @op_foldr _ op,
      Multiset.map_add, Multiset.map_cons, Multiset.add_comm, Multiset.foldr_add]
  · have hfar : t < start t + h := by omega
    rw [scanStep_of_far hseg ht hfar, hxt, spread_of_far hfar, spread_of_far (by omega)]

theorem foldRange_eq_foldr [Std.Associative op] [LeftCommutative op] (x : ℕ → β) (lo len : ℕ) :
    foldRange op x lo len =
      ((Multiset.range len).map fun j => x (lo + j)).foldr op (x (lo + len)) := by
  induction len with
  | zero => rfl
  | succ len ih =>
      rw [foldRange, ih, @op_foldr _ op, Multiset.range_succ, Multiset.map_cons]
      rfl

theorem spread_one {t : ℕ} (hst : start t ≤ t) :
    spread start t 1 = (Multiset.range (t - start t)).map (start t + ·) := by
  rw [Multiset.Nodup.ext (nodup_spread start t 1)
    ((Multiset.nodup_range _).map (add_right_injective _))]
  intro u
  rw [mem_spread, Multiset.mem_map]
  constructor
  · rintro ⟨hut, hle, -⟩
    exact ⟨u - start t, Multiset.mem_range.mpr (by omega), by omega⟩
  · rintro ⟨j, hj, rfl⟩
    have hj := Multiset.mem_range.mp hj
    exact ⟨by omega, by omega, one_dvd _⟩

/-- Shrinking strides are right if the order of the earlier arguments does not matter. -/
theorem scan_descending [Std.Associative op] [LeftCommutative op] {depth : ℕ}
    (hseg : Segments same (fun t => good t ∧ t < 2 ^ depth) start) (x₀ : ℕ → β) {t : ℕ}
    (ht : good t) (htn : t < 2 ^ depth) :
    scan op same (descending depth) x₀ t = foldRange op x₀ (start t) (t - start t) := by
  have hall : ∀ i, i ≤ depth → ∀ t, good t ∧ t < 2 ^ depth →
      Reached op start x₀ (scan op same (descendingTo depth i) x₀) t (2 ^ (depth - i)) := by
    intro i
    induction i with
    | zero =>
        rintro - t ⟨ht, htn⟩
        rw [Reached, spread_of_far (by rw [Nat.sub_zero]; omega)]
        rfl
    | succ i ih =>
        intro hi
        have hindex : depth - i = depth - 1 - i + 1 := by omega
        have hindex' : depth - (i + 1) = depth - 1 - i := by omega
        have hprev := ih (by omega)
        rw [hindex] at hprev
        rw [hindex', scan_descendingTo_succ]
        refine Reached.step hseg (Nat.two_pow_pos _) fun u hu => ?_
        rw [two_mul_two_pow]
        exact hprev u hu
  have hst := hseg.start_le t ⟨ht, htn⟩
  have hreached : scan op same (descending depth) x₀ t =
      ((spread start t (2 ^ (depth - depth))).map x₀).foldr op (x₀ t) :=
    hall depth (le_refl depth) t ⟨ht, htn⟩
  have hend : start t + (t - start t) = t := by omega
  rw [hreached, Nat.sub_self, Nat.pow_zero, spread_one hst, Multiset.map_map, foldRange_eq_foldr,
    hend]
  rfl

end Descending

end CryptDough.SegmentedScan
