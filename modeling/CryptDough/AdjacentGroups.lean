import CryptDough.SegmentedScan
import Mathlib.Data.Multiset.Dedup
import Mathlib.Data.Multiset.Fold
import Mathlib.Data.Multiset.Range

/-! Sequences in which equal keys are adjacent: the first and the last position of every group, and
the fold over a group. -/

namespace CryptDough.AdjacentGroups

open SegmentedScan

variable {κ : Type} [DecidableEq κ]

/-- The positions below `n` with one key are adjacent, as far as they are `good`. -/
structure Grouped (key : ℕ → κ) (n : ℕ) (good : ℕ → Prop) : Prop where
  lt : ∀ i, good i → i < n
  good_of_key : ∀ u t, u < n → good t → key u = key t → good u
  convex : ∀ u v t, u ≤ v → v ≤ t → good t → key u = key t → key v = key t

/-- The first position with the key of `t`. -/
def firstOf (key : ℕ → κ) (t : ℕ) : ℕ := Nat.find (⟨t, rfl⟩ : ∃ u, key u = key t)

theorem key_firstOf (key : ℕ → κ) (t : ℕ) : key (firstOf key t) = key t :=
  Nat.find_spec (⟨t, rfl⟩ : ∃ u, key u = key t)

theorem firstOf_le {key : ℕ → κ} {u t : ℕ} (heq : key u = key t) : firstOf key t ≤ u :=
  Nat.find_min' _ heq

theorem firstOf_congr {κ' : Type} [DecidableEq κ'] {key : ℕ → κ} {key' : ℕ → κ'} {t : ℕ}
    (hiff : ∀ u, u ≤ t → (key u = key t ↔ key' u = key' t)) : firstOf key t = firstOf key' t := by
  apply le_antisymm
  · exact firstOf_le ((hiff _ (firstOf_le rfl)).mpr (key_firstOf key' t))
  · exact firstOf_le ((hiff _ (firstOf_le rfl)).mp (key_firstOf key t))

variable {key : ℕ → κ} {n : ℕ} {good : ℕ → Prop}

theorem Grouped.key_eq_iff (hgroup : Grouped key n good) {t u : ℕ} (ht : good t) (hu : u ≤ t) :
    key u = key t ↔ firstOf key t ≤ u :=
  ⟨firstOf_le, fun hle => hgroup.convex _ u t hle hu ht (key_firstOf key t)⟩

theorem Grouped.segments (hgroup : Grouped key n good) :
    Segments (fun u t => decide (key u = key t)) good (firstOf key) where
  start_le t _ := firstOf_le rfl
  same_iff t ht u hu := decide_eq_true_iff.trans (hgroup.key_eq_iff ht hu)
  mem t ht u hle hu := by
    have heq := (hgroup.key_eq_iff ht hu).mpr hle
    refine ⟨hgroup.good_of_key u t (lt_of_le_of_lt hu (hgroup.lt t ht)) ht heq, ?_⟩
    exact le_antisymm (firstOf_le ((key_firstOf key t).trans heq.symm))
      (firstOf_le ((key_firstOf key u).trans heq))

/-- No earlier position with the key. -/
theorem Grouped.firstOf_eq_iff (hgroup : Grouped key n good) {t : ℕ} (ht : good t) :
    firstOf key t = t ↔ t = 0 ∨ key (t - 1) ≠ key t := by
  have hle : firstOf key t ≤ t := firstOf_le rfl
  constructor
  · intro heq
    by_contra hnot
    push Not at hnot
    have := firstOf_le hnot.2
    omega
  · intro hfirst
    by_contra hne
    have hkey := (hgroup.key_eq_iff ht (Nat.sub_le t 1)).mpr (by omega)
    rcases hfirst with rfl | hfirst
    · omega
    · exact hfirst hkey

/-- The good positions that begin a group. -/
def firsts (key : ℕ → κ) (n : ℕ) (good : ℕ → Prop) [DecidablePred good] : Multiset ℕ :=
  (Multiset.range n).filter fun i => good i ∧ (i = 0 ∨ key (i - 1) ≠ key i)

/-- The good positions that end a group. -/
def lasts (key : ℕ → κ) (n : ℕ) (good : ℕ → Prop) [DecidablePred good] : Multiset ℕ :=
  (Multiset.range n).filter fun i => good i ∧ (i + 1 = n ∨ key (i + 1) ≠ key i)

/-- One position of every key that occurs. -/
theorem map_eq_dedup [DecidablePred good] (hlt : ∀ i, good i → i < n) {s : Multiset ℕ}
    (hnodup : s.Nodup) (hgood : ∀ i ∈ s, good i)
    (hinj : ∀ i ∈ s, ∀ j ∈ s, i < j → key i ≠ key j) (hall : ∀ t, good t → ∃ i ∈ s, key i = key t) :
    s.map key = (((Multiset.range n).filter good).map key).dedup := by
  have hmap : (s.map key).Nodup := by
    refine Multiset.Nodup.map_on (fun i hi j hj heq => ?_) hnodup
    rcases lt_trichotomy i j with hij | hij | hij
    · exact absurd heq (hinj i hi j hj hij)
    · exact hij
    · exact absurd heq.symm (hinj j hj i hi hij)
  rw [Multiset.Nodup.ext hmap (Multiset.nodup_dedup _)]
  intro k
  rw [Multiset.mem_dedup, Multiset.mem_map, Multiset.mem_map]
  constructor
  · rintro ⟨i, hi, rfl⟩
    have hgood_i := hgood i hi
    exact ⟨i, Multiset.mem_filter.mpr ⟨Multiset.mem_range.mpr (hlt i hgood_i), hgood_i⟩, rfl⟩
  · rintro ⟨t, ht, rfl⟩
    exact hall t (Multiset.mem_filter.mp ht).2

theorem Grouped.map_firsts [DecidablePred good] (hgroup : Grouped key n good) :
    (firsts key n good).map key = (((Multiset.range n).filter good).map key).dedup := by
  have hmem : ∀ i, i ∈ firsts key n good ↔ i < n ∧ good i ∧ (i = 0 ∨ key (i - 1) ≠ key i) := by
    intro i
    rw [firsts, Multiset.mem_filter, Multiset.mem_range]
  refine map_eq_dedup hgroup.lt ((Multiset.nodup_range n).filter _)
    (fun i hi => ((hmem i).mp hi).2.1) (fun i _ j hj hij heq => ?_) fun t ht => ?_
  · obtain ⟨_, hgood, hfirst⟩ := (hmem j).mp hj
    have hj := (hgroup.firstOf_eq_iff hgood).mpr hfirst
    have hle := firstOf_le heq
    omega
  · have hlt := lt_of_le_of_lt (firstOf_le (rfl : key t = key t)) (hgroup.lt t ht)
    have hkey := key_firstOf key t
    have hgood := hgroup.good_of_key _ t hlt ht hkey
    have hfirst : firstOf key (firstOf key t) = firstOf key t :=
      le_antisymm (firstOf_le rfl) (firstOf_le ((key_firstOf key _).trans hkey))
    exact ⟨_, (hmem _).mpr ⟨hlt, hgood, (hgroup.firstOf_eq_iff hgood).mp hfirst⟩, hkey⟩

omit [DecidableEq κ] in
/-- Above the last position of a group its key does not occur. -/
theorem Grouped.le_of_last (hgroup : Grouped key n good) {t u : ℕ} (ht : good t)
    (hlast : t + 1 = n ∨ key (t + 1) ≠ key t) (hu : u < n) (heq : key u = key t) : u ≤ t := by
  by_contra hlt
  have hgood := hgroup.good_of_key u t hu ht heq
  have hnext := hgroup.convex t (t + 1) u (Nat.le_succ t) (by omega) hgood heq.symm
  rcases hlast with hlast | hlast
  · omega
  · exact hlast (hnext.trans heq)

/-- The last position below `n` with the key of `t`. -/
def lastOf (key : ℕ → κ) (n t : ℕ) : ℕ := Nat.findGreatest (fun u => key u = key t) (n - 1)

theorem Grouped.map_lasts [DecidablePred good] (hgroup : Grouped key n good) :
    (lasts key n good).map key = (((Multiset.range n).filter good).map key).dedup := by
  have hmem : ∀ i, i ∈ lasts key n good ↔ i < n ∧ good i ∧ (i + 1 = n ∨ key (i + 1) ≠ key i) := by
    intro i
    rw [lasts, Multiset.mem_filter, Multiset.mem_range]
  refine map_eq_dedup hgroup.lt ((Multiset.nodup_range n).filter _)
    (fun i hi => ((hmem i).mp hi).2.1) (fun i hi j hj hij heq => ?_) fun t ht => ?_
  · obtain ⟨_, hgood, hlast⟩ := (hmem i).mp hi
    have hle := hgroup.le_of_last hgood hlast ((hmem j).mp hj).1 heq.symm
    omega
  · have hlt := hgroup.lt t ht
    have hkey : key (lastOf key n t) = key t :=
      Nat.findGreatest_spec (P := fun u => key u = key t) (by omega : t ≤ n - 1) rfl
    have hle : lastOf key n t ≤ n - 1 := Nat.findGreatest_le (n - 1)
    have hgood := hgroup.good_of_key _ t (by omega) ht hkey
    refine ⟨lastOf key n t, (hmem _).mpr ⟨by omega, hgood, ?_⟩, hkey⟩
    by_contra hnot
    push Not at hnot
    exact Nat.findGreatest_is_greatest (Nat.lt_succ_self (lastOf key n t)) (by omega)
      (hnot.2.trans hkey)

variable {β : Type} {op : β → β → β}

omit [DecidableEq κ] in
theorem foldRange_eq_fold [Std.Commutative op] [Std.Associative op] {e : β} (hunit : ∀ b, op b e = b)
    (x : ℕ → β) (lo len : ℕ) : foldRange op x lo len =
      ((Multiset.range (len + 1)).map fun j => x (lo + j)).fold op e := by
  induction len with
  | zero =>
      change x lo = Multiset.fold op e {x (lo + 0)}
      rw [Multiset.fold_singleton, hunit, Nat.add_zero]
  | succ len ih =>
      rw [foldRange, ih, Multiset.range_succ (len + 1), Multiset.map_cons, Multiset.fold_cons_left]
      exact Std.Commutative.comm _ _

/-- The fold up to the last position of a group is the fold over the group. -/
theorem Grouped.foldRange_last [Std.Commutative op] [Std.Associative op] {e : β}
    (hunit : ∀ b, op b e = b) (hgroup : Grouped key n good) (x : ℕ → β) {t : ℕ} (ht : good t)
    (hlast : t + 1 = n ∨ key (t + 1) ≠ key t) :
    foldRange op x (firstOf key t) (t - firstOf key t) =
      (((Multiset.range n).filter fun u => key u = key t).map x).fold op e := by
  have hle : firstOf key t ≤ t := firstOf_le rfl
  have hlt := hgroup.lt t ht
  have hset : (Multiset.range n).filter (fun u => key u = key t) =
      (Multiset.range (t - firstOf key t + 1)).map (firstOf key t + ·) := by
    rw [Multiset.Nodup.ext ((Multiset.nodup_range n).filter _)
      ((Multiset.nodup_range _).map (add_right_injective _))]
    intro u
    rw [Multiset.mem_filter, Multiset.mem_range, Multiset.mem_map]
    constructor
    · rintro ⟨hu, heq⟩
      have hut := hgroup.le_of_last ht hlast hu heq
      have hfu := firstOf_le heq
      exact ⟨u - firstOf key t, Multiset.mem_range.mpr (by omega), by omega⟩
    · rintro ⟨j, hj, rfl⟩
      have hj := Multiset.mem_range.mp hj
      exact ⟨by omega, (hgroup.key_eq_iff ht (by omega)).mpr (by omega)⟩
  rw [foldRange_eq_fold hunit, hset, Multiset.map_map]
  rfl

/-- The reversed sequence. -/
def mirror {α : Type} (n : ℕ) (x : ℕ → α) (i : ℕ) : α := if i < n then x (n - 1 - i) else x i

omit [DecidableEq κ] in
/-- Another key with the same groups. -/
theorem Grouped.of_key_iff {κ' : Type} {key' : ℕ → κ'} (hgroup : Grouped key n good)
    (hiff : ∀ u t, key' u = key' t ↔ key u = key t) : Grouped key' n good where
  lt := hgroup.lt
  good_of_key u t hu ht heq := hgroup.good_of_key u t hu ht ((hiff u t).mp heq)
  convex u v t huv hvt ht heq := (hiff v t).mpr (hgroup.convex u v t huv hvt ht ((hiff u t).mp heq))

theorem mirror_of_lt {α : Type} {n i : ℕ} (x : ℕ → α) (hi : i < n) : mirror n x i = x (n - 1 - i) :=
  if_pos hi

theorem mirror_mirror {α : Type} (n : ℕ) (x : ℕ → α) : mirror n (mirror n x) = x := by
  ext i
  by_cases hi : i < n
  · have hsub : n - 1 - (n - 1 - i) = i := by omega
    rw [mirror_of_lt _ hi, mirror_of_lt _ (by omega), hsub]
  · simp [mirror, hi]

theorem map_mirror {α : Type} (n : ℕ) (x : ℕ → α) :
    (Multiset.range n).map (mirror n x) = (Multiset.range n).map x := by
  have hset : (Multiset.range n).map (fun i => n - 1 - i) = Multiset.range n := by
    rw [Multiset.Nodup.ext (Multiset.Nodup.map_on ?_ (Multiset.nodup_range n))
      (Multiset.nodup_range n)]
    · intro u
      rw [Multiset.mem_map, Multiset.mem_range]
      constructor
      · rintro ⟨i, hi, rfl⟩
        have hi := Multiset.mem_range.mp hi
        omega
      · exact fun hu => ⟨n - 1 - u, Multiset.mem_range.mpr (by omega), by omega⟩
    · intro i hi j hj heq
      have hi := Multiset.mem_range.mp hi
      have hj := Multiset.mem_range.mp hj
      omega
  have hmirror : (Multiset.range n).map (mirror n x) =
      ((Multiset.range n).map fun i => n - 1 - i).map x := by
    rw [Multiset.map_map]
    exact Multiset.map_congr rfl fun i hi => mirror_of_lt x (Multiset.mem_range.mp hi)
  rw [hmirror, hset]

omit [DecidableEq κ] in
theorem Grouped.mirror (hgroup : Grouped key n good) : Grouped (mirror n key) n (mirror n good) := by
  have hlt : ∀ i, AdjacentGroups.mirror n good i → i < n := by
    intro i hi
    by_contra hnot
    have hgood : good i := by simpa [AdjacentGroups.mirror, hnot] using hi
    exact hnot (hgroup.lt i hgood)
  refine ⟨hlt, fun u t hu ht heq => ?_, fun u v t huv hvt ht heq => ?_⟩
  · have htn := hlt t ht
    rw [mirror_of_lt _ htn] at ht
    rw [mirror_of_lt _ hu, mirror_of_lt _ htn] at heq
    rw [mirror_of_lt _ hu]
    exact hgroup.good_of_key _ _ (by omega) ht heq
  · have htn := hlt t ht
    have hun : u < n := lt_of_le_of_lt (huv.trans hvt) htn
    have hvn : v < n := lt_of_le_of_lt hvt htn
    rw [mirror_of_lt _ htn] at ht
    rw [mirror_of_lt _ hun, mirror_of_lt _ htn] at heq
    rw [mirror_of_lt _ hvn, mirror_of_lt _ htn, ← heq]
    have hgood := hgroup.good_of_key _ _ (by omega) ht heq
    exact hgroup.convex (n - 1 - t) (n - 1 - v) (n - 1 - u) (by omega) (by omega) hgood heq.symm

end CryptDough.AdjacentGroups
