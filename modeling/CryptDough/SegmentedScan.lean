import Mathlib.Algebra.Order.Ring.Nat
import Mathlib.Data.Finset.Basic
import Mathlib.Tactic.IntervalCases
import Mathlib.Tactic.Ring

/-! Scans over the segments of a sequence by a prefix network: every position ends with the fold of
its segment up to itself, for any associative operation. -/

namespace CryptDough.SegmentedScan

variable {β : Type} (op : β → β → β)

/-- `x lo op … op x (lo + len)`, associated to the left. -/
def foldRange (x : ℕ → β) (lo : ℕ) : ℕ → β
  | 0 => x lo
  | len + 1 => op (foldRange x lo len) (x (lo + len + 1))

theorem foldRange_congr {x y : ℕ → β} {lo len : ℕ} (heq : ∀ j, lo ≤ j → j ≤ lo + len → x j = y j) :
    foldRange op x lo len = foldRange op y lo len := by
  induction len with
  | zero => exact heq lo (le_refl _) (le_refl _)
  | succ len ih =>
      rw [foldRange, foldRange, ih fun j hlo hj => heq j hlo (by omega),
        heq (lo + len + 1) (by omega) (by omega)]

theorem foldRange_append [hop : Std.Associative op] (x : ℕ → β) (lo m k : ℕ) :
    op (foldRange op x lo m) (foldRange op x (lo + m + 1) k) = foldRange op x lo (m + k + 1) := by
  induction k with
  | zero => rfl
  | succ k ih =>
      rw [foldRange, ← hop.assoc, ih, ← Nat.add_assoc m k 1, foldRange]
      congr 2
      omega

/-- A level of a network: where it writes, and how far before that it reads. -/
structure Level where
  gap : ℕ
  target : ℕ → Bool

/-- The targets take in what they read, if it is in the same segment. -/
def scanStep (same : ℕ → ℕ → Bool) (l : Level) (x : ℕ → β) : ℕ → β := fun t =>
  if l.target t && same (t - l.gap) t then op (x (t - l.gap)) (x t) else x t

/-- In the first half of the network blocks of doubling length are reduced into their last position,
in the second half the results are distributed. -/
def brentKungLevel (halfDepth i : ℕ) : Level :=
  if i < halfDepth then
    { gap := 2 ^ i
      target := fun t => (t + 1) % (2 * 2 ^ i) = 0 }
  else
    { gap := 2 ^ (2 * halfDepth - 2 - i)
      target := fun t => (t + 1) % (2 * 2 ^ (2 * halfDepth - 2 - i)) = 2 ^ (2 * halfDepth - 2 - i) ∧
        3 * 2 ^ (2 * halfDepth - 2 - i) ≤ t + 1 }

def brentKung (halfDepth : ℕ) : List Level :=
  (List.range (2 * halfDepth - 1)).map (brentKungLevel halfDepth)

def scan (same : ℕ → ℕ → Bool) (levels : List Level) (x : ℕ → β) : ℕ → β :=
  levels.foldl (fun x l => scanStep op same l x) x

/-- The positions `t` that are `good` belong to a segment that begins at `start t`. -/
structure Segments (same : ℕ → ℕ → Bool) (good : ℕ → Prop) (start : ℕ → ℕ) : Prop where
  start_le : ∀ t, good t → start t ≤ t
  same_iff : ∀ t, good t → ∀ u, u ≤ t → (same u t = true ↔ start t ≤ u)
  mem : ∀ t, good t → ∀ u, start t ≤ u → u ≤ t → good u ∧ start u = start t

variable {op} {same : ℕ → ℕ → Bool} {good : ℕ → Prop} {start : ℕ → ℕ}

/-- The first of the last `len` positions up to `t` that is in the segment of `t`. -/
def coverStart (start : ℕ → ℕ) (t len : ℕ) : ℕ := max (start t) (t + 1 - len)

/-- At `t` the fold over the last `len` positions, as far as they are in the segment, is reached. -/
def Covered (op : β → β → β) (start : ℕ → ℕ) (x₀ x : ℕ → β) (t len : ℕ) : Prop :=
  x t = foldRange op x₀ (coverStart start t len) (t - coverStart start t len)

theorem scanStep_of_not_target (l : Level) (x : ℕ → β) {t : ℕ} (ht : l.target t = false) :
    scanStep op same l x t = x t := by
  simp [scanStep, ht]

theorem Covered.merge [Std.Associative op] (hseg : Segments same good start) {x₀ x : ℕ → β}
    {l : Level} {gap t len : ℕ} (hlevel : l.gap = gap) (ht : good t) (htarget : l.target t = true)
    (hgap : 0 < gap) (hle : gap ≤ t) (hlen : 0 < len) (hself : Covered op start x₀ x t gap)
    (hsource : good (t - gap) → Covered op start x₀ x (t - gap) len) :
    Covered op start x₀ (scanStep op same l x) t (gap + len) := by
  subst hlevel
  have hst := hseg.start_le t ht
  have hiff := hseg.same_iff t ht (t - l.gap) (Nat.sub_le t l.gap)
  unfold Covered scanStep
  rw [htarget, Bool.true_and]
  by_cases hin : start t ≤ t - l.gap
  · obtain ⟨hgood, hstart⟩ := hseg.mem t ht (t - l.gap) hin (Nat.sub_le t l.gap)
    have hsrc := hsource hgood
    rw [if_pos (hiff.mpr hin), hsrc, hself]
    have hself_start : coverStart start t l.gap = t - l.gap + 1 := by
      unfold coverStart
      omega
    have hsrc_start : coverStart start (t - l.gap) len = coverStart start t (l.gap + len) := by
      unfold coverStart
      rw [hstart]
      omega
    have hbound : coverStart start t (l.gap + len) ≤ t - l.gap := by
      unfold coverStart
      omega
    rw [hself_start, hsrc_start]
    have happend := foldRange_append op x₀ (coverStart start t (l.gap + len))
      (t - l.gap - coverStart start t (l.gap + len)) (t - (t - l.gap + 1))
    have hmid : coverStart start t (l.gap + len) + (t - l.gap - coverStart start t (l.gap + len)) + 1 =
        t - l.gap + 1 := by omega
    rw [hmid] at happend
    rw [happend]
    congr 1
    omega
  · rw [if_neg fun hsame => hin (hiff.mp hsame), hself]
    have hself_start : coverStart start t l.gap = start t := by
      unfold coverStart
      omega
    have hnew_start : coverStart start t (l.gap + len) = start t := by
      unfold coverStart
      omega
    rw [hself_start, hnew_start]

theorem Covered.keep {x₀ x : ℕ → β} {l : Level} {t len : ℕ} (hx : Covered op start x₀ x t len)
    (ht : ¬ l.target t = true) : Covered op start x₀ (scanStep op same l x) t len := by
  unfold Covered at hx ⊢
  rw [scanStep_of_not_target l x (Bool.eq_false_iff.mpr ht), hx]

/-- The length of the block that ends at `t` after `i` levels of reduction. -/
def blockLen : ℕ → ℕ → ℕ
  | 0, _ => 1
  | i + 1, t => if 2 ^ (i + 1) ∣ t + 1 then 2 ^ (i + 1) else blockLen i t

theorem blockLen_of_dvd {i t : ℕ} (hdvd : 2 ^ i ∣ t + 1) : blockLen i t = 2 ^ i := by
  cases i with
  | zero => rfl
  | succ i => rw [blockLen, if_pos hdvd]

/-- A position that is not a multiple of more than `2 ^ i` keeps its block. -/
theorem blockLen_of_not_dvd {i t : ℕ} (hdvd : 2 ^ i ∣ t + 1) (hnot : ¬ 2 ^ (i + 1) ∣ t + 1) {m : ℕ}
    (hm : i ≤ m) : blockLen m t = 2 ^ i := by
  induction m, hm using Nat.le_induction with
  | base => exact blockLen_of_dvd hdvd
  | succ m hm ih =>
      rw [blockLen, if_neg, ih]
      exact fun hbad => hnot ((Nat.pow_dvd_pow 2 (Nat.succ_le_succ hm)).trans hbad)

theorem dvd_sub_gap {g t : ℕ} (hdvd : g ∣ t + 1) (hle : g ≤ t) : g ∣ t - g + 1 := by
  have heq : t - g + 1 = t + 1 - g := by omega
  rw [heq]
  exact Nat.dvd_sub hdvd dvd_rfl

theorem mod_two_mul_eq_iff {g m : ℕ} (hg : 0 < g) : m % (2 * g) = g ↔ g ∣ m ∧ ¬ 2 * g ∣ m := by
  constructor
  · intro hmod
    constructor
    · rw [← Nat.div_add_mod m (2 * g), hmod, Nat.mul_assoc]
      exact Nat.dvd_add ⟨2 * (m / (2 * g)), by rw [Nat.mul_left_comm]⟩ dvd_rfl
    · intro hdvd
      rw [Nat.dvd_iff_mod_eq_zero, hmod] at hdvd
      omega
  · rintro ⟨⟨k, rfl⟩, hnot⟩
    rw [Nat.mul_comm 2 g, Nat.mul_mod_mul_left]
    rcases Nat.mod_two_eq_zero_or_one k with hk | hk
    · exact absurd (by rw [Nat.mul_comm 2 g]; exact Nat.mul_dvd_mul_left g (Nat.dvd_of_mod_eq_zero hk))
        hnot
    · rw [hk, Nat.mul_one]

theorem two_mul_dvd_sub {g m : ℕ} (hdvd : g ∣ m) (hnot : ¬ 2 * g ∣ m) : 2 * g ∣ m - g := by
  obtain ⟨k, rfl⟩ := hdvd
  rcases Nat.even_or_odd' k with ⟨c, rfl | rfl⟩
  · exact absurd ⟨c, by ring⟩ hnot
  · refine ⟨c, ?_⟩
    rw [Nat.mul_add, Nat.mul_one, Nat.add_sub_cancel]
    ring

theorem eq_of_lt_three_mul {g m : ℕ} (hm : 0 < m) (hdvd : g ∣ m) (hnot : ¬ 2 * g ∣ m)
    (hlt : m < 3 * g) : m = g := by
  obtain ⟨k, rfl⟩ := hdvd
  have hk : k < 3 := by
    by_contra hge
    have hmul := Nat.mul_le_mul_left g (not_lt.mp hge)
    omega
  interval_cases k
  · omega
  · exact Nat.mul_one g
  · exact absurd ⟨1, by ring⟩ hnot

theorem two_mul_two_pow (i : ℕ) : 2 * 2 ^ i = 2 ^ (i + 1) := by rw [Nat.pow_succ, Nat.mul_comm]

theorem brentKungLevel_reduce {halfDepth i : ℕ} (hi : i < halfDepth) (t : ℕ) :
    (brentKungLevel halfDepth i).gap = 2 ^ i ∧
      ((brentKungLevel halfDepth i).target t = true ↔ 2 * 2 ^ i ∣ t + 1) := by
  rw [brentKungLevel, if_pos hi]
  exact ⟨rfl, decide_eq_true_iff.trans Nat.dvd_iff_mod_eq_zero.symm⟩

theorem brentKungLevel_distribute {halfDepth i : ℕ} (hi : i + 2 ≤ halfDepth) (t : ℕ) :
    (brentKungLevel halfDepth (2 * halfDepth - 2 - i)).gap = 2 ^ i ∧
      ((brentKungLevel halfDepth (2 * halfDepth - 2 - i)).target t = true ↔
        (2 ^ i ∣ t + 1 ∧ ¬ 2 * 2 ^ i ∣ t + 1) ∧ 3 * 2 ^ i ≤ t + 1) := by
  have hindex : 2 * halfDepth - 2 - (2 * halfDepth - 2 - i) = i := by omega
  rw [brentKungLevel, if_neg (by omega), hindex, ← mod_two_mul_eq_iff (Nat.two_pow_pos i)]
  exact ⟨rfl, decide_eq_true_iff⟩

theorem reduce_step [Std.Associative op] (hseg : Segments same good start) {x₀ x : ℕ → β}
    {halfDepth i : ℕ} (hi : i < halfDepth)
    (hx : ∀ t, good t → Covered op start x₀ x t (blockLen i t)) :
    ∀ t, good t → Covered op start x₀ (scanStep op same (brentKungLevel halfDepth i) x) t
      (blockLen (i + 1) t) := by
  intro t ht
  have hpos := Nat.two_pow_pos i
  obtain ⟨hgap, htarget⟩ := brentKungLevel_reduce hi t
  rw [blockLen, ← two_mul_two_pow]
  by_cases hdvd : 2 * 2 ^ i ∣ t + 1
  · have hle : 2 * 2 ^ i ≤ t + 1 := Nat.le_of_dvd (Nat.succ_pos t) hdvd
    have hself : 2 ^ i ∣ t + 1 := (Nat.dvd_mul_left _ 2).trans hdvd
    have hsource := dvd_sub_gap hself (by omega)
    rw [if_pos hdvd, two_mul]
    refine Covered.merge hseg hgap ht (htarget.mpr hdvd) hpos (by omega) hpos ?_ fun hgood => ?_
    · have hxt := hx t ht
      rwa [blockLen_of_dvd hself] at hxt
    · have hxs := hx _ hgood
      rwa [blockLen_of_dvd hsource] at hxs
  · rw [if_neg hdvd]
    exact (hx t ht).keep fun htrue => hdvd (htarget.mp htrue)

/-- The multiples of `2 ^ i` have their whole segment, the other positions their block. -/
def Distributed (op : β → β → β) (good : ℕ → Prop) (start : ℕ → ℕ) (halfDepth i : ℕ)
    (x₀ x : ℕ → β) : Prop :=
  ∀ t, good t → t < 2 ^ halfDepth →
    Covered op start x₀ x t (if 2 ^ i ∣ t + 1 then t + 1 else blockLen halfDepth t)

theorem distribute_step [Std.Associative op] (hseg : Segments same good start) {x₀ x : ℕ → β}
    {halfDepth i : ℕ} (hi : i + 2 ≤ halfDepth)
    (hx : Distributed op good start halfDepth (i + 1) x₀ x) :
    Distributed op good start halfDepth i x₀
      (scanStep op same (brentKungLevel halfDepth (2 * halfDepth - 2 - i)) x) := by
  intro t ht htn
  obtain ⟨hgap, htarget⟩ := brentKungLevel_distribute hi t
  have hxt := hx t ht htn
  rw [← two_mul_two_pow] at hxt
  by_cases hdvd : 2 ^ i ∣ t + 1
  · rw [if_pos hdvd]
    by_cases hdvd' : 2 * 2 ^ i ∣ t + 1
    · rw [if_pos hdvd'] at hxt
      exact hxt.keep fun htrue => (htarget.mp htrue).1.2 hdvd'
    · rw [if_neg hdvd', blockLen_of_not_dvd hdvd (two_mul_two_pow i ▸ hdvd') (by omega)] at hxt
      by_cases hlarge : 3 * 2 ^ i ≤ t + 1
      · have hlen : t + 1 = 2 ^ i + (t - 2 ^ i + 1) := by omega
        rw [hlen]
        refine Covered.merge hseg hgap ht (htarget.mpr ⟨⟨hdvd, hdvd'⟩, hlarge⟩) (Nat.two_pow_pos i)
          (by omega) (Nat.succ_pos _) hxt fun hgood => ?_
        have hsrc := hx _ hgood (by omega)
        have heven : 2 ^ (i + 1) ∣ t - 2 ^ i + 1 := by
          have heq : t - 2 ^ i + 1 = t + 1 - 2 ^ i := by omega
          rw [heq, ← two_mul_two_pow]
          exact two_mul_dvd_sub hdvd hdvd'
        rwa [if_pos heven] at hsrc
      · have hone := eq_of_lt_three_mul (Nat.succ_pos t) hdvd hdvd' (not_le.mp hlarge)
        rw [← hone] at hxt
        exact hxt.keep fun htrue => hlarge (htarget.mp htrue).2
  · rw [if_neg hdvd]
    rw [if_neg fun hbad => hdvd ((Nat.dvd_mul_left _ 2).trans hbad)] at hxt
    exact hxt.keep fun htrue => hdvd (htarget.mp htrue).1.1

theorem scan_succ (halfDepth i : ℕ) (x : ℕ → β) :
    scan op same ((List.range (i + 1)).map (brentKungLevel halfDepth)) x =
      scanStep op same (brentKungLevel halfDepth i)
        (scan op same ((List.range i).map (brentKungLevel halfDepth)) x) := by
  rw [List.range_succ, List.map_append, scan, List.foldl_append]
  rfl

theorem scan_reduce [Std.Associative op] (hseg : Segments same good start) {halfDepth i : ℕ}
    (hi : i ≤ halfDepth) (x₀ : ℕ → β) :
    ∀ t, good t → Covered op start x₀
      (scan op same ((List.range i).map (brentKungLevel halfDepth)) x₀) t (blockLen i t) := by
  induction i with
  | zero =>
      intro t ht
      have hst := hseg.start_le t ht
      have hstart : coverStart start t 1 = t := by
        unfold coverStart
        omega
      rw [blockLen, Covered, hstart, Nat.sub_self]
      rfl
  | succ i ih =>
      rw [scan_succ]
      exact reduce_step hseg hi (ih (by omega))

theorem scan_distribute [Std.Associative op] (hseg : Segments same good start) {m j : ℕ}
    (hj : j ≤ m) (x₀ : ℕ → β) :
    Distributed op good start (m + 1) (m - j) x₀
      (scan op same ((List.range (m + 1 + j)).map (brentKungLevel (m + 1))) x₀) := by
  induction j with
  | zero =>
      intro t ht htn
      have hxt : Covered op start x₀
          (scan op same ((List.range (m + 1)).map (brentKungLevel (m + 1))) x₀) t
          (blockLen (m + 1) t) := scan_reduce hseg (le_refl (m + 1)) x₀ t ht
      rw [Nat.sub_zero, Nat.add_zero]
      split
      · rename_i hdvd
        by_cases hdvd' : 2 ^ (m + 1) ∣ t + 1
        · have hone : t + 1 = 2 ^ (m + 1) :=
            le_antisymm (by omega) (Nat.le_of_dvd (Nat.succ_pos t) hdvd')
          rwa [blockLen_of_dvd hdvd', ← hone] at hxt
        · have hone : t + 1 = 2 ^ m := by
            have hpos := Nat.two_pow_pos m
            rw [← two_mul_two_pow] at hdvd' htn
            exact eq_of_lt_three_mul (Nat.succ_pos t) hdvd hdvd' (by omega)
          rwa [blockLen_of_not_dvd hdvd hdvd' (Nat.le_succ m), ← hone] at hxt
      · exact hxt
  | succ j ih =>
      have hprev := ih (by omega)
      have hindex : m - j = m - (j + 1) + 1 := by omega
      have hlevel : 2 * (m + 1) - 2 - (m - (j + 1)) = m + 1 + j := by omega
      rw [hindex] at hprev
      have hstep := distribute_step hseg (by omega) hprev
      rw [hlevel] at hstep
      rw [← Nat.add_assoc, scan_succ]
      exact hstep

/-- The network leaves the fold of the segment up to `t` at every good position `t`. -/
theorem scan_brentKung [Std.Associative op] (hseg : Segments same good start) {halfDepth : ℕ}
    (hpos : 0 < halfDepth) (x₀ : ℕ → β) {t : ℕ} (ht : good t) (htn : t < 2 ^ halfDepth) :
    scan op same (brentKung halfDepth) x₀ t = foldRange op x₀ (start t) (t - start t) := by
  obtain ⟨m, rfl⟩ : ∃ m, halfDepth = m + 1 := ⟨halfDepth - 1, by omega⟩
  have hdistributed : Distributed op good start (m + 1) (m - m) x₀
      (scan op same ((List.range (m + 1 + m)).map (brentKungLevel (m + 1))) x₀) :=
    scan_distribute hseg (le_refl m) x₀
  have hall := hdistributed t ht htn
  have hlen : m + 1 + m = 2 * (m + 1) - 1 := by omega
  have hstart : coverStart start t (t + 1) = start t := by
    unfold coverStart
    omega
  rw [Nat.sub_self, pow_zero, if_pos (one_dvd _), Covered, hstart, hlen] at hall
  exact hall

/-- Two sequences that agree below `n` still do after the same levels. -/
theorem scan_congr {same' : ℕ → ℕ → Bool} {n : ℕ} {levels : List Level} {x y : ℕ → β}
    (hsame : ∀ l ∈ levels, ∀ t, t < n → same (t - l.gap) t = same' (t - l.gap) t)
    (hxy : ∀ t, t < n → x t = y t) :
    ∀ t, t < n → scan op same levels x t = scan op same' levels y t := by
  induction levels generalizing x y with
  | nil => exact hxy
  | cons l levels ih =>
      refine ih (fun l' hl' => hsame l' (List.mem_cons_of_mem l hl')) fun t ht => ?_
      have hsource : t - l.gap < n := lt_of_le_of_lt (Nat.sub_le t l.gap) ht
      simp only [scanStep, hsame l List.mem_cons_self t ht, hxy t ht, hxy (t - l.gap) hsource]

/-- Two scans over the same levels stay related if their operations are. -/
theorem scan_rel {γ : Type} {op' : γ → γ → γ} (rel : ℕ → β → γ → Prop)
    (hop : ∀ s t a b a' b', s ≤ t → same s t = true → rel s a b → rel t a' b' →
      rel t (op a a') (op' b b'))
    (levels : List Level) {x : ℕ → β} {y : ℕ → γ} (hxy : ∀ t, rel t (x t) (y t)) :
    ∀ t, rel t (scan op same levels x t) (scan op' same levels y t) := by
  induction levels generalizing x y with
  | nil => exact hxy
  | cons l levels ih =>
      refine ih fun t => ?_
      change rel t (scanStep op same l x t) (scanStep op' same l y t)
      unfold scanStep
      by_cases htarget : (l.target t && same (t - l.gap) t) = true
      · rw [if_pos htarget, if_pos htarget]
        have hsame := ((Bool.and_eq_true _ _).mp htarget).2
        exact hop _ t _ _ _ _ (Nat.sub_le t l.gap) hsame (hxy _) (hxy t)
      · rw [if_neg htarget, if_neg htarget]
        exact hxy t

theorem scan_holds (holds : ℕ → β → Prop)
    (hop : ∀ s t a a', s ≤ t → same s t = true → holds s a → holds t a' → holds t (op a a'))
    (levels : List Level) {x : ℕ → β} (hx : ∀ t, holds t (x t)) (t : ℕ) :
    holds t (scan op same levels x t) :=
  @scan_rel β op same Unit (fun _ _ => ()) (fun t b _ => holds t b)
    (fun s t a _ a' _ hle hsame ha ha' => hop s t a a' hle hsame ha ha') levels x (fun _ => ()) hx t

/-- The positions whose values the levels combine into `t`. -/
def sources (same : ℕ → ℕ → Bool) (levels : List Level) : ℕ → Finset ℕ :=
  scan (· ∪ ·) same levels fun t => {t}

theorem mem_sources_self (same : ℕ → ℕ → Bool) (levels : List Level) (t : ℕ) :
    t ∈ sources same levels t :=
  scan_holds (fun t S => t ∈ S) (fun _ _ _ _ _ _ _ hmem => Finset.mem_union_right _ hmem) levels
    (fun t => Finset.mem_singleton_self t) t

theorem of_mem_sources {κ : Type} [DecidableEq κ] {key : ℕ → κ} {levels : List Level} {u t : ℕ}
    (hmem : u ∈ sources (fun u t => decide (key u = key t)) levels t) : u ≤ t ∧ key u = key t := by
  have hall : ∀ u ∈ sources (fun u t => decide (key u = key t)) levels t,
      u ≤ t ∧ key u = key t := by
    refine scan_holds (fun t S => ∀ u ∈ S, u ≤ t ∧ key u = key t)
      (fun s t S S' hle hsame hS hS' u hu => ?_) levels (fun t u hu => ?_) t
    · have hkey := of_decide_eq_true hsame
      rcases Finset.mem_union.mp hu with hu | hu
      · obtain ⟨hus, heq⟩ := hS u hu
        exact ⟨hus.trans hle, heq.trans hkey⟩
      · exact hS' u hu
    · obtain rfl := Finset.mem_singleton.mp hu
      exact ⟨le_refl _, rfl⟩
  exact hall u hmem

/-- An operation that picks the larger of its arguments leaves the largest of the sources. -/
theorem scan_largest {α : Type} [LinearOrder α] {f : β → α}
    (hop : ∀ a b, (op a b = a ∨ op a b = b) ∧ f a ≤ f (op a b) ∧ f b ≤ f (op a b))
    (levels : List Level) (x : ℕ → β) (t : ℕ) :
    (∃ u ∈ sources same levels t, scan op same levels x t = x u) ∧
      ∀ u ∈ sources same levels t, f (x u) ≤ f (scan op same levels x t) := by
  refine scan_rel (fun _ (S : Finset ℕ) b => (∃ u ∈ S, b = x u) ∧ ∀ u ∈ S, f (x u) ≤ f b)
    (fun s t S a S' a' _ _ hS hS' => ?_) levels (fun t => ?_) t
  · obtain ⟨⟨u, hu, ha⟩, hle⟩ := hS
    obtain ⟨⟨u', hu', ha'⟩, hle'⟩ := hS'
    obtain ⟨hpick, hleft, hright⟩ := hop a a'
    constructor
    · rcases hpick with hpick | hpick
      · exact ⟨u, Finset.mem_union_left _ hu, hpick.trans ha⟩
      · exact ⟨u', Finset.mem_union_right _ hu', hpick.trans ha'⟩
    · intro v hv
      rcases Finset.mem_union.mp hv with hv | hv
      · exact (hle v hv).trans hleft
      · exact (hle' v hv).trans hright
  · refine ⟨⟨t, Finset.mem_singleton_self t, rfl⟩, fun u hu => ?_⟩
    rw [Finset.mem_singleton.mp hu]

end CryptDough.SegmentedScan
