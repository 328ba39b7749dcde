import CryptDough.PairwiseNetwork
import Mathlib.Tactic.Ring

/-! Bitonic merging. Sorted blocks become sorted blocks of twice the size, if every second one of them
is mirrored and then all are cleaned at half their size, at a quarter, and so on. -/

namespace CryptDough.BitonicNetwork

open ComparatorNetwork

/-- Even chunks of the size `s` with the chunks after them. -/
def cleaner (s : ℕ) : ComparatorLayer := PairwiseNetwork.pairs.stride s

def cleaners : ℕ → List ComparatorLayer
  | 0 => []
  | t + 1 => cleaner (2 ^ t) :: cleaners t

theorem cleaner_proper {s : ℕ} (hs : 0 < s) :
    (cleaner s).Proper := PairwiseNetwork.pairs_proper.stride hs

theorem cleaner_left_iff (s p : ℕ) : (cleaner s).left p = true ↔ p / s % 2 = 0 := decide_eq_true_iff

theorem cleaner_gap (s : ℕ) : (cleaner s).gap = s := Nat.mul_one s

section Blocks

variable {α : Type} [LinearOrder α]

/-- A chunk and the one after it are taken to their minima and to their maxima. -/
theorem cleaner_apply {s : ℕ} (x : ℕ → α) (b : ℕ) {j : ℕ} (hj : j < s) :
    (cleaner s).apply x (b * (s + s) + j) = min (x (b * (s + s) + j)) (x (b * (s + s) + (s + j))) ∧
      (cleaner s).apply x (b * (s + s) + (s + j)) =
        max (x (b * (s + s) + j)) (x (b * (s + s) + (s + j))) := by
  have hs : 0 < s := by omega
  have hleft : (cleaner s).left (b * (s + s) + j) = true := by
    have hpos : b * (s + s) + j = j + s * (2 * b) := by ring
    rw [cleaner_left_iff, hpos, Nat.add_mul_div_left _ _ hs, Nat.div_eq_of_lt hj, Nat.zero_add,
      Nat.mul_mod_right]
  have hgap : b * (s + s) + (s + j) = b * (s + s) + j + (cleaner s).gap := by
    rw [cleaner_gap]
    omega
  rw [hgap]
  exact ⟨ComparatorLayer.apply_left hleft, ComparatorLayer.apply_right (cleaner_proper hs) hleft⟩

/-- What the cleaners do to a block they do to the block alone. -/
theorem run_cleaners_block (t b : ℕ) (x y : ℕ → α) (hxy : ∀ j, j < 2 ^ t → x (b * 2 ^ t + j) = y j)
    {j : ℕ}
    (hj : j < 2 ^ t) : run (cleaners t) x (b * 2 ^ t + j) = run (cleaners t) y j := by
  induction t generalizing b x y j with
  | zero => exact hxy j hj
  | succ t ih =>
      change run (cleaners t) ((cleaner (2 ^ t)).apply x) _ = run (cleaners t) ((cleaner (2 ^ t)).apply y) _
      have htwo : 2 ^ (t + 1) = 2 ^ t + 2 ^ t := by ring
      rw [htwo] at hxy hj ⊢
      have hstep := fun {i : ℕ} (hi : i < 2 ^ t) => cleaner_apply x b hi
      have hstep' := fun {i : ℕ} (hi : i < 2 ^ t) => cleaner_apply y 0 hi
      simp only [Nat.zero_mul, Nat.zero_add] at hstep'
      by_cases hlow : j < 2 ^ t
      · have hpos : b * (2 ^ t + 2 ^ t) + j = 2 * b * 2 ^ t + j := by ring
        rw [hpos]
        refine ih (2 * b) _ _ (fun i hi => ?_) hlow
        have hpos' : 2 * b * 2 ^ t + i = b * (2 ^ t + 2 ^ t) + i := by ring
        rw [hpos', (hstep hi).1, (hstep' hi).1, hxy i (by omega), hxy (2 ^ t + i) (by omega)]
      · obtain ⟨i, rfl⟩ := Nat.exists_eq_add_of_le (not_lt.mp hlow)
        have hpos : b * (2 ^ t + 2 ^ t) + (2 ^ t + i) = (2 * b + 1) * 2 ^ t + i := by ring
        have hone : 2 ^ t + i = 1 * 2 ^ t + i := by ring
        let upper : ℕ → α := fun i => (cleaner (2 ^ t)).apply y (2 ^ t + i)
        have hfirst := ih (2 * b + 1) ((cleaner (2 ^ t)).apply x) upper (fun i hi => by
          have hpos' : (2 * b + 1) * 2 ^ t + i = b * (2 ^ t + 2 ^ t) + (2 ^ t + i) := by ring
          rw [hpos', (hstep hi).2, hxy i (by omega), hxy (2 ^ t + i) (by omega)]
          exact (hstep' hi).2.symm) (by omega : i < 2 ^ t)
        have hsecond := ih 1 ((cleaner (2 ^ t)).apply y) upper (fun i _ => by rw [Nat.one_mul])
          (by omega : i < 2 ^ t)
        rw [hpos, hfirst, hone, hsecond]

end Blocks

section Windows

/-- The trues are an interval, or the falses are. -/
def Window (m : ℕ) (u : ℕ → Bool) : Prop :=
  ∃ l h : ℕ, (∀ j, j < m → u j = decide (l ≤ j ∧ j < h)) ∨ ∀ j, j < m → u j = !decide (l ≤ j ∧ j < h)

theorem Window.not {m : ℕ} {u : ℕ → Bool} (hu : Window m u) : Window m fun j => !u j := by
  obtain ⟨l, h, hu | hu⟩ := hu
  · exact ⟨l, h, .inr fun j hj => congrArg Bool.not (hu j hj)⟩
  · exact ⟨l, h, .inl fun j hj => (congrArg Bool.not (hu j hj)).trans (Bool.not_not _)⟩

/-- One half of a cleaned window is constant, and the other one is a window. -/
structure Cleaned (m : ℕ) (u : ℕ → Bool) : Prop where
  low : Window m fun j => u j && u (m + j)
  high : Window m fun j => u j || u (m + j)
  constant : (∀ j, j < m → (u j && u (m + j)) = false) ∨ ∀ j, j < m → (u j || u (m + j)) = true

theorem cleaned_of_interval {m l h : ℕ} {u : ℕ → Bool}
    (hu : ∀ j, j < m + m → u j = decide (l ≤ j ∧ j < h)) :
    Cleaned m u := by
  have hlow : ∀ j, j < m → (u j && u (m + j)) = decide (l ≤ j ∧ j < h - m) := by
    intro j hj
    rw [hu j (by omega), hu (m + j) (by omega), ← Bool.decide_and, decide_eq_decide]
    omega
  have hhigh : ∀ j, j < m → (u j || u (m + j)) =
      decide ((l ≤ j ∧ j < h) ∨ (l ≤ m + j ∧ m + j < h)) := by
    intro j hj
    rw [hu j (by omega), hu (m + j) (by omega), ← Bool.decide_or]
  refine ⟨⟨l, h - m, .inl hlow⟩, ?_, ?_⟩
  · rcases Nat.lt_or_ge m h with hspan | hfirst
    · rcases Nat.lt_or_ge l m with hbefore | hsecond
      · -- the trues reach from the first half into the second one
        refine ⟨h - m, l, .inr fun j hj => (hhigh j hj).trans ?_⟩
        rw [← decide_not, decide_eq_decide]
        omega
      · refine ⟨l - m, h - m, .inl fun j hj => (hhigh j hj).trans ?_⟩
        rw [decide_eq_decide]
        omega
    · refine ⟨l, h, .inl fun j hj => (hhigh j hj).trans ?_⟩
      rw [decide_eq_decide]
      omega
  · by_cases hoverlap : l < h - m ∧ l < m
    · right
      intro j hj
      rw [hhigh j hj, decide_eq_true_eq]
      omega
    · left
      intro j hj
      rw [hlow j hj, decide_eq_false_iff_not]
      omega

theorem Window.cleaned {m : ℕ} {u : ℕ → Bool} (hu : Window (m + m) u) : Cleaned m u := by
  obtain ⟨l, h, hu | hu⟩ := hu
  · exact cleaned_of_interval hu
  · -- the negation of the sequence exchanges the two halves
    have hnot : ∀ j, j < m + m → (!u j) = decide (l ≤ j ∧ j < h) :=
      fun j hj => by rw [hu j hj, Bool.not_not]
    obtain ⟨hlow, hhigh, hconstant⟩ := cleaned_of_interval hnot
    refine ⟨?_, ?_, ?_⟩
    · simpa [Bool.not_or] using hhigh.not
    · simpa [Bool.not_and] using hlow.not
    · rcases hconstant with hfalse | htrue
      · right
        intro j hj
        have hj := hfalse j hj
        revert hj
        cases u j <;> cases u (m + j) <;> decide
      · left
        intro j hj
        have hj := htrue j hj
        revert hj
        cases u j <;> cases u (m + j) <;> decide

/-- The entries of a block in order. -/
def SortedBlock {α : Type} [LinearOrder α] (m : ℕ) (u : ℕ → α) :
    Prop := ∀ i j, i ≤ j → j < m → u i ≤ u j

theorem run_const {α : Type} [LinearOrder α] (layers : List ComparatorLayer) (a : α) :
    run layers (fun _ => a) = fun _ => a :=
  run_map layers (monotone_const : Monotone fun _ : α => a) fun _ => a

/-- The cleaners sort windows: by induction, the halves after the first one are windows, one of which is
constant. -/
theorem sorted_cleaners (t : ℕ) {u : ℕ → Bool} (hu : Window (2 ^ t) u) :
    SortedBlock (2 ^ t) (run (cleaners t) u) := by
  induction t generalizing u with
  | zero =>
      intro i j hij hj
      rw [pow_zero] at hj
      obtain rfl : i = j := by omega
      exact le_rfl
  | succ t ih =>
      have htwo : 2 ^ (t + 1) = 2 ^ t + 2 ^ t := by ring
      rw [htwo] at hu ⊢
      have hclean := hu.cleaned
      have hlow : ∀ j, j < 2 ^ t → (cleaner (2 ^ t)).apply u (0 * 2 ^ t + j) =
          (u j && u (2 ^ t + j)) := by
        intro j hj
        have hmin := (cleaner_apply u 0 hj).1
        simpa only [Nat.zero_mul, Nat.zero_add, Bool.min_eq_and] using hmin
      have hhigh : ∀ j, j < 2 ^ t → (cleaner (2 ^ t)).apply u (1 * 2 ^ t + j) =
          (u j || u (2 ^ t + j)) := by
        intro j hj
        have hmax := (cleaner_apply u 0 hj).2
        simpa only [Nat.zero_mul, Nat.zero_add, Nat.one_mul, Bool.max_eq_or] using hmax
      have hrunLow := fun {j : ℕ} (hj : j < 2 ^ t) => run_cleaners_block t 0 _ _ hlow hj
      have hrunHigh := fun {j : ℕ} (hj : j < 2 ^ t) => run_cleaners_block t 1 _ _ hhigh hj
      simp only [Nat.zero_mul, Nat.zero_add, Nat.one_mul] at hrunLow hrunHigh
      intro i j hij hj
      change run (cleaners t) ((cleaner (2 ^ t)).apply u) i ≤ run (cleaners t) ((cleaner (2 ^ t)).apply u) j
      rcases Nat.lt_or_ge j (2 ^ t) with hjlow | hjhigh
      · rw [hrunLow (by omega), hrunLow hjlow]
        exact ih hclean.low i j hij hjlow
      · obtain ⟨j, rfl⟩ := Nat.exists_eq_add_of_le hjhigh
        rw [hrunHigh (by omega)]
        rcases Nat.lt_or_ge i (2 ^ t) with hilow | hihigh
        · rw [hrunLow hilow]
          rcases hclean.constant with hfalse | htrue
          · have hconst := run_cleaners_block t 0 (fun j => u j && u (2 ^ t + j)) (fun _ => false)
              (fun j hj => by rw [Nat.zero_mul, Nat.zero_add, hfalse j hj]) hilow
            rw [Nat.zero_mul, Nat.zero_add, run_const] at hconst
            rw [hconst]
            exact Bool.false_le _
          · have hconst := run_cleaners_block t 0 (fun j => u j || u (2 ^ t + j)) (fun _ => true)
              (fun j hj => by rw [Nat.zero_mul, Nat.zero_add, htrue j hj]) (by omega : j < 2 ^ t)
            rw [Nat.zero_mul, Nat.zero_add, run_const] at hconst
            rw [hconst]
            exact Bool.le_true _
        · obtain ⟨i, rfl⟩ := Nat.exists_eq_add_of_le hihigh
          rw [hrunHigh (by omega)]
          exact ih hclean.high i j (by omega) (by omega)

end Windows

section Merge

variable {α : Type} [LinearOrder α]

/-- Every second block of the size `s` is mirrored, and these blocks are put into the opposite order. -/
def mirror (n s p : ℕ) : ℕ := if p < n ∧ p / s % 2 = 1 then n + s - 1 - p else p

/-- All blocks of the size `s` are sorted. -/
def Blocks (s n : ℕ) (x : ℕ → α) : Prop := ∀ b, (b + 1) * s ≤ n → SortedBlock s fun j => x (b * s + j)

theorem mirror_even {n s b j : ℕ} (hj : j < s) : mirror n s (b * (s + s) + j) = b * (s + s) + j := by
  have hpos : b * (s + s) + j = j + s * (2 * b) := by ring
  rw [mirror, hpos, Nat.add_mul_div_left _ _ (by omega), Nat.div_eq_of_lt hj, if_neg]
  omega

theorem mirror_odd {m s b j : ℕ} (hj : j < s) (hb : b < m) :
    mirror (m * (s + s)) s (b * (s + s) + (s + j)) = (2 * (m - 1 - b) + 1) * s + (s - 1 - j) := by
  have hpos : b * (s + s) + (s + j) = j + s * (2 * b + 1) := by ring
  obtain ⟨rest, rfl⟩ := Nat.exists_eq_add_of_lt hb
  have hsize : (b + rest + 1) * (s + s) = b * (s + s) + rest * (s + s) + (s + s) := by ring
  have hblock : (2 * (b + rest + 1 - 1 - b) + 1) * s = rest * (s + s) + s := by
    rw [(by omega : b + rest + 1 - 1 - b = rest)]
    ring
  have hdiv : (b * (s + s) + (s + j)) / s = 2 * b + 1 := by
    rw [hpos, Nat.add_mul_div_left _ _ (by omega), Nat.div_eq_of_lt hj, Nat.zero_add]
  rw [mirror, hdiv, if_pos ⟨by omega, by omega⟩, hsize, hblock]
  omega

theorem exists_count {m : ℕ} {u : ℕ → Bool} (hu : SortedBlock m u) :
    ∃ z, z ≤ m ∧ ∀ j, j < m → u j = decide (z ≤ j) := by
  have hmono : Monotone fun j => if j < m then u j else true := by
    intro i j hij
    change (if i < m then u i else true) ≤ if j < m then u j else true
    by_cases hj : j < m
    · rw [if_pos hj, if_pos (by omega)]
      exact hu i j hij hj
    · rw [if_neg hj]
      exact Bool.le_true _
  obtain ⟨z, hz, hcount⟩ := PairwiseNetwork.exists_threshold hmono (if_neg (lt_irrefl m))
  refine ⟨z, hz, fun j hj => ?_⟩
  have hj' := hcount j
  rwa [if_pos hj] at hj'

/-- A block and the mirrored one after it make a window. -/
theorem window_of_blocks {m s b : ℕ} {u : ℕ → Bool} (hu : Blocks s (m * (s + s)) u) (hb : b < m) :
    Window (s + s) fun j => u (mirror (m * (s + s)) s (b * (s + s) + j)) := by
  have hbound : ∀ c, c < m → (2 * c + 1 + 1) * s ≤ m * (s + s) := by
    intro c hc
    calc (2 * c + 1 + 1) * s = (c + 1) * (s + s) := by ring
      _ ≤ m * (s + s) := Nat.mul_le_mul_right _ hc
  have hleft : (2 * b + 1) * s ≤ m * (s + s) :=
    le_trans (Nat.mul_le_mul_right s (Nat.le_succ _)) (hbound b hb)
  obtain ⟨z, hz, hfirst⟩ := exists_count (hu (2 * b) hleft)
  obtain ⟨o, ho, hsecond⟩ := exists_count (hu (2 * (m - 1 - b) + 1) (hbound _ (by omega)))
  refine ⟨z, s + s - o, .inl fun j hj => ?_⟩
  rcases Nat.lt_or_ge j s with hlow | hhigh
  · have hpos : b * (s + s) + j = 2 * b * s + j := by ring
    change u _ = _
    rw [mirror_even hlow, hpos]
    refine (hfirst j hlow).trans (decide_eq_decide.mpr ?_)
    omega
  · obtain ⟨i, rfl⟩ := Nat.exists_eq_add_of_le hhigh
    change u _ = _
    rw [mirror_odd (by omega) hb]
    refine (hsecond (s - 1 - i) (by omega)).trans (decide_eq_decide.mpr ?_)
    omega

/-- One round of merging. -/
theorem blocks_merge {m t : ℕ} {x : ℕ → α} (hx : Blocks (2 ^ t) (m * 2 ^ (t + 1)) x) :
    Blocks (2 ^ (t + 1)) (m * 2 ^ (t + 1))
      (run (cleaners (t + 1)) (x ∘ mirror (m * 2 ^ (t + 1)) (2 ^ t))) := by
  intro b hb i j hij hj
  have htwo : 2 ^ (t + 1) = 2 ^ t + 2 ^ t := by ring
  have hbm : b < m := Nat.lt_of_succ_le (Nat.le_of_mul_le_mul_right hb (Nat.two_pow_pos _))
  refine run_le_of_bool fun f hf => ?_
  have hblocks : Blocks (2 ^ t) (m * (2 ^ t + 2 ^ t)) (f ∘ x) := by
    rw [htwo] at hx
    exact fun c hc i' j' hij' hj' => hf (hx c hc i' j' hij' hj')
  have hwindow := window_of_blocks hblocks hbm
  rw [← htwo] at hwindow
  have hrun := fun {k : ℕ} (hk : k < 2 ^ (t + 1)) => run_cleaners_block (t + 1) b
    (f ∘ x ∘ mirror (m * 2 ^ (t + 1)) (2 ^ t)) _ (fun _ _ => rfl) hk
  rw [hrun (by omega), hrun hj]
  exact sorted_cleaners (t + 1) hwindow i j hij hj

theorem two_pow_split {k a : ℕ} (hak : a < k) : 2 ^ k = 2 ^ (k - a - 1) * (2 ^ a + 2 ^ a) := by
  have htwo : 2 ^ a + 2 ^ a = 2 ^ (a + 1) := by ring
  rw [htwo, ← pow_add]
  congr 1
  omega

/-- The pairs of whole chunks stay within them. -/
theorem add_lt_of_even {m s p : ℕ} (hs : 0 < s) (hp : p < m * (s + s)) (heven : p / s % 2 = 0) :
    p + s < m * (s + s) := by
  obtain ⟨b, hb⟩ : ∃ b, p / s = 2 * b := ⟨p / s / 2, by omega⟩
  have hsplit := Nat.div_add_mod p s
  have hmod := Nat.mod_lt p hs
  have hblock : s * (2 * b) = b * (s + s) := by ring
  rw [hb, hblock] at hsplit
  have hbm : b < m := by
    by_contra hge
    have hmul : m * (s + s) ≤ b * (s + s) := Nat.mul_le_mul_right _ (not_lt.mp hge)
    omega
  have hmul : (b + 1) * (s + s) ≤ m * (s + s) := Nat.mul_le_mul_right _ hbm
  rw [Nat.succ_mul] at hmul
  omega

theorem cleaners_closed {t k : ℕ} (htk : t ≤ k) :
    ∀ L ∈ cleaners t, ∀ p, p < 2 ^ k → L.left p = true → p + L.gap < 2 ^ k := by
  induction t with
  | zero => exact fun L hL => absurd hL List.not_mem_nil
  | succ t ih =>
      intro L hL p hp hleft
      rcases List.mem_cons.mp hL with rfl | hL
      · rw [cleaner_gap]
        rw [two_pow_split htk] at hp ⊢
        exact add_lt_of_even (Nat.two_pow_pos t) hp ((cleaner_left_iff _ p).mp hleft)
      · exact ih (by omega) L hL p hp hleft

/-- One round of merging among the first `2 ^ k` positions. -/
theorem blocks_round {k i : ℕ} (hi : i < k) {x : ℕ → α} (hx : Blocks (2 ^ i) (2 ^ k) x) :
    Blocks (2 ^ (i + 1)) (2 ^ k)
      (run ((cleaners (i + 1)).map fun L => L.truncate (2 ^ k)) (x ∘ mirror (2 ^ k) (2 ^ i))) := by
  have hsize : 2 ^ k = 2 ^ (k - i - 1) * 2 ^ (i + 1) := by
    rw [← pow_add]
    congr 1
    omega
  have hclosed : ∀ p, p < 2 ^ k → run ((cleaners (i + 1)).map fun L => L.truncate (2 ^ k))
      (x ∘ mirror (2 ^ k) (2 ^ i)) p = run (cleaners (i + 1)) (x ∘ mirror (2 ^ k) (2 ^ i)) p :=
    fun p hp => run_truncate_of_closed (cleaners_closed hi) hp
  intro b hb a c hac hc
  have hlt : b * 2 ^ (i + 1) + c < 2 ^ k := by
    rw [Nat.succ_mul] at hb
    omega
  change run _ _ (b * 2 ^ (i + 1) + a) ≤ run _ _ (b * 2 ^ (i + 1) + c)
  rw [hclosed _ (by omega), hclosed _ hlt]
  rw [hsize] at hx hb ⊢
  exact blocks_merge hx b hb a c hac hc

end Merge

end CryptDough.BitonicNetwork
