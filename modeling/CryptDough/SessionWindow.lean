import CryptDough.GroupScan

/-! Gap session windows: rows that come more than a gap after their predecessor are marked, whatever
their keys, and the timestamps of the marked rows are spread over the rows of their key. -/

namespace CryptDough

open SegmentedScan AdjacentGroups Opened Aggregators

variable {w : ℕ}

namespace Operators

def ltz (x : BitVec w) : BitVec w := bit (decide (x.toInt < 0))

/-- One in the first row and wherever the timestamp exceeds the one before by more than the gap. -/
def markGapSession (timestamp : Column w) (gap : BitVec w) : Column w := fun i =>
  if i = 0 then 1 else ltz (timestamp (i - 1) + gap - timestamp i)

/-- The output column first holds the marks. -/
def gapSessionWindow (n : ℕ) (keys : List String) (timestampA timestampB windowId : String)
    (gap : BitVec w) (col : String → Column w) : String → Column w :=
  let col := Function.update col windowId (markGapSession (col timestampA) gap)
  let col := Function.update col windowId fun i =>
    multiplexB (col windowId i) (-1) (col timestampB i)
  Aggregators.aggregate ⟨keys, none, .forward, n, plainNegation⟩ [⟨windowId, windowId, .max⟩] col

end Operators

/-- The power is computed as a shifted 32-bit integer. -/
def isPowerOfTwo (n : ℕ) : Bool := decide (Nat.size (n - 1) < 31 ∧ 1 <<< Nat.size (n - 1) = n)

namespace EncodedTable

/-- The network asserts a power of two, and that a level is within its depth: a single row has none. -/
def gapSessionWindow (numParties : ℕ) (protocol : SortingProtocol) (t : EncodedTable w)
    (keys : List String) (timeA timeB windowId : String) (gap : BitVec w) (doSorting : Bool) :
    Draws (EncodedTable w) := do
  let t ← if doSorting then
      sort numParties protocol t (ascending (timeB :: keys.filter (· ≠ timeB)))
    else pure t
  t.requireColumns (keys ++ [timeA, timeB, windowId])
  guard ((∀ k ∈ keys, isBShared k) ∧ isBShared timeA = false ∧ isBShared timeB ∧ isBShared windowId)
  guard (isPowerOfTwo t.rows ∧ 1 < t.rows)
  pure (t.withColumns (Operators.gapSessionWindow t.rows keys timeA timeB windowId gap t.col))

/-- Row `i` is marked: the first one, or more than the gap after its predecessor. -/
def StartsSession (t : EncodedTable w) (time : String) (gap : BitVec w) (i : ℕ) : Prop :=
  i = 0 ∨ (t.col time (i - 1)).toInt + gap.toInt < (t.col time i).toInt

instance (t : EncodedTable w) (time : String) (gap : BitVec w) (i : ℕ) :
    Decidable (t.StartsSession time gap i) := inferInstanceAs (Decidable (_ ∨ _))

/-- Row `u` is the last marked row of the key of row `i` up to `i`. -/
def LastStart (t : EncodedTable w) (keys : List String) (time : String) (gap : BitVec w) (u i : ℕ) :
    Prop :=
  u ≤ i ∧ keyOf keys (t.row u) = keyOf keys (t.row i) ∧ t.StartsSession time gap u ∧
    ∀ v, u < v → v ≤ i → ¬ t.StartsSession time gap v

/-- Row `u` is the first row of the session of row `i`: of the run of rows of one key in which
consecutive timestamps differ by at most the gap. -/
def FirstOfSession (t : EncodedTable w) (keys : List String) (time : String) (gap : BitVec w)
    (u i : ℕ) : Prop :=
  u ≤ i ∧ (t.startsGroup keys u = true ∨ t.StartsSession time gap u) ∧
    ∀ v, u < v → v ≤ i → t.startsGroup keys v = false ∧ ¬ t.StartsSession time gap v

/-- What a gap session window relies on: the rows are in the order of their keys and timestamps, both
time columns agree, and no sum with the gap overflows. -/
structure GapSessionCall (t : EncodedTable w) (keys : List String) (timeA timeB windowId : String)
    (gap : BitVec w) : Prop where
  width : ShareWidth w
  rows : isPowerOfTwo t.rows = true
  rows_gt : 1 < t.rows
  columns : ∀ c ∈ keys ++ [timeA, timeB, windowId], c ∈ t.schema
  shared : (∀ k ∈ keys, isBShared k) ∧ isBShared timeA = false ∧ isBShared timeB ∧ isBShared windowId
  window : windowId ∉ keys ∧ windowId ≠ timeB
  sorted : t.SortedBy (keys ++ [timeB])
  times : ∀ i, i < t.rows → t.col timeA i = t.col timeB i
  gap_nonneg : 0 ≤ gap.toInt
  time_nonneg : ∀ i, i < t.rows → 0 ≤ (t.col timeB i).toInt
  no_overflow : ∀ i, i < t.rows → (t.col timeB i).toInt + gap.toInt < 2 ^ (w - 1)

theorem toInt_neg_one_eq (hw : 0 < w) : (-1 : BitVec w).toInt = -1 := by
  have hones : (-1 : BitVec w) = BitVec.allOnes w := BitVec.neg_one_eq_allOnes
  rw [hones, BitVec.toInt_allOnes, if_pos hw]

/-- The maximum over a segment in ascending order is the last value that is not a filler. -/
theorem foldRange_signedMax (hw : 0 < w) {x : Column w} {marked : ℕ → Prop} [DecidablePred marked]
    {lo len : ℕ}
    (hnonneg : ∀ j, lo ≤ j → j ≤ lo + len → 0 ≤ (x j).toInt)
    (hmono : ∀ i j, lo ≤ i → i ≤ j → j ≤ lo + len → (x i).toInt ≤ (x j).toInt) :
    (∃ u, lo ≤ u ∧ u ≤ lo + len ∧ marked u ∧ (∀ v, u < v → v ≤ lo + len → ¬ marked v) ∧
        foldRange signedMax (fun j => if marked j then x j else -1) lo len = x u) ∨
      ((∀ v, lo ≤ v → v ≤ lo + len → ¬ marked v) ∧
        foldRange signedMax (fun j => if marked j then x j else -1) lo len = -1) := by
  induction len with
  | zero =>
      by_cases hlo : marked lo
      · exact Or.inl ⟨lo, le_refl _, le_refl _, hlo, fun v hv hv' => by omega, if_pos hlo⟩
      · refine Or.inr ⟨fun v hv hv' => ?_, if_neg hlo⟩
        obtain rfl : v = lo := by omega
        exact hlo
  | succ len ih =>
      have ih := ih (fun j hlo hj => hnonneg j hlo (by omega))
        fun i j hlo hij hj => hmono i j hlo hij (by omega)
      rw [foldRange]
      by_cases hnew : marked (lo + len + 1)
      · refine Or.inl ⟨lo + len + 1, by omega, le_refl _, hnew, fun v hv hv' => by omega, ?_⟩
        rw [if_pos hnew]
        refine if_neg (not_lt.mpr ?_)
        rcases ih with ⟨u, hlo, hu, _, _, heq⟩ | ⟨_, heq⟩
        · rw [heq]
          exact hmono u (lo + len + 1) hlo (by omega) (by omega)
        · have hpos := hnonneg (lo + len + 1) (by omega) (by omega)
          rw [heq, toInt_neg_one_eq hw]
          omega
      · rw [if_neg hnew]
        rcases ih with ⟨u, hlo, hu, hmarked, hlast, heq⟩ | ⟨hnone, heq⟩
        · refine Or.inl ⟨u, hlo, by omega, hmarked, fun v hv hv' => ?_, ?_⟩
          · rcases Nat.lt_or_ge (lo + len) v with hgt | hle
            · obtain rfl : v = lo + len + 1 := by omega
              exact hnew
            · exact hlast v hv hle
          · rw [heq]
            have hpos := hnonneg u hlo (by omega)
            apply if_pos
            rw [toInt_neg_one_eq hw]
            omega
        · refine Or.inr ⟨fun v hv hv' => ?_, ?_⟩
          · rcases Nat.lt_or_ge (lo + len) v with hgt | hle
            · obtain rfl : v = lo + len + 1 := by omega
              exact hnew
            · exact hnone v hv hle
          · rw [heq]
            exact if_neg (lt_irrefl _)

section Window

variable {t : EncodedTable w} {keys : List String} {timeA timeB windowId : String} {gap : BitVec w}

theorem toInt_gap_sub (hw : 0 < w) {a b g : BitVec w} (ha : 0 ≤ a.toInt) (hb : 0 ≤ b.toInt)
    (hg : 0 ≤ g.toInt) (hover : a.toInt + g.toInt < 2 ^ (w - 1)) :
    (a + g - b).toInt = a.toInt + g.toInt - b.toInt := by
  have hpow : (2 : ℤ) ^ w = 2 * 2 ^ (w - 1) := by
    rw [← pow_succ', Nat.sub_add_cancel hw]
  have hb_lt : b.toInt < 2 ^ (w - 1) := by
    have hlt := BitVec.two_mul_toInt_lt (x := b)
    omega
  have hsum : (a + g).toInt = a.toInt + g.toInt := by
    rw [BitVec.toInt_add]
    exact Int.bmod_eq_of_le_mul_two (by push_cast; omega) (by push_cast; omega)
  rw [BitVec.toInt_sub, hsum]
  exact Int.bmod_eq_of_le_mul_two (by push_cast; omega) (by push_cast; omega)

/-- Without overflow the marks are the rows that come more than the gap after their predecessor. -/
theorem markGapSession_eq (hcall : GapSessionCall t keys timeA timeB windowId gap) {i : ℕ}
    (hi : i < t.rows) : Operators.markGapSession (t.col timeA) gap i =
      bit (decide (t.StartsSession timeB gap i)) := by
  unfold Operators.markGapSession
  by_cases hzero : i = 0
  · have hstart : t.StartsSession timeB gap i := Or.inl hzero
    rw [if_pos hzero, decide_eq_true hstart]
    rfl
  · have hprev : i - 1 < t.rows := lt_of_le_of_lt (Nat.sub_le i 1) hi
    rw [if_neg hzero, Operators.ltz, hcall.times i hi, hcall.times _ hprev,
      toInt_gap_sub hcall.width.pos (hcall.time_nonneg _ hprev) (hcall.time_nonneg _ hi)
        hcall.gap_nonneg (hcall.no_overflow _ hprev)]
    refine congrArg bit (decide_eq_decide.mpr ?_)
    rw [StartsSession, or_iff_right hzero]
    omega

/-- The columns the network starts from. -/
def windowInput (t : EncodedTable w) (timeA timeB windowId : String) (gap : BitVec w) :
    String → Column w :=
  let col := Function.update t.col windowId (Operators.markGapSession (t.col timeA) gap)
  Function.update col windowId fun i => multiplexB (col windowId i) (-1) (col timeB i)

theorem windowInput_of_ne {c : String} (hc : c ≠ windowId) :
    t.windowInput timeA timeB windowId gap c = t.col c := by
  rw [windowInput, Function.update_of_ne hc, Function.update_of_ne hc]

theorem windowInput_self (hcall : GapSessionCall t keys timeA timeB windowId gap) {i : ℕ}
    (hi : i < t.rows) : t.windowInput timeA timeB windowId gap windowId i =
      if t.StartsSession timeB gap i then t.col timeB i else -1 := by
  have htime : timeB ≠ windowId := hcall.window.2.symm
  rw [windowInput, Function.update_self, Function.update_self, Function.update_of_ne htime,
    markGapSession_eq hcall hi, multiplexB_bit hcall.width.pos]
  simp only [decide_eq_true_eq]

theorem SortedBy.grouped_keys {rest : List String} (hsorted : t.SortedBy (keys ++ rest)) :
    Grouped (fun i => keyOf keys (t.row i)) t.rows fun i => i < t.rows where
  lt _ hi := hi
  good_of_key _ _ hu _ _ := hu
  convex u v i huv hvi hi heq := by
    have hlow := orderOf_append_le (hsorted u v huv (lt_of_le_of_lt hvi hi))
    have hhigh := orderOf_append_le (hsorted v i hvi hi)
    have horder := (orderOf_eq_iff keys (t.row u) (t.row i)).mpr heq
    exact (orderOf_eq_iff _ _ _).mp (le_antisymm hhigh (horder ▸ hlow))

theorem orderOf_append_singleton {names : List String} {c : String} {ρ σ : Row w}
    (hle : orderOf (names ++ [c]) ρ ≤ orderOf (names ++ [c]) σ)
    (heq : keyOf names ρ = keyOf names σ) : (ρ c).toInt ≤ (σ c).toInt := by
  induction names with
  | nil =>
      rcases (orderOf_cons_le c [] ρ σ).mp hle with hlt | ⟨hc, _⟩
      · exact hlt.le
      · exact hc.le
  | cons d names ih =>
      obtain ⟨hd, hrest⟩ := List.cons.inj heq
      rcases (orderOf_cons_le d _ ρ σ).mp hle with hlt | ⟨_, hle⟩
      · rw [hd] at hlt
        exact absurd hlt (lt_irrefl _)
      · exact ih hle hrest

/-- Within a key the timestamps ascend. -/
theorem GapSessionCall.time_mono (hcall : GapSessionCall t keys timeA timeB windowId gap) {i j : ℕ}
    (hij : i ≤ j) (hj : j < t.rows) (heq : keyOf keys (t.row i) = keyOf keys (t.row j)) :
    (t.col timeB i).toInt ≤ (t.col timeB j).toInt :=
  orderOf_append_singleton (hcall.sorted i j hij hj) heq

/-- The output column is not among the keys and the selection. -/
theorem compatible_window {selB : Option String} (hshared : isBShared windowId = true)
    (hkeys : windowId ∉ keys) (hsel : selB ≠ some windowId) :
    Compatible keys selB [⟨windowId, windowId, .max⟩] := by
  refine ⟨fun s hs => Or.inr ?_, List.nodup_singleton _, fun s hs => ?_,
    ⟨List.pairwise_singleton _ _, fun sel heq hmem => ?_⟩, fun k hk hmem => ?_⟩
  · rw [List.mem_singleton.mp hs]
    rfl
  · obtain rfl := List.mem_singleton.mp hs
    exact ⟨hshared, hshared⟩
  · exact hsel (heq.trans (congrArg some (List.mem_singleton.mp hmem)))
  · obtain rfl : k = windowId := List.mem_singleton.mp hmem
    exact hkeys hk

theorem groupKey_windowInput (hkeys : windowId ∉ keys) (u v : ℕ) :
    groupKey ⟨keys, none, .forward, t.rows, plainNegation⟩ (t.windowInput timeA timeB windowId gap) .max u =
      groupKey ⟨keys, none, .forward, t.rows, plainNegation⟩
        (t.windowInput timeA timeB windowId gap) .max v ↔
        keyOf keys (t.row u) = keyOf keys (t.row v) := by
  have hcols : ∀ i, (keys.map fun k => t.windowInput timeA timeB windowId gap k i) =
      keyOf keys (t.row i) := fun i => List.map_congr_left fun k hk =>
    congrFun (windowInput_of_ne (ne_of_mem_of_not_mem hk hkeys)) i
  simp only [groupKey, hcols, Prod.mk.injEq, and_true, Option.map_none, ite_self]

/-- What the network leaves in the output column: the timestamp of the last marked row of the key, or
the filler if there is none yet. -/
theorem gapSessionWindow_column (hcall : GapSessionCall t keys timeA timeB windowId gap) {i : ℕ}
    (hi : i < t.rows) :
    (∃ u, t.LastStart keys timeB gap u i ∧ Operators.gapSessionWindow t.rows keys timeA timeB windowId
        gap t.col windowId i = t.col timeB u) ∨
      ((∀ u, u ≤ i → keyOf keys (t.row u) = keyOf keys (t.row i) → ¬ t.StartsSession timeB gap u) ∧
        Operators.gapSessionWindow t.rows keys timeA timeB windowId gap t.col windowId i = -1) := by
  have hw := hcall.width.pos
  obtain ⟨_, hpow⟩ := of_decide_eq_true hcall.rows
  have hpos : 0 < Nat.size (t.rows - 1) := Nat.size_pos.mpr (by have := hcall.rows_gt; omega)
  have hn : t.rows = 2 ^ Nat.size (t.rows - 1) := by
    rw [← Nat.one_shiftLeft]
    exact hpow.symm
  have hgroup : Grouped (groupKey ⟨keys, none, .forward, t.rows, plainNegation⟩
      (t.windowInput timeA timeB windowId gap) .max) t.rows fun i => i < t.rows :=
    hcall.sorted.grouped_keys.of_key_iff (groupKey_windowInput hcall.window.1)
  have hfold : Operators.gapSessionWindow t.rows keys timeA timeB windowId gap t.col windowId i =
      foldRange signedMax (fun j => if t.StartsSession timeB gap j then t.col timeB j else -1)
        (firstOf (fun i => keyOf keys (t.row i)) i)
        (i - firstOf (fun i => keyOf keys (t.row i)) i) := by
    have hscan := (scanned_aggregate (σ := ⟨keys, none, .forward, t.rows, plainNegation⟩) hw rfl
      (compatible_window hcall.shared.2.2.2 hcall.window.1 (by simp))
      (t.windowInput timeA timeB windowId gap)).result _ (List.mem_singleton.mpr rfl)
    have hfirst : firstOf (groupKey ⟨keys, none, .forward, t.rows, plainNegation⟩
        (t.windowInput timeA timeB windowId gap) .max) i = firstOf (fun i => keyOf keys (t.row i)) i :=
      firstOf_congr fun u _ => groupKey_windowInput hcall.window.1 u i
    have hle : firstOf (fun i => keyOf keys (t.row i)) i ≤ i := firstOf_le rfl
    refine (congrFun hscan i).trans ((scan_sameGroup hgroup hpos hn _ hi).trans ?_)
    change foldRange signedMax _ (firstOf (groupKey _ _ _) i) (i - firstOf (groupKey _ _ _) i) = _
    rw [hfirst]
    refine foldRange_congr _ fun j _ hj => ?_
    exact windowInput_self hcall (lt_of_le_of_lt (hj.trans_eq (Nat.add_sub_of_le hle)) hi)
  have hle : firstOf (fun i => keyOf keys (t.row i)) i ≤ i := firstOf_le rfl
  have hend := Nat.add_sub_of_le hle
  have hsame : ∀ u, u ≤ i → (keyOf keys (t.row u) = keyOf keys (t.row i) ↔
      firstOf (fun i => keyOf keys (t.row i)) i ≤ u) :=
    fun u hu => hcall.sorted.grouped_keys.key_eq_iff hi hu
  have hmono : ∀ a b, firstOf (fun i => keyOf keys (t.row i)) i ≤ a → a ≤ b →
      b ≤ firstOf (fun i => keyOf keys (t.row i)) i + (i - firstOf (fun i => keyOf keys (t.row i)) i) →
      (t.col timeB a).toInt ≤ (t.col timeB b).toInt := by
    intro a b ha hab hb
    rw [hend] at hb
    exact hcall.time_mono hab (by omega) (((hsame a (by omega)).mpr ha).trans
      ((hsame b hb).mpr (by omega)).symm)
  have hmax := @foldRange_signedMax w hw (t.col timeB) (t.StartsSession timeB gap) _ _ _
    (fun j _ hj => hcall.time_nonneg j (by omega)) hmono
  rw [hend, ← hfold] at hmax
  rcases hmax with ⟨u, hlo, hu, hmarked, hlast, heq⟩ | ⟨hnone, heq⟩
  · exact Or.inl ⟨u, ⟨hu, (hsame u hu).mpr hlo, hmarked, hlast⟩, heq⟩
  · exact Or.inr ⟨fun u hu hkey_u => hnone u ((hsame u hu).mp hkey_u) hu, heq⟩

theorem gapSessionWindow_other (hw : 0 < w) (hshared : isBShared windowId = true)
    (hkeys : windowId ∉ keys) {c : String} (hc : c ≠ windowId) :
    Operators.gapSessionWindow t.rows keys timeA timeB windowId gap t.col c = t.col c := by
  have hother := (scanned_aggregate (σ := ⟨keys, none, .forward, t.rows, plainNegation⟩) hw rfl
    (compatible_window hshared hkeys (by simp)) (t.windowInput timeA timeB windowId gap)).other c
      fun hmem => hc (List.mem_singleton.mp hmem)
  exact hother.trans (windowInput_of_ne hc)

theorem startsGroup_eq_false (t : EncodedTable w) {keys : List String} {i : ℕ} :
    t.startsGroup keys i = false ↔ i ≠ 0 ∧ keyOf keys (t.row (i - 1)) = keyOf keys (t.row i) := by
  rw [startsGroup, decide_eq_false_iff_not]
  push Not
  rfl

/-- Between two rows none of which begins a group the keys stay the same. -/
theorem keyOf_eq_of_not_startsGroup {u i : ℕ} (hui : u ≤ i)
    (hnone : ∀ v, u < v → v ≤ i → t.startsGroup keys v = false) :
    keyOf keys (t.row u) = keyOf keys (t.row i) := by
  induction i, hui using Nat.le_induction with
  | base => rfl
  | succ i hui ih =>
      have hstep := ((startsGroup_eq_false t).mp (hnone (i + 1) (by omega) (le_refl _))).2
      exact (ih fun v hv hv' => hnone v hv (by omega)).trans hstep

theorem LastStart.unique {u u' i : ℕ} (hu : t.LastStart keys timeB gap u i)
    (hu' : t.LastStart keys timeB gap u' i) : u = u' := by
  rcases lt_trichotomy u u' with hlt | heq | hgt
  · exact absurd hu'.2.2.1 (hu.2.2.2 u' hlt hu'.1)
  · exact heq
  · exact absurd hu.2.2.1 (hu'.2.2.2 u hgt hu.1)

/-- All windows are the sessions of their key exactly if every key begins more than the gap after the
row before it. -/
theorem sessions_iff (hcall : GapSessionCall t keys timeA timeB windowId gap) {window : Column w}
    (hwindow : ∀ i, i < t.rows → (∃ u, t.LastStart keys timeB gap u i ∧ window i = t.col timeB u) ∨
      ((∀ u, u ≤ i → keyOf keys (t.row u) = keyOf keys (t.row i) → ¬ t.StartsSession timeB gap u) ∧
        window i = -1)) :
    (∀ i, i < t.rows → ∀ u, t.FirstOfSession keys timeB gap u i → window i = t.col timeB u) ↔
      ∀ i, i < t.rows → t.startsGroup keys i = true → t.StartsSession timeB gap i := by
  constructor
  · intro hsessions i hi hstart
    have hself : window i = t.col timeB i :=
      hsessions i hi i ⟨le_refl _, Or.inl hstart, fun v hv hv' => by omega⟩
    rcases hwindow i hi with ⟨u, ⟨hui, hkey, hmarked, _⟩, _⟩ | ⟨_, hfiller⟩
    · rcases Nat.eq_or_lt_of_le hui with rfl | hlt
      · exact hmarked
      · have hprev := hcall.sorted.grouped_keys.convex u (i - 1) i (by omega) (by omega) hi hkey
        rcases (startsGroup_iff t keys i).mp hstart with hzero | hne
        · omega
        · exact absurd hprev hne
    · have hnonneg := hcall.time_nonneg i hi
      rw [← hself, hfiller, toInt_neg_one_eq hcall.width.pos] at hnonneg
      omega
  · intro hstarts i hi u hu
    obtain ⟨hui, hfirst, hrest⟩ := hu
    have hmarked : t.StartsSession timeB gap u :=
      hfirst.elim (hstarts u (lt_of_le_of_lt hui hi)) id
    have hkey := keyOf_eq_of_not_startsGroup hui fun v hv hv' => (hrest v hv hv').1
    rcases hwindow i hi with ⟨u', hlast, heq⟩ | ⟨hnone, _⟩
    · have hlast_u : t.LastStart keys timeB gap u i :=
        ⟨hui, hkey, hmarked, fun v hv hv' => (hrest v hv hv').2⟩
      rw [heq, hlast.unique hlast_u]
    · exact absurd hmarked (hnone u hui hkey)

/-- Every row gets the timestamp of the last marked row of its key, or the filler before the first one;
these are the sessions of the keys exactly if every key begins with a marked row. -/
theorem gapSessionWindow_windows {numParties : ℕ} {protocol : SortingProtocol}
    (hcall : GapSessionCall t keys timeA timeB windowId gap) :
    Draws.Returns (gapSessionWindow numParties protocol t keys timeA timeB windowId gap false)
      fun t' => t'.rows = t.rows ∧ (∀ c, c ≠ windowId → t'.col c = t.col c) ∧
        (∀ i, i < t.rows →
          (∃ u, t.LastStart keys timeB gap u i ∧ t'.col windowId i = t.col timeB u) ∨
            ((∀ u, u ≤ i → keyOf keys (t.row u) = keyOf keys (t.row i) →
              ¬ t.StartsSession timeB gap u) ∧ t'.col windowId i = -1)) ∧
        ((∀ i, i < t.rows → ∀ u, t.FirstOfSession keys timeB gap u i →
            t'.col windowId i = t.col timeB u) ↔
          ∀ i, i < t.rows → t.startsGroup keys i = true → t.StartsSession timeB gap i) := by
  rw [gapSessionWindow, if_neg Bool.false_ne_true]
  refine Draws.Returns.bind (Draws.Returns.pure rfl) fun _ ht => ?_
  subst ht
  refine Draws.Returns.bind (returns_guard hcall.columns) fun _ _ => ?_
  refine Draws.Returns.bind (returns_guard hcall.shared) fun _ _ => ?_
  refine Draws.Returns.bind (returns_guard ⟨hcall.rows, hcall.rows_gt⟩) fun _ _ => ?_
  have hwindow : (t.withColumns (Operators.gapSessionWindow t.rows keys timeA timeB windowId gap
      t.col)).col windowId =
        Operators.gapSessionWindow t.rows keys timeA timeB windowId gap t.col windowId :=
    if_pos (hcall.columns _ (List.mem_append_right keys (by simp)))
  refine Draws.Returns.pure ⟨rfl, fun c hc => ?_, fun i hi => ?_, ?_⟩
  · change (if c ∈ t.schema then _ else 0) = t.col c
    split_ifs with hmem
    · exact gapSessionWindow_other hcall.width.pos hcall.shared.2.2.2 hcall.window.1 hc
    · exact (t.col_of_notMem c hmem).symm
  · rw [hwindow]
    exact gapSessionWindow_column hcall hi
  · rw [hwindow]
    exact sessions_iff hcall fun i hi => gapSessionWindow_column hcall hi

end Window

def exampleSessions (first second : BitVec 8) (rows : ℕ) (key : Column 8) : EncodedTable 8 :=
  let time : Column 8 := fun i => if i = 0 then first else second
  ofColumns rows (fun _ => 1) [("[k]", key), ("t", time), ("[t]", time), ("[w]", 0)]

/-- Two keys that follow each other within the gap. -/
def exampleKeyChange : EncodedTable 8 := exampleSessions 5 6 2 fun i => if i = 0 then 1 else 2

theorem exampleSessions_call :
    GapSessionCall exampleKeyChange ["[k]"] "t" "[t]" "[w]" 2
    where
  width := Or.inl rfl
  rows := by decide
  rows_gt := by decide
  columns := by decide
  shared := by decide
  window := by decide
  sorted := by
    intro i j hij hj
    have hj : j < 2 := hj
    obtain ⟨rfl, rfl⟩ | ⟨rfl, rfl⟩ | ⟨rfl, rfl⟩ :
      (i = 0 ∧ j = 0) ∨ (i = 0 ∧ j = 1) ∨ (i = 1 ∧ j = 1) := by omega
    · exact le_refl _
    · decide
    · exact le_refl _
  times := by decide
  gap_nonneg := by decide
  time_nonneg := by decide
  no_overflow := by decide

theorem gapSessionWindow_windows_example :
    Draws.Returns (gapSessionWindow 3 .quicksort exampleKeyChange ["[k]"] "t" "[t]" "[w]" 2 false)
      fun t' => t'.rows = 2 ∧ (∀ c, c ≠ "[w]" → t'.col c = exampleKeyChange.col c) ∧
        (∀ i, i < 2 →
          (∃ u, exampleKeyChange.LastStart ["[k]"] "[t]" 2 u i ∧
            t'.col "[w]" i = exampleKeyChange.col "[t]" u) ∨
          ((∀ u, u ≤ i → keyOf ["[k]"] (exampleKeyChange.row u) = keyOf ["[k]"] (exampleKeyChange.row i) →
            ¬ exampleKeyChange.StartsSession "[t]" 2 u) ∧ t'.col "[w]" i = -1)) ∧
        ((∀ i, i < 2 → ∀ u, exampleKeyChange.FirstOfSession ["[k]"] "[t]" 2 u i →
            t'.col "[w]" i = exampleKeyChange.col "[t]" u) ↔
          ∀ i, i < 2 → exampleKeyChange.startsGroup ["[k]"] i = true →
            exampleKeyChange.StartsSession "[t]" 2 i) :=
  gapSessionWindow_windows exampleSessions_call

/-- A key that begins within the gap gets the filler, so do negative timestamps, and three rows are no
power of two. -/
theorem gapSessionWindow_fails :
    (¬ Draws.Returns (gapSessionWindow 3 .quicksort exampleKeyChange ["[k]"] "t" "[t]" "[w]" 2 false)
      fun t' => ∀ i, i < 2 → ∀ u, exampleKeyChange.FirstOfSession ["[k]"] "[t]" 2 u i →
        t'.col "[w]" i = exampleKeyChange.col "[t]" u) ∧
    (¬ Draws.Returns (gapSessionWindow 3 .quicksort (exampleSessions (-5) (-4) 2 fun _ => 1)
        ["[k]"] "t" "[t]" "[w]" 2 false)
      fun t' => ∀ i, i < 2 → ∀ u,
        (exampleSessions (-5) (-4) 2 fun _ => 1).FirstOfSession ["[k]"] "[t]" 2 u i →
          t'.col "[w]" i = (exampleSessions (-5) (-4) 2 fun _ => 1).col "[t]" u) ∧
    ∀ post, ¬ Draws.Returns (gapSessionWindow 3 .quicksort (exampleSessions 5 6 3 fun _ => 1)
        ["[k]"] "t" "[t]" "[w]" 2 false) post := by
  refine ⟨fun hreturns => ?_, fun hreturns => ?_, fun post hreturns => ?_⟩
  · obtain ⟨t', _, hrun, hpost⟩ := hreturns default
    have hvalue := congrArg (Option.map fun r => r.1.col "[w]" 1) hrun
    have hself := hpost 1 (by decide) 1 ⟨le_refl _, by decide, fun v hv hv' => by omega⟩
    rw [Option.map_some, hself] at hvalue
    revert hvalue
    decide +kernel
  · obtain ⟨t', _, hrun, hpost⟩ := hreturns default
    have hvalue := congrArg (Option.map fun r => r.1.col "[w]" 1) hrun
    have hself := hpost 1 (by decide) 0 ⟨by decide, by decide, fun v hv hv' => by
      obtain rfl : v = 1 := by omega
      decide⟩
    rw [Option.map_some, hself] at hvalue
    revert hvalue
    decide +kernel
  · obtain ⟨t', _, hrun, _⟩ := hreturns default
    have hnone := congrArg Option.isSome hrun
    revert hnone
    rw [Option.isSome_some]
    decide +kernel

end EncodedTable

end CryptDough
