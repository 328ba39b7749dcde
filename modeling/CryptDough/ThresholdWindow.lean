import CryptDough.SessionWindow

/-! Threshold session windows: rows above the threshold whose predecessor is not, whatever its key,
are marked, and the timestamps of the marked rows are spread backwards over the rows of their key that
are above the threshold. -/

namespace CryptDough

open SegmentedScan AdjacentGroups Opened Aggregators

variable {w : ℕ}

namespace Operators

/-- A name for a vector of the operator's own: it is longer than every one of the list. -/
def temporaryName (names : List String) : String := names.foldl (· ++ ·) "#"

def potentialWindow (functionRes : Column w) (threshold : BitVec w) : Column w := fun i =>
  greaterB (functionRes i) threshold

/-- The first row keeps what the output column held. -/
def markThresholdSession (potentialWindow sessionStart : Column w) : Column w := fun i =>
  if i = 0 then sessionStart i
  else andB1 (potentialWindow i) (potentialWindow i ^^^ potentialWindow (i - 1))

/-- The output column first holds the marks. -/
def thresholdSessionWindow (n : ℕ) (keys : List String) (functionRes timestampB windowId : String)
    (threshold : BitVec w) (col : String → Column w) : String → Column w :=
  let potential := temporaryName (keys ++ [functionRes, timestampB, windowId])
  let input := Function.update col potential (potentialWindow (col functionRes) threshold)
  let input := Function.update input windowId
    (markThresholdSession (input potential) (input windowId))
  let input := Function.update input windowId fun i =>
    multiplexB (input windowId i) (-1) (input timestampB i)
  -- the shares of the result of a comparison are single bits, so that `!` negates them
  let output := Aggregators.aggregate ⟨keys, some potential, .reverse, n, plainNegation⟩
    [⟨windowId, windowId, .max⟩] input
  Function.update output potential (col potential)

theorem length_foldl_append (names : List String) (s : String) :
    (names.foldl (· ++ ·) s).length = s.length + (names.map String.length).sum := by
  induction names generalizing s with
  | nil => simp
  | cons c names ih => simp [ih, Nat.add_assoc]

theorem temporaryName_notMem (names : List String) : temporaryName names ∉ names := by
  intro hmem
  have hle : (temporaryName names).length ≤ (names.map String.length).sum :=
    List.single_le_sum (fun _ _ => Nat.zero_le _) _ (List.mem_map_of_mem hmem)
  have hlen : (temporaryName names).length = 1 + (names.map String.length).sum :=
    length_foldl_append names "#"
  omega

end Operators

namespace EncodedTable

/-- The filter keeps the rows with a positive window id. -/
def thresholdSessionWindow (numParties : ℕ) (protocol : SortingProtocol) (t : EncodedTable w)
    (keys : List String) (functionRes timeB windowId : String) (threshold : BitVec w)
    (doSorting markValid : Bool) : Draws (EncodedTable w) := do
  let t ← if doSorting then
      sort numParties protocol t (ascending (timeB :: keys.filter (· ≠ timeB)))
    else pure t
  t.requireColumns (keys ++ [functionRes, timeB, windowId])
  guard ((∀ k ∈ keys, isBShared k) ∧ isBShared functionRes ∧ isBShared timeB ∧ isBShared windowId)
  guard (isPowerOfTwo t.rows ∧ 1 < t.rows)
  let t := t.withColumns
    (Operators.thresholdSessionWindow t.rows keys functionRes timeB windowId threshold t.col)
  pure (if markValid then t.filter fun i => greaterB (t.col windowId i) 0 else t)

def Above (t : EncodedTable w) (functionRes : String) (threshold : BitVec w) (i : ℕ) : Prop :=
  threshold.toInt < (t.col functionRes i).toInt

instance (t : EncodedTable w) (functionRes : String) (threshold : BitVec w) (i : ℕ) :
    Decidable (t.Above functionRes threshold i) := inferInstanceAs (Decidable (_ < _))

/-- What the operator marks: a row above the threshold whose predecessor is not. The first row starts
a session only if the output column says so beforehand. -/
def StartsAbove (t : EncodedTable w) (functionRes windowId : String) (threshold : BitVec w) (i : ℕ) :
    Prop :=
  if i = 0 then (t.col windowId 0).getLsbD 0 = true
  else t.Above functionRes threshold i ∧ ¬ t.Above functionRes threshold (i - 1)

instance (t : EncodedTable w) (functionRes windowId : String) (threshold : BitVec w) (i : ℕ) :
    Decidable (t.StartsAbove functionRes windowId threshold i) := by
  unfold StartsAbove
  infer_instance

/-- Among the rows with one key, `b` is the one after `a`. -/
def NextOfKey (t : EncodedTable w) (keys : List String) (a b : ℕ) : Prop :=
  a < b ∧ keyOf keys (t.row a) = keyOf keys (t.row b) ∧
    ∀ v, a < v → v < b → keyOf keys (t.row v) ≠ keyOf keys (t.row b)

/-- Row `u` is the first row of the session of row `i`: of the longest run of rows of one key around
`i` in which each is linked to the one after it. -/
def FirstOfRun (t : EncodedTable w) (keys : List String) (linked : ℕ → ℕ → Prop) (u i : ℕ) : Prop :=
  u ≤ i ∧ keyOf keys (t.row u) = keyOf keys (t.row i) ∧
    (∀ a b, t.NextOfKey keys a b → keyOf keys (t.row b) = keyOf keys (t.row i) → u ≤ a → b ≤ i →
      linked a b) ∧
    ∀ a, t.NextOfKey keys a u → ¬ linked a u

end EncodedTable

/-! Which rows the network combines into a row, and what the largest of their values is. -/

/-- The rows that the network combines into row `i`: they share its key, but as groups need not be
adjacent it may miss some that do. -/
def combinedInto {κ : Type} [DecidableEq κ] (dir : Direction) (n : ℕ) (key : ℕ → κ) (i : ℕ) :
    Finset ℕ :=
  (sources (fun u t => decide (dir.view n key u = dir.view n key t)) (brentKung (Nat.size (n - 1)))
    (dir.position n i)).image (dir.position n)

theorem Direction.position_position (dir : Direction) {n i : ℕ} (hi : i < n) :
    dir.position n (dir.position n i) = i := by
  cases dir with
  | forward => rfl
  | reverse =>
      change n - 1 - (n - 1 - i) = i
      omega

section Combined

variable {κ : Type} [DecidableEq κ] {dir : Direction} {n i : ℕ} {key : ℕ → κ}

theorem mem_combinedInto_self (hi : i < n) : i ∈ combinedInto dir n key i :=
  Finset.mem_image.mpr ⟨dir.position n i, mem_sources_self _ _ _, dir.position_position hi⟩

/-- Only which rows share a key matters. -/
theorem combinedInto_congr {κ' : Type} [DecidableEq κ'] {key' : ℕ → κ'}
    (hiff : ∀ u, u < n → ∀ v, v < n → (key u = key v ↔ key' u = key' v)) (hi : i < n) :
    combinedInto dir n key i = combinedInto dir n key' i := by
  apply congrArg (Finset.image (dir.position n))
  refine scan_congr (fun l _ t ht => ?_) (fun _ _ => rfl) _ (dir.position_lt hi)
  have hsource : t - l.gap < n := lt_of_le_of_lt (Nat.sub_le t l.gap) ht
  rw [dir.view_apply key hsource, dir.view_apply key ht, dir.view_apply key' hsource,
    dir.view_apply key' ht]
  exact decide_eq_decide.mpr (hiff _ (dir.position_lt hsource) _ (dir.position_lt ht))

end Combined

theorem signedMax_picks (a b : BitVec w) :
    (signedMax a b = a ∨ signedMax a b = b) ∧ a.toInt ≤ (signedMax a b).toInt ∧
      b.toInt ≤ (signedMax a b).toInt := by
  unfold signedMax
  split_ifs with hlt
  · exact ⟨Or.inl rfl, le_refl _, hlt.le⟩
  · exact ⟨Or.inr rfl, not_lt.mp hlt, le_refl _⟩

/-- A maximum leaves in every row the largest value of the rows combined into it. -/
theorem aggregate_max (hw : 0 < w) {σ : Setting} (hplain : σ.negation = plainNegation) {c : String}
    (hspec : Compatible σ.keys σ.selB [⟨c, c, .max⟩]) (col : String → Column w) {i : ℕ}
    (hi : i < σ.n) :
    (∃ u ∈ combinedInto σ.dir σ.n (groupKey σ col .max) i,
        aggregate σ [⟨c, c, .max⟩] col c i = col c u) ∧
      ∀ u ∈ combinedInto σ.dir σ.n (groupKey σ col .max) i,
        (col c u).toInt ≤ (aggregate σ [⟨c, c, .max⟩] col c i).toInt := by
  have hscan := (scanned_aggregate hw hplain hspec col).result _ (List.mem_singleton.mpr rfl)
  have hvalue : aggregate σ [⟨c, c, .max⟩] col c i =
      scan signedMax (sameGroup σ col .max) (brentKung (Nat.size (σ.n - 1)))
        (σ.dir.view σ.n (col c)) (σ.dir.position σ.n i) :=
    (congrFun hscan i).trans (σ.dir.view_apply _ hi)
  obtain ⟨⟨p, hp, hpick⟩, hlargest⟩ := scan_largest signedMax_picks
    (brentKung (Nat.size (σ.n - 1))) (σ.dir.view σ.n (col c)) (σ.dir.position σ.n i)
  rw [← hvalue] at hpick hlargest
  rw [sameGroup_eq] at hp hlargest
  have hlt : ∀ q, q ∈ sources (fun u t => decide (σ.dir.view σ.n (groupKey σ col .max) u =
      σ.dir.view σ.n (groupKey σ col .max) t)) (brentKung (Nat.size (σ.n - 1)))
      (σ.dir.position σ.n i) → q < σ.n :=
    fun q hq => lt_of_le_of_lt (of_mem_sources hq).1 (σ.dir.position_lt hi)
  constructor
  · exact ⟨_, Finset.mem_image_of_mem _ hp, hpick.trans (σ.dir.view_apply _ (hlt p hp))⟩
  · intro u hu
    obtain ⟨q, hq, rfl⟩ := Finset.mem_image.mp hu
    have hle := hlargest q hq
    rwa [σ.dir.view_apply _ (hlt q hq)] at hle

/-- Of the rows `rows`, which hold their timestamp if they are marked and the filler otherwise, the
largest value is the timestamp of row `f`. -/
def Leaves (rows : Finset ℕ) (marked : ℕ → Prop) (time : Column w) (f : ℕ) : Prop :=
  (∀ u ∈ rows, marked u → (time u).toInt ≤ (time f).toInt) ∧
    ((time f).toInt = -1 ∨ (-1 < (time f).toInt ∧ ∃ u ∈ rows, marked u ∧ time u = time f) ∨
      ((time f).toInt < -1 ∧ ∀ u ∈ rows, marked u))

theorem largest_eq_iff (hw : 0 < w) {rows : Finset ℕ} {marked : ℕ → Prop} [DecidablePred marked]
    {time x : Column w} {v : BitVec w} {f i : ℕ}
    (hx : ∀ u ∈ rows, x u = if marked u then time u else -1) (hi : i ∈ rows)
    (hle : (time f).toInt ≤ (time i).toInt) (hpick : ∃ u ∈ rows, v = x u)
    (hlargest : ∀ u ∈ rows, (x u).toInt ≤ v.toInt) :
    v = time f ↔ Leaves rows marked time f := by
  have hfiller : (-1 : BitVec w).toInt = -1 := EncodedTable.toInt_neg_one_eq hw
  have hmarked : ∀ u ∈ rows, marked u → x u = time u := fun u hu hm => (hx u hu).trans (if_pos hm)
  have hunmarked : ∀ u ∈ rows, ¬ marked u → (x u).toInt = -1 := by
    intro u hu hm
    rw [hx u hu, if_neg hm, hfiller]
  obtain ⟨p, hp, hvp⟩ := hpick
  constructor
  · rintro rfl
    refine ⟨fun u hu hm => hmarked u hu hm ▸ hlargest u hu, ?_⟩
    rcases lt_trichotomy (time f).toInt (-1) with hlt | heq | hgt
    · refine Or.inr (Or.inr ⟨hlt, fun u hu => ?_⟩)
      by_contra hm
      have hbound := hlargest u hu
      rw [hunmarked u hu hm] at hbound
      omega
    · exact Or.inl heq
    · refine Or.inr (Or.inl ⟨hgt, p, hp, ?_⟩)
      by_cases hm : marked p
      · exact ⟨hm, (hmarked p hp hm).symm.trans hvp.symm⟩
      · rw [hvp, hunmarked p hp hm] at hgt
        omega
  · rintro ⟨hbound, hcases⟩
    apply BitVec.eq_of_toInt_eq
    have hself := hlargest i hi
    have hvalue : v.toInt = (x p).toInt := congrArg BitVec.toInt hvp
    have hx_i : (x i).toInt = (time f).toInt ∨ (¬ marked i ∧ (x i).toInt = -1) := by
      by_cases hm : marked i
      · have hi_le := hbound i hi hm
        rw [hmarked i hi hm]
        omega
      · exact Or.inr ⟨hm, hunmarked i hi hm⟩
    have hx_p : (x p).toInt ≤ (time f).toInt ∨ (¬ marked p ∧ (x p).toInt = -1) := by
      by_cases hm : marked p
      · exact Or.inl (hmarked p hp hm ▸ hbound p hp hm)
      · exact Or.inr ⟨hm, hunmarked p hp hm⟩
    rcases hcases with hfill | ⟨hgt, u, hu, hm, heq⟩ | ⟨hlt, hall⟩
    · omega
    · have hu_le := hlargest u hu
      rw [hmarked u hu hm, heq] at hu_le
      omega
    · have hi_eq := hx_i.resolve_right fun h => h.1 (hall i hi)
      have hp_le := hx_p.resolve_right fun h => h.1 (hall p hp)
      omega

namespace EncodedTable

variable {t : EncodedTable w} {keys : List String} {timeA timeB functionRes windowId : String}
  {gap threshold : BitVec w}

/-- The rows that a gap session window combines into row `i`. -/
def gapRows (t : EncodedTable w) (keys : List String) (i : ℕ) : Finset ℕ :=
  combinedInto .forward t.rows (fun i => keyOf keys (t.row i)) i

/-- The rows that a threshold session window combines into row `i`. -/
def aboveRows (t : EncodedTable w) (keys : List String) (functionRes : String) (threshold : BitVec w)
    (i : ℕ) : Finset ℕ :=
  combinedInto .reverse t.rows
    (fun i => (keyOf keys (t.row i), decide (t.Above functionRes threshold i))) i

theorem multiplexB_eq_ite (hw : 0 < w) {m : BitVec w} {p : Prop} [Decidable p]
    (hm : m.getLsbD 0 = decide p) (a b : BitVec w) : multiplexB m a b = if p then b else a := by
  have hbit : multiplexB m a b = multiplexB (bit (decide p)) a b := by
    rw [multiplexB, multiplexB, extendLsb_bit hw, extendLsb, hm]
  rw [hbit, multiplexB_bit hw]
  simp only [decide_eq_true_eq]

/-- The operator's gap mark. -/
def MarkedGap (t : EncodedTable w) (timeA : String) (gap : BitVec w) (i : ℕ) : Prop :=
  Operators.markGapSession (t.col timeA) gap i = 1

instance (t : EncodedTable w) (timeA : String) (gap : BitVec w) (i : ℕ) :
    Decidable (t.MarkedGap timeA gap i) := inferInstanceAs (Decidable (_ = _))

theorem lsb_markGapSession (hw : 0 < w) (i : ℕ) :
    (Operators.markGapSession (t.col timeA) gap i).getLsbD 0 = decide (t.MarkedGap timeA gap i) := by
  have hbit : ∃ b, Operators.markGapSession (t.col timeA) gap i = bit b := by
    unfold Operators.markGapSession
    split_ifs
    · exact ⟨true, rfl⟩
    · exact ⟨_, rfl⟩
  obtain ⟨b, hb⟩ := hbit
  have hiff : t.MarkedGap timeA gap i ↔ b = true := by
    unfold MarkedGap
    rw [hb]
    cases b <;> simp [bit, hw.ne']
  have hdec : decide (t.MarkedGap timeA gap i) = b := by
    rw [Bool.eq_iff_iff, decide_eq_true_iff]
    exact hiff
  rw [hb, hdec]
  cases b <;> simp [bit, hw]

/-- A gap session window leaves the timestamp of row `f` in row `i` exactly if that is the latest mark
among the rows combined into it. -/
theorem gapSessionWindow_eq_iff (hw : 0 < w) (hshared : isBShared windowId = true)
    (hkeys : windowId ∉ keys) (htime : windowId ≠ timeB) {i f : ℕ} (hi : i < t.rows)
    (hle : (t.col timeB f).toInt ≤ (t.col timeB i).toInt) :
    Operators.gapSessionWindow t.rows keys timeA timeB windowId gap t.col windowId i = t.col timeB f ↔
      Leaves (t.gapRows keys i) (t.MarkedGap timeA gap) (t.col timeB) f := by
  have hlargest := aggregate_max hw (σ := ⟨keys, none, .forward, t.rows, plainNegation⟩) rfl
    (compatible_window hshared hkeys (by simp)) (t.windowInput timeA timeB windowId gap) hi
  have hrows : combinedInto .forward t.rows (groupKey ⟨keys, none, .forward, t.rows, plainNegation⟩
      (t.windowInput timeA timeB windowId gap) .max) i = t.gapRows keys i :=
    combinedInto_congr (fun u _ v _ => groupKey_windowInput hkeys u v) hi
  rw [hrows] at hlargest
  refine largest_eq_iff hw (fun u _ => ?_) (mem_combinedInto_self hi) hle hlargest.1 hlargest.2
  rw [windowInput, Function.update_self, Function.update_self, Function.update_of_ne htime.symm]
  exact multiplexB_eq_ite hw (lsb_markGapSession hw u) _ _

/-- The name of the operator's own vector. -/
def potentialName (keys : List String) (functionRes timeB windowId : String) : String :=
  Operators.temporaryName (keys ++ [functionRes, timeB, windowId])

theorem ne_potentialName {c : String} (hmem : c ∈ keys ++ [functionRes, timeB, windowId]) :
    c ≠ potentialName keys functionRes timeB windowId :=
  ne_of_mem_of_not_mem hmem (Operators.temporaryName_notMem _)

/-- The columns the network starts from. -/
def thresholdInput (t : EncodedTable w) (keys : List String) (functionRes timeB windowId : String)
    (threshold : BitVec w) : String → Column w :=
  let input := Function.update t.col (potentialName keys functionRes timeB windowId)
    (Operators.potentialWindow (t.col functionRes) threshold)
  let input := Function.update input windowId (Operators.markThresholdSession
    (input (potentialName keys functionRes timeB windowId)) (input windowId))
  Function.update input windowId fun i => multiplexB (input windowId i) (-1) (input timeB i)

theorem thresholdInput_of_ne {c : String} (hc : c ≠ windowId)
    (hpotential : c ≠ potentialName keys functionRes timeB windowId) :
    t.thresholdInput keys functionRes timeB windowId threshold c = t.col c := by
  rw [thresholdInput, Function.update_of_ne hc, Function.update_of_ne hc,
    Function.update_of_ne hpotential]

theorem thresholdInput_potential :
    t.thresholdInput keys functionRes timeB windowId threshold
      (potentialName keys functionRes timeB windowId) =
        Operators.potentialWindow (t.col functionRes) threshold := by
  have hne : potentialName keys functionRes timeB windowId ≠ windowId :=
    (ne_potentialName (by simp)).symm
  rw [thresholdInput, Function.update_of_ne hne, Function.update_of_ne hne, Function.update_self]

theorem lsb_potentialWindow (hw : 0 < w) (i : ℕ) :
    (Operators.potentialWindow (t.col functionRes) threshold i).getLsbD 0 =
      decide (t.Above functionRes threshold i) := by
  change (bit (decide (t.Above functionRes threshold i)) : BitVec w).getLsbD 0 = _
  by_cases habove : t.Above functionRes threshold i <;> simp [habove, bit, hw]

theorem lsb_markThresholdSession (hw : 0 < w) (i : ℕ) :
    (Operators.markThresholdSession (Operators.potentialWindow (t.col functionRes) threshold)
      (t.col windowId) i).getLsbD 0 =
        decide (t.StartsAbove functionRes windowId threshold i) := by
  unfold Operators.markThresholdSession StartsAbove
  by_cases hzero : i = 0
  · simp [hzero]
  · rw [if_neg hzero, andB1, BitVec.getLsbD_and, BitVec.getLsbD_xor, lsb_potentialWindow hw,
      lsb_potentialWindow hw]
    by_cases habove : t.Above functionRes threshold i <;> simp [hzero, habove]

theorem thresholdInput_self (hw : 0 < w) (htime : windowId ≠ timeB) (i : ℕ) :
    t.thresholdInput keys functionRes timeB windowId threshold windowId i =
      if t.StartsAbove functionRes windowId threshold i then t.col timeB i else -1 := by
  have hpotential : windowId ≠ potentialName keys functionRes timeB windowId :=
    ne_potentialName (by simp)
  have htime_ne : timeB ≠ potentialName keys functionRes timeB windowId :=
    ne_potentialName (by simp)
  rw [thresholdInput, Function.update_self, Function.update_self, Function.update_of_ne htime.symm,
    Function.update_of_ne htime_ne, Function.update_self, Function.update_of_ne hpotential]
  exact multiplexB_eq_ite hw (lsb_markThresholdSession hw i) _ _

/-- A threshold session window leaves the timestamp of row `f` in row `i` exactly if that is the latest
mark among the rows combined into it. -/
theorem thresholdSessionWindow_eq_iff (hw : 0 < w) (hshared : isBShared windowId = true)
    (hkeys : windowId ∉ keys) (htime : windowId ≠ timeB) {i f : ℕ} (hi : i < t.rows)
    (hle : (t.col timeB f).toInt ≤ (t.col timeB i).toInt) :
    Operators.thresholdSessionWindow t.rows keys functionRes timeB windowId threshold t.col windowId
      i = t.col timeB f ↔
      Leaves (t.aboveRows keys functionRes threshold i)
        (t.StartsAbove functionRes windowId threshold) (t.col timeB) f := by
  have hpotential : windowId ≠ potentialName keys functionRes timeB windowId :=
    ne_potentialName (by simp)
  have hlargest := aggregate_max hw
    (σ := ⟨keys, some (potentialName keys functionRes timeB windowId), .reverse, t.rows, plainNegation⟩) rfl
    (compatible_window hshared hkeys fun heq => hpotential (Option.some.inj heq).symm)
    (t.thresholdInput keys functionRes timeB windowId threshold) hi
  have hrows : combinedInto .reverse t.rows
      (groupKey ⟨keys, some (potentialName keys functionRes timeB windowId), .reverse, t.rows, plainNegation⟩
        (t.thresholdInput keys functionRes timeB windowId threshold) .max) i =
      t.aboveRows keys functionRes threshold i := by
    refine combinedInto_congr (fun u _ v _ => ?_) hi
    have hcols : ∀ i, (keys.map fun k =>
        t.thresholdInput keys functionRes timeB windowId threshold k i) = keyOf keys (t.row i) :=
      fun i => List.map_congr_left fun k hk => congrFun (thresholdInput_of_ne
        (ne_of_mem_of_not_mem hk hkeys) (ne_potentialName (List.mem_append_left _ hk))) i
    simp only [groupKey, hcols, Option.map_some, thresholdInput_potential, lsb_potentialWindow hw,
      Prod.mk.injEq, AggregationSelector.isCopy, Bool.false_eq_true, if_false, Option.some.injEq]
  rw [hrows] at hlargest
  have houtput : Operators.thresholdSessionWindow t.rows keys functionRes timeB windowId threshold
      t.col windowId i = Aggregators.aggregate
        ⟨keys, some (potentialName keys functionRes timeB windowId), .reverse, t.rows, plainNegation⟩
        [⟨windowId, windowId, .max⟩] (t.thresholdInput keys functionRes timeB windowId threshold)
        windowId i := congrFun (Function.update_of_ne hpotential _ _) i
  rw [houtput]
  exact largest_eq_iff hw (fun u _ => thresholdInput_self hw htime u) (mem_combinedInto_self hi) hle
    hlargest.1 hlargest.2

theorem thresholdSessionWindow_other (hw : 0 < w) (hshared : isBShared windowId = true)
    (hkeys : windowId ∉ keys) {c : String} (hc : c ≠ windowId) :
    Operators.thresholdSessionWindow t.rows keys functionRes timeB windowId threshold t.col c =
      t.col c := by
  have hpotential : windowId ≠ potentialName keys functionRes timeB windowId :=
    ne_potentialName (by simp)
  by_cases heq : c = potentialName keys functionRes timeB windowId
  · subst heq
    exact Function.update_self _ _ _
  · have hother := (scanned_aggregate
      (σ := ⟨keys, some (potentialName keys functionRes timeB windowId), .reverse, t.rows, plainNegation⟩)
        hw rfl
      (compatible_window hshared hkeys fun h => hpotential (Option.some.inj h).symm)
      (t.thresholdInput keys functionRes timeB windowId threshold)).other c
        fun hmem => hc (List.mem_singleton.mp hmem)
    exact (Function.update_of_ne heq _ _).trans (hother.trans (thresholdInput_of_ne hc heq))

/-- The size that the network accepts: it asserts a power of two, and that a level is within its depth,
which a single row has none of. -/
def NetworkSize (n : ℕ) : Prop := isPowerOfTwo n = true ∧ 1 < n

instance (n : ℕ) : Decidable (NetworkSize n) := inferInstanceAs (Decidable (_ ∧ _))

/-- The columns a session window reads and writes. -/
structure WindowColumns (t : EncodedTable w) (keys : List String) (timeB windowId : String) : Prop where
  width : ShareWidth w
  columns : ∀ c ∈ keys ++ [timeB, windowId], c ∈ t.schema ∧ isBShared c = true
  written : windowId ∉ encTableValid :: timeB :: keys
  valid : encTableValid ∉ timeB :: keys

theorem WindowColumns.window (hcolumns : WindowColumns t keys timeB windowId) :
    (windowId ∈ t.schema ∧ isBShared windowId = true) ∧ windowId ∉ keys ∧ windowId ≠ timeB ∧
      windowId ≠ encTableValid := by
  have hwritten := hcolumns.written
  rw [List.mem_cons, List.mem_cons, not_or, not_or] at hwritten
  exact ⟨hcolumns.columns _ (by simp), hwritten.2.2, hwritten.2.1, hwritten.1⟩

/-- All that a window changes is the columns `written`. -/
def AgreesExcept (t t' : EncodedTable w) (written : List String) : Prop :=
  t'.rows = t.rows ∧ ∀ c, c ∉ written → t'.col c = t.col c

variable {numParties : ℕ} {protocol : SortingProtocol}

theorem returns_gapSessionWindow (hcolumns : WindowColumns t keys timeB windowId)
    (htime : timeA ∈ t.schema ∧ isBShared timeA = false) (hsize : NetworkSize t.rows) :
    Draws.Returns (gapSessionWindow numParties protocol t keys timeA timeB windowId gap false) fun t' =>
      t.AgreesExcept t' [windowId] ∧ ∀ i, i < t.rows → ∀ f,
        (t.col timeB f).toInt ≤ (t.col timeB i).toInt → (t'.col windowId i = t.col timeB f ↔
          Leaves (t.gapRows keys i) (t.MarkedGap timeA gap) (t.col timeB) f) := by
  have hw := hcolumns.width.pos
  obtain ⟨⟨hwindow, hshared⟩, hkeys, hne, _⟩ := hcolumns.window
  rw [gapSessionWindow, if_neg Bool.false_ne_true]
  refine Draws.Returns.bind (Draws.Returns.pure rfl) fun _ ht => ?_
  subst ht
  refine Draws.Returns.bind (returns_guard fun c hc => ?_) fun _ _ => ?_
  · simp only [List.mem_append, List.mem_cons, List.not_mem_nil, or_false] at hc
    rcases hc with hc | rfl | hc
    · exact (hcolumns.columns c (List.mem_append_left _ hc)).1
    · exact htime.1
    · exact (hcolumns.columns c (List.mem_append_right _ (by simpa using hc))).1
  refine Draws.Returns.bind (returns_guard ⟨fun k hk =>
    (hcolumns.columns k (List.mem_append_left _ hk)).2, htime.2,
    (hcolumns.columns timeB (by simp)).2, hshared⟩) fun _ _ => ?_
  refine Draws.Returns.bind (returns_guard hsize) fun _ _ => ?_
  refine Draws.Returns.pure ⟨⟨rfl, fun c hc => ?_⟩, fun i hi f hle => ?_⟩
  · change (if c ∈ t.schema then _ else 0) = t.col c
    split_ifs with hmem
    · exact gapSessionWindow_other hw hshared hkeys fun heq => hc (List.mem_singleton.mpr heq)
    · exact (t.col_of_notMem c hmem).symm
  · have hcol : (t.withColumns (Operators.gapSessionWindow t.rows keys timeA timeB windowId gap
        t.col)).col windowId =
        Operators.gapSessionWindow t.rows keys timeA timeB windowId gap t.col windowId :=
      if_pos hwindow
    rw [hcol]
    exact gapSessionWindow_eq_iff hw hshared hkeys hne hi hle

theorem returns_thresholdSessionWindow (hcolumns : WindowColumns t keys timeB windowId)
    (hfunction : functionRes ∈ t.schema ∧ isBShared functionRes = true) (hsize : NetworkSize t.rows)
    (markValid : Bool) :
    Draws.Returns (thresholdSessionWindow numParties protocol t keys functionRes timeB windowId
        threshold false markValid) fun t' =>
      t.AgreesExcept t' [windowId, encTableValid] ∧ ∀ i, i < t.rows → ∀ f,
        (t.col timeB f).toInt ≤ (t.col timeB i).toInt → (t'.col windowId i = t.col timeB f ↔
          Leaves (t.aboveRows keys functionRes threshold i)
            (t.StartsAbove functionRes windowId threshold) (t.col timeB) f) := by
  have hw := hcolumns.width.pos
  obtain ⟨⟨hwindow, hshared⟩, hkeys, hne, hvalid⟩ := hcolumns.window
  rw [thresholdSessionWindow, if_neg Bool.false_ne_true]
  refine Draws.Returns.bind (Draws.Returns.pure rfl) fun _ ht => ?_
  subst ht
  refine Draws.Returns.bind (returns_guard fun c hc => ?_) fun _ _ => ?_
  · simp only [List.mem_append, List.mem_cons, List.not_mem_nil, or_false] at hc
    rcases hc with hc | rfl | hc
    · exact (hcolumns.columns c (List.mem_append_left _ hc)).1
    · exact hfunction.1
    · exact (hcolumns.columns c (List.mem_append_right _ (by simpa using hc))).1
  refine Draws.Returns.bind (returns_guard ⟨fun k hk =>
    (hcolumns.columns k (List.mem_append_left _ hk)).2, hfunction.2,
    (hcolumns.columns timeB (by simp)).2, hshared⟩) fun _ _ => ?_
  refine Draws.Returns.bind (returns_guard hsize) fun _ _ => ?_
  have hcol : ∀ c, c ∉ [windowId, encTableValid] ∨ c = windowId →
      (if markValid then (t.withColumns (Operators.thresholdSessionWindow t.rows keys functionRes timeB
        windowId threshold t.col)).filter fun i => greaterB ((t.withColumns
          (Operators.thresholdSessionWindow t.rows keys functionRes timeB windowId threshold
            t.col)).col windowId i) 0
        else t.withColumns (Operators.thresholdSessionWindow t.rows keys functionRes timeB windowId
          threshold t.col)).col c =
      if c ∈ t.schema then Operators.thresholdSessionWindow t.rows keys functionRes timeB windowId
        threshold t.col c else 0 := by
    intro c hc
    have hne_valid : c ≠ encTableValid := by
      rcases hc with hc | rfl
      · exact fun heq => hc (by simp [heq])
      · exact hvalid
    cases markValid with
    | false => rfl
    | true => exact filter_col _ _ hne_valid
  refine Draws.Returns.pure ⟨⟨?_, fun c hc => ?_⟩, fun i hi f hle => ?_⟩
  · cases markValid <;> rfl
  · rw [hcol c (Or.inl hc)]
    split_ifs with hmem
    · exact thresholdSessionWindow_other hw hshared hkeys fun heq => hc (by simp [heq])
    · exact (t.col_of_notMem c hmem).symm
  · rw [hcol windowId (Or.inr rfl), if_pos hwindow]
    exact thresholdSessionWindow_eq_iff hw hshared hkeys hne hi hle

end EncodedTable

end CryptDough
