import CryptDough.QueryTables

/-! Queries that select groups by their aggregates. -/

namespace CryptDough

open Opened Aggregators

variable {w : ℕ}

namespace AggregationSelector

variable {M : Multiset (BitVec w)} {x : BitVec w}

theorem signedMin_cases (a b : BitVec w) :
    (signedMin a b = a ∨ signedMin a b = b) ∧ (signedMin a b).toInt ≤ a.toInt ∧
      (signedMin a b).toInt ≤ b.toInt := by
  unfold signedMin
  split_ifs with h
  · exact ⟨.inl rfl, le_refl _, h⟩
  · exact ⟨.inr rfl, (not_le.mp h).le, le_refl _⟩

theorem signedMax_cases (a b : BitVec w) :
    (signedMax a b = a ∨ signedMax a b = b) ∧ a.toInt ≤ (signedMax a b).toInt ∧
      b.toInt ≤ (signedMax a b).toInt := by
  unfold signedMax
  split_ifs with h
  · exact ⟨.inl rfl, le_refl _, h.le⟩
  · exact ⟨.inr rfl, not_lt.mp h, le_refl _⟩

theorem total_min_le (hx : x ∈ M) : (min.total M).toInt ≤ x.toInt := by
  induction M using Multiset.induction_on with
  | empty => exact absurd hx (Multiset.notMem_zero x)
  | cons a M ih =>
      change (Multiset.fold signedMin _ _).toInt ≤ _
      rw [Multiset.fold_cons_left]
      have hcases := signedMin_cases a (M.fold signedMin (BitVec.intMax w))
      rcases Multiset.mem_cons.mp hx with rfl | hx
      · exact hcases.2.1
      · exact hcases.2.2.trans (ih hx)

theorem le_total_max (hx : x ∈ M) : x.toInt ≤ (max.total M).toInt := by
  induction M using Multiset.induction_on with
  | empty => exact absurd hx (Multiset.notMem_zero x)
  | cons a M ih =>
      change _ ≤ (Multiset.fold signedMax _ _).toInt
      rw [Multiset.fold_cons_left]
      have hcases := signedMax_cases a (M.fold signedMax (BitVec.intMin w))
      rcases Multiset.mem_cons.mp hx with rfl | hx
      · exact hcases.2.1
      · exact (ih hx).trans hcases.2.2

/-- The smallest value is one of the values. -/
theorem total_min_mem (hM : M ≠ 0) : min.total M ∈ M := by
  induction M using Multiset.induction_on with
  | empty => exact absurd rfl hM
  | cons a M ih =>
      change Multiset.fold signedMin _ _ ∈ _
      rw [Multiset.fold_cons_left, Multiset.mem_cons]
      by_cases hM' : M = 0
      · rw [hM', Multiset.fold_zero, signedMin_intMax]
        exact .inl rfl
      · rcases (signedMin_cases a (M.fold signedMin _)).1 with heq | heq
        · exact .inl heq
        · exact .inr (heq.symm ▸ ih hM')

theorem total_max_mem (hM : M ≠ 0) : max.total M ∈ M := by
  induction M using Multiset.induction_on with
  | empty => exact absurd rfl hM
  | cons a M ih =>
      change Multiset.fold signedMax _ _ ∈ _
      rw [Multiset.fold_cons_left, Multiset.mem_cons]
      by_cases hM' : M = 0
      · rw [hM', Multiset.fold_zero, signedMax_intMin]
        exact .inl rfl
      · rcases (signedMax_cases a (M.fold signedMax _)).1 with heq | heq
        · exact .inl heq
        · exact .inr (heq.symm ▸ ih hM')

end AggregationSelector

namespace EncodedTable

variable {numParties : ℕ} {protocol : SortingProtocol}

section CreditScore

def targetYear : BitVec 64 := 2023

def threshold : BitVec 64 := 150

def creditScoreSpec : AggregationSpec :=
  [⟨"[CS]", "[CS_MIN]", .min⟩, ⟨"[CS]", "[CS_MAX]", .max⟩]

/-- `SELECT UID FROM (SELECT UID, MIN(CS) AS CS1, MAX(CS) AS CS2 FROM R WHERE YEAR = targetYear
GROUP BY UID) WHERE CS2 - CS1 > threshold` -/
def creditScore (numParties : ℕ) (protocol : SortingProtocol) (R : EncodedTable 64) :
    Draws (EncodedTable 64) := do
  R.requireColumns ["[YEAR]"]
  let R := R.filter fun i => equalB (R.col "[YEAR]" i) targetYear
  let R ← R.addColumns ["[CS_MIN]", "[CS_MAX]"]
  let R ← aggregate numParties protocol R ["[UID]"] creditScoreSpec {}
  R.requireColumns ["[CS_MAX]", "[CS_MIN]"]
  let R := R.filter fun i => greaterB (R.col "[CS_MAX]" i - R.col "[CS_MIN]" i) threshold
  pure (R.project ["[UID]"])

/-- Two scores of one year, that far apart. -/
def FarApart (rows : Multiset (Row 64)) (uid : List (BitVec 64)) : Prop :=
  ∃ ρ ∈ rows, ∃ σ ∈ rows, keyOf ["[UID]"] ρ = uid ∧ keyOf ["[UID]"] σ = uid ∧
    ρ "[YEAR]" = targetYear ∧ σ "[YEAR]" = targetYear ∧
      threshold.toInt < (σ "[CS]").toInt - (ρ "[CS]").toInt

structure CreditScoreTable (R : EncodedTable 64) : Prop where
  ready : R.Ready
  columns : ∀ c ∈ ["[UID]", "[YEAR]", "[CS]"], c ∈ R.schema
  fresh : ∀ c ∈ ["[CS_MIN]", "[CS_MAX]"], c ∉ R.schema
  rows_gt : 1 < R.rows
  rows_le : R.rows ≤ 2 ^ 30
  /-- The scores of a uid in the year differ by 64-bit numbers. -/
  scores : ∀ ρ ∈ R.validRows, ∀ σ ∈ R.validRows, ρ "[YEAR]" = targetYear → σ "[YEAR]" = targetYear →
    keyOf ["[UID]"] ρ = keyOf ["[UID]"] σ → (σ "[CS]").toInt - (ρ "[CS]").toInt < 2 ^ 63

variable {R : EncodedTable 64}

/-- The difference of the extremes of a group is that of two of its values. -/
theorem threshold_lt_iff {M : Multiset (BitVec 64)} (hM : M ≠ 0)
    (hscores : ∀ x ∈ M, ∀ y ∈ M, y.toInt - x.toInt < 2 ^ 63) :
    threshold.toInt < (AggregationSelector.max.total M - AggregationSelector.min.total M).toInt ↔
      ∃ x ∈ M, ∃ y ∈ M, threshold.toInt < y.toInt - x.toInt := by
  have hmin := AggregationSelector.total_min_mem hM
  have hmax := AggregationSelector.total_max_mem hM
  have hle := AggregationSelector.total_min_le hmax
  have hlt := hscores _ hmin _ hmax
  have hsub : (AggregationSelector.max.total M - AggregationSelector.min.total M).toInt =
      (AggregationSelector.max.total M).toInt - (AggregationSelector.min.total M).toInt := by
    rw [BitVec.toInt_sub, Int.bmod_eq_of_le] <;> omega
  rw [hsub]
  constructor
  · exact fun h => ⟨_, hmin, _, hmax, h⟩
  · rintro ⟨x, hx, y, hy, h⟩
    have hx := AggregationSelector.total_min_le hx
    have hy := AggregationSelector.le_total_max hy
    omega

/-- What the last filter tests in the row of a group. -/
def exceedsThreshold (ρ : Row 64) : Bool :=
  decide (threshold.toInt < (ρ "[CS_MAX]" - ρ "[CS_MIN]").toInt)

theorem groupValue_min (data result : String) (rows : Multiset (Row w)) :
    groupValue ⟨data, result, .min⟩ rows =
      AggregationSelector.min.total (rows.map fun ρ => ρ data) := rfl

theorem groupValue_max (data result : String) (rows : Multiset (Row w)) :
    groupValue ⟨data, result, .max⟩ rows =
      AggregationSelector.max.total (rows.map fun ρ => ρ data) := rfl

/-- The group of a uid, by its extremes. -/
theorem farApart_iff (h : CreditScoreTable R) {uid : List (BitVec 64)}
    (huid : uid ∈ (R.validRows.filter fun ρ => ρ "[YEAR]" = targetYear).map (keyOf ["[UID]"])) :
    FarApart R.validRows uid ↔ threshold.toInt <
      (groupValue ⟨"[CS]", "[CS_MAX]", .max⟩ (Relational.select (keyOf ["[UID]"]) uid
          (R.validRows.filter fun ρ => ρ "[YEAR]" = targetYear)) -
        groupValue ⟨"[CS]", "[CS_MIN]", .min⟩ (Relational.select (keyOf ["[UID]"]) uid
          (R.validRows.filter fun ρ => ρ "[YEAR]" = targetYear))).toInt := by
  have hmem : ∀ ρ, ρ ∈ Relational.select (keyOf ["[UID]"]) uid
      (R.validRows.filter fun ρ => ρ "[YEAR]" = targetYear) ↔
        (ρ ∈ R.validRows ∧ ρ "[YEAR]" = targetYear) ∧ keyOf ["[UID]"] ρ = uid := fun ρ => by
    rw [Relational.mem_select, Multiset.mem_filter]
  obtain ⟨τ, hτ, hτ_uid⟩ := Multiset.mem_map.mp huid
  have hne := Multiset.card_pos_iff_exists_mem.mpr ⟨τ, Relational.mem_select.mpr ⟨hτ, hτ_uid⟩⟩
  rw [groupValue_max, groupValue_min, threshold_lt_iff]
  · constructor
    · rintro ⟨ρ, hρ, σ, hσ, hρ_uid, hσ_uid, hρ_year, hσ_year, hlt⟩
      exact ⟨_, Multiset.mem_map_of_mem _ ((hmem ρ).mpr ⟨⟨hρ, hρ_year⟩, hρ_uid⟩), _,
        Multiset.mem_map_of_mem _ ((hmem σ).mpr ⟨⟨hσ, hσ_year⟩, hσ_uid⟩), hlt⟩
    · rintro ⟨x, hx, y, hy, hlt⟩
      obtain ⟨ρ, hρ, rfl⟩ := Multiset.mem_map.mp hx
      obtain ⟨σ, hσ, rfl⟩ := Multiset.mem_map.mp hy
      obtain ⟨⟨hρ, hρ_year⟩, hρ_uid⟩ := (hmem ρ).mp hρ
      obtain ⟨⟨hσ, hσ_year⟩, hσ_uid⟩ := (hmem σ).mp hσ
      exact ⟨ρ, hρ, σ, hσ, hρ_uid, hσ_uid, hρ_year, hσ_year, hlt⟩
  · rw [← Multiset.card_pos, Multiset.card_map]
    exact hne
  · intro x hx y hy
    obtain ⟨ρ, hρ, rfl⟩ := Multiset.mem_map.mp hx
    obtain ⟨σ, hσ, rfl⟩ := Multiset.mem_map.mp hy
    obtain ⟨⟨hρ, hρ_year⟩, hρ_uid⟩ := (hmem ρ).mp hρ
    obtain ⟨⟨hσ, hσ_year⟩, hσ_uid⟩ := (hmem σ).mp hσ
    exact h.scores ρ hρ σ hσ hρ_year hσ_year (hρ_uid.trans hσ_uid.symm)

def exampleScores : EncodedTable 64 :=
  ofColumns 2 (fun _ => 1)
    [("[UID]", fun _ => 8), ("[YEAR]", fun _ => 2023), ("[CS]", fun i => if i = 0 then 300 else 600)]

theorem exampleScores_table : CreditScoreTable exampleScores where
  ready := ⟨by unfold SingleBit; decide, by decide⟩
  columns := by decide
  fresh := by decide
  rows_gt := by decide
  rows_le := by decide
  scores ρ hρ σ hσ _ _ _ := by
    have hscore : ∀ ρ ∈ exampleScores.validRows, (ρ "[CS]").toInt = 300 ∨ (ρ "[CS]").toInt = 600 := by
      intro ρ hρ
      rw [validRows_eq] at hρ
      obtain ⟨i, -, rfl⟩ := Multiset.mem_map.mp hρ
      change (if i = 0 then (300 : BitVec 64) else 600).toInt = 300 ∨
        (if i = 0 then (300 : BitVec 64) else 600).toInt = 600
      split_ifs
      · exact .inl rfl
      · exact .inr rfl
    rcases hscore ρ hρ with hρ | hρ <;> rcases hscore σ hσ with hσ | hσ <;> omega

end CreditScore

section PwdReuse

/-- `SELECT ID FROM R GROUP BY ID, PWD HAVING COUNT(*) > 1` -/
def pwdReuse (numParties : ℕ) (protocol : SortingProtocol) (R : EncodedTable 64) :
    Draws (EncodedTable 64) := do
  let R ← R.addColumns ["Count"]
  let R ← aggregate numParties protocol R ["[ID]", "[Password]"] [⟨"Count", "Count", .count⟩] {}
  let R ← R.addColumns ["[Count]"]
  let R ← R.convertA2b "Count" "[Count]"
  R.requireColumns ["[Count]"]
  let R := R.filter fun i => greaterB (R.col "[Count]" i) 1
  pure (R.project ["[ID]"])

structure PasswordTable (R : EncodedTable 64) : Prop where
  ready : R.Ready
  columns : ∀ c ∈ ["[ID]", "[Password]"], c ∈ R.schema
  fresh : "Count" ∉ R.schema ∧ "[Count]" ∉ R.schema
  rows_gt : 1 < R.rows
  rows_le : R.rows ≤ 2 ^ 30

variable {R : EncodedTable 64}

theorem toInt_natCast_of_lt {n : ℕ} (hn : n < 2 ^ 63) : ((n : BitVec 64)).toInt = n := by
  rw [BitVec.natCast_eq_ofNat, BitVec.toInt_ofNat', Int.bmod_eq_of_le] <;> omega

theorem toNat_natCast_of_lt {n : ℕ} (hn : n < 2 ^ 63) : ((n : BitVec 64)).toNat = n := by
  rw [BitVec.natCast_eq_ofNat, BitVec.toNat_ofNat, Nat.mod_eq_of_lt]
  omega

/-- The id of every pair of an id and a password that more than one row has. -/
theorem pwdReuse_rows (h : PasswordTable R)
    (hprotocol : protocol = .quicksort ∨ protocol = .radixsort) :
    Draws.Returns (pwdReuse numParties protocol R) fun out =>
      out.validRows.map (keyOf ["[ID]"]) =
        ((R.validRows.map (keyOf ["[ID]", "[Password]"])).dedup.filter fun k =>
          1 < (R.validRows.map (keyOf ["[ID]", "[Password]"])).count k).map (List.take 1) := by
  rw [pwdReuse, ← bind_assoc]
  refine (h.ready.returns_counts shareWidth_64 h.rows_gt h.rows_le
    ⟨by decide, by decide, by decide, by decide, by decide, by decide, by decide, by decide⟩
    h.columns (by decide) h.fresh.1 hprotocol).bind fun G hG => ?_
  obtain ⟨hG, -, hschema⟩ := hG
  have hfresh : "[Count]" ∉ G.schema := by
    rw [hschema]
    exact fun hmem => hmem.elim (by decide) h.fresh.2
  refine (hG.ready.returns_addColumns (by decide) (by decide)
    (List.forall_mem_singleton.mpr hfresh)).bind fun A hA => ?_
  have hcount : "[Count]" ∈ A.schema := (hA.schema _).mpr (.inl (by decide))
  refine (returns_convertA2b (by simp [hA.schema, hschema]) hcount).bind fun B hB => ?_
  subst hB
  refine (returns_requireColumns (List.forall_mem_singleton.mpr hcount)).bind fun _ _ =>
    Draws.Returns.pure ?_
  have hready : (A.assign "[Count]" (A.col "Count")).Ready := hA.ready.assign (by decide) _
  have hassign : (A.assign "[Count]" (A.col "Count")).validRows =
      G.validRows.map fun ρ => Function.update ρ "[Count]" (ρ "Count") :=
    hA.validRows ▸ validRows_assign A hcount (by decide) fun _ _ => rfl
  have hfilter := (hready.filter (p := fun ρ => decide ((1 : BitVec 64).toInt < (ρ "[Count]").toInt))
    (by decide) fun _ _ => rfl).2
  have hcard : ∀ k, (R.validRows.map (keyOf ["[ID]", "[Password]"])).count k < 2 ^ 63 := by
    intro k
    have hle := (Multiset.count_le_card k (R.validRows.map (keyOf ["[ID]", "[Password]"]))).trans
      ((Multiset.card_map _ _).trans_le (card_validRows_le R))
    have hrows := h.rows_le
    omega
  rw [validRows_keep]
  apply (congrArg (fun M => (M.map (keep ["[ID]"])).map (keyOf ["[ID]"])) hfilter).trans
  rw [hassign, Multiset.filter_map, Multiset.map_map, Multiset.map_map]
  have hgroups := Relational.map_filter_groups hG.groups
    fun _ x => (1 : BitVec 64).toInt < x.toInt
  have hselect : ((R.validRows.map (keyOf ["[ID]", "[Password]"])).dedup.filter fun k =>
        1 < (R.validRows.map (keyOf ["[ID]", "[Password]"])).count k) =
      (G.validRows.filter fun ρ => (1 : BitVec 64).toInt < (ρ "Count").toInt).map
        (keyOf ["[ID]", "[Password]"]) := by
    rw [hgroups]
    refine Multiset.filter_congr fun k _ => ?_
    rw [Relational.card_select, toInt_natCast_of_lt (hcard k)]
    exact Nat.one_lt_cast.symm
  rw [hselect, Multiset.map_map]
  refine congrArg₂ Multiset.map (funext fun ρ => ?_) (Multiset.filter_congr fun ρ _ => ?_)
  · simp [keyOf, keep]
  · rw [Function.comp_apply, Function.update_self, decide_eq_true_iff]

def examplePasswords : EncodedTable 64 :=
  ofColumns 3 (fun _ => 1) [("[ID]", fun _ => 2), ("[Password]", fun i => if i = 0 then 5 else 9)]

theorem examplePasswords_table : PasswordTable examplePasswords where
  ready := ⟨by unfold SingleBit; decide, by decide⟩
  columns := by decide
  fresh := by decide
  rows_gt := by decide
  rows_le := by decide

theorem pwdReuse_rows_example :
    Draws.Returns (pwdReuse 3 .radixsort examplePasswords) fun out =>
      out.validRows.map (keyOf ["[ID]"]) =
        ((examplePasswords.validRows.map (keyOf ["[ID]", "[Password]"])).dedup.filter fun k =>
          1 < (examplePasswords.validRows.map (keyOf ["[ID]", "[Password]"])).count k).map
            (List.take 1) :=
  pwdReuse_rows examplePasswords_table (.inr rfl)

end PwdReuse

end EncodedTable

end CryptDough
