import CryptDough.QueryTables

/-! Query programs, and the relations that the SQL text of each of them denotes. -/

namespace CryptDough.EncodedTable

open Opened Aggregators

theorem sum_one {α : Type} {w : ℕ} (M : Multiset α) :
    (M.map fun _ => (1 : BitVec w)).sum = (Multiset.card M : BitVec w) := by
  rw [Multiset.map_const', Multiset.sum_replicate, nsmul_one]

variable {numParties : ℕ} {protocol : SortingProtocol}

section SecrecyQ2

/-- `SELECT R.ak, COUNT(*) FROM R, S WHERE R.id = S.id GROUP BY R.ak` -/
def secrecyQ2 (numParties : ℕ) (protocol : SortingProtocol) (R S : EncodedTable 64) :
    Draws (EncodedTable 64) := do
  let S ← S.addColumns ["CNT"]
  let S ← aggregate numParties protocol S ["[id]"] [⟨"CNT", "CNT", .count⟩] {}
  let RJ ← innerJoin numParties protocol S R ["[id]"] [⟨"CNT", "CNT", .copyA⟩]
  let RJ := RJ.project ["[ak]", "CNT"]
  aggregate numParties protocol RJ ["[ak]"] [⟨"CNT", "CNT", .sum⟩] {}

structure SecrecyQ2Tables (R S : EncodedTable 64) : Prop where
  ready : R.Ready ∧ S.Ready
  columns : "[id]" ∈ R.schema ∧ "[ak]" ∈ R.schema ∧ "[id]" ∈ S.schema
  fresh : "CNT" ∉ S.schema
  rows_gt : 1 < R.rows ∧ 1 < S.rows
  rows_le : S.rows + R.rows ≤ 2 ^ 30

variable {R S : EncodedTable 64}

/-- The rows of an id are as many as the pairs it is in. -/
theorem secrecyQ2_relation {R S S' : Multiset (Row 64)}
    (hS : (S'.map fun ρ => (keyOf ["[id]"] ρ, ρ "CNT")) =
      Relational.groupBy (keyOf ["[id]"]) (fun M => (Multiset.card M : BitVec 64)) S) :
    Relational.groupBy (fun p => keyOf ["[ak]"] p.1) (fun M => (M.map fun p => p.2 "CNT").sum)
        (Relational.join (keyOf ["[id]"]) (keyOf ["[id]"]) R S') =
      Relational.groupBy (fun p => keyOf ["[ak]"] p.1) (fun M => (Multiset.card M : BitVec 64))
        (Relational.join (keyOf ["[id]"]) (keyOf ["[id]"]) R S) := by
  simp only [← sum_one] at hS ⊢
  refine Relational.groupBy_join_of_groups (φ := fun _ _ => 1) (v := fun _ c => c "CNT")
    (keyOf ["[ak]"]) (Relational.keys_of_groupBy hS) fun _ _ c hc => ?_
  exact Relational.value_of_groupBy hS hc

theorem secrecyQ2_rows (hparties : numParties ≠ 2) (h : SecrecyQ2Tables R S)
    (hprotocol : protocol = .quicksort ∨ protocol = .radixsort) :
    Draws.Returns (secrecyQ2 numParties protocol R S) (SummaryTable ["[ak]"] "CNT"
      (Relational.groupBy (fun p => keyOf ["[ak]"] p.1) (fun M => (Multiset.card M : BitVec 64))
        (Relational.join (keyOf ["[id]"]) (keyOf ["[id]"]) R.validRows S.validRows))) := by
  obtain ⟨hR, hS⟩ := h.ready
  obtain ⟨hR_id, hR_ak, hS_id⟩ := h.columns
  obtain ⟨hR_gt, hS_gt⟩ := h.rows_gt
  have hrows_le := h.rows_le
  rw [secrecyQ2, ← bind_assoc]
  refine (hS.returns_counts shareWidth_64 hS_gt ((Nat.le_add_right _ _).trans hrows_le)
    ⟨by decide, by decide, by decide, by decide, by decide, by decide, by decide, by decide⟩
    (List.forall_mem_singleton.mpr hS_id) (by decide) h.fresh hprotocol).bind fun S' hS' => ?_
  obtain ⟨hS', hrows, hschema⟩ := hS'
  have hjoin : JoinKeysSpec ["[id]"] [⟨"CNT", "CNT", .copyA⟩] :=
    ⟨by decide, by decide, by decide, by decide, by decide, by decide, by decide⟩
  have hcall := hjoin.call hS'.ready hR shareWidth_64 (by omega) (hrows ▸ hrows_le)
    (by simp [hschema, hS_id])
  refine (hcall.returns_innerJoin hparties (hrows ▸ hrows_le) hS'.nodup hprotocol).bind fun RJ hRJ => ?_
  obtain ⟨hjoined, hRJ_rows⟩ := hRJ
  have hrows_gt : 1 < RJ.rows := lt_of_lt_of_le hR_gt hjoined.rows_ge
  have hrows_le : RJ.rows ≤ 2 ^ 30 := hjoined.rows_le.trans (hrows ▸ hrows_le)
  refine (hjoined.ready.returns_sums shareWidth_64 hrows_gt hrows_le
    ⟨by decide, by decide, by decide, by decide, by decide, by decide, by decide, by decide⟩
    (by simp [hjoined.schema, joinColumns, hschema, hR_ak]) hprotocol).mono fun out hout => ?_
  have hout := hout.1
  rw [hRJ_rows, Relational.groupBy_map] at hout
  rw [← secrecyQ2_relation hS'.groups]
  simpa only [keyOf, List.map_cons, List.map_nil, copied_singleton, Multiset.map_map, Function.comp_def,
    if_pos, String.reduceEq, if_false] using hout

def exampleR : EncodedTable 64 :=
  ofColumns 2 (fun _ => 1) [("[id]", fun i => i), ("[ak]", fun _ => 7)]

def exampleS : EncodedTable 64 := ofColumns 2 (fun _ => 1) [("[id]", fun _ => 1)]

theorem exampleR_tables : SecrecyQ2Tables exampleR exampleS where
  ready := ⟨⟨by unfold SingleBit; decide, by decide⟩, ⟨by unfold SingleBit; decide, by decide⟩⟩
  columns := by decide
  fresh := by decide
  rows_gt := by decide
  rows_le := by decide

theorem secrecyQ2_rows_example :
    Draws.Returns (secrecyQ2 3 .radixsort exampleR exampleS) (SummaryTable ["[ak]"] "CNT"
      (Relational.groupBy (fun p => keyOf ["[ak]"] p.1) (fun M => (Multiset.card M : BitVec 64))
        (Relational.join (keyOf ["[id]"]) (keyOf ["[id]"]) exampleR.validRows exampleS.validRows))) :=
  secrecyQ2_rows (by decide) exampleR_tables (.inr rfl)

end SecrecyQ2

section CustomAgg

/-- `SELECT class_, SUM(cost * (100 - coinsurance)) FROM T1, T2, T3 WHERE T1.person = T2.person AND
T2.disease = T3.disease GROUP BY class_`, up to the public division of the totals. -/
def customAgg (numParties : ℕ) (protocol : SortingProtocol) (T1 T2 T3 : EncodedTable 64) :
    Draws (EncodedTable 64) := do
  let T1 := T1.project ["[person]", "coinsurance"]
  let T1 ← T1.addColumns ["percentage"]
  T1.requireColumns ["percentage", "coinsurance"]
  let T1 := T1.assign "percentage" fun i => -T1.col "coinsurance" i + 100
  let T1 := T1.project ["[person]", "percentage"]
  let T1 ← aggregate numParties protocol T1 ["[person]"] [⟨"percentage", "percentage", .sum⟩] {}
  let T12 ← innerJoin numParties protocol T1 T2 ["[person]"] [⟨"percentage", "percentage", .copyA⟩]
  let T12 ← T12.addColumns ["insCost"]
  T12.requireColumns ["insCost", "percentage", "cost"]
  let T12 := T12.assign "insCost" fun i => T12.col "percentage" i * T12.col "cost" i
  let T12 := T12.project ["[disease]", "insCost"]
  let T12 ← aggregate numParties protocol T12 ["[disease]"] [⟨"insCost", "insCost", .sum⟩] {}
  let T123 ← innerJoin numParties protocol T12 T3 ["[disease]"] [⟨"insCost", "insCost", .copyA⟩]
  let T123 := T123.project ["[class_]", "insCost"]
  aggregate numParties protocol T123 ["[class_]"] [⟨"insCost", "insCost", .sum⟩] {}

structure CustomAggTables (T1 T2 T3 : EncodedTable 64) : Prop where
  ready : T1.Ready ∧ T2.Ready ∧ T3.Ready
  columns₁ : "[person]" ∈ T1.schema ∧ "coinsurance" ∈ T1.schema
  columns₂ : "[person]" ∈ T2.schema ∧ "[disease]" ∈ T2.schema ∧ "cost" ∈ T2.schema
  columns₃ : "[disease]" ∈ T3.schema ∧ "[class_]" ∈ T3.schema
  fresh : "insCost" ∉ T2.schema
  rows_gt : 1 < T1.rows ∧ 1 < T2.rows ∧ 1 < T3.rows
  rows_le : T1.rows + T2.rows + T3.rows ≤ 2 ^ 30

variable {T1 T2 T3 : EncodedTable 64}

/-- The percentages of a person, summed up before the join, and the costs of a disease. -/
theorem customAgg_relation {T1 T2 T3 : Multiset (Row 64)} (T1' T12 : Multiset (Row 64))
    (hT1 : (T1'.map fun ρ => (keyOf ["[person]"] ρ, ρ "percentage")) =
      Relational.groupBy (keyOf ["[person]"]) (fun M => (M.map fun ρ => 100 - ρ "coinsurance").sum) T1)
    (hT12 : (T12.map fun ρ => (keyOf ["[disease]"] ρ, ρ "insCost")) =
      Relational.groupBy (fun p => keyOf ["[disease]"] p.1)
        (fun M => (M.map fun p => p.1 "cost" * p.2 "percentage").sum)
        (Relational.join (keyOf ["[person]"]) (keyOf ["[person]"]) T2 T1')) :
    Relational.groupBy (fun q => keyOf ["[class_]"] q.1) (fun M => (M.map fun q => q.2 "insCost").sum)
        (Relational.join (keyOf ["[disease]"]) (keyOf ["[disease]"]) T3 T12) =
      Relational.groupBy (fun q => keyOf ["[class_]"] q.1)
        (fun M => (M.map fun q => q.2.1 "cost" * (100 - q.2.2 "coinsurance")).sum)
        (Relational.join (keyOf ["[disease]"]) (fun p => keyOf ["[disease]"] p.1) T3
          (Relational.join (keyOf ["[person]"]) (keyOf ["[person]"]) T2 T1)) := by
  rw [Relational.groupBy_join_mul (keyOf ["[disease]"]) (fun ρ => ρ "cost") hT1] at hT12
  refine Relational.groupBy_join_of_groups (keyOf ["[class_]"]) (v := fun _ c => c "insCost")
    (φ := fun _ p => p.1 "cost" * (100 - p.2 "coinsurance")) (Relational.keys_of_groupBy hT12)
    fun _ _ c hc => ?_
  exact Relational.value_of_groupBy hT12 hc

/-- The percentages, summed per person. -/
theorem percentages_groups {A : EncodedTable 64} (hpercentage : "percentage" ∈ A.schema)
    (hA : A.validRows = (T1.project ["[person]", "coinsurance"]).validRows) :
    Relational.groupBy (keyOf ["[person]"]) (fun M => (M.map fun ρ => ρ "percentage").sum)
        (A.assign "percentage" fun i => -A.col "coinsurance" i + 100).validRows =
      Relational.groupBy (keyOf ["[person]"]) (fun M => (M.map fun ρ => 100 - ρ "coinsurance").sum)
        T1.validRows := by
  have hassign : (A.assign "percentage" fun i => -A.col "coinsurance" i + 100).validRows =
      A.validRows.map fun ρ => Function.update ρ "percentage" (-ρ "coinsurance" + 100) :=
    validRows_assign A hpercentage (by decide) fun _ _ => rfl
  rw [hassign, hA, validRows_keep, Multiset.map_map, Relational.groupBy_map]
  refine congrArg₂ (Relational.groupBy · · T1.validRows) (funext fun ρ => ?_) (funext fun M => ?_)
  · simp [keyOf, keep]
  · rw [Multiset.map_map]
    refine congrArg _ (Multiset.map_congr rfl fun ρ _ => ?_)
    simp [keep, sub_eq_neg_add]

/-- The costs, summed per disease. -/
theorem costs_groups {B : EncodedTable 64} {T1' T2 : Multiset (Row 64)} (hinsCost : "insCost" ∈ B.schema)
    (hB : B.validRows = (Relational.join (keyOf ["[person]"]) (keyOf ["[person]"]) T2 T1').map
      fun p => copied [⟨"percentage", "percentage", .copyA⟩] p.2 p.1) :
    Relational.groupBy (keyOf ["[disease]"]) (fun M => (M.map fun ρ => ρ "insCost").sum)
        (B.assign "insCost" fun i => B.col "percentage" i * B.col "cost" i).validRows =
      Relational.groupBy (fun p => keyOf ["[disease]"] p.1)
        (fun M => (M.map fun p => p.1 "cost" * p.2 "percentage").sum)
        (Relational.join (keyOf ["[person]"]) (keyOf ["[person]"]) T2 T1') := by
  have hassign : (B.assign "insCost" fun i => B.col "percentage" i * B.col "cost" i).validRows =
      B.validRows.map fun ρ => Function.update ρ "insCost" (ρ "percentage" * ρ "cost") :=
    validRows_assign B hinsCost (by decide) fun _ _ => rfl
  rw [hassign, hB, Multiset.map_map, Relational.groupBy_map]
  simp [keyOf, copied_singleton, mul_comm]

theorem customAgg_rows (hparties : numParties ≠ 2) (h : CustomAggTables T1 T2 T3)
    (hprotocol : protocol = .quicksort ∨ protocol = .radixsort) :
    Draws.Returns (customAgg numParties protocol T1 T2 T3) (SummaryTable ["[class_]"] "insCost"
      (Relational.groupBy (fun q => keyOf ["[class_]"] q.1)
        (fun M => (M.map fun q => q.2.1 "cost" * (100 - q.2.2 "coinsurance")).sum)
        (Relational.join (keyOf ["[disease]"]) (fun p => keyOf ["[disease]"] p.1) T3.validRows
          (Relational.join (keyOf ["[person]"]) (keyOf ["[person]"]) T2.validRows T1.validRows)))) := by
  obtain ⟨hT1, hT2, hT3⟩ := h.ready
  obtain ⟨hperson₁, hcoinsurance⟩ := h.columns₁
  obtain ⟨hperson₂, hdisease₂, hcost⟩ := h.columns₂
  obtain ⟨hdisease₃, hclass⟩ := h.columns₃
  obtain ⟨hgt₁, hgt₂, hgt₃⟩ := h.rows_gt
  have hrows_le := h.rows_le
  -- the percentages of every person
  have hfresh : "percentage" ∉ (T1.project ["[person]", "coinsurance"]).schema := fun hmem =>
    absurd ((mem_project T1 _ _).mp hmem).2 (by decide)
  refine ((hT1.project _).returns_addColumns (by decide) (by decide)
    (List.forall_mem_singleton.mpr hfresh)).bind fun A hA => ?_
  have hA_rows : A.rows = T1.rows := hA.rows
  refine (returns_requireColumns (by simp [hA.schema, mem_project, hcoinsurance])).bind fun _ _ => ?_
  refine ((hA.ready.assign (by decide) _).returns_sums shareWidth_64 (hA_rows ▸ hgt₁)
    (by rw [assign_rows]; omega)
    ⟨by decide, by decide, by decide, by decide, by decide, by decide, by decide, by decide⟩
    (by simp [hA.schema, mem_project, hperson₁]) hprotocol).bind fun T1' hT1' => ?_
  obtain ⟨hT1', hrows₁, hschema₁⟩ := hT1'
  have hrows₁ : T1'.rows = T1.rows := hrows₁.trans hA_rows
  -- the costs of every disease
  have hjoin : JoinKeysSpec ["[person]"] [⟨"percentage", "percentage", .copyA⟩] :=
    ⟨by decide, by decide, by decide, by decide, by decide, by decide, by decide⟩
  have hcall := hjoin.call hT1'.ready hT2 shareWidth_64 (by omega) (by omega)
    (by simp [hperson₂, hT1'.columns "percentage" (by decide)])
  refine (hcall.returns_innerJoin hparties (by omega) hT1'.nodup hprotocol).bind fun J hJ => ?_
  obtain ⟨hJ, hJ_rows⟩ := hJ
  have hfresh : "insCost" ∉ J.schema := fun hmem => by
    rcases ((hJ.schema _).mp hmem).1 with hmem | hmem
    · exact absurd (hschema₁ _ hmem) (by decide)
    · exact h.fresh hmem
  refine (hJ.ready.returns_addColumns (by decide) (by decide)
    (List.forall_mem_singleton.mpr hfresh)).bind fun B hB => ?_
  refine (returns_requireColumns (by simp [hB.schema, hJ.schema, joinColumns, hcost,
    hT1'.columns "percentage" (by decide)])).bind fun _ _ => ?_
  have hJ_ge := hJ.rows_ge
  have hJ_le := hJ.rows_le
  have hB_rows := hB.rows
  refine ((hB.ready.assign (by decide) _).returns_sums shareWidth_64 (by rw [assign_rows]; omega)
    (by rw [assign_rows]; omega)
    ⟨by decide, by decide, by decide, by decide, by decide, by decide, by decide, by decide⟩
    (by simp [hB.schema, hJ.schema, joinColumns, hdisease₂]) hprotocol).bind fun T12 hT12 => ?_
  obtain ⟨hT12, hrows₁₂, hschema₁₂⟩ := hT12
  -- the totals of every class
  have hjoin : JoinKeysSpec ["[disease]"] [⟨"insCost", "insCost", .copyA⟩] :=
    ⟨by decide, by decide, by decide, by decide, by decide, by decide, by decide⟩
  have hrows₁₂ : T12.rows = J.rows := hrows₁₂.trans hB_rows
  have hcall := hjoin.call hT12.ready hT3 shareWidth_64 (by omega) (by omega)
    (by simp [hdisease₃, hT12.columns "insCost" (by decide)])
  refine (hcall.returns_innerJoin hparties (by omega) hT12.nodup hprotocol).bind fun K hK => ?_
  obtain ⟨hK, hK_rows⟩ := hK
  have hK_ge := hK.rows_ge
  have hK_le := hK.rows_le
  refine (hK.ready.returns_sums shareWidth_64 (by omega) (by omega)
    ⟨by decide, by decide, by decide, by decide, by decide, by decide, by decide, by decide⟩
    (by simp [hK.schema, joinColumns, hclass, hT12.columns "insCost" (by decide)])
    hprotocol).mono fun out hout => ?_
  have hout := hout.1
  have hpercentage : "percentage" ∈ A.schema := (hA.schema _).mpr (.inl (by decide))
  have hinsCost : "insCost" ∈ B.schema := (hB.schema _).mpr (.inl (by decide))
  rw [hK_rows, Relational.groupBy_map] at hout
  rw [← customAgg_relation T1'.validRows T12.validRows
    (hT1'.groups.trans (percentages_groups hpercentage hA.validRows))
    (hT12.groups.trans (costs_groups hinsCost (hB.validRows.trans hJ_rows)))]
  simpa only [keyOf, List.map_cons, List.map_nil, copied_singleton, Multiset.map_map,
    Function.comp_def, if_pos, String.reduceEq, if_false] using hout

def exampleT1 : EncodedTable 64 :=
  ofColumns 2 (fun _ => 1) [("[person]", fun i => i), ("coinsurance", fun _ => 20)]

def exampleT2 : EncodedTable 64 :=
  ofColumns 2 (fun _ => 1) [("[person]", fun i => i), ("[disease]", fun _ => 4), ("cost", fun _ => 50)]

def exampleT3 : EncodedTable 64 :=
  ofColumns 2 (fun i => if i = 0 then 1 else 0) [("[disease]", fun _ => 4), ("[class_]", fun i => i)]

theorem exampleT_tables : CustomAggTables exampleT1 exampleT2 exampleT3 where
  ready := ⟨⟨by unfold SingleBit; decide, by decide⟩, ⟨by unfold SingleBit; decide, by decide⟩,
    ⟨by unfold SingleBit; decide, by decide⟩⟩
  columns₁ := by decide
  columns₂ := by decide
  columns₃ := by decide
  fresh := by decide
  rows_gt := by decide
  rows_le := by decide

theorem customAgg_rows_example :
    Draws.Returns (customAgg 4 .quicksort exampleT1 exampleT2 exampleT3)
      (SummaryTable ["[class_]"] "insCost" (Relational.groupBy (fun q => keyOf ["[class_]"] q.1)
        (fun M => (M.map fun q => q.2.1 "cost" * (100 - q.2.2 "coinsurance")).sum)
        (Relational.join (keyOf ["[disease]"]) (fun p => keyOf ["[disease]"] p.1) exampleT3.validRows
          (Relational.join (keyOf ["[person]"]) (keyOf ["[person]"]) exampleT2.validRows
            exampleT1.validRows)))) :=
  customAgg_rows (by decide) exampleT_tables (.inl rfl)

end CustomAgg

end CryptDough.EncodedTable
