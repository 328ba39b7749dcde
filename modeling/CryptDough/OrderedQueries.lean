import CryptDough.HavingQueries

/-! Queries that open the first rows of a sorted table. -/

namespace CryptDough.EncodedTable

open StableSort

variable {w : ℕ} {t right : EncodedTable w} {keys names : List String} {numParties : ℕ}
  {protocol : SortingProtocol}

def descending (names : List String) : List (String × SortOrder) := names.map fun c => (c, .desc)

@[simp] theorem descending_fst (names : List String) : (descending names).map Prod.fst = names := by
  rw [descending, List.map_map]
  exact List.map_id names

/-- The rows are in descending order of the columns `names`. -/
def SortedDown (t : EncodedTable w) (names : List String) : Prop :=
  ∀ i j, i ≤ j → j < t.rows → orderOf names (t.row j) ≤ orderOf names (t.row i)

theorem specLt_descending (t : EncodedTable w) (names : List String) (i j : Fin t.rows) :
    specLt (t.sortColumns (descending names)) i j ↔
      orderOf names (t.row j) < orderOf names (t.row i) := by
  induction names with
  | nil => exact iff_of_false id (lt_irrefl _)
  | cons c names ih =>
      rw [orderOf, orderOf, List.map_cons, List.map_cons, List.cons_lt_cons_iff, ← orderOf,
        ← orderOf, ← ih]
      change lexRel _ _ i j ↔ _
      unfold lexRel
      change (t.col c j).toInt < (t.col c i).toInt ∨ (¬ (t.col c i).toInt < (t.col c j).toInt ∧ _) ↔
        (t.col c j).toInt < (t.col c i).toInt ∨ ((t.col c j).toInt = (t.col c i).toInt ∧ _)
      constructor
      · rintro (hlt | ⟨hnot, hrest⟩)
        · exact .inl hlt
        · exact (lt_or_eq_of_le (not_lt.mp hnot)).imp_right fun heq => ⟨heq, hrest⟩
      · rintro (hlt | ⟨heq, hrest⟩)
        · exact .inl hlt
        · exact .inr ⟨heq.not_gt, hrest⟩

theorem sortedDown_rearranged (t : EncodedTable w) {names : List String} {τ : Equiv.Perm (Fin t.rows)}
    (hτ : StableSorts (specLt (t.sortColumns (descending names))) τ) :
    (t.rearranged τ).SortedDown names := by
  intro i j hij hj
  have hi : i < t.rows := lt_of_le_of_lt hij hj
  have hrow_i := row_rearranged t τ ⟨i, hi⟩
  have hrow_j := row_rearranged t τ ⟨j, hj⟩
  rw [hrow_i, hrow_j]
  by_contra hnot
  have hlt := (specLt_descending t names (τ.symm ⟨j, hj⟩) (τ.symm ⟨i, hi⟩)).mpr (not_le.mp hnot)
  have hpos := (hτ _ _).mpr (.inl hlt)
  rw [Equiv.apply_symm_apply, Equiv.apply_symm_apply] at hpos
  exact absurd hij (Nat.not_le.mpr (Fin.lt_def.mp hpos))

/-- What a sort by the valid bit and other columns, all descending, makes of `t`. -/
structure SortedTable (t : EncodedTable w) (names : List String) (t' : EncodedTable w) : Prop where
  ready : t'.Ready
  same : SameRows t t'
  sorted : t'.SortedDown (encTableValid :: names)

theorem Ready.returns_sortDown (ht : t.Ready) (hw : ShareWidth w) (hn0 : 0 < t.rows)
    (hn : t.rows < 2 ^ 31) (hnodup : (encTableJoinId :: encTableValid :: names).Nodup)
    (hshared : ∀ c ∈ names, isBShared c) (hnames : ∀ c ∈ names, c ∈ t.schema)
    (hprotocol : protocol = .quicksort ∨ protocol = .radixsort) :
    Draws.Returns (sort numParties protocol t (descending (encTableValid :: names)))
      (SortedTable t names) := by
  have hfst : ∀ s ∈ descending (encTableValid :: names), s.1 ∈ encTableValid :: names := by
    intro s hs
    rw [← descending_fst (encTableValid :: names)]
    exact List.mem_map_of_mem hs
  have hmem : ∀ c ∈ encTableValid :: names, c ∈ t.schema ∧ isBShared c := List.forall_mem_cons.mpr
    ⟨⟨t.valid_mem, by decide⟩, fun c hc => ⟨hnames c hc, hshared c hc⟩⟩
  obtain ⟨hid, hnodup⟩ := List.nodup_cons.mp hnodup
  refine (returns_sort t hn0 hn hw hprotocol (List.cons_ne_nil _ _)
    ((descending_fst (encTableValid :: names)).symm ▸ hnodup) (fun s hs => (hmem _ (hfst s hs)).1)
    (fun s hs => (hmem _ (hfst s hs)).2) fun s hs hname => ?_).mono fun t' ht' => ?_
  · rcases hname with heq | heq
    · exact heq ▸ ht.valid_bit
    · exact absurd (heq ▸ hfst s hs) hid
  · obtain ⟨τ, hτ, rfl⟩ := ht'
    exact ⟨ht.rearranged τ, ⟨rfl, rfl, allRows_rearranged t τ⟩, sortedDown_rearranged t hτ⟩

/-- The valid rows come first. -/
theorem SortedDown.valid_of_le (hw : 1 < w) (hbit : t.SingleBit encTableValid)
    (hsorted : t.SortedDown (encTableValid :: names)) {i j : ℕ} (hij : i ≤ j) (hj : j < t.rows)
    (hvalid : t.col encTableValid j ≠ 0) :
    t.col encTableValid i ≠ 0 ∧ orderOf names (t.row j) ≤ orderOf names (t.row i) := by
  have hone : (1 : BitVec w).toInt = 1 := BitVec.toInt_one hw
  have hzero : (0 : BitVec w).toInt = 0 := BitVec.toInt_zero
  have hj_one := (hbit j hj).resolve_left hvalid
  have hle := (orderOf_cons_le encTableValid names (t.row j) (t.row i)).mp (hsorted i j hij hj)
  change (t.col encTableValid j).toInt < (t.col encTableValid i).toInt ∨
    (t.col encTableValid j).toInt = (t.col encTableValid i).toInt ∧ _ at hle
  rcases hbit i (lt_of_le_of_lt hij hj) with hi | hi <;> rw [hi, hj_one, hone] at hle
  · rw [hzero] at hle
    omega
  · exact ⟨hi.symm ▸ hj_one ▸ hvalid, (hle.resolve_left (lt_irrefl _)).2⟩

theorem SortedDown.openedRows_ordered (hw : 1 < w) (hbit : t.SingleBit encTableValid)
    (hsorted : t.SortedDown (encTableValid :: names)) :
    t.openedRows.Pairwise fun ρ σ => orderOf names σ ≤ orderOf names ρ := by
  rw [openedRows, List.pairwise_map]
  refine (List.pairwise_lt_range.filter _).imp_of_mem fun {i j} _ hj hlt => ?_
  obtain ⟨hj, hvalid⟩ := List.mem_filter.mp hj
  exact (hsorted.valid_of_le hw hbit hlt.le (List.mem_range.mp hj) (of_decide_eq_true hvalid)).2

theorem filter_range_lt (n c : ℕ) :
    (List.range n).filter (fun i => decide (i < c)) = List.range (min n c) := by
  induction n with
  | zero => rw [Nat.zero_min]; rfl
  | succ n ih =>
      rw [List.range_succ, List.filter_append, ih]
      by_cases hn : n < c
      · rw [Nat.min_eq_left hn.le, Nat.min_eq_left hn, List.range_succ]
        simp [hn]
      · rw [Nat.min_eq_right (not_lt.mp hn), Nat.min_eq_right (by omega)]
        simp [hn]

/-- Where the valid rows come first, cutting the table cuts the rows it opens to. -/
theorem openedRows_head (n : ℕ) (hfirst : ∀ i j, i ≤ j → j < t.rows → t.col encTableValid j ≠ 0 →
    t.col encTableValid i ≠ 0) : (t.head n).openedRows = t.openedRows.take n := by
  have hstop : ∃ i, ¬ (i < t.rows ∧ t.col encTableValid i ≠ 0) := ⟨t.rows, fun h => h.1.ne rfl⟩
  have hlt : ∀ i, (i < t.rows ∧ t.col encTableValid i ≠ 0) ↔ i < Nat.find hstop := by
    intro i
    rw [Nat.lt_find_iff]
    constructor
    · exact fun h j hj => not_not.mpr ⟨lt_of_le_of_lt hj h.1, hfirst j i hj h.1 h.2⟩
    · exact fun h => not_not.mp (h i le_rfl)
  have hopened : t.openedRows = (List.range (Nat.find hstop)).map t.row := by
    have hle : Nat.find hstop ≤ t.rows := not_lt.mp fun h => ((hlt t.rows).mpr h).1.ne rfl
    have hfilter : (List.range t.rows).filter (fun i => decide (t.col encTableValid i ≠ 0)) =
        (List.range t.rows).filter fun i => decide (i < Nat.find hstop) := by
      refine List.filter_congr fun i hi => decide_eq_decide.mpr ?_
      rw [← hlt, and_iff_right (List.mem_range.mp hi)]
    rw [openedRows, hfilter, filter_range_lt, Nat.min_eq_right hle]
  have hfilter : (List.range n).filter (fun i => decide ((t.head n).col encTableValid i ≠ 0)) =
      (List.range n).filter fun i => decide (i < Nat.find hstop) := by
    refine List.filter_congr fun i _ => decide_eq_decide.mpr ?_
    change (if i < t.rows then t.col encTableValid i else 0) ≠ 0 ↔ _
    rw [← hlt]
    split_ifs with hi
    · exact (and_iff_right hi).symm
    · exact iff_of_false (not_not.mpr rfl) fun h => hi h.1
  rw [hopened, openedRows]
  change ((List.range n).filter _).map _ = _
  rw [hfilter, filter_range_lt, ← List.map_take, List.take_range]
  refine List.map_congr_left fun i hi => ?_
  ext c : 1
  have hi := (hlt i).mpr (lt_of_lt_of_le (List.mem_range.mp hi) (Nat.min_le_right _ _))
  exact if_pos hi.1

/-- The rows of a semi-join. -/
structure SemiJoined (t right : EncodedTable w) (keys : List String) (t' : EncodedTable w) : Prop where
  ready : t'.Ready
  rows_ge : t.rows ≤ t'.rows
  rows_le : t'.rows ≤ right.rows + t.rows
  columns : ∀ c ∈ t.schema, c ∈ t'.schema
  schema : ∀ c ∈ t'.schema, c ∈ t.schema ++ reservedColumns
  validRows : t'.validRows = t.validRows.filter (Matches keys right.validRows)

theorem JoinCall.returns_semiJoin (hcall : JoinCall right t keys []) (hparties : numParties ≠ 2)
    (hrows : right.rows + t.rows ≤ 2 ^ 30)
    (hprotocol : protocol = .quicksort ∨ protocol = .radixsort) :
    Draws.Returns (semiJoin numParties protocol t right keys) (SemiJoined t right keys) := by
  refine (hcall.returns_matching hparties hrows hprotocol).bind fun u hu => Draws.Returns.pure ?_
  obtain ⟨hu, hrows⟩ := hu
  refine ⟨hu.ready.project _, hu.rows_ge, hu.rows_le, fun c hc => ?_, fun c hc => ?_,
    validRows_project u t hrows⟩
  · refine (mem_project u _ c).mpr ⟨(hu.schema c).mpr ⟨.inr hc, ?_⟩, List.mem_append_left _ hc⟩
    simp [joinColumns, hc]
  · exact ((mem_project u _ c).mp hc).2

/-- `SELECT diag, COUNT(*) cnt FROM diagnosis WHERE pid IN cohort GROUP BY diag ORDER BY cnt DESC,
diag DESC LIMIT 10` -/
def comorbidity (numParties : ℕ) (protocol : SortingProtocol) (Diagnosis Cohort : EncodedTable 64) :
    Draws (EncodedTable 64) := do
  let F ← semiJoin numParties protocol Diagnosis Cohort ["[pid]"]
  let F ← F.addColumns ["DiagCount"]
  let F ← aggregate numParties protocol F ["[diag]"] [⟨"DiagCount", "DiagCount", .count⟩] {}
  let F ← F.addColumns ["[DiagCount]"]
  let F ← F.convertA2b "DiagCount" "[DiagCount]"
  let F ← sort numParties protocol F (descending [encTableValid, "[DiagCount]"])
  let F ← sort numParties protocol F (descending [encTableValid, "[DiagCount]", "[diag]"])
  pure (F.head 10)

structure ComorbidityTables (Diagnosis Cohort : EncodedTable 64) : Prop where
  ready : Diagnosis.Ready ∧ Cohort.Ready
  columns : "[pid]" ∈ Diagnosis.schema ∧ "[diag]" ∈ Diagnosis.schema
  fresh : "DiagCount" ∉ Diagnosis.schema ∧ "[DiagCount]" ∉ Diagnosis.schema
  rows_gt : 1 < Diagnosis.rows
  rows_le : Cohort.rows + Diagnosis.rows ≤ 2 ^ 30

/-- The order in which the counts are opened. -/
def Precedes (p q : List (BitVec w) × ℕ) : Prop :=
  q.2 < p.2 ∨ q.2 = p.2 ∧ q.1.map BitVec.toInt < p.1.map BitVec.toInt

variable {Diagnosis Cohort : EncodedTable 64}

/-- Rows with distinct keys, down by a count and then by the keys. -/
theorem precedes_of_ordered {count : String} {t : EncodedTable 64}
    (hordered : t.openedRows.Pairwise fun ρ σ => orderOf (count :: keys) σ ≤ orderOf (count :: keys) ρ)
    (hnodup : (t.validRows.map (keyOf keys)).Nodup)
    (hcount : ∀ ρ ∈ t.validRows, (ρ count).toInt = (ρ count).toNat) :
    (t.openedRows.map fun ρ => (keyOf keys ρ, (ρ count).toNat)).Pairwise Precedes := by
  have hdistinct : t.openedRows.Pairwise fun ρ σ => keyOf keys ρ ≠ keyOf keys σ := by
    rw [← coe_openedRows, Multiset.map_coe, Multiset.coe_nodup] at hnodup
    exact List.pairwise_map.mp hnodup
  rw [List.pairwise_map]
  refine (hordered.and hdistinct).imp_of_mem fun {ρ σ} hρ hσ h => ?_
  have hmem : ∀ ρ, ρ ∈ t.openedRows → ρ ∈ t.validRows := fun ρ hρ => by
    rw [← coe_openedRows]
    exact hρ
  have hle := (orderOf_cons_le count keys σ ρ).mp h.1
  rw [hcount ρ (hmem ρ hρ), hcount σ (hmem σ hσ), Nat.cast_lt, Nat.cast_inj] at hle
  refine hle.imp_right fun hle => ⟨hle.1, ?_⟩
  have hmap : ∀ ρ : Row 64, (keyOf keys ρ).map BitVec.toInt = orderOf keys ρ := fun ρ => List.map_map
  rw [hmap, hmap]
  exact lt_of_le_of_ne hle.2 fun heq => h.2 ((orderOf_eq_iff keys _ _).mp heq).symm

/-- The boolean copies of the counts, which are small enough not to be negative. -/
theorem copied_counts {F G T : Multiset (Row 64)}
    (hG : (G.map fun ρ => (keyOf ["[diag]"] ρ, ρ "DiagCount")) =
      Relational.groupBy (keyOf ["[diag]"]) (fun M => (Multiset.card M : BitVec 64)) F)
    (hsize : Multiset.card F < 2 ^ 63)
    (hT : T = G.map fun ρ => Function.update ρ "[DiagCount]" (ρ "DiagCount")) :
    (T.map fun ρ => (keyOf ["[diag]"] ρ, (ρ "[DiagCount]").toNat)) =
        Relational.groupBy (keyOf ["[diag]"]) Multiset.card F ∧
      (T.map (keyOf ["[diag]"])).Nodup ∧
      ∀ ρ ∈ T, (ρ "[DiagCount]").toInt = (ρ "[DiagCount]").toNat := by
  have hcard : ∀ M : Multiset (Row 64), M ≤ F → Multiset.card M < 2 ^ 63 := fun M hM =>
    lt_of_le_of_lt (Multiset.card_le_card hM) hsize
  subst hT
  refine ⟨?_, ?_, fun ρ hρ => ?_⟩
  · have hgroups := congrArg (Multiset.map fun p => (p.1, p.2.toNat)) hG
    rw [Relational.map_groupBy, Multiset.map_map] at hgroups
    rw [Multiset.map_map]
    refine (Multiset.map_congr rfl fun ρ _ => ?_).trans
      (hgroups.trans (Relational.groupBy_ext rfl fun k _ => ?_))
    · simp [keyOf]
    · exact toNat_natCast_of_lt (hcard _ (Multiset.filter_le _ _))
  · rw [Multiset.map_map]
    refine (congrArg Multiset.Nodup (Multiset.map_congr rfl fun ρ _ => ?_)).mpr
      (Relational.keys_of_groupBy hG ▸ Multiset.nodup_dedup _)
    simp [keyOf]
  · obtain ⟨σ, hσ, rfl⟩ := Multiset.mem_map.mp hρ
    have hlt := hcard (Relational.select (keyOf ["[diag]"]) (keyOf ["[diag]"] σ) F)
      (Multiset.filter_le _ _)
    rw [Function.update_self, Relational.value_of_groupBy hG hσ, toInt_natCast_of_lt hlt,
      toNat_natCast_of_lt hlt]

/-- The ten largest counts, with their diagnoses. -/
theorem comorbidity_rows (hparties : numParties ≠ 2) (h : ComorbidityTables Diagnosis Cohort)
    (hprotocol : protocol = .quicksort ∨ protocol = .radixsort) :
    Draws.Returns (comorbidity numParties protocol Diagnosis Cohort) fun out =>
      ∃ counts : List (List (BitVec 64) × ℕ),
        (counts : Multiset (List (BitVec 64) × ℕ)) =
          Relational.groupBy (keyOf ["[diag]"]) Multiset.card
            (Diagnosis.validRows.filter (Matches ["[pid]"] Cohort.validRows)) ∧
        counts.Pairwise Precedes ∧
        (out.openedRows.map fun ρ => (keyOf ["[diag]"] ρ, (ρ "[DiagCount]").toNat)) =
          counts.take 10 := by
  obtain ⟨hDiagnosis, hCohort⟩ := h.ready
  obtain ⟨hpid, hdiag⟩ := h.columns
  have hrows_gt := h.rows_gt
  have hrows_le := h.rows_le
  have hjoin : JoinKeysSpec ["[pid]"] [] :=
    ⟨by decide, by decide, by decide, by decide, by decide, by decide, by decide⟩
  have hcall := hjoin.call hCohort hDiagnosis shareWidth_64 (by omega) hrows_le (by simp [hpid])
  refine (hcall.returns_semiJoin hparties hrows_le hprotocol).bind fun F hF => ?_
  have hF_ge := hF.rows_ge
  have hF_le := hF.rows_le
  have hnew : ∀ c ∈ ["DiagCount", "[DiagCount]"], c ∉ Diagnosis.schema ∧ c ∉ reservedColumns :=
    List.forall_mem_cons.mpr
      ⟨⟨h.fresh.1, by decide⟩, List.forall_mem_singleton.mpr ⟨h.fresh.2, by decide⟩⟩
  have hfresh : ∀ c ∈ ["DiagCount", "[DiagCount]"], c ∉ F.schema := fun c hc hmem =>
    (List.mem_append.mp (hF.schema c hmem)).elim (hnew c hc).1 (hnew c hc).2
  rw [← bind_assoc]
  refine (hF.ready.returns_counts shareWidth_64 (by omega) (by omega)
    ⟨by decide, by decide, by decide, by decide, by decide, by decide, by decide, by decide⟩
    (by simp [hF.columns _ hdiag]) (by decide) (hfresh _ (by decide)) hprotocol).bind fun G hG => ?_
  obtain ⟨hG, hG_rows, hG_schema⟩ := hG
  have hfresh_G : "[DiagCount]" ∉ G.schema := by
    rw [hG_schema]
    exact fun hmem => hmem.elim (by decide) (hfresh _ (by decide))
  refine (hG.ready.returns_addColumns (by decide) (by decide)
    (List.forall_mem_singleton.mpr hfresh_G)).bind fun A hA => ?_
  have hA_rows := hA.rows
  have hcount : "[DiagCount]" ∈ A.schema := (hA.schema _).mpr (.inl (by decide))
  refine (returns_convertA2b (by simp [hA.schema, hG_schema]) hcount).bind fun B hB => ?_
  subst hB
  have hready : (A.assign "[DiagCount]" (A.col "DiagCount")).Ready := hA.ready.assign (by decide) _
  have hcolumns : "[DiagCount]" ∈ (A.assign "[DiagCount]" (A.col "DiagCount")).schema ∧
      "[diag]" ∈ (A.assign "[DiagCount]" (A.col "DiagCount")).schema :=
    ⟨hcount, (hA.schema _).mpr (.inr (hG.columns _ (by decide)))⟩
  have hassign : (A.assign "[DiagCount]" (A.col "DiagCount")).validRows =
      G.validRows.map fun ρ => Function.update ρ "[DiagCount]" (ρ "DiagCount") :=
    hA.validRows ▸ validRows_assign A hcount (by decide) fun _ _ => rfl
  have hB_rows : (A.assign "[DiagCount]" (A.col "DiagCount")).rows = F.rows := hA_rows.trans hG_rows
  refine (hready.returns_sortDown shareWidth_64 (by omega) (by omega) (by decide) (by decide)
    (List.forall_mem_singleton.mpr hcolumns.1) hprotocol).bind fun S hS => ?_
  have hS_rows := hS.same.rows
  refine (hS.ready.returns_sortDown shareWidth_64 (by omega) (by omega) (by decide) (by decide)
    (hS.same.schema ▸ List.forall_mem_cons.mpr ⟨hcolumns.1, List.forall_mem_singleton.mpr hcolumns.2⟩)
    hprotocol).bind fun T hT => Draws.Returns.pure ?_
  have hT_rows : T.validRows = G.validRows.map fun ρ =>
      Function.update ρ "[DiagCount]" (ρ "DiagCount") := by
    rw [hT.same.validRows, hS.same.validRows, hassign]
  have hsize : Multiset.card F.validRows < 2 ^ 63 := by
    have hle := card_validRows_le F
    omega
  obtain ⟨hcounts, hnodup, hcount⟩ := copied_counts hG.groups hsize hT_rows
  refine ⟨T.openedRows.map fun ρ => (keyOf ["[diag]"] ρ, (ρ "[DiagCount]").toNat), ?_, ?_, ?_⟩
  · rw [← Multiset.map_coe, coe_openedRows, ← hF.validRows]
    exact hcounts
  · exact precedes_of_ordered (hT.sorted.openedRows_ordered shareWidth_64.one_lt hT.ready.valid_bit)
      hnodup hcount
  · rw [openedRows_head 10 fun i j hij hj hvalid =>
      (hT.sorted.valid_of_le shareWidth_64.one_lt hT.ready.valid_bit hij hj hvalid).1, List.map_take]

def exampleDiagnosis : EncodedTable 64 :=
  ofColumns 3 (fun _ => 1) [("[pid]", fun i => i), ("[diag]", fun i => if i = 0 then 4 else 6)]

def exampleCohort : EncodedTable 64 := ofColumns 2 (fun _ => 1) [("[pid]", fun i => i)]

theorem exampleCohort_tables : ComorbidityTables exampleDiagnosis exampleCohort where
  ready := ⟨⟨by unfold SingleBit; decide, by decide⟩, ⟨by unfold SingleBit; decide, by decide⟩⟩
  columns := by decide
  fresh := by decide
  rows_gt := by decide
  rows_le := by decide

theorem comorbidity_rows_example :
    Draws.Returns (comorbidity 3 .radixsort exampleDiagnosis exampleCohort) fun out =>
      ∃ counts : List (List (BitVec 64) × ℕ),
        (counts : Multiset (List (BitVec 64) × ℕ)) =
          Relational.groupBy (keyOf ["[diag]"]) Multiset.card
            (exampleDiagnosis.validRows.filter (Matches ["[pid]"] exampleCohort.validRows)) ∧
        counts.Pairwise Precedes ∧
        (out.openedRows.map fun ρ => (keyOf ["[diag]"] ρ, (ρ "[DiagCount]").toNat)) =
          counts.take 10 :=
  comorbidity_rows (by decide) exampleCohort_tables (.inr rfl)

end CryptDough.EncodedTable
