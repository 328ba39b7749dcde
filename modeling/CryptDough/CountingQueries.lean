import CryptDough.HavingQueries

/-! Queries that open a count: the valid bits are summed up, and the last row has the total. -/

namespace CryptDough.EncodedTable

open Opened Aggregators

variable {w : ℕ} {t : EncodedTable w} {keys cols : List String} {numParties : ℕ}
  {protocol : SortingProtocol}

/-- Without effect where the old name is unknown or the new one is taken. -/
def renameColumn (t : EncodedTable w) (oldName newName : String) (hvalid : oldName ≠ encTableValid) :
    EncodedTable w :=
  if h : oldName ∉ t.schema ∨ newName ∈ t.schema then t
  else
    { rows := t.rows
      schema := newName :: t.schema.filter (· ≠ oldName)
      col := fun c => if c = newName then t.col oldName else if c = oldName then 0 else t.col c
      nodup := List.nodup_cons.mpr
        ⟨fun hmem => h (.inr (List.mem_filter.mp hmem).1), t.nodup.filter _⟩
      valid_mem := List.mem_cons_of_mem _
        (List.mem_filter.mpr ⟨t.valid_mem, decide_eq_true hvalid.symm⟩)
      col_of_notMem := by
        intro c hc
        rw [List.mem_cons, not_or, List.mem_filter, not_and, decide_eq_true_iff, not_not] at hc
        rw [if_neg hc.1]
        split_ifs with hold
        · rfl
        · exact t.col_of_notMem c fun hmem => hold (hc.2 hmem) }

/-- The conversion looks at the least significant bits. -/
def convertB2aBit (t : EncodedTable w) (inputB outputA : String) : Draws (EncodedTable w) := do
  t.requireColumns [outputA, inputB]
  pure (t.assign outputA fun i => t.col inputB i &&& 1)

/-- The sum takes in the invalid rows. -/
def prefixSum (t : EncodedTable w) (key : String) : Draws (EncodedTable w) := do
  t.requireColumns [key]
  pure (t.assign key fun i => ((Multiset.range (i + 1)).map (t.col key)).sum)

/-- The last `n` rows; erasing more rows than there are is not defined. -/
def tail (t : EncodedTable w) (n : ℕ) : Draws (EncodedTable w) := do
  guard (n ≤ t.rows)
  pure
    { rows := n
      schema := t.schema
      col := fun c i => t.col c (t.rows - n + i)
      nodup := t.nodup
      valid_mem := t.valid_mem
      col_of_notMem := by
        intro c hc
        rw [t.col_of_notMem c hc]
        rfl }

def deleted (cols : List String) (ρ : Row w) : Row w := fun c => if c ∈ cols then 0 else ρ c

def renamed (oldName newName : String) (ρ : Row w) : Row w := fun c =>
  if c = newName then ρ oldName else if c = oldName then 0 else ρ c

theorem Ready.deleteColumns (ht : t.Ready) (hvalid : encTableValid ∉ cols) :
    (t.deleteColumns cols hvalid).Ready ∧
      (t.deleteColumns cols hvalid).validRows = t.validRows.map (deleted cols) := by
  have hrow : (t.deleteColumns cols hvalid).row = fun i => deleted cols (t.row i) := by
    funext i c
    change (if c ∈ cols then (0 : Column w) else t.col c) i = _
    rw [apply_ite (fun v : Column w => v i)]
    rfl
  have hcol : (t.deleteColumns cols hvalid).col encTableValid = t.col encTableValid := if_neg hvalid
  refine ⟨⟨fun i hi => ?_, fun c hc hmem => ?_⟩, ?_⟩
  · rw [hcol]
    exact ht.valid_bit i hi
  · exact ht.internal c hc ((mem_deleteColumns t cols hvalid c).mp hmem).1
  · rw [validRows_eq, validRows_eq, hcol, hrow, Multiset.map_map]
    rfl

section Rename

variable {oldName newName : String}

theorem renameColumn_eq (hvalid : oldName ≠ encTableValid) (hold : oldName ∈ t.schema)
    (hnew : newName ∉ t.schema) :
    (t.renameColumn oldName newName hvalid).rows = t.rows ∧
      (∀ c, c ∈ (t.renameColumn oldName newName hvalid).schema ↔
        c = newName ∨ c ∈ t.schema ∧ c ≠ oldName) ∧
      (t.renameColumn oldName newName hvalid).row = fun i => renamed oldName newName (t.row i) := by
  have hok : ¬ (oldName ∉ t.schema ∨ newName ∈ t.schema) := fun h => h.elim (· hold) hnew
  rw [renameColumn, dif_neg hok]
  refine ⟨rfl, fun c => ?_, funext fun i => funext fun c => ?_⟩
  · rw [List.mem_cons, List.mem_filter, decide_eq_true_iff]
  · change (if c = newName then t.col oldName else if c = oldName then 0 else t.col c) i = _
    rw [apply_ite (fun v : Column w => v i), apply_ite (fun v : Column w => v i)]
    rfl

theorem Ready.renameColumn (ht : t.Ready) (hvalid : oldName ≠ encTableValid) (hold : oldName ∈ t.schema)
    (hnew : newName ∉ t.schema) (hinternal : newName ∉ internalColumns) :
    (t.renameColumn oldName newName hvalid).Ready ∧
      (t.renameColumn oldName newName hvalid).validRows =
        t.validRows.map (renamed oldName newName) := by
  obtain ⟨hrows, hschema, hrow⟩ := renameColumn_eq hvalid hold hnew
  have hne : encTableValid ≠ newName := fun heq => hnew (heq ▸ t.valid_mem)
  have hcol : (t.renameColumn oldName newName hvalid).col encTableValid = t.col encTableValid := by
    funext i
    refine (congrFun (congrFun hrow i) encTableValid).trans ?_
    rw [renamed, if_neg hne, if_neg hvalid.symm]
    rfl
  refine ⟨⟨fun i hi => ?_, fun c hc hmem => ?_⟩, ?_⟩
  · rw [hcol]
    exact ht.valid_bit i (hrows ▸ hi)
  · rcases (hschema c).mp hmem with rfl | hmem
    · exact hinternal hc
    · exact ht.internal c hc hmem.1
  · rw [validRows_eq, validRows_eq, hcol, hrow, hrows, Multiset.map_map]
    rfl

end Rename

theorem sum_ite_one {α : Type} (M : Multiset α) (p : α → Prop) [DecidablePred p] :
    (M.map fun a => if p a then (1 : BitVec w) else 0).sum =
      (Multiset.card (M.filter p) : BitVec w) := by
  induction M using Multiset.induction_on with
  | empty => simp
  | cons a M ih =>
      rw [Multiset.map_cons, Multiset.sum_cons, ih, Multiset.filter_cons]
      by_cases h : p a
      · simp [h, BitVec.add_comm]
      · simp [h]

/-- The valid bits sum up to the number of valid rows. -/
theorem Ready.sum_valid (ht : t.Ready) (hw : 0 < w) :
    ((Multiset.range t.rows).map fun i => t.col encTableValid i &&& 1).sum =
      (Multiset.card t.validRows : BitVec w) := by
  have hbit : ∀ i ∈ Multiset.range t.rows,
      t.col encTableValid i &&& 1 = if t.col encTableValid i ≠ 0 then 1 else 0 := by
    intro i hi
    rcases ht.valid_bit i (Multiset.mem_range.mp hi) with h | h <;> rw [h]
    · simp
    · simp [hw.ne']
  rw [Multiset.map_congr rfl hbit, sum_ite_one, validRows_eq, Multiset.card_map]

/-- The last row of the sums has the number of valid rows. -/
theorem Ready.returns_countRows (ht : t.Ready) (hw : 0 < w) (hrows : 0 < t.rows) {count : String}
    (hinternal : count ∉ internalColumns) (hcount : count ∉ t.schema) :
    Draws.Returns (do
        let t ← t.addColumns [count]
        let t ← t.convertB2aBit encTableValid count
        let t ← t.prefixSum count
        (t.project [count]).tail 1) fun out =>
      out.rows = 1 ∧ out.col count 0 = (Multiset.card t.validRows : BitVec w) := by
  refine (ht.returns_addColumns (List.nodup_singleton _) (List.forall_mem_singleton.mpr hinternal)
    (List.forall_mem_singleton.mpr hcount)).bind fun A hA => ?_
  have hA_count : count ∈ A.schema := (hA.schema _).mpr (.inl (List.mem_singleton.mpr rfl))
  have hne : encTableValid ≠ count := fun heq => hcount (heq ▸ t.valid_mem)
  have hbits : Draws.Returns (A.convertB2aBit encTableValid count)
      (· = A.assign count fun i => A.col encTableValid i &&& 1) :=
    (returns_requireColumns (List.forall_mem_cons.mpr
      ⟨hA_count, List.forall_mem_singleton.mpr A.valid_mem⟩)).bind fun _ _ => Draws.Returns.pure rfl
  refine hbits.bind fun B hB => ?_
  have hB_count : count ∈ B.schema := hB ▸ hA_count
  have hsums : Draws.Returns (B.prefixSum count)
      (· = B.assign count fun i => ((Multiset.range (i + 1)).map (B.col count)).sum) :=
    (returns_requireColumns (List.forall_mem_singleton.mpr hB_count)).bind fun _ _ =>
      Draws.Returns.pure rfl
  refine hsums.bind fun C hC => ?_
  have hC_rows : C.rows = t.rows := by rw [hC, hB, assign_rows, assign_rows, hA.rows]
  refine (returns_guard (hC_rows ▸ hrows : 1 ≤ C.rows)).bind fun _ _ => Draws.Returns.pure ⟨rfl, ?_⟩
  calc (C.project [count]).col count (C.rows - 1 + 0)
      = C.col count (C.rows - 1) :=
        (congrFun (row_project C _ _) count).trans (keep_of_mem (List.mem_singleton.mpr rfl) _)
    _ = ((Multiset.range (C.rows - 1 + 1)).map (B.col count)).sum := by
        conv_lhs => rw [hC]
        rw [assign_col_self B hB_count, hC]
    _ = ((Multiset.range A.rows).map fun i => A.col encTableValid i &&& 1).sum := by
        rw [hB, assign_col_self A hA_count, hC_rows, hA.rows, Nat.sub_add_cancel hrows]
    _ = (Multiset.card t.validRows : BitVec w) := by rw [hA.ready.sum_valid hw, hA.validRows]

section Aspirin

def qDiag : BitVec 64 := 3

def qMed : BitVec 64 := 5

/-- `SELECT COUNT(DISTINCT pid) FROM diagnosis d JOIN medication m WHERE d.pid = m.pid AND
d.time <= m.time AND d.diag = qDiag AND m.med = qMed` -/
def aspirin (numParties : ℕ) (protocol : SortingProtocol) (D M : EncodedTable 64) :
    Draws (EncodedTable 64) := do
  D.requireColumns ["[diagnosis]"]
  let D := D.filter fun i => equalB (D.col "[diagnosis]" i) qDiag
  let D := D.deleteColumns ["[diagnosis]"] (by decide)
  M.requireColumns ["[med]"]
  let M := M.filter fun i => equalB (M.col "[med]" i) qMed
  let M := M.deleteColumns ["[med]"] (by decide)
  let D := D.renameColumn "[time]" "[d.time]" (by decide)
  let M := M.renameColumn "[time]" "[m.time]" (by decide)
  -- the earliest diagnosis and the latest medication of every patient
  let D ← aggregate numParties protocol D ["[pid]"] [⟨"[d.time]", "[d.time]", .min⟩] {}
  let M ← aggregate numParties protocol M ["[pid]"] [⟨"[m.time]", "[m.time]", .max⟩] {}
  let T ← innerJoin numParties protocol D M ["[pid]"] [⟨"[d.time]", "[d.time]", .copyB⟩]
  T.requireColumns ["[d.time]", "[m.time]"]
  let T := T.filter fun i => notB1 (greaterB (T.col "[d.time]" i) (T.col "[m.time]" i))
  let T := T.project ["[pid]"]
  let T ← T.addColumns ["Count"]
  let T ← T.convertB2aBit encTableValid "Count"
  let T ← T.prefixSum "Count"
  let T := T.project ["Count"]
  T.tail 1

/-- The patients that the query counts. -/
def treatedPatients (D M : Multiset (Row 64)) : Multiset (List (BitVec 64)) :=
  (((Relational.join (keyOf ["[pid]"]) (keyOf ["[pid]"]) D M).filter fun p =>
    (p.1 "[time]").toInt ≤ (p.2 "[time]").toInt ∧ p.1 "[diagnosis]" = qDiag ∧ p.2 "[med]" = qMed).map
      fun p => keyOf ["[pid]"] p.1).dedup

structure AspirinTables (D M : EncodedTable 64) : Prop where
  ready : D.Ready ∧ M.Ready
  columnsD : ∀ c ∈ ["[pid]", "[time]", "[diagnosis]"], c ∈ D.schema
  columnsM : ∀ c ∈ ["[pid]", "[time]", "[med]"], c ∈ M.schema
  freshD : ∀ c ∈ ["[d.time]", "Count"], c ∉ D.schema
  freshM : ∀ c ∈ ["[m.time]", "Count"], c ∉ M.schema
  rows_gt : 1 < D.rows ∧ 1 < M.rows
  rows_le : D.rows + M.rows ≤ 2 ^ 30

variable {D M : EncodedTable 64}

/-- The rows of one diagnosis or medication, with the time under another name. -/
def ofKind (t : EncodedTable 64) (kind : String) (x : BitVec 64) (time : String)
    (hkind : encTableValid ∉ [kind]) : EncodedTable 64 :=
  ((t.filter fun i => equalB (t.col kind i) x).deleteColumns [kind] hkind).renameColumn "[time]" time
    (by decide)

structure OfKind (t : EncodedTable 64) (kind : String) (x : BitVec 64) (time : String)
    (t' : EncodedTable 64) : Prop where
  ready : t'.Ready
  rows : t'.rows = t.rows
  schema : ∀ c, c ∈ t'.schema ↔ c = time ∨ (c ∈ t.schema ∧ c ≠ kind) ∧ c ≠ "[time]"
  validRows : t'.validRows = (t.validRows.filter fun ρ => ρ kind = x).map fun ρ =>
    renamed "[time]" time (deleted [kind] ρ)

theorem Ready.ofKind {t : EncodedTable 64} (ht : t.Ready) (kind time : String) (x : BitVec 64)
    (hkind : encTableValid ∉ [kind]) (hne : "[time]" ≠ kind) (hcolumn : "[time]" ∈ t.schema)
    (htime : time ∉ t.schema) (hinternal : time ∉ internalColumns) :
    OfKind t kind x time (t.ofKind kind x time hkind) := by
  obtain ⟨hready, hrows⟩ := ht.filter (p := fun ρ => decide (ρ kind = x))
    (e := fun i => equalB (t.col kind i) x) (by decide) fun _ _ => rfl
  obtain ⟨hready, hrows'⟩ := hready.deleteColumns hkind
  have hmem : ∀ c, c ∈ ((t.filter fun i => equalB (t.col kind i) x).deleteColumns [kind] hkind).schema ↔
      c ∈ t.schema ∧ c ≠ kind := fun c => by
    rw [mem_deleteColumns, List.mem_singleton]
    rfl
  have hold := (hmem _).mpr ⟨hcolumn, hne⟩
  have hnew := fun h => htime ((hmem time).mp h).1
  obtain ⟨hsize, hschema, -⟩ := renameColumn_eq (by decide : "[time]" ≠ encTableValid) hold hnew
  obtain ⟨hready, hrows''⟩ := hready.renameColumn (by decide) hold hnew hinternal
  refine ⟨hready, hsize, fun c => (hschema c).trans (or_congr_right (and_congr_left' (hmem c))),
    hrows''.trans ?_⟩
  rw [hrows', hrows, Multiset.map_map]
  exact congrArg _ (Multiset.filter_congr fun ρ _ => decide_eq_true_iff)

/-- The extreme time of every patient. -/
theorem OfKind.groups {t t' u : EncodedTable 64} {kind time : String} {x : BitVec 64}
    (h : OfKind t kind x time t') (hkind : "[time]" ≠ kind ∧ "[pid]" ≠ kind) (hpid : "[pid]" ≠ time)
    {f : AggregationSelector} (hf : f ≠ .count)
    (hu : SummaryTable ["[pid]"] time
      (Relational.groupBy (keyOf ["[pid]"]) (groupValue ⟨time, time, f⟩) t'.validRows) u) :
    (u.validRows.map fun ρ => (keyOf ["[pid]"] ρ, ρ time)) =
      Relational.groupBy (keyOf ["[pid]"]) (fun N => f.total (N.map fun ρ => ρ "[time]"))
        (t.validRows.filter fun ρ => ρ kind = x) := by
  rw [hu.groups, h.validRows, Relational.groupBy_map]
  refine congrArg₂ (Relational.groupBy · · _) (funext fun ρ => ?_) (funext fun N => ?_)
  · simp [keyOf, renamed, deleted, hpid, hkind.2]
  · rw [groupValue, if_neg hf, Multiset.map_map]
    refine congrArg _ (Multiset.map_congr rfl fun ρ _ => ?_)
    simp [renamed, deleted, hkind.1]

/-- The extreme time of a patient is a time of the patient. -/
theorem exists_extreme {G rows : Multiset (Row 64)} {time : String} {f : AggregationSelector}
    {p : Row 64 → Prop} [DecidablePred p]
    (hG : (G.map fun ρ => (keyOf ["[pid]"] ρ, ρ time)) =
      Relational.groupBy (keyOf ["[pid]"]) (fun N => f.total (N.map fun ρ => ρ "[time]"))
        (rows.filter p))
    (hf : ∀ N : Multiset (BitVec 64), N ≠ 0 → f.total N ∈ N) {ρ : Row 64} (hρ : ρ ∈ G) :
    ∃ σ ∈ rows, p σ ∧ keyOf ["[pid]"] σ = keyOf ["[pid]"] ρ ∧ σ "[time]" = ρ time := by
  obtain ⟨τ, hτ, hkey⟩ := Relational.exists_of_mem_groups hG hρ
  have hne := Multiset.card_pos.mp (Multiset.card_pos_iff_exists_mem.mpr
    ⟨_, Multiset.mem_map_of_mem (fun σ : Row 64 => σ "[time]")
      (Relational.mem_select.mpr ⟨hτ, hkey⟩)⟩)
  obtain ⟨σ, hσ, htime⟩ := Multiset.mem_map.mp (hf _ hne)
  obtain ⟨hσ, hpid⟩ := Relational.mem_select.mp hσ
  obtain ⟨hσ, hp⟩ := Multiset.mem_filter.mp hσ
  have hvalue : σ "[time]" = ρ time :=
    calc σ "[time]" = f.total _ := htime
      _ = ρ time := (Relational.value_of_groupBy hG hρ).symm
  exact ⟨σ, hσ, hp, hpid, hvalue⟩

/-- Some diagnosis is no later than some medication when the first one is no later than the last. -/
theorem treatedPatients_eq {D M D' M' : Multiset (Row 64)}
    (hD : (D'.map fun ρ => (keyOf ["[pid]"] ρ, ρ "[d.time]")) =
      Relational.groupBy (keyOf ["[pid]"])
        (fun N => AggregationSelector.min.total (N.map fun ρ => ρ "[time]"))
        (D.filter fun ρ => ρ "[diagnosis]" = qDiag))
    (hM : (M'.map fun ρ => (keyOf ["[pid]"] ρ, ρ "[m.time]")) =
      Relational.groupBy (keyOf ["[pid]"])
        (fun N => AggregationSelector.max.total (N.map fun ρ => ρ "[time]"))
        (M.filter fun ρ => ρ "[med]" = qMed)) :
    (((Relational.join (keyOf ["[pid]"]) (keyOf ["[pid]"]) M' D').filter fun p =>
      (p.2 "[d.time]").toInt ≤ (p.1 "[m.time]").toInt).map fun p => keyOf ["[pid]"] p.1) =
      treatedPatients D M := by
  have hD_keys := Relational.keys_of_groupBy hD
  have hM_keys := Relational.keys_of_groupBy hM
  have hnodup : ((Relational.join (keyOf ["[pid]"]) (keyOf ["[pid]"]) M' D').map
      fun p => keyOf ["[pid]"] p.1).Nodup := by
    have hfst := Relational.map_fst_join (f := keyOf ["[pid]"]) (R := M')
      (hD_keys ▸ Multiset.nodup_dedup _ : (D'.map (keyOf ["[pid]"])).Nodup)
    have hmap := congrArg (Multiset.map (keyOf ["[pid]"])) hfst
    rw [Multiset.map_map] at hmap
    refine hmap ▸ Multiset.nodup_of_le (Multiset.map_le_map (Multiset.filter_le _ _)) ?_
    exact hM_keys ▸ Multiset.nodup_dedup _
  rw [treatedPatients, Multiset.Nodup.ext
    (Multiset.nodup_of_le (Multiset.map_le_map (Multiset.filter_le _ _)) hnodup)
    (Multiset.nodup_dedup _)]
  intro pid
  rw [Multiset.mem_dedup, Multiset.mem_map, Multiset.mem_map]
  constructor
  · rintro ⟨p, hp, rfl⟩
    obtain ⟨hp, hle⟩ := Multiset.mem_filter.mp hp
    obtain ⟨⟨hm, hd⟩, hkey⟩ := Relational.mem_join.mp hp
    obtain ⟨δ, hδ, hdiag, hδ_pid, hδ_time⟩ := exists_extreme hD
      (fun _ => AggregationSelector.total_min_mem) hd
    obtain ⟨μ, hμ, hmed, hμ_pid, hμ_time⟩ := exists_extreme hM
      (fun _ => AggregationSelector.total_max_mem) hm
    have hpid : keyOf ["[pid]"] δ = keyOf ["[pid]"] μ := by rw [hδ_pid, hμ_pid, hkey]
    refine ⟨(δ, μ), Multiset.mem_filter.mpr ⟨Relational.mem_join.mpr ⟨⟨hδ, hμ⟩, hpid⟩, ?_⟩,
      hpid.trans hμ_pid⟩
    refine ⟨?_, hdiag, hmed⟩
    change (δ "[time]").toInt ≤ (μ "[time]").toInt
    rw [hδ_time, hμ_time]
    exact hle
  · rintro ⟨p, hp, rfl⟩
    obtain ⟨hp, hle, hdiag, hmed⟩ := Multiset.mem_filter.mp hp
    obtain ⟨⟨hd, hm⟩, hkey⟩ := Relational.mem_join.mp hp
    have hd : p.1 ∈ D.filter fun ρ => ρ "[diagnosis]" = qDiag := Multiset.mem_filter.mpr ⟨hd, hdiag⟩
    have hm : p.2 ∈ M.filter fun ρ => ρ "[med]" = qMed := Multiset.mem_filter.mpr ⟨hm, hmed⟩
    obtain ⟨δ, hδ, hδ_pid, hδ_time⟩ := Relational.exists_group hD hd
    obtain ⟨μ, hμ, hμ_pid, hμ_time⟩ := Relational.exists_group hM hm
    have hpid : keyOf ["[pid]"] μ = keyOf ["[pid]"] p.1 := hμ_pid.trans hkey.symm
    refine ⟨(μ, δ), Multiset.mem_filter.mpr ⟨Relational.mem_join.mpr
      ⟨⟨hμ, hδ⟩, hpid.trans hδ_pid.symm⟩, ?_⟩, hpid⟩
    have hd_mem := Relational.mem_select.mpr ⟨hd, (rfl : keyOf ["[pid]"] p.1 = _)⟩
    have hm_mem := Relational.mem_select.mpr ⟨hm, (rfl : keyOf ["[pid]"] p.2 = _)⟩
    have hmin := AggregationSelector.total_min_le (Multiset.mem_map_of_mem (fun ρ => ρ "[time]") hd_mem)
    have hmax := AggregationSelector.le_total_max (Multiset.mem_map_of_mem (fun ρ => ρ "[time]") hm_mem)
    calc (δ "[d.time]").toInt
        = _ := congrArg BitVec.toInt hδ_time
      _ ≤ (p.1 "[time]").toInt := hmin
      _ ≤ (p.2 "[time]").toInt := hle
      _ ≤ _ := hmax
      _ = (μ "[m.time]").toInt := congrArg BitVec.toInt hμ_time.symm

/-- The condition of the last filter. -/
def treatedInTime (ρ : Row 64) : Bool := decide ((ρ "[d.time]").toInt ≤ (ρ "[m.time]").toInt)

/-- The opened count is that of the patients who got the medication after the diagnosis. -/
theorem aspirin_rows (hparties : numParties ≠ 2) (h : AspirinTables D M)
    (hprotocol : protocol = .quicksort ∨ protocol = .radixsort) :
    Draws.Returns (aspirin numParties protocol D M) fun out => out.rows = 1 ∧
      (out.col "Count" 0).toNat = Multiset.card (treatedPatients D.validRows M.validRows) := by
  obtain ⟨hD, hM⟩ := h.ready
  obtain ⟨hD_gt, hM_gt⟩ := h.rows_gt
  have hrows_le := h.rows_le
  have hcolD := h.columnsD
  have hcolM := h.columnsM
  have hD' := hD.ofKind "[diagnosis]" "[d.time]" qDiag (by decide) (by decide)
    (hcolD _ (by decide)) (h.freshD _ (by decide)) (by decide)
  have hM' := hM.ofKind "[med]" "[m.time]" qMed (by decide) (by decide)
    (hcolM _ (by decide)) (h.freshM _ (by decide)) (by decide)
  have hkindD := List.forall_mem_singleton.mpr (hcolD "[diagnosis]" (by decide))
  refine (returns_requireColumns hkindD).bind fun _ _ => ?_
  have hkindM := List.forall_mem_singleton.mpr (hcolM "[med]" (by decide))
  refine (returns_requireColumns hkindM).bind fun _ _ => ?_
  have hspecD : GroupBySpec ["[pid]"] [⟨"[d.time]", "[d.time]", .min⟩] :=
    ⟨by decide, by decide, by decide, by decide, by decide, by decide, by decide, by decide⟩
  have hspecM : GroupBySpec ["[pid]"] [⟨"[m.time]", "[m.time]", .max⟩] :=
    ⟨by decide, by decide, by decide, by decide, by decide, by decide, by decide, by decide⟩
  have hD'_rows := hD'.rows
  have hM'_rows := hM'.rows
  have hD'_mem : ∀ c ∈ ["[pid]"] ++ ["[d.time]"],
      c ∈ (D.ofKind "[diagnosis]" qDiag "[d.time]" (by decide)).schema := by
    simp [hD'.schema, hcolD]
  have hM'_mem : ∀ c ∈ ["[pid]"] ++ ["[m.time]"],
      c ∈ (M.ofKind "[med]" qMed "[m.time]" (by decide)).schema := by
    simp [hM'.schema, hcolM]
  have hcallD := hspecD.call hD'.ready shareWidth_64 (by omega) (by omega) (by simp [hD'.schema, hcolD])
  have hcallM := hspecM.call hM'.ready shareWidth_64 (by omega) (by omega) (by simp [hM'.schema, hcolM])
  refine (hcallD.returns hD'.ready false hprotocol).bind fun D₁ hD₁ => ?_
  refine (hcallM.returns hM'.ready false hprotocol).bind fun M₁ hM₁ => ?_
  have hD₁_rows := hD₁.rows
  have hM₁_rows := hM₁.rows
  have hD₂ := hD₁.summary (List.mem_singleton.mpr rfl) hD'_mem
  have hM₂ := hM₁.summary (List.mem_singleton.mpr rfl) hM'_mem
  have hjoin : JoinKeysSpec ["[pid]"] [⟨"[d.time]", "[d.time]", .copyB⟩] :=
    ⟨by decide, by decide, by decide, by decide, by decide, by decide, by decide⟩
  have hcall := hjoin.call hD₁.ready hM₁.ready shareWidth_64 (by omega) (by omega)
    (by simp [hD₁.schema, hD'.schema, hcolD])
  refine (hcall.returns_innerJoin hparties (by omega) hD₂.nodup hprotocol).bind fun T hT => ?_
  obtain ⟨hT, hT_rows⟩ := hT
  have hT_time : ∀ c ∈ ["[d.time]", "[m.time]"], c ∈ T.schema := by
    simp [hT.schema, joinColumns, hD₁.schema, hM₁.schema, hD'.schema, hM'.schema]
  refine (returns_requireColumns hT_time).bind fun _ _ => ?_
  have he : ∀ i < T.rows, notB1 (greaterB (T.col "[d.time]" i) (T.col "[m.time]" i)) =
      bit (treatedInTime (T.row i)) := fun i _ => by
    rw [greaterB, notB1_bit, ← decide_not]
    exact congrArg bit (decide_eq_decide.mpr not_lt)
  obtain ⟨hT', hT'_rows⟩ := hT.ready.filter (by decide) (p := treatedInTime) he
  have hcount : "Count" ∉ T.schema := by
    simp [hT.schema, hD₁.schema, hM₁.schema, hD'.schema, hM'.schema, h.freshD, h.freshM]
  have hrows_ge := hT.rows_ge
  refine ((hT'.project ["[pid]"]).returns_countRows (by decide)
    (by change 0 < T.rows; omega) (by decide)
    fun hmem => hcount ((mem_project _ _ _).mp hmem).1).mono fun out hout => ⟨hout.1, ?_⟩
  have hcard_lt := (card_validRows_le T).trans hT.rows_le
  have hcard_le := Multiset.card_le_card
    (Multiset.filter_le (fun ρ => treatedInTime ρ = true) T.validRows)
  rw [hout.2, validRows_keep, Multiset.card_map, hT'_rows, toNat_natCast_of_lt (by omega),
    ← treatedPatients_eq (hD'.groups (by decide) (by decide) (by decide) hD₂)
      (hM'.groups (by decide) (by decide) (by decide) hM₂), Multiset.card_map, hT_rows,
    Multiset.filter_map, Multiset.card_map]
  refine congrArg _ (Multiset.filter_congr fun p _ => ?_)
  simp [treatedInTime, copied_singleton]

def exampleDiagnoses : EncodedTable 64 :=
  ofColumns 2 (fun _ => 1) [("[pid]", fun i => i), ("[time]", fun _ => 10), ("[diagnosis]", fun _ => 3)]

def exampleMedications : EncodedTable 64 :=
  ofColumns 2 (fun _ => 1)
    [("[pid]", fun i => i), ("[time]", fun i => if i = 0 then 12 else 8), ("[med]", fun _ => 5)]

theorem exampleMedications_tables : AspirinTables exampleDiagnoses exampleMedications where
  ready := ⟨⟨by unfold SingleBit; decide, by decide⟩, ⟨by unfold SingleBit; decide, by decide⟩⟩
  columnsD := by decide
  columnsM := by decide
  freshD := by decide
  freshM := by decide
  rows_gt := by decide
  rows_le := by decide

theorem aspirin_rows_example :
    Draws.Returns (aspirin 3 .quicksort exampleDiagnoses exampleMedications) fun out => out.rows = 1 ∧
      (out.col "Count" 0).toNat =
        Multiset.card (treatedPatients exampleDiagnoses.validRows exampleMedications.validRows) :=
  aspirin_rows (by decide) exampleMedications_tables (.inl rfl)

end Aspirin

end CryptDough.EncodedTable
