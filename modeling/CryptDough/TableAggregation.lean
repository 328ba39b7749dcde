import CryptDough.Aggregation

/-! The table operations built on adjacent comparisons: marking the first row of every group, and
aggregating the groups. -/

namespace CryptDough

open SegmentedScan Opened Aggregators

variable {w : ℕ}

/-- One in the first row and wherever some key differs from the row before. -/
def Operators.distinct (keys : List String) (col : String → Column w) : Column w := fun i =>
  if i = 0 then 1
  else keys.foldl (fun rest k => orB1 rest (notEqualB (col k (i - 1)) (col k i))) 0

structure AggregationOptions where
  reverse : Bool := false
  doSort : Bool := true
  markValid : Bool := true
  tableId : Option String := none

namespace EncodedTable

/-- Row `i` is the first of its group. -/
def startsGroup (t : EncodedTable w) (keys : List String) (i : ℕ) : Bool :=
  decide (i = 0 ∨ keyOf keys (t.row (i - 1)) ≠ keyOf keys (t.row i))

theorem foldl_orB1_bit (keys : List String) (p : String → Bool) (b : Bool) :
    keys.foldl (fun rest k => orB1 rest (bit (p k))) (bit b : BitVec w) = bit (b || keys.any p) := by
  induction keys generalizing b with
  | nil => simp
  | cons k keys ih => rw [List.foldl_cons, orB1_bit, ih, List.any_cons, Bool.or_assoc]

theorem operatorsDistinct_eq (t : EncodedTable w) (keys : List String) (i : ℕ) :
    Operators.distinct keys t.col i = bit (t.startsGroup keys i) := by
  unfold Operators.distinct startsGroup
  by_cases hi : i = 0
  · simp [hi, bit]
  · have hzero : (0 : BitVec w) = bit false := rfl
    have hany : (keys.any fun k => decide (t.col k (i - 1) ≠ t.col k i)) =
        decide (keyOf keys (t.row (i - 1)) ≠ keyOf keys (t.row i)) := by
      rw [Bool.eq_iff_iff, List.any_eq_true, decide_eq_true_iff, keyOf, keyOf, Ne, List.map_inj_left]
      push Not
      exact exists_congr fun k => and_congr_right fun _ => decide_eq_true_iff
    simp only [notEqualB_eq]
    rw [if_neg hi, hzero, foldl_orB1_bit keys fun k => decide (t.col k (i - 1) ≠ t.col k i), hany,
      Bool.false_or]
    simp [hi]

def distinct (t : EncodedTable w) (keys : List String) (res : String) :
    Draws (EncodedTable w) := do
  t.requireColumns (res :: keys)
  guard (keys ≠ [] ∧ res ∉ keys ∧ ∀ k ∈ keys, isBShared k)
  pure (t.assign res (Operators.distinct keys t.col))

/-- The columns of `t` with the contents `col`. -/
def withColumns (t : EncodedTable w) (col : String → Column w) : EncodedTable w where
  rows := t.rows
  schema := t.schema
  col := fun c => if c ∈ t.schema then col c else 0
  nodup := t.nodup
  valid_mem := t.valid_mem
  col_of_notMem := fun _ hc => if_neg hc

def shrink (t : EncodedTable w) (originalSize : ℕ) : EncodedTable w :=
  if originalSize < t.rows then t.resize originalSize else t

/-- In a forward aggregation the last row of every group keeps its valid bit, in a reverse one the
first. -/
def markFinalRows (t : EncodedTable w) (reverse : Bool) : EncodedTable w :=
  if reverse then t.filter (t.col encTableUniq)
  else t.assign encTableValid fun i =>
    if i < t.rows - 1 then andB1 (t.col encTableValid i) (t.col encTableUniq (i + 1))
    else t.col encTableValid i

/-- With `markValid` the first row of every group is marked before the aggregation. -/
def markFirstRows (t : EncodedTable w) (keys : List String) (opt : AggregationOptions) :
    Draws (EncodedTable w) :=
  if opt.markValid then do
    let t ← t.addColumns [encTableUniq]
    t.distinct keys encTableUniq
  else pure t

/-- The rows of copies all stay valid. -/
def updateValid (t : EncodedTable w) (spec : AggregationSpec) (opt : AggregationOptions) :
    EncodedTable w :=
  if opt.markValid then
    let t := if spec.any fun s => s.func.isAggregation then t.markFinalRows opt.reverse else t
    t.deleteColumns [encTableUniq] valid_notMem_uniq
  else t

def direction (reverse : Bool) : Direction := if reverse then .reverse else .forward

/-- The bits of the table ids are negated, if the rows have any. -/
def sideNegation (numParties : ℕ) : Option String → Draws Negation
  | some _ => Draws.negation numParties
  | none => pure plainNegation

/-- `aggregate` on a table whose groups are adjacent already. A single row has no level of the network,
and the assertion on the first one fails. -/
def aggregateGroups (numParties : ℕ) (t : EncodedTable w) (keys : List String)
    (spec : AggregationSpec) (opt : AggregationOptions) : Draws (EncodedTable w) := do
  let originalSize := t.rows
  let t ← t.padPowerOfTwo
  t.requireColumns (keys ++ spec.map Aggregation.data ++ spec.map Aggregation.result)
  guard ((∀ k ∈ keys, isBShared k) ∧ WellTyped spec ∧ 1 < t.rows)
  let t ← t.markFirstRows keys opt
  let tableId := if opt.markValid then opt.tableId else none
  t.requireColumns tableId.toList
  let negation ← sideNegation numParties tableId
  let setting := ⟨keys, tableId, direction opt.reverse, t.rows, negation⟩
  let t := t.withColumns (Aggregators.aggregate setting spec t.col)
  pure ((t.shrink originalSize).updateValid spec opt)

def aggregate (numParties : ℕ) (protocol : SortingProtocol) (t : EncodedTable w)
    (keys : List String) (spec : AggregationSpec) (opt : AggregationOptions) :
    Draws (EncodedTable w) := do
  if opt.doSort then
    let keys := encTableValid :: keys
    let t ← sort numParties protocol t (ascending keys)
    aggregateGroups numParties t keys spec opt
  else aggregateGroups numParties t keys spec opt

/-- The table the network runs on. -/
def padded (t : EncodedTable w) : EncodedTable w := t.resize (2 ^ Nat.size (t.rows - 1))

theorem padded_row (t : EncodedTable w) {i : ℕ} (hi : i < t.rows) : t.padded.row i = t.row i := by
  funext c
  exact if_pos hi

theorem padded_col (t : EncodedTable w) (c : String) {i : ℕ} (hi : i < t.rows) :
    t.padded.col c i = t.col c i := if_pos hi

theorem padded_col_of_ge (t : EncodedTable w) (c : String) {i : ℕ} (hi : t.rows ≤ i) :
    t.padded.col c i = 0 := if_neg (not_lt.mpr hi)

theorem returns_padPowerOfTwo (t : EncodedTable w) (hn0 : 0 < t.rows) (hn : t.rows ≤ 2 ^ 30) :
    Draws.Returns t.padPowerOfTwo (· = t.padded) := by
  have hsize : Nat.size (t.rows - 1) ≤ 30 := Nat.size_le.mpr (by omega)
  refine (returns_guard ⟨hn0, Nat.lt_succ_of_le hsize⟩).bind fun _ _ => Draws.Returns.pure ?_
  rw [Nat.one_shiftLeft, padded]

theorem returns_addColumns (t : EncodedTable w) {names : List String} (hnodup : names.Nodup)
    (hnames : ∀ c ∈ names, c ∉ t.schema) :
    Draws.Returns (t.addColumns names) (· = names.foldl extend t) := by
  induction names generalizing t with
  | nil => exact Draws.Returns.pure rfl
  | cons name names ih =>
      obtain ⟨hnot, hrest⟩ := List.nodup_cons.mp hnodup
      rw [addColumns, List.foldlM_cons]
      have hadd : Draws.Returns (t.addColumn name) (· = t.extend name) :=
        (returns_guard (hnames name List.mem_cons_self)).bind fun _ _ => Draws.Returns.pure rfl
      refine hadd.bind fun t' ht' => ?_
      subst ht'
      refine ih (t.extend name) hrest fun c hc => ?_
      rw [mem_extend, not_or]
      exact ⟨fun heq => hnot (heq ▸ hc), hnames c (List.mem_cons_of_mem name hc)⟩

theorem returns_distinct (t : EncodedTable w) {keys : List String} {res : String} (hne : keys ≠ [])
    (hmem : ∀ k ∈ keys, k ∈ t.schema) (hshared : ∀ k ∈ keys, isBShared k) (hres : res ∈ t.schema)
    (hnot : res ∉ keys) :
    Draws.Returns (t.distinct keys res) (· = t.assign res (Operators.distinct keys t.col)) := by
  refine (returns_guard (List.forall_mem_cons.mpr ⟨hres, hmem⟩)).bind fun _ _ => ?_
  exact (returns_guard ⟨hne, hnot, hshared⟩).bind fun _ _ => Draws.Returns.pure rfl

/-- The network `aggregateGroups` runs. -/
def setting (t : EncodedTable w) (keys : List String) (opt : AggregationOptions) : Setting :=
  ⟨keys, opt.tableId, direction opt.reverse, 2 ^ Nat.size (t.rows - 1), plainNegation⟩

/-- The valid bit that `markFinalRows` leaves in row `i`. -/
def finalValid (t : EncodedTable w) (keys : List String) (reverse : Bool) (i : ℕ) : BitVec w :=
  if reverse then andB1 (t.col encTableValid i) (bit (t.startsGroup keys i))
  else if i + 1 < t.rows then andB1 (t.col encTableValid i) (bit (t.startsGroup keys (i + 1)))
  else t.col encTableValid i

/-- What `aggregateGroups` makes of `t`. -/
structure Aggregated (t : EncodedTable w) (keys : List String) (spec : AggregationSpec)
    (opt : AggregationOptions) (t' : EncodedTable w) : Prop where
  rows : t'.rows = t.rows
  schema : ∀ c, c ∈ t'.schema ↔ c ∈ t.schema
  result : ∀ s ∈ spec, ∀ i, i < t.rows → t'.col s.result i =
    (direction opt.reverse).view (2 ^ Nat.size (t.rows - 1))
      (scan s.func.combine
        (sameGroup (t.setting keys opt) t.padded.col s.func)
        (brentKung (Nat.size (t.rows - 1)))
        ((direction opt.reverse).view (2 ^ Nat.size (t.rows - 1))
          (initial opt.tableId s t.padded.col))) i
  other : ∀ c, c ∉ spec.map Aggregation.result → c ≠ encTableValid →
    ∀ i, i < t.rows → t'.col c i = t.col c i
  valid : ∀ i, i < t.rows → t'.col encTableValid i =
    if spec.any fun s => s.func.isAggregation then t.finalValid keys opt.reverse i
    else t.col encTableValid i

theorem lt_two_pow_size {n : ℕ} (hn : 0 < n) : n ≤ 2 ^ Nat.size (n - 1) := by
  have hlt := Nat.lt_size_self (n - 1)
  omega

theorem startsGroup_congr {t t' : EncodedTable w} {keys : List String} {i : ℕ}
    (hrow : keyOf keys (t'.row i) = keyOf keys (t.row i))
    (hprev : keyOf keys (t'.row (i - 1)) = keyOf keys (t.row (i - 1))) :
    t'.startsGroup keys i = t.startsGroup keys i := by
  rw [startsGroup, startsGroup, hrow, hprev]

theorem size_two_pow_sub_one (k : ℕ) : Nat.size (2 ^ k - 1) = k := by
  apply le_antisymm
  · exact Nat.size_le.mpr (by have := Nat.two_pow_pos k; omega)
  · cases k with
    | zero => exact Nat.zero_le _
    | succ k =>
        apply Nat.lt_size.mpr
        have hpos := Nat.two_pow_pos k
        rw [Nat.pow_succ]
        omega

/-- The padded table with its first rows marked: what the network runs on. -/
def marked (t : EncodedTable w) (keys : List String) : EncodedTable w :=
  let m := t.padded.extend encTableUniq
  m.assign encTableUniq (Operators.distinct keys m.col)

theorem marked_col (t : EncodedTable w) (keys : List String) {c : String} (hc : c ≠ encTableUniq) :
    (t.marked keys).col c = t.padded.col c :=
  assign_col_of_ne _ hc _

theorem marked_uniq (t : EncodedTable w) (keys : List String) {i : ℕ} (hi : i < t.rows) :
    (t.marked keys).col encTableUniq i = bit (t.startsGroup keys i) := by
  have hmem : encTableUniq ∈ (t.padded.extend encTableUniq).schema :=
    (mem_extend _ _ _).mpr (Or.inl rfl)
  rw [marked, assign_col_self _ hmem, operatorsDistinct_eq]
  have hprev : i - 1 < t.rows := lt_of_le_of_lt (Nat.sub_le i 1) hi
  exact congrArg bit (startsGroup_congr
    (congrArg (keyOf keys) (padded_row t hi))
    (congrArg (keyOf keys) (padded_row t hprev)))

theorem shrink_rows (t : EncodedTable w) {n : ℕ} (hn : n ≤ t.rows) : (t.shrink n).rows = n := by
  unfold shrink
  split
  · rfl
  · rename_i hnot
    exact le_antisymm (not_lt.mp hnot) hn

@[simp] theorem shrink_schema (t : EncodedTable w) (n : ℕ) : (t.shrink n).schema = t.schema := by
  unfold shrink
  split <;> rfl

theorem shrink_col (t : EncodedTable w) (n : ℕ) (c : String) {i : ℕ} (hi : i < t.rows) :
    (t.shrink n).col c i = t.col c i := by
  unfold shrink
  split
  · exact if_pos hi
  · rfl

/-- The aggregated columns on the rows of the original table. -/
def aggregated (t : EncodedTable w) (keys : List String) (spec : AggregationSpec)
    (opt : AggregationOptions) : EncodedTable w :=
  ((t.marked keys).withColumns
    (Aggregators.aggregate (t.setting keys opt) spec (t.marked keys).col)).shrink t.rows

theorem marked_rows_le (t : EncodedTable w) (hn0 : 0 < t.rows) (keys : List String) :
    t.rows ≤ (t.marked keys).rows := lt_two_pow_size hn0

theorem aggregated_rows (t : EncodedTable w) (hn0 : 0 < t.rows) (keys : List String)
    (spec : AggregationSpec) (opt : AggregationOptions) :
    (t.aggregated keys spec opt).rows = t.rows :=
  shrink_rows _ (t.marked_rows_le hn0 keys)

theorem mem_aggregated (t : EncodedTable w) (keys : List String) (spec : AggregationSpec)
    (opt : AggregationOptions) (c : String) :
    c ∈ (t.aggregated keys spec opt).schema ↔ c = encTableUniq ∨ c ∈ t.schema := by
  rw [aggregated, shrink_schema]
  exact mem_extend _ _ _

theorem aggregated_col (t : EncodedTable w) (hn0 : 0 < t.rows) (keys : List String)
    (spec : AggregationSpec) (opt : AggregationOptions) {c : String}
    (hc : c = encTableUniq ∨ c ∈ t.schema) {i : ℕ} (hi : i < t.rows) :
    (t.aggregated keys spec opt).col c i =
      Aggregators.aggregate (t.setting keys opt) spec (t.marked keys).col c i := by
  have hmem : c ∈ (t.marked keys).schema := (mem_extend _ _ _).mpr hc
  have hlt : i < ((t.marked keys).withColumns
      (Aggregators.aggregate (t.setting keys opt) spec (t.marked keys).col)).rows :=
    lt_of_lt_of_le hi (t.marked_rows_le hn0 keys)
  have hcol : ((t.marked keys).withColumns
      (Aggregators.aggregate (t.setting keys opt) spec (t.marked keys).col)).col c =
      Aggregators.aggregate (t.setting keys opt) spec (t.marked keys).col c := if_pos hmem
  rw [aggregated, shrink_col _ _ c hlt, hcol]

theorem aggregated_scanned (t : EncodedTable w) (hn0 : 0 < t.rows) (hw : 0 < w) {keys : List String}
    {spec : AggregationSpec} {opt : AggregationOptions} (hspec : Separate keys opt.tableId spec)
    (huniq : encTableUniq ∉ t.schema) (hkeys : ∀ k ∈ keys, k ∈ t.schema)
    (hcolumns : ∀ s ∈ spec, s.data ∈ t.schema ∧ s.result ∈ t.schema)
    (hid : ∀ sel, opt.tableId = some sel → sel ∈ t.schema) :
    (∀ s ∈ spec, ∀ i, i < t.rows → (t.aggregated keys spec opt).col s.result i =
      (direction opt.reverse).view (2 ^ Nat.size (t.rows - 1))
        (scan s.func.combine
          (sameGroup (t.setting keys opt) t.padded.col s.func)
          (brentKung (Nat.size (t.rows - 1)))
          ((direction opt.reverse).view (2 ^ Nat.size (t.rows - 1))
            (initial opt.tableId s t.padded.col))) i) ∧
    (∀ c, c ∉ spec.map Aggregation.result → c ∈ t.schema → ∀ i, i < t.rows →
      (t.aggregated keys spec opt).col c i = t.col c i) ∧
    ∀ i, i < t.rows → (t.aggregated keys spec opt).col encTableUniq i =
      bit (t.startsGroup keys i) := by
  have hne : ∀ c, c ∈ t.schema → c ≠ encTableUniq := fun c hc heq => huniq (heq ▸ hc)
  have hscan : Scanned (t.setting keys opt) spec
      (brentKung (Nat.size ((t.setting keys opt).n - 1))) (t.marked keys).col
      (Aggregators.aggregate (t.setting keys opt) spec (t.marked keys).col) :=
    scanned_aggregate hw rfl hspec.compatible _
  have hsize : Nat.size ((t.setting keys opt).n - 1) = Nat.size (t.rows - 1) :=
    size_two_pow_sub_one _
  have hsame := sameGroup_congr (t.setting keys opt)
    (fun k hk => marked_col t keys (hne k (hkeys k hk)))
    fun sel hsel => marked_col t keys (hne sel (hid sel hsel))
  refine ⟨fun s hs i hi => ?_, fun c hc hmem i hi => ?_, fun i hi => ?_⟩
  · have hinitial : initial opt.tableId s (t.marked keys).col =
        initial opt.tableId s t.padded.col := by
      unfold initial
      split
      · cases hcases : opt.tableId with
        | none => rfl
        | some sel => simp only [marked_col t keys (hne sel (hid sel hcases))]
      · exact marked_col t keys (hne _ (hcolumns s hs).1)
    rw [aggregated_col t hn0 keys spec opt (Or.inr (hcolumns s hs).2) hi, hscan.result s hs, hsize,
      hsame]
    change (direction opt.reverse).view _ (scan _ _ _ ((direction opt.reverse).view _
      (initial opt.tableId s (t.marked keys).col))) i = _
    rw [hinitial]
    rfl
  · rw [aggregated_col t hn0 keys spec opt (Or.inr hmem) hi, hscan.other c hc,
      marked_col t keys (hne c hmem)]
    exact if_pos hi
  · have hnot : encTableUniq ∉ spec.map Aggregation.result := by
      intro hmem
      obtain ⟨s, hs, heq⟩ := List.mem_map.mp hmem
      exact huniq (heq ▸ (hcolumns s hs).2)
    rw [aggregated_col t hn0 keys spec opt (Or.inl rfl) hi, hscan.other _ hnot]
    exact marked_uniq t keys hi

theorem markFinalRows_valid (t : EncodedTable w) (reverse : Bool) (i : ℕ) :
    (t.markFinalRows reverse).col encTableValid i =
      if reverse then andB1 (t.col encTableValid i) (t.col encTableUniq i)
      else if i < t.rows - 1 then andB1 (t.col encTableValid i) (t.col encTableUniq (i + 1))
      else t.col encTableValid i := by
  unfold markFinalRows
  split
  · exact filter_valid t _ i
  · rw [assign_col_self _ t.valid_mem]

theorem markFinalRows_col (t : EncodedTable w) (reverse : Bool) {c : String}
    (hc : c ≠ encTableValid) : (t.markFinalRows reverse).col c = t.col c := by
  unfold markFinalRows
  split <;> exact assign_col_of_ne t hc _

theorem markFinalRows_schema (t : EncodedTable w) (reverse : Bool) :
    (t.markFinalRows reverse).schema = t.schema ∧ (t.markFinalRows reverse).rows = t.rows := by
  unfold markFinalRows
  split <;> exact ⟨rfl, rfl⟩

theorem returns_markFirstRows (t : EncodedTable w) {keys : List String} {opt : AggregationOptions}
    (hmark : opt.markValid = true) (hne : keys ≠ []) (hkeys : ∀ k ∈ keys, k ∈ t.schema ∧ isBShared k)
    (huniq : encTableUniq ∉ t.schema) :
    Draws.Returns (t.markFirstRows keys opt) (· = (t.extend encTableUniq).assign encTableUniq
      (Operators.distinct keys (t.extend encTableUniq).col)) := by
  rw [markFirstRows, if_pos hmark]
  refine (returns_addColumns t (List.nodup_singleton _)
    (List.forall_mem_singleton.mpr huniq)).bind fun m hm => ?_
  subst hm
  refine returns_distinct _ hne (fun k hk => (mem_extend _ _ _).mpr (Or.inr (hkeys k hk).1))
    (fun k hk => (hkeys k hk).2) ((mem_extend _ _ _).mpr (Or.inl rfl)) ?_
  exact fun hmem => huniq (hkeys _ hmem).1

theorem updateValid_rows (t : EncodedTable w) (spec : AggregationSpec) {opt : AggregationOptions}
    (hmark : opt.markValid = true) : (t.updateValid spec opt).rows = t.rows := by
  rw [updateValid, if_pos hmark, deleteColumns_rows]
  split
  · exact (markFinalRows_schema t opt.reverse).2
  · rfl

theorem mem_updateValid (t : EncodedTable w) (spec : AggregationSpec) {opt : AggregationOptions}
    (hmark : opt.markValid = true) (c : String) :
    c ∈ (t.updateValid spec opt).schema ↔ c ∈ t.schema ∧ c ≠ encTableUniq := by
  rw [updateValid, if_pos hmark, mem_deleteColumns, List.mem_singleton]
  split
  · rw [(markFinalRows_schema t opt.reverse).1]
  · rfl

theorem updateValid_col (t : EncodedTable w) (spec : AggregationSpec) {opt : AggregationOptions}
    (hmark : opt.markValid = true) {c : String} (hc : c ≠ encTableUniq) (hvalid : c ≠ encTableValid) :
    (t.updateValid spec opt).col c = t.col c := by
  have hnot : c ∉ [encTableUniq] := List.mem_singleton.not.mpr hc
  rw [updateValid, if_pos hmark, deleteColumns_col, if_neg hnot]
  split
  · exact markFinalRows_col t opt.reverse hvalid
  · rfl

theorem updateValid_valid (t : EncodedTable w) (spec : AggregationSpec) {opt : AggregationOptions}
    (hmark : opt.markValid = true) (i : ℕ) :
    (t.updateValid spec opt).col encTableValid i =
      if spec.any fun s => s.func.isAggregation then
        if opt.reverse then andB1 (t.col encTableValid i) (t.col encTableUniq i)
        else if i < t.rows - 1 then andB1 (t.col encTableValid i) (t.col encTableUniq (i + 1))
        else t.col encTableValid i
      else t.col encTableValid i := by
  have hnot : encTableValid ∉ [encTableUniq] := valid_notMem_uniq
  rw [updateValid, if_pos hmark, deleteColumns_col, if_neg hnot]
  split
  · exact markFinalRows_valid t opt.reverse i
  · rfl

/-- Only the rows of the table matter. -/
theorem aggregated_congr {t t' : EncodedTable w} (hrows : t'.rows = t.rows)
    (hschema : t'.schema = t.schema) (hrow : ∀ i, i < t.rows → t'.row i = t.row i)
    (keys : List String) (spec : AggregationSpec) (opt : AggregationOptions) :
    t'.aggregated keys spec opt = t.aggregated keys spec opt := by
  have hpadded : t'.padded = t.padded := by
    rw [padded, padded]
    refine EncodedTable.ext (by rw [hrows]; rfl) hschema (funext fun c => funext fun i => ?_)
    change (if i < t'.rows then t'.col c i else 0) = if i < t.rows then t.col c i else 0
    rw [hrows]
    split_ifs with hi
    · exact congrFun (hrow i hi) c
    · rfl
  rw [aggregated, aggregated, marked, marked, setting, setting, hpadded, hrows]

/-- Without a table id, for copies alone, and with more than two parties the bits are negated. -/
theorem aggregate_setting (t : EncodedTable w) {numParties : ℕ} {keys : List String}
    {spec : AggregationSpec} {opt : AggregationOptions}
    (hparties : opt.tableId = none ∨ numParties ≠ 2 ∨ ∀ s ∈ spec, s.func.isCopy = true)
    {negation : Negation} (hplain : numParties ≠ 2 → negation = plainNegation)
    (col : String → Column w) :
    Aggregators.aggregate { t.setting keys opt with negation := negation } spec col =
      Aggregators.aggregate (t.setting keys opt) spec col := by
  rcases hparties with hnone | hne | hcopies
  · exact aggregate_withNegation (t.setting keys opt) negation (Or.inl hnone) col
  · rw [hplain hne]
    rfl
  · exact aggregate_withNegation (t.setting keys opt) negation (Or.inr hcopies) col

theorem returns_aggregateGroups {numParties : ℕ} {keys : List String} {spec : AggregationSpec}
    {opt : AggregationOptions}
    (hparties : opt.tableId = none ∨ numParties ≠ 2 ∨ ∀ s ∈ spec, s.func.isCopy = true)
    (t : EncodedTable w) (hn1 : 1 < t.rows) (hn : t.rows ≤ 2 ^ 30)
    (hmark : opt.markValid = true) (hne : keys ≠ []) (htyped : WellTyped spec)
    (hkeys : ∀ k ∈ keys, k ∈ t.schema ∧ isBShared k)
    (hcolumns : ∀ s ∈ spec, s.data ∈ t.schema ∧ s.result ∈ t.schema)
    (hid : ∀ sel, opt.tableId = some sel → sel ∈ t.schema) (huniq : encTableUniq ∉ t.schema) :
    Draws.Returns (aggregateGroups numParties t keys spec opt)
      (· = (t.aggregated keys spec opt).updateValid spec opt) := by
  have hn0 : 0 < t.rows := Nat.zero_lt_of_lt hn1
  rw [aggregateGroups]
  refine (returns_padPowerOfTwo t hn0 hn).bind fun padded hpadded => ?_
  subst hpadded
  refine Draws.Returns.bind (returns_guard ?_) fun _ _ => ?_
  · intro c hc
    rw [List.mem_append, List.mem_append, List.mem_map, List.mem_map] at hc
    rcases hc with (hc | ⟨s, hs, rfl⟩) | ⟨s, hs, rfl⟩
    · exact (hkeys c hc).1
    · exact (hcolumns s hs).1
    · exact (hcolumns s hs).2
  refine Draws.Returns.bind (returns_guard ⟨fun k hk => (hkeys k hk).2, htyped,
    lt_of_lt_of_le hn1 (lt_two_pow_size hn0)⟩) fun _ _ => ?_
  refine Draws.Returns.bind
    (returns_markFirstRows _ hmark hne hkeys huniq) fun marked hmarked => ?_
  subst hmarked
  rw [hmark, if_pos rfl]
  refine Draws.Returns.bind (returns_guard fun c hc => ?_) fun _ _ => ?_
  · exact (mem_extend _ _ _).mpr (Or.inr (hid c (Option.mem_toList.mp hc)))
  have hnegation : Draws.Returns (sideNegation numParties opt.tableId)
      fun negation => numParties ≠ 2 → negation = plainNegation := by
    cases opt.tableId with
    | none => exact Draws.Returns.pure fun _ => rfl
    | some sel => exact Draws.returns_negation numParties
  refine hnegation.bind fun negation hplain => Draws.Returns.pure ?_
  rw [aggregated, ← aggregate_setting t hparties hplain]
  rfl

theorem aggregated_updateValid (hw : 0 < w) (t : EncodedTable w) (hn0 : 0 < t.rows)
    {keys : List String} {spec : AggregationSpec} {opt : AggregationOptions}
    (hmark : opt.markValid = true) (hspec : Separate keys opt.tableId spec)
    (hvalid : encTableValid ∈ keys) (hkeys : ∀ k ∈ keys, k ∈ t.schema)
    (hcolumns : ∀ s ∈ spec, s.data ∈ t.schema ∧ s.result ∈ t.schema)
    (hid : ∀ sel, opt.tableId = some sel → sel ∈ t.schema) (huniq : encTableUniq ∉ t.schema) :
    Aggregated t keys spec opt ((t.aggregated keys spec opt).updateValid spec opt) := by
  have hne : ∀ c, c ∈ t.schema → c ≠ encTableUniq := fun c hc heq => huniq (heq ▸ hc)
  obtain ⟨hresult, hother, hflags⟩ := aggregated_scanned t hn0 hw hspec huniq hkeys hcolumns hid
  have hrows := aggregated_rows t hn0 keys spec opt
  have hmem := mem_aggregated t keys spec opt
  have hvalid_result : encTableValid ∉ spec.map Aggregation.result := hspec.keys _ hvalid
  refine ⟨(updateValid_rows _ spec hmark).trans hrows, fun c => ?_, fun s hs i hi => ?_,
    fun c hc hc' i hi => ?_, fun i hi => ?_⟩
  · rw [mem_updateValid _ spec hmark, hmem]
    constructor
    · exact fun h => h.1.resolve_left h.2
    · exact fun h => ⟨Or.inr h, hne c h⟩
  · have hs_mem : s.result ∈ spec.map Aggregation.result := List.mem_map_of_mem hs
    rw [updateValid_col _ spec hmark (hne _ (hcolumns s hs).2) fun heq => hvalid_result (heq ▸ hs_mem)]
    exact hresult s hs i hi
  · by_cases hmem_c : c ∈ t.schema
    · rw [updateValid_col _ spec hmark (hne c hmem_c) hc']
      exact hother c hc hmem_c i hi
    · have hnot : c ∉ ((t.aggregated keys spec opt).updateValid spec opt).schema := by
        rw [mem_updateValid _ spec hmark, hmem]
        exact fun h => hmem_c (h.1.resolve_left h.2)
      rw [col_of_notMem _ c hnot, col_of_notMem _ c hmem_c]
  · rw [updateValid_valid _ spec hmark, hother _ hvalid_result t.valid_mem i hi, hflags i hi, hrows,
      finalValid]
    split
    · split
      · rfl
      · by_cases hlast : i + 1 < t.rows
        · rw [if_pos (by omega : i < t.rows - 1), if_pos hlast, hflags _ hlast]
        · rw [if_neg (by omega : ¬ i < t.rows - 1), if_neg hlast]
    · rfl

end EncodedTable

end CryptDough
