import CryptDough.GroupScan
import CryptDough.GroupSides
import CryptDough.TableConcatenation

/-! Joins of a table with unique keys and one with foreign keys: both are put into one table and sorted
by valid bit, keys and table id, the rows that match are marked by comparing neighbours, and a scan
copies the columns of the left row down its group. -/

namespace CryptDough

open SegmentedScan AdjacentGroups Opened Aggregators

variable {w : ℕ}

/-- The temporary column for the valid bits, which are a key of the aggregation themselves. -/
def encTableValidTemp : String := "[##VALID_TEMP]"

structure JoinOptions where
  leftOuter : Bool := false
  rightOuter : Bool := false
  anti : Bool := false
  trimInvalid : Bool := true

namespace EncodedTable

theorem valid_notMem_temporary : encTableValid ∉ [encTableValidTemp, encTableJoinId] := by
  decide

/-- The columns of the result: keys, columns of the right table, those of the aggregations, and the ones
of the left table in a left outer join. -/
def joinColumns (t right : EncodedTable w) (keys : List String) (aggSpec : AggregationSpec)
    (opt : JoinOptions) : List String :=
  keys ++ right.schema ++ aggSpec.map Aggregation.data ++ aggSpec.map Aggregation.result ++
    if opt.leftOuter then t.schema else []

/-- The validity of the right rows is aggregated, except in right outer joins. -/
def joinSpec (aggSpec : AggregationSpec) (opt : JoinOptions) : AggregationSpec :=
  aggSpec ++ (if opt.rightOuter then [] else [⟨encTableValidTemp, encTableValidTemp, .valid⟩]) ++
    if opt.anti then [⟨encTableValidTemp, encTableValidTemp, .copyB⟩] else []

/-- The first row of every group is marked, where the marks are needed. -/
def markUnique (t : EncodedTable w) (keys : List String) (opt : JoinOptions) : Draws (EncodedTable w) :=
  if opt.rightOuter then pure t else t.distinct keys encTableUniq

/-- The valid bits that a row starts the aggregation with. In a left outer join these are the right rows
that are not unique and the left rows whose next row starts another group. -/
def markJoined (t : EncodedTable w) (negation : Negation) (opt : JoinOptions) : EncodedTable w :=
  let valid := t.col encTableValid
  let id := t.col encTableJoinId
  let uniq := t.col encTableUniq
  if opt.leftOuter then
    if opt.rightOuter then t.assign encTableValidTemp valid
    else
      let t := t.assign encTableValidTemp fun i =>
        andB1 (valid i) (negation 0 i w (andB1 (id i) (uniq i)))
      t.assign encTableValidTemp fun i =>
        if i < t.rows - 1 then andB1 (t.col encTableValidTemp i) (orB1 (id i) (uniq (i + 1)))
        else t.col encTableValidTemp i
  else if opt.rightOuter then t.assign encTableValidTemp fun i => andB1 (valid i) (id i)
  else t.assign encTableValidTemp fun i => andB1 (valid i) (negation 0 i w (uniq i))

/-- Right outer joins negate nothing. -/
def joinNegation (numParties : ℕ) (opt : JoinOptions) : Draws Negation :=
  if opt.rightOuter then pure plainNegation else Draws.negation numParties

/-- The columns that the aggregation of a sorted table needs. -/
def markJoin (numParties : ℕ) (t : EncodedTable w) (keys : List String) (opt : JoinOptions) :
    Draws (EncodedTable w) := do
  let t ← t.addColumns [encTableUniq, encTableValidTemp]
  let t ← t.markUnique keys opt
  let negation ← joinNegation numParties opt
  pure ((t.markJoined negation opt).deleteColumns [encTableUniq] valid_notMem_uniq)

def finishJoin (t : EncodedTable w) : EncodedTable w :=
  (t.filter (t.col encTableValidTemp)).deleteColumns [encTableValidTemp, encTableJoinId]
    valid_notMem_temporary

/-- Inner and right outer joins are cut to the size of the right table, if the rows saved are worth the
sort. -/
def trim (numParties : ℕ) (protocol : SortingProtocol) (t right concat : EncodedTable w)
    (opt : JoinOptions) : Draws (EncodedTable w) :=
  let columns := t.schema.length - 1
  if (opt.trimInvalid && !opt.leftOuter) = true ∧
      right.rows < t.rows * (w + columns - 1) / (columns + 2) then do
    let concat ← sort numParties protocol concat [(encTableValid, .desc)]
    pure (concat.head right.rows)
  else pure concat

/-- The rows of both tables, sorted and marked. -/
def markedConcat (numParties : ℕ) (protocol : SortingProtocol) (t right : EncodedTable w)
    (keys : List String) (aggSpec : AggregationSpec) (opt : JoinOptions) : Draws (EncodedTable w) := do
  let concat ← t.concatenate right
  let concat := concat.project (t.joinColumns right keys aggSpec opt)
  let keys := encTableValid :: keys
  let concat ← sort numParties protocol concat (ascending (keys ++ [encTableJoinId]))
  markJoin numParties concat keys opt

/-- `_join` -/
def join (numParties : ℕ) (protocol : SortingProtocol) (t right : EncodedTable w) (keys : List String)
    (aggSpec : AggregationSpec) (opt : JoinOptions) : Draws (EncodedTable w) := do
  let concat ← markedConcat numParties protocol t right keys aggSpec opt
  let concat ← aggregate numParties protocol concat (encTableValid :: keys) (joinSpec aggSpec opt)
    { doSort := false, tableId := some encTableJoinId }
  trim numParties protocol t right concat.finishJoin opt

def innerJoin (numParties : ℕ) (protocol : SortingProtocol) (t right : EncodedTable w)
    (keys : List String) (aggSpec : AggregationSpec) (opt : JoinOptions := {}) :
    Draws (EncodedTable w) :=
  join numParties protocol t right keys aggSpec { opt with leftOuter := false, rightOuter := false }

def leftOuterJoin (numParties : ℕ) (protocol : SortingProtocol) (t right : EncodedTable w)
    (keys : List String) (aggSpec : AggregationSpec) (opt : JoinOptions := {}) :
    Draws (EncodedTable w) :=
  join numParties protocol t right keys aggSpec { opt with leftOuter := true, rightOuter := false }

def rightOuterJoin (numParties : ℕ) (protocol : SortingProtocol) (t right : EncodedTable w)
    (keys : List String) (aggSpec : AggregationSpec) (opt : JoinOptions := {}) :
    Draws (EncodedTable w) :=
  join numParties protocol t right keys aggSpec { opt with leftOuter := false, rightOuter := true }

def fullOuterJoin (numParties : ℕ) (protocol : SortingProtocol) (t right : EncodedTable w)
    (keys : List String) (aggSpec : AggregationSpec) (opt : JoinOptions := {}) :
    Draws (EncodedTable w) :=
  join numParties protocol t right keys aggSpec { opt with leftOuter := true, rightOuter := true }

/-- The roles are exchanged: the rows of this table that match are those of the inner join. -/
def semiJoin (numParties : ℕ) (protocol : SortingProtocol) (t right : EncodedTable w)
    (keys : List String) : Draws (EncodedTable w) := do
  let result ← innerJoin numParties protocol right t keys []
  pure (result.project t.schema)

def antiJoin (numParties : ℕ) (protocol : SortingProtocol) (t right : EncodedTable w)
    (keys : List String) : Draws (EncodedTable w) := do
  let result ← rightOuterJoin numParties protocol right t keys [] { anti := true }
  pure (result.project t.schema)

section Marks

variable {s m : EncodedTable w} {keys : List String} {opt : JoinOptions} {i : ℕ}

/-- Row `i` is valid. -/
def isValid (s : EncodedTable w) (i : ℕ) : Bool := decide (s.col encTableValid i ≠ 0)

/-- Row `i` is from the right table. -/
def isRight (s : EncodedTable w) (i : ℕ) : Bool := decide (s.col encTableJoinId i ≠ 0)

/-- What `markJoined` marks, if the bits are negated. -/
def joinValid (s : EncodedTable w) (keys : List String) (opt : JoinOptions) (i : ℕ) : Bool :=
  s.isValid i &&
    match opt.leftOuter, opt.rightOuter with
    | true, true => true
    | true, false => !(s.isRight i && s.startsGroup keys i) &&
        (decide (i + 1 = s.rows) || (s.isRight i || s.startsGroup keys (i + 1)))
    | false, true => s.isRight i
    | false, false => !s.startsGroup keys i

/-- What the sorted table `s` becomes before the aggregation. -/
structure MarkedJoin (s : EncodedTable w) (keys : List String) (opt : JoinOptions)
    (m : EncodedTable w) : Prop where
  rows : m.rows = s.rows
  schema : ∀ c, c ∈ m.schema ↔ c = encTableValidTemp ∨ c ∈ s.schema
  col : ∀ c, c ≠ encTableValidTemp → m.col c = s.col c
  marks : ∀ i < s.rows, m.col encTableValidTemp i = bit (s.joinValid keys opt i)

theorem validTemp_ne_uniq : encTableValidTemp ≠ encTableUniq := by
  decide

theorem validTemp_ne_valid : encTableValidTemp ≠ encTableValid := by
  decide

/-- The columns that are marked, with the marks of the first rows if there are any. -/
theorem markJoined_eq (hw : 0 < w) (hvalid : s.SingleBit encTableValid)
    (hid : s.SingleBit encTableJoinId) {d : EncodedTable w} (hrows : d.rows = s.rows)
    (htemp : encTableValidTemp ∈ d.schema) (hcol_valid : d.col encTableValid = s.col encTableValid)
    (hcol_id : d.col encTableJoinId = s.col encTableJoinId)
    (huniq : opt.rightOuter = false → d.col encTableUniq = fun i => bit (s.startsGroup keys i))
    (hi : i < s.rows) :
    (d.markJoined plainNegation opt).col encTableValidTemp i = bit (s.joinValid keys opt i) := by
  have hv : d.col encTableValid i = bit (s.isValid i) := by
    rw [hcol_valid]
    exact bit_of_singleBit (hvalid i hi) hw
  have hr : d.col encTableJoinId i = bit (s.isRight i) := by
    rw [hcol_id]
    exact bit_of_singleBit (hid i hi) hw
  unfold markJoined joinValid
  cases hleft : opt.leftOuter with
  | true =>
      cases hright : opt.rightOuter with
      | true => simp [assign_col_self _ htemp, hv]
      | false =>
          have hu := huniq hright
          have htemp' : ∀ v, encTableValidTemp ∈ (d.assign encTableValidTemp v).schema := fun _ => htemp
          simp only [if_true, Bool.false_eq_true, if_false, assign_col_self _ (htemp' _),
            assign_col_self _ htemp, assign_rows, hrows, hu, hv, hr, plainNegation, andB1_bit, notB1_bit,
            orB1_bit]
          by_cases hlast : i < s.rows - 1
          · have hne : i + 1 ≠ s.rows := by omega
            simp [hlast, hne, Bool.and_assoc]
          · have heq : i + 1 = s.rows := by omega
            simp [hlast, heq]
  | false =>
      cases hright : opt.rightOuter with
      | true => simp [assign_col_self _ htemp, hv, hr]
      | false => simp [assign_col_self _ htemp, hv, huniq hright, plainNegation]

theorem markJoined_schema (d : EncodedTable w) (negation : Negation) (opt : JoinOptions) :
    (d.markJoined negation opt).schema = d.schema ∧ (d.markJoined negation opt).rows = d.rows := by
  unfold markJoined
  split_ifs <;> exact ⟨rfl, rfl⟩

theorem markJoined_col (d : EncodedTable w) (negation : Negation) (opt : JoinOptions) {c : String}
    (hc : c ≠ encTableValidTemp) : (d.markJoined negation opt).col c = d.col c := by
  unfold markJoined
  split_ifs
  · exact assign_col_of_ne d hc _
  · exact (assign_col_of_ne _ hc _).trans (assign_col_of_ne d hc _)
  · exact assign_col_of_ne d hc _
  · exact assign_col_of_ne d hc _

/-- The marked table, with the first rows of the groups where they are needed. -/
def withUniq (s : EncodedTable w) (keys : List String) (opt : JoinOptions) : EncodedTable w :=
  let e := (s.extend encTableUniq).extend encTableValidTemp
  if opt.rightOuter then e else e.assign encTableUniq (Operators.distinct keys e.col)

/-- What `markJoin` returns, if the bits are negated. -/
def withMarks (s : EncodedTable w) (keys : List String) (opt : JoinOptions) : EncodedTable w :=
  ((s.withUniq keys opt).markJoined plainNegation opt).deleteColumns [encTableUniq] valid_notMem_uniq

theorem mem_withUniq (s : EncodedTable w) (keys : List String) (opt : JoinOptions) (c : String) :
    c ∈ (s.withUniq keys opt).schema ↔ c = encTableValidTemp ∨ c = encTableUniq ∨ c ∈ s.schema := by
  unfold withUniq
  split_ifs
  · rw [mem_extend, mem_extend]
  · rw [assign_schema, mem_extend, mem_extend]

theorem withUniq_rows (s : EncodedTable w) (keys : List String) (opt : JoinOptions) :
    (s.withUniq keys opt).rows = s.rows := by
  unfold withUniq
  split_ifs <;> rfl

theorem withUniq_col (s : EncodedTable w) (keys : List String) (opt : JoinOptions) {c : String}
    (hc : c ≠ encTableUniq) : (s.withUniq keys opt).col c = s.col c := by
  unfold withUniq
  split_ifs
  · rfl
  · exact assign_col_of_ne _ hc _

theorem withUniq_uniq (s : EncodedTable w) (keys : List String) (hright : opt.rightOuter = false) :
    (s.withUniq keys opt).col encTableUniq = fun i => bit (s.startsGroup keys i) := by
  have hu : encTableUniq ∈ ((s.extend encTableUniq).extend encTableValidTemp).schema := by
    rw [mem_extend, mem_extend]
    exact Or.inr (Or.inl rfl)
  rw [withUniq, hright, if_neg Bool.false_ne_true, assign_col_self _ hu]
  exact funext fun i => operatorsDistinct_eq s keys i

theorem returns_markJoin {numParties : ℕ} (hparties : opt.rightOuter = true ∨ numParties ≠ 2)
    (hne : keys ≠ []) (hkeys : ∀ k ∈ keys, k ∈ s.schema ∧ isBShared k)
    (huniq : encTableUniq ∉ s.schema) (htemp : encTableValidTemp ∉ s.schema) :
    Draws.Returns (markJoin numParties s keys opt) (· = s.withMarks keys opt) := by
  have hcolumns : ∀ c ∈ [encTableUniq, encTableValidTemp], c ∉ s.schema := by
    simpa using ⟨huniq, htemp⟩
  refine (returns_addColumns s (by decide) hcolumns).bind fun e he => ?_
  have hmem : ∀ c, c ∈ e.schema ↔ c = encTableValidTemp ∨ c = encTableUniq ∨ c ∈ s.schema := by
    intro c
    rw [he, List.foldl_cons, List.foldl_cons, List.foldl_nil, mem_extend, mem_extend]
  have hmark : Draws.Returns (e.markUnique keys opt) (· = s.withUniq keys opt) := by
    subst he
    unfold markUnique withUniq
    split_ifs
    · exact Draws.Returns.pure rfl
    · exact returns_distinct _ hne (fun k hk => (hmem k).mpr (Or.inr (Or.inr (hkeys k hk).1)))
        (fun k hk => (hkeys k hk).2) ((hmem _).mpr (Or.inr (Or.inl rfl))) fun h => huniq (hkeys _ h).1
  have hnegation : Draws.Returns (joinNegation numParties opt) (· = plainNegation) := by
    unfold joinNegation
    split_ifs with hright
    · exact Draws.Returns.pure rfl
    · exact (Draws.returns_negation numParties).mono fun _ hplain =>
        hplain (hparties.resolve_left hright)
  refine hmark.bind fun d hd => hnegation.bind fun negation hplain => Draws.Returns.pure ?_
  rw [hd, hplain, withMarks]

theorem markedJoin_withMarks (hw : 0 < w) (hvalid : s.SingleBit encTableValid)
    (hid : s.SingleBit encTableJoinId) (huniq : encTableUniq ∉ s.schema) :
    MarkedJoin s keys opt (s.withMarks keys opt) := by
  have htemp : encTableValidTemp ∈ (s.withUniq keys opt).schema :=
    (mem_withUniq s keys opt _).mpr (Or.inl rfl)
  refine ⟨?_, fun c => ?_, fun c hc => ?_, fun i hi => ?_⟩
  · rw [withMarks, deleteColumns_rows, (markJoined_schema _ _ opt).2, withUniq_rows]
  · rw [withMarks, mem_deleteColumns, (markJoined_schema _ _ opt).1, mem_withUniq, List.mem_singleton]
    constructor
    · rintro ⟨rfl | rfl | hc, hne⟩
      · exact Or.inl rfl
      · exact absurd rfl hne
      · exact Or.inr hc
    · rintro (rfl | hc)
      · exact ⟨Or.inl rfl, validTemp_ne_uniq⟩
      · exact ⟨Or.inr (Or.inr hc), fun heq => huniq (heq ▸ hc)⟩
  · rw [withMarks, deleteColumns_col]
    by_cases hcu : c = encTableUniq
    · rw [if_pos (List.mem_singleton.mpr hcu), hcu, s.col_of_notMem _ huniq]
    · rw [if_neg (List.mem_singleton.not.mpr hcu), markJoined_col _ _ opt hc, withUniq_col s keys opt hcu]
  · rw [withMarks, deleteColumns_col, if_neg (List.mem_singleton.not.mpr validTemp_ne_uniq)]
    exact markJoined_eq hw hvalid hid (withUniq_rows s keys opt) htemp
      (withUniq_col s keys opt (by decide)) (withUniq_col s keys opt (by decide)) (withUniq_uniq s keys) hi

end Marks

section Groups

variable {s m m' : EncodedTable w} {keys : List String} {aggSpec : AggregationSpec} {opt : JoinOptions}
  {i : ℕ}

/-- Rows with equal values in the first columns are ordered by the others. -/
theorem orderOf_append_le_right {names rest : List String} {ρ σ : Row w}
    (hkey : keyOf names ρ = keyOf names σ)
    (hle : orderOf (names ++ rest) ρ ≤ orderOf (names ++ rest) σ) :
    orderOf rest ρ ≤ orderOf rest σ := by
  induction names with
  | nil => exact hle
  | cons c names ih =>
      obtain ⟨hhead, htail⟩ := List.cons.inj hkey
      rw [List.cons_append, orderOf_cons_le, hhead] at hle
      exact ih htail (hle.resolve_left (lt_irrefl _)).2

/-- The rows by valid bit and keys. -/
def groupOf (s : EncodedTable w) (keys : List String) (i : ℕ) : List (BitVec w) :=
  keyOf (encTableValid :: keys) (s.row i)

def Good (s : EncodedTable w) (i : ℕ) : Prop := i < s.rows ∧ s.row i encTableValid ≠ 0

instance (s : EncodedTable w) : DecidablePred s.Good := fun i =>
  inferInstanceAs (Decidable (i < s.rows ∧ s.row i encTableValid ≠ 0))

/-- A table sorted by valid bit, keys and table id has the left rows of a group before the right
ones. -/
theorem sided_of_sorted (hw : 1 < w) (hid : s.SingleBit encTableJoinId)
    (hsorted : s.SortedBy (encTableValid :: keys ++ [encTableJoinId])) :
    Sided (s.groupOf keys) s.isRight s.rows s.Good where
  grouped := SortedBy.grouped fun i j hij hj => orderOf_append_le (hsorted i j hij hj)
  ordered u v huv hv hkey hright := by
    have hle := orderOf_append_le_right hkey (hsorted u v huv hv.1)
    have hu : s.col encTableJoinId u = 1 :=
      (hid u (lt_of_le_of_lt huv hv.1)).resolve_left (of_decide_eq_true hright)
    refine decide_eq_true fun hzero => ?_
    rw [orderOf_cons_le] at hle
    change (s.col encTableJoinId u).toInt < (s.col encTableJoinId v).toInt ∨
      (s.col encTableJoinId u).toInt = (s.col encTableJoinId v).toInt ∧ _ at hle
    have hone : (1 : BitVec w).toInt = 1 := BitVec.toInt_one hw
    have hnone : (0 : BitVec w).toInt = 0 := BitVec.toInt_zero
    rw [hu, hzero, hone, hnone] at hle
    omega

theorem keyOf_append_singleton (names : List String) (c : String) (ρ σ : Row w) :
    keyOf (names ++ [c]) ρ = keyOf (names ++ [c]) σ ↔ keyOf names ρ = keyOf names σ ∧ ρ c = σ c := by
  simp [keyOf]

/-- The groups of one table are the sides of the groups. -/
theorem firstOf_side (hid : s.SingleBit encTableJoinId) (hi : i < s.rows) :
    firstOf (fun i => keyOf (encTableValid :: keys ++ [encTableJoinId]) (s.row i)) i =
      firstOf (fun i => (s.groupOf keys i, s.isRight i)) i := by
  refine firstOf_congr fun u hu => ?_
  rw [keyOf_append_singleton, Prod.mk.injEq]
  refine and_congr_right fun _ => ?_
  change s.col encTableJoinId u = s.col encTableJoinId i ↔
    decide (s.col encTableJoinId u ≠ 0) = decide (s.col encTableJoinId i ≠ 0)
  rw [decide_eq_decide]
  rcases hid u (lt_of_le_of_lt hu hi) with h | h <;> rcases hid i hi with h' | h' <;>
    simp [h, h', eq_comm]

theorem foldRange_bit (p : ℕ → Bool) (lo len : ℕ) :
    foldRange (fun b a : BitVec w => b &&& a) (fun i => bit (p i)) lo len =
      bit (foldRange (· && ·) p lo len) := by
  induction len with
  | zero => rfl
  | succ len ih =>
      rw [foldRange, foldRange, ih]
      exact andB1_bit _ _

theorem MarkedJoin.keyOf_eq (hm : MarkedJoin s keys opt m) {names : List String}
    (hnames : encTableValidTemp ∉ names) (i : ℕ) : keyOf names (m.row i) = keyOf names (s.row i) :=
  List.map_congr_left fun c hc => congrFun (hm.col c fun heq => hnames (heq ▸ hc)) i

theorem MarkedJoin.sortedBy (hm : MarkedJoin s keys opt m) {names : List String}
    (hnames : encTableValidTemp ∉ names) (hsorted : s.SortedBy names) : m.SortedBy names := by
  intro i j hij hj
  rw [hm.rows] at hj
  have hle := hsorted i j hij hj
  have horder : ∀ i, orderOf names (m.row i) = orderOf names (s.row i) := fun i =>
    (orderOf_eq_iff _ _ _).mpr (hm.keyOf_eq hnames i)
  rwa [horder, horder]

/-- What the aggregation of a join is told. -/
def joinAggregation : AggregationOptions := { doSort := false, tableId := some encTableJoinId }

/-- The aggregation of a join, on a sorted table. -/
structure JoinScan (s : EncodedTable w) (keys : List String) (aggSpec : AggregationSpec)
    (opt : JoinOptions) (m m' : EncodedTable w) : Prop where
  width : 1 < w
  rows_gt : 1 < s.rows
  valid_bit : s.SingleBit encTableValid
  id_bit : s.SingleBit encTableJoinId
  sorted : s.SortedBy (encTableValid :: keys ++ [encTableJoinId])
  temp_key : encTableValidTemp ∉ encTableValid :: keys ++ [encTableJoinId]
  temp : encTableValidTemp ∉ s.schema
  copies : ∀ a ∈ aggSpec, a.func.isCopy = true
  columns : ∀ a ∈ aggSpec, a.data ∈ s.schema ∧ a.result ∈ s.schema
  separate : Separate (encTableValid :: keys) (some encTableJoinId) aggSpec
  marked : MarkedJoin s (encTableValid :: keys) opt m
  scanned : Aggregated m (encTableValid :: keys) (joinSpec aggSpec opt) joinAggregation m'

namespace JoinScan

theorem sided (hscan : JoinScan s keys aggSpec opt m m') :
    Sided (s.groupOf keys) s.isRight s.rows s.Good :=
  sided_of_sorted hscan.width hscan.id_bit hscan.sorted

/-- The fold over the rows of a group, in the terms of the sorted table. -/
theorem result_eq (hscan : JoinScan s keys aggSpec opt m m') {a : Aggregation}
    (ha : a ∈ joinSpec aggSpec opt) (hi : s.Good i) (names : List String)
    (hnames : groupColumns (encTableValid :: keys) joinAggregation a.func = names)
    (hsub : ∃ rest, encTableValid :: keys ++ [encTableJoinId] = names ++ rest) :
    m'.col a.result i = foldRange a.func.combine (initial (some encTableJoinId) a m.col)
      (firstOf (fun i => keyOf names (s.row i)) i)
      (i - firstOf (fun i => keyOf names (s.row i)) i) := by
  obtain ⟨rest, hrest⟩ := hsub
  have htemp : encTableValidTemp ∉ names := fun hmem =>
    hscan.temp_key (hrest ▸ List.mem_append_left rest hmem)
  have hsorted : s.SortedBy names := fun i j hij hj =>
    orderOf_append_le (hrest ▸ hscan.sorted i j hij hj)
  have hm := hscan.marked
  have hid : ∀ sel, joinAggregation.tableId = some sel → m.SingleBit sel := by
    rintro sel hsel i hi
    obtain rfl : encTableJoinId = sel := Option.some.inj hsel
    rw [hm.col _ (by decide)]
    exact hscan.id_bit i (hm.rows ▸ hi)
  have hvalid : m.col encTableValid i ≠ 0 := by
    rw [hm.col _ (by decide)]
    exact hi.2
  have hresult := hscan.scanned.result_eq (Nat.zero_lt_of_lt hscan.width) rfl hid
    (hm.rows ▸ hscan.rows_gt) ha (hnames ▸ hm.sortedBy htemp hsorted) (hm.rows ▸ hi.1) hvalid
  rw [hnames] at hresult
  simp only [hm.keyOf_eq htemp] at hresult
  exact hresult

theorem of_mem (hscan : JoinScan s keys aggSpec opt m m') {a : Aggregation} (ha : a ∈ aggSpec) :
    a.data ≠ encTableValidTemp ∧ a.result ≠ encTableValidTemp :=
  ⟨fun heq => hscan.temp (heq ▸ (hscan.columns a ha).1),
    fun heq => hscan.temp (heq ▸ (hscan.columns a ha).2)⟩

/-- A copied column has the value of the first row of the group. -/
theorem copy_eq (hscan : JoinScan s keys aggSpec opt m m') {a : Aggregation} (ha : a ∈ aggSpec)
    (hi : s.Good i) : m'.col a.result i = s.col a.data (firstOf (s.groupOf keys) i) := by
  have hcopy := hscan.copies a ha
  have hmem : a ∈ joinSpec aggSpec opt :=
    List.mem_append_left _ (List.mem_append_left _ ha)
  have hcolumns : groupColumns (encTableValid :: keys) joinAggregation a.func = encTableValid :: keys :=
    if_pos hcopy
  have hcombine : a.func.combine (w := w) = fun b _ => b := by
    cases h : a.func <;> rw [h] at hcopy <;> first | rfl | exact absurd hcopy (by decide)
  have hcount : a.func ≠ .count := fun heq => by rw [heq] at hcopy; exact absurd hcopy (by decide)
  rw [hscan.result_eq hmem hi _ hcolumns ⟨_, rfl⟩, hcombine, foldRange_keep, initial, if_neg hcount,
    hscan.marked.col _ (hscan.of_mem ha).1]
  rfl

theorem valid_eq (hscan : JoinScan s keys aggSpec opt m m') (hright : opt.rightOuter = false)
    (hi : s.Good i) : m'.col encTableValidTemp i =
      bit (foldRange (· && ·) (s.joinValid (encTableValid :: keys) opt)
        (firstOf (fun i => (s.groupOf keys i, s.isRight i)) i)
        (i - firstOf (fun i => (s.groupOf keys i, s.isRight i)) i)) := by
  have hmem : (⟨encTableValidTemp, encTableValidTemp, .valid⟩ : Aggregation) ∈
      joinSpec aggSpec opt := by
    rw [joinSpec, hright]
    exact List.mem_append_left _ (List.mem_append_right _ (List.mem_singleton.mpr rfl))
  have hresult := hscan.result_eq hmem hi (encTableValid :: keys ++ [encTableJoinId]) rfl
    ⟨[], (List.append_nil _).symm⟩
  rw [firstOf_side hscan.id_bit hi.1] at hresult
  apply hresult.trans
  rw [← foldRange_bit]
  refine foldRange_congr _ fun u hlo hu => hscan.marked.marks u ?_
  have hle : firstOf (fun i => (s.groupOf keys i, s.isRight i)) i ≤ i := firstOf_le rfl
  have hlt := hi.1
  omega

theorem anti_eq (hscan : JoinScan s keys aggSpec opt m m') (hanti : opt.anti = true) (hi : s.Good i) :
    m'.col encTableValidTemp i =
      bit (s.joinValid (encTableValid :: keys) opt (firstOf (s.groupOf keys) i)) := by
  have hmem : (⟨encTableValidTemp, encTableValidTemp, .copyB⟩ : Aggregation) ∈
      joinSpec aggSpec opt := by
    rw [joinSpec, hanti]
    exact List.mem_append_right _ (List.mem_singleton.mpr rfl)
  have hresult := hscan.result_eq hmem hi (encTableValid :: keys) rfl ⟨_, rfl⟩
  refine hresult.trans ((foldRange_keep _ _ _).trans (hscan.marked.marks _ ?_))
  exact lt_of_le_of_lt (firstOf_le rfl) hi.1

theorem mark_eq (hscan : JoinScan s keys aggSpec opt m m') (hright : opt.rightOuter = true)
    (hanti : opt.anti = false) (hi : s.Good i) :
    m'.col encTableValidTemp i = bit (s.joinValid (encTableValid :: keys) opt i) := by
  have hspec : joinSpec aggSpec opt = aggSpec := by
    rw [joinSpec, hright, hanti, if_pos rfl, if_neg Bool.false_ne_true, List.append_nil,
      List.append_nil]
  have hnot : encTableValidTemp ∉ (joinSpec aggSpec opt).map Aggregation.result := by
    rw [hspec]
    intro hmem
    obtain ⟨a, ha, heq⟩ := List.mem_map.mp hmem
    exact (hscan.of_mem ha).2 heq
  rw [hscan.scanned.other _ hnot validTemp_ne_valid i (hscan.marked.rows ▸ hi.1)]
  exact hscan.marked.marks i hi.1

end JoinScan

/-- Whether row `i` stays valid. -/
def kept (s : EncodedTable w) (keys : List String) (opt : JoinOptions) (i : ℕ) : Bool :=
  if opt.rightOuter then
    s.joinValid (encTableValid :: keys) opt (if opt.anti then firstOf (s.groupOf keys) i else i)
  else
    foldRange (· && ·) (s.joinValid (encTableValid :: keys) opt)
      (firstOf (fun i => (s.groupOf keys i, s.isRight i)) i)
      (i - firstOf (fun i => (s.groupOf keys i, s.isRight i)) i)

theorem JoinScan.kept_eq (hscan : JoinScan s keys aggSpec opt m m') (hi : s.Good i) :
    m'.col encTableValidTemp i = bit (s.kept keys opt i) := by
  unfold kept
  cases hright : opt.rightOuter with
  | false => exact hscan.valid_eq hright hi
  | true =>
      cases hcases : opt.anti with
      | true => exact hscan.anti_eq hcases hi
      | false => exact hscan.mark_eq hright hcases hi

theorem isValid_of_good (hi : s.Good i) : s.isValid i = true := decide_eq_true hi.2

/-- In a right outer join all right rows stay. -/
theorem kept_right (hleft : opt.leftOuter = false) (hright : opt.rightOuter = true)
    (hanti : opt.anti = false) (hi : s.Good i) : s.kept keys opt i = true ↔ s.isRight i = true := by
  rw [kept, if_pos hright, hanti, if_neg Bool.false_ne_true, joinValid, isValid_of_good hi,
    hleft, hright, Bool.true_and]

/-- In a full outer join all valid rows stay. -/
theorem kept_full (hleft : opt.leftOuter = true) (hright : opt.rightOuter = true)
    (hanti : opt.anti = false) (hi : s.Good i) : s.kept keys opt i = true := by
  rw [kept, if_pos hright, hanti, if_neg Bool.false_ne_true, joinValid, isValid_of_good hi, hleft, hright]
  rfl

section Kept

variable (hsided : Sided (s.groupOf keys) s.isRight s.rows s.Good)
include hsided

theorem startsGroup_of_good (hi : s.Good i) :
    s.startsGroup (encTableValid :: keys) i = true ↔ firstOf (s.groupOf keys) i = i :=
  (startsGroup_iff s _ i).trans (hsided.grouped.firstOf_eq_iff hi).symm

/-- All rows of the table in the group up to the row are marked. -/
theorem kept_iff (hright : opt.rightOuter = false) (hi : s.Good i) : s.kept keys opt i = true ↔
    ∀ u ≤ i, s.groupOf keys u = s.groupOf keys i → s.isRight u = s.isRight i →
      s.joinValid (encTableValid :: keys) opt u = true := by
  have hle : firstOf (fun i => (s.groupOf keys i, s.isRight i)) i ≤ i := firstOf_le rfl
  rw [kept, hright, if_neg Bool.false_ne_true, foldRange_and, Nat.add_sub_of_le hle]
  constructor
  · intro hall u hu hgroup hside
    exact hall u ((hsided.both.key_eq_iff hi hu).mp (Prod.ext hgroup hside)) hu
  · intro hall u hlo hu
    obtain ⟨hgroup, hside⟩ := Prod.mk.inj ((hsided.both.key_eq_iff hi hu).mpr hlo)
    exact hall u hu hgroup hside

/-- Right rows that do not start their group are marked. -/
theorem kept_of_starts (hright : opt.rightOuter = false) (hi : s.Good i)
    (hmarks : ∀ u, s.Good u → s.isRight u = s.isRight i →
      s.joinValid (encTableValid :: keys) opt u = !s.startsGroup (encTableValid :: keys) u) :
    s.kept keys opt i = true ↔
      s.isRight i = true ∧ Met (s.groupOf keys) s.isRight s.Good false i := by
  rw [kept_iff hsided hright hi, ← hsided.firstOf_lt_iff hi]
  constructor
  · intro hall
    have hkey := key_firstOf (fun i => (s.groupOf keys i, s.isRight i)) i
    obtain ⟨hgroup, hside⟩ := Prod.mk.inj hkey
    have hle : firstOf (fun i => (s.groupOf keys i, s.isRight i)) i ≤ i := firstOf_le rfl
    have hgood := hsided.grouped.good_of_le hi hle hgroup
    have hmark := hall _ hle hgroup hside
    rw [hmarks _ hgood hside, Bool.not_eq_true', Bool.eq_false_iff, ne_eq,
      startsGroup_of_good hsided hgood, firstOf_eq_of_key hgroup] at hmark
    exact lt_of_le_of_ne (firstOf_le hgroup) hmark
  · intro hlt u hu hgroup hside
    have hgood := hsided.grouped.good_of_le hi hu hgroup
    have hlo := (hsided.both.key_eq_iff hi hu).mp (Prod.ext hgroup hside)
    rw [hmarks _ hgood hside, Bool.not_eq_true', Bool.eq_false_iff, ne_eq,
      startsGroup_of_good hsided hgood, firstOf_eq_of_key hgroup]
    omega

/-- In an inner join the right rows with a left row stay. -/
theorem kept_inner (hleft : opt.leftOuter = false) (hright : opt.rightOuter = false) (hi : s.Good i) :
    s.kept keys opt i = true ↔
      s.isRight i = true ∧ Met (s.groupOf keys) s.isRight s.Good false i := by
  refine kept_of_starts hsided hright hi fun u hu _ => ?_
  rw [joinValid, isValid_of_good hu, hleft, hright, Bool.true_and]

/-- In a left outer join these and the left rows without a right one. -/
theorem kept_left (hleft : opt.leftOuter = true) (hright : opt.rightOuter = false)
    (hunique : UniqueLeft (s.groupOf keys) s.isRight s.Good) (hi : s.Good i) :
    s.kept keys opt i = true ↔
      (s.isRight i = true ∧ Met (s.groupOf keys) s.isRight s.Good false i) ∨
        (s.isRight i = false ∧ ¬ Met (s.groupOf keys) s.isRight s.Good true i) := by
  cases hside : s.isRight i with
  | true =>
      rw [kept_of_starts hsided hright hi fun u hu hsame => ?_]
      · simp [hside]
      · rw [joinValid, isValid_of_good hu, hleft, hright, hsame, hside]
        simp
  | false =>
      rw [kept_iff hsided hright hi, ← hsided.last_iff_of_left hunique hi hside]
      have hmark : s.joinValid (encTableValid :: keys) opt i = true ↔
          i + 1 = s.rows ∨ s.groupOf keys (i + 1) ≠ s.groupOf keys i := by
        rw [joinValid, isValid_of_good hi, hleft, hright, hside]
        simp only [Bool.false_and, Bool.not_false, Bool.true_and, Bool.false_or, Bool.or_eq_true,
          decide_eq_true_iff, startsGroup_iff]
        apply or_congr_right
        rw [or_iff_right (Nat.succ_ne_zero i)]
        exact ne_comm
      rw [← hmark]
      constructor
      · exact fun hall => Or.inr ⟨rfl, hall i le_rfl rfl rfl⟩
      · rintro (⟨hfalse, -⟩ | ⟨-, hmarked⟩) u hu hgroup hside_u
        · exact absurd hfalse Bool.false_ne_true
        · have hgood := hsided.grouped.good_of_le hi hu hgroup
          rw [hunique u i hgood hi (hside_u.trans hside) hside hgroup]
          exact hmarked

/-- In an anti-join the rows of the groups without a left row stay. -/
theorem kept_anti (hleft : opt.leftOuter = false) (hright : opt.rightOuter = true)
    (hanti : opt.anti = true) (hi : s.Good i) :
    s.kept keys opt i = true ↔ ¬ Met (s.groupOf keys) s.isRight s.Good false i := by
  rw [kept, if_pos hright, if_pos hanti, joinValid, isValid_of_good (hsided.good_firstOf hi),
    hleft, hright, Bool.true_and, ← hsided.side_firstOf hi, Bool.not_eq_false]

end Kept

/-- The right row with the copied columns of the left one. -/
def copied (aggSpec : AggregationSpec) (left right : Row w) : Row w := fun c =>
  match aggSpec.find? fun a => a.result = c with
  | some a => left a.data
  | none => right c

theorem copied_of_notMem {left right : Row w} {c : String} (hc : c ∉ aggSpec.map Aggregation.result) :
    copied aggSpec left right c = right c := by
  have hnone : aggSpec.find? (fun a => a.result = c) = none := by
    rw [List.find?_eq_none]
    exact fun a ha heq => hc (List.mem_map.mpr ⟨a, ha, of_decide_eq_true heq⟩)
  rw [copied, hnone]

theorem finishJoin_col (t : EncodedTable w) {c : String} (hvalid : c ≠ encTableValid)
    (htemp : c ≠ encTableValidTemp) (hid : c ≠ encTableJoinId) : t.finishJoin.col c = t.col c := by
  rw [finishJoin, deleteColumns_col, if_neg (by simp [htemp, hid]), filter_col _ _ hvalid]

theorem finishJoin_valid (t : EncodedTable w) (i : ℕ) : t.finishJoin.col encTableValid i =
    andB1 (t.col encTableValid i) (t.col encTableValidTemp i) := by
  rw [finishJoin, deleteColumns_col, if_neg (by decide), filter_valid]

namespace JoinScan

variable (hscan : JoinScan s keys aggSpec opt m m')
include hscan

theorem scanned_valid (hi : i < s.rows) : m'.col encTableValid i = s.col encTableValid i := by
  have hany : ((joinSpec aggSpec opt).any fun a => a.func.isAggregation) = false := by
    rw [List.any_eq_false]
    intro a ha
    rw [joinSpec, List.mem_append, List.mem_append] at ha
    rcases ha with (ha | ha) | ha
    · have hcopy := hscan.copies a ha
      revert hcopy
      cases a.func <;> decide
    · split at ha
      · exact absurd ha List.not_mem_nil
      · rw [List.mem_singleton.mp ha]
        decide
    · split at ha
      · rw [List.mem_singleton.mp ha]
        decide
      · exact absurd ha List.not_mem_nil
  rw [hscan.scanned.valid i (hscan.marked.rows ▸ hi), hany, if_neg Bool.false_ne_true,
    hscan.marked.col _ (by decide)]

theorem finish_rows : m'.finishJoin.rows = s.rows := hscan.scanned.rows.trans hscan.marked.rows

theorem finish_valid (hi : i < s.rows) : m'.finishJoin.col encTableValid i =
    andB1 (s.col encTableValid i) (bit (s.kept keys opt i)) := by
  rw [finishJoin_valid, hscan.scanned_valid hi]
  by_cases hvalid : s.col encTableValid i = 0
  · simp [hvalid, andB1]
  · rw [hscan.kept_eq ⟨hi, hvalid⟩]

/-- The rows of the result are those that are kept. -/
theorem validRows_eq : m'.finishJoin.validRows = ((Multiset.range s.rows).filter fun i =>
    s.col encTableValid i ≠ 0 ∧ s.kept keys opt i = true).map m'.finishJoin.row :=
  validRows_masked (Nat.zero_lt_of_lt hscan.width) hscan.valid_bit hscan.finish_rows _
    fun _ hi => hscan.finish_valid hi

theorem other_eq {c : String} (hc : c ∉ aggSpec.map Aggregation.result) (hvalid : c ≠ encTableValid)
    (htemp : c ≠ encTableValidTemp) (hi : i < s.rows) : m'.col c i = s.col c i := by
  have hnot : c ∉ (joinSpec aggSpec opt).map Aggregation.result := by
    rw [joinSpec, List.map_append, List.map_append, List.mem_append, List.mem_append, not_or, not_or]
    refine ⟨⟨hc, ?_⟩, ?_⟩ <;> split <;> simp [htemp]
  rw [hscan.scanned.other c hnot hvalid i (hscan.marked.rows ▸ hi), hscan.marked.col c htemp]

/-- A row that is kept has the copied columns of the first row of its group. -/
theorem row_eq (hi : s.Good i) (hkept : s.kept keys opt i = true) : m'.finishJoin.row i =
    copied aggSpec (s.row (firstOf (s.groupOf keys) i))
      (Function.update (s.row i) encTableJoinId 0) := by
  have hresult : ∀ c, c ∈ aggSpec.map Aggregation.result →
      c ≠ encTableValid ∧ c ≠ encTableValidTemp ∧ c ≠ encTableJoinId := by
    intro c hc
    obtain ⟨a, ha, rfl⟩ := List.mem_map.mp hc
    refine ⟨fun heq => ?_, (hscan.of_mem ha).2, fun heq => ?_⟩
    · exact hscan.separate.keys _ List.mem_cons_self (heq ▸ hc)
    · exact hscan.separate.reads.2 _ rfl (heq ▸ hc)
  ext c : 1
  change m'.finishJoin.col c i = _
  by_cases hc : c ∈ aggSpec.map Aggregation.result
  · obtain ⟨hvalid, htemp, hid⟩ := hresult c hc
    rw [finishJoin_col _ hvalid htemp hid, copied]
    cases hfind : aggSpec.find? fun a => a.result = c with
    | none =>
        obtain ⟨a, ha, heq⟩ := List.mem_map.mp hc
        exact absurd (decide_eq_true heq) (List.find?_eq_none.mp hfind a ha)
    | some a =>
        have ha := List.mem_of_find?_eq_some hfind
        have heq : a.result = c := by simpa using List.find?_some hfind
        rw [← heq, hscan.copy_eq ha hi]
        rfl
  · rw [copied_of_notMem hc]
    by_cases hvalid : c = encTableValid
    · rw [hvalid, hscan.finish_valid hi.1, hkept, Function.update_of_ne (by decide)]
      rcases hscan.valid_bit i hi.1 with h | h
      · exact absurd h hi.2
      · change andB1 (s.col encTableValid i) _ = s.col encTableValid i
        have hone : (1 : BitVec w) = bit true := rfl
        rw [h, hone, andB1_bit]
        rfl
    · by_cases htemp : c = encTableValidTemp
      · rw [htemp, Function.update_of_ne (by decide), finishJoin, deleteColumns_col, if_pos (by decide)]
        exact (congrFun (s.col_of_notMem _ hscan.temp) i).symm
      · by_cases hid : c = encTableJoinId
        · rw [hid, Function.update_self, finishJoin, deleteColumns_col, if_pos (by decide)]
          rfl
        · rw [Function.update_of_ne hid, finishJoin_col _ hvalid htemp hid,
            hscan.other_eq hc hvalid htemp hi.1]
          rfl

end JoinScan

end Groups

end EncodedTable

end CryptDough
