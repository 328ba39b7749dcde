import CryptDough.EncodedTable

/-! Putting the rows of two tables into a new one, with a column that tells which table a row comes
from. -/

namespace CryptDough.EncodedTable

open StableSort

variable {w : ℕ}

/-- Columns of zeros with all rows valid. -/
def zeros (columns : List String) (rows : ℕ) : EncodedTable w :=
  ofColumns rows (fun i => if i < rows then 1 else 0) (columns.map fun c => (c, 0))

/-- The constructor. It aborts on a name that is there already; the number of rows is an `int`. -/
def create (columns : List String) (rows : ℕ) : Draws (EncodedTable w) := do
  guard (columns.Nodup ∧ rows < 2 ^ 31)
  pure (zeros columns rows)

def copyColumn (table t : EncodedTable w) (name : String) (startIndex : ℕ) : EncodedTable w :=
  table.assign name fun i =>
    if startIndex ≤ i ∧ i < startIndex + t.rows then t.col name (i - startIndex) else table.col name i

def newSchema (t other : EncodedTable w) : List String :=
  encTableJoinId :: (t.schema.filter (· ≠ encTableJoinId) ++ other.schema.filter (· ∉ t.schema))

/-- The size of a padded table is a shifted 32-bit integer. -/
def newSize (oldSize : ℕ) (powerOfTwo : Bool) : Draws ℕ :=
  if powerOfTwo then do
    guard (0 < oldSize ∧ Nat.size (oldSize - 1) < 31)
    pure (1 <<< Nat.size (oldSize - 1))
  else pure oldSize

/-- The loops over the two schemas. -/
def copyRows (t other newTable : EncodedTable w) : EncodedTable w :=
  let newTable := t.schema.foldl (fun table c => table.copyColumn t c 0) newTable
  other.schema.foldl (fun table c => table.copyColumn other c t.rows) newTable

/-- The rows of the second table get the table id one. -/
def markOther (t other newTable : EncodedTable w) : EncodedTable w :=
  newTable.assign encTableJoinId fun i =>
    if t.rows ≤ i ∧ i < t.rows + other.rows then 1 else newTable.col encTableJoinId i

/-- The table id of the second table and the padding are written over what was copied. -/
def fill (t other : EncodedTable w) (powerOfTwo : Bool) (newTable : EncodedTable w) :
    EncodedTable w :=
  let newTable := markOther t other (copyRows t other newTable)
  if powerOfTwo then
    newTable.assign encTableValid fun i =>
      if t.rows + other.rows ≤ i then 0 else newTable.col encTableValid i
  else newTable

def concatenate (t other : EncodedTable w) (powerOfTwo : Bool := false) : Draws (EncodedTable w) := do
  let rows ← newSize (t.rows + other.rows) powerOfTwo
  let newTable ← create (newSchema t other) rows
  pure (fill t other powerOfTwo newTable)

section Copies

theorem lookup_zero (columns : List String) (c : String) :
    ((columns.map fun c => (c, (0 : Column w))).lookup c).getD 0 = 0 := by
  induction columns with
  | nil => rfl
  | cons d columns ih =>
      rw [List.map_cons, List.lookup_cons]
      cases c == d with
      | true => rfl
      | false => exact ih

theorem mem_zeros {columns : List String} {rows : ℕ} {c : String} :
    c ∈ (zeros columns rows : EncodedTable w).schema ↔ c = encTableValid ∨ c ∈ columns := by
  simp [zeros, ofColumns, List.map_map]

theorem zeros_col (columns : List String) (rows : ℕ) (c : String) (i : ℕ) :
    (zeros columns rows : EncodedTable w).col c i =
      if c = encTableValid ∧ i < rows then 1 else 0 := by
  by_cases hc : c = encTableValid
  · simp [zeros, ofColumns, hc]
  · simp [zeros, ofColumns, hc, lookup_zero]

theorem returns_create_bind_iff {β : Type} {columns : List String} {rows : ℕ}
    {next : EncodedTable w → Draws β} {post : β → Prop} :
    Draws.Returns (create columns rows >>= next) post ↔
      (columns.Nodup ∧ rows < 2 ^ 31) ∧ Draws.Returns (next (zeros columns rows)) post := by
  rw [create, bind_assoc, Draws.returns_guard_bind_iff, pure_bind]

@[simp] theorem copyColumns_schema (table t : EncodedTable w) (names : List String) (startIndex : ℕ) :
    (names.foldl (fun table c => table.copyColumn t c startIndex) table).schema = table.schema := by
  induction names generalizing table with
  | nil => rfl
  | cons d names ih => exact ih (table.copyColumn t d startIndex)

@[simp] theorem copyColumns_rows (table t : EncodedTable w) (names : List String) (startIndex : ℕ) :
    (names.foldl (fun table c => table.copyColumn t c startIndex) table).rows = table.rows := by
  induction names generalizing table with
  | nil => rfl
  | cons d names ih => exact ih (table.copyColumn t d startIndex)

/-- What a loop of copies leaves: every name it ran over has the source's column in its place. -/
theorem copyColumns_col (table t : EncodedTable w) {names : List String} (startIndex : ℕ)
    (hnames : ∀ c ∈ names, c ∈ table.schema) (c : String) (i : ℕ) :
    (names.foldl (fun table c => table.copyColumn t c startIndex) table).col c i =
      if c ∈ names ∧ startIndex ≤ i ∧ i < startIndex + t.rows then t.col c (i - startIndex)
      else table.col c i := by
  induction names generalizing table with
  | nil => simp
  | cons d names ih =>
      have hd : d ∈ table.schema := hnames d List.mem_cons_self
      have hstep := ih (table.copyColumn t d startIndex) fun c hc => hnames c (List.mem_cons_of_mem _ hc)
      apply hstep.trans
      rw [copyColumn, assign_col table hd]
      by_cases hcd : c = d
      · subst hcd
        by_cases hrange : startIndex ≤ i ∧ i < startIndex + t.rows <;> simp [hrange]
      · simp [hcd]

end Copies

section Concatenation

variable {t other : EncodedTable w}

theorem mem_newSchema {c : String} :
    c ∈ newSchema t other ↔ c = encTableJoinId ∨ c ∈ t.schema ∨ c ∈ other.schema := by
  rw [newSchema, List.mem_cons, List.mem_append, List.mem_filter, List.mem_filter,
    decide_eq_true_iff, decide_eq_true_iff]
  tauto

/-- The table id is allocated first, so the second table must not be the only one to bring its own. -/
theorem nodup_newSchema_iff :
    (newSchema t other).Nodup ↔ (encTableJoinId ∈ other.schema → encTableJoinId ∈ t.schema) := by
  have hrest : (t.schema.filter (· ≠ encTableJoinId) ++ other.schema.filter (· ∉ t.schema)).Nodup := by
    refine List.Nodup.append (t.nodup.filter _) (other.nodup.filter _) fun c hc hc' => ?_
    exact of_decide_eq_true (List.mem_filter.mp hc').2 (List.mem_filter.mp hc).1
  rw [newSchema, List.nodup_cons, List.mem_append, List.mem_filter, List.mem_filter,
    decide_eq_true_iff, decide_eq_true_iff]
  tauto

theorem fill_rows (powerOfTwo : Bool) (newTable : EncodedTable w) :
    (fill t other powerOfTwo newTable).rows = newTable.rows := by
  rw [fill, markOther, copyRows]
  split <;> simp

@[simp] theorem copyRows_schema (newTable : EncodedTable w) :
    (copyRows t other newTable).schema = newTable.schema := by
  rw [copyRows, copyColumns_schema, copyColumns_schema]

theorem fill_schema (powerOfTwo : Bool) (newTable : EncodedTable w) :
    (fill t other powerOfTwo newTable).schema = newTable.schema := by
  rw [fill, markOther]
  split <;> simp

theorem appended_col_left (c : String) {i : ℕ} (hi : i < t.rows) :
    (t.appended other).col c i = t.col c i := if_pos hi

theorem appended_col_right (c : String) {i : ℕ} (hi : t.rows ≤ i) (hi' : i < t.rows + other.rows) :
    (t.appended other).col c i = if c = encTableJoinId then 1 else other.col c (i - t.rows) :=
  (if_neg (Nat.not_lt.mpr hi)).trans (if_pos hi')

theorem appended_col_rest (c : String) {i : ℕ} (hi : t.rows + other.rows ≤ i) :
    (t.appended other).col c i = 0 :=
  (if_neg (by omega)).trans (if_neg (Nat.not_lt.mpr hi))

section Fill

variable (t other) (rows : ℕ)

/-- The table the rows are copied into. -/
def target : EncodedTable w := zeros (newSchema t other) rows

theorem mem_target {c : String} (hc : c = encTableJoinId ∨ c ∈ t.schema ∨ c ∈ other.schema) :
    c ∈ (target t other rows).schema := mem_zeros.mpr (Or.inr (mem_newSchema.mpr hc))

variable {t other rows}

theorem copyRows_col (c : String) (i : ℕ) :
    (copyRows t other (target t other rows)).col c i =
      if c ∈ other.schema ∧ t.rows ≤ i ∧ i < t.rows + other.rows then other.col c (i - t.rows)
      else if c ∈ t.schema ∧ i < t.rows then t.col c i
      else if c = encTableValid ∧ i < rows then 1 else 0 := by
  have hother : ∀ c ∈ other.schema,
      c ∈ (t.schema.foldl (fun table c => table.copyColumn t c 0) (target t other rows)).schema := by
    intro c hc
    rw [copyColumns_schema]
    exact mem_target t other rows (Or.inr (Or.inr hc))
  have ht : ∀ c ∈ t.schema, c ∈ (target t other rows).schema := fun c hc =>
    mem_target t other rows (Or.inr (Or.inl hc))
  rw [copyRows, copyColumns_col _ other t.rows hother, copyColumns_col _ t 0 ht, target, zeros_col]
  simp

theorem copyRows_left (c : String) {i : ℕ} (hi : i < t.rows) :
    (copyRows t other (target t other rows)).col c i = t.col c i := by
  rw [copyRows_col, if_neg (by omega)]
  by_cases hc : c ∈ t.schema
  · rw [if_pos ⟨hc, hi⟩]
  · have hvalid : c ≠ encTableValid := fun heq => hc (heq ▸ t.valid_mem)
    rw [if_neg (not_and_of_not_left _ hc), if_neg (not_and_of_not_left _ hvalid), t.col_of_notMem c hc]
    rfl

theorem copyRows_right (c : String) {i : ℕ} (hi : t.rows ≤ i) (hi' : i < t.rows + other.rows) :
    (copyRows t other (target t other rows)).col c i = other.col c (i - t.rows) := by
  rw [copyRows_col]
  by_cases hc : c ∈ other.schema
  · rw [if_pos ⟨hc, hi, hi'⟩]
  · have hvalid : c ≠ encTableValid := fun heq => hc (heq ▸ other.valid_mem)
    rw [if_neg (not_and_of_not_left _ hc), if_neg (by omega), if_neg (not_and_of_not_left _ hvalid),
      other.col_of_notMem c hc]
    rfl

theorem copyRows_rest (c : String) {i : ℕ} (hi : t.rows + other.rows ≤ i) :
    (copyRows t other (target t other rows)).col c i =
      if c = encTableValid ∧ i < rows then 1 else 0 := by
  rw [copyRows_col, if_neg (by omega), if_neg (by omega)]

theorem markOther_col (c : String) (i : ℕ) :
    (markOther t other (copyRows t other (target t other rows))).col c i =
      if i < t.rows + other.rows then (t.appended other).col c i
      else if c = encTableValid ∧ i < rows then 1 else 0 := by
  have hid : encTableJoinId ∈ (copyRows t other (target t other rows)).schema := by
    rw [copyRows_schema]
    exact mem_target t other rows (Or.inl rfl)
  rw [markOther, assign_col _ hid]
  rcases Nat.lt_or_ge i t.rows with hi | hi
  · rw [if_pos (by omega : i < t.rows + other.rows), appended_col_left c hi, ← copyRows_left c hi]
    by_cases hc : c = encTableJoinId
    · rw [if_pos hc, if_neg (by omega), hc]
    · rw [if_neg hc]
  · rcases Nat.lt_or_ge i (t.rows + other.rows) with hi' | hi'
    · rw [if_pos hi', appended_col_right c hi hi', ← copyRows_right c hi hi']
      by_cases hc : c = encTableJoinId
      · rw [if_pos hc, if_pos ⟨hi, hi'⟩, if_pos hc]
      · rw [if_neg hc, if_neg hc]
    · rw [if_neg (Nat.not_lt.mpr hi'), ← copyRows_rest c hi']
      by_cases hc : c = encTableJoinId
      · rw [if_pos hc, if_neg (by omega), hc]
      · rw [if_neg hc]

/-- What all of it leaves: the rows of both tables, and zeros. -/
theorem fill_col (powerOfTwo : Bool) (hrows : powerOfTwo = false → rows = t.rows + other.rows) :
    (fill t other powerOfTwo (target t other rows)).col = (t.appended other).col := by
  funext c i
  cases powerOfTwo with
  | false =>
      refine (markOther_col c i).trans ?_
      rcases Nat.lt_or_ge i (t.rows + other.rows) with hi | hi
      · rw [if_pos hi]
      · have hnot : ¬ i < rows := by
          rw [hrows rfl]
          exact Nat.not_lt.mpr hi
        rw [if_neg (Nat.not_lt.mpr hi), if_neg (not_and_of_not_right _ hnot), appended_col_rest c hi]
  | true =>
      have hvalid : encTableValid ∈
          (markOther t other (copyRows t other (target t other rows))).schema := by
        rw [markOther, assign_schema, copyRows_schema]
        exact mem_zeros.mpr (Or.inl rfl)
      rw [fill, if_pos rfl, assign_col _ hvalid]
      rcases Nat.lt_or_ge i (t.rows + other.rows) with hi | hi
      · by_cases hc : c = encTableValid
        · rw [if_pos hc, if_neg (Nat.not_le.mpr hi), markOther_col, if_pos hi, hc]
        · rw [if_neg hc, markOther_col, if_pos hi]
      · rw [appended_col_rest c hi]
        by_cases hc : c = encTableValid
        · rw [if_pos hc, if_pos hi]
        · rw [if_neg hc, markOther_col, if_neg (Nat.not_lt.mpr hi),
            if_neg (not_and_of_not_left _ hc)]

end Fill

theorem size_lt_iff {n : ℕ} : Nat.size (n - 1) < 31 ↔ n ≤ 2 ^ 30 := by
  rw [Nat.lt_succ_iff, Nat.size_le]
  omega

theorem padded_rows_lt {n : ℕ} (hn : n ≤ 2 ^ 30) : 1 <<< Nat.size (n - 1) < 2 ^ 31 := by
  rw [Nat.one_shiftLeft]
  exact Nat.pow_lt_pow_right (by omega) (size_lt_iff.mpr hn)

theorem returns_concatenate_iff (powerOfTwo : Bool) {post : EncodedTable w → Prop} :
    Draws.Returns (t.concatenate other powerOfTwo) post ↔
      (encTableJoinId ∈ other.schema → encTableJoinId ∈ t.schema) ∧
      if powerOfTwo then (0 < t.rows + other.rows ∧ t.rows + other.rows ≤ 2 ^ 30) ∧
        post (fill t other true (target t other (1 <<< Nat.size (t.rows + other.rows - 1))))
      else t.rows + other.rows < 2 ^ 31 ∧
        post (fill t other false (target t other (t.rows + other.rows))) := by
  cases powerOfTwo with
  | false =>
      rw [concatenate, newSize, if_neg Bool.false_ne_true, pure_bind, returns_create_bind_iff,
        Draws.returns_pure_iff, nodup_newSchema_iff, if_neg Bool.false_ne_true, and_assoc]
      rfl
  | true =>
      rw [concatenate, newSize, if_pos rfl, bind_assoc, Draws.returns_guard_bind_iff, pure_bind,
        returns_create_bind_iff, Draws.returns_pure_iff, nodup_newSchema_iff, if_pos rfl, size_lt_iff]
      constructor
      · rintro ⟨hsize, ⟨hid, -⟩, hpost⟩
        exact ⟨hid, hsize, hpost⟩
      · rintro ⟨hid, hsize, hpost⟩
        exact ⟨hsize, ⟨hid, padded_rows_lt hsize.2⟩, hpost⟩

/-- The rows of `t` followed by those of `other`, zero in the columns they lack, with the table id zero
on the first and one on the second; padded, it has the least power of two of rows, and those that were
added are invalid. -/
structure Concatenated (t other : EncodedTable w) (powerOfTwo : Bool) (r : EncodedTable w) : Prop where
  schema : ∀ c, c ∈ r.schema ↔ c = encTableJoinId ∨ c ∈ t.schema ∨ c ∈ other.schema
  rows : if powerOfTwo then ∃ k, r.rows = 2 ^ k ∧ t.rows + other.rows ≤ 2 ^ k ∧
      ∀ j, t.rows + other.rows ≤ 2 ^ j → k ≤ j
    else r.rows = t.rows + other.rows
  left : ∀ c, c ≠ encTableJoinId → ∀ i < t.rows, r.col c i = t.col c i
  right : ∀ c, c ≠ encTableJoinId → ∀ i < other.rows, r.col c (t.rows + i) = other.col c i
  tableId : ∀ i < t.rows + other.rows, r.col encTableJoinId i = if i < t.rows then 0 else 1
  padding : ∀ i, t.rows + other.rows ≤ i → i < r.rows → r.col encTableValid i = 0

theorem concatenated_iff (powerOfTwo : Bool) {r : EncodedTable w}
    (hschema : ∀ c, c ∈ r.schema ↔ c = encTableJoinId ∨ c ∈ t.schema ∨ c ∈ other.schema)
    (hcol : r.col = (t.appended other).col) (hrows : if powerOfTwo then
      0 < t.rows + other.rows ∧ r.rows = 1 <<< Nat.size (t.rows + other.rows - 1)
      else r.rows = t.rows + other.rows) :
    Concatenated t other powerOfTwo r ↔ ∀ i < t.rows, t.col encTableJoinId i = 0 := by
  constructor
  · intro h i hi
    have hid := h.tableId i (by omega)
    rwa [hcol, appended_col_left _ hi, if_pos hi] at hid
  · intro h
    exact {
      schema := hschema
      rows := by
        split at hrows
        · rw [if_pos ‹_›]
          obtain ⟨hpos, hpow⟩ := hrows
          have hle : ∀ j, t.rows + other.rows ≤ 2 ^ j ↔ Nat.size (t.rows + other.rows - 1) ≤ j := by
            intro j
            rw [Nat.size_le]
            omega
          exact ⟨_, by rw [hpow, Nat.one_shiftLeft], (hle _).mpr le_rfl, fun j => (hle j).mp⟩
        · rwa [if_neg ‹_›]
      left := by
        intro c _ i hi
        rw [hcol, appended_col_left c hi]
      right := by
        intro c hc i hi
        rw [hcol, appended_col_right c (by omega) (by omega), if_neg hc, Nat.add_sub_cancel_left]
      tableId := by
        intro i hi
        rw [hcol]
        rcases Nat.lt_or_ge i t.rows with hlt | hge
        · rw [appended_col_left _ hlt, if_pos hlt, h i hlt]
        · rw [appended_col_right _ hge hi, if_pos rfl, if_neg (Nat.not_lt.mpr hge)]
      padding := by
        intro i hi _
        rw [hcol, appended_col_rest _ hi] }

theorem mem_fill_target {rows : ℕ} (powerOfTwo : Bool) (c : String) :
    c ∈ (fill t other powerOfTwo (target t other rows)).schema ↔
      c = encTableJoinId ∨ c ∈ t.schema ∨ c ∈ other.schema := by
  rw [fill_schema, target, mem_zeros, mem_newSchema]
  constructor
  · rintro (rfl | hc)
    · exact Or.inr (Or.inl t.valid_mem)
    · exact hc
  · exact Or.inr

theorem concatenated_fill_iff : Concatenated t other false
    (fill t other false (target t other (t.rows + other.rows))) ↔
      ∀ i < t.rows, t.col encTableJoinId i = 0 :=
  concatenated_iff false (mem_fill_target false) (fill_col false fun _ => rfl) (fill_rows false _)

theorem concatenated_fill_padded_iff (hpos : 0 < t.rows + other.rows) : Concatenated t other true
    (fill t other true (target t other (1 <<< Nat.size (t.rows + other.rows - 1)))) ↔
      ∀ i < t.rows, t.col encTableJoinId i = 0 :=
  concatenated_iff true (mem_fill_target true) (fill_col true nofun) ⟨hpos, fill_rows true _⟩

/-- Concatenation aborts when only the second table has a table id already, and keeps the ids the first
one has: it is right exactly when these are zero. -/
theorem concatenate_iff (t other : EncodedTable w) (powerOfTwo : Bool) :
    Draws.Returns (t.concatenate other powerOfTwo) (Concatenated t other powerOfTwo) ↔
      (encTableJoinId ∈ other.schema → encTableJoinId ∈ t.schema) ∧
      (∀ i < t.rows, t.col encTableJoinId i = 0) ∧
      if powerOfTwo then 0 < t.rows + other.rows ∧ t.rows + other.rows ≤ 2 ^ 30
      else t.rows + other.rows < 2 ^ 31 := by
  rw [returns_concatenate_iff]
  cases powerOfTwo with
  | false =>
      rw [concatenated_fill_iff]
      simp only [Bool.false_eq_true, if_false]
      tauto
  | true =>
      simp only [if_true]
      refine and_congr_right fun _ => ?_
      rw [and_comm]
      exact and_congr_left fun hsize => concatenated_fill_padded_iff hsize.1

def exampleRow : EncodedTable 8 := zeros ["[k]"] 1

/-- The result of a concatenation is the first table of another one. -/
theorem concatenate_keeps_table_id :
    Draws.Returns (exampleRow.concatenate exampleRow) fun r =>
      Concatenated exampleRow exampleRow false r ∧
      ¬ Draws.Returns (r.concatenate exampleRow) (Concatenated r exampleRow false) := by
  have hnotMem : encTableJoinId ∉ exampleRow.schema := by decide
  have hzero : ∀ i < exampleRow.rows, exampleRow.col encTableJoinId i = 0 := fun i _ =>
    congrFun (exampleRow.col_of_notMem _ hnotMem) i
  have hright : Concatenated exampleRow exampleRow false _ := concatenated_fill_iff.mpr hzero
  refine (returns_concatenate_iff false).mpr ⟨fun h => absurd h hnotMem, by decide, hright, ?_⟩
  intro hagain
  obtain ⟨-, -, hstale⟩ := (returns_concatenate_iff false).mp hagain
  have hid := concatenated_fill_iff.mp hstale 1 (by rw [fill_rows]; decide)
  rw [hright.tableId 1 (by decide)] at hid
  exact absurd hid (by decide)

end Concatenation

end CryptDough.EncodedTable
