import CryptDough.TableDistinct

/-! The aggregation of a sorted table: padding breaks no group of a valid row, and a forward scan leaves
the fold of the group up to the row. -/

namespace CryptDough.EncodedTable

open SegmentedScan AdjacentGroups Opened Aggregators

variable {w : ℕ}

/-- The columns that rows of one group agree in: copies reach over both tables. -/
def groupColumns (keys : List String) (opt : AggregationOptions) (f : AggregationSelector) :
    List String :=
  if f.isCopy then keys else keys ++ opt.tableId.toList

theorem getLsbD_inj_of_singleBit (hw : 0 < w) {x y : BitVec w} (hx : x = 0 ∨ x = 1)
    (hy : y = 0 ∨ y = 1) : x.getLsbD 0 = y.getLsbD 0 ↔ x = y := by
  rcases hx with rfl | rfl <;> rcases hy with rfl | rfl <;> simp [hw, hw.ne']

theorem padded_singleBit {t : EncodedTable w} {c : String} (hbit : t.SingleBit c) (i : ℕ) :
    t.padded.col c i = 0 ∨ t.padded.col c i = 1 := by
  by_cases hi : i < t.rows
  · rw [padded_col t c hi]
    exact hbit i hi
  · exact Or.inl (padded_col_of_ge t c (not_lt.mp hi))

theorem groupKey_padded (hw : 0 < w) {t : EncodedTable w} {keys : List String}
    {opt : AggregationOptions} (hid : ∀ sel, opt.tableId = some sel → t.SingleBit sel)
    (f : AggregationSelector) (u v : ℕ) :
    groupKey (t.setting keys opt) t.padded.col f u = groupKey (t.setting keys opt) t.padded.col f v ↔
      keyOf (groupColumns keys opt f) (t.padded.row u) =
        keyOf (groupColumns keys opt f) (t.padded.row v) := by
  rw [groupKey, groupKey, setting, Prod.mk.injEq, groupColumns]
  cases f.isCopy with
  | true => simp [keyOf, row]
  | false =>
      cases hcases : opt.tableId with
      | none => simp [keyOf, row]
      | some sel =>
          have hbit := padded_singleBit (hid sel hcases)
          simp [keyOf, row, getLsbD_inj_of_singleBit hw (hbit u) (hbit v)]

theorem groupColumns_cons (c : String) (keys : List String) (opt : AggregationOptions)
    (f : AggregationSelector) : groupColumns (c :: keys) opt f = c :: groupColumns keys opt f := by
  unfold groupColumns
  split <;> rfl

/-- The rows of the padded table are grouped by their columns. -/
theorem padded_grouped (hw : 0 < w) {t : EncodedTable w} {keys : List String}
    {opt : AggregationOptions} (hid : ∀ sel, opt.tableId = some sel → t.SingleBit sel)
    (hn0 : 0 < t.rows) {f : AggregationSelector}
    (hsorted : t.SortedBy (groupColumns (encTableValid :: keys) opt f)) :
    Grouped (groupKey (t.setting (encTableValid :: keys) opt) t.padded.col f)
      (2 ^ Nat.size (t.rows - 1)) fun i => i < t.rows ∧ t.padded.row i encTableValid ≠ 0 := by
  rw [groupColumns_cons] at hsorted
  have hgroup : Grouped
      (fun i => keyOf (encTableValid :: groupColumns keys opt f) (t.padded.row i))
      (2 ^ Nat.size (t.rows - 1)) fun i => i < t.rows ∧ t.padded.row i encTableValid ≠ 0 := by
    refine grouped_of_sorted (lt_two_pow_size hn0) (fun i j hij hj => ?_) fun i hi _ => ?_
    · rw [padded_row t (lt_of_le_of_lt hij hj), padded_row t hj]
      exact hsorted i j hij hj
    · exact padded_col_of_ge t encTableValid hi
  refine hgroup.of_key_iff fun u v => ?_
  rw [groupKey_padded hw hid, groupColumns_cons]

theorem initial_padded (t : EncodedTable w) (selB : Option String) (s : Aggregation) {i : ℕ}
    (hi : i < t.rows) : initial selB s t.padded.col i = initial selB s t.col i := by
  unfold initial
  split
  · cases selB with
    | none => rfl
    | some sel => simp only [padded_col t sel hi]
  · exact padded_col t _ hi

/-- In a valid row a forward aggregation leaves the fold from the first row of the group on. -/
theorem Aggregated.result_eq {t t' : EncodedTable w} {keys : List String} {spec : AggregationSpec}
    {opt : AggregationOptions} (hw : 0 < w) (hreverse : opt.reverse = false)
    (hid : ∀ sel, opt.tableId = some sel → t.SingleBit sel) (hn1 : 1 < t.rows)
    (ht' : Aggregated t (encTableValid :: keys) spec opt t') {s : Aggregation} (hs : s ∈ spec)
    (hsorted : t.SortedBy (groupColumns (encTableValid :: keys) opt s.func)) {i : ℕ}
    (hi : i < t.rows) (hvalid : t.col encTableValid i ≠ 0) :
    t'.col s.result i = foldRange s.func.combine (initial opt.tableId s t.col)
      (firstOf (fun i => keyOf (groupColumns (encTableValid :: keys) opt s.func) (t.row i)) i)
      (i - firstOf (fun i => keyOf (groupColumns (encTableValid :: keys) opt s.func) (t.row i)) i) := by
  obtain ⟨reverse, doSort, markValid, tableId⟩ := opt
  obtain rfl : reverse = false := hreverse
  have hpos : 0 < Nat.size (t.rows - 1) := Nat.size_pos.mpr (by omega)
  have hgroup := padded_grouped hw hid (Nat.zero_lt_of_lt hn1) hsorted
  have hgood : i < t.rows ∧ t.padded.row i encTableValid ≠ 0 := by
    rw [padded_row t hi]
    exact ⟨hi, hvalid⟩
  have hfirst : firstOf (groupKey (t.setting (encTableValid :: keys)
        ⟨false, doSort, markValid, tableId⟩) t.padded.col s.func) i =
      firstOf (fun i => keyOf (groupColumns (encTableValid :: keys)
        ⟨false, doSort, markValid, tableId⟩ s.func) (t.row i)) i := by
    refine firstOf_congr fun u hu => ?_
    rw [groupKey_padded hw hid, padded_row t (lt_of_le_of_lt hu hi), padded_row t hi]
  rw [ht'.result s hs i hi, ← hfirst]
  refine (scan_sameGroup hgroup hpos rfl _ hgood).trans (foldRange_congr _ fun j _ hj => ?_)
  have hle : firstOf (groupKey (t.setting (encTableValid :: keys)
    ⟨false, doSort, markValid, tableId⟩) t.padded.col s.func) i ≤ i := firstOf_le rfl
  have hj_lt : j < t.rows :=
    calc j ≤ _ := hj
      _ = i := Nat.add_sub_of_le hle
      _ < t.rows := hi
  exact initial_padded t tableId s hj_lt

end CryptDough.EncodedTable
