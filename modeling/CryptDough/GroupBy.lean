import CryptDough.GroupScan

/-! Group-by aggregation: the table is sorted by valid bit and keys, padded to a power of two and
scanned; one row of every group stays valid. -/

namespace CryptDough

open SegmentedScan AdjacentGroups Opened Aggregators

variable {w : ℕ}

namespace AggregationSelector

instance : Std.Commutative (α := BitVec w) (· ||| ·) := ⟨BitVec.or_comm⟩

instance : Std.Associative (α := BitVec w) (· ||| ·) := ⟨BitVec.or_assoc⟩

/-- What aggregating the values of a group amounts to. -/
def total (f : AggregationSelector) (values : Multiset (BitVec w)) : BitVec w :=
  match f with
  | sum => values.sum
  | count => values.sum
  | min => values.fold signedMin (BitVec.intMax w)
  | max => values.fold signedMax (BitVec.intMin w)
  | bitOr => values.fold (· ||| ·) 0
  | _ => 0

theorem signedMin_intMax (b : BitVec w) : signedMin b (BitVec.intMax w) = b := by
  have hle : b.toInt ≤ (BitVec.intMax w).toInt := by
    rw [BitVec.toInt_intMax]
    exact BitVec.toInt_le
  exact if_pos hle

theorem signedMax_intMin (b : BitVec w) : signedMax b (BitVec.intMin w) = b := by
  have hle := BitVec.toInt_intMin_le b
  unfold signedMax
  split_ifs with hlt
  · rfl
  · exact BitVec.eq_of_toInt_eq (le_antisymm hle (not_lt.mp hlt))

/-- The fold up to the last row of a group. -/
theorem foldRange_combine {κ : Type} [DecidableEq κ] {key : ℕ → κ} {n : ℕ} {good : ℕ → Prop}
    {f : AggregationSelector} (hf : f.isAggregation = true) (hgroup : Grouped key n good)
    (x : Column w) {t : ℕ} (ht : good t) (hlast : t + 1 = n ∨ key (t + 1) ≠ key t) :
    foldRange f.combine x (firstOf key t) (t - firstOf key t) =
      f.total (((Multiset.range n).filter fun u => key u = key t).map x) := by
  cases f with
  | sum => exact hgroup.foldRange_last add_zero x ht hlast
  | count => exact hgroup.foldRange_last add_zero x ht hlast
  | min => exact hgroup.foldRange_last signedMin_intMax x ht hlast
  | max => exact hgroup.foldRange_last signedMax_intMin x ht hlast
  | bitOr => exact hgroup.foldRange_last (fun _ => BitVec.or_zero) x ht hlast
  | copyA => simp [isAggregation] at hf
  | copyB => simp [isAggregation] at hf
  | valid => simp [isAggregation] at hf

end AggregationSelector

namespace EncodedTable

/-- The value of one aggregation over the rows of a group. -/
def groupValue (s : Aggregation) (rows : Multiset (Row w)) : BitVec w :=
  if s.func = .count then (Multiset.card rows : BitVec w)
  else s.func.total (rows.map fun ρ => ρ s.data)

/-- One row per key, with the values of its group. -/
structure IsGroupBy (keys : List String) (spec : AggregationSpec) (before after : Multiset (Row w)) :
    Prop where
  keys_eq : after.map (keyOf keys) = (before.map (keyOf keys)).dedup
  results : ∀ ρ ∈ after, ∀ s ∈ spec,
    ρ s.result = groupValue s (before.filter fun σ => keyOf keys σ = keyOf keys ρ)

/-- What a group-by aggregation relies on. -/
structure GroupByCall (t : EncodedTable w) (keys : List String) (spec : AggregationSpec) : Prop where
  width : ShareWidth w
  rows_gt : 1 < t.rows
  rows_le : t.rows ≤ 2 ^ 30
  nodup : (encTableValid :: keys).Nodup
  keys_mem : ∀ k ∈ keys, k ∈ t.schema ∧ isBShared k
  valid_bit : t.SingleBit encTableValid
  joinId_bit : encTableJoinId ∈ keys → t.SingleBit encTableJoinId
  uniq : encTableUniq ∉ t.schema
  columns : ∀ s ∈ spec, s.data ∈ t.schema ∧ s.result ∈ t.schema
  funcs : ∀ s ∈ spec, s.func.isAggregation = true
  spec_ne : spec ≠ []
  separate : Separate (encTableValid :: keys) none spec

/-- Row `i` ends its group in the direction of the aggregation. -/
def FinalRow (t : EncodedTable w) (keys : List String) (reverse : Bool) (i : ℕ) : Prop :=
  if reverse then i = 0 ∨ keyOf keys (t.row (i - 1)) ≠ keyOf keys (t.row i)
  else i + 1 = t.rows ∨ keyOf keys (t.row (i + 1)) ≠ keyOf keys (t.row i)

instance (t : EncodedTable w) (keys : List String) (reverse : Bool) (i : ℕ) :
    Decidable (t.FinalRow keys reverse i) := by
  unfold FinalRow
  infer_instance

theorem finalValid_eq {t : EncodedTable w} (hw : 0 < w) (hbit : t.SingleBit encTableValid)
    (keys : List String) (reverse : Bool) {i : ℕ} (hi : i < t.rows) :
    t.finalValid keys reverse i =
      andB1 (t.col encTableValid i) (bit (decide (t.FinalRow keys reverse i))) := by
  cases reverse with
  | true => rfl
  | false =>
      by_cases hlast : i + 1 < t.rows
      · have hiff : t.startsGroup keys (i + 1) = decide (t.FinalRow keys false i) := by
          have hne : i + 1 ≠ t.rows := hlast.ne
          simp [startsGroup, FinalRow, hne, eq_comm]
        simp only [finalValid, Bool.false_eq_true, if_false, if_pos hlast, hiff]
      · have hfinal : t.FinalRow keys false i := Or.inl (by omega)
        simp only [finalValid, Bool.false_eq_true, if_false, if_neg hlast, hfinal, decide_true]
        rw [bit_of_singleBit (hbit i hi) hw, andB1_bit, Bool.and_true]

theorem groupColumns_of_none {opt : AggregationOptions} (hid : opt.tableId = none)
    (keys : List String) (f : AggregationSelector) : groupColumns keys opt f = keys := by
  rw [groupColumns, hid, Option.toList_none, List.append_nil, ite_self]

/-- Keys and final rows as the network sees them. -/
theorem last_of_finalRow {t : EncodedTable w} {keys : List String} {opt : AggregationOptions}
    (f : AggregationSelector) {i : ℕ} (hi : i < t.rows) (hvalid : t.col encTableValid i ≠ 0)
    (hfinal : t.FinalRow (encTableValid :: keys) opt.reverse i) :
    (direction opt.reverse).position (2 ^ Nat.size (t.rows - 1)) i + 1 = 2 ^ Nat.size (t.rows - 1) ∨
      (direction opt.reverse).view (2 ^ Nat.size (t.rows - 1))
          (groupKey (t.setting (encTableValid :: keys) opt)
            t.padded.col f)
          ((direction opt.reverse).position (2 ^ Nat.size (t.rows - 1)) i + 1) ≠
        groupKey (t.setting (encTableValid :: keys) opt)
          t.padded.col f i := by
  have hle := lt_two_pow_size (Nat.zero_lt_of_lt hi)
  have hkey : ∀ u, u < t.rows → keyOf (encTableValid :: keys) (t.row u) ≠
      keyOf (encTableValid :: keys) (t.row i) →
      groupKey (t.setting (encTableValid :: keys) opt)
          t.padded.col f u ≠
        groupKey (t.setting (encTableValid :: keys) opt)
          t.padded.col f i := by
    intro u hu hne heq
    apply hne
    rw [← padded_row t hu, ← padded_row t hi]
    exact congrArg Prod.fst heq
  unfold FinalRow at hfinal
  cases hrev : opt.reverse with
  | false =>
      rw [hrev, if_neg Bool.false_ne_true] at hfinal
      change i + 1 = _ ∨ groupKey _ _ f (i + 1) ≠ _
      by_cases hlast : i + 1 < t.rows
      · exact Or.inr (hkey (i + 1) hlast (hfinal.resolve_left hlast.ne))
      · by_cases hpad : i + 1 = 2 ^ Nat.size (t.rows - 1)
        · exact Or.inl hpad
        · refine Or.inr fun heq => hvalid ?_
          have hhead : t.padded.col encTableValid (i + 1) =
              t.padded.col encTableValid i :=
            (List.cons.inj (congrArg Prod.fst heq)).1
          have hzero : t.padded.col encTableValid (i + 1) = 0 :=
            if_neg hlast
          have hself : t.padded.col encTableValid i =
              t.col encTableValid i := if_pos hi
          rw [← hself, ← hhead, hzero]
  | true =>
      rw [hrev, if_pos rfl] at hfinal
      have hposition : (direction true).position (2 ^ Nat.size (t.rows - 1)) i =
        2 ^ Nat.size (t.rows - 1) - 1 - i := rfl
      rw [hposition]
      by_cases hzero : i = 0
      · exact Or.inl (by omega)
      · have hlt : 2 ^ Nat.size (t.rows - 1) - 1 - i + 1 < 2 ^ Nat.size (t.rows - 1) := by omega
        have hpos : (direction true).position (2 ^ Nat.size (t.rows - 1))
            (2 ^ Nat.size (t.rows - 1) - 1 - i + 1) = i - 1 := by
          change 2 ^ Nat.size (t.rows - 1) - 1 - (2 ^ Nat.size (t.rows - 1) - 1 - i + 1) = i - 1
          omega
        rw [Direction.view_apply _ _ hlt, hpos]
        exact Or.inr (hkey (i - 1) (by omega) (hfinal.resolve_left hzero))

/-- Rows added by padding are in no group of a valid row. -/
theorem filter_padded (hw : 0 < w) {t : EncodedTable w} {keys : List String} {opt : AggregationOptions}
    (hid : opt.tableId = none) (f : AggregationSelector) {i : ℕ} (hi : i < t.rows)
    (hvalid : t.col encTableValid i ≠ 0) :
    ((Multiset.range (2 ^ Nat.size (t.rows - 1))).filter fun u =>
      groupKey (t.setting (encTableValid :: keys) opt)
          t.padded.col f u =
        groupKey (t.setting (encTableValid :: keys) opt)
          t.padded.col f i) =
      (Multiset.range t.rows).filter fun u =>
        keyOf (encTableValid :: keys) (t.row u) = keyOf (encTableValid :: keys) (t.row i) := by
  have hle := lt_two_pow_size (Nat.zero_lt_of_lt hi)
  rw [Multiset.Nodup.ext ((Multiset.nodup_range _).filter _) ((Multiset.nodup_range _).filter _)]
  intro u
  rw [Multiset.mem_filter, Multiset.mem_filter, Multiset.mem_range, Multiset.mem_range,
    groupKey_padded hw (fun sel hsel => by rw [hid] at hsel; cases hsel), groupColumns_of_none hid,
    padded_row t hi]
  constructor
  · rintro ⟨_, heq⟩
    have hu : u < t.rows := by
      by_contra hnot
      have hhead : t.padded.col encTableValid u =
        t.col encTableValid i := (List.cons.inj heq).1
      have hzero : t.padded.col encTableValid u = 0 := if_neg hnot
      exact hvalid (hhead.symm.trans hzero)
    rw [padded_row t hu] at heq
    exact ⟨hu, heq⟩
  · rintro ⟨hu, heq⟩
    rw [padded_row t hu]
    exact ⟨lt_of_lt_of_le hu hle, heq⟩

/-- The result in a final row is the total over the rows with its keys. -/
theorem aggregated_total {t t' : EncodedTable w} {keys : List String} {spec : AggregationSpec}
    {opt : AggregationOptions} (hw : 0 < w) (hid : opt.tableId = none) (hn1 : 1 < t.rows)
    (hsorted : t.SortedBy (encTableValid :: keys))
    (ht' : Aggregated t (encTableValid :: keys) spec opt t') {s : Aggregation} (hs : s ∈ spec)
    (hf : s.func.isAggregation = true) {i : ℕ} (hi : i < t.rows)
    (hvalid : t.col encTableValid i ≠ 0)
    (hfinal : t.FinalRow (encTableValid :: keys) opt.reverse i) :
    t'.col s.result i = s.func.total ((t.allRows.filter fun ρ =>
      keyOf (encTableValid :: keys) ρ = keyOf (encTableValid :: keys) (t.row i)).map
        fun ρ => if s.func = .count then 1 else ρ s.data) := by
  have hn0 : 0 < t.rows := Nat.zero_lt_of_lt hn1
  have hpos : 0 < Nat.size (t.rows - 1) := Nat.size_pos.mpr (by omega)
  have hle := lt_two_pow_size hn0
  have hiN : i < 2 ^ Nat.size (t.rows - 1) := lt_of_lt_of_le hi hle
  have hgroup : Grouped (groupKey (t.setting (encTableValid :: keys) opt) t.padded.col s.func)
      (2 ^ Nat.size (t.rows - 1)) fun i => i < t.rows ∧ t.padded.row i encTableValid ≠ 0 :=
    padded_grouped hw (fun sel hsel => by rw [hid] at hsel; cases hsel) hn0
      ((groupColumns_of_none hid _ s.func).symm ▸ hsorted)
  have hgood : (fun i => i < t.rows ∧
      t.padded.row i encTableValid ≠ 0) i := by
    refine ⟨hi, ?_⟩
    rw [padded_row t hi]
    exact hvalid
  have hview := grouped_view hgroup (direction opt.reverse)
  have hgood_view : (direction opt.reverse).view (2 ^ Nat.size (t.rows - 1)) (fun i => i < t.rows ∧
      t.padded.row i encTableValid ≠ 0)
        ((direction opt.reverse).position (2 ^ Nat.size (t.rows - 1)) i) := by
    rw [Direction.view_position _ _ hiN]
    exact hgood
  have hself : (direction opt.reverse).view (2 ^ Nat.size (t.rows - 1))
      (groupKey (t.setting (encTableValid :: keys) opt)
        t.padded.col s.func)
        ((direction opt.reverse).position (2 ^ Nat.size (t.rows - 1)) i) =
      groupKey (t.setting (encTableValid :: keys) opt)
        t.padded.col s.func i := Direction.view_position _ _ hiN
  have hlast := last_of_finalRow s.func hi hvalid hfinal
  rw [← hself] at hlast
  rw [ht'.result s hs i hi, Direction.view_apply _ _ hiN]
  apply (scan_sameGroup hgroup hpos rfl _ hgood_view).trans
  apply (AggregationSelector.foldRange_combine hf hview _ hgood_view hlast).trans
  rw [hself, Direction.filter_map_view, hid, filter_padded hw hid s.func hi hvalid, allRows,
    Multiset.filter_map, Multiset.map_map]
  refine congrArg _ (Multiset.map_congr rfl fun u hu => ?_)
  apply (initial_padded t none s (Multiset.mem_range.mp (Multiset.mem_filter.mp hu).1)).trans
  change initial none s t.col u = if s.func = .count then 1 else t.col s.data u
  unfold initial
  split <;> rfl

/-- Key columns and the valid bit are not written by the aggregation. -/
theorem Aggregated.keyOf_eq {t t' : EncodedTable w} {keys : List String} {spec : AggregationSpec}
    {opt : AggregationOptions} (ht' : Aggregated t (encTableValid :: keys) spec opt t')
    (hspec : Separate (encTableValid :: keys) none spec) (hvalid : encTableValid ∉ keys) {i : ℕ}
    (hi : i < t.rows) : keyOf keys (t'.row i) = keyOf keys (t.row i) := by
  refine List.map_congr_left fun k hk => ?_
  exact ht'.other k (hspec.keys k (List.mem_cons_of_mem _ hk)) (fun heq => hvalid (heq ▸ hk)) i hi

/-- The valid rows with the keys of a valid row. -/
theorem filter_validRows {t : EncodedTable w} {keys : List String}
    (hbit : t.SingleBit encTableValid) {i : ℕ} (hi : i < t.rows)
    (hvalid : t.col encTableValid i ≠ 0) :
    (t.allRows.filter fun ρ =>
        keyOf (encTableValid :: keys) ρ = keyOf (encTableValid :: keys) (t.row i)) =
      t.validRows.filter fun ρ => keyOf keys ρ = keyOf keys (t.row i) := by
  rw [validRows, Multiset.filter_filter]
  refine Multiset.filter_congr fun ρ hρ => ?_
  have hone : t.row i encTableValid = 1 := (hbit i hi).resolve_left hvalid
  rw [keyOf, keyOf, List.map_cons, List.map_cons, List.cons.injEq, ← keyOf, ← keyOf]
  constructor
  · exact fun h => ⟨h.2, h.1 ▸ hvalid⟩
  · exact fun h => ⟨((singleBit_iff.mp hbit ρ hρ).resolve_left h.2).trans hone.symm, h.1⟩

theorem groupValue_eq (s : Aggregation) (rows : Multiset (Row w)) :
    groupValue s rows = s.func.total (rows.map fun ρ => if s.func = .count then 1 else ρ s.data) := by
  unfold groupValue
  split
  · rename_i hcount
    rw [hcount, AggregationSelector.total, Multiset.map_const', Multiset.sum_replicate, nsmul_one]
  · rfl

/-- The final rows have one of every key. -/
theorem SortedBy.map_finalRows {t : EncodedTable w} {keys : List String} (reverse : Bool)
    (hbit : t.SingleBit encTableValid) (hsorted : t.SortedBy (encTableValid :: keys)) :
    (((Multiset.range t.rows).filter fun i => t.col encTableValid i ≠ 0 ∧
        decide (t.FinalRow (encTableValid :: keys) reverse i) = true).map fun i =>
          keyOf keys (t.row i)) = (t.validRows.map (keyOf keys)).dedup := by
  refine map_keyOf_eq_dedup hbit (fun i hi => ?_) ?_
  · obtain ⟨hi, hvalid, _⟩ := Multiset.mem_filter.mp hi
    exact ⟨Multiset.mem_range.mp hi, hvalid⟩
  · have hiff : ∀ i ∈ Multiset.range t.rows, (t.col encTableValid i ≠ 0 ∧
        decide (t.FinalRow (encTableValid :: keys) reverse i) = true ↔
          (i < t.rows ∧ t.row i encTableValid ≠ 0) ∧ t.FinalRow (encTableValid :: keys) reverse i) := by
      intro i hi
      rw [decide_eq_true_iff, and_iff_right (Multiset.mem_range.mp hi)]
      rfl
    rw [Multiset.filter_congr hiff]
    cases reverse with
    | true => exact hsorted.grouped.map_firsts
    | false => exact hsorted.grouped.map_lasts

/-- On a sorted table the aggregation leaves one row per key with the values of its group. -/
theorem Aggregated.isGroupBy {t t' : EncodedTable w} {keys : List String} {spec : AggregationSpec}
    {opt : AggregationOptions} (hw : 0 < w) (hid : opt.tableId = none) (hn1 : 1 < t.rows)
    (hbit : t.SingleBit encTableValid) (hsorted : t.SortedBy (encTableValid :: keys))
    (hspec : Separate (encTableValid :: keys) none spec) (hvalid : encTableValid ∉ keys)
    (hfuncs : ∀ s ∈ spec, s.func.isAggregation = true) (hne : spec ≠ [])
    (ht' : Aggregated t (encTableValid :: keys) spec opt t') :
    IsGroupBy keys spec t.validRows t'.validRows := by
  have hany : (spec.any fun s => s.func.isAggregation) = true := by
    obtain ⟨s, hs⟩ := List.exists_mem_of_ne_nil spec hne
    exact List.any_eq_true.mpr ⟨s, hs, hfuncs s hs⟩
  have hmasked : ∀ i, i < t.rows → t'.col encTableValid i = andB1 (t.col encTableValid i)
      (bit (decide (t.FinalRow (encTableValid :: keys) opt.reverse i))) := by
    intro i hi
    rw [ht'.valid i hi, if_pos hany, finalValid_eq hw hbit _ _ hi]
  have hrows := validRows_masked hw hbit ht'.rows _ hmasked
  constructor
  · rw [hrows, Multiset.map_map, ← hsorted.map_finalRows opt.reverse hbit]
    refine Multiset.map_congr rfl fun i hi => ?_
    exact ht'.keyOf_eq hspec hvalid (Multiset.mem_range.mp (Multiset.mem_filter.mp hi).1)
  · intro ρ hρ s hs
    rw [hrows] at hρ
    obtain ⟨i, hi, rfl⟩ := Multiset.mem_map.mp hρ
    obtain ⟨hi, hvalid_i, hfinal⟩ := Multiset.mem_filter.mp hi
    have hi := Multiset.mem_range.mp hi
    have htotal := aggregated_total hw hid hn1 hsorted ht' hs (hfuncs s hs) hi hvalid_i
      (of_decide_eq_true hfinal)
    rw [filter_validRows hbit hi hvalid_i] at htotal
    rw [groupValue_eq, ht'.keyOf_eq hspec hvalid hi]
    exact htotal

section GroupBy

variable {numParties : ℕ} {protocol : SortingProtocol}

theorem returns_aggregate {t : EncodedTable w} {keys : List String} {spec : AggregationSpec}
    {reverse : Bool} (hw : ShareWidth w) (hn1 : 1 < t.rows) (hn : t.rows ≤ 2 ^ 30)
    (hnodup : (encTableValid :: keys).Nodup) (hkeys : ∀ k ∈ keys, k ∈ t.schema ∧ isBShared k)
    (hbits : ∀ c, c = encTableValid ∨ c = encTableJoinId → c ∈ encTableValid :: keys → t.SingleBit c)
    (huniq : encTableUniq ∉ t.schema)
    (hcolumns : ∀ s ∈ spec, s.data ∈ t.schema ∧ s.result ∈ t.schema) (htyped : WellTyped spec)
    (hprotocol : protocol = .quicksort ∨ protocol = .radixsort) :
    Draws.Returns (aggregate numParties protocol t keys spec { reverse }) fun t' =>
      ∃ s, SameRows t s ∧ s.SortedBy (encTableValid :: keys) ∧
        t' = (s.aggregated (encTableValid :: keys) spec { reverse }).updateValid spec { reverse } := by
  have hmem : ∀ k ∈ encTableValid :: keys, k ∈ t.schema ∧ isBShared k :=
    List.forall_mem_cons.mpr ⟨⟨t.valid_mem, by decide⟩, hkeys⟩
  have hn31 : t.rows < 2 ^ 31 := lt_of_le_of_lt hn (by decide)
  rw [aggregate, if_pos rfl]
  refine (returns_sort_ascending t (Nat.zero_lt_of_lt hn1) hn31 hw hprotocol (List.cons_ne_nil _ _)
    hnodup (fun c hc => (hmem c hc).1) (fun c hc => (hmem c hc).2)
    fun c hc hname => hbits c hname hc).bind fun s hs => ?_
  obtain ⟨hsame, hsorted⟩ := hs
  refine (returns_aggregateGroups (Or.inl rfl) s (hsame.rows ▸ hn1) (hsame.rows ▸ hn) rfl (List.cons_ne_nil _ _)
    htyped (hsame.schema ▸ hmem) (hsame.schema ▸ hcolumns) (fun _ hsel => by cases hsel)
    (hsame.schema ▸ huniq)).mono fun t' ht' => ?_
  exact ⟨s, hsame, hsorted, ht'⟩

end GroupBy

theorem IsGroupBy.exists_row {keys : List String} {spec : AggregationSpec}
    {before after : Multiset (Row w)} (hgroup : IsGroupBy keys spec before after) {σ : Row w}
    (hσ : σ ∈ before) : ∃ ρ ∈ after, keyOf keys ρ = keyOf keys σ := by
  rw [← Multiset.mem_map, hgroup.keys_eq, Multiset.mem_dedup]
  exact Multiset.mem_map_of_mem _ hσ

/-- Five rows with two keys, one of them not valid. -/
def exampleGroups : EncodedTable 8 :=
  ofColumns 5 (fun i => if i = 1 then 0 else 1)
    [("[k]", fun i => if i % 2 = 0 then 5 else 7), ("d", fun i => BitVec.ofNat 8 (10 * i + 1)), ("r", 0)]

theorem exampleGroups_call : GroupByCall exampleGroups ["[k]"] [⟨"d", "r", .sum⟩] where
  width := Or.inl rfl
  rows_gt := by decide
  rows_le := by decide
  nodup := by decide
  keys_mem := by decide
  valid_bit := by unfold SingleBit; decide
  joinId_bit := fun hmem => absurd hmem (by decide)
  uniq := by decide
  columns := by decide
  funcs := by decide
  spec_ne := by decide
  separate := ⟨by decide, by decide, by decide, ⟨List.pairwise_singleton _ _, fun _ h => by cases h⟩,
    by decide⟩

/-- Two rows with one key. -/
def exampleTwins : EncodedTable 8 :=
  ofColumns 2 (fun _ => 1)
    [("[k]", fun _ => 5), ("[b]", fun _ => 6), ("d", fun _ => 1), ("e", fun _ => 10), ("r", 0)]

theorem exampleTwins_call : GroupByCall exampleTwins ["[k]"] [⟨"d", "r", .sum⟩] where
  width := Or.inl rfl
  rows_gt := by decide
  rows_le := by decide
  nodup := by decide
  keys_mem := by decide
  valid_bit := by unfold SingleBit; decide
  joinId_bit := fun hmem => absurd hmem (by decide)
  uniq := by decide
  columns := by decide
  funcs := by decide
  spec_ne := by decide
  separate := ⟨by decide, by decide, by decide, ⟨List.pairwise_singleton _ _, fun _ h => by cases h⟩,
    by decide⟩

theorem exampleTwins_row {s : EncodedTable 8} (hsame : SameRows exampleTwins s) {i : ℕ}
    (hi : i < exampleTwins.rows) : s.row i = exampleTwins.row i := by
  have hmem : s.row i ∈ exampleTwins.allRows := by
    rw [← hsame.allRows, mem_allRows]
    exact ⟨i, hsame.rows ▸ hi, rfl⟩
  obtain ⟨j, hj, hrow⟩ := mem_allRows.mp hmem
  rw [← hrow]
  funext c
  simp only [row, exampleTwins, ofColumns, List.lookup_cons, List.lookup_nil]
  repeat' split
  all_goals rfl

theorem exampleTwins_aggregate {spec : AggregationSpec}
    (hcolumns : ∀ s ∈ spec, s.data ∈ exampleTwins.schema ∧ s.result ∈ exampleTwins.schema)
    (htyped : WellTyped spec) :
    Draws.Returns (aggregate 3 .quicksort exampleTwins ["[k]"] spec {})
      (· = (exampleTwins.aggregated [encTableValid, "[k]"] spec {}).updateValid spec {}) := by
  refine (returns_aggregate exampleTwins_call.width exampleTwins_call.rows_gt
    exampleTwins_call.rows_le exampleTwins_call.nodup exampleTwins_call.keys_mem ?_
    exampleTwins_call.uniq hcolumns htyped (Or.inl rfl)).mono fun t' ht' => ?_
  · rintro c (rfl | rfl) hc
    · exact exampleTwins_call.valid_bit
    · exact absurd hc (by decide)
  · obtain ⟨s, hsame, _, rfl⟩ := ht'
    rw [aggregated_congr hsame.rows hsame.schema fun i hi => exampleTwins_row hsame hi]

theorem not_isGroupBy_of_value {keys : List String} {spec : AggregationSpec}
    {before after : Multiset (Row w)} {σ : Row w} (hσ : σ ∈ before) {s s' : Aggregation}
    (hs : s ∈ spec) (hs' : s' ∈ spec) (hresult : s'.result = s.result)
    (hne : groupValue s (before.filter fun ρ => keyOf keys ρ = keyOf keys σ) ≠
      groupValue s' (before.filter fun ρ => keyOf keys ρ = keyOf keys σ)) :
    ¬ IsGroupBy keys spec before after := by
  intro hgroup
  obtain ⟨ρ, hρ, hkey⟩ := hgroup.exists_row hσ
  have hvalue := hgroup.results ρ hρ s hs
  have hvalue' := hgroup.results ρ hρ s' hs'
  rw [hkey] at hvalue hvalue'
  exact hne (hvalue.symm.trans (hresult ▸ hvalue'))

theorem exampleTwins_mem : exampleTwins.row 0 ∈ exampleTwins.validRows :=
  Multiset.mem_filter.mpr ⟨mem_allRows.mpr ⟨0, by decide, rfl⟩, by decide⟩

theorem not_returns_of_forall {α : Type} {prog : Draws α} {post : α → Prop} (hpost : ∀ v, ¬ post v) :
    ¬ Draws.Returns prog post := fun hprog => by
  obtain ⟨v, _, _, hv⟩ := hprog default
  exact hpost v hv

end EncodedTable

end CryptDough
