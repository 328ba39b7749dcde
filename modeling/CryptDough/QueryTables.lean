import CryptDough.GroupBy
import CryptDough.JoinedTables
import CryptDough.Relational

/-! The tables that the steps of a query pass on, and what every step does to their valid rows. -/

namespace CryptDough

open Opened Aggregators

variable {w : ℕ}

theorem shareWidth_64 : ShareWidth 64 := .inr (.inr (.inr rfl))

/-- What two results of one computation say holds of its value. -/
theorem Draws.Returns.and {α : Type} {prog : Draws α} {post post' : α → Prop}
    (h : Returns prog post) (h' : Returns prog post') : Returns prog fun v => post v ∧ post' v := by
  intro s
  obtain ⟨v, s', hv, hpost⟩ := h s
  obtain ⟨v', s'', hv', hpost'⟩ := h' s
  obtain ⟨rfl, rfl⟩ := Prod.mk.inj (Option.some.inj (hv.symm.trans hv'))
  exact ⟨v, s', hv, hpost, hpost'⟩

namespace EncodedTable

/-- The columns that joins and aggregations add for themselves. -/
def internalColumns : List String := [encTableJoinId, encTableUniq, encTableValidTemp]

/-- A table between two steps. -/
structure Ready (t : EncodedTable w) : Prop where
  valid_bit : t.SingleBit encTableValid
  internal : ∀ c ∈ internalColumns, c ∉ t.schema

/-- The rows that opening the table shows, in their order. -/
def openedRows (t : EncodedTable w) : List (Row w) :=
  ((List.range t.rows).filter fun i => t.col encTableValid i ≠ 0).map t.row

theorem coe_openedRows (t : EncodedTable w) : (t.openedRows : Multiset (Row w)) = t.validRows := by
  rw [validRows_eq, openedRows]
  rfl

variable {t right : EncodedTable w} {keys cols names : List String}

theorem returns_requireColumns (hnames : ∀ c ∈ names, c ∈ t.schema) :
    Draws.Returns (t.requireColumns names) fun _ => True := returns_guard hnames

/-- The conversion does not change what the column opens to. -/
def convertA2b (t : EncodedTable w) (inputA outputB : String) : Draws (EncodedTable w) := do
  t.requireColumns [outputB, inputA]
  pure (t.assign outputB (t.col inputA))

theorem returns_convertA2b {inputA outputB : String} (hinput : inputA ∈ t.schema)
    (houtput : outputB ∈ t.schema) :
    Draws.Returns (t.convertA2b inputA outputB) (· = t.assign outputB (t.col inputA)) :=
  (returns_requireColumns (List.forall_mem_cons.mpr
    ⟨houtput, List.forall_mem_singleton.mpr hinput⟩)).bind fun _ _ => Draws.Returns.pure rfl

theorem card_validRows_le (t : EncodedTable w) : Multiset.card t.validRows ≤ t.rows := by
  calc Multiset.card t.validRows
      ≤ Multiset.card t.allRows := Multiset.card_le_card (Multiset.filter_le _ _)
    _ = t.rows := by rw [allRows, Multiset.card_map, Multiset.card_range]

theorem keep_valid (cols : List String) (ρ : Row w) : keep cols ρ encTableValid = ρ encTableValid :=
  if_pos (List.mem_append_right _ (by decide))

theorem keep_of_mem {c : String} (hc : c ∈ cols) (ρ : Row w) : keep cols ρ c = ρ c :=
  if_pos (List.mem_append_left _ hc)

theorem keyOf_keep_cols (hkeys : ∀ k ∈ keys, k ∈ cols) (ρ : Row w) :
    keyOf keys (keep cols ρ) = keyOf keys ρ :=
  List.map_congr_left fun k hk => keep_of_mem (hkeys k hk) ρ

theorem openedRows_keep (t : EncodedTable w) (cols : List String) :
    (t.project cols).openedRows = t.openedRows.map (keep cols) := by
  have hvalid : ∀ i, (t.project cols).col encTableValid i = t.col encTableValid i := fun i =>
    (congrFun (row_project t cols i) encTableValid).trans (keep_valid cols _)
  rw [openedRows, openedRows, List.map_map]
  simp only [hvalid]
  exact List.map_congr_left fun i _ => row_project t cols i

theorem validRows_keep (t : EncodedTable w) (cols : List String) :
    (t.project cols).validRows = t.validRows.map (keep cols) := by
  rw [← coe_openedRows, openedRows_keep, ← Multiset.map_coe, coe_openedRows]

theorem Ready.project (ht : t.Ready) (cols : List String) : (t.project cols).Ready where
  valid_bit := by
    rw [singleBit_iff, allRows_project]
    intro σ hσ
    obtain ⟨ρ, hρ, rfl⟩ := Multiset.mem_map.mp hσ
    rw [keep_valid]
    exact singleBit_iff.mp ht.valid_bit ρ hρ
  internal c hc hmem := ht.internal c hc ((mem_project t cols c).mp hmem).1

theorem bit_cases (b : Bool) : (bit b : BitVec w) = 0 ∨ (bit b : BitVec w) = 1 := by
  cases b
  · exact .inl rfl
  · exact .inr rfl

/-- A filter keeps the rows that satisfy its condition. -/
theorem Ready.openedRows_filter (ht : t.Ready) (hw : 0 < w) {e : Column w} {p : Row w → Bool}
    (he : ∀ i < t.rows, e i = bit (p (t.row i))) : (t.filter e).openedRows = t.openedRows.filter p := by
  have hvalid : ∀ i < t.rows, (t.filter e).col encTableValid i =
      bit (decide (t.col encTableValid i ≠ 0) && p (t.row i)) := by
    intro i hi
    rw [filter_valid, he i hi, ← andB1_bit, ← bit_of_singleBit (ht.valid_bit i hi) hw]
  rw [openedRows, openedRows, List.filter_map, List.filter_filter]
  change List.map (t.filter e).row ((List.range t.rows).filter _) = _
  have hfilter : (List.range t.rows).filter (fun i => decide ((t.filter e).col encTableValid i ≠ 0)) =
      (List.range t.rows).filter fun i => (p ∘ t.row) i && decide (t.col encTableValid i ≠ 0) := by
    refine List.filter_congr fun i hi => ?_
    rw [hvalid i (List.mem_range.mp hi), Bool.and_comm, Bool.eq_iff_iff, decide_eq_true_iff,
      bit_ne_zero hw]
    rfl
  rw [hfilter]
  refine List.map_congr_left fun i hi => ?_
  obtain ⟨hi, hboth⟩ := List.mem_filter.mp hi
  obtain ⟨hp, hvalid_i⟩ := Bool.and_eq_true_iff.mp hboth
  have hi := List.mem_range.mp hi
  ext c : 1
  by_cases hc : c = encTableValid
  · subst hc
    have hone := (ht.valid_bit i hi).resolve_left (of_decide_eq_true hvalid_i)
    calc (t.filter e).col encTableValid i
        = bit (decide (t.col encTableValid i ≠ 0) && (p ∘ t.row) i) := hvalid i hi
      _ = bit true := by rw [hvalid_i, hp, Bool.and_true]
      _ = t.col encTableValid i := hone.symm
  · exact congrFun (filter_col t e hc) i

theorem Ready.filter (ht : t.Ready) (hw : 0 < w) {e : Column w} {p : Row w → Bool}
    (he : ∀ i < t.rows, e i = bit (p (t.row i))) :
    (t.filter e).Ready ∧ (t.filter e).validRows = t.validRows.filter fun ρ => p ρ = true := by
  refine ⟨⟨fun i hi => ?_, fun c hc => ht.internal c hc⟩, ?_⟩
  · rw [filter_valid, he i hi, bit_of_singleBit (ht.valid_bit i hi) hw, andB1_bit]
    exact bit_cases _
  · rw [← coe_openedRows, ht.openedRows_filter hw he, ← coe_openedRows, Multiset.filter_coe]
    simp only [Bool.decide_eq_true]

/-- A column that is computed from the others. -/
theorem validRows_assign (t : EncodedTable w) {name : String} (hname : name ∈ t.schema)
    (hne : name ≠ encTableValid) {v : Column w} {f : Row w → BitVec w}
    (hv : ∀ i < t.rows, v i = f (t.row i)) :
    (t.assign name v).validRows = t.validRows.map fun ρ => Function.update ρ name (f ρ) := by
  have hrow : ∀ i < t.rows, (t.assign name v).row i = Function.update (t.row i) name (f (t.row i)) := by
    intro i hi
    ext c : 1
    rw [row, assign_col t hname, Function.update_apply]
    split_ifs
    · exact hv i hi
    · rfl
  rw [validRows_eq, validRows_eq, Multiset.map_map, assign_col_of_ne t hne.symm]
  refine Multiset.map_congr rfl fun i hi => ?_
  exact hrow i (Multiset.mem_range.mp (Multiset.mem_filter.mp hi).1)

theorem Ready.assign (ht : t.Ready) {name : String} (hne : name ≠ encTableValid) (v : Column w) :
    (t.assign name v).Ready where
  valid_bit i hi := by
    rw [assign_col_of_ne t hne.symm]
    exact ht.valid_bit i hi
  internal := ht.internal

/-- Selecting and projecting rows keeps their order. -/
theorem ordered_select (ht : t.Ready) (hw : 0 < w) {e : Column w} {p : Row w → Bool}
    (he : ∀ i < t.rows, e i = bit (p (t.row i))) (hkeys : ∀ k ∈ keys, k ∈ cols)
    (hordered : t.openedRows.Pairwise fun ρ σ => orderOf keys ρ < orderOf keys σ) :
    ((t.filter e).project cols).openedRows.Pairwise fun ρ σ => orderOf keys ρ < orderOf keys σ := by
  rw [openedRows_keep, ht.openedRows_filter hw he, List.pairwise_map]
  have horder : ∀ ρ : Row w, orderOf keys (keep cols ρ) = orderOf keys ρ := fun ρ =>
    (orderOf_eq_iff keys _ _).mpr (keyOf_keep_cols hkeys ρ)
  simp only [horder]
  exact hordered.filter p

/-- The keys of the rows that are selected. -/
theorem mem_keys_select (ht : t.Ready) (hw : 0 < w) {e : Column w} {p : Row w → Bool}
    (he : ∀ i < t.rows, e i = bit (p (t.row i))) (hkeys : ∀ k ∈ keys, k ∈ cols)
    (k : List (BitVec w)) :
    k ∈ ((t.filter e).project cols).validRows.map (keyOf keys) ↔
      ∃ ρ ∈ t.validRows, p ρ = true ∧ keyOf keys ρ = k := by
  rw [validRows_keep, (ht.filter hw he).2, Multiset.map_map, Multiset.mem_map]
  refine exists_congr fun ρ => ?_
  rw [Multiset.mem_filter, Function.comp_apply, keyOf_keep_cols hkeys, and_assoc]

/-- New columns are zero, and the rows stay as they are. -/
structure Extends (t : EncodedTable w) (names : List String) (t' : EncodedTable w) : Prop where
  ready : t'.Ready
  rows : t'.rows = t.rows
  schema : ∀ c, c ∈ t'.schema ↔ c ∈ names ∨ c ∈ t.schema
  validRows : t'.validRows = t.validRows

theorem Ready.returns_addColumns (ht : t.Ready) (hnodup : names.Nodup)
    (hinternal : ∀ c ∈ names, c ∉ internalColumns) (hnames : ∀ c ∈ names, c ∉ t.schema) :
    Draws.Returns (t.addColumns names) (Extends t names) := by
  refine (EncodedTable.returns_addColumns t hnodup hnames).mono fun t' ht' => ?_
  subst ht'
  have hfold : ∀ (l : List String) (u : EncodedTable w), (l.foldl extend u).rows = u.rows ∧
      (l.foldl extend u).col = u.col ∧ ∀ c, c ∈ (l.foldl extend u).schema ↔ c ∈ l ∨ c ∈ u.schema := by
    intro l
    induction l with
    | nil => exact fun u => ⟨rfl, rfl, fun c => by simp⟩
    | cons d l ih =>
        intro u
        obtain ⟨hrows, hcol, hschema⟩ := ih (u.extend d)
        refine ⟨hrows, hcol, fun c => ?_⟩
        rw [List.foldl_cons, hschema, mem_extend, List.mem_cons]
        tauto
  obtain ⟨hrows, hcol, hschema⟩ := hfold names t
  have hrow : (names.foldl extend t).row = t.row := by
    ext i c
    rw [row, row, hcol]
  refine ⟨⟨fun i hi => ?_, fun c hc hmem => ?_⟩, hrows, hschema, ?_⟩
  · rw [hcol]
    exact ht.valid_bit i (hrows ▸ hi)
  · rcases (hschema c).mp hmem with hname | hmem
    · exact hinternal c hname hc
    · exact ht.internal c hc hmem
  · rw [EncodedTable.validRows, EncodedTable.validRows, allRows, allRows, hrows, hrow]

section Aggregate

variable {spec : AggregationSpec} {numParties : ℕ} {protocol : SortingProtocol}

/-- What a group-by aggregation makes of `t`: the rows that stay are opened in the order of their
keys. -/
structure GroupedTable (t : EncodedTable w) (keys : List String) (spec : AggregationSpec)
    (t' : EncodedTable w) : Prop where
  ready : t'.Ready
  rows : t'.rows = t.rows
  schema : ∀ c, c ∈ t'.schema ↔ c ∈ t.schema
  isGroupBy : IsGroupBy keys spec t.validRows t'.validRows
  ordered : t'.openedRows.Pairwise fun ρ σ => orderOf keys ρ < orderOf keys σ

/-- What the columns of a group-by have to be, whatever the table. -/
structure GroupBySpec (keys : List String) (spec : AggregationSpec) : Prop where
  nodup : (encTableValid :: encTableJoinId :: keys).Nodup
  shared : ∀ k ∈ keys, isBShared k
  funcs : ∀ s ∈ spec, s.func.isAggregation = true
  spec_ne : spec ≠ []
  results : (spec.map Aggregation.result).Nodup
  typed : WellTyped spec
  reads : spec.Pairwise fun s s' => s'.func = .count ∨ s'.data ≠ s.result
  keys : ∀ k ∈ encTableValid :: keys, k ∉ spec.map Aggregation.result

theorem GroupBySpec.call (hspec : GroupBySpec keys spec) (ht : t.Ready) (hw : ShareWidth w)
    (hrows_gt : 1 < t.rows) (hrows_le : t.rows ≤ 2 ^ 30)
    (hcolumns : ∀ c ∈ keys ++ spec.map Aggregation.data ++ spec.map Aggregation.result, c ∈ t.schema) :
    GroupByCall t keys spec where
  width := hw
  rows_gt := hrows_gt
  rows_le := hrows_le
  nodup := hspec.nodup.sublist ((List.sublist_cons_self _ _).cons_cons _)
  keys_mem k hk := ⟨hcolumns k (List.mem_append_left _ (List.mem_append_left _ hk)), hspec.shared k hk⟩
  valid_bit := ht.valid_bit
  joinId_bit hmem := absurd hmem (List.nodup_cons.mp (List.nodup_cons.mp hspec.nodup).2).1
  uniq := ht.internal _ (by decide)
  columns s hs := ⟨hcolumns _ (List.mem_append_left _
      (List.mem_append_right _ (List.mem_map_of_mem hs))),
    hcolumns _ (List.mem_append_right _ (List.mem_map_of_mem hs))⟩
  funcs := hspec.funcs
  spec_ne := hspec.spec_ne
  separate := ⟨.inr rfl, hspec.results, hspec.typed,
    ⟨hspec.reads, fun _ h => absurd h.symm (Option.some_ne_none _)⟩, hspec.keys⟩

theorem IsGroupBy.nodup {before after : Multiset (Row w)} (h : IsGroupBy keys spec before after) :
    (after.map (keyOf keys)).Nodup :=
  h.keys_eq ▸ Multiset.nodup_dedup _

/-- Rows in the order of their keys, which are distinct. -/
theorem openedRows_ordered {t' : EncodedTable w} (hnodup : (t'.validRows.map (keyOf keys)).Nodup)
    (hle : ∀ i j, i ≤ j → j < t'.rows → t'.col encTableValid i ≠ 0 → t'.col encTableValid j ≠ 0 →
      orderOf keys (t'.row i) ≤ orderOf keys (t'.row j)) :
    t'.openedRows.Pairwise fun ρ σ => orderOf keys ρ < orderOf keys σ := by
  have hdistinct : t'.openedRows.Pairwise fun ρ σ => keyOf keys ρ ≠ keyOf keys σ := by
    rw [← coe_openedRows, Multiset.map_coe, Multiset.coe_nodup] at hnodup
    exact List.pairwise_map.mp hnodup
  have hordered : t'.openedRows.Pairwise fun ρ σ => orderOf keys ρ ≤ orderOf keys σ := by
    rw [openedRows, List.pairwise_map]
    refine (List.pairwise_lt_range.filter _).imp_of_mem fun {i j} hi hj hlt => ?_
    have hj := List.mem_filter.mp hj
    exact hle i j hlt.le (List.mem_range.mp hj.1) (of_decide_eq_true (List.mem_filter.mp hi).2)
      (of_decide_eq_true hj.2)
  refine (hordered.and hdistinct).imp fun h => lt_of_le_of_ne h.1 fun heq => h.2 ?_
  exact (orderOf_eq_iff keys _ _).mp heq

theorem GroupByCall.returns (hcall : GroupByCall t keys spec) (ht : t.Ready) (reverse : Bool)
    (hprotocol : protocol = .quicksort ∨ protocol = .radixsort) :
    Draws.Returns (aggregate numParties protocol t keys spec { reverse })
      (GroupedTable t keys spec) := by
  refine (returns_aggregate hcall.width hcall.rows_gt hcall.rows_le hcall.nodup hcall.keys_mem ?_
    hcall.uniq hcall.columns hcall.separate.typed hprotocol).mono fun t' ht' => ?_
  · rintro c (rfl | rfl) hc
    · exact hcall.valid_bit
    · exact hcall.joinId_bit ((List.mem_cons.mp hc).resolve_left (by decide))
  obtain ⟨s, hsame, hsorted, ht'⟩ := ht'
  have hw := hcall.width.pos
  have hvalid_keys := (List.nodup_cons.mp hcall.nodup).1
  have hbit := hsame.singleBit hcall.valid_bit
  have hmem : ∀ k ∈ encTableValid :: keys, k ∈ s.schema := List.forall_mem_cons.mpr
    ⟨s.valid_mem, fun k hk => hsame.schema ▸ (hcall.keys_mem k hk).1⟩
  have hscanned : Aggregated s (encTableValid :: keys) spec { reverse } t' := ht' ▸
    aggregated_updateValid hw s (hsame.rows ▸ Nat.zero_lt_of_lt hcall.rows_gt) rfl
      hcall.separate List.mem_cons_self hmem
      (hsame.schema ▸ hcall.columns) (fun _ hsel => by cases hsel) (hsame.schema ▸ hcall.uniq)
  have hgroup : IsGroupBy keys spec t.validRows t'.validRows := hsame.validRows ▸
    hscanned.isGroupBy hw rfl (hsame.rows ▸ hcall.rows_gt) hbit hsorted hcall.separate hvalid_keys
      hcall.funcs hcall.spec_ne
  have hany : (spec.any fun s => s.func.isAggregation) = true := by
    obtain ⟨a, ha⟩ := List.exists_mem_of_ne_nil spec hcall.spec_ne
    exact List.any_eq_true.mpr ⟨a, ha, hcall.funcs a ha⟩
  have hmasked := fun i (hi : i < s.rows) => (hscanned.valid i hi).trans
    ((if_pos hany).trans (finalValid_eq hw hbit (encTableValid :: keys) reverse hi))
  have hschema := fun c => (hscanned.schema c).trans (iff_of_eq (by rw [hsame.schema]))
  refine ⟨⟨fun i hi => ?_, fun c hc => (hschema c).not.mpr (ht.internal c hc)⟩,
    hscanned.rows.trans hsame.rows, hschema, hgroup, openedRows_ordered hgroup.nodup ?_⟩
  · have hi := hscanned.rows ▸ hi
    rw [hmasked i hi, bit_of_singleBit (hbit i hi) hw, andB1_bit]
    exact bit_cases _
  · intro i j hij hj hvalid_i hvalid_j
    have hj := hscanned.rows ▸ hj
    have hi := lt_of_le_of_lt hij hj
    have hbefore : ∀ k < s.rows, t'.col encTableValid k ≠ 0 → s.col encTableValid k ≠ 0 := by
      intro k hk hvalid hzero
      rw [hmasked k hk, hzero] at hvalid
      exact hvalid BitVec.zero_and
    have hle := (hsorted.cases hcall.width.one_lt hbit hij hj).resolve_left fun h =>
      hbefore i hi hvalid_i h.1
    have hkey := fun {k} (hk : k < s.rows) => (orderOf_eq_iff keys _ _).mpr
      (hscanned.keyOf_eq hcall.separate hvalid_keys hk)
    rw [hkey hi, hkey hj]
    exact hle.2

/-- The aggregates of the groups, as a relation. -/
theorem IsGroupBy.map_eq_groupBy {before after : Multiset (Row w)}
    (h : IsGroupBy keys spec before after) {s : Aggregation} (hs : s ∈ spec) :
    (after.map fun ρ => (keyOf keys ρ, ρ s.result)) =
      Relational.groupBy (keyOf keys) (groupValue s) before :=
  Relational.map_eq_groupBy h.keys_eq fun ρ hρ => h.results ρ hρ s hs

end Aggregate

section Join

variable {aggSpec : AggregationSpec} {opt : JoinOptions} {numParties : ℕ} {protocol : SortingProtocol}

/-- What a join makes of two tables, its rows apart. -/
structure JoinedTable (t right : EncodedTable w) (cols : List String) (t' : EncodedTable w) : Prop where
  ready : t'.Ready
  rows_ge : right.rows ≤ t'.rows
  rows_le : t'.rows ≤ t.rows + right.rows
  schema : ∀ c, c ∈ t'.schema ↔ (c ∈ t.schema ∨ c ∈ right.schema) ∧ c ∈ cols ++ reservedColumns

/-- What the columns of a join have to be, whatever the tables. -/
structure JoinKeysSpec (keys : List String) (aggSpec : AggregationSpec) : Prop where
  nodup : (encTableValid :: keys ++ [encTableJoinId]).Nodup
  shared : ∀ k ∈ keys, isBShared k
  copies : ∀ a ∈ aggSpec, a.func.isCopy = true
  results : (aggSpec.map Aggregation.result).Nodup
  typed : WellTyped aggSpec
  reads : aggSpec.Pairwise fun s s' => s'.func = .count ∨ s'.data ≠ s.result
  keys : ∀ k ∈ encTableValid :: keys ++ [encTableJoinId], k ∉ aggSpec.map Aggregation.result

theorem JoinKeysSpec.call (hspec : JoinKeysSpec keys aggSpec) (ht : t.Ready) (hright : right.Ready)
    (hw : ShareWidth w) (hrows_gt : 1 < t.rows + right.rows) (hrows_le : t.rows + right.rows ≤ 2 ^ 30)
    (hcolumns : ∀ c ∈ keys ++ aggSpec.map Aggregation.data ++ aggSpec.map Aggregation.result,
      c ∈ t.schema ∨ c ∈ right.schema) : JoinCall t right keys aggSpec where
  width := hw
  rows_gt := hrows_gt
  rows_lt := lt_of_le_of_lt hrows_le (by decide)
  nodup := hspec.nodup
  keys_mem k hk := ⟨hcolumns k (List.mem_append_left _ (List.mem_append_left _ hk)), hspec.shared k hk⟩
  valid_bit := ⟨ht.valid_bit, hright.valid_bit⟩
  internal c hc := ⟨ht.internal c hc, hright.internal c hc⟩
  copies := hspec.copies
  columns a ha := ⟨hcolumns _ (List.mem_append_left _
      (List.mem_append_right _ (List.mem_map_of_mem ha))),
    hcolumns _ (List.mem_append_right _ (List.mem_map_of_mem ha))⟩
  separate := ⟨.inl (List.cons_ne_nil _ _), hspec.results, hspec.typed,
    ⟨hspec.reads, fun sel h => Option.some.inj h ▸ hspec.keys _ (List.mem_append_right _ (by simp))⟩,
    fun k hk => hspec.keys k (List.mem_append_left _ hk)⟩

theorem innerRows_eq_join (keys : List String) (aggSpec : AggregationSpec)
    (left right : Multiset (Row w)) :
    innerRows keys aggSpec left right =
      (Relational.join (keyOf keys) (keyOf keys) right left).map fun p => copied aggSpec p.2 p.1 := by
  rw [Relational.join_eq_bind, Multiset.map_bind, innerRows]
  refine Multiset.bind_congr fun ρ _ => ?_
  rw [Multiset.map_map]
  rfl

theorem Ready.rearranged (ht : t.Ready) (τ : Equiv.Perm (Fin t.rows)) : (t.rearranged τ).Ready where
  valid_bit := by
    rw [singleBit_iff, allRows_rearranged]
    exact singleBit_iff.mp ht.valid_bit
  internal := ht.internal

theorem Ready.head (ht : t.Ready) (n : ℕ) : (t.head n).Ready where
  valid_bit i _ := by
    change (if i < t.rows then t.col encTableValid i else 0) = 0 ∨
      (if i < t.rows then t.col encTableValid i else 0) = 1
    split_ifs with hi
    · exact ht.valid_bit i hi
    · exact .inl rfl
  internal := ht.internal

theorem Ready.returns_trim (ht : t.Ready) (left : EncodedTable w) (hw : ShareWidth w)
    (hprotocol : protocol = .quicksort ∨ protocol = .radixsort) (hn0 : 0 < t.rows)
    (hn : t.rows < 2 ^ 31) :
    Draws.Returns (trim numParties protocol left right t opt) fun t' =>
      t'.Ready ∧ t'.schema = t.schema ∧ (t'.rows = t.rows ∨ t'.rows = right.rows) := by
  dsimp only [trim]
  split_ifs with htrim
  · refine (returns_sort t hn0 hn hw hprotocol (List.cons_ne_nil _ _) (by decide)
      (List.forall_mem_singleton.mpr t.valid_mem) (List.forall_mem_singleton.mpr (by decide))
      (List.forall_mem_singleton.mpr fun _ => ht.valid_bit)).bind fun v hv => Draws.Returns.pure ?_
    obtain ⟨τ, -, rfl⟩ := hv
    exact ⟨(ht.rearranged τ).head right.rows, rfl, .inr rfl⟩
  · exact Draws.Returns.pure ⟨ht, rfl, .inl rfl⟩

theorem JoinScan.finish_ready {s m m' : EncodedTable w} (hscan : JoinScan s keys aggSpec opt m m')
    (hcall : JoinCall t right keys aggSpec)
    (hs : JoinSource t right (t.joinColumns right keys aggSpec opt) s) :
    m'.finishJoin.Ready ∧ ∀ c, c ∈ m'.finishJoin.schema ↔ (c ∈ t.schema ∨ c ∈ right.schema) ∧
      c ∈ t.joinColumns right keys aggSpec opt ++ reservedColumns := by
  have hinternal : ∀ c ∈ internalColumns, ¬ (c ∈ t.schema ∨ c ∈ right.schema) := fun c hc hmem =>
    hmem.elim (hcall.internal c hc).1 (hcall.internal c hc).2
  have hschema : ∀ c, c ∈ m'.finishJoin.schema ↔ (c ∈ t.schema ∨ c ∈ right.schema) ∧
      c ∈ t.joinColumns right keys aggSpec opt ++ reservedColumns := by
    intro c
    change c ∈ (EncodedTable.deleteColumns _ _ _).schema ↔ _
    rw [mem_deleteColumns]
    change c ∈ m'.schema ∧ _ ↔ _
    rw [hscan.scanned.schema, hscan.marked.schema, hs.schema, List.mem_pair]
    constructor
    · rintro ⟨rfl | ⟨rfl | hmem, hcols⟩, hne⟩
      · exact absurd (.inl rfl) hne
      · exact absurd (.inr rfl) hne
      · exact ⟨hmem, hcols⟩
    · rintro ⟨hmem, hcols⟩
      refine ⟨.inr ⟨.inr hmem, hcols⟩, ?_⟩
      rintro (rfl | rfl)
      · exact hinternal _ (by decide) hmem
      · exact hinternal _ (by decide) hmem
  refine ⟨⟨fun i hi => ?_, fun c hc hmem => hinternal c hc ((hschema c).mp hmem).1⟩, hschema⟩
  have hi : i < s.rows := hscan.finish_rows ▸ hi
  rw [hscan.finish_valid hi, bit_of_singleBit (hscan.valid_bit i hi) hcall.width.pos, andB1_bit]
  exact bit_cases _

theorem JoinCall.returns_joined (hcall : JoinCall t right keys aggSpec)
    (hparties : opt.rightOuter = true ∨ numParties ≠ 2) (hrows : t.rows + right.rows ≤ 2 ^ 30)
    (hanti : opt.anti = true → opt.rightOuter = true)
    (hprotocol : protocol = .quicksort ∨ protocol = .radixsort) :
    Draws.Returns (join numParties protocol t right keys aggSpec opt)
      (JoinedTable t right (t.joinColumns right keys aggSpec opt)) := by
  refine returns_join hparties hcall hrows hanti hprotocol fun s m m' hs hscan => ?_
  obtain ⟨hready, hschema⟩ := hscan.finish_ready hcall hs
  have hrows_eq : m'.finishJoin.rows = t.rows + right.rows := hscan.finish_rows.trans hs.rows
  refine (hready.returns_trim t hcall.width hprotocol (hrows_eq ▸ Nat.zero_lt_of_lt hcall.rows_gt)
    (hrows_eq ▸ hcall.rows_lt)).mono fun t' ht' => ?_
  obtain ⟨hready', hschema', hrows'⟩ := ht'
  rw [hrows_eq] at hrows'
  exact ⟨hready', by omega, by omega, fun c => hschema' ▸ hschema c⟩

/-- The rows of an inner join with unique keys on the left. -/
theorem JoinCall.returns_innerJoin (hcall : JoinCall t right keys aggSpec)
    (hparties : numParties ≠ 2) (hrows : t.rows + right.rows ≤ 2 ^ 30)
    (hunique : (t.validRows.map (keyOf keys)).Nodup)
    (hprotocol : protocol = .quicksort ∨ protocol = .radixsort) :
    Draws.Returns (innerJoin numParties protocol t right keys aggSpec) fun t' =>
      JoinedTable t right (t.joinColumns right keys aggSpec {}) t' ∧
        t'.validRows = (Relational.join (keyOf keys) (keyOf keys) right.validRows t.validRows).map
          fun p => copied aggSpec p.2 p.1 := by
  have hanti : ({} : JoinOptions).anti = true → ({} : JoinOptions).rightOuter = true :=
    fun h => absurd h Bool.false_ne_true
  apply (hcall.returns_joined (.inr hparties) hrows hanti hprotocol).and
  rw [← innerRows_eq_join]
  refine returns_joinRows (P := (· = innerRows keys aggSpec t.validRows right.validRows))
    (.inr hparties) hcall hrows hanti hprotocol fun s m m' hs hscan => ?_
  rw [hscan.validRows_split, filter_left hscan.sided rfl, Multiset.map_zero, add_zero]
  refine hscan.right_part hcall hs hunique fun i hi hside => ?_
  rw [kept_inner hscan.sided rfl rfl hi, hside, eq_self, true_and]

/-- Where nothing is copied, the right rows with a partner; the keys of the left rows may repeat. -/
theorem JoinCall.returns_matching (hcall : JoinCall t right keys []) (hparties : numParties ≠ 2)
    (hrows : t.rows + right.rows ≤ 2 ^ 30)
    (hprotocol : protocol = .quicksort ∨ protocol = .radixsort) :
    Draws.Returns (innerJoin numParties protocol t right keys []) fun t' =>
      JoinedTable t right (t.joinColumns right keys [] {}) t' ∧
        t'.validRows = right.validRows.filter (Matches keys t.validRows) := by
  have hanti : ({} : JoinOptions).anti = true → ({} : JoinOptions).rightOuter = true :=
    fun h => absurd h Bool.false_ne_true
  apply (hcall.returns_joined (.inr hparties) hrows hanti hprotocol).and
  refine returns_joinRows (P := (· = right.validRows.filter (Matches keys t.validRows)))
    (.inr hparties) hcall hrows hanti hprotocol fun s m m' hs hscan => ?_
  rw [hscan.validRows_split, filter_left hscan.sided rfl, Multiset.map_zero, add_zero]
  refine hscan.right_filter hcall hs fun i hi hside => ?_
  rw [kept_inner hscan.sided rfl rfl hi, hside, eq_self, true_and, hs.met_iff_matches hcall hi]

theorem copied_singleton (data result : String) (f : AggregationSelector) (left ρ : Row w)
    (c : String) :
    copied [⟨data, result, f⟩] left ρ c = if result = c then left data else ρ c := by
  unfold copied
  by_cases hc : result = c
  · simp [hc]
  · simp [hc]

end Join

section Summaries

variable {result : String} {numParties : ℕ} {protocol : SortingProtocol}

/-- A table with one row for each of the groups: its keys, and its value in the column `result`. -/
structure SummaryTable (keys : List String) (result : String)
    (groups : Multiset (List (BitVec w) × BitVec w)) (t : EncodedTable w) : Prop where
  ready : t.Ready
  columns : ∀ c ∈ keys ++ [result], c ∈ t.schema
  groups : (t.validRows.map fun ρ => (keyOf keys ρ, ρ result)) = groups
  ordered : t.openedRows.Pairwise fun ρ σ => orderOf keys ρ < orderOf keys σ

theorem SummaryTable.nodup {φ : Multiset (Row w) → BitVec w} {rows : Multiset (Row w)}
    (h : SummaryTable keys result (Relational.groupBy (keyOf keys) φ rows) t) :
    (t.validRows.map (keyOf keys)).Nodup :=
  Relational.keys_of_groupBy h.groups ▸ Multiset.nodup_dedup _

theorem GroupedTable.summary {t' : EncodedTable w} {spec : AggregationSpec}
    (h : GroupedTable t keys spec t') {s : Aggregation} (hs : s ∈ spec)
    (hcolumns : ∀ c ∈ keys ++ [s.result], c ∈ t.schema) :
    SummaryTable keys s.result (Relational.groupBy (keyOf keys) (groupValue s) t.validRows) t' where
  ready := h.ready
  columns c hc := (h.schema c).mpr (hcolumns c hc)
  groups := h.isGroupBy.map_eq_groupBy hs
  ordered := h.ordered

theorem groupBy_keep {φ : Multiset (Row w) → BitVec w} {rows : Multiset (Row w)}
    (hkeys : ∀ k ∈ keys, k ∈ cols) :
    Relational.groupBy (keyOf keys) φ (rows.map (keep cols)) =
      Relational.groupBy (keyOf keys) (fun M => φ (M.map (keep cols))) rows := by
  have hkey : (fun ρ : Row w => keyOf keys (keep cols ρ)) = keyOf keys :=
    funext (keyOf_keep_cols hkeys)
  rw [Relational.groupBy_map, hkey]

/-- The table is cut down to the keys and one column, which is then summed up. -/
theorem Ready.returns_sums (ht : t.Ready) (hw : ShareWidth w) (hrows_gt : 1 < t.rows)
    (hrows_le : t.rows ≤ 2 ^ 30) (hspec : GroupBySpec keys [⟨result, result, .sum⟩])
    (hcolumns : ∀ c ∈ keys ++ [result], c ∈ t.schema)
    (hprotocol : protocol = .quicksort ∨ protocol = .radixsort) :
    Draws.Returns (aggregate numParties protocol (t.project (keys ++ [result])) keys
        [⟨result, result, .sum⟩] {}) fun t' =>
      SummaryTable keys result (Relational.groupBy (keyOf keys)
        (fun M => (M.map fun ρ => ρ result).sum) t.validRows) t' ∧ t'.rows = t.rows ∧
      ∀ c ∈ t'.schema, c ∈ keys ++ [result] ++ reservedColumns := by
  have hready := ht.project (keys ++ [result])
  have hmem : ∀ c ∈ keys ++ [result], c ∈ (t.project (keys ++ [result])).schema := fun c hc =>
    (mem_project t _ c).mpr ⟨hcolumns c hc, List.mem_append_left _ hc⟩
  have hcall := hspec.call hready hw hrows_gt hrows_le fun c hc => by
    rcases List.mem_append.mp hc with hc | hc
    · exact hmem c hc
    · exact hmem c (List.mem_append_right _ hc)
  refine (hcall.returns hready false hprotocol).mono fun t' ht' => ⟨?_, ht'.rows, fun c hc => ?_⟩
  · have hsummary := ht'.summary (List.mem_singleton.mpr rfl) hmem
    rw [validRows_keep, groupBy_keep fun k hk => List.mem_append_left _ hk] at hsummary
    refine (congrArg (SummaryTable keys result · t') ?_).mp hsummary
    refine congrArg (Relational.groupBy (keyOf keys) · t.validRows) (funext fun M => ?_)
    change ((M.map (keep _)).map fun ρ => ρ result).sum = _
    rw [Multiset.map_map]
    refine congrArg _ (Multiset.map_congr rfl fun ρ _ => ?_)
    exact keep_of_mem (List.mem_append_right _ (List.mem_singleton.mpr rfl)) ρ
  · exact ((mem_project t _ c).mp ((ht'.schema c).mp hc)).2

/-- The rows of the groups are counted in a column that is added for them. -/
theorem Ready.returns_counts (ht : t.Ready) (hw : ShareWidth w) (hrows_gt : 1 < t.rows)
    (hrows_le : t.rows ≤ 2 ^ 30) (hspec : GroupBySpec keys [⟨result, result, .count⟩])
    (hcolumns : ∀ c ∈ keys, c ∈ t.schema) (hinternal : result ∉ internalColumns)
    (hresult : result ∉ t.schema)
    (hprotocol : protocol = .quicksort ∨ protocol = .radixsort) :
    Draws.Returns (do
        let t ← t.addColumns [result]
        aggregate numParties protocol t keys [⟨result, result, .count⟩] {}) fun t' =>
      SummaryTable keys result (Relational.groupBy (keyOf keys)
        (fun M => (Multiset.card M : BitVec w)) t.validRows) t' ∧ t'.rows = t.rows ∧
      ∀ c, c ∈ t'.schema ↔ c = result ∨ c ∈ t.schema := by
  refine (ht.returns_addColumns (List.nodup_singleton _) (List.forall_mem_singleton.mpr hinternal)
    (List.forall_mem_singleton.mpr hresult)).bind fun u hu => ?_
  have hmem : ∀ c ∈ keys ++ [result], c ∈ u.schema := by
    intro c hc
    rw [hu.schema]
    exact (List.mem_append.mp hc).symm.imp_right (hcolumns c)
  have hcall := hspec.call hu.ready hw (hu.rows ▸ hrows_gt) (hu.rows ▸ hrows_le) fun c hc => by
    rcases List.mem_append.mp hc with hc | hc
    · exact hmem c hc
    · exact hmem c (List.mem_append_right _ hc)
  refine (hcall.returns hu.ready false hprotocol).mono fun t' ht' =>
    ⟨?_, ht'.rows.trans hu.rows, fun c => ?_⟩
  · exact hu.validRows ▸ ht'.summary (List.mem_singleton.mpr rfl) hmem
  · rw [ht'.schema, hu.schema, List.mem_singleton]

end Summaries

end EncodedTable

end CryptDough
