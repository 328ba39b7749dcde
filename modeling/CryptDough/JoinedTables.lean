import CryptDough.TableJoin

/-! What the joins return: for every table of valid rows and foreign keys the rows of the relational
join, whatever the invalid rows hold and whether or not the result is trimmed. -/

namespace CryptDough.EncodedTable

open StableSort SegmentedScan AdjacentGroups Opened Aggregators

variable {w : ℕ}

section Trim

variable {numParties : ℕ} {protocol : SortingProtocol}

/-- The rows that are cut off are invalid. -/
theorem validRows_resize (t : EncodedTable w) {n : ℕ}
    (hn : ∀ i < t.rows, t.col encTableValid i ≠ 0 → i < n) : (t.resize n).validRows = t.validRows := by
  have hset : ((Multiset.range n).filter fun i => (t.resize n).col encTableValid i ≠ 0) =
      (Multiset.range t.rows).filter fun i => t.col encTableValid i ≠ 0 := by
    rw [Multiset.Nodup.ext ((Multiset.nodup_range _).filter _) ((Multiset.nodup_range _).filter _)]
    intro i
    rw [Multiset.mem_filter, Multiset.mem_filter, Multiset.mem_range, Multiset.mem_range]
    change i < n ∧ (if i < t.rows then t.col encTableValid i else 0) ≠ 0 ↔ _
    constructor
    · rintro ⟨-, hvalid⟩
      by_cases hi : i < t.rows
      · rw [if_pos hi] at hvalid
        exact ⟨hi, hvalid⟩
      · exact absurd (if_neg hi) hvalid
    · rintro ⟨hi, hvalid⟩
      rw [if_pos hi]
      exact ⟨hn i hi hvalid, hvalid⟩
  rw [validRows_eq, validRows_eq]
  change Multiset.map _ ((Multiset.range n).filter _) = _
  rw [hset]
  refine Multiset.map_congr rfl fun i hi => ?_
  ext c : 1
  exact if_pos (Multiset.mem_range.mp (Multiset.mem_filter.mp hi).1)

/-- Sorted down by the valid bit, the valid rows are the first ones. -/
theorem valid_lt_card {t : EncodedTable w} (hw : 1 < w) (hbit : t.SingleBit encTableValid)
    {τ : Equiv.Perm (Fin t.rows)}
    (hτ : StableSorts (specLt (t.sortColumns [(encTableValid, .desc)])) τ) {i : ℕ}
    (hi : i < t.rows) (hvalid : (t.rearranged τ).col encTableValid i ≠ 0) :
    i < Multiset.card t.validRows := by
  have hone : (1 : BitVec w).toInt = 1 := BitVec.toInt_one hw
  have hzero : (0 : BitVec w).toInt = 0 := BitVec.toInt_zero
  have hcol : ∀ j : Fin t.rows, (t.rearranged τ).col encTableValid j = t.col encTableValid (τ.symm j) :=
    fun j => congrFun (row_rearranged t τ j) encTableValid
  have hbefore : ∀ j, j ≤ i → (t.rearranged τ).col encTableValid j ≠ 0 := by
    intro j hj hzero_j
    have hjn : j < t.rows := lt_of_le_of_lt hj hi
    have hj_zero : t.col encTableValid (τ.symm ⟨j, hjn⟩) = 0 := (hcol ⟨j, hjn⟩).symm.trans hzero_j
    have hi_one : t.col encTableValid (τ.symm ⟨i, hi⟩) = 1 :=
      (hbit _ (τ.symm ⟨i, hi⟩).isLt).resolve_left ((hcol ⟨i, hi⟩) ▸ hvalid)
    have hlt : specLt (t.sortColumns [(encTableValid, .desc)]) (τ.symm ⟨i, hi⟩) (τ.symm ⟨j, hjn⟩) := by
      apply Or.inl
      change (t.col encTableValid _).toInt < (t.col encTableValid _).toInt
      rw [hj_zero, hi_one, hone, hzero]
      exact one_pos
    have hpos := (hτ _ _).mpr (Or.inl hlt)
    rw [Equiv.apply_symm_apply, Equiv.apply_symm_apply] at hpos
    exact absurd (Fin.lt_def.mp hpos) (not_lt.mpr hj)
  have hrows : (t.rearranged τ).validRows = t.validRows := by
    rw [validRows, allRows_rearranged, validRows]
  have hle : Multiset.range (i + 1) ≤
      (Multiset.range t.rows).filter fun j => (t.rearranged τ).col encTableValid j ≠ 0 := by
    rw [Multiset.le_iff_subset (Multiset.nodup_range _)]
    intro j hj
    have hj := Multiset.mem_range.mp hj
    exact Multiset.mem_filter.mpr ⟨Multiset.mem_range.mpr (by omega), hbefore j (by omega)⟩
  have hcard := Multiset.card_le_card hle
  rw [Multiset.card_range] at hcard
  rw [← hrows, validRows_eq, Multiset.card_map]
  exact hcard

/-- No valid row is trimmed off when there are at most as many as rows on the right. -/
theorem returns_trim {t right u : EncodedTable w} {opt : JoinOptions} (hw : ShareWidth w)
    (hprotocol : protocol = .quicksort ∨ protocol = .radixsort) (hn0 : 0 < u.rows)
    (hn : u.rows < 2 ^ 31) (hbit : u.SingleBit encTableValid)
    (hcard : opt.leftOuter = false → Multiset.card u.validRows ≤ right.rows) :
    Draws.Returns (trim numParties protocol t right u opt) fun t' => t'.validRows = u.validRows := by
  dsimp only [trim]
  split_ifs with htrim
  · have hleft : opt.leftOuter = false := by
      have hand := htrim.1
      rw [Bool.and_eq_true, Bool.not_eq_true'] at hand
      exact hand.2
    have hspec : ([(encTableValid, .desc)] : List (String × SortOrder)) ≠ [] := List.cons_ne_nil _ _
    refine (returns_sort u hn0 hn hw hprotocol hspec (by decide)
      (List.forall_mem_singleton.mpr u.valid_mem) (List.forall_mem_singleton.mpr (by decide))
      (List.forall_mem_singleton.mpr fun _ => hbit)).bind fun v hv => Draws.Returns.pure ?_
    obtain ⟨τ, hτ, rfl⟩ := hv
    have hrows : (u.rearranged τ).validRows = u.validRows := by
      rw [validRows, allRows_rearranged, validRows]
    rw [head, validRows_resize, hrows]
    intro i hi hvalid
    exact lt_of_lt_of_le (valid_lt_card hw.one_lt hbit hτ hi hvalid) (hcard hleft)
  · exact Draws.Returns.pure rfl

end Trim

/-- A program that reaches an abort. -/
theorem not_returns_bind {α β : Type} {prog : Draws α} {next : α → Draws β} {mid : α → Prop}
    {post : β → Prop} (hprog : Draws.Returns prog mid) (hnext : ∀ v, mid v → ∀ s, next v s = none) :
    ¬ Draws.Returns (prog >>= next) post := by
  intro hreturns
  obtain ⟨v, s', hv, hmid⟩ := hprog default
  obtain ⟨v', s'', hv', -⟩ := hreturns default
  change (prog _ >>= fun r => next r.1 r.2) = some (v', s'') at hv'
  rw [hv] at hv'
  exact absurd ((hnext v hmid s').symm.trans hv') nofun

section Sources

variable {t right : EncodedTable w} {keys : List String} {aggSpec : AggregationSpec} {opt : JoinOptions}

/-- What a join relies on. -/
structure JoinCall (t right : EncodedTable w) (keys : List String) (aggSpec : AggregationSpec) :
    Prop where
  width : ShareWidth w
  rows_gt : 1 < t.rows + right.rows
  rows_lt : t.rows + right.rows < 2 ^ 31
  nodup : (encTableValid :: keys ++ [encTableJoinId]).Nodup
  keys_mem : ∀ k ∈ keys, (k ∈ t.schema ∨ k ∈ right.schema) ∧ isBShared k
  valid_bit : t.SingleBit encTableValid ∧ right.SingleBit encTableValid
  internal : ∀ c ∈ [encTableJoinId, encTableUniq, encTableValidTemp], c ∉ t.schema ∧ c ∉ right.schema
  copies : ∀ a ∈ aggSpec, a.func.isCopy = true
  columns : ∀ a ∈ aggSpec, (a.data ∈ t.schema ∨ a.data ∈ right.schema) ∧
    (a.result ∈ t.schema ∨ a.result ∈ right.schema)
  separate : Separate (encTableValid :: keys) (some encTableJoinId) aggSpec

/-- The rows of both tables in the columns `cols`, with the table ids. -/
structure JoinSource (t right : EncodedTable w) (cols : List String) (s : EncodedTable w) : Prop where
  rows : s.rows = t.rows + right.rows
  schema : ∀ c, c ∈ s.schema ↔
    (c = encTableJoinId ∨ c ∈ t.schema ∨ c ∈ right.schema) ∧ c ∈ cols ++ reservedColumns
  allRows : s.allRows =
    t.allRows.map (keep cols) + right.allRows.map fun ρ => Function.update ρ encTableJoinId 1

theorem JoinSource.of_sameRows {cols : List String} {p s : EncodedTable w}
    (hp : JoinSource t right cols p) (hsame : SameRows p s) : JoinSource t right cols s where
  rows := hsame.rows.trans hp.rows
  schema c := by rw [hsame.schema, hp.schema]
  allRows := hsame.allRows.trans hp.allRows

theorem keep_eq_self {cols : List String} {ρ : Row w}
    (hcols : ∀ c, c ∉ cols ++ reservedColumns → ρ c = 0) : keep cols ρ = ρ := by
  ext c : 1
  by_cases hc : c ∈ cols ++ reservedColumns
  · exact if_pos hc
  · exact (if_neg hc).trans (hcols c hc).symm

theorem row_eq_zero (t : EncodedTable w) {ρ : Row w} (hρ : ρ ∈ t.allRows) {c : String}
    (hc : c ∉ t.schema) : ρ c = 0 := by
  obtain ⟨i, _, rfl⟩ := mem_allRows.mp hρ
  exact congrFun (t.col_of_notMem c hc) i

/-- The columns of the right table and the table id are among those that are kept. -/
theorem keep_right {ρ : Row w} (hρ : ρ ∈ right.allRows) :
    keep (t.joinColumns right keys aggSpec opt) (Function.update ρ encTableJoinId 1) =
      Function.update ρ encTableJoinId 1 := by
  refine keep_eq_self fun c hc => ?_
  rw [List.mem_append, not_or] at hc
  have hid : c ≠ encTableJoinId := fun heq => hc.2 (heq ▸ by decide)
  rw [Function.update_of_ne hid]
  refine row_eq_zero right hρ fun hmem => hc.1 ?_
  simp [joinColumns, hmem]

theorem returns_concatenate (hcall : JoinCall t right keys aggSpec) (opt : JoinOptions) :
    Draws.Returns (t.concatenate right) fun r =>
      JoinSource t right (t.joinColumns right keys aggSpec opt)
        (r.project (t.joinColumns right keys aggSpec opt)) := by
  have hid := hcall.internal encTableJoinId (by decide)
  refine (returns_concatenate_iff false).mpr ⟨fun h => absurd h hid.2, ?_⟩
  rw [if_neg Bool.false_ne_true]
  have hrow : ∀ i, (fill t right false (target t right (t.rows + right.rows))).row i =
      (t.appended right).row i := fun i => by
    ext c : 1
    exact congrFun (congrFun (fill_col false fun _ => rfl) c) i
  refine ⟨hcall.rows_lt, fill_rows false _, fun c => ?_, ?_⟩
  · rw [mem_project, mem_fill_target]
  · have hall : (fill t right false (target t right (t.rows + right.rows))).allRows =
        (t.appended right).allRows := by
      rw [allRows, fill_rows, allRows]
      exact Multiset.map_congr rfl fun i _ => hrow i
    rw [allRows_project, hall, allRows_appended, Multiset.map_add, Multiset.map_map]
    exact congrArg _ (Multiset.map_congr rfl fun ρ hρ => keep_right hρ)

/-- The entry for the valid bits, if there is one, is apart from the others. -/
theorem joinSpec_eq (aggSpec : AggregationSpec) (hanti : opt.anti = true → opt.rightOuter = true) :
    joinSpec aggSpec opt = aggSpec ∨ ∃ f : AggregationSelector, f.hasB = true ∧
      joinSpec aggSpec opt = aggSpec ++ [⟨encTableValidTemp, encTableValidTemp, f⟩] := by
  unfold joinSpec
  cases hright : opt.rightOuter with
  | false =>
      have hnot : opt.anti = false := by
        cases h : opt.anti with
        | false => rfl
        | true => exact absurd (hanti h) (by simp [hright])
      exact Or.inr ⟨.valid, rfl, by simp [hnot]⟩
  | true =>
      cases opt.anti with
      | false => exact Or.inl (by simp)
      | true => exact Or.inr ⟨.copyB, rfl, by simp⟩

/-- The entry for the valid bits is the only one that is no copy. -/
theorem isCopy_of_mem_joinSpec (hcopies : ∀ a ∈ aggSpec, a.func.isCopy = true)
    (hright : opt.rightOuter = true) : ∀ a ∈ joinSpec aggSpec opt, a.func.isCopy = true := by
  intro a ha
  rw [joinSpec, if_pos hright, List.append_nil, List.mem_append] at ha
  rcases ha with ha | ha
  · exact hcopies a ha
  · split at ha
    · rw [List.mem_singleton.mp ha]
      rfl
    · exact absurd ha List.not_mem_nil

theorem separate_joinSpec (hanti : opt.anti = true → opt.rightOuter = true) {keys : List String}
    (hspec : Separate keys (some encTableJoinId) aggSpec) (hkeys : encTableValidTemp ∉ keys)
    (hresults : encTableValidTemp ∉ aggSpec.map Aggregation.result) :
    Separate keys (some encTableJoinId) (joinSpec aggSpec opt) := by
  rcases joinSpec_eq aggSpec hanti with heq | ⟨f, hf, heq⟩
  · rwa [heq]
  · rw [heq]
    refine ⟨hspec.keys_ne, ?_, ?_, ⟨?_, ?_⟩, ?_⟩
    · rw [List.map_append, List.map_singleton]
      exact List.Nodup.append hspec.nodup (List.nodup_singleton _) (by simpa using hresults)
    · intro a ha
      rcases List.mem_append.mp ha with ha | ha
      · exact hspec.typed a ha
      · rw [List.mem_singleton.mp ha]
        have hshared : isBShared encTableValidTemp = true := by decide
        exact ⟨hshared.trans hf.symm, hshared.trans hf.symm⟩
    · rw [List.pairwise_append]
      refine ⟨hspec.reads.1, List.pairwise_singleton _ _, fun a ha b hb => Or.inr ?_⟩
      rw [List.mem_singleton.mp hb]
      exact fun heq => hresults (List.mem_map.mpr ⟨a, ha, heq.symm⟩)
    · intro sel hsel
      rw [List.map_append, List.mem_append, not_or]
      obtain rfl : encTableJoinId = sel := Option.some.inj hsel
      have hne : encTableJoinId ≠ encTableValidTemp := by decide
      exact ⟨hspec.reads.2 _ rfl, List.mem_singleton.not.mpr hne⟩
    · intro k hk
      rw [List.map_append, List.mem_append, not_or]
      refine ⟨hspec.keys k hk, fun hmem => hkeys ?_⟩
      obtain rfl : k = encTableValidTemp := List.mem_singleton.mp hmem
      exact hk

namespace JoinSource

variable {s : EncodedTable w} (hcall : JoinCall t right keys aggSpec)
  (hs : JoinSource t right (t.joinColumns right keys aggSpec opt) s)
include hcall hs

theorem singleBit_valid : s.SingleBit encTableValid := by
  rw [singleBit_iff, hs.allRows]
  intro σ hσ
  rcases Multiset.mem_add.mp hσ with hleft | hright
  · obtain ⟨ρ, hρ, rfl⟩ := Multiset.mem_map.mp hleft
    have hkeep : keep (t.joinColumns right keys aggSpec opt) ρ encTableValid = ρ encTableValid :=
      if_pos (List.mem_append_right _ (by decide))
    rw [hkeep]
    exact singleBit_iff.mp hcall.valid_bit.1 ρ hρ
  · obtain ⟨ρ, hρ, rfl⟩ := Multiset.mem_map.mp hright
    rw [Function.update_of_ne (by decide)]
    exact singleBit_iff.mp hcall.valid_bit.2 ρ hρ

theorem singleBit_joinId : s.SingleBit encTableJoinId := by
  rw [singleBit_iff, hs.allRows]
  intro σ hσ
  rcases Multiset.mem_add.mp hσ with hleft | hright
  · obtain ⟨ρ, hρ, rfl⟩ := Multiset.mem_map.mp hleft
    have hkeep : keep (t.joinColumns right keys aggSpec opt) ρ encTableJoinId = ρ encTableJoinId :=
      if_pos (List.mem_append_right _ (by decide))
    rw [hkeep]
    exact Or.inl (row_eq_zero t hρ (hcall.internal _ (by decide)).1)
  · obtain ⟨ρ, _, rfl⟩ := Multiset.mem_map.mp hright
    exact Or.inr (Function.update_self _ _ _)

omit hcall in
theorem mem_schema {c : String} (hc : c ∈ t.schema ∨ c ∈ right.schema)
    (hcols : c ∈ t.joinColumns right keys aggSpec opt) : c ∈ s.schema :=
  (hs.schema c).mpr ⟨Or.inr hc, List.mem_append_left _ hcols⟩

theorem keys_mem : ∀ k ∈ encTableValid :: keys ++ [encTableJoinId], k ∈ s.schema ∧ isBShared k := by
  intro k hk
  rcases List.mem_append.mp hk with hk | hk
  · rcases List.mem_cons.mp hk with rfl | hk
    · exact ⟨s.valid_mem, by decide⟩
    · obtain ⟨hmem, hshared⟩ := hcall.keys_mem k hk
      exact ⟨hs.mem_schema hmem (by simp [joinColumns, hk]), hshared⟩
  · rw [List.mem_singleton.mp hk]
    exact ⟨(hs.schema _).mpr ⟨Or.inl rfl, List.mem_append_right _ (by decide)⟩, by decide⟩

theorem columns : ∀ a ∈ aggSpec, a.data ∈ s.schema ∧ a.result ∈ s.schema := by
  intro a ha
  have hdata : a.data ∈ aggSpec.map Aggregation.data := List.mem_map_of_mem ha
  have hresult : a.result ∈ aggSpec.map Aggregation.result := List.mem_map_of_mem ha
  obtain ⟨hmem_data, hmem_result⟩ := hcall.columns a ha
  refine ⟨hs.mem_schema hmem_data ?_, hs.mem_schema hmem_result ?_⟩
  · simp only [joinColumns, List.mem_append, hdata, or_true, true_or]
  · simp only [joinColumns, List.mem_append, hresult, or_true, true_or]

theorem notMem : encTableUniq ∉ s.schema ∧ encTableValidTemp ∉ s.schema := by
  have hall : ∀ c ∈ [encTableUniq, encTableValidTemp], c ∉ s.schema := by
    intro c hc hmem
    have hinner := hcall.internal c (List.mem_cons_of_mem _ hc)
    rcases ((hs.schema c).mp hmem).1 with rfl | h | h
    · exact absurd hc (by decide)
    · exact hinner.1 h
    · exact hinner.2 h
  exact ⟨hall _ (by decide), hall _ (by decide)⟩

/-- The scan of the sorted table. -/
theorem returns_scan {numParties : ℕ} {protocol : SortingProtocol} {m : EncodedTable w}
    (hparties : opt.rightOuter = true ∨ numParties ≠ 2)
    (hrows_le : t.rows + right.rows ≤ 2 ^ 30) (hanti : opt.anti = true → opt.rightOuter = true)
    (hsorted : s.SortedBy (encTableValid :: keys ++ [encTableJoinId]))
    (hm : MarkedJoin s (encTableValid :: keys) opt m) :
    Draws.Returns (aggregate numParties protocol m (encTableValid :: keys) (joinSpec aggSpec opt)
      joinAggregation) (JoinScan s keys aggSpec opt m) := by
  have hkeys := hs.keys_mem hcall
  have hcolumns := hs.columns hcall
  obtain ⟨huniq, htemp⟩ := hs.notMem hcall
  have hkey_temp : encTableValidTemp ∉ encTableValid :: keys ++ [encTableJoinId] := fun hmem =>
    htemp (hkeys _ hmem).1
  have hspec := separate_joinSpec hanti hcall.separate
    (fun hmem => hkey_temp (List.mem_append_left _ hmem)) fun hmem => by
      obtain ⟨a, ha, heq⟩ := List.mem_map.mp hmem
      exact htemp (heq ▸ (hcolumns a ha).2)
  have hmem : ∀ c, c ∈ s.schema → c ∈ m.schema := fun c hc => (hm.schema c).mpr (Or.inr hc)
  have hmem_keys : ∀ k ∈ encTableValid :: keys, k ∈ m.schema ∧ isBShared k := fun k hk =>
    ⟨hmem k (hkeys k (List.mem_append_left _ hk)).1, (hkeys k (List.mem_append_left _ hk)).2⟩
  have huniq_m : encTableUniq ∉ m.schema := by
    rw [hm.schema]
    rintro (heq | hmem)
    · exact validTemp_ne_uniq heq.symm
    · exact huniq hmem
  have hmem_columns : ∀ a ∈ joinSpec aggSpec opt, a.data ∈ m.schema ∧ a.result ∈ m.schema := by
    have htemp_m : encTableValidTemp ∈ m.schema := (hm.schema _).mpr (Or.inl rfl)
    intro a ha
    have hcases : a ∈ aggSpec ∨ a.data = encTableValidTemp ∧ a.result = encTableValidTemp := by
      rcases joinSpec_eq aggSpec hanti with heq | ⟨f, _, heq⟩ <;> rw [heq] at ha
      · exact Or.inl ha
      · refine (List.mem_append.mp ha).imp_right fun ha => ?_
        rw [List.mem_singleton.mp ha]
        exact ⟨rfl, rfl⟩
    rcases hcases with ha | ⟨hdata, hresult⟩
    · exact ⟨hmem _ (hcolumns a ha).1, hmem _ (hcolumns a ha).2⟩
    · exact ⟨hdata ▸ htemp_m, hresult ▸ htemp_m⟩
  have hsel : ∀ sel, joinAggregation.tableId = some sel → sel ∈ m.schema := by
    intro sel hsel
    obtain rfl : encTableJoinId = sel := Option.some.inj hsel
    exact hmem _ (hkeys _ (List.mem_append_right _ (List.mem_singleton.mpr rfl))).1
  have hrows : m.rows = t.rows + right.rows := hm.rows.trans hs.rows
  have hunused : joinAggregation.tableId = none ∨ numParties ≠ 2 ∨
      ∀ a ∈ joinSpec aggSpec opt, a.func.isCopy = true := Or.inr <|
    hparties.symm.imp_right (isCopy_of_mem_joinSpec hcall.copies)
  rw [aggregate, if_neg (by decide)]
  refine (returns_aggregateGroups hunused m (hrows ▸ hcall.rows_gt) (hrows ▸ hrows_le) rfl
    (List.cons_ne_nil _ _) hspec.typed hmem_keys hmem_columns hsel huniq_m).mono
      fun m' hm' => ?_
  have hscanned : Aggregated m (encTableValid :: keys) (joinSpec aggSpec opt) joinAggregation m' :=
    hm' ▸ aggregated_updateValid hcall.width.pos m (hrows ▸ Nat.zero_lt_of_lt hcall.rows_gt) rfl hspec
      List.mem_cons_self (fun k hk => (hmem_keys k hk).1) hmem_columns hsel huniq_m
  exact {
    width := hcall.width.one_lt
    rows_gt := hs.rows ▸ hcall.rows_gt
    valid_bit := hs.singleBit_valid hcall
    id_bit := hs.singleBit_joinId hcall
    sorted := hsorted
    temp_key := hkey_temp
    temp := htemp
    copies := hcall.copies
    columns := hcolumns
    separate := hcall.separate
    marked := hm
    scanned := hscanned }

end JoinSource

/-- The steps up to the aggregation. -/
theorem returns_markedConcat {numParties : ℕ} {protocol : SortingProtocol}
    (hparties : opt.rightOuter = true ∨ numParties ≠ 2) (hcall : JoinCall t right keys aggSpec)
    (hprotocol : protocol = .quicksort ∨ protocol = .radixsort) :
    Draws.Returns (markedConcat numParties protocol t right keys aggSpec opt) fun m =>
      ∃ s, JoinSource t right (t.joinColumns right keys aggSpec opt) s ∧
        s.SortedBy (encTableValid :: keys ++ [encTableJoinId]) ∧
        MarkedJoin s (encTableValid :: keys) opt m := by
  refine (returns_concatenate hcall opt).bind fun r hr => ?_
  have hn0 : 0 < t.rows + right.rows := Nat.zero_lt_of_lt hcall.rows_gt
  have hkeys := hr.keys_mem hcall
  refine (returns_sort_ascending _ (hr.rows ▸ hn0) (hr.rows ▸ hcall.rows_lt) hcall.width hprotocol
    (List.cons_ne_nil _ _) hcall.nodup (fun k hk => (hkeys k hk).1) (fun k hk => (hkeys k hk).2)
    ?_).bind fun s hs => ?_
  · rintro c _ (rfl | rfl)
    · exact hr.singleBit_valid hcall
    · exact hr.singleBit_joinId hcall
  obtain ⟨hsame, hsorted⟩ := hs
  have hsource := hr.of_sameRows hsame
  have hkeys_s := hsource.keys_mem hcall
  obtain ⟨huniq, htemp⟩ := hsource.notMem hcall
  refine (returns_markJoin hparties (List.cons_ne_nil _ _) (fun k hk => hkeys_s k (List.mem_append_left _ hk))
    huniq htemp).mono fun m hm => ⟨s, hsource, hsorted, ?_⟩
  exact hm ▸ markedJoin_withMarks hcall.width.pos (hsource.singleBit_valid hcall)
    (hsource.singleBit_joinId hcall) huniq

/-- The steps of a join up to the trim, from which the rest of the program goes on. -/
theorem returns_join {numParties : ℕ} {protocol : SortingProtocol}
    (hparties : opt.rightOuter = true ∨ numParties ≠ 2)
    (hcall : JoinCall t right keys aggSpec) (hrows : t.rows + right.rows ≤ 2 ^ 30)
    (hanti : opt.anti = true → opt.rightOuter = true)
    (hprotocol : protocol = .quicksort ∨ protocol = .radixsort) {post : EncodedTable w → Prop}
    (hpost : ∀ s m m', JoinSource t right (t.joinColumns right keys aggSpec opt) s →
      JoinScan s keys aggSpec opt m m' →
      Draws.Returns (trim numParties protocol t right m'.finishJoin opt) post) :
    Draws.Returns (join numParties protocol t right keys aggSpec opt) post := by
  refine (returns_markedConcat hparties hcall hprotocol).bind fun m hm => ?_
  obtain ⟨s, hsource, hsorted, hmarked⟩ := hm
  exact (hsource.returns_scan hcall hparties hrows hanti hsorted hmarked).bind fun m' hm' =>
    hpost s m m' hsource hm'

/-- The aggregation pads to a power of two, and the shifted 32-bit integer cannot hold more rows. -/
theorem join_aborts {numParties : ℕ} {protocol : SortingProtocol}
    (hparties : opt.rightOuter = true ∨ numParties ≠ 2)
    (hcall : JoinCall t right keys aggSpec) (hrows : 2 ^ 30 < t.rows + right.rows)
    (hprotocol : protocol = .quicksort ∨ protocol = .radixsort) (post : EncodedTable w → Prop) :
    ¬ Draws.Returns (join numParties protocol t right keys aggSpec opt) post := by
  refine not_returns_bind (returns_markedConcat hparties hcall hprotocol) fun m hm => ?_
  obtain ⟨s, hsource, -, hmarked⟩ := hm
  have hpadded : ¬ (0 < m.rows ∧ Nat.size (m.rows - 1) < 31) := by
    rw [size_lt_iff, hmarked.rows, hsource.rows]
    exact fun h => absurd h.2 (not_le.mpr hrows)
  rw [aggregate, if_neg (by decide), aggregateGroups, padPowerOfTwo, guard, if_neg hpadded]
  exact fun _ => rfl

end Sources

section Rows

/-- The rows with the keys of `ρ`. -/
def matching (keys : List String) (rows : Multiset (Row w)) (ρ : Row w) : Multiset (Row w) :=
  rows.filter fun σ => keyOf keys σ = keyOf keys ρ

/-- A row with the keys of `ρ` is the only one when no two rows share their keys. -/
theorem matching_eq_singleton {keys : List String} {rows : Multiset (Row w)} {ρ σ : Row w}
    (hunique : (rows.map (keyOf keys)).Nodup) (hσ : σ ∈ rows) (hkey : keyOf keys σ = keyOf keys ρ) :
    matching keys rows ρ = {σ} := by
  have hnodup := Multiset.Nodup.of_map _ hunique
  rw [matching, Multiset.Nodup.ext (hnodup.filter _) (Multiset.nodup_singleton σ)]
  intro τ
  rw [Multiset.mem_filter, Multiset.mem_singleton]
  constructor
  · rintro ⟨hτ, heq⟩
    exact Multiset.inj_on_of_nodup_map hunique τ hτ σ hσ (heq.trans hkey.symm)
  · rintro rfl
    exact ⟨hσ, hkey⟩

theorem bind_ite_singleton {ι β : Type} (I : Multiset ι) (p : ι → Bool) (f : ι → β) :
    (I.bind fun i => if p i then {f i} else 0) = (I.filter fun i => p i = true).map f := by
  induction I using Multiset.induction_on with
  | empty => rfl
  | cons i I ih =>
      rw [Multiset.cons_bind, ih]
      cases h : p i with
      | true => simp [h]
      | false => simp [h]

/-- Every right row with every left row that has its keys. -/
def innerRows (keys : List String) (aggSpec : AggregationSpec) (left right : Multiset (Row w)) :
    Multiset (Row w) :=
  right.bind fun ρ => (matching keys left ρ).map fun σ => copied aggSpec σ ρ

/-- The left rows without a right one. -/
def unmatchedRows (keys : List String) (aggSpec : AggregationSpec) (left right : Multiset (Row w)) :
    Multiset (Row w) :=
  (left.filter fun σ => ∀ ρ ∈ right, keyOf keys ρ ≠ keyOf keys σ).map fun σ => copied aggSpec σ σ

variable {t right s m m' : EncodedTable w} {keys : List String} {aggSpec : AggregationSpec}
  {opt : JoinOptions} {i : ℕ}

/-- The positions of the valid rows of one table. -/
def rowsOf (s : EncodedTable w) (side : Bool) : Multiset ℕ :=
  (Multiset.range s.rows).filter fun i => s.col encTableValid i ≠ 0 ∧ s.isRight i = side

theorem mem_rowsOf {side : Bool} : i ∈ s.rowsOf side ↔ s.Good i ∧ s.isRight i = side := by
  rw [rowsOf, Multiset.mem_filter, Multiset.mem_range, ← and_assoc]
  rfl

/-- A valid row of one table. -/
def OnSide (side : Bool) (ρ : Row w) : Prop :=
  ρ encTableValid ≠ 0 ∧ decide (ρ encTableJoinId ≠ 0) = side

instance (side : Bool) : DecidablePred (OnSide side : Row w → Prop) := fun ρ =>
  inferInstanceAs (Decidable (ρ encTableValid ≠ 0 ∧ decide (ρ encTableJoinId ≠ 0) = side))

theorem map_rowsOf (s : EncodedTable w) (side : Bool) :
    (s.rowsOf side).map s.row = s.allRows.filter (OnSide side) := by
  rw [allRows, Multiset.filter_map]
  rfl

theorem filter_eq_add (s : EncodedTable w) (p : ℕ → Bool) :
    ((Multiset.range s.rows).filter fun i => s.col encTableValid i ≠ 0 ∧ p i = true) =
      ((s.rowsOf true).filter fun i => p i = true) + (s.rowsOf false).filter fun i => p i = true := by
  have hsplit := Multiset.filter_add_not (fun i => s.isRight i = true)
    ((Multiset.range s.rows).filter fun i => s.col encTableValid i ≠ 0 ∧ p i = true)
  rw [← hsplit, rowsOf, rowsOf, Multiset.filter_filter, Multiset.filter_filter, Multiset.filter_filter,
    Multiset.filter_filter]
  refine congrArg₂ _ (Multiset.filter_congr fun i _ => ?_) (Multiset.filter_congr fun i _ => ?_)
  · tauto
  · rw [Bool.not_eq_true]
    tauto

namespace JoinSource

theorem keyOf_keep (ρ : Row w) :
    keyOf keys (keep (t.joinColumns right keys aggSpec opt) ρ) = keyOf keys ρ := by
  refine List.map_congr_left fun k hk => if_pos (List.mem_append_left _ ?_)
  simp [joinColumns, hk]

theorem copied_keep (ρ σ : Row w) :
    copied aggSpec (keep (t.joinColumns right keys aggSpec opt) ρ) σ = copied aggSpec ρ σ := by
  ext c : 1
  unfold copied
  cases hfind : aggSpec.find? fun a => a.result = c with
  | none => rfl
  | some a =>
      have hdata : a.data ∈ aggSpec.map Aggregation.data :=
        List.mem_map_of_mem (List.mem_of_find?_eq_some hfind)
      refine if_pos (List.mem_append_left _ ?_)
      simp only [joinColumns, List.mem_append, hdata, or_true, true_or]

variable (hcall : JoinCall t right keys aggSpec)
include hcall

theorem keyOf_update (ρ : Row w) (x : BitVec w) :
    keyOf keys (Function.update ρ encTableJoinId x) = keyOf keys ρ := by
  refine List.map_congr_left fun k hk => Function.update_of_ne (fun heq => ?_) _ _
  obtain ⟨ht, hr⟩ := hcall.internal encTableJoinId (by decide)
  exact (hcall.keys_mem k hk).1.elim (heq ▸ ht) (heq ▸ hr)

theorem copied_update (ρ σ : Row w) (x : BitVec w) :
    copied aggSpec (Function.update ρ encTableJoinId x) σ = copied aggSpec ρ σ := by
  ext c : 1
  unfold copied
  cases hfind : aggSpec.find? fun a => a.result = c with
  | none => rfl
  | some a =>
      obtain ⟨ht, hr⟩ := hcall.internal encTableJoinId (by decide)
      have hdata := (hcall.columns a (List.mem_of_find?_eq_some hfind)).1
      have hne : a.data ≠ encTableJoinId := by
        intro heq
        rw [heq] at hdata
        exact hdata.elim ht hr
      exact Function.update_of_ne hne _ _

theorem joinId_eq_zero {ρ : Row w} (hρ : ρ ∈ t.allRows ∨ ρ ∈ right.allRows) : ρ encTableJoinId = 0 :=
  hρ.elim (fun hρ => row_eq_zero t hρ (hcall.internal _ (by decide)).1)
    fun hρ => row_eq_zero right hρ (hcall.internal _ (by decide)).2

theorem onSide_keep {ρ : Row w} (hρ : ρ ∈ t.allRows) (side : Bool) :
    OnSide side (keep (t.joinColumns right keys aggSpec opt) ρ) ↔
      side = false ∧ ρ encTableValid ≠ 0 := by
  have hkeep : ∀ c ∈ reservedColumns, keep (t.joinColumns right keys aggSpec opt) ρ c = ρ c :=
    fun c hc => if_pos (List.mem_append_right _ hc)
  rw [OnSide, hkeep _ (by decide), hkeep _ (by decide), joinId_eq_zero hcall (Or.inl hρ), and_comm]
  cases side <;> simp

theorem onSide_update (ρ : Row w) (side : Bool) :
    OnSide side (Function.update ρ encTableJoinId 1) ↔ side = true ∧ ρ encTableValid ≠ 0 := by
  have hone : (1 : BitVec w) ≠ 0 := (bit_ne_zero hcall.width.pos (a := true)).mpr rfl
  rw [OnSide, Function.update_self, Function.update_of_ne (by decide), decide_eq_true hone, and_comm]
  exact and_congr_left fun _ => eq_comm

variable (hs : JoinSource t right (t.joinColumns right keys aggSpec opt) s)
include hs

theorem map_right : (s.rowsOf true).map s.row =
    right.validRows.map fun ρ => Function.update ρ encTableJoinId 1 := by
  have hleft : t.allRows.filter
      (OnSide true ∘ keep (t.joinColumns right keys aggSpec opt)) = 0 :=
    Multiset.filter_eq_nil.mpr fun ρ hρ hside =>
      Bool.false_ne_true ((onSide_keep hcall hρ true).mp hside).1.symm
  rw [map_rowsOf, hs.allRows, Multiset.filter_add, Multiset.filter_map, Multiset.filter_map, hleft,
    Multiset.map_zero, zero_add, validRows]
  exact congrArg _ (Multiset.filter_congr fun ρ _ =>
    (onSide_update hcall ρ true).trans (and_iff_right rfl))

theorem map_left : (s.rowsOf false).map s.row =
    t.validRows.map (keep (t.joinColumns right keys aggSpec opt)) := by
  have hright : right.allRows.filter
      (OnSide false ∘ fun ρ => Function.update ρ encTableJoinId 1) = 0 :=
    Multiset.filter_eq_nil.mpr fun ρ _ hside =>
      Bool.false_ne_true ((onSide_update hcall ρ false).mp hside).1
  rw [map_rowsOf, hs.allRows, Multiset.filter_add, Multiset.filter_map, Multiset.filter_map, hright,
    Multiset.map_zero, add_zero, validRows]
  exact congrArg _ (Multiset.filter_congr fun ρ hρ =>
    (onSide_keep hcall hρ false).trans (and_iff_right rfl))

/-- The right rows, as they stand in the sorted table. -/
theorem right_eq : right.validRows =
    (s.rowsOf true).map fun i => Function.update (s.row i) encTableJoinId 0 := by
  have hmap := congrArg (Multiset.map fun ρ => Function.update ρ encTableJoinId 0) (map_right hcall hs)
  rw [Multiset.map_map, Multiset.map_map] at hmap
  refine (hmap.trans ?_).symm
  conv_rhs => rw [← Multiset.map_id right.validRows]
  refine Multiset.map_congr rfl fun ρ hρ => ?_
  have hzero := joinId_eq_zero hcall (Or.inr (Multiset.mem_of_mem_filter hρ))
  rw [Function.comp_apply, Function.update_idem, id, ← hzero, Function.update_eq_self]

/-- Groups of valid rows are the rows with the same keys. -/
theorem groupOf_eq_iff {u : ℕ} (hu : s.Good u) (hi : s.Good i) :
    s.groupOf keys u = s.groupOf keys i ↔ keyOf keys (s.row u) = keyOf keys (s.row i) := by
  have hbit := hs.singleBit_valid hcall
  rw [groupOf, groupOf, keyOf_valid hbit keys hu.1 hu.2, keyOf_valid hbit keys hi.1 hi.2]
  exact List.cons_inj_right _

theorem met_left (hi : s.Good i) : Met (s.groupOf keys) s.isRight s.Good false i ↔
    ∃ ρ ∈ t.validRows, keyOf keys ρ = keyOf keys (s.row i) := by
  constructor
  · rintro ⟨u, hu, hside, hgroup⟩
    have hmem := Multiset.mem_map_of_mem s.row (mem_rowsOf.mpr ⟨hu, hside⟩)
    rw [map_left hcall hs] at hmem
    obtain ⟨ρ, hρ, hrow⟩ := Multiset.mem_map.mp hmem
    refine ⟨ρ, hρ, ?_⟩
    calc keyOf keys ρ = keyOf keys (keep (t.joinColumns right keys aggSpec opt) ρ) :=
          (keyOf_keep ρ).symm
      _ = keyOf keys (s.row u) := congrArg _ hrow
      _ = keyOf keys (s.row i) := (groupOf_eq_iff hcall hs hu hi).mp hgroup
  · rintro ⟨ρ, hρ, hkey⟩
    have hmem := Multiset.mem_map_of_mem (keep (t.joinColumns right keys aggSpec opt)) hρ
    rw [← map_left hcall hs] at hmem
    obtain ⟨u, hu, hrow⟩ := Multiset.mem_map.mp hmem
    obtain ⟨hgood, hside⟩ := mem_rowsOf.mp hu
    refine ⟨u, hgood, hside, (groupOf_eq_iff hcall hs hgood hi).mpr ?_⟩
    rw [hrow, keyOf_keep, hkey]

theorem met_right (hi : s.Good i) : Met (s.groupOf keys) s.isRight s.Good true i ↔
    ∃ ρ ∈ right.validRows, keyOf keys ρ = keyOf keys (s.row i) := by
  constructor
  · rintro ⟨u, hu, hside, hgroup⟩
    have hmem := Multiset.mem_map_of_mem s.row (mem_rowsOf.mpr ⟨hu, hside⟩)
    rw [map_right hcall hs] at hmem
    obtain ⟨ρ, hρ, hrow⟩ := Multiset.mem_map.mp hmem
    refine ⟨ρ, hρ, ?_⟩
    calc keyOf keys ρ = keyOf keys (Function.update ρ encTableJoinId 1) := (keyOf_update hcall ρ 1).symm
      _ = keyOf keys (s.row u) := congrArg _ hrow
      _ = keyOf keys (s.row i) := (groupOf_eq_iff hcall hs hu hi).mp hgroup
  · rintro ⟨ρ, hρ, hkey⟩
    have hmem := Multiset.mem_map_of_mem (fun ρ => Function.update ρ encTableJoinId (1 : BitVec w)) hρ
    rw [← map_right hcall hs] at hmem
    obtain ⟨u, hu, hrow⟩ := Multiset.mem_map.mp hmem
    obtain ⟨hgood, hside⟩ := mem_rowsOf.mp hu
    refine ⟨u, hgood, hside, (groupOf_eq_iff hcall hs hgood hi).mpr ?_⟩
    rw [hrow, keyOf_update hcall, hkey]

/-- Distinct keys of the left rows are distinct in the sorted table. -/
theorem uniqueLeft (hunique : (t.validRows.map (keyOf keys)).Nodup) :
    UniqueLeft (s.groupOf keys) s.isRight s.Good := by
  have hkeys : ((s.rowsOf false).map fun i => keyOf keys (s.row i)).Nodup := by
    have hmap := congrArg (Multiset.map (keyOf keys)) (map_left hcall hs)
    rw [Multiset.map_map, Multiset.map_map] at hmap
    change (Multiset.map (keyOf keys ∘ s.row) _).Nodup
    rw [hmap]
    have hcongr : t.validRows.map (keyOf keys ∘ keep (t.joinColumns right keys aggSpec opt)) =
        t.validRows.map (keyOf keys) := Multiset.map_congr rfl fun ρ _ => keyOf_keep ρ
    rwa [hcongr]
  intro u v hu hv hside_u hside_v hgroup
  exact Multiset.inj_on_of_nodup_map hkeys u (mem_rowsOf.mpr ⟨hu, hside_u⟩) v
    (mem_rowsOf.mpr ⟨hv, hside_v⟩) ((groupOf_eq_iff hcall hs hu hv).mp hgroup)

/-- The first row of a group, in the terms of the two tables. -/
theorem exists_first (hsided : Sided (s.groupOf keys) s.isRight s.rows s.Good) (hi : s.Good i)
    (ρ : Row w) : ∃ τ, keyOf keys τ = keyOf keys (s.row i) ∧
      copied aggSpec (s.row (firstOf (s.groupOf keys) i)) ρ = copied aggSpec τ ρ ∧
      (τ ∈ t.validRows ∨ τ ∈ right.validRows ∧
        ∀ σ ∈ t.validRows, keyOf keys σ ≠ keyOf keys (s.row i)) := by
  have hgood := hsided.good_firstOf hi
  have hkey := (groupOf_eq_iff hcall hs hgood hi).mp (key_firstOf _ i)
  cases hside : s.isRight (firstOf (s.groupOf keys) i) with
  | false =>
      have hmem := Multiset.mem_map_of_mem s.row (mem_rowsOf.mpr ⟨hgood, hside⟩)
      rw [map_left hcall hs] at hmem
      obtain ⟨τ, hτ, hrow⟩ := Multiset.mem_map.mp hmem
      refine ⟨τ, ?_, ?_, Or.inl hτ⟩
      · calc keyOf keys τ = keyOf keys (keep (t.joinColumns right keys aggSpec opt) τ) :=
              (keyOf_keep τ).symm
          _ = keyOf keys (s.row (firstOf (s.groupOf keys) i)) := congrArg _ hrow
          _ = keyOf keys (s.row i) := hkey
      · rw [← hrow, copied_keep]
  | true =>
      have hmem := mem_rowsOf.mpr ⟨hgood, hside⟩
      refine ⟨Function.update (s.row (firstOf (s.groupOf keys) i)) encTableJoinId 0, ?_, ?_,
        Or.inr ⟨?_, ?_⟩⟩
      · rw [keyOf_update hcall, hkey]
      · exact (copied_update hcall _ ρ 0).symm
      · rw [right_eq hcall hs]
        exact Multiset.mem_map_of_mem _ hmem
      · intro σ hσ heq
        have hmet := (hsided.side_firstOf hi).mpr ((met_left hcall hs hi).mpr ⟨σ, hσ, heq⟩)
        rw [hside] at hmet
        exact Bool.false_ne_true hmet.symm

end JoinSource

end Rows

section Joins

variable {t right s m m' : EncodedTable w} {keys : List String} {aggSpec : AggregationSpec}
  {opt : JoinOptions} {numParties : ℕ} {protocol : SortingProtocol}

/-- The right rows of an outer join: with the copied columns of a left row where there is one with the
keys, and of the first right row of the group otherwise. -/
def RightOuterRow (keys : List String) (aggSpec : AggregationSpec) (left right : Multiset (Row w))
    (ρ σ : Row w) : Prop :=
  ∃ τ, keyOf keys τ = keyOf keys ρ ∧ σ = copied aggSpec τ ρ ∧
    (τ ∈ left ∨ τ ∈ right ∧ ∀ υ ∈ left, keyOf keys υ ≠ keyOf keys ρ)

/-- Some row has the keys of `ρ`. -/
def Matches (keys : List String) (rows : Multiset (Row w)) (ρ : Row w) : Prop :=
  ∃ σ ∈ rows, keyOf keys σ = keyOf keys ρ

instance (keys : List String) (rows : Multiset (Row w)) : DecidablePred (Matches keys rows) :=
  fun _ => Multiset.decidableExistsMultiset

/-- Only left outer joins keep left rows. -/
theorem kept_of_left (hsided : Sided (s.groupOf keys) s.isRight s.rows s.Good)
    (hleft : opt.leftOuter = false) {i : ℕ} (hi : s.Good i) (hside : s.isRight i = false) :
    s.kept keys opt i = false := by
  rw [Bool.eq_false_iff]
  intro hkept
  cases hright : opt.rightOuter with
  | false =>
      rw [kept_inner hsided hleft hright hi, hside] at hkept
      exact Bool.false_ne_true hkept.1
  | true =>
      cases hanti : opt.anti with
      | false =>
          rw [kept_right hleft hright hanti hi, hside] at hkept
          exact Bool.false_ne_true hkept
      | true =>
          rw [kept_anti hsided hleft hright hanti hi] at hkept
          exact hkept ⟨i, hi, hside, rfl⟩

theorem filter_left (hsided : Sided (s.groupOf keys) s.isRight s.rows s.Good)
    (hleft : opt.leftOuter = false) :
    ((s.rowsOf false).filter fun i => s.kept keys opt i = true) = 0 := by
  refine Multiset.filter_eq_nil.mpr fun i hi hkept => ?_
  obtain ⟨hgood, hside⟩ := mem_rowsOf.mp hi
  rw [kept_of_left hsided hleft hgood hside] at hkept
  exact Bool.false_ne_true hkept

theorem JoinScan.validRows_split (hscan : JoinScan s keys aggSpec opt m m') :
    m'.finishJoin.validRows =
      ((s.rowsOf true).filter fun i => s.kept keys opt i = true).map m'.finishJoin.row +
        ((s.rowsOf false).filter fun i => s.kept keys opt i = true).map m'.finishJoin.row := by
  rw [hscan.validRows_eq, filter_eq_add, Multiset.map_add]

/-- Without left rows there are at most as many rows as on the right. -/
theorem JoinScan.card_le (hscan : JoinScan s keys aggSpec opt m m')
    (hcall : JoinCall t right keys aggSpec)
    (hs : JoinSource t right (t.joinColumns right keys aggSpec opt) s)
    (hleft : opt.leftOuter = false) : Multiset.card m'.finishJoin.validRows ≤ right.rows := by
  rw [hscan.validRows_split, filter_left hscan.sided hleft, Multiset.map_zero, add_zero,
    Multiset.card_map]
  calc Multiset.card ((s.rowsOf true).filter fun i => s.kept keys opt i = true)
      ≤ Multiset.card (s.rowsOf true) := Multiset.card_le_card (Multiset.filter_le _ _)
    _ = Multiset.card right.validRows := by rw [hs.right_eq hcall, Multiset.card_map]
    _ ≤ Multiset.card right.allRows := Multiset.card_le_card (Multiset.filter_le _ _)
    _ = right.rows := by rw [allRows, Multiset.card_map, Multiset.card_range]

/-- Trimmed or not, a join has the valid rows that the scan left. -/
theorem returns_joinRows (hparties : opt.rightOuter = true ∨ numParties ≠ 2)
    (hcall : JoinCall t right keys aggSpec)
    (hrows_le : t.rows + right.rows ≤ 2 ^ 30) (hanti : opt.anti = true → opt.rightOuter = true)
    (hprotocol : protocol = .quicksort ∨ protocol = .radixsort) {P : Multiset (Row w) → Prop}
    (hrows : ∀ s m m', JoinSource t right (t.joinColumns right keys aggSpec opt) s →
      JoinScan s keys aggSpec opt m m' → P m'.finishJoin.validRows) :
    Draws.Returns (join numParties protocol t right keys aggSpec opt) fun t' => P t'.validRows := by
  refine returns_join hparties hcall hrows_le hanti hprotocol fun s m m' hs hscan => ?_
  have hfinish := hscan.finish_rows.trans hs.rows
  have hbit : m'.finishJoin.SingleBit encTableValid := by
    intro i hi
    have hi' : i < s.rows := hscan.finish_rows ▸ hi
    rw [hscan.finish_valid hi', bit_of_singleBit (hscan.valid_bit i hi') hcall.width.pos, andB1_bit]
    cases s.col encTableValid i ≠ 0 && s.kept keys opt i
    · exact Or.inl rfl
    · exact Or.inr rfl
  refine (returns_trim hcall.width hprotocol (hfinish ▸ Nat.zero_lt_of_lt hcall.rows_gt)
    (hfinish ▸ hcall.rows_lt) hbit fun hleft => hscan.card_le hcall hs hleft).mono fun t' ht' => ?_
  rw [ht']
  exact hrows s m m' hs hscan

/-- The right rows with a left row of their keys. -/
theorem JoinScan.right_part (hscan : JoinScan s keys aggSpec opt m m')
    (hcall : JoinCall t right keys aggSpec)
    (hs : JoinSource t right (t.joinColumns right keys aggSpec opt) s)
    (hunique : (t.validRows.map (keyOf keys)).Nodup)
    (hkept : ∀ i, s.Good i → s.isRight i = true →
      (s.kept keys opt i = true ↔ Met (s.groupOf keys) s.isRight s.Good false i)) :
    ((s.rowsOf true).filter fun i => s.kept keys opt i = true).map m'.finishJoin.row =
      innerRows keys aggSpec t.validRows right.validRows := by
  rw [innerRows, hs.right_eq hcall, Multiset.bind_map, ← bind_ite_singleton]
  refine Multiset.bind_congr fun i hi => ?_
  obtain ⟨hgood, hside⟩ := mem_rowsOf.mp hi
  have hiff := (hkept i hgood hside).trans (hs.met_left hcall hgood)
  have hkey := JoinSource.keyOf_update hcall (s.row i) 0
  cases hcases : s.kept keys opt i with
  | true =>
      obtain ⟨σ, hσ, hσ_key⟩ := hiff.mp hcases
      obtain ⟨τ, hτ_key, hcopied, hτ⟩ := hs.exists_first hcall hscan.sided hgood
        (Function.update (s.row i) encTableJoinId 0)
      have hmem : τ ∈ t.validRows := hτ.elim id fun h => absurd hσ_key (h.2 σ hσ)
      rw [matching_eq_singleton hunique hmem (hτ_key.trans hkey.symm), Multiset.map_singleton,
        if_pos rfl, hscan.row_eq hgood hcases, hcopied]
  | false =>
      have hnone : matching keys t.validRows (Function.update (s.row i) encTableJoinId 0) = 0 := by
        refine Multiset.filter_eq_nil.mpr fun σ hσ hσ_key => ?_
        have htrue := hiff.mpr ⟨σ, hσ, hσ_key.trans hkey⟩
        rw [hcases] at htrue
        exact Bool.false_ne_true htrue
      rw [hnone, Multiset.map_zero, if_neg Bool.false_ne_true]

/-- The left rows, where all their columns are kept. -/
theorem JoinSource.left_eq (hs : JoinSource t right (t.joinColumns right keys aggSpec opt) s)
    (hcall : JoinCall t right keys aggSpec) (hleft : opt.leftOuter = true) :
    t.validRows = (s.rowsOf false).map s.row := by
  rw [hs.map_left hcall]
  conv_lhs => rw [← Multiset.map_id t.validRows]
  refine Multiset.map_congr rfl fun ρ hρ => (keep_eq_self fun c hc => ?_).symm
  refine row_eq_zero t (Multiset.mem_of_mem_filter hρ) fun hmem => hc ?_
  apply List.mem_append_left _
  simp [joinColumns, hleft, hmem]

/-- A left row is the first of its group. -/
theorem JoinScan.left_row_eq (hscan : JoinScan s keys aggSpec opt m m')
    (hcall : JoinCall t right keys aggSpec)
    (hs : JoinSource t right (t.joinColumns right keys aggSpec opt) s)
    (hunique : (t.validRows.map (keyOf keys)).Nodup) {i : ℕ} (hi : i ∈ s.rowsOf false)
    (hkept : s.kept keys opt i = true) :
    m'.finishJoin.row i = copied aggSpec (s.row i) (s.row i) := by
  obtain ⟨hgood, hside⟩ := mem_rowsOf.mp hi
  have hzero : s.row i encTableJoinId = 0 := by
    by_contra hne
    have hright : s.isRight i = true := decide_eq_true hne
    rw [hside] at hright
    exact Bool.false_ne_true hright
  rw [hscan.row_eq hgood hkept,
    hscan.sided.firstOf_eq_of_left (hs.uniqueLeft hcall hunique) hgood hside, ← hzero,
    Function.update_eq_self]

/-- The left rows without a right row of their keys. -/
theorem JoinScan.left_part (hscan : JoinScan s keys aggSpec opt m m')
    (hcall : JoinCall t right keys aggSpec)
    (hs : JoinSource t right (t.joinColumns right keys aggSpec opt) s)
    (hunique : (t.validRows.map (keyOf keys)).Nodup) (hleft : opt.leftOuter = true)
    (hkept : ∀ i, s.Good i → s.isRight i = false →
      (s.kept keys opt i = true ↔ ¬ Met (s.groupOf keys) s.isRight s.Good true i)) :
    ((s.rowsOf false).filter fun i => s.kept keys opt i = true).map m'.finishJoin.row =
      unmatchedRows keys aggSpec t.validRows right.validRows := by
  conv_rhs => rw [unmatchedRows, hs.left_eq hcall hleft, Multiset.filter_map, Multiset.map_map]
  have hfilter : ((s.rowsOf false).filter fun i => s.kept keys opt i = true) =
      (s.rowsOf false).filter
        ((fun σ => ∀ ρ ∈ right.validRows, keyOf keys ρ ≠ keyOf keys σ) ∘ s.row) := by
    refine Multiset.filter_congr fun i hi => ?_
    obtain ⟨hgood, hside⟩ := mem_rowsOf.mp hi
    rw [hkept i hgood hside, hs.met_right hcall hgood]
    push Not
    rfl
  rw [← hfilter]
  refine Multiset.map_congr rfl fun i hi => ?_
  obtain ⟨hi, hkept_i⟩ := Multiset.mem_filter.mp hi
  exact hscan.left_row_eq hcall hs hunique hi hkept_i

/-- Where all right rows are kept, there is a row for each of them. -/
theorem JoinScan.right_rel (hscan : JoinScan s keys aggSpec opt m m')
    (hcall : JoinCall t right keys aggSpec)
    (hs : JoinSource t right (t.joinColumns right keys aggSpec opt) s)
    (hkept : ∀ i, s.Good i → s.isRight i = true → s.kept keys opt i = true) :
    Multiset.Rel (RightOuterRow keys aggSpec t.validRows right.validRows) right.validRows
      (((s.rowsOf true).filter fun i => s.kept keys opt i = true).map m'.finishJoin.row) := by
  have hall : ((s.rowsOf true).filter fun i => s.kept keys opt i = true) = s.rowsOf true := by
    refine Multiset.filter_eq_self.mpr fun i hi => ?_
    obtain ⟨hgood, hside⟩ := mem_rowsOf.mp hi
    exact hkept i hgood hside
  rw [hall, hs.right_eq hcall, Multiset.rel_map]
  refine Multiset.rel_refl_of_refl_on fun i hi => ?_
  obtain ⟨hgood, hside⟩ := mem_rowsOf.mp hi
  have hkey := JoinSource.keyOf_update hcall (s.row i) 0
  obtain ⟨τ, hτ_key, hcopied, hτ⟩ := hs.exists_first hcall hscan.sided hgood
    (Function.update (s.row i) encTableJoinId 0)
  refine ⟨τ, hτ_key.trans hkey.symm, ?_, ?_⟩
  · rw [hscan.row_eq hgood (hkept i hgood hside), hcopied]
  · rw [← hs.right_eq hcall, hkey]
    exact hτ

/-- Where nothing is copied, the right rows that the scan keeps. -/
theorem JoinScan.right_filter (hscan : JoinScan s keys [] opt m m') (hcall : JoinCall t right keys [])
    (hs : JoinSource t right (t.joinColumns right keys [] opt) s) {p : Row w → Prop} [DecidablePred p]
    (hkept : ∀ i, s.Good i → s.isRight i = true →
      (s.kept keys opt i = true ↔ p (Function.update (s.row i) encTableJoinId 0))) :
    ((s.rowsOf true).filter fun i => s.kept keys opt i = true).map m'.finishJoin.row =
      right.validRows.filter p := by
  rw [hs.right_eq hcall, Multiset.filter_map]
  have hfilter : ((s.rowsOf true).filter fun i => s.kept keys opt i = true) =
      (s.rowsOf true).filter (p ∘ fun i => Function.update (s.row i) encTableJoinId 0) := by
    refine Multiset.filter_congr fun i hi => ?_
    obtain ⟨hgood, hside⟩ := mem_rowsOf.mp hi
    exact hkept i hgood hside
  rw [← hfilter]
  refine Multiset.map_congr rfl fun i hi => ?_
  obtain ⟨hi, hkept_i⟩ := Multiset.mem_filter.mp hi
  exact hscan.row_eq (mem_rowsOf.mp hi).1 hkept_i

theorem JoinSource.met_iff_matches (hs : JoinSource t right (t.joinColumns right keys aggSpec opt) s)
    (hcall : JoinCall t right keys aggSpec) {i : ℕ} (hi : s.Good i) :
    Met (s.groupOf keys) s.isRight s.Good false i ↔
      Matches keys t.validRows (Function.update (s.row i) encTableJoinId 0) := by
  rw [hs.met_left hcall hi, Matches, JoinSource.keyOf_update hcall]

/-- The valid rows of a table stay when the table is cut down to its own columns. -/
theorem validRows_project (t' : EncodedTable w) (t : EncodedTable w) {p : Row w → Prop}
    [DecidablePred p] (hrows : t'.validRows = t.validRows.filter p) :
    (t'.project t.schema).validRows = t.validRows.filter p := by
  have hvalid : ∀ ρ : Row w, keep t.schema ρ encTableValid = ρ encTableValid := fun ρ =>
    if_pos (List.mem_append_right _ (by decide))
  have hmap : (t'.project t.schema).validRows = t'.validRows.map (keep t.schema) := by
    rw [validRows, allRows_project, Multiset.filter_map]
    refine congrArg _ (Multiset.filter_congr fun ρ _ => ?_)
    rw [Function.comp_apply, hvalid]
  rw [hmap, hrows]
  conv_rhs => rw [← Multiset.map_id (t.validRows.filter p)]
  refine Multiset.map_congr rfl fun ρ hρ => keep_eq_self fun c hc => ?_
  have hmem : ρ ∈ t.allRows := Multiset.mem_of_mem_filter (Multiset.mem_of_mem_filter hρ)
  exact row_eq_zero t hmem fun hschema => hc (List.mem_append_left _ hschema)

end Joins

section Aborts

variable {t right : EncodedTable w} {keys : List String} {aggSpec : AggregationSpec}
  {opt : JoinOptions} {numParties : ℕ} {protocol : SortingProtocol}

/-- The right table brings a table id of its own. -/
theorem join_aborts_of_tableId (hright : encTableJoinId ∈ right.schema)
    (ht : encTableJoinId ∉ t.schema) (post : EncodedTable w → Prop) :
    ¬ Draws.Returns (join numParties protocol t right keys aggSpec opt) post := by
  intro hjoin
  have hmarked : Draws.Returns (markedConcat numParties protocol t right keys aggSpec opt) fun _ =>
      True := hjoin.of_bind
  have hconcat : Draws.Returns (t.concatenate right) fun _ => True := hmarked.of_bind
  exact ht (((returns_concatenate_iff false).mp hconcat).1 hright)

/-- A table that is sorted stays as it is. -/
theorem returns_sort_of_sorted {names : List String} (hn0 : 0 < t.rows) (hn : t.rows < 2 ^ 31)
    (hw : ShareWidth w) (hprotocol : protocol = .quicksort ∨ protocol = .radixsort) (hne : names ≠ [])
    (hnodup : names.Nodup) (hnames : ∀ c ∈ names, c ∈ t.schema ∧ isBShared c)
    (hbits : ∀ c ∈ names, c = encTableValid ∨ c = encTableJoinId → t.SingleBit c)
    (hsorted : t.SortedBy names) : Draws.Returns (sort numParties protocol t (ascending names))
      (· = t.rearranged (Equiv.refl _)) := by
  have hfst : ∀ s ∈ ascending names, s.1 ∈ names := by
    intro s hs
    rw [← ascending_fst names]
    exact List.mem_map_of_mem hs
  refine (returns_sort t hn0 hn hw hprotocol (List.map_eq_nil_iff.not.mpr hne)
    ((ascending_fst names).symm ▸ hnodup) (fun s hs => (hnames _ (hfst s hs)).1)
    (fun s hs => (hnames _ (hfst s hs)).2) fun s hs => hbits _ (hfst s hs)).mono fun t' ht' => ?_
  obtain ⟨τ, hτ, rfl⟩ := ht'
  have hrefl : StableSorts (specLt (t.sortColumns (ascending names))) (Equiv.refl _) := by
    intro i j
    rw [Equiv.refl_apply, Equiv.refl_apply, specLt_ascending, specLt_ascending]
    constructor
    · exact fun hij => Or.inr ⟨not_lt.mpr (hsorted i j hij.le j.isLt), hij⟩
    · rintro (hlt | ⟨-, hij⟩)
      · by_contra hnot
        exact absurd (hsorted j i (not_lt.mp hnot) i.isLt) (not_le.mpr hlt)
      · exact hij
  rw [hτ.unique hrefl]

end Aborts

section Examples

/-- One row with the key five. -/
def exampleLeft : EncodedTable 8 :=
  ofColumns 1 (fun _ => 1) [("[k]", fun _ => 5), ("[a]", fun _ => 1), ("[b]", fun _ => 2), ("[c]", 0)]

def exampleRight : EncodedTable 8 := ofColumns 1 (fun _ => 1) [("[k]", fun _ => 5)]

/-- With the table ids of an earlier concatenation. -/
def exampleTagged : EncodedTable 8 :=
  ofColumns 1 (fun _ => 1) [("[k]", fun _ => 5), (encTableJoinId, 0)]

/-- Invalid rows only. -/
def exampleLarge : EncodedTable 8 := ofColumns (2 ^ 30) 0 [("[k]", 0)]

/-- The second entry reads what the first one writes. -/
def exampleChain : AggregationSpec := [⟨"[a]", "[b]", .copyB⟩, ⟨"[b]", "[c]", .copyB⟩]

/-- The key column is written to. -/
def exampleKeyCopy : AggregationSpec := [⟨"[b]", "[k]", .copyB⟩]

theorem exampleLeft_unique : (exampleLeft.validRows.map (keyOf ["[k]"])).Nodup := by
  decide

theorem exampleLarge_unique : (exampleLarge.validRows.map (keyOf ["[k]"])).Nodup := by
  have hnone : exampleLarge.validRows = 0 := Multiset.filter_eq_nil.mpr fun ρ hρ hvalid => by
    obtain ⟨i, _, rfl⟩ := mem_allRows.mp hρ
    exact hvalid rfl
  rw [hnone]
  exact Multiset.nodup_zero

theorem exampleJoin_call : JoinCall exampleLeft exampleRight ["[k]"] [⟨"[a]", "[c]", .copyB⟩] where
  width := Or.inl rfl
  rows_gt := by decide
  rows_lt := by decide
  nodup := by decide
  keys_mem := by decide
  valid_bit := by unfold SingleBit; decide
  internal := by decide
  copies := by decide
  columns := by decide
  separate := ⟨by decide, by decide, by decide, ⟨List.pairwise_singleton _ _, by decide⟩, by decide⟩

theorem exampleSemi_call : JoinCall exampleLeft exampleRight ["[k]"] [] :=
  { exampleJoin_call with
    copies := by decide
    columns := by decide
    separate := ⟨by decide, by decide, by decide, ⟨List.Pairwise.nil, by decide⟩, by decide⟩ }

theorem exampleLarge_call : JoinCall exampleLarge exampleRight ["[k]"] [] where
  width := Or.inl rfl
  rows_gt := by decide
  rows_lt := by decide
  nodup := by decide
  keys_mem := by decide
  valid_bit := ⟨fun _ _ => Or.inl rfl, fun _ _ => Or.inr rfl⟩
  internal := by decide
  copies := by decide
  columns := by decide
  separate := ⟨by decide, by decide, by decide, ⟨List.Pairwise.nil, by decide⟩, by decide⟩

/-- The left row of the group is public, the bits of the other rows are masked in no share. -/
def exampleShares : Drawn where
  shuffles := fun _ n => Equiv.refl (Fin n)
  shares := fun _ _ i _ => if i = 0 then 1 else 2

/-- A run whose result has another value than all that satisfy `post`. -/
theorem not_returns_of_run {α β : Type} {prog : Draws α} {post : α → Prop} {d : Drawn} {f : α → β}
    {b : β} (hrun : ((prog.run d).map Prod.fst).map f = some b) (hpost : ∀ v, post v → f v ≠ b) :
    ¬ Draws.Returns prog post := by
  intro hreturns
  obtain ⟨v, s', hv, hv_post⟩ := hreturns d
  change prog d = _ at hv
  change ((prog d).map Prod.fst).map f = some b at hrun
  rw [hv] at hrun
  exact hpost v hv_post (Option.some.inj hrun)

/-- The rows of both example tables. -/
def exampleConcat (aggSpec : AggregationSpec) (opt : JoinOptions) : EncodedTable 8 :=
  (fill exampleLeft exampleRight false (target exampleLeft exampleRight 2)).project
    (exampleLeft.joinColumns exampleRight ["[k]"] aggSpec opt)

def exampleMarked (aggSpec : AggregationSpec) (opt : JoinOptions) : EncodedTable 8 :=
  ((exampleConcat aggSpec opt).rearranged (Equiv.refl _)).withMarks [encTableValid, "[k]"] opt

def exampleJoined (aggSpec : AggregationSpec) (opt : JoinOptions) : EncodedTable 8 :=
  let concat := (exampleMarked aggSpec opt).aggregated [encTableValid, "[k]"] (joinSpec aggSpec opt)
    joinAggregation
  (concat.updateValid (joinSpec aggSpec opt) joinAggregation).finishJoin

theorem exampleConcat_rows (aggSpec : AggregationSpec) (opt : JoinOptions) :
    (exampleConcat aggSpec opt).rows = 2 := rfl

theorem exampleMarked_rows (aggSpec : AggregationSpec) (opt : JoinOptions) :
    (exampleMarked aggSpec opt).rows = 2 := by
  rw [exampleMarked, withMarks, deleteColumns_rows, (markJoined_schema _ _ opt).2, withUniq_rows]
  rfl

theorem exampleConcat_sorted {aggSpec : AggregationSpec} {opt : JoinOptions}
    (hle : orderOf [encTableValid, "[k]", encTableJoinId] ((exampleConcat aggSpec opt).row 0) ≤
      orderOf [encTableValid, "[k]", encTableJoinId] ((exampleConcat aggSpec opt).row 1)) :
    (exampleConcat aggSpec opt).SortedBy [encTableValid, "[k]", encTableJoinId] := by
  intro i j hij hj
  have hrows : j < 2 := hj
  rcases Nat.lt_or_ge i j with hlt | hge
  · obtain rfl : i = 0 := by omega
    obtain rfl : j = 1 := by omega
    exact hle
  · rw [Nat.le_antisymm hij hge]

/-- What the steps of a join check on the example tables. -/
structure ExampleChecks (aggSpec : AggregationSpec) (opt : JoinOptions) : Prop where
  trim : opt.trimInvalid = false
  concat : ∀ c ∈ [encTableValid, "[k]", encTableJoinId],
    c ∈ (exampleConcat aggSpec opt).schema ∧ isBShared c
  bits : (exampleConcat aggSpec opt).SingleBit encTableValid ∧
    (exampleConcat aggSpec opt).SingleBit encTableJoinId
  order : orderOf [encTableValid, "[k]", encTableJoinId] ((exampleConcat aggSpec opt).row 0) ≤
    orderOf [encTableValid, "[k]", encTableJoinId] ((exampleConcat aggSpec opt).row 1)
  notMem : encTableUniq ∉ (exampleConcat aggSpec opt).schema ∧
    encTableValidTemp ∉ (exampleConcat aggSpec opt).schema
  typed : WellTyped (joinSpec aggSpec opt)
  columns : ∀ a ∈ joinSpec aggSpec opt, a.data ∈ (exampleMarked aggSpec opt).schema ∧
    a.result ∈ (exampleMarked aggSpec opt).schema
  marked : ∀ c ∈ [encTableValid, "[k]", encTableJoinId], c ∈ (exampleMarked aggSpec opt).schema
  uniq : encTableUniq ∉ (exampleMarked aggSpec opt).schema

/-- The join of the example tables, computed. -/
theorem exampleJoin_returns {aggSpec : AggregationSpec} {opt : JoinOptions}
    (h : ExampleChecks aggSpec opt) :
    Draws.Returns (join 3 .quicksort exampleLeft exampleRight ["[k]"] aggSpec opt)
      (· = exampleJoined aggSpec opt) := by
  have hconcatenate : Draws.Returns (exampleLeft.concatenate exampleRight)
      (· = fill exampleLeft exampleRight false (target exampleLeft exampleRight 2)) :=
    (returns_concatenate_iff false).mpr ⟨fun h => absurd h (by decide), by decide, rfl⟩
  have hmark : Draws.Returns
      (markedConcat 3 .quicksort exampleLeft exampleRight ["[k]"] aggSpec opt)
      (· = exampleMarked aggSpec opt) := by
    refine hconcatenate.bind fun r hr => ?_
    subst hr
    refine (returns_sort_of_sorted (t := exampleConcat aggSpec opt)
      (by rw [exampleConcat_rows]; decide) (by rw [exampleConcat_rows]; decide) (Or.inl rfl)
      (Or.inl rfl) (by decide) (by decide) h.concat ?_
      (exampleConcat_sorted h.order)).bind fun s hs => ?_
    · rintro c _ (rfl | rfl)
      · exact h.bits.1
      · exact h.bits.2
    · subst hs
      exact returns_markJoin (Or.inr (by decide)) (by decide)
        (fun k hk => h.concat k (List.mem_append_left _ hk)) h.notMem.1 h.notMem.2
  refine hmark.bind fun m hm => ?_
  subst hm
  rw [aggregate, if_neg (by decide)]
  refine (returns_aggregateGroups (Or.inr (Or.inl (by decide))) _ (by rw [exampleMarked_rows]; decide)
    (by rw [exampleMarked_rows]; decide) rfl (by decide) h.typed
    (fun k hk => ⟨h.marked k (List.mem_append_left _ hk), (h.concat k (List.mem_append_left _ hk)).2⟩)
    h.columns (fun sel hsel => ?_) h.uniq).bind fun m' hm' => ?_
  · obtain rfl : encTableJoinId = sel := Option.some.inj hsel
    exact h.marked _ (by decide)
  · dsimp only [trim]
    rw [h.trim, Bool.false_and, if_neg fun hand => absurd hand.1 Bool.false_ne_true, hm']
    exact Draws.Returns.pure rfl

/-- Whatever the join keeps, with both kinds of entries that interfere. -/
theorem example_checks (leftOuter rightOuter : Bool) :
    ∀ aggSpec ∈ [exampleChain, exampleKeyCopy],
      ExampleChecks aggSpec ⟨leftOuter, rightOuter, false, false⟩ := by
  have hconcat : ∀ aggSpec ∈ [exampleChain, exampleKeyCopy],
      let s := exampleConcat aggSpec ⟨leftOuter, rightOuter, false, false⟩
      (∀ c ∈ [encTableValid, "[k]", encTableJoinId], c ∈ s.schema ∧ isBShared c) ∧
        (s.SingleBit encTableValid ∧ s.SingleBit encTableJoinId) ∧
        orderOf [encTableValid, "[k]", encTableJoinId] (s.row 0) ≤
          orderOf [encTableValid, "[k]", encTableJoinId] (s.row 1) ∧
        encTableUniq ∉ s.schema ∧ encTableValidTemp ∉ s.schema := by
    unfold SingleBit
    cases leftOuter <;> cases rightOuter <;> decide
  have hmarked : ∀ aggSpec ∈ [exampleChain, exampleKeyCopy],
      let opt : JoinOptions := ⟨leftOuter, rightOuter, false, false⟩
      let m := exampleMarked aggSpec opt
      WellTyped (joinSpec aggSpec opt) ∧
        (∀ a ∈ joinSpec aggSpec opt, a.data ∈ m.schema ∧ a.result ∈ m.schema) ∧
        (∀ c ∈ [encTableValid, "[k]", encTableJoinId], c ∈ m.schema) ∧ encTableUniq ∉ m.schema := by
    cases leftOuter <;> cases rightOuter <;> decide
  intro aggSpec hmem
  obtain ⟨hnames, hbits, horder, hnot⟩ := hconcat aggSpec hmem
  obtain ⟨htyped, hcolumns, hkeys, huniq⟩ := hmarked aggSpec hmem
  exact ⟨rfl, hnames, hbits, horder, hnot, htyped, hcolumns, hkeys, huniq⟩

end Examples

section Results

variable {t right s m m' : EncodedTable w} {keys : List String} {aggSpec : AggregationSpec}
  {opt : JoinOptions} {numParties : ℕ} {protocol : SortingProtocol}

theorem leftOuterJoin_rows (hparties : numParties ≠ 2) (hcall : JoinCall t right keys aggSpec)
    (hrows : t.rows + right.rows ≤ 2 ^ 30) (hunique : (t.validRows.map (keyOf keys)).Nodup)
    (hprotocol : protocol = .quicksort ∨ protocol = .radixsort) (trimInvalid : Bool) :
    Draws.Returns
      (leftOuterJoin numParties protocol t right keys aggSpec { trimInvalid := trimInvalid })
      fun t' => t'.validRows = innerRows keys aggSpec t.validRows right.validRows +
        unmatchedRows keys aggSpec t.validRows right.validRows := by
  unfold leftOuterJoin
  refine returns_joinRows (P := (· = innerRows keys aggSpec t.validRows right.validRows +
    unmatchedRows keys aggSpec t.validRows right.validRows)) (Or.inr hparties) hcall hrows
    (fun hanti => absurd hanti Bool.false_ne_true) hprotocol fun s m m' hs hscan => ?_
  have hleft := hs.uniqueLeft hcall hunique
  rw [hscan.validRows_split]
  refine congrArg₂ _ (hscan.right_part hcall hs hunique fun i hi hside => ?_)
    (hscan.left_part hcall hs hunique rfl fun i hi hside => ?_)
  · rw [kept_left hscan.sided rfl rfl hleft hi, hside]
    simp
  · rw [kept_left hscan.sided rfl rfl hleft hi, hside]
    simp

theorem rightOuterJoin_rows (hcall : JoinCall t right keys aggSpec)
    (hrows : t.rows + right.rows ≤ 2 ^ 30)
    (hprotocol : protocol = .quicksort ∨ protocol = .radixsort) (trimInvalid : Bool) :
    Draws.Returns
      (rightOuterJoin numParties protocol t right keys aggSpec { trimInvalid := trimInvalid })
      fun t' => Multiset.Rel (RightOuterRow keys aggSpec t.validRows right.validRows) right.validRows
        t'.validRows := by
  unfold rightOuterJoin
  refine returns_joinRows (Or.inl rfl) hcall hrows (fun hanti => absurd hanti Bool.false_ne_true) hprotocol
    fun s m m' hs hscan => ?_
  rw [hscan.validRows_split, filter_left hscan.sided rfl, Multiset.map_zero, add_zero]
  exact hscan.right_rel hcall hs fun i hi hside => (kept_right rfl rfl rfl hi).mpr hside

/-- In a full outer join the left rows stay as they are, whether or not they have a right one. -/
theorem fullOuterJoin_rows (hcall : JoinCall t right keys aggSpec)
    (hrows : t.rows + right.rows ≤ 2 ^ 30) (hunique : (t.validRows.map (keyOf keys)).Nodup)
    (hprotocol : protocol = .quicksort ∨ protocol = .radixsort) (trimInvalid : Bool) :
    Draws.Returns
      (fullOuterJoin numParties protocol t right keys aggSpec { trimInvalid := trimInvalid })
      fun t' => ∃ rows, t'.validRows = rows + t.validRows.map (fun σ => copied aggSpec σ σ) ∧
        Multiset.Rel (RightOuterRow keys aggSpec t.validRows right.validRows) right.validRows rows := by
  unfold fullOuterJoin
  refine returns_joinRows (P := fun result => ∃ rows,
      result = rows + t.validRows.map (fun σ => copied aggSpec σ σ) ∧
        Multiset.Rel (RightOuterRow keys aggSpec t.validRows right.validRows) right.validRows rows)
    (Or.inl rfl) hcall hrows (fun hanti => absurd hanti Bool.false_ne_true) hprotocol
    fun s m m' hs hscan => ?_
  have hkept : ∀ i, s.Good i → s.kept keys
      { trimInvalid := trimInvalid, leftOuter := true, rightOuter := true } i = true :=
    fun i hi => kept_full rfl rfl rfl hi
  rw [hscan.validRows_split]
  refine ⟨_, congrArg _ ?_, hscan.right_rel hcall hs fun i hi _ => hkept i hi⟩
  rw [Multiset.filter_eq_self.mpr fun i hi => hkept i (mem_rowsOf.mp hi).1,
    hs.left_eq hcall rfl, Multiset.map_map]
  exact Multiset.map_congr rfl fun i hi =>
    hscan.left_row_eq hcall hs hunique hi (hkept i (mem_rowsOf.mp hi).1)

/-- A right row that has a left row gets the columns of one. -/
theorem exists_left_of_rel {left right rows : Multiset (Row w)} {σ : Row w}
    (hrel : Multiset.Rel (RightOuterRow keys aggSpec left right) right rows) (hσ : σ ∈ rows)
    (hmatch : ∀ ρ ∈ right, Matches keys left ρ) :
    ∃ τ ∈ left, ∃ ρ ∈ right, σ = copied aggSpec τ ρ := by
  obtain ⟨ρ, hρ, τ, -, hcopied, hτ⟩ := Multiset.exists_mem_of_rel_of_mem (Multiset.rel_flip.mpr hrel) hσ
  rcases hτ with hτ | ⟨-, hnone⟩
  · exact ⟨τ, hτ, ρ, hρ, hcopied⟩
  · obtain ⟨υ, hυ, hkey⟩ := hmatch ρ hρ
    exact absurd hkey (hnone υ hυ)

/-- The tables exchange their roles, and neither has to have unique keys. -/
theorem semiJoin_rows (hparties : numParties ≠ 2) (hcall : JoinCall right t keys [])
    (hrows_le : right.rows + t.rows ≤ 2 ^ 30)
    (hprotocol : protocol = .quicksort ∨ protocol = .radixsort) :
    Draws.Returns (semiJoin numParties protocol t right keys) fun t' =>
      t'.validRows = t.validRows.filter (Matches keys right.validRows) := by
  have hrows : Draws.Returns (innerJoin numParties protocol right t keys []) fun t' =>
      t'.validRows = t.validRows.filter (Matches keys right.validRows) := by
    unfold innerJoin
    refine returns_joinRows (P := (· = t.validRows.filter (Matches keys right.validRows)))
      (Or.inr hparties) hcall hrows_le (fun hanti => absurd hanti Bool.false_ne_true) hprotocol
        fun s m m' hs hscan => ?_
    rw [hscan.validRows_split, filter_left hscan.sided rfl, Multiset.map_zero, add_zero]
    refine hscan.right_filter hcall hs fun i hi hside => ?_
    rw [kept_inner hscan.sided rfl rfl hi, hside, eq_self, true_and, hs.met_iff_matches hcall hi]
  exact hrows.bind fun t' ht' => Draws.Returns.pure (validRows_project t' t ht')

theorem antiJoin_rows (hcall : JoinCall right t keys [])
    (hrows_le : right.rows + t.rows ≤ 2 ^ 30)
    (hprotocol : protocol = .quicksort ∨ protocol = .radixsort) :
    Draws.Returns (antiJoin numParties protocol t right keys) fun t' =>
      t'.validRows = t.validRows.filter fun ρ => ¬ Matches keys right.validRows ρ := by
  have hrows : Draws.Returns (rightOuterJoin numParties protocol right t keys [] { anti := true })
      fun t' => t'.validRows = t.validRows.filter fun ρ => ¬ Matches keys right.validRows ρ := by
    unfold rightOuterJoin
    refine returns_joinRows (P := (· = t.validRows.filter fun ρ => ¬ Matches keys right.validRows ρ))
      (Or.inl rfl) hcall hrows_le (fun _ => rfl) hprotocol fun s m m' hs hscan => ?_
    rw [hscan.validRows_split, filter_left hscan.sided rfl, Multiset.map_zero, add_zero]
    refine hscan.right_filter hcall hs fun i hi _ => ?_
    rw [kept_anti hscan.sided rfl rfl rfl hi, hs.met_iff_matches hcall hi]
  exact hrows.bind fun t' ht' => Draws.Returns.pure (validRows_project t' t ht')

end Results

end CryptDough.EncodedTable
