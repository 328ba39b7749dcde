import CryptDough.KeyOrder
import CryptDough.PairwiseSort

/-! Sorting a table with the network. The rows are numbered by an additional last key, for stability,
but in the share type of the table. -/

namespace CryptDough

open StableSort

variable {w : ℕ}

/-- `std::iota` on the share type. -/
def idColumn (w : ℕ) : Column w := fun i => BitVec.ofNat w i

namespace EncodedTable

/-- `sort` with the protocol `NETWORK`. A column that is listed twice is left out as in `sort`. -/
def networkSort (t : EncodedTable w) (spec : List (String × SortOrder)) (toBeSorted : List String) :
    Option (EncodedTable w) := do
  let names := spec.map Prod.fst
  guard (∀ c ∈ names, c ∈ t.schema)
  guard ((∀ c ∈ names, isBShared c) ∧ names.Nodup)
  let dataA := (t.dataColumns spec toBeSorted).filter fun c => !isBShared c
  let dataB := (t.dataColumns spec toBeSorted).filter fun c => isBShared c
  let sorted ← PairwiseSort.pairwiseSort (BitVec.ofNat 64 t.rows) (spec.map Prod.snd ++ [.asc])
    { keys := names.map t.col ++ [idColumn w], dataA := dataA.map t.col, dataB := dataB.map t.col }
  let contents := List.map fun (col : Column w) (i : Fin t.rows) => col i
  pure (t.assignAll (names.zip (contents sorted.keys) ++ dataA.zip (contents sorted.dataA) ++
    dataB.zip (contents sorted.dataB)))

end EncodedTable

/-- A table, the columns to sort it by, and the data columns to sort. -/
structure SortRequest (w : ℕ) where
  table : EncodedTable w
  spec : List (String × SortOrder)
  toBeSorted : List String
  rows_pos : 0 < table.rows
  rows_lt : table.rows < 2 ^ 64
  spec_ne : spec ≠ []
  nodup : (spec.map Prod.fst).Nodup
  mem : ∀ s ∈ spec, s.1 ∈ table.schema
  shared : ∀ s ∈ spec, isBShared s.1
  bits : ∀ s ∈ spec, s.1 = encTableValid ∨ s.1 = encTableJoinId → table.SingleBit s.1

namespace SortRequest

variable (q : SortRequest w)

abbrev rows : ℕ := q.table.rows

/-- The sorted columns when row `i` is moved to position `τ i`. -/
def arranged (τ : Equiv.Perm (Fin q.rows)) : EncodedTable w :=
  q.table.assignAll
    ((q.table.sortedNames q.spec q.toBeSorted).map fun c => (c, rearrange τ (q.table.vector c)))

/-- The network leaves what the stable sort by the specification leaves, as the other protocols do. -/
def Agrees : Prop :=
  ∃ t', q.table.networkSort q.spec q.toBeSorted = some t' ∧
    (∀ τ, StableSorts (specLt (q.table.sortColumns q.spec)) τ → t' = q.arranged τ) ∧
    ∀ numParties protocol, protocol = .quicksort ∨ protocol = .radixsort →
      Draws.Returns (EncodedTable.sortTo numParties protocol q.table q.spec q.toBeSorted) (· = t')

/-- What is sorted of a row. -/
def record (i : ℕ) : List (BitVec w) :=
  (q.table.sortedNames q.spec q.toBeSorted).map fun c => q.table.col c i

/-- What a row is sorted by. -/
def key (i : ℕ) : List ℤ := rowKey (q.spec.map Prod.snd) (q.record i)

/-- The rows in the order of their numbers in the share type. -/
def idOrder (w n : ℕ) : List ℕ :=
  (List.range n).mergeSort fun i j => (idColumn w i).toInt ≤ (idColumn w j).toInt

/-- Rows with the same keys and the same number are the same. -/
def Unambiguous : Prop :=
  ∀ i j, i < q.rows → j < q.rows → q.key i = q.key j → idColumn w i = idColumn w j →
    q.record i = q.record j

/-- Rows with the same keys are listed alike by their numbers as by their positions. -/
def IdsKeepOrder : Prop :=
  ∀ k, ((idOrder w q.rows).filter fun i => q.key i = k).map q.record =
    ((List.range q.rows).filter fun i => q.key i = k).map q.record

section Keys

/-- The keys stand first in a record. -/
theorem key_eq (i : ℕ) :
    q.key i = rowKey (q.spec.map Prod.snd) (q.spec.map fun s => q.table.col s.1 i) := by
  have hlen : (q.spec.map Prod.snd).length = (q.spec.map fun s => q.table.col s.1 i).length := by
    rw [List.length_map, List.length_map]
  have hrecord : q.record i = (q.spec.map fun s => q.table.col s.1 i) ++
      (((q.table.dataColumns q.spec q.toBeSorted).filter (fun c => !isBShared c)) ++
        (q.table.dataColumns q.spec q.toBeSorted).filter fun c => isBShared c).map
          fun c => q.table.col c i := by
    rw [record, EncodedTable.sortedNames, List.append_assoc, List.map_append, List.map_map]
    rfl
  have happend := rowKey_append hlen []
  rw [List.append_nil] at happend
  rw [key, hrecord, happend]
  exact List.append_nil _

theorem keyLt_iff {n : ℕ} (o : SortOrder) (v : Vec w n) (i j : Fin n) :
    keyLt o v i j ↔ sortKey o (v i) < sortKey o (v j) := by
  cases o with
  | asc => rfl
  | desc => exact neg_lt_neg_iff.symm

theorem lexRel_iff {n : ℕ} (o : SortOrder) (v : Vec w n) (lt : Fin n → Fin n → Prop) (i j : Fin n) :
    lexRel (keyLt o v) lt i j ↔
      sortKey o (v i) < sortKey o (v j) ∨ sortKey o (v i) = sortKey o (v j) ∧ lt i j := by
  rw [lexRel, keyLt_iff, keyLt_iff]
  rcases lt_trichotomy (sortKey o (v i)) (sortKey o (v j)) with hlt | heq | hlt
  · simp [hlt]
  · simp [heq]
  · simp [hlt, hlt.asymm, hlt.ne']

/-- The order of the specification is that of the keys. -/
theorem specLt_iff (i j : Fin q.rows) :
    specLt (q.table.sortColumns q.spec) i j ↔ q.key i < q.key j := by
  rw [key_eq, key_eq]
  induction q.spec with
  | nil => exact iff_of_false id (lt_irrefl _)
  | cons s spec ih =>
      apply (lexRel_iff s.2 (q.table.vector s.1) _ i j).trans
      change _ ∨ _ ∧ specLt (q.table.sortColumns spec) i j ↔ _
      rw [ih]
      exact (rowKey_cons_lt_iff s.2 _ _ _ _ _).symm

end Keys

section Network

open PairwiseSort

/-- The columns that the network is given. -/
def vectors : SortVectors w w where
  keys := (q.spec.map Prod.fst).map q.table.col ++ [idColumn w]
  dataA := ((q.table.dataColumns q.spec q.toBeSorted).filter fun c => !isBShared c).map q.table.col
  dataB := ((q.table.dataColumns q.spec q.toBeSorted).filter fun c => isBShared c).map q.table.col

/-- The directions, with that of the numbers. -/
abbrev order : List SortOrder := q.spec.map Prod.snd ++ [.asc]

theorem rowKeys_vectors (i : ℕ) :
    q.vectors.rowKeys q.order i = q.key i ++ [(idColumn w i).toInt] := by
  have hlen : (q.spec.map Prod.snd).length = (q.spec.map fun s => q.table.col s.1 i).length := by
    rw [List.length_map, List.length_map]
  have hkeys : q.vectors.keys.map (fun k => k i) =
      (q.spec.map fun s => q.table.col s.1 i) ++ [idColumn w i] := by
    rw [vectors, List.map_append, List.map_map, List.map_map]
    rfl
  rw [SortVectors.rowKeys, hkeys, rowKey_append hlen, key_eq]
  rfl

theorem toNat_rows : (BitVec.ofNat 64 q.rows).toNat = q.rows := by
  rw [BitVec.toNat_ofNat, Nat.mod_eq_of_lt q.rows_lt]

/-- What the sort makes of the sorted vectors. -/
def assigned (v : SortVectors w w) : EncodedTable w :=
  let contents := List.map fun (col : Column w) (i : Fin q.rows) => col i
  q.table.assignAll ((q.spec.map Prod.fst).zip (contents v.keys) ++
    ((q.table.dataColumns q.spec q.toBeSorted).filter fun c => !isBShared c).zip (contents v.dataA) ++
    ((q.table.dataColumns q.spec q.toBeSorted).filter fun c => isBShared c).zip (contents v.dataB))

theorem networkSort_eq_bind : q.table.networkSort q.spec q.toBeSorted =
    (pairwiseSort (BitVec.ofNat 64 q.rows) q.order q.vectors).map q.assigned := by
  have hmem : ∀ c ∈ q.spec.map Prod.fst, c ∈ q.table.schema := by
    intro c hc
    obtain ⟨s, hs, rfl⟩ := List.mem_map.mp hc
    exact q.mem s hs
  have hshared : ∀ c ∈ q.spec.map Prod.fst, isBShared c := by
    intro c hc
    obtain ⟨s, hs, rfl⟩ := List.mem_map.mp hc
    exact q.shared s hs
  rw [EncodedTable.networkSort, guard, if_pos hmem, guard, if_pos ⟨hshared, q.nodup⟩]
  rw [Option.map_eq_bind]
  rfl

theorem zip_contents_append {n : ℕ} (t : EncodedTable w) (σ : ℕ → ℕ) (names : List String)
    (rest : List (Column w)) :
    names.zip ((((names.map t.col).map (· ∘ σ)) ++ rest).map fun (col : Column w) (i : Fin n) => col i) =
      names.map fun c => (c, fun i : Fin n => t.col c (σ i)) := by
  induction names with
  | nil => rfl
  | cons c names ih =>
      rw [List.map_cons, List.map_cons, List.cons_append, List.map_cons, List.zip_cons_cons, ih]
      rfl

/-- The sorted columns with row `f p` at position `p`. -/
def placed (f : Fin q.rows → ℕ) : EncodedTable w :=
  q.table.assignAll ((q.table.sortedNames q.spec q.toBeSorted).map fun c =>
    (c, fun p => q.table.col c (f p)))

theorem assigned_permuted (σ : ℕ → ℕ) :
    q.assigned (q.vectors.permuted σ) = q.placed fun p => σ p := by
  have hkeys : (q.vectors.permuted σ).keys =
      ((q.spec.map Prod.fst).map q.table.col).map (· ∘ σ) ++ [idColumn w ∘ σ] := List.map_append
  have hdata := fun names => @zip_contents_append w q.rows q.table σ names []
  simp only [List.append_nil] at hdata
  rw [assigned, hkeys, zip_contents_append, placed, EncodedTable.sortedNames, List.map_append,
    List.map_append]
  simp only [SortVectors.permuted, vectors, hdata]

theorem arranged_eq_placed (τ : Equiv.Perm (Fin q.rows)) :
    q.arranged τ = q.placed fun p => τ.symm p := rfl

theorem mem_schema {c : String} (hc : c ∈ q.table.sortedNames q.spec q.toBeSorted) :
    c ∈ q.table.schema := by
  rw [EncodedTable.sortedNames, List.mem_append, List.mem_append, List.mem_filter, List.mem_filter,
    EncodedTable.dataColumns, List.mem_filter] at hc
  rcases hc with (hc | hc) | hc
  · obtain ⟨s, hs, rfl⟩ := List.mem_map.mp hc
    exact q.mem s hs
  · exact hc.1.1
  · exact hc.1.1

/-- The tables are told apart by the records at the positions. -/
theorem placed_eq_iff (f g : Fin q.rows → ℕ) :
    q.placed f = q.placed g ↔
      ((List.finRange q.rows).map f).map q.record = ((List.finRange q.rows).map g).map q.record := by
  rw [List.map_map, List.map_map]
  constructor
  · intro heq
    refine List.map_congr_left fun p _ => List.map_congr_left fun c hc => ?_
    have hcol := congrArg (fun t => EncodedTable.col t c p) heq
    simp only [placed] at hcol
    rw [EncodedTable.assignAll_col _ _ fun c p => q.table.col c (f p),
      EncodedTable.assignAll_col _ _ fun c p => q.table.col c (g p), if_pos ⟨hc, q.mem_schema hc⟩,
      if_pos ⟨hc, q.mem_schema hc⟩] at hcol
    simpa [EncodedTable.ofVec] using hcol
  · intro heq
    rw [placed, placed]
    congr 1
    refine List.map_congr_left fun c hc => Prod.ext rfl (funext fun p => ?_)
    have hrecord : q.record (f p) = q.record (g p) :=
      List.map_inj_left.mp heq p (List.mem_finRange p)
    exact List.map_inj_left.mp hrecord c hc

end Network

section Ranks

/-- All rows, in the order of their keys and then of their ranks. -/
structure RanksBy (rank : ℕ → ℤ) (l : List ℕ) : Prop where
  perm : l.Perm (List.range q.rows)
  ordered : l.Pairwise fun i j => q.key i < q.key j ∨ q.key i = q.key j ∧ rank i ≤ rank j

variable {q} {rank : ℕ → ℤ} {l m : List ℕ}

theorem RanksBy.lt (hl : q.RanksBy rank l) {i : ℕ} (hi : i ∈ l) : i < q.rows :=
  List.mem_range.mp (hl.perm.mem_iff.mp hi)

theorem RanksBy.key_le (hl : q.RanksBy rank l) : l.Pairwise fun i j => q.key i ≤ q.key j :=
  hl.ordered.imp fun h => h.elim le_of_lt fun h => h.1.le

/-- Among equal keys the rows stand by their ranks. -/
theorem RanksBy.filter_map (hl : q.RanksBy rank l) (hm : m.Perm (List.range q.rows))
    (hrank : m.Pairwise fun i j => rank i ≤ rank j)
    (hsame : ∀ i j, i < q.rows → j < q.rows → q.key i = q.key j → rank i = rank j →
      q.record i = q.record j) (k : List ℤ) :
    (l.filter fun i => q.key i = k).map q.record = (m.filter fun i => q.key i = k).map q.record := by
  have hkey : ∀ i ∈ l.filter (fun i => q.key i = k), i ∈ l ∧ q.key i = k := fun i hi =>
    ⟨(List.mem_filter.mp hi).1, of_decide_eq_true (List.mem_filter.mp hi).2⟩
  refine KeyOrder.map_eq_of_perm (f := rank) ((hl.perm.trans hm.symm).filter _) ?_ (hrank.filter _) ?_
  · refine (hl.ordered.filter _).imp_of_mem fun {i j} hi hj h => ?_
    have heq : q.key i = q.key j := (hkey i hi).2.trans (hkey j hj).2.symm
    rw [heq] at h
    exact (h.resolve_left (lt_irrefl _)).2
  · intro i hi j hj hij
    exact hsame i j (hl.lt (hkey i hi).1) (hl.lt (hkey j hj).1)
      ((hkey i hi).2.trans (hkey j hj).2.symm) hij

/-- The stable order is found key by key. -/
theorem RanksBy.map_record_iff (hl : q.RanksBy rank l) (hm : q.RanksBy (fun i => i) m) :
    l.map q.record = m.map q.record ↔ ∀ k,
      (l.filter fun i => q.key i = k).map q.record =
        ((List.range q.rows).filter fun i => q.key i = k).map q.record := by
  have hstable := fun k => hm.filter_map (List.Perm.refl _)
    (List.pairwise_lt_range.imp fun h => Int.ofNat_le.mpr h.le)
    (fun i j _ _ _ hij => by rw [Int.ofNat_inj.mp hij]) k
  refine (@KeyOrder.map_eq_map_iff ℕ (List (BitVec w)) (List ℤ) _ q.key l m _ q.record
    (rowKey (q.spec.map Prod.snd)) (fun _ => rfl) hl.key_le hm.key_le).trans ?_
  exact forall_congr' fun k => by rw [hstable]

/-- The number of a row in the share type. -/
def idRank (w : ℕ) (i : ℕ) : ℤ := (idColumn w i).toInt

theorem idOrder_perm (w n : ℕ) : (idOrder w n).Perm (List.range n) := List.mergeSort_perm _ _

theorem idOrder_pairwise (w n : ℕ) : (idOrder w n).Pairwise fun i j => idRank w i ≤ idRank w j := by
  have hsorted := @List.pairwise_mergeSort ℕ (fun i j => decide (idRank w i ≤ idRank w j))
    (fun i j k => by simpa using le_trans) (fun i j => by simpa using le_total _ _) (List.range n)
  exact hsorted.imp fun h => of_decide_eq_true h

theorem RanksBy.map_record_iff_idsKeepOrder (hl : q.RanksBy (idRank w) l)
    (hm : q.RanksBy (fun i => i) m) (hq : q.Unambiguous) :
    l.map q.record = m.map q.record ↔ q.IdsKeepOrder := by
  have hids := fun k => hl.filter_map (idOrder_perm w q.rows) (idOrder_pairwise w q.rows)
    (fun i j hi hj hkey hid => hq i j hi hj hkey (BitVec.toInt_inj.mp hid)) k
  rw [hl.map_record_iff hm]
  exact forall_congr' fun k => by rw [hids]

end Ranks

section Agreement

open PairwiseSort

theorem map_perm_range {n : ℕ} (σ : Equiv.Perm ℕ) (hfix : ∀ p, n ≤ p → σ p = p) :
    ((List.finRange n).map fun p : Fin n => σ p).Perm (List.range n) := by
  have hmap : (List.finRange n).map (fun p : Fin n => σ p) = (List.range n).map σ := by
    rw [← List.map_coe_finRange_eq_range, List.map_map]
    rfl
  rw [hmap, List.perm_ext_iff_of_nodup (List.nodup_range.map σ.injective) List.nodup_range]
  intro i
  rw [List.mem_map, List.mem_range]
  constructor
  · rintro ⟨p, hp, rfl⟩
    by_contra hge
    have hp' := List.mem_range.mp hp
    rw [σ.injective (hfix _ (not_lt.mp hge))] at hge
    exact hge hp'
  · intro hi
    refine ⟨σ.symm i, List.mem_range.mpr ?_, σ.apply_symm_apply i⟩
    by_contra hge
    have heq := hfix _ (not_lt.mp hge)
    rw [σ.apply_symm_apply] at heq
    rw [← heq] at hge
    exact hge hi

/-- The network orders the rows by the keys and the numbers. -/
theorem networkSort_ranks (hw : 0 < w) (hn : q.rows ≤ 2 ^ 30) :
    ∃ f : Fin q.rows → ℕ, q.table.networkSort q.spec q.toBeSorted = some (q.placed f) ∧
      q.RanksBy (idRank w) ((List.finRange q.rows).map f) := by
  have hlen : q.vectors.keys.length = q.order.length := by simp [vectors]
  have hkeys : q.vectors.keys ≠ [] := by simp [vectors]
  have hrows := q.toNat_rows
  obtain ⟨v, hsort, hordered, σ, hfix, rfl⟩ := pairwiseSort_sorts hw hw (by rw [hrows]; exact q.rows_pos)
    (by rw [hrows]; exact hn) hkeys hlen
  rw [hrows] at hordered hfix
  refine ⟨fun p => σ p, ?_, map_perm_range σ hfix, ?_⟩
  · rw [networkSort_eq_bind, hsort, Option.map_some, assigned_permuted]
  · rw [List.pairwise_map]
    refine (List.pairwise_lt_finRange q.rows).imp fun {i j} hij => ?_
    have hle := hordered i j (Fin.lt_def.mp hij).le j.isLt
    simp only [SortVectors.rowKeys_permuted, Function.comp_apply, rowKeys_vectors] at hle
    refine (KeyOrder.append_singleton_le_iff ?_ _ _).mp hle
    rw [key_eq, key_eq, rowKey, rowKey]
    simp

/-- The stable sort orders them by the keys and the positions. -/
theorem stable_ranks {τ : Equiv.Perm (Fin q.rows)}
    (hτ : StableSorts (specLt (q.table.sortColumns q.spec)) τ) :
    q.RanksBy (fun i => i) ((List.finRange q.rows).map fun p => (τ.symm p : ℕ)) where
  perm := by
    have hperm := (Equiv.Perm.map_finRange_perm τ.symm).map Fin.val
    rwa [List.map_map, List.map_coe_finRange_eq_range] at hperm
  ordered := by
    rw [List.pairwise_map]
    refine (List.pairwise_lt_finRange q.rows).imp fun {i j} hij => ?_
    have hsorts := (hτ (τ.symm i) (τ.symm j)).mp (by simpa using hij)
    rw [specLt_iff, specLt_iff] at hsorts
    rcases hsorts with hlt | ⟨hnot, hpos⟩
    · exact .inl hlt
    · rcases lt_or_eq_of_le (not_lt.mp hnot) with hlt | heq
      · exact .inl hlt
      · exact .inr ⟨heq, Int.ofNat_le.mpr (Fin.lt_def.mp hpos).le⟩

/-- The other protocols sort stably. -/
theorem exists_stable (hw : ShareWidth w) (hn : q.rows < 2 ^ 31) :
    ∃ τ, StableSorts (specLt (q.table.sortColumns q.spec)) τ ∧
      ∀ numParties protocol, protocol = .quicksort ∨ protocol = .radixsort →
        Draws.Returns (EncodedTable.sortTo numParties protocol q.table q.spec q.toBeSorted)
          (· = q.arranged τ) := by
  have hreturns := fun numParties protocol hprotocol =>
    @EncodedTable.returns_sortTo w numParties protocol q.table q.rows_pos hn hw hprotocol q.spec q.spec_ne
      q.nodup q.mem q.shared q.bits q.toBeSorted
  obtain ⟨_, _, _, τ, hτ, _⟩ := hreturns 2 .quicksort (.inl rfl) default
  refine ⟨τ, hτ, fun numParties protocol hprotocol => (hreturns numParties protocol hprotocol).mono ?_⟩
  rintro t' ⟨τ', hτ', rfl⟩
  rw [hτ'.unique hτ]
  rfl

theorem agrees_iff_arranged (hw : ShareWidth w) (hn : q.rows < 2 ^ 31) {t' : EncodedTable w}
    (hnetwork : q.table.networkSort q.spec q.toBeSorted = some t') {τ : Equiv.Perm (Fin q.rows)}
    (hτ : StableSorts (specLt (q.table.sortColumns q.spec)) τ) :
    q.Agrees ↔ t' = q.arranged τ := by
  constructor
  · rintro ⟨t, ht, hstable, -⟩
    rw [hnetwork] at ht
    rw [Option.some.inj ht, hstable τ hτ]
  · rintro rfl
    obtain ⟨τ', hτ', hothers⟩ := q.exists_stable hw hn
    obtain rfl := hτ.unique hτ'
    exact ⟨q.arranged τ, hnetwork, fun τ' hτ' => by rw [hτ'.unique hτ], hothers⟩

theorem not_agrees (hn : ¬ q.rows ≤ 2 ^ 30) : ¬ q.Agrees := by
  rintro ⟨t', hnetwork, -⟩
  have hrows := q.toNat_rows
  rw [networkSort_eq_bind, pairwiseSort_eq_none (by rw [hrows]; exact q.rows_pos) (by rwa [hrows])]
    at hnetwork
  exact Option.some_ne_none t' hnetwork.symm

/-- Where the numbers tell the rows apart, the network agrees if they are in the order of the rows. -/
theorem agrees_iff (hw : ShareWidth w) (hq : q.Unambiguous) :
    q.Agrees ↔ q.rows ≤ 2 ^ 30 ∧ q.IdsKeepOrder := by
  by_cases hn : q.rows ≤ 2 ^ 30
  · obtain ⟨f, hnetwork, hranks⟩ := q.networkSort_ranks hw.pos hn
    obtain ⟨τ, hτ, -⟩ := q.exists_stable hw (by omega)
    rw [q.agrees_iff_arranged hw (by omega) hnetwork hτ, arranged_eq_placed, placed_eq_iff,
      hranks.map_record_iff_idsKeepOrder (q.stable_ranks hτ) hq, and_iff_right hn]
  · exact iff_of_false (q.not_agrees hn) fun h => hn h.1

end Agreement

section Sizes

variable {n : ℕ}

theorem idRank_of_lt {i : ℕ} (hi : i < 2 ^ (w - 1)) (hw : 0 < w) : idRank w i = i := by
  have hpow : 2 ^ w = 2 * 2 ^ (w - 1) := by rw [← pow_succ', Nat.sub_add_cancel hw]
  have htoNat : (BitVec.ofNat w i).toNat = i := by
    rw [BitVec.toNat_ofNat, Nat.mod_eq_of_lt (by omega)]
  rw [idRank, idColumn, BitVec.toInt_eq_toNat_of_lt (by rw [htoNat]; omega), htoNat]

/-- The first number that is negative. -/
theorem idRank_half (hw : 0 < w) : idRank w (2 ^ (w - 1)) < 0 := by
  have hpow : 2 ^ w = 2 * 2 ^ (w - 1) := by rw [← pow_succ', Nat.sub_add_cancel hw]
  have hpos := Nat.two_pow_pos (w - 1)
  have htoNat : (BitVec.ofNat w (2 ^ (w - 1))).toNat = 2 ^ (w - 1) := by
    rw [BitVec.toNat_ofNat, Nat.mod_eq_of_lt (by omega)]
  rw [idRank, idColumn, BitVec.toInt_eq_toNat_cond, htoNat, if_neg (by omega)]
  omega

/-- As long as the share type can count the rows, all is well. -/
theorem unambiguous_of_rows (hw : 0 < w) (hn : q.rows ≤ 2 ^ (w - 1)) : q.Unambiguous := by
  intro i j hi hj _ hid
  have hrank : idRank w i = idRank w j := congrArg BitVec.toInt hid
  rw [idRank_of_lt (by omega) hw, idRank_of_lt (by omega) hw] at hrank
  rw [Int.ofNat_inj.mp hrank]

theorem idsKeepOrder_of_rows (hw : 0 < w) (hn : q.rows ≤ 2 ^ (w - 1)) : q.IdsKeepOrder := by
  have horder : idOrder w q.rows = List.range q.rows := by
    apply List.mergeSort_of_pairwise
    refine List.pairwise_lt_range.imp_of_mem fun {i j} hi hj hij => decide_eq_true ?_
    change idRank w i ≤ idRank w j
    have hi' := List.mem_range.mp hi
    have hj' := List.mem_range.mp hj
    rw [idRank_of_lt (by omega) hw, idRank_of_lt (by omega) hw]
    exact Int.ofNat_le.mpr hij.le
  intro k
  rw [horder]

/-- Rows that all have the same key, the first of them marked. -/
def marked (w n : ℕ) (hn0 : 0 < n) (hn : n < 2 ^ 64) : SortRequest w where
  table := EncodedTable.ofColumns n 0 [("[K]", 0), ("[D]", fun i => if i = 0 then 1 else 0)]
  spec := [("[K]", .asc)]
  toBeSorted := ["[D]"]
  rows_pos := hn0
  rows_lt := hn
  spec_ne := List.cons_ne_nil _ _
  nodup := List.nodup_singleton _
  mem := by
    intro s hs
    obtain rfl := List.mem_singleton.mp hs
    change "[K]" ∈ ["[K]", "[D]"].dedup.insert encTableValid
    decide
  shared := by
    intro s hs
    obtain rfl := List.mem_singleton.mp hs
    decide
  bits := by
    intro s hs hname
    obtain rfl := List.mem_singleton.mp hs
    exact absurd hname (by decide)

theorem marked_key (hn0 : 0 < n) (hn : n < 2 ^ 64) (i j : ℕ) :
    (marked w n hn0 hn).key i = (marked w n hn0 hn).key j := by
  rw [key_eq, key_eq]
  rfl

/-- The mark tells the first row from the others. -/
theorem marked_record (hw : 0 < w) (hn0 : 0 < n) (hn : n < 2 ^ 64) {i : ℕ}
    (heq : (marked w n hn0 hn).record i = (marked w n hn0 hn).record 0) : i = 0 := by
  have hname : "[D]" ∈ (marked w n hn0 hn).table.sortedNames (marked w n hn0 hn).spec
      (marked w n hn0 hn).toBeSorted := by
    refine List.mem_append_right _ (List.mem_filter.mpr ⟨List.mem_filter.mpr ⟨?_, ?_⟩, by decide⟩)
    · change "[D]" ∈ ["[K]", "[D]"].dedup.insert encTableValid
      decide
    · change decide ("[D]" ∉ ["[K]"] ∧ "[D]" ∈ ["[D]"]) = true
      decide
  have hmark := List.map_inj_left.mp heq "[D]" hname
  by_contra hne
  have hcol : ∀ j, (marked w n hn0 hn).table.col "[D]" j = if j = 0 then 1 else 0 := fun j => rfl
  rw [hcol, hcol, if_neg hne, if_pos rfl] at hmark
  exact (Opened.bit_ne_zero hw (a := true)).mpr rfl hmark.symm

/-- Beyond what the share type counts, a row with a negative number comes first. -/
theorem marked_not_agrees (hw : ShareWidth w) (hn0 : 0 < n) (hn : n < 2 ^ 64) (hhalf : 2 ^ (w - 1) < n) :
    ¬ (marked w n hn0 hn).Agrees := by
  by_cases hrows : n ≤ 2 ^ 30
  · obtain ⟨f, hnetwork, hranks⟩ := (marked w n hn0 hn).networkSort_ranks hw.pos hrows
    have hrows' : (marked w n hn0 hn).rows < 2 ^ 31 := lt_of_le_of_lt hrows (by decide)
    obtain ⟨τ, hτ, -⟩ := (marked w n hn0 hn).exists_stable hw hrows'
    rw [agrees_iff_arranged _ hw hrows' hnetwork hτ, arranged_eq_placed, placed_eq_iff,
      hranks.map_record_iff (stable_ranks _ hτ)]
    intro hlists
    have hall : ∀ l : List ℕ, l.filter (fun i => (marked w n hn0 hn).key i = (marked w n hn0 hn).key 0) =
        l := fun l => List.filter_eq_self.mpr fun i _ => decide_eq_true (marked_key hn0 hn i 0)
    have hrecords := hlists ((marked w n hn0 hn).key 0)
    rw [hall, hall] at hrecords
    generalize (List.finRange (marked w n hn0 hn).rows).map f = l at hranks hrecords
    have hhalf_mem : 2 ^ (w - 1) ∈ l := hranks.perm.mem_iff.mpr (List.mem_range.mpr hhalf)
    cases l with
    | nil => exact List.not_mem_nil hhalf_mem
    | cons i l =>
        -- the record of the first row
        obtain ⟨m, rfl⟩ := Nat.exists_eq_succ_of_ne_zero hn0.ne'
        have hrange : List.range (marked w (m + 1) hn0 hn).rows = 0 :: List.range' 1 m :=
          List.range_eq_range'
        rw [hrange] at hrecords
        obtain rfl := marked_record hw.pos hn0 hn (List.cons.inj hrecords).1
        have hrest : 2 ^ (w - 1) ∈ l :=
          (List.mem_cons.mp hhalf_mem).resolve_left (Nat.two_pow_pos (w - 1)).ne'
        rcases (List.pairwise_cons.mp hranks.ordered).1 _ hrest with hlt | ⟨-, hle⟩
        · rw [marked_key hn0 hn 0 (2 ^ (w - 1))] at hlt
          exact lt_irrefl _ hlt
        · rw [idRank_of_lt (Nat.two_pow_pos _) hw.pos] at hle
          exact absurd (idRank_half hw.pos) (not_lt.mpr hle)
  · exact not_agrees _ hrows

end Sizes

end SortRequest

end CryptDough
