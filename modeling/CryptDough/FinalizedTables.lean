import CryptDough.QueryTables
import Mathlib.Data.String.Basic
import Mathlib.GroupTheory.Perm.Basic
import Mathlib.Probability.Distributions.Uniform

/-! What is opened at the end of a query: the rows in a random order, the invalid ones masked. In a
uniformly random order it makes no difference what order the rows were in before. -/

namespace CryptDough.UniformShuffles

variable {ι α β : Type*} [Fintype ι]

/-- Families with the same values are rearrangements of each other. -/
theorem exists_perm_comp {f g : ι → α}
    (hfg : (Finset.univ : Finset ι).val.map f = (Finset.univ : Finset ι).val.map g) :
    ∃ e : Equiv.Perm ι, f = g ∘ e := by
  classical
  have hcard : ∀ a, Fintype.card {i // f i = a} = Fintype.card {i // g i = a} := by
    intro a
    have hcount := congrArg (Multiset.count a) hfg
    rw [Multiset.count_map, Multiset.count_map] at hcount
    rw [Fintype.card_subtype, Fintype.card_subtype]
    simpa only [Finset.card_def, Finset.filter_val, eq_comm] using hcount
  refine ⟨(Equiv.sigmaFiberEquiv f).symm.trans ((Equiv.sigmaCongrRight fun a =>
    Fintype.equivOfCardEq (hcard a)).trans (Equiv.sigmaFiberEquiv g)), funext fun i => ?_⟩
  exact (Fintype.equivOfCardEq (hcard (f i)) ⟨i, rfl⟩).2.symm

/-- A uniform value is uniform under another name. -/
theorem map_uniform_equiv [Fintype α] [Nonempty α] (e : α ≃ α) :
    (PMF.uniformOfFintype α).map e = PMF.uniformOfFintype α := by
  ext b
  rw [PMF.map_apply, tsum_eq_single (e.symm b)]
  · rw [if_pos (e.apply_symm_apply b).symm, PMF.uniformOfFintype_apply, PMF.uniformOfFintype_apply]
  · intro a ha
    exact if_neg fun hb => ha (e.symm_apply_eq.mpr hb).symm

variable [DecidableEq ι]

theorem map_uniform_comp {f g : ι → α}
    (hfg : (Finset.univ : Finset ι).val.map f = (Finset.univ : Finset ι).val.map g) (φ : (ι → α) → β) :
    (PMF.uniformOfFintype (Equiv.Perm ι)).map (fun τ : Equiv.Perm ι => φ (f ∘ τ)) =
      (PMF.uniformOfFintype (Equiv.Perm ι)).map fun τ : Equiv.Perm ι => φ (g ∘ τ) := by
  obtain ⟨e, rfl⟩ := exists_perm_comp hfg
  calc (PMF.uniformOfFintype (Equiv.Perm ι)).map (fun τ : Equiv.Perm ι => φ ((g ∘ e) ∘ τ))
      = ((PMF.uniformOfFintype (Equiv.Perm ι)).map (Equiv.mulLeft e)).map
          fun τ : Equiv.Perm ι => φ (g ∘ τ) := by
        rw [PMF.map_comp]
        rfl
    _ = (PMF.uniformOfFintype (Equiv.Perm ι)).map fun τ : Equiv.Perm ι => φ (g ∘ τ) := by
        rw [map_uniform_equiv]

end CryptDough.UniformShuffles

namespace CryptDough.EncodedTable

open Opened StableSort ElementwisePermutation

variable {w n : ℕ} {t u : EncodedTable w}

/-- The names in the order of the map. -/
def getColumnNames (t : EncodedTable w) : List String := t.schema.mergeSort fun c d => decide (c ≤ d)

def maskValue (w : ℕ) : BitVec w := BitVec.intMax w

/-- One round of the loop of `mask`. -/
def maskStep (maskColumnName : String) (maskColB maskColA : Column w) (t : EncodedTable w)
    (k : String) : EncodedTable w :=
  if k = maskColumnName then t
  else if isBShared k then t.assign k fun i => multiplexB (maskColB i) (maskValue w) (t.col k i)
  else t.assign k fun i => multiplexA (maskColA i) (maskValue w) (t.col k i)

/-- The rows with a `0` in the mask column are overwritten in the columns `keys`. -/
def mask (t : EncodedTable w) (maskColumnName : String) (keys : List String) :
    Draws (EncodedTable w) := do
  t.requireColumns [maskColumnName]
  let maskColB := t.col maskColumnName
  -- the conversion looks at the least significant bits
  let maskColA : Column w := fun i => maskColB i &&& 1
  t.requireColumns keys
  pure (keys.foldl (maskStep maskColumnName maskColB maskColA) t)

/-- The engine is that of the first arithmetic column: without one, this is not defined. -/
def shuffle (t : EncodedTable w) : Draws (EncodedTable w) := do
  let dataA := t.getColumnNames.filter fun c => !isBShared c
  let dataB := t.getColumnNames.filter fun c => isBShared c
  guard (dataA ≠ [])
  let shardedPerm ← Draws.getNext t.rows
  let permutation := rearrange shardedPerm (identity t.rows)
  let a ← dataA.mapM fun c => obliviousApplyElementwisePerm (t.vector c) permutation
  let b ← dataB.mapM fun c => obliviousApplyElementwisePerm (t.vector c) permutation
  pure (t.assignAll (dataA.zip a ++ dataB.zip b))

def finalize (t : EncodedTable w) (doShuffle : Bool := true) : Draws (EncodedTable w) := do
  let t ← if doShuffle then t.shuffle else pure t
  t.mask encTableValid t.getColumnNames

/-- The entries with a flag. -/
def extractValid (n : ℕ) (valid v : Column w) : List (BitVec w) :=
  ((List.range n).filter fun i => valid i ≠ 0).map v

def openWithSchema (t : EncodedTable w) (removeInvalid : Bool := true) :
    List (List (BitVec w)) × List String :=
  if removeInvalid then
    let names := t.getColumnNames.filter fun c => c ≠ encTableValid
    (names.map fun c => extractValid t.rows (t.col encTableValid) (t.col c), names)
  else (t.getColumnNames.map fun c => (List.range t.rows).map (t.col c), t.getColumnNames)

theorem getColumnNames_perm (t : EncodedTable w) : t.getColumnNames.Perm t.schema :=
  List.mergeSort_perm _ _

/-- The map is ordered by the names: tables with the same columns list them alike. -/
theorem getColumnNames_congr (hschema : ∀ c, c ∈ t.schema ↔ c ∈ u.schema) :
    t.getColumnNames = u.getColumnNames := by
  have htrans : ∀ a b c : String, decide (a ≤ b) = true → decide (b ≤ c) = true →
      decide (a ≤ c) = true := fun a b c h h' =>
    decide_eq_true ((of_decide_eq_true h).trans (of_decide_eq_true h'))
  have htotal : ∀ a b : String, (decide (a ≤ b) || decide (b ≤ a)) = true := fun a b => by
    rw [Bool.or_eq_true, decide_eq_true_iff, decide_eq_true_iff]
    exact le_total a b
  have hperm : t.schema.Perm u.schema := (List.perm_ext_iff_of_nodup t.nodup u.nodup).mpr hschema
  refine List.Perm.eq_of_pairwise (fun a b _ _ h h' => ?_)
    (List.pairwise_mergeSort htrans htotal _) (List.pairwise_mergeSort htrans htotal _)
    ((getColumnNames_perm t).trans (hperm.trans (getColumnNames_perm u).symm))
  exact le_antisymm (of_decide_eq_true h) (of_decide_eq_true h')

/-- What masking leaves of a row. -/
def maskedRow (schema : List String) (ρ : Row w) : Row w := fun c =>
  if c = encTableValid ∨ (ρ encTableValid).getLsbD 0 then ρ c
  else if c ∈ schema then maskValue w else 0

section Mask

theorem multiplexA_mask (x a b : BitVec w) :
    multiplexA (x &&& 1) a b = if x.getLsbD 0 then b else a := by
  have hbit : x &&& 1 = bit (x.getLsbD 0) := by
    rw [Vec.mask_one_eq, bit]
  rw [hbit, multiplexA_bit]

theorem multiplexB_mask (x a b : BitVec w) : multiplexB x a b = if x.getLsbD 0 then b else a := by
  rw [multiplexB, extendLsb]
  split_ifs
  · rw [BitVec.allOnes_and, BitVec.xor_comm b a, ← BitVec.xor_assoc, BitVec.xor_self, BitVec.zero_xor]
  · exact (congrArg _ BitVec.zero_and).trans BitVec.xor_zero

theorem maskStep_eq (maskCol : Column w) (t : EncodedTable w) {k : String} (hk : k ∈ t.schema) :
    let t' := maskStep encTableValid maskCol (fun i => maskCol i &&& 1) t k
    t'.rows = t.rows ∧ t'.schema = t.schema ∧ ∀ c i, t'.col c i =
      if c ≠ encTableValid ∧ c = k ∧ (maskCol i).getLsbD 0 = false then maskValue w else t.col c i := by
  intro t'
  by_cases hvalid : k = encTableValid
  · rw [show t' = t from if_pos hvalid]
    refine ⟨rfl, rfl, fun c i => (if_neg ?_).symm⟩
    rintro ⟨hne, rfl, -⟩
    exact hne hvalid
  have hassign : t' = t.assign k fun i => if (maskCol i).getLsbD 0 then t.col k i else maskValue w := by
    change (if k = encTableValid then t else _) = _
    rw [if_neg hvalid]
    simp only [multiplexA_mask, multiplexB_mask, ite_self]
  rw [hassign]
  refine ⟨rfl, rfl, fun c i => ?_⟩
  rw [assign_col t hk]
  by_cases hc : c = k
  · subst hc
    rw [if_pos rfl]
    cases (maskCol i).getLsbD 0
    · exact (if_pos ⟨hvalid, rfl, rfl⟩).symm
    · exact (if_neg fun h => Bool.false_ne_true h.2.2.symm).symm
  · rw [if_neg hc, if_neg fun h => hc h.2.1]

/-- The loop over the columns. -/
theorem foldl_maskStep (maskCol : Column w) {l : List String} (hmem : ∀ c ∈ l, c ∈ t.schema) :
    let t' := l.foldl (maskStep encTableValid maskCol fun i => maskCol i &&& 1) t
    t'.rows = t.rows ∧ t'.schema = t.schema ∧ ∀ c i, t'.col c i =
      if c ≠ encTableValid ∧ c ∈ l ∧ (maskCol i).getLsbD 0 = false then maskValue w
      else t.col c i := by
  induction l generalizing t with
  | nil => exact ⟨rfl, rfl, fun c i => (if_neg fun h => List.not_mem_nil h.2.1).symm⟩
  | cons k l ih =>
      obtain ⟨hk, hl⟩ := List.forall_mem_cons.mp hmem
      obtain ⟨hrows, hschema, hcol⟩ := maskStep_eq maskCol t hk
      obtain ⟨hrows', hschema', hcol'⟩ := ih (hschema.symm ▸ hl)
      refine ⟨hrows'.trans hrows, hschema'.trans hschema, fun c i => ?_⟩
      change EncodedTable.col (l.foldl _ _) c i = _
      rw [hcol', hcol]
      simp only [List.mem_cons]
      split_ifs <;> first | rfl | tauto

theorem returns_mask (t : EncodedTable w) :
    Draws.Returns (t.mask encTableValid t.getColumnNames) fun t' =>
      t'.rows = t.rows ∧ t'.schema = t.schema ∧ ∀ i, t'.row i = maskedRow t.schema (t.row i) := by
  have hmem : ∀ c, c ∈ t.getColumnNames ↔ c ∈ t.schema := fun c => (getColumnNames_perm t).mem_iff
  refine (returns_requireColumns (List.forall_mem_singleton.mpr t.valid_mem)).bind fun _ _ => ?_
  refine (returns_requireColumns fun c hc => (hmem c).mp hc).bind fun _ _ => Draws.Returns.pure ?_
  obtain ⟨hrows, hschema, hcol⟩ := foldl_maskStep (t.col encTableValid) fun c hc => (hmem c).mp hc
  refine ⟨hrows, hschema, fun i => funext fun c => (hcol c i).trans ?_⟩
  simp only [hmem, maskedRow]
  by_cases hc : c ∈ t.schema
  · by_cases hvalid : c = encTableValid
    · simp [hvalid, row]
    · cases hbit : (t.col encTableValid i).getLsbD 0 <;> simp [hvalid, hc, row, hbit]
  · simp [hc, row, t.col_of_notMem c hc]

end Mask

section Shuffle

/-- The draws of which the first shuffle is `τ`. -/
def drawFirst (τ : Equiv.Perm (Fin n)) (later : Drawn) : Drawn where
  shuffles
    | 0, m => if h : m = n then (finCongr h).permCongr.symm τ else Equiv.refl _
    | k + 1, m => later.shuffles k m
  shares := later.shares

/-- The first draw decides the order. -/
theorem shuffle_run (hn : t.rows < 2 ^ 31) (harith : ∃ c ∈ t.schema, isBShared c = false)
    (s : Drawn) :
    ∃ s', t.shuffle s = some (t.rearranged (s.shuffles 0 t.rows).symm, s') := by
  have hmem : ∀ c, c ∈ t.getColumnNames ↔ c ∈ t.schema := fun c => (getColumnNames_perm t).mem_iff
  obtain ⟨c, hc, hshared⟩ := harith
  have hne : (t.getColumnNames.filter fun c => !isBShared c) ≠ [] :=
    List.ne_nil_of_mem (List.mem_filter.mpr ⟨(hmem c).mpr hc, by rw [hshared]; rfl⟩)
  have hrest : ∀ σ : Equiv.Perm (Fin t.rows), Draws.Returns (do
      let a ← (t.getColumnNames.filter fun c => !isBShared c).mapM fun c =>
        obliviousApplyElementwisePerm (t.vector c) (ofPerm σ)
      let b ← (t.getColumnNames.filter fun c => isBShared c).mapM fun c =>
        obliviousApplyElementwisePerm (t.vector c) (ofPerm σ)
      pure (t.assignAll ((t.getColumnNames.filter fun c => !isBShared c).zip a ++
        (t.getColumnNames.filter fun c => isBShared c).zip b))) (· = t.rearranged σ) := by
    intro σ
    refine (returns_applyAll hn σ t.vector _).bind fun a ha => ?_
    refine (returns_applyAll hn σ t.vector _).bind fun b hb => Draws.Returns.pure ?_
    rw [ha, hb, zip_map_self, zip_map_self, ← List.map_append]
    refine assignAll_rearrange t σ fun c hc => ?_
    rw [List.mem_append, List.mem_filter, List.mem_filter, hmem]
    cases isBShared c <;> simp [hc]
  obtain ⟨t', s', hrun, rfl⟩ := hrest (s.shuffles 0 t.rows).symm
    { s with shuffles := fun k => s.shuffles (k + 1) }
  refine ⟨s', ?_⟩
  rw [shuffle, guard, if_pos hne]
  change (Draws.getNext t.rows s >>= fun r => _) = _
  rw [Draws.getNext, if_pos hn]
  exact hrun

/-- A shuffle that returns has an engine and a permutation. -/
theorem of_returns_shuffle {post : EncodedTable w → Prop} (hreturns : Draws.Returns t.shuffle post) :
    t.rows < 2 ^ 31 ∧ ∃ c ∈ t.schema, isBShared c = false := by
  rw [shuffle, Draws.returns_guard_bind_iff] at hreturns
  refine ⟨hreturns.2.of_bind.lt_of_getNext, ?_⟩
  obtain ⟨c, hc⟩ := List.exists_mem_of_ne_nil _ hreturns.1
  obtain ⟨hmem, hshared⟩ := List.mem_filter.mp hc
  exact ⟨c, (getColumnNames_perm t).mem_iff.mp hmem, by simpa using hshared⟩

/-- The finalized table, when the row at place `e i` comes to place `i`. -/
structure Finalized (t : EncodedTable w) (e : Equiv.Perm (Fin t.rows)) (t' : EncodedTable w) :
    Prop where
  rows : t'.rows = t.rows
  schema : t'.schema = t.schema
  row : ∀ i : Fin t.rows, t'.row i = maskedRow t.schema (t.row (e i))

theorem finalize_run (doShuffle : Bool)
    (hshuffle : doShuffle = true → t.rows < 2 ^ 31 ∧ ∃ c ∈ t.schema, isBShared c = false) (s : Drawn) :
    ∃ t' s', t.finalize doShuffle s = some (t', s') ∧
      Finalized t (if doShuffle then s.shuffles 0 t.rows else Equiv.refl _) t' := by
  cases doShuffle with
  | false =>
      obtain ⟨t', s', hrun, hrows, hschema, hrow⟩ := returns_mask t s
      exact ⟨t', s', hrun, hrows, hschema, fun i => hrow i⟩
  | true =>
      obtain ⟨s', hshuffled⟩ := shuffle_run (hshuffle rfl).1 (hshuffle rfl).2 s
      obtain ⟨t', s'', hrun, hrows, hschema, hrow⟩ :=
        returns_mask (t.rearranged (s.shuffles 0 t.rows).symm) s'
      refine ⟨t', s'', ?_, hrows, hschema, fun i => (hrow i).trans ?_⟩
      · change (t.shuffle s >>= fun r => r.1.mask encTableValid r.1.getColumnNames r.2) = _
        rw [hshuffled]
        exact hrun
      · rw [row_rearranged]
        rfl

end Shuffle

section Rows

/-- A row that shows nothing. -/
def hiddenRow (schema : List String) : Row w := fun c =>
  if c = encTableValid then 0 else if c ∈ schema then maskValue w else 0

theorem maskedRow_valid (ht : t.SingleBit encTableValid) (hw : 0 < w) :
    t.validRows.map (maskedRow t.schema) = t.validRows := by
  refine (Multiset.map_congr rfl fun ρ hρ => ?_).trans (Multiset.map_id _)
  obtain ⟨hρ, hvalid⟩ := Multiset.mem_filter.mp hρ
  have hone := (singleBit_iff.mp ht ρ hρ).resolve_left hvalid
  refine funext fun c => if_pos (.inr ?_)
  rw [hone]
  simp [hw]

theorem maskedRow_invalid {ρ : Row w} (hρ : ρ encTableValid = 0) (schema : List String) :
    maskedRow schema ρ = hiddenRow schema := by
  ext c
  rw [maskedRow, hiddenRow, hρ]
  by_cases hc : c = encTableValid
  · simp [hc, hρ]
  · simp [hc]

/-- The rows that stay, and as many hidden ones as make up the rest. -/
theorem map_maskedRow (ht : t.SingleBit encTableValid) (hw : 0 < w) :
    t.allRows.map (maskedRow t.schema) = t.validRows +
      Multiset.replicate (t.rows - Multiset.card t.validRows) (hiddenRow t.schema) := by
  have hsplit : t.validRows + t.allRows.filter (fun ρ => ¬ ρ encTableValid ≠ 0) = t.allRows :=
    Multiset.filter_add_not _ _
  have hcard := congrArg Multiset.card hsplit
  rw [Multiset.card_add, allRows, Multiset.card_map, Multiset.card_range, ← allRows] at hcard
  conv_lhs => rw [← hsplit]
  rw [Multiset.map_add, maskedRow_valid ht hw, Nat.sub_eq_of_eq_add' hcard.symm,
    ← Multiset.map_const']
  refine congrArg _ (Multiset.map_congr rfl fun ρ hρ => maskedRow_invalid ?_ _)
  exact not_not.mp (Multiset.mem_filter.mp hρ).2

theorem Finalized.map_row {e : Equiv.Perm (Fin t.rows)} {t' : EncodedTable w} (h : Finalized t e t') :
    (List.range t'.rows).map t'.row =
      List.ofFn fun i : Fin t.rows => maskedRow t.schema (t.row (e i)) := by
  rw [h.rows, ← List.map_coe_finRange_eq_range, List.map_map, List.ofFn_eq_map]
  exact List.map_congr_left fun i _ => h.row i

theorem Finalized.allRows {e : Equiv.Perm (Fin t.rows)} {t' : EncodedTable w} (h : Finalized t e t') :
    t'.allRows = t.allRows.map (maskedRow t.schema) := by
  have hperm := Multiset.map_univ_val_equiv e
  calc t'.allRows
      = ↑((List.range t'.rows).map t'.row) := rfl
    _ = (Finset.univ : Finset (Fin t.rows)).val.map fun i => maskedRow t.schema (t.row (e i)) := by
        rw [h.map_row, Fin.univ_val_map]
    _ = ((Finset.univ : Finset (Fin t.rows)).val.map e).map fun i : Fin t.rows =>
          maskedRow t.schema (t.row i) := by
        rw [Multiset.map_map]
        rfl
    _ = t.allRows.map (maskedRow t.schema) := by
        rw [hperm, allRows_eq_map_univ, Multiset.map_map]
        rfl

/-- Finalizing keeps the valid rows and hides all others; a shuffle needs an arithmetic column and a
permutation of the rows. -/
theorem finalize_rows_iff (ht : t.SingleBit encTableValid) (hw : 0 < w) (doShuffle : Bool) :
    Draws.Returns (t.finalize doShuffle) (fun t' => t'.rows = t.rows ∧ t'.schema = t.schema ∧
        t'.validRows = t.validRows ∧ t'.allRows = t.validRows +
          Multiset.replicate (t.rows - Multiset.card t.validRows) (hiddenRow t.schema)) ↔
      (doShuffle = true → t.rows < 2 ^ 31 ∧ ∃ c ∈ t.schema, isBShared c = false) := by
  constructor
  · rintro hreturns rfl
    exact of_returns_shuffle hreturns.of_bind
  · intro hshuffle s
    obtain ⟨t', s', hrun, hfinal⟩ := finalize_run doShuffle hshuffle s
    have hall : t'.allRows = _ := hfinal.allRows.trans (map_maskedRow ht hw)
    refine ⟨t', s', hrun, hfinal.rows, hfinal.schema, ?_, hall⟩
    have hhidden : ∀ ρ ∈ Multiset.replicate (t.rows - Multiset.card t.validRows) (hiddenRow t.schema),
        ¬ (ρ encTableValid ≠ (0 : BitVec w)) := by
      intro ρ hρ
      rw [Multiset.eq_of_mem_replicate hρ, not_not]
      exact if_pos rfl
    rw [validRows, hall, Multiset.filter_add, Multiset.filter_eq_nil.mpr hhidden, add_zero]
    exact Multiset.filter_eq_self.mpr fun ρ hρ => (Multiset.mem_filter.mp hρ).2

/-- What the rows show, in their order. -/
def openRows (names : List String) (removeInvalid : Bool) (rows : List (Row w)) :
    List (List (BitVec w)) × List String :=
  if removeInvalid then
    let names := names.filter fun c => c ≠ encTableValid
    (names.map fun c => (rows.filter fun ρ => ρ encTableValid ≠ 0).map fun ρ => ρ c, names)
  else (names.map fun c => rows.map fun ρ => ρ c, names)

theorem openWithSchema_eq (t : EncodedTable w) (removeInvalid : Bool) :
    t.openWithSchema removeInvalid =
      openRows t.getColumnNames removeInvalid ((List.range t.rows).map t.row) := by
  rw [openWithSchema, openRows]
  split_ifs
  · simp only [extractValid, List.filter_map, List.map_map]
    rfl
  · simp only [List.map_map]
    rfl

/-- A query's last two steps. -/
def openFinalized (t : EncodedTable w) (removeInvalid : Bool) :
    Draws (List (List (BitVec w)) × List String) := do
  let t ← t.finalize
  pure (t.openWithSchema removeInvalid)

theorem openFinalized_run (hn : t.rows < 2 ^ 31) (harith : ∃ c ∈ t.schema, isBShared c = false)
    (removeInvalid : Bool) (s : Drawn) :
    (t.openFinalized removeInvalid).run' s = some (openRows t.getColumnNames removeInvalid
      (List.ofFn fun i : Fin t.rows => maskedRow t.schema (t.row (s.shuffles 0 t.rows i)))) := by
  obtain ⟨t', s', hrun, hfinal⟩ := finalize_run true (fun _ => ⟨hn, harith⟩) s
  have hopen : (t.openFinalized removeInvalid).run' s = some (t'.openWithSchema removeInvalid) := by
    change Prod.fst <$> (t.finalize true s >>= fun r =>
      some (r.1.openWithSchema removeInvalid, r.2)) = _
    rw [hrun]
    rfl
  rw [hopen, openWithSchema_eq, hfinal.map_row, getColumnNames, hfinal.schema]
  rfl

theorem drawFirst_zero (hrows : t.rows = n) (τ : Equiv.Perm (Fin n)) (later : Drawn)
    (f : ℕ → Row w) :
    (List.ofFn fun i : Fin t.rows => f ((drawFirst τ later).shuffles 0 t.rows i)) =
      List.ofFn ((fun i : Fin n => f i) ∘ τ) := by
  subst hrows
  have hfirst : (drawFirst τ later).shuffles 0 t.rows = τ := dif_pos rfl
  rw [hfirst]
  rfl

theorem openFinalized_drawFirst (hrows : t.rows = n) (hn : n < 2 ^ 31)
    (harith : ∃ c ∈ t.schema, isBShared c = false) (removeInvalid : Bool) (τ : Equiv.Perm (Fin n))
    (later : Drawn) :
    (t.openFinalized removeInvalid).run' (drawFirst τ later) =
      some (openRows t.getColumnNames removeInvalid
        (List.ofFn ((fun i : Fin n => maskedRow t.schema (t.row i)) ∘ τ))) := by
  rw [openFinalized_run (hrows ▸ hn) harith,
    drawFirst_zero hrows τ later fun k => maskedRow t.schema (t.row k)]

/-- What a finalized table opens to has the same distribution for all tables with these columns, this
many rows and these valid rows: the invalid rows, and the order of the rows, do not show. -/
theorem finalize_hides (ht : t.SingleBit encTableValid) (hu : u.SingleBit encTableValid) (hw : 0 < w)
    (harith : ∃ c ∈ t.schema, isBShared c = false) (hschema : ∀ c, c ∈ t.schema ↔ c ∈ u.schema)
    (hrows_t : t.rows = n) (hrows_u : u.rows = n) (hn : n < 2 ^ 31)
    (hvalid : t.validRows = u.validRows) (removeInvalid : Bool) (later later' : Drawn) :
    (PMF.uniformOfFintype (Equiv.Perm (Fin n))).map (fun τ =>
        (t.openFinalized removeInvalid).run' (drawFirst τ later)) =
      (PMF.uniformOfFintype (Equiv.Perm (Fin n))).map fun τ =>
        (u.openFinalized removeInvalid).run' (drawFirst τ later') := by
  have harith_u : ∃ c ∈ u.schema, isBShared c = false := by
    obtain ⟨c, hc, hshared⟩ := harith
    exact ⟨c, (hschema c).mp hc, hshared⟩
  have hmasked : ∀ {t : EncodedTable w}, t.rows = n → t.allRows.map (maskedRow t.schema) =
      (Finset.univ : Finset (Fin n)).val.map fun i : Fin n => maskedRow t.schema (t.row i) := by
    rintro t rfl
    rw [allRows_eq_map_univ, Multiset.map_map]
    rfl
  have hsame : hiddenRow (w := w) t.schema = hiddenRow u.schema := by
    ext c
    simp only [hiddenRow, hschema]
  simp only [openFinalized_drawFirst hrows_t hn harith, openFinalized_drawFirst hrows_u hn harith_u,
    getColumnNames_congr hschema]
  refine UniformShuffles.map_uniform_comp ?_ fun rows =>
    some (openRows u.getColumnNames removeInvalid (List.ofFn rows))
  rw [← hmasked hrows_t, ← hmasked hrows_u, map_maskedRow ht hw, map_maskedRow hu hw, hvalid, hsame,
    hrows_t, hrows_u]

def exampleFirst : EncodedTable 8 :=
  ofColumns 2 (fun i => if i = 0 then 1 else 0) [("a", fun i => if i = 0 then 5 else 6)]

def exampleSecond : EncodedTable 8 :=
  ofColumns 2 (fun i => if i = 1 then 1 else 0) [("a", fun i => if i = 1 then 5 else 9)]

theorem exampleFirst_bit : exampleFirst.SingleBit encTableValid := by
  unfold SingleBit
  decide

theorem exampleSecond_bit : exampleSecond.SingleBit encTableValid := by
  unfold SingleBit
  decide

theorem finalize_rows_iff_example :
    Draws.Returns (exampleFirst.finalize true) (fun t' => t'.rows = exampleFirst.rows ∧
        t'.schema = exampleFirst.schema ∧ t'.validRows = exampleFirst.validRows ∧
        t'.allRows = exampleFirst.validRows + Multiset.replicate
          (exampleFirst.rows - Multiset.card exampleFirst.validRows) (hiddenRow exampleFirst.schema)) :=
  (finalize_rows_iff exampleFirst_bit (by decide) true).mpr
    fun _ => ⟨by decide, "a", by decide, by decide⟩

theorem exampleSecond_valid : exampleFirst.validRows = exampleSecond.validRows := by
  have hfirst : ((Multiset.range exampleFirst.rows).filter fun i =>
      exampleFirst.col encTableValid i ≠ 0) = {0} := by decide
  have hsecond : ((Multiset.range exampleSecond.rows).filter fun i =>
      exampleSecond.col encTableValid i ≠ 0) = {1} := by decide
  rw [validRows_eq, validRows_eq, hfirst, hsecond, Multiset.map_singleton, Multiset.map_singleton]
  refine congrArg _ (funext fun c => ?_)
  change (if c = encTableValid then _ else _ : Column 8) 0 =
    (if c = encTableValid then _ else _ : Column 8) 1
  split_ifs with hc
  · rfl
  · by_cases ha : c = "a"
    · subst ha
      rfl
    · simp [List.lookup_cons, beq_false_of_ne ha]

/-- Neither the place of the valid row nor the contents of the other one show. -/
theorem finalize_hides_example :
    (PMF.uniformOfFintype (Equiv.Perm (Fin 2))).map (fun τ =>
        (exampleFirst.openFinalized false).run' (drawFirst τ default)) =
      (PMF.uniformOfFintype (Equiv.Perm (Fin 2))).map fun τ =>
        (exampleSecond.openFinalized false).run' (drawFirst τ default) :=
  finalize_hides exampleFirst_bit exampleSecond_bit (by decide) ⟨"a", by decide, by decide⟩
    (fun _ => Iff.rfl) rfl rfl (by decide) exampleSecond_valid false _ _

end Rows

end CryptDough.EncodedTable
