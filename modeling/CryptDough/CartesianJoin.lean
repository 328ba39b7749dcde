import CryptDough.TableConcatenation
import Mathlib.Data.Multiset.Bind

/-! The quadratic join: every row of one table beside every row of the other, valid when both are and
their keys agree. -/

namespace CryptDough.EncodedTable

open StableSort

variable {w : ℕ}

/-- `repeated_subset_reference`: every position some times in a row. -/
def repeatedMapping (size repetition : ℕ) : List ℕ :=
  (List.range size).flatMap fun j => List.replicate repetition j

/-- `cyclic_subset_reference`: all positions in turn, some times over. -/
def cyclicMapping (size cycles : ℕ) : List ℕ :=
  (List.range cycles).flatMap fun _ => List.range size

/-- A vector seen through a mapping. -/
def mapped (mapping : List ℕ) (v : Column w) : Column w := fun i => (mapping[i]?.map v).getD 0

def outputColumns (t right : EncodedTable w) (key : String) : List String :=
  [key, "r." ++ key] ++ t.schema.filter (fun k => ¬ (k = key ∨ k = encTableJoinId)) ++
    right.schema.filter fun k => ¬ (k = key ∨ k = encTableValid) ∧ k ∉ t.schema

/-- `output[k] = t[k]` through a mapping. -/
def copyMapped (output t : EncodedTable w) (mapping : List ℕ) (k : String) : Draws (EncodedTable w) := do
  output.requireColumns [k]
  pure (output.assign k (mapped mapping (t.col k)))

/-- Valid bit and key are set before the data is copied. -/
def copyData (t : EncodedTable w) (key : String) (mapping : List ℕ) (output : EncodedTable w) :
    Draws (EncodedTable w) :=
  t.schema.foldlM (fun output k =>
    if k = encTableValid ∨ k = key then pure output else output.copyMapped t mapping k) output

theorem valid_ne_rightKey (key : String) : encTableValid ∉ ["r." ++ key] := by
  intro hmem
  have heq := congrArg String.toList (List.mem_singleton.mp hmem)
  rw [String.toList_append] at heq
  exact absurd (List.cons.inj heq).1 (by decide)

/-- The keys of both sides and the valid bit. -/
def setKeys (t right : EncodedTable w) (key : String) (output : EncodedTable w) : EncodedTable w :=
  let repeated := repeatedMapping t.rows right.rows
  let cyclic := cyclicMapping right.rows t.rows
  let output := output.assign key (mapped repeated (t.col key))
  let output := output.assign ("r." ++ key) (mapped cyclic (right.col key))
  output.assign encTableValid fun i =>
    Opened.andB1 (mapped repeated (t.col encTableValid) i) (mapped cyclic (right.col encTableValid) i)

/-- The predicate of the join. -/
def matchKeys (t right : EncodedTable w) (key : String) (output : EncodedTable w) : EncodedTable w :=
  let output := setKeys t right key output
  output.filter fun i => Opened.equalB (output.col key i) (output.col ("r." ++ key) i)

def cartesianJoin (t right : EncodedTable w) (key : String) : Draws (EncodedTable w) := do
  let output ← create (outputColumns t right key) (t.rows * right.rows)
  t.requireColumns [key]
  right.requireColumns [key]
  guard (isBShared key)
  let output := matchKeys t right key output
  let output ← copyData t key (repeatedMapping t.rows right.rows) output
  let output ← copyData right key (cyclicMapping right.rows t.rows) output
  pure (output.deleteColumns ["r." ++ key] (valid_ne_rightKey key))

section Mappings

theorem length_repeatedMapping (size repetition : ℕ) :
    (repeatedMapping size repetition).length = size * repetition := by
  simp [repeatedMapping]

theorem length_cyclicMapping (size cycles : ℕ) :
    (cyclicMapping size cycles).length = cycles * size := by
  simp [cyclicMapping]

theorem getElem?_repeatedMapping {size repetition i : ℕ} (hi : i < size * repetition) :
    (repeatedMapping size repetition)[i]? = some (i / repetition) := by
  induction size with
  | zero => omega
  | succ size ih =>
      have hsucc : repeatedMapping (size + 1) repetition =
          repeatedMapping size repetition ++ List.replicate repetition size := by
        simp [repeatedMapping, List.range_succ]
      rw [hsucc]
      rcases Nat.lt_or_ge i (size * repetition) with hlt | hge
      · rw [List.getElem?_append_left ((length_repeatedMapping _ _).symm ▸ hlt), ih hlt]
      · have hlength := length_repeatedMapping size repetition
        rw [List.getElem?_append_right (hlength.symm ▸ hge), hlength]
        rw [Nat.succ_mul] at hi
        have hdiv : i / repetition = size := Nat.div_eq_of_lt_le hge (by rw [Nat.succ_mul]; omega)
        rw [hdiv, List.getElem?_replicate, if_pos (by omega)]

theorem getElem?_cyclicMapping {size cycles i : ℕ} (hi : i < cycles * size) :
    (cyclicMapping size cycles)[i]? = some (i % size) := by
  induction cycles with
  | zero => omega
  | succ cycles ih =>
      have hsucc : cyclicMapping size (cycles + 1) = cyclicMapping size cycles ++ List.range size := by
        simp [cyclicMapping, List.range_succ]
      rw [hsucc]
      rcases Nat.lt_or_ge i (cycles * size) with hlt | hge
      · rw [List.getElem?_append_left ((length_cyclicMapping _ _).symm ▸ hlt), ih hlt]
      · have hlength := length_cyclicMapping size cycles
        rw [List.getElem?_append_right (hlength.symm ▸ hge), hlength]
        rw [Nat.succ_mul] at hi
        obtain ⟨j, rfl⟩ := Nat.exists_eq_add_of_le hge
        rw [Nat.add_sub_cancel_left, Nat.mul_comm, Nat.mul_add_mod,
          Nat.mod_eq_of_lt (by omega), List.getElem?_range (by omega)]

theorem mapped_repeated (t right : EncodedTable w) (v : Column w) {i : ℕ}
    (hi : i < t.rows * right.rows) :
    mapped (repeatedMapping t.rows right.rows) v i = v (i / right.rows) := by
  rw [mapped, getElem?_repeatedMapping hi]
  rfl

theorem mapped_cyclic (t right : EncodedTable w) (v : Column w) {i : ℕ}
    (hi : i < t.rows * right.rows) :
    mapped (cyclicMapping right.rows t.rows) v i = v (i % right.rows) := by
  rw [mapped, getElem?_cyclicMapping hi]
  rfl

/-- Positions of a product in the order of the two mappings. -/
theorem range_mul_map (m n : ℕ) :
    (Multiset.range (m * n)).map (fun i => (i / n, i % n)) = Multiset.range m ×ˢ Multiset.range n := by
  induction m with
  | zero => simp
  | succ m ih =>
      have hrow : (Multiset.range n).map (fun j => ((m * n + j) / n, (m * n + j) % n)) =
          (Multiset.range n).map (Prod.mk m) := by
        refine Multiset.map_congr rfl fun j hj => ?_
        have hj := Multiset.mem_range.mp hj
        have hn : 0 < n := by omega
        rw [Nat.mul_comm m n, Nat.mul_add_div hn, Nat.mul_add_mod, Nat.div_eq_of_lt hj,
          Nat.mod_eq_of_lt hj, Nat.add_zero]
      rw [Nat.succ_mul, Multiset.range_add, Multiset.map_add, ih, Multiset.map_map, Multiset.range_succ,
        Multiset.cons_product, add_comm]
      exact congrArg (· + _) hrow

theorem map_product_map {α β γ δ : Type*} (f : α → γ) (g : β → δ) (s : Multiset α) (u : Multiset β) :
    s.map f ×ˢ u.map g = (s ×ˢ u).map (Prod.map f g) := by
  induction s using Multiset.induction_on with
  | empty => simp
  | cons a s ih =>
      rw [Multiset.map_cons, Multiset.cons_product, Multiset.cons_product, Multiset.map_add, ih,
        Multiset.map_map, Multiset.map_map]
      rfl

end Mappings

section Copies

variable (t : EncodedTable w) (key : String) (mapping : List ℕ)

/-- What `copyData` leaves for the columns `names`. -/
def copiedData (names : List String) (output : EncodedTable w) : EncodedTable w :=
  names.foldl (fun output k =>
    if k = encTableValid ∨ k = key then output else output.assign k (mapped mapping (t.col k))) output

variable {t key mapping}

theorem copiedData_cons_skip {k : String} (hskip : k = encTableValid ∨ k = key) (names : List String)
    (output : EncodedTable w) :
    copiedData t key mapping (k :: names) output = copiedData t key mapping names output := by
  rw [copiedData, List.foldl_cons, if_pos hskip]
  rfl

theorem copiedData_cons {k : String} (hcopy : ¬ (k = encTableValid ∨ k = key)) (names : List String)
    (output : EncodedTable w) : copiedData t key mapping (k :: names) output =
      copiedData t key mapping names (output.assign k (mapped mapping (t.col k))) := by
  rw [copiedData, List.foldl_cons, if_neg hcopy]
  rfl

@[simp] theorem copiedData_rows (names : List String) (output : EncodedTable w) :
    (copiedData t key mapping names output).rows = output.rows := by
  induction names generalizing output with
  | nil => rfl
  | cons k names ih =>
      by_cases hskip : k = encTableValid ∨ k = key
      · rw [copiedData_cons_skip hskip, ih]
      · rw [copiedData_cons hskip, ih, assign_rows]

@[simp] theorem copiedData_schema (names : List String) (output : EncodedTable w) :
    (copiedData t key mapping names output).schema = output.schema := by
  induction names generalizing output with
  | nil => rfl
  | cons k names ih =>
      by_cases hskip : k = encTableValid ∨ k = key
      · rw [copiedData_cons_skip hskip, ih]
      · rw [copiedData_cons hskip, ih, assign_schema]

theorem copiedData_col {names : List String} {output : EncodedTable w}
    (hnames : ∀ k ∈ names, k = encTableValid ∨ k = key ∨ k ∈ output.schema) (c : String) :
    (copiedData t key mapping names output).col c =
      if c ∈ names ∧ c ≠ encTableValid ∧ c ≠ key then mapped mapping (t.col c) else output.col c := by
  induction names generalizing output with
  | nil => simp [copiedData]
  | cons k names ih =>
      have hk := hnames k List.mem_cons_self
      have hrest : ∀ k ∈ names, k = encTableValid ∨ k = key ∨ k ∈ output.schema := fun k hk =>
        hnames k (List.mem_cons_of_mem _ hk)
      by_cases hskip : k = encTableValid ∨ k = key
      · rw [copiedData_cons_skip hskip, ih hrest]
        by_cases hc : c = k
        · subst hc
          rw [if_neg fun h => hskip.elim h.2.1 h.2.2, if_neg fun h => hskip.elim h.2.1 h.2.2]
        · simp [hc]
      · have hmem : k ∈ output.schema := by tauto
        have hassigned : ∀ k' ∈ names, k' = encTableValid ∨ k' = key ∨
            k' ∈ (output.assign k (mapped mapping (t.col k))).schema := hrest
        rw [copiedData_cons hskip, ih hassigned, assign_col output hmem]
        by_cases hc : c = k
        · subst hc
          rw [not_or] at hskip
          simp [hskip]
        · simp [hc]

theorem returns_copyNames_bind_iff {β : Type} (names : List String) (output : EncodedTable w)
    {next : EncodedTable w → Draws β} {post : β → Prop} :
    Draws.Returns (names.foldlM (fun (output : EncodedTable w) k =>
        if k = encTableValid ∨ k = key then pure output else output.copyMapped t mapping k) output >>=
          next) post ↔
      (∀ k ∈ names, k = encTableValid ∨ k = key ∨ k ∈ output.schema) ∧
        Draws.Returns (next (copiedData t key mapping names output)) post := by
  induction names generalizing output with
  | nil =>
      rw [List.foldlM_nil, pure_bind]
      exact ⟨fun h => ⟨nofun, h⟩, fun h => h.2⟩
  | cons k names ih =>
      rw [List.foldlM_cons, bind_assoc, List.forall_mem_cons, and_assoc]
      by_cases hskip : k = encTableValid ∨ k = key
      · rw [if_pos hskip, pure_bind, ih, copiedData_cons_skip hskip]
        tauto
      · rw [if_neg hskip, copyMapped, requireColumns, bind_assoc, Draws.returns_guard_bind_iff,
          pure_bind, ih, copiedData_cons hskip, assign_schema, List.forall_mem_singleton]
        tauto

end Copies

section Join

variable {t right : EncodedTable w} {key : String}

theorem rightKey_ne (key : String) : "r." ++ key ≠ key := by
  intro heq
  have hlength := congrArg (fun s => s.toList.length) heq
  simp only [String.toList_append, List.length_append] at hlength
  have htwo : "r.".toList.length = 2 := by decide
  omega

theorem rightKey_ne_joinId (key : String) : "r." ++ key ≠ encTableJoinId := by
  intro heq
  have hlist := congrArg String.toList heq
  rw [String.toList_append] at hlist
  exact absurd (List.cons.inj hlist).1 (by decide)

theorem mem_outputColumns {c : String} : c ∈ outputColumns t right key ↔
    c = key ∨ c = "r." ++ key ∨ (c ∈ t.schema ∧ c ≠ key ∧ c ≠ encTableJoinId) ∨
      (c ∈ right.schema ∧ c ≠ key ∧ c ≠ encTableValid ∧ c ∉ t.schema) := by
  simp only [outputColumns, List.mem_append, List.mem_cons, List.mem_filter, decide_eq_true_iff,
    List.not_mem_nil, or_false, not_or, and_assoc, or_assoc]

theorem nodup_outputColumns_iff : (outputColumns t right key).Nodup ↔
    "r." ++ key ∉ t.schema ∧ "r." ++ key ∉ right.schema := by
  have hrest : (t.schema.filter (fun k => ¬ (k = key ∨ k = encTableJoinId)) ++
      right.schema.filter fun k => ¬ (k = key ∨ k = encTableValid) ∧ k ∉ t.schema).Nodup := by
    refine List.Nodup.append (t.nodup.filter _) (right.nodup.filter _) fun c hc hc' => ?_
    exact (of_decide_eq_true (List.mem_filter.mp hc').2).2 (List.mem_filter.mp hc).1
  have hkey := rightKey_ne key
  have hid := rightKey_ne_joinId key
  have hvalid : "r." ++ key ≠ encTableValid := fun heq =>
    valid_ne_rightKey key (List.mem_singleton.mpr heq.symm)
  rw [outputColumns, List.append_assoc, List.cons_append, List.nodup_cons, List.cons_append,
    List.nodup_cons, List.nil_append]
  simp only [List.mem_cons, List.mem_append, List.mem_filter, decide_eq_true_iff, hrest]
  constructor
  · rintro ⟨-, hnot, -⟩
    tauto
  · rintro ⟨ht, hright⟩
    have hne := hkey.symm
    tauto

/-- The output before the data is copied into it. -/
def joinOutput (t right : EncodedTable w) (key : String) : EncodedTable w :=
  matchKeys t right key (zeros (outputColumns t right key) (t.rows * right.rows))

/-- The table the join returns. -/
def joinTable (t right : EncodedTable w) (key : String) : EncodedTable w :=
  (copiedData right key (cyclicMapping right.rows t.rows) right.schema
    (copiedData t key (repeatedMapping t.rows right.rows) t.schema (joinOutput t right key))).deleteColumns
      ["r." ++ key] (valid_ne_rightKey key)

theorem mem_joinOutput {c : String} :
    c ∈ (joinOutput t right key).schema ↔ c = encTableValid ∨ c ∈ outputColumns t right key := by
  have hschema : (joinOutput t right key).schema =
      (zeros (outputColumns t right key) (t.rows * right.rows) : EncodedTable w).schema := rfl
  rw [hschema, mem_zeros]

theorem joinOutput_rows : (joinOutput t right key).rows = t.rows * right.rows := rfl

/-- The copies of the left table's columns fail on its table id, which the output does not have. -/
theorem copies_left_iff :
    (∀ k ∈ t.schema, k = encTableValid ∨ k = key ∨ k ∈ (joinOutput t right key).schema) ↔
      (encTableJoinId ∈ t.schema → key = encTableJoinId) := by
  have hid := (rightKey_ne_joinId key).symm
  have hvalid : encTableJoinId ≠ encTableValid := by decide
  constructor
  · intro h hmem
    have hk := h _ hmem
    rw [mem_joinOutput, mem_outputColumns] at hk
    tauto
  · intro h k hk
    rw [mem_joinOutput, mem_outputColumns]
    by_cases hkid : k = encTableJoinId
    · exact Or.inr (Or.inl (hkid.trans (h (hkid ▸ hk)).symm))
    · tauto

theorem copies_right (hid : encTableJoinId ∈ t.schema → key = encTableJoinId) :
    ∀ k ∈ right.schema, k = encTableValid ∨ k = key ∨ k ∈ (joinOutput t right key).schema := by
  intro k hk
  by_cases ht : k ∈ t.schema
  · exact copies_left_iff.mpr hid k ht
  · rw [mem_joinOutput, mem_outputColumns]
    tauto

theorem returns_cartesianJoin_iff {post : EncodedTable w → Prop} :
    Draws.Returns (t.cartesianJoin right key) post ↔
      (key ∈ t.schema ∧ key ∈ right.schema ∧ isBShared key) ∧
      ("r." ++ key ∉ t.schema ∧ "r." ++ key ∉ right.schema) ∧
      (encTableJoinId ∈ t.schema → key = encTableJoinId) ∧ t.rows * right.rows < 2 ^ 31 ∧
      post (joinTable t right key) := by
  have hschema : (copiedData t key (repeatedMapping t.rows right.rows) t.schema
      (joinOutput t right key)).schema = (joinOutput t right key).schema := copiedData_schema _ _
  unfold cartesianJoin copyData
  rw [returns_create_bind_iff, nodup_outputColumns_iff, requireColumns, requireColumns,
    Draws.returns_guard_bind_iff, Draws.returns_guard_bind_iff, Draws.returns_guard_bind_iff,
    List.forall_mem_singleton, List.forall_mem_singleton, returns_copyNames_bind_iff,
    returns_copyNames_bind_iff, Draws.returns_pure_iff]
  change _ ∧ _ ∧ _ ∧ _ ∧ (∀ k ∈ t.schema, k = encTableValid ∨ k = key ∨
      k ∈ (joinOutput t right key).schema) ∧ (∀ k ∈ right.schema, k = encTableValid ∨ k = key ∨
      k ∈ (copiedData t key (repeatedMapping t.rows right.rows) t.schema
        (joinOutput t right key)).schema) ∧ post (joinTable t right key) ↔ _
  rw [hschema, copies_left_iff]
  have hcopies : (encTableJoinId ∈ t.schema → key = encTableJoinId) → ∀ k ∈ right.schema,
      k = encTableValid ∨ k = key ∨ k ∈ (joinOutput t right key).schema := copies_right
  tauto

section Rows

variable (right key) in
/-- The valid bit of a pair of rows, where the key may be the valid bit itself. -/
def validBit (ρ σ : Row w) : BitVec w :=
  Opened.andB1 (Opened.andB1 (ρ encTableValid) (σ encTableValid))
    (Opened.equalB
      (if key = encTableValid then Opened.andB1 (ρ encTableValid) (σ encTableValid) else ρ key) (σ key))

variable (right key) in
/-- A pair of rows as the loops leave it: the right row over the left one. -/
def overlaid (valid : BitVec w) (ρ σ : Row w) : Row w := fun c =>
  if c = encTableValid then valid else if c ∈ right.schema ∧ c ≠ key then σ c else ρ c

theorem rightKey_ne_valid (key : String) : "r." ++ key ≠ encTableValid := fun heq =>
  valid_ne_rightKey key (List.mem_singleton.mpr heq.symm)

theorem setKeys_col {output : EncodedTable w} (hkey : key ∈ output.schema)
    (hrightKey : "r." ++ key ∈ output.schema) (c : String) :
    (setKeys t right key output).col c =
      if c = encTableValid then fun i =>
        Opened.andB1 (mapped (repeatedMapping t.rows right.rows) (t.col encTableValid) i)
          (mapped (cyclicMapping right.rows t.rows) (right.col encTableValid) i)
      else if c = "r." ++ key then mapped (cyclicMapping right.rows t.rows) (right.col key)
      else if c = key then mapped (repeatedMapping t.rows right.rows) (t.col key)
      else output.col c := by
  let left := output.assign key (mapped (repeatedMapping t.rows right.rows) (t.col key))
  let both := left.assign ("r." ++ key) (mapped (cyclicMapping right.rows t.rows) (right.col key))
  have hleft : "r." ++ key ∈ left.schema := hrightKey
  rw [setKeys, assign_col both both.valid_mem, assign_col left hleft, assign_col output hkey]

theorem mem_columns {c : String} (hc : c ∈ outputColumns t right key) (rows : ℕ) :
    c ∈ (zeros (outputColumns t right key) rows : EncodedTable w).schema :=
  mem_zeros.mpr (Or.inr hc)

theorem joinOutput_valid {i : ℕ} (hi : i < t.rows * right.rows) :
    (joinOutput t right key).col encTableValid i =
      validBit key (t.row (i / right.rows)) (right.row (i % right.rows)) := by
  have hkey := mem_columns (mem_outputColumns.mpr (Or.inl rfl) : key ∈ outputColumns t right key)
    (t.rows * right.rows)
  have hrightKey := mem_columns
    (mem_outputColumns.mpr (Or.inr (Or.inl rfl)) : "r." ++ key ∈ outputColumns t right key)
    (t.rows * right.rows)
  rw [joinOutput, matchKeys, filter_valid, setKeys_col hkey hrightKey, if_pos rfl,
    setKeys_col hkey hrightKey, setKeys_col hkey hrightKey, if_neg (rightKey_ne_valid key), if_pos rfl,
    if_neg (rightKey_ne key).symm, if_pos rfl, mapped_repeated t right _ hi, mapped_cyclic t right _ hi,
    mapped_cyclic t right _ hi, validBit]
  by_cases hvalid : key = encTableValid
  · rw [if_pos hvalid, if_pos hvalid, mapped_repeated t right _ hi, mapped_cyclic t right _ hi]
    rfl
  · rw [if_neg hvalid, if_neg hvalid, mapped_repeated t right _ hi]
    rfl

theorem joinOutput_key (hvalid : key ≠ encTableValid) {i : ℕ} (hi : i < t.rows * right.rows) :
    (joinOutput t right key).col key i = t.col key (i / right.rows) := by
  have hkey := mem_columns (mem_outputColumns.mpr (Or.inl rfl) : key ∈ outputColumns t right key)
    (t.rows * right.rows)
  have hrightKey := mem_columns
    (mem_outputColumns.mpr (Or.inr (Or.inl rfl)) : "r." ++ key ∈ outputColumns t right key)
    (t.rows * right.rows)
  rw [joinOutput, matchKeys, filter_col _ _ hvalid, setKeys_col hkey hrightKey, if_neg hvalid,
    if_neg (rightKey_ne key).symm, if_pos rfl, mapped_repeated t right _ hi]

theorem joinOutput_rest {c : String} (hvalid : c ≠ encTableValid) (hkey : c ≠ key)
    (hrightKey : c ≠ "r." ++ key) (i : ℕ) : (joinOutput t right key).col c i = 0 := by
  have hkey' := mem_columns (mem_outputColumns.mpr (Or.inl rfl) : key ∈ outputColumns t right key)
    (t.rows * right.rows)
  have hrightKey' := mem_columns
    (mem_outputColumns.mpr (Or.inr (Or.inl rfl)) : "r." ++ key ∈ outputColumns t right key)
    (t.rows * right.rows)
  rw [joinOutput, matchKeys, filter_col _ _ hvalid, setKeys_col hkey' hrightKey', if_neg hvalid,
    if_neg hrightKey, if_neg hkey, zeros_col, if_neg (not_and_of_not_left _ hvalid)]

/-- Row `i` of the result is a pair of rows, with the right one over the left one. -/
theorem row_joinTable (hrightKey : "r." ++ key ∉ t.schema ∧ "r." ++ key ∉ right.schema)
    (hid : encTableJoinId ∈ t.schema → key = encTableJoinId) {i : ℕ} (hi : i < t.rows * right.rows) :
    (joinTable t right key).row i =
      overlaid right key (validBit key (t.row (i / right.rows)) (right.row (i % right.rows)))
        (t.row (i / right.rows)) (right.row (i % right.rows)) := by
  ext c
  have hschema : (copiedData t key (repeatedMapping t.rows right.rows) t.schema
      (joinOutput t right key)).schema = (joinOutput t right key).schema := copiedData_schema _ _
  have hright : ∀ k ∈ right.schema, k = encTableValid ∨ k = key ∨
      k ∈ (joinOutput t right key).schema := copies_right hid
  rw [← hschema] at hright
  rw [row, joinTable, deleteColumns_col, overlaid]
  by_cases hc : c = "r." ++ key
  · subst hc
    rw [if_pos (List.mem_singleton_self _), if_neg (rightKey_ne_valid key),
      if_neg (not_and_of_not_left _ hrightKey.2), row, t.col_of_notMem _ hrightKey.1]
    rfl
  · rw [if_neg fun hmem => hc (List.mem_singleton.mp hmem), copiedData_col hright,
      copiedData_col (copies_left_iff.mpr hid)]
    by_cases hvalid : c = encTableValid
    · subst hvalid
      rw [if_neg (by tauto), if_neg (by tauto), if_pos rfl, joinOutput_valid hi]
    · rw [if_neg hvalid]
      by_cases hkey : c = key
      · subst hkey
        rw [if_neg (by tauto), if_neg (by tauto), if_neg (by tauto), joinOutput_key hvalid hi]
        rfl
      · by_cases hmem : c ∈ right.schema
        · rw [if_pos ⟨hmem, hvalid, hkey⟩, if_pos ⟨hmem, hkey⟩, mapped_cyclic t right _ hi]
          rfl
        · rw [if_neg (not_and_of_not_left _ hmem), if_neg (not_and_of_not_left _ hmem)]
          by_cases ht : c ∈ t.schema
          · rw [if_pos ⟨ht, hvalid, hkey⟩, mapped_repeated t right _ hi]
            rfl
          · rw [if_neg (not_and_of_not_left _ ht), joinOutput_rest hvalid hkey hc, row,
              t.col_of_notMem c ht]
            rfl

theorem allRows_joinTable (hrightKey : "r." ++ key ∉ t.schema ∧ "r." ++ key ∉ right.schema)
    (hid : encTableJoinId ∈ t.schema → key = encTableJoinId) :
    (joinTable t right key).allRows = (t.allRows ×ˢ right.allRows).map fun p =>
      overlaid right key (validBit key p.1 p.2) p.1 p.2 := by
  have hrows : (joinTable t right key).rows = t.rows * right.rows := by
    rw [joinTable, deleteColumns_rows, copiedData_rows, copiedData_rows, joinOutput_rows]
  have hpairs : t.allRows ×ˢ right.allRows =
      (Multiset.range t.rows ×ˢ Multiset.range right.rows).map (Prod.map t.row right.row) :=
    map_product_map t.row right.row _ _
  rw [hpairs, ← range_mul_map, allRows, hrows, Multiset.map_map, Multiset.map_map]
  refine Multiset.map_congr rfl fun i hi => ?_
  exact row_joinTable hrightKey hid (Multiset.mem_range.mp hi)

/-- The pairs of a valid row of each table with equal keys. -/
def matchingRows (t right : EncodedTable w) (key : String) : Multiset (Row w × Row w) :=
  (t.allRows ×ˢ right.allRows).filter fun p =>
    p.1 encTableValid ≠ 0 ∧ p.2 encTableValid ≠ 0 ∧ p.1 key = p.2 key

theorem validBit_eq (hw : 0 < w) {ρ σ : Row w} (hρ : ρ encTableValid = 0 ∨ ρ encTableValid = 1)
    (hσ : σ encTableValid = 0 ∨ σ encTableValid = 1) : validBit key ρ σ =
      if ρ encTableValid ≠ 0 ∧ σ encTableValid ≠ 0 ∧ ρ key = σ key then 1 else 0 := by
  unfold validBit Opened.andB1 Opened.equalB Opened.bit
  by_cases hkey : key = encTableValid
  · subst hkey
    rw [if_pos rfl]
    rcases hρ with hρ | hρ <;> rcases hσ with hσ | hσ <;> rw [hρ, hσ] <;> simp [hw.ne']
  · rw [if_neg hkey]
    rcases hρ with hρ | hρ <;> rcases hσ with hσ | hσ <;> rw [hρ, hσ]
    · simp
    · simp
    · simp
    · by_cases heq : ρ key = σ key
      · simp [heq, hw.ne']
      · simp [heq]

theorem singleBit_of_mem {name : String} (hbits : t.SingleBit name) {ρ : Row w}
    (hρ : ρ ∈ t.allRows) : ρ name = 0 ∨ ρ name = 1 := by
  obtain ⟨i, hi, rfl⟩ := Multiset.mem_map.mp hρ
  exact hbits i (Multiset.mem_range.mp hi)

/-- The valid rows are the matching pairs, the right row over the left one. -/
theorem validRows_joinTable (hw : 0 < w) (hrightKey : "r." ++ key ∉ t.schema ∧ "r." ++ key ∉ right.schema)
    (hid : encTableJoinId ∈ t.schema → key = encTableJoinId) (ht : t.SingleBit encTableValid)
    (hright : right.SingleBit encTableValid) :
    (joinTable t right key).validRows =
      (matchingRows t right key).map fun p => overlaid right key 1 p.1 p.2 := by
  have hone : (1 : BitVec w) ≠ 0 := (Opened.bit_ne_zero (a := true) hw).mpr rfl
  have hvalid : ∀ p ∈ t.allRows ×ˢ right.allRows, validBit key p.1 p.2 =
      if p.1 encTableValid ≠ 0 ∧ p.2 encTableValid ≠ 0 ∧ p.1 key = p.2 key then 1 else 0 := by
    intro p hp
    obtain ⟨hp1, hp2⟩ := Multiset.mem_product.mp hp
    exact validBit_eq hw (singleBit_of_mem ht hp1) (singleBit_of_mem hright hp2)
  rw [validRows, allRows_joinTable hrightKey hid, Multiset.filter_map, matchingRows]
  have hfilter : (t.allRows ×ˢ right.allRows).filter
      ((fun ρ : Row w => ρ encTableValid ≠ 0) ∘ fun p =>
        overlaid right key (validBit key p.1 p.2) p.1 p.2) =
      (t.allRows ×ˢ right.allRows).filter fun p =>
        p.1 encTableValid ≠ 0 ∧ p.2 encTableValid ≠ 0 ∧ p.1 key = p.2 key := by
    refine Multiset.filter_congr fun p hp => ?_
    show overlaid right key (validBit key p.1 p.2) p.1 p.2 encTableValid ≠ 0 ↔ _
    rw [overlaid, if_pos rfl, hvalid p hp]
    split
    next hmatch => exact iff_of_true hone hmatch
    next hmatch => exact iff_of_false (fun h => h rfl) hmatch
  rw [hfilter]
  refine Multiset.map_congr rfl fun p hp => ?_
  obtain ⟨hmem, hmatch⟩ := Multiset.mem_filter.mp hp
  rw [hvalid p hmem, if_pos hmatch]

end Rows

/-- A pair of rows with all columns of the left one and those of the right one it lacks. -/
def joined (t : EncodedTable w) (ρ σ : Row w) : Row w := fun c =>
  if c = encTableValid then 1 else if c ∈ t.schema then ρ c else σ c

/-- The valid rows are the matching pairs, each with the columns of both tables. -/
structure Joined (t right : EncodedTable w) (key : String) (r : EncodedTable w) : Prop where
  schema : ∀ c, c ∈ r.schema ↔ c ∈ t.schema ∨ c ∈ right.schema
  rows : r.validRows = (matchingRows t right key).map fun p => joined t p.1 p.2

theorem mem_joinTable (hkey : key ∈ t.schema)
    (hrightKey : "r." ++ key ∉ t.schema ∧ "r." ++ key ∉ right.schema)
    (hid : encTableJoinId ∈ t.schema → key = encTableJoinId) (c : String) :
    c ∈ (joinTable t right key).schema ↔ c ∈ t.schema ∨ c ∈ right.schema := by
  rw [joinTable, mem_deleteColumns, copiedData_schema, copiedData_schema, mem_joinOutput,
    mem_outputColumns, List.mem_singleton]
  have hvalid := t.valid_mem
  have hne := rightKey_ne_valid key
  constructor
  · rintro ⟨h, hc⟩
    rcases h with rfl | rfl | h | h | h
    · exact Or.inl hvalid
    · exact Or.inl hkey
    · exact absurd h hc
    · exact Or.inl h.1
    · exact Or.inr h.1
  · intro h
    refine ⟨?_, fun hc => h.elim (hc ▸ hrightKey.1) (hc ▸ hrightKey.2)⟩
    by_cases hck : c = key
    · exact Or.inr (Or.inl hck)
    · by_cases ht : c ∈ t.schema
      · refine Or.inr (Or.inr (Or.inr (Or.inl ⟨ht, hck, ?_⟩)))
        intro hcid
        exact hck (hcid.trans (hid (hcid ▸ ht)).symm)
      · by_cases hv : c = encTableValid
        · exact Or.inl hv
        · exact Or.inr (Or.inr (Or.inr (Or.inr ⟨h.resolve_left ht, hck, hv, ht⟩)))

/-- The join aborts on a table id of the left table and on a name of its own, and takes columns of both
tables from the right one. -/
theorem cartesianJoin_iff (hw : 0 < w) (t right : EncodedTable w) (key : String)
    (ht : t.SingleBit encTableValid) (hright : right.SingleBit encTableValid) :
    Draws.Returns (t.cartesianJoin right key) (Joined t right key) ↔
      (key ∈ t.schema ∧ key ∈ right.schema ∧ isBShared key) ∧
      ("r." ++ key ∉ t.schema ∧ "r." ++ key ∉ right.schema) ∧
      (encTableJoinId ∈ t.schema → key = encTableJoinId) ∧ t.rows * right.rows < 2 ^ 31 ∧
      (matchingRows t right key).map (fun p => overlaid right key 1 p.1 p.2) =
        (matchingRows t right key).map fun p => joined t p.1 p.2 := by
  rw [returns_cartesianJoin_iff]
  refine and_congr_right fun hkey => and_congr_right fun hrightKey => and_congr_right fun hid =>
    and_congr_right fun _ => ?_
  constructor
  · intro h
    rw [← validRows_joinTable hw hrightKey hid ht hright]
    exact h.rows
  · intro h
    refine ⟨mem_joinTable hkey.1 hrightKey hid, ?_⟩
    rw [validRows_joinTable hw hrightKey hid ht hright]
    exact h

/-- Without other columns in common it does not matter which row lies on top. -/
theorem map_overlaid_eq (hkey : key ∈ t.schema)
    (hshared : ∀ c ∈ t.schema, c ∈ right.schema → c = key ∨ c = encTableValid) :
    (matchingRows t right key).map (fun p => overlaid right key 1 p.1 p.2) =
      (matchingRows t right key).map fun p => joined t p.1 p.2 := by
  refine Multiset.map_congr rfl fun p hp => ?_
  obtain ⟨hp1, hp2⟩ := Multiset.mem_product.mp (Multiset.mem_filter.mp hp).1
  obtain ⟨i, -, hi⟩ := Multiset.mem_map.mp hp1
  obtain ⟨j, -, hj⟩ := Multiset.mem_map.mp hp2
  ext c
  rw [overlaid, joined]
  by_cases hvalid : c = encTableValid
  · rw [if_pos hvalid, if_pos hvalid]
  · rw [if_neg hvalid, if_neg hvalid]
    by_cases ht : c ∈ t.schema
    · rw [if_pos ht]
      by_cases hc : c ∈ right.schema ∧ c ≠ key
      · rcases hshared c ht hc.1 with h | h
        · exact absurd h hc.2
        · exact absurd h hvalid
      · rw [if_neg hc]
    · rw [if_neg ht]
      by_cases hc : c ∈ right.schema
      · rw [if_pos ⟨hc, fun h => ht (h ▸ hkey)⟩]
      · rw [if_neg (not_and_of_not_left _ hc), ← hi, ← hj, row, row, t.col_of_notMem c ht,
          right.col_of_notMem c hc]
        rfl

def exampleSide (name : String) (value : BitVec 8) : EncodedTable 8 :=
  ofColumns 1 1 [("[k]", 3), (name, fun _ => value)]

theorem cartesianJoin_example : Draws.Returns ((exampleSide "a" 5).cartesianJoin (exampleSide "b" 7) "[k]")
    (Joined (exampleSide "a" 5) (exampleSide "b" 7) "[k]") := by
  have hbits : ∀ name value, (exampleSide name value).SingleBit encTableValid := fun _ _ _ _ => Or.inr rfl
  refine (cartesianJoin_iff (by decide) _ _ "[k]" (hbits _ _) (hbits _ _)).mpr ⟨by decide, by decide,
    by decide, by decide, map_overlaid_eq (by decide) (by decide)⟩

/-- A column of both tables comes from the right one. -/
theorem cartesianJoin_overwrites :
    ¬ Draws.Returns ((exampleSide "c" 5).cartesianJoin (exampleSide "c" 7) "[k]")
      (Joined (exampleSide "c" 5) (exampleSide "c" 7) "[k]") := by
  have hbits : ∀ name value, (exampleSide name value).SingleBit encTableValid := fun _ _ _ _ => Or.inr rfl
  intro h
  have hrows := (returns_cartesianJoin_iff.mp h).2.2.2.2.rows
  rw [validRows_joinTable (by decide) (by decide) (by decide) (hbits _ _) (hbits _ _)] at hrows
  have hcolumn := congrArg (Multiset.map fun ρ : Row 8 => ρ "c") hrows
  rw [Multiset.map_map, Multiset.map_map] at hcolumn
  exact absurd hcolumn (by decide)

end Join

end CryptDough.EncodedTable
