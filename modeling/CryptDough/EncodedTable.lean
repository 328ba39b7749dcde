import CryptDough.LogicalNot
import CryptDough.TableSort
import Mathlib.Data.Fintype.Basic
import Mathlib.Data.List.Lex
import Mathlib.Data.Multiset.Filter
import Mathlib.Data.Nat.Size

/-! Tables of named columns, on opened values: the schema, the valid bit, and the operations that do
not look at the data beyond sorting it. -/

namespace CryptDough

open StableSort

variable {w : ℕ}

def encTablePad : String := "[##PAD]"

def encTableJoinId : String := "[##TID]"

def encTableValid : String := "[##V]"

def encTableUniq : String := "[##UNIQ]"

def encTableLabel : String := "##LABEL"

def reservedColumns : List String :=
  [encTablePad, encTableJoinId, encTableValid, encTableUniq, encTableLabel]

theorem valid_notMem_uniq : encTableValid ∉ [encTableUniq] := by
  decide

/-- Names with a bracket belong to B-shared columns. -/
def isBShared (name : String) : Bool := '[' ∈ name.toList

namespace Opened

/-! What the operators on columns open to, for each element. -/

/-- The word of a truth value. -/
def bit (b : Bool) : BitVec w := if b then 1 else 0

def andB1 (x y : BitVec w) : BitVec w := x &&& y

def orB1 (x y : BitVec w) : BitVec w := x ||| y

/-- Only the least significant bit is looked at. -/
def notB1 (x : BitVec w) : BitVec w := (x &&& 1) ^^^ 1

/-- `!` in `Beaver_2PC`: the first party tests its whole share for zero, the other one does nothing. -/
def notB1TwoParties (share x : BitVec w) : BitVec w := bit (decide (share = 0)) ^^^ (x ^^^ share)

def equalB (x y : BitVec w) : BitVec w := bit (decide (x = y))

def notEqualB (x y : BitVec w) : BitVec w := notB1 (equalB x y)

def greaterB (x y : BitVec w) : BitVec w := bit (decide (y.toInt < x.toInt))

def extendLsb (x : BitVec w) : BitVec w := if x.getLsbD 0 then BitVec.allOnes w else 0

def multiplexA (sel a b : BitVec w) : BitVec w := a + sel * (b - a)

def multiplexB (sel a b : BitVec w) : BitVec w := a ^^^ (extendLsb sel &&& (b ^^^ a))

theorem bit_ne_zero (hw : 0 < w) {a : Bool} : (bit a : BitVec w) ≠ 0 ↔ a = true := by
  cases a <;> simp [bit, hw.ne']

@[simp] theorem andB1_bit (a b : Bool) : andB1 (bit a) (bit b : BitVec w) = bit (a && b) := by
  cases a <;> cases b <;> simp [andB1, bit]

@[simp] theorem orB1_bit (a b : Bool) : orB1 (bit a) (bit b : BitVec w) = bit (a || b) := by
  cases a <;> cases b <;> simp [orB1, bit]

@[simp] theorem notB1_bit (a : Bool) : notB1 (bit a : BitVec w) = bit (!a) := by
  cases a <;> simp [notB1, bit]

theorem notB1_eq (x : BitVec w) : notB1 x = bit (!x.getLsbD 0) := by
  rw [notB1, Vec.mask_one_eq, bit]
  cases x.getLsbD 0 <;> simp

theorem notB1TwoParties_opens {n : ℕ} (x : Beaver2PC.scheme.Shares (Vec w n)) (k : Fin n) :
    reconstructFromB (fun p => Beaver2PC.notB1 p (x p)) k =
      notB1TwoParties (x 0 0 k) (reconstructFromB x k) := by
  have hopened : reconstructFromB (fun p => Beaver2PC.notB1 p (x p)) k =
      Vec.logicalNot (x 0 0) k ^^^ x 1 0 k := rfl
  have hvalue : reconstructFromB x k = x 0 0 k ^^^ x 1 0 k := rfl
  have hother : (x 0 0 k ^^^ x 1 0 k) ^^^ x 0 0 k = x 1 0 k := by
    rw [BitVec.xor_comm, ← BitVec.xor_assoc, BitVec.xor_self, BitVec.zero_xor]
  rw [hopened, hvalue, notB1TwoParties, hother, Vec.logicalNot_apply, bit]
  simp

theorem notEqualB_eq (x y : BitVec w) : notEqualB x y = bit (decide (x ≠ y)) := by
  rw [notEqualB, equalB, notB1_bit, decide_not]

theorem extendLsb_bit (hw : 0 < w) (g : Bool) :
    extendLsb (bit g : BitVec w) = if g then BitVec.allOnes w else 0 := by
  cases g <;> simp [extendLsb, bit, hw]

theorem multiplexA_bit (g : Bool) (a b : BitVec w) :
    multiplexA (bit g) a b = if g then b else a := by
  cases g <;> simp [multiplexA, bit]

theorem multiplexB_bit (hw : 0 < w) (g : Bool) (a b : BitVec w) :
    multiplexB (bit g) a b = if g then b else a := by
  rw [multiplexB, extendLsb_bit hw]
  cases g with
  | false => simp
  | true =>
      rw [if_pos rfl, if_pos rfl, BitVec.allOnes_and, BitVec.xor_comm b a, ← BitVec.xor_assoc,
        BitVec.xor_self, BitVec.zero_xor]

end Opened

/-- What one call of `!` makes of the element of row `i` in step `k`, for operands that are not masked
to their last bit. -/
abbrev Negation := ℕ → ℕ → (w : ℕ) → BitVec w → BitVec w

def plainNegation : Negation := fun _ _ _ => Opened.notB1

/-- Two parties need their shares for it, which are drawn. -/
def Draws.negation (numParties : ℕ) : Draws Negation :=
  if numParties = 2 then do
    let shares ← Draws.nextShares
    pure fun k i w => Opened.notB1TwoParties (shares k i w)
  else pure plainNegation

theorem Draws.returns_negation (numParties : ℕ) :
    Draws.Returns (Draws.negation numParties) fun negation =>
      numParties ≠ 2 → negation = plainNegation := by
  by_cases htwo : numParties = 2
  · rw [negation, if_pos htwo]
    exact fun s => ⟨_, _, rfl, fun hne => absurd htwo hne⟩
  · rw [negation, if_neg htwo]
    exact Draws.Returns.pure fun _ => rfl

abbrev Column (w : ℕ) := ℕ → BitVec w

abbrev Row (w : ℕ) := String → BitVec w

/-- The columns beyond the schema are zero. -/
@[ext] structure EncodedTable (w : ℕ) where
  rows : ℕ
  schema : List String
  col : String → Column w
  nodup : schema.Nodup
  valid_mem : encTableValid ∈ schema
  col_of_notMem : ∀ c, c ∉ schema → col c = 0

namespace EncodedTable

/-- A table with the given contents. -/
def ofColumns (rows : ℕ) (valid : Column w) (columns : List (String × Column w)) :
    EncodedTable w where
  rows := rows
  schema := (columns.map Prod.fst).dedup.insert encTableValid
  col := fun c => if c = encTableValid then valid else (columns.lookup c).getD 0
  nodup := (List.nodup_dedup _).insert
  valid_mem := List.mem_insert_self
  col_of_notMem := by
    intro c hc
    rw [List.mem_insert_iff, not_or, List.mem_dedup] at hc
    have hnone : columns.lookup c = none := by
      rw [List.lookup_eq_none_iff]
      intro p hp
      rw [bne_iff_ne]
      rintro rfl
      exact hc.2 (List.mem_map_of_mem hp)
    rw [if_neg hc.1, hnone]
    rfl

def row (t : EncodedTable w) (i : ℕ) : Row w := fun c => t.col c i

def allRows (t : EncodedTable w) : Multiset (Row w) := (Multiset.range t.rows).map t.row

/-- The rows that opening the table shows. -/
def validRows (t : EncodedTable w) : Multiset (Row w) :=
  t.allRows.filter fun ρ => ρ encTableValid ≠ 0

/-- `t[name]`, which aborts on an unknown name. -/
def requireColumns (t : EncodedTable w) (names : List String) : Draws Unit :=
  guard (∀ c ∈ names, c ∈ t.schema)

/-- `t` with one more column, of zeros. -/
def extend (t : EncodedTable w) (name : String) : EncodedTable w where
  rows := t.rows
  schema := t.schema.insert name
  col := t.col
  nodup := t.nodup.insert
  valid_mem := List.mem_insert_of_mem t.valid_mem
  col_of_notMem := fun c hc => t.col_of_notMem c fun hmem => hc (List.mem_insert_of_mem hmem)

def addColumn (t : EncodedTable w) (name : String) : Draws (EncodedTable w) := do
  guard (name ∉ t.schema)
  pure (t.extend name)

def addColumns (t : EncodedTable w) (names : List String) : Draws (EncodedTable w) :=
  names.foldlM addColumn t

/-- `t[name] = v`. -/
def assign (t : EncodedTable w) (name : String) (v : Column w) : EncodedTable w where
  rows := t.rows
  schema := t.schema
  col := fun c => if c = name ∧ name ∈ t.schema then v else t.col c
  nodup := t.nodup
  valid_mem := t.valid_mem
  col_of_notMem := by
    intro c hc
    have hname : ¬ (c = name ∧ name ∈ t.schema) := fun h => hc (h.1 ▸ h.2)
    rw [if_neg hname, t.col_of_notMem c hc]

def filter (t : EncodedTable w) (e : Column w) : EncodedTable w :=
  t.assign encTableValid fun i => Opened.andB1 (t.col encTableValid i) (e i)

def deleteColumns (t : EncodedTable w) (cols : List String) (hvalid : encTableValid ∉ cols) :
    EncodedTable w where
  rows := t.rows
  schema := t.schema.filter (· ∉ cols)
  col := fun c => if c ∈ cols then 0 else t.col c
  nodup := t.nodup.filter _
  valid_mem := List.mem_filter.mpr ⟨t.valid_mem, decide_eq_true hvalid⟩
  col_of_notMem := by
    intro c hc
    by_cases hcols : c ∈ cols
    · rw [if_pos hcols]
    · rw [if_neg hcols, t.col_of_notMem c fun hmem =>
        hc (List.mem_filter.mpr ⟨hmem, decide_eq_true hcols⟩)]

/-- Reserved columns stay. -/
def project (t : EncodedTable w) (cols : List String) : EncodedTable w :=
  t.deleteColumns (t.schema.filter fun c => c ∉ cols ++ reservedColumns) fun hmem => by
    have hnot := of_decide_eq_true (List.mem_filter.mp hmem).2
    exact hnot (List.mem_append_right cols (by decide))

/-- New rows are zero. -/
def resize (t : EncodedTable w) (n : ℕ) : EncodedTable w where
  rows := n
  schema := t.schema
  col := fun c i => if i < t.rows then t.col c i else 0
  nodup := t.nodup
  valid_mem := t.valid_mem
  col_of_notMem := by
    intro c hc
    funext i
    rw [t.col_of_notMem c hc]
    exact ite_self 0

def head (t : EncodedTable w) (n : ℕ) : EncodedTable w := t.resize n

/-- The size is computed as a shifted 32-bit integer. -/
def padPowerOfTwo (t : EncodedTable w) : Draws (EncodedTable w) := do
  guard (0 < t.rows ∧ Nat.size (t.rows - 1) < 31)
  pure (t.resize (1 <<< Nat.size (t.rows - 1)))

/-- The rows of `other` follow those of `t`, with the table id one. -/
def appended (t other : EncodedTable w) : EncodedTable w where
  rows := t.rows + other.rows
  schema := (t.schema ∪ other.schema).insert encTableJoinId
  col := fun c i =>
    if i < t.rows then t.col c i
    else if i < t.rows + other.rows then
      if c = encTableJoinId then 1 else other.col c (i - t.rows)
    else 0
  nodup := (other.nodup.union t.schema).insert
  valid_mem := List.mem_insert_of_mem (List.mem_union_left t.valid_mem _)
  col_of_notMem := by
    intro c hc
    have hname : c ≠ encTableJoinId := fun heq => hc (heq ▸ List.mem_insert_self)
    have ht : c ∉ t.schema := fun hmem => hc (List.mem_insert_of_mem (List.mem_union_left hmem _))
    have hother : c ∉ other.schema := fun hmem =>
      hc (List.mem_insert_of_mem (List.mem_union_right _ hmem))
    ext i
    rw [t.col_of_notMem c ht, other.col_of_notMem c hother, if_neg hname]
    simp

def vector (t : EncodedTable w) (name : String) : Vec w t.rows := fun i => t.col name i

def ofVec {n : ℕ} (v : Vec w n) : Column w := fun i => if h : i < n then v ⟨i, h⟩ else 0

def sortColumns (t : EncodedTable w) (spec : List (String × SortOrder)) :
    List (SortColumn w t.rows) :=
  spec.map fun s => ⟨t.vector s.1, s.2, s.1 = encTableValid ∨ s.1 = encTableJoinId⟩

def assignAll {n : ℕ} (t : EncodedTable w) (columns : List (String × Vec w n)) : EncodedTable w :=
  columns.foldl (fun t c => t.assign c.1 (ofVec c.2)) t

/-- A column that is listed twice would be permuted twice: such specifications are left out. -/
def sort (numParties : ℕ) (protocol : SortingProtocol) (t : EncodedTable w)
    (spec : List (String × SortOrder)) : Draws (EncodedTable w) := do
  let names := spec.map Prod.fst
  t.requireColumns names
  guard ((∀ c ∈ names, isBShared c) ∧ names.Nodup)
  let data := t.schema.filter (· ∉ names)
  let dataA := data.filter fun c => !isBShared c
  let dataB := data.filter fun c => isBShared c
  let (keys, a, b) ← tableSort numParties protocol (t.sortColumns spec) (dataA.map t.vector)
    (dataB.map t.vector)
  pure (t.assignAll (names.zip keys ++ dataA.zip a ++ dataB.zip b))

/-- The data columns of a sort that is told which columns to sort. -/
def dataColumns (t : EncodedTable w) (spec : List (String × SortOrder)) (toBeSorted : List String) :
    List String := t.schema.filter fun c => c ∉ spec.map Prod.fst ∧ c ∈ toBeSorted

/-- `sort` of the keys and of the columns `toBeSorted`. -/
def sortTo (numParties : ℕ) (protocol : SortingProtocol) (t : EncodedTable w)
    (spec : List (String × SortOrder)) (toBeSorted : List String) : Draws (EncodedTable w) := do
  let names := spec.map Prod.fst
  t.requireColumns names
  guard ((∀ c ∈ names, isBShared c) ∧ names.Nodup)
  let dataA := (t.dataColumns spec toBeSorted).filter fun c => !isBShared c
  let dataB := (t.dataColumns spec toBeSorted).filter fun c => isBShared c
  let (keys, a, b) ← tableSort numParties protocol (t.sortColumns spec) (dataA.map t.vector)
    (dataB.map t.vector)
  pure (t.assignAll (names.zip keys ++ dataA.zip a ++ dataB.zip b))

/-- All columns that are sorted. -/
def sortedNames (t : EncodedTable w) (spec : List (String × SortOrder)) (toBeSorted : List String) :
    List String :=
  spec.map Prod.fst ++ (t.dataColumns spec toBeSorted).filter (fun c => !isBShared c) ++
    (t.dataColumns spec toBeSorted).filter fun c => isBShared c

/-- Row `i` of `t` stands at position `τ i`. -/
def rearranged (t : EncodedTable w) (τ : Equiv.Perm (Fin t.rows)) : EncodedTable w where
  rows := t.rows
  schema := t.schema
  col := fun c => ofVec (rearrange τ (t.vector c))
  nodup := t.nodup
  valid_mem := t.valid_mem
  col_of_notMem := by
    intro c hc
    ext i
    simp [ofVec, rearrange, vector, t.col_of_notMem c hc]

@[simp] theorem extend_rows (t : EncodedTable w) (name : String) : (t.extend name).rows = t.rows := rfl

@[simp] theorem extend_col (t : EncodedTable w) (name : String) : (t.extend name).col = t.col := rfl

@[simp] theorem mem_extend (t : EncodedTable w) (name c : String) :
    c ∈ (t.extend name).schema ↔ c = name ∨ c ∈ t.schema := List.mem_insert_iff

@[simp] theorem assign_rows (t : EncodedTable w) (name : String) (v : Column w) :
    (t.assign name v).rows = t.rows := rfl

@[simp] theorem assign_schema (t : EncodedTable w) (name : String) (v : Column w) :
    (t.assign name v).schema = t.schema := rfl

theorem assign_col (t : EncodedTable w) {name : String} (hname : name ∈ t.schema) (v : Column w)
    (c : String) : (t.assign name v).col c = if c = name then v else t.col c := by
  simp [assign, hname]

@[simp] theorem assign_col_self (t : EncodedTable w) {name : String} (hname : name ∈ t.schema)
    (v : Column w) : (t.assign name v).col name = v := by
  rw [assign_col t hname, if_pos rfl]

theorem assign_col_of_ne (t : EncodedTable w) {name c : String} (hne : c ≠ name) (v : Column w) :
    (t.assign name v).col c = t.col c := by
  simp [assign, hne]

theorem filter_valid (t : EncodedTable w) (e : Column w) (i : ℕ) :
    (t.filter e).col encTableValid i = Opened.andB1 (t.col encTableValid i) (e i) := by
  rw [filter, assign_col_self t t.valid_mem]

theorem filter_col (t : EncodedTable w) (e : Column w) {c : String} (hc : c ≠ encTableValid) :
    (t.filter e).col c = t.col c := assign_col_of_ne t hc _

@[simp] theorem deleteColumns_rows (t : EncodedTable w) (cols : List String)
    (hvalid : encTableValid ∉ cols) : (t.deleteColumns cols hvalid).rows = t.rows := rfl

theorem deleteColumns_col (t : EncodedTable w) (cols : List String) (hvalid : encTableValid ∉ cols)
    (c : String) : (t.deleteColumns cols hvalid).col c = if c ∈ cols then 0 else t.col c := rfl

theorem mem_deleteColumns (t : EncodedTable w) (cols : List String) (hvalid : encTableValid ∉ cols)
    (c : String) : c ∈ (t.deleteColumns cols hvalid).schema ↔ c ∈ t.schema ∧ c ∉ cols := by
  rw [deleteColumns, List.mem_filter, decide_eq_true_iff]

@[simp] theorem project_rows (t : EncodedTable w) (cols : List String) :
    (t.project cols).rows = t.rows := rfl

theorem project_col (t : EncodedTable w) (cols : List String) (c : String) :
    (t.project cols).col c = if c ∈ cols ++ reservedColumns then t.col c else 0 := by
  have hiff : c ∈ t.schema.filter (fun c => c ∉ cols ++ reservedColumns) ↔
      c ∈ t.schema ∧ c ∉ cols ++ reservedColumns := by
    rw [List.mem_filter, decide_eq_true_iff]
  rw [project, deleteColumns_col]
  by_cases hkeep : c ∈ cols ++ reservedColumns
  · rw [if_pos hkeep, if_neg fun hmem => (hiff.mp hmem).2 hkeep]
  · rw [if_neg hkeep]
    by_cases hmem : c ∈ t.schema
    · rw [if_pos (hiff.mpr ⟨hmem, hkeep⟩)]
    · rw [t.col_of_notMem c hmem]
      exact ite_self 0

theorem mem_project (t : EncodedTable w) (cols : List String) (c : String) :
    c ∈ (t.project cols).schema ↔ c ∈ t.schema ∧ c ∈ cols ++ reservedColumns := by
  rw [project, mem_deleteColumns, List.mem_filter, decide_eq_true_iff]
  tauto

/-- The columns that a projection keeps of a row. -/
def keep (cols : List String) (ρ : Row w) : Row w :=
  fun c => if c ∈ cols ++ reservedColumns then ρ c else 0

theorem row_project (t : EncodedTable w) (cols : List String) (i : ℕ) :
    (t.project cols).row i = keep cols (t.row i) := by
  ext c
  rw [row, project_col, keep]
  split <;> rfl

theorem allRows_project (t : EncodedTable w) (cols : List String) :
    (t.project cols).allRows = t.allRows.map (keep cols) := by
  rw [allRows, allRows, Multiset.map_map]
  exact Multiset.map_congr rfl fun i _ => row_project t cols i

theorem row_appended_left (t other : EncodedTable w) {i : ℕ} (hi : i < t.rows) :
    (t.appended other).row i = t.row i := by
  funext c
  exact if_pos hi

theorem row_appended_right (t other : EncodedTable w) {i : ℕ} (hi : i < other.rows) :
    (t.appended other).row (t.rows + i) = Function.update (other.row i) encTableJoinId 1 := by
  ext c
  have hnot : ¬ t.rows + i < t.rows := by omega
  have hlt : t.rows + i < t.rows + other.rows := by omega
  simp only [row, appended, if_neg hnot, if_pos hlt, Nat.add_sub_cancel_left, Function.update_apply]

theorem allRows_appended (t other : EncodedTable w) :
    (t.appended other).allRows =
      t.allRows + other.allRows.map fun ρ => Function.update ρ encTableJoinId 1 := by
  have hrange : Multiset.range (t.appended other).rows =
      Multiset.range t.rows + (Multiset.range other.rows).map (t.rows + ·) :=
    Multiset.range_add t.rows other.rows
  rw [allRows, hrange, Multiset.map_add, Multiset.map_map, allRows, allRows, Multiset.map_map]
  congr 1
  · exact Multiset.map_congr rfl fun i hi => row_appended_left t other (Multiset.mem_range.mp hi)
  · exact Multiset.map_congr rfl fun i hi => row_appended_right t other (Multiset.mem_range.mp hi)

@[simp] theorem ofVec_apply {n : ℕ} (v : Vec w n) (i : Fin n) : ofVec v i = v i := dif_pos i.isLt

theorem row_rearranged (t : EncodedTable w) (τ : Equiv.Perm (Fin t.rows)) (i : Fin t.rows) :
    (t.rearranged τ).row i = t.row (τ.symm i) := by
  funext c
  exact ofVec_apply _ i

theorem allRows_eq_map_univ (t : EncodedTable w) :
    t.allRows = (Finset.univ : Finset (Fin t.rows)).val.map fun i : Fin t.rows => t.row i := by
  have hrange : Multiset.range t.rows = (Finset.univ : Finset (Fin t.rows)).val.map Fin.val := by
    rw [Fin.univ_val_map]
    rw [List.ofFn_eq_map, List.map_coe_finRange_eq_range]
    rfl
  rw [allRows, hrange, Multiset.map_map]
  rfl

theorem allRows_rearranged (t : EncodedTable w) (τ : Equiv.Perm (Fin t.rows)) :
    (t.rearranged τ).allRows = t.allRows := by
  have hsymm := Multiset.map_univ_val_equiv τ.symm
  rw [allRows_eq_map_univ, allRows_eq_map_univ t, ← hsymm, Multiset.map_map]
  exact Multiset.map_congr rfl fun i _ => row_rearranged t τ i

/-- The values of the columns `names` in a row. -/
def keyOf (names : List String) (ρ : Row w) : List (BitVec w) := names.map ρ

/-- What the sort compares: the signed values. -/
def orderOf (names : List String) (ρ : Row w) : List ℤ := names.map fun c => (ρ c).toInt

theorem orderOf_eq_iff (names : List String) (ρ σ : Row w) :
    orderOf names ρ = orderOf names σ ↔ keyOf names ρ = keyOf names σ := by
  rw [orderOf, orderOf, keyOf, keyOf, List.map_inj_left, List.map_inj_left]
  exact forall₂_congr fun c _ => BitVec.toInt_inj

/-- The rows are in ascending order of the columns `names`. -/
def SortedBy (t : EncodedTable w) (names : List String) : Prop :=
  ∀ i j, i ≤ j → j < t.rows → orderOf names (t.row i) ≤ orderOf names (t.row j)

def ascending (names : List String) : List (String × SortOrder) := names.map fun c => (c, .asc)

@[simp] theorem ascending_fst (names : List String) : (ascending names).map Prod.fst = names := by
  rw [ascending, List.map_map]
  exact List.map_id names

theorem specLt_ascending (t : EncodedTable w) (names : List String) (i j : Fin t.rows) :
    specLt (t.sortColumns (ascending names)) i j ↔
      orderOf names (t.row i) < orderOf names (t.row j) := by
  induction names with
  | nil => exact iff_of_false id (lt_irrefl _)
  | cons c names ih =>
      rw [orderOf, orderOf, List.map_cons, List.map_cons, List.cons_lt_cons_iff, ← orderOf,
        ← orderOf, ← ih]
      change lexRel _ _ i j ↔ _
      unfold lexRel
      change (t.col c i).toInt < (t.col c j).toInt ∨ (¬ (t.col c j).toInt < (t.col c i).toInt ∧ _) ↔
        (t.col c i).toInt < (t.col c j).toInt ∨ ((t.col c i).toInt = (t.col c j).toInt ∧ _)
      constructor
      · rintro (hlt | ⟨hnot, hrest⟩)
        · exact Or.inl hlt
        · rcases lt_or_eq_of_le (not_lt.mp hnot) with hlt | heq
          · exact Or.inl hlt
          · exact Or.inr ⟨heq, hrest⟩
      · rintro (hlt | ⟨heq, hrest⟩)
        · exact Or.inl hlt
        · exact Or.inr ⟨heq.not_gt, hrest⟩

theorem sortedBy_rearranged (t : EncodedTable w) {names : List String} {τ : Equiv.Perm (Fin t.rows)}
    (hτ : StableSorts (specLt (t.sortColumns (ascending names))) τ) :
    (t.rearranged τ).SortedBy names := by
  intro i j hij hj
  have hi : i < t.rows := lt_of_le_of_lt hij hj
  have hrow_i := row_rearranged t τ ⟨i, hi⟩
  have hrow_j := row_rearranged t τ ⟨j, hj⟩
  rw [hrow_i, hrow_j]
  by_contra hnot
  have hlt := (specLt_ascending t names _ _).mpr (not_le.mp hnot)
  have hpos := (hτ _ _).mpr (Or.inl hlt)
  rw [Equiv.apply_symm_apply, Equiv.apply_symm_apply] at hpos
  exact absurd hij (Nat.not_le.mpr (Fin.lt_def.mp hpos))

/-- The column holds zeros and ones. -/
def SingleBit (t : EncodedTable w) (name : String) : Prop :=
  ∀ i, i < t.rows → t.col name i = 0 ∨ t.col name i = 1

theorem assignAll_schema {n : ℕ} (t : EncodedTable w) (columns : List (String × Vec w n)) :
    (t.assignAll columns).schema = t.schema := by
  induction columns generalizing t with
  | nil => rfl
  | cons c columns ih => exact ih (t.assign c.1 (ofVec c.2))

theorem assignAll_rows {n : ℕ} (t : EncodedTable w) (columns : List (String × Vec w n)) :
    (t.assignAll columns).rows = t.rows := by
  induction columns generalizing t with
  | nil => rfl
  | cons c columns ih => exact ih (t.assign c.1 (ofVec c.2))

theorem assignAll_col {n : ℕ} (t : EncodedTable w) (names : List String) (v : String → Vec w n)
    (c : String) : (t.assignAll (names.map fun c => (c, v c))).col c =
      if c ∈ names ∧ c ∈ t.schema then ofVec (v c) else t.col c := by
  induction names generalizing t with
  | nil => simp [assignAll]
  | cons d names ih =>
      have hstep := ih (t.assign d (ofVec (v d)))
      rw [assign_schema] at hstep
      apply hstep.trans
      by_cases hcd : c = d
      · subst hcd
        by_cases hmem : c ∈ t.schema <;> simp [assign, hmem]
      · rw [assign_col_of_ne t hcd]
        simp [hcd]

theorem returns_guard {p : Prop} [Decidable p] (hp : p) :
    Draws.Returns (guard p : Draws Unit) fun _ => True := by
  rw [guard, if_pos hp]
  exact Draws.Returns.pure trivial

theorem zip_map_self {α β : Type} (l : List α) (f : α → β) :
    l.zip (l.map f) = l.map fun a => (a, f a) := by
  have hzip : (l.map id).zip (l.map f) = l.map fun a => (id a, f a) := List.zip_map'
  rwa [List.map_id] at hzip

theorem assignAll_rearrange (t : EncodedTable w) (τ : Equiv.Perm (Fin t.rows)) {names : List String}
    (hnames : ∀ c ∈ t.schema, c ∈ names) :
    t.assignAll (names.map fun c => (c, rearrange τ (t.vector c))) = t.rearranged τ := by
  refine EncodedTable.ext (assignAll_rows _ _) (assignAll_schema _ _) ?_
  ext c
  rw [assignAll_col t names fun c => rearrange τ (t.vector c)]
  by_cases hmem : c ∈ t.schema
  · rw [if_pos ⟨hnames c hmem, hmem⟩]
    rfl
  · rw [if_neg fun h => hmem h.2, t.col_of_notMem c hmem, (t.rearranged τ).col_of_notMem c hmem]

variable {numParties : ℕ} {protocol : SortingProtocol}

/-- The sorted columns are rearranged by the stable permutation of the specification. -/
theorem returns_sortTo (t : EncodedTable w) (hn0 : 0 < t.rows) (hn : t.rows < 2 ^ 31)
    (hw : ShareWidth w) (hprotocol : protocol = .quicksort ∨ protocol = .radixsort)
    {spec : List (String × SortOrder)} (hne : spec ≠ []) (hnodup : (spec.map Prod.fst).Nodup)
    (hmem : ∀ s ∈ spec, s.1 ∈ t.schema) (hshared : ∀ s ∈ spec, isBShared s.1)
    (hbits : ∀ s ∈ spec, s.1 = encTableValid ∨ s.1 = encTableJoinId → t.SingleBit s.1)
    (toBeSorted : List String) :
    Draws.Returns (sortTo numParties protocol t spec toBeSorted) fun t' =>
      ∃ τ, StableSorts (specLt (t.sortColumns spec)) τ ∧ t' = t.assignAll
        ((t.sortedNames spec toBeSorted).map fun c => (c, rearrange τ (t.vector c))) := by
  have hnames : ∀ c ∈ spec.map Prod.fst, c ∈ t.schema ∧ isBShared c := by
    intro c hc
    obtain ⟨s, hs, rfl⟩ := List.mem_map.mp hc
    exact ⟨hmem s hs, hshared s hs⟩
  have hcolumns : SingleBits (t.sortColumns spec) := by
    intro c hc hsingle k
    obtain ⟨s, hs, rfl⟩ := List.mem_map.mp hc
    exact hbits s hs (of_decide_eq_true hsingle) k k.isLt
  have hcolumns_ne : t.sortColumns spec ≠ [] := List.map_eq_nil_iff.not.mpr hne
  rw [sortTo]
  refine Draws.Returns.bind (returns_guard fun c hc => (hnames c hc).1) fun _ _ => ?_
  refine Draws.Returns.bind (returns_guard ⟨fun c hc => (hnames c hc).2, hnodup⟩) fun _ _ => ?_
  refine Draws.Returns.bind (returns_tableSort hn0 hn hw numParties hprotocol hcolumns_ne hcolumns
    _ _) fun r hr => ?_
  obtain ⟨τ, hτ, rfl⟩ := hr
  refine Draws.Returns.pure ⟨τ, hτ, ?_⟩
  have hkeys : ((t.sortColumns spec).map fun c => rearrange τ c.column) =
      (spec.map Prod.fst).map fun c => rearrange τ (t.vector c) := by
    rw [sortColumns, List.map_map, List.map_map]
    rfl
  have hdata : ∀ l : List String,
      (l.map t.vector).map (rearrange τ) = l.map fun c => rearrange τ (t.vector c) :=
    fun l => List.map_map
  simp only [hkeys, hdata, zip_map_self]
  rw [← List.map_append, ← List.map_append, sortedNames]

theorem sortTo_schema (t : EncodedTable w) (spec : List (String × SortOrder)) :
    sortTo numParties protocol t spec t.schema = sort numParties protocol t spec := by
  have hdata : t.dataColumns spec t.schema = t.schema.filter (· ∉ spec.map Prod.fst) := by
    rw [dataColumns]
    refine List.filter_congr fun c hc => ?_
    simp [hc]
  rw [sortTo, hdata, sort]

/-- The table is rearranged by the stable permutation of the specification. -/
theorem returns_sort (t : EncodedTable w) (hn0 : 0 < t.rows) (hn : t.rows < 2 ^ 31)
    (hw : ShareWidth w) (hprotocol : protocol = .quicksort ∨ protocol = .radixsort)
    {spec : List (String × SortOrder)} (hne : spec ≠ []) (hnodup : (spec.map Prod.fst).Nodup)
    (hmem : ∀ s ∈ spec, s.1 ∈ t.schema) (hshared : ∀ s ∈ spec, isBShared s.1)
    (hbits : ∀ s ∈ spec, s.1 = encTableValid ∨ s.1 = encTableJoinId → t.SingleBit s.1) :
    Draws.Returns (sort numParties protocol t spec) fun t' =>
      ∃ τ, StableSorts (specLt (t.sortColumns spec)) τ ∧ t' = t.rearranged τ := by
  rw [← sortTo_schema]
  refine (returns_sortTo t hn0 hn hw hprotocol hne hnodup hmem hshared hbits t.schema).mono
    fun t' ht' => ?_
  obtain ⟨τ, hτ, rfl⟩ := ht'
  refine ⟨τ, hτ, assignAll_rearrange t τ fun c hc => ?_⟩
  rw [sortedNames, List.mem_append, List.mem_append, dataColumns, List.mem_filter, List.mem_filter,
    List.mem_filter]
  by_cases hkey : c ∈ spec.map Prod.fst
  · exact Or.inl (Or.inl hkey)
  · cases isBShared c <;> simp [hc, hkey]

/-- A sort that returns has drawn a shuffle. -/
theorem lt_of_returns_sort {t : EncodedTable w} (hw : ShareWidth w)
    (hprotocol : protocol = .quicksort ∨ protocol = .radixsort) {spec : List (String × SortOrder)}
    (hne : spec ≠ []) {post : EncodedTable w → Prop}
    (hreturns : Draws.Returns (sort numParties protocol t spec) post) : t.rows < 2 ^ 31 := by
  rw [sort] at hreturns
  have hsort := (Draws.returns_guard_bind_iff.mp (Draws.returns_guard_bind_iff.mp hreturns).2).2
  have hcolumns_ne : t.sortColumns spec ≠ [] := List.map_eq_nil_iff.not.mpr hne
  exact lt_of_returns_sortPermutation hw hprotocol hcolumns_ne hsort.of_bind.of_bind

/-- What a sort preserves. -/
structure SameRows (t t' : EncodedTable w) : Prop where
  rows : t'.rows = t.rows
  schema : t'.schema = t.schema
  allRows : t'.allRows = t.allRows

theorem returns_sort_ascending (t : EncodedTable w) (hn0 : 0 < t.rows) (hn : t.rows < 2 ^ 31)
    (hw : ShareWidth w) (hprotocol : protocol = .quicksort ∨ protocol = .radixsort)
    {names : List String} (hne : names ≠ []) (hnodup : names.Nodup)
    (hmem : ∀ c ∈ names, c ∈ t.schema) (hshared : ∀ c ∈ names, isBShared c)
    (hbits : ∀ c ∈ names, c = encTableValid ∨ c = encTableJoinId → t.SingleBit c) :
    Draws.Returns (sort numParties protocol t (ascending names)) fun t' =>
      SameRows t t' ∧ t'.SortedBy names := by
  have hfst : ∀ s ∈ ascending names, s.1 ∈ names := by
    intro s hs
    rw [← ascending_fst names]
    exact List.mem_map_of_mem hs
  refine (returns_sort t hn0 hn hw hprotocol (List.map_eq_nil_iff.not.mpr hne)
    ((ascending_fst names).symm ▸ hnodup) (fun s hs => hmem _ (hfst s hs))
    (fun s hs => hshared _ (hfst s hs)) fun s hs => hbits _ (hfst s hs)).mono fun t' ht' => ?_
  obtain ⟨τ, hτ, rfl⟩ := ht'
  exact ⟨⟨rfl, rfl, allRows_rearranged t τ⟩, sortedBy_rearranged t hτ⟩

end EncodedTable

end CryptDough
