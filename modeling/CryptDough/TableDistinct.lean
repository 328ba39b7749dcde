import CryptDough.AdjacentGroups
import CryptDough.TableAggregation

/-! Keeping one row per key: the sort is by valid bit and keys, the comparison of neighbours by the
keys alone. -/

namespace CryptDough

open SegmentedScan AdjacentGroups Opened

variable {w : ℕ}

namespace EncodedTable

theorem orderOf_cons_le (c : String) (names : List String) (ρ σ : Row w) :
    orderOf (c :: names) ρ ≤ orderOf (c :: names) σ ↔
      (ρ c).toInt < (σ c).toInt ∨ ((ρ c).toInt = (σ c).toInt ∧ orderOf names ρ ≤ orderOf names σ) := by
  rw [← not_lt, orderOf, orderOf, List.map_cons, List.map_cons, List.cons_lt_cons_iff, ← orderOf,
    ← orderOf, ← not_lt]
  constructor
  · intro hnot
    rcases lt_trichotomy (ρ c).toInt (σ c).toInt with hlt | heq | hgt
    · exact Or.inl hlt
    · exact Or.inr ⟨heq, fun hlt => hnot (Or.inr ⟨heq.symm, hlt⟩)⟩
    · exact absurd (Or.inl hgt) hnot
  · rintro (hlt | ⟨heq, hnot⟩) (hgt | ⟨_, hgt⟩)
    · exact lt_asymm hlt hgt
    · omega
    · omega
    · exact hnot hgt

/-- Rows sorted by more columns are sorted by the first ones. -/
theorem orderOf_append_le {names rest : List String} {ρ σ : Row w}
    (hle : orderOf (names ++ rest) ρ ≤ orderOf (names ++ rest) σ) :
    orderOf names ρ ≤ orderOf names σ := by
  induction names with
  | nil => exact le_refl _
  | cons c names ih =>
      rw [List.cons_append, orderOf_cons_le] at hle
      rw [orderOf_cons_le]
      exact hle.imp_right fun h => ⟨h.1, ih h.2⟩

/-- Sorted rows are grouped by their keys where they are valid, also if invalid rows follow. -/
theorem grouped_of_sorted {row : ℕ → Row w} {n m : ℕ} {keys : List String} (hnm : n ≤ m)
    (hsorted : ∀ i j, i ≤ j → j < n →
      orderOf (encTableValid :: keys) (row i) ≤ orderOf (encTableValid :: keys) (row j))
    (hpad : ∀ i, n ≤ i → i < m → row i encTableValid = 0) :
    Grouped (fun i => keyOf (encTableValid :: keys) (row i)) m
      fun i => i < n ∧ row i encTableValid ≠ 0 where
  lt i hi := lt_of_lt_of_le hi.1 hnm
  good_of_key u t hu ht heq := by
    have hvalid : row u encTableValid = row t encTableValid := (List.cons.inj heq).1
    refine ⟨?_, hvalid ▸ ht.2⟩
    by_contra hnot
    exact ht.2 (hvalid ▸ hpad u (not_lt.mp hnot) hu)
  convex u v t huv hvt ht heq := by
    have hvn := lt_of_le_of_lt hvt ht.1
    have hlow := hsorted u v huv hvn
    have hhigh := hsorted v t hvt ht.1
    have horder := (orderOf_eq_iff (encTableValid :: keys) (row u) (row t)).mpr heq
    exact (orderOf_eq_iff _ _ _).mp (le_antisymm hhigh (horder ▸ hlow))

theorem validRows_eq (t : EncodedTable w) :
    t.validRows = ((Multiset.range t.rows).filter fun i => t.col encTableValid i ≠ 0).map t.row := by
  rw [validRows, allRows, Multiset.filter_map]
  rfl

def distinctKeys (numParties : ℕ) (protocol : SortingProtocol) (t : EncodedTable w)
    (keys : List String) : Draws (EncodedTable w) := do
  let t ← sort numParties protocol t (ascending (encTableValid :: keys))
  let t ← t.addColumns [encTableUniq]
  let t ← t.distinct keys encTableUniq
  let t := t.filter (t.col encTableUniq)
  pure (t.deleteColumns [encTableUniq] valid_notMem_uniq)

/-- One row per key of the rows before, and no other row. -/
def Representatives (keys : List String) (before after : Multiset (Row w)) : Prop :=
  after.map (keyOf keys) = (before.map (keyOf keys)).dedup ∧ after ≤ before

/-- The largest key of an invalid row is the smallest key of a valid one. -/
def BoundaryClash (t : EncodedTable w) (keys : List String) : Prop :=
  ∃ ρ ∈ t.allRows, ∃ σ ∈ t.allRows, ρ encTableValid = 0 ∧ σ encTableValid ≠ 0 ∧
    keyOf keys ρ = keyOf keys σ ∧
    (∀ ρ' ∈ t.allRows, ρ' encTableValid = 0 → orderOf keys ρ' ≤ orderOf keys ρ) ∧
    ∀ σ' ∈ t.allRows, σ' encTableValid ≠ 0 → orderOf keys σ ≤ orderOf keys σ'

theorem mem_allRows {t : EncodedTable w} {ρ : Row w} :
    ρ ∈ t.allRows ↔ ∃ i, i < t.rows ∧ t.row i = ρ := by
  rw [allRows, Multiset.mem_map]
  exact exists_congr fun i => and_congr_left fun _ => Multiset.mem_range

theorem singleBit_iff {t : EncodedTable w} {c : String} :
    t.SingleBit c ↔ ∀ ρ ∈ t.allRows, ρ c = 0 ∨ ρ c = 1 := by
  constructor
  · intro hbit ρ hρ
    obtain ⟨i, hi, rfl⟩ := mem_allRows.mp hρ
    exact hbit i hi
  · exact fun hall i hi => hall _ (mem_allRows.mpr ⟨i, hi, rfl⟩)

theorem SameRows.singleBit {t t' : EncodedTable w} (hsame : SameRows t t') {c : String}
    (hbit : t.SingleBit c) : t'.SingleBit c := by
  rw [singleBit_iff, hsame.allRows]
  exact singleBit_iff.mp hbit

theorem SameRows.validRows {t t' : EncodedTable w} (hsame : SameRows t t') :
    t'.validRows = t.validRows := by
  rw [EncodedTable.validRows, hsame.allRows, EncodedTable.validRows]

/-- Invalid rows come first, and among themselves both kinds are in the order of the keys. -/
theorem SortedBy.cases {t : EncodedTable w} {keys : List String} (hw : 1 < w)
    (hbit : t.SingleBit encTableValid) (hsorted : t.SortedBy (encTableValid :: keys)) {i j : ℕ}
    (hij : i ≤ j) (hj : j < t.rows) :
    (t.col encTableValid i = 0 ∧ t.col encTableValid j ≠ 0) ∨
      ((t.col encTableValid i ≠ 0 ↔ t.col encTableValid j ≠ 0) ∧
        orderOf keys (t.row i) ≤ orderOf keys (t.row j)) := by
  have hzero : (0 : BitVec w).toInt = 0 := BitVec.toInt_zero
  have hone : (1 : BitVec w).toInt = 1 := BitVec.toInt_one hw
  have hne : (1 : BitVec w) ≠ 0 := fun heq => by rw [heq, hzero] at hone; omega
  have hle := (orderOf_cons_le encTableValid keys (t.row i) (t.row j)).mp (hsorted i j hij hj)
  change (t.col encTableValid i).toInt < (t.col encTableValid j).toInt ∨
    (t.col encTableValid i).toInt = (t.col encTableValid j).toInt ∧ _ at hle
  rcases hbit i (lt_of_le_of_lt hij hj) with hi | hi <;> rcases hbit j hj with hj | hj <;>
    rw [hi, hj] at hle ⊢ <;> simp only [hzero, hone] at hle
  · exact Or.inr ⟨Iff.rfl, (hle.resolve_left (lt_irrefl _)).2⟩
  · exact Or.inl ⟨rfl, hne⟩
  · omega
  · exact Or.inr ⟨Iff.rfl, (hle.resolve_left (lt_irrefl _)).2⟩

theorem SortedBy.grouped {t : EncodedTable w} {keys : List String}
    (hsorted : t.SortedBy (encTableValid :: keys)) :
    Grouped (fun i => keyOf (encTableValid :: keys) (t.row i)) t.rows
      fun i => i < t.rows ∧ t.row i encTableValid ≠ 0 :=
  grouped_of_sorted (le_refl _) hsorted fun _ hi hi' => absurd hi' (not_lt.mpr hi)

theorem bit_of_singleBit {x : BitVec w} (hx : x = 0 ∨ x = 1) (hw : 0 < w) :
    x = bit (decide (x ≠ 0)) := by
  rcases hx with rfl | rfl <;> simp [bit, hw.ne']

/-- The rows that stay valid when the valid bits are narrowed down to `p`. -/
theorem validRows_masked {t t' : EncodedTable w} (hw : 0 < w) (hbit : t.SingleBit encTableValid)
    (hrows : t'.rows = t.rows) (p : ℕ → Bool)
    (hvalid : ∀ i, i < t.rows → t'.col encTableValid i = andB1 (t.col encTableValid i) (bit (p i))) :
    t'.validRows =
      ((Multiset.range t.rows).filter fun i => t.col encTableValid i ≠ 0 ∧ p i = true).map t'.row := by
  have hiff : ∀ i ∈ Multiset.range t.rows,
      (t'.col encTableValid i ≠ 0 ↔ t.col encTableValid i ≠ 0 ∧ p i = true) := by
    intro i hi
    have hi := Multiset.mem_range.mp hi
    rw [hvalid i hi, bit_of_singleBit (hbit i hi) hw, andB1_bit, bit_ne_zero hw, bit_ne_zero hw,
      Bool.and_eq_true]
  rw [validRows_eq, hrows, Multiset.filter_congr hiff]

/-- The other columns of these rows may stay what they were. -/
theorem validRows_of_masked {t t' : EncodedTable w} (hw : 0 < w) (hbit : t.SingleBit encTableValid)
    (hrows : t'.rows = t.rows) (p : ℕ → Bool)
    (hvalid : ∀ i, i < t.rows → t'.col encTableValid i = andB1 (t.col encTableValid i) (bit (p i)))
    (hcol : ∀ i, i < t.rows → t.col encTableValid i ≠ 0 → p i = true →
      ∀ c, c ≠ encTableValid → t'.col c i = t.col c i) :
    t'.validRows =
      ((Multiset.range t.rows).filter fun i => t.col encTableValid i ≠ 0 ∧ p i = true).map t.row := by
  rw [validRows_masked hw hbit hrows p hvalid]
  refine Multiset.map_congr rfl fun i hi => funext fun c => ?_
  obtain ⟨hi, hvalid_i, hp⟩ := Multiset.mem_filter.mp hi
  have hi := Multiset.mem_range.mp hi
  by_cases hc : c = encTableValid
  · subst hc
    change t'.col encTableValid i = t.col encTableValid i
    rw [hvalid i hi, bit_of_singleBit (hbit i hi) hw, hp, andB1_bit, Bool.and_true]
  · exact hcol i hi hvalid_i hp c hc

section Distinct

variable {numParties : ℕ} {protocol : SortingProtocol}

/-- What a call `distinct(keys)` relies on. -/
structure DistinctCall (t : EncodedTable w) (keys : List String) : Prop where
  width : ShareWidth w
  rows_pos : 0 < t.rows
  keys_ne : keys ≠ []
  nodup : (encTableValid :: keys).Nodup
  keys_mem : ∀ k ∈ keys, k ∈ t.schema ∧ isBShared k
  valid_bit : t.SingleBit encTableValid
  joinId_bit : encTableJoinId ∈ keys → t.SingleBit encTableJoinId
  uniq : encTableUniq ∉ t.schema

/-- The valid rows afterwards are those of the sorted table that differ from their predecessor. -/
theorem returns_distinctKeys {t : EncodedTable w} {keys : List String} (hcall : DistinctCall t keys)
    (hn : t.rows < 2 ^ 31) (hprotocol : protocol = .quicksort ∨ protocol = .radixsort) :
    Draws.Returns (distinctKeys numParties protocol t keys) fun t' =>
      ∃ s, SameRows t s ∧ s.SortedBy (encTableValid :: keys) ∧ t'.validRows =
        ((Multiset.range s.rows).filter fun i =>
          s.col encTableValid i ≠ 0 ∧ s.startsGroup keys i = true).map s.row := by
  have hw := hcall.width.pos
  have hcolumns : ∀ k ∈ encTableValid :: keys, k ∈ t.schema ∧ isBShared k :=
    List.forall_mem_cons.mpr ⟨⟨t.valid_mem, by decide⟩, hcall.keys_mem⟩
  rw [distinctKeys]
  refine Draws.Returns.bind (returns_sort_ascending t hcall.rows_pos hn hcall.width
    hprotocol (List.cons_ne_nil _ _) hcall.nodup (fun c hc => (hcolumns c hc).1)
    (fun c hc => (hcolumns c hc).2) ?_) fun s hs => ?_
  · rintro c hc (rfl | rfl)
    · exact hcall.valid_bit
    · exact hcall.joinId_bit ((List.mem_cons.mp hc).resolve_left (by decide))
  obtain ⟨hsame, hsorted⟩ := hs
  have huniq : encTableUniq ∉ s.schema := hsame.schema ▸ hcall.uniq
  have hkeys : ∀ k ∈ keys, k ∈ s.schema ∧ isBShared k := hsame.schema ▸ hcall.keys_mem
  have hnot : encTableUniq ∉ keys := fun hmem => huniq (hkeys _ hmem).1
  refine (returns_addColumns s (List.nodup_singleton _)
    (List.forall_mem_singleton.mpr huniq)).bind fun m hm => ?_
  subst hm
  have hmem : encTableUniq ∈ (s.extend encTableUniq).schema := (mem_extend _ _ _).mpr (Or.inl rfl)
  refine (returns_distinct _ hcall.keys_ne (fun k hk => (mem_extend _ _ _).mpr (Or.inr (hkeys k hk).1))
    (fun k hk => (hkeys k hk).2) hmem hnot).bind fun m hm => Draws.Returns.pure ?_
  subst hm
  refine ⟨s, hsame, hsorted, ?_⟩
  refine validRows_of_masked hw (hsame.singleBit hcall.valid_bit) ?_ (s.startsGroup keys)
    (fun i _ => ?_) fun i _ _ _ c hc => ?_
  · rfl
  · rw [deleteColumns_col, if_neg (by decide), filter_valid, assign_col_self _ hmem,
      assign_col_of_ne _ (by decide), operatorsDistinct_eq, extend_col]
    rfl
  · rw [deleteColumns_col, filter_col _ _ hc]
    by_cases hcu : c = encTableUniq
    · rw [hcu, if_pos (List.mem_singleton.mpr rfl), s.col_of_notMem _ huniq]
    · rw [if_neg (List.mem_singleton.not.mpr hcu), assign_col_of_ne _ hcu, extend_col]

theorem startsGroup_iff (t : EncodedTable w) (keys : List String) (i : ℕ) :
    t.startsGroup keys i = true ↔ i = 0 ∨ keyOf keys (t.row (i - 1)) ≠ keyOf keys (t.row i) :=
  decide_eq_true_iff

theorem keyOf_valid {s : EncodedTable w} (hbit : s.SingleBit encTableValid) (keys : List String)
    {i : ℕ} (hi : i < s.rows) (hvalid : s.col encTableValid i ≠ 0) :
    keyOf (encTableValid :: keys) (s.row i) = 1 :: keyOf keys (s.row i) := by
  rw [keyOf, List.map_cons, ← keyOf]
  exact congrArg (· :: _) ((hbit i hi).resolve_left hvalid)

/-- Positions with one of every key that occurs, also without the valid bit in the key. -/
theorem map_keyOf_eq_dedup {s : EncodedTable w} (hbit : s.SingleBit encTableValid)
    {keys : List String} {S : Multiset ℕ} (hS : ∀ i ∈ S, i < s.rows ∧ s.col encTableValid i ≠ 0)
    (hmap : S.map (fun i => keyOf (encTableValid :: keys) (s.row i)) =
      (((Multiset.range s.rows).filter fun i => i < s.rows ∧ s.row i encTableValid ≠ 0).map
        fun i => keyOf (encTableValid :: keys) (s.row i)).dedup) :
    S.map (fun i => keyOf keys (s.row i)) = (s.validRows.map (keyOf keys)).dedup := by
  have hgood : (Multiset.range s.rows).filter (fun i => i < s.rows ∧ s.row i encTableValid ≠ 0) =
      (Multiset.range s.rows).filter fun i => s.col encTableValid i ≠ 0 :=
    Multiset.filter_congr fun i hi => and_iff_right (Multiset.mem_range.mp hi)
  apply Multiset.map_injective (List.cons_injective (a := (1 : BitVec w)))
  rw [← Multiset.dedup_map_of_injective List.cons_injective, validRows_eq, Multiset.map_map,
    Multiset.map_map, Multiset.map_map]
  refine (Multiset.map_congr rfl fun i hi => ?_).trans (hmap.trans (congrArg _ ?_))
  · exact (keyOf_valid hbit keys (hS i hi).1 (hS i hi).2).symm
  · rw [hgood]
    refine Multiset.map_congr rfl fun i hi => ?_
    obtain ⟨hi, hvalid⟩ := Multiset.mem_filter.mp hi
    exact keyOf_valid hbit keys (Multiset.mem_range.mp hi) hvalid

/-- If the keys change where the valid rows begin, the rows that differ from their predecessor are the
first ones of their groups. -/
theorem representatives_of_boundary {s : EncodedTable w} {keys : List String} (hw : 0 < w)
    (hbit : s.SingleBit encTableValid) (hsorted : s.SortedBy (encTableValid :: keys))
    (hboundary : ∀ i, i < s.rows → i ≠ 0 → s.col encTableValid (i - 1) = 0 →
      s.col encTableValid i ≠ 0 → keyOf keys (s.row (i - 1)) ≠ keyOf keys (s.row i)) :
    Representatives keys s.validRows (((Multiset.range s.rows).filter fun i =>
      s.col encTableValid i ≠ 0 ∧ s.startsGroup keys i = true).map s.row) := by
  have hfirsts : (Multiset.range s.rows).filter (fun i =>
        s.col encTableValid i ≠ 0 ∧ s.startsGroup keys i = true) =
      firsts (fun i => keyOf (encTableValid :: keys) (s.row i)) s.rows
        fun i => i < s.rows ∧ s.row i encTableValid ≠ 0 := by
    refine Multiset.filter_congr fun i hi => ?_
    have hi := Multiset.mem_range.mp hi
    change _ ↔ (i < s.rows ∧ s.col encTableValid i ≠ 0) ∧ (i = 0 ∨
      keyOf (encTableValid :: keys) (s.row (i - 1)) ≠ keyOf (encTableValid :: keys) (s.row i))
    rw [startsGroup_iff, and_iff_right hi]
    refine and_congr_right fun hvalid => ?_
    by_cases hzero : i = 0
    · simp [hzero]
    · rw [or_iff_right hzero, or_iff_right hzero, keyOf_valid hbit keys hi hvalid]
      rcases hbit (i - 1) (by omega) with hprev | hprev
      · refine iff_of_true (hboundary i hi hzero hprev hvalid) fun heq => ?_
        have hhead : s.row (i - 1) encTableValid = 1 := (List.cons.inj heq).1
        exact hvalid ((hbit i hi).resolve_left hvalid ▸ hhead.symm.trans hprev)
      · have hprev_ne : s.col encTableValid (i - 1) ≠ 0 := by
          rw [hprev]
          exact (bit_ne_zero hw (a := true)).mpr rfl
        rw [keyOf_valid hbit keys (by omega) hprev_ne, Ne, Ne, List.cons_inj_right]
  have hmap := hsorted.grouped.map_firsts
  rw [← hfirsts] at hmap
  constructor
  · rw [Multiset.map_map]
    refine map_keyOf_eq_dedup hbit (fun i hi => ?_) hmap
    obtain ⟨hi, hvalid, _⟩ := Multiset.mem_filter.mp hi
    exact ⟨Multiset.mem_range.mp hi, hvalid⟩
  · rw [validRows_eq]
    refine Multiset.map_le_map (Multiset.le_filter.mpr ⟨Multiset.filter_le _ _, fun i hi => ?_⟩)
    exact (Multiset.mem_filter.mp hi).2.1

/-- If they do not, the key at the boundary is lost. -/
theorem lost_at_boundary {s : EncodedTable w} {keys : List String} (hw : 1 < w)
    (hbit : s.SingleBit encTableValid) (hsorted : s.SortedBy (encTableValid :: keys)) {i : ℕ}
    (hi : i < s.rows) (hzero : i ≠ 0) (hprev : s.col encTableValid (i - 1) = 0)
    (hvalid : s.col encTableValid i ≠ 0)
    (heq : keyOf keys (s.row (i - 1)) = keyOf keys (s.row i)) :
    ¬ Representatives keys s.validRows (((Multiset.range s.rows).filter fun i =>
      s.col encTableValid i ≠ 0 ∧ s.startsGroup keys i = true).map s.row) := by
  intro hrep
  have hmem : keyOf keys (s.row i) ∈ (s.validRows.map (keyOf keys)).dedup := by
    rw [Multiset.mem_dedup, validRows_eq]
    refine Multiset.mem_map_of_mem _ (Multiset.mem_map_of_mem _ ?_)
    exact Multiset.mem_filter.mpr ⟨Multiset.mem_range.mpr hi, hvalid⟩
  rw [← hrep.1, Multiset.map_map] at hmem
  obtain ⟨j, hj, hkey⟩ := Multiset.mem_map.mp hmem
  obtain ⟨hj, hvalid_j, hstart⟩ := Multiset.mem_filter.mp hj
  have hj := Multiset.mem_range.mp hj
  have hij : i ≤ j := by
    by_contra hlt
    rcases hsorted.cases hw hbit (by omega : j ≤ i - 1) (by omega) with h | ⟨hiff, _⟩
    · exact hvalid_j h.1
    · exact hiff.mp hvalid_j hprev
  rcases Nat.eq_or_lt_of_le hij with rfl | hlt
  · exact ((startsGroup_iff s keys i).mp hstart).elim hzero (fun hne => hne heq)
  · have hfull : keyOf (encTableValid :: keys) (s.row i) = keyOf (encTableValid :: keys) (s.row j) :=
      congrArg₂ List.cons (((hbit i hi).resolve_left hvalid).trans
        ((hbit j hj).resolve_left hvalid_j).symm) hkey.symm
    have hbefore := hsorted.grouped.convex i (j - 1) j (by omega) (by omega) ⟨hj, hvalid_j⟩ hfull
    refine ((startsGroup_iff s keys j).mp hstart).elim (by omega) fun hne => hne ?_
    exact (List.cons.inj hbefore).2

/-- Row `i` is the first valid one, follows an invalid one and has its keys. -/
def BoundaryAt (s : EncodedTable w) (keys : List String) (i : ℕ) : Prop :=
  i < s.rows ∧ i ≠ 0 ∧ s.col encTableValid (i - 1) = 0 ∧ s.col encTableValid i ≠ 0 ∧
    keyOf keys (s.row (i - 1)) = keyOf keys (s.row i)

theorem SortedBy.valid_mono {s : EncodedTable w} {keys : List String} (hw : 1 < w)
    (hbit : s.SingleBit encTableValid) (hsorted : s.SortedBy (encTableValid :: keys)) {i j : ℕ}
    (hij : i ≤ j) (hj : j < s.rows) (hi : s.col encTableValid i ≠ 0) : s.col encTableValid j ≠ 0 :=
  (hsorted.cases hw hbit hij hj).elim (fun h => h.2) fun h => h.1.mp hi

theorem boundaryClash_of_boundaryAt {t s : EncodedTable w} {keys : List String} (hw : 1 < w)
    (hsame : SameRows t s) (hbit : s.SingleBit encTableValid)
    (hsorted : s.SortedBy (encTableValid :: keys)) {i : ℕ} (hi : s.BoundaryAt keys i) :
    t.BoundaryClash keys := by
  obtain ⟨hlt, hzero, hprev, hvalid, heq⟩ := hi
  rw [BoundaryClash, ← hsame.allRows]
  refine ⟨s.row (i - 1), mem_allRows.mpr ⟨i - 1, by omega, rfl⟩, s.row i,
    mem_allRows.mpr ⟨i, hlt, rfl⟩, hprev, hvalid, heq, fun ρ hρ hρ0 => ?_, fun σ hσ hσ1 => ?_⟩
  · obtain ⟨j, hj, rfl⟩ := mem_allRows.mp hρ
    have hji : j ≤ i - 1 := by
      by_contra hnot
      exact hsorted.valid_mono hw hbit (by omega : i ≤ j) hj hvalid hρ0
    exact ((hsorted.cases hw hbit hji (by omega)).resolve_left fun h => h.2 hprev).2
  · obtain ⟨j, hj, rfl⟩ := mem_allRows.mp hσ
    have hij : i ≤ j := by
      by_contra hnot
      exact hsorted.valid_mono hw hbit (by omega : j ≤ i - 1) (by omega) hσ1 hprev
    exact ((hsorted.cases hw hbit hij hj).resolve_left fun h => hvalid h.1).2

theorem BoundaryClash.exists_boundaryAt {t s : EncodedTable w} {keys : List String} (hw : 1 < w)
    (hsame : SameRows t s) (hbit : s.SingleBit encTableValid)
    (hsorted : s.SortedBy (encTableValid :: keys)) (hclash : t.BoundaryClash keys) :
    ∃ i, s.BoundaryAt keys i := by
  rw [BoundaryClash, ← hsame.allRows] at hclash
  obtain ⟨ρ, hρ, σ, hσ, hρ0, hσ1, heq, hmax, hmin⟩ := hclash
  obtain ⟨a, ha, rfl⟩ := mem_allRows.mp hρ
  obtain ⟨b, hb, rfl⟩ := mem_allRows.mp hσ
  have hexists : ∃ i, i < s.rows ∧ s.col encTableValid i ≠ 0 := ⟨b, hb, hσ1⟩
  obtain ⟨hlt, hvalid⟩ := Nat.find_spec hexists
  have hleast : ∀ j, j < Nat.find hexists → s.col encTableValid j = 0 := by
    intro j hj
    by_contra hne
    exact Nat.find_min hexists hj ⟨by omega, hne⟩
  have haz : a < Nat.find hexists := by
    by_contra hnot
    exact hsorted.valid_mono hw hbit (not_lt.mp hnot) ha hvalid hρ0
  have hbz : Nat.find hexists ≤ b := Nat.find_min' hexists ⟨hb, hσ1⟩
  have hprev := hleast (Nat.find hexists - 1) (by omega)
  have hlow : keyOf keys (s.row (Nat.find hexists - 1)) = keyOf keys (s.row a) := by
    refine (orderOf_eq_iff _ _ _).mp (le_antisymm ?_ ?_)
    · exact hmax _ (mem_allRows.mpr ⟨_, by omega, rfl⟩) hprev
    · exact ((hsorted.cases hw hbit (by omega) (by omega)).resolve_left fun h => h.2 hprev).2
  have hhigh : keyOf keys (s.row (Nat.find hexists)) = keyOf keys (s.row b) := by
    refine (orderOf_eq_iff _ _ _).mp (le_antisymm ?_ ?_)
    · exact ((hsorted.cases hw hbit hbz hb).resolve_left fun h => hvalid h.1).2
    · exact hmin _ (mem_allRows.mpr ⟨_, hlt, rfl⟩) hvalid
  have hsame : keyOf keys (s.row (Nat.find hexists - 1)) = keyOf keys (s.row (Nat.find hexists)) :=
    calc keyOf keys (s.row (Nat.find hexists - 1)) = keyOf keys (s.row a) := hlow
      _ = keyOf keys (s.row b) := heq
      _ = keyOf keys (s.row (Nat.find hexists)) := hhigh.symm
  exact ⟨_, hlt, by omega, hprev, hvalid, hsame⟩

theorem distinctKeys_keeps {t : EncodedTable w} {keys : List String} (hcall : DistinctCall t keys)
    (hn : t.rows < 2 ^ 31) (hprotocol : protocol = .quicksort ∨ protocol = .radixsort)
    (hclash : ¬ t.BoundaryClash keys) :
    Draws.Returns (distinctKeys numParties protocol t keys) fun t' =>
      Representatives keys t.validRows t'.validRows := by
  refine (returns_distinctKeys hcall hn hprotocol).mono fun t' ht' => ?_
  obtain ⟨s, hsame, hsorted, hrows⟩ := ht'
  have hbit := hsame.singleBit hcall.valid_bit
  rw [hrows, ← hsame.validRows]
  refine representatives_of_boundary hcall.width.pos hbit hsorted fun i hi hzero hprev hvalid heq => ?_
  exact hclash (boundaryClash_of_boundaryAt hcall.width.one_lt hsame hbit hsorted
    ⟨hi, hzero, hprev, hvalid, heq⟩)

theorem distinctKeys_loses {t : EncodedTable w} {keys : List String} (hcall : DistinctCall t keys)
    (hn : t.rows < 2 ^ 31) (hprotocol : protocol = .quicksort ∨ protocol = .radixsort)
    (hclash : t.BoundaryClash keys) :
    Draws.Returns (distinctKeys numParties protocol t keys) fun t' =>
      ¬ Representatives keys t.validRows t'.validRows := by
  refine (returns_distinctKeys hcall hn hprotocol).mono fun t' ht' => ?_
  obtain ⟨s, hsame, hsorted, hrows⟩ := ht'
  have hbit := hsame.singleBit hcall.valid_bit
  obtain ⟨i, hi, hzero, hprev, hvalid, heq⟩ :=
    hclash.exists_boundaryAt hcall.width.one_lt hsame hbit hsorted
  rw [hrows, ← hsame.validRows]
  exact lost_at_boundary hcall.width.one_lt hbit hsorted hi hzero hprev hvalid heq

theorem not_returns {α : Type} {prog : Draws α} {post : α → Prop}
    (hprog : Draws.Returns prog fun v => ¬ post v) : ¬ Draws.Returns prog post := by
  intro hpost
  obtain ⟨v, _, hv, hnot⟩ := hprog default
  obtain ⟨v', _, hv', hyes⟩ := hpost default
  rw [hv] at hv'
  obtain rfl : v = v' := congrArg Prod.fst (Option.some.inj hv')
  exact hnot hyes

end Distinct

/-- An invalid row and a valid one with the same key. -/
def exampleClash : EncodedTable 8 :=
  ofColumns 2 (fun i => if i = 1 then 1 else 0) [("[k]", fun _ => 5)]

theorem exampleClash_call : DistinctCall exampleClash ["[k]"] where
  width := Or.inl rfl
  rows_pos := by decide
  keys_ne := by decide
  nodup := by decide
  keys_mem := by decide
  valid_bit := by unfold SingleBit; decide
  joinId_bit := fun hmem => absurd hmem (by decide)
  uniq := by decide

theorem exampleClash_boundary : exampleClash.BoundaryClash ["[k]"] := by
  have horder : ∀ ρ ∈ exampleClash.allRows, orderOf ["[k]"] ρ = [5] := by
    intro ρ hρ
    obtain ⟨i, _, rfl⟩ := mem_allRows.mp hρ
    rfl
  have hmem : ∀ i, i < 2 → exampleClash.row i ∈ exampleClash.allRows :=
    fun i hi => mem_allRows.mpr ⟨i, hi, rfl⟩
  have hle : ∀ ρ ∈ exampleClash.allRows, ∀ σ ∈ exampleClash.allRows,
      orderOf ["[k]"] ρ ≤ orderOf ["[k]"] σ :=
    fun ρ hρ σ hσ => le_of_eq ((horder ρ hρ).trans (horder σ hσ).symm)
  exact ⟨exampleClash.row 0, hmem 0 (by decide), exampleClash.row 1, hmem 1 (by decide), by decide,
    by decide, by decide, fun ρ hρ _ => hle ρ hρ _ (hmem 0 (by decide)),
    fun σ hσ _ => hle _ (hmem 1 (by decide)) σ hσ⟩

end EncodedTable

end CryptDough
