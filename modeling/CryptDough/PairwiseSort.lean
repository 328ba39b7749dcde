import CryptDough.PairwiseRounds
import CryptDough.RowComparison

/-! The sorting network on the columns of a table: the views that a round takes of the columns, and the
rounds as exchanges of rows. -/

namespace CryptDough

open StableSort Opened PrefixNetwork

/-- Alternating chunks of a view, the first of them included. -/
def View.alternatingSubsetReference (v : View) (includedSize excludedSize : ℕ) : Option View :=
  let chunkSize := includedSize + excludedSize
  let size := v.length / chunkSize * includedSize + min includedSize (v.length % chunkSize)
  (List.range size).mapM fun i => v[i / includedSize * chunkSize + i % includedSize]?

variable {wK w : ℕ}

/-- The columns that are sorted. -/
structure SortVectors (wK w : ℕ) where
  keys : List (Column wK)
  dataA : List (Column w)
  dataB : List (Column w)

namespace SortVectors

/-- All columns under one map of the positions. -/
def permuted (t : SortVectors wK w) (σ : ℕ → ℕ) : SortVectors wK w where
  keys := t.keys.map (· ∘ σ)
  dataA := t.dataA.map (· ∘ σ)
  dataB := t.dataB.map (· ∘ σ)

@[simp] theorem permuted_id (t : SortVectors wK w) : t.permuted id = t := by
  simp [permuted]

theorem permuted_permuted (t : SortVectors wK w) (σ τ : ℕ → ℕ) :
    (t.permuted σ).permuted τ = t.permuted (σ ∘ τ) := by
  simp [permuted, Function.comp_assoc]

end SortVectors

namespace PairwiseSort

/-- The two views of a round. -/
def views (n : BitVec 64) (c : PairwiseRound) : Option (View × View) := do
  let delta := BitVec.ofNat 64 c.startRight - BitVec.ofNat 64 c.startLeft
  let column : View := List.range n.toNat
  let x ← column.slice (BitVec.ofNat 64 c.startLeft) (n - delta)
  let x ← x.alternatingSubsetReference c.step c.step
  let y ← column.sliceFrom (BitVec.ofNat 64 c.startRight)
  let y ← y.alternatingSubsetReference c.step c.step
  pure (x, y)

/-- Swaps a column in place through both views. -/
def swapColumn {w' : ℕ} (swap : BitVec w' → BitVec w' → BitVec w' → BitVec w' × BitVec w')
    (x y : View) (bits : List (BitVec w')) (col : Column w') : Column w' :=
  let swapped := List.zipWith (fun b (p : ℕ × ℕ) => swap b (col p.1) (col p.2)) bits (x.zip y)
  assignView (assignView col x (swapped.map Prod.fst)) y (swapped.map Prod.snd)

/-- The rows of two views are compared; the same bits swap the keys and the data. -/
def compareSwap (order : List SortOrder) (x y : View) (t : SortVectors wK w) :
    Option (SortVectors wK w) := do
  let kBits ← (x.zip y).mapM fun p =>
    compareRows (orderKeys order (t.keys.map fun k => k p.1) (t.keys.map fun k => k p.2))
  let bBits := kBits.map (BitVec.setWidth w)
  let aBits := bBits.map (· &&& 1)
  pure
    { keys := t.keys.map (swapColumn swapB x y kBits)
      dataA := t.dataA.map (swapColumn swapA x y aBits)
      dataB := t.dataB.map (swapColumn swapB x y bBits) }

def round (n : BitVec 64) (order : List SortOrder) (t : SortVectors wK w) (c : PairwiseRound) :
    Option (SortVectors wK w) := do
  let (x, y) ← views n c
  compareSwap order x y t

/-- `pairwise_sort` with its assertions. -/
def pairwiseSort (n : BitVec 64) (order : List SortOrder) (t : SortVectors wK w) :
    Option (SortVectors wK w) := do
  guard (0 < t.keys.length ∧ t.keys.length = order.length)
  let cmp ← Pairwise.pwComparisons n
  cmp.foldlM (round n order) t

end PairwiseSort

section Views

/-- The position of entry `i` among alternating chunks of size `a`. -/
def alternating (a i : ℕ) : ℕ := i / a * (a + a) + i % a

theorem alternating_div {a : ℕ} (ha : 0 < a) (i : ℕ) :
    alternating a i / a = 2 * (i / a) ∧ alternating a i % a = i % a := by
  have hmod := Nat.mod_lt i ha
  have hsum : alternating a i = i % a + a * (2 * (i / a)) := by
    rw [alternating]
    ring
  rw [hsum, Nat.add_mul_div_left _ _ ha, Nat.div_eq_of_lt hmod, Nat.zero_add, Nat.add_mul_mod_self_left,
    Nat.mod_eq_of_lt hmod]
  exact ⟨rfl, rfl⟩

theorem alternating_injective {a : ℕ} (ha : 0 < a) : Function.Injective (alternating a) := by
  intro i j heq
  obtain ⟨hdiv, hmod⟩ := alternating_div ha i
  obtain ⟨hdiv', hmod'⟩ := alternating_div ha j
  rw [heq, hdiv'] at hdiv
  rw [heq, hmod'] at hmod
  rw [← Nat.div_add_mod i a, ← Nat.div_add_mod j a, ← hmod, (by omega : i / a = j / a)]

/-- Dropping every second chunk keeps the order to the end of the view. -/
theorem chunk_lt_iff {a q Q r R : ℕ} (hr : r < a) (hR : R < a + a) :
    q * a + r < Q * a + min a R ↔ q * (a + a) + r < Q * (a + a) + R := by
  rw [Nat.mul_add, Nat.mul_add]
  rcases lt_trichotomy q Q with hlt | rfl | hgt
  · have hle : (q + 1) * a ≤ Q * a := Nat.mul_le_mul_right a hlt
    rw [Nat.add_mul, Nat.one_mul] at hle
    omega
  · omega
  · have hle : (Q + 1) * a ≤ q * a := Nat.mul_le_mul_right a hgt
    rw [Nat.add_mul, Nat.one_mul] at hle
    omega

/-- The entries of the view are the positions in the chunks with an even number. -/
theorem exists_alternating_iff {a : ℕ} (ha : 0 < a) (m j : ℕ) :
    (∃ i, i < m / (a + a) * a + min a (m % (a + a)) ∧ alternating a i = j) ↔
      j < m ∧ j / a % 2 = 0 := by
  have hR := Nat.mod_lt m (by omega : 0 < a + a)
  constructor
  · rintro ⟨i, hi, rfl⟩
    rw [← Nat.div_add_mod' i a, chunk_lt_iff (Nat.mod_lt i ha) hR, Nat.div_add_mod'] at hi
    exact ⟨hi, by rw [(alternating_div ha i).1, Nat.mul_mod_right]⟩
  · rintro ⟨hj, heven⟩
    obtain ⟨q, hq⟩ : ∃ q, j / a = 2 * q := ⟨j / a / 2, by omega⟩
    have hmod := Nat.mod_lt j ha
    have hpos : q * (a + a) + j % a = j := by
      have hsplit := Nat.div_add_mod' j a
      rw [hq, Nat.mul_comm 2, Nat.mul_assoc, Nat.two_mul] at hsplit
      exact hsplit
    refine ⟨q * a + j % a, ?_, ?_⟩
    · rw [chunk_lt_iff hmod hR, Nat.div_add_mod', hpos]
      exact hj
    · have hdiv : (q * a + j % a) / a = q := by
        rw [Nat.add_comm, Nat.add_mul_div_right _ _ ha, Nat.div_eq_of_lt hmod, Nat.zero_add]
      rw [alternating, hdiv, Nat.add_comm (q * a), Nat.add_mul_mod_self_right, Nat.mod_mod, hpos]

theorem View.alternatingSubsetReference_map {a : ℕ} (ha : 0 < a) (m : ℕ) (pos : ℕ → ℕ) :
    View.alternatingSubsetReference ((List.range m).map pos) a a =
      some ((List.range (m / (a + a) * a + min a (m % (a + a)))).map fun i => pos (alternating a i)) := by
  simp only [View.alternatingSubsetReference, List.length_map, List.length_range]
  refine mapM_some fun i hi => ?_
  have hlt := ((exists_alternating_iff ha m (alternating a i)).mp
    ⟨i, List.mem_range.mp hi, rfl⟩).1
  rw [List.getElem?_map]
  change Option.map pos ((List.range m)[alternating a i]?) = _
  rw [List.getElem?_range hlt]
  rfl

theorem Pairwise.truncate_left_iff (c : PairwiseRound) (n p : ℕ) :
    ((Pairwise.layer c).truncate n).left p = true ↔
      (c.startLeft ≤ p ∧ (p - c.startLeft) / c.step % 2 = 0) ∧
        p + (c.startRight - c.startLeft) < n := by
  change (decide _ && decide _) = true ↔ _
  rw [Bool.and_eq_true, decide_eq_true_eq, decide_eq_true_eq]
  rfl

/-- The left ends of a round, and their partners. -/
structure Shown (n : ℕ) (c : PairwiseRound) (T : List ℕ) : Prop where
  nodup : T.Nodup
  mem_iff : ∀ p, p ∈ T ↔ ((Pairwise.layer c).truncate n).left p = true

theorem PairwiseSort.views_eq {n : BitVec 64} {c : PairwiseRound} (hstep : 0 < c.step)
    (hle : c.startLeft ≤ c.startRight) (hlt : c.startRight < n.toNat) :
    ∃ T, views n c = some (T, T.map fun p => p + (c.startRight - c.startLeft)) ∧
      Shown n.toNat c T := by
  have hn := n.isLt
  have hleft : (BitVec.ofNat 64 c.startLeft).toNat = c.startLeft := by
    rw [BitVec.toNat_ofNat, Nat.mod_eq_of_lt (by omega)]
  have hright : (BitVec.ofNat 64 c.startRight).toNat = c.startRight := by
    rw [BitVec.toNat_ofNat, Nat.mod_eq_of_lt (by omega)]
  have hdelta : (BitVec.ofNat 64 c.startRight - BitVec.ofNat 64 c.startLeft).toNat =
      c.startRight - c.startLeft := by
    rw [BitVec.toNat_sub_of_le (by rw [BitVec.le_def, hleft, hright]; exact hle), hleft, hright]
  have hstop : (n - (BitVec.ofNat 64 c.startRight - BitVec.ofNat 64 c.startLeft)).toNat =
      n.toNat - (c.startRight - c.startLeft) := by
    rw [BitVec.toNat_sub_of_le (by rw [BitVec.le_def, hdelta]; omega), hdelta]
  have hlenx : (n - (BitVec.ofNat 64 c.startRight - BitVec.ofNat 64 c.startLeft) -
      BitVec.ofNat 64 c.startLeft).toNat = n.toNat - c.startRight := by
    rw [BitVec.toNat_sub_of_le (by rw [BitVec.le_def, hstop, hleft]; omega), hstop, hleft]
    omega
  have hleny : (BitVec.ofNat 64 n.toNat - BitVec.ofNat 64 c.startRight).toNat =
      n.toNat - c.startRight := by
    rw [BitVec.ofNat_toNat, BitVec.setWidth_eq,
      BitVec.toNat_sub_of_le (by rw [BitVec.le_def, hright]; omega), hright]
  have hx := @View.slice_eq n.toNat id _ _ _ _ hleft hlenx (by omega) hn
  have hy := @View.slice_eq n.toNat id _ _ _ _ hright hleny (by omega) hn
  rw [List.map_id] at hx hy
  have hview := fun pos => View.alternatingSubsetReference_map hstep (n.toNat - c.startRight) pos
  generalize hsize : (n.toNat - c.startRight) / (c.step + c.step) * c.step +
    min c.step ((n.toNat - c.startRight) % (c.step + c.step)) = size at hview
  refine ⟨(List.range size).map fun i => c.startLeft + alternating c.step i, ?_, ?_, fun p => ?_⟩
  · have hfrom : View.sliceFrom (List.range n.toNat) (BitVec.ofNat 64 c.startRight) =
        some ((List.range (n.toNat - c.startRight)).map fun i => id (c.startRight + i)) := by
      rw [View.sliceFrom, List.length_range, hy]
    have hpartner : ∀ i, c.startLeft + i + (c.startRight - c.startLeft) = c.startRight + i := by omega
    rw [views, hx, hfrom]
    simp only [Option.bind_eq_bind, Option.bind_some, hview, id_eq, Option.pure_def, List.map_map,
      Function.comp_def, hpartner]
  · refine (List.nodup_map_iff fun i j heq => ?_).mpr List.nodup_range
    exact alternating_injective hstep (Nat.add_left_cancel heq)
  · rw [List.mem_map, Pairwise.truncate_left_iff]
    simp only [List.mem_range]
    constructor
    · rintro ⟨i, hi, rfl⟩
      obtain ⟨hin, heven⟩ := (exists_alternating_iff hstep (n.toNat - c.startRight) _).mp
        ⟨i, by rwa [hsize], rfl⟩
      rw [Nat.add_sub_cancel_left]
      exact ⟨⟨Nat.le_add_right _ _, heven⟩, by omega⟩
    · rintro ⟨⟨hge, heven⟩, hend⟩
      have hin : p - c.startLeft < n.toNat - c.startRight := by omega
      obtain ⟨i, hi, heq⟩ := (exists_alternating_iff hstep (n.toNat - c.startRight)
        (p - c.startLeft)).mpr ⟨hin, heven⟩
      exact ⟨i, by rwa [hsize] at hi, by omega⟩

end Views

section Rounds

/-- Whether a row is to come after another one. -/
def isAfter {α : Type} [LinearOrder α] (key : ℕ → α) (i j : ℕ) : Bool := decide (key j < key i)

variable {n : ℕ} {c : PairwiseRound} {T : List ℕ} {α : Type} [LinearOrder α]

/-- Bits that swap the pairs in the wrong order do to a column what the layer does. -/
theorem PairwiseSort.swapColumn_of_pairs (hL : ((Pairwise.layer c).truncate n).Proper) (hT : Shown n c T)
    {swap : BitVec w → BitVec w → BitVec w → BitVec w × BitVec w} (bits : ℕ → BitVec w) (key : ℕ → α)
    (col : Column w) (hswap : ∀ p, swap (bits p) (col p) (col (p + (c.startRight - c.startLeft))) =
      if key (p + (c.startRight - c.startLeft)) < key p then (col (p + (c.startRight - c.startLeft)), col p)
      else (col p, col (p + (c.startRight - c.startLeft)))) :
    swapColumn swap T (T.map fun p => p + (c.startRight - c.startLeft)) (T.map bits) col =
      col ∘ ((Pairwise.layer c).truncate n).exchange key := by
  generalize hlayer : (Pairwise.layer c).truncate n = L at hL
  have hgap : L.gap = c.startRight - c.startLeft := by rw [← hlayer]; rfl
  have hmem : ∀ p, p ∈ T ↔ L.left p = true := by
    intro p
    rw [← hlayer]
    exact hT.mem_iff p
  rw [← hgap] at hswap ⊢
  let pair : ℕ → BitVec w × BitVec w := fun p =>
    if key (p + L.gap) < key p then (col (p + L.gap), col p) else (col p, col (p + L.gap))
  have hzip : List.zipWith (fun b (p : ℕ × ℕ) => swap b (col p.1) (col p.2))
      (T.map bits) (T.zip (T.map fun p => p + L.gap)) = T.map pair := by
    have hpairs := @List.zip_map' ℕ ℕ ℕ id (fun p => p + L.gap) T
    rw [List.map_id] at hpairs
    simp only [hpairs, List.zipWith_map, List.zipWith_self, hswap, id_eq, pair]
  have hnodup : (T.map fun p => p + L.gap).Nodup :=
    (List.nodup_map_iff fun i j heq => Nat.add_right_cancel heq).mpr hT.nodup
  rw [swapColumn, hzip, List.map_map, List.map_map]
  have hright : ∀ p, L.left p = true → ∀ x : Column w,
      assignView x (T.map fun p => p + L.gap) (T.map (Prod.snd ∘ pair)) (p + L.gap) = (pair p).2 :=
    fun p hp x => assignView_of_mem x (Prod.snd ∘ pair) hnodup ((hmem p).mpr hp)
  have hskip : ∀ p, (L.gap ≤ p → L.left (p - L.gap) = false) → ∀ x : Column w,
      assignView x (T.map fun p => p + L.gap) (T.map (Prod.snd ∘ pair)) p = x p := by
    intro p hp x
    refine assignView_of_notMem x _ fun hin => ?_
    obtain ⟨q, hq, rfl⟩ := List.mem_map.mp hin
    have hfalse := hp (Nat.le_add_left _ _)
    rw [Nat.add_sub_cancel, (hmem q).mp hq] at hfalse
    exact Bool.false_ne_true hfalse.symm
  have hfirst : ∀ p, L.left p = true →
      assignView col T (T.map (Prod.fst ∘ pair)) p = (pair p).1 := by
    intro p hp
    have hassign := @assignView_of_mem _ id T col (Prod.fst ∘ pair) (by rw [List.map_id]; exact hT.nodup)
      p ((hmem p).mpr hp)
    rwa [List.map_id] at hassign
  have hother : ∀ p, L.left p = false → assignView col T (T.map (Prod.fst ∘ pair)) p = col p := by
    intro p hp
    have hassign := @assignView_of_notMem _ id T col (Prod.fst ∘ pair) p (by
      rw [List.map_id, hmem, hp]
      exact Bool.false_ne_true)
    rwa [List.map_id] at hassign
  ext p
  rw [Function.comp_apply]
  rcases hL.cases p with ⟨hp, hnot⟩ | ⟨-, q, rfl, hq⟩ | ⟨hp, hnot⟩
  · rw [hskip p hnot, hfirst p hp, ComparatorLayer.exchange_left hp hnot]
    simp only [pair]
    split <;> rfl
  · rw [hright q hq, ComparatorLayer.exchange_right hL hq]
    simp only [pair]
    split <;> rfl
  · rw [hskip p hnot, hother p hp, ComparatorLayer.exchange_other hp hnot]

theorem PairwiseSort.swapColumn_eq (hL : ((Pairwise.layer c).truncate n).Proper) (hT : Shown n c T)
    {swap : BitVec w → BitVec w → BitVec w → BitVec w × BitVec w}
    (hswap : ∀ g x y, swap (bit g) x y = if g then (y, x) else (x, y)) (key : ℕ → α) (col : Column w) :
    swapColumn swap T (T.map fun p => p + (c.startRight - c.startLeft))
        (T.map fun p => bit (isAfter key p (p + (c.startRight - c.startLeft)))) col =
      col ∘ ((Pairwise.layer c).truncate n).exchange key := by
  refine swapColumn_of_pairs hL hT _ key col fun p => ?_
  simp only [hswap, isAfter, decide_eq_true_eq]

/-- A layer in which no position is twice has chunks. -/
theorem Pairwise.step_pos (hL : (Pairwise.layer c).Proper) : 0 < c.step := by
  by_contra hstep
  have hzero : c.step = 0 := Nat.eq_zero_of_not_pos hstep
  have hall : ∀ p, c.startLeft ≤ p → (Pairwise.layer c).left p = true := by
    intro p hp
    simp [layer, hzero, hp]
  have hfalse := hL.disjoint c.startLeft (hall _ le_rfl)
  rw [hall _ (Nat.le_add_right _ _)] at hfalse
  exact Bool.false_ne_true hfalse.symm

/-- A round past the end compares nothing. -/
theorem Pairwise.truncate_apply_of_end (hc : n ≤ c.startRight) (x : ℕ → α) :
    ((Pairwise.layer c).truncate n).apply x = x := by
  have hleft : ∀ p, ((Pairwise.layer c).truncate n).left p = false := by
    intro p
    rw [← Bool.not_eq_true, Pairwise.truncate_left_iff]
    rintro ⟨⟨hle, -⟩, hlt⟩
    omega
  ext p
  exact ComparatorLayer.apply_other (hleft p) fun _ => hleft _

end Rounds

section Run

variable {n : BitVec 64} {order : List SortOrder} {t : SortVectors wK w}

/-- The keys of each row. -/
def SortVectors.rowKeys (t : SortVectors wK w) (order : List SortOrder) (i : ℕ) : List ℤ :=
  rowKey order (t.keys.map fun k => k i)

theorem SortVectors.rowKeys_permuted (t : SortVectors wK w) (order : List SortOrder) (σ : ℕ → ℕ) :
    (t.permuted σ).rowKeys order = t.rowKeys order ∘ σ := by
  ext i
  simp [rowKeys, permuted, List.map_map, Function.comp_def]

namespace PairwiseSort

theorem compareRows_isAfter (horder : order ≠ []) (hkeys : t.keys ≠ []) (p : ℕ × ℕ) :
    compareRows (orderKeys order (t.keys.map fun k => k p.1) (t.keys.map fun k => k p.2)) =
      some (bit (isAfter (t.rowKeys order) p.1 p.2)) := by
  rw [compareRows_eq horder (List.map_eq_nil_iff.not.mpr hkeys)
    (by rw [List.length_map, List.length_map])]
  congr 2
  exact decide_eq_decide.mpr Iff.rfl

/-- Views of the pairs of a layer exchange the rows that the layer exchanges. -/
theorem compareSwap_eq (hwK : 0 < wK) (hw : 0 < w) (horder : order ≠ []) (hkeys : t.keys ≠ [])
    {c : PairwiseRound} {size : ℕ} {T : List ℕ} (hL : ((Pairwise.layer c).truncate size).Proper)
    (hT : Shown size c T) :
    compareSwap order T (T.map fun p => p + (c.startRight - c.startLeft)) t =
      some (t.permuted (((Pairwise.layer c).truncate size).exchange (t.rowKeys order))) := by
  have hpairs := @List.zip_map' ℕ ℕ ℕ id (fun p => p + (c.startRight - c.startLeft)) T
  rw [List.map_id] at hpairs
  let bits : ∀ w', List (BitVec w') := fun w' =>
    T.map fun p => bit (isAfter (t.rowKeys order) p (p + (c.startRight - c.startLeft)))
  have hbits : (T.zip (T.map fun p => p + (c.startRight - c.startLeft))).mapM (fun p =>
      compareRows (orderKeys order (t.keys.map fun k => k p.1) (t.keys.map fun k => k p.2))) =
      some (bits wK) := by
    have hrows := @mapM_some (ℕ × ℕ) (BitVec wK) _
      (fun p => bit (isAfter (t.rowKeys order) p.1 p.2))
      (T.zip (T.map fun p => p + (c.startRight - c.startLeft)))
      fun p _ => compareRows_isAfter horder hkeys p
    rw [hrows, hpairs, List.map_map]
    rfl
  have hbBits : (bits wK).map (BitVec.setWidth w) = bits w := by
    rw [List.map_map]
    exact List.map_congr_left fun p _ => setWidth_bit hwK _
  have haBits : (bits w).map (· &&& 1) = bits w := by
    rw [List.map_map]
    exact List.map_congr_left fun p _ => and_one_bit _
  rw [compareSwap]
  simp only [Option.bind_eq_bind, hbits, Option.bind_some, Option.pure_def, hbBits, haBits]
  rw [SortVectors.permuted]
  congr 2
  · exact List.map_congr_left fun col _ =>
      swapColumn_eq hL hT (swapB_bit hwK) (t.rowKeys order) col
  · exact List.map_congr_left fun col _ =>
      swapColumn_eq hL hT swapA_bit (t.rowKeys order) col
  · exact List.map_congr_left fun col _ =>
      swapColumn_eq hL hT (swapB_bit hw) (t.rowKeys order) col

/-- A round exchanges the rows that its layer exchanges. -/
theorem round_eq (hwK : 0 < wK) (hw : 0 < w) (horder : order ≠ []) (hkeys : t.keys ≠ [])
    {c : PairwiseRound} (hL : (Pairwise.layer c).Proper) (hlt : c.startRight < n.toNat) :
    round n order t c =
      some (t.permuted (((Pairwise.layer c).truncate n.toNat).exchange (t.rowKeys order))) := by
  have hle : c.startLeft ≤ c.startRight := by
    have hpos : 0 < c.startRight - c.startLeft := hL.gap_pos
    omega
  obtain ⟨T, hviews, hT⟩ := views_eq (Pairwise.step_pos hL) hle hlt
  have hround : round n order t c = (views n c).bind fun v => compareSwap order v.1 v.2 t := rfl
  rw [hround, hviews, Option.bind_some]
  exact compareSwap_eq hwK hw horder hkeys (hL.truncate n.toNat) hT

/-- The rounds permute the rows, and do to their keys what the network does. -/
theorem run_eq (hwK : 0 < wK) (hw : 0 < w) (horder : order ≠ []) (rounds : List PairwiseRound)
    (hproper : ∀ c ∈ rounds, (Pairwise.layer c).Proper) (hkeys : t.keys ≠ []) :
    ∃ σ : Equiv.Perm ℕ, (∀ p, n.toNat ≤ p → σ p = p) ∧
      (Pairwise.within n.toNat rounds).foldlM (round n order) t = some (t.permuted σ) ∧
      t.rowKeys order ∘ σ = ComparatorNetwork.run
        ((rounds.map Pairwise.layer).map fun L => L.truncate n.toNat) (t.rowKeys order) := by
  induction rounds generalizing t with
  | nil => exact ⟨Equiv.refl ℕ, fun _ _ => rfl, by rw [Equiv.coe_refl, t.permuted_id]; rfl, rfl⟩
  | cons c rounds ih =>
      have hL := hproper c List.mem_cons_self
      have hrest : ∀ d ∈ rounds, (Pairwise.layer d).Proper := fun d hd =>
        hproper d (List.mem_cons_of_mem c hd)
      rw [Pairwise.within_cons]
      by_cases hlt : c.startRight < n.toNat
      · have htrunc := hL.truncate n.toNat
        let τ := ComparatorLayer.exchangePerm htrunc (t.rowKeys order)
        have hkeys' : (t.permuted τ).keys ≠ [] := List.map_eq_nil_iff.not.mpr hkeys
        obtain ⟨σ, hfix, hfold, hrun⟩ := ih hrest hkeys'
        refine ⟨σ.trans τ, fun p hp => ?_, ?_, ?_⟩
        · rw [Equiv.trans_apply, hfix p hp]
          exact ComparatorLayer.exchange_truncate_of_le _ hp
        · rw [if_pos hlt, List.foldlM_cons, round_eq hwK hw horder hkeys hL hlt]
          apply hfold.trans
          rw [SortVectors.permuted_permuted]
          rfl
        · rw [SortVectors.rowKeys_permuted] at hrun
          apply hrun.trans
          change _ = ComparatorNetwork.run _ (ComparatorLayer.apply _ (t.rowKeys order))
          rw [ComparatorLayer.apply_eq_comp_exchange htrunc]
          rfl
      · obtain ⟨σ, hfix, hfold, hrun⟩ := ih hrest hkeys
        refine ⟨σ, hfix, by rw [if_neg hlt, hfold], hrun.trans ?_⟩
        change _ = ComparatorNetwork.run _ (ComparatorLayer.apply _ (t.rowKeys order))
        rw [Pairwise.truncate_apply_of_end (not_lt.mp hlt)]

end PairwiseSort

/-- The first `n` rows are in the order of their keys, and all columns went through one permutation of
these rows. -/
structure SortsRows (n : ℕ) (order : List SortOrder) (t t' : SortVectors wK w) : Prop where
  ordered : ∀ i j, i ≤ j → j < n → t'.rowKeys order i ≤ t'.rowKeys order j
  permuted : ∃ σ : Equiv.Perm ℕ, (∀ p, n ≤ p → σ p = p) ∧ t' = t.permuted σ

namespace PairwiseSort

theorem size_le_iff (hn : 0 < n.toNat) : (n - 1).toNat.size ≤ 30 ↔ n.toNat ≤ 2 ^ 30 := by
  have hlast : (n - 1).toNat = n.toNat - 1 :=
    BitVec.toNat_sub_of_le (by rw [BitVec.le_def]; exact hn)
  rw [Nat.size_le, hlast]
  omega

theorem guard_holds (hkeys : t.keys ≠ []) (hlen : t.keys.length = order.length) :
    0 < t.keys.length ∧ t.keys.length = order.length :=
  ⟨List.length_pos_of_ne_nil hkeys, hlen⟩

theorem pairwiseSort_sorts (hwK : 0 < wK) (hw : 0 < w) (hn : 0 < n.toNat) (hn' : n.toNat ≤ 2 ^ 30)
    (hkeys : t.keys ≠ []) (hlen : t.keys.length = order.length) :
    ∃ t', pairwiseSort n order t = some t' ∧ SortsRows n.toNat order t t' := by
  have hsize := (size_le_iff hn).mpr hn'
  have horder : order ≠ [] := by
    rintro rfl
    exact hkeys (List.eq_nil_of_length_eq_zero hlen)
  have hproper : ∀ c ∈ Pairwise.allRounds (n - 1).toNat.size, (Pairwise.layer c).Proper := by
    intro c hc
    apply PairwiseNetwork.network_proper (n - 1).toNat.size _
    rw [← Pairwise.map_layer_allRounds]
    exact List.mem_map_of_mem hc
  obtain ⟨σ, hfix, hfold, hrun⟩ := run_eq hwK hw horder _ hproper hkeys
  refine ⟨t.permuted σ, ?_, ?_, σ, hfix, rfl⟩
  · rw [pairwiseSort, Pairwise.pwComparisons_eq hsize, guard, if_pos (guard_holds hkeys hlen)]
    exact hfold
  · intro i j hij hj
    have hpow : n.toNat ≤ 2 ^ (n - 1).toNat.size := by
      have hlt := Nat.lt_size_self (n - 1).toNat
      have hlast : (n - 1).toNat = n.toNat - 1 :=
        BitVec.toNat_sub_of_le (by rw [BitVec.le_def]; exact hn)
      omega
    have hsorts := PairwiseNetwork.sorts_truncate hpow (t.rowKeys order) i j hij hj
    rw [SortVectors.rowKeys_permuted, hrun, Pairwise.map_layer_allRounds]
    exact hsorts

theorem pairwiseSort_eq_none (hn : 0 < n.toNat) (hn' : ¬ n.toNat ≤ 2 ^ 30) :
    pairwiseSort n order t = none := by
  rw [pairwiseSort, Pairwise.pwComparisons_eq_none (not_le.mp ((size_le_iff hn).not.mpr hn'))]
  generalize (guard (0 < t.keys.length ∧ t.keys.length = order.length) : Option Unit) = checked
  cases checked <;> rfl

/-- The network sorts every table whose next power of two is an `int`, and no other. -/
theorem pairwiseSort_iff (hwK : 0 < wK) (hw : 0 < w) (hn : 0 < n.toNat) (hkeys : t.keys ≠ [])
    (hlen : t.keys.length = order.length) :
    (∃ t', pairwiseSort n order t = some t' ∧ SortsRows n.toNat order t t') ↔ n.toNat ≤ 2 ^ 30 := by
  constructor
  · rintro ⟨t', hsort, -⟩
    by_contra hn'
    rw [pairwiseSort_eq_none hn hn'] at hsort
    exact Option.some_ne_none t' hsort.symm
  · exact fun hn' => pairwiseSort_sorts hwK hw hn hn' hkeys hlen

/-- Two keys, the second of them in descending order. -/
def exampleVectors : SortVectors 8 16 where
  keys := [fun i => if i = 0 then 1 else 0, fun i => BitVec.ofNat 8 i]
  dataA := [fun i => BitVec.ofNat 16 (10 * i)]
  dataB := []

theorem pairwiseSort_iff_three :
    (∃ t', pairwiseSort 3 [.asc, .desc] exampleVectors = some t' ∧
      SortsRows (3 : BitVec 64).toNat [.asc, .desc] exampleVectors t') ↔
      (3 : BitVec 64).toNat ≤ 2 ^ 30 :=
  pairwiseSort_iff (by decide) (by decide) (by decide) (List.cons_ne_nil _ _) rfl

/-- One row more than the greatest power of two that is an `int`. -/
theorem pairwiseSort_fails :
    ¬ ∀ (wK w : ℕ) (n : BitVec 64) (order : List SortOrder) (t : SortVectors wK w), 0 < wK → 0 < w →
      0 < n.toNat → t.keys ≠ [] → t.keys.length = order.length →
      ∃ t', pairwiseSort n order t = some t' ∧ SortsRows n.toNat order t t' := by
  intro hall
  obtain ⟨t', hsort, -⟩ := hall 8 16 1073741825 [.asc, .desc] exampleVectors (by decide) (by decide)
    (by decide) (List.cons_ne_nil _ _) rfl
  rw [pairwiseSort_eq_none (by decide) (by decide)] at hsort
  exact Option.some_ne_none t' hsort.symm

end PairwiseSort

end Run

end CryptDough
