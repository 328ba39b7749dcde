import CryptDough.Aggregation
import CryptDough.MappedVector
import CryptDough.StrideScan
import Mathlib.Data.Nat.Size
import Mathlib.Tactic.IntervalCases

/-! The two prefix networks: their levels as pairs of views of a column, the loop over the levels, and
the aggregation that this loop computes. -/

namespace CryptDough

open SegmentedScan hiding Level

/-- The positions of a column that a view shows, in its order. -/
abbrev View := List ℕ

namespace View

def reversedView (v : View) : View := v.reverse

/-- A position outside of the view is undefined. -/
def slice (v : View) (start stop : BitVec 64) : Option View :=
  (List.range (min (stop - start).toNat v.length)).mapM fun i =>
    v[(start + BitVec.ofNat 64 i).toNat]?

def sliceFrom (v : View) (start : BitVec 64) : Option View :=
  v.slice start (BitVec.ofNat 64 v.length)

/-- `endIndex` is included. -/
def simpleSubsetReference (v : View) (start step endIndex : BitVec 64) : Option View :=
  if step = 1 then v.slice start (endIndex + 1)
  else (List.range (min v.length ((endIndex - start) / step + 1).toNat)).mapM fun i =>
    v[(start + BitVec.ofNat 64 i * step).toNat]?

def subset (v : View) (start step : BitVec 64) : Option View :=
  v.simpleSubsetReference start step (BitVec.ofNat 64 v.length - 1)

/-- Growing would append storage that is not of the column. -/
def resize (v : View) (n : ℕ) : Option View := if n ≤ v.length then some (v.take n) else none

end View

def PrefixNetwork.isPowerOfTwo (x : BitVec 64) : Option Bool := do
  let power ← gapOf (bitWidth (x - 1))
  pure (power == x)

/-- The network with the functions its subclass implements. -/
structure PrefixNetwork where
  n : BitVec 64
  reversed : Bool
  _level : ℤ → View → Option (View × View)
  levelSize : ℤ → Option (BitVec 64)
  depth : ℤ

namespace HillisSteele

def depth (n : BitVec 64) : ℤ := bitWidth (n - 1)

def levelSize (n : BitVec 64) (reversed : Bool) (i : ℤ) : Option (BitVec 64) := do
  let gap := if reversed then i + 1 else depth n - i
  let power ← gapOf gap
  pure (n - n / power)

def _level (n : BitVec 64) (reversed : Bool) (i : ℤ) (input : View) : Option (View × View) := do
  let s ← levelSize n reversed i
  let a ← input.slice 0 s
  let b ← input.sliceFrom (n - s)
  pure (a, b)

end HillisSteele

namespace BrentKung

def halfDepth (n : BitVec 64) : ℤ := bitWidth (n - 1)

def _level (n : BitVec 64) (i : ℤ) (input : View) : Option (View × View) :=
  if i < halfDepth n then do
    let gap ← gapOf i
    let a ← input.subset (1 * gap - 1) (gap * 2)
    let b ← input.subset (2 * gap - 1) (gap * 2)
    let a ← a.resize b.length
    pure (a, b)
  else do
    let gap ← gapOf (2 * halfDepth n - 2 - i)
    let a ← input.subset (2 * gap - 1) (gap * 2)
    let b ← input.subset (3 * gap - 1) (gap * 2)
    let a ← a.resize b.length
    pure (a, b)

def levelSize (n : BitVec 64) (i : ℤ) : Option (BitVec 64) :=
  if i < halfDepth n then do
    let gap ← gapOf i
    pure ((n - 2 * gap) / (2 * gap) + 1)
  else do
    let gap ← gapOf (2 * halfDepth n - 2 - i)
    pure ((n - 3 * gap) / (2 * gap) + 1)

def depth (n : BitVec 64) : ℤ := 2 * halfDepth n - 1

end BrentKung

inductive NetworkClass
  | hillisSteele | brentKung
deriving DecidableEq

def NetworkClass.network (network : NetworkClass) (reversed : Bool) (n : BitVec 64) :
    PrefixNetwork :=
  match network with
  | hillisSteele =>
      { n := n
        reversed := reversed
        _level := HillisSteele._level n reversed
        levelSize := HillisSteele.levelSize n reversed
        depth := HillisSteele.depth n }
  | brentKung =>
      { n := n
        reversed := reversed
        _level := BrentKung._level n
        levelSize := BrentKung.levelSize n
        depth := BrentKung.depth n }

/-- The constructor refuses a size that is not a power of two. -/
def NetworkClass.construct (network : NetworkClass) (dir : Direction) (n : BitVec 64) :
    Option PrefixNetwork := do
  let accepted ← PrefixNetwork.isPowerOfTwo n
  guard (accepted = true)
  pure (network.network (decide (dir = .reverse)) n)

namespace PrefixNetwork

variable (net : PrefixNetwork)

/-- Both sides of level `i` of the network, of a vector `input` in the network's direction. -/
def level (i : ℤ) (input : View) : Option (View × View) := do
  guard (0 ≤ i ∧ i < net.depth)
  let inr := if net.reversed then input.reversedView else input
  net._level i inr

/-- What the iterator yields: the size of the level, and which level it is. -/
structure Level where
  size : BitVec 64
  i : ℤ

def deref (idx : ℤ) : Option Level := do
  let size ← net.levelSize idx
  pure { size := size, i := idx }

/-- The range loop from the index `idx` on, for at most `fuel` rounds. -/
def forLevels {σ : Type} (body : Level → σ → Option σ) : ℕ → ℤ → σ → Option σ
  | 0, _, _ => none
  | fuel + 1, idx, s =>
      if idx ≠ net.depth then do
        let l ← net.deref idx
        let s ← body l s
        forLevels body fuel (idx + 1) s
      else some s

/-- The whole column. -/
def column : View := List.range net.n.toNat

variable {κ β : Type} [DecidableEq κ]

/-- `first_vector == second_vector` for one of the keys. -/
def keyBits (l : Level) (key : ℕ → κ) : Option (List Bool) := do
  let views ← net.level l.i net.column
  pure (List.zipWith (fun p q => decide (key p = key q)) views.1 views.2)

/-- For every pair of the level, whether all keys agree. -/
def groupBits (keys : List (ℕ → κ)) (l : Level) : Option (List Bool) :=
  match keys with
  | [] => some (List.replicate l.size.toNat true)
  | key :: keys => do
      let bits ← net.keyBits l key
      keys.foldlM (fun bits key => do
        let equal ← net.keyBits l key
        pure (List.zipWith (· && ·) bits equal)) bits

/-- The values are assigned to the positions of the view. -/
def assignView (x : ℕ → β) (view : View) (values : List β) : ℕ → β :=
  (view.zip values).foldl (fun x p => Function.update x p.1 p.2) x

/-- One round: all results are computed from the old column and then assigned. -/
def levelStep (keys : List (ℕ → κ)) (op : β → β → β) (l : Level) (x : ℕ → β) :
    Option (ℕ → β) := do
  let group ← net.groupBits keys l
  let views ← net.level l.i net.column
  let values := List.zipWith (fun g (p : ℕ × ℕ) => if g then op (x p.1) (x p.2) else x p.2) group
    (views.1.zip views.2)
  pure (assignView x views.2 values)

/-- The level loop of the aggregation. -/
def aggregateLevels (keys : List (ℕ → κ)) (op : β → β → β) (fuel : ℕ) (x : ℕ → β) :
    Option (ℕ → β) :=
  net.forLevels (net.levelStep keys op) fuel 0 x

end PrefixNetwork

theorem gapOf_eq {k : ℕ} (hk : k ≤ 30) : gapOf k = some (BitVec.ofNat 64 (2 ^ k)) := by
  interval_cases k <;> rfl

theorem bitWidth_pred {n : BitVec 64} {k : ℕ} (hn : n.toNat = 2 ^ k) : bitWidth (n - 1) = k := by
  have hpos := Nat.two_pow_pos k
  have hle : (1 : BitVec 64).toNat ≤ n.toNat := by
    rw [hn]
    exact hpos
  have hpred : (n - 1).toNat = 2 ^ k - 1 := by
    rw [BitVec.toNat_sub_of_le hle, hn]
    rfl
  have hsize : (2 ^ k - 1).size = k := by
    apply le_antisymm
    · exact Nat.size_le.mpr (by omega)
    · by_contra hlt
      have hbound := Nat.size_le.mp (by omega : (2 ^ k - 1).size ≤ k - 1)
      have hhalf : 2 ^ k = 2 * 2 ^ (k - 1) := by
        rw [two_mul_two_pow, Nat.sub_add_cancel (by omega)]
      omega
  rw [bitWidth, hpred, hsize]

/-- The sizes that are accepted. -/
theorem isPowerOfTwo_eq_true_iff (n : BitVec 64) :
    PrefixNetwork.isPowerOfTwo n = some true ↔ ∃ k, k ≤ 30 ∧ n.toNat = 2 ^ k := by
  constructor
  · intro haccepted
    unfold PrefixNetwork.isPowerOfTwo bitWidth at haccepted
    have hlt := (n - 1).isLt
    generalize hm : (n - 1).toNat.size = m at haccepted
    by_cases hle : m ≤ 30
    · rw [gapOf_eq hle] at haccepted
      have heq : BitVec.ofNat 64 (2 ^ m) = n := by simpa using haccepted
      refine ⟨m, hle, ?_⟩
      have hpow : 2 ^ m < 2 ^ 64 := Nat.pow_lt_pow_right (by omega) (by omega)
      rw [← heq, BitVec.toNat_ofNat, Nat.mod_eq_of_lt hpow]
    · -- `1 << 31` is negative, and larger shifts are undefined
      by_cases hlast : m = 31
      · subst hlast
        have hgap : gapOf (31 : ℕ) = some (BitVec.ofNat 64 (2 ^ 64 - 2 ^ 31)) := rfl
        rw [hgap] at haccepted
        have heq : BitVec.ofNat 64 (2 ^ 64 - 2 ^ 31) = n := by simpa using haccepted
        subst heq
        have hsize := Nat.size_le.mp hm.le
        simp at hsize
      · have hnone : gapOf m = none := by
          unfold gapOf shiftOne
          rw [if_neg (by omega)]
          rfl
        rw [hnone] at haccepted
        cases haccepted
  · rintro ⟨k, hk, hn⟩
    have hpow : 2 ^ k < 2 ^ 64 := Nat.pow_lt_pow_right (by omega) (by omega)
    have heq : BitVec.ofNat 64 (2 ^ k) = n := by
      apply BitVec.eq_of_toNat_eq
      rw [BitVec.toNat_ofNat, Nat.mod_eq_of_lt hpow, hn]
    rw [PrefixNetwork.isPowerOfTwo, bitWidth_pred hn, gapOf_eq hk, heq]
    simp

/-- Larger powers of two are not taken for powers of two. -/
theorem isPowerOfTwo_ne_true {n : BitVec 64} {k : ℕ} (hn : n.toNat = 2 ^ k) (hk : 30 < k) :
    PrefixNetwork.isPowerOfTwo n ≠ some true := by
  intro haccepted
  obtain ⟨l, hl, hpow⟩ := (isPowerOfTwo_eq_true_iff n).mp haccepted
  have hkl := Nat.pow_right_injective le_rfl (hn.symm.trans hpow)
  omega

namespace PrefixNetwork

variable {β : Type} {pos : ℕ → ℕ} {T : List ℕ}

theorem assignView_of_notMem (x : ℕ → β) (f : ℕ → β) {p : ℕ} (hp : p ∉ T.map pos) :
    assignView x (T.map pos) (T.map f) p = x p := by
  unfold assignView
  induction T generalizing x with
  | nil => rfl
  | cons t T ih =>
      obtain ⟨hne, hrest⟩ := not_or.mp fun hmem => hp (List.mem_cons.mpr hmem)
      simp only [List.map_cons, List.zip_cons_cons, List.foldl_cons]
      rw [ih _ hrest, Function.update_of_ne hne]

theorem assignView_of_mem (x : ℕ → β) (f : ℕ → β) (hnodup : (T.map pos).Nodup) {t : ℕ}
    (ht : t ∈ T) : assignView x (T.map pos) (T.map f) (pos t) = f t := by
  induction T generalizing x with
  | nil => cases ht
  | cons u T ih =>
      obtain ⟨hnot, hrest⟩ := List.nodup_cons.mp hnodup
      rcases List.mem_cons.mp ht with rfl | ht
      · apply (assignView_of_notMem (Function.update x (pos t) (f t)) f hnot).trans
        exact Function.update_self (pos t) (f t) x
      · exact ih (Function.update x (pos u) (f u)) hrest ht

end PrefixNetwork

namespace View

variable {N : ℕ} {pos : ℕ → ℕ}

theorem slice_eq {start stop : BitVec 64} {a m : ℕ} (hstart : start.toNat = a)
    (hlen : (stop - start).toNat = m) (ham : a + m ≤ N) (hN : N < 2 ^ 64) :
    slice ((List.range N).map pos) start stop =
      some ((List.range m).map fun i => pos (a + i)) := by
  unfold slice
  rw [hlen, List.length_map, List.length_range, min_eq_left (by omega)]
  refine mapM_some fun i hi => ?_
  have hi := List.mem_range.mp hi
  have hindex : (start + BitVec.ofNat 64 i).toNat = a + i := by
    rw [BitVec.toNat_add, BitVec.toNat_ofNat, hstart, Nat.mod_eq_of_lt (by omega : i < 2 ^ 64),
      Nat.mod_eq_of_lt (by omega)]
  rw [hindex, List.getElem?_map, List.getElem?_range (by omega)]
  rfl

theorem subset_eq {start step : BitVec 64} {a s : ℕ} (hstart : start.toNat = a)
    (hstep : step.toNat = s) (hs : 2 ≤ s) (ha : a < N) (hN : N < 2 ^ 64) :
    subset ((List.range N).map pos) start step =
      some ((List.range ((N - 1 - a) / s + 1)).map fun i => pos (a + i * s)) := by
  unfold subset simpleSubsetReference
  have hne : step ≠ 1 := by
    rintro rfl
    have hone : (1 : BitVec 64).toNat = 1 := rfl
    omega
  have hquot : (N - 1 - a) / s ≤ (N - 1 - a) / 2 := Nat.div_le_div_left hs (by omega)
  have hlast : (BitVec.ofNat 64 N - 1).toNat = N - 1 := by
    have hofNat : (BitVec.ofNat 64 N).toNat = N := by
      rw [BitVec.toNat_ofNat, Nat.mod_eq_of_lt hN]
    rw [BitVec.toNat_sub_of_le (by rw [BitVec.le_def, hofNat]; exact (by omega : 1 ≤ N)), hofNat]
    rfl
  have hdist : (BitVec.ofNat 64 N - 1 - start).toNat = N - 1 - a := by
    rw [BitVec.toNat_sub_of_le (by rw [BitVec.le_def, hlast, hstart]; omega), hlast, hstart]
  have hcount : ((BitVec.ofNat 64 N - 1 - start) / step + 1).toNat = (N - 1 - a) / s + 1 := by
    have hone : (1 : BitVec 64).toNat = 1 := rfl
    rw [BitVec.toNat_add, BitVec.toNat_udiv, hdist, hstep, hone, Nat.mod_eq_of_lt (by omega)]
  rw [if_neg hne, List.length_map, List.length_range, hcount, min_eq_right (by omega)]
  refine mapM_some fun i hi => ?_
  have hi := List.mem_range.mp hi
  have hmul : i * s ≤ N - 1 - a :=
    (Nat.mul_le_mul_right s (by omega)).trans (Nat.div_mul_le_self (N - 1 - a) s)
  have hile : i ≤ i * s := Nat.le_mul_of_pos_right i (by omega)
  have hprod : (BitVec.ofNat 64 i * step).toNat = i * s := by
    rw [BitVec.toNat_mul, BitVec.toNat_ofNat, hstep, Nat.mod_eq_of_lt (by omega : i < 2 ^ 64),
      Nat.mod_eq_of_lt (by omega)]
  have hindex : (start + BitVec.ofNat 64 i * step).toNat = a + i * s := by
    rw [BitVec.toNat_add, hstart, hprod, Nat.mod_eq_of_lt (by omega)]
  rw [hindex, List.getElem?_map, List.getElem?_range (by omega)]
  rfl

theorem resize_map_range {m m' : ℕ} (f : ℕ → ℕ) (hle : m ≤ m') :
    resize ((List.range m').map f) m = some ((List.range m).map f) := by
  unfold resize
  rw [List.length_map, List.length_range, if_pos hle, ← List.map_take, List.take_range,
    min_eq_left hle]

end View

/-- The views show, for every target of the level `l` in `T`, what it reads and the target itself. -/
structure Shows (l : SegmentedScan.Level) (N : ℕ) (pos : ℕ → ℕ) (views : View × View)
    (T : List ℕ) : Prop where
  nodup : T.Nodup
  mem_iff : ∀ t, t ∈ T ↔ t < N ∧ l.target t = true
  gap_le : ∀ t ∈ T, l.gap ≤ t
  views_eq : views = (T.map fun t => pos (t - l.gap), T.map pos)

theorem Shows.of_arithmetic {l : SegmentedScan.Level} {N m a s : ℕ} {pos : ℕ → ℕ}
    (hs : 0 < s) (hmem : ∀ t, (∃ i, i < m ∧ a + i * s = t) ↔ t < N ∧ l.target t = true)
    (hgap : l.gap ≤ a) : Shows l N pos
      ((List.range m).map fun i => pos (a - l.gap + i * s), (List.range m).map fun i => pos (a + i * s))
      ((List.range m).map fun i => a + i * s) := by
  have hinj : Function.Injective fun i => a + i * s := fun i j heq =>
    Nat.eq_of_mul_eq_mul_right hs (Nat.add_left_cancel heq)
  constructor
  · exact (List.nodup_map_iff hinj).mpr List.nodup_range
  · intro t
    rw [← hmem t, List.mem_map]
    exact exists_congr fun i => and_congr_left' List.mem_range
  · intro t ht
    obtain ⟨i, -, rfl⟩ := List.mem_map.mp ht
    exact hgap.trans (Nat.le_add_right a (i * s))
  · rw [List.map_map, List.map_map]
    congr 1
    refine List.map_congr_left fun i _ => ?_
    have heq : a + i * s - l.gap = a - l.gap + i * s := by omega
    exact congrArg pos heq.symm

namespace HillisSteele

theorem levelSize_eq {n : BitVec 64} {k i stride : ℕ} (hn : n.toNat = 2 ^ k) (hk : k ≤ 30)
    {reversed : Bool} (hi : i < k) (hstride : stride = if reversed then 2 ^ (k - 1 - i) else 2 ^ i) :
    ∃ s, levelSize n reversed i = some s ∧ s.toNat = 2 ^ k - stride ∧
      (n - s).toNat = stride := by
  obtain ⟨e, hexp, hle, hgap⟩ : ∃ e, stride = 2 ^ e ∧ e < k ∧
      (if reversed then (i : ℤ) + 1 else depth n - i) = ((k - e : ℕ) : ℤ) := by
    rw [depth, bitWidth_pred hn, hstride]
    cases reversed with
    | false => exact ⟨i, rfl, hi, by simp only [Bool.false_eq_true, if_false]; omega⟩
    | true => exact ⟨k - 1 - i, rfl, by omega, by simp only [if_true]; omega⟩
  have hpow : 2 ^ (k - e) < 2 ^ 64 := Nat.pow_lt_pow_right (by omega) (by omega)
  have hdiv : (n / BitVec.ofNat 64 (2 ^ (k - e))).toNat = stride := by
    rw [BitVec.toNat_udiv, BitVec.toNat_ofNat, Nat.mod_eq_of_lt hpow, hn, hexp,
      Nat.pow_div (Nat.sub_le k e) (by omega)]
    congr 1
    omega
  have hlt : stride ≤ 2 ^ k := by
    rw [hexp]
    exact Nat.pow_le_pow_right (by omega) (by omega)
  have hsize : (n - n / BitVec.ofNat 64 (2 ^ (k - e))).toNat = 2 ^ k - stride := by
    rw [BitVec.toNat_sub_of_le (by rw [BitVec.le_def, hdiv, hn]; exact hlt), hdiv, hn]
  refine ⟨n - n / BitVec.ofNat 64 (2 ^ (k - e)), ?_, hsize, ?_⟩
  · unfold levelSize
    simp only [hgap, gapOf_eq (by omega : k - e ≤ 30)]
    rfl
  · rw [BitVec.toNat_sub_of_le (by rw [BitVec.le_def, hsize, hn]; omega), hsize, hn]
    omega

theorem level_shows {n : BitVec 64} {k i stride : ℕ} (hn : n.toNat = 2 ^ k) (hk : k ≤ 30)
    {reversed : Bool} (hi : i < k) (hstride : stride = if reversed then 2 ^ (k - 1 - i) else 2 ^ i)
    (pos : ℕ → ℕ) :
    ∃ s views T, levelSize n reversed i = some s ∧
      _level n reversed i ((List.range (2 ^ k)).map pos) = some views ∧ T.length = s.toNat ∧
      Shows (strideLevel stride) (2 ^ k) pos views T := by
  obtain ⟨s, hsize, hs, hns⟩ := levelSize_eq hn hk hi hstride
  have hpow : 2 ^ k < 2 ^ 64 := Nat.pow_lt_pow_right (by omega) (by omega)
  have hle : stride ≤ 2 ^ k := by
    have := (n - s).isLt
    have hsub : s.toNat ≤ 2 ^ k := by omega
    have hback : (n - s).toNat = 2 ^ k - s.toNat := by
      rw [BitVec.toNat_sub_of_le (by rw [BitVec.le_def, hn]; exact hsub), hn]
    omega
  have hn' : BitVec.ofNat 64 (2 ^ k) = n := by
    apply BitVec.eq_of_toNat_eq
    rw [BitVec.toNat_ofNat, Nat.mod_eq_of_lt hpow, hn]
  have ha : View.slice ((List.range (2 ^ k)).map pos) 0 s =
      some ((List.range (2 ^ k - stride)).map fun i => pos (0 + i)) := by
    refine View.slice_eq rfl ?_ (by omega) hpow
    have hzero : s - 0 = s := BitVec.sub_zero s
    rw [hzero, hs]
  have hb : View.sliceFrom ((List.range (2 ^ k)).map pos) (n - s) =
      some ((List.range (2 ^ k - stride)).map fun i => pos (stride + i)) := by
    unfold View.sliceFrom
    rw [List.length_map, List.length_range, hn']
    refine View.slice_eq hns ?_ (by omega) hpow
    rw [BitVec.toNat_sub_of_le (by rw [BitVec.le_def, hns, hn]; exact hle), hns, hn]
  have hshows := @Shows.of_arithmetic (strideLevel stride) (2 ^ k) (2 ^ k - stride) stride 1 pos
    Nat.one_pos (fun t => ?_) (le_refl _)
  · refine ⟨s, _, _, hsize, ?_, ?_, hshows⟩
    · unfold _level
      rw [hsize]
      simp only [Option.bind_eq_bind, Option.bind_some, ha, hb]
      simp [strideLevel]
    · rw [List.length_map, List.length_range, hs]
  · rw [strideLevel_target]
    constructor
    · rintro ⟨j, hj, rfl⟩
      omega
    · exact fun ht => ⟨t - stride, by omega, by omega⟩

end HillisSteele

namespace BrentKung

theorem mul_toNat {m g : ℕ} (hlt : m * g < 2 ^ 64) :
    (BitVec.ofNat 64 m * BitVec.ofNat 64 g).toNat = m * g := by
  rw [← BitVec.ofNat_mul, BitVec.toNat_ofNat, Nat.mod_eq_of_lt hlt]

theorem mul_sub_one_toNat {m g : ℕ} (hpos : 0 < m * g) (hlt : m * g < 2 ^ 64) :
    (BitVec.ofNat 64 m * BitVec.ofNat 64 g - 1).toNat = m * g - 1 := by
  rw [BitVec.toNat_sub_of_le (by rw [BitVec.le_def, mul_toNat hlt]; exact hpos), mul_toNat hlt]
  rfl

theorem sub_div_two_mul {g r c m : ℕ} (hg : 0 < g) (hle : m ≤ 2 * c) (hlt : 2 * c < m + 2) :
    (2 * g * (r + c) - m * g) / (2 * g) = r := by
  obtain ⟨d, hd⟩ : ∃ d, 2 * c = m + d := ⟨2 * c - m, by omega⟩
  have hsplit : 2 * g * (r + c) = d * g + 2 * g * r + m * g := by
    calc 2 * g * (r + c) = 2 * g * r + g * (2 * c) := by ring
      _ = d * g + 2 * g * r + m * g := by rw [hd]; ring
  have hsmall : d * g < 2 * g := Nat.mul_lt_mul_of_pos_right (by omega) hg
  rw [hsplit, Nat.add_sub_cancel, Nat.add_mul_div_left _ _ (by omega), Nat.div_eq_of_lt hsmall,
    Nat.zero_add]

variable {n : BitVec 64} {g q m : ℕ}

/-- The number of steps of `2 * g` after the first `m + 1` gaps. -/
theorem size_toNat (hn : n.toNat = 2 * g * q) (hg : 0 < g) (hm : 1 ≤ m) (hm2 : m ≤ 2) (hq : m ≤ q) :
    ((n - BitVec.ofNat 64 (m + 1) * BitVec.ofNat 64 g) /
      (BitVec.ofNat 64 2 * BitVec.ofNat 64 g) + 1).toNat = q - m + 1 := by
  have hlt := n.isLt
  obtain ⟨r, rfl⟩ : ∃ r, q = r + m := ⟨q - m, by omega⟩
  have hstep : 2 * g ≤ 2 * g * (r + m) := Nat.le_mul_of_pos_right _ (by omega)
  have hfirst : (m + 1) * g ≤ 2 * g * (r + m) := by
    calc (m + 1) * g ≤ (2 * (r + m)) * g := Nat.mul_le_mul_right g (by omega)
      _ = 2 * g * (r + m) := by ring
  have hone : (1 : BitVec 64).toNat = 1 := rfl
  have hquot := @sub_div_two_mul g r m (m + 1) hg (by omega) (by omega)
  have hr : r ≤ 2 * g * (r + m) / 2 := by
    rw [Nat.mul_assoc, Nat.mul_div_cancel_left _ (by omega)]
    exact (Nat.le_add_right r m).trans (Nat.le_mul_of_pos_left _ hg)
  rw [BitVec.toNat_add, BitVec.toNat_udiv, BitVec.toNat_sub_of_le
    (by rw [BitVec.le_def, mul_toNat (by omega), hn]; exact hfirst), mul_toNat (by omega),
    mul_toNat (by omega), hn, hquot, hone, Nat.mod_eq_of_lt (by omega), Nat.add_sub_cancel]

/-- One side of a level, from `m` gaps on. -/
theorem side_eq {c r : ℕ} (hq : 2 * g * (r + c) < 2 ^ 64) (hg : 0 < g) (hm : 1 ≤ m)
    (hle : m ≤ 2 * c) (hlt : 2 * c < m + 2) (pos : ℕ → ℕ) :
    View.subset ((List.range (2 * g * (r + c))).map pos)
        (BitVec.ofNat 64 m * BitVec.ofNat 64 g - 1) (BitVec.ofNat 64 g * 2) =
      some ((List.range (r + 1)).map fun i => pos (m * g - 1 + i * (2 * g))) := by
  have hfirst : m * g ≤ 2 * g * (r + c) := by
    calc m * g ≤ (2 * (r + c)) * g := Nat.mul_le_mul_right g (by omega)
      _ = 2 * g * (r + c) := by ring
  have hpos : 0 < m * g := Nat.mul_pos (by omega) hg
  have hstep : 2 * g ≤ 2 * g * (r + c) := Nat.le_mul_of_pos_right _ (by omega)
  have htwo : (BitVec.ofNat 64 g * 2).toNat = 2 * g := by
    have hlt2 : 2 * g < 2 ^ 64 := by omega
    rw [BitVec.mul_comm]
    exact mul_toNat hlt2
  rw [View.subset_eq (mul_sub_one_toNat hpos (by omega)) htwo (by omega) (by omega) hq]
  have hdist : 2 * g * (r + c) - 1 - (m * g - 1) = 2 * g * (r + c) - m * g := by omega
  rw [hdist, sub_div_two_mul hg hle hlt]

/-- The two sides of a level, from `m` and from `m + 1` gaps on, cut to one length. -/
theorem sides_eq {lo hi : BitVec 64} (hlo : lo = BitVec.ofNat 64 m) (hhi : hi = BitVec.ofNat 64 (m + 1))
    (hq : 2 * g * q < 2 ^ 64) (hg : 0 < g) (hm : 1 ≤ m) (hm2 : m ≤ 2) (hmq : m ≤ q)
    (pos : ℕ → ℕ) :
    (do
      let a ← View.subset ((List.range (2 * g * q)).map pos) (lo * BitVec.ofNat 64 g - 1)
        (BitVec.ofNat 64 g * 2)
      let b ← View.subset ((List.range (2 * g * q)).map pos) (hi * BitVec.ofNat 64 g - 1)
        (BitVec.ofNat 64 g * 2)
      let a ← a.resize b.length
      pure (a, b)) =
      some ((List.range (q - m + 1)).map fun i => pos ((m + 1) * g - 1 - g + i * (2 * g)),
        (List.range (q - m + 1)).map fun i => pos ((m + 1) * g - 1 + i * (2 * g))) := by
  subst hlo hhi
  obtain ⟨r, rfl⟩ : ∃ r, q = r + 1 := ⟨q - 1, by omega⟩
  obtain ⟨r', hr'⟩ : ∃ r', r + 1 = r' + m := ⟨r + 1 - m, by omega⟩
  have ha := @side_eq g m 1 r hq hg hm (by omega) (by omega) pos
  rw [hr'] at hq ha ⊢
  have hb := @side_eq g (m + 1) m r' hq hg (by omega) (by omega) (by omega) pos
  have hfirst : (m + 1) * g - 1 - g = m * g - 1 := by
    rw [Nat.add_mul, Nat.one_mul]
    omega
  rw [ha, hb]
  simp only [Option.bind_eq_bind, Option.bind_some, List.length_map, List.length_range]
  rw [View.resize_map_range _ (by omega : r' + 1 ≤ r' + m), Nat.add_sub_cancel, hfirst]
  rfl

theorem reduce_mem_iff {k i : ℕ} (hi : i < k) (hq : 1 ≤ q) (t : ℕ) :
    (∃ j, j < q - 1 + 1 ∧ (1 + 1) * 2 ^ i - 1 + j * (2 * 2 ^ i) = t) ↔
      t < 2 * 2 ^ i * q ∧ (brentKungLevel k i).target t = true := by
  have hpos := Nat.two_pow_pos i
  rw [(brentKungLevel_reduce hi t).2]
  generalize 2 ^ i = g at hpos ⊢
  constructor
  · rintro ⟨j, hj, rfl⟩
    have hmul : 2 * g * (j + 1) ≤ 2 * g * q := Nat.mul_le_mul_left _ (by omega)
    have hsum : (1 + 1) * g - 1 + j * (2 * g) + 1 = 2 * g * (j + 1) := by
      rw [Nat.mul_add, Nat.mul_comm (2 * g) j]
      omega
    exact ⟨by omega, ⟨j + 1, hsum⟩⟩
  · rintro ⟨ht, j, hj⟩
    have hjpos : 0 < j := by
      rcases Nat.eq_zero_or_pos j with rfl | hjpos
      · omega
      · exact hjpos
    obtain ⟨j, rfl⟩ : ∃ j', j = j' + 1 := ⟨j - 1, by omega⟩
    have hle : j + 1 ≤ q := Nat.le_of_mul_le_mul_left (by omega : 2 * g * (j + 1) ≤ 2 * g * q)
      (by omega)
    refine ⟨j, by omega, ?_⟩
    rw [Nat.mul_add, Nat.mul_comm (2 * g) j] at hj
    omega

theorem distribute_mem_iff {k i : ℕ} (hi : i + 2 ≤ k) (hq : 2 ≤ q) (t : ℕ) :
    (∃ j, j < q - 2 + 1 ∧ (2 + 1) * 2 ^ i - 1 + j * (2 * 2 ^ i) = t) ↔
      t < 2 * 2 ^ i * q ∧ (brentKungLevel k (2 * k - 2 - i)).target t = true := by
  have hpos := Nat.two_pow_pos i
  rw [(brentKungLevel_distribute hi t).2, ← mod_two_mul_eq_iff hpos]
  generalize 2 ^ i = g at hpos ⊢
  constructor
  · rintro ⟨j, hj, rfl⟩
    have hmul : 2 * g * (j + 2) ≤ 2 * g * q := Nat.mul_le_mul_left _ (by omega)
    have hsum : (2 + 1) * g - 1 + j * (2 * g) + 1 = g + 2 * g * (j + 1) := by
      rw [Nat.mul_add, Nat.mul_comm (2 * g) j]
      omega
    have hprod : 2 * g * (j + 2) = 2 * g * (j + 1) + 2 * g := by ring
    refine ⟨by omega, ?_, ?_⟩
    · rw [hsum, Nat.add_mul_mod_self_left, Nat.mod_eq_of_lt (by omega)]
    · have hle : 2 * g ≤ 2 * g * (j + 1) := Nat.le_mul_of_pos_right _ (Nat.succ_pos j)
      omega
  · rintro ⟨ht, hmod, hlarge⟩
    have hdiv := Nat.div_add_mod (t + 1) (2 * g)
    generalize (t + 1) / (2 * g) = j at hdiv
    rw [hmod] at hdiv
    have hjpos : 0 < j := by
      rcases Nat.eq_zero_or_pos j with rfl | hjpos
      · omega
      · exact hjpos
    obtain ⟨j, rfl⟩ : ∃ j', j = j' + 1 := ⟨j - 1, by omega⟩
    have hlt : j + 1 < q := Nat.lt_of_mul_lt_mul_left
      (by omega : 2 * g * (j + 1) < 2 * g * q)
    refine ⟨j, by omega, ?_⟩
    rw [Nat.mul_add, Nat.mul_comm (2 * g) j] at hdiv
    omega

theorem level_shows {n : BitVec 64} {k i : ℕ} (hn : n.toNat = 2 ^ k) (hk : k ≤ 30)
    (hi : i < 2 * k - 1) (pos : ℕ → ℕ) :
    ∃ s views T, levelSize n i = some s ∧
      _level n i ((List.range (2 ^ k)).map pos) = some views ∧ T.length = s.toNat ∧
      Shows (brentKungLevel k i) (2 ^ k) pos views T := by
  have hhalf : halfDepth n = k := bitWidth_pred hn
  have hlt := n.isLt
  by_cases hreduce : i < k
  · have hsize : 2 ^ k = 2 * 2 ^ i * 2 ^ (k - 1 - i) := by
      rw [two_mul_two_pow, ← Nat.pow_add]
      congr 1
      omega
    have hq : 1 ≤ 2 ^ (k - 1 - i) := Nat.one_le_two_pow
    have hg := Nat.two_pow_pos i
    rw [hsize] at hn ⊢
    rw [hn] at hlt
    have hshows := @Shows.of_arithmetic (brentKungLevel k i) _ _ _ _ pos
      (by omega : 0 < 2 * 2 ^ i) (reduce_mem_iff hreduce hq)
      (by rw [(brentKungLevel_reduce hreduce 0).1]; omega)
    rw [(brentKungLevel_reduce hreduce 0).1] at hshows
    have hin : (i : ℤ) < halfDepth n := by omega
    refine ⟨(n - 2 * BitVec.ofNat 64 (2 ^ i)) / (2 * BitVec.ofNat 64 (2 ^ i)) + 1, _, _, ?_, ?_,
      ?_, hshows⟩
    · unfold levelSize
      rw [if_pos hin, gapOf_eq (by omega)]
      rfl
    · unfold _level
      rw [if_pos hin, gapOf_eq (by omega)]
      exact sides_eq rfl rfl hlt hg (le_refl 1) (by omega) hq pos
    · rw [List.length_map, List.length_range]
      exact (size_toNat hn hg (le_refl 1) (by omega) hq).symm
  · obtain ⟨j, hj, hindex⟩ : ∃ j, j + 2 ≤ k ∧ i = 2 * k - 2 - j := ⟨2 * k - 2 - i, by omega, by omega⟩
    have hsize : 2 ^ k = 2 * 2 ^ j * 2 ^ (k - 1 - j) := by
      rw [two_mul_two_pow, ← Nat.pow_add]
      congr 1
      omega
    have hq : 2 ≤ 2 ^ (k - 1 - j) := by
      calc 2 = 2 ^ 1 := rfl
        _ ≤ 2 ^ (k - 1 - j) := Nat.pow_le_pow_right (by omega) (by omega)
    have hg := Nat.two_pow_pos j
    rw [hsize] at hn ⊢
    rw [hn] at hlt
    have hgap := (brentKungLevel_distribute hj 0).1
    rw [← hindex] at hgap
    have hshows := @Shows.of_arithmetic (brentKungLevel k i) _ _ _ _ pos
      (by omega : 0 < 2 * 2 ^ j) (hindex ▸ distribute_mem_iff hj hq) (by rw [hgap]; omega)
    rw [hgap] at hshows
    have hout : ¬ (i : ℤ) < halfDepth n := by omega
    have hmirror : 2 * halfDepth n - 2 - i = (j : ℤ) := by omega
    refine ⟨(n - 3 * BitVec.ofNat 64 (2 ^ j)) / (2 * BitVec.ofNat 64 (2 ^ j)) + 1, _, _, ?_, ?_,
      ?_, hshows⟩
    · unfold levelSize
      rw [if_neg hout, hmirror, gapOf_eq (by omega)]
      rfl
    · unfold _level
      rw [if_neg hout, hmirror, gapOf_eq (by omega)]
      exact sides_eq rfl rfl hlt hg (by omega) (le_refl 2) hq pos
    · rw [List.length_map, List.length_range]
      exact (size_toNat hn hg (by omega) (le_refl 2) hq).symm

end BrentKung

end CryptDough
