import CryptDough.AccessPatterns
import CryptDough.PrefixNetwork
import Mathlib.Algebra.BigOperators.Intervals
import Mathlib.Data.BitVec

/-! The prefix sum over a tree: for each power of two below the size, the largest one first, the vector
without its beginning takes in the vector without its end. -/

namespace CryptDough

open SegmentedScan

namespace MappedVector

variable {T : Type}

/-- `b + a`, a new vector. -/
def plus [Add T] (b a : MappedVector T) : Option (List T) :=
  (List.range b.size).mapM fun i => do
    let x ← b.read i
    let y ← a.read i
    pure (x + y)

/-- One round. The slices share the storage of `y`. -/
def treeRound [Add T] (size : BitVec 64) (i : ℕ) (y : MappedVector T) : Option (MappedVector T) := do
  let power ← gapOf i
  let d : BitVec 32 := (size / power).setWidth 32
  let dRest : BitVec 32 := (size - d.signExtend 64).setWidth 32
  let a ← y.slice 0 (dRest.signExtend 64).toNat
  let b ← y.sliceFrom (d.signExtend 64).toNat
  let sum ← b.plus a
  let b ← b.assign sum
  pure { y with data := b.data }

/-- The vector is passed by value, which copies the pointers only. -/
def treePrefixSum [Add T] (v : MappedVector T) (reverse : Bool) : Option (MappedVector T) := do
  let size := BitVec.ofNat 64 v.size
  let accepted ← PrefixNetwork.isPowerOfTwo size
  guard (accepted = true)
  let y ← (if reverse = true then v.directed (-1) else some v : Option (MappedVector T))
  let logSize := bitWidth size - 1
  let y ← (List.range logSize.toNat).foldlM (fun y i => treeRound size (i + 1) y) y
  pure { v with data := y.data }

/-- One element of `std::inclusive_scan`, which keeps the sum so far. -/
def scanElement [Add T] (s : Option T × MappedVector T) (i : ℕ) : Option (Option T × MappedVector T) := do
  let x ← s.2.read i
  let sum := match s.1 with
    | some init => init + x
    | none => x
  let u ← s.2.write i sum
  pure (some sum, u)

/-- `std::inclusive_scan` in place. -/
def prefixSum [Add T] (v : MappedVector T) : Option (MappedVector T) := do
  let s ← (List.range v.totalSize).foldlM scanElement (none, v)
  pure s.2

section Rounds

variable {v y : MappedVector T}

/-- The vector backwards, rewritten, is the vector rewritten backwards. -/
theorem Rewritten.backwards
    (hpicks : Picks v ((List.range v.totalSize).map fun i => v.totalSize - 1 - i) y) {f : ℕ → T}
    {u : MappedVector T} (hu : Rewritten y f u) :
    Rewritten v (fun i => f (v.totalSize - 1 - i)) { v with data := u.data } := by
  have htotal : y.totalSize = v.totalSize := by
    rw [hpicks.totalSize, List.length_map, List.length_range]
  have hentry : ∀ i < v.totalSize, y.entry (v.totalSize - 1 - i) = v.entry i := by
    intro i hi
    apply hpicks.entry (v.totalSize - 1 - i) i
    rw [List.getElem?_map, List.getElem?_range (by omega), Option.map_some]
    congr 1
    omega
  refine ⟨rfl, rfl, rfl, hu.length.trans (congrArg List.length hpicks.data), fun i hi p hp => ?_,
    fun p hnot => ?_⟩
  · exact hu.changed _ (by omega) p ((hentry i hi).trans hp)
  · have hkept : u.data[p]? = y.data[p]? := by
      refine hu.kept p fun i hi heq => hnot (v.totalSize - 1 - i) (by omega) ?_
      have hback := hentry (v.totalSize - 1 - i) (by omega)
      rw [← hback, show v.totalSize - 1 - (v.totalSize - 1 - i) = i by omega]
      exact heq
    exact hkept.trans (congrArg (·[p]?) hpicks.data)

variable [AddCommMonoid T]

theorem plus_spec {a b : MappedVector T} (hb : b.Proper) {f g : ℕ → T}
    (hreada : ∀ i < b.totalSize, a.read i = some (f i)) (hreadb : ∀ i < b.totalSize, b.read i = some (g i)) :
    b.plus a = some ((List.range b.totalSize).map fun i => g i + f i) := by
  rw [plus, hb.size]
  refine mapM_some fun i hi => ?_
  have hi := List.mem_range.mp hi
  rw [hreada i hi, hreadb i hi]
  rfl

/-- All positions are one segment. -/
theorem segments_whole (good : ℕ → Prop) (hdown : ∀ t, good t → ∀ u ≤ t, good u) :
    Segments (fun _ _ => true) good fun _ => 0 :=
  ⟨fun _ _ => Nat.zero_le _, fun _ _ u _ => iff_of_true rfl (Nat.zero_le u),
    fun t ht u _ hle => ⟨hdown t ht u hle, rfl⟩⟩

theorem foldRange_add (x : ℕ → T) (len : ℕ) :
    foldRange (· + ·) x 0 len = ∑ j ∈ Finset.range (len + 1), x j := by
  induction len with
  | zero => simp [foldRange]
  | succ len ih => rw [foldRange, ih, Finset.sum_range_succ _ (len + 1), Nat.zero_add]

theorem int_of_size {x : BitVec 64} (hx : x.toNat < 2 ^ 31) :
    ((x.setWidth 32).signExtend 64).toNat = x.toNat := by
  have hwidth : (x.setWidth 32).toNat = x.toNat := by
    rw [BitVec.toNat_setWidth, Nat.mod_eq_of_lt (by omega)]
  have hmsb : (x.setWidth 32).msb = false := by
    rw [BitVec.msb_eq_false_iff_two_mul_lt, hwidth]
    omega
  rw [BitVec.signExtend_eq_setWidth_of_msb_false hmsb, BitVec.toNat_setWidth, hwidth,
    Nat.mod_eq_of_lt (by omega)]

/-- Whatever is at least the stride from the beginning takes in what is the stride before it. -/
theorem treeRound_spec (hy : y.Proper) (hdistinct : y.Distinct) {k i : ℕ} (hk : k ≤ 30)
    (hi : i < k) (htotal : y.totalSize = 2 ^ k) {f : ℕ → T}
    (hread : ∀ t < y.totalSize, y.read t = some (f t)) :
    ∃ u, treeRound (BitVec.ofNat 64 (2 ^ k)) (i + 1) y = some u ∧
      Rewritten y (scanStep (· + ·) (fun _ _ => true) (strideLevel (2 ^ (k - 1 - i))) f) u := by
  set d := 2 ^ (k - 1 - i) with hd
  have hkpow : 2 ^ k ≤ 2 ^ 30 := Nat.pow_le_pow_right (by omega) hk
  have hsplit : 2 ^ k = d * 2 ^ (i + 1) := by
    rw [hd, ← Nat.pow_add]
    congr 1
    omega
  have hdpos : 0 < d := Nat.two_pow_pos _
  have hdlt : d < 2 ^ k := Nat.pow_lt_pow_right (by omega) (by omega)
  have hsize : (BitVec.ofNat 64 (2 ^ k)).toNat = 2 ^ k := by
    rw [BitVec.toNat_ofNat, Nat.mod_eq_of_lt (by omega)]
  have hpower : (BitVec.ofNat 64 (2 ^ (i + 1))).toNat = 2 ^ (i + 1) := by
    rw [BitVec.toNat_ofNat, Nat.mod_eq_of_lt]
    exact Nat.pow_lt_pow_right (by omega) (by omega)
  have hquot : (BitVec.ofNat 64 (2 ^ k) / BitVec.ofNat 64 (2 ^ (i + 1))).toNat = d := by
    rw [BitVec.toNat_udiv, hsize, hpower, hsplit, Nat.mul_div_cancel _ (Nat.two_pow_pos _)]
  have hdval : (((BitVec.ofNat 64 (2 ^ k) / BitVec.ofNat 64 (2 ^ (i + 1))).setWidth 32).signExtend
      64).toNat = d := (int_of_size (by rw [hquot]; omega)).trans hquot
  have hrest : (BitVec.ofNat 64 (2 ^ k) - ((BitVec.ofNat 64 (2 ^ k) /
      BitVec.ofNat 64 (2 ^ (i + 1))).setWidth 32).signExtend 64).toNat = 2 ^ k - d := by
    rw [BitVec.toNat_sub_of_le, hsize, hdval]
    rw [BitVec.le_def, hsize, hdval]
    exact hdlt.le
  have hrestval : (((BitVec.ofNat 64 (2 ^ k) - ((BitVec.ofNat 64 (2 ^ k) /
      BitVec.ofNat 64 (2 ^ (i + 1))).setWidth 32).signExtend 64).setWidth 32).signExtend 64).toNat =
      2 ^ k - d := (int_of_size (by rw [hrest]; omega)).trans hrest
  obtain ⟨a, hslicea, ha, hpicksa⟩ := slice_spec hy (Nat.zero_le (2 ^ k - d)) (by omega)
  obtain ⟨b, hsliceb, hb, hpicksb⟩ := slice_spec hy hdlt.le htotal.ge
  have hindexa : ∀ t < 2 ^ k - d, ((List.range (2 ^ k - d - 0)).map (0 + ·))[t]? = some t := by
    intro t ht
    rw [List.getElem?_map, List.getElem?_range (by omega)]
    exact congrArg some (Nat.zero_add t)
  have hindexb : ∀ t < 2 ^ k - d, ((List.range (2 ^ k - d)).map (d + ·))[t]? = some (d + t) := by
    intro t ht
    rw [List.getElem?_map, List.getElem?_range ht]
    rfl
  have hbtotal : b.totalSize = 2 ^ k - d := by
    rw [hpicksb.totalSize, List.length_map, List.length_range]
  have hsum : b.plus a = some ((List.range b.totalSize).map fun t => f (d + t) + f t) := by
    refine plus_spec hb (fun t ht => ?_) fun t ht => ?_
    · rw [hbtotal] at ht
      rw [hpicksa.read hy ha (hindexa t ht)]
      exact hread t (by omega)
    · rw [hbtotal] at ht
      rw [hpicksb.read hy hb (hindexb t ht)]
      exact hread (d + t) (by omega)
  have hnodup : ((List.range (2 ^ k - d)).map (d + ·)).Nodup :=
    List.nodup_range.map (add_right_injective d)
  have hother : ∀ t j : ℕ, ((List.range (2 ^ k - d)).map (d + ·))[t]? = some j →
      ((List.range b.totalSize).map fun t => f (d + t) + f t)[t]? =
        some (scanStep (· + ·) (fun _ _ => true) (strideLevel d) f j) := by
    intro t j htj
    have ht : t < 2 ^ k - d := by simpa using (List.getElem?_eq_some_iff.mp htj).1
    rw [hindexb t ht] at htj
    obtain rfl := Option.some.inj htj
    rw [List.getElem?_map, List.getElem?_range (by omega), Option.map_some,
      scanStep_of_near (segments_whole (fun _ => True) fun _ _ _ _ => trivial) trivial (by omega),
      Nat.add_sub_cancel_left, add_comm]
  have hsame : ∀ j < y.totalSize, j ∉ (List.range (2 ^ k - d)).map (d + ·) →
      scanStep (· + ·) (fun _ _ => true) (strideLevel d) f j = f j := by
    intro j hj hnot
    have hfar : j < 0 + d := by
      by_contra hge
      exact hnot (List.mem_map.mpr ⟨j - d, List.mem_range.mpr (by omega), by omega⟩)
    exact scanStep_of_far (segments_whole (fun _ => True) fun _ _ _ _ => trivial) trivial hfar f
  obtain ⟨u, hassign, hu⟩ := hpicksb.rewritten hy hdistinct hb hnodup (by simp [hbtotal]) hread hother
    hsame
  refine ⟨_, ?_, hu⟩
  rw [treeRound, gapOf_eq (by omega)]
  simp only [Option.bind_eq_bind, Option.bind_some, hdval, hrestval, hslicea, sliceFrom, hy.size,
    htotal, hsliceb, hsum, hassign]
  rfl

/-- All rounds together. -/
theorem treeRounds_spec (hy : y.Proper) (hdistinct : y.Distinct) {k : ℕ} (hk : k ≤ 30)
    (htotal : y.totalSize = 2 ^ k) {f : ℕ → T} (hread : ∀ t < y.totalSize, y.read t = some (f t)) :
    ∃ u, (List.range k).foldlM (fun y i => treeRound (BitVec.ofNat 64 (2 ^ k)) (i + 1) y) y = some u ∧
      Rewritten y (fun t => ∑ j ∈ Finset.range (t + 1), f j) u := by
  have hrounds := OptionLoop.invariant (n := k)
    (f := fun y i => treeRound (BitVec.ofNat 64 (2 ^ k)) (i + 1) y)
    (P := fun i u => Rewritten y (scan (· + ·) (fun _ _ => true) (descendingTo k i) f) u)
    (rewritten_self hy hread) fun i hi u hu => by
      obtain ⟨u', hround, hu'⟩ := treeRound_spec (hu.proper hy) (hu.distinct hdistinct) hk hi
        (hu.totalSize.trans htotal) fun t ht => hu.read hy (hu.totalSize ▸ ht)
      refine ⟨u', hround, ?_⟩
      rw [scan_descendingTo_succ]
      exact hu.trans hu'
  obtain ⟨u, hrun, hu⟩ := hrounds
  refine ⟨u, hrun, hu.mapping, hu.batchStart, hu.batchEnd, hu.length, fun t ht p hentry => ?_, hu.kept⟩
  have hscan : scan (· + ·) (fun _ _ => true) (descendingTo k k) f t =
      foldRange (· + ·) f 0 (t - 0) :=
    scan_descending (segments_whole (fun t => True ∧ t < 2 ^ k) fun t ht u hle => ⟨trivial, by omega⟩) f
      trivial (htotal ▸ ht)
  rw [hu.changed t ht p hentry, hscan, Nat.sub_zero, foldRange_add]

/-- The sequential sum. -/
theorem prefixSum_spec (hv : v.Proper) (hdistinct : v.Distinct) {f : ℕ → T}
    (hread : ∀ t < v.totalSize, v.read t = some (f t)) :
    ∃ u, v.prefixSum = some u ∧ Rewritten v (fun t => ∑ j ∈ Finset.range (t + 1), f j) u := by
  have hloop := OptionLoop.invariant (n := v.totalSize) (s := (none, v)) (f := scanElement)
    (P := fun k s => s.1 = (if k = 0 then none else some (∑ j ∈ Finset.range k, f j)) ∧
      Rewritten v (fun t => if t < k then ∑ j ∈ Finset.range (t + 1), f j else f t) s.2)
    ⟨rfl, by simpa using rewritten_self hv hread⟩ ?_
  · obtain ⟨⟨sum, u⟩, hrun, -, hu⟩ := hloop
    refine ⟨u, ?_, hu.mapping, hu.batchStart, hu.batchEnd, hu.length, fun t ht p hentry => ?_, hu.kept⟩
    · rw [prefixSum, hrun]
      rfl
    · rw [hu.changed t ht p hentry, if_pos ht]
  rintro k hk ⟨sum, u⟩ ⟨hinit, hu⟩
  obtain rfl : sum = if k = 0 then none else some (∑ j ∈ Finset.range k, f j) := hinit
  have hreadk : u.read k = some (f k) := by
    rw [hu.read hv (by omega), if_neg (Nat.lt_irrefl k)]
  obtain ⟨u', hwrite, hu'⟩ := hu.write hv hdistinct hk (∑ j ∈ Finset.range (k + 1), f j)
  have hsum : (match (if k = 0 then none else some (∑ j ∈ Finset.range k, f j) : Option T) with
      | some init => init + f k
      | none => f k) = ∑ j ∈ Finset.range (k + 1), f j := by
    rw [Finset.sum_range_succ]
    split_ifs with hzero
    · subst hzero
      simp
    · rfl
  refine ⟨(some (∑ j ∈ Finset.range (k + 1), f j), u'), ?_, (if_neg (Nat.succ_ne_zero k)).symm,
    hu'.mapping, hu'.batchStart, hu'.batchEnd, hu'.length, fun t ht p hentry => ?_, hu'.kept⟩
  · simp only [scanElement, hreadk, Option.bind_eq_bind, Option.bind_some, hsum, hwrite]
    rfl
  · rw [hu'.changed t ht p hentry]
    rcases Nat.lt_trichotomy t k with hlt | rfl | hgt
    · rw [Function.update_of_ne hlt.ne, if_pos hlt, if_pos (by omega)]
    · rw [Function.update_self, if_pos (Nat.lt_succ_self t)]
    · rw [Function.update_of_ne hgt.ne', if_neg (by omega), if_neg (by omega)]

theorem isPowerOfTwo_pow {k : ℕ} (hk : k ≤ 30) :
    PrefixNetwork.isPowerOfTwo (BitVec.ofNat 64 (2 ^ k)) = some true := by
  have hpow : 2 ^ k < 2 ^ 64 := Nat.pow_lt_pow_right (by omega) (by omega)
  refine (isPowerOfTwo_eq_true_iff _).mpr ⟨k, hk, ?_⟩
  rw [BitVec.toNat_ofNat, Nat.mod_eq_of_lt hpow]

theorem bitWidth_pow {k : ℕ} (hk : k < 64) : bitWidth (BitVec.ofNat 64 (2 ^ k)) = k + 1 := by
  have hpow : 2 ^ k < 2 ^ 64 := Nat.pow_lt_pow_right (by omega) hk
  rw [bitWidth, BitVec.toNat_ofNat, Nat.mod_eq_of_lt hpow, Nat.size_pow]
  push_cast
  rfl

theorem treePrefixSum_eq (hv : v.Proper) {k : ℕ} (hk : k ≤ 30) (htotal : v.totalSize = 2 ^ k)
    {reverse : Bool} (hy : (if reverse = true then v.directed (-1) else some v) = some y)
    {u : MappedVector T}
    (hrounds : (List.range k).foldlM (fun y i => treeRound (BitVec.ofNat 64 (2 ^ k)) (i + 1) y) y =
      some u) : v.treePrefixSum reverse = some { v with data := u.data } := by
  have hlog : (bitWidth (BitVec.ofNat 64 (2 ^ k)) - 1).toNat = k := by
    rw [bitWidth_pow (by omega)]
    omega
  rw [treePrefixSum, hv.size, htotal, isPowerOfTwo_pow hk]
  simp only [hlog, Option.bind_eq_bind, Option.bind_some, guard, if_true, hy, hrounds]
  rfl

theorem sum_backwards (f : ℕ → T) {i n : ℕ} (hi : i < n) :
    ∑ j ∈ Finset.range (n - 1 - i + 1), f (n - 1 - j) = ∑ j ∈ Finset.Ico i n, f j := by
  have hlen : n - 1 - i + 1 = n - i := by omega
  rw [hlen, Finset.sum_Ico_eq_sum_range, ← Finset.sum_range_reflect]
  refine Finset.sum_congr rfl fun j hj => ?_
  have hj := Finset.mem_range.mp hj
  congr 1
  omega

/-- What the elements are to become. -/
def partialSums (f : ℕ → T) (n : ℕ) (reverse : Bool) (i : ℕ) : T :=
  if reverse = true then ∑ j ∈ Finset.Ico i n, f j else ∑ j ∈ Finset.range (i + 1), f j

theorem treePrefixSum_spec (hv : v.Proper) (hdistinct : v.Distinct) {k : ℕ} (hk : k ≤ 30)
    (htotal : v.totalSize = 2 ^ k) {f : ℕ → T} (hread : ∀ t < v.totalSize, v.read t = some (f t))
    (reverse : Bool) :
    ∃ u, v.treePrefixSum reverse = some u ∧ Rewritten v (partialSums f v.totalSize reverse) u := by
  cases reverse with
  | false =>
      obtain ⟨u, hrun, hu⟩ := treeRounds_spec hv hdistinct hk htotal hread
      exact ⟨_, treePrefixSum_eq hv hk htotal rfl hrun,
        rfl, rfl, rfl, hu.length, hu.changed, hu.kept⟩
  | true =>
      obtain ⟨y, hdirected, hy, hpicks⟩ := directed_spec hv (-1)
      simp only [if_true] at hpicks
      have hytotal : y.totalSize = v.totalSize := by
        rw [hpicks.totalSize, List.length_map, List.length_range]
      have hindex : ∀ t < v.totalSize,
          ((List.range v.totalSize).map fun i => v.totalSize - 1 - i)[t]? = some (v.totalSize - 1 - t) := by
        intro t ht
        rw [List.getElem?_map, List.getElem?_range ht]
        rfl
      have hydistinct : y.Distinct := by
        intro i hi j hj heq
        rw [hytotal] at hi hj
        rw [hpicks.entry i _ (hindex i hi), hpicks.entry j _ (hindex j hj)] at heq
        have hsame := hdistinct _ (by omega) _ (by omega) heq
        omega
      have hready : ∀ t < y.totalSize, y.read t = some (f (v.totalSize - 1 - t)) := by
        intro t ht
        rw [hytotal] at ht
        rw [hpicks.read hv hy (hindex t ht)]
        exact hread _ (by omega)
      obtain ⟨u, hrun, hu⟩ := treeRounds_spec hy hydistinct hk (hytotal.trans htotal) hready
      refine ⟨_, treePrefixSum_eq hv hk htotal ((if_pos rfl).trans hdirected) hrun, ?_⟩
      exact (hu.backwards hpicks).congr fun i hi => sum_backwards f hi

end Rounds

section Size

variable [AddCommMonoid T]

/-- Both sums are computed in place, and the tree computes in `v` what the sequential sum does. -/
structure SumsUp (v : MappedVector T) (f : ℕ → T) (reverse : Bool) : Prop where
  tree : ∃ u, v.treePrefixSum reverse = some u ∧ Rewritten v (partialSums f v.totalSize reverse) u
  sequential : reverse = false → v.treePrefixSum reverse = v.prefixSum

theorem sumsUp {v : MappedVector T} (hv : v.Proper) (hdistinct : v.Distinct) {k : ℕ} (hk : k ≤ 30)
    (htotal : v.totalSize = 2 ^ k) {f : ℕ → T} (hread : ∀ t < v.totalSize, v.read t = some (f t))
    (reverse : Bool) : SumsUp v f reverse := by
  obtain ⟨u, hrun, hu⟩ := treePrefixSum_spec hv hdistinct hk htotal hread reverse
  refine ⟨⟨u, hrun, hu⟩, fun hforward => ?_⟩
  subst hforward
  obtain ⟨u', hrun', hu'⟩ := prefixSum_spec hv hdistinct hread
  rw [hrun, hrun', hu.eq hu']

/-- Larger powers of two are not taken for powers of two. -/
theorem treePrefixSum_of_large {v : MappedVector T} (hv : v.Proper) {k : ℕ} (hk : 30 < k)
    (htotal : v.totalSize = 2 ^ k) (reverse : Bool) : v.treePrefixSum reverse = none := by
  have hbound := hv.bound
  have hrefused : ¬ PrefixNetwork.isPowerOfTwo (BitVec.ofNat 64 (2 ^ k)) = some true :=
    isPowerOfTwo_ne_true (by rw [BitVec.toNat_ofNat, Nat.mod_eq_of_lt (by omega)]) hk
  rw [treePrefixSum, hv.size, htotal]
  cases haccepted : PrefixNetwork.isPowerOfTwo (BitVec.ofNat 64 (2 ^ k)) with
  | none => rfl
  | some accepted =>
      have hfalse : accepted = false := by
        rw [haccepted] at hrefused
        simpa using hrefused
      subst hfalse
      rfl

end Size

section Repeats

/-- The same positions hold a one, all others a zero. -/
def indicator {w : ℕ} (v : MappedVector T) (i t : ℕ) : BitVec w := if v.entry t = v.entry i then 1 else 0

theorem totalSize_of_length {v : MappedVector T} {data : List T} (hlen : data.length = v.data.length) :
    MappedVector.totalSize { v with data := data } = v.totalSize := by
  rw [MappedVector.totalSize, MappedVector.totalSize]
  cases v.mapping with
  | none => exact hlen
  | some m => rfl

/-- A one at `p`, zeros elsewhere. -/
def oneAt (w n p : ℕ) : List (BitVec w) := (List.range n).map fun q => if q = p then 1 else 0

theorem length_oneAt (w n p : ℕ) : (oneAt w n p).length = n := by
  rw [oneAt, List.length_map, List.length_range]

theorem oneAt_read {w : ℕ} {v : MappedVector (BitVec w)} (hv : v.Proper) {i p : ℕ}
    (hentry : v.entry i = some p) {t : ℕ} (ht : t < v.totalSize) :
    MappedVector.read { v with data := oneAt w v.data.length p } t = some (v.indicator i t) := by
  obtain ⟨q, hq, heq⟩ := hv.inside t ht
  have hread : MappedVector.read { v with data := oneAt w v.data.length p } t =
      (v.entry (v.batchStart + t)).bind fun q => (oneAt w v.data.length p)[q]? := rfl
  rw [hread, hv.batchStart, Nat.zero_add, heq, Option.bind_some, oneAt, List.getElem?_map,
    List.getElem?_range hq, indicator, heq, hentry]
  simp only [Option.map_some, Option.some.injEq]

/-- Between two positions that are the same, one of them is counted once. -/
theorem partialSums_indicator_ne {w : ℕ} (hw : 0 < w) {v : MappedVector T} {i j n : ℕ} (hij : i < j)
    (hj : j < n) (hsame : v.entry j = v.entry i) (hfirst : ∀ t, i < t → t < j → v.entry t ≠ v.entry i)
    (reverse : Bool) :
    (partialSums (v.indicator i) n reverse i : BitVec w) ≠ partialSums (v.indicator i) n reverse j := by
  have hone : (1 : BitVec w) ≠ 0 := by
    intro hzero
    have hval := congrArg BitVec.toNat hzero
    rw [BitVec.ofNat_eq_ofNat, BitVec.toNat_one hw] at hval
    cases hval
  have hbetween : ∑ t ∈ Finset.Ico (i + 1) j, (v.indicator i t : BitVec w) = 0 := by
    refine Finset.sum_eq_zero fun t ht => if_neg (hfirst t ?_ ?_)
    · have hlow := (Finset.mem_Ico.mp ht).1
      omega
    · exact (Finset.mem_Ico.mp ht).2
  intro heq
  cases reverse with
  | false =>
      have hsplit : ∑ t ∈ Finset.range (j + 1), (v.indicator i t : BitVec w) =
          ∑ t ∈ Finset.range (i + 1), v.indicator i t + 1 := by
        calc ∑ t ∈ Finset.range (j + 1), (v.indicator i t : BitVec w)
            = ∑ t ∈ Finset.range j, v.indicator i t + v.indicator i j := Finset.sum_range_succ _ _
          _ = ∑ t ∈ Finset.range (i + 1), v.indicator i t +
                ∑ t ∈ Finset.Ico (i + 1) j, v.indicator i t + v.indicator i j := by
              rw [Finset.sum_range_add_sum_Ico _ (by omega)]
          _ = ∑ t ∈ Finset.range (i + 1), v.indicator i t + 1 := by
              rw [hbetween, add_zero, indicator, if_pos hsame]
      have hsums : ∑ t ∈ Finset.range (i + 1), (v.indicator i t : BitVec w) =
          ∑ t ∈ Finset.range (j + 1), v.indicator i t := heq
      rw [hsplit] at hsums
      exact hone (left_eq_add.mp hsums)
  | true =>
      have hsplit : ∑ t ∈ Finset.Ico i n, (v.indicator i t : BitVec w) =
          1 + ∑ t ∈ Finset.Ico j n, v.indicator i t := by
        rw [← Finset.sum_Ico_consecutive _ hij.le hj.le, Finset.sum_eq_sum_Ico_succ_bot hij, hbetween,
          add_zero, indicator, if_pos rfl]
      have hsums : ∑ t ∈ Finset.Ico i n, (v.indicator i t : BitVec w) =
          ∑ t ∈ Finset.Ico j n, v.indicator i t := heq
      rw [hsplit] at hsums
      exact hone (add_eq_right.mp hsums)

/-- Whatever the storage of the vector contains. -/
def SumsUpAlways {w : ℕ} (v : MappedVector (BitVec w)) (reverse : Bool) : Prop :=
  ∀ data : List (BitVec w), data.length = v.data.length → ∀ f : ℕ → BitVec w,
    (∀ t < v.totalSize, MappedVector.read { v with data := data } t = some (f t)) →
      SumsUp { v with data := data } f reverse

/-- A vector that shows a position twice cannot hold the sums of all contents. -/
theorem distinct_of_sumsUpAlways {w : ℕ} (hw : 0 < w) {v : MappedVector (BitVec w)} (hv : v.Proper)
    {reverse : Bool} (hsums : SumsUpAlways v reverse) : v.Distinct := by
  have hordered : ∀ i j : ℕ, i < j → j < v.totalSize → v.entry j ≠ v.entry i := by
    intro i j
    induction j using Nat.strong_induction_on with
    | _ j ih =>
        intro hij hj hsame
        have hfirst : ∀ t, i < t → t < j → v.entry t ≠ v.entry i := fun t hlow hhigh =>
          ih t hhigh hlow (by omega)
        obtain ⟨p, hp, hentry⟩ := hv.inside i (by omega)
        have hlen := length_oneAt w v.data.length p
        obtain ⟨u, -, hu⟩ := (hsums _ hlen (v.indicator i) fun t ht => oneAt_read hv hentry ht).tree
        have htotal := totalSize_of_length hlen
        have hi := hu.changed i (by omega) p hentry
        have hj' := hu.changed j (by omega) p (hsame.trans hentry)
        rw [htotal] at hi hj'
        exact partialSums_indicator_ne hw hij hj hsame hfirst reverse
          (Option.some.inj (hi.symm.trans hj'))
  intro i hi j hj heq
  rcases Nat.lt_trichotomy i j with hlt | rfl | hgt
  · exact absurd heq.symm (hordered i j hlt hj)
  · rfl
  · exact absurd heq (hordered j i hgt hi)

theorem sumsUpAlways_iff {w : ℕ} (hw : 0 < w) {v : MappedVector (BitVec w)} (hv : v.Proper) {k : ℕ}
    (htotal : v.totalSize = 2 ^ k) (reverse : Bool) :
    SumsUpAlways v reverse ↔ k ≤ 30 ∧ v.Distinct := by
  constructor
  · intro hsums
    refine ⟨?_, distinct_of_sumsUpAlways hw hv hsums⟩
    by_contra hlarge
    obtain ⟨xs, -, hlen, hget⟩ := hv.elements_eq
    have hread : ∀ t < v.totalSize, v.read t = some (xs.getD t 0) := by
      intro t ht
      rw [← hget t ht, List.getD_eq_getElem?_getD, List.getElem?_eq_getElem (by omega)]
      rfl
    obtain ⟨u, hrun, -⟩ := (hsums v.data rfl (xs.getD · 0) hread).tree
    rw [treePrefixSum_of_large hv (by omega) htotal reverse] at hrun
    cases hrun
  · rintro ⟨hk, hdistinct⟩ data hlen f hread
    have htotal' := totalSize_of_length hlen
    have hv' : MappedVector.Proper { v with data := data } := by
      refine ⟨hv.batchStart, hv.batchEnd.trans htotal'.symm, ?_, fun j hj => ?_⟩
      · rw [htotal']
        exact hv.bound
      · rw [htotal'] at hj
        rw [hlen]
        exact hv.inside j hj
    refine sumsUp hv' (fun i hi j hj => ?_) hk (htotal'.trans htotal) (fun t ht => ?_) reverse
    · rw [htotal'] at hi hj
      exact hdistinct i hi j hj
    · rw [htotal'] at ht
      exact hread t ht

/-- The tree sums up a vector of its own positions exactly if an `int` can hold the size, and of the
views it sums up, whatever they contain, those that show no position twice. -/
theorem tree_prefix_sum_iff {w : ℕ} (hw : 0 < w) {v : MappedVector (BitVec w)} (hv : v.Proper) {k : ℕ}
    (htotal : v.totalSize = 2 ^ k) {f : ℕ → BitVec w} (hread : ∀ t < v.totalSize, v.read t = some (f t))
    (reverse : Bool) :
    (v.Distinct → (SumsUp v f reverse ↔ k ≤ 30)) ∧
      (SumsUpAlways v reverse ↔ k ≤ 30 ∧ v.Distinct) := by
  refine ⟨fun hdistinct => ⟨fun hsums => ?_, fun hk => ?_⟩, sumsUpAlways_iff hw hv htotal reverse⟩
  · by_contra hlarge
    obtain ⟨u, hrun, -⟩ := hsums.tree
    rw [treePrefixSum_of_large hv (by omega) htotal reverse] at hrun
    cases hrun
  · exact sumsUp hv hdistinct hk htotal hread reverse

theorem tree_prefix_sum_iff_view :
    (Distinct (view [1#8, 255#8, 3#8, 4#8] none) →
      (SumsUp (view [1#8, 255#8, 3#8, 4#8] none) ([1#8, 255#8, 3#8, 4#8].getD · 0) true ↔ 2 ≤ 30)) ∧
    (SumsUpAlways (view [1#8, 255#8, 3#8, 4#8] none) true ↔
      2 ≤ 30 ∧ Distinct (view [1#8, 255#8, 3#8, 4#8] none)) :=
  tree_prefix_sum_iff (by decide) (proper_view (by decide)) rfl (by decide) true

/-- Two to the power of 31 zeros. -/
theorem tree_prefix_sum_fails :
    ¬ SumsUp (view (List.replicate (2 ^ 31) (0 : BitVec 8)) none) (fun _ => 0) false := by
  intro hsums
  obtain ⟨u, hrun, -⟩ := hsums.tree
  have hproper : (view (List.replicate (2 ^ 31) (0 : BitVec 8)) none).Proper :=
    proper_view (by rw [List.length_replicate]; omega)
  have htotal : (view (List.replicate (2 ^ 31) (0 : BitVec 8)) none).totalSize = 2 ^ 31 :=
    List.length_replicate
  rw [treePrefixSum_of_large hproper (by omega) htotal false] at hrun
  cases hrun

end Repeats

end MappedVector

end CryptDough
