import CryptDough.MachineIntegers
import CryptDough.OptionLoop
import Mathlib.Data.List.GetD
import Mathlib.Data.List.Nodup
import Mathlib.Data.List.Range
import Mathlib.Data.Nat.Basic
import Mathlib.Logic.Function.Basic
import Mathlib.Tactic.Ring

/-! The vector of the engine: storage, an index mapping through which it is accessed, and the window of
the current batch. Sizes and indices are `size_t`s; counters of type `int` reach `2 ^ 31` of them. -/

namespace CryptDough

/-- How many entries an `int` can index before it becomes negative, and so larger than every size. -/
def intEntries : ℕ := 2 ^ 31

/-- How many steps an `int` takes that counts up to `n`. -/
def intSteps (n : ℕ) : ℕ := min n intEntries

theorem intSteps_eq {n : ℕ} (hn : n ≤ intEntries) : intSteps n = n := Nat.min_eq_left hn

theorem intSteps_of_ge {n : ℕ} (hn : intEntries ≤ n) : intSteps n = intEntries := Nat.min_eq_right hn

theorem intEntries_pos : 0 < intEntries := Nat.two_pow_pos 31

theorem intSteps_le_one_iff {n : ℕ} : intSteps n ≤ 1 ↔ n ≤ 1 := by
  rw [intSteps, min_le_iff, or_iff_left (by decide)]

theorem intSteps_mul_le_of_le {m n : ℕ} (hn : intEntries ≤ n) :
    intSteps m * intSteps n ≤ intEntries ↔ m ≤ 1 := by
  rw [intSteps_of_ge hn, mul_le_iff_le_one_left intEntries_pos, intSteps_le_one_iff]

/-- An index that advances in both of two nested loops only stays in range if one of the counters leaves
it in the single round of the other loop. -/
theorem intSteps_mul_le_iff {m n : ℕ} :
    intSteps m * intSteps n ≤ intEntries ↔ m * n ≤ intEntries ∨ m = 1 ∨ n = 1 := by
  rcases le_or_gt n intEntries with hn | hn
  · rcases le_or_gt m intEntries with hm | hm
    · rw [intSteps_eq hm, intSteps_eq hn]
      refine ⟨Or.inl, ?_⟩
      rintro (hle | rfl | rfl)
      · exact hle
      · rwa [Nat.one_mul]
      · rwa [Nat.mul_one]
    · rw [Nat.mul_comm, intSteps_mul_le_of_le hm.le, Nat.mul_comm]
      constructor
      · intro hle
        rcases Nat.le_one_iff_eq_zero_or_eq_one.mp hle with rfl | rfl
        · exact Or.inl (by rw [Nat.zero_mul]; exact Nat.zero_le _)
        · exact Or.inr (Or.inr rfl)
      · rintro (hle | rfl | rfl)
        · by_contra hmany
          exact absurd (hle.trans_lt hm) (not_lt.mpr (Nat.le_mul_of_pos_left m (by omega)))
        · exact absurd hm (by decide)
        · exact le_refl 1
  · rw [intSteps_mul_le_of_le hn.le]
    constructor
    · intro hle
      rcases Nat.le_one_iff_eq_zero_or_eq_one.mp hle with rfl | rfl
      · exact Or.inl (by rw [Nat.zero_mul]; exact Nat.zero_le _)
      · exact Or.inr (Or.inl rfl)
    · rintro (hle | rfl | rfl)
      · by_contra hmany
        exact absurd (hle.trans_lt hn) (not_lt.mpr (Nat.le_mul_of_pos_left n (by omega)))
      · exact le_refl 1
      · exact absurd hn (by decide)

structure MappedVector (T : Type) where
  data : List T
  mapping : Option (List ℕ)
  batchStart : ℕ
  batchEnd : ℕ

namespace MappedVector

variable {T : Type}

/-- The constructor from storage and a mapping. -/
def view (data : List T) (mapping : Option (List ℕ)) : MappedVector T where
  data := data
  mapping := mapping
  batchStart := 0
  batchEnd :=
    match mapping with
    | some m => m.length
    | none => data.length

section Class

variable (v : MappedVector T)

def hasMapping : Bool := v.mapping.isSome

def totalSize : ℕ :=
  match v.mapping with
  | some m => m.length
  | none => v.data.length

def size : ℕ := sizeSub v.batchEnd v.batchStart

/-- `mapping ? (*mapping)[j] : j` -/
def entry (j : ℕ) : Option ℕ :=
  match v.mapping with
  | some m => m[j]?
  | none => some j

/-- `operator[]` -/
def read (index : ℕ) : Option T := do
  let j ← v.entry (v.batchStart + index)
  v.data[j]?

/-- A write through `operator[]`. -/
def write (index : ℕ) (x : T) : Option (MappedVector T) := do
  let j ← v.entry (v.batchStart + index)
  if j < v.data.length then some { v with data := v.data.set j x } else none

/-- The deep copy of `operator=`, from a vector that shows `other`. -/
def assign (other : List T) : Option (MappedVector T) :=
  if v.size = other.length then
    (List.range v.size).foldlM (fun u i => do
      let x ← other[i]?
      u.write i x) v
  else none

def elements : Option (List T) := (List.range v.size).mapM v.read

/-- A copy without a mapping; a vector that has none is returned as it is. -/
def materialize : Option (MappedVector T) :=
  if v.hasMapping then v.elements.map fun xs => view xs none else some v

/-- The view whose mapping has these entries of the present one. -/
def remap (indices : List ℕ) : Option (MappedVector T) :=
  (indices.mapM v.entry).map fun m => view v.data (some m)

end Class

/-- The vector is in a state in which the constructor leaves it, and its mapping stays in the storage.
-/
structure Proper (v : MappedVector T) : Prop where
  batchStart : v.batchStart = 0
  batchEnd : v.batchEnd = v.totalSize
  bound : v.totalSize < 2 ^ 64
  inside : ∀ j < v.totalSize, ∃ p < v.data.length, v.entry j = some p

/-- `v'` shows the elements of `v` at the indices. -/
structure Picks (v : MappedVector T) (indices : List ℕ) (v' : MappedVector T) : Prop where
  data : v'.data = v.data
  totalSize : v'.totalSize = indices.length
  entry : ∀ i j : ℕ, indices[i]? = some j → v'.entry i = v.entry j

theorem totalSize_view (data : List T) (mapping : Option (List ℕ)) :
    (view data mapping).totalSize = (view data mapping).batchEnd := by
  cases mapping <;> rfl

theorem proper_view {data : List T} (hlen : data.length < 2 ^ 64) : (view data none).Proper :=
  ⟨rfl, rfl, hlen, fun j hj => ⟨j, hj, rfl⟩⟩

section Proper

variable {v v' : MappedVector T}

theorem Proper.size (hv : v.Proper) : v.size = v.totalSize := by
  rw [MappedVector.size, hv.batchStart, hv.batchEnd]
  exact sizeSub_of_le (Nat.zero_le _)

theorem Proper.read_eq (hv : v.Proper) (index : ℕ) :
    v.read index = (v.entry index).bind fun j => v.data[j]? := by
  rw [MappedVector.read, hv.batchStart, Nat.zero_add]
  rfl

theorem Proper.exists_read (hv : v.Proper) {index : ℕ} (hindex : index < v.totalSize) :
    ∃ x, v.read index = some x := by
  obtain ⟨p, hp, hentry⟩ := hv.inside index hindex
  refine ⟨v.data[p], ?_⟩
  rw [hv.read_eq, hentry]
  exact List.getElem?_eq_getElem hp

theorem lt_totalSize_of_entry {j p : ℕ} (hentry : v.entry j = some p) (hp : p < v.data.length) :
    j < v.totalSize := by
  unfold MappedVector.entry at hentry
  unfold MappedVector.totalSize
  cases hmap : v.mapping with
  | none =>
      obtain rfl : j = p := by
        rw [hmap] at hentry
        exact Option.some.inj hentry
      exact hp
  | some m =>
      rw [hmap] at hentry
      exact (List.getElem?_eq_some_iff.mp hentry).1

/-- A proper view shows elements of the vector only. -/
theorem Picks.lt (hv' : v'.Proper) {indices : List ℕ} (hpicks : Picks v indices v') {i j : ℕ}
    (hij : indices[i]? = some j) : j < v.totalSize := by
  have hi : i < v'.totalSize := by
    rw [hpicks.totalSize]
    exact (List.getElem?_eq_some_iff.mp hij).1
  obtain ⟨p, hp, hentry⟩ := hv'.inside i hi
  rw [hpicks.entry i j hij] at hentry
  rw [hpicks.data] at hp
  exact lt_totalSize_of_entry hentry hp

theorem Picks.read (hv : v.Proper) (hv' : v'.Proper) {indices : List ℕ} (hpicks : Picks v indices v')
    {i j : ℕ} (hij : indices[i]? = some j) : v'.read i = v.read j := by
  rw [hv.read_eq, hv'.read_eq, hpicks.entry i j hij, hpicks.data]

theorem remap_spec (hv : v.Proper) {indices : List ℕ} (hlen : indices.length < 2 ^ 64)
    (hinside : ∀ j ∈ indices, j < v.totalSize) :
    ∃ v', v.remap indices = some v' ∧ v'.Proper ∧ Picks v indices v' := by
  have hentry : ∀ j ∈ indices, ∃ p, v.entry j = some p := by
    intro j hj
    obtain ⟨p, -, heq⟩ := hv.inside j (hinside j hj)
    exact ⟨p, heq⟩
  obtain ⟨m, hm, hmlen, hget⟩ := exists_mapM hentry
  have hremap : v.remap indices = some (view v.data (some m)) := by
    rw [remap, hm]
    rfl
  have htotal : (view v.data (some m)).totalSize = indices.length := hmlen
  refine ⟨_, hremap, ⟨rfl, (totalSize_view _ _).symm, by omega, ?_⟩, rfl, htotal, hget⟩
  intro i hi
  have hlt : i < indices.length := by omega
  have hij : indices[i]? = some indices[i] := List.getElem?_eq_getElem hlt
  obtain ⟨p, hp, heq⟩ := hv.inside _ (hinside _ (List.mem_of_getElem? hij))
  exact ⟨p, hp, (hget i _ hij).trans heq⟩

theorem Proper.elements_eq (hv : v.Proper) :
    ∃ xs, v.elements = some xs ∧ xs.length = v.totalSize ∧ ∀ i < v.totalSize, xs[i]? = v.read i := by
  have hread : ∀ i ∈ List.range v.size, ∃ x, v.read i = some x := by
    intro i hi
    apply hv.exists_read
    rw [← hv.size]
    exact List.mem_range.mp hi
  obtain ⟨xs, hxs, hlen, hget⟩ := exists_mapM hread
  refine ⟨xs, hxs, ?_, fun i hi => hget i i ?_⟩
  · rw [hlen, List.length_range, hv.size]
  · rw [hv.size]
    exact List.getElem?_range hi

theorem Proper.materialize (hv : v.Proper) :
    ∃ u, v.materialize = some u ∧ u.Proper ∧ u.mapping = none ∧ u.totalSize = v.totalSize ∧
      ∀ i < v.totalSize, u.read i = v.read i := by
  by_cases hmap : v.hasMapping = true
  · obtain ⟨xs, hxs, hlen, hget⟩ := hv.elements_eq
    have hbound := hv.bound
    have htotal : (view xs none).totalSize = v.totalSize := hlen
    have hproper : (view xs none).Proper :=
      ⟨rfl, rfl, by omega, fun j hj => ⟨j, hj, rfl⟩⟩
    refine ⟨view xs none, ?_, hproper, rfl, htotal, ?_⟩
    · rw [MappedVector.materialize, if_pos hmap, hxs]
      rfl
    · intro i hi
      rw [hproper.read_eq]
      exact hget i hi
  · refine ⟨v, if_neg hmap, hv, ?_, rfl, fun i _ => rfl⟩
    exact Option.not_isSome_iff_eq_none.mp hmap

/-- The first `k` positions of the view hold the elements of `other`, the rest of the storage is as it
was. -/
structure Assigned (v : MappedVector T) (other : List T) (k : ℕ) (u : MappedVector T) : Prop where
  mapping : u.mapping = v.mapping
  batchStart : u.batchStart = v.batchStart
  batchEnd : u.batchEnd = v.batchEnd
  length : u.data.length = v.data.length
  changed : ∀ i < k, ∀ p, v.entry i = some p → u.data[p]? = other[i]?
  kept : ∀ p, (∀ i < k, v.entry i ≠ some p) → u.data[p]? = v.data[p]?

theorem Assigned.entry {other : List T} {k : ℕ} {u : MappedVector T} (hu : Assigned v other k u) (j : ℕ) :
    u.entry j = v.entry j := by
  rw [MappedVector.entry, hu.mapping]
  rfl

/-- No position occurs twice. -/
def Distinct (v : MappedVector T) : Prop :=
  ∀ i < v.totalSize, ∀ j < v.totalSize, v.entry i = v.entry j → i = j

theorem Assigned.step (hv : v.Proper) (hdistinct : v.Distinct) {other : List T} {k : ℕ}
    {u : MappedVector T} (hu : Assigned v other k u) (hk : k < v.totalSize) (hother : k < other.length) :
    ∃ u', (do let x ← other[k]?; u.write k x) = some u' ∧ Assigned v other (k + 1) u' := by
  obtain ⟨p, hp, hentry⟩ := hv.inside k hk
  have hread : other[k]? = some other[k] := List.getElem?_eq_getElem hother
  have hwrite : u.write k other[k] = some { u with data := u.data.set p other[k] } := by
    have hp' : p < u.data.length := by
      rw [hu.length]
      exact hp
    rw [write, hu.batchStart, hv.batchStart, Nat.zero_add, hu.entry, hentry]
    exact if_pos hp'
  have hnew : ∀ i < k, v.entry i ≠ some p := by
    intro i hi heq
    have hik := hdistinct i (by omega) k hk (heq.trans hentry.symm)
    omega
  have hbody : (do let x ← other[k]?; u.write k x) = some { u with data := u.data.set p other[k] } := by
    rw [hread]
    exact hwrite
  refine ⟨_, hbody, hu.mapping, hu.batchStart, hu.batchEnd, ?_, ?_, ?_⟩
  · rw [List.length_set, hu.length]
  · intro i hi q hq
    rcases Nat.lt_succ_iff_lt_or_eq.mp hi with hlt | rfl
    · have hne : p ≠ q := fun heq => hnew i hlt (heq ▸ hq)
      rw [List.getElem?_set_ne hne]
      exact hu.changed i hlt q hq
    · obtain rfl : p = q := Option.some.inj (hentry.symm.trans hq)
      rw [List.getElem?_set_self (by rw [hu.length]; exact hp), hread]
  · intro q hq
    have hne : p ≠ q := fun heq => hq k (Nat.lt_succ_self k) (heq ▸ hentry)
    rw [List.getElem?_set_ne hne]
    exact hu.kept q fun i hi => hq i (Nat.lt_succ_of_lt hi)

/-- An assignment to a view without repeated positions. -/
theorem assign_spec (hv : v.Proper) (hdistinct : v.Distinct) {other : List T}
    (hlen : other.length = v.totalSize) : ∃ u, v.assign other = some u ∧ Assigned v other v.totalSize u := by
  have hsize : v.size = other.length := by rw [hv.size, hlen]
  have hinit : Assigned v other 0 v :=
    ⟨rfl, rfl, rfl, rfl, fun i hi => absurd hi (Nat.not_lt_zero i), fun _ _ => rfl⟩
  rw [assign, if_pos hsize, hv.size]
  exact OptionLoop.invariant hinit fun k hk u hu => hu.step hv hdistinct hk (by omega)

/-- `u` is `v` after its elements have been replaced by those of `f`. -/
structure Rewritten (v : MappedVector T) (f : ℕ → T) (u : MappedVector T) : Prop where
  mapping : u.mapping = v.mapping
  batchStart : u.batchStart = v.batchStart
  batchEnd : u.batchEnd = v.batchEnd
  length : u.data.length = v.data.length
  changed : ∀ i < v.totalSize, ∀ p, v.entry i = some p → u.data[p]? = some (f i)
  kept : ∀ p, (∀ i < v.totalSize, v.entry i ≠ some p) → u.data[p]? = v.data[p]?

theorem Rewritten.eq {f : ℕ → T} {u u' : MappedVector T} (hu : Rewritten v f u) (hu' : Rewritten v f u') :
    u = u' := by
  have hdata : u.data = u'.data := by
    refine List.ext_getElem? fun p => ?_
    by_cases hshown : ∃ i < v.totalSize, v.entry i = some p
    · obtain ⟨i, hi, hentry⟩ := hshown
      rw [hu.changed i hi p hentry, hu'.changed i hi p hentry]
    · have hnot : ∀ i < v.totalSize, v.entry i ≠ some p := fun i hi heq => hshown ⟨i, hi, heq⟩
      rw [hu.kept p hnot, hu'.kept p hnot]
  have hmapping := hu.mapping.trans hu'.mapping.symm
  have hstart := hu.batchStart.trans hu'.batchStart.symm
  have hend := hu.batchEnd.trans hu'.batchEnd.symm
  cases u
  cases u'
  simp only at hdata hmapping hstart hend
  rw [hdata, hmapping, hstart, hend]

theorem Rewritten.totalSize {f : ℕ → T} {u : MappedVector T} (hu : Rewritten v f u) :
    u.totalSize = v.totalSize := by
  rw [MappedVector.totalSize, MappedVector.totalSize, hu.mapping]
  cases v.mapping with
  | none => exact hu.length
  | some m => rfl

theorem Rewritten.entry {f : ℕ → T} {u : MappedVector T} (hu : Rewritten v f u) (j : ℕ) :
    u.entry j = v.entry j := by
  rw [MappedVector.entry, hu.mapping]
  rfl

theorem Rewritten.proper {f : ℕ → T} {u : MappedVector T} (hv : v.Proper) (hu : Rewritten v f u) :
    u.Proper := by
  refine ⟨hu.batchStart.trans hv.batchStart, ?_, ?_, fun j hj => ?_⟩
  · rw [hu.batchEnd, hu.totalSize, hv.batchEnd]
  · rw [hu.totalSize]
    exact hv.bound
  · rw [hu.totalSize] at hj
    rw [hu.entry, hu.length]
    exact hv.inside j hj

theorem Rewritten.read {f : ℕ → T} {u : MappedVector T} (hv : v.Proper) (hu : Rewritten v f u) {i : ℕ}
    (hi : i < v.totalSize) : u.read i = some (f i) := by
  obtain ⟨p, -, hentry⟩ := hv.inside i hi
  rw [(hu.proper hv).read_eq, hu.entry, hentry]
  exact hu.changed i hi p hentry

/-- A vector is its own elements. -/
theorem rewritten_self (hv : v.Proper) {f : ℕ → T} (hread : ∀ i < v.totalSize, v.read i = some (f i)) :
    Rewritten v f v := by
  refine ⟨rfl, rfl, rfl, rfl, fun i hi p hentry => ?_, fun _ _ => rfl⟩
  have hget := hread i hi
  rw [hv.read_eq, hentry] at hget
  exact hget

theorem Rewritten.congr {f g : ℕ → T} {u : MappedVector T} (hu : Rewritten v f u)
    (heq : ∀ i < v.totalSize, f i = g i) : Rewritten v g u :=
  ⟨hu.mapping, hu.batchStart, hu.batchEnd, hu.length,
    fun i hi p hp => (hu.changed i hi p hp).trans (congrArg some (heq i hi)), hu.kept⟩

theorem Rewritten.trans {f g : ℕ → T} {u u' : MappedVector T} (hu : Rewritten v f u)
    (hu' : Rewritten u g u') : Rewritten v g u' := by
  refine ⟨hu'.mapping.trans hu.mapping, hu'.batchStart.trans hu.batchStart,
    hu'.batchEnd.trans hu.batchEnd, hu'.length.trans hu.length, fun i hi p hentry => ?_,
    fun p hnot => ?_⟩
  · exact hu'.changed i (by rw [hu.totalSize]; exact hi) p (by rw [hu.entry]; exact hentry)
  · have hnot' : ∀ i < u.totalSize, u.entry i ≠ some p := by
      intro i hi
      rw [hu.totalSize] at hi
      rw [hu.entry]
      exact hnot i hi
    exact (hu'.kept p hnot').trans (hu.kept p hnot)

theorem Rewritten.distinct {f : ℕ → T} {u : MappedVector T} (hdistinct : v.Distinct)
    (hu : Rewritten v f u) : u.Distinct := by
  intro i hi j hj heq
  rw [hu.totalSize] at hi hj
  rw [hu.entry, hu.entry] at heq
  exact hdistinct i hi j hj heq

theorem Rewritten.write (hv : v.Proper) (hdistinct : v.Distinct) {f : ℕ → T} {u : MappedVector T}
    (hu : Rewritten v f u) {k : ℕ} (hk : k < v.totalSize) (x : T) :
    ∃ u', u.write k x = some u' ∧ Rewritten v (Function.update f k x) u' := by
  obtain ⟨p, hp, hentry⟩ := hv.inside k hk
  have hp' : p < u.data.length := by
    rw [hu.length]
    exact hp
  have hwrite : u.write k x = some { u with data := u.data.set p x } := by
    rw [MappedVector.write, hu.batchStart, hv.batchStart, Nat.zero_add, hu.entry, hentry]
    exact if_pos hp'
  refine ⟨_, hwrite, hu.mapping, hu.batchStart, hu.batchEnd, List.length_set.trans hu.length,
    fun i hi q hq => ?_, fun q hnot => ?_⟩
  · by_cases hik : i = k
    · subst hik
      obtain rfl : p = q := Option.some.inj (hentry.symm.trans hq)
      rw [Function.update_self]
      exact List.getElem?_set_self hp'
    · have hpq : p ≠ q := fun heq => hik (hdistinct i hi k hk (hq.trans (heq ▸ hentry.symm)))
      rw [Function.update_of_ne hik]
      exact (List.getElem?_set_ne hpq).trans (hu.changed i hi q hq)
  · have hpq : p ≠ q := fun heq => hnot k hk (heq ▸ hentry)
    exact (List.getElem?_set_ne hpq).trans (hu.kept q hnot)

/-- Writing to a view rewrites the vector below it, where the view shows it. -/
theorem Picks.rewritten (hv : v.Proper) (hdistinct : v.Distinct) {indices : List ℕ}
    (hv' : v'.Proper) (hpicks : Picks v indices v') (hnodup : indices.Nodup) {other : List T}
    (hlen : other.length = indices.length) {f g : ℕ → T}
    (hread : ∀ i < v.totalSize, v.read i = some (f i))
    (hother : ∀ i j : ℕ, indices[i]? = some j → other[i]? = some (g j))
    (hsame : ∀ j < v.totalSize, j ∉ indices → g j = f j) :
    ∃ u, v'.assign other = some u ∧ Rewritten v g { v with data := u.data } := by
  have hlt : ∀ i j : ℕ, indices[i]? = some j → j < v.totalSize := fun i j hij => hpicks.lt hv' hij
  have hget : ∀ i (hi : i < v'.totalSize), indices[i]? = some (indices.get ⟨i, hpicks.totalSize ▸ hi⟩) :=
    fun i hi => List.getElem?_eq_getElem (hpicks.totalSize ▸ hi)
  have hdistinct' : v'.Distinct := by
    intro i hi j hj heq
    rw [hpicks.entry i _ (hget i hi), hpicks.entry j _ (hget j hj)] at heq
    have hsame := hdistinct _ (hlt i _ (hget i hi)) _ (hlt j _ (hget j hj)) heq
    exact (List.Nodup.getElem_inj_iff hnodup).mp hsame
  obtain ⟨u, hassign, hu⟩ := assign_spec hv' hdistinct' (hlen.trans hpicks.totalSize.symm)
  refine ⟨u, hassign, rfl, rfl, rfl, hu.length.trans (congrArg List.length hpicks.data),
    fun j hj p hentry => ?_, fun p hnot => ?_⟩
  · by_cases hmem : j ∈ indices
    · obtain ⟨i, hi, rfl⟩ := List.getElem_of_mem hmem
      have hij : indices[i]? = some indices[i] := List.getElem?_eq_getElem hi
      rw [← hother i _ hij]
      apply hu.changed i (by rw [hpicks.totalSize]; exact hi) p
      rw [hpicks.entry i _ hij]
      exact hentry
    · have hkept : u.data[p]? = v'.data[p]? := by
        refine hu.kept p fun i hi heq => hmem ?_
        rw [hpicks.entry i _ (hget i hi)] at heq
        have hji := hdistinct j hj _ (hlt i _ (hget i hi)) (hentry.trans heq.symm)
        rw [hji]
        exact List.getElem_mem _
      have hold := hread j hj
      rw [hv.read_eq, hentry] at hold
      change u.data[p]? = some (g j)
      rw [hkept, hpicks.data, hsame j hj hmem]
      exact hold
  · have hkept : u.data[p]? = v'.data[p]? := by
      refine hu.kept p fun i hi heq => ?_
      rw [hpicks.entry i _ (hget i hi)] at heq
      exact hnot _ (hlt i _ (hget i hi)) heq
    exact hkept.trans (congrArg (·[p]?) hpicks.data)

end Proper

end MappedVector

end CryptDough
