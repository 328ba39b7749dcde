import CryptDough.MappedVector
import Mathlib.Data.BitVec

/-! The operations that change how a vector is represented. They keep its batch window inside of it, as
long as windows begin inside and a new mapping is as long as the window that is kept for it. -/

namespace CryptDough

namespace MappedVector

variable {T : Type}

section Operations

variable (v : MappedVector T)

def resetBatch : MappedVector T := { v with batchStart := 0, batchEnd := v.totalSize }

/-- Only the end is compared with the size: a `size_t` is never negative. -/
def setBatch (start stop : ℕ) : MappedVector T :=
  { v with
    batchStart := start
    batchEnd := if stop ≤ v.totalSize then stop else v.totalSize }

def mappingReference (map : List ℕ) : Option (MappedVector T) :=
  if v.hasMapping then none else some (view v.data (some map))

/-- The batch is left as it is. -/
def applyMapping (newMapping : List ℕ) : Option (MappedVector T) :=
  if newMapping.length ≤ v.size then
    match v.mapping with
    | none => some { v with mapping := some newMapping }
    | some m => do
        -- the loop ends when its `int` counter becomes negative
        let composed ← (newMapping.take intEntries).mapM fun j => m[j]?
        some { v with
          mapping := some (composed ++ List.replicate (newMapping.length - intEntries) 0) }
  else none

/-- New entries of a mapping point to new storage. -/
def resize [Zero T] (n : ℕ) : MappedVector T :=
  match v.mapping with
  | some m =>
      let added := n - m.length
      resetBatch { v with
        data := v.data ++ List.replicate added 0
        mapping := some (m.take n ++ (List.range added).map (v.data.length + ·)) }
  | none => resetBatch { v with data := v.data.take n ++ List.replicate (n - v.data.length) 0 }

def tail (n : ℕ) : Option (MappedVector T) :=
  if n ≤ v.totalSize then
    match v.mapping with
    | some m => some (resetBatch { v with mapping := some (m.drop (v.totalSize - n)) })
    | none => some (resetBatch { v with data := v.data.drop (v.totalSize - n) })
  else none

/-- `other` are the elements of the vector that is appended. -/
def concatenate [Zero T] (other : List T) : Option (MappedVector T) :=
  (List.range other.length).foldlM (fun u i => do
    let x ← other[i]?
    u.write (v.totalSize + i) x) (v.resize (v.totalSize + other.length))

def materializeInplace : Option (MappedVector T) :=
  if v.hasMapping then v.elements.map fun xs => view xs none else some v

end Operations

/-- The window lies in the vector, and every index of the window addresses an element. -/
structure Sound (v : MappedVector T) : Prop where
  start_le : v.batchStart ≤ v.batchEnd
  end_le : v.batchEnd ≤ v.totalSize
  addressed : ∀ i < v.size, ∃ x, v.read i = some x

/-- What is kept: also outside of the window every entry of the mapping lies in the storage. -/
structure WellFormed (v : MappedVector T) : Prop where
  start_le : v.batchStart ≤ v.batchEnd
  end_le : v.batchEnd ≤ v.totalSize
  inside : ∀ j < v.totalSize, ∃ p < v.data.length, v.entry j = some p

section WellFormed

variable {v : MappedVector T}

theorem WellFormed.size (hv : v.WellFormed) : v.size = v.batchEnd - v.batchStart := sizeSub_of_le hv.start_le

theorem WellFormed.sound (hv : v.WellFormed) : v.Sound := by
  refine ⟨hv.start_le, hv.end_le, fun i hi => ?_⟩
  have hle := hv.end_le
  rw [hv.size] at hi
  obtain ⟨p, hp, hentry⟩ := hv.inside (v.batchStart + i) (by omega)
  refine ⟨v.data[p], ?_⟩
  rw [read, hentry]
  exact List.getElem?_eq_getElem hp

/-- A state whose window is all of the vector. -/
theorem wellFormed_resetBatch (hinside : ∀ j < v.totalSize, ∃ p < v.data.length, v.entry j = some p) :
    v.resetBatch.WellFormed := ⟨Nat.zero_le _, le_refl _, hinside⟩

theorem wellFormed_view {data : List T} {mapping : Option (List ℕ)}
    (hinside : ∀ m, mapping = some m → ∀ p ∈ m, p < data.length) : (view data mapping).WellFormed := by
  refine ⟨Nat.zero_le _, (totalSize_view data mapping).ge, fun j hj => ?_⟩
  cases mapping with
  | none => exact ⟨j, hj, rfl⟩
  | some m => exact ⟨m[j], hinside m rfl _ (List.getElem_mem hj), List.getElem?_eq_getElem hj⟩

theorem WellFormed.setBatch (hv : v.WellFormed) {start stop : ℕ} (hle : start ≤ stop)
    (hstart : start ≤ v.totalSize) : (v.setBatch start stop).WellFormed := by
  have hend : (v.setBatch start stop).batchEnd = if stop ≤ v.totalSize then stop else v.totalSize := rfl
  refine ⟨?_, ?_, hv.inside⟩
  · rw [hend]
    split
    · exact hle
    · exact hstart
  · rw [hend]
    split
    · assumption
    · exact le_refl _

/-- The entries of a shorter or longer mapping, and of the storage behind it. -/
theorem WellFormed.resize [Zero T] (hv : v.WellFormed) (n : ℕ) :
    (v.resize n).WellFormed ∧ (v.resize n).totalSize = n := by
  obtain ⟨data, mapping, start, stop⟩ := v
  cases mapping with
  | none =>
      have htotal : (data.take n ++ List.replicate (n - data.length) (0 : T)).length = n := by
        rw [List.length_append, List.length_take, List.length_replicate]
        omega
      exact ⟨wellFormed_resetBatch fun j hj => ⟨j, hj, rfl⟩, htotal⟩
  | some m =>
      have htotal : (m.take n ++ (List.range (n - m.length)).map (data.length + ·)).length = n := by
        rw [List.length_append, List.length_take, List.length_map, List.length_range]
        omega
      refine ⟨wellFormed_resetBatch fun j hj => ?_, htotal⟩
      have hj : j < n := lt_of_lt_of_eq hj htotal
      change ∃ p < (data ++ List.replicate (n - m.length) (0 : T)).length,
        (m.take n ++ (List.range (n - m.length)).map (data.length + ·))[j]? = some p
      rw [List.length_append, List.length_replicate]
      by_cases hold : j < m.length
      · obtain ⟨p, hp, hentry⟩ := hv.inside j hold
        have hp : p < data.length := hp
        refine ⟨p, by omega, ?_⟩
        rw [List.getElem?_append_left (by rw [List.length_take]; omega), List.getElem?_take_of_lt hj]
        exact hentry
      · refine ⟨data.length + (j - m.length), by omega, ?_⟩
        have htake : (m.take n).length = m.length := by
          rw [List.length_take]
          omega
        rw [List.getElem?_append_right (by omega), htake, List.getElem?_map,
          List.getElem?_range (by omega)]
        rfl

theorem WellFormed.tail (hv : v.WellFormed) {n : ℕ} (hn : n ≤ v.totalSize) :
    ∃ v', v.tail n = some v' ∧ v'.WellFormed := by
  rw [MappedVector.tail, if_pos hn]
  obtain ⟨data, mapping, start, stop⟩ := v
  cases mapping with
  | none => exact ⟨_, rfl, wellFormed_resetBatch fun j hj => ⟨j, hj, rfl⟩⟩
  | some m =>
      refine ⟨_, rfl, wellFormed_resetBatch fun j hj => ?_⟩
      have hn : n ≤ m.length := hn
      have hj : j < (m.drop (m.length - n)).length := hj
      rw [List.length_drop] at hj
      obtain ⟨p, hp, hentry⟩ := hv.inside (m.length - n + j) (by change _ < m.length; omega)
      refine ⟨p, hp, ?_⟩
      change (m.drop (m.length - n))[j]? = some p
      rw [List.getElem?_drop]
      exact hentry

theorem WellFormed.write (hv : v.WellFormed) {index : ℕ} (hindex : v.batchStart + index < v.totalSize)
    (x : T) : ∃ v', v.write index x = some v' ∧ v'.WellFormed ∧ v'.totalSize = v.totalSize ∧
      v'.batchStart = v.batchStart := by
  obtain ⟨p, hp, hentry⟩ := hv.inside _ hindex
  have hwrite : v.write index x = some { v with data := v.data.set p x } := by
    rw [MappedVector.write, hentry]
    exact if_pos hp
  have htotal : { v with data := v.data.set p x }.totalSize = v.totalSize := by
    unfold totalSize
    cases v.mapping with
    | none => exact List.length_set
    | some m => rfl
  refine ⟨_, hwrite, ⟨hv.start_le, hv.end_le.trans_eq htotal.symm, fun j hj => ?_⟩, htotal, rfl⟩
  obtain ⟨q, hq, heq⟩ := hv.inside j (lt_of_lt_of_eq hj htotal)
  exact ⟨q, hq.trans_eq List.length_set.symm, heq⟩

theorem WellFormed.concatenate [Zero T] (hv : v.WellFormed) (other : List T) :
    ∃ v', v.concatenate other = some v' ∧ v'.WellFormed := by
  obtain ⟨hresized, htotal⟩ := hv.resize (v.totalSize + other.length)
  have hstart : (v.resize (v.totalSize + other.length)).batchStart = 0 := by
    unfold MappedVector.resize
    cases v.mapping <;> rfl
  have hloop := OptionLoop.invariant (n := other.length) (s := v.resize (v.totalSize + other.length))
    (f := fun u i => do
      let x ← other[i]?
      MappedVector.write u (v.totalSize + i) x)
    (P := fun _ u => u.WellFormed ∧ u.totalSize = v.totalSize + other.length ∧ u.batchStart = 0)
    ⟨hresized, htotal, hstart⟩ ?_
  · obtain ⟨u, hrun, hu, -⟩ := hloop
    exact ⟨u, hrun, hu⟩
  rintro k hk u ⟨hu, hutotal, hustart⟩
  have hinside : u.batchStart + (v.totalSize + k) < u.totalSize := by omega
  obtain ⟨u', hwrite, hu', hutotal', hustart'⟩ := hu.write hinside other[k]
  refine ⟨u', ?_, hu', hutotal'.trans hutotal, hustart'.trans hustart⟩
  rw [List.getElem?_eq_getElem hk]
  exact hwrite

theorem WellFormed.materializeInplace (hv : v.WellFormed) :
    ∃ v', v.materializeInplace = some v' ∧ v'.WellFormed := by
  rw [MappedVector.materializeInplace]
  split
  · have hread : ∀ i ∈ List.range v.size, ∃ x, v.read i = some x := fun i hi =>
      hv.sound.addressed i (List.mem_range.mp hi)
    obtain ⟨xs, hxs, -⟩ := exists_mapM hread
    refine ⟨view xs none, ?_, wellFormed_view fun m hm => by cases hm⟩
    rw [elements, hxs]
    rfl
  · exact ⟨v, rfl, hv⟩

/-- A mapping of the window's size, from the beginning of the vector on, composes with the one there
is. -/
theorem WellFormed.applyMapping (hv : v.WellFormed) {map : List ℕ} (hstart : v.batchStart = 0)
    (hlen : map.length = v.size) (hinside : ∀ j ∈ map, j < v.totalSize)
    (hcount : v.hasMapping = true → map.length ≤ intEntries) :
    ∃ v', v.applyMapping map = some v' ∧ v'.WellFormed ∧ v'.totalSize = map.length ∧
      v'.size = map.length ∧ v'.batchStart = 0 ∧
      ∀ i j, map[i]? = some j → v'.read i = v.read j := by
  have hend : v.batchEnd = map.length := by
    rw [hlen, hv.size]
    omega
  have hentries : ∀ j ∈ map, ∃ p, v.entry j = some p := by
    intro j hj
    obtain ⟨p, -, heq⟩ := hv.inside j (hinside j hj)
    exact ⟨p, heq⟩
  obtain ⟨m', hm', hmlen, hget⟩ := exists_mapM hentries
  have happly : v.applyMapping map = some { v with mapping := some m' } := by
    rw [MappedVector.applyMapping, if_pos hlen.le]
    cases hmap : v.mapping with
    | none =>
        have hsame : m' = map := by
          have hpure : map.mapM v.entry = some map := by
            have hentry : v.entry = fun j => some (id j) := by
              ext j
              rw [entry, hmap]
              rfl
            rw [hentry]
            exact (mapM_some fun _ _ => rfl).trans (congrArg some (List.map_id map))
          exact Option.some.inj (hm'.symm.trans hpure)
        rw [hsame]
    | some m =>
        have hmap' : v.hasMapping = true := by
          rw [hasMapping, hmap]
          rfl
        have hall := hcount hmap'
        have hentry : v.entry = fun j => m[j]? := by
          ext j
          rw [entry, hmap]
        rw [hentry] at hm'
        simp only [List.take_of_length_le hall, hm', Nat.sub_eq_zero_of_le hall, List.replicate_zero,
          List.append_nil, Option.bind_eq_bind, Option.bind_some]
  have htotal : { v with mapping := some m' }.totalSize = map.length := hmlen
  have hread : ∀ i j, map[i]? = some j → { v with mapping := some m' }.read i = v.read j := by
    intro i j hij
    rw [read, read, hstart, Nat.zero_add, Nat.zero_add, ← hget i j hij]
    rfl
  refine ⟨_, happly, ⟨hv.start_le, (hend.trans htotal.symm).le, fun j hj => ?_⟩, htotal, ?_, hstart, hread⟩
  · have hj : j < map.length := lt_of_lt_of_eq hj htotal
    have hij : map[j]? = some map[j] := List.getElem?_eq_getElem hj
    obtain ⟨p, hp, heq⟩ := hv.inside _ (hinside _ (List.getElem_mem hj))
    exact ⟨p, hp, (hget j _ hij).trans heq⟩
  · exact hlen.symm

end WellFormed

inductive Operation (T : Type)
  | mappingReference (map : List ℕ)
  | applyMapping (newMapping : List ℕ)
  | resize (n : ℕ)
  | tail (n : ℕ)
  | concatenate (other : List T)
  | materializeInplace
  | setBatch (start stop : ℕ)
  | resetBatch

namespace Operation

variable {v : MappedVector T}

def apply [Zero T] (v : MappedVector T) : Operation T → Option (MappedVector T)
  | mappingReference map => v.mappingReference map
  | applyMapping newMapping => v.applyMapping newMapping
  | resize n => some (v.resize n)
  | tail n => v.tail n
  | concatenate other => v.concatenate other
  | materializeInplace => v.materializeInplace
  | setBatch start stop => some (v.setBatch start stop)
  | resetBatch => some v.resetBatch

/-- What the callers promise: new mappings are in range and do not expand the vector, and the end of a
batch is not before its start. -/
def InRange (v : MappedVector T) : Operation T → Prop
  | mappingReference map => v.hasMapping = false ∧ ∀ j ∈ map, j < v.totalSize
  | applyMapping newMapping => newMapping.length ≤ v.size ∧ ∀ j ∈ newMapping, j < v.totalSize
  | tail n => n ≤ v.totalSize
  | setBatch start stop => start ≤ stop
  | _ => True

/-- The window that is left fits the vector. -/
def KeepsWindow (v : MappedVector T) : Operation T → Prop
  | applyMapping newMapping => v.batchStart = 0 ∧ newMapping.length = v.size ∧
      (v.hasMapping = true → newMapping.length ≤ intEntries)
  | setBatch start _ => start ≤ v.totalSize
  | _ => True

theorem apply_wellFormed [Zero T] (hv : v.WellFormed) {op : Operation T} (hrange : op.InRange v)
    (hkeeps : op.KeepsWindow v) : ∃ v', op.apply v = some v' ∧ v'.WellFormed := by
  cases op with
  | mappingReference map =>
      obtain ⟨hnone, hinside⟩ := hrange
      refine ⟨view v.data (some map), ?_, wellFormed_view fun m hm => ?_⟩
      · rw [apply, MappedVector.mappingReference, hnone]
        exact if_neg Bool.false_ne_true
      · obtain rfl := Option.some.inj hm
        intro p hp
        obtain ⟨q, hq, hentry⟩ := hv.inside p (hinside p hp)
        have hmap : v.mapping = none := Option.not_isSome_iff_eq_none.mp (by
          rw [hasMapping] at hnone
          rw [hnone]
          exact Bool.false_ne_true)
        rw [entry, hmap] at hentry
        obtain rfl : p = q := Option.some.inj hentry
        exact hq
  | applyMapping newMapping =>
      obtain ⟨hstart, hlen, hcount⟩ := hkeeps
      obtain ⟨v', happly, hv', -⟩ := hv.applyMapping hstart hlen hrange.2 hcount
      exact ⟨v', happly, hv'⟩
  | resize n => exact ⟨_, rfl, (hv.resize n).1⟩
  | tail n => exact hv.tail hrange
  | concatenate other => exact hv.concatenate other
  | materializeInplace => exact hv.materializeInplace
  | setBatch start stop => exact ⟨_, rfl, hv.setBatch hrange hkeeps⟩
  | resetBatch => exact ⟨_, rfl, wellFormed_resetBatch hv.inside⟩

end Operation

section Runs

variable [Zero T]

def applyOperations (v : MappedVector T) (ops : List (Operation T)) : Option (MappedVector T) :=
  ops.foldlM (fun v op => op.apply v) v

/-- Every operation of the run meets the condition in the state it is applied to. -/
def Along (good : MappedVector T → Operation T → Prop) : MappedVector T → List (Operation T) → Prop
  | _, [] => True
  | v, op :: ops => good v op ∧ ∀ v', op.apply v = some v' → Along good v' ops

/-- The position in the vector below: `m1[...mk[i]]`. -/
def composedIndex : List (List ℕ) → ℕ → Option ℕ
  | [], i => some i
  | m :: maps, i => (composedIndex maps i).bind fun j => m[j]?

/-- After mappings have been applied to `x`, the vector has the size of the last one and shows the
elements of `x` at the composed positions. -/
def ShowsComposed (x : MappedVector T) (maps : List (List ℕ)) (v : MappedVector T) : Prop :=
  (∀ m, maps.getLast? = some m → v.size = m.length) ∧
    ∀ i < v.size, ∃ j, composedIndex maps i = some j ∧ v.read i = x.read j

/-- Every state of the run is sound, and so is every series of mappings in it. -/
def RunSound (v : MappedVector T) (ops : List (Operation T)) : Prop :=
  ∀ before rest, ops = before ++ rest → ∃ v', applyOperations v before = some v' ∧ v'.Sound ∧
    ∀ front maps, maps ≠ [] → before = front ++ maps.map Operation.applyMapping →
      ∃ x, applyOperations v front = some x ∧ ShowsComposed x maps v'

theorem applyOperations_append (v : MappedVector T) (ops ops' : List (Operation T)) :
    applyOperations v (ops ++ ops') = (applyOperations v ops).bind fun v' => applyOperations v' ops' :=
  List.foldlM_append

section Along

variable {good : MappedVector T → Operation T → Prop} {v v' : MappedVector T} {ops ops' : List (Operation T)}

theorem Along.cons {op : Operation T} (hgood : good v op) (happly : op.apply v = some v')
    (halong : Along good v' ops) : Along good v (op :: ops) := by
  refine ⟨hgood, fun u hu => ?_⟩
  obtain rfl : v' = u := Option.some.inj (happly.symm.trans hu)
  exact halong

theorem Along.left (halong : Along good v (ops ++ ops')) : Along good v ops := by
  induction ops generalizing v with
  | nil => trivial
  | cons op ops ih => exact ⟨halong.1, fun u happly => ih (halong.2 u happly)⟩

theorem Along.right (halong : Along good v (ops ++ ops')) (hrun : applyOperations v ops = some v') :
    Along good v' ops' := by
  induction ops generalizing v with
  | nil =>
      obtain rfl : v = v' := Option.some.inj hrun
      exact halong
  | cons op ops ih =>
      rw [applyOperations, List.foldlM_cons] at hrun
      obtain ⟨u, happly, hrest⟩ := Option.bind_eq_some_iff.mp hrun
      exact ih (halong.2 u happly) hrest

end Along

theorem applyOperations_wellFormed {v : MappedVector T} (hv : v.WellFormed) {ops : List (Operation T)}
    (hrange : Along (fun v op => op.InRange v) v ops)
    (hkeeps : Along (fun v op => op.KeepsWindow v) v ops) :
    ∃ v', applyOperations v ops = some v' ∧ v'.WellFormed := by
  induction ops generalizing v with
  | nil => exact ⟨v, rfl, hv⟩
  | cons op ops ih =>
      obtain ⟨u, happly, hu⟩ := Operation.apply_wellFormed hv hrange.1 hkeeps.1
      obtain ⟨v', hrun, hv'⟩ := ih hu (hrange.2 u happly) (hkeeps.2 u happly)
      refine ⟨v', ?_, hv'⟩
      rw [applyOperations, List.foldlM_cons, happly]
      exact hrun

/-- One mapping after the other, each of the size of the one before it. -/
theorem applyMappings_spec {x : MappedVector T} (hx : x.WellFormed) {maps : List (List ℕ)}
    (hrange : Along (fun v op => op.InRange v) x (maps.map Operation.applyMapping))
    (hkeeps : Along (fun v op => op.KeepsWindow v) x (maps.map Operation.applyMapping)) :
    ∃ v', applyOperations x (maps.map Operation.applyMapping) = some v' ∧
      (∀ m, maps.getLast? = some m → v'.size = m.length) ∧ v'.size ≤ x.totalSize ∧
      ∀ i < v'.size, ∃ j < x.totalSize, composedIndex maps i = some j ∧ v'.read i = x.read j := by
  induction maps generalizing x with
  | nil =>
      have hle := hx.end_le
      have hsize := hx.size
      refine ⟨x, rfl, ?_, by omega, fun i hi => ⟨i, by omega, rfl, rfl⟩⟩
      rintro m ⟨⟩
  | cons m maps ih =>
      obtain ⟨hstart, hlen, hcount⟩ := hkeeps.1
      have hle := hx.end_le
      have hxsize := hx.size
      obtain ⟨u, happly, hu, htotal, hsize, -, hread⟩ := hx.applyMapping hstart hlen hrange.1.2 hcount
      obtain ⟨v', hrun, hlast, hbound, hget⟩ := ih hu (hrange.2 u happly) (hkeeps.2 u happly)
      refine ⟨v', ?_, ?_, by omega, ?_⟩
      · rw [List.map_cons, applyOperations, List.foldlM_cons]
        change ((x.applyMapping m).bind fun v => applyOperations v _) = some v'
        rw [happly]
        exact hrun
      · intro m' hm'
        cases maps with
        | nil =>
            obtain rfl : m = m' := by simpa using hm'
            obtain rfl : u = v' := Option.some.inj hrun
            exact hsize
        | cons m'' maps => exact hlast m' (by simpa using hm')
      · intro i hi
        obtain ⟨j, hj, hindex, hreadj⟩ := hget i hi
        rw [htotal] at hj
        have hmj : m[j]? = some m[j] := List.getElem?_eq_getElem hj
        refine ⟨m[j], hrange.1.2 _ (List.getElem_mem hj), ?_, hreadj.trans (hread j _ hmj)⟩
        rw [composedIndex, hindex]
        exact hmj

/-- In runs that keep the window in the vector every state is sound. -/
theorem representation_invariant {data : List T} {mapping : Option (List ℕ)} {ops : List (Operation T)}
    (hmapping : ∀ m, mapping = some m → ∀ p ∈ m, p < data.length)
    (hrange : Along (fun v op => op.InRange v) (view data mapping) ops)
    (hkeeps : Along (fun v op => op.KeepsWindow v) (view data mapping) ops) :
    RunSound (view data mapping) ops := by
  rintro before rest rfl
  have hview := wellFormed_view hmapping
  have hrange' := hrange.left
  have hkeeps' := hkeeps.left
  obtain ⟨v', hrun, hv'⟩ := applyOperations_wellFormed hview hrange' hkeeps'
  refine ⟨v', hrun, hv'.sound, ?_⟩
  rintro front maps - rfl
  obtain ⟨x, hfront, hx⟩ := applyOperations_wellFormed hview hrange'.left hkeeps'.left
  obtain ⟨v'', hmaps, hlast, -, hget⟩ :=
    applyMappings_spec hx (hrange'.right hfront) (hkeeps'.right hfront)
  rw [applyOperations_append, hfront, Option.bind_some, hmaps] at hrun
  obtain rfl := Option.some.inj hrun
  refine ⟨x, hfront, hlast, fun i hi => ?_⟩
  obtain ⟨j, -, hindex, hread⟩ := hget i hi
  exact ⟨j, hindex, hread⟩

/-- Of four elements the last three, in the opposite order, and one more behind the mapping. -/
theorem representation_invariant_tail : RunSound (view [5, 6, 7, (8 : BitVec 8)] none)
    [.tail 3, .applyMapping [2, 1, 0], .concatenate [1], .setBatch 1 9] := by
  refine representation_invariant (fun m hm => by cases hm) ?_ ?_
  · refine Along.cons (by decide : 3 ≤ 4) rfl (Along.cons ⟨by decide, by decide⟩ rfl ?_)
    exact Along.cons trivial rfl (Along.cons (by decide : 1 ≤ 9) rfl trivial)
  · refine Along.cons trivial rfl (Along.cons ⟨rfl, rfl, fun _ => by decide⟩ rfl ?_)
    exact Along.cons trivial rfl (Along.cons (by decide : 1 ≤ 4) rfl trivial)

/-- A mapping of one entry for a vector of two elements. -/
theorem representation_invariant_fails :
    Along (fun v op => op.InRange v) (view [5, (6 : BitVec 8)] none) [.applyMapping [0]] ∧
      ¬ RunSound (view [5, (6 : BitVec 8)] none) [.applyMapping [0]] := by
  refine ⟨⟨⟨by decide, by decide⟩, fun _ _ => trivial⟩, fun hall => ?_⟩
  obtain ⟨v', hrun, hsound, -⟩ := hall [.applyMapping [0]] [] rfl
  obtain rfl := Option.some.inj hrun
  exact absurd hsound.end_le (by decide)

end Runs

end MappedVector

end CryptDough
