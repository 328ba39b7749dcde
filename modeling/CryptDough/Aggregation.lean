import CryptDough.EncodedTable
import CryptDough.AdjacentGroups

/-! Aggregation over groups of adjacent rows by a prefix network: every level combines the target rows
with their sources where the keys of both agree. -/

namespace CryptDough

open SegmentedScan AdjacentGroups Opened

variable {w : ℕ}

/-- The smaller one as signed numbers. -/
def signedMin (a b : BitVec w) : BitVec w := if a.toInt ≤ b.toInt then a else b

/-- The larger one as signed numbers. -/
def signedMax (a b : BitVec w) : BitVec w := if b.toInt < a.toInt then a else b

instance : Std.Associative (signedMin (w := w)) where
  assoc x y z := by
    unfold signedMin
    split_ifs <;> first | rfl | omega

instance : Std.Commutative (signedMin (w := w)) where
  comm x y := by
    unfold signedMin
    split_ifs with hxy hyx hyx
    · exact BitVec.eq_of_toInt_eq (le_antisymm hxy hyx)
    · rfl
    · rfl
    · omega

instance : Std.Associative (signedMax (w := w)) where
  assoc x y z := by
    unfold signedMax
    split_ifs <;> first | rfl | omega

instance : Std.Commutative (signedMax (w := w)) where
  comm x y := by
    unfold signedMax
    split_ifs with hyx hxy hxy
    · omega
    · rfl
    · rfl
    · exact BitVec.eq_of_toInt_eq (by omega)

inductive AggregationSelector
  | sum | count | min | max | bitOr | copyA | copyB | valid
deriving DecidableEq

namespace AggregationSelector

/-- Whether the function is one on B-shared columns. -/
def hasB : AggregationSelector → Bool
  | sum => false
  | count => false
  | min => true
  | max => true
  | bitOr => true
  | copyA => false
  | copyB => true
  | valid => true

def isCopy : AggregationSelector → Bool
  | copyA => true
  | copyB => true
  | _ => false

def isAggregation : AggregationSelector → Bool
  | copyA => false
  | copyB => false
  | valid => false
  | _ => true

/-- `func(group, a, b)`: what becomes of `a`. -/
def apply : AggregationSelector → BitVec w → BitVec w → BitVec w → BitVec w
  | sum, group, a, b => a + group * b
  | count, group, a, b => a + group * b
  | min, group, a, b => multiplexB group a (multiplexB (notB1 (greaterB b a)) a b)
  | max, group, a, b => multiplexB group a (multiplexB (greaterB b a) a b)
  | bitOr, group, a, b => a ||| (extendLsb group &&& b)
  | copyA, group, a, b => multiplexA group a b
  | copyB, group, a, b => multiplexB group a b
  | valid, group, a, b => multiplexB group a (andB1 a b)

/-- An earlier value `b` combined with a later one in its group. -/
def combine : AggregationSelector → BitVec w → BitVec w → BitVec w
  | sum, b, a => b + a
  | count, b, a => b + a
  | min, b, a => signedMin b a
  | max, b, a => signedMax b a
  | bitOr, b, a => b ||| a
  | copyA, b, _ => b
  | copyB, b, _ => b
  | valid, b, a => b &&& a

theorem apply_bit (hw : 0 < w) (f : AggregationSelector) (g : Bool) (a b : BitVec w) :
    f.apply (bit g) a b = if g then f.combine b a else a := by
  cases f with
  | sum => cases g <;> simp [apply, combine, bit, add_comm]
  | count => cases g <;> simp [apply, combine, bit, add_comm]
  | min =>
      rw [apply, greaterB, notB1_bit, multiplexB_bit hw, multiplexB_bit hw, combine, signedMin]
      simp only [← decide_not, not_lt, decide_eq_true_eq]
  | max =>
      rw [apply, greaterB, multiplexB_bit hw, multiplexB_bit hw, combine, signedMax]
      simp only [decide_eq_true_eq]
  | bitOr =>
      rw [apply, extendLsb_bit hw]
      cases g <;> simp [combine, BitVec.or_comm]
  | copyA => exact multiplexA_bit g a b
  | copyB => exact multiplexB_bit hw g a b
  | valid =>
      rw [apply, multiplexB_bit hw, combine, andB1, BitVec.and_comm]

instance (f : AggregationSelector) : Std.Associative (f.combine (w := w)) where
  assoc := by
    intro x y z
    cases f with
    | sum => exact add_assoc x y z
    | count => exact add_assoc x y z
    | min => exact (inferInstance : Std.Associative signedMin).assoc x y z
    | max => exact (inferInstance : Std.Associative signedMax).assoc x y z
    | bitOr => exact BitVec.or_assoc x y z
    | copyA => rfl
    | copyB => rfl
    | valid => exact BitVec.and_assoc x y z

end AggregationSelector

/-- One entry of an aggregation specification. -/
structure Aggregation where
  data : String
  result : String
  func : AggregationSelector
deriving DecidableEq

abbrev AggregationSpec := List Aggregation

inductive Direction
  | forward | reverse
deriving DecidableEq

/-- The vector as the network sees it: reversed for a reverse aggregation. -/
def Direction.view {α : Type} (dir : Direction) (n : ℕ) (x : ℕ → α) : ℕ → α :=
  match dir with
  | forward => x
  | reverse => mirror n x

@[simp] theorem Direction.view_view {α : Type} (dir : Direction) (n : ℕ) (x : ℕ → α) :
    dir.view n (dir.view n x) = x := by
  cases dir with
  | forward => rfl
  | reverse => exact mirror_mirror n x

/-- Where the network sees position `i`. -/
def Direction.position (dir : Direction) (n i : ℕ) : ℕ :=
  match dir with
  | forward => i
  | reverse => n - 1 - i

theorem Direction.view_apply {α : Type} (dir : Direction) {n i : ℕ} (x : ℕ → α) (hi : i < n) :
    dir.view n x i = x (dir.position n i) := by
  cases dir with
  | forward => rfl
  | reverse => exact mirror_of_lt x hi

theorem Direction.position_lt (dir : Direction) {n i : ℕ} (hi : i < n) : dir.position n i < n := by
  cases dir with
  | forward => exact hi
  | reverse =>
      change n - 1 - i < n
      omega

theorem Direction.view_position {α : Type} (dir : Direction) {n i : ℕ} (x : ℕ → α) (hi : i < n) :
    dir.view n x (dir.position n i) = x i := by
  rw [← dir.view_apply (dir.view n x) hi, view_view]

theorem Direction.filter_map_view {α κ : Type} [DecidableEq κ] (dir : Direction) (n : ℕ)
    (key : ℕ → κ) (x : ℕ → α) (k : κ) :
    ((Multiset.range n).filter fun u => dir.view n key u = k).map (dir.view n x) =
      ((Multiset.range n).filter fun u => key u = k).map x := by
  cases dir with
  | forward => rfl
  | reverse =>
      have hpairs := map_mirror n fun u => (key u, x u)
      have hmirror : ∀ u ∈ Multiset.range n,
          mirror n (fun u => (key u, x u)) u = (mirror n key u, mirror n x u) := by
        intro u hu
        have hu := Multiset.mem_range.mp hu
        rw [mirror_of_lt _ hu, mirror_of_lt _ hu, mirror_of_lt _ hu]
      rw [Multiset.map_congr rfl hmirror] at hpairs
      have hfilter := congrArg (fun s => (s.filter fun p => p.1 = k).map Prod.snd) hpairs
      simp only [Multiset.filter_map, Multiset.map_map] at hfilter
      exact hfilter

namespace Aggregators

/-- The keys, the table id column if there is one, the direction and size of the network, and what
`!` makes of the bit for row `t` at the gap of a level. -/
structure Setting where
  keys : List String
  selB : Option String
  dir : Direction
  n : ℕ
  negation : Negation

variable (σ : Setting)

def bSpec (spec : AggregationSpec) : AggregationSpec := spec.filter fun s => s.func.hasB

def aSpec (spec : AggregationSpec) : AggregationSpec := spec.filter fun s => !s.func.hasB

/-- The input of a count is ones, or the table id so that rows on the left are not counted. -/
def initial (selB : Option String) (s : Aggregation) (col : String → Column w) : Column w :=
  if s.func = .count then
    match selB with
    | some sel => fun i => col sel i &&& 1
    | none => fun _ => 1
  else col s.data

def copyInput (selB : Option String) (col : String → Column w) (s : Aggregation) :
    String → Column w :=
  Function.update col s.result (initial selB s col)

/-- The outputs are overwritten with their inputs one after the other. -/
def copyInputs (selB : Option String) (spec : AggregationSpec) (col : String → Column w) :
    String → Column w :=
  (aSpec spec ++ bSpec spec).foldl (copyInput selB) col

/-- For every target of the level, whether all keys agree with those of its source. -/
def joinGroupBits (l : Level) (col : String → Column w) : Column w := fun t =>
  let equal := fun k => equalB (σ.dir.view σ.n (col k) (t - l.gap)) (σ.dir.view σ.n (col k) t)
  match σ.keys with
  | [] => 1
  | k :: keys => keys.foldl (fun bits k => andB1 bits (equal k)) (equal k)

/-- The group bits of everything but copies, which also stay within one table. -/
def groupBits (spec : AggregationSpec) (l : Level) (col : String → Column w) : Column w := fun t =>
  match σ.selB with
  | some sel =>
      if spec.any fun s => !s.func.isCopy then
        andB1 (joinGroupBits σ l col t) (σ.negation l.gap t w
          (σ.dir.view σ.n (col sel) (t - l.gap) ^^^ σ.dir.view σ.n (col sel) t))
      else joinGroupBits σ l col t
  | none => joinGroupBits σ l col t

/-- Without keys the arithmetic group bits stay ones. -/
def whichGroupBits (spec : AggregationSpec) (l : Level) (col : String → Column w)
    (f : AggregationSelector) : Column w :=
  if f.isCopy then joinGroupBits σ l col
  else if !f.hasB && σ.keys.isEmpty then fun _ => 1
  else groupBits σ spec l col

/-- `func(g, b, a)` on the two views of a level. -/
def applyLevel (f : AggregationSelector) (group : Column w) (l : Level) (x : Column w) : Column w :=
  fun t => if l.target t then f.apply (group t) (x t) (x (t - l.gap)) else x t

def levelStep (spec : AggregationSpec) (col : String → Column w) (l : Level) : String → Column w :=
  let bits := whichGroupBits σ spec l col
  (bSpec spec ++ aSpec spec).foldl
    (fun col s => Function.update col s.result
      (σ.dir.view σ.n (applyLevel s.func (bits s.func) l (σ.dir.view σ.n (col s.result))))) col

def aggregate (spec : AggregationSpec) (col : String → Column w) : String → Column w :=
  (brentKung (Nat.size (σ.n - 1))).foldl (levelStep σ spec) (copyInputs σ.selB spec col)

/-- The rows `u` and `t` of the view are in one group for the function `f`. -/
def sameGroup (col : String → Column w) (f : AggregationSelector) (u t : ℕ) : Bool :=
  decide (∀ k ∈ σ.keys, σ.dir.view σ.n (col k) u = σ.dir.view σ.n (col k) t) &&
    (f.isCopy || match σ.selB with
      | some sel => (σ.dir.view σ.n (col sel) u).getLsbD 0 == (σ.dir.view σ.n (col sel) t).getLsbD 0
      | none => true)

theorem foldl_andB1_bit (keys : List String) (p : String → Bool) (b : Bool) :
    keys.foldl (fun bits k => andB1 bits (bit (p k))) (bit b : BitVec w) =
      bit (b && keys.all p) := by
  induction keys generalizing b with
  | nil => simp
  | cons k keys ih => rw [List.foldl_cons, andB1_bit, ih, List.all_cons, Bool.and_assoc]

theorem joinGroupBits_eq (l : Level) (col : String → Column w) (t : ℕ) :
    joinGroupBits σ l col t =
      bit (decide (∀ k ∈ σ.keys,
        σ.dir.view σ.n (col k) (t - l.gap) = σ.dir.view σ.n (col k) t)) := by
  unfold joinGroupBits
  cases hcases : σ.keys with
  | nil => simp [bit]
  | cons k keys =>
      simp only [equalB]
      rw [foldl_andB1_bit keys fun k =>
        decide (σ.dir.view σ.n (col k) (t - l.gap) = σ.dir.view σ.n (col k) t)]
      congr 1
      rw [Bool.eq_iff_iff]
      simp

theorem groupBits_eq {σ : Setting} (hplain : σ.negation = plainNegation) {spec : AggregationSpec}
    (hany : (spec.any fun s => !s.func.isCopy) = true) (l : Level) (col : String → Column w) (t : ℕ) :
    groupBits σ spec l col t =
      bit (decide (∀ k ∈ σ.keys,
        σ.dir.view σ.n (col k) (t - l.gap) = σ.dir.view σ.n (col k) t) &&
          match σ.selB with
          | some sel => (σ.dir.view σ.n (col sel) (t - l.gap)).getLsbD 0 ==
              (σ.dir.view σ.n (col sel) t).getLsbD 0
          | none => true) := by
  unfold groupBits
  cases σ.selB with
  | none => simp [joinGroupBits_eq]
  | some sel =>
      simp only [hany, if_true, joinGroupBits_eq, hplain, plainNegation, notB1_eq, andB1_bit,
        BitVec.getLsbD_xor]
      congr 2
      cases (σ.dir.view σ.n (col sel) (t - l.gap)).getLsbD 0 <;>
        cases (σ.dir.view σ.n (col sel) t).getLsbD 0 <;> rfl

theorem whichGroupBits_eq {σ : Setting} (hplain : σ.negation = plainNegation)
    {spec : AggregationSpec} (l : Level)
    (col : String → Column w) {s : Aggregation} (hs : s ∈ spec)
    (hkeys : (σ.keys ≠ [] ∨ σ.selB = none) ∨ s.func.hasB = true) (t : ℕ) :
    whichGroupBits σ spec l col s.func t = bit (sameGroup σ col s.func (t - l.gap) t) := by
  unfold whichGroupBits sameGroup
  cases hcopy : s.func.isCopy with
  | true => simp [joinGroupBits_eq]
  | false =>
      have hany : (spec.any fun s => !s.func.isCopy) = true :=
        List.any_eq_true.mpr ⟨s, hs, by simp [hcopy]⟩
      rw [if_neg Bool.false_ne_true, Bool.false_or]
      split
      · -- only without keys, where the group is the whole table
        rename_i hempty
        obtain ⟨hb, hempty⟩ := (Bool.and_eq_true _ _).mp hempty
        have hnil : σ.keys = [] := List.isEmpty_iff.mp hempty
        have hkeys := hkeys.resolve_right fun htrue => by simp [htrue] at hb
        have hnone : σ.selB = none := hkeys.resolve_left (not_not.mpr hnil)
        simp [hnil, hnone, bit]
      · exact groupBits_eq hplain hany l col t

theorem applyLevel_eq (hw : 0 < w) {σ : Setting} (hplain : σ.negation = plainNegation)
    {spec : AggregationSpec} (l : Level)
    (col : String → Column w) {s : Aggregation} (hs : s ∈ spec)
    (hkeys : (σ.keys ≠ [] ∨ σ.selB = none) ∨ s.func.hasB = true) (x : Column w) :
    applyLevel s.func (whichGroupBits σ spec l col s.func) l x =
      scanStep s.func.combine (sameGroup σ col s.func) l x := by
  ext t
  unfold applyLevel scanStep
  rw [whichGroupBits_eq hplain l col hs hkeys, AggregationSelector.apply_bit hw]
  cases l.target t <;> simp

/-- Updating the results one after the other, each from its own old value. -/
theorem foldl_update {spec : AggregationSpec} (hnodup : (spec.map Aggregation.result).Nodup)
    (g : Aggregation → Column w → Column w) (col : String → Column w) :
    (∀ s ∈ spec, spec.foldl (fun col s => Function.update col s.result (g s (col s.result))) col
      s.result = g s (col s.result)) ∧
    ∀ c, c ∉ spec.map Aggregation.result →
      spec.foldl (fun col s => Function.update col s.result (g s (col s.result))) col c = col c := by
  induction spec generalizing col with
  | nil => simp
  | cons s spec ih =>
      obtain ⟨hnot, hrest⟩ := List.nodup_cons.mp hnodup
      obtain ⟨hin, hout⟩ := ih hrest (Function.update col s.result (g s (col s.result)))
      constructor
      · intro s' hs'
        rcases List.mem_cons.mp hs' with rfl | hs'
        · rw [List.foldl_cons, hout _ hnot, Function.update_self]
        · have hne : s'.result ≠ s.result := fun heq => hnot (heq ▸ List.mem_map_of_mem hs')
          rw [List.foldl_cons, hin s' hs', Function.update_of_ne hne]
      · intro c hc
        rw [List.map_cons, List.mem_cons, not_or] at hc
        rw [List.foldl_cons, hout c hc.2, Function.update_of_ne hc.1]

/-- No entry reads what an earlier one has overwritten. -/
def ReadsInputs (selB : Option String) (spec : AggregationSpec) : Prop :=
  spec.Pairwise (fun s s' => s'.func = .count ∨ s'.data ≠ s.result) ∧
    ∀ sel, selB = some sel → sel ∉ spec.map Aggregation.result

theorem initial_update {selB : Option String} {s s' : Aggregation} (col : String → Column w)
    (x : Column w) (hdata : s'.func = .count ∨ s'.data ≠ s.result)
    (hsel : ∀ sel, selB = some sel → sel ≠ s.result) :
    initial selB s' (Function.update col s.result x) = initial selB s' col := by
  unfold initial
  split
  · cases hcases : selB with
    | none => rfl
    | some sel => simp only [Function.update_of_ne (hsel sel hcases)]
  · rename_i hcount
    rw [Function.update_of_ne (hdata.resolve_left hcount)]

theorem foldl_initial {selB : Option String} {spec : AggregationSpec}
    (hnodup : (spec.map Aggregation.result).Nodup) (hreads : ReadsInputs selB spec)
    (col : String → Column w) :
    (∀ s ∈ spec, spec.foldl (copyInput selB) col s.result = initial selB s col) ∧
    ∀ c, c ∉ spec.map Aggregation.result → spec.foldl (copyInput selB) col c = col c := by
  induction spec generalizing col with
  | nil => simp
  | cons s spec ih =>
      obtain ⟨hnot, hrest⟩ := List.nodup_cons.mp hnodup
      obtain ⟨hdata, hlater⟩ := List.pairwise_cons.mp hreads.1
      have hsel : ∀ sel, selB = some sel → sel ≠ s.result ∧ sel ∉ spec.map Aggregation.result :=
        fun sel heq => not_or.mp fun hmem => hreads.2 sel heq (List.mem_cons.mpr hmem)
      obtain ⟨hin, hout⟩ := ih hrest ⟨hlater, fun sel heq => (hsel sel heq).2⟩
        (copyInput selB col s)
      constructor
      · intro s' hs'
        rcases List.mem_cons.mp hs' with rfl | hs'
        · rw [List.foldl_cons, hout _ hnot, copyInput, Function.update_self]
        · rw [List.foldl_cons, hin s' hs', copyInput,
            initial_update col _ (hdata s' hs') fun sel heq => (hsel sel heq).1]
      · intro c hc
        rw [List.map_cons, List.mem_cons, not_or] at hc
        rw [List.foldl_cons, hout c hc.2, copyInput, Function.update_of_ne hc.1]

/-- A specification the table accepts: every function fits the encoding of its two columns. -/
def WellTyped (spec : AggregationSpec) : Prop :=
  ∀ s ∈ spec, isBShared s.data = s.func.hasB ∧ isBShared s.result = s.func.hasB

instance (spec : AggregationSpec) : Decidable (WellTyped spec) :=
  inferInstanceAs (Decidable (∀ s ∈ spec, _))

theorem mem_append_specs (spec : AggregationSpec) (s : Aggregation) :
    (s ∈ aSpec spec ++ bSpec spec ↔ s ∈ spec) ∧ (s ∈ bSpec spec ++ aSpec spec ↔ s ∈ spec) := by
  simp only [List.mem_append, aSpec, bSpec, List.mem_filter]
  cases s.func.hasB <;> simp

/-- Distinct results stay distinct, in either order of the two encodings. -/
theorem nodup_append_specs {spec : AggregationSpec} (hnodup : (spec.map Aggregation.result).Nodup)
    (htyped : WellTyped spec) :
    ((aSpec spec ++ bSpec spec).map Aggregation.result).Nodup ∧
      ((bSpec spec ++ aSpec spec).map Aggregation.result).Nodup := by
  have ha : ((aSpec spec).map Aggregation.result).Nodup :=
    hnodup.sublist (List.filter_sublist.map _)
  have hb : ((bSpec spec).map Aggregation.result).Nodup :=
    hnodup.sublist (List.filter_sublist.map _)
  have hdisjoint : ∀ c ∈ (aSpec spec).map Aggregation.result,
      c ∉ (bSpec spec).map Aggregation.result := by
    intro c hca hcb
    obtain ⟨s, hs, rfl⟩ := List.mem_map.mp hca
    obtain ⟨s', hs', heq⟩ := List.mem_map.mp hcb
    obtain ⟨hs, hsa⟩ := List.mem_filter.mp hs
    obtain ⟨hs', hsb⟩ := List.mem_filter.mp hs'
    have htype := (htyped s hs).2
    rw [← heq, (htyped s' hs').2, hsb] at htype
    simp [← htype] at hsa
  rw [List.map_append, List.map_append, List.nodup_append', List.nodup_append']
  exact ⟨⟨ha, hb, hdisjoint⟩, hb, ha, fun c hcb hca => hdisjoint c hca hcb⟩

theorem readsInputs_append_specs {selB : Option String} {spec : AggregationSpec}
    (hreads : ReadsInputs selB spec) (htyped : WellTyped spec) :
    ReadsInputs selB (aSpec spec ++ bSpec spec) := by
  constructor
  · rw [List.pairwise_append]
    refine ⟨hreads.1.sublist List.filter_sublist, hreads.1.sublist List.filter_sublist,
      fun s hs s' hs' => Or.inr fun heq => ?_⟩
    obtain ⟨hs, hsa⟩ := List.mem_filter.mp hs
    obtain ⟨hs', hsb⟩ := List.mem_filter.mp hs'
    have htype := (htyped s hs).2
    rw [← heq, (htyped s' hs').1, hsb] at htype
    simp [← htype] at hsa
  · intro sel heq hmem
    obtain ⟨s, hs, hsel⟩ := List.mem_map.mp hmem
    exact hreads.2 sel heq (hsel ▸ List.mem_map_of_mem ((mem_append_specs spec s).1.mp hs))

/-- What the network has computed after some of its levels. -/
structure Scanned (σ : Setting) (spec : AggregationSpec) (levels : List Level)
    (col col' : String → Column w) : Prop where
  result : ∀ s ∈ spec, col' s.result = σ.dir.view σ.n
    (scan s.func.combine (sameGroup σ col s.func) levels (σ.dir.view σ.n (initial σ.selB s col)))
  other : ∀ c, c ∉ spec.map Aggregation.result → col' c = col c

theorem sameGroup_congr {col col' : String → Column w}
    (hkeys : ∀ k ∈ σ.keys, col' k = col k) (hsel : ∀ sel, σ.selB = some sel → col' sel = col sel)
    (f : AggregationSelector) : sameGroup σ col' f = sameGroup σ col f := by
  ext u t
  unfold sameGroup
  congr 1
  · rw [decide_eq_decide]
    exact forall₂_congr fun k hk => by rw [hkeys k hk]
  · cases hcases : σ.selB with
    | none => rfl
    | some sel => simp only [hsel sel hcases]

/-- What the specification asks of the columns. -/
structure Separate (keys : List String) (selB : Option String) (spec : AggregationSpec) : Prop where
  keys_ne : keys ≠ [] ∨ selB = none
  nodup : (spec.map Aggregation.result).Nodup
  typed : WellTyped spec
  reads : ReadsInputs selB spec
  keys : ∀ k ∈ keys, k ∉ spec.map Aggregation.result

/-- Without keys a table id only separates the B-shared columns. -/
structure Compatible (keys : List String) (selB : Option String) (spec : AggregationSpec) : Prop where
  bits : ∀ s ∈ spec, (keys ≠ [] ∨ selB = none) ∨ s.func.hasB = true
  nodup : (spec.map Aggregation.result).Nodup
  typed : WellTyped spec
  reads : ReadsInputs selB spec
  keys : ∀ k ∈ keys, k ∉ spec.map Aggregation.result

theorem Separate.compatible {keys : List String} {selB : Option String} {spec : AggregationSpec}
    (hspec : Separate keys selB spec) : Compatible keys selB spec where
  bits _ _ := Or.inl hspec.keys_ne
  nodup := hspec.nodup
  typed := hspec.typed
  reads := hspec.reads
  keys := hspec.keys

theorem scanned_copyInputs {σ : Setting} {spec : AggregationSpec}
    (hspec : Compatible σ.keys σ.selB spec) (col : String → Column w) :
    Scanned σ spec [] col (copyInputs σ.selB spec col) := by
  obtain ⟨hin, hout⟩ := foldl_initial (nodup_append_specs hspec.nodup hspec.typed).1
    (readsInputs_append_specs hspec.reads hspec.typed) col
  refine ⟨fun s hs => ?_, fun c hc => hout c fun hmem => hc ?_⟩
  · rw [copyInputs, hin s ((mem_append_specs spec s).1.mpr hs), scan, List.foldl_nil,
      Direction.view_view]
  · obtain ⟨s, hs, rfl⟩ := List.mem_map.mp hmem
    exact List.mem_map_of_mem ((mem_append_specs spec s).1.mp hs)

theorem Scanned.levelStep (hw : 0 < w) {σ : Setting} (hplain : σ.negation = plainNegation)
    {spec : AggregationSpec} (hspec : Compatible σ.keys σ.selB spec) {levels : List Level}
    {col col' : String → Column w}
    (hcol : Scanned σ spec levels col col') (l : Level) :
    Scanned σ spec (levels ++ [l]) col (levelStep σ spec col' l) := by
  obtain ⟨hin, hout⟩ := foldl_update (nodup_append_specs hspec.nodup hspec.typed).2
    (fun s x => σ.dir.view σ.n
      (applyLevel s.func (whichGroupBits σ spec l col' s.func) l (σ.dir.view σ.n x))) col'
  have hsame := sameGroup_congr σ (fun k hk => hcol.other k (hspec.keys k hk))
    fun sel hsel => hcol.other sel (hspec.reads.2 sel hsel)
  refine ⟨fun s hs => ?_, fun c hc => ?_⟩
  · apply (hin s ((mem_append_specs spec s).2.mpr hs)).trans
    rw [applyLevel_eq hw hplain l col' hs (hspec.bits s hs), hcol.result s hs, Direction.view_view,
      hsame, scan,
      scan, List.foldl_append]
    rfl
  · refine (hout c fun hmem => hc ?_).trans (hcol.other c hc)
    obtain ⟨s, hs, rfl⟩ := List.mem_map.mp hmem
    exact List.mem_map_of_mem ((mem_append_specs spec s).2.mp hs)

theorem scanned_foldl (hw : 0 < w) {σ : Setting} (hplain : σ.negation = plainNegation)
    {spec : AggregationSpec} (hspec : Compatible σ.keys σ.selB spec)
    (levels : List Level) (col : String → Column w) :
    Scanned σ spec levels col (levels.foldl (levelStep σ spec) (copyInputs σ.selB spec col)) := by
  induction levels using List.reverseRecOn with
  | nil => exact scanned_copyInputs hspec col
  | append_singleton levels l ih =>
      rw [List.foldl_append]
      exact ih.levelStep hw hplain hspec l

/-- The results are scanned by the network, all other columns stay. -/
theorem scanned_aggregate (hw : 0 < w) {σ : Setting} (hplain : σ.negation = plainNegation)
    {spec : AggregationSpec} (hspec : Compatible σ.keys σ.selB spec) (col : String → Column w) :
    Scanned σ spec (brentKung (Nat.size (σ.n - 1))) col (aggregate σ spec col) :=
  scanned_foldl hw hplain hspec _ col

/-- Without a table id, and for copies alone, nothing is negated. -/
theorem aggregate_withNegation (σ : Setting) (negation : Negation) {spec : AggregationSpec}
    (hunused : σ.selB = none ∨ ∀ s ∈ spec, s.func.isCopy = true) (col : String → Column w) :
    aggregate { σ with negation := negation } spec col = aggregate σ spec col := by
  have hbits : ∀ (l : Level) (col : String → Column w),
      groupBits { σ with negation := negation } spec l col = groupBits σ spec l col := by
    intro l col
    ext t
    unfold groupBits
    rcases hunused with hnone | hcopies
    · simp only [hnone]
      rfl
    · have hany : (spec.any fun s => !s.func.isCopy) = false := by
        rw [List.any_eq_false]
        intro s hs
        simp [hcopies s hs]
      simp only [hany, Bool.false_eq_true, if_false]
      rfl
  have hstep : levelStep { σ with negation := negation } spec = levelStep (w := w) σ spec := by
    ext col l
    unfold levelStep whichGroupBits
    simp only [hbits]
    rfl
  rw [aggregate, aggregate, hstep]

/-- The rows of one group have this in common. -/
def groupKey (col : String → Column w) (f : AggregationSelector) (i : ℕ) :
    List (BitVec w) × Option Bool :=
  (σ.keys.map fun k => col k i,
    if f.isCopy then none else σ.selB.map fun sel => (col sel i).getLsbD 0)

theorem sameGroup_eq (col : String → Column w) (f : AggregationSelector) :
    sameGroup σ col f = fun u t =>
      decide (σ.dir.view σ.n (groupKey σ col f) u = σ.dir.view σ.n (groupKey σ col f) t) := by
  have hview : ∀ u, σ.dir.view σ.n (groupKey σ col f) u =
      groupKey σ (fun c => σ.dir.view σ.n (col c)) f u := by
    intro u
    cases σ.dir with
    | forward => rfl
    | reverse =>
        simp only [Direction.view, mirror, groupKey]
        split <;> rfl
  ext u t
  rw [hview, hview, Bool.eq_iff_iff, decide_eq_true_iff, groupKey, groupKey, Prod.mk.injEq,
    List.map_inj_left, sameGroup, Bool.and_eq_true, decide_eq_true_iff]
  refine and_congr_right fun _ => ?_
  cases f.isCopy with
  | true => simp
  | false =>
      cases σ.selB with
      | none => simp
      | some sel => simp

theorem grouped_view {κ : Type} {key : ℕ → κ} {n : ℕ} {good : ℕ → Prop}
    (hgroup : Grouped key n good) (dir : Direction) :
    Grouped (dir.view n key) n (dir.view n good) := by
  cases dir with
  | forward => exact hgroup
  | reverse => exact hgroup.mirror

/-- Where groups are adjacent, the network folds every group up to the row. -/
theorem scan_sameGroup {σ : Setting} {col : String → Column w} {f : AggregationSelector}
    {good : ℕ → Prop} (hgroup : Grouped (groupKey σ col f) σ.n good) {halfDepth : ℕ}
    (hpos : 0 < halfDepth) (hn : σ.n = 2 ^ halfDepth) (x : Column w) {p : ℕ}
    (hp : σ.dir.view σ.n good p) :
    scan f.combine (sameGroup σ col f) (brentKung halfDepth) x p =
      foldRange f.combine x (firstOf (σ.dir.view σ.n (groupKey σ col f)) p)
        (p - firstOf (σ.dir.view σ.n (groupKey σ col f)) p) := by
  have hview := grouped_view hgroup σ.dir
  rw [sameGroup_eq]
  exact scan_brentKung hview.segments hpos x hp (hn ▸ hview.lt p hp)

end Aggregators

end CryptDough
