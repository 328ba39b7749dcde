import Mathlib.Algebra.BigOperators.Group.Multiset.Basic
import Mathlib.Algebra.BigOperators.Ring.Multiset
import Mathlib.Data.Multiset.Bind
import Mathlib.Data.Multiset.Dedup

/-! Multisets of rows: the rows with a key, joins on a key and groups of a key. A sum over the groups
of a join may be computed from the groups of one side. -/

namespace CryptDough.Relational

variable {α β γ κ ι ν : Type*} [DecidableEq κ] [DecidableEq ι]

/-- The rows with the key `k`. -/
def select (f : α → κ) (k : κ) (R : Multiset α) : Multiset α := R.filter fun a => f a = k

/-- All pairs of rows with equal keys. -/
def join (f : α → κ) (g : β → κ) (R : Multiset α) (S : Multiset β) : Multiset (α × β) :=
  (R ×ˢ S).filter fun p => f p.1 = g p.2

/-- One row for every key, with the value of its group. -/
def groupBy (f : α → κ) (φ : Multiset α → ν) (R : Multiset α) : Multiset (κ × ν) :=
  (R.map f).dedup.map fun k => (k, φ (select f k R))

variable {f : α → κ} {g : β → κ} {g' : γ → κ} {h : α → ι} {φ : Multiset α → ν} {R : Multiset α}
  {S : Multiset β} {G : Multiset γ} {k : κ}

@[simp] theorem mem_select {a : α} : a ∈ select f k R ↔ a ∈ R ∧ f a = k := Multiset.mem_filter

theorem mem_join {p : α × β} : p ∈ join f g R S ↔ (p.1 ∈ R ∧ p.2 ∈ S) ∧ f p.1 = g p.2 := by
  rw [join, Multiset.mem_filter, Multiset.mem_product]

theorem join_eq_bind (f : α → κ) (g : β → κ) (R : Multiset α) (S : Multiset β) :
    join f g R S = R.bind fun a => (select g (f a) S).map (Prod.mk a) := by
  change Multiset.filter _ (R.bind fun a => S.map (Prod.mk a)) = _
  rw [Multiset.filter_bind]
  refine Multiset.bind_congr fun a _ => ?_
  rw [Multiset.filter_map, select]
  refine congrArg _ (Multiset.filter_congr fun b _ => ?_)
  exact eq_comm

theorem select_join (h : α → ι) (i : ι) :
    select (fun p => h p.1) i (join f g R S) = join f g (select h i R) S := by
  rw [join_eq_bind, join_eq_bind, select, select, Multiset.filter_bind, Multiset.bind_filter]
  refine Multiset.bind_congr fun a _ => ?_
  rw [Multiset.filter_map]
  change Multiset.map _ (Multiset.filter (fun _ => h a = i) _) = _
  split_ifs with hi
  · rw [Multiset.filter_eq_self.mpr fun _ _ => hi]
  · rw [Multiset.filter_eq_nil.mpr fun _ _ => hi, Multiset.map_zero]

theorem sum_join [AddCommMonoid ν] (φ : α → β → ν) :
    ((join f g R S).map fun p => φ p.1 p.2).sum =
      (R.map fun a => ((select g (f a) S).map (φ a)).sum).sum := by
  rw [join_eq_bind, Multiset.map_bind, Multiset.sum_bind]
  refine congrArg _ (Multiset.map_congr rfl fun a _ => ?_)
  rw [Multiset.map_map]
  rfl

/-- The rows of the left side that take part in a join. -/
theorem exists_join {a : α} : (∃ p ∈ join f g R S, p.1 = a) ↔ a ∈ R ∧ f a ∈ S.map g := by
  rw [Multiset.mem_map]
  constructor
  · rintro ⟨p, hp, rfl⟩
    obtain ⟨⟨hR, hS⟩, hkey⟩ := mem_join.mp hp
    exact ⟨hR, p.2, hS, hkey.symm⟩
  · rintro ⟨hR, b, hS, hkey⟩
    exact ⟨(a, b), mem_join.mpr ⟨⟨hR, hS⟩, hkey.symm⟩, rfl⟩

/-- The groups of a join depend on the keys of the right side only. -/
theorem dedup_keys_join (h : α → ι) (hkeys : (G.map g').dedup = (S.map g).dedup) :
    ((join f g' R G).map fun p => h p.1).dedup = ((join f g R S).map fun p => h p.1).dedup := by
  have hmem : ∀ k, k ∈ G.map g' ↔ k ∈ S.map g := fun k => by
    rw [← Multiset.mem_dedup, hkeys, Multiset.mem_dedup]
  rw [Multiset.dedup_ext]
  intro i
  rw [Multiset.mem_map, Multiset.mem_map]
  constructor
  · rintro ⟨p, hp, rfl⟩
    obtain ⟨hR, hG⟩ := exists_join.mp ⟨p, hp, rfl⟩
    obtain ⟨q, hq, hfst⟩ := exists_join.mpr ⟨hR, (hmem _).mp hG⟩
    exact ⟨q, hq, congrArg h hfst⟩
  · rintro ⟨p, hp, rfl⟩
    obtain ⟨hR, hS⟩ := exists_join.mp ⟨p, hp, rfl⟩
    obtain ⟨q, hq, hfst⟩ := exists_join.mpr ⟨hR, (hmem _).mpr hS⟩
    exact ⟨q, hq, congrArg h hfst⟩

theorem map_fst_groupBy (f : α → κ) (φ : Multiset α → ν) (R : Multiset α) :
    (groupBy f φ R).map Prod.fst = (R.map f).dedup := by
  rw [groupBy, Multiset.map_map]
  exact Multiset.map_id _

/-- Relations with the same keys, and with the same value for each of them. -/
theorem groupBy_ext {f' : γ → κ} {φ' : Multiset γ → ν}
    (hkeys : (R.map f).dedup = (G.map f').dedup)
    (hvalues : ∀ k ∈ R.map f, φ (select f k R) = φ' (select f' k G)) :
    groupBy f φ R = groupBy f' φ' G := by
  rw [groupBy, groupBy, ← hkeys]
  refine Multiset.map_congr rfl fun k hk => ?_
  rw [hvalues k (Multiset.mem_dedup.mp hk)]

/-- A relation that has one row for every key. -/
theorem map_eq_groupBy {v : γ → ν} (hkeys : G.map g' = (R.map f).dedup)
    (hvalues : ∀ c ∈ G, v c = φ (select f (g' c) R)) :
    (G.map fun c => (g' c, v c)) = groupBy f φ R := by
  rw [groupBy, ← hkeys, Multiset.map_map]
  exact Multiset.map_congr rfl fun c hc => congrArg _ (hvalues c hc)

theorem keys_of_groupBy {v : γ → ν} (hG : (G.map fun c => (g' c, v c)) = groupBy f φ R) :
    G.map g' = (R.map f).dedup := by
  rw [← map_fst_groupBy f φ R, ← hG, Multiset.map_map]
  rfl

theorem value_of_groupBy {v : γ → ν} (hG : (G.map fun c => (g' c, v c)) = groupBy f φ R) {c : γ}
    (hc : c ∈ G) : v c = φ (select f (g' c) R) := by
  have hmem : (g' c, v c) ∈ groupBy f φ R := hG ▸ Multiset.mem_map_of_mem (fun c => (g' c, v c)) hc
  obtain ⟨k, -, heq⟩ := Multiset.mem_map.mp hmem
  obtain ⟨rfl, hv⟩ := Prod.mk.inj heq
  exact hv.symm

/-- A row of the groups stands for some row with its key. -/
theorem exists_of_mem_groups {v : γ → ν} (hG : (G.map fun c => (g' c, v c)) = groupBy f φ R) {c : γ}
    (hc : c ∈ G) : ∃ a ∈ R, f a = g' c := by
  have hmem : g' c ∈ G.map g' := Multiset.mem_map_of_mem g' hc
  rw [keys_of_groupBy hG, Multiset.mem_dedup, Multiset.mem_map] at hmem
  exact hmem

theorem exists_group {v : γ → ν} (hG : (G.map fun c => (g' c, v c)) = groupBy f φ R) {a : α}
    (ha : a ∈ R) : ∃ c ∈ G, g' c = f a ∧ v c = φ (select f (f a) R) := by
  have hmem : f a ∈ G.map g' :=
    keys_of_groupBy hG ▸ Multiset.mem_dedup.mpr (Multiset.mem_map_of_mem f ha)
  obtain ⟨c, hc, hkey⟩ := Multiset.mem_map.mp hmem
  exact ⟨c, hc, hkey, hkey ▸ value_of_groupBy hG hc⟩

/-- Groups that are selected by their value. -/
theorem map_filter_groups {v : γ → ν} (hG : (G.map fun c => (g' c, v c)) = groupBy f φ R)
    (P : κ → ν → Prop) [∀ k x, Decidable (P k x)] :
    ((G.filter fun c => P (g' c) (v c)).map g') =
      (R.map f).dedup.filter fun k => P k (φ (select f k R)) := by
  have hfilter := congrArg (fun M => (M.filter fun p => P p.1 p.2).map Prod.fst) hG
  simp only [groupBy, Multiset.filter_map, Multiset.map_map, Function.comp_def] at hfilter
  rw [Multiset.map_id'] at hfilter
  exact hfilter

theorem map_groupBy {μ : Type*} (e : ν → μ) (f : α → κ) (φ : Multiset α → ν) (R : Multiset α) :
    ((groupBy f φ R).map fun p => (p.1, e p.2)) = groupBy f (fun M => e (φ M)) R := by
  rw [groupBy, groupBy, Multiset.map_map]
  rfl

theorem card_select (k : κ) : Multiset.card (select f k R) = (R.map f).count k := by
  rw [Multiset.count_map, select]
  exact congrArg _ (Multiset.filter_congr fun a _ => eq_comm)

theorem select_map (e : γ → α) (k : κ) :
    select f k (G.map e) = (select (fun c => f (e c)) k G).map e := by
  rw [select, Multiset.filter_map]
  rfl

theorem groupBy_map (e : γ → α) :
    groupBy f φ (G.map e) = groupBy (fun c => f (e c)) (fun M => φ (M.map e)) G := by
  refine groupBy_ext ?_ fun k _ => ?_
  · rw [Multiset.map_map]
    rfl
  · rw [select_map]

/-- With distinct keys, the only row with the key of `c`. -/
theorem select_eq_singleton (hnodup : (G.map g').Nodup) {c : γ} (hc : c ∈ G) :
    select g' (g' c) G = {c} := by
  obtain ⟨G', rfl⟩ := Multiset.exists_cons_of_mem hc
  rw [Multiset.map_cons, Multiset.nodup_cons] at hnodup
  have hnone : select g' (g' c) G' = 0 :=
    Multiset.filter_eq_nil.mpr fun c' hc' heq => hnodup.1 (heq ▸ Multiset.mem_map_of_mem g' hc')
  rw [select, Multiset.filter_cons_of_pos (p := fun a => g' a = g' c) _ rfl, ← select, hnone]
  rfl

theorem select_eq_zero (hk : k ∉ G.map g') : select g' k G = 0 :=
  Multiset.filter_eq_nil.mpr fun _ hc heq => hk (heq ▸ Multiset.mem_map_of_mem g' hc)

/-- A sum over a relation that has one row for every group, with the sum of the group. -/
theorem sum_select_of_groups [AddCommMonoid ν] {v : γ → ν} {φ : β → ν}
    (hkeys : G.map g' = (S.map g).dedup)
    (hvalues : ∀ c ∈ G, v c = ((select g (g' c) S).map φ).sum) (k : κ) :
    ((select g' k G).map v).sum = ((select g k S).map φ).sum := by
  by_cases hk : k ∈ G.map g'
  · obtain ⟨c, hc, rfl⟩ := Multiset.mem_map.mp hk
    rw [select_eq_singleton (hkeys ▸ Multiset.nodup_dedup _) hc, Multiset.map_singleton,
      Multiset.sum_singleton, hvalues c hc]
  · have hnot : k ∉ S.map g := fun hmem => hk (hkeys ▸ Multiset.mem_dedup.mpr hmem)
    rw [select_eq_zero hk, select_eq_zero hnot, Multiset.map_zero, Multiset.map_zero]

/-- The groups of the right side may be summed up before the join. -/
theorem groupBy_join_of_groups [AddCommMonoid ν] (h : α → ι) {v : α → γ → ν} {φ : α → β → ν}
    (hkeys : G.map g' = (S.map g).dedup)
    (hvalues : ∀ a ∈ R, ∀ c ∈ G, v a c = ((select g (g' c) S).map (φ a)).sum) :
    groupBy (fun p => h p.1) (fun M => (M.map fun p => v p.1 p.2).sum) (join f g' R G) =
      groupBy (fun p => h p.1) (fun M => (M.map fun p => φ p.1 p.2).sum) (join f g R S) := by
  have hdedup : (G.map g').dedup = (S.map g).dedup := by rw [hkeys, Multiset.dedup_idem]
  refine groupBy_ext (dedup_keys_join h hdedup) fun i _ => ?_
  rw [select_join, select_join, sum_join, sum_join]
  refine congrArg _ (Multiset.map_congr rfl fun a ha => ?_)
  exact sum_select_of_groups hkeys (hvalues a (mem_select.mp ha).1) (f a)

/-- The same for products with a value of the left side. -/
theorem groupBy_join_mul [NonUnitalNonAssocSemiring ν] (h : α → ι) (u : α → ν) {v : γ → ν} {φ : β → ν}
    (hG : (G.map fun c => (g' c, v c)) = groupBy g (fun M => (M.map φ).sum) S) :
    groupBy (fun p => h p.1) (fun M => (M.map fun p => u p.1 * v p.2).sum) (join f g' R G) =
      groupBy (fun p => h p.1) (fun M => (M.map fun p => u p.1 * φ p.2).sum) (join f g R S) := by
  refine groupBy_join_of_groups (v := fun a c => u a * v c) (φ := fun a b => u a * φ b) h
    (keys_of_groupBy hG) fun a _ c hc => ?_
  rw [Multiset.sum_map_mul_left, value_of_groupBy hG hc]

/-- The left side of a join, where every row has at most one partner. -/
theorem map_fst_join (hnodup : (S.map g).Nodup) :
    (join f g R S).map Prod.fst = R.filter fun a => f a ∈ S.map g := by
  rw [join_eq_bind, Multiset.map_bind]
  have hrow : ∀ a, ((select g (f a) S).map (Prod.mk a)).map Prod.fst =
      if f a ∈ S.map g then {a} else 0 := by
    intro a
    split_ifs with hmem
    · obtain ⟨b, hb, heq⟩ := Multiset.mem_map.mp hmem
      rw [← heq, select_eq_singleton hnodup hb]
      rfl
    · rw [select_eq_zero hmem]
      rfl
  simp only [hrow]
  exact (Multiset.filter_eq_bind R _).symm

end CryptDough.Relational
