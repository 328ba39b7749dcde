import CryptDough.Quicksort
import CryptDough.RadixSort

/-! Sorting a table by several columns: the permutation is assembled from the last key to the first
and then applied to every column. -/

namespace CryptDough

open StableSort ElementwisePermutation

variable {w n : ℕ}

inductive SortingProtocol
  | network | quicksort | radixsort | bitonicMerge | bitonicSort
deriving DecidableEq

/-- A column to sort by; `singleBit` promises that it holds zeros and ones. -/
structure SortColumn (w n : ℕ) where
  column : Vec w n
  order : SortOrder
  singleBit : Bool

/-- The sorting permutation of one column. -/
def sortSub (numParties : ℕ) (protocol : SortingProtocol) (c : SortColumn w n) :
    Draws (Vec w n × ElementwisePermutation n) :=
  if c.singleBit then radixSort numParties c.column c.order 1
  else if protocol = .quicksort then quicksort numParties c.column c.order
  else if protocol = .radixsort then radixSort numParties c.column c.order w
  else failure

/-- The composed permutation of the columns from the last one up to the head of the list. A column is
sorted in the order the later ones left it in, and then put back. -/
def sortPermutation (numParties : ℕ) (protocol : SortingProtocol) :
    List (SortColumn w n) → Draws (ElementwisePermutation n)
  | [] => failure
  | [c] => do
      let (_, permutation) ← sortSub numParties protocol c
      pure permutation
  | c :: columns => do
      let sortPermutation ← sortPermutation numParties protocol columns
      let current ← obliviousApplyElementwisePerm c.column sortPermutation
      let (_, nextPermutation) ← sortSub numParties protocol { c with column := current }
      composePermutations sortPermutation nextPermutation

/-- The sort of the protocols that extract a permutation. -/
def tableSort (numParties : ℕ) (protocol : SortingProtocol) (columns : List (SortColumn w n))
    (dataA dataB : List (Vec w n)) :
    Draws (List (Vec w n) × List (Vec w n) × List (Vec w n)) := do
  let sortPermutation ← sortPermutation numParties protocol columns
  let keys ← columns.mapM fun c => obliviousApplyElementwisePerm c.column sortPermutation
  let dataA ← dataA.mapM fun c => obliviousApplyElementwisePerm c sortPermutation
  let dataB ← dataB.mapM fun c => obliviousApplyElementwisePerm c sortPermutation
  pure (keys, dataA, dataB)

/-- The lexicographic order of the rows. -/
def specLt : List (SortColumn w n) → Fin n → Fin n → Prop
  | [] => fun _ _ => False
  | c :: columns => lexRel (keyLt c.order c.column) (specLt columns)

def SingleBits (columns : List (SortColumn w n)) : Prop :=
  ∀ c ∈ columns, c.singleBit = true → ∀ k, c.column k = 0 ∨ c.column k = 1

theorem returns_sortSub (hn0 : 0 < n) (hn : n < 2 ^ 31) (hw : ShareWidth w) (numParties : ℕ)
    {protocol : SortingProtocol} (hprotocol : protocol = .quicksort ∨ protocol = .radixsort)
    (c : SortColumn w n) (hbit : c.singleBit = true → ∀ k, c.column k = 0 ∨ c.column k = 1) :
    Draws.Returns (sortSub numParties protocol c) fun r =>
      ∃ τ, StableSorts (keyLt c.order c.column) τ ∧ r = (rearrange τ c.column, ofPerm τ) := by
  rw [sortSub]
  cases hsingle : c.singleBit with
  | true =>
      rw [if_pos rfl]
      exact returns_radixSort_bit hn hw.one_lt hw.padWidth_le numParties c.column (hbit hsingle) c.order
  | false =>
      rw [if_neg Bool.false_ne_true]
      rcases hprotocol with rfl | rfl
      · rw [if_pos rfl]
        exact returns_quicksort hn0 hn hw.pos hw.padWidth_le numParties c.column c.order
      · rw [if_neg (by decide), if_pos rfl]
        exact returns_radixSort hn hw.pos hw.padWidth_le numParties c.column c.order

theorem returns_sortPermutation (hn0 : 0 < n) (hn : n < 2 ^ 31) (hw : ShareWidth w)
    (numParties : ℕ) {protocol : SortingProtocol}
    (hprotocol : protocol = .quicksort ∨ protocol = .radixsort) {columns : List (SortColumn w n)}
    (hne : columns ≠ []) (hbits : SingleBits columns) :
    Draws.Returns (sortPermutation numParties protocol columns) fun p =>
      ∃ τ, StableSorts (specLt columns) τ ∧ p = ofPerm τ := by
  induction columns with
  | nil => exact absurd rfl hne
  | cons c columns ih =>
      cases columns with
      | nil =>
          rw [sortPermutation]
          refine (returns_sortSub hn0 hn hw numParties hprotocol c
            (hbits c List.mem_cons_self)).bind fun r hr => ?_
          obtain ⟨τ, hτ, rfl⟩ := hr
          refine Draws.Returns.pure ⟨τ, hτ.congr fun i j => ?_, rfl⟩
          simp [specLt, lexRel]
      | cons d columns =>
          rw [sortPermutation]
          · refine (ih (List.cons_ne_nil _ _) fun e he =>
              hbits e (List.mem_cons_of_mem c he)).bind fun p hp => ?_
            obtain ⟨σ, hσ, rfl⟩ := hp
            refine (returns_obliviousApply hn c.column σ).bind fun current hcurrent => ?_
            subst hcurrent
            refine (returns_sortSub hn0 hn hw numParties hprotocol
              { c with column := rearrange σ c.column } fun hs k =>
                hbits c List.mem_cons_self hs (σ.symm k)).bind fun r hr => ?_
            obtain ⟨τ, hτ, rfl⟩ := hr
            refine (returns_composePermutations hn σ τ).mono fun p hp => ?_
            exact ⟨σ.trans τ, hσ.trans hτ, hp⟩
          · intro hnil
            exact List.cons_ne_nil _ _ hnil

theorem returns_applyAll {α : Type} (hn : n < 2 ^ 31) (τ : Equiv.Perm (Fin n)) (column : α → Vec w n)
    (l : List α) :
    Draws.Returns (l.mapM fun c => obliviousApplyElementwisePerm (column c) (ofPerm τ))
      (· = l.map fun c => rearrange τ (column c)) := by
  induction l with
  | nil => exact Draws.Returns.pure rfl
  | cons c l ih =>
      rw [List.mapM_cons]
      refine (returns_obliviousApply hn (column c) τ).bind fun y hy => ih.bind fun ys hys => ?_
      exact Draws.Returns.pure (by rw [hy, hys, List.map_cons])

theorem returns_tableSort (hn0 : 0 < n) (hn : n < 2 ^ 31) (hw : ShareWidth w) (numParties : ℕ)
    {protocol : SortingProtocol} (hprotocol : protocol = .quicksort ∨ protocol = .radixsort)
    {columns : List (SortColumn w n)} (hne : columns ≠ []) (hbits : SingleBits columns)
    (dataA dataB : List (Vec w n)) :
    Draws.Returns (tableSort numParties protocol columns dataA dataB) fun r =>
      ∃ τ, StableSorts (specLt columns) τ ∧
        r = (columns.map fun c => rearrange τ c.column, dataA.map (rearrange τ),
          dataB.map (rearrange τ)) := by
  refine Draws.Returns.bind
    (returns_sortPermutation hn0 hn hw numParties hprotocol hne hbits) fun p hp => ?_
  obtain ⟨τ, hτ, rfl⟩ := hp
  refine Draws.Returns.bind (returns_applyAll hn τ SortColumn.column columns) fun keys hkeys => ?_
  refine Draws.Returns.bind (returns_applyAll hn τ id dataA) fun a ha => ?_
  refine Draws.Returns.bind (returns_applyAll hn τ id dataB) fun b hb => ?_
  refine Draws.Returns.pure ⟨τ, hτ, ?_⟩
  rw [hkeys, ha, hb]
  rfl

/-- Every sort of a column starts with a shuffle. -/
theorem lt_of_returns_sortSub (hw : ShareWidth w) {numParties : ℕ} {protocol : SortingProtocol}
    (hprotocol : protocol = .quicksort ∨ protocol = .radixsort) {c : SortColumn w n}
    {post : Vec w n × ElementwisePermutation n → Prop}
    (hreturns : Draws.Returns (sortSub numParties protocol c) post) : n < 2 ^ 31 := by
  rw [sortSub] at hreturns
  cases hsingle : c.singleBit with
  | true =>
      rw [hsingle, if_pos rfl] at hreturns
      exact RadixSort.lt_of_returns_radixSort one_pos hreturns
  | false =>
      rw [hsingle, if_neg Bool.false_ne_true] at hreturns
      rcases hprotocol with rfl | rfl
      · rw [if_pos rfl, quicksort] at hreturns
        exact hreturns.of_bind.of_bind.lt_of_getNext
      · rw [if_neg (by decide), if_pos rfl] at hreturns
        exact RadixSort.lt_of_returns_radixSort hw.pos hreturns

theorem lt_of_returns_sortPermutation (hw : ShareWidth w) {numParties : ℕ}
    {protocol : SortingProtocol} (hprotocol : protocol = .quicksort ∨ protocol = .radixsort)
    {columns : List (SortColumn w n)} (hne : columns ≠ [])
    {post : ElementwisePermutation n → Prop}
    (hreturns : Draws.Returns (sortPermutation numParties protocol columns) post) : n < 2 ^ 31 := by
  induction columns generalizing post with
  | nil => exact absurd rfl hne
  | cons c columns ih =>
      cases columns with
      | nil =>
          rw [sortPermutation] at hreturns
          exact lt_of_returns_sortSub hw hprotocol hreturns.of_bind
      | cons d columns =>
          rw [sortPermutation] at hreturns
          · exact ih (List.cons_ne_nil _ _) hreturns.of_bind
          · exact List.cons_ne_nil _ _

/-- Two rows that agree on the first key and are exchanged by the second. -/
def exampleColumns : List (SortColumn 8 2) :=
  [⟨![1, 1], .desc, true⟩, ⟨![5, -128], .asc, false⟩]

theorem exampleColumns_singleBits : SingleBits exampleColumns := by
  unfold SingleBits
  decide

end CryptDough
