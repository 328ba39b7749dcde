import CryptDough.ThresholdWindow

/-! Session windows of tables: what they leave in the output column, against the sessions of every
key. The tables are sorted by time before they are sorted by key, so the rows of a key need not be
adjacent. -/

namespace CryptDough

open Opened StableSort

variable {w : ℕ}

namespace Draws

variable {α β : Type}

theorem bind_eq_some_iff {prog : Draws α} {next : α → Draws β} {s : Drawn} {r : β × Drawn} :
    (prog >>= next) s = some r ↔ ∃ v s', prog s = some (v, s') ∧ next v s' = some r := by
  change (prog s >>= fun r => next r.1 r.2) = some r ↔ _
  cases prog s with
  | none => simp
  | some q =>
      obtain ⟨v, s'⟩ := q
      simp [and_assoc]

theorem of_guard {p : Prop} [Decidable p] {s : Drawn} {r : Unit × Drawn}
    (hrun : (guard p : Draws Unit) s = some r) : p := by
  by_contra hnot
  rw [guard, if_neg hnot] at hrun
  cases hrun

end Draws

namespace EncodedTable

variable {t : EncodedTable w} {keys : List String} {timeA timeB functionRes windowId : String}
  {gap threshold : BitVec w} {numParties : ℕ} {protocol : SortingProtocol}

/-- Consecutive rows of one key are in one session if they are at most the gap apart. -/
def GapLinked (t : EncodedTable w) (timeB : String) (gap : BitVec w) (a b : ℕ) : Prop :=
  (t.col timeB b).toInt ≤ (t.col timeB a).toInt + gap.toInt

/-- Consecutive rows of one key are in one session if both are above the threshold. -/
def AboveLinked (t : EncodedTable w) (functionRes : String) (threshold : BitVec w) (a b : ℕ) : Prop :=
  t.Above functionRes threshold a ∧ t.Above functionRes threshold b

/-- Every row has the timestamp of the first row of its session. -/
def GapSessions (t : EncodedTable w) (keys : List String) (timeB windowId : String)
    (gap : BitVec w) : Prop :=
  ∀ i, i < t.rows → ∀ u, t.FirstOfRun keys (t.GapLinked timeB gap) u i →
    t.col windowId i = t.col timeB u

/-- Every row above the threshold has the timestamp of the first row of its session. -/
def ThresholdSessions (t : EncodedTable w) (keys : List String) (functionRes timeB windowId : String)
    (threshold : BitVec w) : Prop :=
  ∀ i, i < t.rows → t.Above functionRes threshold i → ∀ u,
    t.FirstOfRun keys (t.AboveLinked functionRes threshold) u i → t.col windowId i = t.col timeB u

/-- For every row, the latest mark among the rows the network combines into it is the first row of its
session. -/
def GapDelivers (t : EncodedTable w) (keys : List String) (timeA timeB : String) (gap : BitVec w) :
    Prop :=
  ∀ i, i < t.rows → ∀ u, t.FirstOfRun keys (t.GapLinked timeB gap) u i →
    Leaves (t.gapRows keys i) (t.MarkedGap timeA gap) (t.col timeB) u

/-- For every row above the threshold, the latest mark among the rows the network combines into it is
the first row of its session. -/
def ThresholdDelivers (t : EncodedTable w) (keys : List String) (functionRes timeB windowId : String)
    (threshold : BitVec w) : Prop :=
  ∀ i, i < t.rows → t.Above functionRes threshold i → ∀ u,
    t.FirstOfRun keys (t.AboveLinked functionRes threshold) u i →
      Leaves (t.aboveRows keys functionRes threshold i)
        (t.StartsAbove functionRes windowId threshold) (t.col timeB) u

/-- The rows of a key ascend in time. -/
def KeysAscend (t : EncodedTable w) (keys : List String) (timeB : String) : Prop :=
  ∀ u i, u ≤ i → i < t.rows → keyOf keys (t.row u) = keyOf keys (t.row i) →
    (t.col timeB u).toInt ≤ (t.col timeB i).toInt

theorem SortedBy.keysAscend (hsorted : t.SortedBy (keys ++ [timeB])) : t.KeysAscend keys timeB :=
  fun u i hui hi heq => orderOf_append_singleton (hsorted u i hui hi) heq

theorem SortedBy.keysAscend_of_cons {names : List String} (hsorted : t.SortedBy (timeB :: names)) :
    t.KeysAscend keys timeB := by
  intro u i hui hi _
  rcases (orderOf_cons_le timeB names _ _).mp (hsorted u i hui hi) with hlt | ⟨heq, _⟩
  · exact hlt.le
  · exact heq.le

theorem AgreesExcept.keyOf_eq {t' : EncodedTable w} {written : List String}
    (hagrees : t.AgreesExcept t' written) (hkeys : ∀ k ∈ keys, k ∉ written) (i : ℕ) :
    keyOf keys (t'.row i) = keyOf keys (t.row i) :=
  List.map_congr_left fun k hk => congrFun (hagrees.2 k (hkeys k hk)) i

theorem firstOfRun_congr {t' : EncodedTable w} {linked linked' : ℕ → ℕ → Prop}
    (hkey : ∀ i, keyOf keys (t'.row i) = keyOf keys (t.row i))
    (hlinked : ∀ a b, linked' a b ↔ linked a b) (u i : ℕ) :
    t'.FirstOfRun keys linked' u i ↔ t.FirstOfRun keys linked u i := by
  unfold FirstOfRun NextOfKey
  simp only [hkey, hlinked]

theorem gapSessions_iff {t' : EncodedTable w} (hcolumns : WindowColumns t keys timeB windowId)
    (hascend : t.KeysAscend keys timeB) (hagrees : t.AgreesExcept t' [windowId])
    (hvalue : ∀ i, i < t.rows → ∀ f, (t.col timeB f).toInt ≤ (t.col timeB i).toInt →
      (t'.col windowId i = t.col timeB f ↔
        Leaves (t.gapRows keys i) (t.MarkedGap timeA gap) (t.col timeB) f)) :
    t'.GapSessions keys timeB windowId gap ↔ t.GapDelivers keys timeA timeB gap := by
  obtain ⟨_, hkeys, hne, _⟩ := hcolumns.window
  have htime : t'.col timeB = t.col timeB :=
    hagrees.2 timeB fun hmem => hne (List.mem_singleton.mp hmem).symm
  have hkey := hagrees.keyOf_eq fun k hk hmem => hkeys (List.mem_singleton.mp hmem ▸ hk)
  have hlinked : ∀ a b, t'.GapLinked timeB gap a b ↔ t.GapLinked timeB gap a b := by
    intro a b
    rw [GapLinked, GapLinked, htime]
  unfold GapSessions GapDelivers
  rw [hagrees.1, htime]
  refine forall₂_congr fun i hi => forall_congr' fun u => ?_
  rw [firstOfRun_congr hkey hlinked]
  exact forall_congr' fun hfirst => hvalue i hi u (hascend u i hfirst.1 hi hfirst.2.1)

theorem thresholdSessions_iff {t' : EncodedTable w} (hcolumns : WindowColumns t keys timeB windowId)
    (hfunction : functionRes ∉ [windowId, encTableValid]) (hascend : t.KeysAscend keys timeB)
    (hagrees : t.AgreesExcept t' [windowId, encTableValid])
    (hvalue : ∀ i, i < t.rows → ∀ f, (t.col timeB f).toInt ≤ (t.col timeB i).toInt →
      (t'.col windowId i = t.col timeB f ↔
        Leaves (t.aboveRows keys functionRes threshold i)
          (t.StartsAbove functionRes windowId threshold) (t.col timeB) f)) :
    t'.ThresholdSessions keys functionRes timeB windowId threshold ↔
      t.ThresholdDelivers keys functionRes timeB windowId threshold := by
  obtain ⟨_, hkeys, hne, _⟩ := hcolumns.window
  have hwritten : ∀ c ∈ timeB :: keys, c ∉ [windowId, encTableValid] := by
    intro c hc hmem
    rcases List.mem_cons.mp hmem with rfl | hmem
    · exact hcolumns.written (List.mem_cons_of_mem _ hc)
    · exact hcolumns.valid (List.mem_singleton.mp hmem ▸ hc)
  have htime : t'.col timeB = t.col timeB := hagrees.2 timeB (hwritten timeB List.mem_cons_self)
  have hkey := hagrees.keyOf_eq fun k hk => hwritten k (List.mem_cons_of_mem _ hk)
  have habove : ∀ a, t'.Above functionRes threshold a ↔ t.Above functionRes threshold a := by
    intro a
    rw [Above, Above, hagrees.2 functionRes hfunction]
  have hlinked : ∀ a b, t'.AboveLinked functionRes threshold a b ↔
      t.AboveLinked functionRes threshold a b := fun a b => and_congr (habove a) (habove b)
  unfold ThresholdSessions ThresholdDelivers
  rw [hagrees.1, htime]
  refine forall₂_congr fun i hi => imp_congr (habove i) (forall_congr' fun u => ?_)
  rw [firstOfRun_congr hkey hlinked]
  exact forall_congr' fun hfirst => hvalue i hi u (hascend u i hfirst.1 hi hfirst.2.1)

/-! A call on a number of rows that the network does not accept returns nothing. -/

theorem rows_of_sort {spec : List (String × SortOrder)} {s : Drawn}
    {r : EncodedTable w × Drawn} (hrun : sort numParties protocol t spec s = some r) :
    r.1.rows = t.rows := by
  rw [sort] at hrun
  obtain ⟨_, _, _, hrun⟩ := Draws.bind_eq_some_iff.mp hrun
  obtain ⟨_, _, _, hrun⟩ := Draws.bind_eq_some_iff.mp hrun
  obtain ⟨_, _, _, hrun⟩ := Draws.bind_eq_some_iff.mp hrun
  cases hrun
  exact assignAll_rows _ _

theorem size_of_gapSessionWindow {s : Drawn} {r : EncodedTable w × Drawn}
    (hrun : gapSessionWindow numParties protocol t keys timeA timeB windowId gap false s = some r) :
    NetworkSize t.rows := by
  rw [gapSessionWindow, if_neg Bool.false_ne_true, pure_bind] at hrun
  obtain ⟨_, _, _, hrun⟩ := Draws.bind_eq_some_iff.mp hrun
  obtain ⟨_, _, _, hrun⟩ := Draws.bind_eq_some_iff.mp hrun
  obtain ⟨_, _, hguard, _⟩ := Draws.bind_eq_some_iff.mp hrun
  exact Draws.of_guard hguard

theorem size_of_thresholdSessionWindow {markValid : Bool} {s : Drawn}
    {r : EncodedTable w × Drawn}
    (hrun : thresholdSessionWindow numParties protocol t keys functionRes timeB windowId threshold
      false markValid s = some r) : NetworkSize t.rows := by
  rw [thresholdSessionWindow, if_neg Bool.false_ne_true, pure_bind] at hrun
  obtain ⟨_, _, _, hrun⟩ := Draws.bind_eq_some_iff.mp hrun
  obtain ⟨_, _, _, hrun⟩ := Draws.bind_eq_some_iff.mp hrun
  obtain ⟨_, _, hguard, _⟩ := Draws.bind_eq_some_iff.mp hrun
  exact Draws.of_guard hguard

theorem size_of_sort_bind {spec : List (String × SortOrder)}
    {next : EncodedTable w → Draws (EncodedTable w)} {post : EncodedTable w → Prop}
    (hnext : ∀ t s r, next t s = some r → NetworkSize t.rows)
    (hreturns : Draws.Returns (sort numParties protocol t spec >>= next) post) :
    NetworkSize t.rows := by
  obtain ⟨_, _, hrun, _⟩ := hreturns default
  obtain ⟨t', s', hsort, hrun⟩ := Draws.bind_eq_some_iff.mp hrun
  exact rows_of_sort hsort ▸ hnext t' s' _ hrun

/-- Without a sort, a threshold session window gives every row above the threshold the first timestamp
of its session exactly if that is the latest mark among the rows the network combines into it. -/
theorem thresholdSessionWindow_sessions_iff (hcolumns : WindowColumns t keys timeB windowId)
    (hfunction : functionRes ∈ t.schema ∧ isBShared functionRes = true)
    (hfunction_ne : functionRes ∉ [windowId, encTableValid]) (hsorted : t.SortedBy (keys ++ [timeB]))
    (markValid : Bool) :
    Draws.Returns (thresholdSessionWindow numParties protocol t keys functionRes timeB windowId
        threshold false markValid)
      (fun t' => t.AgreesExcept t' [windowId, encTableValid] ∧
        t'.ThresholdSessions keys functionRes timeB windowId threshold) ↔
      NetworkSize t.rows ∧ t.ThresholdDelivers keys functionRes timeB windowId threshold := by
  have hascend := hsorted.keysAscend
  constructor
  · intro hreturns
    obtain ⟨_, _, hrun, _⟩ := hreturns default
    have hsize := size_of_thresholdSessionWindow hrun
    refine ⟨hsize, ?_⟩
    by_contra hnot
    refine not_returns ((returns_thresholdSessionWindow hcolumns hfunction hsize markValid).mono
      fun t' ht' hpost => hnot ?_) hreturns
    exact (thresholdSessions_iff hcolumns hfunction_ne hascend ht'.1 ht'.2).mp hpost.2
  · rintro ⟨hsize, hdelivers⟩
    refine (returns_thresholdSessionWindow hcolumns hfunction hsize markValid).mono fun t' ht' => ?_
    exact ⟨ht'.1, (thresholdSessions_iff hcolumns hfunction_ne hascend ht'.1 ht'.2).mpr hdelivers⟩

/-- The columns a session window sorts by: time first. -/
def windowOrder (keys : List String) (timeB : String) : List String :=
  timeB :: keys.filter (· ≠ timeB)

/-- What the sort of a session window relies on. -/
structure SortableBy (t : EncodedTable w) (keys : List String) (timeB : String)
    (protocol : SortingProtocol) : Prop where
  keys_nodup : keys.Nodup
  joinId_bit : encTableJoinId ∈ timeB :: keys → t.SingleBit encTableJoinId
  protocol_extracts : protocol = .quicksort ∨ protocol = .radixsort

/-- The permutation that sorts the rows by time and keys, rows that agree on all of them in their
order. -/
def SortsWindow (t : EncodedTable w) (keys : List String) (timeB : String)
    (τ : Equiv.Perm (Fin t.rows)) : Prop :=
  StableSorts (specLt (t.sortColumns (ascending (windowOrder keys timeB)))) τ

theorem mem_windowOrder {c : String} (hc : c ∈ windowOrder keys timeB) : c ∈ timeB :: keys := by
  rcases List.mem_cons.mp hc with rfl | hc
  · exact List.mem_cons_self
  · exact List.mem_cons_of_mem _ (List.mem_of_mem_filter hc)

theorem rows_lt_of_networkSize {n : ℕ} (hsize : NetworkSize n) : n < 2 ^ 31 := by
  obtain ⟨hlt, hpow⟩ := of_decide_eq_true hsize.1
  rw [← hpow, Nat.one_shiftLeft]
  exact Nat.pow_lt_pow_right (by decide) hlt

theorem returns_sort_window (hcolumns : WindowColumns t keys timeB windowId)
    (hsort : SortableBy t keys timeB protocol) (hsize : NetworkSize t.rows) :
    Draws.Returns (sort numParties protocol t (ascending (windowOrder keys timeB))) fun s =>
      ∃ τ, t.SortsWindow keys timeB τ ∧ s = t.rearranged τ := by
  have hnodup : (windowOrder keys timeB).Nodup := by
    refine List.nodup_cons.mpr ⟨fun hmem => ?_, hsort.keys_nodup.filter _⟩
    exact (of_decide_eq_true (List.mem_filter.mp hmem).2) rfl
  have hread : ∀ c ∈ windowOrder keys timeB, c ∈ t.schema ∧ isBShared c = true := by
    intro c hc
    apply hcolumns.columns c
    rcases List.mem_cons.mp (mem_windowOrder hc) with rfl | hc
    · simp
    · exact List.mem_append_left _ hc
  have hfst : ∀ s ∈ ascending (windowOrder keys timeB), s.1 ∈ windowOrder keys timeB := by
    intro s hs
    rw [← ascending_fst (windowOrder keys timeB)]
    exact List.mem_map_of_mem hs
  refine returns_sort t (Nat.zero_lt_of_lt hsize.2) (rows_lt_of_networkSize hsize) hcolumns.width
    hsort.protocol_extracts (by simp [ascending, windowOrder])
    ((ascending_fst (windowOrder keys timeB)).symm ▸ hnodup) (fun s hs => (hread _ (hfst s hs)).1)
    (fun s hs => (hread _ (hfst s hs)).2) fun s hs hname => ?_
  have hmem := mem_windowOrder (hfst s hs)
  rcases hname with hvalid | hid
  · exact absurd (hvalid ▸ hmem) hcolumns.valid
  · rw [hid] at hmem ⊢
    exact hsort.joinId_bit hmem

theorem WindowColumns.rearranged (hcolumns : WindowColumns t keys timeB windowId)
    (τ : Equiv.Perm (Fin t.rows)) : WindowColumns (t.rearranged τ) keys timeB windowId where
  width := hcolumns.width
  columns := hcolumns.columns
  written := hcolumns.written
  valid := hcolumns.valid

/-- The table has the rows of `t`, but for the columns `written`, and the rows of a key in the order
of their times. -/
structure Arranges (t t' : EncodedTable w) (keys : List String) (timeB : String)
    (written : List String) : Prop where
  rows : t'.rows = t.rows
  allRows : t'.allRows.map (fun ρ c => if c ∈ written then 0 else ρ c) =
    t.allRows.map fun ρ c => if c ∈ written then 0 else ρ c
  ascend : t'.KeysAscend keys timeB

theorem AgreesExcept.arranges {t' : EncodedTable w} {written : List String}
    {τ : Equiv.Perm (Fin t.rows)} (hτ : t.SortsWindow keys timeB τ)
    (hagrees : (t.rearranged τ).AgreesExcept t' written) (hread : ∀ c ∈ timeB :: keys, c ∉ written) :
    t.Arranges t' keys timeB written where
  rows := hagrees.1
  allRows := by
    rw [← allRows_rearranged t τ, allRows, allRows, hagrees.1, Multiset.map_map, Multiset.map_map]
    refine Multiset.map_congr rfl fun i _ => ?_
    funext c
    change (if c ∈ written then 0 else t'.col c i) = if c ∈ written then 0 else _
    by_cases hc : c ∈ written
    · rw [if_pos hc, if_pos hc]
    · rw [if_neg hc, if_neg hc, hagrees.2 c hc]
      rfl
  ascend := by
    have htime : t'.col timeB = (t.rearranged τ).col timeB :=
      hagrees.2 timeB (hread timeB List.mem_cons_self)
    have hkey := hagrees.keyOf_eq fun k hk => hread k (List.mem_cons_of_mem _ hk)
    have hsorted := sortedBy_rearranged t hτ
    intro u i hui hi heq
    rw [hagrees.1] at hi
    rw [hkey, hkey] at heq
    rw [htime]
    exact hsorted.keysAscend_of_cons u i hui hi heq

theorem gapSessionWindow_sorted :
    gapSessionWindow numParties protocol t keys timeA timeB windowId gap true =
      sort numParties protocol t (ascending (windowOrder keys timeB)) >>= fun s =>
        gapSessionWindow numParties protocol s keys timeA timeB windowId gap false := by
  simp only [gapSessionWindow, if_true, Bool.false_eq_true, if_false, pure_bind, windowOrder]

theorem thresholdSessionWindow_sorted {markValid : Bool} :
    thresholdSessionWindow numParties protocol t keys functionRes timeB windowId threshold true
        markValid =
      sort numParties protocol t (ascending (windowOrder keys timeB)) >>= fun s =>
        thresholdSessionWindow numParties protocol s keys functionRes timeB windowId threshold false
          markValid := by
  simp only [thresholdSessionWindow, if_true, Bool.false_eq_true, if_false, pure_bind, windowOrder]

/-- A window after the sort, from what it does on the sorted table. -/
theorem returns_sort_bind_iff {next : EncodedTable w → Draws (EncodedTable w)}
    {post : EncodedTable w → Prop} (delivers : EncodedTable w → Prop)
    (hcolumns : WindowColumns t keys timeB windowId)
    (hsort : SortableBy t keys timeB protocol)
    (hsize : ∀ t s r, next t s = some r → NetworkSize t.rows)
    (hnext : ∀ τ, t.SortsWindow keys timeB τ → NetworkSize t.rows →
      Draws.Returns (next (t.rearranged τ)) fun t' => post t' ↔ delivers (t.rearranged τ)) :
    Draws.Returns
        (sort numParties protocol t (ascending (windowOrder keys timeB)) >>= next) post ↔
      NetworkSize t.rows ∧ ∀ τ, t.SortsWindow keys timeB τ → delivers (t.rearranged τ) := by
  constructor
  · intro hreturns
    have hrows := size_of_sort_bind hsize hreturns
    refine ⟨hrows, fun τ hτ => ?_⟩
    by_contra hnot
    refine not_returns (Draws.Returns.bind (returns_sort_window hcolumns hsort hrows)
      fun s hs => ?_) hreturns
    obtain ⟨τ', hτ', rfl⟩ := hs
    obtain rfl : τ' = τ := hτ'.unique hτ
    exact (hnext τ' hτ' hrows).mono fun t' ht' hpost => hnot (ht'.mp hpost)
  · rintro ⟨hrows, hdelivers⟩
    refine Draws.Returns.bind (returns_sort_window hcolumns hsort hrows) fun s hs => ?_
    obtain ⟨τ, hτ, rfl⟩ := hs
    exact (hnext τ hτ hrows).mono fun t' ht' => ht'.mpr (hdelivers τ hτ)

/-- Four rows at the times one to four. -/
def exampleTimes (key : Column 8) : EncodedTable 8 :=
  let time : Column 8 := fun i => BitVec.ofNat 8 (i + 1)
  ofColumns 4 (fun _ => 1) [("[k]", key), ("t", time), ("[t]", time), ("[w]", 0)]

/-- The second row has a key of its own. -/
def exampleInterleaved : EncodedTable 8 := exampleTimes fun i => if i = 1 then 2 else 1

theorem exampleTimes_schema : ∀ c ∈ ["[k]", "[t]", "[w]"],
    c ∈ (exampleTimes 0).schema ∧ isBShared c = true := by decide

theorem exampleTimes_columns (key : Column 8) :
    WindowColumns (exampleTimes key) ["[k]"] "[t]" "[w]" where
  width := Or.inl rfl
  columns := exampleTimes_schema
  written := by decide
  valid := by decide

theorem exampleTimes_sorted : (exampleTimes fun _ => 1).SortedBy (["[k]"] ++ ["[t]"]) := by
  intro i j hij hj
  have hj : j < 4 := hj
  interval_cases j <;> interval_cases i <;> decide

theorem exampleInterleaved_sortable : SortableBy exampleInterleaved ["[k]"] "[t]" .quicksort where
  keys_nodup := by decide
  joinId_bit := fun hmem => absurd hmem (by decide)
  protocol_extracts := Or.inl rfl

theorem thresholdSessionWindow_sessions_iff_example :
    Draws.Returns (thresholdSessionWindow 3 .quicksort (exampleTimes fun _ => 1) ["[k]"] "[t]" "[t]"
        "[w]" 2 false false)
      (fun t' => (exampleTimes fun _ => 1).AgreesExcept t' ["[w]", encTableValid] ∧
        t'.ThresholdSessions ["[k]"] "[t]" "[t]" "[w]" 2) ↔
      NetworkSize 4 ∧ (exampleTimes fun _ => 1).ThresholdDelivers ["[k]"] "[t]" "[t]" "[w]" 2 :=
  thresholdSessionWindow_sessions_iff (exampleTimes_columns _) (by decide) (by decide)
    exampleTimes_sorted false

/-- The sessions of rows of one key, of which those from row `first` on are above the threshold. -/
theorem firstOfRun_exampleTimes {t' : EncodedTable 8} {threshold : BitVec 8} {first i : ℕ}
    (hagrees : (exampleTimes fun _ => 1).AgreesExcept t' ["[w]", encTableValid]) (hfirst : first ≤ i)
    (habove : ∀ j, j ≤ i → ((exampleTimes fun _ => 1).Above "[t]" threshold j ↔ first ≤ j)) :
    t'.FirstOfRun ["[k]"] (t'.AboveLinked "[t]" threshold) first i := by
  have hkey : ∀ j, keyOf ["[k]"] (t'.row j) = keyOf ["[k]"] ((exampleTimes fun _ => 1).row j) :=
    hagrees.keyOf_eq (by decide)
  have htime : t'.col "[t]" = (exampleTimes fun _ => 1).col "[t]" := hagrees.2 "[t]" (by decide)
  have habove' : ∀ j, j ≤ i → (t'.Above "[t]" threshold j ↔ first ≤ j) := by
    intro j hj
    rw [Above, htime]
    exact habove j hj
  refine ⟨hfirst, (hkey first).trans (hkey i).symm, fun a b hab _ ha hb => ?_, fun a hab hlinked => ?_⟩
  · have hlt := hab.1
    exact ⟨(habove' a (by omega)).mpr ha, (habove' b hb).mpr (by omega)⟩
  · have hlt := hab.1
    have hle := (habove' a (by omega)).mp hlinked.1
    omega

/-- A session that begins with the first row is not found, and of a later session only the first row
learns its timestamp. -/
theorem thresholdSessionWindow_fails :
    (¬ Draws.Returns (thresholdSessionWindow 3 .quicksort (exampleTimes fun _ => 1) ["[k]"] "[t]" "[t]"
        "[w]" 0 false false)
      fun t' => (exampleTimes fun _ => 1).AgreesExcept t' ["[w]", encTableValid] ∧
        t'.ThresholdSessions ["[k]"] "[t]" "[t]" "[w]" 0) ∧
    ¬ Draws.Returns (thresholdSessionWindow 3 .quicksort (exampleTimes fun _ => 1) ["[k]"] "[t]" "[t]"
        "[w]" 2 false false)
      fun t' => (exampleTimes fun _ => 1).AgreesExcept t' ["[w]", encTableValid] ∧
        t'.ThresholdSessions ["[k]"] "[t]" "[t]" "[w]" 2 := by
  refine ⟨fun hreturns => ?_, fun hreturns => ?_⟩
  · obtain ⟨t', _, hrun, hagrees, hsessions⟩ := hreturns default
    have htime := hagrees.2 "[t]" (by decide)
    have hself := hsessions 0 (by rw [hagrees.1]; decide) (by rw [Above, htime]; decide) 0
      (firstOfRun_exampleTimes hagrees (le_refl 0) (by decide))
    have hvalue := congrArg (Option.map fun r => r.1.col "[w]" 0) hrun
    rw [Option.map_some, hself, htime] at hvalue
    revert hvalue
    decide +kernel
  · obtain ⟨t', _, hrun, hagrees, hsessions⟩ := hreturns default
    have htime := hagrees.2 "[t]" (by decide)
    have hself := hsessions 3 (by rw [hagrees.1]; decide) (by rw [Above, htime]; decide) 2
      (firstOfRun_exampleTimes hagrees (by decide) (by decide))
    have hvalue := congrArg (Option.map fun r => r.1.col "[w]" 3) hrun
    rw [Option.map_some, hself, htime] at hvalue
    revert hvalue
    decide +kernel

end EncodedTable

end CryptDough
