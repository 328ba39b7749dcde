import CryptDough.PermutationManager
import CryptDough.TableSort

/-! What a table sort asks of the permutation manager, and the counts it reserves beforehand. -/

namespace CryptDough

open PermutationManager

namespace PermutationBudget

section Requests

variable (numParties n w : ℕ) (protocol : SortingProtocol)

/-- The conversion at the end of `remove_padding`: direct between two parties. -/
def b2aRequests : List Request :=
  if numParties = 2 then [] else [.getNext n]

/-- `remove_padding` and `invert`. -/
def finishRequests : List Request := b2aRequests numParties n ++ [.getNextPair n]

def quicksortRequests : List Request :=
  .reserve n (if numParties = 2 then 2 - 1 else 2) 1 :: .getNext n :: finishRequests numParties n

/-- One pair per bit. -/
def radixSortRequests (bits : ℕ) : List Request :=
  .reserve n (if numParties = 2 then 1 - 1 else 1) (bits + 1) ::
    (List.replicate bits (.getNextPair n) ++ finishRequests numParties n)

def sortSubRequests (singleBit : Bool) : List Request :=
  if singleBit then radixSortRequests numParties n 1
  else if protocol = .quicksort then quicksortRequests numParties n
  else radixSortRequests numParties n w

/-- From the last key to the head of the list: the column is permuted, sorted, and its permutation
composed with the later ones. -/
def sortPermutationRequests : List Bool → List Request
  | [] => []
  | [singleBit] => sortSubRequests numParties n w protocol singleBit
  | singleBit :: keys => sortPermutationRequests keys ++
      .getNextPair n :: (sortSubRequests numParties n w protocol singleBit ++ [.getNext n])

/-- All requests after the reservation; `dataColumns` counts both encodings. -/
def sortRequests (keys : List Bool) (dataColumns : ℕ) : List Request :=
  sortPermutationRequests numParties n w protocol keys ++
    List.replicate (keys.length + dataColumns) (.getNextPair n)

/-- In `int` arithmetic. -/
def getPermCounts (keys : List Bool) (dataColumns : ℕ) : BitVec 32 × BitVec 32 :=
  let ns := BitVec.ofNat 32 (keys.count true)
  let nk := BitVec.ofNat 32 keys.length - ns
  let nc := BitVec.ofNat 32 dataColumns
  let L := BitVec.ofNat 32 w
  let permsRequired := nk + ns - 1
  let pairsRequired := 4 * ns + 3 * nk + nc - 1
  let permsRequired := if protocol = .quicksort then permsRequired + nk else permsRequired
  let pairsRequired := if protocol = .radixsort then pairsRequired + nk * L else pairsRequired
  let permsRequired := if numParties ≠ 2 then permsRequired + (nk + ns) else permsRequired
  (permsRequired, pairsRequired)

/-- The counts are passed on as `size_t`s. -/
def reserveRequest (keys : List Bool) (dataColumns : ℕ) : Request :=
  let counts := getPermCounts numParties w protocol keys dataColumns
  .reserve n (castSize counts.1.toInt) (castSize counts.2.toInt)

def tableSortRequests (keys : List Bool) (dataColumns : ℕ) : List Request :=
  reserveRequest numParties n w protocol keys dataColumns ::
    sortRequests numParties n w protocol keys dataColumns

/-- The permutations that a sort takes, and the pairs, by the kinds of its keys. -/
def permsTaken (keys : List Bool) : ℕ :=
  (if protocol = .quicksort then keys.count false else 0) +
    (if numParties = 2 then 0 else keys.length) + (keys.length - 1)

def pairsTaken (keys : List Bool) (dataColumns : ℕ) : ℕ :=
  4 * keys.count true + (if protocol = .quicksort then 3 else w + 3) * keys.count false +
    dataColumns - 1

end Requests

end PermutationBudget

namespace PermutationManager.Consumes

variable {size p q p' q' : ℕ} {first rest : List Request}

theorem append (hfirst : Consumes size p q first) (hrest : Consumes size p' q' rest) :
    Consumes size (p + p') (q + q') (first ++ rest) := by
  induction hfirst with
  | done => simpa using hrest
  | next _ ih =>
      rw [Nat.add_right_comm]
      exact ih.next
  | pair _ ih =>
      rw [Nat.add_right_comm]
      exact ih.pair
  | reserve hp hq _ ih => exact ih.reserve (by omega) (by omega)

theorem replicate_pair (size count : ℕ) :
    Consumes size 0 count (List.replicate count (.getNextPair size)) := by
  induction count with
  | zero => exact .done
  | succ count ih => exact ih.pair

/-- The requests are counted right, and all are of one size. -/
theorem counts (hconsumes : Consumes size p q rest) :
    rest.count (.getNext size) = p ∧ rest.count (.getNextPair size) = q ∧
      ∀ s, s ≠ size → Request.getNext s ∉ rest ∧ Request.getNextPair s ∉ rest := by
  induction hconsumes with
  | done => simp
  | next _ ih =>
      obtain ⟨hp, hq, hother⟩ := ih
      exact ⟨by simp [hp], by simp [hq], fun s hs => by simp [hs, hother s hs]⟩
  | pair _ ih =>
      obtain ⟨hp, hq, hother⟩ := ih
      exact ⟨by simp [hp], by simp [hq], fun s hs => by simp [hs, hother s hs]⟩
  | reserve _ _ _ ih =>
      obtain ⟨hp, hq, hother⟩ := ih
      exact ⟨by simp [hp], by simp [hq], fun s hs => by simp [hother s hs]⟩

end PermutationManager.Consumes

namespace PermutationBudget

section Counts

variable (numParties n w : ℕ) (protocol : SortingProtocol)

/-- Conversions of one key. -/
def conversions : ℕ := if numParties = 2 then 0 else 1

theorem consumes_finish :
    Consumes n (conversions numParties) 1 (finishRequests numParties n) := by
  unfold finishRequests b2aRequests conversions
  split
  · exact .pair .done
  · exact .next (.pair .done)

theorem consumes_quicksort :
    Consumes n (1 + conversions numParties) 1 (quicksortRequests numParties n) := by
  refine .reserve ?_ le_rfl ?_
  · unfold conversions
    split <;> omega
  · rw [Nat.add_comm]
    exact .next (consumes_finish numParties n)

theorem consumes_radixSort (bits : ℕ) :
    Consumes n (conversions numParties) (bits + 1) (radixSortRequests numParties n bits) := by
  refine .reserve ?_ le_rfl ?_
  · unfold conversions
    split <;> omega
  · have hpasses := (Consumes.replicate_pair n bits).append (consumes_finish numParties n)
    rwa [Nat.zero_add] at hpasses

/-- What sorting by one key takes, by its kind. -/
def keyPerms (singleBit : Bool) : ℕ :=
  (if singleBit = false ∧ protocol = .quicksort then 1 else 0) + conversions numParties

def keyPairs (singleBit : Bool) : ℕ :=
  if singleBit then 2 else if protocol = .quicksort then 1 else w + 1

theorem consumes_sortSub (singleBit : Bool) :
    Consumes n (keyPerms numParties protocol singleBit) (keyPairs w protocol singleBit)
      (sortSubRequests numParties n w protocol singleBit) := by
  unfold sortSubRequests keyPerms keyPairs
  cases singleBit with
  | true => simpa using consumes_radixSort numParties n 1
  | false =>
      by_cases hprotocol : protocol = .quicksort
      · simpa [hprotocol] using consumes_quicksort numParties n
      · simpa [hprotocol] using consumes_radixSort numParties n w

theorem sortPermutationRequests_cons (singleBit next : Bool) (keys : List Bool) :
    sortPermutationRequests numParties n w protocol (singleBit :: next :: keys) =
      sortPermutationRequests numParties n w protocol (next :: keys) ++
        .getNextPair n :: (sortSubRequests numParties n w protocol singleBit ++ [.getNext n]) := by
  rw [sortPermutationRequests]
  exact fun hnil => List.cons_ne_nil _ _ hnil

theorem consumes_sortPermutation {keys : List Bool} (hkeys : keys ≠ []) :
    Consumes n ((keys.map (keyPerms numParties protocol)).sum + (keys.length - 1))
      ((keys.map (keyPairs w protocol)).sum + (keys.length - 1))
      (sortPermutationRequests numParties n w protocol keys) := by
  induction keys with
  | nil => exact absurd rfl hkeys
  | cons singleBit keys ih =>
      cases keys with
      | nil => simpa [sortPermutationRequests] using consumes_sortSub numParties n w protocol singleBit
      | cons next keys =>
          have hlater := ih (List.cons_ne_nil _ _)
          have hkey := (consumes_sortSub numParties n w protocol singleBit).append
            (.next .done : Consumes n 1 0 [.getNext n])
          have hall := hlater.append hkey.pair
          rw [sortPermutationRequests_cons]
          convert hall using 1 <;> simp only [List.map_cons, List.sum_cons, List.length_cons] <;> omega

theorem sum_keyPerms (keys : List Bool) :
    (keys.map (keyPerms numParties protocol)).sum =
      (if protocol = .quicksort then keys.count false else 0) +
        keys.length * conversions numParties := by
  induction keys with
  | nil => simp
  | cons singleBit keys ih =>
      rw [List.map_cons, List.sum_cons, ih, List.length_cons, Nat.succ_mul]
      cases singleBit <;> by_cases hprotocol : protocol = .quicksort <;>
        simp [keyPerms, hprotocol] <;> omega

theorem sum_keyPairs (keys : List Bool) :
    (keys.map (keyPairs w protocol)).sum = 2 * keys.count true +
      (if protocol = .quicksort then 1 else w + 1) * keys.count false := by
  induction keys with
  | nil => simp
  | cons singleBit keys ih =>
      rw [List.map_cons, List.sum_cons, ih]
      cases singleBit with
      | true =>
          simp [keyPairs]
          omega
      | false =>
          rw [List.count_cons_self, Nat.mul_add_one, keyPairs, if_neg Bool.false_ne_true]
          simp
          omega

theorem length_eq_count (keys : List Bool) : keys.length = keys.count true + keys.count false := by
  induction keys with
  | nil => rfl
  | cons singleBit keys ih =>
      rw [List.length_cons, ih]
      cases singleBit <;> simp <;> omega

/-- The requests of a sort, counted. -/
theorem consumes_sortRequests {keys : List Bool} (hkeys : keys ≠ []) (dataColumns : ℕ) :
    Consumes n (permsTaken numParties protocol keys) (pairsTaken w protocol keys dataColumns)
      (sortRequests numParties n w protocol keys dataColumns) := by
  have hall := (consumes_sortPermutation numParties n w protocol hkeys).append
    (Consumes.replicate_pair n (keys.length + dataColumns))
  have hpos : 0 < keys.length := List.length_pos_iff.2 hkeys
  have hlength := length_eq_count keys
  rw [sum_keyPerms, sum_keyPairs] at hall
  unfold sortRequests
  convert hall using 1
  · unfold permsTaken conversions
    by_cases hparties : numParties = 2 <;> simp [hparties]
  · unfold pairsTaken
    split
    · omega
    · rw [Nat.add_mul, Nat.add_mul]
      omega

/-- The `int`s hold the numbers of requests as far as they can. -/
theorem getPermCounts_eq (hprotocol : protocol = .quicksort ∨ protocol = .radixsort) {keys : List Bool}
    (hkeys : keys ≠ []) (dataColumns : ℕ) :
    getPermCounts numParties w protocol keys dataColumns =
      (BitVec.ofNat 32 (permsTaken numParties protocol keys),
        BitVec.ofNat 32 (pairsTaken w protocol keys dataColumns)) := by
  have hpos : 0 < keys.length := List.length_pos_iff.2 hkeys
  have hlength := length_eq_count keys
  have hpairs : 0 < 4 * keys.count true + (if protocol = .quicksort then 3 else w + 3) *
      keys.count false + dataColumns := by
    rcases Nat.eq_zero_or_pos (keys.count true) with hnone | hsome
    · have hthree : 3 ≤ if protocol = .quicksort then 3 else w + 3 := by
        split <;> omega
      have hmul := Nat.mul_le_mul_right (keys.count false) hthree
      omega
    · omega
  have hcast : ((keys.length : ℕ) : BitVec 32) = keys.count true + keys.count false := by
    rw [hlength, Nat.cast_add]
  simp only [getPermCounts, permsTaken, pairsTaken, ← BitVec.natCast_eq_ofNat, Nat.cast_add,
    Nat.cast_pred hpos, Nat.cast_pred hpairs, hcast, add_sub_cancel_left]
  apply Prod.ext
  · rcases hprotocol with rfl | rfl <;> by_cases hparties : numParties = 2 <;>
      simp only [hparties, ne_eq, not_true_eq_false, not_false_eq_true, if_true, if_false, reduceCtorEq,
        hcast, Nat.cast_zero] <;> ring
  · rcases hprotocol with rfl | rfl
    · simp only [if_true, if_false, reduceCtorEq, Nat.cast_mul, Nat.cast_ofNat]
    · simp only [if_true, if_false, reduceCtorEq, Nat.cast_add, Nat.cast_mul, Nat.cast_ofNat]
      ring

end Counts

/-! ### The requests are those of the sort -/

section Draws

variable {α β : Type}

/-- The computation draws `count` shuffles, if it returns. -/
def Takes (prog : Draws β) (count : ℕ) : Prop :=
  ∀ s v s', prog s = some (v, s') → s'.shuffles = fun k => s.shuffles (k + count)

theorem Takes.pure (v : β) : Takes (Pure.pure v) 0 := by
  intro s v' s' hrun
  cases hrun
  rfl

theorem Takes.bind {prog : Draws α} {next : α → Draws β} {count count' : ℕ}
    (hprog : Takes prog count) (hnext : ∀ v, Takes (next v) count') :
    Takes (prog >>= next) (count + count') := by
  intro s v s' hrun
  change (prog s >>= fun r => next r.1 r.2) = some (v, s') at hrun
  cases hmid : prog s with
  | none =>
      rw [hmid] at hrun
      cases hrun
  | some mid =>
      rw [hmid] at hrun
      have hfirst := hprog s mid.1 mid.2 hmid
      have hlast := hnext mid.1 mid.2 v s' hrun
      rw [hlast, hfirst]
      funext k
      change s.shuffles (k + count' + count) = s.shuffles (k + (count + count'))
      rw [Nat.add_assoc, Nat.add_comm count' count]

theorem Takes.lift (result : Option β) : Takes (liftM result) 0 := by
  intro s v s' hrun
  cases result with
  | none => cases hrun
  | some value =>
      cases hrun
      rfl

theorem Takes.getNext (n : ℕ) : Takes (Draws.getNext n) 1 := by
  intro s v s' hrun
  rw [Draws.getNext] at hrun
  split at hrun
  · cases hrun
    rfl
  · cases hrun

theorem Takes.cast {prog : Draws β} {count count' : ℕ} (hprog : Takes prog count)
    (heq : count = count') : Takes prog count' := heq ▸ hprog

end Draws

/-- How many requests hand something out. -/
def drawn (requests : List Request) : ℕ :=
  requests.countP fun request => match request with
    | .reserve _ _ _ => false
    | _ => true

@[simp] theorem drawn_append (first rest : List Request) :
    drawn (first ++ rest) = drawn first + drawn rest := List.countP_append

@[simp] theorem drawn_nil : drawn [] = 0 := rfl

@[simp] theorem drawn_reserve (size p q : ℕ) (rest : List Request) :
    drawn (.reserve size p q :: rest) = drawn rest := rfl

@[simp] theorem drawn_getNext (size : ℕ) (rest : List Request) :
    drawn (.getNext size :: rest) = drawn rest + 1 := by
  simp [drawn]

@[simp] theorem drawn_getNextPair (size : ℕ) (rest : List Request) :
    drawn (.getNextPair size :: rest) = drawn rest + 1 := by
  simp [drawn]

@[simp] theorem drawn_replicate (count size : ℕ) :
    drawn (List.replicate count (.getNextPair size)) = count := by
  simp [drawn, List.countP_replicate]

section Takes

variable {n w : ℕ}

theorem takes_obliviousApply {α : Type} (x : Fin n → α) (perm : ElementwisePermutation n) :
    Takes (ElementwisePermutation.obliviousApplyElementwisePerm x perm) 1 :=
  (Takes.getNext n).bind fun _ => Takes.pure _

theorem takes_composePermutations (sigma rho : ElementwisePermutation n) :
    Takes (sigma.composePermutations rho) 1 :=
  (Takes.getNext n).bind fun _ => Takes.pure _

theorem takes_finish (numParties : ℕ) (padded : Vec (padWidth w) n) (reversed : Bool) :
    Takes (finish numParties padded reversed) (drawn (finishRequests numParties n)) := by
  have hb2a : ∀ permutation : ElementwisePermutation n,
      Takes (permutation.b2a numParties) (drawn (b2aRequests numParties n)) := by
    intro permutation
    unfold ElementwisePermutation.b2a b2aRequests
    split
    · exact Takes.pure permutation
    · exact (Takes.getNext n).bind fun _ => Takes.pure _
  refine Takes.cast (Takes.bind ((hb2a _).bind fun _ => Takes.pure _) fun r =>
    (takes_obliviousApply _ r.2).bind fun _ => Takes.pure _) ?_
  simp [finishRequests]

theorem takes_quicksort (numParties : ℕ) (v : Vec w n) (order : SortOrder) :
    Takes (quicksort numParties v order) (drawn (quicksortRequests numParties n)) := by
  refine Takes.cast (Takes.bind ((Takes.getNext n).bind fun _ => (Takes.lift _).bind fun _ =>
    Takes.pure _) fun padded => takes_finish numParties padded _) ?_
  simp [quicksortRequests, Nat.add_comm]

theorem takes_radixSort (numParties : ℕ) (v : Vec w n) (order : SortOrder) (bits : ℕ) :
    Takes (radixSort numParties v order bits) (drawn (radixSortRequests numParties n bits)) := by
  have hloop : ∀ (fullWidth : Bool) (rest i : ℕ) (v : Vec (padWidth w) n),
      Takes (RadixSort.radixLoop bits fullWidth rest i v) rest := by
    intro fullWidth rest
    induction rest with
    | zero => exact fun i v => Takes.pure v
    | succ rest ih =>
        intro i v
        exact Takes.cast ((takes_obliviousApply v _).bind fun v => ih (i + 1) v) (Nat.add_comm 1 rest)
  refine Takes.cast (Takes.bind (hloop _ bits 0 _) fun padded => takes_finish numParties padded _) ?_
  simp [radixSortRequests]

theorem takes_sortSub (numParties : ℕ) (protocol : SortingProtocol) (c : SortColumn w n) :
    Takes (sortSub numParties protocol c)
      (drawn (sortSubRequests numParties n w protocol c.singleBit)) := by
  unfold sortSub sortSubRequests
  split
  · exact takes_radixSort numParties c.column c.order 1
  split
  · exact takes_quicksort numParties c.column c.order
  split
  · exact takes_radixSort numParties c.column c.order w
  · intro s v s' hrun
    cases hrun

theorem takes_sortPermutation (numParties : ℕ) (protocol : SortingProtocol)
    (columns : List (SortColumn w n)) :
    Takes (sortPermutation numParties protocol columns) (drawn
      (sortPermutationRequests numParties n w protocol (columns.map SortColumn.singleBit))) := by
  induction columns with
  | nil =>
      intro s v s' hrun
      cases hrun
  | cons c columns ih =>
      cases columns with
      | nil => exact (takes_sortSub numParties protocol c).bind fun _ => Takes.pure _
      | cons d columns =>
          have hsub : ∀ current : Vec w n, Takes (sortSub numParties protocol { c with column := current })
              (drawn (sortSubRequests numParties n w protocol c.singleBit)) :=
            fun current => takes_sortSub numParties protocol { c with column := current }
          rw [sortPermutation]
          · refine Takes.cast (ih.bind fun p => (takes_obliviousApply c.column p).bind fun current =>
              (hsub current).bind fun r => takes_composePermutations p r.2) ?_
            simp only [List.map_cons, sortPermutationRequests_cons]
            simp
            omega
          · exact fun hnil => List.cons_ne_nil _ _ hnil

/-- A sort draws as many shuffles as it makes requests. -/
theorem takes_tableSort (numParties : ℕ) (protocol : SortingProtocol)
    (columns : List (SortColumn w n)) (dataA dataB : List (Vec w n)) :
    Takes (tableSort numParties protocol columns dataA dataB) (drawn (tableSortRequests numParties n w
      protocol (columns.map SortColumn.singleBit) (dataA.length + dataB.length))) := by
  have happly : ∀ {α : Type} (column : α → Vec w n) (p : ElementwisePermutation n) (l : List α),
      Takes (l.mapM fun c => ElementwisePermutation.obliviousApplyElementwisePerm (column c) p)
        l.length := by
    intro α column p l
    induction l with
    | nil => exact Takes.pure []
    | cons c l ih =>
        rw [List.mapM_cons]
        exact Takes.cast ((takes_obliviousApply (column c) p).bind fun y => ih.bind fun ys =>
          Takes.pure _) (by simp [Nat.add_comm])
  refine Takes.cast ((takes_sortPermutation numParties protocol columns).bind fun p =>
    (happly SortColumn.column p columns).bind fun keys => (happly id p dataA).bind fun a =>
      (happly id p dataB).bind fun b => Takes.pure _) ?_
  simp [tableSortRequests, reserveRequest, sortRequests]

end Takes

/-! ### The reservation is used up -/

/-- No request for a permutation or a pair meets an empty queue. -/
def NeverEmpty (numParties : ℕ) : Request → PermutationManager → Prop
  | .reserve _ _ _, _ => True
  | .getNext _, m => m.queue ≠ []
  | .getNextPair _, m => if numParties = 2 then m.pairQueue ≠ [] else m.queue ≠ []

theorem along_mono {numParties : ℕ} {cond cond' : Request → PermutationManager → Prop}
    (himp : ∀ request m, cond request m → cond' request m) {requests : List Request}
    {m : PermutationManager} (halong : Along numParties cond m requests) :
    Along numParties cond' m requests := by
  induction requests generalizing m with
  | nil => trivial
  | cons request rest ih =>
      exact ⟨himp request m halong.1, fun handed m' hserve => ih (halong.2 handed m' hserve)⟩

theorem neverEmpty_of_stocked {numParties : ℕ} {request : Request} {m : PermutationManager}
    (hstocked : Stocked numParties request m) : NeverEmpty numParties request m := by
  cases request with
  | reserve => trivial
  | getNext => exact hstocked
  | getNextPair => exact hstocked

/-- Empty queues hold what is reserved, and nothing else. -/
theorem reserve_empty (numParties : ℕ) {size p q : ℕ} {m : PermutationManager} (hqueue : m.queue = [])
    (hpairs : m.pairQueue = []) (hpq : p + q < 2 ^ 64) {total : ℕ}
    (htotal : taken numParties p q + 2 * paired numParties q = total) (hlacking : 0 < total) {count : ℤ}
    (hcount : castInt total = count) :
    reserve numParties size p q m =
      if count < 0 then .error .outOfMemory
      else if count.toNat < 2 * paired numParties q then .error .outOfBounds
      else if count.toNat = 0 ∨ size < 2 ^ 31 then .ok
        { queue := List.replicate (count.toNat - 2 * paired numParties q) ⟨size⟩
          pairQueue := List.replicate (paired numParties q) (⟨size⟩, ⟨size⟩)
          storedSize := size }
      else .error .noMask := by
  have hempty : discard size m = { queue := [], pairQueue := [], storedSize := size } := by
    simp [PermutationManager.discard, hqueue, hpairs]
  have hmissing : ∀ request, missing request 0 = request := fun request => by
    unfold missing
    split <;> omega
  have hindividual : individual numParties p q = taken numParties p q := by
    by_cases hparties : numParties = 2
    · rw [hparties, individual_two, taken_two]
    · rw [individual_of_ne hparties hpq, taken_of_ne hparties]
  have hlacks : lacks numParties size p q m = (taken numParties p q, paired numParties q) := by
    rw [lacks, hempty, hindividual, List.length_nil, List.length_nil, hmissing, hmissing]
  have hcovered : ¬ (individual numParties p q ≤ (discard size m).queue.length ∧
      paired numParties q ≤ (discard size m).pairQueue.length) := by
    rw [hempty, hindividual]
    simp only [List.length_nil]
    omega
  rw [reserve_lacking hcovered hlacks (htotal ▸ hcount), topped, hempty]
  rfl

/-- A table sort takes the counts it reserves and nothing of another size; once they are reserved it
generates nothing, it finds no queue empty, and it leaves both empty. -/
structure BudgetExact (numParties n w : ℕ) (protocol : SortingProtocol) (keys : List Bool)
    (dataColumns : ℕ) (m : PermutationManager) : Prop where
  counts : (((tableSortRequests numParties n w protocol keys dataColumns).count (.getNext n) : ℤ),
      ((tableSortRequests numParties n w protocol keys dataColumns).count (.getNextPair n) : ℤ)) =
    ((getPermCounts numParties w protocol keys dataColumns).1.toInt,
      (getPermCounts numParties w protocol keys dataColumns).2.toInt)
  sizes : ∀ s, s ≠ n →
    Request.getNext s ∉ tableSortRequests numParties n w protocol keys dataColumns ∧
    Request.getNextPair s ∉ tableSortRequests numParties n w protocol keys dataColumns
  stocked : ∃ reserved,
    serve numParties m (reserveRequest numParties n w protocol keys dataColumns) = .ok ([], reserved) ∧
    Along numParties (Stocked numParties) reserved (sortRequests numParties n w protocol keys dataColumns)
  neverEmpty : Along numParties (NeverEmpty numParties) m
    (tableSortRequests numParties n w protocol keys dataColumns)
  emptied : (run numParties m (tableSortRequests numParties n w protocol keys dataColumns)).2 =
    .ok { queue := [], pairQueue := [], storedSize := n }

section Budget

variable {numParties n w : ℕ} {protocol : SortingProtocol} {keys : List Bool} {dataColumns : ℕ}
  {m : PermutationManager}

theorem counts_iff (hprotocol : protocol = .quicksort ∨ protocol = .radixsort) (hkeys : keys ≠ []) :
    ((((tableSortRequests numParties n w protocol keys dataColumns).count (.getNext n) : ℤ),
      ((tableSortRequests numParties n w protocol keys dataColumns).count (.getNextPair n) : ℤ)) =
    ((getPermCounts numParties w protocol keys dataColumns).1.toInt,
      (getPermCounts numParties w protocol keys dataColumns).2.toInt)) ↔
    permsTaken numParties protocol keys < 2 ^ 31 ∧ pairsTaken w protocol keys dataColumns < 2 ^ 31 := by
  obtain ⟨hperms, hpairs, -⟩ :=
    (consumes_sortRequests numParties n w protocol hkeys dataColumns).counts
  have hfits : ∀ k : ℕ, (k : ℤ) = castInt k ↔ k < 2 ^ 31 := by
    intro k
    rw [eq_comm, castInt_eq_iff, InInt]
    omega
  have hother : ∀ request, (∀ size p q, request ≠ .reserve size p q) →
      (tableSortRequests numParties n w protocol keys dataColumns).count request =
        (sortRequests numParties n w protocol keys dataColumns).count request :=
    fun request hne => List.count_cons_of_ne (hne _ _ _).symm
  rw [hother _ (by simp), hother _ (by simp), hperms, hpairs,
    getPermCounts_eq numParties w protocol hprotocol hkeys, toInt_ofNat, toInt_ofNat,
    Prod.mk.injEq, hfits, hfits]

theorem reserveRequest_eq (hprotocol : protocol = .quicksort ∨ protocol = .radixsort) (hkeys : keys ≠ [])
    (hperms : permsTaken numParties protocol keys < 2 ^ 31)
    (hpairs : pairsTaken w protocol keys dataColumns < 2 ^ 31) :
    reserveRequest numParties n w protocol keys dataColumns = .reserve n
      (permsTaken numParties protocol keys) (pairsTaken w protocol keys dataColumns) := by
  rw [reserveRequest, getPermCounts_eq numParties w protocol hprotocol hkeys, toInt_ofNat, toInt_ofNat,
    castInt_natCast hperms, castInt_natCast hpairs, castSize_natCast (by omega),
    castSize_natCast (by omega)]

/-- How many permutations are generated for a sort, two for every pair. -/
def generatedPerms (numParties w : ℕ) (protocol : SortingProtocol) (keys : List Bool)
    (dataColumns : ℕ) : ℕ :=
  taken numParties (permsTaken numParties protocol keys) (pairsTaken w protocol keys dataColumns) +
    2 * paired numParties (pairsTaken w protocol keys dataColumns)

theorem pairsTaken_pos (hkeys : keys ≠ []) : 0 < pairsTaken w protocol keys dataColumns := by
  have hpos : 0 < keys.length := List.length_pos_iff.2 hkeys
  have hlength := length_eq_count keys
  have hthree : 3 ≤ if protocol = .quicksort then 3 else w + 3 := by
    split <;> omega
  have hmul := Nat.mul_le_mul_right (keys.count false) hthree
  unfold pairsTaken
  omega

theorem generatedPerms_pos (hkeys : keys ≠ []) :
    0 < generatedPerms numParties w protocol keys dataColumns := by
  have hpairs : 0 < pairsTaken w protocol keys dataColumns := pairsTaken_pos hkeys
  unfold generatedPerms taken paired
  split <;> omega

/-- A reservation that returns has the `int` hold what it generates. -/
theorem lt_of_stocked (hprotocol : protocol = .quicksort ∨ protocol = .radixsort) (hkeys : keys ≠ [])
    (hperms : permsTaken numParties protocol keys < 2 ^ 31)
    (hpairs : pairsTaken w protocol keys dataColumns < 2 ^ 31) (hqueue : m.queue = [])
    (hpairQueue : m.pairQueue = []) {reserved : PermutationManager}
    (hserve : serve numParties m (reserveRequest numParties n w protocol keys dataColumns) =
      .ok ([], reserved)) :
    n < 2 ^ 31 ∧ generatedPerms numParties w protocol keys dataColumns < 2 ^ 31 := by
  have hpos : 0 < generatedPerms numParties w protocol keys dataColumns := generatedPerms_pos hkeys
  set total := generatedPerms numParties w protocol keys dataColumns with htotal
  rw [reserveRequest_eq hprotocol hkeys hperms hpairs, serve,
    reserve_empty numParties hqueue hpairQueue (by omega) htotal.symm hpos rfl] at hserve
  by_cases hneg : castInt total < 0
  · rw [if_pos hneg] at hserve
    cases hserve
  rw [if_neg hneg] at hserve
  by_cases hroom : (castInt total).toNat < 2 * paired numParties (pairsTaken w protocol keys dataColumns)
  · rw [if_pos hroom] at hserve
    cases hserve
  rw [if_neg hroom] at hserve
  have hint : total < 2 ^ 31 := by
    by_contra hlarge
    by_cases hparties : numParties = 2
    · subst hparties
      rw [paired_two] at hroom
      have hsum : total = permsTaken 2 protocol keys + 2 * pairsTaken w protocol keys dataColumns := rfl
      rw [castInt_of_ge (by omega) (by omega)] at hneg hroom
      omega
    · have hsum : total =
          permsTaken numParties protocol keys + pairsTaken w protocol keys dataColumns := by
        rw [htotal, generatedPerms, taken_of_ne hparties, paired_of_ne hparties, Nat.mul_zero,
          Nat.add_zero]
      rw [castInt_of_ge (by omega) (by omega)] at hneg
      omega
  refine ⟨?_, hint⟩
  rw [castInt_natCast hint, Int.toNat_natCast] at hserve
  by_contra hmask
  rw [if_neg (by omega)] at hserve
  cases hserve

/-- From empty queues the budget is exact if and only if an `int` holds the number of permutations to
generate, and there is a mask for their size. -/
theorem tableSort_budget_iff (hprotocol : protocol = .quicksort ∨ protocol = .radixsort)
    (hkeys : keys ≠ []) (hqueue : m.queue = []) (hpairs : m.pairQueue = []) :
    BudgetExact numParties n w protocol keys dataColumns m ↔
      n < 2 ^ 31 ∧ generatedPerms numParties w protocol keys dataColumns < 2 ^ 31 := by
  constructor
  · intro hbudget
    obtain ⟨hperms, hpairsTaken⟩ := (counts_iff hprotocol hkeys).mp hbudget.counts
    obtain ⟨reserved, hserve, -⟩ := hbudget.stocked
    exact lt_of_stocked hprotocol hkeys hperms hpairsTaken hqueue hpairs hserve
  rintro ⟨hmask, hint⟩
  have hperms : permsTaken numParties protocol keys < 2 ^ 31 := by
    refine lt_of_le_of_lt ?_ hint
    unfold generatedPerms taken
    split <;> omega
  have hpairsTaken : pairsTaken w protocol keys dataColumns < 2 ^ 31 := by
    refine lt_of_le_of_lt ?_ hint
    unfold generatedPerms taken paired
    split <;> omega
  have hconsumes := consumes_sortRequests numParties n w protocol hkeys dataColumns
  obtain ⟨-, -, hother⟩ := hconsumes.counts
  -- exactly what the requests take is generated
  have hreserve := @reserve_empty numParties n _ _ m hqueue hpairs (by omega) _ rfl
    (generatedPerms_pos hkeys) _ (castInt_natCast hint)
  rw [if_neg (by omega), Int.toNat_natCast, if_neg (by omega), if_pos (.inr hmask),
    Nat.add_sub_cancel] at hreserve
  set reserved : PermutationManager :=
    { queue := List.replicate (taken numParties (permsTaken numParties protocol keys)
        (pairsTaken w protocol keys dataColumns)) ⟨n⟩
      pairQueue := List.replicate (paired numParties (pairsTaken w protocol keys dataColumns)) (⟨n⟩, ⟨n⟩)
      storedSize := n } with hreserved
  have hfits : reserved.Fits :=
    ⟨fun perm hperm => List.eq_of_mem_replicate hperm, fun pair hpair => List.eq_of_mem_replicate hpair⟩
  obtain ⟨hrun, hstocked⟩ := run_consumes hconsumes hfits rfl
    (by rw [hreserved]; exact List.length_replicate.ge)
    (by rw [hreserved]; exact List.length_replicate.ge)
  have hserve : serve numParties m (reserveRequest numParties n w protocol keys dataColumns) =
      .ok ([], reserved) := by
    rw [reserveRequest_eq hprotocol hkeys hperms hpairsTaken, serve, hreserve]
    rfl
  refine ⟨(counts_iff hprotocol hkeys).mpr ⟨hperms, hpairsTaken⟩, fun s hs => ?_,
    ⟨reserved, hserve, hstocked⟩, ?_, ?_⟩
  · simp [tableSortRequests, reserveRequest, hother s hs]
  · rw [tableSortRequests, along_cons hserve]
    refine ⟨?_, along_mono (fun _ _ => neverEmpty_of_stocked) hstocked⟩
    rw [reserveRequest]
    trivial
  · rw [tableSortRequests, run_cons _ hserve, hrun, hreserved]
    simp

theorem tableSort_budget_iff_example :
    BudgetExact 2 4 8 .radixsort [false, true] 1 new ↔
      4 < 2 ^ 31 ∧ generatedPerms 2 8 .radixsort [false, true] 1 < 2 ^ 31 :=
  tableSort_budget_iff (.inr rfl) (by decide) rfl rfl

/-- For `2 ^ 25` keys of 64 bits `nk * L` is no `int`. -/
theorem tableSort_exceeds_budget :
    ¬ BudgetExact 2 4 64 .radixsort (List.replicate (2 ^ 25) false) 1 new := by
  intro hbudget
  have hne : List.replicate (2 ^ 25) false ≠ [] := by
    rw [Ne, List.replicate_eq_nil_iff]
    decide
  have hpairs := ((counts_iff (.inr rfl) hne).mp hbudget.counts).2
  rw [pairsTaken, if_neg (by decide), List.count_replicate_self, List.count_replicate] at hpairs
  exact absurd hpairs (by decide)

end Budget

end PermutationBudget

end CryptDough
