import Mathlib.Algebra.BigOperators.Fin
import Mathlib.Algebra.BigOperators.Intervals
import CryptDough.PackedBatching

/-! # The number of set bits  The bits of all elements are unpacked into one vector, converted to
arithmetic shares and summed up in chunks. The unpacking is a call of the runtime, divided by the
length of what is unpacked, and asserts that its ranges start at the boundary of a packed element. -/

namespace CryptDough

open Process Sharing Protocol

variable {w n : ℕ}

/-- The sums over chunks of `aggSize` elements, the last of which may have fewer. -/
def Vec.chunkedSum {m : ℕ} (x : Vec w m) (aggSize : ℕ) : Vec w (Vec.chunkCount m aggSize) :=
  let aggSize := if aggSize = 0 then m else aggSize
  fun c => ∑ j : Fin m, if c.val * aggSize ≤ j.val ∧ j.val < (c.val + 1) * aggSize then x j else 0

section Popcount

variable {P : Protocol w} (K : Converter P) (rt : RunTime) (partyID : P.Party)

def popcount (x : EVec P.scheme w n) : P.Program (Option (EVec P.scheme w n)) :=
  let concat : Option (EVec P.scheme w (n * w)) :=
    evalProtocol1arg (M := Id) rt false (fun x r => r.unpackFrom x 0) x fun _ _ => 0
  concat.elim (pure none) fun concat => do
    let conv ← evalProtocol1arg rt true (elementwise K.b2aBit partyID) concat fun _ _ => 0
    pure (conv.map fun conv r i => (Vec.chunkedSum (conv r) w).getElem i)

end Popcount

/-- The number of bits that are set. -/
def hammingWeight (v : BitVec w) : ℕ := ∑ j ∈ Finset.range w, (v.getLsbD j).toNat

/-- Bit `k` of the elements one after the other. -/
def bitString (a : Vec w n) (k : ℕ) : Bool := (a.getElem (k / w)).getLsbD (k % w)

/-- The bit that the ranges leave at position `k`: counted from the start of the range of `k`. -/
def landedBit (ranges : List (ℕ × ℕ)) (a : Vec w n) (k : ℕ) : Bool :=
  (ranges.find? fun range => range.1 ≤ k ∧ k < range.2).elim false
    fun range => bitString a (k - range.1)

/-- How many set bits are left at the positions of element `i`. -/
def landedWeight (ranges : List (ℕ × ℕ)) (a : Vec w n) (i : ℕ) : ℕ :=
  ∑ j ∈ Finset.range w, (landedBit ranges a (i * w + j)).toNat

/-- The sharings of `a` are opened to the weights of its elements. -/
def PopcountCorrect {P : Protocol w} (K : Converter P) (rt : RunTime) (a : Vec w n) : Prop :=
  ∀ x : P.scheme.Shares (Vec w n), OpensB x a →
    P.Ensures (fun p => popcount K rt p (x p)) fun z => ∃ out : P.scheme.Shares (Vec w n),
      (∀ p, z p = some (out p)) ∧ OpensA out fun i => BitVec.ofNat w (hammingWeight (a i))

section Unpacking

variable {S : Scheme}

/-- The vector that the tasks fill. -/
def landed (ranges : List (ℕ × ℕ)) (a : Vec w n) (m : ℕ) : Vec w m := fun i =>
  if landedBit ranges a i then 1 else 0

theorem landedBit_cons_in {range : ℕ × ℕ} {ranges : List (ℕ × ℕ)} {a : Vec w n} {k : ℕ}
    (hk : range.1 ≤ k ∧ k < range.2) : landedBit (range :: ranges) a k = bitString a (k - range.1) := by
  rw [landedBit, List.find?_cons_of_pos (by simpa using hk)]
  rfl

theorem landedBit_cons_out {range : ℕ × ℕ} {ranges : List (ℕ × ℕ)} {a : Vec w n} {k : ℕ}
    (hk : ¬ (range.1 ≤ k ∧ k < range.2)) :
    landedBit (range :: ranges) a k = landedBit ranges a k := by
  rw [landedBit, List.find?_cons_of_neg (by simpa using hk), landedBit]

theorem setBitValue_zero (hw : 0 < w) (u : BitVec w) (b : ℕ) :
    Vec.setBitValue 0 (Vec.getBit u b) 0 = if u.getLsbD b then 1 else 0 := by
  apply BitVec.eq_of_getLsbD_eq
  intro j hj
  rw [Vec.getLsbD_setBitValue]
  by_cases hj0 : j = 0
  · subst hj0
    cases hb : u.getLsbD b with
    | false => simp
    | true => simp [hw]
  · cases hb : u.getLsbD b with
    | false => simp [hj0]
    | true => simp [hj0, BitVec.getLsbD_one]

/-- The ranges start at the boundary of a packed element. -/
def Aligned (w : ℕ) (ranges : List (ℕ × ℕ)) : Prop := ∀ range ∈ ranges, range.1 % w = 0

theorem aligned_nil (w : ℕ) : Aligned w [] := fun _ hrange => absurd hrange List.not_mem_nil

theorem aligned_one (w n : ℕ) : Aligned w [(0, n)] :=
  List.forall_mem_singleton.mpr (Nat.zero_mod w)

/-- One range that is not aligned ends the call. -/
theorem foldlM_unpackRange_none {source : EVec S w n} {m : ℕ} {ranges : List (ℕ × ℕ)}
    (hranges : ¬ Aligned w ranges) (data : EVec S w m) :
    ranges.foldlM (unpackRange source 0) data = none := by
  induction ranges generalizing data with
  | nil => exact absurd (aligned_nil w) hranges
  | cons range ranges ih =>
      rw [List.foldlM_cons]
      by_cases hrange : range.1 % w = 0
      · have hrest : ¬ Aligned w ranges := fun hrest =>
          hranges (List.forall_mem_cons.mpr ⟨hrange, hrest⟩)
        cases unpackRange source 0 data range with
        | none => rfl
        | some data => exact ih hrest data
      · rw [unpackRange_eq, if_pos (.inl hrange)]
        rfl

/-- The ranges fill the positions they count, in order. -/
theorem foldlM_unpackRange {source : EVec S w n} {m : ℕ} (hw : 0 < w) (hm : m ≤ n * w)
    {ranges : List (ℕ × ℕ)} {start stop : ℕ} (htiles : Tiles start ranges stop) (hstop : stop ≤ m)
    (haligned : Aligned w ranges)
    (data : EVec S w m) (hdata : ∀ r, ∀ i : Fin m, start ≤ i.val → data r i = 0) :
    ranges.foldlM (unpackRange source 0) data = some fun r i =>
      if i.val < start then data r i else landed ranges (source r) m i := by
  induction ranges generalizing start data with
  | nil =>
      refine congrArg some (funext fun r => funext fun i => ?_)
      split
      · rfl
      · exact hdata r i (by omega)
  | cons range ranges ih =>
      obtain ⟨rfl, hle, hrest⟩ := htiles
      obtain ⟨hrange, haligned⟩ := List.forall_mem_cons.mp haligned
      have hend := hrest.le
      rw [List.foldlM_cons, unpackRange_eq, if_neg (by omega)]
      refine (ih hrest haligned _ fun r i hi => ?_).trans (congrArg some ?_)
      · rw [if_neg (by omega)]
        exact hdata r i (by omega)
      · funext r i
        by_cases hin : range.1 ≤ i.val ∧ i.val < range.2
        · rw [if_pos hin.2, if_pos (by omega), if_neg (by omega), hdata r i hin.1, landed,
            landedBit_cons_in hin, bitString]
          exact setBitValue_zero hw _ _
        · by_cases hlt : i.val < range.1
          · rw [if_pos (by omega), if_neg (by omega), if_pos hlt]
          · rw [if_neg (by omega), if_neg hlt, landed, landed, landedBit_cons_out hin]

/-- What the call leaves in a vector of zeros. -/
theorem evalUnpack_landed {rt : RunTime} (hw : 0 < w) (hthreads : 0 < rt.numThreads)
    (hbatch : rt.batchSize.toInt ≠ 0)
    (haligned : Aligned w (callRanges rt.numThreads rt.batchSize.toInt n)) (source : EVec S w n) :
    evalProtocol1arg (M := Id) rt false (fun x r => r.unpackFrom x 0) source
        (fun _ _ => 0 : EVec S w (n * w)) =
      some fun r => landed (callRanges rt.numThreads rt.batchSize.toInt n) (source r) (n * w) := by
  rw [evalUnpack_eq, foldlM_unpackRange hw le_rfl (tiles_callRanges hthreads hbatch)
    (Nat.le_mul_of_pos_right n hw) haligned _ fun _ _ _ => rfl]
  refine congrArg some (funext fun r => funext fun i => ?_)
  rw [if_neg (Nat.not_lt_zero _)]

end Unpacking

section Opening

variable {P : Protocol w} {x : P.scheme.Shares (Vec w n)} {a : Vec w n}

theorem bitString_xor (u v : Vec w n) (k : ℕ) :
    bitString (u ^^^ v) k = (bitString u k ^^ bitString v k) := by
  rw [bitString, bitString, bitString, Vec.getElem, Vec.getElem, Vec.getElem]
  split
  · exact BitVec.getLsbD_xor
  · simp

theorem landedBit_xor (ranges : List (ℕ × ℕ)) (u v : Vec w n) (k : ℕ) :
    landedBit ranges (u ^^^ v) k = (landedBit ranges u k ^^ landedBit ranges v k) := by
  rw [landedBit, landedBit, landedBit]
  cases ranges.find? fun range => range.1 ≤ k ∧ k < range.2 with
  | none => rfl
  | some range => exact bitString_xor u v _

theorem landed_opens (hx : OpensB x a) (ranges : List (ℕ × ℕ)) (m : ℕ) :
    OpensB (fun p r => landed ranges (x p r) m) (landed ranges a m) := by
  refine hx.map (fun v => landed ranges v m) fun u v => funext fun i => ?_
  simp only [landed, landedBit_xor, Vec.xor_apply]
  cases landedBit ranges u i <;> cases landedBit ranges v i <;> simp

theorem chunkedSum_opens {m : ℕ} {x : P.scheme.Shares (Vec w m)} {a : Vec w m} (hx : OpensA x a)
    (n : ℕ) : OpensA (fun p r (i : Fin n) => (Vec.chunkedSum (x p r) w).getElem i)
      fun i => (Vec.chunkedSum a w).getElem i := by
  refine hx.map (fun v (i : Fin n) => (Vec.chunkedSum v w).getElem i) fun u v => funext fun i => ?_
  simp only [Vec.getElem, Pi.add_apply]
  split
  · simp only [Vec.chunkedSum, Pi.add_apply, ← Finset.sum_add_distrib]
    generalize (if w = 0 then m else w) = aggSize
    refine Finset.sum_congr rfl fun j _ => ?_
    split
    · rfl
    · exact (add_zero 0).symm
  · exact (add_zero 0).symm

/-- A chunk of unpacked bits adds up to their number. -/
theorem chunkedSum_landed (hw : 0 < w) (ranges : List (ℕ × ℕ)) (i : Fin n) :
    (Vec.chunkedSum (landed ranges a (n * w)) w).getElem i =
      BitVec.ofNat w (landedWeight ranges a i) := by
  have hcount : i.val < Vec.chunkCount (n * w) w := by
    rw [Vec.chunkCount, if_neg hw.ne', Nat.add_sub_assoc hw, Nat.mul_comm n w,
      Nat.mul_add_div hw]
    exact Nat.lt_add_right _ i.isLt
  have hchunk : (i.val + 1) * w ≤ n * w := Nat.mul_le_mul_right w i.isLt
  let bit (k : ℕ) : BitVec w := if landedBit ranges a k then 1 else 0
  calc (Vec.chunkedSum (landed ranges a (n * w)) w).getElem i
      = ∑ j : Fin (n * w), if i.val * w ≤ j.val ∧ j.val < (i.val + 1) * w then bit j else 0 := by
        rw [Vec.getElem, dif_pos hcount, Vec.chunkedSum]
        simp only [if_neg hw.ne']
        rfl
    _ = ∑ k ∈ Finset.range (n * w), if i.val * w ≤ k ∧ k < (i.val + 1) * w then bit k else 0 :=
        Fin.sum_univ_eq_sum_range (fun k => if i.val * w ≤ k ∧ k < (i.val + 1) * w then bit k else 0) _
    _ = ∑ k ∈ Finset.Ico (i.val * w) ((i.val + 1) * w), bit k := by
        rw [← Finset.sum_filter]
        refine Finset.sum_congr ?_ fun _ _ => rfl
        ext k
        simp only [Finset.mem_filter, Finset.mem_range, Finset.mem_Ico]
        omega
    _ = ∑ j ∈ Finset.range w, bit (i.val * w + j) := by
        rw [Finset.sum_Ico_eq_sum_range, Nat.add_mul, Nat.one_mul, Nat.add_sub_cancel_left]
    _ = BitVec.ofNat w (landedWeight ranges a i) := by
        rw [landedWeight, ← BitVec.natCast_eq_ofNat, Nat.cast_sum]
        refine Finset.sum_congr rfl fun j _ => ?_
        cases hbit : landedBit ranges a (i.val * w + j) <;> simp [bit, hbit]

theorem mask_landed (ranges : List (ℕ × ℕ)) (m : ℕ) :
    Vec.mask (landed ranges a m) 1 = landed ranges a m := by
  funext i
  rw [Vec.mask, landed]
  split
  · exact BitVec.and_self
  · exact BitVec.zero_and

/-- Whatever the division into aligned ranges, the opened sums are the weights of what lands. -/
theorem popcount_computes {K : Converter P} {rt : RunTime} (hw : 0 < w) (hthreads : 0 < rt.numThreads)
    (hbatch : rt.batchSize.toInt ≠ 0)
    (haligned : Aligned w (callRanges rt.numThreads rt.batchSize.toInt n)) (hx : OpensB x a) :
    P.Ensures (fun p => popcount K rt p (x p)) fun z => ∃ out : P.scheme.Shares (Vec w n),
      (∀ p, z p = some (out p)) ∧ OpensA out fun i =>
        BitVec.ofNat w (landedWeight (callRanges rt.numThreads rt.batchSize.toInt n) a i) := by
  let ranges := callRanges rt.numThreads rt.batchSize.toInt n
  have hconv := elementwise_computes (f := K.b2aBit) (g := (· &&& 1)) true false hthreads hbatch
    (fun hx => K.b2aBit_computes hx)
    (landed_opens hx ranges (n * w)) Converter.zeroA_opens
  simp only [popcount, evalUnpack_landed hw hthreads hbatch haligned]
  refine hconv.bind fun conv hconv => ?_
  obtain ⟨out, hout, hopens⟩ := hconv
  have hmask : (fun i => landed ranges a (n * w) i &&& 1) = landed ranges a (n * w) := mask_landed _ _
  rw [hmask] at hopens
  have hsum := chunkedSum_opens hopens n
  simp only [chunkedSum_landed hw] at hsum
  exact Computes.pure ⟨_, fun p => congrArg _ (hout p), hsum⟩

/-- A range that is not aligned leaves no result. -/
theorem popcount_none {K : Converter P} {rt : RunTime}
    (hranges : ¬ Aligned w (callRanges rt.numThreads rt.batchSize.toInt n))
    (x : P.scheme.Shares (Vec w n)) :
    P.Ensures (fun p => popcount K rt p (x p)) fun z => ∀ p, z p = none := by
  have hunpack (p : P.Party) : popcount K rt p (x p) = pure none := by
    rw [popcount, evalUnpack_eq, foldlM_unpackRange_none hranges]
    rfl
  simp only [hunpack]
  exact Computes.pure fun _ => rfl

end Opening

section Correct

variable {P : Protocol w} {K : Converter P} {rt : RunTime} {a : Vec w n}

theorem bitSum_le (bit : ℕ → Bool) : ∑ j ∈ Finset.range w, (bit j).toNat ≤ w := by
  calc ∑ j ∈ Finset.range w, (bit j).toNat ≤ ∑ _j ∈ Finset.range w, 1 :=
        Finset.sum_le_sum fun j _ => Bool.toNat_le (bit j)
    _ = w := by rw [Finset.sum_const, Finset.card_range, smul_eq_mul, Nat.mul_one]

theorem ofNat_bitSum_inj {bit bit' : ℕ → Bool}
    (h : BitVec.ofNat w (∑ j ∈ Finset.range w, (bit j).toNat) =
      BitVec.ofNat w (∑ j ∈ Finset.range w, (bit' j).toNat)) :
    ∑ j ∈ Finset.range w, (bit j).toNat = ∑ j ∈ Finset.range w, (bit' j).toNat := by
  have hval := congrArg BitVec.toNat h
  have hlt := Nat.lt_two_pow_self (n := w)
  rw [BitVec.toNat_ofNat, BitVec.toNat_ofNat, Nat.mod_eq_of_lt ((bitSum_le bit).trans_lt hlt),
    Nat.mod_eq_of_lt ((bitSum_le bit').trans_lt hlt)] at hval
  exact hval

/-- The weights are right where the ranges are aligned and as many bits land as are set. -/
theorem popcountCorrect_iff (hw : 0 < w) (hthreads : 0 < rt.numThreads)
    (hbatch : rt.batchSize.toInt ≠ 0) :
    PopcountCorrect K rt a ↔ Aligned w (callRanges rt.numThreads rt.batchSize.toInt n) ∧ ∀ i : Fin n,
      landedWeight (callRanges rt.numThreads rt.batchSize.toInt n) a i = hammingWeight (a i) := by
  constructor
  · intro h
    have hx : OpensB (fun p => K.publicShare p a ∅) a := K.publicShare_all true a
    by_cases haligned : Aligned w (callRanges rt.numThreads rt.batchSize.toInt n)
    · obtain ⟨z, ⟨out, hz, hout⟩, out', hz', hout'⟩ := (Computes.and (h _ hx)
        (popcount_computes hw hthreads hbatch haligned hx)).exists_value P.correlated_zero
      obtain rfl : out = out' := funext fun p => Option.some.inj ((hz p).symm.trans (hz' p))
      exact ⟨haligned, fun i => (ofNat_bitSum_inj (congrFun (hout.unique hout') i)).symm⟩
    · obtain ⟨z, ⟨out, hz, -⟩, hnone⟩ := (Computes.and (h _ hx)
        (popcount_none haligned _)).exists_value P.correlated_zero
      exact absurd ((hz 0).symm.trans (hnone 0)) (Option.some_ne_none _)
  · rintro ⟨haligned, h⟩ x hx
    have hcomputes := popcount_computes (K := K) hw hthreads hbatch haligned hx
    simp only [h] at hcomputes
    exact hcomputes

theorem bitString_mul_add (i : Fin n) {j : ℕ} (hj : j < w) :
    bitString a (i.val * w + j) = (a i).getLsbD j := by
  have hdiv : (i.val * w + j) / w = i.val := by
    rw [Nat.mul_comm, Nat.mul_add_div (by omega), Nat.div_eq_of_lt hj, Nat.add_zero]
  rw [bitString, hdiv, Vec.getElem, dif_pos i.isLt, Nat.mul_comm, Nat.mul_add_mod,
    Nat.mod_eq_of_lt hj]

theorem landedBit_one (k : ℕ) : landedBit [(0, n)] a k = (decide (k < n) && bitString a k) := by
  by_cases hk : k < n
  · rw [landedBit_cons_in ⟨Nat.zero_le k, hk⟩, Nat.sub_zero, decide_eq_true hk, Bool.true_and]
  · rw [landedBit_cons_out (fun h => hk h.2), decide_eq_false hk, Bool.false_and]
    rfl

/-- A call that is not divided leaves the first `n` bits. -/
theorem landedWeight_one_iff :
    (∀ i : Fin n, landedWeight [(0, n)] a i = hammingWeight (a i)) ↔
      ∀ (i : Fin n) (j : ℕ), j < w → n ≤ i.val * w + j → (a i).getLsbD j = false := by
  have hle (i : Fin n) : ∀ j ∈ Finset.range w,
      (landedBit [(0, n)] a (i.val * w + j)).toNat ≤ ((a i).getLsbD j).toNat := by
    intro j hj
    rw [landedBit_one, bitString_mul_add i (Finset.mem_range.mp hj)]
    cases decide (i.val * w + j < n) <;> simp
  simp only [landedWeight, hammingWeight, fun i => Finset.sum_eq_sum_iff_of_le (hle i)]
  refine forall_congr' fun i => forall_congr' fun j => ?_
  rw [Finset.mem_range]
  refine forall_congr' fun hj => ?_
  rw [landedBit_one, bitString_mul_add i hj]
  by_cases hk : i.val * w + j < n
  · simp [hk]
  · cases (a i).getLsbD j <;> simp [hk]

theorem landedBit_behind {ranges : List (ℕ × ℕ)} (hranges : Tiles 0 ranges n) {k : ℕ} (hk : n ≤ k) :
    landedBit ranges a k = false := by
  have hnone : (ranges.find? fun range => range.1 ≤ k ∧ k < range.2) = none := by
    refine List.find?_eq_none.mpr fun range hrange hin => ?_
    have hbounds := hranges.bounds hrange
    have hlt := (of_decide_eq_true hin).2
    omega
  rw [landedBit, hnone]
  rfl

/-- The last bit of the last element never lands. -/
theorem landedWeight_lt (hw : 2 ≤ w) (hn : 0 < n) {ranges : List (ℕ × ℕ)} (hranges : Tiles 0 ranges n) :
    landedWeight ranges a (n - 1) < w := by
  obtain ⟨v, rfl⟩ : ∃ v, w = v + 1 := ⟨w - 1, by omega⟩
  have hlast : n ≤ (n - 1) * (v + 1) + v := by
    have hle : (n - 1) * 2 ≤ (n - 1) * (v + 1) := Nat.mul_le_mul_left _ hw
    omega
  have hrest := Finset.sum_le_sum fun j (_ : j ∈ Finset.range v) =>
    Bool.toNat_le (landedBit ranges a ((n - 1) * (v + 1) + j))
  rw [Finset.sum_const, Finset.card_range, smul_eq_mul, Nat.mul_one] at hrest
  rw [landedWeight, Finset.sum_range_succ, landedBit_behind hranges hlast]
  exact Nat.lt_succ_of_le hrest

theorem hammingWeight_allOnes : hammingWeight (BitVec.allOnes w) = w := by
  calc hammingWeight (BitVec.allOnes w) = ∑ _j ∈ Finset.range w, 1 := by
        refine Finset.sum_congr rfl fun j hj => ?_
        rw [BitVec.getLsbD_allOnes, decide_eq_true (Finset.mem_range.mp hj)]
        rfl
    _ = w := by rw [Finset.sum_const, Finset.card_range, smul_eq_mul, Nat.mul_one]

/-- Which vectors have their weights computed, for every division and for a call that is not divided. -/
theorem popcount_correct_iff (K : Converter P) (rt : RunTime) (n : ℕ) (hw : w ∈ shareWidths)
    (hthreads : 0 < rt.numThreads) (hbatch : rt.batchSize.toInt ≠ 0) :
    (∀ a : Vec w n, PopcountCorrect K rt a ↔
        Aligned w (callRanges rt.numThreads rt.batchSize.toInt n) ∧ ∀ i : Fin n,
          landedWeight (callRanges rt.numThreads rt.batchSize.toInt n) a i = hammingWeight (a i)) ∧
      (OneRange rt.numThreads rt.batchSize.toInt n → ∀ a : Vec w n, PopcountCorrect K rt a ↔
        ∀ (i : Fin n) (j : ℕ), j < w → n ≤ i.val * w + j → (a i).getLsbD j = false) ∧
      ((∀ a : Vec w n, PopcountCorrect K rt a) ↔ n = 0) := by
  have hw8 := (shareWidth_facts hw).1
  have hiff (a : Vec w n) := popcountCorrect_iff (K := K) (a := a) (by omega) hthreads hbatch
  refine ⟨hiff, fun hone a => (hiff a).trans ?_, fun h => ?_, fun hn a => ?_⟩
  · rcases Nat.eq_zero_or_pos n with rfl | hn
    · rw [callRanges_zero hthreads hbatch]
      exact ⟨fun _ i => i.elim0, fun _ => ⟨aligned_nil w, fun i => i.elim0⟩⟩
    · rw [callRanges_oneRange hthreads hbatch hn hone]
      exact (and_iff_right (aligned_one w n)).trans landedWeight_one_iff
  · by_contra hn
    have hpos : 0 < n := Nat.pos_of_ne_zero hn
    have hweight := ((hiff fun _ => BitVec.allOnes w).mp (h _)).2 ⟨n - 1, by omega⟩
    have hlt := landedWeight_lt (a := fun _ => BitVec.allOnes w) (by omega) hpos
      (tiles_callRanges hthreads hbatch)
    rw [hammingWeight_allOnes] at hweight
    exact absurd hweight hlt.ne
  · subst hn
    refine (hiff a).mpr ⟨?_, fun i => i.elim0⟩
    rw [callRanges_zero hthreads hbatch]
    exact aligned_nil w

/-- One byte with its second bit set, with the default batch size. -/
theorem popcount_correct_fails :
    ¬ PopcountCorrect (replicated3PCConverter 8) ⟨1, -12⟩ (fun _ => 2 : Vec 8 1) := by
  intro h
  have hbits := ((popcountCorrect_iff (by decide) (by decide) (by decide)).mp h).2
  rw [callRanges_oneRange (by decide) (by decide) (by decide) (by decide)] at hbits
  exact absurd (landedWeight_one_iff.mp hbits 0 1) (by decide)

theorem popcount_correct_iff_one :
    PopcountCorrect (replicated3PCConverter 8) ⟨1, -12⟩ (fun _ => 1 : Vec 8 1) := by
  have hbits := ((popcount_correct_iff (replicated3PCConverter 8) ⟨1, -12⟩ 1 (by decide) (by decide)
    (by decide)).2.1 (by decide) fun _ => 1).mpr
  refine hbits fun i j hj hle => ?_
  have hj0 : j ≠ 0 := by omega
  simp [BitVec.getLsbD_one, hj0]

end Correct

end CryptDough
