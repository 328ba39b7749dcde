import CryptDough.BatchedCalls
import CryptDough.ConversionProtocols

/-! # Packed operations in batches

The result of packing is shorter than the operand and the result of unpacking longer, but the tasks set
the batch of the result to the range of the operand. -/

namespace CryptDough

open Process Sharing Protocol

/-- The numbers of bits of a share. -/
def shareWidths : List ℕ := [8, 16, 32, 64, 128]

variable {w n m : ℕ}

section Functions

variable {P : Protocol w} (K : Converter P) (partyID : P.Party)

def rippleCarryAdderPackedSignB (carryIn : Bool) (x y : Batched P.scheme w n)
    (res : Batched P.scheme w m) : P.Program (Option (Batched P.scheme w m)) := do
  let sum ← P.rippleCarryAdderPackedSign partyID x.elements
    (fun r i => (y.elements r).getElem i) carryIn
  pure (res.assign sum)

def a2bPackedSignAB (x : Batched P.scheme w n) (out : Batched P.scheme w m) :
    P.Program (Option (Batched P.scheme w m)) := do
  let sign ← K.a2bPackedSign partyID x.elements
  pure (out.assign sign)

end Functions

/-- The call of `pack_from` leaves what one call of the protocol function on the whole vectors does. -/
def PackTransparent (S : Scheme) (rt : RunTime) (w n : ℕ) : Prop :=
  ∀ (position : ℕ) (source : EVec S w n) (res : EVec S w (Vec.compressedSize w n)),
    evalProtocol1arg (M := Id) rt false (fun x r => r.packFrom x position) source res =
      ((Batched.whole res).packFrom (Batched.whole source) position).map Batched.data

def UnpackTransparent (S : Scheme) (rt : RunTime) (w n : ℕ) : Prop :=
  ∀ (position : ℕ) (source : EVec S w (Vec.compressedSize w n)) (res : EVec S w n),
    evalProtocol1arg (M := Id) rt false (fun x r => r.unpackFrom x position) source res =
      ((Batched.whole res).unpackFrom (Batched.whole source) position).map Batched.data

/-- Whatever holds of the results of one call in every interleaving holds of the divided call's, and
the other way round. -/
def RippleTransparent (P : Protocol w) (rt : RunTime) (n : ℕ) : Prop :=
  ∀ (carryIn : Bool) (x y : P.scheme.Shares (Vec w n))
    (res : P.scheme.Shares (Vec w (Vec.compressedSize w n)))
    (post : (P.Party → Option (EVec P.scheme w (Vec.compressedSize w n))) → Prop),
    P.Ensures (fun p => evalProtocol2arg rt (rippleCarryAdderPackedSignB p carryIn) (x p) (y p)
        (res p)) post ↔
      P.Ensures (fun p => Option.map Batched.data <$> rippleCarryAdderPackedSignB p carryIn
        (Batched.whole (x p)) (Batched.whole (y p)) (Batched.whole (res p))) post

def A2bTransparent {P : Protocol w} (K : Converter P) (rt : RunTime) (n : ℕ) : Prop :=
  ∀ (x : P.scheme.Shares (Vec w n)) (res : P.scheme.Shares (Vec w (Vec.compressedSize w n)))
    (post : (P.Party → Option (EVec P.scheme w (Vec.compressedSize w n))) → Prop),
    P.Ensures (fun p => evalProtocol1arg rt true (a2bPackedSignAB K p) (x p) (res p)) post ↔
      P.Ensures (fun p => Option.map Batched.data <$> a2bPackedSignAB K p (Batched.whole (x p))
        (Batched.whole (res p))) post

section Sizes

/-- Eight elements at least share one. -/
theorem compressedSize_eight (hw : 8 ≤ w) : 8 * Vec.compressedSize w n ≤ n + 7 := by
  rw [Vec.compressedSize]
  have hdiv := Nat.div_add_mod n w
  have hle : 8 * (n / w) ≤ w * (n / w) := Nat.mul_le_mul_right _ hw
  generalize w * (n / w) = whole at hdiv hle
  split
  · omega
  · omega

theorem compressedSize_le (hw : 8 ≤ w) : Vec.compressedSize w n ≤ n := by
  have hle := compressedSize_eight (n := n) hw
  omega

/-- Behind a whole number of packed elements another one is needed. -/
theorem compressedSize_lt {e : ℕ} (hw : 0 < w) (he : w ∣ e) (hlt : e < n) :
    Vec.compressedSize w e < Vec.compressedSize w n := by
  obtain ⟨k, rfl⟩ := he
  have hdiv := Nat.div_add_mod n w
  have hle : k ≤ n / w := (Nat.le_div_iff_mul_le hw).mpr (by rw [Nat.mul_comm]; exact hlt.le)
  rw [Vec.compressedSize, Vec.compressedSize, Nat.mul_div_cancel_left k hw, Nat.mul_mod_right,
    if_neg (lt_irrefl 0)]
  rcases Nat.eq_or_lt_of_le hle with heq | hgt
  · rw [← heq] at hdiv ⊢
    rw [if_pos (by omega)]
    omega
  · omega

end Sizes

section Pack

variable {S : Scheme} {rt : RunTime}

/-- What the task of a packing call does on one range. -/
def packRange (source : EVec S w n) (position : ℕ) (data : EVec S w m) (range : ℕ × ℕ) :
    Option (EVec S w m) :=
  (((Batched.whole data).setBatch range).packFrom (Batched.whole source) position).map Batched.data

theorem evalPack_eq (source : EVec S w n) (position : ℕ) (res : EVec S w m) :
    evalProtocol1arg (M := Id) rt false (fun x r => r.packFrom x position) source res =
      (callRanges rt.numThreads rt.batchSize.toInt n).foldlM (packRange source position) res :=
  executeRanges_pure (packRange source position) _ res

/-- A range that starts within a packed element fails an assertion, one that starts behind the result is
out of its bounds, the others are packed from the beginning of the source. -/
theorem packRange_eq (source : EVec S w n) (position : ℕ) (data : EVec S w m) (range : ℕ × ℕ) :
    packRange source position data range =
      if range.1 % w ≠ 0 ∨ min range.2 m < range.1 then none
      else some fun r i =>
        if range.1 ≤ i.val ∧ (i.val - range.1) * w < min ((min range.2 m - range.1) * w) n then
          Vec.packChunk (source r) position (i.val - range.1) w
        else data r i := by
  rw [packRange, Batched.packFrom]
  simp only [Batched.whole_elements]
  by_cases hout : ((Batched.whole data).setBatch range).batchStart % w ≠ 0 ∨
      ((Batched.whole data).setBatch range).Wraps
  · rw [if_pos hout, if_pos (show range.1 % w ≠ 0 ∨ min range.2 m < range.1 from hout)]
    rfl
  · rw [if_neg hout, if_neg (show ¬ (range.1 % w ≠ 0 ∨ min range.2 m < range.1) from hout)]
    rfl

/-- One call on the whole vectors. -/
theorem packFrom_whole (source : EVec S w n) (position : ℕ) (res : EVec S w m) :
    ((Batched.whole res).packFrom (Batched.whole source) position).map Batched.data =
      some fun r i => if i.val * w < min (m * w) n then Vec.packChunk (source r) position i.val w
        else res r i := by
  have hrange := packRange_eq source position res (0, m)
  rw [packRange, Batched.setBatch_all res le_rfl, if_neg (by simp)] at hrange
  rw [hrange]
  simp only [min_self, Nat.sub_zero, Nat.zero_le, true_and]

/-- In a finished call every range starts within the result, and the element it starts at holds the
first bits of the source. -/
theorem foldlM_packRange (hw : 0 < w) (hn : 0 < n) {source : EVec S w n} {position : ℕ}
    {data data' : EVec S w m} {ranges : List (ℕ × ℕ)} {start stop : ℕ}
    (htiles : Tiles start ranges stop) (hnonempty : ∀ range ∈ ranges, range.1 < range.2)
    (h : ranges.foldlM (packRange source position) data = some data') :
    (∀ r, ∀ i : Fin m, i.val < start → data' r i = data r i) ∧
      ∀ range ∈ ranges, range.1 ≤ m ∧
        ∀ r, ∀ i : Fin m, i.val = range.1 → data' r i = Vec.packChunk (source r) position 0 w := by
  induction ranges generalizing start data with
  | nil =>
      cases h
      exact ⟨fun _ _ _ => rfl, fun range hrange => absurd hrange List.not_mem_nil⟩
  | cons range ranges ih =>
      rw [List.foldlM_cons] at h
      obtain ⟨mid, hmid, hrest⟩ := Option.bind_eq_some_iff.mp h
      obtain ⟨rfl, hle, htail⟩ := htiles
      have hlt := hnonempty range List.mem_cons_self
      rw [packRange_eq] at hmid
      obtain ⟨hstart, hmid⟩ := Option.ite_none_left_eq_some.mp hmid
      have hpacked (r : S.Slot) (i : Fin m) := congrFun (congrFun (Option.some.inj hmid) r) i
      obtain ⟨hkeep, hall⟩ := ih htail (fun r hr => hnonempty r (List.mem_cons_of_mem _ hr)) hrest
      refine ⟨fun r i hi => ?_, fun range' hrange' => ?_⟩
      · rw [hkeep r i (by omega), ← hpacked r i, if_neg (by omega)]
      · rcases List.mem_cons.mp hrange' with rfl | hrange'
        · refine ⟨by omega, fun r i hi => ?_⟩
          have hroom : 0 < (min range'.2 m - range'.1) * w := by
            have him := i.isLt
            exact Nat.mul_pos (by omega) hw
          rw [hkeep r i (by omega), ← hpacked r i, hi, Nat.sub_self, Nat.zero_mul,
            if_pos ⟨le_rfl, lt_min hroom hn⟩]
        · exact hall range' hrange'

/-- The first bit of the source, alone. -/
def firstBit (S : Scheme) (w n : ℕ) : EVec S w n := fun _ i => if i.val = 0 then 1 else 0

theorem packChunk_firstBit (r : S.Slot) (hw : 0 < w) (hn : 0 < n) (p : ℕ) :
    (Vec.packChunk (firstBit S w n r) 0 p w).getLsbD 0 = decide (p = 0) := by
  rw [Vec.getLsbD_packChunk, decide_eq_true hw, Bool.true_and, Bool.true_and, Nat.add_zero]
  rcases Nat.eq_zero_or_pos p with rfl | hp
  · rw [Nat.zero_mul, dif_pos hn]
    simp [firstBit, hw]
  · have hne : p * w ≠ 0 := (Nat.mul_pos hp hw).ne'
    rw [decide_eq_false hp.ne']
    split
    · simp [firstBit, hne]
    · rfl

/-- If packing is transparent, all ranges but the first start at the end of the result. -/
theorem start_of_packTransparent (hw : 8 ≤ w) (hthreads : 0 < rt.numThreads)
    (hbatch : rt.batchSize.toInt ≠ 0) (hn : 0 < n) (h : PackTransparent S rt w n) {range : ℕ × ℕ}
    (hrange : range ∈ callRanges rt.numThreads rt.batchSize.toInt n) (hpos : 0 < range.1) :
    range.1 = Vec.compressedSize w n := by
  have hcall := h 0 (firstBit S w n) fun _ _ => 0
  rw [evalPack_eq, packFrom_whole] at hcall
  obtain ⟨-, hall⟩ := foldlM_packRange (by omega) hn (tiles_callRanges hthreads hbatch)
    (fun r hr => callRanges_nonempty hthreads hbatch hr) hcall
  obtain ⟨hle, hfirst⟩ := hall range hrange
  by_contra hne
  have hlt : range.1 < Vec.compressedSize w n := by omega
  -- one call on the whole vectors leaves the lowest bit unset here
  have hbit := congrArg (BitVec.getLsbD · 0) (hfirst 0 ⟨range.1, hlt⟩ rfl)
  simp only [packChunk_firstBit _ (show 0 < w by omega) hn, decide_true] at hbit
  split at hbit
  · rw [packChunk_firstBit _ (by omega) hn, decide_eq_true_eq] at hbit
    omega
  · simp at hbit

/-- A divided call has a range that starts elsewhere. -/
theorem oneRange_of_packTransparent (hw : 8 ≤ w) (hthreads : 0 < rt.numThreads)
    (hbatch : rt.batchSize.toInt ≠ 0) (haligned : rt.batchSize.toInt < 0 ∨ 128 ∣ rt.batchSize.toInt)
    (h : PackTransparent S rt w n) : OneRange rt.numThreads rt.batchSize.toInt n := by
  by_contra hone
  have hn : 0 < n := by
    by_contra hn
    obtain rfl : n = 0 := by omega
    exact hone (oneRange_zero _ _)
  obtain ⟨e, rs, hranges, he, hlt, htiles⟩ := callRanges_not_oneRange hthreads hbatch hn hone
  have hstart {range : ℕ × ℕ} (hrange : range ∈ rs) : range.1 = Vec.compressedSize w n := by
    have hmem := List.mem_cons_of_mem (0, e) hrange
    have hbounds := htiles.bounds hrange
    rw [← hranges] at hmem
    exact start_of_packTransparent hw hthreads hbatch hn h hmem (by omega)
  -- so there is one more range, from the end of the result to the end of the source
  obtain ⟨second, hrs⟩ : ∃ second : ℕ × ℕ, rs = [second] := by
    cases rs with
    | nil => exact absurd htiles (by simp; omega)
    | cons second rs =>
        cases rs with
        | nil => exact ⟨second, rfl⟩
        | cons third rs =>
            have hsecond := hstart (List.mem_cons_self (a := second))
            have hthird := hstart (List.mem_cons_of_mem second (List.mem_cons_self (a := third)))
            have hlt := callRanges_nonempty hthreads hbatch
              (hranges ▸ List.mem_cons_of_mem _ List.mem_cons_self : second ∈ _)
            have hnext := htiles.2.2.1
            omega
  have hsecond := hstart (hrs ▸ List.mem_cons_self)
  have hmem : second ∈ callRanges rt.numThreads rt.batchSize.toInt n := by
    rw [hranges, hrs]
    exact List.mem_cons_of_mem _ List.mem_cons_self
  obtain ⟨hnext, -, hend⟩ : second.1 = e ∧ _ ∧ second.2 = n := hrs ▸ htiles
  have hsize := compressedSize_eight (n := n) hw
  have hfirst : (0, e) ∈ callRanges rt.numThreads rt.batchSize.toInt n := by
    rw [hranges]
    exact List.mem_cons_self
  obtain ⟨-, hdvd⟩ := dvd_callRanges hthreads hbatch dvd_rfl hfirst
  have hge := Nat.le_of_dvd he (hdvd.resolve_right hlt.ne)
  by_cases hpos : 0 < rt.batchSize.toInt
  · rw [if_neg (by omega)] at hge
    have hle := callRanges_le_batchSize hthreads hpos hmem
    omega
  · rw [if_pos (by omega), minimumChunkSize] at hge
    have hle := callRanges_le_half hthreads (by omega) hone hmem
    omega

theorem packTransparent_iff (hw : 8 ≤ w) (hthreads : 0 < rt.numThreads)
    (hbatch : rt.batchSize.toInt ≠ 0) (haligned : rt.batchSize.toInt < 0 ∨ 128 ∣ rt.batchSize.toInt) :
    PackTransparent S rt w n ↔ OneRange rt.numThreads rt.batchSize.toInt n := by
  refine ⟨oneRange_of_packTransparent hw hthreads hbatch haligned, fun hone position source res => ?_⟩
  rcases Nat.eq_zero_or_pos n with rfl | hn
  · rw [evalPack_eq, callRanges_zero hthreads hbatch, packFrom_whole]
    refine congrArg some (funext fun r => funext fun i => ?_)
    rw [Nat.min_zero, if_neg (Nat.not_lt_zero _)]
  · exact evalProtocol1arg_oneRange hthreads hbatch hn hone (compressedSize_le hw) false _ source res

end Pack

section Unpack

variable {S : Scheme} {rt : RunTime}

/-- What the task of an unpacking call does on one range. -/
def unpackRange (source : EVec S w n) (position : ℕ) (data : EVec S w m) (range : ℕ × ℕ) :
    Option (EVec S w m) :=
  (((Batched.whole data).setBatch range).unpackFrom (Batched.whole source) position).map Batched.data

theorem evalUnpack_eq (source : EVec S w n) (position : ℕ) (res : EVec S w m) :
    evalProtocol1arg (M := Id) rt false (fun x r => r.unpackFrom x position) source res =
      (callRanges rt.numThreads rt.batchSize.toInt n).foldlM (unpackRange source position) res :=
  executeRanges_pure (unpackRange source position) _ res

/-- A range that starts at the boundary of a packed element is filled from the beginning of the
source. -/
theorem unpackRange_eq (source : EVec S w n) (position : ℕ) (data : EVec S w m) (range : ℕ × ℕ) :
    unpackRange source position data range =
      if range.1 % w ≠ 0 ∨ min range.2 m < range.1 ∨ n * w < min range.2 m - range.1 then none
      else some fun r i =>
        if range.1 ≤ i.val ∧ i.val - range.1 < min range.2 m - range.1 then
          Vec.setBitValue (data r i)
            (Vec.getBit ((source r).getElem ((i.val - range.1) / w)) ((i.val - range.1) % w)) position
        else data r i := by
  rw [unpackRange, Batched.unpackFrom]
  simp only [Batched.whole_elements]
  by_cases hout : ((Batched.whole data).setBatch range).batchStart % w ≠ 0 ∨
      ((Batched.whole data).setBatch range).Wraps ∨
      (Batched.whole source).size * w < ((Batched.whole data).setBatch range).size
  · have hout' : range.1 % w ≠ 0 ∨ min range.2 m < range.1 ∨ n * w < min range.2 m - range.1 := hout
    rw [if_pos hout, if_pos hout']
    rfl
  · have hout' : ¬ (range.1 % w ≠ 0 ∨ min range.2 m < range.1 ∨ n * w < min range.2 m - range.1) :=
      hout
    rw [if_neg hout, if_neg hout']
    rfl

/-- One call on the whole vectors. -/
theorem unpackFrom_whole (source : EVec S w n) (position : ℕ) (res : EVec S w m) (hm : m ≤ n * w) :
    ((Batched.whole res).unpackFrom (Batched.whole source) position).map Batched.data =
      some fun r i => Vec.setBitValue (res r i)
        (Vec.getBit ((source r).getElem (i.val / w)) (i.val % w)) position := by
  have hrange := unpackRange_eq source position res (0, m)
  rw [unpackRange, Batched.setBatch_all res le_rfl, if_neg (by simp; omega)] at hrange
  rw [hrange]
  simp only [min_self, Nat.sub_zero, Nat.zero_le, true_and, Fin.is_lt, if_true]

/-- The ranges end within the source, and so does what they fill. -/
theorem foldlM_unpackRange_keeps {source : EVec S w n} {position : ℕ} {data data' : EVec S w m}
    {ranges : List (ℕ × ℕ)} {start stop : ℕ} (htiles : Tiles start ranges stop)
    (h : ranges.foldlM (unpackRange source position) data = some data') (r : S.Slot) (i : Fin m)
    (hi : stop ≤ i.val) : data' r i = data r i := by
  induction ranges generalizing start data with
  | nil =>
      cases h
      rfl
  | cons range ranges ih =>
      rw [List.foldlM_cons] at h
      obtain ⟨mid, hmid, hrest⟩ := Option.bind_eq_some_iff.mp h
      obtain ⟨-, hle, htail⟩ := htiles
      have hstop := htail.le
      rw [unpackRange_eq] at hmid
      obtain ⟨-, hmid⟩ := Option.ite_none_left_eq_some.mp hmid
      rw [ih htail hrest, ← Option.some.inj hmid]
      exact if_neg (by omega)

theorem le_compressedSize_mul (hw : 0 < w) : n ≤ Vec.compressedSize w n * w := by
  rw [Vec.compressedSize]
  have hdiv := Nat.div_add_mod' n w
  have hmod := Nat.mod_lt n hw
  rw [Nat.add_mul]
  split
  · omega
  · omega

/-- Of two elements or more the last is never filled. -/
theorem unpackTransparent_iff (hw : 8 ≤ w) (hthreads : 0 < rt.numThreads)
    (hbatch : rt.batchSize.toInt ≠ 0) : UnpackTransparent S rt w n ↔ n ≤ 1 := by
  have hsize := compressedSize_eight (n := n) hw
  constructor
  · intro h
    by_contra hn
    have hcall := h 0 (fun _ _ => BitVec.allOnes w) fun _ _ => 0
    rw [evalUnpack_eq, unpackFrom_whole _ _ _ (le_compressedSize_mul (by omega))] at hcall
    have hkeep := foldlM_unpackRange_keeps (tiles_callRanges hthreads hbatch) hcall 0
      ⟨n - 1, by omega⟩ (by simp only; omega)
    have hsource : (n - 1) / w < Vec.compressedSize w n := Vec.div_lt_compressedSize (by omega) (by omega)
    have hmod := Nat.mod_lt (n - 1) (show 0 < w by omega)
    have hbit := congrArg (BitVec.getLsbD · 0) hkeep
    simp only [Vec.getLsbD_setBitValue, Vec.getElem, hsource, dite_true, if_true,
      decide_eq_true (show 0 < w by omega), BitVec.getLsbD_allOnes, decide_eq_true hmod] at hbit
    simp at hbit
  · intro hn position source res
    rcases Nat.eq_zero_or_pos (Vec.compressedSize w n) with hzero | hpos
    · have hn0 : n = 0 := by
        have hle := le_compressedSize_mul (n := n) (show 0 < w by omega)
        rw [hzero] at hle
        omega
      subst hn0
      have hnil : callRanges rt.numThreads rt.batchSize.toInt (Vec.compressedSize w 0) = [] := by
        rw [hzero]
        exact callRanges_zero hthreads hbatch
      rw [evalUnpack_eq, hnil, unpackFrom_whole _ _ _ (Nat.zero_le _)]
      exact congrArg some (funext fun r => funext fun i => i.elim0)
    · refine evalProtocol1arg_oneRange hthreads hbatch hpos ?_ (by omega) false _ source res
      rw [OneRange]
      split
      · omega
      · exact .inl (by omega)

end Unpack

section PackedSign

variable {P : Protocol w} {K : Converter P} {rt : RunTime} {β : Type}

/-- A program whose result is certain ensures what holds of the result. -/
theorem ensures_iff_of_eq {prog : P.Party → P.Program β} {value : P.Party → β}
    (hprog : P.Ensures prog (· = value)) (post : (P.Party → β) → Prop) :
    P.Ensures prog post ↔ post value := by
  refine ⟨fun hpost => ?_, fun hpost => hprog.mono fun z hz => hz ▸ hpost⟩
  obtain ⟨z, hz, hzpost⟩ := (Computes.and hprog hpost).exists_value P.correlated_zero
  exact hz ▸ hzpost

theorem assign_whole {S : Scheme} (v other : EVec S w n) :
    ((Batched.whole v).assign other).map Batched.data = some other := by
  rw [Batched.assign, if_neg (by simp [Batched.Wraps, Batched.whole, Batched.size])]
  refine congrArg some (funext fun r => funext fun i => ?_)
  simp [Batched.whole, Vec.getElem]

/-- A task that computes packed signs for its range and assigns them to its batch of the result. -/
def signRange {S : Scheme} {k : ℕ × ℕ → ℕ} {M : Type → Type} [Monad M]
    (circuit : (range : ℕ × ℕ) → M (EVec S w (k range))) (data : EVec S w m) (range : ℕ × ℕ) :
    M (Option (EVec S w m)) := do
  let sum ← circuit range
  pure ((((Batched.whole data).setBatch range).assign sum).map Batched.data)

/-- A first range that is longer than its packed signs ends the call. -/
theorem signRange_fails {k : ℕ × ℕ → ℕ}
    {circuit : P.Party → (range : ℕ × ℕ) → P.Program (EVec P.scheme w (k range))} {e : ℕ}
    (hcircuit : P.Ensures (fun p => circuit p (0, e)) fun _ => True) (hlt : k (0, e) < min e m)
    (rs : List (ℕ × ℕ)) (res : P.scheme.Shares (Vec w m)) :
    P.Ensures (fun p => executeRanges (signRange (circuit p)) ((0, e) :: rs) (res p))
      fun z => ∀ p, z p = none := by
  refine Computes.bind (?_ : P.Ensures _ fun z => ∀ p, z p = none) fun z hz => ?_
  · refine hcircuit.bind fun sum _ => Computes.pure fun p => ?_
    rw [Batched.assign, if_pos (.inr hlt)]
    rfl
  · simp only [hz]
    exact Computes.pure fun _ => rfl

/-- What the whole circuit computes is assigned to the whole result. -/
theorem signWhole_ensures {circuit : P.Party → P.Program (EVec P.scheme w m)}
    (hcircuit : P.Ensures circuit fun _ => True) (res : P.scheme.Shares (Vec w m)) :
    P.Ensures (fun p => do
        let sum ← circuit p
        pure (((Batched.whole (res p)).assign sum).map Batched.data))
      fun z => ∀ p, (z p).isSome := by
  refine hcircuit.bind fun sum _ => Computes.pure fun p => ?_
  rw [assign_whole]
  rfl

theorem shareWidth_facts (hw : w ∈ shareWidths) : 8 ≤ w ∧ w ∣ 128 := by
  simp only [shareWidths, List.mem_cons, List.not_mem_nil, or_false] at hw
  rcases hw with rfl | rfl | rfl | rfl | rfl <;> decide

/-- A call that is divided reads past its packed signs. -/
theorem divided_fails (hw : w ∈ shareWidths) (hthreads : 0 < rt.numThreads)
    (hbatch : rt.batchSize.toInt ≠ 0) (haligned : rt.batchSize.toInt < 0 ∨ 128 ∣ rt.batchSize.toInt)
    (hone : ¬ OneRange rt.numThreads rt.batchSize.toInt n)
    {circuit : P.Party → (range : ℕ × ℕ) →
      P.Program (EVec P.scheme w (Vec.compressedSize w (min range.2 n - range.1)))}
    (hcircuit : ∀ range, P.Ensures (fun p => circuit p range) fun _ => True)
    (res : P.scheme.Shares (Vec w (Vec.compressedSize w n))) :
    P.Ensures (fun p => executeRanges (signRange (circuit p))
        (callRanges rt.numThreads rt.batchSize.toInt n) (res p))
      fun z => ∀ p, z p = none := by
  obtain ⟨hw8, hw128⟩ := shareWidth_facts hw
  have hn : 0 < n := by
    by_contra hn
    obtain rfl : n = 0 := by omega
    exact hone (oneRange_zero _ _)
  obtain ⟨e, rs, hranges, he, hlt, -⟩ := callRanges_not_oneRange hthreads hbatch hn hone
  have hfirst : (0, e) ∈ callRanges rt.numThreads rt.batchSize.toInt n := by
    rw [hranges]
    exact List.mem_cons_self
  have hbatches : 128 ∣ if rt.batchSize.toInt < 0 then minimumChunkSize
      else rt.batchSize.toInt.toNat := by
    split
    · decide
    · have hpos := haligned.resolve_left ‹_›
      omega
  obtain ⟨-, hdvd⟩ := dvd_callRanges hthreads hbatch hbatches hfirst
  have hpacked : Vec.compressedSize w e < Vec.compressedSize w n :=
    compressedSize_lt (by omega) (hw128.trans (hdvd.resolve_right hlt.ne)) hlt
  have hshort := compressedSize_eight (n := e) hw8
  have hge := Nat.le_of_dvd he (hdvd.resolve_right hlt.ne)
  rw [hranges]
  refine signRange_fails (hcircuit (0, e)) ?_ rs res
  change Vec.compressedSize w (min e n - 0) < min e (Vec.compressedSize w n)
  rw [min_eq_left hlt.le, Nat.sub_zero]
  omega

/-- Transparent is what is not divided. -/
theorem oneRange_of_same {call whole : P.Party → P.Program (Option β)}
    (hsame : ∀ post, P.Ensures call post ↔ P.Ensures whole post)
    (hwhole : P.Ensures whole fun z => ∀ p, (z p).isSome)
    (hcall : ¬ OneRange rt.numThreads rt.batchSize.toInt n → P.Ensures call fun z => ∀ p, z p = none) :
    OneRange rt.numThreads rt.batchSize.toInt n := by
  by_contra hone
  obtain ⟨z, hsome, hnone⟩ :=
    (Computes.and ((hsame _).mpr hwhole) (hcall hone)).exists_value P.correlated_zero
  have hz := hsome 0
  rw [hnone 0] at hz
  exact Bool.false_ne_true hz

theorem ensures_congr {prog prog' : P.Party → P.Program β} {post : (P.Party → β) → Prop}
    (heq : ∀ p, prog p = prog' p) : P.Ensures prog post ↔ P.Ensures prog' post := by
  rw [show prog = prog' from funext heq]

theorem map_bind_pure {γ δ : Type} (prog : P.Program β) (f : β → γ) (g : γ → δ) :
    (g <$> (prog >>= fun z => pure (f z)) : P.Program δ) = prog >>= fun z => pure (g (f z)) := by
  simp only [map_eq_pure_bind, bind_assoc, pure_bind]

/-- The circuit on the batch of one range. -/
def rippleCircuit (carryIn : Bool) (x y : P.scheme.Shares (Vec w n)) (p : P.Party) (range : ℕ × ℕ) :
    P.Program (EVec P.scheme w (Vec.compressedSize w (min range.2 n - range.1))) :=
  P.rippleCarryAdderPackedSign p ((Batched.whole (x p)).setBatch range).elements
    (fun r i => (((Batched.whole (y p)).setBatch range).elements r).getElem i) carryIn

theorem evalRipple_eq (carryIn : Bool) (x y : P.scheme.Shares (Vec w n)) (p : P.Party)
    (res : EVec P.scheme w m) :
    evalProtocol2arg rt (rippleCarryAdderPackedSignB p carryIn) (x p) (y p) res =
      executeRanges (signRange (rippleCircuit carryIn x y p))
        (callRanges rt.numThreads rt.batchSize.toInt n) res := by
  rw [evalProtocol2arg]
  refine congrArg (fun step => executeRanges step _ res) (funext fun data => funext fun range => ?_)
  exact (map_eq_pure_bind _ _).symm.trans (map_bind_pure _ _ _)

theorem rippleAssign_congr {k k' : ℕ} (hk : k = k') {a b : EVec P.scheme w k}
    {a' b' : EVec P.scheme w k'} (ha : ∀ r i, a r i = a' r (i.cast hk))
    (hb : ∀ r i, b r i = b' r (i.cast hk)) (p : P.Party) (carryIn : Bool)
    (res : Batched P.scheme w m) :
    (P.rippleCarryAdderPackedSign p a b carryIn >>= fun sum => pure ((res.assign sum).map Batched.data)) =
      P.rippleCarryAdderPackedSign p a' b' carryIn >>= fun sum =>
        pure ((res.assign sum).map Batched.data) := by
  subst hk
  obtain rfl : a = a' := funext fun r => funext fun i => ha r i
  obtain rfl : b = b' := funext fun r => funext fun i => hb r i
  rfl

theorem rippleWhole_eq (carryIn : Bool) (x y : P.scheme.Shares (Vec w n)) (p : P.Party)
    (res : EVec P.scheme w (Vec.compressedSize w n)) :
    Option.map Batched.data <$> rippleCarryAdderPackedSignB p carryIn (Batched.whole (x p))
        (Batched.whole (y p)) (Batched.whole res) =
      P.rippleCarryAdderPackedSign p (x p) (y p) carryIn >>= fun sum =>
        pure (((Batched.whole res).assign sum).map Batched.data) := by
  apply (map_bind_pure _ _ _).trans
  refine rippleAssign_congr (show (Batched.whole (x p)).size = n from Nat.sub_zero n)
    (fun r i => ?_) (fun r i => ?_) p carryIn _
  · exact congrArg (x p r) (Fin.ext (Nat.zero_add _))
  · apply (dif_pos i.isLt).trans
    exact congrArg (y p r) (Fin.ext (Nat.zero_add _))

theorem rippleWhole_ensures (hw : 0 < w) {x y : P.scheme.Shares (Vec w n)} {a b : Vec w n}
    (hx : OpensB x a) (hy : OpensB y b) (carryIn : Bool)
    (res : P.scheme.Shares (Vec w (Vec.compressedSize w n))) :
    P.Ensures (fun p => Option.map Batched.data <$> rippleCarryAdderPackedSignB p carryIn
        (Batched.whole (x p)) (Batched.whole (y p)) (Batched.whole (res p)))
      fun z => ∀ p, (z p).isSome := by
  simp only [rippleWhole_eq]
  refine signWhole_ensures ?_ res
  exact (rippleCarryAdderPackedSign_ensures hw hx hy carryIn).mono fun _ _ => trivial

theorem getElem_opens {x : P.scheme.Shares (Vec w n)} {a : Vec w n} (hx : OpensB x a) (k : ℕ) :
    OpensB (fun p r (i : Fin k) => (x p r).getElem i) fun i => a.getElem i := by
  refine hx.map (fun v (i : Fin k) => v.getElem i) fun u v => funext fun i => ?_
  simp only [Vec.getElem, Vec.xor_apply]
  split
  · rfl
  · exact (BitVec.xor_zero).symm

/-- A ripple-carry call that is divided reads past its packed signs. -/
theorem rippleDivided_fails (hw : w ∈ shareWidths) (hthreads : 0 < rt.numThreads)
    (hbatch : rt.batchSize.toInt ≠ 0) (haligned : rt.batchSize.toInt < 0 ∨ 128 ∣ rt.batchSize.toInt)
    (hone : ¬ OneRange rt.numThreads rt.batchSize.toInt n) {x y : P.scheme.Shares (Vec w n)}
    {a b : Vec w n} (hx : OpensB x a) (hy : OpensB y b) (carryIn : Bool)
    (res : P.scheme.Shares (Vec w (Vec.compressedSize w n))) :
    P.Ensures (fun p => evalProtocol2arg rt (rippleCarryAdderPackedSignB p carryIn) (x p) (y p) (res p))
      fun z => ∀ p, z p = none := by
  simp only [evalRipple_eq]
  refine divided_fails hw hthreads hbatch haligned hone (fun range => ?_) res
  have hripple := rippleCarryAdderPackedSign_ensures (P := P) (by have := shareWidth_facts hw; omega)
    (slice_opens true hx range) (getElem_opens (slice_opens true hy range) _)
    carryIn
  exact hripple.mono fun _ _ => trivial

/-- Nothing is there to write. -/
theorem ensures_empty {prog : P.Party → P.Program (Option (EVec P.scheme w (Vec.compressedSize w 0)))}
    (hprog : P.Ensures prog fun z => ∀ p, (z p).isSome)
    (res : P.scheme.Shares (Vec w (Vec.compressedSize w 0))) :
    P.Ensures prog (· = fun p => some (res p)) := by
  refine hprog.mono fun z hz => funext fun p => ?_
  obtain ⟨value, hvalue⟩ := Option.isSome_iff_exists.mp (hz p)
  rw [hvalue]
  refine congrArg some (funext fun r => funext fun i => absurd i.isLt ?_)
  simp [Vec.compressedSize]

/-- Empty vectors are all the same. -/
theorem eq_zero_of_empty (x : P.scheme.Shares (Vec w 0)) : x = fun _ _ => 0 := by
  ext p r i
  exact i.elim0

theorem rippleTransparent_iff (hw : w ∈ shareWidths) (hthreads : 0 < rt.numThreads)
    (hbatch : rt.batchSize.toInt ≠ 0) (haligned : rt.batchSize.toInt < 0 ∨ 128 ∣ rt.batchSize.toInt) :
    RippleTransparent P rt n ↔ OneRange rt.numThreads rt.batchSize.toInt n := by
  obtain ⟨hw8, -⟩ := shareWidth_facts hw
  constructor
  · intro h
    exact oneRange_of_same (h false (fun _ _ => 0) (fun _ _ => 0) fun _ _ => 0)
      (rippleWhole_ensures (by omega) zero_opens zero_opens false _)
      fun hone => rippleDivided_fails hw hthreads hbatch haligned hone zero_opens zero_opens false _
  · intro hone carryIn x y res post
    rcases Nat.eq_zero_or_pos n with rfl | hn
    · have hzero (x : P.scheme.Shares (Vec w 0)) : OpensB x 0 := by
        rw [eq_zero_of_empty x]
        exact zero_opens
      have hwhole := ensures_empty
        (rippleWhole_ensures (by omega) (hzero x) (hzero y) carryIn res) res
      rw [ensures_iff_of_eq hwhole]
      refine ensures_iff_of_eq ?_ post
      simp only [evalProtocol2arg, callRanges_zero hthreads hbatch]
      exact Computes.pure rfl
    · refine ensures_congr fun p => ?_
      exact evalProtocol2arg_oneRange hthreads hbatch hn hone (compressedSize_le hw8) _ _ _ _

/-- The conversion on the batch of one range. -/
def signCircuit (K : Converter P) (x : P.scheme.Shares (Vec w n)) (p : P.Party) (range : ℕ × ℕ) :
    P.Program (EVec P.scheme w (Vec.compressedSize w (min range.2 n - range.1))) :=
  K.a2bPackedSign p ((Batched.whole (x p)).setBatch range).elements

theorem evalA2b_eq (x : P.scheme.Shares (Vec w n)) (p : P.Party) (res : EVec P.scheme w m) :
    evalProtocol1arg rt true (a2bPackedSignAB K p) (x p) res =
      executeRanges (signRange (signCircuit K x p))
        (callRanges rt.numThreads rt.batchSize.toInt n) res := by
  rw [evalProtocol1arg]
  refine congrArg (fun step => executeRanges step _ res) (funext fun data => funext fun range => ?_)
  exact (map_eq_pure_bind _ _).symm.trans (map_bind_pure _ _ _)

theorem signAssign_congr {k k' : ℕ} (hk : k = k') {a : EVec P.scheme w k} {a' : EVec P.scheme w k'}
    (ha : ∀ r i, a r i = a' r (i.cast hk)) (p : P.Party) (res : Batched P.scheme w m) :
    (K.a2bPackedSign p a >>= fun sign => pure ((res.assign sign).map Batched.data)) =
      K.a2bPackedSign p a' >>= fun sign => pure ((res.assign sign).map Batched.data) := by
  subst hk
  obtain rfl : a = a' := funext fun r => funext fun i => ha r i
  rfl

theorem a2bWhole_eq (x : P.scheme.Shares (Vec w n)) (p : P.Party)
    (res : EVec P.scheme w (Vec.compressedSize w n)) :
    Option.map Batched.data <$> a2bPackedSignAB K p (Batched.whole (x p)) (Batched.whole res) =
      K.a2bPackedSign p (x p) >>= fun sign =>
        pure (((Batched.whole res).assign sign).map Batched.data) := by
  apply (map_bind_pure _ _ _).trans
  refine signAssign_congr (show (Batched.whole (x p)).size = n from Nat.sub_zero n)
    (fun r i => ?_) p _
  exact congrArg (x p r) (Fin.ext (Nat.zero_add _))

theorem a2bWhole_ensures (hw : 0 < w) {x : P.scheme.Shares (Vec w n)} {a : Vec w n} (hx : OpensA x a)
    (res : P.scheme.Shares (Vec w (Vec.compressedSize w n))) :
    P.Ensures (fun p => Option.map Batched.data <$> a2bPackedSignAB K p (Batched.whole (x p))
        (Batched.whole (res p)))
      fun z => ∀ p, (z p).isSome := by
  simp only [a2bWhole_eq]
  exact signWhole_ensures ((Converter.a2bPackedSign_computes hw hx).mono fun _ _ => trivial) res

theorem a2bDivided_fails (hw : w ∈ shareWidths) (hthreads : 0 < rt.numThreads)
    (hbatch : rt.batchSize.toInt ≠ 0) (haligned : rt.batchSize.toInt < 0 ∨ 128 ∣ rt.batchSize.toInt)
    (hone : ¬ OneRange rt.numThreads rt.batchSize.toInt n) {x : P.scheme.Shares (Vec w n)}
    {a : Vec w n} (hx : OpensA x a) (res : P.scheme.Shares (Vec w (Vec.compressedSize w n))) :
    P.Ensures (fun p => evalProtocol1arg rt true (a2bPackedSignAB K p) (x p) (res p))
      fun z => ∀ p, z p = none := by
  simp only [evalA2b_eq]
  refine divided_fails hw hthreads hbatch haligned hone (fun range => ?_) res
  have hsign := Converter.a2bPackedSign_computes (K := K)
    (by have := shareWidth_facts hw; omega) (slice_opens false hx range)
  exact hsign.mono fun _ _ => trivial

theorem a2bTransparent_iff (hw : w ∈ shareWidths) (hthreads : 0 < rt.numThreads)
    (hbatch : rt.batchSize.toInt ≠ 0) (haligned : rt.batchSize.toInt < 0 ∨ 128 ∣ rt.batchSize.toInt) :
    A2bTransparent K rt n ↔ OneRange rt.numThreads rt.batchSize.toInt n := by
  obtain ⟨hw8, -⟩ := shareWidth_facts hw
  constructor
  · intro h
    exact oneRange_of_same (h (fun _ _ => 0) fun _ _ => 0)
      (a2bWhole_ensures (by omega) Converter.zeroA_opens _)
      fun hone => a2bDivided_fails hw hthreads hbatch haligned hone Converter.zeroA_opens _
  · intro hone x res post
    rcases Nat.eq_zero_or_pos n with rfl | hn
    · have hzero : OpensA x 0 := by
        rw [eq_zero_of_empty x]
        exact Converter.zeroA_opens
      have hwhole := ensures_empty (a2bWhole_ensures (K := K) (by omega) hzero res) res
      rw [ensures_iff_of_eq hwhole]
      refine ensures_iff_of_eq ?_ post
      simp only [evalProtocol1arg, callRanges_zero hthreads hbatch]
      exact Computes.pure rfl
    · refine ensures_congr fun p => ?_
      exact evalProtocol1arg_oneRange hthreads hbatch hn hone (compressedSize_le hw8) true _ _ _

end PackedSign

/-- Packing and the packed signs are transparent exactly for a vector that is not divided, unpacking
only for a vector of at most one element. -/
theorem packed_transparent_iff (P : Protocol w) (K : Converter P) (rt : RunTime) (n : ℕ)
    (hw : w ∈ shareWidths) (hthreads : 0 < rt.numThreads) (hbatch : rt.batchSize.toInt ≠ 0)
    (haligned : rt.batchSize.toInt < 0 ∨ 128 ∣ rt.batchSize.toInt) :
    (PackTransparent P.scheme rt w n ↔ OneRange rt.numThreads rt.batchSize.toInt n) ∧
      (UnpackTransparent P.scheme rt w n ↔ n ≤ 1) ∧
      (RippleTransparent P rt n ↔ OneRange rt.numThreads rt.batchSize.toInt n) ∧
      (A2bTransparent K rt n ↔ OneRange rt.numThreads rt.batchSize.toInt n) := by
  have hw8 := (shareWidth_facts hw).1
  refine ⟨?_, ?_, ?_, ?_⟩
  · exact packTransparent_iff hw8 hthreads hbatch haligned
  · exact unpackTransparent_iff hw8 hthreads hbatch
  · exact rippleTransparent_iff hw hthreads hbatch haligned
  · exact a2bTransparent_iff hw hthreads hbatch haligned

/-- A thousand bytes in batches of 128 on one thread, and two bytes with the default batch size. -/
theorem packed_transparent_fails :
    ¬ PackTransparent Beaver2PC.scheme ⟨1, 128⟩ 8 1000 ∧
      ¬ UnpackTransparent Beaver2PC.scheme ⟨1, -12⟩ 8 2 := by
  constructor
  · intro h
    have hone := (packTransparent_iff (by decide) (by decide) (by decide) (by decide)).mp h
    exact absurd hone (by decide)
  · intro h
    exact absurd ((unpackTransparent_iff (by decide) (by decide) (by decide)).mp h) (by decide)

theorem packed_transparent_iff_default :
    A2bTransparent (replicated3PCConverter 8) ⟨4, -12⟩ 256 :=
  (packed_transparent_iff _ (replicated3PCConverter 8) ⟨4, -12⟩ 256 (by decide) (by decide) (by decide)
    (by decide)).2.2.2.mpr (by decide)

end CryptDough
