import CryptDough.BatchSizeAdjustment
import CryptDough.CallRanges
import CryptDough.Resharing

/-! # Protocol functions called through the runtime

Every task has its own copies of the vectors of a call: they share the elements, not the batch. A task
sets the batch of the result, and of the operands where the call asks for it, to the range it works on,
and calls the protocol function on them. `none` stands for a failed assertion or an access past the end
of the storage. -/

namespace CryptDough

open Process Sharing

/-- The share vectors of one party with the batch that is processed. -/
structure Batched (S : Scheme) (w n : ℕ) where
  data : EVec S w n
  batchStart : ℕ
  batchEnd : ℕ
  batchEnd_le : batchEnd ≤ n

namespace Batched

variable {S : Scheme} {w n k : ℕ}

def whole (data : EVec S w n) : Batched S w n := ⟨data, 0, n, le_rfl⟩

/-- Only the end is clamped to the elements there are. -/
def setBatch (v : Batched S w n) (range : ℕ × ℕ) : Batched S w n :=
  ⟨v.data, range.1, min range.2 n, min_le_right _ _⟩

/-- The size of a batch that starts after its end wraps around. -/
def Wraps (v : Batched S w n) : Prop := v.batchEnd < v.batchStart

instance (v : Batched S w n) : Decidable v.Wraps := inferInstanceAs (Decidable (_ < _))

def size (v : Batched S w n) : ℕ := v.batchEnd - v.batchStart

def elements (v : Batched S w n) : EVec S w v.size := fun r i =>
  v.data r ⟨v.batchStart + i, by
    have hi : i.val < v.batchEnd - v.batchStart := i.isLt
    have hle := v.batchEnd_le
    omega⟩

/-- The assignment operator: as many elements as the batch has are read from `other`. -/
def assign (v : Batched S w n) (other : EVec S w k) : Option (Batched S w n) :=
  if v.Wraps ∨ k < v.size then none
  else some { v with
    data := fun r i => if v.batchStart ≤ i.val ∧ i.val < v.batchEnd then
      (other r).getElem (i.val - v.batchStart) else v.data r i }

/-- The element of the result at `i` holds the bits at `position` of the elements of `source` that
belong to it. The batch is asserted to start at the boundary of a packed element. -/
def packFrom (v : Batched S w n) (source : Batched S w k) (position : ℕ) : Option (Batched S w n) :=
  let totalBits := min (v.size * w) source.size
  if v.batchStart % w ≠ 0 ∨ v.Wraps then none
  else some { v with
    data := fun r i =>
      if v.batchStart ≤ i.val ∧ (i.val - v.batchStart) * w < totalBits then
        Vec.packChunk (source.elements r) position (i.val - v.batchStart) w
      else v.data r i }

def unpackFrom (v : Batched S w n) (source : Batched S w k) (position : ℕ) : Option (Batched S w n) :=
  let totalBits := v.size
  if v.batchStart % w ≠ 0 ∨ v.Wraps ∨ source.size * w < totalBits then none
  else some { v with
    data := fun r i =>
      if v.batchStart ≤ i.val ∧ i.val - v.batchStart < totalBits then
        let bit := i.val - v.batchStart
        Vec.setBitValue (v.data r i)
          (Vec.getBit ((source.elements r).getElem (bit / w)) (bit % w)) position
      else v.data r i }

end Batched

section Calls

variable {M : Type → Type} [Monad M] {D : Type}

/-- One range after the other, until one of them fails. -/
def executeRanges (subExecute : D → ℕ × ℕ → M (Option D)) : List (ℕ × ℕ) → D → M (Option D)
  | [], data => pure (some data)
  | range :: ranges, data => do
      let result ← subExecute data range
      result.elim (pure none) (executeRanges subExecute ranges)

variable {S : Scheme} {w n m : ℕ}

def evalProtocol1arg (rt : RunTime) (batchInput : Bool)
    (func : Batched S w n → Batched S w m → M (Option (Batched S w m))) (x : EVec S w n)
    (r : EVec S w m) : M (Option (EVec S w m)) :=
  executeRanges (fun data range => do
      let x := if batchInput then (Batched.whole x).setBatch range else Batched.whole x
      let result ← func x ((Batched.whole data).setBatch range)
      pure (result.map Batched.data))
    (callRanges rt.numThreads rt.batchSize.toInt n) r

def evalProtocol2arg (rt : RunTime)
    (func : Batched S w n → Batched S w n → Batched S w m → M (Option (Batched S w m)))
    (x y : EVec S w n) (r : EVec S w m) : M (Option (EVec S w m)) :=
  executeRanges (fun data range => do
      let result ← func ((Batched.whole x).setBatch range) ((Batched.whole y).setBatch range)
        ((Batched.whole data).setBatch range)
      pure (result.map Batched.data))
    (callRanges rt.numThreads rt.batchSize.toInt n) r

end Calls

section OneRange

variable {M : Type → Type} [Monad M] [LawfulMonad M] {D : Type}

theorem executeRanges_singleton (subExecute : D → ℕ × ℕ → M (Option D)) (range : ℕ × ℕ) (data : D) :
    executeRanges subExecute [range] data = subExecute data range := by
  rw [executeRanges]
  calc (subExecute data range >>= fun result =>
        result.elim (pure none) (executeRanges subExecute []))
      = subExecute data range >>= pure := by
        refine congrArg _ (funext fun result => ?_)
        cases result with
        | none => rfl
        | some data => rfl
    _ = subExecute data range := bind_pure _

/-- Local work on the ranges is a fold that stops at the first failure. -/
theorem executeRanges_pure (step : D → ℕ × ℕ → Option D) (ranges : List (ℕ × ℕ)) (data : D) :
    executeRanges (fun data range => (pure (step data range) : M (Option D))) ranges data =
      pure (ranges.foldlM step data) := by
  induction ranges generalizing data with
  | nil => rfl
  | cons range ranges ih =>
      rw [executeRanges, pure_bind, List.foldlM_cons]
      cases step data range with
      | none => rfl
      | some data => exact ih data

variable {S : Scheme} {w n m : ℕ} {rt : RunTime}

theorem Batched.whole_elements (v : EVec S w n) : (Batched.whole v).elements = v := by
  funext r i
  exact congrArg (v r) (Fin.ext (Nat.zero_add _))

theorem Batched.setBatch_all (v : EVec S w n) {stop : ℕ} (hstop : n ≤ stop) :
    (Batched.whole v).setBatch (0, stop) = Batched.whole v := by
  rw [Batched.setBatch, Batched.whole]
  congr
  exact min_eq_right hstop

/-- A call that is not divided is a call on the whole vectors, if the result is not the longer one. -/
theorem evalProtocol1arg_oneRange (hthreads : 0 < rt.numThreads) (hbatch : rt.batchSize.toInt ≠ 0)
    (hn : 0 < n) (hone : OneRange rt.numThreads rt.batchSize.toInt n) (hm : m ≤ n) (batchInput : Bool)
    (func : Batched S w n → Batched S w m → M (Option (Batched S w m))) (x : EVec S w n)
    (r : EVec S w m) : evalProtocol1arg rt batchInput func x r =
      (Option.map Batched.data) <$> func (Batched.whole x) (Batched.whole r) := by
  rw [evalProtocol1arg, callRanges_oneRange hthreads hbatch hn hone, executeRanges_singleton,
    Batched.setBatch_all x le_rfl, Batched.setBatch_all r hm, ite_self, map_eq_pure_bind]

theorem evalProtocol2arg_oneRange (hthreads : 0 < rt.numThreads) (hbatch : rt.batchSize.toInt ≠ 0)
    (hn : 0 < n) (hone : OneRange rt.numThreads rt.batchSize.toInt n) (hm : m ≤ n)
    (func : Batched S w n → Batched S w n → Batched S w m → M (Option (Batched S w m)))
    (x y : EVec S w n) (r : EVec S w m) : evalProtocol2arg rt func x y r =
      (Option.map Batched.data) <$> func (Batched.whole x) (Batched.whole y) (Batched.whole r) := by
  rw [evalProtocol2arg, callRanges_oneRange hthreads hbatch hn hone, executeRanges_singleton,
    Batched.setBatch_all x le_rfl, Batched.setBatch_all y le_rfl, Batched.setBatch_all r hm,
    map_eq_pure_bind]

end OneRange

section Slices

variable {S : Scheme} {w n : ℕ}

/-- The elements of a range, as far as there are any. -/
def Vec.slice (v : Vec w n) (range : ℕ × ℕ) : Vec w (min range.2 n - range.1) := fun i =>
  v ⟨range.1 + i, by
    have hi := i.isLt
    omega⟩

/-- The elements of a batch open to those of the secret. -/
theorem slice_opens (binary : Bool) {x : S.Shares (Vec w n)} {a : Vec w n} (hx : OpensE binary x a)
    (range : ℕ × ℕ) : OpensE binary (fun p r => Vec.slice (x p r) range) (Vec.slice a range) := by
  cases binary with
  | false => exact hx.map (fun v => Vec.slice v range) fun _ _ => rfl
  | true => exact hx.map (fun v => Vec.slice v range) fun _ _ => rfl

end Slices

section Elementwise

variable {S : Scheme} {w n : ℕ}

/-- The elements of `v` with those of `u` in a range. -/
def Vec.patch {k : ℕ} (v : Vec w n) (range : ℕ × ℕ) (u : Vec w k) : Vec w n := fun i =>
  if range.1 ≤ i.val ∧ i.val < min range.2 n then u.getElem (i.val - range.1) else v i

theorem patch_plus (binary : Bool) {k : ℕ} (range : ℕ × ℕ) (v v' : Vec w n) (u u' : Vec w k) :
    Vec.patch (Vec.plus binary v v') range (Vec.plus binary u u') =
      Vec.plus binary (Vec.patch v range u) (Vec.patch v' range u') := by
  funext i
  cases binary with
  | false =>
      change Vec.patch (v + v') range (u + u') i = Vec.patch v range u i + Vec.patch v' range u' i
      simp only [Vec.patch, Vec.getElem]
      split
      · split
        · rfl
        · exact (add_zero 0).symm
      · rfl
  | true =>
      change Vec.patch (v ^^^ v') range (u ^^^ u') i = Vec.patch v range u i ^^^ Vec.patch v' range u' i
      simp only [Vec.patch, Vec.getElem]
      split
      · split
        · rfl
        · exact BitVec.xor_zero.symm
      · rfl

theorem patch_opens (binary : Bool) {k : ℕ} {x : S.Shares (Vec w n)} {y : S.Shares (Vec w k)}
    {a : Vec w n} {b : Vec w k} (hx : OpensE binary x a) (hy : OpensE binary y b) (range : ℕ × ℕ) :
    OpensE binary (fun p r => Vec.patch (x p r) range (y p r)) (Vec.patch a range b) := by
  refine ⟨hx.1.map₂ hy.1 fun v u => Vec.patch v range u, ?_⟩
  rw [← hx.2, ← hy.2]
  exact combine_map₂ (fun v u => Vec.patch v range u)
    (fun v v' u u' => patch_plus binary range v v' u u') _ _

/-- A range within the vector is assigned what was computed for it. -/
theorem Batched.assign_setBatch (data : EVec S w n) {range : ℕ × ℕ} (hrange : range.1 ≤ min range.2 n)
    (other : EVec S w (min range.2 n - range.1)) :
    (((Batched.whole data).setBatch range).assign other).map Batched.data =
      some fun r => Vec.patch (data r) range (other r) := by
  rw [Batched.assign, if_neg ?_]
  · rfl
  · rintro (hwraps | hshort)
    · exact absurd hrange (not_le.mpr hwraps)
    · exact absurd hshort (lt_irrefl _)

/-- The result of the ranges so far, and of one more. -/
theorem patch_prefix (g : BitVec w → BitVec w) (a c : Vec w n) {range : ℕ × ℕ}
    (hrange : range.1 ≤ range.2 ∧ range.2 ≤ n) :
    Vec.patch (fun i => if i.val < range.1 then g (a i) else c i) range
        (fun i => g (Vec.slice a range i)) =
      fun i => if i.val < range.2 then g (a i) else c i := by
  funext i
  rw [Vec.patch]
  by_cases hin : range.1 ≤ i.val ∧ i.val < min range.2 n
  · rw [if_pos hin, if_pos (by omega), Vec.getElem, dif_pos (by omega)]
    exact congrArg (fun k => g (a k)) (Fin.ext (Nat.add_sub_of_le hin.1))
  · rw [if_neg hin]
    by_cases hlt : i.val < range.1
    · rw [if_pos hlt, if_pos (by omega)]
    · rw [if_neg hlt, if_neg (by omega)]

variable {P : Protocol w} {f : ∀ {k : ℕ}, P.Party → EVec P.scheme w k → P.Program (EVec P.scheme w k)}
  {g : BitVec w → BitVec w}

/-- A function of the elements of a batch, assigned to the batch of the result. -/
def elementwise (f : ∀ {k : ℕ}, P.Party → EVec P.scheme w k → P.Program (EVec P.scheme w k))
    (p : P.Party) (x r : Batched P.scheme w n) : P.Program (Option (Batched P.scheme w n)) := do
  let out ← f p x.elements
  pure (r.assign out)

/-- Where the elements are computed one by one, no division of the call changes them. -/
theorem elementwise_computes (binary binary' : Bool) {rt : RunTime} (hthreads : 0 < rt.numThreads)
    (hbatch : rt.batchSize.toInt ≠ 0)
    (hf : ∀ {k : ℕ} {x : P.scheme.Shares (Vec w k)} {a : Vec w k}, OpensE binary x a →
      P.Ensures (fun p => f p (x p)) fun z => OpensE binary' z fun i => g (a i))
    {x r : P.scheme.Shares (Vec w n)} {a c : Vec w n} (hx : OpensE binary x a)
    (hr : OpensE binary' r c) :
    P.Ensures (fun p => evalProtocol1arg rt true (elementwise f p) (x p) (r p))
      fun z => ∃ out : P.scheme.Shares (Vec w n),
        (∀ p, z p = some (out p)) ∧ OpensE binary' out fun i => g (a i) := by
  have hranges : ∀ (ranges : List (ℕ × ℕ)) (start : ℕ), Tiles start ranges n →
      ∀ data : P.scheme.Shares (Vec w n),
        OpensE binary' data (fun i => if i.val < start then g (a i) else c i) →
      P.Ensures (fun p => executeRanges (fun data range => do
          let result ← elementwise f p ((Batched.whole (x p)).setBatch range)
            ((Batched.whole data).setBatch range)
          pure (result.map Batched.data)) ranges (data p))
        fun z => ∃ out : P.scheme.Shares (Vec w n),
          (∀ p, z p = some (out p)) ∧ OpensE binary' out fun i => g (a i) := by
    intro ranges
    induction ranges with
    | nil =>
        intro start htiles data hdata
        obtain rfl := htiles
        simp only [Fin.is_lt, if_true] at hdata
        exact Computes.pure ⟨data, fun _ => rfl, hdata⟩
    | cons range ranges ih =>
        intro start htiles data hdata
        obtain ⟨rfl, hle, hrest⟩ := htiles
        have hend := hrest.le
        refine Computes.bind (?_ : P.Ensures _ fun z => ∃ out : P.scheme.Shares (Vec w n),
          (∀ p, z p = some (out p)) ∧
            OpensE binary' out fun i => if i.val < range.2 then g (a i) else c i) ?_
        · refine Computes.bind (?_ : P.Ensures _ fun v =>
            ∃ out : P.scheme.Shares (Vec w (min range.2 n - range.1)),
              (∀ p, v p = ((Batched.whole (data p)).setBatch range).assign (out p)) ∧
                OpensE binary' out fun i => g (Vec.slice a range i)) ?_
          · exact (hf (slice_opens binary hx range)).bind fun out hout =>
              Computes.pure ⟨out, fun _ => rfl, hout⟩
          · rintro v ⟨out, hv, hout⟩
            refine Computes.pure ⟨fun p r => Vec.patch (data p r) range (out p r), fun p => ?_, ?_⟩
            · exact (congrArg _ (hv p)).trans (Batched.assign_setBatch (data p) (by omega) (out p))
            · rw [← patch_prefix g a c (by omega)]
              exact patch_opens binary' hdata hout range
        · rintro z ⟨out, hz, hout⟩
          simp only [hz]
          exact ih range.2 hrest out hout
  apply hranges _ 0 (tiles_callRanges hthreads hbatch) r
  simp only [Nat.not_lt_zero, if_false]
  exact hr

end Elementwise

end CryptDough
