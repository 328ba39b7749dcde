import CryptDough.MatrixProduct

/-! Convolution of padded instances with a filter of several channels: directly, with the window of
the filter clipped to the input, or as the product of materialised patches with the filter. -/

namespace CryptDough

open OptionLoop

/-- One dimension of the input, with the filter, the stride and the padding along it. -/
structure ConvolutionAxis where
  input : ℕ
  filter : ℕ
  stride : ℕ
  padding : ℕ

namespace ConvolutionAxis

variable (a : ConvolutionAxis)

def outputs : ℕ := (a.input + 2 * a.padding - a.filter) / a.stride + 1

/-- Where the places of the filter end, `inXEnd` and `inYEnd`. -/
def placesEnd : ℕ := a.input + 2 * a.padding - a.filter + 1

def filterStart (place : ℕ) : ℕ := if place < a.padding then a.padding - place else 0

def filterEnd (place : ℕ) : ℕ := min (sizeSub (a.filterStart place + a.input) place) a.filter

/-- `startX` and `startY`. -/
def patchStart (out : ℕ) : ℤ := castInt (castInt (out * a.stride : ℕ) - castInt a.padding)

/-- `inputX` and `inputY`. -/
def coordinate (out i : ℕ) : ℤ := castInt (a.patchStart out + castInt i)

end ConvolutionAxis

structure Convolution where
  instancesCount : ℕ
  inputHeight : ℕ
  inputWidth : ℕ
  filterHeight : ℕ
  filterWidth : ℕ
  strideHeight : ℕ
  strideWidth : ℕ
  paddingHeight : ℕ
  paddingWidth : ℕ

variable {T : Type}

namespace Convolution

variable (p : Convolution)

def height : ConvolutionAxis := ⟨p.inputHeight, p.filterHeight, p.strideHeight, p.paddingHeight⟩

def width : ConvolutionAxis := ⟨p.inputWidth, p.filterWidth, p.strideWidth, p.paddingWidth⟩

def filterArea : ℕ := p.filterHeight * p.filterWidth

/-- The places of the output, without the channels. -/
def outputPlaces : ℕ := p.instancesCount * p.height.outputs * p.width.outputs

def inputSize : ℕ := p.instancesCount * p.inputHeight * p.inputWidth

section Source

variable [NonUnitalNonAssocSemiring T]

/-- `inputPtr[inputIndex] * filterPtr[filterIndex]`. -/
def summand (read : ℕ → Option T) (rhs : List T) (input filter : ℕ) : Option T := do
  let a ← read input
  let b ← rhs[filter]?
  pure (a * b)

/-- The sum for one place and one channel, with the index into the filter and the index into the
input. -/
def clippedSum (read : ℕ → Option T) (rhs : List T) (inX inY inputPtr filterPtr : ℕ) : Option T := do
  let filterXStart := p.height.filterStart inX
  let filterYStart := p.width.filterStart inY
  let filterXEnd := p.height.filterEnd inX
  let filterYEnd := p.width.filterEnd inY
  let newFilterWidth := sizeSub filterYEnd filterYStart
  let filterWidthInc := sizeSub p.filterWidth newFilterWidth
  let inputWidthInc := sizeSub p.inputWidth newFilterWidth
  let s ← (List.range (filterXEnd - filterXStart)).foldlM (fun s _ => do
    let s ← (List.range (filterYEnd - filterYStart)).foldlM (fun (s : T × ℕ × ℕ) _ => do
      let x ← summand read rhs (inputPtr + s.2.2) (filterPtr + s.2.1)
      pure (s.1 + x, s.2.1 + 1, s.2.2 + 1)) s
    pure (s.1, (s.2.1 + filterWidthInc) % 2 ^ 64, (s.2.2 + inputWidthInc) % 2 ^ 64))
    (0, (filterXStart * p.filterWidth + filterYStart) % 2 ^ 64,
      (filterXStart * p.inputWidth + filterYStart) % 2 ^ 64)
  pure s.1

/-- The input is read through `read`, which knows the instance that is convolved. -/
def conv2DVectorized (read : ℕ → ℕ → Option T) (rhs : List T) : Option (List T) :=
  if p.filterArea = 0 then none
  else do
    let outputChannels := rhs.length / p.filterArea
    let s ← (List.range p.instancesCount).foldlM (fun s inst =>
      (List.range (strideCount p.height.placesEnd p.strideHeight)).foldlM (fun s x =>
        (List.range (strideCount p.width.placesEnd p.strideWidth)).foldlM (fun s y =>
          (List.range outputChannels).foldlM (fun (s : List T × ℕ) channel => do
            let sum ← p.clippedSum (read inst) rhs (x * p.strideHeight) (y * p.strideWidth)
              (inst * p.inputHeight * p.inputWidth + x * p.strideHeight * p.inputWidth + y * p.strideWidth)
              (channel * p.filterHeight * p.filterWidth)
            let output ← writeAt s.1 s.2 sum
            pure (output, s.2 + 1)) s) s) s) (List.replicate (p.outputPlaces * outputChannels) 0, 0)
    pure s.1

def elements (v : List T) (_ : ℕ) (i : ℕ) : Option T := v[i]?

/-- The elements of the instance that is convolved, and no others. -/
def ownElements (v : List T) (inst i : ℕ) : Option T :=
  if inst * p.inputHeight * p.inputWidth ≤ i ∧ i < (inst + 1) * p.inputHeight * p.inputWidth then v[i]?
  else none

def patchElement (v : List T) (inst : ℕ) (inputX inputY : ℤ) : Option T :=
  if 0 ≤ inputX ∧ inputX < castInt p.inputHeight ∧ 0 ≤ inputY ∧ inputY < castInt p.inputWidth then
    v[inst * p.inputHeight * p.inputWidth + inputX.toNat * p.inputWidth + inputY.toNat]?
  else some 0

def conv2DLeftVectorization (v : List T) : Option (List T) := do
  let s ← (List.range p.instancesCount).foldlM (fun s inst =>
    (List.range p.height.outputs).foldlM (fun s outX =>
      (List.range p.width.outputs).foldlM (fun s outY =>
        (List.range p.filterHeight).foldlM (fun s filterX =>
          (List.range p.filterWidth).foldlM (fun (s : List T × ℕ) filterY => do
            let x ← p.patchElement v inst (p.height.coordinate outX filterX)
              (p.width.coordinate outY filterY)
            let output ← writeAt s.1 s.2 x
            pure (output, s.2 + 1)) s) s) s) s) (List.replicate (p.outputPlaces * p.filterArea) 0, 0)
  pure s.1

/-- The convolution with materialised patches. -/
def materialisedConvolution (v rhs : List T) (channels : ℕ) : Option (List T) := do
  let lhs ← p.conv2DLeftVectorization v
  matrixRightMultiplyWithColumnMatrixVectorized lhs rhs p.outputPlaces p.filterArea p.filterArea channels

end Source

section Specification

variable [NonUnitalNonAssocSemiring T]

/-- The element at a place of the padded instance. -/
def paddedElement (v : List T) (inst x y : ℕ) : T :=
  if (p.paddingHeight ≤ x ∧ x < p.paddingHeight + p.inputHeight) ∧
      p.paddingWidth ≤ y ∧ y < p.paddingWidth + p.inputWidth then
    v.getD ((inst * p.inputHeight + (x - p.paddingHeight)) * p.inputWidth + (y - p.paddingWidth)) 0
  else 0

/-- The cross-correlation of the padded instance with a channel of the filter. -/
def correlation (v rhs : List T) (inst x y channel : ℕ) : T :=
  ∑ i ∈ Finset.range p.filterHeight, ∑ j ∈ Finset.range p.filterWidth,
    p.paddedElement v inst (x * p.strideHeight + i) (y * p.strideWidth + j) *
      rhs.getD ((channel * p.filterHeight + i) * p.filterWidth + j) 0

/-- The output, with the channels interleaved. -/
def correlations (v rhs : List T) (channels : ℕ) : List T :=
  (List.range (p.outputPlaces * channels)).map fun k =>
    p.correlation v rhs (k / channels / p.width.outputs / p.height.outputs)
      (k / channels / p.width.outputs % p.height.outputs) (k / channels % p.width.outputs) (k % channels)

/-- Both convolutions give the zero-padded cross-correlation, the direct one from elements of the
instance. -/
structure Correlates (v rhs : List T) (channels : ℕ) : Prop where
  direct : p.conv2DVectorized (elements v) rhs = some (p.correlations v rhs channels)
  own : p.conv2DVectorized (p.ownElements v) rhs = some (p.correlations v rhs channels)
  materialised : p.materialisedConvolution v rhs channels = some (p.correlations v rhs channels)

end Specification

end Convolution

section Places

variable [NonAssocSemiring T]

/-- The element at a place, zero where there is none. -/
def valueAt (v : List T) (place : Option ℕ) : T := place.elim 0 (v.getD · 0)

def indicator (n i : ℕ) : List T := (List.range n).map fun k => if k = i then 1 else 0

theorem length_indicator (n i : ℕ) : (indicator n i : List T).length = n :=
  (List.length_map _).trans List.length_range

theorem valueAt_indicator {n : ℕ} (i : ℕ) {k : ℕ} (hk : k < n) :
    valueAt (indicator n i : List T) (some k) = if k = i then 1 else 0 := getD_map_range _ hk

/-- A filter with a single one picks out an element of a row. -/
theorem productAt_indicator (f : ℕ → T) {k n l : ℕ} (hl : l < k) (hn : 0 < n) (r : ℕ) :
    productAt f ((indicator (n * k) l).getD · 0) k n (r * n) = f (r * k + l) := by
  have hpick : ∀ l' < k, (indicator (n * k) l : List T).getD l' 0 = if l' = l then 1 else 0 := by
    intro l' hl'
    exact getD_map_range _ (hl'.trans_le (Nat.le_mul_of_pos_left k hn))
  rw [productAt, Nat.mul_div_cancel _ hn, Nat.mul_mod_left, Nat.zero_mul]
  simp only [Nat.zero_add]
  rw [Finset.sum_eq_single l]
  · rw [hpick l hl, if_pos rfl, mul_one]
  · intro l' hmem hne
    rw [hpick l' (Finset.mem_range.mp hmem), if_neg hne, mul_zero]
  · exact fun hnot => absurd (Finset.mem_range.mpr hl) hnot

variable [Nontrivial T] {size : ℕ} {a b : Option ℕ}

/-- Places that show the same in every vector are the same. -/
theorem place_eq (ha : ∀ i, a = some i → i < size) (hb : ∀ i, b = some i → i < size)
    (heq : ∀ v : List T, v.length = size → valueAt v a = valueAt v b) : a = b := by
  have hfind : ∀ {a b : Option ℕ}, (∀ i, a = some i → i < size) → (∀ i, b = some i → i < size) →
      (∀ v : List T, v.length = size → valueAt v a = valueAt v b) → ∀ i, a = some i → b = some i := by
    rintro a b ha hb heq i rfl
    have hone := heq (indicator size i) (length_indicator size i)
    rw [valueAt_indicator i (ha i rfl), if_pos rfl] at hone
    cases b with
    | none => exact absurd hone one_ne_zero
    | some k =>
        rw [valueAt_indicator i (hb k rfl)] at hone
        by_cases hk : k = i
        · exact congrArg some hk
        · rw [if_neg hk] at hone
          exact absurd hone one_ne_zero
  refine Option.ext fun i => ⟨hfind ha hb heq i, hfind hb ha (fun v hv => (heq v hv).symm) i⟩

/-- Products of the elements at places with the same filters determine the places. -/
theorem places_eq (size : ℕ) (place place' : ℕ → Option ℕ) {m k n : ℕ} (hn : 0 < n)
    (hin : ∀ q < m * k, ∀ i, place q = some i → i < size)
    (hin' : ∀ q < m * k, ∀ i, place' q = some i → i < size)
    (heq : ∀ v rhs : List T, v.length = size → rhs.length = n * k → ∀ o < m * n,
      productAt (fun q => valueAt v (place q)) (rhs.getD · 0) k n o =
        productAt (fun q => valueAt v (place' q)) (rhs.getD · 0) k n o) {q : ℕ} (hq : q < m * k) :
    place q = place' q := by
  refine place_eq (T := T) (hin q hq) (hin' q hq) fun v hv => ?_
  have hk : 0 < k := Nat.pos_of_ne_zero fun hzero => by simp [hzero] at hq
  have hrow : q / k < m := (Nat.div_lt_iff_lt_mul hk).mpr hq
  have hproduct := heq v (indicator (n * k) (q % k)) hv (length_indicator _ _) (q / k * n)
    (Nat.mul_lt_mul_of_pos_right hrow hn)
  rw [productAt_indicator _ (Nat.mod_lt q hk) hn, productAt_indicator _ (Nat.mod_lt q hk) hn,
    Nat.div_add_mod'] at hproduct
  exact hproduct

end Places

namespace Convolution

variable (p : Convolution)

/-- A place of the patches in its instance, row and column of the output, and row and column of the
filter. -/
def atPatch {β : Type} (f : ℕ → ℕ → ℕ → ℕ → ℕ → β) (q : ℕ) : β :=
  f (q / p.filterWidth / p.filterHeight / p.width.outputs / p.height.outputs)
    (q / p.filterWidth / p.filterHeight / p.width.outputs % p.height.outputs)
    (q / p.filterWidth / p.filterHeight % p.width.outputs) (q / p.filterWidth % p.filterHeight)
    (q % p.filterWidth)

def patchPlace (inst x y i j : ℕ) : ℕ :=
  (((inst * p.height.outputs + x) * p.width.outputs + y) * p.filterHeight + i) * p.filterWidth + j

/-- The place in the input that an element of a patch shows, if it is not padding. -/
def paddedPlace (inst x y i j : ℕ) : Option ℕ :=
  if (p.paddingHeight ≤ x * p.strideHeight + i ∧
        x * p.strideHeight + i < p.paddingHeight + p.inputHeight) ∧
      p.paddingWidth ≤ y * p.strideWidth + j ∧ y * p.strideWidth + j < p.paddingWidth + p.inputWidth then
    some ((inst * p.inputHeight + (x * p.strideHeight + i - p.paddingHeight)) * p.inputWidth +
      (y * p.strideWidth + j - p.paddingWidth))
  else none

/-- What the direct convolution reads: the window starts at the place of the output, not before the
padding. -/
def clippedPlace (inst x y i j : ℕ) : Option ℕ :=
  if p.height.filterStart (x * p.strideHeight) ≤ i ∧ i < p.height.filterEnd (x * p.strideHeight) then
    if p.width.filterStart (y * p.strideWidth) ≤ j ∧ j < p.width.filterEnd (y * p.strideWidth) then
      some ((inst * p.inputHeight + (x * p.strideHeight + i)) * p.inputWidth + (y * p.strideWidth + j))
    else none
  else none

section Patches

variable {p} {inst x y i j channel channels : ℕ}

theorem atPatch_patchPlace {β : Type} (f : ℕ → ℕ → ℕ → ℕ → ℕ → β) (inst : ℕ) (hx : x < p.height.outputs)
    (hy : y < p.width.outputs) (hi : i < p.filterHeight) (hj : j < p.filterWidth) :
    p.atPatch f (p.patchPlace inst x y i j) = f inst x y i j := by
  rw [atPatch, patchPlace, (row_column hj).1, (row_column hj).2, (row_column hi).1, (row_column hi).2,
    (row_column hy).1, (row_column hy).2, (row_column hx).1, (row_column hx).2]

theorem patchPlace_lt (hinst : inst < p.instancesCount) (hx : x < p.height.outputs)
    (hy : y < p.width.outputs)
    (hi : i < p.filterHeight) (hj : j < p.filterWidth) :
    p.patchPlace inst x y i j < p.outputPlaces * p.filterArea := by
  rw [filterArea, ← Nat.mul_assoc]
  exact place_lt (place_lt (place_lt (place_lt hinst hx) hy) hi) hj

theorem exists_outputPlace {r : ℕ} (hr : r < p.outputPlaces) :
    ∃ inst x y, inst < p.instancesCount ∧ x < p.height.outputs ∧ y < p.width.outputs ∧
      r = (inst * p.height.outputs + x) * p.width.outputs + y := by
  have hrow : r / p.width.outputs < p.instancesCount * p.height.outputs :=
    (Nat.div_lt_iff_lt_mul (Nat.succ_pos _)).mpr hr
  refine ⟨r / p.width.outputs / p.height.outputs, r / p.width.outputs % p.height.outputs,
    r % p.width.outputs, (Nat.div_lt_iff_lt_mul (Nat.succ_pos _)).mpr hrow, Nat.mod_lt _ (Nat.succ_pos _),
    Nat.mod_lt _ (Nat.succ_pos _), ?_⟩
  rw [Nat.div_add_mod', Nat.div_add_mod']

theorem exists_patchPlace {q : ℕ} (hq : q < p.outputPlaces * p.filterArea) :
    ∃ inst x y i j, inst < p.instancesCount ∧ x < p.height.outputs ∧ y < p.width.outputs ∧
      i < p.filterHeight ∧ j < p.filterWidth ∧ q = p.patchPlace inst x y i j := by
  have hpos : 0 < p.filterHeight * p.filterWidth := Nat.pos_of_ne_zero fun hzero => by
    simp [filterArea, hzero] at hq
  have hheight := Nat.pos_of_mul_pos_right hpos
  have hwidth := Nat.pos_of_mul_pos_left hpos
  rw [filterArea, ← Nat.mul_assoc] at hq
  have hrow : q / p.filterWidth / p.filterHeight < p.outputPlaces :=
    (Nat.div_lt_iff_lt_mul hheight).mpr ((Nat.div_lt_iff_lt_mul hwidth).mpr hq)
  obtain ⟨inst, x, y, hinst, hx, hy, hplace⟩ := exists_outputPlace hrow
  refine ⟨inst, x, y, q / p.filterWidth % p.filterHeight, q % p.filterWidth, hinst, hx, hy,
    Nat.mod_lt _ hheight, Nat.mod_lt _ hwidth, ?_⟩
  rw [patchPlace, ← hplace, Nat.div_add_mod', Nat.div_add_mod']

variable [NonAssocSemiring T] {v rhs : List T}

/-- A row of patches times a channel of the filter. -/
theorem productAt_atPatch (v rhs : List T) (place : ℕ → ℕ → ℕ → ℕ → ℕ → Option ℕ) (inst : ℕ)
    (hx : x < p.height.outputs)
    (hy : y < p.width.outputs) (hchannel : channel < channels) :
    productAt (fun q => valueAt v (p.atPatch place q)) (rhs.getD · 0) p.filterArea channels
        (((inst * p.height.outputs + x) * p.width.outputs + y) * channels + channel) =
      ∑ i ∈ Finset.range p.filterHeight, ∑ j ∈ Finset.range p.filterWidth,
        valueAt v (place inst x y i j) * rhs.getD ((channel * p.filterHeight + i) * p.filterWidth + j) 0 := by
  rw [productAt, (row_column hchannel).1, (row_column hchannel).2, filterArea, sum_product]
  refine Finset.sum_congr rfl fun i hi => Finset.sum_congr rfl fun j hj => ?_
  have hpatch : ∀ r, r * (p.filterHeight * p.filterWidth) + (i * p.filterWidth + j) =
      (r * p.filterHeight + i) * p.filterWidth + j := fun r => by ring
  simp only [hpatch]
  rw [← atPatch_patchPlace place inst hx hy (Finset.mem_range.mp hi) (Finset.mem_range.mp hj), patchPlace]

theorem valueAt_paddedPlace (v : List T) (inst x y i j : ℕ) : valueAt v (p.paddedPlace inst x y i j) =
    p.paddedElement v inst (x * p.strideHeight + i) (y * p.strideWidth + j) := by
  rw [paddedPlace, paddedElement]
  split <;> rfl

theorem correlations_eq (v rhs : List T) (channels : ℕ) :
    p.correlations v rhs channels = (List.range (p.outputPlaces * channels)).map
      (productAt (fun q => valueAt v (p.atPatch p.paddedPlace q)) (rhs.getD · 0) p.filterArea channels) := by
  refine List.map_congr_left fun k hk => ?_
  have hk := List.mem_range.mp hk
  have hpos : 0 < channels := Nat.pos_of_ne_zero fun hzero => by simp [hzero] at hk
  have hchannel := Nat.mod_lt k hpos
  obtain ⟨inst, x, y, hinst, hx, hy, hplace⟩ := exists_outputPlace ((Nat.div_lt_iff_lt_mul hpos).mpr hk)
  have hproduct := productAt_atPatch v rhs p.paddedPlace inst hx hy hchannel
  rw [← hplace, Nat.div_add_mod'] at hproduct
  rw [hproduct, hplace, (row_column hy).1, (row_column hy).2, (row_column hx).1, (row_column hx).2]
  simp only [valueAt_paddedPlace]
  rfl

end Patches

end Convolution

section Casts

theorem toNat_lt {z : ℤ} {n : ℕ} (hz : 0 ≤ z) (hlt : z < castInt n) : z.toNat < n :=
  (Int.toNat_lt hz).mpr (hlt.trans_le (castInt_le n))

end Casts

namespace Convolution

variable (p : Convolution)

/-- What the materialised patches show. -/
def castPlace (inst x y i j : ℕ) : Option ℕ :=
  if 0 ≤ p.height.coordinate x i ∧ p.height.coordinate x i < castInt p.inputHeight ∧
      0 ≤ p.width.coordinate y j ∧ p.width.coordinate y j < castInt p.inputWidth then
    some (inst * p.inputHeight * p.inputWidth + (p.height.coordinate x i).toNat * p.inputWidth +
      (p.width.coordinate y j).toNat)
  else none

section Materialised

variable {p} {inst x y i j channels : ℕ}

theorem castPlace_lt (hinst : inst < p.instancesCount) {k : ℕ} (hplace : p.castPlace inst x y i j = some k) :
    k < p.inputSize := by
  rw [castPlace] at hplace
  split at hplace
  · rename_i hin
    obtain ⟨hx, hx', hy, hy'⟩ := hin
    obtain rfl := Option.some.inj hplace
    have hlt := place_lt (place_lt hinst (toNat_lt hx hx')) (toNat_lt hy hy')
    rw [Nat.add_mul] at hlt
    exact hlt
  · cases hplace

variable [NonAssocSemiring T] {v rhs : List T}

theorem patchElement_eq (hv : v.length = p.inputSize) (hinst : inst < p.instancesCount) (x y i j : ℕ) :
    p.patchElement v inst (p.height.coordinate x i) (p.width.coordinate y j) =
      some (valueAt v (p.castPlace inst x y i j)) := by
  rw [patchElement, castPlace]
  split
  · rename_i hin
    have hplace : p.castPlace inst x y i j = some (inst * p.inputHeight * p.inputWidth +
        (p.height.coordinate x i).toNat * p.inputWidth + (p.width.coordinate y j).toNat) := if_pos hin
    rw [getElem?_eq_getD (hv ▸ castPlace_lt hinst hplace)]
    rfl
  · rfl

theorem conv2DLeftVectorization_spec (hv : v.length = p.inputSize) : p.conv2DLeftVectorization v =
      some ((List.range (p.outputPlaces * p.filterArea)).map fun q => valueAt v (p.atPatch p.castPlace q)) := by
  have hsize : p.outputPlaces * p.filterArea = p.instancesCount * p.height.outputs * p.width.outputs *
      p.filterHeight * p.filterWidth := by rw [outputPlaces, filterArea, ← Nat.mul_assoc]
  have hlength : (List.replicate (p.outputPlaces * p.filterArea) (0 : T)).length =
      p.outputPlaces * p.filterArea := List.length_replicate
  have hloops := push_range (f := fun q => some (valueAt v (p.atPatch p.castPlace q))) hlength fun _ _ => rfl
  rw [hsize, ← product, ← product, ← product, ← product, ← hsize] at hloops
  rw [conv2DLeftVectorization]
  refine (congrArg (fun r => r.bind fun s => some s.1) ((congr (fun inst hinst s =>
    congr (fun x hx s => congr (fun y hy s => congr (fun i hi s => congr (fun j hj s => ?_) s) s) s) s) _).trans
      hloops)).trans rfl
  have hpatch := atPatch_patchPlace p.castPlace inst hx hy hi hj
  rw [patchPlace] at hpatch
  rw [push, hpatch, patchElement_eq hv hinst]

theorem materialisedConvolution_spec (hv : v.length = p.inputSize)
    (hrhs : rhs.length = channels * p.filterArea) :
    p.materialisedConvolution v rhs channels = some ((List.range (p.outputPlaces * channels)).map
      (productAt (fun q => valueAt v (p.atPatch p.castPlace q)) (rhs.getD · 0) p.filterArea channels)) := by
  rw [materialisedConvolution, conv2DLeftVectorization_spec hv]
  refine (matrixRightMultiply_spec (by rw [List.length_map, List.length_range])
    (by rw [hrhs, Nat.mul_comm])).trans ?_
  refine congrArg some (List.map_congr_left fun o ho => Finset.sum_congr rfl fun l hl => ?_)
  have ho := List.mem_range.mp ho
  have hpos : 0 < channels := Nat.pos_of_ne_zero fun hzero => by simp [hzero] at ho
  simp only
  rw [getD_map_range _ (place_lt ((Nat.div_lt_iff_lt_mul hpos).mpr ho) (Finset.mem_range.mp hl))]

end Materialised

end Convolution

/-- The filter fits into the padded input, whose size is a `size_t`. -/
structure ConvolutionAxis.Fits (a : ConvolutionAxis) : Prop where
  filter_le : a.filter ≤ a.input + 2 * a.padding
  stride_pos : 0 < a.stride
  padded_lt : a.input + 2 * a.padding < 2 ^ 64

theorem ConvolutionAxis.filterEnd_le (a : ConvolutionAxis) (place : ℕ) : a.filterEnd place ≤ a.filter :=
  Nat.min_le_right _ _

theorem ConvolutionAxis.filterStart_le (a : ConvolutionAxis) (place : ℕ) :
    a.filterStart place ≤ a.padding := by
  rw [ConvolutionAxis.filterStart]
  split <;> omega

theorem ConvolutionAxis.Fits.strideCount_placesEnd {a : ConvolutionAxis} (ha : a.Fits) :
    strideCount a.placesEnd a.stride = a.outputs := strideCount_succ _ ha.stride_pos

namespace Convolution

structure Fits (p : Convolution) : Prop where
  height : p.height.Fits
  width : p.width.Fits
  padded_lt : (p.inputHeight + 2 * p.paddingHeight) * (p.inputWidth + 2 * p.paddingWidth) < 2 ^ 64

section Direct

variable {p : Convolution} [NonAssocSemiring T] {v rhs : List T} {channels : ℕ}

/-- Neither index overflows in a row of the window. -/
theorem index_lt (hp : p.Fits) (inX inY : ℕ) {i : ℕ} (hi : i < p.height.filterEnd inX)
    (hy : p.width.filterStart inY < p.width.filterEnd inY) :
    i * p.filterWidth + p.width.filterStart inY < 2 ^ 64 ∧
      i * p.inputWidth + p.width.filterStart inY < 2 ^ 64 := by
  have hheight : i < p.inputHeight + 2 * p.paddingHeight :=
    calc i < p.height.filterEnd inX := hi
      _ ≤ p.filterHeight := p.height.filterEnd_le inX
      _ ≤ p.inputHeight + 2 * p.paddingHeight := hp.height.filter_le
  have hfilter : p.width.filterStart inY < p.filterWidth := hy.trans_le (p.width.filterEnd_le inY)
  have hwidth : p.filterWidth ≤ p.inputWidth + 2 * p.paddingWidth := hp.width.filter_le
  have hpadding : p.width.filterStart inY ≤ p.paddingWidth := p.width.filterStart_le inY
  have hrow : i * (p.inputWidth + 2 * p.paddingWidth) + (p.inputWidth + 2 * p.paddingWidth) < 2 ^ 64 := by
    rw [← Nat.succ_mul]
    calc (i + 1) * (p.inputWidth + 2 * p.paddingWidth)
        ≤ (p.inputHeight + 2 * p.paddingHeight) * (p.inputWidth + 2 * p.paddingWidth) :=
          Nat.mul_le_mul_right _ hheight
      _ < 2 ^ 64 := hp.padded_lt
  have hnarrow : i * p.filterWidth ≤ i * (p.inputWidth + 2 * p.paddingWidth) := Nat.mul_le_mul_left i hwidth
  have hinput : i * p.inputWidth ≤ i * (p.inputWidth + 2 * p.paddingWidth) :=
    Nat.mul_le_mul_left i (Nat.le_add_right _ _)
  omega

/-- The indices follow the row and the column of the filter. -/
theorem clippedSum_eq (hp : p.Fits) (read : ℕ → Option T) (inX inY inputPtr filterPtr : ℕ) :
    p.clippedSum read rhs inX inY inputPtr filterPtr =
      (List.range (p.height.filterEnd inX - p.height.filterStart inX)).foldlM (fun sum r =>
        (List.range (p.width.filterEnd inY - p.width.filterStart inY)).foldlM (fun sum c => do
          let x ← summand read rhs
            (inputPtr + ((p.height.filterStart inX + r) * p.inputWidth + p.width.filterStart inY + c))
            (filterPtr + ((p.height.filterStart inX + r) * p.filterWidth + p.width.filterStart inY + c))
          pure (sum + x)) sum) 0 := by
  let next : ℕ × ℕ → ℕ × ℕ := fun indices =>
    ((indices.1 + sizeSub p.filterWidth (sizeSub (p.width.filterEnd inY) (p.width.filterStart inY))) % 2 ^ 64,
      (indices.2 + sizeSub p.inputWidth (sizeSub (p.width.filterEnd inY) (p.width.filterStart inY))) % 2 ^ 64)
  let start : ℕ × ℕ := ((p.height.filterStart inX * p.filterWidth + p.width.filterStart inY) % 2 ^ 64,
    (p.height.filterStart inX * p.inputWidth + p.width.filterStart inY) % 2 ^ 64)
  rcases Nat.lt_or_ge (p.width.filterStart inY) (p.width.filterEnd inY) with hy | hy
  · have hend : p.width.filterEnd inY ≤ p.filterWidth := p.width.filterEnd_le inY
    have hwidth : p.filterWidth < 2 ^ 64 := hp.width.filter_le.trans_lt hp.width.padded_lt
    have hnew := sizeSub_of_le hy.le
    have hinc := sizeSub_of_le ((Nat.sub_le _ (p.width.filterStart inY)).trans hend)
    have hwindow := windowLoop (n := p.height.filterEnd inX - p.height.filterStart inX)
      (p.width.filterEnd inY - p.width.filterStart inY) next
      (fun filter input => summand read rhs (inputPtr + input) (filterPtr + filter))
      (fun r => (((p.height.filterStart inX + r) * p.filterWidth + p.width.filterStart inY) % 2 ^ 64,
        ((p.height.filterStart inX + r) * p.inputWidth + p.width.filterStart inY) % 2 ^ 64)) (fun r hr => ?_)
    · refine hwindow.trans (congr (fun r hr sum => ?_) 0)
      obtain ⟨hfilter, hrow⟩ := index_lt hp inX inY
        (show p.height.filterStart inX + r < p.height.filterEnd inX by omega) hy
      rw [Nat.mod_eq_of_lt hfilter, Nat.mod_eq_of_lt hrow]
    · obtain ⟨hfilter, hrow⟩ := index_lt hp inX inY
        (show p.height.filterStart inX + r < p.height.filterEnd inX by omega) hy
      simp only [next, hnew, hinc, Nat.mod_eq_of_lt hfilter, Nat.mod_eq_of_lt hrow]
      rw [← Nat.add_assoc (p.height.filterStart inX), Nat.succ_mul, Nat.succ_mul, sizeSub]
      apply Prod.ext
      · simp only
        omega
      · simp only
        split <;> omega
  · -- an empty row of the filter adds nothing, whatever the increments wrap to
    have hnone : p.width.filterEnd inY - p.width.filterStart inY = 0 := Nat.sub_eq_zero_of_le hy
    have hwindow := windowLoop (n := p.height.filterEnd inX - p.height.filterStart inX) 0 next
      (fun filter input => summand read rhs (inputPtr + input) (filterPtr + filter))
      (fun r => next^[r] start) fun r _ => (Function.iterate_succ_apply' next r start).symm
    rw [clippedSum, hnone]
    exact hwindow

/-- The sum over the window, once every element of it can be read. -/
theorem clippedSum_spec (hp : p.Fits) (read : ℕ → Option T) (inX inY inputPtr filterPtr : ℕ)
    {g : ℕ → ℕ → T} (hread : ∀ i, p.height.filterStart inX ≤ i → i < p.height.filterEnd inX →
      ∀ j, p.width.filterStart inY ≤ j → j < p.width.filterEnd inY →
        read (inputPtr + (i * p.inputWidth + j)) = some (g i j))
    (hrhs : filterPtr + p.filterArea ≤ rhs.length) :
    p.clippedSum read rhs inX inY inputPtr filterPtr =
      some (∑ i ∈ Finset.range p.filterHeight, ∑ j ∈ Finset.range p.filterWidth,
        (if p.height.filterStart inX ≤ i ∧ i < p.height.filterEnd inX then
          if p.width.filterStart inY ≤ j ∧ j < p.width.filterEnd inY then
            g i j * rhs.getD (filterPtr + (i * p.filterWidth + j)) 0 else 0 else 0)) := by
  have hend : p.width.filterEnd inY ≤ p.filterWidth := p.width.filterEnd_le inY
  have hrowEnd : p.height.filterEnd inX ≤ p.filterHeight := p.height.filterEnd_le inX
  have hvalue : ∀ i, p.height.filterStart inX ≤ i → i < p.height.filterEnd inX →
      ∀ j, p.width.filterStart inY ≤ j → j < p.width.filterEnd inY →
        summand read rhs (inputPtr + (i * p.inputWidth + j)) (filterPtr + (i * p.filterWidth + j)) =
          some (g i j * rhs.getD (filterPtr + (i * p.filterWidth + j)) 0) := by
    intro i hi hi' j hj hj'
    have hplace : i * p.filterWidth + j < p.filterArea := place_lt (hi'.trans_le hrowEnd) (hj'.trans_le hend)
    rw [summand, hread i hi hi' j hj hj', getElem?_eq_getD (by omega)]
    rfl
  have hrows := sum_range (n := p.height.filterEnd inX - p.height.filterStart inX)
    (f := fun r => some (∑ c ∈ Finset.range (p.width.filterEnd inY - p.width.filterStart inY),
      g (p.height.filterStart inX + r) (p.width.filterStart inY + c) *
        rhs.getD (filterPtr + ((p.height.filterStart inX + r) * p.filterWidth +
          (p.width.filterStart inY + c))) 0)) (fun _ _ => rfl) (0 : T)
  rw [clippedSum_eq hp]
  refine (congr (fun r hr sum => ?_) 0).trans (hrows.trans ?_)
  · refine sum_range (fun c hc => ?_) sum
    simp only [Nat.add_assoc _ (p.width.filterStart inY) c]
    exact hvalue _ (Nat.le_add_right _ _) (by omega) _ (Nat.le_add_right _ _) (by omega)
  · rw [zero_add, ← sum_clipped (fun i => ∑ c ∈ Finset.range (p.width.filterEnd inY - p.width.filterStart inY),
      g i (p.width.filterStart inY + c) *
        rhs.getD (filterPtr + (i * p.filterWidth + (p.width.filterStart inY + c))) 0) hrowEnd]
    refine congrArg some (Finset.sum_congr rfl fun i _ => ?_)
    rw [← sum_clipped (fun j => g i j * rhs.getD (filterPtr + (i * p.filterWidth + j)) 0) hend]
    split
    · rfl
    · exact Finset.sum_const_zero.symm

/-- The places that an instance of the input occupies. -/
theorem clippedPlace_pointer (inst x y i j : ℕ) :
    inst * p.inputHeight * p.inputWidth + x * p.strideHeight * p.inputWidth + y * p.strideWidth +
        (i * p.inputWidth + j) =
      (inst * p.inputHeight + (x * p.strideHeight + i)) * p.inputWidth + (y * p.strideWidth + j) := by
  ring

theorem conv2DVectorized_spec (hp : p.Fits) (harea : p.filterArea ≠ 0) (read : ℕ → ℕ → Option T)
    (hrhs : rhs.length = channels * p.filterArea)
    (hread : 0 < channels → ∀ inst < p.instancesCount, ∀ x < p.height.outputs, ∀ y < p.width.outputs,
      ∀ i j k, p.clippedPlace inst x y i j = some k → read inst k = some (v.getD k 0)) :
    p.conv2DVectorized read rhs = some ((List.range (p.outputPlaces * channels)).map
      (productAt (fun q => valueAt v (p.atPatch p.clippedPlace q)) (rhs.getD · 0) p.filterArea channels)) := by
  have hchannels : rhs.length / p.filterArea = channels := by
    rw [hrhs, Nat.mul_div_cancel _ (Nat.pos_of_ne_zero harea)]
  have hlength : (List.replicate (p.outputPlaces * channels) (0 : T)).length = p.outputPlaces * channels :=
    List.length_replicate
  have hloops := push_range (f := fun o => some (productAt (fun q => valueAt v (p.atPatch p.clippedPlace q))
    (rhs.getD · 0) p.filterArea channels o)) hlength fun _ _ => rfl
  have hsize : p.outputPlaces * channels = p.instancesCount * p.height.outputs * p.width.outputs *
      channels := rfl
  have hheight : strideCount p.height.placesEnd p.strideHeight = p.height.outputs :=
    hp.height.strideCount_placesEnd
  have hwidth : strideCount p.width.placesEnd p.strideWidth = p.width.outputs :=
    hp.width.strideCount_placesEnd
  rw [hsize, ← product, ← product, ← product] at hloops
  rw [conv2DVectorized, if_neg harea, hchannels, hheight, hwidth]
  refine (congrArg (fun r => r.bind fun s => some s.1) ((congr (fun inst hinst s =>
    congr (fun x hx s => congr (fun y hy s => congr (fun channel hchannel s => ?_) s) s) s) _).trans
      hloops)).trans rfl
  have hfilter : channel * p.filterHeight * p.filterWidth + p.filterArea ≤ rhs.length := by
    have hle : (channel + 1) * p.filterArea ≤ channels * p.filterArea := Nat.mul_le_mul_right _ hchannel
    rw [Nat.succ_mul, filterArea, ← Nat.mul_assoc] at hle
    rw [hrhs, filterArea]
    exact hle
  have hsum := clippedSum_spec hp (read inst) (x * p.strideHeight) (y * p.strideWidth)
    (inst * p.inputHeight * p.inputWidth + x * p.strideHeight * p.inputWidth + y * p.strideWidth)
    (channel * p.filterHeight * p.filterWidth)
      (g := fun i j => v.getD ((inst * p.inputHeight + (x * p.strideHeight + i)) *
        p.inputWidth + (y * p.strideWidth + j)) 0) (fun i hi hi' j hj hj' => by
      rw [clippedPlace_pointer]
      apply hread (Nat.zero_lt_of_lt hchannel) inst hinst x hx y hy i j _
      rw [clippedPlace, if_pos ⟨hi, hi'⟩, if_pos ⟨hj, hj'⟩]) hfilter
  rw [hsum, push, productAt_atPatch v rhs p.clippedPlace inst hx hy hchannel]
  apply congrArg (fun x : T => (writeAt s.1 s.2 x).bind fun output => some (output, s.2 + 1))
  refine Finset.sum_congr rfl fun i _ => Finset.sum_congr rfl fun j _ => ?_
  have hplace : channel * p.filterHeight * p.filterWidth + (i * p.filterWidth + j) =
      (channel * p.filterHeight + i) * p.filterWidth + j := by ring
  rw [hplace, clippedPlace]
  split
  · split
    · rfl
    · exact (zero_mul _).symm
  · exact (zero_mul _).symm

/-- A convolution that returns has read inside the input. -/
theorem clippedPlace_lt (hp : p.Fits) (hchannels : 0 < channels)
    (hrhs : rhs.length = channels * p.filterArea)
    {u : List T} (hrun : p.conv2DVectorized (elements v) rhs = some u) {inst x y i j k : ℕ}
    (hinst : inst < p.instancesCount) (hx : x < p.height.outputs) (hy : y < p.width.outputs)
    (hplace : p.clippedPlace inst x y i j = some k) : k < v.length := by
  rw [conv2DVectorized] at hrun
  split at hrun
  · cases hrun
  · rename_i harea
    have hcount : rhs.length / p.filterArea = channels := by
      rw [hrhs, Nat.mul_div_cancel _ (Nat.pos_of_ne_zero harea)]
    have hheight : strideCount p.height.placesEnd p.strideHeight = p.height.outputs :=
      hp.height.strideCount_placesEnd
    have hwidth : strideCount p.width.placesEnd p.strideWidth = p.width.outputs :=
      hp.width.strideCount_placesEnd
    rw [hcount, hheight, hwidth] at hrun
    obtain ⟨s, hloops, -⟩ := Option.bind_eq_some_iff.mp hrun
    obtain ⟨s, s', hrows⟩ := exists_step hloops hinst
    obtain ⟨s, s', hcolumns⟩ := exists_step hrows hx
    obtain ⟨s, s', hall⟩ := exists_step hcolumns hy
    obtain ⟨s, s', hchannel⟩ := exists_step hall hchannels
    obtain ⟨sum, hsum, -⟩ := Option.bind_eq_some_iff.mp hchannel
    rw [clippedPlace] at hplace
    split at hplace
    · rename_i hi
      split at hplace
      · rename_i hj
        obtain rfl := Option.some.inj hplace
        rw [clippedSum_eq hp] at hsum
        obtain ⟨t, t', hrow⟩ := exists_step hsum
          (show i - p.height.filterStart (x * p.strideHeight) < _ from Nat.sub_lt_sub_right hi.1 hi.2)
        obtain ⟨t, t', hstep⟩ := exists_step hrow
          (show j - p.width.filterStart (y * p.strideWidth) < _ from Nat.sub_lt_sub_right hj.1 hj.2)
        rw [Nat.add_sub_cancel' hi.1, Nat.add_assoc (i * p.inputWidth), Nat.add_sub_cancel' hj.1,
          clippedPlace_pointer] at hstep
        obtain ⟨summand, hsummand, -⟩ := Option.bind_eq_some_iff.mp hstep
        obtain ⟨a, ha, -⟩ := Option.bind_eq_some_iff.mp hsummand
        exact (List.getElem?_eq_some_iff.mp ha).1
      · cases hplace
    · cases hplace

end Direct

end Convolution

namespace ConvolutionAxis

/-- The patches and the casts along an axis without padding. -/
def Unpadded (a : ConvolutionAxis) : Prop :=
  a.padding = 0 ∧ (((a.outputs - 1) * a.stride + a.filter : ℕ) : ℤ) ≤ castInt a.input

/-- Every window lies in the padding. -/
def InPadding (a : ConvolutionAxis) : Prop :=
  ∀ out < a.outputs, out * a.stride + a.filter ≤ a.padding ∨
    a.padding + a.input ≤ out * a.stride ∨ a.input = 0

/-- Every clipped window is empty. -/
def Skipped (a : ConvolutionAxis) : Prop :=
  ∀ out < a.outputs, out * a.stride + a.filter ≤ a.padding ∨
    a.input ≤ out * a.stride ∧ 2 * (out * a.stride) ≤ a.input + max a.padding (out * a.stride)

/-- No cast coordinate is one of the input. -/
def CastOutside (a : ConvolutionAxis) : Prop :=
  ∀ out < a.outputs, ∀ i < a.filter, ¬ (0 ≤ a.coordinate out i ∧ a.coordinate out i < castInt a.input)

variable {a : ConvolutionAxis} {out i : ℕ}

theorem place_le (hout : out < a.outputs) : out * a.stride ≤ a.input + 2 * a.padding - a.filter :=
  (Nat.mul_le_mul_right a.stride (Nat.lt_succ_iff.mp hout)).trans (Nat.div_mul_le_self _ _)

theorem skipped_iff (ha : a.Fits) (hfilter : 0 < a.filter) : a.Skipped ↔ ∀ out < a.outputs, ∀ i < a.filter,
    ¬ (a.filterStart (out * a.stride) ≤ i ∧ i < a.filterEnd (out * a.stride)) := by
  refine forall₂_congr fun out hout => ?_
  have hplace := place_le hout
  have hend := a.filterEnd_le (out * a.stride)
  have hempty : (∀ i < a.filter, ¬ (a.filterStart (out * a.stride) ≤ i ∧ i < a.filterEnd (out * a.stride))) ↔
      a.filterEnd (out * a.stride) ≤ a.filterStart (out * a.stride) := by
    constructor
    · intro hnone
      by_contra hlt
      have hlt := Nat.not_le.mp hlt
      exact hnone _ (hlt.trans_le hend) ⟨le_refl _, hlt⟩
    · intro hle i _ hi
      omega
  obtain ⟨hfilterLe, -, hpadded⟩ := ha
  rw [hempty, filterEnd, filterStart, sizeSub]
  generalize out * a.stride = place at *
  split <;> split <;> omega

theorem inPadding_iff (hfilter : 0 < a.filter) : a.InPadding ↔ ∀ out < a.outputs, ∀ i < a.filter,
    ¬ (a.padding ≤ out * a.stride + i ∧ out * a.stride + i < a.padding + a.input) := by
  refine forall₂_congr fun out hout => ?_
  generalize out * a.stride = place
  constructor
  · intro hpadding i hi hin
    omega
  · intro hnone
    by_contra hnot
    exact hnone (a.padding - place) (by omega) (by omega)

/-- Without padding, every window is inside the input. -/
theorem inside_of_unpadded (ha : a.Fits) (hpadding : a.padding = 0) (hout : out < a.outputs)
    (hi : i < a.filter) :
    out * a.stride + i < a.input ∧ a.filterStart (out * a.stride) ≤ i ∧
      i < a.filterEnd (out * a.stride) := by
  have hplace := place_le hout
  obtain ⟨hfilterLe, -, hpadded⟩ := ha
  rw [filterEnd, filterStart, sizeSub]
  generalize out * a.stride = place at *
  split <;> split <;> omega

theorem coordinate_eq (ha : a.Unpadded) (hout : out < a.outputs) (hi : i < a.filter) :
    a.coordinate out i = (out * a.stride + i : ℕ) ∧ ((out * a.stride + i : ℕ) : ℤ) < castInt a.input := by
  obtain ⟨hpadding, hlast⟩ := ha
  have hlt := (castInt_inInt a.input).2
  have hplace : out * a.stride ≤ (a.outputs - 1) * a.stride := Nat.mul_le_mul_right _ (by omega)
  have hend : out * a.stride + i < (a.outputs - 1) * a.stride + a.filter := by omega
  have hinside : ((out * a.stride + i : ℕ) : ℤ) < castInt a.input :=
    (Int.ofNat_lt.mpr hend).trans_le hlast
  have hsmall : out * a.stride + i < 2147483648 := Int.ofNat_lt.mp (hinside.trans hlt)
  refine ⟨?_, hinside⟩
  rw [coordinate, patchStart, hpadding, castInt_natCast (by omega : out * a.stride < 2147483648),
    castInt_natCast (by omega : i < 2147483648), castInt_natCast (by decide : 0 < 2147483648), Nat.cast_zero,
    Int.sub_zero, castInt_natCast (by omega : out * a.stride < 2147483648), ← Nat.cast_add,
    castInt_natCast hsmall]

end ConvolutionAxis

namespace Convolution

/-- Both convolutions show the places of the padded input. -/
def PlacesAgree (p : Convolution) : Prop :=
  ∀ inst < p.instancesCount, ∀ x < p.height.outputs, ∀ y < p.width.outputs, ∀ i < p.filterHeight,
    ∀ j < p.filterWidth, p.clippedPlace inst x y i j = p.paddedPlace inst x y i j ∧
      p.castPlace inst x y i j = p.paddedPlace inst x y i j

/-- Neither convolution shows anything but padding, and nothing else is to be shown. -/
def Unreached (p : Convolution) : Prop :=
  (p.height.InPadding ∨ p.width.InPadding) ∧ (p.height.Skipped ∨ p.width.Skipped) ∧
    (p.height.CastOutside ∨ p.width.CastOutside)

/-- Both convolutions are the zero-padded cross-correlation on every input and every filter. -/
def Agrees (T : Type) [NonUnitalNonAssocSemiring T] (p : Convolution) (channels : ℕ) : Prop :=
  ∀ v rhs : List T, v.length = p.inputSize → rhs.length = channels * p.filterArea →
    p.Correlates v rhs channels

section Places

variable {p : Convolution} {inst x y i j k channels : ℕ}

theorem paddedPlace_eq (hplace : p.paddedPlace inst x y i j = some k) :
    (p.paddingHeight ≤ x * p.strideHeight + i ∧
        x * p.strideHeight + i < p.paddingHeight + p.inputHeight) ∧
      (p.paddingWidth ≤ y * p.strideWidth + j ∧ y * p.strideWidth + j < p.paddingWidth + p.inputWidth) ∧
      k = (inst * p.inputHeight + (x * p.strideHeight + i - p.paddingHeight)) * p.inputWidth +
        (y * p.strideWidth + j - p.paddingWidth) := by
  rw [paddedPlace] at hplace
  split at hplace
  · rename_i hin
    exact ⟨hin.1, hin.2, (Option.some.inj hplace).symm⟩
  · cases hplace

/-- The places of an instance. -/
theorem paddedPlace_own (hplace : p.paddedPlace inst x y i j = some k) :
    inst * p.inputHeight * p.inputWidth ≤ k ∧ k < (inst + 1) * p.inputHeight * p.inputWidth := by
  obtain ⟨hx, hy, rfl⟩ := paddedPlace_eq hplace
  constructor
  · rw [Nat.add_mul, Nat.add_assoc]
    exact Nat.le_add_right _ _
  · refine place_lt ?_ (by omega)
    exact place_lt (Nat.lt_succ_self inst) (by omega)

theorem paddedPlace_lt (hinst : inst < p.instancesCount) (hplace : p.paddedPlace inst x y i j = some k) :
    k < p.inputSize := by
  apply (paddedPlace_own hplace).2.trans_le
  rw [inputSize, Nat.mul_assoc, Nat.mul_assoc]
  exact Nat.mul_le_mul_right _ hinst

/-- The window of the direct convolution is off by the padding. -/
theorem padding_eq_zero (hclipped : p.clippedPlace inst x y i j = some k)
    (hpadded : p.paddedPlace inst x y i j = some k) : p.paddingHeight = 0 ∧ p.paddingWidth = 0 := by
  obtain ⟨hx, hy, hk⟩ := paddedPlace_eq hpadded
  have hk' : (inst * p.inputHeight + (x * p.strideHeight + i)) * p.inputWidth +
      (y * p.strideWidth + j) = k := by
    rw [clippedPlace] at hclipped
    split at hclipped
    · split at hclipped
      · exact Option.some.inj hclipped
      · cases hclipped
    · cases hclipped
  have hrow : inst * p.inputHeight + (x * p.strideHeight + i) =
      inst * p.inputHeight + (x * p.strideHeight + i - p.paddingHeight) + p.paddingHeight := by omega
  rw [hrow, Nat.add_mul] at hk'
  have hoffset : p.paddingHeight * p.inputWidth + p.paddingWidth = 0 := by omega
  have hwidth : 0 < p.inputWidth := by omega
  have hproduct : p.paddingHeight * p.inputWidth = 0 := by omega
  rcases Nat.mul_eq_zero.mp hproduct with hzero | hzero
  · exact ⟨hzero, by omega⟩
  · omega

theorem placesAgree_of_unpadded (hp : p.Fits) (hheight : p.height.Unpadded) (hwidth : p.width.Unpadded) :
    p.PlacesAgree := by
  intro inst hinst x hx y hy i hi j hj
  obtain ⟨hxin, hreadX⟩ := ConvolutionAxis.inside_of_unpadded hp.height hheight.1 hx hi
  obtain ⟨hyin, hreadY⟩ := ConvolutionAxis.inside_of_unpadded hp.width hwidth.1 hy hj
  obtain ⟨hcx, hcxin⟩ := ConvolutionAxis.coordinate_eq hheight hx hi
  obtain ⟨hcy, hcyin⟩ := ConvolutionAxis.coordinate_eq hwidth hy hj
  have hpaddingX : p.paddingHeight = 0 := hheight.1
  have hpaddingY : p.paddingWidth = 0 := hwidth.1
  have hpadded : p.paddedPlace inst x y i j = some ((inst * p.inputHeight + (x * p.strideHeight + i)) *
      p.inputWidth + (y * p.strideWidth + j)) := by
    rw [paddedPlace, hpaddingX, hpaddingY, Nat.zero_add, Nat.zero_add]
    exact if_pos ⟨⟨Nat.zero_le _, hxin⟩, Nat.zero_le _, hyin⟩
  refine ⟨?_, ?_⟩
  · exact ((if_pos hreadX).trans (if_pos hreadY)).trans hpadded.symm
  · have hplace : inst * p.inputHeight * p.inputWidth + (x * p.strideHeight + i) * p.inputWidth +
        (y * p.strideWidth + j) = (inst * p.inputHeight + (x * p.strideHeight + i)) * p.inputWidth +
          (y * p.strideWidth + j) := by rw [← Nat.add_mul]
    rw [hpadded, castPlace, hcx, hcy, if_pos ⟨Int.natCast_nonneg _, hcxin, Int.natCast_nonneg _, hcyin⟩,
      Int.toNat_natCast, Int.toNat_natCast]
    exact congrArg some hplace

theorem placesAgree_of_unreached (hp : p.Fits) (harea : 0 < p.filterHeight ∧ 0 < p.filterWidth)
    (hunreached : p.Unreached) : p.PlacesAgree := by
  obtain ⟨hpadding, hskipped, hcast⟩ := hunreached
  intro inst hinst x hx y hy i hi j hj
  have hpadded : p.paddedPlace inst x y i j = none := by
    refine if_neg fun hin => ?_
    rcases hpadding with hheight | hwidth
    · exact (ConvolutionAxis.inPadding_iff harea.1).mp hheight x hx i hi hin.1
    · exact (ConvolutionAxis.inPadding_iff harea.2).mp hwidth y hy j hj hin.2
  refine ⟨?_, ?_⟩
  · rw [hpadded, clippedPlace]
    split
    · rename_i hreadX
      refine if_neg fun hreadY => ?_
      rcases hskipped with hheight | hwidth
      · exact (ConvolutionAxis.skipped_iff hp.height harea.1).mp hheight x hx i hi hreadX
      · exact (ConvolutionAxis.skipped_iff hp.width harea.2).mp hwidth y hy j hj hreadY
    · rfl
  · rw [hpadded, castPlace]
    refine if_neg fun hin => ?_
    rcases hcast with hheight | hwidth
    · exact hheight x hx i hi ⟨hin.1, hin.2.1⟩
    · exact hwidth y hy j hj hin.2.2

/-- The last place of the output and of the filter, where the largest coordinate is. -/
theorem unpadded_of_placesAgree (hp : p.Fits) (harea : 0 < p.filterHeight ∧ 0 < p.filterWidth)
    (hinst : 0 < p.instancesCount) (hplaces : p.PlacesAgree)
    (hpadding : p.paddingHeight = 0 ∧ p.paddingWidth = 0) :
    p.height.Unpadded ∧ p.width.Unpadded := by
  have hx : p.height.outputs - 1 < p.height.outputs := Nat.lt_succ_self _
  have hy : p.width.outputs - 1 < p.width.outputs := Nat.lt_succ_self _
  have hi : p.filterHeight - 1 < p.filterHeight := by omega
  have hj : p.filterWidth - 1 < p.filterWidth := by omega
  have hxin : (p.height.outputs - 1) * p.strideHeight + (p.filterHeight - 1) < p.inputHeight :=
    (ConvolutionAxis.inside_of_unpadded hp.height hpadding.1 hx hi).1
  have hyin : (p.width.outputs - 1) * p.strideWidth + (p.filterWidth - 1) < p.inputWidth :=
    (ConvolutionAxis.inside_of_unpadded hp.width hpadding.2 hy hj).1
  have hpadded : p.paddedPlace 0 (p.height.outputs - 1) (p.width.outputs - 1) (p.filterHeight - 1)
      (p.filterWidth - 1) = some ((0 * p.inputHeight + ((p.height.outputs - 1) * p.strideHeight +
        (p.filterHeight - 1))) * p.inputWidth +
        ((p.width.outputs - 1) * p.strideWidth + (p.filterWidth - 1))) := by
    rw [paddedPlace, hpadding.1, hpadding.2, Nat.zero_add, Nat.zero_add]
    exact if_pos ⟨⟨Nat.zero_le _, hxin⟩, Nat.zero_le _, hyin⟩
  have hcast := (hplaces 0 hinst _ hx _ hy _ hi _ hj).2
  rw [hpadded, castPlace] at hcast
  split at hcast
  · rename_i hin
    obtain ⟨hcx, hcx', hcy, hcy'⟩ := hin
    have hequal := Option.some.inj hcast
    simp only [Nat.zero_mul, Nat.zero_add] at hequal
    have hcolumn := toNat_lt hcy hcy'
    have hrow := congrArg (· / p.inputWidth) hequal
    have hrest := congrArg (· % p.inputWidth) hequal
    simp only [(row_column hcolumn).1, (row_column hcolumn).2] at hrow hrest
    rw [(row_column hyin).1] at hrow
    rw [(row_column hyin).2] at hrest
    refine ⟨⟨hpadding.1, ?_⟩, hpadding.2, ?_⟩
    · have hlast : (p.height.outputs - 1) * p.height.stride + p.height.filter =
          (p.height.coordinate (p.height.outputs - 1) (p.filterHeight - 1)).toNat + 1 := by
        rw [hrow, Nat.add_assoc, Nat.sub_add_cancel harea.1]
        rfl
      rw [hlast, Nat.cast_add, Int.toNat_of_nonneg hcx]
      exact hcx'
    · have hlast : (p.width.outputs - 1) * p.width.stride + p.width.filter =
          (p.width.coordinate (p.width.outputs - 1) (p.filterWidth - 1)).toNat + 1 := by
        rw [hrest, Nat.add_assoc, Nat.sub_add_cancel harea.2]
        rfl
      rw [hlast, Nat.cast_add, Int.toNat_of_nonneg hcy]
      exact hcy'
  · cases hcast

/-- If no place is common to both axes, one of them has none. -/
theorem forall_or_forall {m n : ℕ} {f g : ℕ → ℕ} {P Q : ℕ → ℕ → Prop}
    (hnone : ∀ x < m, ∀ i < f x, P x i → ∀ y < n, ∀ j < g y, ¬ Q y j) :
    (∀ x < m, ∀ i < f x, ¬ P x i) ∨ ∀ y < n, ∀ j < g y, ¬ Q y j := by
  by_cases hany : ∀ x < m, ∀ i < f x, ¬ P x i
  · exact Or.inl hany
  · simp only [not_forall, not_not] at hany
    obtain ⟨x, hx, i, hi, hp⟩ := hany
    exact Or.inr (hnone x hx i hi hp)

theorem unreached_of_placesAgree (hp : p.Fits) (harea : 0 < p.filterHeight ∧ 0 < p.filterWidth)
    (hinst : 0 < p.instancesCount) (hplaces : p.PlacesAgree)
    (hpadding : ¬ (p.paddingHeight = 0 ∧ p.paddingWidth = 0)) : p.Unreached := by
  have hskipped : p.height.Skipped ∨ p.width.Skipped := by
    rw [ConvolutionAxis.skipped_iff hp.height harea.1, ConvolutionAxis.skipped_iff hp.width harea.2]
    refine forall_or_forall (f := fun _ => p.filterHeight) (g := fun _ => p.filterWidth)
      fun x hx i hi hreadX y hy j hj hreadY => hpadding ?_
    have hclipped : p.clippedPlace 0 x y i j = some ((0 * p.inputHeight + (x * p.strideHeight + i)) *
        p.inputWidth + (y * p.strideWidth + j)) := (if_pos hreadX).trans (if_pos hreadY)
    exact padding_eq_zero hclipped ((hplaces 0 hinst x hx y hy i hi j hj).1.symm.trans hclipped)
  have hpadded : ∀ x < p.height.outputs, ∀ y < p.width.outputs, ∀ i < p.filterHeight, ∀ j < p.filterWidth,
      p.paddedPlace 0 x y i j = none := by
    intro x hx y hy i hi j hj
    rw [← (hplaces 0 hinst x hx y hy i hi j hj).1, clippedPlace]
    rcases hskipped with hheight | hwidth
    · exact if_neg ((ConvolutionAxis.skipped_iff hp.height harea.1).mp hheight x hx i hi)
    · refine (congrArg (ite _ · none) (if_neg ?_)).trans (ite_self none)
      exact (ConvolutionAxis.skipped_iff hp.width harea.2).mp hwidth y hy j hj
  refine ⟨?_, hskipped, ?_⟩
  · rw [ConvolutionAxis.inPadding_iff harea.1, ConvolutionAxis.inPadding_iff harea.2]
    refine forall_or_forall (f := fun _ => p.filterHeight) (g := fun _ => p.filterWidth)
      fun x hx i hi hinX y hy j hj hinY => ?_
    have hnone := hpadded x hx y hy i hi j hj
    rw [paddedPlace, if_pos ⟨hinX, hinY⟩] at hnone
    cases hnone
  · refine forall_or_forall (f := fun _ => p.filterHeight) (g := fun _ => p.filterWidth)
      fun x hx i hi hinX y hy j hj hinY => ?_
    have hnone := (hplaces 0 hinst x hx y hy i hi j hj).2.trans (hpadded x hx y hy i hi j hj)
    rw [castPlace, if_pos ⟨hinX.1, hinX.2, hinY.1, hinY.2⟩] at hnone
    cases hnone

theorem placesAgree_iff (hp : p.Fits) (harea : 0 < p.filterHeight ∧ 0 < p.filterWidth)
    (hinst : 0 < p.instancesCount) : p.PlacesAgree ↔
    (p.height.Unpadded ∧ p.width.Unpadded) ∨ p.Unreached := by
  constructor
  · intro hplaces
    by_cases hpadding : p.paddingHeight = 0 ∧ p.paddingWidth = 0
    · exact Or.inl (unpadded_of_placesAgree hp harea hinst hplaces hpadding)
    · exact Or.inr (unreached_of_placesAgree hp harea hinst hplaces hpadding)
  · rintro (⟨hheight, hwidth⟩ | hunreached)
    · exact placesAgree_of_unpadded hp hheight hwidth
    · exact placesAgree_of_unreached hp harea hunreached

end Places

section Agreement

variable [NonAssocSemiring T] {p : Convolution} {channels : ℕ} {v rhs : List T}

theorem productAt_congr {f f' : ℕ → T} (g : ℕ → T) {m k n : ℕ} (heq : ∀ q < m * k, f q = f' q) {o : ℕ}
    (ho : o < m * n) : productAt f g k n o = productAt f' g k n o := by
  have hpos : 0 < n := Nat.pos_of_ne_zero fun hzero => by simp [hzero] at ho
  have hrow : o / n < m := (Nat.div_lt_iff_lt_mul hpos).mpr ho
  refine Finset.sum_congr rfl fun l hl => ?_
  rw [heq _ (place_lt hrow (Finset.mem_range.mp hl))]

/-- The convolution that shows the places of the padded input. -/
theorem correlations_of_places (v rhs : List T) (place : ℕ → ℕ → ℕ → ℕ → ℕ → Option ℕ)
    (heq : 0 < channels → ∀ inst < p.instancesCount, ∀ x < p.height.outputs, ∀ y < p.width.outputs,
      ∀ i < p.filterHeight, ∀ j < p.filterWidth, place inst x y i j = p.paddedPlace inst x y i j) :
    (List.range (p.outputPlaces * channels)).map
        (productAt (fun q => valueAt v (p.atPatch place q)) (rhs.getD · 0) p.filterArea channels) =
      p.correlations v rhs channels := by
  rw [correlations_eq]
  refine List.map_congr_left fun o ho => productAt_congr _ (fun q hq => ?_) (List.mem_range.mp ho)
  have hpos : 0 < channels := Nat.pos_of_ne_zero fun hzero => by simp [hzero] at ho
  obtain ⟨inst, x, y, i, j, hinst, hx, hy, hi, hj, rfl⟩ := exists_patchPlace hq
  rw [atPatch_patchPlace _ _ hx hy hi hj, atPatch_patchPlace _ _ hx hy hi hj,
    heq hpos inst hinst x hx y hy i hi j hj]

/-- Places that give the cross-correlation on every input are those of the padded input. -/
theorem places_of_correlations [Nontrivial T] (place : ℕ → ℕ → ℕ → ℕ → ℕ → Option ℕ)
    (hchannels : 0 < channels)
    (hin : ∀ inst < p.instancesCount, ∀ x < p.height.outputs, ∀ y < p.width.outputs,
      ∀ i < p.filterHeight, ∀ j < p.filterWidth, ∀ k, place inst x y i j = some k → k < p.inputSize)
    (heq : ∀ v rhs : List T, v.length = p.inputSize → rhs.length = channels * p.filterArea →
      (List.range (p.outputPlaces * channels)).map
          (productAt (fun q => valueAt v (p.atPatch place q)) (rhs.getD · 0) p.filterArea channels) =
        p.correlations v rhs channels) {inst x y i j : ℕ} (hinst : inst < p.instancesCount)
    (hx : x < p.height.outputs) (hy : y < p.width.outputs) (hi : i < p.filterHeight)
    (hj : j < p.filterWidth) :
    place inst x y i j = p.paddedPlace inst x y i j := by
  have hplaces := places_eq (T := T) p.inputSize (p.atPatch place) (p.atPatch p.paddedPlace)
    (m := p.outputPlaces) hchannels (fun q hq k hk => ?_)
    (fun q hq k hk => ?_) (fun v rhs hv hrhs o ho => ?_) (patchPlace_lt hinst hx hy hi hj)
  · rw [atPatch_patchPlace _ _ hx hy hi hj, atPatch_patchPlace _ _ hx hy hi hj] at hplaces
    exact hplaces
  · obtain ⟨inst, x, y, i, j, hinst, hx, hy, hi, hj, rfl⟩ := exists_patchPlace hq
    rw [atPatch_patchPlace _ _ hx hy hi hj] at hk
    exact hin inst hinst x hx y hy i hi j hj k hk
  · obtain ⟨inst, x, y, i, j, hinst, hx, hy, hi, hj, rfl⟩ := exists_patchPlace hq
    rw [atPatch_patchPlace _ _ hx hy hi hj] at hk
    exact paddedPlace_lt hinst hk
  · have hlists := heq v rhs hv hrhs
    rw [correlations_eq] at hlists
    exact List.map_inj_left.mp hlists o (List.mem_range.mpr ho)

/-- What the direct convolution reads of its own instance. -/
theorem ownElements_eq (hv : v.length = p.inputSize) {inst x y i j k : ℕ} (hinst : inst < p.instancesCount)
    (hplace : p.paddedPlace inst x y i j = some k) : p.ownElements v inst k = some (v.getD k 0) := by
  rw [ownElements, if_pos (paddedPlace_own hplace)]
  exact getElem?_eq_getD (hv ▸ paddedPlace_lt hinst hplace)

theorem correlates_of_places (hp : p.Fits) (harea : 0 < p.filterHeight ∧ 0 < p.filterWidth)
    (hplaces : channels = 0 ∨ p.PlacesAgree) (hv : v.length = p.inputSize)
    (hrhs : rhs.length = channels * p.filterArea) :
    p.Correlates v rhs channels := by
  have hagree : 0 < channels → p.PlacesAgree := fun hpos => hplaces.resolve_left hpos.ne'
  have hpos : p.filterArea ≠ 0 := (Nat.mul_pos harea.1 harea.2).ne'
  -- a clipped place is in the window of the filter
  have hread : 0 < channels → ∀ inst < p.instancesCount, ∀ x < p.height.outputs, ∀ y < p.width.outputs,
      ∀ i j k, p.clippedPlace inst x y i j = some k → p.paddedPlace inst x y i j = some k := by
    intro hchannels inst hinst x hx y hy i j k hplace
    have hwindow : i < p.filterHeight ∧ j < p.filterWidth := by
      rw [clippedPlace] at hplace
      split at hplace
      · rename_i hi
        split at hplace
        · rename_i hj
          exact ⟨hi.2.trans_le (p.height.filterEnd_le _), hj.2.trans_le (p.width.filterEnd_le _)⟩
        · cases hplace
      · cases hplace
    rw [← hplace]
    exact (hagree hchannels inst hinst x hx y hy i hwindow.1 j hwindow.2).1.symm
  have hclipped := correlations_of_places (p := p) v rhs p.clippedPlace
    fun (hchannels : 0 < channels) inst hinst x hx y hy i hi j hj =>
      (hagree hchannels inst hinst x hx y hy i hi j hj).1
  refine ⟨?_, ?_, ?_⟩
  · rw [← hclipped]
    exact conv2DVectorized_spec hp hpos _ hrhs fun hchannels inst hinst x hx y hy i j k hplace =>
      getElem?_eq_getD (hv ▸ paddedPlace_lt hinst (hread hchannels inst hinst x hx y hy i j k hplace))
  · rw [← hclipped]
    exact conv2DVectorized_spec hp hpos _ hrhs fun hchannels inst hinst x hx y hy i j k hplace =>
      ownElements_eq hv hinst (hread hchannels inst hinst x hx y hy i j k hplace)
  · rw [materialisedConvolution_spec hv hrhs]
    exact congrArg some (correlations_of_places v rhs p.castPlace fun hchannels inst hinst x hx y hy i hi j hj =>
      (hagree hchannels inst hinst x hx y hy i hi j hj).2)

/-- Without instances there is nothing to convolve. -/
theorem correlates_of_empty (hp : p.Fits) (harea : 0 < p.filterHeight ∧ 0 < p.filterWidth)
    (hinst : p.instancesCount = 0) (hrhs : rhs.length = channels * p.filterArea) :
    p.Correlates v rhs channels := by
  have hplaces : p.outputPlaces = 0 := by
    rw [outputPlaces, hinst, Nat.zero_mul, Nat.zero_mul]
  have hnone : p.correlations v rhs channels = [] := by
    rw [correlations, hplaces, Nat.zero_mul]
    rfl
  have hdirect : ∀ read : ℕ → ℕ → Option T, p.conv2DVectorized read rhs = some [] := by
    intro read
    rw [conv2DVectorized_spec (v := []) hp (Nat.mul_pos harea.1 harea.2).ne' read hrhs
      fun _ inst hlt => absurd hlt (by omega), hplaces, Nat.zero_mul]
    rfl
  refine ⟨hnone ▸ hdirect _, hnone ▸ hdirect _, ?_⟩
  have hpatches : p.conv2DLeftVectorization v = some [] := by
    rw [conv2DLeftVectorization, hinst, hplaces, Nat.zero_mul]
    rfl
  rw [materialisedConvolution, hpatches, hnone, hplaces]
  apply (matrixRightMultiply_spec (by rw [Nat.zero_mul, List.length_nil]) (by rw [hrhs, Nat.mul_comm])).trans
  rw [Nat.zero_mul]
  rfl

theorem agrees_iff [Nontrivial T] (hp : p.Fits) : p.Agrees T channels ↔
    (0 < p.filterHeight ∧ 0 < p.filterWidth) ∧
      (p.instancesCount = 0 ∨ channels = 0 ∨ p.PlacesAgree) := by
  constructor
  · intro hagrees
    have hzero := hagrees (List.replicate p.inputSize 0) (List.replicate (channels * p.filterArea) 0)
      List.length_replicate List.length_replicate
    have harea : 0 < p.filterHeight ∧ 0 < p.filterWidth := by
      have hpos : p.filterArea ≠ 0 := fun hnone => by
        have hrun := hzero.direct
        rw [conv2DVectorized, if_pos hnone] at hrun
        cases hrun
      exact ⟨Nat.pos_of_ne_zero fun hnone => hpos (by rw [filterArea, hnone, Nat.zero_mul]),
        Nat.pos_of_ne_zero fun hnone => hpos (by rw [filterArea, hnone, Nat.mul_zero])⟩
    refine ⟨harea, ?_⟩
    rcases Nat.eq_zero_or_pos p.instancesCount with hnone | hinst
    · exact Or.inl hnone
    apply Or.inr
    rcases Nat.eq_zero_or_pos channels with hnone | hchannels
    · exact Or.inl hnone
    have hclipped : ∀ inst < p.instancesCount, ∀ x < p.height.outputs, ∀ y < p.width.outputs,
        ∀ i j k, p.clippedPlace inst x y i j = some k → k < p.inputSize := by
      intro inst hinst x hx y hy i j k hplace
      have hlt := clippedPlace_lt hp hchannels List.length_replicate hzero.direct hinst hx hy hplace
      rwa [List.length_replicate] at hlt
    refine Or.inr fun inst hinst x hx y hy i hi j hj => ⟨?_, ?_⟩
    · refine places_of_correlations (T := T) p.clippedPlace hchannels (fun inst hinst x hx y hy i _ j _ =>
        hclipped inst hinst x hx y hy i j) (fun v rhs hv hrhs => ?_) hinst hx hy hi hj
      have hrun := conv2DVectorized_spec (v := v) hp (Nat.mul_pos harea.1 harea.2).ne' (elements v) hrhs
        fun _ inst hinst x hx y hy i j k hplace =>
          getElem?_eq_getD (hv ▸ hclipped inst hinst x hx y hy i j k hplace)
      exact Option.some.inj (hrun.symm.trans (hagrees v rhs hv hrhs).direct)
    · refine places_of_correlations (T := T) p.castPlace hchannels ?_ (fun v rhs hv hrhs => ?_)
        hinst hx hy hi hj
      · intro inst hinst x hx y hy i hi j hj k hplace
        exact castPlace_lt hinst hplace
      · exact Option.some.inj ((materialisedConvolution_spec hv hrhs).symm.trans
          (hagrees v rhs hv hrhs).materialised)
  · rintro ⟨harea, hnone | hplaces⟩ v rhs hv hrhs
    · exact correlates_of_empty hp harea hnone hrhs
    · exact correlates_of_places hp harea hplaces hv hrhs

end Agreement

end Convolution

end CryptDough
