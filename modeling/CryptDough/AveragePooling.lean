import CryptDough.MappedVector
import CryptDough.OptionLoop
import Mathlib.Algebra.BigOperators.Group.Finset.Basic
import Mathlib.Algebra.BigOperators.Intervals
import Mathlib.Data.BitVec

/-! Sum pooling, which average pooling divides by the size of the window: over interleaved channels at
once, or over the channels one after the other, separated before and interleaved again afterwards. -/

namespace CryptDough

open OptionLoop

structure Pooling where
  instancesCount : ℕ
  channels : ℕ
  inputHeight : ℕ
  inputWidth : ℕ
  poolHeight : ℕ
  poolWidth : ℕ
  strideHeight : ℕ
  strideWidth : ℕ
  paddingHeight : ℕ
  paddingWidth : ℕ

variable {T : Type}

namespace Pooling

variable (p : Pooling)

def outputHeight : ℕ := (p.inputHeight + 2 * p.paddingHeight - p.poolHeight) / p.strideHeight + 1

def outputWidth : ℕ := (p.inputWidth + 2 * p.paddingWidth - p.poolWidth) / p.strideWidth + 1

def outputSize : ℕ := p.instancesCount * p.channels * p.outputHeight * p.outputWidth

/-- The window at `inputPtr`, with the sum so far and the index of the next element. -/
def window [AddCommMonoid T] (v : List T) (inputPtr : ℕ) : Option T := do
  let s ← (List.range p.poolHeight).foldlM (fun s _ => do
    let s ← (List.range p.poolWidth).foldlM (fun (s : T × ℕ) _ => do
      let x ← v[inputPtr + s.2]?
      pure (s.1 + x, s.2 + p.channels)) s
    pure (s.1, s.2 + (p.inputWidth - p.poolWidth) * p.channels)) (0, 0)
  pure s.1

/-- The output for one window and channel, after which the output pointer advances. -/
def poolChannel [AddCommMonoid T] (v : List T) (inst inX inY : ℕ) (s : List T × ℕ) (c : ℕ) :
    Option (List T × ℕ) := do
  let sum ← p.window v (inst * p.inputHeight * p.inputWidth * p.channels +
    inX * p.inputWidth * p.channels + inY * p.channels + c)
  let output ← writeAt s.1 s.2 sum
  pure (output, s.2 + 1)

/-- The counter of the channels is an `int`; a negative one is beyond the channels. -/
def sumPooling [AddCommMonoid T] (v : List T) : Option (List T) := do
  guard (p.paddingHeight = 0 ∧ p.paddingWidth = 0)
  let inXEnd := p.inputHeight + 2 * p.paddingHeight - p.poolHeight + 1
  let inYEnd := p.inputWidth + 2 * p.paddingWidth - p.poolWidth + 1
  let s ← (List.range p.instancesCount).foldlM (fun s inst =>
    (List.range (strideCount inXEnd p.strideHeight)).foldlM (fun s x =>
      (List.range (strideCount inYEnd p.strideWidth)).foldlM (fun s y =>
        (List.range (intSteps p.channels)).foldlM
          (p.poolChannel v inst (x * p.strideHeight) (y * p.strideWidth)) s) s) s)
            (List.replicate p.outputSize 0, 0)
  pure s.1

end Pooling

/-- A loop over `count` elements, with the index of the output and that of the input. -/
def copyStrided (v : List T) (count outputStep inputStep : ℕ) (s : List T × ℕ × ℕ) :
    Option (List T × ℕ × ℕ) :=
  (List.range count).foldlM (fun s _ => do
    let x ← v[s.2.2]?
    let output ← writeAt s.1 s.2.1 x
    pure (output, s.2.1 + outputStep, s.2.2 + inputStep)) s

def matrixSeparateChannels [Zero T] (v : List T) (channels : ℕ) : Option (List T) := do
  guard (v.length % channels = 0)
  let elementsPerChannel := v.length / channels
  let s ← (List.range channels).foldlM (fun (s : List T × ℕ) c => do
    let (output, outputIndex, _) ← copyStrided v elementsPerChannel 1 channels (s.1, s.2, c)
    pure (output, outputIndex)) (List.replicate v.length 0, 0)
  pure s.1

def matrixInterleaveChannels [Zero T] (v : List T) (channels : ℕ) : Option (List T) := do
  guard (v.length % channels = 0)
  let elementsPerChannel := v.length / channels
  let s ← (List.range channels).foldlM (fun (s : List T × ℕ) c => do
    let (output, _, inputIndex) ← copyStrided v elementsPerChannel channels 1 (s.1, c, s.2)
    pure (output, inputIndex)) (List.replicate v.length 0, 0)
  pure s.1

namespace Pooling

variable (p : Pooling)

/-- Pooling with materialised channels, each of which becomes instances of its own. -/
def separatedPooling [AddCommMonoid T] (v : List T) : Option (List T) := do
  let separated ← matrixSeparateChannels v p.channels
  let pooled ← sumPooling { p with instancesCount := p.instancesCount * p.channels, channels := 1 } separated
  matrixInterleaveChannels pooled p.channels

end Pooling

/-- Two indices that advance by their steps. -/
theorem copyStrided_eq (v out : List T) (outputIndex inputIndex outputStep inputStep count : ℕ) :
    copyStrided v count outputStep inputStep (out, outputIndex, inputIndex) =
      ((List.range count).foldlM (fun out i => do
        let x ← v[inputIndex + inputStep * i]?
        writeAt out (outputIndex + outputStep * i) x) out).map fun out =>
          (out, outputIndex + outputStep * count, inputIndex + inputStep * count) := by
  refine tracked (fun i => (outputIndex + outputStep * i, inputIndex + inputStep * i))
    (fun i _ out => ?_) out
  have houtput : outputIndex + outputStep * i + outputStep = outputIndex + outputStep * (i + 1) := by ring
  have hinput : inputIndex + inputStep * i + inputStep = inputIndex + inputStep * (i + 1) := by ring
  cases v[inputIndex + inputStep * i]? with
  | none => rfl
  | some x =>
      change ((writeAt out (outputIndex + outputStep * i) x).bind fun output =>
        some (output, outputIndex + outputStep * i + outputStep, inputIndex + inputStep * i + inputStep)) = _
      rw [houtput, hinput]
      exact Option.map_eq_bind.symm

section Channels

variable [Zero T] {v : List T} {channels count : ℕ}

/-- The element of channel `c` at the place `i`. -/
def channelPlace (channels count k : ℕ) : ℕ := k % count * channels + k / count

theorem channelPlace_lt {k : ℕ} (hk : k < channels * count) :
    channelPlace channels count k < count * channels := by
  have hpos : 0 < count := Nat.pos_of_ne_zero fun hzero => by simp [hzero] at hk
  refine place_lt (Nat.mod_lt k hpos) (Nat.div_lt_of_lt_mul ?_)
  rw [Nat.mul_comm]
  exact hk

/-- A place is found again from its row and column in the other order. -/
theorem channelPlace_channelPlace {k : ℕ} (hk : k < channels * count) :
    channelPlace count channels (channelPlace channels count k) = k := by
  have hquot : k / count < channels := Nat.div_lt_of_lt_mul (by rw [Nat.mul_comm]; exact hk)
  obtain ⟨hdiv, hmod⟩ := row_column (i := k % count) hquot
  rw [channelPlace, channelPlace, hdiv, hmod]
  exact Nat.div_add_mod' k count

theorem separateChannels_spec (hpos : 0 < channels) (hlen : v.length = channels * count) :
    matrixSeparateChannels v channels =
      some ((List.range (channels * count)).map fun k => v.getD (channelPlace channels count k) 0) := by
  have hmod : v.length % channels = 0 := by rw [hlen, Nat.mul_mod_right]
  have hdiv : v.length / channels = count := by rw [hlen, Nat.mul_div_cancel_left _ hpos]
  have hread : ∀ k < channels * count, v[channelPlace channels count k]? =
      some (v.getD (channelPlace channels count k) 0) := by
    intro k hk
    have hlt := channelPlace_lt hk
    rw [List.getD_eq_getElem?_getD, List.getElem?_eq_getElem (by rw [hlen, Nat.mul_comm]; exact hlt)]
    rfl
  have houter := tracked (fun c => count * c) (n := channels)
    (g := fun out c => (List.range count).foldlM (fun out i => do
      let x ← v[channelPlace channels count (c * count + i)]?
      writeAt out (c * count + i) x) out)
    (f := fun (s : List T × ℕ) c => do
      let (output, outputIndex, _) ← copyStrided v count 1 channels (s.1, s.2, c)
      pure (output, outputIndex)) (fun c hc out => ?_) (List.replicate v.length 0)
  · rw [product (fun out k => do
      let x ← v[channelPlace channels count k]?
      writeAt out k x), fill_range (by rw [List.length_replicate, hlen]) hread] at houter
    rw [matrixSeparateChannels, hmod, hdiv]
    exact congrArg (fun r => r.bind fun s => some s.1) houter
  · change (copyStrided v count 1 channels (out, count * c, c)).bind (fun s => some (s.1, s.2.1)) = _
    rw [copyStrided_eq, bind_map_some, Nat.one_mul]
    refine congrArg (fun r => r.map fun out => (out, count * (c + 1))) (congr (fun i hi out => ?_) out)
    obtain ⟨hquot, hrem⟩ := row_column (i := c) hi
    rw [channelPlace, hquot, hrem, Nat.one_mul, Nat.mul_comm c, Nat.add_comm c, Nat.mul_comm channels]

theorem interleaveChannels_spec (hpos : 0 < channels) (hlen : v.length = channels * count) :
    matrixInterleaveChannels v channels =
      some ((List.range (channels * count)).map fun k => v.getD (channelPlace count channels k) 0) := by
  have hmod : v.length % channels = 0 := by rw [hlen, Nat.mul_mod_right]
  have hdiv : v.length / channels = count := by rw [hlen, Nat.mul_div_cancel_left _ hpos]
  have hread : ∀ k < channels * count, v[k]? = some (v.getD k 0) := by
    intro k hk
    rw [List.getD_eq_getElem?_getD, List.getElem?_eq_getElem (by rw [hlen]; exact hk)]
    rfl
  obtain ⟨out, hfill, houtlen, hwritten, -⟩ := fill (List.replicate v.length 0)
    (channelPlace channels count) (fun k hk => by
      rw [List.length_replicate, hlen, Nat.mul_comm]
      exact channelPlace_lt hk) (fun j hj k hk heq => by
      rw [← channelPlace_channelPlace hj, ← channelPlace_channelPlace hk, heq]) hread
  have houter := tracked (fun c => count * c) (n := channels)
    (g := fun out c => (List.range count).foldlM (fun out i => do
      let x ← v[c * count + i]?
      writeAt out (channelPlace channels count (c * count + i)) x) out)
    (f := fun (s : List T × ℕ) c => do
      let (output, _, inputIndex) ← copyStrided v count channels 1 (s.1, c, s.2)
      pure (output, inputIndex)) (fun c hc out => ?_) (List.replicate v.length 0)
  · rw [product (fun out k => do
      let x ← v[k]?
      writeAt out (channelPlace channels count k) x), hfill] at houter
    rw [matrixInterleaveChannels, hmod, hdiv]
    refine (congrArg (fun r => r.bind fun s => some s.1) houter).trans ?_
    refine congrArg some (List.ext_getElem? fun i => ?_)
    change out[i]? = _
    rw [List.getElem?_map]
    rcases Nat.lt_or_ge i (channels * count) with hi | hi
    · have hi' : i < count * channels := by
        rw [Nat.mul_comm]
        exact hi
      have hback := channelPlace_channelPlace hi'
      have hplace := channelPlace_lt hi'
      rw [List.getElem?_range hi, ← hback, hwritten _ hplace, hback]
      rfl
    · rw [List.getElem?_eq_none (by rw [houtlen, List.length_replicate, hlen]; exact hi),
        List.getElem?_eq_none (by rw [List.length_range]; exact hi)]
      rfl
  · change (copyStrided v count channels 1 (out, c, count * c)).bind (fun s => some (s.1, s.2.2)) = _
    rw [copyStrided_eq, bind_map_some, Nat.one_mul]
    refine congrArg (fun r => r.map fun out => (out, count * (c + 1))) (congr (fun i hi out => ?_) out)
    obtain ⟨hquot, hrem⟩ := row_column (i := c) hi
    rw [channelPlace, hquot, hrem, Nat.one_mul, Nat.mul_comm c, Nat.add_comm c, Nat.mul_comm channels]

end Channels

namespace Pooling

section Windows

variable [AddCommMonoid T] {p : Pooling} {v : List T}

/-- The window fits into the input, without padding. -/
structure Fits (p : Pooling) : Prop where
  channels_pos : 0 < p.channels
  poolHeight_le : p.poolHeight ≤ p.inputHeight
  poolWidth_le : p.poolWidth ≤ p.inputWidth
  strideHeight_pos : 0 < p.strideHeight
  strideWidth_pos : 0 < p.strideWidth
  paddingHeight_eq : p.paddingHeight = 0
  paddingWidth_eq : p.paddingWidth = 0

/-- The place of an element of the input. -/
def inputPlace (p : Pooling) (inst x y c : ℕ) : ℕ :=
  ((inst * p.inputHeight + x) * p.inputWidth + y) * p.channels + c

def inputSize (p : Pooling) : ℕ := p.instancesCount * p.inputHeight * p.inputWidth * p.channels

/-- The sum over the window that starts at the row `x * strideHeight` and the column `y *
strideWidth`. -/
def windowSum (p : Pooling) (v : List T) (inst x y c : ℕ) : T :=
  ∑ i ∈ Finset.range p.poolHeight, ∑ j ∈ Finset.range p.poolWidth,
    v.getD (p.inputPlace inst (x * p.strideHeight + i) (y * p.strideWidth + j) c) 0

theorem inputPlace_lt {inst x y c : ℕ} (hinst : inst < p.instancesCount) (hx : x < p.inputHeight)
    (hy : y < p.inputWidth) (hc : c < p.channels) : p.inputPlace inst x y c < p.inputSize :=
  place_lt (place_lt (place_lt hinst hx) hy) hc

theorem window_spec (hp : p.Fits) {inputPtr : ℕ}
    (hinside : ∀ i < p.poolHeight, ∀ j < p.poolWidth,
      inputPtr + (i * p.inputWidth + j) * p.channels < v.length) :
    p.window v inputPtr = some (∑ i ∈ Finset.range p.poolHeight, ∑ j ∈ Finset.range p.poolWidth,
      v.getD (inputPtr + (i * p.inputWidth + j) * p.channels) 0) := by
  let f : ℕ → ℕ → T := fun i j => v.getD (inputPtr + (i * p.inputWidth + j) * p.channels) 0
  have hrow : ∀ i < p.poolHeight, ∀ sum : T, (List.range p.poolWidth).foldlM (fun (s : T × ℕ) _ => do
      let x ← v[inputPtr + s.2]?
      pure (s.1 + x, s.2 + p.channels)) (sum, i * p.inputWidth * p.channels) =
        some (sum + ∑ j ∈ Finset.range p.poolWidth, f i j,
          i * p.inputWidth * p.channels + p.poolWidth * p.channels) := by
    intro i hi sum
    have hloop := invariant (n := p.poolWidth) (s := (sum, i * p.inputWidth * p.channels))
      (f := fun (s : T × ℕ) _ => do
        let x ← v[inputPtr + s.2]?
        pure (s.1 + x, s.2 + p.channels))
      (P := fun j s => s = (sum + ∑ j ∈ Finset.range j, f i j,
        i * p.inputWidth * p.channels + j * p.channels)) (by simp) ?_
    · obtain ⟨s, hrun, hsum⟩ := hloop
      rw [hrun, hsum]
    rintro j hj s rfl
    have hplace : inputPtr + (i * p.inputWidth * p.channels + j * p.channels) =
        inputPtr + (i * p.inputWidth + j) * p.channels := by ring
    refine ⟨_, ?_, rfl⟩
    rw [hplace, List.getElem?_eq_getElem (hinside i hi j hj), Finset.sum_range_succ, ← add_assoc,
      Nat.succ_mul, ← Nat.add_assoc]
    have hin := hinside i hi j hj
    have hf : f i j = v[inputPtr + (i * p.inputWidth + j) * p.channels] := by
      change v.getD _ 0 = _
      rw [List.getD_eq_getElem?_getD, List.getElem?_eq_getElem hin]
      rfl
    rw [hf]
    rfl
  have hrows := invariant (n := p.poolHeight) (s := ((0 : T), 0))
    (f := fun s _ => do
      let s ← (List.range p.poolWidth).foldlM (fun (s : T × ℕ) _ => do
        let x ← v[inputPtr + s.2]?
        pure (s.1 + x, s.2 + p.channels)) s
      pure (s.1, s.2 + (p.inputWidth - p.poolWidth) * p.channels))
    (P := fun i s => s = (∑ i ∈ Finset.range i, ∑ j ∈ Finset.range p.poolWidth, f i j,
      i * p.inputWidth * p.channels)) (by simp) ?_
  · obtain ⟨s, hrun, hsum⟩ := hrows
    rw [window, hrun, hsum]
    rfl
  rintro i hi s rfl
  have hnext : i * p.inputWidth * p.channels + p.poolWidth * p.channels +
      (p.inputWidth - p.poolWidth) * p.channels = (i + 1) * p.inputWidth * p.channels := by
    have hwidth : p.poolWidth + (p.inputWidth - p.poolWidth) = p.inputWidth := by
      have hle := hp.poolWidth_le
      omega
    calc i * p.inputWidth * p.channels + p.poolWidth * p.channels +
          (p.inputWidth - p.poolWidth) * p.channels
        = (i * p.inputWidth + (p.poolWidth + (p.inputWidth - p.poolWidth))) * p.channels := by ring
      _ = (i + 1) * p.inputWidth * p.channels := by rw [hwidth]; ring
  refine ⟨_, ?_, rfl⟩
  rw [hrow i hi, Finset.sum_range_succ, ← hnext]
  rfl

theorem strideCount_eq {size pool stride : ℕ} (hstride : 0 < stride) :
    strideCount (size + 2 * 0 - pool + 1) stride = (size + 2 * 0 - pool) / stride + 1 :=
  strideCount_succ _ hstride

theorem stride_lt {size pool stride x i : ℕ} (hpool : pool ≤ size)
    (hx : x < (size + 2 * 0 - pool) / stride + 1)
    (hi : i < pool) : x * stride + i < size := by
  have hle : x * stride ≤ size - pool :=
    (Nat.mul_le_mul_right stride (Nat.lt_succ_iff.mp hx)).trans (Nat.div_mul_le_self _ _)
  omega

/-- The sum at a place of the output, of which every window has as many as there are channels. -/
def pooledAt (p : Pooling) (channels : ℕ) (v : List T) (k : ℕ) : T :=
  p.windowSum v (k / channels / p.outputWidth / p.outputHeight)
    (k / channels / p.outputWidth % p.outputHeight) (k / channels % p.outputWidth) (k % channels)

def outputPlace (p : Pooling) (channels inst x y c : ℕ) : ℕ :=
  ((inst * p.outputHeight + x) * p.outputWidth + y) * channels + c

/-- The windows of all instances. -/
def windows (p : Pooling) : ℕ := p.instancesCount * p.outputHeight * p.outputWidth

theorem outputSize_eq : p.outputSize = p.windows * p.channels := by
  rw [outputSize, windows]
  ring

theorem pooledAt_outputPlace {channels : ℕ} (inst : ℕ) {x y c : ℕ} (hx : x < p.outputHeight)
    (hy : y < p.outputWidth) (hc : c < channels) :
    p.pooledAt channels v (p.outputPlace channels inst x y c) = p.windowSum v inst x y c := by
  rw [pooledAt, outputPlace, (row_column hc).1, (row_column hc).2, (row_column hy).1, (row_column hy).2,
    (row_column hx).1, (row_column hx).2]

/-- A place of the output in its instance, row, column and channel. -/
theorem exists_outputPlace {channels k : ℕ} (hk : k < p.windows * channels) :
    ∃ inst x y c, inst < p.instancesCount ∧ x < p.outputHeight ∧ y < p.outputWidth ∧ c < channels ∧
      k = p.outputPlace channels inst x y c := by
  have hchannels : 0 < channels := Nat.pos_of_ne_zero fun hzero => by simp [hzero] at hk
  have hspace : k / channels < p.windows := (Nat.div_lt_iff_lt_mul hchannels).mpr hk
  have hrow : k / channels / p.outputWidth < p.instancesCount * p.outputHeight :=
    (Nat.div_lt_iff_lt_mul (Nat.succ_pos _)).mpr hspace
  refine ⟨k / channels / p.outputWidth / p.outputHeight, k / channels / p.outputWidth % p.outputHeight,
    k / channels % p.outputWidth, k % channels, (Nat.div_lt_iff_lt_mul (Nat.succ_pos _)).mpr hrow,
    Nat.mod_lt _ (Nat.succ_pos _), Nat.mod_lt _ (Nat.succ_pos _), Nat.mod_lt _ hchannels, ?_⟩
  rw [outputPlace, Nat.div_add_mod', Nat.div_add_mod', Nat.div_add_mod']

theorem window_windowSum (hp : p.Fits) (hlen : v.length = p.inputSize) {inst x y c : ℕ}
    (hinst : inst < p.instancesCount) (hx : x < p.outputHeight) (hy : y < p.outputWidth)
    (hc : c < p.channels) :
    p.window v (inst * p.inputHeight * p.inputWidth * p.channels +
      x * p.strideHeight * p.inputWidth * p.channels + y * p.strideWidth * p.channels + c) =
        some (p.windowSum v inst x y c) := by
  have hplace : ∀ i j, inst * p.inputHeight * p.inputWidth * p.channels +
      x * p.strideHeight * p.inputWidth * p.channels + y * p.strideWidth * p.channels + c +
      (i * p.inputWidth + j) * p.channels =
        p.inputPlace inst (x * p.strideHeight + i) (y * p.strideWidth + j) c := by
    intro i j
    rw [inputPlace]
    ring
  rw [outputHeight, hp.paddingHeight_eq] at hx
  rw [outputWidth, hp.paddingWidth_eq] at hy
  rw [window_spec hp]
  · simp only [hplace, windowSum]
  · intro i hi j hj
    rw [hplace, hlen]
    exact inputPlace_lt hinst (stride_lt hp.poolHeight_le hx hi) (stride_lt hp.poolWidth_le hy hj) hc

/-- The windows follow each other in the output, with as many channels as an `int` counts. -/
theorem sumPooling_spec (hp : p.Fits) (hlen : v.length = p.inputSize) :
    p.sumPooling v = some ((List.range (p.windows * intSteps p.channels)).map
        (p.pooledAt (intSteps p.channels) v) ++
      List.replicate (p.outputSize - p.windows * intSteps p.channels) 0) := by
  have hsteps : intSteps p.channels ≤ p.channels := Nat.min_le_left _ _
  have hle : p.windows * intSteps p.channels ≤ (List.replicate p.outputSize (0 : T)).length := by
    rw [List.length_replicate, outputSize_eq]
    exact Nat.mul_le_mul_left _ hsteps
  have hheight : strideCount (p.inputHeight + 2 * p.paddingHeight - p.poolHeight + 1) p.strideHeight =
      p.outputHeight := by
    rw [outputHeight, hp.paddingHeight_eq, strideCount_eq hp.strideHeight_pos]
  have hwidth : strideCount (p.inputWidth + 2 * p.paddingWidth - p.poolWidth + 1) p.strideWidth =
      p.outputWidth := by
    rw [outputWidth, hp.paddingWidth_eq, strideCount_eq hp.strideWidth_pos]
  have hloops : (List.range p.instancesCount).foldlM (fun s inst =>
      (List.range p.outputHeight).foldlM (fun s x =>
        (List.range p.outputWidth).foldlM (fun s y =>
          (List.range (intSteps p.channels)).foldlM
            (p.poolChannel v inst (x * p.strideHeight) (y * p.strideWidth)) s) s) s)
              (List.replicate p.outputSize (0 : T), 0) =
      (List.range (p.windows * intSteps p.channels)).foldlM
        (push fun k => some (p.pooledAt (intSteps p.channels) v k)) (List.replicate p.outputSize 0, 0) := by
    rw [windows, ← product, ← product, ← product]
    refine congr (fun inst hinst s => congr (fun x hx s => congr (fun y hy s =>
      congr (fun c hc s => ?_) s) s) s) _
    rw [poolChannel, window_windowSum hp hlen hinst hx hy (hc.trans_le hsteps),
      ← pooledAt_outputPlace inst hx hy hc]
    rfl
  have hguard : guard (p.paddingHeight = 0 ∧ p.paddingWidth = 0) = (some () : Option Unit) :=
    if_pos ⟨hp.paddingHeight_eq, hp.paddingWidth_eq⟩
  rw [push_front hle fun _ _ => rfl, List.drop_replicate] at hloops
  rw [sumPooling]
  simp only [hguard, hheight, hwidth, hloops]
  rfl

theorem sumPooling_of_le (hp : p.Fits) (hlen : v.length = p.inputSize)
    (hint : p.channels ≤ intEntries ∨ p.instancesCount = 0) :
    p.sumPooling v = some ((List.range p.outputSize).map (p.pooledAt p.channels v)) := by
  rw [sumPooling_spec hp hlen]
  rcases hint with hle | hnone
  · rw [intSteps_eq hle, ← outputSize_eq, Nat.sub_self, List.replicate_zero, List.append_nil]
  · have hwindows : p.windows = 0 := by rw [windows, hnone, Nat.zero_mul, Nat.zero_mul]
    rw [outputSize_eq, hwindows, Nat.zero_mul, Nat.zero_mul]
    rfl

/-- Windows without an element add up to zero. -/
theorem pooledAt_of_empty (hempty : p.poolHeight = 0 ∨ p.poolWidth = 0) (channels : ℕ) (v : List T) :
    p.pooledAt channels v = fun _ => 0 := by
  ext k
  rw [pooledAt, windowSum]
  rcases hempty with hheight | hwidth
  · rw [hheight, Finset.sum_range_zero]
  · rw [hwidth]
    exact Finset.sum_eq_zero fun _ _ => Finset.sum_range_zero _

theorem sumPooling_of_empty (hp : p.Fits) (hlen : v.length = p.inputSize)
    (hempty : p.poolHeight = 0 ∨ p.poolWidth = 0) :
    p.sumPooling v = some ((List.range p.outputSize).map (p.pooledAt p.channels v)) := by
  have hle : p.windows * intSteps p.channels ≤ p.outputSize := by
    rw [outputSize_eq]
    exact Nat.mul_le_mul_left _ (Nat.min_le_left _ _)
  rw [sumPooling_spec hp hlen, pooledAt_of_empty hempty, pooledAt_of_empty hempty, List.map_const',
    List.map_const', List.length_range, List.length_range, List.replicate_append_replicate,
    Nat.add_sub_cancel' hle]

/-- Channels as instances. -/
def separated (p : Pooling) : Pooling :=
  { p with instancesCount := p.instancesCount * p.channels, channels := 1 }

/-- A channel on its own has the windows it has among the others. -/
theorem windowSum_separated (hp : p.Fits) {inst x y c : ℕ} (hinst : inst < p.instancesCount)
    (hx : x < p.outputHeight) (hy : y < p.outputWidth) (hc : c < p.channels) :
    p.separated.windowSum ((List.range (p.channels * (p.instancesCount * p.inputHeight * p.inputWidth))).map
      fun k => v.getD (channelPlace p.channels (p.instancesCount * p.inputHeight * p.inputWidth) k) 0)
        (c * p.instancesCount + inst) x y 0 = p.windowSum v inst x y c := by
  rw [outputHeight, hp.paddingHeight_eq] at hx
  rw [outputWidth, hp.paddingWidth_eq] at hy
  refine Finset.sum_congr rfl fun i hi => Finset.sum_congr rfl fun j hj => ?_
  have hrow := stride_lt hp.poolHeight_le hx (Finset.mem_range.mp hi)
  have hcolumn := stride_lt hp.poolWidth_le hy (Finset.mem_range.mp hj)
  have hspace : (inst * p.inputHeight + (x * p.strideHeight + i)) * p.inputWidth +
      (y * p.strideWidth + j) < p.instancesCount * p.inputHeight * p.inputWidth :=
    place_lt (place_lt hinst hrow) hcolumn
  have hplace : p.separated.inputPlace (c * p.instancesCount + inst) (x * p.strideHeight + i)
      (y * p.strideWidth + j) 0 = c * (p.instancesCount * p.inputHeight * p.inputWidth) +
        ((inst * p.inputHeight + (x * p.strideHeight + i)) * p.inputWidth + (y * p.strideWidth + j)) := by
    rw [inputPlace, separated]
    ring
  obtain ⟨hquot, hrem⟩ := row_column (i := c) hspace
  change List.getD _ (p.separated.inputPlace _ (x * p.strideHeight + i) (y * p.strideWidth + j) 0) 0 = _
  rw [hplace, getD_map_range _ (place_lt hc hspace), channelPlace, hquot, hrem, inputPlace]

theorem separatedPooling_spec (hp : p.Fits) (hlen : v.length = p.inputSize) :
    p.separatedPooling v = some ((List.range p.outputSize).map (p.pooledAt p.channels v)) := by
  have hfits : p.separated.Fits :=
    ⟨Nat.one_pos, hp.poolHeight_le, hp.poolWidth_le, hp.strideHeight_pos, hp.strideWidth_pos,
      hp.paddingHeight_eq, hp.paddingWidth_eq⟩
  have hin : v.length = p.channels * (p.instancesCount * p.inputHeight * p.inputWidth) := by
    rw [hlen, inputSize, Nat.mul_comm]
  have hone : p.separated.channels ≤ intEntries := intEntries_pos
  have hsize : p.separated.outputSize
    = p.channels * (p.instancesCount * p.outputHeight * p.outputWidth) := by
    change p.instancesCount * p.channels * 1 * p.outputHeight * p.outputWidth = _
    ring
  have htotal : p.outputSize = p.channels * (p.instancesCount * p.outputHeight * p.outputWidth) := by
    rw [outputSize]
    ring
  have hpooled := sumPooling_of_le (v := (List.range (p.channels *
    (p.instancesCount * p.inputHeight * p.inputWidth))).map fun k =>
      v.getD (channelPlace p.channels (p.instancesCount * p.inputHeight * p.inputWidth) k) 0) hfits (by
    rw [List.length_map, List.length_range]
    change _ = p.instancesCount * p.channels * p.inputHeight * p.inputWidth * 1
    ring) (Or.inl hone)
  rw [separatedPooling, separateChannels_spec hp.channels_pos hin]
  change ((p.separated.sumPooling _).bind fun pooled => matrixInterleaveChannels pooled p.channels) = _
  rw [hpooled, Option.bind_some, interleaveChannels_spec hp.channels_pos (by
    rw [List.length_map, List.length_range, hsize]), ← htotal]
  refine congrArg some (List.map_congr_left fun k hk => ?_)
  have hk := List.mem_range.mp hk
  rw [outputSize_eq] at hk
  obtain ⟨inst, x, y, c, hinst, hx, hy, hc, rfl⟩ := exists_outputPlace hk
  have hspace : (inst * p.outputHeight + x) * p.outputWidth + y <
      p.instancesCount * p.outputHeight * p.outputWidth := place_lt (place_lt hinst hx) hy
  have hplace : channelPlace (p.instancesCount * p.outputHeight * p.outputWidth) p.channels
      (p.outputPlace p.channels inst x y c) =
        p.separated.outputPlace 1 (c * p.instancesCount + inst) x y 0 := by
    rw [channelPlace, outputPlace, (row_column hc).1, (row_column hc).2]
    change _ = (((c * p.instancesCount + inst) * p.outputHeight + x) * p.outputWidth + y) * 1 + 0
    ring
  have hlt : channelPlace (p.instancesCount * p.outputHeight * p.outputWidth) p.channels
      (p.outputPlace p.channels inst x y c) < p.separated.outputSize := by
    rw [hsize]
    exact channelPlace_lt hk
  rw [getD_map_range _ hlt, hplace, pooledAt_outputPlace _ hx hy hc]
  exact (pooledAt_outputPlace (p := p.separated) _ hx hy Nat.one_pos).trans
    (windowSum_separated hp hinst hx hy hc)

/-- Both ways of pooling give the same vector. -/
def Agrees (T : Type) [AddCommMonoid T] (p : Pooling) : Prop :=
  ∀ v : List T, v.length = p.inputSize → ∃ u, p.sumPooling v = some u ∧ p.separatedPooling v = some u

theorem outputSize_pred (hp : p.Fits) (hinst : 0 < p.instancesCount) :
    p.outputSize - 1 = p.outputPlace p.channels (p.instancesCount - 1) (p.outputHeight - 1)
      (p.outputWidth - 1) (p.channels - 1) := by
  have hpred : ∀ {m n : ℕ}, 0 < m → 0 < n → (m - 1) * n + (n - 1) = m * n - 1 := by
    intro m n hm hn
    have hmul : (m - 1 + 1) * n = m * n := by rw [Nat.sub_add_cancel hm]
    rw [Nat.succ_mul] at hmul
    omega
  have houtHeight : 0 < p.outputHeight := Nat.succ_pos _
  have houtWidth : 0 < p.outputWidth := Nat.succ_pos _
  have hrows := Nat.mul_pos hinst houtHeight
  rw [outputPlace, hpred hinst houtHeight, hpred hrows houtWidth,
    hpred (Nat.mul_pos hrows houtWidth) hp.channels_pos, outputSize_eq, windows]

/-- A window can have any sum: that of an input whose only element is the first one of the window. -/
theorem exists_windowSum (hp : p.Fits) {inst x y c : ℕ} (hinst : inst < p.instancesCount)
    (hx : x < p.outputHeight) (hy : y < p.outputWidth) (hc : c < p.channels) (hheight : 0 < p.poolHeight)
    (hwidth : 0 < p.poolWidth) (t : T) :
    ∃ v : List T, v.length = p.inputSize ∧ p.windowSum v inst x y c = t := by
  rw [outputHeight, hp.paddingHeight_eq] at hx
  rw [outputWidth, hp.paddingWidth_eq] at hy
  have hvalue : ∀ i < p.poolHeight, ∀ j < p.poolWidth,
      ((List.range p.inputSize).map fun k =>
        if k = p.inputPlace inst (x * p.strideHeight + 0) (y * p.strideWidth + 0) c then t else 0).getD
          (p.inputPlace inst (x * p.strideHeight + i) (y * p.strideWidth + j) c) 0 =
        if i = 0 ∧ j = 0 then t else 0 := by
    intro i hi j hj
    have hrow := stride_lt hp.poolHeight_le hx hi
    have hcolumn := stride_lt hp.poolWidth_le hy hj
    have hcolumn₀ := stride_lt hp.poolWidth_le hy hwidth
    rw [getD_map_range _ (inputPlace_lt hinst hrow hcolumn hc)]
    refine if_congr ⟨fun heq => ?_, ?_⟩ rfl rfl
    · have hspace := congrArg (· / p.channels) heq
      simp only [inputPlace, (row_column hc).1] at hspace
      have hcolumns := congrArg (· % p.inputWidth) hspace
      have hrows := congrArg (· / p.inputWidth) hspace
      simp only [(row_column hcolumn).1, (row_column hcolumn).2, (row_column hcolumn₀).1,
        (row_column hcolumn₀).2] at hcolumns hrows
      omega
    · rintro ⟨rfl, rfl⟩
      rfl
  refine ⟨(List.range p.inputSize).map fun k =>
    if k = p.inputPlace inst (x * p.strideHeight + 0) (y * p.strideWidth + 0) c then t else 0,
      (List.length_map _).trans List.length_range, ?_⟩
  rw [windowSum, Finset.sum_eq_single_of_mem 0 (Finset.mem_range.mpr hheight),
    Finset.sum_eq_single_of_mem 0 (Finset.mem_range.mpr hwidth), hvalue 0 hheight 0 hwidth]
  · exact if_pos ⟨rfl, rfl⟩
  · intro j hj hne
    rw [hvalue 0 hheight j (Finset.mem_range.mp hj), if_neg fun h => hne h.2]
  · intro i hi hne
    refine Finset.sum_eq_zero fun j hj => ?_
    rw [hvalue i (Finset.mem_range.mp hi) j (Finset.mem_range.mp hj), if_neg fun h => hne h.1]

/-- The last channel of the last window can be any value. -/
theorem pooledAt_last (hp : p.Fits) (hinst : 0 < p.instancesCount) (hheight : 0 < p.poolHeight)
    (hwidth : 0 < p.poolWidth) (t : T) :
    ∃ v : List T, v.length = p.inputSize ∧ p.pooledAt p.channels v (p.outputSize - 1) = t := by
  have hx : p.outputHeight - 1 < p.outputHeight := Nat.lt_succ_self _
  have hy : p.outputWidth - 1 < p.outputWidth := Nat.lt_succ_self _
  have hc : p.channels - 1 < p.channels := Nat.sub_lt hp.channels_pos Nat.one_pos
  have hi : p.instancesCount - 1 < p.instancesCount := Nat.sub_lt hinst Nat.one_pos
  obtain ⟨v, hlen, hsum⟩ := exists_windowSum hp hi hx hy hc hheight hwidth t
  refine ⟨v, hlen, ?_⟩
  rw [outputSize_pred hp hinst, pooledAt_outputPlace _ hx hy hc, hsum]

theorem agrees_iff [Nontrivial T] (hp : p.Fits) : Agrees T p ↔
    p.channels ≤ intEntries ∨ p.instancesCount = 0 ∨ p.poolHeight = 0 ∨ p.poolWidth = 0 := by
  constructor
  · intro hagrees
    by_contra hnot
    simp only [not_or, not_le] at hnot
    obtain ⟨hlarge, hinst, hheight, hwidth⟩ := hnot
    have hinst := Nat.pos_of_ne_zero hinst
    obtain ⟨t, ht⟩ := exists_ne (0 : T)
    obtain ⟨v, hlen, hlast⟩ :=
      pooledAt_last hp hinst (Nat.pos_of_ne_zero hheight) (Nat.pos_of_ne_zero hwidth) t
    obtain ⟨u, hpool, hseparated⟩ := hagrees v hlen
    have hwindows : 0 < p.windows :=
      Nat.mul_pos (Nat.mul_pos hinst (Nat.succ_pos _)) (Nat.succ_pos _)
    have hless : p.windows * intSteps p.channels < p.outputSize := by
      rw [outputSize_eq, intSteps_of_ge hlarge.le]
      exact Nat.mul_lt_mul_of_pos_left hlarge hwindows
    rw [separatedPooling_spec hp hlen] at hseparated
    rw [sumPooling_spec hp hlen] at hpool
    have hequal := congrArg (fun u : List T => u[p.outputSize - 1]?)
      (Option.some.inj (hseparated.trans hpool.symm))
    have hend : ((List.range (p.windows * intSteps p.channels)).map
        (p.pooledAt (intSteps p.channels) v)).length ≤ p.outputSize - 1 := by
      rw [List.length_map, List.length_range]
      omega
    simp only [List.getElem?_map, List.getElem?_append_right hend] at hequal
    rw [List.getElem?_range (by omega), Option.map_some, hlast,
      List.getElem?_replicate_of_lt (by rw [List.length_map, List.length_range]; omega)] at hequal
    exact ht (Option.some.inj hequal)
  · rintro (hint | hnone | hempty) v hlen
    · exact ⟨_, sumPooling_of_le hp hlen (Or.inl hint), separatedPooling_spec hp hlen⟩
    · exact ⟨_, sumPooling_of_le hp hlen (Or.inr hnone), separatedPooling_spec hp hlen⟩
    · exact ⟨_, sumPooling_of_empty hp hlen hempty, separatedPooling_spec hp hlen⟩

end Windows

end Pooling

section Inverse

variable [AddCommMonoid T]

/-- Separating and interleaving undo each other. -/
def ChannelsInverse (v : List T) (channels : ℕ) : Prop :=
  (∃ separated, matrixSeparateChannels v channels = some separated ∧
    matrixInterleaveChannels separated channels = some v) ∧
  ∃ interleaved, matrixInterleaveChannels v channels = some interleaved ∧
    matrixSeparateChannels interleaved channels = some v

/-- Reading rows as columns twice. -/
theorem map_channelPlace {v : List T} {m n : ℕ} (hlen : v.length = m * n) :
    ((List.range (m * n)).map fun k =>
      ((List.range (m * n)).map fun k => v.getD (channelPlace m n k) 0).getD (channelPlace n m k) 0) = v := by
  refine List.ext_getElem? fun k => ?_
  rw [List.getElem?_map]
  rcases Nat.lt_or_ge k (m * n) with hk | hk
  · have hk' : k < n * m := by
      rw [Nat.mul_comm]
      exact hk
    rw [List.getElem?_range hk, Option.map_some, getD_map_range _ (channelPlace_lt hk'),
      channelPlace_channelPlace hk', List.getD_eq_getElem?_getD, List.getElem?_eq_getElem (by omega)]
    rfl
  · rw [List.getElem?_eq_none (by rw [List.length_range]; exact hk), List.getElem?_eq_none (by omega)]
    rfl

theorem channelsInverse {v : List T} {channels : ℕ} (hpos : 0 < channels) (hdvd : channels ∣ v.length) :
    ChannelsInverse v channels := by
  obtain ⟨count, hlen⟩ := hdvd
  refine ⟨⟨_, separateChannels_spec hpos hlen, ?_⟩, _, interleaveChannels_spec hpos hlen, ?_⟩
  · rw [interleaveChannels_spec hpos (by rw [List.length_map, List.length_range]), map_channelPlace hlen]
  · rw [separateChannels_spec hpos (by rw [List.length_map, List.length_range]), Nat.mul_comm channels,
      map_channelPlace (by rw [hlen, Nat.mul_comm])]

end Inverse

end CryptDough
