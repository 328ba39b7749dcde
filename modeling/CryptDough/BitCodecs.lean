import CryptDough.MappedVector
import CryptDough.ShareVector

/-! The codecs that append chosen bits of all elements to one another, in elements of the same width,
and put them back. -/

namespace CryptDough

namespace BitCodecs

variable {w : ℕ}

/-- `math::div_ceil`, which wraps around at the last `w` sizes: the counter of the first bit of a word
does so as well, and its loop does not end. -/
def words (w total : ℕ) : Option ℕ := if total + w ≤ 2 ^ 64 then some ((total + w - 1) / w) else none

/-- `setBitValue` or `setBit` of the element `e`. -/
def setBit (v : List (BitVec w)) (e : ℕ) (bit : BitVec w) (b : ℕ) : Option (List (BitVec w)) := do
  let x ← v[e]?
  pure (v.set e (Vec.setBitValue x bit b))

/-- The bits at `position` of the elements from `j` on. -/
def packWord (source : List (BitVec w)) (position total j : ℕ) : Option (BitVec w) :=
  (List.range (min w (total - j))).foldlM (fun r p => do
    let x ← source[j + p]?
    pure (r ||| Vec.getBit x position <<< p)) 0

def packFrom (this source : List (BitVec w)) (position : ℕ) : Option (List (BitVec w)) := do
  let total := min (sizeMul this.length w) source.length
  let count ← words w total
  (List.range count).foldlM (fun v i => do
    let r ← packWord source position total (i * w)
    if i < v.length then some (v.set i r) else none) this

def unpackFrom (this source : List (BitVec w)) (position : ℕ) : Option (List (BitVec w)) := do
  let total := this.length
  let count ← words w total
  (List.range count).foldlM (fun v i => do
    let r ← source[i]?
    (List.range (min w (total - i * w))).foldlM
      (fun v p => setBit v (i * w + p) (Vec.getBit r p) position) v) this

end BitCodecs

/-- The parameters of a pattern of bits at equal distances. -/
structure SimpleBits where
  start : ℤ
  step : ℤ
  stop : ℤ
  repetition : ℤ

namespace SimpleBits

open BitCodecs

variable {w : ℕ} (b : SimpleBits)

/-- The `int` number of bits, which may have wrapped around, as a `size_t`. -/
def intBits : ℕ :=
  castSize (castInt |castInt ((castInt (castInt (b.stop - b.start) + 1)).tdiv b.step * b.repetition)|)

def bitsPerElement : Option ℕ := if b.step = 0 then none else some b.intBits

/-- The position of bit `i` of an element's bits. -/
def position (i : ℕ) : ℕ :=
  sizeAdd (castSize b.start) (sizeMul (i / castSize b.repetition) (castSize b.step))

def bitCompress (v : List (BitVec w)) : Option (List (BitVec w)) := do
  let bits ← b.bitsPerElement
  let total := sizeMul bits v.length
  let count ← words w total
  (List.range count).foldlM (fun res i =>
    (List.range (min w (total - i * w))).foldlM (fun res p => do
      let x ← v[(i * w + p) / bits]?
      setBit res i (Vec.getBit x (b.position ((i * w + p) % bits))) p) res)
    (List.replicate count 0)

def bitDecompress (this other : List (BitVec w)) : Option (List (BitVec w)) := do
  let bits ← b.bitsPerElement
  let total := sizeMul bits this.length
  let count ← words w total
  (List.range count).foldlM (fun v i => do
    let r ← other[i]?
    (List.range (min w (total - i * w))).foldlM (fun v p =>
      setBit v ((i * w + p) / bits) (Vec.getBit r p) (b.position ((i * w + p) % bits))) v) this

end SimpleBits

/-- The parameters of an alternating pattern of bits. -/
structure AlternatingBits where
  start : ℕ
  step : ℕ
  includedSize : ℕ
  excludedSize : ℕ
  direction : ℤ

namespace AlternatingBits

open BitCodecs

variable {w : ℕ} (b : AlternatingBits)

def chunkSize : ℕ := sizeAdd b.includedSize b.excludedSize

def bitsPerChunk : ℕ := b.includedSize / b.step

def bitsPerElement (w : ℕ) : ℕ := sizeSub w b.start / b.chunkSize * b.bitsPerChunk

def lastChunkBitsPerElement (w : ℕ) : ℕ := min b.includedSize (sizeSub w b.start % b.chunkSize) / b.step

def totalBitsPerElement (w : ℕ) : ℕ := b.bitsPerElement w + b.lastChunkBitsPerElement w

/-- Converted to an `int`. -/
def directionOffset : ℤ := if b.direction = -1 then castInt (b.includedSize - 1) else 0

/-- The position of bit `i` of an element's bits. -/
def position (i : ℕ) : ℕ :=
  castSize (b.start + b.directionOffset + (i / b.bitsPerChunk : ℕ) * b.chunkSize +
    (i % b.bitsPerChunk : ℕ) * b.step * b.direction)

def bitCompress (v : List (BitVec w)) : Option (List (BitVec w)) := do
  guard (b.step ≠ 0 ∧ b.chunkSize ≠ 0)
  let total := sizeMul (b.totalBitsPerElement w) v.length
  let count ← words w total
  (List.range total).foldlM (fun res i => do
    let x ← v[i / b.totalBitsPerElement w]?
    setBit res (i / w) (Vec.getBit x (b.position (i % b.totalBitsPerElement w))) (i % w))
    (List.replicate count 0)

/-- The source declares this function `const` and passes elements of a `const` vector to `setBit`,
which does not compile: there is no call that returns. -/
def bitDecompress (_b : AlternatingBits) (_this _other : List (BitVec w)) : Option (List (BitVec w)) := none

end AlternatingBits

namespace BitCodecs

variable {w : ℕ}

/-- The bit `b` of the element `e`. -/
def bitAt (v : List (BitVec w)) (e b : ℕ) : Bool := (v[e]?.getD 0).getLsbD b

theorem setBit_kept {v v' : List (BitVec w)} {e b c e' b' : ℕ} {x : BitVec w}
    (hset : setBit v e (Vec.getBit x c) b = some v') (hne : e' ≠ e ∨ b' ≠ b) :
    bitAt v' e' b' = bitAt v e' b' := by
  obtain ⟨y, hget, hset⟩ := Option.bind_eq_some_iff.mp hset
  obtain rfl := Option.some.inj hset
  by_cases heq : e' = e
  · subst heq
    have hb : b' ≠ b := hne.resolve_left fun hnot => hnot rfl
    have he : e' < v.length := (List.getElem?_eq_some_iff.mp hget).1
    rw [bitAt, bitAt, List.getElem?_set_self he, hget, Option.getD_some, Option.getD_some,
      Vec.getLsbD_setBitValue, if_neg hb]
  · rw [bitAt, bitAt, List.getElem?_set_ne (Ne.symm heq)]

theorem setBit_spec {v : List (BitVec w)} {e : ℕ} (he : e < v.length) (x : BitVec w) (c : ℕ) {b : ℕ}
    (hb : b < w) :
    ∃ v', setBit v e (Vec.getBit x c) b = some v' ∧ v'.length = v.length ∧
      bitAt v' e b = x.getLsbD c ∧ ∀ e' b', (e' ≠ e ∨ b' ≠ b) → bitAt v' e' b' = bitAt v e' b' := by
  have hget : v[e]? = some v[e] := List.getElem?_eq_getElem he
  have hrun : setBit v e (Vec.getBit x c) b = some (v.set e (Vec.setBitValue v[e] (Vec.getBit x c) b)) := by
    rw [setBit, hget]
    rfl
  refine ⟨_, hrun, List.length_set, ?_, fun e' b' hne => setBit_kept hrun hne⟩
  rw [bitAt, List.getElem?_set_self he, Option.getD_some, Vec.getLsbD_setBitValue, if_pos rfl]
  simp [hb]

section Positions

/-- Bit `k` of the words is the bit of `v` at the position `pos k`. -/
def gatherStep (v : List (BitVec w)) (pos : ℕ → ℕ × ℕ) (res : List (BitVec w)) (k : ℕ) :
    Option (List (BitVec w)) := do
  let x ← v[(pos k).1]?
  setBit res (k / w) (Vec.getBit x (pos k).2) (k % w)

def scatterStep (other : List (BitVec w)) (pos : ℕ → ℕ × ℕ) (v : List (BitVec w)) (k : ℕ) :
    Option (List (BitVec w)) := do
  let x ← other[k / w]?
  setBit v (pos k).1 (Vec.getBit x (k % w)) (pos k).2

theorem gather_spec (v res : List (BitVec w)) (pos : ℕ → ℕ × ℕ) (total : ℕ) (hw : 0 < w)
    (hroom : total ≤ res.length * w) (hinside : ∀ k < total, (pos k).1 < v.length) :
    ∃ packed, (List.range total).foldlM (gatherStep v pos) res = some packed ∧
      packed.length = res.length ∧
      ∀ k < total, bitAt packed (k / w) (k % w) = bitAt v (pos k).1 (pos k).2 := by
  refine OptionLoop.invariant (P := fun n (packed : List (BitVec w)) => packed.length = res.length ∧
    ∀ k < n, bitAt packed (k / w) (k % w) = bitAt v (pos k).1 (pos k).2)
    ⟨rfl, fun k hk => absurd hk (Nat.not_lt_zero k)⟩ ?_
  rintro n hn packed ⟨hlen, hbits⟩
  obtain ⟨x, hget⟩ : ∃ x, v[(pos n).1]? = some x := ⟨_, List.getElem?_eq_getElem (hinside n hn)⟩
  have hword : n / w < packed.length := by
    rw [hlen]
    exact Nat.div_lt_of_lt_mul (by rw [Nat.mul_comm]; omega)
  obtain ⟨packed', hset, hlen', hnew, hold⟩ :=
    setBit_spec hword x (pos n).2 (Nat.mod_lt n hw)
  refine ⟨packed', ?_, hlen'.trans hlen, fun k hk => ?_⟩
  · rw [gatherStep, hget]
    exact hset
  · rcases Nat.lt_succ_iff_lt_or_eq.mp hk with hlt | rfl
    · rw [hold _ _ ?_, hbits k hlt]
      by_contra hsame
      obtain ⟨hdiv, hmod⟩ := not_or.mp hsame
      have hk' := Nat.div_add_mod k w
      have hn' := Nat.div_add_mod n w
      rw [not_not.mp hdiv, not_not.mp hmod] at hk'
      omega
    · rw [hnew, bitAt, hget]
      rfl

theorem scatter_spec (v dst other : List (BitVec w)) (pos : ℕ → ℕ × ℕ) (total : ℕ)
    (hlength : dst.length = v.length) (hother : total ≤ other.length * w)
    (hinside : ∀ k < total, (pos k).1 < v.length ∧ (pos k).2 < w)
    (hbits : ∀ k < total, bitAt other (k / w) (k % w) = bitAt v (pos k).1 (pos k).2) :
    ∃ out, (List.range total).foldlM (scatterStep other pos) dst = some out ∧ out.length = v.length ∧
      ∀ e b, ((∃ k < total, pos k = (e, b)) → bitAt out e b = bitAt v e b) ∧
        ((∀ k < total, pos k ≠ (e, b)) → bitAt out e b = bitAt dst e b) := by
  refine OptionLoop.invariant (P := fun n (out : List (BitVec w)) => out.length = v.length ∧
    ∀ e b, ((∃ k < n, pos k = (e, b)) → bitAt out e b = bitAt v e b) ∧
      ((∀ k < n, pos k ≠ (e, b)) → bitAt out e b = bitAt dst e b))
    ⟨hlength, fun e b => ⟨?_, fun _ => rfl⟩⟩ ?_
  · rintro ⟨k, hk, -⟩
    exact absurd hk (Nat.not_lt_zero k)
  rintro n hn out ⟨hlen, hout⟩
  obtain ⟨helement, hposition⟩ := hinside n hn
  have hword : n / w < other.length := Nat.div_lt_of_lt_mul (by rw [Nat.mul_comm]; omega)
  have hget : other[n / w]? = some other[n / w] := List.getElem?_eq_getElem hword
  obtain ⟨out', hset, hlen', hnew, hold⟩ :=
    setBit_spec (by omega : (pos n).1 < out.length) other[n / w] (n % w) hposition
  have hvalue : bitAt out' (pos n).1 (pos n).2 = bitAt v (pos n).1 (pos n).2 := by
    rw [hnew, ← hbits n hn, bitAt, hget]
    rfl
  refine ⟨out', ?_, hlen'.trans hlen, fun e b => ⟨?_, fun hnone => ?_⟩⟩
  · rw [scatterStep, hget]
    exact hset
  · rintro ⟨k, hk, hpos⟩
    by_cases hlast : pos n = (e, b)
    · rw [hlast] at hvalue
      exact hvalue
    · have hlt : k < n := lt_of_le_of_ne (Nat.lt_succ_iff.mp hk) fun heq => hlast (heq ▸ hpos)
      rw [hold e b ?_]
      · exact (hout e b).1 ⟨k, hlt, hpos⟩
      · by_contra hsame
        obtain ⟨he, hb⟩ := not_or.mp hsame
        exact hlast (Prod.ext (not_not.mp he).symm (not_not.mp hb).symm)
  · rw [hold e b ?_]
    · exact (hout e b).2 fun k hk => hnone k (Nat.lt_succ_of_lt hk)
    · by_contra hsame
      obtain ⟨he, hb⟩ := not_or.mp hsame
      exact hnone n (Nat.lt_succ_self n) (Prod.ext (not_not.mp he).symm (not_not.mp hb).symm)

/-- The selected bits of all elements are those of `v`, the other ones those of `dst`. -/
structure Restores (v dst out : List (BitVec w)) (selected : ℕ → Prop) : Prop where
  length : out.length = dst.length
  restored : ∀ e < v.length, ∀ b, selected b → bitAt out e b = bitAt v e b
  kept : ∀ e b, ¬ selected b → bitAt out e b = bitAt dst e b

/-- The same positions of one element after the other. -/
def elementPositions (bits : ℕ) (f : ℕ → ℕ) (k : ℕ) : ℕ × ℕ := (k / bits, f (k % bits))

theorem restores_of_positions {v dst : List (BitVec w)} {bits count : ℕ} {f : ℕ → ℕ}
    (hw : 0 < w) (hlength : dst.length = v.length)
    (hf : ∀ i < bits, f i < w) (hroom : bits * v.length ≤ count * w) :
    ∃ packed out, (List.range (bits * v.length)).foldlM (gatherStep v (elementPositions bits f))
        (List.replicate count 0) = some packed ∧ packed.length = count ∧
      (List.range (bits * v.length)).foldlM (scatterStep packed (elementPositions bits f)) dst = some out ∧
      Restores v dst out fun b => ∃ i < bits, f i = b := by
  have helement : ∀ k < bits * v.length, k / bits < v.length := fun k hk => Nat.div_lt_of_lt_mul hk
  have hbit : ∀ k < bits * v.length, k % bits < bits := fun k hk =>
    Nat.mod_lt k (Nat.pos_of_ne_zero fun hzero => by simp [hzero] at hk)
  obtain ⟨packed, hgather, hcount, hbits⟩ := gather_spec v (List.replicate count 0)
    (elementPositions bits f) _ hw (by rw [List.length_replicate]; exact hroom) helement
  rw [List.length_replicate] at hcount
  obtain ⟨out, hscatter, hlen, hout⟩ := scatter_spec v dst packed _ _ hlength
    (by rw [hcount]; exact hroom) (fun k hk => ⟨helement k hk, hf _ (hbit k hk)⟩) hbits
  refine ⟨packed, out, hgather, hcount, hscatter, hlen.trans hlength.symm, fun e he b hb => ?_,
    fun e b hb => (hout e b).2 fun k hk hpos => ?_⟩
  · obtain ⟨i, hi, rfl⟩ := hb
    have hk : i + bits * e < bits * v.length := by
      have hle : bits * (e + 1) ≤ bits * v.length := Nat.mul_le_mul_left bits he
      rw [Nat.mul_succ] at hle
      omega
    have hdiv : (i + bits * e) / bits = e := by
      rw [Nat.add_mul_div_left _ _ (by omega), Nat.div_eq_of_lt hi, Nat.zero_add]
    have hmod : (i + bits * e) % bits = i := by
      rw [Nat.add_mul_mod_self_left, Nat.mod_eq_of_lt hi]
    refine (hout e (f i)).1 ⟨i + bits * e, hk, ?_⟩
    rw [elementPositions, hdiv, hmod]
  · exact hb ⟨k % bits, hbit k hk, congrArg Prod.snd hpos⟩

/-- A bit that no step writes to is kept. -/
theorem scatter_kept {dst other out : List (BitVec w)} {pos : ℕ → ℕ × ℕ} {total : ℕ}
    (hrun : (List.range total).foldlM (scatterStep other pos) dst = some out) {e b : ℕ}
    (hnone : ∀ k < total, pos k ≠ (e, b)) : bitAt out e b = bitAt dst e b := by
  induction total generalizing out with
  | zero =>
      obtain rfl := Option.some.inj hrun
      rfl
  | succ total ih =>
      rw [OptionLoop.foldlM_range_succ] at hrun
      obtain ⟨v, hbefore, hlast⟩ := Option.bind_eq_some_iff.mp hrun
      obtain ⟨x, -, hset⟩ := Option.bind_eq_some_iff.mp hlast
      rw [setBit_kept hset, ih hbefore fun k hk => hnone k (Nat.lt_succ_of_lt hk)]
      by_contra hsame
      obtain ⟨he, hb⟩ := not_or.mp hsame
      exact hnone total (Nat.lt_succ_self total) (Prod.ext (not_not.mp he).symm (not_not.mp hb).symm)

end Positions

section Words

theorem words_eq_some {total : ℕ} (hfits : total + w ≤ 2 ^ 64) :
    words w total = some ((total + w - 1) / w) := if_pos hfits

theorem words_eq_none {total : ℕ} (hlarge : ¬ total + w ≤ 2 ^ 64) : words w total = none := if_neg hlarge

theorem le_words_mul (hw : 0 < w) {total count : ℕ} (hcount : words w total = some count) :
    total ≤ count * w := by
  unfold words at hcount
  split at hcount
  · obtain rfl := Option.some.inj hcount
    have hdiv := Nat.div_add_mod' (total + w - 1) w
    have hmod := Nat.mod_lt (total + w - 1) hw
    omega
  · cases hcount

theorem words_mul_lt {total count i : ℕ} (hcount : words w total = some count) (hi : i < count) :
    i * w < total := by
  unfold words at hcount
  split at hcount
  · obtain rfl := Option.some.inj hcount
    have hpos : 0 < w := Nat.pos_of_ne_zero fun hzero => by simp [hzero] at hi
    have hle := (Nat.le_div_iff_mul_le hpos).mp hi
    rw [Nat.succ_mul] at hle
    omega
  · cases hcount

/-- Reading a word once for all its bits. -/
theorem scatter_nested {other dst : List (BitVec w)} (pos : ℕ → ℕ × ℕ) {total count : ℕ} (hw : 0 < w)
    (hcount : words w total = some count) (hother : count ≤ other.length) :
    ((List.range count).foldlM (fun v i => do
      let r ← other[i]?
      (List.range (min w (total - i * w))).foldlM (fun v p =>
        setBit v (pos (i * w + p)).1 (Vec.getBit r p) (pos (i * w + p)).2) v) dst) =
      (List.range total).foldlM (scatterStep other pos) dst := by
  have hle := le_words_mul hw hcount
  have hflat := OptionLoop.nested (scatterStep other pos) w total count dst
  rw [Nat.min_eq_left hle] at hflat
  rw [← hflat]
  refine OptionLoop.congr (fun i hi v => ?_) dst
  have hin : i < other.length := by omega
  have hget : other[i]? = some other[i] := List.getElem?_eq_getElem hin
  rw [hget]
  refine OptionLoop.congr (fun p hp v => ?_) v
  obtain ⟨hdiv, hmod⟩ := OptionLoop.row_column (n := w) (i := i) (j := p) (by omega)
  rw [scatterStep, hdiv, hmod, hget]
  rfl

theorem gather_nested {v res : List (BitVec w)} (pos : ℕ → ℕ × ℕ) {total count : ℕ} (hw : 0 < w)
    (hcount : words w total = some count) :
    ((List.range count).foldlM (fun res i =>
      (List.range (min w (total - i * w))).foldlM (fun res p => do
        let x ← v[(pos (i * w + p)).1]?
        setBit res i (Vec.getBit x (pos (i * w + p)).2) p) res) res) =
      (List.range total).foldlM (gatherStep v pos) res := by
  have hle := le_words_mul hw hcount
  have hflat := OptionLoop.nested (gatherStep v pos) w total count res
  rw [Nat.min_eq_left hle] at hflat
  rw [← hflat]
  refine OptionLoop.congr (fun i hi res => OptionLoop.congr (fun p hp res => ?_) res) res
  obtain ⟨hdiv, hmod⟩ := OptionLoop.row_column (n := w) (i := i) (j := p) (by omega)
  rw [gatherStep, hdiv, hmod]

end Words

section Inverse

variable {bits n : ℕ} {f : ℕ → ℕ} {compress : List (BitVec w) → Option (List (BitVec w))}
  {decompress : List (BitVec w) → List (BitVec w) → Option (List (BitVec w))}

/-- Decompression brings back the selected bits of every vector of `n` elements. -/
def InverseAt (n : ℕ) (selected : ℕ → Prop) (compress : List (BitVec w) → Option (List (BitVec w)))
    (decompress : List (BitVec w) → List (BitVec w) → Option (List (BitVec w))) : Prop :=
  ∀ v dst : List (BitVec w), v.length = n → dst.length = n → ∃ packed out, compress v = some packed ∧
    decompress dst packed = some out ∧ Restores v dst out selected

section Loops

variable (hw : 0 < w)
  (hcompress : ∀ v : List (BitVec w), v.length = n → compress v =
    (words w (sizeMul bits n)).bind fun count => (List.range (sizeMul bits n)).foldlM
      (gatherStep v (elementPositions bits f)) (List.replicate count 0))
  (hdecompress : ∀ (dst other : List (BitVec w)) (count : ℕ), dst.length = n →
    words w (sizeMul bits n) = some count → other.length = count → decompress dst other =
      (List.range (sizeMul bits n)).foldlM (scatterStep other (elementPositions bits f)) dst)

include hw hcompress hdecompress

/-- A codec for the same positions of every element works if the bits can be counted. -/
theorem inverseAt_of_positions (hf : ∀ i < bits, f i < w) (hfits : bits * n + w ≤ 2 ^ 64) :
    InverseAt n (fun b => ∃ i < bits, f i = b) compress decompress := by
  intro v dst hv hdst
  have htotal : sizeMul bits n = bits * n := sizeMul_of_lt (by omega)
  rw [htotal] at hcompress hdecompress
  have hcount := words_eq_some hfits
  have hroom : bits * v.length ≤ (bits * n + w - 1) / w * w := by
    rw [hv]
    exact le_words_mul hw hcount
  obtain ⟨packed, out, hgather, hlen, hscatter, hrestores⟩ :=
    restores_of_positions hw (hdst.trans hv.symm) hf hroom
  rw [hv] at hgather hscatter
  refine ⟨packed, out, ?_, ?_, hrestores⟩
  · rw [hcompress v hv, hcount]
    exact hgather
  · rw [hdecompress dst packed _ hdst hcount hlen]
    exact hscatter

theorem inverseAt_of_empty {selected : ℕ → Prop} (hn : n = 0) (hfits : w ≤ 2 ^ 64) :
    InverseAt n selected compress decompress := by
  intro v dst hv hdst
  have htotal : sizeMul bits n = 0 := by rw [hn, sizeMul, Nat.mul_zero, Nat.zero_mod]
  rw [htotal] at hcompress hdecompress
  have hcount : words w 0 = some ((0 + w - 1) / w) := words_eq_some (by omega)
  refine ⟨List.replicate ((0 + w - 1) / w) 0, dst, ?_, ?_, rfl, fun e he => absurd he (by omega),
    fun _ _ _ => rfl⟩
  · rw [hcompress v hv, hcount]
    rfl
  · rw [hdecompress dst _ _ hdst hcount List.length_replicate]
    rfl

/-- The bits are counted, and every selected bit of every element is one of them. -/
theorem exists_position {selected : ℕ → Prop} (hinverse : InverseAt n selected compress decompress) :
    sizeMul bits n + w ≤ 2 ^ 64 ∧ ∀ e < n, ∀ p < w, selected p →
      ∃ k < sizeMul bits n, k / bits = e ∧ f (k % bits) = p := by
  obtain ⟨packed, out, hpacked, hout, hrestores⟩ := hinverse (List.replicate n (BitVec.allOnes w))
    (List.replicate n 0) List.length_replicate List.length_replicate
  rw [hcompress _ List.length_replicate] at hpacked
  obtain ⟨count, hcount, hgather⟩ := Option.bind_eq_some_iff.mp hpacked
  have hfits : sizeMul bits n + w ≤ 2 ^ 64 := by
    by_contra hnot
    rw [words_eq_none hnot] at hcount
    cases hcount
  have hlength : packed.length = count := by
    obtain ⟨packed', hgather', hlen, -⟩ := gather_spec (List.replicate n (BitVec.allOnes w))
      (List.replicate count 0) (elementPositions bits f) (sizeMul bits n) hw
      (by rw [List.length_replicate]; exact le_words_mul hw hcount) fun k hk => by
        rw [List.length_replicate]
        exact Nat.div_lt_of_lt_mul (hk.trans_le (Nat.mod_le _ _))
    obtain rfl : packed = packed' := Option.some.inj (hgather.symm.trans hgather')
    rw [hlen, List.length_replicate]
  rw [hdecompress _ _ count List.length_replicate hcount hlength] at hout
  refine ⟨hfits, fun e he p hp hselected => ?_⟩
  by_contra hnone
  have hkept := scatter_kept hout (e := e) (b := p) fun k hk heq =>
    hnone ⟨k, hk, congrArg Prod.fst heq, congrArg Prod.snd heq⟩
  have hone := hrestores.restored e (by rw [List.length_replicate]; exact he) p hselected
  rw [hkept, bitAt, bitAt, List.getElem?_replicate_of_lt he, List.getElem?_replicate_of_lt he,
    Option.getD_some, Option.getD_some] at hone
  simp [hp] at hone

end Loops

end Inverse

section Packing

theorem packWord_spec {source : List (BitVec w)} {total : ℕ} (position j : ℕ)
    (htotal : total ≤ source.length) :
    ∃ r, packWord source position total j = some r ∧
      (∀ p < min w (total - j), r.getLsbD p = bitAt source (j + p) position) ∧
      ∀ p, min w (total - j) ≤ p → r.getLsbD p = false := by
  have hloop := OptionLoop.invariant (n := min w (total - j)) (s := (0 : BitVec w))
    (f := fun r p => do
      let x ← source[j + p]?
      pure (r ||| Vec.getBit x position <<< p))
    (P := fun n (r : BitVec w) => (∀ p < n, r.getLsbD p = bitAt source (j + p) position) ∧
      ∀ p, n ≤ p → r.getLsbD p = false)
    ⟨fun p hp => absurd hp (Nat.not_lt_zero p), fun p _ => BitVec.getLsbD_zero⟩ ?_
  · exact hloop
  rintro n hn r ⟨hlow, hhigh⟩
  obtain ⟨x, hget⟩ : ∃ x, source[j + n]? = some x := ⟨_, List.getElem?_eq_getElem (by omega)⟩
  refine ⟨r ||| Vec.getBit x position <<< n, ?_, fun p hp => ?_, fun p hp => ?_⟩
  · rw [hget]
    rfl
  · rw [BitVec.getLsbD_or, BitVec.getLsbD_shiftLeft, Vec.getLsbD_getBit]
    rcases Nat.lt_succ_iff_lt_or_eq.mp hp with hlt | rfl
    · simp [hlow p hlt, hlt]
    · have hpw : p < w := by omega
      rw [hhigh p (le_refl p), bitAt, hget]
      simp [hpw]
  · rw [BitVec.getLsbD_or, BitVec.getLsbD_shiftLeft, Vec.getLsbD_getBit, hhigh p (by omega)]
    have hne : ¬ p - n = 0 := by omega
    simp [hne]

theorem packFrom_spec {room source : List (BitVec w)} (hw : 0 < w) (hroom : source.length ≤ room.length * w)
    (hsize : room.length * w < 2 ^ 64) (hfits : source.length + w ≤ 2 ^ 64) (position : ℕ) :
    ∃ packed, packFrom room source position = some packed ∧ packed.length = room.length ∧
      ∀ k < source.length, bitAt packed (k / w) (k % w) = bitAt source k position := by
  have htotal : min (sizeMul room.length w) source.length = source.length := by
    rw [sizeMul, Nat.mod_eq_of_lt hsize]
    omega
  have hcount := words_eq_some hfits
  rw [packFrom, htotal, hcount]
  have hloop := OptionLoop.invariant (n := (source.length + w - 1) / w) (s := room)
    (f := fun v i => do
      let r ← packWord source position source.length (i * w)
      if i < v.length then some (v.set i r) else none)
    (P := fun n (packed : List (BitVec w)) => packed.length = room.length ∧
      ∀ k < source.length, k / w < n → bitAt packed (k / w) (k % w) = bitAt source k position)
    ⟨rfl, fun k _ hk => absurd hk (Nat.not_lt_zero _)⟩ ?_
  · obtain ⟨packed, hrun, hlen, hbits⟩ := hloop
    refine ⟨packed, hrun, hlen, fun k hk => hbits k hk ?_⟩
    exact Nat.div_lt_of_lt_mul (by
      rw [Nat.mul_comm]
      exact lt_of_lt_of_le hk (le_words_mul hw hcount))
  rintro i hi packed ⟨hlen, hbits⟩
  obtain ⟨r, hword, hr, -⟩ := packWord_spec position (i * w) (le_refl source.length)
  have hstart := words_mul_lt hcount hi
  have hin : i < packed.length := by
    rw [hlen]
    exact Nat.lt_of_mul_lt_mul_right (lt_of_lt_of_le hstart hroom)
  refine ⟨packed.set i r, ?_, List.length_set.trans hlen, fun k hk hdiv => ?_⟩
  · rw [hword]
    exact if_pos hin
  · by_cases hlast : k / w = i
    · have hk' := Nat.div_add_mod k w
      have hmod := Nat.mod_lt k hw
      have hki : i * w + k % w = k := by
        rw [← hlast, Nat.mul_comm]
        exact hk'
      rw [hlast, bitAt, List.getElem?_set_self hin, Option.getD_some, hr (k % w) (by omega), hki]
    · rw [bitAt, List.getElem?_set_ne (Ne.symm hlast)]
      exact hbits k hk (by omega)

theorem unpackFrom_eq {dst packed : List (BitVec w)} {count : ℕ} (hw : 0 < w)
    (hcount : words w dst.length = some count) (hpacked : count ≤ packed.length) (position : ℕ) :
    unpackFrom dst packed position =
      (List.range dst.length).foldlM (scatterStep packed fun k => (k, position)) dst := by
  rw [unpackFrom, hcount]
  exact scatter_nested (fun k => (k, position)) hw hcount hpacked

/-- Unpacking what has been packed, into `room` of the smallest size, restores bit `position`. -/
def PackInverse (w n position : ℕ) : Prop :=
  ∀ room : List (BitVec w), room.length = Vec.compressedSize w n →
    InverseAt n (· = position) (fun v => packFrom room v position)
      fun dst packed => unpackFrom dst packed position

theorem compressedSize_mul (hw : 0 < w) (n : ℕ) :
    n ≤ Vec.compressedSize w n * w ∧ Vec.compressedSize w n * w < n + w := by
  have hdiv := Nat.div_add_mod' n w
  have hmod := Nat.mod_lt n hw
  unfold Vec.compressedSize
  split <;> rw [Nat.add_mul] <;> omega

theorem packInverse_iff (hw : 0 < w) {n position : ℕ} (hposition : position < w) :
    PackInverse w n position ↔ n + w ≤ 2 ^ 64 := by
  constructor
  · intro hinverse
    by_contra hlarge
    obtain ⟨packed, out, -, hout, -⟩ := hinverse (List.replicate (Vec.compressedSize w n) 0)
      List.length_replicate (List.replicate n 0) (List.replicate n 0) List.length_replicate
      List.length_replicate
    have hnone : unpackFrom (List.replicate n (0 : BitVec w)) packed position = none := by
      rw [unpackFrom, List.length_replicate, words_eq_none hlarge]
      rfl
    cases hnone.symm.trans hout
  · intro hfits room hroom v dst hv hdst
    obtain ⟨hle, hlt⟩ := compressedSize_mul hw n
    rw [← hroom, ← hv] at hle
    rw [← hroom] at hlt
    obtain ⟨packed, hpack, hlen, hbits⟩ := packFrom_spec hw hle (by omega) (by omega) position
    have hcount : words w dst.length = some ((dst.length + w - 1) / w) := words_eq_some (by omega)
    have hcounted : (dst.length + w - 1) / w ≤ packed.length := by
      rw [hlen, hdst, ← hv]
      exact Nat.lt_succ_iff.mp ((Nat.div_lt_iff_lt_mul hw).mpr (by rw [Nat.succ_mul]; omega))
    obtain ⟨out, hscatter, houtlen, hout⟩ := scatter_spec v dst packed (fun k => (k, position)) dst.length
      (hdst.trans hv.symm) (by rw [hlen, hdst, ← hv]; exact hle)
      (fun k hk => ⟨by omega, hposition⟩) fun k hk => hbits k (by omega)
    refine ⟨packed, out, hpack, ?_, by omega, fun e he b hb => ?_, fun e b hb => ?_⟩
    · exact (unpackFrom_eq hw hcount hcounted position).trans hscatter
    · exact (hout e b).1 ⟨e, by omega, Prod.ext rfl hb.symm⟩
    · exact (hout e b).2 fun k _ heq => hb (congrArg Prod.snd heq).symm

end Packing

end BitCodecs

namespace SimpleBits

open BitCodecs

variable {w n : ℕ} {b : SimpleBits}

/-- The positions are positions of an element, and all parameters are `int`s, as is the width. -/
structure InRange (w : ℕ) (b : SimpleBits) : Prop where
  start_nonneg : 0 ≤ b.start
  start_le : b.start ≤ b.stop
  stop_lt : b.stop < w
  width_int : w < 2 ^ 31
  step_pos : 0 < b.step
  step_int : b.step < 2 ^ 31
  repetition_pos : 0 < b.repetition
  repetition_int : b.repetition < 2 ^ 31

/-- How many bits of an element are selected. -/
def selectedBits (b : SimpleBits) : ℕ := ((b.stop - b.start + 1) / b.step).toNat

def Selects (b : SimpleBits) (p : ℕ) : Prop :=
  ∃ q < b.selectedBits, p = b.start.toNat + q * b.step.toNat

/-- Decompression restores the selected bits, and all bits that are read or written are bits of an
element. -/
def Inverse (w n : ℕ) (b : SimpleBits) : Prop :=
  (∀ k < sizeMul b.intBits n, b.position (k % b.intBits) < w) ∧
    InverseAt n b.Selects (fun v : List (BitVec w) => b.bitCompress v) b.bitDecompress

/-- The `int` number of bits is that of the selected ones as long as they are all counted. -/
def CountsAll (b : SimpleBits) : Prop :=
  b.intBits ≤ b.selectedBits * b.repetition.toNat ∧
    b.selectedBits * b.repetition.toNat < b.intBits + b.repetition.toNat

theorem intBits_eq (hb : b.InRange w) :
    b.intBits = castSize (castInt |castInt (b.selectedBits * b.repetition.toNat : ℕ)|) := by
  have hle := hb.start_le
  have hstart := hb.start_nonneg
  have hstop := hb.stop_lt
  have hwidth := hb.width_int
  have hnonneg : 0 ≤ b.stop - b.start + 1 := by omega
  have hsub : castInt (b.stop - b.start) = b.stop - b.start := castInt_eq_self ⟨by omega, by omega⟩
  have hcount : castInt (b.stop - b.start + 1) = b.stop - b.start + 1 :=
    castInt_eq_self ⟨by omega, by omega⟩
  have hquot : 0 ≤ (b.stop - b.start + 1) / b.step := Int.ediv_nonneg hnonneg hb.step_pos.le
  have hproduct : (b.stop - b.start + 1).tdiv b.step * b.repetition =
      (b.selectedBits * b.repetition.toNat : ℕ) := by
    rw [Int.tdiv_eq_ediv_of_nonneg hnonneg, selectedBits, Nat.cast_mul, Int.toNat_of_nonneg hquot,
      Int.toNat_of_nonneg hb.repetition_pos.le]
  rw [intBits, hsub, hcount, hproduct]

/-- Two bits, each of them repeated more often than an `int` counts. -/
example : (⟨0, 1, 1, 2 ^ 30 + 1⟩ : SimpleBits).intBits = 2 ^ 31 - 2 := by decide

/-- A count that has wrapped around is smaller, or it is the `int` that has no absolute value. -/
theorem wrapped_le (n : ℕ) : castSize (castInt |castInt n|) ≤ n ∨
    castSize (castInt |castInt n|) = 2 ^ 64 - 2 ^ 31 := by
  have hin := castInt_inInt n
  have hle := castInt_le n
  have hcast := castInt_natCast_eq n
  rcases eq_or_lt_of_le hin.1 with hmin | hlt
  · right
    rw [← hmin]
    decide
  · left
    have habs : InInt |castInt n| := by
      rcases abs_cases (castInt n) with ⟨habs, -⟩ | ⟨habs, -⟩ <;> rw [habs] <;> unfold InInt at * <;> omega
    rw [castInt_eq_self habs, castSize_eq (abs_nonneg _) (habs.2.trans (by decide))]
    rcases abs_cases (castInt n) with ⟨heq, -⟩ | ⟨heq, hneg⟩
    · rw [heq]
      omega
    · rw [heq]
      split at hcast <;> omega

theorem selected_le (hb : b.InRange w) {q : ℕ} (hq : q < b.selectedBits) :
    b.start.toNat + q * b.step.toNat ≤ b.stop.toNat := by
  have hnonneg := hb.start_nonneg
  have hle := hb.start_le
  have hpos := hb.step_pos
  have hquot : (q + 1 : ℤ) ≤ (b.stop - b.start + 1) / b.step := by
    unfold selectedBits at hq
    omega
  have hmul : (q + 1 : ℤ) * b.step ≤ b.stop - b.start + 1 := (Int.le_ediv_iff_mul_le hpos).mp hquot
  have hstep : ((q * b.step.toNat : ℕ) : ℤ) = q * b.step := by
    rw [Nat.cast_mul, Int.toNat_of_nonneg hpos.le]
  rw [add_mul, one_mul] at hmul
  omega

theorem position_eq (hb : b.InRange w) {i : ℕ} (hi : i < b.selectedBits * b.repetition.toNat) :
    i / b.repetition.toNat < b.selectedBits ∧
      b.position i = b.start.toNat + i / b.repetition.toNat * b.step.toNat := by
  have hq : i / b.repetition.toNat < b.selectedBits := Nat.div_lt_of_lt_mul (by
    rw [Nat.mul_comm]
    exact hi)
  have hle := selected_le hb hq
  have hstart := castSize_eq hb.start_nonneg (by
    have hstop := hb.stop_lt
    have hwidth := hb.width_int
    have hle := hb.start_le
    omega)
  have hstep := castSize_eq hb.step_pos.le (by
    have hint := hb.step_int
    omega)
  have hrepetition := castSize_eq hb.repetition_pos.le (by
    have hint := hb.repetition_int
    omega)
  have hstop := hb.stop_lt
  have hwidth := hb.width_int
  refine ⟨hq, ?_⟩
  rw [position, hstart, hstep, hrepetition, sizeMul, Nat.mod_eq_of_lt (by omega)]
  exact if_pos (by omega)

theorem position_lt (hb : b.InRange w) {i : ℕ} (hi : i < b.selectedBits * b.repetition.toNat) :
    b.position i < w := by
  obtain ⟨hq, hposition⟩ := position_eq hb hi
  have hle := selected_le hb hq
  have hstop := hb.stop_lt
  have hstart := hb.start_nonneg
  have hstart_le := hb.start_le
  omega

theorem selects_lt (hb : b.InRange w) {p : ℕ} (hp : b.Selects p) : p < w := by
  obtain ⟨q, hq, rfl⟩ := hp
  have hle := selected_le hb hq
  have hstop := hb.stop_lt
  have hstart := hb.start_nonneg
  have hstart_le := hb.start_le
  omega

/-- The selected bits are those that are counted. -/
theorem selects_iff (hb : b.InRange w) (hcounts : b.CountsAll) (p : ℕ) :
    b.Selects p ↔ ∃ i < b.intBits, b.position i = p := by
  have hrepetition := hb.repetition_pos
  constructor
  · rintro ⟨q, hq, rfl⟩
    have hmul : (q + 1) * b.repetition.toNat ≤ b.selectedBits * b.repetition.toNat :=
      Nat.mul_le_mul_right _ hq
    rw [Nat.succ_mul] at hmul
    have hcounted := hcounts.2
    refine ⟨q * b.repetition.toNat, by omega, ?_⟩
    rw [(position_eq hb (by omega)).2, Nat.mul_div_cancel _ (by omega)]
  · rintro ⟨i, hi, rfl⟩
    obtain ⟨hq, hposition⟩ := position_eq hb (hi.trans_le hcounts.1)
    exact ⟨_, hq, hposition⟩

theorem bitCompress_eq (hw : 0 < w) (hb : b.InRange w) {v : List (BitVec w)} (hv : v.length = n) :
    b.bitCompress v = (words w (sizeMul b.intBits n)).bind fun count =>
      (List.range (sizeMul b.intBits n)).foldlM (gatherStep v (elementPositions b.intBits b.position))
        (List.replicate count 0) := by
  rw [bitCompress, bitsPerElement, if_neg hb.step_pos.ne']
  change ((words w (sizeMul _ v.length)).bind fun count => _) = _
  rw [hv]
  cases hcount : words w (sizeMul b.intBits n) with
  | none => rfl
  | some count => exact gather_nested (elementPositions _ b.position) hw hcount

theorem bitDecompress_eq (hw : 0 < w) (hb : b.InRange w) {dst other : List (BitVec w)} {count : ℕ}
    (hdst : dst.length = n) (hcount : words w (sizeMul b.intBits n) = some count)
    (hother : other.length = count) : b.bitDecompress dst other =
      (List.range (sizeMul b.intBits n)).foldlM
        (scatterStep other (elementPositions b.intBits b.position)) dst := by
  rw [bitDecompress, bitsPerElement, if_neg hb.step_pos.ne']
  change ((words w (sizeMul _ dst.length)).bind fun count => _) = _
  rw [hdst, hcount]
  exact scatter_nested (elementPositions _ b.position) hw hcount hother.ge

/-- The `int` without an absolute value counts positions behind the element. -/
theorem le_selected_of_inside (hb : b.InRange w) (hall : sizeMul b.intBits n = b.intBits * n) (hn : 0 < n)
    (hinside : ∀ k < sizeMul b.intBits n, b.position (k % b.intBits) < w) :
    b.intBits ≤ b.selectedBits * b.repetition.toNat := by
  rcases wrapped_le (b.selectedBits * b.repetition.toNat) with hle | hmin
  · rw [intBits_eq hb]
    exact hle
  rw [← intBits_eq hb] at hmin
  have hwidth := hb.width_int
  have hstep := hb.step_pos
  have hstepInt := hb.step_int
  have hrepetition := hb.repetition_pos
  have hrepetitionInt := hb.repetition_int
  have hstart := hb.start_nonneg
  have hstartLe := hb.start_le
  have hstop := hb.stop_lt
  have hplace : w * b.repetition.toNat < 2 ^ 31 * 2 ^ 31 :=
    Nat.mul_lt_mul'' hwidth (by omega)
  have hlast : w * b.step.toNat < 2 ^ 31 * 2 ^ 31 := Nat.mul_lt_mul'' hwidth (by omega)
  have hpast : w ≤ w * b.step.toNat := Nat.le_mul_of_pos_right w (by omega)
  have hcount : b.intBits ≤ b.intBits * n := Nat.le_mul_of_pos_right _ hn
  have hposition := hinside (w * b.repetition.toNat) (by omega)
  rw [Nat.mod_eq_of_lt (by omega), position, castSize_eq hstart (by omega), castSize_eq hstep.le (by omega),
    castSize_eq hrepetition.le (by omega), Nat.mul_div_cancel _ (by omega), sizeMul_of_lt (by omega),
    sizeAdd, if_pos (by omega)] at hposition
  omega

/-- Every selected bit of every element is counted by the total. -/
def TotalCounts (w n : ℕ) (b : SimpleBits) : Prop :=
  ∀ e < n, ∀ p < w, b.Selects p →
    ∃ k < sizeMul b.intBits n, k / b.intBits = e ∧ b.position (k % b.intBits) = p

/-- The first bit of the last element is counted, so that the total has not wrapped around. -/
theorem total_eq (hb : b.InRange w) (hn : 0 < n) (hselected : 0 < b.selectedBits)
    (htotal : TotalCounts w n b) : sizeMul b.intBits n = b.intBits * n := by
  have hfirst : b.Selects (b.start.toNat + 0 * b.step.toNat) := ⟨0, hselected, rfl⟩
  obtain ⟨k, hk, hdiv, -⟩ := htotal (n - 1) (by omega) _ (selects_lt hb hfirst) hfirst
  have hlt : b.intBits < 2 ^ 64 := by
    unfold intBits castSize
    omega
  have hle : b.intBits * (n - 1) ≤ k := hdiv ▸ Nat.mul_div_le k b.intBits
  have hsucc : b.intBits * n = b.intBits * (n - 1) + b.intBits := by
    rw [← Nat.mul_succ]
    exact congrArg _ (by omega)
  have hmod := Nat.div_add_mod (b.intBits * n) (2 ^ 64)
  rw [sizeMul] at hk ⊢
  omega

/-- The last bit that is selected is counted as well. -/
theorem selected_lt (hb : b.InRange w) (hn : 0 < n) (hselected : 0 < b.selectedBits)
    (htotal : TotalCounts w n b) (hle : b.intBits ≤ b.selectedBits * b.repetition.toNat) :
    b.selectedBits * b.repetition.toNat < b.intBits + b.repetition.toNat := by
  have hlast : b.Selects (b.start.toNat + (b.selectedBits - 1) * b.step.toNat) :=
    ⟨b.selectedBits - 1, by omega, rfl⟩
  obtain ⟨k, hk, -, hplace⟩ := htotal 0 hn _ (selects_lt hb hlast) hlast
  have hpos : 0 < b.intBits := Nat.pos_of_ne_zero fun hzero => by
    rw [total_eq hb hn hselected htotal, hzero, Nat.zero_mul] at hk
    omega
  have hi := Nat.mod_lt k hpos
  rw [(position_eq hb (hi.trans_le hle)).2] at hplace
  have hstep := hb.step_pos
  have hquot : k % b.intBits / b.repetition.toNat = b.selectedBits - 1 :=
    Nat.eq_of_mul_eq_mul_right (by omega : 0 < b.step.toNat) (by omega)
  have hmul := Nat.div_mul_le_self (k % b.intBits) b.repetition.toNat
  have hsucc : b.selectedBits * b.repetition.toNat =
      (b.selectedBits - 1) * b.repetition.toNat + b.repetition.toNat := by
    rw [← Nat.succ_mul]
    exact congrArg (· * _) (by omega)
  rw [hquot] at hmul
  omega

theorem inverse_iff (hw : 0 < w) (hb : b.InRange w) :
    b.Inverse w n ↔ (n = 0 ∨ b.CountsAll) ∧ b.intBits * n + w ≤ 2 ^ 64 := by
  constructor
  · rintro ⟨hinside, hinverse⟩
    obtain ⟨hfits, htotal⟩ := exists_position hw (fun v => bitCompress_eq hw hb)
      (fun dst other count => bitDecompress_eq hw hb) hinverse
    rcases Nat.eq_zero_or_pos n with rfl | hn
    · refine ⟨Or.inl rfl, ?_⟩
      rwa [sizeMul, Nat.mul_zero, Nat.zero_mod] at hfits
    rcases Nat.eq_zero_or_pos b.selectedBits with hnone | hselected
    · have hzero : b.intBits = 0 := by
        rw [intBits_eq hb, hnone, Nat.zero_mul]
        decide
      have hrepetition := hb.repetition_pos
      rw [CountsAll, hzero, hnone, Nat.zero_mul, Nat.zero_mul]
      rw [hzero, sizeMul, Nat.zero_mul, Nat.zero_mod] at hfits
      exact ⟨Or.inr ⟨le_refl 0, by omega⟩, hfits⟩
    have hall := total_eq hb hn hselected htotal
    have hle := le_selected_of_inside hb hall hn hinside
    exact ⟨Or.inr ⟨hle, selected_lt hb hn hselected htotal hle⟩, hall ▸ hfits⟩
  · rintro ⟨hcounts, hfits⟩
    rcases hcounts with rfl | hcounts
    · refine ⟨fun k hk => absurd hk (by rw [sizeMul, Nat.mul_zero, Nat.zero_mod]; omega), ?_⟩
      exact inverseAt_of_empty hw (fun v => bitCompress_eq hw hb)
        (fun dst other count => bitDecompress_eq hw hb) rfl (by omega)
    · have hinside : ∀ i < b.intBits, b.position i < w := fun i hi => position_lt hb (hi.trans_le hcounts.1)
      have hselects : b.Selects = fun p => ∃ i < b.intBits, b.position i = p :=
        funext fun p => propext (selects_iff hb hcounts p)
      refine ⟨fun k hk => hinside _ (Nat.mod_lt k (Nat.pos_of_ne_zero fun hzero => ?_)), ?_⟩
      · rw [hzero, sizeMul, Nat.zero_mul] at hk
        omega
      · rw [hselects]
        exact inverseAt_of_positions hw (fun v => bitCompress_eq hw hb)
          (fun dst other count => bitDecompress_eq hw hb) hinside hfits

end SimpleBits

namespace AlternatingBits

open BitCodecs

variable {w n : ℕ} {b : AlternatingBits}

/-- The pattern starts in an element and has chunks, and its sizes fit the types they are converted
to. -/
structure InRange (w : ℕ) (b : AlternatingBits) : Prop where
  start_le : b.start ≤ w
  step_pos : 0 < b.step
  chunk_pos : 0 < b.includedSize + b.excludedSize
  chunk_lt : b.includedSize + b.excludedSize < 2 ^ 64
  direction : b.direction = 1 ∨ b.direction = -1 ∧ b.includedSize ≤ 2 ^ 31

/-- Bit `q` of chunk `c`. Backwards it is counted from the end of a full chunk. -/
def chosen (b : AlternatingBits) (c q : ℕ) : ℕ :=
  b.start + c * (b.includedSize + b.excludedSize) +
    if b.direction = -1 then b.includedSize - 1 - q * b.step else q * b.step

def fullChunks (w : ℕ) (b : AlternatingBits) : ℕ := (w - b.start) / (b.includedSize + b.excludedSize)

/-- How many bits are left for the last chunk. -/
def remaining (w : ℕ) (b : AlternatingBits) : ℕ := (w - b.start) % (b.includedSize + b.excludedSize)

def Selects (w : ℕ) (b : AlternatingBits) (p : ℕ) : Prop :=
  ∃ c q, (c < fullChunks w b ∧ q < b.includedSize / b.step ∨
    c = fullChunks w b ∧ q < min b.includedSize (remaining w b) / b.step) ∧ p = b.chosen c q

/-- Decompression restores the selected bits, which are bits of an element. -/
def Inverse (w n : ℕ) (b : AlternatingBits) : Prop :=
  (∀ p, Selects w b p → p < w) ∧
    InverseAt n (Selects w b) (fun v : List (BitVec w) => b.bitCompress v) b.bitDecompress

/-- Compression appends the selected bits, which are bits of an element, to one another. -/
structure Compresses (w n : ℕ) (b : AlternatingBits) : Prop where
  inside : ∀ p, Selects w b p → p < w
  selected : ∀ p, Selects w b p ↔ ∃ i < b.totalBitsPerElement w, b.position i = p
  packed : ∀ v : List (BitVec w), v.length = n → ∃ packed, b.bitCompress v = some packed ∧
    ∀ k < b.totalBitsPerElement w * n, bitAt packed (k / w) (k % w) =
      bitAt v (k / b.totalBitsPerElement w) (b.position (k % b.totalBitsPerElement w))

/-- The chunk that is not full has bits to be taken, but not all that would be included. -/
def PartialChunk (w : ℕ) (b : AlternatingBits) : Prop :=
  b.step ≤ remaining w b ∧ remaining w b < b.includedSize

theorem chunkSize_eq (hb : b.InRange w) : b.chunkSize = b.includedSize + b.excludedSize :=
  if_pos hb.chunk_lt

theorem totalBits_eq (hb : b.InRange w) : b.totalBitsPerElement w =
    fullChunks w b * (b.includedSize / b.step) + min b.includedSize (remaining w b) / b.step := by
  rw [totalBitsPerElement, bitsPerElement, lastChunkBitsPerElement, chunkSize_eq hb,
    sizeSub_of_le hb.start_le]
  rfl

/-- The bits of the element up to the last chunk. -/
theorem width_eq (hb : b.InRange w) :
    w = b.start + fullChunks w b * (b.includedSize + b.excludedSize) + remaining w b := by
  have hdiv := Nat.div_add_mod' (w - b.start) (b.includedSize + b.excludedSize)
  have hstart := hb.start_le
  unfold fullChunks remaining
  omega

theorem mul_step_lt {q m : ℕ} (hq : q < m / b.step) (hstep : 0 < b.step) : q * b.step + b.step ≤ m := by
  have hle := (Nat.le_div_iff_mul_le hstep).mp hq
  rw [Nat.succ_mul] at hle
  exact hle

theorem chosen_lt_of_full (hb : b.InRange w) {c q : ℕ} (hc : c < fullChunks w b)
    (hq : q < b.includedSize / b.step) : b.chosen c q < w := by
  have hwidth := width_eq hb
  have hstep := hb.step_pos
  have hmul := mul_step_lt hq hstep
  have hchunk : (c + 1) * (b.includedSize + b.excludedSize) ≤
      fullChunks w b * (b.includedSize + b.excludedSize) := Nat.mul_le_mul_right _ hc
  rw [Nat.succ_mul] at hchunk
  rw [chosen]
  split <;> omega

theorem selects_lt_iff (hb : b.InRange w) :
    (∀ p, Selects w b p → p < w) ↔ ¬ (b.direction = -1 ∧ PartialChunk w b) := by
  have hwidth := width_eq hb
  have hstep := hb.step_pos
  constructor
  · rintro hinside ⟨hdirection, hle, hlt⟩
    have hmin : min b.includedSize (remaining w b) = remaining w b := by omega
    have hfirst : 0 < min b.includedSize (remaining w b) / b.step := by
      rw [hmin]
      exact Nat.div_pos hle hstep
    have hpast := hinside _ ⟨fullChunks w b, 0, Or.inr ⟨rfl, hfirst⟩, rfl⟩
    rw [chosen, if_pos hdirection, Nat.zero_mul] at hpast
    omega
  · rintro hnot p ⟨c, q, hcq, rfl⟩
    rcases hcq with ⟨hc, hq⟩ | ⟨rfl, hq⟩
    · exact chosen_lt_of_full hb hc hq
    · have hmul := mul_step_lt hq hstep
      rw [chosen]
      split
      · rename_i hdirection
        have hroom : b.includedSize ≤ remaining w b := by
          by_contra hlt
          exact hnot ⟨hdirection, by omega, by omega⟩
        omega
      · omega

theorem position_eq (hb : b.InRange w) {c q i : ℕ} (hq : q < b.includedSize / b.step)
    (hi : i = c * (b.includedSize / b.step) + q) (hfits : b.chosen c q < 2 ^ 64) :
    b.position i = b.chosen c q := by
  have hstep := hb.step_pos
  have hmul := mul_step_lt hq hstep
  have hdiv : i / b.bitsPerChunk = c := by
    rw [hi, bitsPerChunk, Nat.add_comm, Nat.add_mul_div_right _ _ (by omega), Nat.div_eq_of_lt hq,
      Nat.zero_add]
  have hmod : i % b.bitsPerChunk = q := by
    rw [hi, bitsPerChunk, Nat.add_comm, Nat.add_mul_mod_self_right, Nat.mod_eq_of_lt hq]
  have hvalue : (b.start + b.directionOffset + (c : ℤ) * b.chunkSize + (q : ℤ) * b.step * b.direction : ℤ) =
      b.chosen c q := by
    rw [chunkSize_eq hb, chosen, directionOffset]
    rcases hb.direction with hforward | ⟨hback, hint⟩
    · have hne : b.direction ≠ -1 := by omega
      rw [if_neg hne, if_neg hne, hforward]
      push_cast
      ring
    · have hbmod : castInt (b.includedSize - 1) = b.includedSize - 1 :=
        castInt_eq_self ⟨by omega, by omega⟩
      rw [if_pos hback, if_pos hback, hback, hbmod, Nat.cast_add, Nat.cast_add, Nat.cast_sub (by omega),
        Nat.cast_sub (by omega)]
      push_cast
      ring
  rw [position, hdiv, hmod, hvalue, castSize_eq (Int.natCast_nonneg _) (by omega),
    Int.toNat_natCast]

theorem selects_iff (hb : b.InRange w) (hw : w ≤ 2 ^ 64) (hinside : ∀ p, Selects w b p → p < w) (p : ℕ) :
    Selects w b p ↔ ∃ i < b.totalBitsPerElement w, b.position i = p := by
  have hle : min b.includedSize (remaining w b) / b.step ≤ b.includedSize / b.step :=
    Nat.div_le_div_right (Nat.min_le_left _ _)
  constructor
  · intro hp
    have hlt := hinside p hp
    obtain ⟨c, q, hcq, rfl⟩ := hp
    have hq : q < b.includedSize / b.step := by
      rcases hcq with ⟨-, hq⟩ | ⟨-, hq⟩ <;> omega
    refine ⟨c * (b.includedSize / b.step) + q, ?_, position_eq hb hq rfl (by omega)⟩
    rw [totalBits_eq hb]
    rcases hcq with ⟨hc, -⟩ | ⟨rfl, hq⟩
    · have hmul : (c + 1) * (b.includedSize / b.step) ≤ fullChunks w b * (b.includedSize / b.step) :=
        Nat.mul_le_mul_right _ hc
      rw [Nat.succ_mul] at hmul
      exact lt_of_lt_of_le (by omega) (Nat.le_add_right _ _)
    · omega
  · rintro ⟨i, hi, rfl⟩
    rw [totalBits_eq hb] at hi
    have hpos : 0 < b.includedSize / b.step := by
      refine Nat.pos_of_ne_zero fun hzero => ?_
      rw [hzero, Nat.mul_zero] at hi
      omega
    have hdiv := Nat.div_add_mod' i (b.includedSize / b.step)
    have hmod := Nat.mod_lt i hpos
    have hcq : i / (b.includedSize / b.step) < fullChunks w b ∧
          i % (b.includedSize / b.step) < b.includedSize / b.step ∨
        i / (b.includedSize / b.step) = fullChunks w b ∧
          i % (b.includedSize / b.step) < min b.includedSize (remaining w b) / b.step := by
      rcases Nat.lt_or_ge i (fullChunks w b * (b.includedSize / b.step)) with hlt | hge
      · exact Or.inl ⟨(Nat.div_lt_iff_lt_mul hpos).mpr hlt, hmod⟩
      · have hquot : i / (b.includedSize / b.step) = fullChunks w b := by
          apply Nat.div_eq_of_lt_le hge
          rw [Nat.succ_mul]
          omega
        rw [hquot] at hdiv
        exact Or.inr ⟨hquot, by omega⟩
    have hselects : Selects w b (b.chosen (i / (b.includedSize / b.step)) (i % (b.includedSize / b.step))) :=
      ⟨_, _, hcq, rfl⟩
    have hlt := hinside _ hselects
    rw [position_eq hb hmod hdiv.symm (by omega)]
    exact hselects

theorem bitCompress_eq (hb : b.InRange w) {v : List (BitVec w)} (hv : v.length = n) : b.bitCompress v =
    (words w (sizeMul (b.totalBitsPerElement w) n)).bind fun count =>
      (List.range (sizeMul (b.totalBitsPerElement w) n)).foldlM
        (gatherStep v (elementPositions (b.totalBitsPerElement w) b.position)) (List.replicate count 0) := by
  have hguard : guard (b.step ≠ 0 ∧ b.chunkSize ≠ 0) = (some () : Option Unit) := by
    rw [chunkSize_eq hb]
    exact if_pos ⟨hb.step_pos.ne', hb.chunk_pos.ne'⟩
  rw [bitCompress, hguard, ← hv]
  rfl

/-- The bits of the words, and how many words there are. -/
theorem bitCompress_spec (hw : 0 < w) (hb : b.InRange w) {v : List (BitVec w)} (hv : v.length = n)
    (hfits : sizeMul (b.totalBitsPerElement w) n + w ≤ 2 ^ 64) :
    ∃ packed, b.bitCompress v = some packed ∧
      packed.length = (sizeMul (b.totalBitsPerElement w) n + w - 1) / w ∧
      ∀ k < sizeMul (b.totalBitsPerElement w) n, bitAt packed (k / w) (k % w) =
        bitAt v (k / b.totalBitsPerElement w) (b.position (k % b.totalBitsPerElement w)) := by
  have hcount := words_eq_some hfits
  obtain ⟨packed, hgather, hlen, hbits⟩ := gather_spec v
    (List.replicate ((sizeMul (b.totalBitsPerElement w) n + w - 1) / w) 0)
    (elementPositions (b.totalBitsPerElement w) b.position) (sizeMul (b.totalBitsPerElement w) n) hw
    (by rw [List.length_replicate]; exact le_words_mul hw hcount) fun k hk => by
      rw [hv]
      exact Nat.div_lt_of_lt_mul (hk.trans_le (Nat.mod_le _ _))
  rw [List.length_replicate] at hlen
  refine ⟨packed, ?_, hlen, hbits⟩
  rw [bitCompress_eq hb hv, hcount]
  exact hgather

theorem compresses_iff (hw : 0 < w) (hb : b.InRange w) : b.Compresses w n ↔
    ¬ (b.direction = -1 ∧ PartialChunk w b) ∧ b.totalBitsPerElement w * n + w ≤ 2 ^ 64 := by
  constructor
  · intro hcompresses
    refine ⟨(selects_lt_iff hb).mp hcompresses.inside, ?_⟩
    obtain ⟨packed, hrun, hbits⟩ :=
      hcompresses.packed (List.replicate n (BitVec.allOnes w)) List.length_replicate
    have hfits : sizeMul (b.totalBitsPerElement w) n + w ≤ 2 ^ 64 := by
      by_contra hnot
      rw [bitCompress_eq hb List.length_replicate, words_eq_none hnot] at hrun
      cases hrun
    obtain ⟨packed', hrun', hlen, -⟩ :=
      bitCompress_spec hw hb (v := List.replicate n (BitVec.allOnes w)) List.length_replicate hfits
    obtain rfl := Option.some.inj (hrun'.symm.trans hrun)
    by_contra hlarge
    -- the total has wrapped around, and there is no word for the last bit
    have hwrapped : sizeMul (b.totalBitsPerElement w) n + 2 ^ 64 ≤ b.totalBitsPerElement w * n := by
      have hmod := Nat.div_add_mod (b.totalBitsPerElement w * n) (2 ^ 64)
      unfold sizeMul at *
      omega
    have hpos : 0 < b.totalBitsPerElement w := Nat.pos_of_ne_zero fun hzero => by
      rw [hzero, Nat.zero_mul] at hwrapped
      omega
    have hlast : b.totalBitsPerElement w * n - 1 < b.totalBitsPerElement w * n := by omega
    have hword : packed'.length ≤ (b.totalBitsPerElement w * n - 1) / w := by
      rw [hlen]
      exact Nat.div_le_div_right (by omega)
    have helement : (b.totalBitsPerElement w * n - 1) / b.totalBitsPerElement w < n :=
      Nat.div_lt_of_lt_mul hlast
    have hplace := hcompresses.inside _ ((hcompresses.selected _).mpr
      ⟨_, Nat.mod_lt (b.totalBitsPerElement w * n - 1) hpos, rfl⟩)
    have hone := hbits _ hlast
    rw [bitAt, bitAt, List.getElem?_eq_none hword, List.getElem?_replicate_of_lt helement, Option.getD_none,
      Option.getD_some] at hone
    simp [hplace] at hone
  · rintro ⟨hchunk, hfits⟩
    have hinside := (selects_lt_iff hb).mpr hchunk
    refine ⟨hinside, selects_iff hb (by omega) hinside, fun v hv => ?_⟩
    have htotal : sizeMul (b.totalBitsPerElement w) n = b.totalBitsPerElement w * n :=
      sizeMul_of_lt (by omega)
    obtain ⟨packed, hrun, -, hbits⟩ := bitCompress_spec hw hb hv (by rwa [htotal])
    rw [htotal] at hbits
    exact ⟨packed, hrun, hbits⟩

theorem not_inverse : ¬ b.Inverse w n := by
  rintro ⟨-, hinverse⟩
  obtain ⟨packed, out, -, hout, -⟩ :=
    hinverse (List.replicate n 0) (List.replicate n 0) List.length_replicate List.length_replicate
  cases hout

end AlternatingBits

namespace BitCodecs

/-- Single bits and bits at equal distances are put back exactly if they can be counted. Bits of an
alternating pattern never are; they are compressed exactly if they can be counted and those of a chunk
that is not full are not taken from the end of a full one. -/
theorem bit_codecs_inverse_iff {w : ℕ} (hw : 0 < w) (n : ℕ) :
    (∀ position < w, (PackInverse w n position ↔ n + w ≤ 2 ^ 64)) ∧
    (∀ b : SimpleBits, b.InRange w →
      (b.Inverse w n ↔ (n = 0 ∨ b.CountsAll) ∧ b.intBits * n + w ≤ 2 ^ 64)) ∧
    ∀ b : AlternatingBits, b.InRange w → ¬ b.Inverse w n ∧ (b.Compresses w n ↔
      ¬ (b.direction = -1 ∧ AlternatingBits.PartialChunk w b) ∧ b.totalBitsPerElement w * n + w ≤ 2 ^ 64) :=
  ⟨fun _ hposition => packInverse_iff hw hposition, fun _ hb => SimpleBits.inverse_iff hw hb,
    fun _ hb => ⟨AlternatingBits.not_inverse, AlternatingBits.compresses_iff hw hb⟩⟩

theorem bit_codecs_inverse_iff_bytes :
    (∀ position < 8, (PackInverse 8 5 position ↔ 5 + 8 ≤ 2 ^ 64)) ∧
    (∀ b : SimpleBits, b.InRange 8 →
      (b.Inverse 8 5 ↔ (5 = 0 ∨ b.CountsAll) ∧ b.intBits * 5 + 8 ≤ 2 ^ 64)) ∧
    ∀ b : AlternatingBits, b.InRange 8 → ¬ b.Inverse 8 5 ∧ (b.Compresses 8 5 ↔
      ¬ (b.direction = -1 ∧ AlternatingBits.PartialChunk 8 b) ∧ b.totalBitsPerElement 8 * 5 + 8 ≤ 2 ^ 64) :=
  bit_codecs_inverse_iff (by decide) 5

/-- Three bits are included and three are not, backwards: of the second chunk only two bits are left,
and bit 8 is asked for. -/
theorem alternating_bits_not_inverse : ¬ AlternatingBits.Inverse 8 1 ⟨0, 1, 3, 3, -1⟩ := by
  intro hinverse
  have hpast := hinverse.1 8 ⟨1, 0, Or.inr (by decide), by decide⟩
  omega

end BitCodecs

end CryptDough
