import CryptDough.DishonestMajorityShuffle
import CryptDough.MachineIntegers
import CryptDough.PRGAlgorithm

/-! The dummy generator of permutation correlations. Local permutations are shuffled with the words of
a common generator, and both parties draw the masks alike; the two permutations of a pair are shuffled
with generators of the same seed. -/

namespace CryptDough

open Process Sharing Communicator StableSort AESPRGAlgorithm

/-- A generator in the hands of a party: its keystream and how many nonces were used of it. -/
structure CommonPRG where
  aes : Keystream
  nonce : ℕ

namespace CommonPRG

def getNext (prg : CommonPRG) (size : ElementSize) (n : ℕ) : Vec (8 * size.bytes) n × CommonPRG :=
  let next := AESPRGAlgorithm.getNext prg.aes size n prg.nonce
  (next.1, ⟨prg.aes, next.2⟩)

end CommonPRG

/-! `gen_perm` shuffles the identity: the element at every location is swapped with one at a later
location. -/

section GenPerm

theorem MAX_AES_QUERY_BYTES_pos : 0 < MAX_AES_QUERY_BYTES := Nat.two_pow_pos 20

/-- The buffer of random words, where it is read next, and the generator it is filled from. -/
structure RandomBuffer where
  random : Vec 32 MAX_AES_QUERY_BYTES
  randIndex : Fin MAX_AES_QUERY_BYTES
  generator : CommonPRG

namespace RandomBuffer

def fill (generator : CommonPRG) : RandomBuffer :=
  let next := generator.getNext .int32 MAX_AES_QUERY_BYTES
  ⟨next.1, ⟨0, MAX_AES_QUERY_BYTES_pos⟩, next.2⟩

/-- One word; a buffer that was read to its end is filled again. -/
def read (buffer : RandomBuffer) : BitVec 32 × RandomBuffer :=
  (buffer.random buffer.randIndex,
    if h : buffer.randIndex + 1 < MAX_AES_QUERY_BYTES then
      ⟨buffer.random, ⟨buffer.randIndex + 1, h⟩, buffer.generator⟩
    else fill buffer.generator)

end RandomBuffer

/-- Words are tried until one is in range, at most `fuel` of them. -/
def drawBelow (mask : BitVec 32) (bound : ℕ) :
    (fuel : ℕ) → RandomBuffer → Option ({rand : ℕ // rand ≤ bound} × RandomBuffer)
  | 0, _ => none
  | fuel + 1, buffer =>
      let next := buffer.read
      let rand := (next.1 &&& mask).toNat
      if h : rand ≤ bound then some (⟨rand, h⟩, next.2) else drawBelow mask bound fuel next.2

variable {n : ℕ}

/-- `(1 << bits) - 1` -/
def maskOf (n : ℕ) : Option (BitVec 32) := (shiftOne n.size).map fun power => power - 1

theorem maskOf_eq (hn : n < 2 ^ 31) : ∃ mask, maskOf n = some mask ∧ mask.toNat = 2 ^ n.size - 1 := by
  have hsize : n.size ≤ 31 := Nat.size_le.mpr hn
  have hle : 2 ^ n.size ≤ 2 ^ 31 := Nat.pow_le_pow_right (by decide) hsize
  have hpos : 0 < 2 ^ n.size := Nat.two_pow_pos _
  have hpower : ((1 : BitVec 32) <<< n.size).toNat = 2 ^ n.size := by
    have hone : (1 : BitVec 32).toNat = 1 := rfl
    rw [BitVec.toNat_shiftLeft, Nat.shiftLeft_eq, hone, Nat.one_mul, Nat.mod_eq_of_lt (by omega)]
  refine ⟨(1 : BitVec 32) <<< n.size - 1, ?_, ?_⟩
  · rw [maskOf, shiftOne, if_pos (by omega)]
    rfl
  · rw [BitVec.toNat_sub_of_le, hpower]
    · rfl
    · rw [BitVec.le_def, hpower]
      exact hpos

/-- The shift by 32 bits and more is undefined. -/
theorem maskOf_none (hn : 2 ^ 31 ≤ n) : maskOf n = none := by
  have hsize : 31 < n.size := Nat.lt_size.mpr hn
  rw [maskOf, shiftOne, if_neg (by omega)]
  rfl

theorem lt_of_maskOf {mask : BitVec 32} (hmask : maskOf n = some mask) : n < 2 ^ 31 := by
  by_contra hn
  rw [maskOf_none (Nat.le_of_not_lt hn)] at hmask
  cases hmask

theorem location_lt (i : Fin n) {rand : ℕ} (hrand : rand ≤ n - i - 1) : i + rand < n := by
  have hi := i.isLt
  omega

def swapNext (mask : BitVec 32) (fuel : ℕ) (s : LocalPermutation n × RandomBuffer) (i : Fin n) :
    Option (LocalPermutation n × RandomBuffer) := do
  let (rand, buffer) ← drawBelow mask (n - i - 1) fuel s.2
  let location : Fin n := ⟨i + rand, location_lt i rand.2⟩
  pure ((Equiv.swap i location).trans s.1, buffer)

/-- A local permutation, unless there is no mask or one of the locations takes more than `fuel` words.
-/
def genPerm (n fuel : ℕ) (generator : CommonPRG) : Option (LocalPermutation n × CommonPRG) := do
  let mask ← maskOf n
  let (permutation, buffer) ← (List.finRange n).foldlM (swapNext mask fuel)
    (Equiv.refl _, RandomBuffer.fill generator)
  pure (permutation, buffer.generator)

/-! More fuel changes nothing. -/

theorem drawBelow_mono {mask : BitVec 32} {bound fuel fuel' : ℕ} (hfuel : fuel ≤ fuel')
    {buffer : RandomBuffer} {r : {rand : ℕ // rand ≤ bound} × RandomBuffer}
    (hr : drawBelow mask bound fuel buffer = some r) :
    drawBelow mask bound fuel' buffer = some r := by
  induction fuel generalizing fuel' buffer with
  | zero => exact absurd hr nofun
  | succ fuel ih =>
      obtain ⟨extra, rfl⟩ := Nat.exists_eq_add_of_le' hfuel
      simp only [drawBelow] at hr ⊢
      split_ifs at hr ⊢
      · exact hr
      · exact ih (Nat.le_add_left fuel extra) hr

theorem swapNext_mono {mask : BitVec 32} {fuel fuel' : ℕ} (hfuel : fuel ≤ fuel') {i : Fin n}
    {s s' : LocalPermutation n × RandomBuffer} (hs : swapNext mask fuel s i = some s') :
    swapNext mask fuel' s i = some s' := by
  obtain ⟨⟨rand, buffer⟩, hdraw, hswap⟩ := Option.bind_eq_some_iff.mp hs
  exact Option.bind_eq_some_iff.mpr ⟨(rand, buffer), drawBelow_mono hfuel hdraw, hswap⟩

theorem foldlM_swapNext_mono {mask : BitVec 32} {fuel fuel' : ℕ} (hfuel : fuel ≤ fuel')
    (is : List (Fin n)) {s s' : LocalPermutation n × RandomBuffer}
    (hs : is.foldlM (swapNext mask fuel) s = some s') :
    is.foldlM (swapNext mask fuel') s = some s' := by
  induction is generalizing s with
  | nil => exact hs
  | cons i is ih =>
      rw [List.foldlM_cons] at hs ⊢
      obtain ⟨mid, hmid, hrest⟩ := Option.bind_eq_some_iff.mp hs
      exact Option.bind_eq_some_iff.mpr ⟨mid, swapNext_mono hfuel hmid, ih hrest⟩

theorem genPerm_mono {fuel fuel' : ℕ} (hfuel : fuel ≤ fuel') {generator : CommonPRG}
    {r : LocalPermutation n × CommonPRG} (hr : genPerm n fuel generator = some r) :
    genPerm n fuel' generator = some r := by
  obtain ⟨mask, hmask, hrun⟩ := Option.bind_eq_some_iff.mp hr
  obtain ⟨s, hs, hfinish⟩ := Option.bind_eq_some_iff.mp hrun
  exact Option.bind_eq_some_iff.mpr
    ⟨mask, hmask, Option.bind_eq_some_iff.mpr ⟨s, foldlM_swapNext_mono hfuel _ hs, hfinish⟩⟩

theorem lt_of_genPerm {fuel : ℕ} {generator : CommonPRG} {r : LocalPermutation n × CommonPRG}
    (hr : genPerm n fuel generator = some r) : n < 2 ^ 31 := by
  obtain ⟨mask, hmask, -⟩ := Option.bind_eq_some_iff.mp hr
  exact lt_of_maskOf hmask

/-- What a generator is shuffled to does not depend on how long one waits for it. -/
theorem genPerm_unique {fuel fuel' : ℕ} {generator : CommonPRG}
    {r r' : LocalPermutation n × CommonPRG} (hr : genPerm n fuel generator = some r)
    (hr' : genPerm n fuel' generator = some r') : r = r' := by
  rcases Nat.le_total fuel fuel' with hle | hle
  · exact Option.some.inj ((genPerm_mono hle hr).symm.trans hr')
  · exact Option.some.inj (hr.symm.trans (genPerm_mono hle hr'))

/-! With a stream of zeros the first word is always in range. -/

section Zeros

variable {key : Keystream} (hkey : ∀ nonce i, key nonce i = 0)
include hkey

theorem fillBatches_zero (batches bytesRemaining nonce : ℕ) :
    ∀ byte ∈ (fillBatches key batches bytesRemaining nonce).1, byte = 0 := by
  induction batches generalizing bytesRemaining nonce with
  | zero => exact fun byte hbyte => absurd hbyte List.not_mem_nil
  | succ batches ih =>
      intro byte hbyte
      rcases List.mem_append.mp hbyte with hbatch | hrest
      · obtain ⟨i, -, rfl⟩ := List.mem_map.mp hbatch
        exact hkey _ i
      · exact ih _ _ byte hrest

omit hkey in
theorem element_zero {size : ElementSize} {buffer : List (BitVec 8)} (hbuffer : ∀ byte ∈ buffer, byte = 0)
    (i : ℕ) : element size buffer i = 0 := by
  have hword : ∀ bytes : List (BitVec 8), (∀ byte ∈ bytes, byte = 0) →
      bytes.foldr (fun byte word => byte.toNat + 256 * word) 0 = 0 := by
    intro bytes hbytes
    induction bytes with
    | nil => rfl
    | cons byte bytes ih =>
        obtain ⟨hbyte, hrest⟩ := List.forall_mem_cons.mp hbytes
        rw [List.foldr_cons, ih hrest, hbyte]
        rfl
  have hpart : ∀ byte ∈ (buffer.drop (i * size.bytes)).take size.bytes, byte = 0 :=
    fun byte hbyte => hbuffer byte (List.drop_subset _ _ (List.take_subset _ _ hbyte))
  rw [element, hword _ hpart]
  rfl

theorem getNextBuffered_zero (size : ElementSize) (n nonce : ℕ) :
    ∀ num ∈ (getNextBuffered key size n nonce).1, num = 0 := by
  induction n using Nat.strong_induction_on generalizing nonce with
  | h n ih =>
      rcases Nat.eq_zero_or_pos n with rfl | hn
      · rw [getNextBuffered_end]
        exact fun num hnum => absurd hnum List.not_mem_nil
      · have hmax := maxElementsInBuffer_pos size
        rw [getNextBuffered_next size key hn]
        intro num hnum
        rcases List.mem_append.mp hnum with hbatch | hrest
        · obtain ⟨i, -, rfl⟩ := List.mem_map.mp hbatch
          exact element_zero (fillBatches_zero hkey _ _ _) i
        · exact ih _ (by omega) _ num hrest

theorem RandomBuffer.fill_zero (nonce : ℕ) (i : Fin MAX_AES_QUERY_BYTES) :
    (RandomBuffer.fill ⟨key, nonce⟩).random i = 0 := by
  have hgetD : ∀ nums : List (BitVec 32), (∀ num ∈ nums, num = 0) → nums.getD i 0 = 0 := by
    intro nums hnums
    rw [List.getD_eq_getElem?_getD]
    cases hi : nums[i.val]? with
    | none => rfl
    | some num => exact hnums num (List.mem_of_getElem? hi)
  exact hgetD _ (getNextBuffered_zero hkey .int32 MAX_AES_QUERY_BYTES nonce)

/-- The buffer holds zeros, and so will the next one. -/
def RandomBuffer.Zeros (key : Keystream) (buffer : RandomBuffer) : Prop :=
  (∀ i, buffer.random i = 0) ∧ buffer.generator.aes = key

theorem RandomBuffer.zeros_fill (nonce : ℕ) : (RandomBuffer.fill ⟨key, nonce⟩).Zeros key :=
  ⟨RandomBuffer.fill_zero hkey nonce, rfl⟩

theorem RandomBuffer.Zeros.read {buffer : RandomBuffer} (hbuffer : buffer.Zeros key) :
    buffer.read.1 = 0 ∧ buffer.read.2.Zeros key := by
  obtain ⟨hrandom, haes⟩ := hbuffer
  refine ⟨hrandom _, ?_⟩
  rw [RandomBuffer.read]
  split
  · exact ⟨hrandom, haes⟩
  · rw [show buffer.generator = ⟨key, buffer.generator.nonce⟩ from by rw [← haes]]
    exact RandomBuffer.zeros_fill hkey _

theorem drawBelow_zeros (mask : BitVec 32) (bound : ℕ) {fuel : ℕ} {buffer : RandomBuffer}
    (hbuffer : buffer.Zeros key) :
    ∃ r, drawBelow mask bound (fuel + 1) buffer = some r ∧ r.2.Zeros key := by
  obtain ⟨hword, hnext⟩ := hbuffer.read hkey
  have hrand : (buffer.read.1 &&& mask).toNat ≤ bound := by
    rw [hword, show (0 : BitVec 32) &&& mask = 0 from BitVec.zero_and]
    exact Nat.zero_le bound
  exact ⟨(⟨_, hrand⟩, buffer.read.2), dif_pos hrand, hnext⟩

theorem genPerm_zeros (hn : n < 2 ^ 31) (fuel nonce : ℕ) :
    (genPerm n (fuel + 1) ⟨key, nonce⟩).isSome := by
  obtain ⟨mask, hmask, -⟩ := maskOf_eq hn
  have hloop : ∀ (is : List (Fin n)) (s : LocalPermutation n × RandomBuffer), s.2.Zeros key →
      ∃ s', is.foldlM (swapNext mask (fuel + 1)) s = some s' := by
    intro is
    induction is with
    | nil => exact fun s _ => ⟨s, rfl⟩
    | cons i is ih =>
        intro s hs
        obtain ⟨r, hdraw, hr⟩ := drawBelow_zeros hkey mask (n - i - 1) hs
        obtain ⟨s', hs'⟩ := ih ((Equiv.swap i ⟨i + r.1, location_lt i r.1.2⟩).trans s.1, r.2) hr
        refine ⟨s', ?_⟩
        rw [List.foldlM_cons]
        exact Option.bind_eq_some_iff.mpr ⟨_, Option.bind_eq_some_iff.mpr ⟨r, hdraw, rfl⟩, hs'⟩
  obtain ⟨s, hs⟩ := hloop (List.finRange n) (Equiv.refl _, RandomBuffer.fill ⟨key, nonce⟩)
    (RandomBuffer.zeros_fill hkey nonce)
  exact Option.isSome_iff_exists.mpr
    ⟨_, Option.bind_eq_some_iff.mpr ⟨mask, hmask, Option.bind_eq_some_iff.mpr ⟨s, hs, rfl⟩⟩⟩

end Zeros

end GenPerm

namespace DMDummyGenerator

open Beaver2PC

section Code

variable (size : ElementSize) {n : ℕ} {Source : Type}

/-- A party computes the other party's `C` as well and drops it. -/
def getNextImpl (rank : Fin 2) (pi : LocalPermutation n) (allPrg : CommonPRG) :
    DMTuple (8 * size.bytes) n × CommonPRG :=
  let (A0, allPrg) := allPrg.getNext size n
  let (B0, allPrg) := allPrg.getNext size n
  let (A1, allPrg) := allPrg.getNext size n
  let (B1, allPrg) := allPrg.getNext size n
  (if rank = 0 then ⟨pi, A1, B1, localApplyPerm A0 pi ^^^ B0⟩
    else ⟨pi, A0, B0, localApplyPerm A1 pi ^^^ B1⟩, allPrg)

/-- This party's permutation: from the generator of the correlation, or else the one of this rank of
two that both parties draw. -/
def drawPerm (n fuel : ℕ) (rank : Fin 2) (allPrg : CommonPRG) :
    (prg : Option CommonPRG) → Option (LocalPermutation n × CommonPRG)
  | some prg => do
      let (pi, _) ← genPerm n fuel prg
      pure (pi, allPrg)
  | none => do
      let (pi0, allPrg) ← genPerm n fuel allPrg
      let (pi1, allPrg) ← genPerm n fuel allPrg
      pure (if rank = 0 then pi0 else pi1, allPrg)

/-- With a generator of the correlation the parties tell each other their permutations. -/
def getNext (n fuel : ℕ) (rank : Fin 2) (allPrg : CommonPRG) (prg : Option CommonPRG) :
    Proc (Fin 2) Source (BitVec 32) (Option (DMTuple (8 * size.bytes) n × CommonPRG)) :=
  match drawPerm n fuel rank allPrg prg with
  | none => pure none
  | some (pi, allPrg) => do
      if prg.isSome then
        let _ ← exchangeShares rank (ElementwisePermutation.ofPerm pi) 1 1
        pure (some (getNextImpl size rank pi allPrg))
      else pure (some (getNextImpl size rank pi allPrg))

/-- Two generators of one fresh seed. -/
def setupDmPair (seed : Keystream) : CommonPRG × CommonPRG := (⟨seed, 0⟩, ⟨seed, 0⟩)

end Code

section Correlations

variable {size : ElementSize} {n fuel : ℕ} {Source : Type} [DecidableEq Source]

variable (size) in
/-- Every party's tuple belongs to one correlation of the parties' permutations. -/
theorem getNextImpl_correlated (hn : n ≤ 2 ^ 31) (pi : Fin 2 → LocalPermutation n)
    (allPrg : CommonPRG) :
    ∃ (perm : DMShardedPermutation (8 * size.bytes) n true) (allPrg' : CommonPRG),
      (∀ rank, getNextImpl size rank (pi rank) allPrg = (perm.getTuple rank, allPrg')) ∧
        ∀ rank, (perm.getTuple rank).pi = pi rank := by
  let A0 := allPrg.getNext size n
  let B0 := A0.2.getNext size n
  let A1 := B0.2.getNext size n
  let B1 := A1.2.getNext size n
  refine ⟨DMShardedPermutation.getNextImpl hn pi ![A0.1, A1.1] ![B0.1, B1.1], B1.2, fun rank => ?_,
    fun rank => rfl⟩
  fin_cases rank
  · rfl
  · rfl

/-- Both parties leave the generator they have in common in the same state. -/
theorem drawPerm_alike {allPrg : CommonPRG} {prg : Option (Fin 2 → CommonPRG)}
    (hdraws : ∀ rank, (drawPerm n fuel rank allPrg (prg.map (· rank))).isSome) :
    ∃ (pi : Fin 2 → LocalPermutation n) (drawn : CommonPRG),
      ∀ rank, drawPerm n fuel rank allPrg (prg.map (· rank)) = some (pi rank, drawn) := by
  cases prg with
  | some prg =>
      choose r hr using fun rank => Option.isSome_iff_exists.mp (hdraws rank)
      refine ⟨fun rank => (r rank).1, allPrg, fun rank => ?_⟩
      obtain ⟨own, hown, hpure⟩ := Option.bind_eq_some_iff.mp (hr rank)
      have hstate : (r rank).2 = allPrg := congrArg Prod.snd (Option.some.inj hpure).symm
      exact (hr rank).trans (congrArg some (Prod.ext rfl hstate))
  | none =>
      obtain ⟨r, hr⟩ := Option.isSome_iff_exists.mp (hdraws 0)
      obtain ⟨first, hfirst, hrest⟩ := Option.bind_eq_some_iff.mp hr
      obtain ⟨second, hsecond, -⟩ := Option.bind_eq_some_iff.mp hrest
      refine ⟨fun rank => if rank = 0 then first.1 else second.1, second.2, fun rank => ?_⟩
      exact Option.bind_eq_some_iff.mpr
        ⟨first, hfirst, Option.bind_eq_some_iff.mpr ⟨second, hsecond, rfl⟩⟩

variable {corr : (Fin 2 → Source → ℕ → BitVec 32) → Prop}

omit [DecidableEq Source] in
variable (size Source) in
theorem getNext_eq {rank : Fin 2} {allPrg drawn : CommonPRG} {prg : Option CommonPRG}
    {pi : LocalPermutation n} (hpi : drawPerm n fuel rank allPrg prg = some (pi, drawn)) :
    (getNext size n fuel rank allPrg prg : Proc (Fin 2) Source (BitVec 32) _) =
      if prg.isSome then do
        let _ ← exchangeShares rank (ElementwisePermutation.ofPerm pi) 1 1
        pure (some (getNextImpl size rank pi drawn))
      else pure (some (getNextImpl size rank pi drawn)) := by
  rw [getNext, hpi]

theorem lt_of_drawPerm {rank : Fin 2} {allPrg : CommonPRG} {prg : Option CommonPRG}
    {r : LocalPermutation n × CommonPRG} (hr : drawPerm n fuel rank allPrg prg = some r) :
    n < 2 ^ 31 := by
  cases prg with
  | some prg =>
      obtain ⟨own, hown, -⟩ := Option.bind_eq_some_iff.mp hr
      exact lt_of_genPerm hown
  | none =>
      obtain ⟨first, hfirst, -⟩ := Option.bind_eq_some_iff.mp hr
      exact lt_of_genPerm hfirst

/-- What the parties generate is a correlation, of the permutations they draw. -/
theorem computes_getNext {allPrg drawn : CommonPRG} {prg : Option (Fin 2 → CommonPRG)}
    {pi : Fin 2 → LocalPermutation n}
    (hpi : ∀ rank, drawPerm n fuel rank allPrg (prg.map (· rank)) = some (pi rank, drawn)) :
    Computes corr
      (fun rank => (getNext size n fuel rank allPrg (prg.map (· rank)) :
        Proc (Fin 2) Source (BitVec 32) _))
      fun y => ∃ (perm : DMShardedPermutation (8 * size.bytes) n true) (after : CommonPRG),
        (∀ rank, y rank = some (perm.getTuple rank, after)) ∧
          ∀ rank, (perm.getTuple rank).pi = pi rank := by
  obtain ⟨perm, after, htuple, hperm⟩ := getNextImpl_correlated size (lt_of_drawPerm (hpi 0)).le pi drawn
  simp only [fun rank => getNext_eq size Source (hpi rank), htuple]
  cases prg with
  | none => exact Computes.pure ⟨perm, after, fun _ => rfl, hperm⟩
  | some prg =>
      refine Computes.of_runs fun tape hcorr =>
        ⟨_, tape, ?_, hcorr, perm, after, fun _ => rfl, hperm⟩
      exact (runs_exchangeShares (fun rank => ElementwisePermutation.ofPerm (pi rank)) 1 1 rfl
        tape).map fun rank _ => some (perm.getTuple rank, after)

end Correlations

/-! The two permutations of a pair, generated one after the other. -/

section Pairs

variable {Source : Type}

/-- `generateBatch` of a pair whose generators were set up from the party's seed. -/
def generatePair (size : ElementSize) (n : ℕ) (fuel : Fin 2 → ℕ) (rank : Fin 2) (allPrg : CommonPRG)
    (seed : Keystream) : Proc (Fin 2) Source (BitVec 32)
      (Option (DMTuple (8 * size.bytes) n × DMTuple (8 * size.bytes) n)) := do
  let pair := setupDmPair seed
  match ← getNext size n (fuel 0) rank allPrg (some pair.1) with
  | none => pure none
  | some (first, allPrg) =>
      match ← getNext size n (fuel 1) rank allPrg (some pair.2) with
      | none => pure none
      | some (second, _) => pure (some (first, second))

variable [DecidableEq Source] {corr : (Fin 2 → Source → ℕ → BitVec 32) → Prop}

/-- The correlations of a pair have the same permutations. -/
theorem computes_generatePair {size : ElementSize} {n : ℕ} {fuel : Fin 2 → ℕ} (allPrg : CommonPRG)
    {seed : Fin 2 → Keystream}
    (hdraws : ∀ k rank, (genPerm n (fuel k) (setupDmPair (seed rank)).1).isSome) :
    Computes corr
      (fun rank => (generatePair size n fuel rank allPrg (seed rank) :
        Proc (Fin 2) Source (BitVec 32) _))
      fun y => ∃ first second : DMShardedPermutation (8 * size.bytes) n true,
        (∀ rank, y rank = some (first.getTuple rank, second.getTuple rank)) ∧
          ∀ rank, (first.getTuple rank).pi = (second.getTuple rank).pi := by
  choose r hr using fun k rank => Option.isSome_iff_exists.mp (hdraws k rank)
  have hdrawn : ∀ k (allPrg : CommonPRG) rank, drawPerm n (fuel k) rank allPrg
      ((some fun rank => (setupDmPair (seed rank)).1).map (· rank)) =
        some ((r 0 rank).1, allPrg) := by
    intro k allPrg rank
    rw [genPerm_unique (hr 0 rank) (hr k rank)]
    exact Option.bind_eq_some_iff.mpr ⟨_, hr k rank, rfl⟩
  refine (computes_getNext (hdrawn 0 allPrg)).bind fun y hy => ?_
  obtain ⟨first, after, hfirst, hfirstPi⟩ := hy
  simp only [hfirst]
  refine (computes_getNext (hdrawn 1 after)).bind fun z hz => ?_
  obtain ⟨second, last, hsecond, hsecondPi⟩ := hz
  simp only [hsecond]
  exact Computes.pure ⟨first, second, fun _ => rfl, fun rank =>
    (hfirstPi rank).trans (hsecondPi rank).symm⟩

end Pairs

end DMDummyGenerator

end CryptDough
