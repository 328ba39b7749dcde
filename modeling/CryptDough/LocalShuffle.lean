import CryptDough.DummyPermutations
import CryptDough.FisherYates
import CryptDough.PrefixNetwork

/-! `gen_perm` on the vector of `int`s, with a buffer of words of any size. The two copies of the
function differ in the size of the buffer only. -/

namespace CryptDough

open FisherYates AESPRGAlgorithm

/-! The loops, over anything words are read from. -/

section Loops

variable {σ : Type} (next : σ → BitVec 32 × σ) {n : ℕ}

/-- `while (rand > size - i - 1)`, with the word it was left with. -/
def drawWith (mask : BitVec 32) (bound : ℕ) :
    (fuel : ℕ) → (rand : BitVec 32) → σ → Option (BitVec 32 × σ)
  | 0, _, _ => none
  | fuel + 1, rand, s =>
      if bound < rand.toNat then drawWith mask bound fuel ((next s).1 &&& mask) (next s).2
      else some (rand, s)

def swapWith (fuel : ℕ) (mask : BitVec 32) (state : Vec 32 n × σ) (i : Fin n) :
    Option (Vec 32 n × σ) := do
  let (rand, s) ← drawWith next mask (n - i - 1) fuel (BitVec.ofNat 32 n) state.2
  if hlocation : i + rand.toNat < n then
    some (state.1 ∘ Equiv.swap i ⟨i + rand.toNat, hlocation⟩, s)
  else none

def shuffleWith (n fuel : ℕ) (start : σ) : Option (Vec 32 n × σ) := do
  let mask ← maskOf n
  (List.finRange n).foldlM (swapWith next fuel mask) (fun j => BitVec.ofNat 32 j, start)

end Loops

/-! The words of a buffer that is filled from a generator. -/

structure WordBuffer (γ : Type) (B : ℕ) where
  random : Vec 32 B
  randIndex : Fin B
  generator : γ

section Buffer

variable {γ : Type} {B : ℕ} [NeZero B] (getNext : γ → Vec 32 B × γ)

namespace WordBuffer

def fill (generator : γ) : WordBuffer γ B := ⟨(getNext generator).1, 0, (getNext generator).2⟩

/-- One word; a buffer that was read to its end is filled again. -/
def read (buffer : WordBuffer γ B) : BitVec 32 × WordBuffer γ B :=
  (buffer.random buffer.randIndex,
    if h : buffer.randIndex + 1 < B then ⟨buffer.random, ⟨buffer.randIndex + 1, h⟩, buffer.generator⟩
    else fill getNext buffer.generator)

end WordBuffer

def genPermWith (n fuel : ℕ) (generator : γ) : Option (Vec 32 n × WordBuffer γ B) :=
  shuffleWith (WordBuffer.read getNext) n fuel (WordBuffer.fill getNext generator)

end Buffer

/-- `gen_perm` of `shuffle.h`, whose `random_buffer_size` is 65536 -/
def Shuffle.genPerm {γ : Type} (getNext : γ → Vec 32 65536 × γ) (n fuel : ℕ) (generator : γ) :=
  genPermWith getNext n fuel generator

instance : NeZero MAX_AES_QUERY_BYTES := ⟨MAX_AES_QUERY_BYTES_pos.ne'⟩

/-- `gen_perm` of the sharded permutations -/
def HMShardedPermutation.genPerm {γ : Type}
    (getNext : γ → Vec 32 MAX_AES_QUERY_BYTES × γ) (n fuel : ℕ) (generator : γ) :=
  genPermWith getNext n fuel generator

/-! The words of a generator in the order they are generated, whatever the buffer. -/

section Stream

variable {γ : Type} {B : ℕ} [NeZero B] (getNext : γ → Vec 32 B × γ) (generator : γ)

/-- The generator after some buffers. -/
def generatorAfter (buffers : ℕ) : γ := (fun g => (getNext g).2)^[buffers] generator

def indexOf (B : ℕ) [NeZero B] (p : ℕ) : Fin B := ⟨p % B, Nat.mod_lt p (NeZero.pos B)⟩

def word (p : ℕ) : BitVec 32 := (getNext (generatorAfter getNext generator (p / B))).1 (indexOf B p)

/-- The buffer when `p` words were read. -/
def bufferAt (p : ℕ) : WordBuffer γ B :=
  ⟨(getNext (generatorAfter getNext generator (p / B))).1, indexOf B p,
    generatorAfter getNext generator (p / B + 1)⟩

omit [NeZero B] in
theorem generatorAfter_succ (buffers : ℕ) :
    (getNext (generatorAfter getNext generator buffers)).2 =
      generatorAfter getNext generator (buffers + 1) :=
  (Function.iterate_succ_apply' (fun g => (getNext g).2) buffers generator).symm

theorem fill_eq : WordBuffer.fill getNext generator = bufferAt getNext generator 0 := by
  have hzero : indexOf B 0 = 0 := Fin.ext (Nat.zero_mod B)
  rw [bufferAt, hzero, Nat.zero_div]
  rfl

/-- Reading a word moves to the next one of the stream: none is left out and none is read twice. -/
theorem read_bufferAt (p : ℕ) : WordBuffer.read getNext (bufferAt getNext generator p) =
    (word getNext generator p, bufferAt getNext generator (p + 1)) := by
  have hpos := NeZero.pos B
  have hp := Nat.div_add_mod p B
  refine Prod.ext rfl ?_
  by_cases hnext : p % B + 1 < B
  · have hdiv : (p + 1) / B = p / B := by
      rw [← hp, Nat.add_assoc, Nat.mul_add_div hpos, Nat.div_eq_of_lt hnext, Nat.mul_add_div hpos,
        Nat.div_eq_of_lt (Nat.mod_lt p hpos)]
    have hmod : (p + 1) % B = p % B + 1 := by
      rw [← hp, Nat.add_assoc, Nat.mul_add_mod, Nat.mod_eq_of_lt hnext, Nat.mul_add_mod, Nat.mod_mod]
    have hindex : indexOf B (p + 1) = ⟨p % B + 1, hnext⟩ := Fin.ext hmod
    have hbuffer : bufferAt getNext generator (p + 1) =
        ⟨(getNext (generatorAfter getNext generator (p / B))).1, ⟨p % B + 1, hnext⟩,
          generatorAfter getNext generator (p / B + 1)⟩ := by
      rw [bufferAt, hdiv, hindex]
    exact (dif_pos hnext).trans hbuffer.symm
  · have hfull : p % B + 1 = B := Nat.le_antisymm (Nat.mod_lt p hpos) (Nat.le_of_not_lt hnext)
    have hdiv : (p + 1) / B = p / B + 1 := by
      rw [← hp, Nat.add_assoc, Nat.mul_add_div hpos, hfull, Nat.div_self hpos, Nat.mul_add_div hpos,
        Nat.div_eq_of_lt (Nat.mod_lt p hpos)]
    have hmod : (p + 1) % B = 0 := by
      rw [← hp, Nat.add_assoc, Nat.mul_add_mod, hfull, Nat.mod_self]
    have hindex : indexOf B (p + 1) = 0 := Fin.ext hmod
    have hbuffer : bufferAt getNext generator (p + 1) =
        WordBuffer.fill getNext (generatorAfter getNext generator (p / B + 1)) := by
      rw [bufferAt, hdiv, hindex, ← generatorAfter_succ getNext generator (p / B + 1)]
      rfl
    exact (dif_neg hnext).trans hbuffer.symm

end Stream

/-! Reading from a buffer is reading the stream. -/

section Simulation

variable {σ : Type} {next : σ → BitVec 32 × σ} {words : ℕ → BitVec 32} {state : ℕ → σ} {n : ℕ}

def readStream (words : ℕ → BitVec 32) (p : ℕ) : BitVec 32 × ℕ := (words p, p + 1)

section

variable (hnext : ∀ p, next (state p) = (words p, state (p + 1)))
include hnext

theorem drawWith_stream (mask : BitVec 32) (bound fuel : ℕ) (rand : BitVec 32) (p : ℕ) :
    drawWith next mask bound fuel rand (state p) =
      (drawWith (readStream words) mask bound fuel rand p).map (Prod.map id state) := by
  induction fuel generalizing rand p with
  | zero => rfl
  | succ fuel ih =>
      rw [drawWith, drawWith, hnext]
      split
      · exact ih _ _
      · rfl

theorem swapWith_stream (fuel : ℕ) (mask : BitVec 32) (perm : Vec 32 n) (p : ℕ) (i : Fin n) :
    swapWith next fuel mask (perm, state p) i =
      (swapWith (readStream words) fuel mask (perm, p) i).map (Prod.map id state) := by
  rw [swapWith, swapWith, drawWith_stream hnext]
  cases drawWith (readStream words) mask (n - i - 1) fuel (BitVec.ofNat 32 n) p with
  | none => rfl
  | some drawn =>
      simp only [Option.map_some, Option.bind_eq_bind, Option.bind_some, Prod.map_fst, Prod.map_snd,
        id_eq]
      split
      · rfl
      · rfl

theorem foldlM_swapWith_stream (fuel : ℕ) (mask : BitVec 32) (l : List (Fin n)) (perm : Vec 32 n)
    (p : ℕ) :
    l.foldlM (swapWith next fuel mask) (perm, state p) =
      (l.foldlM (swapWith (readStream words) fuel mask) (perm, p)).map (Prod.map id state) := by
  induction l generalizing perm p with
  | nil => rfl
  | cons i l ih =>
      rw [List.foldlM_cons, List.foldlM_cons, swapWith_stream hnext]
      cases swapWith (readStream words) fuel mask (perm, p) i with
      | none => rfl
      | some mid => exact ih mid.1 mid.2

theorem shuffleWith_stream (n fuel : ℕ) : shuffleWith next n fuel (state 0) =
    (shuffleWith (readStream words) n fuel 0).map (Prod.map id state) := by
  rw [shuffleWith, shuffleWith]
  cases maskOf n with
  | none => rfl
  | some mask => exact foldlM_swapWith_stream hnext fuel mask _ _ 0

end

/-- The permutation does not depend on where the buffer is filled again. -/
theorem genPermWith_eq {γ : Type} {B : ℕ} [NeZero B] (getNext : γ → Vec 32 B × γ) (generator : γ)
    (n fuel : ℕ) : genPermWith getNext n fuel generator =
      (shuffleWith (readStream (word getNext generator)) n fuel 0).map
        (Prod.map id (bufferAt getNext generator)) := by
  rw [genPermWith, fill_eq]
  exact shuffleWith_stream (read_bufferAt getNext generator) n fuel

end Simulation

/-! The accepted draws of a stream. -/

section Accepted

variable {n : ℕ} (words : ℕ → BitVec 32)

/-- A word as a number of as many bits as `n` has. -/
def candidate (n : ℕ) (random : BitVec 32) : ℕ := random.toNat % 2 ^ n.size

/-- The draws of the positions of a list are the words accepted from `p` on: every word before the one
accepted is out of the range of the position, which is all of the positions not before it. -/
def Accepts (draws : Offsets n) : List (Fin n) → ℕ → Prop
  | [], _ => True
  | i :: rest, p => ∃ skipped, (∀ k < skipped, n - i - 1 < candidate n (words (p + k))) ∧
      candidate n (words (p + skipped)) = draws i ∧ Accepts draws rest (p + skipped + 1)

end Accepted

/-- Every run that ends has shuffled by the accepted draws of its stream, a run ends once there are as
many, every sequence of draws is accepted from some stream, and each gives a permutation of its own. -/
structure Unbiased (n : ℕ) : Prop where
  shuffled : ∀ {γ : Type} {B : ℕ} [NeZero B] (getNext : γ → Vec 32 B × γ) (generator : γ) fuel out buffer,
    genPermWith getNext n fuel generator = some (out, buffer) →
    ∃ draws : Offsets n, Accepts (word getNext generator) draws (List.finRange n) 0 ∧
      ∀ j, (out j).toInt = (shuffle draws j).val
  ends : ∀ {γ : Type} {B : ℕ} [NeZero B] (getNext : γ → Vec 32 B × γ) (generator : γ) (draws : Offsets n),
    Accepts (word getNext generator) draws (List.finRange n) 0 →
    ∃ fuel, (genPermWith getNext n fuel generator).isSome
  attained : ∀ draws : Offsets n, ∃ words, Accepts words draws (List.finRange n) 0
  bijective : Function.Bijective (shuffle (n := n))

section Runs

variable {n : ℕ} {words : ℕ → BitVec 32} {mask : BitVec 32}

theorem and_mask (hmask : mask.toNat = 2 ^ n.size - 1) (random : BitVec 32) :
    (random &&& mask).toNat = candidate n random := by
  rw [BitVec.toNat_and, hmask, Nat.and_two_pow_sub_one_eq_mod, candidate]

section

variable (hmask : mask.toNat = 2 ^ n.size - 1)
include hmask

theorem drawWith_some {bound fuel p q : ℕ} {rand drawn : BitVec 32} (hrand : bound < rand.toNat)
    (hrun : drawWith (readStream words) mask bound fuel rand p = some (drawn, q)) :
    drawn.toNat ≤ bound ∧ ∃ skipped, (∀ k < skipped, bound < candidate n (words (p + k))) ∧
      drawn.toNat = candidate n (words (p + skipped)) ∧ q = p + skipped + 1 := by
  induction fuel generalizing rand p with
  | zero => cases hrun
  | succ fuel ih =>
      rw [drawWith, if_pos hrand] at hrun
      change drawWith (readStream words) mask bound fuel (words p &&& mask) (p + 1) = _ at hrun
      have hword := and_mask hmask (words p)
      by_cases hout : bound < (words p &&& mask).toNat
      · obtain ⟨hle, skipped, hskipped, hdrawn, hq⟩ := ih hout hrun
        refine ⟨hle, skipped + 1, ?_, ?_, ?_⟩
        · intro k hk
          cases k with
          | zero => rwa [hword] at hout
          | succ k =>
              rw [Nat.add_comm k 1, ← Nat.add_assoc]
              exact hskipped k (Nat.lt_of_succ_lt_succ hk)
        · rw [hdrawn, Nat.add_comm skipped 1, Nat.add_assoc]
        · rw [hq]
          omega
      · cases fuel with
        | zero => cases hrun
        | succ fuel =>
            rw [drawWith, if_neg hout] at hrun
            cases hrun
            exact ⟨Nat.le_of_not_lt hout, 0, fun k hk => absurd hk (Nat.not_lt_zero k), hword, rfl⟩

theorem drawWith_accepted {bound skipped fuel p : ℕ} {rand : BitVec 32} (hrand : bound < rand.toNat)
    (hskipped : ∀ k < skipped, bound < candidate n (words (p + k)))
    (haccepted : candidate n (words (p + skipped)) ≤ bound) (hfuel : skipped + 2 ≤ fuel) :
    drawWith (readStream words) mask bound fuel rand p =
      some (words (p + skipped) &&& mask, p + skipped + 1) := by
  induction skipped generalizing rand p fuel with
  | zero =>
      obtain ⟨rest, rfl⟩ : ∃ rest, fuel = rest + 2 := ⟨fuel - 2, by omega⟩
      have hword := and_mask hmask (words p)
      rw [drawWith, if_pos hrand, drawWith, if_neg]
      · rfl
      · change ¬ bound < (words p &&& mask).toNat
        rw [hword]
        exact Nat.not_lt_of_le haccepted
  | succ skipped ih =>
      obtain ⟨rest, rfl⟩ : ∃ rest, fuel = rest + 1 := ⟨fuel - 1, by omega⟩
      have hword := and_mask hmask (words p)
      have hshift : ∀ k, p + 1 + k = p + (k + 1) := fun k => by omega
      rw [drawWith, if_pos hrand, ← hshift]
      refine ih (p := p + 1) ?_ ?_ ?_ (by omega)
      · change bound < (words p &&& mask).toNat
        rw [hword]
        exact hskipped 0 (Nat.succ_pos _)
      · intro k hk
        rw [hshift]
        exact hskipped (k + 1) (by omega)
      · rwa [hshift]

theorem swapWith_some (hn : n < 2 ^ 31) {fuel p q : ℕ} {perm perm' : Vec 32 n} {i : Fin n}
    (hrun : swapWith (readStream words) fuel mask (perm, p) i = some (perm', q)) :
    ∃ (draw : Fin (n - i)) (skipped : ℕ), (∀ k < skipped, n - i - 1 < candidate n (words (p + k))) ∧
      candidate n (words (p + skipped)) = draw ∧ q = p + skipped + 1 ∧
      ∀ draws : Offsets n, draws i = draw → perm' = perm ∘ Equiv.swap i (location draws i) := by
  have hi := i.isLt
  have hsize : (BitVec.ofNat 32 n).toNat = n := Nat.mod_eq_of_lt (by omega)
  obtain ⟨⟨drawn, q'⟩, hdraw, hswap⟩ := Option.bind_eq_some_iff.mp hrun
  obtain ⟨hle, skipped, hskipped, hdrawn, rfl⟩ := drawWith_some hmask (by omega) hdraw
  have hlt : i.val + drawn.toNat < n := by omega
  have hresult := (dif_pos hlt).symm.trans hswap
  cases hresult
  refine ⟨⟨drawn.toNat, by omega⟩, skipped, hskipped, hdrawn.symm, rfl, fun draws hdraws => ?_⟩
  have hloc : location draws i = ⟨i + drawn.toNat, hlt⟩ :=
    Fin.ext (congrArg (fun draw : Fin (n - i) => i.val + draw) hdraws)
  rw [hloc]

theorem swapWith_accepted (hn : n < 2 ^ 31) {fuel p skipped : ℕ} {draws : Offsets n} {i : Fin n}
    (perm : Vec 32 n) (hskipped : ∀ k < skipped, n - i - 1 < candidate n (words (p + k)))
    (haccepted : candidate n (words (p + skipped)) = draws i) (hfuel : skipped + 2 ≤ fuel) :
    swapWith (readStream words) fuel mask (perm, p) i =
      some (perm ∘ Equiv.swap i (location draws i), p + skipped + 1) := by
  have hi := i.isLt
  have hdraw := (draws i).isLt
  have hsize : (BitVec.ofNat 32 n).toNat = n := Nat.mod_eq_of_lt (by omega)
  have hrand : (words (p + skipped) &&& mask).toNat = draws i := by rw [and_mask hmask, haccepted]
  have hlt : i.val + (words (p + skipped) &&& mask).toNat < n := by omega
  have hloc : location draws i = ⟨i + (words (p + skipped) &&& mask).toNat, hlt⟩ :=
    Fin.ext (congrArg (i.val + ·) hrand.symm)
  rw [swapWith, drawWith_accepted hmask (by omega) hskipped (by omega) hfuel, hloc]
  exact dif_pos hlt

end

theorem Accepts.congr {draws draws' : Offsets n} {l : List (Fin n)} {p : ℕ}
    (hdraws : ∀ i ∈ l, draws i = draws' i) (haccepts : Accepts words draws l p) :
    Accepts words draws' l p := by
  induction l generalizing p with
  | nil => exact trivial
  | cons i l ih =>
      obtain ⟨skipped, hskipped, haccepted, hrest⟩ := haccepts
      refine ⟨skipped, hskipped, ?_, ih (fun j hj => hdraws j (List.mem_cons_of_mem i hj)) hrest⟩
      rw [haccepted, hdraws i List.mem_cons_self]

/-- A run over the positions of a list shuffles by the accepted draws. -/
theorem foldlM_swapWith_some (hn : n < 2 ^ 31) (hmask : mask.toNat = 2 ^ n.size - 1) {fuel q : ℕ}
    {l : List (Fin n)} (hnodup : l.Nodup) {p : ℕ} {perm perm' : Vec 32 n}
    (hrun : l.foldlM (swapWith (readStream words) fuel mask) (perm, p) = some (perm', q)) :
    ∃ draws : Offsets n, Accepts words draws l p ∧ perm' = perm ∘ swaps draws l := by
  induction l generalizing p perm with
  | nil =>
      cases hrun
      exact ⟨fun i => ⟨0, Nat.sub_pos_of_lt i.isLt⟩, trivial, rfl⟩
  | cons i l ih =>
      rw [List.foldlM_cons] at hrun
      obtain ⟨⟨mid, p'⟩, hswap, hrest⟩ := Option.bind_eq_some_iff.mp hrun
      obtain ⟨draw, skipped, hskipped, haccepted, rfl, hmid⟩ := swapWith_some hmask hn hswap
      obtain ⟨draws, haccepts, hperm⟩ := ih (List.nodup_cons.mp hnodup).2 hrest
      have hothers : ∀ j ∈ l, draws j = Function.update draws i draw j := by
        intro j hj
        have hne : j ≠ i := fun heq => (List.nodup_cons.mp hnodup).1 (heq ▸ hj)
        exact (Function.update_of_ne hne draw draws).symm
      refine ⟨Function.update draws i draw, ⟨skipped, hskipped, ?_, haccepts.congr hothers⟩, ?_⟩
      · rw [haccepted, Function.update_self]
      · rw [hperm, hmid _ (Function.update_self i draw draws), swaps_cons, swaps_congr hothers]
        rfl

/-- A run over the positions of a list ends if enough words are accepted. -/
theorem foldlM_swapWith_accepted (hn : n < 2 ^ 31) (hmask : mask.toNat = 2 ^ n.size - 1)
    {draws : Offsets n} {l : List (Fin n)} {p : ℕ} (haccepts : Accepts words draws l p)
    (perm : Vec 32 n) :
    ∃ enough, ∀ fuel, enough ≤ fuel →
      (l.foldlM (swapWith (readStream words) fuel mask) (perm, p)).isSome := by
  induction l generalizing p perm with
  | nil => exact ⟨0, fun fuel _ => rfl⟩
  | cons i l ih =>
      obtain ⟨skipped, hskipped, haccepted, hrest⟩ := haccepts
      obtain ⟨enough, hends⟩ := ih hrest (perm ∘ Equiv.swap i (location draws i))
      refine ⟨max (skipped + 2) enough, fun fuel hfuel => ?_⟩
      rw [List.foldlM_cons, swapWith_accepted hmask hn perm hskipped haccepted (by omega)]
      exact hends fuel (by omega)

end Runs

section Results

variable {n : ℕ}

/-- Words that are accepted at once. -/
theorem accepts_draws (hn : n < 2 ^ 31) (draws : Offsets n) :
    ∃ words, Accepts words draws (List.finRange n) 0 := by
  have hall : ∀ (l : List (Fin n)) (p : ℕ) (words : ℕ → BitVec 32),
      (∀ k (hk : k < l.length), (words (p + k)).toNat = draws (l.get ⟨k, hk⟩)) →
      Accepts words draws l p := by
    intro l
    induction l with
    | nil => exact fun p words _ => trivial
    | cons i l ih =>
        intro p words hwords
        have hdraw := (draws i).isLt
        have hlt : (draws i).val < 2 ^ n.size := lt_of_lt_of_le (by omega) (Nat.lt_size_self n).le
        refine ⟨0, fun k hk => absurd hk (Nat.not_lt_zero k), ?_, ih _ _ fun k hk => ?_⟩
        · rw [candidate, hwords 0 (Nat.succ_pos _)]
          exact Nat.mod_eq_of_lt hlt
        · rw [Nat.add_zero, Nat.add_assoc, Nat.add_comm 1 k]
          exact hwords (k + 1) (Nat.succ_lt_succ hk)
  obtain ⟨words, hwords⟩ : ∃ words : ℕ → BitVec 32, ∀ i : Fin n, (words i).toNat = draws i := by
    refine ⟨fun p => if hp : p < n then BitVec.ofNat 32 (draws ⟨p, hp⟩) else 0, fun i => ?_⟩
    have hdraw := (draws i).isLt
    simp only [dif_pos i.isLt]
    exact Nat.mod_eq_of_lt (by omega)
  refine ⟨words, hall _ 0 words fun k hk => ?_⟩
  have hkn : k < n := lt_of_lt_of_eq hk List.length_finRange
  have hget : (List.finRange n).get ⟨k, hk⟩ = ⟨k, hkn⟩ := List.getElem_finRange hk
  rw [Nat.zero_add, hget]
  exact hwords ⟨k, hkn⟩

theorem toInt_ofNat_index (hn : n < 2 ^ 31) (j : Fin n) : (BitVec.ofNat 32 j).toInt = j := by
  have hj := j.isLt
  have hnat : (BitVec.ofNat 32 j).toNat = j := Nat.mod_eq_of_lt (by omega)
  rw [BitVec.toInt_eq_toNat_of_lt (by omega), hnat]

theorem unbiased_of_lt (hn : n < 2 ^ 31) : Unbiased n := by
  obtain ⟨mask, hsome, hmask⟩ := maskOf_eq hn
  constructor
  · intro γ B _ getNext generator fuel out buffer hrun
    rw [genPermWith_eq] at hrun
    obtain ⟨⟨perm, q⟩, hstream, hout⟩ := Option.map_eq_some_iff.mp hrun
    rw [shuffleWith, hsome] at hstream
    obtain ⟨draws, haccepts, hperm⟩ := foldlM_swapWith_some hn hmask (List.nodup_finRange n) hstream
    refine ⟨draws, haccepts, fun j => ?_⟩
    have hj : out j = BitVec.ofNat 32 (shuffle draws j) := by
      have hfst : perm = out := congrArg Prod.fst hout
      rw [← hfst, hperm]
      rfl
    rw [hj, toInt_ofNat_index hn]
  · intro γ B _ getNext generator draws haccepts
    obtain ⟨enough, hends⟩ := foldlM_swapWith_accepted hn hmask haccepts fun j => BitVec.ofNat 32 j
    refine ⟨enough, ?_⟩
    rw [genPermWith_eq, Option.isSome_map, shuffleWith, hsome]
    exact hends enough (Nat.le_refl enough)
  · exact accepts_draws hn
  · exact shuffle_bijective

/-- Without a mask no run ends, whatever the words. -/
theorem not_unbiased_of_le (hn : 2 ^ 31 ≤ n) : ¬ Unbiased n := by
  intro hunbiased
  let zeros : Unit → Vec 32 1 × Unit := fun _ => (fun _ => 0, ())
  let draws : Offsets n := fun i => ⟨0, Nat.sub_pos_of_lt i.isLt⟩
  have haccepts : ∀ (l : List (Fin n)) (p : ℕ), Accepts (word zeros ()) draws l p := by
    intro l
    induction l with
    | nil => exact fun p => trivial
    | cons i l ih =>
        exact fun p => ⟨0, fun k hk => absurd hk (Nat.not_lt_zero k), Nat.zero_mod _, ih _⟩
  obtain ⟨fuel, hends⟩ := hunbiased.ends zeros () draws (haccepts _ 0)
  rw [genPermWith, shuffleWith, maskOf_none hn] at hends
  cases hends

/-- Local permutations are unbiased exactly while the mask is a shift of an `int`. -/
theorem unbiased_iff (n : ℕ) : Unbiased n ↔ n < 2 ^ 31 := by
  constructor
  · intro hunbiased
    by_contra hn
    exact not_unbiased_of_le (Nat.le_of_not_lt hn) hunbiased
  · exact unbiased_of_lt

theorem not_unbiased_two_pow : ¬ Unbiased (2 ^ 31) := not_unbiased_of_le (Nat.le_refl _)

end Results

/-! The permutations of the dummy generators are these, with the type for what was proved of them. -/

section Dummy

variable {n : ℕ}

def RandomBuffer.toWords (buffer : RandomBuffer) : WordBuffer CommonPRG MAX_AES_QUERY_BYTES :=
  ⟨buffer.random, buffer.randIndex, buffer.generator⟩

def nextWords (generator : CommonPRG) : Vec 32 MAX_AES_QUERY_BYTES × CommonPRG :=
  generator.getNext .int32 MAX_AES_QUERY_BYTES

def asInts (perm : LocalPermutation n) : Vec 32 n := fun j => BitVec.ofNat 32 (perm j)

theorem read_toWords (buffer : RandomBuffer) : WordBuffer.read nextWords buffer.toWords =
    (buffer.read.1, buffer.read.2.toWords) := by
  refine Prod.ext rfl ?_
  by_cases hnext : buffer.randIndex + 1 < MAX_AES_QUERY_BYTES
  · have hread : buffer.read.2 = ⟨buffer.random, ⟨buffer.randIndex + 1, hnext⟩, buffer.generator⟩ :=
      dif_pos hnext
    rw [hread]
    exact dif_pos hnext
  · have hread : buffer.read.2 = RandomBuffer.fill buffer.generator := dif_neg hnext
    rw [hread]
    exact dif_neg hnext

theorem drawWith_toWords {mask : BitVec 32} {bound fuel : ℕ} {rand : BitVec 32} {buffer : RandomBuffer}
    (hrand : bound < rand.toNat) :
    drawWith (WordBuffer.read nextWords) mask bound (fuel + 1) rand buffer.toWords =
      (drawBelow mask bound fuel buffer).map fun r => (BitVec.ofNat 32 r.1, r.2.toWords) := by
  induction fuel generalizing rand buffer with
  | zero =>
      rw [drawWith, if_pos hrand]
      rfl
  | succ fuel ih =>
      rw [drawWith, if_pos hrand, read_toWords, drawBelow]
      by_cases hout : bound < (buffer.read.1 &&& mask).toNat
      · rw [dif_neg (Nat.not_le_of_lt hout)]
        exact ih hout
      · rw [dif_pos (Nat.le_of_not_lt hout), drawWith, if_neg hout, Option.map_some]
        simp only [BitVec.ofNat_toNat, BitVec.setWidth_eq]

theorem swapWith_toWords (hn : n < 2 ^ 31) (mask : BitVec 32) (fuel : ℕ) (perm : LocalPermutation n)
    (buffer : RandomBuffer) (i : Fin n) :
    swapWith (WordBuffer.read nextWords) (fuel + 1) mask (asInts perm, buffer.toWords) i =
      (swapNext mask fuel (perm, buffer) i).map (Prod.map asInts RandomBuffer.toWords) := by
  have hi := i.isLt
  have hsize : (BitVec.ofNat 32 n).toNat = n := Nat.mod_eq_of_lt (by omega)
  rw [swapWith, swapNext, drawWith_toWords (by omega)]
  cases drawBelow mask (n - i - 1) fuel buffer with
  | none => rfl
  | some drawn =>
      obtain ⟨⟨draw, hdraw⟩, buffer'⟩ := drawn
      have hnat : (BitVec.ofNat 32 draw).toNat = draw := Nat.mod_eq_of_lt (by omega)
      have hlt : i.val + (BitVec.ofNat 32 draw).toNat < n := by omega
      have hloc : (⟨i + draw, location_lt i hdraw⟩ : Fin n) =
          ⟨i + (BitVec.ofNat 32 draw).toNat, hlt⟩ := Fin.ext (congrArg (i.val + ·) hnat.symm)
      simp only [Option.map_some, Option.bind_eq_bind, Option.bind_some, Option.pure_def]
      rw [hloc]
      exact dif_pos hlt

theorem foldlM_swapWith_toWords (hn : n < 2 ^ 31) (mask : BitVec 32) (fuel : ℕ) (l : List (Fin n))
    (perm : LocalPermutation n) (buffer : RandomBuffer) :
    l.foldlM (swapWith (WordBuffer.read nextWords) (fuel + 1) mask) (asInts perm, buffer.toWords) =
      (l.foldlM (swapNext mask fuel) (perm, buffer)).map (Prod.map asInts RandomBuffer.toWords) := by
  induction l generalizing perm buffer with
  | nil => rfl
  | cons i l ih =>
      rw [List.foldlM_cons, List.foldlM_cons, swapWith_toWords hn]
      cases swapNext mask fuel (perm, buffer) i with
      | none => rfl
      | some mid => exact ih mid.1 mid.2

theorem genPerm_eq_genPermWith (fuel : ℕ) (generator : CommonPRG) :
    (HMShardedPermutation.genPerm nextWords n (fuel + 1) generator).map Prod.fst =
      (genPerm n fuel generator).map fun r => asInts r.1 := by
  rw [HMShardedPermutation.genPerm, genPermWith, shuffleWith, genPerm]
  cases hmask : maskOf n with
  | none => rfl
  | some mask =>
      have hrun := foldlM_swapWith_toWords (lt_of_maskOf hmask) mask fuel (List.finRange n)
        (Equiv.refl _) (RandomBuffer.fill generator)
      apply (congrArg (Option.map Prod.fst) hrun).trans
      cases hlast : (List.finRange n).foldlM (swapNext mask fuel)
          (Equiv.refl _, RandomBuffer.fill generator) with
      | none => simp [hlast]
      | some last => simp [hlast]

end Dummy

end CryptDough
