import CryptDough.Replicated3PC
import Mathlib.Tactic.Abel

/-! Conversions between the two encodings in the three-party protocol: a boolean bit becomes an
arithmetic value, and an arithmetic sharing becomes two boolean ones that add up to it. -/

namespace CryptDough.Replicated3PC

open Process Sharing Communicator

variable {w n : ℕ}

/-- The bit is split into the XOR of the parts 0 and 1, which the first party knows, and part 2,
which the second knows; both are shared additively and their difference is squared. -/
def b2aBit (partyID : Fin 3) (x : EVec scheme w n) : Program w (EVec scheme w n) := do
  let masked : EVec scheme w n := fun r => Vec.mask (x r) 1
  let second := if partyID = 0 then masked 1 ^^^ masked 0 else masked 1
  let zero0 ← getNext .zeroArithmetic n
  let zero1 ← getNext .zeroArithmetic n
  let s0 := if partyID = 0 then zero0 + second else zero0
  let s1 := if partyID = 1 then zero1 + second else zero1
  let remote0 ← exchangeShares partyID s0 2 1
  let remote1 ← exchangeShares partyID s1 2 1
  multiplyA partyID ![s0 - s1, remote0 - remote1] ![s0 - s1, remote0 - remote1]

/-- The first party shares `x 0 + x 1` and the third `x 2`, each drawing the parts it does not send
from the tapes it has in common with the parties that keep them. -/
def redistributeSharesB (partyID : Fin 3) (x : EVec scheme w n) :
    Program w (EVec scheme w n × EVec scheme w n) :=
  match partyID with
  | 0 => do
      let vec1_x1 ← getNext (.common 1) n
      let vec1_x2 ← getNext .commonAll n
      let vec1 := (x 0 + x 1) ^^^ vec1_x1 ^^^ vec1_x2
      let vec2_x0 ← getNext (.common (-1)) n
      let vec2_x1 ← getNext .commonAll n
      sendShares 0 2 vec1
      pure (![vec1, vec1_x1], ![vec2_x0, vec2_x1])
  | 1 => do
      let vec1_x1 ← getNext (.common (-1)) n
      let vec1_x2 ← getNext .commonAll n
      let vec2_x1 ← getNext .commonAll n
      let vec2_x2 ← receiveShares 1 1 n
      pure (![vec1_x1, vec1_x2], ![vec2_x1, vec2_x2])
  | 2 => do
      let vec1_x2 ← getNext .commonAll n
      let vec2_x0 ← getNext (.common 1) n
      let vec2_x1 ← getNext .commonAll n
      let vec2_x2 := x 0 ^^^ vec2_x0 ^^^ vec2_x1
      let vec1_x0 ← exchangeShares 2 vec2_x2 2 1
      pure (![vec1_x2, vec1_x0], ![vec2_x2, vec2_x0])

/-- The additive share of the first two parts' XOR, and of the third part, that `b2aBit` passes on. -/
def bitShare (x : scheme.Shares (Vec w n)) (tape : Fin 3 → Source → ℕ → BitVec w) (p : Fin 3) :
    Vec w n × Vec w n :=
  let second := if p = 0 then Vec.mask (x p 1) 1 ^^^ Vec.mask (x p 0) 1 else Vec.mask (x p 1) 1
  let zero0 : Vec w n := fun i => tape p .zeroArithmetic i
  let zero1 : Vec w n := fun i => tape p .zeroArithmetic (n + i)
  (if p = 0 then zero0 + second else zero0, if p = 1 then zero1 + second else zero1)

theorem bitShare_opens (x : scheme.Shares (Vec w n)) {tape : Fin 3 → Source → ℕ → BitVec w}
    (hcorr : Correlated tape) :
    OpensA (Scheme.deal fun p => (bitShare x tape p).1 - (bitShare x tape p).2 :
        scheme.Shares (Vec w n))
      (Vec.mask (x 0 1 ^^^ x 0 0) 1 - Vec.mask (x 1 1) 1) := by
  refine ⟨⟨_, rfl⟩, ?_⟩
  rw [reconstruct_deal, combine_three, Vec.mask_xor]
  funext i
  have hzero0 := hcorr.zeroArithmetic i
  have hzero1 := hcorr.zeroArithmetic (n + i)
  have h10 : ¬ (1 : Fin 3) = 0 := by decide
  have h01 : ¬ (0 : Fin 3) = 1 := by decide
  have h20 : ¬ (2 : Fin 3) = 0 := by decide
  have h21 : ¬ (2 : Fin 3) = 1 := by decide
  simp only [bitShare, if_true, h10, h01, h20, h21, if_false, Pi.add_apply, Pi.sub_apply]
  calc _ = (tape 0 .zeroArithmetic i + tape 1 .zeroArithmetic i + tape 2 .zeroArithmetic i) -
        (tape 0 .zeroArithmetic (n + i) + tape 1 .zeroArithmetic (n + i) +
          tape 2 .zeroArithmetic (n + i)) +
        ((Vec.mask (x 0 1) 1 ^^^ Vec.mask (x 0 0) 1) i - Vec.mask (x 1 1) 1 i) := by abel
    _ = _ := by rw [hzero0, hzero1, sub_zero, zero_add]

theorem computes_b2aBit {x : scheme.Shares (Vec w n)} {a : Vec w n} (hx : OpensB x a) :
    Computes Correlated (fun p => b2aBit p (x p)) fun z : scheme.Shares (Vec w n) =>
      OpensA z (Vec.mask a 1) := by
  refine Computes.of_runs fun tape hcorr => ?_
  have hshare := bitShare_opens x hcorr
  have hcorr' := (hcorr.advance_zeroArithmetic n).advance_zeroArithmetic n
  obtain ⟨value, tape', hdel, hcorr'', hpost⟩ := computes_multiplyA hshare hshare _ hcorr'
  refine ⟨value, tape', ?_, hcorr'', ?_⟩
  · rw [delivers_iff_runs, deal_eq] at hdel
    refine (runs_getNext .zeroArithmetic tape).bind ((runs_getNext .zeroArithmetic _).bind ?_)
    apply (runs_exchangeShares (fun p => (bitShare x tape p).1) 2 1 rfl _).bind
    exact (runs_exchangeShares (fun p => (bitShare x tape p).2) 2 1 rfl _).bind hdel
  · have hcopies := consistent_iff.mp hx.1
    have hbits : (Vec.mask (x 0 1 ^^^ x 0 0) 1 - Vec.mask (x 1 1) 1) *
        (Vec.mask (x 0 1 ^^^ x 0 0) 1 - Vec.mask (x 1 1) 1) = Vec.mask a 1 := by
      have ha : x 0 0 ^^^ x 1 0 ^^^ x 2 0 = a := hx.2
      have h01 : x 0 1 = x 1 0 := hcopies 0
      have h11 : x 1 1 = x 2 0 := hcopies 1
      rw [h01, h11, ← ha]
      funext i
      simp only [Pi.mul_apply, Pi.sub_apply, Vec.mask, Vec.sq_sub_bits, Vec.xor_apply]
      rw [BitVec.xor_comm (x 1 0 i)]
    rw [← hbits]
    exact hpost

/-- What the parties keep of the first sharing, and of the second: the parts that are not drawn from
a tape are sent. -/
def redistributed (x : scheme.Shares (Vec w n)) (tape : Fin 3 → Source → ℕ → BitVec w) :
    (Fin 3 → Vec w n) × (Fin 3 → Vec w n) :=
  let vec1_x1 : Vec w n := fun i => tape 0 (.common 1) i
  let vec1_x2 : Vec w n := fun i => tape 0 .commonAll i
  let vec2_x0 : Vec w n := fun i => tape 2 (.common 1) i
  let vec2_x1 : Vec w n := fun i => tape 0 .commonAll (n + i)
  (![(x 0 0 + x 0 1) ^^^ vec1_x1 ^^^ vec1_x2, vec1_x1, vec1_x2],
    ![vec2_x0, vec2_x1, x 2 0 ^^^ vec2_x0 ^^^ vec2_x1])

/-- The tapes after a redistribution: two common draws, and one from each pair that draws a part. -/
def redistributeTape (n : ℕ) (tape : Fin 3 → Source → ℕ → BitVec w) :
    Fin 3 → Source → ℕ → BitVec w := fun p =>
  match p with
  | 0 => advance (advance (advance (advance (tape 0) (.common 1) n) .commonAll n) (.common (-1)) n)
      .commonAll n
  | 1 => advance (advance (advance (tape 1) (.common (-1)) n) .commonAll n) .commonAll n
  | 2 => advance (advance (advance (tape 2) .commonAll n) (.common 1) n) .commonAll n

theorem neg_one_ne_one : ¬ ((-1 : Fin 3) = 1) := by decide

theorem Correlated.redistributeTape {tape : Fin 3 → Source → ℕ → BitVec w}
    (hcorr : Correlated tape) (n : ℕ) : Correlated (redistributeTape n tape) where
  zeroArithmetic := fun i => by
    simpa [Replicated3PC.redistributeTape, advance_apply] using hcorr.zeroArithmetic i
  zeroBinary := fun i => by
    simpa [Replicated3PC.redistributeTape, advance_apply] using hcorr.zeroBinary i
  commonAll := fun p q i => by
    have hall : ∀ p, Replicated3PC.redistributeTape n tape p .commonAll i =
        tape p .commonAll (n + (n + i)) := by
      intro p
      fin_cases p <;> simp [Replicated3PC.redistributeTape, advance_apply]
    rw [hall p, hall q]
    exact hcorr.commonAll p q _
  common := fun p i => by
    fin_cases p
    · simpa [Replicated3PC.redistributeTape, advance_apply, neg_one_ne_one,
        Ne.symm neg_one_ne_one] using hcorr.common 0 (n + i)
    · simpa [Replicated3PC.redistributeTape, advance_apply, neg_one_ne_one,
        Ne.symm neg_one_ne_one] using hcorr.common 1 i
    · simpa [Replicated3PC.redistributeTape, advance_apply, neg_one_ne_one,
        Ne.symm neg_one_ne_one] using hcorr.common 2 (n + i)

/-- What party `p` returns once it has taken the part sent to it. -/
def redistributeResult (parts : (Fin 3 → Vec w n) × (Fin 3 → Vec w n)) (p : Fin 3)
    (received : Option (Vec w n)) : EVec scheme w n × EVec scheme w n :=
  match p with
  | 0 => (![parts.1 0, parts.1 1], ![parts.2 0, parts.2 1])
  | 1 => (![parts.1 1, parts.1 2], ![parts.2 1, received.getD 0])
  | 2 => (![parts.1 2, received.getD 0], ![parts.2 2, parts.2 0])

/-- After its draws, each party sends and takes at most one part. -/
theorem settle_redistributeSharesB (x : scheme.Shares (Vec w n))
    {tape : Fin 3 → Source → ℕ → BitVec w} (hcorr : Correlated tape) (p : Fin 3) :
    (redistributeSharesB p (x p)).settle (tape p) =
      (redistributeResult (redistributed x tape) p <$>
        Proc.round (![some (2, (redistributed x tape).1 0), none,
          some (1, (redistributed x tape).2 2)] p) (![none, some 2, some 0] p),
      redistributeTape n tape p) := by
  have hnext : tape 1 (.common (-1)) = tape 0 (.common 1) :=
    funext fun i => (hcorr.common 0 i).symm
  have hprev : tape 0 (.common (-1)) = tape 2 (.common 1) :=
    funext fun i => (hcorr.common 2 i).symm
  have hall : ∀ p, tape p .commonAll = tape 0 .commonAll :=
    fun p => funext fun i => hcorr.commonAll p 0 i
  apply Prod.ext
  · fin_cases p
    · simp only [redistributed, ← hprev]
      rfl
    · simp only [redistributed, ← hnext, ← hall 1]
      rfl
    · simp only [redistributed, ← hall 2]
      rfl
  · fin_cases p <;> rfl

theorem runs_redistributeSharesB (x : scheme.Shares (Vec w n))
    {tape : Fin 3 → Source → ℕ → BitVec w} (hcorr : Correlated tape) :
    Runs (fun p => redistributeSharesB p (x p)) tape
      (fun p => (Scheme.deal (redistributed x tape).1 p, Scheme.deal (redistributed x tape).2 p))
      (redistributeTape n tape) := by
  apply Runs.settle
  simp only [settle_redistributeSharesB x hcorr]
  have hround := (Runs.round (![some (2, (redistributed x tape).1 0), none,
    some (1, (redistributed x tape).2 2)]) (![none, some 2, some 0]) ?_
    (redistributeTape n tape)).map (redistributeResult (redistributed x tape))
  · convert hround using 2
    rename_i p
    rw [deal_eq, deal_eq]
    fin_cases p <;> rfl
  · intro p q
    fin_cases p <;> fin_cases q <;> simp

/-- Masking a value twice by the same two vectors gives it back. -/
theorem xor_masks_cancel (s u v : Vec w n) : s ^^^ u ^^^ v ^^^ u ^^^ v = s := by
  funext i
  calc s i ^^^ u i ^^^ v i ^^^ u i ^^^ v i = s i ^^^ (u i ^^^ u i) ^^^ (v i ^^^ v i) := by ac_rfl
    _ = s i := by simp

theorem computes_redistributeSharesB {x : scheme.Shares (Vec w n)} {a : Vec w n}
    (hx : OpensA x a) :
    Computes Correlated (fun p => redistributeSharesB p (x p)) fun z =>
      ∃ b c : Vec w n, OpensB (fun p => (z p).1 : scheme.Shares (Vec w n)) b ∧
        OpensB (fun p => (z p).2 : scheme.Shares (Vec w n)) c ∧ b + c = a := by
  refine Computes.of_runs fun tape hcorr => ⟨_, _, runs_redistributeSharesB x hcorr,
    hcorr.redistributeTape n, x 0 0 + x 0 1, x 2 0, ?_, ?_, ?_⟩
  · refine ⟨⟨(redistributed x tape).1, rfl⟩, ?_⟩
    apply (reconstruct_deal (· ^^^ ·) (redistributed x tape).1).trans
    exact xor_masks_cancel _ _ _
  · refine ⟨⟨(redistributed x tape).2, rfl⟩, ?_⟩
    apply (reconstruct_deal (· ^^^ ·) (redistributed x tape).2).trans
    refine Eq.trans ?_ (xor_masks_cancel (x 2 0) (fun i => tape 2 (.common 1) i)
      fun i => tape 0 .commonAll (n + i))
    ext i
    simp only [combine_three, redistributed, Matrix.cons_val, Vec.xor_apply]
    ac_rfl
  · have ha : x 0 0 + x 1 0 + x 2 0 = a := hx.2
    have h01 : x 0 1 = x 1 0 := consistent_iff.mp hx.1 0
    rw [h01, ha]

/-- What the three parties compute from consistent sharings is consistent again, and opens to the
product, the AND, the sums of products over chunks, the lowest bit as a number, and two boolean
sharings of summands. -/
structure PrimitivesCorrect (x y : scheme.Shares (Vec w n)) (aggSize : ℕ) : Prop where
  multiplyA : Computes Correlated (fun p => multiplyA p (x p) (y p))
    fun z : scheme.Shares (Vec w n) => OpensA z (reconstructFromA x * reconstructFromA y)
  andB : Computes Correlated (fun p => andB p (x p) (y p))
    fun z : scheme.Shares (Vec w n) => OpensB z (reconstructFromB x &&& reconstructFromB y)
  dotProductA : ∃ programs, (∀ p, dotProductA p (x p) (y p) aggSize = some (programs p)) ∧
    Computes Correlated programs fun z : scheme.Shares (Vec w (Vec.chunkCount n aggSize)) =>
      OpensA z (Vec.dotProductChunks aggSize (reconstructFromA x) (reconstructFromA y))
  b2aBit : Computes Correlated (fun p => b2aBit p (x p))
    fun z : scheme.Shares (Vec w n) =>
      OpensA z fun i => if (reconstructFromB x i).getLsbD 0 then 1 else 0
  redistributeSharesB : Computes Correlated (fun p => redistributeSharesB p (x p)) fun z =>
    ∃ b c : Vec w n, OpensB (fun p => (z p).1 : scheme.Shares (Vec w n)) b ∧
      OpensB (fun p => (z p).2 : scheme.Shares (Vec w n)) c ∧ b + c = reconstructFromA x

theorem primitives_correct_iff {x y : scheme.Shares (Vec w n)} (hx : Scheme.Consistent x)
    (hy : Scheme.Consistent y) (aggSize : ℕ) :
    PrimitivesCorrect x y aggSize ↔ 0 < aggSize ∧ aggSize ∣ n := by
  constructor
  · intro h
    obtain ⟨programs, hprograms, -⟩ := h.dotProductA
    by_contra hcut
    exact Option.some_ne_none _ ((hprograms 0).symm.trans (dotProductA_eq_none hcut 0))
  · rintro ⟨hpos, hdvd⟩
    refine ⟨computes_multiplyA ⟨hx, rfl⟩ ⟨hy, rfl⟩, andB_computes ⟨hx, rfl⟩ ⟨hy, rfl⟩,
      computes_dotProductA hpos hdvd ⟨hx, rfl⟩ ⟨hy, rfl⟩, ?_, computes_redistributeSharesB ⟨hx, rfl⟩⟩
    refine (computes_b2aBit ⟨hx, rfl⟩).mono fun z hz => ?_
    have hbit := funext fun i => Vec.mask_one_eq (reconstructFromB x i)
    rw [← hbit]
    exact hz

/-- Two chunks of two elements. -/
theorem primitives_correct_iff_deal :
    PrimitivesCorrect (Scheme.deal ![![200, 3, 0, 9], ![100, 4, 0, 9], ![7, 5, 1, 9]])
      (Scheme.deal ![![1, 1, 255, 0], ![2, 0, 3, 0], ![0, 2, 0, 1]] : scheme.Shares (Vec 8 4)) 2 :=
  (primitives_correct_iff ⟨_, rfl⟩ ⟨_, rfl⟩ 2).mpr (by decide)

/-- A last chunk that is not full. -/
theorem primitives_correct_fails : ¬ PrimitivesCorrect
    (Scheme.deal ![![1, 0, 0], ![0, 2, 0], ![0, 0, 3]])
    (Scheme.deal ![![4, 0, 0], ![0, 5, 0], ![0, 0, 6]] : scheme.Shares (Vec 8 3)) 2 := by
  intro h
  obtain ⟨programs, hprograms, -⟩ := h.dotProductA
  exact Option.some_ne_none _ ((hprograms 0).symm.trans (dotProductA_eq_none (by decide) 0))

end CryptDough.Replicated3PC
