import CryptDough.AdderChoice
import CryptDough.ResharingProtocols

/-! Conversions between the two encodings. An arithmetic sharing is split into two boolean sharings
that a circuit adds; a boolean one is masked with a random value that the parties share in both
encodings, opened, and the mask is taken off again. -/

namespace CryptDough

open Process Sharing Protocol

variable {w n : ℕ}

/-- A protocol in a run where its parties read further sources. -/
abbrev Protocol.beside (P : Protocol w) (Source : Type) [DecidableEq Source]
    (corr : (P.Party → Source → ℕ → BitVec w) → Prop) (hzero : corr fun _ _ _ => 0) : Protocol w where
  scheme := P.scheme
  Source := P.Source ⊕ Source
  correlated := SourcesCorrelated P.correlated corr
  andB := fun p x y => (P.andB p x y).embed Embedding.firstSource
  notB := P.notB
  notB1 := P.notB1
  correlated_zero := ⟨P.correlated_zero, hzero⟩
  andB_computes := fun hx hy => (P.andB_computes hx hy).embed Embedding.firstSource_respects
  notB_opens := P.notB_opens

/-- What the conversions are made of, beyond the boolean operations. -/
structure Converter (P : Protocol w) where
  redistributeSharesB : ∀ {n : ℕ}, P.Party → EVec P.scheme w n →
    P.Program (EVec P.scheme w n × EVec P.scheme w n)
  uncheckedOpenB : ∀ {n : ℕ}, P.Party → EVec P.scheme w n → P.Program (Vec w n)
  b2aBit : ∀ {n : ℕ}, P.Party → EVec P.scheme w n → P.Program (EVec P.scheme w n)
  getGroups : List (Group P.scheme.last)
  populateCommonRandom : (n : ℕ) → Group P.scheme.last → P.Program (Vec w n)
  publicShare : ∀ {n : ℕ}, P.Party → Vec w n → (whoKnows : Group P.scheme.last) → EVec P.scheme w n
  redistributeSharesB_computes : ∀ {n : ℕ} {x : P.scheme.Shares (Vec w n)} {a : Vec w n},
    OpensA x a → P.Ensures (fun p => redistributeSharesB p (x p)) fun z =>
      ∃ b c : Vec w n, OpensB (fun p => (z p).1) b ∧ OpensB (fun p => (z p).2) c ∧ b + c = a
  uncheckedOpenB_computes : ∀ {n : ℕ} {x : P.scheme.Shares (Vec w n)} {a : Vec w n},
    OpensB x a → P.Ensures (fun p => uncheckedOpenB p (x p)) fun value => ∀ p, value p = a
  b2aBit_computes : ∀ {n : ℕ} {x : P.scheme.Shares (Vec w n)} {a : Vec w n},
    OpensB x a → P.Ensures (fun p => b2aBit p (x p)) fun z => OpensA z (Vec.mask a 1)
  populateCommonRandom_computes : ∀ (n : ℕ), ∀ g ∈ getGroups,
    P.Ensures (fun p => if p ∈ g then populateCommonRandom n g else pure 0)
      fun value => ∃ r : Vec w n, value = fun p => if p ∈ g then r else 0
  publicShare_opens : ∀ {n : ℕ} (binary : Bool), ∀ g ∈ getGroups, ∀ r : Vec w n,
    OpensE binary (fun p => publicShare p (if p ∈ g then r else 0) g) r
  publicShare_all : ∀ {n : ℕ} (binary : Bool) (a : Vec w n),
    OpensE binary (fun p => publicShare p a ∅) a

namespace Converter

variable {P : Protocol w} (K : Converter P) (rcaFaster : Bool) (partyID : P.Party)

def addA (x y : EVec P.scheme w n) : EVec P.scheme w n := fun r => x r + y r

def negA (x : EVec P.scheme w n) : EVec P.scheme w n := fun r => -x r

/-- The two sharings are added with the adder that is modelled to be faster. -/
def a2b (x : EVec P.scheme w n) : P.Program (EVec P.scheme w n) := do
  let (v1, v2) ← K.redistributeSharesB partyID x
  P.add rcaFaster partyID v1 v2

/-- The random vectors of the groups are added up in both encodings; who is not in a group has zeros. -/
def addRandom : List (Group P.scheme.last) → EVec P.scheme w n → EVec P.scheme w n →
    P.Program (EVec P.scheme w n × EVec P.scheme w n)
  | [], aRe, bRe => pure (aRe, bRe)
  | g :: gs, aRe, bRe => do
      let myRandom ← (if partyID ∈ g then K.populateCommonRandom n g else pure 0)
      let bRe' ← P.add rcaFaster partyID bRe (K.publicShare partyID myRandom g)
      addRandom gs (addA aRe (K.publicShare partyID myRandom g)) bRe'

def b2a (x : EVec P.scheme w n) : P.Program (EVec P.scheme w n) := do
  let (aRe, bRe) ← K.addRandom rcaFaster partyID K.getGroups (fun _ => 0) fun _ => 0
  let masked ← P.add rcaFaster partyID x bRe
  let z ← K.uncheckedOpenB partyID masked
  pure (addA (negA aRe) (K.publicShare partyID z ∅))

def a2bPackedSign (x : EVec P.scheme w n) : P.Program (EVec P.scheme w (Vec.compressedSize w n)) := do
  let (v1, v2) ← K.redistributeSharesB partyID x
  P.rippleCarryAdderPackedSign partyID v1 v2 false

/-- The complement of the sign, as a number. -/
def gtezA (x : EVec P.scheme w n) : P.Program (EVec P.scheme w n) := do
  let packedSign ← K.a2bPackedSign partyID x
  let packedSign := P.notB partyID packedSign
  let sign := P.unpackFrom (fun _ => 0) packedSign 0
  K.b2aBit partyID sign

section Correct

variable {K rcaFaster} {x : P.scheme.Shares (Vec w n)} {a : Vec w n}

theorem add_computes (hw : 0 < w) {y : P.scheme.Shares (Vec w n)} {b : Vec w n} (hx : OpensB x a)
    (hy : OpensB y b) : P.Ensures (fun p => P.add rcaFaster p (x p) (y p)) fun z => OpensB z (a + b) := by
  have hadd := (binaryAdder_iff hw hx hy false).mpr (Or.inl rfl) rcaFaster
  rw [addWithCarry_false] at hadd
  exact hadd

theorem addA_opens {y : P.scheme.Shares (Vec w n)} {b : Vec w n} (hx : OpensA x a)
    (hy : OpensA y b) : OpensA (fun p => addA (x p) (y p)) (a + b) := Scheme.Opens.op hx hy

theorem negA_opens (hx : OpensA x a) : OpensA (fun p => negA (x p)) (-a) :=
  Scheme.Opens.map hx (fun v => -v) fun u v => neg_add u v

theorem zeroA_opens : OpensA (fun (_ : P.Party) (_ : P.scheme.Slot) => (0 : Vec w n)) 0 :=
  ⟨⟨fun _ => 0, rfl⟩, combine_const_idem _ 0 (add_zero 0)⟩

theorem a2b_computes (hw : 0 < w) (hx : OpensA x a) :
    P.Ensures (fun p => K.a2b rcaFaster p (x p)) fun z => OpensB z a := by
  refine (K.redistributeSharesB_computes hx).bind fun v hv => ?_
  obtain ⟨b, s, hb, hs, rfl⟩ := hv
  exact add_computes hw hb hs

/-- Whatever the groups draw, both sums open to the same value. -/
theorem addRandom_computes (hw : 0 < w) (groups : List (Group P.scheme.last))
    (hgroups : ∀ g ∈ groups, g ∈ K.getGroups) {aRe bRe : P.scheme.Shares (Vec w n)} {r : Vec w n}
    (ha : OpensA aRe r) (hb : OpensB bRe r) :
    P.Ensures (fun p => K.addRandom rcaFaster p groups (aRe p) (bRe p))
      fun z => ∃ r : Vec w n, OpensA (fun p => (z p).1) r ∧ OpensB (fun p => (z p).2) r := by
  induction groups generalizing aRe bRe r with
  | nil => exact Computes.pure ⟨r, ha, hb⟩
  | cons g gs ih =>
      obtain ⟨hg, hgs⟩ := List.forall_mem_cons.mp hgroups
      refine (K.populateCommonRandom_computes n g hg).bind fun value hvalue => ?_
      obtain ⟨u, rfl⟩ := hvalue
      refine (add_computes hw hb (K.publicShare_opens true g hg u)).bind fun bRe' hb' => ?_
      exact ih hgs (addA_opens ha (K.publicShare_opens false g hg u)) hb'

theorem b2a_computes (hw : 0 < w) (hx : OpensB x a) :
    P.Ensures (fun p => K.b2a rcaFaster p (x p)) fun z => OpensA z a := by
  refine (addRandom_computes hw K.getGroups (fun _ hg => hg) zeroA_opens zero_opens).bind
    fun re hre => ?_
  obtain ⟨r, hra, hrb⟩ := hre
  refine (add_computes hw hx hrb).bind fun masked hmasked => ?_
  refine (K.uncheckedOpenB_computes hmasked).bind fun z hz => ?_
  obtain rfl : z = fun _ => a + r := funext hz
  have hopen := addA_opens (negA_opens hra) (K.publicShare_all false (a + r))
  have hvalue : -r + (a + r) = a := by
    rw [add_comm a, neg_add_cancel_left]
  rw [hvalue] at hopen
  exact Computes.pure hopen

theorem a2bPackedSign_computes (hw : 0 < w) (hx : OpensA x a) :
    P.Ensures (fun p => K.a2bPackedSign p (x p))
      fun z => ∃ s, OpensB z s ∧ PacksBit s fun k => (a k).msb := by
  refine (K.redistributeSharesB_computes hx).bind fun v hv => ?_
  obtain ⟨b, s, hb, hs, rfl⟩ := hv
  have hsign := rippleCarryAdderPackedSign_ensures hw hb hs false
  rw [addWithCarry_false] at hsign
  exact hsign

/-- The lowest bit of the unpacked complement is set when the sign is not. -/
theorem mask_unpack_not (hw : 0 < w) {s : Vec w (Vec.compressedSize w n)}
    (hs : PacksBit s fun k => (a k).msb) :
    Vec.mask (Vec.unpackFrom 0 (~~~ s) 0) 1 = fun k => if 0 ≤ (a k).toInt then 1 else 0 := by
  ext k
  have hk := Vec.div_lt_compressedSize k.isLt hw
  have hmod := Nat.mod_lt k.val hw
  have hsign : (0 ≤ (a k).toInt) ↔ (a k).msb = false := by
    rw [BitVec.msb_eq_toInt, decide_eq_false_iff_not, not_lt]
  rw [Vec.mask, Vec.mask_one_eq, Vec.getLsbD_unpackFrom k hk]
  simp only [Vec.not_apply, BitVec.getLsbD_not, hs k hk, hw, hmod, hsign]
  simp

theorem gtezA_computes (hw : 0 < w) (hx : OpensA x a) :
    P.Ensures (fun p => K.gtezA p (x p))
      fun z => OpensA z fun k => if 0 ≤ (a k).toInt then 1 else 0 := by
  refine (a2bPackedSign_computes hw hx).bind fun z hz => ?_
  obtain ⟨s, hs, hbits⟩ := hz
  have hunpacked := unpackFrom_opens (zero_opens (n := n)) (P.notB_opens hs) 0
  have hbit := K.b2aBit_computes hunpacked
  rw [mask_unpack_not hw hbits] at hbit
  exact hbit

end Correct

end Converter

end CryptDough
