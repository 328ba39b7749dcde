import CryptDough.ObliviousLinearEvaluation
import Mathlib.Data.ZMod.Basic
import Mathlib.Data.Nat.Size
import Mathlib.Tactic.NormNum.Prime

/-! Oblivious linear evaluation modulo a number below 256. Sums are kept in 16 bits and shares of them
in 8, and every store tells whether it has lost something. -/

namespace CryptDough

open Process CorrelatedTransfer

/-- A store into an unsigned type; the flag is lost with the first value that does not fit. -/
def store (bits : ℕ) (value : ℤ) : StateM Bool (BitVec bits) := fun fits =>
  (BitVec.ofInt bits value, fits && decide (0 ≤ value ∧ value < 2 ^ bits))

theorem store_eq (bits : ℕ) (value : ℤ) (hnonneg : 0 ≤ value) (hlt : value < 2 ^ bits) :
    ∃ stored : BitVec bits, (stored.toNat : ℤ) = value ∧ ∀ fits, store bits value fits = (stored, fits) := by
  refine ⟨BitVec.ofInt bits value, ?_, fun fits => ?_⟩
  · rw [BitVec.toNat_ofInt, Nat.cast_pow, Nat.cast_ofNat, Int.emod_eq_of_lt hnonneg hlt,
      Int.toNat_of_nonneg hnonneg]
  · rw [store, decide_eq_true ⟨hnonneg, hlt⟩, Bool.and_true]

namespace GilboaModPrime

variable {p : ℕ} {n : ℕ}

/-- The difference of one transfer and the message that is kept, both reduced at once. -/
def sendCorrelated (p : ℕ) (message : BitVec 8) (temp0 temp1 : BitVec 128) :
    StateM Bool (BitVec 8 × BitVec 8) := do
  let m0 ← store 8 (Int.tmod temp0.toNat p)
  let m1 ← store 8 (Int.tmod temp1.toNat p)
  let temp2 ← store 8 (Int.tmod (m1.toNat + p - Int.tmod (m0.toNat + message.toNat) p) p)
  pure (temp2, m0)

def receiveCorrelated (p : ℕ) (choice : Bool) (OTbuff : BitVec 128) (temp : BitVec 8) :
    StateM Bool (BitVec 16) := do
  let r ← store 8 (Int.tmod OTbuff.toNat p)
  store 16 (Int.tmod (r.toNat + if choice then (p : ℤ) - temp.toNat else 0) p)

/-- `b[i] += p - ((val << bit) % p); b[i] %= p` -/
def senderStep (p bit : ℕ) (b : BitVec 16) (val : BitVec 8) : StateM Bool (BitVec 16) := do
  let b ← store 16 (b.toNat + (p - Int.tmod (val.toNat * 2 ^ bit) p))
  store 16 (Int.tmod b.toNat p)

/-- `y[i] += m[i] << bit; y[i] %= p` -/
def receiverStep (p bit : ℕ) (y m : BitVec 16) : StateM Bool (BitVec 16) := do
  let y ← store 16 (y.toNat + m.toNat * 2 ^ bit)
  store 16 (Int.tmod y.toNat p)

section Elements

variable (hp : 0 < p) (hp' : p < 256)
include hp

theorem tmod_spec (value : ℤ) (hnonneg : 0 ≤ value) : 0 ≤ Int.tmod value p ∧ Int.tmod value p < p ∧
    ((Int.tmod value p : ℤ) : ZMod p) = value := by
  rw [Int.tmod_eq_emod_of_nonneg hnonneg]
  exact ⟨Int.emod_nonneg _ (by omega), Int.emod_lt_of_pos _ (by omega), ZMod.intCast_mod value p⟩

include hp'

/-- A remainder fits any of the types. -/
theorem store_tmod {bits : ℕ} (hbits : 8 ≤ bits) (value : ℤ) (hnonneg : 0 ≤ value) :
    ∃ stored : BitVec bits, stored.toNat < p ∧ ((stored.toNat : ℕ) : ZMod p) = value ∧
      ∀ fits, store bits (Int.tmod value p) fits = (stored, fits) := by
  obtain ⟨hlower, hupper, hcast⟩ := tmod_spec hp value hnonneg
  have hpow : (2 : ℤ) ^ 8 ≤ 2 ^ bits := pow_le_pow_right₀ (by decide) hbits
  obtain ⟨stored, hvalue, hstore⟩ := store_eq bits _ hlower (by omega)
  refine ⟨stored, by omega, ?_, hstore⟩
  rw [← hcast, ← hvalue, Int.cast_natCast]

theorem sendCorrelated_eq (message : BitVec 8) (temp0 temp1 : BitVec 128) :
    ∃ temp2 m0 : BitVec 8, temp2.toNat < p ∧ m0.toNat < p ∧ (m0.toNat : ZMod p) = temp0.toNat ∧
      (temp2.toNat : ZMod p) = temp1.toNat - (temp0.toNat + message.toNat) ∧
      ∀ fits, sendCorrelated p message temp0 temp1 fits = ((temp2, m0), fits) := by
  obtain ⟨m0, hm0, hcast0, hstore0⟩ := store_tmod hp hp' (le_refl 8) _ (Int.natCast_nonneg temp0.toNat)
  obtain ⟨m1, hm1, hcast1, hstore1⟩ := store_tmod hp hp' (le_refl 8) _ (Int.natCast_nonneg temp1.toNat)
  obtain ⟨hlower, hupper, hsum⟩ := tmod_spec hp (m0.toNat + message.toNat) (by omega)
  obtain ⟨temp2, htemp2, hcast2, hstore2⟩ := store_tmod hp hp' (le_refl 8)
    (m1.toNat + p - Int.tmod (m0.toNat + message.toNat) p) (by omega)
  refine ⟨temp2, m0, htemp2, hm0, ?_, ?_, fun fits => ?_⟩
  · rw [hcast0, Int.cast_natCast]
  · rw [hcast2]
    push_cast [hsum]
    rw [hcast0, hcast1, ZMod.natCast_self]
    push_cast
    ring
  · rw [sendCorrelated]
    simp only [bind, StateT.bind, hstore0, hstore1, hstore2]
    rfl

theorem receiveCorrelated_eq (choice : Bool) (OTbuff : BitVec 128) {temp : BitVec 8}
    (htemp : temp.toNat < p) :
    ∃ m : BitVec 16, m.toNat < p ∧
      (m.toNat : ZMod p) = OTbuff.toNat - (if choice then (temp.toNat : ZMod p) else 0) ∧
      ∀ fits, receiveCorrelated p choice OTbuff temp fits = (m, fits) := by
  obtain ⟨r, hr, hcast, hstore⟩ := store_tmod hp hp' (le_refl 8) _ (Int.natCast_nonneg OTbuff.toNat)
  obtain ⟨m, hm, hcast', hstore'⟩ := store_tmod hp hp' (by decide : 8 ≤ 16)
    (r.toNat + if choice then (p : ℤ) - temp.toNat else 0) (by split <;> omega)
  refine ⟨m, hm, ?_, fun fits => ?_⟩
  · rw [hcast']
    cases choice with
    | false => simp [hcast]
    | true =>
        simp only [if_true]
        push_cast
        rw [hcast, ZMod.natCast_self]
        push_cast
        ring
  · rw [receiveCorrelated]
    simp only [bind, StateT.bind, hstore, hstore']

theorem senderStep_eq (bit : ℕ) {b : BitVec 16} (hb : b.toNat < p) (val : BitVec 8) :
    ∃ b' : BitVec 16, b'.toNat < p ∧ (b'.toNat : ZMod p) = b.toNat - val.toNat * (2 ^ bit : ℕ) ∧
      ∀ fits, senderStep p bit b val fits = (b', fits) := by
  obtain ⟨hlower, hupper, hreduced⟩ := tmod_spec hp (val.toNat * 2 ^ bit)
    (mul_nonneg (Int.natCast_nonneg _) (pow_nonneg (by decide) _))
  obtain ⟨sum, hsum, hstore⟩ := store_eq 16
    (b.toNat + (p - Int.tmod (val.toNat * 2 ^ bit) p)) (by omega) (by omega)
  obtain ⟨b', hb', hcast, hstore'⟩ := store_tmod hp hp' (by decide : 8 ≤ 16) _ (Int.natCast_nonneg sum.toNat)
  refine ⟨b', hb', ?_, fun fits => ?_⟩
  · rw [hcast, hsum]
    push_cast [hreduced]
    rw [ZMod.natCast_self]
    ring
  · rw [senderStep]
    simp only [bind, StateT.bind, hstore, hstore']

/-- The places of the bits are no larger than the modulus, so that the product is below its square. -/
theorem receiverStep_eq {bit : ℕ} (hbit : bit < p.size) {y m : BitVec 16} (hy : y.toNat < p)
    (hm : m.toNat < p) :
    ∃ y' : BitVec 16, y'.toNat < p ∧ (y'.toNat : ZMod p) = y.toNat + m.toNat * (2 ^ bit : ℕ) ∧
      ∀ fits, receiverStep p bit y m fits = (y', fits) := by
  have hplace : 2 ^ bit ≤ p := Nat.lt_size.mp hbit
  have hproduct : m.toNat * 2 ^ bit ≤ (p - 1) * p := Nat.mul_le_mul (by omega) hplace
  have hbound : (p - 1) * p ≤ 254 * 255 := Nat.mul_le_mul (by omega) (by omega)
  obtain ⟨sum, hsum, hstore⟩ := store_eq 16 (y.toNat + m.toNat * 2 ^ bit)
    (add_nonneg (Int.natCast_nonneg _) (mul_nonneg (Int.natCast_nonneg _) (pow_nonneg (by decide) _)))
    (by exact_mod_cast (by omega : y.toNat + m.toNat * 2 ^ bit < 2 ^ 16))
  obtain ⟨y', hy', hcast, hstore'⟩ := store_tmod hp hp' (by decide : 8 ≤ 16) _ (Int.natCast_nonneg sum.toNat)
  refine ⟨y', hy', ?_, fun fits => ?_⟩
  · rw [hcast, hsum]
    push_cast
    ring
  · rw [receiverStep]
    simp only [bind, StateT.bind, hstore, hstore']

end Elements

/-! The parties' loops over the bits of the modulus. -/

abbrev Program (β : Type) := Proc (Fin 2) Source (BitVec 128) β

/-- Elements of 16 bits, with the flags of the stores they come from. -/
abbrev Stored (n : ℕ) := Fin n → BitVec 16 × Bool

section Loops

variable (p : ℕ)

def sentFor (a : Vec 8 n) (temp0 temp1 : Fin n → BitVec 128) (b : Stored n) (i : Fin n) :
    (BitVec 8 × BitVec 8) × Bool :=
  sendCorrelated p (a i) (temp0 i) (temp1 i) (b i).2

def senderRound (a : Vec 8 n) (bit : ℕ) (temp0 temp1 : Fin n → BitVec 128) (b : Stored n) : Stored n :=
  fun i => senderStep p bit (b i).1 (sentFor p a temp0 temp1 b i).1.2 (sentFor p a temp0 temp1 b i).2

def receiverRound (x : Vec 8 n) (bit : ℕ) (OTbuff temp : Fin n → BitVec 128) (y : Stored n) :
    Stored n :=
  fun i =>
    let m := receiveCorrelated p (GilboaOLE.choiceBits x bit i) (OTbuff i) ((temp i).setWidth 8) (y i).2
    receiverStep p bit (y i).1 m.1 m.2

def senderLoop (a : Vec 8 n) : (rounds bit : ℕ) → Stored n → Program (Stored n)
  | 0, _, b => pure b
  | rounds + 1, bit, b => do
      let temp0 ← .draw .zero n .done
      let temp1 ← .draw .one n .done
      let () ← .send 1 n (fun i => (sentFor p a temp0 temp1 b i).1.1.setWidth 128) (.done ())
      senderLoop a rounds (bit + 1) (senderRound p a bit temp0 temp1 b)

def senderFunction (a : Vec 8 n) : Program (Stored n) := senderLoop p a p.size 0 fun _ => (0, true)

def receiverLoop (x : Vec 8 n) : (rounds bit : ℕ) → Stored n → Program (Stored n)
  | 0, _, y => pure y
  | rounds + 1, bit, y => do
      let OTbuff ← .draw .chosen n .done
      let temp ← .recv 0 n .done
      receiverLoop x rounds (bit + 1) (receiverRound p x bit OTbuff temp y)

def receiverFunction (x : Vec 8 n) : Program (Stored n) := receiverLoop p x p.size 0 fun _ => (0, true)

/-- What the sender computes from the messages on its tapes. -/
def senderValue (a : Vec 8 n) : (rounds bit : ℕ) → (zero one : ℕ → BitVec 128) → Stored n → Stored n
  | 0, _, _, _, b => b
  | rounds + 1, bit, zero, one, b =>
      senderValue a rounds (bit + 1) (fun i => zero (n + i)) (fun i => one (n + i))
        (senderRound p a bit (fun i => zero i) (fun i => one i) b)

end Loops

/-- After the bits below a place: the shares are remainders, their sum is a product, nothing was
lost. -/
structure Invariant (p : ℕ) (a x : BitVec 8) (bit : ℕ) (b y : BitVec 16 × Bool) : Prop where
  below : b.1.toNat < p
  below' : y.1.toNat < p
  fits : b.2 = true
  fits' : y.2 = true
  product : (b.1.toNat : ZMod p) + y.1.toNat = a.toNat * (x.toNat % 2 ^ bit : ℕ)

theorem Invariant.round (hp : 0 < p) (hp' : p < 256) {a x : Vec 8 n} {bit : ℕ} (hbit : bit < p.size)
    {b y : Stored n} {i : Fin n} (hinv : Invariant p (a i) (GilboaOLE.seen x i) bit (b i) (y i))
    (temp0 temp1 : Fin n → BitVec 128) :
    Invariant p (a i) (GilboaOLE.seen x i) (bit + 1) (senderRound p a bit temp0 temp1 b i)
      (receiverRound p x bit (fun i => if GilboaOLE.choiceBits x bit i then temp1 i else temp0 i)
        (fun i => (sentFor p a temp0 temp1 b i).1.1.setWidth 128) y i) := by
  obtain ⟨delta, m0, hdelta, hm0, hcast0, hcastDelta, hsend⟩ :=
    sendCorrelated_eq hp hp' (a i) (temp0 i) (temp1 i)
  obtain ⟨m, hm, hcastm, hreceive⟩ := receiveCorrelated_eq hp hp' (GilboaOLE.choiceBits x bit i)
    (if GilboaOLE.choiceBits x bit i then temp1 i else temp0 i) hdelta
  obtain ⟨b', hb', hcastb, hsender⟩ := senderStep_eq hp hp' bit hinv.below m0
  obtain ⟨y', hy', hcasty, hreceiver⟩ := receiverStep_eq hp hp' hbit hinv.below' hm
  have hsent : sentFor p a temp0 temp1 b i = ((delta, m0), (b i).2) := hsend _
  have hwidth : (delta.setWidth 128).setWidth 8 = delta := by
    rw [BitVec.setWidth_setWidth_of_le _ (by decide), BitVec.setWidth_eq]
  have hb : senderRound p a bit temp0 temp1 b i = (b', (b i).2) := by
    rw [senderRound, hsent]
    exact hsender _
  have hy : receiverRound p x bit (fun i => if GilboaOLE.choiceBits x bit i then temp1 i else temp0 i)
      (fun i => (sentFor p a temp0 temp1 b i).1.1.setWidth 128) y i = (y', (y i).2) := by
    simp only [receiverRound, hsent, hwidth, hreceive]
    exact hreceiver _
  rw [hb, hy]
  refine ⟨hb', hy', hinv.fits, hinv.fits', ?_⟩
  have hdigit : ((GilboaOLE.seen x i).toNat % 2 ^ (bit + 1) : ℕ) =
      (GilboaOLE.seen x i).toNat % 2 ^ bit +
      if GilboaOLE.choiceBits x bit i then 2 ^ bit else 0 := by
    rw [← GilboaOLE.getLsbD_seen, ← BitVec.testBit_toNat, Nat.testBit_eq_decide_div_mod_eq,
      Nat.mod_pow_succ]
    rcases Nat.mod_two_eq_zero_or_one ((GilboaOLE.seen x i).toNat / 2 ^ bit) with hzero | hone
    · simp [hzero]
    · simp [hone]
  have hround := transfer_identity ((temp0 i).toNat : ZMod p) (temp1 i).toNat (a i).toNat _ _ _
    (2 ^ bit : ℕ) (GilboaOLE.choiceBits x bit i) hinv.product
  rw [hcastb, hcasty, hcastm, hcast0, hcastDelta, hdigit]
  convert hround using 2
  · congr 2
    split <;> rfl
  · rw [Nat.cast_add, Nat.cast_ite, Nat.cast_zero]

/-- After every bit the invariant holds of what the parties have computed. -/
theorem runs_loops (hp : 0 < p) (hp' : p < 256) (a x : Vec 8 n) (rounds bit : ℕ) {b y : Stored n}
    {tape : Fin 2 → Source → ℕ → BitVec 128} (hbits : bit + rounds ≤ p.size)
    (hdelivered : Delivered (fun k => GilboaOLE.choiceBits x (bit + k)) rounds tape)
    (hinv : ∀ i, Invariant p (a i) (GilboaOLE.seen x i) bit (b i) (y i)) :
    ∃ y' tape', (∀ i, Invariant p (a i) (GilboaOLE.seen x i) (bit + rounds)
        (senderValue p a rounds bit (tape 0 .zero) (tape 0 .one) b i) (y' i)) ∧
      Runs (fun q : Fin 2 => if q = 0 then senderLoop p a rounds bit b else receiverLoop p x rounds bit y) tape
        (fun q => if q = 0 then senderValue p a rounds bit (tape 0 .zero) (tape 0 .one) b else y')
        tape' := by
  induction rounds generalizing bit b y tape with
  | zero =>
      refine ⟨y, tape, hinv, ?_⟩
      convert Runs.pure (fun q : Fin 2 => if q = 0 then b else y) tape using 2 with q
      · split <;> rfl
      · rfl
  | succ rounds ih =>
      obtain ⟨tape', hadvanced, hround⟩ := runs_round
        (fun temp0 temp1 i => (sentFor p a temp0 temp1 b i).1.1.setWidth 128)
        (fun temp0 temp1 => senderRound p a bit temp0 temp1 b)
        (fun OTbuff temp => receiverRound p x bit OTbuff temp y) tape
      have hchosen : (fun i : Fin n => tape 1 .chosen i) = fun i : Fin n =>
          if GilboaOLE.choiceBits x bit i then tape 0 .one i else tape 0 .zero i :=
        funext hdelivered.first
      have hrest : Delivered (fun k => GilboaOLE.choiceBits x (bit + 1 + k)) rounds tape' := by
        convert hdelivered.advance hadvanced using 3 with k
        omega
      have hstep := fun i => (hinv i).round hp hp' (by omega) (fun i => tape 0 .zero i)
        fun i => tape 0 .one i
      obtain ⟨y', tape'', hend, hloops⟩ := ih (bit + 1) (by omega) hrest hstep
      have hzero : tape' 0 .zero = fun i => tape 0 .zero (n + i) := funext hadvanced.zero
      have hone : tape' 0 .one = fun i => tape 0 .one (n + i) := funext hadvanced.one
      rw [hzero, hone] at hend hloops
      refine ⟨y', tape'', ?_, ?_⟩
      · rw [Nat.add_right_comm] at hend
        exact hend
      · rw [hchosen] at hround
        let next : Fin 2 → Stored n → Program (Stored n) := fun q v =>
          if q = 0 then senderLoop p a rounds (bit + 1) v else receiverLoop p x rounds (bit + 1) v
        have hnext : Runs (fun q : Fin 2 => next q (if q = 0 then
              senderRound p a bit (fun i => tape 0 .zero i) (fun i => tape 0 .one i) b
            else receiverRound p x bit
              (fun i => if GilboaOLE.choiceBits x bit i then tape 0 .one i else tape 0 .zero i)
              (fun i => (sentFor p a (fun i => tape 0 .zero i) (fun i => tape 0 .one i) b i).1.1.setWidth 128)
              y)) tape'
              (fun q => if q = 0 then senderValue p a rounds (bit + 1) (fun i => tape 0 .zero (n + i))
                (fun i => tape 0 .one (n + i))
                (senderRound p a bit (fun i => tape 0 .zero i) (fun i => tape 0 .one i) b) else y')
              tape'' := by
          convert hloops using 2 with q
          change (if q = 0 then _ else _) = _
          split <;> rfl
        convert hround.bind hnext using 2 with q
        · change _ = Proc.bind _ (next q)
          simp only [next]
          split <;> rfl
        · rfl

/-- The share that the messages on its tapes leave to the sender. -/
def senderShare (p : ℕ) (a : Vec 8 n) (tape : Fin 2 → Source → ℕ → BitVec 128) : Stored n :=
  senderValue p a p.size 0 (tape 0 .zero) (tape 0 .one) fun _ => (0, true)

theorem runs_functions (hp : 0 < p) (hp' : p < 256) (a : Vec 8 n) {x : Vec 8 n}
    (hx : ∀ i, (x i).toNat < p) {tape : Fin 2 → Source → ℕ → BitVec 128}
    (hdelivered : Delivered (GilboaOLE.choiceBits x) p.size tape) :
    ∃ y tape', (∀ i, (senderShare p a tape i).1.toNat < p ∧ (senderShare p a tape i).2 = true ∧
        (y i).1.toNat < p ∧ (y i).2 = true ∧ ((senderShare p a tape i).1.toNat : ZMod p) + (y i).1.toNat =
          (a i).toNat * (GilboaOLE.seen x i).toNat) ∧
      Runs (fun q : Fin 2 => if q = 0 then senderFunction p a else receiverFunction p x) tape
        (fun q => if q = 0 then senderShare p a tape else y) tape' := by
  have hinv :
      ∀ i, Invariant p (a i) (GilboaOLE.seen x i) 0 ((0, true) : BitVec 16 × Bool) (0, true) := by
    intro i
    refine ⟨hp, hp, rfl, rfl, ?_⟩
    rw [pow_zero, Nat.mod_one]
    simp
  have hall : Delivered (fun k => GilboaOLE.choiceBits x (0 + k)) p.size tape := by
    simpa only [Nat.zero_add] using hdelivered
  have hseen : ∀ i, (GilboaOLE.seen x i).toNat < p := by
    intro i
    rw [GilboaOLE.seen]
    split
    · exact hx i
    · exact hp
  obtain ⟨y, tape', hend, hruns⟩ := runs_loops hp hp' a x p.size 0 (by omega) hall hinv
  refine ⟨y, tape', fun i => ?_, hruns⟩
  obtain ⟨hb, hy, hfits, hfits', hproduct⟩ := hend i
  refine ⟨hb, hfits, hy, hfits', hproduct.trans ?_⟩
  rw [Nat.zero_add, Nat.mod_eq_of_lt ((hseen i).trans (Nat.lt_size_self p))]

/-- `a0 - *add_share + p` -/
def shiftedDifference (p : ℕ) (a0 : BitVec 16) (add : BitVec 8) : StateM Bool (BitVec 16) := do
  let difference ← store 16 (a0.toNat - add.toNat)
  store 16 (difference.toNat + p)

/-- `(a0 - *add_share + p) % p`, in 16 bits and then in 8 -/
def correction (p : ℕ) (a0 : BitVec 16) (add : BitVec 8) : StateM Bool (BitVec 8) := do
  let shifted ← shiftedDifference p a0 add
  let reduced ← store 16 (Int.tmod shifted.toNat p)
  store 8 reduced.toNat

/-- `(a1 + o_vec + p) % p` -/
def corrected (p : ℕ) (a1 : BitVec 16) (o : BitVec 8) : StateM Bool (BitVec 16) := do
  let sum ← store 16 (a1.toNat + o.toNat)
  let shifted ← store 16 (sum.toNat + p)
  store 16 (Int.tmod shifted.toNat p)

section Elements

variable (hp : 0 < p) (hp' : p < 256)
include hp hp'

/-- The difference is negative for a larger share; then it wraps around, and so does the sum, back to a
value below twice the modulus. -/
theorem shiftedDifference_eq {a0 : BitVec 16} {add : BitVec 8} (ha0 : a0.toNat < p)
    (hadd : add.toNat < p) :
    ∃ shifted : BitVec 16, (shifted.toNat : ℤ) = a0.toNat - add.toNat + p ∧
      ∀ fits, shiftedDifference p a0 add fits = (shifted, fits && decide (add.toNat ≤ a0.toNat)) := by
  by_cases hle : add.toNat ≤ a0.toNat
  · obtain ⟨difference, hdifference, hstore⟩ := store_eq 16 ((a0.toNat : ℤ) - add.toNat)
      (by omega) (by omega)
    obtain ⟨shifted, hshifted, hstore'⟩ := store_eq 16 (difference.toNat + (p : ℤ)) (by omega) (by omega)
    refine ⟨shifted, by omega, fun fits => ?_⟩
    rw [decide_eq_true hle, Bool.and_true, shiftedDifference]
    simp only [bind, StateT.bind, hstore, hstore']
  · have hwrapped : (BitVec.ofInt 16 ((a0.toNat : ℤ) - add.toNat)).toNat =
        a0.toNat + 2 ^ 16 - add.toNat := by
      rw [BitVec.toNat_ofInt]
      omega
    refine ⟨BitVec.ofInt 16 ((BitVec.ofInt 16 ((a0.toNat : ℤ) - add.toNat)).toNat + p), ?_, fun fits => ?_⟩
    · rw [hwrapped, BitVec.toNat_ofInt]
      omega
    · have hnegative :
          ¬ (0 ≤ (a0.toNat : ℤ) - add.toNat ∧ (a0.toNat : ℤ) - add.toNat < 2 ^ 16) := by omega
      rw [decide_eq_false hle, Bool.and_false, shiftedDifference]
      simp only [bind, StateT.bind, store, decide_eq_false hnegative, Bool.and_false, Bool.false_and]

theorem correction_eq {a0 : BitVec 16} {add : BitVec 8} (ha0 : a0.toNat < p) (hadd : add.toNat < p) :
    ∃ o : BitVec 8, o.toNat < p ∧ (o.toNat : ZMod p) = a0.toNat - add.toNat ∧
      ∀ fits, correction p a0 add fits = (o, fits && decide (add.toNat ≤ a0.toNat)) := by
  obtain ⟨shifted, hvalue, hstore⟩ := shiftedDifference_eq hp hp' ha0 hadd
  obtain ⟨reduced, hreduced, hcast, hstore'⟩ := store_tmod hp hp' (by decide : 8 ≤ 16) _
    (Int.natCast_nonneg shifted.toNat)
  obtain ⟨o, ho, hstore''⟩ := store_eq 8 reduced.toNat (Int.natCast_nonneg _) (by omega)
  have hnat : o.toNat = reduced.toNat := Int.ofNat_inj.mp ho
  refine ⟨o, by omega, ?_, fun fits => ?_⟩
  · rw [hnat, hcast, hvalue]
    push_cast
    rw [ZMod.natCast_self, add_zero]
  · rw [correction]
    simp only [bind, StateT.bind, hstore, hstore', hstore'']

theorem corrected_eq {a1 : BitVec 16} {o : BitVec 8} (ha1 : a1.toNat < p) (ho : o.toNat < p) :
    ∃ y : BitVec 16, y.toNat < p ∧ (y.toNat : ZMod p) = a1.toNat + o.toNat ∧
      ∀ fits, corrected p a1 o fits = (y, fits) := by
  obtain ⟨sum, hsum, hstore⟩ := store_eq 16 (a1.toNat + (o.toNat : ℤ)) (by omega) (by omega)
  obtain ⟨shifted, hshifted, hstore'⟩ := store_eq 16 (sum.toNat + (p : ℤ)) (by omega) (by omega)
  obtain ⟨y, hy, hcast, hstore''⟩ := store_tmod hp hp' (by decide : 8 ≤ 16) _
    (Int.natCast_nonneg shifted.toNat)
  refine ⟨y, hy, ?_, fun fits => ?_⟩
  · rw [hcast, hshifted, hsum]
    push_cast
    rw [ZMod.natCast_self, add_zero]
  · rw [corrected]
    simp only [bind, StateT.bind, hstore, hstore', hstore'']

end Elements

end GilboaModPrime

namespace OLEmodPrimeInterface

open GilboaModPrime (Stored)

variable {p n : ℕ}

/-- What a 16-bit value stands for: itself, or from `maxW - maxT` on the negative number it was before
it wrapped around. -/
def StandsFor (y : BitVec 16) (value : ℤ) : Prop :=
  (y.toNat < 65280 ∧ value = y.toNat) ∨ (65280 ≤ y.toNat ∧ value = y.toNat - 2 ^ 16)

def reduceElement (p : ℕ) (y : BitVec 16) : StateM Bool (BitVec 8) :=
  if 65280 ≤ y.toNat then do
    let negValue ← store 16 (65535 - y.toNat + 1)
    store 8 (Int.tmod (p - Int.tmod negValue.toNat p) p)
  else store 8 (Int.tmod y.toNat p)

/-- The loop has an `int` index; what it does not reach is zero. -/
def reduce (p : ℕ) (x : Stored n) : Fin n → BitVec 8 × Bool := fun i =>
  if i.val < 2 ^ 31 then reduceElement p (x i).1 (x i).2 else (0, (x i).2)

theorem reduceElement_eq (hp : 0 < p) (hp' : p < 256) {y : BitVec 16} {value : ℤ}
    (hstands : StandsFor y value) :
    ∃ out : BitVec 8, (out.toNat : ℤ) = value % p ∧ ∀ fits, reduceElement p y fits = (out, fits) := by
  have hremainder : ∀ {out : BitVec 8}, out.toNat < p → (out.toNat : ZMod p) = value →
      (out.toNat : ℤ) = value % p := by
    intro out hout hcast
    have hcast' : ((out.toNat : ℤ) : ZMod p) = value := by rw [Int.cast_natCast, hcast]
    rw [← (ZMod.intCast_eq_intCast_iff' _ _ p).mp hcast', Int.emod_eq_of_lt (by omega) (by omega)]
  rcases hstands with ⟨hsmall, hvalue⟩ | ⟨hlarge, hvalue⟩
  · obtain ⟨out, hout, hcast, hstore⟩ := GilboaModPrime.store_tmod hp hp' (le_refl 8) _
      (Int.natCast_nonneg y.toNat)
    refine ⟨out, hremainder hout (by rw [hcast, hvalue]), fun fits => ?_⟩
    rw [reduceElement, if_neg (by omega), hstore]
  · obtain ⟨negValue, hneg, hstore⟩ := store_eq 16 (65535 - (y.toNat : ℤ) + 1) (by omega) (by omega)
    obtain ⟨hlower, hupper, hreduced⟩ := GilboaModPrime.tmod_spec hp _ (Int.natCast_nonneg negValue.toNat)
    obtain ⟨out, hout, hcast, hstore'⟩ := GilboaModPrime.store_tmod hp hp' (le_refl 8)
      (p - Int.tmod negValue.toNat p) (by omega)
    refine ⟨out, hremainder hout ?_, fun fits => ?_⟩
    · rw [hcast, Int.cast_sub, hreduced, hneg, hvalue, Int.cast_natCast, ZMod.natCast_self]
      push_cast
      ring
    · rw [reduceElement, if_pos hlarge]
      simp only [bind, StateT.bind, hstore, hstore']

/-- What is not reached passes for a remainder of zero. -/
theorem reduce_eq (hp : 0 < p) (hp' : p < 256) (x : Stored n) (i : Fin n) {value : ℤ}
    (hstands : i.val < 2 ^ 31 → StandsFor (x i).1 value) :
    ∃ out : BitVec 8, (out.toNat : ℤ) = (if i.val < 2 ^ 31 then value else 0) % p ∧
      reduce p x i = (out, (x i).2) := by
  by_cases hi : i.val < 2 ^ 31
  · obtain ⟨out, hout, hreduce⟩ := reduceElement_eq hp hp' (hstands hi)
    exact ⟨out, by rw [hout, if_pos hi], by rw [reduce, if_pos hi, hreduce]⟩
  · exact ⟨0, by rw [if_neg hi]; rfl, by rw [reduce, if_neg hi]⟩

theorem standsFor_byte (byte : BitVec 8) : StandsFor (byte.setWidth 16) byte.toNat := by
  left
  rw [BitVec.toNat_setWidth]
  omega

end OLEmodPrimeInterface

/-- Shares below the modulus, with the product as their sum. -/
structure ProductShares (p C D A B : ℕ) : Prop where
  factors : C < p ∧ D < p
  summands : A < p ∧ B < p
  sum : A + B ≡ C * D [MOD p]

namespace GilboaModPrime

open OLEmodPrimeInterface (reduce reduce_eq standsFor_byte)

variable {p n : ℕ}

def randomize (p : ℕ) (drawn : Fin n → BitVec 128) : Fin n → BitVec 8 × Bool :=
  reduce p fun i => (((drawn i).setWidth 8).setWidth 16, true)

/-- `getNext` with random inputs, which gives the multiplicative and the additive share. -/
def getNext (p n : ℕ) (rank : Fin 2) : Program ((Fin n → BitVec 8 × Bool) × Stored n) := do
  let drawn ← .draw .prg n .done
  let mul := randomize p drawn
  let add ← (if rank = 0 then senderFunction p (fun i => (mul i).1)
    else receiverFunction p (fun i => (mul i).1) : Program (Stored n))
  pure (mul, add)

/-- `getNext` with a chosen additive share, which only the sender passes. -/
def getNextSender (p : ℕ) (mulShare addShare : Vec 8 n) : Program (Stored n) := do
  let a0 ← senderFunction p mulShare
  let o := fun i => correction p (a0 i).1 (addShare i) (a0 i).2
  let () ← .send 1 n (fun i => (o i).1.setWidth 128) (.done ())
  pure fun i => ((addShare i).setWidth 16, (o i).2)

def getNextReceiver (p : ℕ) (mulShare : Vec 8 n) : Program (Stored n) := do
  let a1 ← receiverFunction p mulShare
  let o ← .recv 0 n .done
  pure fun i => corrected p (a1 i).1 ((o i).setWidth 8) (a1 i).2

/-- Shares of a product with random factors, and nothing lost on the way to them. -/
def CorrectRandom (p n : ℕ) (tape : Fin 2 → Source → ℕ → BitVec 128) : Prop :=
  ∃ shares tape', Delivers (getNext p n) tape shares tape' ∧ ∀ i,
    ProductShares p ((shares 0).1 i).1.toNat ((shares 1).1 i).1.toNat ((shares 0).2 i).1.toNat
      ((shares 1).2 i).1.toNat ∧ ∀ q, ((shares q).1 i).2 = true ∧ ((shares q).2 i).2 = true

/-- Shares of a product with chosen factors; `fits` tells where the sender must have lost nothing. -/
def CorrectChosen (fits : Fin n → Bool) (p : ℕ) (mul : Fin 2 → Vec 8 n) (add : Vec 8 n)
    (tape : Fin 2 → Source → ℕ → BitVec 128) : Prop :=
  ∃ shares tape', Delivers (fun q : Fin 2 => if q = 0 then getNextSender p (mul 0) add
      else getNextReceiver p (mul 1)) tape shares tape' ∧ ∀ i : Fin n, i.val < 2 ^ 31 →
    ProductShares p (mul 0 i).toNat (mul 1 i).toNat (shares 0 i).1.toNat (shares 1 i).1.toNat ∧
      (shares 0 i).1.toNat = (add i).toNat ∧ (shares 0 i).2 = fits i ∧ (shares 1 i).2 = true

section Runs

variable (hp : 0 < p) (hp' : p < 256)
include hp hp'

theorem randomize_spec (drawn : Fin n → BitVec 128) (i : Fin n) :
    (randomize p drawn i).1.toNat < p ∧ (randomize p drawn i).2 = true ∧
      (2 ^ 31 ≤ i.val → (randomize p drawn i).1 = 0) := by
  obtain ⟨out, hout, hreduce⟩ := reduce_eq hp hp' (fun i => (((drawn i).setWidth 8).setWidth 16, true)) i
    fun _ => standsFor_byte _
  have hlt : (out.toNat : ℤ) < p := by
    rw [hout]
    exact Int.emod_lt_of_pos _ (by omega)
  rw [randomize, hreduce]
  refine ⟨Int.ofNat_lt.mp hlt, rfl, fun hi => ?_⟩
  rw [if_neg (by omega), Int.zero_emod] at hout
  exact BitVec.eq_of_toNat_eq (Int.ofNat_inj.mp hout)

theorem correctRandom {tape : Fin 2 → Source → ℕ → BitVec 128}
    (hdelivered : Delivered (GilboaOLE.choiceBits fun i : Fin n => (randomize p (fun i : Fin n =>
      tape 1 .prg i) i).1) p.size tape) : CorrectRandom p n tape := by
  let mul : Fin 2 → Fin n → BitVec 8 × Bool := fun q => randomize p fun i : Fin n => tape q .prg i
  let after : Fin 2 → Source → ℕ → BitVec 128 := fun q => advance (tape q) .prg n
  have hspec : ∀ q i, (mul q i).1.toNat < p ∧ (mul q i).2 = true ∧ (2 ^ 31 ≤ i.val → (mul q i).1 = 0) :=
    fun q => randomize_spec hp hp' _
  have hdraw : Runs (fun _ : Fin 2 => (.draw .prg n .done : Program (Fin n → BitVec 128))) tape
      (fun q i => tape q .prg i) after := Runs.settle (Runs.pure _ _)
  have hafter : Delivered (GilboaOLE.choiceBits fun i => (mul 1 i).1) p.size after := ⟨hdelivered.chosen⟩
  obtain ⟨y, tape', hshares, hruns⟩ := runs_functions hp hp' (fun i => (mul 0 i).1)
    (fun i => (hspec 1 i).1) hafter
  have hadd : Runs (fun q : Fin 2 => if q = 0 then senderFunction p (fun i => (mul q i).1)
      else receiverFunction p fun i => (mul q i).1) after
      (fun q => if q = 0 then senderShare p (fun i => (mul 0 i).1) after else y) tape' := by
    have hprograms : (fun q : Fin 2 => if q = 0 then senderFunction p (fun i => (mul q i).1)
        else receiverFunction p fun i => (mul q i).1) = fun q : Fin 2 =>
          if q = 0 then senderFunction p fun i => (mul 0 i).1 else receiverFunction p fun i => (mul 1 i).1 :=
      funext (Fin.forall_fin_two.mpr ⟨by rw [if_pos rfl, if_pos rfl],
        by rw [if_neg (by decide), if_neg (by decide)]⟩)
    rw [hprograms]
    exact hruns
  refine ⟨_, tape', delivers_iff_runs.mpr (hdraw.bind (hadd.bind (Runs.pure _ _))), fun i => ?_⟩
  obtain ⟨hbelow, hfits, hbelow', hfits', hsum⟩ := hshares i
  refine ⟨⟨⟨(hspec 0 i).1, (hspec 1 i).1⟩, ⟨hbelow, hbelow'⟩, ?_⟩,
    Fin.forall_fin_two.mpr ⟨⟨(hspec 0 i).2.1, hfits⟩, (hspec 1 i).2.1, hfits'⟩⟩
  have hseen : GilboaOLE.seen (fun i => (mul 1 i).1) i = (mul 1 i).1 := by
    rw [GilboaOLE.seen]
    split
    · rfl
    · exact ((hspec 1 i).2.2 (by omega)).symm
  rw [hseen] at hsum
  rw [← ZMod.natCast_eq_natCast_iff]
  push_cast
  exact hsum

theorem correctChosen (mul : Fin 2 → Vec 8 n) (add : Vec 8 n) (hmul : ∀ q i, (mul q i).toNat < p)
    (hadd : ∀ i, (add i).toNat < p) {tape : Fin 2 → Source → ℕ → BitVec 128}
    (hdelivered : Delivered (GilboaOLE.choiceBits (mul 1)) p.size tape) :
    CorrectChosen (fun i => decide ((add i).toNat ≤ (senderShare p (mul 0) tape i).1.toNat)) p mul add
      tape := by
  obtain ⟨y, tape', hshares, hruns⟩ := runs_functions hp hp' (mul 0) (hmul 1) hdelivered
  let a0 := senderShare p (mul 0) tape
  have hcorrections := fun i => correction_eq hp hp' (hshares i).1 (hadd i)
  choose o ho hcast hcorrection using hcorrections
  have hcorrecteds := fun i => corrected_eq hp hp' (hshares i).2.2.1 (ho i)
  choose z hz hcast' hcorrected using hcorrecteds
  let sent : Fin n → BitVec 8 × Bool := fun i => correction p (a0 i).1 (add i) (a0 i).2
  let next : Fin 2 → Stored n → Program (Stored n) := fun q v =>
    if q = 0 then
      let o := fun i => correction p (v i).1 (add i) (v i).2
      .send 1 n (fun i => (o i).1.setWidth 128) (.done fun i => ((add i).setWidth 16, (o i).2))
    else .recv 0 n fun o => .done fun i => corrected p (v i).1 ((o i).setWidth 8) (v i).2
  have hmessage : Runs (fun q : Fin 2 => next q (if q = 0 then a0 else y)) tape'
      (fun q => if q = 0 then fun i => ((add i).setWidth 16, (sent i).2)
        else fun i => corrected p (y i).1 (((sent i).1.setWidth 128).setWidth 8) (y i).2) tape' := by
    convert runs_message (fun i => (sent i).1.setWidth 128) (fun i => ((add i).setWidth 16, (sent i).2))
      (fun o i => corrected p (y i).1 ((o i).setWidth 8) (y i).2) tape' using 2 with q
    simp only [next, sent]
    split
    · rfl
    · rfl
  have hboth : Runs (fun q : Fin 2 => if q = 0 then getNextSender p (mul 0) add
      else getNextReceiver p (mul 1)) tape
      (fun q => if q = 0 then fun i => ((add i).setWidth 16, (sent i).2)
        else fun i => corrected p (y i).1 (((sent i).1.setWidth 128).setWidth 8) (y i).2) tape' := by
    convert hruns.bind hmessage using 2 with q
    fin_cases q <;> rfl
  refine ⟨_, tape', delivers_iff_runs.mpr hboth, fun i hi => ?_⟩
  obtain ⟨hbelow, hfits, hbelow', hfits', hsum⟩ := hshares i
  have hsent : sent i = (o i, decide ((add i).toNat ≤ (a0 i).1.toNat)) := by
    simp only [sent, hcorrection, a0, hfits, Bool.true_and]
  have hwidth : ((o i).setWidth 128).setWidth 8 = o i := by
    rw [BitVec.setWidth_setWidth_of_le _ (by decide), BitVec.setWidth_eq]
  have hkept : ((add i).setWidth 16).toNat = (add i).toNat := by
    rw [BitVec.toNat_setWidth]
    omega
  simp only [if_true, if_neg (by decide : ¬ (1 : Fin 2) = 0), hsent, hwidth, hcorrected, hkept]
  refine ⟨⟨⟨hmul 0 i, hmul 1 i⟩, ⟨hadd i, hz i⟩, ?_⟩, trivial, rfl, hfits'⟩
  rw [GilboaOLE.seen, if_pos hi] at hsum
  rw [← ZMod.natCast_eq_natCast_iff]
  push_cast
  rw [hcast', hcast, ← hsum]
  ring

end Runs

theorem CorrectChosen.fits_eq {fits fits' : Fin n → Bool} {mul : Fin 2 → Vec 8 n} {add : Vec 8 n}
    {tape : Fin 2 → Source → ℕ → BitVec 128} (hcorrect : CorrectChosen fits p mul add tape)
    (hcorrect' : CorrectChosen fits' p mul add tape) (i : Fin n) (hi : i.val < 2 ^ 31) :
    fits i = fits' i := by
  obtain ⟨shares, tape', hdelivers, hshares⟩ := hcorrect
  obtain ⟨shares', tape'', hdelivers', hshares'⟩ := hcorrect'
  have hsame := hdelivers.unique (delivers_iff_runs.mp hdelivers')
  obtain ⟨-, -, hfits, -⟩ := hshares i hi
  obtain ⟨-, -, hfits', -⟩ := hshares' i hi
  rw [← hfits, ← hfits', hsame]

end GilboaModPrime

/-! The generator from oblivious linear evaluation without a modulus. -/

namespace DerivedOLEmodP

open OLEmodPrimeInterface

variable {p n : ℕ}

abbrev Program (β : Type) := Proc (Fin 2) DummyBase.Source (BitVec 8) β

abbrev Reduced (n : ℕ) := Fin n → BitVec 8 × Bool

def widen (byte : BitVec 8) : BitVec 16 := byte.setWidth 16

def getCorrelated (add mul0 mul1 : Vec 8 n) : Vec 16 n := DummyOLE.getCorrelated widen add mul0 mul1

def getNext (p n : ℕ) (rank : Fin 2) : Program (Reduced n × Reduced n) :=
  (fun ole => (reduce p fun i => (widen (ole.1 i), true), reduce p fun i => (ole.2 i, true))) <$>
    DummyBase.getNext n widen getCorrelated rank

def getNextFirst (p : ℕ) (mulShare addShare : Vec 8 n) : Program (Reduced n) :=
  (fun y => reduce p fun i => (y i, true)) <$> DummyBase.getNextFirst widen mulShare addShare

def getNextSecond (p : ℕ) (mulShare : Vec 8 n) : Program (Reduced n) :=
  (fun y => reduce p fun i => (y i, true)) <$> DummyBase.getNextSecond getCorrelated mulShare

/-- The 16 bits are enough for a product of bytes, and for a byte below zero. -/
theorem standsFor_getCorrelated (add mul0 mul1 : Vec 8 n) (i : Fin n) :
    StandsFor (getCorrelated add mul0 mul1 i) ((mul0 i).toNat * (mul1 i).toNat - (add i).toNat) := by
  have hproduct : (mul0 i).toNat * (mul1 i).toNat ≤ 255 * 255 := Nat.mul_le_mul (by omega) (by omega)
  have hvalue : (getCorrelated add mul0 mul1 i).toNat =
      (2 ^ 16 - (add i).toNat + (mul0 i).toNat * (mul1 i).toNat) % 2 ^ 16 := by
    simp only [getCorrelated, DummyOLE.getCorrelated, widen, Pi.sub_apply, Pi.mul_apply,
      BitVec.toNat_sub,
      BitVec.toNat_mul, BitVec.toNat_setWidth]
    rw [Nat.mod_eq_of_lt (by omega : (mul0 i).toNat < 2 ^ 16),
      Nat.mod_eq_of_lt (by omega : (mul1 i).toNat < 2 ^ 16),
      Nat.mod_eq_of_lt (by omega : (add i).toNat < 2 ^ 16), Nat.mod_eq_of_lt (by omega : _ * _ < 2 ^ 16)]
  have hcast : ((mul0 i).toNat : ℤ) * (mul1 i).toNat =
      ((mul0 i).toNat * (mul1 i).toNat : ℕ) := by push_cast; rfl
  rw [StandsFor, hcast, hvalue]
  omega

structure Correct (p n : ℕ) : Prop where
  random : ∀ tape : Fin 2 → DummyBase.Source → ℕ → BitVec 8, tape 0 .allPrg = tape 1 .allPrg →
    ∃ shares tape', Delivers (getNext p n) tape shares tape' ∧ ∀ i,
      ProductShares p ((shares 0).1 i).1.toNat ((shares 1).1 i).1.toNat ((shares 0).2 i).1.toNat
        ((shares 1).2 i).1.toNat ∧ ∀ q, ((shares q).1 i).2 = true ∧ ((shares q).2 i).2 = true
  chosen : ∀ (mul : Fin 2 → Vec 8 n) (add : Vec 8 n), (∀ q i, (mul q i).toNat < p) →
    (∀ i, (add i).toNat < p) → ∀ tape : Fin 2 → DummyBase.Source → ℕ → BitVec 8,
    ∃ shares tape', Delivers (fun q : Fin 2 => if q = 0 then getNextFirst p (mul 0) add
        else getNextSecond p (mul 1)) tape shares tape' ∧ ∀ i : Fin n, i.val < 2 ^ 31 →
      ProductShares p (mul 0 i).toNat (mul 1 i).toNat (shares 0 i).1.toNat (shares 1 i).1.toNat ∧
        (shares 0 i).1 = add i ∧ ∀ q, (shares q i).2 = true

section Runs

variable (hp : 0 < p) (hp' : p < 256)
include hp hp'

theorem reduce_widen (byte : Vec 8 n) (i : Fin n) :
    ∃ out : BitVec 8, (out.toNat : ℤ) = (if i.val < 2 ^ 31 then ((byte i).toNat : ℤ) else 0) % p ∧
      reduce p (fun i => (widen (byte i), true)) i = (out, true) :=
  reduce_eq hp hp' _ i fun _ => standsFor_byte (byte i)

theorem reduce_getCorrelated (add mul0 mul1 : Vec 8 n) (i : Fin n) :
    ∃ out : BitVec 8, (out.toNat : ℤ) = (if i.val < 2 ^ 31 then
        ((mul0 i).toNat : ℤ) * (mul1 i).toNat - (add i).toNat else 0) % p ∧
      reduce p (fun i => (getCorrelated add mul0 mul1 i, true)) i = (out, true) :=
  reduce_eq hp hp' _ i fun _ => standsFor_getCorrelated add mul0 mul1 i

omit hp' in
/-- Remainders of a product's factors and summands. -/
theorem productShares_of_emod {C D A B : ℕ} {c d a b : ℤ} (hC : (C : ℤ) = c % p) (hD : (D : ℤ) = d % p)
    (hA : (A : ℤ) = a % p) (hB : (B : ℤ) = b % p) (hsum : a + b = c * d) : ProductShares p C D A B := by
  have hlt : ∀ {X : ℕ} {x : ℤ}, (X : ℤ) = x % p → X < p := by
    intro X x hX
    have hupper := Int.emod_lt_of_pos x (by omega : (0 : ℤ) < p)
    omega
  refine ⟨⟨hlt hC, hlt hD⟩, ⟨hlt hA, hlt hB⟩, ?_⟩
  rw [← Int.natCast_modEq_iff]
  push_cast
  rw [hA, hB, hC, hD]
  calc a % p + b % p ≡ a + b [ZMOD p] := (Int.mod_modEq a p).add (Int.mod_modEq b p)
    _ = c * d := hsum
    _ ≡ c % p * (d % p) [ZMOD p] := ((Int.mod_modEq c p).mul (Int.mod_modEq d p)).symm

theorem correct_of_lt : Correct p n := by
  constructor
  · intro tape hcommon
    obtain ⟨B, C, D, tape', hruns⟩ := DummyBase.runs_getNext widen (@getCorrelated n) hcommon
    have hreduced := hruns.map fun _ ole =>
      (reduce p fun i => (widen (ole.1 i), true), reduce p fun i => (ole.2 i, true))
    refine ⟨_, tape', delivers_iff_runs.mpr hreduced, fun i => ?_⟩
    obtain ⟨first, hfirst, hstore⟩ := reduce_widen hp hp' C i
    obtain ⟨second, hsecond, hstore'⟩ := reduce_widen hp hp' D i
    obtain ⟨kept, hkept, hstore''⟩ := reduce_widen hp hp' B i
    obtain ⟨rest, hrest, hstore'''⟩ := reduce_getCorrelated hp hp' B C D i
    simp only [if_true, if_neg (by decide : ¬ (1 : Fin 2) = 0), hstore, hstore', hstore'', hstore''']
    refine ⟨productShares_of_emod hp hfirst hsecond hrest hkept ?_, ?_⟩
    · split
      · ring
      · ring
    · refine Fin.forall_fin_two.mpr ⟨⟨?_, ?_⟩, ?_, ?_⟩
      · simp only [if_true, hstore]
      · simp only [if_true, hstore''']
      · simp only [if_neg (by decide : ¬ (1 : Fin 2) = 0), hstore']
      · simp only [if_neg (by decide : ¬ (1 : Fin 2) = 0), hstore'']
  · intro mul add hmul hadd tape
    have hreduced := (DummyBase.runs_getNextChosen widen getCorrelated mul add tape).map fun _ y =>
      reduce p fun i => (y i, true)
    have hruns : Runs (fun q : Fin 2 => if q = 0 then getNextFirst p (mul 0) add
        else getNextSecond p (mul 1)) tape (fun q => reduce p fun i =>
          ((if q = 0 then fun i => widen (add i) else getCorrelated add (mul 0) (mul 1)) i, true)) tape := by
      convert hreduced using 2 with q
      fin_cases q <;> rfl
    refine ⟨_, tape, delivers_iff_runs.mpr hruns, fun i hi => ?_⟩
    obtain ⟨kept, hkept, hstore⟩ := reduce_widen hp hp' add i
    obtain ⟨rest, hrest, hstore'⟩ := reduce_getCorrelated hp hp' add (mul 0) (mul 1) i
    simp only [if_true, if_neg (by decide : ¬ (1 : Fin 2) = 0), hstore, hstore']
    have hadd' := hadd i
    have hmul' := hmul 0 i
    have hmul'' := hmul 1 i
    refine ⟨productShares_of_emod hp (Int.emod_eq_of_lt (by omega) (by omega)).symm
      (Int.emod_eq_of_lt (by omega) (by omega)).symm hkept hrest ?_, ?_, ?_⟩
    · rw [if_pos hi, if_pos hi]
      ring
    · rw [if_pos hi, Int.emod_eq_of_lt (by omega) (by omega)] at hkept
      exact BitVec.eq_of_toNat_eq (Int.ofNat_inj.mp hkept)
    · refine Fin.forall_fin_two.mpr ⟨?_, ?_⟩
      · simp only [if_true, hstore]
      · simp only [if_neg (by decide : ¬ (1 : Fin 2) = 0), hstore']

end Runs

end DerivedOLEmodP

section Result

open CorrelatedTransfer GilboaModPrime OLEmodPrimeInterface

/-- Both generators give shares of products, in both modes and without a loss, except that the sender's
difference wraps around where its chosen share is above the random one. -/
theorem ole_mod_prime_correct {p n : ℕ} (hp : 0 < p) (hp' : p < 256) :
    (∀ tape : Fin 2 → Source → ℕ → BitVec 128,
      Delivered (GilboaOLE.choiceBits fun i : Fin n => (randomize p (fun i : Fin n => tape 1 .prg i) i).1)
        p.size tape → CorrectRandom p n tape) ∧
    (∀ (mul : Fin 2 → Vec 8 n) (add : Vec 8 n), (∀ q i, (mul q i).toNat < p) → (∀ i, (add i).toNat < p) →
      ∀ tape, Delivered (GilboaOLE.choiceBits (mul 1)) p.size tape →
      CorrectChosen (fun i => decide ((add i).toNat ≤ (senderShare p (mul 0) tape i).1.toNat)) p mul add
        tape) ∧
    DerivedOLEmodP.Correct p n ∧
    (∀ (add mul0 mul1 : Vec 8 n) (i : Fin n), StandsFor (DerivedOLEmodP.getCorrelated add mul0 mul1 i)
      ((mul0 i).toNat * (mul1 i).toNat - (add i).toNat)) ∧
    ∀ (x : Stored n) (i : Fin n) (value : ℤ), i.val < 2 ^ 31 → StandsFor (x i).1 value →
      ((reduce p x i).1.toNat : ℤ) = value % p ∧ (reduce p x i).2 = (x i).2 := by
  refine ⟨fun tape => correctRandom hp hp',
    fun mul add hmul hadd tape => correctChosen hp hp' mul add hmul hadd,
    DerivedOLEmodP.correct_of_lt hp hp', DerivedOLEmodP.standsFor_getCorrelated, ?_⟩
  intro x i value hi hstands
  obtain ⟨out, hout, hreduce⟩ := reduce_eq hp hp' x i fun _ => hstands
  rw [hreduce, hout, if_pos hi]
  exact ⟨rfl, rfl⟩

/-- Transfers of two messages a round, and what the choices take of them. -/
def transferTape (choices : ℕ → Fin 2 → Bool) : Fin 2 → Source → ℕ → BitVec 128 := fun q source k =>
  let zero := BitVec.ofNat 128 (1000 * k + 7)
  let one := BitVec.ofNat 128 (77 * k + 300)
  match source with
  | .prg => BitVec.ofNat 128 (97 * k + q + 5)
  | .zero => zero
  | .one => one
  | .chosen => if choices (k / 2) ⟨k % 2, Nat.mod_lt k (by decide)⟩ then one else zero

theorem transferTape_delivered (choices : ℕ → Fin 2 → Bool) (rounds : ℕ) :
    Delivered choices rounds (transferTape choices) := by
  constructor
  intro bit _ i
  have hround : (bit * 2 + i.val) / 2 = bit := by omega
  have hplace : (⟨(bit * 2 + i.val) % 2, Nat.mod_lt _ (by decide)⟩ : Fin 2) = i := by
    apply Fin.ext
    show (bit * 2 + i.val) % 2 = i.val
    omega
  simp only [transferTape, hround, hplace]

/-- Of the two chosen shares, 250 is above the random share that the sender has, and 30 is not. -/
theorem ole_mod_prime_correct_largest :
    let drawn : Vec 8 2 := fun i => (randomize 251 (fun i : Fin 2 => BitVec.ofNat 128 (97 * i + 6)) i).1
    let mul : Fin 2 → Vec 8 2 := ![![250, 17], ![249, 3]]
    Nat.Prime 251 ∧ CorrectRandom 251 2 (transferTape (GilboaOLE.choiceBits drawn)) ∧
      CorrectChosen ![false, true] 251 mul ![250, 30] (transferTape (GilboaOLE.choiceBits (mul 1))) ∧
      DerivedOLEmodP.Correct 251 2 ∧
      ((reduce 251 ![(62500, true), (BitVec.ofInt 16 (-1), true)] 1).1.toNat : ℤ) = -1 % 251 := by
  intro drawn mul
  obtain ⟨hrandom, hchosen, hderived, -, hreduce⟩ :=
    ole_mod_prime_correct (p := 251) (n := 2) (by decide) (by decide)
  have hshares : (fun i => decide (((![250, 30] : Vec 8 2) i).toNat ≤ (senderShare 251 (mul 0)
      (transferTape (GilboaOLE.choiceBits (mul 1))) i).1.toNat)) = ![false, true] := by decide +kernel
  refine ⟨by norm_num, hrandom _ (transferTape_delivered _ _), ?_, hderived,
    (hreduce ![(62500, true), (BitVec.ofInt 16 (-1), true)] 1 (-1) (by decide)
      (by unfold StandsFor; decide)).1⟩
  rw [← hshares]
  exact hchosen mul ![250, 30] (by decide) (by decide) _ (transferTape_delivered _ _)

/-- With a share of one and a random share of zero, the difference is negative. -/
theorem not_correctChosen_difference : ¬ ∀ (p n : ℕ), p.Prime → p < 256 →
    ∀ (mul : Fin 2 → Vec 8 n) (add : Vec 8 n), (∀ q i, (mul q i).toNat < p) → (∀ i, (add i).toNat < p) →
    ∀ tape, Delivered (GilboaOLE.choiceBits (mul 1)) p.size tape →
      CorrectChosen (fun _ => true) p mul add tape := by
  intro hall
  let mul : Fin 2 → Vec 8 1 := fun _ _ => 0
  let add : Vec 8 1 := fun _ => 1
  let tape : Fin 2 → Source → ℕ → BitVec 128 := fun _ _ _ => 0
  have hmul : ∀ q i, (mul q i).toNat < 2 := fun q i => by decide
  have hadd : ∀ i, (add i).toNat < 2 := fun i => by decide
  have hdelivered : Delivered (GilboaOLE.choiceBits (mul 1)) (Nat.size 2) tape :=
    ⟨fun bit _ i => (ite_self _).symm⟩
  have hfits := (hall 2 1 Nat.prime_two (by decide) mul add hmul hadd tape hdelivered).fits_eq
    (correctChosen (by decide) (by decide) mul add hmul hadd hdelivered) 0 (by decide)
  revert hfits
  decide

end Result

end CryptDough
