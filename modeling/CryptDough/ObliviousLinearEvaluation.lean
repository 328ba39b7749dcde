import CryptDough.BeaverTriples
import CryptDough.CorrelatedTransfers

/-! Oblivious linear evaluation modulo a power of two: Gilboa's multiplication with one oblivious
transfer for each bit, and the dummy generator. -/

namespace CryptDough

open Process
open Beaver2PC (Ole IsOleA Triple IsTripleA tripleOfA tripleOfA_isTriple)

variable {w n : ℕ}

section Correlations

variable {S : Type} [DecidableEq S]

/-- Every interleaving of a generator's programs ends, and the shares are a correlation. -/
def Correlates (generator : Fin 2 → Proc (Fin 2) S (BitVec w) (Vec w n × Vec w n))
    (tape : Fin 2 → S → ℕ → BitVec w) : Prop :=
  ∃ shares tape', Delivers generator tape shares tape' ∧ IsOleA fun p => ⟨(shares p).1, (shares p).2⟩

/-- With chosen shares the sender is left with its additive share, and the receiver with the rest. -/
def CorrelatesChosen (generator : Fin 2 → Proc (Fin 2) S (BitVec w) (Vec w n)) (mul : Fin 2 → Vec w n)
    (add : Vec w n) (tape : Fin 2 → S → ℕ → BitVec w) : Prop :=
  ∃ shares tape', Delivers generator tape shares tape' ∧ shares 0 = add ∧
    IsOleA fun p => ⟨mul p, shares p⟩

/-- The triples cut out of the shares multiply. -/
def GivesTriples (generator : Fin 2 → Proc (Fin 2) S (BitVec w) (Vec w (n + n) × Vec w (n + n)))
    (tape : Fin 2 → S → ℕ → BitVec w) : Prop :=
  ∃ (triple : Fin 2 → Triple w n) (tape' : _), IsTripleA triple ∧
    Delivers (fun p => (fun share => tripleOfA p ⟨share.1, share.2⟩) <$> generator p) tape triple tape'

/-- Any generator serves the generator of triples. -/
theorem Correlates.givesTriples
    {generator : Fin 2 → Proc (Fin 2) S (BitVec w) (Vec w (n + n) × Vec w (n + n))}
    {tape : Fin 2 → S → ℕ → BitVec w} (hgenerator : Correlates generator tape) :
    GivesTriples generator tape := by
  obtain ⟨shares, tape', hdelivers, hole⟩ := hgenerator
  have hruns := (delivers_iff_runs.mp hdelivers).map fun p share => tripleOfA p ⟨share.1, share.2⟩
  exact ⟨_, tape', tripleOfA_isTriple hole, delivers_iff_runs.mpr hruns⟩

end Correlations

namespace GilboaOLE

open CorrelatedTransfer

abbrev Program (w : ℕ) (β : Type) := Proc (Fin 2) Source (BitVec w) β

/-- Both messages of the transfers are read; the difference makes up for the one that was to be sent. -/
def sendCorrelatedAdditive (messages : Vec w n) : Program w (Vec w n) := do
  let temp0 ← .draw .zero n .done
  let temp1 ← .draw .one n .done
  let () ← .send 1 n (temp1 - (temp0 + messages)) (.done ())
  pure temp0

def receiveCorrelatedAdditive (choices : Fin n → Bool) : Program w (Vec w n) := do
  let OTbuff ← .draw .chosen n .done
  let temp ← .recv 0 n .done
  pure fun i => OTbuff i - if choices i then temp i else 0

def senderLoop (a : Vec w n) : (rounds bit : ℕ) → Vec w n → Program w (Vec w n)
  | 0, _, b => pure b
  | rounds + 1, bit, b => do
      let msg ← sendCorrelatedAdditive a
      senderLoop a rounds (bit + 1) (b - Vec.bitLeftShift msg bit)

def senderFunction (a : Vec w n) : Program w (Vec w n) := senderLoop a w 0 0

/-- The loop that sets the choices has an `int` index, which is negative after `2 ^ 31` elements, and so
above every size. -/
def choiceBits (x : Vec w n) (bit : ℕ) (i : Fin n) :
    Bool := decide (i.val < 2 ^ 31) && (x i).getLsbD bit

def receiverLoop (x : Vec w n) : (rounds bit : ℕ) → Vec w n → Program w (Vec w n)
  | 0, _, y => pure y
  | rounds + 1, bit, y => do
      let m ← receiveCorrelatedAdditive (choiceBits x bit)
      receiverLoop x rounds (bit + 1) (y + Vec.bitLeftShift m bit)

def receiverFunction (x : Vec w n) : Program w (Vec w n) := receiverLoop x w 0 0

/-- `getNext` with random inputs, which gives the multiplicative and the additive share. -/
def getNext (n : ℕ) (rank : Fin 2) : Program w (Vec w n × Vec w n) := do
  let mul ← .draw .prg n .done
  let add ← (if rank = 0 then senderFunction mul else receiverFunction mul : Program w (Vec w n))
  pure (mul, add)

/-- `getNext` with a chosen additive share, which only the sender passes. -/
def getNextSender (mulShare addShare : Vec w n) : Program w (Vec w n) := do
  let addRand ← senderFunction mulShare
  let () ← .send 1 n (addShare - addRand) (.done ())
  pure addShare

def getNextReceiver (mulShare : Vec w n) : Program w (Vec w n) := do
  let y ← receiverFunction mulShare
  let o ← .recv 0 n .done
  pure (y - o)

/-- What the choices tell of the receiver's input. -/
def seen (x : Vec w n) : Vec w n := fun i => if i.val < 2 ^ 31 then x i else 0

def lowBits (x : Vec w n) (bits : ℕ) : Vec w n := fun i => BitVec.ofNat w ((x i).toNat % 2 ^ bits)

theorem getLsbD_seen (x : Vec w n) (bit : ℕ) (i : Fin n) :
    (seen x i).getLsbD bit = choiceBits x bit i := by
  rw [seen, choiceBits]
  by_cases hi : i.val < 2 ^ 31
  · rw [if_pos hi, decide_eq_true hi, Bool.true_and]
  · rw [if_neg hi, decide_eq_false hi, Bool.false_and]
    exact BitVec.getLsbD_zero

theorem lowBits_zero (x : Vec w n) : lowBits x 0 = 0 := by
  ext i
  rw [lowBits, pow_zero, Nat.mod_one]
  rfl

theorem lowBits_width (x : Vec w n) : lowBits x w = x := by
  ext i
  rw [lowBits, Nat.mod_eq_of_lt (x i).isLt, BitVec.ofNat_toNat, BitVec.setWidth_eq]

/-- A bit adds its place. -/
theorem lowBits_succ (x : Vec w n) (bit : ℕ) (i : Fin n) :
    lowBits x (bit + 1) i = lowBits x bit i + if (x i).getLsbD bit then BitVec.ofNat w (2 ^ bit) else 0 := by
  have hbit : (x i).getLsbD bit = decide ((x i).toNat / 2 ^ bit % 2 = 1) := by
    rw [← BitVec.testBit_toNat, Nat.testBit_eq_decide_div_mod_eq]
  rw [lowBits, lowBits, Nat.mod_pow_succ, BitVec.ofNat_add, hbit]
  congr 1
  rcases Nat.mod_two_eq_zero_or_one ((x i).toNat / 2 ^ bit) with hzero | hone
  · simp [hzero]
  · simp [hone]

theorem bitLeftShift_apply (v : Vec w n) (bit : ℕ) (i : Fin n) :
    Vec.bitLeftShift v bit i = v i * BitVec.ofNat w (2 ^ bit) := by
  have hplace : BitVec.twoPow w bit = BitVec.ofNat w (2 ^ bit) :=
    BitVec.eq_of_toNat_eq (by rw [BitVec.toNat_twoPow, BitVec.toNat_ofNat])
  rw [Vec.bitLeftShift, BitVec.shiftLeft_eq_mul_twoPow, hplace]

/-- What a round for one bit leaves to the parties. -/
theorem round_invariant (a x m0 m1 b y : Vec w n) (bit : ℕ) (hinv : b + y = a * lowBits (seen x) bit) :
    (b - Vec.bitLeftShift m0 bit) + (y + Vec.bitLeftShift (fun i =>
      (if choiceBits x bit i then m1 i else m0 i) -
        if choiceBits x bit i then (m1 - (m0 + a)) i else 0) bit) = a * lowBits (seen x) (bit + 1) := by
  funext i
  have hi : b i + y i = a i * lowBits (seen x) bit i := congrFun hinv i
  have hround := transfer_identity (m0 i) (m1 i) (a i) (b i) (y i) _ (BitVec.ofNat w (2 ^ bit))
    (choiceBits x bit i) hi
  rw [Pi.add_apply, Pi.sub_apply, Pi.add_apply, Pi.mul_apply, bitLeftShift_apply, bitLeftShift_apply,
    lowBits_succ, getLsbD_seen]
  exact hround

/-- After every bit the sums of the parties are a product by the bits so far. -/
theorem runs_loops (a x : Vec w n) (rounds bit : ℕ) {b y : Vec w n}
    {tape : Fin 2 → Source → ℕ → BitVec w}
    (hdelivered : Delivered (fun k => choiceBits x (bit + k)) rounds tape)
    (hinv : b + y = a * lowBits (seen x) bit) :
    ∃ b' y' tape', b' + y' = a * lowBits (seen x) (bit + rounds) ∧
      Runs (fun p : Fin 2 => if p = 0 then senderLoop a rounds bit b else receiverLoop x rounds bit y) tape
        (fun p => if p = 0 then b' else y') tape' := by
  induction rounds generalizing bit b y tape with
  | zero =>
      refine ⟨b, y, tape, hinv, ?_⟩
      convert Runs.pure (fun p : Fin 2 => if p = 0 then b else y) tape using 2 with p
      split <;> rfl
  | succ rounds ih =>
      obtain ⟨tape', hadvanced, hround⟩ := runs_round (fun m0 m1 : Vec w n => m1 - (m0 + a))
        (fun m0 _ => m0) (fun m v i => m i - if choiceBits x bit i then v i else 0) tape
      have hchosen : (fun i : Fin n => tape 1 .chosen i) = fun i : Fin n =>
          if choiceBits x bit i then tape 0 .one i else tape 0 .zero i :=
        funext hdelivered.first
      have hrest : Delivered (fun k => choiceBits x (bit + 1 + k)) rounds tape' := by
        convert hdelivered.advance hadvanced using 3 with k
        omega
      have hstep := round_invariant a x (fun i => tape 0 .zero i) (fun i => tape 0 .one i) b y bit hinv
      obtain ⟨b', y', tape'', hsum, hloops⟩ := ih (bit + 1) hrest hstep
      refine ⟨b', y', tape'', ?_, ?_⟩
      · rw [hsum, Nat.add_right_comm, Nat.add_assoc]
      · rw [hchosen] at hround
        let next : Fin 2 → Vec w n → Program w (Vec w n) := fun p v =>
          if p = 0 then senderLoop a rounds (bit + 1) (b - Vec.bitLeftShift v bit)
          else receiverLoop x rounds (bit + 1) (y + Vec.bitLeftShift v bit)
        have hnext : Runs (fun p : Fin 2 => next p (if p = 0 then fun i => tape 0 .zero i
            else fun i => (if choiceBits x bit i then tape 0 .one i else tape 0 .zero i) -
              if choiceBits x bit i then ((fun i : Fin n => tape 0 .one i) -
                ((fun i : Fin n => tape 0 .zero i) + a)) i else 0)) tape'
            (fun p => if p = 0 then b' else y') tape'' := by
          convert hloops using 2 with p
          change (if p = 0 then _ else _) = _
          split <;> rfl
        have hboth := hround.bind hnext
        convert hboth using 2 with p
        change _ = Proc.bind _ (next p)
        simp only [next]
        split <;> rfl

theorem runs_functions (a x : Vec w n) {tape : Fin 2 → Source → ℕ → BitVec w}
    (hdelivered : Delivered (choiceBits x) w tape) :
    ∃ b y tape', b + y = a * seen x ∧
      Runs (fun p : Fin 2 => if p = 0 then senderFunction a else receiverFunction x) tape
        (fun p => if p = 0 then b else y) tape' := by
  have hinv : (0 : Vec w n) + 0 = a * lowBits (seen x) 0 := by rw [lowBits_zero, mul_zero, add_zero]
  have hall : Delivered (fun k => choiceBits x (0 + k)) w tape := by
    simpa only [Nat.zero_add] using hdelivered
  obtain ⟨b, y, tape', hsum, hruns⟩ := runs_loops a x w 0 hall hinv
  rw [Nat.zero_add, lowBits_width] at hsum
  exact ⟨b, y, tape', hsum, hruns⟩

theorem runs_getNext {tape : Fin 2 → Source → ℕ → BitVec w}
    (hdelivered : Delivered (choiceBits fun i : Fin n => tape 1 .prg i) w tape) :
    ∃ b y tape', b + y = (fun i : Fin n => tape 0 .prg i) * seen (fun i : Fin n => tape 1 .prg i) ∧
      Runs (getNext n) tape (fun p => (fun i : Fin n => tape p .prg i, if p = 0 then b else y)) tape' := by
  let after : Fin 2 → Source → ℕ → BitVec w := fun p => advance (tape p) .prg n
  have hdraw : Runs (fun _ : Fin 2 => (.draw .prg n .done : Program w (Vec w n))) tape
      (fun p i => tape p .prg i) after := Runs.settle (Runs.pure _ _)
  have hafter : Delivered (choiceBits fun i : Fin n => tape 1 .prg i) w after := ⟨hdelivered.chosen⟩
  obtain ⟨b, y, tape', hsum, hruns⟩ := runs_functions (fun i : Fin n => tape 0 .prg i) _ hafter
  refine ⟨b, y, tape', hsum, ?_⟩
  have hadd : Runs (fun p : Fin 2 => if p = 0 then senderFunction (fun i : Fin n => tape p .prg i)
      else receiverFunction fun i : Fin n => tape p .prg i) after (fun p => if p = 0 then b else y) tape' := by
    convert hruns using 2 with p
    fin_cases p <;> rfl
  exact hdraw.bind (hadd.bind (Runs.pure _ _))

theorem runs_getNextChosen (mul : Fin 2 → Vec w n) (add : Vec w n)
    {tape : Fin 2 → Source → ℕ → BitVec w}
    (hdelivered : Delivered (choiceBits (mul 1)) w tape) :
    ∃ y tape', add + y = mul 0 * seen (mul 1) ∧
      Runs (fun p : Fin 2 => if p = 0 then getNextSender (mul 0) add else getNextReceiver (mul 1)) tape
        (fun p => if p = 0 then add else y) tape' := by
  obtain ⟨b, y, tape', hsum, hruns⟩ := runs_functions (mul 0) (mul 1) hdelivered
  refine ⟨y - (add - b), tape', ?_, ?_⟩
  · rw [← hsum]
    ring
  · let next : Fin 2 → Vec w n → Program w (Vec w n) := fun p v =>
      if p = 0 then .send 1 n (add - v) (.done add) else .recv 0 n fun o => .done (v - o)
    have hmessage : Runs (fun p : Fin 2 => next p (if p = 0 then b else y)) tape'
        (fun p => if p = 0 then add else y - (add - b)) tape' := by
      convert runs_message (add - b) add (fun o => y - o) tape' using 2 with p
      fin_cases p <;> rfl
    convert hruns.bind hmessage using 2 with p
    fin_cases p <;> rfl

/-- The correlations hold on all tapes with oblivious transfers of the choices. -/
structure Correct (w n : ℕ) : Prop where
  random : ∀ tape : Fin 2 → Source → ℕ → BitVec w,
    Delivered (choiceBits fun i : Fin n => tape 1 .prg i) w tape → Correlates (getNext n) tape
  chosen : ∀ (mul : Fin 2 → Vec w n) (add : Vec w n) (tape : Fin 2 → Source → ℕ → BitVec w),
    Delivered (choiceBits (mul 1)) w tape →
    CorrelatesChosen (fun p => if p = 0 then getNextSender (mul 0) add else getNextReceiver (mul 1)) mul add
      tape

theorem seen_eq (hn : n ≤ 2 ^ 31) (x : Vec w n) : seen x = x := by
  funext i
  exact if_pos (lt_of_lt_of_le i.isLt hn)

theorem correct_of_le (hn : n ≤ 2 ^ 31) : Correct w n := by
  constructor
  · intro tape hdelivered
    obtain ⟨b, y, tape', hsum, hruns⟩ := runs_getNext hdelivered
    rw [seen_eq hn] at hsum
    exact ⟨_, tape', delivers_iff_runs.mpr hruns, hsum⟩
  · intro mul add tape hdelivered
    obtain ⟨y, tape', hsum, hruns⟩ := runs_getNextChosen mul add hdelivered
    rw [seen_eq hn] at hsum
    exact ⟨_, tape', delivers_iff_runs.mpr hruns, rfl, hsum⟩

/-- The product of an element past the choices is lost. -/
theorem not_correct_of_lt (hw : 0 < w) (hn : 2 ^ 31 < n) : ¬ Correct w n := by
  intro hcorrect
  let mul : Fin 2 → Vec w n := fun _ _ => 1
  let tape : Fin 2 → Source → ℕ → BitVec w := fun _ _ _ => 0
  have hdelivered : Delivered (choiceBits (mul 1)) w tape := ⟨fun bit _ i => (ite_self _).symm⟩
  obtain ⟨y, tape', hsum, hruns⟩ := runs_getNextChosen mul 0 hdelivered
  obtain ⟨shares, tape'', hdelivers, -, hole⟩ := hcorrect.chosen mul 0 tape hdelivered
  have hshares := hdelivers.unique hruns
  have hfst : shares 0 = 0 := congrFun hshares.symm 0
  have hsnd : shares 1 = y := congrFun hshares.symm 1
  have hlost := congrFun hsum ⟨2 ^ 31, hn⟩
  have hwanted : (shares 0 + shares 1) ⟨2 ^ 31, hn⟩ = (mul 0 * mul 1) ⟨2 ^ 31, hn⟩ := congrFun hole _
  rw [hfst, hsnd, hlost] at hwanted
  have hzero : (mul 0 * seen (mul 1)) ⟨2 ^ 31, hn⟩ = 0 := by
    rw [Pi.mul_apply, seen, if_neg (lt_irrefl _), mul_zero]
  rw [hzero, Pi.mul_apply] at hwanted
  have hone : (0 : BitVec w).toNat = (1 * 1 : BitVec w).toNat := congrArg BitVec.toNat hwanted
  rw [one_mul] at hone
  have hnat : (1 : BitVec w).toNat = 1 := Nat.mod_eq_of_lt (Nat.one_lt_two_pow hw.ne')
  rw [hnat] at hone
  exact absurd hone (by simp)

end GilboaOLE

namespace OLEGenerator

variable {S : Type} [DecidableEq S] {t v : ℕ}

/-- The default `getNext`, for the generators that give no other: the shares are drawn and passed to
`getNext` with chosen shares, of which the first party and the second have their own. -/
def getNext (localPRG : S) (first : Vec t n → Vec t n → Proc (Fin 2) S (BitVec t) (Vec v n))
    (second : Vec t n → Proc (Fin 2) S (BitVec t) (Vec v n)) (rank : Fin 2) :
    Proc (Fin 2) S (BitVec t) (Vec t n × Vec v n) := do
  let m ← .draw localPRG n .done
  if rank = 0 then do
    let a ← .draw localPRG n .done
    let share ← first m a
    pure (m, share)
  else do
    let share ← second m
    pure (m, share)

/-- It gives what the shares it has drawn would give, had they been chosen. -/
theorem runs_getNext {localPRG : S} {first : Vec t n → Vec t n → Proc (Fin 2) S (BitVec t) (Vec v n)}
    {second : Vec t n → Proc (Fin 2) S (BitVec t) (Vec v n)} {shares : (Fin 2 → Vec t n) → Vec t n →
      Fin 2 → Vec v n}
    (hchosen : ∀ (mul : Fin 2 → Vec t n) (add : Vec t n) (tape : Fin 2 → S → ℕ → BitVec t),
      Runs (fun p : Fin 2 => if p = 0 then first (mul 0) add else second (mul 1)) tape (shares mul add) tape)
    (tape : Fin 2 → S → ℕ → BitVec t) :
    ∃ (mul : Fin 2 → Vec t n) (add : Vec t n) (tape' : _),
      Runs (getNext localPRG first second) tape (fun p => (mul p, shares mul add p)) tape' := by
  let mul : Fin 2 → Vec t n := fun p i => tape p localPRG i
  let add : Vec t n := fun i => advance (tape 0) localPRG n localPRG i
  let after : Fin 2 → S → ℕ → BitVec t := fun p =>
    if p = 0 then advance (advance (tape 0) localPRG n) localPRG n else advance (tape 1) localPRG n
  refine ⟨mul, add, after, ?_⟩
  let drawn : Fin 2 → Proc (Fin 2) S (BitVec t) (Vec t n × Vec t n) := fun p =>
    if p = 0 then .draw localPRG n fun m => .draw localPRG n fun a => .done (m, a)
    else .draw localPRG n fun m => .done (m, 0)
  let next : Fin 2 → Vec t n × Vec t n → Proc (Fin 2) S (BitVec t) (Vec t n × Vec v n) := fun p x =>
    (fun share => (x.1, share)) <$> if p = 0 then first x.1 x.2 else second x.1
  have hsettled : ∀ p, (drawn p).settle (tape p) =
      (pure (if p = 0 then (mul p, add) else (mul p, 0)), after p) :=
    Fin.forall_fin_two.mpr ⟨rfl, rfl⟩
  have hdrawn : Runs drawn tape (fun p => if p = 0 then (mul p, add) else (mul p, 0)) after := by
    apply Runs.settle
    simp only [hsettled]
    exact Runs.pure _ _
  have hshares : Runs (fun p => next p (if p = 0 then (mul p, add) else (mul p, 0))) after
      (fun p => (mul p, shares mul add p)) after := by
    convert (hchosen mul add after).map fun p share => (mul p, share) using 2 with p
    fin_cases p <;> rfl
  convert hdrawn.bind hshares using 2 with p
  fin_cases p <;> rfl

end OLEGenerator

/-! The dummy generators: both parties draw all shares but one from a generator they have in common. -/

namespace DummyBase

inductive Source
  | allPrg
  | localPrg
  deriving DecidableEq

variable {t v : ℕ} (cast : BitVec t → BitVec v) (getCorrelated : Vec t n → Vec t n → Vec t n → Vec v n)

def getNext (n : ℕ) (cast : BitVec t → BitVec v) (getCorrelated : Vec t n → Vec t n → Vec t n → Vec v n)
    (rank : Fin 2) : Proc (Fin 2) Source (BitVec t) (Vec t n × Vec v n) := do
  let B ← .draw .allPrg n .done
  let C ← .draw .allPrg n .done
  let D ← .draw .allPrg n .done
  let A := getCorrelated B C D
  pure (if rank = 0 then (C, A) else (D, fun i => cast (B i)))

def getNextFirst (mulShare addShare : Vec t n) : Proc (Fin 2) Source (BitVec t) (Vec v n) := do
  let () ← .send 1 n mulShare (.done ())
  let () ← .send 1 n addShare (.done ())
  pure fun i => cast (addShare i)

def getNextSecond (mulShare : Vec t n) : Proc (Fin 2) Source (BitVec t) (Vec v n) := do
  let mul0 ← .recv 0 n .done
  let add ← .recv 0 n .done
  pure (getCorrelated add mul0 mulShare)

/-- Parties with the same generator draw the same shares. -/
theorem runs_getNext {tape : Fin 2 → Source → ℕ → BitVec t}
    (hcommon : tape 0 .allPrg = tape 1 .allPrg) :
    ∃ (B C D : Vec t n) (tape' : _), Runs (getNext n cast getCorrelated) tape
      (fun p => if p = 0 then (C, getCorrelated B C D) else (D, fun i => cast (B i))) tape' := by
  let second : Fin 2 → Source → ℕ → BitVec t := fun p => advance (tape p) .allPrg n
  let third : Fin 2 → Source → ℕ → BitVec t := fun p => advance (second p) .allPrg n
  have hsecond : second 0 .allPrg = second 1 .allPrg := by
    simp only [second, advance_self, hcommon]
  have hthird : third 0 .allPrg = third 1 .allPrg := by
    simp only [third, advance_self, hsecond]
  refine ⟨fun i => tape 0 .allPrg i, fun i => second 0 .allPrg i, fun i => third 0 .allPrg i,
    fun p => advance (third p) .allPrg n, ?_⟩
  have hsettled : ∀ p, (getNext n cast getCorrelated p).settle (tape p) =
      (pure (if p = 0 then (fun i : Fin n => second 0 .allPrg i,
          getCorrelated (fun i => tape 0 .allPrg i) (fun i => second 0 .allPrg i)
            fun i => third 0 .allPrg i)
        else (fun i : Fin n => third 0 .allPrg i, fun i : Fin n => cast (tape 0 .allPrg i))),
        advance (third p) .allPrg n) :=
    Fin.forall_fin_two.mpr ⟨rfl, by rw [hthird, hcommon]; rfl⟩
  apply Runs.settle
  simp only [hsettled]
  exact Runs.pure _ _

/-- The second party is sent the shares of the first one, and computes its own. -/
theorem runs_getNextChosen (mul : Fin 2 → Vec t n) (add : Vec t n)
    (tape : Fin 2 → Source → ℕ → BitVec t) :
    Runs (fun p : Fin 2 => if p = 0 then getNextFirst cast (mul 0) add
        else getNextSecond getCorrelated (mul 1)) tape
      (fun p => if p = 0 then fun i => cast (add i) else getCorrelated add (mul 0) (mul 1)) tape := by
  have hfirst := CorrelatedTransfer.runs_message (mul 0) none some tape
  let next : Fin 2 → Option (Vec t n) → Proc (Fin 2) Source (BitVec t) (Vec v n) := fun p received =>
    if p = 0 then .send 1 n add (.done fun i => cast (add i))
    else .recv 0 n fun add => .done (getCorrelated add (received.getD 0) (mul 1))
  have hsecond : Runs (fun p : Fin 2 => next p (if p = 0 then none else some (mul 0))) tape
      (fun p => if p = 0 then fun i => cast (add i) else getCorrelated add (mul 0) (mul 1)) tape := by
    convert CorrelatedTransfer.runs_message add (fun i => cast (add i))
      (fun add => getCorrelated add (mul 0) (mul 1)) tape using 2 with p
    fin_cases p <;> rfl
  convert hfirst.bind hsecond using 2 with p
  fin_cases p <;> rfl

end DummyBase

/-- `static_cast<Vector<I>>(mul0) * mul1 - add` -/
def DummyOLE.getCorrelated {t v : ℕ} (cast : BitVec t → BitVec v) (add mul0 mul1 : Vec t n) : Vec v n :=
  (fun i => cast (mul0 i)) * (fun i => cast (mul1 i)) - fun i => cast (add i)

namespace DummyOLE

open DummyBase (Source getNext getNextFirst getNextSecond)

structure Correct (w n : ℕ) : Prop where
  random : ∀ tape : Fin 2 → Source → ℕ → BitVec w, tape 0 .allPrg = tape 1 .allPrg →
    Correlates (getNext n id (getCorrelated id)) tape
  drawn : ∀ tape : Fin 2 → Source → ℕ → BitVec w,
    Correlates (n := n) (OLEGenerator.getNext .localPrg (getNextFirst id)
      (getNextSecond (getCorrelated id))) tape
  chosen : ∀ (mul : Fin 2 → Vec w n) (add : Vec w n) (tape : Fin 2 → Source → ℕ → BitVec w),
    CorrelatesChosen (fun p => if p = 0 then getNextFirst id (mul 0) add
      else getNextSecond (getCorrelated id) (mul 1)) mul add tape

theorem correct (w n : ℕ) : Correct w n := by
  constructor
  · intro tape hcommon
    obtain ⟨B, C, D, tape', hruns⟩ := DummyBase.runs_getNext id (getCorrelated id) hcommon
    exact ⟨_, tape', delivers_iff_runs.mpr hruns, sub_add_cancel (C * D) B⟩
  · intro tape
    obtain ⟨mul, add, tape', hruns⟩ := OLEGenerator.runs_getNext
      (DummyBase.runs_getNextChosen id (getCorrelated id)) tape
    exact ⟨_, tape', delivers_iff_runs.mpr hruns, add_sub_cancel add (mul 0 * mul 1)⟩
  · intro mul add tape
    have hruns := DummyBase.runs_getNextChosen id (getCorrelated id) mul add tape
    exact ⟨_, tape, delivers_iff_runs.mpr hruns, rfl, add_sub_cancel add (mul 0 * mul 1)⟩

end DummyOLE

/-- Both generators give correlations, in both modes, exactly while an `int` counts the elements; and
the generator of triples may take either, or any other that gives them. -/
theorem ole_generators_correct_iff (hw : 0 < w) :
    ((GilboaOLE.Correct w n ∧ DummyOLE.Correct w n) ↔ n ≤ 2 ^ 31) ∧
      ∀ {S : Type} [DecidableEq S] {m : ℕ}
        (generator : Fin 2 → Proc (Fin 2) S (BitVec w) (Vec w (m + m) × Vec w (m + m)))
        (tape : Fin 2 → S → ℕ → BitVec w), Correlates generator tape → GivesTriples generator tape := by
  refine ⟨⟨fun hcorrect => ?_, fun hn => ?_⟩, fun generator tape => Correlates.givesTriples⟩
  · by_contra hn
    exact GilboaOLE.not_correct_of_lt hw (not_le.mp hn) hcorrect.1
  · exact ⟨GilboaOLE.correct_of_le hn, DummyOLE.correct w n⟩

theorem ole_generators_correct_bytes : 0 < 8 ∧
    ((GilboaOLE.Correct 8 3 ∧ DummyOLE.Correct 8 3) ↔ 3 ≤ 2 ^ 31) :=
  ⟨by decide, (ole_generators_correct_iff (by decide)).1⟩

theorem not_gilboa_correct_long :
    ¬ (GilboaOLE.Correct 8 (2 ^ 31 + 1) ∧ DummyOLE.Correct 8 (2 ^ 31 + 1)) :=
  fun hcorrect => GilboaOLE.not_correct_of_lt (by decide) (by decide) hcorrect.1

end CryptDough
