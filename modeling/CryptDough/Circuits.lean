import CryptDough.Protocol
import Mathlib.Data.Nat.Size

/-! The boolean circuits that every protocol inherits: equality, the two adders, and the choice
between the adders that the vector operators make. -/

namespace CryptDough.Protocol

open Process Sharing

variable {w n : ℕ} (P : Protocol w)

def logMaxBitsNumber (w : ℕ) : ℕ := (w - 1).size

section RippleCarry

/-- The rounds of the ripple-carry adder from bit `i` on: `aXorB` and `a` are packed bit by bit, and
`rounds` is the number of bits left. -/
def rippleCarryLoop (partyID : P.Party) (aXorB a : ℕ → EVec P.scheme w (Vec.compressedSize w n)) :
    (rounds i : ℕ) → EVec P.scheme w (Vec.compressedSize w n) → EVec P.scheme w n →
      P.Program (EVec P.scheme w n)
  | 0, _, _, sum => pure sum
  | rounds + 1, i, carry, sum =>
      let tmp := P.xorB (aXorB i) carry
      let sum := P.unpackFrom sum tmp i
      if i + 1 = w then pure sum
      else do
        -- one AND: the next carry is ((carry ^ a) & (a ^ b)) ^ a
        let carry ← P.andB partyID (P.xorB carry (a i)) (aXorB i)
        rippleCarryLoop partyID aXorB a rounds (i + 1) (P.xorB carry (a i)) sum

def rippleCarryAdder (partyID : P.Party) (a b : EVec P.scheme w n) (carryIn : Bool) :
    P.Program (EVec P.scheme w n) :=
  let carry : EVec P.scheme w (Vec.compressedSize w n) :=
    if carryIn then P.notB partyID fun _ => 0 else fun _ => 0
  P.rippleCarryLoop partyID (P.bitDecomposition (P.xorB a b)) (P.bitDecomposition a) w 0 carry
    fun _ => 0

/-- The same rounds without the digits of the sum: only that of the sign is taken. -/
def packedSignLoop (partyID : P.Party) (aXorB a : ℕ → EVec P.scheme w (Vec.compressedSize w n)) :
    (rounds i : ℕ) → EVec P.scheme w (Vec.compressedSize w n) →
      P.Program (EVec P.scheme w (Vec.compressedSize w n))
  | 0, _, _ => pure fun _ => 0
  | rounds + 1, i, carry =>
      if i + 1 = w then pure (P.xorB (aXorB i) carry)
      else do
        let carry ← P.andB partyID (P.xorB carry (a i)) (aXorB i)
        packedSignLoop partyID aXorB a rounds (i + 1) (P.xorB carry (a i))

def rippleCarryAdderPackedSign (partyID : P.Party) (a b : EVec P.scheme w n) (carryIn : Bool) :
    P.Program (EVec P.scheme w (Vec.compressedSize w n)) :=
  let carry : EVec P.scheme w (Vec.compressedSize w n) :=
    if carryIn then P.notB partyID fun _ => 0 else fun _ => 0
  P.packedSignLoop partyID (P.bitDecomposition (P.xorB a b)) (P.bitDecomposition a) w 0 carry

end RippleCarry

section ParallelPrefix

def prefixSum (partyID : P.Party) (gx px gy py : EVec P.scheme w n) :
    P.Program (EVec P.scheme w n × EVec P.scheme w n) := do
  let py ← P.andB partyID py px
  let gy ← P.andB partyID gy px
  let gpg ← P.andB partyID gx gy
  pure (P.xorB (P.xorB gpg gx) gy, py)

def prefixLoop (partyID : P.Party) : (levels i : ℕ) → EVec P.scheme w n → EVec P.scheme w n →
    P.Program (EVec P.scheme w n × EVec P.scheme w n)
  | 0, _, g, p => pure (g, p)
  | levels + 1, i, g, p => do
      let (g, p) ← P.prefixSum partyID g p (P.bitLeftShift g (2 ^ i)) (P.bitLeftShift p (2 ^ i))
      prefixLoop partyID levels (i + 1) g p

/-- With a carry the constant one is XORed into every share of `p`. -/
def parallelPrefixAdder (partyID : P.Party) (current other : EVec P.scheme w n) (carryIn : Bool) :
    P.Program (EVec P.scheme w n) := do
  let p := P.xorB current other
  let g ← P.andB partyID current other
  let g := if carryIn then P.xorB g (P.maskB p 1) else g
  let p := if carryIn then P.xorB p fun _ => Vec.replicate n 1 else p
  let propagate := p
  let (g, _) ← P.prefixLoop partyID (logMaxBitsNumber w) 0 g p
  pure (P.xorB propagate (P.bitLeftShift g 1))

end ParallelPrefix

/-- The adder of the vector operators; `rcaFaster` is the outcome of comparing the modelled times. -/
def binaryAdder (rcaFaster : Bool) (partyID : P.Party) (a b : EVec P.scheme w n) (carryIn : Bool) :
    P.Program (EVec P.scheme w n) :=
  if rcaFaster then P.rippleCarryAdder partyID a b carryIn
  else P.parallelPrefixAdder partyID a b carryIn

/-- Binary `+`. -/
def add (rcaFaster : Bool) (partyID : P.Party) (a b : EVec P.scheme w n) :
    P.Program (EVec P.scheme w n) :=
  P.binaryAdder rcaFaster partyID a b false

/-- Binary `-`: the complement and a carry. -/
def sub (rcaFaster : Bool) (partyID : P.Party) (a b : EVec P.scheme w n) :
    P.Program (EVec P.scheme w n) :=
  P.binaryAdder rcaFaster partyID a (P.notB partyID b) true

/-- Unary `-`: a difference from the zero vector. -/
def neg (rcaFaster : Bool) (partyID : P.Party) (a : EVec P.scheme w n) :
    P.Program (EVec P.scheme w n) :=
  P.sub rcaFaster partyID (fun _ => 0) a

section Equality

def bitSameLoop (partyID : P.Party) : (rounds level : ℕ) → EVec P.scheme w n →
    P.Program (EVec P.scheme w n)
  | 0, _, sameBit => pure sameBit
  | rounds + 1, level, sameBit => do
      let temp := P.bitArithmeticRightShift sameBit (2 ^ level)
      let sameBit ← P.andB partyID sameBit temp
      bitSameLoop partyID rounds (level + 1) sameBit

/-- Bit `i` of the result tells whether `x` and `y` agree from bit `i` on. -/
def bitSame (partyID : P.Party) (x y : EVec P.scheme w n) : P.Program (EVec P.scheme w n) :=
  P.bitSameLoop partyID (logMaxBitsNumber w) 0 (P.notB partyID (P.xorB x y))

def equalB (partyID : P.Party) (x y : EVec P.scheme w n) : P.Program (EVec P.scheme w n) := do
  let result ← P.bitSame partyID x y
  pure (P.maskB result 1)

end Equality

end CryptDough.Protocol
