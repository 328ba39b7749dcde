import CryptDough.ArithmeticProtocol

/-! The protocol on edaBits: random numbers that are shared with their binary digits, the adder of a
shared and a public number, and the comparisons and divisions built on it. -/

namespace CryptDough

open Execution

variable {w n : ℕ}

def bitOf (b : Bool) : BitVec w := if b then 1 else 0

def ofBits (b : Fin n → Bool) : Vec w n := fun k => bitOf (b k)

/-- Shares of random numbers of `bitLength` bits modulo `2 ^ w` and of each of their digits. -/
structure EdaBits (P : ArithmeticProtocol w n) (bitLength : ℕ) where
  bits : ℕ → P.Container
  sum : P.Container
  random : Fin n → BitVec bitLength
  bits_open : ∀ i < bitLength, P.Opens (bits i) (ofBits fun k => (random k).getLsbD i)
  sum_opens : P.Opens sum fun k => (random k).setWidth w

/-- The edaBits come from a generator that may keep a state of its own. -/
structure EdabitsProtocol (w n : ℕ) where
  aProtocol : ArithmeticProtocol w n
  getEdaBits : (bitLength : ℕ) → Execution aProtocol.State (EdaBits aProtocol bitLength)
  getEdaBits_yields : ∀ bitLength, aProtocol.Yields (getEdaBits bitLength) fun _ => True

namespace EdabitsProtocol

section Adder

variable (P : ArithmeticProtocol w n)

/-- The containers that the loop of `publicRca` updates. -/
structure Rca (Container : Type) where
  carry : Container
  sign : Container
  res : Option Container

/-- Appends copies of the sign above the most significant bit. -/
def signExtension (sign : P.Container) (bitsNumber lsb msb : ℕ) (res : P.Container) : P.Container :=
  (List.range' (msb + 1) (bitsNumber + lsb - (msb + 1))).foldl
    (fun res i => res + sign * Vec.replicate n (BitVec.twoPow w (i - lsb))) res

/-- An iteration of the loop of `publicRca`; the last one computes no carry. -/
def publicRcaStep (xBits : ℕ → P.Container) (yBits : Vec w n) (bitsNumber lsb msb : ℕ)
    (signRes extend : Bool) (st : Rca P.Container) (i : ℕ) :
    Execution P.State (Rca P.Container) := do
  let xBit := xBits i
  let carryBit := st.carry
  let yBit : Vec w n := ofBits fun k => (yBits k).getLsbD i
  let xcBit ← P.multiplyA xBit carryBit
  let inRange := st.res.isSome ∧ lsb ≤ i ∧ i ≤ msb
  let sign := if (i = bitsNumber - 1 ∧ signRes) ∨ inRange then
      xBit + P.publicShare yBit + carryBit -
        (xBit * yBit + carryBit * yBit + xcBit) * (Vec.replicate n 2 : Vec w n) +
        xcBit * yBit * (Vec.replicate n 4 : Vec w n)
    else st.sign
  let res := if inRange then
      st.res.map fun res => res + sign * Vec.replicate n (BitVec.twoPow w (i - lsb))
    else st.res
  if i = bitsNumber - 1 then
    return { st with
      sign := sign
      res := if extend then res.map (signExtension P sign bitsNumber lsb msb) else res }
  else
    return {
      carry := xBit * yBit + carryBit * yBit + xcBit + xcBit * yBit * (Vec.replicate n (-2) : Vec w n)
      sign := sign
      res := res }

/-- Adds the public `yBits` to the number with the digits `xBits`: the bits of the sum from `lsb` to
`msb` are accumulated in `res`, and the last bit is left in `signRes`. -/
def publicRca (xBits : ℕ → P.Container) (yBits : Vec w n) (bitsNumber : ℕ)
    (res signRes : Option P.Container) (lsb : ℕ := 0) (msb : Option ℕ := none)
    (extend : Bool := true) : Execution P.State (Rca P.Container) :=
  (List.range bitsNumber).foldlM
    (publicRcaStep P xBits yBits bitsNumber lsb (msb.getD (bitsNumber - 1)) signRes.isSome extend)
    { carry := 0, sign := signRes.getD 0, res := res }

end Adder

variable (E : EdabitsProtocol w n)

abbrev Container := E.aProtocol.Container

abbrev State := E.aProtocol.State

def xorB1 (x y : E.Container) : Execution E.State E.Container := do
  let xy ← E.aProtocol.multiplyA x y
  return x + y - xy * (Vec.replicate n 2 : Vec w n)

def ltz (x out : E.Container) : Execution E.State E.Container := do
  let edaBits ← E.getEdaBits w
  let diffOpened ← E.aProtocol.openSharesA (x - edaBits.sum)
  let rca ← publicRca E.aProtocol edaBits.bits diffOpened w none (some out)
  return rca.sign

def equalB (x y : E.Container) : Execution E.State E.Container := do
  let gtBits ← E.ltz (y - x) 0
  let ltBits ← E.ltz (x - y) 0
  let onesShared := E.aProtocol.publicShare (Vec.replicate n 1)
  let gtAndLt ← E.aProtocol.multiplyA gtBits ltBits
  return onesShared - gtBits - ltBits + gtAndLt

/-- The results go to the locations `eqBits` and `gtBits` of the memory, which may be the same. -/
def linearCompareB {L : Type} [DecidableEq L] (x y : E.Container) (eqBits gtBits : L)
    (mem : L → E.Container) : Execution E.State (L → E.Container) := do
  let mem := Function.update mem gtBits (← E.ltz (y - x) (mem gtBits))
  let ltBits ← E.ltz (x - y) 0
  let onesShared := E.aProtocol.publicShare (Vec.replicate n 1)
  let gtAndLt ← E.aProtocol.multiplyA (mem gtBits) ltBits
  let mem := Function.update mem eqBits (onesShared - mem gtBits - ltBits + gtAndLt)
  let xNegative ← E.ltz x 0
  let yNegative ← E.ltz y 0
  let differentSigns ← E.xorB1 xNegative yNegative
  let maskedYSign ← E.aProtocol.multiplyA differentSigns yNegative
  let maskedGTSign ← E.aProtocol.multiplyA differentSigns (mem gtBits)
  return Function.update mem gtBits (mem gtBits + maskedYSign - maskedGTSign)

def compareB {L : Type} [DecidableEq L] (first second : E.Container) (eqBits gtBits : L)
    (mem : L → E.Container) : Execution E.State (L → E.Container) :=
  E.linearCompareB first second eqBits gtBits mem

def rcaCompareB {L : Type} [DecidableEq L] (first second : E.Container) (gtBits : L)
    (mem : L → E.Container) : Execution E.State (L → E.Container) :=
  E.linearCompareB first second gtBits gtBits mem

/-- How often `temp` can be halved until it is at most one. -/
def powerOf (temp : ℕ) : ℕ := if 1 < temp then powerOf (temp / 2) + 1 else 0

/-- The steps of the truncation by `m` bits once the edaBits are there. -/
def truncated (toBeTruncated : E.Container) (m : ℕ) (ra : EdaBits E.aProtocol (w - 1 - m))
    (ra_ : EdaBits E.aProtocol m) (rbit : EdaBits E.aProtocol 1) : Execution E.State E.Container := do
  let l := w - 1
  -- the factor `2 ^ (k - l - 1)` is one
  let cShared := toBeTruncated + rbit.sum * Vec.replicate n (BitVec.twoPow w l) +
    ra.sum * Vec.replicate n (BitVec.twoPow w m) + ra_.sum
  let c ← E.aProtocol.openSharesA cShared
  let cl : Vec w n := ofBits fun k => (c k).getLsbD l
  let v := rbit.sum + E.aProtocol.publicShare cl - rbit.sum * cl * (Vec.replicate n 2 : Vec w n)
  -- the remainder and the quotient of signed integers are rounded towards zero
  let quotient : Vec w n := fun k =>
    ((c k).srem (BitVec.twoPow w l)).sdiv (BitVec.twoPow w m)
  return E.aProtocol.publicShare quotient - ra.sum + v * Vec.replicate n (BitVec.twoPow w (l - m))

def truncate (toBeTruncated : E.Container) (m : ℕ) : Execution E.State E.Container := do
  let ra ← E.getEdaBits (w - 1 - m)
  let ra_ ← E.getEdaBits m
  let rbit ← E.getEdaBits 1
  E.truncated toBeTruncated m ra ra_ rbit

/-- Division by a public constant; `correction` says whether `USE_DIVISION_CORRECTION` is defined. The
second component is the error container, which stays zero. -/
def divConstA (correction : Bool) (x : E.Container) (divisor : BitVec w) :
    Execution E.State (E.Container × E.Container) := do
  let isPowerOfTwo := 0 < divisor.toInt ∧ divisor &&& (divisor - 1) = 0
  let powerValue : ℤ := if isPowerOfTwo then divisor.toInt else 2 ^ 20
  let power := powerOf (BitVec.ofInt w powerValue).toInt.toNat
  if correction then
    let edaBits ← E.getEdaBits w
    let diff := if isPowerOfTwo then x - edaBits.sum
      else x * Vec.replicate n (BitVec.ofInt w (powerValue.tdiv divisor.toInt)) - edaBits.sum
    let diffOpened ← E.aProtocol.openSharesA diff
    let rca ← publicRca E.aProtocol edaBits.bits diffOpened w (some 0) none power
    return (rca.res.getD 0, 0)
  else
    let toBeTruncated := if isPowerOfTwo then x
      else x * Vec.replicate n
        (BitVec.ofInt w ((BitVec.ofInt w powerValue).toInt.tdiv divisor.toInt))
    return (← E.truncate toBeTruncated power, 0)

end EdabitsProtocol

end CryptDough
