import CryptDough.Execution
import CryptDough.ShareVector

/-! The SPDZ-2k protocol: additive shares of values of `k` bits and of their MACs over `k + s` bits,
and the deferred check of everything that was opened. The parties run in lockstep. -/

namespace CryptDough.SPDZ2k

open Execution

variable {parties k s bits n : ℕ}

/-- What a party holds of a shared vector: its shares of the values and of their MACs. -/
abbrev ShareMultiVector (bits n : ℕ) := Fin 2 → Vec bits n

/-- A shared vector at all the parties. -/
abbrev Sharing (parties bits n : ℕ) := Fin parties → ShareMultiVector bits n

def opened (x : Sharing parties bits n) : Vec bits n := ∑ p, x p 0

/-- The second components share the products of the key with what the first components share. -/
def Authenticated (alpha : Fin parties → BitVec bits) (x : Sharing parties bits n) : Prop :=
  ∑ p, x p 1 = (∑ p, alpha p) • opened x

structure AuthTriple (alpha : Fin parties → BitVec bits) (n : ℕ) where
  a : Sharing parties bits n
  b : Sharing parties bits n
  c : Sharing parties bits n
  a_authenticated : Authenticated alpha a
  b_authenticated : Authenticated alpha b
  c_authenticated : Authenticated alpha c
  product : opened c = opened a * opened b

structure AuthRandom (alpha : Fin parties → BitVec bits) (n : ℕ) where
  shares : Sharing parties bits n
  authenticated : Authenticated alpha shares

/-- A shared random vector that the input party also has in the clear. -/
structure AuthMask (alpha : Fin parties → BitVec bits) (n : ℕ) extends AuthRandom alpha n where
  mask : Vec bits n
  opens : opened shares = mask

/-- What the parties are given: the key shares, the generators by the number of the call, and the
errors with which the openings reach the parties. -/
structure Setup (parties k s : ℕ) (Digest : Type) where
  alpha : Fin parties → BitVec (k + s)
  authTriple : ℕ → (n : ℕ) → AuthTriple alpha n
  authRandom : ℕ → (n : ℕ) → AuthRandom alpha n
  authMask : ℕ → (n : ℕ) → Fin parties → AuthMask alpha n
  /-- The vector drawn from a committed seed, after vectors of the listed sizes. -/
  freshPRG : ℕ → List ℕ → (n : ℕ) → Vec (k + s) n
  keySize : ℕ
  localPRG : ℕ → Fin parties → Vec (k + s) keySize
  generateHash : Vec (k + s) (keySize + 1) → Digest
  error : ℕ → (n : ℕ) → Vec (k + s) n

/-- What a party keeps for the check. -/
structure Party (bits : ℕ) where
  aggregationBackLog : List ((n : ℕ) × ShareMultiVector bits n) := []
  backLogElementSize : ℕ := 0
  aggregatedDiff : BitVec bits := 0
  freshSeeds : ℕ := 0

/-- All the parties, with how often each generator was called and the sizes of the openings. -/
structure Joint (parties bits : ℕ) where
  party : Fin parties → Party bits := fun _ => {}
  authTriples : ℕ := 0
  authRandoms : ℕ := 0
  authMasks : ℕ := 0
  localKeys : ℕ := 0
  openings : List ℕ := []

namespace Party

def heuristicMaxBacklogElementSize : ℕ := 2 ^ 24

def heuristicMaxBacklogSize : ℕ := 24

def addToAggregationBackLog (shares : ShareMultiVector bits n) (this : Party bits) : Party bits :=
  { this with
    aggregationBackLog := this.aggregationBackLog ++ [⟨n, shares⟩]
    backLogElementSize := this.backLogElementSize + n }

/-- The loop of `processAggregationBackLog`; `drawn` are the sizes drawn from the fresh PRG. -/
def aggregate (alpha_i : BitVec bits) (freshPRG : List ℕ → (n : ℕ) → Vec bits n) (drawn : List ℕ)
    (aggregatedDiff : BitVec bits) : List ((n : ℕ) × ShareMultiVector bits n) → BitVec bits
  | [] => aggregatedDiff
  | ⟨n, res⟩ :: rest =>
      let nums := freshPRG drawn n
      aggregate alpha_i freshPRG (drawn ++ [n])
        (aggregatedDiff + ((res 0 ⬝ᵥ nums) * alpha_i - (res 1 ⬝ᵥ nums))) rest

def processAggregationBackLog (alpha_i : BitVec bits)
    (freshPRG : ℕ → List ℕ → (n : ℕ) → Vec bits n) (this : Party bits) : Party bits where
  aggregationBackLog := []
  backLogElementSize := 0
  aggregatedDiff :=
    aggregate alpha_i (freshPRG this.freshSeeds) [] this.aggregatedDiff this.aggregationBackLog
  freshSeeds := this.freshSeeds + 1

def optionalAggregationBackLogOptimization (alpha_i : BitVec bits)
    (freshPRG : ℕ → List ℕ → (n : ℕ) → Vec bits n) (this : Party bits) : Party bits :=
  if heuristicMaxBacklogSize < this.aggregationBackLog.length ∨
      heuristicMaxBacklogElementSize < this.backLogElementSize then
    this.processAggregationBackLog alpha_i freshPRG
  else this

end Party

/-- Plaintext converted to the share type. -/
def fromData (s : ℕ) (x : Vec k n) : Vec (k + s) n := fun i => (x i).signExtend (k + s)

/-- An opened vector converted to the plaintext type, which drops the upper bits. -/
def toData (x : Vec (k + s) n) : Vec k n := fun i => (x i).setWidth k

variable {Digest : Type} (S : Setup parties k s Digest)

namespace Joint

/-- Every party updates what it keeps. -/
def everyParty (f : Fin parties → Party bits → Party bits) (J : Joint parties bits) : Joint parties bits :=
  { J with party := fun p => f p (J.party p) }

def processAggregationBackLog (J : Joint parties (k + s)) : Joint parties (k + s) :=
  J.everyParty fun p => Party.processAggregationBackLog (S.alpha p) S.freshPRG

def optionalAggregationBackLogOptimization (J : Joint parties (k + s)) : Joint parties (k + s) :=
  J.everyParty fun p => Party.optionalAggregationBackLogOptimization (S.alpha p) S.freshPRG

end Joint

/-- The shares a party sends to be opened. -/
def maskedShares (addMask : Bool) (shares : Sharing parties (k + s) n) (call : ℕ) :
    Sharing parties (k + s) n := fun p =>
  if addMask then shares p + fun c i => (S.authRandom call n).shares p c i <<< k else shares p

/-- Every party receives the shares of all the others, the sum of which may be off by an error. -/
def initiateBatchCheck (shares : Sharing parties (k + s) n) (addMask : Bool) :
    Execution (Joint parties (k + s)) (Vec (k + s) n) := act fun J =>
  let res := maskedShares S addMask shares J.authRandoms
  let total := opened res + S.error J.openings.length n
  (total,
    { J with
      party := fun p => (J.party p).addToAggregationBackLog ![total, res p 1]
      authRandoms := if addMask then J.authRandoms + 1 else J.authRandoms
      openings := J.openings ++ [n] }.optionalAggregationBackLogOptimization S)

def partialOpen (shares : Sharing parties (k + s) n) (addMask : Bool := true) :
    Execution (Joint parties (k + s)) (Vec (k + s) n) :=
  initiateBatchCheck S shares addMask

def nextTriple (n : ℕ) : Execution (Joint parties (k + s)) (AuthTriple S.alpha n) := act fun J =>
  (S.authTriple J.authTriples n, { J with authTriples := J.authTriples + 1 })

def multiplyA (x y : Sharing parties (k + s) n) :
    Execution (Joint parties (k + s)) (Sharing parties (k + s) n) := do
  let t ← nextTriple S n
  let A ← partialOpen S (x + t.a) false
  let B ← partialOpen S (y + t.b) false
  let z : Sharing parties (k + s) n := fun p c => y p c * A - t.a p c * B + t.c p c
  act fun J => (z, J.optionalAggregationBackLogOptimization S)

def andB1 (first second : Sharing parties (k + s) n) :
    Execution (Joint parties (k + s)) (Sharing parties (k + s) n) :=
  multiplyA S first second

def orB1 (first second : Sharing parties (k + s) n) :
    Execution (Joint parties (k + s)) (Sharing parties (k + s) n) := do
  let xy ← multiplyA S first second
  return fun p => ![first p 0 + second p 0 - xy p 0, first p 1 + second p 1 - xy p 1]

def xorB1 (x y : Sharing parties (k + s) n) :
    Execution (Joint parties (k + s)) (Sharing parties (k + s) n) := do
  let xy ← multiplyA S x y
  return fun p => ![x p 0 + y p 0 - xy p 0 * 2, x p 1 + y p 1 - xy p 1 * 2]

def multiplyPublicA (x : Sharing parties (k + s) n) (val : Vec k n) : Sharing parties (k + s) n :=
  fun p c => x p c * fromData s val

section

variable [NeZero parties]

def notB1 (x : Sharing parties (k + s) n) : Sharing parties (k + s) n := fun p =>
  ![if p = 0 then -x p 0 + 1 else -x p 0, -x p 1 + Vec.replicate n (S.alpha p)]

def publicShare (x : Vec k n) : Sharing parties (k + s) n := fun p =>
  ![if p = 0 then fromData s x else 0, S.alpha p • fromData s x]

end

/-- The data party sends every other party its data less the mask, which it subtracts in the plaintext
type. -/
def secretShareAInternal (data : Vec k n) (dataParty : Fin parties) :
    Execution (Joint parties (k + s)) (Sharing parties (k + s) n) := act fun J =>
  let generated := S.authMask J.authMasks n dataParty
  let dataShifted := fromData s (data - toData generated.mask)
  let shares := fun p =>
    ![if p = dataParty then generated.shares p 0 + dataShifted else generated.shares p 0,
      generated.shares p 1 + S.alpha p • dataShifted]
  (shares, { J with authMasks := J.authMasks + 1 })

variable [DecidableEq Digest]

/-- What every party finds: each compares the revealed aggregates of the others with the commitments
they sent before, and adds them to its own. -/
def finalizeBatchCheck : Execution (Joint parties (k + s)) (Fin parties → Bool) := act fun J =>
  let J := J.processAggregationBackLog S
  let packedMessage (p : Fin parties) : Vec (k + s) (S.keySize + 1) :=
    Fin.cons (J.party p).aggregatedDiff (S.localPRG J.localKeys p)
  let hash (p : Fin parties) := S.generateHash (packedMessage p)
  let ok (p : Fin parties) : Bool :=
    (∀ q, q ≠ p → S.generateHash (packedMessage q) = hash q) ∧
      (J.party p).aggregatedDiff + ∑ q with q ≠ p, packedMessage q 0 = 0
  (ok, { J with localKeys := J.localKeys + 1 })

def maliciousCheckInternal : Execution (Joint parties (k + s)) (Fin parties → Bool) :=
  finalizeBatchCheck S

def maliciousCheck : Execution (Joint parties (k + s)) Unit := do
  let ok ← maliciousCheckInternal S
  if ∀ p, ok p then pure () else stop

def uncheckedOpenA (shares : Sharing parties (k + s) n) :
    Execution (Joint parties (k + s)) (Vec k n) := do
  let res ← partialOpen S shares
  return toData res

def openSharesA (shares : Sharing parties (k + s) n) :
    Execution (Joint parties (k + s)) (Vec k n) := do
  maliciousCheck S
  let op ← uncheckedOpenA S shares
  maliciousCheck S
  return op

end CryptDough.SPDZ2k
