import CryptDough.ProcessStreams
import CryptDough.ResharingProtocols

/-! The custom protocol of four parties with replicated shares: party `p` keeps the parts `p`, `p + 1`
and `p + 2`. What a party cannot compute it receives from one party that can, with a hash from another
one; it aborts when they do not match. -/

namespace CryptDough.Custom4PC

open Process Sharing ProtocolBase

theorem slots_le_parties : 2 + 1 ≤ 3 + 1 := by decide

abbrev scheme : Scheme where
  last := 3
  rep := 2
  held := fun p r => p + r.castLE slots_le_parties
  owner := id
  held_owner := fun i => add_zero i

theorem four_cases {motive : Fin 4 → Prop} (zero : motive 0) (one : motive 1) (two : motive 2)
    (three : motive 3) (p : Fin 4) : motive p :=
  match p with
  | 0 => zero
  | 1 => one
  | 2 => two
  | 3 => three

/-- What the channels carry: elements of a vector, or the hash of one. -/
inductive Cell (w : ℕ) (D : Type)
  | word (value : BitVec w)
  | digest (value : D)

section Cells

variable {w : ℕ} {D : Type}

def Cell.toWord : Cell w D → BitVec w
  | word value => value
  | digest _ => 0

def Cell.toDigest : Cell w D → Option D
  | word _ => none
  | digest value => some value

end Cells

/-- The generator all parties share except the one at a relative rank, a party's own generator, and
the one the members of a group share. -/
inductive Source
  | common (relativeRank : Fin 4)
  | localPRG
  | group (group : Group 3)
deriving DecidableEq

variable {w n : ℕ} {D : Type}

/-- The pair of parties an aborting party accuses, if it accuses anybody. -/
abbrev Accused := Option (Fin 4 × Fin 4)

abbrev Program (w : ℕ) (D β : Type) := ExceptT Accused (Proc (Fin 4) Source (Cell w D)) β

/-- The tapes the groups generate shares of zero from. -/
def groupTapes : Embedding (Group 3) Source (BitVec w) (Cell w D) where
  source := .group
  source_injective := fun _ _ heq => Source.group.inj heq
  wrap := .word
  unwrap := Cell.toWord
  unwrap_wrap := fun _ => rfl

/-- The parties that share a generator read the same tape. -/
def Correlated (tape : Fin 4 → Source → ℕ → Cell w D) : Prop :=
  (∀ g p q, p ≠ g → q ≠ g → ∀ i, tape p (.common (g - p)) i = tape q (.common (g - q)) i) ∧
    GroupCorrelated (groupTapes.read tape)

def getNext (source : Source) (n : ℕ) : Program w D (Vec w n) :=
  ExceptT.mk (.draw source n fun nums => .done (.ok fun i => (nums i).toWord))

def sendShares (partyID toRank : Fin 4) (shares : Vec w n) : Program w D Unit :=
  ExceptT.mk (.send (partyID + toRank) n (fun i => .word (shares i)) (.done (.ok ())))

def receiveShares (partyID fromRank : Fin 4) (size : ℕ) : Program w D (Vec w size) :=
  ExceptT.mk (.recv (partyID + fromRank) size fun m => .done (.ok fun i => (m i).toWord))

def sendHash (partyID toRank : Fin 4) (hash : D) : Program w D Unit :=
  ExceptT.mk (.send (partyID + toRank) 1 (fun _ => .digest hash) (.done (.ok ())))

def receiveHash (partyID fromRank : Fin 4) : Program w D (Option D) :=
  ExceptT.mk (.recv (partyID + fromRank) 1 fun m => .done (.ok (m ⟨0, Nat.one_pos⟩).toDigest))

section Hashing

variable [DecidableEq D] (generateHash : ∀ {n : ℕ}, Vec w n → D)

def maliciousCheck (partyID : Fin 4) (message : Vec w n) (hash : Option D) (p1 p2 : Fin 4) :
    Program w D Unit :=
  if some (generateHash message) = hash then pure () else throw (some (partyID + p1, partyID + p2))

section Product

variable (add minus mul : Vec w n → Vec w n → Vec w n) (partyID : Fin 4) (x y : EVec scheme w n)

/-- The cross terms shared with the previous party. -/
def cross10 (rNext : Vec w n) : Vec w n :=
  minus (add (add (mul (x 0) (y 0)) (mul (x 0) (y 1))) (mul (x 1) (y 0))) rNext

/-- The cross terms shared with the next party. -/
def cross12 (rOpp : Vec w n) : Vec w n :=
  minus (add (add (mul (x 1) (y 1)) (mul (x 1) (y 2))) (mul (x 2) (y 1))) rOpp

/-- The cross terms shared with the opposite party. -/
def cross02 (r : Vec w n) : Vec w n := minus (add (mul (x 0) (y 2)) (mul (x 2) (y 0))) r

/-- The common part of the shares of a product: what the other parties cannot compute is passed on to
the next party, and its hash to the opposite one. -/
def partialProducts : Program w D (EVec scheme w n) := do
  let rNext ← getNext (.common 1) n
  let rOpp ← getNext (.common 2) n
  let rPrev ← getNext (.common (-1)) n
  let cross10 := cross10 add minus mul x y rNext
  let cross12 := cross12 add minus mul x y rOpp
  sendShares partyID 1 cross10
  sendHash partyID 2 (generateHash cross12)
  let multRecv ← receiveShares partyID 3 n
  let multRecvHash ← receiveHash partyID 2
  maliciousCheck generateHash partyID multRecv multRecvHash 2 3
  pure ![add multRecv rNext, add cross10 rOpp, add cross12 rPrev]

/-- The products of the parts that are two apart, which two parties know; the programs of the four
parties differ. -/
def oppositeProducts (z : EVec scheme w n) : Program w D (EVec scheme w n) :=
  match partyID with
  | 0 => do
      let rNext ← getNext (.common 1) n
      let rOpp ← getNext (.common 2) n
      let cross02 := cross02 add minus mul x y rNext
      sendShares partyID 1 cross02
      pure ![add (z 0) rNext, add (z 1) rOpp, add (z 2) cross02]
  | 1 => do
      let rNext ← getNext (.common 1) n
      let cross02 := cross02 add minus mul x y rNext
      sendHash partyID 1 (generateHash cross02)
      let multRecvHash ← receiveHash partyID 1
      let multRecv ← receiveShares partyID (-1) n
      maliciousCheck generateHash partyID multRecv multRecvHash 1 (-1)
      pure ![add (z 0) rNext, add (z 1) multRecv, add (z 2) cross02]
  | 2 => do
      let rPrev ← getNext (.common (-1)) n
      let cross02 := cross02 add minus mul x y rPrev
      sendHash partyID (-1) (generateHash cross02)
      let multRecvHash ← receiveHash partyID (-1)
      let multRecv ← receiveShares partyID 1 n
      maliciousCheck generateHash partyID multRecv multRecvHash 1 2
      pure ![add (z 0) cross02, add (z 1) multRecv, add (z 2) rPrev]
  | 3 => do
      let rOpp ← getNext (.common 2) n
      let rPrev ← getNext (.common (-1)) n
      let cross02 := cross02 add minus mul x y rPrev
      sendShares partyID (-1) cross02
      pure ![add (z 0) cross02, add (z 1) rOpp, add (z 2) rPrev]

def product : Program w D (EVec scheme w n) := do
  let z ← partialProducts generateHash add minus mul partyID x y
  oppositeProducts generateHash add minus mul partyID x y z

end Product

/-- Without a fixed-point precision nothing is truncated. -/
def multiplyA (partyID : Fin 4) (x y : EVec scheme w n) : Program w D (EVec scheme w n) :=
  product generateHash (· + ·) (· - ·) (· * ·) partyID x y

def andB (partyID : Fin 4) (x y : EVec scheme w n) : Program w D (EVec scheme w n) :=
  product generateHash (· ^^^ ·) (· ^^^ ·) (· &&& ·) partyID x y

/-- The parties `i` and `j` share a vector they both know. -/
def inp (minus : Vec w n → Vec w n → Vec w n) (partyID : Fin 4) (x : Vec w n) (i j g h : Fin 4) :
    Program w D (EVec scheme w n) :=
  if partyID = i then do
    let res0 ← getNext (.common (g - i)) n
    let res1 := minus x res0
    sendShares partyID 1 res1
    pure ![res0, res1, 0]
  else if partyID = j then do
    let res1 ← getNext (.common (g - j)) n
    let res2 := minus x res1
    sendHash partyID 2 (generateHash res2)
    pure ![0, res1, res2]
  else if partyID = g then do
    let res0 ← receiveShares partyID 3 n
    let resHash ← receiveHash partyID 2
    maliciousCheck generateHash partyID res0 resHash 2 3
    pure ![res0, 0, 0]
  else if partyID = h then do
    let res2 ← getNext (.common (g - h)) n
    pure ![0, 0, res2]
  else pure fun _ => 0

def inpA (partyID : Fin 4) (x : Vec w n) (i j g h : Fin 4) : Program w D (EVec scheme w n) :=
  inp generateHash (· - ·) partyID x i j g h

def inpB (partyID : Fin 4) (x : Vec w n) (i j g h : Fin 4) : Program w D (EVec scheme w n) :=
  inp generateHash (· ^^^ ·) partyID x i j g h

/-- The sum of a vector the parties 3 and 2 share and one the parties 1 and 0 share. -/
def inpPairs (partyID : Fin 4) (x : Vec w n) : Program w D (EVec scheme w n) := do
  let first ← inpA generateHash partyID x 3 2 0 1
  let second ← inpA generateHash partyID x 1 0 2 3
  pure fun r => first r + second r

/-- Division of the sum of parts 3 and 0, and of that of parts 1 and 2, by a constant; with `correction`
(`USE_DIVISION_CORRECTION`) quotients are rounded down, and the remainders are shared too. -/
def divConstA (correction : Bool) (partyID : Fin 4) (x : EVec scheme w n) (c : BitVec w) :
    Program w D (EVec scheme w n × EVec scheme w n) := do
  let sum := if partyID = 3 ∨ partyID = 1 then x 0 + x 1 else x 1 + x 2
  if correction then
    let xSumNeg : Vec w n := fun i => if (sum i).slt 0 then 1 else 0
    let res : Vec w n := fun i => (sum i).sdiv c - xSumNeg i
    let err : Vec w n := fun i => (sum i).srem c + xSumNeg i * c
    let err := if partyID = 3 ∨ partyID = 2 then fun i => err i - c else err
    let res ← inpPairs generateHash partyID res
    let err ← inpPairs generateHash partyID err
    pure (res, err)
  else
    let res ← inpPairs generateHash partyID fun i => (sum i).sdiv c
    pure (res, fun _ => 0)

/-- Parts 2 and 1 are known to the parties 1 and 0, parts 3 and 0 to the others; both XORs are shared,
and their difference is squared. -/
def b2aBit (partyID : Fin 4) (x : EVec scheme w n) : Program w D (EVec scheme w n) := do
  let xPrime : EVec scheme w n := fun r => Vec.mask (x r) 1
  let s0 := if partyID = 0 then xPrime 1 ^^^ xPrime 2
    else if partyID = 1 then xPrime 0 ^^^ xPrime 1 else 0
  let s1 := if partyID = 2 then xPrime 1 ^^^ xPrime 2
    else if partyID = 3 then xPrime 0 ^^^ xPrime 1 else 0
  let share0 ← inpA generateHash partyID s0 1 0 2 3
  let share1 ← inpA generateHash partyID s1 3 2 0 1
  let difference : EVec scheme w n := fun r => share0 r - share1 r
  multiplyA generateHash partyID difference difference

def redistributeSharesB (partyID : Fin 4) (x : EVec scheme w n) :
    Program w D (EVec scheme w n × EVec scheme w n) := do
  let res := if partyID = 0 ∨ partyID = 2 then x 0 + x 1 else x 1 + x 2
  let res1 ← inpB generateHash partyID res 0 3 1 2
  let res2 ← inpB generateHash partyID res 2 1 3 0
  pure (res1, res2)

def getGroups : List (Group 3) := [{0, 1, 2}, {1, 2, 3}, {2, 3, 0}, {3, 0, 1}]

/-- The first party that is not in the group. -/
def receiverParty (group : Group 3) : Fin 4 :=
  ((List.finRange 4).find? (· ∉ group)).getD 3

/-- Each of the three parts the party outside keeps is sent by one member and hashed by another; what
is received is stored in the slots. -/
def passOn (partyID : Fin 4) (v : EVec scheme w n) (receiverRelRank : Fin 4) :
    Program w D (EVec scheme w n) :=
  match receiverRelRank with
  | 3 => do
      sendShares partyID 3 (v 0)
      sendHash partyID 3 (generateHash (v 1))
      pure v
  | 2 => do
      sendShares partyID 2 (v 0)
      sendHash partyID 2 (generateHash (v 2))
      pure v
  | 1 => do
      sendShares partyID 1 (v 1)
      sendHash partyID 1 (generateHash (v 2))
      pure v
  | 0 => do
      let received0 ← receiveShares partyID (-1) n
      let received1 ← receiveHash partyID (-1)
      let received2 ← receiveShares partyID (-2) n
      let received3 ← receiveHash partyID (-2)
      let received4 ← receiveShares partyID (-3) n
      let received5 ← receiveHash partyID (-3)
      maliciousCheck generateHash partyID received0 received3 (-1) (-2)
      maliciousCheck generateHash partyID received4 received1 (-3) (-1)
      maliciousCheck generateHash partyID received2 received5 (-2) (-3)
      pure ![received0, received4, received2]

/-- The members of the group rerandomise their shares first. -/
def reshare (partyID : Fin 4) (v : EVec scheme w n) (group : Group 3) (binary : Bool) :
    Program w D (EVec scheme w n) := do
  let receiverRelRank := receiverParty group - partyID
  let v ← ExceptT.lift ((if receiverRelRank ≠ 0 then rerandomize partyID group v binary
    else pure v : Proc (Fin 4) (Group 3) (BitVec w) _).embed groupTapes)
  passOn generateHash partyID v receiverRelRank

end Hashing

def notB (partyID : Fin 4) (x : EVec scheme w n) : EVec scheme w n :=
  match partyID with
  | 0 => ![x 0, x 1, ~~~ x 2]
  | 1 => ![x 0, ~~~ x 1, x 2]
  | 2 => ![~~~ x 0, x 1, x 2]
  | 3 => x

def publicShare (partyID : Fin 4) (x : Vec w n) : EVec scheme w n :=
  match partyID with
  | 0 => ![0, 0, 0]
  | 1 => ![0, 0, x]
  | 2 => ![0, x, 0]
  | 3 => ![x, 0, 0]

section Sharing

variable (minus : Vec w n → Vec w n → Vec w n)

/-- The shares of all parties, counted from the party that shares. -/
def getShares (data : Vec w n) : Program w D (Fin 4 → EVec scheme w n) := do
  let share1 ← getNext .localPRG n
  let share2 ← getNext .localPRG n
  let share3 ← getNext .localPRG n
  let share4 := minus (minus (minus data share1) share2) share3
  pure ![![share1, share2, share3], ![share2, share3, share4], ![share3, share4, share1],
    ![share4, share1, share2]]

def secretShare (partyID : Fin 4) (data : Vec w n) (dataParty : Fin 4) :
    Program w D (EVec scheme w n) :=
  if partyID = dataParty then do
    let shares ← getShares minus data
    sendShares partyID 1 (shares 1 0)
    sendShares partyID 1 (shares 1 1)
    sendShares partyID 1 (shares 1 2)
    sendShares partyID 2 (shares 2 0)
    sendShares partyID 2 (shares 2 1)
    sendShares partyID 2 (shares 2 2)
    sendShares partyID 3 (shares 3 0)
    sendShares partyID 3 (shares 3 1)
    sendShares partyID 3 (shares 3 2)
    pure (shares 0)
  else do
    let s0 ← receiveShares partyID (dataParty - partyID) n
    let s1 ← receiveShares partyID (dataParty - partyID) n
    let s2 ← receiveShares partyID (dataParty - partyID) n
    pure ![s0, s1, s2]

end Sharing

def secretShareA (partyID : Fin 4) (data : Vec w n) (dataParty : Fin 4) :
    Program w D (EVec scheme w n) :=
  secretShare (· - ·) partyID data dataParty

def secretShareB (partyID : Fin 4) (data : Vec w n) (dataParty : Fin 4) :
    Program w D (EVec scheme w n) :=
  secretShare (· ^^^ ·) partyID data dataParty

section Opening

variable (add : Vec w n → Vec w n → Vec w n)

/-- Everybody passes its first share to the next party. -/
def uncheckedOpen (partyID : Fin 4) (shares : EVec scheme w n) : Program w D (Vec w n) := do
  sendShares partyID 1 (shares 0)
  let shares4 ← receiveShares partyID 3 n
  pure (add (add (add (shares 0) (shares 1)) (shares 2)) shares4)

/-- The protocol does not override the test of its base class. -/
def maliciousCheckInternal : Bool := true

/-- The check the interface makes before and after it opens shares. -/
def interfaceCheck : Program w D Bool := do
  let ok := maliciousCheckInternal
  if !ok then throw none
  pure ok

def openShares (partyID : Fin 4) (shares : EVec scheme w n) : Program w D (Vec w n) := do
  let r := if ← interfaceCheck then shares else fun _ => 0
  let op ← uncheckedOpen add partyID r
  if ← interfaceCheck then pure op else pure 0

end Opening

def openSharesA (partyID : Fin 4) (shares : EVec scheme w n) : Program w D (Vec w n) :=
  openShares (· + ·) partyID shares

def openSharesB (partyID : Fin 4) (shares : EVec scheme w n) : Program w D (Vec w n) :=
  openShares (· ^^^ ·) partyID shares

variable {β : Type}

def words (v : Vec w n) : List (Cell w D) := List.ofFn fun i => .word (v i)

def digest (d : D) : List (Cell w D) := List.ofFn fun _ : Fin 1 => .digest d

section Rounds

variable (tape : Source → ℕ → Cell w D) {ins : Fin 4 → List (Cell w D)} {rest : List (Cell w D)}

theorem flush_pure (v : β) :
    (pure v : Program w D β).run.flush tape = (.done (.ok v), fun _ => [], tape) := rfl

theorem flush_getNext (source : Source) (f : Vec w n → Program w D β) :
    (getNext source n >>= f).run.flush tape =
      (f fun i => (tape source i).toWord).run.flush (advance tape source n) := rfl

theorem flush_sendShares (p rank : Fin 4) (v : Vec w n) (f : Unit → Program w D β) :
    (sendShares p rank v >>= f).run.flush tape =
      (((f ()).run.flush tape).1,
        fun a => (if a = p + rank then words v else []) ++ ((f ()).run.flush tape).2.1 a,
        ((f ()).run.flush tape).2.2) := rfl

theorem flush_sendHash (p rank : Fin 4) (hash : D) (f : Unit → Program w D β) :
    (sendHash p rank hash >>= f).run.flush tape =
      (((f ()).run.flush tape).1,
        fun a => (if a = p + rank then digest hash else []) ++ ((f ()).run.flush tape).2.1 a,
        ((f ()).run.flush tape).2.2) := rfl

theorem flush_receiveShares (p rank : Fin 4) (f : Vec w n → Program w D β) :
    (receiveShares p rank n >>= f).run.flush tape =
      ((receiveShares p rank n >>= f).run, fun _ => [], tape) := rfl

theorem flush_receiveHash (p rank : Fin 4) (f : Option D → Program w D β) :
    (receiveHash p rank >>= f).run.flush tape =
      ((receiveHash p rank >>= f).run, fun _ => [], tape) := rfl

theorem take_done (v : β) :
    (Proc.done (.ok v) : Proc (Fin 4) Source (Cell w D) (Except Accused β)).take ins =
      some (.ok v, ins) := rfl

theorem take_receiveShares {p rank : Fin 4} {v : Vec w n} (hins : ins (p + rank) = words v ++ rest)
    (f : Vec w n → Program w D β) :
    (receiveShares p rank n >>= f).run.take ins =
      (f v).run.take (Function.update ins (p + rank) rest) :=
  Proc.take_recv_append hins

theorem take_receiveHash {p rank : Fin 4} {d : D} (hins : ins (p + rank) = digest d ++ rest)
    (f : Option D → Program w D β) :
    (receiveHash p rank >>= f).run.take ins =
      (f (some d)).run.take (Function.update ins (p + rank) rest) :=
  Proc.take_recv_append hins

/-- A vector and a hash that two other parties have sent, and nothing else. -/
theorem take_shares_hash {p rank rank' : Fin 4} {v : Vec w n} {d : D} (hne : p + rank ≠ p + rank')
    (hins : ∀ q, ins q = (if q = p + rank then words v else []) ++
      (if q = p + rank' then digest d else []))
    (f : Vec w n → Option D → Program w D β) :
    (receiveShares p rank n >>= fun v => receiveHash p rank' >>= f v).run.take ins =
      (f v (some d)).run.take fun _ => [] := by
  have hshares : ins (p + rank) = words v ++ [] := by
    rw [hins, if_pos rfl, if_neg hne]
  have hhash : Function.update ins (p + rank) [] (p + rank') = digest d ++ [] := by
    rw [Function.update_of_ne hne.symm, hins, if_pos rfl, if_neg hne.symm, List.append_nil,
      List.nil_append]
  rw [take_receiveShares hshares, take_receiveHash hhash]
  congr 1
  ext q
  by_cases hq : q = p + rank
  · subst hq
    simp [hne]
  · by_cases hq' : q = p + rank'
    · subst hq'
      simp
    · simp [hq, hq', hins]

theorem take_hash_shares {p rank rank' : Fin 4} {v : Vec w n} {d : D} (hne : p + rank ≠ p + rank')
    (hins : ∀ q, ins q = (if q = p + rank then words v else []) ++
      (if q = p + rank' then digest d else []))
    (f : Option D → Vec w n → Program w D β) :
    (receiveHash p rank' >>= fun d => receiveShares p rank n >>= f d).run.take ins =
      (f (some d) v).run.take fun _ => [] := by
  have hhash : ins (p + rank') = digest d ++ [] := by
    rw [hins, if_pos rfl, if_neg hne.symm, List.append_nil, List.nil_append]
  have hshares : Function.update ins (p + rank') [] (p + rank) = words v ++ [] := by
    rw [Function.update_of_ne hne, hins, if_pos rfl, if_neg hne]
  rw [take_receiveHash hhash, take_receiveShares hshares]
  congr 1
  ext q
  by_cases hq : q = p + rank
  · subst hq
    simp
  · by_cases hq' : q = p + rank'
    · subst hq'
      simp [hne.symm]
    · simp [hq, hq', hins]

variable [DecidableEq D] {generateHash : ∀ {n : ℕ}, Vec w n → D}

theorem maliciousCheck_same (p p1 p2 : Fin 4) (v : Vec w n) (f : Unit → Program w D β) :
    maliciousCheck generateHash p v (some (generateHash v)) p1 p2 >>= f = f () := by
  rw [maliciousCheck, if_pos rfl, pure_bind]

end Rounds

theorem eq_add_one (p q : Fin 4) : p = q + 1 ↔ q = p + 3 := by
  revert p q
  decide

theorem eq_add_two (p q : Fin 4) : p = q + 2 ↔ q = p + 2 := by
  revert p q
  decide

/-- What the parties other than `g` read next from the generator they share. -/
def commonNext (tape : Fin 4 → Source → ℕ → Cell w D) (n : ℕ) (g : Fin 4) : Vec w n :=
  fun i => (tape (g + 1) (.common (-1)) i).toWord

section Tapes

variable {tape : Fin 4 → Source → ℕ → Cell w D}

theorem Correlated.next (hcorr : Correlated tape) (n : ℕ) (p : Fin 4) {rank : Fin 4}
    (hrank : rank ≠ 0) :
    (fun i : Fin n => (tape p (.common rank) i).toWord) = commonNext tape n (p + rank) := by
  have hp : p ≠ p + rank := fun heq => hrank (left_eq_add.mp heq)
  have hq : p + rank + 1 ≠ p + rank := by
    revert p rank
    decide
  ext i
  have h := hcorr.1 (p + rank) p (p + rank + 1) hp hq i
  rw [add_sub_cancel_left, sub_add_cancel_left] at h
  rw [h]
  rfl

theorem Correlated.next_one (hcorr : Correlated tape) (n : ℕ) (p : Fin 4) :
    (fun i : Fin n => (tape p (.common 1) i).toWord) = commonNext tape n (p + 1) :=
  hcorr.next n p (by decide)

theorem Correlated.next_two (hcorr : Correlated tape) (n : ℕ) (p : Fin 4) :
    (fun i : Fin n => (tape p (.common 2) i).toWord) = commonNext tape n (p + 2) :=
  hcorr.next n p (by decide)

theorem Correlated.next_prev (hcorr : Correlated tape) (n : ℕ) (p : Fin 4) :
    (fun i : Fin n => (tape p (.common (-1)) i).toWord) = commonNext tape n (p + -1) :=
  hcorr.next n p (by decide)

theorem advance_common (tape : Source → ℕ → Cell w D) (len : ℕ) :
    advance tape (.common 1) len (.common 2) = tape (.common 2) ∧
    advance tape (.common 1) len (.common (-1)) = tape (.common (-1)) ∧
    advance tape (.common 2) len (.common (-1)) = tape (.common (-1)) :=
  ⟨advance_of_ne tape (by decide) len, advance_of_ne tape (by decide) len,
    advance_of_ne tape (by decide) len⟩

/-- The parties have read equally much of each generator they share. -/
theorem Correlated.shift {tape' : Fin 4 → Source → ℕ → Cell w D} (hcorr : Correlated tape)
    (count : Fin 4 → ℕ)
    (hcommon : ∀ p rank, rank ≠ 0 →
      tape' p (.common rank) = fun i => tape p (.common rank) (count (p + rank) + i))
    (hgroup : ∀ p g, tape' p (.group g) = tape p (.group g)) : Correlated tape' := by
  refine ⟨fun g p q hp hq i => ?_, fun g p q hp hq => ?_⟩
  · rw [hcommon p _ (sub_ne_zero.mpr hp.symm), hcommon q _ (sub_ne_zero.mpr hq.symm), add_sub_cancel,
      add_sub_cancel]
    exact hcorr.1 g p q hp hq _
  · funext i
    show (tape' p (.group g) i).toWord = (tape' q (.group g) i).toWord
    rw [hgroup, hgroup]
    exact congrFun (hcorr.2 g p q hp hq) i

/-- All parties but `g` have read from the generator that `g` lacks. -/
theorem Correlated.shift_except {tape' : Fin 4 → Source → ℕ → Cell w D} (hcorr : Correlated tape)
    (g : Fin 4) (n : ℕ)
    (htape : ∀ p, tape' p = if p = g then tape p else advance (tape p) (.common (g - p)) n) :
    Correlated tape' := by
  refine hcorr.shift (fun h => if h = g then n else 0) ?_ ?_
  · intro p rank hrank
    rw [htape]
    by_cases hp : p = g
    · subst hp
      simp [hrank]
    · rw [if_neg hp]
      by_cases hrank' : rank = g - p
      · subst hrank'
        simp [advance_self]
      · have hother : p + rank ≠ g := fun heq => hrank' (eq_sub_of_add_eq' heq)
        rw [advance_of_ne _ (fun heq => hrank' (Source.common.inj heq)), if_neg hother]
        simp
  · intro p group
    rw [htape]
    split
    · rfl
    · exact advance_of_ne _ Source.noConfusion n

end Tapes

end CryptDough.Custom4PC
