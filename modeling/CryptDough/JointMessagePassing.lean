import CryptDough.Fantastic4PC
import Mathlib.Data.List.OfFn

/-! The hashes that guard joint message passing: the hasher of a message and its receiver each feed
it to a running hash, one for each assignment of the three roles, and a check compares the two. A
corrupted party sends what it likes, as a message and as a hash. -/

namespace CryptDough.JointMessagePassing

open Process Sharing Fantastic4PC

structure PartyAssignment where
  hasher : Fin 4
  sender : Fin 4
  receiver : Fin 4
deriving DecidableEq

def jmpAssignments (Pi Pj Pr : Fin 4) : PartyAssignment where
  hasher := whoHashes Pi Pj
  sender := jmpSender Pi Pj
  receiver := Pr

/-- The bytes of an element in memory. -/
def elementBytes (k : ℕ) (v : BitVec (8 * k)) : List (BitVec 8) :=
  (List.range k).map fun i => v.extractLsb' (8 * i) 8

section Bytes

variable {k n : ℕ}

def batchSpan (x : Vec (8 * k) n) : List (BitVec 8) := (List.ofFn x).flatMap (elementBytes k)

theorem length_elementBytes (v : BitVec (8 * k)) : (elementBytes k v).length = k := by
  rw [elementBytes, List.length_map, List.length_range]

theorem elementBytes_injective : Function.Injective (elementBytes k) := by
  intro v v' heq
  ext j hj
  have hbyte : v.extractLsb' (8 * (j / 8)) 8 = v'.extractLsb' (8 * (j / 8)) 8 := by
    have hmem : j / 8 ∈ List.range k := List.mem_range.mpr (by omega)
    exact List.map_inj_left.mp heq _ hmem
  have hbit := congrArg (fun b => b.getLsbD (j % 8)) hbyte
  simp only [BitVec.getLsbD_extractLsb', Nat.mod_lt j (by decide : 0 < 8), decide_true,
    Bool.true_and, Nat.div_add_mod] at hbit
  rwa [← BitVec.getLsbD_eq_getElem, ← BitVec.getLsbD_eq_getElem]

theorem length_batchSpan (x : Vec (8 * k) n) : (batchSpan x).length = n * k := by
  simp only [batchSpan, List.length_flatMap, length_elementBytes, List.map_const',
    List.length_ofFn, List.sum_replicate, smul_eq_mul]

theorem batchSpan_injective : Function.Injective (batchSpan : Vec (8 * k) n → List (BitVec 8)) := by
  have hinj : ∀ xs ys : List (BitVec (8 * k)), xs.length = ys.length →
      xs.flatMap (elementBytes k) = ys.flatMap (elementBytes k) → xs = ys := by
    intro xs
    induction xs with
    | nil =>
        intro ys hlen _
        exact (List.length_eq_zero_iff.mp hlen.symm).symm
    | cons v xs ih =>
        intro ys hlen heq
        cases ys with
        | nil => exact absurd hlen (Nat.succ_ne_zero _)
        | cons v' ys =>
            rw [List.flatMap_cons, List.flatMap_cons] at heq
            have hsplit := List.append_inj heq
              ((length_elementBytes v).trans (length_elementBytes v').symm)
            rw [elementBytes_injective hsplit.1, ih ys (Nat.succ.inj hlen) hsplit.2]
  intro x y heq
  apply List.ofFn_injective
  exact hinj _ _ (by rw [List.length_ofFn, List.length_ofFn]) heq

end Bytes

/-- What a protocol instance has hashed so far for each assignment. -/
abbrev HashStates := PartyAssignment → List (BitVec 8)

-- The seed is hashed into a state before the state is initialised and leaves no trace.
def initHashes : HashStates := fun _ => []

def HashStates.update (states : HashStates) (pa : PartyAssignment) (bytes : List (BitVec 8)) :
    HashStates :=
  Function.update states pa (states pa ++ bytes)

section Party

variable {k n : ℕ}

def jmpRecv (states : HashStates) (x : Vec (8 * k) n) (Pi Pj Pr : Fin 4) : HashStates :=
  states.update (jmpAssignments Pi Pj Pr) (batchSpan x)

/-- The sender does not hash what it sends. -/
def jmpSend (partyID : Fin 4) (states : HashStates) (x : Vec (8 * k) n) (Pi Pj Pr : Fin 4) :
    HashStates :=
  let pa := jmpAssignments Pi Pj Pr
  if partyID = pa.sender then states
  else if partyID = pa.hasher then states.update pa (batchSpan x)
  else states

/-- A party's vector and hashes after `jmp`, where `received` is what arrives from the sender. -/
def jmp (partyID : Fin 4) (states : HashStates) (x received : Vec (8 * k) n) (Pi Pj Pr : Fin 4) :
    Vec (8 * k) n × HashStates :=
  if partyID = Pr then (received, jmpRecv states received Pi Pj Pr)
  else if partyID = Pi ∨ partyID = Pj then (x, jmpSend partyID states x Pi Pj Pr)
  else (x, states)

/-- The pairs of parties with each of their two receivers. -/
def jmpTriples : List (Fin 4 × Fin 4 × Fin 4) :=
  allPairs.flatMap fun q =>
    ((List.finRange 4).filter fun r => r ≠ q.1 ∧ r ≠ q.2).map fun r => (q.1, q.2, r)

variable {Digest : Type} [DecidableEq Digest] (hash : List (BitVec 8) → Digest)

/-- One pair and receiver of the check: the receiver compares what the hasher sends it. -/
def compareHash (partyID : Fin 4) (states : HashStates) (recvHash : PartyAssignment → Digest)
    (ok : Bool) (q : Fin 4 × Fin 4 × Fin 4) : Bool :=
  let pa := jmpAssignments q.1 q.2.1 q.2.2
  if partyID = pa.hasher then ok
  else if partyID = q.2.2 then ok && decide (recvHash pa = hash (states pa))
  else ok

/-- The check of a party that the hashers send the hashes `recvHash`. -/
def maliciousCheckInternal (partyID : Fin 4) (states : HashStates)
    (recvHash : PartyAssignment → Digest) : Bool :=
  jmpTriples.foldl (compareHash hash partyID states recvHash) true

end Party

theorem hasher_ne_sender {Pi Pj : Fin 4} (hij : Pi ≠ Pj) : whoHashes Pi Pj ≠ jmpSender Pi Pj := by
  revert Pi Pj
  decide

theorem owner_role (Pi Pj Pr : Fin 4) {p : Fin 4} (howner : p = Pi ∨ p = Pj) :
    p = (jmpAssignments Pi Pj Pr).hasher ∨ p = (jmpAssignments Pi Pj Pr).sender := by
  show p = whoHashes Pi Pj ∨ p = jmpSender Pi Pj
  revert Pi Pj p
  decide

theorem hasher_ne_receiver {Pi Pj Pr : Fin 4} (hdistinct : [Pi, Pj, Pr].Nodup) :
    whoHashes Pi Pj ≠ Pr := by
  revert Pi Pj Pr
  decide

theorem jmpTriples_spec : ∀ q ∈ jmpTriples, q.2.2 ≠ whoHashes q.1 q.2.1 := by
  decide

/-- Some step of the check is about these three parties. -/
theorem exists_mem_jmpTriples {Pi Pj Pr : Fin 4} (hdistinct : [Pi, Pj, Pr].Nodup) :
    ∃ q ∈ jmpTriples, jmpAssignments q.1 q.2.1 q.2.2 = jmpAssignments Pi Pj Pr := by
  revert Pi Pj Pr
  decide

section Check

variable {Digest : Type} [DecidableEq Digest] {hash : List (BitVec 8) → Digest}

theorem foldl_compareHash {partyID : Fin 4} {states : HashStates}
    {recvHash : PartyAssignment → Digest} (triples : List (Fin 4 × Fin 4 × Fin 4))
    (hspec : ∀ q ∈ triples, q.2.2 ≠ whoHashes q.1 q.2.1) (ok : Bool) :
    triples.foldl (compareHash hash partyID states recvHash) ok = true ↔
      ok = true ∧ ∀ q ∈ triples, q.2.2 = partyID →
        recvHash (jmpAssignments q.1 q.2.1 q.2.2) =
          hash (states (jmpAssignments q.1 q.2.1 q.2.2)) := by
  induction triples generalizing ok with
  | nil => simp
  | cons q triples ih =>
      have hq := hspec q List.mem_cons_self
      rw [List.foldl_cons, ih (fun q hq => hspec q (List.mem_cons_of_mem _ hq)),
        List.forall_mem_cons]
      by_cases hr : q.2.2 = partyID
      · have hne : partyID ≠ (jmpAssignments q.1 q.2.1 q.2.2).hasher := hr ▸ hq
        rw [compareHash, if_neg hne, if_pos hr.symm, Bool.and_eq_true, decide_eq_true_iff, and_assoc]
        simp only [hr, forall_const]
      · have hskip : compareHash hash partyID states recvHash ok q = ok := by
          rw [compareHash, if_neg (Ne.symm hr), ite_self]
        rw [hskip]
        simp only [hr, false_implies, true_and]

theorem maliciousCheckInternal_iff {partyID : Fin 4} {states : HashStates}
    {recvHash : PartyAssignment → Digest} :
    maliciousCheckInternal hash partyID states recvHash = true ↔
      ∀ q ∈ jmpTriples, q.2.2 = partyID →
        recvHash (jmpAssignments q.1 q.2.1 q.2.2) =
          hash (states (jmpAssignments q.1 q.2.1 q.2.2)) := by
  rw [maliciousCheckInternal, foldl_compareHash jmpTriples jmpTriples_spec]
  exact and_iff_right rfl

end Check

/-- The element types of the five protocols of a worker. -/
inductive DataType
  | int8 | int16 | int32 | int64 | int128
deriving DecidableEq

def DataType.size : DataType → ℕ
  | int8 => 1
  | int16 => 2
  | int32 => 4
  | int64 => 8
  | int128 => 16

/-- A call of `jmp` by all parties: each passes its own vector, and a corrupted sender sends
`forged`. -/
structure JmpCall where
  dataType : DataType
  n : ℕ
  x : Fin 4 → Vec (8 * dataType.size) n
  forged : Vec (8 * dataType.size) n
  Pi : Fin 4
  Pj : Fin 4
  Pr : Fin 4
  distinct : [Pi, Pj, Pr].Nodup

/-- Something the parties do together; a corrupted party sends the hashes `forged` in a check. -/
inductive Action (Digest : Type)
  | jmp (call : JmpCall)
  | check (dataType : DataType) (forged : PartyAssignment → Digest)

/-- The hashes of every party, for each of its protocols. -/
abbrev System := Fin 4 → DataType → HashStates

def initSystem : System := fun _ _ => initHashes

namespace JmpCall

variable (corrupted : Option (Fin 4)) (call : JmpCall)

def assignment : PartyAssignment := jmpAssignments call.Pi call.Pj call.Pr

/-- What arrives at the receiver. -/
def received : Vec (8 * call.dataType.size) call.n :=
  if corrupted = some call.assignment.sender then call.forged else call.x call.assignment.sender

def perform (system : System) (p : Fin 4) : Vec (8 * call.dataType.size) call.n × HashStates :=
  jmp p (system p call.dataType) (call.x p) (call.received corrupted) call.Pi call.Pj call.Pr

/-- The vector of a party after the call. -/
def stored (system : System) (p : Fin 4) : Vec (8 * call.dataType.size) call.n :=
  (call.perform corrupted system p).1

def step (system : System) : System := fun p =>
  Function.update (system p) call.dataType (call.perform corrupted system p).2

end JmpCall

section Run

variable {Digest : Type} (corrupted : Option (Fin 4))

-- A check finalises copies of the hash states.
def step (system : System) : Action Digest → System
  | .jmp call => call.step corrupted system
  | .check _ _ => system

def run (system : System) (actions : List (Action Digest)) : System :=
  actions.foldl (step corrupted) system

variable [DecidableEq Digest] (hash : List (BitVec 8) → Digest)

/-- The hash that arrives in a check from the hasher of an assignment. -/
def sentHash (system : System) (dataType : DataType) (forged : PartyAssignment → Digest)
    (pa : PartyAssignment) : Digest :=
  if corrupted = some pa.hasher then forged pa else hash (system pa.hasher dataType pa)

/-- The result of party `p` in a check of one of its protocols. -/
def check (system : System) (dataType : DataType) (forged : PartyAssignment → Digest)
    (p : Fin 4) : Bool :=
  maliciousCheckInternal hash p (system p dataType) (sentHash corrupted hash system dataType forged)

end Run

theorem update_apply (states : HashStates) (pa pa' : PartyAssignment) (bytes : List (BitVec 8)) :
    states.update pa bytes pa' = states pa' ++ if pa' = pa then bytes else [] := by
  by_cases hpa : pa' = pa
  · rw [hpa, if_pos rfl, HashStates.update, Function.update_self]
  · rw [if_neg hpa, List.append_nil, HashStates.update, Function.update_of_ne hpa]

/-- The receiver hashes what arrives, the hasher what it has, and nobody else hashes. -/
theorem jmp_hashes {k n : ℕ} {Pi Pj Pr : Fin 4} (hdistinct : [Pi, Pj, Pr].Nodup) (p : Fin 4)
    (states : HashStates) (x received : Vec (8 * k) n) (pa : PartyAssignment) :
    (jmp p states x received Pi Pj Pr).2 pa =
      states pa ++ if pa = jmpAssignments Pi Pj Pr then
        if p = Pr then batchSpan received else if p = whoHashes Pi Pj then batchSpan x else []
        else [] := by
  simp only [List.nodup_cons, List.mem_cons, List.not_mem_nil, or_false, not_or, not_false_eq_true,
    List.nodup_nil, and_true] at hdistinct
  obtain ⟨⟨hij, _⟩, _⟩ := hdistinct
  have howner : whoHashes Pi Pj = Pi ∨ whoHashes Pi Pj = Pj := max_choice Pi Pj
  by_cases hr : p = Pr
  · rw [jmp, if_pos hr, if_pos hr]
    exact update_apply states _ pa _
  · rw [jmp, if_neg hr, if_neg hr]
    by_cases hh : p = whoHashes Pi Pj
    · have hpair : p = Pi ∨ p = Pj := by rwa [hh]
      have hsender : p ≠ (jmpAssignments Pi Pj Pr).sender :=
        fun hs => hasher_ne_sender hij (hh.symm.trans hs)
      have hhasher : p = (jmpAssignments Pi Pj Pr).hasher := hh
      rw [if_pos hpair, if_pos hh]
      show jmpSend p states x Pi Pj Pr pa = _
      rw [jmpSend, if_neg hsender, if_pos hhasher]
      exact update_apply states _ pa _
    · have hhasher : p ≠ (jmpAssignments Pi Pj Pr).hasher := hh
      rw [if_neg hh, ite_self, List.append_nil]
      split
      · show jmpSend p states x Pi Pj Pr pa = _
        rw [jmpSend, if_neg hhasher, ite_self]
      · rfl

section Roles

variable {k n : ℕ} {Pi Pj Pr : Fin 4} (hdistinct : [Pi, Pj, Pr].Nodup) (states : HashStates)
  (x received : Vec (8 * k) n) (pa : PartyAssignment)

include hdistinct

theorem jmp_hasher : (jmp pa.hasher states x received Pi Pj Pr).2 pa =
    states pa ++ if pa = jmpAssignments Pi Pj Pr then batchSpan x else [] := by
  rw [jmp_hashes hdistinct]
  by_cases hpa : pa = jmpAssignments Pi Pj Pr
  · have hreceiver : pa.hasher ≠ Pr := hpa ▸ hasher_ne_receiver hdistinct
    have hhasher : pa.hasher = whoHashes Pi Pj := congrArg PartyAssignment.hasher hpa
    rw [if_pos hpa, if_pos hpa, if_neg hreceiver, if_pos hhasher]
  · rw [if_neg hpa, if_neg hpa]

theorem jmp_receiver : (jmp pa.receiver states x received Pi Pj Pr).2 pa =
    states pa ++ if pa = jmpAssignments Pi Pj Pr then batchSpan received else [] := by
  rw [jmp_hashes hdistinct]
  by_cases hpa : pa = jmpAssignments Pi Pj Pr
  · have hreceiver : pa.receiver = Pr := congrArg PartyAssignment.receiver hpa
    rw [if_pos hpa, if_pos hpa, if_pos hreceiver]
  · rw [if_neg hpa, if_neg hpa]

end Roles

namespace JmpCall

variable (corrupted : Option (Fin 4)) (call : JmpCall)

/-- What a call adds to the stream of the hasher of an assignment. -/
def hashed (dataType : DataType) (pa : PartyAssignment) : List (BitVec 8) :=
  if dataType = call.dataType ∧ pa = call.assignment then batchSpan (call.x pa.hasher) else []

/-- What a call adds to the stream of the receiver of an assignment. -/
def heard (dataType : DataType) (pa : PartyAssignment) : List (BitVec 8) :=
  if dataType = call.dataType ∧ pa = call.assignment then batchSpan (call.received corrupted)
  else []

theorem length_hashed (dataType : DataType) (pa : PartyAssignment) :
    (call.hashed dataType pa).length = (call.heard corrupted dataType pa).length := by
  unfold hashed heard
  split
  · rw [length_batchSpan, length_batchSpan]
  · rfl

theorem step_of_ne {dataType : DataType} (htype : dataType ≠ call.dataType) (system : System)
    (p : Fin 4) : call.step corrupted system p dataType = system p dataType :=
  Function.update_of_ne htype _ _

theorem step_self (system : System) (p : Fin 4) :
    call.step corrupted system p call.dataType = (call.perform corrupted system p).2 :=
  Function.update_self _ _ _

theorem step_hasher (system : System) (dataType : DataType) (pa : PartyAssignment) :
    call.step corrupted system pa.hasher dataType pa =
      system pa.hasher dataType pa ++ call.hashed dataType pa := by
  by_cases htype : dataType = call.dataType
  · subst htype
    rw [step_self, perform, jmp_hasher call.distinct, hashed]
    simp only [true_and]
    rfl
  · rw [step_of_ne corrupted call htype, hashed, if_neg fun h => htype h.1, List.append_nil]

theorem step_receiver (system : System) (dataType : DataType) (pa : PartyAssignment) :
    call.step corrupted system pa.receiver dataType pa =
      system pa.receiver dataType pa ++ call.heard corrupted dataType pa := by
  by_cases htype : dataType = call.dataType
  · subst htype
    rw [step_self, perform, jmp_receiver call.distinct, heard]
    simp only [true_and]
    rfl
  · rw [step_of_ne corrupted call htype, heard, if_neg fun h => htype h.1, List.append_nil]

theorem heard_honest (hagree : call.x call.Pi = call.x call.Pj) (dataType : DataType)
    (pa : PartyAssignment) : call.hashed dataType pa = call.heard none dataType pa := by
  unfold hashed heard
  split
  · rename_i hpa
    have hvector : call.x pa.hasher = call.received none := by
      rw [hpa.2]
      show call.x (whoHashes call.Pi call.Pj) = call.x (jmpSender call.Pi call.Pj)
      have hhasher : whoHashes call.Pi call.Pj = call.Pi ∨ whoHashes call.Pi call.Pj = call.Pj :=
        max_choice call.Pi call.Pj
      unfold jmpSender
      rcases hhasher with h | h <;> rw [h] <;> split <;> simp only [hagree]
    rw [hvector]
  · rfl

end JmpCall

section Streams

variable {Digest : Type} (corrupted : Option (Fin 4))

def Action.hashed : Action Digest → DataType → PartyAssignment → List (BitVec 8)
  | .jmp call => call.hashed
  | .check _ _ => fun _ _ => []

def Action.heard : Action Digest → DataType → PartyAssignment → List (BitVec 8)
  | .jmp call => call.heard corrupted
  | .check _ _ => fun _ _ => []

theorem Action.length_hashed (action : Action Digest) (dataType : DataType)
    (pa : PartyAssignment) :
    (action.hashed dataType pa).length = (action.heard corrupted dataType pa).length := by
  cases action with
  | jmp call => exact call.length_hashed corrupted dataType pa
  | check => rfl

theorem length_flatMap_hashed (actions : List (Action Digest)) (dataType : DataType)
    (pa : PartyAssignment) :
    (actions.flatMap fun action => action.hashed dataType pa).length =
      (actions.flatMap fun action => action.heard corrupted dataType pa).length := by
  simp only [List.length_flatMap, Action.length_hashed corrupted]

/-- The stream of a hasher is all it has hashed, in order. -/
theorem run_hasher (actions : List (Action Digest)) (system : System) (dataType : DataType)
    (pa : PartyAssignment) :
    run corrupted system actions pa.hasher dataType pa =
      system pa.hasher dataType pa ++ actions.flatMap fun action => action.hashed dataType pa := by
  induction actions generalizing system with
  | nil => exact (List.append_nil _).symm
  | cons action actions ih =>
      have hstep : step corrupted system action pa.hasher dataType pa =
          system pa.hasher dataType pa ++ action.hashed dataType pa := by
        cases action with
        | jmp call => exact call.step_hasher corrupted system dataType pa
        | check => exact (List.append_nil _).symm
      rw [List.flatMap_cons, ← List.append_assoc, ← hstep]
      exact ih _

theorem run_receiver (actions : List (Action Digest)) (system : System) (dataType : DataType)
    (pa : PartyAssignment) :
    run corrupted system actions pa.receiver dataType pa =
      system pa.receiver dataType pa ++
        actions.flatMap fun action => action.heard corrupted dataType pa := by
  induction actions generalizing system with
  | nil => exact (List.append_nil _).symm
  | cons action actions ih =>
      have hstep : step corrupted system action pa.receiver dataType pa =
          system pa.receiver dataType pa ++ action.heard corrupted dataType pa := by
        cases action with
        | jmp call => exact call.step_receiver corrupted system dataType pa
        | check => exact (List.append_nil _).symm
      rw [List.flatMap_cons, ← List.append_assoc, ← hstep]
      exact ih _

/-- Equal streams agree on every message in them. -/
theorem heard_eq_hashed {before after : List (Action Digest)} {action : Action Digest}
    {dataType : DataType} {pa : PartyAssignment}
    (heq : run corrupted initSystem (before ++ action :: after) pa.hasher dataType pa =
      run corrupted initSystem (before ++ action :: after) pa.receiver dataType pa) :
    action.heard corrupted dataType pa = action.hashed dataType pa := by
  rw [run_hasher, run_receiver, List.flatMap_append, List.flatMap_append, List.flatMap_cons,
    List.flatMap_cons] at heq
  have hstreams := List.append_cancel_left heq
  have hlater := (List.append_inj hstreams (length_flatMap_hashed corrupted before dataType pa)).2
  exact (List.append_inj hlater (action.length_hashed corrupted dataType pa)).1.symm

end Streams

section Contract

variable {Digest : Type} [DecidableEq Digest] {hash : List (BitVec 8) → Digest}

theorem stored_receiver (corrupted : Option (Fin 4)) (call : JmpCall) (system : System) :
    call.stored corrupted system call.Pr = call.received corrupted :=
  congrArg Prod.fst (if_pos rfl)

/-- A receiver that passes a check has what the honest hasher has. -/
theorem received_of_check (hinjective : Function.Injective hash) {corrupted : Option (Fin 4)}
    {before after : List (Action Digest)} {call : JmpCall} {forged : PartyAssignment → Digest}
    (hhasher : corrupted ≠ some call.assignment.hasher)
    (hok : check corrupted hash (run corrupted initSystem (before ++ .jmp call :: after))
      call.dataType forged call.Pr = true) :
    call.received corrupted = call.x call.assignment.hasher := by
  obtain ⟨q, hq, hroles⟩ := exists_mem_jmpTriples call.distinct
  have hreceiver : q.2.2 = call.Pr := congrArg PartyAssignment.receiver hroles
  have hcompare := maliciousCheckInternal_iff.mp hok q hq hreceiver
  rw [hroles] at hcompare
  have hsent : hash (run corrupted initSystem (before ++ .jmp call :: after)
        call.assignment.hasher call.dataType call.assignment) =
      hash (run corrupted initSystem (before ++ .jmp call :: after)
        call.assignment.receiver call.dataType call.assignment) := by
    refine Eq.trans ?_ hcompare
    exact (if_neg hhasher).symm
  have hstream := heard_eq_hashed corrupted (hinjective hsent)
  have hspan : batchSpan (call.received corrupted) = batchSpan (call.x call.assignment.hasher) := by
    simpa only [Action.heard, Action.hashed, JmpCall.heard, JmpCall.hashed, and_self, if_true]
      using hstream
  exact batchSpan_injective hspan

/-- Whenever an honest receiver stores something other than what an honest co-owner passed, every
later check fails for it, and without a corrupted party no check ever fails. -/
theorem jmp_aborts (hinjective : Function.Injective hash) :
    (∀ (corrupted : Fin 4) (before after : List (Action Digest)) (call : JmpCall)
        (coOwner : Fin 4) (forged : PartyAssignment → Digest),
      call.Pr ≠ corrupted → coOwner ≠ corrupted → coOwner = call.Pi ∨ coOwner = call.Pj →
      call.stored (some corrupted) (run (some corrupted) initSystem before) call.Pr ≠
        call.x coOwner →
      check (some corrupted) hash
        (run (some corrupted) initSystem (before ++ .jmp call :: after)) call.dataType forged
        call.Pr = false) ∧
    ∀ (actions : List (Action Digest)),
      (∀ call, Action.jmp call ∈ actions → call.x call.Pi = call.x call.Pj) →
      ∀ dataType forged p, check none hash (run none initSystem actions) dataType forged p = true := by
  constructor
  · intro corrupted before after call coOwner forged hreceiver hhonest howner hdiffers
    rw [stored_receiver] at hdiffers
    by_contra hcheck
    have hok := eq_true_of_ne_false hcheck
    apply hdiffers
    have hrole := owner_role call.Pi call.Pj call.Pr howner
    have hsome : some corrupted ≠ some coOwner := fun h => hhonest (Option.some.inj h).symm
    rcases hrole with hrole | hrole
    · rw [hrole] at hsome ⊢
      exact received_of_check hinjective hsome hok
    · rw [hrole] at hsome ⊢
      exact if_neg hsome
  · intro actions hagree dataType forged p
    apply maliciousCheckInternal_iff.mpr
    intro q hq hreceiver
    have hstream : run none initSystem actions (jmpAssignments q.1 q.2.1 q.2.2).hasher dataType
          (jmpAssignments q.1 q.2.1 q.2.2) =
        run none initSystem actions (jmpAssignments q.1 q.2.1 q.2.2).receiver dataType
          (jmpAssignments q.1 q.2.1 q.2.2) := by
      rw [run_hasher, run_receiver]
      congr 1
      apply List.flatMap_congr
      intro action haction
      cases action with
      | check => rfl
      | jmp call => exact call.heard_honest (hagree call haction) dataType _
    subst hreceiver
    exact congrArg hash hstream

def exampleCall : JmpCall where
  dataType := .int8
  n := 1
  x := fun _ => 0
  forged := fun _ => 1
  Pi := 0
  Pj := 1
  Pr := 2
  distinct := by decide

/-- Every value is zero, and a corrupted party 0 sends a one. -/
def exampleActions : List (Action (List (BitVec 8))) := [.jmp exampleCall]

theorem jmp_aborts_example :
    check (some 0) id (run (some 0) initSystem exampleActions) .int8 (fun _ => []) 2 = false ∧
      check none id (run none initSystem exampleActions) .int8 (fun _ => []) 2 = true := by
  constructor
  · exact (jmp_aborts Function.injective_id).1 0 [] [] exampleCall 1 (fun _ => []) (by decide)
      (by decide) (by decide) (by decide)
  · apply (jmp_aborts Function.injective_id).2
    intro call hcall
    rw [exampleActions, List.mem_singleton, Action.jmp.injEq] at hcall
    rw [hcall]
    rfl

end Contract

end CryptDough.JointMessagePassing
