import CryptDough.ProcessExchange
import CryptDough.ShareVector

/-! Seeds the parties commit to in batches and open one after the other: each party XORs its own seed
with the seeds the others opened to it, after it has compared these with what was committed. -/

namespace CryptDough.CommittedSeeds

open Process

def BATCH_SIZE : ℕ := 1024

def SEED_BYTES : ℕ := 32

def HASH_KEY_BYTES : ℕ := 32

abbrev Seed := Vec 8 SEED_BYTES

abbrev Key := Vec 8 HASH_KEY_BYTES

/-- What the channels carry: bytes, or a commitment. -/
inductive Cell (D : Type)
  | byte (value : BitVec 8)
  | commitment (value : D)
deriving DecidableEq

def Cell.toByte {D : Type} : Cell D → BitVec 8
  | byte value => value
  | commitment _ => 0

inductive Source
  | localPRG
deriving DecidableEq

/-- A party aborts if no seeds are left or if the seed of another party does not match. The party it
names then is counted in the direction in which it sends. -/
inductive Abort (N : ℕ)
  | noSeeds
  | verificationFailed (party : Fin (N + 1))

variable {N : ℕ} {D : Type}

abbrev Program (N : ℕ) (D β : Type) := ExceptT (Abort N) (Proc (Fin (N + 1)) Source (Cell D)) β

/-- What a party keeps between its calls; commitments are counted from the party itself. -/
structure CommittedSeedsQueue (N : ℕ) (D : Type) where
  commitments : Fin (N + 1) → Fin BATCH_SIZE → Cell D := fun _ _ => .byte 0
  localSeeds : Vec 8 (BATCH_SIZE * SEED_BYTES) := fun _ => 0
  localKeys : Vec 8 (BATCH_SIZE * HASH_KEY_BYTES) := fun _ => 0
  currentSeedIndex : ℕ := BATCH_SIZE

def seedAt (localSeeds : Vec 8 (BATCH_SIZE * SEED_BYTES)) (i : Fin BATCH_SIZE) : Seed :=
  fun byte => localSeeds (finProdFinEquiv (i, byte))

def keyAt (localKeys : Vec 8 (BATCH_SIZE * HASH_KEY_BYTES)) (i : Fin BATCH_SIZE) : Key :=
  fun byte => localKeys (finProdFinEquiv (i, byte))

def getNext (size : ℕ) : Program N D (Vec 8 size) :=
  ExceptT.lift (.draw .localPRG size fun nums => .done fun i => (nums i).toByte)

/-- The `i`-th destination is `i + 1` parties ahead, the `i`-th source as many behind. -/
def exchangeShares {len : ℕ} (partyID : Fin (N + 1)) (sent : Fin N → Fin len → Cell D) :
    Program N D (Fin N → Fin len → Cell D) :=
  ExceptT.lift (Proc.exchange (fun i => partyID + i.succ) (fun i => partyID - i.succ) sent)

def openedSeed (m : Fin (SEED_BYTES + HASH_KEY_BYTES) → Cell D) : Seed :=
  fun byte => (m (Fin.castAdd HASH_KEY_BYTES byte)).toByte

def openedKey (m : Fin (SEED_BYTES + HASH_KEY_BYTES) → Cell D) : Key :=
  fun byte => (m (Fin.natAdd SEED_BYTES byte)).toByte

section Queue

variable [DecidableEq D] (generichash : Seed → Key → D) (partyID : Fin (N + 1))
  (this : CommittedSeedsQueue N D)

/-- The commitments to a batch of seeds. -/
def localCommitments (localSeeds : Vec 8 (BATCH_SIZE * SEED_BYTES))
    (localKeys : Vec 8 (BATCH_SIZE * HASH_KEY_BYTES)) (i : Fin BATCH_SIZE) : Cell D :=
  .commitment (generichash (seedAt localSeeds i) (keyAt localKeys i))

def repopulateQueue : Program N D (CommittedSeedsQueue N D) :=
  if this.currentSeedIndex < BATCH_SIZE then pure this
  else do
    let localSeeds ← getNext (BATCH_SIZE * SEED_BYTES)
    let localKeys ← getNext (BATCH_SIZE * HASH_KEY_BYTES)
    let commitments := localCommitments generichash localSeeds localKeys
    let commitmentsRemote ← exchangeShares partyID fun _ => commitments
    pure { commitments := Fin.cons commitments commitmentsRemote, localSeeds, localKeys,
           currentSeedIndex := 0 }

def verifyOne (index : Fin BATCH_SIZE)
    (receivedSeeds : Fin N → Fin (SEED_BYTES + HASH_KEY_BYTES) → Cell D) (i : Fin N) :
    Program N D Unit :=
  let expectedCommitment :=
    generichash (openedSeed (receivedSeeds i)) (openedKey (receivedSeeds i))
  if .commitment expectedCommitment ≠ this.commitments i.succ index then
    throw (.verificationFailed (partyID + i.succ))
  else pure ()

/-- The opening of the seed at `index`: the seed, then its key. -/
def currentSeedKey (localSeeds : Vec 8 (BATCH_SIZE * SEED_BYTES))
    (localKeys : Vec 8 (BATCH_SIZE * HASH_KEY_BYTES)) (index : Fin BATCH_SIZE) :
    Fin (SEED_BYTES + HASH_KEY_BYTES) → Cell D :=
  fun byte => .byte (Fin.append (seedAt localSeeds index) (keyAt localKeys index) byte)

/-- The seed of the generator that is constructed. -/
def getNextPRG : Program N D (Seed × CommittedSeedsQueue N D) :=
  if h : this.currentSeedIndex < BATCH_SIZE then do
    let index : Fin BATCH_SIZE := ⟨this.currentSeedIndex, h⟩
    let receivedSeeds ← exchangeShares partyID fun _ =>
      currentSeedKey this.localSeeds this.localKeys index
    forM (List.finRange N) (verifyOne generichash partyID this index receivedSeeds)
    let seed : Seed := fun byte => (List.finRange N).foldl
      (fun byteVal i => byteVal ^^^ openedSeed (receivedSeeds i) byte) (seedAt this.localSeeds index byte)
    pure (seed, { this with currentSeedIndex := this.currentSeedIndex + 1 })
  else throw .noSeeds

end Queue

inductive Call
  | repopulateQueue
  | getNextPRG
deriving DecidableEq

variable (generichash : Seed → Key → D)

/-- The seeds of the generators a party constructs in a history of calls. -/
def runCalls [DecidableEq D] (partyID : Fin (N + 1)) :
    List Call → CommittedSeedsQueue N D → Program N D (List Seed)
  | [], _ => pure []
  | .repopulateQueue :: calls, this => do
      let this ← repopulateQueue generichash partyID this
      runCalls partyID calls this
  | .getNextPRG :: calls, this => do
      let (seed, this) ← getNextPRG generichash partyID this
      let seeds ← runCalls partyID calls this
      pure (seed :: seeds)

section Streams

/-- The first seed, the key after it and the first batch of commitments in a stream. -/
def seedIn (stream : List (Cell D)) : Seed := fun byte => (stream.getD byte (.byte 0)).toByte

def keyIn (stream : List (Cell D)) : Key :=
  fun byte => (stream.getD (SEED_BYTES + byte) (.byte 0)).toByte

def batchIn (stream : List (Cell D)) : Fin BATCH_SIZE → Cell D := fun i => stream.getD i (.byte 0)

structure Opening (D : Type) where
  commitment : Cell D
  seed : Seed
  key : Key

/-- What a party has sent for its `k`-th opening in a history, and the commitment it sent before. The
batch is the one that is open, with the index of the next seed. -/
def transcript : List Call → ℕ → (Fin BATCH_SIZE → Cell D) → List (Cell D) → ℕ → Opening D
  | [], _, _, _, _ => ⟨.byte 0, 0, 0⟩
  | .repopulateQueue :: calls, index, batch, stream, k =>
      if index < BATCH_SIZE then transcript calls index batch stream k
      else transcript calls 0 (batchIn stream) (stream.drop BATCH_SIZE) k
  | .getNextPRG :: _, index, batch, stream, 0 =>
      ⟨if h : index < BATCH_SIZE then batch ⟨index, h⟩ else .byte 0, seedIn stream, keyIn stream⟩
  | .getNextPRG :: calls, index, batch, stream, k + 1 =>
      transcript calls (index + 1) batch (stream.drop (SEED_BYTES + HASH_KEY_BYTES)) k

/-- What a party sends to every other party, unless it aborts. -/
def sentStream : List Call → Vec 8 (BATCH_SIZE * SEED_BYTES) → Vec 8 (BATCH_SIZE * HASH_KEY_BYTES) →
    ℕ → (Source → ℕ → Cell D) → List (Cell D)
  | [], _, _, _, _ => []
  | .repopulateQueue :: calls, localSeeds, localKeys, index, tape =>
      if index < BATCH_SIZE then sentStream calls localSeeds localKeys index tape
      else
        let localSeeds : Vec 8 (BATCH_SIZE * SEED_BYTES) := fun i => (tape .localPRG i).toByte
        let tape := advance tape .localPRG (BATCH_SIZE * SEED_BYTES)
        let localKeys : Vec 8 (BATCH_SIZE * HASH_KEY_BYTES) := fun i => (tape .localPRG i).toByte
        List.ofFn (localCommitments generichash localSeeds localKeys) ++
          sentStream calls localSeeds localKeys 0 (advance tape .localPRG (BATCH_SIZE * HASH_KEY_BYTES))
  | .getNextPRG :: calls, localSeeds, localKeys, index, tape =>
      if h : index < BATCH_SIZE then
        List.ofFn (currentSeedKey localSeeds localKeys ⟨index, h⟩) ++
          sentStream calls localSeeds localKeys (index + 1) tape
      else []

end Streams

section Rules

variable {β : Type} {tape : Source → ℕ → Cell D} {ins : Fin (N + 1) → List (Cell D)}
  {p : Fin (N + 1)}

theorem destination_injective (p : Fin (N + 1)) : Function.Injective fun i : Fin N => p + i.succ :=
  (add_right_injective p).comp (Fin.succ_injective N)

theorem source_injective (p : Fin (N + 1)) : Function.Injective fun i : Fin N => p - i.succ :=
  sub_right_injective.comp (Fin.succ_injective N)

theorem sentTo_others {len : ℕ} (p a : Fin (N + 1)) (msg : Fin len → Cell D) :
    sentTo (fun i : Fin N => p + i.succ) (fun _ => msg) a = if a = p then [] else List.ofFn msg := by
  split
  · rename_i ha
    subst ha
    exact sentTo_of_ne _ fun i heq => Fin.succ_ne_zero i (left_eq_add.mp heq)
  · rename_i ha
    obtain ⟨i, hi⟩ := Fin.exists_succ_eq.mpr (sub_ne_zero.mpr ha)
    have hdst : a = p + i.succ := by rw [hi, add_sub_cancel]
    rw [hdst]
    exact sentTo_dst (destination_injective p) _ i

theorem eval_getNext (size : ℕ) (f : Vec 8 size → Program N D β) :
    (getNext size >>= f).run.eval tape ins =
      (f fun i => (tape .localPRG i).toByte).run.eval (advance tape .localPRG size) ins := rfl

theorem emits_getNext {size : ℕ} {f : Vec 8 size → Program N D β} {full : Fin (N + 1) → List (Cell D)}
    (hf : (f fun i => (tape .localPRG i).toByte).run.Emits (advance tape .localPRG size) full) :
    (getNext size >>= f).run.Emits tape full := hf

theorem run_exchangeShares {len : ℕ} (p : Fin (N + 1)) (sent : Fin N → Fin len → Cell D)
    (f : (Fin N → Fin len → Cell D) → Program N D β) :
    (exchangeShares p sent >>= f).run =
      Proc.sendEach (fun i => p + i.succ) sent (Proc.recvEach (fun i => p - i.succ) fun m =>
        (f m).run) := by
  rw [exchangeShares, ExceptT.run_bind_lift]
  exact Proc.exchange_bind _ _ _ _

theorem eval_exchangeShares {len : ℕ} {sent : Fin N → Fin len → Cell D}
    {f : (Fin N → Fin len → Cell D) → Program N D β} {r : Except (Abort N) β}
    (heval : (exchangeShares p sent >>= f).run.eval tape ins = some r) :
    ∃ (m : Fin N → Fin len → Cell D) (rest : Fin (N + 1) → List (Cell D)),
      (∀ i, ins (p - i.succ) = List.ofFn (m i) ++ rest (p - i.succ)) ∧
        (f m).run.eval tape rest = some r := by
  rw [run_exchangeShares, Proc.eval_sendEach] at heval
  obtain ⟨m, rest, hm, -, heval⟩ := Proc.eval_recvEach (source_injective p) heval
  exact ⟨m, rest, hm, heval⟩

theorem emits_exchangeShares {len : ℕ} {msg : Fin len → Cell D} {more : List (Cell D)}
    {f : (Fin N → Fin len → Cell D) → Program N D β}
    (hf : ∀ m, (f m).run.Emits tape fun a => if a = p then [] else more) :
    (exchangeShares p (fun _ => msg) >>= f).run.Emits tape
      fun a => if a = p then [] else List.ofFn msg ++ more := by
  have hsent : (fun a => if a = p then [] else List.ofFn msg ++ more) = fun a =>
      sentTo (fun i : Fin N => p + i.succ) (fun _ => msg) a ++ if a = p then [] else more := by
    ext a
    rw [sentTo_others]
    split
    · rfl
    · rfl
  rw [run_exchangeShares, hsent]
  exact Proc.Emits.sendEach (Proc.Emits.recvEach hf) _ _

variable [DecidableEq D] {this : CommittedSeedsQueue N D} {index : Fin BATCH_SIZE}
  {receivedSeeds : Fin N → Fin (SEED_BYTES + HASH_KEY_BYTES) → Cell D} {f : Unit → Program N D β}

/-- The opening from the `i`-th source is what that source committed to. -/
def Verified (this : CommittedSeedsQueue N D) (index : Fin BATCH_SIZE)
    (m : Fin (SEED_BYTES + HASH_KEY_BYTES) → Cell D) (i : Fin N) : Prop :=
  this.commitments i.succ index = .commitment (generichash (openedSeed m) (openedKey m))

variable {generichash}

theorem eval_verify {l : List (Fin N)} {v : β}
    (heval : (forM l (verifyOne generichash p this index receivedSeeds) >>= f).run.eval tape ins =
      some (.ok v)) :
    (∀ i ∈ l, Verified generichash this index (receivedSeeds i) i) ∧
      (f ()).run.eval tape ins = some (.ok v) := by
  induction l with
  | nil => exact ⟨fun i hi => absurd hi List.not_mem_nil, heval⟩
  | cons i l ih =>
      rw [List.forM_cons, verifyOne, bind_assoc] at heval
      split at heval
      · cases heval
      · rename_i hok
        obtain ⟨hl, hf⟩ := ih heval
        refine ⟨fun j hj => ?_, hf⟩
        rcases List.mem_cons.mp hj with rfl | hj
        · exact (not_not.mp hok).symm
        · exact hl j hj

theorem emits_verify {l : List (Fin N)} {full : Fin (N + 1) → List (Cell D)}
    (hf : (f ()).run.Emits tape full) :
    (forM l (verifyOne generichash p this index receivedSeeds) >>= f).run.Emits tape full := by
  induction l with
  | nil => exact hf
  | cons i l ih =>
      rw [List.forM_cons, verifyOne, bind_assoc]
      split
      · exact Proc.Emits.done _ tape full
      · exact ih

theorem verify_same {l : List (Fin N)}
    (hok : ∀ i, Verified generichash this index (receivedSeeds i) i) :
    (forM l (verifyOne generichash p this index receivedSeeds) : Program N D Unit) = pure () := by
  induction l with
  | nil => rfl
  | cons i l ih =>
      rw [List.forM_cons, verifyOne, if_neg (not_not.mpr (hok i).symm), pure_bind, ih]

omit [DecidableEq D] in
theorem run_cons_seeds (x : Program N D (List Seed)) (seed : Seed) :
    (x >>= fun seeds => pure (seed :: seeds)).run =
      x.run.bind fun r => .done (r.map (seed :: ·)) := by
  rw [ExceptT.run_bind]
  refine congrArg x.run.bind (funext fun r => ?_)
  cases r with
  | error e => rfl
  | ok seeds => rfl

omit [DecidableEq D] in
theorem eval_cons_seeds {x : Program N D (List Seed)} {seed : Seed} {seeds : List Seed}
    (heval : (x >>= fun seeds => pure (seed :: seeds)).run.eval tape ins = some (.ok seeds)) :
    ∃ rest, x.run.eval tape ins = some (.ok rest) ∧ seeds = seed :: rest := by
  rw [run_cons_seeds, Proc.eval_map, Option.map_eq_some_iff] at heval
  obtain ⟨r, hr, hseeds⟩ := heval
  cases r with
  | error e => cases hseeds
  | ok rest => exact ⟨rest, hr, (Except.ok.inj hseeds).symm⟩

omit [DecidableEq D] in
theorem emits_cons_seeds {x : Program N D (List Seed)} {full : Fin (N + 1) → List (Cell D)}
    (hx : x.run.Emits tape full) (seed : Seed) :
    (x >>= fun seeds => pure (seed :: seeds)).run.Emits tape full := by
  rw [run_cons_seeds]
  exact hx.map _

end Rules

end CryptDough.CommittedSeeds
