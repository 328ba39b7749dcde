import CryptDough.CommittedSeeds
import Mathlib.Data.Finset.Fold
import Mathlib.Data.List.GetD

/-! What the parties derive from committed seeds while one of them sends what it likes: the XOR of the
seeds that were opened to them, so that two parties agree if the same seed was opened to both. -/

namespace CryptDough.CommittedSeeds

open Process

variable {N : ℕ} {D : Type}

section Parsing

variable (rest : List (Cell D))

theorem getD_ofFn_append {n : ℕ} (m : Fin n → Cell D) (i : Fin n) (rest : List (Cell D)) :
    (List.ofFn m ++ rest).getD i (.byte 0) = m i := by
  have hi : (i : ℕ) < (List.ofFn m).length := by
    rw [List.length_ofFn]
    exact i.isLt
  rw [List.getD_append _ _ _ _ hi, List.getD_eq_getElem _ _ hi, List.getElem_ofFn]

theorem drop_ofFn_append {n : ℕ} (m : Fin n → Cell D) : (List.ofFn m ++ rest).drop n = rest := by
  rw [List.drop_left' (List.length_ofFn)]

theorem batchIn_append (m : Fin BATCH_SIZE → Cell D) : batchIn (List.ofFn m ++ rest) = m := by
  ext i
  exact getD_ofFn_append m i rest

theorem seedIn_append (m : Fin (SEED_BYTES + HASH_KEY_BYTES) → Cell D) :
    seedIn (List.ofFn m ++ rest) = openedSeed m := by
  funext byte
  exact congrArg Cell.toByte (getD_ofFn_append m (Fin.castAdd HASH_KEY_BYTES byte) rest)

theorem keyIn_append (m : Fin (SEED_BYTES + HASH_KEY_BYTES) → Cell D) :
    keyIn (List.ofFn m ++ rest) = openedKey m := by
  funext byte
  exact congrArg Cell.toByte (getD_ofFn_append m (Fin.natAdd SEED_BYTES byte) rest)

theorem openedSeed_currentSeedKey (localSeeds : Vec 8 (BATCH_SIZE * SEED_BYTES))
    (localKeys : Vec 8 (BATCH_SIZE * HASH_KEY_BYTES)) (index : Fin BATCH_SIZE) :
    openedSeed (currentSeedKey localSeeds localKeys index : _ → Cell D) = seedAt localSeeds index := by
  funext byte
  exact Fin.append_left _ _ byte

theorem openedKey_currentSeedKey (localSeeds : Vec 8 (BATCH_SIZE * SEED_BYTES))
    (localKeys : Vec 8 (BATCH_SIZE * HASH_KEY_BYTES)) (index : Fin BATCH_SIZE) :
    openedKey (currentSeedKey localSeeds localKeys index : _ → Cell D) = keyAt localKeys index := by
  funext byte
  exact Fin.append_right _ _ byte

end Parsing

section Runs

variable [DecidableEq D] {generichash : Seed → Key → D} {p : Fin (N + 1)} {calls : List Call}
  (more : List Call) {this : CommittedSeedsQueue N D} {tape : Source → ℕ → Cell D}

theorem emits_runCalls : (runCalls generichash p calls this).run.Emits tape fun a =>
    if a = p then [] else
      sentStream generichash (calls ++ more) this.localSeeds this.localKeys this.currentSeedIndex tape := by
  induction calls generalizing this tape with
  | nil => exact Proc.Emits.done _ tape _
  | cons call calls ih =>
      cases call with
      | repopulateQueue =>
          rw [runCalls, repopulateQueue]
          by_cases hindex : this.currentSeedIndex < BATCH_SIZE
          · simp only [if_pos hindex, List.cons_append, sentStream]
            exact ih
          · simp only [if_neg hindex, bind_assoc, pure_bind, List.cons_append, sentStream]
            exact emits_getNext (emits_getNext (emits_exchangeShares fun m => ih))
      | getNextPRG =>
          rw [runCalls, getNextPRG]
          by_cases hindex : this.currentSeedIndex < BATCH_SIZE
          · simp only [dif_pos hindex, bind_assoc, pure_bind, List.cons_append, sentStream]
            exact emits_exchangeShares fun m => emits_verify (emits_cons_seeds ih _)
          · rw [dif_neg hindex]
            exact Proc.Emits.done _ tape _

/-- A party derives the XOR of its own seed and of the seeds it received, and each of these is what the
sender had committed to. -/
theorem eval_runCalls {ins : Fin (N + 1) → List (Cell D)} {seeds : List Seed}
    (heval : (runCalls generichash p calls this).run.eval tape ins = some (.ok seeds))
    (batch : Fin BATCH_SIZE → Cell D) (k : ℕ) (hk : k < seeds.length) :
    (∀ i : Fin N, (transcript (calls ++ more) this.currentSeedIndex (this.commitments i.succ)
        (ins (p - i.succ)) k).commitment = .commitment (generichash
      (transcript (calls ++ more) this.currentSeedIndex (this.commitments i.succ)
        (ins (p - i.succ)) k).seed
      (transcript (calls ++ more) this.currentSeedIndex (this.commitments i.succ)
        (ins (p - i.succ)) k).key)) ∧
    ∀ byte, seeds[k] byte = (List.finRange N).foldl
      (fun byteVal i => byteVal ^^^ (transcript (calls ++ more) this.currentSeedIndex
        (this.commitments i.succ) (ins (p - i.succ)) k).seed byte)
      ((transcript (calls ++ more) this.currentSeedIndex batch
        (sentStream generichash (calls ++ more) this.localSeeds this.localKeys this.currentSeedIndex
          tape) k).seed byte) := by
  induction calls generalizing this tape ins seeds batch k with
  | nil =>
      obtain rfl := Except.ok.inj (Option.some.inj heval)
      exact absurd hk (Nat.not_lt_zero k)
  | cons call calls ih =>
      cases call with
      | repopulateQueue =>
          rw [runCalls, repopulateQueue] at heval
          by_cases hindex : this.currentSeedIndex < BATCH_SIZE
          · simp only [if_pos hindex, pure_bind] at heval
            simp only [List.cons_append, sentStream, transcript, if_pos hindex]
            exact ih heval batch k hk
          · simp only [if_neg hindex, bind_assoc, pure_bind, eval_getNext] at heval
            obtain ⟨m, rest, hm, heval⟩ := eval_exchangeShares heval
            simp only [List.cons_append, sentStream, transcript, if_neg hindex, hm, batchIn_append,
              drop_ofFn_append]
            exact ih heval _ k hk
      | getNextPRG =>
          rw [runCalls, getNextPRG] at heval
          by_cases hindex : this.currentSeedIndex < BATCH_SIZE
          · simp only [dif_pos hindex, bind_assoc, pure_bind] at heval
            obtain ⟨m, rest, hm, heval⟩ := eval_exchangeShares heval
            obtain ⟨hverified, heval⟩ := eval_verify heval
            obtain ⟨seeds', hseeds, rfl⟩ := eval_cons_seeds heval
            cases k with
            | zero =>
                simp only [List.cons_append, sentStream, transcript, dif_pos hindex, hm, seedIn_append,
                  keyIn_append, openedSeed_currentSeedKey, List.getElem_cons_zero]
                exact ⟨fun i => hverified i (List.mem_finRange i), fun _ => trivial⟩
            | succ k =>
                simp only [List.cons_append, sentStream, transcript, dif_pos hindex, hm,
                  drop_ofFn_append, List.getElem_cons_succ]
                exact ih hseeds batch k (Nat.lt_of_succ_lt_succ hk)
          · rw [dif_neg hindex] at heval
            cases heval

end Runs

section Joint

def xorOver {ι : Type} (A : Finset ι) (x : ι → BitVec 8) : BitVec 8 := A.fold (· ^^^ ·) 0 x

theorem xorOver_insert {ι : Type} [DecidableEq ι] {A : Finset ι} {a : ι} (ha : a ∉ A)
    (x : ι → BitVec 8) : xorOver (insert a A) x = x a ^^^ xorOver A x :=
  Finset.fold_insert ha

theorem xorOver_congr {ι : Type} {A : Finset ι} {x y : ι → BitVec 8} (hxy : ∀ a ∈ A, x a = y a) :
    xorOver A x = xorOver A y :=
  Finset.fold_congr hxy

theorem xorOver_map {ι κ : Type} (A : Finset ι) (f : ι ↪ κ) (x : κ → BitVec 8) :
    xorOver (A.map f) x = xorOver A fun a => x (f a) :=
  Finset.fold_map

/-- The XOR of a seed of every party. -/
def xorParties (x : Fin (N + 1) → Seed) : Seed := fun byte => xorOver Finset.univ fun q => x q byte

theorem foldl_xor (l : List (Fin N)) (x : Fin N → BitVec 8) (u : BitVec 8) :
    l.foldl (fun byteVal i => byteVal ^^^ x i) u = u ^^^ (l.map x).foldl (· ^^^ ·) 0 := by
  induction l generalizing u with
  | nil => exact BitVec.xor_zero.symm
  | cons i l ih =>
      have hfirst : (0 : BitVec 8) ^^^ x i = x i := BitVec.zero_xor
      have hrest := ih (x i)
      rw [List.foldl_map] at hrest
      rw [List.foldl_cons, List.map_cons, List.foldl_cons, hfirst, ih, List.foldl_map, List.foldl_map,
        hrest, BitVec.xor_assoc]

/-- A party's own part and those of the parties behind it are the parts of all parties. -/
theorem foldl_xor_univ (x : Fin (N + 1) → BitVec 8) (p : Fin (N + 1)) :
    (List.finRange N).foldl (fun byteVal i => byteVal ^^^ x (p - i.succ)) (x p) =
      xorOver Finset.univ x := by
  have hlist : xorOver Finset.univ (fun i : Fin N => x (p - i.succ)) =
      ((List.finRange N).map fun i => x (p - i.succ)).foldl (· ^^^ ·) 0 := by
    rw [xorOver, Finset.fold, Fin.univ_val_map, Multiset.coe_fold_l, List.ofFn_eq_map]
  calc (List.finRange N).foldl (fun byteVal i => byteVal ^^^ x (p - i.succ)) (x p)
      = x p ^^^ xorOver Finset.univ fun i : Fin N => x (p - i.succ) := by
        rw [foldl_xor _ fun i => x (p - i.succ), hlist]
    _ = xorOver Finset.univ fun q => x (p - q) := by
        rw [Fin.univ_succ, Finset.cons_eq_insert, xorOver_insert (by simp), xorOver_map, sub_zero]
        rfl
    _ = xorOver (Finset.univ.map (Equiv.subLeft p).toEmbedding) x :=
        (xorOver_map _ (Equiv.subLeft p).toEmbedding x).symm
    _ = xorOver Finset.univ x := by
        rw [Finset.map_univ_equiv]

/-- The part of one party is XORed to that of the others. -/
theorem xorParties_erase (x : Fin (N + 1) → Seed) (c : Fin (N + 1)) (byte : Fin SEED_BYTES) :
    xorParties x byte = x c byte ^^^ xorOver (Finset.univ.erase c) fun q => x q byte := by
  rw [← xorOver_insert (Finset.notMem_erase c _) fun q => x q byte,
    Finset.insert_erase (Finset.mem_univ c)]
  rfl

theorem xorParties_eq_iff {x y : Fin (N + 1) → Seed} {c : Fin (N + 1)} (hxy : ∀ q, q ≠ c → x q = y q) :
    xorParties x = xorParties y ↔ x c = y c := by
  have hothers : ∀ byte, xorOver (Finset.univ.erase c) (fun q => x q byte) =
      xorOver (Finset.univ.erase c) fun q => y q byte := by
    intro byte
    refine xorOver_congr fun q hq => ?_
    rw [hxy q (Finset.ne_of_mem_erase hq)]
  constructor
  · intro heq
    funext byte
    have hbyte := congrFun heq byte
    rw [xorParties_erase x c, xorParties_erase y c, hothers] at hbyte
    exact (BitVec.xor_left_inj _).mp hbyte
  · intro heq
    ext byte
    rw [xorParties_erase x c, xorParties_erase y c, hothers, heq]

end Joint

section Attacked

variable [DecidableEq D] {generichash : Seed → Key → D} {history : List Call}
  {calls : Fin (N + 1) → List Call} {queue : Fin (N + 1) → CommittedSeedsQueue N D}
  {tape : Fin (N + 1) → Source → ℕ → Cell D} {c p : Fin (N + 1)}
  {sent : Fin (N + 1) → Fin (N + 1) → List (Cell D)}
  {net : Net (Fin (N + 1)) Source (Cell D) (Except (Abort N) (List Seed))} {seeds : List Seed}

/-- What party `p` takes for the `k`-th opening of party `r`, if party `c` has sent `stream` and the
others have followed the history. -/
def takenFrom (generichash : Seed → Key → D) (history : List Call)
    (queue : Fin (N + 1) → CommittedSeedsQueue N D) (tape : Fin (N + 1) → Source → ℕ → Cell D)
    (c p : Fin (N + 1)) (stream : List (Cell D)) (k : ℕ) (r : Fin (N + 1)) : Opening D :=
  transcript history BATCH_SIZE ((queue p).commitments (p - r))
    (if r = c then stream
      else sentStream generichash history (queue r).localSeeds (queue r).localKeys BATCH_SIZE (tape r)) k

/-- While party `c` sends what it likes, a party that does not abort derives the XOR of what all parties
opened to it. -/
theorem derived_of_attacks (hcalls : ∀ q, calls q <+: history)
    (hqueue : ∀ q, (queue q).currentSeedIndex = BATCH_SIZE) (hp : p ≠ c)
    (hatt : Attacks (· = c) (fun q => (runCalls generichash q (calls q) (queue q)).run) tape sent net)
    (hdone : net.prog p = .done (.ok seeds)) (k : ℕ) (hk : k < seeds.length) :
    seeds[k] = xorParties (fun r =>
        (takenFrom generichash history queue tape c p (sent c p) k r).seed) ∧
      (takenFrom generichash history queue tape c p (sent c p) k c).commitment =
        .commitment (generichash (takenFrom generichash history queue tape c p (sent c p) k c).seed
          (takenFrom generichash history queue tape c p (sent c p) k c).key) := by
  have hfull : ∀ q, (runCalls generichash q (calls q) (queue q)).run.Emits (tape q) fun a =>
      if a = q then [] else
        sentStream generichash history (queue q).localSeeds (queue q).localKeys BATCH_SIZE (tape q) := by
    intro q
    obtain ⟨more, hmore⟩ := hcalls q
    rw [← hmore, ← hqueue q]
    exact emits_runCalls more
  obtain ⟨ins, hhonest, hbad, heval⟩ := hatt.returned (fun q _ => hfull q) hp hdone
  obtain ⟨more, hmore⟩ := hcalls p
  obtain ⟨hverified, hseeds⟩ := eval_runCalls more heval ((queue p).commitments 0) k hk
  have hsource : ∀ i : Fin N, transcript (calls p ++ more) (queue p).currentSeedIndex
      ((queue p).commitments i.succ) (ins (p - i.succ)) k =
        takenFrom generichash history queue tape c p (sent c p) k (p - i.succ) := by
    intro i
    have hne : p ≠ p - i.succ := fun heq => Fin.succ_ne_zero i (sub_eq_self.mp heq.symm)
    rw [takenFrom, hmore, hqueue, sub_sub_cancel]
    congr 1
    split
    · rename_i hr
      rw [hr]
      exact hbad c rfl
    · rename_i hr
      rw [hhonest _ hr, if_neg hne]
  have hown : transcript (calls p ++ more) (queue p).currentSeedIndex ((queue p).commitments 0)
      (sentStream generichash (calls p ++ more) (queue p).localSeeds (queue p).localKeys
        (queue p).currentSeedIndex (tape p)) k =
        takenFrom generichash history queue tape c p (sent c p) k p := by
    rw [takenFrom, if_neg hp, hmore, hqueue, sub_self]
  constructor
  · funext byte
    rw [hseeds]
    simp only [hsource, hown]
    exact foldl_xor_univ (fun r =>
      (takenFrom generichash history queue tape c p (sent c p) k r).seed byte) p
  · obtain ⟨i, hi⟩ := Fin.exists_succ_eq.mpr (sub_ne_zero.mpr hp)
    have hc : p - i.succ = c := by rw [hi, sub_sub_cancel]
    have hchecked := hverified i
    rw [hsource, hc] at hchecked
    exact hchecked

end Attacked

section Honest

variable {corr : (Fin (N + 1) → Source → ℕ → Cell D) → Prop}

theorem completes_getNext (size : ℕ) {post : (Fin (N + 1) → Vec 8 size) → Prop}
    (hcorr : ∀ tape, corr tape → corr (fun p => advance (tape p) .localPRG size) ∧
      post fun p i => (tape p .localPRG i).toByte) :
    Completes corr (fun _ => (getNext size : Program N D _)) post := by
  refine Completes.lift (Computes.of_runs fun tape htape => ?_)
  obtain ⟨hcorr', hpost⟩ := hcorr tape htape
  exact ⟨_, _, Runs.settle (Runs.pure _ _), hcorr', hpost⟩

theorem completes_exchangeShares {len : ℕ} (sent : Fin (N + 1) → Fin N → Fin len → Cell D) :
    Completes corr (fun p => exchangeShares p (sent p)) fun m => m = fun p i => sent (p - i.succ) i := by
  refine Completes.lift (Computes.exchange (fun p q i => ?_) destination_injective source_injective sent)
  rw [sub_eq_iff_eq_add]
  exact eq_comm

/-- The history never asks for a seed when none is left. -/
def Fits : List Call → ℕ → Prop
  | [], _ => True
  | .repopulateQueue :: calls, index => Fits calls (if index < BATCH_SIZE then index else 0)
  | .getNextPRG :: calls, index => index < BATCH_SIZE ∧ Fits calls (index + 1)

variable [DecidableEq D] {generichash : Seed → Key → D}

/-- Everybody has the commitments to the seeds and keys of the others. -/
def Committed (generichash : Seed → Key → D) (queue : Fin (N + 1) → CommittedSeedsQueue N D) : Prop :=
  ∀ p (i : Fin N), (queue p).commitments i.succ =
    localCommitments generichash (queue (p - i.succ)).localSeeds (queue (p - i.succ)).localKeys

/-- Parties that follow the same history do not abort. -/
theorem completes_runCalls {calls : List Call} {index : ℕ} (hfits : Fits calls index)
    {queue : Fin (N + 1) → CommittedSeedsQueue N D} (hqueue : ∀ p, (queue p).currentSeedIndex = index)
    (hcommitted : index < BATCH_SIZE → Committed generichash queue) :
    Completes (fun _ => True) (fun p => runCalls generichash p calls (queue p))
      fun seeds => ∀ p, (seeds p).length = calls.count .getNextPRG := by
  induction calls generalizing index queue with
  | nil => exact Completes.pure fun p => rfl
  | cons call calls ih =>
      cases call with
      | repopulateQueue =>
          by_cases hindex : index < BATCH_SIZE
          · simp only [runCalls, repopulateQueue, hqueue, if_pos hindex, pure_bind]
            rw [Fits, if_pos hindex] at hfits
            exact ih hfits hqueue hcommitted
          · simp only [runCalls, repopulateQueue, hqueue, if_neg hindex, bind_assoc, pure_bind]
            rw [Fits, if_neg hindex] at hfits
            have hdraws : ∀ size, Completes (fun _ => True) (fun _ : Fin (N + 1) =>
                (getNext size : Program N D _)) fun _ => True := fun size =>
              completes_getNext size fun _ _ => ⟨trivial, trivial⟩
            refine (hdraws _).bind fun localSeeds _ => (hdraws _).bind fun localKeys _ =>
              (completes_exchangeShares _).bind fun m hm => ?_
            refine ih hfits (fun _ => rfl) fun _ p i => ?_
            rw [hm]
            rfl
      | getNextPRG =>
          obtain ⟨hindex, hfits⟩ := hfits
          simp only [runCalls, getNextPRG, hqueue, dif_pos hindex, bind_assoc, pure_bind]
          refine (completes_exchangeShares _).bind fun m hm => ?_
          have hverified : ∀ p i, Verified generichash (queue p) ⟨index, hindex⟩ (m p i) i := by
            intro p i
            rw [Verified, hm, openedSeed_currentSeedKey, openedKey_currentSeedKey,
              hcommitted hindex p i]
            rfl
          simp only [verify_same (hverified _), pure_bind]
          let next : Fin (N + 1) → CommittedSeedsQueue N D := fun p =>
            { queue p with currentSeedIndex := index + 1 }
          have hnext : ∀ p, (next p).currentSeedIndex = index + 1 := fun _ => rfl
          refine (ih hfits hnext fun _ => hcommitted hindex).bind fun seeds hseeds => ?_
          refine Completes.pure fun p => ?_
          rw [List.length_cons, hseeds, List.count_cons_self]

end Honest

/-- The `k`-th seed that is opened in the stream `stream` of a history. -/
def openedIn (history : List Call) (stream : List (Cell D)) (k : ℕ) : Seed :=
  (transcript history BATCH_SIZE (fun _ => .byte 0) stream k).seed

/-- Two parties that follow the history, and have not aborted by their `i`-th seed, construct their
generator from the same seed if and only if the party that does not opened the same seed to both. -/
theorem honest_seeds_agree_iff [DecidableEq D] (generichash : Seed → Key → D) {history : List Call}
    {calls : Fin (N + 1) → List Call} (hcalls : ∀ q, calls q <+: history)
    {tape : Fin (N + 1) → Source → ℕ → Cell D} {c p q : Fin (N + 1)} (hp : p ≠ c) (hq : q ≠ c)
    {sent : Fin (N + 1) → Fin (N + 1) → List (Cell D)}
    {net : Net (Fin (N + 1)) Source (Cell D) (Except (Abort N) (List Seed))}
    (hatt : Attacks (· = c) (fun r => (runCalls generichash r (calls r) {}).run) tape sent net)
    {seeds seeds' : List Seed} (hdone : net.prog p = .done (.ok seeds))
    (hdone' : net.prog q = .done (.ok seeds')) (i : ℕ) (hi : i < seeds.length)
    (hi' : i < seeds'.length) :
    seeds[i] = seeds'[i] ↔ openedIn history (sent c p) i = openedIn history (sent c q) i := by
  rw [(derived_of_attacks hcalls (fun _ => rfl) hp hatt hdone i hi).1,
    (derived_of_attacks hcalls (fun _ => rfl) hq hatt hdone' i hi').1]
  refine (xorParties_eq_iff (c := c) fun r hr => ?_).trans ?_
  · simp only [takenFrom, if_neg hr]
  · simp only [takenFrom, if_true]
    exact Iff.rfl

section Equivocation

/-- What party 2 fills the seed with that it commits to towards its `i`-th destination. -/
def fill (p : Fin 3) (i : Fin 2) : BitVec 8 := if p = 2 ∧ i = 1 then 1 else 0

theorem batch_pos : 0 < BATCH_SIZE := Nat.zero_lt_succ 1023

def exampleHistory : List Call := [.repopulateQueue, .getNextPRG]

/-- The program of party 2: different seeds for the other two parties. -/
def equivocate : Program 2 (Seed × Key) (List Seed) := do
  let _ ← getNext (BATCH_SIZE * SEED_BYTES)
  let _ ← getNext (BATCH_SIZE * HASH_KEY_BYTES)
  let _ ← exchangeShares 2 fun i => localCommitments Prod.mk (fun _ => fill 2 i) fun _ => 0
  let _ ← exchangeShares 2 fun i =>
    currentSeedKey (fun _ => fill 2 i) (fun _ => 0) ⟨0, batch_pos⟩
  pure []

theorem completes_equivocation : Completes (fun tape => ∀ p s i, tape p s i = .byte 0)
    (fun p : Fin 3 => if p = 2 then equivocate else runCalls Prod.mk p exampleHistory {})
    fun seeds => seeds 0 = [fun _ => 0] ∧ seeds 1 = [fun _ => 1] := by
  have hzero : ∀ size, Completes (fun tape => ∀ p s i, tape p s i = .byte 0)
      (fun _ : Fin 3 => (getNext size : Program 2 (Seed × Key) _)) fun drawn => drawn = fun _ _ => 0 := by
    intro size
    refine completes_getNext size fun tape htape => ⟨fun p s i => ?_, ?_⟩
    · cases s
      show advance (tape p) .localPRG size .localPRG i = _
      rw [advance_self]
      exact htape p _ _
    · ext p i
      rw [htape]
      rfl
  have hprog : (fun p : Fin 3 => if p = 2 then equivocate else runCalls Prod.mk p exampleHistory {}) =
      fun p => getNext (BATCH_SIZE * SEED_BYTES) >>= fun localSeeds =>
        getNext (BATCH_SIZE * HASH_KEY_BYTES) >>= fun localKeys =>
          exchangeShares p (fun i => if p = 2 then
            localCommitments Prod.mk (fun _ => fill 2 i) fun _ => 0
              else localCommitments Prod.mk localSeeds localKeys) >>= fun m =>
            exchangeShares p (fun i => if p = 2 then
              currentSeedKey (fun _ => fill 2 i) (fun _ => 0) ⟨0, batch_pos⟩
                else currentSeedKey localSeeds localKeys ⟨0, batch_pos⟩) >>= fun m' =>
              if p = 2 then pure [] else
                forM (List.finRange 2) (verifyOne Prod.mk p
                  ⟨Fin.cons (localCommitments Prod.mk localSeeds localKeys) m, localSeeds, localKeys, 0⟩
                  ⟨0, batch_pos⟩ m') >>= fun _ =>
                pure [fun byte => (List.finRange 2).foldl (fun byteVal i =>
                  byteVal ^^^ openedSeed (m' i) byte) (seedAt localSeeds ⟨0, batch_pos⟩ byte)] := by
    ext p
    by_cases hp : p = 2
    · subst hp
      simp only [if_true]
      rfl
    · simp only [if_neg hp, exampleHistory, runCalls, repopulateQueue, getNextPRG,
        if_neg (lt_irrefl BATCH_SIZE), bind_assoc, pure_bind, dif_pos batch_pos]
  rw [hprog]
  refine (hzero _).bind fun localSeeds hseeds => (hzero _).bind fun localKeys hkeys => ?_
  refine (completes_exchangeShares _).bind fun m hm => (completes_exchangeShares _).bind fun m' hm' => ?_
  have hverified : ∀ (p : Fin 3) (i : Fin 2), Verified Prod.mk
      ⟨Fin.cons (localCommitments Prod.mk (localSeeds p) (localKeys p)) (m p), localSeeds p, localKeys p, 0⟩
      ⟨0, batch_pos⟩ (m' p i) i := by
    intro p i
    show m p i ⟨0, batch_pos⟩ = _
    rw [hm, hm']
    dsimp only
    split
    · rw [openedSeed_currentSeedKey, openedKey_currentSeedKey]
      rfl
    · rw [openedSeed_currentSeedKey, openedKey_currentSeedKey]
      rfl
  have hopened : ∀ (p : Fin 3) (i : Fin 2) byte,
      openedSeed (m' p i) byte = if p - i.succ = 2 then fill 2 i else 0 := by
    intro p i byte
    rw [hm']
    dsimp only
    split
    · rw [openedSeed_currentSeedKey]
      rfl
    · rw [openedSeed_currentSeedKey, hseeds]
      rfl
  have hlast : ∀ (p : Fin 3) (seeds : List Seed),
      (if p = 2 then pure [] else pure seeds : Program 2 (Seed × Key) (List Seed)) =
        pure (if p = 2 then [] else seeds) := fun p seeds => (apply_ite pure _ _ _).symm
  simp only [verify_same (hverified _), pure_bind, hlast]
  refine Completes.pure ⟨?_, ?_⟩
  · rw [if_neg (by decide)]
    refine congrArg (fun seed => [seed]) (funext fun byte => ?_)
    simp only [hopened, hseeds]
    show (List.finRange 2).foldl (fun byteVal i => byteVal ^^^ if (0 : Fin 3) - i.succ = 2 then
      fill 2 i else 0) 0 = 0
    decide
  · rw [if_neg (by decide)]
    refine congrArg (fun seed => [seed]) (funext fun byte => ?_)
    simp only [hopened, hseeds]
    show (List.finRange 2).foldl (fun byteVal i => byteVal ^^^ if (1 : Fin 3) - i.succ = 2 then
      fill 2 i else 0) 0 = 1
    decide

/-- Party 2 makes the other two construct their generators from different seeds. -/
theorem exists_equivocation : ∃ sent net seeds seeds', Attacks (· = (2 : Fin 3))
    (fun p => (runCalls Prod.mk p exampleHistory {}).run) (fun _ _ _ => .byte 0) sent net ∧
      net.prog 0 = .done (.ok seeds) ∧ net.prog 1 = .done (.ok seeds') ∧
        seeds = [fun _ => 0] ∧ seeds' = [fun _ => 1] := by
  obtain ⟨result, tape', hdel, -, value, rfl, hvalue⟩ :=
    completes_equivocation (fun _ _ _ => .byte 0) fun _ _ _ => rfl
  obtain ⟨sent, hruns⟩ := Net.Reaches.attacks (delivers_iff_runs.mp hdel)
  have hprog : ∀ p : Fin 3, p ≠ 2 →
      (if p = 2 then equivocate else runCalls Prod.mk p exampleHistory {}).run =
        (runCalls Prod.mk p exampleHistory {}).run := fun p hp => congrArg ExceptT.run (if_neg hp)
  obtain ⟨net, hatt, hagree⟩ := hruns.deviate hprog fun _ _ => rfl
  exact ⟨sent, net, value 0, value 1, hatt, (hagree 0 (by decide)).1, (hagree 1 (by decide)).1,
    hvalue.1, hvalue.2⟩

theorem honest_seeds_agree_iff_example : ∃ (sent : Fin 3 → Fin 3 → List (Cell (Seed × Key)))
    (seeds seeds' : List Seed) (hi : 0 < seeds.length) (hi' : 0 < seeds'.length),
    seeds[0] = seeds'[0] ↔
      openedIn exampleHistory (sent 2 0) 0 = openedIn exampleHistory (sent 2 1) 0 := by
  obtain ⟨sent, net, seeds, seeds', hatt, hdone, hdone', hseeds, hseeds'⟩ := exists_equivocation
  have hi : 0 < seeds.length := by
    rw [hseeds]
    exact Nat.one_pos
  have hi' : 0 < seeds'.length := by
    rw [hseeds']
    exact Nat.one_pos
  exact ⟨sent, seeds, seeds', hi, hi', honest_seeds_agree_iff Prod.mk (fun _ => List.prefix_rfl)
    (by decide) (by decide) hatt hdone hdone' 0 hi hi'⟩

/-- The seeds of parties that do not abort may differ. -/
theorem honest_seeds_disagree : ¬ ∀ (D : Type) [DecidableEq D] (generichash : Seed → Key → D),
    Function.Injective2 generichash → ∀ (N : ℕ), 3 ≤ N + 1 → ∀ (history : List Call)
      (tape : Fin (N + 1) → Source → ℕ → Cell D) (c p q : Fin (N + 1)), p ≠ c → q ≠ c →
      ∀ sent net, Attacks (· = c) (fun r => (runCalls generichash r history {}).run) tape sent net →
        ∀ seeds seeds', net.prog p = .done (.ok seeds) → net.prog q = .done (.ok seeds') →
          ∀ i : ℕ, seeds[i]? = seeds'[i]? := by
  intro hall
  obtain ⟨sent, net, seeds, seeds', hatt, hdone, hdone', rfl, rfl⟩ := exists_equivocation
  have hbinding : Function.Injective2 (Prod.mk : Seed → Key → Seed × Key) := fun _ _ _ _ heq =>
    Prod.mk.inj heq
  have heq := hall _ Prod.mk hbinding 2 le_rfl exampleHistory _ 2 0 1 (by decide) (by decide) sent
    net hatt _ _ hdone hdone' 0
  have hbyte := congrFun (Option.some.inj heq) ⟨0, Nat.zero_lt_succ 31⟩
  exact absurd hbyte (by decide)

end Equivocation

end CryptDough.CommittedSeeds
