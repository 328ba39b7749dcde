import CryptDough.SeedAgreement
import Mathlib.Data.Countable.Basic
import Mathlib.Data.Set.Finite.Basic

/-! The seed a party derives while another one chooses its commitment after it has seen those of the
others: commitments bind and hide, but the one that is seen can be sent again. -/

namespace CryptDough.CommittedSeeds

open Process

section Hiding

variable {D ι : Type}

/-- Commitments hide what they are made of: what is sent after they were seen does not depend on it,
and stays what it was if it is one of finitely many own commitments. -/
def Hiding (strategy : (ι → D) → D) : Prop :=
  ∃ own : Finset D, ∀ g : D → D, (∀ x ∈ own, g x = x) →
    ∀ seen, strategy (g ∘ seen) = g (strategy seen)

/-- A commitment that is sent is always the same one or always that of the same party. -/
theorem Hiding.constant_or_replayed [Infinite D] [Countable ι] {strategy : (ι → D) → D}
    (hhiding : Hiding strategy) :
    (∃ x, ∀ seen, strategy seen = x) ∨ ∃ i, ∀ seen, strategy seen = seen i := by
  classical
  obtain ⟨own, hnatural⟩ := hhiding
  have hinfinite : ((own : Set D)ᶜ).Infinite := own.finite_toSet.infinite_compl
  obtain ⟨index, hindex⟩ := exists_injective_nat ι
  let fresh : ι → D := fun i => hinfinite.natEmbedding _ (index i)
  have hfresh : Function.Injective fresh :=
    Subtype.val_injective.comp ((hinfinite.natEmbedding _).injective.comp hindex)
  have hown : ∀ i, fresh i ∉ own := fun i => (hinfinite.natEmbedding _ (index i)).property
  -- Any commitments are made of the fresh ones by a map that keeps the own ones.
  let rename : (ι → D) → D → D → D := fun seen y x =>
    if x ∈ own then x else Function.extend fresh seen (fun _ => y) x
  have hrename : ∀ seen y, strategy seen = rename seen y (strategy fresh) := by
    intro seen y
    have hseen : rename seen y ∘ fresh = seen := by
      ext i
      show (if fresh i ∈ own then fresh i else Function.extend fresh seen (fun _ => y) (fresh i)) = seen i
      rw [if_neg (hown i), hfresh.extend_apply]
    have hfixed := hnatural (rename seen y) (fun x hx => if_pos hx) fresh
    rwa [hseen] at hfixed
  by_cases hmem : strategy fresh ∈ own
  · refine Or.inl ⟨strategy fresh, fun seen => ?_⟩
    rw [hrename seen (strategy fresh)]
    exact if_pos hmem
  · by_cases hrange : ∃ i, fresh i = strategy fresh
    · obtain ⟨i, hi⟩ := hrange
      refine Or.inr ⟨i, fun seen => ?_⟩
      rw [hrename seen (strategy fresh), ← hi]
      show (if fresh i ∈ own then fresh i else Function.extend fresh seen _ (fresh i)) = seen i
      rw [if_neg (hown i), hfresh.extend_apply]
    · obtain ⟨y, hy⟩ := exists_ne (strategy fresh)
      have hother : rename fresh y (strategy fresh) = y := by
        show (if strategy fresh ∈ own then _ else Function.extend fresh fresh (fun _ => y) _) = y
        rw [if_neg hmem, Function.extend_apply' _ _ _ hrange]
      exact absurd ((hrename fresh y).trans hother).symm hy

end Hiding

variable {N : ℕ} {D : Type}

section Batch

/-- The calls for the first seeds of a batch. -/
def batchCalls (k : ℕ) : List Call := .repopulateQueue :: List.replicate (k + 1) .getNextPRG

/-- The seeds and keys a party draws for its next batch. -/
def localSeed (tape : Source → ℕ → Cell D) (k : Fin BATCH_SIZE) : Seed :=
  seedAt (fun i => (tape .localPRG i).toByte) k

def localKey (tape : Source → ℕ → Cell D) (k : Fin BATCH_SIZE) : Key :=
  keyAt (fun i => (tape .localPRG (BATCH_SIZE * SEED_BYTES + i)).toByte) k

def withSeed (tape : Source → ℕ → Cell D) (k : Fin BATCH_SIZE) (s : Seed) : Source → ℕ → Cell D :=
  fun source i =>
    if SEED_BYTES * k ≤ i ∧ i < SEED_BYTES * k + SEED_BYTES then .byte (Vec.getElem s (i - SEED_BYTES * k))
    else tape source i

variable (tape : Source → ℕ → Cell D) (k : Fin BATCH_SIZE) (s : Seed)

theorem localSeed_withSeed : localSeed (withSeed tape k s) k = s := by
  funext byte
  have hbyte := byte.isLt
  simp only [localSeed, seedAt, withSeed, finProdFinEquiv_apply_val]
  rw [if_pos ⟨Nat.le_add_left _ _, by omega⟩, Nat.add_sub_cancel]
  exact dif_pos hbyte

theorem localSeed_withSeed_of_ne {j : Fin BATCH_SIZE} (hj : j ≠ k) :
    localSeed (withSeed tape k s) j = localSeed tape j := by
  funext byte
  have hbyte : (byte : ℕ) < 32 := byte.isLt
  have hne : (j : ℕ) ≠ k := fun heq => hj (Fin.ext heq)
  simp only [localSeed, seedAt, withSeed, finProdFinEquiv_apply_val]
  rw [if_neg]
  simp only [SEED_BYTES]
  omega

theorem localKey_withSeed (j : Fin BATCH_SIZE) : localKey (withSeed tape k s) j = localKey tape j := by
  funext byte
  have hk : (k : ℕ) < 1024 := k.isLt
  simp only [localKey, keyAt, withSeed]
  rw [if_neg]
  simp only [SEED_BYTES, BATCH_SIZE]
  omega

end Batch

section Transcripts

variable {generichash : Seed → Key → D}

theorem transcript_commitment (m : ℕ) (index : ℕ) (batch : Fin BATCH_SIZE → Cell D)
    (stream : List (Cell D)) {j : ℕ} (hj : j < m) (hindex : index + j < BATCH_SIZE) :
    (transcript (List.replicate m .getNextPRG) index batch stream j).commitment =
      batch ⟨index + j, hindex⟩ := by
  induction j generalizing m index stream with
  | zero =>
      obtain ⟨m, rfl⟩ := Nat.exists_eq_succ_of_ne_zero hj.ne'
      rw [List.replicate_succ, transcript]
      exact dif_pos hindex
  | succ j ih =>
      obtain ⟨m, rfl⟩ := Nat.exists_eq_succ_of_ne_zero (Nat.ne_zero_of_lt hj)
      have hindex' : index + 1 + j < BATCH_SIZE := by omega
      rw [List.replicate_succ, transcript, ih m (index + 1) _ (Nat.lt_of_succ_lt_succ hj) hindex']
      congr 2
      omega

theorem transcript_sentStream (m : ℕ) (index : ℕ) (batch : Fin BATCH_SIZE → Cell D)
    (localSeeds : Vec 8 (BATCH_SIZE * SEED_BYTES)) (localKeys : Vec 8 (BATCH_SIZE * HASH_KEY_BYTES))
    (tape : Source → ℕ → Cell D) {j : ℕ} (hj : j < m) (hindex : index + j < BATCH_SIZE) :
    (transcript (List.replicate m .getNextPRG) index batch
      (sentStream generichash (List.replicate m .getNextPRG) localSeeds localKeys index tape) j).seed =
      seedAt localSeeds ⟨index + j, hindex⟩ := by
  induction j generalizing m index with
  | zero =>
      obtain ⟨m, rfl⟩ := Nat.exists_eq_succ_of_ne_zero hj.ne'
      have hfirst : index < BATCH_SIZE := hindex
      rw [List.replicate_succ, sentStream, dif_pos hfirst, transcript, seedIn_append,
        openedSeed_currentSeedKey]
      rfl
  | succ j ih =>
      obtain ⟨m, rfl⟩ := Nat.exists_eq_succ_of_ne_zero (Nat.ne_zero_of_lt hj)
      have hfirst : index < BATCH_SIZE := by omega
      have hindex' : index + 1 + j < BATCH_SIZE := by omega
      rw [List.replicate_succ, sentStream, dif_pos hfirst, transcript, drop_ofFn_append,
        ih m (index + 1) (Nat.lt_of_succ_lt_succ hj) hindex']
      congr 2
      omega

end Transcripts

section Coin

variable {generichash : Seed → Key → D} {c p : Fin (N + 1)} {k : Fin BATCH_SIZE}
  {queue : Fin (N + 1) → CommittedSeedsQueue N D} {tape : Fin (N + 1) → Source → ℕ → Cell D}

theorem getElem?_ofFn_append {n : ℕ} (m : Fin n → Cell D) (i : Fin n) (rest : List (Cell D)) :
    (List.ofFn m ++ rest)[(i : ℕ)]? = some (m i) := by
  have hi : (i : ℕ) < (List.ofFn m).length := by
    rw [List.length_ofFn]
    exact i.isLt
  rw [List.getElem?_append_left hi, List.getElem?_eq_getElem hi, List.getElem_ofFn]

/-- The commitments of the parties other than `c` to a batch. -/
def digests (generichash : Seed → Key → D) (tape : Fin (N + 1) → Source → ℕ → Cell D)
    (c : Fin (N + 1)) : {q : Fin (N + 1) // q ≠ c} × Fin BATCH_SIZE → D :=
  fun x => generichash (localSeed (tape x.1) x.2) (localKey (tape x.1) x.2)

/-- Party `p` may derive `out` at position `k` of a batch while party `c` sends what it likes, except
that its `k`-th commitment to `p` is what `strategy` makes of those of the others. -/
def Derives [DecidableEq D] (generichash : Seed → Key → D) (queue : Fin (N + 1) → CommittedSeedsQueue N D)
    (tape : Fin (N + 1) → Source → ℕ → Cell D) (c p : Fin (N + 1)) (k : Fin BATCH_SIZE)
    (strategy : ({q : Fin (N + 1) // q ≠ c} × Fin BATCH_SIZE → D) → D) (out : Seed) : Prop :=
  ∃ (calls : Fin (N + 1) → List Call) (sent : Fin (N + 1) → Fin (N + 1) → List (Cell D))
    (net : Net (Fin (N + 1)) Source (Cell D) (Except (Abort N) (List Seed))) (seeds : List Seed),
    (∀ q, calls q <+: batchCalls k) ∧
    Attacks (· = c) (fun q => (runCalls generichash q (calls q) (queue q)).run) tape sent net ∧
    (sent c p)[(k : ℕ)]? = some (.commitment (strategy (digests generichash tape c))) ∧
    net.prog p = .done (.ok seeds) ∧ seeds[(k : ℕ)]? = some out

theorem takenFrom_seed {r : Fin (N + 1)} (hr : r ≠ c) (stream : List (Cell D)) :
    (takenFrom generichash (batchCalls k) queue tape c p stream k r).seed = localSeed (tape r) k := by
  rw [takenFrom, if_neg hr, batchCalls, sentStream, if_neg (lt_irrefl _), transcript,
    if_neg (lt_irrefl _), drop_ofFn_append,
    transcript_sentStream _ 0 _ _ _ _ (Nat.lt_succ_self k) (by rw [zero_add]; exact k.isLt)]
  simp only [zero_add]
  rfl

theorem takenFrom_commitment (stream : List (Cell D)) :
    (takenFrom generichash (batchCalls k) queue tape c p stream k c).commitment =
      stream.getD k (.byte 0) := by
  rw [takenFrom, if_pos rfl, batchCalls, transcript, if_neg (lt_irrefl _),
    transcript_commitment _ 0 _ _ (Nat.lt_succ_self k) (by rw [zero_add]; exact k.isLt)]
  simp only [zero_add]
  rfl

variable [DecidableEq D]

/-- What is derived is the XOR of the local seeds and of what the commitment of party `c` opens to. -/
theorem Derives.seed (hqueue : ∀ q, (queue q).currentSeedIndex = BATCH_SIZE) (hp : p ≠ c)
    {strategy : ({q : Fin (N + 1) // q ≠ c} × Fin BATCH_SIZE → D) → D} {out : Seed}
    (hout : Derives generichash queue tape c p k strategy out) :
    ∃ opened key, generichash opened key = strategy (digests generichash tape c) ∧
      out = xorParties fun r => if r = c then opened else localSeed (tape r) k := by
  obtain ⟨calls, sent, net, seeds, hcalls, hatt, hcommitment, hdone, hseeds⟩ := hout
  obtain ⟨hk, rfl⟩ := List.getElem?_eq_some_iff.mp hseeds
  obtain ⟨hxor, hverified⟩ := derived_of_attacks hcalls hqueue hp hatt hdone k hk
  rw [takenFrom_commitment, List.getD_eq_getElem?_getD, hcommitment] at hverified
  refine ⟨_, _, (Cell.commitment.inj hverified).symm, ?_⟩
  rw [hxor]
  refine congrArg xorParties (funext fun r => ?_)
  by_cases hr : r = c
  · rw [if_pos hr, hr]
  · rw [if_neg hr, takenFrom_seed hr]

/-- A party that sends the commitments and openings of party `p` again is not caught. -/
theorem derives_of_replay (hqueue : ∀ q, (queue q).currentSeedIndex = BATCH_SIZE) (hp : p ≠ c)
    {strategy : ({q : Fin (N + 1) // q ≠ c} × Fin BATCH_SIZE → D) → D}
    (hreplay : ∀ seen, strategy seen = seen (⟨p, hp⟩, k)) :
    ∃ out, Derives generichash queue tape c p k strategy out := by
  have hfits : ∀ m index, index + m ≤ BATCH_SIZE → Fits (List.replicate m .getNextPRG) index := by
    intro m
    induction m with
    | zero => exact fun _ _ => trivial
    | succ m ih => exact fun index hindex => ⟨by omega, ih (index + 1) (by omega)⟩
  have hbatch : Fits (batchCalls k) BATCH_SIZE := by
    rw [batchCalls, Fits, if_neg (lt_irrefl _)]
    exact hfits _ 0 (by have := k.isLt; omega)
  -- Party `c` runs the program with the tape of `p`.
  have hcompletes : Completes (fun _ => True)
      (fun q => runCalls generichash q (batchCalls k) (queue q)) _ :=
    completes_runCalls hbatch hqueue fun h => absurd h (lt_irrefl _)
  obtain ⟨result, tape', hdel, -, seeds, rfl, hlength⟩ :=
    hcompletes (Function.update tape c (tape p)) trivial
  obtain ⟨sent, hruns⟩ := Net.Reaches.attacks (delivers_iff_runs.mp hdel)
  have htape : ∀ q, q ≠ c → Function.update tape c (tape p) q = tape q := fun q hq =>
    Function.update_of_ne hq _ tape
  obtain ⟨net, hatt, hagree⟩ := hruns.deviate (fun _ _ => rfl) htape
  have hdone : net.prog p = .done (.ok (seeds p)) := (hagree p hp).1
  have hk : (k : ℕ) < (seeds p).length := by
    rw [hlength, batchCalls, List.count_cons_of_ne (by decide), List.count_replicate_self]
    exact Nat.lt_succ_self k
  have hcalls : ∀ _ : Fin (N + 1), batchCalls k <+: batchCalls k := fun _ => List.prefix_rfl
  obtain ⟨-, hverified⟩ := derived_of_attacks hcalls hqueue hp hatt hdone k hk
  rw [takenFrom_commitment, List.getD_eq_getElem?_getD] at hverified
  refine ⟨_, fun _ => batchCalls k, sent, net, seeds p, hcalls, hatt, ?_, hdone,
    List.getElem?_eq_getElem hk⟩
  cases hcell : (sent c p)[(k : ℕ)]? with
  | none =>
      rw [hcell] at hverified
      cases hverified
  | some cell =>
      obtain ⟨rest, hrest⟩ := hruns.sent_prefix (p := c) not_false (emits_runCalls []) p
      have hcell' : (sent c p ++ rest)[(k : ℕ)]? = some cell :=
        List.getElem?_append_left (List.getElem?_eq_some_iff.mp hcell).1 ▸ hcell
      rw [hrest, if_neg hp, List.append_nil, batchCalls, sentStream, hqueue, if_neg (lt_irrefl _),
        Function.update_self] at hcell'
      rw [← hcell', hreplay]
      exact getElem?_ofFn_append _ k _

/-- If two parties contribute the same seed, it cancels. -/
theorem xorParties_cancel {x y : Fin (N + 1) → Seed} (hp : p ≠ c) (hx : x p = x c) (hy : y p = y c)
    (hxy : ∀ q, q ≠ c → q ≠ p → x q = y q) : xorParties x = xorParties y := by
  have hmem : p ∈ Finset.univ.erase c := Finset.mem_erase.mpr ⟨hp, Finset.mem_univ p⟩
  have hothers : ∀ z : Fin (N + 1) → Seed, z p = z c → ∀ byte, xorParties z byte =
      xorOver ((Finset.univ.erase c).erase p) fun q => z q byte := by
    intro z hz byte
    rw [xorParties_erase z c, ← Finset.insert_erase hmem, xorOver_insert (Finset.notMem_erase p _), hz,
      Finset.erase_insert (Finset.notMem_erase p _), ← BitVec.xor_assoc, BitVec.xor_self]
    exact BitVec.zero_xor
  funext byte
  rw [hothers x hx, hothers y hy]
  refine xorOver_congr fun q hq => ?_
  obtain ⟨hqp, hq⟩ := Finset.mem_erase.mp hq
  rw [hxy q (Finset.ne_of_mem_erase hq) hqp]

omit [DecidableEq D] in
theorem digests_withSeed (hp : p ≠ c) (s : Seed) {x : {q : Fin (N + 1) // q ≠ c} × Fin BATCH_SIZE}
    (hx : x ≠ (⟨p, hp⟩, k)) :
    digests generichash (Function.update tape p (withSeed (tape p) k s)) c x =
      digests generichash tape c x := by
  obtain ⟨⟨q, hq⟩, j⟩ := x
  by_cases hqp : q = p
  · subst hqp
    have hj : j ≠ k := fun heq => hx (by rw [heq])
    simp only [digests, Function.update_self]
    rw [localSeed_withSeed_of_ne _ _ _ hj, localKey_withSeed]
  · simp only [digests, Function.update_of_ne hqp]

omit [DecidableEq D] in
theorem digests_withSeed_self (hp : p ≠ c) (s : Seed) :
    digests generichash (Function.update tape p (withSeed (tape p) k s)) c (⟨p, hp⟩, k) =
      generichash s (localKey (tape p) k) := by
  simp only [digests, Function.update_self]
  rw [localSeed_withSeed, localKey_withSeed]

omit [DecidableEq D] in
theorem localSeed_update (s : Seed) {r : Fin (N + 1)} (hr : r ≠ p) :
    localSeed (Function.update tape p (withSeed (tape p) k s) r) k = localSeed (tape r) k := by
  rw [Function.update_of_ne hr]

omit [DecidableEq D] in
theorem localSeed_update_self (s : Seed) :
    localSeed (Function.update tape p (withSeed (tape p) k s) p) k = s := by
  rw [Function.update_self, localSeed_withSeed]

/-- If its commitment comes back to it, a party derives the same whatever its own seed is. -/
theorem derives_same_of_replay (hbinding : Function.Injective2 generichash)
    (hqueue : ∀ q, (queue q).currentSeedIndex = BATCH_SIZE) (hp : p ≠ c)
    {strategy : ({q : Fin (N + 1) // q ≠ c} × Fin BATCH_SIZE → D) → D}
    (hreplay : ∀ seen, strategy seen = seen (⟨p, hp⟩, k)) :
    ∃ out, ∀ s, Derives generichash queue (Function.update tape p (withSeed (tape p) k s)) c p k
      strategy out := by
  have hexists : ∀ s, ∃ out, Derives generichash queue
      (Function.update tape p (withSeed (tape p) k s)) c p k strategy out :=
    fun s => derives_of_replay hqueue hp hreplay
  have hopens : ∀ s out, Derives generichash queue
      (Function.update tape p (withSeed (tape p) k s)) c p k strategy out →
      out = xorParties fun r => if r = c then s else
        localSeed (Function.update tape p (withSeed (tape p) k s) r) k := by
    intro s out hout
    obtain ⟨opened, key, hopened, hxor⟩ := hout.seed hqueue hp
    rw [hreplay, digests_withSeed_self] at hopened
    obtain ⟨rfl, -⟩ := hbinding hopened
    exact hxor
  obtain ⟨out, hout⟩ := hexists 0
  refine ⟨out, fun s => ?_⟩
  obtain ⟨out', hout'⟩ := hexists s
  have hsame : out' = out := by
    rw [hopens _ _ hout, hopens _ _ hout']
    refine xorParties_cancel hp ?_ ?_ fun q hqc hqp => ?_
    · rw [if_pos rfl, if_neg hp, localSeed_update_self]
    · rw [if_pos rfl, if_neg hp, localSeed_update_self]
    · rw [if_neg hqc, if_neg hqc, localSeed_update _ hqp, localSeed_update _ hqp]
  rwa [hsame] at hout'

theorem seeds_ne : (0 : Seed) ≠ fun _ => 1 := by
  intro heq
  exact absurd (congrFun heq ⟨0, Nat.zero_lt_succ 31⟩) (by decide)

/-- What an honest party derives determines its own seed, the other seeds and the keys given, if and
only if the corrupted party does not send it its own commitment again. -/
theorem derived_seed_injective_iff [Infinite D] (hbinding : Function.Injective2 generichash)
    {strategy : ({q : Fin (N + 1) // q ≠ c} × Fin BATCH_SIZE → D) → D} (hhiding : Hiding strategy)
    (hqueue : ∀ q, (queue q).currentSeedIndex = BATCH_SIZE) (hp : p ≠ c) :
    (∀ s s' out,
      Derives generichash queue (Function.update tape p (withSeed (tape p) k s)) c p k strategy out →
      Derives generichash queue (Function.update tape p (withSeed (tape p) k s')) c p k strategy out →
        s = s') ↔ ¬ ∀ seen, strategy seen = seen (⟨p, hp⟩, k) := by
  constructor
  · intro hinjective hreplay
    obtain ⟨out, hout⟩ := derives_same_of_replay hbinding hqueue hp hreplay
    exact seeds_ne (hinjective _ _ out (hout _) (hout _))
  · intro hfresh s s' out hout hout'
    have hcommitted : strategy (digests generichash (Function.update tape p (withSeed (tape p) k s)) c) =
        strategy (digests generichash (Function.update tape p (withSeed (tape p) k s')) c) := by
      rcases hhiding.constant_or_replayed with ⟨x, hx⟩ | ⟨i, hi⟩
      · rw [hx, hx]
      · have hne : i ≠ (⟨p, hp⟩, k) := fun heq => hfresh (heq ▸ hi)
        rw [hi, hi, digests_withSeed hp s hne, digests_withSeed hp s' hne]
    obtain ⟨opened, key, hopened, rfl⟩ := hout.seed hqueue hp
    obtain ⟨opened', key', hopened', hsame⟩ := hout'.seed hqueue hp
    obtain ⟨rfl, -⟩ := hbinding (hopened.trans (hcommitted.trans hopened'.symm))
    have hseed := (xorParties_eq_iff (c := p) fun q hqp => by
      by_cases hqc : q = c
      · rw [if_pos hqc, if_pos hqc]
      · rw [if_neg hqc, if_neg hqc, localSeed_update _ hqp, localSeed_update _ hqp]).mp hsame
    rw [if_neg hp, if_neg hp, localSeed_update_self, localSeed_update_self] at hseed
    exact hseed

end Coin

section Replay

/-- Infinitely many digests, of which the commitments are some. -/
def exampleCommit (seed : Seed) (key : Key) : (Seed × Key) ⊕ ℕ := Sum.inl (seed, key)

theorem exampleCommit_binding : Function.Injective2 exampleCommit := fun _ _ _ _ heq =>
  Prod.mk.inj (Sum.inl.inj heq)

/-- Party 1 sends party 0 the commitment it has received from it. -/
def replay (seen : {q : Fin 2 // q ≠ 1} × Fin BATCH_SIZE → (Seed × Key) ⊕ ℕ) : (Seed × Key) ⊕ ℕ :=
  seen (⟨0, Fin.zero_ne_one⟩, ⟨0, batch_pos⟩)

theorem replay_hiding : Hiding replay := ⟨∅, fun _ _ _ => rfl⟩

theorem derived_seed_injective_iff_example :
    (∀ s s' out, Derives exampleCommit (fun _ => {}) (Function.update (fun _ _ _ => .byte 0) 0
        (withSeed (fun _ _ => .byte 0) ⟨0, batch_pos⟩ s)) 1 0 ⟨0, batch_pos⟩ replay out →
      Derives exampleCommit (fun _ => {}) (Function.update (fun _ _ _ => .byte 0) 0
        (withSeed (fun _ _ => .byte 0) ⟨0, batch_pos⟩ s')) 1 0 ⟨0, batch_pos⟩ replay out → s = s') ↔
    ¬ ∀ seen, replay seen = seen (⟨0, Fin.zero_ne_one⟩, ⟨0, batch_pos⟩) :=
  derived_seed_injective_iff exampleCommit_binding replay_hiding (fun _ => rfl) Fin.zero_ne_one

/-- The seed of an honest party may be cancelled: whatever its own seed is, it derives the same one. -/
theorem derived_seed_not_injective : ¬ ∀ (D : Type) [DecidableEq D] [Infinite D]
    (generichash : Seed → Key → D), Function.Injective2 generichash → ∀ (N : ℕ), 2 ≤ N + 1 →
    ∀ (c p : Fin (N + 1)), p ≠ c → ∀ (k : Fin BATCH_SIZE)
      (strategy : ({q : Fin (N + 1) // q ≠ c} × Fin BATCH_SIZE → D) → D), Hiding strategy →
    ∀ (tape : Fin (N + 1) → Source → ℕ → Cell D) (s s' out : Seed),
      Derives generichash (fun _ => {}) (Function.update tape p (withSeed (tape p) k s)) c p k strategy out →
      Derives generichash (fun _ => {}) (Function.update tape p (withSeed (tape p) k s')) c p k strategy out →
        s = s' := by
  intro hall
  have hinjective := hall _ exampleCommit exampleCommit_binding 1 le_rfl 1 0 Fin.zero_ne_one
    ⟨0, batch_pos⟩ replay replay_hiding fun _ _ _ => .byte 0
  have hsame : ∃ out, ∀ s, Derives exampleCommit (fun _ : Fin 2 => {})
      (Function.update (fun _ _ _ => .byte 0) 0 (withSeed (fun _ _ => .byte 0) ⟨0, batch_pos⟩ s)) 1 0
        ⟨0, batch_pos⟩ replay out :=
    derives_same_of_replay exampleCommit_binding (fun _ => rfl) Fin.zero_ne_one fun _ => rfl
  obtain ⟨out, hout⟩ := hsame
  exact seeds_ne (hinjective _ _ out (hout _) (hout _))

end Replay

end CryptDough.CommittedSeeds
