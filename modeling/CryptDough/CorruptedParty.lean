import CryptDough.JointMessagePassing
import CryptDough.ResharingProtocols
import Mathlib.Tactic.Common

/-! The four parties run together while one of them is corrupted: it sends what it likes, and a party
that has stopped sends nothing, so that a receiver keeps what is in its buffer. If in the end the
streams of an honest receiver and of its honest hashers agree, all it received was right: the run is
judged in hindsight, evidence in a later state being evidence about every earlier one. -/

namespace CryptDough.Hindsight

variable {σ α β : Type} {Inv Evidence : σ → Prop}

/-- `op` keeps the invariant, and evidence after it was there before it and establishes `post`. -/
def Vouches (Inv Evidence : σ → Prop) (op : StateM σ α) (post : α → Prop) : Prop :=
  ∀ s, Inv s → Inv (op s).2 ∧ (Evidence (op s).2 → Evidence s ∧ post (op s).1)

namespace Vouches

theorem pure {post : α → Prop} {a : α} (ha : post a) :
    Vouches Inv Evidence (Pure.pure a) post :=
  fun _ hinv => ⟨hinv, fun hevidence => ⟨hevidence, ha⟩⟩

theorem mono {op : StateM σ α} {post post' : α → Prop} (hop : Vouches Inv Evidence op post)
    (himp : ∀ a, post a → post' a) : Vouches Inv Evidence op post' :=
  fun s hinv => ⟨(hop s hinv).1, fun hevidence =>
    ⟨((hop s hinv).2 hevidence).1, himp _ ((hop s hinv).2 hevidence).2⟩⟩

/-- What comes next need not rely on what the first part is vouched for; only its result may. -/
theorem bind {op : StateM σ α} {next : α → StateM σ β} {mid : α → Prop} {post : β → Prop}
    (hop : Vouches Inv Evidence op mid)
    (hnext : ∀ a, Vouches Inv Evidence (next a) fun b => mid a → post b) :
    Vouches Inv Evidence (op >>= next) post := by
  intro s hinv
  obtain ⟨hmid, hback⟩ := hop s hinv
  obtain ⟨hlast, hback'⟩ := hnext (op s).1 (op s).2 hmid
  refine ⟨hlast, fun hevidence => ?_⟩
  obtain ⟨hevidence', hpost⟩ := hback' hevidence
  obtain ⟨hevidence'', ha⟩ := hback hevidence'
  exact ⟨hevidence'', hpost ha⟩

/-- A step that neither the invariant nor the evidence is about. -/
theorem of_frame {op : StateM σ α} {post : α → Prop} (hinv : ∀ s, Inv s → Inv (op s).2)
    (hevidence : ∀ s, Evidence (op s).2 → Evidence s) (hpost : ∀ s, post (op s).1) :
    Vouches Inv Evidence op post :=
  fun s hs => ⟨hinv s hs, fun he => ⟨hevidence s he, hpost s⟩⟩

end Vouches

end CryptDough.Hindsight

namespace CryptDough.CorruptedParty

open Process Sharing Fantastic4PC JointMessagePassing Hindsight

/-- The joint state: the parties that share a generator read the same tape, and the corrupted party
sends what comes next in `forged`. -/
structure World (k : ℕ) where
  hashes : Fin 4 → HashStates
  stopped : Fin 4 → Bool
  tape : Fin 4 ⊕ Group 3 → ℕ → BitVec (8 * k)
  forged : ℕ → BitVec (8 * k)

abbrev Run (k : ℕ) (α : Type) := StateM (World k) α

variable {k n : ℕ}

/-- All parties call `jmp`, each with its own vector. -/
def jmp (corrupted : Fin 4) (x : Fin 4 → Vec (8 * k) n) (Pi Pj Pr : Fin 4) :
    Run k (Fin 4 → Vec (8 * k) n) := fun world =>
  let sender := jmpSender Pi Pj
  let received : Vec (8 * k) n :=
    if sender = corrupted then fun i => world.forged i
    else if world.stopped sender then x Pr
    else x sender
  let after (p : Fin 4) : Vec (8 * k) n × HashStates :=
    if world.stopped p then (x p, world.hashes p)
    else JointMessagePassing.jmp p (world.hashes p) (x p) received Pi Pj Pr
  (fun p => (after p).1,
    { world with hashes := fun p => (after p).2, forged := fun i => world.forged (n + i) })

/-- What the next `n` values of a tape are, for the parties that share the generator. -/
def draw (n : ℕ) (source : Fin 4 ⊕ Group 3) : Run k (Vec (8 * k) n) := fun world =>
  (fun i => world.tape source i, { world with tape := advance world.tape source n })

namespace World

variable (corrupted : Fin 4) (world : World k)

/-- Nobody honest has stopped, and honest hashers and receivers have hashed as much. -/
structure Sound : Prop where
  alive : ∀ p, p ≠ corrupted → world.stopped p = false
  aligned : ∀ pa : PartyAssignment, pa.hasher ≠ corrupted → pa.receiver ≠ corrupted →
    (world.hashes pa.hasher pa).length = (world.hashes pa.receiver pa).length

/-- The receivers in `Q` have hashed what their honest hashers have. -/
def Agree (Q : Fin 4 → Prop) : Prop :=
  ∀ Pi Pj Pr, [Pi, Pj, Pr].Nodup → Q Pr → whoHashes Pi Pj ≠ corrupted →
    world.hashes (whoHashes Pi Pj) (jmpAssignments Pi Pj Pr) =
      world.hashes Pr (jmpAssignments Pi Pj Pr)

end World

section Jmp

variable {corrupted : Fin 4} {Q : Fin 4 → Prop}

theorem vouches_draw (n : ℕ) (source : Fin 4 ⊕ Group 3) :
    Vouches (World.Sound corrupted) (fun world : World k => world.Agree corrupted Q)
      (draw n source) fun _ => True :=
  Vouches.of_frame (fun _ hsound => ⟨hsound.alive, hsound.aligned⟩) (fun _ hagree => hagree)
    fun _ => trivial

/-- What arrives at the receiver. -/
def received (corrupted : Fin 4) (world : World k) (x : Fin 4 → Vec (8 * k) n) (Pi Pj Pr : Fin 4) :
    Vec (8 * k) n :=
  if jmpSender Pi Pj = corrupted then fun i => world.forged i
  else if world.stopped (jmpSender Pi Pj) then x Pr
  else x (jmpSender Pi Pj)

section Step

variable {world : World k} (hsound : world.Sound corrupted) (x : Fin 4 → Vec (8 * k) n)
  {Pi Pj Pr : Fin 4} (hdistinct : [Pi, Pj, Pr].Nodup)

include hsound

theorem jmp_apply {p : Fin 4} (hp : p ≠ corrupted) :
    ((jmp corrupted x Pi Pj Pr world).1 p, (jmp corrupted x Pi Pj Pr world).2.hashes p) =
      JointMessagePassing.jmp p (world.hashes p) (x p) (received corrupted world x Pi Pj Pr)
        Pi Pj Pr := by
  show (if world.stopped p then (x p, world.hashes p) else JointMessagePassing.jmp p
    (world.hashes p) (x p) (received corrupted world x Pi Pj Pr) Pi Pj Pr) = _
  rw [hsound.alive p hp, if_neg Bool.false_ne_true]

theorem jmp_value {p : Fin 4} (hp : p ≠ corrupted) :
    (jmp corrupted x Pi Pj Pr world).1 p =
      if p = Pr then received corrupted world x Pi Pj Pr else x p := by
  apply (congrArg Prod.fst (jmp_apply hsound x hp)).trans
  rw [JointMessagePassing.jmp]
  split
  · rfl
  · split <;> rfl

include hdistinct

theorem jmp_hasher (pa : PartyAssignment) (hp : pa.hasher ≠ corrupted) :
    (jmp corrupted x Pi Pj Pr world).2.hashes pa.hasher pa = world.hashes pa.hasher pa ++
      if pa = jmpAssignments Pi Pj Pr then batchSpan (x pa.hasher) else [] := by
  rw [← JointMessagePassing.jmp_hasher hdistinct]
  exact congrFun (congrArg Prod.snd (jmp_apply hsound x hp)) pa

theorem jmp_receiver (pa : PartyAssignment) (hp : pa.receiver ≠ corrupted) :
    (jmp corrupted x Pi Pj Pr world).2.hashes pa.receiver pa = world.hashes pa.receiver pa ++
      if pa = jmpAssignments Pi Pj Pr then batchSpan (received corrupted world x Pi Pj Pr)
      else [] := by
  rw [← JointMessagePassing.jmp_receiver hdistinct]
  exact congrFun (congrArg Prod.snd (jmp_apply hsound x hp)) pa

theorem jmp_sound : (jmp corrupted x Pi Pj Pr world).2.Sound corrupted where
  alive := hsound.alive
  aligned := by
    intro pa hhasher hreceiver
    rw [jmp_hasher hsound x hdistinct pa hhasher, jmp_receiver hsound x hdistinct pa hreceiver,
      List.length_append, List.length_append, hsound.aligned pa hhasher hreceiver]
    split
    · rw [length_batchSpan, length_batchSpan]
    · rfl

end Step

/-- An honest receiver whose stream agrees with the honest hashers' has what the honest owners have. -/
theorem vouches_jmp (hQ : ∀ p, Q p → p ≠ corrupted) (x : Fin 4 → Vec (8 * k) n)
    {Pi Pj Pr : Fin 4} (hdistinct : [Pi, Pj, Pr].Nodup) :
    Vouches (World.Sound corrupted) (fun world : World k => world.Agree corrupted Q)
      (jmp corrupted x Pi Pj Pr) fun y =>
        (∀ p, p ≠ corrupted → p ≠ Pr → y p = x p) ∧
          (Q Pr → ∀ owner, owner ≠ corrupted → owner = Pi ∨ owner = Pj → y Pr = x owner) := by
  intro world hsound
  refine ⟨jmp_sound hsound x hdistinct, fun hagree => ?_⟩
  have hsplit : ∀ i j r, [i, j, r].Nodup → Q r → whoHashes i j ≠ corrupted →
      world.hashes (whoHashes i j) (jmpAssignments i j r) = world.hashes r (jmpAssignments i j r) ∧
        (if jmpAssignments i j r = jmpAssignments Pi Pj Pr then batchSpan (x (whoHashes i j))
          else []) =
          if jmpAssignments i j r = jmpAssignments Pi Pj Pr then
            batchSpan (received corrupted world x Pi Pj Pr) else [] := by
    intro i j r hroles hreceiver hhasher
    have hstreams := (jmp_hasher hsound x hdistinct (jmpAssignments i j r) hhasher).symm.trans
      ((hagree i j r hroles hreceiver hhasher).trans
        (jmp_receiver hsound x hdistinct (jmpAssignments i j r) (hQ r hreceiver)))
    exact List.append_inj hstreams (hsound.aligned (jmpAssignments i j r) hhasher (hQ r hreceiver))
  refine ⟨fun i j r hroles hreceiver hhasher => (hsplit i j r hroles hreceiver hhasher).1, ?_, ?_⟩
  · intro p hp hreceiver
    rw [jmp_value hsound x hp, if_neg hreceiver]
  · intro hreceiver owner hhonest howner
    rw [jmp_value hsound x (hQ _ hreceiver), if_pos rfl]
    rcases owner_role Pi Pj Pr howner with hrole | hrole
    · have hhasher : whoHashes Pi Pj = owner := hrole.symm
      have hspan := (hsplit Pi Pj Pr hdistinct hreceiver (hhasher ▸ hhonest)).2
      rw [if_pos rfl, if_pos rfl, hhasher] at hspan
      exact (batchSpan_injective hspan).symm
    · have hsender : jmpSender Pi Pj = owner := hrole.symm
      rw [received, hsender, if_neg hhonest, hsound.alive owner hhonest]
      rfl

end Jmp

end CryptDough.CorruptedParty
