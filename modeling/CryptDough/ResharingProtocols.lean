import CryptDough.Fantastic4PC
import CryptDough.ProcessEmbedding
import CryptDough.Replicated3PC
import CryptDough.Resharing

/-! How the three-party and the four-party protocol reshare: by the generated routing map, or by joint
message passing. What the members of a group hold becomes a consistent sharing of all parties. -/

namespace CryptDough

open Process Sharing Communicator ProtocolBase ZeroSharingGenerator

section Reshare

variable {S : Scheme} {Source : Type} {w n : ℕ}

/-- The members add the same shares of zero to the shares they have. -/
def rerandomize (partyID : S.Party) (source : Source) (v : EVec S w n) (binary : Bool) :
    Proc S.Party Source (BitVec w) (EVec S w n) := do
  let rand ← groupGetNext binary n S.last source
  pure fun r => Vec.plus binary (v r) (rand (partyShare partyID r))

def sendAll (partyID : S.Party) (v : EVec S w n) :
    List (S.Party × S.Slot) → Proc S.Party Source (BitVec w) Unit
  | [] => pure ()
  | (rank, shareIdx) :: sent => do
      sendShares partyID rank (v shareIdx)
      sendAll partyID v sent

def receiveBroadcast (partyID : S.Party) (v : EVec S w n) :
    List (S.Slot × S.Party) → Proc S.Party Source (BitVec w) (EVec S w n)
  | [] => pure v
  | (r, rank) :: ranks => do
      let share ← receiveShares partyID rank n
      receiveBroadcast partyID (Function.update v r share) ranks

/-- What a party does on its assignment, once the members have rerandomised. -/
def route (partyID : S.Party) (v : EVec S w n) :
    ReshareAssignment S.last S.rep → Proc S.Party Source (BitVec w) (EVec S w n)
  | .send sent => do
      sendAll partyID v sent
      pure v
  | .receive ranks => receiveBroadcast partyID v ((List.finRange (S.rep + 1)).zip ranks)

/-- The members read the same random vectors. -/
def GroupCorrelated {last : ℕ} {W : Type} (tape : Fin (last + 1) → Group last → ℕ → W) : Prop :=
  ∀ g p q, p ∈ g → q ∈ g → tape p g = tape q g

variable [DecidableEq Source] {source : Group S.last → Source}

theorem GroupCorrelated.advance {tape : S.Party → Source → ℕ → BitVec w}
    (hsource : Function.Injective source) (hcorr : GroupCorrelated fun p g => tape p (source g))
    (group : Group S.last) (len : ℕ) :
    GroupCorrelated fun p g =>
      (if p ∈ group then advance (tape p) (source group) len else tape p) (source g) := by
  intro g p q hp hq
  by_cases hg : g = group
  · subst hg
    simp only [if_pos hp, if_pos hq, Process.advance, Function.update_self]
    rw [show tape p (source g) = tape q (source g) from hcorr g p q hp hq]
  · have hread : ∀ r, (if r ∈ group then Process.advance (tape r) (source group) len
        else tape r) (source g) = tape r (source g) := by
      intro r
      split
      · exact Function.update_of_ne (fun heq => hg (hsource heq)) _ _
      · rfl
    show (if p ∈ group then Process.advance (tape p) (source group) len else tape p) (source g) =
      (if q ∈ group then Process.advance (tape q) (source group) len else tape q) (source g)
    rw [hread p, hread q]
    exact hcorr g p q hp hq

/-- The members have added shares of zero, and nobody else has done anything. -/
def Rerandomized (binary : Bool) (group : Group S.last) (v v' : S.Shares (Vec w n)) : Prop :=
  ∃ rand : S.Party → Vec w n, combine (Vec.plus binary) rand = 0 ∧
    ∀ p r, v' p r = if p ∈ group then Vec.plus binary (v p r) (rand (partyShare p r)) else v p r

theorem settle_rerandomize (partyID : S.Party) (s : Source) (v : EVec S w n) (binary : Bool)
    (tape : Source → ℕ → BitVec w) :
    (rerandomize partyID s v binary).settle tape =
      (.done fun r => Vec.plus binary (v r) (Fin.snoc (α := fun _ => Vec w n)
          (tapeVectors (tape s) n S.last) (dependent binary (tapeVectors (tape s) n S.last))
            (partyShare partyID r)),
        advance tape s (S.last * n)) := by
  rw [rerandomize, groupGetNext, bind_assoc, settle_bind (settle_drawVectors s n S.last tape)]
  rfl

theorem computes_rerandomize (hsource : Function.Injective source) (group : Group S.last)
    (v : S.Shares (Vec w n)) (binary : Bool) :
    Computes (fun tape => GroupCorrelated fun p g => tape p (source g))
      (fun p => if p ∈ group then rerandomize p (source group) (v p) binary else pure (v p))
      (Rerandomized binary group v) := by
  refine Computes.of_runs fun tape hcorr => ?_
  let rand (p : S.Party) : S.Party → Vec w n := Fin.snoc (α := fun _ => Vec w n)
    (tapeVectors (tape p (source group)) n S.last)
    (dependent binary (tapeVectors (tape p (source group)) n S.last))
  let value (p : S.Party) : EVec S w n :=
    if p ∈ group then fun r => Vec.plus binary (v p r) (rand p (partyShare p r)) else v p
  let tape' (p : S.Party) : Source → ℕ → BitVec w :=
    if p ∈ group then advance (tape p) (source group) (S.last * n) else tape p
  refine ⟨value, tape', Runs.settle ?_, hcorr.advance hsource group _, ?_⟩
  · convert Runs.pure value tape' using 1
    · ext p
      by_cases hp : p ∈ group
      · simp only [if_pos hp, settle_rerandomize, value]
        rfl
      · simp only [if_neg hp, value]
        rfl
    · ext p
      by_cases hp : p ∈ group
      · simp only [if_pos hp, settle_rerandomize, tape']
      · simp only [if_neg hp, tape']
        rfl
  · rcases group.eq_empty_or_nonempty with hempty | ⟨q, hq⟩
    · refine ⟨fun _ => 0, combine_const_idem _ 0 (Vec.plus_zero binary 0), fun p r => ?_⟩
      simp [hempty, value]
    · refine ⟨rand q, combine_zeroSharing binary _, fun p r => ?_⟩
      by_cases hp : p ∈ group
      · have hrand : rand p = rand q := by
          simp only [rand, show tape p (source group) = tape q (source group) from
            hcorr group p q hp hq]
        simp only [if_pos hp, hrand, value]
      · simp only [if_neg hp, value]

end Reshare

/-- `reshare` with the assignment of the group. -/
def Protocol.reshareAs {S : Scheme} {w n : ℕ} (ra : ReshareAssignment S.last S.rep) (partyID : S.Party)
    (v : EVec S w n) (group : Group S.last) (binary : Bool) :
    Proc S.Party (Group S.last) (BitVec w) (EVec S w n) :=
  match ra with
  | .send sent => do
      let v ← rerandomize partyID group v binary
      sendAll partyID v sent
      pure v
  | .receive ranks => receiveBroadcast partyID v ((List.finRange (S.rep + 1)).zip ranks)

/-- Whether there is a generator: the members of a randomness group have one in common. -/
def CommonPRGManager.hasGroup {last : ℕ} (partyID : Fin (last + 1)) (group : Group last) : Prop :=
  group = ∅ ∨ partyID ∈ group ∧ group ∈ generateRandomnessGroups last 2 1

instance {last : ℕ} (partyID : Fin (last + 1)) (group : Group last) :
    Decidable (CommonPRGManager.hasGroup partyID group) :=
  decidable_of_iff
    (group = ∅ ∨ partyID ∈ group ∧ (generateRandomnessGroups last 2 1).contains group = true)
    (by rw [CommonPRGManager.hasGroup, List.contains_iff_mem])

/-- The virtual function of the interface, which the three-party protocol does not override. A member
without a generator throws. -/
def Protocol.reshare {S : Scheme} {w n : ℕ} (partyID : S.Party) (v : EVec S w n)
    (group : Group S.last) (binary : Bool) :
    Option (Proc S.Party (Group S.last) (BitVec w) (EVec S w n)) :=
  match reshareMap S.rep partyID group with
  | .send sent =>
      if CommonPRGManager.hasGroup partyID group then
        some (reshareAs (.send sent) partyID v group binary)
      else none
  | .receive ranks => some (reshareAs (.receive ranks) partyID v group binary)

namespace Replicated3PC

variable {w n : ℕ}

def getGroups : List (Group 2) := generateGroups 2 2 1

def reshare (partyID : Fin 3) (v : EVec scheme w n) (group : Group 2) (binary : Bool) :
    Proc (Fin 3) (Group 2) (BitVec w) (EVec scheme w n) :=
  Protocol.reshareAs (reshareMap 1 partyID group) partyID v group binary

/-- A group leaves out one party, which gets its first share from the party before it and its second
share from the party after it. -/
theorem reshareMap_eq (dst p : Fin 3) :
    reshareMap 1 p (Finset.univ.erase dst) =
      if p = dst then .receive [2, 1] else if p = dst + 2 then .send [(1, 1)] else .send [(2, 0)] := by
  revert dst p
  decide

/-- With one of its groups the function of the interface does not throw. -/
theorem reshare_eq {group : Group 2} (hgroup : group ∈ getGroups) (partyID : Fin 3)
    (v : EVec scheme w n) (binary : Bool) :
    Protocol.reshare partyID v group binary = some (reshare partyID v group binary) := by
  have hknown : group ∈ generateGroups 2 2 1 := hgroup
  rw [Protocol.reshare, reshare]
  by_cases hp : partyID ∈ group
  · have hhas : CommonPRGManager.hasGroup partyID group :=
      .inr ⟨hp, List.mem_append_left _ hknown⟩
    simp only [reshareMap, hknown, not_true_eq_false, if_false, if_pos hp, if_pos hhas]
  · simp only [reshareMap, hknown, not_true_eq_false, if_false, if_neg hp]

theorem exists_erase_of_mem_getGroups : ∀ g ∈ getGroups, ∃ dst, g = Finset.univ.erase dst := by
  decide

/-- The share map of the base class is the one of the scheme. -/
theorem partyShare_eq (p : Fin 3) (r : Fin 2) : partyShare p r = scheme.held p r := by
  revert p r
  decide

theorem neighbours (dst : Fin 3) : dst + 2 ≠ dst ∧ dst + 1 ≠ dst ∧ dst + 2 ≠ dst + 1 ∧
    dst + 2 + 1 = dst ∧ dst + 1 + 2 = dst := by
  revert dst
  decide

theorem eq_add_one {p dst : Fin 3} (hne : p ≠ dst) (hne' : p ≠ dst + 2) : p = dst + 1 := by
  revert p dst
  decide

theorem runs_route (dst : Fin 3) (v : scheme.Shares (Vec w n))
    (tape : Fin 3 → Group 2 → ℕ → BitVec w) :
    Runs (fun p => route p (v p) (reshareMap 1 p (Finset.univ.erase dst))) tape
      (fun p => if p = dst then ![v (dst + 2) 1, v (dst + 1) 0] else v p) tape := by
  obtain ⟨hsrc, hsrc', hne, hrank, hrank'⟩ := neighbours dst
  let take (src p : Fin 3) (m : Vec w n) : Proc (Fin 3) (Group 2) (BitVec w) (Vec w n) :=
    (fun o => o.getD 0) <$> Proc.round (if p = src then some (dst, m) else none)
      (if p = dst then some src else none)
  have htake : Runs (fun p => take (dst + 2) p (v (dst + 2) 1) >>= fun share =>
      take (dst + 1) p (v (dst + 1) 0) >>= fun share' =>
        pure (if p = dst then ![share, share'] else v p)) tape _ tape :=
    (runs_transfer hsrc (v (dst + 2) 1) (fun _ => 0) tape).bind
      ((runs_transfer hsrc' (v (dst + 1) 0) (fun _ => 0) tape).bind (Runs.pure _ _))
  convert htake using 1
  · ext p
    rw [reshareMap_eq]
    by_cases hp : p = dst
    · subst hp
      simp only [if_true, take, if_neg hsrc.symm, if_neg hsrc'.symm]
      show Proc.recv (p + 2) n _ = Proc.recv (p + 2) n _
      congr 1
      ext share
      show Proc.recv (p + 1) n _ = Proc.recv (p + 1) n _
      congr 1
      ext share'
      show Proc.done _ = Proc.done _
      congr 1
      ext r
      fin_cases r <;> rfl
    · by_cases hp' : p = dst + 2
      · subst hp'
        simp only [if_true, take, if_neg hp, if_neg hne]
        show Proc.send (dst + 2 + 1) n _ _ = Proc.send dst n _ _
        rw [hrank]
        rfl
      · obtain rfl := eq_add_one hp hp'
        simp only [if_true, take, if_neg hp, if_neg hp']
        show Proc.send (dst + 1 + 2) n _ _ = Proc.send dst n _ _
        rw [hrank']
        rfl
  · ext p
    by_cases hp : p = dst
    · simp only [hp, if_true]
    · simp only [hp, if_false]

theorem computes_reshare {group : Group 2} (hgroup : group ∈ getGroups) {x : Fin 3 → Vec w n}
    {v : scheme.Shares (Vec w n)} (hv : ∀ p ∈ group, ∀ r, v p r = x (scheme.held p r))
    (binary : Bool) :
    Computes GroupCorrelated (fun p => reshare p (v p) group binary)
      fun y : scheme.Shares (Vec w n) => OpensE binary y (combine (Vec.plus binary) x) := by
  obtain ⟨dst, rfl⟩ := exists_erase_of_mem_getGroups group hgroup
  have hknown : Finset.univ.erase dst ∈ generateGroups 2 2 1 := hgroup
  have hstages : (fun p => reshare p (v p) (Finset.univ.erase dst) binary) = fun p =>
      (if p ∈ Finset.univ.erase dst then rerandomize p (Finset.univ.erase dst) (v p) binary
        else pure (v p)) >>= fun v' => route p v' (reshareMap 1 p (Finset.univ.erase dst)) := by
    ext p
    by_cases hp : p ∈ Finset.univ.erase dst
    · simp only [reshare, reshareMap, hknown, not_true_eq_false, if_false, if_pos hp]
      rfl
    · simp only [reshare, reshareMap, hknown, not_true_eq_false, if_false, if_neg hp]
      rfl
  rw [hstages]
  refine (computes_rerandomize (fun _ _ h => h) _ v binary).bind fun v' hv' => ?_
  obtain ⟨rand, hzero, hv'⟩ := hv'
  let x' (j : Fin 3) : Vec w n := Vec.plus binary (x j) (rand j)
  refine Computes.of_runs fun tape hcorr => ⟨_, tape, runs_route dst v' tape, hcorr, ?_⟩
  have hmember : ∀ p, p ≠ dst → ∀ r, v' p r = x' (scheme.held p r) := by
    intro p hp r
    have hmem : p ∈ Finset.univ.erase dst := Finset.mem_erase.mpr ⟨hp, Finset.mem_univ p⟩
    rw [hv' p r, if_pos hmem, hv p hmem r, partyShare_eq]
  have hdeal : (fun p => if p = dst then ![v' (dst + 2) 1, v' (dst + 1) 0] else v' p) =
      (Scheme.deal x' : scheme.Shares (Vec w n)) := by
    obtain ⟨hsrc, hsrc', -, hrank, -⟩ := neighbours dst
    funext p r
    by_cases hp : p = dst
    · subst hp
      rw [if_pos rfl, hmember _ hsrc, hmember _ hsrc', deal_eq]
      fin_cases r
      · exact congrArg x' hrank
      · exact congrArg x' (add_zero (p + 1))
    · rw [if_neg hp]
      exact hmember p hp r
  rw [hdeal]
  refine ⟨⟨x', rfl⟩, ?_⟩
  rw [reconstruct_deal, combine_op, hzero, Vec.plus_zero]

end Replicated3PC

namespace Fantastic4PC

variable {w n : ℕ}

def getGroups : List (Group 3) := [{0, 1, 2}, {1, 2, 3}, {2, 3, 0}, {3, 0, 1}]

def receiver (group : Group 3) : Fin 4 := Fin.ofNat 4 (0 + 1 + 2 + 3 - group.sum Fin.val)

/-- The two parties of the group that have part `sh`, in rising order. -/
def holders (group : Group 3) (sh : Fin 4) : List (Fin 4) :=
  ((List.finRange 4).filter (· ∈ group)).filter (sh ≠ ·)

/-- The parts in `shs`, passed one after the other to the party outside. -/
def distribute (partyID : Fin 4) (group : Group 3) :
    List (Fin 4) → EVec scheme w n → Proc (Fin 4) (Source ⊕ Group 3) (BitVec w) (EVec scheme w n)
  | [], v => pure v
  | sh :: shs, v =>
      if receiver group = sh then distribute partyID group shs v
      else
        match holders group sh with
        | Pi :: Pj :: _ => do
            let share ← (jmp partyID (v (abs2sh partyID sh)) Pi Pj (receiver group)).embed
              Embedding.firstSource
            distribute partyID group shs (Function.update v (abs2sh partyID sh) share)
        | _ => distribute partyID group shs v

def reshare (partyID : Fin 4) (v : EVec scheme w n) (group : Group 3) (binary : Bool) :
    Proc (Fin 4) (Source ⊕ Group 3) (BitVec w) (EVec scheme w n) := do
  let v ← if receiver group ≠ partyID then rerandomize partyID (Sum.inr group) v binary else pure v
  distribute partyID group [0, 1, 2, 3] v

/-- Whatever is drawn from the other tapes, members of a group read the same. -/
def GroupsCorrelated (tape : Fin 4 → Source ⊕ Group 3 → ℕ → BitVec w) : Prop :=
  GroupCorrelated fun p g => tape p (Sum.inr g)

theorem partyShare_eq (p : Fin 4) (r : Fin 3) : partyShare p r = scheme.held p r - 1 := by
  revert p r
  decide

theorem mem_iff_ne_receiver :
    ∀ group ∈ getGroups, ∀ p, p ∈ group ↔ receiver group ≠ p := by
  decide

theorem holders_eq : ∀ group ∈ getGroups, ∀ sh, receiver group ≠ sh →
    ∃ Pi Pj, holders group sh = [Pi, Pj] ∧ jmpSender Pi Pj ≠ receiver group ∧
      jmpSender Pi Pj ≠ sh := by
  decide

theorem firstSource_respects :
    (Embedding.firstSource : Embedding Source (Source ⊕ Group 3) (BitVec w) (BitVec w)).Respects
      (fun _ : Fin 4 → Source → ℕ → BitVec w => True) GroupsCorrelated where
  read := fun _ _ => trivial
  keep := by
    intro tape tape' hcorr _ hframe
    have htape : ∀ p (g : Group 3), tape' p (Sum.inr g) = tape p (Sum.inr g) :=
      fun p g => hframe p (Sum.inr g) fun _ => Sum.inr_ne_inl
    intro g p q hp hq
    show tape' p (Sum.inr g) = tape' q (Sum.inr g)
    rw [htape, htape]
    exact hcorr g p q hp hq

theorem computes_jmp (x : Fin 4 → Vec w n) {Pi Pj Pr : Fin 4} (hr : jmpSender Pi Pj ≠ Pr) :
    Computes GroupsCorrelated
      (fun p => (jmp p (x p) Pi Pj Pr).embed Embedding.firstSource)
      fun y => y = fun p => if p = Pr then x (jmpSender Pi Pj) else x p := by
  have hjmp : Computes (fun _ => True) (fun p => jmp p (x p) Pi Pj Pr)
      fun y => y = fun p => if p = Pr then x (jmpSender Pi Pj) else x p :=
    Computes.of_runs fun tape _ => ⟨_, tape, runs_jmp x hr tape, trivial, rfl⟩
  exact hjmp.embed firstSource_respects

/-- The party outside has got the parts in `done`, and the members have theirs. -/
def Distributed (x : Fin 4 → Vec w n) (group : Group 3) (done : List (Fin 4))
    (v : scheme.Shares (Vec w n)) : Prop :=
  ∀ p r, p ≠ receiver group ∨ scheme.held p r ∈ done → v p r = x (scheme.held p r)

theorem Distributed.update {x : Fin 4 → Vec w n} {group : Group 3} {done : List (Fin 4)}
    {v : scheme.Shares (Vec w n)} (hv : Distributed x group done v) {sh s : Fin 4}
    (hsh : receiver group ≠ sh) (hs : s ≠ receiver group) (hne : s ≠ sh) :
    Distributed x group (sh :: done) fun p => Function.update (v p) (abs2sh p sh)
      (if p = receiver group then v s (abs2sh s sh) else v p (abs2sh p sh)) := by
  have hsent : v s (abs2sh s sh) = x sh := by
    rw [hv s _ (Or.inl hs), held_abs2sh (Ne.symm hne)]
  intro p r hr
  by_cases hp : p = receiver group
  · subst hp
    simp only [if_true, update_abs2sh (Ne.symm hsh)]
    split
    · rename_i hheld
      rw [hsent, hheld]
    · rename_i hheld
      apply hv
      rcases hr with hr | hr
      · exact absurd rfl hr
      · exact Or.inr ((List.mem_cons.mp hr).resolve_left hheld)
  · simp only [if_neg hp, Function.update_eq_self]
    exact hv p r (Or.inl hp)

theorem computes_distribute {group : Group 3} (hgroup : group ∈ getGroups) {x : Fin 4 → Vec w n}
    (shs done : List (Fin 4)) {v : scheme.Shares (Vec w n)} (hv : Distributed x group done v) :
    Computes GroupsCorrelated (fun p => distribute p group shs (v p))
      (Distributed x group (shs ++ done)) := by
  induction shs generalizing done v with
  | nil => exact Computes.pure hv
  | cons sh shs ih =>
      by_cases hsh : receiver group = sh
      · simp only [distribute, if_pos hsh]
        refine (ih done hv).mono fun v' hv' p r hr => hv' p r ?_
        rcases hr with hr | hr
        · exact Or.inl hr
        · rcases List.mem_cons.mp hr with heq | hr
          · refine Or.inl fun hp => held_ne p r ?_
            rw [heq, ← hsh, hp]
          · exact Or.inr hr
      · obtain ⟨Pi, Pj, hholders, hs, hne⟩ := holders_eq group hgroup sh hsh
        simp only [distribute, if_neg hsh, hholders]
        refine (computes_jmp (fun p => v p (abs2sh p sh)) hs).bind fun y hy => ?_
        subst hy
        refine (ih (sh :: done) (hv.update hsh hs hne)).mono fun v' hv' p r hr => hv' p r ?_
        rcases hr with hr | hr
        · exact Or.inl hr
        · apply Or.inr
          simp only [List.cons_append, List.mem_cons, List.mem_append] at hr ⊢
          tauto

/-- Part `j` sits one slot after the random vector `j` in the base class's share map. -/
theorem combine_rerandomized (binary : Bool) (x rand : Fin 4 → Vec w n)
    (hzero : combine (Vec.plus binary) rand = 0) :
    combine (Vec.plus binary) (fun j => Vec.plus binary (x j) (rand (j - 1))) =
      combine (Vec.plus binary) x := by
  have hshift : combine (Vec.plus binary) (fun j => rand (j - 1)) = 0 := by
    rw [← hzero, combine_four, combine_four]
    show Vec.plus binary (Vec.plus binary (Vec.plus binary (rand 3) (rand 0)) (rand 1)) (rand 2) = _
    ac_rfl
  rw [combine_op, hshift, Vec.plus_zero]

theorem computes_reshare {group : Group 3} (hgroup : group ∈ getGroups) {x : Fin 4 → Vec w n}
    {v : scheme.Shares (Vec w n)} (hv : ∀ p ∈ group, ∀ r, v p r = x (scheme.held p r))
    (binary : Bool) :
    Computes GroupsCorrelated (fun p => reshare p (v p) group binary)
      fun y : scheme.Shares (Vec w n) => OpensE binary y (combine (Vec.plus binary) x) := by
  have hmem := mem_iff_ne_receiver group hgroup
  have hrandom : Computes GroupsCorrelated (fun p => if receiver group ≠ p then
      rerandomize p (Sum.inr group) (v p) binary else pure (v p)) (Rerandomized binary group v) := by
    have hsource : Function.Injective (Sum.inr : Group 3 → Source ⊕ Group 3) := Sum.inr_injective
    simp only [← hmem]
    exact computes_rerandomize hsource group v binary
  have hstages : (fun p => reshare p (v p) group binary) = fun p =>
      (if receiver group ≠ p then rerandomize p (Sum.inr group) (v p) binary else pure (v p)) >>=
        distribute p group [0, 1, 2, 3] := by
    ext p
    unfold reshare
    split <;> rfl
  rw [hstages]
  refine hrandom.bind fun v' hv' => ?_
  obtain ⟨rand, hzero, hv'⟩ := hv'
  let x' (j : Fin 4) : Vec w n := Vec.plus binary (x j) (rand (j - 1))
  have hstart : Distributed x' group [] v' := by
    intro p r hr
    have hp : p ∈ group := (hmem p).mpr ((hr.resolve_right (List.not_mem_nil)).symm)
    rw [hv' p r, if_pos hp, hv p hp r, partyShare_eq]
  refine (computes_distribute hgroup [0, 1, 2, 3] [] hstart).mono fun y hy => ?_
  have hdeal : y = (Scheme.deal x' : scheme.Shares (Vec w n)) := by
    funext p r
    refine hy p r (Or.inr ?_)
    generalize scheme.held p r = j
    revert j
    decide
  rw [hdeal]
  refine ⟨⟨x', rfl⟩, ?_⟩
  rw [reconstruct_deal]
  exact combine_rerandomized binary x rand hzero

end Fantastic4PC

end CryptDough
