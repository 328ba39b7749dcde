import CryptDough.ZeroSharingRuns

/-! Whether the holders of a generator stay together over runs of zero-sharing calls and of draws by
the protocols. In four parties every generator has three holders, and a zero sharing is drawn by two
of them. -/

namespace CryptDough.ZeroSharingGenerator

open AESPRGAlgorithm CommonPRGManager

variable {last : ℕ} {groups : Finset (Group last)}

/-- A vector that a party draws. -/
structure Request (last : ℕ) where
  prg : PRG last
  size : ElementSize
  n : ℕ

/-- What each party draws in a step of a protocol that all of them take part in: the holders of a
generator draw the same vectors from it. -/
structure ProtocolDraws (spdz : Bool) (groups : Finset (Group last)) where
  requests : Fin (last + 1) → List (Request last)
  all_take_part : ∀ prg p q, Holds spdz groups p prg → Holds spdz groups q prg →
    (requests p).filter (·.prg = prg) = (requests q).filter (·.prg = prg)

inductive Step (spdz : Bool) (groups : Finset (Group last))
  | zeroSharing (call : Call groups)
  | protocol (draws : ProtocolDraws spdz groups)

section Draws

variable (aes : PRG last → Keystream)

def drawAll : List (Request last) → Streams last Unit
  | [] => pure ()
  | request :: requests => do
      let _ ← call aes (some request.prg) fun key => getNext key request.size request.n
      drawAll requests

/-- The nonces of a generator that a list of requests uses. -/
def requestUses (requests : List (Request last)) (prg : PRG last) : ℕ :=
  ((requests.filter (·.prg = prg)).map fun request => batches request.size request.n).sum

theorem drawAll_run (requests : List (Request last)) (s : Nonces last) :
    drawAll aes requests s = some ((), fun prg => s prg + requestUses requests prg) := by
  induction requests generalizing s with
  | nil => rfl
  | cons request requests ih =>
      have hdraw := call_some aes
        (fun key nonce => getNext_nonce request.size (n := request.n) key nonce) request.prg s
      rw [drawAll, bind_some hdraw, ih]
      refine congrArg some (Prod.ext rfl (funext fun prg => ?_))
      change s prg + _ + _ = s prg + requestUses (request :: requests) prg
      by_cases hprg : request.prg = prg
      · simp [requestUses, hprg, Nat.add_assoc]
      · simp [requestUses, hprg]

end Draws

namespace Step

variable {spdz : Bool}

/-- All parties finish the step. -/
def Leads (aes : PRG last → Keystream) (s s' : Fin (last + 1) → Nonces last) :
    Step spdz groups → Prop
  | zeroSharing call => ∃ values, call.Returns spdz aes s values s'
  | protocol draws => ∀ p, drawAll aes (draws.requests p) (s p) = some ((), s' p)

/-- When a step keeps the holders together. In four parties a zero sharing has to use exactly the one
nonce that the third holder is moved by, and only the arithmetic vectors move it. -/
def Even : Step spdz groups → Prop
  | zeroSharing (.arithmetic size n) =>
      last = 3 → spdz = false ∧ 0 < n ∧ n ≤ maxElementsInBuffer size
  | zeroSharing (.arithmeticNum _ _) | zeroSharing (.binaryNum _) => last = 3 → spdz = true
  | zeroSharing (.binary _ n) => last = 3 → spdz = true ∨ n = 0
  | zeroSharing (.group _ _ _ _ _ _) | protocol _ => True

def uses (rank : Fin (last + 1)) (prg : PRG last) : Step spdz groups → ℕ
  | zeroSharing call => call.uses spdz rank prg
  | protocol draws => requestUses (draws.requests rank) prg

end Step

end CryptDough.ZeroSharingGenerator

namespace CryptDough.CommonPRGManager

open ZeroSharingGenerator

variable {last : ℕ} {groups : Finset (Group last)} {spdz : Bool}

theorem holder_table (hlast : last ≤ 3) (p index : Fin (last + 1)) :
    ∀ prg ∈ commonPrgs spdz p index, ZeroSharingGenerator.Draws spdz p prg ∨ prg = .own p ∨
      last = 3 ∧ spdz = false ∧ commonPrgs spdz p 2 = some prg := by
  interval_cases last <;> cases spdz <;> revert p index <;> decide

theorem draws_own (hlast : last ≤ 3) (p r : Fin (last + 1))
    (hp : ZeroSharingGenerator.Draws spdz p (.own r)) : p = r := by
  interval_cases last <;> cases spdz <;> revert p r <;> decide

theorem opposite_is_key {p : Fin (3 + 1)} {prg : PRG 3} (hp : commonPrgs false p 2 = some prg) :
    prg = .key (p + 1) := by
  have htable : commonPrgs false p 2 = some (.key (p + 1)) := by
    clear hp
    revert p
    decide
  exact Option.some.inj (hp.symm.trans htable)

theorem Holds.own (hlast : last ≤ 3) {p r : Fin (last + 1)} (hp : Holds spdz groups p (.own r)) :
    p = r := by
  rcases hp with ⟨index, hindex⟩ | ⟨g, -, -, hg⟩
  · rcases holder_table hlast p index _ hindex with hdraws | hown | ⟨rfl, rfl, hopposite⟩
    · exact draws_own hlast p r hdraws
    · exact (PRG.own.inj hown).symm
    · cases opposite_is_key hopposite
  · cases hg

theorem Holds.group (hlast : last ≤ 3) {p : Fin (last + 1)} {g : Group last}
    (hp : Holds spdz groups p (.group g)) : p ∈ g := by
  rcases hp with ⟨index, hindex⟩ | ⟨g', -, hmem, hg⟩
  · rcases holder_table hlast p index _ hindex with hdraws | hown | ⟨rfl, rfl, hopposite⟩
    · exact mem_of_draws hdraws
    · cases hown
    · cases opposite_is_key hopposite
  · rw [← PRG.group.inj hg]
    exact hmem

theorem Holds.key (hlast : last ≤ 3) (hring : ¬ (last = 3 ∧ spdz = false)) {p r : Fin (last + 1)}
    (hp : Holds spdz groups p (.key r)) : ZeroSharingGenerator.Draws spdz p (.key r) := by
  rcases hp with ⟨index, hindex⟩ | ⟨g, -, -, hg⟩
  · rcases holder_table hlast p index _ hindex with hdraws | hown | hopposite
    · exact hdraws
    · cases hown
    · exact absurd ⟨hopposite.1, hopposite.2.1⟩ hring
  · cases hg

/-- Of the three holders in four parties, two draw once and the third is moved on. -/
theorem Holds.four {groups : Finset (Group 3)} {p r : Fin (3 + 1)}
    (hp : Holds false groups p (.key r)) :
    neighbourUses false p (.key r) + (if commonPrgs false p 2 = some (.key r) then 1 else 0) = 1 := by
  rcases hp with ⟨index, hindex⟩ | ⟨g, -, -, hg⟩
  · revert p r index
    decide
  · cases hg

end CryptDough.CommonPRGManager

namespace CryptDough.ZeroSharingGenerator

open AESPRGAlgorithm CommonPRGManager

variable {last : ℕ} {groups : Finset (Group last)}

/-! The draws of the protocols: the generators are listed in the order of the draws, all of one
length. -/

section Protocols

theorem filter_requests (prgs : List (PRG last)) (size : ElementSize) (n : ℕ) (prg : PRG last) :
    (prgs.map fun prg => (⟨prg, size, n⟩ : Request last)).filter (·.prg = prg) =
      List.replicate (prgs.count prg) ⟨prg, size, n⟩ := by
  induction prgs with
  | nil => rfl
  | cons head prgs ih =>
      rw [List.map_cons, List.filter_cons, ih]
      by_cases hhead : head = prg
      · subst hhead
        rw [if_pos (decide_eq_true rfl), List.count_cons_self, List.replicate_succ]
      · rw [if_neg (by simpa using hhead), List.count_cons_of_ne hhead]

def ProtocolDraws.ofPrgs {spdz : Bool} (prgs : Fin (last + 1) → List (PRG last))
    (hcount : ∀ prg p q, Holds spdz groups p prg → Holds spdz groups q prg →
      (prgs p).count prg = (prgs q).count prg) (size : ElementSize) (n : ℕ) :
    ProtocolDraws spdz groups where
  requests p := (prgs p).map fun prg => ⟨prg, size, n⟩
  all_take_part prg p q hp hq := by rw [filter_requests, filter_requests, hcount prg p q hp hq]

/-- Draws from keys are counted key by key. -/
theorem count_eq_of_keys {prgs : Fin (3 + 1) → List (PRG 3)} (count : Fin (3 + 1) → ℕ)
    {groups : Finset (Group 3)} (hgroup : ∀ p g, (prgs p).count (.group g) = 0)
    (hkey : ∀ p index r, commonPrgs false p index = some (.key r) →
      (prgs p).count (.key r) = count r) (prg : PRG 3) (p q : Fin (3 + 1))
    (hp : Holds false groups p prg) (hq : Holds false groups q prg) :
    (prgs p).count prg = (prgs q).count prg := by
  cases prg with
  | own r => rw [hp.own le_rfl, hq.own le_rfl]
  | group g => rw [hgroup, hgroup]
  | key r =>
      rcases hp with ⟨index, hindex⟩ | ⟨g, -, -, hg⟩
      · rcases hq with ⟨index', hindex'⟩ | ⟨g, -, -, hg⟩
        · rw [hkey p index r hindex, hkey q index' r hindex']
        · cases hg
      · cases hg

/-- What the parties draw again for the terms shared with the party opposite. -/
def oppositeRanks (partyID : Fin (3 + 1)) : List (Fin (3 + 1)) :=
  ![[1, 2], [1], [-1], [2, -1]] partyID

/-- The draws of a product of four parties: `r_next`, `r_opp` and `r_prev` come first. -/
def productPrgs (partyID : Fin (3 + 1)) : List (PRG 3) :=
  (1 :: 2 :: -1 :: oppositeRanks partyID).filterMap (commonPrgs false partyID)

/-- The draws of `inp`: all but party `g` draw from the generator that excludes it. -/
def inpPrgs (g partyID : Fin (3 + 1)) : List (PRG 3) :=
  (if partyID = g then [] else [g - partyID]).filterMap (commonPrgs false partyID)

theorem productPrgs_group (p : Fin (3 + 1)) (g : Group 3) :
    (productPrgs p).count (.group g) = 0 := by
  revert p g
  decide

theorem productPrgs_key (p index r : Fin (3 + 1))
    (hkey : commonPrgs false p index = some (.key r)) :
    (productPrgs p).count (.key r) = if r < 2 then 2 else 1 := by
  revert p index r
  decide

theorem inpPrgs_group (g p : Fin (3 + 1)) (group : Group 3) :
    (inpPrgs g p).count (.group group) = 0 := by
  revert g p group
  decide

theorem inpPrgs_key (g p index r : Fin (3 + 1))
    (hkey : commonPrgs false p index = some (.key r)) :
    (inpPrgs g p).count (.key r) = if r + 1 = g then 1 else 0 := by
  revert g p index r
  decide

/-- `multiply_a` and `and_b` of vectors of size `n`. -/
def multiplyDraws (groups : Finset (Group 3)) : ElementSize → ℕ → ProtocolDraws false groups :=
  .ofPrgs productPrgs (count_eq_of_keys _ productPrgs_group productPrgs_key)

def inpDraws (groups : Finset (Group 3)) (g : Fin (3 + 1)) :
    ElementSize → ℕ → ProtocolDraws false groups :=
  .ofPrgs (inpPrgs g) (count_eq_of_keys _ (inpPrgs_group g) (inpPrgs_key g))

end Protocols

section Steps

variable {spdz : Bool} {aes : PRG last → Keystream}

theorem Step.uses_even (hlast : last ≤ 3) (step : Step spdz groups) (heven : step.Even)
    {prg : PRG last} {p q : Fin (last + 1)} (hp : Holds spdz groups p prg)
    (hq : Holds spdz groups q prg) : step.uses p prg = step.uses q prg := by
  cases step with
  | protocol draws => simp only [uses, requestUses, draws.all_take_part prg p q hp hq]
  | zeroSharing call =>
      cases prg with
      | own r => rw [hp.own hlast, hq.own hlast]
      | group g =>
          exact call.uses_eq hlast (.inr (.inr (hp.group hlast))) (.inr (.inr (hq.group hlast)))
      | key r =>
          by_cases hring : last = 3 ∧ spdz = false
          · obtain ⟨rfl, rfl⟩ := hring
            cases call with
            | arithmetic size n =>
                have hone := (batches_eq_one size).mpr (heven rfl).2
                simp only [uses, Call.uses, hone, Nat.one_mul, true_and, hp.four, hq.four]
            | arithmeticNum size nums => exact absurd (heven rfl) Bool.false_ne_true
            | binaryNum size => exact absurd (heven rfl) Bool.false_ne_true
            | binary size n =>
                have hnone := (batches_eq_zero size).mpr
                  ((heven rfl).resolve_left Bool.false_ne_true)
                simp only [uses, Call.uses, hnone, Nat.zero_mul]
            | group xor size m n g hg => simp only [uses, Call.uses, reduceCtorEq, and_false]
          · exact call.uses_eq hlast (hp.key hlast hring) (hq.key hlast hring)

theorem Step.Leads.nonces (hlast : last ≤ 3) {step : Step spdz groups}
    {s s' : Fin (last + 1) → Nonces last} (hleads : step.Leads aes s s') (p : Fin (last + 1))
    (prg : PRG last) : s' p prg = s p prg + step.uses p prg := by
  cases step with
  | zeroSharing call =>
      obtain ⟨values, hret⟩ := hleads
      exact hret.nonces hlast p prg
  | protocol draws =>
      have heq := Option.some.inj ((hleads p).symm.trans (drawAll_run aes (draws.requests p) (s p)))
      exact congrFun (congrArg Prod.snd heq) prg

variable (aes) in
theorem Step.exists_leads (hlast : last ≤ 3) {step : Step spdz groups} (heven : step.Even)
    (s : Fin (last + 1) → Nonces last) : ∃ s', step.Leads aes s s' := by
  cases step with
  | protocol draws => exact ⟨_, fun p => drawAll_run aes (draws.requests p) (s p)⟩
  | zeroSharing call =>
      have hnull : ¬ call.Null spdz := by
        cases call with
        | arithmetic size n =>
            exact fun h => Bool.false_ne_true ((heven h.2).1.symm.trans h.1)
        | _ => exact id
      obtain ⟨values, s', hret⟩ := Call.exists_returns aes hlast hnull s
      exact ⟨s', values, hret⟩

/-- The party whose key a generator is and the one that stands opposite hold it both. -/
theorem holds_zero (groups : Finset (Group 3)) :
    Holds false groups (0 : Fin (3 + 1)) (.key 0) ∧ Holds false groups (3 : Fin (3 + 1)) (.key 0) :=
  ⟨.inl ⟨1, by decide⟩, .inl ⟨2, by decide⟩⟩

theorem uses_zero :
    neighbourUses false (0 : Fin (3 + 1)) (.key 0) = 1 ∧
      neighbourUses false (3 : Fin (3 + 1)) (.key 0) = 0 ∧
      commonPrgs false (0 : Fin (3 + 1)) 2 ≠ some (.key 0) ∧
      commonPrgs false (3 : Fin (3 + 1)) 2 = some (.key 0) := by
  decide

/-- A step that keeps the three holders of a generator together is one of the even ones. -/
theorem Step.even_of_uses {groups : Finset (Group 3)} {call : Call groups}
    (huses : call.uses false 0 (.key 0) = call.uses false 3 (.key 0)) :
    (zeroSharing call : Step false groups).Even := by
  obtain ⟨hzero, hthree, hnext, hopposite⟩ := uses_zero
  cases call with
  | arithmetic size n =>
      simp only [Call.uses, hzero, hthree, hnext, hopposite, and_true, and_false, if_true, if_false,
        Nat.mul_one, Nat.mul_zero, Nat.add_zero, Nat.zero_add] at huses
      exact fun _ => ⟨rfl, (batches_eq_one size).mp huses⟩
  | arithmeticNum size nums =>
      simp only [Call.uses, hzero, hthree, Nat.one_ne_zero] at huses
  | binaryNum size =>
      simp only [Call.uses, hzero, hthree, Nat.one_ne_zero] at huses
  | binary size n =>
      simp only [Call.uses, hzero, hthree, Nat.mul_one, Nat.mul_zero] at huses
      exact fun _ => .inr ((batches_eq_zero size).mp huses)
  | group xor size m n g hg => exact trivial

theorem Step.Leads.inSync_iff (hlast : last ≤ 3) {step : Step spdz groups}
    {s s' : Fin (last + 1) → Nonces last} (hsync : InSync spdz groups s)
    (hleads : step.Leads aes s s') : InSync spdz groups s' ↔ step.Even := by
  constructor
  · intro hsync'
    cases step with
    | protocol draws => exact trivial
    | zeroSharing call =>
        by_cases hring : last = 3 ∧ spdz = false
        · obtain ⟨rfl, rfl⟩ := hring
          obtain ⟨hzero, hthree⟩ := holds_zero groups
          have hbefore := hsync _ _ _ hzero hthree
          have hafter := hsync' _ _ _ hzero hthree
          rw [hleads.nonces hlast, hleads.nonces hlast, hbefore] at hafter
          exact even_of_uses (Nat.add_left_cancel hafter)
        · have hspdz (hfour : last = 3) : spdz = true :=
            (Bool.dichotomy spdz).resolve_left fun hspdz => hring ⟨hfour, hspdz⟩
          obtain ⟨values, hret⟩ := hleads
          have hnull := hret.not_null
          cases call with
          | arithmetic size n => exact fun hfour => absurd ⟨hspdz hfour, hfour⟩ hnull
          | arithmeticNum size nums => exact hspdz
          | binaryNum size => exact hspdz
          | binary size n => exact fun hfour => .inl (hspdz hfour)
          | group xor size m n g hg => exact trivial
  · intro heven prg p q hp hq
    rw [hleads.nonces hlast, hleads.nonces hlast, hsync prg p q hp hq,
      step.uses_even hlast heven hp hq]

variable (aes) in
/-- The next vector drawn from a generator is the same at all its holders. -/
def SameNext (spdz : Bool) (groups : Finset (Group last)) (s : Fin (last + 1) → Nonces last) : Prop :=
  ∀ prg p q, Holds spdz groups p prg → Holds spdz groups q prg → ∀ size n,
    (getNext (aes prg) size n (s p prg)).1 = (getNext (aes prg) size n (s q prg)).1

theorem sameNext_of_inSync {s : Fin (last + 1) → Nonces last} (hsync : InSync spdz groups s) :
    SameNext aes spdz groups s := by
  intro prg p q hp hq size n
  rw [hsync prg p q hp hq]

variable (aes) in
/-- After every step of the run the holders of every generator are together. -/
def EachInSync : List (Step spdz groups) → (Fin (last + 1) → Nonces last) → Prop
  | [], _ => True
  | step :: steps, s =>
      ∃ s', step.Leads aes s s' ∧ InSync spdz groups s' ∧ SameNext aes spdz groups s' ∧
        EachInSync steps s'

theorem common_prgs_in_sync_iff (aes : PRG last → Keystream) (hlast : last ≤ 3)
    {s : Fin (last + 1) → Nonces last} (hsync : InSync spdz groups s)
    (steps : List (Step spdz groups)) :
    EachInSync aes steps s ↔ ∀ step ∈ steps, step.Even := by
  induction steps generalizing s with
  | nil => exact iff_of_true trivial fun step hstep => absurd hstep List.not_mem_nil
  | cons step steps ih =>
      rw [List.forall_mem_cons]
      constructor
      · rintro ⟨s', hleads, hsync', -, hrest⟩
        exact ⟨(hleads.inSync_iff hlast hsync).mp hsync', (ih hsync').mp hrest⟩
      · rintro ⟨heven, hrest⟩
        obtain ⟨s', hleads⟩ := step.exists_leads aes hlast heven s
        have hsync' := (hleads.inSync_iff hlast hsync).mpr heven
        exact ⟨s', hleads, hsync', sameNext_of_inSync hsync', (ih hsync').mpr hrest⟩

theorem common_prgs_in_sync_example :
    EachInSync (fun _ nonce i => nonce.setWidth 8 + BitVec.ofNat 8 i)
      [.protocol (multiplyDraws {{0, 1}} .int32 (2 ^ 19)), .zeroSharing (.arithmetic .int32 (2 ^ 18)),
        .protocol (inpDraws {{0, 1}} 2 .int32 3),
        .zeroSharing (.group false .int32 3 5 {0, 1} (Finset.mem_singleton_self _))]
      (fun (_ : Fin (3 + 1)) _ => 7) := by
  refine (common_prgs_in_sync_iff _ le_rfl (fun _ _ _ _ _ => rfl) _).mpr ?_
  have hvector : (.zeroSharing (.arithmetic .int32 (2 ^ 18)) : Step false {({0, 1} : Group 3)}).Even :=
    fun _ => ⟨rfl, by decide, by decide⟩
  simp only [List.forall_mem_cons]
  exact ⟨trivial, hvector, trivial, trivial, fun step hstep => absurd hstep List.not_mem_nil⟩

/-- Of four parties, the third holder of a generator falls behind with a binary zero sharing, and with
an arithmetic one of more elements than the buffer holds. -/
theorem third_holder_left_behind :
    InSync false ∅ (fun (_ : Fin (3 + 1)) _ => 0) ∧
      ¬ EachInSync (fun _ _ _ => 0)
        [(.zeroSharing (.binary .int32 1) : Step false (∅ : Finset (Group 3)))] (fun _ _ => 0) ∧
      ¬ EachInSync (fun _ _ _ => 0)
        [(.zeroSharing (.arithmetic .int32 (2 ^ 18 + 1)) : Step false (∅ : Finset (Group 3)))]
        (fun _ _ => 0) := by
  have hsync : InSync false ∅ (fun (_ : Fin (3 + 1)) (_ : PRG 3) => 0) := fun _ _ _ _ _ => rfl
  refine ⟨hsync, ?_, ?_⟩
  · rintro ⟨s', hleads, hsync', -⟩
    exact absurd ((hleads.inSync_iff le_rfl hsync).mp hsync' rfl) (by decide)
  · rintro ⟨s', hleads, hsync', -⟩
    exact absurd ((hleads.inSync_iff le_rfl hsync).mp hsync' rfl) (by decide)

end Steps

end CryptDough.ZeroSharingGenerator
