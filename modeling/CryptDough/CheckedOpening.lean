import CryptDough.CorruptedPrograms

/-! Opening a sharing between two checks. A party that fails a check stops, and the others do not
learn of it: party 0 never hashes, so nobody misses its hash in the second check. -/

namespace CryptDough.CorruptedParty

open Process Sharing Fantastic4PC JointMessagePassing Hindsight

variable {k n : ℕ}

section Opening

variable {Digest : Type} [DecidableEq Digest] (hash : List (BitVec 8) → Digest)
  (unchanged : Digest) (corrupted : Fin 4)

/-- What a receiver has in its buffer for the hash of an assignment. -/
def recvHash (world : World k) (forged : PartyAssignment → Digest) (pa : PartyAssignment) : Digest :=
  if pa.hasher = corrupted then forged pa
  else if world.stopped pa.hasher then unchanged
  else hash (world.hashes pa.hasher pa)

/-- A party that fails the check aborts. -/
def maliciousCheck (forged : PartyAssignment → Digest) : Run k (Fin 4 → Bool) := fun world =>
  let ok (p : Fin 4) : Bool := maliciousCheckInternal hash p (world.hashes p)
    (recvHash hash unchanged corrupted world forged)
  (ok, { world with stopped := fun p => world.stopped p || !ok p })

/-- Each party in turn is passed the part it lacks, into a fresh vector. -/
def openLoop (sh : scheme.Shares (Vec (8 * k) n)) :
    List (Fin 4) → (Fin 4 → Vec (8 * k) n) → Run k (Fin 4 → Vec (8 * k) n)
  | [], sh3 => pure sh3
  | Pi :: rest, sh3 => do
      let Pj := Pi + 1
      let Pr := nextParty Pi Pj
      let y ← jmp corrupted (fun p => if p = Pr then sh3 p else sh p (abs2sh p Pr)) Pi Pj Pr
      openLoop sh rest fun p => if p = Pr then y p else sh3 p

def uncheckedOpen (binary : Bool) (shares : scheme.Shares (Vec (8 * k) n)) :
    Run k (Fin 4 → Vec (8 * k) n) := do
  let sh3 ← openLoop corrupted shares [0, 1, 2, 3] fun _ => 0
  pure fun p => Vec.plus binary
    (Vec.plus binary (Vec.plus binary (shares p 0) (shares p 1)) (shares p 2)) (sh3 p)

/-- What the parties return, unless they abort in the check before or after the opening. -/
def openShares (binary : Bool) (first second : PartyAssignment → Digest)
    (shares : scheme.Shares (Vec (8 * k) n)) : Run k (Fin 4 → Option (Vec (8 * k) n)) := do
  let before ← maliciousCheck hash unchanged corrupted first
  let op ← uncheckedOpen corrupted binary shares
  let after ← maliciousCheck hash unchanged corrupted second
  pure fun p => if before p && after p then some (op p) else none

end Opening

/-- A program with its inputs, and all that the corrupted party does in it. -/
structure Scenario (k : ℕ) (Digest : Type) where
  types : List VectorType
  opened : VectorType
  program : Program k types opened
  inputs : Env (fun t => Fin 4 → Plain k t) types
  tape : Fin 4 ⊕ Group 3 → ℕ → BitVec (8 * k)
  corrupted : Fin 4
  forged : ℕ → BitVec (8 * k)
  first : PartyAssignment → Digest
  second : PartyAssignment → Digest

namespace Scenario

variable {Digest : Type} (scenario : Scenario k Digest)

def plain : Env (Plain k) scenario.types :=
  fun t x => combine (Vec.plus t.binary) (scenario.inputs t x)

def value : Plain k scenario.opened := scenario.program.value scenario.plain

def initial : World k where
  hashes := fun _ => initHashes
  stopped := fun _ => false
  tape := scenario.tape
  forged := scenario.forged

def atOpening : Shared k scenario.opened × World k :=
  scenario.program.exec scenario.corrupted
    (fun t x => (Scheme.deal (scenario.inputs t x) : Shared k t)) scenario.initial

variable [DecidableEq Digest] (hash : List (BitVec 8) → Digest) (unchanged : Digest)

def passes (p : Fin 4) : Bool :=
  maliciousCheckInternal hash p (scenario.atOpening.2.hashes p)
    (recvHash hash unchanged scenario.corrupted scenario.atOpening.2 scenario.first)

def returned : Fin 4 → Option (Plain k scenario.opened) :=
  (openShares hash unchanged scenario.corrupted scenario.opened.binary scenario.first
    scenario.second scenario.atOpening.1 scenario.atOpening.2).1

/-- Every honest party that opens a value opens the right one. -/
def OpensCorrectly : Prop :=
  ∀ p, p ≠ scenario.corrupted → ∀ value, scenario.returned hash unchanged p = some value →
    value = scenario.value

end Scenario

section Check

variable {Digest : Type} [DecidableEq Digest] {hash : List (BitVec 8) → Digest}
  {unchanged : Digest} {corrupted : Fin 4} {world : World k} {forged : PartyAssignment → Digest}

/-- A party that passes a check has hashed what its honest hashers have. -/
theorem agree_of_check (hinjective : Function.Injective hash)
    (halive : ∀ p, p ≠ corrupted → world.stopped p = false) {p : Fin 4}
    (hok : maliciousCheckInternal hash p (world.hashes p)
      (recvHash hash unchanged corrupted world forged) = true)
    {Pi Pj : Fin 4} (hdistinct : [Pi, Pj, p].Nodup) (hhasher : whoHashes Pi Pj ≠ corrupted) :
    world.hashes (whoHashes Pi Pj) (jmpAssignments Pi Pj p) =
      world.hashes p (jmpAssignments Pi Pj p) := by
  obtain ⟨q, hq, hroles⟩ := exists_mem_jmpTriples hdistinct
  have hreceiver : q.2.2 = p := congrArg PartyAssignment.receiver hroles
  have hcompare := maliciousCheckInternal_iff.mp hok q hq hreceiver
  rw [hroles, recvHash] at hcompare
  have hne : (jmpAssignments Pi Pj p).hasher ≠ corrupted := hhasher
  rw [if_neg hne, halive _ hne, if_neg Bool.false_ne_true] at hcompare
  exact hinjective hcompare

/-- Nobody passes a check without the hash of a hasher that has stopped. -/
theorem check_of_stopped (hunchanged : ∀ stream, hash stream ≠ unchanged) {p Pi Pj : Fin 4}
    (hdistinct : [Pi, Pj, p].Nodup) (hhasher : whoHashes Pi Pj ≠ corrupted)
    (hstopped : world.stopped (whoHashes Pi Pj) = true) :
    maliciousCheckInternal hash p (world.hashes p)
      (recvHash hash unchanged corrupted world forged) = false := by
  by_contra hcheck
  have hok := eq_true_of_ne_false hcheck
  obtain ⟨q, hq, hroles⟩ := exists_mem_jmpTriples hdistinct
  have hreceiver : q.2.2 = p := congrArg PartyAssignment.receiver hroles
  have hcompare := maliciousCheckInternal_iff.mp hok q hq hreceiver
  rw [hroles, recvHash] at hcompare
  have hne : (jmpAssignments Pi Pj p).hasher ≠ corrupted := hhasher
  have hstop : world.stopped (jmpAssignments Pi Pj p).hasher = true := hstopped
  rw [if_neg hne, if_pos hstop] at hcompare
  exact hunchanged _ hcompare.symm

/-- Parties 2 and 3 each hash something for everyone else, and party 1 does for all but party 0. -/
theorem exists_hashed {A p : Fin 4} (hA : A = 2 ∨ A = 3 ∨ A = 1 ∧ p ≠ 0) (hne : A ≠ p) :
    ∃ Pi, [Pi, A, p].Nodup ∧ whoHashes Pi A = A := by
  revert A p
  decide

end Check

section Open

variable {corrupted : Fin 4}

theorem opensTo_distinct (Pi : Fin 4) : [Pi, Pi + 1, opensTo Pi].Nodup := by
  revert Pi
  decide

/-- An honest party whose stream agrees in the end has received the part it lacks. -/
theorem vouches_openLoop {q : Fin 4} (hq : q ≠ corrupted) (sh : scheme.Shares (Vec (8 * k) n))
    (pairs : List (Fin 4)) (sh3 : Fin 4 → Vec (8 * k) n) :
    Vouches (World.Sound corrupted) (fun world : World k => world.Agree corrupted fun p => p = q)
      (openLoop corrupted sh pairs sh3) fun y => ∀ z, Dealt corrupted sh z →
        y q = if q ∈ pairs.map opensTo then z q else sh3 q := by
  induction pairs generalizing sh3 with
  | nil => exact Vouches.pure fun z _ => rfl
  | cons Pi pairs ih =>
      have hdistinct := opensTo_distinct Pi
      refine (vouches_jmp (fun p hp => hp ▸ hq) _ hdistinct).bind fun y => ?_
      apply (ih _).mono
      rintro y' hy' ⟨_, hreceived⟩ z hz
      rw [hy' z hz, List.map_cons]
      by_cases hlater : q ∈ pairs.map opensTo
      · rw [if_pos hlater, if_pos (List.mem_cons_of_mem _ hlater)]
      · rw [if_neg hlater]
        by_cases hnow : q = opensTo Pi
        · subst hnow
          simp only [List.nodup_cons, List.mem_cons, List.not_mem_nil, or_false, not_or]
            at hdistinct
          obtain ⟨⟨hij, hir⟩, hjr, _⟩ := hdistinct
          obtain ⟨owner, hhonest, hpair⟩ := exists_honest hij corrupted
          have hne : owner ≠ opensTo Pi := by
            rcases hpair with rfl | rfl <;> assumption
          rw [if_pos rfl, if_pos List.mem_cons_self, hreceived rfl owner hhonest hpair, if_neg hne,
            hz owner hhonest, deal_abs2sh z (Ne.symm hne)]
        · rw [if_neg hnow, if_neg (List.not_mem_cons_of_ne_of_not_mem hnow hlater)]

theorem vouches_uncheckedOpen {q : Fin 4} (hq : q ≠ corrupted) (binary : Bool)
    (sh : scheme.Shares (Vec (8 * k) n)) :
    Vouches (World.Sound corrupted) (fun world : World k => world.Agree corrupted fun p => p = q)
      (uncheckedOpen corrupted binary sh) fun op => ∀ a,
        HonestlyOpens corrupted binary sh a → op q = a := by
  refine (vouches_openLoop hq sh _ _).bind fun sh3 => Vouches.pure ?_
  rintro hsh3 a ⟨z, hz, rfl⟩
  show Vec.plus binary (Vec.plus binary (Vec.plus binary (sh q 0) (sh q 1)) (sh q 2)) (sh3 q) = _
  rw [hsh3 z hz, if_pos (opensTo_surjective q), hz q hq]
  exact (combine_received z q).trans (reconstruct_deal _ z)

theorem uncheckedOpen_stopped (binary : Bool) (sh : scheme.Shares (Vec (8 * k) n))
    (world : World k) :
    (uncheckedOpen corrupted binary sh world).2.stopped = world.stopped := by
  let Same (world' : World k) : Prop := world'.stopped = world.stopped
  have hjmp : ∀ (x : Fin 4 → Vec (8 * k) n) (Pi Pj Pr : Fin 4),
      Vouches Same (fun _ => True) (jmp corrupted x Pi Pj Pr) fun _ => True :=
    fun _ _ _ _ => Vouches.of_frame (fun _ hsame => hsame) (fun _ _ => trivial) fun _ => trivial
  have hloop : ∀ (pairs : List (Fin 4)) (sh3 : Fin 4 → Vec (8 * k) n),
      Vouches Same (fun _ => True) (openLoop corrupted sh pairs sh3) fun _ => True := by
    intro pairs
    induction pairs with
    | nil => exact fun _ => Vouches.pure trivial
    | cons Pi pairs ih =>
        intro sh3
        exact (hjmp _ _ _ _).bind fun y => (ih _).mono fun _ _ _ => trivial
  have hopen : Vouches Same (fun _ => True) (uncheckedOpen corrupted binary sh) fun _ => True :=
    (hloop _ _).bind fun _ => Vouches.pure fun _ => trivial
  exact (hopen world rfl).1

end Open

namespace Scenario

variable {Digest : Type} (scenario : Scenario k Digest)

theorem sound_initial : scenario.initial.Sound scenario.corrupted where
  alive := fun _ _ => rfl
  aligned := fun _ _ _ => rfl

theorem inputs_open : EnvOpens scenario.corrupted
    (fun t x => (Scheme.deal (scenario.inputs t x) : Shared k t)) scenario.plain :=
  fun t x => ⟨scenario.inputs t x, fun _ _ => rfl, rfl⟩

theorem atOpening_vouched : scenario.atOpening.2.Sound scenario.corrupted ∧
    ((scenario.atOpening.2.Agree scenario.corrupted fun p => p ≠ scenario.corrupted) →
      HonestlyOpens scenario.corrupted scenario.opened.binary scenario.atOpening.1
        scenario.value) := by
  have hvouched := vouched_program scenario.program
    (fun t x => (Scheme.deal (scenario.inputs t x) : Shared k t)) scenario.initial
    scenario.sound_initial
  exact ⟨hvouched.1, fun hagree => (hvouched.2 hagree).2 _ scenario.inputs_open⟩

variable [DecidableEq Digest] (hash : List (BitVec 8) → Digest) (unchanged : Digest)

def checked : World k :=
  (maliciousCheck hash unchanged scenario.corrupted scenario.first scenario.atOpening.2).2

def afterOpening : (Fin 4 → Plain k scenario.opened) × World k :=
  uncheckedOpen scenario.corrupted scenario.opened.binary scenario.atOpening.1
    (scenario.checked hash unchanged)

def passesAgain (p : Fin 4) : Bool :=
  maliciousCheckInternal hash p ((scenario.afterOpening hash unchanged).2.hashes p)
    (recvHash hash unchanged scenario.corrupted (scenario.afterOpening hash unchanged).2
      scenario.second)

theorem returned_eq (p : Fin 4) : scenario.returned hash unchanged p =
    if scenario.passes hash unchanged p && scenario.passesAgain hash unchanged p then
      some ((scenario.afterOpening hash unchanged).1 p) else none := by
  have hbind : ∀ {α β : Type} (op : Run k α) (next : α → Run k β) (world : World k),
      (op >>= next) world = next (op world).1 (op world).2 := fun _ _ _ => rfl
  have hfirst : (maliciousCheck hash unchanged scenario.corrupted scenario.first
      scenario.atOpening.2).1 = scenario.passes hash unchanged := rfl
  have hchecked : (maliciousCheck hash unchanged scenario.corrupted scenario.first
      scenario.atOpening.2).2 = scenario.checked hash unchanged := rfl
  have hafter : uncheckedOpen scenario.corrupted scenario.opened.binary scenario.atOpening.1
      (scenario.checked hash unchanged) = scenario.afterOpening hash unchanged := by
    rw [afterOpening]
  have hsecond : (maliciousCheck hash unchanged scenario.corrupted scenario.second
      (scenario.afterOpening hash unchanged).2).1 = scenario.passesAgain hash unchanged := rfl
  rw [returned, openShares, hbind, hbind, hbind, hfirst, hchecked, hafter, hsecond]
  rfl

variable {hash unchanged}

theorem of_returned {p : Fin 4} {value : Plain k scenario.opened}
    (hreturned : scenario.returned hash unchanged p = some value) :
    scenario.passes hash unchanged p = true ∧ scenario.passesAgain hash unchanged p = true ∧
      (scenario.afterOpening hash unchanged).1 p = value := by
  rw [returned_eq] at hreturned
  by_cases hboth : (scenario.passes hash unchanged p && scenario.passesAgain hash unchanged p) = true
  · rw [if_pos hboth] at hreturned
    rw [Bool.and_eq_true] at hboth
    exact ⟨hboth.1, hboth.2, Option.some.inj hreturned⟩
  · rw [if_neg hboth] at hreturned
    exact absurd hreturned (Option.some_ne_none value).symm

theorem checked_stopped (p : Fin 4) (hp : p ≠ scenario.corrupted) :
    (scenario.checked hash unchanged).stopped p = !scenario.passes hash unchanged p := by
  show (scenario.atOpening.2.stopped p || !scenario.passes hash unchanged p) = _
  rw [scenario.atOpening_vouched.1.alive p hp, Bool.false_or]

theorem afterOpening_vouched {p : Fin 4} (hp : p ≠ scenario.corrupted)
    (hchecked : (scenario.checked hash unchanged).Sound scenario.corrupted) :
    (scenario.afterOpening hash unchanged).2.Sound scenario.corrupted ∧
      (((scenario.afterOpening hash unchanged).2.Agree scenario.corrupted fun q => q = p) → ∀ a,
        HonestlyOpens scenario.corrupted scenario.opened.binary scenario.atOpening.1 a →
          (scenario.afterOpening hash unchanged).1 p = a) := by
  have hvouched := vouches_uncheckedOpen hp scenario.opened.binary scenario.atOpening.1
    (scenario.checked hash unchanged) hchecked
  unfold afterOpening
  exact ⟨hvouched.1, fun hagree => (hvouched.2 hagree).2⟩

/-- When every honest party passes the first check, what a party returns is right. -/
theorem correct_of_pass (hinjective : Function.Injective hash)
    (hpass : ∀ p, p ≠ scenario.corrupted → scenario.passes hash unchanged p = true) :
    scenario.OpensCorrectly hash unchanged := by
  intro p hp value hreturned
  obtain ⟨_, hagain, rfl⟩ := scenario.of_returned hreturned
  obtain ⟨hsound, hshares⟩ := scenario.atOpening_vouched
  have hopens := hshares fun Pi Pj Pr hdistinct hPr hhasher =>
    agree_of_check hinjective hsound.alive (hpass Pr hPr) hdistinct hhasher
  have hchecked : (scenario.checked hash unchanged).Sound scenario.corrupted := by
    refine ⟨fun q hq => ?_, hsound.aligned⟩
    rw [scenario.checked_stopped q hq, hpass q hq]
    rfl
  obtain ⟨hafter, hvouched⟩ := scenario.afterOpening_vouched hp hchecked
  refine hvouched ?_ _ hopens
  rintro Pi Pj Pr hdistinct rfl hhasher
  exact agree_of_check hinjective hafter.alive hagain hdistinct hhasher

/-- When party 2 or 3 stops in the first check, everybody else stops in the second, and so it is for
party 1 where party 0 returns nothing anyway. -/
theorem correct_of_stopped (hunchanged : ∀ stream, hash stream ≠ unchanged) {A : Fin 4}
    (hA : A = 2 ∨ A = 3 ∨
      A = 1 ∧ (scenario.corrupted = 0 ∨ scenario.passes hash unchanged 0 = false))
    (hhonest : A ≠ scenario.corrupted) (hfails : scenario.passes hash unchanged A = false) :
    scenario.OpensCorrectly hash unchanged := by
  intro p hp value hreturned
  obtain ⟨hpass, hagain, _⟩ := scenario.of_returned hreturned
  have hne : A ≠ p := by
    rintro rfl
    exact Bool.false_ne_true (hfails.symm.trans hpass)
  have hzero : (scenario.corrupted = 0 ∨ scenario.passes hash unchanged 0 = false) → p ≠ 0 := by
    rintro (hcorrupted | hfails₀) rfl
    · exact hp hcorrupted.symm
    · exact Bool.false_ne_true (hfails₀.symm.trans hpass)
  obtain ⟨Pi, hdistinct, hhasher⟩ := exists_hashed (hA.imp_right (Or.imp_right (And.imp_right hzero))) hne
  have hstopped : (scenario.afterOpening hash unchanged).2.stopped (whoHashes Pi A) = true := by
    rw [hhasher, afterOpening, uncheckedOpen_stopped, scenario.checked_stopped A hhonest, hfails]
    rfl
  have hmissing : scenario.passesAgain hash unchanged p = false :=
    check_of_stopped hunchanged hdistinct (hhasher.symm ▸ hhonest) hstopped
  exact absurd (hmissing.symm.trans hagain) Bool.false_ne_true

end Scenario

/-- If every honest party passes the first check, or a party that everybody else who could return
something waits for honestly fails it and an unchanged buffer is no hash, then every value that an
honest party opens is right. -/
theorem openShares_correct {Digest : Type} [DecidableEq Digest] {hash : List (BitVec 8) → Digest}
    (hinjective : Function.Injective hash) (unchanged : Digest) (scenario : Scenario k Digest)
    (hnoticed : (∀ p, p ≠ scenario.corrupted → scenario.passes hash unchanged p = true) ∨
      (∀ stream, hash stream ≠ unchanged) ∧ ∃ p, (p = 2 ∨ p = 3 ∨
        p = 1 ∧ (scenario.corrupted = 0 ∨ scenario.passes hash unchanged 0 = false)) ∧
        p ≠ scenario.corrupted ∧ scenario.passes hash unchanged p = false) :
    scenario.OpensCorrectly hash unchanged := by
  rcases hnoticed with hpass | ⟨hunchanged, p, hp, hhonest, hfails⟩
  · exact scenario.correct_of_pass hinjective hpass
  · exact scenario.correct_of_stopped hunchanged hp hhonest hfails

/-- An input that parties 0 and 1 know, its product with a shared vector, and that reshared. -/
def exampleProgram : Program 1 [⟨false, 2⟩] ⟨false, 2⟩ :=
  .step (.inp false (fun p => if p ≤ 1 then ![3, 5] else 0) 0 1 (by decide) rfl) <|
  .step (.genericMultiply false (· * ·) add_mul mul_add .head (.tail .head)) <|
  .step (.reshare false {0, 1, 2} (by decide) .head) <|
  .result .head

/-- Party 2 does what it should up to the opening, where it sends party 0 a wrong part, and in the
check after it party 3 a wrong hash. -/
def deviating : Scenario 1 (List (BitVec 8)) where
  types := [⟨false, 2⟩]
  opened := ⟨false, 2⟩
  program := exampleProgram
  inputs := fun | _, .head => ![![1, 7], ![2, 0], ![0, 1], ![4, 250]]
  tape := fun _ i => BitVec.ofNat 8 (17 * i)
  corrupted := 2
  forged := fun i => if i = 13 then 239 else 0
  first := fun pa => if pa = ⟨2, 0, 1⟩ then [6, 239] else if pa = ⟨2, 0, 3⟩ then [34, 68] else
    if pa = ⟨2, 1, 3⟩ then [3, 155, 89, 53] else []
  second := fun pa => if pa = ⟨2, 0, 1⟩ then [6, 239] else []

theorem openShares_correct_example :
    deviating.returned id [0] 0 = none ∧ deviating.returned id [0] 3 = none ∧
      deviating.returned id [0] 1 = some deviating.value := by
  have hpass : ∀ p, p ≠ deviating.corrupted → deviating.passes id [0] p = true := by decide +kernel
  have hreturned : deviating.returned id [0] 1 = some fun i => if i.val = 0 then 21 else 10 := by
    decide +kernel
  have hvalue := openShares_correct Function.injective_id [0] deviating (Or.inl hpass) 1 (by decide)
    _ hreturned
  exact ⟨by decide +kernel, by decide +kernel, hreturned.trans (congrArg some hvalue)⟩

/-- Every part of a sharing is one, and party 3 sends what it should. -/
def faithful : Scenario 1 (List (BitVec 8)) where
  types := [⟨false, 1⟩]
  opened := ⟨false, 1⟩
  program := .result .head
  inputs := fun _ _ _ _ => 1
  tape := fun _ _ => 0
  corrupted := 3
  forged := fun _ => 0
  first := fun _ => []
  second := fun pa => if pa = ⟨3, 0, 1⟩ ∨ pa = ⟨3, 2, 0⟩ then [1] else []

/-- Party 3 sends party 0 a wrong hash before the opening. Party 0 stops, party 1 is left with a zero
in place of the part it lacks, and party 3 hashes that zero. -/
def attack : Scenario 1 (List (BitVec 8)) :=
  { faithful with
    first := fun pa => if pa.receiver = 0 then [0] else []
    second := fun pa => if pa = ⟨3, 0, 1⟩ then [0] else [] }

theorem attack_succeeds : ¬ attack.OpensCorrectly id [0] := by
  have hreturned : attack.returned id [0] 1 = some fun _ => 3 := by decide +kernel
  have hvalue : attack.value = fun _ => 4 := by decide +kernel
  intro hcorrect
  have heq := (hcorrect 1 (by decide) _ hreturned).trans hvalue
  exact absurd heq (by decide)

end CryptDough.CorruptedParty
