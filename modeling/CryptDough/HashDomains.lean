import CryptDough.JointMessagePassing

/-! What the running hashes of joint message passing have absorbed since they were initialised, over
messages, checks and resets. Every state is seeded with its roles, but before it is initialised. -/

namespace CryptDough.JointMessagePassing

/-- `crypto_generichash_state`, by what it has absorbed since its initialisation. -/
structure GenericHashState where
  absorbed : List (BitVec 8)

namespace GenericHashState

def init (_ : GenericHashState) : GenericHashState := ⟨[]⟩

def update (s : GenericHashState) (bytes : List (BitVec 8)) : GenericHashState := ⟨s.absorbed ++ bytes⟩

end GenericHashState

def roleSeed (i j r : Fin 4) : BitVec 8 :=
  (BitVec.ofNat 8 i <<< 6) ||| (BitVec.ofNat 8 j <<< 3) ||| BitVec.ofNat 8 r

/-- A new state for one pair and receiver, where `memory` is what the new state happens to hold. -/
def seededState (memory : GenericHashState) (q : Fin 4 × Fin 4 × Fin 4) : GenericHashState :=
  (memory.update [roleSeed q.1 q.2.1 q.2.2]).init

def replaceState (memory : GenericHashState) (states : HashStates) (q : Fin 4 × Fin 4 × Fin 4) :
    HashStates :=
  Function.update states (jmpAssignments q.1 q.2.1 q.2.2) (seededState memory q).absorbed

/-- `init_hashes`, for whatever new states hold. -/
def initHashStates (memory : GenericHashState) (states : HashStates) : HashStates :=
  jmpTriples.foldl (replaceState memory) states

/-- Something the parties do together; `reset` is `reset_malicious_state` of one of the protocols. -/
inductive Event (Digest : Type)
  | action (action : Action Digest)
  | reset (dataType : DataType)

/-- The roles of the triples that have a hash state. -/
def assignments : List PartyAssignment := jmpTriples.map fun q => jmpAssignments q.1 q.2.1 q.2.2

section Run

variable {Digest : Type} (memory : GenericHashState) (corrupted : Option (Fin 4))

def constructed : System := fun _ _ => initHashStates memory fun _ => []

def eventStep (system : System) : Event Digest → System
  | .action action => step corrupted system action
  | .reset dataType => fun p =>
      Function.update (system p) dataType (initHashStates memory (system p dataType))

def eventRun (events : List (Event Digest)) : System :=
  events.foldl (eventStep memory corrupted) (constructed memory)

end Run

/-- The two parties that have a state for an assignment. -/
inductive HashRole
  | hasher | receiver
deriving DecidableEq

def HashRole.party (pa : PartyAssignment) : HashRole → Fin 4
  | hasher => pa.hasher
  | receiver => pa.receiver

/-- The messages of an assignment since the last reset, as the party in the role has them. -/
def messages {Digest : Type} (corrupted : Option (Fin 4)) (dataType : DataType) (pa : PartyAssignment)
    (role : HashRole) (events : List (Event Digest)) : List (BitVec 8) :=
  events.foldl (fun bytes event =>
    match event, role with
    | .action action, .hasher => bytes ++ action.hashed dataType pa
    | .action action, .receiver => bytes ++ action.heard corrupted dataType pa
    | .reset dataType', _ => if dataType = dataType' then [] else bytes) []

/-- Two states of different assignments have absorbed different strings. -/
def Separated (system : System) (dataType : DataType) : Prop :=
  ∀ pa ∈ assignments, ∀ pa' ∈ assignments, pa ≠ pa' → ∀ role role' : HashRole,
    system (role.party pa) dataType pa ≠ system (role'.party pa') dataType pa'

section States

variable {memory : GenericHashState} {pa : PartyAssignment}

/-- A seed that is hashed before the initialisation is gone after it. -/
theorem absorbed_seededState (memory : GenericHashState) (q : Fin 4 × Fin 4 × Fin 4) :
    (seededState memory q).absorbed = [] := rfl

theorem replaceState_apply (states : HashStates) (q : Fin 4 × Fin 4 × Fin 4) :
    replaceState memory states q pa = if pa = jmpAssignments q.1 q.2.1 q.2.2 then [] else states pa := by
  rw [replaceState, absorbed_seededState]
  exact Function.update_apply _ _ _ _

theorem foldl_replaceState (triples : List (Fin 4 × Fin 4 × Fin 4)) (states : HashStates)
    (hor : (pa ∈ triples.map fun q => jmpAssignments q.1 q.2.1 q.2.2) ∨ states pa = []) :
    triples.foldl (replaceState memory) states pa = [] := by
  induction triples generalizing states with
  | nil => exact hor.resolve_left List.not_mem_nil
  | cons q triples ih =>
      apply ih _
      by_cases hq : pa = jmpAssignments q.1 q.2.1 q.2.2
      · exact Or.inr ((replaceState_apply states q).trans (if_pos hq))
      · rcases hor with hmem | hempty
        · exact Or.inl ((List.mem_cons.mp hmem).resolve_left hq)
        · exact Or.inr ((replaceState_apply states q).trans ((if_neg hq).trans hempty))

theorem initHashStates_apply (states : HashStates) (hpa : pa ∈ assignments) :
    initHashStates memory states pa = [] := foldl_replaceState jmpTriples states (Or.inl hpa)

end States

section Absorbed

variable {Digest : Type} {memory : GenericHashState} {corrupted : Option (Fin 4)} {pa : PartyAssignment}

/-- What an action adds to the state of a role. -/
theorem step_role (system : System) (action : Action Digest) (dataType : DataType) (role : HashRole) :
    step corrupted system action (role.party pa) dataType pa = system (role.party pa) dataType pa ++
      match role with
      | .hasher => action.hashed dataType pa
      | .receiver => action.heard corrupted dataType pa := by
  cases role with
  | hasher =>
      have hrun := run_hasher corrupted [action] system dataType pa
      rwa [List.flatMap_singleton] at hrun
  | receiver =>
      have hrun := run_receiver corrupted [action] system dataType pa
      rwa [List.flatMap_singleton] at hrun

theorem eventStep_reset (system : System) (dataType dataType' : DataType) (hpa : pa ∈ assignments)
    (p : Fin 4) :
    eventStep memory corrupted system (.reset dataType' : Event Digest) p dataType pa =
      if dataType = dataType' then [] else system p dataType pa := by
  change Function.update (system p) dataType' (initHashStates memory (system p dataType')) dataType pa = _
  by_cases htype : dataType = dataType'
  · rw [if_pos htype, htype, Function.update_self, initHashStates_apply _ hpa]
  · rw [if_neg htype, Function.update_of_ne htype]

/-- A state has absorbed the messages of its assignment since the last reset, and no seed. -/
theorem eventRun_role (memory : GenericHashState) (corrupted : Option (Fin 4)) (events : List (Event Digest))
    (dataType : DataType) (hpa : pa ∈ assignments) (role : HashRole) :
    eventRun memory corrupted events (role.party pa) dataType pa =
      messages corrupted dataType pa role events := by
  induction events using List.reverseRecOn with
  | nil =>
      rw [eventRun, List.foldl_nil, messages, List.foldl_nil, constructed]
      exact initHashStates_apply _ hpa
  | append_singleton events event ih =>
      rw [eventRun, List.foldl_append, messages, List.foldl_append]
      change eventStep memory corrupted (eventRun memory corrupted events) event _ _ _ = _
      cases event with
      | action action =>
          rw [eventStep, step_role, ih]
          cases role <;> rfl
      | reset dataType' =>
          rw [eventStep_reset _ _ _ hpa, ih]
          cases role <;> rfl

theorem messages_agree {events : List (Event Digest)}
    (hagree : ∀ call, Event.action (.jmp call) ∈ events → call.x call.Pi = call.x call.Pj)
    (dataType : DataType) (pa : PartyAssignment) :
    messages none dataType pa .hasher events = messages none dataType pa .receiver events := by
  induction events using List.reverseRecOn with
  | nil => rfl
  | append_singleton events event ih =>
      have hbefore := ih fun call hcall => hagree call (List.mem_append_left _ hcall)
      rw [messages, messages, List.foldl_append, List.foldl_append]
      change _ = _ at hbefore
      cases event with
      | reset dataType' =>
          change (if dataType = dataType' then [] else messages none dataType pa .hasher events) =
            if dataType = dataType' then [] else messages none dataType pa .receiver events
          rw [hbefore]
      | action action =>
          change messages none dataType pa .hasher events ++ action.hashed dataType pa =
            messages none dataType pa .receiver events ++ action.heard none dataType pa
          rw [hbefore]
          cases action with
          | check => rfl
          | jmp call =>
              have hcall := hagree call (List.mem_append_right _ (List.mem_singleton.mpr rfl))
              exact congrArg _ (call.heard_honest hcall dataType pa)

/-- The states are separated exactly by the messages, and without a corrupted party hasher and receiver
absorb the same. -/
theorem hash_domains_iff (memory : GenericHashState) (corrupted : Option (Fin 4))
    (events : List (Event Digest))
    (dataType : DataType) :
    (Separated (eventRun memory corrupted events) dataType ↔
      ∀ pa ∈ assignments, ∀ pa' ∈ assignments, pa ≠ pa' → ∀ role role' : HashRole,
        messages corrupted dataType pa role events ≠ messages corrupted dataType pa' role' events) ∧
    ((∀ call, Event.action (.jmp call) ∈ events → call.x call.Pi = call.x call.Pj) →
      ∀ pa ∈ assignments, eventRun memory none events pa.hasher dataType pa =
        eventRun memory none events pa.receiver dataType pa) := by
  constructor
  · refine forall₂_congr fun pa hpa => forall₂_congr fun pa' hpa' => forall_congr' fun _ =>
      forall₂_congr fun role role' => ?_
    rw [eventRun_role memory corrupted events dataType hpa role,
      eventRun_role memory corrupted events dataType hpa' role']
  · intro hagree pa hpa
    have hhasher := eventRun_role memory none events dataType hpa .hasher
    have hreceiver := eventRun_role memory none events dataType hpa .receiver
    calc eventRun memory none events pa.hasher dataType pa
        = messages none dataType pa .hasher events := hhasher
      _ = messages none dataType pa .receiver events := messages_agree hagree dataType pa
      _ = eventRun memory none events pa.receiver dataType pa := hreceiver.symm

/-- The same message under two assignments. -/
def repeatedEvents : List (Event (List (BitVec 8))) :=
  [.action (.jmp exampleCall), .action (.jmp { exampleCall with Pr := 3, distinct := by decide })]

theorem repeatedEvents_agree : ∀ call, Event.action (.jmp call) ∈ repeatedEvents →
    call.x call.Pi = call.x call.Pj := by
  intro call hcall
  rcases List.mem_cons.mp hcall with hfirst | hrest
  · rw [Event.action.injEq, Action.jmp.injEq] at hfirst
    rw [hfirst]
    rfl
  · have hsecond := List.mem_singleton.mp hrest
    rw [Event.action.injEq, Action.jmp.injEq] at hsecond
    rw [hsecond]
    rfl

theorem hash_domains_iff_repeated :
    (Separated (eventRun ⟨[]⟩ none repeatedEvents) .int8 ↔
      ∀ pa ∈ assignments, ∀ pa' ∈ assignments, pa ≠ pa' → ∀ role role' : HashRole,
        messages none .int8 pa role repeatedEvents ≠ messages none .int8 pa' role' repeatedEvents) ∧
    ∀ pa ∈ assignments, eventRun ⟨[]⟩ none repeatedEvents pa.hasher .int8 pa =
      eventRun ⟨[]⟩ none repeatedEvents pa.receiver .int8 pa :=
  ⟨(hash_domains_iff ⟨[]⟩ none repeatedEvents .int8).1,
    (hash_domains_iff ⟨[]⟩ none repeatedEvents .int8).2 repeatedEvents_agree⟩

/-- Party 1 hashes the byte for party 2 and again for party 3. -/
theorem hash_domains_overlap : ¬ Separated (eventRun ⟨[]⟩ none repeatedEvents) .int8 := by
  intro hseparated
  refine hseparated ⟨1, 0, 2⟩ (by decide) ⟨1, 0, 3⟩ (by decide) (by decide) .hasher .hasher ?_
  rw [eventRun_role _ _ _ _ (by decide), eventRun_role _ _ _ _ (by decide)]
  rfl

end Absorbed

end CryptDough.JointMessagePassing
