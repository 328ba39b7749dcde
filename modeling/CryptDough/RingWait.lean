import CryptDough.SendRing
import Mathlib.Data.Fin.Basic
import Mathlib.Logic.Relation

/-! Waiting until a vector has been sent. The no-copy communicator keeps one ring per party; its worker
pushes the vectors of a call, then waits for them one by one until the read index is the one after the
entry's slot, while the sending thread goes round the rings. -/

namespace CryptDough.SendRing

open Relation

section Wait

variable {V B : Type} {lay : Layout V B} {size : ℕ}

/-- The exit condition of `wait`. -/
def State.Released (size : ℕ) (s : State V B) (pushIndex : ℕ) : Prop :=
  s.readIndex = nextIndex size pushIndex

theorem Reachable.steps {s s' : State V B} (hs : Reachable lay size s)
    (hsteps : ReflTransGen (Step lay size) s s') : Reachable lay size s' := by
  induction hsteps with
  | refl => exact hs
  | tail _ hstep ih => exact ih.next hstep

/-- Less than a turn after its entry was popped, an index is released only by its own pop. -/
theorem Inv.released_iff {s : State V B} (h : Inv lay size s) {k : ℕ} (hpopped : k < s.popped.length)
    (hturn : s.pushed.length ≤ k + size) :
    s.Released size (k % size) ↔ s.popped.length = k + 1 := by
  have hle := h.le
  rw [State.Released, nextIndex_mod, h.read]
  refine ⟨fun heq => ?_, fun heq => by rw [heq]⟩
  rcases Nat.lt_or_ge (k + 1) s.popped.length with hlt | hge
  · exact absurd heq.symm (mod_ne_mod hlt (by omega))
  · omega

end Wait

section Runs

variable {A : Type} {size : ℕ} {s s' : State (Entry (Option A)) (Option A)}

/-- A push into a ring with room, up to its last write. -/
theorem push_run (hroom : nextIndex size s.writeIndex ≠ s.readIndex) (v : Entry (Option A)) :
    ∃ s', ReflTransGen (ProducerStep (noCopyRing A) size) (s.call v) s' ∧
      s'.producer = .index v s.writeIndex (some s.writeIndex) ∧ s'.consumer = s.consumer ∧
      s'.pushed = s.pushed ∧ s'.popped = s.popped := by
  have h1 : ReflTransGen (ProducerStep (noCopyRing A) size) (s.call v) _ := .single (.loadWrite rfl)
  have h2 := (h1.tail (.loadRead rfl)).tail (.room rfl hroom)
  have h3 := (h2.tail (.loadBuffer rfl)).tail (.storeBuffer rfl)
  have h4 := (h3.tail (.loadUsed rfl)).tail (.storeUsed rfl)
  have h5 := (h4.tail (.loadPushIndex rfl)).tail (.loadIndex rfl)
  exact ⟨_, h5, rfl, rfl, rfl, rfl⟩

/-- A step after which the sending thread is still busy with the ring. -/
def Stays (size : ℕ) (s s' : State (Entry (Option A)) (Option A)) : Prop :=
  ConsumerStep (noCopyRing A) size s s' ∧ s'.consumer ≠ .poll none none

variable (size) in
theorem poll_empty_run (hpoll : s.consumer = .poll none none) (hempty : s.writeIndex = s.readIndex) :
    ∃ mid, ReflTransGen (Stays size) s mid ∧ ConsumerStep (noCopyRing A) size mid s := by
  obtain ⟨index, readIndex, slots, producer, consumer, pushed, popped⟩ := s
  obtain rfl : consumer = .poll none none := hpoll
  obtain rfl : index = readIndex := hempty
  have h1 : ReflTransGen (Stays size) ⟨index, index, slots, producer, .poll none none, pushed,
      popped⟩ _ := .single ⟨.pollWrite rfl, nofun⟩
  have h2 := h1.tail ⟨.pollRead rfl, nofun⟩
  exact ⟨_, h2, .pollEmpty rfl⟩

variable (size) in
theorem pop_run (hpoll : s.consumer = .poll none none) (hne : s.writeIndex ≠ s.readIndex) :
    ∃ mid s', ReflTransGen (Stays size) s mid ∧ ConsumerStep (noCopyRing A) size mid s' ∧
      s'.consumer = .poll none none ∧ s'.producer = s.producer ∧ s'.pushed = s.pushed ∧
      s'.popped.length = s.popped.length + 1 := by
  have h1 : ReflTransGen (Stays size) s _ := .single ⟨.pollWrite hpoll, nofun⟩
  have h2 := (h1.tail ⟨.pollRead rfl, nofun⟩).tail ⟨.pollEntry rfl hne, nofun⟩
  have h3 := (h2.tail ⟨.currentWrite rfl, nofun⟩).tail ⟨.currentRead rfl, nofun⟩
  have h4 := (h3.tail ⟨.currentEntry rfl hne, nofun⟩).tail ⟨.entry rfl, nofun⟩
  have h5 := (h4.tail ⟨.buffer rfl, nofun⟩).tail ⟨.used rfl nofun, nofun⟩
  have h6 := (h5.tail ⟨.popWrite rfl, nofun⟩).tail ⟨.popRead rfl, nofun⟩
  have h7 := (h6.tail ⟨.popEntry rfl hne, nofun⟩).tail ⟨.same rfl rfl, nofun⟩
  have h8 := (h7.tail ⟨.loadBuffer rfl, nofun⟩).tail ⟨.clearBuffer rfl rfl, nofun⟩
  have h9 := (h8.tail ⟨.loadUsed rfl, nofun⟩).tail ⟨.clearUsed rfl, nofun⟩
  have h10 := h9.tail ⟨.loadIndex rfl, nofun⟩
  exact ⟨_, _, h10, .storeIndex rfl, rfl, rfl, rfl, List.length_append⟩

/-- A push into a quiet ring, then the pop of its entry. -/
theorem push_pop_run (hsize : 2 ≤ size) (hs : Reachable (noCopyRing A) size s)
    (hidle : s.producer = .idle) (hpoll : s.consumer = .poll none none)
    (hlength : s.popped.length = s.pushed.length) (v : Entry (Option A)) :
    ∃ t t' i, Reachable (noCopyRing A) size t ∧ t.producer = .index v i (some i) ∧
      t.pushed = s.pushed ∧ ReflTransGen (Step (noCopyRing A) size) s t ∧
      ReflTransGen (Step (noCopyRing A) size) (t.publish size v i) t' ∧ t'.producer = .idle ∧
      t'.consumer = .poll none none ∧ t'.pushed = s.pushed ++ [v] ∧
      t'.popped.length = s.popped.length + 1 := by
  have hinv := reachable_inv (by omega) hs
  have hroom : nextIndex size s.writeIndex ≠ s.readIndex := by
    rw [hinv.write, hinv.read, nextIndex_mod, hlength]
    exact (mod_ne_mod (by omega) (by omega)).symm
  obtain ⟨t, hrun, hpc, hconsumer, hpushed, hpopped⟩ := push_run hroom v
  have hst : ReflTransGen (Step (noCopyRing A) size) s t :=
    .head (.call v hidle) (hrun.lift id fun _ _ h => Step.producer h)
  have ht := hs.steps hst
  have hpublish := ht.next (.publish hpc)
  have hinv' := reachable_inv (by omega) hpublish
  have hlength' : (t.publish size v s.writeIndex).pushed.length =
      (t.publish size v s.writeIndex).popped.length + 1 := by
    show (t.pushed ++ [v]).length = t.popped.length + 1
    rw [List.length_append, hpushed, hpopped, hlength]
    rfl
  have hne : (t.publish size v s.writeIndex).writeIndex ≠ (t.publish size v s.writeIndex).readIndex := by
    rw [hinv'.write, hinv'.read, hlength']
    exact (mod_ne_mod (by omega) (by omega)).symm
  obtain ⟨mid, t', hstay, hleave, hpoll', hidle', hpushed', hpopped'⟩ :=
    pop_run size (s := t.publish size v s.writeIndex) (hconsumer.trans hpoll) hne
  have hsteps := (hstay.lift id fun _ _ h => Step.consumer h.1).tail (.consumer hleave)
  refine ⟨t, t', _, ht, hpc, hpushed, hst, hsteps, hidle', hpoll', ?_, ?_⟩
  · rw [hpushed']
    exact congrArg (· ++ [v]) hpushed
  · rw [hpopped']
    exact congrArg (·.length + 1) hpopped

end Runs

end CryptDough.SendRing

namespace CryptDough.NoCopyCommunicator

open Relation SendRing

variable {A : Type} {last : ℕ}

/-- Where a vector lies, and its size in bytes. -/
abbrev VectorEntry (A : Type) := Entry (Option A)

/-- A call of `sendSharesGeneric` or, when it also receives, of `exchangeSharesGeneric`: the vectors
with the relative ids of the parties they go to. -/
structure Call (A : Type) where
  shares : List (VectorEntry A × ℤ)
  receives : Bool

theorem toId_lt (partyID currentId : ℤ) :
    ((last + 1 + partyID + currentId) % (last + 1)).toNat < last + 1 := by
  have hlt : (last + 1 + partyID + currentId) % (last + 1 : ℤ) < last + 1 :=
    Int.emod_lt_of_pos _ (by omega)
  omega

def toId (currentId : Fin (last + 1)) (partyID : ℤ) : Fin (last + 1) :=
  ⟨((last + 1 + partyID + currentId) % (last + 1)).toNat, toId_lt partyID currentId⟩

inductive Command (A : Type) (last : ℕ)
  | push (party : Fin (last + 1)) (vector : VectorEntry A)
  | receive
  | wait (party : Fin (last + 1)) (partyIdx : ℕ)

def Call.parties (currentId : Fin (last + 1)) (call : Call A) : List (Fin (last + 1)) :=
  call.shares.map fun share => toId currentId share.2

def Call.pushes (currentId : Fin (last + 1)) (call : Call A) : List (Command A last) :=
  call.shares.map fun share => .push (toId currentId share.2) share.1

def Call.waits (currentId : Fin (last + 1)) (call : Call A) : List (Command A last) :=
  (call.parties currentId).zipIdx.map fun party => .wait party.1 party.2

def Call.commands (currentId : Fin (last + 1)) (call : Call A) : List (Command A last) :=
  call.pushes currentId ++
    ((if call.receives then [.receive] else []) ++ call.waits currentId)

/-- A worker's communicator: a ring per party, the ring the sending thread is at, what is left of the
call under way with the indices its pushes returned, and the calls to come. -/
structure Comm (A : Type) (last : ℕ) where
  rings : Fin (last + 1) → State (VectorEntry A) (Option A)
  sender : Fin (last + 1)
  commands : List (Command A last)
  pushIndices : List ℕ
  calls : List (Call A)

section Steps

variable (size : ℕ) (currentId : Fin (last + 1))

theorem succ_mod_lt (j : ℕ) : (j + 1) % (last + 1) < last + 1 := Nat.mod_lt _ last.succ_pos

def nextParty (j : Fin (last + 1)) : Fin (last + 1) := ⟨(j.val + 1) % (last + 1), succ_mod_lt j⟩

def Comm.setRing (s : Comm A last) (j : Fin (last + 1)) (ring : State (VectorEntry A) (Option A)) :
    Comm A last :=
  { s with rings := Function.update s.rings j ring }

/-- A step of the worker or of the sending thread, which stays at a ring until it has found it empty or
popped an entry and skips the party itself. -/
inductive Comm.Step (s : Comm A last) : Comm A last → Prop
  | enter {call rest} (hcommands : s.commands = []) (hcalls : s.calls = call :: rest) :
      Step s { s with commands := call.commands currentId, pushIndices := [], calls := rest }
  | call {j v rest} (hcommands : s.commands = .push j v :: rest) (h : (s.rings j).producer = .idle) :
      Step s (s.setRing j ((s.rings j).call v))
  | producer {j ring} (h : ProducerStep (noCopyRing A) size (s.rings j) ring) : Step s (s.setRing j ring)
  | publish {j v v' rest i w} (hcommands : s.commands = .push j v' :: rest)
      (h : (s.rings j).producer = .index v i (some w)) :
      Step s { s.setRing j ((s.rings j).publish size v w) with
        commands := rest
        pushIndices := s.pushIndices ++ [i] }
  | receive {rest} (hcommands : s.commands = .receive :: rest) : Step s { s with commands := rest }
  | wait {j idx rest i} (hcommands : s.commands = .wait j idx :: rest)
      (hindex : s.pushIndices[idx]? = some i) (hreleased : (s.rings j).Released size i) :
      Step s { s with commands := rest }
  | skip (hown : s.sender = currentId) : Step s { s with sender := nextParty s.sender }
  | stay {ring} (hown : s.sender ≠ currentId)
      (h : ConsumerStep (noCopyRing A) size (s.rings s.sender) ring)
      (hstay : ring.consumer ≠ .poll none none) : Step s (s.setRing s.sender ring)
  | leave {ring} (hown : s.sender ≠ currentId)
      (h : ConsumerStep (noCopyRing A) size (s.rings s.sender) ring)
      (hleave : ring.consumer = .poll none none) :
      Step s { s.setRing s.sender ring with sender := nextParty s.sender }

inductive Comm.Reachable (calls : List (Call A)) : Comm A last → Prop
  | start (slots : Fin (last + 1) → ℕ → Entry (Option A)) :
      Reachable calls
        ⟨fun j => init (noCopyRing A) (slots j), ⟨0, last.succ_pos⟩, [], [], calls⟩
  | next {s s'} (hs : Reachable calls s) (hstep : Step size currentId s s') : Reachable calls s'

/-- The worker is in `wait` on an empty ring, and the condition it waits for is false. -/
def Comm.Stuck (s : Comm A last) : Prop :=
  ∃ j idx rest i, s.commands = .wait j idx :: rest ∧ s.pushIndices[idx]? = some i ∧
    (s.rings j).writeIndex = (s.rings j).readIndex ∧ ¬ (s.rings j).Released size i

end Steps

section Safety

variable {size : ℕ} {currentId : Fin (last + 1)} {calls : List (Call A)} {call : Call A}
  {s s' : Comm A last}

theorem Comm.setRing_self (s : Comm A last) (j : Fin (last + 1))
    (ring : State (VectorEntry A) (Option A)) : (s.setRing j ring).rings j = ring :=
  Function.update_self ..

theorem Comm.setRing_of_ne (s : Comm A last) {j q : Fin (last + 1)} (h : q ≠ j)
    (ring : State (VectorEntry A) (Option A)) : (s.setRing j ring).rings q = s.rings q :=
  Function.update_of_ne h ..

/-- Every ring of a communicator goes through a run of its own. -/
theorem Comm.Reachable.rings (hs : Reachable size currentId calls s) (q : Fin (last + 1)) :
    SendRing.Reachable (noCopyRing A) size (s.rings q) := by
  have hring : ∀ {s : Comm A last} {j ring}, SendRing.Reachable (noCopyRing A) size (s.rings q) →
      SendRing.Step (noCopyRing A) size (s.rings j) ring →
      SendRing.Reachable (noCopyRing A) size ((s.setRing j ring).rings q) := by
    intro s j ring hq hstep
    by_cases hj : q = j
    · subst hj
      rw [setRing_self]
      exact hq.next hstep
    · rw [setRing_of_ne s hj]
      exact hq
  induction hs with
  | start slots => exact .start (slots q)
  | next _ hstep ih =>
      cases hstep with
      | enter hcommands hcalls => exact ih
      | call hcommands h => exact hring ih (.call _ h)
      | producer h => exact hring ih (.producer h)
      | publish hcommands h => exact hring ih (.publish h)
      | receive hcommands => exact ih
      | wait hcommands hindex hreleased => exact ih
      | skip hown => exact ih
      | stay hown h hstay => exact hring ih (.consumer h)
      | leave hown h hleave => exact hring ih (.consumer h)

theorem Comm.Reachable.inv (hsize : 1 ≤ size) (hs : Reachable size currentId calls s)
    (q : Fin (last + 1)) : Inv (noCopyRing A) size (s.rings q) :=
  reachable_inv hsize (hs.rings q)

theorem Call.length_pushes : (call.pushes currentId).length = call.shares.length := List.length_map _

theorem Call.push_mem {m : ℕ} {j : Fin (last + 1)} {v : VectorEntry A}
    (h : (call.commands currentId)[m]? = some (.push j v)) :
    m < call.shares.length ∧ (call.parties currentId)[m]? = some j := by
  rcases Nat.lt_or_ge m call.shares.length with hlt | hge
  · refine ⟨hlt, ?_⟩
    rw [Call.commands, List.getElem?_append_left (Call.length_pushes ▸ hlt), Call.pushes,
      List.getElem?_map, Option.map_eq_some_iff] at h
    obtain ⟨share, hshare, heq⟩ := h
    rw [Call.parties, List.getElem?_map, hshare]
    exact congrArg some (Command.push.inj heq).1
  · rw [Call.commands, List.getElem?_append_right (Call.length_pushes ▸ hge)] at h
    rcases List.mem_append.mp (List.mem_of_getElem? h) with hmem | hmem
    · split at hmem
      · exact absurd (List.mem_singleton.mp hmem) nofun
      · exact absurd hmem List.not_mem_nil
    · obtain ⟨party, -, heq⟩ := List.mem_map.mp hmem
      exact absurd heq nofun

theorem Call.push_of_lt {m : ℕ} (h : m < call.shares.length) :
    ∃ j v, (call.commands currentId)[m]? = some (.push j v) := by
  rw [Call.commands, List.getElem?_append_left (Call.length_pushes ▸ h), Call.pushes,
    List.getElem?_map, List.getElem?_eq_getElem h]
  exact ⟨_, _, rfl⟩

theorem Call.wait_mem {m : ℕ} {j : Fin (last + 1)} {idx : ℕ}
    (h : (call.commands currentId)[m]? = some (.wait j idx)) :
    (call.parties currentId)[idx]? = some j := by
  rcases List.mem_append.mp (List.mem_of_getElem? h) with hmem | hmem
  · obtain ⟨share, -, heq⟩ := List.mem_map.mp hmem
    exact absurd heq nofun
  · rcases List.mem_append.mp hmem with hmem | hmem
    · split at hmem
      · exact absurd (List.mem_singleton.mp hmem) nofun
      · exact absurd hmem List.not_mem_nil
    · obtain ⟨party, hparty, heq⟩ := List.mem_map.mp hmem
      obtain ⟨rfl, rfl⟩ := Command.wait.inj heq
      exact List.mem_zipIdx_iff_getElem?.mp hparty

/-- Inside a call: what is left of its commands, and that every entry it has pushed is the last one
pushed to its ring. -/
structure Comm.Inside (size : ℕ) (currentId : Fin (last + 1)) (call : Call A) (s : Comm A last) :
    Prop where
  passed : ∃ m, s.commands = (call.commands currentId).drop m ∧
    s.pushIndices.length = min m call.shares.length
  indices : ∀ idx i : ℕ, s.pushIndices[idx]? = some i → ∃ j k,
    (call.parties currentId)[idx]? = some j ∧ i = k % size ∧ (s.rings j).pushed.length = k + 1

theorem drop_eq_cons {α : Type} {l rest : List α} {m : ℕ} {x : α} (h : l.drop m = x :: rest) :
    l[m]? = some x ∧ rest = l.drop (m + 1) := by
  constructor
  · have hhead := congrArg (fun t => t[0]?) h
    simpa using hhead
  · rw [← List.tail_drop, h]
    rfl

/-- A step that leaves all counts of pushed entries. -/
theorem Comm.Inside.of_pushed (h : s.Inside size currentId call)
    (hcommands : s'.commands = s.commands) (hindices : s'.pushIndices = s.pushIndices)
    (hpushed : ∀ q, (s'.rings q).pushed = (s.rings q).pushed) : s'.Inside size currentId call where
  passed := by
    rw [hcommands, hindices]
    exact h.passed
  indices := by
    intro idx i hi
    obtain ⟨j, k, hj, hik, hk⟩ := h.indices idx i (hindices ▸ hi)
    exact ⟨j, k, hj, hik, by rw [hpushed, hk]⟩

theorem Comm.Inside.pass (h : s.Inside size currentId call) {command : Command A last}
    {rest : List (Command A last)} (hcommands : s.commands = command :: rest)
    (hcommand : ∀ j v, command ≠ .push j v) : Inside size currentId call { s with commands := rest } := by
  obtain ⟨m, hm, hlength⟩ := h.passed
  obtain ⟨hget, hrest⟩ := drop_eq_cons (hm.symm.trans hcommands)
  have hge : call.shares.length ≤ m := by
    by_contra hlt
    obtain ⟨j, v, hpush⟩ : ∃ j v, (call.commands currentId)[m]? = some (.push j v) :=
      Call.push_of_lt (by omega)
    exact hcommand j v (Option.some.inj (hget.symm.trans hpush))
  exact { h with passed := ⟨m + 1, hrest, by show s.pushIndices.length = _; omega⟩ }

theorem Comm.Inside.publish (hcall : (call.parties currentId).Nodup) (h : s.Inside size currentId call)
    {j : Fin (last + 1)} {v v' : VectorEntry A} {rest : List (Command A last)} {i w : ℕ}
    (hring : Inv (noCopyRing A) size (s.rings j)) (hcommands : s.commands = .push j v' :: rest)
    (hpc : (s.rings j).producer = .index v i (some w)) :
    Inside size currentId call { s.setRing j ((s.rings j).publish size v w) with
      commands := rest
      pushIndices := s.pushIndices ++ [i] } := by
  obtain ⟨m, hm, hlength⟩ := h.passed
  obtain ⟨hget, hrest⟩ := drop_eq_cons (hm.symm.trans hcommands)
  obtain ⟨hlt, hparty⟩ := Call.push_mem hget
  have hindex : i = (s.rings j).pushed.length % size := by
    have hp := hring.producer
    rw [hpc] at hp
    exact hp.2.2.1
  have hpushed : ((s.setRing j ((s.rings j).publish size v w)).rings j).pushed.length =
      (s.rings j).pushed.length + 1 := by
    rw [setRing_self]
    exact List.length_append
  constructor
  · refine ⟨m + 1, hrest, ?_⟩
    show (s.pushIndices ++ [i]).length = _
    rw [List.length_append, List.length_singleton]
    omega
  · intro idx i' hi
    change (s.pushIndices ++ [i])[idx]? = some i' at hi
    rcases Nat.lt_or_ge idx s.pushIndices.length with hidx | hidx
    · rw [List.getElem?_append_left hidx] at hi
      obtain ⟨q, k, hq, hik, hk⟩ := h.indices idx i' hi
      have hne : q ≠ j := by
        rintro rfl
        have hlen := (List.getElem?_eq_some_iff.mp hq).1
        have heq := (List.getElem?_inj hlen hcall).mp (hq.trans hparty.symm)
        omega
      refine ⟨q, k, hq, hik, ?_⟩
      show ((s.setRing j _).rings q).pushed.length = k + 1
      rw [setRing_of_ne s hne, hk]
    · have hlen := (List.getElem?_eq_some_iff.mp hi).1
      rw [List.length_append, List.length_singleton] at hlen
      obtain rfl : idx = s.pushIndices.length := by omega
      rw [List.getElem?_concat_length] at hi
      obtain rfl := Option.some.inj hi
      have hidx : s.pushIndices.length = m := by omega
      exact ⟨j, _, hidx ▸ hparty, hindex, hpushed⟩

theorem Call.inside (call : Call A) (h : s.commands = call.commands currentId)
    (hindices : s.pushIndices = []) : s.Inside size currentId call where
  passed := ⟨0, h, by rw [hindices]; exact (Nat.zero_min _).symm⟩
  indices := by
    intro idx i hi
    rw [hindices] at hi
    exact absurd hi nofun

theorem Comm.inside_of_distinct (hsize : 1 ≤ size)
    (hcalls : ∀ call ∈ calls, (call.parties currentId).Nodup) (hs : Reachable size currentId calls s) :
    (∀ call ∈ s.calls, call ∈ calls) ∧
      (s.commands = [] ∨ ∃ call ∈ calls, s.Inside size currentId call) := by
  induction hs with
  | start slots => exact ⟨fun _ h => h, .inl rfl⟩
  | @next s s' hs hstep ih =>
      obtain ⟨hrest, hinside⟩ := ih
      have hkeep : ∀ t : Comm A last, t.commands = s.commands → t.pushIndices = s.pushIndices →
          (∀ q, (t.rings q).pushed = (s.rings q).pushed) →
          t.commands = [] ∨ ∃ call ∈ calls, t.Inside size currentId call := by
        intro t hcommands hindices hpushed
        refine hinside.imp (fun h => hcommands.trans h) ?_
        rintro ⟨call, hcall, h⟩
        exact ⟨call, hcall, h.of_pushed hcommands hindices hpushed⟩
      have hring : ∀ j ring, ring.pushed = (s.rings j).pushed → ∀ q,
          ((s.setRing j ring).rings q).pushed = (s.rings q).pushed := by
        intro j ring hpushed q
        by_cases hq : q = j
        · rw [hq, setRing_self, hpushed]
        · rw [setRing_of_ne s hq]
      have hunder : ∀ {command rest}, s.commands = command :: rest →
          ∃ call ∈ calls, s.Inside size currentId call := fun hcommands =>
        hinside.resolve_left fun hnil => absurd (hcommands.symm.trans hnil) nofun
      cases hstep with
      | @enter call rest hcommands hcallsEq =>
          have hmem : call ∈ calls := hrest call (hcallsEq ▸ List.mem_cons_self)
          refine ⟨fun c hc => hrest c (hcallsEq ▸ List.mem_cons_of_mem _ hc), .inr ⟨call, hmem, ?_⟩⟩
          exact call.inside rfl rfl
      | call hcommands h => exact ⟨hrest, hkeep _ rfl rfl (hring _ _ rfl)⟩
      | producer h => exact ⟨hrest, hkeep _ rfl rfl (hring _ _ h.value.2)⟩
      | publish hcommands h =>
          obtain ⟨call, hcall, hin⟩ := hunder hcommands
          exact ⟨hrest, .inr ⟨call, hcall, hin.publish (hcalls call hcall) (hs.inv hsize _) hcommands h⟩⟩
      | receive hcommands =>
          obtain ⟨call, hcall, hin⟩ := hunder hcommands
          exact ⟨hrest, .inr ⟨call, hcall, hin.pass hcommands nofun⟩⟩
      | wait hcommands hindex hreleased =>
          obtain ⟨call, hcall, hin⟩ := hunder hcommands
          exact ⟨hrest, .inr ⟨call, hcall, hin.pass hcommands nofun⟩⟩
      | skip hown => exact ⟨hrest, hkeep _ rfl rfl fun _ => rfl⟩
      | stay hown h hstay => exact ⟨hrest, hkeep _ rfl rfl (hring _ _ h.value.2)⟩
      | leave hown h hleave => exact ⟨hrest, hkeep _ rfl rfl (hring _ _ h.value.2)⟩

/-- In an empty ring everything pushed has been popped. -/
theorem length_of_empty {ring : State (VectorEntry A) (Option A)} (h : Inv (noCopyRing A) size ring)
    (hempty : ring.writeIndex = ring.readIndex) : ring.popped.length = ring.pushed.length := by
  rw [h.write, h.read] at hempty
  rcases Nat.lt_or_eq_of_le h.le with hlt | heq
  · have hroom := h.room
    exact absurd hempty.symm (mod_ne_mod hlt (by omega))
  · exact heq

theorem Comm.not_stuck_of_distinct (hsize : 1 ≤ size)
    (hcalls : ∀ call ∈ calls, (call.parties currentId).Nodup) (hs : Reachable size currentId calls s) :
    ¬ s.Stuck size := by
  rintro ⟨j, idx, rest, i, hcommands, hindex, hempty, hblocked⟩
  have hinside := (inside_of_distinct hsize hcalls hs).2
  obtain ⟨call, -, hin⟩ := hinside.resolve_left fun hnil => absurd (hcommands.symm.trans hnil) nofun
  obtain ⟨m, hm, -⟩ := hin.passed
  have hwait := Call.wait_mem (drop_eq_cons (hm.symm.trans hcommands)).1
  obtain ⟨q, k, hq, rfl, hk⟩ := hin.indices idx i hindex
  obtain rfl := Option.some.inj (hwait.symm.trans hq)
  have hinv := hs.inv hsize j
  have hpopped := length_of_empty hinv hempty
  apply hblocked
  rw [State.Released, nextIndex_mod, hinv.read, hpopped, hk]

end Safety

section Runs

variable {size : ℕ} {currentId : Fin (last + 1)} {calls : List (Call A)} {s : Comm A last}

/-- Between two pushes, with everything sent: the worker pushes nothing, the sending thread is at the
start of its round and all rings are empty. -/
def Comm.Quiet (s : Comm A last) : Prop :=
  ∀ q, (s.rings q).producer = .idle ∧ (s.rings q).consumer = .poll none none ∧
    (s.rings q).popped.length = (s.rings q).pushed.length

theorem empty_of_length {ring : State (VectorEntry A) (Option A)} (h : Inv (noCopyRing A) size ring)
    (hlength : ring.popped.length = ring.pushed.length) : ring.writeIndex = ring.readIndex := by
  rw [h.write, h.read, hlength]

theorem Comm.setRing_rings_self (s : Comm A last) (j : Fin (last + 1)) :
    s.setRing j (s.rings j) = s := by
  rw [setRing, Function.update_eq_self]

theorem Comm.setRing_setRing (s : Comm A last) (j : Fin (last + 1))
    (ring ring' : State (VectorEntry A) (Option A)) :
    (s.setRing j ring).setRing j ring' = s.setRing j ring' := by
  simp only [setRing, Function.update_idem]

theorem Comm.Reachable.pushing {j : Fin (last + 1)} {ring ring' : State (VectorEntry A) (Option A)}
    (hrun : ReflTransGen (ProducerStep (noCopyRing A) size) ring ring')
    (hring : Reachable size currentId calls (s.setRing j ring)) :
    Reachable size currentId calls (s.setRing j ring') := by
  induction hrun with
  | refl => exact hring
  | @tail a b _ hstep ih =>
      have hself := setRing_self s j a
      have hnext := ih.next (.producer (j := j) (hself.symm ▸ hstep))
      rwa [setRing_setRing] at hnext

theorem Comm.Reachable.staying (hs : Reachable size currentId calls s) (hown : s.sender ≠ currentId)
    {ring : State (VectorEntry A) (Option A)} (hrun : ReflTransGen (Stays size) (s.rings s.sender) ring) :
    Reachable size currentId calls (s.setRing s.sender ring) := by
  induction hrun with
  | refl => rwa [setRing_rings_self]
  | @tail a b _ hstep ih =>
      have hself := setRing_self s s.sender a
      have hstay : ConsumerStep (noCopyRing A) size ((s.setRing s.sender a).rings s.sender) b :=
        hself.symm ▸ hstep.1
      have hnext := ih.next (.stay hown hstay hstep.2)
      exact setRing_setRing s s.sender a b ▸ hnext

/-- The sending thread passes over a ring that is empty. -/
theorem Comm.Reachable.pass (hs : Reachable size currentId calls s)
    (hpoll : (s.rings s.sender).consumer = .poll none none)
    (hempty : s.sender ≠ currentId → (s.rings s.sender).writeIndex = (s.rings s.sender).readIndex) :
    Reachable size currentId calls { s with sender := nextParty s.sender } := by
  by_cases hown : s.sender = currentId
  · exact hs.next (.skip hown)
  · obtain ⟨mid, hrun, hstep⟩ := poll_empty_run size hpoll (hempty hown)
    have hmid := hs.staying hown hrun
    have hself := setRing_self s s.sender mid
    have hleave : ConsumerStep (noCopyRing A) size ((s.setRing s.sender mid).rings s.sender)
        (s.rings s.sender) := hself.symm ▸ hstep
    have hnext := hmid.next (.leave hown hleave hpoll)
    rw [show (s.setRing s.sender mid).sender = s.sender from rfl, setRing_setRing,
      setRing_rings_self] at hnext
    exact hnext

theorem nextParty_iterate (p : Fin (last + 1)) (d : ℕ) :
    ((nextParty^[d] p : Fin (last + 1)) : ℕ) = (p + d) % (last + 1) := by
  induction d with
  | zero => exact (Nat.mod_eq_of_lt p.isLt).symm
  | succ d ih =>
      rw [Function.iterate_succ_apply']
      show ((nextParty^[d] p : Fin (last + 1)) + 1) % (last + 1) = _
      rw [ih, Nat.mod_add_mod]
      rfl

/-- It comes to any party on its way. -/
theorem exists_iterate_nextParty (p j : Fin (last + 1)) : ∃ d, nextParty^[d] p = j := by
  refine ⟨j + (last + 1) - p, Fin.ext ?_⟩
  rw [nextParty_iterate]
  have hp := p.isLt
  rw [show (p : ℕ) + (j + (last + 1) - p) = j + (last + 1) by omega, Nat.add_mod_right,
    Nat.mod_eq_of_lt j.isLt]

theorem Comm.Reachable.goRound (hs : Reachable size currentId calls s) {j : Fin (last + 1)}
    (hpoll : ∀ q, (s.rings q).consumer = .poll none none)
    (hempty : ∀ q, q ≠ j → (s.rings q).writeIndex = (s.rings q).readIndex) :
    Reachable size currentId calls { s with sender := j } := by
  have hgo : ∀ (d : ℕ) (p : Fin (last + 1)), nextParty^[d] p = j →
      Reachable size currentId calls { s with sender := p } →
      Reachable size currentId calls { s with sender := j } := by
    intro d
    induction d with
    | zero =>
        intro p hp hreach
        exact hp ▸ hreach
    | succ d ih =>
        intro p hp hreach
        by_cases hpj : p = j
        · exact hpj ▸ hreach
        · exact ih (nextParty p) hp (hreach.pass (hpoll p) fun _ => hempty p hpj)
  obtain ⟨d, hd⟩ := exists_iterate_nextParty s.sender j
  exact hgo d s.sender hd hs

/-- From a quiet state a push can be made and its entry sent before anything else happens. -/
theorem Comm.Reachable.push_sent (hsize : 2 ≤ size) (hs : Reachable size currentId calls s)
    (hquiet : s.Quiet) {j : Fin (last + 1)} {v : VectorEntry A} {rest : List (Command A last)}
    (hcommands : s.commands = .push j v :: rest) (hown : j ≠ currentId) :
    ∃ s', Reachable size currentId calls s' ∧ s'.Quiet ∧ s'.commands = rest ∧ s'.calls = s.calls ∧
      s'.pushIndices = s.pushIndices ++ [(s.rings j).pushed.length % size] ∧
      ∀ q, (s'.rings q).pushed.length = (s.rings q).pushed.length + if q = j then 1 else 0 := by
  obtain ⟨hidle, hpoll, hlength⟩ := hquiet j
  have hinv := hs.inv (by omega) j
  have hroom : nextIndex size (s.rings j).writeIndex ≠ (s.rings j).readIndex := by
    rw [hinv.write, hinv.read, nextIndex_mod, hlength]
    exact (mod_ne_mod (by omega) (by omega)).symm
  obtain ⟨ring, hrun, hpc, hconsumer, hpushed, hpopped⟩ := push_run hroom v
  have hpushing := Reachable.pushing hrun (hs.next (.call hcommands hidle))
  let ring1 := ring.publish size v (s.rings j).writeIndex
  let t : Comm A last := { s.setRing j ring1 with
    sender := j
    commands := rest
    pushIndices := s.pushIndices ++ [(s.rings j).writeIndex] }
  have htj : t.rings j = ring1 := setRing_self s j ring1
  have htq : ∀ q, q ≠ j → t.rings q = s.rings q := fun q hq => setRing_of_ne s hq ring1
  have hlength1 : ring1.pushed.length = (s.rings j).pushed.length + 1 :=
    List.length_append.trans (congrArg (·.length + 1) hpushed)
  have ht : Reachable size currentId calls t := by
    have hself := setRing_self s j ring
    have hpublish := hpushing.next (.publish (j := j) hcommands (hself.symm ▸ hpc))
    rw [hself, setRing_setRing] at hpublish
    refine hpublish.goRound (fun q => ?_) fun q hq => ?_
    · by_cases hq : q = j
      · subst hq
        exact (congrArg State.consumer htj).trans (hconsumer.trans hpoll)
      · exact (congrArg State.consumer (htq q hq)).trans (hquiet q).2.1
    · have hempty := empty_of_length (hs.inv (by omega) q) (hquiet q).2.2
      exact (htq q hq).symm ▸ hempty
  -- the sending thread is at the ring and finds one entry in it
  have hne : ring1.writeIndex ≠ ring1.readIndex := by
    intro hempty
    have hall := length_of_empty (htj ▸ ht.inv (by omega) j) hempty
    have hpopped1 : ring1.popped.length = (s.rings j).popped.length := congrArg List.length hpopped
    omega
  obtain ⟨mid, ring2, hstay, hleave, hpoll2, hidle2, hpushed2, hpopped2⟩ :=
    pop_run size (s := ring1) (hconsumer.trans hpoll) hne
  have hmid : Reachable size currentId calls (t.setRing j mid) :=
    ht.staying hown (htj.symm ▸ hstay)
  have hself := setRing_self t j mid
  have hleave2 : ConsumerStep (noCopyRing A) size ((t.setRing j mid).rings j) ring2 :=
    hself.symm ▸ hleave
  have hlast := hmid.next (.leave hown hleave2 hpoll2)
  have hsender : (t.setRing j mid).sender = j := rfl
  rw [hsender, setRing_setRing] at hlast
  have hlastj : (t.setRing j ring2).rings j = ring2 := setRing_self t j ring2
  have hlastq : ∀ q, q ≠ j → (t.setRing j ring2).rings q = s.rings q := fun q hq =>
    (setRing_of_ne t hq ring2).trans (htq q hq)
  have hlength2 : ring2.pushed.length = (s.rings j).pushed.length + 1 := by rw [hpushed2, hlength1]
  refine ⟨_, hlast, fun q => ?_, rfl, rfl, ?_, fun q => ?_⟩
  · by_cases hq : q = j
    · subst hq
      show ((t.setRing q ring2).rings q).producer = _ ∧ _
      rw [hlastj]
      refine ⟨hidle2, hpoll2, ?_⟩
      have hpopped1 : ring1.popped.length = (s.rings q).popped.length := congrArg List.length hpopped
      omega
    · show ((t.setRing j ring2).rings q).producer = _ ∧ _
      rw [hlastq q hq]
      exact hquiet q
  · exact congrArg (s.pushIndices ++ [·]) hinv.write
  · show ((t.setRing j ring2).rings q).pushed.length = _
    by_cases hq : q = j
    · subst hq
      rw [hlastj, hlength2, if_pos rfl]
    · rw [hlastq q hq, if_neg hq, add_zero]

theorem Call.parties_cons (share : VectorEntry A × ℤ) (shares : List (VectorEntry A × ℤ))
    (receives : Bool) : Call.parties currentId ⟨share :: shares, receives⟩ =
      toId currentId share.2 :: Call.parties currentId ⟨shares, receives⟩ := rfl

/-- The pushes of a call, every entry sent at once: the index of a push counts the earlier ones to the
same party. -/
theorem Comm.Reachable.pushes_sent (hsize : 2 ≤ size) (tail : List (Command A last))
    (call : Call A) (hown : ∀ j ∈ call.parties currentId, j ≠ currentId)
    (hs : Reachable size currentId calls s) (hquiet : s.Quiet)
    (hcommands : s.commands = call.pushes currentId ++ tail) :
    ∃ s' indices, Reachable size currentId calls s' ∧ s'.Quiet ∧ s'.commands = tail ∧
      s'.calls = s.calls ∧ s'.pushIndices = s.pushIndices ++ indices ∧
      (∀ idx j, (call.parties currentId)[idx]? = some j → indices[idx]? =
        some (((s.rings j).pushed.length + ((call.parties currentId).take idx).count j) % size)) ∧
      ∀ q, (s'.rings q).pushed.length =
        (s.rings q).pushed.length + (call.parties currentId).count q := by
  obtain ⟨shares, receives⟩ := call
  induction shares generalizing s with
  | nil =>
      refine ⟨s, [], hs, hquiet, hcommands, rfl, (List.append_nil _).symm, fun idx j hj => ?_, fun q => rfl⟩
      exact absurd hj nofun
  | cons share shares ih =>
      have hj : toId currentId share.2 ≠ currentId := hown _ List.mem_cons_self
      obtain ⟨s1, hs1, hquiet1, hcommands1, hcalls1, hindices1, hlength1⟩ :=
        hs.push_sent hsize hquiet hcommands hj
      obtain ⟨s2, indices, hs2, hquiet2, hcommands2, hcalls2, hindices2, hat, hlength2⟩ :=
        ih hs1 hquiet1 (fun j hj => hown j (List.mem_cons_of_mem _ hj)) hcommands1
      refine ⟨s2, (s.rings (toId currentId share.2)).pushed.length % size :: indices, hs2, hquiet2,
        hcommands2, hcalls2.trans hcalls1, ?_, ?_, fun q => ?_⟩
      · rw [hindices2, hindices1, List.append_assoc]
        rfl
      · intro idx j hidx
        cases idx with
        | zero =>
            obtain rfl := Option.some.inj hidx
            rfl
        | succ idx =>
            have hrest := hat idx j hidx
            show indices[idx]? = _
            rw [hrest, hlength1, Call.parties_cons, List.take_succ_cons, List.count_cons, add_assoc,
              add_comm (List.count _ _)]
            simp only [beq_iff_eq, eq_comm (b := j)]
      · rw [hlength2, hlength1]
        rw [Call.parties_cons, List.count_cons, add_assoc, add_comm (List.count _ _)]
        simp only [beq_iff_eq, eq_comm (b := q)]

theorem Comm.Reachable.waits (hs : Reachable size currentId calls s) (hquiet : s.Quiet)
    (hsize : 1 ≤ size) (waits : List (Fin (last + 1) × ℕ))
    (hcommands : s.commands = waits.map fun party => .wait party.1 party.2)
    (hindices : ∀ party ∈ waits, ∃ i, s.pushIndices[party.2]? = some i) :
    (∃ s', Reachable size currentId calls s' ∧ s'.Stuck size) ∨
      (Reachable size currentId calls { s with commands := [] } ∧
        ∀ party ∈ waits, ∀ i, s.pushIndices[party.2]? = some i →
          (s.rings party.1).Released size i) := by
  induction waits generalizing s with
  | nil =>
      have hnil : { s with commands := [] } = s := by
        rw [← (show s.commands = [] from hcommands)]
      exact .inr ⟨hnil.symm ▸ hs, nofun⟩
  | cons party waits ih =>
      obtain ⟨i, hi⟩ := hindices party List.mem_cons_self
      by_cases hreleased : (s.rings party.1).Released size i
      · have hnext := hs.next (.wait hcommands hi hreleased)
        apply (ih hnext hquiet rfl fun p hp => hindices p (List.mem_cons_of_mem _ hp)).imp_right
        rintro ⟨hdone, hall⟩
        refine ⟨hdone, fun p hp i' hi' => ?_⟩
        rcases List.mem_cons.mp hp with rfl | hp
        · exact Option.some.inj (hi.symm.trans hi') ▸ hreleased
        · exact hall p hp i' hi'
      · have hempty := empty_of_length (hs.inv hsize party.1) (hquiet party.1).2.2
        exact .inl ⟨s, hs, party.1, party.2, _, i, hcommands, hi, hempty, hreleased⟩

/-- A list with a repetition has two equal elements with none like them between. -/
theorem exists_repetition {α : Type} {l : List α} (h : ¬ l.Nodup) :
    ∃ x as bs cs, l = as ++ x :: (bs ++ x :: cs) ∧ x ∉ bs := by
  induction l with
  | nil => exact absurd List.nodup_nil h
  | cons y l ih =>
      by_cases hy : y ∈ l
      · obtain ⟨bs, cs, hl, hbs⟩ := List.eq_append_cons_of_mem hy
        exact ⟨y, [], bs, cs, by rw [hl]; rfl, hbs⟩
      · obtain ⟨x, as, bs, cs, hl, hbs⟩ := ih fun hnodup => h (List.nodup_cons.mpr ⟨hy, hnodup⟩)
        exact ⟨x, y :: as, bs, cs, by rw [hl]; rfl, hbs⟩

theorem Comm.Reachable.run_call (hsize : 2 ≤ size) (hs : Reachable size currentId calls s)
    (hquiet : s.Quiet) {call : Call A} {rest : List (Call A)} (hcommands : s.commands = [])
    (hcalls : s.calls = call :: rest) (hown : ∀ j ∈ call.parties currentId, j ≠ currentId) :
    (∃ s', Reachable size currentId calls s' ∧ s'.Stuck size) ∨
      ((call.parties currentId).Nodup ∧ ∃ s', Reachable size currentId calls s' ∧ s'.Quiet ∧
        s'.commands = [] ∧ s'.calls = rest) := by
  have henter := hs.next (.enter hcommands hcalls)
  obtain ⟨s1, indices, hs1, hquiet1, hcommands1, hcalls1, hindices1, hat, hlength⟩ :=
    henter.pushes_sent hsize _ call hown hquiet rfl
  obtain ⟨s2, hs2, hquiet2, hcommands2, hcalls2, hindices2, hrings2⟩ : ∃ s2,
      Reachable size currentId calls s2 ∧ s2.Quiet ∧ s2.commands = call.waits currentId ∧
      s2.calls = rest ∧ s2.pushIndices = indices ∧ s2.rings = s1.rings := by
    cases hreceives : call.receives with
    | false =>
        rw [hreceives] at hcommands1
        exact ⟨s1, hs1, hquiet1, hcommands1, hcalls1, hindices1, rfl⟩
    | true =>
        rw [hreceives] at hcommands1
        exact ⟨_, hs1.next (.receive hcommands1), hquiet1, rfl, hcalls1, hindices1, rfl⟩
  have hsome : ∀ party ∈ (call.parties currentId).zipIdx, ∃ i, s2.pushIndices[party.2]? = some i := by
    intro party hparty
    exact ⟨_, hindices2 ▸ hat _ _ (List.mem_zipIdx_iff_getElem?.mp hparty)⟩
  apply (hs2.waits hquiet2 (by omega) _ hcommands2 hsome).imp_right
  rintro ⟨hdone, hreleased⟩
  refine ⟨?_, _, hdone, hquiet2, rfl, hcalls2⟩
  by_contra hrepeated
  obtain ⟨x, as, bs, cs, hparties, hbs⟩ := exists_repetition hrepeated
  have hfirst : (call.parties currentId)[as.length]? = some x := by
    rw [hparties, List.getElem?_append_right le_rfl, Nat.sub_self]
    rfl
  have hsecond : (call.parties currentId)[(as ++ x :: bs).length]? = some x := by
    rw [hparties, ← List.cons_append, ← List.append_assoc, List.getElem?_append_right le_rfl,
      Nat.sub_self]
    rfl
  have htake : (call.parties currentId).take (as ++ x :: bs).length = as ++ x :: bs := by
    rw [hparties, ← List.cons_append, ← List.append_assoc, List.take_left]
  have hindex : ∀ idx, (call.parties currentId)[idx]? = some x →
      ((s.rings x).pushed.length + ((call.parties currentId).take idx).count x + 1) % size =
        (s2.rings x).readIndex := by
    intro idx hidx
    have hmem : (x, idx) ∈ (call.parties currentId).zipIdx := List.mem_zipIdx_iff_getElem?.mpr hidx
    have hwait := hreleased (x, idx) hmem _ (hindices2 ▸ hat idx x hidx)
    rw [State.Released, nextIndex_mod] at hwait
    exact hwait.symm
  have hread := (hindex _ hfirst).trans (hindex _ hsecond).symm
  rw [htake, hparties, List.take_left, List.count_append, List.count_cons_self,
    List.count_eq_zero_of_not_mem hbs] at hread
  exact mod_ne_mod (by omega) (by omega) hread

theorem Comm.Reachable.exists_stuck (hsize : 2 ≤ size) {pending : List (Call A)}
    (hown : ∀ call ∈ pending, ∀ j ∈ call.parties currentId, j ≠ currentId)
    (hrepeated : ∃ call ∈ pending, ¬ (call.parties currentId).Nodup)
    (hs : Reachable size currentId calls s) (hquiet : s.Quiet) (hcommands : s.commands = [])
    (hpending : s.calls = pending) : ∃ s', Reachable size currentId calls s' ∧ s'.Stuck size := by
  induction pending generalizing s with
  | nil =>
      obtain ⟨call, hcall, -⟩ := hrepeated
      exact absurd hcall List.not_mem_nil
  | cons call rest ih =>
      rcases hs.run_call hsize hquiet hcommands hpending (hown call List.mem_cons_self) with
        hstuck | ⟨hnodup, s', hs', hquiet', hcommands', hcalls'⟩
      · exact hstuck
      · obtain ⟨call', hcall', hnot⟩ := hrepeated
        have hmem : call' ∈ rest := by
          rcases List.mem_cons.mp hcall' with rfl | hmem
          · exact absurd hnodup hnot
          · exact hmem
        exact ih (fun c hc => hown c (List.mem_cons_of_mem _ hc)) ⟨call', hmem, hnot⟩ hs' hquiet'
          hcommands' hcalls'

theorem exists_stuck_of_repeated (hsize : 2 ≤ size)
    (hown : ∀ call ∈ calls, ∀ j ∈ call.parties currentId, j ≠ currentId)
    (hrepeated : ∃ call ∈ calls, ¬ (call.parties currentId).Nodup) :
    ∃ s : Comm A last, s.Reachable size currentId calls ∧ s.Stuck size :=
  Comm.Reachable.exists_stuck hsize hown hrepeated (.start fun _ _ => (none, 0))
    (fun _ => ⟨rfl, rfl, rfl⟩) rfl rfl

end Runs

/-- `wait` is released after its entry has been popped as long as no later one has, and the calls that
push several vectors leave no worker stuck exactly when no two vectors go to the same party. -/
theorem wait_released_iff :
    (∀ (size : ℕ) (s s' : State (VectorEntry A) (Option A)) (v : VectorEntry A) (pushIndex w : ℕ),
      1 ≤ size → SendRing.Reachable (noCopyRing A) size s →
      s.producer = .index v pushIndex (some w) →
      ReflTransGen (SendRing.Step (noCopyRing A) size) (s.publish size v w) s' →
      s.pushed.length < s'.popped.length → s'.pushed.length ≤ s.pushed.length + size →
      (s'.Released size pushIndex ↔ s'.popped.length = s.pushed.length + 1)) ∧
    ∀ (last size : ℕ) (currentId : Fin (last + 1)) (calls : List (Call A)), 1 ≤ size →
      (∀ call ∈ calls, ∀ j ∈ call.parties currentId, j ≠ currentId) →
      ((∀ call ∈ calls, (call.parties currentId).Nodup) →
        ∀ s : Comm A last, s.Reachable size currentId calls → ¬ s.Stuck size) ∧
      (2 ≤ size → (∃ call ∈ calls, ¬ (call.parties currentId).Nodup) →
        ∃ s : Comm A last, s.Reachable size currentId calls ∧ s.Stuck size) := by
  constructor
  · intro size s s' v pushIndex w hsize hs hpc hsteps hpopped hturn
    have hp := (reachable_inv hsize hs).producer
    rw [hpc] at hp
    have hs' := (hs.next (.publish hpc)).steps hsteps
    rw [hp.2.2.1]
    exact (reachable_inv hsize hs').released_iff hpopped hturn
  · intro last size currentId calls hsize hown
    exact ⟨fun hcalls s hs => Comm.not_stuck_of_distinct hsize hcalls hs,
      fun hsize => exists_stuck_of_repeated hsize hown⟩

theorem wait_released_example :
    (∃ s : State (VectorEntry ℕ) (Option ℕ), s.popped.length = 1 ∧ s.Released 16 0) ∧
    ∀ s : Comm ℕ 2, s.Reachable 16 0 [⟨[((some 0, 8), 1), ((some 8, 8), -1)], true⟩] →
      ¬ s.Stuck 16 := by
  constructor
  · obtain ⟨t, t', i, ht, hpc, hpushed, -, hsteps, -, -, hpushed', hpopped'⟩ :=
      push_pop_run (by decide : 2 ≤ 16) (.start fun _ => (none, 0)) rfl rfl rfl (some 0, 8)
    have hzero : t.pushed.length = 0 := congrArg List.length hpushed
    have hone : t'.pushed.length = 1 := congrArg List.length hpushed'
    have hindex := (reachable_inv (by decide : 1 ≤ 16) ht).producer
    rw [hpc] at hindex
    obtain rfl : i = 0 := by rw [hindex.2.2.1, hzero]
    refine ⟨t', hpopped', ?_⟩
    refine (wait_released_iff.1 16 t t' _ 0 0 (by decide) ht hpc hsteps ?_ ?_).mpr ?_
    · rw [hzero, hpopped']
      exact Nat.one_pos
    · rw [hone]
      omega
    · rw [hzero, hpopped']
      rfl
  · exact (wait_released_iff.2 2 16 0 _ (by decide) (by decide)).1 (by decide)

/-- Two vectors for the same party, both sent before the first `wait`. -/
theorem wait_not_released :
    (∃ (s s' : State (VectorEntry ℕ) (Option ℕ)) (v : VectorEntry ℕ) (pushIndex : ℕ),
      SendRing.Reachable (noCopyRing ℕ) 16 s ∧ s.producer = .index v pushIndex (some pushIndex) ∧
      ReflTransGen (SendRing.Step (noCopyRing ℕ) 16) (s.publish 16 v pushIndex) s' ∧
      s.pushed.length < s'.popped.length ∧ s'.pushed.length ≤ s.pushed.length + 16 ∧
      ¬ s'.Released 16 pushIndex) ∧
    ∃ s : Comm ℕ 1, s.Reachable 16 0 [⟨[((some 0, 8), 1), ((some 8, 8), 1)], false⟩] ∧ s.Stuck 16 := by
  constructor
  · obtain ⟨t, t1, i, ht, hpc, hpushed, -, hsteps, hidle, hpoll, hpushed1, hpopped1⟩ :=
      push_pop_run (by decide : 2 ≤ 16) (.start fun _ => (none, 0)) rfl rfl rfl (some 0, 8)
    have ht1 := (ht.next (.publish hpc)).steps hsteps
    have hlength1 : t1.pushed.length = 1 := congrArg List.length hpushed1
    obtain ⟨u, t2, i', -, hpc', -, hrun, hsteps', -, -, hpushed2, hpopped2⟩ :=
      push_pop_run (by decide : 2 ≤ 16) ht1 hidle hpoll (hpopped1.trans hlength1.symm) (some 8, 8)
    have hzero : t.pushed.length = 0 := congrArg List.length hpushed
    have htwo : t2.popped.length = 2 := hpopped2.trans (congrArg (· + 1) hpopped1)
    have htwo' : t2.pushed.length = 2 := by
      rw [hpushed2, List.length_append, hlength1]
      rfl
    have hall := (hsteps.trans hrun).trans (.head (.publish hpc') hsteps')
    have hindex := (reachable_inv (by decide : 1 ≤ 16) ht).producer
    rw [hpc] at hindex
    have hinv := reachable_inv (by decide : 1 ≤ 16) ((ht.next (.publish hpc)).steps hall)
    refine ⟨t, t2, _, i, ht, hpc, hall, by omega, by omega, ?_⟩
    rw [hindex.2.2.1, hinv.released_iff (by omega) (by omega)]
    omega
  · exact exists_stuck_of_repeated (by decide) (by decide) ⟨_, List.mem_singleton_self _, by decide⟩

end CryptDough.NoCopyCommunicator
