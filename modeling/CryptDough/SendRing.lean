import Mathlib.Algebra.Order.Ring.Nat
import Mathlib.Data.List.Basic
import Mathlib.Tactic.Cases
import Mathlib.Tactic.Common

/-! The rings through which a worker hands vectors to its sending thread. One thread pushes and
advances the write index, the other one pops and advances the read index; each reads the other's index
whenever it likes, and every access to an index or to a slot is a step of its own. -/

namespace CryptDough.SendRing

/-- How an entry lies in a slot: the buffer once a value is stored over its old contents, the number
of bytes noted beside it and what the two are read as; with what `pop` leaves in the buffer, when it
clears it. -/
structure Layout (V B : Type) where
  store : V → B → B
  used : V → ℕ
  read : B → ℕ → V
  read_store : ∀ v b, read (store v b) (used v) = v
  null : Option B

/-- `RingEntry` and `NoCopyRingEntry`. -/
abbrev Entry (B : Type) := B × ℕ

abbrev Byte := BitVec 8

/-- The ring that copies a value into the slot's buffer, and a slot when it is popped. -/
def copyRing : Layout (List Byte) (List Byte) where
  store := fun v buffer => v ++ buffer.drop v.length
  used := List.length
  read := fun buffer used => buffer.take used
  read_store := fun _ _ => List.take_left
  null := none

/-- The ring that stores where a vector lies and its size. -/
def noCopyRing (A : Type) : Layout (Entry (Option A)) (Option A) where
  store := fun entry _ => entry.1
  used := Prod.snd
  read := Prod.mk
  read_store := fun _ _ => rfl
  null := some none

/-- Where the pushing thread is: `full` tests whether there is room, with the indices it has loaded;
`buffer` and `used` write the slot, `index` the write index. -/
inductive Producer (V : Type)
  | idle
  | full (value : V) (writeIndex readIndex : Option ℕ)
  | buffer (value : V) (writeIndex : Option ℕ)
  | used (value : V) (writeIndex : Option ℕ)
  | pushIndex (value : V)
  | index (value : V) (pushIndex : ℕ) (writeIndex : Option ℕ)

/-- Where the popping thread is. A sending thread polls the ring, asks for its current entry, sends
it and pops it, and each of the three tests again whether the ring is empty; the copying ring has the
second test only. -/
inductive Consumer (B : Type)
  | poll (writeIndex readIndex : Option ℕ)
  | current (writeIndex readIndex : Option ℕ)
  | entry
  | buffer (slot : ℕ)
  | used (slot : ℕ) (buffer : B)
  | pop (slot : ℕ) (entry : Entry B) (writeIndex readIndex : Option ℕ)
  | compare (slot : ℕ) (entry : Entry B)
  | clearBuffer (entry : Entry B) (readIndex : Option ℕ)
  | clearUsed (entry : Entry B) (readIndex : Option ℕ)
  | index (entry : Entry B) (readIndex : Option ℕ)
  | failed

/-- A ring with the two threads; `pushed` and `popped` are the values stored and the entries taken so
far, an entry counting as soon as its index is advanced. -/
structure State (V B : Type) where
  writeIndex : ℕ
  readIndex : ℕ
  slots : ℕ → Entry B
  producer : Producer V
  consumer : Consumer B
  pushed : List V
  popped : List (Entry B)

section Steps

variable {V B : Type} (lay : Layout V B) (size : ℕ)

def nextIndex (index : ℕ) : ℕ := (index + 1) % size

/-- The first test the popping thread makes. -/
def Layout.start : Consumer B :=
  match lay.null with
  | some _ => .poll none none
  | none => .current none none

def init (slots : ℕ → Entry B) : State V B where
  writeIndex := 0
  readIndex := 0
  slots := slots
  producer := .idle
  consumer := lay.start
  pushed := []
  popped := []

def State.setBuffer (s : State V B) (slot : ℕ) (buffer : B) : State V B :=
  { s with slots := Function.update s.slots slot (buffer, (s.slots slot).2) }

def State.setUsed (s : State V B) (slot used : ℕ) : State V B :=
  { s with slots := Function.update s.slots slot ((s.slots slot).1, used) }

/-- The pushing thread calls `push`. -/
def State.call (s : State V B) (value : V) : State V B :=
  { s with producer := .full value none none }

/-- It writes the write index and returns. -/
def State.publish (s : State V B) (value : V) (writeIndex : ℕ) : State V B :=
  { s with
    writeIndex := nextIndex size writeIndex
    producer := .idle
    pushed := s.pushed ++ [value] }

inductive ProducerStep : State V B → State V B → Prop
  | loadWrite {s v r} (h : s.producer = .full v none r) :
      ProducerStep s { s with producer := .full v (some s.writeIndex) r }
  | loadRead {s v w} (h : s.producer = .full v w none) :
      ProducerStep s { s with producer := .full v w (some s.readIndex) }
  | full {s v w r} (h : s.producer = .full v (some w) (some r)) (hfull : nextIndex size w = r) :
      ProducerStep s { s with producer := .full v none none }
  | room {s v w r} (h : s.producer = .full v (some w) (some r)) (hroom : nextIndex size w ≠ r) :
      ProducerStep s { s with producer := .buffer v none }
  | loadBuffer {s v} (h : s.producer = .buffer v none) :
      ProducerStep s { s with producer := .buffer v (some s.writeIndex) }
  | storeBuffer {s v w} (h : s.producer = .buffer v (some w)) :
      ProducerStep s { s.setBuffer w (lay.store v (s.slots w).1) with producer := .used v none }
  | loadUsed {s v} (h : s.producer = .used v none) :
      ProducerStep s { s with producer := .used v (some s.writeIndex) }
  | storeUsed {s v w} (h : s.producer = .used v (some w)) :
      ProducerStep s { s.setUsed w (lay.used v) with producer := .pushIndex v }
  | loadPushIndex {s v} (h : s.producer = .pushIndex v) :
      ProducerStep s { s with producer := .index v s.writeIndex none }
  | loadIndex {s v i} (h : s.producer = .index v i none) :
      ProducerStep s { s with producer := .index v i (some s.writeIndex) }

inductive ConsumerStep : State V B → State V B → Prop
  | pollWrite {s r} (h : s.consumer = .poll none r) :
      ConsumerStep s { s with consumer := .poll (some s.writeIndex) r }
  | pollRead {s w} (h : s.consumer = .poll w none) :
      ConsumerStep s { s with consumer := .poll w (some s.readIndex) }
  | pollEmpty {s i} (h : s.consumer = .poll (some i) (some i)) :
      ConsumerStep s { s with consumer := .poll none none }
  | pollEntry {s w r} (h : s.consumer = .poll (some w) (some r)) (hne : w ≠ r) :
      ConsumerStep s { s with consumer := .current none none }
  | currentWrite {s r} (h : s.consumer = .current none r) :
      ConsumerStep s { s with consumer := .current (some s.writeIndex) r }
  | currentRead {s w} (h : s.consumer = .current w none) :
      ConsumerStep s { s with consumer := .current w (some s.readIndex) }
  | currentEmpty {s i} (h : s.consumer = .current (some i) (some i)) :
      ConsumerStep s { s with consumer := .current none none }
  | currentEntry {s w r} (h : s.consumer = .current (some w) (some r)) (hne : w ≠ r) :
      ConsumerStep s { s with consumer := .entry }
  | entry {s} (h : s.consumer = .entry) :
      ConsumerStep s { s with consumer := .buffer s.readIndex }
  | buffer {s slot} (h : s.consumer = .buffer slot) :
      ConsumerStep s { s with consumer := .used slot (s.slots slot).1 }
  | used {s slot b} (h : s.consumer = .used slot b) (hnull : lay.null ≠ none) :
      ConsumerStep s { s with consumer := .pop slot (b, (s.slots slot).2) none none }
  | copied {s slot b} (h : s.consumer = .used slot b) (hnull : lay.null = none) :
      ConsumerStep s { s with consumer := .index (b, (s.slots slot).2) none }
  | popWrite {s slot e r} (h : s.consumer = .pop slot e none r) :
      ConsumerStep s { s with consumer := .pop slot e (some s.writeIndex) r }
  | popRead {s slot e w} (h : s.consumer = .pop slot e w none) :
      ConsumerStep s { s with consumer := .pop slot e w (some s.readIndex) }
  | popEmpty {s slot e i} (h : s.consumer = .pop slot e (some i) (some i)) :
      ConsumerStep s { s with consumer := .pop slot e none none }
  | popEntry {s slot e w r} (h : s.consumer = .pop slot e (some w) (some r)) (hne : w ≠ r) :
      ConsumerStep s { s with consumer := .compare slot e }
  | same {s slot e} (h : s.consumer = .compare slot e) (hslot : slot = s.readIndex) :
      ConsumerStep s { s with consumer := .clearBuffer e none }
  | different {s slot e} (h : s.consumer = .compare slot e) (hslot : slot ≠ s.readIndex) :
      ConsumerStep s { s with consumer := .failed }
  | loadBuffer {s e} (h : s.consumer = .clearBuffer e none) :
      ConsumerStep s { s with consumer := .clearBuffer e (some s.readIndex) }
  | clearBuffer {s e r null} (h : s.consumer = .clearBuffer e (some r)) (hnull : lay.null = some null) :
      ConsumerStep s { s.setBuffer r null with consumer := .clearUsed e none }
  | loadUsed {s e} (h : s.consumer = .clearUsed e none) :
      ConsumerStep s { s with consumer := .clearUsed e (some s.readIndex) }
  | clearUsed {s e r} (h : s.consumer = .clearUsed e (some r)) :
      ConsumerStep s { s.setUsed r 0 with consumer := .index e none }
  | loadIndex {s e} (h : s.consumer = .index e none) :
      ConsumerStep s { s with consumer := .index e (some s.readIndex) }
  | storeIndex {s e r} (h : s.consumer = .index e (some r)) :
      ConsumerStep s { s with
        readIndex := nextIndex size r
        consumer := lay.start
        popped := s.popped ++ [e] }

/-- One step of either thread; when the pushing thread calls `push`, and with which value, is up to
its program. -/
inductive Step (s : State V B) : State V B → Prop
  | call (value : V) (h : s.producer = .idle) : Step s (s.call value)
  | producer {s'} (h : ProducerStep lay size s s') : Step s s'
  | publish {v i w} (h : s.producer = .index v i (some w)) : Step s (s.publish size v w)
  | consumer {s'} (h : ConsumerStep lay size s s') : Step s s'

inductive Reachable : State V B → Prop
  | start (slots : ℕ → Entry B) : Reachable (init lay slots)
  | next {s s'} (hs : Reachable s) (hstep : Step lay size s s') : Reachable s'

end Steps

section Invariant

variable {V B : Type} {lay : Layout V B} {size : ℕ}

def Consumer.Clearing : Consumer B → Prop
  | .clearUsed _ _ | .index _ _ => True
  | _ => False

/-- An entry holds a value, whatever was in the buffer before. -/
def Stored (lay : Layout V B) (v : V) (e : Entry B) : Prop :=
  ∃ old, e = (lay.store v old, lay.used v)

theorem Stored.read_eq {v : V} {e : Entry B} (h : Stored lay v e) : lay.read e.1 e.2 = v := by
  obtain ⟨old, rfl⟩ := h
  exact lay.read_store v old

/-- What the pushing thread has loaded and written, with `W` values pushed, `R` popped and `slot` where
the write index points. The read index may be an old one. -/
def ProducerOk (lay : Layout V B) (size W R : ℕ) (slot : Entry B) : Producer V → Prop
  | .idle => True
  | .full _ w r => (∀ i ∈ w, i = W % size) ∧ ∀ i ∈ r, ∃ k ≤ R, i = k % size ∧ W + 1 ≤ k + size
  | .buffer _ w => W + 2 ≤ R + size ∧ ∀ i ∈ w, i = W % size
  | .used v w => W + 2 ≤ R + size ∧ (∀ i ∈ w, i = W % size) ∧ ∃ old, slot.1 = lay.store v old
  | .pushIndex v => W + 2 ≤ R + size ∧ Stored lay v slot
  | .index v i w =>
      W + 2 ≤ R + size ∧ Stored lay v slot ∧ i = W % size ∧ ∀ i ∈ w, i = W % size

/-- The indices of a test for emptiness: the write index may be an old one. -/
def Loaded (size W R : ℕ) (w r : Option ℕ) : Prop :=
  (∀ i ∈ w, ∃ k, R ≤ k ∧ k ≤ W ∧ i = k % size) ∧ ∀ i ∈ r, i = R % size

def Held (lay : Layout V B) (next : Option V) (e : Entry B) : Prop := ∃ v ∈ next, Stored lay v e

/-- What the popping thread has loaded, `next` being the value to pop. -/
def ConsumerOk (lay : Layout V B) (size W R : ℕ) (next : Option V) : Consumer B → Prop
  | .poll w r | .current w r => Loaded size W R w r
  | .entry => R < W
  | .buffer slot => R < W ∧ slot = R % size
  | .used slot b => R < W ∧ slot = R % size ∧ ∃ v ∈ next, ∃ old, b = lay.store v old
  | .pop slot e w r => R < W ∧ slot = R % size ∧ Held lay next e ∧ Loaded size W R w r
  | .compare slot e => R < W ∧ slot = R % size ∧ Held lay next e
  | .clearBuffer e r | .clearUsed e r | .index e r =>
      R < W ∧ Held lay next e ∧ ∀ i ∈ r, i = R % size
  | .failed => False

structure Inv (lay : Layout V B) (size : ℕ) (s : State V B) : Prop where
  write : s.writeIndex = s.pushed.length % size
  read : s.readIndex = s.popped.length % size
  le : s.popped.length ≤ s.pushed.length
  room : s.pushed.length + 1 ≤ s.popped.length + size
  order : s.popped.map (fun e => lay.read e.1 e.2) = s.pushed.take s.popped.length
  contents : ∀ i v, s.pushed[i]? = some v → s.popped.length ≤ i →
    (s.consumer.Clearing → i ≠ s.popped.length) → Stored lay v (s.slots (i % size))
  producer : ProducerOk lay size s.pushed.length s.popped.length (s.slots (s.pushed.length % size))
    s.producer
  consumer : ConsumerOk lay size s.pushed.length s.popped.length s.pushed[s.popped.length]?
    s.consumer

theorem nextIndex_mod (k : ℕ) : nextIndex size (k % size) = (k + 1) % size := Nat.mod_add_mod k size 1

/-- Positions less than a turn apart lie in different slots. -/
theorem mod_ne_mod {a b : ℕ} (hlt : a < b) (hturn : b < a + size) : a % size ≠ b % size := by
  intro heq
  have hsub : (b - a) % size = 0 := Nat.sub_mod_eq_zero_of_mod_eq heq.symm
  rw [Nat.mod_eq_of_lt (by omega)] at hsub
  omega

theorem ProducerOk.pop {W R : ℕ} {slot : Entry B} {pc : Producer V}
    (h : ProducerOk lay size W R slot pc) : ProducerOk lay size W (R + 1) slot pc := by
  cases pc with
  | idle => trivial
  | full v w r =>
      refine ⟨h.1, fun i hi => ?_⟩
      obtain ⟨k, hk, heq, hroom⟩ := h.2 i hi
      exact ⟨k, by omega, heq, hroom⟩
  | buffer v w => exact ⟨by have := h.1; omega, h.2⟩
  | used v w => exact ⟨by have := h.1; omega, h.2⟩
  | pushIndex v => exact ⟨by have := h.1; omega, h.2⟩
  | index v i w => exact ⟨by have := h.1; omega, h.2⟩

/-- The popping thread writes no slot the pushing thread is writing. -/
theorem ProducerOk.slot {W R : ℕ} {slot slot' : Entry B} {pc : Producer V}
    (h : ProducerOk lay size W R slot pc) (hslot : W + 2 ≤ R + size → slot' = slot) :
    ProducerOk lay size W R slot' pc := by
  cases pc with
  | idle => trivial
  | full v w r => exact h
  | buffer v w => exact h
  | used v w => exact ⟨h.1, h.2.1, by rw [hslot h.1]; exact h.2.2⟩
  | pushIndex v => exact ⟨h.1, by rw [hslot h.1]; exact h.2⟩
  | index v i w => exact ⟨h.1, by rw [hslot h.1]; exact h.2.1, h.2.2⟩

theorem Loaded.push {W R : ℕ} {w r : Option ℕ} (h : Loaded size W R w r) :
    Loaded size (W + 1) R w r := by
  refine ⟨fun i hi => ?_, h.2⟩
  obtain ⟨k, hRk, hkW, heq⟩ := h.1 i hi
  exact ⟨k, hRk, by omega, heq⟩

/-- A test that finds the two indices different has found an entry. -/
theorem Loaded.lt {W R w r : ℕ} (h : Loaded size W R (some w) (some r)) (hne : w ≠ r) : R < W := by
  obtain ⟨k, hRk, hkW, rfl⟩ := h.1 w rfl
  obtain rfl := h.2 r rfl
  rcases Nat.lt_or_eq_of_le hRk with hlt | rfl
  · omega
  · exact absurd rfl hne

theorem Loaded.none (W R : ℕ) : Loaded size W R none none := ⟨nofun, nofun⟩

theorem ConsumerOk.push {W R : ℕ} {next next' : Option V} {pc : Consumer B}
    (h : ConsumerOk lay size W R next pc) (hnext : R < W → next' = next) :
    ConsumerOk lay size (W + 1) R next' pc := by
  have hlt : R < W → R < W + 1 := fun h => by omega
  cases pc with
  | poll w r => exact Loaded.push h
  | current w r => exact Loaded.push h
  | entry => exact hlt h
  | buffer slot => exact ⟨hlt h.1, h.2⟩
  | used slot b => exact ⟨hlt h.1, h.2.1, by rw [hnext h.1]; exact h.2.2⟩
  | pop slot e w r => exact ⟨hlt h.1, h.2.1, by rw [hnext h.1]; exact h.2.2.1, h.2.2.2.push⟩
  | compare slot e => exact ⟨hlt h.1, h.2.1, by rw [hnext h.1]; exact h.2.2⟩
  | clearBuffer e r => exact ⟨hlt h.1, by rw [hnext h.1]; exact h.2.1, h.2.2⟩
  | clearUsed e r => exact ⟨hlt h.1, by rw [hnext h.1]; exact h.2.1, h.2.2⟩
  | index e r => exact ⟨hlt h.1, by rw [hnext h.1]; exact h.2.1, h.2.2⟩
  | failed => exact h

theorem ConsumerOk.start (W R : ℕ) (next : Option V) : ConsumerOk lay size W R next lay.start := by
  unfold Layout.start
  split
  · exact Loaded.none W R
  · exact Loaded.none W R

theorem inv_init (hsize : 1 ≤ size) (slots : ℕ → Entry B) : Inv lay size (init lay slots) where
  write := (Nat.zero_mod size).symm
  read := (Nat.zero_mod size).symm
  le := le_rfl
  room := by
    show 0 + 1 ≤ 0 + size
    omega
  order := rfl
  contents := nofun
  producer := trivial
  consumer := ConsumerOk.start 0 0 none

variable {s s' : State V B}

theorem Inv.contents_update (h : Inv lay size s)
    (hroom : s.pushed.length + 2 ≤ s.popped.length + size) (e : Entry B) (i : ℕ) (v : V)
    (hv : s.pushed[i]? = some v) (hi : s.popped.length ≤ i)
    (hclear : s.consumer.Clearing → i ≠ s.popped.length) :
    Stored lay v (Function.update s.slots (s.pushed.length % size) e (i % size)) := by
  have hlt : i < s.pushed.length := (List.getElem?_eq_some_iff.mp hv).1
  rw [Function.update_of_ne (mod_ne_mod hlt (by omega))]
  exact h.contents i v hv hi hclear

theorem Inv.producerStep (h : Inv lay size s) (hstep : ProducerStep lay size s s') :
    Inv lay size s' := by
  have hp := h.producer
  cases hstep with
  | loadWrite hpc =>
      rw [hpc] at hp
      exact { h with producer := ⟨fun i hi => Option.some.inj hi ▸ h.write, hp.2⟩ }
  | loadRead hpc =>
      rw [hpc] at hp
      refine { h with producer := ⟨hp.1, fun i hi => ⟨s.popped.length, le_rfl, ?_, h.room⟩⟩ }
      exact Option.some.inj hi ▸ h.read
  | full hpc hfull =>
      exact { h with producer := ⟨nofun, nofun⟩ }
  | room hpc hroom =>
      rw [hpc] at hp
      obtain rfl := hp.1 _ rfl
      obtain ⟨k, hk, rfl, hle⟩ := hp.2 _ rfl
      rw [nextIndex_mod] at hroom
      have hne : s.pushed.length + 1 ≠ k + size := by
        intro heq
        rw [heq, Nat.add_mod_right] at hroom
        exact hroom rfl
      have hfree : s.pushed.length + 2 ≤ s.popped.length + size := by omega
      exact { h with producer := ⟨hfree, nofun⟩ }
  | loadBuffer hpc =>
      rw [hpc] at hp
      exact { h with producer := ⟨hp.1, fun i hi => Option.some.inj hi ▸ h.write⟩ }
  | storeBuffer hpc =>
      rw [hpc] at hp
      obtain rfl := hp.2 _ rfl
      refine { h with contents := h.contents_update hp.1 _, producer := ⟨hp.1, nofun, ?_⟩ }
      exact ⟨_, congrArg Prod.fst (Function.update_self (s.pushed.length % size) _ s.slots)⟩
  | loadUsed hpc =>
      rw [hpc] at hp
      exact { h with producer := ⟨hp.1, fun i hi => Option.some.inj hi ▸ h.write, hp.2.2⟩ }
  | storeUsed hpc =>
      rw [hpc] at hp
      obtain rfl := hp.2.1 _ rfl
      obtain ⟨old, hold⟩ := hp.2.2
      refine { h with contents := h.contents_update hp.1 _, producer := ⟨hp.1, old, ?_⟩ }
      exact (Function.update_self (s.pushed.length % size) _ s.slots).trans (congrArg (·, _) hold)
  | loadPushIndex hpc =>
      rw [hpc] at hp
      exact { h with producer := ⟨hp.1, hp.2, h.write, nofun⟩ }
  | loadIndex hpc =>
      rw [hpc] at hp
      refine { h with producer := ⟨hp.1, hp.2.1, hp.2.2.1, fun i hi => ?_⟩ }
      exact Option.some.inj hi ▸ h.write

theorem Inv.publish (h : Inv lay size s) {v : V} {i w : ℕ} (hpc : s.producer = .index v i (some w)) :
    Inv lay size (s.publish size v w) := by
  have hp := h.producer
  rw [hpc] at hp
  obtain ⟨hroom, hstored, -, hw⟩ := hp
  obtain rfl := hw _ rfl
  have hlength : (s.pushed ++ [v]).length = s.pushed.length + 1 := List.length_append
  exact {
    write := by
      show nextIndex size _ = (s.pushed ++ [v]).length % size
      rw [nextIndex_mod, hlength]
    read := h.read
    le := by
      show s.popped.length ≤ (s.pushed ++ [v]).length
      have hle := h.le
      omega
    room := by
      show (s.pushed ++ [v]).length + 1 ≤ s.popped.length + size
      omega
    order := by
      show _ = (s.pushed ++ [v]).take s.popped.length
      rw [List.take_append_of_le_length h.le]
      exact h.order
    contents := by
      intro i u hu hi hclear
      change (s.pushed ++ [v])[i]? = some u at hu
      rcases Nat.lt_or_ge i s.pushed.length with hlt | hge
      · rw [List.getElem?_append_left hlt] at hu
        exact h.contents i u hu hi hclear
      · have hlt := (List.getElem?_eq_some_iff.mp hu).1
        obtain rfl : i = s.pushed.length := by omega
        rw [List.getElem?_concat_length] at hu
        obtain rfl := Option.some.inj hu
        exact hstored
    producer := trivial
    consumer := by
      show ConsumerOk lay size (s.pushed ++ [v]).length _ (s.pushed ++ [v])[s.popped.length]? _
      rw [hlength]
      exact h.consumer.push fun hlt => List.getElem?_append_left hlt }

/-- A slot the popping thread clears holds the entry it is popping. -/
theorem Inv.clear (h : Inv lay size s) {pc : Consumer B} (hpc : pc.Clearing)
    (hlt : s.popped.length < s.pushed.length) (e : Entry B)
    (hok : ConsumerOk lay size s.pushed.length s.popped.length s.pushed[s.popped.length]? pc) :
    Inv lay size { s with
      slots := Function.update s.slots (s.popped.length % size) e
      consumer := pc } where
  write := h.write
  read := h.read
  le := h.le
  room := h.room
  order := h.order
  contents := by
    intro i v hv hi hclear
    have hne : i ≠ s.popped.length := hclear hpc
    have hlength : i < s.pushed.length := (List.getElem?_eq_some_iff.mp hv).1
    have hroom := h.room
    change s.popped.length ≤ i at hi
    have hmod : s.popped.length % size ≠ i % size := mod_ne_mod (by omega) (by omega)
    show Stored lay v (Function.update s.slots (s.popped.length % size) e (i % size))
    rw [Function.update_of_ne hmod.symm]
    exact h.contents i v hv hi fun _ => hne
  producer := by
    refine h.producer.slot fun hroom => ?_
    exact Function.update_of_ne (mod_ne_mod hlt (by omega)).symm _ _
  consumer := hok

theorem Inv.popped (h : Inv lay size s) {e : Entry B} {r : ℕ} (hpc : s.consumer = .index e (some r)) :
    Inv lay size { s with
      readIndex := nextIndex size r
      consumer := lay.start
      popped := s.popped ++ [e] } := by
  have hc := h.consumer
  rw [hpc] at hc
  obtain ⟨hlt, ⟨v, hv, hstored⟩, hr⟩ := hc
  obtain rfl := hr _ rfl
  have hlength : (s.popped ++ [e]).length = s.popped.length + 1 := List.length_append
  exact {
    write := h.write
    read := by
      show nextIndex size _ = (s.popped ++ [e]).length % size
      rw [nextIndex_mod, hlength]
    le := by
      show (s.popped ++ [e]).length ≤ s.pushed.length
      omega
    room := by
      show s.pushed.length + 1 ≤ (s.popped ++ [e]).length + size
      have hroom := h.room
      omega
    order := by
      show (s.popped ++ [e]).map _ = s.pushed.take (s.popped ++ [e]).length
      rw [hlength, List.map_append, h.order, List.take_add_one, Option.mem_def.mp hv]
      exact congrArg (fun u => s.pushed.take s.popped.length ++ [u]) hstored.read_eq
    contents := by
      intro i u hu hi _
      change (s.popped ++ [e]).length ≤ i at hi
      exact h.contents i u hu (by omega) fun _ => by omega
    producer := by
      show ProducerOk lay size _ (s.popped ++ [e]).length _ _
      rw [hlength]
      exact h.producer.pop
    consumer := ConsumerOk.start _ _ _ }

/-- The slot the read index points to holds the value to pop. -/
theorem Inv.next (h : Inv lay size s) (hlt : s.popped.length < s.pushed.length)
    (hpc : ¬ s.consumer.Clearing) :
    ∃ v ∈ s.pushed[s.popped.length]?, Stored lay v (s.slots (s.popped.length % size)) := by
  have hv := List.getElem?_eq_getElem hlt
  exact ⟨_, hv, h.contents _ _ hv le_rfl fun hclear => absurd hclear hpc⟩

theorem Inv.loadedWrite (h : Inv lay size s) {w r : Option ℕ}
    (hl : Loaded size s.pushed.length s.popped.length w r) :
    Loaded size s.pushed.length s.popped.length (some s.writeIndex) r := by
  refine ⟨fun i hi => ⟨s.pushed.length, h.le, le_rfl, ?_⟩, hl.2⟩
  exact Option.some.inj hi ▸ h.write

theorem Inv.loadedRead (h : Inv lay size s) {w r : Option ℕ}
    (hl : Loaded size s.pushed.length s.popped.length w r) :
    Loaded size s.pushed.length s.popped.length w (some s.readIndex) :=
  ⟨hl.1, fun _ hi => Option.some.inj hi ▸ h.read⟩

/-- A step of the popping thread that touches neither slots nor indices. -/
theorem Inv.move (h : Inv lay size s) {pc : Consumer B} (hclear : s.consumer.Clearing → pc.Clearing)
    (hok : ConsumerOk lay size s.pushed.length s.popped.length s.pushed[s.popped.length]? pc) :
    Inv lay size { s with consumer := pc } :=
  { h with
    contents := fun i v hv hi hpc => h.contents i v hv hi fun hc => hpc (hclear hc)
    consumer := hok }

theorem Inv.consumerStep (h : Inv lay size s) (hstep : ConsumerStep lay size s s') :
    Inv lay size s' := by
  have hc := h.consumer
  cases hstep with
  | pollWrite hpc =>
      rw [hpc] at hc
      exact h.move (by rw [hpc]; exact id) (h.loadedWrite hc)
  | pollRead hpc =>
      rw [hpc] at hc
      exact h.move (by rw [hpc]; exact id) (h.loadedRead hc)
  | pollEmpty hpc => exact h.move (by rw [hpc]; exact id) (Loaded.none _ _)
  | pollEntry hpc hne => exact h.move (by rw [hpc]; exact id) (Loaded.none _ _)
  | currentWrite hpc =>
      rw [hpc] at hc
      exact h.move (by rw [hpc]; exact id) (h.loadedWrite hc)
  | currentRead hpc =>
      rw [hpc] at hc
      exact h.move (by rw [hpc]; exact id) (h.loadedRead hc)
  | currentEmpty hpc => exact h.move (by rw [hpc]; exact id) (Loaded.none _ _)
  | currentEntry hpc hne =>
      rw [hpc] at hc
      exact h.move (by rw [hpc]; exact id) (Loaded.lt hc hne)
  | entry hpc =>
      rw [hpc] at hc
      exact h.move (by rw [hpc]; exact id) ⟨hc, h.read⟩
  | buffer hpc =>
      rw [hpc] at hc
      obtain ⟨hlt, rfl⟩ := hc
      obtain ⟨v, hv, old, hold⟩ := h.next hlt (by rw [hpc]; exact id)
      exact h.move (by rw [hpc]; exact id) ⟨hlt, rfl, v, hv, old, congrArg Prod.fst hold⟩
  | used hpc hnull =>
      rw [hpc] at hc
      obtain ⟨hlt, rfl, v, hv, old, rfl⟩ := hc
      obtain ⟨u, hu, old', hold⟩ := h.next hlt (by rw [hpc]; exact id)
      obtain rfl := Option.mem_unique hv hu
      refine h.move (by rw [hpc]; exact id) ⟨hlt, rfl, ⟨v, hv, old, ?_⟩, Loaded.none _ _⟩
      rw [hold]
  | copied hpc hnull =>
      rw [hpc] at hc
      obtain ⟨hlt, rfl, v, hv, old, rfl⟩ := hc
      obtain ⟨u, hu, old', hold⟩ := h.next hlt (by rw [hpc]; exact id)
      obtain rfl := Option.mem_unique hv hu
      refine h.move (by rw [hpc]; exact False.elim) ⟨hlt, ⟨v, hv, old, ?_⟩, nofun⟩
      rw [hold]
  | popWrite hpc =>
      rw [hpc] at hc
      exact h.move (by rw [hpc]; exact id) ⟨hc.1, hc.2.1, hc.2.2.1, h.loadedWrite hc.2.2.2⟩
  | popRead hpc =>
      rw [hpc] at hc
      exact h.move (by rw [hpc]; exact id) ⟨hc.1, hc.2.1, hc.2.2.1, h.loadedRead hc.2.2.2⟩
  | popEmpty hpc =>
      rw [hpc] at hc
      exact h.move (by rw [hpc]; exact id) ⟨hc.1, hc.2.1, hc.2.2.1, Loaded.none _ _⟩
  | popEntry hpc hne =>
      rw [hpc] at hc
      exact h.move (by rw [hpc]; exact id) ⟨hc.1, hc.2.1, hc.2.2.1⟩
  | same hpc hslot =>
      rw [hpc] at hc
      exact h.move (by rw [hpc]; exact id) ⟨hc.1, hc.2.2, nofun⟩
  | different hpc hslot =>
      rw [hpc] at hc
      exact absurd (hc.2.1.trans h.read.symm) hslot
  | loadBuffer hpc =>
      rw [hpc] at hc
      exact h.move (by rw [hpc]; exact id) ⟨hc.1, hc.2.1, fun i hi => Option.some.inj hi ▸ h.read⟩
  | clearBuffer hpc hnull =>
      rw [hpc] at hc
      obtain ⟨hlt, hheld, hr⟩ := hc
      obtain rfl := hr _ rfl
      exact h.clear (by exact trivial) hlt _ ⟨hlt, hheld, nofun⟩
  | loadUsed hpc =>
      rw [hpc] at hc
      exact h.move (fun _ => trivial) ⟨hc.1, hc.2.1, fun i hi => Option.some.inj hi ▸ h.read⟩
  | clearUsed hpc =>
      rw [hpc] at hc
      obtain ⟨hlt, hheld, hr⟩ := hc
      obtain rfl := hr _ rfl
      exact h.clear (by exact trivial) hlt _ ⟨hlt, hheld, nofun⟩
  | loadIndex hpc =>
      rw [hpc] at hc
      exact h.move (fun _ => trivial) ⟨hc.1, hc.2.1, fun i hi => Option.some.inj hi ▸ h.read⟩
  | storeIndex hpc => exact h.popped hpc

theorem Inv.step (h : Inv lay size s) (hstep : Step lay size s s') : Inv lay size s' := by
  cases hstep with
  | call value hpc => exact { h with producer := ⟨nofun, nofun⟩ }
  | producer hp => exact h.producerStep hp
  | publish hpc => exact h.publish hpc
  | consumer hc => exact h.consumerStep hc

theorem reachable_inv (hsize : 1 ≤ size) (hs : Reachable lay size s) : Inv lay size s := by
  induction hs with
  | start slots => exact inv_init hsize slots
  | next _ hstep ih => exact ih.step hstep

end Invariant

section VectorPush

variable (bufferSize sizeofT size : ℕ)

def bytesToCopy (totalBytes bytesProcessed : ℕ) : ℕ :=
  let remainingBytes := totalBytes - bytesProcessed
  min (remainingBytes - remainingBytes % sizeofT) bufferSize

/-- The bytes one turn of `push`'s loop copies. -/
def chunk (data : List Byte) (bytesProcessed : ℕ) : List Byte :=
  (data.drop (bytesProcessed / sizeofT * sizeofT)).take
    (bytesToCopy bufferSize sizeofT data.length bytesProcessed)

/-- A thread that pushes vectors, given by their bytes, one after the other: the vectors not pushed
yet, and how much of the first one is. -/
structure Pushing where
  ring : State (List Byte) (List Byte)
  vectors : List (List Byte)
  bytesProcessed : ℕ

inductive Pushing.Step : Pushing → Pushing → Prop
  | call {s data rest} (hdata : s.vectors = data :: rest) (hmore : s.bytesProcessed < data.length)
      (h : s.ring.producer = .idle) :
      Step s { s with ring := s.ring.call (chunk bufferSize sizeofT data s.bytesProcessed) }
  | producer {s r} (h : ProducerStep copyRing size s.ring r) : Step s { s with ring := r }
  | publish {s data rest v i w} (hdata : s.vectors = data :: rest)
      (h : s.ring.producer = .index v i (some w)) :
      Step s { s with
        ring := s.ring.publish size v w
        bytesProcessed := s.bytesProcessed +
          bytesToCopy bufferSize sizeofT data.length s.bytesProcessed }
  | finish {s data rest} (hdata : s.vectors = data :: rest) (hdone : ¬ s.bytesProcessed < data.length)
      (h : s.ring.producer = .idle) : Step s { s with vectors := rest, bytesProcessed := 0 }
  | consumer {s r} (h : ConsumerStep copyRing size s.ring r) : Step s { s with ring := r }

inductive Pushing.Reachable (vectors : List (List Byte)) : Pushing → Prop
  | start (slots : ℕ → Entry (List Byte)) : Reachable vectors ⟨init copyRing slots, vectors, 0⟩
  | next {s s'} (hs : Reachable vectors s) (hstep : Step bufferSize sizeofT size s s') :
      Reachable vectors s'

variable {bufferSize sizeofT size}

/-- The value being pushed. -/
def Producer.value {V : Type} : Producer V → Option V
  | .idle => none
  | .full v _ _ | .buffer v _ | .used v _ | .pushIndex v | .index v _ _ => some v

theorem ProducerStep.value {V B : Type} {lay : Layout V B} {s s' : State V B}
    (h : ProducerStep lay size s s') :
    s'.producer.value = s.producer.value ∧ s'.pushed = s.pushed := by
  cases h <;> exact ⟨by simp only [*]; rfl, rfl⟩

theorem ConsumerStep.value {V B : Type} {lay : Layout V B} {s s' : State V B}
    (h : ConsumerStep lay size s s') : s'.producer = s.producer ∧ s'.pushed = s.pushed := by
  cases h <;> exact ⟨rfl, rfl⟩

theorem bytesToCopy_eq {total done : ℕ} (htotal : sizeofT ∣ total) (hdone : sizeofT ∣ done) :
    bytesToCopy bufferSize sizeofT total done = min (total - done) bufferSize := by
  rw [bytesToCopy, Nat.mod_eq_zero_of_dvd (Nat.dvd_sub htotal hdone)]
  rfl

theorem Pushing.Reachable.ring {vectors : List (List Byte)} {s : Pushing}
    (hs : Reachable bufferSize sizeofT size vectors s) : SendRing.Reachable copyRing size s.ring := by
  induction hs with
  | start slots => exact .start slots
  | next _ hstep ih =>
      cases hstep with
      | call hdata hmore hpc => exact ih.next (.call _ hpc)
      | producer hp => exact ih.next (.producer hp)
      | publish hdata hpc => exact ih.next (.publish hpc)
      | finish hdata hdone hpc => exact ih
      | consumer hc => exact ih.next (.consumer hc)

/-- What has been pushed and what has not are together the bytes of the vectors. -/
structure Pushing.Inv (bufferSize sizeofT : ℕ) (vectors : List (List Byte)) (s : Pushing) : Prop where
  bytes : s.ring.pushed.flatten ++ s.vectors.flatten.drop s.bytesProcessed = vectors.flatten
  aligned : sizeofT ∣ s.bytesProcessed
  sizes : ∀ data ∈ s.vectors, sizeofT ∣ data.length
  processed : s.bytesProcessed ≤ (s.vectors.headD []).length
  value : ∀ v ∈ s.ring.producer.value, ∃ data rest, s.vectors = data :: rest ∧
    v = chunk bufferSize sizeofT data s.bytesProcessed
  fits : ∀ v ∈ s.ring.pushed, v.length ≤ bufferSize

theorem chunk_append_drop {data : List Byte} {done : ℕ} (hdata : sizeofT ∣ data.length)
    (hdone : sizeofT ∣ done) (hle : done ≤ data.length) (rest : List Byte) :
    chunk bufferSize sizeofT data done ++
      (data ++ rest).drop (done + bytesToCopy bufferSize sizeofT data.length done) =
      (data ++ rest).drop done := by
  have hcopy : bytesToCopy bufferSize sizeofT data.length done = min (data.length - done) bufferSize :=
    bytesToCopy_eq hdata hdone
  have hlen : bytesToCopy bufferSize sizeofT data.length done ≤ (data.drop done).length := by
    rw [hcopy, List.length_drop]
    exact min_le_left _ _
  rw [chunk, Nat.div_mul_cancel hdone, List.drop_append_of_le_length hle, ← List.drop_drop,
    List.drop_append_of_le_length hle, ← List.take_append_of_le_length hlen, List.take_append_drop]

theorem length_chunk_le (data : List Byte) (done : ℕ) :
    (chunk bufferSize sizeofT data done).length ≤ bufferSize := by
  rw [chunk, List.length_take]
  exact (min_le_left _ _).trans (min_le_right _ _)

theorem Pushing.Inv.step {vectors : List (List Byte)} {s s' : Pushing} (hbuffer : sizeofT ∣ bufferSize)
    (h : Inv bufferSize sizeofT vectors s) (hstep : Step bufferSize sizeofT size s s') :
    Inv bufferSize sizeofT vectors s' := by
  cases hstep with
  | call hdata hmore hpc =>
      exact { h with
        value := fun v hv => ⟨_, _, hdata, (Option.some.inj hv).symm⟩ }
  | producer hp =>
      obtain ⟨hvalue, hpushed⟩ := hp.value
      exact { h with
        bytes := by rw [← h.bytes, ← hpushed]
        value := fun v hv => h.value v (hvalue ▸ hv)
        fits := fun v hv => h.fits v (hpushed ▸ hv) }
  | @publish data rest v i w hdata hpc =>
      have hsize : sizeofT ∣ data.length := h.sizes data (hdata ▸ List.mem_cons_self)
      have hcopy : bytesToCopy bufferSize sizeofT data.length s.bytesProcessed =
          min (data.length - s.bytesProcessed) bufferSize := bytesToCopy_eq hsize h.aligned
      have hle : s.bytesProcessed ≤ data.length := by
        have hprocessed := h.processed
        rwa [hdata] at hprocessed
      obtain ⟨data', rest', hdata', rfl⟩ := h.value v (by rw [hpc]; rfl)
      obtain ⟨rfl, rfl⟩ := List.cons.inj (hdata.symm.trans hdata')
      exact {
        bytes := by
          have hbytes := h.bytes
          rw [hdata, List.flatten_cons] at hbytes
          show (s.ring.pushed ++ [_]).flatten ++ s.vectors.flatten.drop _ = _
          rw [List.flatten_concat, List.append_assoc, hdata, List.flatten_cons,
            chunk_append_drop hsize h.aligned hle, hbytes]
        aligned := by
          show sizeofT ∣ s.bytesProcessed + _
          rw [hcopy]
          apply Nat.dvd_add h.aligned
          rcases min_choice (data.length - s.bytesProcessed) bufferSize with heq | heq
          · rw [heq]
            exact Nat.dvd_sub hsize h.aligned
          · rw [heq]
            exact hbuffer
        sizes := h.sizes
        processed := by
          show s.bytesProcessed + _ ≤ (s.vectors.headD []).length
          have hmin := min_le_left (data.length - s.bytesProcessed) bufferSize
          rw [hcopy, hdata, List.headD_cons]
          omega
        value := nofun
        fits := by
          intro u hu
          rcases List.mem_append.mp hu with hu | hu
          · exact h.fits u hu
          · rw [List.mem_singleton.mp hu]
            exact length_chunk_le _ _ }
  | @finish data rest hdata hdone hpc =>
      have hle : s.bytesProcessed ≤ data.length := by
        have hprocessed := h.processed
        rwa [hdata] at hprocessed
      have hall : s.bytesProcessed = data.length := by omega
      have hbytes := h.bytes
      rw [hdata, List.flatten_cons, hall, List.drop_left] at hbytes
      exact { h with
        bytes := hbytes
        aligned := Nat.dvd_zero sizeofT
        sizes := fun u hu => h.sizes u (hdata ▸ List.mem_cons_of_mem _ hu)
        processed := Nat.zero_le _
        value := by
          intro v hv
          rw [hpc] at hv
          exact absurd hv nofun }
  | consumer hc =>
      obtain ⟨hproducer, hpushed⟩ := hc.value
      exact { h with
        bytes := by rw [← h.bytes, ← hpushed]
        value := fun v hv => h.value v (hproducer ▸ hv)
        fits := fun v hv => h.fits v (hpushed ▸ hv) }

theorem Pushing.reachable_inv {vectors : List (List Byte)} {s : Pushing} (hbuffer : sizeofT ∣ bufferSize)
    (hvectors : ∀ data ∈ vectors, sizeofT ∣ data.length)
    (hs : Reachable bufferSize sizeofT size vectors s) : Inv bufferSize sizeofT vectors s := by
  induction hs with
  | start slots =>
      exact {
        bytes := rfl
        aligned := Nat.dvd_zero sizeofT
        sizes := hvectors
        processed := Nat.zero_le _
        value := nofun
        fits := nofun }
  | next _ hstep ih => exact ih.step hbuffer hstep

end VectorPush

section Channel

variable {V B : Type}

def State.pending (s : State V B) : ℕ := s.pushed.length - s.popped.length

/-- What has been popped so far, as values. -/
def State.values (lay : Layout V B) (s : State V B) : List V :=
  s.popped.map fun e => lay.read e.1 e.2

/-- The pushing thread has found room. -/
def Producer.Proceeds : Producer V → Prop
  | .idle | .full _ _ _ => False
  | _ => True

/-- The entry the popping thread has read from its slot. -/
def Consumer.taken : Consumer B → Option (Entry B)
  | .pop _ e _ _ | .compare _ e | .clearBuffer e _ | .clearUsed e _ | .index e _ => some e
  | _ => none

/-- A ring as a channel: the values popped are the first ones pushed, in their order; those not popped
lie in their slots; a push goes on only into a free slot, with one slot always left, and what a pop
takes is the next value pushed. -/
structure Channel (lay : Layout V B) (size : ℕ) (s : State V B) : Prop where
  popped_le : s.popped.length ≤ s.pushed.length
  order : s.values lay = s.pushed.take s.popped.length
  intact : ∀ i v, s.pushed[i]? = some v → s.popped.length ≤ i →
    (s.consumer.Clearing → i ≠ s.popped.length) → Stored lay v (s.slots (i % size))
  bounded : s.pending ≤ size - 1
  room : s.producer.Proceeds → s.pending < size - 1
  written : ∀ e ∈ s.consumer.taken, ∃ v ∈ s.pushed[s.popped.length]?, lay.read e.1 e.2 = v
  passes : s.consumer ≠ .failed

variable {lay : Layout V B} {size : ℕ} {s : State V B}

theorem Held.read_eq {next : Option V} {e : Entry B} (h : Held lay next e) :
    ∃ v ∈ next, lay.read e.1 e.2 = v := by
  obtain ⟨v, hv, hstored⟩ := h
  exact ⟨v, hv, hstored.read_eq⟩

theorem ProducerOk.room {W R : ℕ} {slot : Entry B} {pc : Producer V}
    (h : ProducerOk lay size W R slot pc) (hp : pc.Proceeds) : W + 2 ≤ R + size := by
  cases pc with
  | idle => exact absurd hp id
  | full v w r => exact absurd hp id
  | buffer v w => exact h.1
  | used v w => exact h.1
  | pushIndex v => exact h.1
  | index v i w => exact h.1

theorem ConsumerOk.held {W R : ℕ} {next : Option V} {pc : Consumer B} {e : Entry B}
    (h : ConsumerOk lay size W R next pc) (he : e ∈ pc.taken) : Held lay next e := by
  cases pc with
  | pop slot e' w r => exact Option.some.inj he ▸ h.2.2.1
  | compare slot e' => exact Option.some.inj he ▸ h.2.2
  | clearBuffer e' r => exact Option.some.inj he ▸ h.2.1
  | clearUsed e' r => exact Option.some.inj he ▸ h.2.1
  | index e' r => exact Option.some.inj he ▸ h.2.1
  | poll w r => exact absurd he nofun
  | current w r => exact absurd he nofun
  | entry => exact absurd he nofun
  | buffer slot => exact absurd he nofun
  | used slot b => exact absurd he nofun
  | failed => exact absurd he nofun

theorem Inv.channel (h : Inv lay size s) : Channel lay size s where
  popped_le := h.le
  order := h.order
  intact := h.contents
  bounded := by
    have hroom := h.room
    rw [State.pending]
    omega
  room := by
    intro hp
    have hroom := h.producer.room hp
    have hle := h.le
    rw [State.pending]
    omega
  written := fun e he => (h.consumer.held he).read_eq
  passes := by
    intro hpc
    have hc := h.consumer
    rw [hpc] at hc
    exact hc

theorem Pushing.Inv.values {bufferSize sizeofT : ℕ} {vectors : List (List Byte)} {p : Pushing}
    (h : Inv bufferSize sizeofT vectors p) (hring : SendRing.Inv copyRing size p.ring) :
    (p.ring.values copyRing).flatten <+: vectors.flatten ∧
      (p.vectors = [] → p.ring.pending = 0 → (p.ring.values copyRing).flatten = vectors.flatten) := by
  have horder : p.ring.values copyRing = p.ring.pushed.take p.ring.popped.length := hring.order
  rw [horder, ← h.bytes]
  constructor
  · have hsplit := List.take_append_drop p.ring.popped.length p.ring.pushed
    nth_rewrite 2 [← hsplit]
    rw [List.flatten_append, List.append_assoc]
    exact List.prefix_append _ _
  · intro hvectors hpending
    have hle := hring.le
    have hall : p.ring.pushed.length ≤ p.ring.popped.length := by
      rw [State.pending] at hpending
      omega
    rw [List.take_of_length_le hall, hvectors, List.flatten_nil, List.drop_nil, List.append_nil]

theorem send_rings_fifo :
    (∀ (V B : Type) (lay : Layout V B) (size : ℕ) (s : State V B), 2 ≤ size → Reachable lay size s →
      Channel lay size s) ∧
    ∀ (bufferSize sizeofT size : ℕ) (vectors : List (List Byte)) (p : Pushing), 2 ≤ size →
      sizeofT ∣ bufferSize → (∀ data ∈ vectors, sizeofT ∣ data.length) →
      Pushing.Reachable bufferSize sizeofT size vectors p →
      Channel copyRing size p.ring ∧ (∀ v ∈ p.ring.pushed, v.length ≤ bufferSize) ∧
      (p.ring.values copyRing).flatten <+: vectors.flatten ∧
      (p.vectors = [] → p.ring.pending = 0 →
        (p.ring.values copyRing).flatten = vectors.flatten) := by
  refine ⟨fun V B lay size s hsize hs => (reachable_inv (by omega) hs).channel, ?_⟩
  intro bufferSize sizeofT size vectors p hsize hbuffer hvectors hp
  have hring := SendRing.reachable_inv (by omega) hp.ring
  have hinv := Pushing.reachable_inv hbuffer hvectors hp
  exact ⟨hring.channel, hinv.fits, hinv.values hring⟩

/-- Both threads are between two calls. -/
structure Pushing.Resting (writeIndex readIndex : ℕ) (chunks : List (List Byte)) (pops : ℕ)
    (s : Pushing) : Prop where
  producer : s.ring.producer = .idle
  consumer : s.ring.consumer = .current none none
  write : s.ring.writeIndex = writeIndex
  read : s.ring.readIndex = readIndex
  pushed : s.ring.pushed = chunks
  popped : s.ring.popped.length = pops

section Runs

variable {bufferSize sizeofT : ℕ} {vectors : List (List Byte)} {p : Pushing}
  {w r pops : ℕ} {chunks : List (List Byte)}

/-- With room left, the next turn of `push`'s loop goes through. -/
theorem Pushing.Reachable.push {data : List Byte} {rest : List (List Byte)}
    (hp : Reachable bufferSize sizeofT size vectors p) (hrest : p.Resting w r chunks pops)
    (hdata : p.vectors = data :: rest) (hmore : p.bytesProcessed < data.length)
    (hroom : nextIndex size w ≠ r) :
    ∃ p', Reachable bufferSize sizeofT size vectors p' ∧
      p'.Resting (nextIndex size w) r
        (chunks ++ [chunk bufferSize sizeofT data p.bytesProcessed]) pops ∧
      p'.vectors = data :: rest ∧ p'.bytesProcessed = p.bytesProcessed +
        bytesToCopy bufferSize sizeofT data.length p.bytesProcessed := by
  obtain ⟨⟨w, r, slots, pc, cc, chunks, popped⟩, vectors', done⟩ := p
  obtain ⟨rfl, rfl, rfl, rfl, rfl, rfl⟩ := hrest
  obtain rfl : vectors' = data :: rest := hdata
  have h1 := hp.next (.call rfl hmore rfl)
  have h2 := (h1.next (.producer (.loadWrite rfl))).next (.producer (.loadRead rfl))
  have h3 := h2.next (.producer (.room rfl hroom))
  have h4 := (h3.next (.producer (.loadBuffer rfl))).next (.producer (.storeBuffer rfl))
  have h5 := (h4.next (.producer (.loadUsed rfl))).next (.producer (.storeUsed rfl))
  have h6 := (h5.next (.producer (.loadPushIndex rfl))).next (.producer (.loadIndex rfl))
  exact ⟨_, h6.next (.publish rfl rfl), ⟨rfl, rfl, rfl, rfl, rfl, rfl⟩, rfl, rfl⟩

/-- When it has copied all of a vector, `push` returns. -/
theorem Pushing.Reachable.finish {data : List Byte} {rest : List (List Byte)}
    (hp : Reachable bufferSize sizeofT size vectors p) (hrest : p.Resting w r chunks pops)
    (hdata : p.vectors = data :: rest) (hdone : ¬ p.bytesProcessed < data.length) :
    ∃ p', Reachable bufferSize sizeofT size vectors p' ∧ p'.Resting w r chunks pops ∧
      p'.vectors = rest ∧ p'.bytesProcessed = 0 :=
  ⟨_, hp.next (.finish hdata hdone hrest.producer), { hrest with }, rfl, rfl⟩

/-- With an entry left, the sending thread sends it and pops it. -/
theorem Pushing.Reachable.pop (hp : Reachable bufferSize sizeofT size vectors p)
    (hrest : p.Resting w r chunks pops) (hne : w ≠ r) :
    ∃ p', Reachable bufferSize sizeofT size vectors p' ∧
      p'.Resting w (nextIndex size r) chunks (pops + 1) ∧
      p'.vectors = p.vectors ∧ p'.bytesProcessed = p.bytesProcessed := by
  obtain ⟨⟨w, r, slots, pc, cc, chunks, popped⟩, vectors', done⟩ := p
  obtain ⟨rfl, rfl, rfl, rfl, rfl, rfl⟩ := hrest
  have h1 := (hp.next (.consumer (.currentWrite rfl))).next (.consumer (.currentRead rfl))
  have h2 := (h1.next (.consumer (.currentEntry rfl hne))).next (.consumer (.entry rfl))
  have h3 := (h2.next (.consumer (.buffer rfl))).next (.consumer (.copied rfl rfl))
  have h4 := (h3.next (.consumer (.loadIndex rfl))).next (.consumer (.storeIndex rfl))
  exact ⟨_, h4, ⟨rfl, rfl, rfl, rfl, rfl, List.length_append⟩, rfl, rfl⟩

/-- Two vectors, the first one in two chunks, through a ring of three slots; the third push takes the
write index back to 0. -/
theorem exists_pushed_vectors :
    ∃ p : Pushing, Pushing.Reachable 4 2 3 [[1, 2, 3, 4, 5, 6], [7, 8]] p ∧
      p.Resting 0 0 [[1, 2, 3, 4], [5, 6], [7, 8]] 3 ∧ p.vectors = [] := by
  have h0 : Pushing.Reachable 4 2 3 [[1, 2, 3, 4, 5, 6], [7, 8]] _ := .start fun _ => ([], 0)
  obtain ⟨p1, h1, r1, v1, d1⟩ := h0.push ⟨rfl, rfl, rfl, rfl, rfl, rfl⟩ rfl (by decide) (by decide)
  obtain ⟨p2, h2, r2, v2, d2⟩ := h1.push r1 v1 (by rw [d1]; decide) (by decide)
  obtain ⟨p3, h3, r3, v3, d3⟩ := h2.pop r2 (by decide)
  obtain ⟨p4, h4, r4, v4, d4⟩ := h3.finish r3 (v3.trans v2) (by rw [d3, d2, d1]; decide)
  obtain ⟨p5, h5, r5, v5, d5⟩ := h4.push r4 v4 (by rw [d4]; decide) (by decide)
  obtain ⟨p6, h6, r6, v6, d6⟩ := h5.finish r5 v5 (by rw [d5, d4]; decide)
  obtain ⟨p7, h7, r7, v7, d7⟩ := h6.pop r6 (by decide)
  obtain ⟨p8, h8, r8, v8, d8⟩ := h7.pop r7 (by decide)
  rw [d4, d1] at r8
  exact ⟨p8, h8, r8, v8.trans (v7.trans v6)⟩

end Runs

theorem send_rings_fifo_example :
    ∃ p : Pushing, p.ring.pushed = [[1, 2, 3, 4], [5, 6], [7, 8]] ∧ p.ring.writeIndex = 0 ∧
      Channel copyRing 3 p.ring ∧ p.ring.values copyRing = [[1, 2, 3, 4], [5, 6], [7, 8]] ∧
      (p.ring.values copyRing).flatten = [1, 2, 3, 4, 5, 6, 7, 8] := by
  obtain ⟨p, hp, hrest, hvectors⟩ := exists_pushed_vectors
  have hchannel := send_rings_fifo.1 _ _ copyRing 3 p.ring (by decide) hp.ring
  have hbytes := send_rings_fifo.2 4 2 3 _ p (by decide) (by decide) (by decide) hp
  have hpending : p.ring.pending = 0 := by
    rw [State.pending, hrest.pushed, hrest.popped]
    rfl
  refine ⟨p, hrest.pushed, hrest.write, hchannel, ?_, hbytes.2.2.2 hvectors hpending⟩
  rw [hchannel.order, hrest.pushed, hrest.popped]
  rfl

end Channel

end CryptDough.SendRing
