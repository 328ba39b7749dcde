import CryptDough.ProcessStreams

/-! Rounds in which every party sends a vector to each of several parties and takes one from each of
several, and runs in which some parties run other programs than they should, as attacks. -/

namespace CryptDough.Process

open Relation Net

section Exchange

variable {P S W β : Type} {n k : ℕ}

local instance (priority := high) peers (k : ℕ) : @NeZero ℕ Zero.ofOfNat0 (k + 1) :=
  ⟨k.succ_ne_zero⟩

def Proc.sendEach : {k : ℕ} → (Fin k → P) → (Fin k → Fin n → W) → Proc P S W β → Proc P S W β
  | 0, _, _, next => next
  | _ + 1, dst, msg, next =>
      send (dst 0) n (msg 0) (sendEach (fun i => dst i.succ) (fun i => msg i.succ) next)

def Proc.recvEach : {k : ℕ} → (Fin k → P) → ((Fin k → Fin n → W) → Proc P S W β) → Proc P S W β
  | 0, _, next => next fun i => i.elim0
  | _ + 1, src, next => recv (src 0) n fun m => recvEach (fun i => src i.succ) fun ms =>
      next (Fin.cons m ms)

/-- Send one vector to each destination, then take one from each source. -/
def Proc.exchange (dst src : Fin k → P) (msg : Fin k → Fin n → W) : Proc P S W (Fin k → Fin n → W) :=
  sendEach dst msg (recvEach src done)

theorem Proc.sendEach_bind {γ : Type} (dst : Fin k → P) (msg : Fin k → Fin n → W)
    (next : Proc P S W β) (f : β → Proc P S W γ) :
    (sendEach dst msg next).bind f = sendEach dst msg (next.bind f) := by
  induction k with
  | zero => rfl
  | succ k ih => simp only [sendEach, bind, ih]

theorem Proc.recvEach_bind {γ : Type} (src : Fin k → P) (next : (Fin k → Fin n → W) → Proc P S W β)
    (f : β → Proc P S W γ) :
    (recvEach src next).bind f = recvEach src fun m => (next m).bind f := by
  induction k with
  | zero => rfl
  | succ k ih => simp only [recvEach, bind, ih]

theorem Proc.exchange_bind (dst src : Fin k → P) (msg : Fin k → Fin n → W)
    (f : (Fin k → Fin n → W) → Proc P S W β) :
    (exchange dst src msg).bind f = sendEach dst msg (recvEach src f) := by
  rw [exchange, sendEach_bind, recvEach_bind]
  rfl

variable [DecidableEq P] [DecidableEq S]

/-- What goes to party `a` when one vector is sent to each destination. -/
def sentTo : {k : ℕ} → (Fin k → P) → (Fin k → Fin n → W) → P → List W
  | 0, _, _, _ => []
  | _ + 1, dst, msg, a =>
      (if a = dst 0 then List.ofFn (msg 0) else []) ++
        sentTo (fun i => dst i.succ) (fun i => msg i.succ) a

omit [DecidableEq S] in
theorem sentTo_of_ne {dst : Fin k → P} (msg : Fin k → Fin n → W) {a : P} (ha : ∀ i, a ≠ dst i) :
    sentTo dst msg a = [] := by
  induction k with
  | zero => rfl
  | succ k ih => rw [sentTo, if_neg (ha 0), ih _ fun i => ha i.succ, List.nil_append]

omit [DecidableEq S] in
theorem sentTo_dst {dst : Fin k → P} (hdst : Function.Injective dst) (msg : Fin k → Fin n → W)
    (i : Fin k) : sentTo dst msg (dst i) = List.ofFn (msg i) := by
  induction k with
  | zero => exact i.elim0
  | succ k ih =>
      cases i using Fin.cases with
      | zero =>
          have hrest : sentTo (fun i : Fin k => dst i.succ) (fun i => msg i.succ) (dst 0) = [] :=
            sentTo_of_ne _ fun i heq => Fin.succ_ne_zero i (hdst heq).symm
          rw [sentTo, if_pos rfl, hrest, List.append_nil]
      | succ i =>
          have hne : dst i.succ ≠ dst 0 := fun heq => Fin.succ_ne_zero i (hdst heq)
          rw [sentTo, if_neg hne, List.nil_append]
          have htail : Function.Injective fun i : Fin k => dst i.succ :=
            hdst.comp (Fin.succ_injective k)
          exact ih htail _ i

theorem Proc.flush_sendEach (dst : Fin k → P) (msg : Fin k → Fin n → W) (next : Proc P S W β)
    (tape : S → ℕ → W) :
    (sendEach dst msg next).flush tape =
      ((next.flush tape).1, fun a => sentTo dst msg a ++ (next.flush tape).2.1 a,
        (next.flush tape).2.2) := by
  induction k with
  | zero => rfl
  | succ k ih =>
      simp only [sendEach, flush, ih]
      congr 2
      ext a
      rw [sentTo, List.append_assoc]

theorem Proc.flush_recvEach (src : Fin k → P) (tape : S → ℕ → W) :
    (recvEach src done : Proc P S W (Fin k → Fin n → W)).flush tape =
      (recvEach src done, fun _ => [], tape) := by
  cases k with
  | zero => rfl
  | succ k => rfl

omit [DecidableEq S] in
/-- The vectors are taken from the fronts of the streams of the sources. -/
theorem Proc.take_recvEach {src : Fin k → P} (hsrc : Function.Injective src)
    {next : (Fin k → Fin n → W) → Proc P S W β} {ins rest : P → List W} {m : Fin k → Fin n → W}
    (hins : ∀ i, ins (src i) = List.ofFn (m i) ++ rest (src i))
    (hother : ∀ q, (∀ i, q ≠ src i) → ins q = rest q) :
    (recvEach src next).take ins = (next m).take rest := by
  induction k generalizing ins with
  | zero =>
      have hm : (fun i : Fin 0 => i.elim0) = m := funext fun i => i.elim0
      rw [recvEach, hm, funext fun q => hother q fun i => i.elim0]
  | succ k ih =>
      have htail : Function.Injective fun i : Fin k => src i.succ := hsrc.comp (Fin.succ_injective k)
      rw [recvEach, take_recv_append (hins 0), ih htail (m := fun i => m i.succ)]
      · congr 1
        congr 1
        ext i
        cases i using Fin.cases <;> rfl
      · intro i
        have hne : src i.succ ≠ src 0 := fun heq => Fin.succ_ne_zero i (hsrc heq)
        rw [Function.update_of_ne hne, hins]
      · intro q hq
        by_cases hq0 : q = src 0
        · rw [hq0, Function.update_self]
        · rw [Function.update_of_ne hq0]
          refine hother q fun i => ?_
          cases i using Fin.cases with
          | zero => exact hq0
          | succ i => exact hq i

/-- Everybody exchanges vectors with the parties whose sources it is. -/
theorem Computes.exchange [Fintype P] {corr : (P → S → ℕ → W) → Prop} {dst src : P → Fin k → P}
    (hmatch : ∀ p q i, src p i = q ↔ dst q i = p) (hdst : ∀ p, Function.Injective (dst p))
    (hsrc : ∀ p, Function.Injective (src p)) (msg : P → Fin k → Fin n → W) :
    Computes corr (fun p => Proc.exchange (dst p) (src p) (msg p)) fun value =>
      value = fun p i => msg (src p i) i := by
  have hflush : ∀ (tape : P → S → ℕ → W) p, (Proc.exchange (dst p) (src p) (msg p)).flush (tape p) =
      (Proc.recvEach (src p) .done, sentTo (dst p) (msg p), tape p) := by
    intro tape p
    rw [Proc.exchange, Proc.flush_sendEach, Proc.flush_recvEach]
    simp only [List.append_nil]
  have htake : ∀ p, (Proc.recvEach (src p) .done : Proc P S W (Fin k → Fin n → W)).take
      (fun q => sentTo (dst q) (msg q) p) = some (fun i => msg (src p i) i, fun _ => []) := by
    intro p
    refine Proc.take_recvEach (hsrc p) (fun i => ?_) fun q hq => ?_
    · have hp : dst (src p i) i = p := (hmatch p (src p i) i).mp rfl
      have hsent := sentTo_dst (hdst (src p i)) (msg (src p i)) i
      rw [hp] at hsent
      rw [hsent, List.append_nil]
    · exact sentTo_of_ne _ fun i heq => hq i ((hmatch p q i).mpr heq.symm).symm
  exact Computes.of_runs fun tape hcorr =>
    ⟨_, tape, Runs.exchange (hflush tape) htake, hcorr, rfl⟩

theorem Proc.eval_sendEach (dst : Fin k → P) (msg : Fin k → Fin n → W) (next : Proc P S W β)
    (tape : S → ℕ → W) (ins : P → List W) :
    (sendEach dst msg next).eval tape ins = next.eval tape ins := by
  induction k with
  | zero => rfl
  | succ k ih => exact ih _ _

theorem Proc.eval_recvEach {src : Fin k → P} (hsrc : Function.Injective src)
    {next : (Fin k → Fin n → W) → Proc P S W β} {tape : S → ℕ → W} {ins : P → List W} {v : β}
    (heval : (recvEach src next).eval tape ins = some v) :
    ∃ (m : Fin k → Fin n → W) (rest : P → List W),
      (∀ i, ins (src i) = List.ofFn (m i) ++ rest (src i)) ∧ (∀ q, (∀ i, q ≠ src i) → rest q = ins q) ∧
        (next m).eval tape rest = some v := by
  induction k generalizing ins with
  | zero => exact ⟨_, ins, fun i => i.elim0, fun _ _ => rfl, heval⟩
  | succ k ih =>
      obtain ⟨m, rest, hm, heval⟩ := eval_recv heval
      have htail : Function.Injective fun i : Fin k => src i.succ := hsrc.comp (Fin.succ_injective k)
      obtain ⟨ms, rest', hms, hother, heval⟩ := ih htail heval
      have hrest : rest' (src 0) = rest := by
        rw [hother _ fun i heq => Fin.succ_ne_zero i (hsrc heq).symm, Function.update_self]
      refine ⟨Fin.cons m ms, rest', fun i => ?_, fun q hq => ?_, heval⟩
      · cases i using Fin.cases with
        | zero => rw [hm, hrest, Fin.cons_zero]
        | succ i =>
            have hne : src i.succ ≠ src 0 := fun heq => Fin.succ_ne_zero i (hsrc heq)
            rw [Fin.cons_succ, ← hms i, Function.update_of_ne hne]
      · rw [hother q fun i => hq i.succ, Function.update_of_ne (hq 0)]

theorem Proc.Emits.sendEach {next : Proc P S W β} {tape : S → ℕ → W} {full : P → List W}
    (hnext : next.Emits tape full) (dst : Fin k → P) (msg : Fin k → Fin n → W) :
    (Proc.sendEach dst msg next).Emits tape fun a => sentTo dst msg a ++ full a := by
  induction k with
  | zero => exact hnext
  | succ k ih =>
      have hsend := Proc.Emits.send (q := dst 0) (m := msg 0) (ih (fun i => dst i.succ)
        fun i => msg i.succ)
      simp only [← List.append_assoc] at hsend
      exact hsend

theorem Proc.Emits.recvEach {src : Fin k → P} {next : (Fin k → Fin n → W) → Proc P S W β}
    {tape : S → ℕ → W} {full : P → List W} (hnext : ∀ m, (next m).Emits tape full) :
    (Proc.recvEach src next).Emits tape full := by
  induction k with
  | zero => exact hnext _
  | succ k ih => exact Proc.Emits.recv fun m => ih fun ms => hnext _

end Exchange

section Deviations

variable {P S W β : Type} [DecidableEq P] [DecidableEq S]
  {prog prog' : P → Proc P S W β} {tape tape' : P → S → ℕ → W}

/-- A run is an attack in which nobody deviates. -/
theorem Net.Reaches.attacks {d : Net P S W β} (hreach : Reaches (start prog tape) d) :
    ∃ sent, Attacks (fun _ => False) prog tape sent d := by
  induction hreach with
  | refl => exact ⟨_, Attacks.start⟩
  | tail _ hstep ih =>
      obtain ⟨sent, hatt⟩ := ih
      obtain ⟨p, hp⟩ := hstep
      obtain ⟨m, hact, rfl⟩ := step_eq_some.mp hp
      exact ⟨_, Attacks.honest hatt not_false hact⟩

/-- A party that runs another program is one that sends what it likes. -/
theorem Attacks.deviate {bad : P → Prop} {sent : P → P → List W} {d : Net P S W β}
    (hatt : Attacks (fun _ => False) prog' tape' sent d) (hprog : ∀ p, ¬ bad p → prog' p = prog p)
    (htape : ∀ p, ¬ bad p → tape' p = tape p) :
    ∃ net, Attacks bad prog tape sent net ∧ ∀ p, ¬ bad p → net.prog p = d.prog p ∧
      net.tape p = d.tape p ∧ net.inbox p = d.inbox p := by
  induction hatt with
  | start => exact ⟨_, Attacks.start, fun p hp => ⟨(hprog p hp).symm, (htape p hp).symm, rfl⟩⟩
  | inject q msg _ hfalse => exact hfalse.elim
  | @honest sent c r m hatt _ hact ih =>
      obtain ⟨net, hnet, hagree⟩ := ih
      by_cases hr : bad r
      · have hinbox : ∀ p, ¬ bad p → (c.apply r m).inbox p = fun a =>
            net.inbox p a ++ if a = r then m.out p else [] := by
          intro p hp
          have hpr : p ≠ r := fun heq => hp (heq ▸ hr)
          rw [inbox_apply c hpr, (hagree p hp).2.2]
        have hkept : ∀ p, ¬ bad p → (c.apply r m).prog p = c.prog p ∧ (c.apply r m).tape p = c.tape p := by
          intro p hp
          have hpr : p ≠ r := fun heq => hp (heq ▸ hr)
          exact ⟨Function.update_of_ne hpr _ _, Function.update_of_ne hpr _ _⟩
        cases hprog : c.prog r with
        | done v =>
            rw [hprog] at hact
            cases hact
        | send q n msg next =>
            rw [hprog] at hact
            obtain rfl := Option.some.inj hact
            have hsent : (fun a b => sent a b ++ if a = r ∧ b = q then List.ofFn msg else []) =
                fun a b => sent a b ++ if a = r then (if b = q then List.ofFn msg else []) else [] := by
              ext a b
              rw [ite_and]
            refine ⟨_, hsent ▸ Attacks.inject q (List.ofFn msg) hnet hr, fun p hp => ?_⟩
            obtain ⟨hp1, hp2, -⟩ := hagree p hp
            refine ⟨hp1.trans (hkept p hp).1.symm, hp2.trans (hkept p hp).2.symm, ?_⟩
            rw [hinbox p hp]
            funext a
            show net.chan a p ++ _ = _
            rw [ite_and]
            rfl
        | recv q n next =>
            rw [hprog, Proc.act] at hact
            split at hact
            · obtain rfl := Option.some.inj hact
              refine ⟨net, by simpa using hnet, fun p hp => ?_⟩
              obtain ⟨hp1, hp2, -⟩ := hagree p hp
              refine ⟨hp1.trans (hkept p hp).1.symm, hp2.trans (hkept p hp).2.symm, ?_⟩
              rw [hinbox p hp]
              simp
            · cases hact
        | draw s n next =>
            rw [hprog] at hact
            obtain rfl := Option.some.inj hact
            refine ⟨net, by simpa using hnet, fun p hp => ?_⟩
            obtain ⟨hp1, hp2, -⟩ := hagree p hp
            refine ⟨hp1.trans (hkept p hp).1.symm, hp2.trans (hkept p hp).2.symm, ?_⟩
            rw [hinbox p hp]
            simp
      · obtain ⟨hr1, hr2, hr3⟩ := hagree r hr
        have hact' : (net.prog r).act (net.inbox r) (net.tape r) = some m := by
          rw [hr1, hr2, hr3, hact]
        refine ⟨_, Attacks.honest hnet hr hact', fun p hp => ?_⟩
        obtain ⟨hp1, hp2, hp3⟩ := hagree p hp
        by_cases hpr : p = r
        · subst hpr
          refine ⟨?_, ?_, ?_⟩
          · simp [Net.apply]
          · simp [Net.apply]
          · ext a
            have ha := congrFun hp3 a
            simp only [inbox] at ha
            simp [inbox, Net.apply, ha]
        · refine ⟨?_, ?_, ?_⟩
          · simp [Net.apply, hpr, hp1]
          · simp [Net.apply, hpr, hp2]
          · rw [inbox_apply net hpr, inbox_apply c hpr, hp3]

end Deviations

end CryptDough.Process
