import CryptDough.ProcessEmbedding

/-! Programs as functions of the streams they read: what a program returns and what it sends, if all
that ever arrives from every party is given. A round in which everybody first sends and then takes runs
to its end; programs may stop with an error; and where some parties send what they like, a party that
has returned has returned what the streams say. -/

namespace CryptDough.Process

open Relation Net

theorem advance_of_ne {S W : Type} [DecidableEq S] (tape : S → ℕ → W) {s s' : S} (hne : s' ≠ s)
    (len : ℕ) : advance tape s len s' = tape s' :=
  Function.update_of_ne hne _ _

theorem advance_self {S W : Type} [DecidableEq S] (tape : S → ℕ → W) (s : S) (len : ℕ) :
    advance tape s len s = fun i => tape s (len + i) :=
  Function.update_self _ _ _

section Rounds

variable {P S W β : Type} [DecidableEq P] [DecidableEq S]

/-- What is left of a program after its leading draws and sends, what it sent, and its tapes. -/
def Proc.flush : Proc P S W β → (S → ℕ → W) → Proc P S W β × (P → List W) × (S → ℕ → W)
  | done v, tape => (done v, fun _ => [], tape)
  | recv q n k, tape => (recv q n k, fun _ => [], tape)
  | draw s n k, tape => (k fun i => tape s i).flush (advance tape s n)
  | send q _ m k, tape =>
      let rest := k.flush tape
      (rest.1, fun a => (if a = q then List.ofFn m else []) ++ rest.2.1 a, rest.2.2)

/-- What a program that only takes returns, and what it leaves of its inboxes. -/
def Proc.take : Proc P S W β → (P → List W) → Option (β × (P → List W))
  | done v, ins => some (v, ins)
  | recv q n k, ins =>
      if h : n ≤ (ins q).length then
        (k fun i => (ins q).get (i.castLE h)).take (Function.update ins q ((ins q).drop n))
      else none
  | draw _ _ _, _ => none
  | send _ _ _ _, _ => none

omit [DecidableEq S] in
theorem Proc.take_recv_append {q : P} {n : ℕ} {k : (Fin n → W) → Proc P S W β} {ins : P → List W}
    {m : Fin n → W} {rest : List W} (hq : ins q = List.ofFn m ++ rest) :
    (Proc.recv q n k).take ins = (k m).take (Function.update ins q rest) := by
  have hlen : n ≤ (ins q).length := by
    rw [hq, List.length_append, List.length_ofFn]
    omega
  have hget : (fun i : Fin n => (ins q).get (i.castLE hlen)) = m := by
    ext i
    simp [hq]
  rw [take, dif_pos hlen, hget, hq]
  congr 2
  rw [List.drop_append_of_le_length (by simp), List.drop_of_length_le (by simp), List.nil_append]

/-- A party can draw and send while the others wait. -/
theorem Net.reaches_flush (c : Net P S W β) (p : P) :
    Reaches c ⟨Function.update c.prog p ((c.prog p).flush (c.tape p)).1,
      fun a b => c.chan a b ++ if a = p then ((c.prog p).flush (c.tape p)).2.1 b else [],
      Function.update c.tape p ((c.prog p).flush (c.tape p)).2.2⟩ := by
  generalize hprog : c.prog p = prog
  induction prog generalizing c with
  | done v => simpa [Proc.flush, ← hprog] using ReflTransGen.refl
  | recv q n k ih => simpa [Proc.flush, ← hprog] using ReflTransGen.refl
  | draw s n k ih =>
      have hstep : c.step p = some ⟨Function.update c.prog p (k fun i => c.tape p s i), c.chan,
          Function.update c.tape p (advance (c.tape p) s n)⟩ := by
        refine step_eq_some.mpr ⟨_, by rw [hprog]; rfl, ?_⟩
        ext1 <;> simp [Net.apply]
      refine ReflTransGen.head ⟨p, hstep⟩ ?_
      have hrest := ih (fun i => c.tape p s i) ⟨Function.update c.prog p (k fun i => c.tape p s i),
        c.chan, Function.update c.tape p (advance (c.tape p) s n)⟩ (by simp)
      simpa [Proc.flush] using hrest
  | send q n m k ih =>
      have hstep : c.step p = some ⟨Function.update c.prog p k,
          fun a b => c.chan a b ++ if a = p then (if b = q then List.ofFn m else []) else [],
          c.tape⟩ := by
        refine step_eq_some.mpr ⟨_, by rw [hprog]; rfl, ?_⟩
        ext1 <;> simp [Net.apply]
      refine ReflTransGen.head ⟨p, hstep⟩ ?_
      have hrest := ih ⟨Function.update c.prog p k,
        fun a b => c.chan a b ++ if a = p then (if b = q then List.ofFn m else []) else [],
        c.tape⟩ (by simp)
      convert hrest using 2
      · simp [Proc.flush]
      · ext a b
        by_cases ha : a = p <;> simp [Proc.flush, ha]
      · simp [Proc.flush]

/-- A party takes what has arrived. -/
theorem Net.reaches_take (c : Net P S W β) (p : P) {v : β} {rest : P → List W}
    (htake : (c.prog p).take (c.inbox p) = some (v, rest)) :
    Reaches c ⟨Function.update c.prog p (.done v),
      fun a b => if b = p then rest a else c.chan a b, c.tape⟩ := by
  generalize hprog : c.prog p = prog at htake
  induction prog generalizing c with
  | done u =>
      obtain ⟨rfl, rfl⟩ := Prod.mk.inj (Option.some.inj htake)
      have hself : c = ⟨Function.update c.prog p (.done u),
          fun a b => if b = p then c.inbox p a else c.chan a b, c.tape⟩ := by
        ext1
        · rw [← hprog, Function.update_eq_self]
        · ext a b
          by_cases hb : b = p <;> simp [hb, inbox]
        · rfl
      rw [← hself]
  | draw s n k ih => cases htake
  | send q n m k ih => cases htake
  | recv q n k ih =>
      rw [Proc.take] at htake
      split at htake
      · rename_i hlen
        have hact : (c.prog p).act (c.inbox p) (c.tape p) =
            some ⟨k fun i => (c.inbox p q).get (i.castLE hlen), fun _ => [],
              fun r => if r = q then n else 0, c.tape p⟩ := by
          rw [hprog, Proc.act, dif_pos hlen]
        refine ReflTransGen.head ⟨p, step_eq_some.mpr ⟨_, hact, rfl⟩⟩ ?_
        have hinbox : (c.apply p ⟨k fun i => (c.inbox p q).get (i.castLE hlen), fun _ => [],
            fun r => if r = q then n else 0, c.tape p⟩).inbox p =
              Function.update (c.inbox p) q ((c.inbox p q).drop n) := by
          ext a
          by_cases ha : a = q
          · subst ha
            simp [inbox, Net.apply]
          · simp [inbox, Net.apply, ha]
        have hrest := ih (fun i => (c.inbox p q).get (i.castLE hlen))
          (c.apply p ⟨k fun i => (c.inbox p q).get (i.castLE hlen), fun _ => [],
            fun r => if r = q then n else 0, c.tape p⟩) (by simp [Net.apply])
              (by rw [hinbox]; exact htake)
        convert hrest using 2
        · simp [Net.apply]
        · ext a b
          by_cases hb : b = p <;> simp [Net.apply, hb]
        · simp [Net.apply]
      · cases htake

variable [Fintype P]

/-- A round in which everybody draws and sends, and then takes exactly what was sent. -/
theorem Runs.exchange {prog rest : P → Proc P S W β} {tape tape' : P → S → ℕ → W} {value : P → β}
    {out : P → P → List W} (hflush : ∀ p, (prog p).flush (tape p) = (rest p, out p, tape' p))
    (htake : ∀ p, (rest p).take (fun q => out q p) = some (value p, fun _ => [])) :
    Runs prog tape value tape' := by
  have hsent : ∀ A : Finset P, Reaches (start prog tape)
      ⟨fun p => if p ∈ A then rest p else prog p, fun a b => if a ∈ A then out a b else [],
        fun p => if p ∈ A then tape' p else tape p⟩ := by
    intro A
    induction A using Finset.induction_on with
    | empty =>
        simp only [Finset.notMem_empty, if_false]
        exact ReflTransGen.refl
    | insert p A hp ih =>
        apply ih.trans
        convert Net.reaches_flush _ p using 2
        · ext q
          by_cases hq : q = p
          · subst hq
            simp [hp, hflush]
          · simp [hq]
        · ext a b
          by_cases ha : a = p
          · subst ha
            simp [hp, hflush]
          · simp [ha]
        · ext q
          by_cases hq : q = p
          · subst hq
            simp [hp, hflush]
          · simp [hq]
  have htaken : ∀ A : Finset P, Reaches (⟨rest, out, tape'⟩ : Net P S W β)
      ⟨fun p => if p ∈ A then .done (value p) else rest p,
        fun a b => if b ∈ A then [] else out a b, tape'⟩ := by
    intro A
    induction A using Finset.induction_on with
    | empty =>
        simp only [Finset.notMem_empty, if_false]
        exact ReflTransGen.refl
    | insert p A hp ih =>
        apply ih.trans
        have hinbox : (⟨fun p => if p ∈ A then .done (value p) else rest p,
            fun a b => if b ∈ A then [] else out a b, tape'⟩ : Net P S W β).inbox p =
              fun q => out q p := by
          ext q
          simp [inbox, hp]
        have hlast := Net.reaches_take (⟨fun p => if p ∈ A then .done (value p) else rest p,
          fun a b => if b ∈ A then [] else out a b, tape'⟩ : Net P S W β) p (by
            rw [hinbox]
            simpa [hp] using htake p)
        convert hlast using 2
        · ext q
          by_cases hq : q = p <;> simp [hq]
        · ext a b
          by_cases hb : b = p <;> simp [hb]
  have hall := hsent Finset.univ
  simp only [Finset.mem_univ, if_true] at hall
  have hend := htaken Finset.univ
  simp only [Finset.mem_univ, if_true] at hend
  exact hall.trans hend

end Rounds

section Checked

variable {P S W ε α β : Type} [DecidableEq P] [DecidableEq S]

/-- On tapes that satisfy `corr`, every interleaving ends, nobody stops with an error, and the
returned values satisfy `post`. -/
def Completes (corr : (P → S → ℕ → W) → Prop) (prog : P → ExceptT ε (Proc P S W) β)
    (post : (P → β) → Prop) : Prop :=
  Computes corr (fun p => (prog p).run) fun result =>
    ∃ value, result = (fun p => .ok (value p)) ∧ post value

variable {corr : (P → S → ℕ → W) → Prop}

theorem Completes.pure {value : P → β} {post : (P → β) → Prop} (hpost : post value) :
    Completes corr (fun p => (Pure.pure (value p) : ExceptT ε (Proc P S W) β)) post :=
  Computes.pure ⟨value, rfl, hpost⟩

theorem Completes.bind {prog : P → ExceptT ε (Proc P S W) α}
    {next : P → α → ExceptT ε (Proc P S W) β} {mid : (P → α) → Prop} {post : (P → β) → Prop}
    (hprog : Completes corr prog mid)
    (hnext : ∀ value, mid value → Completes corr (fun p => next p (value p)) post) :
    Completes corr (fun p => prog p >>= next p) post := by
  refine Computes.bind hprog fun result hresult => ?_
  obtain ⟨value, rfl, hmid⟩ := hresult
  exact hnext value hmid

theorem Completes.mono {prog : P → ExceptT ε (Proc P S W) β} {post post' : (P → β) → Prop}
    (hprog : Completes corr prog post) (himp : ∀ value, post value → post' value) :
    Completes corr prog post' :=
  Computes.mono hprog fun _ hresult => by
    obtain ⟨value, hok, hpost⟩ := hresult
    exact ⟨value, hok, himp value hpost⟩

theorem Completes.lift {prog : P → Proc P S W β} {post : (P → β) → Prop}
    (hprog : Computes corr prog post) :
    Completes corr (fun p => (ExceptT.lift (prog p) : ExceptT ε (Proc P S W) β)) post := by
  refine Computes.of_runs fun tape hcorr => ?_
  obtain ⟨value, tape', hdel, hcorr', hpost⟩ := hprog tape hcorr
  have hrun : Runs (fun p => (ExceptT.lift (prog p) : ExceptT ε (Proc P S W) β).run) tape
      (fun p => .ok (value p)) tape' :=
    (delivers_iff_runs.mp hdel).map fun _ v => Except.ok v
  exact ⟨_, tape', hrun, hcorr', value, rfl, hpost⟩

/-- A round in which everybody draws and sends, and then takes exactly what was sent. -/
theorem Completes.exchange [Fintype P] {prog : P → ExceptT ε (Proc P S W) β} {post : (P → β) → Prop}
    (hround : ∀ tape, corr tape → ∃ value,
      (∀ p, ((prog p).run.flush (tape p)).1.take
          (fun q => ((prog q).run.flush (tape q)).2.1 p) = some (.ok (value p), fun _ => [])) ∧
        corr (fun p => ((prog p).run.flush (tape p)).2.2) ∧ post value) :
    Completes corr prog post := by
  refine Computes.of_runs fun tape hcorr => ?_
  obtain ⟨value, htake, hcorr', hpost⟩ := hround tape hcorr
  exact ⟨_, _, Runs.exchange (fun _ => rfl) htake, hcorr', value, rfl, hpost⟩

end Checked

section Streams

variable {P S W β : Type} [DecidableEq P] [DecidableEq S]

/-- What a program returns on given streams; `none` when they are too short. -/
def Proc.eval : Proc P S W β → (S → ℕ → W) → (P → List W) → Option β
  | done v, _, _ => some v
  | send _ _ _ k, tape, ins => k.eval tape ins
  | recv q n k, tape, ins =>
      if h : n ≤ (ins q).length then
        (k fun i => (ins q).get (i.castLE h)).eval tape (Function.update ins q ((ins q).drop n))
      else none
  | draw s n k, tape, ins => (k fun i => tape s i).eval (advance tape s n) ins

/-- What a program sends to each party on given streams, as far as these go. -/
def Proc.emits : Proc P S W β → (S → ℕ → W) → (P → List W) → P → List W
  | done _, _, _, _ => []
  | send q _ m k, tape, ins, a => (if a = q then List.ofFn m else []) ++ k.emits tape ins a
  | recv q n k, tape, ins, a =>
      if h : n ≤ (ins q).length then
        (k fun i => (ins q).get (i.castLE h)).emits tape (Function.update ins q ((ins q).drop n)) a
      else []
  | draw s n k, tape, ins, a => (k fun i => tape s i).emits (advance tape s n) ins a

-- every lemma below unfolds these two: their equations are made here once
attribute [local grind =] Proc.eval Proc.emits

theorem drop_taken_recv (ins : P → List W) (q : P) (n : ℕ) :
    Function.update ins q ((ins q).drop n) = fun a => (ins a).drop (if a = q then n else 0) := by
  ext a
  by_cases ha : a = q
  · subst ha
    simp
  · simp [ha]

theorem Proc.eval_act {prog : Proc P S W β} {ins : P → List W} {tape : S → ℕ → W}
    {m : Move P S W β} (hact : prog.act ins tape = some m) :
    prog.eval tape ins = m.prog.eval m.tape fun q => (ins q).drop (m.taken q) := by
  cases prog with
  | done v => simp [act] at hact
  | send q n msg k =>
      obtain rfl := Option.some.inj hact
      rfl
  | draw s n k =>
      obtain rfl := Option.some.inj hact
      rfl
  | recv q n k =>
      simp only [act] at hact
      split at hact
      · rename_i hlen
        obtain rfl := Option.some.inj hact
        rw [eval, dif_pos hlen, drop_taken_recv]
      · cases hact

theorem Proc.emits_act {prog : Proc P S W β} {ins : P → List W} {tape : S → ℕ → W}
    {m : Move P S W β} (hact : prog.act ins tape = some m) (a : P) :
    prog.emits tape ins a =
      m.out a ++ m.prog.emits m.tape (fun q => (ins q).drop (m.taken q)) a := by
  cases prog with
  | done v => simp [act] at hact
  | send q n msg k =>
      obtain rfl := Option.some.inj hact
      rfl
  | draw s n k =>
      obtain rfl := Option.some.inj hact
      rfl
  | recv q n k =>
      simp only [act] at hact
      split at hact
      · rename_i hlen
        obtain rfl := Option.some.inj hact
        rw [emits, dif_pos hlen, drop_taken_recv, List.nil_append]
      · cases hact

/-- A program that has returned does not look at what arrives later. -/
theorem Proc.eval_append {prog : Proc P S W β} {tape : S → ℕ → W} {ins : P → List W} {v : β}
    (heval : prog.eval tape ins = some v) (extra : P → List W) :
    (prog.eval tape fun q => ins q ++ extra q) = some v := by
  induction prog generalizing tape ins with
  | done u => exact heval
  | send q n m k ih => exact ih heval
  | draw s n k ih => exact ih _ heval
  | recv q n k ih =>
      rw [eval] at heval
      split at heval
      · rename_i hlen
        have hact : (Proc.recv q n k).act ins tape = some ⟨k fun i => (ins q).get (i.castLE hlen),
            fun _ => [], fun a => if a = q then n else 0, tape⟩ := by
          rw [act, dif_pos hlen]
        rw [eval_act (act_append hact extra)]
        have htaken : (fun a => (ins a ++ extra a).drop (if a = q then n else 0)) =
            fun a => Function.update ins q ((ins q).drop n) a ++ extra a := by
          ext a
          by_cases ha : a = q
          · subst ha
            simp [List.drop_append_of_le_length hlen]
          · simp [ha]
        rw [htaken]
        exact ih _ heval
      · cases heval

theorem Proc.eval_map {γ : Type} (prog : Proc P S W β) (f : β → γ) (tape : S → ℕ → W)
    (ins : P → List W) : (prog.bind fun v => done (f v)).eval tape ins = (prog.eval tape ins).map f := by
  induction prog generalizing tape ins with
  | done v => rfl
  | send q n m k ih => exact ih _ _
  | draw s n k ih => exact ih _ _ _
  | recv q n k ih =>
      rw [bind, eval, eval]
      split
      · exact ih _ _ _
      · rfl

/-- A program that returns has taken what it waited for. -/
theorem Proc.eval_recv {q : P} {n : ℕ} {k : (Fin n → W) → Proc P S W β} {tape : S → ℕ → W}
    {ins : P → List W} {v : β} (heval : (Proc.recv q n k).eval tape ins = some v) :
    ∃ m rest, ins q = List.ofFn m ++ rest ∧
      (k m).eval tape (Function.update ins q rest) = some v := by
  rw [eval] at heval
  split at heval
  · rename_i hlen
    refine ⟨fun i => (ins q).get (i.castLE hlen), (ins q).drop n, ?_, heval⟩
    have htake : List.ofFn (fun i : Fin n => (ins q).get (i.castLE hlen)) = (ins q).take n := by
      apply List.ext_getElem
      · simp [hlen]
      · intro i _ _
        simp
    rw [htake, List.take_append_drop]
  · cases heval

/-- Whatever it reads, a program with these tapes sends no more than `full`. -/
def Proc.Emits (prog : Proc P S W β) (tape : S → ℕ → W) (full : P → List W) : Prop :=
  ∀ ins a, prog.emits tape ins a <+: full a

theorem Proc.Emits.done (v : β) (tape : S → ℕ → W) (full : P → List W) :
    (Proc.done v : Proc P S W β).Emits tape full :=
  fun _ _ => List.nil_prefix

theorem Proc.Emits.send {q : P} {n : ℕ} {m : Fin n → W} {k : Proc P S W β} {tape : S → ℕ → W}
    {full : P → List W} (hk : k.Emits tape full) :
    (Proc.send q n m k).Emits tape fun a => (if a = q then List.ofFn m else []) ++ full a :=
  fun ins a => (List.prefix_append_right_inj _).mpr (hk ins a)

theorem Proc.Emits.recv {q : P} {n : ℕ} {k : (Fin n → W) → Proc P S W β} {tape : S → ℕ → W}
    {full : P → List W} (hk : ∀ m, (k m).Emits tape full) : (Proc.recv q n k).Emits tape full := by
  intro ins a
  rw [Proc.emits]
  split
  · exact hk _ _ a
  · exact List.nil_prefix

theorem Proc.Emits.draw {s : S} {n : ℕ} {k : (Fin n → W) → Proc P S W β} {tape : S → ℕ → W}
    {full : P → List W} (hk : (k fun i => tape s i).Emits (advance tape s n) full) :
    (Proc.draw s n k).Emits tape full := hk

theorem Proc.Emits.map {γ : Type} {prog : Proc P S W β} {tape : S → ℕ → W} {full : P → List W}
    (hprog : prog.Emits tape full) (f : β → γ) : (prog.bind fun v => Proc.done (f v)).Emits tape full := by
  have hemits : ∀ (prog : Proc P S W β) tape ins a,
      (prog.bind fun v => Proc.done (f v)).emits tape ins a = prog.emits tape ins a := by
    intro prog
    induction prog with
    | done v => exact fun _ _ _ => rfl
    | send q n m k ih => exact fun tape ins a => congrArg _ (ih tape ins a)
    | draw s n k ih => exact fun tape ins a => ih _ _ ins a
    | recv q n k ih =>
        intro tape ins a
        rw [Proc.bind, Proc.emits, Proc.emits]
        split
        · exact ih _ _ _ a
        · rfl
  intro ins a
  rw [hemits]
  exact hprog ins a

/-- An embedded program that only draws comes before a program that goes on with its value. -/
theorem Proc.eval_embed_bind {S' W' α : Type} [DecidableEq S'] (E : Embedding S S' W W')
    {x : Proc P S W α} {f : α → Proc P S' W' β} {tape : S → ℕ → W} {tape' : S' → ℕ → W'} {v : α}
    {rest : S → ℕ → W} (hread : (fun s i => E.unwrap (tape' (E.source s) i)) = tape)
    (hx : x.settle tape = (.done v, rest)) :
    ∃ tape'', ∀ ins, ((x.embed E).bind f).eval tape' ins = (f v).eval tape'' ins ∧
      ∀ a, ((x.embed E).bind f).emits tape' ins a = (f v).emits tape'' ins a := by
  induction x generalizing tape tape' with
  | done u =>
      simp only [settle, Prod.mk.injEq, Proc.done.injEq] at hx
      obtain ⟨rfl, -⟩ := hx
      exact ⟨tape', fun ins => ⟨rfl, fun a => rfl⟩⟩
  | send q n m k ih => simp [settle] at hx
  | recv q n k ih => simp [settle] at hx
  | draw s n k ih =>
      subst hread
      exact ih _ (Embedding.read_advance tape' s n) hx

end Streams

section Attacks

variable {P S W β : Type} [DecidableEq P] [DecidableEq S]

def Net.inject (c : Net P S W β) (p q : P) (msg : List W) : Net P S W β :=
  ⟨c.prog, fun a b => c.chan a b ++ (if a = p ∧ b = q then msg else []), c.tape⟩

/-- The states while the parties in `bad` send what they like instead of running their programs, and
everything that was sent so far. -/
inductive Attacks (bad : P → Prop) (prog : P → Proc P S W β) (tape : P → S → ℕ → W) :
    (P → P → List W) → Net P S W β → Prop
  | start : Attacks bad prog tape (fun _ _ => []) (start prog tape)
  | honest {sent c p m} : Attacks bad prog tape sent c → ¬ bad p →
      (c.prog p).act (c.inbox p) (c.tape p) = some m →
      Attacks bad prog tape (fun a b => sent a b ++ (if a = p then m.out b else [])) (c.apply p m)
  | inject {sent c p} (q : P) (msg : List W) : Attacks bad prog tape sent c → bad p →
      Attacks bad prog tape (fun a b => sent a b ++ (if a = p ∧ b = q then msg else []))
        (c.inject p q msg)

variable {bad : P → Prop} {prog : P → Proc P S W β} {tape : P → S → ℕ → W}
  {sent : P → P → List W} {c : Net P S W β}

/-- What an honest party is about to do on what is still under way, it does from the beginning on all
that was sent. -/
theorem Attacks.explains (hatt : Attacks bad prog tape sent c) {p : P} (hp : ¬ bad p)
    (later : P → List W) :
    (prog p).eval (tape p) (fun q => sent q p ++ later q) =
        (c.prog p).eval (c.tape p) (fun q => c.chan q p ++ later q) ∧
      ∀ a, (prog p).emits (tape p) (fun q => sent q p ++ later q) a =
        sent p a ++ (c.prog p).emits (c.tape p) (fun q => c.chan q p ++ later q) a := by
  induction hatt generalizing later with
  | start => exact ⟨rfl, fun a => rfl⟩
  | @honest sent c r m hatt hr hact ih =>
      let arrived : P → List W := fun q => (if q = r then m.out p else []) ++ later q
      obtain ⟨heval, hemits⟩ := ih arrived
      have hins : (fun q => sent q p ++ (if q = r then m.out p else []) ++ later q) =
          fun q => sent q p ++ arrived q := funext fun q => List.append_assoc _ _ _
      by_cases hpr : p = r
      · subst hpr
        have hact' := Proc.act_append hact arrived
        have htaken := Proc.act_taken hact
        have hdrop : (fun q => (c.inbox p q ++ arrived q).drop (m.taken q)) =
            fun q => (c.apply p m).chan q p ++ later q := by
          ext q
          rw [List.drop_append_of_le_length (htaken q)]
          simp [Net.apply, inbox, arrived]
        refine ⟨?_, fun a => ?_⟩
        · calc (prog p).eval (tape p) (fun q => sent q p ++ (if q = p then m.out p else []) ++ later q)
              = (c.prog p).eval (c.tape p) (fun q => c.chan q p ++ arrived q) := by rw [hins, heval]
            _ = m.prog.eval m.tape (fun q => (c.inbox p q ++ arrived q).drop (m.taken q)) :=
                Proc.eval_act hact'
            _ = _ := by
                rw [hdrop]
                simp [Net.apply]
        · calc (prog p).emits (tape p) (fun q => sent q p ++ (if q = p then m.out p else []) ++
                later q) a
              = sent p a ++ (c.prog p).emits (c.tape p) (fun q => c.chan q p ++ arrived q) a := by
                rw [hins, hemits]
            _ = sent p a ++ (m.out a ++ m.prog.emits m.tape
                  (fun q => (c.inbox p q ++ arrived q).drop (m.taken q)) a) := by
                rw [← Proc.emits_act hact' a]
                rfl
            _ = _ := by
                rw [hdrop]
                simp [Net.apply]
      · have hchan : (fun q => (c.apply r m).chan q p ++ later q) =
            fun q => c.chan q p ++ arrived q := by
          ext q
          simp [Net.apply, hpr, arrived]
        rw [hins, hchan]
        refine ⟨?_, fun a => ?_⟩
        · rw [heval]
          simp [Net.apply, hpr]
        · rw [hemits]
          simp [Net.apply, hpr]
  | @inject sent c r q msg hatt hr ih =>
      have hpr : p ≠ r := fun heq => hp (heq ▸ hr)
      let arrived : P → List W := fun a => (if a = r ∧ p = q then msg else []) ++ later a
      obtain ⟨heval, hemits⟩ := ih arrived
      have hins : (fun a => sent a p ++ (if a = r ∧ p = q then msg else []) ++ later a) =
          fun a => sent a p ++ arrived a := funext fun a => List.append_assoc _ _ _
      have hchan : (fun a => (c.inject r q msg).chan a p ++ later a) =
          fun a => c.chan a p ++ arrived a := funext fun a => List.append_assoc _ _ _
      rw [hins, hchan]
      refine ⟨heval, fun a => ?_⟩
      rw [hemits]
      simp [hpr, Net.inject]

/-- What an honest party has sent, its program sends. -/
theorem Attacks.sent_prefix (hatt : Attacks bad prog tape sent c) {p : P} (hp : ¬ bad p)
    {full : P → List W} (hfull : (prog p).Emits (tape p) full) (q : P) : sent p q <+: full q := by
  have hemits := (hatt.explains hp fun _ => []).2 q
  exact (List.prefix_append _ _).trans (hemits ▸ hfull _ q)

/-- An honest party that has returned has returned what its program returns if every honest party
sends all it may send and the others what they sent. -/
theorem Attacks.returned (hatt : Attacks bad prog tape sent c) {full : P → P → List W}
    (hfull : ∀ q, ¬ bad q → (prog q).Emits (tape q) (full q)) {p : P} (hp : ¬ bad p) {v : β}
    (hdone : c.prog p = .done v) :
    ∃ ins : P → List W, (∀ q, ¬ bad q → ins q = full q p) ∧ (∀ q, bad q → ins q = sent q p) ∧
      (prog p).eval (tape p) ins = some v := by
  classical
  have heval := (hatt.explains hp fun _ => []).1
  simp only [hdone, Proc.eval, List.append_nil] at heval
  let missing : P → List W := fun q => if bad q then [] else (full q p).drop (sent q p).length
  refine ⟨fun q => sent q p ++ missing q, ?_, ?_, Proc.eval_append heval missing⟩
  · intro q hq
    obtain ⟨rest, hrest⟩ := hatt.sent_prefix hq (hfull q hq) p
    simp [missing, hq, ← hrest]
  · intro q hq
    simp [missing, hq]

end Attacks

end CryptDough.Process
