import CryptDough.Process
import Mathlib.Data.Finset.Insert
import Mathlib.Data.Fintype.Defs
import Mathlib.Data.Finset.Filter

/-! Proof rules for complete runs: one sequential composition rule, one for programs that only read
tapes, and one for a round in which every party sends at most one vector and takes at most one. -/

namespace CryptDough.Process

open Relation Net

section Rules

variable {P S W α β γ : Type} [DecidableEq P] [DecidableEq S]

/-- Some interleaving lets every party `p` return `value p`, takes every message that was sent and
leaves the tapes at `tape'`. -/
def Runs (prog : P → Proc P S W β) (tape : P → S → ℕ → W) (value : P → β)
    (tape' : P → S → ℕ → W) : Prop :=
  Reaches (start prog tape) (final value tape')

/-- However the steps were interleaved so far, the parties can still go on, and end there. -/
def Delivers (prog : P → Proc P S W β) (tape : P → S → ℕ → W) (value : P → β)
    (tape' : P → S → ℕ → W) : Prop :=
  ∀ c, Reaches (start prog tape) c → Reaches c (final value tape')

theorem delivers_iff_runs {prog : P → Proc P S W β} {tape tape' : P → S → ℕ → W}
    {value : P → β} : Delivers prog tape value tape' ↔ Runs prog tape value tape' := by
  constructor
  · intro hdel
    exact hdel _ ReflTransGen.refl
  · intro hrun c hc
    obtain ⟨d, hd, hcd⟩ := confluence hrun hc
    rwa [reaches_final hd] at hcd

/-- A run that has ended has ended with the delivered values. -/
theorem Delivers.unique {prog : P → Proc P S W β} {tape tape' tape'' : P → S → ℕ → W}
    {value value' : P → β} (hdel : Delivers prog tape value tape')
    (hend : Runs prog tape value' tape'') : value' = value := by
  have heq := congrArg Net.prog (reaches_final (hdel _ hend))
  ext p
  have hp := congrFun heq p
  simp only [final, start, Proc.done.injEq] at hp
  exact hp.symm

theorem Runs.pure (value : P → β) (tape : P → S → ℕ → W) :
    Runs (fun p => (Pure.pure (value p) : Proc P S W β)) tape value tape :=
  ReflTransGen.refl

theorem Runs.bind {prog : P → Proc P S W α} {next : P → α → Proc P S W β}
    {tape tape' tape'' : P → S → ℕ → W} {value : P → α} {value' : P → β}
    (hprog : Runs prog tape value tape')
    (hnext : Runs (fun p => next p (value p)) tape' value' tape'') :
    Runs (fun p => prog p >>= next p) tape value' tape'' :=
  (reaches_bind hprog next).trans hnext

theorem Runs.map {prog : P → Proc P S W α} {tape tape' : P → S → ℕ → W} {value : P → α}
    (hprog : Runs prog tape value tape') (f : P → α → β) :
    Runs (fun p => f p <$> prog p) tape (fun p => f p (value p)) tape' := by
  simp only [map_eq_pure_bind]
  exact hprog.bind (Runs.pure _ _)

/-- Every party of `A` takes its step `m` from `c`. -/
def Net.applyAll (c : Net P S W β) (m : P → Move P S W β) (A : Finset P) : Net P S W β where
  prog := fun p => if p ∈ A then (m p).prog else c.prog p
  chan := fun a b =>
    (if b ∈ A then (c.chan a b).drop ((m b).taken a) else c.chan a b) ++
      (if a ∈ A then (m a).out b else [])
  tape := fun p => if p ∈ A then (m p).tape else c.tape p

theorem Net.reaches_applyAll (c : Net P S W β) (m : P → Move P S W β) (A : Finset P)
    (hact : ∀ p ∈ A, (c.prog p).act (c.inbox p) (c.tape p) = some (m p)) :
    Reaches c (c.applyAll m A) := by
  induction A using Finset.induction_on with
  | empty =>
      have heq : c.applyAll m ∅ = c := by
        ext1 <;> simp [applyAll]
      rw [heq]
  | insert p A hp ih =>
      refine (ih fun q hq => hact q (Finset.mem_insert_of_mem hq)).tail ⟨p, ?_⟩
      have hmove := hact p (Finset.mem_insert_self p A)
      have htaken := Proc.act_taken hmove
      refine step_eq_some.mpr ⟨m p, ?_, ?_⟩
      · have hinbox : (c.applyAll m A).inbox p =
            fun a => c.inbox p a ++ (if a ∈ A then (m a).out p else []) := by
          ext a
          simp [inbox, applyAll, hp]
        rw [hinbox]
        simpa [applyAll, hp] using Proc.act_append hmove _
      · ext1
        · ext q
          by_cases hq : q = p
          · subst hq
            simp [Net.apply, applyAll]
          · simp [Net.apply, applyAll, hq]
        · ext a b
          have hlen := htaken a
          simp only [inbox] at hlen
          by_cases hb : b = p
          · subst hb
            by_cases ha : a = b
            · subst ha
              simp [Net.apply, applyAll, hp]
            · simp [Net.apply, applyAll, hp, ha, List.drop_append_of_le_length hlen]
          · by_cases ha : a = p
            · subst ha
              simp [Net.apply, applyAll, hp, hb]
            · simp [Net.apply, applyAll, ha, hb]
        · ext q
          by_cases hq : q = p
          · subst hq
            simp [Net.apply, applyAll]
          · simp [Net.apply, applyAll, hq]

/-- What is left of a program, and of the tapes, once its leading draws are done. -/
def Proc.settle : Proc P S W β → (S → ℕ → W) → Proc P S W β × (S → ℕ → W)
  | done v, tape => (done v, tape)
  | draw s n k, tape => (k fun i => tape s i).settle (advance tape s n)
  | send q n m k, tape => (send q n m k, tape)
  | recv q n k, tape => (recv q n k, tape)

/-- A party can do its leading draws while the others wait. -/
theorem Net.reaches_settle (c : Net P S W β) (p : P) :
    Reaches c ⟨Function.update c.prog p ((c.prog p).settle (c.tape p)).1, c.chan,
      Function.update c.tape p ((c.prog p).settle (c.tape p)).2⟩ := by
  generalize hprog : c.prog p = prog
  induction prog generalizing c with
  | draw s n k ih =>
      have hstep : c.step p = some ⟨Function.update c.prog p (k fun i => c.tape p s i), c.chan,
          Function.update c.tape p (advance (c.tape p) s n)⟩ := by
        refine step_eq_some.mpr ⟨_, by rw [hprog]; rfl, ?_⟩
        ext1 <;> simp [Net.apply]
      refine ReflTransGen.head ⟨p, hstep⟩ ?_
      have hrest := ih (fun i => c.tape p s i) ⟨Function.update c.prog p (k fun i => c.tape p s i),
        c.chan, Function.update c.tape p (advance (c.tape p) s n)⟩ (by simp)
      simpa [Proc.settle] using hrest
  | done v => simpa [Proc.settle, ← hprog] using ReflTransGen.refl
  | send q n msg k ih => simpa [Proc.settle, ← hprog] using ReflTransGen.refl
  | recv q n k ih => simpa [Proc.settle, ← hprog] using ReflTransGen.refl

/-- All parties may do their leading draws first. -/
theorem Runs.settle [Fintype P] {prog : P → Proc P S W β} {tape tape' : P → S → ℕ → W}
    {value : P → β}
    (hrun : Runs (fun p => ((prog p).settle (tape p)).1) (fun p => ((prog p).settle (tape p)).2)
      value tape') : Runs prog tape value tape' := by
  refine ReflTransGen.trans ?_ hrun
  have hset : ∀ A : Finset P, Reaches (start prog tape)
      ⟨fun p => if p ∈ A then ((prog p).settle (tape p)).1 else prog p, fun _ _ => [],
        fun p => if p ∈ A then ((prog p).settle (tape p)).2 else tape p⟩ := by
    intro A
    induction A using Finset.induction_on with
    | empty =>
        simp only [Finset.notMem_empty, if_false]
        exact ReflTransGen.refl
    | insert p A hp ih =>
        apply ih.trans
        convert Net.reaches_settle _ p using 2
        · ext q
          by_cases hq : q = p
          · subst hq
            simp [hp]
          · simp [hq]
        · ext q
          by_cases hq : q = p
          · subst hq
            simp [hp]
          · simp [hq]
  have huniv := hset Finset.univ
  simp only [Finset.mem_univ, if_true] at huniv
  exact huniv

end Rules

section Rounds

variable {P S W β : Type} {n : ℕ}

def Proc.push (out : Option (P × (Fin n → W))) : Proc P S W Unit :=
  match out with
  | none => done ()
  | some (q, m) => send q n m (done ())

def Proc.pull (src : Option P) : Proc P S W (Option (Fin n → W)) :=
  match src with
  | none => done none
  | some q => recv q n fun v => done (some v)

/-- Send at most one vector, then take at most one. -/
def Proc.round (out : Option (P × (Fin n → W))) (src : Option P) :
    Proc P S W (Option (Fin n → W)) :=
  (push out).bind fun _ => pull src

variable [DecidableEq P] [DecidableEq S] [Fintype P]

/-- A round in which exactly the vectors that are sent are also taken. -/
theorem Runs.round (out : P → Option (P × (Fin n → W))) (src : P → Option P)
    (hmatch : ∀ p q, src p = some q ↔ ∃ m, out q = some (p, m)) (tape : P → S → ℕ → W) :
    Runs (fun p => Proc.round (out p) (src p)) tape
      (fun p => (src p).bind fun q => (out q).map Prod.snd) tape := by
  let sent : Net P S W (Option (Fin n → W)) :=
    ⟨fun p => Proc.pull (src p),
      fun a b => match out a with
        | none => []
        | some (q, m) => if b = q then List.ofFn m else [], tape⟩
  have hsend : Reaches (start (fun p => Proc.round (out p) (src p)) tape) sent := by
    have hall := Net.reaches_applyAll (start (fun p => Proc.round (out p) (src p)) tape)
      (fun p => ⟨Proc.pull (src p), sent.chan p, fun _ => 0, tape p⟩)
      (Finset.univ.filter fun p => (out p).isSome) ?_
    · convert hall using 1
      ext1
      · ext p
        cases hp : out p with
        | none => simp [sent, applyAll, start, hp, Proc.round, Proc.push, Proc.bind]
        | some r => simp [sent, applyAll, start, hp, Proc.round]
      · ext a b
        cases ha : out a with
        | none => simp [sent, applyAll, start, ha]
        | some r => simp [sent, applyAll, start, ha]
      · simp [sent, applyAll, start]
    · intro p hp
      rw [Finset.mem_filter, Option.isSome_iff_exists] at hp
      obtain ⟨_, ⟨q, m⟩, hq⟩ := hp
      simp only [start, hq, Proc.round, Proc.push, Proc.bind, Proc.act, sent]
  apply hsend.trans
  have hall := Net.reaches_applyAll sent
    (fun p => ⟨.done ((src p).bind fun q => (out q).map Prod.snd), fun _ => [],
      fun q => if src p = some q then n else 0, tape p⟩)
    (Finset.univ.filter fun p => (src p).isSome) ?_
  · convert hall using 1
    ext1
    · ext p
      cases hp : src p with
      | none => simp [sent, applyAll, final, start, hp, Proc.pull]
      | some q => simp [applyAll, final, start, hp]
    · ext a b
      simp only [final, start, applyAll, sent, ite_self, List.append_nil]
      cases ha : out a with
      | none => simp
      | some r =>
          by_cases hb : b = r.1
          · have hsrc : src b = some a := (hmatch b a).mpr ⟨r.2, by rw [ha, hb]⟩
            rw [hb] at hsrc
            simp [hsrc, hb]
          · simp [hb]
    · simp [sent, applyAll, final, start]
  · intro p hp
    rw [Finset.mem_filter, Option.isSome_iff_exists] at hp
    obtain ⟨_, q, hq⟩ := hp
    obtain ⟨m, hm⟩ := (hmatch p q).mp hq
    have hinbox : sent.inbox p q = List.ofFn m := by
      simp [inbox, sent, hm]
    have hprog : sent.prog p = .recv q n fun v => .done (some v) := by
      simp [sent, hq, Proc.pull]
    rw [hprog]
    simp only [Proc.act, hq]
    rw [dif_pos (by rw [hinbox]; simp)]
    simp only [Option.bind_some, hm, Option.map_some, Option.some.injEq, @eq_comm _ q]
    congr 3
    ext i
    simp [hinbox]

end Rounds

section Computes

variable {P S W α β : Type} [DecidableEq P] [DecidableEq S]

/-- On tapes that satisfy `corr`, every interleaving ends with returned values that satisfy `post`
and tapes that satisfy `corr` again. -/
def Computes (corr : (P → S → ℕ → W) → Prop) (prog : P → Proc P S W β)
    (post : (P → β) → Prop) : Prop :=
  ∀ tape, corr tape → ∃ value tape', Delivers prog tape value tape' ∧ corr tape' ∧ post value

variable {corr : (P → S → ℕ → W) → Prop}

theorem Computes.of_runs {prog : P → Proc P S W β} {post : (P → β) → Prop}
    (hruns : ∀ tape, corr tape → ∃ value tape', Runs prog tape value tape' ∧ corr tape' ∧ post value) :
    Computes corr prog post := by
  intro tape hcorr
  obtain ⟨value, tape', hrun, hrest⟩ := hruns tape hcorr
  exact ⟨value, tape', delivers_iff_runs.mpr hrun, hrest⟩

theorem Computes.pure {value : P → β} {post : (P → β) → Prop} (hpost : post value) :
    Computes corr (fun p => (Pure.pure (value p) : Proc P S W β)) post :=
  Computes.of_runs fun tape hcorr => ⟨value, tape, Runs.pure value tape, hcorr, hpost⟩

theorem Computes.bind {prog : P → Proc P S W α} {next : P → α → Proc P S W β}
    {mid : (P → α) → Prop} {post : (P → β) → Prop} (hprog : Computes corr prog mid)
    (hnext : ∀ value, mid value → Computes corr (fun p => next p (value p)) post) :
    Computes corr (fun p => prog p >>= next p) post := by
  refine Computes.of_runs fun tape hcorr => ?_
  obtain ⟨value, tape', hrun, hcorr', hmid⟩ := hprog tape hcorr
  obtain ⟨value', tape'', hrun', hcorr'', hpost⟩ := hnext value hmid tape' hcorr'
  exact ⟨value', tape'', (delivers_iff_runs.mp hrun).bind (delivers_iff_runs.mp hrun'),
    hcorr'', hpost⟩

theorem Computes.mono {prog : P → Proc P S W β} {post post' : (P → β) → Prop}
    (hprog : Computes corr prog post) (himp : ∀ value, post value → post' value) :
    Computes corr prog post' := by
  intro tape hcorr
  obtain ⟨value, tape', hdel, hcorr', hpost⟩ := hprog tape hcorr
  exact ⟨value, tape', hdel, hcorr', himp value hpost⟩

/-- What a program delivers is determined: two postconditions hold of the same values. -/
theorem Computes.and {prog : P → Proc P S W β} {post post' : (P → β) → Prop}
    (hprog : Computes corr prog post) (hprog' : Computes corr prog post') :
    Computes corr prog fun value => post value ∧ post' value := by
  intro tape hcorr
  obtain ⟨value, tape', hdel, hcorr', hpost⟩ := hprog tape hcorr
  obtain ⟨value', tape'', hdel', -, hpost'⟩ := hprog' tape hcorr
  have hvalue := hdel.unique (delivers_iff_runs.mp hdel')
  exact ⟨value, tape', hdel, hcorr', hpost, hvalue ▸ hpost'⟩

theorem Computes.exists_value {prog : P → Proc P S W β} {post : (P → β) → Prop}
    (hprog : Computes corr prog post) {tape : P → S → ℕ → W} (hcorr : corr tape) :
    ∃ value, post value := by
  obtain ⟨value, _, _, _, hpost⟩ := hprog tape hcorr
  exact ⟨value, hpost⟩

end Computes

end CryptDough.Process
