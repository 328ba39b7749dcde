import CryptDough.ProcessRules

/-! A local program run in a wider world: its sources are some of the sources there and its elements
are carried by wider ones. What it delivers is the same. -/

namespace CryptDough.Process

open Relation Net

variable {P S S' W W' β γ : Type}

/-- The sources of a program and its elements, seen in a wider world. -/
structure Embedding (S S' W W' : Type) where
  source : S → S'
  source_injective : Function.Injective source
  wrap : W → W'
  unwrap : W' → W
  unwrap_wrap : ∀ e, unwrap (wrap e) = e

namespace Embedding

variable (E : Embedding S S' W W')

/-- What the program reads on the wider tapes. -/
def read (tape : P → S' → ℕ → W') : P → S → ℕ → W := fun p s i => E.unwrap (tape p (E.source s) i)

/-- The two tapes differ at most where the program reads. -/
def Frame (tape tape' : P → S' → ℕ → W') : Prop :=
  ∀ p s', (∀ s, s' ≠ E.source s) → tape' p s' = tape p s'

end Embedding

def Proc.embed (E : Embedding S S' W W') : Proc P S W β → Proc P S' W' β
  | done v => done v
  | send q n m k => send q n (fun i => E.wrap (m i)) (k.embed E)
  | recv q n k => recv q n fun v => (k fun i => E.unwrap (v i)).embed E
  | draw s n k => draw (E.source s) n fun v => (k fun i => E.unwrap (v i)).embed E

@[simp] theorem Proc.embed_pure (E : Embedding S S' W W') (v : β) :
    (pure v : Proc P S W β).embed E = pure v := rfl

section Simulation

variable [DecidableEq P] [DecidableEq S] [DecidableEq S']

/-- The wider network runs the embedded programs on the wrapped messages. -/
structure Embedding.Simulates (E : Embedding S S' W W') (c : Net P S W β) (d : Net P S' W' β) :
    Prop where
  prog : ∀ p, d.prog p = (c.prog p).embed E
  chan : ∀ p q, d.chan p q = (c.chan p q).map E.wrap
  tape : E.read d.tape = c.tape

namespace Embedding

variable {E : Embedding S S' W W'}

theorem read_advance (tape : S' → ℕ → W') (s : S) (n : ℕ) :
    (fun s' i => E.unwrap (advance tape (E.source s) n (E.source s') i)) =
      advance (fun s' i => E.unwrap (tape (E.source s') i)) s n := by
  ext s' i
  by_cases hs : s' = s
  · subst hs
    simp [advance]
  · have hne : E.source s' ≠ E.source s := fun heq => hs (E.source_injective heq)
    simp [advance, hs, hne]

/-- The wrapped version of a step of one party. -/
theorem act_embed {prog : Proc P S W β} {inbox : P → List W} {inbox' : P → List W'}
    {tape : S → ℕ → W} {tape' : S' → ℕ → W'} {m : Move P S W β}
    (hinbox : ∀ q, inbox' q = (inbox q).map E.wrap)
    (htape : (fun s i => E.unwrap (tape' (E.source s) i)) = tape)
    (hact : prog.act inbox tape = some m) :
    ∃ tape'', (prog.embed E).act inbox' tape' =
        some ⟨m.prog.embed E, fun q => (m.out q).map E.wrap, m.taken, tape''⟩ ∧
      (fun s i => E.unwrap (tape'' (E.source s) i)) = m.tape ∧
      ∀ s', (∀ s, s' ≠ E.source s) → tape'' s' = tape' s' := by
  cases prog with
  | done v => simp [Proc.act] at hact
  | send q n msg k =>
      obtain rfl := Option.some.inj hact
      refine ⟨tape', ?_, htape, fun _ _ => rfl⟩
      simp only [Proc.embed, Proc.act, Option.some.injEq, Move.mk.injEq, true_and, and_true]
      ext r
      split
      · rw [List.map_ofFn]
        rfl
      · rfl
  | draw s n k =>
      obtain rfl := Option.some.inj hact
      refine ⟨advance tape' (E.source s) n, ?_, ?_, ?_⟩
      · simp only [Proc.embed, Proc.act, ← htape]
        rfl
      · rw [read_advance, htape]
      · intro s' hs'
        rw [advance, Function.update_of_ne (hs' s)]
  | recv q n k =>
      simp only [Proc.act] at hact
      split at hact
      · rename_i hlen
        obtain rfl := Option.some.inj hact
        have hlen' : n ≤ (inbox' q).length := by
          rw [hinbox, List.length_map]
          exact hlen
        refine ⟨tape', ?_, htape, fun _ _ => rfl⟩
        simp only [Proc.embed, Proc.act, dif_pos hlen', Option.some.injEq, Move.mk.injEq, and_true]
        refine ⟨?_, funext fun r => rfl⟩
        congr 2
        ext i
        simp [hinbox, E.unwrap_wrap]
      · cases hact

theorem Simulates.step {c c' : Net P S W β} {d : Net P S' W' β} (hsim : E.Simulates c d)
    (hstep : Step c c') : ∃ d', Step d d' ∧ E.Simulates c' d' ∧ E.Frame d.tape d'.tape := by
  obtain ⟨p, hp⟩ := hstep
  obtain ⟨m, hm, rfl⟩ := step_eq_some.mp hp
  have hinbox : ∀ q, d.inbox p q = (c.inbox p q).map E.wrap := fun q => hsim.chan q p
  obtain ⟨tape', hact, hread, hframe⟩ := act_embed hinbox (congrFun hsim.tape p) hm
  rw [← hsim.prog p] at hact
  refine ⟨d.apply p _, ⟨p, step_eq_some.mpr ⟨_, hact, rfl⟩⟩, ⟨?_, ?_, ?_⟩, ?_⟩
  · intro q
    by_cases hq : q = p
    · subst hq
      simp [Net.apply]
    · simp [Net.apply, hq, hsim.prog]
  · intro a b
    simp only [Net.apply, hsim.chan, List.map_append]
    congr 1
    · split
      · rw [List.map_drop]
      · rfl
    · split
      · rfl
      · rfl
  · funext q
    by_cases hq : q = p
    · subst hq
      show (fun s i => E.unwrap (Function.update d.tape q tape' q (E.source s) i)) = _
      simp only [Net.apply, Function.update_self]
      exact hread
    · show (fun s i => E.unwrap (Function.update d.tape p tape' q (E.source s) i)) = _
      simp only [Net.apply, Function.update_of_ne hq]
      exact congrFun hsim.tape q
  · intro q s' hs'
    by_cases hq : q = p
    · subst hq
      simp only [Net.apply, Function.update_self]
      exact hframe s' hs'
    · simp only [Net.apply, Function.update_of_ne hq]

theorem Simulates.reaches {c c' : Net P S W β} {d : Net P S' W' β} (hsim : E.Simulates c d)
    (hreach : Reaches c c') : ∃ d', Reaches d d' ∧ E.Simulates c' d' ∧ E.Frame d.tape d'.tape := by
  induction hreach with
  | refl => exact ⟨d, ReflTransGen.refl, hsim, fun _ _ _ => rfl⟩
  | tail _ hstep ih =>
      obtain ⟨e, he, hsim', hframe⟩ := ih
      obtain ⟨d', hd', hsim'', hframe'⟩ := hsim'.step hstep
      exact ⟨d', he.tail hd', hsim'', fun p s' hs' => (hframe' p s' hs').trans (hframe p s' hs')⟩

end Embedding

/-- An embedded program runs as it does on the tapes it reads, and leaves the others alone. -/
theorem Runs.embed (E : Embedding S S' W W') {prog : P → Proc P S W β} {tape' : P → S' → ℕ → W'}
    {value : P → β} {tape'' : P → S → ℕ → W} (hrun : Runs prog (E.read tape') value tape'') :
    ∃ tape''', Runs (fun p => (prog p).embed E) tape' value tape''' ∧ E.read tape''' = tape'' ∧
      E.Frame tape' tape''' := by
  have hstart : E.Simulates (start prog (E.read tape')) (start (fun p => (prog p).embed E) tape') :=
    ⟨fun _ => rfl, fun _ _ => rfl, rfl⟩
  obtain ⟨d, hd, hsim, hframe⟩ := hstart.reaches hrun
  refine ⟨d.tape, ?_, hsim.tape, hframe⟩
  have hfinal : d = final value d.tape := by
    ext1
    · exact funext hsim.prog
    · exact funext fun p => funext fun q => hsim.chan p q
    · rfl
  show Reaches _ (final value d.tape)
  rw [← hfinal]
  exact hd

/-- A correlation of the wider tapes that the program can rely on and that it keeps. -/
structure Embedding.Respects (E : Embedding S S' W W') (corr : (P → S → ℕ → W) → Prop)
    (corr' : (P → S' → ℕ → W') → Prop) : Prop where
  read : ∀ tape, corr' tape → corr (E.read tape)
  keep : ∀ tape tape', corr' tape → corr (E.read tape') → E.Frame tape tape' → corr' tape'

theorem Computes.embed {E : Embedding S S' W W'} {corr : (P → S → ℕ → W) → Prop}
    {corr' : (P → S' → ℕ → W') → Prop} {prog : P → Proc P S W β} {post : (P → β) → Prop}
    (hprog : Computes corr prog post) (hE : E.Respects corr corr') :
    Computes corr' (fun p => (prog p).embed E) post := by
  refine Computes.of_runs fun tape hcorr => ?_
  obtain ⟨value, tape', hdel, hcorr', hpost⟩ := hprog (E.read tape) (hE.read tape hcorr)
  obtain ⟨tape'', hrun, hread, hframe⟩ := (delivers_iff_runs.mp hdel).embed E
  exact ⟨value, tape'', hrun, hE.keep tape tape'' hcorr (hread ▸ hcorr') hframe, hpost⟩

end Simulation

section Sum

variable [DecidableEq P] [DecidableEq S] [DecidableEq S'] [Inhabited W] [Inhabited W']

/-- The first of two kinds of elements, on tapes of their own. -/
def Embedding.left : Embedding S (S ⊕ S') W (W ⊕ W') where
  source := Sum.inl
  source_injective := Sum.inl_injective
  wrap := Sum.inl
  unwrap := Sum.elim id fun _ => default
  unwrap_wrap := fun _ => rfl

def Embedding.right : Embedding S' (S ⊕ S') W' (W ⊕ W') where
  source := Sum.inr
  source_injective := Sum.inr_injective
  wrap := Sum.inr
  unwrap := Sum.elim (fun _ => default) id
  unwrap_wrap := fun _ => rfl

/-- The tapes of each kind of elements are correlated. -/
def BothCorrelated (corr : (P → S → ℕ → W) → Prop) (corr' : (P → S' → ℕ → W') → Prop)
    (tape : P → S ⊕ S' → ℕ → W ⊕ W') : Prop :=
  corr (Embedding.left.read tape) ∧ corr' (Embedding.right.read tape)

variable {corr : (P → S → ℕ → W) → Prop} {corr' : (P → S' → ℕ → W') → Prop}

omit [DecidableEq P] [DecidableEq S] [DecidableEq S'] in
theorem Embedding.left_respects :
    (left : Embedding S (S ⊕ S') W (W ⊕ W')).Respects corr (BothCorrelated corr corr') where
  read := fun _ hboth => hboth.1
  keep := by
    intro tape tape' hboth hread hframe
    refine ⟨hread, ?_⟩
    have hright : (right : Embedding S' (S ⊕ S') W' (W ⊕ W')).read tape' = right.read tape := by
      ext p s i
      exact congrArg _ (congrFun (hframe p (Sum.inr s) fun _ => Sum.inr_ne_inl) i)
    rw [hright]
    exact hboth.2

omit [DecidableEq P] [DecidableEq S] [DecidableEq S'] in
theorem Embedding.right_respects :
    (right : Embedding S' (S ⊕ S') W' (W ⊕ W')).Respects corr' (BothCorrelated corr corr') where
  read := fun _ hboth => hboth.2
  keep := by
    intro tape tape' hboth hread hframe
    refine ⟨?_, hread⟩
    have hleft : (left : Embedding S (S ⊕ S') W (W ⊕ W')).read tape' = left.read tape := by
      ext p s i
      exact congrArg _ (congrFun (hframe p (Sum.inl s) fun _ => Sum.inl_ne_inr) i)
    rw [hleft]
    exact hboth.1

/-- More sources for elements of the same kind. -/
def Embedding.firstSource : Embedding S (S ⊕ S') W W where
  source := Sum.inl
  source_injective := Sum.inl_injective
  wrap := id
  unwrap := id
  unwrap_wrap := fun _ => rfl

def Embedding.secondSource : Embedding S' (S ⊕ S') W W where
  source := Sum.inr
  source_injective := Sum.inr_injective
  wrap := id
  unwrap := id
  unwrap_wrap := fun _ => rfl

end Sum

section Sources

variable {corr : (P → S → ℕ → W) → Prop} {corr' : (P → S' → ℕ → W) → Prop}

/-- The tapes of either kind of sources are correlated. -/
def SourcesCorrelated (corr : (P → S → ℕ → W) → Prop) (corr' : (P → S' → ℕ → W) → Prop)
    (tape : P → S ⊕ S' → ℕ → W) : Prop :=
  corr (Embedding.firstSource.read tape) ∧ corr' (Embedding.secondSource.read tape)

theorem Embedding.firstSource_respects :
    (firstSource : Embedding S (S ⊕ S') W W).Respects corr (SourcesCorrelated corr corr') where
  read := fun _ hboth => hboth.1
  keep := by
    intro tape tape' hboth hread hframe
    refine ⟨hread, ?_⟩
    have hsecond : (secondSource : Embedding S' (S ⊕ S') W W).read tape' = secondSource.read tape :=
      funext fun p => funext fun s => hframe p (Sum.inr s) fun _ => Sum.inr_ne_inl
    rw [hsecond]
    exact hboth.2

theorem Embedding.secondSource_respects :
    (secondSource : Embedding S' (S ⊕ S') W W).Respects corr' (SourcesCorrelated corr corr') where
  read := fun _ hboth => hboth.2
  keep := by
    intro tape tape' hboth hread hframe
    refine ⟨?_, hread⟩
    have hfirst : (firstSource : Embedding S (S ⊕ S') W W).read tape' = firstSource.read tape :=
      funext fun p => funext fun s => hframe p (Sum.inl s) fun _ => Sum.inl_ne_inr
    rw [hfirst]
    exact hboth.1

end Sources

end CryptDough.Process
