import CryptDough.CorruptedParty
import CryptDough.Fantastic4PCConversion

/-! Programs of four parties of which one is corrupted: linear operations, inputs that two parties
know, products and resharing. In hindsight the honest parties have the shares of the plaintexts. -/

namespace CryptDough.CorruptedParty

open Process Sharing Fantastic4PC JointMessagePassing Hindsight ProtocolBase ZeroSharingGenerator

variable {k n m l : ℕ}

/-- `Pi` and `Pj` share the vector they both know. -/
def inp (corrupted : Fin 4) (binary : Bool) (x : Fin 4 → Vec (8 * k) n) (Pi Pj Pg Ph : Fin 4) :
    Run k (scheme.Shares (Vec (8 * k) n)) := do
  let xg ← draw n (.inl Pg)
  let r (p : Fin 4) : EVec scheme (8 * k) n :=
    if p = Pg then fun _ => 0 else Function.update (fun _ => 0) (abs2sh p Pg) xg
  let xh (p : Fin 4) : Vec (8 * k) n :=
    if p = Pg ∨ p = Ph then r p (abs2sh p Ph) else Vec.minus binary (x p) xg
  let xh ← jmp corrupted xh Pi Pj Pg
  pure fun p => if p = Ph then r p else Function.update (r p) (abs2sh p Ph) (xh p)

def accumulate (corrupted : Fin 4) (binary : Bool)
    (mul : Vec (8 * k) n → Vec (8 * k) m → Vec (8 * k) l) (x : scheme.Shares (Vec (8 * k) n))
    (y : scheme.Shares (Vec (8 * k) m)) :
    List (Fin 4 × Fin 4) → scheme.Shares (Vec (8 * k) l) → Run k (scheme.Shares (Vec (8 * k) l))
  | [], r => pure r
  | (Pi, Pj) :: pairs, r => do
      let Pg := nextParty Pi Pj
      let Ph := excludedParty Pi Pj Pg
      let known (p : Fin 4) : Vec (8 * k) l :=
        if p = Pg ∨ p = Ph then r p 0
        else Vec.plus binary (mul (x p (abs2sh p Ph)) (y p (abs2sh p Pg)))
          (mul (x p (abs2sh p Pg)) (y p (abs2sh p Ph)))
      let shared ← inp corrupted binary known Pi Pj Pg Ph
      accumulate corrupted binary mul x y pairs fun p i => Vec.plus binary (r p i) (shared p i)

def genericMultiply (corrupted : Fin 4) (binary : Bool)
    (mul : Vec (8 * k) n → Vec (8 * k) m → Vec (8 * k) l) (x : scheme.Shares (Vec (8 * k) n))
    (y : scheme.Shares (Vec (8 * k) m)) : Run k (scheme.Shares (Vec (8 * k) l)) := do
  let r ← accumulate corrupted binary mul x y allPairs fun _ _ => 0
  pure fun p i => Vec.plus binary (r p i) (mul (x p i) (y p i))

/-- The shares of zero the members of a group draw. -/
def groupGetNext (binary : Bool) (n : ℕ) (group : Group 3) : Run k (Fin 4 → Vec (8 * k) n) :=
  fun world =>
    let nums := tapeVectors (world.tape (.inr group)) n 3
    (Fin.snoc (α := fun _ => Vec (8 * k) n) nums (dependent binary nums),
      { world with tape := advance world.tape (.inr group) (3 * n) })

def distribute (corrupted : Fin 4) (group : Group 3) :
    List (Fin 4) → scheme.Shares (Vec (8 * k) n) → Run k (scheme.Shares (Vec (8 * k) n))
  | [], v => pure v
  | sh :: shs, v =>
      if receiver group = sh then distribute corrupted group shs v
      else
        match holders group sh with
        | Pi :: Pj :: _ => do
            let share ← jmp corrupted (fun p => v p (abs2sh p sh)) Pi Pj (receiver group)
            distribute corrupted group shs fun p => Function.update (v p) (abs2sh p sh) (share p)
        | _ => distribute corrupted group shs v

def reshare (corrupted : Fin 4) (v : scheme.Shares (Vec (8 * k) n)) (group : Group 3)
    (binary : Bool) : Run k (scheme.Shares (Vec (8 * k) n)) := do
  let rand ← groupGetNext binary n group
  distribute corrupted group [0, 1, 2, 3] fun p =>
    if receiver group ≠ p then fun i => Vec.plus binary (v p i) (rand (partyShare p i)) else v p

/-- The encoding and the size of a vector. -/
structure VectorType where
  binary : Bool
  n : ℕ

/-- A place in a list of types. -/
inductive Var : List VectorType → VectorType → Type
  | head {t : VectorType} {types : List VectorType} : Var (t :: types) t
  | tail {t u : VectorType} {types : List VectorType} (x : Var types t) : Var (u :: types) t

/-- A value for every place. -/
abbrev Env (V : VectorType → Type) (types : List VectorType) :=
  ∀ t, Var types t → V t

def Env.cons {V : VectorType → Type} {types : List VectorType} {u : VectorType} (value : V u)
    (env : Env V types) : Env V (u :: types)
  | _, .head => value
  | _, .tail x => env _ x

abbrev Plain (k : ℕ) (t : VectorType) : Type := Vec (8 * k) t.n

abbrev Shared (k : ℕ) (t : VectorType) : Type := scheme.Shares (Plain k t)

/-- An operation on earlier results. An input is known to two parties, and a product is bilinear. -/
inductive Instruction (k : ℕ) (types : List VectorType) : VectorType → Type
  | linear {binary : Bool} {n m l : ℕ} (f : Vec (8 * k) n → Vec (8 * k) m → Vec (8 * k) l)
      (hlinear : ∀ a b a' b', f (Vec.plus binary a b) (Vec.plus binary a' b') =
        Vec.plus binary (f a a') (f b b'))
      (x : Var types ⟨binary, n⟩) (y : Var types ⟨binary, m⟩) : Instruction k types ⟨binary, l⟩
  | inp {n : ℕ} (binary : Bool) (x : Fin 4 → Vec (8 * k) n) (Pi Pj : Fin 4) (hne : Pi ≠ Pj)
      (hknown : x Pi = x Pj) : Instruction k types ⟨binary, n⟩
  | genericMultiply {n m l : ℕ} (binary : Bool)
      (mul : Vec (8 * k) n → Vec (8 * k) m → Vec (8 * k) l)
      (hleft : ∀ a b c, mul (Vec.plus binary a b) c = Vec.plus binary (mul a c) (mul b c))
      (hright : ∀ a b c, mul a (Vec.plus binary b c) = Vec.plus binary (mul a b) (mul a c))
      (x : Var types ⟨binary, n⟩) (y : Var types ⟨binary, m⟩) : Instruction k types ⟨binary, l⟩
  | reshare {n : ℕ} (binary : Bool) (group : Group 3) (hgroup : group ∈ getGroups)
      (x : Var types ⟨binary, n⟩) : Instruction k types ⟨binary, n⟩

/-- Instructions that each add a result, and the result that is opened in the end. -/
inductive Program (k : ℕ) : List VectorType → VectorType → Type
  | result {types : List VectorType} {t : VectorType} (x : Var types t) : Program k types t
  | step {types : List VectorType} {t u : VectorType} (instruction : Instruction k types t)
      (rest : Program k (t :: types) u) : Program k types u

section Semantics

variable {types : List VectorType} {t : VectorType}

def Instruction.value (env : Env (Plain k) types) : Instruction k types t → Plain k t
  | .linear f _ x y => f (env _ x) (env _ y)
  | .inp _ x Pi _ _ _ => x Pi
  | .genericMultiply _ mul _ _ x y => mul (env _ x) (env _ y)
  | .reshare _ _ _ x => env _ x

def Instruction.exec (corrupted : Fin 4) (env : Env (Shared k) types) :
    Instruction k types t → Run k (Shared k t)
  | .linear f _ x y => pure fun p i => f (env _ x p i) (env _ y p i)
  | .inp binary x Pi Pj _ _ =>
      let Pg := nextParty Pi Pj
      CorruptedParty.inp corrupted binary x Pi Pj Pg (excludedParty Pi Pj Pg)
  | .genericMultiply binary mul _ _ x y =>
      CorruptedParty.genericMultiply corrupted binary mul (env _ x) (env _ y)
  | .reshare binary group _ x => CorruptedParty.reshare corrupted (env _ x) group binary

/-- What the program computes on plaintexts. -/
def Program.value : {types : List VectorType} → Env (Plain k) types → Program k types t → Plain k t
  | _, env, .result x => env _ x
  | _, env, .step instruction rest => rest.value (env.cons (instruction.value env))

def Program.exec (corrupted : Fin 4) :
    {types : List VectorType} → Env (Shared k) types → Program k types t → Run k (Shared k t)
  | _, env, .result x => pure (env _ x)
  | _, env, .step instruction rest => do
      let shares ← instruction.exec corrupted env
      rest.exec corrupted (env.cons shares)

end Semantics

section Hindsight

variable {corrupted : Fin 4} {binary : Bool}

/-- What honest parties return, once their streams agree. -/
abbrev Vouched {α : Type} (corrupted : Fin 4) (op : Run k α) (post : α → Prop) : Prop :=
  Vouches (World.Sound corrupted)
    (fun world : World k => world.Agree corrupted fun p => p ≠ corrupted) op post

/-- The honest parties have been dealt the parts `z`. -/
def Dealt {D : Type} (corrupted : Fin 4) (s : scheme.Shares D) (z : Fin 4 → D) : Prop :=
  ∀ p, p ≠ corrupted → s p = (Scheme.deal z : scheme.Shares D) p

/-- What the honest parties have is shares of the secret. -/
def HonestlyOpens (corrupted : Fin 4) (binary : Bool) {w : ℕ} (s : scheme.Shares (Vec w n))
    (secret : Vec w n) : Prop :=
  ∃ z, Dealt corrupted s z ∧ combine (Vec.plus binary) z = secret

theorem HonestlyOpens.plus {w : ℕ} {s s' : scheme.Shares (Vec w n)} {a b : Vec w n}
    (hs : HonestlyOpens corrupted binary s a) (hs' : HonestlyOpens corrupted binary s' b) :
    HonestlyOpens corrupted binary (fun p i => Vec.plus binary (s p i) (s' p i))
      (Vec.plus binary a b) := by
  obtain ⟨z, hz, rfl⟩ := hs
  obtain ⟨z', hz', rfl⟩ := hs'
  refine ⟨fun i => Vec.plus binary (z i) (z' i), fun p hp => ?_, combine_op _ z z'⟩
  funext i
  show Vec.plus binary (s p i) (s' p i) = _
  rw [hz p hp, hz' p hp]
  rfl

/-- One of two parties is honest. -/
theorem exists_honest {Pi Pj : Fin 4} (hne : Pi ≠ Pj) (corrupted : Fin 4) :
    ∃ owner, owner ≠ corrupted ∧ (owner = Pi ∨ owner = Pj) := by
  by_cases hi : Pi = corrupted
  · exact ⟨Pj, fun hj => hne (hi.trans hj.symm), Or.inr rfl⟩
  · exact ⟨Pi, hi, Or.inl rfl⟩

theorem vouched_inp (x : Fin 4 → Vec (8 * k) n) {Pi Pj Pg Ph : Fin 4}
    (hroles : [Pi, Pj, Pg, Ph].Nodup) :
    Vouched corrupted (inp corrupted binary x Pi Pj Pg Ph) fun s => ∀ v,
      (∀ owner, owner ≠ corrupted → owner = Pi ∨ owner = Pj → x owner = v) →
        HonestlyOpens corrupted binary s v := by
  have hdistinct : [Pi, Pj, Pg].Nodup :=
    (List.sublist_append_left [Pi, Pj, Pg] [Ph]).nodup hroles
  have howners : ∀ p, p ≠ Pg → p ≠ Ph → p = Pi ∨ p = Pj := fun p => owner_of_ne hroles
  simp only [List.nodup_cons, List.mem_cons, List.not_mem_nil, or_false, not_or, not_false_eq_true,
    List.nodup_nil, and_true] at hroles
  obtain ⟨⟨hij, hig, hih⟩, ⟨hjg, hjh⟩, hgh⟩ := hroles
  refine (vouches_draw n (.inl Pg)).bind fun xg => ?_
  refine (vouches_jmp (fun _ hp => hp) _ hdistinct).bind fun y => Vouches.pure ?_
  rintro ⟨hkept, hreceived⟩ _ v hknown
  refine ⟨inpParts (Vec.minus binary) v xg Pg Ph, fun p hp => ?_,
    combine_inpParts (fun a => (Vec.plus_comm binary 0 a).trans (Vec.plus_zero binary a))
      (fun a b => Vec.plus_minus binary b a) v xg hgh⟩
  have howner : ∀ owner, owner ≠ corrupted → owner = Pi ∨ owner = Pj →
      (if owner = Pg ∨ owner = Ph then (if owner = Pg then fun _ => 0
        else Function.update (fun _ => 0) (abs2sh owner Pg) xg : EVec scheme (8 * k) n)
          (abs2sh owner Ph) else Vec.minus binary (x owner) xg) = Vec.minus binary v xg := by
    intro owner hhonest hpair
    have hneither : ¬ (owner = Pg ∨ owner = Ph) := by
      rcases hpair with rfl | rfl
      · exact not_or.mpr ⟨hig, hih⟩
      · exact not_or.mpr ⟨hjg, hjh⟩
    rw [if_neg hneither, hknown owner hhonest hpair]
  funext i
  refine inp_shares (Vec.minus binary) hgh (fun hph => ?_) i
  by_cases hpg : p = Pg
  · subst hpg
    obtain ⟨owner, hhonest, hpair⟩ := exists_honest hij corrupted
    rw [hreceived hp owner hhonest hpair, howner owner hhonest hpair]
  · rw [hkept p hp hpg, howner p hp (howners p hpg hph)]

section Multiply

variable {mul : Vec (8 * k) n → Vec (8 * k) m → Vec (8 * k) l}

theorem vouched_accumulate (x : scheme.Shares (Vec (8 * k) n)) (y : scheme.Shares (Vec (8 * k) m))
    (pairs : List (Fin 4 × Fin 4)) (hpairs : ∀ q ∈ pairs, DistinctRoles q)
    (r : scheme.Shares (Vec (8 * k) l)) :
    Vouched corrupted (accumulate corrupted binary mul x y pairs r) fun s => ∀ X Y,
      Dealt corrupted x X → Dealt corrupted y Y → ∀ sum, HonestlyOpens corrupted binary r sum →
        HonestlyOpens corrupted binary s
          (pairs.foldl (fun s q => Vec.plus binary s (crossTerm (Vec.plus binary) mul X Y q))
            sum) := by
  induction pairs generalizing r with
  | nil => exact Vouches.pure fun X Y _ _ sum hsum => hsum
  | cons q pairs ih =>
      obtain ⟨Pi, Pj⟩ := q
      have hroles := hpairs (Pi, Pj) List.mem_cons_self
      have hdistinct := hroles
      simp only [DistinctRoles, List.nodup_cons, List.mem_cons, List.not_mem_nil, or_false, not_or]
        at hdistinct
      obtain ⟨⟨_, hig, hih⟩, ⟨hjg, hjh⟩, _⟩ := hdistinct
      refine (vouched_inp _ hroles).bind fun shared => ?_
      apply (ih (fun q hq => hpairs q (List.mem_cons_of_mem _ hq)) _).mono
      intro s hs hshared X Y hX hY sum hsum
      refine hs X Y hX hY _ (hsum.plus (hshared (crossTerm (Vec.plus binary) mul X Y (Pi, Pj)) ?_))
      intro owner hhonest hpair
      have hg : owner ≠ nextParty Pi Pj := by
        rcases hpair with rfl | rfl <;> assumption
      have hh : owner ≠ excludedParty Pi Pj (nextParty Pi Pj) := by
        rcases hpair with rfl | rfl <;> assumption
      rw [if_neg (not_or.mpr ⟨hg, hh⟩), hX owner hhonest, hY owner hhonest,
        deal_abs2sh X (Ne.symm hg), deal_abs2sh X (Ne.symm hh), deal_abs2sh Y (Ne.symm hg),
        deal_abs2sh Y (Ne.symm hh)]
      rfl

theorem vouched_genericMultiply
    (hleft : ∀ a b c, mul (Vec.plus binary a b) c = Vec.plus binary (mul a c) (mul b c))
    (hright : ∀ a b c, mul a (Vec.plus binary b c) = Vec.plus binary (mul a b) (mul a c))
    (x : scheme.Shares (Vec (8 * k) n)) (y : scheme.Shares (Vec (8 * k) m)) :
    Vouched corrupted (genericMultiply corrupted binary mul x y) fun s => ∀ a b,
      HonestlyOpens corrupted binary x a → HonestlyOpens corrupted binary y b →
        HonestlyOpens corrupted binary s (mul a b) := by
  refine (vouched_accumulate x y allPairs allPairs_distinctRoles _).bind fun r => Vouches.pure ?_
  rintro hr a b ⟨X, hX, rfl⟩ ⟨Y, hY, rfl⟩
  have hzero : HonestlyOpens corrupted binary
      (fun _ _ => 0 : scheme.Shares (Vec (8 * k) l)) 0 :=
    ⟨fun _ => 0, fun _ _ => rfl, combine_const_idem _ 0 (Vec.plus_zero binary 0)⟩
  have hself : HonestlyOpens corrupted binary (fun p i => mul (x p i) (y p i))
      (combine (Vec.plus binary) fun i => mul (X i) (Y i)) := by
    refine ⟨fun i => mul (X i) (Y i), fun p hp => ?_, rfl⟩
    funext i
    show mul (x p i) (y p i) = _
    rw [hX p hp, hY p hp]
    rfl
  rw [← sixteen_products (fun a => (Vec.plus_comm binary 0 a).trans (Vec.plus_zero binary a))
    hleft hright X Y]
  exact (hr X Y hX hY 0 hzero).plus hself

end Multiply

section Reshare

theorem vouched_groupGetNext (n : ℕ) (group : Group 3) :
    Vouched corrupted (groupGetNext binary n group : Run k _) fun rand =>
      combine (Vec.plus binary) rand = 0 :=
  Vouches.of_frame (fun _ hsound => ⟨hsound.alive, hsound.aligned⟩) (fun _ hagree => hagree)
    fun _ => combine_zeroSharing binary _

/-- The honest members have their parts, and an honest party outside has got those in `done`. -/
def HonestlyDistributed (corrupted : Fin 4) {D : Type} (x : Fin 4 → D) (group : Group 3)
    (done : List (Fin 4)) (v : scheme.Shares D) : Prop :=
  ∀ p, p ≠ corrupted → ∀ r, p ≠ receiver group ∨ scheme.held p r ∈ done →
    v p r = x (scheme.held p r)

theorem holders_distinct : ∀ group ∈ getGroups, ∀ sh, receiver group ≠ sh →
    ∃ Pi Pj, holders group sh = [Pi, Pj] ∧ [Pi, Pj, receiver group].Nodup ∧ Pi ≠ sh ∧ Pj ≠ sh := by
  decide

theorem HonestlyDistributed.update {x : Fin 4 → Vec (8 * k) n} {group : Group 3}
    {done : List (Fin 4)} {v : scheme.Shares (Vec (8 * k) n)}
    (hv : HonestlyDistributed corrupted x group done v) {sh : Fin 4} (hsh : receiver group ≠ sh)
    {share : Fin 4 → Vec (8 * k) n}
    (hkept : ∀ p, p ≠ corrupted → p ≠ receiver group → share p = v p (abs2sh p sh))
    (hreceived : receiver group ≠ corrupted → share (receiver group) = x sh) :
    HonestlyDistributed corrupted x group (sh :: done) fun p =>
      Function.update (v p) (abs2sh p sh) (share p) := by
  intro p hp r hr
  by_cases hreceiver : p = receiver group
  · subst hreceiver
    show Function.update (v (receiver group)) _ _ r = _
    rw [update_abs2sh (Ne.symm hsh), hreceived hp]
    split
    · rename_i hheld
      rw [hheld]
    · rename_i hheld
      apply hv _ hp
      rcases hr with hr | hr
      · exact absurd rfl hr
      · exact Or.inr ((List.mem_cons.mp hr).resolve_left hheld)
  · show Function.update (v p) _ _ r = _
    rw [hkept p hp hreceiver, Function.update_eq_self]
    exact hv p hp r (Or.inl hreceiver)

theorem vouched_distribute {group : Group 3} (hgroup : group ∈ getGroups)
    (shs : List (Fin 4)) (v : scheme.Shares (Vec (8 * k) n)) :
    Vouched corrupted (distribute corrupted group shs v) fun s => ∀ x done,
      HonestlyDistributed corrupted x group done v →
        HonestlyDistributed corrupted x group (shs ++ done) s := by
  induction shs generalizing v with
  | nil => exact Vouches.pure fun x done hv => hv
  | cons sh shs ih =>
      by_cases hsh : receiver group = sh
      · rw [distribute, if_pos hsh]
        refine (ih v).mono fun s hs x done hv p hp r hr => hs x done hv p hp r ?_
        rcases hr with hr | hr
        · exact Or.inl hr
        · rcases List.mem_cons.mp hr with heq | hr
          · refine Or.inl fun hreceiver => held_ne p r ?_
            rw [heq, ← hsh, hreceiver]
          · exact Or.inr hr
      · obtain ⟨Pi, Pj, hholders, hdistinct, hi, hj⟩ := holders_distinct group hgroup sh hsh
        rw [distribute, if_neg hsh, hholders]
        refine (vouches_jmp (fun _ hp => hp) _ hdistinct).bind fun share => ?_
        apply (ih _).mono
        rintro s hs ⟨hkept, hreceived⟩ x done hv
        have hpart : receiver group ≠ corrupted → share (receiver group) = x sh := by
          intro hreceiver
          simp only [List.nodup_cons, List.mem_cons, List.not_mem_nil, or_false, not_or] at hdistinct
          obtain ⟨⟨hij, hir⟩, hjr, _⟩ := hdistinct
          obtain ⟨owner, hhonest, hpair⟩ := exists_honest hij corrupted
          have hne : sh ≠ owner := by
            rcases hpair with rfl | rfl
            · exact Ne.symm hi
            · exact Ne.symm hj
          have hmember : owner ≠ receiver group := by
            rcases hpair with rfl | rfl <;> assumption
          rw [hreceived hreceiver owner hhonest hpair, hv owner hhonest _ (Or.inl hmember),
            held_abs2sh hne]
        have hnext := hs x (sh :: done) (hv.update hsh hkept hpart)
        intro p hp r hr
        refine hnext p hp r (hr.imp_right fun hr => ?_)
        rcases List.mem_cons.mp hr with heq | hr
        · exact List.mem_append_right _ (heq ▸ List.mem_cons_self)
        · rcases List.mem_append.mp hr with hr | hr
          · exact List.mem_append_left _ hr
          · exact List.mem_append_right _ (List.mem_cons_of_mem _ hr)

theorem vouched_reshare {group : Group 3} (hgroup : group ∈ getGroups)
    (v : scheme.Shares (Vec (8 * k) n)) :
    Vouched corrupted (reshare corrupted v group binary) fun s => ∀ a,
      HonestlyOpens corrupted binary v a → HonestlyOpens corrupted binary s a := by
  refine (vouched_groupGetNext n group).bind fun rand => ?_
  apply (vouched_distribute hgroup _ _).mono
  rintro s hs hzero a ⟨z, hz, rfl⟩
  have hstart := hs (fun j => Vec.plus binary (z j) (rand (j - 1))) [] ?_
  · refine ⟨_, fun p hp => ?_, combine_rerandomized binary z rand hzero⟩
    funext r
    refine hstart p hp r (Or.inr ?_)
    generalize scheme.held p r = j
    revert j
    decide
  · intro p hp r hr
    have hmember := Ne.symm (hr.resolve_right List.not_mem_nil)
    show (if receiver group ≠ p then _ else _ : EVec scheme (8 * k) n) r = _
    rw [if_pos hmember, hz p hp, partyShare_eq]
    rfl

end Reshare

/-- The honest parties have shares of every plaintext. -/
def EnvOpens (corrupted : Fin 4) {types : List VectorType} (shares : Env (Shared k) types)
    (plain : Env (Plain k) types) : Prop :=
  ∀ t (x : Var types t), HonestlyOpens corrupted t.binary (shares t x) (plain t x)

theorem EnvOpens.cons {types : List VectorType} {t : VectorType} {shares : Env (Shared k) types}
    {plain : Env (Plain k) types} (henv : EnvOpens corrupted shares plain) {s : Shared k t}
    {a : Plain k t} (hs : HonestlyOpens corrupted t.binary s a) :
    EnvOpens corrupted (shares.cons s) (plain.cons a) := by
  intro u x
  cases x with
  | head => exact hs
  | tail x => exact henv u x

theorem vouched_instruction {types : List VectorType} {t : VectorType}
    (instruction : Instruction k types t) (env : Env (Shared k) types) :
    Vouched corrupted (instruction.exec corrupted env) fun s => ∀ plain,
      EnvOpens corrupted env plain →
        HonestlyOpens corrupted t.binary s (instruction.value plain) := by
  cases instruction with
  | linear f hlinear x y =>
      refine Vouches.pure fun plain henv => ?_
      obtain ⟨X, hX, hx⟩ := henv _ x
      obtain ⟨Y, hY, hy⟩ := henv _ y
      refine ⟨fun i => f (X i) (Y i), fun p hp => ?_, ?_⟩
      · funext i
        show f (env _ x p i) (env _ y p i) = _
        rw [hX p hp, hY p hp]
        rfl
      · rw [combine_map₂ f hlinear X Y, hx, hy]
        rfl
  | inp binary x Pi Pj hne hknown =>
      refine (vouched_inp x (distinctRoles hne)).mono fun s hs plain _ => hs (x Pi) ?_
      rintro owner _ (rfl | rfl)
      · rfl
      · exact hknown.symm
  | genericMultiply binary mul hleft hright x y =>
      exact (vouched_genericMultiply hleft hright _ _).mono fun s hs plain henv =>
        hs _ _ (henv _ x) (henv _ y)
  | reshare binary group hgroup x =>
      exact (vouched_reshare hgroup _).mono fun s hs plain henv => hs _ (henv _ x)

/-- Once the streams agree, the honest parties have shares of what the program computes. -/
theorem vouched_program {types : List VectorType} {t : VectorType} (program : Program k types t)
    (env : Env (Shared k) types) :
    Vouched corrupted (program.exec corrupted env) fun s => ∀ plain,
      EnvOpens corrupted env plain →
        HonestlyOpens corrupted t.binary s (program.value plain) := by
  induction program with
  | result x => exact Vouches.pure fun plain henv => henv _ x
  | step instruction rest ih =>
      refine (vouched_instruction instruction env).bind fun shares => ?_
      exact (ih _).mono fun s hs hshares plain henv => hs _ (henv.cons (hshares plain henv))

end Hindsight

end CryptDough.CorruptedParty
