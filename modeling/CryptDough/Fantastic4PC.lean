import CryptDough.Protocol
import Mathlib.Tactic.FinCases
import Mathlib.Tactic.Ring

/-! Four parties with replicated shares: party `p` keeps every part but part `p`. A product is the
sum of one shared input for each pair of parties and of the products of equal parts. The hashes that
detect a cheating sender do not influence what honest parties compute and are left out here. -/

namespace CryptDough.Fantastic4PC

open Process Sharing Communicator

abbrev scheme : Scheme where
  last := 3
  rep := 2
  held := fun p r => p + 1 + r.castLE (by decide)
  owner := fun i => i - 1
  held_owner := fun i => by
    show i - 1 + 1 + 0 = i
    rw [add_zero, sub_add_cancel]

/-- The generator all parties share except the one at a relative rank. -/
inductive Source
  | common (relativeRank : Fin 4)
deriving DecidableEq

variable {w n : ℕ}

/-- The three parties that share a generator read the same tape. -/
def Correlated (tape : Fin 4 → Source → ℕ → BitVec w) : Prop :=
  ∀ g p q, p ≠ g → q ≠ g → ∀ i, tape p (.common (g - p)) i = tape q (.common (g - q)) i

abbrev Program (w : ℕ) (β : Type) := Proc (Fin 4) Source (BitVec w) β

def getNext (source : Source) (n : ℕ) : Program w (Vec w n) := .draw source n .done

/-- The receiver of what the parties `i` and `j` have in common. -/
def nextParty (i j : Fin 4) : Fin 4 :=
  if max i j = min i j + 1 then max i j + 1 else min i j + 1

def excludedParty (i j k : Fin 4) : Fin 4 := Fin.ofNat 4 (0 + 1 + 2 + 3 - (i.val + j.val + k.val))

def abs2rel (partyID p : Fin 4) : Fin 4 := p - partyID

/-- The slot in which this party keeps part `p`; the first one when it does not have that part. -/
def abs2sh (partyID p : Fin 4) : Fin 3 :=
  if p = partyID then 0 else Fin.ofNat 3 (((abs2rel partyID p).val + 3) % 4)

def whoHashes (a b : Fin 4) : Fin 4 := max a b

def jmpSender (Pi Pj : Fin 4) : Fin 4 := if Pi = whoHashes Pi Pj then Pj else Pi

/-- `Pi` and `Pj` pass the vector they both have to `Pr`; only one of them sends it. -/
def jmp (partyID : Fin 4) (x : Vec w n) (Pi Pj Pr : Fin 4) : Program w (Vec w n) :=
  if partyID = Pr then receiveShares partyID (abs2rel partyID (jmpSender Pi Pj)) n
  else if partyID = jmpSender Pi Pj then do
    sendShares partyID (abs2rel partyID Pr) x
    pure x
  else pure x

/-- Part `Pg` of a shared input; party `Pg` draws nothing and has zeros in that place. -/
def drawPart (n : ℕ) (partyID Pg : Fin 4) : Program w (Vec w n) :=
  if partyID = Pg then pure 0 else getNext (.common (abs2rel partyID Pg)) n

/-- `Pi` and `Pj` share a vector `x` they both know: part `Pg` is drawn by the three parties that
keep it, part `Ph` is what is left of `x`, and the other two are zero. -/
def inp (minus : Vec w n → Vec w n → Vec w n) (partyID : Fin 4) (x : Vec w n)
    (Pi Pj Pg Ph : Fin 4) : Program w (EVec scheme w n) := do
  let r : EVec scheme w n := fun _ => 0
  let xg ← drawPart n partyID Pg
  let r := if partyID = Pg then r else Function.update r (abs2sh partyID Pg) xg
  let xh := if partyID = Pg ∨ partyID = Ph then r (abs2sh partyID Ph) else minus x xg
  let xh ← jmp partyID xh Pi Pj Pg
  pure (if partyID = Ph then r else Function.update r (abs2sh partyID Ph) xh)

section Multiply

variable {m k : ℕ} (add minus : Vec w k → Vec w k → Vec w k) (mul : Vec w n → Vec w m → Vec w k)

/-- The accumulator `r` plus the shared inputs of the pairs in `pairs`: each pair knows the two cross
products of the parts the other two parties lack. -/
def accumulate (partyID : Fin 4) (x : EVec scheme w n) (y : EVec scheme w m) :
    List (Fin 4 × Fin 4) → EVec scheme w k → Program w (EVec scheme w k)
  | [], r => pure r
  | (Pi, Pj) :: pairs, r => do
      let Pg := nextParty Pi Pj
      let Ph := excludedParty Pi Pj Pg
      let hi := abs2sh partyID Ph
      let gi := abs2sh partyID Pg
      let known := if partyID = Pg ∨ partyID = Ph then r 0
        else add (mul (x hi) (y gi)) (mul (x gi) (y hi))
      let shared ← inp minus partyID known Pi Pj Pg Ph
      accumulate partyID x y pairs fun k => add (r k) (shared k)

def allPairs : List (Fin 4 × Fin 4) := [(0, 1), (0, 2), (0, 3), (1, 2), (1, 3), (2, 3)]

def genericMultiply (partyID : Fin 4) (x : EVec scheme w n) (y : EVec scheme w m) :
    Program w (EVec scheme w k) := do
  let r ← accumulate add minus mul partyID x y allPairs fun _ => 0
  pure fun k => add (r k) (mul (x k) (y k))

end Multiply

def andB (partyID : Fin 4) (x y : EVec scheme w n) : Program w (EVec scheme w n) :=
  genericMultiply (· ^^^ ·) (· ^^^ ·) (· &&& ·) partyID x y

/-- Only part 3 is complemented, by the three parties that keep it. -/
def notB (partyID : Fin 4) (x : EVec scheme w n) : EVec scheme w n :=
  ![if partyID = 2 then ~~~ x 0 else x 0, if partyID = 1 then ~~~ x 1 else x 1,
    if partyID = 0 then ~~~ x 2 else x 2]

def notB1 (partyID : Fin 4) (x : EVec scheme w n) : EVec scheme w n :=
  let x0 := Vec.mask (x 0) 1
  let x1 := Vec.mask (x 1) 1
  let x2 := Vec.mask (x 2) 1
  ![if partyID = 2 then Vec.logicalNot x0 else x0, if partyID = 1 then Vec.logicalNot x1 else x1,
    if partyID = 0 then Vec.logicalNot x2 else x2]

theorem deal_eq {D : Type} (z : Fin 4 → D) :
    (Scheme.deal z : scheme.Shares D) = fun p => ![z (p + 1), z (p + 2), z (p + 3)] := by
  ext p r
  fin_cases p <;> fin_cases r <;> rfl

theorem held_abs2sh {p j : Fin 4} (hne : j ≠ p) : scheme.held p (abs2sh p j) = j := by
  revert p j
  decide

/-- A party keeps part `j` in slot `abs2sh p j`, and the part it lacks nowhere. -/
theorem deal_abs2sh {D : Type} (z : Fin 4 → D) {p j : Fin 4} (hne : j ≠ p) :
    (Scheme.deal z : scheme.Shares D) p (abs2sh p j) = z j :=
  congrArg z (held_abs2sh hne)

theorem reconstruct_deal {D : Type} (op : D → D → D) [Std.Commutative op] [Std.Associative op]
    (z : Fin 4 → D) :
    Scheme.reconstruct op (Scheme.deal z : scheme.Shares D) = combine op z := by
  have hrot : Scheme.reconstruct op (Scheme.deal z : scheme.Shares D) =
      op (op (op (z 1) (z 2)) (z 3)) (z 0) := by
    rw [deal_eq]
    rfl
  rw [hrot, combine_four]
  ac_rfl

theorem abs2rel_add (p q : Fin 4) : p + abs2rel p q = q := by
  rw [abs2rel, add_sub_cancel]

theorem receiveShares_abs2rel (p q : Fin 4) :
    (receiveShares p (abs2rel p q) n : Program w (Vec w n)) = .recv q n .done :=
  congrArg (fun r => Proc.recv r n .done) (abs2rel_add p q)

theorem sendShares_abs2rel (p q : Fin 4) (x : Vec w n) :
    (sendShares p (abs2rel p q) x : Program w Unit) = .send q n x (.done ()) :=
  congrArg (fun r => Proc.send r n x (.done ())) (abs2rel_add p q)

theorem runs_jmp (x : Fin 4 → Vec w n) {Pi Pj Pr : Fin 4} (hr : jmpSender Pi Pj ≠ Pr)
    (tape : Fin 4 → Source → ℕ → BitVec w) :
    Runs (fun p => jmp p (x p) Pi Pj Pr) tape
      (fun p => if p = Pr then x (jmpSender Pi Pj) else x p) tape := by
  have htransfer := runs_transfer hr (x (jmpSender Pi Pj)) x tape
  convert htransfer using 2
  rename_i p
  by_cases hp : p = Pr
  · subst hp
    simp only [jmp, if_true, receiveShares_abs2rel, if_neg (Ne.symm hr)]
    rfl
  · by_cases hs : p = jmpSender Pi Pj
    · subst hs
      simp only [jmp, if_neg hp, if_true, sendShares_abs2rel]
      rfl
    · simp only [jmp, if_neg hp, if_neg hs]
      rfl

/-- The tapes after an input that party `g` takes no part in drawing. -/
def inpTape (n : ℕ) (g : Fin 4) (tape : Fin 4 → Source → ℕ → BitVec w) :
    Fin 4 → Source → ℕ → BitVec w := fun p =>
  if p = g then tape p else advance (tape p) (.common (abs2rel p g)) n

theorem Correlated.inpTape {tape : Fin 4 → Source → ℕ → BitVec w} (hcorr : Correlated tape)
    (n : ℕ) (g : Fin 4) : Correlated (inpTape n g tape) := by
  intro h p q hp hq i
  have hread : ∀ p, p ≠ h → Fantastic4PC.inpTape n g tape p (.common (h - p)) i =
      tape p (.common (h - p)) (if h = g then n + i else i) := by
    intro p hp
    by_cases hpg : p = g
    · have hgh : ¬ h = g := fun hgh => hp (hpg.trans hgh.symm)
      simp [Fantastic4PC.inpTape, hpg, hgh]
    · by_cases hgh : h = g
      · simp [Fantastic4PC.inpTape, hpg, hgh, advance, abs2rel]
      · have hne : ¬ h - p = g - p := fun heq => hgh (sub_left_inj.mp heq)
        simp [Fantastic4PC.inpTape, hpg, hgh, advance, abs2rel, hne]
  rw [hread p hp, hread q hq]
  exact hcorr h p q hp hq _

/-- The parts of a shared input `v`. -/
def inpParts (minus : Vec w n → Vec w n → Vec w n) (v xg : Vec w n) (g h : Fin 4) :
    Fin 4 → Vec w n := fun i => if i = g then xg else if i = h then minus v xg else 0

/-- The part all parties but `g` draw next. -/
def inpDraw (n : ℕ) (g : Fin 4) (tape : Fin 4 → Source → ℕ → BitVec w) (p : Fin 4) : Vec w n :=
  if p = g then 0 else fun i => tape p (.common (abs2rel p g)) i

theorem eq_abs2sh_iff {p j : Fin 4} (hne : j ≠ p) (k : Fin 3) :
    k = abs2sh p j ↔ scheme.held p k = j := by
  revert p j k
  decide

theorem held_ne (p : Fin 4) (k : Fin 3) : scheme.held p k ≠ p := by
  revert p k
  decide

theorem update_abs2sh {p j : Fin 4} (hne : j ≠ p) (s : EVec scheme w n) (v : Vec w n) (k : Fin 3) :
    Function.update s (abs2sh p j) v k = if scheme.held p k = j then v else s k := by
  by_cases hk : k = abs2sh p j
  · rw [if_pos ((eq_abs2sh_iff hne k).mp hk), hk, Function.update_self]
  · rw [if_neg fun hj => hk ((eq_abs2sh_iff hne k).mpr hj), Function.update_of_ne hk]

theorem runs_drawPart (g : Fin 4) (tape : Fin 4 → Source → ℕ → BitVec w) :
    Runs (fun p => drawPart n p g) tape (inpDraw n g tape) (inpTape n g tape) := by
  apply Runs.settle
  convert Runs.pure (inpDraw n g tape) (inpTape n g tape) using 1
  · ext p
    by_cases hp : p = g
    · simp only [drawPart, if_pos hp, inpDraw]
      rfl
    · simp only [drawPart, if_neg hp, inpDraw]
      rfl
  · ext p
    by_cases hp : p = g
    · simp only [drawPart, if_pos hp, inpTape]
      rfl
    · simp only [drawPart, if_neg hp, inpTape]
      rfl

/-- What party `p` keeps of an input: the drawn part, and the part it computes or receives. -/
theorem inp_shares (minus : Vec w n → Vec w n → Vec w n) {v xg xh : Vec w n} {Pg Ph p : Fin 4}
    (hgh : Pg ≠ Ph) (hxh : p ≠ Ph → xh = minus v xg) (k : Fin 3) :
    (if p = Ph then
        if p = Pg then fun _ => 0 else Function.update (fun _ => 0) (abs2sh p Pg) xg
      else Function.update
        (if p = Pg then fun _ => 0 else Function.update (fun _ => 0) (abs2sh p Pg) xg)
        (abs2sh p Ph) xh : EVec scheme w n) k =
      inpParts minus v xg Pg Ph (scheme.held p k) := by
  have hheld := held_ne p k
  by_cases hph : p = Ph
  · have hpg : p ≠ Pg := fun heq => hgh (heq.symm.trans hph)
    have hne : scheme.held p k ≠ Ph := hph ▸ hheld
    rw [if_pos hph, if_neg hpg, update_abs2sh (Ne.symm hpg), inpParts, if_neg hne]
  · rw [if_neg hph, update_abs2sh (Ne.symm hph), hxh hph, inpParts]
    by_cases hpg : p = Pg
    · have hne : scheme.held p k ≠ Pg := hpg ▸ hheld
      rw [if_pos hpg, if_neg hne]
    · rw [if_neg hpg, update_abs2sh (Ne.symm hpg)]
      by_cases hg : scheme.held p k = Pg
      · have hne : scheme.held p k ≠ Ph := fun heq => hgh (hg.symm.trans heq)
        rw [if_neg hne, if_pos hg, if_pos hg]
      · rw [if_neg hg, if_neg hg]

/-- Four different parties are all there are. -/
theorem owner_of_ne {Pi Pj Pg Ph p : Fin 4} (hroles : [Pi, Pj, Pg, Ph].Nodup) (hg : p ≠ Pg)
    (hh : p ≠ Ph) : p = Pi ∨ p = Pj := by
  have huniv : [Pi, Pj, Pg, Ph].toFinset = Finset.univ := by
    apply Finset.eq_univ_of_card
    rw [List.toFinset_card_of_nodup hroles]
    rfl
  have hmem : p ∈ [Pi, Pj, Pg, Ph] := List.mem_toFinset.mp (huniv ▸ Finset.mem_univ p)
  simp only [List.mem_cons, List.not_mem_nil, or_false] at hmem
  rcases hmem with hi | hj | hg' | hh'
  · exact Or.inl hi
  · exact Or.inr hj
  · exact absurd hg' hg
  · exact absurd hh' hh

theorem runs_inp (minus : Vec w n → Vec w n → Vec w n) (x : Fin 4 → Vec w n)
    {v : Vec w n} {Pi Pj Pg Ph : Fin 4} (hi : x Pi = v) (hj : x Pj = v)
    (hroles : [Pi, Pj, Pg, Ph].Nodup) {tape : Fin 4 → Source → ℕ → BitVec w}
    (hcorr : Correlated tape) :
    Runs (fun p => inp minus p (x p) Pi Pj Pg Ph) tape
      (Scheme.deal (inpParts minus v (inpDraw n Pg tape Pi) Pg Ph) : scheme.Shares (Vec w n))
      (inpTape n Pg tape) := by
  have howners : ∀ p, p ≠ Pg → p ≠ Ph → p = Pi ∨ p = Pj := fun p => owner_of_ne hroles
  simp only [List.nodup_cons, List.mem_cons, List.not_mem_nil, or_false, not_or, not_false_eq_true,
    List.nodup_nil, and_true] at hroles
  obtain ⟨⟨hij, hig, hih⟩, ⟨hjg, hjh⟩, hgh⟩ := hroles
  have hsender : jmpSender Pi Pj = Pi ∨ jmpSender Pi Pj = Pj := by
    unfold jmpSender
    split
    · exact Or.inr rfl
    · exact Or.inl rfl
  have hxs : x (jmpSender Pi Pj) = v := by
    rcases hsender with hs | hs <;> rw [hs] <;> assumption
  have hsg : jmpSender Pi Pj ≠ Pg := by
    rcases hsender with hs | hs <;> rw [hs] <;> assumption
  have hsh : jmpSender Pi Pj ≠ Ph := by
    rcases hsender with hs | hs <;> rw [hs] <;> assumption
  have hdraw : ∀ p, p ≠ Pg → inpDraw n Pg tape p = inpDraw n Pg tape Pi := by
    intro p hp
    simp only [inpDraw, if_neg hp, if_neg hig]
    exact funext fun i => hcorr Pg p Pi hp hig i
  have hx : ∀ p, p ≠ Pg → p ≠ Ph → x p = v := by
    intro p hpg hph
    rcases howners p hpg hph with rfl | rfl <;> assumption
  let r (p : Fin 4) : EVec scheme w n :=
    if p = Pg then fun _ => 0 else Function.update (fun _ => 0) (abs2sh p Pg) (inpDraw n Pg tape p)
  let xh (p : Fin 4) : Vec w n :=
    if p = Pg ∨ p = Ph then r p (abs2sh p Ph) else minus (x p) (inpDraw n Pg tape p)
  have hrun : Runs (fun p => inp minus p (x p) Pi Pj Pg Ph) tape
      (fun p => if p = Ph then r p else Function.update (r p) (abs2sh p Ph)
        (if p = Pg then xh (jmpSender Pi Pj) else xh p)) (inpTape n Pg tape) := by
    apply (runs_drawPart Pg tape).bind
    exact (runs_jmp xh hsg (inpTape n Pg tape)).bind (Runs.pure _ _)
  convert hrun using 1
  funext p k
  show inpParts minus v (inpDraw n Pg tape Pi) Pg Ph (scheme.held p k) = _
  have hr : r p = if p = Pg then fun _ => 0
      else Function.update (fun _ => 0) (abs2sh p Pg) (inpDraw n Pg tape Pi) := by
    by_cases hpg : p = Pg
    · simp only [r, if_pos hpg]
    · simp only [r, if_neg hpg, hdraw p hpg]
  have hxh : p ≠ Ph → (if p = Pg then xh (jmpSender Pi Pj) else xh p) =
      minus v (inpDraw n Pg tape Pi) := by
    intro hph
    by_cases hpg : p = Pg
    · simp only [xh, if_pos hpg, hsg, hsh, or_self, if_false, hxs, hdraw _ hsg]
    · simp only [xh, hpg, hph, or_self, if_false, hx p hpg hph, hdraw p hpg]
  rw [hr]
  exact (inp_shares minus hgh hxh k).symm

section Input

variable {add minus : Vec w n → Vec w n → Vec w n} [Std.Commutative add] [Std.Associative add]

omit [Std.Associative add] in
theorem combine_inpParts (hzero : ∀ a, add 0 a = a) (hminus : ∀ a b, add b (minus a b) = a)
    (v xg : Vec w n) {g h : Fin 4} (hgh : g ≠ h) : combine add (inpParts minus v xg g h) = v := by
  have hzero' : ∀ a, add a 0 = a := fun a => (Std.Commutative.comm a 0).trans (hzero a)
  have hminus' : ∀ a b, add (minus a b) b = a :=
    fun a b => (Std.Commutative.comm (minus a b) b).trans (hminus a b)
  rw [combine_four]
  fin_cases g <;> fin_cases h <;> first
    | exact absurd rfl hgh
    | simp [inpParts, hzero, hzero', hminus, hminus']

theorem computes_inp (hzero : ∀ a, add 0 a = a) (hminus : ∀ a b, add b (minus a b) = a)
    (x : Fin 4 → Vec w n) {v : Vec w n} {Pi Pj Pg Ph : Fin 4} (hi : x Pi = v) (hj : x Pj = v)
    (hroles : [Pi, Pj, Pg, Ph].Nodup) :
    Computes Correlated (fun p => inp minus p (x p) Pi Pj Pg Ph)
      fun z : scheme.Shares (Vec w n) => Scheme.Opens add z v := by
  refine Computes.of_runs fun tape hcorr => ⟨_, _, runs_inp minus x hi hj hroles hcorr,
    hcorr.inpTape n Pg, ⟨_, rfl⟩, ?_⟩
  have hgh : Pg ≠ Ph := by
    simp only [List.nodup_cons, List.mem_cons, List.not_mem_nil, or_false] at hroles
    exact hroles.2.2.1
  rw [reconstruct_deal]
  exact combine_inpParts hzero hminus v _ hgh

end Input

section Multiply

variable {m k : ℕ} {addX : Vec w n → Vec w n → Vec w n} {addY : Vec w m → Vec w m → Vec w m}
  {add minus : Vec w k → Vec w k → Vec w k} {mul : Vec w n → Vec w m → Vec w k}
  [Std.Commutative add] [Std.Associative add]

/-- What the parties `q.1` and `q.2` contribute: the products of the two parts they both keep. -/
def crossTerm (add : Vec w k → Vec w k → Vec w k) (mul : Vec w n → Vec w m → Vec w k)
    (x : Fin 4 → Vec w n) (y : Fin 4 → Vec w m) (q : Fin 4 × Fin 4) : Vec w k :=
  let g := nextParty q.1 q.2
  let h := excludedParty q.1 q.2 g
  add (mul (x h) (y g)) (mul (x g) (y h))

/-- The four roles of a shared input of the pair `q` are four different parties. -/
def DistinctRoles (q : Fin 4 × Fin 4) : Prop :=
  [q.1, q.2, nextParty q.1 q.2, excludedParty q.1 q.2 (nextParty q.1 q.2)].Nodup

theorem computes_accumulate (hzero : ∀ a, add 0 a = a) (hminus : ∀ a b, add b (minus a b) = a)
    (x : Fin 4 → Vec w n) (y : Fin 4 → Vec w m) (pairs : List (Fin 4 × Fin 4))
    (hpairs : ∀ q ∈ pairs, DistinctRoles q) {r : scheme.Shares (Vec w k)} {sum : Vec w k}
    (hr : Scheme.Opens add r sum) :
    Computes Correlated
      (fun p => accumulate add minus mul p (Scheme.deal x p) (Scheme.deal y p) pairs (r p))
      fun z : scheme.Shares (Vec w k) =>
        Scheme.Opens add z (pairs.foldl (fun s q => add s (crossTerm add mul x y q)) sum) := by
  induction pairs generalizing r sum with
  | nil => exact Computes.pure hr
  | cons q pairs ih =>
      obtain ⟨Pi, Pj⟩ := q
      have hroles := hpairs (Pi, Pj) List.mem_cons_self
      let X : scheme.Shares (Vec w n) := Scheme.deal x
      let Y : scheme.Shares (Vec w m) := Scheme.deal y
      let known (p : Fin 4) : Vec w k :=
        if p = nextParty Pi Pj ∨ p = excludedParty Pi Pj (nextParty Pi Pj) then r p 0
        else
          add (mul (X p (abs2sh p (excludedParty Pi Pj (nextParty Pi Pj))))
              (Y p (abs2sh p (nextParty Pi Pj))))
            (mul (X p (abs2sh p (nextParty Pi Pj)))
              (Y p (abs2sh p (excludedParty Pi Pj (nextParty Pi Pj)))))
      have hknown : ∀ p, p ≠ nextParty Pi Pj → p ≠ excludedParty Pi Pj (nextParty Pi Pj) →
          known p = crossTerm add mul x y (Pi, Pj) := by
        intro p hg hh
        simp only [known, hg, hh, or_self, if_false, crossTerm, X, Y, deal_abs2sh _ (Ne.symm hg),
          deal_abs2sh _ (Ne.symm hh)]
      have hdistinct := hroles
      simp only [DistinctRoles, List.nodup_cons, List.mem_cons, List.not_mem_nil, or_false, not_or]
        at hdistinct
      obtain ⟨⟨_, hig, hih⟩, ⟨hjg, hjh⟩, _⟩ := hdistinct
      refine (computes_inp hzero hminus known (hknown Pi hig hih) (hknown Pj hjg hjh) hroles).bind
        fun shared hshared => ?_
      exact ih (fun q hq => hpairs q (List.mem_cons_of_mem _ hq)) (hr.op hshared)

theorem allPairs_distinctRoles : ∀ q ∈ allPairs, DistinctRoles q := by
  unfold DistinctRoles
  decide

/-- The cross terms of all pairs and the products of equal parts are all sixteen products. -/
theorem sixteen_products (hzero : ∀ a, add 0 a = a)
    (hl : ∀ a b c, mul (addX a b) c = add (mul a c) (mul b c))
    (hr : ∀ a b c, mul a (addY b c) = add (mul a b) (mul a c)) (x : Fin 4 → Vec w n)
    (y : Fin 4 → Vec w m) :
    add (allPairs.foldl (fun s q => add s (crossTerm add mul x y q)) 0)
      (combine add fun i => mul (x i) (y i)) = mul (combine addX x) (combine addY y) := by
  have hfold : allPairs.foldl (fun s q => add s (crossTerm add mul x y q)) 0 =
      add (add (add (add (add (add 0 (add (mul (x 3) (y 2)) (mul (x 2) (y 3))))
        (add (mul (x 3) (y 1)) (mul (x 1) (y 3)))) (add (mul (x 2) (y 1)) (mul (x 1) (y 2))))
        (add (mul (x 0) (y 3)) (mul (x 3) (y 0)))) (add (mul (x 0) (y 2)) (mul (x 2) (y 0))))
        (add (mul (x 1) (y 0)) (mul (x 0) (y 1))) := rfl
  rw [hfold, hzero, combine_four, combine_four, combine_four]
  simp only [hl, hr]
  ac_rfl

variable [Std.Commutative addX] [Std.Associative addX] [Std.Commutative addY] [Std.Associative addY]

theorem computes_genericMultiply (hzero : ∀ a, add 0 a = a)
    (hminus : ∀ a b, add b (minus a b) = a)
    (hl : ∀ a b c, mul (addX a b) c = add (mul a c) (mul b c))
    (hr : ∀ a b c, mul a (addY b c) = add (mul a b) (mul a c)) {x : scheme.Shares (Vec w n)}
    {y : scheme.Shares (Vec w m)} {a : Vec w n} {b : Vec w m} (hx : Scheme.Opens addX x a)
    (hy : Scheme.Opens addY y b) :
    Computes Correlated (fun p => genericMultiply add minus mul p (x p) (y p))
      fun z : scheme.Shares (Vec w k) => Scheme.Opens add z (mul a b) := by
  obtain ⟨⟨x, rfl⟩, rfl⟩ := hx
  obtain ⟨⟨y, rfl⟩, rfl⟩ := hy
  have hzeroShares : Scheme.Opens add (fun _ _ => 0 : scheme.Shares (Vec w k)) 0 :=
    ⟨⟨fun _ => 0, rfl⟩, combine_const_idem _ 0 (hzero 0)⟩
  refine (computes_accumulate hzero hminus x y allPairs allPairs_distinctRoles hzeroShares).bind
    fun r hsum => Computes.pure ?_
  have hself : Scheme.Opens add (Scheme.deal fun i => mul (x i) (y i) : scheme.Shares (Vec w k))
      (combine add fun i => mul (x i) (y i)) := ⟨⟨_, rfl⟩, reconstruct_deal add _⟩
  rw [reconstruct_deal, reconstruct_deal, ← sixteen_products hzero hl hr]
  exact hsum.op hself

end Multiply

theorem andB_computes {x y : scheme.Shares (Vec w n)} {a b : Vec w n} (hx : OpensB x a)
    (hy : OpensB y b) :
    Computes Correlated (fun p => andB p (x p) (y p)) fun z : scheme.Shares (Vec w n) =>
      OpensB z (a &&& b) :=
  computes_genericMultiply (fun v => funext fun i => BitVec.zero_xor)
    (fun a b => by
      ext i
      rw [Vec.xor_apply, Vec.xor_apply, BitVec.xor_comm (a i), ← BitVec.xor_assoc, BitVec.xor_self,
        BitVec.zero_xor]) Vec.xor_and Vec.and_xor hx hy

theorem notB_deal (x : Fin 4 → Vec w n) :
    (fun p => notB p (Scheme.deal x p)) =
      (Scheme.deal (Function.update x 3 (~~~ x 3)) : scheme.Shares (Vec w n)) := by
  ext p r
  fin_cases p <;> fin_cases r <;> rfl

theorem notB_opens {x : scheme.Shares (Vec w n)} {a : Vec w n} (hx : OpensB x a) :
    OpensB (fun p => notB p (x p)) (~~~ a) := by
  obtain ⟨⟨x, rfl⟩, rfl⟩ := hx
  rw [notB_deal]
  refine ⟨⟨_, rfl⟩, ?_⟩
  rw [reconstruct_deal, reconstruct_deal, combine_four, combine_four]
  funext i
  ext j hj
  simp

end CryptDough.Fantastic4PC

namespace CryptDough

abbrev fantastic4PC (w : ℕ) : Protocol w where
  scheme := Fantastic4PC.scheme
  Source := Fantastic4PC.Source
  correlated := Fantastic4PC.Correlated
  andB := Fantastic4PC.andB
  notB := Fantastic4PC.notB
  notB1 := Fantastic4PC.notB1
  correlated_zero := fun _ _ _ _ _ _ => rfl
  andB_computes := Fantastic4PC.andB_computes
  notB_opens := Fantastic4PC.notB_opens

end CryptDough
