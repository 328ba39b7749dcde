import CryptDough.ZeroSharings
import Mathlib.Data.Finset.Fold

/-! Runs of zero-sharing calls that all parties make in the same order: what each call uses of every
generator, and when the values of each call add, or XOR, to zero. -/

namespace CryptDough

open Sharing AESPRGAlgorithm CommonPRGManager

local instance (priority := high) callers (last : ℕ) : @NeZero ℕ Zero.ofOfNat0 (last + 1) :=
  ⟨last.succ_ne_zero⟩

namespace Sharing

section Fold

variable {D : Type} {op : D → D → D} [Std.Commutative op] [Std.Associative op] {e : D}

theorem combine_eq_fold (he : ∀ a, op a e = a) {k : ℕ} (x : Fin (k + 1) → D) :
    combine op x = Finset.univ.fold op e x := by
  induction k with
  | zero =>
      have huniv : (Finset.univ : Finset (Fin (0 + 1))) = {0} := rfl
      rw [combine_zero, huniv, Finset.fold_singleton, he]
  | succ k ih =>
      rw [combine_succ, ih, Fin.univ_castSuccEmb (k + 1), Finset.fold_cons, Finset.fold_map]
      exact Std.Commutative.comm _ _

/-- The order of the parts does not matter. -/
theorem combine_equiv (he : ∀ a, op a e = a) {k : ℕ} (σ : Equiv.Perm (Fin (k + 1)))
    (x : Fin (k + 1) → D) : combine op (fun i => x (σ i)) = combine op x := by
  rw [combine_eq_fold he, combine_eq_fold he]
  calc Finset.univ.fold op e (fun i => x (σ i))
      = (Finset.univ.map σ.toEmbedding).fold op e x := by
        rw [Finset.fold_map]
        rfl
    _ = Finset.univ.fold op e x := by rw [Finset.map_univ_equiv]

/-- Differences around a cycle cancel. -/
theorem combine_cycle {minus : D → D → D} (he : ∀ a, op a e = a)
    (hminus : ∀ a b c d, minus (op a b) (op c d) = op (minus a c) (minus b d))
    (hself : ∀ a, minus a a = e) {k : ℕ} (σ : Equiv.Perm (Fin (k + 1))) (x : Fin (k + 1) → D) :
    combine op (fun i => minus (x (σ i)) (x i)) = e := by
  rw [combine_map₂ minus hminus (fun i => x (σ i)) x,
    combine_equiv he σ x, hself]

end Fold

end Sharing

namespace ZeroSharingGenerator

variable {last : ℕ} {groups : Finset (Group last)}

/-- The calls, which the parties make in lockstep; a call for a group only its members make. The
variables of a single number hold what the caller left in them. -/
inductive Call (groups : Finset (Group last))
  | arithmetic (size : ElementSize) (n : ℕ)
  | arithmeticNum (size : ElementSize) (nums : Fin (last + 1) → BitVec (8 * size.bytes))
  | binary (size : ElementSize) (n : ℕ)
  | binaryNum (size : ElementSize)
  | group (binary : Bool) (size : ElementSize) (m n : ℕ) (group : Group last)
      (hgroup : group ∈ groups)

namespace Call

def Values : Call groups → Type
  | arithmetic size n | binary size n => Vec (8 * size.bytes) n
  | arithmeticNum size _ | binaryNum size => BitVec (8 * size.bytes)
  | group _ size m n _ _ => Option (Fin (m + 1) → Vec (8 * size.bytes) n)

section Run

variable (spdz : Bool) (aes : PRG last → Keystream)

/-- The call at one party. -/
def run : (call : Call groups) → Fin (last + 1) → Streams last call.Values
  | arithmetic size n, rank => getNextArithmetic spdz aes rank size n
  | arithmeticNum size nums, rank => getNextArithmeticNum spdz aes rank size (nums rank)
  | binary size n, rank => getNextBinary spdz aes rank size n
  | binaryNum size, rank => getNextBinaryNum spdz aes rank size
  | group xor size m n g _, rank =>
      if rank ∈ g then do
        let nums ← groupGetNextVectors aes xor g size m n
        pure (some nums)
      else pure none

/-- All parties return from the call. -/
def Returns (call : Call groups) (s : Fin (last + 1) → Nonces last)
    (values : Fin (last + 1) → call.Values) (s' : Fin (last + 1) → Nonces last) : Prop :=
  ∀ p, run spdz aes call p (s p) = some (values p, s' p)

end Run

/-- The values the parties obtain are a sharing of zero; of a group, the members obtain the same
vectors. -/
def SumsToZero : (call : Call groups) → (Fin (last + 1) → call.Values) → Prop
  | arithmetic size n, values => combine (fun a b : Vec (8 * size.bytes) n => a + b) values = 0
  | arithmeticNum size _, values => combine (fun a b : BitVec (8 * size.bytes) => a + b) values = 0
  | binary size n, values => combine (fun a b : Vec (8 * size.bytes) n => a ^^^ b) values = 0
  | binaryNum size, values => combine (fun a b : BitVec (8 * size.bytes) => a ^^^ b) values = 0
  | group xor size m n g _, values =>
      ∃ nums : Fin (m + 1) → Vec (8 * size.bytes) n,
        (∀ p ∈ g, values p = some nums) ∧ combine (Vec.plus xor) nums = 0

/-- How many nonces of a generator a party uses in a call. -/
def uses (spdz : Bool) : Call groups → Fin (last + 1) → PRG last → ℕ
  | arithmetic size n, rank, prg =>
      batches size n * neighbourUses spdz rank prg +
        if last = 3 ∧ commonPrgs spdz rank 2 = some prg then 1 else 0
  | arithmeticNum _ _, rank, prg | binaryNum _, rank, prg => neighbourUses spdz rank prg
  | binary size n, rank, prg => batches size n * neighbourUses spdz rank prg
  | group _ size m n g _, rank, prg =>
      if rank ∈ g ∧ .group g = prg then m * batches size n else 0

end Call

section Specs

variable {spdz : Bool} {aes : PRG last → Keystream} (size : ElementSize) (n : ℕ)
  (rank : Fin (last + 1)) (s : Nonces last)

theorem returnPlaintextZero_eq (hpos : 0 < last) : returnPlaintextZero last = false :=
  decide_eq_false (by omega)

theorem getNextBinary_run (hpos : 0 < last) (hlast : last ≤ 3) :
    getNextBinary spdz aes rank size n s =
      some ((drawn spdz aes (fun key => getNext key size n) (batches size n) rank s).1 ^^^
          (drawn spdz aes (fun key => getNext key size n) (batches size n) rank s).2,
        fun g => s g + batches size n * neighbourUses spdz rank g) := by
  have hdraw := neighbours_run spdz aes hpos hlast
    (fun key nonce => getNext_nonce size (n := n) key nonce) rank s
  rw [getNextBinary, returnPlaintextZero_eq hpos, if_neg Bool.false_ne_true, bind_some hdraw]
  rfl

theorem getNextBinaryNum_run (hpos : 0 < last) (hlast : last ≤ 3) :
    getNextBinaryNum spdz aes rank size s =
      some ((drawn spdz aes (fun key => getNextNum key size) 1 rank s).1 ^^^
          (drawn spdz aes (fun key => getNextNum key size) 1 rank s).2,
        fun g => s g + neighbourUses spdz rank g) := by
  have hdraw := neighbours_run spdz aes hpos hlast
    (fun key nonce => getNextNum_nonce size key nonce) rank s
  simp only [Nat.one_mul] at hdraw
  rw [getNextBinaryNum, returnPlaintextZero_eq hpos, if_neg Bool.false_ne_true, bind_some hdraw]
  rfl

theorem getNextArithmeticNum_run (hpos : 0 < last) (hlast : last ≤ 3)
    (num : BitVec (8 * size.bytes)) :
    getNextArithmeticNum spdz aes rank size num s =
      some (if arithmeticFlip rank then -num else num,
        fun g => s g + neighbourUses spdz rank g) := by
  have hdraw := neighbours_run spdz aes hpos hlast
    (fun key nonce => getNextNum_nonce size key nonce) rank s
  simp only [Nat.one_mul] at hdraw
  rw [getNextArithmeticNum, returnPlaintextZero_eq hpos, if_neg Bool.false_ne_true, bind_some hdraw]
  rfl

/-- The party opposite is told of a draw it does not make, by one nonce. -/
theorem getNextArithmetic_run (hpos : 0 < last) (hlast : last ≤ 3)
    (hnull : ¬ (spdz = true ∧ last = 3)) :
    getNextArithmetic spdz aes rank size n s =
      some (let nums := (drawn spdz aes (fun key => getNext key size n) (batches size n) rank s).1 -
          (drawn spdz aes (fun key => getNext key size n) (batches size n) rank s).2
        if arithmeticFlip rank then -nums else nums,
        fun g => s g + (batches size n * neighbourUses spdz rank g +
          if last = 3 ∧ commonPrgs spdz rank 2 = some g then 1 else 0)) := by
  have hdraw := neighbours_run spdz aes hpos hlast
    (fun key nonce => getNext_nonce size (n := n) key nonce) rank s
  rw [getNextArithmetic, returnPlaintextZero_eq hpos, if_neg Bool.false_ne_true, bind_some hdraw]
  by_cases hfour : last = 3
  · subst hfour
    obtain rfl : spdz = false := by
      cases spdz
      · rfl
      · exact absurd ⟨rfl, rfl⟩ hnull
    have hopposite : commonPrgs false rank 2 = some (PRG.key (rank + 1)) := by
      clear hdraw
      revert rank
      decide
    have hone (key : Keystream) (nonce : ℕ) : (incrementNonce nonce).2 = nonce + 1 := rfl
    have hnonce := call_some aes hone (PRG.key (rank + 1)) fun g =>
      s g + batches size n * neighbourUses false rank g
    simp only [hopposite, if_true]
    rw [bind_some hnonce]
    refine congrArg some (Prod.ext rfl (funext fun g => ?_))
    change s g + _ + _ = s g + (_ + _)
    simp only [Option.some.injEq, true_and, Nat.add_assoc]
  · have hrest (g : PRG last) : (if last = 3 ∧ commonPrgs spdz rank 2 = some g then 1 else 0) = 0 :=
      if_neg fun h => hfour h.1
    simp only [hrest, Nat.add_zero]
    rw [if_neg (by omega)]
    rfl

/-- The independent vectors of a group whose generator has used `nonce` nonces. -/
def groupVectors (key : Keystream) (nonce m : ℕ) : Fin m → Vec (8 * size.bytes) n := fun j =>
  (getNext key size n (nonce + j * batches size n)).1

/-- All vectors of the group: the last is what the others leave to zero. -/
def groupNums (xor : Bool) (key : Keystream) (nonce m : ℕ) : Fin (m + 1) → Vec (8 * size.bytes) n :=
  Fin.snoc (α := fun _ => Vec (8 * size.bytes) n) (groupVectors size n key nonce m)
    (dependent xor (groupVectors size n key nonce m))

theorem drawGroup_run (g : Group last) (m : ℕ) :
    drawGroup aes g size n m s =
      some (groupVectors size n (aes (.group g)) (s (.group g)) m,
        fun prg => s prg + if .group g = prg then m * batches size n else 0) := by
  induction m with
  | zero =>
      have hsame : (fun prg => s prg + if PRG.group g = prg then 0 * batches size n else 0) = s := by
        ext prg
        rw [Nat.zero_mul, ite_self, Nat.add_zero]
      rw [hsame]
      exact congrArg (fun nums => some (nums, s)) (funext fun j => j.elim0)
  | succ m ih =>
      have hnext := call_some aes (fun key nonce => getNext_nonce size (n := n) key nonce)
        (PRG.group g) fun prg => s prg + if PRG.group g = prg then m * batches size n else 0
      rw [drawGroup, bind_some ih, bind_some hnext]
      refine congrArg some (Prod.ext (funext fun j => ?_) (funext fun prg => ?_))
      · refine Fin.lastCases ?_ (fun j => ?_) j
        · change Fin.snoc (α := fun _ => Vec (8 * size.bytes) n) _ _ (Fin.last m) = _
          rw [Fin.snoc_last, if_pos rfl]
          rfl
        · change Fin.snoc (α := fun _ => Vec (8 * size.bytes) n) _ _ j.castSucc = _
          rw [Fin.snoc_castSucc]
          rfl
      · change s prg + _ + _ = s prg + _
        split
        · rw [Nat.add_mul, Nat.one_mul, Nat.add_assoc]
        · rfl

theorem groupGetNextVectors_run (xor : Bool) (g : Group last) (m : ℕ) :
    groupGetNextVectors aes xor g size m n s =
      some (groupNums size n xor (aes (.group g)) (s (.group g)) m,
        fun prg => s prg + if .group g = prg then m * batches size n else 0) := by
  rw [groupGetNextVectors, bind_some (drawGroup_run size n s g m)]
  rfl

end Specs

/-! What a call uses is what the specifications say, and readers of one generator use equally much. -/

section Uses

variable {spdz : Bool} {aes : PRG last → Keystream}

/-- The manager of four SPDZ2k parties has no generator for the party opposite. -/
def Call.Null (spdz : Bool) : Call groups → Prop
  | arithmetic _ _ => spdz = true ∧ last = 3
  | _ => False

theorem Call.run_null {call : Call groups} (hnull : call.Null spdz) (rank : Fin (last + 1))
    (s : Nonces last) : call.run spdz aes rank s = none := by
  cases call with
  | arithmetic size n =>
      obtain ⟨rfl, rfl⟩ := hnull
      have hdraw := neighbours_run true aes (by decide) le_rfl
        (fun key nonce => getNext_nonce size (n := n) key nonce) rank s
      have hopposite : commonPrgs true rank 2 = none := by
        clear hdraw
        revert rank
        decide
      rw [Call.run, getNextArithmetic, returnPlaintextZero_eq (by decide), if_neg Bool.false_ne_true,
        bind_some hdraw]
      simp only [hopposite]
      rfl
  | _ => exact hnull.elim

theorem Call.run_member (xor : Bool) (size : ElementSize) (m n : ℕ) {g : Group last} (hg : g ∈ groups)
    {rank : Fin (last + 1)} (hmem : rank ∈ g) (s : Nonces last) :
    (Call.group xor size m n g hg).run spdz aes rank s =
      some (some (groupNums size n xor (aes (.group g)) (s (.group g)) m),
        fun prg => s prg + (Call.group xor size m n g hg).uses spdz rank prg) := by
  rw [Call.run, if_pos hmem]
  apply (bind_some (groupGetNextVectors_run size n s xor g m) _).trans
  simp only [Call.uses, hmem, true_and]
  rfl

theorem Call.run_other (xor : Bool) (size : ElementSize) (m n : ℕ) {g : Group last} (hg : g ∈ groups)
    {rank : Fin (last + 1)} (hmem : rank ∉ g) (s : Nonces last) :
    (Call.group xor size m n g hg).run spdz aes rank s =
      some (none, fun prg => s prg + (Call.group xor size m n g hg).uses spdz rank prg) := by
  rw [Call.run, if_neg hmem]
  simp only [Call.uses, hmem, false_and, if_false, Nat.add_zero]
  rfl

theorem Call.run_group (xor : Bool) (size : ElementSize) (m n : ℕ) {g : Group last} (hg : g ∈ groups)
    (rank : Fin (last + 1)) (s : Nonces last) :
    ∃ value, (Call.group xor size m n g hg).run spdz aes rank s =
      some (value, fun prg => s prg + (Call.group xor size m n g hg).uses spdz rank prg) := by
  by_cases hmem : rank ∈ g
  · exact ⟨_, run_member xor size m n hg hmem s⟩
  · exact ⟨_, run_other xor size m n hg hmem s⟩

variable (aes) in
/-- Every other call returns. -/
theorem Call.run_uses (hlast : last ≤ 3) {call : Call groups} (hnull : ¬ call.Null spdz)
    (rank : Fin (last + 1)) (s : Nonces last) :
    ∃ value, call.run spdz aes rank s =
      some (value, fun prg => s prg + call.uses spdz rank prg) := by
  rcases Nat.eq_zero_or_pos last with rfl | hpos
  · cases call with
    | group xor size m n g hg => exact run_group xor size m n hg rank s
    | arithmetic size n =>
        exact ⟨(0 : Vec (8 * size.bytes) n), rfl⟩
    | arithmeticNum size nums => exact ⟨(0 : BitVec (8 * size.bytes)), rfl⟩
    | binary size n => exact ⟨(0 : Vec (8 * size.bytes) n), rfl⟩
    | binaryNum size => exact ⟨(0 : BitVec (8 * size.bytes)), rfl⟩
  · cases call with
    | arithmetic size n => exact ⟨_, getNextArithmetic_run size n rank s hpos hlast hnull⟩
    | arithmeticNum size nums => exact ⟨_, getNextArithmeticNum_run size rank s hpos hlast _⟩
    | binary size n => exact ⟨_, getNextBinary_run size n rank s hpos hlast⟩
    | binaryNum size => exact ⟨_, getNextBinaryNum_run size rank s hpos hlast⟩
    | group xor size m n g hg => exact run_group xor size m n hg rank s

theorem Call.uses_eq (hlast : last ≤ 3) (call : Call groups) {prg : PRG last} {p q : Fin (last + 1)}
    (hp : Draws spdz p prg) (hq : Draws spdz q prg) :
    call.uses spdz p prg = call.uses spdz q prg := by
  have huses := neighbourUses_eq hlast prg p q hp hq
  cases call with
  | arithmetic size n =>
      have hopposite {r : Fin (last + 1)} (hr : Draws spdz r prg) :
          ¬ (last = 3 ∧ commonPrgs spdz r 2 = some prg) := fun h =>
        not_draws_opposite h.1 hr h.2
      simp only [uses, if_neg (hopposite hp), if_neg (hopposite hq), huses]
  | arithmeticNum size nums => exact huses
  | binary size n => simp only [uses, huses]
  | binaryNum size => exact huses
  | group xor size m n g hg =>
      by_cases hprg : PRG.group g = prg
      · subst hprg
        simp only [uses, mem_of_draws hp, mem_of_draws hq]
      · simp only [uses, hprg, and_false]

variable {call : Call groups} {s s' : Fin (last + 1) → Nonces last}
  {values : Fin (last + 1) → call.Values}

theorem Call.Returns.not_null (hret : call.Returns spdz aes s values s') : ¬ call.Null spdz := by
  intro hnull
  have hrun := hret 0
  rw [run_null hnull] at hrun
  cases hrun

theorem Call.Returns.nonces (hlast : last ≤ 3) (hret : call.Returns spdz aes s values s')
    (p : Fin (last + 1)) (prg : PRG last) : s' p prg = s p prg + call.uses spdz p prg := by
  obtain ⟨value, hrun⟩ := run_uses aes hlast hret.not_null p (s p)
  have heq := Option.some.inj ((hret p).symm.trans hrun)
  exact congrFun (congrArg Prod.snd heq) prg

variable (aes) in
theorem Call.exists_returns (hlast : last ≤ 3) (hnull : ¬ call.Null spdz)
    (s : Fin (last + 1) → Nonces last) :
    ∃ values s', call.Returns spdz aes s values s' := by
  choose values hrun using fun p => run_uses aes hlast hnull p (s p)
  exact ⟨values, _, hrun⟩

/-- What a call uses keeps the readers together. -/
theorem Call.Returns.paired (hlast : last ≤ 3) (hret : call.Returns spdz aes s values s')
    (hsync : Paired spdz groups s) : Paired spdz groups s' := by
  intro prg p q hp hq hdp hdq
  rw [hret.nonces hlast, hret.nonces hlast, hsync prg p q hp hq hdp hdq, call.uses_eq hlast hdp hdq]

end Uses

/-! The draws of synchronised parties: from three parties on each draw is made by one party for its
successor and by the next for its predecessor; two parties draw the same pair. -/

section Drawn

variable {spdz : Bool} {aes : PRG last → Keystream} {s : Fin (last + 1) → Nonces last} {β : Type}
  (algorithm : Keystream → StateM ℕ β) (k : ℕ)

variable (aes) in
theorem drawn_ring (hone : 1 < last) (hlast : last ≤ 3) (hsync : Paired spdz groups s) :
    ∃ f : Fin (last + 1) → β, ∀ p,
      drawn spdz aes algorithm k p (s p) = (f (before spdz p), f p) := by
  have hpos : 0 < last := hone.le
  refine ⟨fun p => (algorithm (aes (nextPrg spdz p)) (s p (nextPrg spdz p))).1, fun p => ?_⟩
  have hsame : s p (nextPrg spdz (before spdz p)) =
      s (before spdz p) (nextPrg spdz (before spdz p)) :=
    hsync _ _ _ (.inl ⟨-1, commonPrgs_prev hpos hlast p⟩) (.inl ⟨1, commonPrgs_next hpos hlast _⟩)
      (.inl rfl) (.inr (.inl rfl))
  rw [drawn, if_neg (next_ne_before hone hlast p), hsame]
  rfl

theorem drawn_two {s : Fin (1 + 1) → Nonces 1} {groups : Finset (Group 1)}
    {aes : PRG 1 → Keystream} (hsync : Paired spdz groups s) :
    drawn spdz aes algorithm k 0 (s 0) = drawn spdz aes algorithm k 1 (s 1) := by
  have hheld (p : Fin (1 + 1)) : Holds spdz groups p (.group Finset.univ) :=
    .inl ⟨1, commonPrgs_next Nat.one_pos (by decide) p⟩
  have hsame : s 0 (.group Finset.univ) = s 1 (.group Finset.univ) :=
    hsync _ _ _ (hheld 0) (hheld 1) (.inl rfl) (.inl rfl)
  change ((algorithm (aes (.group Finset.univ)) (s 0 (.group Finset.univ))).1,
    (algorithm (aes (.group Finset.univ)) (s 0 (.group Finset.univ) + _)).1) = _
  rw [hsame]
  rfl

theorem combine_drawn {op minus : β → β → β} {e : β} [Std.Commutative op] [Std.Associative op]
    (he : ∀ a, op a e = a)
    (hminus : ∀ a b c d, minus (op a b) (op c d) = op (minus a c) (minus b d))
    (hself : ∀ a, minus a a = e) (hone : 1 < last) (hlast : last ≤ 3)
    (hsync : Paired spdz groups s) :
    combine op (fun p => minus (drawn spdz aes algorithm k p (s p)).1
      (drawn spdz aes algorithm k p (s p)).2) = e := by
  obtain ⟨f, hf⟩ := drawn_ring aes algorithm k hone hlast hsync
  simp only [hf]
  exact combine_cycle he hminus hself (before spdz) f

end Drawn

section Zero

variable {spdz : Bool} {aes : PRG last → Keystream} {s s' : Fin (last + 1) → Nonces last}
  {size : ElementSize} {n : ℕ}

theorem value_eq {β : Type} {x : Option (β × Nonces last)} {v v' : β} {s₁ s₂ : Nonces last}
    (hx : x = some (v, s₁)) (hx' : x = some (v', s₂)) : v = v' :=
  congrArg Prod.fst (Option.some.inj (hx.symm.trans hx'))

theorem getNextArithmetic_zero (hlast : last ≤ 3) (hnull : ¬ (spdz = true ∧ last = 3))
    (hsync : Paired spdz groups s) {values : Fin (last + 1) → Vec (8 * size.bytes) n}
    (hret : ∀ p, getNextArithmetic spdz aes p size n (s p) = some (values p, s' p)) :
    combine (fun a b => a + b) values = 0 := by
  rcases Nat.eq_zero_or_pos last with rfl | hpos
  · exact value_eq (hret 0) rfl
  · have hvalues (p : Fin (last + 1)) := value_eq (hret p)
      (getNextArithmetic_run size n p (s p) hpos hlast hnull)
    rcases Nat.lt_or_eq_of_le hpos with hone | rfl
    · have hflip (p : Fin (last + 1)) : arithmeticFlip p = false := decide_eq_false (by omega)
      simp only [hflip, Bool.false_eq_true, if_false] at hvalues
      rw [funext hvalues]
      exact combine_drawn _ _ add_zero add_sub_add_comm sub_self hone hlast hsync
    · rw [combine_two, hvalues, hvalues, ← drawn_two _ _ hsync]
      exact neg_add_cancel _

theorem getNextBinary_zero (hlast : last ≤ 3)
    (hsync : Paired spdz groups s) {values : Fin (last + 1) → Vec (8 * size.bytes) n}
    (hret : ∀ p, getNextBinary spdz aes p size n (s p) = some (values p, s' p)) :
    combine (fun a b => a ^^^ b) values = 0 := by
  rcases Nat.eq_zero_or_pos last with rfl | hpos
  · exact value_eq (hret 0) rfl
  · have hvalues (p : Fin (last + 1)) := value_eq (hret p)
      (getNextBinary_run size n p (s p) hpos hlast)
    rw [funext hvalues]
    rcases Nat.lt_or_eq_of_le hpos with hone | rfl
    · have hxor (a b c d : Vec (8 * size.bytes) n) :
          Vec.plus true (Vec.plus true a b) (Vec.plus true c d) =
            Vec.plus true (Vec.plus true a c) (Vec.plus true b d) := by ac_rfl
      exact combine_drawn _ _ (Vec.plus_zero true) hxor
        (fun a => funext fun i => BitVec.xor_self) hone hlast hsync
    · rw [combine_two, ← drawn_two _ _ hsync]
      exact funext fun i => BitVec.xor_self

theorem getNextBinaryNum_zero (hlast : last ≤ 3)
    (hsync : Paired spdz groups s) {values : Fin (last + 1) → BitVec (8 * size.bytes)}
    (hret : ∀ p, getNextBinaryNum spdz aes p size (s p) = some (values p, s' p)) :
    combine (fun a b => a ^^^ b) values = 0 := by
  rcases Nat.eq_zero_or_pos last with rfl | hpos
  · exact value_eq (hret 0) rfl
  · have hvalues (p : Fin (last + 1)) := value_eq (hret p)
      (getNextBinaryNum_run size p (s p) hpos hlast)
    rw [funext hvalues]
    rcases Nat.lt_or_eq_of_le hpos with hone | rfl
    · have hxor (a b c d : BitVec (8 * size.bytes)) :
          (a ^^^ b) ^^^ (c ^^^ d) = (a ^^^ c) ^^^ (b ^^^ d) := by ac_rfl
      exact combine_drawn _ _ (fun _ => BitVec.xor_zero) hxor (fun _ => BitVec.xor_self) hone hlast
        hsync
    · rw [combine_two, ← drawn_two _ _ hsync]
      exact BitVec.xor_self

end Zero

section Runs

variable {spdz : Bool} {aes : PRG last → Keystream}

/-- When a call returns a sharing of zero: a single arithmetic number is what its variable was, up to
the sign, and the vector call goes through the generator of the party opposite. -/
def Call.Meets (spdz : Bool) : Call groups → Prop
  | arithmetic _ _ => ¬ (spdz = true ∧ last = 3)
  | arithmeticNum size nums => last = 0 ∨ combine (fun a b : BitVec (8 * size.bytes) => a + b)
      (fun p => if arithmeticFlip p then -nums p else nums p) = 0
  | _ => True

theorem Call.Returns.sumsToZero_iff (hlast : last ≤ 3) {call : Call groups}
    {s s' : Fin (last + 1) → Nonces last} {values : Fin (last + 1) → call.Values}
    (hsync : Paired spdz groups s) (hret : call.Returns spdz aes s values s') :
    call.SumsToZero values ↔ call.Meets spdz := by
  cases call with
  | arithmetic size n =>
      exact iff_of_true (getNextArithmetic_zero hlast hret.not_null hsync hret) hret.not_null
  | arithmeticNum size nums =>
      rcases Nat.eq_zero_or_pos last with rfl | hpos
      · exact iff_of_true (value_eq (hret 0) rfl) (.inl rfl)
      · have hvalues (p : Fin (last + 1)) := value_eq (hret p)
          (getNextArithmeticNum_run size p (s p) hpos hlast (nums p))
        rw [funext hvalues]
        exact (or_iff_right hpos.ne').symm
  | binary size n => exact iff_of_true (getNextBinary_zero hlast hsync hret) trivial
  | binaryNum size => exact iff_of_true (getNextBinaryNum_zero hlast hsync hret) trivial
  | group xor size m n g hg =>
      refine iff_of_true ?_ trivial
      rcases g.eq_empty_or_nonempty with rfl | ⟨p, hp⟩
      · exact ⟨groupNums size n xor (aes (.group ∅)) 0 m,
          fun p hp => absurd hp (Finset.notMem_empty p), combine_zeroSharing xor _⟩
      · refine ⟨_, fun q hq => ?_, combine_zeroSharing xor
          (groupVectors size n (aes (.group g)) (s p (.group g)) m)⟩
        have hsame : s p (.group g) = s q (.group g) :=
          hsync _ _ _ (.inr ⟨g, hg, hp, rfl⟩) (.inr ⟨g, hg, hq, rfl⟩) (.inr (.inr hp))
            (.inr (.inr hq))
        rw [hsame]
        exact value_eq (hret q) (Call.run_member xor size m n hg hq (s q))

variable (spdz aes) in
/-- All parties return from every call of the run, each time with a sharing of zero. -/
def EachSumsToZero : List (Call groups) → (Fin (last + 1) → Nonces last) → Prop
  | [], _ => True
  | call :: calls, s =>
      ∃ values s', call.Returns spdz aes s values s' ∧ call.SumsToZero values ∧
        EachSumsToZero calls s'

theorem eachSumsToZero_iff (hlast : last ≤ 3) {s : Fin (last + 1) → Nonces last}
    (hsync : Paired spdz groups s) (calls : List (Call groups)) :
    EachSumsToZero spdz aes calls s ↔ ∀ call ∈ calls, call.Meets spdz := by
  induction calls generalizing s with
  | nil => exact iff_of_true trivial fun call hcall => absurd hcall List.not_mem_nil
  | cons call calls ih =>
      rw [List.forall_mem_cons]
      constructor
      · rintro ⟨values, s', hret, hzero, hrest⟩
        exact ⟨(hret.sumsToZero_iff hlast hsync).mp hzero,
          (ih (hret.paired hlast hsync)).mp hrest⟩
      · rintro ⟨hmeets, hrest⟩
        have hnull : ¬ call.Null spdz := by
          cases call with
          | arithmetic size n => exact hmeets
          | _ => exact id
        obtain ⟨values, s', hret⟩ := Call.exists_returns aes hlast hnull s
        exact ⟨values, s', hret, (hret.sumsToZero_iff hlast hsync).mpr hmeets,
          (ih (hret.paired hlast hsync)).mpr hrest⟩

theorem zero_sharings_iff (aes : PRG last → Keystream) (hlast : last ≤ 3)
    {s : Fin (last + 1) → Nonces last} (hsync : InSync spdz groups s) (calls : List (Call groups)) :
    EachSumsToZero spdz aes calls s ↔ ∀ call ∈ calls, call.Meets spdz :=
  eachSumsToZero_iff hlast (paired_of_inSync hsync) calls

theorem zero_sharings_example :
    EachSumsToZero false (fun _ nonce i => nonce.setWidth 8 + BitVec.ofNat 8 i)
      [.arithmetic .int32 5, .arithmeticNum .int32 ![1, 2, -3], .binaryNum .int32, .binary .int32 3,
        .group true .int32 2 4 {0, 1} (Finset.mem_singleton_self _)]
      (fun (_ : Fin (2 + 1)) _ => 7) := by
  refine (zero_sharings_iff _ (by decide) (fun _ _ _ _ _ => rfl) _).mpr ?_
  have hnums : (Call.arithmeticNum .int32 ![1, 2, -3] : Call {({0, 1} : Group 2)}).Meets false :=
    .inr (by decide)
  have harith : ¬ (false = true ∧ 2 = 3) := by decide
  simp only [List.forall_mem_cons]
  exact ⟨harith, hnums, trivial, trivial, trivial, fun call hcall =>
    absurd hcall List.not_mem_nil⟩

/-- Three parties call with variables that hold 1, 0 and 0, and keep them. -/
theorem single_number_kept :
    InSync false ∅ (fun (_ : Fin (2 + 1)) _ => 0) ∧
      ¬ EachSumsToZero false (fun _ _ _ => 0)
        [(.arithmeticNum .int32 ![1, 0, 0] : Call (∅ : Finset (Group 2)))] (fun _ _ => 0) := by
  have hsync : InSync false ∅ (fun (_ : Fin (2 + 1)) (_ : PRG 2) => 0) := fun _ _ _ _ _ => rfl
  refine ⟨hsync, fun hzero => ?_⟩
  rcases (eachSumsToZero_iff (by decide) (paired_of_inSync hsync) _).mp hzero _ (List.mem_singleton_self _)
    with halone | hsum
  · exact absurd halone (by decide)
  · exact absurd hsum (by decide)

end Runs

end ZeroSharingGenerator

end CryptDough
