import CryptDough.AdderChoice
import CryptDough.Equality

/-! Negation of the least significant bit, and the logical expressions over columns that the
relational operators build with it. -/

namespace CryptDough

open Process Sharing Protocol

variable {w n : ℕ}

/-- The least significant bit of every element. -/
def lsb (v : Vec w n) (k : Fin n) : Bool := (v k).getLsbD 0

@[simp] theorem lsb_xor (u v : Vec w n) (k : Fin n) : lsb (u ^^^ v) k = (lsb u k ^^ lsb v k) := by
  simp [lsb]

@[simp] theorem lsb_and (u v : Vec w n) (k : Fin n) : lsb (u &&& v) k = (lsb u k && lsb v k) := by
  simp [lsb]

theorem lsb_not (hw : 0 < w) (v : Vec w n) (k : Fin n) : lsb (~~~ v) k = !lsb v k := by
  simp [lsb, hw]

theorem lsb_mask (v : Vec w n) (k : Fin n) : lsb (Vec.mask v 1) k = lsb v k := by
  by_cases hw : 0 < w
  · simp [lsb, Vec.mask, hw]
  · obtain rfl : w = 0 := by omega
    simp [lsb]

theorem lsb_logicalNot (hw : 0 < w) (v : Vec w n) (k : Fin n) :
    lsb (Vec.logicalNot v) k = decide (v k = 0) := by
  rw [lsb, Vec.logicalNot_apply]
  by_cases hv : v k = 0
  · simp [hv, hw]
  · rw [if_neg hv, decide_eq_false hv]
    simp

/-- On a masked operand the zero test is a negation. -/
theorem lsb_logicalNot_mask (hw : 0 < w) (v : Vec w n) (k : Fin n) :
    lsb (Vec.logicalNot (Vec.mask v 1)) k = !lsb v k := by
  rw [lsb_logicalNot hw, Vec.mask, Vec.mask_one_eq, lsb]
  cases (v k).getLsbD 0 with
  | false => simp
  | true => simp [hw.ne']

theorem lsb_equalBits (hw : 0 < w) (a b : Vec w n) (k : Fin n) :
    lsb (equalBits a b) k = decide (a k = b k) := by
  by_cases heq : a k = b k
  · simp [lsb, equalBits, heq, hw]
  · simp [lsb, equalBits, heq]

/-- `notB1` gives a sharing whose value has the complementary least significant bits. -/
def Protocol.FlipsLsb (P : Protocol w) (x : P.scheme.Shares (Vec w n)) : Prop :=
  Scheme.Consistent (fun p => P.notB1 p (x p)) ∧
    ∀ k, lsb (reconstructFromB fun p => P.notB1 p (x p)) k = !lsb (reconstructFromB x) k

namespace Beaver2PC

theorem notB1_flips_iff (hw : 0 < w) (x : scheme.Shares (Vec w n)) (k : Fin n) :
    lsb (reconstructFromB fun p => notB1 p (x p)) k = (!lsb (reconstructFromB x) k) ↔
      x 0 0 k = 0 ∨ lsb (x 0 0) k = true := by
  have hopened : lsb (reconstructFromB fun p => notB1 p (x p)) k =
      (decide (x 0 0 k = 0) ^^ lsb (x 1 0) k) := by
    rw [← lsb_logicalNot hw]
    exact lsb_xor (Vec.logicalNot (x 0 0)) (x 1 0) k
  have hvalue : lsb (reconstructFromB x) k = (lsb (x 0 0) k ^^ lsb (x 1 0) k) :=
    lsb_xor (x 0 0) (x 1 0) k
  rw [hopened, hvalue]
  by_cases hzero : x 0 0 k = 0
  · simp [hzero, lsb]
  · rw [decide_eq_false hzero, or_iff_right hzero]
    cases lsb (x 0 0) k <;> simp

theorem notB1_consistent (x : scheme.Shares (Vec w n)) :
    Scheme.Consistent fun p => notB1 p (x p) :=
  (opens_iff.mpr rfl : OpensB _ _).1

end Beaver2PC

theorem Replicated3PC.notB1_flips (hw : 0 < w) (x : scheme.Shares (Vec w n)) (k : Fin n) :
    lsb (reconstructFromB fun p => notB1 p (x p)) k = !lsb (reconstructFromB x) k := by
  simp only [reconstructFromB, Scheme.reconstruct, combine_three, lsb_xor, notB1,
    lsb_logicalNot_mask hw]
  cases lsb (x 0 0) k <;> cases lsb (x 1 0) k <;> cases lsb (x 2 0) k <;> rfl

namespace Fantastic4PC

theorem notB1_deal (x : Fin 4 → Vec w n) :
    (fun p => notB1 p (Scheme.deal x p)) =
      (Scheme.deal (Function.update (fun i => Vec.mask (x i) 1) 3
        (Vec.logicalNot (Vec.mask (x 3) 1))) : scheme.Shares (Vec w n)) := by
  ext p r
  fin_cases p <;> fin_cases r <;> rfl

theorem notB1_flips (hw : 0 < w) (x : Fin 4 → Vec w n) (k : Fin n) :
    lsb (reconstructFromB fun p => notB1 p ((Scheme.deal x : scheme.Shares (Vec w n)) p)) k =
      !lsb (reconstructFromB (Scheme.deal x : scheme.Shares (Vec w n))) k := by
  rw [notB1_deal, reconstructFromB, reconstructFromB, reconstruct_deal, reconstruct_deal,
    combine_four, combine_four]
  have hne : (0 : Fin 4) ≠ 3 ∧ (1 : Fin 4) ≠ 3 ∧ (2 : Fin 4) ≠ 3 := by decide
  simp only [Function.update_self, Function.update_of_ne hne.1, Function.update_of_ne hne.2.1,
    Function.update_of_ne hne.2.2, lsb_xor, lsb_mask, lsb_logicalNot_mask hw]
  cases lsb (x 3) k <;> simp

end Fantastic4PC

/-- What the operand of `notB1` must look like: with two parties, the first party's unmasked share is
tested for zero. -/
def ProtocolName.SafeOperand : (name : ProtocolName) →
    (name.protocol w).scheme.Shares (Vec w n) → Prop
  | beaver2PC _, x => ∀ k, x 0 0 k = 0 ∨ lsb (x 0 0) k = true
  | replicated3PC, _ => True
  | fantastic4PC, _ => True

theorem notB1_consistent (name : ProtocolName) {x : (name.protocol w).scheme.Shares (Vec w n)}
    (hx : Scheme.Consistent x) : Scheme.Consistent fun p => (name.protocol w).notB1 p (x p) := by
  cases name with
  | beaver2PC stacked => exact Beaver2PC.notB1_consistent x
  | replicated3PC => exact hx.map fun v => Vec.logicalNot (Vec.mask v 1)
  | fantastic4PC =>
      obtain ⟨x, rfl⟩ := hx
      exact ⟨_, Fantastic4PC.notB1_deal x⟩

theorem flipsLsb_iff (hw : 0 < w) (name : ProtocolName)
    {x : (name.protocol w).scheme.Shares (Vec w n)} (hx : Scheme.Consistent x) :
    (name.protocol w).FlipsLsb x ↔ name.SafeOperand x := by
  rw [FlipsLsb, and_iff_right (notB1_consistent name hx)]
  cases name with
  | beaver2PC stacked => exact forall_congr' (Beaver2PC.notB1_flips_iff hw x)
  | replicated3PC => exact iff_of_true (Replicated3PC.notB1_flips hw x) trivial
  | fantastic4PC =>
      obtain ⟨x, rfl⟩ := hx
      exact iff_of_true (Fantastic4PC.notB1_flips hw x) trivial

/-- Logical expressions over columns: comparisons of whole elements, and the least significant bits
of columns such as the valid bit. -/
inductive BExpr (ι : Type)
  | column (c : ι)
  | eq (c d : ι)
  | ne (c d : ι)
  | and (e f : BExpr ι)
  | or (e f : BExpr ι)
  | not (e : BExpr ι)

namespace BExpr

variable {ι : Type}

def truth (value : ι → Vec w n) (k : Fin n) : BExpr ι → Bool
  | column c => lsb (value c) k
  | eq c d => decide (value c k = value d k)
  | ne c d => !decide (value c k = value d k)
  | and e f => e.truth value k && f.truth value k
  | or e f => e.truth value k || f.truth value k
  | not e => !e.truth value k

/-- The number of negations, counting the one inside every `!=`. -/
def negations : BExpr ι → ℕ
  | column _ => 0
  | eq _ _ => 0
  | ne _ _ => 1
  | and e f => e.negations + f.negations
  | or e f => e.negations + f.negations
  | not e => e.negations + 1

/-- The shares of the expression, and the operands its negations were applied to on the way. -/
def eval (P : Protocol w) (partyID : P.Party) (columns : ι → EVec P.scheme w n) :
    (e : BExpr ι) → P.Program (EVec P.scheme w n × (Fin e.negations → EVec P.scheme w n))
  | column c => pure (columns c, Fin.elim0)
  | eq c d => do
      let z ← P.equalB partyID (columns c) (columns d)
      pure (z, Fin.elim0)
  | ne c d => do
      let z ← P.equalB partyID (columns c) (columns d)
      pure (P.notB1 partyID z, fun _ => z)
  | and e f => do
      let (x, operands) ← e.eval P partyID columns
      let (y, operands') ← f.eval P partyID columns
      let z ← P.andB1 partyID x y
      pure (z, Fin.append operands operands')
  | or e f => do
      let (x, operands) ← e.eval P partyID columns
      let (y, operands') ← f.eval P partyID columns
      let z ← P.orB1 partyID x y
      pure (z, Fin.append operands operands')
  | not e => do
      let (z, operands) ← e.eval P partyID columns
      pure (P.notB1 partyID z, Matrix.vecCons z operands)

variable {name : ProtocolName}

/-- What is known of the shares of an expression and of the operands of its negations. -/
structure Evaluated (value : ι → Vec w n) (e : BExpr ι) (z : (name.protocol w).Party →
    EVec (name.protocol w).scheme w n × (Fin e.negations → EVec (name.protocol w).scheme w n)) :
    Prop where
  consistent : Scheme.Consistent fun p => (z p).1
  operands : ∀ i, Scheme.Consistent fun p => (z p).2 i
  correct : (∀ i, name.SafeOperand fun p => (z p).2 i) →
    ∀ k, lsb (reconstructFromB fun p => (z p).1) k = e.truth value k

theorem Evaluated.opens {value : ι → Vec w n} {e : BExpr ι} {z : (name.protocol w).Party →
    EVec (name.protocol w).scheme w n × (Fin e.negations → EVec (name.protocol w).scheme w n)}
    (hz : Evaluated value e z) :
    OpensB (fun p => (z p).1) (reconstructFromB fun p => (z p).1) := ⟨hz.consistent, rfl⟩

/-- A masked equality is a safe operand of the negation in `!=`. -/
theorem lsb_ne (hw : 0 < w) {z : (name.protocol w).scheme.Shares (Vec w n)} {a b : Vec w n}
    (hz : OpensB z (equalBits a b)) (hsafe : name.SafeOperand z) (k : Fin n) :
    lsb (reconstructFromB fun p => (name.protocol w).notB1 p (z p)) k = !decide (a k = b k) := by
  have hflip := ((flipsLsb_iff hw name hz.1).mpr hsafe).2 k
  rw [hflip, ← lsb_equalBits hw a b k]
  exact congrArg (fun v => !lsb v k) hz.2

/-- Two subexpressions and the gate that joins them. -/
theorem Evaluated.gate {value : ι → Vec w n} {e f g : BExpr ι} {m : Bool → Bool → Bool}
    {x : (name.protocol w).Party →
      EVec (name.protocol w).scheme w n × (Fin e.negations → EVec (name.protocol w).scheme w n)}
    {y : (name.protocol w).Party →
      EVec (name.protocol w).scheme w n × (Fin f.negations → EVec (name.protocol w).scheme w n)}
    {z : (name.protocol w).scheme.Shares (Vec w n)} {c : Vec w n} (hx : Evaluated value e x)
    (hy : Evaluated value f y) (hz : OpensB z c)
    (hc : ∀ k, lsb c k = m (lsb (reconstructFromB fun p => (x p).1) k)
      (lsb (reconstructFromB fun p => (y p).1) k))
    (hneg : g.negations = e.negations + f.negations)
    (hm : ∀ k, g.truth value k = m (e.truth value k) (f.truth value k)) :
    Evaluated value g fun p => (z p, Fin.append (x p).2 (y p).2 ∘ Fin.cast hneg) := by
  refine ⟨hz.1, fun i => ?_, fun hsafe k => ?_⟩
  · obtain ⟨i, rfl⟩ : ∃ j, i = Fin.cast hneg.symm j := ⟨Fin.cast hneg i, rfl⟩
    refine Fin.addCases (fun j => ?_) (fun j => ?_) i
    · simpa [Function.comp_def] using hx.operands j
    · simpa [Function.comp_def] using hy.operands j
  · have hsafe_x := hx.correct fun j => by
      simpa [Function.comp_def] using hsafe (Fin.cast hneg.symm (Fin.castAdd _ j))
    have hsafe_y := hy.correct fun j => by
      simpa [Function.comp_def] using hsafe (Fin.cast hneg.symm (Fin.natAdd _ j))
    have hvalue : lsb (reconstructFromB z) k = lsb c k := congrArg (fun v => lsb v k) hz.2
    rw [hvalue, hc k, hm k, hsafe_x k, hsafe_y k]

theorem eval_ensures (hw : 0 < w) {columns : ι → (name.protocol w).scheme.Shares (Vec w n)}
    {value : ι → Vec w n} (hcolumns : ∀ c, OpensB (columns c) (value c)) (e : BExpr ι) :
    (name.protocol w).Ensures (fun p => e.eval (name.protocol w) p fun c => columns c p)
      fun z => Evaluated value e z := by
  induction e with
  | column c =>
      refine Computes.pure ⟨(hcolumns c).1, fun i => i.elim0, fun _ k => ?_⟩
      exact congrArg (fun v => lsb v k) (hcolumns c).2
  | eq c d =>
      refine (equalB_ensures hw (hcolumns c) (hcolumns d)).bind fun z hz => Computes.pure ?_
      refine ⟨hz.1, fun i => i.elim0, fun _ k => ?_⟩
      rw [truth, ← lsb_equalBits hw]
      exact congrArg (fun v => lsb v k) hz.2
  | ne c d =>
      refine (equalB_ensures hw (hcolumns c) (hcolumns d)).bind fun z hz => Computes.pure ?_
      exact ⟨notB1_consistent name hz.1, fun _ => hz.1, fun hsafe k => lsb_ne hw hz (hsafe (0 : Fin 1)) k⟩
  | and e f ihe ihf =>
      refine ihe.bind fun x hx => ihf.bind fun y hy => ?_
      refine ((name.protocol w).andB_computes hx.opens hy.opens).bind fun z hz => Computes.pure ?_
      exact hx.gate hy hz (fun k => lsb_and _ _ k) rfl fun k => rfl
  | or e f ihe ihf =>
      refine ihe.bind fun x hx => ihf.bind fun y hy => ?_
      refine (orB_ensures hx.opens hy.opens).bind fun z hz => Computes.pure ?_
      refine Evaluated.gate hx hy hz (fun k => ?_) rfl fun k => rfl
      simp [lsb_not hw]
  | not e ih =>
      refine ih.bind fun x hx => Computes.pure ?_
      refine ⟨notB1_consistent name hx.consistent, ?_, fun hsafe k => ?_⟩
      · exact Fin.forall_fin_succ.mpr ⟨hx.consistent, hx.operands⟩
      · obtain ⟨hsafe_x, hsafe_operands⟩ := Fin.forall_fin_succ.mp hsafe
        have hflip := ((flipsLsb_iff hw name hx.consistent).mpr hsafe_x).2 k
        rw [truth, ← hx.correct hsafe_operands k]
        exact hflip

end BExpr

/-- A negation gives the complementary bits exactly on a safe operand; in every run of an expression,
all its negations do and its bits are the truth values exactly when all their operands were safe. -/
theorem notB1_correct_iff (hw : 0 < w) (name : ProtocolName) {ι : Type}
    {columns : ι → (name.protocol w).scheme.Shares (Vec w n)} {value : ι → Vec w n}
    (hcolumns : ∀ c, OpensB (columns c) (value c)) (e : BExpr ι) :
    (∀ x : (name.protocol w).scheme.Shares (Vec w n), Scheme.Consistent x →
      ((name.protocol w).FlipsLsb x ↔ name.SafeOperand x)) ∧
    (name.protocol w).Ensures (fun p => e.eval (name.protocol w) p fun c => columns c p) fun z =>
      Scheme.Consistent (fun p => (z p).1) ∧
      ((∀ i, (name.protocol w).FlipsLsb fun p => (z p).2 i) ∧
        (∀ k, lsb (reconstructFromB fun p => (z p).1) k = e.truth value k) ↔
          ∀ i, name.SafeOperand fun p => (z p).2 i) := by
  refine ⟨fun x hx => flipsLsb_iff hw name hx, ?_⟩
  refine (BExpr.eval_ensures hw hcolumns e).mono fun z hz => ⟨hz.consistent, ?_⟩
  have hflips : (∀ i, (name.protocol w).FlipsLsb fun p => (z p).2 i) ↔
      ∀ i, name.SafeOperand fun p => (z p).2 i :=
    forall_congr' fun i => flipsLsb_iff hw name (hz.operands i)
  rw [hflips]
  exact and_iff_left_of_imp hz.correct

/-- Shares of the one-element vector zero: bit one is set in both of them. -/
def hiddenBit : Beaver2PC.scheme.Shares (Vec 8 1) := fun _ _ => ![2]

theorem hiddenBit_opens : OpensB hiddenBit ![0] := Beaver2PC.opens_iff.mpr (by decide)

theorem notB1_correct_iff_hiddenBit :
    ((beaver2PC false 8).FlipsLsb hiddenBit ↔
      (ProtocolName.beaver2PC false).SafeOperand hiddenBit) :=
  (notB1_correct_iff (by decide) (.beaver2PC false) (fun _ : Unit => hiddenBit_opens)
    (.not (.column ()))).1 hiddenBit hiddenBit_opens.1

/-- With two parties the negation of these shares of zero opens to an even number, and the expression
`!x` to the wrong truth value. -/
theorem notB1_loses_hiddenBit :
    OpensB hiddenBit ![0] ∧ OpensB (fun p => (beaver2PC false 8).notB1 p (hiddenBit p)) ![2] ∧
      ¬ (beaver2PC false 8).FlipsLsb hiddenBit ∧
      ¬ (beaver2PC false 8).Ensures
        (fun p => (BExpr.not (.column ())).eval (beaver2PC false 8) p fun _ => hiddenBit p)
        (fun z => ∀ k, lsb (reconstructFromB fun p => (z p).1) k =
          (BExpr.not (.column ())).truth (fun _ => ![(0 : BitVec 8)]) k) := by
  have hopens : OpensB (fun p => (beaver2PC false 8).notB1 p (hiddenBit p)) ![2] :=
    Beaver2PC.opens_iff.mpr (by decide)
  refine ⟨hiddenBit_opens, hopens, fun hflips => ?_, fun hright => ?_⟩
  · exact absurd (hflips.2 0) (by decide)
  · have hrun : (beaver2PC false 8).Ensures
        (fun p => (BExpr.not (.column ())).eval (beaver2PC false 8) p fun _ => hiddenBit p)
        (fun z => lsb (reconstructFromB fun p => (z p).1) 0 = false) :=
      Computes.pure (by decide)
    obtain ⟨z, hz, hz'⟩ := (Computes.and hright hrun).exists_value (beaver2PC false 8).correlated_zero
    exact absurd ((hz 0).symm.trans hz') (by decide)

end CryptDough
