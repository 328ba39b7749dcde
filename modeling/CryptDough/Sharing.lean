import Mathlib.Data.Fin.Basic

/-! Replicated secret sharing over an arbitrary commutative operation: a secret is the combination
of one part per party, and every party keeps some of the parts. Maps that commute with the operation
can be applied share by share. -/

namespace CryptDough

instance (priority := high) twoParties : @NeZero ℕ Zero.ofOfNat0 (1 + 1) := ⟨Nat.succ_ne_zero 1⟩

instance (priority := high) threeParties : @NeZero ℕ Zero.ofOfNat0 (2 + 1) := ⟨Nat.succ_ne_zero 2⟩

instance (priority := high) fourParties : @NeZero ℕ Zero.ofOfNat0 (3 + 1) := ⟨Nat.succ_ne_zero 3⟩

end CryptDough

namespace CryptDough.Sharing

section Combine

variable {D E : Type} (op : D → D → D)

/-- `x 0 op x 1 op … op x k`, associated to the left. -/
def combine : {k : ℕ} → (Fin (k + 1) → D) → D
  | 0, x => x 0
  | _ + 1, x => op (combine fun i => x i.castSucc) (x (Fin.last _))

theorem combine_zero (x : Fin 1 → D) : combine op x = x 0 := rfl

theorem combine_succ {k : ℕ} (x : Fin (k + 2) → D) :
    combine op x = op (combine op fun i => x i.castSucc) (x (Fin.last _)) := rfl

theorem combine_two (x : Fin 2 → D) : combine op x = op (x 0) (x 1) := rfl

theorem combine_three (x : Fin 3 → D) : combine op x = op (op (x 0) (x 1)) (x 2) := rfl

theorem combine_four (x : Fin 4 → D) : combine op x = op (op (op (x 0) (x 1)) (x 2)) (x 3) := rfl

theorem combine_map {op' : E → E → E} (f : D → E) (hf : ∀ a b, f (op a b) = op' (f a) (f b))
    {k : ℕ} (x : Fin (k + 1) → D) : combine op' (fun i => f (x i)) = f (combine op x) := by
  induction k with
  | zero => rfl
  | succ k ih => rw [combine_succ, combine_succ, hf, ih]

variable {op} in
theorem combine_map₂ {F : Type} {op' : E → E → E} {op'' : F → F → F} (f : D → E → F)
    (hf : ∀ a b c d, f (op a b) (op' c d) = op'' (f a c) (f b d)) {k : ℕ} (x : Fin (k + 1) → D)
    (y : Fin (k + 1) → E) :
    combine op'' (fun i => f (x i) (y i)) = f (combine op x) (combine op' y) := by
  induction k with
  | zero => rfl
  | succ k ih => rw [combine_succ, combine_succ, combine_succ, hf, ih]

theorem combine_const_idem {k : ℕ} (c : D) (hc : op c c = c) :
    combine op (fun _ : Fin (k + 1) => c) = c := by
  induction k with
  | zero => rfl
  | succ k ih => rw [combine_succ, ih, hc]

theorem combine_op [Std.Commutative op] [Std.Associative op] {k : ℕ} (x y : Fin (k + 1) → D) :
    combine op (fun i => op (x i) (y i)) = op (combine op x) (combine op y) := by
  induction k with
  | zero => rfl
  | succ k ih =>
      rw [combine_succ, combine_succ op x, combine_succ op y, ih]
      ac_rfl

end Combine

/-- Who keeps which part: slot `r` of party `p` holds part `held p r`, and the parts in the first
slots are all the parts. -/
structure Scheme where
  last : ℕ
  rep : ℕ
  held : Fin (last + 1) → Fin (rep + 1) → Fin (last + 1)
  owner : Fin (last + 1) → Fin (last + 1)
  held_owner : ∀ i, held (owner i) 0 = i

namespace Scheme

variable (S : Scheme)

abbrev Party := Fin (S.last + 1)

abbrev Slot := Fin (S.rep + 1)

instance (priority := high) slots : @NeZero ℕ Zero.ofOfNat0 (S.rep + 1) :=
  ⟨Nat.succ_ne_zero S.rep⟩

/-- What all parties hold together. -/
abbrev Shares (D : Type) := S.Party → S.Slot → D

variable {S} {D E F : Type}

def deal (x : S.Party → D) : S.Shares D := fun p r => x (S.held p r)

/-- All copies of a part are equal. -/
def Consistent (s : S.Shares D) : Prop := ∃ x : S.Party → D, s = deal x

/-- The combination of the first slots, as every `reconstruct` computes it. -/
def reconstruct (op : D → D → D) (s : S.Shares D) : D := combine op fun p => s p 0

/-- A consistent sharing that opens to `secret`. -/
def Opens (op : D → D → D) (s : S.Shares D) (secret : D) : Prop :=
  Consistent s ∧ reconstruct op s = secret

theorem Consistent.copies {s : S.Shares D} (hs : Consistent s) {p q : S.Party} {r r' : S.Slot}
    (hheld : S.held p r = S.held q r') : s p r = s q r' := by
  obtain ⟨x, rfl⟩ := hs
  simp only [deal, hheld]

theorem Consistent.map {s : S.Shares D} (hs : Consistent s) (f : D → E) :
    Consistent fun p r => f (s p r) := by
  obtain ⟨x, rfl⟩ := hs
  exact ⟨fun i => f (x i), rfl⟩

theorem Consistent.map₂ {s : S.Shares D} {t : S.Shares E} (hs : Consistent s) (ht : Consistent t)
    (f : D → E → F) : Consistent fun p r => f (s p r) (t p r) := by
  obtain ⟨x, rfl⟩ := hs
  obtain ⟨y, rfl⟩ := ht
  exact ⟨fun i => f (x i) (y i), rfl⟩

/-- A map that commutes with the operation acts on the secret when applied share by share. -/
theorem Opens.map {op : D → D → D} {op' : E → E → E} {s : S.Shares D} {secret : D}
    (hs : Opens op s secret) (f : D → E) (hf : ∀ a b, f (op a b) = op' (f a) (f b)) :
    Opens op' (fun p r => f (s p r)) (f secret) := by
  refine ⟨hs.1.map f, ?_⟩
  rw [reconstruct, combine_map op f hf]
  exact congrArg f hs.2

theorem Opens.op {op : D → D → D} [Std.Commutative op] [Std.Associative op] {s t : S.Shares D}
    {a b : D} (hs : Opens op s a) (ht : Opens op t b) :
    Opens op (fun p r => op (s p r) (t p r)) (op a b) := by
  refine ⟨hs.1.map₂ ht.1 op, ?_⟩
  rw [reconstruct, combine_op, ← hs.2, ← ht.2]
  rfl

theorem Opens.unique {op : D → D → D} {s : S.Shares D} {a b : D} (ha : Opens op s a)
    (hb : Opens op s b) : a = b := ha.2.symm.trans hb.2

end Scheme

end CryptDough.Sharing
