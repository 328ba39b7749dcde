import CryptDough.Comparison
import CryptDough.EncodedTable
import Mathlib.Data.List.Lex

/-! The comparison of rows by several keys and the oblivious swap, on opened values and on shares. -/

namespace CryptDough

open Opened Sharing Process

namespace Opened

variable {w : ℕ}

/-- The remaining keys refine the `eq` and `gt` bits of the first ones. -/
def compareKeys : List (BitVec w × BitVec w) → (eq gt : BitVec w) → BitVec w
  | [], _, gt => gt
  | (x, y) :: keys, eq, gt =>
      let newGt := andB1 (greaterB x y) eq
      compareKeys keys (andB1 eq (equalB x y)) (gt ^^^ newGt)

/-- A row has at least one key. -/
def compareRows : List (BitVec w × BitVec w) → Option (BitVec w)
  | [] => none
  | (x, y) :: keys => some (compareKeys keys (equalB x y) (greaterB x y) &&& 1)

/-- Descending keys are compared the other way round. -/
def orderKeys (order : List SortOrder) (x y : List (BitVec w)) : List (BitVec w × BitVec w) :=
  List.zipWith (fun o (p : BitVec w × BitVec w) => if o = .desc then (p.2, p.1) else p) order
    (x.zip y)

def swapB (bits x y : BitVec w) : BitVec w × BitVec w :=
  let tmp := extendLsb bits &&& (x ^^^ y)
  (x ^^^ tmp, y ^^^ tmp)

def swapA (bits x y : BitVec w) : BitVec w × BitVec w :=
  let tmp := bits * (x - y)
  (x - tmp, y + tmp)

end Opened

section Rows

variable {w : ℕ}

/-- What a row is sorted by. -/
def sortKey (o : SortOrder) (v : BitVec w) : ℤ := if o = .desc then -v.toInt else v.toInt

def rowKey (order : List SortOrder) (values : List (BitVec w)) : List ℤ :=
  List.zipWith sortKey order values

theorem rowKey_cons_lt_iff (o : SortOrder) (order : List SortOrder) (v u : BitVec w)
    (x y : List (BitVec w)) :
    rowKey (o :: order) (u :: y) < rowKey (o :: order) (v :: x) ↔
      sortKey o u < sortKey o v ∨ sortKey o u = sortKey o v ∧ rowKey order y < rowKey order x :=
  List.cons_lt_cons_iff

theorem rowKey_append {order : List SortOrder} {values : List (BitVec w)}
    (hlen : order.length = values.length) (order' : List SortOrder) (values' : List (BitVec w)) :
    rowKey (order ++ order') (values ++ values') = rowKey order values ++ rowKey order' values' :=
  List.zipWith_append hlen

namespace Opened

/-- A pair of keys tells which of the two values is to come first. -/
theorem ordered_bits (o : SortOrder) (x y : BitVec w) :
    let p := if o = .desc then (y, x) else (x, y)
    greaterB p.1 p.2 = bit (decide (sortKey o y < sortKey o x)) ∧
      equalB p.1 p.2 = bit (decide (sortKey o y = sortKey o x)) := by
  cases o with
  | asc =>
      simp only [greaterB, equalB, sortKey, reduceCtorEq, if_false, BitVec.toInt_inj, true_and,
        eq_comm (a := y)]
  | desc =>
      simp only [greaterB, equalB, sortKey, if_true, neg_lt_neg_iff, neg_inj, BitVec.toInt_inj, and_self]

theorem orderKeys_cons (o : SortOrder) (order : List SortOrder) (v u : BitVec w)
    (x y : List (BitVec w)) :
    orderKeys (o :: order) (v :: x) (u :: y) =
      (if o = .desc then (u, v) else (v, u)) :: orderKeys order x y := rfl

theorem compareKeys_cons (p : BitVec w × BitVec w) (keys : List (BitVec w × BitVec w))
    (eq gt : BitVec w) :
    compareKeys (p :: keys) eq gt = compareKeys keys (andB1 eq (equalB p.1 p.2))
      (gt ^^^ andB1 (greaterB p.1 p.2) eq) := rfl

theorem compareRows_cons (p : BitVec w × BitVec w) (keys : List (BitVec w × BitVec w)) :
    compareRows (p :: keys) =
      some (compareKeys keys (equalB p.1 p.2) (greaterB p.1 p.2) &&& 1) := rfl

theorem xor_bit {a b : Bool} (hab : a = true → b = false) :
    (bit a : BitVec w) ^^^ bit b = bit (a || b) := by
  cases a <;> cases b <;> simp [bit] at hab ⊢

theorem and_one_bit (g : Bool) : (bit g : BitVec w) &&& 1 = bit g := by
  cases g <;> simp [bit]

theorem setWidth_bit {w' : ℕ} (hw : 0 < w) (g : Bool) :
    (bit g : BitVec w).setWidth w' = bit g := by
  cases g with
  | false => simp [bit]
  | true =>
      change BitVec.setWidth w' (1#w) = BitVec.ofNat w' 1
      exact BitVec.setWidth_ofNat_one_eq_ofNat_one_of_lt hw

/-- The bits of the keys seen so far decide where they are not equal. -/
theorem compareKeys_eq {order : List SortOrder} {x y : List (BitVec w)} (hlen : x.length = y.length)
    {eq gt : Bool} (hgt : gt = true → eq = false) :
    compareKeys (orderKeys order x y) (bit eq) (bit gt) =
      bit (gt || eq && decide (rowKey order y < rowKey order x)) := by
  induction order generalizing x y eq gt with
  | nil => simp [orderKeys, rowKey, compareKeys]
  | cons o order ih =>
      cases x with
      | nil =>
          obtain rfl := List.eq_nil_of_length_eq_zero hlen.symm
          simp [orderKeys, rowKey, compareKeys]
      | cons v x =>
          cases y with
          | nil => simp at hlen
          | cons u y =>
              obtain ⟨hgreater, hequal⟩ := ordered_bits o v u
              have hnext : (gt || decide (sortKey o u < sortKey o v) && eq) = true →
                  (eq && decide (sortKey o u = sortKey o v)) = false := by
                intro h
                rcases lt_trichotomy (sortKey o u) (sortKey o v) with hlt | heq | hlt
                · simp [hlt.ne]
                · rw [heq] at h
                  simp only [lt_irrefl, decide_false, Bool.false_and, Bool.or_false] at h
                  rw [hgt h, Bool.false_and]
                · simp [hlt.ne']
              rw [orderKeys_cons, compareKeys_cons, hgreater, hequal, andB1_bit, andB1_bit, xor_bit,
                ih (Nat.succ.inj hlen) hnext]
              · congr 1
                rw [Bool.eq_iff_iff]
                simp only [Bool.or_eq_true, Bool.and_eq_true, decide_eq_true_eq, rowKey_cons_lt_iff]
                tauto
              · intro h
                rw [hgt h, Bool.and_false]

/-- The bit says that the first row is to come after the second. -/
theorem compareRows_eq {order : List SortOrder} {x y : List (BitVec w)}
    (horder : order ≠ []) (hx : x ≠ []) (hlen : x.length = y.length) :
    compareRows (orderKeys order x y) =
      some (bit (decide (rowKey order y < rowKey order x))) := by
  obtain ⟨o, order, rfl⟩ := List.exists_cons_of_ne_nil horder
  obtain ⟨v, x, rfl⟩ := List.exists_cons_of_ne_nil hx
  cases y with
  | nil => simp at hlen
  | cons u y =>
      obtain ⟨hgreater, hequal⟩ := ordered_bits o v u
      have hgt : decide (sortKey o u < sortKey o v) = true →
          decide (sortKey o u = sortKey o v) = false := by
        intro h
        exact decide_eq_false (of_decide_eq_true h).ne
      rw [orderKeys_cons, compareRows_cons, hgreater, hequal,
        compareKeys_eq (Nat.succ.inj hlen) hgt, and_one_bit]
      congr 2
      rw [Bool.eq_iff_iff]
      simp only [Bool.or_eq_true, Bool.and_eq_true, decide_eq_true_eq, rowKey_cons_lt_iff]

theorem swapB_bit (hw : 0 < w) (g : Bool) (x y : BitVec w) :
    swapB (bit g) x y = if g then (y, x) else (x, y) := by
  rw [swapB, extendLsb_bit hw]
  cases g with
  | false => simp
  | true =>
      simp only [if_true, BitVec.allOnes_and, Prod.mk.injEq]
      constructor
      · rw [← BitVec.xor_assoc, BitVec.xor_self, BitVec.zero_xor]
      · rw [BitVec.xor_comm x, ← BitVec.xor_assoc, BitVec.xor_self, BitVec.zero_xor]

theorem swapA_bit (g : Bool) (x y : BitVec w) :
    swapA (bit g) x y = if g then (y, x) else (x, y) := by
  cases g with
  | false => simp [swapA, bit]
  | true =>
      have hone : (bit true : BitVec w) = 1 := rfl
      rw [swapA, hone, one_mul, sub_sub_cancel, add_sub_cancel, if_pos rfl]

end Opened

end Rows

namespace Protocol

variable {w n : ℕ} (P : Protocol w)

/-- Every bit becomes the least significant one. -/
def extendLsb (x : EVec P.scheme w n) : EVec P.scheme w n := fun r i => Opened.extendLsb (x r i)

/-- `compare_rows` after the first key. -/
def compareKeys (partyID : P.Party) : List (EVec P.scheme w n × EVec P.scheme w n) →
    (eq gt : EVec P.scheme w n) → P.Program (EVec P.scheme w n)
  | [], _, gt => pure gt
  | (x, y) :: keys, eq, gt => do
      let (newEq, newGt) ← P.compare partyID x y
      let newGt ← P.andB1 partyID newGt eq
      let gt := P.xorB gt newGt
      let eq ← P.andB1 partyID eq newEq
      compareKeys partyID keys eq gt

def compareRows (partyID : P.Party) (first : EVec P.scheme w n × EVec P.scheme w n)
    (keys : List (EVec P.scheme w n × EVec P.scheme w n)) : P.Program (EVec P.scheme w n) := do
  let (eq, gt) ← P.compare partyID first.1 first.2
  let gt ← P.compareKeys partyID keys eq gt
  pure (P.maskB gt 1)

/-- `swap` of boolean columns. -/
def swapB (partyID : P.Party) (bits x y : EVec P.scheme w n) :
    P.Program (EVec P.scheme w n × EVec P.scheme w n) := do
  let tmp ← P.andB partyID (P.extendLsb bits) (P.xorB x y)
  pure (P.xorB x tmp, P.xorB y tmp)

variable {P} {x y e g s : P.scheme.Shares (Vec w n)} {a b u v c : Vec w n}

theorem extendLsb_opens (hx : OpensB x a) :
    OpensB (fun p => P.extendLsb (x p)) fun i => Opened.extendLsb (a i) := by
  refine hx.map (fun u i => Opened.extendLsb (u i)) fun u v => ?_
  funext i
  simp only [Opened.extendLsb, Vec.xor_apply, BitVec.getLsbD_xor]
  cases (u i).getLsbD 0 <;> cases (v i).getLsbD 0 <;> simp

/-- The keys of `values` are shared as `keys`. -/
def OpensKeys (keys : List (P.scheme.Shares (Vec w n) × P.scheme.Shares (Vec w n)))
    (values : List (Vec w n × Vec w n)) : Prop :=
  List.Forall₂ (fun s v => OpensB s.1 v.1 ∧ OpensB s.2 v.2) keys values

theorem equalBits_apply (a b : Vec w n) (i : Fin n) : equalBits a b i = Opened.equalB (a i) (b i) := by
  simp [equalBits, Opened.equalB, bit]

theorem greaterBits_apply (a b : Vec w n) (i : Fin n) :
    greaterBits a b i = greaterB (a i) (b i) := by
  simp [greaterBits, greaterB, bit]

theorem compareKeys_ensures (hw : 0 < w)
    {keys : List (P.scheme.Shares (Vec w n) × P.scheme.Shares (Vec w n))}
    {values : List (Vec w n × Vec w n)} (hkeys : OpensKeys keys values) (he : OpensB e u)
    (hg : OpensB g v) :
    P.Ensures (fun p => P.compareKeys p (keys.map fun s => (s.1 p, s.2 p)) (e p) (g p)) fun z =>
      OpensB z fun i => Opened.compareKeys (values.map fun c => (c.1 i, c.2 i)) (u i) (v i) := by
  induction hkeys generalizing e g u v with
  | nil => exact Computes.pure hg
  | @cons s c keys values hfirst _ ih =>
      refine (compare_ensures hw hfirst.1 hfirst.2).bind fun z hz => ?_
      refine (P.andB_computes hz.2 he).bind fun newGt hnewGt => ?_
      refine (P.andB_computes he hz.1).bind fun newEq hnewEq => ?_
      convert ih hnewEq (xorB_opens hg hnewGt) using 4 with z i
      rw [List.map_cons, compareKeys_cons, Vec.and_apply, Vec.xor_apply, Vec.and_apply, equalBits_apply,
        greaterBits_apply]
      rfl

/-- The rows are compared position by position. -/
theorem compareRows_ensures (hw : 0 < w) (hx : OpensB x a) (hy : OpensB y b)
    {keys : List (P.scheme.Shares (Vec w n) × P.scheme.Shares (Vec w n))}
    {values : List (Vec w n × Vec w n)} (hkeys : OpensKeys keys values) :
    P.Ensures (fun p => P.compareRows p (x p, y p) (keys.map fun s => (s.1 p, s.2 p))) fun z =>
      ∃ c, OpensB z c ∧ ∀ i,
        Opened.compareRows ((a i, b i) :: values.map fun c => (c.1 i, c.2 i)) = some (c i) := by
  refine (compare_ensures hw hx hy).bind fun z hz => ?_
  refine (compareKeys_ensures hw hkeys hz.1 hz.2).bind fun gt hgt => ?_
  refine Computes.pure ⟨_, maskB_opens hgt 1, fun i => ?_⟩
  rw [compareRows_cons, ← equalBits_apply, ← greaterBits_apply]
  rfl

theorem swapB_ensures (hs : OpensB s c) (hx : OpensB x a) (hy : OpensB y b) :
    P.Ensures (fun p => P.swapB p (s p) (x p) (y p)) fun z =>
      OpensB (fun p => (z p).1) (fun i => (Opened.swapB (c i) (a i) (b i)).1) ∧
        OpensB (fun p => (z p).2) fun i => (Opened.swapB (c i) (a i) (b i)).2 := by
  refine (P.andB_computes (extendLsb_opens hs) (xorB_opens hx hy)).bind fun tmp htmp => ?_
  exact Computes.pure ⟨xorB_opens hx htmp, xorB_opens hy htmp⟩

end Protocol

end CryptDough
