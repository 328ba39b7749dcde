import CryptDough.AdderChoice
import CryptDough.Equality
import CryptDough.SignedOrder

/-! The three comparison circuits: a tree over the equal prefixes, a chain over them, and the carry
chain of a subtraction. The last one compares only what can be subtracted. -/

namespace CryptDough

open Process Sharing

variable {w n : ℕ}

namespace Vec

/-- `std::popcount` and a mask: the parity of every element. -/
def bitXor (x : Vec w n) : Vec w n := fun i => (x i).cpop &&& 1

/-- Elementwise `x < 0`. -/
def ltz (x : Vec w n) : Vec w n := fun i => if (x i).toInt < 0 then 1 else 0

theorem cpopNatRec_xor (x y : BitVec w) (m : ℕ) :
    (x ^^^ y).cpopNatRec m 0 % 2 = (x.cpopNatRec m 0 + y.cpopNatRec m 0) % 2 := by
  induction m with
  | zero => rfl
  | succ m ih =>
      rw [BitVec.cpopNatRec_succ, BitVec.cpopNatRec_succ, BitVec.cpopNatRec_succ,
        BitVec.cpopNatRec_add, BitVec.cpopNatRec_add, BitVec.cpopNatRec_add, BitVec.getLsbD_xor]
      cases x.getLsbD m <;> cases y.getLsbD m <;> simp <;> omega

theorem bitXor_apply (x : Vec w n) (i : Fin n) :
    bitXor x i = if (x i).cpopNatRec w 0 % 2 = 1 then 1 else 0 := by
  rcases Nat.eq_zero_or_pos w with rfl | hw
  · exact Subsingleton.elim _ _
  · have hbit : (x i).cpop.getLsbD 0 = decide ((x i).cpopNatRec w 0 % 2 = 1) := by
      rw [BitVec.cpop, BitVec.getLsbD_ofNat, Nat.testBit_zero]
      simp [hw]
    rw [bitXor, mask_one_eq, hbit]
    simp only [decide_eq_true_eq]

theorem bitXor_xor (x y : Vec w n) : bitXor (x ^^^ y) = bitXor x ^^^ bitXor y := by
  ext i
  rw [xor_apply, bitXor_apply, bitXor_apply, bitXor_apply, xor_apply, cpopNatRec_xor]
  rcases Nat.mod_two_eq_zero_or_one ((x i).cpopNatRec w 0) with hx | hx <;>
    rcases Nat.mod_two_eq_zero_or_one ((y i).cpopNatRec w 0) with hy | hy <;>
    simp [Nat.add_mod, hx, hy]

theorem ltz_apply (x : Vec w n) (i : Fin n) : ltz x i = if (x i).msb then 1 else 0 := by
  rw [ltz, BitVec.msb_eq_toInt]
  simp only [decide_eq_true_eq]

theorem ltz_xor (x y : Vec w n) : ltz (x ^^^ y) = ltz x ^^^ ltz y := by
  ext i
  rw [xor_apply, ltz_apply, ltz_apply, ltz_apply, xor_apply, BitVec.msb_xor]
  cases (x i).msb <;> cases (y i).msb <;> simp

/-- The only bit that may be set decides the parity. -/
theorem cpopNatRec_of_single {x : BitVec w} {m : ℕ} (hsingle : ∀ j, j ≠ m → x.getLsbD j = false)
    (len : ℕ) : x.cpopNatRec len 0 = if m < len then (x.getLsbD m).toNat else 0 := by
  induction len with
  | zero => rfl
  | succ len ih =>
      rw [BitVec.cpopNatRec_succ, BitVec.cpopNatRec_add, ih]
      by_cases hm : m = len
      · subst hm
        simp
      · rw [hsingle len (Ne.symm hm)]
        have hiff : m < len + 1 ↔ m < len := by omega
        simp [hiff]

end Vec

namespace Protocol

variable (P : Protocol w)

def packFrom (x : EVec P.scheme w n) (position : ℕ) : EVec P.scheme w (Vec.compressedSize w n) :=
  fun r => Vec.packFrom (x r) position

def bitXor (x : EVec P.scheme w n) : EVec P.scheme w n := fun r => Vec.bitXor (x r)

def ltz (x : EVec P.scheme w n) : EVec P.scheme w n := fun r => Vec.ltz (x r)

/-- What both comparisons make of the equal prefixes `eqBits`, for a signed share type: the bit of
`current` at the edge of the prefix, replaced by the sign of `other` where the signs differ. -/
def greaterFromPrefix (partyID : P.Party) (current other eqBits : EVec P.scheme w n) :
    P.Program (EVec P.scheme w n) := do
  let gtBits := P.bitArithmeticRightShift eqBits 1
  let gtBits := P.xorB gtBits eqBits
  let gtBits ← P.andB partyID gtBits current
  let gtBits := P.bitXor gtBits
  let s1 := P.packFrom current (w - 1)
  let s2 := P.packFrom other (w - 1)
  let r := P.packFrom gtBits 0
  let r := P.xorB r s2
  let s2 := P.xorB s2 s1
  let s2 ← P.orB partyID s2 r
  let s1 := P.xorB s1 s2
  pure (P.unpackFrom gtBits s1 0)

/-- The bits for `current = other` and for `current > other`. -/
def compare (partyID : P.Party) (current other : EVec P.scheme w n) :
    P.Program (EVec P.scheme w n × EVec P.scheme w n) := do
  let eqBits ← P.bitSame partyID current other
  let gtBits ← P.greaterFromPrefix partyID current other eqBits
  pure (P.maskB eqBits 1, P.maskB gtBits 1)

/-- The rounds of `linearCompare` for the bits below `rounds`, from the highest one down; `r` is
packed. -/
def linearLoop (partyID : P.Party) (t : EVec P.scheme w n) : (rounds : ℕ) →
    EVec P.scheme w (Vec.compressedSize w n) → EVec P.scheme w n → P.Program (EVec P.scheme w n)
  | 0, _, eqBits => pure eqBits
  | i + 1, r, eqBits => do
      let b1 := P.notB partyID (P.packFrom t i)
      let r ← (if i = w - 1 then pure b1 else P.andB partyID r b1)
      linearLoop partyID t i r (P.unpackFrom eqBits r i)

/-- Every bit of `eqBits` is overwritten. -/
def linearCompare (partyID : P.Party) (current other eqBits : EVec P.scheme w n) :
    P.Program (EVec P.scheme w n × EVec P.scheme w n) := do
  let t := P.xorB current other
  let eqBits ← P.linearLoop partyID t w (fun _ => 0) eqBits
  let gtBits ← P.greaterFromPrefix partyID current other eqBits
  pure (P.maskB eqBits 1, P.maskB gtBits 1)

/-- The sign of `a + ~b + 1`; only the highest bit of `sum` is written before it is read. -/
def rcaCompare (partyID : P.Party) (a b sum : EVec P.scheme w n) : P.Program (EVec P.scheme w n) := do
  let nb := P.notB partyID b
  let carry : EVec P.scheme w (Vec.compressedSize w n) := P.notB partyID fun _ => 0
  let sign ← P.packedSignLoop partyID (P.packFrom (P.xorB a nb)) (P.packFrom a) w 0 carry
  pure (P.ltz (P.unpackFrom sum sign (w - 1)))

variable {P} {x y e : P.scheme.Shares (Vec w n)} {a b v : Vec w n}

theorem packFrom_opens (hx : OpensB x a) (position : ℕ) :
    OpensB (fun p => P.packFrom (x p) position) (Vec.packFrom a position) :=
  hx.map (fun u => Vec.packFrom u position) fun u u' => Vec.packFrom_xor u u' position

theorem bitXor_opens (hx : OpensB x a) : OpensB (fun p => P.bitXor (x p)) (Vec.bitXor a) :=
  hx.map Vec.bitXor Vec.bitXor_xor

theorem ltz_opens (hx : OpensB x a) : OpensB (fun p => P.ltz (x p)) (Vec.ltz a) :=
  hx.map Vec.ltz Vec.ltz_xor

/-- Bit `i` of `v` tells whether `a` and `b` agree from bit `i` on. -/
def SamePrefix (a b v : Vec w n) : Prop :=
  ∀ (k : Fin n) (i : ℕ), i < w →
    ((v k).getLsbD i = true ↔ ∀ j, i ≤ j → j < w → (a k).getLsbD j = (b k).getLsbD j)

theorem SamePrefix.of_allSet {len : ℕ} (hlen : w ≤ len) (hv : AllSet (~~~ (a ^^^ b)) v len) :
    SamePrefix a b v := by
  intro k i hi
  rw [hv k i hi]
  constructor
  · intro hall j hij hj
    have hbit := hall j hij hj (by omega)
    simpa [hj] using hbit
  · intro hall j hij hj _
    have hbit := hall j hij hj
    simpa [hj] using hbit

theorem bitSame_samePrefix (hx : OpensB x a) (hy : OpensB y b) :
    P.Ensures (fun p => P.bitSame p (x p) (y p)) fun z => ∃ v, OpensB z v ∧ SamePrefix a b v := by
  apply (bitSame_ensures hx hy).mono
  rintro z ⟨v, hz, hv⟩
  have hlog : w - 1 < 2 ^ logMaxBitsNumber w := Nat.lt_size_self (w - 1)
  exact ⟨v, hz, SamePrefix.of_allSet (by omega) hv⟩

/-- The lowest bit of the prefixes is equality. -/
theorem SamePrefix.mask (hw : 0 < w) (hv : SamePrefix a b v) : Vec.mask v 1 = equalBits a b := by
  ext k
  have hbit : (v k).getLsbD 0 = true ↔ a k = b k := by
    rw [hv k 0 hw]
    constructor
    · exact fun hall => BitVec.eq_of_getLsbD_eq fun j hj => hall j (Nat.zero_le j) hj
    · intro heq j _ _
      rw [heq]
  simp only [Vec.mask, Vec.mask_one_eq, hbit, equalBits]

/-- The bit of `a` at the edge of the prefix. -/
theorem SamePrefix.edge (hv : SamePrefix a b v) (k : Fin n) (hsigns : (a k).msb = (b k).msb) :
    Vec.bitXor ((Vec.bitArithmeticRightShift v 1 ^^^ v) &&& a) k =
      if (b k).toInt < (a k).toInt then 1 else 0 := by
  have hshift : ∀ i, i < w → (Vec.bitArithmeticRightShift v 1 k).getLsbD i =
      (v k).getLsbD (min (i + 1) (w - 1)) := by
    intro i hi
    rw [Vec.bitArithmeticRightShift, BitVec.getLsbD_sshiftRight, BitVec.msb_eq_getLsbD_last]
    have hmem : ¬ w ≤ i := by omega
    by_cases hlt : 1 + i < w
    · have hmin : min (i + 1) (w - 1) = 1 + i := by omega
      simp [hmem, hlt, hmin]
    · have hmin : min (i + 1) (w - 1) = w - 1 := by omega
      simp [hmem, hlt, hmin]
  have hedge : ∀ i, i < w → (((Vec.bitArithmeticRightShift v 1 ^^^ v) &&& a) k).getLsbD i =
      (((v k).getLsbD (min (i + 1) (w - 1)) ^^ (v k).getLsbD i) && (a k).getLsbD i) := by
    intro i hi
    rw [Vec.and_apply, BitVec.getLsbD_and, Vec.xor_apply, BitVec.getLsbD_xor, hshift i hi]
  rw [Vec.bitXor_apply]
  by_cases heq : a k = b k
  · have hset : ∀ i, i < w → (v k).getLsbD i = true := fun i hi =>
      (hv k i hi).mpr fun j _ _ => by rw [heq]
    have hzero : ((Vec.bitArithmeticRightShift v 1 ^^^ v) &&& a) k = 0 := by
      apply BitVec.eq_of_getLsbD_eq
      intro i hi
      rw [hedge i hi, hset i hi, hset _ (by omega)]
      simp
    rw [hzero, heq, if_neg (lt_irrefl _)]
    simp
  · obtain ⟨m, hm, hdiff, hsame⟩ := exists_highest_bit heq
    have hlast : m ≠ w - 1 := by
      rintro rfl
      rw [BitVec.msb_eq_getLsbD_last, BitVec.msb_eq_getLsbD_last] at hsigns
      exact hdiff hsigns
    have hval : ∀ i, i < w → (v k).getLsbD i = decide (m < i) := by
      intro i hi
      rw [Bool.eq_iff_iff, hv k i hi, decide_eq_true_iff]
      constructor
      · intro hall
        by_contra hle
        exact hdiff (hall m (by omega) hm)
      · exact fun hlt j hij _ => hsame j (by omega)
    have hsingle : ∀ j, j ≠ m →
        (((Vec.bitArithmeticRightShift v 1 ^^^ v) &&& a) k).getLsbD j = false := by
      intro j hj
      by_cases hjw : j < w
      · have hiff : (m < min (j + 1) (w - 1)) = (m < j) := propext (by omega)
        rw [hedge j hjw, hval j hjw, hval _ (by omega)]
        simp [hiff]
      · exact BitVec.getLsbD_of_ge _ j (by omega)
    have hbit : (((Vec.bitArithmeticRightShift v 1 ^^^ v) &&& a) k).getLsbD m = (a k).getLsbD m := by
      have hmin : m < min (m + 1) (w - 1) := by omega
      rw [hedge m hm, hval m hm, hval _ (by omega)]
      simp [hmin]
    rw [Vec.cpopNatRec_of_single hsingle, if_pos hm, hbit]
    cases ha : (a k).getLsbD m with
    | true =>
        have hb : (b k).getLsbD m = false := by
          rw [ha] at hdiff
          exact Bool.eq_false_iff.mpr (Ne.symm hdiff)
        have hlt := toNat_lt_of_bit hb ha fun j hj => (hsame j hj).symm
        rw [if_pos ((toInt_lt_iff_toNat_lt hsigns.symm).mpr hlt)]
        rfl
    | false =>
        have hb : (b k).getLsbD m = true := by
          rw [ha] at hdiff
          exact Bool.not_eq_false _ ▸ (Ne.symm hdiff)
        have hlt := toNat_lt_of_bit ha hb hsame
        rw [if_neg fun hgt => absurd ((toInt_lt_iff_toNat_lt hsigns.symm).mp hgt) (by omega)]
        rfl

/-- One where `a` is greater as a signed number. -/
def greaterBits (a b : Vec w n) : Vec w n := fun k => if (b k).toInt < (a k).toInt then 1 else 0

/-- The formula for the signs: the sign of `other` if they differ, the old bit otherwise. -/
theorem sign_step (s1 s2 r : Bool) :
    (s1 ^^ !(!(s2 ^^ s1) && !(r ^^ s2))) = if s1 = s2 then r else s2 := by
  cases s1 <;> cases s2 <;> cases r <;> rfl

theorem greaterFromPrefix_ensures (hw : 0 < w) (hx : OpensB x a) (hy : OpensB y b) (he : OpensB e v)
    (hv : SamePrefix a b v) :
    P.Ensures (fun p => P.greaterFromPrefix p (x p) (y p) (e p))
      fun z => OpensB (fun p => P.maskB (z p) 1) (greaterBits a b) := by
  have hedge := xorB_opens (bitArithmeticRightShift_opens he 1) he
  refine (P.andB_computes hedge hx).bind fun g hg => ?_
  have hgt := bitXor_opens hg
  have hs1 := packFrom_opens hx (w - 1)
  have hs2 := packFrom_opens hy (w - 1)
  have hr := packFrom_opens hgt 0
  refine (orB_ensures (xorB_opens hs2 hs1) (xorB_opens hr hs2)).bind fun o ho => ?_
  apply Computes.pure
  have hfinal := maskB_opens (unpackFrom_opens hgt (xorB_opens hs1 ho) 0) 1
  convert hfinal using 1
  funext k
  have hk := Vec.div_lt_compressedSize k.isLt hw
  have hmod := Nat.mod_lt k.val hw
  have hmsb : ∀ u : Vec w n, (u k).getLsbD (w - 1) = (u k).msb := fun u =>
    (BitVec.msb_eq_getLsbD_last (u k)).symm
  rw [Vec.mask, Vec.mask_one_eq, Vec.getLsbD_unpackFrom k hk, if_pos rfl]
  simp only [Vec.xor_apply, Vec.and_apply, Vec.not_apply, BitVec.getLsbD_xor, BitVec.getLsbD_and,
    BitVec.getLsbD_not, Vec.getLsbD_packFrom k hk hw, hmsb, hmod, hw, decide_true, Bool.true_and,
    sign_step]
  by_cases hsigns : (a k).msb = (b k).msb
  · rw [if_pos hsigns, hv.edge k hsigns, greaterBits]
    split <;> simp [hw]
  · rw [if_neg hsigns, msb_of_msb_ne (a k) (b k) hsigns, greaterBits]
    simp only [decide_eq_true_eq]

theorem compare_ensures (hw : 0 < w) (hx : OpensB x a) (hy : OpensB y b) :
    P.Ensures (fun p => P.compare p (x p) (y p)) fun z =>
      OpensB (fun p => (z p).1) (equalBits a b) ∧ OpensB (fun p => (z p).2) (greaterBits a b) := by
  apply (bitSame_samePrefix hx hy).bind
  rintro e ⟨v, he, hv⟩
  refine (greaterFromPrefix_ensures hw hx hy he hv).bind fun g hg => ?_
  refine Computes.pure ⟨?_, hg⟩
  rw [← hv.mask hw]
  exact maskB_opens he 1

/-- The packed bits tell whether `a` and `b` agree from bit `i` on. -/
def PacksPrefix (c : Vec w (Vec.compressedSize w n)) (a b : Vec w n) (i : ℕ) : Prop :=
  ∀ (k : Fin n) (hk : k.val / w < Vec.compressedSize w n),
    ((c ⟨k.val / w, hk⟩).getLsbD (k.val % w) = true ↔
      ∀ j, i ≤ j → j < w → (a k).getLsbD j = (b k).getLsbD j)

/-- One more bit has to agree. -/
theorem packsPrefix_step (hw : 0 < w) {i : ℕ} (hi : i < w) {c : Vec w (Vec.compressedSize w n)}
    (hc : i + 1 = w ∨ PacksPrefix c a b (i + 1)) :
    PacksPrefix (if i = w - 1 then ~~~ Vec.packFrom (a ^^^ b) i
      else c &&& ~~~ Vec.packFrom (a ^^^ b) i) a b i := by
  intro k hk
  have hmod := Nat.mod_lt k.val hw
  have hbit : (((~~~ Vec.packFrom (a ^^^ b) i : Vec w (Vec.compressedSize w n)))
      ⟨k.val / w, hk⟩).getLsbD (k.val % w) = true ↔ (a k).getLsbD i = (b k).getLsbD i := by
    rw [Vec.not_apply, BitVec.getLsbD_not, Vec.getLsbD_packFrom k hk hw, Vec.xor_apply,
      BitVec.getLsbD_xor]
    simp [hmod]
  have hsplit : (∀ j, i ≤ j → j < w → (a k).getLsbD j = (b k).getLsbD j) ↔
      (∀ j, i + 1 ≤ j → j < w → (a k).getLsbD j = (b k).getLsbD j) ∧
        (a k).getLsbD i = (b k).getLsbD i := by
    constructor
    · exact fun hall => ⟨fun j hij hj => hall j (by omega) hj, hall i le_rfl hi⟩
    · rintro ⟨hrest, hthis⟩ j hij hj
      rcases Nat.eq_or_lt_of_le hij with rfl | hlt
      · exact hthis
      · exact hrest j hlt hj
  rw [hsplit]
  by_cases hlast : i = w - 1
  · rw [if_pos hlast, hbit]
    exact ⟨fun hthis => ⟨fun j hij hj => by omega, hthis⟩, And.right⟩
  · have hprev := hc.resolve_left (by omega)
    rw [if_neg hlast, Vec.and_apply, BitVec.getLsbD_and, Bool.and_eq_true, hbit, hprev k hk]

theorem linearLoop_ensures (hw : 0 < w) {t : P.scheme.Shares (Vec w n)} (ht : OpensB t (a ^^^ b))
    (rounds : ℕ) (hrounds : rounds ≤ w) {r : P.scheme.Shares (Vec w (Vec.compressedSize w n))}
    {c : Vec w (Vec.compressedSize w n)} (hr : OpensB r c)
    (hc : rounds = w ∨ PacksPrefix c a b rounds) {e : P.scheme.Shares (Vec w n)} {u : Vec w n}
    (he : OpensB e u)
    (hu : ∀ (k : Fin n) (i : ℕ), rounds ≤ i → i < w →
      ((u k).getLsbD i = true ↔ ∀ j, i ≤ j → j < w → (a k).getLsbD j = (b k).getLsbD j)) :
    P.Ensures (fun p => P.linearLoop p (t p) rounds (r p) (e p))
      fun z => ∃ v, OpensB z v ∧ SamePrefix a b v := by
  induction rounds generalizing r c e u with
  | zero => exact Computes.pure ⟨u, he, fun k i hi => hu k i (Nat.zero_le i) hi⟩
  | succ i ih =>
      have hi : i < w := by omega
      have hb1 := P.notB_opens (packFrom_opens ht i)
      have hround : P.Ensures (fun p => if i = w - 1 then pure (P.notB p (P.packFrom (t p) i))
          else P.andB p (r p) (P.notB p (P.packFrom (t p) i))) fun z => OpensB z
            (if i = w - 1 then ~~~ Vec.packFrom (a ^^^ b) i
              else c &&& ~~~ Vec.packFrom (a ^^^ b) i) := by
        by_cases hlast : i = w - 1
        · simp only [if_pos hlast]
          exact Computes.pure hb1
        · simp only [if_neg hlast]
          exact P.andB_computes hr hb1
      refine hround.bind fun r' hr' => ?_
      have hpacks := packsPrefix_step hw hi hc
      refine ih (by omega) hr' (Or.inr hpacks) (unpackFrom_opens he hr' i) fun k j hj hjw => ?_
      have hk := Vec.div_lt_compressedSize k.isLt hw
      rw [Vec.getLsbD_unpackFrom k hk]
      split
      · rename_i heq
        subst heq
        rw [decide_eq_true hi, Bool.true_and]
        exact hpacks k hk
      · exact hu k j (by omega) hjw

theorem linearCompare_ensures (hw : 0 < w) (hx : OpensB x a) (hy : OpensB y b) (he : OpensB e v) :
    P.Ensures (fun p => P.linearCompare p (x p) (y p) (e p)) fun z =>
      OpensB (fun p => (z p).1) (equalBits a b) ∧ OpensB (fun p => (z p).2) (greaterBits a b) := by
  refine (linearLoop_ensures hw (xorB_opens hx hy) w le_rfl zero_opens (Or.inl rfl) he
    fun k i hi hiw => absurd hiw (by omega)).bind ?_
  rintro q ⟨u, hq, hu⟩
  refine (greaterFromPrefix_ensures hw hx hy hq hu).bind fun g hg => ?_
  refine Computes.pure ⟨?_, hg⟩
  rw [← hu.mask hw]
  exact maskB_opens hq 1

/-- The subtraction opens to the signs of the differences. -/
theorem rcaCompare_ensures (hw : 0 < w) (hx : OpensB x a) (hy : OpensB y b) (he : OpensB e v) :
    P.Ensures (fun p => P.rcaCompare p (x p) (y p) (e p)) fun z =>
      OpensB z fun k => if (a k - b k).msb then 1 else 0 := by
  have hnb := P.notB_opens hy
  have hsign := packedSignLoop_ensures hw a (~~~ b) true
    (fun i => packFrom_opens (xorB_opens hx hnb) i) (fun i => packFrom_opens hx i) w 0
    (Nat.zero_add w) hw (P.notB_opens zero_opens) (packsBit_carryIn hw a (~~~ b) true)
  apply hsign.bind
  rintro s ⟨q, hs, hq⟩
  apply Computes.pure
  have hltz := ltz_opens (unpackFrom_opens he hs (w - 1))
  convert hltz using 1
  ext k
  have hk := Vec.div_lt_compressedSize k.isLt hw
  have hlt : w - 1 < w := by omega
  rw [Vec.ltz_apply, BitVec.msb_eq_getLsbD_last (Vec.unpackFrom v q (w - 1) k),
    Vec.getLsbD_unpackFrom k hk, if_pos rfl, hq k hk, addWithCarry_not, decide_eq_true hlt,
    Bool.true_and]
  rfl

end Protocol

open Protocol

/-- The comparisons by a prefix open to equality and the signed order in every protocol; the comparison
by a subtraction opens to the same order exactly if no difference overflows. -/
theorem comparison_circuits_iff (name : ProtocolName) (hw : 0 < w)
    {x y e s : (name.protocol w).scheme.Shares (Vec w n)} {a b u v : Vec w n} (hx : OpensB x a)
    (hy : OpensB y b) (he : OpensB e u) (hs : OpensB s v) :
    (name.protocol w).Ensures (fun p => (name.protocol w).compare p (x p) (y p)) (fun z =>
        OpensB (fun p => (z p).1) (equalBits a b) ∧ OpensB (fun p => (z p).2) (greaterBits a b)) ∧
      (name.protocol w).Ensures (fun p => (name.protocol w).linearCompare p (x p) (y p) (e p))
        (fun z => OpensB (fun p => (z p).1) (equalBits a b) ∧
          OpensB (fun p => (z p).2) (greaterBits a b)) ∧
      (name.protocol w).Ensures (fun p => (name.protocol w).rcaCompare p (x p) (y p) (s p))
        (fun z => OpensB z (greaterBits b a)) ↔
    ∀ k, SubFits (a k) (b k) := by
  have hrca := rcaCompare_ensures hw hx hy hs
  have horder : (fun k => if (a k - b k).msb then 1 else 0) = greaterBits b a ↔
      ∀ k, SubFits (a k) (b k) := by
    rw [funext_iff]
    refine forall_congr' fun k => ?_
    rw [← msb_sub_eq_iff hw, greaterBits]
    cases (a k - b k).msb with
    | true => by_cases hlt : (a k).toInt < (b k).toInt <;> simp [hlt, hw.ne']
    | false => by_cases hlt : (a k).toInt < (b k).toInt <;> simp [hlt, hw.ne']
  rw [← horder]
  constructor
  · rintro ⟨-, -, hless⟩
    exact hrca.opens_unique hless
  · intro heq
    rw [heq] at hrca
    exact ⟨compare_ensures hw hx hy, linearCompare_ensures hw hx hy he, hrca⟩

/-- Shares of one byte, all of which the first party holds. -/
def byteShares (value : BitVec 8) : Beaver2PC.scheme.Shares (Vec 8 1) := fun p _ =>
  if p = 0 then ![value] else ![0]

theorem byteShares_opens (value : BitVec 8) : OpensB (byteShares value) ![value] := by
  apply Beaver2PC.opens_iff.mpr
  funext k
  obtain rfl : k = 0 := Fin.fin_one_eq_zero k
  exact BitVec.xor_zero

theorem comparison_circuits_iff_bytes :
    (beaver2PC false 8).Ensures
        (fun p => (beaver2PC false 8).compare p (byteShares 5 p) (byteShares 7 p)) (fun z =>
        OpensB (fun p => (z p).1) (equalBits ![5] ![7]) ∧
          OpensB (fun p => (z p).2) (greaterBits ![5] ![7])) ∧
      (beaver2PC false 8).Ensures
        (fun p => (beaver2PC false 8).linearCompare p (byteShares 5 p) (byteShares 7 p)
          (byteShares 0 p))
        (fun z => OpensB (fun p => (z p).1) (equalBits ![5] ![7]) ∧
          OpensB (fun p => (z p).2) (greaterBits ![5] ![7])) ∧
      (beaver2PC false 8).Ensures
        (fun p => (beaver2PC false 8).rcaCompare p (byteShares 5 p) (byteShares 7 p) (byteShares 0 p))
        (fun z => OpensB z (greaterBits ![7] ![5])) ↔
    ∀ k, SubFits ((![5] : Vec 8 1) k) ((![7] : Vec 8 1) k) :=
  comparison_circuits_iff (.beaver2PC false) (by decide) (byteShares_opens 5) (byteShares_opens 7)
    (byteShares_opens 0) (byteShares_opens 0)

/-- The least byte is not below one according to the subtraction. -/
theorem comparison_circuits_fail :
    ¬ ∀ (name : ProtocolName) (w n : ℕ), 0 < w →
      ∀ (x y e s : (name.protocol w).scheme.Shares (Vec w n)) (a b u v : Vec w n),
      OpensB x a → OpensB y b → OpensB e u → OpensB s v →
        (name.protocol w).Ensures (fun p => (name.protocol w).compare p (x p) (y p)) (fun z =>
            OpensB (fun p => (z p).1) (equalBits a b) ∧ OpensB (fun p => (z p).2) (greaterBits a b)) ∧
          (name.protocol w).Ensures (fun p => (name.protocol w).linearCompare p (x p) (y p) (e p))
            (fun z => OpensB (fun p => (z p).1) (equalBits a b) ∧
              OpensB (fun p => (z p).2) (greaterBits a b)) ∧
          (name.protocol w).Ensures (fun p => (name.protocol w).rcaCompare p (x p) (y p) (s p))
            (fun z => OpensB z (greaterBits b a)) := by
  intro hall
  have hless := (hall (.beaver2PC false) 8 1 (by decide) _ _ _ _ _ _ _ _ (byteShares_opens (-128))
    (byteShares_opens 1) (byteShares_opens 0) (byteShares_opens 0)).2.2
  have hsign := rcaCompare_ensures (P := beaver2PC false 8) (by decide) (byteShares_opens (-128))
    (byteShares_opens 1) (byteShares_opens 0)
  have hbit := congrFun (hsign.opens_unique hless) 0
  exact absurd hbit (by decide)

end CryptDough
