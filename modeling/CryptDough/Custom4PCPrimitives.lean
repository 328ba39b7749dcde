import CryptDough.Custom4PC
import CryptDough.Fantastic4PCConversion

/-! What the four parties of the custom protocol compute when all of them are honest: consistent
sharings that open to what the primitive says. -/

namespace CryptDough.Custom4PC

open Process Sharing ProtocolBase

variable {w n : ℕ} {D : Type}

abbrev deal (x : Fin 4 → Vec w n) : scheme.Shares (Vec w n) := Scheme.deal x

theorem reconstruct_deal {D : Type} (op : D → D → D) (z : Fin 4 → D) :
    Scheme.reconstruct op (Scheme.deal z : scheme.Shares D) = combine op z := by
  refine congrArg (combine op) (funext fun p => ?_)
  exact congrArg z (add_zero p)

/-- Counted from any party, the parties are all four. -/
theorem roles (g p : Fin 4) : p = g + 3 ∨ p = g + 2 ∨ p = g ∨ p = g + 1 := by
  revert g p
  decide

theorem roles_ne (g : Fin 4) : g + 3 ≠ g ∧ g + 2 ≠ g ∧ g + 1 ≠ g ∧ g + 3 ≠ g + 2 ∧ g + 1 ≠ g + 3 ∧
    g + 1 ≠ g + 2 := by
  revert g
  decide

theorem roles_sum (g : Fin 4) : g + 3 + 1 = g ∧ g + 2 + 2 = g ∧ g + 1 + 3 = g ∧ g + 2 + 1 = g + 3 ∧
    g + 1 + 1 = g + 2 ∧ g + 1 + 2 = g + 3 ∧ g + 3 + 2 = g + 1 := by
  revert g
  decide

theorem roles_neg (g : Fin 4) : g + -1 = g + 3 ∧ g + -2 = g + 2 ∧ g + -3 = g + 1 := by
  revert g
  decide

section Product

variable [DecidableEq D] (generateHash : ∀ {n : ℕ}, Vec w n → D)
  (add minus mul : Vec w n → Vec w n → Vec w n)

/-- The products of a part with itself and with the next one. -/
def neighbourTerms (x y : Fin 4 → Vec w n) (k : Fin 4) : Vec w n :=
  add (add (mul (x k) (y k)) (mul (x k) (y (k + 1)))) (mul (x (k + 1)) (y k))

theorem cross10_deal (x y : Fin 4 → Vec w n) (p : Fin 4) (r : Vec w n) :
    cross10 add minus mul (deal x p)
        (deal y p) r =
      minus (neighbourTerms add mul x y p) r := by
  show minus (add (add (mul (x (p + 0)) (y (p + 0))) (mul (x (p + 0)) (y (p + 1))))
    (mul (x (p + 1)) (y (p + 0)))) r = _
  rw [add_zero, neighbourTerms]

theorem cross12_deal (x y : Fin 4 → Vec w n) (p : Fin 4) (r : Vec w n) :
    cross12 add minus mul (deal x p)
        (deal y p) r =
      minus (neighbourTerms add mul x y (p + 1)) r := by
  have hnext : p + 1 + 1 = p + 2 := add_assoc p 1 1
  show minus (add (add (mul (x (p + 1)) (y (p + 1))) (mul (x (p + 1)) (y (p + 2))))
    (mul (x (p + 2)) (y (p + 1)))) r = _
  rw [neighbourTerms, hnext]

theorem completes_partialProducts (x y : Fin 4 → Vec w n) :
    Completes Correlated (fun p => partialProducts generateHash add minus mul p
        (deal x p) (deal y p))
      fun z => ∃ r : Fin 4 → Vec w n, z = deal fun k =>
        add (minus (neighbourTerms add mul x y (k + 3)) (r k)) (r (k + 1)) := by
  refine Completes.exchange fun tape hcorr => ?_
  let r := commonNext tape n
  let cross (k : Fin 4) : Vec w n := minus (neighbourTerms add mul x y (k + 3)) (r k)
  refine ⟨deal fun k => add (cross k) (r (k + 1)), ?_, ?_, ⟨r, rfl⟩⟩
  · intro p
    obtain ⟨h31, h22, h13, h21, h11, -⟩ := roles_sum p
    obtain ⟨hneg, -⟩ := roles_neg p
    have h23 : p + 2 + 3 = p + 1 := add_assoc p 2 3
    simp only [partialProducts, flush_getNext, flush_sendShares, flush_sendHash, flush_receiveShares,
      advance_common, hcorr.next_one, hcorr.next_two, hcorr.next_prev, cross10_deal, cross12_deal]
    rw [take_shares_hash (v := cross p) (d := generateHash (cross p)) (by simp) ?_, maliciousCheck_same]
    · refine congrArg some (Prod.ext (congrArg Except.ok (funext fun k => ?_)) rfl)
      fin_cases k
      · show add (cross p) (r (p + 1)) = add (cross (p + 0)) (r (p + 0 + 1))
        rw [add_zero]
      · show add (minus (neighbourTerms add mul x y p) (r (p + 1))) (r (p + 2)) =
          add (minus (neighbourTerms add mul x y (p + 1 + 3)) (r (p + 1))) (r (p + 1 + 1))
        rw [h13, h11]
      · show add (minus (neighbourTerms add mul x y (p + 1)) (r (p + 2))) (r (p + -1)) =
          add (minus (neighbourTerms add mul x y (p + 2 + 3)) (r (p + 2))) (r (p + 2 + 1))
        rw [h23, h21, hneg]
    · intro q
      simp only [eq_add_one p q, eq_add_two p q]
      by_cases hq : q = p + 3
      · subst hq
        simp [h31]
        rfl
      · by_cases hq' : q = p + 2
        · subst hq'
          simp [h22, h21]
          rfl
        · simp [hq, hq']
  · refine hcorr.shift (fun _ => n) ?_ ?_
    · intro p rank hrank
      show advance (advance (advance _ _ _) _ _) _ _ _ = _
      fin_cases rank
      · exact absurd rfl hrank
      · rfl
      · rfl
      · rfl
    · intro p g
      rfl

section

variable {add mul}

theorem cross02_deal [Std.Commutative add] (x y : Fin 4 → Vec w n) (p : Fin 4) (r : Vec w n) :
    cross02 add minus mul (deal x p)
        (deal y p) r =
      minus (add (mul (x p) (y (p + 2))) (mul (x (p + 2)) (y p))) r := by
  show minus (add (mul (x (p + 0)) (y (p + 2))) (mul (x (p + 2)) (y (p + 0)))) r = _
  rw [add_zero]

end

/-- What the second round adds to the parts: two random vectors, and the masked products of the parts
that are two apart. -/
def oppositeTerms (x y : Fin 4 → Vec w n) (s1 s2 : Vec w n) : Fin 4 → Vec w n :=
  ![s1, s2, minus (add (mul (x 0) (y 2)) (mul (x 2) (y 0))) s1,
    minus (add (mul (x 1) (y 3)) (mul (x 3) (y 1))) s2]

/-- What the parties send in the second round, if they have the masked products `masked`. -/
def oppositeSent (masked : Fin 4 → Vec w n) : Fin 4 → Fin 4 → List (Cell w D)
  | 0, a => if a = 1 then words (masked 0) else []
  | 1, a => if a = 2 then digest (generateHash (masked 1)) else []
  | 2, a => if a = 1 then digest (generateHash (masked 2)) else []
  | 3, a => if a = 2 then words (masked 3) else []

theorem completes_oppositeProducts [Std.Commutative add] (x y z : Fin 4 → Vec w n) :
    Completes Correlated (fun p => oppositeProducts generateHash add minus mul p
        (deal x p) (deal y p)
        (deal z p))
      fun z' => ∃ s1 s2 : Vec w n, z' = deal fun k =>
        add (z k) (oppositeTerms add minus mul x y s1 s2 k) := by
  refine Completes.exchange fun tape hcorr => ?_
  let s1 : Vec w n := commonNext tape n 1
  let s2 : Vec w n := commonNext tape n 2
  let u := minus (add (mul (x 0) (y 2)) (mul (x 2) (y 0))) s1
  let v := minus (add (mul (x 1) (y 3)) (mul (x 3) (y 1))) s2
  have hu : minus (add (mul (x 2) (y 0)) (mul (x 0) (y 2))) s1 = u :=
    congrArg (minus · s1) (Std.Commutative.comm _ _)
  have hv : minus (add (mul (x 3) (y 1)) (mul (x 1) (y 3))) s2 = v :=
    congrArg (minus · s2) (Std.Commutative.comm _ _)
  have hsent : ∀ q, ((oppositeProducts generateHash add minus mul q (deal x q) (deal y q)
        (deal z q)).run.flush (tape q)).2.1 =
      oppositeSent generateHash ![u, v, u, v] q := by
    intro q
    ext a
    match q with
    | 0 =>
      simp only [oppositeProducts, flush_getNext, flush_sendShares, flush_pure,
        hcorr.next_one, cross02_deal, List.append_nil]
      rfl
    | 1 =>
      simp only [oppositeProducts, flush_getNext, flush_sendHash, flush_receiveHash,
        hcorr.next_one, cross02_deal, List.append_nil]
      rfl
    | 2 =>
      simp only [oppositeProducts, flush_getNext, flush_sendHash, flush_receiveHash,
        hcorr.next_prev, cross02_deal, List.append_nil]
      rw [oppositeSent, ← hu]
      rfl
    | 3 =>
      simp only [oppositeProducts, flush_getNext, flush_sendShares, flush_pure,
        advance_common, hcorr.next_prev, cross02_deal, List.append_nil]
      rw [oppositeSent, ← hv]
      rfl
  refine ⟨deal fun k => add (z k) (oppositeTerms add minus mul x y s1 s2 k), ?_, ?_, ⟨s1, s2, rfl⟩⟩
  · intro p
    simp only [hsent]
    match p with
    | 0 =>
      simp only [oppositeProducts, flush_getNext, flush_sendShares, flush_pure, take_done,
        advance_common, hcorr.next_one, hcorr.next_two, cross02_deal]
      refine congrArg some (Prod.ext (congrArg Except.ok (funext fun k => ?_)) ?_)
      · fin_cases k <;> rfl
      · ext q
        fin_cases q <;> rfl
    | 1 =>
      simp only [oppositeProducts, flush_getNext, flush_sendHash, flush_receiveHash,
        hcorr.next_one, cross02_deal]
      rw [take_hash_shares (v := u) (d := generateHash u) (by decide) ?_, maliciousCheck_same]
      · refine congrArg some (Prod.ext (congrArg Except.ok (funext fun k => ?_)) rfl)
        fin_cases k <;> rfl
      · intro q
        fin_cases q <;> first
          | rfl
          | exact (List.append_nil _).symm
    | 2 =>
      simp only [oppositeProducts, flush_getNext, flush_sendHash, flush_receiveHash,
        hcorr.next_prev, cross02_deal]
      rw [take_hash_shares (v := v) (d := generateHash v) (by decide) ?_, maliciousCheck_same]
      · refine congrArg some (Prod.ext (congrArg Except.ok (funext fun k => ?_)) rfl)
        fin_cases k
        · exact congrArg (add (z 2)) hu
        · rfl
        · rfl
      · intro q
        fin_cases q <;> first
          | rfl
          | exact (List.append_nil _).symm
    | 3 =>
      simp only [oppositeProducts, flush_getNext, flush_sendShares, flush_pure, take_done,
        advance_common, hcorr.next_two, hcorr.next_prev, cross02_deal]
      refine congrArg some (Prod.ext (congrArg Except.ok (funext fun k => ?_)) ?_)
      · fin_cases k
        · exact congrArg (add (z 3)) hv
        · rfl
        · rfl
      · ext q
        fin_cases q <;> rfl
  · refine hcorr.shift (fun g => if g = 1 ∨ g = 2 then n else 0) ?_ ?_
    · intro p rank hrank
      fin_cases p <;> fin_cases rank <;> first
        | exact absurd rfl hrank
        | rfl
        | (funext i; simp; rfl)
    · intro p g
      fin_cases p <;> rfl

variable {add minus mul} [Std.Commutative add] [Std.Associative add]

/-- The masks cancel, and what remains are all sixteen products. -/
theorem combine_terms (hminus : ∀ a b, add b (minus a b) = a)
    (hl : ∀ a b c, mul (add a b) c = add (mul a c) (mul b c))
    (hr : ∀ a b c, mul a (add b c) = add (mul a b) (mul a c)) (x y r : Fin 4 → Vec w n)
    (s1 s2 : Vec w n) :
    (combine add fun k => add (add (minus (neighbourTerms add mul x y (k + 3)) (r k)) (r (k + 1)))
      (oppositeTerms add minus mul x y s1 s2 k)) = mul (combine add x) (combine add y) := by
  let N := neighbourTerms add mul x y
  let u := add (mul (x 0) (y 2)) (mul (x 2) (y 0))
  let v := add (mul (x 1) (y 3)) (mul (x 3) (y 1))
  have hcycle : (combine add fun k => add (add (minus (N (k + 3)) (r k)) (r (k + 1)))
      (oppositeTerms add minus mul x y s1 s2 k)) =
      add (add (add (add (add (minus (N 3) (r 0)) (r 1)) s1) (add (add (minus (N 0) (r 1)) (r 2)) s2))
        (add (add (minus (N 1) (r 2)) (r 3)) (minus u s1)))
        (add (add (minus (N 2) (r 3)) (r 0)) (minus v s2)) := rfl
  calc _ = add (add (add (add (add (add (r 0) (minus (N 3) (r 0))) (add (r 1) (minus (N 0) (r 1))))
            (add (r 2) (minus (N 1) (r 2)))) (add (r 3) (minus (N 2) (r 3)))) (add s1 (minus u s1)))
            (add s2 (minus v s2)) := by
          rw [hcycle]
          ac_rfl
    _ = add (add (add (add (add (N 3) (N 0)) (N 1)) (N 2)) u) v := by
          simp only [hminus]
    _ = mul (combine add x) (combine add y) := by
          simp only [N, u, v, neighbourTerms, combine_four, hl, hr]
          show add (add (add (add (add (add (add (mul (x 3) (y 3)) (mul (x 3) (y 0))) (mul (x 0) (y 3)))
            (add (add (mul (x 0) (y 0)) (mul (x 0) (y 1))) (mul (x 1) (y 0))))
            (add (add (mul (x 1) (y 1)) (mul (x 1) (y 2))) (mul (x 2) (y 1))))
            (add (add (mul (x 2) (y 2)) (mul (x 2) (y 3))) (mul (x 3) (y 2)))) _) _ = _
          ac_rfl

theorem completes_product (hminus : ∀ a b, add b (minus a b) = a)
    (hl : ∀ a b c, mul (add a b) c = add (mul a c) (mul b c))
    (hr : ∀ a b c, mul a (add b c) = add (mul a b) (mul a c)) {x y : scheme.Shares (Vec w n)}
    {a b : Vec w n} (hx : Scheme.Opens add x a) (hy : Scheme.Opens add y b) :
    Completes Correlated (fun p => product generateHash add minus mul p (x p) (y p))
      fun z : scheme.Shares (Vec w n) => Scheme.Opens add z (mul a b) := by
  obtain ⟨⟨x, rfl⟩, rfl⟩ := hx
  obtain ⟨⟨y, rfl⟩, rfl⟩ := hy
  refine (completes_partialProducts generateHash add minus mul x y).bind fun z hz => ?_
  obtain ⟨r, rfl⟩ := hz
  refine (completes_oppositeProducts generateHash add minus mul x y _).mono fun z' hz' => ?_
  obtain ⟨s1, s2, rfl⟩ := hz'
  refine ⟨⟨_, rfl⟩, ?_⟩
  rw [reconstruct_deal, reconstruct_deal, reconstruct_deal]
  exact combine_terms hminus hl hr x y r s1 s2

end Product

section Input
variable [DecidableEq D] (generateHash : ∀ {n : ℕ}, Vec w n → D)
  {add minus : Vec w n → Vec w n → Vec w n}

/-- The parts of an input: the masked vector, and the mask in the part before. -/
def inpParts (minus : Vec w n → Vec w n → Vec w n) (v r : Vec w n) (g : Fin 4) : Fin 4 → Vec w n :=
  fun k => if k = g then minus v r else if k = g + 3 then r else 0

theorem inp_first (g : Fin 4) (x : Vec w n) :
    inp generateHash minus (g + 3) x (g + 3) (g + 2) g (g + 1) = (do
    let res0 ← getNext (.common (g - (g + 3))) n
    sendShares (g + 3) 1 (minus x res0)
    pure ![res0, minus x res0, 0] : Program w D _) := if_pos rfl

theorem inp_second (g : Fin 4) (x : Vec w n) :
    inp generateHash minus (g + 2) x (g + 3) (g + 2) g (g + 1) = (do
    let res1 ← getNext (.common (g - (g + 2))) n
    sendHash (g + 2) 2 (generateHash (minus x res1))
    pure ![0, res1, minus x res1] : Program w D _) := by
  rw [inp, if_neg (by simp), if_pos rfl]

theorem inp_receiver (g : Fin 4) (x : Vec w n) :
    inp generateHash minus g x (g + 3) (g + 2) g (g + 1) = (do
    let res0 ← receiveShares g 3 n
    let resHash ← receiveHash g 2
    maliciousCheck generateHash g res0 resHash 2 3
    pure ![res0, 0, 0] : Program w D _) := by
  rw [inp, if_neg (by simp), if_neg (by simp), if_pos rfl]

theorem inp_last (g : Fin 4) (x : Vec w n) :
    inp generateHash minus (g + 1) x (g + 3) (g + 2) g (g + 1) = (do
    let res2 ← getNext (.common (g - (g + 1))) n
    pure ![0, 0, res2] : Program w D _) := by
  rw [inp, if_neg (by simp), if_neg (by simp), if_neg (by simp), if_pos rfl]

/-- All parties but the receiver draw from the generator it lacks. -/
theorem inp_tape (g p : Fin 4) (x : Vec w n) (tape : Source → ℕ → Cell w D) :
    ((inp generateHash minus p x (g + 3) (g + 2) g (g + 1)).run.flush tape).2.2 =
      if p = g then tape else advance tape (.common (g - p)) n := by
  obtain ⟨h3, h2, h1, -⟩ := roles_ne g
  rcases roles g p with rfl | rfl | rfl | rfl
  · rw [inp_first, if_neg h3]
    rfl
  · rw [inp_second, if_neg h2]
    rfl
  · rw [inp_receiver, if_pos rfl]
    rfl
  · rw [inp_last, if_neg h1]
    rfl

theorem inpParts_roles (minus : Vec w n → Vec w n → Vec w n) (v r : Vec w n) (g : Fin 4) :
    inpParts minus v r g g = minus v r ∧ inpParts minus v r g (g + 3) = r ∧
      inpParts minus v r g (g + 2) = 0 ∧ inpParts minus v r g (g + 1) = 0 := by
  obtain ⟨h3, h2, h1, h32, h13, -⟩ := roles_ne g
  refine ⟨if_pos rfl, ?_, ?_, ?_⟩
  · rw [inpParts, if_neg h3, if_pos rfl]
  · rw [inpParts, if_neg h2, if_neg h32.symm]
  · rw [inpParts, if_neg h1, if_neg h13]

theorem combine_inpParts [Std.Commutative add] [Std.Associative add] (hzero : ∀ a, add 0 a = a)
    (hminus : ∀ a b, add b (minus a b) = a) (v r : Vec w n) (g : Fin 4) :
    combine add (inpParts minus v r g) = v := by
  have hzero' : ∀ a, add a 0 = a := fun a => (Std.Commutative.comm a 0).trans (hzero a)
  have hminus' : ∀ a b, add (minus a b) b = a :=
    fun a b => (Std.Commutative.comm (minus a b) b).trans (hminus a b)
  rw [combine_four]
  fin_cases g <;> simp [inpParts, hzero, hzero', hminus, hminus']

theorem completes_inp [Std.Commutative add] [Std.Associative add] (hzero : ∀ a, add 0 a = a)
    (hminus : ∀ a b, add b (minus a b) = a) (g : Fin 4) (x : Fin 4 → Vec w n) {v : Vec w n}
    (hi : x (g + 3) = v) (hj : x (g + 2) = v) :
    Completes Correlated (fun p => inp generateHash minus p (x p) (g + 3) (g + 2) g (g + 1))
      fun z : scheme.Shares (Vec w n) => Scheme.Opens add z v := by
  refine Completes.exchange fun tape hcorr => ?_
  let r : Vec w n := commonNext tape n g
  have hnext : ∀ p, p ≠ g → (fun i : Fin n => (tape p (.common (g - p)) i).toWord) = r := by
    intro p hp
    have hcommon := hcorr.next n p (sub_ne_zero.mpr hp.symm)
    rwa [add_sub_cancel] at hcommon
  obtain ⟨h3, h2, h1, h32, h13, h12⟩ := roles_ne g
  obtain ⟨h31, h22, -, h21, h11, h12', h32'⟩ := roles_sum g
  obtain ⟨hg, hg3, hg2, hg1⟩ := inpParts_roles minus v r g
  have hsent : ∀ q a,
      ((inp generateHash minus q (x q) (g + 3) (g + 2) g (g + 1)).run.flush (tape q)).2.1 a =
      if a = g then (if q = g + 3 then words (minus v r) else []) ++
        (if q = g + 2 then digest (generateHash (minus v r)) else []) else [] := by
    intro q a
    rcases roles g q with rfl | rfl | rfl | rfl
    · simp only [inp_first, flush_getNext, flush_sendShares, flush_pure, hnext _ h3, hi, h31]
      simp [h32]
    · simp only [inp_second, flush_getNext, flush_sendHash, flush_pure, hnext _ h2, hj, h22]
      simp [h32.symm]
    · simp only [inp_receiver, flush_receiveShares]
      simp [h3.symm, h2.symm]
    · simp only [inp_last, flush_getNext, flush_pure]
      simp [h13, h12]
  refine ⟨deal (inpParts minus v r g), ?_, ?_, ⟨_, rfl⟩, ?_⟩
  · intro p
    simp only [hsent]
    rcases roles g p with rfl | rfl | rfl | rfl
    · simp only [inp_first, flush_getNext, flush_sendShares, flush_pure, hnext _ h3, hi,
        take_done, if_neg h3]
      refine congrArg some (Prod.ext (congrArg Except.ok (funext fun k => ?_)) rfl)
      fin_cases k
      · show r = inpParts minus v r g (g + 3 + 0)
        rw [add_zero, hg3]
      · show minus v r = inpParts minus v r g (g + 3 + 1)
        rw [h31, hg]
      · show 0 = inpParts minus v r g (g + 3 + 2)
        rw [h32', hg1]
    · simp only [inp_second, flush_getNext, flush_sendHash, flush_pure, hnext _ h2, hj,
        take_done, if_neg h2]
      refine congrArg some (Prod.ext (congrArg Except.ok (funext fun k => ?_)) rfl)
      fin_cases k
      · show 0 = inpParts minus v r g (g + 2 + 0)
        rw [add_zero, hg2]
      · show r = inpParts minus v r g (g + 2 + 1)
        rw [h21, hg3]
      · show minus v r = inpParts minus v r g (g + 2 + 2)
        rw [h22, hg]
    · simp only [inp_receiver, flush_receiveShares, if_true]
      rw [take_shares_hash h32 (fun _ => rfl), maliciousCheck_same]
      refine congrArg some (Prod.ext (congrArg Except.ok (funext fun k => ?_)) rfl)
      fin_cases k
      · show minus v r = inpParts minus v r p (p + 0)
        rw [add_zero, hg]
      · exact hg1.symm
      · exact hg2.symm
    · simp only [inp_last, flush_getNext, flush_pure, hnext _ h1, take_done, if_neg h1]
      refine congrArg some (Prod.ext (congrArg Except.ok (funext fun k => ?_)) rfl)
      fin_cases k
      · show 0 = inpParts minus v r g (g + 1 + 0)
        rw [add_zero, hg1]
      · show 0 = inpParts minus v r g (g + 1 + 1)
        rw [h11, hg2]
      · show r = inpParts minus v r g (g + 1 + 2)
        rw [h12', hg3]
  · exact hcorr.shift_except g n fun p => inp_tape generateHash g p (x p) (tape p)
  · rw [reconstruct_deal]
    exact combine_inpParts hzero hminus v r g

end Input

section Conversions

variable [DecidableEq D] (generateHash : ∀ {n : ℕ}, Vec w n → D)

theorem completes_multiplyA {x y : scheme.Shares (Vec w n)} {a b : Vec w n} (hx : OpensA x a)
    (hy : OpensA y b) :
    Completes Correlated (fun p => multiplyA generateHash p (x p) (y p))
      fun z : scheme.Shares (Vec w n) => OpensA z (a * b) :=
  completes_product generateHash Fantastic4PC.add_zero_minus.2 add_mul mul_add hx hy

theorem completes_andB {x y : scheme.Shares (Vec w n)} {a b : Vec w n} (hx : OpensB x a)
    (hy : OpensB y b) :
    Completes Correlated (fun p => andB generateHash p (x p) (y p))
      fun z : scheme.Shares (Vec w n) => OpensB z (a &&& b) :=
  completes_product generateHash Fantastic4PC.xor_zero_minus.2 Vec.xor_and Vec.and_xor hx hy

section Inputs

variable {v : Fin 4 → Vec w n} (g : Fin 4) (secret : Vec w n)

theorem completes_inpA (hi : v (g + 3) = secret) (hj : v (g + 2) = secret) :
    Completes Correlated (fun p => inpA generateHash p (v p) (g + 3) (g + 2) g (g + 1))
      fun z : scheme.Shares (Vec w n) => OpensA z secret :=
  completes_inp generateHash Fantastic4PC.add_zero_minus.1 Fantastic4PC.add_zero_minus.2 g v hi hj

theorem completes_inpB (hi : v (g + 3) = secret) (hj : v (g + 2) = secret) :
    Completes Correlated (fun p => inpB generateHash p (v p) (g + 3) (g + 2) g (g + 1))
      fun z : scheme.Shares (Vec w n) => OpensB z secret :=
  completes_inp generateHash Fantastic4PC.xor_zero_minus.1 Fantastic4PC.xor_zero_minus.2 g v hi hj

end Inputs

/-- What the parties 3 and 2 know plus what the parties 1 and 0 know. -/
theorem completes_inpPairs {v : Fin 4 → Vec w n} {s t : Vec w n} (h3 : v 3 = s) (h2 : v 2 = s)
    (h1 : v 1 = t) (h0 : v 0 = t) :
    Completes Correlated (fun p => inpPairs generateHash p (v p))
      fun z : scheme.Shares (Vec w n) => OpensA z (s + t) := by
  refine (completes_inpA generateHash 0 s h3 h2).bind fun first hfirst => ?_
  refine (completes_inpA generateHash 2 t h1 h0).bind fun second hsecond => ?_
  exact Completes.pure (hfirst.op hsecond)

/-- The rounded quotients of the two sums the pairs of parties know. -/
def quotient (correction : Bool) (s : Vec w n) (c : BitVec w) : Vec w n := fun i =>
  if correction then (s i).sdiv c - (if (s i).slt 0 then 1 else 0) else (s i).sdiv c

/-- The remainder that goes with the corrected quotient. -/
def remainder (s : Vec w n) (c : BitVec w) : Vec w n := fun i =>
  (s i).srem c + (if (s i).slt 0 then 1 else 0) * c

/-- The division of the elements by `c` is defined: not by zero, and the smallest element of a type
that is not promoted to a wider one is not divided by minus one. -/
def DivisionDefined (s : Vec w n) (c : BitVec w) : Prop :=
  c ≠ 0 ∧ (32 ≤ w → c = -1 → ∀ i, s i ≠ BitVec.intMin w)

theorem completes_divConstA {x : Fin 4 → Vec w n} (correction : Bool) (c : BitVec w) :
    Completes Correlated
      (fun p => divConstA generateHash correction p (deal x p) c)
      fun z => OpensA (fun p => (z p).1 : scheme.Shares (Vec w n))
          (quotient correction (x 3 + x 0) c + quotient correction (x 1 + x 2) c) ∧
        OpensA (fun p => (z p).2 : scheme.Shares (Vec w n)) (if correction then
          (fun i => remainder (x 3 + x 0) c i - c) + remainder (x 1 + x 2) c else 0) := by
  cases correction with
  | false =>
      simp only [divConstA, Bool.false_eq_true, if_false]
      refine (completes_inpPairs generateHash rfl rfl rfl rfl).bind fun res hres => ?_
      exact Completes.pure ⟨hres, ⟨⟨fun _ => 0, rfl⟩, combine_const_idem _ 0 (zero_add 0)⟩⟩
  | true =>
      simp only [divConstA, if_true]
      refine (completes_inpPairs generateHash rfl rfl rfl rfl).bind fun res hres => ?_
      refine (completes_inpPairs generateHash rfl rfl rfl rfl).bind fun err herr => ?_
      exact Completes.pure ⟨hres, herr⟩

theorem completes_b2aBit {x : scheme.Shares (Vec w n)} {a : Vec w n} (hx : OpensB x a) :
    Completes Correlated (fun p => b2aBit generateHash p (x p)) fun z : scheme.Shares (Vec w n) =>
      OpensA z (Vec.mask a 1) := by
  obtain ⟨⟨x, rfl⟩, rfl⟩ := hx
  let s0 : Vec w n := Vec.mask (x 1) 1 ^^^ Vec.mask (x 2) 1
  let s1 : Vec w n := Vec.mask (x 3) 1 ^^^ Vec.mask (x 0) 1
  have hbits : (s0 - s1) * (s0 - s1) =
      Vec.mask (Scheme.reconstruct (· ^^^ ·) (deal x)) 1 := by
    rw [reconstruct_deal, combine_four]
    ext i
    simp only [s0, s1, ← Vec.mask_xor, Pi.mul_apply, Pi.sub_apply, Vec.mask, Vec.xor_apply,
      Vec.sq_sub_bits]
    congr 1
    ac_rfl
  rw [← hbits]
  simp only [b2aBit]
  refine (completes_inpA generateHash 2 s0 rfl rfl).bind fun share0 h0 => ?_
  refine (completes_inpA generateHash 0 s1 rfl rfl).bind fun share1 h1 => ?_
  exact completes_multiplyA generateHash (Fantastic4PC.opensA_sub h0 h1)
    (Fantastic4PC.opensA_sub h0 h1)

theorem completes_redistributeSharesB {x : scheme.Shares (Vec w n)} {a : Vec w n}
    (hx : OpensA x a) :
    Completes Correlated (fun p => redistributeSharesB generateHash p (x p)) fun z =>
      ∃ b c : Vec w n, OpensB (fun p => (z p).1 : scheme.Shares (Vec w n)) b ∧
        OpensB (fun p => (z p).2 : scheme.Shares (Vec w n)) c ∧ b + c = a := by
  obtain ⟨⟨x, rfl⟩, rfl⟩ := hx
  simp only [redistributeSharesB]
  refine (completes_inpB generateHash 1 (x 0 + x 1) rfl rfl).bind fun res1 h1 => ?_
  refine (completes_inpB generateHash 3 (x 2 + x 3) rfl rfl).bind fun res2 h2 => ?_
  refine Completes.pure ⟨x 0 + x 1, x 2 + x 3, h1, h2, ?_⟩
  rw [reconstruct_deal, combine_four]
  abel

theorem notB_opens {x : scheme.Shares (Vec w n)} {a : Vec w n} (hx : OpensB x a) :
    OpensB (fun p => notB p (x p)) (~~~ a) := by
  obtain ⟨⟨x, rfl⟩, rfl⟩ := hx
  have hdeal : (fun p => notB p (deal x p)) =
      deal (Function.update x 2 (~~~ x 2)) := by
    ext p r
    fin_cases p <;> fin_cases r <;> rfl
  rw [hdeal]
  refine ⟨⟨_, rfl⟩, ?_⟩
  rw [reconstruct_deal, reconstruct_deal, combine_four, combine_four]
  funext i
  ext j hj
  simp

theorem publicShare_opens (binary : Bool) (x : Vec w n) :
    OpensE binary (fun p => publicShare p x : scheme.Shares (Vec w n)) x := by
  have hdeal : (fun p => publicShare p x : scheme.Shares (Vec w n)) =
      deal (Function.update (fun _ => 0) 3 x) := by
    ext p r
    fin_cases p <;> fin_cases r <;> rfl
  rw [hdeal]
  refine ⟨⟨_, rfl⟩, ?_⟩
  rw [reconstruct_deal, combine_four]
  cases binary <;> funext i <;> simp [Vec.plus]

end Conversions

section SecretSharing

/-- What one party is sent of a shared input. -/
def sentShares (v : EVec scheme w n) : List (Cell w D) := words (v 0) ++ (words (v 1) ++ words (v 2))

/-- The random shares of an input, and the one that is left. -/
def inputShares (minus : Vec w n → Vec w n → Vec w n) (data : Vec w n) (nums : ℕ → BitVec w) :
    Fin 4 → Vec w n :=
  let share1 : Vec w n := fun i => nums i
  let share2 : Vec w n := fun i => nums (n + i)
  let share3 : Vec w n := fun i => nums (n + (n + i))
  ![share1, share2, share3, minus (minus (minus data share1) share2) share3]

theorem flush_getShares {β : Type} (minus : Vec w n → Vec w n → Vec w n) (data : Vec w n)
    (tape : Source → ℕ → Cell w D) (f : (Fin 4 → EVec scheme w n) → Program w D β) :
    (getShares minus data >>= f).run.flush tape =
      (f fun j k => inputShares minus data (fun i => (tape .localPRG i).toWord)
          (scheme.held j k)).run.flush
        (advance (advance (advance tape .localPRG n) .localPRG n) .localPRG n) := by
  let share1 : Vec w n := fun i => (tape .localPRG i).toWord
  let share2 : Vec w n := fun i => (tape .localPRG (n + i)).toWord
  let share3 : Vec w n := fun i => (tape .localPRG (n + (n + i))).toWord
  let share4 : Vec w n := minus (minus (minus data share1) share2) share3
  have htable : (![![share1, share2, share3], ![share2, share3, share4], ![share3, share4, share1],
      ![share4, share1, share2]] : Fin 4 → EVec scheme w n) = fun j k =>
        inputShares minus data (fun i => (tape .localPRG i).toWord) (scheme.held j k) := by
    ext j k
    fin_cases j <;> fin_cases k <;> rfl
  rw [← htable]
  simp only [getShares, bind_assoc, pure_bind, flush_getNext, advance_self]
  rfl

theorem combine_sub {D : Type} (op : D → D → D) [Std.Commutative op] [Std.Associative op]
    (z : Fin 4 → D) (d : Fin 4) : (combine op fun k => z (k - d)) = combine op z := by
  rw [combine_four, combine_four]
  fin_cases d
  · rfl
  · show op (op (op (z 3) (z 0)) (z 1)) (z 2) = _
    ac_rfl
  · show op (op (op (z 2) (z 3)) (z 0)) (z 1) = _
    ac_rfl
  · show op (op (op (z 1) (z 2)) (z 3)) (z 0) = _
    ac_rfl

theorem combine_inputShares {add minus : Vec w n → Vec w n → Vec w n} [Std.Commutative add]
    [Std.Associative add] (hminus : ∀ a b, add b (minus a b) = a) (data : Vec w n)
    (nums : ℕ → BitVec w) : combine add (inputShares minus data nums) = data := by
  let s1 : Vec w n := fun i => nums i
  let s2 : Vec w n := fun i => nums (n + i)
  let s3 : Vec w n := fun i => nums (n + (n + i))
  calc combine add (inputShares minus data nums)
      = add (add (add s1 s2) s3) (minus (minus (minus data s1) s2) s3) := rfl
    _ = add s1 (add s2 (add s3 (minus (minus (minus data s1) s2) s3))) := by ac_rfl
    _ = data := by rw [hminus, hminus, hminus]

theorem take_sentShares {p d : Fin 4} {v : EVec scheme w n} {ins : Fin 4 → List (Cell w D)}
    (hins : ∀ q, ins q = if q = d then sentShares v else []) :
    (do
      let s0 ← receiveShares p (d - p) n
      let s1 ← receiveShares p (d - p) n
      let s2 ← receiveShares p (d - p) n
      pure ![s0, s1, s2] : Program w D (EVec scheme w n)).run.take ins =
        some (.ok v, fun _ => []) := by
  have hd : p + (d - p) = d := add_sub_cancel p d
  have h0 : ins (p + (d - p)) = words (v 0) ++ (words (v 1) ++ words (v 2)) := by
    rw [hins, hd, if_pos rfl, sentShares]
  rw [take_receiveShares h0, take_receiveShares (Function.update_self _ _ _),
    take_receiveShares ((Function.update_self _ _ _).trans (List.append_nil _).symm)]
  refine congrArg some (Prod.ext (congrArg Except.ok (funext fun k => ?_)) (funext fun q => ?_))
  · fin_cases k <;> rfl
  · by_cases hq : q = d
    · simp [hd, hq]
    · simp [hd, hq, hins]

theorem completes_secretShare {add minus : Vec w n → Vec w n → Vec w n} [Std.Commutative add]
    [Std.Associative add] (hminus : ∀ a b, add b (minus a b) = a) (data : Fin 4 → Vec w n)
    (d : Fin 4) :
    Completes Correlated (fun p => secretShare minus p (data p) d : Fin 4 → Program w D _)
      fun z : scheme.Shares (Vec w n) => Scheme.Opens add z (data d) := by
  refine Completes.exchange fun tape hcorr => ?_
  let shares := inputShares minus (data d) fun i => (tape d .localPRG i).toWord
  let z := deal fun k => shares (k - d)
  have howner : secretShare minus d (data d) d = (do
      let shares ← getShares minus (data d)
      sendShares d 1 (shares 1 0)
      sendShares d 1 (shares 1 1)
      sendShares d 1 (shares 1 2)
      sendShares d 2 (shares 2 0)
      sendShares d 2 (shares 2 1)
      sendShares d 2 (shares 2 2)
      sendShares d 3 (shares 3 0)
      sendShares d 3 (shares 3 1)
      sendShares d 3 (shares 3 2)
      pure (shares 0) : Program w D _) := if_pos rfl
  have hother : ∀ p, p ≠ d → secretShare minus p (data p) d = (do
      let s0 ← receiveShares p (d - p) n
      let s1 ← receiveShares p (d - p) n
      let s2 ← receiveShares p (d - p) n
      pure ![s0, s1, s2] : Program w D _) := fun p hp => if_neg hp
  have hz : ∀ j k, z (d + j) k = shares (scheme.held j k) := by
    intro j k
    show shares (d + j + k.castLE (by decide) - d) = shares (j + k.castLE (by decide))
    rw [add_assoc, add_sub_cancel_left]
  have hsent : ∀ q a, ((secretShare minus q (data q) d).run.flush (tape q)).2.1 a =
      if q = d then (if a = d then [] else sentShares (z a)) else [] := by
    intro q a
    by_cases hq : q = d
    · subst hq
      rw [howner, if_pos rfl, flush_getShares]
      simp only [flush_sendShares, flush_pure]
      obtain ⟨j, rfl⟩ : ∃ j, a = q + j := ⟨a - q, (add_sub_cancel q a).symm⟩
      simp only [add_right_inj, add_eq_left, sentShares]
      induction j using four_cases with
      | zero => rfl
      | one =>
          show words _ ++ (words _ ++ (words _ ++ [])) = words _ ++ (words _ ++ words _)
          rw [List.append_nil, hz, hz, hz]
      | two =>
          show words _ ++ (words _ ++ (words _ ++ [])) = words _ ++ (words _ ++ words _)
          rw [List.append_nil, hz, hz, hz]
      | three =>
          show words _ ++ (words _ ++ (words _ ++ [])) = words _ ++ (words _ ++ words _)
          rw [List.append_nil, hz, hz, hz]
    · rw [hother q hq, if_neg hq, flush_receiveShares]
  refine ⟨z, ?_, ?_, ⟨_, rfl⟩, ?_⟩
  · intro p
    simp only [hsent]
    by_cases hp : p = d
    · subst hp
      rw [howner, flush_getShares]
      simp only [flush_sendShares, flush_pure, take_done, if_true, ite_self]
      refine congrArg some (Prod.ext (congrArg Except.ok (funext fun k => ?_)) rfl)
      have hz0 := hz 0 k
      rw [add_zero] at hz0
      exact hz0.symm
    · rw [hother p hp, flush_receiveShares]
      exact take_sentShares fun q => by simp [hp]
  · have htape : ∀ p s, s ≠ .localPRG →
        ((secretShare minus p (data p) d).run.flush (tape p)).2.2 s = tape p s := by
      intro p s hs
      by_cases hp : p = d
      · subst hp
        rw [howner, flush_getShares]
        simp only [flush_sendShares, flush_pure, advance_of_ne _ hs]
      · rw [hother p hp, flush_receiveShares]
    refine hcorr.shift (fun _ => 0) (fun p rank _ => ?_) fun p g => htape p _ Source.noConfusion
    rw [htape p _ Source.noConfusion]
    simp only [Nat.zero_add]
  · rw [reconstruct_deal, combine_sub]
    exact combine_inputShares hminus _ _

end SecretSharing

section Reshare

theorem groupTapes_respects :
    (groupTapes : Embedding (Group 3) Source (BitVec w) (Cell w D)).Respects GroupCorrelated
      Correlated where
  read := fun _ hcorr => hcorr.2
  keep := by
    intro tape tape' hcorr hread hframe
    have hcommon : ∀ p rank, tape' p (.common rank) = tape p (.common rank) :=
      fun p rank => hframe p _ fun _ => Source.noConfusion
    refine ⟨fun g p q hp hq i => ?_, hread⟩
    rw [hcommon, hcommon]
    exact hcorr.1 g p q hp hq i

theorem exists_erase_of_mem_getGroups :
    ∀ group ∈ getGroups, ∃ g, group = Finset.univ.erase g ∧ receiverParty group = g := by
  decide

theorem partyShare_eq (p : Fin 4) (r : Fin 3) : partyShare p r = scheme.held p r := by
  revert p r
  decide

/-- A vector and a hash from the same party. -/
theorem take_shares_hash_from {β : Type} {p rank : Fin 4} {v : Vec w n} {d : D}
    {ins : Fin 4 → List (Cell w D)} (hins : ins (p + rank) = words v ++ digest d)
    (f : Vec w n → Option D → Program w D β) :
    (receiveShares p rank n >>= fun v => receiveHash p rank >>= f v).run.take ins =
      (f v (some d)).run.take (Function.update ins (p + rank) []) := by
  rw [take_receiveShares hins, take_receiveHash
    ((Function.update_self _ _ _).trans (List.append_nil _).symm), Function.update_idem]

variable [DecidableEq D] (generateHash : ∀ {n : ℕ}, Vec w n → D)

theorem passOn_first (g : Fin 4) (v : EVec scheme w n) :
    passOn generateHash (g + 1) v (g - (g + 1)) = (do
      sendShares (g + 1) 3 (v 0)
      sendHash (g + 1) 3 (generateHash (v 1))
      pure v : Program w D _) := by
  rw [show g - (g + 1) = 3 by rw [sub_add_cancel_left]; rfl]
  rfl

theorem passOn_second (g : Fin 4) (v : EVec scheme w n) :
    passOn generateHash (g + 2) v (g - (g + 2)) = (do
      sendShares (g + 2) 2 (v 0)
      sendHash (g + 2) 2 (generateHash (v 2))
      pure v : Program w D _) := by
  rw [show g - (g + 2) = 2 by rw [sub_add_cancel_left]; rfl]
  rfl

theorem passOn_third (g : Fin 4) (v : EVec scheme w n) :
    passOn generateHash (g + 3) v (g - (g + 3)) = (do
      sendShares (g + 3) 1 (v 1)
      sendHash (g + 3) 1 (generateHash (v 2))
      pure v : Program w D _) := by
  rw [show g - (g + 3) = 1 by rw [sub_add_cancel_left]; rfl]
  rfl

theorem passOn_receiver (g : Fin 4) (v : EVec scheme w n) :
    passOn generateHash g v (g - g) = (do
      let received0 ← receiveShares g (-1) n
      let received1 ← receiveHash g (-1)
      let received2 ← receiveShares g (-2) n
      let received3 ← receiveHash g (-2)
      let received4 ← receiveShares g (-3) n
      let received5 ← receiveHash g (-3)
      maliciousCheck generateHash g received0 received3 (-1) (-2)
      maliciousCheck generateHash g received4 received1 (-3) (-1)
      maliciousCheck generateHash g received2 received5 (-2) (-3)
      pure ![received0, received4, received2] : Program w D _) := by
  rw [sub_self]
  rfl

/-- The members' shares, with what the party outside has received. -/
theorem completes_passOn (g : Fin 4) (x : Fin 4 → Vec w n) (v : scheme.Shares (Vec w n))
    (hv : ∀ p, p ≠ g → v p = deal x p) :
    Completes Correlated (fun p => passOn generateHash p (v p) (g - p))
      fun z => z = (deal x) := by
  obtain ⟨h3, h2, h1, h32, h13, h12⟩ := roles_ne g
  obtain ⟨h31, h22, h13', h21, h11, h12', h32'⟩ := roles_sum g
  obtain ⟨hn1, hn2, hn3⟩ := roles_neg g
  refine Completes.exchange fun tape hcorr => ?_
  have hsent : ∀ q a, ((passOn generateHash q (v q) (g - q)).run.flush (tape q)).2.1 a =
      if a = g then if q = g + 3 then words (x g) ++ digest (generateHash (x (g + 1)))
        else if q = g + 2 then words (x (g + 2)) ++ digest (generateHash (x g))
        else if q = g + 1 then words (x (g + 1)) ++ digest (generateHash (x (g + 2))) else []
      else [] := by
    intro q a
    rcases roles g q with rfl | rfl | rfl | rfl
    · rw [passOn_third, hv _ h3]
      simp only [flush_sendShares, flush_sendHash, flush_pure, h31, if_true]
      by_cases ha : a = g
      · rw [if_pos ha, if_pos ha, if_pos ha, List.append_nil]
        show words (x (g + 3 + 1)) ++ digest (generateHash (x (g + 3 + 2))) = _
        rw [h31, h32']
      · rw [if_neg ha, if_neg ha, if_neg ha]
        rfl
    · rw [passOn_second, hv _ h2]
      simp only [flush_sendShares, flush_sendHash, flush_pure, h22, if_neg h32.symm, if_true]
      by_cases ha : a = g
      · rw [if_pos ha, if_pos ha, if_pos ha, List.append_nil]
        show words (x (g + 2 + 0)) ++ digest (generateHash (x (g + 2 + 2))) = _
        rw [add_zero, h22]
      · rw [if_neg ha, if_neg ha, if_neg ha]
        rfl
    · rw [passOn_receiver, flush_receiveShares, if_neg h3.symm, if_neg h2.symm, if_neg h1.symm,
        ite_self]
    · rw [passOn_first, hv _ h1]
      simp only [flush_sendShares, flush_sendHash, flush_pure, h13', if_neg h13, if_neg h12, if_true]
      by_cases ha : a = g
      · rw [if_pos ha, if_pos ha, if_pos ha, List.append_nil]
        show words (x (g + 1 + 0)) ++ digest (generateHash (x (g + 1 + 1))) = _
        rw [add_zero, h11]
      · rw [if_neg ha, if_neg ha, if_neg ha]
        rfl
  refine ⟨(deal x), ?_, ?_, rfl⟩
  · intro p
    simp only [hsent]
    rcases roles g p with rfl | rfl | rfl | rfl
    · rw [passOn_third, hv _ h3]
      simp only [flush_sendShares, flush_sendHash, flush_pure, take_done, if_neg h3]
    · rw [passOn_second, hv _ h2]
      simp only [flush_sendShares, flush_sendHash, flush_pure, take_done, if_neg h2]
    · rw [passOn_receiver, flush_receiveShares]
      simp only [if_true]
      rw [take_shares_hash_from (v := x p) (d := generateHash (x (p + 1))) (by rw [hn1, if_pos rfl]),
        take_shares_hash_from (v := x (p + 2)) (d := generateHash (x p)) ?_,
        take_shares_hash_from (v := x (p + 1)) (d := generateHash (x (p + 2))) ?_,
        maliciousCheck_same, maliciousCheck_same, maliciousCheck_same]
      · refine congrArg some (Prod.ext (congrArg Except.ok (funext fun k => ?_)) (funext fun q => ?_))
        · fin_cases k
          · exact congrArg x (add_zero p).symm
          · rfl
          · rfl
        · rw [hn1, hn2, hn3]
          rcases roles p q with rfl | rfl | rfl | rfl
          · simp [h32, h13.symm]
          · simp [h12.symm]
          · simp [h3.symm, h2.symm, h1.symm]
          · simp
      · rw [hn1, hn2, hn3, Function.update_of_ne h12, Function.update_of_ne h13, if_neg h13,
          if_neg h12, if_pos rfl]
      · rw [hn1, hn2, Function.update_of_ne h32.symm, if_neg h32.symm, if_pos rfl]
    · rw [passOn_first, hv _ h1]
      simp only [flush_sendShares, flush_sendHash, flush_pure, take_done, if_neg h1]
  · have htape : ∀ p, ((passOn generateHash p (v p) (g - p)).run.flush (tape p)).2.2 = tape p := by
      intro p
      rcases roles g p with rfl | rfl | rfl | rfl
      · rw [passOn_third]
        rfl
      · rw [passOn_second]
        rfl
      · rw [passOn_receiver]
        rfl
      · rw [passOn_first]
        rfl
    rw [funext htape]
    exact hcorr

theorem completes_reshare {group : Group 3} (hgroup : group ∈ getGroups) {v : scheme.Shares (Vec w n)}
    {binary : Bool} {a : Vec w n} (hv : OpensE binary v a) :
    Completes Correlated (fun p => reshare generateHash p (v p) group binary)
      fun z : scheme.Shares (Vec w n) => OpensE binary z a := by
  obtain ⟨⟨x, rfl⟩, rfl⟩ := hv
  obtain ⟨g, rfl, hreceiver⟩ := exists_erase_of_mem_getGroups group hgroup
  have hrandom := (computes_rerandomize (fun _ _ h => h) (Finset.univ.erase g) (deal x) binary).embed
    (groupTapes_respects (w := w) (D := D))
  have hmember : ∀ p, p ∈ Finset.univ.erase g ↔ g - p ≠ 0 := fun p => by
    rw [Finset.mem_erase, sub_ne_zero]
    exact ⟨fun hp => hp.1.symm, fun hp => ⟨hp.symm, Finset.mem_univ p⟩⟩
  have hstages : (fun p => reshare generateHash p (deal x p) (Finset.univ.erase g) binary) = fun p =>
      (ExceptT.lift ((if p ∈ Finset.univ.erase g then
          rerandomize p (Finset.univ.erase g) (deal x p) binary else pure (deal x p)).embed
        groupTapes) : Program w D (EVec scheme w n)) >>= fun v => passOn generateHash p v (g - p) := by
    ext p
    by_cases hp : p ∈ Finset.univ.erase g
    · simp only [reshare, hreceiver, if_pos hp, if_pos ((hmember p).mp hp)]
    · simp only [reshare, hreceiver, if_neg hp, if_neg fun hne => hp ((hmember p).mpr hne)]
  rw [hstages]
  refine (Completes.lift hrandom).bind fun v hv => ?_
  obtain ⟨rand, hzero, hv⟩ := hv
  refine (completes_passOn generateHash g (fun k => Vec.plus binary (x k) (rand k)) v ?_).mono
    fun z hz => ?_
  · intro p hp
    ext r
    rw [hv p r, if_pos ((hmember p).mpr (sub_ne_zero.mpr hp.symm)), partyShare_eq]
    rfl
  · subst hz
    refine ⟨⟨_, rfl⟩, ?_⟩
    rw [reconstruct_deal, reconstruct_deal, combine_op, hzero, Vec.plus_zero]

end Reshare

/-- What four honest parties compute from consistent sharings is consistent again, opens to what the
primitive says, and no check fails. -/
theorem custom_primitives_correct {D : Type} [DecidableEq D] {w : ℕ}
    (generateHash : ∀ {n : ℕ}, Vec w n → D) :
    (∀ {n : ℕ} {x y : scheme.Shares (Vec w n)}, Scheme.Consistent x → Scheme.Consistent y →
      Completes Correlated (fun p => multiplyA generateHash p (x p) (y p))
        (fun z : scheme.Shares (Vec w n) => OpensA z (reconstructFromA x * reconstructFromA y)) ∧
      Completes Correlated (fun p => andB generateHash p (x p) (y p))
        (fun z : scheme.Shares (Vec w n) => OpensB z (reconstructFromB x &&& reconstructFromB y))) ∧
    (∀ {n : ℕ} {x : scheme.Shares (Vec w n)}, Scheme.Consistent x →
      Completes Correlated (fun p => b2aBit generateHash p (x p))
        (fun z : scheme.Shares (Vec w n) =>
          OpensA z fun i => if (reconstructFromB x i).getLsbD 0 then 1 else 0) ∧
      Completes Correlated (fun p => redistributeSharesB generateHash p (x p)) (fun z =>
        ∃ b c : Vec w n, OpensB (fun p => (z p).1 : scheme.Shares (Vec w n)) b ∧
          OpensB (fun p => (z p).2 : scheme.Shares (Vec w n)) c ∧ b + c = reconstructFromA x) ∧
      (∀ correction c, DivisionDefined (x 3 0 + x 3 1) c → DivisionDefined (x 1 0 + x 1 1) c →
        Completes Correlated (fun p => divConstA generateHash correction p (x p) c) (fun z =>
          ∃ u v : Vec w n, u + v = reconstructFromA x ∧
            OpensA (fun p => (z p).1 : scheme.Shares (Vec w n))
              (quotient correction u c + quotient correction v c) ∧
            OpensA (fun p => (z p).2 : scheme.Shares (Vec w n))
              (if correction then (fun i => remainder u c i - c) + remainder v c else 0))) ∧
      OpensB (fun p => notB p (x p) : scheme.Shares (Vec w n)) (~~~ reconstructFromB x) ∧
      ∀ group ∈ getGroups,
        Completes Correlated (fun p => reshare generateHash p (x p) group false)
          (fun z : scheme.Shares (Vec w n) => OpensA z (reconstructFromA x)) ∧
        Completes Correlated (fun p => reshare generateHash p (x p) group true)
          (fun z : scheme.Shares (Vec w n) => OpensB z (reconstructFromB x))) ∧
    (∀ {n : ℕ} (x : Vec w n), OpensA (fun p => publicShare p x : scheme.Shares (Vec w n)) x ∧
      OpensB (fun p => publicShare p x : scheme.Shares (Vec w n)) x) ∧
    ∀ {n : ℕ} (data : Fin 4 → Vec w n) (dataParty : Fin 4),
      Completes Correlated (fun p => (secretShareA p (data p) dataParty : Program w D _))
        (fun z : scheme.Shares (Vec w n) => OpensA z (data dataParty)) ∧
      Completes Correlated (fun p => (secretShareB p (data p) dataParty : Program w D _))
        (fun z : scheme.Shares (Vec w n) => OpensB z (data dataParty)) := by
  refine ⟨fun hx hy => ⟨completes_multiplyA generateHash ⟨hx, rfl⟩ ⟨hy, rfl⟩,
      completes_andB generateHash ⟨hx, rfl⟩ ⟨hy, rfl⟩⟩,
    fun {n x} hx => ⟨?_, completes_redistributeSharesB generateHash ⟨hx, rfl⟩, fun correction c _ _ => ?_,
      notB_opens ⟨hx, rfl⟩, fun group hgroup => ⟨?_, ?_⟩⟩,
    fun x => ⟨publicShare_opens false x, publicShare_opens true x⟩,
    fun data d => ⟨completes_secretShare Fantastic4PC.add_zero_minus.2 data d,
      completes_secretShare Fantastic4PC.xor_zero_minus.2 data d⟩⟩
  · have hbit := funext fun i => Vec.mask_one_eq (reconstructFromB x i)
    rw [← hbit]
    exact completes_b2aBit generateHash ⟨hx, rfl⟩
  · obtain ⟨x, rfl⟩ := hx
    refine (completes_divConstA generateHash correction c).mono fun z hz => ?_
    refine ⟨x 3 + x 0, x 1 + x 2, ?_, hz⟩
    have hsum : reconstructFromA (deal x) = combine (· + ·) x :=
      reconstruct_deal _ x
    rw [hsum, combine_four]
    abel
  · have hopens : OpensE false x (reconstructFromA x) := ⟨hx, rfl⟩
    exact completes_reshare generateHash hgroup hopens
  · have hopens : OpensE true x (reconstructFromB x) := ⟨hx, rfl⟩
    exact completes_reshare generateHash hgroup hopens

/-- Two sharings of nine are multiplied. -/
theorem custom_primitives_correct_example :
    Completes Correlated (fun p => multiplyA (fun {n} (v : Vec 8 n) => List.ofFn v) p
        (deal ![![1], ![2], ![3], ![3]] p) (deal ![![4], ![0], ![5], ![0]] p))
      (fun z : scheme.Shares (Vec 8 1) => OpensA z ![81]) :=
  ((custom_primitives_correct fun {n} (v : Vec 8 n) => List.ofFn v).1 ⟨_, rfl⟩ ⟨_, rfl⟩).1.mono
    fun z hz => ⟨hz.1, hz.2.trans (by decide)⟩

end CryptDough.Custom4PC
