import CryptDough.Protocol
import Mathlib.Tactic.FinCases

/-! Two parties with one XOR or additive share each. AND consumes a triple of shared random vectors
and opens two masked operands. -/

namespace CryptDough.Beaver2PC

open Process Sharing Communicator

abbrev scheme : Scheme where
  last := 1
  rep := 0
  held := fun p _ => p
  owner := fun p => p
  held_owner := fun _ => rfl

/-- The components of the AND triples. -/
inductive Source
  | a | b | c
deriving DecidableEq

variable {w n : ℕ}

/-- The shares of `c` open to the AND of what the shares of `a` and of `b` open to. -/
def Correlated (tape : Fin 2 → Source → ℕ → BitVec w) : Prop :=
  ∀ i, tape 0 .c i ^^^ tape 1 .c i =
    (tape 0 .a i ^^^ tape 1 .a i) &&& (tape 0 .b i ^^^ tape 1 .b i)

abbrev Program (w : ℕ) (β : Type) := Proc (Fin 2) Source (BitVec w) β

/-- The next `n` triples: this party's shares of `a`, `b` and `c`. -/
def getNext (n : ℕ) : Program w (Vec w n × Vec w n × Vec w n) := do
  let a ← .draw .a n .done
  let b ← .draw .b n .done
  let c ← .draw .c n .done
  pure (a, b, c)

def uncheckedOpenA (partyID : Fin 2) (shares : EVec scheme w n) : Program w (Vec w n) := do
  let shares2 ← exchangeShares partyID (shares 0) 1 1
  pure (shares 0 + shares2)

def uncheckedOpenB (partyID : Fin 2) (shares : EVec scheme w n) : Program w (Vec w n) := do
  let shares2 ← exchangeShares partyID (shares 0) 1 1
  pure (shares 0 ^^^ shares2)

/-- The product of either encoding from one triple. `stacked` is the variant for wide-area networks,
which opens both masked operands at once. -/
def beaverProduct (add minus mul : Vec w n → Vec w n → Vec w n)
    (uncheckedOpen : {m : ℕ} → Fin 2 → EVec scheme w m → Program w (Vec w m)) (stacked : Bool)
    (partyID : Fin 2) (x y : EVec scheme w n) : Program w (EVec scheme w n) := do
  let (a, b, c) ← getNext n
  if stacked then
    let opened ← uncheckedOpen partyID fun _ => Fin.append (add (x 0) a) (add (y 0) b)
    let A : Vec w n := fun i => opened (Fin.castAdd n i)
    let B : Vec w n := fun i => opened (Fin.natAdd n i)
    pure fun r => add (minus (mul (y r) A) (mul a B)) c
  else
    let A ← uncheckedOpen partyID fun r => add (x r) a
    let B ← uncheckedOpen partyID fun r => add (y r) b
    pure fun r => add (minus (mul (y r) A) (mul a B)) c

/-- The multiplication for numbers of precision zero, which need no truncation. -/
def multiplyA (stacked : Bool) (partyID : Fin 2) (x y : EVec scheme w n) :
    Program w (EVec scheme w n) :=
  beaverProduct (· + ·) (· - ·) (· * ·) uncheckedOpenA stacked partyID x y

/-- `stacked` is the variant for wide-area networks, which opens both masked operands at once. -/
def andB (stacked : Bool) (partyID : Fin 2) (x y : EVec scheme w n) :
    Program w (EVec scheme w n) := do
  let (a, b, c) ← getNext n
  if stacked then
    let opened ← uncheckedOpenB partyID fun _ => Fin.append (x 0 ^^^ a) (y 0 ^^^ b)
    let A : Vec w n := fun i => opened (Fin.castAdd n i)
    let B : Vec w n := fun i => opened (Fin.natAdd n i)
    pure fun r => (y r &&& A) ^^^ (a &&& B) ^^^ c
  else
    let A ← uncheckedOpenB partyID fun r => x r ^^^ a
    let B ← uncheckedOpenB partyID fun r => y r ^^^ b
    pure fun r => (y r &&& A) ^^^ (a &&& B) ^^^ c

def notB (partyID : Fin 2) (x : EVec scheme w n) : EVec scheme w n :=
  if partyID = 0 then fun r => ~~~ x r else x

/-- Only the first party's share changes: to one if it is zero, and to zero otherwise. -/
def notB1 (partyID : Fin 2) (x : EVec scheme w n) : EVec scheme w n :=
  if partyID = 0 then fun r => Vec.logicalNot (x r) else x

theorem opens_iff {op : Vec w n → Vec w n → Vec w n} {x : scheme.Shares (Vec w n)} {a : Vec w n} :
    Scheme.Opens op x a ↔ op (x 0 0) (x 1 0) = a := by
  constructor
  · exact fun hx => hx.2
  · intro hx
    refine ⟨⟨fun p => x p 0, ?_⟩, hx⟩
    ext p r
    obtain rfl : r = 0 := Fin.fin_one_eq_zero r
    rfl

theorem runs_getNext (tape : Fin 2 → Source → ℕ → BitVec w) :
    Runs (fun _ : Fin 2 => (getNext n : Program w _)) tape
      (fun p => (fun i : Fin n => tape p .a i, fun i : Fin n => tape p .b i,
        fun i : Fin n => tape p .c i))
      (fun p s i => tape p s (n + i)) := by
  have htape : (fun p => advance (advance (advance (tape p) .a n) .b n) .c n) =
      fun p s i => tape p s (n + i) := by
    ext p s i
    cases s <;> simp [advance]
  rw [← htape]
  exact Runs.settle (Runs.pure _ _)

theorem runs_uncheckedOpenB {m : ℕ} (x : scheme.Shares (Vec w m))
    (tape : Fin 2 → Source → ℕ → BitVec w) :
    Runs (fun p => uncheckedOpenB p (x p)) tape (fun _ => x 0 0 ^^^ x 1 0) tape := by
  have hopen := (runs_exchangeShares (fun p => x p 0) 1 1 rfl tape).map
    fun p shares2 => x p 0 ^^^ shares2
  convert hopen using 1
  · rfl
  · funext p
    fin_cases p
    · rfl
    · funext i
      exact BitVec.xor_comm (x 0 0 i) (x 1 0 i)

theorem runs_uncheckedOpenA {m : ℕ} (x : scheme.Shares (Vec w m))
    (tape : Fin 2 → Source → ℕ → BitVec w) :
    Runs (fun p => uncheckedOpenA p (x p)) tape (fun _ => x 0 0 + x 1 0) tape := by
  have hopen := (runs_exchangeShares (fun p => x p 0) 1 1 rfl tape).map
    fun p shares2 => x p 0 + shares2
  convert hopen using 1
  · rfl
  · funext p
    fin_cases p
    · rfl
    · exact add_comm (x 0 0) (x 1 0)

/-- The triple components a tape holds next. -/
abbrev nextOf (tape : Fin 2 → Source → ℕ → BitVec w) (n : ℕ) (s : Source) (p : Fin 2) : Vec w n :=
  fun i => tape p s i

section Product

variable {add minus mul : Vec w n → Vec w n → Vec w n}
  {open' : {m : ℕ} → Vec w m → Vec w m → Vec w m}
  {uncheckedOpen : {m : ℕ} → Fin 2 → EVec scheme w m → Program w (Vec w m)}

/-- Both variants leave the same shares. -/
theorem runs_beaverProduct
    (hopen : ∀ {m : ℕ} (x : scheme.Shares (Vec w m)) (tape : Fin 2 → Source → ℕ → BitVec w),
      Runs (fun p => uncheckedOpen p (x p)) tape (fun _ => open' (x 0 0) (x 1 0)) tape)
    (hadd : ∀ u v : Vec w n, open' u v = add u v)
    (happend : ∀ u v u' v' : Vec w n,
      open' (Fin.append u v) (Fin.append u' v') = Fin.append (add u u') (add v v'))
    (stacked : Bool) (x y : scheme.Shares (Vec w n)) (tape : Fin 2 → Source → ℕ → BitVec w) :
    Runs (fun p => beaverProduct add minus mul uncheckedOpen stacked p (x p) (y p)) tape
      (fun p r => add (minus
        (mul (y p r) (add (add (x 0 0) (nextOf tape n .a 0)) (add (x 1 0) (nextOf tape n .a 1))))
        (mul (nextOf tape n .a p)
          (add (add (y 0 0) (nextOf tape n .b 0)) (add (y 1 0) (nextOf tape n .b 1)))))
        (nextOf tape n .c p))
      (fun p s i => tape p s (n + i)) := by
  apply (runs_getNext tape).bind
  cases stacked with
  | false =>
      simp only [← hadd _ (add _ _)]
      exact (hopen (fun p r => add (x p r) (nextOf tape n .a p)) _).bind
        ((hopen (fun p r => add (y p r) (nextOf tape n .b p)) _).bind (Runs.pure _ _))
  | true =>
      let finish (p : Fin 2) (opened : Vec w (n + n)) : EVec scheme w n := fun r =>
        add (minus (mul (y p r) fun i => opened (Fin.castAdd n i))
          (mul (nextOf tape n .a p) fun i => opened (Fin.natAdd n i))) (nextOf tape n .c p)
      have hboth := (hopen (fun p (_ : Fin 1) => Fin.append (add (x p 0) (nextOf tape n .a p))
        (add (y p 0) (nextOf tape n .b p))) (fun p s i => tape p s (n + i))).map finish
      convert hboth using 1
      · rfl
      · simp only [finish, happend, Fin.append_left, Fin.append_right]

end Product

theorem append_xor (u v u' v' : Vec w n) :
    Fin.append u v ^^^ Fin.append u' v' = Fin.append (u ^^^ u') (v ^^^ v') := by
  ext i
  refine Fin.addCases (fun j => ?_) (fun j => ?_) i
  · simp only [Vec.xor_apply, Fin.append_left]
  · simp only [Vec.xor_apply, Fin.append_right]

theorem append_add (u v u' v' : Vec w n) :
    Fin.append u v + Fin.append u' v' = Fin.append (u + u') (v + v') := by
  ext i
  refine Fin.addCases (fun j => ?_) (fun j => ?_) i
  · simp only [Pi.add_apply, Fin.append_left]
  · simp only [Pi.add_apply, Fin.append_right]

theorem andB_eq (stacked : Bool) (p : Fin 2) (x y : EVec scheme w n) :
    andB stacked p x y =
      beaverProduct (· ^^^ ·) (· ^^^ ·) (· &&& ·) uncheckedOpenB stacked p x y := by
  cases stacked <;> rfl

theorem runs_andB (stacked : Bool) (x y : scheme.Shares (Vec w n))
    (tape : Fin 2 → Source → ℕ → BitVec w) :
    Runs (fun p => andB stacked p (x p) (y p)) tape
      (fun p r => (y p r &&& ((x 0 0 ^^^ nextOf tape n .a 0) ^^^ (x 1 0 ^^^ nextOf tape n .a 1))) ^^^
        (nextOf tape n .a p &&& ((y 0 0 ^^^ nextOf tape n .b 0) ^^^
          (y 1 0 ^^^ nextOf tape n .b 1))) ^^^ nextOf tape n .c p)
      (fun p s i => tape p s (n + i)) := by
  simp only [andB_eq]
  exact runs_beaverProduct runs_uncheckedOpenB (fun _ _ => rfl) append_xor stacked x y tape

theorem runs_multiplyA (stacked : Bool) (x y : scheme.Shares (Vec w n))
    (tape : Fin 2 → Source → ℕ → BitVec w) :
    Runs (fun p => multiplyA stacked p (x p) (y p)) tape
      (fun p r => y p r * ((x 0 0 + nextOf tape n .a 0) + (x 1 0 + nextOf tape n .a 1)) -
        nextOf tape n .a p * ((y 0 0 + nextOf tape n .b 0) + (y 1 0 + nextOf tape n .b 1)) +
          nextOf tape n .c p)
      (fun p s i => tape p s (n + i)) :=
  runs_beaverProduct runs_uncheckedOpenA (fun _ _ => rfl) append_add stacked x y tape

theorem beaver_identity (x y a b : BitVec w) :
    (y &&& (x ^^^ a)) ^^^ (a &&& (y ^^^ b)) ^^^ (a &&& b) = x &&& y := by
  ext i hi
  simp only [BitVec.getElem_xor, BitVec.getElem_and]
  cases x[i] <;> cases y[i] <;> cases a[i] <;> cases b[i] <;> rfl

theorem andB_computes (stacked : Bool) {x y : scheme.Shares (Vec w n)} {a b : Vec w n}
    (hx : OpensB x a) (hy : OpensB y b) :
    Computes Correlated (fun p => andB stacked p (x p) (y p)) fun z : scheme.Shares (Vec w n) =>
      OpensB z (a &&& b) := by
  refine Computes.of_runs fun tape hcorr => ⟨_, _, runs_andB stacked x y tape, ?_, ?_⟩
  · intro i
    exact hcorr (n + i)
  · replace hx := opens_iff.mp hx
    replace hy := opens_iff.mp hy
    apply opens_iff.mpr
    ext i
    have hxi := congrFun hx i
    have hyi := congrFun hy i
    have hA : (x 0 0 i ^^^ tape 0 .a i) ^^^ (x 1 0 i ^^^ tape 1 .a i) =
        a i ^^^ (tape 0 .a i ^^^ tape 1 .a i) := by
      rw [← hxi, Vec.xor_apply]
      ac_rfl
    have hB : (y 0 0 i ^^^ tape 0 .b i) ^^^ (y 1 0 i ^^^ tape 1 .b i) =
        b i ^^^ (tape 0 .b i ^^^ tape 1 .b i) := by
      rw [← hyi, Vec.xor_apply]
      ac_rfl
    rw [Vec.and_apply, ← beaver_identity (a i) (b i) (tape 0 .a i ^^^ tape 1 .a i)
      (tape 0 .b i ^^^ tape 1 .b i), ← hcorr i]
    conv_rhs => rw [← hA, ← hB, ← hyi]
    simp only [Vec.xor_apply, Vec.and_apply, xor_and_distrib]
    ac_rfl

theorem notB_opens {x : scheme.Shares (Vec w n)} {a : Vec w n} (hx : OpensB x a) :
    OpensB (fun p => notB p (x p)) (~~~ a) := by
  apply opens_iff.mpr
  funext i
  rw [← opens_iff.mp hx]
  ext j hj
  simp [notB]

end CryptDough.Beaver2PC

namespace CryptDough

/-- Beaver's protocol, opening the masked operands of an AND together or one after the other. -/
abbrev beaver2PC (stacked : Bool) (w : ℕ) : Protocol w where
  scheme := Beaver2PC.scheme
  Source := Beaver2PC.Source
  correlated := Beaver2PC.Correlated
  andB := Beaver2PC.andB stacked
  notB := Beaver2PC.notB
  notB1 := Beaver2PC.notB1
  correlated_zero := by intro i; simp
  andB_computes := Beaver2PC.andB_computes stacked
  notB_opens := Beaver2PC.notB_opens

end CryptDough
