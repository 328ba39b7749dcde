import CryptDough.Protocol
import Mathlib.Tactic.FinCases
import Mathlib.Tactic.Ring

/-! Three parties with replicated shares: party `p` keeps the parts `p` and `p + 1`. Products are
computed from the six cross terms the parties can form locally, rerandomised with shares of zero. -/

namespace CryptDough.Replicated3PC

open Process Sharing Communicator

abbrev scheme : Scheme where
  last := 2
  rep := 1
  held := fun p r => p + r.castLE (by decide)
  owner := fun p => p
  held_owner := fun _ => by simp

/-- The tapes of a party: shares of zero from the zero sharing generator, the generator shared with
the party at a relative rank, and the one all parties share. -/
inductive Source
  | zeroArithmetic
  | zeroBinary
  | common (relativeRank : Fin 3)
  | commonAll
deriving DecidableEq

variable {w n : ℕ}

structure Correlated (tape : Fin 3 → Source → ℕ → BitVec w) : Prop where
  zeroArithmetic : ∀ i, tape 0 .zeroArithmetic i + tape 1 .zeroArithmetic i +
    tape 2 .zeroArithmetic i = 0
  zeroBinary : ∀ i, tape 0 .zeroBinary i ^^^ tape 1 .zeroBinary i ^^^ tape 2 .zeroBinary i = 0
  common : ∀ p i, tape p (.common 1) i = tape (p + 1) (.common (-1)) i
  commonAll : ∀ p q i, tape p .commonAll i = tape q .commonAll i

abbrev Program (w : ℕ) (β : Type) := Proc (Fin 3) Source (BitVec w) β

def getNext (source : Source) (n : ℕ) : Program w (Vec w n) := .draw source n .done

/-- The multiplication for numbers of precision zero, which need no truncation. -/
def multiplyA (partyID : Fin 3) (x y : EVec scheme w n) : Program w (EVec scheme w n) := do
  let zero ← getNext .zeroArithmetic n
  let share := zero + x 0 * y 0 + x 0 * y 1 + x 1 * y 0
  let remote ← exchangeShares partyID share 2 1
  pure ![share, remote]

def andB (partyID : Fin 3) (x y : EVec scheme w n) : Program w (EVec scheme w n) := do
  let zero ← getNext .zeroBinary n
  let share := zero ^^^ (x 0 &&& y 0) ^^^ (x 0 &&& y 1) ^^^ (x 1 &&& y 0)
  let remote ← exchangeShares partyID share 2 1
  pure ![share, remote]

/-- There are as many shares of zero as full chunks: behind them the sum would read past their end. -/
def dotProductA (partyID : Fin 3) (x y : EVec scheme w n) (aggSize : ℕ) :
    Option (Program w (EVec scheme w (Vec.chunkCount n aggSize))) :=
  if h : 0 < aggSize ∧ Vec.chunkCount n aggSize ≤ n / aggSize then
    some do
      let zero ← getNext .zeroArithmetic (n / aggSize)
      let share := Vec.dotProductChunks aggSize (x 0) (y 0) + Vec.dotProductChunks aggSize (x 0) (y 1) +
        Vec.dotProductChunks aggSize (x 1) (y 0) + fun c => zero (c.castLE h.2)
      let remote ← exchangeShares partyID share 2 1
      pure ![share, remote]
  else
    none

def notB (_partyID : Fin 3) (x : EVec scheme w n) : EVec scheme w n := fun r => ~~~ x r

def notB1 (_partyID : Fin 3) (x : EVec scheme w n) : EVec scheme w n :=
  fun r => Vec.logicalNot (Vec.mask (x r) 1)

/-- Every party keeps its own part and takes over the part of its successor. -/
theorem deal_eq {D : Type} (z : Fin 3 → D) :
    (Scheme.deal z : scheme.Shares D) = fun p => ![z p, z (p + 1)] := by
  ext p r
  fin_cases r
  · exact congrArg z (add_zero p)
  · rfl

theorem reconstruct_deal {D : Type} (op : D → D → D) (z : Fin 3 → D) :
    Scheme.reconstruct op (Scheme.deal z : scheme.Shares D) = combine op z := by
  rw [deal_eq]
  rfl

theorem consistent_iff {D : Type} {s : scheme.Shares D} :
    Scheme.Consistent s ↔ ∀ p, s p 1 = s (p + 1) 0 := by
  constructor
  · intro hs p
    exact hs.copies (by fin_cases p <;> rfl)
  · intro hs
    refine ⟨fun p => s p 0, ?_⟩
    rw [deal_eq]
    ext p r
    fin_cases r
    · rfl
    · exact hs p

section Products

variable {D E : Type} {op : D → D → D} {op' : E → E → E} [Std.Commutative op'] [Std.Associative op']
  (mul : D → D → E) (hl : ∀ a b c, mul (op a b) c = op' (mul a c) (mul b c))
  (hr : ∀ a b c, mul a (op b c) = op' (mul a b) (mul a c)) {e : E} (he : ∀ a, op' e a = a)

include hl hr he in
theorem nine_products (x₀ x₁ x₂ y₀ y₁ y₂ : D) (r₀ r₁ r₂ : E) (hzero : op' (op' r₀ r₁) r₂ = e) :
    op' (op' (op' (op' (op' r₀ (mul x₀ y₀)) (mul x₀ y₁)) (mul x₁ y₀))
      (op' (op' (op' r₁ (mul x₁ y₁)) (mul x₁ y₂)) (mul x₂ y₁)))
      (op' (op' (op' r₂ (mul x₂ y₂)) (mul x₂ y₀)) (mul x₀ y₂)) =
    mul (op (op x₀ x₁) x₂) (op (op y₀ y₁) y₂) := by
  simp only [hl, hr]
  calc _ = op' (op' (op' r₀ r₁) r₂) (op' (op' (op' (op' (mul x₀ y₀) (mul x₀ y₁)) (mul x₀ y₂))
        (op' (op' (mul x₁ y₀) (mul x₁ y₁)) (mul x₁ y₂)))
        (op' (op' (mul x₂ y₀) (mul x₂ y₁)) (mul x₂ y₂))) := by ac_rfl
    _ = _ := by
        rw [hzero, he]

include hl hr he in
/-- The nine products of the parts are covered by the cross terms of the three parties, whatever the
shares of zero are that rerandomise them. -/
theorem cross_terms {x y : scheme.Shares D} {a b : D} (hx : Scheme.Opens op x a)
    (hy : Scheme.Opens op y b) (r : Fin 3 → E) (hzero : op' (op' (r 0) (r 1)) (r 2) = e) :
    combine op' (fun p : Fin 3 => op' (op' (op' (r p) (mul (x p 0) (y p 0)))
      (mul (x p 0) (y p 1))) (mul (x p 1) (y p 0))) = mul a b := by
  have hx' := consistent_iff.mp hx.1
  have hy' := consistent_iff.mp hy.1
  have hnine := nine_products mul hl hr he (x 0 0) (x 1 0) (x 2 0) (y 0 0) (y 1 0) (y 2 0)
    (r 0) (r 1) (r 2) hzero
  rw [combine_three, hx' 0, hx' 1, hx' 2, hy' 0, hy' 1, hy' 2, ← hx.2, ← hy.2]
  exact hnine

end Products

theorem runs_getNext (source : Source) (tape : Fin 3 → Source → ℕ → BitVec w) :
    Runs (fun _ : Fin 3 => getNext source n) tape (fun p (i : Fin n) => tape p source i)
      (fun p => advance (tape p) source n) :=
  Runs.settle (Runs.pure _ _)

theorem advance_apply {tape : Source → ℕ → BitVec w} {s s' : Source} {i : ℕ} :
    advance tape s n s' i = if s' = s then tape s (n + i) else tape s' i := by
  by_cases hs : s' = s
  · subst hs
    simp [advance]
  · simp [advance, hs]

theorem Correlated.advance_zeroArithmetic {tape : Fin 3 → Source → ℕ → BitVec w}
    (hcorr : Correlated tape) (n : ℕ) :
    Correlated fun p => advance (tape p) .zeroArithmetic n where
  zeroArithmetic := fun i => by simpa [advance_apply] using hcorr.zeroArithmetic (n + i)
  zeroBinary := fun i => by simpa [advance_apply] using hcorr.zeroBinary i
  common := fun p i => by simpa [advance_apply] using hcorr.common p i
  commonAll := fun p q i => by simpa [advance_apply] using hcorr.commonAll p q i

theorem Correlated.advance_zeroBinary {tape : Fin 3 → Source → ℕ → BitVec w}
    (hcorr : Correlated tape) (n : ℕ) : Correlated fun p => advance (tape p) .zeroBinary n where
  zeroArithmetic := fun i => by simpa [advance_apply] using hcorr.zeroArithmetic i
  zeroBinary := fun i => by simpa [advance_apply] using hcorr.zeroBinary (n + i)
  common := fun p i => by simpa [advance_apply] using hcorr.common p i
  commonAll := fun p q i => by simpa [advance_apply] using hcorr.commonAll p q i

/-- Drawing a share of zero, computing a share from it and passing it on deals the shares. -/
theorem runs_reshare {k m : ℕ} (source : Source) (share : Fin 3 → Vec w k → Vec w m)
    (tape : Fin 3 → Source → ℕ → BitVec w) :
    Runs (fun p => do
        let zero ← getNext source k
        let remote ← exchangeShares p (share p zero) 2 1
        pure ![share p zero, remote]) tape
      (Scheme.deal (fun p => share p fun i => tape p source i) : scheme.Shares (Vec w m))
      (fun p => advance (tape p) source k) := by
  rw [deal_eq]
  apply (runs_getNext source tape).bind
  exact (runs_exchangeShares (fun p => share p fun i => tape p source i) 2 1 rfl _).bind
    (Runs.pure _ _)

theorem computes_multiplyA {x y : scheme.Shares (Vec w n)} {a b : Vec w n} (hx : OpensA x a)
    (hy : OpensA y b) :
    Computes Correlated (fun p => multiplyA p (x p) (y p)) fun z : scheme.Shares (Vec w n) =>
      OpensA z (a * b) := by
  refine Computes.of_runs fun tape hcorr => ⟨_, _,
    runs_reshare .zeroArithmetic (fun p zero =>
      zero + x p 0 * y p 0 + x p 0 * y p 1 + x p 1 * y p 0) tape,
    hcorr.advance_zeroArithmetic n, ⟨_, rfl⟩, ?_⟩
  rw [reconstruct_deal]
  exact cross_terms (· * ·) add_mul mul_add zero_add hx hy
    (fun p i => tape p .zeroArithmetic i) (funext fun i => hcorr.zeroArithmetic i)

theorem andB_computes {x y : scheme.Shares (Vec w n)} {a b : Vec w n} (hx : OpensB x a)
    (hy : OpensB y b) :
    Computes Correlated (fun p => andB p (x p) (y p)) fun z : scheme.Shares (Vec w n) =>
      OpensB z (a &&& b) := by
  refine Computes.of_runs fun tape hcorr => ⟨_, _,
    runs_reshare .zeroBinary (fun p zero =>
      zero ^^^ (x p 0 &&& y p 0) ^^^ (x p 0 &&& y p 1) ^^^ (x p 1 &&& y p 0)) tape,
    hcorr.advance_zeroBinary n, ⟨_, rfl⟩, ?_⟩
  rw [reconstruct_deal]
  exact cross_terms (· &&& ·) Vec.xor_and Vec.and_xor
    (fun v => funext fun i => BitVec.zero_xor) hx hy
    (fun p i => tape p .zeroBinary i) (funext fun i => hcorr.zeroBinary i)

theorem computes_dotProductA {x y : scheme.Shares (Vec w n)} {a b : Vec w n} {aggSize : ℕ}
    (hpos : 0 < aggSize) (hdvd : aggSize ∣ n) (hx : OpensA x a) (hy : OpensA y b) :
    ∃ programs, (∀ p, dotProductA p (x p) (y p) aggSize = some (programs p)) ∧
      Computes Correlated programs fun z : scheme.Shares (Vec w (Vec.chunkCount n aggSize)) =>
        OpensA z (Vec.dotProductChunks aggSize a b) := by
  have hfits : 0 < aggSize ∧ Vec.chunkCount n aggSize ≤ n / aggSize :=
    ⟨hpos, (Vec.chunkCount_le_iff hpos).mpr hdvd⟩
  refine ⟨_, fun p => dif_pos hfits, Computes.of_runs fun tape hcorr => ⟨_, _,
    runs_reshare .zeroArithmetic (fun p zero =>
      Vec.dotProductChunks aggSize (x p 0) (y p 0) + Vec.dotProductChunks aggSize (x p 0) (y p 1) +
        Vec.dotProductChunks aggSize (x p 1) (y p 0) + fun c => zero (c.castLE hfits.2)) tape,
    hcorr.advance_zeroArithmetic _, ⟨_, rfl⟩, ?_⟩⟩
  have hcross := cross_terms (Vec.dotProductChunks aggSize)
    (fun u u' v => Vec.selectedProducts_add_left _ u u' v)
    (fun u v v' => Vec.selectedProducts_add_right _ u v v') zero_add hx hy
    (fun p c => tape p .zeroArithmetic c) (funext fun c => hcorr.zeroArithmetic c)
  rw [reconstruct_deal, ← hcross]
  refine congrArg (combine (· + ·)) (funext fun p => ?_)
  change _ + (fun c : Fin _ => tape p .zeroArithmetic c) = _
  ac_rfl

theorem dotProductA_eq_none {x y : EVec scheme w n} {aggSize : ℕ}
    (hcut : ¬ (0 < aggSize ∧ aggSize ∣ n)) (p : Fin 3) : dotProductA p x y aggSize = none :=
  dif_neg fun hfits => hcut ⟨hfits.1, (Vec.chunkCount_le_iff hfits.1).mp hfits.2⟩

theorem notB_opens {x : scheme.Shares (Vec w n)} {a : Vec w n} (hx : OpensB x a) :
    OpensB (fun p => notB p (x p)) (~~~ a) := by
  refine ⟨hx.1.map (~~~ ·), ?_⟩
  rw [← hx.2]
  funext i
  ext j hj
  simp only [Scheme.reconstruct, combine_three, notB, Vec.xor_apply, Vec.not_apply,
    BitVec.getElem_xor, BitVec.getElem_not]
  cases (x 0 0 i)[j] <;> cases (x 1 0 i)[j] <;> cases (x 2 0 i)[j] <;> rfl

end CryptDough.Replicated3PC

namespace CryptDough

abbrev replicated3PC (w : ℕ) : Protocol w where
  scheme := Replicated3PC.scheme
  Source := Replicated3PC.Source
  correlated := Replicated3PC.Correlated
  andB := Replicated3PC.andB
  notB := Replicated3PC.notB
  notB1 := Replicated3PC.notB1
  correlated_zero := ⟨by simp, by simp, by simp, by simp⟩
  andB_computes := Replicated3PC.andB_computes
  notB_opens := Replicated3PC.notB_opens

end CryptDough
