import CryptDough.SPDZ2kAuthentication

/-! Programs over authenticated shares: what every operation establishes, and the check after an
arbitrary sequence of them. -/

namespace CryptDough.SPDZ2k

open Execution

variable {parties k s n : ℕ}

section Masks

theorem toData_fromData (x : Vec k n) : toData (fromData s x) = x := by
  funext i
  apply BitVec.eq_of_getLsbD_eq
  intro j hj
  have hlt : j < k + s := by omega
  rw [toData, BitVec.getLsbD_setWidth, fromData, BitVec.getLsbD_signExtend]
  simp [hj, hlt]

theorem toData_zero : toData (0 : Vec (k + s) n) = 0 := by
  ext i
  simp [toData]

theorem toData_add (x y : Vec (k + s) n) : toData (x + y) = toData x + toData y :=
  funext fun i => BitVec.setWidth_add (x i) (y i) (Nat.le_add_right k s)

theorem toData_sub (x y : Vec (k + s) n) : toData (x - y) = toData x - toData y := by
  rw [eq_sub_iff_add_eq, ← toData_add, sub_add_cancel]

theorem toData_mul (x y : Vec (k + s) n) : toData (x * y) = toData x * toData y :=
  funext fun i => BitVec.setWidth_mul (x i) (y i) (Nat.le_add_right k s)

/-- A shifted mask only reaches the bits that the conversion to the plaintext type drops. -/
theorem toData_shifted (r : Vec (k + s) n) :
    toData (r * Vec.replicate n (BitVec.twoPow (k + s) k)) = 0 := by
  funext i
  apply BitVec.eq_of_getLsbD_eq
  intro j hj
  simp [toData, hj]

variable {Digest : Type} {S : Setup parties k s Digest}

theorem maskedShares_eq (addMask : Bool) (shares : Sharing parties (k + s) n) (call : ℕ) :
    maskedShares S addMask shares call = if addMask then
      shares + (fun p c => (S.authRandom call n).shares p c * Vec.replicate n (BitVec.twoPow (k + s) k))
    else shares := by
  cases addMask with
  | false => rfl
  | true =>
      funext p c i
      exact congrArg (shares p c i + ·) (BitVec.shiftLeft_eq_mul_twoPow _ _)

theorem authenticated_maskedShares {shares : Sharing parties (k + s) n}
    (hshares : Authenticated S.alpha shares) (addMask : Bool) (call : ℕ) :
    Authenticated S.alpha (maskedShares S addMask shares call) := by
  rw [maskedShares_eq]
  cases addMask with
  | false => exact hshares
  | true => exact hshares.add ((S.authRandom call n).authenticated.mul _)

theorem toData_opened_maskedShares (addMask : Bool) (shares : Sharing parties (k + s) n) (call : ℕ) :
    toData (opened (maskedShares S addMask shares call)) = toData (opened shares) := by
  rw [maskedShares_eq]
  cases addMask with
  | false => rfl
  | true => rw [if_pos rfl, opened_add, opened_mul, toData_add, toData_shifted, add_zero]

end Masks

variable {Digest : Type} {S : Setup parties k s Digest}

/-- From every accounted state `op` establishes `post`; it stops only if an error hits an opening. -/
abbrev Establishes {α : Type} (S : Setup parties k s Digest) (op : Execution (Joint parties (k + s)) α)
    (post : α → Prop) : Prop :=
  Meets (Accounted S) (¬ S.Honest) op post

/-- The shares are authenticated and, without errors, open to `v`. -/
def Shares (S : Setup parties k s Digest) (v : Vec (k + s) n) (x : Sharing parties (k + s) n) : Prop :=
  Authenticated S.alpha x ∧ (S.Honest → opened x = v)

theorem Shares.congr {v v' : Vec (k + s) n} {x : Sharing parties (k + s) n} (hx : Shares S v x)
    (hv : S.Honest → v = v') : Shares S v' x :=
  ⟨hx.1, fun honest => (hx.2 honest).trans (hv honest)⟩

theorem partialOpen_establishes {x : Sharing parties (k + s) n} (hx : Authenticated S.alpha x)
    (addMask : Bool) : Establishes S (partialOpen S x addMask) fun v =>
      S.Honest → toData v = toData (opened x) ∧ (addMask = false → v = opened x) := by
  apply Meets.act
  · rintro J ⟨batches, pending, haccount⟩
    let e : Entry parties (k + s) :=
      { size := n
        total := opened (maskedShares S addMask x J.authRandoms) + S.error J.openings.length n
        mac := fun p => maskedShares S addMask x J.authRandoms p 1
        error := S.error J.openings.length n }
    have hsound : e.Sound S.alpha := by
      rw [Entry.Sound, add_sub_cancel_right]
      exact authenticated_maskedShares hx addMask _
    let J' : Joint parties (k + s) :=
      { J with
        party := fun p => (J.party p).addToAggregationBackLog ![e.total, e.mac p]
        authRandoms := if addMask then J.authRandoms + 1 else J.authRandoms
        openings := J.openings ++ [n] }
    exact (haccount.log e hsound rfl J' (fun _ => rfl) rfl).optional
  · intro J _ honest
    change toData (opened (maskedShares S addMask x J.authRandoms) + S.error J.openings.length n) = _ ∧
      (_ → opened (maskedShares S addMask x J.authRandoms) + S.error J.openings.length n = _)
    rw [honest, add_zero]
    refine ⟨toData_opened_maskedShares addMask x _, ?_⟩
    rintro rfl
    rfl

theorem uncheckedOpenA_establishes {x : Sharing parties (k + s) n} (hx : Authenticated S.alpha x) :
    Establishes S (uncheckedOpenA S x) fun v => S.Honest → v = toData (opened x) := by
  apply (partialOpen_establishes hx true).bind
  intro v hv
  exact Meets.pure fun honest => (hv honest).1

theorem nextTriple_establishes (n : ℕ) : Establishes S (nextTriple S n) fun _ => True :=
  Meets.act (fun _ haccounted => haccounted.frame rfl rfl) fun _ _ => trivial

/-- Beaver's rewriting, at the parties' shares. -/
theorem shares_beaver {x y : Sharing parties (k + s) n} (hy : Authenticated S.alpha y)
    (t : AuthTriple S.alpha n) {A B : Vec (k + s) n}
    (hA : S.Honest → A = opened (x + t.a)) (hB : S.Honest → B = opened (y + t.b)) :
    Shares S (opened x * opened y) fun p c => y p c * A - t.a p c * B + t.c p c := by
  have hz : (fun p c => y p c * A - t.a p c * B + t.c p c) =
      (fun p c => y p c * A : Sharing parties (k + s) n) - (fun p c => t.a p c * B) + t.c := rfl
  constructor
  · rw [hz]
    exact ((hy.mul A).sub (t.a_authenticated.mul B)).add t.c_authenticated
  · intro honest
    rw [hz, opened_add, opened_sub, opened_mul, opened_mul, t.product, hA honest, hB honest,
      opened_add, opened_add]
    ring

theorem multiplyA_establishes {x y : Sharing parties (k + s) n} (hx : Authenticated S.alpha x)
    (hy : Authenticated S.alpha y) :
    Establishes S (multiplyA S x y) (Shares S (opened x * opened y)) := by
  apply (nextTriple_establishes n).bind
  intro t _
  apply (partialOpen_establishes (hx.add t.a_authenticated) false).bind
  intro A hA
  apply (partialOpen_establishes (hy.add t.b_authenticated) false).bind
  intro B hB
  apply Meets.act
  · rintro J ⟨batches, pending, haccount⟩
    exact haccount.optional
  · intro J _
    exact shares_beaver hy t (fun honest => (hA honest).2 rfl) fun honest => (hB honest).2 rfl

/-- The results of `orB1` and `xorB1` are sums of the operands and a multiple of their product. -/
theorem sum_of_product {x y xy : Sharing parties (k + s) n} (hx : Authenticated S.alpha x)
    (hy : Authenticated S.alpha y) (hxy : Shares S (opened x * opened y) xy) (v : Vec (k + s) n) :
    Shares S (opened x + opened y - opened x * opened y * v) fun p =>
      ![x p 0 + y p 0 - xy p 0 * v, x p 1 + y p 1 - xy p 1 * v] := by
  have hsum : (fun p => ![x p 0 + y p 0 - xy p 0 * v, x p 1 + y p 1 - xy p 1 * v]) =
      (x + y - fun p c => xy p c * v : Sharing parties (k + s) n) := by
    ext p c
    match c with
    | 0 => rfl
    | 1 => rfl
  rw [hsum]
  constructor
  · exact (hx.add hy).sub (hxy.1.mul v)
  · intro honest
    rw [opened_sub, opened_add, opened_mul, hxy.2 honest]

theorem orB1_establishes {x y : Sharing parties (k + s) n} (hx : Authenticated S.alpha x)
    (hy : Authenticated S.alpha y) :
    Establishes S (orB1 S x y) (Shares S (opened x + opened y - opened x * opened y)) := by
  apply (multiplyA_establishes hx hy).bind
  intro xy hxy
  apply Meets.pure
  simpa only [mul_one] using sum_of_product hx hy hxy 1

theorem xorB1_establishes {x y : Sharing parties (k + s) n} (hx : Authenticated S.alpha x)
    (hy : Authenticated S.alpha y) :
    Establishes S (xorB1 S x y) (Shares S (opened x + opened y - opened x * opened y * 2)) := by
  apply (multiplyA_establishes hx hy).bind
  intro xy hxy
  exact Meets.pure (sum_of_product hx hy hxy 2)

theorem shares_multiplyPublicA {x : Sharing parties (k + s) n} (hx : Authenticated S.alpha x)
    (val : Vec k n) : Shares S (opened x * fromData s val) (multiplyPublicA x val) :=
  ⟨hx.mul _, fun _ => opened_mul x _⟩

theorem shares_publicShare [NeZero parties] (x : Vec k n) :
    Shares S (fromData s x) (publicShare S x) :=
  ⟨authenticated_public _, fun _ => opened_public _⟩

theorem notB1_eq [NeZero parties] (x : Sharing parties (k + s) n) :
    notB1 S x = (fun p => ![if p = 0 then 1 else 0, S.alpha p • (1 : Vec (k + s) n)]) - x := by
  funext p c
  match c with
  | 0 =>
      by_cases hp : p = 0
      · simp [notB1, hp, neg_add_eq_sub]
      · simp [notB1, hp]
  | 1 =>
      funext i
      simp [notB1, neg_add_eq_sub]

theorem shares_notB1 [NeZero parties] {x : Sharing parties (k + s) n} (hx : Authenticated S.alpha x) :
    Shares S (1 - opened x) (notB1 S x) := by
  rw [notB1_eq]
  exact ⟨(authenticated_public 1).sub hx, fun _ => by rw [opened_sub, opened_public]⟩

/-- The upper bits of what is shared are those of the mask. -/
theorem secretShareAInternal_establishes (data : Vec k n) (dataParty : Fin parties) :
    Establishes S (secretShareAInternal S data dataParty) fun x =>
      Authenticated S.alpha x ∧ toData (opened x) = data := by
  apply Meets.act
  · intro J haccounted
    exact haccounted.frame rfl rfl
  · intro J _
    let generated := S.authMask J.authMasks n dataParty
    let dataShifted := fromData s (data - toData generated.mask)
    have hsum : (fun p => ![if p = dataParty then generated.shares p 0 + dataShifted
          else generated.shares p 0, generated.shares p 1 + S.alpha p • dataShifted]) =
        generated.shares + fun p => ![if p = dataParty then dataShifted else 0,
          S.alpha p • dataShifted] := by
      ext p c
      match c with
      | 0 =>
          by_cases hp : p = dataParty
          · simp [hp]
          · simp [hp]
      | 1 => rfl
    have hopened : opened (fun p => ![if p = dataParty then dataShifted else 0,
        S.alpha p • dataShifted]) = dataShifted := by
      simp [opened]
    change Authenticated S.alpha (fun p => ![if p = dataParty then generated.shares p 0 + dataShifted
      else generated.shares p 0, generated.shares p 1 + S.alpha p • dataShifted]) ∧ toData (opened
        fun p => ![if p = dataParty then generated.shares p 0 + dataShifted
          else generated.shares p 0, generated.shares p 1 + S.alpha p • dataShifted]) = data
    rw [hsum]
    constructor
    · apply generated.authenticated.add
      rw [Authenticated, hopened]
      exact Finset.sum_smul.symm
    · rw [opened_add, hopened, generated.opens, toData_add, toData_fromData]
      exact add_sub_cancel _ _

theorem Accounted.processed {J : Joint parties (k + s)} (haccounted : Accounted S J) :
    ∃ batches, Account S (J.processAggregationBackLog S) batches [] := by
  obtain ⟨batches, pending, haccount⟩ := haccounted
  exact ⟨_, haccount.processed⟩

section Check

variable [DecidableEq Digest]

/-- The commitments always match, and every party adds up all the aggregates. -/
theorem outcome_finalizeBatchCheck (J : Joint parties (k + s)) :
    outcome (finalizeBatchCheck S) J =
      (some fun _ => decide (∑ p, ((J.processAggregationBackLog S).party p).aggregatedDiff = 0),
        { J.processAggregationBackLog S with localKeys := J.localKeys + 1 }) := by
  refine Prod.ext (congrArg some (funext fun p => ?_)) rfl
  have htotal : ((J.processAggregationBackLog S).party p).aggregatedDiff +
      ∑ q with q ≠ p, ((J.processAggregationBackLog S).party q).aggregatedDiff =
        ∑ q, ((J.processAggregationBackLog S).party q).aggregatedDiff := by
    rw [Finset.filter_ne']
    exact Finset.add_sum_erase _ (fun q => ((J.processAggregationBackLog S).party q).aggregatedDiff)
      (Finset.mem_univ p)
  simp only [Fin.cons_zero, htotal, implies_true, true_and]

theorem maliciousCheckInternal_establishes :
    Establishes S (maliciousCheckInternal S) fun ok => S.Honest → ∀ p, ok p = true := by
  constructor
  · intro J haccounted
    obtain ⟨batches, haccount⟩ := haccounted.processed
    rw [maliciousCheckInternal, outcome_finalizeBatchCheck]
    exact ⟨batches, [], haccount.frame rfl rfl⟩
  · intro J haccounted ok hok honest p
    obtain ⟨batches, haccount⟩ := haccounted.processed
    rw [maliciousCheckInternal, outcome_finalizeBatchCheck] at hok
    obtain rfl := Option.some.inj hok
    have hflatten : batches.flatten = S.opened (J.processAggregationBackLog S).openings := by
      rw [← haccount.openings, List.map_nil, List.append_nil]
    rw [decide_eq_true_eq, haccount.diff, honest.batchErrors hflatten, mul_zero]
  · intro J _ hnone
    rw [maliciousCheckInternal, outcome_finalizeBatchCheck] at hnone
    exact nomatch hnone

theorem maliciousCheck_establishes : Establishes S (maliciousCheck S) fun _ => True := by
  apply maliciousCheckInternal_establishes.bind
  intro ok hok
  by_cases hall : ∀ p, ok p = true
  · rw [if_pos hall]
    exact Meets.pure trivial
  · rw [if_neg hall]
    exact Meets.stop fun honest => hall (hok honest)

theorem openSharesA_establishes {x : Sharing parties (k + s) n} (hx : Authenticated S.alpha x) :
    Establishes S (openSharesA S x) fun v => S.Honest → v = toData (opened x) := by
  apply maliciousCheck_establishes.bind
  intro _ _
  apply (uncheckedOpenA_establishes hx).bind
  intro op hop
  apply maliciousCheck_establishes.bind
  intro _ _
  exact Meets.pure hop

end Check

/-- The error of an opening is all that changes the opened plaintext; the masks do not. -/
theorem outcome_uncheckedOpenA (x : Sharing parties (k + s) n) (J : Joint parties (k + s)) :
    (outcome (uncheckedOpenA S x) J).1 =
      some (toData (opened x) + toData (S.error J.openings.length n)) := by
  change some (toData (opened (maskedShares S true x J.authRandoms) +
    S.error J.openings.length n)) = _
  rw [toData_add, toData_opened_maskedShares]

/-- The vectors of the program, by their sizes and numbers. -/
abbrev Env (T : ℕ → Type) := (n : ℕ) → ℕ → T n

def Env.assign {T : ℕ → Type} (env : Env T) (out : ℕ) (v : T n) : Env T :=
  Function.update env n (Function.update (env n) out v)

/-- An operation on vectors of the program; `out` is where the result goes. -/
inductive Command (parties k : ℕ) : Type
  | secretShareA {n : ℕ} (out : ℕ) (data : Vec k n) (dataParty : Fin parties)
  | publicShare {n : ℕ} (out : ℕ) (x : Vec k n)
  | addA (n out x y : ℕ)
  | subA (n out x y : ℕ)
  | multiplyA (n out x y : ℕ)
  | multiplyPublicA {n : ℕ} (out x : ℕ) (val : Vec k n)
  | notB1 (n out x : ℕ)
  | andB1 (n out x y : ℕ)
  | orB1 (n out x y : ℕ)
  | xorB1 (n out x y : ℕ)
  | maliciousCheck

/-- A sequence of operations, in which what is opened decides how it goes on. -/
inductive Program (parties k : ℕ) : Type
  | done
  | step (c : Command parties k) (next : Program parties k)
  | openSharesA {n : ℕ} (x : ℕ) (next : Vec k n → Program parties k)

/-- What an operation computes, with plaintexts embedded by `embed`. -/
def Command.values {bits : ℕ} (embed : ∀ {n}, Vec k n → Vec bits n) (env : Env (Vec bits)) :
    Command parties k → Env (Vec bits)
  | secretShareA out data _ => env.assign out (embed data)
  | publicShare out x => env.assign out (embed x)
  | addA n out x y => env.assign out (env n x + env n y)
  | subA n out x y => env.assign out (env n x - env n y)
  | multiplyA n out x y => env.assign out (env n x * env n y)
  | multiplyPublicA (n := n) out x val => env.assign out (env n x * embed val)
  | notB1 n out x => env.assign out (1 - env n x)
  | andB1 n out x y => env.assign out (env n x * env n y)
  | orB1 n out x y => env.assign out (env n x + env n y - env n x * env n y)
  | xorB1 n out x y => env.assign out (env n x + env n y - env n x * env n y * 2)
  | maliciousCheck => env

/-- What a program computes on plaintexts of `k` bits. -/
def Program.values : Program parties k → Env (Vec k) → Env (Vec k)
  | done, env => env
  | step c next, env => next.values (c.values id env)
  | openSharesA (n := n) x next, env => (next (env n x)).values env

/-- What an operation does to the values modulo `2 ^ (k + s)`: what is shared secretly is the data only
modulo `2 ^ k`. -/
def Command.Shared (env env' : Env (Vec (k + s))) : Command parties k → Prop
  | secretShareA out data _ => ∃ v, toData v = data ∧ env' = env.assign out v
  | c => env' = c.values (fromData s) env

def Program.Shared : Program parties k → Env (Vec (k + s)) → Env (Vec (k + s)) → Prop
  | done, env, env' => env' = env
  | step c next, env, env' => ∃ mid, c.Shared env mid ∧ next.Shared mid env'
  | openSharesA (n := n) x next, env, env' => (next (toData (env n x))).Shared env env'

section Values

variable {env env' : Env (Vec (k + s))}

theorem Env.map_assign {T T' : ℕ → Type} (f : ∀ {n}, T n → T' n) (env : Env T) (out : ℕ) (v : T n) :
    (fun m x => f (env.assign out v m x)) = Env.assign (fun m x => f (env m x)) out (f v) := by
  ext m x
  unfold Env.assign
  by_cases hm : m = n
  · subst hm
    by_cases hx : x = out
    · subst hx
      simp only [Function.update_self]
    · simp only [Function.update_self, Function.update_of_ne hx]
  · simp only [Function.update_of_ne hm]

theorem toData_one : toData (1 : Vec (k + s) n) = 1 := by
  funext i
  apply BitVec.eq_of_toNat_eq
  simp [toData]

theorem toData_two : toData (2 : Vec (k + s) n) = 2 := by
  rw [← one_add_one_eq_two, toData_add, toData_one, one_add_one_eq_two]

theorem Command.Shared.toData_eq {c : Command parties k} (hshared : c.Shared env env') :
    (fun n x => toData (env' n x)) = c.values id fun n x => toData (env n x) := by
  cases c with
  | secretShareA out data dataParty =>
      obtain ⟨v, hv, rfl⟩ := hshared
      exact (Env.map_assign toData env out v).trans (congrArg (Env.assign _ out) hv)
  | maliciousCheck =>
      cases hshared
      rfl
  | _ =>
      cases hshared
      refine (Env.map_assign toData env _ _).trans (congrArg (Env.assign _ _) ?_)
      simp only [toData_add, toData_sub, toData_mul, toData_fromData, toData_one, toData_two, id]

/-- Modulo `2 ^ k` the values are those of the plaintexts. -/
theorem Program.Shared.toData_eq {prog : Program parties k} (hshared : prog.Shared env env') :
    (fun n x => toData (env' n x)) = prog.values fun n x => toData (env n x) := by
  induction prog generalizing env with
  | done => rw [hshared, Program.values]
  | step c next ih =>
      obtain ⟨mid, hc, hnext⟩ := hshared
      rw [ih hnext, hc.toData_eq, Program.values]
  | openSharesA x next ih => exact ih _ hshared

end Values

/-- The values of the shared vectors. -/
def openedEnv (env : Env (Sharing parties (k + s))) : Env (Vec (k + s)) := fun n x => opened (env n x)

/-- All the vectors are authenticated and, without errors, open to `values`. -/
def Represents (S : Setup parties k s Digest) (values : Env (Vec (k + s)) → Prop)
    (env : Env (Sharing parties (k + s))) : Prop :=
  (∀ n x, Authenticated S.alpha (env n x)) ∧ (S.Honest → values (openedEnv env))

section Assign

variable {env : Env (Sharing parties (k + s))} (henv : ∀ n x, Authenticated S.alpha (env n x))
include henv

theorem authenticated_assign {z : Sharing parties (k + s) n} (hz : Authenticated S.alpha z) (out : ℕ) :
    ∀ m x, Authenticated S.alpha (env.assign out z m x) := by
  intro m x
  unfold Env.assign
  by_cases hm : m = n
  · subst hm
    by_cases hx : x = out
    · subst hx
      rwa [Function.update_self, Function.update_self]
    · rw [Function.update_self, Function.update_of_ne hx]
      exact henv m x
  · rw [Function.update_of_ne hm]
    exact henv m x

theorem Shares.assign {z : Sharing parties (k + s) n} {v : Vec (k + s) n} (hz : Shares S v z) (out : ℕ) :
    Represents S (· = (openedEnv env).assign out v) (env.assign out z) := by
  refine ⟨authenticated_assign henv hz.1 out, fun honest => ?_⟩
  rw [← hz.2 honest]
  exact Env.map_assign opened env out z

/-- Assigning the result of an operation. -/
theorem assigned {op : Execution _ (Sharing parties (k + s) n)} {v : Vec (k + s) n}
    (hop : Establishes S op (Shares S v)) (out : ℕ) :
    Establishes S (do return env.assign out (← op))
      (Represents S (· = (openedEnv env).assign out v)) := by
  apply hop.bind
  intro z hz
  exact Meets.pure (hz.assign henv out)

end Assign

variable [NeZero parties] [DecidableEq Digest]

variable (S) in
def Command.run (env : Env (Sharing parties (k + s))) :
    Command parties k → Execution (Joint parties (k + s)) (Env (Sharing parties (k + s)))
  | secretShareA out data dataParty => return env.assign out (← secretShareAInternal S data dataParty)
  | publicShare out x => return env.assign out (SPDZ2k.publicShare S x)
  | addA n out x y => return env.assign out (env n x + env n y)
  | subA n out x y => return env.assign out (env n x - env n y)
  | multiplyA n out x y => return env.assign out (← SPDZ2k.multiplyA S (env n x) (env n y))
  | multiplyPublicA (n := n) out x val => return env.assign out (SPDZ2k.multiplyPublicA (env n x) val)
  | notB1 n out x => return env.assign out (SPDZ2k.notB1 S (env n x))
  | andB1 n out x y => return env.assign out (← SPDZ2k.andB1 S (env n x) (env n y))
  | orB1 n out x y => return env.assign out (← SPDZ2k.orB1 S (env n x) (env n y))
  | xorB1 n out x y => return env.assign out (← SPDZ2k.xorB1 S (env n x) (env n y))
  | maliciousCheck => do
      SPDZ2k.maliciousCheck S
      return env

variable (S) in
def Program.run : Program parties k → Env (Sharing parties (k + s)) →
    Execution (Joint parties (k + s)) (Env (Sharing parties (k + s)))
  | done, env => return env
  | step c next, env => do next.run (← c.run S env)
  | openSharesA (n := n) x next, env => do
      let op ← SPDZ2k.openSharesA S (env n x)
      (next op).run env

theorem Command.run_establishes (c : Command parties k) {env : Env (Sharing parties (k + s))}
    (henv : ∀ n x, Authenticated S.alpha (env n x)) :
    Establishes S (c.run S env) (Represents S fun values => c.Shared (openedEnv env) values) := by
  cases c with
  | secretShareA out data dataParty =>
      apply (secretShareAInternal_establishes data dataParty).bind
      rintro z ⟨hz, hdata⟩
      exact Meets.pure ⟨authenticated_assign henv hz out,
        fun _ => ⟨opened z, hdata, Env.map_assign opened env out z⟩⟩
  | publicShare out x => exact Meets.pure ((shares_publicShare x).assign henv out)
  | addA n out x y =>
      exact Meets.pure (Shares.assign henv ⟨(henv n x).add (henv n y), fun _ => opened_add _ _⟩ out)
  | subA n out x y =>
      exact Meets.pure (Shares.assign henv ⟨(henv n x).sub (henv n y), fun _ => opened_sub _ _⟩ out)
  | multiplyA n out x y => exact assigned henv (multiplyA_establishes (henv n x) (henv n y)) out
  | multiplyPublicA out x val => exact Meets.pure ((shares_multiplyPublicA (henv _ x) val).assign henv out)
  | notB1 n out x => exact Meets.pure ((shares_notB1 (henv n x)).assign henv out)
  | andB1 n out x y => exact assigned henv (multiplyA_establishes (henv n x) (henv n y)) out
  | orB1 n out x y => exact assigned henv (orB1_establishes (henv n x) (henv n y)) out
  | xorB1 n out x y => exact assigned henv (xorB1_establishes (henv n x) (henv n y)) out
  | maliciousCheck =>
      apply maliciousCheck_establishes.bind
      intro _ _
      exact Meets.pure ⟨henv, fun _ => rfl⟩

/-- The steps of a program keep the shares authenticated, so a run does. -/
theorem Program.run_establishes (prog : Program parties k) {env : Env (Sharing parties (k + s))}
    (henv : ∀ n x, Authenticated S.alpha (env n x)) :
    Establishes S (prog.run S env) (Represents S fun values => prog.Shared (openedEnv env) values) := by
  induction prog generalizing env with
  | done => exact Meets.pure ⟨henv, fun _ => rfl⟩
  | step c next ih =>
      apply (c.run_establishes henv).bind
      rintro mid ⟨hmid, hc⟩
      apply (ih hmid).mono
      rintro env' ⟨henv', hnext⟩
      exact ⟨henv', fun honest => ⟨openedEnv mid, hc honest, hnext honest⟩⟩
  | openSharesA x next ih =>
      apply (openSharesA_establishes (henv _ x)).bind
      intro op hop
      apply (ih op henv).mono
      rintro env' ⟨henv', hnext⟩
      refine ⟨henv', fun honest => ?_⟩
      have hshared := hnext honest
      rwa [hop honest] at hshared

/-- Whatever a program does and however its openings are shifted, the shares stay authenticated, and
the aggregates of the parties sum to the key times the errors weighted by the joint coefficients.
Without errors the values are those of the program, modulo `2 ^ k` those on the plaintexts, and the
check succeeds at every party. -/
theorem authenticated_and_checked (S : Setup parties k s Digest) (prog : Program parties k)
    (env : Env (Sharing parties (k + s))) (henv : ∀ n x, Authenticated S.alpha (env n x)) :
    let run := outcome (prog.run S env) {}
    let check := outcome (maliciousCheckInternal S) run.2
    (∀ env', run.1 = some env' → ∀ n x, Authenticated S.alpha (env' n x)) ∧
    (S.Honest → (∃ env', run.1 = some env' ∧ prog.Shared (openedEnv env) (openedEnv env') ∧
        ∀ n x, toData (opened (env' n x)) = prog.values (fun n x => toData (opened (env n x))) n x) ∧
      check.1 = some fun _ => true) ∧
    (∃ batches, batches.flatten = S.opened run.2.openings ∧
      ∑ p, (check.2.party p).aggregatedDiff = (∑ p, S.alpha p) * S.batchErrors batches) ∧
    ∀ n (x : Sharing parties (k + s) n) J, (outcome (uncheckedOpenA S x) J).1 =
      some (toData (opened x) + toData (S.error J.openings.length n)) := by
  intro run check
  have hinitial : Accounted S {} := ⟨[], [], Account.initial⟩
  have hrun := prog.run_establishes henv
  have haccounted : Accounted S run.2 := hrun.keeps _ hinitial
  refine ⟨?_, ?_, ?_, fun n x J => outcome_uncheckedOpenA x J⟩
  · intro env' henv' n x
    exact (hrun.yields _ hinitial env' henv').1 n x
  · intro honest
    constructor
    · cases hresult : run.1 with
      | none => exact (hrun.stops _ hinitial hresult honest).elim
      | some env' =>
          have hshared := (hrun.yields _ hinitial env' hresult).2 honest
          exact ⟨env', rfl, hshared, fun n x => congrFun (congrFun hshared.toData_eq n) x⟩
    · have hok := maliciousCheckInternal_establishes.yields _ haccounted _
        (by rw [maliciousCheckInternal, outcome_finalizeBatchCheck])
      change (outcome (maliciousCheckInternal S) run.2).1 = _
      rw [maliciousCheckInternal, outcome_finalizeBatchCheck]
      exact congrArg some (funext fun p => hok honest p)
  · obtain ⟨batches, haccount⟩ := haccounted.processed
    refine ⟨batches, ?_, ?_⟩
    · have hopenings := haccount.openings
      rwa [List.map_nil, List.append_nil] at hopenings
    · rw [← haccount.diff]
      change ∑ p, ((outcome (maliciousCheckInternal S) run.2).2.party p).aggregatedDiff = _
      rw [maliciousCheckInternal, outcome_finalizeBatchCheck]

/-- Preprocessing that deals zeros, and the same mask in every call. -/
def Setup.dealing (alpha : Fin parties → BitVec (k + s)) (mask : BitVec (k + s))
    (error : ℕ → (n : ℕ) → Vec (k + s) n) : Setup parties k s (Vec (k + s) 1) where
  alpha := alpha
  authTriple _ _ := ⟨0, 0, 0, Authenticated.zero, Authenticated.zero, Authenticated.zero, by simp⟩
  authRandom _ _ := ⟨0, Authenticated.zero⟩
  authMask _ n _ := ⟨⟨_, authenticated_public (Vec.replicate n mask)⟩, _, opened_public _⟩
  freshPRG _ _ _ := 1
  keySize := 0
  localPRG _ _ := 0
  generateHash := id
  error := error

/-- Two parties share a vector and multiply it with itself; the first opening is shifted by one. -/
theorem authenticated_and_checked_shifted :
    let S : Setup 2 8 56 (Vec 64 1) := Setup.dealing ![3, 5] 300 fun j _ => if j = 0 then 1 else 0
    let prog : Program 2 8 :=
      .step (.secretShareA 0 ![7, -2] 1) (.step (.multiplyA 2 1 0 0) .done)
    let run := outcome (prog.run S fun _ _ => 0) {}
    let check := outcome (maliciousCheckInternal S) run.2
    (∀ env', run.1 = some env' → ∀ n x, Authenticated S.alpha (env' n x)) ∧
    ∃ batches, batches.flatten = S.opened run.2.openings ∧
      ∑ p, (check.2.party p).aggregatedDiff = (∑ p, S.alpha p) * S.batchErrors batches :=
  have hresult := authenticated_and_checked
    (Setup.dealing ![3, 5] 300 fun j _ => if j = 0 then 1 else 0 : Setup 2 8 56 (Vec 64 1))
    (.step (.secretShareA 0 ![7, -2] 1) (.step (.multiplyA 2 1 0 0) .done))
    (fun _ _ => 0) fun _ _ => Authenticated.zero
  ⟨hresult.1, hresult.2.2.1⟩

/-- A shared zero has the upper bits of the mask: with a mask of 256 the parts add up to 256. -/
theorem secretShare_upperBits :
    ¬ ∀ z, (outcome (secretShareAInternal (Setup.dealing ![3, 5] 256 fun _ _ => 0 :
        Setup 2 8 56 (Vec 64 1)) (n := 1) 0 1) {}).1 = some z → opened z = fromData 56 0 := by
  intro h
  exact absurd (congrFun (h _ rfl) 0) (by decide)

end CryptDough.SPDZ2k
