import CryptDough.SPDZ2k
import Mathlib.Algebra.Module.BigOperators

/-! The shares stay authenticated through every operation, and what the parties aggregate for the
check is the key times the weighted errors of the openings. -/

namespace CryptDough.SPDZ2k

open Execution

variable {parties k s bits n : ℕ}

section Sharings

variable {alpha : Fin parties → BitVec bits} {x y : Sharing parties bits n}

@[simp] theorem opened_zero : opened (0 : Sharing parties bits n) = 0 :=
  Finset.sum_const_zero

@[simp] theorem opened_add (x y : Sharing parties bits n) : opened (x + y) = opened x + opened y :=
  Finset.sum_add_distrib

@[simp] theorem opened_sub (x y : Sharing parties bits n) : opened (x - y) = opened x - opened y :=
  Finset.sum_sub_distrib _ _

@[simp] theorem opened_mul (x : Sharing parties bits n) (v : Vec bits n) :
    opened (fun p c => x p c * v) = opened x * v :=
  (Finset.sum_mul _ _ _).symm

namespace Authenticated

theorem add (hx : Authenticated alpha x) (hy : Authenticated alpha y) : Authenticated alpha (x + y) := by
  unfold Authenticated at *
  rw [opened_add, smul_add, ← hx, ← hy]
  exact Finset.sum_add_distrib

theorem sub (hx : Authenticated alpha x) (hy : Authenticated alpha y) : Authenticated alpha (x - y) := by
  unfold Authenticated at *
  rw [opened_sub, smul_sub, ← hx, ← hy]
  exact Finset.sum_sub_distrib _ _

theorem mul (hx : Authenticated alpha x) (v : Vec bits n) :
    Authenticated alpha fun p c => x p c * v := by
  unfold Authenticated at *
  rw [opened_mul, ← smul_mul_assoc, ← hx]
  exact (Finset.sum_mul _ _ _).symm

theorem zero : Authenticated alpha (0 : Sharing parties bits n) := by
  simp [Authenticated]

end Authenticated

/-- Public data is added by one party to the values and by all of them to the MACs. -/
theorem opened_public [NeZero parties] (v : Vec bits n) :
    opened (fun p : Fin parties => ![if p = 0 then v else 0, alpha p • v]) = v := by
  simp [opened]

theorem authenticated_public [NeZero parties] (v : Vec bits n) :
    Authenticated alpha fun p => ![if p = 0 then v else 0, alpha p • v] := by
  rw [Authenticated, opened_public]
  exact (Finset.sum_smul).symm

end Sharings

/-- What the parties log of an opening: the total they saw, their MAC shares, and the error. -/
structure Entry (parties bits : ℕ) where
  size : ℕ
  total : Vec bits size
  mac : Fin parties → Vec bits size
  error : Vec bits size

namespace Entry

/-- What party `p` appends to its back log. -/
def logged (p : Fin parties) (e : Entry parties bits) : (n : ℕ) × ShareMultiVector bits n :=
  ⟨e.size, ![e.total, e.mac p]⟩

def opening (e : Entry parties bits) : (n : ℕ) × Vec bits n := ⟨e.size, e.error⟩

/-- The MACs are those of the value before the error. -/
def Sound (alpha : Fin parties → BitVec bits) (e : Entry parties bits) : Prop :=
  ∑ p, e.mac p = (∑ p, alpha p) • (e.total - e.error)

end Entry

/-- The errors of the openings of one batch, weighted by the coefficients drawn for them. -/
def weightedErrors (freshPRG : List ℕ → (n : ℕ) → Vec bits n) (drawn : List ℕ) :
    List ((n : ℕ) × Vec bits n) → BitVec bits
  | [] => 0
  | ⟨n, error⟩ :: rest =>
      error ⬝ᵥ freshPRG drawn n + weightedErrors freshPRG (drawn ++ [n]) rest

theorem weightedErrors_eq_zero {freshPRG : List ℕ → (n : ℕ) → Vec bits n}
    {batch : List ((n : ℕ) × Vec bits n)} (hzero : ∀ o ∈ batch, o.2 = 0) (drawn : List ℕ) :
    weightedErrors freshPRG drawn batch = 0 := by
  induction batch generalizing drawn with
  | nil => rfl
  | cons o rest ih =>
      rw [weightedErrors, hzero o List.mem_cons_self, zero_dotProduct, zero_add]
      exact ih (fun o' ho' => hzero o' (List.mem_cons_of_mem _ ho')) _

/-- A logged opening adds the key times its weighted error to the sum of the parties' aggregates. -/
theorem Entry.sum_aggregated {alpha : Fin parties → BitVec bits} {e : Entry parties bits}
    (hsound : e.Sound alpha) (nums : Vec bits e.size) :
    ∑ p, ((e.total ⬝ᵥ nums) * alpha p - (e.mac p ⬝ᵥ nums)) = (∑ p, alpha p) * (e.error ⬝ᵥ nums) := by
  have hmac : ∑ p, (e.mac p ⬝ᵥ nums) = (∑ p, alpha p) * ((e.total - e.error) ⬝ᵥ nums) := by
    rw [← sum_dotProduct, hsound, smul_dotProduct, smul_eq_mul]
  calc ∑ p, ((e.total ⬝ᵥ nums) * alpha p - (e.mac p ⬝ᵥ nums))
      = (e.total ⬝ᵥ nums) * ∑ p, alpha p - ∑ p, (e.mac p ⬝ᵥ nums) := by
        rw [Finset.sum_sub_distrib, Finset.mul_sum]
    _ = (∑ p, alpha p) * (e.error ⬝ᵥ nums) := by
        rw [hmac, sub_dotProduct]
        ring

theorem sum_aggregate {alpha : Fin parties → BitVec bits} {entries : List (Entry parties bits)}
    (hsound : ∀ e ∈ entries, e.Sound alpha) (freshPRG : List ℕ → (n : ℕ) → Vec bits n)
    (drawn : List ℕ) (diff : Fin parties → BitVec bits) :
    ∑ p, Party.aggregate (alpha p) freshPRG drawn (diff p) (entries.map (Entry.logged p)) =
      ∑ p, diff p + (∑ p, alpha p) * weightedErrors freshPRG drawn (entries.map Entry.opening) := by
  induction entries generalizing drawn diff with
  | nil => simp [Party.aggregate, weightedErrors]
  | cons e rest ih =>
      simp only [List.map_cons, Entry.logged, Entry.opening, Party.aggregate, weightedErrors]
      have hrest := ih (fun e' he' => hsound e' (List.mem_cons_of_mem _ he')) (drawn ++ [e.size])
        fun p => diff p + ((e.total ⬝ᵥ freshPRG drawn e.size) * alpha p -
          (e.mac p ⬝ᵥ freshPRG drawn e.size))
      apply hrest.trans
      rw [Finset.sum_add_distrib, Entry.sum_aggregated (hsound e List.mem_cons_self)]
      ring

variable {Digest : Type} {S : Setup parties k s Digest}

/-- The openings made so far, with the errors that hit them. -/
def Setup.opened (S : Setup parties k s Digest) (sizes : List ℕ) :
    List ((n : ℕ) × Vec (k + s) n) := sizes.mapIdx fun j n => ⟨n, S.error j n⟩

/-- No opening is hit by an error. -/
def Setup.Honest (S : Setup parties k s Digest) : Prop := ∀ j n, S.error j n = 0

/-- The weighted errors of all the batches, each with the coefficients of its own seed. -/
def Setup.batchErrors (S : Setup parties k s Digest)
    (batches : List (List ((n : ℕ) × Vec (k + s) n))) : BitVec (k + s) :=
  (batches.mapIdx fun t batch => weightedErrors (S.freshPRG t) [] batch).sum

/-- The openings are the aggregated batches and what the back logs still hold. -/
structure Account (S : Setup parties k s Digest) (J : Joint parties (k + s))
    (batches : List (List ((n : ℕ) × Vec (k + s) n))) (pending : List (Entry parties (k + s))) :
    Prop where
  openings : batches.flatten ++ pending.map Entry.opening = S.opened J.openings
  sound : ∀ e ∈ pending, e.Sound S.alpha
  backLog : ∀ p, (J.party p).aggregationBackLog = pending.map (Entry.logged p)
  elementSize : ∀ p, (J.party p).backLogElementSize = (pending.map Entry.size).sum
  freshSeeds : ∀ p, (J.party p).freshSeeds = batches.length
  diff : ∑ p, (J.party p).aggregatedDiff = (∑ p, S.alpha p) * S.batchErrors batches

def Accounted (S : Setup parties k s Digest) (J : Joint parties (k + s)) : Prop :=
  ∃ batches pending, Account S J batches pending

namespace Account

variable {J : Joint parties (k + s)} {batches : List (List ((n : ℕ) × Vec (k + s) n))}
  {pending : List (Entry parties (k + s))}

theorem initial : Account S {} [] [] where
  openings := rfl
  sound _ he := nomatch he
  backLog _ := rfl
  elementSize _ := rfl
  freshSeeds _ := rfl
  diff := by simp [Setup.batchErrors]

/-- Only the parties and the openings count. -/
theorem frame {J' : Joint parties (k + s)} (haccount : Account S J batches pending)
    (hparty : J'.party = J.party) (hopenings : J'.openings = J.openings) :
    Account S J' batches pending where
  openings := hopenings ▸ haccount.openings
  sound := haccount.sound
  backLog := hparty ▸ haccount.backLog
  elementSize := hparty ▸ haccount.elementSize
  freshSeeds := hparty ▸ haccount.freshSeeds
  diff := hparty ▸ haccount.diff

theorem processed (haccount : Account S J batches pending) :
    Account S (J.processAggregationBackLog S) (batches ++ [pending.map Entry.opening]) [] where
  openings := by
    rw [List.flatten_append, List.map_nil, List.append_nil, List.flatten_singleton]
    exact haccount.openings
  sound _ he := nomatch he
  backLog _ := rfl
  elementSize _ := rfl
  freshSeeds p := by
    rw [List.length_append, ← haccount.freshSeeds p]
    rfl
  diff := by
    calc ∑ p, ((J.processAggregationBackLog S).party p).aggregatedDiff
        = ∑ p, Party.aggregate (S.alpha p) (S.freshPRG batches.length) []
            (J.party p).aggregatedDiff (pending.map (Entry.logged p)) := by
          apply Finset.sum_congr rfl
          intro p _
          rw [← haccount.backLog p, ← haccount.freshSeeds p]
          rfl
      _ = (∑ p, S.alpha p) * S.batchErrors (batches ++ [pending.map Entry.opening]) := by
          rw [sum_aggregate haccount.sound, haccount.diff, Setup.batchErrors, Setup.batchErrors,
            List.mapIdx_concat, List.sum_append, List.sum_singleton, mul_add]

/-- All the parties find the same sizes, so they process their back logs together or not at all. -/
theorem optional_eq (haccount : Account S J batches pending) :
    J.optionalAggregationBackLogOptimization S =
      if Party.heuristicMaxBacklogSize < pending.length ∨
          Party.heuristicMaxBacklogElementSize < (pending.map Entry.size).sum then
        J.processAggregationBackLog S else J := by
  have hsize : ∀ p, (J.party p).aggregationBackLog.length = pending.length := fun p => by
    rw [haccount.backLog p, List.length_map]
  unfold Joint.optionalAggregationBackLogOptimization Joint.processAggregationBackLog
    Joint.everyParty Party.optionalAggregationBackLogOptimization
  simp only [hsize, haccount.elementSize]
  split
  · rfl
  · rfl

theorem optional (haccount : Account S J batches pending) :
    Accounted S (J.optionalAggregationBackLogOptimization S) := by
  rw [haccount.optional_eq]
  split
  · exact ⟨_, _, haccount.processed⟩
  · exact ⟨_, _, haccount⟩

/-- The parties log an opening. -/
theorem log (haccount : Account S J batches pending) (e : Entry parties (k + s))
    (hsound : e.Sound S.alpha) (herror : e.error = S.error J.openings.length e.size)
    (J' : Joint parties (k + s))
    (hparty : ∀ p, J'.party p = (J.party p).addToAggregationBackLog ![e.total, e.mac p])
    (hopenings : J'.openings = J.openings ++ [e.size]) :
    Account S J' batches (pending ++ [e]) where
  openings := by
    rw [hopenings, Setup.opened, List.mapIdx_concat, List.map_append, ← List.append_assoc,
      haccount.openings, ← herror]
    rfl
  sound e' he' := by
    rcases List.mem_append.mp he' with hold | hnew
    · exact haccount.sound e' hold
    · exact List.mem_singleton.mp hnew ▸ hsound
  backLog p := by
    rw [hparty, List.map_append, ← haccount.backLog p]
    rfl
  elementSize p := by
    rw [hparty, List.map_append, List.sum_append, ← haccount.elementSize p]
    simp [Party.addToAggregationBackLog]
  freshSeeds p := by
    rw [hparty, ← haccount.freshSeeds p]
    rfl
  diff := by
    rw [← haccount.diff]
    simp [hparty, Party.addToAggregationBackLog]

end Account

theorem Accounted.frame {J J' : Joint parties (k + s)} (haccounted : Accounted S J)
    (hparty : J'.party = J.party) (hopenings : J'.openings = J.openings) : Accounted S J' := by
  obtain ⟨batches, pending, haccount⟩ := haccounted
  exact ⟨batches, pending, haccount.frame hparty hopenings⟩

/-- With honest parties there is nothing to find. -/
theorem Setup.Honest.batchErrors (honest : S.Honest) {sizes : List ℕ}
    {batches : List (List ((n : ℕ) × Vec (k + s) n))} (hopenings : batches.flatten = S.opened sizes) :
    S.batchErrors batches = 0 := by
  have hzero : ∀ batch ∈ batches, ∀ o ∈ batch, o.2 = 0 := by
    intro batch hbatch o ho
    have hmem : o ∈ S.opened sizes := hopenings ▸ List.mem_flatten.mpr ⟨batch, hbatch, ho⟩
    obtain ⟨j, hj, rfl⟩ := List.mem_mapIdx.mp hmem
    exact honest j _
  apply List.sum_eq_zero
  intro d hd
  obtain ⟨t, ht, rfl⟩ := List.mem_mapIdx.mp hd
  exact weightedErrors_eq_zero (hzero _ (List.getElem_mem ht)) []

end CryptDough.SPDZ2k
