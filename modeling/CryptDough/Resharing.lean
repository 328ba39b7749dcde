import CryptDough.Protocol

/-! Rerandomising a replicated sharing within a group of parties and sending it to the others: who
holds which share, who sends it where, and the shares of zero a group generates. -/

namespace CryptDough

open Process Sharing Communicator

/-- A group of parties, `std::set` in rising order. -/
abbrev Group (last : ℕ) := Finset (Fin (last + 1))

namespace ProtocolBase

section ShareMaps

variable {last rep : ℕ}

/-- Share number `j` of party `p`. -/
def partyShare (p : Fin (last + 1)) (j : Fin (rep + 1)) : Fin (last + 1) :=
  Fin.ofNat (last + 1) (p.val + j.val)

variable (rep) in
def partyShareMap (p : Fin (last + 1)) : List (Fin (last + 1)) :=
  (List.finRange (rep + 1)).map (partyShare p)

variable (rep) in
def sharePartyMap (s : Fin (last + 1)) : List (Fin (last + 1)) :=
  (List.finRange (last + 1)).filter fun p => s ∈ partyShareMap rep p

/-- Who sends, and which of its shares to which relative rank; who receives, and from which relative
rank each of its shares. -/
inductive ReshareAssignment (last rep : ℕ)
  | send (sent : List (Fin (last + 1) × Fin (rep + 1)))
  | receive (ranks : List (Fin (last + 1)))
deriving DecidableEq

variable (rep) in
/-- No party of the group that also has share `s` has a lower rank. -/
def isCanonical (p : Fin (last + 1)) (group : Group last) (s : Fin (last + 1)) : Bool :=
  match (sharePartyMap rep s).find? (· ∈ group) with
  | some q => q = p
  | none => true

variable (rep) in
def generateSendAssignment (p : Fin (last + 1)) (group : Group last) :
    List (Fin (last + 1) × Fin (rep + 1)) :=
  ((List.finRange (last + 1)).filter (· ∉ group)).flatMap fun q =>
    (partyShareMap rep q).filterMap fun qs =>
      ((List.finRange (rep + 1)).find? fun si =>
        partyShare p si = qs ∧ isCanonical rep p group (partyShare p si)).map fun si => (q - p, si)

variable (rep) in
def generateRecvAssignment (p : Fin (last + 1)) (group : Group last) : List (Fin (last + 1)) :=
  (partyShareMap rep p).filterMap fun s =>
    ((sharePartyMap rep s).find? (· ∈ group)).map fun q => q - p

/-- All sets of `size` elements of a rising list, in lexicographic order. -/
def generateAllCombinations {α : Type} : ℕ → List α → List (List α)
  | 0, _ => [[]]
  | _ + 1, [] => []
  | size + 1, element :: set =>
      (generateAllCombinations size set).map (element :: ·) ++ generateAllCombinations (size + 1) set

/-- The groups of `last + 1` parties. -/
def generateGroups (last partiesToReconstruct numAdversaries : ℕ) : List (Group last) :=
  if last + 1 = 1 then [{0}]
  else if 4 ≤ last + 1 ∧ numAdversaries = 1 then
    (List.range 2).map fun i => ((List.range partiesToReconstruct).map fun j =>
      Fin.ofNat (last + 1) (i * partiesToReconstruct + j)).toFinset
  else if last + 1 - numAdversaries = 1 then []
  else (generateAllCombinations (last + 1 - numAdversaries) (List.finRange (last + 1))).map
    List.toFinset

/-- The groups that share generators: those, and everyone. -/
def generateRandomnessGroups (last partiesToReconstruct numAdversaries : ℕ) : List (Group last) :=
  generateGroups last partiesToReconstruct numAdversaries ++ [Finset.univ]

variable (rep) in
/-- The assignments are filled in for the groups of the base class; any other one is the default. -/
def reshareMap (p : Fin (last + 1)) (group : Group last) : ReshareAssignment last rep :=
  if group ∉ generateGroups last 2 1 then .send []
  else if p ∈ group then .send (generateSendAssignment rep p group)
  else .receive (generateRecvAssignment rep p group)

end ShareMaps

end ProtocolBase

namespace Vec

variable {w n : ℕ} (binary : Bool)

/-- What combines the shares of an encoding. -/
def plus (x y : Vec w n) : Vec w n := if binary then x ^^^ y else x + y

def minus (x y : Vec w n) : Vec w n := if binary then x ^^^ y else x - y

instance : Std.Commutative (plus (w := w) (n := n) binary) where
  comm := by
    cases binary
    · exact fun x y => add_comm x y
    · exact fun x y => funext fun i => BitVec.xor_comm (x i) (y i)

instance : Std.Associative (plus (w := w) (n := n) binary) where
  assoc := by
    cases binary
    · exact fun x y z => add_assoc x y z
    · exact fun x y z => funext fun i => BitVec.xor_assoc (x i) (y i) (z i)

theorem plus_comm (x y : Vec w n) : plus binary x y = plus binary y x :=
  Std.Commutative.comm x y

theorem plus_assoc (x y z : Vec w n) : plus binary (plus binary x y) z = plus binary x (plus binary y z) :=
  Std.Associative.assoc x y z

theorem plus_zero (x : Vec w n) : plus binary x 0 = x := by
  cases binary
  · exact add_zero x
  · funext i
    exact BitVec.xor_zero

theorem plus_minus (x y : Vec w n) : plus binary x (minus binary y x) = y := by
  cases binary
  · exact add_sub_cancel x y
  · funext i
    show x i ^^^ (y i ^^^ x i) = y i
    rw [BitVec.xor_comm (y i), ← BitVec.xor_assoc, BitVec.xor_self, BitVec.zero_xor]

end Vec

/-- A consistent sharing in the given encoding. -/
abbrev OpensE (binary : Bool) {S : Scheme} {w n : ℕ} (s : S.Shares (Vec w n)) (secret : Vec w n) :
    Prop := Scheme.Opens (Vec.plus binary) s secret

/-! The shares of zero a group generates from its common generator. -/

namespace ZeroSharingGenerator

variable {P S : Type} {w : ℕ}

def drawVectors (source : S) (n : ℕ) : (m : ℕ) → Proc P S (BitVec w) (Fin m → Vec w n)
  | 0 => pure Fin.elim0
  | m + 1 => do
      let nums ← drawVectors source n m
      let next ← .draw source n .done
      pure (Fin.snoc (α := fun _ => Vec w n) nums next)

/-- The last vector is what the others leave to zero. -/
def dependent (binary : Bool) {n : ℕ} : {m : ℕ} → (Fin m → Vec w n) → Vec w n
  | 0, _ => 0
  | _ + 1, nums => Vec.minus binary (dependent binary fun i => nums i.castSucc) (nums (Fin.last _))

/-- One vector per party. -/
def groupGetNext (binary : Bool) (n last : ℕ) (source : S) :
    Proc P S (BitVec w) (Fin (last + 1) → Vec w n) := do
  let nums ← drawVectors source n last
  pure (Fin.snoc (α := fun _ => Vec w n) nums (dependent binary nums))

theorem combine_snoc {D : Type} (op : D → D → D) {m : ℕ} (nums : Fin (m + 1) → D) (d : D) :
    combine op (Fin.snoc (α := fun _ => D) nums d) = op (combine op nums) d := by
  rw [combine_succ, Fin.snoc_last]
  congr 2
  ext i
  exact Fin.snoc_castSucc (α := fun _ => D) d nums i

theorem plus_combine_dependent (binary : Bool) {n m : ℕ} (nums : Fin (m + 1) → Vec w n) :
    Vec.plus binary (combine (Vec.plus binary) nums) (dependent binary nums) = 0 := by
  induction m with
  | zero => exact Vec.plus_minus binary (nums 0) 0
  | succ m ih =>
      have hinit := ih fun i => nums i.castSucc
      calc Vec.plus binary (combine (Vec.plus binary) nums) (dependent binary nums)
          = Vec.plus binary (Vec.plus binary (combine (Vec.plus binary) fun i => nums i.castSucc)
              (nums (Fin.last _))) (Vec.minus binary (dependent binary fun i => nums i.castSucc)
                (nums (Fin.last _))) := rfl
        _ = Vec.plus binary (combine (Vec.plus binary) fun i => nums i.castSucc)
              (dependent binary fun i => nums i.castSucc) := by
            rw [Vec.plus_assoc, Vec.plus_minus]
        _ = 0 := hinit

/-- The vectors add, or XOR, to zero. -/
theorem combine_zeroSharing (binary : Bool) {n m : ℕ} (nums : Fin m → Vec w n) :
    combine (Vec.plus binary) (Fin.snoc (α := fun _ => Vec w n) nums (dependent binary nums)) =
      0 := by
  cases m with
  | zero => exact Fin.snoc_last (α := fun _ => Vec w n) (0 : Vec w n) nums
  | succ m =>
      rw [combine_snoc]
      exact plus_combine_dependent binary nums

/-- What the vectors are on a tape. -/
def tapeVectors (tape : ℕ → BitVec w) (n m : ℕ) : Fin m → Vec w n := fun j i => tape (j * n + i)

theorem settle_bind [DecidableEq S] {α β : Type} {x : Proc P S (BitVec w) α}
    {tape tape' : S → ℕ → BitVec w} {v : α} (hx : x.settle tape = (.done v, tape'))
    (f : α → Proc P S (BitVec w) β) : (x >>= f).settle tape = (f v).settle tape' := by
  induction x generalizing tape with
  | done u =>
      simp only [Proc.settle, Prod.mk.injEq, Proc.done.injEq] at hx
      obtain ⟨rfl, rfl⟩ := hx
      rfl
  | draw s n k ih => exact ih _ hx
  | send q n m k => simp [Proc.settle] at hx
  | recv q n k => simp [Proc.settle] at hx

theorem advance_advance [DecidableEq S] (tape : S → ℕ → BitVec w) (s : S) (n m : ℕ) :
    advance (advance tape s n) s m = advance tape s (n + m) := by
  ext s' i
  by_cases hs : s' = s
  · subst hs
    simp [advance, Nat.add_assoc]
  · simp [advance, hs]

theorem settle_drawVectors [DecidableEq S] (source : S) (n m : ℕ) (tape : S → ℕ → BitVec w) :
    (drawVectors source n m : Proc P S (BitVec w) (Fin m → Vec w n)).settle tape =
      (.done (tapeVectors (tape source) n m), advance tape source (m * n)) := by
  induction m with
  | zero =>
      have hadv : advance tape source (0 * n) = tape := by
        ext s i
        by_cases hs : s = source
        · subst hs
          simp [advance]
        · simp [advance, hs]
      rw [hadv]
      show (Proc.done (Fin.elim0 : Fin 0 → Vec w n), tape) = _
      rw [Subsingleton.elim (Fin.elim0 : Fin 0 → Vec w n) (tapeVectors (tape source) n 0)]
  | succ m ih =>
      rw [drawVectors, settle_bind ih]
      show (Proc.done _, advance (advance tape source (m * n)) source n) = _
      rw [advance_advance, ← Nat.succ_mul]
      congr 2
      funext j
      refine Fin.lastCases ?_ (fun j => ?_) j
      · rw [Fin.snoc_last (α := fun _ => Vec w n)]
        funext i
        simp [advance, tapeVectors]
      · rw [Fin.snoc_castSucc (α := fun _ => Vec w n)]
        rfl

end ZeroSharingGenerator

end CryptDough
