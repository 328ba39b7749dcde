import CryptDough.BeaverTriples
import CryptDough.ObliviousPermutation
import CryptDough.Replicated3PCConversion
import CryptDough.ShareConversions

/-! The conversions of the three protocols: what their parties read beside the boolean protocol, how
they split an arithmetic sharing and how they share what some of them know. -/

namespace CryptDough

open Process Sharing Communicator

/-- A vector that only the members of a group draw. -/
theorem computes_groupDraw {last w : ℕ} (n : ℕ) (g : Group last) :
    Computes GroupCorrelated
      (fun p => if p ∈ g then .draw g n .done else pure 0 :
        Fin (last + 1) → Proc (Fin (last + 1)) (Group last) (BitVec w) (Vec w n))
      fun value => ∃ r : Vec w n, value = fun p => if p ∈ g then r else 0 := by
  refine Computes.of_runs fun tape hcorr => ?_
  let value (p : Fin (last + 1)) : Vec w n := if p ∈ g then fun i => tape p g i else 0
  let tape' (p : Fin (last + 1)) : Group last → ℕ → BitVec w :=
    if p ∈ g then advance (tape p) g n else tape p
  have hcorr' : GroupCorrelated tape' :=
    GroupCorrelated.advance (S := ⟨last, 0, fun p _ => p, id, fun _ => rfl⟩) Function.injective_id
      hcorr g n
  refine ⟨value, tape', Runs.settle ?_, hcorr', ?_⟩
  · convert Runs.pure value tape' using 1
    · ext p
      by_cases hp : p ∈ g
      · simp only [if_pos hp, value]
        rfl
      · simp only [if_neg hp, value]
        rfl
    · ext p
      by_cases hp : p ∈ g
      · simp only [if_pos hp, tape']
        rfl
      · simp only [if_neg hp, tape']
        rfl
  · rcases g.eq_empty_or_nonempty with hempty | ⟨q, hq⟩
    · exact ⟨0, by simp [hempty, value]⟩
    · refine ⟨fun i => tape q g i, funext fun p => ?_⟩
      by_cases hp : p ∈ g
      · simp only [value, if_pos hp]
        rw [hcorr g p q hp hq]
      · simp only [value, if_neg hp]

/-- The same beside other sources. -/
theorem computes_commonRandom {last w : ℕ} {S : Type} [DecidableEq S]
    {corr : (Fin (last + 1) → S → ℕ → BitVec w) → Prop}
    {corr' : (Fin (last + 1) → S ⊕ Group last → ℕ → BitVec w) → Prop}
    (hcorr : corr' = SourcesCorrelated corr GroupCorrelated) (n : ℕ) (g : Group last) :
    Computes corr'
      (fun p => if p ∈ g then (Proc.draw g n .done).embed Embedding.secondSource else pure 0 :
        Fin (last + 1) → Proc (Fin (last + 1)) (S ⊕ Group last) (BitVec w) (Vec w n))
      fun value => ∃ r : Vec w n, value = fun p => if p ∈ g then r else 0 := by
  subst hcorr
  have hrespects : (Embedding.secondSource :
      Embedding (Group last) (S ⊕ Group last) (BitVec w) (BitVec w)).Respects GroupCorrelated
        (SourcesCorrelated corr GroupCorrelated) := Embedding.secondSource_respects
  have hdraw := (computes_groupDraw (w := w) n g).embed hrespects
  simp only [apply_ite (Proc.embed Embedding.secondSource), Proc.embed_pure] at hdraw
  exact hdraw

namespace Beaver2PC

variable {w n : ℕ}

/-- The components of the multiplication triples, a party's own generator and those of groups. -/
inductive ConversionSource
  | mul (component : Source)
  | localPRG
  | common (group : Group 1)
deriving DecidableEq

def mulTriples : Embedding Source ConversionSource (BitVec w) (BitVec w) where
  source := .mul
  source_injective := fun _ _ heq => ConversionSource.mul.inj heq
  wrap := id
  unwrap := id
  unwrap_wrap := fun _ => rfl

/-- The shares of `c` open to the product of what the shares of `a` and of `b` open to. -/
def CorrelatedA (tape : Fin 2 → Source → ℕ → BitVec w) : Prop :=
  ∀ i, tape 0 .c i + tape 1 .c i = (tape 0 .a i + tape 1 .a i) * (tape 0 .b i + tape 1 .b i)

/-- A party's own generator reads what it likes. -/
def ConversionCorrelated (tape : Fin 2 → ConversionSource → ℕ → BitVec w) : Prop :=
  CorrelatedA (mulTriples.read tape) ∧ GroupCorrelated fun p g => tape p (.common g)

theorem mulTriples_respects :
    (mulTriples : Embedding Source ConversionSource (BitVec w) (BitVec w)).Respects CorrelatedA
      ConversionCorrelated where
  read := fun _ hboth => hboth.1
  keep := by
    intro tape tape' hboth hread hframe
    have hgroups : (fun p (g : Group 1) => tape' p (.common g)) = fun p g => tape p (.common g) :=
      funext fun p => funext fun g => hframe p (.common g) (by simp [mulTriples])
    exact ⟨hread, hgroups ▸ hboth.2⟩

theorem computes_multiplyA (stacked : Bool) {x y : scheme.Shares (Vec w n)} {a b : Vec w n}
    (hx : OpensA x a) (hy : OpensA y b) :
    Computes CorrelatedA (fun p => multiplyA stacked p (x p) (y p))
      fun z : scheme.Shares (Vec w n) => OpensA z (a * b) := by
  intro tape hcorr
  let t (p : Fin 2) : Triple w n := ⟨nextOf tape n .a p, nextOf tape n .b p, nextOf tape n .c p⟩
  have ht : IsTripleA t := funext fun i => hcorr i
  exact ⟨_, _, delivers_multiplyA (t := t) (fun _ => ⟨rfl, rfl, rfl⟩) stacked,
    fun i => hcorr (n + i), productShare_opens ht hx hy⟩

/-- The second party's bit is negated, and the sum is squared. -/
def b2aBit (stacked : Bool) (partyID : Fin 2) (x : EVec scheme w n) : Program w (EVec scheme w n) :=
  let xm : EVec scheme w n := fun r => Vec.mask (x r) 1
  let xm := if partyID = 1 then fun r => -xm r else xm
  multiplyA stacked partyID xm xm

theorem computes_b2aBit (stacked : Bool) {x : scheme.Shares (Vec w n)} {a : Vec w n}
    (hx : OpensB x a) :
    Computes CorrelatedA (fun p => b2aBit stacked p (x p)) fun z : scheme.Shares (Vec w n) =>
      OpensA z (Vec.mask a 1) := by
  let xm : scheme.Shares (Vec w n) := fun p =>
    if p = 1 then fun r => -Vec.mask (x p r) 1 else fun r => Vec.mask (x p r) 1
  have hxm : OpensA xm (Vec.mask (x 0 0) 1 - Vec.mask (x 1 0) 1) :=
    opens_iff.mpr (sub_eq_add_neg _ _).symm
  have hsquare : (Vec.mask (x 0 0) 1 - Vec.mask (x 1 0) 1) *
      (Vec.mask (x 0 0) 1 - Vec.mask (x 1 0) 1) = Vec.mask a 1 := by
    rw [← opens_iff.mp hx]
    exact funext fun i => Vec.sq_sub_bits (x 0 0 i) (x 1 0 i)
  rw [← hsquare]
  exact computes_multiplyA stacked hxm hxm

/-- The owner of the data keeps a random vector and sends the rest. -/
def secretShareB (partyID dataParty : Fin 2) (data : Vec w n) :
    Proc (Fin 2) ConversionSource (BitVec w) (EVec scheme w n) :=
  if partyID = dataParty then do
    let share1 ← .draw .localPRG n .done
    let share2 := data ^^^ share1
    sendShares partyID 1 share2
    pure fun _ => share1
  else do
    let s ← receiveShares partyID (-1) n
    pure fun _ => s

/-- Each party shares its own part. -/
def redistributeSharesB (partyID : Fin 2) (x : EVec scheme w n) :
    Proc (Fin 2) ConversionSource (BitVec w) (EVec scheme w n × EVec scheme w n) := do
  let first ← secretShareB partyID 0 (x 0)
  let second ← secretShareB partyID 1 (x 0)
  pure (first, second)

theorem computes_secretShareB (dataParty : Fin 2) (data : Fin 2 → Vec w n) :
    Computes ConversionCorrelated (fun p => secretShareB p dataParty (data p))
      fun z : scheme.Shares (Vec w n) => OpensB z (data dataParty) := by
  refine Computes.of_runs fun tape hcorr => ?_
  let share1 : Vec w n := fun i => tape dataParty .localPRG i
  let tape' (p : Fin 2) : ConversionSource → ℕ → BitVec w :=
    if p = dataParty then advance (tape p) .localPRG n else tape p
  have hother : ∀ p s, s ≠ .localPRG → tape' p s = tape p s := by
    intro p s hs
    simp only [tape']
    split
    · exact Function.update_of_ne hs _ _
    · rfl
  have hmul : mulTriples.read tape' = (mulTriples.read tape : Fin 2 → Source → ℕ → BitVec w) :=
    funext fun p => funext fun s => hother p (.mul s) (by simp)
  have hgroups : (fun p (g : Group 1) => tape' p (.common g)) = fun p g => tape p (.common g) :=
    funext fun p => funext fun g => hother p (.common g) (by simp)
  let value : scheme.Shares (Vec w n) := fun p =>
    if p = dataParty + 1 then fun _ => data dataParty ^^^ share1 else fun _ => share1
  have hopens : OpensB value (data dataParty) := by
    change OpensE true value (data dataParty)
    apply (opensE_iff (dataParty + 1)).mpr
    simp only [value, if_true, if_neg (other (dataParty + 1)).1]
    funext i
    show (data dataParty i ^^^ share1 i) ^^^ share1 i = data dataParty i
    rw [BitVec.xor_assoc, BitVec.xor_self, BitVec.xor_zero]
  refine ⟨value, tape', Runs.settle ?_, ⟨hmul ▸ hcorr.1, hgroups ▸ hcorr.2⟩, hopens⟩
  convert runs_oneWay (dataParty + 1) (data dataParty ^^^ share1) (fun received _ => received)
    (fun _ => share1) tape' using 1
  · ext p
    by_cases hp : p = dataParty
    · subst hp
      simp only [secretShareB, oneWay, if_true, if_neg (other p).1.symm]
      rfl
    · obtain rfl := eq_other hp
      simp only [secretShareB, oneWay, if_true, if_neg hp]
      rfl
  · ext p
    by_cases hp : p = dataParty
    · subst hp
      simp only [secretShareB, tape', if_true]
      rfl
    · simp only [secretShareB, tape', if_neg hp]
      rfl

theorem computes_redistributeSharesB {x : scheme.Shares (Vec w n)} {a : Vec w n} (hx : OpensA x a) :
    Computes ConversionCorrelated (fun p => redistributeSharesB p (x p)) fun z =>
      ∃ b c : Vec w n, OpensB (fun p => (z p).1 : scheme.Shares (Vec w n)) b ∧
        OpensB (fun p => (z p).2 : scheme.Shares (Vec w n)) c ∧ b + c = a := by
  refine (computes_secretShareB 0 fun p => x p 0).bind fun first hfirst => ?_
  refine (computes_secretShareB 1 fun p => x p 0).bind fun second hsecond => ?_
  exact Computes.pure ⟨x 0 0, x 1 0, hfirst, hsecond, opens_iff.mp hx⟩

/-- Groups of one party are not returned. -/
def getGroups : List (Group 1) := []

def publicShareFor (partyID : Fin 2) (data : Vec w n) (whoKnows : Group 1) : EVec scheme w n :=
  let allZeroRecv := whoKnows = ∅ ∧ partyID = 0
  if allZeroRecv ∨ partyID ∈ whoKnows then fun _ => data else fun _ => 0

theorem publicShareFor_empty (partyID : Fin 2) (data : Vec w n) :
    publicShareFor partyID data ∅ = publicShare partyID data := by
  simp only [publicShareFor, publicShare, true_and, Finset.notMem_empty, or_false]

end Beaver2PC

namespace Replicated3PC

variable {w n : ℕ}

/-- The part that a set of parties has in common; the other sets but one are refused. -/
def publicPart (whoKnows : Group 2) : Fin 3 :=
  if whoKnows = ∅ ∨ whoKnows = {0, 2} then 0 else if whoKnows = {0, 1} then 1 else 2

def publicShareFor (partyID : Fin 3) (x : Vec w n) (whoKnows : Group 2) : EVec scheme w n :=
  let k := publicPart whoKnows
  ![if partyID = k then x else 0, if partyID + 1 = k then x else 0]

/-- Who keeps the part is a member. -/
theorem mem_of_publicPart :
    ∀ g ∈ getGroups, ∀ p, (p = publicPart g → p ∈ g) ∧ (p + 1 = publicPart g → p ∈ g) := by
  decide

theorem publicShareFor_opens (binary : Bool) {whoKnows : Group 2} {v : Fin 3 → Vec w n} {a : Vec w n}
    (hv : ∀ p, (p = publicPart whoKnows → v p = a) ∧ (p + 1 = publicPart whoKnows → v p = a)) :
    OpensE binary (fun p => publicShareFor p (v p) whoKnows) a := by
  have hdeal : (fun p => publicShareFor p (v p) whoKnows) =
      (Scheme.deal (fun i => if i = publicPart whoKnows then a else 0) : scheme.Shares (Vec w n)) := by
    rw [deal_eq]
    funext p r
    fin_cases r
    · show (if p = publicPart whoKnows then v p else 0) = if p = publicPart whoKnows then a else 0
      split
      · rename_i hp
        exact (hv p).1 hp
      · rfl
    · show (if p + 1 = publicPart whoKnows then v p else 0) =
        if p + 1 = publicPart whoKnows then a else 0
      split
      · rename_i hp
        exact (hv p).2 hp
      · rfl
  rw [hdeal]
  exact ⟨⟨_, rfl⟩, (reconstruct_deal _ _).trans (combine_publicPart binary _ a)⟩

end Replicated3PC

namespace Fantastic4PC

variable {w n : ℕ}

/-- The part of the party outside. -/
def publicPart (whoKnows : Group 3) : Fin 4 := if whoKnows = ∅ then 0 else receiver whoKnows

def publicShareFor (partyID : Fin 4) (x : Vec w n) (whoKnows : Group 3) : EVec scheme w n :=
  let k := publicPart whoKnows
  if partyID ≠ k then Function.update (fun _ => 0) (abs2sh partyID k) x else fun _ => 0

theorem mem_of_ne_publicPart : ∀ g ∈ getGroups, ∀ p, p ≠ publicPart g → p ∈ g := by
  decide

theorem publicShareFor_opens (binary : Bool) {whoKnows : Group 3} {v : Fin 4 → Vec w n} {a : Vec w n}
    (hv : ∀ p, p ≠ publicPart whoKnows → v p = a) :
    OpensE binary (fun p => publicShareFor p (v p) whoKnows) a := by
  have hdeal : (fun p => publicShareFor p (v p) whoKnows) =
      (Scheme.deal (fun i => if i = publicPart whoKnows then a else 0) : scheme.Shares (Vec w n)) := by
    ext p r
    by_cases hp : p = publicPart whoKnows
    · have hne := held_ne p r
      rw [hp] at hne
      simp only [publicShareFor, hp, ne_eq, not_true, if_false, Scheme.deal, if_neg hne]
    · simp only [publicShareFor, ne_eq, hp, not_false_eq_true, if_true, update_abs2sh (Ne.symm hp),
        Scheme.deal, hv p hp]
  rw [hdeal]
  exact ⟨⟨_, rfl⟩, (reconstruct_deal _ _).trans (combine_publicPart binary _ a)⟩

end Fantastic4PC

/-! The protocols beside the sources of their conversions. -/

abbrev beaver2PCConverting (stacked : Bool) (w : ℕ) : Protocol w :=
  (beaver2PC stacked w).beside Beaver2PC.ConversionSource Beaver2PC.ConversionCorrelated
    ⟨fun i => by simp [Embedding.read, Beaver2PC.mulTriples], fun _ _ _ _ _ => rfl⟩

abbrev replicated3PCConverting (w : ℕ) : Protocol w :=
  (replicated3PC w).beside (Group 2) GroupCorrelated fun _ _ _ _ _ => rfl

abbrev fantastic4PCConverting (w : ℕ) : Protocol w :=
  (fantastic4PC w).beside (Group 3) GroupCorrelated fun _ _ _ _ _ => rfl

abbrev beaver2PCConverter (stacked : Bool) (w : ℕ) : Converter (beaver2PCConverting stacked w) where
  redistributeSharesB := fun p x => (Beaver2PC.redistributeSharesB p x).embed Embedding.secondSource
  uncheckedOpenB := fun p x => (Beaver2PC.openShares true p x).embed Embedding.firstSource
  b2aBit := fun p x =>
    ((Beaver2PC.b2aBit stacked p x).embed Beaver2PC.mulTriples).embed Embedding.secondSource
  getGroups := Beaver2PC.getGroups
  populateCommonRandom := fun n g => (Proc.draw (.common g) n .done).embed Embedding.secondSource
  publicShare := Beaver2PC.publicShareFor
  redistributeSharesB_computes := fun hx =>
    (Beaver2PC.computes_redistributeSharesB hx).embed Embedding.secondSource_respects
  uncheckedOpenB_computes := fun hx =>
    (@Beaver2PC.computes_openShares _ _ _ true _ _ hx).embed Embedding.firstSource_respects
  b2aBit_computes := fun hx => ((Beaver2PC.computes_b2aBit stacked hx).embed
    Beaver2PC.mulTriples_respects).embed Embedding.secondSource_respects
  populateCommonRandom_computes := fun _ _ hg => absurd hg List.not_mem_nil
  publicShare_opens := fun _ _ hg => absurd hg List.not_mem_nil
  publicShare_all := fun binary a => by
    simp only [Beaver2PC.publicShareFor_empty]
    exact Beaver2PC.publicShare_opens binary a

abbrev replicated3PCConverter (w : ℕ) : Converter (replicated3PCConverting w) where
  redistributeSharesB := fun p x =>
    (Replicated3PC.redistributeSharesB p x).embed Embedding.firstSource
  uncheckedOpenB := fun p x => Replicated3PC.openShares true p x
  b2aBit := fun p x => (Replicated3PC.b2aBit p x).embed Embedding.firstSource
  getGroups := Replicated3PC.getGroups
  populateCommonRandom := fun n g => (Proc.draw g n .done).embed Embedding.secondSource
  publicShare := Replicated3PC.publicShareFor
  redistributeSharesB_computes := fun hx =>
    (Replicated3PC.computes_redistributeSharesB hx).embed Embedding.firstSource_respects
  uncheckedOpenB_computes := fun hx => @Replicated3PC.computes_openShares _ _ _ _ _ true _ _ hx
  b2aBit_computes := fun hx =>
    (Replicated3PC.computes_b2aBit hx).embed Embedding.firstSource_respects
  populateCommonRandom_computes := fun n g _ => computes_commonRandom rfl n g
  publicShare_opens := fun binary g hg _ => Replicated3PC.publicShareFor_opens binary fun p =>
    ⟨fun hp => if_pos ((Replicated3PC.mem_of_publicPart g hg p).1 hp),
      fun hp => if_pos ((Replicated3PC.mem_of_publicPart g hg p).2 hp)⟩
  publicShare_all := fun binary _ =>
    Replicated3PC.publicShareFor_opens binary fun _ => ⟨fun _ => rfl, fun _ => rfl⟩

abbrev fantastic4PCConverter (w : ℕ) : Converter (fantastic4PCConverting w) where
  redistributeSharesB := fun p x =>
    (Fantastic4PC.redistributeSharesB p x).embed Embedding.firstSource
  uncheckedOpenB := fun p x => (Fantastic4PC.openSharesE true p x).embed Embedding.firstSource
  b2aBit := fun p x => (Fantastic4PC.b2aBit p x).embed Embedding.firstSource
  getGroups := Fantastic4PC.getGroups
  populateCommonRandom := fun n g => (Proc.draw g n .done).embed Embedding.secondSource
  publicShare := Fantastic4PC.publicShareFor
  redistributeSharesB_computes := fun hx =>
    (Fantastic4PC.computes_redistributeSharesB hx).embed Embedding.firstSource_respects
  uncheckedOpenB_computes := fun hx =>
    (@Fantastic4PC.computes_openSharesE _ _ _ true _ _ hx).embed Embedding.firstSource_respects
  b2aBit_computes := fun hx =>
    (Fantastic4PC.computes_b2aBit hx).embed Embedding.firstSource_respects
  populateCommonRandom_computes := fun n g _ => computes_commonRandom rfl n g
  publicShare_opens := fun binary g hg _ => Fantastic4PC.publicShareFor_opens binary fun p hp =>
    if_pos (Fantastic4PC.mem_of_ne_publicPart g hg p hp)
  publicShare_all := fun binary _ => Fantastic4PC.publicShareFor_opens binary fun _ _ => rfl

namespace ProtocolName

abbrev converting (w : ℕ) : ProtocolName → Protocol w
  | beaver2PC stacked => beaver2PCConverting stacked w
  | replicated3PC => replicated3PCConverting w
  | fantastic4PC => fantastic4PCConverting w

abbrev converter (w : ℕ) : (name : ProtocolName) → Converter (name.converting w)
  | beaver2PC stacked => beaver2PCConverter stacked w
  | replicated3PC => replicated3PCConverter w
  | fantastic4PC => fantastic4PCConverter w

end ProtocolName

section Conversions

variable {w n : ℕ}

/-- Both conversions keep the value, one after the other too, and the sign test is exact. -/
theorem conversions_correct (name : ProtocolName) (hw : 0 < w) (rcaFaster : Bool)
    {x : (name.converting w).scheme.Shares (Vec w n)} {a : Vec w n} :
    (OpensA x a →
      (name.converting w).Ensures (fun p => (name.converter w).a2b rcaFaster p (x p))
        (fun z => OpensB z a) ∧
      (name.converting w).Ensures (fun p => do
          let y ← (name.converter w).a2b rcaFaster p (x p)
          (name.converter w).b2a rcaFaster p y)
        (fun z => OpensA z a) ∧
      (name.converting w).Ensures (fun p => (name.converter w).gtezA p (x p))
        fun z => OpensA z fun k => if 0 ≤ (a k).toInt then 1 else 0) ∧
    (OpensB x a →
      (name.converting w).Ensures (fun p => (name.converter w).b2a rcaFaster p (x p))
        (fun z => OpensA z a) ∧
      (name.converting w).Ensures (fun p => do
          let y ← (name.converter w).b2a rcaFaster p (x p)
          (name.converter w).a2b rcaFaster p y)
        fun z => OpensB z a) := by
  refine ⟨fun hx => ⟨?_, ?_, ?_⟩, fun hx => ⟨?_, ?_⟩⟩
  · exact Converter.a2b_computes hw hx
  · exact (Converter.a2b_computes hw hx).bind fun _ hy => Converter.b2a_computes hw hy
  · exact Converter.gtezA_computes hw hx
  · exact Converter.b2a_computes hw hx
  · exact (Converter.b2a_computes hw hx).bind fun _ hy => Converter.a2b_computes hw hy

/-- Shares of minus one. -/
def minusOneShares : Replicated3PC.scheme.Shares (Vec 8 1) :=
  Scheme.deal ![![200], ![100], ![211]]

theorem conversions_correct_minus_one :
    ((replicated3PCConverting 8).Ensures
        (fun p => (replicated3PCConverter 8).a2b false p (minusOneShares p))
        (fun z => OpensB z ![255]) ∧
      (replicated3PCConverting 8).Ensures (fun p => do
          let y ← (replicated3PCConverter 8).a2b false p (minusOneShares p)
          (replicated3PCConverter 8).b2a false p y)
        (fun z => OpensA z ![255]) ∧
      (replicated3PCConverting 8).Ensures
        (fun p => (replicated3PCConverter 8).gtezA p (minusOneShares p))
        fun z => OpensA z fun k => if 0 ≤ ((![255] : Vec 8 1) k).toInt then 1 else 0) ∧
    (replicated3PCConverting 8).Ensures
      (fun p => (replicated3PCConverter 8).b2a true p (minusOneShares p))
      fun z => OpensA z ![127] := by
  have hsum : OpensA minusOneShares ![255] := ⟨⟨_, rfl⟩, by decide⟩
  have hxor : OpensB minusOneShares ![127] := ⟨⟨_, rfl⟩, by decide⟩
  exact ⟨(conversions_correct .replicated3PC (by decide) false).1 hsum,
    ((conversions_correct .replicated3PC (by decide) true).2 hxor).1⟩

end Conversions

end CryptDough
