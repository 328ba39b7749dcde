import CryptDough.ProcessStreams
import CryptDough.ResharingProtocols

/-! Resharing for any number of parties and any replication: the assignments that senders and receivers
generate each on their own describe the same traffic, and after it all parties hold a sharing of what
the group held. -/

namespace CryptDough

open Process Sharing Communicator ProtocolBase ZeroSharingGenerator

local instance (priority := high) resharers (last : ℕ) : @NeZero ℕ Zero.ofOfNat0 (last + 1) :=
  ⟨last.succ_ne_zero⟩

namespace ProtocolBase

variable {last rep : ℕ}

section Sender

variable (rep) in
/-- The first member of the group that has a share. -/
def firstHolder (group : Group last) (s : Fin (last + 1)) : Option (Fin (last + 1)) :=
  (sharePartyMap rep s).find? (· ∈ group)

variable {group : Group last} {p q s : Fin (last + 1)}

theorem mem_sharePartyMap : p ∈ sharePartyMap rep s ↔ s ∈ partyShareMap rep p := by
  simp [sharePartyMap]

theorem firstHolder_mem (hfirst : firstHolder rep group s = some p) :
    p ∈ group ∧ s ∈ partyShareMap rep p := by
  refine ⟨?_, mem_sharePartyMap.mp (List.mem_of_find?_eq_some hfirst)⟩
  simpa using List.find?_some hfirst

/-- A group that has all the shares has a sender for each. -/
theorem exists_firstHolder (hcover : ∀ s, ∃ p ∈ group, s ∈ partyShareMap rep p)
    (s : Fin (last + 1)) : ∃ p, firstHolder rep group s = some p := by
  obtain ⟨p, hp, hs⟩ := hcover s
  have hsome : (firstHolder rep group s).isSome :=
    List.find?_isSome.mpr ⟨p, mem_sharePartyMap.mpr hs, by simpa using hp⟩
  exact Option.isSome_iff_exists.mp hsome

/-- Of the members that have a share, the canonical one is the first. -/
theorem isCanonical_iff (hp : p ∈ group) (hs : s ∈ partyShareMap rep p) :
    isCanonical rep p group s = true ↔ firstHolder rep group s = some p := by
  obtain ⟨q, hq⟩ : ∃ q, firstHolder rep group s = some q :=
    Option.isSome_iff_exists.mp
      (List.find?_isSome.mpr ⟨p, mem_sharePartyMap.mpr hs, by simpa using hp⟩)
  have hfind : (sharePartyMap rep s).find? (· ∈ group) = some q := hq
  rw [hq, isCanonical, hfind, decide_eq_true_iff, Option.some.injEq]

/-- The shares of a party are different while there are enough of them. -/
theorem partyShare_injective (hrep : rep ≤ last) (p : Fin (last + 1)) :
    Function.Injective (partyShare p : Fin (rep + 1) → Fin (last + 1)) := by
  intro j k hjk
  have hval := congrArg Fin.val hjk
  simp only [partyShare, Fin.ofNat, Fin.val_mk] at hval
  have hj := j.isLt
  have hk := k.isLt
  have hp := p.isLt
  apply Fin.ext
  rcases Nat.lt_or_ge (p.val + j.val) (last + 1) with hlt | hge
  · rcases Nat.lt_or_ge (p.val + k.val) (last + 1) with hlt' | hge'
    · rw [Nat.mod_eq_of_lt hlt, Nat.mod_eq_of_lt hlt'] at hval
      omega
    · rw [Nat.mod_eq_of_lt hlt, Nat.mod_eq_sub_mod hge', Nat.mod_eq_of_lt (by omega)] at hval
      omega
  · rcases Nat.lt_or_ge (p.val + k.val) (last + 1) with hlt' | hge'
    · rw [Nat.mod_eq_of_lt hlt', Nat.mod_eq_sub_mod hge, Nat.mod_eq_of_lt (by omega)] at hval
      omega
    · rw [Nat.mod_eq_sub_mod hge, Nat.mod_eq_sub_mod hge', Nat.mod_eq_of_lt (by omega),
        Nat.mod_eq_of_lt (by omega)] at hval
      omega

theorem nodup_partyShareMap (hrep : rep ≤ last) (p : Fin (last + 1)) :
    (partyShareMap rep p).Nodup :=
  (List.nodup_finRange _).map (partyShare_injective hrep p)

end Sender

/-! The shares on one ordered pair of parties, in the order in which the first sends them and in the
order in which the second takes them. -/

section Traffic

variable (rep) in
def sentShares (group : Group last) (p q : Fin (last + 1)) : List (Fin (last + 1)) :=
  (generateSendAssignment rep p group).flatMap fun (rank, shareIdx) =>
    if p + rank = q then [partyShare p shareIdx] else []

variable (rep) in
def expectedShares (group : Group last) (q p : Fin (last + 1)) : List (Fin (last + 1)) :=
  ((List.finRange (rep + 1)).zip (generateRecvAssignment rep q group)).flatMap fun (r, rank) =>
    if q + rank = p then [partyShare q r] else []

theorem flatMap_single {α γ : Type} [DecidableEq α] {l : List α} (hl : l.Nodup) (a : α)
    (f : α → List γ) :
    (l.flatMap fun b => if b = a then f b else []) = if a ∈ l then f a else [] := by
  induction l with
  | nil => rfl
  | cons b l ih =>
      rw [List.flatMap_cons, ih hl.of_cons]
      by_cases hb : b = a
      · subst hb
        have hnot : b ∉ l := (List.nodup_cons.mp hl).1
        rw [if_pos rfl, if_neg hnot, if_pos List.mem_cons_self, List.append_nil]
      · simp [hb, Ne.symm hb]

variable {group : Group last} {p q : Fin (last + 1)}

/-- The slot from which a member sends a share, if it is the one that sends it. -/
theorem find_slot (hp : p ∈ group) (s : Fin (last + 1)) {γ : Type} (g : Fin (last + 1) → List γ) :
    (((List.finRange (rep + 1)).find? fun si =>
        partyShare p si = s ∧ isCanonical rep p group (partyShare p si)).toList.flatMap
          fun si => g (partyShare p si)) =
      if firstHolder rep group s = some p then g s else [] := by
  by_cases hfirst : firstHolder rep group s = some p
  · have hs := (firstHolder_mem hfirst).2
    obtain ⟨si, -, hsi⟩ := List.mem_map.mp hs
    have hcan : isCanonical rep p group s = true := (isCanonical_iff hp hs).mpr hfirst
    have hsome : ((List.finRange (rep + 1)).find? fun si =>
        partyShare p si = s ∧ isCanonical rep p group (partyShare p si)).isSome :=
      List.find?_isSome.mpr ⟨si, List.mem_finRange si, by simp [hsi, hcan]⟩
    obtain ⟨sj, hsj⟩ := Option.isSome_iff_exists.mp hsome
    have hshare := List.find?_some hsj
    simp only [decide_eq_true_eq] at hshare
    rw [hsj, if_pos hfirst]
    change g (partyShare p sj) ++ [] = g s
    rw [hshare.1, List.append_nil]
  · have hnone : ((List.finRange (rep + 1)).find? fun si =>
        partyShare p si = s ∧ isCanonical rep p group (partyShare p si)) = none := by
      refine List.find?_eq_none.mpr fun si _ hsi => hfirst ?_
      simp only [decide_eq_true_eq] at hsi
      obtain ⟨rfl, hcan⟩ := hsi
      exact (isCanonical_iff hp (List.mem_map_of_mem (List.mem_finRange si))).mp hcan
    rw [hnone, if_neg hfirst]
    rfl

variable (rep) in
/-- What a member sends to a party outside: of that party's shares, in its order, those the member is
the first to hold. -/
theorem flatMap_generateSendAssignment (hp : p ∈ group) {γ : Type} (g : Fin (last + 1) → List γ) :
    ((generateSendAssignment rep p group).flatMap fun (rank, shareIdx) =>
        if p + rank = q then g (partyShare p shareIdx) else []) =
      if q ∈ group then [] else (partyShareMap rep q).flatMap fun s =>
        if firstHolder rep group s = some p then g s else [] := by
  unfold generateSendAssignment
  rw [List.flatMap_assoc]
  have hblock (q' : Fin (last + 1)) :
      (((partyShareMap rep q').filterMap fun qs =>
          ((List.finRange (rep + 1)).find? fun si =>
            partyShare p si = qs ∧ isCanonical rep p group (partyShare p si)).map fun si =>
              (q' - p, si)).flatMap fun (rank, shareIdx) =>
                if p + rank = q then g (partyShare p shareIdx) else []) =
        if q' = q then (partyShareMap rep q').flatMap fun s =>
          if firstHolder rep group s = some p then g s else [] else [] := by
    rw [List.filterMap_eq_flatMap_toList, List.flatMap_assoc]
    by_cases hq : q' = q
    · subst hq
      rw [if_pos rfl]
      refine List.flatMap_congr fun s _ => ?_
      rw [← find_slot hp s g, Option.toList_map, List.flatMap_map]
      simp only [add_sub_cancel, if_true]
    · rw [if_neg hq]
      refine List.flatMap_eq_nil_iff.mpr fun s _ => ?_
      rw [Option.toList_map, List.flatMap_map]
      simp [hq]
  simp only [hblock]
  rw [flatMap_single ((List.nodup_finRange _).filter _)]
  by_cases hq : q ∈ group
  · simp [hq]
  · simp [hq]

variable (rep) in
/-- The party a share comes from. -/
def sender (group : Group last) (s : Fin (last + 1)) : Fin (last + 1) :=
  (firstHolder rep group s).getD 0

theorem firstHolder_eq (hcover : ∀ s, ∃ p ∈ group, s ∈ partyShareMap rep p) (s : Fin (last + 1)) :
    firstHolder rep group s = some (sender rep group s) := by
  obtain ⟨p, hp⟩ := exists_firstHolder hcover s
  rw [sender, hp]
  rfl

theorem generateRecvAssignment_eq (hcover : ∀ s, ∃ p ∈ group, s ∈ partyShareMap rep p)
    (q : Fin (last + 1)) :
    generateRecvAssignment rep q group =
      (List.finRange (rep + 1)).map fun r => sender rep group (partyShare q r) - q := by
  unfold generateRecvAssignment partyShareMap
  rw [List.filterMap_map, ← List.filterMap_eq_map]
  refine List.filterMap_congr fun r _ => ?_
  change (firstHolder rep group (partyShare q r)).map _ = _
  rw [firstHolder_eq hcover]
  rfl

theorem zip_generateRecvAssignment (hcover : ∀ s, ∃ p ∈ group, s ∈ partyShareMap rep p)
    (q : Fin (last + 1)) :
    (List.finRange (rep + 1)).zip (generateRecvAssignment rep q group) =
      (List.finRange (rep + 1)).map fun r => (r, sender rep group (partyShare q r) - q) := by
  rw [generateRecvAssignment_eq hcover, ← List.map_prod_left_eq_zip]

theorem flatMap_ite_singleton {α : Type} (P : α → Prop) [DecidablePred P] (l : List α) :
    (l.flatMap fun a => if P a then [a] else []) = l.filter fun a => P a := by
  induction l with
  | nil => rfl
  | cons a l ih =>
      rw [List.flatMap_cons, ih, List.filter_cons]
      by_cases ha : P a
      · rw [if_pos ha, if_pos (decide_eq_true ha)]
        rfl
      · rw [if_neg ha, if_neg (by simpa using ha)]
        rfl

theorem expectedShares_eq (hcover : ∀ s, ∃ p ∈ group, s ∈ partyShareMap rep p) :
    expectedShares rep group q p =
      (partyShareMap rep q).filter fun s => sender rep group s = p := by
  rw [← flatMap_ite_singleton, expectedShares, zip_generateRecvAssignment hcover, partyShareMap,
    List.flatMap_map, List.flatMap_map]
  simp only [add_sub_cancel]

theorem sentShares_eq (hcover : ∀ s, ∃ p ∈ group, s ∈ partyShareMap rep p) (hp : p ∈ group) :
    sentShares rep group p q = if q ∈ group then []
      else (partyShareMap rep q).filter fun s => sender rep group s = p := by
  rw [← flatMap_ite_singleton]
  refine (flatMap_generateSendAssignment rep hp fun s => [s]).trans ?_
  simp only [firstHolder_eq hcover, Option.some.injEq]

/-- Each share of a party outside is sent to it once, by its sender. -/
theorem count_sentShares (hrep : rep ≤ last)
    (hcover : ∀ s, ∃ p ∈ group, s ∈ partyShareMap rep p) (hp : p ∈ group) (hq : q ∉ group)
    {s : Fin (last + 1)} (hs : s ∈ partyShareMap rep q) :
    (sentShares rep group p q).count s = if p = sender rep group s then 1 else 0 := by
  rw [sentShares_eq hcover hp, if_neg hq]
  by_cases hsender : sender rep group s = p
  · rw [if_pos hsender.symm, List.count_filter (by simpa using hsender)]
    exact List.count_eq_one_of_mem (nodup_partyShareMap hrep q) hs
  · rw [if_neg (Ne.symm hsender)]
    exact List.count_eq_zero_of_not_mem fun hmem =>
      hsender (by simpa using (List.mem_filter.mp hmem).2)

end Traffic

end ProtocolBase

/-! The messages themselves. -/

section Messages

variable {S : Scheme} {Source : Type} [DecidableEq Source] {w n : ℕ}

theorem flush_sendAll (partyID : S.Party) (v : EVec S w n) (sent : List (S.Party × S.Slot))
    (tape : Source → ℕ → BitVec w) :
    ((sendAll partyID v sent >>= fun _ => pure v : Proc S.Party Source (BitVec w) (EVec S w n)).flush
        tape) =
      (.done v, fun q : S.Party => sent.flatMap fun (rank, shareIdx) =>
        if partyID + rank = q then List.ofFn (v shareIdx) else [], tape) := by
  induction sent with
  | nil => rfl
  | cons a sent ih =>
      change (Proc.send (partyID + a.1) n (v a.2) (sendAll partyID v sent >>= fun _ => pure v)).flush
        tape = _
      rw [Proc.flush, ih]
      refine Prod.ext rfl (Prod.ext (funext fun q => ?_) rfl)
      change (if q = partyID + a.1 then List.ofFn (v a.2) else []) ++ _ = _
      rw [if_congr eq_comm rfl rfl]
      rfl

omit [DecidableEq Source] in
/-- A party takes the shares of its slots from their senders, each sender's in the order sent. -/
theorem take_receiveBroadcast (partyID : S.Party) (src : S.Slot → S.Party) (share : S.Slot → Vec w n)
    (slots : List S.Slot) (v : EVec S w n) {ins : S.Party → List (BitVec w)}
    (hins : ∀ p, ins p = slots.flatMap fun r => if src r = p then List.ofFn (share r) else []) :
    (receiveBroadcast partyID v (slots.map fun r => (r, src r - partyID)) :
        Proc S.Party Source (BitVec w) (EVec S w n)).take ins =
      some (fun r => if r ∈ slots then share r else v r, fun _ => []) := by
  induction slots generalizing v ins with
  | nil =>
      have hempty : ins = fun _ => [] := funext hins
      rw [hempty]
      rfl
  | cons r slots ih =>
      let rest (p : S.Party) : List (BitVec w) :=
        slots.flatMap fun r => if src r = p then List.ofFn (share r) else []
      have hfront : ins (partyID + (src r - partyID)) =
          List.ofFn (share r) ++ rest (partyID + (src r - partyID)) := by
        rw [hins, List.flatMap_cons, add_sub_cancel, if_pos rfl]
      have hrest (p : S.Party) : Function.update ins (partyID + (src r - partyID))
          (rest (partyID + (src r - partyID))) p = rest p := by
        rw [add_sub_cancel]
        by_cases hp : p = src r
        · rw [hp, Function.update_self]
        · rw [Function.update_of_ne hp, hins, List.flatMap_cons, if_neg (Ne.symm hp)]
          rfl
      refine (Proc.take_recv_append hfront).trans ((ih _ hrest).trans ?_)
      refine congrArg some (Prod.ext (funext fun r' => ?_) rfl)
      change (if r' ∈ slots then share r' else Function.update v r (share r) r') =
        if r' ∈ r :: slots then share r' else v r'
      by_cases hmem : r' ∈ slots
      · rw [if_pos hmem, if_pos (List.mem_cons_of_mem r hmem)]
      · by_cases hr : r' = r
        · rw [if_neg hmem, hr, Function.update_self, if_pos List.mem_cons_self]
        · rw [if_neg hmem, Function.update_of_ne hr, if_neg (by simp [hr, hmem])]

theorem flush_receiveBroadcast (partyID : S.Party) (v : EVec S w n) (ranks : List (S.Slot × S.Party))
    (tape : Source → ℕ → BitVec w) :
    (receiveBroadcast partyID v ranks : Proc S.Party Source (BitVec w) (EVec S w n)).flush tape =
      (receiveBroadcast partyID v ranks, fun _ => [], tape) := by
  cases ranks with
  | nil => rfl
  | cons a ranks => rfl

end Messages

namespace ProtocolBase

variable {last rep : ℕ}

theorem partyShare_zero (p : Fin (last + 1)) : partyShare p (0 : Fin (rep + 1)) = p :=
  Fin.ext (Nat.mod_eq_of_lt p.isLt)

variable (last rep) in
/-- `rep + 1` copies of each share among `last + 1` parties. -/
abbrev replicated : Scheme where
  last := last
  rep := rep
  held := partyShare
  owner := id
  held_owner := partyShare_zero

section Reshare

variable {group : Group last} {w n : ℕ} {x : Fin (last + 1) → Vec w n}
  {v : (replicated last rep).Shares (Vec w n)}

/-- A group that the parties were set up with. -/
abbrev Known (group : Group last) : Prop := group ∈ generateRandomnessGroups last 2 1

theorem known_iff : Known group ↔ group ∈ generateGroups last 2 1 ∨ group = Finset.univ := by
  rw [Known, generateRandomnessGroups, List.mem_append, List.mem_singleton]

/-- Everyone together has nobody to send to, as in the default assignment. -/
theorem reshareMap_member (hknown : Known group) {p : Fin (last + 1)} (hp : p ∈ group) :
    reshareMap rep p group = .send (generateSendAssignment rep p group) := by
  by_cases hfilled : group ∈ generateGroups last 2 1
  · rw [reshareMap, if_neg (not_not.mpr hfilled), if_pos hp]
  · obtain rfl := (known_iff.mp hknown).resolve_left hfilled
    rw [reshareMap, if_pos hfilled]
    simp [generateSendAssignment]

theorem reshareMap_other (hknown : Known group) {p : Fin (last + 1)} (hp : p ∉ group) :
    reshareMap rep p group = .receive (generateRecvAssignment rep p group) := by
  rcases known_iff.mp hknown with hfilled | rfl
  · rw [reshareMap, if_neg (not_not.mpr hfilled), if_neg hp]
  · exact absurd (Finset.mem_univ p) hp

/-- Whoever is outside the group ends up with its shares of what the members hold. -/
theorem runs_route_group (hknown : Known group) (hcover : ∀ s, ∃ p ∈ group, s ∈ partyShareMap rep p)
    (hv : ∀ p ∈ group, ∀ r, v p r = x (partyShare p r))
    (tape : Fin (last + 1) → Group last → ℕ → BitVec w) :
    Runs (fun p : (replicated last rep).Party => route p (v p) (reshareMap rep p group)) tape
      (Scheme.deal x : (replicated last rep).Shares (Vec w n)) tape := by
  let recvs (p : (replicated last rep).Party) := (List.finRange (rep + 1)).map fun r =>
    (r, sender rep group (partyShare p r) - p)
  let out (p q : Fin (last + 1)) : List (BitVec w) :=
    if p ∈ group then if q ∈ group then [] else (partyShareMap rep q).flatMap fun s =>
      if firstHolder rep group s = some p then List.ofFn (x s) else [] else []
  have hflush (p : (replicated last rep).Party) :
      (route p (v p) (reshareMap rep p group)).flush (tape p) =
        (if p ∈ group then .done (v p) else receiveBroadcast p (v p) (recvs p), out p, tape p) := by
    by_cases hp : p ∈ group
    · rw [reshareMap_member hknown hp, if_pos hp]
      refine (flush_sendAll p (v p) _ _).trans (Prod.ext rfl (Prod.ext (funext fun q => ?_) rfl))
      have hsent := flatMap_generateSendAssignment rep (q := q) hp fun s => List.ofFn (x s)
      simp only [out, if_pos hp, ← hsent, hv p hp]
    · rw [reshareMap_other hknown hp, if_neg hp]
      have hnothing : out p = fun _ => [] := funext fun q => if_neg hp
      rw [hnothing]
      change (receiveBroadcast p (v p) ((List.finRange (rep + 1)).zip _)).flush (tape p) = _
      rw [zip_generateRecvAssignment hcover]
      exact flush_receiveBroadcast p (v p) (recvs p) (tape p)
  have htake (p : (replicated last rep).Party) :
      (if p ∈ group then .done (v p) else receiveBroadcast p (v p) (recvs p) :
          Proc _ (Group last) (BitVec w) _).take (fun q => out q p) =
        some (Scheme.deal x p, fun _ => []) := by
    by_cases hp : p ∈ group
    · have hvalue : v p = Scheme.deal x p := funext fun r => hv p hp r
      have hnothing : (fun q => out q p) = fun _ => [] := by
        ext q
        simp only [out, if_pos hp, ite_self]
      rw [if_pos hp, hnothing, hvalue]
      rfl
    · rw [if_neg hp]
      have hins (q : (replicated last rep).Party) : out q p =
          (List.finRange (rep + 1)).flatMap fun r =>
            if sender rep group (partyShare p r) = q then List.ofFn (x (partyShare p r)) else [] := by
        by_cases hq : q ∈ group
        · simp only [out, if_pos hq, if_neg hp, partyShareMap, List.flatMap_map,
            firstHolder_eq hcover, Option.some.injEq]
        · have hnever (r : Fin (rep + 1)) : sender rep group (partyShare p r) ≠ q := fun heq =>
            hq (heq ▸ (firstHolder_mem (firstHolder_eq hcover (partyShare p r))).1)
          simp only [out, if_neg hq]
          exact (List.flatMap_eq_nil_iff.mpr fun r _ => if_neg (hnever r)).symm
      refine (take_receiveBroadcast p (fun r => sender rep group (partyShare p r))
        (fun r => x (partyShare p r)) (List.finRange (rep + 1)) (v p) hins).trans ?_
      refine congrArg some (Prod.ext (funext fun r => ?_) rfl)
      exact if_pos (List.mem_finRange r)
  exact Runs.exchange hflush htake

/-- A sharing of zero on top, the opened value is what it was. -/
theorem computes_reshareAs (hknown : Known group)
    (hcover : ∀ s, ∃ p ∈ group, s ∈ partyShareMap rep p)
    (hv : ∀ p ∈ group, ∀ r, v p r = x (partyShare p r)) (binary : Bool) :
    Computes GroupCorrelated
      (fun p => Protocol.reshareAs (reshareMap rep p group) p (v p) group binary)
      fun y : (replicated last rep).Shares (Vec w n) =>
        OpensE binary y (combine (Vec.plus binary) x) := by
  have hstages : (fun p : (replicated last rep).Party =>
      Protocol.reshareAs (reshareMap rep p group) p (v p) group binary) =
      fun p => (if p ∈ group then rerandomize p group (v p) binary else pure (v p)) >>= fun v' =>
        route p v' (reshareMap rep p group) := by
    ext p
    by_cases hp : p ∈ group
    · rw [reshareMap_member hknown hp, if_pos hp]
      rfl
    · rw [reshareMap_other hknown hp, if_neg hp]
      rfl
  rw [hstages]
  refine (computes_rerandomize (fun _ _ h => h) group v binary).bind fun v' hv' => ?_
  obtain ⟨rand, hzero, hv'⟩ := hv'
  let x' (s : Fin (last + 1)) : Vec w n := Vec.plus binary (x s) (rand s)
  have hmember : ∀ p ∈ group, ∀ r, v' p r = x' (partyShare p r) := by
    intro p hp r
    rw [hv' p r, if_pos hp, hv p hp r]
  refine Computes.of_runs fun tape hcorr => ⟨_, tape, runs_route_group hknown hcover hmember tape,
    hcorr, ⟨_, rfl⟩, ?_⟩
  have hopened : Scheme.reconstruct (Vec.plus binary)
      (Scheme.deal x' : (replicated last rep).Shares (Vec w n)) = combine (Vec.plus binary) x' :=
    congrArg _ (funext fun p => congrArg x' (partyShare_zero p))
  rw [hopened, combine_op, hzero, Vec.plus_zero]

theorem reshare_eq_some (hknown : Known group) (p : (replicated last rep).Party)
    (v : EVec (replicated last rep) w n) (binary : Bool) :
    Protocol.reshare p v group binary =
      some (Protocol.reshareAs (reshareMap rep p group) p v group binary) := by
  unfold Protocol.reshare
  by_cases hp : p ∈ group
  · have hhas : CommonPRGManager.hasGroup p group := .inr ⟨hp, hknown⟩
    rw [reshareMap_member hknown hp]
    exact if_pos hhas
  · rw [reshareMap_other hknown hp]

/-- A party outside a group that is not set up sends, by default, and has no generator for it. -/
theorem reshare_eq_none (hunknown : ¬ Known group) (hnonempty : group.Nonempty) :
    ∃ p : (replicated last rep).Party, ∀ (v : EVec (replicated last rep) w n) (binary : Bool),
      Protocol.reshare p v group binary = none := by
  obtain ⟨hfilled, hall⟩ := not_or.mp (mt known_iff.mpr hunknown)
  obtain ⟨p, hp⟩ : ∃ p, p ∉ group := by
    by_contra hevery
    push Not at hevery
    exact hall (Finset.eq_univ_iff_forall.mpr hevery)
  refine ⟨p, fun v binary => ?_⟩
  have hnone : ¬ CommonPRGManager.hasGroup p group := by
    rintro (hempty | ⟨hmem, -⟩)
    · exact hnonempty.ne_empty hempty
    · exact hp hmem
  have hdefault : reshareMap rep p group = .send [] := if_pos hfilled
  rw [Protocol.reshare, hdefault]
  exact if_neg hnone

end Reshare

section Routes

variable (rep) in
/-- Senders and receivers agree on who sends what, in which order. -/
structure MatchingTraffic (group : Group last) : Prop where
  lengths : ∀ q ∉ group, (generateRecvAssignment rep q group).length = rep + 1
  once : ∀ q ∉ group, ∀ s ∈ partyShareMap rep q, ∃ p ∈ group, s ∈ partyShareMap rep p ∧
    isCanonical rep p group s = true ∧
      ∀ p' ∈ group, (sentShares rep group p' q).count s = if p' = p then 1 else 0
  same_order : ∀ p ∈ group, ∀ q ∉ group, sentShares rep group p q = expectedShares rep group q p
  nothing_inside : ∀ p ∈ group, ∀ q ∈ group, sentShares rep group p q = []

variable (rep) in
/-- What the members hold becomes a sharing of all parties, and the opened value stays. -/
def KeepsValue (group : Group last) : Prop :=
  ∀ {w n : ℕ} (x : Fin (last + 1) → Vec w n) (v : (replicated last rep).Shares (Vec w n))
    (binary : Bool), (∀ p ∈ group, ∀ r, v p r = x (partyShare p r)) →
    ∃ programs, (∀ p, Protocol.reshare p (v p) group binary = some (programs p)) ∧
      Computes GroupCorrelated programs fun y : (replicated last rep).Shares (Vec w n) =>
        OpensE binary y (combine (Vec.plus binary) x)

variable {group : Group last}

theorem matchingTraffic (hrep : rep ≤ last) (hcover : ∀ s, ∃ p ∈ group, s ∈ partyShareMap rep p) :
    MatchingTraffic rep group where
  lengths := fun q _ => by
    rw [generateRecvAssignment_eq hcover, List.length_map, List.length_finRange]
  once := by
    intro q hq s hs
    have hsender := firstHolder_eq hcover s
    obtain ⟨hmem, hholds⟩ := firstHolder_mem hsender
    exact ⟨_, hmem, hholds, (isCanonical_iff hmem hholds).mpr hsender,
      fun p' hp' => count_sentShares hrep hcover hp' hq hs⟩
  same_order := fun p hp q hq => by
    rw [sentShares_eq hcover hp, if_neg hq, expectedShares_eq hcover]
  nothing_inside := fun p hp q hq => by
    rw [sentShares_eq hcover hp, if_pos hq]

theorem keepsValue_iff (hcover : ∀ s, ∃ p ∈ group, s ∈ partyShareMap rep p) :
    KeepsValue rep group ↔ Known group := by
  constructor
  · intro hkeeps
    by_contra hunknown
    obtain ⟨member, hmember, -⟩ := hcover 0
    obtain ⟨p, hnone⟩ : ∃ p, ∀ (v : EVec (replicated last rep) 0 0) (binary : Bool),
        Protocol.reshare p v group binary = none := reshare_eq_none hunknown ⟨member, hmember⟩
    obtain ⟨programs, hprograms, -⟩ :=
      hkeeps (fun _ => 0) (fun _ _ => (0 : Vec 0 0)) false fun _ _ _ => rfl
    exact Option.some_ne_none _ ((hprograms p).symm.trans (hnone _ _))
  · intro hknown w n x v binary hv
    exact ⟨_, fun p => reshare_eq_some hknown p (v p) binary,
      computes_reshareAs hknown hcover hv binary⟩

end Routes

/-- Senders and receivers agree for every group that has all the shares; resharing keeps the value with
the groups that are set up, and throws with any other. -/
theorem reshare_routes (hrep : rep ≤ last) {group : Group last}
    (hcover : ∀ s, ∃ p ∈ group, s ∈ partyShareMap rep p) :
    MatchingTraffic rep group ∧
      (KeepsValue rep group ↔ group ∈ generateGroups last 2 1 ∨ group = Finset.univ) :=
  ⟨matchingTraffic hrep hcover, (keepsValue_iff hcover).trans known_iff⟩

/-- Six parties keep five shares each, and the first two reshare. -/
theorem reshare_routes_example : MatchingTraffic 4 ({0, 1} : Group 5) ∧ KeepsValue 4 ({0, 1} : Group 5) := by
  have hcover : ∀ s, ∃ p ∈ ({0, 1} : Group 5), s ∈ partyShareMap 4 p := by decide
  obtain ⟨htraffic, hkeeps⟩ := reshare_routes (by decide : 4 ≤ 5) hcover
  exact ⟨htraffic, hkeeps.mpr (.inl (by decide))⟩

/-- Parties 1 and 4 of five have all the shares, but were not set up as a group. -/
theorem reshare_unknown_group :
    (∀ s, ∃ p ∈ ({1, 4} : Group 4), s ∈ partyShareMap 2 p) ∧ ¬ KeepsValue 2 ({1, 4} : Group 4) := by
  have hcover : ∀ s, ∃ p ∈ ({1, 4} : Group 4), s ∈ partyShareMap 2 p := by decide
  refine ⟨hcover, fun hkeeps => ?_⟩
  exact absurd ((keepsValue_iff hcover).mp hkeeps) (by decide)

end ProtocolBase

end CryptDough
