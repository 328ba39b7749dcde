import CryptDough.PrefixNetwork
import CryptDough.AdjacentGroups

/-! The aggregation over a prefix network: the loop over its levels ends and stays in range, and what it
leaves in every row is the fold of the operation over the group up to this row. -/

namespace CryptDough

open SegmentedScan hiding Level
open AdjacentGroups

namespace NetworkClass

/-- What the level `i` does to a column of `2 ^ k` rows, seen in the direction of the network. -/
def scanLevel (network : NetworkClass) (reversed : Bool) (k i : ℕ) : SegmentedScan.Level :=
  match network with
  | hillisSteele => strideLevel (if reversed then 2 ^ (k - 1 - i) else 2 ^ i)
  | brentKung => brentKungLevel k i

def levelCount (network : NetworkClass) (k : ℕ) : ℕ :=
  match network with
  | hillisSteele => k
  | brentKung => 2 * k - 1

variable {network : NetworkClass} {dir : Direction} {n : BitVec 64} {k : ℕ}

theorem construct_eq_some_iff {net : PrefixNetwork} :
    network.construct dir n = some net ↔
      (∃ k, k ≤ 30 ∧ n.toNat = 2 ^ k) ∧ network.network (decide (dir = .reverse)) n = net := by
  rw [← isPowerOfTwo_eq_true_iff]
  unfold construct
  cases haccepted : PrefixNetwork.isPowerOfTwo n with
  | none => simp
  | some accepted => cases accepted <;> simp

theorem depth_eq (hn : n.toNat = 2 ^ k) (hk : network = hillisSteele ∨ 0 < k) (reversed : Bool) :
    (network.network reversed n).depth = network.levelCount k := by
  cases network with
  | hillisSteele => exact bitWidth_pred hn
  | brentKung =>
      have hpos : 0 < k := hk.resolve_left (by decide)
      change 2 * bitWidth (n - 1) - 1 = ((2 * k - 1 : ℕ) : ℤ)
      rw [bitWidth_pred hn]
      omega

theorem directed_column (dir : Direction) (N : ℕ) :
    (if decide (dir = .reverse) then View.reversedView (List.range N) else List.range N) =
      (List.range N).map (dir.position N) := by
  cases dir with
  | forward => exact (List.map_id _).symm
  | reverse =>
      have hreverse := @List.reverse_range' 0 N
      rw [← List.range_eq_range', Nat.zero_add] at hreverse
      exact hreverse

theorem level_shows (hn : n.toNat = 2 ^ k) (hk : k ≤ 30)
    (hdepth : (network.network (decide (dir = .reverse)) n).depth = network.levelCount k) {i : ℕ}
    (hi : i < network.levelCount k) :
    ∃ s views T, (network.network (decide (dir = .reverse)) n).levelSize i = some s ∧
      (network.network (decide (dir = .reverse)) n).level i
        (network.network (decide (dir = .reverse)) n).column = some views ∧
      T.length = s.toNat ∧
      Shows (network.scanLevel (decide (dir = .reverse)) k i) (2 ^ k) (dir.position (2 ^ k)) views T := by
  have hguard : (0 : ℤ) ≤ i ∧ (i : ℤ) < (network.network (decide (dir = .reverse)) n).depth := by
    rw [hdepth]
    omega
  unfold PrefixNetwork.level
  rw [guard, if_pos hguard]
  cases network with
  | hillisSteele =>
      obtain ⟨s, views, T, hsize, hlevel, hlen, hshows⟩ :=
        @HillisSteele.level_shows n k i _ hn hk (decide (dir = .reverse)) hi rfl
          (dir.position (2 ^ k))
      refine ⟨s, views, T, hsize, ?_, hlen, hshows⟩
      rw [← directed_column, ← hn] at hlevel
      exact hlevel
  | brentKung =>
      obtain ⟨s, views, T, hsize, hlevel, hlen, hshows⟩ :=
        BrentKung.level_shows hn hk hi (dir.position (2 ^ k))
      refine ⟨s, views, T, hsize, ?_, hlen, hshows⟩
      rw [← directed_column, ← hn] at hlevel
      exact hlevel

end NetworkClass

namespace PrefixNetwork

variable (net : PrefixNetwork)

/-- A loop whose rounds succeed and keep an invariant makes one round for every level. -/
theorem forLevels_returns {σ : Type} {body : Level → σ → Option σ} {d : ℕ} (hdepth : net.depth = d)
    (inv : ℕ → σ → Prop)
    (hstep : ∀ i s, i < d → inv i s →
      ∃ l s', net.deref i = some l ∧ body l s = some s' ∧ inv (i + 1) s')
    {i m : ℕ} (him : i + m = d) {s : σ} (hs : inv i s) :
    ∃ s', net.forLevels body (m + 1) i s = some s' ∧ inv d s' := by
  induction m generalizing i s with
  | zero =>
      refine ⟨s, ?_, ?_⟩
      · rw [forLevels, hdepth, if_neg (by rw [not_not]; omega)]
      · rwa [← him]
  | succ m ih =>
      obtain ⟨l, s', hl, hbody, hinv⟩ := hstep i s (by omega) hs
      obtain ⟨s'', hrest, hlast⟩ := ih (by omega : i + 1 + m = d) hinv
      refine ⟨s'', ?_, hlast⟩
      rw [forLevels, hdepth, if_pos (by omega), hl]
      change (body l s).bind _ = _
      rw [hbody]
      exact hrest

/-- Two loops that return have made the same rounds. -/
theorem forLevels_unique {σ : Type} {body : Level → σ → Option σ} {fuel fuel' : ℕ} {idx : ℤ}
    {s y y' : σ} (hy : net.forLevels body fuel idx s = some y)
    (hy' : net.forLevels body fuel' idx s = some y') : y = y' := by
  induction fuel generalizing fuel' idx s with
  | zero => cases hy
  | succ fuel ih =>
      cases fuel' with
      | zero => cases hy'
      | succ fuel' =>
          rw [forLevels] at hy hy'
          split at hy
          · rename_i hidx
            rw [if_pos hidx] at hy'
            simp only [Option.bind_eq_bind, Option.bind_eq_some_iff] at hy hy'
            obtain ⟨l, hl, s₁, hs₁, hy⟩ := hy
            obtain ⟨l', hl', s₁', hs₁', hy'⟩ := hy'
            obtain rfl := Option.some.inj (hl.symm.trans hl')
            obtain rfl := Option.some.inj (hs₁.symm.trans hs₁')
            exact ih hy hy'
          · rename_i hidx
            rw [if_neg hidx] at hy'
            exact Option.some.inj (hy.symm.trans hy')

section Round

variable {κ β : Type} [DecidableEq κ]

/-- All keys of the two rows agree. -/
def SameKeys (keys : List (ℕ → κ)) (u t : ℕ) : Prop := ∀ key ∈ keys, key u = key t

instance (keys : List (ℕ → κ)) (u t : ℕ) : Decidable (SameKeys keys u t) :=
  inferInstanceAs (Decidable (∀ key ∈ keys, key u = key t))

omit [DecidableEq κ] in
theorem SameKeys_cons (key : ℕ → κ) (keys : List (ℕ → κ)) (u t : ℕ) :
    SameKeys (key :: keys) u t ↔ key u = key t ∧ SameKeys keys u t :=
  List.forall_mem_cons

/-- The same for the positions in the direction of the network. -/
def sameKeys (dir : Direction) (N : ℕ) (keys : List (ℕ → κ)) (u t : ℕ) : Bool :=
  decide (SameKeys keys (dir.position N u) (dir.position N t))

variable {net} {l : SegmentedScan.Level} {N : ℕ} {pos : ℕ → ℕ} {views : View × View} {T : List ℕ}
  {i : ℤ}

theorem keyBits_eq (hlevel : net.level i net.column = some views) (hshows : Shows l N pos views T)
    (size : BitVec 64) (key : ℕ → κ) : net.keyBits ⟨size, i⟩ key =
      some (T.map fun t => decide (key (pos (t - l.gap)) = key (pos t))) := by
  unfold keyBits
  rw [hlevel, hshows.views_eq]
  simp [List.zipWith_map, List.zipWith_self]

theorem groupBits_eq (hlevel : net.level i net.column = some views)
    (hshows : Shows l N pos views T) {size : BitVec 64} (hlen : T.length = size.toNat)
    (keys : List (ℕ → κ)) : net.groupBits keys ⟨size, i⟩ =
      some (T.map fun t => decide (SameKeys keys (pos (t - l.gap)) (pos t))) := by
  have hfold : ∀ (keys : List (ℕ → κ)) (p : ℕ → Prop) [DecidablePred p],
      keys.foldlM (fun bits key => do
        let equal ← net.keyBits ⟨size, i⟩ key
        pure (List.zipWith (· && ·) bits equal)) (T.map fun t => decide (p t)) =
      some (T.map fun t => decide (p t ∧ SameKeys keys (pos (t - l.gap)) (pos t))) := by
    intro keys
    induction keys with
    | nil =>
        intro p _
        simp [SameKeys]
    | cons key keys ih =>
        intro p _
        rw [List.foldlM_cons, keyBits_eq hlevel hshows]
        have hnext := ih fun t => p t ∧ key (pos (t - l.gap)) = key (pos t)
        simp only [Option.bind_eq_bind, Option.bind_some, List.zipWith_map, List.zipWith_self,
          Option.pure_def, ← Bool.decide_and]
        apply hnext.trans
        simp only [SameKeys_cons, and_assoc]
  cases keys with
  | nil => simp [groupBits, SameKeys, ← hlen]
  | cons key keys =>
      have hall := hfold keys fun t => key (pos (t - l.gap)) = key (pos t)
      change (net.keyBits ⟨size, i⟩ key).bind _ = _
      rw [keyBits_eq hlevel hshows, Option.bind_some]
      apply hall.trans
      simp only [SameKeys_cons]

theorem levelStep_scan {dir : Direction} (hlevel : net.level i net.column = some views)
    (hshows : Shows l N (dir.position N) views T) {size : BitVec 64} (hlen : T.length = size.toNat)
    (keys : List (ℕ → κ)) (op : β → β → β) (x : ℕ → β) :
    ∃ y, net.levelStep keys op ⟨size, i⟩ x = some y ∧
      ∀ t, t < N → y (dir.position N t) =
        scanStep op (sameKeys dir N keys) l (fun t => x (dir.position N t)) t := by
  have hposition : ∀ u t, u < N → t < N → dir.position N u = dir.position N t → u = t := by
    intro u t hu ht heq
    cases dir with
    | forward => exact heq
    | reverse =>
        have heq : N - 1 - u = N - 1 - t := heq
        omega
  have hlt : ∀ t ∈ T, t < N := fun t ht => ((hshows.mem_iff t).mp ht).1
  have hnodup : (T.map (dir.position N)).Nodup :=
    hshows.nodup.map_on fun u hu t ht => hposition u t (hlt u hu) (hlt t ht)
  refine ⟨assignView x (T.map (dir.position N)) (T.map fun t =>
    if SameKeys keys (dir.position N (t - l.gap)) (dir.position N t) then
      op (x (dir.position N (t - l.gap))) (x (dir.position N t)) else x (dir.position N t)), ?_,
    fun t ht => ?_⟩
  · unfold levelStep
    rw [groupBits_eq hlevel hshows hlen, hlevel, hshows.views_eq]
    simp [List.zip_map', List.zipWith_map, List.zipWith_self]
  · by_cases hmem : t ∈ T
    · rw [assignView_of_mem x _ hnodup hmem]
      simp [scanStep, sameKeys, ((hshows.mem_iff t).mp hmem).2]
    · have hnot : dir.position N t ∉ T.map (dir.position N) := by
        intro hbad
        obtain ⟨u, hu, heq⟩ := List.mem_map.mp hbad
        exact hmem (hposition u t (hlt u hu) ht heq ▸ hu)
      have htarget : l.target t = false :=
        Bool.eq_false_iff.mpr fun htrue => hmem ((hshows.mem_iff t).mpr ⟨ht, htrue⟩)
      rw [assignView_of_notMem x _ hnot, scanStep_of_not_target l _ htarget]

end Round

/-- The loop over the levels is the scan in the direction of the network. -/
theorem aggregateLevels_scan {κ β : Type} [DecidableEq κ] {network : NetworkClass} {dir : Direction}
    {n : BitVec 64} {k : ℕ} (hn : n.toNat = 2 ^ k) (hk : k ≤ 30)
    (hdepth : (network.network (decide (dir = .reverse)) n).depth = network.levelCount k)
    (keys : List (ℕ → κ)) (op : β → β → β) (x : ℕ → β) :
    ∃ y, (network.network (decide (dir = .reverse)) n).aggregateLevels keys op
        (network.levelCount k + 1) x = some y ∧
      ∀ t, t < 2 ^ k → y (dir.position (2 ^ k) t) =
        scan op (sameKeys dir (2 ^ k) keys)
          ((List.range (network.levelCount k)).map
            (network.scanLevel (decide (dir = .reverse)) k))
          (fun t => x (dir.position (2 ^ k) t)) t := by
  refine forLevels_returns _ hdepth (fun i (y : ℕ → β) => ∀ t, t < 2 ^ k → y (dir.position (2 ^ k) t) =
    scan op (sameKeys dir (2 ^ k) keys)
      ((List.range i).map (network.scanLevel (decide (dir = .reverse)) k))
      (fun t => x (dir.position (2 ^ k) t)) t) (fun i y hi hy => ?_) (Nat.zero_add _) fun t _ => rfl
  obtain ⟨s, views, T, hsize, hlevel, hlen, hshows⟩ := NetworkClass.level_shows hn hk hdepth hi
  obtain ⟨y', hstep, hy'⟩ := levelStep_scan hlevel hshows hlen keys op y
  refine ⟨⟨s, i⟩, y', ?_, hstep, fun t ht => ?_⟩
  · rw [deref, hsize]
    rfl
  · rw [hy' t ht, scan_range_succ]
    have hsource : t - (network.scanLevel (decide (dir = .reverse)) k i).gap < 2 ^ k :=
      lt_of_le_of_lt (Nat.sub_le t _) ht
    unfold scanStep
    simp only [hy t ht, hy _ hsource]

/-- The range loop makes `depth` rounds, every level it visits is one of the network, and has the size
of its two views. -/
structure IteratesInRange (net : PrefixNetwork) : Prop where
  depth_nonneg : 0 ≤ net.depth
  steps : ∃ fuel levels,
    net.forLevels (fun l levels => some (levels ++ [l])) fuel 0 [] = some levels ∧
      levels.map Level.i = (List.range net.depth.toNat).map Int.ofNat
  sizes : ∀ i, 0 ≤ i → i < net.depth → ∃ size views, net.levelSize i = some size ∧
    net.level i net.column = some views ∧ views.1.length = size.toNat ∧
      views.2.length = size.toNat
  aggregates : ∀ (κ β : Type) [DecidableEq κ] (keys : List (ℕ → κ)) (op : β → β → β) (x : ℕ → β),
    ∃ fuel y, net.aggregateLevels keys op fuel x = some y

theorem iteratesInRange_of_depth {network : NetworkClass} {dir : Direction} {n : BitVec 64} {k : ℕ}
    (hn : n.toNat = 2 ^ k) (hk : k ≤ 30)
    (hdepth : (network.network (decide (dir = .reverse)) n).depth = network.levelCount k) :
    IteratesInRange (network.network (decide (dir = .reverse)) n) := by
  constructor
  · rw [hdepth]
    exact Int.natCast_nonneg _
  · have hstep : ∀ i (levels : List Level), i < network.levelCount k →
        levels.map Level.i = (List.range i).map Int.ofNat → ∃ l levels',
          (network.network (decide (dir = .reverse)) n).deref i = some l ∧
          some (levels ++ [l]) = some levels' ∧
          levels'.map Level.i = (List.range (i + 1)).map Int.ofNat := by
      intro i levels hi hlevels
      obtain ⟨s, -, -, hsize, -⟩ := NetworkClass.level_shows hn hk hdepth hi
      refine ⟨⟨s, i⟩, _, ?_, rfl, ?_⟩
      · rw [deref, hsize]
        rfl
      · rw [List.map_append, hlevels, List.range_succ, List.map_append]
        rfl
    obtain ⟨levels, hlevels, hindices⟩ :=
      forLevels_returns (network.network (decide (dir = .reverse)) n) hdepth _ hstep
        (Nat.zero_add _) (rfl : List.map Level.i [] = (List.range 0).map Int.ofNat)
    exact ⟨_, levels, hlevels, by rw [hindices, hdepth, Int.toNat_natCast]⟩
  · intro i hi hlt
    obtain ⟨j, rfl⟩ := Int.eq_ofNat_of_zero_le hi
    rw [hdepth] at hlt
    obtain ⟨s, views, T, hsize, hlevel, hlen, hshows⟩ :=
      NetworkClass.level_shows hn hk hdepth (Int.ofNat_lt.mp hlt)
    refine ⟨s, views, hsize, hlevel, ?_, ?_⟩
    · rw [hshows.views_eq, List.length_map, hlen]
    · rw [hshows.views_eq, List.length_map, hlen]
  · intro κ β _ keys op x
    obtain ⟨y, hy, -⟩ := aggregateLevels_scan hn hk hdepth keys op x
    exact ⟨_, y, hy⟩

/-- With one row the Brent-Kung network has depth `-1`, and its first level is already undefined. -/
theorem forLevels_brentKung_one {σ : Type} (reversed : Bool) (body : Level → σ → Option σ)
    (fuel : ℕ) (s : σ) :
    (NetworkClass.brentKung.network reversed 1).forLevels body fuel 0 s = none := by
  cases fuel with
  | zero => rfl
  | succ fuel => rfl

/-- The range loop is as expected for all sizes that are accepted, except for the Brent-Kung network of
one row. -/
theorem iteratesInRange_iff (network : NetworkClass) (dir : Direction) (n : BitVec 64)
    (net : PrefixNetwork) (hnet : network.construct dir n = some net) :
    IteratesInRange net ↔ network = .hillisSteele ∨ n ≠ 1 := by
  obtain ⟨⟨k, hk, hn⟩, rfl⟩ := NetworkClass.construct_eq_some_iff.mp hnet
  constructor
  · intro hrange
    by_contra hnot
    push Not at hnot
    obtain ⟨hclass, rfl⟩ := hnot
    have hbrentKung : network = .brentKung := by
      cases network with
      | hillisSteele => exact absurd rfl hclass
      | brentKung => rfl
    subst hbrentKung
    have hnonneg : 0 ≤ BrentKung.depth 1 := hrange.depth_nonneg
    exact absurd hnonneg (by decide)
  · intro hcases
    refine iteratesInRange_of_depth hn hk (NetworkClass.depth_eq hn ?_ _)
    refine hcases.imp_right fun hne => Nat.pos_of_ne_zero fun hzero => hne ?_
    apply BitVec.eq_of_toNat_eq
    rw [hn, hzero]
    rfl

theorem iteratesInRange_iff_two : IteratesInRange (NetworkClass.brentKung.network true 2) ↔
    NetworkClass.brentKung = .hillisSteele ∨ (2 : BitVec 64) ≠ 1 :=
  iteratesInRange_iff .brentKung .reverse 2 _ rfl

/-- The aggregation of a table of one row does not return. -/
theorem iteratesInRange_fails :
    ¬ ∀ (network : NetworkClass) (dir : Direction) (n : BitVec 64) (net : PrefixNetwork),
      network.construct dir n = some net → IteratesInRange net := by
  intro hall
  obtain ⟨fuel, y, hy⟩ := (hall .brentKung .forward 1 _ rfl).aggregates ℕ ℕ [] (· + ·) id
  have hnone := forLevels_brentKung_one false
    ((NetworkClass.brentKung.network false 1).levelStep ([] : List (ℕ → ℕ)) (· + ·)) fuel id
  rw [aggregateLevels] at hy
  exact absurd (hnone.symm.trans hy) (by simp)

section Folds

variable {κ β : Type} [DecidableEq κ]

/-- Rows with the same keys are adjacent. -/
def Contiguous (keys : List (ℕ → κ)) (N : ℕ) : Prop :=
  ∀ i j l, i ≤ j → j ≤ l → l < N → SameKeys keys i l → SameKeys keys i j

/-- The rows of the group of `i` up to `i`, in the direction of the aggregation. -/
def groupUpTo (dir : Direction) (N : ℕ) (keys : List (ℕ → κ)) (i : ℕ) : List ℕ :=
  ((List.range (dir.position N i + 1)).map (dir.position N)).filter fun u => SameKeys keys u i

def foldFirst (op : β → β → β) : List β → Option β
  | [] => none
  | b :: bs => some (bs.foldl op b)

/-- The loop returns with the fold of the group up to it in every row. -/
def FoldsGroups (network : NetworkClass) (dir : Direction) (n : BitVec 64) (keys : List (ℕ → κ))
    (op : β → β → β) (x : ℕ → β) : Prop :=
  ∃ net fuel y, network.construct dir n = some net ∧
    net.aggregateLevels keys op fuel x = some y ∧
    ∀ i, i < n.toNat → foldFirst op ((groupUpTo dir n.toNat keys i).map x) = some (y i)

/-- The keys of the row at a position in the direction of the network. -/
def viewKey (dir : Direction) (N : ℕ) (keys : List (ℕ → κ)) (t : ℕ) : List κ :=
  keys.map fun key => key (dir.position N t)

omit [DecidableEq κ] in
theorem viewKey_eq_iff {dir : Direction} {N : ℕ} {keys : List (ℕ → κ)} {u t : ℕ} :
    viewKey dir N keys u = viewKey dir N keys t ↔
      SameKeys keys (dir.position N u) (dir.position N t) :=
  List.map_inj_left

theorem sameKeys_eq (dir : Direction) (N : ℕ) (keys : List (ℕ → κ)) :
    sameKeys dir N keys = fun u t => decide (viewKey dir N keys u = viewKey dir N keys t) := by
  ext u t
  exact decide_eq_decide.mpr viewKey_eq_iff.symm

omit [DecidableEq κ] in
theorem grouped_viewKey {keys : List (ℕ → κ)} {N : ℕ} (hkeys : Contiguous keys N)
    (dir : Direction) : Grouped (viewKey dir N keys) N (· < N) where
  lt _ hi := hi
  good_of_key u _ hu _ _ := hu
  convex := by
    intro u v t huv hvt ht heq
    rw [viewKey_eq_iff] at heq ⊢
    cases dir with
    | forward =>
        have huv' := hkeys u v t huv hvt ht heq
        exact fun key hkey => (huv' key hkey).symm.trans (heq key hkey)
    | reverse =>
        have heq' : SameKeys keys (N - 1 - t) (N - 1 - u) := fun key hkey => (heq key hkey).symm
        have htv := hkeys (N - 1 - t) (N - 1 - v) (N - 1 - u) (by omega) (by omega) (by omega) heq'
        exact fun key hkey => (htv key hkey).symm

theorem foldFirst_map_range (op : β → β → β) (x : ℕ → β) (lo len : ℕ) :
    foldFirst op ((List.range (len + 1)).map fun j => x (lo + j)) =
      some (foldRange op x lo len) := by
  induction len with
  | zero => rfl
  | succ len ih =>
      rw [List.range_succ, List.map_append, foldRange]
      generalize (List.range (len + 1)).map (fun j => x (lo + j)) = front at ih ⊢
      cases front with
      | nil => cases ih
      | cons b bs =>
          have hfold := Option.some.inj ih
          rw [List.cons_append, foldFirst, List.foldl_append, hfold]
          rfl

/-- The group up to a row, as the segment of the view that ends there. -/
theorem foldFirst_groupUpTo {keys : List (ℕ → κ)} {N : ℕ} (hkeys : Contiguous keys N)
    (dir : Direction) (op : β → β → β) (x : ℕ → β) {t : ℕ} (ht : t < N) :
    foldFirst op ((groupUpTo dir N keys (dir.position N t)).map x) =
      some (foldRange op (fun u => x (dir.position N u)) (firstOf (viewKey dir N keys) t)
        (t - firstOf (viewKey dir N keys) t)) := by
  have hgroup := grouped_viewKey hkeys dir
  have hle : firstOf (viewKey dir N keys) t ≤ t := firstOf_le rfl
  have hback : dir.position N (dir.position N t) = t := by
    cases dir with
    | forward => rfl
    | reverse =>
        change N - 1 - (N - 1 - t) = t
        omega
  have hfilter : (List.range (t + 1)).filter
      (fun u => decide (SameKeys keys (dir.position N u) (dir.position N t))) =
      (List.range (t - firstOf (viewKey dir N keys) t + 1)).map
        (firstOf (viewKey dir N keys) t + ·) := by
    have hsum : t + 1 = firstOf (viewKey dir N keys) t + (t - firstOf (viewKey dir N keys) t + 1) := by
      omega
    have hin : ∀ u, u ≤ t → (SameKeys keys (dir.position N u) (dir.position N t) ↔
        firstOf (viewKey dir N keys) t ≤ u) := fun u hu =>
      viewKey_eq_iff.symm.trans (hgroup.key_eq_iff ht hu)
    rw [hsum, List.range_add, List.filter_append, List.filter_eq_nil_iff.mpr, List.nil_append,
      List.filter_eq_self.mpr]
    · intro u hu
      obtain ⟨j, hj, rfl⟩ := List.mem_map.mp hu
      have hj := List.mem_range.mp hj
      exact decide_eq_true ((hin _ (by omega)).mpr (by omega))
    · intro u hu
      have hu := List.mem_range.mp hu
      rw [decide_eq_true_iff, hin u (by omega)]
      omega
  have hlist : (groupUpTo dir N keys (dir.position N t)).map x =
      (List.range (t - firstOf (viewKey dir N keys) t + 1)).map
        fun j => x (dir.position N (firstOf (viewKey dir N keys) t + j)) := by
    rw [groupUpTo, hback, List.filter_map, List.map_map]
    have hcomp : ((fun u => decide (SameKeys keys u (dir.position N t))) ∘ dir.position N) =
        fun u => decide (SameKeys keys (dir.position N u) (dir.position N t)) := rfl
    rw [hcomp, hfilter, List.map_map]
    rfl
  rw [hlist]
  exact foldFirst_map_range op (fun u => x (dir.position N u)) _ _

variable {network : NetworkClass} {dir : Direction} {n : BitVec 64} {k : ℕ} {keys : List (ℕ → κ)}

/-- For the sizes that are accepted the fold is a property of the scan. -/
theorem foldsGroups_iff (hn : n.toNat = 2 ^ k) (hpos : 0 < k) (hk : k ≤ 30)
    (hkeys : Contiguous keys (2 ^ k)) (op : β → β → β) (x : ℕ → β) :
    FoldsGroups network dir n keys op x ↔ ∀ t, t < 2 ^ k →
      scan op (sameKeys dir (2 ^ k) keys)
          ((List.range (network.levelCount k)).map
            (network.scanLevel (decide (dir = .reverse)) k))
          (fun t => x (dir.position (2 ^ k) t)) t =
        foldRange op (fun t => x (dir.position (2 ^ k) t)) (firstOf (viewKey dir (2 ^ k) keys) t)
          (t - firstOf (viewKey dir (2 ^ k) keys) t) := by
  have hdepth : (network.network (decide (dir = .reverse)) n).depth = network.levelCount k :=
    NetworkClass.depth_eq hn (Or.inr hpos) _
  obtain ⟨y, hy, hscan⟩ := aggregateLevels_scan hn hk hdepth keys op x
  have hposition : ∀ i, i < 2 ^ k → dir.position (2 ^ k) (dir.position (2 ^ k) i) = i := by
    intro i hi
    cases dir with
    | forward => rfl
    | reverse =>
        change 2 ^ k - 1 - (2 ^ k - 1 - i) = i
        omega
  constructor
  · rintro ⟨net, fuel, y', hnet, hy', hfold⟩ t ht
    obtain ⟨-, rfl⟩ := NetworkClass.construct_eq_some_iff.mp hnet
    obtain rfl := forLevels_unique _ hy hy'
    rw [hn] at hfold
    have hlt := dir.position_lt ht
    rw [← hscan t ht]
    have hrow := hfold (dir.position (2 ^ k) t) hlt
    rw [foldFirst_groupUpTo hkeys dir op x ht] at hrow
    exact (Option.some.inj hrow).symm
  · intro hfold
    refine ⟨_, _, y, NetworkClass.construct_eq_some_iff.mpr ⟨⟨k, hk, hn⟩, rfl⟩, hy, ?_⟩
    rw [hn]
    intro i hi
    have hlt := dir.position_lt hi
    have hrow := foldFirst_groupUpTo hkeys dir op x hlt
    rw [← hfold _ hlt, ← hscan _ hlt, hposition i hi] at hrow
    exact hrow

theorem segments_sameKeys (hkeys : Contiguous keys (2 ^ k)) (dir : Direction) :
    Segments (sameKeys dir (2 ^ k) keys) (· < 2 ^ k) (firstOf (viewKey dir (2 ^ k) keys)) := by
  rw [sameKeys_eq]
  exact (grouped_viewKey hkeys dir).segments

/-- The Brent-Kung network is right in both directions. -/
theorem foldsGroups_brentKung (hn : n.toNat = 2 ^ k) (hpos : 0 < k) (hk : k ≤ 30)
    (hkeys : Contiguous keys (2 ^ k)) (dir : Direction) (op : β → β → β) [Std.Associative op]
    (x : ℕ → β) : FoldsGroups .brentKung dir n keys op x := by
  rw [foldsGroups_iff hn hpos hk hkeys]
  intro t ht
  exact scan_brentKung (segments_sameKeys hkeys dir) hpos _ ht ht

theorem foldsGroups_hillisSteele_forward (hn : n.toNat = 2 ^ k) (hpos : 0 < k) (hk : k ≤ 30)
    (hkeys : Contiguous keys (2 ^ k)) (op : β → β → β) [Std.Associative op] (x : ℕ → β) :
    FoldsGroups .hillisSteele .forward n keys op x := by
  rw [foldsGroups_iff hn hpos hk hkeys]
  intro t ht
  exact scan_ascending (segments_sameKeys hkeys .forward) _ ht ht

/-- No group has three rows. -/
def AtMostPairs (keys : List (ℕ → κ)) (N : ℕ) : Prop := ∀ i, i + 2 < N → ¬ SameKeys keys i (i + 2)

/-- In reverse the Hillis-Steele network takes the largest stride first. -/
theorem foldsGroups_hillisSteele_reverse_iff (hn : n.toNat = 2 ^ k) (hpos : 0 < k) (hk : k ≤ 30)
    (hkeys : Contiguous keys (2 ^ k)) (op : β → β → β) [hop : Std.Associative op] :
    (∀ x, FoldsGroups .hillisSteele .reverse n keys op x) ↔
      AtMostPairs keys (2 ^ k) ∨ LeftCommutative op := by
  have hseg := segments_sameKeys hkeys .reverse
  constructor
  · intro hall
    by_contra hnot
    obtain ⟨hpairs, hcomm⟩ := not_or.mp hnot
    unfold AtMostPairs at hpairs
    push Not at hpairs
    obtain ⟨i, hi, hsame⟩ := hpairs
    refine hcomm ⟨fun b a e => ?_⟩
    -- the third position of the group in the view
    have hview : viewKey .reverse (2 ^ k) keys (2 ^ k - 1 - (i + 2)) =
        viewKey .reverse (2 ^ k) keys (2 ^ k - 1 - i) := by
      rw [viewKey_eq_iff]
      have hfirst : Direction.reverse.position (2 ^ k) (2 ^ k - 1 - (i + 2)) = i + 2 := by
        change 2 ^ k - 1 - (2 ^ k - 1 - (i + 2)) = i + 2
        omega
      have hlast : Direction.reverse.position (2 ^ k) (2 ^ k - 1 - i) = i := by
        change 2 ^ k - 1 - (2 ^ k - 1 - i) = i
        omega
      rw [hfirst, hlast]
      exact fun key hkey => (hsame key hkey).symm
    have hle := firstOf_le hview
    generalize hs : firstOf (viewKey .reverse (2 ^ k) keys) (2 ^ k - 1 - i) = s at hle
    have hlt : s + 2 < 2 ^ k := by omega
    have hstart : firstOf (viewKey .reverse (2 ^ k) keys) (s + 2) = s := by
      obtain ⟨-, hmem⟩ := hseg.mem (2 ^ k - 1 - i) (by omega : 2 ^ k - 1 - i < 2 ^ k) (s + 2)
        (by omega) (by omega)
      exact hmem.trans hs
    have hdepth : 2 ≤ k := by
      by_contra hsmall
      have hone : k = 1 := by omega
      subst hone
      omega
    have hthird := @scan_descending_third _ op _ _ _ hseg _ _ hdepth hlt (by rw [hstart])
    have hfold := (foldsGroups_iff hn hpos hk hkeys op _).mp (hall fun p =>
      if 2 ^ k - 1 - p = s then a else if 2 ^ k - 1 - p = s + 1 then b else e) (s + 2) hlt
    have hrow : ∀ t, t < 2 ^ k → (if 2 ^ k - 1 - Direction.reverse.position (2 ^ k) t = s then a
        else if 2 ^ k - 1 - Direction.reverse.position (2 ^ k) t = s + 1 then b else e) =
        if t = s then a else if t = s + 1 then b else e := by
      intro t ht
      have hback : 2 ^ k - 1 - Direction.reverse.position (2 ^ k) t = t := by
        change 2 ^ k - 1 - (2 ^ k - 1 - t) = t
        omega
      rw [hback]
    have hlen : s + 2 - s = 1 + 1 := by omega
    have hprev : s + 2 - 1 = s + 1 := by omega
    have hprev' : s + 2 - 2 = s := by omega
    have hboth := hfold.symm.trans (hthird _)
    rw [hstart, hlen, foldRange, foldRange, foldRange, hprev, hprev', Nat.add_zero,
      hrow s (by omega), hrow (s + 1) (by omega), hrow (s + 1 + 1) hlt, if_pos rfl,
      if_neg (by omega), if_pos rfl, if_neg (by omega), if_neg (by omega), hop.assoc] at hboth
    exact hboth.symm
  · rintro (hpairs | hcomm) x
    · rw [foldsGroups_iff hn hpos hk hkeys]
      intro t ht
      refine scan_descending_of_short hseg hpos ht ?_ _
      by_contra hlong
      have hview : viewKey .reverse (2 ^ k) keys (t - 2) = viewKey .reverse (2 ^ k) keys t :=
        ((grouped_viewKey hkeys .reverse).key_eq_iff ht (Nat.sub_le t 2)).mpr (by omega)
      have hsame := viewKey_eq_iff.mp hview
      have hindex : Direction.reverse.position (2 ^ k) (t - 2) =
          Direction.reverse.position (2 ^ k) t + 2 := by
        change 2 ^ k - 1 - (t - 2) = 2 ^ k - 1 - t + 2
        omega
      have hlt : Direction.reverse.position (2 ^ k) t + 2 < 2 ^ k := by
        change 2 ^ k - 1 - t + 2 < 2 ^ k
        omega
      rw [hindex] at hsame
      exact hpairs _ hlt fun key hkey => (hsame key hkey).symm
    · rw [foldsGroups_iff hn hpos hk hkeys]
      intro t ht
      have hseg' : Segments (sameKeys .reverse (2 ^ k) keys) (fun t => t < 2 ^ k ∧ t < 2 ^ k)
          (firstOf (viewKey .reverse (2 ^ k) keys)) := by
        simpa only [and_self] using hseg
      exact scan_descending hseg' _ ht ht

/-- Both networks leave the folds of the groups in the rows exactly for the sizes that are accepted, and
in reverse with the Hillis-Steele network only if no group has three rows or the order of the earlier
arguments does not matter. -/
theorem networks_fold_iff [Inhabited β] (op : β → β → β) [Std.Associative op] (dir : Direction)
    (n : BitVec 64) (k : ℕ) (hn : n.toNat = 2 ^ k) (hpos : 1 ≤ k) (keys : List (ℕ → κ))
    (hkeys : Contiguous keys (2 ^ k)) :
    (∀ x, FoldsGroups .brentKung dir n keys op x ∧ FoldsGroups .hillisSteele dir n keys op x) ↔
      k ≤ 30 ∧ (dir = .forward ∨ AtMostPairs keys (2 ^ k) ∨ LeftCommutative op) := by
  constructor
  · intro hall
    obtain ⟨net, -, -, hnet, -⟩ := (hall default).1
    obtain ⟨⟨k', hk', hn'⟩, -⟩ := NetworkClass.construct_eq_some_iff.mp hnet
    obtain rfl : k = k' := Nat.pow_right_injective (le_refl 2) (hn.symm.trans hn')
    refine ⟨hk', ?_⟩
    cases dir with
    | forward => exact Or.inl rfl
    | reverse =>
        apply Or.inr
        exact (foldsGroups_hillisSteele_reverse_iff hn hpos hk' hkeys op).mp fun x => (hall x).2
  · rintro ⟨hk, hcases⟩ x
    refine ⟨foldsGroups_brentKung hn hpos hk hkeys dir op x, ?_⟩
    cases dir with
    | forward => exact foldsGroups_hillisSteele_forward hn hpos hk hkeys op x
    | reverse =>
        have hreverse := hcases.resolve_left (by decide)
        exact (foldsGroups_hillisSteele_reverse_iff hn hpos hk hkeys op).mpr hreverse x

instance : Std.Associative fun a _ : ℕ => a where
  assoc _ _ _ := rfl

/-- Four rows with one key, and the operation that copies the first. -/
theorem networks_fold_iff_copy :
    (∀ x, FoldsGroups .brentKung .reverse 4 [fun _ : ℕ => 0] (fun a _ : ℕ => a) x ∧
      FoldsGroups .hillisSteele .reverse 4 [fun _ : ℕ => 0] (fun a _ : ℕ => a) x) ↔
      2 ≤ 30 ∧ (Direction.reverse = .forward ∨ AtMostPairs [fun _ : ℕ => 0] (2 ^ 2) ∨
        LeftCommutative fun a _ : ℕ => a) :=
  networks_fold_iff (fun a _ : ℕ => a) .reverse 4 2 rfl (by omega) [fun _ => 0]
    fun _ _ _ _ _ _ _ _ hkey => by rw [List.mem_singleton.mp hkey]

/-- The copy from the last row does not arrive in the second one. -/
theorem networks_fold_fails :
    ¬ ∀ (op : ℕ → ℕ → ℕ) (_ : Std.Associative op) (dir : Direction) (n : BitVec 64) (k : ℕ),
      n.toNat = 2 ^ k → 1 ≤ k → ∀ keys : List (ℕ → ℕ), Contiguous keys (2 ^ k) → ∀ x,
        FoldsGroups .brentKung dir n keys op x ∧ FoldsGroups .hillisSteele dir n keys op x := by
  intro hall
  have hfold := (hall (fun a _ => a) inferInstance .reverse 4 2 rfl (by omega) []
    (fun _ _ _ _ _ _ _ _ hkey => absurd hkey List.not_mem_nil) id).2
  obtain ⟨net, fuel, y, hnet, hy, hrows⟩ := hfold
  obtain ⟨-, rfl⟩ := NetworkClass.construct_eq_some_iff.mp hnet
  have hrun : ∃ y', (NetworkClass.hillisSteele.network true 4).aggregateLevels
      ([] : List (ℕ → ℕ)) (fun a _ : ℕ => a) 3 id = some y' ∧ y' 1 = 2 := ⟨_, rfl, rfl⟩
  obtain ⟨y', hy', hvalue⟩ := hrun
  obtain rfl := forLevels_unique _ hy hy'
  have hrow := hrows 1 (by decide)
  rw [hvalue] at hrow
  exact absurd hrow (by decide)

end Folds

end PrefixNetwork

end CryptDough
