import CryptDough.AdjacentGroups

/-! Groups of adjacent positions that come from two sides: within a group the positions of the first
side stand before those of the second. -/

namespace CryptDough.AdjacentGroups

open SegmentedScan

variable {κ : Type} [DecidableEq κ]

/-- Grouped positions with a side each; no position of the first side follows one of the second side of
its group. -/
structure Sided (key : ℕ → κ) (side : ℕ → Bool) (n : ℕ) (good : ℕ → Prop) : Prop where
  grouped : Grouped key n good
  ordered : ∀ u v, u ≤ v → good v → key u = key v → side u = true → side v = true

def UniqueLeft (key : ℕ → κ) (side : ℕ → Bool) (good : ℕ → Prop) : Prop :=
  ∀ u v, good u → good v → side u = false → side v = false → key u = key v → u = v

/-- A good position of side `b` has the key of `t`. -/
def Met (key : ℕ → κ) (side : ℕ → Bool) (good : ℕ → Prop) (b : Bool) (t : ℕ) : Prop :=
  ∃ u, good u ∧ side u = b ∧ key u = key t

variable {key : ℕ → κ} {side : ℕ → Bool} {n : ℕ} {good : ℕ → Prop} {t : ℕ}

namespace Sided

variable (hsided : Sided key side n good)
include hsided

omit [DecidableEq κ] in
/-- Each side of a group is a group. -/
theorem both : Grouped (fun i => (key i, side i)) n good where
  lt := hsided.grouped.lt
  good_of_key u t hu ht heq := hsided.grouped.good_of_key u t hu ht (congrArg Prod.fst heq)
  convex u v t huv hvt ht heq := by
    obtain ⟨hkey, hside⟩ := Prod.mk.inj heq
    have hkey_v := hsided.grouped.convex u v t huv hvt ht hkey
    have hv : good v := by
      have hvn := lt_of_le_of_lt hvt (hsided.grouped.lt t ht)
      exact hsided.grouped.good_of_key v t hvn ht hkey_v
    have hside_v : side v = side t := by
      cases h : side t with
      | true => exact hsided.ordered u v huv hv (hkey.trans hkey_v.symm) (hside.trans h)
      | false =>
          by_contra hne
          have htrue := hsided.ordered v t hvt ht hkey_v (Bool.eq_true_of_not_eq_false hne)
          rw [h] at htrue
          exact Bool.false_ne_true htrue
    exact Prod.ext hkey_v hside_v

theorem good_firstOf (ht : good t) : good (firstOf key t) :=
  hsided.grouped.good_of_key _ t (lt_of_le_of_lt (firstOf_le rfl) (hsided.grouped.lt t ht)) ht
    (key_firstOf key t)

theorem side_firstOf (ht : good t) :
    side (firstOf key t) = false ↔ Met key side good false t := by
  constructor
  · exact fun hside => ⟨_, hsided.good_firstOf ht, hside, key_firstOf key t⟩
  · rintro ⟨u, hu, hside, hkey⟩
    by_contra hne
    have hle : firstOf key t ≤ u := firstOf_le hkey
    have htrue := hsided.ordered _ u hle hu ((key_firstOf key t).trans hkey.symm)
      (Bool.eq_true_of_not_eq_false hne)
    rw [hside] at htrue
    exact Bool.false_ne_true htrue

/-- The side of a position begins after its group exactly behind positions of the other side. -/
theorem firstOf_lt_iff (ht : good t) :
    firstOf key t < firstOf (fun i => (key i, side i)) t ↔
      side t = true ∧ Met key side good false t := by
  have hkey := key_firstOf key t
  rw [← hsided.side_firstOf ht]
  constructor
  · intro hlt
    have hne : side (firstOf key t) ≠ side t := by
      intro hside
      have hle : firstOf (fun i => (key i, side i)) t ≤ firstOf key t :=
        firstOf_le (Prod.ext hkey hside)
      omega
    cases h : side (firstOf key t) with
    | false => exact ⟨Bool.eq_true_of_not_eq_false (h ▸ hne.symm), rfl⟩
    | true => exact absurd (hsided.ordered _ t (firstOf_le rfl) ht hkey h) (h ▸ hne.symm)
  · rintro ⟨htrue, hfalse⟩
    have hboth := key_firstOf (fun i => (key i, side i)) t
    obtain ⟨hkey', hside'⟩ := Prod.mk.inj hboth
    refine lt_of_le_of_ne (firstOf_le hkey') fun heq => ?_
    rw [← heq, hfalse, htrue] at hside'
    exact Bool.false_ne_true hside'

theorem firstOf_eq_of_left (hunique : UniqueLeft key side good) (ht : good t) (hside : side t = false) :
    firstOf key t = t :=
  hunique _ t (hsided.good_firstOf ht) ht ((hsided.side_firstOf ht).mpr ⟨t, ht, hside, rfl⟩) hside
    (key_firstOf key t)

/-- A unique position of the first side ends its group if the second side has no position in it. -/
theorem last_iff_of_left (hunique : UniqueLeft key side good) (ht : good t) (hside : side t = false) :
    (t + 1 = n ∨ key (t + 1) ≠ key t) ↔ ¬ Met key side good true t := by
  constructor
  · rintro hlast ⟨u, hu, hside_u, hkey⟩
    have hle := hsided.grouped.le_of_last ht hlast (hsided.grouped.lt u hu) hkey
    have htrue := hsided.ordered u t hle ht hkey hside_u
    rw [hside] at htrue
    exact Bool.false_ne_true htrue
  · intro hnone
    by_contra hnot
    push Not at hnot
    obtain ⟨hne, hkey⟩ := hnot
    have hlt := hsided.grouped.lt t ht
    have hnext : good (t + 1) := hsided.grouped.good_of_key (t + 1) t (by omega) ht hkey
    cases h : side (t + 1) with
    | true => exact hnone ⟨t + 1, hnext, h, hkey⟩
    | false =>
        have heq := hunique (t + 1) t hnext ht h hside hkey
        omega

end Sided

omit [DecidableEq κ] in
theorem Grouped.good_of_le (hgroup : Grouped key n good) (ht : good t) {u : ℕ} (hu : u ≤ t)
    (heq : key u = key t) : good u :=
  hgroup.good_of_key u t (lt_of_le_of_lt hu (hgroup.lt t ht)) ht heq

theorem firstOf_eq_of_key {u : ℕ} (heq : key u = key t) : firstOf key u = firstOf key t :=
  le_antisymm (firstOf_le ((key_firstOf key t).trans heq.symm))
    (firstOf_le ((key_firstOf key u).trans heq))

variable {β : Type}

theorem foldRange_keep (x : ℕ → β) (lo len : ℕ) : foldRange (fun b _ => b) x lo len = x lo := by
  induction len with
  | zero => rfl
  | succ len ih => exact ih

theorem foldRange_and (p : ℕ → Bool) (lo len : ℕ) :
    foldRange (· && ·) p lo len = true ↔ ∀ u, lo ≤ u → u ≤ lo + len → p u = true := by
  induction len with
  | zero =>
      constructor
      · intro hp u hlo hu
        obtain rfl : u = lo := by omega
        exact hp
      · exact fun hall => hall lo le_rfl le_rfl
  | succ len ih =>
      rw [foldRange, Bool.and_eq_true, ih]
      constructor
      · rintro ⟨hall, hlast⟩ u hlo hu
        rcases Nat.lt_or_ge (lo + len) u with hlt | hge
        · obtain rfl : u = lo + len + 1 := by omega
          exact hlast
        · exact hall u hlo hge
      · intro hall
        exact ⟨fun u hlo hu => hall u hlo (by omega), hall _ (by omega) (by omega)⟩

end CryptDough.AdjacentGroups
