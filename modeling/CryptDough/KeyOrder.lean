import Mathlib.Data.List.Lex
import Mathlib.Data.List.Perm.Basic
import Mathlib.Order.Lattice

/-! Lists that are sorted by a key. Such a list is determined by its elements of each key, and, where
elements with the same key are the same, by its elements alone. -/

namespace CryptDough.KeyOrder

variable {α β κ : Type} [LinearOrder κ] {f : α → κ} {l l' : List α}

theorem head_le {a : α} (hl : (a :: l).Pairwise fun a b => f a ≤ f b) {b : α} (hb : b ∈ a :: l) :
    f a ≤ f b := by
  rcases List.mem_cons.mp hb with rfl | hb
  · exact le_rfl
  · exact (List.pairwise_cons.mp hl).1 b hb

/-- Two orders of the same elements by the same key show the same labels. -/
theorem map_eq_of_perm {h : α → β} (hperm : l.Perm l') (hl : l.Pairwise fun a b => f a ≤ f b)
    (hl' : l'.Pairwise fun a b => f a ≤ f b) (hsame : ∀ a ∈ l, ∀ b ∈ l, f a = f b → h a = h b) :
    l.map h = l'.map h := by
  let pair : α → κ × β := fun a => (f a, h a)
  have hpairs : l.map pair = l'.map pair := by
    refine @List.Perm.eq_of_pairwise _ (fun p q => p.1 ≤ q.1) _ _ ?_ ?_ ?_ (hperm.map pair)
    · rintro p q hp hq hle hge
      obtain ⟨a, ha, rfl⟩ := List.mem_map.mp hp
      obtain ⟨b, hb, rfl⟩ := List.mem_map.mp hq
      have hkey : f a = f b := le_antisymm hle hge
      exact Prod.ext hkey (hsame a ha b (hperm.mem_iff.mpr hb) hkey)
    · exact List.pairwise_map.mpr hl
    · exact List.pairwise_map.mpr hl'
  have hlabels := congrArg (List.map Prod.snd) hpairs
  rwa [List.map_map, List.map_map] at hlabels

/-- One more key decides where the first ones are equal. -/
theorem append_singleton_lt_iff {s t : List κ} (hlen : s.length = t.length) (a b : κ) :
    s ++ [a] < t ++ [b] ↔ s < t ∨ s = t ∧ a < b := by
  induction s generalizing t with
  | nil =>
      obtain rfl := List.eq_nil_of_length_eq_zero hlen.symm
      simp [List.cons_lt_cons_iff]
  | cons u s ih =>
      cases t with
      | nil => simp at hlen
      | cons v t =>
          rw [List.cons_append, List.cons_append, List.cons_lt_cons_iff, ih (Nat.succ.inj hlen),
            List.cons_lt_cons_iff, List.cons.injEq]
          tauto

theorem append_singleton_le_iff {s t : List κ} (hlen : s.length = t.length) (a b : κ) :
    s ++ [a] ≤ t ++ [b] ↔ s < t ∨ s = t ∧ a ≤ b := by
  rw [← not_lt, append_singleton_lt_iff hlen.symm]
  rcases lt_trichotomy s t with hlt | rfl | hlt
  · exact iff_of_true (fun h => h.elim hlt.asymm fun h => hlt.ne' h.1) (.inl hlt)
  · simp
  · refine iff_of_false (fun h => h (.inl hlt)) fun h => ?_
    exact h.elim hlt.asymm fun h => hlt.ne' h.1

section Filter

variable [DecidableEq κ]

omit [LinearOrder κ] in
/-- An element of the one list has its key in the other. -/
theorem exists_key_eq (heq : ∀ k, l.filter (fun a => f a = k) = l'.filter fun a => f a = k) {b : α}
    (hb : b ∈ l') : ∃ a ∈ l, f a = f b := by
  have hfilter : b ∈ l.filter fun a => f a = f b := by
    rw [heq]
    exact List.mem_filter.mpr ⟨hb, decide_eq_true rfl⟩
  exact ⟨b, (List.mem_filter.mp hfilter).1, rfl⟩

theorem eq_of_filter_eq (hl : l.Pairwise fun a b => f a ≤ f b) (hl' : l'.Pairwise fun a b => f a ≤ f b)
    (heq : ∀ k, l.filter (fun a => f a = k) = l'.filter fun a => f a = k) : l = l' := by
  induction l generalizing l' with
  | nil =>
      cases l' with
      | nil => rfl
      | cons b l' =>
          obtain ⟨a, ha, -⟩ := exists_key_eq heq List.mem_cons_self
          exact absurd ha List.not_mem_nil
  | cons a l ih =>
      cases l' with
      | nil =>
          obtain ⟨b, hb, -⟩ := exists_key_eq (fun k => (heq k).symm) List.mem_cons_self
          exact absurd hb List.not_mem_nil
      | cons b l' =>
          -- both lists begin with the least key
          obtain ⟨c, hc, hcb⟩ := exists_key_eq heq (List.mem_cons_self (a := b))
          obtain ⟨d, hd, hda⟩ := exists_key_eq (fun k => (heq k).symm) (List.mem_cons_self (a := a))
          have hkey : f a = f b := le_antisymm (hcb ▸ head_le hl hc) (hda ▸ head_le hl' hd)
          have hhead := heq (f a)
          rw [List.filter_cons_of_pos (by simp), List.filter_cons_of_pos (by simp [hkey])] at hhead
          obtain ⟨rfl, htail⟩ := List.cons.inj hhead
          rw [ih hl.of_cons hl'.of_cons]
          intro k
          by_cases hk : f a = k
          · subst hk
            exact htail
          · have hrest := heq k
            rwa [List.filter_cons_of_neg (by simpa using hk),
              List.filter_cons_of_neg (by simpa using hk)] at hrest

/-- Where the label tells the key, the labels may be compared key by key. -/
theorem map_eq_map_iff {h : α → β} {key : β → κ} (hkey : ∀ a, key (h a) = f a)
    (hl : l.Pairwise fun a b => f a ≤ f b) (hl' : l'.Pairwise fun a b => f a ≤ f b) :
    l.map h = l'.map h ↔ ∀ k, (l.filter fun a => f a = k).map h = (l'.filter fun a => f a = k).map h := by
  have hfilter : ∀ (m : List α) (k : κ),
      (m.map h).filter (fun b => key b = k) = (m.filter fun a => f a = k).map h := by
    intro m k
    rw [List.filter_map]
    congr 2
    ext a
    rw [Function.comp_apply, hkey]
  constructor
  · intro heq k
    rw [← hfilter, ← hfilter, heq]
  · intro heq
    refine eq_of_filter_eq (f := key) ?_ ?_ fun k => ?_
    · rw [List.pairwise_map]
      simpa only [hkey] using hl
    · rw [List.pairwise_map]
      simpa only [hkey] using hl'
    · rw [hfilter, hfilter, heq k]

end Filter

end CryptDough.KeyOrder
