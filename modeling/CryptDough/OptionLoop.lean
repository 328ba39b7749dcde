import Mathlib.Algebra.BigOperators.Group.Finset.Basic
import Mathlib.Algebra.BigOperators.Intervals
import Mathlib.Data.List.Range
import Mathlib.Data.Nat.Basic
import Mathlib.Tactic.Ring

/-! Loops that can fail: a counter goes through a range, and the body returns no state where the
program has none. -/

namespace CryptDough

theorem mapM_some {α β : Type} {f : α → Option β} {g : α → β} {l : List α}
    (heq : ∀ a ∈ l, f a = some (g a)) : l.mapM f = some (l.map g) := by
  induction l with
  | nil => rfl
  | cons a l ih =>
      rw [List.mapM_cons, heq a List.mem_cons_self,
        ih fun b hb => heq b (List.mem_cons_of_mem a hb)]
      rfl

/-- If every call returns, the results are those of the calls. -/
theorem exists_mapM {α β : Type} {f : α → Option β} {l : List α} (hall : ∀ a ∈ l, ∃ b, f a = some b) :
    ∃ bs, l.mapM f = some bs ∧ bs.length = l.length ∧ ∀ (i : ℕ) (a : α), l[i]? = some a → bs[i]? = f a := by
  induction l with
  | nil => exact ⟨[], rfl, rfl, fun i a hi => by simp at hi⟩
  | cons a l ih =>
      obtain ⟨b, hb⟩ := hall a List.mem_cons_self
      obtain ⟨bs, hbs, hlen, hget⟩ := ih fun c hc => hall c (List.mem_cons_of_mem a hc)
      refine ⟨b :: bs, ?_, congrArg (· + 1) hlen, ?_⟩
      · rw [List.mapM_cons, hb, hbs]
        rfl
      · intro i c hi
        cases i with
        | zero =>
            obtain rfl : a = c := by simpa using hi
            exact hb.symm
        | succ i => exact hget i c (by simpa using hi)

theorem mapM_none {α β : Type} {f : α → Option β} {l : List α} {a : α} (hmem : a ∈ l) (hnone : f a = none) :
    l.mapM f = none := by
  induction l with
  | nil => cases hmem
  | cons b l ih =>
      rw [List.mapM_cons]
      rcases List.mem_cons.mp hmem with rfl | hrest
      · rw [hnone]
        rfl
      · rw [ih hrest]
        cases f b <;> rfl

namespace OptionLoop

/-- How often a loop to `stop` runs that advances by `stride`. -/
def strideCount (stop stride : ℕ) : ℕ := (stop + stride - 1) / stride

theorem strideCount_succ (m : ℕ) {stride : ℕ} (hpos : 0 < stride) : strideCount
    (m + 1) stride = m / stride + 1 := by
  rw [strideCount, show m + 1 + stride - 1 = m + stride by omega, Nat.add_div_right _ hpos]

theorem le_strideCount_mul (stop : ℕ) {stride : ℕ} (hpos : 0 < stride) :
    stop ≤ strideCount stop stride * stride := by
  have hdiv := Nat.div_add_mod (stop + stride - 1) stride
  have hmod := Nat.mod_lt (stop + stride - 1) hpos
  rw [strideCount, Nat.mul_comm]
  omega

theorem strideCount_mul {rows stride : ℕ} (hpos : 0 < stride) : strideCount
    (rows * stride) stride = rows := by
  rw [strideCount, Nat.add_sub_assoc hpos, Nat.add_comm, Nat.add_mul_div_right _ _ hpos,
    Nat.div_eq_of_lt (by omega), Nat.zero_add]

/-- A stride that divides the range meets its end. -/
theorem strideCount_mul_of_dvd {stop stride : ℕ} (hpos : 0 < stride) (hdvd : stride ∣ stop) :
    strideCount stop stride * stride = stop := by
  obtain ⟨rows, rfl⟩ := hdvd
  rw [Nat.mul_comm stride, strideCount_mul hpos]

variable {σ : Type} {f g : σ → ℕ → Option σ} {n : ℕ} {s t : σ}

theorem foldlM_range_succ (f : σ → ℕ → Option σ) (n : ℕ) (s : σ) :
    (List.range (n + 1)).foldlM f s = ((List.range n).foldlM f s).bind fun t => f t n := by
  rw [List.range_succ, List.foldlM_append]
  exact congrArg _ (funext fun t => bind_pure (f t n))

/-- The loop runs through if every step does from what holds before it, and what it establishes holds at
the end. -/
theorem invariant {P : ℕ → σ → Prop} (hinit : P 0 s)
    (hstep : ∀ k < n, ∀ t, P k t → ∃ t', f t k = some t' ∧ P (k + 1) t') :
    ∃ t, (List.range n).foldlM f s = some t ∧ P n t := by
  induction n with
  | zero => exact ⟨s, rfl, hinit⟩
  | succ n ih =>
      obtain ⟨t, hrun, ht⟩ := ih fun k hk => hstep k (Nat.lt_succ_of_lt hk)
      obtain ⟨t', hnext, ht'⟩ := hstep n (Nat.lt_succ_self n) t ht
      refine ⟨t', ?_, ht'⟩
      rw [foldlM_range_succ, hrun]
      exact hnext

/-- Every step of a loop that has run through returned a state. -/
theorem exists_step (hrun : (List.range n).foldlM f s = some t) {k : ℕ} (hk : k < n) :
    ∃ u u', f u k = some u' := by
  induction n generalizing t with
  | zero => omega
  | succ n ih =>
      rw [foldlM_range_succ] at hrun
      obtain ⟨u, hbefore, hlast⟩ := Option.bind_eq_some_iff.mp hrun
      rcases Nat.lt_succ_iff_lt_or_eq.mp hk with hlt | rfl
      · exact ih hbefore hlt
      · exact ⟨u, t, hlast⟩

theorem congr (heq : ∀ k < n, ∀ t, f t k = g t k) (s : σ) :
    (List.range n).foldlM f s = (List.range n).foldlM g s := by
  induction n with
  | zero => rfl
  | succ n ih =>
      rw [foldlM_range_succ, foldlM_range_succ, ih fun k hk => heq k (Nat.lt_succ_of_lt hk)]
      exact congrArg _ (funext fun t => heq n (Nat.lt_succ_self n) t)

theorem foldlM_range_add (f : σ → ℕ → Option σ) (m n : ℕ) (s : σ) :
    (List.range (m + n)).foldlM f s =
      ((List.range m).foldlM f s).bind fun t => (List.range n).foldlM (fun t p => f t (m + p)) t := by
  rw [List.range_add, List.foldlM_append]
  refine congrArg _ (funext fun t => ?_)
  rw [List.foldlM_map]

/-- A loop over words of `w` numbers, the last one not full, goes through the numbers below `total`. -/
theorem nested (f : σ → ℕ → Option σ) (w total count : ℕ) (s : σ) :
    (List.range count).foldlM
      (fun t i => (List.range (min w (total - i * w))).foldlM (fun t p => f t (i * w + p)) t) s =
      (List.range (min total (count * w))).foldlM f s := by
  induction count with
  | zero => rw [Nat.zero_mul, Nat.min_zero]; rfl
  | succ count ih =>
      rw [foldlM_range_succ, ih, Nat.succ_mul]
      rcases Nat.le_total (count * w) total with hle | hge
      · have hsplit : min total (count * w + w) = count * w + min w (total - count * w) := by omega
        rw [hsplit, foldlM_range_add, Nat.min_eq_right hle]
      · have hnone : min w (total - count * w) = 0 := by omega
        have hall : min total (count * w + w) = total := by omega
        rw [hnone, hall, Nat.min_eq_left hge]
        exact Option.bind_fun_some _

/-- Row and column of the place `i * n + j`. -/
theorem row_column {i j : ℕ} (hj : j < n) : (i * n + j) / n = i ∧ (i * n + j) % n = j := by
  constructor
  · rw [Nat.add_comm, Nat.add_mul_div_right _ _ (by omega), Nat.div_eq_of_lt hj, Nat.zero_add]
  · rw [Nat.add_comm, Nat.add_mul_mod_self_right, Nat.mod_eq_of_lt hj]

theorem place_lt {m i j : ℕ} (hi : i < m) (hj : j < n) : i * n + j < m * n := by
  have hle : (i + 1) * n ≤ m * n := Nat.mul_le_mul_right n hi
  rw [Nat.succ_mul] at hle
  omega

/-- Two loops that go through the numbers below a product. -/
theorem product (f : σ → ℕ → Option σ) (m n : ℕ) (s : σ) :
    (List.range m).foldlM (fun t i => (List.range n).foldlM (fun t j => f t (i * n + j)) t) s =
      (List.range (m * n)).foldlM f s := by
  have hflat := nested f n (m * n) m s
  rw [Nat.min_self] at hflat
  rw [← hflat]
  refine congr (fun i hi t => ?_) s
  have hle : (i + 1) * n ≤ m * n := Nat.mul_le_mul_right n hi
  rw [Nat.succ_mul] at hle
  rw [Nat.min_eq_left (by omega)]

theorem sum_product {T : Type} [AddCommMonoid T] (g : ℕ → T) (m n : ℕ) :
    ∑ k ∈ Finset.range (m * n), g k = ∑ i ∈ Finset.range m, ∑ j ∈ Finset.range n, g (i * n + j) := by
  induction m with
  | zero => rw [Nat.zero_mul, Finset.sum_range_zero, Finset.sum_range_zero]
  | succ m ih => rw [Nat.succ_mul, Finset.sum_range_add, ih, Finset.sum_range_succ]

/-- The summands from `start` up to `stop`. -/
theorem sum_clipped {T : Type} [AddCommMonoid T] (g : ℕ → T) {start stop : ℕ} (hstop : stop ≤ n) :
    ∑ i ∈ Finset.range n, (if start ≤ i ∧ i < stop then g i else 0) =
      ∑ k ∈ Finset.range (stop - start), g (start + k) := by
  rw [← Finset.sum_filter, ← Finset.sum_Ico_eq_sum_range]
  refine Finset.sum_congr (Finset.ext fun i => ?_) fun _ _ => rfl
  rw [Finset.mem_filter, Finset.mem_range, Finset.mem_Ico]
  omega

/-- A second variable whose value the counter determines. -/
theorem tracked {τ : Type} {f : σ × τ → ℕ → Option (σ × τ)} (idx : ℕ → τ)
    (hstep : ∀ k < n, ∀ t, f (t, idx k) k = (g t k).map fun t' => (t', idx (k + 1))) (s : σ) :
    (List.range n).foldlM f (s, idx 0) = ((List.range n).foldlM g s).map fun t => (t, idx n) := by
  induction n with
  | zero => rfl
  | succ n ih =>
      rw [foldlM_range_succ, foldlM_range_succ, ih fun k hk => hstep k (Nat.lt_succ_of_lt hk)]
      cases (List.range n).foldlM g s with
      | none => rfl
      | some t => exact hstep n (Nat.lt_succ_self n) t

theorem bind_map_some {α β γ : Type} (x : Option α) (f : α → β) (h : β → γ) :
    ((x.map f).bind fun b => some (h b)) = x.map fun a => h (f a) := by
  cases x <;> rfl

/-- A sum over a window, with two indices that the end of each row moves to the next one. -/
theorem windowLoop {T : Type} [AddZeroClass T] (columns : ℕ) (next : ℕ × ℕ → ℕ × ℕ)
    (f : ℕ → ℕ → Option T) (idx : ℕ → ℕ × ℕ)
    (hnext : ∀ r < n, next ((idx r).1 + columns, (idx r).2 + columns) = idx (r + 1)) :
    ((List.range n).foldlM (fun s _ => do
      let s ← (List.range columns).foldlM (fun (s : T × ℕ × ℕ) _ => do
        let x ← f s.2.1 s.2.2
        pure (s.1 + x, s.2.1 + 1, s.2.2 + 1)) s
      pure (s.1, next s.2)) (0, idx 0)).bind (fun s => some s.1) =
    (List.range n).foldlM (fun sum r => (List.range columns).foldlM (fun sum c => do
      let x ← f ((idx r).1 + c) ((idx r).2 + c)
      pure (sum + x)) sum) 0 := by
  rw [tracked idx (g := fun sum r => (List.range columns).foldlM (fun sum c => do
    let x ← f ((idx r).1 + c) ((idx r).2 + c)
    pure (sum + x)) sum)]
  · rw [bind_map_some]
    exact Option.map_id'
  · intro r hr sum
    have hrow := tracked (n := columns) (fun c => ((idx r).1 + c, (idx r).2 + c))
      (f := fun (s : T × ℕ × ℕ) _ => do
        let x ← f s.2.1 s.2.2
        pure (s.1 + x, s.2.1 + 1, s.2.2 + 1))
      (g := fun sum c => do
        let x ← f ((idx r).1 + c) ((idx r).2 + c)
        pure (sum + x)) (fun c _ sum => ?_) sum
    · apply (congrArg (fun o => o.bind fun s => some (s.1, next s.2)) hrow).trans
      rw [bind_map_some, ← hnext r hr]
    · cases f ((idx r).1 + c) ((idx r).2 + c) <;> rfl

theorem getD_map_range {T : Type} [Zero T] (f : ℕ → T) {k : ℕ} (hk : k < n) :
    ((List.range n).map f).getD k 0 = f k := by
  rw [List.getD_eq_getElem?_getD, List.getElem?_map, List.getElem?_range hk]
  rfl

/-- A loop that adds up values. -/
theorem sum_range {T : Type} [AddCommMonoid T] {f : ℕ → Option T} {g : ℕ → T}
    (hvalue : ∀ k < n, f k = some (g k)) (init : T) :
    (List.range n).foldlM (fun sum k => do
      let x ← f k
      pure (sum + x)) init = some (init + ∑ k ∈ Finset.range n, g k) := by
  induction n with
  | zero => exact congrArg some (add_zero init).symm
  | succ n ih =>
      rw [foldlM_range_succ, ih fun k hk => hvalue k (Nat.lt_succ_of_lt hk), Option.bind_some,
        hvalue n (Nat.lt_succ_self n), Finset.sum_range_succ, ← add_assoc]
      rfl

/-- A write through an index. -/
def writeAt {T : Type} (out : List T) (i : ℕ) (x : T) : Option (List T) :=
  if i < out.length then some (out.set i x) else none

/-- The step of a loop that writes through an index of its own, which advances by one. -/
def push {T : Type} (f : ℕ → Option T) (s : List T × ℕ) (k : ℕ) : Option (List T × ℕ) := do
  let x ← f k
  let out ← writeAt s.1 s.2 x
  pure (out, s.2 + 1)

/-- A loop that writes each value to a place of its own. -/
theorem fill {T : Type} (out : List T) {f : ℕ → Option T} {g : ℕ → T} (place : ℕ → ℕ)
    (hplace : ∀ k < n, place k < out.length)
    (hinj : ∀ j < n, ∀ k < n, place j = place k → j = k) (hvalue : ∀ k < n, f k = some (g k)) :
    ∃ out', (List.range n).foldlM (fun out k => do
        let x ← f k
        writeAt out (place k) x) out = some out' ∧ out'.length = out.length ∧
      (∀ k < n, out'[place k]? = some (g k)) ∧ ∀ p, (∀ k < n, place k ≠ p) → out'[p]? = out[p]? := by
  have hloop : ∀ m ≤ n, ∃ out', (List.range m).foldlM (fun out k => do
      let x ← f k
      writeAt out (place k) x) out = some out' ∧ out'.length = out.length ∧
      (∀ k < m, out'[place k]? = some (g k)) ∧ ∀ p, (∀ k < m, place k ≠ p) → out'[p]? = out[p]? := by
    intro m hm
    refine invariant (P := fun m (out' : List T) => out'.length = out.length ∧
      (∀ k < m, out'[place k]? = some (g k)) ∧ ∀ p, (∀ k < m, place k ≠ p) → out'[p]? = out[p]?)
      ⟨rfl, fun k hk => absurd hk (Nat.not_lt_zero k), fun _ _ => rfl⟩ ?_
    rintro k hk out' ⟨hlen, hwritten, hkept⟩
    have hin : place k < out'.length := by
      rw [hlen]
      exact hplace k (by omega)
    refine ⟨out'.set (place k) (g k), ?_, List.length_set.trans hlen, fun j hj => ?_, fun p hp => ?_⟩
    · rw [hvalue k (by omega)]
      exact if_pos hin
    · rcases Nat.lt_succ_iff_lt_or_eq.mp hj with hlt | rfl
      · have hne : place k ≠ place j := fun heq => by
          have hkj := hinj k (by omega) j (by omega) heq
          omega
        rw [List.getElem?_set_ne hne]
        exact hwritten j hlt
      · exact List.getElem?_set_self hin
    · rw [List.getElem?_set_ne (hp k (Nat.lt_succ_self k))]
      exact hkept p fun j hj => hp j (Nat.lt_succ_of_lt hj)
  exact hloop n (le_refl n)

/-- A loop that fills its output from the front on. -/
theorem fill_front {T : Type} {out : List T} {f : ℕ → Option T} {g : ℕ → T} (hle : n ≤ out.length)
    (hvalue : ∀ k < n, f k = some (g k)) :
    (List.range n).foldlM (fun out k => do
      let x ← f k
      writeAt out k x) out = some ((List.range n).map g ++ out.drop n) := by
  obtain ⟨out', hrun, hlen', hwritten, hkept⟩ :=
    fill out (fun k => k) (fun k hk => hk.trans_le hle) (fun j _ k _ heq => heq) hvalue
  have hlength : ((List.range n).map g).length = n := by rw [List.length_map, List.length_range]
  rw [hrun]
  refine congrArg some (List.ext_getElem? fun i => ?_)
  rcases Nat.lt_or_ge i n with hi | hi
  · rw [hwritten i hi, List.getElem?_append_left (by omega), List.getElem?_map, List.getElem?_range hi]
    rfl
  · rw [hkept i fun k hk => by omega, List.getElem?_append_right (by omega), hlength, List.getElem?_drop,
      Nat.add_sub_cancel' hi]

theorem fill_range {T : Type} {out : List T} {f : ℕ → Option T} {g : ℕ → T} (hlen : out.length = n)
    (hvalue : ∀ k < n, f k = some (g k)) :
    (List.range n).foldlM (fun out k => do
      let x ← f k
      writeAt out k x) out = some ((List.range n).map g) := by
  rw [fill_front hlen.ge hvalue, List.drop_eq_nil_of_le hlen.le, List.append_nil]

theorem push_front {T : Type} {out : List T} {f : ℕ → Option T} {g : ℕ → T} (hle : n ≤ out.length)
    (hvalue : ∀ k < n, f k = some (g k)) :
    (List.range n).foldlM (push f) (out, 0) = some ((List.range n).map g ++ out.drop n, n) := by
  have hindex := tracked (fun k => k) (n := n) (f := push f)
    (g := fun out k => do
      let x ← f k
      writeAt out k x) (fun k _ out => ?_) out
  · rw [fill_front hle hvalue] at hindex
    exact hindex
  · rw [push]
    cases f k with
    | none => rfl
    | some x => exact Option.map_eq_bind.symm

theorem push_range {T : Type} {out : List T} {f : ℕ → Option T} {g : ℕ → T} (hlen : out.length = n)
    (hvalue : ∀ k < n, f k = some (g k)) :
    (List.range n).foldlM (push f) (out, 0) = some ((List.range n).map g, n) := by
  rw [push_front hlen.ge hvalue, List.drop_eq_nil_of_le hlen.le, List.append_nil]

end OptionLoop

end CryptDough
