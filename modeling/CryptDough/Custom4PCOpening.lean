import CryptDough.Custom4PCDetection

/-! Opening in the custom protocol. What a party receives there is not checked, so that an honest party
opens what the party before it wants. -/

namespace CryptDough.Custom4PC

open Process Sharing ProtocolBase Net

variable {w n : ℕ} {D : Type}

section Opening

variable {add : Vec w n → Vec w n → Vec w n} (s : Fin 4 → EVec scheme w n)
  {tape : Fin 4 → Source → ℕ → Cell w D}

/-- What the interface tests never fails. -/
theorem openShares_eq (p : Fin 4) :
    openShares add p (s p) = (uncheckedOpen add p (s p) : Program w D _) := by
  have hcheck : (interfaceCheck : Program w D Bool) = pure true := rfl
  simp only [openShares, hcheck, pure_bind, if_true, bind_pure]

def openSent (p a : Fin 4) : List (Cell w D) := if a = p + 1 then words (s p 0) else []

theorem emits_openShares (p : Fin 4) :
    (openShares add p (s p) : Program w D _).run.Emits (tape p) (openSent s p) := by
  rw [openShares_eq, uncheckedOpen]
  exact emits_sendShares (emits_receiveShares fun _ => emits_pure _ fun _ => [])
    fun _ => (List.append_nil _).symm

theorem combine_received (op : Vec w n → Vec w n → Vec w n) [Std.Commutative op] [Std.Associative op]
    (x : Fin 4 → Vec w n) (p : Fin 4) :
    op (op (op (deal x p 0) (deal x p 1)) (deal x p 2)) (x (p + 3)) = combine op x := by
  rw [combine_four]
  fin_cases p
  · rfl
  · show op (op (op (x 1) (x 2)) (x 3)) (x 0) = _
    ac_rfl
  · show op (op (op (x 2) (x 3)) (x 0)) (x 1) = _
    ac_rfl
  · show op (op (op (x 3) (x 0)) (x 1)) (x 2) = _
    ac_rfl

theorem eval_openShares {p : Fin 4} {ins : Fin 4 → List (Cell w D)} {r : Except Accused (Vec w n)}
    (heval : (openShares add p (s p)).run.eval (tape p) ins = some r) :
    ∃ (m : Fin n → Cell w D) (rest : List (Cell w D)), ins (p + 3) = List.ofFn m ++ rest ∧
      r = .ok (add (add (add (s p 0) (s p 1)) (s p 2)) fun i => (m i).toWord) := by
  rw [openShares_eq, uncheckedOpen, eval_sendShares] at heval
  obtain ⟨m, rest, hm, heval⟩ := eval_receiveShares heval
  exact ⟨m, rest, hm, (Option.some.inj heval).symm⟩

/-- A party opens the secret if what it lacks is what it received. -/
theorem openShares_returned [Std.Commutative add] [Std.Associative add]
    (hcancel : ∀ a b b', add a b = add a b' → b = b') (x : Fin 4 → Vec w n) {c p : Fin 4}
    (hp : p ≠ c) {sent : Fin 4 → Fin 4 → List (Cell w D)}
    {net : Net (Fin 4) Source (Cell w D) (Except Accused (Vec w n))}
    (hatt : Attacks (· = c) (fun q => (openShares add q (deal x q)).run) tape sent net)
    {r : Except Accused (Vec w n)} (hdone : net.prog p = .done r) :
    ((∃ accused, r = .error accused) ∨ r = .ok (combine add x)) ↔
      (p = c + 1 → ((sent c p).take n).map Cell.toWord = List.ofFn (x c)) := by
  obtain ⟨ins, hhonest, hbad, heval⟩ := hatt.returned
    (fun q _ => emits_openShares (deal x) q) hp hdone
  obtain ⟨m, rest, hm, rfl⟩ := eval_openShares (deal x) heval
  have hreceived := combine_received add x p
  have hvalue : ((∃ accused, (Except.ok (add (add (add (deal x p 0) (deal x p 1)) (deal x p 2))
        fun i => (m i).toWord) : Except Accused (Vec w n)) = .error accused) ∨
      (Except.ok (add (add (add (deal x p 0) (deal x p 1)) (deal x p 2)) fun i => (m i).toWord) :
        Except Accused (Vec w n)) = .ok (combine add x)) ↔ (fun i => (m i).toWord) = x (p + 3) := by
    constructor
    · rintro (⟨accused, herror⟩ | hok)
      · cases herror
      · exact hcancel _ _ _ ((Except.ok.inj hok).trans hreceived.symm)
    · intro hm
      exact Or.inr (by rw [hm, hreceived])
  rw [hvalue]
  by_cases hc : p + 3 = c
  · have hpc : p = c + 1 := (eq_add_one p c).mpr hc.symm
    have htaken : ((sent c p).take n).map Cell.toWord = List.ofFn fun i => (m i).toWord := by
      rw [← hbad c rfl, ← hc, hm, List.take_left' (List.length_ofFn), List.map_ofFn]
      rfl
    rw [htaken, hc]
    exact ⟨fun heq _ => by rw [heq], fun heq => List.ofFn_injective (heq hpc)⟩
  · have hpc : p ≠ c + 1 := fun heq => hc ((eq_add_one p c).mp heq).symm
    have hsrc : ins (p + 3) = words (x (p + 3)) ++ [] := by
      obtain ⟨h31, -⟩ := roles_sum p
      rw [hhonest _ hc, openSent, if_pos h31.symm, List.append_nil]
      exact congrArg (fun k => words (x k)) (add_zero (p + 3))
    exact ⟨fun _ heq => absurd heq hpc, fun _ => (words_inj (hm.symm.trans hsrc)).1⟩

end Opening

/-- A party that follows its program opens the secret exactly if what the party before it sent is that
party's first part of the secret. -/
theorem custom_open_integrity {s : scheme.Shares (Vec w n)} (hs : Scheme.Consistent s)
    {tape : Fin 4 → Source → ℕ → Cell w D} {c p : Fin 4} (hp : p ≠ c)
    {sent : Fin 4 → Fin 4 → List (Cell w D)}
    {net : Net (Fin 4) Source (Cell w D) (Except Accused (Vec w n))} {r : Except Accused (Vec w n)}
    (hdone : net.prog p = .done r) :
    (Attacks (· = c) (fun q => (openSharesA q (s q)).run) tape sent net →
      (((∃ accused, r = .error accused) ∨ r = .ok (reconstructFromA s)) ↔
        (p = c + 1 → ((sent c p).take n).map Cell.toWord = List.ofFn (s c 0)))) ∧
    (Attacks (· = c) (fun q => (openSharesB q (s q)).run) tape sent net →
      (((∃ accused, r = .error accused) ∨ r = .ok (reconstructFromB s)) ↔
        (p = c + 1 → ((sent c p).take n).map Cell.toWord = List.ofFn (s c 0)))) := by
  obtain ⟨x, rfl⟩ := hs
  have hpart : Scheme.deal (S := scheme) x c 0 = x c := congrArg x (add_zero c)
  rw [hpart]
  constructor
  · intro hatt
    have hopens : reconstructFromA (Scheme.deal x : scheme.Shares (Vec w n)) = combine (· + ·) x :=
      reconstruct_deal _ x
    have hcancel : ∀ a b b' : Vec w n, a + b = a + b' → b = b' := fun _ _ _ => add_left_cancel
    rw [hopens]
    exact openShares_returned hcancel x hp hatt hdone
  · intro hatt
    have hopens : reconstructFromB (Scheme.deal x : scheme.Shares (Vec w n)) = combine (· ^^^ ·) x :=
      reconstruct_deal _ x
    have hcancel : ∀ a b b' : Vec w n, a ^^^ b = a ^^^ b' → b = b' := by
      intro a b b' heq
      ext i : 1
      exact (BitVec.xor_right_inj _).mp (congrFun heq i)
    rw [hopens]
    exact openShares_returned hcancel x hp hatt hdone

/-- Party 0 sends 9 in place of its part 1 of the secret 10. -/
theorem exists_wrong_opening : ∃ sent net,
    Attacks (· = (0 : Fin 4)) (fun q => (openSharesA q (deal ![![1], ![2], ![3], ![4]] q)).run)
      (fun _ _ _ => (.word 0 : Cell 8 Unit)) sent net ∧
    sent 0 1 = [.word 9] ∧ net.prog 1 = .done (.ok (![18] : Vec 8 1)) := by
  have hstart : Attacks (· = (0 : Fin 4))
      (fun q => (openSharesA q (deal ![![1], ![2], ![3], ![4]] q) : Program 8 Unit (Vec 8 1)).run)
      (fun _ _ _ => .word 0) _ _ := Attacks.start
  have hinjected := Attacks.inject (p := 0) 1 [.word 9] hstart rfl
  have hsent := Attacks.honest (p := 1) hinjected (by decide) rfl
  have hreceived := Attacks.honest (p := 1) hsent (by decide) rfl
  refine ⟨_, _, hreceived, rfl, congrArg (fun z => Proc.done (Except.ok z)) ?_⟩
  ext i : 1
  match i with
  | 0 => rfl

theorem custom_open_integrity_example : ∃ (sent : Fin 4 → Fin 4 → List (Cell 8 Unit))
    (net : Net (Fin 4) Source (Cell 8 Unit) (Except Accused (Vec 8 1))) (r : Except Accused (Vec 8 1)),
    net.prog 1 = .done r ∧ (((∃ accused, r = .error accused) ∨ r = .ok (reconstructFromA
      (deal ![![1], ![2], ![3], ![4]] : scheme.Shares (Vec 8 1)))) ↔
        ((1 : Fin 4) = 0 + 1 → ((sent 0 1).take 1).map Cell.toWord = [1])) := by
  obtain ⟨sent, net, hatt, -, hdone⟩ := exists_wrong_opening
  exact ⟨sent, net, _, hdone, (custom_open_integrity ⟨_, rfl⟩ (by decide) hdone).1 hatt⟩

/-- An honest party accepts 18 for the secret 10. -/
theorem custom_open_accepts_wrong_value : ¬ ∀ (s : scheme.Shares (Vec 8 1)), Scheme.Consistent s →
    ∀ (c p : Fin 4), p ≠ c → ∀ tape sent net,
      Attacks (· = c) (fun q => (openSharesA q (s q) : Program 8 Unit (Vec 8 1)).run) tape sent net →
        ∀ r, net.prog p = .done r → (∃ accused, r = .error accused) ∨ r = .ok (reconstructFromA s) := by
  intro hall
  obtain ⟨sent, net, hatt, -, hdone⟩ := exists_wrong_opening
  rcases hall _ ⟨_, rfl⟩ 0 1 (by decide) _ sent net hatt _ hdone with ⟨accused, herror⟩ | hok
  · cases herror
  · exact absurd (congrFun (Except.ok.inj hok) 0) (by decide)

end CryptDough.Custom4PC
