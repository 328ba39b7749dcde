import CryptDough.Custom4PCPrimitives

/-! What the honest parties of the custom protocol store when one party sends what it likes: whatever is
received in a primitive is checked against the hash of a second party. -/

namespace CryptDough.Custom4PC

open Process Sharing ProtocolBase Net

variable {w n : ℕ} {D β : Type}

section Streams

variable (tape : Source → ℕ → Cell w D) (ins : Fin 4 → List (Cell w D))

theorem eval_getNext (source : Source) (f : Vec w n → Program w D β) :
    (getNext source n >>= f).run.eval tape ins =
      (f fun i => (tape source i).toWord).run.eval (advance tape source n) ins := rfl

theorem eval_sendShares (p rank : Fin 4) (v : Vec w n) (f : Unit → Program w D β) :
    (sendShares p rank v >>= f).run.eval tape ins = (f ()).run.eval tape ins := rfl

theorem eval_sendHash (p rank : Fin 4) (hash : D) (f : Unit → Program w D β) :
    (sendHash p rank hash >>= f).run.eval tape ins = (f ()).run.eval tape ins := rfl

variable {tape ins}

theorem eval_receiveShares {p rank : Fin 4} {f : Vec w n → Program w D β} {v : Except Accused β}
    (heval : (receiveShares p rank n >>= f).run.eval tape ins = some v) :
    ∃ (m : Fin n → Cell w D) (rest : List (Cell w D)), ins (p + rank) = List.ofFn m ++ rest ∧
      (f fun i => (m i).toWord).run.eval tape (Function.update ins (p + rank) rest) = some v :=
  Proc.eval_recv heval

theorem eval_receiveHash {p rank : Fin 4} {f : Option D → Program w D β} {v : Except Accused β}
    (heval : (receiveHash p rank >>= f).run.eval tape ins = some v) :
    ∃ (d : Cell w D) (rest : List (Cell w D)), ins (p + rank) = d :: rest ∧
      (f d.toDigest).run.eval tape (Function.update ins (p + rank) rest) = some v := by
  obtain ⟨m, rest, hins, hf⟩ := Proc.eval_recv heval
  exact ⟨m 0, rest, by rw [hins, List.ofFn_succ, List.ofFn_zero]; rfl, hf⟩

theorem words_inj {m : Fin n → Cell w D} {v : Vec w n} {rest rest' : List (Cell w D)}
    (heq : List.ofFn m ++ rest = words v ++ rest') : (fun i => (m i).toWord) = v ∧ rest = rest' := by
  obtain ⟨hm, hrest⟩ := List.append_inj heq (by simp [words])
  refine ⟨?_, hrest⟩
  rw [List.ofFn_injective hm]
  rfl

theorem digest_inj {d : Cell w D} {e : D} {rest rest' : List (Cell w D)}
    (heq : d :: rest = digest e ++ rest') : d.toDigest = some e ∧ rest = rest' := by
  obtain ⟨hd, hrest⟩ := List.cons.inj (heq : d :: rest = .digest e :: rest')
  exact ⟨by rw [hd]; rfl, hrest⟩

/-- A vector and a hash are taken from one party. -/
theorem eval_shares_hash_from {p rank : Fin 4} {f : Vec w n → Option D → Program w D β}
    {r : Except Accused β}
    (heval : (receiveShares p rank n >>= fun u => receiveHash p rank >>= f u).run.eval tape ins =
      some r) :
    ∃ recv hash ins', (f recv hash).run.eval tape ins' = some r ∧
      (∀ u d, ins (p + rank) = words u ++ digest d → recv = u ∧ hash = some d) ∧
      ∀ q, q ≠ p + rank → ins' q = ins q := by
  obtain ⟨m, rest, hm, heval⟩ := eval_receiveShares heval
  obtain ⟨d, rest', hd, heval⟩ := eval_receiveHash heval
  rw [Function.update_self] at hd
  refine ⟨_, _, _, heval, fun u e hins => ?_, fun q hq => ?_⟩
  · obtain ⟨hrecv, hrest⟩ := words_inj (hm.symm.trans hins)
    have hdigest : d :: rest' = digest e ++ [] := by
      rw [← hd, hrest, List.append_nil]
    exact ⟨hrecv, (digest_inj hdigest).1⟩
  · rw [Function.update_of_ne hq, Function.update_of_ne hq]

variable [DecidableEq D] {generateHash : ∀ {n : ℕ}, Vec w n → D}

theorem eval_maliciousCheck {p p1 p2 : Fin 4} {message : Vec w n} {hash : Option D}
    {f : Unit → Program w D β} {v : β}
    (heval : (maliciousCheck generateHash p message hash p1 p2 >>= f).run.eval tape ins =
      some (.ok v)) : some (generateHash message) = hash ∧ (f ()).run.eval tape ins = some (.ok v) := by
  rw [maliciousCheck] at heval
  split at heval
  · rename_i hhash
    exact ⟨hhash, heval⟩
  · cases heval

end Streams

section Sending

variable {tape : Source → ℕ → Cell w D} {full full' : Fin 4 → List (Cell w D)}

theorem emits_pure (v : β) (full : Fin 4 → List (Cell w D)) :
    (pure v : Program w D β).run.Emits tape full :=
  Proc.Emits.done _ tape full

theorem emits_getNext {source : Source} {f : Vec w n → Program w D β}
    (hf : (f fun i => (tape source i).toWord).run.Emits (advance tape source n) full) :
    (getNext source n >>= f).run.Emits tape full := hf

theorem emits_sendShares {p rank : Fin 4} {v : Vec w n} {f : Unit → Program w D β}
    (hf : (f ()).run.Emits tape full')
    (hfull : ∀ a, full a = (if a = p + rank then words v else []) ++ full' a) :
    (sendShares p rank v >>= f).run.Emits tape full := by
  rw [funext hfull]
  exact Proc.Emits.send hf

theorem emits_sendHash {p rank : Fin 4} {hash : D} {f : Unit → Program w D β}
    (hf : (f ()).run.Emits tape full')
    (hfull : ∀ a, full a = (if a = p + rank then digest hash else []) ++ full' a) :
    (sendHash p rank hash >>= f).run.Emits tape full := by
  rw [funext hfull]
  exact Proc.Emits.send hf

theorem emits_receiveShares {p rank : Fin 4} {f : Vec w n → Program w D β}
    (hf : ∀ v, (f v).run.Emits tape full) : (receiveShares p rank n >>= f).run.Emits tape full :=
  Proc.Emits.recv fun _ => hf _

theorem emits_receiveHash {p rank : Fin 4} {f : Option D → Program w D β}
    (hf : ∀ d, (f d).run.Emits tape full) : (receiveHash p rank >>= f).run.Emits tape full :=
  Proc.Emits.recv fun _ => hf _

theorem emits_maliciousCheck [DecidableEq D] {generateHash : ∀ {n : ℕ}, Vec w n → D}
    {p p1 p2 : Fin 4} {message : Vec w n} {hash : Option D} {f : Unit → Program w D β}
    (hf : (f ()).run.Emits tape full) :
    (maliciousCheck generateHash p message hash p1 p2 >>= f).run.Emits tape full := by
  rw [maliciousCheck]
  split
  · exact hf
  · exact Proc.Emits.done _ tape full

end Sending

section Vouching

variable (generateHash : ∀ {n : ℕ}, Vec w n → D)

/-- The vector `recv` came from one party and its hash from another; `ins'` is what they sent after. -/
def Vouched (ins ins' : Fin 4 → List (Cell w D)) (src hashSrc : Fin 4) (recv : Vec w n) : Prop :=
  ∃ (m : Fin n → Cell w D) (d : Cell w D), ins src = List.ofFn m ++ ins' src ∧
    ins hashSrc = d :: ins' hashSrc ∧ (fun i => (m i).toWord) = recv ∧
    d.toDigest = some (generateHash recv) ∧ ∀ q, q ≠ src → q ≠ hashSrc → ins' q = ins q

variable {generateHash} {tape : Source → ℕ → Cell w D} {ins ins' : Fin 4 → List (Cell w D)}

theorem vouched_shares_hash [DecidableEq D] {p rank rank' p1 p2 : Fin 4}
    {f : Vec w n → Program w D β} {v : β}
    (hne : p + rank ≠ p + rank')
    (heval : (do
      let recv ← receiveShares p rank n
      let hash ← receiveHash p rank'
      maliciousCheck generateHash p recv hash p1 p2
      f recv : Program w D β).run.eval tape ins = some (.ok v)) :
    ∃ recv ins', Vouched generateHash ins ins' (p + rank) (p + rank') recv ∧
      (f recv).run.eval tape ins' = some (.ok v) := by
  obtain ⟨m, rest, hm, heval⟩ := eval_receiveShares heval
  obtain ⟨d, rest', hd, heval⟩ := eval_receiveHash heval
  obtain ⟨hhash, heval⟩ := eval_maliciousCheck heval
  rw [Function.update_of_ne hne.symm] at hd
  refine ⟨_, _, ⟨m, d, ?_, ?_, rfl, hhash.symm, ?_⟩, heval⟩
  · rw [Function.update_of_ne hne, Function.update_self]
    exact hm
  · rw [Function.update_self]
    exact hd
  · intro q hq hq'
    rw [Function.update_of_ne hq', Function.update_of_ne hq]

theorem vouched_hash_shares [DecidableEq D] {p rank rank' p1 p2 : Fin 4}
    {f : Vec w n → Program w D β} {v : β}
    (hne : p + rank ≠ p + rank')
    (heval : (do
      let hash ← receiveHash p rank'
      let recv ← receiveShares p rank n
      maliciousCheck generateHash p recv hash p1 p2
      f recv : Program w D β).run.eval tape ins = some (.ok v)) :
    ∃ recv ins', Vouched generateHash ins ins' (p + rank) (p + rank') recv ∧
      (f recv).run.eval tape ins' = some (.ok v) := by
  obtain ⟨d, rest', hd, heval⟩ := eval_receiveHash heval
  obtain ⟨m, rest, hm, heval⟩ := eval_receiveShares heval
  obtain ⟨hhash, heval⟩ := eval_maliciousCheck heval
  rw [Function.update_of_ne hne] at hm
  refine ⟨_, _, ⟨m, d, ?_, ?_, rfl, hhash.symm, ?_⟩, heval⟩
  · rw [Function.update_self]
    exact hm
  · rw [Function.update_of_ne hne.symm, Function.update_self]
    exact hd
  · intro q hq hq'
    rw [Function.update_of_ne hq, Function.update_of_ne hq']

variable {src hashSrc : Fin 4} {recv v : Vec w n} {rest : List (Cell w D)}

theorem Vouched.of_src (hvouched : Vouched generateHash ins ins' src hashSrc recv)
    (hins : ins src = words v ++ rest) : recv = v ∧ ins' src = rest := by
  obtain ⟨m, d, hm, -, rfl, -⟩ := hvouched
  exact words_inj (hm.symm.trans hins)

theorem Vouched.of_hashSrc (hvouched : Vouched generateHash ins ins' src hashSrc recv)
    (hinj : Function.Injective (generateHash (n := n)))
    (hins : ins hashSrc = digest (generateHash v) ++ rest) : recv = v ∧ ins' hashSrc = rest := by
  obtain ⟨m, d, -, hd, rfl, hhash, -⟩ := hvouched
  obtain ⟨hdigest, hrest⟩ := digest_inj (hd.symm.trans hins)
  exact ⟨hinj (Option.some.inj (hhash.symm.trans hdigest)), hrest⟩

theorem Vouched.other (hvouched : Vouched generateHash ins ins' src hashSrc recv) {q : Fin 4}
    (hq : q ≠ src) (hq' : q ≠ hashSrc) : ins' q = ins q := by
  obtain ⟨m, d, -, -, -, -, hother⟩ := hvouched
  exact hother q hq hq'

end Vouching

section Product

variable [DecidableEq D] (generateHash : ∀ {n : ℕ}, Vec w n → D)
  (add minus mul : Vec w n → Vec w n → Vec w n) (x y : Fin 4 → EVec scheme w n)
  (tape : Fin 4 → Source → ℕ → Cell w D)

/-- What a party reads first from a generator, and what it reads next. -/
def firstCommon (tape : Source → ℕ → Cell w D) (rank : Fin 4) (n : ℕ) : Vec w n :=
  fun i => (tape (.common rank) i).toWord

def secondCommon (tape : Source → ℕ → Cell w D) (rank : Fin 4) (n : ℕ) : Vec w n :=
  fun i => (tape (.common rank) (n + i)).toWord

/-- The cross terms party `p` passes on, and those it hashes, from its own state. -/
def ownCross10 (p : Fin 4) : Vec w n :=
  cross10 add minus mul (x p) (y p) (firstCommon (tape p) 1 n)

def ownCross12 (p : Fin 4) : Vec w n :=
  cross12 add minus mul (x p) (y p) (firstCommon (tape p) 2 n)

def ownCross02 (p : Fin 4) : Vec w n :=
  cross02 add minus mul (x p) (y p) (secondCommon (tape p) (if p = 0 ∨ p = 1 then 1 else -1) n)

/-- What party `p` sends in the course of a product. -/
def productSent (p a : Fin 4) : List (Cell w D) :=
  (if a = p + 1 then words (ownCross10 add minus mul x y tape p) else []) ++
    ((if a = p + 2 then digest (generateHash (ownCross12 add minus mul x y tape p)) else []) ++
      oppositeSent generateHash (ownCross02 add minus mul x y tape) p a)

/-- The shares of a product from a party's own state and the vectors it received. -/
def storedProduct (p : Fin 4) (recv recv' : Vec w n) : EVec scheme w n :=
  let z0 := add recv (firstCommon (tape p) 1 n)
  let z1 := add (ownCross10 add minus mul x y tape p) (firstCommon (tape p) 2 n)
  let z2 := add (ownCross12 add minus mul x y tape p) (firstCommon (tape p) (-1) n)
  let cross02 := ownCross02 add minus mul x y tape p
  match p with
  | 0 => ![add z0 (secondCommon (tape 0) 1 n), add z1 (secondCommon (tape 0) 2 n), add z2 cross02]
  | 1 => ![add z0 (secondCommon (tape 1) 1 n), add z1 recv', add z2 cross02]
  | 2 => ![add z0 cross02, add z1 recv', add z2 (secondCommon (tape 2) (-1) n)]
  | 3 => ![add z0 cross02, add z1 (secondCommon (tape 3) 2 n), add z2 (secondCommon (tape 3) (-1) n)]

theorem emits_oppositeProducts (p : Fin 4) (z : EVec scheme w n) :
    (oppositeProducts generateHash add minus mul p (x p) (y p) z).run.Emits
      (advance (advance (advance (tape p) (.common 1) n) (.common 2) n) (.common (-1)) n)
      (oppositeSent generateHash (ownCross02 add minus mul x y tape) p) := by
  match p with
  | 0 =>
      exact emits_getNext (emits_getNext (emits_sendShares (emits_pure _ fun _ => [])
        fun _ => (List.append_nil _).symm))
  | 1 =>
      exact emits_getNext (emits_sendHash (emits_receiveHash fun hash => emits_receiveShares fun recv =>
        emits_maliciousCheck (emits_pure _ fun _ => [])) fun _ => (List.append_nil _).symm)
  | 2 =>
      exact emits_getNext (emits_sendHash (emits_receiveHash fun hash => emits_receiveShares fun recv =>
        emits_maliciousCheck (emits_pure _ fun _ => [])) fun _ => (List.append_nil _).symm)
  | 3 =>
      exact emits_getNext (emits_getNext (emits_sendShares (emits_pure _ fun _ => [])
        fun _ => (List.append_nil _).symm))

theorem emits_product (p : Fin 4) :
    (product generateHash add minus mul p (x p) (y p)).run.Emits (tape p)
      (productSent generateHash add minus mul x y tape p) := by
  rw [product, partialProducts]
  simp only [bind_assoc, pure_bind]
  refine emits_getNext (emits_getNext (emits_getNext ?_))
  refine emits_sendShares (emits_sendHash ?_ fun _ => rfl) fun _ => rfl
  refine emits_receiveShares fun recv => emits_receiveHash fun hash => emits_maliciousCheck ?_
  exact emits_oppositeProducts generateHash add minus mul x y tape p _

variable {generateHash}

/-- Every vector a party has used for its shares is the one its honest co-owners have. -/
theorem eval_product (hinj : Function.Injective (generateHash (n := n))) {c p : Fin 4}
    {ins : Fin 4 → List (Cell w D)}
    (hins : ∀ q, q ≠ c → ins q = productSent generateHash add minus mul x y tape q p)
    {z : EVec scheme w n}
    (heval : (product generateHash add minus mul p (x p) (y p)).run.eval (tape p) ins =
      some (.ok z)) :
    ∃ recv recv' : Vec w n, z = storedProduct add minus mul x y tape p recv recv' ∧
      (p + 3 ≠ c → recv = ownCross10 add minus mul x y tape (p + 3)) ∧
      (p + 2 ≠ c → recv = ownCross12 add minus mul x y tape (p + 2)) ∧
      (p = 1 → (0 ≠ c → recv' = ownCross02 add minus mul x y tape 0) ∧
        (2 ≠ c → recv' = ownCross02 add minus mul x y tape 2)) ∧
      (p = 2 → (3 ≠ c → recv' = ownCross02 add minus mul x y tape 3) ∧
        (1 ≠ c → recv' = ownCross02 add minus mul x y tape 1)) := by
  obtain ⟨h31, h22, -, h21, -⟩ := roles_sum p
  rw [product, partialProducts] at heval
  simp only [bind_assoc, pure_bind, eval_getNext, eval_sendShares, eval_sendHash] at heval
  obtain ⟨recv, ins1, hrecv, heval⟩ := vouched_shares_hash (by simp) heval
  have hsrc : p + 3 ≠ c → recv = ownCross10 add minus mul x y tape (p + 3) ∧ ins1 (p + 3) =
      (if p = p + 3 + 2 then digest (generateHash (ownCross12 add minus mul x y tape (p + 3))) else []) ++
        oppositeSent generateHash (ownCross02 add minus mul x y tape) (p + 3) p := by
    intro hc
    apply hrecv.of_src
    rw [hins _ hc, productSent, if_pos h31.symm]
  have hhash : p + 2 ≠ c → recv = ownCross12 add minus mul x y tape (p + 2) ∧ ins1 (p + 2) =
      oppositeSent generateHash (ownCross02 add minus mul x y tape) (p + 2) p := by
    intro hc
    apply hrecv.of_hashSrc hinj
    rw [hins _ hc, productSent, h21, h22, if_neg (by simp), if_pos rfl, List.nil_append]
  induction p using four_cases with
  | zero =>
      obtain rfl := Except.ok.inj (Option.some.inj heval)
      exact ⟨recv, 0, rfl, fun hc => (hsrc hc).1, fun hc => (hhash hc).1,
        (absurd · (by decide)), (absurd · (by decide))⟩
  | one =>
      simp only [oppositeProducts, eval_getNext, eval_sendHash] at heval
      obtain ⟨recv', ins2, hrecv', heval⟩ := vouched_hash_shares (by decide) heval
      obtain rfl := Except.ok.inj (Option.some.inj heval)
      refine ⟨recv, recv', rfl, fun hc => (hsrc hc).1, fun hc => (hhash hc).1,
        fun _ => ⟨fun hc => ?_, fun hc => ?_⟩,
        (absurd · (by decide))⟩
      · have hins1 : ins1 0 = words (ownCross02 add minus mul x y tape 0) ++ [] :=
          (hsrc hc).2.trans (List.append_nil _).symm
        exact (hrecv'.of_src hins1).1
      · have hins1 : ins1 2 = digest (generateHash (ownCross02 add minus mul x y tape 2)) ++ [] :=
          (hrecv.other (by decide) (by decide)).trans ((hins 2 hc).trans (List.append_nil _).symm)
        exact (hrecv'.of_hashSrc hinj hins1).1
  | two =>
      simp only [oppositeProducts, eval_getNext, eval_sendHash] at heval
      obtain ⟨recv', ins2, hrecv', heval⟩ := vouched_hash_shares (by decide) heval
      obtain rfl := Except.ok.inj (Option.some.inj heval)
      refine ⟨recv, recv', rfl, fun hc => (hsrc hc).1, fun hc => (hhash hc).1,
        (absurd · (by decide)), fun _ => ⟨fun hc => ?_, fun hc => ?_⟩⟩
      · have hins1 : ins1 3 = words (ownCross02 add minus mul x y tape 3) ++ [] :=
          (hrecv.other (by decide) (by decide)).trans ((hins 3 hc).trans (List.append_nil _).symm)
        exact (hrecv'.of_src hins1).1
      · have hins1 : ins1 1 = digest (generateHash (ownCross02 add minus mul x y tape 1)) ++ [] :=
          (hsrc hc).2.trans (List.append_nil _).symm
        exact (hrecv'.of_hashSrc hinj hins1).1
  | three =>
      obtain rfl := Except.ok.inj (Option.some.inj heval)
      exact ⟨recv, 0, rfl, fun hc => (hsrc hc).1, fun hc => (hhash hc).1,
        (absurd · (by decide)), (absurd · (by decide))⟩

end Product

section Input

variable [DecidableEq D] (generateHash : ∀ {n : ℕ}, Vec w n → D)
  (minus : Vec w n → Vec w n → Vec w n) (x : Fin 4 → Vec w n) (g : Fin 4)
  (tape : Fin 4 → Source → ℕ → Cell w D)

/-- What party `p` has masked of an input that party `g` receives. -/
def ownMasked (p : Fin 4) : Vec w n := minus (x p) (firstCommon (tape p) (g - p) n)

def inpSent (p a : Fin 4) : List (Cell w D) :=
  if a = g then
    if p = g + 3 then words (ownMasked minus x g tape p)
    else if p = g + 2 then digest (generateHash (ownMasked minus x g tape p)) else []
  else []

theorem emits_inp (p : Fin 4) :
    (inp generateHash minus p (x p) (g + 3) (g + 2) g (g + 1)).run.Emits (tape p)
      (inpSent generateHash minus x g tape p) := by
  obtain ⟨h3, h2, h1, h32, h13, h12⟩ := roles_ne g
  obtain ⟨h31, h22, -⟩ := roles_sum g
  rcases roles g p with rfl | rfl | rfl | rfl
  · rw [inp_first]
    refine emits_getNext (emits_sendShares (emits_pure _ fun _ => []) fun a => ?_)
    rw [inpSent, if_pos rfl, h31, List.append_nil]
    rfl
  · rw [inp_second]
    refine emits_getNext (emits_sendHash (emits_pure _ fun _ => []) fun a => ?_)
    rw [inpSent, if_neg h32.symm, if_pos rfl, h22, List.append_nil]
    rfl
  · rw [inp_receiver]
    exact emits_receiveShares fun recv => emits_receiveHash fun hash =>
      emits_maliciousCheck (emits_pure _ _)
  · rw [inp_last]
    exact emits_getNext (emits_pure _ _)

variable {generateHash}

theorem eval_inp (hinj : Function.Injective (generateHash (n := n))) {c : Fin 4}
    {ins : Fin 4 → List (Cell w D)}
    (hins : ∀ q, q ≠ c → ins q = inpSent generateHash minus x g tape q g) {z : EVec scheme w n}
    (heval : (inp generateHash minus g (x g) (g + 3) (g + 2) g (g + 1)).run.eval (tape g) ins =
      some (.ok z)) :
    ∃ recv : Vec w n, z = ![recv, 0, 0] ∧
      (g + 3 ≠ c → recv = ownMasked minus x g tape (g + 3)) ∧
      (g + 2 ≠ c → recv = ownMasked minus x g tape (g + 2)) := by
  rw [inp_receiver] at heval
  obtain ⟨recv, ins', hrecv, heval⟩ := vouched_shares_hash (by simp) heval
  obtain rfl := Except.ok.inj (Option.some.inj heval)
  refine ⟨recv, rfl, fun hc => ?_, fun hc => ?_⟩
  · have hsrc : ins (g + 3) = words (ownMasked minus x g tape (g + 3)) ++ [] := by
      rw [hins _ hc, inpSent, if_pos rfl, if_pos rfl, List.append_nil]
    exact (hrecv.of_src hsrc).1
  · have hhash : ins (g + 2) = digest (generateHash (ownMasked minus x g tape (g + 2))) ++ [] := by
      rw [hins _ hc, inpSent, if_pos rfl, if_neg (by simp), if_pos rfl, List.append_nil]
    exact (hrecv.of_hashSrc hinj hhash).1

end Input

section Reshare

variable (generateHash : ∀ {n : ℕ}, Vec w n → D) (v : Fin 4 → EVec scheme w n) (group : Group 3)
  (binary : Bool) (tape : Fin 4 → Source → ℕ → Cell w D)

/-- The rerandomised shares of a member, from its own state. -/
def ownReshared (p : Fin 4) : EVec scheme w n :=
  let nums := ZeroSharingGenerator.tapeVectors (fun i => (tape p (.group group) i).toWord) n 3
  fun r => Vec.plus binary (v p r) (Fin.snoc (α := fun _ => Vec w n) nums
    (ZeroSharingGenerator.dependent binary nums) (partyShare p r))

/-- What a member of the group passes on to party `g`. -/
def reshareSent (g p a : Fin 4) : List (Cell w D) :=
  let own := ownReshared v group binary tape p
  if a = g then
    if p = g + 3 then words (own 1) ++ digest (generateHash (own 2))
    else if p = g + 2 then words (own 0) ++ digest (generateHash (own 2))
    else if p = g + 1 then words (own 0) ++ digest (generateHash (own 1)) else []
  else []

variable [DecidableEq D] {g : Fin 4} (p : Fin 4)

/-- Once it has rerandomised its shares, a party passes on what it has. -/
theorem eval_reshare (hg : receiverParty group = g) : ∃ tape', ∀ ins,
    (reshare generateHash p (v p) group binary).run.eval (tape p) ins =
      (passOn generateHash p (if p = g then v p else ownReshared v group binary tape p)
        (g - p)).run.eval tape' ins ∧
    ∀ a, (reshare generateHash p (v p) group binary).run.emits (tape p) ins a =
      (passOn generateHash p (if p = g then v p else ownReshared v group binary tape p)
        (g - p)).run.emits tape' ins a := by
  let draws : Proc (Fin 4) (Group 3) (BitVec w) (EVec scheme w n) :=
    if g - p ≠ 0 then rerandomize p group (v p) binary else pure (v p)
  have hsettle : ∃ rest, draws.settle (groupTapes.read tape p) =
      (.done (if p = g then v p else ownReshared v group binary tape p), rest) := by
    by_cases hp : p = g
    · refine ⟨groupTapes.read tape p, ?_⟩
      rw [if_pos hp, show draws = pure (v p) from if_neg (by simp [hp])]
      rfl
    · refine ⟨advance (groupTapes.read tape p) group (3 * n), ?_⟩
      rw [if_neg hp, show draws = rerandomize p group (v p) binary from
        if_pos (sub_ne_zero.mpr (Ne.symm hp)), settle_rerandomize]
      rfl
  obtain ⟨rest, hsettle⟩ := hsettle
  rw [reshare, hg, ExceptT.run_bind_lift]
  exact Proc.eval_embed_bind groupTapes rfl hsettle

theorem emits_reshare (hg : receiverParty group = g) :
    (reshare generateHash p (v p) group binary).run.Emits (tape p)
    (reshareSent generateHash v group binary tape g p) := by
  obtain ⟨tape', heval⟩ := eval_reshare generateHash v group binary tape p hg
  obtain ⟨h3, h2, h1, h32, h13, h12⟩ := roles_ne g
  obtain ⟨h31, h22, h13', -⟩ := roles_sum g
  intro ins a
  rw [(heval ins).2 a]
  revert ins a
  show Proc.Emits _ tape' _
  have hsent : ∀ (u u' : Vec w n) (a : Fin 4),
      (if a = g then words u ++ digest (generateHash u') else []) =
        (if a = g then words u else []) ++ ((if a = g then digest (generateHash u') else []) ++
          ([] : List (Cell w D))) := by
    intro u u' a
    by_cases ha : a = g <;> simp [ha]
  rcases roles g p with rfl | rfl | rfl | rfl
  · rw [if_neg h3, passOn_third]
    refine emits_sendShares (emits_sendHash (emits_pure _ fun _ => []) fun a => rfl) fun a => ?_
    rw [reshareSent, if_pos rfl, h31]
    exact hsent _ _ a
  · rw [if_neg h2, passOn_second]
    refine emits_sendShares (emits_sendHash (emits_pure _ fun _ => []) fun a => rfl) fun a => ?_
    rw [reshareSent, if_neg h32.symm, if_pos rfl, h22]
    exact hsent _ _ a
  · rw [passOn_receiver]
    exact emits_receiveShares fun _ => emits_receiveHash fun _ => emits_receiveShares fun _ =>
      emits_receiveHash fun _ => emits_receiveShares fun _ => emits_receiveHash fun _ =>
        emits_maliciousCheck (emits_maliciousCheck (emits_maliciousCheck (emits_pure _ _)))
  · rw [if_neg h1, passOn_first]
    refine emits_sendShares (emits_sendHash (emits_pure _ fun _ => []) fun a => rfl) fun a => ?_
    rw [reshareSent, if_neg h13, if_neg h12, if_pos rfl, h13']
    exact hsent _ _ a

variable {generateHash}

theorem eval_reshare_receiver (hinj : Function.Injective (generateHash (n := n)))
    (hg : receiverParty group = g) {c : Fin 4} {ins : Fin 4 → List (Cell w D)}
    (hins : ∀ q, q ≠ c → ins q = reshareSent generateHash v group binary tape g q g)
    {z : EVec scheme w n}
    (heval : (reshare generateHash g (v g) group binary).run.eval (tape g) ins = some (.ok z)) :
    (g + 3 ≠ c → z 0 = ownReshared v group binary tape (g + 3) 1) ∧
    (g + 2 ≠ c → z 0 = ownReshared v group binary tape (g + 2) 2) ∧
    (g + 1 ≠ c → z 1 = ownReshared v group binary tape (g + 1) 0) ∧
    (g + 3 ≠ c → z 1 = ownReshared v group binary tape (g + 3) 2) ∧
    (g + 2 ≠ c → z 2 = ownReshared v group binary tape (g + 2) 0) ∧
    (g + 1 ≠ c → z 2 = ownReshared v group binary tape (g + 1) 1) := by
  obtain ⟨tape', hreshare⟩ := eval_reshare generateHash v group binary tape g hg
  obtain ⟨h3, h2, h1, h32, h13, h12⟩ := roles_ne g
  obtain ⟨hn1, hn2, hn3⟩ := roles_neg g
  rw [(hreshare ins).1, passOn_receiver] at heval
  obtain ⟨recv0, hash1, ins1, heval, hfirst, hins1⟩ := eval_shares_hash_from heval
  obtain ⟨recv2, hash3, ins2, heval, hsecond, hins2⟩ := eval_shares_hash_from heval
  obtain ⟨recv4, hash5, ins3, heval, hthird, -⟩ := eval_shares_hash_from heval
  obtain ⟨hcheck0, heval⟩ := eval_maliciousCheck heval
  obtain ⟨hcheck1, heval⟩ := eval_maliciousCheck heval
  obtain ⟨hcheck2, heval⟩ := eval_maliciousCheck heval
  obtain rfl := Except.ok.inj (Option.some.inj heval)
  rw [hn1] at hfirst hins1
  rw [hn2, hins1 _ h32.symm] at hsecond
  rw [hn2] at hins2
  rw [hn3, hins2 _ h12, hins1 _ h13] at hthird
  have hfirst' := fun hc => hfirst (ownReshared v group binary tape (g + 3) 1)
    (generateHash (ownReshared v group binary tape (g + 3) 2)) (by
      rw [hins _ hc, reshareSent, if_pos rfl, if_pos rfl])
  have hsecond' := fun hc => hsecond (ownReshared v group binary tape (g + 2) 0)
    (generateHash (ownReshared v group binary tape (g + 2) 2)) (by
      rw [hins _ hc, reshareSent, if_pos rfl, if_neg h32.symm, if_pos rfl])
  have hthird' := fun hc => hthird (ownReshared v group binary tape (g + 1) 0)
    (generateHash (ownReshared v group binary tape (g + 1) 1)) (by
      rw [hins _ hc, reshareSent, if_pos rfl, if_neg h13, if_neg h12, if_pos rfl])
  refine ⟨fun hc => (hfirst' hc).1, fun hc => ?_, fun hc => (hthird' hc).1, fun hc => ?_,
    fun hc => (hsecond' hc).1, fun hc => ?_⟩
  · exact hinj (Option.some.inj (hcheck0.trans (hsecond' hc).2))
  · exact hinj (Option.some.inj (hcheck1.trans (hfirst' hc).2))
  · exact hinj (Option.some.inj (hcheck2.trans (hthird' hc).2))

end Reshare

section Primitives

/-- The shares `z` of party `p` come from its own state and from vectors that its co-owners, as far as
they are not `c`, computed from theirs. -/
def StoresProduct (add minus mul : Vec w n → Vec w n → Vec w n) (x y : Fin 4 → EVec scheme w n)
    (tape : Fin 4 → Source → ℕ → Cell w D) (c p : Fin 4) (z : EVec scheme w n) : Prop :=
  ∃ recv recv' : Vec w n, z = storedProduct add minus mul x y tape p recv recv' ∧
    (p + 3 ≠ c → recv = ownCross10 add minus mul x y tape (p + 3)) ∧
    (p + 2 ≠ c → recv = ownCross12 add minus mul x y tape (p + 2)) ∧
    (p = 1 → (0 ≠ c → recv' = ownCross02 add minus mul x y tape 0) ∧
      (2 ≠ c → recv' = ownCross02 add minus mul x y tape 2)) ∧
    (p = 2 → (3 ≠ c → recv' = ownCross02 add minus mul x y tape 3) ∧
      (1 ≠ c → recv' = ownCross02 add minus mul x y tape 1))

/-- The share `z` of the receiving party `g` is what its co-owners, as far as they are not `c`,
masked. -/
def StoresInput (minus : Vec w n → Vec w n → Vec w n) (x : Fin 4 → Vec w n)
    (tape : Fin 4 → Source → ℕ → Cell w D) (c g : Fin 4) (z : EVec scheme w n) : Prop :=
  ∃ recv : Vec w n, z = ![recv, 0, 0] ∧
    (g + 3 ≠ c → recv = ownMasked minus x g tape (g + 3)) ∧
    (g + 2 ≠ c → recv = ownMasked minus x g tape (g + 2))

/-- The shares `z` of the receiving party `g` are what its co-owners, as far as they are not `c`,
rerandomised. -/
def StoresReshared (v : Fin 4 → EVec scheme w n) (group : Group 3) (binary : Bool)
    (tape : Fin 4 → Source → ℕ → Cell w D) (c g : Fin 4) (z : EVec scheme w n) : Prop :=
  (g + 3 ≠ c → z 0 = ownReshared v group binary tape (g + 3) 1) ∧
  (g + 2 ≠ c → z 0 = ownReshared v group binary tape (g + 2) 2) ∧
  (g + 1 ≠ c → z 1 = ownReshared v group binary tape (g + 1) 0) ∧
  (g + 3 ≠ c → z 1 = ownReshared v group binary tape (g + 3) 2) ∧
  (g + 2 ≠ c → z 2 = ownReshared v group binary tape (g + 2) 0) ∧
  (g + 1 ≠ c → z 2 = ownReshared v group binary tape (g + 1) 1)

/-- While party `c` sends what it likes and the others run `prog`, what party `p` returns, if it does
not abort, satisfies `good`. -/
def Detects (prog : Fin 4 → Program w D β) (tape : Fin 4 → Source → ℕ → Cell w D) (c p : Fin 4)
    (good : β → Prop) : Prop :=
  ∀ sent net, Attacks (· = c) (fun q => (prog q).run) tape sent net →
    ∀ r, net.prog p = .done r → (∃ accused, r = .error accused) ∨ ∃ z, r = .ok z ∧ good z

theorem Detects.of_eval {prog : Fin 4 → Program w D β} {tape : Fin 4 → Source → ℕ → Cell w D}
    {full : Fin 4 → Fin 4 → List (Cell w D)} (hfull : ∀ q, (prog q).run.Emits (tape q) (full q))
    {c p : Fin 4} (hp : p ≠ c) {good : β → Prop}
    (heval : ∀ ins, (∀ q, q ≠ c → ins q = full q p) → ∀ z,
      (prog p).run.eval (tape p) ins = some (.ok z) → good z) : Detects prog tape c p good := by
  intro sent net hatt r hdone
  obtain ⟨ins, hhonest, -, hins⟩ := hatt.returned (fun q _ => hfull q) hp hdone
  cases r with
  | error accused => exact Or.inl ⟨accused, rfl⟩
  | ok z => exact Or.inr ⟨z, rfl, heval ins hhonest z hins⟩

variable [DecidableEq D] {generateHash : ∀ {n : ℕ}, Vec w n → D}

theorem product_detects (hinj : Function.Injective (generateHash (n := n)))
    (add minus mul : Vec w n → Vec w n → Vec w n) (x y : Fin 4 → EVec scheme w n)
    (tape : Fin 4 → Source → ℕ → Cell w D) {c p : Fin 4} (hp : p ≠ c) :
    Detects (fun q => product generateHash add minus mul q (x q) (y q)) tape c p
      (StoresProduct add minus mul x y tape c p) :=
  Detects.of_eval (emits_product generateHash add minus mul x y tape) hp
    fun _ hins _ heval => eval_product add minus mul x y tape hinj hins heval

theorem inp_detects (hinj : Function.Injective (generateHash (n := n)))
    (minus : Vec w n → Vec w n → Vec w n) (x : Fin 4 → Vec w n)
    (tape : Fin 4 → Source → ℕ → Cell w D) {c g : Fin 4} (hg : g ≠ c) :
    Detects (fun q => inp generateHash minus q (x q) (g + 3) (g + 2) g (g + 1)) tape c g
      (StoresInput minus x tape c g) :=
  Detects.of_eval (emits_inp generateHash minus x g tape) hg
    fun _ hins _ heval => eval_inp minus x g tape hinj hins heval

theorem reshare_detects (hinj : Function.Injective (generateHash (n := n)))
    (v : Fin 4 → EVec scheme w n) (group : Group 3) (binary : Bool)
    (tape : Fin 4 → Source → ℕ → Cell w D) {c : Fin 4} (hg : receiverParty group ≠ c) :
    Detects (fun q => reshare generateHash q (v q) group binary) tape c (receiverParty group)
      (StoresReshared v group binary tape c (receiverParty group)) :=
  Detects.of_eval (fun p => emits_reshare generateHash v group binary tape p rfl) hg
    fun _ hins _ heval => eval_reshare_receiver v group binary tape hinj rfl hins heval

end Primitives

/-- The party outside the group has no part in what it receives. -/
theorem reshare_congr [DecidableEq D] (generateHash : ∀ {n : ℕ}, Vec w n → D) {group : Group 3}
    (hgroup : group ∈ getGroups) {v x : Fin 4 → EVec scheme w n} (hv : ∀ p ∈ group, v p = x p)
    (binary : Bool) (p : Fin 4) :
    reshare generateHash p (v p) group binary = reshare generateHash p (x p) group binary := by
  by_cases hp : p ∈ group
  · rw [hv p hp]
  · obtain ⟨g, rfl, hreceiver⟩ := exists_erase_of_mem_getGroups group hgroup
    obtain rfl : p = g := by simpa using hp
    simp only [reshare, hreceiver, sub_self]
    rfl

/-- The roles in which the program shares arithmetic and boolean inputs. -/
def rolesA : List (Fin 4 × Fin 4 × Fin 4 × Fin 4) := [(3, 2, 0, 1), (1, 0, 2, 3)]

def rolesB : List (Fin 4 × Fin 4 × Fin 4 × Fin 4) := [(0, 3, 1, 2), (2, 1, 3, 0)]

theorem roles_eq : ∀ r ∈ rolesA ++ rolesB, r = (r.2.2.1 + 3, r.2.2.1 + 2, r.2.2.1, r.2.2.1 + 1) := by
  intro r hr
  simp only [rolesA, rolesB, List.cons_append, List.nil_append, List.mem_cons, List.not_mem_nil,
    or_false] at hr
  rcases hr with rfl | rfl | rfl | rfl <;> rfl

/-- With an injective hash, one corrupted party and any inputs and tapes, honest parties abort or store
what their honest co-owners computed; with four honest parties nobody aborts. -/
theorem custom_detects_cheater {D : Type} [DecidableEq D] {w : ℕ}
    (generateHash : ∀ {n : ℕ}, Vec w n → D)
    (hinj : ∀ n, Function.Injective (generateHash (n := n))) :
    (∀ {n : ℕ} (x y : Fin 4 → EVec scheme w n) (tape : Fin 4 → Source → ℕ → Cell w D) (c p : Fin 4),
      p ≠ c →
      Detects (fun q => multiplyA generateHash q (x q) (y q)) tape c p
        (StoresProduct (· + ·) (· - ·) (· * ·) x y tape c p) ∧
      Detects (fun q => andB generateHash q (x q) (y q)) tape c p
        (StoresProduct (· ^^^ ·) (· ^^^ ·) (· &&& ·) x y tape c p)) ∧
    (∀ {n : ℕ} (x : Fin 4 → Vec w n) (tape : Fin 4 → Source → ℕ → Cell w D) (c i j g h : Fin 4),
      g ≠ c →
      ((i, j, g, h) ∈ rolesA → Detects (fun q => inpA generateHash q (x q) i j g h) tape c g
        (StoresInput (· - ·) x tape c g)) ∧
      ((i, j, g, h) ∈ rolesB → Detects (fun q => inpB generateHash q (x q) i j g h) tape c g
        (StoresInput (· ^^^ ·) x tape c g))) ∧
    (∀ {n : ℕ} (v : Fin 4 → EVec scheme w n) (binary : Bool)
      (tape : Fin 4 → Source → ℕ → Cell w D) (c : Fin 4), ∀ group ∈ getGroups,
      receiverParty group ≠ c →
      Detects (fun q => reshare generateHash q (v q) group binary) tape c (receiverParty group)
        (StoresReshared v group binary tape c (receiverParty group))) ∧
    (∀ {n : ℕ} {x y : scheme.Shares (Vec w n)}, Scheme.Consistent x → Scheme.Consistent y →
      Completes Correlated (fun p => multiplyA generateHash p (x p) (y p)) (fun _ => True) ∧
      Completes Correlated (fun p => andB generateHash p (x p) (y p)) (fun _ => True)) ∧
    (∀ {n : ℕ} {x : scheme.Shares (Vec w n)} (v : Fin 4 → EVec scheme w n) (binary : Bool),
      Scheme.Consistent x → ∀ group ∈ getGroups, (∀ p ∈ group, v p = x p) →
      Completes Correlated (fun p => reshare generateHash p (v p) group binary) fun _ => True) ∧
    ∀ {n : ℕ} (x : Fin 4 → Vec w n) (i j g h : Fin 4), x i = x j →
      ((i, j, g, h) ∈ rolesA →
        Completes Correlated (fun p => inpA generateHash p (x p) i j g h) fun _ => True) ∧
      ((i, j, g, h) ∈ rolesB →
        Completes Correlated (fun p => inpB generateHash p (x p) i j g h) fun _ => True) := by
  refine ⟨fun x y tape c p hp => ⟨product_detects (hinj _) _ _ _ x y tape hp,
      product_detects (hinj _) _ _ _ x y tape hp⟩, fun x tape c i j g h hg => ⟨fun hr => ?_,
      fun hr => ?_⟩, fun v binary tape c group _ hc => reshare_detects (hinj _) v group binary tape hc,
    fun hx hy => ⟨?_, ?_⟩, fun v binary hx group hgroup hv => ?_,
    fun x i j g h hij => ⟨fun hr => ?_, fun hr => ?_⟩⟩
  · have heq := roles_eq _ (List.mem_append_left rolesB hr)
    simp only [Prod.mk.injEq, true_and] at heq
    obtain ⟨rfl, rfl, rfl⟩ := heq
    exact inp_detects (hinj _) _ x tape hg
  · have heq := roles_eq _ (List.mem_append_right rolesA hr)
    simp only [Prod.mk.injEq, true_and] at heq
    obtain ⟨rfl, rfl, rfl⟩ := heq
    exact inp_detects (hinj _) _ x tape hg
  · have hopens : OpensA _ (reconstructFromA _) := ⟨hx, rfl⟩
    have hopens' : OpensA _ (reconstructFromA _) := ⟨hy, rfl⟩
    exact (completes_multiplyA generateHash hopens hopens').mono fun _ _ => trivial
  · have hopens : OpensB _ (reconstructFromB _) := ⟨hx, rfl⟩
    have hopens' : OpensB _ (reconstructFromB _) := ⟨hy, rfl⟩
    exact (completes_andB generateHash hopens hopens').mono fun _ _ => trivial
  · have hopens : OpensE binary _ (Scheme.reconstruct (Vec.plus binary) _) := ⟨hx, rfl⟩
    rw [funext fun p => reshare_congr generateHash hgroup hv binary p]
    exact (completes_reshare generateHash hgroup hopens).mono fun _ _ => trivial
  · have heq := roles_eq _ (List.mem_append_left rolesB hr)
    simp only [Prod.mk.injEq, true_and] at heq
    obtain ⟨rfl, rfl, rfl⟩ := heq
    exact (completes_inpA generateHash g _ hij rfl).mono fun _ _ => trivial
  · have heq := roles_eq _ (List.mem_append_right rolesA hr)
    simp only [Prod.mk.injEq, true_and] at heq
    obtain ⟨rfl, rfl, rfl⟩ := heq
    exact (completes_inpB generateHash g _ hij rfl).mono fun _ _ => trivial

def exampleHash {n : ℕ} (v : Vec 8 n) : List (BitVec 8) := List.ofFn v

def exampleTape : Fin 4 → Source → ℕ → Cell 8 (List (BitVec 8)) := fun _ _ _ => .word 0

/-- Party 3 sends the receiver what it should have sent, and the receiver stores what party 2 hashed. -/
theorem custom_detects_cheater_example : ∃ (net : Net (Fin 4) Source (Cell 8 (List (BitVec 8)))
    (Except Accused (EVec scheme 8 1))) (z : EVec scheme 8 1), net.prog 0 = .done (.ok z) ∧
      StoresInput (· - ·) (fun _ => ![7]) exampleTape 3 0 z := by
  have hpass : ∀ (message : Vec 8 1) (hash : Option (List (BitVec 8))) (z : EVec scheme 8 1),
      some (exampleHash message) = hash →
      (maliciousCheck exampleHash 0 message hash 2 3 >>= fun _ => pure z).run = .done (.ok z) := by
    intro message hash z heq
    rw [maliciousCheck, if_pos heq]
    rfl
  obtain ⟨sent, net, hatt, z, hdone⟩ : ∃ sent net,
      Attacks (· = 3) (fun q => (inpA exampleHash q ![7] 3 2 0 1).run) exampleTape sent net ∧
        ∃ z, net.prog 0 = .done (.ok z) := by
    have hstart : Attacks (· = 3) (fun q => (inpA exampleHash q ![7] 3 2 0 1).run) exampleTape _ _ :=
      Attacks.start
    have hdrawn := Attacks.honest (p := 2) hstart (by decide) rfl
    have hhashed := Attacks.honest (p := 2) hdrawn (by decide) rfl
    have hinjected := Attacks.inject (p := 3) 0 [.word 7] hhashed rfl
    have hreceived := Attacks.honest (p := 0) hinjected (by decide) rfl
    have hchecked := Attacks.honest (p := 0) hreceived (by decide) rfl
    exact ⟨_, _, hchecked, _, hpass _ _ _ rfl⟩
  have hinj : ∀ n, Function.Injective (exampleHash (n := n)) := fun n _ _ heq =>
    List.ofFn_injective heq
  rcases ((custom_detects_cheater exampleHash hinj).2.1 (fun _ => ![7]) exampleTape 3 3 2 0 1
    (by decide)).1 (by decide) sent net hatt (.ok z) hdone with ⟨accused, herror⟩ | ⟨z', hz, hstored⟩
  · cases herror
  · exact ⟨net, z', hdone.trans (congrArg Proc.done hz), hstored⟩

end CryptDough.Custom4PC
