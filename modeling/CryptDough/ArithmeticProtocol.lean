import CryptDough.SPDZ2kPrograms

/-! Arithmetic sharing as the protocols built on top of it use it: containers that open to vectors
modulo `2 ^ w`, of which SPDZ-2k is an instance. -/

namespace CryptDough

open Execution

/-- A protocol on shared vectors of `n` elements. `value` is what a container opens to, and `Inv`
says that the parties have followed the protocol so far. -/
structure ArithmeticProtocol (w n : ℕ) where
  State : Type
  Container : Type
  zero : Container
  addA : Container → Container → Container
  subA : Container → Container → Container
  multiplyPublicA : Container → Vec w n → Container
  publicShare : Vec w n → Container
  multiplyA : Container → Container → Execution State Container
  openSharesA : Container → Execution State (Vec w n)
  Inv : State → Prop
  Valid : Container → Prop
  value : Container → Vec w n
  zero_opens : Valid zero ∧ value zero = 0
  addA_opens : ∀ {x y}, Valid x → Valid y → Valid (addA x y) ∧ value (addA x y) = value x + value y
  subA_opens : ∀ {x y}, Valid x → Valid y → Valid (subA x y) ∧ value (subA x y) = value x - value y
  multiplyPublicA_opens : ∀ {x}, Valid x → ∀ v,
    Valid (multiplyPublicA x v) ∧ value (multiplyPublicA x v) = value x * v
  publicShare_opens : ∀ v, Valid (publicShare v) ∧ value (publicShare v) = v
  multiplyA_opens : ∀ {x y}, Valid x → Valid y →
    Meets Inv False (multiplyA x y) fun z => Valid z ∧ value z = value x * value y
  openSharesA_opens : ∀ {x}, Valid x → Meets Inv False (openSharesA x) fun v => v = value x

namespace ArithmeticProtocol

variable {w n : ℕ} (P : ArithmeticProtocol w n)

instance : Zero P.Container := ⟨P.zero⟩

instance : Add P.Container := ⟨P.addA⟩

instance : Sub P.Container := ⟨P.subA⟩

instance : HMul P.Container (Vec w n) P.Container := ⟨P.multiplyPublicA⟩

/-- The container is valid and opens to `v`. -/
def Opens (x : P.Container) (v : Vec w n) : Prop := P.Valid x ∧ P.value x = v

/-- `op` never stops the program, and what it yields has `post`. -/
abbrev Yields {α : Type} (op : Execution P.State α) (post : α → Prop) : Prop :=
  Meets P.Inv False op post

variable {P} {x y : P.Container} {u v : Vec w n}

namespace Opens

theorem congr (hx : P.Opens x u) (huv : u = v) : P.Opens x v := huv ▸ hx

theorem zero : P.Opens 0 0 := P.zero_opens

theorem add (hx : P.Opens x u) (hy : P.Opens y v) : P.Opens (x + y) (u + v) := by
  obtain ⟨hvalid, hvalue⟩ := P.addA_opens hx.1 hy.1
  exact ⟨hvalid, by rw [← hx.2, ← hy.2]; exact hvalue⟩

theorem sub (hx : P.Opens x u) (hy : P.Opens y v) : P.Opens (x - y) (u - v) := by
  obtain ⟨hvalid, hvalue⟩ := P.subA_opens hx.1 hy.1
  exact ⟨hvalid, by rw [← hx.2, ← hy.2]; exact hvalue⟩

theorem mul (hx : P.Opens x u) (v : Vec w n) : P.Opens (x * v) (u * v) := by
  obtain ⟨hvalid, hvalue⟩ := P.multiplyPublicA_opens hx.1 v
  exact ⟨hvalid, by rw [← hx.2]; exact hvalue⟩

theorem publicShare (v : Vec w n) : P.Opens (P.publicShare v) v := P.publicShare_opens v

theorem multiplyA (hx : P.Opens x u) (hy : P.Opens y v) :
    P.Yields (P.multiplyA x y) fun z => P.Opens z (u * v) := by
  apply (P.multiplyA_opens hx.1 hy.1).mono
  rintro z ⟨hvalid, hvalue⟩
  exact ⟨hvalid, by rw [hvalue, hx.2, hy.2]⟩

theorem openSharesA (hx : P.Opens x u) : P.Yields (P.openSharesA x) fun v => v = u := by
  apply (P.openSharesA_opens hx.1).mono
  rintro v rfl
  exact hx.2

end Opens

end ArithmeticProtocol

namespace SPDZ2k

variable {parties k s : ℕ} {Digest : Type} [NeZero parties] [DecidableEq Digest]

/-- SPDZ-2k with honest parties. -/
def arithmetic (S : Setup parties k s Digest) (honest : S.Honest) (n : ℕ) : ArithmeticProtocol k n where
  State := Joint parties (k + s)
  Container := Sharing parties (k + s) n
  zero := 0
  addA x y := x + y
  subA x y := x - y
  multiplyPublicA := multiplyPublicA
  publicShare := publicShare S
  multiplyA := multiplyA S
  openSharesA := openSharesA S
  Inv := Accounted S
  Valid := Authenticated S.alpha
  value x := toData (opened x)
  zero_opens := ⟨Authenticated.zero, by rw [opened_zero, toData_zero]⟩
  addA_opens hx hy := ⟨hx.add hy, by rw [opened_add, toData_add]⟩
  subA_opens hx hy := ⟨hx.sub hy, by rw [opened_sub, toData_sub]⟩
  multiplyPublicA_opens hx v := by
    obtain ⟨hauthenticated, hopened⟩ := shares_multiplyPublicA hx v
    exact ⟨hauthenticated, by rw [hopened honest, toData_mul, toData_fromData]⟩
  publicShare_opens v := by
    obtain ⟨hauthenticated, hopened⟩ : Shares S (fromData s v) (publicShare S v) :=
      shares_publicShare v
    exact ⟨hauthenticated, by rw [hopened honest, toData_fromData]⟩
  multiplyA_opens hx hy := (multiplyA_establishes hx hy).never_stops (not_not.mpr honest) fun z hz =>
    ⟨hz.1, by rw [hz.2 honest, toData_mul]⟩
  openSharesA_opens hx := (openSharesA_establishes hx).never_stops (not_not.mpr honest) fun v hv =>
    hv honest

end SPDZ2k

end CryptDough
