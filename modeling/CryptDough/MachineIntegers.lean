import Mathlib.Data.BitVec
import Mathlib.Data.Nat.Size
import Mathlib.Tactic.NormNum
import Mathlib.Tactic.Push

/-! The integers of the source: an `int` has 32 bits and a `size_t` has 64, and the arithmetic of both
wraps around (the build sets `-fwrapv`). -/

namespace CryptDough

/-- What an `int` holds of a number. -/
def castInt (x : ℤ) : ℤ := Int.bmod x 4294967296

def InInt (x : ℤ) : Prop := -2147483648 ≤ x ∧ x < 2147483648

instance (x : ℤ) : Decidable (InInt x) := inferInstanceAs (Decidable (_ ∧ _))

/-- What a `long long` holds. -/
def InLongLong (x : ℤ) : Prop := -2 ^ 63 ≤ x ∧ x < 2 ^ 63

instance (x : ℤ) : Decidable (InLongLong x) := inferInstanceAs (Decidable (_ ∧ _))

/-- What a `size_t` holds of a number. -/
def castSize (x : ℤ) : ℕ := (x % 2 ^ 64).toNat

/-- The largest `size_t`, which is also what `-1` becomes. -/
def sizeMax : ℕ := 2 ^ 64 - 1

/-- The difference of two `size_t`s. -/
def sizeSub (a b : ℕ) : ℕ := if b ≤ a then a - b else 2 ^ 64 + a - b

/-- The sum of two `size_t`s. -/
def sizeAdd (a b : ℕ) : ℕ := if a + b < 2 ^ 64 then a + b else a + b - 2 ^ 64

/-- The product of two `size_t`s. -/
def sizeMul (a b : ℕ) : ℕ := a * b % 2 ^ 64

/-- `1 << k` on `int`, undefined for negative `k` and for the width of `int` and more. -/
def shiftOne (k : ℤ) : Option (BitVec 32) := if 0 ≤ k ∧ k < 32 then some (1 <<< k.toNat) else none

/-- `size_t gap = 1 << k`. -/
def gapOf (k : ℤ) : Option (BitVec 64) := (shiftOne k).map fun gap => gap.signExtend 64

/-- `std::bit_width` -/
def bitWidth (x : BitVec 64) : ℤ := x.toNat.size

section Casts

variable {x : ℤ} {n : ℕ}

theorem castInt_inInt (x : ℤ) : InInt (castInt x) := by
  have hle := Int.le_bmod (x := x) (m := 4294967296) (by decide)
  have hlt := Int.bmod_lt (x := x) (m := 4294967296) (by decide)
  unfold castInt InInt
  omega

theorem castInt_eq_self (hx : InInt x) : castInt x = x := by
  apply Int.bmod_eq_of_le
  · exact hx.1
  · exact hx.2

theorem castInt_natCast (hn : n < 2147483648) : castInt n = n :=
  castInt_eq_self ⟨by omega, by omega⟩

/-- The cast of a number that is too large is another number. -/
theorem castInt_eq_iff : castInt x = x ↔ InInt x :=
  ⟨fun heq => heq ▸ castInt_inInt x, castInt_eq_self⟩

theorem castInt_of_ge (hx : 2147483648 ≤ x) (hlt : x < 6442450944) : castInt x = x - 4294967296 := by
  unfold castInt
  rw [Int.bmod_def]
  push_cast
  split <;> omega

theorem castInt_le (n : ℕ) : castInt n ≤ n := by
  unfold castInt
  rw [Int.bmod_def]
  push_cast
  split <;> omega

theorem castInt_natCast_eq (n : ℕ) : castInt n =
    if n % 4294967296 < 2147483648 then (n % 4294967296 : ℤ) else n % 4294967296 - 4294967296 := by
  unfold castInt
  rw [Int.bmod_def]
  split <;> split <;> omega

theorem toInt_ofNat (n : ℕ) : (BitVec.ofNat 32 n).toInt = castInt n :=
  BitVec.toInt_ofNat' n

theorem castSize_eq (hnonneg : 0 ≤ x) (hlt : x < 2 ^ 64) : castSize x = x.toNat := by
  rw [castSize, Int.emod_eq_of_lt hnonneg hlt]

theorem castSize_natCast (hn : n < 2 ^ 64) : castSize n = n := by
  rw [castSize_eq (by omega) (by omega), Int.toNat_natCast]

theorem sizeSub_of_le {a b : ℕ} (hle : b ≤ a) : sizeSub a b = a - b := if_pos hle

theorem sizeMul_of_lt {a b : ℕ} (hlt : a * b < 2 ^ 64) : sizeMul a b = a * b := Nat.mod_eq_of_lt hlt

end Casts

end CryptDough
