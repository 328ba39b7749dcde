import CryptDough.MachineIntegers
import CryptDough.PRGAlgorithm
import Mathlib.Data.List.GetD
import Mathlib.Data.Nat.Size

/-! Random elements of a binary field, from the bytes of a generator. -/

namespace CryptDough

/-- What is used of the library for binary fields: the lowest coefficients of a polynomial are in the
first byte, and a polynomial of a degree below the modulus is its own residue. -/
structure BinaryField where
  GF2X : Type
  GF2E : Type
  degree : ℕ
  coeff : GF2X → ℕ → Bool
  fromBytes : List (BitVec 8) → GF2X
  toGF2E : GF2X → GF2E
  rep : GF2E → GF2X
  coeff_fromBytes : ∀ bytes j, coeff (fromBytes bytes) j = (bytes.getD (j / 8) 0).getLsbD (j % 8)
  rep_toGF2E : ∀ f, (∀ j, degree ≤ j → coeff f j = false) → rep (toGF2E f) = f

namespace BinaryField

variable (field : BinaryField)

theorem fromBytes_injective {bytes bytes' : List (BitVec 8)} (hlen : bytes.length = bytes'.length)
    (heq : field.fromBytes bytes = field.fromBytes bytes') : bytes = bytes' := by
  refine List.ext_getElem hlen fun i hi hi' => ?_
  rw [← List.getD_eq_getElem bytes 0 hi, ← List.getD_eq_getElem bytes' 0 hi']
  refine BitVec.eq_of_getLsbD_eq fun j hj => ?_
  have hdiv : (8 * i + j) / 8 = i := by omega
  have hmod : (8 * i + j) % 8 = j := by omega
  have hcoeff := field.coeff_fromBytes bytes (8 * i + j)
  rw [heq, field.coeff_fromBytes bytes', hdiv, hmod] at hcoeff
  exact hcoeff.symm

/-- Lists of bytes that fill the field without a reduction give different elements. -/
theorem toGF2E_fromBytes_injective {bytes bytes' : List (BitVec 8)}
    (hlen : bytes.length = bytes'.length)
    (hfits : 8 * bytes.length ≤ field.degree)
    (heq : field.toGF2E (field.fromBytes bytes) = field.toGF2E (field.fromBytes bytes')) :
    bytes = bytes' := by
  have hreduced : ∀ l : List (BitVec 8), l.length = bytes.length →
      ∀ j, field.degree ≤ j → field.coeff (field.fromBytes l) j = false := by
    intro l hl j hj
    rw [field.coeff_fromBytes, List.getD_eq_default _ _ (by omega)]
    exact BitVec.getLsbD_zero
  have hrep := congrArg field.rep heq
  rw [field.rep_toGF2E _ (hreduced bytes rfl), field.rep_toGF2E _ (hreduced bytes' hlen.symm)] at hrep
  exact field.fromBytes_injective hlen hrep

/-! Polynomials as numbers, the coefficient of `X ^ j` the bit `j`. -/

/-- Every step of the division takes off the leading coefficient. -/
def modSteps (modulus : ℕ) : (steps poly : ℕ) → ℕ
  | 0, poly => poly
  | steps + 1, poly =>
      if modulus.size ≤ poly.size then
        modSteps modulus steps (poly ^^^ (modulus <<< (poly.size - modulus.size)))
      else poly

def fromByteList (bytes : List (BitVec 8)) :
    ℕ := bytes.foldr (fun byte poly => 2 ^ 8 * poly + byte.toNat) 0

theorem testBit_fromByteList (bytes : List (BitVec 8)) (j : ℕ) :
    (fromByteList bytes).testBit j = (bytes.getD (j / 8) 0).getLsbD (j % 8) := by
  induction bytes generalizing j with
  | nil => exact (Nat.zero_testBit j).trans BitVec.getLsbD_zero.symm
  | cons byte bytes ih =>
      change (2 ^ 8 * fromByteList bytes + byte.toNat).testBit j = _
      rw [Nat.testBit_two_pow_mul_add _ byte.isLt]
      split
      · rename_i hlow
        rw [Nat.div_eq_of_lt hlow, Nat.mod_eq_of_lt hlow]
        rfl
      · rename_i hhigh
        rw [ih, (by omega : j / 8 = (j - 8) / 8 + 1), (by omega : j % 8 = (j - 8) % 8)]
        rfl

theorem modSteps_of_size_lt {modulus poly : ℕ} (hlt : poly.size ≤ modulus.size - 1) :
    modSteps modulus poly.size poly = poly := by
  cases hsize : poly.size with
  | zero => rfl
  | succ steps => rw [modSteps, if_neg (by omega)]

def residues (modulus : ℕ) : BinaryField where
  GF2X := ℕ
  GF2E := ℕ
  degree := modulus.size - 1
  coeff := Nat.testBit
  fromBytes := fromByteList
  toGF2E poly := modSteps modulus poly.size poly
  rep element := element
  coeff_fromBytes := testBit_fromByteList
  rep_toGF2E poly hpoly :=
    modSteps_of_size_lt (Nat.size_le.mpr (Nat.lt_pow_two_of_testBit poly hpoly))

/-- `X ^ 16 + X ^ 5 + X ^ 3 + X + 1` -/
def degreeSixteen : BinaryField := residues 0x1002b

theorem degreeSixteen_degree : degreeSixteen.degree = 8 * 2 := by decide

end BinaryField

namespace CommonPRG

open AESPRGAlgorithm

variable (field : BinaryField) {n m : ℕ}

/-- `div_ceil(GF2E::degree(), 8)`, kept in an `int` -/
def polyBytes : ℤ := castInt ((field.degree + 8 - 1) / 8 : ℕ)

/-- The size of the buffer; a negative one is a request for more than the address space. -/
def bufferSize (n : ℕ) : Option ℕ :=
  if 0 ≤ n * polyBytes field then some (n * polyBytes field).toNat else none

def byteAt (buf : Vec 8 m) (j : ℕ) : BitVec 8 := if h : j < m then buf ⟨j, h⟩ else 0

/-- The loop over the elements. Every one is converted from `&buf[i]`, and the `int` index is negative,
so above every size, after `2 ^ 31` of them. -/
def fieldElements (nums : Fin n → field.GF2E) (buf : Vec 8 m) (i : Fin n) : field.GF2E :=
  if i.val < 2 ^ 31 then
    field.toGF2E (field.fromBytes ((List.range (polyBytes field).toNat).map fun j => byteAt buf (i + j)))
  else nums i

def getNextGF2E (key : Keystream) (nums : Fin n → field.GF2E) : StateT ℕ Option (Fin n → field.GF2E) :=
  fun nonce => do
    let size ← bufferSize field n
    let (buf, nonce) := getNext key ⟨1, Nat.one_pos, by decide⟩ size nonce
    pure (fieldElements field nums buf, nonce)

/-- `n * k` bytes are generated for `n` elements of `k` bytes, none is left out and none is used by two
elements: element `i` is made of the bytes from `i * k` on. -/
structure UsedOnce (k n : ℕ) : Prop where
  generated : bufferSize field n = some (n * k)
  injective : ∀ nums : Fin n → field.GF2E,
    Function.Injective fun buf : Vec 8 (n * k) => fieldElements field nums buf
  window : ∀ (nums : Fin n → field.GF2E) (buf buf' : Vec 8 (n * k)) (i : Fin n),
    (∀ j < k, byteAt buf (i * k + j) = byteAt buf' (i * k + j)) →
    fieldElements field nums buf i = fieldElements field nums buf' i

variable {field} {k : ℕ}

theorem polyBytes_of_degree (hdegree : field.degree = 8 * k) :
    polyBytes field = castInt k := by
  rw [polyBytes, hdegree, (by omega : (8 * k + 8 - 1) / 8 = k)]

theorem polyBytes_eq (hdegree : field.degree = 8 * k) (hk : k < 2 ^ 31) : polyBytes field = k := by
  rw [polyBytes_of_degree hdegree, castInt_natCast hk]

theorem polyBytes_of_generated (hn : 0 < n) (hbytes : bufferSize field n = some (n * k)) :
    polyBytes field = k := by
  rw [bufferSize] at hbytes
  split at hbytes
  · rename_i hnonneg
    have hsize : ((n * polyBytes field).toNat : ℤ) = (n * k : ℕ) := congrArg _ (Option.some.inj hbytes)
    rw [Int.toNat_of_nonneg hnonneg, Nat.cast_mul] at hsize
    exact mul_left_cancel₀ (by exact_mod_cast hn.ne') hsize
  · cases hbytes

def lastByte (m : ℕ) : Vec 8 m := fun j => if j.val + 1 = m then 1 else 0

/-- The last byte of the buffer is in no window of wide elements, nor of elements the loop leaves
out. -/
theorem fieldElements_lastByte (hsize : polyBytes field = k) (hk : 0 < k) (hn : 2 ≤ n)
    (hmissed : 2 ≤ k ∨ 2 ^ 31 < n) (nums : Fin n → field.GF2E) :
    fieldElements field nums (lastByte (n * k)) = fieldElements field nums fun _ : Fin (n * k) => 0 := by
  ext i
  rw [fieldElements, fieldElements, hsize, Int.toNat_natCast]
  split
  · rename_i hfilled
    apply congrArg (fun bytes => field.toGF2E (field.fromBytes bytes))
    refine List.map_congr_left fun j hj => ?_
    have hj' := List.mem_range.mp hj
    have hi := i.isLt
    have hlast : i.val + j + 1 ≠ n * k := by
      rcases hmissed with hwide | hlong
      · have hmul : n + k ≤ n * k := Nat.add_le_mul hn hwide
        omega
      · have hmul : n * 1 + (k - 1) * 1 ≤ n * k := by
          calc n * 1 + (k - 1) * 1 ≤ n * 1 + (k - 1) * n :=
                Nat.add_le_add_left (Nat.mul_le_mul_left _ (by omega)) _
            _ = n * (1 + (k - 1)) := by rw [Nat.mul_add, Nat.mul_comm (k - 1)]
            _ = n * k := by rw [Nat.add_sub_cancel' hk]
        omega
    rw [byteAt, byteAt]
    split
    · exact if_neg hlast
    · rfl
  · rfl

/-- With one element, or elements of one byte, the windows start where they should. -/
theorem usedOnce_of_starts (hdegree : field.degree = 8 * k) (hk : 0 < k) (hsize : polyBytes field = k)
    (hn : n ≤ 2 ^ 31) (hstart : ∀ i : Fin n, i.val * k = i) : UsedOnce field k n := by
  have helement : ∀ nums (buf : Vec 8 (n * k)) (i : Fin n), fieldElements field nums buf i =
      field.toGF2E (field.fromBytes ((List.range k).map fun j => byteAt buf (i + j))) := by
    intro nums buf i
    rw [fieldElements, if_pos (by omega), hsize, Int.toNat_natCast]
  constructor
  · rw [bufferSize, hsize, if_pos (Int.mul_nonneg (Int.natCast_nonneg n) (Int.natCast_nonneg k)),
      ← Nat.cast_mul, Int.toNat_natCast]
  · intro nums buf buf' heq
    funext b
    -- the window and the place in it that hold byte `b`
    let i : Fin n := ⟨b / k, Nat.div_lt_of_lt_mul (Nat.mul_comm n k ▸ b.isLt)⟩
    have hi : fieldElements field nums buf i = fieldElements field nums buf' i := congrFun heq i
    rw [helement, helement] at hi
    have hlist := field.toGF2E_fromBytes_injective (by rw [List.length_map, List.length_map])
      (by rw [List.length_map, List.length_range, hdegree]) hi
    have hb : i.val + b % k = b := by
      rw [← hstart i]
      exact Nat.div_add_mod' b.val k
    have hbyte := List.map_inj_left.mp hlist (b % k) (List.mem_range.mpr (Nat.mod_lt _ hk))
    rwa [hb, byteAt, byteAt, dif_pos b.isLt, dif_pos b.isLt] at hbyte
  · intro nums buf buf' i hwindow
    rw [helement, helement]
    apply congrArg (fun bytes => field.toGF2E (field.fromBytes bytes))
    refine List.map_congr_left fun j hj => ?_
    have hj' := hwindow j (List.mem_range.mp hj)
    rwa [hstart] at hj'

/-- The bytes are used once exactly if there is at most one element, or an element is one byte. -/
theorem usedOnce_iff (hk : 0 < k) (hdegree : field.degree = 8 * k) :
    UsedOnce field k n ↔ n = 0 ∨ (n = 1 ∧ k < 2 ^ 31) ∨ (k = 1 ∧ n ≤ 2 ^ 31) := by
  constructor
  · intro hused
    rcases Nat.eq_zero_or_pos n with hzero | hpos
    · exact Or.inl hzero
    have hsize := polyBytes_of_generated hpos hused.generated
    have hint : k < 2 ^ 31 := by
      obtain ⟨-, hlt⟩ := castInt_inInt k
      rw [← polyBytes_of_degree hdegree, hsize] at hlt
      omega
    by_contra hnot
    push Not at hnot
    obtain ⟨-, hone, hlong⟩ := hnot
    have hn : 2 ≤ n := by
      by_contra hsmall
      exact absurd (hone (by omega)) (by omega)
    have hmissed : 2 ≤ k ∨ 2 ^ 31 < n := by
      by_contra hboth
      exact absurd (hlong (by omega)) (by omega)
    have hlen : 0 < n * k := Nat.mul_pos hpos hk
    let nums : Fin n → field.GF2E := fun _ => field.toGF2E (field.fromBytes [])
    have hbuf := hused.injective nums (fieldElements_lastByte hsize hk hn hmissed nums)
    have hlast := congrFun hbuf ⟨n * k - 1, by omega⟩
    rw [lastByte, if_pos (Nat.sub_add_cancel hlen)] at hlast
    exact absurd hlast (by decide)
  · intro hcase
    rcases hcase with hzero | ⟨hone, hint⟩ | ⟨hone, hn⟩
    · subst hzero
      constructor
      · rw [bufferSize, Nat.cast_zero, Int.zero_mul, Nat.zero_mul]
        rfl
      · intro nums buf buf' _
        ext b
        exact absurd b.isLt (by omega)
      · intro nums buf buf' i
        exact i.elim0
    · refine usedOnce_of_starts hdegree hk (polyBytes_eq hdegree hint) (by omega) fun i => ?_
      rw [(by omega : i.val = 0), Nat.zero_mul]
    · refine usedOnce_of_starts hdegree hk (polyBytes_eq hdegree (by omega)) hn fun i => ?_
      rw [hone, Nat.mul_one]

theorem usedOnce_iff_degreeSixteen :
    0 < 2 ∧ BinaryField.degreeSixteen.degree = 8 * 2 ∧
      (UsedOnce BinaryField.degreeSixteen 2 1 ↔ 1 = 0 ∨ (1 = 1 ∧ 2 < 2 ^ 31) ∨ (2 = 1 ∧ 1 ≤ 2 ^ 31)) :=
  ⟨by decide, BinaryField.degreeSixteen_degree,
    usedOnce_iff (by decide) BinaryField.degreeSixteen_degree⟩

/-- Two elements of two bytes: the fourth byte is in neither. -/
theorem not_usedOnce_degreeSixteen : ¬ UsedOnce BinaryField.degreeSixteen 2 2 := by
  intro hused
  have hsize := polyBytes_eq BinaryField.degreeSixteen_degree (by decide)
  let nums : Fin 2 → BinaryField.degreeSixteen.GF2E := fun _ => (0 : ℕ)
  have hbuf := hused.injective nums
    (fieldElements_lastByte hsize (by decide) (by decide) (Or.inl (by decide)) nums)
  exact absurd (congrFun hbuf 3) (by decide)

end CommonPRG

end CryptDough
