import Mathlib.Data.BitVec
import Mathlib.Data.List.TakeWhile
import Mathlib.Data.Nat.Digits.Lemmas

/-! Decimal numbers as bytes of text, how a stream reads them back, and lines. -/

namespace CryptDough.DecimalText

abbrev Byte := BitVec 8

def newline : Byte := 10#8

def space : Byte := 32#8

def minus : Byte := 45#8

def digit (d : ℕ) : Byte := BitVec.ofNat 8 (48 + d)

def isDigit (b : Byte) : Bool := decide (48 ≤ b.toNat ∧ b.toNat ≤ 57)

def natText (n : ℕ) : List Byte := if n = 0 then [digit 0] else (Nat.digits 10 n).reverse.map digit

def intText (z : ℤ) : List Byte := if z < 0 then minus :: natText z.natAbs else natText z.natAbs

def digitsValue (l : List Byte) : ℕ := l.foldl (fun v b => 10 * v + (b.toNat - 48)) 0

/-- The digits at the front. -/
def readNat (text : List Byte) : Option (ℕ × List Byte) :=
  if text.takeWhile isDigit = [] then none
  else some (digitsValue (text.takeWhile isDigit), text.dropWhile isDigit)

/-- A sign and digits. -/
def readInt : List Byte → Option (ℤ × List Byte)
  | [] => none
  | b :: text =>
      if b = minus then (readNat text).map fun r => (-(r.1 : ℤ), r.2)
      else (readNat (b :: text)).map fun r => ((r.1 : ℤ), r.2)

/-- What `getline` returns, one after the other. -/
def lines : List Byte → List (List Byte)
  | [] => []
  | b :: text =>
      if b = newline then [] :: lines text
      else match lines text with
        | [] => [[b]]
        | line :: rest => (b :: line) :: rest

section Numbers

variable {n d : ℕ} {rest : List Byte}

theorem toNat_digit (hd : d < 10) : (digit d).toNat = 48 + d := by
  rw [digit, BitVec.toNat_ofNat]
  omega

theorem isDigit_digit (hd : d < 10) : isDigit (digit d) = true := by
  rw [isDigit, toNat_digit hd]
  exact decide_eq_true (by omega)

theorem isDigit_of_mem_natText {b : Byte} (hb : b ∈ natText n) : isDigit b = true := by
  rw [natText] at hb
  split at hb
  · rw [List.mem_singleton.mp hb]
    exact isDigit_digit (by decide)
  · obtain ⟨d, hd, rfl⟩ := List.mem_map.mp hb
    exact isDigit_digit (Nat.digits_lt_base (by decide) (List.mem_reverse.mp hd))

theorem natText_ne_nil (n : ℕ) : natText n ≠ [] := by
  rw [natText]
  split
  · exact List.cons_ne_nil _ _
  · rename_i hn
    rw [Ne, List.map_eq_nil_iff, List.reverse_eq_nil_iff]
    exact Nat.digits_ne_nil_iff_ne_zero.mpr hn

/-- The value of digits, the most significant one first. -/
theorem digitsValue_reverse {l : List ℕ} (hl : ∀ d ∈ l, d < 10) :
    digitsValue (l.reverse.map digit) = Nat.ofDigits 10 l := by
  induction l with
  | nil => rfl
  | cons d l ih =>
      have hd := toNat_digit (hl d List.mem_cons_self)
      have hrest := ih fun d hd => hl d (List.mem_cons_of_mem _ hd)
      rw [digitsValue] at hrest ⊢
      rw [List.reverse_cons, List.map_append, List.foldl_append, hrest, Nat.ofDigits_cons]
      change 10 * Nat.ofDigits 10 l + ((digit d).toNat - 48) = _
      rw [hd]
      omega

theorem digitsValue_natText (n : ℕ) : digitsValue (natText n) = n := by
  rw [natText]
  split
  · rename_i hn
    rw [hn]
    rfl
  · rw [digitsValue_reverse fun d hd => Nat.digits_lt_base (by decide) hd, Nat.ofDigits_digits]

/-- A number ends where the digits do. -/
theorem readNat_natText (n : ℕ) (hrest : ∀ b ∈ rest.head?, isDigit b = false) :
    readNat (natText n ++ rest) = some (n, rest) := by
  have hdigits : ∀ b ∈ natText n, isDigit b = true := fun b hb => isDigit_of_mem_natText hb
  have hstop : rest.takeWhile isDigit = [] ∧ rest.dropWhile isDigit = rest := by
    cases rest with
    | nil => exact ⟨rfl, rfl⟩
    | cons b rest =>
        have hb := hrest b rfl
        exact ⟨List.takeWhile_cons_of_neg (by rw [hb]; exact Bool.false_ne_true),
          List.dropWhile_cons_of_neg (by rw [hb]; exact Bool.false_ne_true)⟩
  rw [readNat, List.takeWhile_append_of_pos hdigits, List.dropWhile_append_of_pos hdigits, hstop.1, hstop.2,
    List.append_nil, if_neg (natText_ne_nil n), digitsValue_natText]

theorem readInt_intText (z : ℤ) (hrest : ∀ b ∈ rest.head?, isDigit b = false) :
    readInt (intText z ++ rest) = some (z, rest) := by
  rw [intText]
  split
  · rename_i hneg
    have habs : -(z.natAbs : ℤ) = z := by omega
    rw [List.cons_append, readInt, if_pos rfl, readNat_natText _ hrest, Option.map_some, habs]
  · rename_i hpos
    have habs : (z.natAbs : ℤ) = z := by omega
    obtain ⟨b, text, htext⟩ := List.exists_cons_of_ne_nil (natText_ne_nil z.natAbs)
    have hdigit : isDigit b = true := isDigit_of_mem_natText (n := z.natAbs) (by
      rw [htext]
      exact List.mem_cons_self)
    have hne : b ≠ minus := fun heq => by
      rw [heq] at hdigit
      exact absurd hdigit (by decide)
    have hread := readNat_natText z.natAbs hrest
    rw [htext, List.cons_append] at hread ⊢
    rw [readInt, if_neg hne, hread, Option.map_some, habs]

theorem mem_intText {z : ℤ} {b : Byte} (hb : b ∈ intText z) : b = minus ∨ isDigit b = true := by
  rw [intText] at hb
  split at hb
  · rcases List.mem_cons.mp hb with hsign | hdigit
    · exact Or.inl hsign
    · exact Or.inr (isDigit_of_mem_natText hdigit)
  · exact Or.inr (isDigit_of_mem_natText hb)

theorem intText_ne_nil (z : ℤ) : intText z ≠ [] := by
  rw [intText]
  split
  · exact List.cons_ne_nil _ _
  · exact natText_ne_nil _

end Numbers

/-- A line that is written is a line that is read. -/
theorem lines_append {line rest : List Byte} (hline : newline ∉ line) :
    lines (line ++ newline :: rest) = line :: lines rest := by
  induction line with
  | nil => rw [List.nil_append, lines, if_pos rfl]
  | cons b line ih =>
      have hb : b ≠ newline := fun heq => hline (heq ▸ List.mem_cons_self)
      rw [List.cons_append, lines, if_neg hb, ih fun hmem => hline (List.mem_cons_of_mem _ hmem)]

theorem lines_flatMap {α : Type} {f : α → List Byte} {l : List α} (hline : ∀ a ∈ l, newline ∉ f a) :
    lines (l.flatMap fun a => f a ++ [newline]) = l.map f := by
  induction l with
  | nil => rfl
  | cons a l ih =>
      rw [List.flatMap_cons, List.append_assoc, List.singleton_append,
        lines_append (hline a List.mem_cons_self), ih fun b hb => hline b (List.mem_cons_of_mem _ hb),
        List.map_cons]

end CryptDough.DecimalText
