import CryptDough.DecimalText
import CryptDough.MappedVector

/-! Files of shares: a line for each element of a vector with one value for each replica, written with
the stream format of the share type and parsed again. A share of one byte is a character to a stream.
-/

namespace CryptDough.ShareFiles

open DecimalText

inductive ShareType
  | int8 | int16 | int32 | int64
deriving DecidableEq

def ShareType.bits : ShareType → ℕ
  | int8 => 8
  | int16 => 16
  | int32 => 32
  | int64 => 64

def comma : Byte := 44#8

/-- `contents[j][i]` is the entry `j` of the row `i`. -/
abbrev Contents (w replicas n : ℕ) : Type := Fin n → Fin replicas → BitVec w

/-- What is left of a stream, unless an extraction has failed. -/
abbrev Stream : Type := Option (List Byte)

namespace ShareType

/-- What `<<` writes. -/
def shown : (t : ShareType) → BitVec t.bits → List Byte
  | int8, x => [x]
  | int16, x => intText (BitVec.toInt x)
  | int32, x => intText (BitVec.toInt x)
  | int64, x => intText (BitVec.toInt x)

end ShareType

/-- `>>` of a character, which skips spaces; a failure leaves the old value. -/
def extractChar (stream : Stream) (old : Byte) : Byte × Stream :=
  match stream with
  | none => (old, none)
  | some text =>
      match text.dropWhile (· = space) with
      | [] => (old, none)
      | b :: rest => (b, some rest)

/-- `>>` of a number, which is zero if there is none, and the nearest one if it does not fit. -/
def extractInt {w : ℕ} (stream : Stream) (old : BitVec w) : BitVec w × Stream :=
  match stream with
  | none => (old, none)
  | some text =>
      match text.dropWhile (· = space) with
      | [] => (old, none)
      | b :: rest =>
          match readInt (b :: rest) with
          | none => (0, none)
          | some (z, rest) =>
              if z < -2 ^ (w - 1) then (BitVec.intMin w, none)
              else if 2 ^ (w - 1) ≤ z then (BitVec.intMax w, none)
              else (BitVec.ofInt w z, some rest)

def ShareType.extract : (t : ShareType) → Stream → BitVec t.bits → BitVec t.bits × Stream
  | int8 => extractChar
  | int16 => extractInt
  | int32 => extractInt
  | int64 => extractInt

section Files

variable (t : ShareType) {replicas n : ℕ}

def rowText (row : Fin replicas → BitVec t.bits) : List Byte :=
  (List.finRange replicas).flatMap fun j =>
    t.shown (row j) ++ if j.val < replicas - 1 then [comma] else []

/-- `EVector::output`. -/
def output (contents : Contents t.bits replicas n) : List Byte :=
  (List.finRange n).flatMap fun i => rowText t (contents i) ++ [newline]

def replaceCommas (line : List Byte) : List Byte := line.map fun b => if b = comma then space else b

def allowed (b : Byte) : Bool := b = space || b = minus || isDigit b

/-- The extractions from one line. -/
def parseLine (line : List Byte) (old : Fin replicas → BitVec t.bits) : Fin replicas → BitVec t.bits :=
  ((List.finRange replicas).foldl (fun (s : (Fin replicas → BitVec t.bits) × Stream) j =>
    (Function.update s.1 j (t.extract s.2 (s.1 j)).1, (t.extract s.2 (s.1 j)).2)) (old, some line)).1

/-- The loop over the lines. The row is an `int`, which past its last value is negative, and so larger
than every size. -/
def readLines : List (List Byte) → ℕ → Contents t.bits replicas n → Contents t.bits replicas n
  | [], _, contents => contents
  | line :: lines, i, contents =>
      if hi : i < n ∧ i < intEntries then
        if (replaceCommas line).all allowed then
          readLines lines (i + 1)
            (Function.update contents ⟨i, hi.1⟩ (parseLine t (replaceCommas line) (contents ⟨i, hi.1⟩)))
        else readLines lines i contents
      else contents

/-- `EVector(size, file)`. -/
def input (file : List Byte) : Contents t.bits replicas n := readLines t (lines file) 0 fun _ _ => 0

end Files

/-- A character that a line may have beside spaces. -/
def isNumeral (b : Byte) : Bool := b = minus || isDigit b

/-- The values that are read as they are written. -/
def ShareType.readable : (t : ShareType) → BitVec t.bits → Bool
  | int8, x => isNumeral x
  | int16, _ => true
  | int32, _ => true
  | int64, _ => true

/-- What a file restores: rows of values that are read as they are written, and after these rows of
zeros. -/
def Restorable (t : ShareType) {replicas n : ℕ} (contents : Contents t.bits replicas n) : Prop :=
  ∃ m ≤ intEntries, ∀ i, if i.val < m then ∀ j, t.readable (contents i j) = true
    else ∀ j, contents i j = 0

section Values

variable {pad rest : List Byte}

theorem dropWhile_space (hpad : ∀ b ∈ pad, b = space) {b : Byte} (hb : b ≠ space) (text : List Byte) :
    (pad ++ b :: text).dropWhile (· = space) = b :: text := by
  rw [List.dropWhile_append_of_pos fun b hb => decide_eq_true (hpad b hb)]
  exact List.dropWhile_cons_of_neg (by simpa using hb)

theorem isNumeral_iff {b : Byte} : isNumeral b = true ↔ b = minus ∨ isDigit b = true := by
  rw [isNumeral, Bool.or_eq_true, decide_eq_true_iff]

theorem isNumeral_ne {b c : Byte} (hb : isNumeral b = true) (hc : isNumeral c = false) : b ≠ c := by
  rintro rfl
  rw [hb] at hc
  cases hc

theorem allowed_of_isNumeral {b : Byte} (hb : isNumeral b = true) : allowed b = true := by
  rcases isNumeral_iff.mp hb with hsign | hdigit
  · rw [hsign]
    rfl
  · rw [allowed, hdigit, Bool.or_true]

theorem isNumeral_of_allowed {b : Byte} (hb : allowed b = true) (hne : b ≠ space) : isNumeral b = true := by
  rw [allowed, Bool.or_eq_true, Bool.or_eq_true, decide_eq_true_iff, decide_eq_true_iff] at hb
  rw [isNumeral_iff]
  rcases hb with (hspace | hsign) | hdigit
  · exact absurd hspace hne
  · exact Or.inl hsign
  · exact Or.inr hdigit

theorem isNumeral_of_mem_intText {z : ℤ} {b : Byte} (hb : b ∈ intText z) : isNumeral b = true :=
  isNumeral_iff.mpr (mem_intText hb)

/-- A number of the type's width is read back. -/
theorem extractInt_intText {w : ℕ} (hpad : ∀ b ∈ pad, b = space)
    (hrest : ∀ b ∈ rest.head?, b = space) (x old : BitVec w) :
    extractInt (some (pad ++ (intText x.toInt ++ rest))) old = (x, some rest) := by
  obtain ⟨b, text, htext⟩ := List.exists_cons_of_ne_nil (intText_ne_nil x.toInt)
  have hnumeral : isNumeral b = true := isNumeral_of_mem_intText (z := x.toInt) (by
    rw [htext]
    exact List.mem_cons_self)
  have hskip := dropWhile_space hpad (isNumeral_ne hnumeral (c := space) rfl) (text ++ rest)
  have hread : readInt (intText x.toInt ++ rest) = some (x.toInt, rest) :=
    readInt_intText x.toInt fun b hb => by
      rw [hrest b hb]
      rfl
  have hlow : -2 ^ (w - 1) ≤ x.toInt := BitVec.le_toInt x
  have hhigh : x.toInt < 2 ^ (w - 1) := BitVec.toInt_lt
  rw [htext, List.cons_append] at hread ⊢
  rw [extractInt]
  simp only [hskip, hread, if_neg (not_lt.mpr hlow), if_neg (not_le.mpr hhigh), BitVec.ofInt_toInt]

theorem extractChar_numeral {b : Byte} (hb : isNumeral b = true) (hpad : ∀ b ∈ pad, b = space) (old : Byte) :
    extractChar (some (pad ++ ([b] ++ rest))) old = (b, some rest) := by
  have hskip := dropWhile_space hpad (isNumeral_ne hb (c := space) rfl) rest
  rw [List.singleton_append, extractChar]
  simp only [hskip]

theorem extract_shown {t : ShareType} {x : BitVec t.bits} (hx : t.readable x = true) (rest : List Byte)
    (hpad : ∀ b ∈ pad, b = space) (hrest : ∀ b ∈ rest.head?, b = space) (old : BitVec t.bits) :
    t.extract (some (pad ++ (t.shown x ++ rest))) old = (x, some rest) := by
  cases t with
  | int8 => exact extractChar_numeral hx hpad old
  | int16 => exact extractInt_intText hpad hrest x old
  | int32 => exact extractInt_intText hpad hrest x old
  | int64 => exact extractInt_intText hpad hrest x old

theorem isNumeral_of_mem_shown {t : ShareType} {x : BitVec t.bits} (hx : t.readable x = true) {b : Byte}
    (hb : b ∈ t.shown x) : isNumeral b = true := by
  cases t with
  | int8 =>
      obtain rfl := List.mem_singleton.mp hb
      exact hx
  | int16 => exact isNumeral_of_mem_intText hb
  | int32 => exact isNumeral_of_mem_intText hb
  | int64 => exact isNumeral_of_mem_intText hb

end Values

section Rows

variable {t : ShareType} {replicas n : ℕ}

/-- A row with spaces in the place of commas. -/
def spacedText (t : ShareType) (row : Fin (replicas + 1) → BitVec t.bits) : List Byte :=
  ((List.finRange replicas).map Fin.castSucc).flatMap (fun j => t.shown (row j) ++ [space]) ++
    t.shown (row (Fin.last replicas))

theorem replaceCommas_rowText {row : Fin (replicas + 1) → BitVec t.bits}
    (hrow : ∀ j, t.readable (row j) = true) : replaceCommas (rowText t row) = spacedText t row := by
  have hshown : ∀ j, (t.shown (row j)).map (fun b => if b = comma then space else b) = t.shown (row j) := by
    intro j
    refine (List.map_congr_left fun b hb => ?_).trans (List.map_id _)
    exact if_neg (isNumeral_ne (isNumeral_of_mem_shown (hrow j) hb) rfl)
  rw [replaceCommas, rowText, spacedText, List.finRange_succ_last, List.flatMap_append, List.flatMap_singleton,
    List.map_append, List.map_flatMap]
  congr 1
  · refine List.flatMap_congr fun j hj => ?_
    obtain ⟨k, -, rfl⟩ := List.mem_map.mp hj
    have hlt : (Fin.castSucc k).val < replicas + 1 - 1 := k.isLt
    rw [if_pos hlt, List.map_append, hshown]
    rfl
  · have hlast : ¬ (Fin.last replicas).val < replicas + 1 - 1 := Nat.lt_irrefl _
    rw [if_neg hlast, List.append_nil, hshown]

/-- The extractions from values that are each followed by a space. -/
theorem foldl_extract {row : Fin (replicas + 1) → BitVec t.bits} (hrow : ∀ j, t.readable (row j) = true)
    (js : List (Fin (replicas + 1))) (text : List Byte) (old : Fin (replicas + 1) → BitVec t.bits)
    (pad : List Byte) (hpad : ∀ b ∈ pad, b = space) :
    ∃ pad', (∀ b ∈ pad', b = space) ∧
      js.foldl (fun (s : (Fin (replicas + 1) → BitVec t.bits) × Stream) j =>
          (Function.update s.1 j (t.extract s.2 (s.1 j)).1, (t.extract s.2 (s.1 j)).2))
        (old, some (pad ++ (js.flatMap (fun j => t.shown (row j) ++ [space]) ++ text))) =
      (fun j => if j ∈ js then row j else old j, some (pad' ++ text)) := by
  induction js generalizing old pad with
  | nil => exact ⟨pad, hpad, by simp⟩
  | cons j js ih =>
      have hspaces : ∀ b ∈ [space], b = space := fun b hb => List.mem_singleton.mp hb
      obtain ⟨pad', hpad', hfold⟩ := ih (Function.update old j (row j)) [space] hspaces
      have hextract := extract_shown (hrow j)
        (space :: (js.flatMap (fun j => t.shown (row j) ++ [space]) ++ text)) hpad
        (fun b hb => (Option.some.inj hb).symm) (old j)
      refine ⟨pad', hpad', ?_⟩
      rw [List.flatMap_cons, List.foldl_cons, List.append_assoc, List.append_assoc, List.singleton_append]
      simp only [hextract]
      refine hfold.trans (congrArg (·, some (pad' ++ text)) (funext fun k => ?_))
      by_cases hk : k = j
      · rw [hk, Function.update_self, if_pos List.mem_cons_self, ite_self]
      · simp only [List.mem_cons, hk, false_or, Function.update_of_ne hk]

theorem parseLine_rowText {row : Fin (replicas + 1) → BitVec t.bits} (hrow : ∀ j, t.readable (row j) = true)
    (old : Fin (replicas + 1) → BitVec t.bits) : parseLine t (replaceCommas (rowText t row)) old = row := by
  obtain ⟨pad, hpad, hfold⟩ := foldl_extract hrow ((List.finRange replicas).map Fin.castSucc)
    (t.shown (row (Fin.last replicas))) old [] fun _ hb => absurd hb List.not_mem_nil
  have hextract := extract_shown (hrow (Fin.last replicas)) [] hpad (fun _ hb => by cases hb)
  rw [List.append_nil] at hextract
  rw [replaceCommas_rowText hrow, parseLine, List.finRange_succ_last, List.foldl_append]
  rw [List.nil_append] at hfold
  rw [spacedText, hfold, List.foldl_cons, List.foldl_nil]
  simp only [hextract]
  funext j
  cases j using Fin.lastCases with
  | last => exact Function.update_self _ _ _
  | cast j =>
      rw [Function.update_of_ne (Fin.castSucc_lt_last j).ne,
        if_pos (List.mem_map_of_mem (List.mem_finRange j))]

theorem all_allowed_rowText {row : Fin (replicas + 1) → BitVec t.bits}
    (hrow : ∀ j, t.readable (row j) = true) : (replaceCommas (rowText t row)).all allowed = true := by
  rw [replaceCommas_rowText hrow, List.all_eq_true]
  intro b hb
  rw [spacedText] at hb
  rcases List.mem_append.mp hb with hfront | hlast
  · obtain ⟨j, -, hj⟩ := List.mem_flatMap.mp hfront
    rcases List.mem_append.mp hj with hshown | hspace
    · exact allowed_of_isNumeral (isNumeral_of_mem_shown (hrow j) hshown)
    · rw [List.mem_singleton.mp hspace]
      rfl
  · exact allowed_of_isNumeral (isNumeral_of_mem_shown (hrow _) hlast)

end Rows

section Lines

variable {t : ShareType} {replicas n : ℕ}

/-- A row that is read as it is written. -/
def readableRow (t : ShareType) (row : Fin (replicas + 1) → BitVec t.bits) : Bool :=
  decide (∀ j, t.readable (row j) = true)

/-- Rows put one after the other, from the row `i` on. -/
def place (i : ℕ) (rows : List (Fin replicas → BitVec t.bits)) (contents : Contents t.bits replicas n) :
    Contents t.bits replicas n := fun k =>
  if i ≤ k.val then rows[k.val - i]?.getD (contents k) else contents k

theorem place_nil (i : ℕ) (contents : Contents t.bits replicas n) : place i [] contents = contents :=
  funext fun _ => ite_self _

theorem place_cons (i : ℕ) (hi : i < n) (row : Fin replicas → BitVec t.bits)
    (rows : List (Fin replicas → BitVec t.bits)) (contents : Contents t.bits replicas n) :
    place (i + 1) rows (Function.update contents ⟨i, hi⟩ row) = place i (row :: rows) contents := by
  ext k
  by_cases hk : k = ⟨i, hi⟩
  · subst hk
    have hle : ¬ i + 1 ≤ i := Nat.not_succ_le_self i
    rw [place, place, if_neg hle, Function.update_self, if_pos (le_refl i), Nat.sub_self]
    rfl
  · have hne : k.val ≠ i := fun heq => hk (Fin.ext heq)
    rw [place, place, Function.update_of_ne hk]
    by_cases hle : i ≤ k.val
    · have hindex : k.val - i = k.val - (i + 1) + 1 := by omega
      rw [if_pos hle, if_pos (by omega), hindex, List.getElem?_cons_succ]
    · rw [if_neg hle, if_neg (by omega)]

/-- The readable rows are read one after the other; the others must not look like rows. -/
theorem readLines_rows (rows : List (Fin (replicas + 1) → BitVec t.bits))
    (hskip : ∀ row ∈ rows, readableRow t row = false → (replaceCommas (rowText t row)).all allowed = false)
    (i : ℕ) (hrows : i + rows.length ≤ n) (contents : Contents t.bits (replicas + 1) n) :
    readLines t (rows.map (rowText t)) i contents =
      place i ((rows.filter (readableRow t)).take (intEntries - i)) contents := by
  induction rows generalizing i contents with
  | nil => rw [List.filter_nil, List.take_nil, place_nil, List.map_nil, readLines]
  | cons row rows ih =>
      rw [List.length_cons] at hrows
      have hlt : i < n := by omega
      have hrest := fun row' hrow' => hskip row' (List.mem_cons_of_mem row hrow')
      rw [List.map_cons, readLines]
      by_cases hint : i < intEntries
      · rw [dif_pos ⟨hlt, hint⟩]
        cases hreadable : readableRow t row with
        | true =>
            have hleft : intEntries - i = intEntries - (i + 1) + 1 := by omega
            have hrow := of_decide_eq_true hreadable
            rw [all_allowed_rowText hrow, if_pos rfl, parseLine_rowText hrow,
              ih hrest (i + 1) (by omega), place_cons i hlt, List.filter_cons_of_pos hreadable, hleft,
              List.take_succ_cons]
        | false =>
            have hnot : ¬ readableRow t row = true := by
              rw [hreadable]
              exact Bool.false_ne_true
            rw [hskip row List.mem_cons_self hreadable, if_neg Bool.false_ne_true,
              List.filter_cons_of_neg hnot]
            exact ih hrest i (by omega) contents
      · have hnone : intEntries - i = 0 := by omega
        rw [dif_neg fun hi => hint hi.2, hnone, List.take_zero, place_nil]

end Lines

section Characters

variable {replicas n : ℕ}

/-- What a character can be that has been read, or not been read at all. -/
def Plain (b : Byte) : Prop := isNumeral b = true ∨ b = 0

theorem extractChar_plain {stream : Stream} {old : Byte}
    (hstream : ∀ text, stream = some text → ∀ b ∈ text, allowed b = true) (hold : Plain old) :
    Plain (extractChar stream old).1 ∧
      ∀ text, (extractChar stream old).2 = some text → ∀ b ∈ text, allowed b = true := by
  cases stream with
  | none => exact ⟨hold, fun text htext => by cases htext⟩
  | some text =>
      have hallowed := hstream text rfl
      rw [extractChar]
      split
      · exact ⟨hold, fun text htext => by cases htext⟩
      · rename_i b rest hdrop
        have hsub : ∀ c ∈ b :: rest, c ∈ text := fun c hc =>
          (List.dropWhile_sublist _).subset (hdrop ▸ hc)
        have hhead : b ≠ space := fun heq => by
          have hnot := List.head_dropWhile_not (fun c => decide (c = space)) (l := text)
            (by rw [hdrop]; exact List.cons_ne_nil _ _)
          simp [hdrop, heq] at hnot
        refine ⟨Or.inl (isNumeral_of_allowed (hallowed b (hsub b List.mem_cons_self)) hhead), ?_⟩
        intro text' htext c hc
        obtain rfl := Option.some.inj htext
        exact hallowed c (hsub c (List.mem_cons_of_mem _ hc))

theorem parseLine_plain {line : List Byte} (hline : line.all allowed = true)
    {old : Fin replicas → BitVec ShareType.int8.bits} (hold : ∀ j, Plain (old j)) (j : Fin replicas) :
    Plain (parseLine .int8 line old j) := by
  have hloop : ∀ (js : List (Fin replicas)) (s : (Fin replicas → BitVec ShareType.int8.bits) × Stream),
      (∀ j, Plain (s.1 j)) → (∀ text, s.2 = some text → ∀ b ∈ text, allowed b = true) →
        ∀ j, Plain ((js.foldl (fun (s : (Fin replicas → BitVec ShareType.int8.bits) × Stream) j =>
          (Function.update s.1 j (ShareType.int8.extract s.2 (s.1 j)).1,
            (ShareType.int8.extract s.2 (s.1 j)).2)) s).1 j) := by
    intro js
    induction js with
    | nil => exact fun s hs _ => hs
    | cons k js ih =>
        intro s hs hstream
        obtain ⟨hvalue, hrest⟩ := extractChar_plain hstream (hs k)
        refine ih _ (fun j => ?_) hrest
        change Plain (Function.update s.1 k (ShareType.int8.extract s.2 (s.1 k)).1 j)
        by_cases hj : j = k
        · rw [hj, Function.update_self]
          exact hvalue
        · rw [Function.update_of_ne hj]
          exact hs j
  refine hloop _ _ hold (fun text htext b hb => ?_) j
  obtain rfl := Option.some.inj htext
  exact List.all_eq_true.mp hline b hb

theorem readLines_plain {lines : List (List Byte)} {i : ℕ}
    {contents : Contents ShareType.int8.bits replicas n} (hplain : ∀ k j, Plain (contents k j)) (k : Fin n)
    (j : Fin replicas) : Plain (readLines .int8 lines i contents k j) := by
  induction lines generalizing i contents with
  | nil => exact hplain k j
  | cons line lines ih =>
      rw [readLines]
      split
      · rename_i hi
        split
        · rename_i hallowed
          refine ih fun k j => ?_
          by_cases hk : k = ⟨i, hi.1⟩
          · subst hk
            rw [Function.update_self]
            exact parseLine_plain hallowed (hplain _) j
          · rw [Function.update_of_ne hk]
            exact hplain k j
        · exact ih hplain
      · exact hplain k j

end Characters

section RoundTrip

variable {t : ShareType} {replicas n : ℕ}

theorem newline_not_mem_rowText {row : Fin replicas → BitVec t.bits}
    (hplain : ∀ j, ∀ b ∈ t.shown (row j), Plain b) : newline ∉ rowText t row := by
  intro hmem
  obtain ⟨j, -, hj⟩ := List.mem_flatMap.mp hmem
  rcases List.mem_append.mp hj with hshown | hcomma
  · rcases hplain j newline hshown with hnumeral | hzero
    · exact absurd hnumeral (by decide)
    · exact absurd hzero (by decide)
  · split at hcomma
    · exact absurd (List.mem_singleton.mp hcomma) (by decide)
    · exact absurd hcomma List.not_mem_nil

/-- What is restored from rows that are either readable or skipped. -/
theorem input_output (contents : Contents t.bits (replicas + 1) n)
    (hplain : ∀ i j, ∀ b ∈ t.shown (contents i j), Plain b)
    (hskip : ∀ i, readableRow t (contents i) = false →
      (replaceCommas (rowText t (contents i))).all allowed = false) :
    (input t (output t contents) : Contents t.bits (replicas + 1) n) =
      place 0 (((List.ofFn contents).filter (readableRow t)).take intEntries) fun _ _ => 0 := by
  have hlines : lines (output t contents) = (List.ofFn contents).map (rowText t) := by
    rw [output, lines_flatMap fun i _ => newline_not_mem_rowText (hplain i), List.ofFn_eq_map, List.map_map]
    rfl
  rw [input, hlines]
  refine readLines_rows (List.ofFn contents) (fun row hrow hfalse => ?_) 0 ?_ _
  · obtain ⟨i, rfl⟩ := (List.mem_ofFn' _ _).mp hrow
    exact hskip i hfalse
  · rw [List.length_ofFn, Nat.zero_add]

/-- Rows that are put in their own places are readable, and those after them are zero. -/
theorem restorable_of_place {contents : Contents t.bits (replicas + 1) n}
    (hplace : place 0 (((List.ofFn contents).filter (readableRow t)).take intEntries) (fun _ _ => 0) =
      contents) : Restorable t contents := by
  refine ⟨(((List.ofFn contents).filter (readableRow t)).take intEntries).length,
    List.length_take_le intEntries _, fun i => ?_⟩
  have hrow := congrFun hplace i
  rw [place, if_pos (Nat.zero_le _), Nat.sub_zero] at hrow
  split
  · rename_i hlt
    rw [List.getElem?_eq_getElem hlt, Option.getD_some] at hrow
    have hmem := List.mem_of_mem_take (List.getElem_mem hlt)
    rw [hrow] at hmem
    exact of_decide_eq_true (List.mem_filter.mp hmem).2
  · rename_i hge
    rw [List.getElem?_eq_none (not_lt.mp hge), Option.getD_none] at hrow
    exact fun j => (congrFun hrow j).symm

/-- The first rows in their own places, and zeros after them. -/
theorem place_take {contents : Contents t.bits replicas n} {m : ℕ}
    (hzeros : ∀ i : Fin n, m ≤ i.val → ∀ j, contents i j = 0) :
    place 0 ((List.ofFn contents).take m) (fun _ _ => 0) = contents := by
  funext k
  rw [place, if_pos (Nat.zero_le _), Nat.sub_zero, List.getElem?_take]
  split
  · rw [List.getElem?_eq_getElem (by rw [List.length_ofFn]; exact k.isLt), List.getElem_ofFn]
    rfl
  · rename_i hge
    exact funext fun j => (hzeros k (not_lt.mp hge) j).symm

theorem zeros_of_restorable {contents : Contents t.bits replicas n} {m : ℕ}
    (hrows : ∀ i : Fin n, if i.val < m then ∀ j, t.readable (contents i j) = true
      else ∀ j, contents i j = 0) (i : Fin n) (hi : m ≤ i.val) (j : Fin replicas) : contents i j = 0 := by
  have hrow := hrows i
  rw [if_neg (not_lt.mpr hi)] at hrow
  exact hrow j

/-- Numbers are all readable. -/
theorem round_trip_numbers (hnumber : ∀ x : BitVec t.bits, t.readable x = true)
    (contents : Contents t.bits (replicas + 1) n) :
    input t (output t contents) = contents ↔ Restorable t contents := by
  have hreadable : ∀ row : Fin (replicas + 1) → BitVec t.bits, readableRow t row = true := fun row =>
    decide_eq_true fun j => hnumber (row j)
  have hall : (List.ofFn contents).filter (readableRow t) = List.ofFn contents :=
    List.filter_eq_self.mpr fun row _ => hreadable row
  rw [input_output contents
    (fun i j b hb => Or.inl (isNumeral_of_mem_shown (hnumber (contents i j)) hb)) fun i hfalse => by
      rw [hreadable] at hfalse
      cases hfalse]
  refine ⟨restorable_of_place, ?_⟩
  rintro ⟨m, hm, hrows⟩
  rw [hall]
  exact place_take fun i hi j => zeros_of_restorable hrows i (hm.trans hi) j

section Bytes

variable {contents : Contents ShareType.int8.bits (replicas + 1) n}

/-- A zero byte makes the reader skip a line. -/
theorem all_allowed_zero {row : Fin replicas → BitVec ShareType.int8.bits} {j : Fin replicas}
    (hj : row j = (0 : Byte)) : (replaceCommas (rowText .int8 row)).all allowed = false := by
  rw [← Bool.not_eq_true, List.all_eq_true]
  intro hall
  have hmem : (0 : Byte) ∈ rowText .int8 row := by
    refine List.mem_flatMap.mpr ⟨j, List.mem_finRange j, List.mem_append_left _ ?_⟩
    exact List.mem_singleton.mpr hj.symm
  exact absurd (hall 0 (List.mem_map.mpr ⟨0, hmem, rfl⟩)) (by decide)

theorem input_output_bytes (hplain : ∀ i j, Plain (contents i j)) :
    (input .int8 (output .int8 contents) : Contents ShareType.int8.bits (replicas + 1) n) =
      place 0 (((List.ofFn contents).filter (readableRow .int8)).take intEntries) fun _ _ => 0 := by
  refine input_output contents (fun i j b hb => (List.mem_singleton.mp hb).symm ▸ hplain i j) ?_
  intro i hfalse
  obtain ⟨j, hj⟩ := not_forall.mp (of_decide_eq_false hfalse)
  exact all_allowed_zero ((hplain i j).resolve_left hj)

theorem restorable_of_round_trip (hrun : input .int8 (output .int8 contents) = contents) :
    Restorable .int8 contents := by
  have hplain : ∀ i j, Plain (contents i j) := by
    intro i j
    rw [← congrFun (congrFun hrun i) j]
    exact readLines_plain (fun _ _ => Or.inr rfl) i j
  exact restorable_of_place ((input_output_bytes hplain).symm.trans hrun)

/-- Rows of numerals before rows of zeros are the rows that are read. -/
theorem filter_readableRow {m : ℕ}
    (hrows : ∀ i : Fin n, if i.val < m then ∀ j, ShareType.int8.readable (contents i j) = true
      else ∀ j, contents i j = (0 : Byte)) :
    (List.ofFn contents).filter (readableRow .int8) = (List.ofFn contents).take m := by
  have hfront : ((List.ofFn contents).take m).filter (readableRow .int8) = (List.ofFn contents).take m := by
    refine List.filter_eq_self.mpr fun row hrow => ?_
    obtain ⟨k, hk, rfl⟩ := List.mem_iff_getElem.mp hrow
    rw [List.length_take, List.length_ofFn] at hk
    have hnumerals := hrows ⟨k, by omega⟩
    rw [if_pos (by change k < m; omega)] at hnumerals
    rw [List.getElem_take, List.getElem_ofFn]
    exact decide_eq_true hnumerals
  have hback : ((List.ofFn contents).drop m).filter (readableRow .int8) = [] := by
    refine List.filter_eq_nil_iff.mpr fun row hrow hreadable => ?_
    obtain ⟨k, hk, rfl⟩ := List.mem_iff_getElem.mp hrow
    rw [List.length_drop, List.length_ofFn] at hk
    have hzeros := hrows ⟨m + k, by omega⟩
    rw [if_neg (by change ¬ m + k < m; omega)] at hzeros
    rw [List.getElem_drop, List.getElem_ofFn] at hreadable
    have hnumeral : isNumeral (contents ⟨m + k, by omega⟩ 0) = true := of_decide_eq_true hreadable 0
    rw [hzeros 0] at hnumeral
    exact absurd hnumeral (by decide)
  calc (List.ofFn contents).filter (readableRow .int8)
      = ((List.ofFn contents).take m ++ (List.ofFn contents).drop m).filter (readableRow .int8) := by
        rw [List.take_append_drop]
    _ = (List.ofFn contents).take m := by
        rw [List.filter_append, hfront, hback, List.append_nil]

theorem round_trip_of_restorable (hrestorable : Restorable .int8 contents) :
    input .int8 (output .int8 contents) = contents := by
  obtain ⟨m, hm, hrows⟩ := hrestorable
  have hplain : ∀ i j, Plain (contents i j) := by
    intro i j
    have hrow := hrows i
    split at hrow
    · exact Or.inl (hrow j)
    · exact Or.inr (hrow j)
  have htake : ((List.ofFn contents).take m).take intEntries = (List.ofFn contents).take m := by
    rw [List.take_take, min_eq_right hm]
  rw [input_output_bytes hplain, filter_readableRow hrows, htake]
  exact place_take fun i hi j => zeros_of_restorable hrows i hi j

end Bytes

/-- Which shares a file restores. -/
theorem share_files_round_trip_iff (t : ShareType) (contents : Contents t.bits (replicas + 1) n) :
    input t (output t contents) = contents ↔ Restorable t contents := by
  cases t with
  | int8 => exact ⟨restorable_of_round_trip, round_trip_of_restorable⟩
  | int16 => exact round_trip_numbers (fun _ => rfl) contents
  | int32 => exact round_trip_numbers (fun _ => rfl) contents
  | int64 => exact round_trip_numbers (fun _ => rfl) contents

end RoundTrip

/-- A share of one byte whose value is five. -/
def five : Contents ShareType.int8.bits 1 1 := fun _ _ => 5#8

theorem share_files_round_trip_fails : ¬ input .int8 (output .int8 five) = five := by
  intro hrun
  obtain ⟨m, -, hrows⟩ := restorable_of_round_trip hrun
  have hrow := hrows 0
  split at hrow
  · exact absurd (hrow 0) (by decide)
  · exact absurd (hrow 0) (by decide)

end CryptDough.ShareFiles
