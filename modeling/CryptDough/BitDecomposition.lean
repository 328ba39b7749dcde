import CryptDough.BitCodecs

/-! The decomposition of all elements into their bits, eight positions at a time over chunks of as many
elements as an element has bits, against packing one position after the other. -/

namespace CryptDough.BitDecomposition

open BitCodecs OptionLoop

variable {w : ℕ}

/-- `out_chunk`, which collects the bits at `bit + t` of `count` elements from `i` on. -/
def outChunk (v : List (BitVec w)) (bit i count : ℕ) : Option (ℕ → BitVec w) :=
  (List.range count).foldlM (fun chunk j => do
    let x ← v[i + j]?
    pure fun t => chunk t ||| Vec.getBit x (bit + t) <<< j) fun _ => 0

def writeWord (output : List (List (BitVec w))) (row index : ℕ) (x : BitVec w) :
    Option (List (List (BitVec w))) := do
  let words ← output[row]?
  let words ← writeAt words index x
  pure (output.set row words)

/-- The eight assignments to `output[bit + t][outputIndex]`. -/
def writeChunk (output : List (List (BitVec w))) (bit outputIndex : ℕ) (chunk : ℕ → BitVec w) :
    Option (List (List (BitVec w))) :=
  (List.range 8).foldlM (fun output t => writeWord output (bit + t) outputIndex (chunk t)) output

/-- One block of eight positions. -/
def decomposeBlock (v : List (BitVec w)) (output : List (List (BitVec w))) (bit : ℕ) :
    Option (List (List (BitVec w))) := do
  let n := v.length
  let s ← (List.range (n / w)).foldlM (fun (s : List (List (BitVec w)) × ℕ) c => do
    let chunk ← outChunk v bit (c * w) w
    let output ← writeChunk s.1 bit s.2 chunk
    pure (output, s.2 + 1)) (output, 0)
  let i := n / w * w
  if i < n then (outChunk v bit i (n - i)).bind fun chunk => writeChunk s.1 bit s.2 chunk
  else pure s.1

def bitDecomposition (v : List (BitVec w)) : Option (List (List (BitVec w))) := do
  let m ← words w v.length
  (List.range (strideCount w 8)).foldlM (fun output b => decomposeBlock v output (b * 8))
    (List.replicate w (List.replicate m 0))

section Table

/-- The rows of a function. -/
def table (w m : ℕ) (f : ℕ → ℕ → BitVec w) : List (List (BitVec w)) :=
  (List.range w).map fun row => (List.range m).map (f row)

variable {m : ℕ} {f g : ℕ → ℕ → BitVec w}

theorem table_congr (heq : ∀ row < w, ∀ index < m, f row index = g row index) : table w m f = table w m g :=
  List.map_congr_left fun row hrow => List.map_congr_left fun index hindex =>
    heq row (List.mem_range.mp hrow) index (List.mem_range.mp hindex)

/-- A row with one element replaced. -/
theorem set_map_range {β : Type} (h : ℕ → β) (index : ℕ) (x : β) :
    ((List.range m).map h).set index x = (List.range m).map fun i => if i = index then x else h i := by
  refine List.ext_getElem? fun i => ?_
  rw [List.getElem?_map]
  by_cases hi : i = index
  · subst hi
    rcases Nat.lt_or_ge i m with hlt | hge
    · rw [List.getElem?_set_self (by rw [List.length_map, List.length_range]; exact hlt),
        List.getElem?_range hlt, Option.map_some, if_pos rfl]
    · rw [List.getElem?_eq_none (by rw [List.length_set, List.length_map, List.length_range]; exact hge),
        List.getElem?_eq_none (by rw [List.length_range]; exact hge)]
      rfl
  · rw [List.getElem?_set_ne (Ne.symm hi), List.getElem?_map]
    rcases Nat.lt_or_ge i m with hlt | hge
    · rw [List.getElem?_range hlt, Option.map_some, Option.map_some, if_neg hi]
    · rw [List.getElem?_eq_none (by rw [List.length_range]; exact hge)]
      rfl

theorem writeWord_table {row index : ℕ} (hrow : row < w) (hindex : index < m) (x : BitVec w) :
    writeWord (table w m f) row index x =
      some (table w m fun r i => if r = row ∧ i = index then x else f r i) := by
  have hget : (table w m f)[row]? = some ((List.range m).map (f row)) := by
    rw [table, List.getElem?_map, List.getElem?_range hrow]
    rfl
  have hwrite : writeAt ((List.range m).map (f row)) index x =
      some ((List.range m).map fun i => if i = index then x else f row i) := by
    rw [writeAt, if_pos (by rw [List.length_map, List.length_range]; exact hindex), set_map_range]
  rw [writeWord, hget]
  simp only [Option.bind_eq_bind, Option.bind_some, hwrite]
  refine congrArg some ((set_map_range _ _ _).trans (List.map_congr_left fun r _ => ?_))
  by_cases hr : r = row
  · rw [if_pos hr, hr]
    exact List.map_congr_left fun i _ => by simp only [true_and]
  · rw [if_neg hr]
    exact List.map_congr_left fun i _ => by simp only [hr, false_and, if_false]

theorem writeChunk_table {bit index : ℕ} (hbit : bit + 8 ≤ w) (hindex : index < m) (chunk : ℕ → BitVec w) :
    writeChunk (table w m f) bit index chunk = some (table w m fun r i =>
      if (bit ≤ r ∧ r < bit + 8) ∧ i = index then chunk (r - bit) else f r i) := by
  have hloop := invariant (n := 8) (s := table w m f)
    (f := fun output t => writeWord output (bit + t) index (chunk t))
    (P := fun t output => output = table w m fun r i =>
      if (bit ≤ r ∧ r < bit + t) ∧ i = index then chunk (r - bit) else f r i)
    (table_congr fun r _ i _ => (if_neg fun h => by omega).symm) ?_
  · obtain ⟨output, hrun, rfl⟩ := hloop
    exact hrun
  rintro t ht output rfl
  refine ⟨_, writeWord_table (by omega) hindex (chunk t), table_congr fun r _ i _ => ?_⟩
  by_cases hlast : r = bit + t ∧ i = index
  · rw [if_pos hlast, if_pos (by omega), hlast.1, Nat.add_sub_cancel_left]
  · rw [if_neg hlast]
    by_cases hbefore : (bit ≤ r ∧ r < bit + t) ∧ i = index
    · rw [if_pos hbefore, if_pos (by omega)]
    · rw [if_neg hbefore, if_neg (by omega)]

end Table

section Words

variable {v : List (BitVec w)}

/-- The word that packing puts at `index`. -/
def word (v : List (BitVec w)) (position index : ℕ) : BitVec w :=
  (packWord v position v.length (index * w)).getD 0

theorem packWord_eq (position index : ℕ) :
    packWord v position v.length (index * w) = some (word v position index) := by
  obtain ⟨r, hrun, -, -⟩ := packWord_spec position (index * w) (le_refl v.length)
  rw [word, hrun]
  rfl

/-- Every entry of a chunk is the word of its position. -/
theorem outChunk_eq (bit : ℕ) {index count : ℕ} (hcount : count = min w (v.length - index * w)) :
    ∃ chunk, outChunk v bit (index * w) count = some chunk ∧ ∀ t, chunk t = word v (bit + t) index := by
  have hloop := invariant (n := count) (s := fun _ => (0 : BitVec w))
    (f := fun chunk j => do
      let x ← v[index * w + j]?
      pure fun t => chunk t ||| Vec.getBit x (bit + t) <<< j)
    (P := fun count chunk => ∀ t, (List.range count).foldlM (fun r p => do
      let x ← v[index * w + p]?
      pure (r ||| Vec.getBit x (bit + t) <<< p)) 0 = some (chunk t)) (fun _ => rfl) ?_
  · obtain ⟨chunk, hrun, hwords⟩ := hloop
    refine ⟨chunk, hrun, fun t => ?_⟩
    have hword := packWord_eq (v := v) (bit + t) index
    rw [packWord, ← hcount] at hword
    exact Option.some.inj ((hwords t).symm.trans hword)
  intro j hj chunk hwords
  have hin : index * w + j < v.length := by omega
  have hget : v[index * w + j]? = some v[index * w + j] := List.getElem?_eq_getElem hin
  refine ⟨_, by rw [hget]; rfl, fun t => ?_⟩
  rw [foldlM_range_succ, hwords t, Option.bind_some, hget]
  rfl

theorem decomposeBlock_eq {f : ℕ → ℕ → BitVec w} {bit m : ℕ} (hw : 0 < w) (hbit : bit + 8 ≤ w)
    (hm : m = (v.length + w - 1) / w) : decomposeBlock v (table w m f) bit =
      some (table w m fun r i => if bit ≤ r ∧ r < bit + 8 then word v r i else f r i) := by
  have hdiv := Nat.div_add_mod' v.length w
  have hmod := Nat.mod_lt v.length hw
  have hfull : v.length / w ≤ m := by
    rw [hm]
    exact Nat.div_le_div_right (by omega)
  have hchunks := invariant (n := v.length / w) (s := (table w m f, 0))
    (f := fun (s : List (List (BitVec w)) × ℕ) c => do
      let chunk ← outChunk v bit (c * w) w
      let output ← writeChunk s.1 bit s.2 chunk
      pure (output, s.2 + 1))
    (P := fun c s => s = (table w m fun r i =>
      if (bit ≤ r ∧ r < bit + 8) ∧ i < c then word v r i else f r i, c))
    (Prod.ext (table_congr fun r _ i _ => (if_neg fun h => by omega).symm) rfl) ?_
  · obtain ⟨s, hrun, rfl⟩ := hchunks
    rw [decomposeBlock, hrun]
    simp only [Option.bind_eq_bind, Option.bind_some]
    split
    · rename_i hrest
      have hcount : v.length - v.length / w * w = min w (v.length - v.length / w * w) := by omega
      have hlast : m = v.length / w + 1 := by
        have hsplit : v.length + w - 1 = v.length % w - 1 + (v.length / w + 1) * w := by
          rw [Nat.succ_mul]
          omega
        rw [hm, hsplit, Nat.add_mul_div_right _ _ hw, Nat.div_eq_of_lt (by omega), Nat.zero_add]
      obtain ⟨chunk, hchunk, hwords⟩ := outChunk_eq bit hcount
      rw [hchunk, Option.bind_some, writeChunk_table hbit (by omega)]
      refine congrArg some (table_congr fun r hr i hi => ?_)
      by_cases hin : bit ≤ r ∧ r < bit + 8
      · rw [if_pos hin]
        by_cases hi' : i = v.length / w
        · rw [if_pos ⟨hin, hi'⟩, hwords, hi', Nat.add_sub_cancel' hin.1]
        · rw [if_neg fun h => hi' h.2, if_pos ⟨hin, by omega⟩]
      · rw [if_neg fun h => hin h.1, if_neg fun h => hin h.1, if_neg hin]
    · rename_i hrest
      have hlast : m = v.length / w := by
        have hsplit : v.length + w - 1 = w - 1 + v.length / w * w := by omega
        rw [hm, hsplit, Nat.add_mul_div_right _ _ hw, Nat.div_eq_of_lt (by omega), Nat.zero_add]
      refine congrArg some (table_congr fun r hr i hi => ?_)
      by_cases hin : bit ≤ r ∧ r < bit + 8
      · rw [if_pos hin, if_pos ⟨hin, by omega⟩]
      · rw [if_neg hin, if_neg fun h => hin h.1]
  rintro c hc s rfl
  have hcount : w = min w (v.length - c * w) := by
    have hle : (c + 1) * w ≤ v.length / w * w := Nat.mul_le_mul_right w hc
    rw [Nat.succ_mul] at hle
    omega
  obtain ⟨chunk, hchunk, hwords⟩ := outChunk_eq bit hcount
  refine ⟨_, ?_, rfl⟩
  rw [hchunk]
  simp only [Option.bind_eq_bind, Option.bind_some]
  rw [writeChunk_table hbit (by omega)]
  refine congrArg (fun output => some (output, c + 1)) (table_congr fun r hr i hi => ?_)
  by_cases hin : bit ≤ r ∧ r < bit + 8
  · by_cases hi' : i = c
    · rw [if_pos ⟨hin, hi'⟩, if_pos ⟨hin, by omega⟩, hwords, hi', Nat.add_sub_cancel' hin.1]
    · rw [if_neg fun h => hi' h.2]
      by_cases hlt : i < c
      · rw [if_pos ⟨hin, hlt⟩, if_pos ⟨hin, by omega⟩]
      · rw [if_neg fun h => hlt h.2, if_neg fun h => hlt (by omega)]
  · rw [if_neg fun h => hin h.1, if_neg fun h => hin h.1, if_neg fun h => hin h.1]

theorem bitDecomposition_eq (hw : 0 < w) (hbytes : 8 ∣ w) (hfits : v.length + w ≤ 2 ^ 64) :
    bitDecomposition v = some (table w ((v.length + w - 1) / w) (word v)) := by
  obtain ⟨blocks, hblocks⟩ := hbytes
  have hcount : strideCount w 8 = blocks := by
    rw [strideCount]
    omega
  have hloop := invariant (n := blocks) (s := table w ((v.length + w - 1) / w) fun _ _ => 0)
    (f := fun output b => decomposeBlock v output (b * 8))
    (P := fun b output => output = table w ((v.length + w - 1) / w) fun r i =>
      if r < b * 8 then word v r i else 0)
    (table_congr fun r _ i _ => (if_neg fun h => by omega).symm) ?_
  · obtain ⟨output, hrun, rfl⟩ := hloop
    have hzero : List.replicate w (List.replicate ((v.length + w - 1) / w) (0 : BitVec w)) =
        table w ((v.length + w - 1) / w) fun _ _ => 0 := by
      rw [table, List.map_const', List.map_const', List.length_range, List.length_range]
    rw [bitDecomposition, words_eq_some hfits, hcount]
    change (List.range blocks).foldlM _ _ = _
    rw [hzero, hrun]
    exact congrArg some (table_congr fun r hr i _ => if_pos (by omega))
  rintro b hb output rfl
  refine ⟨_, decomposeBlock_eq hw (by omega) rfl, table_congr fun r hr i _ => ?_⟩
  by_cases hin : b * 8 ≤ r ∧ r < b * 8 + 8
  · rw [if_pos hin, if_pos (by omega)]
  · rw [if_neg hin]
    by_cases hlt : r < b * 8
    · rw [if_pos hlt, if_pos (by omega)]
    · rw [if_neg hlt, if_neg (by omega)]

/-- Packing writes the words of its position. -/
theorem packFrom_eq (hw : 0 < w) (hfits : v.length + w ≤ 2 ^ 64) {room : List (BitVec w)}
    (hroom : room.length = (v.length + w - 1) / w) (position : ℕ) :
    packFrom room v position = some ((List.range ((v.length + w - 1) / w)).map (word v position)) := by
  have hcount := words_eq_some hfits
  have hle : v.length ≤ room.length * w := by
    rw [hroom]
    exact le_words_mul hw hcount
  have hsize : room.length * w < 2 ^ 64 := by
    have hmul : room.length * w ≤ v.length + w - 1 := by
      rw [hroom]
      exact Nat.div_mul_le_self _ _
    omega
  have htotal : min (sizeMul room.length w) v.length = v.length := by
    rw [sizeMul, Nat.mod_eq_of_lt hsize]
    omega
  rw [packFrom, htotal, hcount]
  exact fill_range hroom fun index _ => packWord_eq position index

/-- Behind the last element there are no bits. -/
theorem bitAt_packed (hw : 0 < w) (m position : ℕ) {k : ℕ} (hk : v.length ≤ k) :
    bitAt ((List.range m).map (word v position)) (k / w) (k % w) = false := by
  have hdiv := Nat.div_add_mod' k w
  have hmod := Nat.mod_lt k hw
  rw [bitAt, List.getElem?_map]
  rcases Nat.lt_or_ge (k / w) m with hlt | hge
  · obtain ⟨r, hrun, -, hhigh⟩ := packWord_spec position (k / w * w) (le_refl v.length)
    have hword : word v position (k / w) = r := Option.some.inj ((packWord_eq position _).symm.trans hrun)
    rw [List.getElem?_range hlt, Option.map_some, Option.getD_some, hword]
    exact hhigh _ (by omega)
  · rw [List.getElem?_eq_none (by rw [List.length_range]; exact hge)]
    exact BitVec.getLsbD_zero

/-- The decomposition returns, for each position, what packing that position writes. -/
theorem bit_decomposition_eq_pack_from (hw : 0 < w) (hbytes : 8 ∣ w) (v : List (BitVec w))
    (hfits : v.length + w ≤ 2 ^ 64) :
    ∃ output, bitDecomposition v = some output ∧ output.length = w ∧ ∀ i < w, ∀ room : List (BitVec w),
      room.length = (v.length + w - 1) / w → ∃ packed, packFrom room v i = some packed ∧
        output[i]? = some packed ∧ ∀ k, v.length ≤ k → bitAt packed (k / w) (k % w) = false := by
  refine ⟨_, bitDecomposition_eq hw hbytes hfits, ?_, fun i hi room hroom => ?_⟩
  · rw [table, List.length_map, List.length_range]
  · refine ⟨_, packFrom_eq hw hfits hroom i, ?_, fun k hk => bitAt_packed hw _ i hk⟩
    rw [table, List.getElem?_map, List.getElem?_range hi]
    rfl

/-- Two chunks of eight bytes and three bytes more. -/
def nineteenBytes : List (BitVec 8) :=
  [1, 2, 4, 8, 16, 32, 64, 128, 3, 5, 9, 17, 33, 65, 129, 255, 0, 7, 254]

theorem bit_decomposition_eq_pack_from_nineteen :
    ∃ output, bitDecomposition nineteenBytes = some output ∧ output[1]? = some [2, 129, 6] ∧
      output.length = 8 ∧ ∀ i < 8, ∀ room : List (BitVec 8), room.length = 3 →
        ∃ packed, packFrom room nineteenBytes i = some packed ∧ output[i]? = some packed ∧
          ∀ k, 19 ≤ k → bitAt packed (k / 8) (k % 8) = false := by
  obtain ⟨output, hrun, hrest⟩ :=
    bit_decomposition_eq_pack_from (by decide) (by decide) nineteenBytes (by decide)
  have hsecond : (bitDecomposition nineteenBytes).bind (·[1]?) = some [2, 129, 6] := by decide
  rw [hrun, Option.bind_some] at hsecond
  exact ⟨output, hrun, hsecond, hrest⟩

end Words

end CryptDough.BitDecomposition
