import CryptDough.ShareVector

/-! A pseudorandom generator turns one seed into a stream: every query encrypts zeros under the next
nonce, and a vector is filled through a buffer of fixed size, one query for each buffer. -/

namespace CryptDough

/-- The size of an element type, which the buffer has room for. -/
structure ElementSize where
  bytes : ℕ
  pos : 0 < bytes
  fits : bytes ≤ 2 ^ 20

theorem four_fits : 4 ≤ 2 ^ 20 := by decide

def ElementSize.int32 : ElementSize := ⟨4, Nat.succ_pos 3, four_fits⟩

namespace AESPRGAlgorithm

def MAX_AES_QUERY_BYTES : ℕ := 2 ^ 20

/-- The keystream of a seed: what byte of each message is encrypted to under each nonce. -/
abbrev Keystream := BitVec 64 → ℕ → BitVec 8

section Algorithm

variable (key : Keystream)

/-- The state counts the nonces used; the cipher sees it as a machine word. -/
def aesGenerateValues (len : ℕ) : StateM ℕ (List (BitVec 8)) := fun nonce =>
  ((List.range len).map (key (BitVec.ofNat 64 nonce)), nonce + 1)

def incrementNonce : StateM ℕ Unit := fun nonce => ((), nonce + 1)

def fillBatches : (batches bytesRemaining : ℕ) → StateM ℕ (List (BitVec 8))
  | 0, _ => pure []
  | batches + 1, bytesRemaining => do
      let batchBytes := min bytesRemaining MAX_AES_QUERY_BYTES
      let batch ← aesGenerateValues key batchBytes
      let rest ← fillBatches batches (bytesRemaining - batchBytes)
      pure (batch ++ rest)

def fillBytes (bytes : ℕ) : StateM ℕ (List (BitVec 8)) :=
  fillBatches key
    (bytes / MAX_AES_QUERY_BYTES + if bytes % MAX_AES_QUERY_BYTES = 0 then 0 else 1) bytes

/-- The little-endian word of the bytes of one element. -/
def element (size : ElementSize) (buffer : List (BitVec 8)) (i : ℕ) : BitVec (8 * size.bytes) :=
  BitVec.ofNat _ (((buffer.drop (i * size.bytes)).take size.bytes).foldr
    (fun byte word => byte.toNat + 256 * word) 0)

/-- `getNext` of a single number. -/
def getNextNum (size : ElementSize) : StateM ℕ (BitVec (8 * size.bytes)) := do
  let dest ← fillBytes key size.bytes
  pure (element size dest 0)

def maxElementsInBuffer (size : ElementSize) : ℕ := MAX_AES_QUERY_BYTES / size.bytes

theorem maxElementsInBuffer_pos (size : ElementSize) : 0 < maxElementsInBuffer size :=
  Nat.div_pos size.fits size.pos

def getNextBuffered (size : ElementSize) (elementsRemaining : ℕ) :
    StateM ℕ (List (BitVec (8 * size.bytes))) :=
  if _h : 0 < elementsRemaining then do
    let elementsThisBatch := min (maxElementsInBuffer size) elementsRemaining
    let buffer ← fillBytes key (elementsThisBatch * size.bytes)
    let rest ← getNextBuffered size (elementsRemaining - elementsThisBatch)
    pure ((List.range elementsThisBatch).map (element size buffer) ++ rest)
  else pure []
termination_by elementsRemaining
decreasing_by
  have hpos := maxElementsInBuffer_pos size
  omega

/-- `getNext` of a vector. -/
def getNext (size : ElementSize) (n : ℕ) : StateM ℕ (Vec (8 * size.bytes) n) := do
  let nums ← getNextBuffered key size n
  pure fun i => nums.getD i 0

end Algorithm

/-- How many nonces a vector uses. -/
def batches (size : ElementSize) (n : ℕ) : ℕ :=
  (n + (maxElementsInBuffer size - 1)) / maxElementsInBuffer size

section Consumption

variable (size : ElementSize) {n : ℕ}

theorem batches_eq_zero : batches size n = 0 ↔ n = 0 := by
  have hpos := maxElementsInBuffer_pos size
  rw [batches, Nat.div_eq_zero_iff]
  omega

theorem batches_eq_one : batches size n = 1 ↔ 0 < n ∧ n ≤ maxElementsInBuffer size := by
  have hpos := maxElementsInBuffer_pos size
  rw [batches, Nat.div_eq_iff hpos]
  omega

theorem batches_next (hn : 0 < n) :
    batches size n = batches size (n - min (maxElementsInBuffer size) n) + 1 := by
  have hpos := maxElementsInBuffer_pos size
  rcases Nat.le_total n (maxElementsInBuffer size) with hle | hle
  · rw [min_eq_right hle, Nat.sub_self, (batches_eq_zero size).mpr rfl]
    exact (batches_eq_one size).mpr ⟨hn, hle⟩
  · have hsplit : n + (maxElementsInBuffer size - 1) =
        n - maxElementsInBuffer size + (maxElementsInBuffer size - 1) + maxElementsInBuffer size := by
      omega
    rw [min_eq_left hle, batches, batches, hsplit, Nat.add_div_right _ hpos]

variable (key : Keystream)

theorem fillBatches_nonce (batches bytesRemaining nonce : ℕ) :
    (fillBatches key batches bytesRemaining nonce).2 = nonce + batches := by
  induction batches generalizing bytesRemaining nonce with
  | zero => rfl
  | succ batches ih =>
      show (fillBatches key batches _ (nonce + 1)).2 = nonce + (batches + 1)
      rw [ih, Nat.add_assoc, Nat.add_comm 1]

/-- What fits the buffer is one query. -/
theorem fillBytes_nonce {bytes : ℕ} (hpos : 0 < bytes) (hle : bytes ≤ MAX_AES_QUERY_BYTES)
    (nonce : ℕ) : (fillBytes key bytes nonce).2 = nonce + 1 := by
  rw [fillBytes, fillBatches_nonce]
  rcases hle.lt_or_eq with hlt | rfl
  · rw [Nat.div_eq_of_lt hlt, Nat.mod_eq_of_lt hlt, if_neg hpos.ne']
  · rw [Nat.div_self hpos, Nat.mod_self, if_pos rfl]

theorem getNextNum_nonce (nonce : ℕ) : (getNextNum key size nonce).2 = nonce + 1 :=
  fillBytes_nonce key size.pos size.fits nonce

theorem getNextBuffered_next (hn : 0 < n) (nonce : ℕ) :
    getNextBuffered key size n nonce =
      let elementsThisBatch := min (maxElementsInBuffer size) n
      let buffer := fillBytes key (elementsThisBatch * size.bytes) nonce
      let rest := getNextBuffered key size (n - elementsThisBatch) buffer.2
      ((List.range elementsThisBatch).map (element size buffer.1) ++ rest.1, rest.2) := by
  rw [getNextBuffered, dif_pos hn]
  rfl

theorem getNextBuffered_end (nonce : ℕ) : getNextBuffered key size 0 nonce = ([], nonce) := by
  rw [getNextBuffered, dif_neg (Nat.lt_irrefl 0)]
  rfl

/-- Every element is drawn, and every batch uses one nonce. -/
theorem getNextBuffered_spec (nonce : ℕ) :
    (getNextBuffered key size n nonce).1.length = n ∧
      (getNextBuffered key size n nonce).2 = nonce + batches size n := by
  have hmax := maxElementsInBuffer_pos size
  induction n using Nat.strong_induction_on generalizing nonce with
  | h n ih =>
      rcases Nat.eq_zero_or_pos n with rfl | hn
      · rw [getNextBuffered_end, (batches_eq_zero size).mpr rfl]
        exact ⟨rfl, rfl⟩
      · have hbytes : min (maxElementsInBuffer size) n * size.bytes ≤ MAX_AES_QUERY_BYTES :=
          (Nat.mul_le_mul_right _ (min_le_left _ _)).trans (Nat.div_mul_le_self _ _)
        have hpos : 0 < min (maxElementsInBuffer size) n * size.bytes :=
          Nat.mul_pos (by omega) size.pos
        obtain ⟨hlength, hnonce⟩ := ih (n - min (maxElementsInBuffer size) n) (by omega)
          (fillBytes key (min (maxElementsInBuffer size) n * size.bytes) nonce).2
        rw [getNextBuffered_next size key hn]
        refine ⟨?_, ?_⟩
        · rw [List.length_append, List.length_map, List.length_range, hlength]
          omega
        · rw [hnonce, fillBytes_nonce key hpos hbytes, batches_next size hn]
          omega

theorem getNext_nonce (nonce : ℕ) : (getNext key size n nonce).2 = nonce + batches size n :=
  (getNextBuffered_spec size key nonce).2

end Consumption

end AESPRGAlgorithm

end CryptDough
