import AesAccelerator.Lib.Memory
import AesAccelerator.Rijndael

/-! # Electronic codebook mode

`AES_ECB_encrypt` and `AES_ECB_decrypt` of `micro_aes.c`, as `micro_aes.h` configures them: blocks of
128 bits, and a partial block at the end is filled up with zeros.  Both copy their input to the
output buffer and work there; the buffers may be the same.  The copy is a `memcpy`, which says
nothing about buffers that overlap only in part, and there neither do the results about these
functions: they hold of the program for input and output that are the same or apart.

A message of any length is encrypted as the blocks of the message with zeros behind it, and nothing
beyond its last block is touched (`ecbEncrypt_blocks`). -/

namespace AesAccelerator.MicroAes

/-- `function_result_codes`, as far as these functions return them. -/
inductive ResultCode where
  | decryptionError
  | success
deriving DecidableEq, Repr

/-- The memory and the static array. -/
structure Machine where
  memory : ℕ → BitVec 8
  roundKey : RoundKeys

/-- A block function that is called with the same address for input and output. -/
def inPlace (f : ByteBlock → ByteBlock) (block : Fin 16 → BitVec 8) : Fin 16 → BitVec 8 :=
  (f (Vector.ofFn block)).get

/-- `padBlock`, without `AES_PADDING`: the memory and the result. -/
def padBlock (memory : ℕ → BitVec 8) (len block : ℕ) : (ℕ → BitVec 8) × Bool :=
  let n := 16 - len
  let p := block + len
  (Memory.store memory p fun _ : Fin (n % 16) => 0, len != 0)

section modes
variable [SizeT] (key : ByteBlock)

/-- `AES_ECB_encrypt`. -/
def ecbEncrypt (pntxt ptextLen crtxt : ℕ) (s : Machine) : Machine :=
  let n := ptextLen / 16
  let memory := Memory.copy s.memory crtxt pntxt ptextLen
  let roundKey := keyExpansion s.roundKey key
  let memory := Memory.mapSegments (inPlace (rijndaelEncrypt roundKey)) crtxt n memory
  let y := crtxt + 16 * n
  let (memory, partialLeft) := padBlock memory (ptextLen % 16) y
  if partialLeft then
    ⟨Memory.store memory y (inPlace (rijndaelEncrypt roundKey) (Memory.segment 16 memory y)),
      roundKey⟩
  else ⟨memory, roundKey⟩

/-- `AES_ECB_decrypt`. -/
def ecbDecrypt (crtxt crtxtLen pntxt : ℕ) (s : Machine) : Machine × ResultCode :=
  let n := crtxtLen / 16
  let memory := Memory.copy s.memory pntxt crtxt crtxtLen
  let roundKey := keyExpansion s.roundKey key
  let memory := Memory.mapSegments (inPlace (rijndaelDecrypt roundKey)) pntxt n memory
  (⟨memory, roundKey⟩, if crtxtLen % 16 ≠ 0 then .decryptionError else .success)

end modes

/-! ### Blocks in memory -/

/-- Block `i` of a message of `len` bytes with zeros behind it. -/
def messageBlock (memory : ℕ → BitVec 8) (message len i : ℕ) : AesBlock := fun j =>
  if 16 * i + j < len then memory (message + 16 * i + j) else 0

/-- A block encrypted under a key. -/
def encryptedBlock (key block : AesBlock) : AesBlock :=
  blockOf (Fips197.cipher (stateOf key) (stateOf block))

theorem messageBlock_of_full (memory : ℕ → BitVec 8) (message : ℕ) {len i : ℕ}
    (h : 16 * (i + 1) ≤ len) :
    messageBlock memory message len i = readBlock memory (message + 16 * i) := by
  funext j
  rw [messageBlock, if_pos (by omega)]
  rfl

theorem state_ofFn (block : AesBlock) : ByteBlock.state (Vector.ofFn block) = stateOf block := by
  unfold ByteBlock.state
  congr 1
  funext i
  rw [CArray.get_eq_read, CArray.read_ofFn block i.isLt]

/-- Every block is the encryption of some block. -/
theorem encryptedBlock_surjective (key : AesBlock) : Function.Surjective (encryptedBlock key) := by
  intro block
  obtain ⟨state, hstate⟩ :=
    (datapath_bijective (KeyExpansion.schedule (stateOf key))).surjective (stateOf block)
  refine ⟨blockOf state, ?_⟩
  rw [encryptedBlock, stateOf_blockOf, ← datapath_schedule_eq_cipher, hstate, blockOf_stateOf]

section rijndael
variable [SizeT]

/-- What `rijndaelEncrypt` leaves in the block that it is called for. -/
theorem inPlace_rijndaelEncrypt (roundKey : RoundKeys) (key : ByteBlock) (block : AesBlock) :
    inPlace (rijndaelEncrypt (keyExpansion roundKey key)) block = encryptedBlock key.get block := by
  rw [inPlace, ByteBlock.get_eq_blockOf, state_rijndaelEncrypt, state_ofFn]
  rfl

theorem inPlace_rijndaelDecrypt (roundKey : RoundKeys) (key : ByteBlock) (block : AesBlock) :
    inPlace (rijndaelDecrypt (keyExpansion roundKey key)) (encryptedBlock key.get block) = block := by
  rw [← inPlace_rijndaelEncrypt roundKey, inPlace, inPlace, CArray.ofFn_get,
    rijndaelDecrypt_rijndaelEncrypt, CArray.get_ofFn]

end rijndael

/-- A partial block is filled up with zeros, and a full one is left alone. -/
theorem padBlock_apply (memory : ℕ → BitVec 8) {len : ℕ} (hlen : len < 16) (block x : ℕ) :
    (padBlock memory len block).1 x =
      if len ≠ 0 ∧ block + len ≤ x ∧ x < block + 16 then 0 else memory x := by
  have hstore : (padBlock memory len block).1 =
      Memory.store memory (block + len) fun _ : Fin ((16 - len) % 16) => 0 := rfl
  rw [hstore]
  by_cases h : len ≠ 0 ∧ block + len ≤ x ∧ x < block + 16
  · rw [if_pos h]
    obtain ⟨hne, hle, hlt⟩ := h
    obtain ⟨j, rfl⟩ := Nat.exists_eq_add_of_le hle
    exact Memory.store_apply memory (fun _ => 0) (block + len) ⟨j, by omega⟩
  · rw [if_neg h]
    have hout : x < block + len ∨ block + len + (16 - len) % 16 ≤ x := by omega
    exact Memory.store_of_outside memory _ hout

/-! ### Encryption -/

section encrypt
variable [SizeT] (key : ByteBlock) (pntxt ptextLen crtxt : ℕ) (s : Machine)

/-- The full blocks encrypted in the output buffer. -/
def fullBlocks : ℕ → BitVec 8 :=
  Memory.mapSegments (inPlace (rijndaelEncrypt (keyExpansion s.roundKey key))) crtxt
    (ptextLen / 16) (Memory.copy s.memory crtxt pntxt ptextLen)

/-- The full blocks encrypted, and the partial block filled up. -/
def paddedBlocks : ℕ → BitVec 8 :=
  (padBlock (fullBlocks key pntxt ptextLen crtxt s) (ptextLen % 16)
    (crtxt + 16 * (ptextLen / 16))).1

theorem ecbEncrypt_memory : (ecbEncrypt key pntxt ptextLen crtxt s).memory =
    if ptextLen % 16 ≠ 0 then
      Memory.store (paddedBlocks key pntxt ptextLen crtxt s) (crtxt + 16 * (ptextLen / 16))
        (encryptedBlock key.get
          (Memory.segment 16 (paddedBlocks key pntxt ptextLen crtxt s)
            (crtxt + 16 * (ptextLen / 16))))
    else paddedBlocks key pntxt ptextLen crtxt s := by
  rw [← inPlace_rijndaelEncrypt s.roundKey]
  by_cases h : ptextLen % 16 ≠ 0
  · rw [if_pos h]
    have hleft : (ptextLen % 16 != 0) = true := by simpa using h
    simp only [ecbEncrypt, padBlock, hleft, if_true]
    rfl
  · rw [if_neg h]
    have hleft : (ptextLen % 16 != 0) = false := by simpa using h
    simp only [ecbEncrypt, padBlock, hleft, Bool.false_eq_true, if_false]
    rfl

theorem fullBlocks_of_outside {x : ℕ} (h : x < crtxt ∨ crtxt + ptextLen ≤ x) :
    fullBlocks key pntxt ptextLen crtxt s x = s.memory x := by
  rw [fullBlocks, Memory.mapSegments_of_outside _ _ (by omega), Memory.copy_of_outside _ h]

/-- A full block of the message. -/
theorem readBlock_fullBlocks {i : ℕ} (h : i < ptextLen / 16) :
    readBlock (fullBlocks key pntxt ptextLen crtxt s) (crtxt + 16 * i) =
      encryptedBlock key.get (messageBlock s.memory pntxt ptextLen i) := by
  have hsegment : Memory.segment 16 (Memory.copy s.memory crtxt pntxt ptextLen) (crtxt + 16 * i) =
      messageBlock s.memory pntxt ptextLen i := by
    funext j
    rw [messageBlock, if_pos (by omega), Memory.segment, Nat.add_assoc,
      Memory.copy_apply _ _ _ (by omega), Nat.add_assoc]
  have hmap := Memory.segment_mapSegments (inPlace (rijndaelEncrypt (keyExpansion s.roundKey key)))
    crtxt (Memory.copy s.memory crtxt pntxt ptextLen) h
  rw [hsegment, inPlace_rijndaelEncrypt] at hmap
  exact hmap

/-- The partial block of the message, filled up. -/
theorem segment_paddedBlocks (h : ptextLen % 16 ≠ 0) :
    Memory.segment 16 (paddedBlocks key pntxt ptextLen crtxt s) (crtxt + 16 * (ptextLen / 16)) =
      messageBlock s.memory pntxt ptextLen (ptextLen / 16) := by
  funext j
  rw [Memory.segment, paddedBlocks, padBlock_apply _ (by omega), messageBlock]
  by_cases hj : 16 * (ptextLen / 16) + j < ptextLen
  · rw [if_neg (by omega), if_pos hj, fullBlocks, Memory.mapSegments_of_outside _ _ (by omega),
      Nat.add_assoc, Memory.copy_apply _ _ _ hj, Nat.add_assoc]
  · rw [if_pos (by omega), if_neg hj]

/-- Where the blocks of the message begin in the output buffer, the memory holds them encrypted. -/
theorem readBlock_ecbEncrypt {i : ℕ} (h : i < (ptextLen + 15) / 16) :
    readBlock (ecbEncrypt key pntxt ptextLen crtxt s).memory (crtxt + 16 * i) =
      encryptedBlock key.get (messageBlock s.memory pntxt ptextLen i) := by
  have hfull : i < ptextLen / 16 →
      readBlock (paddedBlocks key pntxt ptextLen crtxt s) (crtxt + 16 * i) =
        encryptedBlock key.get (messageBlock s.memory pntxt ptextLen i) := by
    intro hi
    rw [← readBlock_fullBlocks key pntxt ptextLen crtxt s hi]
    funext j
    rw [readBlock, paddedBlocks, padBlock_apply _ (by omega), if_neg (by omega)]
    rfl
  rw [ecbEncrypt_memory]
  by_cases hr : ptextLen % 16 ≠ 0
  · rw [if_pos hr]
    rcases Nat.lt_or_ge i (ptextLen / 16) with hi | hi
    · rw [← hfull hi]
      exact Memory.segment_store_of_apart _ _ (by omega)
    · obtain rfl : i = ptextLen / 16 := by omega
      rw [segment_paddedBlocks _ _ _ _ _ hr]
      exact Memory.segment_store _ _ _
  · rw [if_neg hr]
    exact hfull (by omega)

/-- Nothing but the blocks of the message is written. -/
theorem ecbEncrypt_of_outside {x : ℕ}
    (h : x < crtxt ∨ crtxt + 16 * ((ptextLen + 15) / 16) ≤ x) :
    (ecbEncrypt key pntxt ptextLen crtxt s).memory x = s.memory x := by
  have hpadded : paddedBlocks key pntxt ptextLen crtxt s x = s.memory x := by
    rw [paddedBlocks, padBlock_apply _ (by omega), if_neg (by omega),
      fullBlocks_of_outside _ _ _ _ _ (by omega)]
  rw [ecbEncrypt_memory]
  split_ifs with hr
  · rw [Memory.store_of_outside _ _ (by omega), hpadded]
  · exact hpadded

end encrypt

/-! ### Decryption -/

section decrypt
variable [SizeT] (key : ByteBlock) (crtxt crtxtLen pntxt : ℕ) (s : Machine)

theorem ecbDecrypt_of_outside {x : ℕ} (h : x < pntxt ∨ pntxt + crtxtLen ≤ x) :
    (ecbDecrypt key crtxt crtxtLen pntxt s).1.memory x = s.memory x := by
  show Memory.mapSegments _ _ _ _ x = _
  rw [Memory.mapSegments_of_outside _ _ (by omega), Memory.copy_of_outside _ h]

/-- A block that is the encryption of another one is replaced by it. -/
theorem readBlock_ecbDecrypt {i : ℕ} (h : i < crtxtLen / 16) {block : AesBlock}
    (hblock : readBlock s.memory (crtxt + 16 * i) = encryptedBlock key.get block) :
    readBlock (ecbDecrypt key crtxt crtxtLen pntxt s).1.memory (pntxt + 16 * i) = block := by
  have hsegment : Memory.segment 16 (Memory.copy s.memory pntxt crtxt crtxtLen) (pntxt + 16 * i) =
      encryptedBlock key.get block := by
    rw [← hblock]
    funext j
    rw [Memory.segment, Nat.add_assoc, Memory.copy_apply _ _ _ (by omega), ← Nat.add_assoc]
    rfl
  have hmap := Memory.segment_mapSegments (inPlace (rijndaelDecrypt (keyExpansion s.roundKey key)))
    pntxt (Memory.copy s.memory pntxt crtxt crtxtLen) h
  rw [hsegment, inPlace_rijndaelDecrypt] at hmap
  exact hmap

end decrypt

end AesAccelerator.MicroAes
