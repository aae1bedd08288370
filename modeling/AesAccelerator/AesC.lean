import AesAccelerator.Blocks

/-! # The reference program

`src/aes.c`: AES-128 in portable C, from which the test vectors of the hardware come.  A block is
changed in place; the words of the key schedule are read from the bytes of the key, the first of
them in the lowest bits.

`aesEncryptBlock_eq_datapath`: this program and the datapath of the hardware compute the same
function. -/

namespace AesAccelerator.AesC

open Fips197 (byteAt gfMul)

/-! ### The tables -/

/-- The sixteen lines of `aes_sbox`. -/
def aesSboxLines : Fin 16 → Fin 16 → BitVec 8 := ![
  ![0x63, 0x7c, 0x77, 0x7b, 0xf2, 0x6b, 0x6f, 0xc5, 0x30, 0x01, 0x67, 0x2b, 0xfe, 0xd7, 0xab, 0x76],
  ![0xca, 0x82, 0xc9, 0x7d, 0xfa, 0x59, 0x47, 0xf0, 0xad, 0xd4, 0xa2, 0xaf, 0x9c, 0xa4, 0x72, 0xc0],
  ![0xb7, 0xfd, 0x93, 0x26, 0x36, 0x3f, 0xf7, 0xcc, 0x34, 0xa5, 0xe5, 0xf1, 0x71, 0xd8, 0x31, 0x15],
  ![0x04, 0xc7, 0x23, 0xc3, 0x18, 0x96, 0x05, 0x9a, 0x07, 0x12, 0x80, 0xe2, 0xeb, 0x27, 0xb2, 0x75],
  ![0x09, 0x83, 0x2c, 0x1a, 0x1b, 0x6e, 0x5a, 0xa0, 0x52, 0x3b, 0xd6, 0xb3, 0x29, 0xe3, 0x2f, 0x84],
  ![0x53, 0xd1, 0x00, 0xed, 0x20, 0xfc, 0xb1, 0x5b, 0x6a, 0xcb, 0xbe, 0x39, 0x4a, 0x4c, 0x58, 0xcf],
  ![0xd0, 0xef, 0xaa, 0xfb, 0x43, 0x4d, 0x33, 0x85, 0x45, 0xf9, 0x02, 0x7f, 0x50, 0x3c, 0x9f, 0xa8],
  ![0x51, 0xa3, 0x40, 0x8f, 0x92, 0x9d, 0x38, 0xf5, 0xbc, 0xb6, 0xda, 0x21, 0x10, 0xff, 0xf3, 0xd2],
  ![0xcd, 0x0c, 0x13, 0xec, 0x5f, 0x97, 0x44, 0x17, 0xc4, 0xa7, 0x7e, 0x3d, 0x64, 0x5d, 0x19, 0x73],
  ![0x60, 0x81, 0x4f, 0xdc, 0x22, 0x2a, 0x90, 0x88, 0x46, 0xee, 0xb8, 0x14, 0xde, 0x5e, 0x0b, 0xdb],
  ![0xe0, 0x32, 0x3a, 0x0a, 0x49, 0x06, 0x24, 0x5c, 0xc2, 0xd3, 0xac, 0x62, 0x91, 0x95, 0xe4, 0x79],
  ![0xe7, 0xc8, 0x37, 0x6d, 0x8d, 0xd5, 0x4e, 0xa9, 0x6c, 0x56, 0xf4, 0xea, 0x65, 0x7a, 0xae, 0x08],
  ![0xba, 0x78, 0x25, 0x2e, 0x1c, 0xa6, 0xb4, 0xc6, 0xe8, 0xdd, 0x74, 0x1f, 0x4b, 0xbd, 0x8b, 0x8a],
  ![0x70, 0x3e, 0xb5, 0x66, 0x48, 0x03, 0xf6, 0x0e, 0x61, 0x35, 0x57, 0xb9, 0x86, 0xc1, 0x1d, 0x9e],
  ![0xe1, 0xf8, 0x98, 0x11, 0x69, 0xd9, 0x8e, 0x94, 0x9b, 0x1e, 0x87, 0xe9, 0xce, 0x55, 0x28, 0xdf],
  ![0x8c, 0xa1, 0x89, 0x0d, 0xbf, 0xe6, 0x42, 0x68, 0x41, 0x99, 0x2d, 0x0f, 0xb0, 0x54, 0xbb, 0x16]]

/-- `aes_sbox[b]`. -/
def aesSbox (b : BitVec 8) : BitVec 8 := tableEntry aesSboxLines b

/-- `aes_round_constants`; the last one is marked as invalid. -/
def aesRoundConstants : CArray (BitVec 8) 11 :=
  #v[0x1, 0x2, 0x4, 0x8, 0x10, 0x20, 0x40, 0x80, 0x1b, 0x36, 0xff]

theorem aesSbox_eq (b : BitVec 8) : aesSbox b = Fips197.sBox b := sBoxTable_eq b

/-- All round constants but the last one are powers of `x`. -/
theorem aesRoundConstants_eq : ∀ n : Fin 10, aesRoundConstants.read n = Fips197.xPow n := by
  decide +kernel

/-! ### The key expansion -/

/-- `aes_expanded_key_t`. -/
abbrev AesExpandedKey := CArray (BitVec 32) 4

/-- `aes_expanded_keys_t`. -/
abbrev AesExpandedKeys := CArray AesExpandedKey 11

def aesGFunction (lastWordOfExpandedKey : BitVec 32) (roundIteration : ℕ) : BitVec 32 :=
  let byte0 := lastWordOfExpandedKey.setWidth 8
  let byte1 := (lastWordOfExpandedKey >>> 8).setWidth 8
  let byte2 := (lastWordOfExpandedKey >>> 16).setWidth 8
  let byte3 := (lastWordOfExpandedKey >>> 24).setWidth 8
  let byte0 := aesSbox byte0
  let byte1 := aesSbox byte1
  let byte2 := aesSbox byte2
  let byte3 := aesSbox byte3
  byte0.setWidth 32 <<< 24 ||| byte3.setWidth 32 <<< 16 ||| byte2.setWidth 32 <<< 8 |||
    (byte1 ^^^ aesRoundConstants.read roundIteration).setWidth 32

/-- The loop body, on the round keys and on `last_word_g_ed`. -/
def expansionStep (s : AesExpandedKeys × BitVec 32) (i : ℕ) : AesExpandedKeys × BitVec 32 :=
  let (expandedKeys, lastWordGEd) := s
  let previous := expandedKeys.read (i - 1)
  let word0 := previous.read 0 ^^^ lastWordGEd
  let word1 := previous.read 1 ^^^ word0
  let word2 := previous.read 2 ^^^ word1
  let word3 := previous.read 3 ^^^ word2
  (expandedKeys.write i #v[word0, word1, word2, word3], aesGFunction word3 i)

/-- `aes_key_expansion`, where `expandedKeys` is what the result is written over. -/
def aesKeyExpansion (expandedKeys : AesExpandedKeys) (key : ByteBlock) : AesExpandedKeys :=
  let expandedKeys := expandedKeys.write 0
    #v[key.wordAt 0, key.wordAt 1, key.wordAt 2, key.wordAt 3]
  let lastWordGEd := aesGFunction ((expandedKeys.read 0).read 3) 0
  ((List.range' 1 10).foldl expansionStep (expandedKeys, lastWordGEd)).1

/-! ### The transformations -/

def gfMultiply123 (scale number : BitVec 8) : BitVec 8 :=
  if scale = 1 then number
  else if scale = 2 then
    if number >>> 7 ≠ 0 then number <<< 1 ^^^ 0x1b else number <<< 1
  else if scale = 3 then
    if number >>> 7 ≠ 0 then number <<< 1 ^^^ 0x1b ^^^ number else number <<< 1 ^^^ number
  else 0

def aesRowMixAndSub (inout : ByteBlock) : ByteBlock :=
  let data := inout
  let data := data.write 0 (aesSbox (data.read 0))
  let data := data.write 4 (aesSbox (data.read 4))
  let data := data.write 8 (aesSbox (data.read 8))
  let data := data.write 12 (aesSbox (data.read 12))
  let tempB1 := data.read 1
  let tempB5 := data.read 5
  let tempB9 := data.read 9
  let tempB13 := data.read 13
  let data := data.write 1 (aesSbox tempB5)
  let data := data.write 5 (aesSbox tempB9)
  let data := data.write 9 (aesSbox tempB13)
  let data := data.write 13 (aesSbox tempB1)
  let tempB2 := data.read 2
  let tempB6 := data.read 6
  let tempB10 := data.read 10
  let tempB14 := data.read 14
  let data := data.write 2 (aesSbox tempB10)
  let data := data.write 6 (aesSbox tempB14)
  let data := data.write 10 (aesSbox tempB2)
  let data := data.write 14 (aesSbox tempB6)
  let tempB3 := data.read 3
  let tempB7 := data.read 7
  let tempB11 := data.read 11
  let tempB15 := data.read 15
  let data := data.write 3 (aesSbox tempB15)
  let data := data.write 7 (aesSbox tempB3)
  let data := data.write 11 (aesSbox tempB7)
  let data := data.write 15 (aesSbox tempB11)
  data

/-- `aes_mix_column(&data[4 * c])`. -/
def aesMixColumn (data : ByteBlock) (c : ℕ) : ByteBlock :=
  let columnStart := fun r => data.read (4 * c + r)
  let newB0 := gfMultiply123 2 (columnStart 0) ^^^ gfMultiply123 3 (columnStart 1) ^^^
    gfMultiply123 1 (columnStart 2) ^^^ gfMultiply123 1 (columnStart 3)
  let newB1 := gfMultiply123 1 (columnStart 0) ^^^ gfMultiply123 2 (columnStart 1) ^^^
    gfMultiply123 3 (columnStart 2) ^^^ gfMultiply123 1 (columnStart 3)
  let newB2 := gfMultiply123 1 (columnStart 0) ^^^ gfMultiply123 1 (columnStart 1) ^^^
    gfMultiply123 2 (columnStart 2) ^^^ gfMultiply123 3 (columnStart 3)
  let newB3 := gfMultiply123 3 (columnStart 0) ^^^ gfMultiply123 1 (columnStart 1) ^^^
    gfMultiply123 1 (columnStart 2) ^^^ gfMultiply123 2 (columnStart 3)
  let data := data.write (4 * c) newB0
  let data := data.write (4 * c + 1) newB1
  let data := data.write (4 * c + 2) newB2
  data.write (4 * c + 3) newB3

/-- `*((uint32_t*) &data[4 * c]) = col`. -/
def storeWord (data : ByteBlock) (c : ℕ) (col : BitVec 32) : ByteBlock :=
  data.fill (4 * c) 4 fun r => col.extractLsb' (8 * r) 8

def aesAddRoundKey (data : ByteBlock) (roundKey : AesExpandedKey) : ByteBlock :=
  let col0 := data.wordAt 0 ^^^ roundKey.read 0
  let col1 := data.wordAt 1 ^^^ roundKey.read 1
  let col2 := data.wordAt 2 ^^^ roundKey.read 2
  let col3 := data.wordAt 3 ^^^ roundKey.read 3
  let data := storeWord data 0 col0
  let data := storeWord data 1 col1
  let data := storeWord data 2 col2
  storeWord data 3 col3

/-! ### The cipher -/

/-- The loop body. -/
def encryptStep (expandedKeys : AesExpandedKeys) (data : ByteBlock) (i : ℕ) : ByteBlock :=
  let data := aesRowMixAndSub data
  let data := aesMixColumn data 0
  let data := aesMixColumn data 1
  let data := aesMixColumn data 2
  let data := aesMixColumn data 3
  aesAddRoundKey data (expandedKeys.read i)

def aesEncryptBlock (data key : ByteBlock) : ByteBlock :=
  let expandedKeys := aesKeyExpansion default key
  let data := aesAddRoundKey data (expandedKeys.read 0)
  let data := (List.range' 1 9).foldl (encryptStep expandedKeys) data
  let data := aesRowMixAndSub data
  aesAddRoundKey data (expandedKeys.read 10)

/-! ### The transformations are those of the standard -/

theorem gfMultiply123_one (b : BitVec 8) : gfMultiply123 1 b = gfMul 1 b := (gfMul_one b).symm

theorem gfMultiply123_two (b : BitVec 8) : gfMultiply123 2 b = gfMul 2 b := by
  rw [← scaleBy2_eq]
  revert b
  decide +kernel

theorem gfMultiply123_three (b : BitVec 8) : gfMultiply123 3 b = gfMul 3 b := by
  rw [← scaleBy3_eq]
  revert b
  decide +kernel

theorem read_aesRowMixAndSub (data : ByteBlock) (r c : Fin 4) :
    (aesRowMixAndSub data).read (r + 4 * c) = aesSbox (data.read (r + 4 * (c + r : Fin 4))) := by
  unfold aesRowMixAndSub
  fin_cases r <;> fin_cases c <;> simp [CArray.read_write]

theorem state_aesRowMixAndSub (data : ByteBlock) :
    (aesRowMixAndSub data).state = Fips197.shiftRows (Fips197.subBytes data.state) := by
  apply ByteBlock.state_eq
  intro r c
  rw [read_aesRowMixAndSub, aesSbox_eq, ← ByteBlock.byteAt_state, Fips197.shiftRows,
    Fips197.byteAt_ofBytes, Fips197.subBytes, Fips197.byteAt_ofBytes]

theorem aesMixColumn_acts :
    ByteBlock.ActsOnColumn aesMixColumn (circulant Fips197.mixRow) := by
  apply ByteBlock.actsOnColumn_of_write
  intro data c _
  unfold aesMixColumn
  simp only [gfMultiply123_one, gfMultiply123_two, gfMultiply123_three]
  rfl

theorem state_aesMixColumns (data : ByteBlock) :
    (aesMixColumn (aesMixColumn (aesMixColumn (aesMixColumn data 0) 1) 2) 3).state =
      Fips197.mixColumns data.state := by
  apply eq_of_bytes
  intro r c
  rw [ByteBlock.byteAt_mixColumns]
  exact aesMixColumn_acts.byteAt_all data r c

/-- A word that is stored is the column of the state. -/
theorem byteAt_storeWord (data : ByteBlock) (col : BitVec 32) {c : ℕ} (hc : c < 4) (r c' : Fin 4) :
    byteAt (storeWord data c col).state r c' =
      if (c' : ℕ) = c then Packed.lane 8 col r else byteAt data.state r c' := by
  rw [ByteBlock.byteAt_state, storeWord, CArray.read_fill _ _ _ (by omega), ByteBlock.byteAt_state]
  by_cases h : (c' : ℕ) = c
  · rw [if_pos (by omega), if_pos h, ← h, Nat.add_sub_cancel]
    rfl
  · rw [if_neg (by omega), if_neg h]

theorem state_aesAddRoundKey (data : ByteBlock) {roundKey : AesExpandedKey} {key : BitVec 128}
    (h : ∀ c : Fin 4, roundKey.read c = AesMatrix.col key c) :
    (aesAddRoundKey data roundKey).state = data.state ^^^ key := by
  apply eq_of_bytes
  intro r c
  have hxor : byteAt (data.state ^^^ key) r c =
      Packed.lane 8 (data.wordAt c ^^^ roundKey.read c) r := by
    rw [h, ByteBlock.wordAt_eq, AesMatrix.col, AesMatrix.col, ← Packed.lane_xor]
    rfl
  rw [hxor, aesAddRoundKey]
  simp only [byteAt_storeWord _ _ (show 0 < 4 by omega),
    byteAt_storeWord _ _ (show 1 < 4 by omega), byteAt_storeWord _ _ (show 2 < 4 by omega),
    byteAt_storeWord _ _ (show 3 < 4 by omega)]
  fin_cases c <;> simp

/-! ### The round keys are those of the standard -/

/-- Four bytes shifted to their places and joined. -/
theorem joined_eq_pack (b0 b1 b2 b3 : BitVec 8) :
    b3.setWidth 32 <<< 24 ||| b2.setWidth 32 <<< 16 ||| b1.setWidth 32 <<< 8 ||| b0.setWidth 32 =
      Packed.pack ![b0, b1, b2, b3] := by
  apply BitVec.eq_of_getLsbD_eq
  intro k hk
  show _ = (b3 ++ b2 ++ b1 ++ b0).getLsbD k
  have high : ∀ (b : BitVec 8) {i : ℕ}, 8 ≤ i → b.getLsbD i = false :=
    fun b i hi => BitVec.getLsbD_of_ge b i hi
  simp only [BitVec.getLsbD_or, BitVec.getLsbD_shiftLeft, BitVec.getLsbD_setWidth,
    BitVec.getLsbD_append, hk, show k - 24 < 32 by omega, show k - 16 < 32 by omega,
    show k - 8 < 32 by omega, decide_true, Bool.true_and]
  rcases (by omega : k < 8 ∨ (8 ≤ k ∧ k < 16) ∨ (16 ≤ k ∧ k < 24) ∨ 24 ≤ k) with h | h | h | h
  · simp [h, show k < 16 by omega, show k < 24 by omega]
  · simp [h, show k < 24 by omega, show ¬ k < 8 by omega, show k - 8 < 8 by omega]
  · simp [h, show ¬ k < 8 by omega, show ¬ k < 16 by omega, show ¬ k - 8 < 8 by omega,
      show k - 8 - 8 = k - 16 by omega, show k - 16 < 8 by omega, high b0 (show 8 ≤ k by omega),
      high b1 (show 8 ≤ k - 8 by omega)]
  · simp [show ¬ k < 8 by omega, show ¬ k < 16 by omega, show ¬ k < 24 by omega,
      show ¬ k - 8 < 8 by omega, show ¬ k - 8 - 8 < 8 by omega,
      show k - 8 - 8 - 8 = k - 24 by omega, high b0 (show 8 ≤ k by omega),
      high b1 (show 8 ≤ k - 8 by omega), high b2 (show 8 ≤ k - 16 by omega)]

theorem aesGFunction_eq (word : BitVec 32) {n : ℕ} (h : n < 10) :
    aesGFunction word n = Fips197.subWord (Fips197.rotWord word) ^^^ Fips197.rcon (n + 1) := by
  have hconstant : aesRoundConstants.read n = Fips197.xPow n := aesRoundConstants_eq ⟨n, h⟩
  unfold aesGFunction
  rw [joined_eq_pack, BitVec.setWidth_ushiftRight_eq_extractLsb,
    BitVec.setWidth_ushiftRight_eq_extractLsb, BitVec.setWidth_ushiftRight_eq_extractLsb,
    BitVec.setWidth_eq_extractLsb' (by omega), hconstant]
  apply Packed.eq_of_lanes (l := 8)
  intro i
  rw [Packed.lane_xor, Packed.lane_pack, Fips197.subWord, Packed.lane_pack, Fips197.rotWord,
    Packed.lane_pack, Fips197.rcon, Packed.lane_pack, ← aesSbox_eq]
  fin_cases i
  · rfl
  all_goals exact BitVec.xor_zero.symm

/-- The round keys up to `n` have been written, and the word for the next one is prepared. -/
structure Expanded (key : BitVec 128) (n : ℕ) (s : AesExpandedKeys × BitVec 32) : Prop where
  words : ∀ i ≤ n, ∀ c < 4, (s.1.read i).read c = Fips197.keyWord key (4 * i + c)
  lastWordGEd : s.2 = aesGFunction (Fips197.keyWord key (4 * n + 3)) n

theorem Expanded.step {key : BitVec 128} {n : ℕ} {s : AesExpandedKeys × BitVec 32}
    (h : Expanded key n s) (hn : n < 10) : Expanded key (n + 1) (expansionStep s (n + 1)) := by
  obtain ⟨keys, g⟩ := s
  have hwords : ∀ c < 4, (keys.read n).read c = Fips197.keyWord key (4 * n + c) :=
    h.words n le_rfl
  have hg : g = Fips197.subWord (Fips197.rotWord (Fips197.keyWord key (4 * n + 3))) ^^^
      Fips197.rcon (n + 1) := h.lastWordGEd.trans (aesGFunction_eq _ hn)
  have h0 : (keys.read n).read 0 ^^^ g = Fips197.keyWord key (4 * (n + 1)) := by
    rw [Fips197.keyWord_round, ← hg, hwords 0 (by omega), Nat.add_zero]
  have h1 : (keys.read n).read 1 ^^^ Fips197.keyWord key (4 * (n + 1)) =
      Fips197.keyWord key (4 * (n + 1) + 1) := by
    rw [hwords 1 (by omega)]
    exact (Fips197.keyWord_round_succ key n (show 0 < 3 by omega)).symm
  have h2 : (keys.read n).read 2 ^^^ Fips197.keyWord key (4 * (n + 1) + 1) =
      Fips197.keyWord key (4 * (n + 1) + 2) := by
    rw [hwords 2 (by omega)]
    exact (Fips197.keyWord_round_succ key n (show 1 < 3 by omega)).symm
  have h3 : (keys.read n).read 3 ^^^ Fips197.keyWord key (4 * (n + 1) + 2) =
      Fips197.keyWord key (4 * (n + 1) + 3) := by
    rw [hwords 3 (by omega)]
    exact (Fips197.keyWord_round_succ key n (show 2 < 3 by omega)).symm
  unfold expansionStep
  simp only [Nat.add_sub_cancel, h0, h1, h2, h3]
  refine ⟨fun i hi c hc => ?_, rfl⟩
  rw [CArray.read_write _ (by omega)]
  split_ifs with hn1
  · subst hn1
    interval_cases c <;> rfl
  · exact h.words i (by omega) c hc

theorem expanded_first (expandedKeys : AesExpandedKeys) (key : ByteBlock) :
    let keys := expandedKeys.write 0 #v[key.wordAt 0, key.wordAt 1, key.wordAt 2, key.wordAt 3]
    Expanded key.state 0 (keys, aesGFunction ((keys.read 0).read 3) 0) := by
  intro keys
  have hfirst : keys.read 0 = #v[key.wordAt 0, key.wordAt 1, key.wordAt 2, key.wordAt 3] := by
    rw [CArray.read_write _ (by omega), if_pos rfl]
  have hwords : ∀ c < 4, (keys.read 0).read c = Fips197.keyWord key.state c := by
    intro c hc
    have hword : (keys.read 0).read c = key.wordAt c := by
      rw [hfirst]
      interval_cases c <;> rfl
    rw [hword, Fips197.keyWord_lt _ hc]
    exact ByteBlock.wordAt_eq key ⟨c, hc⟩
  refine ⟨fun i hi c hc => ?_, congrArg (aesGFunction · 0) (hwords 3 (by omega))⟩
  obtain rfl := Nat.le_zero.mp hi
  rw [Nat.mul_zero, Nat.zero_add]
  exact hwords c hc

theorem Expanded.loop {key : BitVec 128} {s : AesExpandedKeys × BitVec 32}
    (h : Expanded key 0 s) : ∀ n ≤ 10, Expanded key n ((List.range' 1 n).foldl expansionStep s)
  | 0, _ => h
  | n + 1, hn => by
      rw [List.range'_1_concat, List.foldl_append, Nat.add_comm 1 n]
      exact (loop h n (by omega)).step (by omega)

/-- The expanded key is the key schedule, whatever was in its place.  The invalid constant goes
into a word that no round key contains. -/
theorem aesKeyExpansion_eq (expandedKeys : AesExpandedKeys) (key : ByteBlock) {i c : ℕ}
    (hi : i ≤ 10) (hc : c < 4) :
    ((aesKeyExpansion expandedKeys key).read i).read c = Fips197.keyWord key.state (4 * i + c) :=
  ((expanded_first expandedKeys key).loop 10 le_rfl).words i hi c hc

/-! ### The cipher -/

section cipher
variable (data key : ByteBlock)

theorem state_addScheduledKey {n : ℕ} (h : n ≤ 10) :
    (aesAddRoundKey data ((aesKeyExpansion default key).read n)).state =
      Fips197.addRoundKey key.state n data.state :=
  state_aesAddRoundKey data fun c =>
    (aesKeyExpansion_eq default key h c.isLt).trans (roundKey_col key.state n c).symm

theorem state_encryptStep {i : ℕ} (h : i ≤ 10) :
    (encryptStep (aesKeyExpansion default key) data i).state =
      Fips197.addRoundKey key.state i
        (Fips197.mixColumns (Fips197.shiftRows (Fips197.subBytes data.state))) := by
  unfold encryptStep
  rw [state_addScheduledKey _ key h, state_aesMixColumns, state_aesRowMixAndSub]

theorem state_rounds (n : ℕ) (h : n ≤ 9) :
    ((List.range' 1 n).foldl (encryptStep (aesKeyExpansion default key))
      (aesAddRoundKey data ((aesKeyExpansion default key).read 0))).state =
        Fips197.afterRounds key.state data.state n := by
  induction n with
  | zero =>
      rw [List.range'_zero, List.foldl_nil, state_addScheduledKey data key (by omega),
        Fips197.afterRounds]
  | succ n ih =>
      rw [List.range'_1_concat, List.foldl_append, List.foldl_cons, List.foldl_nil,
        Nat.add_comm 1 n, state_encryptStep _ key (by omega), ih (by omega), Fips197.afterRounds]

/-- The reference program computes AES-128. -/
theorem state_aesEncryptBlock :
    (aesEncryptBlock data key).state = Fips197.cipher key.state data.state := by
  unfold aesEncryptBlock Fips197.cipher
  rw [state_addScheduledKey _ key (by omega), state_aesRowMixAndSub,
    state_rounds data key 9 (by omega)]

/-- **The reference program and the datapath agree** on every key and every block. -/
theorem aesEncryptBlock_eq_datapath [Rom256x1] : (aesEncryptBlock data key).state =
    datapath (KeyExpansion.schedule key.state) data.state := by
  rw [state_aesEncryptBlock, datapath_schedule_eq_cipher]

end cipher

end AesAccelerator.AesC
