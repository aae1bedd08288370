import AesAccelerator.Lib.Loop
import AesAccelerator.MicroKeyExpansion

/-! # The software cipher

The block functions of `micro_aes.c` are AES-128.

* `state_rijndaelEncrypt`: with these round keys a block is encrypted as the standard says.
* `rijndaelDecrypt_rijndaelEncrypt`: whatever `RoundKey` holds, decryption undoes encryption. -/

namespace AesAccelerator.MicroAes

open Fips197 (byteAt gfMul)

/-! ### Tables and arithmetic -/

theorem invSBoxValue_sBoxValue : ∀ b : BitVec 8, invSBoxValue (sBoxValue b) = b := by
  decide +kernel

theorem sBox_surjective : Function.Surjective Fips197.sBox := by
  have : Finite (BitVec 8) := Finite.of_injective BitVec.toFin fun _ _ => BitVec.eq_of_toFin_eq
  exact Finite.surjective_of_injective (Function.LeftInverse.injective invSBox_sBox)

theorem invSBoxValue_eq (b : BitVec 8) : invSBoxValue b = invSBox b := by
  obtain ⟨c, rfl⟩ := sBox_surjective b
  rw [invSBox_sBox, ← sBoxValue_eq, invSBoxValue_sBoxValue]

theorem xtime_eq (b : BitVec 8) : xtime b = gfMul 2 b := by
  rw [← scaleBy2_eq]
  revert b
  decide +kernel

theorem element_xtime (b : BitVec 8) : element (xtime b) = element 2 * element b := by
  rw [xtime_eq, element_gfMul]

theorem mixG8_eq (a b c d : BitVec 8) : mixG8 a b c d =
    gfMul 0x0e a ^^^ gfMul 0x0b b ^^^ gfMul 0x0d c ^^^ gfMul 0x09 d := by
  apply element_injective
  obtain ⟨-, h9, hb, hd, he⟩ := element_entries
  simp only [mixG8, element_xor, element_gfMul, element_xtime, h9, hb, hd, he]
  generalize element 2 = x
  linear_combination element a * BinaryPoly.two_eq_zero Fips197.modulus

/-! ### The transformations -/

theorem state_subBytes (state : ByteBlock) :
    (subBytes state).state = Fips197.subBytes state.state := by
  apply ByteBlock.state_eq
  intro r c
  rw [subBytes, CArray.read_mapPrefix_all _ _ (by omega), sBoxValue_eq, Fips197.subBytes,
    Fips197.byteAt_ofBytes, ByteBlock.byteAt_state]

theorem state_invSubBytes (state : ByteBlock) :
    (MicroAes.invSubBytes state).state = AesAccelerator.invSubBytes state.state := by
  apply ByteBlock.state_eq
  intro r c
  rw [MicroAes.invSubBytes, CArray.read_mapPrefix_all _ _ (by omega), invSBoxValue_eq,
    AesAccelerator.invSubBytes, Fips197.byteAt_ofBytes, ByteBlock.byteAt_state]

theorem state_shiftRows (state : ByteBlock) :
    (shiftRows state).state = Fips197.shiftRows state.state := by
  apply ByteBlock.state_eq
  intro r c
  rw [Fips197.shiftRows, Fips197.byteAt_ofBytes, ByteBlock.byteAt_state]
  unfold shiftRows cell setCell
  fin_cases r <;> fin_cases c <;> simp [CArray.read_write]

theorem state_invShiftRows (state : ByteBlock) :
    (MicroAes.invShiftRows state).state = AesAccelerator.invShiftRows state.state := by
  apply ByteBlock.state_eq
  intro r c
  rw [AesAccelerator.invShiftRows, Fips197.byteAt_ofBytes, ByteBlock.byteAt_state]
  unfold MicroAes.invShiftRows cell setCell
  fin_cases r <;> fin_cases c <;> simp [CArray.read_write]
  all_goals rfl

/-! ### Column mixing -/

/-- What `MixColumns` adds to the four bytes of a column makes them the product with the matrix. -/
theorem mixed_bytes (a b c d : BitVec 8) {sum : BitVec 8}
    (hsum : sum = a ^^^ c ^^^ xtime (b ^^^ a) ^^^ (d ^^^ b)) :
    a ^^^ sum = gfMul 2 a ^^^ gfMul 3 b ^^^ gfMul 1 c ^^^ gfMul 1 d ∧
      b ^^^ (sum ^^^ xtime (a ^^^ c)) = gfMul 1 a ^^^ gfMul 2 b ^^^ gfMul 3 c ^^^ gfMul 1 d ∧
      c ^^^ (sum ^^^ xtime (a ^^^ c) ^^^ xtime (d ^^^ b)) =
        gfMul 1 a ^^^ gfMul 1 b ^^^ gfMul 2 c ^^^ gfMul 3 d ∧
      d ^^^ (sum ^^^ xtime (a ^^^ c) ^^^ xtime (d ^^^ b) ^^^ xtime (a ^^^ c)) =
        gfMul 3 a ^^^ gfMul 1 b ^^^ gfMul 1 c ^^^ gfMul 2 d := by
  subst hsum
  have h3 := element_entries.1
  have two := BinaryPoly.two_eq_zero Fips197.modulus
  refine ⟨?_, ?_, ?_, ?_⟩ <;> apply element_injective <;>
    simp only [element_xor, element_gfMul, element_xtime, h3, element_one]
  · linear_combination element a * two
  · linear_combination (element b + element 2 * element a) * two
  · linear_combination (element c + element 2 * (element a + element b)) * two
  · linear_combination (element d + element 2 * (element a + element b + element c)) * two

theorem mixColumn_acts : ByteBlock.ActsOnColumn mixColumn (circulant Fips197.mixRow) := by
  apply ByteBlock.actsOnColumn_of_write
  intro state i hi
  have read : ∀ {j : ℕ}, j < 4 → ∀ (s : ByteBlock) (x : BitVec 8) (k : ℕ),
      cell (setCell s i j x) i k = if k = j then x else cell s i k := by
    intro j hj s x k
    unfold cell setCell
    rw [CArray.read_write _ (by omega)]
    congr 1
    exact propext (by omega)
  obtain ⟨h0, h1, h2, h3⟩ := mixed_bytes (cell state i 0) (cell state i 1) (cell state i 2)
    (cell state i 3) rfl
  simp only [mixColumn, read (show 0 < 4 by omega), read (show 1 < 4 by omega),
    read (show 2 < 4 by omega), if_neg (show ¬ 1 = 0 by omega), if_neg (show ¬ 2 = 0 by omega),
    if_neg (show ¬ 2 = 1 by omega), if_neg (show ¬ 3 = 0 by omega), if_neg (show ¬ 3 = 1 by omega),
    if_neg (show ¬ 3 = 2 by omega), h0, h1, h2, h3]
  rfl

theorem state_mixColumns (state : ByteBlock) :
    (mixColumns state).state = Fips197.mixColumns state.state := by
  apply eq_of_bytes
  intro r c
  rw [ByteBlock.byteAt_mixColumns]
  exact mixColumn_acts.byteAt_all state r c

theorem mixG8_circulant (v : Fin 4 → BitVec 8) :
    mixG8 (v 0) (v 1) (v 2) (v 3) = circulant invMixRow v 0 := mixG8_eq _ _ _ _

/-- The other rows come from the first by a rotation of the column. -/
theorem mixG8_rotated (v : Fin 4 → BitVec 8) :
    mixG8 (v 1) (v 2) (v 3) (v 0) = circulant invMixRow v 1 ∧
      mixG8 (v 2) (v 3) (v 0) (v 1) = circulant invMixRow v 2 ∧
      mixG8 (v 3) (v 0) (v 1) (v 2) = circulant invMixRow v 3 := by
  have h1 : ∀ v, circulant invMixRow v 1 = circulant invMixRow (fun i => v (i + 1)) 0 :=
    fun v => circulant_succ _ v 0
  have h2 : ∀ v, circulant invMixRow v 2 = circulant invMixRow (fun i => v (i + 1)) 1 :=
    fun v => circulant_succ _ v 1
  have h3 : ∀ v, circulant invMixRow v 3 = circulant invMixRow (fun i => v (i + 1)) 2 :=
    fun v => circulant_succ _ v 2
  refine ⟨?_, ?_, ?_⟩
  · rw [h1]
    exact mixG8_circulant fun i => v (i + 1)
  · rw [h2, h1]
    exact mixG8_circulant fun i => v (i + 1 + 1)
  · rw [h3, h2, h1]
    exact mixG8_circulant fun i => v (i + 1 + 1 + 1)

theorem invMixColumn_acts : ByteBlock.ActsOnColumn invMixColumn (circulant invMixRow) := by
  apply ByteBlock.actsOnColumn_of_write
  intro state i _
  have h0 := mixG8_circulant fun k => cell state i k
  obtain ⟨h1, h2, h3⟩ := mixG8_rotated fun k => cell state i k
  unfold ByteBlock.writeColumn
  show _ = CArray.write (CArray.write (CArray.write (CArray.write state (4 * i)
    (circulant invMixRow (fun k => cell state i k) 0)) (4 * i + 1)
    (circulant invMixRow (fun k => cell state i k) 1)) (4 * i + 2)
    (circulant invMixRow (fun k => cell state i k) 2)) (4 * i + 3)
    (circulant invMixRow (fun k => cell state i k) 3)
  rw [← h0, ← h1, ← h2, ← h3]
  rfl

theorem state_invMixColumns (state : ByteBlock) :
    (MicroAes.invMixColumns state).state = AesAccelerator.invMixColumns state.state := by
  apply eq_of_bytes
  intro r c
  rw [ByteBlock.byteAt_invMixColumns]
  exact invMixColumn_acts.byteAt_all state r c

/-! ### Exclusive or, word by word -/

section words
variable [SizeT]

theorem read_xorWords {m : ℕ} (src : CArray (BitVec 8) m) (offset j : ℕ) :
    ∀ (k : ℕ) (dest : ByteBlock), SizeT.bytes * k ≤ 16 →
      (xorWords src offset dest k).read j =
        if j < SizeT.bytes * k then dest.read j ^^^ src.read (offset + j) else dest.read j
  | 0, _, _ => rfl
  | k + 1, dest, h => by
      rw [Nat.mul_succ] at h
      rw [xorWords, read_xorWords src offset j k _ (by omega), CArray.read_fill _ _ _ h, Nat.mul_succ]
      by_cases h₁ : j < SizeT.bytes * k
      · rw [if_pos h₁, if_neg (by omega), if_pos (by omega)]
      · by_cases h₂ : j < SizeT.bytes * k + SizeT.bytes
        · rw [if_neg h₁, if_pos (by omega), if_pos h₂, Nat.add_sub_cancel' (not_lt.mp h₁)]
        · rw [if_neg h₁, if_neg (by omega), if_neg h₂]

/-- The exclusive or does not depend on the size of the words. -/
theorem read_xorBlock {m : ℕ} (src : CArray (BitVec 8) m) (offset : ℕ) (dest : ByteBlock) {j : ℕ}
    (hj : j < 16) : (xorBlock src offset dest).read j = dest.read j ^^^ src.read (offset + j) := by
  have hall : SizeT.bytes * (16 / SizeT.bytes) = 16 := Nat.mul_div_cancel' SizeT.dvd
  rw [xorBlock, read_xorWords _ _ _ _ _ hall.le, hall, if_pos hj]

end words

/-! ### Encryption -/

section cipher
variable [SizeT]

theorem state_addRoundKey (roundKey : RoundKeys) (key state : ByteBlock) {n : ℕ} (hn : n ≤ 10) :
    (addRoundKey (keyExpansion roundKey key) n state).state =
      Fips197.addRoundKey key.state n state.state := by
  apply ByteBlock.state_eq
  intro r c
  rw [addRoundKey, read_xorBlock _ _ _ (by omega), read_keyExpansion _ _ (by omega),
    ← byteAt_roundKey, ← ByteBlock.byteAt_state]
  exact (Packed.lane_xor _ _ _).symm.trans (congrArg _ (Packed.lane_xor _ _ _).symm)

/-- All rounds but the last one. -/
theorem state_rounds (roundKey : RoundKeys) (key input : ByteBlock) (n : ℕ) (hn : n ≤ 9) :
    Fips197.addRoundKey key.state n
      ((List.range n).foldl (encryptStep (keyExpansion roundKey key)) input).state =
        Fips197.afterRounds key.state input.state n := by
  induction n with
  | zero => rw [List.range_zero, List.foldl_nil, Fips197.afterRounds]
  | succ n ih =>
      rw [List.range_succ, List.foldl_append, List.foldl_cons, List.foldl_nil, encryptStep,
        if_pos (by omega), state_mixColumns, state_shiftRows, state_subBytes,
        state_addRoundKey _ _ _ (by omega), ih (by omega), Fips197.afterRounds]

/-- A block is encrypted as the standard says, whatever `RoundKey` held before. -/
theorem state_rijndaelEncrypt (roundKey : RoundKeys) (key input : ByteBlock) :
    (rijndaelEncrypt (keyExpansion roundKey key) input).state =
      Fips197.cipher key.state input.state := by
  have hrange : List.range 10 = List.range 9 ++ [9] := List.range_succ
  unfold rijndaelEncrypt Fips197.cipher
  rw [hrange, List.foldl_append, List.foldl_cons, List.foldl_nil, encryptStep,
    if_neg (by omega), state_addRoundKey _ _ _ (by omega), state_shiftRows, state_subBytes,
    state_addRoundKey _ _ _ (by omega), state_rounds _ _ _ 9 le_rfl]

/-! ### Decryption -/

theorem addRoundKey_addRoundKey (roundKey : RoundKeys) (n : ℕ) (state : ByteBlock) :
    addRoundKey roundKey n (addRoundKey roundKey n state) = state := by
  apply CArray.ext_read
  intro j hj
  rw [addRoundKey, read_xorBlock _ _ _ hj, addRoundKey, read_xorBlock _ _ _ hj, BitVec.xor_assoc,
    BitVec.xor_self, BitVec.xor_zero]

omit [SizeT] in
theorem invMixColumns_mixColumns (state : ByteBlock) :
    MicroAes.invMixColumns (mixColumns state) = state := by
  apply ByteBlock.state_injective
  rw [state_invMixColumns, state_mixColumns, AesAccelerator.invMixColumns_mixColumns]

omit [SizeT] in
theorem invShifted_invSubstituted (state : ByteBlock) :
    MicroAes.invSubBytes (MicroAes.invShiftRows (shiftRows (subBytes state))) = state := by
  apply ByteBlock.state_injective
  rw [state_invSubBytes, state_invShiftRows, state_shiftRows, state_subBytes,
    invShiftRows_shiftRows, invSubBytes_subBytes]

/-- An iteration of the encryption undone. -/
theorem decryptStep_encryptStep (roundKey : RoundKeys) (state : ByteBlock) (r : ℕ) :
    decryptStep roundKey (encryptStep roundKey state r) r = state := by
  unfold decryptStep encryptStep
  by_cases h : r + 1 ≠ 10
  · simp only [if_pos h]
    rw [invMixColumns_mixColumns, invShifted_invSubstituted, addRoundKey_addRoundKey]
  · simp only [if_neg h]
    rw [addRoundKey_addRoundKey, invShifted_invSubstituted, addRoundKey_addRoundKey]

/-- Decryption undoes encryption, whatever `RoundKey` holds. -/
theorem rijndaelDecrypt_rijndaelEncrypt (roundKey : RoundKeys) (input : ByteBlock) :
    rijndaelDecrypt roundKey (rijndaelEncrypt roundKey input) = input :=
  Loop.foldl_reverse_undo (decryptStep_encryptStep roundKey) (List.range 10) input

end cipher

end AesAccelerator.MicroAes
