import AesAccelerator.Fips197
import AesAccelerator.RoundPe
import AesAccelerator.KeyExpansion

/-! # The datapath computes AES-128

The tables, the hand-wired row shift, the multiply-accumulate rows and the key expansion are
compared with the reference piece by piece.

* `sBoxTable_eq`: the table is inversion in GF(2⁸) followed by the affine map.  The affine map is
  undone (`affineInv`), and every entry is checked to undo to the inverse of its index.
* `shiftRows_subBytes`, `mixColumns_eq`: the wiring and the MAC rows are the transformations of
  the standard; `expandKey_roundKey`: one `expand_key` is one step of the key schedule.
* `datapath_schedule_eq_cipher`: the datapath with the scheduled round keys is the cipher. -/

namespace AesAccelerator

open Fips197 (byteAt gfMul)

/-! ### The substitution table -/

/-- Inverse of the affine map of SubBytes. -/
def affineInv (b : BitVec 8) : BitVec 8 :=
  Packed.ofBits 8 fun i =>
    b.getLsbD ((i + 2) % 8) ^^ b.getLsbD ((i + 5) % 8) ^^ b.getLsbD ((i + 7) % 8) ^^
      (0x05#8).getLsbD i

theorem affine_affineInv_table :
    ∀ i : Fin 256, Fips197.affine (affineInv (sBoxTable i)) = sBoxTable i := by decide +kernel

theorem gfMul_affineInv_table : ∀ i : Fin 256, i ≠ 0 →
    gfMul (BitVec.ofFin i) (affineInv (sBoxTable i)) = 1#8 := by decide +kernel

theorem sBoxTable_eq (b : BitVec 8) : sBoxTable b.toFin = Fips197.sBox b := by
  have hinv : Fips197.gfInv b = affineInv (sBoxTable b.toFin) := by
    by_cases hb : b.toFin = 0
    · obtain rfl : b = 0#8 := BitVec.eq_of_toFin_eq hb
      rw [Fips197.gfInv_zero]
      decide +kernel
    · exact Fips197.gfInv_eq (gfMul_affineInv_table b.toFin hb)
  rw [Fips197.sBox, hinv, affine_affineInv_table]

/-! ### Column mixing -/

theorem scaleBy2_eq : ∀ b : BitVec 8, scaleBy2 b = gfMul 2 b := by decide +kernel

theorem gfMul_one (b : BitVec 8) : gfMul 1 b = b :=
  BinaryPoly.one_mulMod Fips197.modulus_monic (by omega) b

theorem scaleBy3_eq (b : BitVec 8) : scaleBy3 b = gfMul 3 b := by
  have h : gfMul b (2 ^^^ 1) = gfMul b 2 ^^^ gfMul b 1 :=
    BinaryPoly.mulMod_xor Fips197.modulus_monic b 2 1
  have hcomm : ∀ a, gfMul b a = gfMul a b :=
    fun a => BinaryPoly.mulMod_comm Fips197.modulus_monic b a
  rw [hcomm, hcomm, hcomm, gfMul_one, show (2 : BitVec 8) ^^^ 1 = 3 by decide] at h
  rw [scaleBy3, scaleBy2_eq, h]

/-- An element of the matrix is the byte of the state in that row and column. -/
theorem AesMatrix.at_eq_byteAt (m : AesMatrix) (c r : Fin 4) : m.at c r = byteAt m r c := rfl

theorem mixColumns_eq (m : AesMatrix) :
    combinatorialMatrixMultiplier m = Fips197.mixColumns m := by
  apply AesMatrix.ext_at
  intro c r
  rw [combinatorialMatrixMultiplier, AesMatrix.at_of, AesMatrix.at_eq_byteAt,
    Fips197.mixColumns, Fips197.byteAt_ofBytes]
  have row : ∀ i : Fin 4, (m.col c).extractLsb' (8 * i) 8 = byteAt m i c := fun _ => rfl
  have r0 : (m.col c).extractLsb' 0 8 = byteAt m 0 c := row 0
  have r1 : (m.col c).extractLsb' 8 8 = byteAt m 1 c := row 1
  have r2 : (m.col c).extractLsb' 16 8 = byteAt m 2 c := row 2
  have r3 : (m.col c).extractLsb' 24 8 = byteAt m 3 c := row 3
  match r with
  | 0 =>
      show row1Mac (m.col c) = gfMul 2 (byteAt m 0 c) ^^^ gfMul 3 (byteAt m 1 c) ^^^
        gfMul 1 (byteAt m 2 c) ^^^ gfMul 1 (byteAt m 3 c)
      rw [gfMul_one, gfMul_one, ← scaleBy2_eq, ← scaleBy3_eq, row1Mac, r0, r1, r2, r3]
  | 1 =>
      show row2Mac (m.col c) = gfMul 1 (byteAt m 0 c) ^^^ gfMul 2 (byteAt m 1 c) ^^^
        gfMul 3 (byteAt m 2 c) ^^^ gfMul 1 (byteAt m 3 c)
      rw [gfMul_one, gfMul_one, ← scaleBy2_eq, ← scaleBy3_eq, row2Mac, r0, r1, r2, r3]
  | 2 =>
      show row3Mac (m.col c) = gfMul 1 (byteAt m 0 c) ^^^ gfMul 1 (byteAt m 1 c) ^^^
        gfMul 2 (byteAt m 2 c) ^^^ gfMul 3 (byteAt m 3 c)
      rw [gfMul_one, gfMul_one, ← scaleBy2_eq, ← scaleBy3_eq, row3Mac, r0, r1, r2, r3]
  | 3 =>
      show row4Mac (m.col c) = gfMul 3 (byteAt m 0 c) ^^^ gfMul 1 (byteAt m 1 c) ^^^
        gfMul 1 (byteAt m 2 c) ^^^ gfMul 2 (byteAt m 3 c)
      rw [gfMul_one, gfMul_one, ← scaleBy2_eq, ← scaleBy3_eq, row4Mac, r0, r1, r2, r3]

/-! ### The round unit -/

/-- The wiring of the plain variant is SubBytes followed by ShiftRows. -/
theorem shiftedAndSubstituted_eq (m : AesMatrix) :
    shiftedAndSubstituted sBoxTable m = Fips197.shiftRows (Fips197.subBytes m) := by
  have wired : ∀ c r : Fin 4, (shiftedAndSubstituted sBoxTable m).at c r =
      sBoxTable (m.at (c + r) r).toFin := by
    intro c r
    rw [shiftedAndSubstituted, AesMatrix.at_of]
    fin_cases c <;> fin_cases r <;> rfl
  apply AesMatrix.ext_at
  intro c r
  rw [wired, sBoxTable_eq, AesMatrix.at_eq_byteAt, AesMatrix.at_eq_byteAt, Fips197.shiftRows,
    Fips197.byteAt_ofBytes, Fips197.subBytes, Fips197.byteAt_ofBytes]

section rom
variable [Rom256x1]

theorem aesRoundPe_eq (mixColumns : Bool) (stateIn roundKey : AesMatrix) :
    aesRoundPe mixColumns stateIn roundKey =
      (if mixColumns then
        Fips197.mixColumns (Fips197.shiftRows (Fips197.subBytes stateIn))
      else Fips197.shiftRows (Fips197.subBytes stateIn)) ^^^ roundKey := by
  simp only [aesRoundPe, aesRoundPeWith, useRomIntrinsics, if_true, shiftedAndSubstitutedRom_eq,
    shiftedAndSubstituted_eq, mixColumns_eq]
  split <;> rfl

/-! ### The key expansion -/

/-- The concatenation in `g_of_column` is RotWord, SubWord and the round constant. -/
theorem gOfColumn_eq (previousKey : AesMatrix) (roundConstant : BitVec 8) :
    KeyExpansion.gOfColumn previousKey roundConstant =
      Fips197.subWord (Fips197.rotWord (previousKey.col 3)) ^^^
        Packed.pack ![roundConstant, 0, 0, 0] := by
  apply Packed.eq_of_lanes (l := 8)
  intro i
  have hconcat : KeyExpansion.gOfColumn previousKey roundConstant =
      Packed.pack ![lookupTable256x8 sBoxTable (previousKey.at 3 1) ^^^ roundConstant,
        lookupTable256x8 sBoxTable (previousKey.at 3 2),
        lookupTable256x8 sBoxTable (previousKey.at 3 3),
        lookupTable256x8 sBoxTable (previousKey.at 3 0)] := rfl
  rw [hconcat, Packed.lane_pack, Packed.lane_xor, Packed.lane_pack, Fips197.subWord,
    Packed.lane_pack, Fips197.rotWord, Packed.lane_pack]
  simp only [lookupTable256x8_eq, sBoxTable_eq]
  match i with
  | 0 => rfl
  | 1 | 2 | 3 => exact (BitVec.xor_zero).symm

omit [Rom256x1] in
/-- The round constants are the powers of `x`. -/
theorem roundGConstants_eq : ∀ n : Fin 10, roundGConstants n = Fips197.xPow n := by
  decide +kernel

omit [Rom256x1] in
theorem roundKey_col (key : AesMatrix) (n : ℕ) (c : Fin 4) :
    AesMatrix.col (Fips197.roundKey key n) c = Fips197.keyWord key (4 * n + c) :=
  Packed.lane_pack _ c

/-- One `expand_key` is one step of the key schedule. -/
theorem expandKey_roundKey (key : AesMatrix) (n : Fin 10) :
    KeyExpansion.expandKey (Fips197.roundKey key n) (roundGConstants n) (Fips197.roundKey key n) =
      Fips197.roundKey key (n + 1) := by
  have first : Fips197.keyWord key (4 * (n + 1)) = Fips197.keyWord key (4 * n) ^^^
      KeyExpansion.gOfColumn (Fips197.roundKey key n) (roundGConstants n) := by
    rw [gOfColumn_eq, roundKey_col, roundGConstants_eq, Fips197.keyWord_ge key (by omega),
      if_pos (by omega), Fips197.rcon, show 4 * ((n : ℕ) + 1) - 4 = 4 * n by omega,
      show 4 * ((n : ℕ) + 1) - 1 = 4 * n + 3 by omega, show 4 * ((n : ℕ) + 1) / 4 - 1 = n by omega]
    rfl
  have later : ∀ c : ℕ, c < 3 → Fips197.keyWord key (4 * (n + 1) + (c + 1)) =
      Fips197.keyWord key (4 * n + (c + 1)) ^^^ Fips197.keyWord key (4 * (n + 1) + c) := by
    intro c h
    rw [Fips197.keyWord_ge key (by omega), if_neg (by omega),
      show 4 * ((n : ℕ) + 1) + (c + 1) - 4 = 4 * n + (c + 1) by omega,
      show 4 * ((n : ℕ) + 1) + (c + 1) - 1 = 4 * (n + 1) + c by omega]
  obtain ⟨c0, c1, c2, c3⟩ := KeyExpansion.expandKey_cols (Fips197.roundKey key n)
    (roundGConstants n) (Fips197.roundKey key n)
  rw [roundKey_col] at c0 c1 c2 c3
  have h0 := c0.trans first.symm
  rw [h0] at c1
  have h1 := c1.trans (later 0 (by omega)).symm
  rw [h1] at c2
  have h2 := c2.trans (later 1 (by omega)).symm
  rw [h2] at c3
  have h3 := c3.trans (later 2 (by omega)).symm
  apply Packed.eq_of_lanes (l := 32)
  intro c
  refine Eq.trans ?_ (roundKey_col key (n + 1) c).symm
  match c with
  | 0 => exact h0
  | 1 => exact h1
  | 2 => exact h2
  | 3 => exact h3

/-- The key schedule of the unit is the key schedule of the standard. -/
theorem schedule_eq_roundKey (key : AesMatrix) : ∀ n, n ≤ 10 →
    KeyExpansion.schedule key n = Fips197.roundKey key n
  | 0, _ => by
      apply Packed.eq_of_lanes (l := 32)
      intro c
      rw [Fips197.roundKey, Packed.lane_pack, Fips197.keyWord_lt key (by omega),
        KeyExpansion.schedule_zero, Nat.mul_zero, Nat.zero_add]
      rfl
  | n + 1, h => by
      rw [KeyExpansion.schedule_succ key (by omega), schedule_eq_roundKey key n (by omega)]
      exact expandKey_roundKey key ⟨n, by omega⟩

/-! ### The cipher -/

/-- The stages up to `n` with the scheduled round keys: `n` rounds of the cipher. -/
theorem image_schedule (key block : AesMatrix) : ∀ n, n ≤ 9 →
    image block (firstKeys (KeyExpansion.schedule key) (n + 1)) =
      Fips197.afterRounds key block n
  | 0, _ => by
      rw [Fips197.afterRounds, Fips197.addRoundKey, ← schedule_eq_roundKey key 0 (by omega)]
      rfl
  | n + 1, h => by
      rw [image_firstKeys_succ, image_schedule key block n (by omega), stage, aesRoundPe_eq,
        if_pos (decide_eq_true (by omega)), schedule_eq_roundKey key _ (by omega)]
      rfl

/-- A block that met the eleven round keys of `key` left as its AES-128 image. -/
theorem image_schedule_eq_cipher (key block : AesMatrix) :
    image block (firstKeys (KeyExpansion.schedule key) 11) = Fips197.cipher key block := by
  rw [image_firstKeys_succ, image_schedule key block 9 (by omega), stage, aesRoundPe_eq,
    if_neg (by decide), schedule_eq_roundKey key _ (by omega)]
  rfl

/-- **The datapath is AES-128**: the initial exclusive or, nine round units with column mixing
and one without, with the round keys that iterating `expand_key` yields. -/
theorem datapath_schedule_eq_cipher (key block : AesMatrix) :
    datapath (KeyExpansion.schedule key) block = Fips197.cipher key block := by
  rw [← image_firstKeys, image_schedule_eq_cipher]

end rom

end AesAccelerator
