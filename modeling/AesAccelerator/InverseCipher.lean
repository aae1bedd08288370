import AesAccelerator.Datapath
import Mathlib.Tactic.LinearCombination

/-! # The datapath can be undone

Whatever the eleven round keys are, a block can be recovered from its image (`preimage_image`), so
the datapath is a bijection (`datapath_bijective`).  Each transformation of the standard has its
inverse here: the affine map is undone before the field inverse is taken again, the rows are
shifted back, and the columns are multiplied by the circulant matrix of `0e 0b 0d 09`. -/

namespace AesAccelerator

open Fips197 (byteAt ofBytes gfMul gfInv)

/-! ### The inverse transformations -/

def invSBox (b : BitVec 8) : BitVec 8 := gfInv (affineInv b)

def invSubBytes (s : BitVec 128) : BitVec 128 := ofBytes fun r c => invSBox (byteAt s r c)

/-- Row `r` is rotated right by `r` places. -/
def invShiftRows (s : BitVec 128) : BitVec 128 := ofBytes fun r c => byteAt s r (c - r)

/-- First row of the inverse matrix; row `r` is this one rotated right by `r` places. -/
def invMixRow : Fin 4 → BitVec 8 := ![0x0e, 0x0b, 0x0d, 0x09]

/-- Row `r` of the circulant matrix with first row `m`, times the column `v`. -/
def circulant (m v : Fin 4 → BitVec 8) (r : Fin 4) : BitVec 8 :=
  gfMul (m (0 - r)) (v 0) ^^^ gfMul (m (1 - r)) (v 1) ^^^ gfMul (m (2 - r)) (v 2) ^^^
    gfMul (m (3 - r)) (v 3)

def invMixColumns (s : BitVec 128) : BitVec 128 := ofBytes fun r c =>
  circulant invMixRow (fun i => byteAt s i c) r

/-! ### Substitution and row shift -/

theorem affineInv_affine : ∀ b : BitVec 8, affineInv (Fips197.affine b) = b := by decide +kernel

/-- Every byte but zero has a product `1` with its inverse. -/
theorem gfMul_gfInv {b : BitVec 8} (hb : b ≠ 0) : gfMul b (gfInv b) = 1#8 := by
  have hinv : gfInv b = affineInv (sBoxTable b.toFin) := by
    rw [sBoxTable_eq, Fips197.sBox, affineInv_affine]
  have hb' : b.toFin ≠ 0 := fun h => hb (BitVec.eq_of_toFin_eq h)
  rw [hinv]
  exact gfMul_affineInv_table b.toFin hb'

theorem gfInv_gfInv (b : BitVec 8) : gfInv (gfInv b) = b := by
  by_cases hb : b = 0
  · rw [hb]
    exact (congrArg gfInv Fips197.gfInv_zero).trans Fips197.gfInv_zero
  · apply Fips197.gfInv_eq
    rw [gfMul, BinaryPoly.mulMod_comm Fips197.modulus_monic]
    exact gfMul_gfInv hb

theorem invSBox_sBox (b : BitVec 8) : invSBox (Fips197.sBox b) = b := by
  rw [invSBox, Fips197.sBox, affineInv_affine, gfInv_gfInv]

theorem eq_of_bytes {s t : BitVec 128} (h : ∀ r c, byteAt s r c = byteAt t r c) : s = t :=
  AesMatrix.ext_at fun c r => h r c

theorem invSubBytes_subBytes (s : BitVec 128) : invSubBytes (Fips197.subBytes s) = s := by
  apply eq_of_bytes
  intro r c
  rw [invSubBytes, Fips197.byteAt_ofBytes, Fips197.subBytes, Fips197.byteAt_ofBytes, invSBox_sBox]

theorem invShiftRows_shiftRows (s : BitVec 128) : invShiftRows (Fips197.shiftRows s) = s := by
  apply eq_of_bytes
  intro r c
  rw [invShiftRows, Fips197.byteAt_ofBytes, Fips197.shiftRows, Fips197.byteAt_ofBytes,
    sub_add_cancel]

/-! ### Column mixing -/

/-- A byte as an element of the field. -/
noncomputable def element (b : BitVec 8) : AdjoinRoot (BinaryPoly.toPoly Fips197.modulus) :=
  BinaryPoly.residue Fips197.modulus b

theorem element_injective {a b : BitVec 8} (h : element a = element b) : a = b :=
  BinaryPoly.residue_injective Fips197.modulus_monic h

theorem element_gfMul (a b : BitVec 8) : element (gfMul a b) = element a * element b :=
  BinaryPoly.residue_mulMod Fips197.modulus_monic a b

theorem element_xor (a b : BitVec 8) : element (a ^^^ b) = element a + element b :=
  BinaryPoly.residue_xor Fips197.modulus a b

theorem element_one : element 1 = 1 := BinaryPoly.residue_one Fips197.modulus (by omega)

/-- The entries of the two matrices are polynomials in the element `02`. -/
theorem element_entries : element 0x03 = element 0x02 + 1 ∧
    element 0x09 = element 0x02 ^ 3 + 1 ∧ element 0x0b = element 0x02 ^ 3 + element 0x02 + 1 ∧
    element 0x0d = element 0x02 ^ 3 + element 0x02 ^ 2 + 1 ∧
    element 0x0e = element 0x02 ^ 3 + element 0x02 ^ 2 + element 0x02 := by
  have h4 : element 0x04 = element 0x02 ^ 2 := by
    rw [pow_two, ← element_gfMul]
    congr 1
  have h8 : element 0x08 = element 0x02 ^ 3 := by
    rw [pow_succ, ← h4, ← element_gfMul]
    congr 1
  rw [← h4, ← h8, ← element_one]
  simp only [← element_xor]
  exact ⟨rfl, rfl, rfl, rfl, rfl⟩

/-- The product of the two circulant matrices is the identity. -/
theorem invMix_mix (a b c d : BitVec 8) :
    gfMul 0x0e (gfMul 2 a ^^^ gfMul 3 b ^^^ gfMul 1 c ^^^ gfMul 1 d) ^^^
      gfMul 0x0b (gfMul 1 a ^^^ gfMul 2 b ^^^ gfMul 3 c ^^^ gfMul 1 d) ^^^
      gfMul 0x0d (gfMul 1 a ^^^ gfMul 1 b ^^^ gfMul 2 c ^^^ gfMul 3 d) ^^^
      gfMul 0x09 (gfMul 3 a ^^^ gfMul 1 b ^^^ gfMul 1 c ^^^ gfMul 2 d) = a := by
  apply element_injective
  obtain ⟨h3, h9, hb, hd, he⟩ := element_entries
  simp only [element_xor, element_gfMul, h3, h9, hb, hd, he, element_one]
  generalize element 2 = x
  linear_combination ((x ^ 4 + 2 * x ^ 3 + x ^ 2 + x + 1) * element a +
    (x ^ 4 + 2 * x ^ 3 + 2 * x ^ 2 + x + 1) * element b +
    (x ^ 4 + 2 * x ^ 3 + x ^ 2 + 2 * x + 1) * (element c + element d)) *
      BinaryPoly.two_eq_zero Fips197.modulus

theorem xor_rotate (a b c d : BitVec 8) : a ^^^ b ^^^ c ^^^ d = b ^^^ c ^^^ d ^^^ a := by
  rw [BitVec.xor_comm _ a, BitVec.xor_assoc, BitVec.xor_assoc, BitVec.xor_assoc]

/-- A circulant matrix does not see a rotation of the columns. -/
theorem circulant_succ (m v : Fin 4 → BitVec 8) (r : Fin 4) :
    circulant m v (r + 1) = circulant m (fun i => v (i + 1)) r := by
  unfold circulant
  rw [xor_rotate]
  match r with
  | 0 | 1 | 2 | 3 => rfl

theorem circulant_inv_mix (v : Fin 4 → BitVec 8) (r : Fin 4) :
    circulant invMixRow (circulant Fips197.mixRow v) r = v r := by
  have first : ∀ v, circulant invMixRow (circulant Fips197.mixRow v) 0 = v 0 :=
    fun v => invMix_mix (v 0) (v 1) (v 2) (v 3)
  have next : ∀ (r : Fin 4),
      (∀ v, circulant invMixRow (circulant Fips197.mixRow v) r = v r) →
      ∀ v, circulant invMixRow (circulant Fips197.mixRow v) (r + 1) = v (r + 1) := by
    intro r h v
    rw [circulant_succ, funext (circulant_succ Fips197.mixRow v)]
    exact h fun i => v (i + 1)
  match r with
  | 0 => exact first v
  | 1 => exact next 0 first v
  | 2 => exact next 1 (next 0 first) v
  | 3 => exact next 2 (next 1 (next 0 first)) v

theorem invMixColumns_mixColumns (s : BitVec 128) :
    invMixColumns (Fips197.mixColumns s) = s := by
  apply eq_of_bytes
  intro r c
  rw [invMixColumns, Fips197.byteAt_ofBytes, Fips197.mixColumns]
  simp only [Fips197.byteAt_ofBytes]
  exact circulant_inv_mix (fun i => byteAt s i c) r

/-! ### The datapath -/

/-- The stage `n` undone. -/
def invStage : ℕ → (roundKey stateOut : AesMatrix) → AesMatrix
  | 0, roundKey, stateOut => stateOut ^^^ roundKey
  | n + 1, roundKey, stateOut =>
      let shifted := stateOut ^^^ roundKey
      invSubBytes (invShiftRows (if n < 9 then invMixColumns shifted else shifted))

/-- The block whose image is `result`, for the stages that used the given round keys. -/
def preimage : List AesMatrix → (result : AesMatrix) → AesMatrix
  | [], result => result
  | roundKey :: met, result => preimage met (invStage met.length roundKey result)

/-- The datapath undone. -/
def inverseDatapath (keys : ℕ → AesMatrix) (result : AesMatrix) : AesMatrix :=
  preimage (firstKeys keys 11) result

theorem xor_xor_self (a key : AesMatrix) : a ^^^ key ^^^ key = a := by
  rw [BitVec.xor_assoc, BitVec.xor_self, BitVec.xor_zero]

section rom
variable [Rom256x1]

theorem invStage_stage (n : ℕ) (roundKey stateIn : AesMatrix) :
    invStage n roundKey (stage n roundKey stateIn) = stateIn := by
  cases n with
  | zero => exact xor_xor_self stateIn roundKey
  | succ n =>
      rw [stage, aesRoundPe_eq, invStage, xor_xor_self]
      simp only [decide_eq_true_eq]
      split_ifs
      · rw [invMixColumns_mixColumns, invShiftRows_shiftRows, invSubBytes_subBytes]
      · rw [invShiftRows_shiftRows, invSubBytes_subBytes]

theorem preimage_image (block : AesMatrix) (met : List AesMatrix) :
    preimage met (image block met) = block := by
  induction met with
  | nil => rfl
  | cons roundKey met ih => rw [image, preimage, invStage_stage, ih]

theorem inverseDatapath_datapath (keys : ℕ → AesMatrix) (block : AesMatrix) :
    inverseDatapath keys (datapath keys block) = block := by
  rw [← image_firstKeys]
  exact preimage_image block _

/-- **A block can always be decrypted**: for any eleven round keys the datapath is a bijection of
the blocks. -/
theorem datapath_bijective (keys : ℕ → AesMatrix) : Function.Bijective (datapath keys) := by
  have hinj : Function.Injective (datapath keys) :=
    Function.LeftInverse.injective (inverseDatapath_datapath keys)
  have : Finite AesMatrix := Finite.of_injective BitVec.toFin fun _ _ => BitVec.eq_of_toFin_eq
  exact ⟨hinj, Finite.surjective_of_injective hinj⟩

end rom

end AesAccelerator
