import AesAccelerator.Lib.BinaryPoly
import AesAccelerator.Lib.Packed

/-! # The AES-128 cipher of FIPS-197

The reference for the datapath, written from the standard's definitions and from nothing in
the hardware.

* **Field.**  A byte is an element of GF(2⁸), the polynomials over GF(2) modulo
  `x⁸ + x⁴ + x³ + x + 1` (`modulus`).  `gfMul` is the product of the two polynomials followed by
  the remainder of long division; `gfInv` is the byte whose product with the given one is `1`,
  and `0` for `0`.
* **State.**  A 4×4 array of bytes, row `r` and column `c`, held as a block of 128 bits: byte
  `r + 4c` of the block is in row `r`, column `c`, and byte `i` stands at bits `8i+7 … 8i`.
* **Transformations.**  SubBytes (inversion, then the affine map), ShiftRows, MixColumns (the
  circulant matrix of `2 3 1 1`) and AddRoundKey.
* **Key schedule.**  The words `w 0, …, w 43` from RotWord, SubWord and `Rcon i = x^(i-1)`; byte `j`
  of a word stands at bits `8j+7 … 8j`. -/

namespace Fips197

/-! ### The field GF(2⁸) -/

/-- `x⁸ + x⁴ + x³ + x + 1`. -/
def modulus : BitVec 9 := 0b100011011#9

theorem modulus_monic : modulus.getLsbD 8 = true := by decide

/-- Multiplication of two field elements. -/
def gfMul (a b : BitVec 8) : BitVec 8 := BinaryPoly.mulMod modulus a b

/-- Multiplicative inverse, with `0` mapped to itself. -/
def gfInv (a : BitVec 8) : BitVec 8 :=
  (((List.finRange 256).map BitVec.ofFin).find? fun b => gfMul a b == 1#8).getD 0#8

/-- The inverse is the only byte whose product is `1`. -/
theorem gfInv_eq {a b : BitVec 8} (h : gfMul a b = 1#8) : gfInv a = b := by
  have hb : b ∈ (List.finRange 256).map (BitVec.ofFin (w := 8)) :=
    List.mem_map.mpr ⟨b.toFin, List.mem_finRange _, rfl⟩
  unfold gfInv
  cases hf : ((List.finRange 256).map (BitVec.ofFin (w := 8))).find? fun b => gfMul a b == 1#8 with
  | none => exact absurd h (by simpa using List.find?_eq_none.mp hf b hb)
  | some c =>
      have hc : gfMul a c = 1#8 := by simpa using List.find?_some hf
      exact BinaryPoly.inverse_unique modulus_monic (by decide) hc h

theorem gfInv_zero : gfInv 0#8 = 0#8 := by decide +kernel

/-! ### The state and its transformations -/

/-- The byte in row `r` and column `c`. -/
def byteAt (s : BitVec 128) (r c : Fin 4) : BitVec 8 := Packed.lane 8 (Packed.lane 32 s c) r

/-- The state with the given bytes. -/
def ofBytes (f : Fin 4 → Fin 4 → BitVec 8) : BitVec 128 :=
  Packed.pack fun c => Packed.pack fun r => f r c

/-- Byte `r + 4c`, at bits `8(r + 4c) + 7 … 8(r + 4c)`, is in row `r`, column `c`. -/
theorem byteAt_eq (s : BitVec 128) (r c : Fin 4) :
    byteAt s r c = s.extractLsb' (8 * (r + 4 * c)) 8 := by
  apply BitVec.eq_of_getLsbD_eq
  intro k hk
  rw [byteAt, Packed.getLsbD_lane, Packed.getLsbD_lane, BitVec.getLsbD_extractLsb']
  simp only [hk, show 8 * (r : ℕ) + k < 32 by omega, decide_true, Bool.true_and]
  congr 1
  omega

@[simp] theorem byteAt_ofBytes (f : Fin 4 → Fin 4 → BitVec 8) (r c : Fin 4) :
    byteAt (ofBytes f) r c = f r c := by
  simp [byteAt, ofBytes]

/-- The affine map of SubBytes, bit by bit, with the constant `63`. -/
def affine (b : BitVec 8) : BitVec 8 :=
  Packed.ofBits 8 fun i =>
    b.getLsbD i ^^ b.getLsbD ((i + 4) % 8) ^^ b.getLsbD ((i + 5) % 8) ^^
      b.getLsbD ((i + 6) % 8) ^^ b.getLsbD ((i + 7) % 8) ^^ (0x63#8).getLsbD i

/-- The substitution box. -/
def sBox (b : BitVec 8) : BitVec 8 := affine (gfInv b)

def subBytes (s : BitVec 128) : BitVec 128 := ofBytes fun r c => sBox (byteAt s r c)

/-- Row `r` is rotated left by `r` places. -/
def shiftRows (s : BitVec 128) : BitVec 128 := ofBytes fun r c => byteAt s r (c + r)

/-- First row of the MixColumns matrix; row `r` is this one rotated right by `r` places. -/
def mixRow : Fin 4 → BitVec 8 := ![2, 3, 1, 1]

def mixColumns (s : BitVec 128) : BitVec 128 := ofBytes fun r c =>
  gfMul (mixRow (0 - r)) (byteAt s 0 c) ^^^ gfMul (mixRow (1 - r)) (byteAt s 1 c) ^^^
    gfMul (mixRow (2 - r)) (byteAt s 2 c) ^^^ gfMul (mixRow (3 - r)) (byteAt s 3 c)

/-! ### The key schedule -/

def rotWord (a : BitVec 32) : BitVec 32 := Packed.pack fun i => Packed.lane 8 a (i + 1)

def subWord (a : BitVec 32) : BitVec 32 := Packed.pack fun i => sBox (Packed.lane 8 a i)

/-- The power `x^n`. -/
def xPow : ℕ → BitVec 8
  | 0 => 1
  | n + 1 => gfMul 2 (xPow n)

def rcon (i : ℕ) : BitVec 32 := Packed.pack ![xPow (i - 1), 0, 0, 0]

/-- The first `n` words of the expanded key, the last one first. -/
def keyWords (key : BitVec 128) : ℕ → List (BitVec 32)
  | 0 => []
  | i + 1 =>
      let w := keyWords key i
      let word :=
        if i < 4 then key.extractLsb' (32 * i) 32
        else
          let temp := w.getD 0 0
          let temp := if i % 4 = 0 then subWord (rotWord temp) ^^^ rcon (i / 4) else temp
          w.getD 3 0 ^^^ temp
      word :: w

/-- Word `w i`. -/
def keyWord (key : BitVec 128) (i : ℕ) : BitVec 32 := (keyWords key (i + 1)).getD 0 0

theorem keyWords_getD (key : BitVec 128) : ∀ {n k : ℕ}, k < n →
    (keyWords key n).getD k 0 = keyWord key (n - 1 - k)
  | n + 1, 0, _ => rfl
  | n + 1, k + 1, h => by
      rw [show n + 1 - 1 - (k + 1) = n - 1 - k by omega, ← keyWords_getD key (show k < n by omega)]
      rfl

theorem keyWord_lt (key : BitVec 128) {i : ℕ} (h : i < 4) :
    keyWord key i = key.extractLsb' (32 * i) 32 := by
  simp [keyWord, keyWords, h]

/-- The recursion of the key expansion: `w i = w (i-4) + temp`. -/
theorem keyWord_ge (key : BitVec 128) {i : ℕ} (h : 4 ≤ i) :
    keyWord key i = keyWord key (i - 4) ^^^
      (if i % 4 = 0 then subWord (rotWord (keyWord key (i - 1))) ^^^ rcon (i / 4)
        else keyWord key (i - 1)) := by
  have h0 := keyWords_getD key (show 0 < i by omega)
  have h3 := keyWords_getD key (show 3 < i by omega)
  rw [show i - 1 - 0 = i - 1 by omega] at h0
  rw [show i - 1 - 3 = i - 4 by omega] at h3
  rw [← h0, ← h3, keyWord, keyWords]
  simp [show ¬ i < 4 by omega]

/-- The first word of a round key. -/
theorem keyWord_round (key : BitVec 128) (n : ℕ) : keyWord key (4 * (n + 1)) =
    keyWord key (4 * n) ^^^ (subWord (rotWord (keyWord key (4 * n + 3))) ^^^ rcon (n + 1)) := by
  rw [keyWord_ge key (by omega), if_pos (by omega), show 4 * (n + 1) - 4 = 4 * n by omega,
    show 4 * (n + 1) - 1 = 4 * n + 3 by omega, show 4 * (n + 1) / 4 = n + 1 by omega]

/-- The other words of a round key. -/
theorem keyWord_round_succ (key : BitVec 128) (n : ℕ) {c : ℕ} (h : c < 3) :
    keyWord key (4 * (n + 1) + (c + 1)) =
      keyWord key (4 * n + (c + 1)) ^^^ keyWord key (4 * (n + 1) + c) := by
  rw [keyWord_ge key (by omega), if_neg (by omega),
    show 4 * (n + 1) + (c + 1) - 4 = 4 * n + (c + 1) by omega,
    show 4 * (n + 1) + (c + 1) - 1 = 4 * (n + 1) + c by omega]

/-- Round key `n`: the words `w (4n), …, w (4n+3)` as the columns of a block. -/
def roundKey (key : BitVec 128) (n : ℕ) : BitVec 128 :=
  Packed.pack fun c => keyWord key (4 * n + c)

/-! ### The cipher -/

def addRoundKey (key : BitVec 128) (n : ℕ) (s : BitVec 128) : BitVec 128 := s ^^^ roundKey key n

/-- The state after the initial AddRoundKey and `n` full rounds. -/
def afterRounds (key block : BitVec 128) : ℕ → BitVec 128
  | 0 => addRoundKey key 0 block
  | n + 1 => addRoundKey key (n + 1) (mixColumns (shiftRows (subBytes (afterRounds key block n))))

/-- AES-128: nine full rounds and one without MixColumns. -/
def cipher (key block : BitVec 128) : BitVec 128 :=
  addRoundKey key 10 (shiftRows (subBytes (afterRounds key block 9)))

end Fips197
