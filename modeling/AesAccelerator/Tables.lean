import AesAccelerator.Lib.Packed
import Mathlib.Data.Fin.VecNotation

/-! # Types, tables and arrays

`hdl/tables.svh` and `hdl/lookup_table_256x8.sv`: the block type, the substitution table, the
round constants, and the read-only memory built from eight `ROM256X1` primitives.

An unpacked array `x [n]` is a function on `Fin n`.  An index register may be wider than the
array: a write past the end has no effect (`writeAt`), and a read past the end yields an
arbitrary value, which the caller of `readAt` supplies. -/

namespace AesAccelerator

variable {α : Type} {n : ℕ}

/-! ### Unpacked arrays -/

/-- `a[i]`, where `undef` is what a read past the end of the array yields. -/
def readAt (a : Fin n → α) (i : ℕ) (undef : α) : α := if h : i < n then a ⟨i, h⟩ else undef

/-- `a[i] <= x`. -/
def writeAt (a : Fin n → α) (i : ℕ) (x : α) : Fin n → α := fun j => if (j : ℕ) = i then x else a j

theorem readAt_of_lt (a : Fin n → α) {i : ℕ} (undef : α) (h : i < n) :
    readAt a i undef = a ⟨i, h⟩ := dif_pos h

theorem writeAt_eq (a : Fin n → α) {i : ℕ} (x : α) {j : Fin n} (h : (j : ℕ) = i) :
    writeAt a i x j = x := if_pos h

theorem writeAt_ne (a : Fin n → α) {i : ℕ} (x : α) {j : Fin n} (h : (j : ℕ) ≠ i) :
    writeAt a i x j = a j := if_neg h

/-! ### The block type -/

/-- `aes_matrix_t`: a packed array `[col][row]` of bytes, column major. -/
abbrev AesMatrix := BitVec 128

/-- `m[c]`. -/
def AesMatrix.col (m : AesMatrix) (c : Fin 4) : BitVec 32 := Packed.lane 32 m c

/-- `m[c][r]`. -/
def AesMatrix.at (m : AesMatrix) (c r : Fin 4) : BitVec 8 := Packed.lane 8 (m.col c) r

/-- The matrix whose element `[c][r]` is `f c r`. -/
def AesMatrix.of (f : Fin 4 → Fin 4 → BitVec 8) : AesMatrix :=
  Packed.pack fun c => Packed.pack (f c)

@[simp] theorem AesMatrix.at_of (f : Fin 4 → Fin 4 → BitVec 8) (c r : Fin 4) :
    (AesMatrix.of f).at c r = f c r := by
  simp [AesMatrix.at, AesMatrix.col, AesMatrix.of]

theorem AesMatrix.ext_at {a b : AesMatrix} (h : ∀ c r, a.at c r = b.at c r) : a = b :=
  Packed.eq_of_lanes (l := 32) fun c => Packed.eq_of_lanes (l := 8) fun r => h c r

/-! ### The tables -/

/-- The sixteen lines of `S_BOX_TABLE`. -/
def sBoxLines : Fin 16 → Fin 16 → BitVec 8 := ![
  ![0x63, 0x7c, 0x77, 0x7b, 0xf2, 0x6b, 0x6f, 0xc5, 0x30, 0x01, 0x67, 0x2b, 0xfe, 0xd7, 0xab, 0x76],
  ![0xca, 0x82, 0xc9, 0x7d, 0xfa, 0x59, 0x47, 0xf0, 0xad, 0xd4, 0xa2, 0xaf, 0x9c, 0xa4, 0x72, 0xc0],
  ![0xb7, 0xfd, 0x93, 0x26, 0x36, 0x3f, 0xf7, 0xcc, 0x34, 0xa5, 0xe5, 0xf1, 0x71, 0xd8, 0x31, 0x15],
  ![0x04, 0xc7, 0x23, 0xc3, 0x18, 0x96, 0x05, 0x9a, 0x07, 0x12, 0x80, 0xe2, 0xeb, 0x27, 0xb2, 0x75],
  ![0x09, 0x83, 0x2c, 0x1a, 0x1b, 0x6e, 0x5a, 0xa0, 0x52, 0x3b, 0xd6, 0xb3, 0x29, 0xe3, 0x2f, 0x84],
  ![0x53, 0xd1, 0x00, 0xed, 0x20, 0xfc, 0xb1, 0x5b, 0x6a, 0xcb, 0xbe, 0x39, 0x4a, 0x4c, 0x58, 0xcf],
  ![0xd0, 0xef, 0xaa, 0xfb, 0x43, 0x4d, 0x33, 0x85, 0x45, 0xf9, 0x02, 0x7f, 0x50, 0x3c, 0x9f, 0xa8],
  ![0x51, 0xa3, 0x40, 0x8f, 0x92, 0x9d, 0x38, 0xf5, 0xbc, 0xb6, 0xda, 0x21, 0x10, 0xff, 0xf3, 0xd2],
  ![0xcd, 0x0c, 0x13, 0xec, 0x5f, 0x97, 0x44, 0x17, 0xc4, 0xa7, 0x7e, 0x3d, 0x64, 0x5d, 0x19, 0x73],
  ![0x60, 0x81, 0x4f, 0xdc, 0x22, 0x2a, 0x90, 0x88, 0x46, 0xee, 0xb8, 0x14, 0xde, 0x5e, 0x0b, 0xdb],
  ![0xe0, 0x32, 0x3a, 0x0a, 0x49, 0x06, 0x24, 0x5c, 0xc2, 0xd3, 0xac, 0x62, 0x91, 0x95, 0xe4, 0x79],
  ![0xe7, 0xc8, 0x37, 0x6d, 0x8d, 0xd5, 0x4e, 0xa9, 0x6c, 0x56, 0xf4, 0xea, 0x65, 0x7a, 0xae, 0x08],
  ![0xba, 0x78, 0x25, 0x2e, 0x1c, 0xa6, 0xb4, 0xc6, 0xe8, 0xdd, 0x74, 0x1f, 0x4b, 0xbd, 0x8b, 0x8a],
  ![0x70, 0x3e, 0xb5, 0x66, 0x48, 0x03, 0xf6, 0x0e, 0x61, 0x35, 0x57, 0xb9, 0x86, 0xc1, 0x1d, 0x9e],
  ![0xe1, 0xf8, 0x98, 0x11, 0x69, 0xd9, 0x8e, 0x94, 0x9b, 0x1e, 0x87, 0xe9, 0xce, 0x55, 0x28, 0xdf],
  ![0x8c, 0xa1, 0x89, 0x0d, 0xbf, 0xe6, 0x42, 0x68, 0x41, 0x99, 0x2d, 0x0f, 0xb0, 0x54, 0xbb, 0x16]]

/-- `S_BOX_TABLE`. -/
def sBoxTable (i : Fin 256) : BitVec 8 := sBoxLines ⟨i / 16, by omega⟩ ⟨i % 16, by omega⟩

/-- `ROUND_G_CONSTANTS`. -/
def roundGConstants : Fin 10 → BitVec 8 :=
  ![0x1, 0x2, 0x4, 0x8, 0x10, 0x20, 0x40, 0x80, 0x1b, 0x36]

/-! ### The lookup memory -/

/-- The vendor's 256×1 read-only memory primitive, which is not part of the repository: it
outputs the bit of `INIT` that the address `{A7, …, A0}` selects. -/
class Rom256x1 where
  o : (INIT : BitVec 256) → (addr : BitVec 8) → Bool
  o_eq : ∀ INIT addr, o INIT addr = INIT.getLsbD addr.toNat

/-- The primitive as documented. -/
instance (priority := low) Rom256x1.documented : Rom256x1 where
  o INIT addr := INIT.getLsbD addr.toNat
  o_eq _ _ := rfl

/-- Bit `i` of every entry, as one `INIT` vector. -/
def ithBitFromEntries (lookupData : Fin 256 → BitVec 8) (i : ℕ) : BitVec 256 :=
  Packed.ofBits 256 fun j => (readAt lookupData j 0).getLsbD i

/-- `lookup_table_256x8`: one `ROM256X1` for every bit of the output. -/
def lookupTable256x8 [Rom256x1] (lookupData : Fin 256 → BitVec 8) (addr : BitVec 8) : BitVec 8 :=
  Packed.ofBits 8 fun i => Rom256x1.o (ithBitFromEntries lookupData i) addr

/-- The eight memories together output the addressed entry. -/
theorem lookupTable256x8_eq [Rom256x1] (lookupData : Fin 256 → BitVec 8) (addr : BitVec 8) :
    lookupTable256x8 lookupData addr = lookupData addr.toFin := by
  refine (Packed.eq_ofBits fun i _ => ?_).symm
  rw [Rom256x1.o_eq, ithBitFromEntries, Packed.getLsbD_ofBits _ addr.isLt,
    readAt_of_lt _ _ addr.isLt]
  rfl

end AesAccelerator
