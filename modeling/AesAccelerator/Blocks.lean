import AesAccelerator.Dma
import AesAccelerator.InverseCipher
import AesAccelerator.Lib.CArray

/-! # Blocks of bytes

The programs hold a block as sixteen bytes, the cipher as a state of 128 bits.  The two views are
the same data (`blockOf_stateOf`, `stateOf_blockOf`), so a program is compared with the cipher one
transformation at a time, byte by byte (`state_eq`).  A `uint32_t` that is read from the four bytes
of a column has the first of them in its lowest bits, and is the column of the state
(`wordAt_eq`). -/

namespace AesAccelerator

open Fips197 (byteAt)

theorem blockIndex_lt (r c : Fin 4) : (r + 4 * c : ℕ) < 16 := by omega

theorem byteAt_stateOf (block : AesBlock) (r c : Fin 4) :
    byteAt (stateOf block) r c = block ⟨r + 4 * c, blockIndex_lt r c⟩ :=
  Fips197.byteAt_ofBytes _ r c

@[simp] theorem blockOf_stateOf (block : AesBlock) : blockOf (stateOf block) = block := by
  funext i
  rw [blockOf, byteAt_stateOf]
  congr 1
  exact Fin.ext (Nat.mod_add_div i 4)

@[simp] theorem stateOf_blockOf (state : BitVec 128) : stateOf (blockOf state) = state := by
  apply eq_of_bytes
  intro r c
  rw [byteAt_stateOf, blockOf]
  congr 1
  · apply Fin.ext
    show (r + 4 * c : ℕ) % 4 = r
    omega
  · apply Fin.ext
    show (r + 4 * c : ℕ) / 4 = c
    omega

/-- The entry `b` of a table of 256 bytes, given in lines of sixteen. -/
def tableEntry (lines : Fin 16 → Fin 16 → BitVec 8) (b : BitVec 8) : BitVec 8 :=
  lines ⟨b.toNat / 16, by omega⟩ ⟨b.toNat % 16, by omega⟩

/-- A block in an array of bytes. -/
abbrev ByteBlock := CArray (BitVec 8) 16

namespace ByteBlock

/-- The state of the cipher that the bytes are. -/
def state (b : ByteBlock) : BitVec 128 := stateOf b.get

theorem byteAt_state (b : ByteBlock) (r c : Fin 4) : byteAt b.state r c = b.read (r + 4 * c) := by
  rw [state, byteAt_stateOf, CArray.get_eq_read]

theorem get_eq_blockOf (b : ByteBlock) : b.get = blockOf b.state := (blockOf_stateOf b.get).symm

theorem state_injective : Function.Injective state := by
  intro a b h
  apply CArray.ext_read
  intro i hi
  have hget : a.get = b.get := by rw [get_eq_blockOf, get_eq_blockOf, h]
  have hread := congrFun hget ⟨i, hi⟩
  rwa [CArray.get_eq_read, CArray.get_eq_read] at hread

/-- Equal states from equal bytes. -/
theorem state_eq {b : ByteBlock} {s : BitVec 128}
    (h : ∀ r c : Fin 4, b.read (r + 4 * c) = byteAt s r c) : b.state = s := by
  apply eq_of_bytes
  intro r c
  rw [byteAt_state, h]

/-- `*((uint32_t*) &b[4 * c])`. -/
def wordAt (b : ByteBlock) (c : ℕ) : BitVec 32 := Packed.pack fun r => b.read (4 * c + r)

theorem wordAt_eq (b : ByteBlock) (c : Fin 4) : b.wordAt c = AesMatrix.col b.state c := by
  apply Packed.eq_of_lanes (l := 8)
  intro r
  rw [wordAt, Packed.lane_pack, Nat.add_comm, ← byteAt_state]
  rfl

/-! ### Columns changed in place -/

theorem byteAt_mixColumns (s : BitVec 128) (r c : Fin 4) : byteAt (Fips197.mixColumns s) r c =
    circulant Fips197.mixRow (fun k => byteAt s k c) r := Fips197.byteAt_ofBytes _ r c

theorem byteAt_invMixColumns (s : BitVec 128) (r c : Fin 4) : byteAt (invMixColumns s) r c =
    circulant invMixRow (fun k => byteAt s k c) r := Fips197.byteAt_ofBytes _ r c

/-- The four bytes of column `i` are written, one after the other. -/
def writeColumn (b : ByteBlock) (i : ℕ) (x : Fin 4 → BitVec 8) : ByteBlock :=
  (((b.write (4 * i) (x 0)).write (4 * i + 1) (x 1)).write (4 * i + 2) (x 2)).write (4 * i + 3) (x 3)

theorem byteAt_writeColumn (b : ByteBlock) {i : ℕ} (hi : i < 4) (x : Fin 4 → BitVec 8)
    (r c : Fin 4) : byteAt (b.writeColumn i x).state r c =
      if (c : ℕ) = i then x r else byteAt b.state r c := by
  rw [byteAt_state, byteAt_state, writeColumn, CArray.read_write _ (by omega),
    CArray.read_write _ (by omega), CArray.read_write _ (by omega), CArray.read_write _ (by omega)]
  by_cases h : (c : ℕ) = i
  · rw [if_pos h]
    match r with
    | 0 => rw [if_neg (by omega), if_neg (by omega), if_neg (by omega), if_pos (by omega)]
    | 1 => rw [if_neg (by omega), if_neg (by omega), if_pos (by omega)]
    | 2 => rw [if_neg (by omega), if_pos (by omega)]
    | 3 => rw [if_pos (by omega)]
  · rw [if_neg h, if_neg (by omega), if_neg (by omega), if_neg (by omega), if_neg (by omega)]

/-- A function that replaces the bytes of a column by `f` of them. -/
def ActsOnColumn (step : ByteBlock → ℕ → ByteBlock)
    (f : (Fin 4 → BitVec 8) → Fin 4 → BitVec 8) : Prop :=
  ∀ (b : ByteBlock) (i : ℕ), i < 4 → ∀ r c : Fin 4, byteAt (step b i).state r c =
    if (c : ℕ) = i then f (fun k => byteAt b.state k c) r else byteAt b.state r c

theorem actsOnColumn_of_write {step : ByteBlock → ℕ → ByteBlock}
    {f : (Fin 4 → BitVec 8) → Fin 4 → BitVec 8}
    (h : ∀ (b : ByteBlock) (i : ℕ), i < 4 →
      step b i = b.writeColumn i (f fun k => b.read (4 * i + k))) : ActsOnColumn step f := by
  intro b i hi r c
  rw [h b i hi, byteAt_writeColumn _ hi]
  simp only [byteAt_state, Nat.add_comm (_ : ℕ) (4 * (c : ℕ))]
  by_cases hc : (c : ℕ) = i
  · rw [if_pos hc, if_pos hc, hc]
  · rw [if_neg hc, if_neg hc]

/-- All four columns in turn. -/
theorem ActsOnColumn.byteAt_all {step : ByteBlock → ℕ → ByteBlock}
    {f : (Fin 4 → BitVec 8) → Fin 4 → BitVec 8} (h : ActsOnColumn step f) (b : ByteBlock)
    (r c : Fin 4) : byteAt ((List.range 4).foldl step b).state r c =
      f (fun k => byteAt b.state k c) r := by
  have hfold : (List.range 4).foldl step b = step (step (step (step b 0) 1) 2) 3 := rfl
  rw [hfold]
  fin_cases c <;> simp [h _ 0 (by omega), h _ 1 (by omega), h _ 2 (by omega), h _ 3 (by omega)]

end ByteBlock

end AesAccelerator
