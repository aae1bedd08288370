import AesAccelerator.Blocks

/-! # The software implementation

The part of `sw/src/micro-AES/micro_aes.c` that `helloworld.c` runs: AES-128 with tables and with
arithmetic on bytes.  The round keys are in a static array, `RoundKey`, which `AES_setkey` writes and
the cipher reads; a state is an array of sixteen bytes that is changed in place.  The loops of the source that count
an index are folds over its values. -/

namespace AesAccelerator

/-- What the C implementation leaves to the platform: `sizeof (size_t)`. -/
class SizeT where
  bytes : ℕ
  dvd : bytes ∣ 16

/-- The processor of the board has 32 bits. -/
instance (priority := low) SizeT.board : SizeT := ⟨4, by decide⟩

namespace MicroAes

open Fips197 (byteAt gfMul)

/-! ### The tables -/

/-- The 256 characters of `sbox`, in sixteen lines. -/
def sboxLines : Fin 16 → Fin 16 → BitVec 8 := ![
  ![0x63, 0x7c, 0x77, 0x7b, 0xf2, 0x6b, 0x6f, 0xc5, 0x30, 0x01, 0x67, 0x2b, 0xfe, 0xd7, 0xab, 0x76],
  ![0xca, 0x82, 0xc9, 0x7d, 0xfa, 0x59, 0x47, 0xf0, 0xad, 0xd4, 0xa2, 0xaf, 0x9c, 0xa4, 0x72, 0xc0],
  ![0xb7, 0xfd, 0x93, 0x26, 0x36, 0x3f, 0xf7, 0xcc, 0x34, 0xa5, 0xe5, 0xf1, 0x71, 0xd8, 0x31, 0x15],
  ![0x04, 0xc7, 0x23, 0xc3, 0x18, 0x96, 0x05, 0x9a, 0x07, 0x12, 0x80, 0xe2, 0xeb, 0x27, 0xb2, 0x75],
  ![0x09, 0x83, 0x2c, 0x1a, 0x1b, 0x6e, 0x5a, 0xa0, 0x52, 0x3b, 0xd6, 0xb3, 0x29, 0xe3, 0x2f, 0x84],
  ![0x53, 0xd1, 0x00, 0xed, 0x20, 0xfc, 0xb1, 0x5b, 0x6a, 0xcb, 0xbe, 0x39, 0x4a, 0x4c, 0x58, 0xcf],
  ![0xd0, 0xef, 0xaa, 0xfb, 0x43, 0x4d, 0x33, 0x85, 0x45, 0xf9, 0x02, 0x7f, 0x50, 0x3c, 0x9f, 0xa8],
  ![0x51, 0xa3, 0x40, 0x8f, 0x92, 0x9d, 0x38, 0xf5, 0xbc, 0xb6, 0xda, 0x21, 0x10, 0xff, 0xf3, 0xd2],
  ![0xcd, 0x0c, 0x13, 0xec, 0x5f, 0x97, 0x44, 0x17, 0xc4, 0xa7, 0x7e, 0x3d, 0x64, 0x5d, 0x19, 0x73],
  ![0x60, 0x81, 0x4f, 0xdc, 0x22, 0x2a, 0x90, 0x88, 0x46, 0xee, 0xb8, 0x14, 0xde, 0x5e, 0x0b, 0xdb],
  ![0xe0, 0x32, 0x3a, 0x0a, 0x49, 0x06, 0x24, 0x5c, 0xc2, 0xd3, 0xac, 0x62, 0x91, 0x95, 0xe4, 0x79],
  ![0xe7, 0xc8, 0x37, 0x6d, 0x8d, 0xd5, 0x4e, 0xa9, 0x6c, 0x56, 0xf4, 0xea, 0x65, 0x7a, 0xae, 0x08],
  ![0xba, 0x78, 0x25, 0x2e, 0x1c, 0xa6, 0xb4, 0xc6, 0xe8, 0xdd, 0x74, 0x1f, 0x4b, 0xbd, 0x8b, 0x8a],
  ![0x70, 0x3e, 0xb5, 0x66, 0x48, 0x03, 0xf6, 0x0e, 0x61, 0x35, 0x57, 0xb9, 0x86, 0xc1, 0x1d, 0x9e],
  ![0xe1, 0xf8, 0x98, 0x11, 0x69, 0xd9, 0x8e, 0x94, 0x9b, 0x1e, 0x87, 0xe9, 0xce, 0x55, 0x28, 0xdf],
  ![0x8c, 0xa1, 0x89, 0x0d, 0xbf, 0xe6, 0x42, 0x68, 0x41, 0x99, 0x2d, 0x0f, 0xb0, 0x54, 0xbb, 0x16]]

/-- The 256 characters of `rsbox`, in sixteen lines. -/
def rsboxLines : Fin 16 → Fin 16 → BitVec 8 := ![
  ![0x52, 0x09, 0x6a, 0xd5, 0x30, 0x36, 0xa5, 0x38, 0xbf, 0x40, 0xa3, 0x9e, 0x81, 0xf3, 0xd7, 0xfb],
  ![0x7c, 0xe3, 0x39, 0x82, 0x9b, 0x2f, 0xff, 0x87, 0x34, 0x8e, 0x43, 0x44, 0xc4, 0xde, 0xe9, 0xcb],
  ![0x54, 0x7b, 0x94, 0x32, 0xa6, 0xc2, 0x23, 0x3d, 0xee, 0x4c, 0x95, 0x0b, 0x42, 0xfa, 0xc3, 0x4e],
  ![0x08, 0x2e, 0xa1, 0x66, 0x28, 0xd9, 0x24, 0xb2, 0x76, 0x5b, 0xa2, 0x49, 0x6d, 0x8b, 0xd1, 0x25],
  ![0x72, 0xf8, 0xf6, 0x64, 0x86, 0x68, 0x98, 0x16, 0xd4, 0xa4, 0x5c, 0xcc, 0x5d, 0x65, 0xb6, 0x92],
  ![0x6c, 0x70, 0x48, 0x50, 0xfd, 0xed, 0xb9, 0xda, 0x5e, 0x15, 0x46, 0x57, 0xa7, 0x8d, 0x9d, 0x84],
  ![0x90, 0xd8, 0xab, 0x00, 0x8c, 0xbc, 0xd3, 0x0a, 0xf7, 0xe4, 0x58, 0x05, 0xb8, 0xb3, 0x45, 0x06],
  ![0xd0, 0x2c, 0x1e, 0x8f, 0xca, 0x3f, 0x0f, 0x02, 0xc1, 0xaf, 0xbd, 0x03, 0x01, 0x13, 0x8a, 0x6b],
  ![0x3a, 0x91, 0x11, 0x41, 0x4f, 0x67, 0xdc, 0xea, 0x97, 0xf2, 0xcf, 0xce, 0xf0, 0xb4, 0xe6, 0x73],
  ![0x96, 0xac, 0x74, 0x22, 0xe7, 0xad, 0x35, 0x85, 0xe2, 0xf9, 0x37, 0xe8, 0x1c, 0x75, 0xdf, 0x6e],
  ![0x47, 0xf1, 0x1a, 0x71, 0x1d, 0x29, 0xc5, 0x89, 0x6f, 0xb7, 0x62, 0x0e, 0xaa, 0x18, 0xbe, 0x1b],
  ![0xfc, 0x56, 0x3e, 0x4b, 0xc6, 0xd2, 0x79, 0x20, 0x9a, 0xdb, 0xc0, 0xfe, 0x78, 0xcd, 0x5a, 0xf4],
  ![0x1f, 0xdd, 0xa8, 0x33, 0x88, 0x07, 0xc7, 0x31, 0xb1, 0x12, 0x10, 0x59, 0x27, 0x80, 0xec, 0x5f],
  ![0x60, 0x51, 0x7f, 0xa9, 0x19, 0xb5, 0x4a, 0x0d, 0x2d, 0xe5, 0x7a, 0x9f, 0x93, 0xc9, 0x9c, 0xef],
  ![0xa0, 0xe0, 0x3b, 0x4d, 0xae, 0x2a, 0xf5, 0xb0, 0xc8, 0xeb, 0xbb, 0x3c, 0x83, 0x53, 0x99, 0x61],
  ![0x17, 0x2b, 0x04, 0x7e, 0xba, 0x77, 0xd6, 0x26, 0xe1, 0x69, 0x14, 0x63, 0x55, 0x21, 0x0c, 0x7d]]

def sBoxValue (x : BitVec 8) : BitVec 8 := tableEntry sboxLines x

def invSBoxValue (x : BitVec 8) : BitVec 8 := tableEntry rsboxLines x

/-! ### Auxiliary functions -/

def xtime (x : BitVec 8) : BitVec 8 := (if x > 0x7f then 0x1b else 0) ^^^ x <<< 1

/-- The loop of `xorBlock` with `k` words to go, that is, with `n = k * sizeof (size_t)`. -/
def xorWords [SizeT] {m : ℕ} (src : CArray (BitVec 8) m) (offset : ℕ) (dest : ByteBlock) :
    ℕ → ByteBlock
  | 0 => dest
  | k + 1 =>
      let n := SizeT.bytes * k
      xorWords src offset (dest.fill n SizeT.bytes fun t =>
        dest.read (n + t) ^^^ src.read (offset + (n + t))) k

/-- `xorBlock(src + offset, dest)`. -/
def xorBlock [SizeT] {m : ℕ} (src : CArray (BitVec 8) m) (offset : ℕ) (dest : ByteBlock) :
    ByteBlock := xorWords src offset dest (16 / SizeT.bytes)

def mixG8 (a b c d : BitVec 8) : BitVec 8 :=
  let b := b ^^^ a
  let d := d ^^^ (b ^^^ c)
  let c := c ^^^ a
  let a := a ^^^ d
  let c := c ^^^ xtime d
  let b := b ^^^ xtime c
  a ^^^ xtime b

/-! ### The key expansion -/

/-- `RoundKey`. -/
abbrev RoundKeys := CArray (BitVec 8) 176

/-- The loop body of `KeyExpansion`, on `RoundKey` and `rcon`. -/
def expansionStep (s : RoundKeys × BitVec 8) (i : ℕ) : RoundKeys × BitVec 8 :=
  let (roundKey, rcon) := s
  if i % 16 = 0 then
    let roundKey := roundKey.copyFrom i roundKey (i - 16) 16
    let rcon := if rcon = 0 then 0x1b else rcon
    let roundKey := roundKey.write i
      (roundKey.read i ^^^ (sBoxValue (roundKey.read (i - 3)) ^^^ rcon))
    let roundKey := roundKey.write (i + 1)
      (roundKey.read (i + 1) ^^^ sBoxValue (roundKey.read (i - 2)))
    let roundKey := roundKey.write (i + 2)
      (roundKey.read (i + 2) ^^^ sBoxValue (roundKey.read (i - 1)))
    let roundKey := roundKey.write (i + 3)
      (roundKey.read (i + 3) ^^^ sBoxValue (roundKey.read (i - 4)))
    (roundKey, rcon <<< 1)
  else
    (roundKey.fill i 4 fun t => roundKey.read (i + t) ^^^ roundKey.read (i - 4 + t), rcon)

/-- `KeyExpansion`, where `roundKey` is what the array held before. -/
def keyExpansion (roundKey : RoundKeys) (key : ByteBlock) : RoundKeys :=
  ((List.range' 16 40 4).foldl expansionStep (roundKey.copyFrom 0 key 0 16, 1)).1

/-! ### Encryption -/

def addRoundKey [SizeT] (roundKey : RoundKeys) (round : ℕ) (state : ByteBlock) : ByteBlock :=
  xorBlock roundKey (16 * round) state

def subBytes (state : ByteBlock) : ByteBlock := state.mapPrefix 16 fun _ b => sBoxValue b

/-- `state[i][j]` of a `state_t`. -/
def cell (state : ByteBlock) (i j : ℕ) : BitVec 8 := state.read (4 * i + j)

/-- `state[i][j] = x`. -/
def setCell (state : ByteBlock) (i j : ℕ) (x : BitVec 8) : ByteBlock := state.write (4 * i + j) x

def shiftRows (state : ByteBlock) : ByteBlock :=
  let tmp := cell state 0 1
  let state := setCell state 0 1 (cell state 1 1)
  let state := setCell state 1 1 (cell state 2 1)
  let state := setCell state 2 1 (cell state 3 1)
  let state := setCell state 3 1 tmp
  let tmp := cell state 0 2
  let state := setCell state 0 2 (cell state 2 2)
  let state := setCell state 2 2 tmp
  let tmp := cell state 1 2
  let state := setCell state 1 2 (cell state 3 2)
  let state := setCell state 3 2 tmp
  let tmp := cell state 3 3
  let state := setCell state 3 3 (cell state 2 3)
  let state := setCell state 2 3 (cell state 1 3)
  let state := setCell state 1 3 (cell state 0 3)
  setCell state 0 3 tmp

/-- The loop body of `MixColumns`. -/
def mixColumn (state : ByteBlock) (i : ℕ) : ByteBlock :=
  let c0 := cell state i 0
  let c1 := cell state i 1
  let c2 := cell state i 2
  let c3 := cell state i 3
  let c3 := c3 ^^^ c1
  let c1 := c1 ^^^ c0
  let c0 := c0 ^^^ c2
  let c2 := xtime c0
  let c0 := c0 ^^^ xtime c1
  let c1 := xtime c3
  let c0 := c0 ^^^ c3
  let state := setCell state i 0 (cell state i 0 ^^^ c0)
  let c0 := c0 ^^^ c2
  let state := setCell state i 1 (cell state i 1 ^^^ c0)
  let c0 := c0 ^^^ c1
  let state := setCell state i 2 (cell state i 2 ^^^ c0)
  let c0 := c0 ^^^ c2
  setCell state i 3 (cell state i 3 ^^^ c0)

def mixColumns (state : ByteBlock) : ByteBlock := (List.range 4).foldl mixColumn state

/-- The loop body of `rijndaelEncrypt`. -/
def encryptStep [SizeT] (roundKey : RoundKeys) (output : ByteBlock) (r : ℕ) : ByteBlock :=
  let output := addRoundKey roundKey r output
  let output := subBytes output
  let mat := shiftRows output
  if r + 1 ≠ 10 then mixColumns mat else addRoundKey roundKey 10 mat

/-- `rijndaelEncrypt`: what `output` holds at the end. -/
def rijndaelEncrypt [SizeT] (roundKey : RoundKeys) (input : ByteBlock) : ByteBlock :=
  (List.range 10).foldl (encryptStep roundKey) input

/-! ### Decryption -/

def invSubBytes (state : ByteBlock) : ByteBlock := state.mapPrefix 16 fun _ b => invSBoxValue b

def invShiftRows (state : ByteBlock) : ByteBlock :=
  let tmp := cell state 3 1
  let state := setCell state 3 1 (cell state 2 1)
  let state := setCell state 2 1 (cell state 1 1)
  let state := setCell state 1 1 (cell state 0 1)
  let state := setCell state 0 1 tmp
  let tmp := cell state 0 2
  let state := setCell state 0 2 (cell state 2 2)
  let state := setCell state 2 2 tmp
  let tmp := cell state 1 2
  let state := setCell state 1 2 (cell state 3 2)
  let state := setCell state 3 2 tmp
  let tmp := cell state 0 3
  let state := setCell state 0 3 (cell state 1 3)
  let state := setCell state 1 3 (cell state 2 3)
  let state := setCell state 2 3 (cell state 3 3)
  setCell state 3 3 tmp

/-- The loop body of `InvMixColumns`. -/
def invMixColumn (state : ByteBlock) (i : ℕ) : ByteBlock :=
  let c0 := cell state i 0
  let c1 := cell state i 1
  let c2 := cell state i 2
  let c3 := cell state i 3
  let state := setCell state i 0 (mixG8 c0 c1 c2 c3)
  let state := setCell state i 1 (mixG8 c1 c2 c3 c0)
  let state := setCell state i 2 (mixG8 c2 c3 c0 c1)
  setCell state i 3 (mixG8 c3 c0 c1 c2)

def invMixColumns (state : ByteBlock) : ByteBlock := (List.range 4).foldl invMixColumn state

/-- The loop body of `rijndaelDecrypt` that counts `r` down from `r + 1`. -/
def decryptStep [SizeT] (roundKey : RoundKeys) (output : ByteBlock) (r : ℕ) : ByteBlock :=
  let mat := if r + 1 ≠ 10 then invMixColumns output else addRoundKey roundKey 10 output
  let output := invShiftRows mat
  let output := invSubBytes output
  addRoundKey roundKey r output

/-- `rijndaelDecrypt`: what `output` holds at the end. -/
def rijndaelDecrypt [SizeT] (roundKey : RoundKeys) (input : ByteBlock) : ByteBlock :=
  (List.range 10).reverse.foldl (decryptStep roundKey) input

end MicroAes

end AesAccelerator
