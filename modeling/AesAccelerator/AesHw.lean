import Mathlib.Algebra.Order.Ring.Int
import Mathlib.Data.BitVec
import Mathlib.Data.Fin.VecNotation
import Mathlib.Tactic.Positivity

/-! # The driver

`sw/src/aes_hw.c`.  What a driver function does is a list of actions on the key register, on the
two channels of the DMA engine and on the cache; none of them depends on what the engine answers
(the return codes of `XAxiDma_SimpleTransfer` are not looked at), except that a loop
`while (XAxiDma_Busy(…));` waits.  Addresses are byte addresses; an `int` is an integer of 32
bits. -/

namespace AesAccelerator

/-- `aes_block_t`. -/
abbrev AesBlock := Fin 16 → BitVec 8

/-- The two directions of the DMA engine. -/
inductive Channel where
  /-- `XAXIDMA_DMA_TO_DEVICE`: reads the memory. -/
  | dmaToDevice
  /-- `XAXIDMA_DEVICE_TO_DMA`: writes the memory. -/
  | deviceToDma
deriving DecidableEq, Repr

inductive Action where
  /-- `*AES_HW_KEY_REG = key`. -/
  | writeKey (key : AesBlock)
  /-- `XAxiDma_Reset` and the loop until it is done. -/
  | reset
  /-- `XAxiDma_SimpleTransfer`. -/
  | simpleTransfer (addr : ℕ) (length : ℤ) (channel : Channel)
  /-- `while (XAxiDma_Busy(channel));`. -/
  | whileBusy (channel : Channel)
  /-- `Xil_DCacheFlushRange`. -/
  | dCacheFlushRange (addr : ℕ) (length : ℤ)
  /-- `Xil_DCacheInvalidateRange`. -/
  | dCacheInvalidateRange (addr : ℕ) (length : ℤ)

namespace AesHw

/-- The value of an `int` expression whose exact value is `x`. -/
def cInt (x : ℤ) : ℤ := x.bmod (2 ^ 32)

theorem cInt_eq {x : ℤ} (h₀ : 0 ≤ x) (h : x < 2 ^ 31) : cInt x = x := by
  unfold cInt
  rw [Int.bmod_def, Int.emod_eq_of_lt h₀ (by omega)]
  split <;> omega

/-- `XPAR_AXI_DMA_0_SG_LENGTH_WIDTH` as configured. -/
def sgLengthWidth : ℕ := 24

/-! ### The functions -/

section functions
variable (w : ℕ) (key : AesBlock) (inout : ℕ) (nBlocks : ℤ)

def encrypt : List Action :=
  [.writeKey key,
    .simpleTransfer inout (cInt (nBlocks * 16)) .dmaToDevice,
    .simpleTransfer inout (cInt (nBlocks * 16)) .deviceToDma,
    .whileBusy .deviceToDma]

/-- `aes_hw_init`: the `dummy` block is both the key and the data. -/
def init (dummy : ℕ) : List Action := [.writeKey 0, .reset] ++ encrypt 0 dummy 1

/-- `max_dma_size`. -/
def maxDmaSize : ℤ := 2 ^ w - 1

/-- The three assignments to `transfer`. -/
def transferLength (bytesRemaining : ℤ) : ℤ :=
  let transfer := if bytesRemaining > maxDmaSize w then maxDmaSize w else bytesRemaining
  let transfer := transfer.tdiv 16 * 16
  if transfer = 0 then 16 else transfer

theorem maxDmaSize_nonneg : 0 ≤ maxDmaSize w := by
  have : (0 : ℤ) < 2 ^ w := by positivity
  unfold maxDmaSize
  omega

variable {w} in
theorem transferLength_pos {bytesRemaining : ℤ} (h : bytesRemaining > 0) :
    0 < transferLength w bytesRemaining := by
  have hmax := Int.tdiv_nonneg (maxDmaSize_nonneg w) (show (0 : ℤ) ≤ 16 by omega)
  have hall := Int.tdiv_nonneg h.le (show (0 : ℤ) ≤ 16 by omega)
  unfold transferLength
  dsimp only
  split_ifs <;> omega

/-- A chunk of a buffer of whole blocks is some of these blocks, at least one. -/
theorem transferLength_blocks {w : ℕ} (hw : 5 ≤ w) {n : ℕ} (hn : 1 ≤ n) :
    ∃ t : ℕ, 1 ≤ t ∧ t ≤ n ∧ transferLength w (16 * n) = 16 * t ∧ (16 * t : ℤ) ≤ maxDmaSize w := by
  have hmax : (31 : ℤ) ≤ maxDmaSize w := by
    have : (2 : ℤ) ^ 5 ≤ 2 ^ w := pow_le_pow_right₀ (by omega) hw
    unfold maxDmaSize
    omega
  have hdiv : (maxDmaSize w).tdiv 16 = maxDmaSize w / 16 := Int.tdiv_eq_ediv_of_nonneg (by omega)
  unfold transferLength
  dsimp only
  by_cases hgt : (16 * n : ℤ) > maxDmaSize w
  · refine ⟨(maxDmaSize w / 16).toNat, ?_, ?_, ?_, ?_⟩
    · omega
    · omega
    · rw [if_pos hgt, hdiv, if_neg (by omega)]
      omega
    · omega
  · refine ⟨n, hn, le_rfl, ?_, by omega⟩
    rw [if_neg hgt, Int.tdiv_eq_ediv_of_nonneg (by omega), if_neg (by omega)]
    omega

/-- The loop of `aes_hw_encrypt_large`. -/
def encryptLargeLoop (inout : ℕ) (bytesRemaining : ℤ) : List Action :=
  if _h : bytesRemaining > 0 then
    let transfer := transferLength w bytesRemaining
    .whileBusy .dmaToDevice ::
    .simpleTransfer inout transfer .dmaToDevice ::
    .whileBusy .deviceToDma ::
    .simpleTransfer inout transfer .deviceToDma ::
    encryptLargeLoop (inout + 16 * (transfer.tdiv 16).toNat) (bytesRemaining - transfer)
  else []
termination_by bytesRemaining.toNat
decreasing_by
  have := transferLength_pos (w := w) _h
  omega

/-- An iteration of the loop that sends `t` blocks. -/
theorem encryptLargeLoop_chunk {w : ℕ} {bytesRemaining : ℤ} (h : bytesRemaining > 0) (inout : ℕ)
    {t : ℕ} (hlen : transferLength w bytesRemaining = 16 * t) :
    encryptLargeLoop w inout bytesRemaining =
      .whileBusy .dmaToDevice :: .simpleTransfer inout (16 * t) .dmaToDevice ::
      .whileBusy .deviceToDma :: .simpleTransfer inout (16 * t) .deviceToDma ::
      encryptLargeLoop w (inout + 16 * t) (bytesRemaining - 16 * t) := by
  rw [encryptLargeLoop, dif_pos h]
  simp only [hlen]
  rw [Int.tdiv_eq_ediv_of_nonneg (by omega), Int.mul_ediv_cancel_left _ (by omega),
    Int.toNat_natCast]

def encryptLarge : List Action :=
  .writeKey key :: encryptLargeLoop w inout (cInt (nBlocks * 16)) ++ [.whileBusy .deviceToDma]

def encryptNonblocking : List Action :=
  [.writeKey key,
    .simpleTransfer inout (cInt (nBlocks * 16)) .dmaToDevice,
    .simpleTransfer inout (cInt (nBlocks * 16)) .deviceToDma]

def encryptFlushing : List Action :=
  .dCacheFlushRange inout (cInt (nBlocks * 16)) :: encrypt key inout nBlocks ++
    [.dCacheInvalidateRange inout (cInt (nBlocks * 16))]

def encryptFlushingLarge : List Action :=
  .dCacheFlushRange inout (cInt (nBlocks * 16)) :: encryptLarge w key inout nBlocks ++
    [.dCacheInvalidateRange inout (cInt (nBlocks * 16))]

end functions

end AesHw

end AesAccelerator
