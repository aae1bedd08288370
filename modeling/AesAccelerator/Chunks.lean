import AesAccelerator.AesHw
import AesAccelerator.Lib.Loop
import Mathlib.Data.List.Range

/-! # The chunks of a large buffer

`aes_hw_encrypt_large` once more, with its local variables and with every `int` operation checked:
an operation whose exact result does not fit is undefined behaviour, and the model then stops.
`LargeLocals` are the variables that live across iterations, `largeBody` is one iteration.

For a buffer that fits the memory the checked loop terminates, does what the unchecked one does
(`encryptLargeLoop`), and its transfers cut the buffer into consecutive pieces
(`encryptLarge_chunks`). -/

namespace AesAccelerator

namespace AesHw

/-- An `int` operation with the exact result `x`. -/
def checkedInt (x : ℤ) : Option ℤ := if -2 ^ 31 ≤ x ∧ x < 2 ^ 31 then some x else none

theorem checkedInt_eq {x : ℤ} (h₀ : 0 ≤ x) (h : x ≤ 0x20000000) : checkedInt x = some x :=
  if_pos ⟨by omega, by omega⟩

/-- The variables of `aes_hw_encrypt_large`. -/
structure LargeLocals where
  inout : ℕ
  maxDmaSize : ℤ
  bytesRemaining : ℤ

/-- Up to the loop. -/
def largeEnter (w inout : ℕ) (nBlocks : ℤ) : Option LargeLocals := do
  let shifted ← checkedInt (2 ^ w)
  let maxDmaSize ← checkedInt (shifted - 1)
  let bytesRemaining ← checkedInt (nBlocks * 16)
  return ⟨inout, maxDmaSize, bytesRemaining⟩

/-- One iteration. -/
def largeBody (l : LargeLocals) : Option (List Action × LargeLocals) := do
  let transfer := if l.bytesRemaining > l.maxDmaSize then l.maxDmaSize else l.bytesRemaining
  let quotient ← checkedInt (transfer.tdiv 16)
  let transfer ← checkedInt (quotient * 16)
  let transfer := if transfer = 0 then 16 else transfer
  let bytesRemaining ← checkedInt (l.bytesRemaining - transfer)
  let blocks ← checkedInt (transfer.tdiv 16)
  return ([.whileBusy .dmaToDevice, .simpleTransfer l.inout transfer .dmaToDevice,
      .whileBusy .deviceToDma, .simpleTransfer l.inout transfer .deviceToDma],
    ⟨l.inout + 16 * blocks.toNat, l.maxDmaSize, bytesRemaining⟩)

/-- The loop terminates from `l` in `l'` without an overflow, and this is what it does. -/
def LargeRun : LargeLocals → List Action → LargeLocals → Prop :=
  Loop.Run (fun l => l.bytesRemaining > 0) largeBody

/-- The address and the length of every transfer in one direction, in order. -/
def transfers (channel : Channel) (actions : List Action) : List (ℕ × ℤ) :=
  actions.filterMap fun
    | .simpleTransfer addr length c => if c = channel then some (addr, length) else none
    | _ => none

/-- The addresses of the bytes of a transfer. -/
def byteAddrs (c : ℕ × ℤ) : List ℕ := List.range' c.1 c.2.toNat

section chunks
variable {w : ℕ}

/-- The iteration that sends `t` blocks. -/
def chunkActions (inout : ℕ) (length : ℤ) : List Action :=
  [.whileBusy .dmaToDevice, .simpleTransfer inout length .dmaToDevice,
    .whileBusy .deviceToDma, .simpleTransfer inout length .deviceToDma]

theorem maxDmaSize_le (hw : w ≤ 26) : maxDmaSize w ≤ 2 ^ 26 - 1 := by
  have : (2 : ℤ) ^ w ≤ 2 ^ 26 := pow_le_pow_right₀ (by omega) hw
  unfold maxDmaSize
  omega

theorem largeEnter_eq (hw : w ≤ 26) (inout : ℕ) {nBlocks : ℤ} (h₀ : 0 ≤ nBlocks)
    (h : nBlocks * 16 ≤ 0x20000000) :
    largeEnter w inout nBlocks = some ⟨inout, maxDmaSize w, nBlocks * 16⟩ := by
  have hnonneg := maxDmaSize_nonneg w
  have hmax := maxDmaSize_le hw
  have hpow : (2 : ℤ) ^ w = maxDmaSize w + 1 := by
    unfold maxDmaSize
    omega
  have hshift : checkedInt (maxDmaSize w + 1) = some _ := checkedInt_eq (by omega) (by omega)
  have hsub : checkedInt (maxDmaSize w) = some _ := checkedInt_eq (by omega) (by omega)
  have hmul : checkedInt (nBlocks * 16) = some _ := checkedInt_eq (by omega) h
  simp only [largeEnter, hpow, hshift, hsub, hmul, Option.bind_eq_bind, Option.bind_some,
    add_sub_cancel_right]
  rfl

/-- With whole blocks left, an iteration sends some of them, at least one. -/
theorem largeBody_blocks (hw : 5 ≤ w) {n : ℕ} (hn : 1 ≤ n) (hsize : 16 * n ≤ 0x20000000)
    (inout : ℕ) : ∃ t : ℕ, 1 ≤ t ∧ t ≤ n ∧ (16 * t : ℤ) ≤ maxDmaSize w ∧
      transferLength w (16 * n) = 16 * t ∧
      largeBody ⟨inout, maxDmaSize w, 16 * n⟩ =
        some (chunkActions inout (16 * t), ⟨inout + 16 * t, maxDmaSize w, 16 * ↑(n - t)⟩) := by
  obtain ⟨t, h₁, h₂, hlen, hmax⟩ := transferLength_blocks hw hn
  refine ⟨t, h₁, h₂, hmax, hlen, ?_⟩
  obtain ⟨transfer, htransfer⟩ : ∃ transfer : ℤ, transfer =
      if (16 * n : ℤ) > maxDmaSize w then maxDmaSize w else 16 * n := ⟨_, rfl⟩
  have hnonneg : 0 ≤ transfer := by
    have := maxDmaSize_nonneg w
    rw [htransfer]
    split_ifs <;> omega
  have hle : transfer ≤ 16 * n := by
    rw [htransfer]
    split_ifs <;> omega
  have hdiv : transfer.tdiv 16 = transfer / 16 := Int.tdiv_eq_ediv_of_nonneg hnonneg
  have hquotient : checkedInt (transfer.tdiv 16) = some _ :=
    checkedInt_eq (by omega) (by omega)
  have hmul : checkedInt (transfer.tdiv 16 * 16) = some _ :=
    checkedInt_eq (by omega) (by omega)
  have hselect : (if transfer.tdiv 16 * 16 = 0 then 16 else transfer.tdiv 16 * 16) =
      16 * (t : ℤ) := by
    rw [htransfer]
    exact hlen
  have hleft : (16 * n - 16 * t : ℤ) = 16 * ↑(n - t) := by omega
  have hsub : checkedInt (16 * ↑(n - t)) = some _ := checkedInt_eq (by omega) (by omega)
  have hblocks : checkedInt ((16 * t : ℤ).tdiv 16) = some (t : ℤ) := by
    rw [Int.tdiv_eq_ediv_of_nonneg (by omega), Int.mul_ediv_cancel_left _ (by omega)]
    exact checkedInt_eq (by omega) (by omega)
  simp only [largeBody, ← htransfer, hquotient, hmul, hselect, hsub, hblocks, hleft,
    Option.bind_eq_bind, Option.bind_some, Int.toNat_natCast]
  rfl

theorem transfers_chunk (inout : ℕ) (length : ℤ) (channel : Channel) (rest : List Action) :
    transfers channel (chunkActions inout length ++ rest) =
      (inout, length) :: transfers channel rest := by
  cases channel <;> rfl

/-- What the loop does from `l` on. -/
structure Cuts (w : ℕ) (l : LargeLocals) (actions : List Action) : Prop where
  loop : actions = encryptLargeLoop w l.inout l.bytesRemaining
  same : transfers .deviceToDma actions = transfers .dmaToDevice actions
  lengths : ∀ c ∈ transfers .dmaToDevice actions, 0 < c.2 ∧ 16 ∣ c.2 ∧ c.2 ≤ 2 ^ w - 1
  cover : (transfers .dmaToDevice actions).flatMap byteAddrs =
    List.range' l.inout l.bytesRemaining.toNat

theorem cuts_nil {l : LargeLocals} (h : l.bytesRemaining = 0) : Cuts w l [] := by
  constructor
  · rw [encryptLargeLoop, dif_neg (by omega)]
  · rfl
  · intro c hc
    cases hc
  · rw [h]
    rfl

theorem cuts_chunk {inout n t : ℕ} (h₁ : 1 ≤ t) (h₂ : t ≤ n) (hmax : (16 * t : ℤ) ≤ maxDmaSize w)
    (hlen : transferLength w (16 * n) = 16 * t) {rest : List Action}
    (hrest : Cuts w ⟨inout + 16 * t, maxDmaSize w, 16 * ↑(n - t)⟩ rest) :
    Cuts w ⟨inout, maxDmaSize w, 16 * n⟩ (chunkActions inout (16 * t) ++ rest) := by
  have hleft : (16 * n - 16 * t : ℤ) = 16 * ↑(n - t) := by omega
  constructor
  · show _ = encryptLargeLoop w inout (16 * n)
    rw [encryptLargeLoop_chunk (by omega) inout hlen, hleft, hrest.loop]
    rfl
  · rw [transfers_chunk, transfers_chunk, hrest.same]
  · intro c hc
    rw [transfers_chunk, List.mem_cons] at hc
    cases hc with
    | inl hfirst =>
        rw [hfirst]
        exact ⟨by omega, Dvd.intro _ rfl, hmax⟩
    | inr hlater => exact hrest.lengths c hlater
  · rw [transfers_chunk, List.flatMap_cons, hrest.cover, byteAddrs]
    have hsum : (16 * n : ℤ).toNat = (16 * t : ℤ).toNat + (16 * ↑(n - t) : ℤ).toNat := by omega
    have hnext : inout + 16 * t = inout + (16 * t : ℤ).toNat := by omega
    show _ = List.range' inout (16 * n : ℤ).toNat
    rw [hsum, hnext, List.range'_append_1]

/-- The invariant of the loop: whole blocks are left, and the limit is what it was. -/
def BlocksLeft (w : ℕ) (l : LargeLocals) : Prop :=
  ∃ n : ℕ, 16 * n ≤ 0x20000000 ∧ l.maxDmaSize = maxDmaSize w ∧ l.bytesRemaining = 16 * n

theorem largeRun_blocks (hw : 5 ≤ w) {l : LargeLocals} (hl : BlocksLeft w l) :
    ∃ actions l', LargeRun l actions l' ∧ l'.bytesRemaining = 0 ∧ Cuts w l actions := by
  have exit : ∀ l, BlocksLeft w l → ¬ l.bytesRemaining > 0 → Cuts w l [] := by
    rintro l ⟨n, -, -, hn⟩ hend
    exact cuts_nil (by omega)
  have iterate : ∀ l, BlocksLeft w l → l.bytesRemaining > 0 → ∃ out l',
      largeBody l = some (out, l') ∧ BlocksLeft w l' ∧
        l'.bytesRemaining.toNat < l.bytesRemaining.toNat ∧
        ∀ rest, Cuts w l' rest → Cuts w l (out ++ rest) := by
    rintro ⟨inout, max, bytes⟩ ⟨n, hsize, hmax, hbytes⟩ hpos
    obtain rfl : max = maxDmaSize w := hmax
    obtain rfl : bytes = 16 * n := hbytes
    have hn : (16 * n : ℤ) > 0 := hpos
    obtain ⟨t, h₁, h₂, hle, hlen, hbody⟩ := largeBody_blocks hw (by omega) hsize inout
    refine ⟨_, _, hbody, ⟨n - t, by omega, rfl, rfl⟩, ?_, fun rest => cuts_chunk h₁ h₂ hle hlen⟩
    show (16 * ↑(n - t) : ℤ).toNat < (16 * n : ℤ).toNat
    omega
  obtain ⟨actions, l', hrun, ⟨n, -, -, hn⟩, hend, hcuts⟩ :=
    Loop.exists_run (fun l : LargeLocals => l.bytesRemaining.toNat) exit iterate hl
  exact ⟨actions, l', hrun, by omega, hcuts⟩

/-- **The chunks of `aes_hw_encrypt_large`**: for every length width of the engine and every buffer
within the memory the loop terminates without an overflow; both channels get the same transfers,
each of whole blocks and within the engine's limit; and together, one after the other, these are
the bytes of the buffer. -/
theorem encryptLarge_chunks (w : ℕ) (hw₀ : 8 ≤ w) (hw : w ≤ 26) (key : AesBlock) (inout : ℕ)
    (nBlocks : ℤ) (h₀ : 0 ≤ nBlocks) (hddr : nBlocks * 16 ≤ 0x20000000) :
    ∃ l actions l', largeEnter w inout nBlocks = some l ∧ LargeRun l actions l' ∧
      l'.bytesRemaining = 0 ∧
      encryptLarge w key inout nBlocks =
        .writeKey key :: actions ++ [.whileBusy .deviceToDma] ∧
      transfers .deviceToDma actions = transfers .dmaToDevice actions ∧
      (∀ c ∈ transfers .dmaToDevice actions, 0 < c.2 ∧ 16 ∣ c.2 ∧ c.2 ≤ 2 ^ w - 1) ∧
      (transfers .dmaToDevice actions).flatMap byteAddrs =
        List.range' inout (nBlocks * 16).toNat := by
  obtain ⟨n, rfl⟩ := Int.eq_ofNat_of_zero_le h₀
  have hbytes : (n * 16 : ℤ) = 16 * n := mul_comm _ _
  obtain ⟨actions, l', hrun, hend, hcuts⟩ :=
    largeRun_blocks (w := w) (l := ⟨inout, maxDmaSize w, 16 * n⟩) (by omega)
      ⟨n, by omega, rfl, rfl⟩
  refine ⟨_, actions, l', largeEnter_eq hw inout h₀ hddr, ?_, hend, ?_, hcuts.same,
    hcuts.lengths, ?_⟩
  · rw [hbytes]
    exact hrun
  · rw [encryptLarge, cInt_eq (by omega) (by omega), hbytes, hcuts.loop]
  · rw [hbytes]
    exact hcuts.cover

/-- As configured, with a buffer of `32` megabytes less one block. -/
theorem encryptLarge_chunks_configured : ∃ l actions l',
    largeEnter sgLengthWidth 0x100000 0x1fffff = some l ∧ LargeRun l actions l' ∧
      l'.bytesRemaining = 0 := by
  obtain ⟨l, actions, l', henter, hrun, hend, -⟩ :=
    encryptLarge_chunks sgLengthWidth (by decide) (by decide) 0 0x100000 0x1fffff (by decide)
      (by decide)
  exact ⟨l, actions, l', henter, hrun, hend⟩

end chunks

end AesHw

end AesAccelerator
