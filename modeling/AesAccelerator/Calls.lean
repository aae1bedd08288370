import AesAccelerator.SafeProgram

/-! # The calls of the driver as programs

Which driver functions are safe, and from what knowledge: `aes_hw_encrypt_large` waits before each
transfer and is safe whenever nothing is owed, the other two families wait for nothing before
their transfers and are safe only when both channels are known to be idle.

The transfers of a call move the blocks of its buffer, each once and in order. -/

namespace AesAccelerator

/-- A buffer of at least one block in the DDR memory of 512 MB.  As configured the engine asks for
an address that is a multiple of eight besides. -/
structure Buffer where
  inout : ℕ
  nBlocks : ℕ
  nonempty : 1 ≤ nBlocks
  inDdr : inout + 16 * nBlocks ≤ 0x20000000

namespace Buffer

/-- The addresses of the blocks. -/
def addrs (buf : Buffer) : List ℕ := (List.range buf.nBlocks).map (buf.inout + 16 * ·)

/-- The length in bytes, as the driver computes it. -/
theorem bytes_eq (buf : Buffer) : AesHw.cInt (buf.nBlocks * 16) = 16 * buf.nBlocks := by
  have := buf.inDdr
  rw [AesHw.cInt_eq (by omega) (by omega), mul_comm]

end Buffer

def instrs (call : ℕ) (actions : List Action) : List Instr := actions.map fun a => ⟨call, some a⟩

theorem instrs_append (call : ℕ) (first second : List Action) :
    instrs call (first ++ second) = instrs call first ++ instrs call second := List.map_append ..

theorem instrs_cons (call : ℕ) (a : Action) (rest : List Action) :
    instrs call (a :: rest) = ⟨call, some a⟩ :: instrs call rest := rfl

theorem ends_instrs (call : ℕ) (rest : List Instr) : ∀ actions : List Action,
    Ends (instrs call actions ++ rest) ↔ Ends rest
  | [] => Iff.rfl
  | a :: actions => by
      rw [instrs_cons, List.cons_append, Ends, List.pairwise_cons, ← Ends,
        ends_instrs call rest actions]
      simp

theorem returns_instrs (call : ℕ) (actions : List Action) :
    (instrs call actions).flatMap Instr.returns = [] := by
  simp [instrs, List.flatMap_map, Instr.returns]

/-- The addresses of the blocks that a program reads. -/
def readAddrs (program : List Instr) : List ℕ :=
  ((readsOf program).flatMap Request.beats).map DmaBeat.addr

theorem readAddrs_append (first second : List Instr) :
    readAddrs (first ++ second) = readAddrs first ++ readAddrs second := by
  simp [readAddrs, readsOf, List.filterMap_append]

theorem readAddrs_cons_none {i : Instr} (h : i.read? = none) (rest : List Instr) :
    readAddrs (i :: rest) = readAddrs rest := by
  rw [readAddrs, readsOf, List.filterMap_cons_none h]
  rfl

/-- The blocks of a transfer of `t` blocks. -/
theorem readAddrs_transfer (call addr : ℕ) {length : ℤ} {t : ℕ} (ht : length = 16 * t)
    (rest : List Instr) :
    readAddrs (⟨call, some (.simpleTransfer addr length .dmaToDevice)⟩ :: rest) =
      (List.range t).map (addr + 16 * ·) ++ readAddrs rest := by
  have hblocks : (⟨call, addr, length⟩ : Request).blocks = t := by
    simp only [Request.blocks, ht]
    omega
  have hreads : readsOf (⟨call, some (.simpleTransfer addr length .dmaToDevice)⟩ :: rest) =
      ⟨call, addr, length⟩ :: readsOf rest := List.filterMap_cons_some rfl
  rw [readAddrs, hreads, List.flatMap_cons, List.map_append, Request.beats, hblocks, List.map_map]
  rfl

/-! ### The loop of `aes_hw_encrypt_large` -/

section large
variable (p : Platform) (blocking : ℕ → Prop) (call : ℕ)

theorem fits_of_blocks {t : ℕ} (h₁ : 1 ≤ t) (h₂ : (16 * t : ℤ) ≤ AesHw.maxDmaSize p.lengthWidth) :
    Known.Fits p (16 * t) := ⟨by omega, h₂⟩

theorem encryptLargeLoop_blocks {n : ℕ} (hn : 1 ≤ n) (inout : ℕ) :
    ∃ t : ℕ, 1 ≤ t ∧ t ≤ n ∧ Known.Fits p (16 * t) ∧
      AesHw.encryptLargeLoop p.lengthWidth inout (16 * n) =
        .whileBusy .dmaToDevice :: .simpleTransfer inout (16 * t) .dmaToDevice ::
        .whileBusy .deviceToDma :: .simpleTransfer inout (16 * t) .deviceToDma ::
        AesHw.encryptLargeLoop p.lengthWidth (inout + 16 * t) (16 * ↑(n - t)) := by
  obtain ⟨t, h₁, h₂, hlen, hmax⟩ := AesHw.transferLength_blocks
    (show 5 ≤ p.lengthWidth from le_trans (by omega) p.lengthWidth_ge) hn
  refine ⟨t, h₁, h₂, fits_of_blocks p h₁ hmax, ?_⟩
  rw [AesHw.encryptLargeLoop_chunk (by omega) inout hlen, Nat.cast_sub h₂, mul_sub]

/-- The loop is safe when nothing is owed, and nothing is owed after it. -/
theorem leads_encryptLargeLoop (n : ℕ) : ∀ (inout : ℕ) (k : Known), k.owed = none →
    ∃ k', k'.owed = none ∧
      Leads p blocking k (instrs call (AesHw.encryptLargeLoop p.lengthWidth inout (16 * n))) k' := by
  induction n using Nat.strongRecOn with
  | ind n ih =>
      intro inout k howed
      rcases Nat.eq_zero_or_pos n with rfl | hn
      · rw [AesHw.encryptLargeLoop, dif_neg (by omega)]
        exact ⟨k, howed, leads_nil k⟩
      · obtain ⟨t, h₁, h₂, hfits, heq⟩ := encryptLargeLoop_blocks p hn inout
        obtain ⟨k', howed', hleads⟩ :=
          ih (n - t) (by omega) (inout + 16 * t) ⟨false, false, none⟩ rfl
        rw [heq]
        exact ⟨k', howed', .cons howed <| .cons ⟨rfl, howed, hfits⟩ <| .cons trivial <|
          .cons ⟨rfl, rfl, hfits⟩ hleads⟩

/-- The loop does nothing but wait and transfer. -/
theorem mem_encryptLargeLoop {w : ℕ} {a : Action} (inout : ℕ) (bytesRemaining : ℤ)
    (h : a ∈ AesHw.encryptLargeLoop w inout bytesRemaining) :
    (∃ channel, a = .whileBusy channel) ∨
      ∃ addr length channel, a = .simpleTransfer addr length channel := by
  induction inout, bytesRemaining using AesHw.encryptLargeLoop.induct w with
  | case1 inout bytesRemaining hpos transfer ih =>
      rw [AesHw.encryptLargeLoop, dif_pos hpos] at h
      simp only [List.mem_cons] at h
      rcases h with rfl | rfl | rfl | rfl | h
      · exact Or.inl ⟨_, rfl⟩
      · exact Or.inr ⟨_, _, _, rfl⟩
      · exact Or.inl ⟨_, rfl⟩
      · exact Or.inr ⟨_, _, _, rfl⟩
      · exact ih h
  | case2 inout bytesRemaining hpos =>
      rw [AesHw.encryptLargeLoop, dif_neg hpos] at h
      cases h

theorem readAddrs_encryptLargeLoop (n : ℕ) : ∀ inout : ℕ,
    readAddrs (instrs call (AesHw.encryptLargeLoop p.lengthWidth inout (16 * n))) =
      (List.range n).map (inout + 16 * ·) := by
  induction n using Nat.strongRecOn with
  | ind n ih =>
      intro inout
      rcases Nat.eq_zero_or_pos n with rfl | hn
      · rw [AesHw.encryptLargeLoop, dif_neg (by omega)]
        rfl
      · obtain ⟨t, h₁, h₂, hfits, heq⟩ := encryptLargeLoop_blocks p hn inout
        rw [heq, instrs_cons, instrs_cons, instrs_cons, instrs_cons, readAddrs_cons_none rfl,
          readAddrs_transfer call inout rfl, readAddrs_cons_none rfl, readAddrs_cons_none rfl,
          ih (n - t) (by omega)]
        conv_rhs => rw [show n = t + (n - t) by omega, List.range_add]
        rw [List.map_append, List.map_map]
        congr 1
        apply List.map_congr_left
        intro i _
        simp only [Function.comp]
        omega

end large

end AesAccelerator
