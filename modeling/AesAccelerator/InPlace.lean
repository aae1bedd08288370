import AesAccelerator.Calls

/-! # Encryption in place

While a chunk is read, the chunk before it is still being written to the same buffer.  `InPlace`
relates the memory to what it was before the call: it differs in the blocks written so far, and
these are the encrypted ones; the blocks in the core are blocks of the original memory, on their
way.  A block is read before it is written because the written beats are the first of the read
ones, and no two beats of a call overlap. -/

namespace AesAccelerator

/-! ### Memory with some blocks encrypted -/

section memory
variable (p : Platform) (key : AesBlock) (memory : ℕ → BitVec 8)

/-- The encrypted image of the block at `addr`. -/
def imageAt (addr : ℕ) : AesBlock := p.encrypt key (readBlock memory addr)

/-- The memory in which the blocks at `addrs` are replaced by their images. -/
def encryptedAt (addrs : List ℕ) : ℕ → BitVec 8 :=
  addrs.foldl (fun m addr => writeBlock m addr (imageAt p key memory addr)) memory

/-- Blocks that do not overlap. -/
def Apart (a a' : ℕ) : Prop := a + 16 ≤ a' ∨ a' + 16 ≤ a

theorem encryptedAt_append (addrs : List ℕ) (addr : ℕ) :
    encryptedAt p key memory (addrs ++ [addr]) =
      writeBlock (encryptedAt p key memory addrs) addr (imageAt p key memory addr) := by
  rw [encryptedAt, List.foldl_append]
  rfl

theorem encryptedAt_of_outside {addrs : List ℕ} {a : ℕ}
    (h : ∀ addr ∈ addrs, a < addr ∨ addr + 16 ≤ a) : encryptedAt p key memory addrs a = memory a := by
  induction addrs using List.reverseRecOn with
  | nil => rfl
  | append_singleton addrs addr ih =>
      rw [encryptedAt_append, writeBlock_of_outside _ _ (h addr (by simp))]
      exact ih fun addr' hmem => h addr' (List.mem_append_left _ hmem)

theorem readBlock_encryptedAt_of_apart {addrs : List ℕ} {a : ℕ} (h : ∀ addr ∈ addrs, Apart addr a) :
    readBlock (encryptedAt p key memory addrs) a = readBlock memory a := by
  funext i
  apply encryptedAt_of_outside p key memory
  intro addr hmem
  have := h addr hmem
  unfold Apart at this
  omega

/-- Each of the blocks is encrypted when they do not overlap. -/
theorem readBlock_encryptedAt {addrs : List ℕ} (hapart : addrs.Pairwise Apart) {addr : ℕ}
    (hmem : addr ∈ addrs) :
    readBlock (encryptedAt p key memory addrs) addr = imageAt p key memory addr := by
  induction addrs using List.reverseRecOn with
  | nil => cases hmem
  | append_singleton addrs addr' ih =>
      obtain ⟨hpre, -, hlast⟩ := List.pairwise_append.mp hapart
      rw [encryptedAt_append]
      rcases List.mem_append.mp hmem with hmem | hmem
      · have := hlast addr hmem addr' (List.mem_singleton_self _)
        rw [readBlock_writeBlock_of_apart _ _ (Or.symm this)]
        exact ih hpre hmem
      · obtain rfl := List.mem_singleton.mp hmem
        exact readBlock_writeBlock _ _ _

end memory

theorem Buffer.addrs_apart (buf : Buffer) : buf.addrs.Pairwise Apart := by
  refine List.pairwise_map.mpr (List.pairwise_lt_range.imp fun h => ?_)
  unfold Apart
  omega

namespace Board

/-! ### The invariant -/

/-- The state within a call that encrypts blocks of `memory` in place under `key`. -/
structure InPlace (p : Platform) (key : AesBlock) (memory : ℕ → BitVec 8) (b : Board) : Prop where
  keyReg : b.keyReg = key
  noKey : ∀ i ∈ b.program, ∀ key', i.action ≠ some (.writeKey key')
  plain : ∀ i ∈ b.readLog, i.data = readBlock memory i.origin.addr
  entering : ∀ i ∈ b.entering, i.data = readBlock memory i.origin.addr
  leaving : ∀ i ∈ b.leaving, i.data = imageAt p key memory i.origin.addr
  memory : b.memory = encryptedAt p key memory ((b.writeLog.map Prod.fst).map DmaBeat.addr)

section step
variable {p : Platform} {key : AesBlock} {memory : ℕ → BitVec 8} {b b' : Board}
  (hi : InPlace p key memory b)
include hi

theorem InPlace.dmaRead (hf : b.Flow)
    (hapart : ((b.reads.flatMap Request.beats).map DmaBeat.addr).Pairwise Apart)
    (hs : b.dmaRead p = some b') : InPlace p key memory b' := by
  obtain ⟨t, ht, hlt, -, rfl⟩ := dmaRead_iff.mp hs
  -- the beat comes after all that have been written
  have hnew : (b.readItem t).data = readBlock memory t.beat.addr := by
    show readBlock b.memory t.beat.addr = _
    rw [hi.memory]
    apply readBlock_encryptedAt_of_apart p key memory
    intro addr hmem
    rw [← hf.read, ht, restOf, Transfer.rest_eq_cons hlt, List.map_append] at hapart
    refine (List.pairwise_append.mp hapart).2.2 addr ?_ t.beat.addr List.mem_cons_self
    rw [hf.held, List.map_append]
    exact List.mem_append_left _ hmem
  refine ⟨hi.keyReg, hi.noKey, ?_, ?_, hi.leaving, hi.memory⟩
  · intro i hmem
    rcases List.mem_append.mp hmem with hmem | hmem
    · exact hi.plain i hmem
    · obtain rfl := List.mem_singleton.mp hmem
      exact hnew
  · intro i hmem
    rcases List.mem_append.mp hmem with hmem | hmem
    · exact hi.entering i hmem
    · obtain rfl := List.mem_singleton.mp hmem
      exact hnew

theorem InPlace.core (hs : b.core p = some b') : InPlace p key memory b' := by
  obtain ⟨item, rest, he, rfl⟩ := core_iff.mp hs
  refine ⟨hi.keyReg, hi.noKey, hi.plain, fun i hmem => ?_, fun i hmem => ?_, hi.memory⟩
  · exact hi.entering i (by rw [he]; exact List.mem_cons_of_mem _ hmem)
  · rcases List.mem_append.mp hmem with hmem | hmem
    · exact hi.leaving i hmem
    · obtain rfl := List.mem_singleton.mp hmem
      show p.encrypt b.keyReg item.data = _
      rw [hi.keyReg, hi.entering item (by rw [he]; exact List.mem_cons_self)]
      rfl

theorem InPlace.dmaWrite (hf : b.Flow) (hs : b.dmaWrite = some b') : InPlace p key memory b' := by
  obtain ⟨t, item, rest, ht, hl, -, rfl⟩ := dmaWrite_iff.mp hs
  have hdata : item.data = imageAt p key memory t.beat.addr := by
    rw [hi.leaving item (by rw [hl]; exact List.mem_cons_self), hf.origin_eq ht hl]
  refine ⟨hi.keyReg, hi.noKey, hi.plain, hi.entering, fun i hmem => ?_, ?_⟩
  · exact hi.leaving i (by rw [hl]; exact List.mem_cons_of_mem _ hmem)
  · show writeBlock b.memory t.beat.addr item.data = _
    rw [hdata, hi.memory, ← encryptedAt_append]
    simp [afterWrite]

theorem InPlace.processor (hs : b.processor p = some b') : InPlace p key memory b' := by
  obtain ⟨i, rest, hp, hexec⟩ := processor_iff.mp hs
  obtain ⟨hprogram, hmemory, hentering, hleaving, hread, hwrite, -⟩ := execute_frame hexec
  have hno := hi.noKey i (by rw [hp]; exact List.mem_cons_self)
  have hkey : b'.keyReg = b.keyReg := execute_keyReg (b := { b with program := rest }) hno hexec
  refine ⟨hkey.trans hi.keyReg, ?_, ?_, ?_, ?_, ?_⟩
  · intro j hj
    rw [hprogram] at hj
    exact hi.noKey j (by rw [hp]; exact List.mem_cons_of_mem _ hj)
  · rw [hread]
    exact hi.plain
  · rw [hentering]
    exact hi.entering
  · rw [hleaving]
    exact hi.leaving
  · rw [hmemory, hwrite]
    exact hi.memory

theorem InPlace.step {a : Actor} (hf : b.Flow)
    (hapart : ((b.reads.flatMap Request.beats).map DmaBeat.addr).Pairwise Apart)
    (hs : Board.step p a b = some b') : InPlace p key memory b' := by
  cases a with
  | processor => exact hi.processor hs
  | dmaRead => exact hi.dmaRead hf hapart hs
  | core => exact hi.core hs
  | dmaWrite => exact hi.dmaWrite hf hs

end step

end Board

/-! ### `aes_hw_encrypt_large` -/

namespace AesHw

section large
variable (p : Platform) (buf : Buffer) (key keyReg : AesBlock) (memory : ℕ → BitVec 8)

/-- The call `aes_hw_encrypt_large(key, inout, n_blocks)` and its return. -/
def largeProgram : List Instr :=
  instrs 0 (encryptLarge p.lengthWidth key buf.inout buf.nBlocks) ++ [⟨0, none⟩]

/-- The state in which it is called. -/
def largeStart : Board := Board.idle memory keyReg (largeProgram p buf key)

/-- What the program does after the key has been written. -/
def largeTransfers : List Instr :=
  instrs 0 (encryptLargeLoop p.lengthWidth buf.inout (16 * buf.nBlocks)) ++
    [⟨0, some (.whileBusy .deviceToDma)⟩, ⟨0, none⟩]

theorem largeProgram_eq :
    largeProgram p buf key = ⟨0, some (.writeKey key)⟩ :: largeTransfers p buf := by
  unfold largeProgram encryptLarge largeTransfers
  rw [buf.bytes_eq, List.cons_append, instrs_cons, instrs_append, List.cons_append,
    List.append_assoc]
  rfl

theorem leads_largeTransfers :
    Leads p (fun _ => True) .quiet (largeTransfers p buf) .quiet := by
  obtain ⟨k, howed, hloop⟩ :=
    leads_encryptLargeLoop p (fun _ => True) 0 buf.nBlocks buf.inout .quiet rfl
  have hwait : k.next ⟨0, some (.whileBusy .deviceToDma)⟩ = .quiet := if_pos howed
  exact hloop.append (.cons trivial (.cons (fun _ => hwait) ⟨trivial, hwait⟩))

theorem readAddrs_largeTransfers : readAddrs (largeTransfers p buf) = buf.addrs := by
  rw [largeTransfers, readAddrs_append, readAddrs_encryptLargeLoop]
  exact List.append_nil _

theorem noKey_largeTransfers {i : Instr} (hi : i ∈ largeTransfers p buf) (key' : AesBlock) :
    i.action ≠ some (.writeKey key') := by
  unfold largeTransfers at hi
  rcases List.mem_append.mp hi with hi | hi
  · obtain ⟨a, ha, rfl⟩ := List.mem_map.mp hi
    rcases mem_encryptLargeLoop _ _ ha with ⟨_, rfl⟩ | ⟨_, _, _, rfl⟩ <;> simp
  · simp only [List.mem_cons, List.not_mem_nil, or_false] at hi
    rcases hi with rfl | rfl <;> simp

variable {p buf key keyReg memory} {b : Board}

theorem sound_large (hreach : Board.Reaches p (largeStart p buf key keyReg memory) b) :
    ∃ k, Board.Sound p (fun _ => True) (readsOf (largeProgram p buf key)) k b.program b := by
  refine hreach.invariant
    (P := fun b => ∃ k, Board.Sound p (fun _ => True) (readsOf (largeProgram p buf key)) k
      b.program b)
    (fun _ _ _ hstep hP => Board.sound_step hP hstep) ⟨.quiet, Board.sound_idle _ _ _ ?_ ?_⟩
  · rw [largeProgram_eq]
    exact ⟨trivial, (leads_largeTransfers p buf).safe⟩
  · unfold largeProgram
    rw [ends_instrs]
    exact List.pairwise_singleton _ _

/-- The beats of the whole call are at the blocks of the buffer. -/
theorem addrs_large : ((readsOf (largeProgram p buf key)).flatMap Request.beats).map DmaBeat.addr =
    buf.addrs := by
  rw [← readAddrs_largeTransfers p buf, largeProgram_eq]
  exact readAddrs_cons_none rfl _

theorem apart_reads {k : Known} (hs : Board.Sound p (fun _ => True)
    (readsOf (largeProgram p buf key)) k b.program b) :
    ((b.reads.flatMap Request.beats).map DmaBeat.addr).Pairwise Apart := by
  refine List.Pairwise.sublist ?_ buf.addrs_apart
  rw [← @addrs_large p buf key, ← hs.reads, List.flatMap_append, List.map_append]
  exact List.sublist_append_left _ _

/-- From the key write on, the memory is the original one with some blocks encrypted. -/
theorem inPlace_large (hreach : Board.Reaches p (largeStart p buf key keyReg memory) b) :
    b = largeStart p buf key keyReg memory ∨ Board.InPlace p key memory b := by
  rcases Relation.ReflTransGen.cases_head hreach with rfl | ⟨b₁, ⟨a, hfirst⟩, hrest⟩
  · exact Or.inl rfl
  · right
    have hb₁ : b₁ = Board.idle memory key (largeTransfers p buf) := by
      cases a with
      | processor =>
          have hfirst : (largeStart p buf key keyReg memory).processor p = some b₁ := hfirst
          obtain ⟨i, rest, hp, hexec⟩ := Board.processor_iff.mp hfirst
          obtain ⟨rfl, rfl⟩ := List.cons.inj (hp.symm.trans (largeProgram_eq p buf key))
          exact (Option.some.inj hexec).symm
      | dmaRead => exact absurd hfirst (Option.some_ne_none _).symm
      | core => exact absurd hfirst (Option.some_ne_none _).symm
      | dmaWrite => exact absurd hfirst (Option.some_ne_none _).symm
    have hsound₁ := sound_large (Relation.ReflTransGen.single ⟨a, hfirst⟩)
    have hinPlace₁ : Board.InPlace p key memory b₁ := by
      rw [hb₁]
      refine ⟨rfl, fun i hi key' => noKey_largeTransfers p buf hi key', ?_, ?_, ?_, rfl⟩ <;>
        exact fun i hi => (List.not_mem_nil hi).elim
    have hrest : Board.Reaches p b₁ b := hrest
    refine (hrest.invariant (P := fun b => (∃ k, Board.Sound p (fun _ => True)
      (readsOf (largeProgram p buf key)) k b.program b) ∧ Board.InPlace p key memory b) ?_
      ⟨hsound₁, hinPlace₁⟩).2
    rintro a b b' hstep ⟨hsound, hinPlace⟩
    refine ⟨Board.sound_step hsound hstep, ?_⟩
    obtain ⟨k, hs⟩ := hsound
    exact hinPlace.step hs.flow (apart_reads hs) hstep

/-- When the call has returned, all blocks of the buffer have been written. -/
theorem written_large (hreach : Board.Reaches p (largeStart p buf key keyReg memory) b)
    (hret : 0 ∈ b.returned) : (b.writeLog.map Prod.fst).map DmaBeat.addr = buf.addrs := by
  obtain ⟨k, hs⟩ := sound_large hreach
  have hsettled := (hs.returned 0 hret).2 trivial
  have hcall : ∀ i ∈ largeProgram p buf key, i.call = 0 := by
    intro i hi
    rcases List.mem_append.mp hi with hi | hi
    · obtain ⟨a, -, rfl⟩ := List.mem_map.mp hi
      rfl
    · obtain rfl := List.mem_singleton.mp hi
      rfl
  have hwritten : Board.beatsOf 0 (b.writeLog.map Prod.fst) = b.writeLog.map Prod.fst := by
    apply List.filter_eq_self.mpr
    intro beat hbeat
    obtain ⟨i, hi, hi'⟩ := call_of_mem_beats (hs.writeLog_prefix.subset hbeat)
    rw [← hi', hcall i hi, decide_eq_true rfl]
  unfold Board.Settled at hsettled
  rw [hwritten, Board.beatsOf_same hcall] at hsettled
  rw [hsettled, addrs_large]

theorem returned_large (hreach : Board.Reaches p (largeStart p buf key keyReg memory) b) :
    b.returned ++ b.program.flatMap Instr.returns = [0] := by
  refine hreach.invariant (P := fun b => b.returned ++ b.program.flatMap Instr.returns = [0])
    (fun _ _ _ hstep hP => (Board.returned_step hstep).trans hP) ?_
  have hprogram : (largeStart p buf key keyReg memory).program = largeProgram p buf key := rfl
  have hreturned : (largeStart p buf key keyReg memory).returned = [] := rfl
  rw [hprogram, hreturned, largeProgram, List.flatMap_append, returns_instrs]
  rfl

/-- **The overlapped transfers of `aes_hw_encrypt_large` are race-free**, in every interleaving of
the processor, the two channels and the core: no transfer is refused, every block is read before
it is overwritten and written in the beat in which it was read, a transfer to memory ends with
exactly the blocks of its own range, and when the function returns the buffer is encrypted block by
block and nothing else has changed.  The function can always be brought to its return. -/
theorem encryptLarge_raceFree (p : Platform) (buf : Buffer) (key keyReg : AesBlock)
    (memory : ℕ → BitVec 8) (b : Board)
    (hreach : Board.Reaches p (largeStart p buf key keyReg memory) b) :
    b.refused = [] ∧
      (∀ i ∈ b.readLog, i.data = readBlock memory i.origin.addr) ∧
      (∀ e ∈ b.writeLog, e.2.origin = e.1) ∧
      (b.deviceToDma = none → b.writeLog.map Prod.fst = b.writes.flatMap Request.beats) ∧
      (0 ∈ b.returned →
        (∀ addr ∈ buf.addrs, readBlock b.memory addr = p.encrypt key (readBlock memory addr)) ∧
        ∀ a, a < buf.inout ∨ buf.inout + 16 * buf.nBlocks ≤ a → b.memory a = memory a) ∧
      ∃ b', Board.Reaches p b b' ∧ 0 ∈ b'.returned := by
  obtain ⟨k, hs⟩ := sound_large hreach
  refine ⟨hs.refused, ?_, hs.flow.own, fun hidle => ?_, fun hret => ?_, ?_⟩
  · rcases inPlace_large hreach with rfl | hi
    · exact fun i hmem => by cases hmem
    · exact hi.plain
  · have hwrite := hs.flow.write
    rwa [hidle, restOf, List.append_nil] at hwrite
  · have hi : Board.InPlace p key memory b := by
      rcases inPlace_large hreach with rfl | hi
      · cases hret
      · exact hi
    rw [hi.memory, written_large hreach hret]
    constructor
    · intro addr hmem
      exact readBlock_encryptedAt p key memory buf.addrs_apart hmem
    · intro a ha
      apply encryptedAt_of_outside p key memory
      intro addr hmem
      obtain ⟨i, hi, rfl⟩ := List.mem_map.mp hmem
      have := List.mem_range.mp hi
      omega
  · obtain ⟨b', hreach', hprogram, -⟩ := hs.advances (List.append_nil b.program).symm
    have hreturned := returned_large (hreach.trans hreach')
    rw [hprogram, List.flatMap_nil, List.append_nil] at hreturned
    exact ⟨b', hreach', by rw [hreturned]; exact List.mem_singleton_self 0⟩

end large

/-- A buffer of 32 MB, which takes three transfers. -/
def threeChunks : Buffer := ⟨0x100000, 0x1fffff, by decide, by decide⟩

example : (readsOf (largeProgram .configured threeChunks 1)).map Request.length =
    [0xfffff0, 0xfffff0, 16] := by
  rw [largeProgram_eq, largeTransfers]
  simp [encryptLargeLoop, transferLength, maxDmaSize, Platform.configured, sgLengthWidth,
    threeChunks, instrs, readsOf, Instr.read?, List.filterMap_cons]

theorem encryptLarge_raceFree_threeChunks :
    let memory : ℕ → BitVec 8 := fun a => BitVec.ofNat 8 a
    ∃ b, Board.Reaches .configured (largeStart .configured threeChunks 1 0 memory) b ∧
      b.refused = [] ∧ ∀ addr ∈ threeChunks.addrs, readBlock b.memory addr =
        blockOf (Fips197.cipher (stateOf 1) (stateOf fun i => BitVec.ofNat 8 (addr + i))) := by
  intro memory
  obtain ⟨-, -, -, -, -, b, hreach, hret⟩ :=
    encryptLarge_raceFree .configured threeChunks 1 0 memory _ (Interleaving.Reaches.refl _)
  obtain ⟨hrefused, -, -, -, hdone, -⟩ :=
    encryptLarge_raceFree .configured threeChunks 1 0 memory b hreach
  exact ⟨b, hreach, hrefused, (hdone hret).1⟩

end AesHw

end AesAccelerator
