import AesAccelerator.CallSequences

/-! # Does the driver drop a request?

`NeverDrops` says of a sequence of calls that, whatever the engine and the core do in the meantime,
no transfer is refused, and a call that waits returns only when its whole buffer has been read and
written.

`aes_hw_encrypt_nonblocking` returns with both channels busy, and only `aes_hw_encrypt_large`
waits before its first transfer.  So a nonblocking call directly before another function loses the
transfers of the next one, and nothing else does (`neverDrops_iff`). -/

namespace AesAccelerator

/-- The whole buffer has been read and written for the call, every block in the same beat. -/
structure Board.CarriedOut (b : Board) (call : ℕ) (buf : Buffer) : Prop where
  read : (beatsOf call (b.readLog.map Item.origin)).map DmaBeat.addr = buf.addrs
  written : (beatsOf call (b.writeLog.map Prod.fst)).map DmaBeat.addr = buf.addrs
  own : ∀ e ∈ b.writeLog, e.1.request.call = call → e.2.origin = e.1

/-- In every interleaving no transfer is refused, and a blocking call that has returned has been
carried out. -/
def NeverDrops {p : Platform} (calls : List (Call p)) : Prop :=
  ∀ (memory : ℕ → BitVec 8) (keyReg : AesBlock) (dummy : ℕ) (b : Board),
    Board.Reaches p (driverStart memory keyReg dummy calls) b →
      b.refused = [] ∧
        ∀ (n : ℕ) (c : Call p), calls[n]? = some c → c.function.isBlocking = true →
          n + 1 ∈ b.returned → b.CarriedOut (n + 1) c.buffer

section neverDrops
variable {p : Platform} {calls : List (Call p)}

/-! ### No request is lost -/

/-- A settled call of a sound program has been carried out. -/
theorem Board.Sound.carriedOut {blocking : ℕ → Prop} {all : List Request} {k : Known}
    {todo : List Instr} {b : Board} (hs : Board.Sound p blocking all k todo b) {call : ℕ}
    {buf : Buffer} (hset : b.Settled all call)
    (haddrs : (Board.beatsOf call (all.flatMap Request.beats)).map DmaBeat.addr = buf.addrs) :
    b.CarriedOut call buf where
  written := by rw [hset, haddrs]
  own e he _ := hs.flow.own e he
  read := by
    -- what has been read is between what has been written and everything
    have h₁ : b.writeLog.map Prod.fst <+: b.readLog.map Item.origin := by
      rw [hs.flow.held]
      exact List.prefix_append _ _
    have h₂ : b.readLog.map Item.origin <+: all.flatMap Request.beats := by
      rw [← hs.reads, List.flatMap_append, ← hs.flow.read, List.append_assoc]
      exact List.prefix_append _ _
    have h₁' : Board.beatsOf call (all.flatMap Request.beats) <+:
        Board.beatsOf call (b.readLog.map Item.origin) := by
      rw [← hset]
      exact h₁.filter _
    have heq : Board.beatsOf call (b.readLog.map Item.origin) =
        Board.beatsOf call (all.flatMap Request.beats) :=
      (h₂.filter _).eq_of_length_le h₁'.length_le
    rw [heq, haddrs]

theorem neverDrops_of_waitsNext (hchain : WaitsNext calls) : NeverDrops calls := by
  intro memory keyReg dummy b hreach
  let program := initProgram dummy ++ programOf 1 calls
  obtain ⟨k, hs⟩ := hreach.invariant
    (P := fun b => ∃ k, Board.Sound p (blockingCalls calls) (readsOf program) k b.program b)
    (fun _ _ _ hstep hP => Board.sound_step hP hstep)
    ⟨.quiet, Board.sound_idle memory keyReg _ (safe_driver dummy hchain) (ends_driver dummy calls)⟩
  refine ⟨hs.refused, fun m c hc hblocking hret => ?_⟩
  rw [Nat.add_comm] at hret ⊢
  have hset := (hs.returned (1 + m) hret).2 ⟨m, c, rfl, hc, hblocking⟩
  exact hs.carriedOut hset (addrs_driver dummy hc)

/-! ### A request is lost -/

/-- An action that the processor does at once, whatever the channels do. -/
def Instr.Passes (i : Instr) : Prop :=
  match i.action with
  | some (.whileBusy _) | some .reset => False
  | _ => True

/-- The action that asks for `r` on `DMA_TO_DEVICE`. -/
def Request.read (r : Request) : Instr :=
  ⟨r.call, some (.simpleTransfer r.addr r.length .dmaToDevice)⟩

/-- `DMA_TO_DEVICE` is busy, or has already refused a transfer. -/
def Board.Taken (b : Board) : Prop := b.dmaToDevice.isSome = true ∨ b.refused ≠ []

section passing
variable {b : Board}

theorem Board.taken_simpleTransfer (r : Request) :
    (b.simpleTransfer p r .dmaToDevice).Taken := by
  unfold simpleTransfer
  split
  · exact Or.inr (List.append_ne_nil_of_right_ne_nil _ (List.cons_ne_nil _ _))
  · exact Or.inl rfl

/-- A second transfer on the channel is refused. -/
theorem Board.Taken.refused (h : b.Taken) (r : Request) :
    (b.simpleTransfer p r .dmaToDevice).refused ≠ [] := by
  unfold simpleTransfer
  split
  · exact List.append_ne_nil_of_right_ne_nil _ (List.cons_ne_nil _ _)
  · rename_i hidle
    rcases h with h | h
    · simp [busy, h] at hidle
    · exact h

theorem Board.Taken.simpleTransfer (h : b.Taken) (r : Request) (channel : Channel) :
    (b.simpleTransfer p r channel).Taken := by
  cases channel with
  | dmaToDevice => exact taken_simpleTransfer r
  | deviceToDma =>
      unfold Board.simpleTransfer
      split
      · exact Or.inr (List.append_ne_nil_of_right_ne_nil _ (List.cons_ne_nil _ _))
      · exact h

theorem Board.Taken.execute {i : Instr} (hpass : i.Passes) :
    ∃ b', b.execute p i = some b' ∧ (b.Taken → b'.Taken) := by
  obtain ⟨call, action⟩ := i
  cases action with
  | none => exact ⟨_, rfl, id⟩
  | some action =>
      cases action with
      | writeKey | dCacheFlushRange | dCacheInvalidateRange => exact ⟨_, rfl, id⟩
      | reset | whileBusy => exact hpass.elim
      | simpleTransfer => exact ⟨_, rfl, fun h => h.simpleTransfer _ _⟩

/-- The processor gets past such actions while neither engine nor core does a step. -/
theorem Board.reaches_passing {rest : List Instr} : ∀ {skip : List Instr} {b : Board},
    b.program = skip ++ rest → (∀ i ∈ skip, i.Passes) →
    ∃ b', Reaches p b b' ∧ b'.program = rest ∧ (b.Taken → b'.Taken)
  | [], b, hp, _ => ⟨b, Interleaving.Reaches.refl b, hp, id⟩
  | i :: skip, b, hp, hpass => by
      obtain ⟨b₁, hexec, htaken₁⟩ := Taken.execute (p := p)
        (b := { b with program := skip ++ rest }) (hpass i List.mem_cons_self)
      obtain ⟨b₂, hreach, hp₂, htaken₂⟩ := reaches_passing (execute_frame hexec).1
        fun j hj => hpass j (List.mem_cons_of_mem i hj)
      have hstep : step p .processor b = some b₁ := processor_iff.mpr ⟨i, _, hp, hexec⟩
      exact ⟨b₂, hreach.head hstep, hp₂, fun h => htaken₂ (htaken₁ h)⟩

theorem Board.reaches_read {rest : List Instr} {r : Request} (hp : b.program = r.read :: rest) :
    ∃ b', Reaches p b b' ∧ b'.program = rest ∧ b'.Taken ∧ (b.Taken → b'.refused ≠ []) := by
  have hexec : { b with program := rest }.execute p r.read =
      some ({ b with program := rest }.simpleTransfer p r .dmaToDevice) := rfl
  have hstep : step p .processor b = some _ := processor_iff.mpr ⟨_, rest, hp, hexec⟩
  exact ⟨_, (Interleaving.Reaches.refl _).head hstep, (execute_frame hexec).1,
    taken_simpleTransfer r, fun h => Taken.refused (b := { b with program := rest }) h r⟩

end passing

/-- The functions that are not for buffers of any size wait for nothing before their first
transfer. -/
theorem Call.instrs_small (c : Call p) (hsmall : c.function.isLarge = false) (n : ℕ) :
    ∃ skip r rest, instrs n c.actions = skip ++ Request.read r :: rest ∧ (∀ i ∈ skip, i.Passes) ∧
      (c.function = .encryptNonblocking → ∀ i ∈ rest, i.Passes) := by
  obtain ⟨function, key, buf, small⟩ := c
  let r : Request := ⟨n, buf.inout, 16 * buf.nBlocks⟩
  let write : Instr := ⟨n, some (.simpleTransfer buf.inout r.length .deviceToDma)⟩
  let key : Instr := ⟨n, some (.writeKey key)⟩
  let flush : Instr := ⟨n, some (.dCacheFlushRange buf.inout r.length)⟩
  let wait : Instr := ⟨n, some (.whileBusy .deviceToDma)⟩
  let invalidate : Instr := ⟨n, some (.dCacheInvalidateRange buf.inout r.length)⟩
  unfold Call.actions AesHw.encrypt AesHw.encryptNonblocking AesHw.encryptFlushing AesHw.encrypt
  rw [buf.bytes_eq]
  cases function with
  | encryptLarge | encryptFlushingLarge => cases hsmall
  | encrypt =>
      refine ⟨[key], r, [write, wait], rfl, ?_, fun h => by cases h⟩
      simp [key, Instr.Passes]
  | encryptNonblocking =>
      refine ⟨[key], r, [write], rfl, ?_, fun _ => ?_⟩ <;> simp [key, write, Instr.Passes]
  | encryptFlushing =>
      refine ⟨[flush, key], r, [write, wait, invalidate], rfl, ?_, fun h => by cases h⟩
      simp [flush, key, Instr.Passes]

/-- After a nonblocking call, a call that does not wait comes to its first transfer at once. -/
theorem programOf_unwaited {c d : Call p} (hnon : c.function = .encryptNonblocking)
    (hsmall : d.function.isLarge = false) (post : List (Call p)) (n : ℕ) :
    ∃ skip r skip' r' rest, programOf n (c :: d :: post) =
        skip ++ Request.read r :: (skip' ++ Request.read r' :: rest) ∧
      (∀ i ∈ skip, i.Passes) ∧ ∀ i ∈ skip', i.Passes := by
  obtain ⟨skip, r, rest, hc, hskip, hrest⟩ := c.instrs_small (by rw [hnon]; rfl) n
  obtain ⟨skip', r', rest', hd, hskip', -⟩ := d.instrs_small hsmall (n + 1)
  refine ⟨skip, r, rest ++ ⟨n, none⟩ :: skip', r', rest' ++ ⟨n + 1, none⟩ :: programOf (n + 2) post,
    ?_, hskip, fun i hi => ?_⟩
  · rw [programOf, programOf, hc, hd]
    simp
  · rcases List.mem_append.mp hi with hi | hi
    · exact hrest hnon i hi
    · rcases List.mem_cons.mp hi with rfl | hi
      · exact trivial
      · exact hskip' i hi

/-- In front of the first call that does not wait for the one before it, everything is in order. -/
theorem exists_unwaited (h : ¬ WaitsNext calls) :
    ∃ pre c d post, calls = pre ++ c :: d :: post ∧ WaitsNext pre ∧
      c.function = .encryptNonblocking ∧ d.function.isLarge = false := by
  induction calls using List.reverseRecOn with
  | nil => exact absurd List.isChain_nil h
  | append_singleton calls d ih =>
      by_cases hchain : WaitsNext calls
      · unfold WaitsNext at h hchain
        rw [List.isChain_append] at h
        push Not at h
        obtain ⟨c, hc, d', hd', hnon, hsmall⟩ := h hchain (List.isChain_singleton d)
        obtain rfl := Option.some.inj hd'
        obtain ⟨pre, rfl⟩ := List.getLast?_eq_some_iff.mp hc
        exact ⟨pre, c, d, [], by simp, (List.isChain_append.mp hchain).1, hnon,
          Bool.eq_false_iff.mpr hsmall⟩
      · obtain ⟨pre, c, d', post, rfl, hrest⟩ := ih hchain
        exact ⟨pre, c, d', post ++ [d], by simp, hrest⟩

theorem waitsNext_of_neverDrops (hnever : NeverDrops calls) : WaitsNext calls := by
  by_contra hchain
  obtain ⟨pre, c, d, post, rfl, hpre, hnon, hsmall⟩ := exists_unwaited hchain
  obtain ⟨skip, r, skip', r', rest, hprogram, hskip, hskip'⟩ :=
    programOf_unwaited hnon hsmall post (1 + pre.length)
  let start := driverStart (fun _ => 0) 0 0 (pre ++ c :: d :: post)
  -- everything before the nonblocking call is done, and then the processor goes on alone
  have hstart : start.program = (initProgram 0 ++ programOf 1 pre) ++
      (skip ++ r.read :: (skip' ++ r'.read :: rest)) := by
    show initProgram 0 ++ programOf 1 (pre ++ c :: d :: post) = _
    rw [programOf_append, hprogram, List.append_assoc]
  have hsound := Board.sound_idle (fun _ => 0) 0 start.program (safe_driver 0 hpre)
    (ends_driver 0 pre)
  obtain ⟨b₁, hreach₁, hp₁, -⟩ := hsound.advances hstart
  obtain ⟨b₂, hreach₂, hp₂, -⟩ := Board.reaches_passing (p := p) hp₁ hskip
  obtain ⟨b₃, hreach₃, hp₃, htaken₃, -⟩ := Board.reaches_read (p := p) hp₂
  obtain ⟨b₄, hreach₄, hp₄, htaken₄⟩ := Board.reaches_passing (p := p) hp₃ hskip'
  obtain ⟨b₅, hreach₅, -, -, hrefused⟩ := Board.reaches_read (p := p) hp₄
  have hreach : Board.Reaches p start b₅ :=
    hreach₁.trans (hreach₂.trans (hreach₃.trans (hreach₄.trans hreach₅)))
  exact hrefused (htaken₄ htaken₃) (hnever _ _ _ b₅ hreach).1

/-- **A sequence of calls never drops a request** exactly when each nonblocking call in it is
directly followed by a function for buffers of any size, if by any. -/
theorem neverDrops_iff (p : Platform) (calls : List (Call p)) :
    NeverDrops calls ↔ calls.IsChain fun c d =>
      c.function = .encryptNonblocking → d.function.isLarge = true :=
  ⟨waitsNext_of_neverDrops, neverDrops_of_waitsNext⟩

end neverDrops

/-! ### Two calls that lose a request -/

def nonblockingCall : Call .configured :=
  ⟨.encryptNonblocking, 1, ⟨0x100000, 2, by decide, by decide⟩, fun _ => by decide⟩

def encryptCall : Call .configured :=
  ⟨.encrypt, 2, ⟨0x200000, 3, by decide, by decide⟩, fun _ => by decide⟩

/-- The engine begins with the first call only when the second one waits. -/
def lateEngine : List Actor :=
  List.replicate 5 .processor ++ [.dmaRead, .core, .dmaWrite] ++
    List.replicate 9 .processor ++ [.dmaRead, .core, .dmaWrite, .dmaRead, .core, .dmaWrite] ++
    List.replicate 2 .processor

/-- Both transfers of the second call are refused, and it returns without a block of its buffer
having been read or written. -/
theorem encryptCall_dropped :
    ((Interleaving.runs (Board.step .configured) lateEngine
      (driverStart (fun _ => 0) 0 0 [nonblockingCall, encryptCall])).map fun b =>
        (b.refused, b.returned, b.readLog.map Item.origin, b.writeLog.map Prod.fst)) =
      some ([(⟨2, 0x200000, 48⟩, .dmaToDevice), (⟨2, 0x200000, 48⟩, .deviceToDma)], [0, 1, 2],
        [⟨⟨0, 0, 16⟩, 0⟩, ⟨⟨1, 0x100000, 32⟩, 0⟩, ⟨⟨1, 0x100000, 32⟩, 1⟩],
        [⟨⟨0, 0, 16⟩, 0⟩, ⟨⟨1, 0x100000, 32⟩, 0⟩, ⟨⟨1, 0x100000, 32⟩, 1⟩]) := by
  decide +kernel

theorem nonblockingCall_encryptCall_drops : ¬ NeverDrops [nonblockingCall, encryptCall] := by
  intro hnever
  obtain ⟨b, hrun, hb⟩ := Option.map_eq_some_iff.mp encryptCall_dropped
  have hrefused := (hnever _ _ _ b (Interleaving.reaches_of_runs hrun)).1
  rw [hrefused] at hb
  cases hb

end AesAccelerator
