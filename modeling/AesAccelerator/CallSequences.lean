import AesAccelerator.Calls
import Mathlib.Data.List.Chain

/-! # Sequences of driver calls

After `aes_hw_init` the driver functions are called one after the other, and their actions are one
program.  The program is safe when every nonblocking call is followed by a function that waits
before its first transfer (`safe_driver`); the transfers of a call are those of its own buffer
(`addrs_driver`). -/

namespace AesAccelerator

inductive DriverFunction where
  | encrypt
  | encryptLarge
  | encryptNonblocking
  | encryptFlushing
  | encryptFlushingLarge
deriving DecidableEq, Repr

namespace DriverFunction

/-- For buffers of any size. -/
def isLarge : DriverFunction → Bool
  | encryptLarge | encryptFlushingLarge => true
  | encrypt | encryptNonblocking | encryptFlushing => false

/-- Returns only when the buffer is encrypted. -/
def isBlocking (f : DriverFunction) : Bool := f != encryptNonblocking

end DriverFunction

/-- A call with a buffer of the size that `aes_hw.h` asks for. -/
structure Call (p : Platform) where
  function : DriverFunction
  key : AesBlock
  buffer : Buffer
  small : function.isLarge = false →
    (16 * buffer.nBlocks : ℤ) ≤ AesHw.maxDmaSize p.lengthWidth

namespace Call

variable {p : Platform}

def actions (c : Call p) : List Action :=
  match c.function with
  | .encrypt => AesHw.encrypt c.key c.buffer.inout c.buffer.nBlocks
  | .encryptLarge => AesHw.encryptLarge p.lengthWidth c.key c.buffer.inout c.buffer.nBlocks
  | .encryptNonblocking => AesHw.encryptNonblocking c.key c.buffer.inout c.buffer.nBlocks
  | .encryptFlushing => AesHw.encryptFlushing c.key c.buffer.inout c.buffer.nBlocks
  | .encryptFlushingLarge =>
      AesHw.encryptFlushingLarge p.lengthWidth c.key c.buffer.inout c.buffer.nBlocks

end Call

/-- The calls with the numbers `first, first + 1, …`. -/
def programOf {p : Platform} : (first : ℕ) → List (Call p) → List Instr
  | _, [] => []
  | n, c :: calls => instrs n c.actions ++ ⟨n, none⟩ :: programOf (n + 1) calls

/-- `aes_hw_init` is the call with the number `0`. -/
def initProgram (dummy : ℕ) : List Instr := instrs 0 (AesHw.init dummy) ++ [⟨0, none⟩]

/-- The state before `aes_hw_init`, which is followed by `calls`. -/
def driverStart {p : Platform} (memory : ℕ → BitVec 8) (keyReg : AesBlock) (dummy : ℕ)
    (calls : List (Call p)) : Board :=
  Board.idle memory keyReg (initProgram dummy ++ programOf 1 calls)

/-! ### What each function is safe from -/

section functions
variable {p : Platform} (blocking : ℕ → Prop) (n : ℕ) (key : AesBlock) (buf : Buffer) {k k' : Known}

theorem leads_encrypt (hfits : Known.Fits p (16 * buf.nBlocks)) :
    Leads p blocking .quiet (instrs n (AesHw.encrypt key buf.inout buf.nBlocks)) .quiet := by
  unfold AesHw.encrypt
  rw [buf.bytes_eq]
  exact .cons trivial <| .cons ⟨rfl, rfl, hfits⟩ <| .cons ⟨rfl, rfl, hfits⟩ <| .cons trivial <|
    leads_nil _

theorem leads_encryptNonblocking (hfits : Known.Fits p (16 * buf.nBlocks)) :
    Leads p blocking .quiet (instrs n (AesHw.encryptNonblocking key buf.inout buf.nBlocks))
      ⟨false, false, none⟩ := by
  unfold AesHw.encryptNonblocking
  rw [buf.bytes_eq]
  exact .cons trivial <| .cons ⟨rfl, rfl, hfits⟩ <| .cons ⟨rfl, rfl, hfits⟩ <| leads_nil _

theorem leads_encryptLarge (howed : k.owed = none) :
    Leads p blocking k (instrs n (AesHw.encryptLarge p.lengthWidth key buf.inout buf.nBlocks))
      .quiet := by
  obtain ⟨k', howed', hloop⟩ :=
    leads_encryptLargeLoop p blocking n buf.nBlocks buf.inout k howed
  unfold AesHw.encryptLarge
  rw [buf.bytes_eq, List.cons_append, instrs_cons, instrs_append]
  exact .cons trivial (hloop.append (.cons trivial ⟨trivial, if_pos howed'⟩))

/-- The cache operations around a function change nothing. -/
theorem leads_flushing {actions : List Action} (h : Leads p blocking k (instrs n actions) k')
    (addr : ℕ) (length : ℤ) :
    Leads p blocking k (instrs n (.dCacheFlushRange addr length :: actions ++
      [.dCacheInvalidateRange addr length])) k' := by
  rw [List.cons_append, instrs_cons, instrs_append]
  exact .cons trivial (h.append (.cons trivial (leads_nil _)))

/-- A call is safe when nothing is owed and, but for the large ones, both channels are known to
be idle; a blocking one leaves them so. -/
theorem leads_call (c : Call p) (howed : k.owed = none)
    (hquiet : c.function.isLarge = false → k = .quiet) :
    ∃ k', Leads p blocking k (instrs n c.actions) k' ∧ k'.owed = none ∧
      (c.function.isBlocking = true → k' = .quiet) := by
  obtain ⟨function, key, buf, small⟩ := c
  have hfits : DriverFunction.isLarge function = false → Known.Fits p (16 * buf.nBlocks) :=
    fun h => fits_of_blocks p buf.nonempty (small h)
  cases function with
  | encrypt =>
      obtain rfl := hquiet rfl
      exact ⟨.quiet, leads_encrypt blocking n key buf (hfits rfl), rfl, fun _ => rfl⟩
  | encryptLarge =>
      exact ⟨.quiet, leads_encryptLarge blocking n key buf howed, rfl, fun _ => rfl⟩
  | encryptNonblocking =>
      obtain rfl := hquiet rfl
      exact ⟨_, leads_encryptNonblocking blocking n key buf (hfits rfl), rfl, fun h => by cases h⟩
  | encryptFlushing =>
      obtain rfl := hquiet rfl
      exact ⟨.quiet, leads_flushing blocking n (leads_encrypt blocking n key buf (hfits rfl)) _ _,
        rfl, fun _ => rfl⟩
  | encryptFlushingLarge =>
      exact ⟨.quiet, leads_flushing blocking n (leads_encryptLarge blocking n key buf howed) _ _,
        rfl, fun _ => rfl⟩

theorem readAddrs_flushing (actions : List Action) (addr : ℕ) (length : ℤ) :
    readAddrs (instrs n (.dCacheFlushRange addr length :: actions ++
      [.dCacheInvalidateRange addr length])) = readAddrs (instrs n actions) := by
  rw [List.cons_append, instrs_cons, instrs_append, readAddrs_cons_none rfl, readAddrs_append]
  exact List.append_nil _

/-- A call reads the blocks of its buffer. -/
theorem readAddrs_call (c : Call p) : readAddrs (instrs n c.actions) = c.buffer.addrs := by
  obtain ⟨function, key, buf, small⟩ := c
  have hpair : ∀ rest, readAddrs rest = [] → readAddrs (⟨n, some (.writeKey key)⟩ ::
      ⟨n, some (.simpleTransfer buf.inout (16 * buf.nBlocks) .dmaToDevice)⟩ :: rest) =
        buf.addrs := by
    intro rest hrest
    rw [readAddrs_cons_none rfl, readAddrs_transfer n buf.inout rfl, hrest, List.append_nil]
    rfl
  have hencrypt : readAddrs (instrs n (AesHw.encrypt key buf.inout buf.nBlocks)) = buf.addrs := by
    unfold AesHw.encrypt
    rw [buf.bytes_eq]
    exact hpair _ rfl
  have hlarge : readAddrs (instrs n (AesHw.encryptLarge p.lengthWidth key buf.inout
      buf.nBlocks)) = buf.addrs := by
    unfold AesHw.encryptLarge
    rw [buf.bytes_eq, List.cons_append, instrs_cons, instrs_append, readAddrs_cons_none rfl,
      readAddrs_append, readAddrs_encryptLargeLoop]
    exact List.append_nil _
  cases function with
  | encrypt => exact hencrypt
  | encryptLarge => exact hlarge
  | encryptNonblocking =>
      show readAddrs (instrs n (AesHw.encryptNonblocking key buf.inout buf.nBlocks)) = _
      unfold AesHw.encryptNonblocking
      rw [buf.bytes_eq]
      exact hpair _ rfl
  | encryptFlushing => exact (readAddrs_flushing n _ _ _).trans hencrypt
  | encryptFlushingLarge => exact (readAddrs_flushing n _ _ _).trans hlarge

end functions

/-! ### Sequences of calls -/

/-- A nonblocking call is directly followed by large ones only. -/
def WaitsNext {p : Platform} (calls : List (Call p)) : Prop :=
  calls.IsChain fun c d => c.function = .encryptNonblocking → d.function.isLarge = true

section sequences
variable {p : Platform}

theorem isBlocking_of_ne {f : DriverFunction} (h : f ≠ .encryptNonblocking) :
    f.isBlocking = true := by
  cases f <;> first | rfl | exact absurd rfl h

theorem programOf_append (first second : List (Call p)) : ∀ n,
    programOf n (first ++ second) = programOf n first ++ programOf (n + first.length) second := by
  induction first with
  | nil => intro n; rfl
  | cons c first ih =>
      intro n
      rw [List.cons_append, programOf, programOf, ih, List.length_cons, List.append_assoc,
        List.cons_append, Nat.add_right_comm, Nat.add_assoc]

theorem le_call_of_mem {i : Instr} : ∀ {n : ℕ} {calls : List (Call p)}, i ∈ programOf n calls →
    n ≤ i.call
  | _, [], h => by cases h
  | n, c :: calls, h => by
      rw [programOf, List.mem_append, List.mem_cons] at h
      rcases h with h | rfl | h
      · obtain ⟨a, -, rfl⟩ := List.mem_map.mp h
        exact le_rfl
      · exact le_rfl
      · exact (Nat.le_succ n).trans (le_call_of_mem h)

theorem ends_programOf : ∀ (n : ℕ) (calls : List (Call p)), Ends (programOf n calls)
  | _, [] => List.Pairwise.nil
  | n, c :: calls => by
      rw [programOf, ends_instrs]
      refine List.pairwise_cons.mpr ⟨fun j hj _ => ?_, ends_programOf (n + 1) calls⟩
      have : n + 1 ≤ j.call := le_call_of_mem hj
      exact Nat.ne_of_gt this

/-- Calls of which none is refused, from a knowledge that suits the first of them. -/
theorem safe_programOf {blocking : ℕ → Prop} : ∀ {calls : List (Call p)} {n : ℕ} {k : Known},
    WaitsNext calls → k.owed = none →
    (∀ c ∈ calls.head?, c.function.isLarge = false → k = .quiet) →
    (∀ (m : ℕ) (c : Call p), calls[m]? = some c → blocking (n + m) → c.function.isBlocking = true) →
    Safe p blocking k (programOf n calls)
  | [], _, _, _, _, _, _ => trivial
  | c :: calls, n, k, hchain, howed, hquiet, hblocking => by
      obtain ⟨k', hleads, howed', hquiet'⟩ := leads_call blocking n c howed (hquiet c rfl)
      have hreturn : k'.Allows p blocking ⟨n, none⟩ := fun hb => hquiet' (hblocking 0 c rfl hb)
      have hrest : Safe p blocking k' (programOf (n + 1) calls) := by
        refine safe_programOf (List.IsChain.tail hchain) howed' (fun d hd hsmall => ?_)
          fun m d hd hb => hblocking (m + 1) d hd (by rwa [Nat.add_right_comm] at hb)
        obtain ⟨rest, rfl⟩ := List.head?_eq_some_iff.mp hd
        refine hquiet' (isBlocking_of_ne fun hnon => ?_)
        rw [(List.isChain_cons_cons.mp hchain).1 hnon] at hsmall
        cases hsmall
      exact (hleads.append (.cons hreturn ⟨hrest, rfl⟩)).safe

/-- The beats of a call are at the blocks of its buffer. -/
theorem addrs_programOf : ∀ {calls : List (Call p)} {n m : ℕ} {c : Call p}, calls[m]? = some c →
    (Board.beatsOf (n + m) ((readsOf (programOf n calls)).flatMap Request.beats)).map DmaBeat.addr =
      c.buffer.addrs
  | [], _, _, _, h => by cases h
  | d :: calls, n, m, c, h => by
      have hfirst : ∀ i ∈ instrs n d.actions, i.call = n := fun i hi => by
        obtain ⟨a, -, rfl⟩ := List.mem_map.mp hi
        rfl
      have hsplit : (readsOf (programOf n (d :: calls))).flatMap Request.beats =
          (readsOf (instrs n d.actions)).flatMap Request.beats ++
            (readsOf (programOf (n + 1) calls)).flatMap Request.beats := by
        simp [programOf, readsOf, List.filterMap_append, List.filterMap_cons, Instr.read?]
      rw [hsplit, Board.beatsOf, List.filter_append, ← Board.beatsOf, ← Board.beatsOf]
      cases m with
      | zero =>
          obtain rfl := Option.some.inj h
          rw [Nat.add_zero, Board.beatsOf_same hfirst, Board.beatsOf_other, List.append_nil]
          · exact readAddrs_call n d
          · exact fun i hi => Nat.ne_of_gt (le_call_of_mem hi)
      | succ m =>
          rw [Board.beatsOf_other fun i hi => by rw [hfirst i hi]; omega, List.nil_append,
            show n + (m + 1) = n + 1 + m by omega]
          exact addrs_programOf h

/-- The blocking calls, by number. -/
def blockingCalls (calls : List (Call p)) (n : ℕ) : Prop :=
  ∃ m c, n = 1 + m ∧ calls[m]? = some c ∧ c.function.isBlocking = true

theorem leads_init (blocking : ℕ → Prop) (dummy : ℕ) :
    Leads p blocking .quiet (initProgram dummy) .quiet := by
  have hfits : Known.Fits p 16 := by
    obtain ⟨t, h₁, h₂, hlen, hmax⟩ := AesHw.transferLength_blocks
      (show 5 ≤ p.lengthWidth from le_trans (by omega) p.lengthWidth_ge) le_rfl
    exact ⟨le_rfl, by omega⟩
  unfold initProgram AesHw.init AesHw.encrypt
  rw [show AesHw.cInt (1 * 16) = 16 by decide]
  exact .cons trivial <| .cons rfl <| .cons trivial <| .cons ⟨rfl, rfl, hfits⟩ <|
    .cons ⟨rfl, rfl, hfits⟩ <| .cons trivial <| .cons (fun _ => rfl) <| leads_nil _

theorem ends_driver (dummy : ℕ) (calls : List (Call p)) :
    Ends (initProgram dummy ++ programOf 1 calls) := by
  unfold initProgram
  rw [List.append_assoc, ends_instrs]
  refine List.pairwise_cons.mpr ⟨fun j hj _ => ?_, ends_programOf 1 calls⟩
  have : 1 ≤ j.call := le_call_of_mem hj
  show j.call ≠ 0
  omega

theorem addrs_driver (dummy : ℕ) {calls : List (Call p)} {m : ℕ} {c : Call p}
    (h : calls[m]? = some c) :
    (Board.beatsOf (1 + m) ((readsOf (initProgram dummy ++ programOf 1 calls)).flatMap
      Request.beats)).map DmaBeat.addr = c.buffer.addrs := by
  have hinit : ∀ i ∈ initProgram dummy, i.call = 0 := by
    intro i hi
    rcases List.mem_append.mp hi with hi | hi
    · obtain ⟨a, -, rfl⟩ := List.mem_map.mp hi
      rfl
    · obtain rfl := List.mem_singleton.mp hi
      rfl
  rw [readsOf, List.filterMap_append, List.flatMap_append, Board.beatsOf, List.filter_append,
    ← Board.beatsOf, ← Board.beatsOf]
  have hother : Board.beatsOf (1 + m) ((readsOf (initProgram dummy)).flatMap Request.beats) = [] :=
    Board.beatsOf_other fun i hi => by rw [hinit i hi]; omega
  rw [readsOf] at hother
  rw [hother, List.nil_append]
  exact addrs_programOf h

theorem safe_driver (dummy : ℕ) {calls : List (Call p)} (hchain : WaitsNext calls) :
    Safe p (blockingCalls calls) .quiet (initProgram dummy ++ programOf 1 calls) := by
  have hcalls : Safe p (blockingCalls calls) .quiet (programOf 1 calls) := by
    refine safe_programOf hchain rfl (fun _ _ _ => rfl) fun m c hc hb => ?_
    obtain ⟨m', c', hm, hc', hblocking⟩ := hb
    obtain rfl : m = m' := by omega
    rw [hc] at hc'
    rwa [Option.some.inj hc']
  exact ((leads_init _ dummy).append ⟨hcalls, rfl⟩).safe

end sequences

end AesAccelerator
