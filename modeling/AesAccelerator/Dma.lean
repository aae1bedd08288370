import AesAccelerator.AesHw
import AesAccelerator.Fips197
import AesAccelerator.Lib.Interleaving

/-! # The board

The driver with what it drives: the memory, the DMA engine with its two channels, and the core
between them.  Of the core only what its streams promise is used: it is a queue of bounded
capacity that hands out every block once, in order and encrypted, after any delay.

The processor, the two channels and the core take their steps in any order.  Next to the registers
the state keeps a record of what has happened: the transfers started and refused, the blocks
read and written, and the calls that have returned. -/

namespace AesAccelerator

/-- What the driver does not determine. -/
structure Platform where
  /-- What the core makes of a block, under the key in the key register. -/
  encrypt : (key block : AesBlock) → AesBlock
  /-- How many blocks the core holds at most. -/
  capacity : ℕ
  capacity_pos : 0 < capacity
  /-- `XPAR_AXI_DMA_0_SG_LENGTH_WIDTH`, for the driver and for the engine. -/
  lengthWidth : ℕ
  lengthWidth_ge : 8 ≤ lengthWidth
  lengthWidth_le : lengthWidth ≤ 26

/-- Byte `r + 4c` of a block is in row `r`, column `c` of the cipher's state. -/
def stateOf (block : AesBlock) : BitVec 128 :=
  Fips197.ofBytes fun r c => block ⟨r + 4 * c, by omega⟩

def blockOf (state : BitVec 128) : AesBlock := fun i =>
  Fips197.byteAt state ⟨i % 4, by omega⟩ ⟨i / 4, by omega⟩

/-- The board as it is configured, with a core of eleven stages. -/
def Platform.configured : Platform where
  encrypt key block := blockOf (Fips197.cipher (stateOf key) (stateOf block))
  capacity := 11
  capacity_pos := by decide
  lengthWidth := AesHw.sgLengthWidth
  lengthWidth_ge := by decide
  lengthWidth_le := by decide

/-- A call of `XAxiDma_SimpleTransfer` on one of the channels. -/
structure Request where
  /-- The number of the driver call that makes it. -/
  call : ℕ
  addr : ℕ
  length : ℤ
deriving DecidableEq, Repr

def Request.blocks (r : Request) : ℕ := r.length.toNat / 16

/-- One block of the range of a request. -/
structure DmaBeat where
  request : Request
  index : ℕ
deriving DecidableEq, Repr

def DmaBeat.addr (b : DmaBeat) : ℕ := b.request.addr + 16 * b.index

def DmaBeat.last (b : DmaBeat) : Bool := b.index + 1 == b.request.blocks

/-- The blocks of the range of a request, in order. -/
def Request.beats (r : Request) : List DmaBeat := (List.range r.blocks).map (DmaBeat.mk r)

/-- A block in the core, with the beat it was read in. -/
structure Item where
  origin : DmaBeat
  data : AesBlock
  tlast : Bool

/-- An incomplete transfer and the number of blocks it has moved. -/
structure Transfer where
  request : Request
  index : ℕ

def Transfer.beat (t : Transfer) : DmaBeat := ⟨t.request, t.index⟩

/-- The channel after a block of `t` that came with `tlast` or without. -/
def Transfer.next (t : Transfer) (tlast : Bool) : Option Transfer :=
  if tlast then none else some { t with index := t.index + 1 }

/-- The beats still to come. -/
def Transfer.rest (t : Transfer) : List DmaBeat := t.request.beats.drop t.index

/-- An action of one of the driver calls. -/
structure Instr where
  call : ℕ
  /-- `none` is the return from the call. -/
  action : Option Action

/-- The call that the action returns from, if it is a return. -/
def Instr.returns (i : Instr) : List ℕ :=
  match i.action with
  | none => [i.call]
  | some _ => []

structure Board where
  memory : ℕ → BitVec 8
  keyReg : AesBlock
  dmaToDevice : Option Transfer
  deviceToDma : Option Transfer
  /-- The blocks in the core that are not yet encrypted, oldest first. -/
  entering : List Item
  /-- The blocks in the core that are encrypted, oldest first. -/
  leaving : List Item
  /-- What the processor still has to do. -/
  program : List Instr
  /-- The transfers started so far on each channel. -/
  reads : List Request
  writes : List Request
  /-- The transfers that were refused. -/
  refused : List (Request × Channel)
  /-- The blocks read from memory so far. -/
  readLog : List Item
  /-- The blocks written to memory so far, each with the beat it was written in. -/
  writeLog : List (DmaBeat × Item)
  /-- The calls that have returned. -/
  returned : List ℕ

/-! ### Memory -/

def readBlock (memory : ℕ → BitVec 8) (addr : ℕ) : AesBlock := fun i => memory (addr + i)

def writeBlock (memory : ℕ → BitVec 8) (addr : ℕ) (block : AesBlock) : ℕ → BitVec 8 := fun a =>
  if h : addr ≤ a ∧ a < addr + 16 then block ⟨a - addr, by omega⟩ else memory a

theorem readBlock_writeBlock (memory : ℕ → BitVec 8) (addr : ℕ) (block : AesBlock) :
    readBlock (writeBlock memory addr block) addr = block := by
  funext i
  have h : addr ≤ addr + i ∧ addr + i < addr + 16 := by omega
  rw [readBlock, writeBlock, dif_pos h]
  congr 1
  exact Fin.ext (Nat.add_sub_cancel_left addr i)

theorem writeBlock_of_outside (memory : ℕ → BitVec 8) (block : AesBlock) {addr a : ℕ}
    (h : a < addr ∨ addr + 16 ≤ a) : writeBlock memory addr block a = memory a := by
  rw [writeBlock, dif_neg (by omega)]

/-- Blocks that do not overlap do not disturb each other. -/
theorem readBlock_writeBlock_of_apart (memory : ℕ → BitVec 8) (block : AesBlock) {addr addr' : ℕ}
    (h : addr + 16 ≤ addr' ∨ addr' + 16 ≤ addr) :
    readBlock (writeBlock memory addr block) addr' = readBlock memory addr' := by
  funext i
  exact writeBlock_of_outside memory block (by omega)

namespace Board

/-! ### The processor -/

/-- `XAxiDma_Busy`. -/
def busy (b : Board) : Channel → Bool
  | .dmaToDevice => b.dmaToDevice.isSome
  | .deviceToDma => b.deviceToDma.isSome

def start (b : Board) (r : Request) : Channel → Board
  | .dmaToDevice => { b with dmaToDevice := some ⟨r, 0⟩, reads := b.reads ++ [r] }
  | .deviceToDma => { b with deviceToDma := some ⟨r, 0⟩, writes := b.writes ++ [r] }

/-- The engine starts a transfer on a channel that is idle, if the length is one that it can
count.  It is assumed to take any address: as configured it has no realignment engine, and
`XAxiDma_SimpleTransfer` refuses an address that is not a multiple of eight. -/
def simpleTransfer (p : Platform) (b : Board) (r : Request) (channel : Channel) : Board :=
  if b.busy channel || r.length < 1 || AesHw.maxDmaSize p.lengthWidth < r.length then
    { b with refused := b.refused ++ [(r, channel)] }
  else b.start r channel

/-- What one action does.  A loop that waits ends when the channel is no longer busy; before that
it changes nothing.  The cache operations change nothing that the engine sees. -/
def execute (p : Platform) (b : Board) (i : Instr) : Option Board :=
  match i.action with
  | none => some { b with returned := b.returned ++ [i.call] }
  | some (.writeKey key) => some { b with keyReg := key }
  | some .reset => some { b with dmaToDevice := none, deviceToDma := none }
  | some (.simpleTransfer addr length channel) =>
      some (b.simpleTransfer p ⟨i.call, addr, length⟩ channel)
  | some (.whileBusy channel) => if b.busy channel then none else some b
  | some (.dCacheFlushRange _ _) => some b
  | some (.dCacheInvalidateRange _ _) => some b

def processor (p : Platform) (b : Board) : Option Board :=
  match b.program with
  | [] => none
  | i :: rest => { b with program := rest }.execute p i

/-- What one action leaves alone; only a return is recorded as one. -/
theorem execute_frame {p : Platform} {b b' : Board} {i : Instr} (hs : b.execute p i = some b') :
    b'.program = b.program ∧ b'.memory = b.memory ∧ b'.entering = b.entering ∧
      b'.leaving = b.leaving ∧ b'.readLog = b.readLog ∧ b'.writeLog = b.writeLog ∧
      b'.returned = b.returned ++ i.returns := by
  obtain ⟨call, action⟩ := i
  cases action with
  | none =>
      obtain rfl := Option.some.inj hs
      exact ⟨rfl, rfl, rfl, rfl, rfl, rfl, rfl⟩
  | some action =>
      cases action with
      | writeKey | reset | dCacheFlushRange | dCacheInvalidateRange =>
          obtain rfl := Option.some.inj hs
          exact ⟨rfl, rfl, rfl, rfl, rfl, rfl, (List.append_nil _).symm⟩
      | whileBusy channel =>
          simp only [execute] at hs
          split_ifs at hs
          obtain rfl := Option.some.inj hs
          exact ⟨rfl, rfl, rfl, rfl, rfl, rfl, (List.append_nil _).symm⟩
      | simpleTransfer addr length channel =>
          obtain rfl := Option.some.inj hs
          unfold simpleTransfer
          split_ifs with hrefused
          · exact ⟨rfl, rfl, rfl, rfl, rfl, rfl, (List.append_nil _).symm⟩
          · cases channel <;> exact ⟨rfl, rfl, rfl, rfl, rfl, rfl, (List.append_nil _).symm⟩

theorem execute_keyReg {p : Platform} {b b' : Board} {i : Instr}
    (hno : ∀ key, i.action ≠ some (.writeKey key)) (hs : b.execute p i = some b') :
    b'.keyReg = b.keyReg := by
  obtain ⟨call, action⟩ := i
  cases action with
  | none => obtain rfl := Option.some.inj hs; rfl
  | some action =>
      cases action with
      | writeKey key => exact absurd rfl (hno key)
      | reset | dCacheFlushRange | dCacheInvalidateRange =>
          obtain rfl := Option.some.inj hs
          rfl
      | whileBusy channel =>
          simp only [execute] at hs
          split_ifs at hs
          obtain rfl := Option.some.inj hs
          rfl
      | simpleTransfer addr length channel =>
          obtain rfl := Option.some.inj hs
          unfold simpleTransfer
          split_ifs with hrefused
          · rfl
          · cases channel <;> rfl

/-! ### The engine and the core -/

/-- The block that `DMA_TO_DEVICE` reads next; the last one comes with `tlast`. -/
def readItem (b : Board) (t : Transfer) : Item :=
  ⟨t.beat, readBlock b.memory t.beat.addr, t.beat.last⟩

def afterRead (b : Board) (t : Transfer) : Board :=
  { b with
    dmaToDevice := t.next t.beat.last
    entering := b.entering ++ [b.readItem t]
    readLog := b.readLog ++ [b.readItem t] }

/-- `DMA_TO_DEVICE` reads one block and hands it to the core. -/
def dmaRead (p : Platform) (b : Board) : Option Board :=
  match b.dmaToDevice with
  | none => none
  | some t =>
      if t.index < t.request.blocks ∧ b.entering.length + b.leaving.length < p.capacity then
        some (b.afterRead t)
      else none

def afterCore (p : Platform) (b : Board) (item : Item) (rest : List Item) : Board :=
  { b with
    entering := rest
    leaving := b.leaving ++ [{ item with data := p.encrypt b.keyReg item.data }] }

/-- The core encrypts its oldest block. -/
def core (p : Platform) (b : Board) : Option Board :=
  match b.entering with
  | [] => none
  | item :: rest => some (b.afterCore p item rest)

def afterWrite (b : Board) (t : Transfer) (item : Item) (rest : List Item) : Board :=
  { b with
    memory := writeBlock b.memory t.beat.addr item.data
    deviceToDma := t.next item.tlast
    leaving := rest
    writeLog := b.writeLog ++ [(t.beat, item)] }

/-- `DEVICE_TO_DMA` takes one block from the core and writes it; `tlast` completes the transfer. -/
def dmaWrite (b : Board) : Option Board :=
  match b.deviceToDma, b.leaving with
  | some t, item :: rest =>
      if t.index < t.request.blocks then some (b.afterWrite t item rest) else none
  | _, _ => none

section cases
variable {p : Platform} {b b' : Board}

theorem processor_iff : b.processor p = some b' ↔ ∃ i rest, b.program = i :: rest ∧
    { b with program := rest }.execute p i = some b' := by
  unfold processor
  cases b.program with
  | nil => simp
  | cons i rest => simp

theorem dmaRead_iff : b.dmaRead p = some b' ↔ ∃ t, b.dmaToDevice = some t ∧
    t.index < t.request.blocks ∧ b.entering.length + b.leaving.length < p.capacity ∧
    b' = b.afterRead t := by
  unfold dmaRead
  cases b.dmaToDevice with
  | none => simp
  | some t =>
      by_cases h : t.index < t.request.blocks ∧ b.entering.length + b.leaving.length < p.capacity
      · simp [h, eq_comm]
      · simp only [if_neg h]
        constructor
        · intro hs
          cases hs
        · rintro ⟨t', ht', h₁, h₂, -⟩
          obtain rfl := Option.some.inj ht'
          exact absurd ⟨h₁, h₂⟩ h

theorem core_iff : b.core p = some b' ↔ ∃ item rest, b.entering = item :: rest ∧
    b' = b.afterCore p item rest := by
  unfold core
  cases b.entering with
  | nil => simp
  | cons item rest => simp [eq_comm]

theorem dmaWrite_iff : b.dmaWrite = some b' ↔ ∃ t item rest, b.deviceToDma = some t ∧
    b.leaving = item :: rest ∧ t.index < t.request.blocks ∧ b' = b.afterWrite t item rest := by
  unfold dmaWrite
  cases b.deviceToDma with
  | none => simp
  | some t =>
      cases b.leaving with
      | nil => simp
      | cons item rest =>
          by_cases h : t.index < t.request.blocks
          · simp [h, eq_comm]
          · simp [h]

end cases

end Board

inductive Actor where
  | processor
  | dmaRead
  | core
  | dmaWrite
deriving DecidableEq, Repr

namespace Board

def step (p : Platform) : Actor → Board → Option Board
  | .processor, b => b.processor p
  | .dmaRead, b => b.dmaRead p
  | .core, b => b.core p
  | .dmaWrite, b => b.dmaWrite

/-- Some interleaving of processor, engine and core leads from one state to the other. -/
def Reaches (p : Platform) : Board → Board → Prop := Interleaving.Reaches (step p)

/-- Both channels idle, the core empty, and `program` to be done. -/
def idle (memory : ℕ → BitVec 8) (keyReg : AesBlock) (program : List Instr) : Board where
  memory := memory
  keyReg := keyReg
  dmaToDevice := none
  deviceToDma := none
  entering := []
  leaving := []
  program := program
  reads := []
  writes := []
  refused := []
  readLog := []
  writeLog := []
  returned := []

end Board

end AesAccelerator
