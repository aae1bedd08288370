import AesAccelerator.BackToBack
import AesAccelerator.QuietKeys

/-! # The block design

`bd/design_1/design_1.bd`: the processor with the memory, the DMA engine, and the core of `hdl/aes.sv`
between the two streams of the engine, all on one clock.  Where `Board` has a queue, here is the
core itself.

Between the engine and the core there are buffers in both directions, those of the engine and of the
two converters of the stream width.  A beat is offered to the core as long as the first buffer is
not empty, and taken from it when the second one has room.  Between two clock edges the processor
and the engine may do any number of steps, in any order.

The key register is written in parts, in an order that the source does not fix.  Every part is a
cycle with `aes_key_write`; what the register holds before the last of them is arbitrary. -/

namespace AesAccelerator

/-- How many blocks fit into the buffers before the core and behind it. -/
structure Buffers where
  before : ℕ
  behind : ℕ

/-- The board whose queue is the core with its buffers. -/
def Buffers.platform (d : Buffers) : Platform :=
  { Platform.configured with capacity := 11 + d.before + d.behind, capacity_pos := by omega }

/-- What becomes of the key register at a clock edge, if the processor is about to write it. -/
inductive KeyWrite where
  | wait
  /-- A part is written, but not the last one; this is then in the register. -/
  | part (aesKey : AesMatrix)
  | last

/-- What may happen between two clock edges. -/
inductive Activity where
  /-- The processor does its next action, if that is not a key write. -/
  | processor
  /-- `DMA_TO_DEVICE` reads a block. -/
  | fetch
  /-- `DEVICE_TO_DMA` writes a block. -/
  | store
deriving DecidableEq, Repr

/-- What the core does not determine in one clock cycle. -/
structure Cycle where
  writeTready : Bool
  keyWrite : KeyWrite
  /-- What is on the read stream when no beat is offered. -/
  idleTdata : AesMatrix
  idleTlast : Bool
  undefConstant : BitVec 8
  undefKey : AesMatrix
  /-- What happens after the clock edge. -/
  activities : List Activity

/-- The buffer before the core is `board.entering`, the one behind it `board.leaving`. -/
structure Design where
  aesUnit : Core
  /-- The key register. -/
  aesKey : AesMatrix
  board : Board
  /-- A record of the blocks in the core, oldest first. -/
  inside : List Item

namespace Board

/-- The board with `entering` before the core. -/
def refill (entering : List Item) (b : Board) : Board := { b with entering := entering }

/-- `DMA_TO_DEVICE` reads one block into the buffer before the core. -/
def fetch (d : Buffers) (b : Board) : Option Board :=
  match b.dmaToDevice with
  | none => none
  | some t =>
      if t.index < t.request.blocks ∧ b.entering.length < d.before then some (b.afterRead t)
      else none

theorem fetch_iff {d : Buffers} {b b' : Board} : b.fetch d = some b' ↔
    ∃ t, b.dmaToDevice = some t ∧ t.index < t.request.blocks ∧ b.entering.length < d.before ∧
      b' = b.afterRead t := by
  unfold fetch
  cases b.dmaToDevice with
  | none => simp
  | some t => simp [and_assoc, eq_comm]

end Board

namespace Design

section cycle
variable [Rom256x1] (d : Buffers) (s : Design) (c : Cycle)

/-! ### The streams -/

def aesKeyWrite : Bool :=
  match s.board.keyToWrite, c.keyWrite with
  | none, _ => false
  | some _, .wait => false
  | some _, .part _ => true
  | some _, .last => true

def corePorts : CorePorts where
  rst := false
  aesKey := s.aesKey
  aesKeyWrite := s.aesKeyWrite c
  readTdata := (s.board.entering.head?.map fun i => stateOf i.data).getD c.idleTdata
  readTvalid := !s.board.entering.isEmpty
  readTlast := (s.board.entering.head?.map Item.tlast).getD c.idleTlast
  writeTready := c.writeTready && decide (s.board.leaving.length < d.behind)
  undefConstant := c.undefConstant
  undefKey := c.undefKey

def accepts : Bool :=
  (s.corePorts d c).readTvalid && s.aesUnit.readTready (s.corePorts d c)

def delivers : Bool := s.aesUnit.writeTvalid && (s.corePorts d c).writeTready

/-- The block on the write stream; where it comes from is only recorded. -/
def output : Item where
  origin := (s.inside.head?.map Item.origin).getD ⟨⟨0, 0, 0⟩, 0⟩
  data := blockOf s.aesUnit.writeTdata
  tlast := s.aesUnit.writeTlast

/-- The two streams at a clock edge. -/
def stream : Design where
  aesUnit := s.aesUnit.step (s.corePorts d c)
  aesKey := s.aesKey
  board :=
    { s.board with
      entering := if s.accepts d c then s.board.entering.tail else s.board.entering
      leaving := if s.delivers d c then s.board.leaving ++ [s.output] else s.board.leaving }
  inside :=
    (if s.delivers d c then s.inside.tail else s.inside) ++
      if s.accepts d c then s.board.entering.take 1 else []

/-! ### The processor and the engine -/

/-- The key register at a clock edge. -/
def writeKey (write : KeyWrite) : Design :=
  match s.board.keyToWrite, write with
  | none, _ => s
  | some _, .wait => s
  | some _, .part aesKey => { s with aesKey := aesKey }
  | some key, .last =>
      { s with
        aesKey := stateOf key
        board := (s.board.processor d.platform).getD s.board }

def act : Activity → Design
  | .processor =>
      if s.board.keyToWrite.isSome then s
      else { s with board := (s.board.processor d.platform).getD s.board }
  | .fetch => { s with board := (s.board.fetch d).getD s.board }
  | .store => { s with board := s.board.dmaWrite.getD s.board }

/-- One clock edge, and what follows it up to the next one. -/
def step : Design :=
  c.activities.foldl (act d) ((s.stream d c).writeKey d c.keyWrite)

end cycle

/-! ### Runs -/

def resetPorts : CorePorts := { Run.quiet 0 with rst := true }

/-- After the reset; nothing is known of the core before it. -/
def start [Rom256x1] (powerUp : Core) (b : Board) : Design where
  aesUnit := powerUp.step resetPorts
  aesKey := stateOf b.keyReg
  board := b
  inside := []

/-- The board whose queue holds what is in the core and in the buffers. -/
def toBoard (s : Design) : Board := s.board.refill (s.inside ++ s.board.entering)

section runs
variable [Rom256x1] (d : Buffers) (powerUp : Core) (b : Board) (cycles : ℕ → Cycle)

def state : ℕ → Design := Clocked.trace (step d) (start powerUp b) cycles

theorem state_succ (n : ℕ) :
    state d powerUp b cycles (n + 1) = (state d powerUp b cycles n).step d (cycles n) := rfl

/-- The run of the core. -/
def coreRun : Run where
  powerUp := powerUp
  ports
    | 0 => resetPorts
    | n + 1 => (state d powerUp b cycles n).corePorts d (cycles n)
  reset_first := rfl

end runs

/-! ### What the streams see of the processor and the engine -/

section frame
variable {d : Buffers} {s : Design}

theorem processor_entering (b : Board) :
    ((b.processor d.platform).getD b).entering = b.entering := by
  cases h : b.processor d.platform with
  | none => rfl
  | some b' =>
      obtain ⟨i, rest, -, hexec⟩ := Board.processor_iff.mp h
      exact (Board.execute_frame hexec).2.2.1

theorem act_aesUnit (a : Activity) : (s.act d a).aesUnit = s.aesUnit := by
  cases a with
  | processor =>
      unfold act
      split_ifs <;> rfl
  | fetch | store => rfl

theorem act_aesKey (a : Activity) : (s.act d a).aesKey = s.aesKey := by
  cases a with
  | processor =>
      unfold act
      split_ifs <;> rfl
  | fetch | store => rfl

/-- What no activity disturbs. -/
theorem foldl_act {P : Design → Prop} (h : ∀ s a, P s → P (act d s a)) :
    ∀ (activities : List Activity) {s : Design}, P s → P (activities.foldl (act d) s)
  | [], _, hs => hs
  | a :: activities, s, hs => foldl_act h activities (h s a hs)

theorem foldl_act_aesUnit (activities : List Activity) :
    (activities.foldl (act d) s).aesUnit = s.aesUnit :=
  foldl_act (P := fun s' => s'.aesUnit = s.aesUnit) (fun _ a h => (act_aesUnit a).trans h)
    activities rfl

theorem foldl_act_aesKey (activities : List Activity) :
    (activities.foldl (act d) s).aesKey = s.aesKey :=
  foldl_act (P := fun s' => s'.aesKey = s.aesKey) (fun _ a h => (act_aesKey a).trans h)
    activities rfl

theorem writeKey_aesUnit (write : KeyWrite) : (s.writeKey d write).aesUnit = s.aesUnit := by
  unfold writeKey
  split <;> rfl

theorem writeKey_entering (write : KeyWrite) :
    (s.writeKey d write).board.entering = s.board.entering := by
  unfold writeKey
  split
  · rfl
  · rfl
  · rfl
  · exact processor_entering s.board

variable [Rom256x1] {c : Cycle}

theorem step_aesUnit : (s.step d c).aesUnit = s.aesUnit.step (s.corePorts d c) := by
  rw [step, foldl_act_aesUnit, writeKey_aesUnit]
  rfl

/-- Without `aes_key_write` the processor does not touch the key register. -/
theorem writeKey_of_not (h : s.aesKeyWrite c = false) :
    (s.stream d c).writeKey d c.keyWrite = s.stream d c := by
  have hkey : (s.stream d c).board.keyToWrite = s.board.keyToWrite := rfl
  unfold writeKey
  rw [hkey]
  unfold aesKeyWrite at h
  split
  · rfl
  · rfl
  all_goals simp_all

theorem step_aesKey_of_not (h : s.aesKeyWrite c = false) : (s.step d c).aesKey = s.aesKey := by
  rw [step, foldl_act_aesKey, writeKey_of_not h]
  rfl

omit [Rom256x1] in
/-- The oldest block in the buffer stays there. -/
theorem act_entering {i : Item} (a : Activity) (h : ∃ rest, s.board.entering = i :: rest) :
    ∃ rest, (s.act d a).board.entering = i :: rest := by
  obtain ⟨rest, hrest⟩ := h
  cases a with
  | processor =>
      unfold act
      split_ifs
      · exact ⟨rest, hrest⟩
      · exact ⟨rest, (processor_entering s.board).trans hrest⟩
  | fetch =>
      show ∃ rest, ((s.board.fetch d).getD s.board).entering = i :: rest
      unfold Board.fetch
      split
      · exact ⟨rest, hrest⟩
      · rename_i t _
        split_ifs
        · exact ⟨rest ++ [s.board.readItem t], congrArg (· ++ [s.board.readItem t]) hrest⟩
        · exact ⟨rest, hrest⟩
  | store =>
      refine ⟨rest, ?_⟩
      show (s.board.dmaWrite.getD s.board).entering = i :: rest
      cases hw : s.board.dmaWrite with
      | none => exact hrest
      | some b' =>
          obtain ⟨t, item, leaving, -, -, -, rfl⟩ := Board.dmaWrite_iff.mp hw
          exact hrest

theorem step_entering {i : Item} {rest : List Item} (h : s.board.entering = i :: rest)
    (hacc : s.accepts d c = false) : ∃ rest, (s.step d c).board.entering = i :: rest := by
  apply foldl_act (P := fun s => ∃ rest, s.board.entering = i :: rest) fun _ a => act_entering a
  refine ⟨rest, ?_⟩
  rw [writeKey_entering]
  show (if s.accepts d c then s.board.entering.tail else s.board.entering) = _
  rw [hacc]
  exact h

end frame

/-! ### The environment of the core -/

section environment
variable [Rom256x1] {d : Buffers} {powerUp : Core} {b : Board} {cycles : ℕ → Cycle}

theorem coreRun_state (n : ℕ) : (coreRun d powerUp b cycles).state (n + 1) =
    (state d powerUp b cycles n).aesUnit := by
  induction n with
  | zero => rfl
  | succ n ih => rw [Run.state_succ, ih, state_succ, step_aesUnit]; rfl

theorem coreRun_accepts (n : ℕ) : (coreRun d powerUp b cycles).accepts (n + 1) =
    (state d powerUp b cycles n).accepts d (cycles n) := by
  rw [Run.accepts, coreRun_state]
  rfl

theorem coreRun_delivers (n : ℕ) : (coreRun d powerUp b cycles).delivers (n + 1) =
    (state d powerUp b cycles n).delivers d (cycles n) := by
  rw [Run.delivers, coreRun_state]
  rfl

theorem offers_iff (n : ℕ) : (coreRun d powerUp b cycles).offers (n + 1) = true ↔
    (state d powerUp b cycles n).board.entering ≠ [] := by
  show (!(state d powerUp b cycles n).board.entering.isEmpty) = true ↔ _
  simp

omit [Rom256x1] in
theorem corePorts_of_cons {s : Design} {c : Cycle} {i : Item} {rest : List Item}
    (h : s.board.entering = i :: rest) : (s.corePorts d c).readTvalid = true ∧
      (s.corePorts d c).readTdata = stateOf i.data ∧ (s.corePorts d c).readTlast = i.tlast := by
  simp [corePorts, h]

theorem coreRun_keyDiscipline : (coreRun d powerUp b cycles).KeyDiscipline := by
  intro n h hw
  cases n with
  | zero => cases h
  | succ n =>
      show (state d powerUp b cycles (n + 1)).aesKey = (state d powerUp b cycles n).aesKey
      rw [state_succ]
      exact step_aesKey_of_not hw

theorem coreRun_sourceHolds : (coreRun d powerUp b cycles).SourceHolds := by
  intro n h _ hoffer hacc
  cases n with
  | zero => cases h
  | succ n =>
      rw [coreRun_accepts] at hacc
      obtain ⟨i, rest, hcons⟩ := List.exists_cons_of_ne_nil ((offers_iff n).mp hoffer)
      obtain ⟨rest', hcons'⟩ := step_entering hcons hacc
      obtain ⟨-, hdata, hlast⟩ := corePorts_of_cons (d := d) (c := cycles n) hcons
      rw [← state_succ] at hcons'
      obtain ⟨hvalid', hdata', hlast'⟩ := corePorts_of_cons (d := d) (c := cycles (n + 1)) hcons'
      exact ⟨hvalid', hdata'.trans hdata.symm, hlast'.trans hlast.symm⟩

/-- Until the processor writes the key, the engine has nothing to read. -/
def BeforeKey (s : Design) : Prop :=
  s.board.entering = [] ∧ s.board.dmaToDevice = none ∧ s.board.keyToWrite.isSome = true

omit [Rom256x1] in
theorem act_beforeKey {s : Design} (a : Activity) (h : BeforeKey s) : BeforeKey (s.act d a) := by
  obtain ⟨hentering, hread, hkey⟩ := h
  cases a with
  | processor =>
      rw [act, if_pos hkey]
      exact ⟨hentering, hread, hkey⟩
  | fetch =>
      have hnone : s.board.fetch d = none := by rw [Board.fetch, hread]
      rw [act, hnone]
      exact ⟨hentering, hread, hkey⟩
  | store =>
      cases hw : s.board.dmaWrite with
      | none =>
          rw [act, hw]
          exact ⟨hentering, hread, hkey⟩
      | some b' =>
          rw [act, hw]
          obtain ⟨t, item, leaving, -, -, -, rfl⟩ := Board.dmaWrite_iff.mp hw
          exact ⟨hentering, hread, hkey⟩

theorem keyWritten_or_beforeKey (hb : b.entering = [] ∧ b.dmaToDevice = none ∧
    b.keyToWrite.isSome = true) (n : ℕ) : (coreRun d powerUp b cycles).keyWritten (n + 1) = true ∨
      BeforeKey (state d powerUp b cycles n) := by
  induction n with
  | zero => exact Or.inr hb
  | succ n ih =>
      rw [Run.keyWritten_succ]
      show (!false && ((state d powerUp b cycles n).aesKeyWrite (cycles n) || _)) = true ∨ _
      cases hw : (state d powerUp b cycles n).aesKeyWrite (cycles n) with
      | true => exact Or.inl rfl
      | false =>
          refine ih.imp id fun hbefore => ?_
          rw [state_succ, step, writeKey_of_not hw]
          refine foldl_act (fun _ a => act_beforeKey a) _ ?_
          obtain ⟨hentering, hread, hkey⟩ := hbefore
          refine ⟨?_, hread, hkey⟩
          show (if (state d powerUp b cycles n).accepts d (cycles n) then _ else _) = []
          rw [hentering]
          split_ifs <;> rfl

theorem coreRun_keyFirst (hb : b.entering = [] ∧ b.dmaToDevice = none ∧
    b.keyToWrite.isSome = true) : (coreRun d powerUp b cycles).KeyFirst := by
  intro n h hoffer
  cases n with
  | zero => cases h
  | succ n =>
      refine (keyWritten_or_beforeKey hb n).resolve_right fun hbefore => ?_
      exact (offers_iff n).mp hoffer hbefore.1

end environment

end Design

end AesAccelerator
