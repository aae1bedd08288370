import AesAccelerator.RoundPe
import AesAccelerator.KeyExpansion
import AesAccelerator.Lib.ShiftPipeline

/-! # The rounder

`hdl/aes_rounder.sv`: ten round units in a pipeline that moves as one, a local copy of the
eleven round keys, and three groups of registers that decide what moves when.

* `transactionState` follows the stream: it is set by `read_tvalid` and cleared when a beat with
  `write_tlast` is taken.
* `refreshState` and `keySyncingCounter` copy the round keys from the key expansion, one a cycle,
  after a new key has been acknowledged.
* `parallelStatusPipeline` carries validity and `tlast` next to the data.

Each `always` block of the source is one function here; `step` puts them together, all reading
the registers of the old state. -/

namespace AesAccelerator

inductive TransactionState where
  | transactionIdle
  | ongoing
deriving DecidableEq, Repr

inductive RefreshState where
  | idle
  | syncing
deriving DecidableEq, Repr

/-- `metadata_t`. -/
structure Metadata where
  valid : Bool
  last : Bool
deriving DecidableEq, Repr

/-- The registers of `aes_rounder`. -/
structure Rounder where
  inStates : Fin 10 → AesMatrix
  roundKeys : Fin 11 → AesMatrix
  transactionState : TransactionState
  refreshState : RefreshState
  keySyncingCounter : ℕ
  parallelStatusPipeline : Fin 11 → Metadata
  dataMatrixOut : AesMatrix

/-- The inputs of `aes_rounder` in one cycle. -/
structure RounderPorts where
  rst : Bool
  keyMatrix : AesMatrix
  newKey : Bool
  dataMatrixIn : AesMatrix
  readTvalid : Bool
  readTlast : Bool
  writeTready : Bool

namespace Rounder

open ShiftPipeline

/-! ### Outputs -/

section outputs
variable (r : Rounder)

def keySelect : ℕ := r.keySyncingCounter

def keyAck (newKey : Bool) : Bool := newKey && r.transactionState == .transactionIdle

def keySyncing : Bool := r.refreshState == .syncing

def transactionStatus : Bool := r.transactionState == .ongoing

def writeTlast : Bool := (r.parallelStatusPipeline (Fin.last 10)).last

def writeTvalid : Bool := (r.parallelStatusPipeline (Fin.last 10)).valid

def stall (p : RounderPorts) : Bool :=
  (!p.writeTready && r.writeTvalid) ||
    (p.newKey && r.transactionState == .transactionIdle) ||
    (r.refreshState == .syncing && r.keySyncingCounter == 0)

def readTready (p : RounderPorts) : Bool := !r.stall p

end outputs

/-- `out_states`: the last of the ten round units does not mix columns. -/
def outStates [Rom256x1] (r : Rounder) (i : Fin 10) : AesMatrix :=
  aesRoundPe (decide ((i : ℕ) < 9)) (r.inStates i) (r.roundKeys i.succ)

/-! ### The `always` blocks -/

def transactionNext (r : Rounder) (p : RounderPorts) : TransactionState :=
  if p.rst then .transactionIdle
  else
    match r.transactionState with
    | .transactionIdle => if p.readTvalid then .ongoing else .transactionIdle
    | .ongoing =>
        if r.writeTlast && r.writeTvalid && p.writeTready then .transactionIdle else .ongoing

/-- The registers of the local key refresh. -/
structure Refresh where
  refreshState : RefreshState
  keySyncingCounter : ℕ
  roundKeys : Fin 11 → AesMatrix

def refreshNext (r : Rounder) (p : RounderPorts) : Refresh :=
  if p.rst then ⟨.idle, 0, r.roundKeys⟩
  else
    match r.refreshState with
    | .idle =>
        if p.newKey && r.transactionState == .transactionIdle then ⟨.syncing, 0, r.roundKeys⟩
        else ⟨.idle, 0, r.roundKeys⟩
    | .syncing =>
        let roundKeys := writeAt r.roundKeys r.keySyncingCounter p.keyMatrix
        -- a restart overrides the end of the synchronization
        if p.newKey && r.transactionState == .transactionIdle then ⟨.syncing, 0, roundKeys⟩
        else if r.keySyncingCounter = 10 then ⟨.idle, 0, roundKeys⟩
        else ⟨.syncing, (r.keySyncingCounter + 1) % 16, roundKeys⟩

def statusNext (r : Rounder) (p : RounderPorts) : Fin 11 → Metadata :=
  if p.rst then fun _ => ⟨false, false⟩
  else if r.stall p then r.parallelStatusPipeline
  else advance ⟨p.readTvalid, p.readTlast⟩ r.parallelStatusPipeline

variable [Rom256x1]

def inStatesNext (r : Rounder) (p : RounderPorts) : Fin 10 → AesMatrix :=
  if p.rst || r.stall p then r.inStates
  else advance (p.dataMatrixIn ^^^ r.roundKeys 0) r.outStates

def dataMatrixOutNext (r : Rounder) (p : RounderPorts) : AesMatrix :=
  if p.rst || r.stall p then r.dataMatrixOut else r.outStates (Fin.last 9)

/-- One clock edge. -/
def step (r : Rounder) (p : RounderPorts) : Rounder where
  inStates := r.inStatesNext p
  roundKeys := (r.refreshNext p).roundKeys
  transactionState := r.transactionNext p
  refreshState := (r.refreshNext p).refreshState
  keySyncingCounter := (r.refreshNext p).keySyncingCounter
  parallelStatusPipeline := r.statusNext p
  dataMatrixOut := r.dataMatrixOutNext p

/-! ### What one cycle does -/

section cycle
variable {r : Rounder} {p : RounderPorts}

theorem step_reset (h : p.rst = true) :
    (r.step p).transactionState = .transactionIdle ∧ (r.step p).refreshState = .idle ∧
      (r.step p).keySyncingCounter = 0 ∧
      (r.step p).parallelStatusPipeline = fun _ => ⟨false, false⟩ := by
  simp [step, transactionNext, refreshNext, statusNext, h]

theorem step_transaction_idle (h : p.rst = false) (hT : r.transactionState = .transactionIdle) :
    (r.step p).transactionState = if p.readTvalid then .ongoing else .transactionIdle := by
  simp [step, transactionNext, h, hT]

theorem step_transaction_ongoing (h : p.rst = false) (hT : r.transactionState = .ongoing) :
    (r.step p).transactionState =
      if r.writeTlast && r.writeTvalid && p.writeTready then .transactionIdle else .ongoing := by
  simp [step, transactionNext, h, hT]

omit [Rom256x1] in
/-- The pipeline does not move while a block waits in the last stage. -/
theorem writeTready_of_move (hs : r.stall p = false) (hv : r.writeTvalid = true) :
    p.writeTready = true := by
  cases hready : p.writeTready with
  | true => rfl
  | false =>
      rw [stall, hv, hready] at hs
      cases hs

/-- The five things the local key refresh can do in a cycle without reset.  The register array
is written in every cycle of a synchronization, also in one that is cut short by a restart. -/
inductive RefreshCase (r r' : Rounder) (ack : Bool) (keyMatrix : AesMatrix) : Prop
  | rest (state : r.refreshState = .idle) (noAck : ack = false)
      (state' : r'.refreshState = .idle) (counter' : r'.keySyncingCounter = 0)
      (keys' : r'.roundKeys = r.roundKeys)
  | begin (state : r.refreshState = .idle) (hasAck : ack = true)
      (state' : r'.refreshState = .syncing) (counter' : r'.keySyncingCounter = 0)
      (keys' : r'.roundKeys = r.roundKeys)
  | restart (state : r.refreshState = .syncing) (hasAck : ack = true)
      (state' : r'.refreshState = .syncing) (counter' : r'.keySyncingCounter = 0)
      (keys' : r'.roundKeys = writeAt r.roundKeys r.keySyncingCounter keyMatrix)
  | finish (state : r.refreshState = .syncing) (noAck : ack = false)
      (counter : r.keySyncingCounter = 10)
      (state' : r'.refreshState = .idle) (counter' : r'.keySyncingCounter = 0)
      (keys' : r'.roundKeys = writeAt r.roundKeys r.keySyncingCounter keyMatrix)
  | copy (state : r.refreshState = .syncing) (noAck : ack = false)
      (counter : r.keySyncingCounter ≠ 10)
      (state' : r'.refreshState = .syncing)
      (counter' : r'.keySyncingCounter = (r.keySyncingCounter + 1) % 16)
      (keys' : r'.roundKeys = writeAt r.roundKeys r.keySyncingCounter keyMatrix)

theorem refresh_cases (h : p.rst = false) :
    RefreshCase r (r.step p) (r.keyAck p.newKey) p.keyMatrix := by
  have hr : ¬ p.rst = true := by rw [h]; exact Bool.false_ne_true
  cases hs : r.refreshState with
  | idle =>
      cases ha : r.keyAck p.newKey with
      | false =>
          have e : r.refreshNext p = ⟨.idle, 0, r.roundKeys⟩ := by
            rw [refreshNext, if_neg hr, hs]
            exact if_neg (ne_true_of_eq_false ha)
          exact .rest hs rfl (congrArg Refresh.refreshState e)
            (congrArg Refresh.keySyncingCounter e) (congrArg Refresh.roundKeys e)
      | true =>
          have e : r.refreshNext p = ⟨.syncing, 0, r.roundKeys⟩ := by
            rw [refreshNext, if_neg hr, hs]
            exact if_pos ha
          exact .begin hs rfl (congrArg Refresh.refreshState e)
            (congrArg Refresh.keySyncingCounter e) (congrArg Refresh.roundKeys e)
  | syncing =>
      cases ha : r.keyAck p.newKey with
      | true =>
          have e : r.refreshNext p =
              ⟨.syncing, 0, writeAt r.roundKeys r.keySyncingCounter p.keyMatrix⟩ := by
            rw [refreshNext, if_neg hr, hs]
            exact if_pos ha
          exact .restart hs rfl (congrArg Refresh.refreshState e)
            (congrArg Refresh.keySyncingCounter e) (congrArg Refresh.roundKeys e)
      | false =>
          have e : r.refreshNext p =
              if r.keySyncingCounter = 10 then
                ⟨.idle, 0, writeAt r.roundKeys r.keySyncingCounter p.keyMatrix⟩
              else
                ⟨.syncing, (r.keySyncingCounter + 1) % 16,
                  writeAt r.roundKeys r.keySyncingCounter p.keyMatrix⟩ := by
            rw [refreshNext, if_neg hr, hs]
            exact if_neg (ne_true_of_eq_false ha)
          by_cases hc : r.keySyncingCounter = 10
          · rw [if_pos hc] at e
            exact .finish hs rfl hc (congrArg Refresh.refreshState e)
              (congrArg Refresh.keySyncingCounter e) (congrArg Refresh.roundKeys e)
          · rw [if_neg hc] at e
            exact .copy hs rfl hc (congrArg Refresh.refreshState e)
              (congrArg Refresh.keySyncingCounter e) (congrArg Refresh.roundKeys e)

theorem step_status_of_stall (h : p.rst = false) (hs : r.stall p = true) :
    (r.step p).parallelStatusPipeline = r.parallelStatusPipeline := by
  simp [step, statusNext, h, hs]

theorem step_status_of_move (h : p.rst = false) (hs : r.stall p = false) :
    (r.step p).parallelStatusPipeline =
      advance ⟨p.readTvalid, p.readTlast⟩ r.parallelStatusPipeline := by
  simp [step, statusNext, h, hs]

/-! ### The blocks in the stages -/

/-- The block in every stage: ten registers before the round units and the output register. -/
def blocks (r : Rounder) : Fin 11 → AesMatrix := Fin.snoc r.inStates r.dataMatrixOut

omit [Rom256x1] in
theorem blocks_last (r : Rounder) : r.blocks (Fin.last 10) = r.dataMatrixOut :=
  Fin.snoc_last _ _

theorem step_blocks_of_stall (h : p.rst = false) (hs : r.stall p = true) :
    (r.step p).blocks = r.blocks := by
  simp [blocks, step, inStatesNext, dataMatrixOutNext, h, hs]

/-- When the pipeline moves, stage `0` takes the offered block and every other stage takes the
block of the stage before it, each with its own local round key. -/
theorem step_blocks_of_move (h : p.rst = false) (hs : r.stall p = false) (k : Fin 11) :
    (r.step p).blocks k = stage k (r.roundKeys k) (advance p.dataMatrixIn r.blocks k) := by
  have hin : (r.step p).inStates = advance (p.dataMatrixIn ^^^ r.roundKeys 0) r.outStates := by
    simp [step, inStatesNext, h, hs]
  have hout : (r.step p).dataMatrixOut = r.outStates (Fin.last 9) := by
    simp [step, dataMatrixOutNext, h, hs]
  have hunit : ∀ i : Fin 10, r.outStates i =
      stage (i.succ : Fin 11) (r.roundKeys i.succ) (r.blocks i.castSucc) := by
    intro i
    rw [outStates, blocks, Fin.snoc_castSucc, Fin.val_succ, stage]
  refine Fin.cases ?_ (fun i => ?_) k
  · rw [blocks, hin, ← Fin.castSucc_zero, Fin.snoc_castSucc]
    rfl
  · rw [advance_succ, ← hunit i, blocks, hin, hout]
    refine Fin.lastCases ?_ (fun i => ?_) i
    · exact Fin.snoc_last _ _
    · rw [← Fin.castSucc_succ, Fin.snoc_castSucc, advance_succ]

end cycle

end Rounder

end AesAccelerator
