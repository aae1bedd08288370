import AesAccelerator.Rounder
import AesAccelerator.Lib.Clocked

/-! # The core

`hdl/aes.sv`: the key expansion and the rounder, and two flags that remember for each of them
that the key register was written.  The flags are all the two units know of each other's
progress; nothing tells the rounder that a round key is ready. -/

namespace AesAccelerator

/-- The registers of `aes`. -/
structure Core where
  keys : KeyExpansion
  rounder1 : Rounder
  keyChangePendingKeyExpansion : Bool
  keyChangePendingRounder : Bool

/-- The inputs of `aes` in one cycle, and what reads past the end of the two arrays yield. -/
structure CorePorts where
  rst : Bool
  aesKey : AesMatrix
  aesKeyWrite : Bool
  readTdata : AesMatrix
  readTvalid : Bool
  readTlast : Bool
  writeTready : Bool
  undefConstant : BitVec 8
  undefKey : AesMatrix

namespace Core

/-! ### Wires -/

section wires
variable (c : Core) (p : CorePorts)

def selectedKey : AesMatrix := c.keys.roundKey c.rounder1.keySelect p.undefKey

def keysPorts : KeyExpansionPorts where
  rst := p.rst
  key := p.aesKey
  pendingKey := c.keyChangePendingKeyExpansion
  rounderSyncing := c.rounder1.keySyncing
  transactionOngoing := c.rounder1.transactionStatus
  undefConstant := p.undefConstant

def rounderPorts : RounderPorts where
  rst := p.rst
  keyMatrix := c.selectedKey p
  newKey := c.keyChangePendingRounder
  dataMatrixIn := p.readTdata
  readTvalid := p.readTvalid
  readTlast := p.readTlast
  writeTready := p.writeTready

def keyExpansionAck : Bool := (c.keysPorts p).keyConsumed

def rounderKeyAck : Bool := c.rounder1.keyAck c.keyChangePendingRounder

def stall : Bool := c.rounder1.stall (c.rounderPorts p)

def readTready : Bool := c.rounder1.readTready (c.rounderPorts p)

def writeTdata : AesMatrix := c.rounder1.dataMatrixOut

def writeTvalid : Bool := c.rounder1.writeTvalid

def writeTlast : Bool := c.rounder1.writeTlast

end wires

/-- One clock edge. -/
def step [Rom256x1] (c : Core) (p : CorePorts) : Core where
  keys := c.keys.step (c.keysPorts p)
  rounder1 := c.rounder1.step (c.rounderPorts p)
  keyChangePendingKeyExpansion :=
    if p.rst then false
    else if p.aesKeyWrite then true
    else if c.keyExpansionAck p then false
    else c.keyChangePendingKeyExpansion
  keyChangePendingRounder :=
    if p.rst then false
    else if p.aesKeyWrite then true
    else if c.rounderKeyAck then false
    else c.keyChangePendingRounder

/-! ### The handshakes with the two units -/

section acks
variable {c : Core} {p : CorePorts}

/-- The key expansion takes a pending key unless a synchronization and a transaction are both
under way. -/
theorem keyExpansionAck_iff : c.keyExpansionAck p = true ↔
    c.keyChangePendingKeyExpansion = true ∧
      (c.rounder1.refreshState = .idle ∨ c.rounder1.transactionState = .transactionIdle) := by
  simp only [keyExpansionAck, KeyExpansionPorts.keyConsumed, keysPorts, Rounder.keySyncing,
    Rounder.transactionStatus]
  cases c.rounder1.refreshState <;> cases c.rounder1.transactionState <;> simp

theorem rounderKeyAck_iff : c.rounderKeyAck = true ↔
    c.keyChangePendingRounder = true ∧ c.rounder1.transactionState = .transactionIdle := by
  simp [rounderKeyAck, Rounder.keyAck]

theorem noAck_of_notPending (hR : c.keyChangePendingRounder = false) :
    c.rounderKeyAck = false := by
  rw [rounderKeyAck, hR]
  rfl

/-- Between transactions a pending key is acknowledged at once. -/
theorem pendingRounder_of_noAck (hack : c.rounderKeyAck = false)
    (hT : c.rounder1.transactionState = .transactionIdle) : c.keyChangePendingRounder = false := by
  by_contra hcon
  rw [rounderKeyAck_iff.mpr ⟨by simpa using hcon, hT⟩] at hack
  cases hack

/-- A key-caused stall: an acknowledge, or the first cycle of a synchronization. -/
def keyStall (c : Core) : Bool :=
  c.rounderKeyAck || (c.rounder1.refreshState == .syncing && c.rounder1.keySyncingCounter == 0)

theorem stall_eq : c.stall p = ((!p.writeTready && c.writeTvalid) || c.keyStall) := by
  simp only [stall, Rounder.stall, keyStall, rounderKeyAck, Rounder.keyAck, Bool.or_assoc]
  rfl

theorem stall_of_ack (h : c.rounderKeyAck = true) : c.stall p = true := by
  simp [stall_eq, keyStall, h]

theorem stall_of_syncing_zero (hs : c.rounder1.refreshState = .syncing)
    (hc : c.rounder1.keySyncingCounter = 0) : c.stall p = true := by
  simp [stall_eq, keyStall, hs, hc]

end acks

/-! ### What one cycle does -/

section cycle
variable [Rom256x1] {c : Core} {p : CorePorts}

theorem step_reset (h : p.rst = true) :
    (c.step p).keyChangePendingRounder = false ∧
      (c.step p).keyChangePendingKeyExpansion = false ∧
      (c.step p).rounder1.refreshState = .idle ∧
      (c.step p).rounder1.transactionState = .transactionIdle := by
  obtain ⟨hT, hs, -, -⟩ := Rounder.step_reset (r := c.rounder1) (p := c.rounderPorts p) h
  exact ⟨by simp [step, h], by simp [step, h], hs, hT⟩

theorem step_pendingKeyExpansion (h : p.rst = false) :
    (c.step p).keyChangePendingKeyExpansion =
      (p.aesKeyWrite || (c.keyChangePendingKeyExpansion && !c.keyExpansionAck p)) := by
  simp only [step, h]
  cases p.aesKeyWrite <;> cases c.keyExpansionAck p <;> simp

theorem step_pendingRounder (h : p.rst = false) :
    (c.step p).keyChangePendingRounder =
      (p.aesKeyWrite || (c.keyChangePendingRounder && !c.rounderKeyAck)) := by
  simp only [step, h]
  cases p.aesKeyWrite <;> cases c.rounderKeyAck <;> simp

theorem step_transaction_idle (h : p.rst = false)
    (hT : c.rounder1.transactionState = .transactionIdle) :
    (c.step p).rounder1.transactionState =
      if p.readTvalid then .ongoing else .transactionIdle :=
  Rounder.step_transaction_idle (p := c.rounderPorts p) h hT

theorem step_transaction_ongoing (h : p.rst = false)
    (hT : c.rounder1.transactionState = .ongoing) :
    (c.step p).rounder1.transactionState =
      if c.writeTlast && c.writeTvalid && p.writeTready then .transactionIdle else .ongoing :=
  Rounder.step_transaction_ongoing (p := c.rounderPorts p) h hT

theorem step_refresh_cases (h : p.rst = false) :
    Rounder.RefreshCase c.rounder1 (c.step p).rounder1 c.rounderKeyAck (c.selectedKey p) :=
  Rounder.refresh_cases (p := c.rounderPorts p) h

theorem step_refreshState (c : Core) (p : CorePorts) :
    (c.step p).rounder1.refreshState =
      if p.rst then .idle
      else if c.rounderKeyAck then .syncing
      else if c.rounder1.refreshState = .syncing ∧ c.rounder1.keySyncingCounter ≠ 10 then .syncing
      else .idle := by
  cases h : p.rst with
  | true => exact (step_reset h).2.2.1
  | false =>
      cases step_refresh_cases (c := c) h with
      | rest hs ha hs' | begin hs ha hs' | restart hs ha hs' => simp [hs, ha, hs']
      | finish hs ha hc hs' | copy hs ha hc hs' => simp [hs, ha, hc, hs']

theorem step_keySyncingCounter (c : Core) (p : CorePorts) :
    (c.step p).rounder1.keySyncingCounter =
      if p.rst || c.rounderKeyAck then 0
      else if c.rounder1.refreshState = .syncing ∧ c.rounder1.keySyncingCounter ≠ 10 then
        (c.rounder1.keySyncingCounter + 1) % 16
      else 0 := by
  cases h : p.rst with
  | true => exact (Rounder.step_reset (p := c.rounderPorts p) h).2.2.1
  | false =>
      cases step_refresh_cases (c := c) h with
      | rest hs ha _ hc' | begin hs ha _ hc' | restart hs ha _ hc' => simp [hs, ha, hc']
      | finish hs ha hc _ hc' | copy hs ha hc _ hc' => simp [hs, ha, hc, hc']

/-- The only local round key written in a cycle is the one the counter points to. -/
theorem step_roundKeys (c : Core) (p : CorePorts) (j : Fin 11) :
    (c.step p).rounder1.roundKeys j =
      if p.rst = false ∧ c.rounder1.refreshState = .syncing ∧
          (j : ℕ) = c.rounder1.keySyncingCounter then c.selectedKey p
      else c.rounder1.roundKeys j := by
  cases h : p.rst with
  | true =>
      simp [step, Rounder.step, Rounder.refreshNext, rounderPorts, h]
  | false =>
      cases step_refresh_cases (c := c) h with
      | rest hs _ _ _ hk' | begin hs _ _ _ hk' => simp [hs, hk']
      | restart hs _ _ _ hk' | finish hs _ _ _ _ hk' | copy hs _ _ _ _ hk' =>
          simp [hs, hk', writeAt]

end cycle

end Core

end AesAccelerator
