import AesAccelerator.KeyChange

/-! # Two cores in lockstep

What the core does when (its state machines, counters, flags and the validity of its stages) does
not depend on keys and blocks.  `SameControl a b` says that two cores agree on all of that, and one
cycle with the same inputs keeps it, whatever the two hold as data. -/

namespace AesAccelerator

/-- The same inputs; what undefined reads yield may differ. -/
structure CorePorts.Same (p q : CorePorts) : Prop where
  rst : p.rst = q.rst
  aesKey : p.aesKey = q.aesKey
  aesKeyWrite : p.aesKeyWrite = q.aesKeyWrite
  readTdata : p.readTdata = q.readTdata
  readTvalid : p.readTvalid = q.readTvalid
  readTlast : p.readTlast = q.readTlast
  writeTready : p.writeTready = q.writeTready

/-! ### Agreement on the control registers -/

namespace Core

structure SameControl (a b : Core) : Prop where
  keysState : a.keys.state = b.keys.state
  roundCounter : a.keys.roundCounter = b.keys.roundCounter
  transactionState : a.rounder1.transactionState = b.rounder1.transactionState
  refreshState : a.rounder1.refreshState = b.rounder1.refreshState
  keySyncingCounter : a.rounder1.keySyncingCounter = b.rounder1.keySyncingCounter
  status : a.rounder1.parallelStatusPipeline = b.rounder1.parallelStatusPipeline
  pendingKeyExpansion : a.keyChangePendingKeyExpansion = b.keyChangePendingKeyExpansion
  pendingRounder : a.keyChangePendingRounder = b.keyChangePendingRounder

section same
variable {a b : Core} {p q : CorePorts} (hab : a.SameControl b) (hpq : p.Same q)
include hab

theorem SameControl.rounderKeyAck : a.rounderKeyAck = b.rounderKeyAck := by
  simp only [Core.rounderKeyAck, Rounder.keyAck, hab.pendingRounder, hab.transactionState]

theorem SameControl.keyExpansionAck (p q : CorePorts) :
    a.keyExpansionAck p = b.keyExpansionAck q := by
  simp only [Core.keyExpansionAck, KeyExpansionPorts.keyConsumed, keysPorts,
    Rounder.keySyncing, Rounder.transactionStatus, hab.pendingKeyExpansion, hab.refreshState,
    hab.transactionState]

theorem SameControl.writeTvalid : a.writeTvalid = b.writeTvalid := by
  simp only [Core.writeTvalid, Rounder.writeTvalid, hab.status]

theorem SameControl.writeTlast : a.writeTlast = b.writeTlast := by
  simp only [Core.writeTlast, Rounder.writeTlast, hab.status]

theorem SameControl.followsLoaded : a.FollowsLoaded ↔ b.FollowsLoaded := by
  simp only [Core.FollowsLoaded, hab.pendingRounder, hab.pendingKeyExpansion, hab.refreshState]

include hpq in
theorem SameControl.stall : a.stall p = b.stall q := by
  simp only [stall_eq, keyStall, hpq.writeTready, hab.writeTvalid, hab.rounderKeyAck,
    hab.refreshState, hab.keySyncingCounter]

variable [Rom256x1]

include hpq in
theorem sameControl_step : (a.step p).SameControl (b.step q) where
  keysState := by
    show (a.keys.step (a.keysPorts p)).state = (b.keys.step (b.keysPorts q)).state
    rw [KeyExpansion.step_state, KeyExpansion.step_state, hab.keysState, hab.roundCounter]
    have hack : (a.keysPorts p).keyConsumed = (b.keysPorts q).keyConsumed :=
      hab.keyExpansionAck p q
    rw [hack, show (a.keysPorts p).rst = (b.keysPorts q).rst from hpq.rst]
  roundCounter := by
    show (a.keys.step (a.keysPorts p)).roundCounter = (b.keys.step (b.keysPorts q)).roundCounter
    rw [KeyExpansion.step_roundCounter, KeyExpansion.step_roundCounter, hab.keysState,
      hab.roundCounter]
    have hack : (a.keysPorts p).keyConsumed = (b.keysPorts q).keyConsumed :=
      hab.keyExpansionAck p q
    rw [hack, show (a.keysPorts p).rst = (b.keysPorts q).rst from hpq.rst]
  transactionState := by
    have hlast : a.rounder1.writeTlast = b.rounder1.writeTlast := hab.writeTlast
    have hvalid : a.rounder1.writeTvalid = b.rounder1.writeTvalid := hab.writeTvalid
    simp only [step, Rounder.step, Rounder.transactionNext, rounderPorts, hpq.rst,
      hpq.readTvalid, hpq.writeTready, hab.transactionState, hlast, hvalid]
    rfl
  refreshState := by
    rw [step_refreshState, step_refreshState, hpq.rst, hab.rounderKeyAck, hab.refreshState,
      hab.keySyncingCounter]
  keySyncingCounter := by
    rw [step_keySyncingCounter, step_keySyncingCounter, hpq.rst, hab.rounderKeyAck,
      hab.refreshState, hab.keySyncingCounter]
  status := by
    have hstall : a.rounder1.stall (a.rounderPorts p) = b.rounder1.stall (b.rounderPorts q) :=
      hab.stall hpq
    simp only [step, Rounder.step, Rounder.statusNext, hstall, hab.status]
    simp only [rounderPorts, hpq.rst, hpq.readTvalid, hpq.readTlast]
    rfl
  pendingKeyExpansion := by
    simp only [step, hpq.rst, hpq.aesKeyWrite, hab.keyExpansionAck p q, hab.pendingKeyExpansion]
  pendingRounder := by
    simp only [step, hpq.rst, hpq.aesKeyWrite, hab.rounderKeyAck, hab.pendingRounder]

end same

end Core

end AesAccelerator
