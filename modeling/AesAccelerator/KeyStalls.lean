import AesAccelerator.Run

/-! # Keys cannot wedge the stream

A key stalls the pipeline when the rounder acknowledges it and in the first cycle of the
synchronization that follows.  `keyDebt` is how many of these stalls are still to come.  Only a
write of the key register adds to it, two at a time, and every stall that is not the fault of
the write stream takes one off (`keyDebt_step`); a write that meets the acknowledge of the one
before it, or that restarts a synchronization, loses debt without a stall.  So a run has at most
two such stalls for every write (`key_stalls_bounded`). -/

namespace AesAccelerator

namespace Core

/-- The pipeline is stalled, and not because a block is waiting to be taken. -/
def stalledUnpressed (c : Core) (p : CorePorts) : Bool :=
  !c.readTready p && !(c.writeTvalid && !p.writeTready)

/-- The rounder is in the first cycle of a synchronization. -/
def syncBegins (c : Core) : Bool :=
  c.rounder1.refreshState == .syncing && c.rounder1.keySyncingCounter == 0

/-- The stalls that the keys seen so far can still cause. -/
def keyDebt (c : Core) : ℕ := 2 * c.keyChangePendingRounder.toNat + c.syncBegins.toNat

section debt
variable {c : Core} {p : CorePorts}

theorem keyStall_eq : c.keyStall = (c.rounderKeyAck || c.syncBegins) := rfl

theorem keyStall_of_stalledUnpressed (h : c.stalledUnpressed p = true) : c.keyStall = true := by
  have hready : c.readTready p = !c.stall p := rfl
  rw [stalledUnpressed, hready, stall_eq] at h
  cases hk : c.keyStall with
  | true => rfl
  | false =>
      rw [hk] at h
      cases hw : p.writeTready <;> cases hv : c.writeTvalid <;> simp [hw, hv] at h

theorem keyStall_le_keyDebt : c.keyStall.toNat ≤ c.keyDebt := by
  rw [keyStall_eq, keyDebt]
  cases hack : c.rounderKeyAck with
  | true =>
      rw [(rounderKeyAck_iff.mp hack).1]
      cases c.syncBegins <;> decide
  | false =>
      rw [Bool.false_or]
      omega

theorem syncBegins_of_idle (h : c.rounder1.refreshState = .idle) : c.syncBegins = false := by
  rw [syncBegins, h]
  rfl

theorem syncBegins_of_ne (h : c.rounder1.keySyncingCounter ≠ 0) : c.syncBegins = false := by
  simp [syncBegins, h]

variable [Rom256x1]

/-- A synchronization begins only with an acknowledge. -/
theorem step_syncBegins (hI : c.KeySync) (h : p.rst = false) :
    (c.step p).syncBegins = c.rounderKeyAck := by
  cases step_refresh_cases (c := c) h with
  | rest _ hack hs' | finish _ hack _ hs' => rw [hack, syncBegins_of_idle hs']
  | begin _ hack hs' hc' | restart _ hack hs' hc' =>
      rw [hack, syncBegins, hs', hc']
      rfl
  | copy hs hack hc hs' hc' =>
      have hle := (hI.front hs).1
      rw [hack, syncBegins_of_ne]
      rw [hc']
      omega

theorem keyDebt_reset (h : p.rst = true) : (c.step p).keyDebt = 0 := by
  obtain ⟨hR, -, hs, -⟩ := step_reset (c := c) h
  rw [keyDebt, hR, syncBegins_of_idle hs]
  rfl

/-- A write adds two to the debt, a key-caused stall takes one off. -/
theorem keyDebt_step (hI : c.KeySync) (h : p.rst = false) :
    (c.step p).keyDebt + c.keyStall.toNat ≤ c.keyDebt + 2 * p.aesKeyWrite.toNat := by
  rw [keyDebt, step_pendingRounder h, step_syncBegins hI h, keyStall_eq, keyDebt]
  cases hack : c.rounderKeyAck with
  | true =>
      rw [(rounderKeyAck_iff.mp hack).1]
      cases p.aesKeyWrite <;> cases c.syncBegins <;> decide
  | false =>
      cases p.aesKeyWrite <;> cases c.keyChangePendingRounder <;> cases c.syncBegins <;> decide

end debt

end Core

namespace Run

section stalls
variable [Rom256x1] (x : Run)

/-- In cycle `n` the pipeline is stalled without being back-pressured. -/
def stalledUnpressed (n : ℕ) : Bool := (x.state n).stalledUnpressed (x.ports n)

variable {x}

theorem keyDebt_next (n : ℕ) :
    (x.state (n + 1 + 1)).keyDebt + (x.stalledUnpressed (n + 1)).toNat ≤
      (x.state (n + 1)).keyDebt + 2 * (x.ports (n + 1)).aesKeyWrite.toNat := by
  have hstall : (x.stalledUnpressed (n + 1)).toNat ≤ (x.state (n + 1)).keyStall.toNat :=
    Bool.toNat_le_toNat fun hs => Core.keyStall_of_stalledUnpressed hs
  cases h : x.rst (n + 1) with
  | true =>
      have hzero : (x.state (n + 1 + 1)).keyDebt = 0 := Core.keyDebt_reset h
      have := Core.keyStall_le_keyDebt (c := x.state (n + 1))
      omega
  | false =>
      have hstep := Core.keyDebt_step (x.keySync n) h
      rw [← state_succ] at hstep
      omega

theorem syncBegins_succ (n : ℕ) (hs : (x.state (n + 1)).syncBegins = true) :
    x.rst n = false ∧ (x.state n).rounderKeyAck = true := by
  cases h : x.rst n with
  | true =>
      have hidle := (Core.step_reset (c := x.state n) h).2.2.1
      rw [state_succ, Core.syncBegins_of_idle hidle] at hs
      cases hs
  | false =>
      refine ⟨rfl, ?_⟩
      cases n with
      | zero => exact absurd (x.reset_first.symm.trans h) (by decide)
      | succ n =>
          rw [state_succ, Core.step_syncBegins (x.keySync n) h] at hs
          exact hs

/-- **Keys cannot wedge the stream**: up to any cycle there are at most twice as many stalls without
back pressure as there are key writes; and a key-caused stall with a transaction under way comes
right after the cycle in which the key was acknowledged, when none was. -/
theorem key_stalls_bounded (x : Run) (n : ℕ) :
    Nat.count (fun k => x.stalledUnpressed (k + 1) = true) n ≤
      2 * Nat.count (fun k => (x.ports (k + 1)).aesKeyWrite = true) n ∧
    ((x.state (n + 1)).keyStall = true →
      (x.state (n + 1)).rounder1.transactionState = .ongoing →
      x.rst n = false ∧ (x.state n).rounderKeyAck = true ∧
        (x.state n).rounder1.transactionState = .transactionIdle) := by
  constructor
  · have hzero : (x.state (0 + 1)).keyDebt = 0 := Core.keyDebt_reset x.reset_first
    have hcount := Clocked.count_le_of_potential (φ := fun k => (x.state (k + 1)).keyDebt)
      keyDebt_next n
    omega
  · intro hs hT
    rw [Core.keyStall_eq, Bool.or_eq_true] at hs
    cases hs with
    | inl hack =>
        rw [(Core.rounderKeyAck_iff.mp hack).2] at hT
        cases hT
    | inr hbegins =>
        obtain ⟨h, hack⟩ := syncBegins_succ n hbegins
        exact ⟨h, hack, (Core.rounderKeyAck_iff.mp hack).2⟩

end stalls

/-- A packet is offered in the cycle in which the key written before it is acknowledged. -/
def offeredWithAck : Run :=
  scripted ([{ quiet 0 with aesKeyWrite := true }] ++
    List.replicate 3 { quiet 0x0f with readTvalid := true, readTlast := true }) (quiet 0x0f)

/-- The bound is met: one write, two stalls, the second with the transaction under way. -/
theorem key_stalls_bounded_offeredWithAck :
    Nat.count (fun k => (offeredWithAck.ports (k + 1)).aesKeyWrite = true) 8 = 1 ∧
      Nat.count (fun k => offeredWithAck.stalledUnpressed (k + 1) = true) 8 = 2 ∧
      (offeredWithAck.state 2).rounder1.transactionState = .transactionIdle :=
  ⟨by decide +kernel, by decide +kernel,
    ((key_stalls_bounded offeredWithAck 2).2 (by decide +kernel) (by decide +kernel)).2.2⟩

end Run

end AesAccelerator
