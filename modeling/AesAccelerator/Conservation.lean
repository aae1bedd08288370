import AesAccelerator.KeyStalls
import AesAccelerator.Scoreboard

/-! # Conservation on the streams

`stall` holds the pipeline for back-pressure and for key reasons, and `write_tvalid` is driven
straight from the last stage.  A beat there that is taken in a key stall does not move on and is
presented again.

`conserved_iff` says that this is the only way a run can fail: the streams conserve beats in every
reachable state exactly when no beat is taken in a key stall.  A key stall is the cycle of an
acknowledge or the one after it, so what does the harm is a key that is acknowledged when a beat is
in the last stage (`conservation_of_acknowledges`). -/

namespace AesAccelerator

open ShiftPipeline

namespace Run

section conservation
variable [Rom256x1] (x : Run)

/-- The delivered beats are the images of the first accepted ones, in order, and what is
accepted and not delivered is in the pipeline. -/
def Conserved (n : ℕ) : Prop :=
  x.delivered n <+: (x.passengers n).map Passenger.output ∧
    (x.accepted n).length = (x.delivered n).length + x.validEntries n

/-- The sink takes a beat in a cycle in which the pipeline is held for a key reason. -/
def takenInKeyStall (n : ℕ) : Bool := !x.rst n && x.delivers n && (x.state n).keyStall

variable {x}

omit [Rom256x1] in
theorem exists_succ_of_not_rst {n : ℕ} (h : x.rst n = false) : ∃ m, n = m + 1 := by
  cases n with
  | zero => exact absurd x.reset_first (by simpa [rst] using h)
  | succ m => exact ⟨m, rfl⟩

/-- Without a key stall, a beat is taken exactly when it moves out of the last stage. -/
theorem delivers_eq {n : ℕ} (h : x.rst n = false) (hgood : x.takenInKeyStall n = false)
    (hsh : x.Shadowed n) :
    x.delivers n = (!x.stalls n && (x.pipe n (Fin.last 10)).isSome) := by
  have hvalid : (x.state n).writeTvalid = (x.pipe n (Fin.last 10)).isSome := (hsh _).1
  have hfree : ((x.pipe n (Fin.last 10)).isSome && (x.ports n).writeTready &&
      (x.state n).keyStall) = false := by
    simpa [takenInKeyStall, delivers, h, hvalid] using hgood
  rw [stalls, Core.stall_eq, delivers, hvalid]
  revert hfree
  cases (x.pipe n (Fin.last 10)).isSome <;> cases (x.ports n).writeTready <;>
    cases (x.state n).keyStall <;> decide

/-- What the sink takes is the output of the passenger in the last stage. -/
theorem taken_eq {n : ℕ} (hsh : x.Shadowed n) {q : Passenger}
    (hq : x.pipe n (Fin.last 10) = some q) :
    ((x.state n).writeTdata, (x.state n).writeTlast) = q.output := by
  obtain ⟨hlast, hblock, -⟩ := (hsh (Fin.last 10)).2 q hq
  rw [Rounder.blocks_last] at hblock
  exact Prod.ext hblock hlast

theorem delivered_eq_departed_step {n : ℕ} (h : x.rst n = false)
    (hgood : x.takenInKeyStall n = false) (hsh : x.Shadowed n)
    (ih : x.delivered n = (x.departed n).map Passenger.output) :
    x.delivered (n + 1) = (x.departed (n + 1)).map Passenger.output := by
  rw [delivered_step h, delivers_eq h hgood hsh, ih]
  cases hs : x.stalls n with
  | true => simp [departed, h, hs]
  | false =>
      have hdep : x.departed (n + 1) = x.departed n ++ (x.pipe n (Fin.last 10)).toList := by
        simp [departed, h, hs]
      rw [hdep, List.map_append]
      cases hq : x.pipe n (Fin.last 10) with
      | none => simp
      | some q => simp [taken_eq hsh hq]

theorem delivered_eq_departed (hgood : ∀ n, x.takenInKeyStall n = false) :
    ∀ n, x.delivered (n + 1) = (x.departed (n + 1)).map Passenger.output :=
  Clocked.since_reset_with (r := x.rst) (Q := x.Shadowed)
    (P := fun n => x.delivered n = (x.departed n).map Passenger.output) x.reset_first x.shadowed
    (fun n h => by simp [delivered, departed, h])
    (fun n h hsh ih => delivered_eq_departed_step h (hgood n) hsh ih)

theorem length_accepted (n : ℕ) : (x.accepted (n + 1)).length =
    (x.departed (n + 1)).length + x.validEntries (n + 1) := by
  have hvalid : x.validEntries (n + 1) = (occupants (x.pipe (n + 1))).length := by
    rw [length_occupants, validEntries]
    simp only [(x.shadowed n _).1]
  rw [hvalid, ← x.passengers_beats, List.length_map, passengers, List.length_append]

/-- **When the streams conserve beats**: in every reachable state, if and only if no beat is taken
while the pipeline is held for a key reason. -/
theorem conserved_iff (x : Run) :
    (∀ n, x.Conserved (n + 1)) ↔ ∀ n, x.takenInKeyStall n = false := by
  constructor
  · intro hall n
    by_contra hbad
    have hbad : x.takenInKeyStall n = true := by simpa using hbad
    simp only [takenInKeyStall, Bool.and_eq_true, Bool.not_eq_true'] at hbad
    obtain ⟨⟨h, hd⟩, hk⟩ := hbad
    obtain ⟨m, rfl⟩ := exists_succ_of_not_rst h
    have hs : x.stalls (m + 1) = true := by simp [stalls, Core.stall_eq, hk]
    have hbefore := (hall m).2
    have hafter := (hall (m + 1)).2
    have hvalid : x.validEntries (m + 1 + 1) = x.validEntries (m + 1) := by
      unfold validEntries
      rw [status_stall h hs]
    rw [accepted_step h, accepts_eq, hs, delivered_step h, hd, hvalid] at hafter
    simp at hafter
    omega
  · intro hgood n
    constructor
    · rw [delivered_eq_departed hgood, passengers, List.map_append]
      exact List.prefix_append _ _
    · rw [delivered_eq_departed hgood, List.length_map, length_accepted]

/-! ### Which acknowledges do harm -/

variable (x) in
/-- The rounder acknowledges a key while the last stage of the pipeline holds a valid beat. -/
def acksAtBeat (n : ℕ) : Bool := !x.rst n && (x.state n).rounderKeyAck &&
  ((x.state n).rounder1.parallelStatusPipeline (Fin.last 10)).valid

theorem acksAtBeat_iff {n : ℕ} : x.acksAtBeat n = true ↔
    x.rst n = false ∧ (x.state n).rounderKeyAck = true ∧ (x.state n).writeTvalid = true := by
  simp [acksAtBeat, Core.writeTvalid, Rounder.writeTvalid, and_assoc]

/-- An acknowledge holds the pipeline. -/
theorem writeTvalid_of_ack {n : ℕ} (h : x.rst n = false) (hack : (x.state n).rounderKeyAck = true) :
    (x.state (n + 1)).writeTvalid = (x.state n).writeTvalid := by
  rw [Core.writeTvalid, Rounder.writeTvalid,
    status_stall h (Core.stall_of_ack (p := x.ports n) hack)]
  rfl

/-- The beat in the last stage is still there when the synchronization begins. -/
theorem acksAtBeat_next {n : ℕ} (h : x.acksAtBeat n = true) :
    (x.state (n + 1)).writeTvalid = true ∧ (x.state (n + 1)).syncBegins = true := by
  obtain ⟨hrst, hack, hvalid⟩ := acksAtBeat_iff.mp h
  constructor
  · rwa [writeTvalid_of_ack hrst hack]
  · obtain ⟨m, rfl⟩ := exists_succ_of_not_rst hrst
    rw [state_succ, Core.step_syncBegins (x.keySync m) hrst, hack]

/-- A beat that is taken in a key stall was in the last stage when a key was acknowledged, in that
cycle or in the one before it. -/
theorem exists_acksAtBeat {n : ℕ} (h : x.takenInKeyStall n = true) :
    ∃ m, x.acksAtBeat m = true := by
  simp only [takenInKeyStall, delivers, Bool.and_eq_true, Bool.not_eq_true'] at h
  obtain ⟨⟨hrst, hvalid, -⟩, hstall⟩ := h
  rw [Core.keyStall_eq, Bool.or_eq_true] at hstall
  cases hstall with
  | inl hack => exact ⟨n, acksAtBeat_iff.mpr ⟨hrst, hack, hvalid⟩⟩
  | inr hbegins =>
      obtain ⟨m, rfl⟩ := exists_succ_of_not_rst hrst
      obtain ⟨hrst', hack⟩ := syncBegins_succ m hbegins
      rw [writeTvalid_of_ack hrst' hack] at hvalid
      exact ⟨m, acksAtBeat_iff.mpr ⟨hrst', hack, hvalid⟩⟩

/-- An acknowledge holds the pipeline for two cycles, and in both the beat is on the write stream. -/
theorem exists_takenInKeyStall {n : ℕ} (h : x.acksAtBeat n = true)
    (hready : (x.ports n).writeTready = true ∨
      (x.rst (n + 1) = false ∧ (x.ports (n + 1)).writeTready = true)) :
    ∃ m, x.takenInKeyStall m = true := by
  obtain ⟨hrst, hack, hvalid⟩ := acksAtBeat_iff.mp h
  rcases hready with hready | ⟨hrst', hready⟩
  · refine ⟨n, ?_⟩
    rw [takenInKeyStall, delivers, Core.keyStall_eq, hrst, hvalid, hready, hack]
    rfl
  · obtain ⟨hvalid', hbegins⟩ := acksAtBeat_next h
    refine ⟨n + 1, ?_⟩
    rw [takenInKeyStall, delivers, Core.keyStall_eq, hrst', hvalid', hready, hbegins, Bool.or_true]
    rfl

/-- **Acknowledges are what can break the streams**: when no key is acknowledged with a beat in the
last stage, the streams conserve beats in every reachable state; and they do not when a key is, and
the sink is ready in that cycle or in the next one. -/
theorem conservation_of_acknowledges (x : Run) :
    ((∀ n, x.acksAtBeat n = false) → ∀ n, x.Conserved (n + 1)) ∧
      ∀ n, x.acksAtBeat n = true →
        ((x.ports n).writeTready = true ∨
          (x.rst (n + 1) = false ∧ (x.ports (n + 1)).writeTready = true)) →
        ¬ ∀ m, x.Conserved (m + 1) := by
  constructor
  · intro hnone
    refine (conserved_iff x).mpr fun n => ?_
    by_contra htaken
    obtain ⟨m, hm⟩ := exists_acksAtBeat ((Bool.not_eq_false _).mp htaken)
    rw [hnone m] at hm
    cases hm
  · intro n hack hready hall
    obtain ⟨m, hm⟩ := exists_takenInKeyStall hack hready
    rw [(conserved_iff x).mp hall m] at hm
    cases hm

end conservation

/-- Two packets of one beat each, back to back, and a key write while both are in the pipeline. -/
def overlappedKeyWrite : Run :=
  scripted
    [{ quiet 0 with aesKeyWrite := true }, quiet 0x0f, quiet 0x0f,
      { quiet 0x0f with readTvalid := true, readTlast := true },
      { quiet 0x0f with readTvalid := true, readTlast := true },
      { quiet 0x0f with aesKeyWrite := true }]
    (quiet 0xf0)

/-- The second packet's beat is taken in the cycle in which the new key is acknowledged, and is
still in the pipeline afterwards. -/
theorem overlappedKeyWrite_not_conserved :
    ¬ ∀ x : Run, x.SourceHolds → ∀ n, x.Conserved (n + 1) := by
  intro hall
  have hcount := (hall overlappedKeyWrite (scripted_sourceHolds _ _ (by decide +kernel)) 16).2
  exact absurd hcount (by decide +kernel)

/-- One packet only, and the same key write behind it. -/
def keyWriteBehindPacket : Run :=
  scripted
    [{ quiet 0 with aesKeyWrite := true }, quiet 0x0f, quiet 0x0f,
      { quiet 0x0f with readTvalid := true, readTlast := true }, quiet 0x0f,
      { quiet 0x0f with aesKeyWrite := true }]
    (quiet 0xf0)

theorem keyWriteBehindPacket_acks (n : ℕ) : keyWriteBehindPacket.acksAtBeat n = false := by
  -- no stall is to come after cycle 18
  have hdebt : ∀ m, (keyWriteBehindPacket.state (17 + m + 1)).keyDebt = 0 := by
    intro m
    induction m with
    | zero => decide +kernel
    | succ m ih =>
        have hnext := keyDebt_next (x := keyWriteBehindPacket) (17 + m)
        have hwrite : (keyWriteBehindPacket.ports (17 + m + 1)).aesKeyWrite = false := by
          rw [keyWriteBehindPacket, scripted_ports _ _ (by show 6 < 17 + m + 1; omega)]
          rfl
        rw [hwrite, ih] at hnext
        exact Nat.le_zero.mp ((Nat.le_add_right _ _).trans hnext)
  rcases Nat.lt_or_ge n 18 with hn | hn
  · have hfirst : ∀ n < 18, keyWriteBehindPacket.acksAtBeat n = false := by decide +kernel
    exact hfirst n hn
  · obtain ⟨m, rfl⟩ := Nat.exists_eq_add_of_le hn
    have hzero := hdebt m
    rw [show 17 + m + 1 = 18 + m by omega] at hzero
    by_contra hcon
    obtain ⟨-, hack, -⟩ := acksAtBeat_iff.mp ((Bool.not_eq_false _).mp hcon)
    have hle := Core.keyStall_le_keyDebt (c := keyWriteBehindPacket.state (18 + m))
    rw [Core.keyStall_eq, hack, hzero, Bool.true_or] at hle
    exact absurd hle (by decide)

/-- The key that waits for the end of the only packet does no harm, the one that is acknowledged
between two packets does. -/
theorem conservation_of_acknowledges_keyWrites :
    (∀ n, keyWriteBehindPacket.Conserved (n + 1)) ∧ ¬ ∀ n, overlappedKeyWrite.Conserved (n + 1) :=
  ⟨(conservation_of_acknowledges keyWriteBehindPacket).1 keyWriteBehindPacket_acks,
    (conservation_of_acknowledges overlappedKeyWrite).2 16 (by decide +kernel)
      (Or.inl (by decide +kernel))⟩

end Run

end AesAccelerator
