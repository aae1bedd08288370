import AesAccelerator.Serial
import AesAccelerator.Lockstep

/-! # Streams that start before a key

A reset clears neither the local round keys nor the expanded keys.  A beat that is offered after a
reset before any key has been written enters at once and meets whatever round keys are there.

`unkeyedAge` counts the cycles since such a beat was first offered, and `overwritten` remembers
whether a synchronization has written the last local round key since the first reset.  `Phase` says
how far a run can be as long as it is not overwritten: nothing has happened, the first beat is
in stage `unkeyedAge - 1` with nothing ahead of it, or the first synchronization is pending or
under way with every beat behind its front. -/

namespace AesAccelerator

open ShiftPipeline

namespace Run

variable [Rom256x1] (x : Run)

/-- Cycles since the first beat was offered, if no key was written in an earlier cycle since the
last reset; otherwise `0`. -/
def unkeyedAge : ℕ → ℕ
  | 0 => 0
  | n + 1 =>
      if x.rst n then 0
      else if unkeyedAge n ≠ 0 then unkeyedAge n + 1
      else if x.offers n && !x.keyWritten n then 1
      else 0

/-- The last of the local round keys was written in an earlier cycle. -/
def overwritten : ℕ → Bool
  | 0 => false
  | n + 1 => overwritten n || (!x.rst n && (x.state n).rounder1.refreshState == .syncing &&
      (x.state n).rounder1.keySyncingCounter == 10)

/-- Nothing has happened to the rounder since the last reset. -/
structure Untouched (n : ℕ) : Prop where
  refresh : (x.state n).rounder1.refreshState = .idle
  transaction : (x.state n).rounder1.transactionState = .transactionIdle
  empty : x.Empty n

/-- The oldest beat is in stage `d`, under the round keys that were there before. -/
structure Leading (n : ℕ) (d : Fin 11) : Prop where
  refresh : (x.state n).rounder1.refreshState = .idle
  transaction : (x.state n).rounder1.transactionState = .ongoing
  beat : (x.pipe n d).isSome = true
  front : ∀ k, d < k → x.pipe n k = none

/-- The first synchronization is under way, with every beat behind it. -/
structure Following (n : ℕ) : Prop where
  refresh : (x.state n).rounder1.refreshState = .syncing
  front : x.FrontClear n
  transaction : (x.state n).rounder1.transactionState = .transactionIdle → x.Empty n

structure Phase (n : ℕ) : Prop where
  unkeyed : x.unkeyedAge n = 0 → x.keyWritten n = false →
    x.Untouched n ∧ (x.state n).keyChangePendingRounder = false
  leading : ∀ d : Fin 11, x.unkeyedAge n = d + 1 → x.Leading n d
  keyed : x.unkeyedAge n = 0 → x.keyWritten n = true → x.overwritten n = false →
    (x.Untouched n ∧ (x.state n).keyChangePendingRounder = true) ∨ x.Following n

omit [Rom256x1] in
theorem unkeyedAge_succ (n : ℕ) : x.unkeyedAge (n + 1) =
    if x.rst n then 0
    else if x.unkeyedAge n ≠ 0 then x.unkeyedAge n + 1
    else if x.offers n && !x.keyWritten n then 1
    else 0 := rfl

theorem overwritten_succ (n : ℕ) : x.overwritten (n + 1) = (x.overwritten n ||
    (!x.rst n && (x.state n).rounder1.refreshState == .syncing &&
      (x.state n).rounder1.keySyncingCounter == 10)) := rfl

variable {x} {n : ℕ}

omit [Rom256x1] in
theorem unkeyedAge_eq_zero (h : x.rst n = false) (hage : x.unkeyedAge (n + 1) = 0) :
    x.unkeyedAge n = 0 ∧ (x.keyWritten n = false → x.offers n = false) := by
  rw [unkeyedAge_succ, if_neg (by simp [h])] at hage
  split_ifs at hage with h₁ h₂
  refine ⟨not_not.mp h₁, fun hkw => ?_⟩
  rw [hkw] at h₂
  simpa using h₂

theorem not_overwritten (h : x.rst n = false) (how : x.overwritten (n + 1) = false) :
    x.overwritten n = false ∧ ((x.state n).rounder1.refreshState = .syncing →
      (x.state n).rounder1.keySyncingCounter ≠ 10) := by
  simp only [overwritten_succ, h, Bool.not_false, Bool.true_and, Bool.or_eq_false_iff] at how
  refine ⟨how.1, fun hs hc => ?_⟩
  rw [hs, hc] at how
  exact absurd how.2 (by decide)

theorem phase_reset (h : x.rst n = true) : x.Phase (n + 1) := by
  have hage : x.unkeyedAge (n + 1) = 0 := by simp [unkeyedAge, h]
  have hkw : x.keyWritten (n + 1) = false := Clocked.since_succ_of_reset h
  obtain ⟨hR, -, hs, hT⟩ := Core.step_reset (c := x.state n) h
  refine ⟨fun _ _ => ⟨⟨hs, hT, fun k => by rw [pipe_reset h]⟩, hR⟩, fun d hd => ?_,
    fun _ hk => ?_⟩
  · rw [hage] at hd
    omega
  · rw [hkw] at hk
    cases hk

/-! ### One cycle -/

theorem refreshState_succ (h : x.rst n = false) : (x.state (n + 1)).rounder1.refreshState =
    if (x.state n).rounderKeyAck then .syncing
    else if (x.state n).rounder1.refreshState = .syncing ∧
      (x.state n).rounder1.keySyncingCounter ≠ 10 then .syncing
    else .idle :=
  (Core.step_refreshState _ _).trans (if_neg (ne_true_of_eq_false h))

theorem refresh_rest (hs : (x.state n).rounder1.refreshState = .idle)
    (hack : (x.state n).rounderKeyAck = false) :
    (x.state (n + 1)).rounder1.refreshState = .idle := by
  rw [state_succ, Core.step_refreshState, hack, hs]
  simp

/-- Without a key to take up, nothing holds the first beat. -/
theorem no_stall (hack : (x.state n).rounderKeyAck = false)
    (hs : (x.state n).rounder1.refreshState = .idle)
    (hvalid : (x.state n).writeTvalid = false) : x.stalls n = false := by
  rw [stalls, Core.stall_eq, hvalid, Core.keyStall, hack, hs]
  simp

theorem writeTvalid_eq (hsh : x.Shadowed n) :
    (x.state n).writeTvalid = (x.pipe n (Fin.last 10)).isSome := (hsh _).1

section step
variable (h : x.rst n = false) (hsh : x.Shadowed n)
include h

/-- The rounder stays untouched until a beat is offered or a key is acknowledged. -/
theorem untouched_step (hu : x.Untouched n) (hack : (x.state n).rounderKeyAck = false)
    (hoffer : x.offers n = false) : x.Untouched (n + 1) where
  refresh := refresh_rest hu.refresh hack
  transaction :=
    (Core.step_transaction_idle h hu.transaction).trans (if_neg (ne_true_of_eq_false hoffer))
  empty := empty_step h hu.empty hoffer

include hsh in
/-- The first beat enters in the cycle in which it is offered. -/
theorem leading_first (hu : x.Untouched n) (hack : (x.state n).rounderKeyAck = false)
    (hoffer : x.offers n = true) : x.Leading (n + 1) 0 := by
  have hmove : x.stalls n = false :=
    no_stall hack hu.refresh (by rw [writeTvalid_eq hsh, hu.empty]; rfl)
  refine ⟨refresh_rest hu.refresh hack, ?_, ?_, fun k hk => ?_⟩
  · exact (Core.step_transaction_idle h hu.transaction).trans (if_pos hoffer)
  · rw [pipe_move h hmove, advance_zero, entering, hoffer]
    rfl
  · obtain ⟨j, rfl⟩ := Fin.exists_succ_eq.mpr (Fin.pos_iff_ne_zero.mp hk)
    rw [pipe_move h hmove, advance_succ, hu.empty]
    rfl

omit h in
include hsh in
/-- Nothing holds the first beat: no key is taken up during its transaction, and the last stage
is empty. -/
theorem Leading.moves {d : Fin 10} (hl : x.Leading n d.castSucc) :
    (x.state n).writeTvalid = false ∧ x.stalls n = false := by
  have hvalid : (x.state n).writeTvalid = false := by
    rw [writeTvalid_eq hsh, hl.front _ (Fin.castSucc_lt_last d)]
    rfl
  exact ⟨hvalid, no_stall (noAck_of_ongoing hl.transaction) hl.refresh hvalid⟩

include hsh in
theorem leading_next {d : Fin 10} (hl : x.Leading n d.castSucc) : x.Leading (n + 1) d.succ := by
  obtain ⟨hvalid, hmove⟩ := hl.moves hsh
  refine ⟨refresh_rest hl.refresh (noAck_of_ongoing hl.transaction), ?_, ?_, fun k hk => ?_⟩
  · refine (Core.step_transaction_ongoing h hl.transaction).trans (if_neg ?_)
    simp [hvalid]
  · rw [pipe_move h hmove, advance_succ, Option.isSome_map]
    exact hl.beat
  · obtain ⟨j, rfl⟩ := Fin.exists_succ_eq.mpr (Fin.ne_zero_of_lt hk)
    rw [pipe_move h hmove, advance_succ,
      hl.front _ (Fin.castSucc_lt_castSucc_iff.mpr (Fin.succ_lt_succ_iff.mp hk))]
    rfl

/-- The key is acknowledged before a beat has entered. -/
theorem following_begin (hI : (x.state n).KeySync) (hu : x.Untouched n)
    (hack : (x.state n).rounderKeyAck = true) : x.Following (n + 1) where
  refresh := by
    rw [refreshState_succ h, hack]
    rfl
  front := frontClear_step h hI (fun _ => hu.empty) fun hs => by
    rw [hu.refresh] at hs
    cases hs
  transaction _ k := by rw [pipe_stall h (Core.stall_of_ack hack), hu.empty]

include hsh in
/-- A synchronization that does not end in this cycle keeps every beat behind it. -/
theorem following_step (hI : (x.state n).KeySync) (hf : x.Following n)
    (hc : (x.state n).rounder1.keySyncingCounter ≠ 10) : x.Following (n + 1) where
  refresh := by
    rw [refreshState_succ h]
    simp [hf.refresh, hc]
  front := frontClear_step h hI
    (fun hack => hf.transaction (Core.rounderKeyAck_iff.mp hack).2) hf.front
  transaction hidle := by
    cases hT : (x.state n).rounder1.transactionState with
    | transactionIdle =>
        rw [state_succ, Core.step_transaction_idle h hT] at hidle
        refine empty_step h (hf.transaction hT) (Bool.eq_false_iff.mpr fun hoffer => ?_)
        rw [show (x.ports n).readTvalid = true from hoffer] at hidle
        cases hidle
    | ongoing =>
        -- the last stage is in front of the synchronization, so no transaction ends
        have hvalid : (x.state n).writeTvalid = false := by
          rw [writeTvalid_eq hsh]
          cases hq : x.pipe n (Fin.last 10) with
          | none => rfl
          | some q =>
              have h₁ := hf.front hf.refresh _ q hq
              have h₂ := (hI.front hf.refresh).1
              rw [Fin.val_last] at h₁
              omega
        rw [state_succ, Core.step_transaction_ongoing h hT, hvalid] at hidle
        simp at hidle

include hsh in
theorem phase_step (hI : (x.state n).KeySync) (ih : x.Phase n) : x.Phase (n + 1) := by
  have hkw' : x.keyWritten (n + 1) = ((x.ports n).aesKeyWrite || x.keyWritten n) := by
    rw [keyWritten_succ, h]
    rfl
  refine ⟨fun hage hkw => ?_, fun d hd => ?_, fun hage hkw how => ?_⟩
  · obtain ⟨hage₀, hoffer⟩ := unkeyedAge_eq_zero h hage
    rw [hkw', Bool.or_eq_false_iff] at hkw
    obtain ⟨hu, hR⟩ := ih.unkeyed hage₀ hkw.2
    refine ⟨untouched_step h hu (Core.noAck_of_notPending hR) (hoffer hkw.2), ?_⟩
    rw [state_succ, Core.step_pendingRounder h, hkw.1, hR]
    rfl
  · rw [unkeyedAge_succ, if_neg (by simp [h])] at hd
    split_ifs at hd with hage hoffer
    · obtain ⟨e, rfl⟩ : ∃ e : Fin 10, e.succ = d :=
        Fin.exists_succ_eq.mpr fun h0 => by rw [h0, Fin.val_zero] at hd; omega
      refine leading_next h hsh (ih.leading _ ?_)
      rw [Fin.val_succ] at hd
      rw [Fin.val_castSucc]
      omega
    · simp only [Bool.and_eq_true, Bool.not_eq_true'] at hoffer
      obtain ⟨hu, hR⟩ := ih.unkeyed (not_not.mp hage) hoffer.2
      obtain rfl : d = 0 := Fin.ext (by rw [Fin.val_zero]; omega)
      exact leading_first h hsh hu (Core.noAck_of_notPending hR) hoffer.1
  · obtain ⟨hage₀, hoffer⟩ := unkeyedAge_eq_zero h hage
    obtain ⟨how₀, hc⟩ := not_overwritten h how
    cases hkw₀ : x.keyWritten n with
    | false =>
        obtain ⟨hu, hR⟩ := ih.unkeyed hage₀ hkw₀
        rw [hkw', hkw₀, Bool.or_false] at hkw
        refine Or.inl ⟨untouched_step h hu (Core.noAck_of_notPending hR) (hoffer hkw₀), ?_⟩
        rw [state_succ, Core.step_pendingRounder h, hkw]
        rfl
    | true =>
        rcases ih.keyed hage₀ hkw₀ how₀ with ⟨hu, hR⟩ | hf
        · exact Or.inr (following_begin h hI hu
            (Core.rounderKeyAck_iff.mpr ⟨hR, hu.transaction⟩))
        · exact Or.inr (following_step h hsh hI hf (hc hf.refresh))

end step

theorem phase (x : Run) : ∀ n, x.Phase (n + 1) :=
  Clocked.since_reset_with (r := x.rst) (Q := fun n => (x.state n).KeySync ∧ x.Shadowed n)
    (P := x.Phase) x.reset_first (fun n => ⟨x.keySync n, x.shadowed n⟩) (fun _ h => phase_reset h)
    fun _ h hQ ih => phase_step h hQ.2 hQ.1 ih

end Run

end AesAccelerator
