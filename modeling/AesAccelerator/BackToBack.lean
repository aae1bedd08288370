import AesAccelerator.Serial
import AesAccelerator.Transactions

/-! # Packets back to back

When packets follow each other without a gap, `transactionState` falls with the end of one packet
while the next is in the pipeline.  `Accounted` is what can still be said of it: a transaction
that is under way has a beat waiting on the read stream, an open packet, or the last beat of a
packet in the pipeline.

It is enough for a source that writes keys only when all is quiet (`QuietWrites`): a written
key is then acknowledged in the very next cycle, with the pipeline empty, and everything that
follows is encrypted with it (`backToBack_delivers`). -/

namespace AesAccelerator

open ShiftPipeline

namespace Run

section backToBack
variable [Rom256x1] (x : Run)

/-- A beat was offered in the cycle before and not accepted. -/
def waiting : ℕ → Bool
  | 0 => false
  | n + 1 => !x.rst n && x.offers n && !x.accepts n

/-- A key is written only when nothing is offered, no packet is open and every accepted beat
has been delivered. -/
def QuietWrites : Prop := ∀ n, x.rst n = false → (x.ports n).aesKeyWrite = true →
  x.offers n = false ∧ x.packetOpen n = false ∧
    (x.delivered n).length = (x.accepted n).length

/-- What a transaction that is under way is waiting for. -/
def Accounted (n : ℕ) : Prop := (x.state n).rounder1.transactionState = .ongoing →
  x.waiting n = true ∨ x.packetOpen n = true ∨
    ∃ k q, x.pipe n k = some q ∧ q.beat.tlast = true

variable {x} {n : ℕ}

/-! ### The rounder's part of the run -/

def rounderRun (x : Run) : RounderRun where
  powerUp := x.powerUp.rounder1
  ports n := (x.state n).rounderPorts (x.ports n)
  reset_first := x.reset_first

theorem rounderRun_state (x : Run) (n : ℕ) : x.rounderRun.state n = (x.state n).rounder1 := by
  induction n with
  | zero => rfl
  | succ n ih =>
      show (x.rounderRun.state n).step (x.rounderRun.ports n) = _
      rw [ih]
      rfl

theorem rounderRun_accepts (x : Run) (n : ℕ) : x.rounderRun.accepts n = x.accepts n := by
  rw [RounderRun.accepts, rounderRun_state]
  rfl

theorem rounderRun_waiting (x : Run) (n : ℕ) : x.rounderRun.waiting n = x.waiting n := by
  cases n with
  | zero => rfl
  | succ n =>
      rw [RounderRun.waiting, rounderRun_accepts]
      rfl

theorem rounderRun_packetOpen (x : Run) (n : ℕ) :
    x.rounderRun.packetOpen n = x.packetOpen n := by
  induction n with
  | zero => rfl
  | succ n ih =>
      rw [RounderRun.packetOpen, rounderRun_accepts, ih]
      rfl

theorem SourceHolds.rounderRun (hsource : x.SourceHolds) : x.rounderRun.SourceHolds := by
  intro n h h' hoffer hacc
  rw [rounderRun_accepts] at hacc
  exact hsource n h h' hoffer hacc

theorem offers_of_waiting (hsource : x.SourceHolds) (h : x.rst n = false)
    (hw : x.waiting n = true) : x.offers n = true := by
  rw [← rounderRun_waiting] at hw
  exact RounderRun.offers_of_waiting hsource.rounderRun h hw

theorem accounted (hsource : x.SourceHolds) (n : ℕ) : x.Accounted (n + 1) := by
  intro hongoing
  rw [← rounderRun_state] at hongoing
  have hpending := RounderRun.ongoing_pending hsource.rounderRun n hongoing
  rw [RounderRun.Pending, rounderRun_waiting, rounderRun_packetOpen, rounderRun_state] at hpending
  rcases hpending with hw | hopen | ⟨k, hk⟩
  · exact Or.inl hw
  · exact Or.inr (Or.inl hopen)
  · right
    right
    obtain ⟨hvalid, hshadow⟩ := x.shadowed n k
    rw [hk] at hvalid
    obtain ⟨q, hq⟩ := Option.isSome_iff_exists.mp hvalid.symm
    refine ⟨k, q, hq, ?_⟩
    rw [← (hshadow q hq).last, hk]

/-! ### Quiet key writes -/

/-- A pending key finds the pipeline empty between transactions. -/
def PendingQuiet (x : Run) (n : ℕ) : Prop := (x.state n).keyChangePendingRounder = true →
  (x.state n).rounder1.transactionState = .transactionIdle ∧ x.Empty n

/-- When everything accepted has been delivered, the pipeline is empty. -/
theorem Undisturbed.empty {keyOf : Beat → AesMatrix} (hu : x.Undisturbed keyOf n)
    (hall : (x.delivered n).length = (x.accepted n).length) : x.Empty n := by
  have hocc : (occupants (x.pipe n)).length = 0 := by
    rw [hu.taken, List.length_map, ← x.passengers_beats, List.length_map, passengers,
      List.length_append] at hall
    omega
  exact empty_of_occupants (List.length_eq_zero_iff.mp hocc)

theorem pendingQuiet_step (hsource : x.SourceHolds) (h : x.rst n = false)
    (hquiet : (x.ports n).aesKeyWrite = true → x.offers n = false ∧ x.packetOpen n = false ∧
      (x.delivered n).length = (x.accepted n).length)
    (hacc : x.Accounted n) {keyOf : Beat → AesMatrix}
    (hu : x.Undisturbed keyOf n) (ih : x.PendingQuiet n) : x.PendingQuiet (n + 1) := by
  intro hR
  rw [state_succ, Core.step_pendingRounder h] at hR
  cases hw : (x.ports n).aesKeyWrite with
  | false =>
      simp only [hw, Bool.false_or, Bool.and_eq_true, Bool.not_eq_true'] at hR
      have := Core.pendingRounder_of_noAck hR.2 (ih hR.1).1
      rw [hR.1] at this
      cases this
  | true =>
      obtain ⟨hoffer, hopen, hall⟩ := hquiet hw
      have hE := hu.empty hall
      have hT : (x.state n).rounder1.transactionState = .transactionIdle := by
        cases hT : (x.state n).rounder1.transactionState with
        | transactionIdle => rfl
        | ongoing =>
            rcases hacc hT with hwait | ho | ⟨k, q, hq, -⟩
            · rw [offers_of_waiting hsource h hwait] at hoffer
              cases hoffer
            · rw [hopen] at ho
              cases ho
            · rw [hE k] at hq
              cases hq
      refine ⟨?_, empty_step h hE hoffer⟩
      rw [state_succ, Core.step_transaction_idle h hT]
      exact if_neg (ne_true_of_eq_false hoffer)

/-- A beat that enters gets the current key. -/
theorem aesKey_of_accept (hI : (x.state n).KeySync) (hf : x.FollowsKey n)
    (hfirst : x.KeyFirst) (h : x.rst n = false) (hp : x.PendingQuiet n)
    (hacc : x.accepts n = true) : (x.ports n).aesKey = (x.state n).targetKey := by
  obtain ⟨hoffer, hs⟩ : x.offers n = true ∧ x.stalls n = false := by
    simpa [accepts_eq] using hacc
  have hR : (x.state n).keyChangePendingRounder = false := by
    by_contra hcon
    have hpend : (x.state n).keyChangePendingRounder = true := by simpa using hcon
    rw [stalls, Core.stall_of_ack (Core.rounderKeyAck_iff.mpr ⟨hpend, (hp hpend).1⟩)] at hs
    cases hs
  rw [hf.targetKey_eq hI (hfirst n h hoffer) hR]

theorem quiet_undisturbed (hsource : x.SourceHolds) (hquiet : x.QuietWrites)
    (hkey : x.KeyDiscipline) (hfirst : x.KeyFirst) : ∀ n,
    x.PendingQuiet (n + 1) ∧ x.Undisturbed Beat.aesKey (n + 1) := by
  refine Clocked.since_reset_with (r := x.rst)
    (Q := fun n => (((x.state n).KeySync ∧ x.Shadowed n) ∧ x.Accounted n) ∧
      x.Ready n ∧ x.FollowsKey n)
    (P := fun n => x.PendingQuiet n ∧ x.Undisturbed Beat.aesKey n)
    x.reset_first (fun n => ⟨⟨⟨x.keySync n, x.shadowed n⟩, accounted hsource n⟩,
      ready hfirst n, followsKey hkey n⟩) ?_ ?_
  · intro n h
    refine ⟨fun hR => ?_, undisturbed_reset h⟩
    rw [state_succ, (Core.step_reset (c := x.state n) h).1] at hR
    cases hR
  · rintro n h ⟨⟨⟨hI, hsh⟩, hacc⟩, hr, hf⟩ ⟨hp, hu⟩
    refine ⟨pendingQuiet_step hsource h (hquiet n h) hacc hu hp, ?_⟩
    exact undisturbed_step hfirst h hI hsh hr
      (fun hack => (hp (Core.rounderKeyAck_iff.mp hack).1).2)
      (fun hin => aesKey_of_accept hI hf hfirst h hp hin) hu

/-- **Back-to-back packets**: with keys written only when all is quiet, what is delivered is, in
order and once each, what was accepted, every block encrypted with the key that was in the
key register when it was accepted. -/
theorem backToBack_delivers (x : Run) (hsource : x.SourceHolds) (hquiet : x.QuietWrites)
    (hkey : x.KeyDiscipline) (hfirst : x.KeyFirst) (n : ℕ) : x.delivered (n + 1) <+:
      (x.accepted (n + 1)).map fun b => (Fips197.cipher b.aesKey b.tdata, b.tlast) :=
  (quiet_undisturbed hsource hquiet hkey hfirst n).2.delivered

end backToBack

/-- Two packets right behind a key write, and, when they have left, the same with another key. -/
def twoBursts : Run :=
  scripted
    ([{ quiet 0 with aesKeyWrite := true }] ++
      List.replicate 4 { quiet 0x0f with readTvalid := true, readTlast := true } ++
      List.replicate 12 (quiet 0x0f) ++ [{ quiet 0x0f with aesKeyWrite := true }] ++
      List.replicate 4 { quiet 0xf0 with readTvalid := true, readTlast := true })
    (quiet 0xf0)

theorem twoBursts_quietWrites : twoBursts.QuietWrites := by
  intro n _ hw
  rcases Nat.lt_or_ge n 23 with hn | hn
  · have : ∀ n < 23, (twoBursts.ports n).aesKeyWrite = true →
        twoBursts.offers n = false ∧ twoBursts.packetOpen n = false ∧
          (twoBursts.delivered n).length = (twoBursts.accepted n).length := by decide +kernel
    exact this n hn hw
  · rw [twoBursts, scripted_ports _ _ (lt_of_lt_of_le (by decide) hn)] at hw
    cases hw

theorem backToBack_delivers_twoBursts :
    (twoBursts.accepted 40).map Beat.aesKey = [0x0f, 0x0f, 0xf0, 0xf0] ∧
      (twoBursts.delivered 40).length = 4 ∧
      twoBursts.delivered 40 <+: (twoBursts.accepted 40).map
        fun b => (Fips197.cipher b.aesKey b.tdata, b.tlast) :=
  ⟨by decide +kernel, by decide +kernel,
    backToBack_delivers twoBursts (scripted_sourceHolds _ _ (by decide +kernel))
      twoBursts_quietWrites (scripted_keyDiscipline _ _ (by decide))
      (scripted_keyFirst _ _ (by decide)) 39⟩

end Run

end AesAccelerator
