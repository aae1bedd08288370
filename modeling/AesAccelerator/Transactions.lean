import AesAccelerator.Rounder
import AesAccelerator.Lib.Clocked

/-! # What keeps a transaction alive

Runs of the rounder alone, with any keys arriving at any time.  `transactionState` is set by an
offer, whether the beat is accepted or not, and cleared by the end of any packet; so the packet
that set it and the one that clears it need not be the same.  `Pending` is what a transaction that
is under way can be waiting for: a beat that is still on the read stream, the rest of an open
packet, or a last beat in the pipeline (`ongoing_pending`). -/

namespace AesAccelerator

open ShiftPipeline

/-- A run of `aes_rounder`: nothing is known of the registers before the reset. -/
structure RounderRun where
  powerUp : Rounder
  ports : ℕ → RounderPorts
  reset_first : (ports 0).rst = true

namespace RounderRun

section runs
variable [Rom256x1] (x : RounderRun)

/-- The registers at the start of cycle `n`. -/
def state : ℕ → Rounder := Clocked.trace Rounder.step x.powerUp x.ports

def rst (n : ℕ) : Bool := (x.ports n).rst

def offers (n : ℕ) : Bool := (x.ports n).readTvalid

def accepts (n : ℕ) : Bool := (x.ports n).readTvalid && (x.state n).readTready (x.ports n)

/-- An offered beat stays on the read stream until it is accepted, resets apart. -/
def SourceHolds : Prop :=
  ∀ n, x.rst n = false → x.rst (n + 1) = false → x.offers n = true → x.accepts n = false →
    (x.ports (n + 1)).readTvalid = true ∧
      (x.ports (n + 1)).dataMatrixIn = (x.ports n).dataMatrixIn ∧
      (x.ports (n + 1)).readTlast = (x.ports n).readTlast

/-- A beat was offered in the cycle before and not accepted. -/
def waiting : ℕ → Bool
  | 0 => false
  | n + 1 => !x.rst n && x.offers n && !x.accepts n

/-- The last beat accepted since the reset did not end its packet. -/
def packetOpen : ℕ → Bool
  | 0 => false
  | n + 1 => !x.rst n && if x.accepts n then !(x.ports n).readTlast else packetOpen n

/-- What a transaction can be waiting for in cycle `n`. -/
def Pending (n : ℕ) : Prop :=
  x.waiting n = true ∨ x.packetOpen n = true ∨
    ∃ k, (x.state n).parallelStatusPipeline k = ⟨true, true⟩

theorem state_succ (n : ℕ) : x.state (n + 1) = (x.state n).step (x.ports n) := rfl

variable {x} {n : ℕ}

theorem offers_of_waiting (hsource : x.SourceHolds) (h : x.rst n = false)
    (hw : x.waiting n = true) : x.offers n = true := by
  cases n with
  | zero => cases hw
  | succ n =>
      simp only [waiting, Bool.and_eq_true, Bool.not_eq_true'] at hw
      obtain ⟨⟨hr, ho⟩, ha⟩ := hw
      exact (hsource n hr h ho ha).1

/-- An offered beat waits, opens or continues a packet, or enters as its last beat. -/
theorem pending_of_offers (h : x.rst n = false) (hoffer : x.offers n = true) :
    x.Pending (n + 1) := by
  cases hacc : x.accepts n with
  | false =>
      left
      simp [waiting, h, hoffer, hacc]
  | true =>
      right
      cases hlast : (x.ports n).readTlast with
      | false =>
          left
          simp [packetOpen, h, hacc, hlast]
      | true =>
          right
          have hvalid : (x.ports n).readTvalid = true := hoffer
          have hs : (x.state n).stall (x.ports n) = false := by
            simpa [accepts, Rounder.readTready, hvalid] using hacc
          refine ⟨0, ?_⟩
          rw [state_succ, Rounder.step_status_of_move h hs, advance_zero, hvalid, hlast]

/-- The last beat of a packet moves on through the pipeline until it ends the transaction. -/
theorem last_step (h : x.rst n = false) (hT : (x.state n).transactionState = .ongoing)
    {k : Fin 11} (hk : (x.state n).parallelStatusPipeline k = ⟨true, true⟩) :
    (x.state (n + 1)).transactionState = .transactionIdle ∨
      ∃ k, (x.state (n + 1)).parallelStatusPipeline k = ⟨true, true⟩ := by
  cases hs : (x.state n).stall (x.ports n) with
  | true =>
      right
      refine ⟨k, ?_⟩
      rw [state_succ, Rounder.step_status_of_stall h hs, hk]
  | false =>
      revert hk
      refine Fin.lastCases (fun hk => ?_) (fun k hk => ?_) k
      · left
        have hv : (x.state n).writeTvalid = true := congrArg Metadata.valid hk
        have hl : (x.state n).writeTlast = true := congrArg Metadata.last hk
        rw [state_succ, Rounder.step_transaction_ongoing h hT, hl, hv,
          Rounder.writeTready_of_move hs hv]
        rfl
      · right
        refine ⟨k.succ, ?_⟩
        rw [state_succ, Rounder.step_status_of_move h hs, advance_succ, hk]

theorem pending_step (hsource : x.SourceHolds) (h : x.rst n = false)
    (ih : (x.state n).transactionState = .ongoing → x.Pending n)
    (hongoing : (x.state (n + 1)).transactionState = .ongoing) : x.Pending (n + 1) := by
  cases hoffer : x.offers n with
  | true => exact pending_of_offers h hoffer
  | false =>
      have hinvalid : (x.ports n).readTvalid = false := hoffer
      have hacc : x.accepts n = false := by
        rw [accepts, hinvalid]
        rfl
      have hT : (x.state n).transactionState = .ongoing := by
        cases hT : (x.state n).transactionState with
        | ongoing => rfl
        | transactionIdle =>
            rw [state_succ, Rounder.step_transaction_idle h hT, hinvalid] at hongoing
            cases hongoing
      cases ih hT with
      | inl hw =>
          rw [offers_of_waiting hsource h hw] at hoffer
          cases hoffer
      | inr hrest =>
          right
          cases hrest with
          | inl hopen =>
              left
              simp [packetOpen, h, hacc, hopen]
          | inr hlast =>
              right
              obtain ⟨k, hk⟩ := hlast
              cases last_step h hT hk with
              | inl hidle =>
                  rw [hidle] at hongoing
                  cases hongoing
              | inr hk' => exact hk'

/-- In every reachable state, a transaction that is under way is waiting for something. -/
theorem ongoing_pending (hsource : x.SourceHolds) : ∀ n,
    (x.state (n + 1)).transactionState = .ongoing → x.Pending (n + 1) := by
  apply Clocked.since_reset (r := x.rst)
    (P := fun n => (x.state n).transactionState = .ongoing → x.Pending n) x.reset_first
  · intro n h hongoing
    rw [state_succ, (Rounder.step_reset h).1] at hongoing
    cases hongoing
  · intro n h ih
    exact pending_step hsource h ih

/-- **A transaction does not outlive its packets**: while one is under way a beat that was offered
before is still on the read stream, or a packet is open, or the last beat of one is in the
pipeline.  So when every accepted packet is closed and has left and nothing is offered, none is. -/
theorem transaction_accounted (x : RounderRun) (hsource : x.SourceHolds) (n : ℕ) :
    ((x.state (n + 1)).transactionState = .ongoing →
      (x.waiting (n + 1) = true ∧ (x.rst (n + 1) = false → x.offers (n + 1) = true)) ∨
        x.packetOpen (n + 1) = true ∨
        ∃ k, ((x.state (n + 1)).parallelStatusPipeline k).valid = true ∧
          ((x.state (n + 1)).parallelStatusPipeline k).last = true) ∧
    (x.rst (n + 1) = false → x.offers (n + 1) = false → x.packetOpen (n + 1) = false →
      (∀ k, ((x.state (n + 1)).parallelStatusPipeline k).valid = false) →
      (x.state (n + 1)).transactionState = .transactionIdle) := by
  constructor
  · intro hongoing
    cases ongoing_pending hsource n hongoing with
    | inl hw => exact Or.inl ⟨hw, fun h => offers_of_waiting hsource h hw⟩
    | inr hrest =>
        right
        cases hrest with
        | inl hopen => exact Or.inl hopen
        | inr hlast =>
            right
            obtain ⟨k, hk⟩ := hlast
            refine ⟨k, ?_⟩
            rw [hk]
            exact ⟨rfl, rfl⟩
  · intro h hoffer hopen hdrained
    cases hT : (x.state (n + 1)).transactionState with
    | transactionIdle => rfl
    | ongoing =>
        rcases ongoing_pending hsource n hT with hw | ho | ⟨k, hk⟩
        · rw [offers_of_waiting hsource h hw] at hoffer
          cases hoffer
        · rw [hopen] at ho
          cases ho
        · have := hdrained k
          rw [hk] at this
          cases this

end runs

/-- A packet of one beat that is offered together with a new key and held up by it twice. -/
def heldBeat : RounderRun where
  powerUp := ⟨fun _ => 0xff, fun _ => 0xff, .ongoing, .syncing, 7, fun _ => ⟨true, true⟩, 0xff⟩
  ports n :=
    { rst := n == 0, keyMatrix := 0x0f, newKey := n == 1, dataMatrixIn := 0x1234,
      readTvalid := n == 1 || n == 2 || n == 3, readTlast := true, writeTready := true }
  reset_first := rfl

theorem heldBeat_sourceHolds : heldBeat.SourceHolds := by
  intro n _ _ hoffer hacc
  have hn : n = 1 ∨ n = 2 ∨ n = 3 := by
    simp only [offers, heldBeat, Bool.or_eq_true, beq_iff_eq] at hoffer
    omega
  rcases hn with rfl | rfl | rfl
  · exact ⟨rfl, rfl, rfl⟩
  · exact ⟨rfl, rfl, rfl⟩
  · have : heldBeat.accepts 3 = true := by decide +kernel
    rw [this] at hacc
    cases hacc

theorem transaction_accounted_heldBeat :
    (heldBeat.state 2).transactionState = .ongoing ∧ heldBeat.accepts 2 = false ∧
      (heldBeat.state 20).transactionState = .transactionIdle :=
  ⟨by decide +kernel, by decide +kernel,
    (transaction_accounted heldBeat heldBeat_sourceHolds 19).2 rfl rfl (by decide +kernel)
      (by decide +kernel)⟩

end RounderRun

end AesAccelerator
