import AesAccelerator.Twins

/-! # Loading a key without traffic

Between packets, with nothing on the read stream, a written key is taken by both units at once
and copied in eleven cycles: `AtRest true`, then `Copying key 0, …, Copying key 10`, then
`AtRest false` with the schedule of the key in the local round keys.  The last local round key is
the last to be written (`Run.copying`). -/

namespace AesAccelerator

namespace Core

variable [Rom256x1]

/-- No synchronization, no transaction, and a key is pending for both units or for none. -/
structure AtRest (c : Core) (pending : Bool) : Prop where
  refresh : c.rounder1.refreshState = .idle
  transaction : c.rounder1.transactionState = .transactionIdle
  rounder : c.keyChangePendingRounder = pending
  expansion : c.keyChangePendingKeyExpansion = pending

/-- Round key `i` of `key` is copied in this cycle, and nothing else goes on. -/
structure Copying (c : Core) (key : AesMatrix) (i : ℕ) : Prop where
  refresh : c.rounder1.refreshState = .syncing
  counter : c.rounder1.keySyncingCounter = i
  transaction : c.rounder1.transactionState = .transactionIdle
  rounder : c.keyChangePendingRounder = false
  expansion : c.keyChangePendingKeyExpansion = false
  loaded : c.loadedKey = key

theorem atRest_reset {c : Core} {p : CorePorts} (h : p.rst = true) :
    (c.step p).AtRest false := by
  obtain ⟨hR, hK, hs, hT⟩ := step_reset (c := c) h
  exact ⟨hs, hT, hR, hK⟩

section step
variable {c : Core} {p : CorePorts} {key : AesMatrix} (h : p.rst = false)
  (hoffer : p.readTvalid = false)
include h hoffer

theorem transaction_rest (hT : c.rounder1.transactionState = .transactionIdle) :
    (c.step p).rounder1.transactionState = .transactionIdle := by
  rw [step_transaction_idle h hT, hoffer]
  rfl

theorem AtRest.step (hc : c.AtRest false) : (c.step p).AtRest p.aesKeyWrite := by
  have hack := noAck_of_notPending hc.rounder
  refine ⟨?_, transaction_rest h hoffer hc.transaction, ?_, ?_⟩
  · rw [step_refreshState, hack, hc.refresh]
    simp
  · rw [step_pendingRounder h, hc.rounder, Bool.false_and, Bool.or_false]
  · rw [step_pendingKeyExpansion h, hc.expansion, Bool.false_and, Bool.or_false]

/-- Both units take the key in the same cycle. -/
theorem AtRest.begin (hc : c.AtRest true) (hw : p.aesKeyWrite = false) :
    (c.step p).Copying p.aesKey 0 := by
  have hR : c.rounderKeyAck = true := rounderKeyAck_iff.mpr ⟨hc.rounder, hc.transaction⟩
  have hK : c.keyExpansionAck p = true :=
    keyExpansionAck_iff.mpr ⟨hc.expansion, Or.inl hc.refresh⟩
  refine ⟨?_, ?_, transaction_rest h hoffer hc.transaction, ?_, ?_, ?_⟩
  · rw [step_refreshState, h, hR]
    rfl
  · rw [step_keySyncingCounter, hR, Bool.or_true]
    rfl
  · rw [step_pendingRounder h, hw, hR, Bool.not_true, Bool.and_false]
    rfl
  · rw [step_pendingKeyExpansion h, hw, hK, Bool.not_true, Bool.and_false]
    rfl
  · rw [step_loadedKey h (Or.inl hK), hK]
    rfl

theorem Copying.step {i : ℕ} (hI : c.KeySync) (hc : c.Copying key i) (hi : i < 10)
    (hw : p.aesKeyWrite = false) : (c.step p).Copying key (i + 1) := by
  have hack := noAck_of_notPending hc.rounder
  refine ⟨?_, ?_, transaction_rest h hoffer hc.transaction, ?_, ?_, ?_⟩
  · rw [step_refreshState, h, hack, hc.refresh, hc.counter]
    simp [Nat.ne_of_lt hi]
  · rw [step_keySyncingCounter, h, hack, hc.refresh, hc.counter]
    simp [Nat.ne_of_lt hi]
    omega
  · rw [step_pendingRounder h, hw, hc.rounder]
    rfl
  · rw [step_pendingKeyExpansion h, hw, hc.expansion]
    rfl
  · rw [(hI.loadedKey_of_noAck h hc.refresh hack).2, hc.loaded]

theorem Copying.done (hI : c.KeySync) (hc : c.Copying key 10) :
    (c.step p).AtRest p.aesKeyWrite ∧ (c.step p).Holds key := by
  have hack := noAck_of_notPending hc.rounder
  refine ⟨⟨?_, transaction_rest h hoffer hc.transaction, ?_, ?_⟩, ?_⟩
  · rw [step_refreshState, hack, hc.counter]
    simp
  · rw [step_pendingRounder h, hc.rounder, Bool.false_and, Bool.or_false]
  · rw [step_pendingKeyExpansion h, hc.expansion, Bool.false_and, Bool.or_false]
  · intro j
    cases step_refresh_cases (c := c) h with
    | rest hs | begin hs => rw [hc.refresh] at hs; cases hs
    | restart _ ha => rw [hack] at ha; cases ha
    | copy _ _ hne => exact absurd hc.counter hne
    | finish _ _ hcount _ _ hk' =>
        rw [hk', ← hc.loaded]
        exact hI.writeAt_eq hc.refresh (by omega)

end step

theorem AtRest.keys_kept {c : Core} {p : CorePorts} {b : Bool} (hc : c.AtRest b) :
    (c.step p).rounder1.roundKeys = c.rounder1.roundKeys := by
  funext j
  rw [step_roundKeys, if_neg]
  rintro ⟨-, hs, -⟩
  rw [hc.refresh] at hs
  cases hs

theorem Copying.last_kept {c : Core} {p : CorePorts} {key : AesMatrix} {i : ℕ}
    (hc : c.Copying key i) (hi : i < 10) :
    (c.step p).rounder1.roundKeys (Fin.last 10) = c.rounder1.roundKeys (Fin.last 10) := by
  rw [step_roundKeys, if_neg]
  rintro ⟨-, -, hcount⟩
  rw [hc.counter, Fin.val_last] at hcount
  omega

end Core

/-- From the cycle in which both units take the key, round key `i` is copied `i + 1` cycles later,
and the last one is kept until then. -/
theorem Run.copying [Rom256x1] {x : Run} {n : ℕ} (hrest : (x.state (n + 1)).AtRest true)
    (hquiet : ∀ m, n < m → m < n + 12 →
      x.rst m = false ∧ x.offers m = false ∧ (x.ports m).aesKeyWrite = false) :
    ∀ i ≤ 10, (x.state (n + 2 + i)).Copying (x.ports (n + 1)).aesKey i ∧
      (x.state (n + 2 + i)).rounder1.roundKeys (Fin.last 10) =
        (x.state (n + 1)).rounder1.roundKeys (Fin.last 10) := by
  intro i
  induction i with
  | zero =>
      intro _
      obtain ⟨h, hoffer, hw⟩ := hquiet (n + 1) (by omega) (by omega)
      exact ⟨hrest.begin h hoffer hw, congrFun hrest.keys_kept _⟩
  | succ i ih =>
      intro hi
      obtain ⟨hc, hkept⟩ := ih (by omega)
      obtain ⟨h, hoffer, hw⟩ := hquiet (n + 2 + i) (by omega) (by omega)
      have hI : (x.state (n + 2 + i)).KeySync := by
        rw [show n + 2 + i = n + 1 + i + 1 by omega]
        exact x.keySync _
      refine ⟨hc.step h hoffer hI (by omega) hw, ?_⟩
      rw [← hkept]
      exact hc.last_kept (by omega)

end AesAccelerator
