import AesAccelerator.Core

/-! # The key expansion stays ahead of the local synchronization

There is no ready signal between the key expansion and the rounder: the rounder reads round key
`c` in cycle `c` of a synchronization and trusts it to be there.  `KeySync` is the invariant that
justifies it.

* `flags`: whenever the key expansion has a key to take, so has the rounder.  So the key
  expansion never takes a key in the middle of a synchronization unless the rounder restarts
  with it.
* `loaded`: once a pending key has been taken, the key expansion holds a schedule.
* `front`: the counters of the two units stay at least one apart, and the local round keys below
  the counter are already those of the loaded key. -/

namespace AesAccelerator

namespace Core

variable [Rom256x1]

/-- The key whose schedule the key expansion holds or is generating. -/
def loadedKey (c : Core) : AesMatrix := c.keys.expandedKeys 0

/-- The local round keys below `n` are those of `key`. -/
def HoldsBelow (c : Core) (key : AesMatrix) (n : ℕ) : Prop :=
  ∀ j : Fin 11, (j : ℕ) < n → c.rounder1.roundKeys j = KeyExpansion.schedule key j

/-- The local round keys are the whole schedule of `key`. -/
def Holds (c : Core) (key : AesMatrix) : Prop :=
  ∀ j : Fin 11, c.rounder1.roundKeys j = KeyExpansion.schedule key j

/-- The local round keys are copied from the loaded key, or are about to be. -/
def FollowsLoaded (c : Core) : Prop :=
  (c.keyChangePendingRounder = true ∧ c.keyChangePendingKeyExpansion = false) ∨
    c.rounder1.refreshState = .syncing

structure KeySync (c : Core) : Prop where
  flags : c.keyChangePendingKeyExpansion = true → c.keyChangePendingRounder = true
  loaded : c.FollowsLoaded → c.keys.Loaded
  front : c.rounder1.refreshState = .syncing →
    c.rounder1.keySyncingCounter ≤ 10 ∧
      (c.keys.state = .roundKeyGeneration →
        c.rounder1.keySyncingCounter + 1 ≤ c.keys.roundCounter) ∧
      c.HoldsBelow c.loadedKey c.rounder1.keySyncingCounter

/-- A reset clears both flags and stops the synchronization and the transaction. -/
theorem not_followsLoaded_reset {c : Core} {p : CorePorts} (h : p.rst = true) :
    ¬ (c.step p).FollowsLoaded := by
  obtain ⟨hR, -, hs, -⟩ := step_reset (c := c) h
  rintro (⟨hl, -⟩ | hl)
  · rw [hR] at hl
    cases hl
  · rw [hs] at hl
    cases hl

theorem keySync_reset {c : Core} {p : CorePorts} (h : p.rst = true) : (c.step p).KeySync := by
  obtain ⟨-, hK, hs, -⟩ := step_reset (c := c) h
  refine ⟨fun hf => ?_, fun hf => absurd hf (not_followsLoaded_reset h), fun hf => ?_⟩
  · rw [hK] at hf
    cases hf
  · rw [hs] at hf
    cases hf

/-! ### The key expansion in one cycle -/

/-- The loaded key changes only when the key expansion takes a key. -/
theorem step_loadedKey {c : Core} {p : CorePorts} (h : p.rst = false)
    (hk : c.keyExpansionAck p = true ∨ c.keys.Loaded) :
    (c.step p).loadedKey = if c.keyExpansionAck p then p.aesKey else c.loadedKey :=
  KeyExpansion.step_expandedKeys_zero (p := c.keysPorts p) h hk

/-- A generation that is not restarted gains one round key a cycle. -/
theorem step_generating {c : Core} {p : CorePorts} (h : p.rst = false) {n : ℕ}
    (hL : c.keys.Loaded) (hk : c.keyExpansionAck p = false)
    (hrc : c.keys.state = .roundKeyGeneration → n ≤ c.keys.roundCounter)
    (hg : (c.step p).keys.state = .roundKeyGeneration) :
    n + 1 ≤ (c.step p).keys.roundCounter := by
  cases hs : c.keys.state with
  | idle =>
      have e : (c.step p).keys = c.keys := KeyExpansion.step_idle (p := c.keysPorts p) h hk hs
      rw [e, hs] at hg
      cases hg
  | roundKeyGeneration =>
      have e : (c.step p).keys = c.keys.generate p.undefConstant :=
        KeyExpansion.step_generate (p := c.keysPorts p) h hk hs
      have hle := (hL.counters hs).2
      have := hrc hs
      rw [e]
      show n + 1 ≤ (c.keys.roundCounter + 1) % 16
      omega

omit [Rom256x1] in
/-- When the rounder has a key to follow, the key expansion takes it now or has taken it. -/
theorem taken_or_follows {c : Core} {p : CorePorts}
    (h : c.keyChangePendingRounder = true ∨ c.rounder1.refreshState = .syncing) :
    c.keyExpansionAck p = true ∨ c.FollowsLoaded := by
  cases hs : c.rounder1.refreshState with
  | syncing => exact Or.inr (Or.inr hs)
  | idle =>
      have hR := h.resolve_right (by rw [hs]; decide)
      cases hK : c.keyChangePendingKeyExpansion with
      | true => exact Or.inl (keyExpansionAck_iff.mpr ⟨hK, Or.inl hs⟩)
      | false => exact Or.inr (Or.inl ⟨hR, hK⟩)

/-- The rounder starts to follow the loaded key only when the key expansion has taken it. -/
theorem followsLoaded_step {c : Core} {p : CorePorts} (h : p.rst = false)
    (hf : (c.step p).FollowsLoaded) : c.keyExpansionAck p = true ∨ c.FollowsLoaded := by
  rcases hf with ⟨hR, hK⟩ | hs
  · rw [step_pendingRounder h] at hR
    rw [step_pendingKeyExpansion h] at hK
    have hw : p.aesKeyWrite = false := (Bool.or_eq_false_iff.mp hK).1
    simp only [hw, Bool.false_or, Bool.and_eq_true] at hR
    exact taken_or_follows (Or.inl hR.1)
  · cases step_refresh_cases (c := c) h with
    | rest _ _ hs' | finish _ _ _ hs' => rw [hs'] at hs; cases hs
    | begin _ hack => exact taken_or_follows (Or.inl (rounderKeyAck_iff.mp hack).1)
    | restart hs₀ | copy hs₀ => exact taken_or_follows (Or.inr hs₀)

/-! ### Consequences within one state -/

section state
variable {c : Core} {p : CorePorts} (hI : c.KeySync)
include hI

/-- In the middle of a synchronization the key expansion takes a key only together with the
rounder. -/
theorem KeySync.ack_of_syncing (hs : c.rounder1.refreshState = .syncing)
    (hk : c.keyExpansionAck p = true) : c.rounderKeyAck = true := by
  obtain ⟨hpend, hidle⟩ := keyExpansionAck_iff.mp hk
  have hT := hidle.resolve_left (by rw [hs]; decide)
  exact rounderKeyAck_iff.mpr ⟨hI.flags hpend, hT⟩

/-- The round key on the bus is the one the rounder asks for. -/
theorem KeySync.selectedKey_eq (hs : c.rounder1.refreshState = .syncing) :
    c.selectedKey p = KeyExpansion.schedule c.loadedKey c.rounder1.keySyncingCounter := by
  obtain ⟨hle, hrc, -⟩ := hI.front hs
  have hL := hI.loaded (Or.inr hs)
  have hlt : c.rounder1.keySyncingCounter < 11 := by omega
  show readAt c.keys.expandedKeys c.rounder1.keySyncingCounter p.undefKey = _
  rw [readAt_of_lt _ _ hlt]
  exact hL.written ⟨_, hlt⟩ fun hg => hrc hg

/-- After this cycle one more local round key belongs to the loaded key. -/
theorem KeySync.writeAt_eq (hs : c.rounder1.refreshState = .syncing) {j : Fin 11}
    (hj : (j : ℕ) ≤ c.rounder1.keySyncingCounter) :
    writeAt c.rounder1.roundKeys c.rounder1.keySyncingCounter (c.selectedKey p) j =
      KeyExpansion.schedule c.loadedKey j := by
  obtain ⟨-, -, hbelow⟩ := hI.front hs
  rcases Nat.lt_or_eq_of_le hj with hlt | heq
  · rw [writeAt_ne _ _ (Nat.ne_of_lt hlt)]
    exact hbelow j hlt
  · rw [AesAccelerator.writeAt_eq _ _ heq, hI.selectedKey_eq hs, heq]

end state

/-! ### The invariant is kept -/

section step
variable {c : Core} {p : CorePorts} (hI : c.KeySync) (h : p.rst = false)
include hI h

theorem KeySync.step_loaded (hk : c.keyExpansionAck p = true ∨ c.FollowsLoaded) :
    (c.step p).keys.Loaded :=
  KeyExpansion.loaded_step (p := c.keysPorts p) h (hk.imp id hI.loaded)

theorem KeySync.step_flags : (c.step p).keyChangePendingKeyExpansion = true →
    (c.step p).keyChangePendingRounder = true := by
  rw [step_pendingKeyExpansion h, step_pendingRounder h]
  cases p.aesKeyWrite with
  | true => exact fun _ => rfl
  | false =>
      simp only [Bool.false_or, Bool.and_eq_true, Bool.not_eq_true']
      rintro ⟨hK, hkept⟩
      refine ⟨hI.flags hK, Bool.eq_false_iff.mpr fun hack => ?_⟩
      have hT := (rounderKeyAck_iff.mp hack).2
      rw [keyExpansionAck_iff.mpr ⟨hK, Or.inr hT⟩] at hkept
      cases hkept

/-- The loaded key stays for as long as a synchronization is not restarted. -/
theorem KeySync.loadedKey_of_noAck (hs : c.rounder1.refreshState = .syncing)
    (hack : c.rounderKeyAck = false) :
    c.keyExpansionAck p = false ∧ (c.step p).loadedKey = c.loadedKey := by
  have hk : c.keyExpansionAck p = false := by
    by_contra hcon
    rw [hI.ack_of_syncing hs (Bool.not_eq_false _ ▸ hcon)] at hack
    cases hack
  refine ⟨hk, ?_⟩
  rw [step_loadedKey h (Or.inr (hI.loaded (Or.inr hs))), hk]
  rfl

theorem keySync_step : (c.step p).KeySync := by
  have hfirst : (c.step p).keys.Loaded → (c.step p).keys.state = .roundKeyGeneration →
      0 + 1 ≤ (c.step p).keys.roundCounter := by
    intro hL hg
    have := (hL.counters hg).1
    omega
  refine ⟨hI.step_flags h, ?_, ?_⟩
  · exact fun hf => hI.step_loaded h (followsLoaded_step h hf)
  · intro hs
    cases step_refresh_cases (c := c) h with
    | rest _ _ hs' | finish _ _ _ hs' => rw [hs'] at hs; cases hs
    | begin _ hack _ hc' =>
        have hL := hI.step_loaded h (taken_or_follows (Or.inl (rounderKeyAck_iff.mp hack).1))
        rw [hc']
        exact ⟨by omega, hfirst hL, fun j hj => absurd hj (by omega)⟩
    | restart hs₀ _ _ hc' =>
        have hL := hI.step_loaded h (Or.inr (Or.inr hs₀))
        rw [hc']
        exact ⟨by omega, hfirst hL, fun j hj => absurd hj (by omega)⟩
    | copy hs₀ hack hne _ hc' hk' =>
        obtain ⟨hle, hrc, -⟩ := hI.front hs₀
        have hL := hI.loaded (Or.inr hs₀)
        obtain ⟨hk, hkey⟩ := hI.loadedKey_of_noAck h hs₀ hack
        have hcount : (c.step p).rounder1.keySyncingCounter =
            c.rounder1.keySyncingCounter + 1 := by rw [hc']; omega
        rw [hcount]
        refine ⟨by omega, step_generating h hL hk hrc, fun j hj => ?_⟩
        rw [hk', hkey]
        exact hI.writeAt_eq hs₀ (by omega)

end step

end Core

end AesAccelerator
