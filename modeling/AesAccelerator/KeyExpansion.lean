import AesAccelerator.Tables

/-! # The key expansion unit

`hdl/KeyExpansion/key_expansion.sv`.  The unit latches a key when it consumes a pending one and
then writes one round key a cycle, for ten cycles.  It can be restarted at any point.

`step` is the `always` block; assignments are nonblocking, so every right-hand side reads the
registers of the old state.  The last generation cycle fetches `ROUND_G_CONSTANTS[10]`, which is
past the end of the table; what that fetch yields is an input of the model (`undefConstant`). -/

namespace AesAccelerator

inductive KeyExpansionState where
  | idle
  | roundKeyGeneration
deriving DecidableEq, Repr

/-- Round keys are numbered by the literals of `Fin 11`. -/
instance elevenRoundKeys : @NeZero ℕ Zero.ofOfNat0 11 := ⟨by decide⟩

/-- The registers of `key_expansion`. -/
structure KeyExpansion where
  expandedKeys : Fin 11 → AesMatrix
  roundCounterPrevious : ℕ
  roundCounter : ℕ
  roundConstant : BitVec 8
  state : KeyExpansionState
  previousKey : AesMatrix

/-- The inputs of `key_expansion` in one cycle (`round` only selects the output `round_key`). -/
structure KeyExpansionPorts where
  rst : Bool
  key : AesMatrix
  pendingKey : Bool
  rounderSyncing : Bool
  transactionOngoing : Bool
  /-- What a read past the end of `ROUND_G_CONSTANTS` yields in this cycle. -/
  undefConstant : BitVec 8

/-- `key_consumed`. -/
def KeyExpansionPorts.keyConsumed (p : KeyExpansionPorts) : Bool :=
  p.pendingKey && !(p.rounderSyncing && p.transactionOngoing)

namespace KeyExpansion

variable [Rom256x1]

/-- `g_of_column`: reads the register `previous_key` through the four lookup memories. -/
def gOfColumn (previousKey : AesMatrix) (roundConstant : BitVec 8) : BitVec 32 :=
  let expansionSbox (i : Fin 4) := lookupTable256x8 sBoxTable (previousKey.at 3 i)
  expansionSbox 0 ++ expansionSbox 3 ++ expansionSbox 2 ++ (expansionSbox 1 ^^^ roundConstant)

/-- `expand_key`. -/
def expandKey (previousKey : AesMatrix) (roundConstant : BitVec 8) (previous : AesMatrix) :
    AesMatrix :=
  let gLastColumn := gOfColumn previousKey roundConstant
  let newColumn1 := previous.col 0 ^^^ gLastColumn
  let newColumn2 := previous.col 1 ^^^ newColumn1
  let newColumn3 := previous.col 2 ^^^ newColumn2
  let newColumn4 := previous.col 3 ^^^ newColumn3
  newColumn4 ++ newColumn3 ++ newColumn2 ++ newColumn1

/-- The output `round_key`, where `undef` is what a read past the end of the array yields. -/
def roundKey (k : KeyExpansion) (round : ℕ) (undef : AesMatrix) : AesMatrix :=
  readAt k.expandedKeys round undef

/-- The `ROUND_KEY_GENERATION` branch without a restart. -/
def generate (k : KeyExpansion) (undefConstant : BitVec 8) : KeyExpansion where
  expandedKeys :=
    writeAt k.expandedKeys k.roundCounter (expandKey k.previousKey k.roundConstant k.previousKey)
  previousKey := expandKey k.previousKey k.roundConstant k.previousKey
  roundConstant := readAt roundGConstants k.roundCounter undefConstant
  roundCounterPrevious := (k.roundCounterPrevious + 1) % 16
  roundCounter := (k.roundCounter + 1) % 16
  state := if k.roundCounter = 10 then .idle else k.state

/-- The assignments that start, or restart, the generation with `key`. -/
def start (k : KeyExpansion) (key : AesMatrix) : KeyExpansion :=
  { k with
    previousKey := key
    expandedKeys := writeAt k.expandedKeys 0 key
    state := .roundKeyGeneration
    roundCounterPrevious := 0
    roundCounter := 1
    roundConstant := roundGConstants 0 }

/-- The `always` block. -/
def step (k : KeyExpansion) (p : KeyExpansionPorts) : KeyExpansion :=
  if p.rst then
    { k with previousKey := 0, roundCounterPrevious := 0, roundCounter := 1, state := .idle }
  else
    match k.state with
    | .idle =>
        if p.pendingKey && !(p.rounderSyncing && p.transactionOngoing) then k.start p.key else k
    | .roundKeyGeneration =>
        if p.pendingKey && !(p.rounderSyncing && p.transactionOngoing) then
          (k.generate p.undefConstant).start p.key
        else k.generate p.undefConstant

/-- The key schedule the unit is to compute: `expand_key` iterated from the key with the round
constants of the table. -/
def schedule (key : AesMatrix) : ℕ → AesMatrix
  | 0 => key
  | n + 1 => expandKey (schedule key n) (readAt roundGConstants n 0) (schedule key n)

theorem schedule_zero (key : AesMatrix) : schedule key 0 = key := rfl

theorem schedule_succ (key : AesMatrix) {n : ℕ} (h : n < 10) :
    schedule key (n + 1) =
      expandKey (schedule key n) (roundGConstants ⟨n, h⟩) (schedule key n) := by
  rw [schedule, readAt_of_lt _ _ h]

/-- The columns of the next round key, each from the one before it. -/
theorem expandKey_cols (previousKey : AesMatrix) (roundConstant : BitVec 8)
    (previous : AesMatrix) :
    let next := expandKey previousKey roundConstant previous
    next.col 0 = previous.col 0 ^^^ gOfColumn previousKey roundConstant ∧
      next.col 1 = previous.col 1 ^^^ next.col 0 ∧
      next.col 2 = previous.col 2 ^^^ next.col 1 ∧
      next.col 3 = previous.col 3 ^^^ next.col 2 := by
  intro next
  let newColumn1 := previous.col 0 ^^^ gOfColumn previousKey roundConstant
  let newColumn2 := previous.col 1 ^^^ newColumn1
  let newColumn3 := previous.col 2 ^^^ newColumn2
  let newColumn4 := previous.col 3 ^^^ newColumn3
  have lanes : ∀ c, next.col c = ![newColumn1, newColumn2, newColumn3, newColumn4] c :=
    fun c => Packed.lane_pack (l := 32) ![newColumn1, newColumn2, newColumn3, newColumn4] c
  rw [lanes 0, lanes 1, lanes 2, lanes 3]
  exact ⟨rfl, rfl, rfl, rfl⟩

/-- A round key determines the one before it. -/
theorem expandKey_injective {a b : AesMatrix} (roundConstant : BitVec 8)
    (h : expandKey a roundConstant a = expandKey b roundConstant b) : a = b := by
  obtain ⟨a0, a1, a2, a3⟩ := expandKey_cols a roundConstant a
  obtain ⟨b0, b1, b2, b3⟩ := expandKey_cols b roundConstant b
  rw [h] at a0 a1 a2 a3
  have h3 : a.col 3 = b.col 3 := (BitVec.xor_left_inj _).mp (a3.symm.trans b3)
  have hg : gOfColumn a roundConstant = gOfColumn b roundConstant := by
    simp only [gOfColumn, AesMatrix.at, h3]
  rw [hg] at a0
  have h0 : a.col 0 = b.col 0 := (BitVec.xor_left_inj _).mp (a0.symm.trans b0)
  have h1 : a.col 1 = b.col 1 := (BitVec.xor_left_inj _).mp (a1.symm.trans b1)
  have h2 : a.col 2 = b.col 2 := (BitVec.xor_left_inj _).mp (a2.symm.trans b2)
  apply Packed.eq_of_lanes (l := 32)
  intro c
  fin_cases c
  · exact h0
  · exact h1
  · exact h2
  · exact h3

/-- A key is determined by any of its round keys. -/
theorem schedule_injective : ∀ (n : ℕ) {a b : AesMatrix}, schedule a n = schedule b n → a = b
  | 0, _, _, h => h
  | n + 1, _, _, h => schedule_injective n (expandKey_injective _ h)

/-! ### What one cycle does -/

theorem step_reset {k : KeyExpansion} {p : KeyExpansionPorts} (h : p.rst = true) :
    k.step p = { k with
      previousKey := 0, roundCounterPrevious := 0, roundCounter := 1, state := .idle } := by
  simp [step, h]

/-- A consumed key starts the generation, whatever the unit was doing. -/
theorem step_consumed {k : KeyExpansion} {p : KeyExpansionPorts} (h : p.rst = false)
    (hc : p.keyConsumed = true) : ∃ k' : KeyExpansion, k.step p = k'.start p.key := by
  cases hs : k.state with
  | idle =>
      refine ⟨k, ?_⟩
      simp only [step, h, hs, Bool.false_eq_true, if_false]
      exact if_pos hc
  | roundKeyGeneration =>
      refine ⟨k.generate p.undefConstant, ?_⟩
      simp only [step, h, hs, Bool.false_eq_true, if_false]
      exact if_pos hc

theorem step_idle {k : KeyExpansion} {p : KeyExpansionPorts} (h : p.rst = false)
    (hc : p.keyConsumed = false) (hs : k.state = .idle) : k.step p = k := by
  simp only [step, h, hs, Bool.false_eq_true, if_false]
  exact if_neg (ne_true_of_eq_false hc)

theorem step_generate {k : KeyExpansion} {p : KeyExpansionPorts} (h : p.rst = false)
    (hc : p.keyConsumed = false) (hs : k.state = .roundKeyGeneration) :
    k.step p = k.generate p.undefConstant := by
  simp only [step, h, hs, Bool.false_eq_true, if_false]
  exact if_neg (ne_true_of_eq_false hc)

theorem step_state (k : KeyExpansion) (p : KeyExpansionPorts) :
    (k.step p).state =
      if p.rst then .idle
      else if p.keyConsumed then .roundKeyGeneration
      else if k.state = .roundKeyGeneration ∧ k.roundCounter = 10 then .idle
      else k.state := by
  cases h : p.rst with
  | true => rw [step_reset h]; rfl
  | false =>
      cases hc : p.keyConsumed with
      | true =>
          obtain ⟨k', hk'⟩ := k.step_consumed h hc
          rw [hk']
          rfl
      | false =>
          cases hs : k.state with
          | idle => rw [step_idle h hc hs, hs]; rfl
          | roundKeyGeneration =>
              rw [step_generate h hc hs]
              simp [generate, hs]

theorem step_roundCounter (k : KeyExpansion) (p : KeyExpansionPorts) :
    (k.step p).roundCounter =
      if p.rst || p.keyConsumed then 1
      else if k.state = .roundKeyGeneration then (k.roundCounter + 1) % 16
      else k.roundCounter := by
  cases h : p.rst with
  | true => rw [step_reset h]; rfl
  | false =>
      cases hc : p.keyConsumed with
      | true =>
          obtain ⟨k', hk'⟩ := k.step_consumed h hc
          rw [hk']
          rfl
      | false =>
          cases hs : k.state with
          | idle => rw [step_idle h hc hs]; rfl
          | roundKeyGeneration => rw [step_generate h hc hs]; rfl

/-! ### The schedule under construction -/

/-- The unit holds the schedule of the single key `expanded_keys[0]`: complete when idle, and
otherwise up to the round counter, with the working registers in step. -/
structure Loaded (k : KeyExpansion) : Prop where
  /-- The counters stay together, within the array, while generating. -/
  counters : k.state = .roundKeyGeneration →
    k.roundCounter = k.roundCounterPrevious + 1 ∧ k.roundCounter ≤ 10
  /-- `previous_key` is the last round key written and `round_constant` belongs to the next. -/
  working : k.state = .roundKeyGeneration →
    k.previousKey = schedule (k.expandedKeys 0) k.roundCounterPrevious ∧
      k.roundConstant = readAt roundGConstants k.roundCounterPrevious 0
  /-- The round keys written so far. -/
  written : ∀ j : Fin 11, (k.state = .roundKeyGeneration → (j : ℕ) < k.roundCounter) →
    k.expandedKeys j = schedule (k.expandedKeys 0) j

omit [Rom256x1] in
theorem start_expandedKeys_zero (k : KeyExpansion) (key : AesMatrix) :
    (k.start key).expandedKeys 0 = key := by
  simp [start, writeAt]

theorem loaded_start (k : KeyExpansion) (key : AesMatrix) : (k.start key).Loaded where
  counters _ := ⟨rfl, show 1 ≤ 10 by omega⟩
  working _ := by
    rw [start_expandedKeys_zero]
    exact ⟨rfl, rfl⟩
  written j hj := by
    have hj0 : (j : ℕ) < 1 := hj rfl
    obtain rfl : j = 0 := Fin.ext (by simpa using hj0)
    rw [start_expandedKeys_zero]
    rfl

theorem Loaded.generate {k : KeyExpansion} (h : k.Loaded) (hs : k.state = .roundKeyGeneration)
    (undefConstant : BitVec 8) : (k.generate undefConstant).Loaded := by
  obtain ⟨hc, hle⟩ := h.counters hs
  obtain ⟨hprev, hconst⟩ := h.working hs
  have hzero : (k.generate undefConstant).expandedKeys 0 = k.expandedKeys 0 :=
    writeAt_ne _ _ (by simp only [Fin.val_zero]; omega)
  have hnext : expandKey k.previousKey k.roundConstant k.previousKey =
      schedule (k.expandedKeys 0) k.roundCounter := by
    rw [hc, hprev, hconst]
    rfl
  have hrc : (k.generate undefConstant).roundCounter = k.roundCounter + 1 :=
    Nat.mod_eq_of_lt (by omega)
  have hrcp : (k.generate undefConstant).roundCounterPrevious = k.roundCounter := by
    rw [hc]
    exact Nat.mod_eq_of_lt (by omega)
  have hstate : (k.generate undefConstant).state = .roundKeyGeneration → k.roundCounter < 10 := by
    intro hg
    by_contra hcon
    have : k.roundCounter = 10 := by omega
    simp [KeyExpansion.generate, this] at hg
  refine ⟨fun hg => ?_, fun hg => ?_, fun j hj => ?_⟩
  · have := hstate hg
    rw [hrc, hrcp]
    omega
  · rw [hzero, hrcp]
    refine ⟨hnext, ?_⟩
    show readAt roundGConstants k.roundCounter undefConstant = _
    rw [readAt_of_lt _ _ (hstate hg), readAt_of_lt _ _ (hstate hg)]
  · rw [hzero]
    by_cases hjc : (j : ℕ) = k.roundCounter
    · rw [hjc, ← hnext]
      exact writeAt_eq _ _ hjc
    · have hlt : (j : ℕ) < k.roundCounter := by
        by_cases h10 : k.roundCounter = 10
        · omega
        · have := hj (by simp [KeyExpansion.generate, h10, hs])
          omega
      rw [← h.written j fun _ => hlt]
      exact writeAt_ne _ _ hjc

/-- From the first consumed key on, the unit always holds a schedule, complete or growing. -/
theorem loaded_step {k : KeyExpansion} {p : KeyExpansionPorts} (h : p.rst = false)
    (hk : p.keyConsumed = true ∨ k.Loaded) : (k.step p).Loaded := by
  cases hc : p.keyConsumed with
  | true =>
      obtain ⟨k', hk'⟩ := step_consumed h hc
      rw [hk']
      exact loaded_start k' p.key
  | false =>
      have hL : k.Loaded := hk.resolve_left (by simp [hc])
      cases hs : k.state with
      | idle => rwa [step_idle h hc hs]
      | roundKeyGeneration => rw [step_generate h hc hs]; exact hL.generate hs _

/-- The key that the schedule belongs to changes only when a key is consumed. -/
theorem step_expandedKeys_zero {k : KeyExpansion} {p : KeyExpansionPorts} (h : p.rst = false)
    (hk : p.keyConsumed = true ∨ k.Loaded) :
    (k.step p).expandedKeys 0 = if p.keyConsumed then p.key else k.expandedKeys 0 := by
  cases hc : p.keyConsumed with
  | true =>
      obtain ⟨k', hk'⟩ := step_consumed h hc
      rw [hk']
      exact start_expandedKeys_zero k' p.key
  | false =>
      have hL : k.Loaded := hk.resolve_left (by simp [hc])
      cases hs : k.state with
      | idle => rw [step_idle h hc hs]; rfl
      | roundKeyGeneration =>
          rw [step_generate h hc hs]
          have := hL.counters hs
          exact writeAt_ne _ _ (by simp only [Fin.val_zero]; omega)

end KeyExpansion

end AesAccelerator
