import AesAccelerator.KeyChange
import AesAccelerator.Datapath

/-! # Runs of the core

A run is a power-up state, of which nothing is known, and the inputs of every cycle; the first
cycle is a reset.  Later resets may come at any time.  The states a run reaches are those after
its first cycle, `x.state (n + 1)`.

The first results about all runs: the key expansion stays ahead of the local synchronization
(`expansion_ahead_of_sync`), and a rounder with nothing pending has the current key
(`settled_roundKeys`). -/

namespace AesAccelerator

structure Run where
  powerUp : Core
  ports : ℕ → CorePorts
  reset_first : (ports 0).rst = true

namespace Run

section runs
variable [Rom256x1]

/-- The registers at the start of cycle `n`. -/
def state (x : Run) : ℕ → Core := Clocked.trace Core.step x.powerUp x.ports

theorem state_succ (x : Run) (n : ℕ) : x.state (n + 1) = (x.state n).step (x.ports n) := rfl

def rst (x : Run) (n : ℕ) : Bool := (x.ports n).rst

/-- A key write happened in an earlier cycle since the last reset. -/
def keyWritten (x : Run) : ℕ → Bool := Clocked.since x.rst fun n => (x.ports n).aesKeyWrite

omit [Rom256x1] in
theorem keyWritten_iff (x : Run) (n : ℕ) : x.keyWritten n = true ↔
    ∃ k, k < n ∧ (x.ports k).aesKeyWrite = true ∧ ∀ j, k ≤ j → j < n → x.rst j = false :=
  Clocked.since_iff _ _ n

omit [Rom256x1] in
theorem keyWritten_succ (x : Run) (n : ℕ) : x.keyWritten (n + 1) =
    (!x.rst n && ((x.ports n).aesKeyWrite || x.keyWritten n)) := rfl

/-- `aes_key` changes only at the clock edge that ends a cycle with `aes_key_write`, resets
apart. -/
def KeyDiscipline (x : Run) : Prop :=
  ∀ n, x.rst n = false → (x.ports n).aesKeyWrite = false →
    (x.ports (n + 1)).aesKey = (x.ports n).aesKey

end runs

/-! ### Scripted runs -/

/-- A cycle in which nothing happens while `aes_key` is `key`. -/
def quiet (key : AesMatrix) : CorePorts where
  rst := false
  aesKey := key
  aesKeyWrite := false
  readTdata := 0
  readTvalid := false
  readTlast := false
  writeTready := true
  undefConstant := 0
  undefKey := 0

/-- All registers zero. -/
def blank : Core where
  keys := ⟨fun _ => 0, 0, 1, 0, .idle, 0⟩
  rounder1 := ⟨fun _ => 0, fun _ => 0, .transactionIdle, .idle, 0, fun _ => ⟨false, false⟩, 0⟩
  keyChangePendingKeyExpansion := false
  keyChangePendingRounder := false

/-- One reset cycle, then the cycles of `script`, then `rest` forever. -/
def scripted (script : List CorePorts) (rest : CorePorts) : Run where
  powerUp := blank
  ports
    | 0 => { rest with rst := true }
    | n + 1 => script.getD n rest
  reset_first := rfl

theorem scripted_ports (script : List CorePorts) (rest : CorePorts) :
    ∀ {n : ℕ}, script.length < n → (scripted script rest).ports n = rest
  | n + 1, h => by
      show script.getD n rest = rest
      rw [List.getD_eq_getElem?_getD, List.getElem?_eq_none (by omega)]
      rfl

theorem scripted_keyDiscipline (script : List CorePorts) (key : AesMatrix)
    (h : ∀ n < script.length + 1, (scripted script (quiet key)).rst n = false →
      ((scripted script (quiet key)).ports n).aesKeyWrite = false →
      ((scripted script (quiet key)).ports (n + 1)).aesKey =
        ((scripted script (quiet key)).ports n).aesKey) :
    (scripted script (quiet key)).KeyDiscipline := by
  intro n hr hw
  rcases Nat.lt_or_ge n (script.length + 1) with hn | hn
  · exact h n hn hr hw
  · rw [scripted_ports _ _ (by omega), scripted_ports _ _ (by omega)]

section sync
variable [Rom256x1]

/-- Every reachable state keeps the key expansion ahead of the synchronization. -/
theorem keySync (x : Run) : ∀ n, (x.state (n + 1)).KeySync :=
  Clocked.since_reset (r := x.rst) (P := fun n => (x.state n).KeySync) x.reset_first
    (fun _ h => Core.keySync_reset h) (fun _ h hI => Core.keySync_step hI h)

/-! ### The key expansion stays ahead -/

/-- A synchronization was completed in an earlier cycle since the last reset. -/
def synced (x : Run) : ℕ → Bool := Clocked.since x.rst fun n =>
  (x.state n).rounder1.refreshState == .syncing &&
    (x.state (n + 1)).rounder1.refreshState == .idle

/-- What a synchronization leaves behind is the schedule of one key. -/
theorem holds_of_synced (x : Run) : ∀ n,
    (x.state (n + 1)).rounder1.refreshState = .idle → x.synced (n + 1) = true →
      ∃ key, (x.state (n + 1)).Holds key := by
  refine Clocked.since_reset_with (r := x.rst) (Q := fun n => (x.state n).KeySync)
    (P := fun n => (x.state n).rounder1.refreshState = .idle → x.synced n = true →
      ∃ key, (x.state n).Holds key) x.reset_first x.keySync ?_ ?_
  · intro n h _ hsync
    rw [synced, Clocked.since_succ_of_reset (r := x.rst) h] at hsync
    cases hsync
  · intro n h hI ih hidle hsync
    cases Core.step_refresh_cases (c := x.state n) h with
    | begin _ _ hs' | restart _ _ hs' | copy _ _ _ hs' =>
        rw [state_succ, hs'] at hidle
        cases hidle
    | rest hs _ _ _ hk' =>
        rw [synced, Clocked.since_succ_of_not (r := x.rst) h (by simp [hs])] at hsync
        obtain ⟨key, hkey⟩ := ih hs hsync
        refine ⟨key, fun j => ?_⟩
        rw [state_succ, hk', hkey j]
    | finish hs _ hc _ _ hk' =>
        refine ⟨(x.state n).loadedKey, fun j => ?_⟩
        rw [state_succ, hk']
        exact hI.writeAt_eq hs (by omega)

/-- **The key expansion stays ahead of the local synchronization**: in every reachable state, a
synchronization at counter `c` finds round keys `0, …, c` of one schedule generated and has copied
`0, …, c - 1` of the same; and after the first completed synchronization an idle rounder holds
the full schedule of one key. -/
theorem expansion_ahead_of_sync (x : Run) (n : ℕ) :
    let s := x.state (n + 1)
    let c := s.rounder1.keySyncingCounter
    let key := s.keys.expandedKeys 0
    (s.rounder1.refreshState = .syncing →
      c ≤ 10 ∧
      ((s.keys.state = .idle ∧ ∀ j : Fin 11, s.keys.expandedKeys j = Fips197.roundKey key j) ∨
        (s.keys.state = .roundKeyGeneration ∧ c + 1 ≤ s.keys.roundCounter)) ∧
      (∀ j : Fin 11, (j : ℕ) ≤ c → s.keys.expandedKeys j = Fips197.roundKey key j) ∧
      ∀ j : Fin 11, (j : ℕ) < c → s.rounder1.roundKeys j = Fips197.roundKey key j) ∧
    (s.rounder1.refreshState = .idle → x.synced (n + 1) = true →
      ∃ key, ∀ j : Fin 11, s.rounder1.roundKeys j = Fips197.roundKey key j) := by
  intro s c key
  have hschedule : ∀ (key : AesMatrix) (j : Fin 11),
      KeyExpansion.schedule key j = Fips197.roundKey key j :=
    fun key j => schedule_eq_roundKey key j (by omega)
  constructor
  · intro hs
    have hI := x.keySync n
    obtain ⟨hle, hrc, hbelow⟩ := hI.front hs
    have hL := hI.loaded (Or.inr hs)
    refine ⟨hle, ?_, fun j hj => ?_, fun j hj => ?_⟩
    · cases hg : s.keys.state with
      | roundKeyGeneration => exact Or.inr ⟨rfl, hrc hg⟩
      | idle =>
          refine Or.inl ⟨rfl, fun j => ?_⟩
          rw [← hschedule]
          exact hL.written j fun h => absurd h (by rw [hg]; decide)
    · rw [← hschedule]
      exact hL.written j fun hg => lt_of_le_of_lt hj (hrc hg)
    · rw [← hschedule]
      exact hbelow j hj
  · intro hidle hsync
    obtain ⟨key, hkey⟩ := x.holds_of_synced n hidle hsync
    exact ⟨key, fun j => by rw [← hschedule]; exact hkey j⟩

/-! ### No key update is lost -/

/-- With a key written since the last reset: a unit whose flag is clear has the current key. -/
structure FollowsKey (x : Run) (n : ℕ) : Prop where
  expansion : x.keyWritten n = true → (x.state n).keyChangePendingKeyExpansion = false →
    (x.state n).keys.Loaded ∧ (x.state n).loadedKey = (x.ports n).aesKey
  rounder : x.keyWritten n = true → (x.state n).keyChangePendingRounder = false →
    (x.state n).rounder1.refreshState = .idle → (x.state n).Holds (x.ports n).aesKey

theorem followsKey_step {x : Run} (hkey : x.KeyDiscipline) {n : ℕ} (h : x.rst n = false)
    (hI : (x.state n).KeySync) (ih : x.FollowsKey n) : x.FollowsKey (n + 1) := by
  -- a clear flag after the cycle: nothing was written in it, and the key is what it was
  have quiet : (x.ports n).aesKeyWrite = false → x.keyWritten (n + 1) = true →
      x.keyWritten n = true ∧ (x.ports (n + 1)).aesKey = (x.ports n).aesKey := fun hw hkw =>
    ⟨by rwa [keyWritten, Clocked.since_succ_of_not (r := x.rst) h hw] at hkw, hkey n h hw⟩
  constructor
  · intro hkw hK
    rw [state_succ, Core.step_pendingKeyExpansion h, Bool.or_eq_false_iff] at hK
    obtain ⟨hkw₀, haes⟩ := quiet hK.1 hkw
    cases hack : (x.state n).keyExpansionAck (x.ports n) with
    | true =>
        refine ⟨KeyExpansion.loaded_step h (Or.inl hack), ?_⟩
        rw [state_succ, Core.step_loadedKey h (Or.inl hack), hack, haes]
        rfl
    | false =>
        rw [hack, Bool.not_false, Bool.and_true] at hK
        obtain ⟨hL, hload⟩ := ih.expansion hkw₀ hK.2
        refine ⟨KeyExpansion.loaded_step h (Or.inr hL), ?_⟩
        rw [state_succ, Core.step_loadedKey h (Or.inr hL), hack, haes, ← hload]
        rfl
  · intro hkw hR hidle
    rw [state_succ, Core.step_pendingRounder h, Bool.or_eq_false_iff] at hR
    obtain ⟨hkw₀, haes⟩ := quiet hR.1 hkw
    cases Core.step_refresh_cases (c := x.state n) h with
    | begin _ _ hs' | restart _ _ hs' | copy _ _ _ hs' =>
        rw [state_succ, hs'] at hidle
        cases hidle
    | rest hs hack _ _ hk' =>
        rw [hack, Bool.not_false, Bool.and_true] at hR
        intro j
        rw [state_succ, hk', haes]
        exact ih.rounder hkw₀ hR.2 hs j
    | finish hs hack hc _ _ hk' =>
        rw [hack, Bool.not_false, Bool.and_true] at hR
        have hK : (x.state n).keyChangePendingKeyExpansion = false :=
          Bool.eq_false_iff.mpr fun hK => by rw [hI.flags hK] at hR; cases hR.2
        intro j
        rw [state_succ, hk', haes, ← (ih.expansion hkw₀ hK).2]
        exact hI.writeAt_eq hs (by omega)

theorem followsKey {x : Run} (hkey : x.KeyDiscipline) : ∀ n, x.FollowsKey (n + 1) := by
  refine Clocked.since_reset_with (r := x.rst) (Q := fun n => (x.state n).KeySync) (P := x.FollowsKey)
    x.reset_first x.keySync (fun n h => ?_) (fun n h hI ih => followsKey_step hkey h hI ih)
  have hkw : x.keyWritten (n + 1) = false := Clocked.since_succ_of_reset h
  exact ⟨fun hk => absurd hk (by simp [hkw]), fun hk => absurd hk (by simp [hkw])⟩

/-- With nothing pending, the local round keys follow the current key. -/
theorem FollowsKey.targetKey_eq {x : Run} {n : ℕ} (hf : x.FollowsKey n)
    (hI : (x.state n).KeySync) (hkw : x.keyWritten n = true)
    (hR : (x.state n).keyChangePendingRounder = false) :
    (x.state n).targetKey = (x.ports n).aesKey := by
  unfold Core.targetKey
  split_ifs with hs
  · refine (hf.expansion hkw (Bool.eq_false_iff.mpr fun hK => ?_)).2
    rw [hI.flags hK] at hR
    cases hR
  · cases hidle : (x.state n).rounder1.refreshState with
    | syncing => exact absurd hidle hs
    | idle => exact hf.rounder hkw hR hidle 0

/-- Between transactions the local round keys take up the current key within the cycle. -/
theorem FollowsKey.targetKey_next {x : Run} {n : ℕ} (hf : x.FollowsKey n) (h : x.rst n = false)
    (hI : (x.state n).KeySync) (hkw : x.keyWritten n = true)
    (hT : (x.state n).rounder1.transactionState = .transactionIdle) :
    (x.state (n + 1)).targetKey = (x.ports n).aesKey := by
  rw [state_succ, Core.step_targetKey hI h]
  cases hack : (x.state n).rounderKeyAck with
  | false => exact hf.targetKey_eq hI hkw (Core.pendingRounder_of_noAck hack hT)
  | true =>
      show (x.state n).acknowledgedKey (x.ports n) = _
      unfold Core.acknowledgedKey
      cases hK : (x.state n).keyExpansionAck (x.ports n) with
      | true => rfl
      | false =>
          refine (hf.expansion hkw (Bool.eq_false_iff.mpr fun hpend => ?_)).2
          rw [Core.keyExpansionAck_iff.mpr ⟨hpend, Or.inr hT⟩] at hK
          cases hK

/-- **No key update is lost**: when nothing is pending and no synchronization is under way, the
local round keys are the schedule of the current key. -/
theorem settled_roundKeys (x : Run) (hkey : x.KeyDiscipline) (n : ℕ)
    (hwritten : x.keyWritten (n + 1) = true)
    (hpending : (x.state (n + 1)).keyChangePendingRounder = false)
    (hidle : (x.state (n + 1)).rounder1.refreshState = .idle) (j : Fin 11) :
    (x.state (n + 1)).rounder1.roundKeys j = Fips197.roundKey (x.ports (n + 1)).aesKey j := by
  rw [← schedule_eq_roundKey _ _ (by omega)]
  exact (followsKey hkey n).rounder hwritten hpending hidle j

end sync

/-- A key is written in the first cycle after reset; thirteen cycles later the rounder has
settled on it. -/
theorem settled_roundKeys_first_write :
    let x := scripted [{ quiet 0 with aesKeyWrite := true }] (quiet 0x0f)
    ∀ j : Fin 11, (x.state 14).rounder1.roundKeys j = Fips197.roundKey 0x0f j := by
  intro x
  exact settled_roundKeys x (scripted_keyDiscipline _ _ (by decide)) 13 (by decide)
    (by decide +kernel) (by decide +kernel)

end Run

end AesAccelerator
