import AesAccelerator.Datapath
import AesAccelerator.Lib.Clocked

/-! # When the round keys are there

Runs of the key expansion unit alone, with any inputs.  `Progress key p` is the state `p` cycles
after the one in which `key` was consumed: the round keys up to `p` are written, and after the
tenth the unit rests.  A key that is consumed brings it about from any state whatsoever
(`progress_start`), and each further cycle without a restart takes it one step on
(`Progress.next`). -/

namespace AesAccelerator

namespace KeyExpansion

section progress
variable [Rom256x1]

structure Progress (k : KeyExpansion) (key : AesMatrix) (p : ℕ) : Prop where
  loaded : k.Loaded
  key : k.expandedKeys 0 = key
  generating : k.state = .roundKeyGeneration ↔ p < 10
  counter : p < 10 → k.roundCounter = p + 1

variable {k : KeyExpansion} {p : KeyExpansionPorts} {key : AesMatrix} {n : ℕ}

theorem progress_start (h : p.rst = false) (hc : p.keyConsumed = true) :
    (k.step p).Progress p.key 0 := by
  obtain ⟨k', hk'⟩ := step_consumed h hc
  rw [hk']
  refine ⟨loaded_start k' p.key, start_expandedKeys_zero k' p.key, ?_, fun _ => rfl⟩
  exact ⟨fun _ => by omega, fun _ => rfl⟩

theorem Progress.idle (hp : k.Progress key n) (hn : 10 ≤ n) : k.state = .idle := by
  cases hs : k.state with
  | idle => rfl
  | roundKeyGeneration =>
      have := hp.generating.mp hs
      omega

/-- A unit that rests keeps what it has. -/
theorem Progress.rests (hp : k.Progress key n) (hn : 10 ≤ n) (h : p.rst = false)
    (hc : p.keyConsumed = false) : k.step p = k := step_idle h hc (hp.idle hn)

theorem Progress.next (hp : k.Progress key n) (h : p.rst = false) (hc : p.keyConsumed = false) :
    (k.step p).Progress key (n + 1) := by
  have hloaded : (k.step p).Loaded := loaded_step h (Or.inr hp.loaded)
  have hkey : (k.step p).expandedKeys 0 = key := by
    rw [step_expandedKeys_zero h (Or.inr hp.loaded), hc]
    exact hp.key
  rcases Nat.lt_or_ge n 10 with hn | hn
  · have hs := hp.generating.mpr hn
    have hcounter := hp.counter hn
    have hstep := step_generate h hc hs
    refine ⟨hloaded, hkey, ?_, fun hn' => ?_⟩
    · rw [hstep]
      show (if k.roundCounter = 10 then KeyExpansionState.idle else k.state) = _ ↔ _
      rw [hcounter, hs]
      split_ifs with h10
      · constructor
        · intro hidle
          cases hidle
        · omega
      · constructor
        · omega
        · exact fun _ => rfl
    · rw [hstep]
      show (k.roundCounter + 1) % 16 = n + 1 + 1
      omega
  · have hstep := hp.rests hn h hc
    refine ⟨hloaded, hkey, ?_, fun hn' => by omega⟩
    rw [hstep, hp.idle hn]
    constructor
    · intro hidle
      cases hidle
    · omega

/-- The round keys that are written belong to the schedule of the key. -/
theorem Progress.roundKey (hp : k.Progress key n) {j : Fin 11} (hj : (j : ℕ) ≤ n) :
    k.expandedKeys j = Fips197.roundKey key j := by
  have hwritten := hp.loaded.written j fun hs => by
    rw [hp.counter (hp.generating.mp hs)]
    omega
  rw [hwritten, hp.key]
  exact schedule_eq_roundKey key j (by omega)

end progress

end KeyExpansion

/-! ### Runs of the unit -/

/-- A run of `key_expansion`: nothing is known of the registers before the reset. -/
structure ExpansionRun where
  powerUp : KeyExpansion
  ports : ℕ → KeyExpansionPorts
  reset_first : (ports 0).rst = true

namespace ExpansionRun

/-- The generation is started anew, or the unit is reset. -/
def restarts (x : ExpansionRun) (n : ℕ) : Bool := (x.ports n).keyConsumed || (x.ports n).rst

section runs
variable [Rom256x1]

/-- The registers at the start of cycle `n`. -/
def state (x : ExpansionRun) : ℕ → KeyExpansion :=
  Clocked.trace KeyExpansion.step x.powerUp x.ports

theorem progress (x : ExpansionRun) {t : ℕ} (hrst : (x.ports t).rst = false)
    (hkey : (x.ports t).keyConsumed = true) (p : ℕ)
    (hquiet : ∀ j, t < j → j < t + 1 + p → x.restarts j = false) :
    (x.state (t + 1 + p)).Progress (x.ports t).key p := by
  induction p with
  | zero => exact KeyExpansion.progress_start hrst hkey
  | succ p ih =>
      obtain ⟨hc, h⟩ := Bool.or_eq_false_iff.mp (hquiet (t + 1 + p) (by omega) (by omega))
      exact (ih fun j h₁ h₂ => hquiet j h₁ (by omega)).next h hc

/-- **Round key `n` is there `n` cycles after the key**: from then until the next key or reset it
is round key `n` of the standard, and from the eleventh cycle on the unit rests and keeps all
of them. -/
theorem roundKeys_on_time (x : ExpansionRun) {t m : ℕ} (hrst : (x.ports t).rst = false)
    (hkey : (x.ports t).keyConsumed = true)
    (hquiet : ∀ j, t < j → j < m → x.restarts j = false) :
    (∀ n : Fin 11, t + 1 + n ≤ m →
      (x.state m).expandedKeys n = Fips197.roundKey (x.ports t).key n) ∧
    (t + 11 ≤ m → (x.state m).state = .idle ∧
      (x.state m).expandedKeys = (x.state (t + 11)).expandedKeys) := by
  have hprogress : ∀ p, t + 1 + p ≤ m → (x.state (t + 1 + p)).Progress (x.ports t).key p :=
    fun p hp => x.progress hrst hkey p fun j h₁ h₂ => hquiet j h₁ (by omega)
  constructor
  · intro n hn
    obtain ⟨d, rfl⟩ := Nat.exists_eq_add_of_le hn
    have := hprogress (n + d) (by omega)
    rw [← Nat.add_assoc] at this
    exact this.roundKey (Nat.le_add_right n d)
  · intro hm
    obtain ⟨d, rfl⟩ := Nat.exists_eq_add_of_le hm
    have hend : (x.state (t + 11 + d)).Progress (x.ports t).key (10 + d) := by
      have := hprogress (10 + d) (by omega)
      rwa [show t + 1 + (10 + d) = t + 11 + d by omega] at this
    have hfirst : (x.state (t + 11)).Progress (x.ports t).key 10 := hprogress 10 (by omega)
    refine ⟨hend.idle (by omega), ?_⟩
    funext j
    rw [hend.roundKey (by omega), hfirst.roundKey (by omega)]

end runs

/-- A key in cycle `1` and another one in cycle `4`, when three round keys of the first are
written. -/
def restarted : ExpansionRun where
  powerUp := ⟨fun _ => 0xff, 7, 3, 0x99, .roundKeyGeneration, 0x55⟩
  ports n :=
    { rst := n == 0, key := if n < 4 then 0x0f else 0xf0, pendingKey := n == 1 || n == 4,
      rounderSyncing := false, transactionOngoing := true, undefConstant := 0xaa }
  reset_first := rfl

/-- The second key is not restarted any more, and the unit has come to rest in cycle `16`. -/
theorem roundKeys_on_time_restarted :
    (∀ n : Fin 11, (restarted.state 16).expandedKeys n = Fips197.roundKey 0xf0 n) ∧
      (restarted.state 16).state = .idle := by
  have hquiet : ∀ j, 4 < j → j < 16 → restarted.restarts j = false := by
    intro j h₁ h₂
    have hports : (j == 1) = false ∧ (j == 4) = false ∧ (j == 0) = false := by
      simp only [beq_eq_false_iff_ne]
      omega
    simp [restarts, restarted, KeyExpansionPorts.keyConsumed, hports]
  have h := restarted.roundKeys_on_time (t := 4) (m := 16) rfl rfl hquiet
  constructor
  · intro n
    exact h.1 n (by omega)
  · exact (h.2 (by omega)).1

end ExpansionRun

end AesAccelerator
