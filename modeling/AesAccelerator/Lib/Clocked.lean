import Mathlib.Data.Fin.Basic
import Mathlib.Data.Nat.Count
import Mathlib.Logic.Basic

/-! # Synchronous machines and properties that hold since the last reset

A synchronous machine is a function `step : σ → ι → σ` from the register contents at the
start of a clock cycle and the input ports during that cycle to the register contents at the
start of the next one.  `trace step s₀ inputs t` is the register contents at the start of
cycle `t`.

Resets are cycles too: `r t` says that the reset input is asserted in cycle `t`.  Nothing is
known of the registers before the first reset, so invariants are stated for the start of the
cycles after it.  `since_reset` is the induction rule: what every reset cycle establishes and
every other cycle keeps holds from the first reset on.  `since r event t` is the monitor
that remembers whether `event` happened in an earlier cycle with no reset in between.
`count_le_of_potential` bounds how often one thing happens by how often another does, and
`exists_of_falling` shows that something happens at all. -/

namespace Clocked

variable {σ τ ι κ : Type}

/-- Register contents at the start of cycle `t`. -/
def trace (step : σ → ι → σ) (s₀ : σ) (inputs : ℕ → ι) : ℕ → σ
  | 0 => s₀
  | t + 1 => step (trace step s₀ inputs t) (inputs t)

theorem trace_succ (step : σ → ι → σ) (s₀ : σ) (inputs : ℕ → ι) (t : ℕ) :
    trace step s₀ inputs (t + 1) = step (trace step s₀ inputs t) (inputs t) := rfl

/-- A projection that commutes with the step commutes with whole runs. -/
theorem trace_map {step : σ → ι → σ} {step' : τ → κ → τ} {f : σ → τ} {g : ι → κ}
    (h : ∀ s i, f (step s i) = step' (f s) (g i)) (s₀ : σ) (inputs : ℕ → ι) (t : ℕ) :
    f (trace step s₀ inputs t) = trace step' (f s₀) (fun k => g (inputs k)) t := by
  induction t with
  | zero => rfl
  | succ t ih => rw [trace_succ, trace_succ, h, ih]

/-! ### Induction from the first reset -/

/-- What every reset cycle establishes and every other cycle keeps holds at the start of every
cycle after the first reset. -/
theorem since_reset {r : ℕ → Bool} {P : ℕ → Prop} (first : r 0 = true)
    (base : ∀ t, r t = true → P (t + 1))
    (keep : ∀ t, r t = false → P t → P (t + 1)) : ∀ t, P (t + 1) := by
  intro t
  induction t with
  | zero => exact base 0 first
  | succ t ih =>
      cases h : r (t + 1) with
      | true => exact base _ h
      | false => exact keep _ h ih

/-- The same rule where keeping `P` may use an invariant `Q` proved before. -/
theorem since_reset_with {r : ℕ → Bool} {P Q : ℕ → Prop} (first : r 0 = true)
    (known : ∀ t, Q (t + 1))
    (base : ∀ t, r t = true → P (t + 1))
    (keep : ∀ t, r t = false → Q t → P t → P (t + 1)) : ∀ t, P (t + 1) := by
  have main : ∀ t, Q (t + 1) ∧ P (t + 1) :=
    since_reset (P := fun t => Q t ∧ P t) first (fun t h => ⟨known t, base t h⟩)
      (fun t h hP => ⟨known t, keep t h hP.1 hP.2⟩)
  exact fun t => (main t).2

/-! ### Monitors -/

/-- `event` happened in a cycle before `t`, with no reset since. -/
def since (r event : ℕ → Bool) : ℕ → Bool
  | 0 => false
  | t + 1 => !r t && (event t || since r event t)

theorem since_succ (r event : ℕ → Bool) (t : ℕ) :
    since r event (t + 1) = (!r t && (event t || since r event t)) := rfl

theorem since_succ_of_reset {r event : ℕ → Bool} {t : ℕ} (h : r t = true) :
    since r event (t + 1) = false := by simp [since, h]

theorem since_succ_of_not {r event : ℕ → Bool} {t : ℕ} (h : r t = false)
    (he : event t = false) : since r event (t + 1) = since r event t := by
  simp [since, h, he]

/-- The monitor says what it is meant to say. -/
theorem since_iff (r event : ℕ → Bool) (t : ℕ) :
    since r event t = true ↔
      ∃ k, k < t ∧ event k = true ∧ ∀ j, k ≤ j → j < t → r j = false := by
  induction t with
  | zero => simp [since]
  | succ t ih =>
      simp only [since_succ, Bool.and_eq_true, Bool.or_eq_true, Bool.not_eq_eq_eq_not, Bool.not_true]
      constructor
      · rintro ⟨hr, he | hs⟩
        · exact ⟨t, Nat.lt_succ_self t, he, fun j h₁ h₂ => by rwa [show j = t by omega]⟩
        · obtain ⟨k, hk, hek, hkr⟩ := ih.mp hs
          refine ⟨k, by omega, hek, fun j h₁ h₂ => ?_⟩
          rcases Nat.lt_succ_iff_lt_or_eq.mp h₂ with h | rfl
          · exact hkr j h₁ h
          · exact hr
      · rintro ⟨k, hk, hek, hkr⟩
        refine ⟨hkr t (by omega) (Nat.lt_succ_self t), ?_⟩
        rcases Nat.lt_succ_iff_lt_or_eq.mp hk with h | rfl
        · exact Or.inr (ih.mpr ⟨k, h, hek, fun j h₁ h₂ => hkr j h₁ (by omega)⟩)
        · exact Or.inl hek

/-! ### Counting -/

/-- A potential that pays for every cycle of the one kind and is fed, `c` at a time, by cycles of
the other kind only, bounds the number of the former. -/
theorem count_le_of_potential {cost gain : ℕ → Bool} {φ : ℕ → ℕ} {c : ℕ}
    (step : ∀ t, φ (t + 1) + (cost t).toNat ≤ φ t + c * (gain t).toNat) (n : ℕ) :
    φ n + Nat.count (fun t => cost t = true) n ≤
      φ 0 + c * Nat.count (fun t => gain t = true) n := by
  induction n with
  | zero => simp
  | succ n ih =>
      have hstep := step n
      rw [Nat.count_succ, Nat.count_succ, Nat.mul_add]
      cases hc : cost n <;> cases hg : gain n <;>
        simp only [hc, hg, Bool.toNat_true, Bool.toNat_false, if_true, Bool.false_eq_true,
          if_false] at hstep ⊢ <;> omega

/-! ### Progress -/

/-- A measure that falls, sooner or later, as long as the goal is not reached leads to the goal. -/
theorem exists_of_falling {P : ℕ → Prop} (φ : ℕ → ℕ) {t : ℕ}
    (falls : ∀ k, t ≤ k → ¬ P k → ∃ k', k ≤ k' ∧ φ k' < φ k) : ∃ k, t ≤ k ∧ P k := by
  have main : ∀ m k, t ≤ k → φ k = m → ∃ k', t ≤ k' ∧ P k' := by
    intro m
    induction m using Nat.strongRecOn with
    | ind m ih =>
        intro k hk hm
        by_cases hP : P k
        · exact ⟨k, hk, hP⟩
        · obtain ⟨k', hk', hlt⟩ := falls k hk hP
          exact ih (φ k') (hm ▸ hlt) k' (hk.trans hk') rfl
  exact main (φ t) t le_rfl rfl

end Clocked
