import Mathlib.Logic.Relation
import Mathlib.Tactic.Common

/-! # Interleavings

A system of several actors: `step a s` is the state after actor `a` has done its next step, if it
has one in state `s`.  The runs of the system are the interleavings of these steps, in any order.

* `Reaches.invariant`: what every step keeps holds in every state a run reaches.
* `reaches_of_measure`: if as long as the goal is not reached some actor can make progress in a
  measure, then the goal can be reached.
* `length_add_le_of_runs`: if every step makes progress in a measure, no run is longer than it.
* `Reaches.split`: when a system contains another one and behaves like it until that one is over,
  a run of the first is a run of the second, followed by a run from a state in which it is over. -/

namespace Interleaving

variable {σ α : Type} {step : α → σ → Option σ}

/-- Some actor does a step. -/
def Step (step : α → σ → Option σ) (s s' : σ) : Prop := ∃ a, step a s = some s'

/-- Some interleaving leads from one state to the other. -/
def Reaches (step : α → σ → Option σ) : σ → σ → Prop := Relation.ReflTransGen (Step step)

/-- The run in which the actors do their steps in the given order. -/
def runs (step : α → σ → Option σ) : List α → σ → Option σ
  | [], s => some s
  | a :: order, s => (step a s).bind (runs step order)

theorem Reaches.refl (s : σ) : Reaches step s s := Relation.ReflTransGen.refl

theorem Reaches.trans {s s' s'' : σ} (h : Reaches step s s') (h' : Reaches step s' s'') :
    Reaches step s s'' := Relation.ReflTransGen.trans h h'

theorem Reaches.head {s s' s'' : σ} {a : α} (h : step a s = some s') (h' : Reaches step s' s'') :
    Reaches step s s'' := Relation.ReflTransGen.head ⟨a, h⟩ h'

/-- What every step keeps, every run keeps. -/
theorem Reaches.invariant {P : σ → Prop} (keep : ∀ a s s', step a s = some s' → P s → P s')
    {s s' : σ} (h : Reaches step s s') (hs : P s) : P s' := by
  induction h with
  | refl => exact hs
  | tail _ hstep ih =>
      obtain ⟨a, ha⟩ := hstep
      exact keep a _ _ ha ih

theorem reaches_of_runs : ∀ {order : List α} {s s' : σ}, runs step order s = some s' →
    Reaches step s s'
  | [], s, s', h => by
      obtain rfl := Option.some.inj h
      exact Reaches.refl s
  | a :: order, s, s', h => by
      obtain ⟨s₁, h₁, h₂⟩ := Option.bind_eq_some_iff.mp h
      exact Reaches.head h₁ (reaches_of_runs h₂)

theorem exists_runs_of_reaches {s s' : σ} (h : Reaches step s s') :
    ∃ order, runs step order s = some s' := by
  induction h using Relation.ReflTransGen.head_induction_on with
  | refl => exact ⟨[], rfl⟩
  | head hstep _ ih =>
      obtain ⟨a, ha⟩ := hstep
      obtain ⟨order, horder⟩ := ih
      exact ⟨a :: order, by rw [runs, ha, Option.bind_some, horder]⟩

/-- Progress in a measure leads to the goal. -/
theorem reaches_of_measure (μ : σ → ℕ) {P G : σ → Prop}
    (progress : ∀ s, P s → ¬ G s → ∃ a s', step a s = some s' ∧ P s' ∧ μ s' < μ s)
    {s : σ} (hs : P s) : ∃ s', Reaches step s s' ∧ P s' ∧ G s' := by
  induction hm : μ s using Nat.strongRecOn generalizing s with
  | ind m ih =>
      by_cases hg : G s
      · exact ⟨s, Reaches.refl s, hs, hg⟩
      · obtain ⟨a, s₁, h₁, hP, hlt⟩ := progress s hs hg
        obtain ⟨s₂, h₂, hP₂, hG₂⟩ := ih (μ s₁) (hm ▸ hlt) hP rfl
        exact ⟨s₂, Reaches.head h₁ h₂, hP₂, hG₂⟩

/-- When every step lowers a measure, no run takes more steps than it allows. -/
theorem length_add_le_of_runs (μ : σ → ℕ)
    (lower : ∀ a s s', step a s = some s' → μ s' < μ s) : ∀ {order : List α} {s s' : σ},
    runs step order s = some s' → order.length + μ s' ≤ μ s
  | [], s, s', h => by
      obtain rfl := Option.some.inj h
      simp
  | a :: order, s, s', h => by
      obtain ⟨s₁, h₁, h₂⟩ := Option.bind_eq_some_iff.mp h
      have := lower a s s₁ h₁
      have := length_add_le_of_runs μ lower h₂
      rw [List.length_cons]
      omega

/-- A system `σ` within a system `τ`: what the whole does before the part is over, the part does. -/
theorem Reaches.split {τ : Type} {stepτ : α → τ → Option τ} {embed : σ → τ} (Over : σ → Prop)
    (hembed : ∀ a s, ¬ Over s → stepτ a (embed s) = (step a s).map embed) {s : σ} {t : τ}
    (h : Reaches stepτ (embed s) t) :
    (∃ s', Reaches step s s' ∧ ¬ Over s' ∧ t = embed s') ∨
      ∃ s', Reaches step s s' ∧ Over s' ∧ Reaches stepτ (embed s') t := by
  have hpart : ∀ s', Reaches step s s' →
      (∃ s'', Reaches step s s'' ∧ ¬ Over s'' ∧ embed s' = embed s'') ∨
        ∃ s'', Reaches step s s'' ∧ Over s'' ∧ Reaches stepτ (embed s'') (embed s') := by
    intro s' hs'
    by_cases hover : Over s'
    · exact Or.inr ⟨s', hs', hover, Reaches.refl _⟩
    · exact Or.inl ⟨s', hs', hover, rfl⟩
  induction h with
  | refl => exact hpart s (Reaches.refl s)
  | tail _ hstep ih =>
      rcases ih with ⟨s', hs', hover, rfl⟩ | ⟨s', hs', hover, hrest⟩
      · obtain ⟨a, ha⟩ := hstep
        rw [hembed a s' hover] at ha
        obtain ⟨s'', hs'', rfl⟩ := Option.map_eq_some_iff.mp ha
        exact hpart s'' (Relation.ReflTransGen.tail hs' ⟨a, hs''⟩)
      · exact Or.inr ⟨s', hs', hover, Relation.ReflTransGen.tail hrest hstep⟩

end Interleaving
