import Mathlib.Tactic.Common

/-! # Loops

`foldl_reverse_undo`: a loop over a list is undone by the loop that goes through the list in the
opposite order and undoes each iteration.

A `while` loop over states `σ` whose body may go wrong, and then gives nothing, and otherwise
emits a list of events.  `Run guard body s out s'` says that the loop started in `s` terminates in
`s'`, that nothing went wrong on the way, and that `out` is what it emitted.

`exists_run` is the rule of total correctness: an invariant, a measure that every iteration
lowers, and a property of what is emitted, which is extended at the front by each iteration. -/

namespace Loop

/-! ### Loops over a list -/

theorem foldl_reverse_undo {ι τ : Type} {f g : τ → ι → τ} (undo : ∀ s i, g (f s i) i = s) :
    ∀ (l : List ι) (s : τ), l.reverse.foldl g (l.foldl f s) = s
  | [], _ => rfl
  | i :: l, s => by
      rw [List.foldl_cons, List.reverse_cons, List.foldl_append, foldl_reverse_undo undo l]
      exact undo s i

/-! ### Loops that can fail -/

variable {σ ε : Type} {guard : σ → Prop} {body : σ → Option (List ε × σ)}

inductive Run (guard : σ → Prop) (body : σ → Option (List ε × σ)) : σ → List ε → σ → Prop
  | exit {s : σ} (h : ¬ guard s) : Run guard body s [] s
  | iterate {s s₁ s' : σ} {out rest : List ε} (h : guard s) (hbody : body s = some (out, s₁))
      (hrest : Run guard body s₁ rest s') : Run guard body s (out ++ rest) s'

theorem exists_run (μ : σ → ℕ) {I : σ → Prop} {Q : σ → List ε → Prop}
    (exit : ∀ s, I s → ¬ guard s → Q s [])
    (iterate : ∀ s, I s → guard s → ∃ out s', body s = some (out, s') ∧ I s' ∧ μ s' < μ s ∧
      ∀ rest, Q s' rest → Q s (out ++ rest)) {s : σ} (hs : I s) :
    ∃ out s', Run guard body s out s' ∧ I s' ∧ ¬ guard s' ∧ Q s out := by
  induction hm : μ s using Nat.strongRecOn generalizing s with
  | ind m ih =>
      by_cases hg : guard s
      · obtain ⟨out, s₁, hbody, hs₁, hlt, hQ⟩ := iterate s hs hg
        obtain ⟨rest, s', hrun, hs', hend, hrest⟩ := ih (μ s₁) (hm ▸ hlt) hs₁ rfl
        exact ⟨out ++ rest, s', .iterate hg hbody hrun, hs', hend, hQ rest hrest⟩
      · exact ⟨[], s, .exit hg, hs, hg, exit s hs hg⟩

end Loop
