import AesAccelerator.Scoreboard

/-! # Which key a beat meets

`KeyedBy keyOf n`: at the start of cycle `n` every passenger has met the round keys of the key that
`keyOf` gives for its beat, and will meet them in the stages to come.  One cycle keeps it
(`keyedBy_step`) when no beat loses its key (`Core.KeepsKeys`) and the beat that enters is to have
the key that the local round keys follow.

The streams may start once a key has been written (`KeyFirst`); `ready` says that the local round
keys are then never followed before they are in place. -/

namespace AesAccelerator

open ShiftPipeline

namespace Run

section keyed
variable [Rom256x1] (x : Run)

/-- No beat is offered before a key has been written. -/
def KeyFirst : Prop := ∀ n, x.rst n = false → x.offers n = true → x.keyWritten n = true

/-- `aes_key` was `key` in some cycle up to `n`. -/
def Held (n : ℕ) (key : AesMatrix) : Prop := ∃ m, m ≤ n ∧ (x.ports m).aesKey = key

/-- An idle refresh has the schedule of one key in place, or no stream has started yet and a
written key is still pending. -/
def Ready (n : ℕ) : Prop := (x.state n).rounder1.refreshState = .idle →
  ((x.state n).Holds (x.state n).targetKey ∧ x.Held n (x.state n).targetKey) ∨
    ((x.state n).rounder1.transactionState = .transactionIdle ∧
      ((x.state n).keyChangePendingRounder = false → x.keyWritten n = false))

/-- Every passenger has met, and will meet, the round keys of its key. -/
structure KeyedBy (keyOf : Beat → AesMatrix) (n : ℕ) : Prop where
  departed : ∀ q ∈ x.departed n, q.met = firstKeys (KeyExpansion.schedule (keyOf q.beat)) 11
  inside : ∀ k q, x.pipe n k = some q →
    q.met = firstKeys (KeyExpansion.schedule (keyOf q.beat)) (k + 1) ∧
      (x.state n).Keeps k (keyOf q.beat)

variable {x}

/-! ### The local round keys are in place when a beat enters -/

omit [Rom256x1] in
theorem Held.mono {m n : ℕ} {key : AesMatrix} (hk : x.Held m key) (hmn : m ≤ n) :
    x.Held n key := by
  obtain ⟨l, hl, hkey⟩ := hk
  exact ⟨l, by omega, hkey⟩

/-- A key that the rounder follows was in the key register. -/
theorem held_loadedKey : ∀ n, (x.state (n + 1)).FollowsLoaded →
    x.Held (n + 1) (x.state (n + 1)).loadedKey := by
  refine Clocked.since_reset_with (r := x.rst) (Q := fun n => (x.state n).KeySync)
    (P := fun n => (x.state n).FollowsLoaded → x.Held n (x.state n).loadedKey)
    x.reset_first x.keySync (fun n h hf => ?_) (fun n h hI ih hf => ?_)
  · rw [state_succ] at hf
    exact absurd hf (Core.not_followsLoaded_reset h)
  · have hcases := Core.followsLoaded_step (c := x.state n) h hf
    rw [state_succ, Core.step_loadedKey h (hcases.imp id hI.loaded)]
    cases hack : (x.state n).keyExpansionAck (x.ports n) with
    | true => exact ⟨n, by omega, rfl⟩
    | false => exact (ih (hcases.resolve_left (by simp [hack]))).mono (by omega)

theorem ready_step (hfirst : x.KeyFirst) {n : ℕ} (h : x.rst n = false)
    (hI : (x.state n).KeySync)
    (hheld : (x.state n).FollowsLoaded → x.Held n (x.state n).loadedKey) (ih : x.Ready n) :
    x.Ready (n + 1) := by
  intro hidle
  cases Core.step_refresh_cases (c := x.state n) h with
  | begin _ _ hs' | restart _ _ hs' | copy _ _ _ hs' =>
      rw [state_succ, hs'] at hidle
      cases hidle
  | finish hs _ hc hs' _ hk' =>
      left
      have hall : ∀ j : Fin 11, (x.state (n + 1)).rounder1.roundKeys j =
          KeyExpansion.schedule (x.state n).loadedKey j := fun j => by
        rw [state_succ, hk']
        exact hI.writeAt_eq hs (by omega)
      have htarget : (x.state (n + 1)).targetKey = (x.state n).loadedKey := by
        rw [Core.targetKey, if_neg (by rw [hidle]; decide), hall]
        rfl
      rw [htarget]
      exact ⟨hall, (hheld (Or.inr hs)).mono (by omega)⟩
  | rest hs hack _ _ hk' =>
      rcases ih hs with ⟨hholds, hk⟩ | ⟨hT, hpend⟩
      · left
        have htarget : (x.state (n + 1)).targetKey = (x.state n).targetKey := by
          rw [state_succ, Core.step_targetKey hI h, hack]
          rfl
        rw [htarget]
        refine ⟨fun j => ?_, hk.mono (by omega)⟩
        rw [state_succ, hk', hholds j]
      · right
        have hkw : x.keyWritten n = false := hpend (Core.pendingRounder_of_noAck hack hT)
        have hoffer : x.offers n = false := by
          by_contra hcon
          rw [hfirst n h (by simpa using hcon)] at hkw
          cases hkw
        refine ⟨?_, fun hR => ?_⟩
        · rw [state_succ, Core.step_transaction_idle h hT]
          exact if_neg (ne_true_of_eq_false hoffer)
        · rw [state_succ, Core.step_pendingRounder h, Bool.or_eq_false_iff] at hR
          rw [keyWritten, Clocked.since_succ_of_not (r := x.rst) h hR.1]
          exact hkw

theorem ready (hfirst : x.KeyFirst) : ∀ n, x.Ready (n + 1) := by
  refine Clocked.since_reset_with (r := x.rst) (P := x.Ready)
    (Q := fun n => (x.state n).KeySync ∧
      ((x.state n).FollowsLoaded → x.Held n (x.state n).loadedKey))
    x.reset_first (fun n => ⟨x.keySync n, held_loadedKey n⟩)
    (fun n h _ => Or.inr ⟨?_, fun _ => ?_⟩)
    (fun n h hQ ih => ready_step hfirst h hQ.1 hQ.2 ih)
  · exact (Core.step_reset (c := x.state n) h).2.2.2
  · exact Clocked.since_succ_of_reset h

/-- A beat that enters finds the local round keys in place or arriving. -/
theorem holds_of_enter (hfirst : x.KeyFirst) {n : ℕ} (h : x.rst n = false) (hr : x.Ready n)
    (hoffer : x.offers n = true) (hs : x.stalls n = false)
    (hidle : (x.state n).rounder1.refreshState = .idle) :
    (x.state n).Holds (x.state n).targetKey ∧ x.Held n (x.state n).targetKey := by
  rcases hr hidle with hholds | ⟨hT, hpend⟩
  · exact hholds
  · have hack : (x.state n).rounderKeyAck = false := by
      by_contra hcon
      rw [stalls, Core.stall_of_ack (by simpa using hcon)] at hs
      cases hs
    have := hpend (Core.pendingRounder_of_noAck hack hT)
    rw [hfirst n h hoffer] at this
    cases this

/-! ### One cycle -/

section step
variable {keyOf : Beat → AesMatrix} {n : ℕ}

theorem keyedBy_reset (h : x.rst n = true) : x.KeyedBy keyOf (n + 1) where
  departed q hq := by simp [departed, h] at hq
  inside k q hq := by simp [pipe, h] at hq

theorem keyedBy_stall (h : x.rst n = false) (hs : x.stalls n = true)
    (hI : (x.state n).KeySync) (hsh : x.Shadowed n)
    (hsafe : (x.state n).KeepsKeys (x.ports n)) (ih : x.KeyedBy keyOf n) :
    x.KeyedBy keyOf (n + 1) where
  departed q hq := ih.departed q (by simpa [departed, h, hs] using hq)
  inside k q hq := by
    rw [pipe_stall h hs] at hq
    obtain ⟨hmet, hkeeps⟩ := ih.inside k q hq
    have hvalid : (x.state n).validAt k := by rw [Core.validAt, (hsh k).1, hq]; rfl
    exact ⟨hmet, Core.keeps_step hI h hsafe hkeeps (Or.inl ⟨hs, rfl, hvalid⟩)⟩

theorem keyedBy_move (h : x.rst n = false) (hs : x.stalls n = false)
    (hI : (x.state n).KeySync) (hsafe : (x.state n).KeepsKeys (x.ports n))
    (hready : x.offers n = true → (x.state n).rounder1.refreshState = .idle →
      (x.state n).Holds (x.state n).targetKey)
    (henter : x.accepts n = true → keyOf (x.beat n) = (x.state n).targetKey)
    (ih : x.KeyedBy keyOf n) : x.KeyedBy keyOf (n + 1) where
  departed q hq := by
    simp only [departed, h, hs, Bool.false_eq_true, if_false, List.mem_append,
      Option.mem_toList] at hq
    rcases hq with hq | hq
    · exact ih.departed q hq
    · exact (ih.inside _ q hq).1
  inside k := by
    refine Fin.cases (fun q hq => ?_) (fun k q hq => ?_) k
    · rw [pipe_move h hs, advance_zero, entering] at hq
      cases ho : x.offers n with
      | false => simp [ho] at hq
      | true =>
          obtain rfl : q = Passenger.meet ((x.state n).rounder1.roundKeys 0) ⟨x.beat n, []⟩ := by
            simpa [ho] using hq.symm
          obtain ⟨hzero, hkeeps⟩ := Core.keeps_enter hI h hs (hready ho)
          have hkey : keyOf (x.beat n) = (x.state n).targetKey :=
            henter (by rw [accepts_eq, ho, hs]; rfl)
          unfold Passenger.meet
          rw [hkey, hzero]
          exact ⟨rfl, hkeeps⟩
    · rw [pipe_move h hs, advance_succ] at hq
      obtain ⟨q₀, hq₀, rfl⟩ := Option.map_eq_some_iff.mp hq
      obtain ⟨hmet, hkeeps⟩ := ih.inside _ q₀ hq₀
      refine ⟨?_, Core.keeps_step hI h hsafe hkeeps (Or.inr ⟨hs, rfl⟩)⟩
      unfold Passenger.meet
      rw [hkeeps.next hI, hmet]
      exact (firstKeys_succ _ _).symm

theorem keyedBy_step (hfirst : x.KeyFirst) (h : x.rst n = false)
    (hI : (x.state n).KeySync) (hsh : x.Shadowed n) (hr : x.Ready n)
    (hsafe : (x.state n).KeepsKeys (x.ports n))
    (henter : x.accepts n = true → keyOf (x.beat n) = (x.state n).targetKey)
    (ih : x.KeyedBy keyOf n) : x.KeyedBy keyOf (n + 1) := by
  cases hs : x.stalls n with
  | true => exact keyedBy_stall h hs hI hsh hsafe ih
  | false =>
      exact keyedBy_move h hs hI hsafe
        (fun ho hidle => (holds_of_enter hfirst h hr ho hs hidle).1) henter ih

end step

end keyed

theorem scripted_keyFirst (script : List CorePorts) (key : AesMatrix)
    (h : ∀ n < script.length + 1, (scripted script (quiet key)).offers n = true →
      (scripted script (quiet key)).keyWritten n = true) :
    (scripted script (quiet key)).KeyFirst := by
  intro n _ hoffer
  rcases Nat.lt_or_ge n (script.length + 1) with hn | hn
  · exact h n hn hoffer
  · rw [offers, scripted_ports _ _ (by omega)] at hoffer
    cases hoffer

end Run

end AesAccelerator
