import AesAccelerator.Conservation
import AesAccelerator.Keyed

/-! # Streams that no key change disturbs

When keys are acknowledged only while the pipeline is empty, every beat is behind the
synchronization front, so the local round keys it needs are always in place before it arrives.
`Undisturbed keyOf n` collects what then holds of both streams: nothing is in front of the
synchronization, what was taken is what has left the pipeline, and every beat has met the round
keys of its key.  One cycle keeps it (`undisturbed_step`), and it makes the write stream the
image of the read stream under AES-128 (`Undisturbed.delivered`). -/

namespace AesAccelerator

open ShiftPipeline

namespace Run

section undisturbed
variable [Rom256x1] (x : Run)

def Empty (n : ℕ) : Prop := ∀ k, x.pipe n k = none

/-- Every beat in the pipeline is behind the synchronization front. -/
def FrontClear (n : ℕ) : Prop := (x.state n).rounder1.refreshState = .syncing →
  ∀ k q, x.pipe n k = some q → (k : ℕ) + 2 ≤ (x.state n).rounder1.keySyncingCounter

structure Undisturbed (keyOf : Beat → AesMatrix) (n : ℕ) : Prop where
  frontClear : x.FrontClear n
  taken : x.delivered n = (x.departed n).map Passenger.output
  keyed : x.KeyedBy keyOf n

variable {x} {n : ℕ} {keyOf : Beat → AesMatrix}

theorem empty_of_keyStall (hack : (x.state n).rounderKeyAck = true → x.Empty n)
    (hfront : x.FrontClear n) (hk : (x.state n).keyStall = true) : x.Empty n := by
  simp only [Core.keyStall, Bool.or_eq_true, Bool.and_eq_true, beq_iff_eq] at hk
  rcases hk with hk | ⟨hs, hc⟩
  · exact hack hk
  · intro k
    cases hq : x.pipe n k with
    | none => rfl
    | some q =>
        have := hfront hs k q hq
        omega

/-- A beat that is taken is not held. -/
theorem not_takenInKeyStall (hack : (x.state n).rounderKeyAck = true → x.Empty n)
    (hfront : x.FrontClear n) (hsh : x.Shadowed n) : x.takenInKeyStall n = false := by
  by_contra hcon
  have htaken : x.takenInKeyStall n = true := by simpa using hcon
  simp only [takenInKeyStall, delivers, Bool.and_eq_true] at htaken
  obtain ⟨⟨-, hvalid, -⟩, hk⟩ := htaken
  have hlast := empty_of_keyStall hack hfront hk (Fin.last 10)
  have : (x.state n).writeTvalid = (x.pipe n (Fin.last 10)).isSome := (hsh _).1
  rw [this, hlast] at hvalid
  cases hvalid

theorem keepsKeys (hack : (x.state n).rounderKeyAck = true → x.Empty n)
    (hfront : x.FrontClear n) (hsh : x.Shadowed n) : (x.state n).KeepsKeys (x.ports n) := by
  have hpassenger : ∀ k, (x.state n).validAt k → ∃ q, x.pipe n k = some q := fun k hv =>
    Option.isSome_iff_exists.mp (by rw [← (hsh k).1]; exact hv)
  constructor
  · intro hs _ k hk hv
    obtain ⟨q, hq⟩ := hpassenger k hv
    have := hfront hs k q hq
    omega
  · intro hs ha _ k _ hv
    obtain ⟨q, hq⟩ := hpassenger k hv
    rw [hack ha k] at hq
    cases hq

theorem frontClear_step (h : x.rst n = false) (hI : (x.state n).KeySync)
    (hack : (x.state n).rounderKeyAck = true → x.Empty n) (hfront : x.FrontClear n) :
    x.FrontClear (n + 1) := by
  intro hsync
  cases Core.step_refresh_cases (c := x.state n) h with
  | rest _ _ hs' | finish _ _ _ hs' =>
      rw [state_succ, hs'] at hsync
      cases hsync
  | begin _ ha | restart _ ha =>
      intro k q hq
      have hs : x.stalls n = true := Core.stall_of_ack ha
      rw [pipe_stall h hs, hack ha k] at hq
      cases hq
  | copy hs ha hne _ hc' =>
      have hcount : (x.state (n + 1)).rounder1.keySyncingCounter =
          (x.state n).rounder1.keySyncingCounter + 1 := by
        have := (hI.front hs).1
        rw [state_succ, hc']
        omega
      rw [hcount]
      cases hst : x.stalls n with
      | true =>
          intro k q hq
          rw [pipe_stall h hst] at hq
          have := hfront hs k q hq
          omega
      | false =>
          refine Fin.cases (fun q _ => ?_) (fun k q hq => ?_)
          · have : (x.state n).rounder1.keySyncingCounter ≠ 0 := fun hc => by
              rw [stalls, Core.stall_of_syncing_zero hs hc] at hst
              cases hst
            rw [Fin.val_zero]
            omega
          · rw [pipe_move h hst, advance_succ] at hq
            obtain ⟨q₀, hq₀, -⟩ := Option.map_eq_some_iff.mp hq
            have := hfront hs k.castSucc q₀ hq₀
            rw [Fin.val_castSucc] at this
            rw [Fin.val_succ]
            omega

theorem undisturbed_reset (h : x.rst n = true) : x.Undisturbed keyOf (n + 1) where
  frontClear hs := by
    rw [state_succ, (Core.step_reset (c := x.state n) h).2.2.1] at hs
    cases hs
  taken := by simp [delivered, departed, h]
  keyed := keyedBy_reset h

theorem undisturbed_step (hfirst : x.KeyFirst) (h : x.rst n = false)
    (hI : (x.state n).KeySync) (hsh : x.Shadowed n) (hr : x.Ready n)
    (hack : (x.state n).rounderKeyAck = true → x.Empty n)
    (henter : x.accepts n = true → keyOf (x.beat n) = (x.state n).targetKey)
    (ih : x.Undisturbed keyOf n) : x.Undisturbed keyOf (n + 1) where
  frontClear := frontClear_step h hI hack ih.frontClear
  taken := delivered_eq_departed_step h (not_takenInKeyStall hack ih.frontClear hsh) hsh ih.taken
  keyed := keyedBy_step hfirst h hI hsh hr (keepsKeys hack ih.frontClear hsh) henter ih.keyed

/-- What was taken is the image of the first accepted beats, each under its own key. -/
theorem Undisturbed.delivered (hu : x.Undisturbed keyOf n) : x.delivered n <+:
    (x.accepted n).map fun b => (Fips197.cipher (keyOf b) b.tdata, b.tlast) := by
  have hout : (x.departed n).map Passenger.output = ((x.departed n).map Passenger.beat).map
      fun b => (Fips197.cipher (keyOf b) b.tdata, b.tlast) := by
    rw [List.map_map]
    apply List.map_congr_left
    intro q hq
    unfold Passenger.output
    rw [hu.keyed.departed q hq, image_schedule_eq_cipher]
    rfl
  rw [hu.taken, hout, ← x.passengers_beats, passengers, List.map_append, List.map_append]
  exact List.prefix_append _ _

end undisturbed

end Run

end AesAccelerator
