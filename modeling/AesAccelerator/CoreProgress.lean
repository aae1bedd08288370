import AesAccelerator.BackToBack
import AesAccelerator.KeyStalls

/-! # The core gets on

When keys are no longer written and the write stream is ready again and again, the core does not
stop: a key still to be taken up costs a few cycles (`keyDebt`), and apart from these the pipeline
moves whenever the write stream is ready (`Settles.exists_move`).  So every beat that is offered is
accepted in the end (`Settles.exists_accepts`), and every beat that was accepted leaves the pipeline
(`Settles.exists_departed`).  What leaves the pipeline is delivered in that cycle
(`departed_sublist_delivered`); what is delivered otherwise is a repetition.

How long a beat takes is known to the cycle: it is on the write stream after ten moves of the
pipeline, whatever stalls lie between them (`exact_latency`). -/

namespace AesAccelerator

open ShiftPipeline

namespace Run

/-- From cycle `n` on there is no reset and no key write, and the sink is ready again and again. -/
structure Settles (x : Run) (n : ℕ) : Prop where
  rst : ∀ k, n ≤ k → x.rst k = false
  aesKeyWrite : ∀ k, n ≤ k → (x.ports k).aesKeyWrite = false
  writeTready : ∀ k, ∃ m, k ≤ m ∧ (x.ports m).writeTready = true

section progress
variable [Rom256x1] {x : Run} {n k : ℕ}

/-! ### The pipeline moves -/

theorem Settles.keyDebt_next (hs : x.Settles n) (hk : n ≤ k) :
    (x.state (k + 1)).keyDebt + (x.state k).keyStall.toNat ≤ (x.state k).keyDebt := by
  obtain ⟨j, rfl⟩ := exists_succ_of_not_rst (hs.rst k hk)
  have hstep := Core.keyDebt_step (x.keySync j) (hs.rst _ hk)
  rw [hs.aesKeyWrite _ hk, ← state_succ] at hstep
  exact hstep

theorem Settles.keyDebt_le (hs : x.Settles n) (hk : n ≤ k) {m : ℕ} (hm : k ≤ m) :
    (x.state m).keyDebt ≤ (x.state k).keyDebt := by
  induction m, hm using Nat.le_induction with
  | base => exact le_rfl
  | succ m hm ih =>
      have := hs.keyDebt_next (hk.trans hm)
      omega

/-- A cycle in which the sink is ready and the pipeline stalls takes off the debt. -/
theorem Settles.exists_not_stalls (hs : x.Settles n) (hk : n ≤ k) :
    ∃ m, k ≤ m ∧ x.stalls m = false := by
  have hgoal : ∃ k', k ≤ k' ∧ ∃ m, k' ≤ m ∧ x.stalls m = false := by
    refine Clocked.exists_of_falling (fun k => (x.state k).keyDebt) fun j hj hnone => ?_
    obtain ⟨m, hm, hready⟩ := hs.writeTready j
    have hstall : x.stalls m = true := by
      by_contra hmove
      exact hnone ⟨m, hm, (Bool.not_eq_true _).mp hmove⟩
    have hkey : (x.state m).keyStall = true := by
      simpa [stalls, Core.stall_eq, hready] using hstall
    have hle := hs.keyDebt_le (hk.trans hj) hm
    have hnext := hs.keyDebt_next (hk.trans (hj.trans hm))
    rw [hkey, Bool.toNat_true] at hnext
    exact ⟨m + 1, by omega, by omega⟩
  obtain ⟨k', hk', m, hm, hmove⟩ := hgoal
  exact ⟨m, hk'.trans hm, hmove⟩

/-- The next move; until then nothing in the pipeline changes. -/
theorem Settles.exists_move (hs : x.Settles n) (hk : n ≤ k) : ∃ m, k ≤ m ∧ x.stalls m = false ∧
    x.pipe m = x.pipe k ∧ x.departed m = x.departed k := by
  obtain ⟨m, hm, hmove⟩ := hs.exists_not_stalls hk
  obtain ⟨i, rfl⟩ := Nat.exists_eq_add_of_le hm
  clear hm
  induction i generalizing k with
  | zero => exact ⟨k, le_rfl, hmove, rfl, rfl⟩
  | succ i ih =>
      cases hstall : x.stalls k with
      | false => exact ⟨k, le_rfl, hstall, rfl, rfl⟩
      | true =>
          have hdeparted : x.departed (k + 1) = x.departed k := by
            simp [departed, hs.rst k hk, hstall]
          rw [show k + (i + 1) = k + 1 + i by omega] at hmove
          obtain ⟨m, hm, hmove, hpipe, hdep⟩ := ih (hk.trans (Nat.le_succ k)) hmove
          exact ⟨m, Nat.le_of_succ_le hm, hmove, hpipe.trans (pipe_stall (hs.rst k hk) hstall),
            hdep.trans hdeparted⟩

/-! ### What is offered is accepted -/

/-- The beat that is offered in cycle `m` is the one that is offered in cycle `k`. -/
def OffersSame (x : Run) (k m : ℕ) : Prop :=
  x.offers m = true ∧ (x.ports m).readTdata = (x.ports k).readTdata ∧
    (x.ports m).readTlast = (x.ports k).readTlast

/-- A source that holds its beats offers the same one until it is accepted. -/
theorem Settles.offersSame (hs : x.Settles n) (hsource : x.SourceHolds) (hk : n ≤ k)
    (hoffer : x.offers k = true) {m : ℕ} (hm : k ≤ m)
    (hwait : ∀ j, k ≤ j → j < m → x.accepts j = false) : x.OffersSame k m := by
  induction m, hm using Nat.le_induction with
  | base => exact ⟨hoffer, rfl, rfl⟩
  | succ m hm ih =>
      obtain ⟨hoffers, hdata, hlast⟩ := ih fun j hj hlt => hwait j hj (hlt.trans (Nat.lt_succ_self m))
      obtain ⟨hoffers', hdata', hlast'⟩ := hsource m (hs.rst m (hk.trans hm))
        (hs.rst _ (hk.trans (hm.trans (Nat.le_succ m)))) hoffers (hwait m hm (Nat.lt_succ_self m))
      exact ⟨hoffers', hdata'.trans hdata, hlast'.trans hlast⟩

/-- Every offered beat is accepted in the end. -/
theorem Settles.exists_accepts (hs : x.Settles n) (hsource : x.SourceHolds) (hk : n ≤ k)
    (hoffer : x.offers k = true) : ∃ m, k ≤ m ∧ x.accepts m = true ∧ x.OffersSame k m := by
  obtain ⟨m, hm, hmove⟩ := hs.exists_not_stalls hk
  have hgoal : ∃ m, k ≤ m ∧ x.accepts m = true := by
    by_contra hnone
    have hnever : ∀ j, k ≤ j → x.accepts j = false := fun j hj => by
      by_contra hacc
      exact hnone ⟨j, hj, (Bool.not_eq_false _).mp hacc⟩
    have hacc := hnever m hm
    rw [accepts_eq, (hs.offersSame hsource hk hoffer hm fun j hj _ => hnever j hj).1, hmove] at hacc
    cases hacc
  -- the first of them takes the beat
  obtain ⟨hfirst, hacc⟩ := Nat.find_spec hgoal
  refine ⟨Nat.find hgoal, hfirst, hacc, hs.offersSame hsource hk hoffer hfirst fun j hj hlt => ?_⟩
  by_contra hearlier
  exact Nat.find_min hgoal hlt ⟨hj, (Bool.not_eq_false _).mp hearlier⟩

/-! ### What is accepted is delivered -/

theorem Settles.accepted_grows (hs : x.Settles n) (hk : n ≤ k) {m : ℕ} (hm : k ≤ m) :
    x.accepted k <+: x.accepted m := by
  induction m, hm using Nat.le_induction with
  | base => exact List.prefix_refl _
  | succ m hm ih =>
      rw [accepted_step (hs.rst m (hk.trans hm))]
      exact ih.trans (List.prefix_append _ _)

theorem length_accepted_eq (n : ℕ) :
    (x.accepted n).length = (x.departed n).length + (occupants (x.pipe n)).length := by
  rw [← x.passengers_beats, List.length_map, passengers, List.length_append]

theorem lead_move (h : x.rst n = false) (hs : x.stalls n = false) :
    lead (x.pipe (n + 1)) = lead (advance (x.entering n) (x.pipe n)) := by
  unfold lead
  congr 1
  funext k
  rw [pipe_move h hs, Option.isSome_map]

/-- What moves out of the last stage is delivered in that cycle. -/
theorem delivers_of_move {q : Passenger} (hsh : x.Shadowed n) (hs : x.stalls n = false)
    (hq : x.pipe n (Fin.last 10) = some q) :
    x.delivers n = true ∧ ((x.state n).writeTdata, (x.state n).writeTlast) = q.output := by
  refine ⟨?_, taken_eq hsh hq⟩
  have hvalid : (x.state n).writeTvalid = true := (hsh _).1.trans (by rw [hq]; rfl)
  rw [stalls, Core.stall_eq, hvalid] at hs
  rw [delivers, hvalid]
  simpa using (Bool.or_eq_false_iff.mp hs).1

/-- What has left the pipeline is among the deliveries, in order. -/
theorem departed_sublist_delivered : ∀ n,
    ((x.departed (n + 1)).map Passenger.output).Sublist (x.delivered (n + 1)) := by
  refine Clocked.since_reset_with (r := x.rst) (Q := x.Shadowed)
    (P := fun n => ((x.departed n).map Passenger.output).Sublist (x.delivered n)) x.reset_first
    x.shadowed ?_ ?_
  · intro n h
    simp [departed, h]
  · intro n h hsh ih
    rw [delivered_step h]
    cases hs : x.stalls n with
    | true =>
        simp only [departed, h, hs]
        exact ih.trans (List.sublist_append_left _ _)
    | false =>
        have hdeparted : x.departed (n + 1) = x.departed n ++ (x.pipe n (Fin.last 10)).toList := by
          simp [departed, h, hs]
        rw [hdeparted, List.map_append]
        refine ih.append ?_
        cases hq : x.pipe n (Fin.last 10) with
        | none => exact List.nil_sublist _
        | some q =>
            obtain ⟨hdelivers, houtput⟩ := delivers_of_move hsh hs hq
            rw [hdelivers, houtput]
            exact List.Sublist.refl _

/-- Every beat that was accepted leaves the pipeline. -/
theorem Settles.exists_departed (hs : x.Settles n) (hk : n ≤ k) :
    ∃ m, k ≤ m ∧ (x.accepted k).length ≤ (x.departed m).length := by
  refine Clocked.exists_of_falling (P := fun m => (x.accepted k).length ≤ (x.departed m).length)
    (fun m => 12 * ((x.accepted k).length - (x.departed m).length) + lead (x.pipe m)) ?_
  intro j hj hmore
  obtain ⟨m, hm, hmove, hpipe, hdeparted⟩ := hs.exists_move (hk.trans hj)
  have hrst := hs.rst m (hk.trans (hj.trans hm))
  have hstep : x.departed (m + 1) = x.departed m ++ (x.pipe m (Fin.last 10)).toList := by
    simp [departed, hrst, hmove]
  refine ⟨m + 1, hm.trans (Nat.le_succ m), ?_⟩
  simp only [hstep, List.length_append, lead_move hrst hmove, hdeparted]
  rw [← hpipe]
  cases hq : x.pipe m (Fin.last 10) with
  | some q =>
      have hle := lead_le (advance (x.entering m) (x.pipe m))
      simp only [Option.toList_some, List.length_singleton]
      omega
  | none =>
      -- the beats that are still to leave are in the pipeline
      have hinside : occupants (x.pipe m) ≠ [] := by
        have hle := (hs.accepted_grows hk (hj.trans hm)).length_le
        rw [length_accepted_eq m, hdeparted] at hle
        intro hnil
        rw [hnil, List.length_nil] at hle
        exact hmore hle
      have hlead := lead_advance hq (Or.inr hinside) (x := x.entering m)
      simp only [Option.toList_none, List.length_nil]
      omega

theorem departed_beats (n : ℕ) : (x.departed n).map Passenger.beat <+: x.accepted n := by
  rw [← x.passengers_beats n, passengers, List.map_append]
  exact List.prefix_append _ _

/-- Every beat that was accepted leaves the pipeline in its turn, and all that has left it was
delivered. -/
theorem Settles.exists_delivered (hs : x.Settles n) (hk : n ≤ k) :
    ∃ m, k ≤ m ∧ x.accepted k <+: (x.departed m).map Passenger.beat ∧
      ((x.departed m).map Passenger.output).Sublist (x.delivered m) := by
  obtain ⟨m, hm, hle⟩ := hs.exists_departed hk
  obtain ⟨j, rfl⟩ := exists_succ_of_not_rst (hs.rst m (hk.trans hm))
  refine ⟨j + 1, hm, ?_, departed_sublist_delivered j⟩
  exact List.prefix_of_prefix_length_le (hs.accepted_grows hk hm) (departed_beats _)
    (by rwa [List.length_map])

/-- **Beats get through**: once keys are no longer written, and as long as the sink is ready again
and again, the pipeline always moves again, every offered beat is accepted in the end, whatever moves
out of the pipeline is delivered in that cycle, and all the beats that were accepted do move out, in
order. -/
theorem beats_get_through (x : Run) (hsource : x.SourceHolds) (n : ℕ) (hs : x.Settles n) (k : ℕ)
    (hk : n ≤ k) :
    (∃ m, k ≤ m ∧ x.stalls m = false) ∧
      (x.offers k = true → ∃ m, k ≤ m ∧ x.accepts m = true ∧ x.OffersSame k m) ∧
      (∀ m, k ≤ m → x.stalls m = false → ∀ q, x.pipe m (Fin.last 10) = some q →
        x.delivers m = true ∧ ((x.state m).writeTdata, (x.state m).writeTlast) = q.output) ∧
      ∃ m, k ≤ m ∧ x.accepted k <+: (x.departed m).map Passenger.beat ∧
        ((x.departed m).map Passenger.output).Sublist (x.delivered m) := by
  refine ⟨hs.exists_not_stalls hk, hs.exists_accepts hsource hk, fun m hm hmove q hq => ?_,
    hs.exists_delivered hk⟩
  obtain ⟨j, rfl⟩ := exists_succ_of_not_rst (hs.rst m (hk.trans hm))
  exact delivers_of_move (x.shadowed j) hmove hq

/-! ### The latency -/

/-- A beat is in the stage that is the number of moves since it was accepted. -/
theorem exists_passenger {t m : ℕ} (hacc : x.accepts t = true)
    (hrst : ∀ i, i ≤ m → x.rst (t + i) = false) : ∀ {k : Fin 11},
    Nat.count (fun i => x.stalls (t + 1 + i) = false) m = k →
      ∃ q, x.pipe (t + 1 + m) k = some q ∧ q.beat = x.beat t := by
  obtain ⟨hoffer, hmove⟩ : x.offers t = true ∧ x.stalls t = false := by
    simpa [accepts_eq] using hacc
  induction m with
  | zero =>
      intro k hk
      obtain rfl : k = 0 := Fin.ext (by simpa using hk.symm)
      have h : x.rst t = false := hrst 0 le_rfl
      refine ⟨Passenger.meet ((x.state t).rounder1.roundKeys 0) ⟨x.beat t, []⟩, ?_, rfl⟩
      rw [Nat.add_zero, pipe_move h hmove, advance_zero, entering, if_pos hoffer]
      rfl
  | succ m ih =>
      have hrst' : ∀ i, i ≤ m → x.rst (t + i) = false := fun i hi => hrst i (Nat.le_succ_of_le hi)
      have h : x.rst (t + 1 + m) = false := by
        rw [show t + 1 + m = t + (m + 1) by omega]
        exact hrst _ le_rfl
      intro k hk
      rw [Nat.count_succ] at hk
      cases hs : x.stalls (t + 1 + m) with
      | true =>
          rw [hs, if_neg (by decide), Nat.add_zero] at hk
          obtain ⟨q, hq, hbeat⟩ := ih hrst' hk
          exact ⟨q, (congrFun (pipe_stall h hs) k).trans hq, hbeat⟩
      | false =>
          rw [hs, if_pos rfl] at hk
          induction k using Fin.cases with
          | zero => exact absurd hk (Nat.succ_ne_zero _)
          | succ k =>
              rw [Fin.val_succ] at hk
              obtain ⟨q, hq, hbeat⟩ := ih hrst' (k := k.castSucc) (Nat.succ.inj hk)
              refine ⟨Passenger.meet ((x.state (t + 1 + m)).rounder1.roundKeys k.succ) q, ?_, hbeat⟩
              have hnext := pipe_move h hs k.succ
              rw [advance_succ, hq] at hnext
              exact hnext

/-- **The latency is ten moves**: an accepted block is on the write stream, encrypted with the key
that was in the key register, as soon as the pipeline has moved ten times since, and until it moves
again.  The source holds its beats, a key is written before the first one, and later keys only when
nothing is offered, no packet is open and all that was accepted has been delivered. -/
theorem exact_latency (x : Run) (hsource : x.SourceHolds) (hquiet : x.QuietWrites)
    (hkey : x.KeyDiscipline) (hfirst : x.KeyFirst) (t m : ℕ) (hacc : x.accepts t = true)
    (hrst : ∀ i, i ≤ m → x.rst (t + i) = false)
    (hmoves : Nat.count (fun i => x.stalls (t + 1 + i) = false) m = 10) :
    (x.state (t + 1 + m)).writeTvalid = true ∧
      (x.state (t + 1 + m)).writeTdata = Fips197.cipher (x.beat t).aesKey (x.beat t).tdata ∧
      (x.state (t + 1 + m)).writeTlast = (x.beat t).tlast := by
  obtain ⟨q, hq, hbeat⟩ := exists_passenger hacc hrst (k := Fin.last 10) hmoves
  rw [Nat.add_right_comm t 1 m] at hq ⊢
  have hu := (quiet_undisturbed hsource hquiet hkey hfirst (t + m)).2
  have hvalid : (x.state (t + m + 1)).writeTvalid = (x.pipe (t + m + 1) (Fin.last 10)).isSome :=
    (x.shadowed (t + m) _).1
  have hout := taken_eq (x.shadowed (t + m)) hq
  rw [Passenger.output, (hu.keyed.inside _ q hq).1, Fin.val_last, image_schedule_eq_cipher,
    hbeat] at hout
  exact ⟨by rw [hvalid, hq]; rfl, congrArg Prod.fst hout, congrArg Prod.snd hout⟩

end progress

/-- Two packets right behind a key write: the first block comes eleven cycles after it is accepted. -/
theorem exact_latency_twoBursts : (twoBursts.state 15).writeTvalid = true ∧
    (twoBursts.state 15).writeTdata =
      Fips197.cipher (twoBursts.beat 4).aesKey (twoBursts.beat 4).tdata ∧
    (twoBursts.state 15).writeTlast = (twoBursts.beat 4).tlast :=
  exact_latency twoBursts (scripted_sourceHolds _ _ (by decide +kernel)) twoBursts_quietWrites
    (scripted_keyDiscipline _ _ (by decide)) (scripted_keyFirst _ _ (by decide)) 4 10
    (by decide +kernel) (by decide +kernel) (by decide +kernel)

theorem scripted_settles (script : List CorePorts) (key : AesMatrix) {n : ℕ}
    (h : ∀ k < script.length + 1, n ≤ k → (scripted script (quiet key)).rst k = false ∧
      ((scripted script (quiet key)).ports k).aesKeyWrite = false) :
    (scripted script (quiet key)).Settles n := by
  have hrest : ∀ k, n ≤ k → (scripted script (quiet key)).rst k = false ∧
      ((scripted script (quiet key)).ports k).aesKeyWrite = false := by
    intro k hk
    rcases Nat.lt_or_ge k (script.length + 1) with hlt | hge
    · exact h k hlt hk
    · rw [rst, scripted_ports script _ hge]
      exact ⟨rfl, rfl⟩
  refine ⟨fun k hk => (hrest k hk).1, fun k hk => (hrest k hk).2, fun k => ?_⟩
  refine ⟨max k (script.length + 1), le_max_left _ _, ?_⟩
  rw [scripted_ports script _ (Nat.lt_of_succ_le (le_max_right k _))]
  rfl

/-- A beat that waits two cycles for the key. -/
theorem beats_get_through_offeredWithAck :
    (offeredWithAck.offers 2 = true ∧ offeredWithAck.accepts 2 = false ∧
      ∃ m, 2 ≤ m ∧ offeredWithAck.accepts m = true ∧ offeredWithAck.OffersSame 2 m) ∧
    (∃ m, 5 ≤ m ∧ offeredWithAck.stalls m = false) ∧
    (∀ m, 5 ≤ m → offeredWithAck.stalls m = false →
      ∀ q, offeredWithAck.pipe m (Fin.last 10) = some q → offeredWithAck.delivers m = true ∧
        ((offeredWithAck.state m).writeTdata, (offeredWithAck.state m).writeTlast) = q.output) ∧
    (offeredWithAck.accepted 5).length = 1 ∧
      ∃ m, 5 ≤ m ∧ offeredWithAck.accepted 5 <+: (offeredWithAck.departed m).map Passenger.beat ∧
        ((offeredWithAck.departed m).map Passenger.output).Sublist (offeredWithAck.delivered m) := by
  have hsource : offeredWithAck.SourceHolds := scripted_sourceHolds _ _ (by decide +kernel)
  have hs : offeredWithAck.Settles 2 := scripted_settles _ _ (by decide)
  have hoffer : offeredWithAck.offers 2 = true := by decide
  obtain ⟨-, haccepted, -⟩ := beats_get_through offeredWithAck hsource 2 hs 2 le_rfl
  obtain ⟨hmoves, -, hdelivers, hdeparted⟩ :=
    beats_get_through offeredWithAck hsource 2 hs 5 (by decide)
  exact ⟨⟨hoffer, by decide +kernel, haccepted hoffer⟩, hmoves, hdelivers, by decide +kernel,
    hdeparted⟩

end Run

end AesAccelerator
