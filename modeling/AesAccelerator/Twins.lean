import AesAccelerator.Unkeyed

/-! # Two runs with the same inputs

`Twins x y`: both runs start with a reset and have the same inputs from then on.  What they had
in their registers before is arbitrary.  From the first reset on they agree on all control
registers (`Twins.sameControl`) and on the loaded key, and they agree on every local round
key once a synchronization has written it.

Whether their write streams agree is then a matter of the first beats.  They agree if a beat that
passes all stages after starting before any key has met round keys that were written
(`Twins.sameWrites`), and two runs that differ in the last local round key differ if not
(`Twins.exposed`). -/

namespace AesAccelerator

open ShiftPipeline

/-- The write streams are equal: same `write_tvalid`, and what is offered is the same. -/
structure Core.SameWrites (a b : Core) : Prop where
  tvalid : a.writeTvalid = b.writeTvalid
  tdata : a.writeTvalid = true → a.writeTdata = b.writeTdata
  tlast : a.writeTvalid = true → a.writeTlast = b.writeTlast

namespace Run

structure Twins (x y : Run) : Prop where
  ports : ∀ n, (x.ports (n + 1)).Same (y.ports (n + 1))

variable [Rom256x1]

section agreement
variable (x y : Run)

/-- The two runs agree on local round key `j`. -/
def AgreeKey (n : ℕ) (j : Fin 11) : Prop :=
  (x.state n).rounder1.roundKeys j = (y.state n).rounder1.roundKeys j

/-- The two runs agree on the block in stage `k`, if there is one. -/
def AgreeBlock (n : ℕ) (k : Fin 11) : Prop :=
  (x.state n).validAt k → (x.state n).rounder1.blocks k = (y.state n).rounder1.blocks k

end agreement

section twins
variable {x y : Run} {n : ℕ} (ht : x.Twins y)
include ht

/-! ### Control -/

omit [Rom256x1] in
theorem Twins.rst_eq : ∀ n, x.rst n = y.rst n
  | 0 => x.reset_first.trans y.reset_first.symm
  | n + 1 => (ht.ports n).rst

theorem Twins.sameControl : ∀ n, (x.state (n + 1)).SameControl (y.state (n + 1))
  | 0 => by
      obtain ⟨hR, hK, hs, hT⟩ := Core.step_reset (c := x.state 0) x.reset_first
      obtain ⟨hR', hK', hs', hT'⟩ := Core.step_reset (c := y.state 0) y.reset_first
      obtain ⟨-, -, hc, hv⟩ := Rounder.step_reset (r := (x.state 0).rounder1)
        (p := (x.state 0).rounderPorts (x.ports 0)) x.reset_first
      obtain ⟨-, -, hc', hv'⟩ := Rounder.step_reset (r := (y.state 0).rounder1)
        (p := (y.state 0).rounderPorts (y.ports 0)) y.reset_first
      have hk : (x.state 1).keys = _ :=
        KeyExpansion.step_reset (p := (x.state 0).keysPorts (x.ports 0)) x.reset_first
      have hk' : (y.state 1).keys = _ :=
        KeyExpansion.step_reset (p := (y.state 0).keysPorts (y.ports 0)) y.reset_first
      exact ⟨by rw [hk, hk'], by rw [hk, hk'], hT.trans hT'.symm, hs.trans hs'.symm,
        hc.trans hc'.symm, hv.trans hv'.symm, hK.trans hK'.symm, hR.trans hR'.symm⟩
  | n + 1 => Core.sameControl_step (Twins.sameControl n) (ht.ports n)

omit [Rom256x1] in
theorem Twins.keyWritten_eq : ∀ n, x.keyWritten (n + 1) = y.keyWritten (n + 1)
  | 0 => by
      have hx : x.keyWritten 1 = false := Clocked.since_succ_of_reset x.reset_first
      have hy : y.keyWritten 1 = false := Clocked.since_succ_of_reset y.reset_first
      rw [hx, hy]
  | n + 1 => by
      rw [keyWritten_succ x, keyWritten_succ y, ht.rst_eq, (ht.ports n).aesKeyWrite,
        Twins.keyWritten_eq n]

omit [Rom256x1] in
theorem Twins.unkeyedAge_eq : ∀ n, x.unkeyedAge (n + 1) = y.unkeyedAge (n + 1)
  | 0 => by simp [unkeyedAge, rst, x.reset_first, y.reset_first]
  | n + 1 => by
      rw [unkeyedAge_succ x, unkeyedAge_succ y, ht.rst_eq, Twins.unkeyedAge_eq n,
        ht.keyWritten_eq n, offers, offers, (ht.ports n).readTvalid]

theorem Twins.overwritten_eq : ∀ n, x.overwritten (n + 1) = y.overwritten (n + 1)
  | 0 => by simp [overwritten, rst, x.reset_first, y.reset_first]
  | n + 1 => by
      rw [overwritten_succ x, overwritten_succ y, ht.rst_eq, Twins.overwritten_eq n,
        (ht.sameControl n).refreshState, (ht.sameControl n).keySyncingCounter]

theorem Twins.stalls_eq (n : ℕ) : x.stalls (n + 1) = y.stalls (n + 1) :=
  (ht.sameControl n).stall (ht.ports n)

/-! ### Round keys -/

/-- Both key expansions follow the key that was taken since the reset. -/
theorem Twins.loadedKey_eq : ∀ n, (x.state (n + 1)).FollowsLoaded →
    (x.state (n + 1)).loadedKey = (y.state (n + 1)).loadedKey := by
  refine Clocked.since_reset_with (r := x.rst)
    (Q := fun n => (x.state n).KeySync ∧ (y.state n).KeySync ∧ (x.state n).SameControl (y.state n) ∧
      (x.ports n).Same (y.ports n) ∧ y.rst n = x.rst n)
    (P := fun n => (x.state n).FollowsLoaded → (x.state n).loadedKey = (y.state n).loadedKey)
    x.reset_first
    (fun n => ⟨x.keySync n, y.keySync n, ht.sameControl n, ht.ports n, (ht.rst_eq _).symm⟩)
    (fun n h hf => absurd hf (Core.not_followsLoaded_reset h)) ?_
  rintro n h ⟨hI, hI', hc, hp, hr⟩ ih hf
  have hfollows := Core.followsLoaded_step h hf
  have hack := hc.keyExpansionAck (x.ports n) (y.ports n)
  rw [state_succ, state_succ, Core.step_loadedKey h (hfollows.imp id hI.loaded),
    Core.step_loadedKey (hr.trans h) (hfollows.imp (hack ▸ id) fun hx =>
      hI'.loaded (hc.followsLoaded.mp hx)), ← hack, hp.aesKey]
  split_ifs with hk
  · rfl
  · exact ih (hfollows.resolve_left hk)

theorem Twins.selectedKey_eq (hs : (x.state (n + 1)).rounder1.refreshState = .syncing) :
    (x.state (n + 1)).selectedKey (x.ports (n + 1)) =
      (y.state (n + 1)).selectedKey (y.ports (n + 1)) := by
  have hc := ht.sameControl n
  rw [(x.keySync n).selectedKey_eq hs, (y.keySync n).selectedKey_eq (hc.refreshState ▸ hs),
    ht.loadedKey_eq n (Or.inr hs), hc.keySyncingCounter]

/-- Below its counter a synchronization has written what both runs agree on. -/
theorem Twins.agreeKey_below (hs : (x.state (n + 1)).rounder1.refreshState = .syncing)
    {j : Fin 11} (hj : (j : ℕ) < (x.state (n + 1)).rounder1.keySyncingCounter) :
    x.AgreeKey y (n + 1) j := by
  have hc := ht.sameControl n
  unfold AgreeKey
  rw [((x.keySync n).front hs).2.2 j hj,
    ((y.keySync n).front (hc.refreshState ▸ hs)).2.2 j (hc.keySyncingCounter ▸ hj),
    ht.loadedKey_eq n (Or.inr hs)]

theorem Twins.roundKeys_step (n : ℕ) (j : Fin 11) :
    (x.AgreeKey y (n + 1) j → x.AgreeKey y (n + 2) j) ∧
      (x.rst (n + 1) = false → (x.state (n + 1)).rounder1.refreshState = .syncing →
        (j : ℕ) = (x.state (n + 1)).rounder1.keySyncingCounter → x.AgreeKey y (n + 2) j) := by
  have hc := ht.sameControl n
  have hp := ht.ports n
  unfold AgreeKey
  rw [state_succ x (n + 1), state_succ y (n + 1), Core.step_roundKeys, Core.step_roundKeys,
    ← hp.rst, ← hc.refreshState, ← hc.keySyncingCounter]
  constructor
  · intro hj
    split_ifs with hw
    · exact ht.selectedKey_eq hw.2.1
    · exact hj
  · intro h hs hj
    have hw : (x.ports (n + 1)).rst = false ∧
        (x.state (n + 1)).rounder1.refreshState = .syncing ∧
          (j : ℕ) = (x.state (n + 1)).rounder1.keySyncingCounter := ⟨h, hs, hj⟩
    rw [if_pos hw, if_pos hw]
    exact ht.selectedKey_eq hs

/-- Once the last local round key has been written, so have all the others. -/
theorem Twins.agreeKey_of_overwritten : ∀ n, x.overwritten (n + 1) = true →
    ∀ j, x.AgreeKey y (n + 1) j
  | 0, how, _ => by simp [overwritten, rst, x.reset_first] at how
  | n + 1, how, j => by
      cases how₀ : x.overwritten (n + 1) with
      | true => exact (ht.roundKeys_step n j).1 (Twins.agreeKey_of_overwritten n how₀ j)
      | false =>
          rw [overwritten_succ, how₀] at how
          simp only [Bool.false_or, Bool.and_eq_true, Bool.not_eq_true', beq_iff_eq] at how
          obtain ⟨⟨h, hs⟩, hcount⟩ := how
          rcases Nat.lt_or_eq_of_le (show (j : ℕ) ≤ 10 by omega) with hj | hj
          · exact (ht.roundKeys_step n j).1 (ht.agreeKey_below hs (hcount.symm ▸ hj))
          · exact (ht.roundKeys_step n j).2 h hs (hcount.symm ▸ hj)

/-! ### Blocks -/

/-- A cycle keeps the agreement on the blocks when every beat that moves meets a round key that
both runs agree on. -/
theorem Twins.agreeBlock_step (h : x.rst (n + 1) = false) {k : Fin 11}
    (hmeet : x.stalls (n + 1) = false → (x.state (n + 2)).validAt k → x.AgreeKey y (n + 1) k)
    (hb : ∀ j ≤ k, x.AgreeBlock y (n + 1) j) : x.AgreeBlock y (n + 2) k := by
  intro hv
  have h' : y.rst (n + 1) = false := ht.rst_eq _ ▸ h
  cases hs : x.stalls (n + 1) with
  | true =>
      have hs' : y.stalls (n + 1) = true := ht.stalls_eq n ▸ hs
      rw [Core.validAt, status_stall h hs] at hv
      rw [blocks_stall h hs, blocks_stall h' hs']
      exact hb k le_rfl hv
  | false =>
      have hs' : y.stalls (n + 1) = false := ht.stalls_eq n ▸ hs
      have hkey := hmeet hs hv
      unfold AgreeKey at hkey
      rw [blocks_move h hs, blocks_move h' hs', hkey]
      congr 1
      rw [Core.validAt, status_move h hs] at hv
      revert hv hb
      refine Fin.cases (fun _ _ => (ht.ports n).readTdata) (fun j hb hv => ?_) k
      exact hb j.castSucc (Fin.castSucc_le_succ j) hv

omit ht in
theorem agreeBlock_reset (h : x.rst n = true) (k : Fin 11) : x.AgreeBlock y (n + 1) k := by
  intro hv
  rw [Core.validAt, status_reset h] at hv
  cases hv

end twins

/-! ### Streams that are covered -/

section covered
variable {x y : Run} {n : ℕ}

/-- A beat that has passed all stages, having started before any key, found round keys that had
been written. -/
def Covered (x : Run) : Prop := ∀ n, x.unkeyedAge n = 11 → x.overwritten n = true

omit [Rom256x1] in
theorem unkeyedAge_of_keyFirst (hfirst : x.KeyFirst) : ∀ n, x.unkeyedAge n = 0
  | 0 => rfl
  | n + 1 => by
      rw [unkeyedAge_succ, unkeyedAge_of_keyFirst hfirst n]
      cases h : x.rst n with
      | true => rfl
      | false =>
          cases ho : x.offers n with
          | true => simp [hfirst n h ho]
          | false => simp

/-- Streams that start after a key are covered. -/
theorem covered_of_keyFirst (hfirst : x.KeyFirst) : x.Covered := fun n hage => by
  rw [unkeyedAge_of_keyFirst hfirst] at hage
  cases hage

theorem Twins.covered_iff (ht : x.Twins y) : x.Covered ↔ y.Covered := by
  have main : ∀ {x y : Run}, x.Twins y → x.Covered → y.Covered := by
    intro x y ht hc n hage
    cases n with
    | zero => cases hage
    | succ n =>
        rw [← ht.overwritten_eq n]
        exact hc _ ((ht.unkeyedAge_eq n).trans hage)
  refine ⟨main ht, main ⟨fun n => ?_⟩⟩
  obtain ⟨h₁, h₂, h₃, h₄, h₅, h₆, h₇⟩ := ht.ports n
  exact ⟨h₁.symm, h₂.symm, h₃.symm, h₄.symm, h₅.symm, h₆.symm, h₇.symm⟩

theorem Covered.later (hc : x.Covered) : ∀ n, 11 ≤ x.unkeyedAge n → x.overwritten n = true
  | 0, hage => by simp [unkeyedAge] at hage
  | n + 1, hage => by
      rcases Nat.eq_or_lt_of_le hage with heq | hlt
      · exact hc _ heq.symm
      · rw [unkeyedAge_succ] at hlt
        split_ifs at hlt with hr h0
        · omega
        · rw [overwritten_succ, Covered.later hc n (by omega), Bool.true_or]
        · omega
        · omega

/-- No synchronization ends while the first beat, started before any key, is under way. -/
theorem Covered.before (hc : x.Covered) (h : x.rst (n + 1) = false)
    (hage : x.unkeyedAge (n + 2) ≠ 0) (how : x.overwritten (n + 2) = true) :
    x.overwritten (n + 1) = true := by
  by_contra hcon
  have hcon : x.overwritten (n + 1) = false := by simpa using hcon
  rw [overwritten_succ, hcon] at how
  simp only [Bool.false_or, Bool.and_eq_true, beq_iff_eq] at how
  have hidle : (x.state (n + 1)).rounder1.refreshState = .idle := by
    rw [unkeyedAge_succ, if_neg (ne_true_of_eq_false h)] at hage
    split_ifs at hage with h0 hoffer
    · have hlt : x.unkeyedAge (n + 1) < 11 := by
        by_contra hge
        rw [hc.later _ (by omega)] at hcon
        cases hcon
      exact ((x.phase n).leading ⟨x.unkeyedAge (n + 1) - 1, by omega⟩ (by simp only; omega)).refresh
    · simp only [Bool.and_eq_true, Bool.not_eq_true'] at hoffer
      exact ((x.phase n).unkeyed (not_not.mp h0) hoffer.2).1.refresh
    · exact absurd rfl hage
  rw [hidle] at how
  exact absurd how.1.2 (by decide)

/-- Without an earlier synchronization, and with no beat started before a key, a beat that moves
meets a round key below the counter. -/
theorem below_of_move (h : x.rst (n + 1) = false) (hage : x.unkeyedAge (n + 2) = 0)
    (how : x.overwritten (n + 1) = false) (hs : x.stalls (n + 1) = false) {k : Fin 11}
    (hv : (x.state (n + 2)).validAt k) : (x.state (n + 1)).rounder1.refreshState = .syncing ∧
      (k : ℕ) < (x.state (n + 1)).rounder1.keySyncingCounter := by
  obtain ⟨hage₀, hoffer⟩ := unkeyedAge_eq_zero h hage
  have hsome : (x.pipe (n + 2) k).isSome = true := (x.shadowed (n + 1) k).1.symm.trans hv
  cases hkw : x.keyWritten (n + 1) with
  | false =>
      have hE := empty_step h ((x.phase n).unkeyed hage₀ hkw).1.empty (hoffer hkw)
      rw [hE k] at hsome
      cases hsome
  | true =>
      rcases (x.phase n).keyed hage₀ hkw how with ⟨hu, hR⟩ | hf
      · have hack := Core.rounderKeyAck_iff.mpr ⟨hR, hu.transaction⟩
        rw [stalls, Core.stall_of_ack hack] at hs
        cases hs
      · refine ⟨hf.refresh, ?_⟩
        revert hsome
        refine Fin.cases (fun _ => ?_) (fun j hsome => ?_) k
        · have : (x.state (n + 1)).rounder1.keySyncingCounter ≠ 0 := fun hc => by
            rw [stalls, Core.stall_of_syncing_zero hf.refresh hc] at hs
            cases hs
          rw [Fin.val_zero]
          omega
        · rw [pipe_move h hs, advance_succ, Option.isSome_map] at hsome
          obtain ⟨q, hq⟩ := Option.isSome_iff_exists.mp hsome
          have := hf.front hf.refresh _ q hq
          rw [Fin.val_castSucc] at this
          rw [Fin.val_succ]
          omega

/-- The two runs agree on every beat, but for one that has started before any key and has not
yet passed all stages. -/
theorem Twins.agreeBlock (ht : x.Twins y) (hc : x.Covered) : ∀ n,
    x.unkeyedAge (n + 1) = 0 ∨ x.overwritten (n + 1) = true → ∀ k, x.AgreeBlock y (n + 1) k
  | 0, _, k => agreeBlock_reset x.reset_first k
  | n + 1, hclean, k => by
      cases h : x.rst (n + 1) with
      | true => exact agreeBlock_reset h k
      | false =>
          cases how : x.overwritten (n + 1) with
          | true =>
              refine ht.agreeBlock_step h (fun _ _ => ht.agreeKey_of_overwritten n how k) ?_
              exact fun j _ => Twins.agreeBlock ht hc n (Or.inr how) j
          | false =>
              have hage : x.unkeyedAge (n + 2) = 0 := by
                by_contra hne
                rw [hc.before h hne (hclean.resolve_left hne)] at how
                cases how
              refine ht.agreeBlock_step h (fun hs hv => ?_) ?_
              · obtain ⟨hsync, hlt⟩ := below_of_move h hage how hs hv
                exact ht.agreeKey_below hsync hlt
              · exact fun j _ => Twins.agreeBlock ht hc n (Or.inl (unkeyedAge_eq_zero h hage).1) j

/-- **Two runs with the same inputs have the same write streams** when they are covered. -/
theorem Twins.sameWrites (ht : x.Twins y) (hc : x.Covered) (n : ℕ) :
    (x.state (n + 1)).SameWrites (y.state (n + 1)) := by
  have hcontrol := ht.sameControl n
  refine ⟨hcontrol.writeTvalid, fun hvalid => ?_, fun _ => hcontrol.writeTlast⟩
  have hclean : x.unkeyedAge (n + 1) = 0 ∨ x.overwritten (n + 1) = true := by
    by_contra hcon
    obtain ⟨h0, how⟩ := not_or.mp hcon
    have hlt : x.unkeyedAge (n + 1) < 11 := by
      by_contra hge
      exact how (hc.later _ (by omega))
    rw [writeTvalid_eq (x.shadowed n)] at hvalid
    have hl := (x.phase n).leading ⟨x.unkeyedAge (n + 1) - 1, by omega⟩ (by simp only; omega)
    rw [hl.front _ (by rw [Fin.lt_def, Fin.val_last]; simp only; omega)] at hvalid
    cases hvalid
  have hblock := ht.agreeBlock hc n hclean (Fin.last 10) hvalid
  rwa [Rounder.blocks_last, Rounder.blocks_last] at hblock

end covered

/-! ### Streams that are not -/

section exposed
variable {x y : Run} (ht : x.Twins y) (hlow : ∀ j : Fin 11, (j : ℕ) < 10 → x.AgreeKey y 1 j)
include ht

include hlow in
theorem Twins.agreeKey_low {j : Fin 11} (hj : (j : ℕ) < 10) : ∀ n, x.AgreeKey y (n + 1) j
  | 0 => hlow j hj
  | n + 1 => (ht.roundKeys_step n j).1 (Twins.agreeKey_low hj n)

/-- The last local round key stays what it was until a synchronization writes it. -/
theorem Twins.differ (hlast : ¬ x.AgreeKey y 1 (Fin.last 10)) : ∀ n,
    x.overwritten (n + 1) = false → ¬ x.AgreeKey y (n + 1) (Fin.last 10)
  | 0, _ => hlast
  | n + 1, how => by
      have how' : y.overwritten (n + 2) = false := ht.overwritten_eq (n + 1) ▸ how
      rw [overwritten_succ, Bool.or_eq_false_iff] at how how'
      have keep : ∀ z : Run, (!z.rst (n + 1) &&
          (z.state (n + 1)).rounder1.refreshState == .syncing &&
            (z.state (n + 1)).rounder1.keySyncingCounter == 10) = false →
          (z.state (n + 2)).rounder1.roundKeys (Fin.last 10) =
            (z.state (n + 1)).rounder1.roundKeys (Fin.last 10) := by
        intro z hz
        rw [state_succ, Core.step_roundKeys, if_neg]
        rintro ⟨hr, hs, hcount⟩
        rw [show z.rst (n + 1) = false from hr, hs, ← hcount] at hz
        exact absurd hz (by decide)
      unfold AgreeKey
      rw [keep x how.2, keep y how'.2]
      exact Twins.differ hlast n how.1

include hlow in
/-- Before the last stage the two runs agree on every beat. -/
theorem Twins.agreeBlock_low {k : Fin 11} (hk : (k : ℕ) < 10) : ∀ n, x.AgreeBlock y (n + 1) k
  | 0 => agreeBlock_reset x.reset_first k
  | n + 1 => by
      cases h : x.rst (n + 1) with
      | true => exact agreeBlock_reset h k
      | false =>
          refine ht.agreeBlock_step h (fun _ _ => ht.agreeKey_low hlow hk n) fun j hj => ?_
          exact Twins.agreeBlock_low (lt_of_le_of_lt hj hk) n

include hlow in
/-- **A beat that meets an old round key shows it**: when a beat that started before any key
reaches the last stage and nothing has written the last local round key, two runs that differ
in that round key differ in the block they put out. -/
theorem Twins.exposed (hlast : ¬ x.AgreeKey y 1 (Fin.last 10)) {n : ℕ}
    (hage : x.unkeyedAge n = 11) (how : x.overwritten n = false) :
    (x.state n).writeTvalid = true ∧ (x.state n).writeTdata ≠ (y.state n).writeTdata := by
  obtain ⟨n, rfl⟩ : ∃ m, n = m + 2 := by
    match n, hage with
    | 0, hage => simp [unkeyedAge] at hage
    | 1, hage => simp [unkeyedAge_succ, rst, x.reset_first] at hage
    | m + 2, _ => exact ⟨m, rfl⟩
  have hvalid : (x.state (n + 2)).writeTvalid = true := by
    rw [writeTvalid_eq (x.shadowed (n + 1))]
    exact ((x.phase (n + 1)).leading (Fin.last 10) hage).beat
  have how₀ : x.overwritten (n + 1) = false := by
    rw [overwritten_succ, Bool.or_eq_false_iff] at how
    exact how.1
  obtain ⟨h, hage₀⟩ : x.rst (n + 1) = false ∧ x.unkeyedAge (n + 1) = 10 := by
    rw [unkeyedAge_succ] at hage
    split_ifs at hage with h _ _
    · exact ⟨by simpa using h, by omega⟩
    · omega
  have hl := (x.phase n).leading (Fin.castSucc 9) hage₀
  obtain ⟨-, hs⟩ := hl.moves (x.shadowed n)
  have hs' : y.stalls (n + 1) = false := ht.stalls_eq n ▸ hs
  have h' : y.rst (n + 1) = false := ht.rst_eq _ ▸ h
  have hblock := ht.agreeBlock_low hlow (k := Fin.castSucc 9) (by decide) n
    ((x.shadowed n _).1.trans hl.beat)
  refine ⟨hvalid, fun hdata => ht.differ hlast n how₀ ?_⟩
  unfold Core.writeTdata at hdata
  rw [← Rounder.blocks_last, ← Rounder.blocks_last, blocks_move h hs, blocks_move h' hs',
    ← Fin.succ_last, advance_succ, advance_succ] at hdata
  rw [show Fin.last 9 = 9 from rfl, hblock] at hdata
  exact stage_injective _ hdata

end exposed

end Run

end AesAccelerator
