import AesAccelerator.KeySync

/-! # Key changes seen from one stage

A beat in stage `k` has met local round keys `0, …, k` and will meet those above.  `Keeps k key` says
that the ones above will be those of `key`: they are in place already (`Ahead`), or the
synchronization that is under way has the key and its front is past the beat (`Behind`).

A synchronization front moves one stage a cycle, as the beats do, and starts behind all of
them.  So a beat loses its key in two ways only, and `KeepsKeys` excludes both: the pipeline
is held while the beat is just ahead of the front, or the synchronization is restarted while
the beat is behind it.  Neither matters when the new key is the old one. -/

namespace AesAccelerator

namespace Core

variable [Rom256x1]

/-- The key that the local round keys follow. -/
def targetKey (c : Core) : AesMatrix :=
  if c.rounder1.refreshState = .syncing then c.loadedKey else c.rounder1.roundKeys 0

/-- The key that a synchronization starting in this cycle will copy. -/
def acknowledgedKey (c : Core) (p : CorePorts) : AesMatrix :=
  if c.keyExpansionAck p then p.aesKey else c.loadedKey

/-- Stage `k` holds a valid beat. -/
def validAt (c : Core) (k : Fin 11) : Prop := (c.rounder1.parallelStatusPipeline k).valid = true

/-- In this cycle no beat loses the round keys it has yet to meet. -/
structure KeepsKeys (c : Core) (p : CorePorts) : Prop where
  /-- The pipeline is not held with a beat just ahead of the front. -/
  noOvertaking : c.rounder1.refreshState = .syncing → c.stall p = true →
    ∀ k : Fin 11, (k : ℕ) + 1 = c.rounder1.keySyncingCounter → c.validAt k → c.Holds c.loadedKey
  /-- The synchronization is not restarted with a beat behind the front. -/
  noRestart : c.rounder1.refreshState = .syncing → c.rounderKeyAck = true →
    c.rounder1.keySyncingCounter ≤ 9 →
    ∀ k : Fin 11, (k : ℕ) + 2 ≤ c.rounder1.keySyncingCounter → c.validAt k → c.Holds c.loadedKey

/-- The round keys above stage `k` are those of `key`, and the front is no further than the next
stage unless it brings the same key. -/
structure Ahead (c : Core) (k : ℕ) (key : AesMatrix) : Prop where
  keys : ∀ j : Fin 11, k < j → c.rounder1.roundKeys j = KeyExpansion.schedule key j
  front : c.rounder1.refreshState = .syncing →
    c.rounder1.keySyncingCounter ≤ k + 1 ∨ key = c.loadedKey

/-- The synchronization under way brings `key`, and its front is past stage `k + 1`. -/
structure Behind (c : Core) (k : ℕ) (key : AesMatrix) : Prop where
  syncing : c.rounder1.refreshState = .syncing
  front : k + 2 ≤ c.rounder1.keySyncingCounter
  key : key = c.loadedKey

/-- A beat of `key` in stage `k` will meet the round keys of `key`. -/
def Keeps (c : Core) (k : ℕ) (key : AesMatrix) : Prop := c.Ahead k key ∨ c.Behind k key

section keeps
variable {c : Core} {p : CorePorts} (hI : c.KeySync)
include hI

/-- The round key of the next stage is one of the beat's key. -/
theorem Keeps.next {k : Fin 10} {key : AesMatrix} (hk : c.Keeps k key) :
    c.rounder1.roundKeys k.succ = KeyExpansion.schedule key (k + 1) := by
  rcases hk with ha | ⟨hs, hfront, rfl⟩
  · exact ha.keys k.succ (by simp)
  · exact (hI.front hs).2.2 k.succ (by rw [Fin.val_succ]; omega)

/-- Where the beat goes in this cycle, the front has not reached, unless it brings the same
key. -/
theorem Ahead.front_step (hsafe : c.KeepsKeys p) {k k' : Fin 11} {key : AesMatrix}
    (ha : c.Ahead k key) (hs : c.rounder1.refreshState = .syncing)
    (hmove : (c.stall p = true ∧ k' = k ∧ c.validAt k) ∨ (k' : ℕ) = k + 1) :
    c.rounder1.keySyncingCounter ≤ k' ∨ key = c.loadedKey := by
  rcases ha.front hs with hle | hkey
  · rcases hmove with ⟨hstall, rfl, hvalid⟩ | hk'
    · rcases Nat.lt_or_eq_of_le hle with hlt | heq
      · exact Or.inl (by omega)
      · -- the pipeline is held just ahead of the front: the two keys agree on the next round key
        right
        have hlt : c.rounder1.keySyncingCounter < 11 := Nat.lt_succ_of_le (hI.front hs).1
        have hold := hsafe.noOvertaking hs hstall k' heq.symm hvalid ⟨_, hlt⟩
        have hown := ha.keys ⟨_, hlt⟩ (by show (k' : ℕ) < c.rounder1.keySyncingCounter; omega)
        exact KeyExpansion.schedule_injective _ (hown.symm.trans hold)
    · exact Or.inl (by omega)
  · exact Or.inr hkey

/-- The round key written in this cycle is no other than the beat expects. -/
theorem Ahead.keys_step (hsafe : c.KeepsKeys p) {k k' : Fin 11} {key : AesMatrix}
    (ha : c.Ahead k key) (hs : c.rounder1.refreshState = .syncing)
    (hmove : (c.stall p = true ∧ k' = k ∧ c.validAt k) ∨ (k' : ℕ) = k + 1) (j : Fin 11)
    (hj : (k' : ℕ) < j) :
    writeAt c.rounder1.roundKeys c.rounder1.keySyncingCounter (c.selectedKey p) j =
      KeyExpansion.schedule key j := by
  by_cases hjc : (j : ℕ) = c.rounder1.keySyncingCounter
  · have hkey : key = c.loadedKey :=
      (ha.front_step hI hsafe hs hmove).resolve_left (by omega)
    rw [hI.writeAt_eq hs (by omega), hkey]
  · rw [writeAt_ne _ _ hjc]
    refine ha.keys j (lt_of_le_of_lt ?_ hj)
    rcases hmove with ⟨-, rfl, -⟩ | hk'
    · exact le_rfl
    · omega

end keeps

/-- **A beat keeps its key**: held or moved on, it will still meet the round keys it expects. -/
theorem keeps_step {c : Core} {p : CorePorts} (hI : c.KeySync) (h : p.rst = false)
    (hsafe : c.KeepsKeys p) {k k' : Fin 11} {key : AesMatrix} (hk : c.Keeps k key)
    (hmove : (c.stall p = true ∧ k' = k ∧ c.validAt k) ∨
      (c.stall p = false ∧ (k' : ℕ) = k + 1)) :
    (c.step p).Keeps k' key := by
  have hmove' : (c.stall p = true ∧ k' = k ∧ c.validAt k) ∨ (k' : ℕ) = k + 1 :=
    hmove.imp id fun hm => hm.2
  have hle : (k : ℕ) ≤ k' ∧ (k' : ℕ) ≤ k + 1 := by
    rcases hmove with ⟨-, rfl, -⟩ | ⟨-, hk'⟩ <;> omega
  cases step_refresh_cases (c := c) h with
  | rest hs _ hs' _ hk' =>
      rcases hk with ha | hb
      · refine Or.inl ⟨fun j hj => ?_, fun hsync => ?_⟩
        · rw [hk']
          exact ha.keys j (by omega)
        · rw [hs'] at hsync
          cases hsync
      · have := hb.syncing
        rw [hs] at this
        cases this
  | begin hs _ _ hc' hk' =>
      rcases hk with ha | hb
      · refine Or.inl ⟨fun j hj => ?_, fun _ => Or.inl (by rw [hc']; omega)⟩
        rw [hk']
        exact ha.keys j (by omega)
      · have := hb.syncing
        rw [hs] at this
        cases this
  | restart hs hack _ hc' hk' =>
      refine Or.inl ⟨fun j hj => ?_, fun _ => Or.inl (by rw [hc']; omega)⟩
      rw [hk']
      rcases hk with ha | ⟨-, hfront, rfl⟩
      · exact ha.keys_step hI hsafe hs hmove' j hj
      · rcases Nat.lt_or_ge c.rounder1.keySyncingCounter j with hlt | hge
        · obtain ⟨-, hkk, hvalid⟩ :=
            hmove.resolve_right (by rw [stall_of_ack hack]; rintro ⟨hcon, -⟩; cases hcon)
          rw [writeAt_ne _ _ (by omega)]
          exact hsafe.noRestart hs hack (by omega) k hfront hvalid j
        · exact hI.writeAt_eq hs hge
  | finish hs _ hc hs' _ hk' =>
      refine Or.inl ⟨fun j hj => ?_, fun hsync => ?_⟩
      · rw [hk']
        rcases hk with ha | ⟨-, -, rfl⟩
        · exact ha.keys_step hI hsafe hs hmove' j hj
        · exact hI.writeAt_eq hs (by omega)
      · rw [hs'] at hsync
        cases hsync
  | copy hs hack hne hs' hc' hk' =>
      have hkey := (hI.loadedKey_of_noAck h hs hack).2
      have hcount : (c.step p).rounder1.keySyncingCounter = c.rounder1.keySyncingCounter + 1 := by
        have := (hI.front hs).1
        rw [hc']
        omega
      rcases hk with ha | ⟨-, hfront, rfl⟩
      · refine Or.inl ⟨fun j hj => ?_, fun _ => ?_⟩
        · rw [hk']
          exact ha.keys_step hI hsafe hs hmove' j hj
        · rw [hcount, hkey]
          exact (ha.front_step hI hsafe hs hmove').imp (fun hle => by omega) id
      · exact Or.inr ⟨hs', by rw [hcount]; omega, hkey.symm⟩

/-! ### The key of a beat that enters -/

section enter
variable {c : Core} {p : CorePorts} (hI : c.KeySync) (h : p.rst = false)
include hI h

/-- The key that the local round keys follow changes only with an acknowledge. -/
theorem step_targetKey : (c.step p).targetKey =
    if c.rounderKeyAck then c.acknowledgedKey p else c.targetKey := by
  cases step_refresh_cases (c := c) h with
  | rest hs hack hs' _ hk' => simp [targetKey, hs, hs', hack, hk']
  | begin hs hack hs' =>
      have hL := (taken_or_follows (p := p) (Or.inl (rounderKeyAck_iff.mp hack).1)).imp id hI.loaded
      simp [targetKey, hs', hack, step_loadedKey h hL, acknowledgedKey]
  | restart hs hack hs' =>
      have hL := hI.loaded (Or.inr hs)
      simp [targetKey, hs', hack, step_loadedKey h (Or.inr hL), acknowledgedKey]
  | finish hs hack _ hs' _ hk' =>
      have hzero := hI.writeAt_eq (p := p) hs (j := 0) (Nat.zero_le _)
      simp [targetKey, hs, hs', hack, hk', hzero, KeyExpansion.schedule]
  | copy hs hack _ hs' =>
      simp [targetKey, hs, hs', hack, (hI.loadedKey_of_noAck h hs hack).2]

omit h in
theorem KeySync.roundKeys_zero (hs : c.rounder1.refreshState = .syncing)
    (hc : c.rounder1.keySyncingCounter ≠ 0) : c.rounder1.roundKeys 0 = c.loadedKey :=
  (hI.front hs).2.2 0 (Nat.pos_of_ne_zero hc)

/-- With the local round keys in place or a synchronization under way, a beat that enters gets
the key that they follow. -/
theorem keeps_enter (hstall : c.stall p = false)
    (hready : c.rounder1.refreshState = .idle → c.Holds c.targetKey) :
    c.rounder1.roundKeys 0 = c.targetKey ∧ (c.step p).Keeps (0 : Fin 11) c.targetKey := by
  have hnoAck : c.rounderKeyAck ≠ true := fun hcon => by
    rw [stall_of_ack hcon] at hstall
    cases hstall
  have hcounter : c.rounder1.refreshState = .syncing → c.rounder1.keySyncingCounter ≠ 0 :=
    fun hs hc => by
      rw [stall_of_syncing_zero hs hc] at hstall
      cases hstall
  cases step_refresh_cases (c := c) h with
  | begin _ hack | restart _ hack => exact absurd hack hnoAck
  | rest hs _ hs' _ hk' =>
      refine ⟨by simp [targetKey, hs], Or.inl ⟨fun j _ => ?_, fun hsync => ?_⟩⟩
      · rw [hk']
        exact hready hs j
      · rw [hs'] at hsync
        cases hsync
  | finish hs hack hc hs' _ hk' =>
      have htarget : c.targetKey = c.loadedKey := by simp [targetKey, hs]
      rw [htarget]
      refine ⟨hI.roundKeys_zero hs (hcounter hs), Or.inl ⟨fun j _ => ?_, fun hsync => ?_⟩⟩
      · rw [hk']
        exact hI.writeAt_eq hs (by omega)
      · rw [hs'] at hsync
        cases hsync
  | copy hs hack hne hs' hc' hk' =>
      have htarget : c.targetKey = c.loadedKey := by simp [targetKey, hs]
      have hle := (hI.front hs).1
      have hpos := hcounter hs
      rw [htarget]
      refine ⟨hI.roundKeys_zero hs hpos, Or.inr ⟨hs', ?_, ?_⟩⟩
      · rw [hc', Fin.val_zero]
        omega
      · exact (hI.loadedKey_of_noAck h hs hack).2.symm

end enter

end Core

end AesAccelerator
