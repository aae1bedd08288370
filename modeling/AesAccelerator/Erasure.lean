import AesAccelerator.Ip
import AesAccelerator.KeyLoad

/-! # What a reset erases

A reset clears the key registers, the flags, the counters and the validity of the stages, but
neither the local round keys nor the expanded keys.  `reset_erases_past_iff` says for which inputs
after a reset the write stream does not depend on the history before it: those for which a beat
that starts before any key and passes all stages finds local round keys that were written since.
-/

namespace AesAccelerator

namespace Ip

section erasure
variable [Rom256x1]

/-- Some history, from any contents at power-up and a first reset, leads to the registers `s`. -/
def Reached (s : Ip) : Prop :=
  ∃ (powerUp : Ip) (ins : ℕ → IpPorts) (undef : ℕ → Undefined) (n : ℕ),
    (ins 0).s00Axi.aresetn = false ∧ powerUp.state ins undef (n + 1) = s

/-- After the first cycle of `ins` the write stream is the same whatever the history before. -/
def ErasesPast (ins : ℕ → IpPorts) : Prop :=
  ∀ s s' : Ip, s.Reached → s'.Reached → ∀ (undef undef' : ℕ → Undefined) (n : ℕ),
    (s.state ins undef (n + 1)).aesUnit.SameWrites (s'.state ins undef' (n + 1)).aesUnit

/-- All registers zero. -/
def blank : Ip := ⟨S00Axi.cleared, Run.blank⟩

def undefZero (_ : ℕ) : Undefined := ⟨0, 0⟩

theorem coreRun_twins (s s' : Ip) (ins : ℕ → IpPorts) (undef undef' : ℕ → Undefined)
    (hreset : (ins 0).s00Axi.aresetn = false) :
    (s.coreRun ins undef hreset).Twins (s'.coreRun ins undef' hreset) where
  ports n := by
    have haxi := state_axi s s' ins undef undef' hreset n
    refine ⟨rfl, ?_, ?_, rfl, rfl, rfl, rfl⟩
    · exact congrArg S00Axi.aesKey haxi
    · exact congrArg (fun axi => S00Axi.aesKeyWrite axi (ins (n + 1)).s00Axi) haxi

/-! ### Two histories that differ in one local round key -/

def resting : IpPorts where
  s00Axi :=
    { aresetn := true, awaddr := 0, awvalid := false, wdata := 0, wstrb := 0, wvalid := false,
      bready := true, araddr := 0, arvalid := false, rready := true }
  readTdata := 0
  readTvalid := false
  readTlast := false
  writeTready := true

def resetting : IpPorts := { resting with s00Axi := { resting.s00Axi with aresetn := false } }

/-- A write to `slv_reg12`. -/
def writing (data : BitVec 32) : IpPorts :=
  { resting with
    s00Axi :=
      { resting.s00Axi with
        awaddr := 0x30, awvalid := true, wdata := data, wstrb := 0xf, wvalid := true } }

/-- The key `word` is loaded, and then the key zero until its last round key is to be copied. -/
def twoKeys (word : BitVec 32) : ℕ → IpPorts := fun n =>
  if n = 0 then resetting
  else if n = 1 ∨ n = 2 then writing word
  else if n = 15 ∨ n = 16 then writing 0
  else resting

omit [Rom256x1] in
theorem twoKeys_reset (word : BitVec 32) : (twoKeys word 0).s00Axi.aresetn = false := rfl

/-- The key registers in a run with the inputs `twoKeys word`. -/
def twoKeysAxi (word : BitVec 32) : ℕ → S00Axi :=
  Clocked.trace S00Axi.step S00Axi.cleared fun n => (twoKeys word n).s00Axi

/-- What the core sees of `twoKeys word`. -/
structure SeesTwoKeys (x : Run) (key : AesMatrix) : Prop where
  idle : ∀ n, 0 < n → n < 28 → x.rst n = false ∧ x.offers n = false ∧
    (x.ports n).aesKeyWrite = decide (n = 2 ∨ n = 16)
  first : (x.ports 3).aesKey = key
  second : (x.ports 17).aesKey = 0

/-- The last local round key is still that of the first key, and all others are those of the second. -/
theorem SeesTwoKeys.roundKeys {x : Run} {key : AesMatrix} (hx : SeesTwoKeys x key) :
    (x.state 28).HoldsBelow 0 10 ∧
      (x.state 28).rounder1.roundKeys (Fin.last 10) = KeyExpansion.schedule key 10 := by
  have quiet : ∀ m, 0 < m → m < 28 → m ≠ 2 → m ≠ 16 →
      x.rst m = false ∧ x.offers m = false ∧ (x.ports m).aesKeyWrite = false := by
    intro m h0 hm h2 h16
    obtain ⟨h, hoffer, hw⟩ := hx.idle m h0 hm
    exact ⟨h, hoffer, by rw [hw]; simp [h2, h16]⟩
  -- from rest, a write in cycle `m + 1` leaves a pending key
  have written : ∀ m, m + 2 < 28 → m + 1 = 2 ∨ m + 1 = 16 → (x.state m).AtRest false →
      0 < m → (x.state (m + 2)).AtRest true ∧
        (x.state (m + 2)).rounder1.roundKeys = (x.state m).rounder1.roundKeys := by
    intro m hm hw hrest h0
    obtain ⟨h, hoffer, hw₀⟩ := quiet m h0 (by omega) (by omega) (by omega)
    have hrest₁ := hrest.step h hoffer
    rw [hw₀] at hrest₁
    obtain ⟨h', hoffer', hw₁⟩ := hx.idle (m + 1) (by omega) (by omega)
    have hrest₂ := hrest₁.step h' hoffer'
    rw [hw₁, decide_eq_true hw] at hrest₂
    exact ⟨hrest₂, hrest₁.keys_kept.trans hrest.keys_kept⟩
  have hrest : (x.state 1).AtRest false := Core.atRest_reset x.reset_first
  obtain ⟨hpend, -⟩ := written 1 (by omega) (by omega) hrest (by omega)
  obtain ⟨hc, -⟩ := Run.copying hpend (fun m h₁ h₂ => quiet m (by omega) (by omega) (by omega)
    (by omega)) 10 le_rfl
  rw [hx.first] at hc
  obtain ⟨h, hoffer, hw⟩ := quiet 14 (by omega) (by omega) (by omega) (by omega)
  obtain ⟨hrest', hholds⟩ := hc.done h hoffer (x.keySync 13)
  rw [hw] at hrest'
  obtain ⟨hpend', hkept⟩ := written 15 (by omega) (by omega) hrest' (by omega)
  obtain ⟨hc', hlast⟩ := Run.copying hpend' (fun m h₁ h₂ => quiet m (by omega) (by omega)
    (by omega) (by omega)) 10 le_rfl
  rw [hx.second] at hc'
  constructor
  · have hfront := ((x.keySync 27).front hc'.refresh).2.2
    rwa [hc'.loaded, hc'.counter] at hfront
  · rw [hlast, hkept]
    exact hholds (Fin.last 10)

/-- The registers after `twoKeys word`. -/
def afterTwoKeys (word : BitVec 32) : Ip := blank.state (twoKeys word) undefZero 28

theorem reached_afterTwoKeys (word : BitVec 32) : (afterTwoKeys word).Reached :=
  ⟨blank, twoKeys word, undefZero, 27, rfl, rfl⟩

theorem roundKeys_afterTwoKeys {word : BitVec 32} {key : AesMatrix}
    (hwrite : ∀ n < 28, 0 < n → (twoKeys word n).s00Axi.aresetn = true ∧
      (twoKeys word n).readTvalid = false ∧
      (twoKeysAxi word n).aesKeyWrite (twoKeys word n).s00Axi = decide (n = 2 ∨ n = 16))
    (hfirst : (twoKeysAxi word 3).aesKey = key) (hsecond : (twoKeysAxi word 17).aesKey = 0) :
    (afterTwoKeys word).aesUnit.HoldsBelow 0 10 ∧
      (afterTwoKeys word).aesUnit.rounder1.roundKeys (Fin.last 10) =
        KeyExpansion.schedule key 10 := by
  have haxi : ∀ n, (blank.state (twoKeys word) undefZero n).axi = twoKeysAxi word n :=
    state_axi_eq blank (twoKeys word) undefZero
  have hx : SeesTwoKeys (blank.coreRun (twoKeys word) undefZero (twoKeys_reset word)) key := by
    refine ⟨fun n h0 hn => ?_, ?_, ?_⟩
    · obtain ⟨hr, ho, hw⟩ := hwrite n hn h0
      refine ⟨?_, ho, ?_⟩
      · simp [Run.rst, coreRun, corePorts, hr]
      · rw [← hw, ← haxi]
        rfl
    · rw [← hfirst, ← haxi]
      rfl
    · rw [← hsecond, ← haxi]
      rfl
  have h := hx.roundKeys
  rwa [coreRun_state] at h

theorem roundKeys_afterTwoKeys_one :
    (afterTwoKeys 1).aesUnit.HoldsBelow 0 10 ∧
      (afterTwoKeys 1).aesUnit.rounder1.roundKeys (Fin.last 10) = KeyExpansion.schedule 1 10 :=
  roundKeys_afterTwoKeys (by decide +kernel) (by decide +kernel) (by decide +kernel)

theorem roundKeys_afterTwoKeys_two :
    (afterTwoKeys 2).aesUnit.HoldsBelow 0 10 ∧
      (afterTwoKeys 2).aesUnit.rounder1.roundKeys (Fin.last 10) = KeyExpansion.schedule 2 10 :=
  roundKeys_afterTwoKeys (by decide +kernel) (by decide +kernel) (by decide +kernel)

/-! ### When a reset erases the past -/

/-- What the core sees of `ins` from some registers.  From the first reset on, who has offered
what and when synchronizations end does not depend on the registers. -/
def observed (ins : ℕ → IpPorts) (hreset : (ins 0).s00Axi.aresetn = false) : Run :=
  blank.coreRun ins undefZero hreset

theorem erasesPast_of_covered {ins : ℕ → IpPorts} (hreset : (ins 0).s00Axi.aresetn = false)
    (hc : (observed ins hreset).Covered) : ErasesPast ins := by
  intro s s' _ _ undef undef' n
  have hc' := (coreRun_twins blank s ins undefZero undef hreset).covered_iff.mp hc
  have := (coreRun_twins s s' ins undef undef' hreset).sameWrites hc' n
  rwa [coreRun_state, coreRun_state] at this

/-- A reset writes no local round key. -/
theorem roundKeys_reset (s : Ip) {ins : ℕ → IpPorts} (undef : ℕ → Undefined)
    (hreset : (ins 0).s00Axi.aresetn = false) (j : Fin 11) :
    ((s.coreRun ins undef hreset).state 1).rounder1.roundKeys j =
      s.aesUnit.rounder1.roundKeys j := by
  rw [Run.state_succ, Core.step_roundKeys, if_neg]
  · rfl
  · rintro ⟨hr, -⟩
    rw [(s.coreRun ins undef hreset).reset_first] at hr
    cases hr

theorem covered_of_erasesPast {ins : ℕ → IpPorts} (hreset : (ins 0).s00Axi.aresetn = false)
    (he : ErasesPast ins) : (observed ins hreset).Covered := by
  obtain ⟨hlow₁, hlast₁⟩ := roundKeys_afterTwoKeys_one
  obtain ⟨hlow₂, hlast₂⟩ := roundKeys_afterTwoKeys_two
  have ht := coreRun_twins (afterTwoKeys 1) (afterTwoKeys 2) ins undefZero undefZero hreset
  apply (coreRun_twins blank (afterTwoKeys 1) ins undefZero undefZero hreset).covered_iff.mpr
  intro n hage
  by_contra how
  obtain ⟨hvalid, hdata⟩ := ht.exposed
    (fun j hj => by
      unfold Run.AgreeKey
      rw [roundKeys_reset, roundKeys_reset, hlow₁ j hj, hlow₂ j hj])
    (fun hagree => by
      unfold Run.AgreeKey at hagree
      rw [roundKeys_reset, roundKeys_reset, hlast₁, hlast₂] at hagree
      exact absurd (KeyExpansion.schedule_injective 10 hagree) (by decide))
    hage (by simpa using how)
  cases n with
  | zero => cases hage
  | succ n =>
      rw [coreRun_state, coreRun_state] at hdata
      rw [coreRun_state] at hvalid
      exact hdata ((he _ _ (reached_afterTwoKeys 1) (reached_afterTwoKeys 2) undefZero undefZero
        n).tdata hvalid)

/-- **What a reset erases**: with the inputs `ins`, of which the first is a reset, the write
stream does not depend on the history before them if and only if every beat that started before
any key, at the time it has passed all stages, comes after a synchronization that has written the
last local round key. -/
theorem reset_erases_past_iff (ins : ℕ → IpPorts) (hreset : (ins 0).s00Axi.aresetn = false) :
    ErasesPast ins ↔ ∀ n, (observed ins hreset).unkeyedAge n = 11 →
      (observed ins hreset).overwritten n = true :=
  ⟨covered_of_erasesPast hreset, erasesPast_of_covered hreset⟩

end erasure

/-- A reset, then a key, then a beat once the key is in place. -/
def keyThenBeat : ℕ → IpPorts := fun n =>
  if n = 0 then resetting
  else if n = 1 ∨ n = 2 then writing 1
  else if n = 20 then { resting with readTvalid := true, readTlast := true }
  else resting

theorem keyThenBeat_erasesPast : ErasesPast keyThenBeat := by
  refine (reset_erases_past_iff keyThenBeat rfl).mpr (Run.covered_of_keyFirst ?_)
  intro n _ hoffer
  have hn : n = 20 := by
    by_contra hne
    have hoffer : (keyThenBeat n).readTvalid = true := hoffer
    unfold keyThenBeat at hoffer
    split_ifs at hoffer <;> cases hoffer
  rw [hn]
  decide +kernel

/-- A reset, then a beat, and no key. -/
def beatWithoutKey : ℕ → IpPorts := fun n =>
  if n = 0 then resetting
  else if n = 1 then { resting with readTvalid := true, readTlast := true }
  else resting

/-- A history in which `word` is written to `slv_reg12` and loaded. -/
def oneKey (word : BitVec 32) : ℕ → IpPorts := fun n =>
  if n = 0 then resetting else if n = 1 ∨ n = 2 then writing word else resting

/-- The output of the core ten cycles after the beat without a key, when `word` was the key in the
history before. -/
def afterOneKey (word : BitVec 32) : Core :=
  ((blank.state (oneKey word) undefZero 16).state beatWithoutKey undefZero 12).aesUnit

/-- After a reset, the beat without a key comes out under the key from before. -/
theorem beatWithoutKey_shows_past :
    (afterOneKey 1).writeTvalid = true ∧ (afterOneKey 2).writeTvalid = true ∧
      (afterOneKey 1).writeTdata ≠ (afterOneKey 2).writeTdata ∧ ¬ ErasesPast beatWithoutKey := by
  have hvalid : (afterOneKey 1).writeTvalid = true := by decide +kernel
  have hne : (afterOneKey 1).writeTdata ≠ (afterOneKey 2).writeTdata := by decide +kernel
  refine ⟨hvalid, by decide +kernel, hne, fun he => hne ?_⟩
  have h := he (blank.state (oneKey 1) undefZero 16) (blank.state (oneKey 2) undefZero 16)
    ⟨blank, oneKey 1, undefZero, 15, rfl, rfl⟩ ⟨blank, oneKey 2, undefZero, 15, rfl, rfl⟩
    undefZero undefZero 11
  exact h.tdata hvalid

end Ip

end AesAccelerator
