import AesAccelerator.Erasure

/-! # Uploading a key over the bus

The processor writes a key as words, in an order that the driver does not fix, and the core takes
every word for a new key.  When the words are there, the key is the one that was meant, whatever the
order and whatever was there before (`foldl_mergeWrite`); and with nothing on the read stream the
round keys of this key are in place thirteen cycles after the last word (`Ip.roundKeys_of_upload`).
Streams that keep out of the way of the key writes are encrypted with what the bus has made of the
key (`Ip.stream_encrypted`). -/

namespace AesAccelerator

/-! ### The words of a key -/

/-- The write carries word `c` of the key. -/
structure AxiWrite.Carries (w : AxiWrite) (key : BitVec 128) (c : Fin 4) : Prop where
  awaddr : w.awaddr.toNat / 4 = 12 + c
  wdata : w.wdata = Packed.lane 32 key c
  wstrb : w.wstrb = 0b1111

/-- All these writes carry words of the key, and every word is carried by one of them. -/
structure Uploads (key : BitVec 128) (ws : List AxiWrite) : Prop where
  carries : ∀ w ∈ ws, ∃ c, w.Carries key c
  all : ∀ c, ∃ w ∈ ws, w.Carries key c

theorem writeStrobed_full (old data : BitVec 32) : S00Axi.writeStrobed old data 0b1111 = data := by
  apply BitVec.eq_of_getLsbD_eq
  intro k hk
  have hbit : (0b1111 : BitVec 4).getLsbD (k / 8) = true := by
    have hdiv : k / 8 < 4 := by omega
    interval_cases k / 8 <;> rfl
  rw [S00Axi.writeStrobed, Packed.getLsbD_ofBits _ hk, hbit]
  rfl

theorem lane_mergeWrite_of_carries {w : AxiWrite} {key : BitVec 128} {c : Fin 4}
    (hw : w.Carries key c) (old : BitVec 128) (c' : Fin 4) :
    Packed.lane 32 (mergeWrite old w) c' =
      if c' = c then Packed.lane 32 key c' else Packed.lane 32 old c' := by
  rw [lane_mergeWrite, hw.awaddr, hw.wdata, hw.wstrb, writeStrobed_full]
  by_cases hc : c' = c
  · rw [if_pos (by rw [hc]), if_pos hc, hc]
  · rw [if_neg (by omega), if_neg hc]

theorem lane_foldl_mergeWrite {key : BitVec 128} : ∀ {ws : List AxiWrite},
    (∀ w ∈ ws, ∃ c, w.Carries key c) → ∀ (old : BitVec 128) (c : Fin 4),
      (∃ w ∈ ws, w.Carries key c) ∨ Packed.lane 32 old c = Packed.lane 32 key c →
        Packed.lane 32 (ws.foldl mergeWrite old) c = Packed.lane 32 key c
  | [], _, old, c, h => by
      rcases h with ⟨w, hw, -⟩ | h
      · cases hw
      · exact h
  | w :: ws, hcarries, old, c, h => by
      obtain ⟨c', hw⟩ := hcarries w List.mem_cons_self
      rw [List.foldl_cons]
      refine lane_foldl_mergeWrite (fun w hw => hcarries w (List.mem_cons_of_mem _ hw)) _ c ?_
      by_cases hc : c = c'
      · right
        rw [lane_mergeWrite_of_carries hw, if_pos hc]
      · rcases h with ⟨w', hw', hcarry⟩ | h
        · rcases List.mem_cons.mp hw' with rfl | hw'
          · have := hcarry.awaddr.symm.trans hw.awaddr
            exact absurd (Fin.ext (by omega)) hc
          · exact Or.inl ⟨w', hw', hcarry⟩
        · right
          rw [lane_mergeWrite_of_carries hw, if_neg hc, h]

/-- The order of the words and what was there before do not matter. -/
theorem foldl_mergeWrite {key : BitVec 128} {ws : List AxiWrite} (h : Uploads key ws)
    (old : BitVec 128) : ws.foldl mergeWrite old = key := by
  apply Packed.eq_of_lanes (l := 32)
  exact fun c => lane_foldl_mergeWrite h.carries old c (Or.inl (h.all c))

/-! ### From the last word to the round keys -/

section load
variable [Rom256x1]

/-- Both units take a pending key, also in the middle of a synchronization. -/
theorem Core.copying_begin {c : Core} {p : CorePorts} (h : p.rst = false)
    (hoffer : p.readTvalid = false) (hw : p.aesKeyWrite = false)
    (hT : c.rounder1.transactionState = .transactionIdle)
    (hpendingR : c.keyChangePendingRounder = true)
    (hpendingK : c.keyChangePendingKeyExpansion = true) : (c.step p).Copying p.aesKey 0 := by
  have hR : c.rounderKeyAck = true := rounderKeyAck_iff.mpr ⟨hpendingR, hT⟩
  have hK : c.keyExpansionAck p = true := keyExpansionAck_iff.mpr ⟨hpendingK, Or.inr hT⟩
  refine ⟨?_, ?_, transaction_rest h hoffer hT, ?_, ?_, ?_⟩
  · rw [step_refreshState, h, hR]
    rfl
  · rw [step_keySyncingCounter, hR, Bool.or_true]
    rfl
  · rw [step_pendingRounder h, hw, hR, Bool.not_true, Bool.and_false]
    rfl
  · rw [step_pendingKeyExpansion h, hw, hK, Bool.not_true, Bool.and_false]
    rfl
  · rw [step_loadedKey h (Or.inl hK), hK]
    rfl

/-- After a key write with no transaction under way, and then nothing for twelve cycles, the round
keys are those of the key. -/
theorem Run.holds_of_write {x : Run} {n : ℕ} (h : x.rst n = false)
    (hwrite : (x.ports n).aesKeyWrite = true)
    (hT : (x.state (n + 1)).rounder1.transactionState = .transactionIdle)
    (hquiet : ∀ m, n < m → m ≤ n + 12 →
      x.rst m = false ∧ x.offers m = false ∧ (x.ports m).aesKeyWrite = false) :
    (x.state (n + 13)).Holds (x.ports (n + 1)).aesKey := by
  have hpendingR : (x.state (n + 1)).keyChangePendingRounder = true := by
    rw [state_succ, Core.step_pendingRounder h, hwrite]
    rfl
  have hpendingK : (x.state (n + 1)).keyChangePendingKeyExpansion = true := by
    rw [state_succ, Core.step_pendingKeyExpansion h, hwrite]
    rfl
  have hcopy : ∀ i ≤ 10, (x.state (n + 2 + i)).Copying (x.ports (n + 1)).aesKey i := by
    intro i
    induction i with
    | zero =>
        intro _
        obtain ⟨h, hoffer, hw⟩ := hquiet (n + 1) (by omega) (by omega)
        exact Core.copying_begin h hoffer hw hT hpendingR hpendingK
    | succ i ih =>
        intro hi
        obtain ⟨h, hoffer, hw⟩ := hquiet (n + 2 + i) (by omega) (by omega)
        have hI : (x.state (n + 2 + i)).KeySync := by
          rw [show n + 2 + i = n + 1 + i + 1 by omega]
          exact x.keySync _
        exact (ih (by omega)).step h hoffer hI (by omega) hw
  obtain ⟨h, hoffer, -⟩ := hquiet (n + 12) (by omega) le_rfl
  exact ((hcopy 10 le_rfl).done h hoffer (x.keySync (n + 11))).2

end load

namespace Ip

/-- **A key that is uploaded is loaded**: when the last of the writes that carry the words of a key,
in whatever order, is completed with no transaction under way, and nothing is written, offered or
reset in the next twelve cycles, then the local round keys are those of the key. -/
theorem roundKeys_of_upload [Rom256x1] (s : Ip) (ins : ℕ → IpPorts) (undef : ℕ → Undefined)
    (hreset : (ins 0).s00Axi.aresetn = false) (hmaster : (s.axiRun ins hreset).MasterHolds)
    (key : BitVec 128) (older ws : List AxiWrite) (hupload : Uploads key ws) (n : ℕ)
    (hactive : (ins n).s00Axi.aresetn = true)
    (hlast : (s.axiRun ins hreset).aesKeyWrite n = true)
    (hwrites : (s.axiRun ins hreset).keyWrites (n + 1) = older ++ ws)
    (hT : (s.state ins undef (n + 1)).aesUnit.rounder1.transactionState = .transactionIdle)
    (hquiet : ∀ m, n < m → m ≤ n + 12 → (ins m).s00Axi.aresetn = true ∧
      (ins m).readTvalid = false ∧ (s.axiRun ins hreset).aesKeyWrite m = false) (j : Fin 11) :
    (s.state ins undef (n + 13)).aesUnit.rounder1.roundKeys j = Fips197.roundKey key j := by
  set x := s.coreRun ins undef hreset
  have hrst : ∀ m, (ins m).s00Axi.aresetn = true → x.rst m = false := fun m hm => by
    show (!(ins m).s00Axi.aresetn) = false
    rw [hm]
    rfl
  have hwrite : ∀ m, (x.ports m).aesKeyWrite = (s.axiRun ins hreset).aesKeyWrite m := fun m => by
    rw [S00AxiRun.aesKeyWrite, s.axiRun_state ins undef hreset]
    rfl
  have hkey : (x.ports (n + 1)).aesKey = key := by
    have happlied := (S00AxiRun.applied hmaster n).key
    rw [hwrites, List.foldl_append, foldl_mergeWrite hupload, S00AxiRun.aesKey,
      s.axiRun_state ins undef hreset] at happlied
    exact happlied
  have hholds := Run.holds_of_write (hrst n hactive) ((hwrite n).trans hlast)
    (by rw [coreRun_state]; exact hT)
    (fun m hlt hle => ⟨hrst m (hquiet m hlt hle).1, (hquiet m hlt hle).2.1,
      (hwrite m).trans (hquiet m hlt hle).2.2⟩) j
  rw [coreRun_state, hkey, schedule_eq_roundKey _ _ (by omega)] at hholds
  exact hholds

section stream
variable [Rom256x1] (s : Ip) (ins : ℕ → IpPorts) (undef : ℕ → Undefined)
  (hreset : (ins 0).s00Axi.aresetn = false)

/-- The accepted beats, each with what the writes completed before had made of the key. -/
def busAccepted : ℕ → List (BitVec 128 × Beat)
  | 0 => []
  | n + 1 =>
      if (s.coreRun ins undef hreset).rst n then []
      else if (s.coreRun ins undef hreset).accepts n then
        busAccepted n ++ [(((s.axiRun ins hreset).keyWrites n).foldl mergeWrite 0,
          (s.coreRun ins undef hreset).beat n)]
      else busAccepted n

theorem busAccepted_eq (hmaster : (s.axiRun ins hreset).MasterHolds) : ∀ n,
    s.busAccepted ins undef hreset n =
      ((s.coreRun ins undef hreset).accepted n).map fun b => (b.aesKey, b)
  | 0 => rfl
  | n + 1 => by
      cases h : (s.coreRun ins undef hreset).rst n with
      | true => rw [busAccepted, if_pos h, Run.accepted_reset h, List.map_nil]
      | false =>
          rw [busAccepted, if_neg (by simp [h]), Run.accepted_step h, List.map_append,
            busAccepted_eq hmaster n]
          cases hacc : (s.coreRun ins undef hreset).accepts n with
          | false => simp
          | true =>
              obtain ⟨m, rfl⟩ := Run.exists_succ_of_not_rst h
              have hkey := (S00AxiRun.applied hmaster m).key
              rw [S00AxiRun.aesKey, s.axiRun_state ins undef hreset] at hkey
              rw [if_pos rfl, if_pos rfl, List.map_singleton, ← hkey]
              rfl

/-- **The IP encrypts with the key on the bus**: when the bus writes the key before the first beat,
and later only when nothing is offered, no packet is open and all that was accepted has been
delivered, then what is delivered is, in order and once each, what was accepted, each block
encrypted with what the completed writes had made of the key by then. -/
theorem stream_encrypted (hmaster : (s.axiRun ins hreset).MasterHolds)
    (hsource : (s.coreRun ins undef hreset).SourceHolds)
    (hfirst : ∀ n, (s.coreRun ins undef hreset).rst n = false →
      (s.coreRun ins undef hreset).offers n = true → (s.axiRun ins hreset).keyWrites n ≠ [])
    (hquiet : (s.coreRun ins undef hreset).QuietWrites) (n : ℕ) :
    (s.coreRun ins undef hreset).delivered (n + 1) <+:
      (s.busAccepted ins undef hreset (n + 1)).map
        fun kb => (Fips197.cipher kb.1 kb.2.tdata, kb.2.tlast) := by
  have hkeyFirst : (s.coreRun ins undef hreset).KeyFirst := by
    intro k h hoffer
    obtain ⟨m, rfl⟩ := Run.exists_succ_of_not_rst h
    rw [coreRun_keyWritten, (S00AxiRun.applied hmaster m).pulses, decide_eq_true_eq]
    exact List.length_pos_iff.mpr (hfirst _ h hoffer)
  have hu := (Run.quiet_undisturbed hsource hquiet
    (s.coreRun_keyDiscipline ins undef hreset) hkeyFirst n).2
  rw [busAccepted_eq s ins undef hreset hmaster, List.map_map]
  exact hu.delivered

end stream

def carrying (awaddr : BitVec 6) (data : BitVec 32) : IpPorts :=
  { writing data with s00Axi := { (writing data).s00Axi with awaddr := awaddr } }

/-- The words of a key, word `3` first. -/
def uploading : ℕ → IpPorts := fun n =>
  if n = 0 then resetting
  else if n = 1 ∨ n = 2 then carrying 0x3c 0x00112233
  else if n = 4 ∨ n = 5 then carrying 0x30 0xccddeeff
  else if n = 7 ∨ n = 8 then carrying 0x38 0x44556677
  else if n = 10 ∨ n = 11 then carrying 0x34 0x8899aabb
  else resting

theorem uploading_of_lt {n : ℕ} (h : 11 < n) : uploading n = resting := by
  unfold uploading
  rw [if_neg (by omega), if_neg (by omega), if_neg (by omega), if_neg (by omega),
    if_neg (by omega)]

def uploadRun : S00AxiRun := blank.axiRun uploading rfl

theorem uploadRun_masterHolds : uploadRun.MasterHolds := by
  constructor
  · intro n h hvalid hwait
    rcases Nat.lt_or_ge 11 n with hn | hn
    · have hports : uploadRun.ports n = resting.s00Axi := congrArg IpPorts.s00Axi (uploading_of_lt hn)
      rw [hports] at hvalid
      cases hvalid
    · have : ∀ n ≤ 11, uploadRun.rst n = false → (uploadRun.ports n).awvalid = true →
          uploadRun.awHandshake n = false → (uploadRun.ports (n + 1)).awvalid = true ∧
            (uploadRun.ports (n + 1)).awaddr = (uploadRun.ports n).awaddr := by decide +kernel
      obtain ⟨hnext, haddr⟩ := this n hn h hvalid hwait
      exact ⟨fun _ => hnext, fun _ => haddr⟩
  · intro n h hvalid hwait
    rcases Nat.lt_or_ge 11 n with hn | hn
    · have hports : uploadRun.ports n = resting.s00Axi := congrArg IpPorts.s00Axi (uploading_of_lt hn)
      rw [hports] at hvalid
      cases hvalid
    · have : ∀ n ≤ 11, uploadRun.rst n = false → (uploadRun.ports n).wvalid = true →
          uploadRun.wHandshake n = false → (uploadRun.ports (n + 1)).wvalid = true ∧
            (uploadRun.ports (n + 1)).wdata = (uploadRun.ports n).wdata ∧
              (uploadRun.ports (n + 1)).wstrb = (uploadRun.ports n).wstrb := by decide +kernel
      obtain ⟨hnext, hdata⟩ := this n hn h hvalid hwait
      exact ⟨fun _ => hnext, fun _ => hdata⟩

/-- The writes of `uploading`. -/
def uploaded : List AxiWrite :=
  [⟨0x3c, 0x00112233, 0xf⟩, ⟨0x30, 0xccddeeff, 0xf⟩, ⟨0x38, 0x44556677, 0xf⟩,
    ⟨0x34, 0x8899aabb, 0xf⟩]

theorem uploads_uploaded : Uploads 0x00112233445566778899aabbccddeeff uploaded := by
  have h3 : AxiWrite.Carries ⟨0x3c, 0x00112233, 0xf⟩ 0x00112233445566778899aabbccddeeff 3 :=
    ⟨rfl, by decide, rfl⟩
  have h0 : AxiWrite.Carries ⟨0x30, 0xccddeeff, 0xf⟩ 0x00112233445566778899aabbccddeeff 0 :=
    ⟨rfl, by decide, rfl⟩
  have h2 : AxiWrite.Carries ⟨0x38, 0x44556677, 0xf⟩ 0x00112233445566778899aabbccddeeff 2 :=
    ⟨rfl, by decide, rfl⟩
  have h1 : AxiWrite.Carries ⟨0x34, 0x8899aabb, 0xf⟩ 0x00112233445566778899aabbccddeeff 1 :=
    ⟨rfl, by decide, rfl⟩
  constructor
  · simp only [uploaded, List.forall_mem_cons]
    exact ⟨⟨3, h3⟩, ⟨0, h0⟩, ⟨2, h2⟩, ⟨1, h1⟩, fun _ h => (List.not_mem_nil h).elim⟩
  · intro c
    fin_cases c
    · exact ⟨_, by simp [uploaded], h0⟩
    · exact ⟨_, by simp [uploaded], h1⟩
    · exact ⟨_, by simp [uploaded], h2⟩
    · exact ⟨_, by simp [uploaded], h3⟩

theorem roundKeys_of_upload_uploading :
    (blank.state uploading undefZero 24).aesUnit.rounder1.roundKeys (Fin.last 10) =
      Fips197.roundKey 0x00112233445566778899aabbccddeeff 10 := by
  have hquiet : ∀ m ≤ 23, 11 < m → (uploading m).s00Axi.aresetn = true ∧
      (uploading m).readTvalid = false ∧ uploadRun.aesKeyWrite m = false := by decide +kernel
  exact roundKeys_of_upload blank uploading undefZero rfl uploadRun_masterHolds
    0x00112233445566778899aabbccddeeff [] uploaded uploads_uploaded 11 rfl (by decide +kernel) rfl
    (by decide +kernel) (fun m hlt hle => hquiet m hle hlt) (Fin.last 10)

/-- A block is offered right behind the last word, and waits for the key. -/
def uploadThenBeat : ℕ → IpPorts := fun n =>
  if 12 ≤ n ∧ n ≤ 14 then { resting with readTdata := 5, readTvalid := true, readTlast := true }
  else uploading n

def uploadThenBeatRun : Run := blank.coreRun uploadThenBeat undefZero rfl

theorem uploadThenBeat_of_lt {n : ℕ} (h : 14 < n) : uploadThenBeat n = resting := by
  rw [uploadThenBeat, if_neg (by omega), uploading_of_lt (by omega)]

theorem uploadThenBeat_s00Axi (n : ℕ) : (uploadThenBeat n).s00Axi = (uploading n).s00Axi := by
  unfold uploadThenBeat
  split_ifs with h
  · rw [uploading_of_lt (by omega)]
  · rfl

theorem axiRun_uploadThenBeat : blank.axiRun uploadThenBeat rfl = uploadRun := by
  have hports : (fun n => (uploadThenBeat n).s00Axi) = fun n => (uploading n).s00Axi :=
    funext uploadThenBeat_s00Axi
  simp only [axiRun, uploadRun, hports]

theorem uploadThenBeat_sourceHolds : uploadThenBeatRun.SourceHolds := by
  intro n _ _ hoffer hwait
  rcases Nat.lt_or_ge 14 n with hn | hn
  · have hports : uploadThenBeatRun.offers n = resting.readTvalid :=
      congrArg IpPorts.readTvalid (uploadThenBeat_of_lt hn)
    rw [hports] at hoffer
    cases hoffer
  · have : ∀ n ≤ 14, uploadThenBeatRun.offers n = true → uploadThenBeatRun.accepts n = false →
        (uploadThenBeatRun.ports (n + 1)).readTvalid = true ∧
          (uploadThenBeatRun.ports (n + 1)).readTdata = (uploadThenBeatRun.ports n).readTdata ∧
          (uploadThenBeatRun.ports (n + 1)).readTlast = (uploadThenBeatRun.ports n).readTlast := by
      decide +kernel
    exact this n hn hoffer hwait

theorem uploadThenBeat_quietWrites : uploadThenBeatRun.QuietWrites := by
  intro n _ hw
  rcases Nat.lt_or_ge 14 n with hn | hn
  · have hports : (uploadThenBeat n).s00Axi.wvalid = false := by rw [uploadThenBeat_of_lt hn]; rfl
    have hidle : (uploadThenBeatRun.ports n).aesKeyWrite = false := by
      show S00Axi.aesKeyWrite _ (uploadThenBeat n).s00Axi = false
      rw [S00Axi.aesKeyWrite, S00Axi.slvRegWren, hports, Bool.and_false]
      rfl
    rw [hidle] at hw
    cases hw
  · have : ∀ n ≤ 14, (uploadThenBeatRun.ports n).aesKeyWrite = true →
        uploadThenBeatRun.offers n = false ∧ uploadThenBeatRun.packetOpen n = false ∧
          (uploadThenBeatRun.delivered n).length = (uploadThenBeatRun.accepted n).length := by
      decide +kernel
    exact this n hn hw

theorem stream_encrypted_uploadThenBeat : uploadThenBeatRun.delivered 30 =
    [(Fips197.cipher 0x00112233445566778899aabbccddeeff 5, true)] := by
  have hfirst : ∀ n, uploadThenBeatRun.rst n = false → uploadThenBeatRun.offers n = true →
      (blank.axiRun uploadThenBeat rfl).keyWrites n ≠ [] := by
    intro n _ hoffer
    rcases Nat.lt_or_ge 14 n with hn | hn
    · have hports : uploadThenBeatRun.offers n = resting.readTvalid :=
        congrArg IpPorts.readTvalid (uploadThenBeat_of_lt hn)
      rw [hports] at hoffer
      cases hoffer
    · have : ∀ n ≤ 14, uploadThenBeatRun.offers n = true →
          ((blank.axiRun uploadThenBeat rfl).keyWrites n).length ≠ 0 := by decide +kernel
      exact fun hnil => this n hn hoffer (by rw [hnil]; rfl)
  have hprefix := stream_encrypted blank uploadThenBeat undefZero rfl
    (axiRun_uploadThenBeat ▸ uploadRun_masterHolds) uploadThenBeat_sourceHolds hfirst
    uploadThenBeat_quietWrites 29
  have hbeats : (blank.busAccepted uploadThenBeat undefZero rfl 30).map
      (fun kb => (kb.1, kb.2.tdata, kb.2.tlast)) =
        [(0x00112233445566778899aabbccddeeff, 5, true)] := by decide +kernel
  have hcipher := congrArg (List.map fun b : BitVec 128 × AesMatrix × Bool =>
    (Fips197.cipher b.1 b.2.1, b.2.2)) hbeats
  rw [List.map_map] at hcipher
  have hlength : (uploadThenBeatRun.delivered 30).length = 1 := by decide +kernel
  exact (hcipher ▸ hprefix).eq_of_length hlength

end Ip

end AesAccelerator
