import AesAccelerator.S00Axi
import AesAccelerator.Lib.Clocked

/-! # The contract of the key port

The core trusts its key port: the key changes only in a cycle with `aes_key_write`, and it is what
the writes have made it.  `S00AxiRun` is a run of the slave alone, with a write master that
holds what it offers (`MasterHolds`), in any order and with any delays.

The slave waits for address and data, latches the address, and takes both in the next cycle; so the
address it uses is an old one and the data are new.  `Handshake` is the invariant that joins them:
the two ready signals are one, and while they are up the latched address is the one on the bus and
both are still offered. -/

namespace AesAccelerator

/-- A completed write. -/
structure AxiWrite where
  awaddr : BitVec 6
  wdata : BitVec 32
  wstrb : BitVec 4

/-- The write is to one of the bytes `0x30, …, 0x3f`. -/
def AxiWrite.toKey (w : AxiWrite) : Bool := decide (0x30 ≤ w.awaddr.toNat)

/-- The key after a write: word `12` is in bits `31 … 0`, word `15` in bits `127 … 96`, and the
bytes of the word that the strobes select are replaced. -/
def mergeWrite (key : BitVec 128) (w : AxiWrite) : BitVec 128 :=
  Packed.ofBits 128 fun i =>
    if w.awaddr.toNat / 4 = 12 + i / 32 ∧ w.wstrb.getLsbD (i % 32 / 8) = true then
      w.wdata.getLsbD (i % 32)
    else key.getLsbD i

theorem lane_mergeWrite (key : BitVec 128) (w : AxiWrite) (c : Fin 4) :
    Packed.lane 32 (mergeWrite key w) c =
      if w.awaddr.toNat / 4 = 12 + c then
        S00Axi.writeStrobed (Packed.lane 32 key c) w.wdata w.wstrb
      else Packed.lane 32 key c := by
  apply BitVec.eq_of_getLsbD_eq
  intro k hk
  have hdiv : (32 * (c : ℕ) + k) / 32 = c := by omega
  have hmod : (32 * (c : ℕ) + k) % 32 = k := by omega
  rw [Packed.getLsbD_lane, mergeWrite, Packed.getLsbD_ofBits _ (by omega), hdiv, hmod]
  by_cases hw : w.awaddr.toNat / 4 = 12 + (c : ℕ)
  · rw [if_pos hw, S00Axi.writeStrobed, Packed.getLsbD_ofBits _ hk, Packed.getLsbD_lane]
    simp [hw, hk]
  · rw [if_neg hw, Packed.getLsbD_lane]
    simp [hw]

theorem mergeWrite_of_not_toKey {key : BitVec 128} {w : AxiWrite} (h : w.toKey = false) :
    mergeWrite key w = key := by
  apply Packed.eq_of_lanes (l := 32)
  intro c
  have hlow : w.awaddr.toNat < 0x30 := by simpa [AxiWrite.toKey] using h
  rw [lane_mergeWrite, if_neg (by omega)]

namespace S00Axi

section cycle
variable {s : S00Axi} {p : S00AxiPorts}

theorem lane_aesKey (s : S00Axi) (c : Fin 4) :
    Packed.lane 32 s.aesKey c = s.slvReg (Fin.natAdd 12 c) :=
  Packed.lane_pack (l := 32) (fun c => s.slvReg (Fin.natAdd 12 c)) c

theorem regIndex_eq_iff (addr : BitVec 6) (c : Fin 4) :
    Fin.natAdd 12 c = regIndex addr ↔ addr.toNat / 4 = 12 + c := by
  revert addr c
  decide

theorem aesKeyWrite_eq (s : S00Axi) (p : S00AxiPorts) : s.aesKeyWrite p =
    (s.slvRegWren p && decide (0x30 ≤ s.axiAwaddr.toNat)) := by
  have hrange : ∀ addr : BitVec 6,
      (addr.extractLsb' 4 2 == 0b11#2) = decide (0x30 ≤ addr.toNat) := by decide
  rw [aesKeyWrite, hrange]

theorem step_aesKey_of_wren (h : p.aresetn = true) (hw : s.slvRegWren p = true) :
    (s.step p).aesKey = mergeWrite s.aesKey ⟨s.axiAwaddr, p.wdata, p.wstrb⟩ := by
  apply Packed.eq_of_lanes (l := 32)
  intro c
  rw [lane_aesKey, lane_mergeWrite, lane_aesKey]
  show s.slvRegNext p _ = _
  simp only [slvRegNext, h, hw, Bool.not_true, Bool.false_eq_true, if_false, if_true,
    regIndex_eq_iff]
  by_cases hc : s.axiAwaddr.toNat / 4 = 12 + (c : ℕ)
  · rw [if_pos hc, if_pos hc, (regIndex_eq_iff _ _).mpr hc]
  · rw [if_neg hc, if_neg hc]

theorem step_aesKey_of_not_wren (h : p.aresetn = true) (hw : s.slvRegWren p = false) :
    (s.step p).aesKey = s.aesKey := by
  simp [aesKey, step, slvRegNext, h, hw]

/-- Without `aes_key_write` the key stays. -/
theorem step_aesKey_of_not_write (h : p.aresetn = true) (hw : s.aesKeyWrite p = false) :
    (s.step p).aesKey = s.aesKey := by
  cases hwren : s.slvRegWren p with
  | false => exact step_aesKey_of_not_wren h hwren
  | true =>
      rw [aesKeyWrite_eq, hwren, Bool.true_and] at hw
      rw [step_aesKey_of_wren h hwren]
      exact mergeWrite_of_not_toKey hw

/-- The slave will take the write that is offered in the next cycle. -/
def takesUp (s : S00Axi) (p : S00AxiPorts) : Bool :=
  !s.axiAwready && p.awvalid && p.wvalid && s.awEn

theorem step_axiAwready (h : p.aresetn = true) : (s.step p).axiAwready = s.takesUp p := by
  show (if !p.aresetn then (false, true) else if s.takesUp p then (true, false) else _).1 = _
  rw [h]
  cases s.takesUp p with
  | true => rfl
  | false =>
      show (if p.bready && s.axiBvalid then (false, true) else (false, s.awEn)).1 = false
      split_ifs <;> rfl

theorem step_axiWready (h : p.aresetn = true) (hready : s.axiWready = s.axiAwready) :
    (s.step p).axiWready = s.takesUp p := by
  show (if !p.aresetn then false else _) = _
  rw [h, hready, takesUp, Bool.and_right_comm !s.axiAwready]
  rfl

theorem step_axiAwaddr (h : p.aresetn = true) :
    (s.step p).axiAwaddr = if s.takesUp p then p.awaddr else s.axiAwaddr := by
  show (if !p.aresetn then 0 else _) = _
  rw [h]
  rfl

end cycle

end S00Axi

/-! ### Runs of the slave -/

/-- A run of `aes_v1_0_S00_AXI`: nothing is known of the registers before the reset. -/
structure S00AxiRun where
  powerUp : S00Axi
  ports : ℕ → S00AxiPorts
  reset_first : (ports 0).aresetn = false

namespace S00AxiRun

section runs
variable (x : S00AxiRun)

/-- The registers at the start of cycle `n`. -/
def state : ℕ → S00Axi := Clocked.trace S00Axi.step x.powerUp x.ports

def rst (n : ℕ) : Bool := !(x.ports n).aresetn

def aesKey (n : ℕ) : BitVec 128 := (x.state n).aesKey

def aesKeyWrite (n : ℕ) : Bool := (x.state n).aesKeyWrite (x.ports n)

def awHandshake (n : ℕ) : Bool := (x.ports n).awvalid && (x.state n).axiAwready

def wHandshake (n : ℕ) : Bool := (x.ports n).wvalid && (x.state n).axiWready

/-- The master holds an address, and data with their strobes, until they are taken.  A reset ends
the obligation to go on, but what is still offered then is what was. -/
structure MasterHolds : Prop where
  address : ∀ n, x.rst n = false → (x.ports n).awvalid = true → x.awHandshake n = false →
    (x.rst (n + 1) = false → (x.ports (n + 1)).awvalid = true) ∧
      ((x.ports (n + 1)).awvalid = true → (x.ports (n + 1)).awaddr = (x.ports n).awaddr)
  data : ∀ n, x.rst n = false → (x.ports n).wvalid = true → x.wHandshake n = false →
    (x.rst (n + 1) = false → (x.ports (n + 1)).wvalid = true) ∧
      ((x.ports (n + 1)).wvalid = true →
        (x.ports (n + 1)).wdata = (x.ports n).wdata ∧ (x.ports (n + 1)).wstrb = (x.ports n).wstrb)

/-- The addresses taken since the reset. -/
def addresses : ℕ → List (BitVec 6)
  | 0 => []
  | n + 1 =>
      if x.rst n then []
      else if x.awHandshake n then addresses n ++ [(x.ports n).awaddr] else addresses n

/-- The data taken since the reset, with their strobes. -/
def data : ℕ → List (BitVec 32 × BitVec 4)
  | 0 => []
  | n + 1 =>
      if x.rst n then []
      else if x.wHandshake n then data n ++ [((x.ports n).wdata, (x.ports n).wstrb)] else data n

/-- The completed writes: the first address belongs to the first data, and so on. -/
def writes (n : ℕ) : List AxiWrite :=
  List.zipWith (fun awaddr d => ⟨awaddr, d.1, d.2⟩) (x.addresses n) (x.data n)

def keyWrites (n : ℕ) : List AxiWrite := (x.writes n).filter AxiWrite.toKey

/-- The cycles with `aes_key_write` since the reset. -/
def pulses : ℕ → ℕ
  | 0 => 0
  | n + 1 => if x.rst n then 0 else pulses n + (x.aesKeyWrite n).toNat

/-- The two ready signals are one, and when they are up the latched address and the data that the
master still offers belong to the same write. -/
structure Handshake (n : ℕ) : Prop where
  ready : (x.state n).axiWready = (x.state n).axiAwready
  latched : (x.state n).axiAwready = true → (x.ports n).awvalid = true →
    (x.state n).axiAwaddr = (x.ports n).awaddr
  offered : (x.state n).axiAwready = true → x.rst n = false →
    (x.ports n).awvalid = true ∧ (x.ports n).wvalid = true

variable {x} {n : ℕ}

theorem rst_zero (x : S00AxiRun) : x.rst 0 = true := by rw [rst, x.reset_first, Bool.not_false]

theorem state_reset (h : x.rst n = true) : x.state (n + 1) = S00Axi.cleared :=
  S00Axi.step_reset (by simpa [rst] using h)

theorem handshake_reset (h : x.rst n = true) : x.Handshake (n + 1) := by
  constructor
  · rw [state_reset h]
    rfl
  · intro hready
    rw [state_reset h] at hready
    cases hready
  · intro hready
    rw [state_reset h] at hready
    cases hready

/-- Ready is raised for what is offered and was not taken before. -/
theorem handshake_step (hmaster : x.MasterHolds) (h : x.rst n = false) (ih : x.Handshake n) :
    x.Handshake (n + 1) := by
  have hn : (x.ports n).aresetn = true := by simpa [rst] using h
  have haw : (x.state (n + 1)).axiAwready = (x.state n).takesUp (x.ports n) :=
    S00Axi.step_axiAwready hn
  have hw : (x.state (n + 1)).axiWready = (x.state n).takesUp (x.ports n) :=
    S00Axi.step_axiWready hn ih.ready
  have haddr : (x.state (n + 1)).axiAwaddr =
      if (x.state n).takesUp (x.ports n) then (x.ports n).awaddr else (x.state n).axiAwaddr :=
    S00Axi.step_axiAwaddr hn
  cases htakes : (x.state n).takesUp (x.ports n) with
  | false =>
      rw [htakes] at haw hw
      constructor
      · rw [haw, hw]
      · intro hready
        rw [haw] at hready
        cases hready
      · intro hready
        rw [haw] at hready
        cases hready
  | true =>
      rw [htakes] at haw hw haddr
      obtain ⟨⟨⟨hidle, hawvalid⟩, hwvalid⟩, -⟩ :
          (((x.state n).axiAwready = false ∧ (x.ports n).awvalid = true) ∧
            (x.ports n).wvalid = true) ∧ (x.state n).awEn = true := by
        simpa [S00Axi.takesUp] using htakes
      have hnotaw : x.awHandshake n = false := by rw [awHandshake, hidle, Bool.and_false]
      have hnotw : x.wHandshake n = false := by rw [wHandshake, ih.ready, hidle, Bool.and_false]
      obtain ⟨hawstays, hsame⟩ := hmaster.address n h hawvalid hnotaw
      obtain ⟨hwstays, -⟩ := hmaster.data n h hwvalid hnotw
      constructor
      · rw [haw, hw]
      · intro _ hvalid
        rw [haddr, hsame hvalid]
        rfl
      · intro _ h'
        exact ⟨hawstays h', hwstays h'⟩

theorem handshake (hmaster : x.MasterHolds) : ∀ n, x.Handshake (n + 1) := by
  apply Clocked.since_reset (r := x.rst) (P := x.Handshake) x.rst_zero
  · exact fun n h => handshake_reset h
  · exact fun n h ih => handshake_step hmaster h ih

/-! ### What the handshakes say -/

theorem Handshake.aesKeyWrite_iff (hI : x.Handshake n) : x.aesKeyWrite n = true ↔
    x.awHandshake n = true ∧ x.wHandshake n = true ∧ 0x30 ≤ (x.ports n).awaddr.toNat := by
  rw [aesKeyWrite, S00Axi.aesKeyWrite_eq, S00Axi.slvRegWren, awHandshake, wHandshake]
  simp only [Bool.and_eq_true, decide_eq_true_eq]
  constructor
  · rintro ⟨⟨⟨⟨hwready, hwvalid⟩, hawready⟩, hawvalid⟩, haddr⟩
    rw [hI.latched hawready hawvalid] at haddr
    exact ⟨⟨hawvalid, hawready⟩, ⟨hwvalid, hwready⟩, haddr⟩
  · rintro ⟨⟨hawvalid, hawready⟩, ⟨hwvalid, hwready⟩, haddr⟩
    rw [← hI.latched hawready hawvalid] at haddr
    exact ⟨⟨⟨⟨hwready, hwvalid⟩, hawready⟩, hawvalid⟩, haddr⟩

/-- Outside of resets address and data are taken together. -/
theorem Handshake.together (hI : x.Handshake n) (h : x.rst n = false) :
    x.wHandshake n = x.awHandshake n := by
  rw [awHandshake, wHandshake, hI.ready]
  cases hready : (x.state n).axiAwready with
  | false => rw [Bool.and_false, Bool.and_false]
  | true =>
      obtain ⟨haw, hw⟩ := hI.offered hready h
      rw [haw, hw]

theorem slvRegWren_eq : (x.state n).slvRegWren (x.ports n) =
    (x.wHandshake n && x.awHandshake n) := by
  rw [S00Axi.slvRegWren, wHandshake, awHandshake, Bool.and_comm (x.ports n).wvalid,
    Bool.and_comm (x.ports n).awvalid, Bool.and_assoc _ (x.state n).axiAwready]

/-- The write that is completed in cycle `n`. -/
def completed (x : S00AxiRun) (n : ℕ) : AxiWrite :=
  ⟨(x.ports n).awaddr, (x.ports n).wdata, (x.ports n).wstrb⟩

/-- What has been taken since the reset, and what has come of it. -/
structure Applied (x : S00AxiRun) (n : ℕ) : Prop where
  paired : (x.addresses n).length = (x.data n).length
  pulses : x.pulses n = (x.keyWrites n).length
  key : x.aesKey n = (x.keyWrites n).foldl mergeWrite 0

theorem applied_reset (h : x.rst n = true) : x.Applied (n + 1) := by
  have ha : x.addresses (n + 1) = [] := if_pos h
  have hd : x.data (n + 1) = [] := if_pos h
  have hp : x.pulses (n + 1) = 0 := if_pos h
  constructor
  · rw [ha, hd]
    rfl
  · rw [hp, keyWrites, writes, ha]
    rfl
  · rw [keyWrites, writes, ha, aesKey, state_reset h]
    rfl

/-- Nothing is taken, and the key stays. -/
theorem applied_wait (h : x.rst n = false) (hI : x.Handshake n) (ih : x.Applied n)
    (haw : x.awHandshake n = false) : x.Applied (n + 1) := by
  have hn : (x.ports n).aresetn = true := by simpa [rst] using h
  have hw : x.wHandshake n = false := (hI.together h).trans haw
  have ha : x.addresses (n + 1) = x.addresses n := by simp [addresses, h, haw]
  have hd : x.data (n + 1) = x.data n := by simp [data, h, hw]
  have hwrites : x.keyWrites (n + 1) = x.keyWrites n := by
    rw [keyWrites, keyWrites, writes, writes, ha, hd]
  have hpulse : x.aesKeyWrite n = false := by
    rw [Bool.eq_false_iff]
    intro hpulse
    rw [(hI.aesKeyWrite_iff.mp hpulse).1] at haw
    cases haw
  have hp : x.pulses (n + 1) = x.pulses n := by simp [pulses, h, hpulse]
  have hwren : (x.state n).slvRegWren (x.ports n) = false := by
    rw [slvRegWren_eq, haw, Bool.and_false]
  have hkey : x.aesKey (n + 1) = x.aesKey n := S00Axi.step_aesKey_of_not_wren hn hwren
  constructor
  · rw [ha, hd, ih.paired]
  · rw [hp, hwrites, ih.pulses]
  · rw [hkey, hwrites, ih.key]

/-- A completed write joins the others and is merged into the key. -/
theorem applied_write (h : x.rst n = false) (hI : x.Handshake n) (ih : x.Applied n)
    (haw : x.awHandshake n = true) : x.Applied (n + 1) := by
  have hn : (x.ports n).aresetn = true := by simpa [rst] using h
  have hw : x.wHandshake n = true := (hI.together h).trans haw
  have ha : x.addresses (n + 1) = x.addresses n ++ [(x.ports n).awaddr] := by
    simp [addresses, h, haw]
  have hd : x.data (n + 1) = x.data n ++ [((x.ports n).wdata, (x.ports n).wstrb)] := by
    simp [data, h, hw]
  have hwrites : x.keyWrites (n + 1) = x.keyWrites n ++ [x.completed n].filter AxiWrite.toKey := by
    rw [keyWrites, keyWrites, ← List.filter_append, writes, writes, ha, hd,
      List.zipWith_append ih.paired]
    rfl
  have hpulse : x.aesKeyWrite n = (x.completed n).toKey := by
    rw [Bool.eq_iff_iff, hI.aesKeyWrite_iff, AxiWrite.toKey, decide_eq_true_eq]
    exact ⟨fun hp => hp.2.2, fun haddr => ⟨haw, hw, haddr⟩⟩
  have hwren : (x.state n).slvRegWren (x.ports n) = true := by rw [slvRegWren_eq, haw, hw]; rfl
  have hlatched : (x.state n).axiAwaddr = (x.ports n).awaddr := by
    obtain ⟨hvalid, hready⟩ := Bool.and_eq_true_iff.mp haw
    exact hI.latched hready hvalid
  have hkey : x.aesKey (n + 1) = mergeWrite (x.aesKey n) (x.completed n) := by
    rw [completed, ← hlatched]
    exact S00Axi.step_aesKey_of_wren hn hwren
  have hp : x.pulses (n + 1) = x.pulses n + (x.completed n).toKey.toNat := by
    simp [pulses, h, hpulse]
  constructor
  · rw [ha, hd, List.length_append, List.length_append, ih.paired]
    rfl
  · rw [hp, hwrites, List.length_append, ih.pulses]
    cases htk : (x.completed n).toKey <;> simp [htk]
  · rw [hkey, hwrites, List.foldl_append, ← ih.key]
    cases htk : (x.completed n).toKey with
    | true => rw [List.filter_cons_of_pos htk]; rfl
    | false =>
        rw [List.filter_cons_of_neg (ne_true_of_eq_false htk), mergeWrite_of_not_toKey htk]
        rfl

theorem applied (hmaster : x.MasterHolds) : ∀ n, x.Applied (n + 1) := by
  apply Clocked.since_reset_with (r := x.rst) (P := x.Applied) x.rst_zero (handshake hmaster)
  · exact fun n h => applied_reset h
  · intro n h hI ih
    cases haw : x.awHandshake n with
    | false => exact applied_wait h hI ih haw
    | true => exact applied_write h hI ih haw

/-- **The contract of the key port**: `aes_key_write` is up exactly when a write to the key is
completed, its address and its data in the same cycle, and once for each of them; the key changes
only at the end of such a cycle; and it is what these writes, in order, have made of the zero
key. -/
theorem keyPort_contract (x : S00AxiRun) (hmaster : x.MasterHolds) (n : ℕ) :
    (x.aesKeyWrite (n + 1) = true ↔ x.awHandshake (n + 1) = true ∧ x.wHandshake (n + 1) = true ∧
      0x30 ≤ (x.ports (n + 1)).awaddr.toNat) ∧
    (x.rst (n + 1) = false → x.wHandshake (n + 1) = x.awHandshake (n + 1)) ∧
    (x.addresses (n + 1)).length = (x.data (n + 1)).length ∧
    x.pulses (n + 1) = (x.keyWrites (n + 1)).length ∧
    (x.aesKey (n + 1) ≠ x.aesKey n → x.rst n = true ∨ x.aesKeyWrite n = true) ∧
    x.aesKey (n + 1) = (x.keyWrites (n + 1)).foldl mergeWrite 0 := by
  have hI := handshake hmaster n
  have hA := applied hmaster n
  refine ⟨hI.aesKeyWrite_iff, hI.together, hA.paired, hA.pulses, ?_, hA.key⟩
  intro hne
  by_contra hcon
  rw [not_or, Bool.not_eq_true, Bool.not_eq_true] at hcon
  exact hne (S00Axi.step_aesKey_of_not_write (by simpa [rst] using hcon.1) hcon.2)

end runs

/-- Two bytes of word `13` are written; the address is offered two cycles before the data. -/
def addressFirst : S00AxiRun where
  powerUp := ⟨0x3f, true, true, 0, true, 0, true, 0, 0, true, fun _ => 0xffffffff, false⟩
  ports n :=
    { aresetn := n != 0, awaddr := 0x34, awvalid := 1 ≤ n && n ≤ 4, wdata := 0xdeadbeef,
      wstrb := 0b0101, wvalid := 3 ≤ n && n ≤ 4, bready := true, araddr := 0x30, arvalid := true,
      rready := false }
  reset_first := rfl

theorem addressFirst_masterHolds : addressFirst.MasterHolds := by
  have taken : addressFirst.awHandshake 4 = true ∧ addressFirst.wHandshake 4 = true := by decide
  constructor
  · intro n _ hvalid hwait
    have hn : 1 ≤ n ∧ n ≤ 4 := by simpa [addressFirst] using hvalid
    have hne : n ≠ 4 := by
      rintro rfl
      rw [taken.1] at hwait
      cases hwait
    refine ⟨fun _ => ?_, fun _ => rfl⟩
    simp [addressFirst]
    omega
  · intro n _ hvalid hwait
    have hn : 3 ≤ n ∧ n ≤ 4 := by simpa [addressFirst] using hvalid
    have hne : n ≠ 4 := by
      rintro rfl
      rw [taken.2] at hwait
      cases hwait
    refine ⟨fun _ => ?_, fun _ => ⟨rfl, rfl⟩⟩
    simp [addressFirst]
    omega

theorem keyPort_contract_addressFirst :
    addressFirst.aesKeyWrite 3 = false ∧ addressFirst.aesKeyWrite 4 = true ∧
      addressFirst.aesKey 9 = 0x00ad00ef00000000 := by
  have hcontract := keyPort_contract addressFirst addressFirst_masterHolds
  refine ⟨by decide, ?_, ?_⟩
  · exact (hcontract 3).1.mpr (by decide)
  · rw [(hcontract 8).2.2.2.2.2]
    decide +kernel

end S00AxiRun

end AesAccelerator
