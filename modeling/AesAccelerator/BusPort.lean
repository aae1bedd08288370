import AesAccelerator.KeyPort

/-! # The slave as a memory

What `aes_v1_0_S00_AXI` is to the processor: sixteen registers that are written and read over the
bus.  `RegisterFile` says that the registers are what the completed writes have made of zeros, that
every write is answered once and no other is taken before (`aw_en`), and that an answer waits until
it is taken.

Reads are not held back in this way.  An address is taken even while the answer to the read before
is waiting, and then its own answer never comes (`lostReads`); all other reads are answered once, in
order, with what was in the register when the address was taken (`ReadChannel`).  A master that takes
every answer at once loses none. -/

namespace AesAccelerator

/-- The registers after a write. -/
def writeReg (regs : Fin 16 → BitVec 32) (w : AxiWrite) : Fin 16 → BitVec 32 := fun j =>
  if j = S00Axi.regIndex w.awaddr then S00Axi.writeStrobed (regs j) w.wdata w.wstrb else regs j

namespace S00Axi

section cycle
variable {s : S00Axi} {p : S00AxiPorts} (h : p.aresetn = true)
include h

theorem step_slvReg_of_wren (hw : s.slvRegWren p = true) :
    (s.step p).slvReg = writeReg s.slvReg ⟨s.axiAwaddr, p.wdata, p.wstrb⟩ := by
  funext j
  show s.slvRegNext p j = _
  simp only [slvRegNext, h, hw, Bool.not_true, Bool.false_eq_true, if_false, if_true, writeReg]
  split_ifs with hj
  · rw [hj]
  · rfl

theorem step_slvReg_of_not_wren (hw : s.slvRegWren p = false) : (s.step p).slvReg = s.slvReg := by
  show s.slvRegNext p = _
  simp [slvRegNext, h, hw]

theorem step_awEn (htakes : s.takesUp p = false) :
    (s.step p).awEn = (s.awEn || (p.bready && s.axiBvalid)) := by
  show (if !p.aresetn then (false, true) else if s.takesUp p then (true, false) else _).2 = _
  rw [h, htakes]
  show (if p.bready && s.axiBvalid then (false, true) else (false, s.awEn)).2 = _
  split_ifs with hb
  · rw [hb, Bool.or_true]
  · rw [(Bool.not_eq_true _).mp hb, Bool.or_false]

theorem step_awEn_of_takesUp (htakes : s.takesUp p = true) : (s.step p).awEn = false := by
  show (if !p.aresetn then (false, true) else if s.takesUp p then (true, false) else _).2 = _
  rw [h, htakes]
  rfl

theorem step_axiBvalid : (s.step p).axiBvalid =
    ((s.slvRegWren p && !s.axiBvalid) || (s.axiBvalid && !p.bready)) := by
  show (s.bvalidNext p).1 = _
  simp only [bvalidNext, slvRegWren, h, Bool.not_true, Bool.false_eq_true, if_false]
  cases s.axiAwready <;> cases p.awvalid <;> cases s.axiBvalid <;> cases s.axiWready <;>
    cases p.wvalid <;> cases p.bready <;> rfl

theorem step_axiArready : (s.step p).axiArready = (!s.axiArready && p.arvalid) := by
  show (s.arreadyNext p).1 = _
  simp only [arreadyNext, h, Bool.not_true, Bool.false_eq_true, if_false]
  split_ifs with hready
  · exact hready.symm
  · exact ((Bool.not_eq_true _).mp hready).symm

theorem step_axiAraddr (hready : s.axiArready = false) (hvalid : p.arvalid = true) :
    (s.step p).axiAraddr = p.araddr := by
  show (s.arreadyNext p).2 = _
  simp [arreadyNext, h, hready, hvalid]

theorem step_axiRvalid : (s.step p).axiRvalid =
    (s.slvRegRden p || (s.axiRvalid && !p.rready)) := by
  show (s.rvalidNext p).1 = _
  simp only [rvalidNext, slvRegRden, h, Bool.not_true, Bool.false_eq_true, if_false]
  cases s.axiArready <;> cases p.arvalid <;> cases s.axiRvalid <;> cases p.rready <;> rfl

theorem step_axiRdata : (s.step p).axiRdata = if s.slvRegRden p then s.regDataOut else s.axiRdata := by
  show s.rdataNext p = _
  simp only [rdataNext, h, Bool.not_true, Bool.false_eq_true, if_false]

end cycle

end S00Axi

namespace S00AxiRun

section observers
variable (x : S00AxiRun)

/-! ### Answers -/

def bHandshake (n : ℕ) : Bool := (x.state n).axiBvalid && (x.ports n).bready

def arHandshake (n : ℕ) : Bool := (x.ports n).arvalid && (x.state n).axiArready

def rHandshake (n : ℕ) : Bool := (x.state n).axiRvalid && (x.ports n).rready

/-- The answers to writes since the reset. -/
def responses : ℕ → ℕ
  | 0 => 0
  | n + 1 => if x.rst n then 0 else responses n + (x.bHandshake n).toNat

/-- The read addresses taken since the reset. -/
def readAddresses : ℕ → List (BitVec 6)
  | 0 => []
  | n + 1 =>
      if x.rst n then []
      else if x.arHandshake n then readAddresses n ++ [(x.ports n).araddr] else readAddresses n

/-- The reads that are taken while an answer is waiting. -/
def lostReads : ℕ → ℕ
  | 0 => 0
  | n + 1 =>
      if x.rst n then 0
      else lostReads n + (x.arHandshake n && (x.state n).axiRvalid).toNat

/-- What the writes completed before had made of the addressed register when the other read
addresses were taken. -/
def readData : ℕ → List (BitVec 32)
  | 0 => []
  | n + 1 =>
      if x.rst n then []
      else if x.arHandshake n && !(x.state n).axiRvalid then
        readData n ++
          [(x.writes n).foldl writeReg (fun _ => 0) (S00Axi.regIndex (x.ports n).araddr)]
      else readData n

/-- The data the master has been given since the reset. -/
def answers : ℕ → List (BitVec 32)
  | 0 => []
  | n + 1 =>
      if x.rst n then []
      else if x.rHandshake n then answers n ++ [(x.state n).axiRdata] else answers n

/-- The master holds a read address until it is taken. -/
def ReaderHolds : Prop := ∀ n, x.rst n = false → (x.ports n).arvalid = true →
  x.arHandshake n = false →
    (x.rst (n + 1) = false → (x.ports (n + 1)).arvalid = true) ∧
      ((x.ports (n + 1)).arvalid = true → (x.ports (n + 1)).araddr = (x.ports n).araddr)

end observers

/-! ### Writes -/

section writes
variable {x : S00AxiRun} {n : ℕ}

/-- The registers, and what becomes of the writes. -/
structure RegisterFile (x : S00AxiRun) (n : ℕ) : Prop where
  registers : (x.state n).slvReg = (x.writes n).foldl writeReg fun _ => 0
  answered : (x.writes n).length = x.responses n + (x.state n).axiBvalid.toNat
  enabled : (x.state n).awEn = (!(x.state n).axiAwready && !(x.state n).axiBvalid)
  apart : (x.state n).axiAwready = true → (x.state n).axiBvalid = false

theorem Handshake.awHandshake_eq (hI : x.Handshake n) (h : x.rst n = false) :
    x.awHandshake n = (x.state n).axiAwready := by
  rw [awHandshake]
  cases hready : (x.state n).axiAwready with
  | false => rw [Bool.and_false]
  | true => rw [(hI.offered hready h).1, Bool.and_true]

theorem writes_step (h : x.rst n = false) (hI : x.Handshake n) (hA : x.Applied n) :
    x.writes (n + 1) = x.writes n ++ if x.awHandshake n then [x.completed n] else [] := by
  have hw : x.wHandshake n = x.awHandshake n := hI.together h
  cases haw : x.awHandshake n with
  | false =>
      rw [haw] at hw
      simp [writes, addresses, data, h, haw, hw]
  | true =>
      rw [haw] at hw
      have ha : x.addresses (n + 1) = x.addresses n ++ [(x.ports n).awaddr] := by
        simp [addresses, h, haw]
      have hd : x.data (n + 1) = x.data n ++ [((x.ports n).wdata, (x.ports n).wstrb)] := by
        simp [data, h, hw]
      rw [writes, writes, ha, hd, List.zipWith_append hA.paired]
      rfl

theorem registerFile_reset (h : x.rst n = true) : x.RegisterFile (n + 1) := by
  have ha : x.addresses (n + 1) = [] := if_pos h
  have hr : x.responses (n + 1) = 0 := if_pos h
  constructor
  · rw [state_reset h, writes, ha]
    rfl
  · rw [state_reset h, writes, ha, hr]
    rfl
  · rw [state_reset h]
    rfl
  · rw [state_reset h]
    intro hready
    cases hready

theorem responses_step (h : x.rst n = false) :
    x.responses (n + 1) = x.responses n + (x.bHandshake n).toNat := by
  rw [responses, if_neg (by simp [h])]

theorem registerFile_step (h : x.rst n = false) (hI : x.Handshake n) (hA : x.Applied n)
    (ih : x.RegisterFile n) : x.RegisterFile (n + 1) := by
  have hn : (x.ports n).aresetn = true := by simpa [rst] using h
  have hhand := hI.awHandshake_eq h
  have hwren : (x.state n).slvRegWren (x.ports n) = (x.state n).axiAwready := by
    rw [slvRegWren_eq, hI.together h, hhand, Bool.and_self]
  have haw : (x.state (n + 1)).axiAwready = (x.state n).takesUp (x.ports n) :=
    S00Axi.step_axiAwready hn
  have hbvalid : (x.state (n + 1)).axiBvalid = (((x.state n).axiAwready &&
      !(x.state n).axiBvalid) || ((x.state n).axiBvalid && !(x.ports n).bready)) := by
    rw [← hwren]
    exact S00Axi.step_axiBvalid hn
  have hen : (x.state n).takesUp (x.ports n) = false → (x.state (n + 1)).awEn =
      ((x.state n).awEn || ((x.ports n).bready && (x.state n).axiBvalid)) := S00Axi.step_awEn hn
  have hwrites := writes_step h hI hA
  rw [hhand] at hwrites
  cases hready : (x.state n).axiAwready with
  | true =>
      -- the write is completed, and is answered from the next cycle on
      have hidle := ih.apart hready
      have htakes : (x.state n).takesUp (x.ports n) = false := by rw [S00Axi.takesUp, hready]; rfl
      have hen := hen htakes
      have hanswered := ih.answered
      rw [hready, hidle] at hbvalid
      rw [hready, if_pos rfl] at hwrites
      rw [ih.enabled, hready, hidle, Bool.and_false] at hen
      rw [hidle] at hanswered
      constructor
      · have hregs : (x.state (n + 1)).slvReg = writeReg (x.state n).slvReg
            ⟨(x.state n).axiAwaddr, (x.ports n).wdata, (x.ports n).wstrb⟩ :=
          S00Axi.step_slvReg_of_wren hn (hwren.trans hready)
        rw [hregs, hI.latched hready (hI.offered hready h).1, ih.registers, hwrites,
          List.foldl_append]
        rfl
      · rw [hwrites, List.length_append, responses_step h, bHandshake, hidle, hbvalid, hanswered]
        rfl
      · rw [hen, haw, htakes, hbvalid]
        rfl
      · intro hready'
        rw [haw, htakes] at hready'
        cases hready'
  | false =>
      have hregs : (x.state (n + 1)).slvReg = (x.state n).slvReg :=
        S00Axi.step_slvReg_of_not_wren hn (hwren.trans hready)
      have hanswered := ih.answered
      rw [hready] at hbvalid
      rw [hready, if_neg Bool.false_ne_true, List.append_nil] at hwrites
      have hcount : (x.writes (n + 1)).length =
          x.responses (n + 1) + (x.state (n + 1)).axiBvalid.toNat := by
        rw [hwrites, hanswered, responses_step h, bHandshake, hbvalid]
        cases (x.state n).axiBvalid <;> cases (x.ports n).bready <;> rfl
      have hregs' : (x.state (n + 1)).slvReg = (x.writes (n + 1)).foldl writeReg fun _ => 0 := by
        rw [hregs, ih.registers, hwrites]
      cases htakes : (x.state n).takesUp (x.ports n) with
      | true =>
          have hen : (x.state (n + 1)).awEn = false := S00Axi.step_awEn_of_takesUp hn htakes
          have hidle : (x.state n).axiBvalid = false := by
            have henabled := ih.enabled
            rw [(Bool.and_eq_true_iff.mp htakes).2, hready] at henabled
            simpa using henabled.symm
          rw [hidle] at hbvalid
          refine ⟨hregs', hcount, ?_, fun _ => hbvalid⟩
          rw [hen, haw, htakes]
          rfl
      | false =>
          have hen := hen htakes
          refine ⟨hregs', hcount, ?_, fun hready' => ?_⟩
          · rw [hen, haw, htakes, hbvalid, ih.enabled, hready]
            cases (x.state n).axiBvalid <;> cases (x.ports n).bready <;> rfl
          · rw [haw, htakes] at hready'
            cases hready'

theorem registerFile (hmaster : x.MasterHolds) : ∀ n, x.RegisterFile (n + 1) := by
  apply Clocked.since_reset_with (r := x.rst) (P := x.RegisterFile)
    (Q := fun n => x.Handshake n ∧ x.Applied n) x.rst_zero
    (fun n => ⟨handshake hmaster n, applied hmaster n⟩)
  · exact fun n h => registerFile_reset h
  · exact fun n h hQ ih => registerFile_step h hQ.1 hQ.2 ih

section accepts
variable (hmaster : x.MasterHolds) (hrst : ∀ k, n < k → x.rst k = false) {k : ℕ} (hk : n < k)
include hmaster hrst hk

theorem awvalid_holds (hvalid : (x.ports k).awvalid = true) {j : ℕ} (hj : k ≤ j)
    (hwait : ∀ m, k ≤ m → m < j → x.awHandshake m = false) : (x.ports j).awvalid = true := by
  induction j, hj using Nat.le_induction with
  | base => exact hvalid
  | succ j hj ih =>
      have hbefore := ih fun m hm hlt => hwait m hm (hlt.trans (Nat.lt_succ_self j))
      exact (hmaster.address j (hrst j (by omega)) hbefore (hwait j hj (Nat.lt_succ_self j))).1
        (hrst _ (by omega))

theorem wvalid_holds (hvalid : (x.ports k).wvalid = true) {j : ℕ} (hj : k ≤ j)
    (hwait : ∀ m, k ≤ m → m < j → x.wHandshake m = false) : (x.ports j).wvalid = true := by
  induction j, hj using Nat.le_induction with
  | base => exact hvalid
  | succ j hj ih =>
      have hbefore := ih fun m hm hlt => hwait m hm (hlt.trans (Nat.lt_succ_self j))
      exact (hmaster.data j (hrst j (by omega)) hbefore (hwait j hj (Nat.lt_succ_self j))).1
        (hrst _ (by omega))

/-- An address and data that are offered in the same cycle are taken in the end. -/
theorem exists_awHandshake (hbready : ∀ k, ∃ m, k ≤ m ∧ (x.ports m).bready = true)
    (hawvalid : (x.ports k).awvalid = true) (hwvalid : (x.ports k).wvalid = true) :
    ∃ m, k ≤ m ∧ x.awHandshake m = true := by
  by_contra hnone
  have hnever : ∀ m, k ≤ m → x.awHandshake m = false := fun m hm => by
    by_contra hhand
    exact hnone ⟨m, hm, (Bool.not_eq_false _).mp hhand⟩
  have hI : ∀ m, k ≤ m → x.Handshake m ∧ x.RegisterFile m := by
    intro m hm
    obtain ⟨i, rfl⟩ := Nat.exists_eq_succ_of_ne_zero (show m ≠ 0 by omega)
    exact ⟨handshake hmaster i, registerFile hmaster i⟩
  -- with both offered and nothing taken, an answer is waiting for ever
  have hwaits : ∀ m, k ≤ m → (x.state m).axiBvalid = true := by
    intro m hm
    obtain ⟨hI', hR⟩ := hI m hm
    have hidle : (x.state m).axiAwready = false :=
      (hI'.awHandshake_eq (hrst m (by omega))).symm.trans (hnever m hm)
    have haw := awvalid_holds hmaster hrst hk hawvalid hm fun m' hm' _ => hnever m' hm'
    have hw := wvalid_holds hmaster hrst hk hwvalid hm fun m' hm' _ =>
      ((hI m' hm').1.together (hrst m' (by omega))).trans (hnever m' hm')
    by_contra hbvalid
    have htakes : (x.state m).takesUp (x.ports m) = true := by
      rw [S00Axi.takesUp, hR.enabled, hidle, haw, hw, (Bool.not_eq_true _).mp hbvalid]
      rfl
    have hready : (x.state (m + 1)).axiAwready = true :=
      (S00Axi.step_axiAwready (by simpa [rst] using hrst m (by omega))).trans htakes
    have hhand := (hI (m + 1) (by omega)).1.awHandshake_eq (hrst _ (by omega))
    rw [hnever _ (by omega), hready] at hhand
    cases hhand
  obtain ⟨m, hm, hready⟩ := hbready k
  have hbvalid : (x.state (m + 1)).axiBvalid = _ :=
    S00Axi.step_axiBvalid (s := x.state m) (by simpa [rst] using hrst m (by omega))
  rw [hwaits m hm, hwaits (m + 1) (by omega), hready] at hbvalid
  simp at hbvalid

end accepts

end writes

/-! ### Reads -/

section reads
variable {x : S00AxiRun} {n : ℕ}

/-- The answers to reads. -/
structure ReadChannel (x : S00AxiRun) (n : ℕ) : Prop where
  latched : (x.state n).axiArready = true → (x.ports n).arvalid = true →
    (x.state n).axiAraddr = (x.ports n).araddr
  answered : x.answers n ++ (if (x.state n).axiRvalid then [(x.state n).axiRdata] else []) =
    x.readData n
  taken : (x.readAddresses n).length = (x.readData n).length + x.lostReads n

theorem readChannel_reset (h : x.rst n = true) : x.ReadChannel (n + 1) := by
  have ha : x.readAddresses (n + 1) = [] := if_pos h
  have hd : x.readData (n + 1) = [] := if_pos h
  have hr : x.answers (n + 1) = [] := if_pos h
  have hl : x.lostReads (n + 1) = 0 := if_pos h
  constructor
  · rw [state_reset h]
    intro hready
    cases hready
  · rw [state_reset h, hr, hd]
    rfl
  · rw [ha, hd, hl]
    rfl

theorem slvRegRden_eq : (x.state n).slvRegRden (x.ports n) =
    (x.arHandshake n && !(x.state n).axiRvalid) := by
  rw [S00Axi.slvRegRden, arHandshake, Bool.and_comm (x.ports n).arvalid]

theorem readChannel_step (hreader : x.ReaderHolds) (h : x.rst n = false)
    (hR : x.RegisterFile n) (ih : x.ReadChannel n) : x.ReadChannel (n + 1) := by
  have hn : (x.ports n).aresetn = true := by simpa [rst] using h
  have harready : (x.state (n + 1)).axiArready =
      (!(x.state n).axiArready && (x.ports n).arvalid) := S00Axi.step_axiArready hn
  have hrvalid : (x.state (n + 1)).axiRvalid = ((x.arHandshake n && !(x.state n).axiRvalid) ||
      ((x.state n).axiRvalid && !(x.ports n).rready)) := by
    rw [← slvRegRden_eq]
    exact S00Axi.step_axiRvalid hn
  have hrdata : (x.state (n + 1)).axiRdata =
      if x.arHandshake n && !(x.state n).axiRvalid then (x.state n).regDataOut
      else (x.state n).axiRdata := by
    rw [← slvRegRden_eq]
    exact S00Axi.step_axiRdata hn
  have hnot : ¬x.rst n = true := by simp [h]
  have hanswers : x.answers (n + 1) = _ := if_neg hnot
  have hdata : x.readData (n + 1) = _ := if_neg hnot
  have haddresses : x.readAddresses (n + 1) = _ := if_neg hnot
  have hlost : x.lostReads (n + 1) = _ := if_neg hnot
  constructor
  · intro hready hvalid
    rw [harready, Bool.and_eq_true, Bool.not_eq_true'] at hready
    have hwait : x.arHandshake n = false := by rw [arHandshake, hready.1, Bool.and_false]
    have haddr : (x.state (n + 1)).axiAraddr = (x.ports n).araddr :=
      S00Axi.step_axiAraddr hn hready.1 hready.2
    rw [haddr, (hreader n h hready.2 hwait).2 hvalid]
  · rw [hrvalid, hrdata, hanswers, hdata, ← ih.answered, rHandshake]
    cases hhand : x.arHandshake n with
    | true =>
        obtain ⟨hvalid, hready⟩ := Bool.and_eq_true_iff.mp hhand
        have hout : (x.state n).regDataOut = (x.writes n).foldl writeReg (fun _ => 0)
            (S00Axi.regIndex (x.ports n).araddr) := by
          rw [S00Axi.regDataOut, ih.latched hready hvalid, hR.registers]
        rw [hout]
        cases (x.state n).axiRvalid <;> cases (x.ports n).rready <;> simp
    | false => cases (x.state n).axiRvalid <;> cases (x.ports n).rready <;> simp
  · rw [haddresses, hdata, hlost]
    have htaken := ih.taken
    cases x.arHandshake n <;> cases (x.state n).axiRvalid <;> simp <;> omega

theorem readChannel (hmaster : x.MasterHolds) (hreader : x.ReaderHolds) :
    ∀ n, x.ReadChannel (n + 1) := by
  apply Clocked.since_reset_with (r := x.rst) (P := x.ReadChannel) x.rst_zero
    (registerFile hmaster)
  · exact fun n h => readChannel_reset h
  · exact fun n h hR ih => readChannel_step hreader h hR ih

/-- Every answer is taken in its first cycle. -/
def TakesAtOnce (x : S00AxiRun) : Prop :=
  ∀ n, (x.state n).axiRvalid = true → (x.ports n).rready = true

theorem lostReads_eq_zero (hprompt : x.TakesAtOnce) (n : ℕ) : x.lostReads (n + 1) = 0 := by
  have hboth : ∀ n, ((x.state (n + 1)).axiArready && (x.state (n + 1)).axiRvalid) = false ∧
      x.lostReads (n + 1) = 0 := by
    refine Clocked.since_reset (r := x.rst) (P := fun n => ((x.state n).axiArready &&
      (x.state n).axiRvalid) = false ∧ x.lostReads n = 0) x.rst_zero ?_ ?_
    · intro n h
      rw [state_reset h]
      exact ⟨rfl, if_pos h⟩
    · rintro n h ⟨hapart, hzero⟩
      have hn : (x.ports n).aresetn = true := by simpa [rst] using h
      have harready : (x.state (n + 1)).axiArready =
          (!(x.state n).axiArready && (x.ports n).arvalid) := S00Axi.step_axiArready hn
      have hrvalid : (x.state (n + 1)).axiRvalid = ((x.state n).slvRegRden (x.ports n) ||
          ((x.state n).axiRvalid && !(x.ports n).rready)) := S00Axi.step_axiRvalid hn
      constructor
      · rw [harready, hrvalid, S00Axi.slvRegRden]
        cases hv : (x.state n).axiRvalid with
        | true =>
            rw [hprompt n hv]
            simp
        | false => cases (x.state n).axiArready <;> simp
      · rw [lostReads, if_neg (by simp [h]), hzero, arHandshake, Bool.and_assoc, hapart,
          Bool.and_false]
        rfl
  exact (hboth n).2

/-- **The registers are a memory**: they are what the completed writes, in order, have made of zeros;
every completed write is answered once, no other is taken before, and an answer waits until it is
taken. -/
theorem writes_answered (x : S00AxiRun) (hmaster : x.MasterHolds) (n : ℕ) :
    (x.state (n + 1)).slvReg = (x.writes (n + 1)).foldl writeReg (fun _ => 0) ∧
    (x.writes (n + 1)).length = x.responses (n + 1) + (x.state (n + 1)).axiBvalid.toNat ∧
    ((x.state (n + 1)).axiBvalid = true → x.awHandshake (n + 1) = false ∧
      (x.rst (n + 1) = false → (x.ports (n + 1)).bready = false →
        (x.state (n + 1 + 1)).axiBvalid = true)) := by
  have hR := registerFile hmaster n
  refine ⟨hR.registers, hR.answered, fun hbvalid => ⟨?_, fun h hbready => ?_⟩⟩
  · rw [awHandshake]
    cases hready : (x.state (n + 1)).axiAwready with
    | false => rw [Bool.and_false]
    | true =>
        rw [hR.apart hready] at hbvalid
        cases hbvalid
  · have hnext : (x.state (n + 1 + 1)).axiBvalid = _ :=
      S00Axi.step_axiBvalid (s := x.state (n + 1)) (by simpa [rst] using h)
    rw [hnext, hbvalid, hbready]
    exact Bool.or_true _

/-- **Offered writes and reads are taken**: with no reset any more, and a master that holds what it
offers and takes the answers to writes, an address and data that are offered, in either order, are
taken in the end, and a read address at the latest in the next cycle. -/
theorem bus_accepts (x : S00AxiRun) (hmaster : x.MasterHolds) (hreader : x.ReaderHolds) (n : ℕ)
    (hrst : ∀ k, n < k → x.rst k = false)
    (hbready : ∀ k, ∃ m, k ≤ m ∧ (x.ports m).bready = true) (k : ℕ) (hk : n < k) :
    ((x.ports k).awvalid = true → (∃ j, k ≤ j ∧ (x.ports j).wvalid = true) →
      ∃ m, k ≤ m ∧ x.awHandshake m = true) ∧
    ((x.ports k).wvalid = true → (∃ j, k ≤ j ∧ (x.ports j).awvalid = true) →
      ∃ m, k ≤ m ∧ x.wHandshake m = true) ∧
    ((x.ports k).arvalid = true → x.arHandshake k = true ∨ x.arHandshake (k + 1) = true) := by
  have htogether : ∀ m, k ≤ m → x.wHandshake m = x.awHandshake m := by
    intro m hm
    obtain ⟨i, rfl⟩ := Nat.exists_eq_succ_of_ne_zero (show m ≠ 0 by omega)
    exact (handshake hmaster i).together (hrst _ (by omega))
  refine ⟨fun haw ⟨j, hj, hw⟩ => ?_, fun hw ⟨j, hj, haw⟩ => ?_, fun har => ?_⟩
  · by_contra hnone
    have hwait : ∀ m, k ≤ m → m < j → x.awHandshake m = false := fun m hm _ => by
      by_contra hhand
      exact hnone ⟨m, hm, (Bool.not_eq_false _).mp hhand⟩
    obtain ⟨m, hm, hhand⟩ := exists_awHandshake hmaster hrst (hk.trans_le hj) hbready
      (awvalid_holds hmaster hrst hk haw hj hwait) hw
    exact hnone ⟨m, hj.trans hm, hhand⟩
  · by_contra hnone
    have hwait : ∀ m, k ≤ m → m < j → x.wHandshake m = false := fun m hm _ => by
      by_contra hhand
      exact hnone ⟨m, hm, (Bool.not_eq_false _).mp hhand⟩
    obtain ⟨m, hm, hhand⟩ := exists_awHandshake hmaster hrst (hk.trans_le hj) hbready haw
      (wvalid_holds hmaster hrst hk hw hj hwait)
    exact hnone ⟨m, hj.trans hm, (htogether m (hj.trans hm)).trans hhand⟩
  · cases hready : (x.state k).axiArready with
    | true => exact Or.inl (by rw [arHandshake, har, hready]; rfl)
    | false =>
        have hwait : x.arHandshake k = false := by rw [arHandshake, hready, Bool.and_false]
        have hnext : (x.state (k + 1)).axiArready = _ :=
          S00Axi.step_axiArready (s := x.state k) (by simpa [rst] using hrst k hk)
        rw [hready, har] at hnext
        right
        rw [arHandshake, hnext, (hreader k (hrst k hk) har hwait).1 (hrst _ (by omega))]
        rfl

/-- **Reads are answered or lost**: what a master that holds what it offers has been given, and what
is waiting for it, are in order the contents of the addressed registers when the addresses were
taken, except for the addresses taken while an answer was waiting, which are never answered.  There
are none of these when the master takes every answer at once. -/
theorem reads_answered (x : S00AxiRun) (hmaster : x.MasterHolds) (hreader : x.ReaderHolds) (n : ℕ) :
    x.answers (n + 1) ++
        (if (x.state (n + 1)).axiRvalid then [(x.state (n + 1)).axiRdata] else []) =
      x.readData (n + 1) ∧
    (x.readAddresses (n + 1)).length = (x.readData (n + 1)).length + x.lostReads (n + 1) ∧
    (x.TakesAtOnce → x.lostReads (n + 1) = 0) := by
  have hC := readChannel hmaster hreader n
  exact ⟨hC.answered, hC.taken, fun hprompt => lostReads_eq_zero hprompt n⟩

end reads

/-! ### A write and two reads -/

/-- Word `13` is written and read twice, but the master takes no answer before cycle `10`. -/
def readBack : S00AxiRun where
  powerUp := ⟨0x3f, true, true, 0, true, 0, true, 0, 0, true, fun _ => 0xffffffff, false⟩
  ports n :=
    { aresetn := n != 0, awaddr := 0x34, awvalid := 1 ≤ n && n ≤ 2, wdata := 0xdeadbeef,
      wstrb := 0b1111, wvalid := 1 ≤ n && n ≤ 2, bready := true, araddr := 0x34,
      arvalid := 4 ≤ n && n ≤ 7, rready := 10 ≤ n }
  reset_first := rfl

theorem readBack_masterHolds : readBack.MasterHolds := by
  have taken : readBack.awHandshake 2 = true ∧ readBack.wHandshake 2 = true := by decide
  constructor
  · intro n _ hvalid hwait
    have hn : 1 ≤ n ∧ n ≤ 2 := by simpa [readBack] using hvalid
    have hne : n ≠ 2 := by
      rintro rfl
      rw [taken.1] at hwait
      cases hwait
    refine ⟨fun _ => ?_, fun _ => rfl⟩
    simp [readBack]
    omega
  · intro n _ hvalid hwait
    have hn : 1 ≤ n ∧ n ≤ 2 := by simpa [readBack] using hvalid
    have hne : n ≠ 2 := by
      rintro rfl
      rw [taken.2] at hwait
      cases hwait
    refine ⟨fun _ => ?_, fun _ => ⟨rfl, rfl⟩⟩
    simp [readBack]
    omega

theorem readBack_readerHolds : readBack.ReaderHolds := by
  have taken : readBack.arHandshake 7 = true := by decide
  intro n _ hvalid hwait
  have hn : 4 ≤ n ∧ n ≤ 7 := by simpa [readBack] using hvalid
  have hne : n ≠ 7 := by
    rintro rfl
    rw [taken] at hwait
    cases hwait
  refine ⟨fun _ => ?_, fun _ => rfl⟩
  simp [readBack]
  omega

theorem writes_answered_readBack :
    (readBack.state 4).slvReg 13 = 0xdeadbeef ∧ readBack.responses 4 = 1 := by
  obtain ⟨hregs, hcount, -⟩ := writes_answered readBack readBack_masterHolds 3
  constructor
  · rw [hregs]
    decide
  · have hlength : (readBack.writes 4).length = 1 := by decide
    have hidle : (readBack.state 4).axiBvalid = false := by decide
    rw [hlength, hidle] at hcount
    exact hcount.symm

theorem bus_accepts_readBack :
    ((∃ m, 1 ≤ m ∧ readBack.awHandshake m = true) ∧ ∃ m, 1 ≤ m ∧ readBack.wHandshake m = true) ∧
      readBack.arHandshake 4 = false ∧ readBack.arHandshake 5 = true := by
  have haccepts := bus_accepts readBack readBack_masterHolds readBack_readerHolds 0
    (fun k hk => by simpa [rst, readBack] using Nat.pos_iff_ne_zero.mp hk)
    (fun k => ⟨k, le_rfl, rfl⟩)
  obtain ⟨haddress, hdata, -⟩ := haccepts 1 (by decide)
  have hwait : readBack.arHandshake 4 = false := by decide
  refine ⟨⟨haddress rfl ⟨1, le_rfl, rfl⟩, hdata rfl ⟨1, le_rfl, rfl⟩⟩, hwait, ?_⟩
  refine ((haccepts 4 (by decide)).2.2 (by decide)).resolve_left ?_
  rw [hwait]
  exact Bool.false_ne_true

/-- The second read is lost. -/
theorem reads_answered_readBack : (readBack.readAddresses 12).length = 2 ∧
    readBack.answers 12 = [0xdeadbeef] := by
  obtain ⟨hanswers, htaken, -⟩ :=
    reads_answered readBack readBack_masterHolds readBack_readerHolds 11
  have hidle : (readBack.state 12).axiRvalid = false := by decide
  have hdata : readBack.readData 12 = [0xdeadbeef] := by decide
  have hlost : readBack.lostReads 12 = 1 := by decide
  rw [hidle, hdata, if_neg Bool.false_ne_true, List.append_nil] at hanswers
  rw [hdata, hlost] at htaken
  exact ⟨htaken, hanswers⟩

end S00AxiRun

end AesAccelerator
