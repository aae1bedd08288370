import AesAccelerator.KeyPort
import AesAccelerator.BackToBack

/-! # The IP

`ip_repo/aes_1.0/hdl/aes_v1_0.v`: the key registers and the core on one clock and one reset, which
is active low outside and active high in the core.

The key registers keep the rule the core asks of its key port (`coreRun_keyDiscipline`), so the
round keys of a settled core are those of the key that was written over the bus
(`roundKeys_of_writes`). -/

namespace AesAccelerator

/-- The registers of `aes_v1_0`. -/
structure Ip where
  axi : S00Axi
  aesUnit : Core

/-- The inputs of `aes_v1_0` in one cycle. -/
structure IpPorts where
  s00Axi : S00AxiPorts
  readTdata : AesMatrix
  readTvalid : Bool
  readTlast : Bool
  writeTready : Bool

/-- What reads past the end of the two arrays of the core yield in one cycle. -/
structure Undefined where
  constant : BitVec 8
  key : AesMatrix

namespace Ip

/-- The wires between the key registers and the core. -/
def corePorts (axi : S00Axi) (p : IpPorts) (u : Undefined) : CorePorts where
  rst := !p.s00Axi.aresetn
  aesKey := axi.aesKey
  aesKeyWrite := axi.aesKeyWrite p.s00Axi
  readTdata := p.readTdata
  readTvalid := p.readTvalid
  readTlast := p.readTlast
  writeTready := p.writeTready
  undefConstant := u.constant
  undefKey := u.key

variable [Rom256x1]

/-- One clock edge. -/
def step (s : Ip) (i : IpPorts × Undefined) : Ip where
  axi := s.axi.step i.1.s00Axi
  aesUnit := s.aesUnit.step (corePorts s.axi i.1 i.2)

/-- The registers at the start of cycle `n` of a run from `s`. -/
def state (s : Ip) (ins : ℕ → IpPorts) (undef : ℕ → Undefined) : ℕ → Ip :=
  Clocked.trace step s fun n => (ins n, undef n)

theorem state_succ_axi (s : Ip) (ins : ℕ → IpPorts) (undef : ℕ → Undefined) (n : ℕ) :
    (s.state ins undef (n + 1)).axi = (s.state ins undef n).axi.step (ins n).s00Axi := rfl

/-- The run of the core inside the IP. -/
def coreRun (s : Ip) (ins : ℕ → IpPorts) (undef : ℕ → Undefined)
    (hreset : (ins 0).s00Axi.aresetn = false) : Run where
  powerUp := s.aesUnit
  ports n := corePorts (s.state ins undef n).axi (ins n) (undef n)
  reset_first := by simp [corePorts, hreset]

theorem coreRun_state (s : Ip) (ins : ℕ → IpPorts) (undef : ℕ → Undefined)
    (hreset : (ins 0).s00Axi.aresetn = false) (n : ℕ) :
    (s.coreRun ins undef hreset).state n = (s.state ins undef n).aesUnit := by
  induction n with
  | zero => rfl
  | succ n ih => rw [Run.state_succ, ih]; rfl

/-- What the core asks of its key port, the key registers give it, whatever the bus does. -/
theorem coreRun_keyDiscipline (s : Ip) (ins : ℕ → IpPorts) (undef : ℕ → Undefined)
    (hreset : (ins 0).s00Axi.aresetn = false) : (s.coreRun ins undef hreset).KeyDiscipline := by
  intro n h hw
  have hn : (ins n).s00Axi.aresetn = true := by simpa [Run.rst, coreRun, corePorts] using h
  exact S00Axi.step_aesKey_of_not_write hn hw

/-- So inside the IP no key update is lost. -/
theorem coreRun_followsKey (s : Ip) (ins : ℕ → IpPorts) (undef : ℕ → Undefined)
    (hreset : (ins 0).s00Axi.aresetn = false) (n : ℕ) :
    (s.coreRun ins undef hreset).FollowsKey (n + 1) :=
  Run.followsKey (s.coreRun_keyDiscipline ins undef hreset) n

/-- The key registers do not depend on the core. -/
theorem state_axi_eq (s : Ip) (ins : ℕ → IpPorts) (undef : ℕ → Undefined) (n : ℕ) :
    (s.state ins undef n).axi = Clocked.trace S00Axi.step s.axi (fun n => (ins n).s00Axi) n :=
  Clocked.trace_map (f := Ip.axi) (g := fun i : IpPorts × Undefined => i.1.s00Axi)
    (fun _ _ => rfl) s (fun n => (ins n, undef n)) n

/-- From the first reset on, the key registers depend on the inputs only. -/
theorem state_axi (s s' : Ip) (ins : ℕ → IpPorts) (undef undef' : ℕ → Undefined)
    (hreset : (ins 0).s00Axi.aresetn = false) (n : ℕ) :
    (s.state ins undef (n + 1)).axi = (s'.state ins undef' (n + 1)).axi := by
  induction n with
  | zero =>
      rw [state_succ_axi, state_succ_axi, S00Axi.step_reset hreset, S00Axi.step_reset hreset]
  | succ n ih => rw [state_succ_axi, ih, ← state_succ_axi]

/-! ### From the bus to the round keys -/

/-- The run of the key registers inside the IP. -/
def axiRun (s : Ip) (ins : ℕ → IpPorts) (hreset : (ins 0).s00Axi.aresetn = false) :
    S00AxiRun where
  powerUp := s.axi
  ports n := (ins n).s00Axi
  reset_first := hreset

section bus
variable (s : Ip) (ins : ℕ → IpPorts) (undef : ℕ → Undefined)
  (hreset : (ins 0).s00Axi.aresetn = false)

theorem axiRun_state (n : ℕ) : (s.axiRun ins hreset).state n = (s.state ins undef n).axi :=
  (s.state_axi_eq ins undef n).symm

/-- A key was written when the bus has completed a write to it. -/
theorem coreRun_keyWritten (n : ℕ) : (s.coreRun ins undef hreset).keyWritten n =
    decide (0 < (s.axiRun ins hreset).pulses n) := by
  induction n with
  | zero => rfl
  | succ n ih =>
      have hrst : (s.coreRun ins undef hreset).rst n = (s.axiRun ins hreset).rst n := rfl
      have hwrite : ((s.coreRun ins undef hreset).ports n).aesKeyWrite =
          (s.axiRun ins hreset).aesKeyWrite n := by
        rw [S00AxiRun.aesKeyWrite, s.axiRun_state ins undef hreset]
        rfl
      rw [Run.keyWritten_succ, ih, hrst, hwrite, S00AxiRun.pulses]
      cases (s.axiRun ins hreset).rst n <;> cases (s.axiRun ins hreset).aesKeyWrite n <;> simp

/-- With nothing pending, the local round keys are the schedule of what the writes since the
reset have made of the key. -/
theorem roundKeys_of_writes (hmaster : (s.axiRun ins hreset).MasterHolds) (n : ℕ)
    (hwritten : (s.axiRun ins hreset).keyWrites (n + 1) ≠ [])
    (hpending : (s.state ins undef (n + 1)).aesUnit.keyChangePendingRounder = false)
    (hidle : (s.state ins undef (n + 1)).aesUnit.rounder1.refreshState = .idle) (j : Fin 11) :
    (s.state ins undef (n + 1)).aesUnit.rounder1.roundKeys j =
      Fips197.roundKey (((s.axiRun ins hreset).keyWrites (n + 1)).foldl mergeWrite 0) j := by
  have happlied := S00AxiRun.applied hmaster n
  have hkey : ((s.coreRun ins undef hreset).ports (n + 1)).aesKey =
      ((s.axiRun ins hreset).keyWrites (n + 1)).foldl mergeWrite 0 := by
    rw [← happlied.key, S00AxiRun.aesKey, s.axiRun_state ins undef hreset]
    rfl
  have hkw : (s.coreRun ins undef hreset).keyWritten (n + 1) = true := by
    rw [coreRun_keyWritten, happlied.pulses, decide_eq_true_eq]
    exact List.length_pos_iff.mpr hwritten
  rw [← coreRun_state s ins undef hreset] at hpending hidle ⊢
  rw [← hkey, ← schedule_eq_roundKey _ _ (by omega)]
  exact (s.coreRun_followsKey ins undef hreset n).rounder hkw hpending hidle j

end bus

end Ip

end AesAccelerator
