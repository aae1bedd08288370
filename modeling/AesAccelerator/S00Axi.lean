import AesAccelerator.Lib.Packed

/-! # The key registers

`ip_repo/aes_1.0/hdl/aes_v1_0_S00_AXI.v`: an AXI-Lite slave with sixteen registers of 32 bits.
The last four are the key (`aesKey`), and `aesKeyWrite` is raised in the cycle in which a write to
one of them takes effect.

Each `always` block of the source is one function here.  Every register has a reset value, so a
reset leaves nothing of the state before it (`step_reset`). -/

namespace AesAccelerator

/-- The registers of `aes_v1_0_S00_AXI`. -/
structure S00Axi where
  axiAwaddr : BitVec 6
  axiAwready : Bool
  axiWready : Bool
  axiBresp : BitVec 2
  axiBvalid : Bool
  axiAraddr : BitVec 6
  axiArready : Bool
  axiRdata : BitVec 32
  axiRresp : BitVec 2
  axiRvalid : Bool
  slvReg : Fin 16 → BitVec 32
  awEn : Bool

/-- The inputs of `aes_v1_0_S00_AXI` in one cycle that it reads. -/
structure S00AxiPorts where
  aresetn : Bool
  awaddr : BitVec 6
  awvalid : Bool
  wdata : BitVec 32
  wstrb : BitVec 4
  wvalid : Bool
  bready : Bool
  araddr : BitVec 6
  arvalid : Bool
  rready : Bool

namespace S00Axi

/-! ### Wires -/

section wires
variable (s : S00Axi) (p : S00AxiPorts)

def slvRegWren : Bool := s.axiWready && p.wvalid && s.axiAwready && p.awvalid

def slvRegRden : Bool := s.axiArready && p.arvalid && !s.axiRvalid

/-- `axi_awaddr[5:2]` or `axi_araddr[5:2]`: the number of the addressed register. -/
def regIndex (addr : BitVec 6) : Fin 16 := (addr.extractLsb' 2 4).toFin

def regDataOut : BitVec 32 := s.slvReg (regIndex s.axiAraddr)

def aesKey : BitVec 128 := s.slvReg 15 ++ s.slvReg 14 ++ s.slvReg 13 ++ s.slvReg 12

def aesKeyWrite : Bool := s.slvRegWren p && s.axiAwaddr.extractLsb' 4 2 == 0b11#2

end wires

/-- The bytes of `old` that `strb` selects are replaced by those of `data`. -/
def writeStrobed (old data : BitVec 32) (strb : BitVec 4) : BitVec 32 :=
  Packed.ofBits 32 fun i => if strb.getLsbD (i / 8) then data.getLsbD i else old.getLsbD i

/-! ### The `always` blocks -/

section blocks
variable (s : S00Axi) (p : S00AxiPorts)

/-- `axi_awready` and `aw_en`. -/
def awreadyNext : Bool × Bool :=
  if !p.aresetn then (false, true)
  else if !s.axiAwready && p.awvalid && p.wvalid && s.awEn then (true, false)
  else if p.bready && s.axiBvalid then (false, true)
  else (false, s.awEn)

def awaddrNext : BitVec 6 :=
  if !p.aresetn then 0
  else if !s.axiAwready && p.awvalid && p.wvalid && s.awEn then p.awaddr
  else s.axiAwaddr

def wreadyNext : Bool :=
  if !p.aresetn then false
  else !s.axiWready && p.wvalid && p.awvalid && s.awEn

def slvRegNext : Fin 16 → BitVec 32 :=
  if !p.aresetn then fun _ => 0
  else if s.slvRegWren p then
    let i := regIndex s.axiAwaddr
    fun j => if j = i then writeStrobed (s.slvReg i) p.wdata p.wstrb else s.slvReg j
  else s.slvReg

/-- `axi_bvalid` and `axi_bresp`. -/
def bvalidNext : Bool × BitVec 2 :=
  if !p.aresetn then (false, 0)
  else if s.axiAwready && p.awvalid && !s.axiBvalid && s.axiWready && p.wvalid then (true, 0)
  else if p.bready && s.axiBvalid then (false, s.axiBresp)
  else (s.axiBvalid, s.axiBresp)

/-- `axi_arready` and `axi_araddr`. -/
def arreadyNext : Bool × BitVec 6 :=
  if !p.aresetn then (false, 0)
  else if !s.axiArready && p.arvalid then (true, p.araddr)
  else (false, s.axiAraddr)

/-- `axi_rvalid` and `axi_rresp`. -/
def rvalidNext : Bool × BitVec 2 :=
  if !p.aresetn then (false, 0)
  else if s.axiArready && p.arvalid && !s.axiRvalid then (true, 0)
  else if s.axiRvalid && p.rready then (false, s.axiRresp)
  else (s.axiRvalid, s.axiRresp)

def rdataNext : BitVec 32 :=
  if !p.aresetn then 0 else if s.slvRegRden p then s.regDataOut else s.axiRdata

/-- One clock edge. -/
def step : S00Axi where
  axiAwaddr := s.awaddrNext p
  axiAwready := (s.awreadyNext p).1
  axiWready := s.wreadyNext p
  axiBresp := (s.bvalidNext p).2
  axiBvalid := (s.bvalidNext p).1
  axiAraddr := (s.arreadyNext p).2
  axiArready := (s.arreadyNext p).1
  axiRdata := s.rdataNext p
  axiRresp := (s.rvalidNext p).2
  axiRvalid := (s.rvalidNext p).1
  slvReg := s.slvRegNext p
  awEn := (s.awreadyNext p).2

end blocks

/-- The registers after a reset. -/
def cleared : S00Axi where
  axiAwaddr := 0
  axiAwready := false
  axiWready := false
  axiBresp := 0
  axiBvalid := false
  axiAraddr := 0
  axiArready := false
  axiRdata := 0
  axiRresp := 0
  axiRvalid := false
  slvReg := fun _ => 0
  awEn := true

/-- A reset leaves nothing of the state before it. -/
theorem step_reset {s : S00Axi} {p : S00AxiPorts} (h : p.aresetn = false) :
    s.step p = cleared := by
  simp [step, awreadyNext, awaddrNext, wreadyNext, slvRegNext, bvalidNext, arreadyNext,
    rvalidNext, rdataNext, cleared, h]

end S00Axi

end AesAccelerator
