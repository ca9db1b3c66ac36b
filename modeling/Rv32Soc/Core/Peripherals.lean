import Rv32Soc.Core.Traps

/-!
# The core with its peripherals

`uart_mmio.v`, `intc.v`, `clint_timer.v` and `axi_lite_bridge.v`, and `cpu.v` with all of
them around the pipeline. The first two answer a request on the next cycle; the bridge
makes an AXI4-Lite transaction of it, and answers when that is over.

What is still outside is an input: the caches, the lines of the UART, and what the
accelerator drives on its AXI4-Lite port and on its interrupt lines.
-/

namespace Rv32Soc

/-- What the core drives on the bus to the peripherals: `d_we`, `d_addr` and `d_wdata`. -/
structure MmioReq where
  we : Bool
  addr : Word
  wdata : Word
  deriving DecidableEq

/-! ## The UART -/

/-- The registers of `uart_mmio`. -/
structure UartMmio where
  txStart : Bool
  txData : Byte
  dReady : Bool
  dRdata : Word
  rxHolding : Byte
  rxHasData : Bool
  txReadyPrev : Bool
  txIrq : Bool

namespace UartMmio

variable (s : UartMmio) (r : MmioReq)

/-- A request that is for the UART. -/
def selects (dReq : Bool) (r : MmioReq) : Bool := dReq && r.addr.extractLsb' 12 20 == 0x40001#20

/-- What a read returns. -/
def readData (txReady : Bool) : Word :=
  match (r.addr.extractLsb' 0 12).toNat with
  | 0x004 => 0#31 ++ BitVec.ofBool txReady
  | 0x008 => 0#24 ++ s.rxHolding
  | 0x00C => 0#31 ++ BitVec.ofBool s.rxHasData
  | _ => 0

/-- What is returned with the acknowledgement. -/
def response (txReady : Bool) : Word := if r.we then 0 else s.readData r txReady

/-- The registers after an edge. A byte that comes in on the cycle of a read of `RX_DATA` is not
    lost. -/
def next (dReq txReady rxValid : Bool) (rxByte : Byte) : UartMmio where
  txStart := selects dReq r && r.we && r.addr.extractLsb' 0 12 == 0#12
  txData := if selects dReq r && r.we && r.addr.extractLsb' 0 12 == 0#12 then r.wdata.extractLsb' 0 8
    else s.txData
  dReady := selects dReq r
  dRdata := if selects dReq r then s.response r txReady else 0
  rxHolding := if rxValid then rxByte else s.rxHolding
  rxHasData :=
    if rxValid then true
    else if selects dReq r && !r.we && r.addr.extractLsb' 0 12 == 0x008#12 then false
    else s.rxHasData
  txReadyPrev := txReady
  txIrq := txReady && !s.txReadyPrev

end UartMmio

/-! ## The interrupt controller -/

/-- The registers of `intc`. -/
structure Intc where
  enable : BitVec 8
  pending : BitVec 8
  irqInPrev : BitVec 8
  dReady : Bool
  dRdata : Word

namespace Intc

variable (s : Intc) (r : MmioReq)

def irqOut : Bool := s.pending &&& s.enable != 0

/-- A request that is for the interrupt controller. -/
def selects (dReq : Bool) (r : MmioReq) : Bool := dReq && r.addr.extractLsb' 12 20 == 0x00004#20

/-- What is returned with the acknowledgement. -/
def response : Word :=
  if r.we then 0
  else
    match (r.addr.extractLsb' 0 12).toNat with
    | 0x000 => s.enable.setWidth 32
    | 0x004 => s.pending.setWidth 32
    | _ => 0

/-- The registers after an edge. An edge of a line that comes with a write to `PENDING` is cleared
    with it if its bit is written. -/
def next (dReq : Bool) (irqIn : BitVec 8) : Intc where
  enable :=
    if selects dReq r && r.we && r.addr.extractLsb' 0 12 == 0#12 then r.wdata.extractLsb' 0 8
      else s.enable
  pending :=
    let latched := s.pending ||| (irqIn &&& ~~~s.irqInPrev)
    if selects dReq r && r.we && r.addr.extractLsb' 0 12 == 0x004#12 then latched &&&
        ~~~(r.wdata.extractLsb' 0 8)
    else latched
  irqInPrev := irqIn
  dReady := selects dReq r
  dRdata := if selects dReq r then s.response r else 0

end Intc

/-! ## The timer -/

/-- The registers of `clint_timer`. -/
structure ClintTimer where
  mtime : BitVec 64
  mtimecmp : BitVec 64

namespace ClintTimer

variable (s : ClintTimer)

def timerInterrupt : Bool := s.mtimecmp ≤ s.mtime

def rdata (addr : Word) : Word :=
  match (addr.extractLsb' 0 4).toNat with
  | 0x0 => s.mtime.extractLsb' 0 32
  | 0x4 => s.mtime.extractLsb' 32 32
  | 0x8 => s.mtimecmp.extractLsb' 0 32
  | 0xC => s.mtimecmp.extractLsb' 32 32
  | _ => 0

/-- A half of a register is written; the other half goes on. -/
def next (wen : Bool) (addr wdata : Word) : ClintTimer :=
  let ticked := s.mtime + 1
  if wen then
    match (addr.extractLsb' 0 4).toNat with
    | 0x0 => { s with mtime := ticked.extractLsb' 32 32 ++ wdata }
    | 0x4 => { s with mtime := wdata ++ ticked.extractLsb' 0 32 }
    | 0x8 => { mtime := ticked, mtimecmp := s.mtimecmp.extractLsb' 32 32 ++ wdata }
    | 0xC => { mtime := ticked, mtimecmp := wdata ++ s.mtimecmp.extractLsb' 0 32 }
    | _ => { s with mtime := ticked }
  else { s with mtime := ticked }

end ClintTimer

/-! ## The bridge to AXI4-Lite -/

inductive BridgeState
  | IDLE
  | WRITE_ADDR_DATA
  | WRITE_RESP
  | READ_ADDR
  | READ_DATA
  deriving DecidableEq, Repr

/-- The registers of `axi_lite_bridge`. -/
structure AxiLiteBridge where
  state : BridgeState
  awDone : Bool
  wDone : Bool
  dReqPrev : Bool
  dRdata : Word
  dReady : Bool
  awaddr : Word
  awvalid : Bool
  wdata : Word
  wstrb : BitVec 4
  wvalid : Bool
  bready : Bool
  araddr : Word
  arvalid : Bool
  rready : Bool

/-- What the slave drives on a cycle. -/
structure AxiLiteInputs where
  awready : Bool
  wready : Bool
  bvalid : Bool
  arready : Bool
  rvalid : Bool
  rdata : Word

namespace AxiLiteBridge

variable (s : AxiLiteBridge) (r : MmioReq) (x : AxiLiteInputs)

/-- A request is seen when it rises. -/
def dReqEdge (dReq : Bool) : Bool := dReq && !s.dReqPrev

def awFires : Bool := s.awvalid && x.awready
def wFires : Bool := s.wvalid && x.wready
def bFires : Bool := s.bready && x.bvalid
def arFires : Bool := s.arvalid && x.arready
def rFires : Bool := s.rready && x.rvalid

/-- The registers after an edge. -/
def next (dReq : Bool) : AxiLiteBridge :=
  let s' := { s with dReady := false, dReqPrev := dReq }
  match s.state with
  | .IDLE =>
    if s.dReqEdge dReq && r.we then
      { s' with
        awaddr := r.addr, wdata := r.wdata, wstrb := 0b1111, awvalid := true, wvalid := true
        awDone := false, wDone := false, state := .WRITE_ADDR_DATA }
    else if s.dReqEdge dReq then { s' with araddr := r.addr, arvalid := true, state := .READ_ADDR }
    else s'
  | .WRITE_ADDR_DATA =>
    let s' :=
      { s' with
        awvalid := s.awvalid && !s.awFires x
        awDone := s.awDone || s.awFires x
        wvalid := s.wvalid && !s.wFires x
        wDone := s.wDone || s.wFires x }
    if s'.awDone && s'.wDone then { s' with bready := true, state := .WRITE_RESP } else s'
  | .WRITE_RESP =>
    if s.bFires x then { s' with bready := false, dReady := true, state := .IDLE } else s'
  | .READ_ADDR =>
    if s.arFires x then { s' with arvalid := false, rready := true, state := .READ_DATA } else s'
  | .READ_DATA =>
    if s.rFires x then
      { s' with rready := false, dRdata := x.rdata, dReady := true, state := .IDLE }
    else s'

end AxiLiteBridge

/-! ## The core with all of them -/

structure Soc where
  core : Core
  uart : UartMmio
  intc : Intc
  clint : ClintTimer
  bridge : AxiLiteBridge

/-- The caches, the lines of the UART, and the accelerator on a cycle. -/
structure SocInputs where
  cacheReady : Bool
  ifInst : Word
  dcacheReady : Bool
  dcacheReadData : Word
  txReady : Bool
  rxValid : Bool
  rxByte : Byte
  irqBatch : Bool
  irqDma : Bool
  axi : AxiLiteInputs

/-- What MEM drives on the bus to the peripherals. -/
def Core.mmioReq (s : Core) : MmioReq := ⟨s.storeCommits, s.exMem.alu, s.exMem.rs2⟩

namespace Soc

variable (s : Soc) (i : SocInputs)

/-- What the pipeline sees on a cycle. -/
def coreInputs : CoreInputs where
  cacheReady := i.cacheReady
  ifInst := i.ifInst
  dcacheReady := i.dcacheReady
  dcacheReadData := i.dcacheReadData
  uartReady := s.uart.dReady
  uartRdata := s.uart.dRdata
  intcReady := s.intc.dReady
  intcRdata := s.intc.dRdata
  accelReady := s.bridge.dReady
  accelRdata := s.bridge.dRdata
  clintRdata := s.clint.rdata s.core.exMem.alu
  timerInterrupt := s.clint.timerInterrupt
  intcIrqOut := s.intc.irqOut

/-- The interrupt lines, the lowest one first: the UART has sent, or received, a byte; a batch, or a
    store, of the accelerator is done. -/
def irqIn : BitVec 8 :=
  0#4 ++ BitVec.ofBool i.irqDma ++ BitVec.ofBool i.irqBatch ++ BitVec.ofBool i.rxValid ++
    BitVec.ofBool s.uart.txIrq

/-- The registers after an edge that leaves anything in the predictor. -/
def nextWith (p : Predictor) (STALL_WATCHDOG_LIMIT : BitVec 16) : Soc where
  core := s.core.nextWith (s.coreInputs i) p STALL_WATCHDOG_LIMIT
  uart := s.uart.next s.core.mmioReq s.core.uartReq i.txReady i.rxValid i.rxByte
  intc := s.intc.next s.core.mmioReq s.core.intcReq (s.irqIn i)
  clint := s.clint.next (s.core.clintWen (s.coreInputs i)) s.core.exMem.alu s.core.exMem.rs2
  bridge := s.bridge.next s.core.mmioReq i.axi s.core.accelReq

/-- The state after a reset. The addresses and the data of the bridge are not reset. -/
structure IsReset : Prop where
  core : s.core.IsReset
  uart : s.uart = ⟨false, 0, false, 0, 0, false, true, false⟩
  intc : s.intc = ⟨0, 0, 0, false, 0⟩
  clint : s.clint = ⟨0, 0x00000000FFFFFFFF⟩
  bridge : s.bridge.state = .IDLE ∧ s.bridge.awDone = false ∧ s.bridge.wDone = false ∧
    s.bridge.dReqPrev = false ∧
    s.bridge.dReady = false ∧ s.bridge.awvalid = false ∧ s.bridge.wvalid = false ∧
    s.bridge.bready = false ∧
    s.bridge.arvalid = false ∧ s.bridge.rready = false

end Soc

/-- The core with its peripherals out of reset, with any predictor. -/
def soc (STALL_WATCHDOG_LIMIT : BitVec 16) : Circuit Soc (SocInputs × Predictor) where
  init := {s | s.IsReset}
  admits _ _ := True
  next s i := s.nextWith i.1 i.2 STALL_WATCHDOG_LIMIT

section

variable {STALL_WATCHDOG_LIMIT : BitVec 16} {τ : ℕ → Soc} {ι : ℕ → SocInputs} {π : ℕ → Predictor}

theorem soc_next (h : (soc STALL_WATCHDOG_LIMIT).IsRun τ fun n => (ι n, π n)) (n : ℕ) :
    τ (n + 1) = (τ n).nextWith (ι n) (π n) STALL_WATCHDOG_LIMIT := h.next n

/-- The pipeline in a run, and what it sees. -/
def Soc.cores (τ : ℕ → Soc) (n : ℕ) : Core := (τ n).core
def Soc.seen (τ : ℕ → Soc) (ι : ℕ → SocInputs) (n : ℕ) : CoreInputs := (τ n).coreInputs (ι n)

theorem isRun_core (h : (soc STALL_WATCHDOG_LIMIT).IsRun τ fun n => (ι n, π n)) :
    (core STALL_WATCHDOG_LIMIT).IsRun (Soc.cores τ) fun n => (Soc.seen τ ι n, π n) :=
  ⟨(show (τ 0).IsReset from h.init).core, fun _ => trivial, fun n => congrArg Soc.core (soc_next h n)⟩

end

end Rv32Soc
