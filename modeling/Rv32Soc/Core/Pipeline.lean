import Rv32Soc.Cache.LoadStore
import Rv32Soc.Core.Rvc
import Rv32Soc.Core.Units

/-!
# The pipeline

`cpu.v`: five stages, of which the four registers `IfId`, `IdEx`, `ExMem` and `MemWb`
hold the instructions in ID, EX, MEM and WB. `globalMemStall` freezes all of them;
a load-use `stall` holds the first two stages and puts a bubble into EX; a redirect
from EX (`pcSel`) or a trap clears the stages before it.

The caches, the TCM, the peripherals and the timer are outside: what they answer on a
cycle is an input, so that every latency and every interrupt is possible. The
wires are functions of the registers and of these inputs, under the names they have
in the source.
-/

namespace Rv32Soc

/-! ## The pipeline registers -/

/-- `if_id_reg`. -/
structure IfId where
  pc : Word
  inst : Word
  compressed : Bool
  predictedTaken : Bool
  predictedTarget : Word
  phtIndex : BitVec 10
  valid : Bool

def IfId.clear : IfId := ⟨0, nop, false, false, 0, 0, false⟩

/-- `id_ex_reg`. The control signals are kept together; `immSel` is among them, but is not
    read after ID. -/
structure IdEx where
  pc : Word
  rs1 : Word
  rs2 : Word
  imm : Word
  rd : BitVec 5
  inst : Word
  compressed : Bool
  predictedTaken : Bool
  predictedTarget : Word
  phtIndex : BitVec 10
  ctl : ControlLogic
  valid : Bool

def ControlLogic.clear : ControlLogic :=
  ⟨⟨false, false, false, false, 0, 0, 0⟩, false, false, false, 0, false, 0, false, 0, false⟩

def IdEx.clear : IdEx := ⟨0, 0, 0, 0, 0, nop, false, false, 0, 0, .clear, false⟩

/-- `ex_mem_reg`. -/
structure ExMem where
  alu : Word
  rs2 : Word
  inst : Word
  pc : Word
  compressed : Bool
  rd : BitVec 5
  regWen : Bool
  memRw : Bool
  wbSel : BitVec 2
  isLr : Bool
  isSc : Bool
  isAmo : Bool
  atomicOp : BitVec 5
  valid : Bool

def ExMem.clear : ExMem := ⟨0, 0, nop, 0, false, 0, false, false, 0, false, false, false, 0, false⟩

/-- A flush clears only what has an effect. -/
def ExMem.flush (s : ExMem) : ExMem :=
  { s with
    regWen := false, memRw := false, isLr := false, isSc := false, isAmo := false, inst := nop
    valid := false }

/-- `mem_wb_reg`. -/
structure MemWb where
  alu : Word
  memdata : Word
  pc : Word
  inst : Word
  compressed : Bool
  rd : BitVec 5
  regWen : Bool
  wbSel : BitVec 2
  valid : Bool

def MemWb.clear : MemWb := ⟨0, 0, 0, nop, false, 0, false, 0, false⟩

/-- The length of an instruction. -/
def pcInc (compressed : Bool) : Word := if compressed then 2 else 4

/-- What the instruction in WB writes to its register. -/
def MemWb.wbData (s : MemWb) : Word :=
  if s.wbSel = 0b01 then s.alu
  else if s.wbSel = 0b00 then partialLoad s.inst s.alu s.memdata
  else if s.wbSel = 0b10 then s.pc + pcInc s.compressed
  else 0

/-- The register `r` is written by the instruction in WB. -/
def MemWb.writes (s : MemWb) (r : BitVec 5) : Bool := s.regWen && s.rd == r && r != 0

/-! ## The other registers -/

/-- The branch predictor: pattern history table, global history and return address
    stack. -/
structure Predictor where
  pht : BitVec 10 → BitVec 2
  ghr : BitVec 10
  rasStack : BitVec 3 → Word
  rasSp : BitVec 3
  rasCount : BitVec 4

/-- The handshake with a peripheral: `*_pending`, `*_done`, `*_rdata_latched`. -/
structure MmioPort where
  pending : Bool
  done : Bool
  rdataLatched : Word

def MmioPort.next (s : MmioPort) (req ready : Bool) (rdata : Word) (globalMemStall : Bool) :
    MmioPort where
  pending := if req then true else if ready then false else s.pending
  done := if ready then true else if !globalMemStall then false else s.done
  rdataLatched := if ready then rdata else s.rdataLatched

inductive AmoState
  | AMO_IDLE
  | AMO_READ
  | AMO_WRITE
  deriving DecidableEq, Repr

/-- The AMO sequencer. -/
structure AmoSeq where
  amoState : AmoState
  amoOldValue : Word
  amoResultReady : Bool

structure Core where
  pc : Word
  ifId : IfId
  idEx : IdEx
  exMem : ExMem
  memWb : MemWb
  regs : BitVec 5 → Word
  pred : Predictor
  csr : CsrFile
  div : DivUnit
  divResultReady : Bool
  amo : AmoSeq
  rm : ReservationMonitor
  uart : MmioPort
  intc : MmioPort
  accel : MmioPort
  ledsSw : BitVec 4
  stallWatchdog : BitVec 16
  stallHung : Bool

/-- What the caches, the peripherals and the timer answer on a cycle. -/
structure CoreInputs where
  cacheReady : Bool
  ifInst : Word
  dcacheReady : Bool
  dcacheReadData : Word
  uartReady : Bool
  uartRdata : Word
  intcReady : Bool
  intcRdata : Word
  accelReady : Bool
  accelRdata : Word
  clintRdata : Word
  timerInterrupt : Bool
  intcIrqOut : Bool

namespace Core

variable (s : Core) (i : CoreInputs)

/-! ## MEM -/

def isLed : Bool := s.exMem.alu == 0x00002000
def isUart : Bool := s.exMem.alu &&& 0xFFFFFFF0 == 0x40001000
def isClint : Bool := s.exMem.alu &&& 0xFFFFFFF0 == 0x02000000
def isIntc : Bool := s.exMem.alu &&& 0xFFFFFFF8 == 0x00004000
def isAccel : Bool := s.exMem.alu &&& 0xFFFFFF00 == 0x00005000
def isMmio : Bool := s.isLed || s.isClint

def isLoad : Bool := s.exMem.wbSel == 0b00 && s.exMem.regWen && !s.exMem.isAmo
def isStore : Bool := s.exMem.memRw
def scSuccessFlag : Bool := s.rm.scSuccessful s.exMem.alu
def storeCommits : Bool := s.isStore && (!s.exMem.isSc || s.scSuccessFlag)

def amoReadPhase : Bool := s.exMem.isAmo && s.amo.amoState == .AMO_READ
def amoWritePhase : Bool := s.exMem.isAmo && s.amo.amoState == .AMO_WRITE && !s.amo.amoResultReady
def amoStall : Bool := s.exMem.isAmo && !s.amo.amoResultReady

def memAddrIsCacheable : Bool := !s.isMmio && !s.isUart && !s.isIntc && !s.isAccel
def dcacheRen : Bool := (s.isLoad || s.amoReadPhase) && s.memAddrIsCacheable
def dcacheWen : Bool := (s.storeCommits || s.amoWritePhase) && s.memAddrIsCacheable
def dcacheValid : Bool := s.dcacheRen || s.dcacheWen

def uartValid : Bool := s.isUart && (s.isLoad || s.storeCommits)
def uartReq : Bool := s.uartValid && !s.uart.pending && !s.uart.done
def intcValid : Bool := s.isIntc && (s.isLoad || s.storeCommits)
def intcReq : Bool := s.intcValid && !s.intc.pending && !s.intc.done
def accelValid : Bool := s.isAccel && (s.isLoad || s.storeCommits)
def accelReq : Bool := s.accelValid && !s.accel.pending && !s.accel.done

def amoNewValue : Word := Rv32Soc.amoNewValue s.exMem.atomicOp s.amo.amoOldValue s.exMem.rs2

/-- `partial_store`, unless an AMO writes. -/
def storeData : Word :=
  if s.amoWritePhase then s.amoNewValue
  else (partialStore s.exMem.inst s.exMem.alu s.exMem.rs2 s.exMem.memRw).dataToMem

def memWriteMask : BitVec 4 :=
  if s.amoWritePhase then 0b1111
  else if s.exMem.isSc && !s.scSuccessFlag then 0b0000
  else (partialStore s.exMem.inst s.exMem.alu s.exMem.rs2 s.exMem.memRw).memWriteMask

def finalAluToWb : Word := if s.exMem.isSc then if s.scSuccessFlag then 0 else 1 else s.exMem.alu

def finalMemReadData : Word :=
  if s.exMem.isAmo then s.amo.amoOldValue
  else if s.isClint then i.clintRdata
  else if s.isLed then BitVec.ofBool s.stallHung ++ 0#11 ++ s.stallWatchdog ++ s.ledsSw
  else if s.isUart then s.uart.rdataLatched
  else if s.isIntc then s.intc.rdataLatched
  else if s.isAccel then s.accel.rdataLatched
  else i.dcacheReadData

/-! ## EX: the operands -/

def fwdA : Fwd :=
  forward s.exMem.regWen s.exMem.wbSel s.exMem.rd s.memWb.regWen s.memWb.rd (rs1Field s.idEx.inst)
def fwdB : Fwd :=
  forward s.exMem.regWen s.exMem.wbSel s.exMem.rd s.memWb.regWen s.memWb.rd (rs2Field s.idEx.inst)

def exMemForwardData : Word :=
  if s.exMem.isSc then s.finalAluToWb
  else if s.exMem.wbSel = 0b10 then s.exMem.pc + pcInc s.exMem.compressed
  else s.exMem.alu

/-- The operand that `fwd` selects. -/
def fwdMux (fwd : Fwd) (idExRs : Word) : Word :=
  match fwd with
  | .exMem => s.exMemForwardData
  | .memWb => s.memWb.wbData
  | .reg => idExRs

def fwdRs1 : Word := s.fwdMux s.fwdA s.idEx.rs1
def fwdRs2 : Word := s.fwdMux s.fwdB s.idEx.rs2

def aluA : Word := if s.idEx.ctl.aSel then s.idEx.pc else s.fwdRs1
def aluB : Word := if s.idEx.ctl.bSel then s.idEx.imm else s.fwdRs2

/-- The target of a jump or of a taken branch, and the address of a load or a store. -/
def redirectTargetAdder : Word := s.aluA + s.aluB

/-! ## EX: the results -/

def isDivOp : Bool := s.idEx.ctl.aluSel.extractLsb' 2 3 == 0b100#3
def divStart : Bool := s.isDivOp && !s.div.busy && !s.div.done && !s.divResultReady
def divStall : Bool := s.isDivOp && !s.divResultReady

def exResult : Word :=
  if s.isDivOp then if s.idEx.ctl.aluSel.getLsbD 1 then s.div.remainder else s.div.quotient
  else alu s.aluA s.aluB s.idEx.ctl.aluSel

def csrRdata : Word := s.csr.csrRdata (s.idEx.inst.extractLsb' 20 12) i.timerInterrupt i.intcIrqOut

def actualExResult : Word := if s.idEx.ctl.csrWen then s.csrRdata i else s.exResult

/-! ## Stalls -/

def imemStall : Bool := !i.cacheReady
def dmemStall : Bool := s.dcacheValid && !i.dcacheReady
def uartStall : Bool := s.uartValid && !s.uart.done
def intcStall : Bool := s.intcValid && !s.intc.done
def accelStall : Bool := s.accelValid && !s.accel.done

def globalMemStall : Bool :=
  s.dmemStall i || imemStall i || s.divStall || s.uartStall || s.intcStall || s.amoStall || s.accelStall

def idExMemRead : Bool := s.idEx.ctl.wbSel == 0b00 && s.idEx.ctl.regWen

def stall : Bool := loadUseStall s.idExMemRead s.idEx.rd s.ifId.inst

/-! ## EX: branches and jumps -/

def idExIsBranch : Bool := opcode s.idEx.inst == 0b1100011
def idExIsJal : Bool := opcode s.idEx.inst == 0b1101111
def idExIsJalr : Bool := opcode s.idEx.inst == 0b1100111

def branchActualTaken : Bool :=
  let br := branchComp s.fwdRs1 s.fwdRs2 (s.idEx.inst.getLsbD 13)
  s.idExIsBranch &&
    match (funct3 s.idEx.inst).toNat with
    | 0b000 => br.1
    | 0b001 => !br.1
    | 0b100 => br.2
    | 0b101 => !br.2
    | 0b110 => br.2
    | 0b111 => !br.2
    | _ => false

def branchMispredicted : Bool := s.idExIsBranch && s.branchActualTaken != s.idEx.predictedTaken

def jalrRasMispredicted : Bool :=
  s.idExIsJalr && s.idEx.predictedTaken && s.redirectTargetAdder != s.idEx.predictedTarget

/-- EX redirects fetch. -/
def pcSel : Bool :=
  (s.idExIsJal && !s.idEx.predictedTaken) ||
    (s.idExIsJalr && (!s.idEx.predictedTaken || s.jalrRasMispredicted)) || s.branchMispredicted

def exRedirectTarget : Word :=
  (if s.idExIsJal || s.idExIsJalr || s.branchActualTaken then s.redirectTargetAdder
    else s.idEx.pc + pcInc s.idEx.compressed) &&& 0xFFFFFFFE

/-! ## EX: traps -/

def exSizeMisaligned : Bool :=
  let exAccSize : BitVec 2 := s.idEx.inst.extractLsb' 12 2
  if exAccSize = 0b01 then s.redirectTargetAdder.getLsbD 0
  else if exAccSize = 0b10 then s.redirectTargetAdder.extractLsb' 0 2 != 0
  else false

def exMisalignLoad : Bool := opcode s.idEx.inst == 0b0000011 && s.exSizeMisaligned

def exMisalignStore : Bool :=
  (opcode s.idEx.inst == 0b0100011 && s.exSizeMisaligned) ||
    (opcode s.idEx.inst == 0b0101111 && s.redirectTargetAdder.extractLsb' 0 2 != 0)

def timerFires : Bool :=
  s.csr.mstatusMie && s.csr.mieMtie && i.timerInterrupt && s.idEx.valid &&
    !s.globalMemStall i && !s.stall

def externalFires : Bool :=
  s.csr.mstatusMie && s.csr.mieMeie && i.intcIrqOut && s.idEx.valid && !s.globalMemStall i && !s.stall

def trap : TrapController :=
  trapController s.idEx.pc s.idEx.inst (s.timerFires i) (s.externalFires i) s.csr.mtvec s.csr.mepc
    (s.globalMemStall i) s.idEx.valid s.idEx.ctl.illegalInst s.exMisalignLoad s.exMisalignStore
    s.redirectTargetAdder

def exCsrWen : Bool := s.idEx.ctl.csrWen && !s.globalMemStall i && !s.stall

/-! ## IF -/

def ifIsBranch : Bool := opcode (muxedIfInst i.ifInst) == 0b1100011
def ifIsJal : Bool := opcode (muxedIfInst i.ifInst) == 0b1101111
def ifIsJalr : Bool := opcode (muxedIfInst i.ifInst) == 0b1100111

def ifCompressed : Bool := isCompressed (i.ifInst.extractLsb' 0 16)

/-- `x1` and `x5` hold return addresses. -/
def isLink (r : BitVec 5) : Bool := r == 1 || r == 5

def ifRasPushPattern : Bool := isLink (rdField (muxedIfInst i.ifInst)) && (ifIsJal i || ifIsJalr i)

def ifRasPopPattern : Bool :=
  ifIsJalr i && isLink (rs1Field (muxedIfInst i.ifInst)) && !isLink (rdField (muxedIfInst i.ifInst))

/-- The instruction in IF moves on to ID. -/
def ifPredictCommit : Bool :=
  !s.stall && !s.globalMemStall i && !s.pcSel && !(s.trap i).flushIf && !(s.trap i).flushId

def ifPhtIndex : BitVec 10 := s.pc.extractLsb' 1 10 ^^^ s.pred.ghr

def rasEmpty : Bool := s.pred.rasCount == 0
def rasTop : Word := s.pred.rasStack (s.pred.rasSp - 1)
def ifRasHit : Bool := ifRasPopPattern i && !s.rasEmpty && s.ifPredictCommit i

def ifPredictedTaken : Bool :=
  (ifIsBranch i && (s.pred.pht s.ifPhtIndex).getLsbD 1 && !s.stall && !s.globalMemStall i) ||
    (ifIsJal i && !s.stall && !s.globalMemStall i) || s.ifRasHit i

def ifPredictedTarget : Word :=
  if s.ifRasHit i then s.rasTop
  else if ifIsBranch i then s.pc + immB (muxedIfInst i.ifInst)
  else s.pc + immJ (muxedIfInst i.ifInst)

/-! ## One edge -/

def nextPc : Word :=
  if (s.stall && !(s.trap i).pcTrapOverride) || s.globalMemStall i then s.pc
  else if (s.trap i).pcTrapOverride then (s.trap i).trapTargetPc
  else if s.pcSel then s.exRedirectTarget
  else if s.ifPredictedTaken i then s.ifPredictedTarget i
  else s.pc + pcInc (ifCompressed i)

def nextIfId : IfId :=
  if s.globalMemStall i then s.ifId
  else if s.pcSel || (s.trap i).flushIf then .clear
  else if s.stall then s.ifId
  else
    { pc := s.pc
      inst := muxedIfInst i.ifInst
      compressed := ifCompressed i
      predictedTaken := s.ifPredictedTaken i
      predictedTarget := s.ifPredictedTarget i
      phtIndex := s.ifPhtIndex
      valid := true }

/-- The read ports of `regfile`, which pass a write of the same cycle on. -/
def readData (r : BitVec 5) : Word :=
  if r = 0 then 0
  else if s.memWb.regWen && s.memWb.rd == r then s.memWb.wbData
  else s.regs r

/-- What ID hands on to EX. -/
def decoded : IdEx where
  pc := s.ifId.pc
  rs1 := s.readData (rs1Field s.ifId.inst)
  rs2 := s.readData (rs2Field s.ifId.inst)
  imm := immgen s.ifId.inst (controlLogic s.ifId.inst).immSel
  rd := rdField s.ifId.inst
  inst := s.ifId.inst
  compressed := s.ifId.compressed
  predictedTaken := s.ifId.predictedTaken
  predictedTarget := s.ifId.predictedTarget
  phtIndex := s.ifId.phtIndex
  ctl := controlLogic s.ifId.inst
  valid := s.ifId.valid

def nextIdEx : IdEx :=
  if s.globalMemStall i then s.idEx
  else if s.pcSel || s.stall || (s.trap i).flushId then .clear
  else s.decoded

/-- What EX hands on to MEM. -/
def executed : ExMem where
  alu := s.actualExResult i
  rs2 := s.fwdRs2
  inst := s.idEx.inst
  pc := s.idEx.pc
  compressed := s.idEx.compressed
  rd := s.idEx.rd
  regWen := s.idEx.ctl.regWen
  memRw := s.idEx.ctl.memRw
  wbSel := s.idEx.ctl.wbSel
  isLr := s.idEx.ctl.isLr
  isSc := s.idEx.ctl.isSc
  isAmo := s.idEx.ctl.isAmo
  atomicOp := s.idEx.ctl.atomicOp
  valid := s.idEx.valid

def nextExMem : ExMem :=
  if s.globalMemStall i then s.exMem
  else if (s.trap i).flushEx then s.exMem.flush
  else s.executed i

/-- What MEM hands on to WB. -/
def accessed : MemWb where
  alu := s.finalAluToWb
  memdata := s.finalMemReadData i
  pc := s.exMem.pc
  inst := s.exMem.inst
  compressed := s.exMem.compressed
  rd := s.exMem.rd
  regWen := s.exMem.regWen
  wbSel := s.exMem.wbSel
  valid := s.exMem.valid

def nextMemWb : MemWb := if s.globalMemStall i then s.memWb else s.accessed i

def nextRegs (r : BitVec 5) : Word := if s.memWb.writes r then s.memWb.wbData else s.regs r

def nextGhr : BitVec 10 :=
  let ghrBefore : BitVec 10 := s.idEx.phtIndex ^^^ s.idEx.pc.extractLsb' 1 10
  if s.branchMispredicted then ghrBefore.extractLsb' 0 9 ++ BitVec.ofBool s.branchActualTaken
  else if ifIsBranch i && s.ifPredictCommit i then
    s.pred.ghr.extractLsb' 0 9 ++ BitVec.ofBool (s.ifPredictedTaken i)
  else s.pred.ghr

def nextPht (n : BitVec 10) : BitVec 2 :=
  if s.idExIsBranch && s.idEx.valid && !s.globalMemStall i && n == s.idEx.phtIndex then
    if s.branchActualTaken then if s.pred.pht n = 0b11 then 0b11 else s.pred.pht n + 1
    else if s.pred.pht n = 0b00 then 0b00 else s.pred.pht n - 1
  else s.pred.pht n

def nextPred : Predictor :=
  let push := ifRasPushPattern i && s.ifPredictCommit i
  let pop := ifRasPopPattern i && s.ifPredictCommit i && !s.rasEmpty
  { pht := s.nextPht i
    ghr := s.nextGhr i
    rasStack := fun n =>
      if push && n == s.pred.rasSp then s.pc + pcInc (ifCompressed i) else s.pred.rasStack n
    rasSp := if push then s.pred.rasSp + 1 else if pop then s.pred.rasSp - 1 else s.pred.rasSp
    rasCount :=
      if push then if s.pred.rasCount = 8 then 8 else s.pred.rasCount + 1
      else if pop then s.pred.rasCount - 1
      else s.pred.rasCount }

def nextCsr : CsrFile :=
  if (s.trap i).trapTaken then s.csr.trap (s.trap i).trapPc (s.trap i).trapCause (s.trap i).trapVal
  else if (s.trap i).mretExec then s.csr.mret
  else if s.exCsrWen i then
    s.csr.write (s.idEx.inst.extractLsb' 20 12) s.idEx.ctl.csrOp
      (if s.idEx.ctl.csrUseImm then s.idEx.ctl.csrUimm.setWidth 32 else s.fwdRs1)
  else s.csr

def nextDivResultReady : Bool :=
  if s.div.done then true
  else if s.divResultReady && !s.globalMemStall i then false
  else s.divResultReady

def nextAmo : AmoSeq :=
  if !s.exMem.isAmo || (s.amo.amoResultReady && !s.globalMemStall i) then
    { s.amo with amoState := .AMO_IDLE, amoResultReady := false }
  else
    match s.amo.amoState with
    | .AMO_IDLE => { s.amo with amoState := .AMO_READ }
    | .AMO_READ =>
      if i.dcacheReady then
        { s.amo with amoOldValue := i.dcacheReadData, amoState := .AMO_WRITE }
      else s.amo
    | .AMO_WRITE => if i.dcacheReady then { s.amo with amoResultReady := true } else s.amo

def lrReservationSet : Bool := s.exMem.isLr && s.dcacheRen && i.dcacheReady
def scReservationClear : Bool := s.exMem.isSc && !s.globalMemStall i

def normalStoreReservationClear : Bool :=
  (s.isStore && !s.exMem.isSc &&
      (s.isMmio || (s.dcacheWen && i.dcacheReady) || (s.isUart && i.uartReady) ||
        (s.isIntc && i.intcReady) || (s.isAccel && i.accelReady))) ||
    (s.amoWritePhase && i.dcacheReady)

/-- The registers after an edge. -/
def next (STALL_WATCHDOG_LIMIT : BitVec 16) : Core where
  pc := s.nextPc i
  ifId := s.nextIfId i
  idEx := s.nextIdEx i
  exMem := s.nextExMem i
  memWb := s.nextMemWb i
  regs := s.nextRegs
  pred := s.nextPred i
  csr := s.nextCsr i
  div := s.div.next s.divStart s.aluA s.aluB (!s.idEx.ctl.aluSel.getLsbD 0)
  divResultReady := s.nextDivResultReady i
  amo := s.nextAmo i
  rm := s.rm.next (s.lrReservationSet i) (s.scReservationClear i) (s.normalStoreReservationClear i)
    (s.trap i).trapTaken s.exMem.alu
  uart := s.uart.next s.uartReq i.uartReady i.uartRdata (s.globalMemStall i)
  intc := s.intc.next s.intcReq i.intcReady i.intcRdata (s.globalMemStall i)
  accel := s.accel.next s.accelReq i.accelReady i.accelRdata (s.globalMemStall i)
  ledsSw :=
    if !s.globalMemStall i && s.storeCommits && s.isLed then s.exMem.rs2.extractLsb' 0 4 else s.ledsSw
  stallWatchdog :=
    if !s.globalMemStall i then 0
    else if s.stallWatchdog < STALL_WATCHDOG_LIMIT then s.stallWatchdog + 1
    else s.stallWatchdog
  stallHung := s.stallHung || (s.globalMemStall i && !(s.stallWatchdog < STALL_WATCHDOG_LIMIT))

/-- `RESET_PC`. -/
def resetPc : Word := 0x40000000

/-- The state after a reset. The registers `x1` to `x31`, the results of the divider and of
    the AMO sequencer, the pattern history table and the return addresses are not reset. -/
def IsReset : Prop :=
  s.pc = resetPc ∧ s.ifId = .clear ∧ s.idEx = .clear ∧ s.exMem = .clear ∧
  s.memWb = .clear ∧ s.regs 0 = 0 ∧
    s.pred.ghr = 0 ∧ s.pred.rasSp = 0 ∧ s.pred.rasCount = 0 ∧ s.csr = ⟨0, 0, 0, 0, 0, 0⟩ ∧
    s.div.busy = false ∧ s.div.done = false ∧ s.divResultReady = false ∧
    s.amo.amoState = .AMO_IDLE ∧ s.amo.amoResultReady = false ∧ s.rm = ⟨0, false⟩ ∧
    s.uart = ⟨false, false, 0⟩ ∧ s.intc = ⟨false, false, 0⟩ ∧ s.accel = ⟨false, false, 0⟩ ∧
    s.ledsSw = 0 ∧ s.stallWatchdog = 0 ∧ s.stallHung = false

end Core

end Rv32Soc
