import Rv32Soc.Accel.Systolic

/-!
# The accelerator

`MmAccel.scala`: the array behind an AXI4-Lite slave, with an engine that loads operands,
an engine that stores results, and a queue of descriptors that drives all three
(`qState`).

Where the source connects a register more than once on a cycle the last connection
counts: a write over the bus goes before the sequencer, and `SOFT_RST` before
everything.
-/

namespace Rv32Soc

/-! ## The registers -/

inductive WState
  | wIdle
  | wResp
  deriving DecidableEq, Repr

inductive RState
  | rIdle
  | rResp
  deriving DecidableEq, Repr

/-- The AXI4-Lite slave. -/
structure AxiSlave where
  wState : WState
  awreadyReg : Bool
  wreadyReg : Bool
  bvalidReg : Bool
  rState : RState
  raddrWord : BitVec 6
  arreadyReg : Bool
  rvalidReg : Bool

/-- The registers that software programs. -/
structure MmRegs where
  kLen : ℕ
  ldKLen : ℕ
  loadK : ℕ
  loadLane : ℕ
  resultIdx : ℕ
  destAddr : Word
  destStride : Word
  aSrcAddr : Word
  bSrcAddr : Word
  srcStride : Word
  outShift : ℕ
  int8Req : Bool
  bPanelUse : ℕ
  bPanelLoad : ℕ

structure Descriptor where
  aSrc : Word
  bSrc : Word
  dest : Word
  ctl : Word
  deriving DecidableEq

namespace Descriptor

variable (p : MmParams) (d : Descriptor)

def kLen : ℕ := d.ctl.toNat % 256
def panelUse : ℕ := d.ctl.toNat / 2 ^ 8 % 2 ^ p.panBits
def panelLoad : ℕ := d.ctl.toNat / 2 ^ 12 % 2 ^ p.panBits
def bOnly : Bool := d.ctl.getLsbD 16

end Descriptor

inductive QState
  | qIdle
  | qLoad
  | qLoadW
  | qComp
  | qCompW
  | qStore
  | qStoreW
  | qPreW
  | qPreIssue
  deriving DecidableEq, Repr

/-- The descriptor queue and its sequencer. -/
structure Sequencer where
  descQ : List Descriptor
  descA : Word
  descB : Word
  descD : Word
  qRun : Bool
  qBusy : Bool
  qDone : Bool
  qOverflow : Bool
  qBOnly : Bool
  qState : QState
  stgKLen : ℕ
  stgPanelUse : ℕ
  stgDest : Word
  preBusy : Bool
  preDone : Bool
  prePend : Bool
  ldDonePrev : Bool

/-- The operand load. -/
structure LoadEngine where
  ldBusy : Bool
  ldDone : Bool
  ldBOnly : Bool
  ldReq : Bool
  ldInB : Bool
  ldLane : ℕ
  ldChunk : ℕ

/-- The result store: the lines on their way into the FIFO, the FIFO, and what has been
    accepted. -/
structure StoreEngine where
  dmaBusy : Bool
  dmaDone : Bool
  dmaAddr : Word
  dmaRowBase : Word
  dmaSent : ℕ
  fillGrp : ℕ
  fillLeft : ℕ
  fillValid : Bool
  fillGrpD : ℕ
  rowLineReg : ℕ → Line
  lineReg8 : Line
  lineFifo : List Line

structure MmAccel where
  axi : AxiSlave
  regs : MmRegs
  arr : SystolicArray
  buf : OperandBuffers
  q : Sequencer
  ld : LoadEngine
  st : StoreEngine
  rowSelReg : ℕ → Word

/-- The inputs on a cycle: the bus, and the two line channels. -/
structure MmInputs where
  awvalid : Bool
  awaddr : Word
  wvalid : Bool
  wdata : Word
  bready : Bool
  arvalid : Bool
  araddr : Word
  rready : Bool
  memRline : Line
  memRdReady : Bool
  memWnext : Bool
  memWrReady : Bool

namespace MmAccel

variable (p : MmParams) (s : MmAccel) (i : MmInputs)

/-! ## What a write on the bus asks for -/

def doWrite : Bool := i.awvalid && i.wvalid && s.axi.wState == .wIdle
def waddrWord (i : MmInputs) : BitVec 6 := i.awaddr.extractLsb' 2 6

/-- A write to the word `n`. -/
def writes (n : BitVec 6) : Bool := s.doWrite i && waddrWord i == n

/-- A write to the word `n` that the array does not hold up. -/
def writesCfg (n : BitVec 6) : Bool := s.writes i n && !s.arr.busy

def startPulse : Bool := s.writes i 0 && i.wdata.getLsbD 0 && !s.arr.busy
def softRstPulse : Bool := s.writes i 0 && i.wdata.getLsbD 1
def dmaStart : Bool := s.writes i 0 && i.wdata.getLsbD 2 && !s.st.dmaBusy
def ldStart : Bool := s.writes i 0 && i.wdata.getLsbD 3 && !s.ld.ldBusy
def ldStartB : Bool := s.writes i 0 && i.wdata.getLsbD 4 && !s.ld.ldBusy
def qStartPulse : Bool := s.writes i 0 && i.wdata.getLsbD 5 && !s.q.qBusy
def descPush : Bool := s.writes i 20
def pushA : Bool := s.writesCfg i 5
def pushB : Bool := s.writesCfg i 6

/-! ## The sequencer -/

def enqReady : Bool := s.q.descQ.length < p.descDepth

/-- A descriptor is adopted from `qIdle`. -/
def adoptsIdle : Bool := s.q.qState == .qIdle && s.q.qRun && !s.q.descQ.isEmpty

/-- A descriptor is adopted as a prefetch. The guard sees `preBusy` as it was before the edge. -/
def prefetches : Bool :=
  (s.q.qState == .qPreIssue || (s.q.qState == .qPreW && s.q.preDone)) &&
    p.enablePrefetch && !s.q.preBusy &&
    s.q.descQ.head?.any fun d => d.bOnly && d.panelLoad p != s.q.stgPanelUse

/-- The descriptor that is adopted, if one is. -/
def adopted : Option Descriptor :=
  if s.adoptsIdle || s.prefetches p then s.q.descQ.head? else none

/-- The staged descriptor becomes the tile that the array and the store work on. -/
def promotes : Bool :=
  (s.q.qState == .qLoadW && s.ld.ldDone) || (s.q.qState == .qPreW && s.q.preDone)

/-- The queue is empty, and nothing is in flight. -/
def drained : Bool :=
  s.q.qState == .qIdle && s.q.qRun && s.q.descQ.isEmpty && !s.st.dmaBusy && !s.ld.ldBusy

def startAny : Bool := s.startPulse i || s.q.qState == .qComp
def ldStartAny : Bool := s.ldStart i || s.ldStartB i || s.q.qState == .qLoad || s.q.prePend
def dmaStartAny : Bool := s.dmaStart i || s.q.qState == .qStore

def nextQState : QState :=
  if s.softRstPulse i then .qIdle
  else
    match s.q.qState with
    | .qIdle => if s.adoptsIdle then .qLoad else .qIdle
    | .qLoad => .qLoadW
    | .qLoadW => if s.ld.ldDone then .qPreIssue else .qLoadW
    | .qPreIssue => .qComp
    | .qComp => .qCompW
    | .qCompW => if s.arr.done && !s.st.dmaBusy then .qStore else .qCompW
    | .qStore => .qStoreW
    | .qStoreW =>
      -- the array is free again when its results are in the FIFO, before they are in memory
      if s.st.dmaDone || (s.st.dmaBusy && s.st.fillLeft == 0) then
        if s.q.preBusy then .qPreW else .qIdle
      else .qStoreW
    | .qPreW => if s.q.preDone then .qComp else .qPreW

def nextQ : Sequencer where
  -- `SOFT_RST` is connected last, and wins over everything else, here and below
  descQ :=
    if s.softRstPulse i then []
    else
      (if (s.adopted p).isSome then s.q.descQ.tail else s.q.descQ) ++
        if s.descPush i && s.enqReady p then [⟨s.q.descA, s.q.descB, s.q.descD, i.wdata⟩] else []
  descA := if s.writes i 17 then i.wdata else s.q.descA
  descB := if s.writes i 18 then i.wdata else s.q.descB
  descD := if s.writes i 19 then i.wdata else s.q.descD
  qRun := if s.softRstPulse i || s.drained then false else s.qStartPulse i || s.q.qRun
  qBusy := if s.softRstPulse i || s.drained then false else s.qStartPulse i || s.q.qBusy
  qDone :=
    if s.softRstPulse i then false
    else if s.drained then true
    else if s.qStartPulse i then false
    else s.q.qDone
  qOverflow :=
    if s.softRstPulse i then false
    else if s.descPush i && !s.enqReady p then true
    else if s.qStartPulse i then false
    else s.q.qOverflow
  qBOnly := ((s.adopted p).map Descriptor.bOnly).getD s.q.qBOnly
  qState := s.nextQState i
  stgKLen := ((s.adopted p).map Descriptor.kLen).getD s.q.stgKLen
  stgPanelUse := ((s.adopted p).map (Descriptor.panelUse p)).getD s.q.stgPanelUse
  stgDest := ((s.adopted p).map Descriptor.dest).getD s.q.stgDest
  -- `qPreW` takes the prefetched tile
  preBusy :=
    if s.softRstPulse i then false
    else if s.prefetches p then true
    else if s.q.qState == .qPreW && s.q.preDone then false
    else s.q.preBusy
  -- sticky, and set on the edge of `ldDone` that belongs to the prefetch
  preDone :=
    if s.softRstPulse i then false
    else if s.ld.ldDone && !s.q.ldDonePrev && s.q.preBusy then true
    else if s.prefetches p || (s.q.qState == .qPreW && s.q.preDone) then false
    else s.q.preDone
  prePend := if s.softRstPulse i || s.q.prePend then false else s.prefetches p
  ldDonePrev := s.ld.ldDone

/-! ## The registers of the bus -/

/-- `K_LEN`, clamped. -/
def kReq (i : MmInputs) : ℕ := min (i.wdata.toNat % 256) p.maxK

def nextRegs : MmRegs where
  -- a write of `K_LEN` is clamped, the K of a descriptor is not
  kLen :=
    if s.writesCfg i 2 then kReq p i
    else if s.promotes then s.q.stgKLen
    else s.regs.kLen
  ldKLen :=
    if s.writesCfg i 2 && !s.ld.ldBusy then kReq p i
    else ((s.adopted p).map Descriptor.kLen).getD s.regs.ldKLen
  -- the last group is `(kLen >> 2) - 1`, of six bits; after it the lane moves on
  loadK :=
    if s.writesCfg i 3 then i.wdata.toNat % 2 ^ p.kGrpBits
    else if s.writesCfg i 4 then 0
    else if s.pushA i || s.pushB i then
      if s.regs.loadK = (s.regs.kLen / 4 + 63) % 64 then 0 else (s.regs.loadK + 1) % 2 ^ p.kGrpBits
    else s.regs.loadK
  loadLane :=
    if s.writesCfg i 4 then i.wdata.toNat % 2 ^ p.laneBits
    else if (s.pushA i || s.pushB i) && s.regs.loadK == (s.regs.kLen / 4 + 63) % 64 then
      (s.regs.loadLane + 1) % 2 ^ p.laneBits
    else s.regs.loadLane
  resultIdx :=
    if s.writesCfg i 7 then i.wdata.toNat % 2 ^ p.accBits
    else if s.axi.rState == .rResp && i.rready && s.axi.raddrWord == 8 then
      (s.regs.resultIdx + 1) % 2 ^ p.accBits
    else s.regs.resultIdx
  -- the geometry of an engine is held still while it runs
  destAddr :=
    if s.writesCfg i 10 && !s.st.dmaBusy then i.wdata
    else if s.promotes then s.q.stgDest
    else s.regs.destAddr
  destStride := if s.writesCfg i 11 && !s.st.dmaBusy then i.wdata else s.regs.destStride
  aSrcAddr :=
    if s.writesCfg i 12 && !s.ld.ldBusy then i.wdata
    else ((s.adopted p).map Descriptor.aSrc).getD s.regs.aSrcAddr
  bSrcAddr :=
    if s.writesCfg i 13 && !s.ld.ldBusy then i.wdata
    else ((s.adopted p).map Descriptor.bSrc).getD s.regs.bSrcAddr
  srcStride := if s.writesCfg i 14 && !s.ld.ldBusy then i.wdata else s.regs.srcStride
  -- not so `OUT_CTRL`
  outShift := if s.writesCfg i 22 then i.wdata.toNat % 32 else s.regs.outShift
  int8Req := if s.writesCfg i 22 then i.wdata.getLsbD 8 else s.regs.int8Req
  bPanelUse :=
    if s.writesCfg i 15 then i.wdata.toNat % 2 ^ p.panBits
    else if s.promotes then s.q.stgPanelUse
    else s.regs.bPanelUse
  bPanelLoad :=
    if s.writesCfg i 16 && !s.ld.ldBusy then i.wdata.toNat % 2 ^ p.panBits
    else ((s.adopted p).map (Descriptor.panelLoad p)).getD s.regs.bPanelLoad

/-! ## The operand load -/

/-- The lines of a lane that is loaded. -/
def ldLines : ℕ := if (s.regs.ldKLen + 15) / 16 = 0 then 1
    else min ((s.regs.ldKLen + 15) / 16) p.linesPerLane

def ldLastChunk : Bool := s.ld.ldChunk == s.ldLines p - 1
def ldLastLane : Bool := s.ld.ldLane == p.dim - 1
def ldPanelEnd : Bool := s.ldLastLane p && s.ldLastChunk p

def effSrcStride : Word :=
  if s.regs.srcStride = 0 then BitVec.ofNat 32 (16 * s.ldLines p) else s.regs.srcStride

def linesPerPanel : ℕ := if p.dim = 1 then s.ldLines p else s.ldLines p * 2 ^ log2Ceil p.dim

def burstOK : Bool := p.enableReadBursts && s.effSrcStride p == BitVec.ofNat 32 (16 * s.ldLines p)

def panelBase : Word := if s.ld.ldInB then s.regs.bSrcAddr else s.regs.aSrcAddr

def ldNextAddr : Word :=
  s.panelBase + BitVec.ofNat 32 s.ld.ldLane * s.effSrcStride p + BitVec.ofNat 32 (16 * s.ld.ldChunk)

def memRdReqValid : Bool := s.ld.ldBusy && s.ld.ldReq
def memRdReqAddr : Word := if s.burstOK p then s.panelBase else s.ldNextAddr p
def memRdReqLines : BitVec 8 := if s.burstOK p then BitVec.ofNat 8 (s.linesPerPanel p) else 1

/-- The row of its lane that the next line goes to. -/
def ldRow : ℕ := if p.linesPerLane = 1 then 0 else s.ld.ldChunk

/-- A line comes in. -/
def captures : Bool := !s.ldStartAny i && s.ld.ldBusy && i.memRdReady

/-- A load that is started fetches B only. -/
def startsBOnly : Bool :=
  let fromQueue := s.q.qState == .qLoad || s.q.prePend
  (s.ldStartB i && !fromQueue) || (fromQueue && s.q.qBOnly)

/-- The load engine after an edge, `SOFT_RST` apart. -/
def nextLd' : LoadEngine :=
  if s.ldStartAny i then
    { ldBusy := true
      ldDone := false
      ldBOnly := s.startsBOnly i
      ldInB := s.startsBOnly i
      ldLane := 0
      ldChunk := 0
      ldReq := true }
  else if s.ld.ldBusy && i.memRdReady then
    if s.ldPanelEnd p && s.ld.ldInB then { s.ld with ldBusy := false, ldDone := true, ldReq := false }
    else
      { s.ld with
        ldChunk := if s.ldLastChunk p then 0 else (s.ld.ldChunk + 1) % 2 ^ p.lplBits
        ldLane :=
          if s.ldLastChunk p then if s.ldLastLane p then 0 else (s.ld.ldLane + 1) % 2 ^ p.laneBits
          else s.ld.ldLane
        ldInB := s.ld.ldInB || s.ldPanelEnd p
        ldReq := if s.burstOK p then !s.ld.ldInB && s.ldPanelEnd p else true }
  else s.ld

def nextLd : LoadEngine :=
  if s.softRstPulse i then
    { s.nextLd' p i with
      ldBusy := false, ldDone := false, ldReq := false, ldInB := false, ldLane := 0, ldChunk := 0 }
  else s.nextLd' p i

/-! ## The operand buffers -/

/-- The write port of a lane, which a line that comes in takes from a push. -/
def laneWrite (lane : ℕ) : Option LaneWrite :=
  if s.captures i && s.ld.ldLane == lane then
    some
      { aWen := !s.ld.ldInB
        bWen := s.ld.ldInB
        aWrow := s.ldRow p
        bWrow := p.bAddr s.regs.bPanelLoad (s.ldRow p)
        write := fun _ => i.memRline }
  else if (s.pushA i || s.pushB i) && s.regs.loadLane == lane then
    some
      { aWen := s.pushA i
        bWen := s.pushB i
        aWrow := s.regs.loadK / 4
        bWrow := p.bAddr s.regs.bPanelLoad (s.regs.loadK / 4)
        write := fun old => setLinePart 4 old (s.regs.loadK % 4) i.wdata }
  else none

def nextBuf : OperandBuffers :=
  s.buf.next (s.laneWrite p i) (s.arr.rowNext p (s.startAny i))
    fun lane => p.bAddr s.regs.bPanelUse (s.arr.rowNext p (s.startAny i) lane)

/-! ## The lines of a result -/

/-- A line from its bytes. -/
def lineOfBytes (f : ℕ → Byte) : Line :=
  lineOfWords fun k => f (4 * k.toNat + 3) ++ f (4 * k.toNat + 2) ++
    f (4 * k.toNat + 1) ++ f (4 * k.toNat)

/-- The line of a row that the fill pointer selects. -/
def rowLine (row : ℕ) : Line :=
  lineOfWords fun w => s.arr.acc row (4 * (s.st.fillGrp % 2 ^ log2Ceil p.perRow) + w.toNat)

def lineData : Line :=
  if p.nGroups = 1 then lineOfWords fun w => s.arr.acc (w.toNat / p.dim) (w.toNat % p.dim)
  else s.st.rowLineReg (s.st.fillGrpD / 2 ^ log2Ceil p.perRow)

/-- Round half up, shift, saturate. -/
def requant (outShift : ℕ) (acc : Word) : Byte :=
  let half : ℤ := if outShift = 0 then 0 else 2 ^ (outShift - 1)
  let shifted : ℤ := (acc.toInt + half) / 2 ^ outShift
  if 127 < shifted then 127 else if shifted < -128 then -128 else BitVec.ofInt 8 shifted

/-- The line of bytes that the fill pointer selects. -/
def line8 : Line :=
  let g := if p.nGroups8 = 1 then 0 else s.st.fillGrp % 2 ^ p.grp8Bits
  lineOfBytes fun b => requant s.regs.outShift (s.arr.acc (g * p.rowsPerLine + b / p.dim) (b % p.dim))

def int8Mode : Bool := p.int8Capable && s.regs.int8Req
def nGroupsEff : ℕ := if s.int8Mode p then p.nGroups8 else p.nGroups
def lineOut : Line := if s.int8Mode p then s.st.lineReg8 else s.lineData p

/-! ## The result store -/

def fillFire : Bool := s.st.dmaBusy && s.st.fillLeft != 0 && s.st.lineFifo.length < p.fifoLines - 1

def strideOK : Bool := p.dim ≤ p.nGroups
def effStride : Word := if s.regs.destStride = 0 then BitVec.ofNat 32 (4 * p.dim) else s.regs.destStride
def destContig : Bool := s.regs.destStride == 0 || s.regs.destStride == BitVec.ofNat 32 (4 * p.dim)
def destContigEff : Bool := s.destContig p || s.int8Mode p

def wBurstLines : ℕ :=
  if p.enableWriteBursts then
    if s.int8Mode p then p.nGroups8
    else if s.destContig p then p.nGroups
    else if strideOK p then p.perRow else p.nGroups
  else 1

/-- The lines accepted with the transaction that ends. -/
def nextSent : ℕ := (s.st.dmaSent + s.wBurstLines p) % 2 ^ max 9 (log2Ceil (p.nGroups + 1))

def atRowEndSent : Bool :=
  !strideOK p || p.perRow == 1 || s.nextSent p % 2 ^ log2Ceil p.perRow == 0

def memWrReqValid : Bool := s.st.dmaBusy && !s.st.lineFifo.isEmpty
def memWrReqAddr : Word := s.st.dmaAddr
def memWrReqLines : BitVec 8 := BitVec.ofNat 8 (s.wBurstLines p)
def memWline : Line := s.st.lineFifo.headD 0

/-- A line leaves the FIFO, if there is one. -/
def deqReady : Bool := i.memWnext || (s.st.dmaBusy && i.memWrReady) || !s.st.dmaBusy

def nextFifo : List Line :=
  (if s.deqReady i then s.st.lineFifo.tail else s.st.lineFifo) ++
    if s.st.fillValid && s.st.lineFifo.length < p.fifoLines then [s.lineOut p] else []

/-- The store engine after an edge, `SOFT_RST` apart. -/
def nextSt' : StoreEngine :=
  let st : StoreEngine :=
    { s.st with
      fillGrp := if s.fillFire p then (s.st.fillGrp + 1) % 2 ^ p.grpBits else s.st.fillGrp
      fillLeft := if s.fillFire p then s.st.fillLeft - 1 else s.st.fillLeft
      fillValid := s.fillFire p
      fillGrpD := s.st.fillGrp
      rowLineReg := s.rowLine p
      lineReg8 := s.line8 p
      lineFifo := s.nextFifo p i }
  if s.dmaStartAny i then
    { st with
      dmaBusy := true
      dmaDone := false
      dmaAddr := s.regs.destAddr
      dmaRowBase := s.regs.destAddr
      fillGrp := 0
      fillLeft := s.nGroupsEff p % 512
      dmaSent := 0 }
  else if s.st.dmaBusy && i.memWrReady then
    if s.nGroupsEff p ≤ s.nextSent p then { st with dmaBusy := false, dmaDone := true }
    else
      { st with
        dmaSent := s.nextSent p % 512
        dmaAddr :=
          if s.destContigEff p then s.st.dmaAddr + BitVec.ofNat 32 (16 * s.wBurstLines p)
          else if s.atRowEndSent p then s.st.dmaRowBase + s.effStride p
          else s.st.dmaAddr + 16
        dmaRowBase :=
          if !s.destContigEff p && s.atRowEndSent p then s.st.dmaRowBase + s.effStride p
          else s.st.dmaRowBase }
  else st

def nextSt : StoreEngine :=
  if s.softRstPulse i then
    { s.nextSt' p i with dmaBusy := false, dmaDone := false, fillLeft := 0, dmaSent := 0, fillGrp := 0 }
  else s.nextSt' p i

/-! ## The bus -/

def nextAxi : AxiSlave where
  wState :=
    match s.axi.wState with
    | .wIdle => if s.doWrite i then .wResp else .wIdle
    | .wResp => if i.bready then .wIdle else .wResp
  awreadyReg := s.doWrite i
  wreadyReg := s.doWrite i
  bvalidReg :=
    match s.axi.wState with
    | .wIdle => s.doWrite i || s.axi.bvalidReg
    | .wResp => !i.bready && s.axi.bvalidReg
  rState :=
    match s.axi.rState with
    | .rIdle => if i.arvalid then .rResp else .rIdle
    | .rResp => if i.rready then .rIdle else .rResp
  raddrWord := if s.axi.rState == .rIdle && i.arvalid then i.araddr.extractLsb' 2 6 else s.axi.raddrWord
  arreadyReg := s.axi.rState == .rIdle && i.arvalid
  rvalidReg :=
    match s.axi.rState with
    | .rIdle => i.arvalid || s.axi.rvalidReg
    | .rResp => !i.rready && s.axi.rvalidReg

/-- The accumulator that `RESULT` returns: its column is selected one cycle ahead. -/
def results : Word :=
  let idxBits := max 1 (log2Ceil p.dim)
  s.rowSelReg (if p.dim = 1 then 0 else s.regs.resultIdx / 2 ^ idxBits % 2 ^ idxBits)

def rdata : Word :=
  match s.axi.raddrWord.toNat with
  | 1 =>
    0#23 ++ BitVec.ofBool s.q.qOverflow ++ BitVec.ofBool s.q.qDone ++ BitVec.ofBool s.q.qBusy ++
      BitVec.ofBool s.ld.ldDone ++ BitVec.ofBool s.ld.ldBusy ++ BitVec.ofBool s.st.dmaDone ++
      BitVec.ofBool s.st.dmaBusy ++ BitVec.ofBool s.arr.done ++ BitVec.ofBool s.arr.busy
  | 2 => BitVec.ofNat 32 s.regs.kLen
  | 3 => BitVec.ofNat 32 s.regs.loadK
  | 4 => BitVec.ofNat 32 s.regs.loadLane
  | 7 => BitVec.ofNat 32 s.regs.resultIdx
  | 8 => s.results p
  | 9 => 0#8 ++ BitVec.ofNat 8 p.bPanels ++ BitVec.ofNat 8 p.maxK ++ BitVec.ofNat 8 p.dim
  | 10 => s.regs.destAddr
  | 11 => s.regs.destStride
  | 12 => s.regs.aSrcAddr
  | 13 => s.regs.bSrcAddr
  | 14 => s.regs.srcStride
  | 15 => BitVec.ofNat 32 s.regs.bPanelUse
  | 16 => BitVec.ofNat 32 s.regs.bPanelLoad
  | 21 => BitVec.ofNat 32 (p.descDepth - s.q.descQ.length)
  | 22 => 0#23 ++ BitVec.ofBool (s.int8Mode p) ++ 0#3 ++ BitVec.ofNat 5 s.regs.outShift
  | _ => 0

/-! ## One edge -/

/-- The registers after an edge. -/
def next : MmAccel where
  axi := s.nextAxi i
  regs := s.nextRegs p i
  arr := s.arr.next p s.buf s.regs.kLen (s.softRstPulse i) (s.startAny i)
  buf := s.nextBuf p i
  q := s.nextQ p i
  ld := s.nextLd p i
  st := s.nextSt p i
  rowSelReg row := s.arr.acc row (s.regs.resultIdx % 2 ^ max 1 (log2Ceil p.dim))

/-- The state after a reset. The operand buffers, the lines on their way into the FIFO and the
    stage of the read multiplexer are not reset. -/
structure IsReset : Prop where
  axi : s.axi = ⟨.wIdle, false, false, false, .rIdle, 0, false, false⟩
  regs : s.regs = ⟨0, 0, 0, 0, 0, 0, 0, 0, 0, 0, 0, false, 0, 0⟩
  arr : s.arr = ⟨false, false, 0, fun _ _ => false, fun _ _ => ⟨0, 0, 0⟩⟩
  q : s.q =
    ⟨[], 0, 0, 0, false, false, false, false, false, .qIdle, 0, 0, 0, false, false, false, false⟩
  ld : s.ld = ⟨false, false, false, false, false, 0, 0⟩
  st : s.st.dmaBusy = false ∧ s.st.dmaDone = false ∧ s.st.dmaAddr = 0 ∧ s.st.dmaRowBase = 0 ∧
    s.st.dmaSent = 0 ∧ s.st.fillGrp = 0 ∧ s.st.fillLeft = 0 ∧ s.st.fillValid = false ∧
    s.st.fillGrpD = 0 ∧
    s.st.lineFifo = []

end MmAccel

end Rv32Soc
