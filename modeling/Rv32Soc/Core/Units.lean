import Rv32Soc.Core.Decode

/-!
# The units of the core

The modules that the pipeline of `cpu.v` is made of: `alu.v`, `branch_comp.v`,
`div_unit.v`, `hazard_unit.v`, `reservation_monitor.v`, `csr_file.v`,
`trap_controller.v`, and the operations of the AMO sequencer.
-/

namespace Rv32Soc

/-! ## Arithmetic -/

def alu (a b : Word) (aluSel : BitVec 5) : Word :=
  let mulASigned := aluSel == 8 || aluSel == 9 || aluSel == 10
  let mulBSigned := aluSel == 8 || aluSel == 9
  let mulA : BitVec 33 := BitVec.ofBool (mulASigned && a.getLsbD 31) ++ a
  let mulB : BitVec 33 := BitVec.ofBool (mulBSigned && b.getLsbD 31) ++ b
  let mulRes : BitVec 66 := mulA.signExtend 66 * mulB.signExtend 66
  let shamt : ℕ := (b.extractLsb' 0 5).toNat
  match aluSel.toNat with
  | 0 => a + b
  | 1 => a <<< shamt
  | 2 => if a.slt b then 1 else 0
  | 3 => if a < b then 1 else 0
  | 4 => a ^^^ b
  | 5 => a >>> shamt
  | 6 => a ||| b
  | 7 => a &&& b
  | 8 => mulRes.extractLsb' 0 32
  | 9 => mulRes.extractLsb' 32 32
  | 10 => mulRes.extractLsb' 32 32
  | 11 => mulRes.extractLsb' 32 32
  | 12 => a - b
  | 13 => a.sshiftRight shamt
  | 15 => b
  | 20 => a <<< 1 + b
  | 21 => a <<< 2 + b
  | 22 => a <<< 3 + b
  | _ => a + b

/-- The outputs of `branch_comp`: `br_eq` and `br_lt`. -/
def branchComp (brData1 brData2 : Word) (brUn : Bool) : Bool × Bool :=
  (brData1 == brData2, if brUn then brData1 < brData2 else brData1.slt brData2)

/-- The word an AMO writes, from the word it read. -/
def amoNewValue (atomicOp : BitVec 5) (old rs2 : Word) : Word :=
  match atomicOp.toNat with
  | 0b00001 => rs2
  | 0b00000 => old + rs2
  | 0b00100 => old ^^^ rs2
  | 0b01100 => old &&& rs2
  | 0b01000 => old ||| rs2
  | 0b10000 => if old.slt rs2 then old else rs2
  | 0b10100 => if rs2.slt old then old else rs2
  | 0b11000 => if old < rs2 then old else rs2
  | 0b11100 => if rs2 < old then old else rs2
  | _ => rs2

/-! ## The divider -/

/-- The registers of `div_unit`. -/
structure DivUnit where
  busy : Bool
  done : Bool
  quotient : Word
  remainder : Word
  count : BitVec 5
  divisorAbs : Word
  rq : BitVec 64
  negQ : Bool
  negR : Bool

namespace DivUnit

variable (s : DivUnit)

def rqNext : BitVec 64 :=
  let rqShifted : BitVec 64 := s.rq.extractLsb' 0 63 ++ 0#1
  let trial33 : BitVec 33 := (0#1 ++ rqShifted.extractLsb' 32 32) - (0#1 ++ s.divisorAbs)
  let borrow := trial33.getLsbD 32
  if borrow then rqShifted else trial33.extractLsb' 0 32 ++ rqShifted.extractLsb' 1 31 ++ 1#1

/-- The registers when a division of `a` by `b` has been started. -/
def started (a b : Word) (isSigned : Bool) : DivUnit :=
  let aAbs := if isSigned && a.getLsbD 31 then ~~~a + 1 else a
  let bAbs := if isSigned && b.getLsbD 31 then ~~~b + 1 else b
  if b = 0 then { s with quotient := 0xFFFFFFFF, remainder := a, done := true }
  else if isSigned && a == 0x80000000 && b == 0xFFFFFFFF then
    { s with quotient := 0x80000000, remainder := 0, done := true }
  else
    { s with
      rq := 0#32 ++ aAbs
      divisorAbs := bAbs
      negQ := isSigned && (a.getLsbD 31 ^^ b.getLsbD 31)
      negR := isSigned && a.getLsbD 31
      count := 0
      busy := true }

/-- The registers after another step of a division. -/
def stepped : DivUnit :=
  if s.count = 31 then
    { s with
      rq := s.rqNext
      busy := false
      done := true
      quotient := if s.negQ then ~~~(s.rqNext.extractLsb' 0 32) + 1 else s.rqNext.extractLsb' 0 32
      remainder := if s.negR then ~~~(s.rqNext.extractLsb' 32 32) + 1 else s.rqNext.extractLsb' 32 32 }
  else { s with rq := s.rqNext, count := s.count + 1 }

/-- The registers after an edge. -/
def next (start : Bool) (a b : Word) (isSigned : Bool) : DivUnit :=
  if start && !s.busy && !s.done then { s with done := false }.started a b isSigned
  else if s.busy then { s with done := false }.stepped
  else { s with done := false }

end DivUnit

/-! ## Hazards -/

/-- Which of the register fields an instruction reads, for the load-use stall. -/
def rs1Used (inst : Word) : Bool :=
  let opc : BitVec 5 := inst.extractLsb' 2 5
  !(opc == 0b11011 || opc == 0b01101 || opc == 0b00101)

def rs2Used (inst : Word) : Bool :=
  let opc : BitVec 5 := inst.extractLsb' 2 5
  opc == 0b01100 || opc == 0b01000 || opc == 0b11000 || opc == 0b01011

/-- A load in EX writes a register that the instruction in ID reads. -/
def loadUseStall (idExMemRead : Bool) (idExRd : BitVec 5) (ifIdInst : Word) : Bool :=
  idExMemRead && idExRd != 0 &&
    ((rs1Used ifIdInst && idExRd == rs1Field ifIdInst) ||
      (rs2Used ifIdInst && idExRd == rs2Field ifIdInst))

/-- Where an operand comes from: `fwd_a` and `fwd_b`. -/
inductive Fwd
  | reg
  | exMem
  | memWb
  deriving DecidableEq, Repr

def forward (exMemRegWen : Bool) (exMemWbSel : BitVec 2) (exMemRd : BitVec 5) (memWbRegWen : Bool)
    (memWbRd idExRs : BitVec 5) : Fwd :=
  let exMemFwdable := exMemRegWen && exMemWbSel != 0b00
  if exMemFwdable && exMemRd == idExRs && exMemRd != 0 then .exMem
  else if memWbRegWen && memWbRd == idExRs && memWbRd != 0 then .memWb
  else .reg

/-! ## Reservations -/

/-- The registers of `reservation_monitor`. -/
structure ReservationMonitor where
  reservedAddr : Word
  lockValid : Bool

namespace ReservationMonitor

variable (s : ReservationMonitor)

def scSuccessful (memAddr : Word) : Bool := s.lockValid && memAddr == s.reservedAddr

def next (lrEn scEn anyStoreEn trapTaken : Bool) (memAddr : Word) : ReservationMonitor :=
  if trapTaken then { s with lockValid := false }
  else if lrEn then ⟨memAddr, true⟩
  else if scEn then { s with lockValid := false }
  else if anyStoreEn then { s with lockValid := false }
  else s

end ReservationMonitor

/-! ## Control and status registers -/

/-- The registers of `csr_file`. -/
structure CsrFile where
  mstatus : Word
  mtvec : Word
  mepc : Word
  mcause : Word
  mtval : Word
  mie : Word

namespace CsrFile

variable (s : CsrFile)

def mstatusMie : Bool := s.mstatus.getLsbD 3
def mieMtie : Bool := s.mie.getLsbD 7
def mieMeie : Bool := s.mie.getLsbD 11

def mip (timerPending externalPending : Bool) : Word :=
  0#20 ++ BitVec.ofBool externalPending ++ 0#3 ++ BitVec.ofBool timerPending ++ 0#7

def csrRdata (csrAddr : BitVec 12) (timerPending externalPending : Bool) : Word :=
  match csrAddr.toNat with
  | 0x300 => s.mstatus
  | 0x304 => s.mie
  | 0x305 => s.mtvec
  | 0x341 => s.mepc
  | 0x342 => s.mcause
  | 0x343 => s.mtval
  | 0x344 => mip timerPending externalPending
  | _ => 0

/-- The value a `csrrw`, `csrrs` or `csrrc` leaves in a register. -/
def written (csrOp : BitVec 2) (old wdata : Word) : Word :=
  if csrOp = 0b01 then wdata else if csrOp = 0b10 then old ||| wdata else old &&& ~~~wdata

def write (csrAddr : BitVec 12) (csrOp : BitVec 2) (wdata : Word) : CsrFile :=
  match csrAddr.toNat with
  | 0x300 => { s with mstatus := written csrOp s.mstatus wdata }
  | 0x304 => { s with mie := written csrOp s.mie wdata }
  | 0x305 => { s with mtvec := written csrOp s.mtvec wdata }
  | 0x341 => { s with mepc := written csrOp s.mepc wdata }
  | 0x342 => { s with mcause := written csrOp s.mcause wdata }
  | 0x343 => { s with mtval := written csrOp s.mtval wdata }
  | _ => s

/-- A trap saves the interrupt enable bit `mstatus[3]` in `mstatus[7]` and clears it. -/
def trap (trapPc trapCause trapVal : Word) : CsrFile :=
  { s with
    mepc := trapPc
    mcause := trapCause
    mtval := trapVal
    mstatus := (s.mstatus &&& ~~~0x88) ||| if s.mstatus.getLsbD 3 then 0x80 else 0 }

/-- The return from a trap restores it. -/
def mret : CsrFile :=
  { s with mstatus := (s.mstatus &&& ~~~0x08) ||| if s.mstatus.getLsbD 7 then 0x08 else 0 }

end CsrFile

/-! ## Traps -/

/-- The outputs of `trap_controller`. -/
structure TrapController where
  trapTaken : Bool
  trapCause : Word
  trapVal : Word
  trapPc : Word
  mretExec : Bool
  flushIf : Bool
  flushId : Bool
  flushEx : Bool
  pcTrapOverride : Bool
  trapTargetPc : Word

def isSystem (exInst : Word) : Bool := opcode exInst == 0b1110011
def isEcall (exInst : Word) : Bool := isSystem exInst && exInst.extractLsb' 20 12 == 0#12
def isMret (exInst : Word) : Bool := isSystem exInst && exInst.extractLsb' 20 12 == 0x302#12

/-- Control leaves EX: all three registers before MEM are flushed. -/
def TrapController.redirect (trapTaken : Bool) (trapCause trapVal trapPc : Word) (mretExec : Bool)
    (trapTargetPc : Word) : TrapController :=
  ⟨trapTaken, trapCause, trapVal, trapPc, mretExec, true, true, true, true, trapTargetPc⟩

def trapController (exPc exInst : Word) (timerIrq externalIrq : Bool) (mtvecOut mepcOut : Word)
    (memStall exValid illegalInst misalignLoad misalignStore : Bool) (faultAddr : Word) :
      TrapController :=
  let mretFires := isMret exInst && !memStall
  let ecallFires := isEcall exInst && !memStall
  let faultIllegal := exValid && illegalInst && !memStall
  let faultLdAlign := exValid && misalignLoad && !memStall
  let faultStAlign := exValid && misalignStore && !memStall
  let hwIrq := (timerIrq || externalIrq) && !isMret exInst
  if hwIrq then
    .redirect true (if externalIrq then 0x8000000B else 0x80000007) 0 exPc mretFires mtvecOut
  else if faultIllegal then .redirect true 2 exInst exPc mretFires mtvecOut
  else if faultLdAlign || faultStAlign then
    .redirect true (if faultLdAlign then 4 else 6) faultAddr exPc mretFires mtvecOut
  else if ecallFires then .redirect true 11 0 exPc mretFires mtvecOut
  else if mretFires then .redirect false 0 0 0 mretFires mepcOut
  else ⟨false, 0, 0, 0, mretFires, false, false, false, false, 0⟩

end Rv32Soc
