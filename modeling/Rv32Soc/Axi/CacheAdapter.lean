import Rv32Soc.Axi.RwEngine

/-!
# The single-channel adapter

`axi_cache_adapter.v`, which the engines of `axi_rw_engine.v` replace: one FSM over the
AXI4 master, which reads or writes, and one `mem_ready`, which is pulsed once for each
line of a read and once for a write as a whole.

While it reads the adapter is a read engine, and while it writes a write engine
(`Regs.readEngine`, `Regs.writeEngine`), but for the length of a read that is taken up
again: `m_axi_arlen` is that of the whole request, `m_axi_awlen` that of the lines that
are left.
-/

namespace Rv32Soc

namespace CacheAdapter

open AxiRw

inductive State
  | IDLE
  | READ_ADDR
  | READ_DATA
  | WRITE_ADDR
  | WRITE_DATA
  | WRITE_RESP
  | DONE
  deriving DecidableEq, Repr

structure Regs where
  state : State
  beatCount : BitVec 8
  savedAddr : Word
  savedWline : Line
  wlineHold : Line
  savedWrite : Bool
  savedLines : BitVec 8
  lineReady : Bool
  lineSent : BitVec 8
  retrying : Bool
  fifoAhead : Bool
  resumeHold : Bool
  memWnext : Bool
  memRline : Line
  timeoutCnt : BitVec 16
  retryCount : BitVec 16

structure Inputs (B : ℕ) where
  memReqValid : Bool
  memReqWrite : Bool
  memReqAddr : Word
  memReqLines : BitVec 8
  memWline : Line
  mAxiArready : Bool
  mAxiRdata : Beat B
  mAxiRvalid : Bool
  mAxiRlast : Bool
  mAxiAwready : Bool
  mAxiWready : Bool
  mAxiBvalid : Bool

namespace Regs

variable {B : ℕ} (TIMEOUT_LIMIT : BitVec 16) (s : Regs) (i : Inputs B)

def burstBaseAddr : Word := lineBase s.savedAddr + s.lineSent.setWidth 32 <<< 4

def burstLines : BitVec 8 := if s.lineSent < s.savedLines then s.savedLines - s.lineSent else 1

def mAxiAraddr : Word := s.burstBaseAddr
def mAxiArlen (B : ℕ) : BitVec 8 := (s.savedLines.setWidth 32 * BitVec.ofNat 32 B - 1).setWidth 8
def mAxiArvalid : Bool := s.state == .READ_ADDR
def mAxiRready : Bool := s.state == .READ_DATA

def mAxiAwaddr : Word := s.burstBaseAddr
def mAxiAwlen (B : ℕ) : BitVec 8 := (s.burstLines.setWidth 32 * BitVec.ofNat 32 B - 1).setWidth 8
def mAxiAwvalid : Bool := s.state == .WRITE_ADDR
def mAxiWvalid : Bool := s.state == .WRITE_DATA
def mAxiBready : Bool := s.state == .WRITE_RESP

def mAxiWdata : Beat B :=
  if s.savedLines = 1 then linePart (16 / B) s.savedWline s.beatCount.toNat
  else if s.resumeHold then linePart (16 / B) s.wlineHold s.beatCount.toNat
  else if s.beatCount = 0 then linePart (16 / B) i.memWline s.beatCount.toNat
  else linePart (16 / B) s.wlineHold s.beatCount.toNat

def mAxiWlast (B : ℕ) : Bool := s.beatCount.toNat + 1 == B && s.lineSent == s.savedLines - 1

/-- A line of a read has been read, or a write is acknowledged. -/
def memReady : Bool :=
  (s.lineReady && (s.state == .READ_DATA || s.state == .DONE)) || (s.state == .DONE && s.savedWrite)

def timeoutEligible : Bool := s.state != .IDLE && s.state != .DONE

/-- All the data is accepted, and only the response is missing. -/
def writeDoneBarBresp : Bool := s.state == .WRITE_RESP && s.savedWrite && s.savedLines ≤ s.lineSent

def axiProgress : Bool :=
  (s.mAxiArvalid && i.mAxiArready) || (i.mAxiRvalid && s.mAxiRready) ||
    (s.mAxiAwvalid && i.mAxiAwready) ||
    (s.mAxiWvalid && i.mAxiWready) || (i.mAxiBvalid && s.mAxiBready)

/-- The transaction is given up on this edge. -/
def timeout : Bool := s.timeoutEligible && TIMEOUT_LIMIT ≤ s.timeoutCnt

def nextState : State :=
  match s.state with
  | .IDLE => if i.memReqValid then if i.memReqWrite then .WRITE_ADDR else .READ_ADDR else .IDLE
  | .READ_ADDR => if s.mAxiArvalid && i.mAxiArready then .READ_DATA else .READ_ADDR
  | .READ_DATA => if i.mAxiRvalid && s.mAxiRready && i.mAxiRlast then .DONE else .READ_DATA
  | .WRITE_ADDR => if s.mAxiAwvalid && i.mAxiAwready then .WRITE_DATA else .WRITE_ADDR
  | .WRITE_DATA => if s.mAxiWvalid && i.mAxiWready && s.mAxiWlast B then .WRITE_RESP else .WRITE_DATA
  | .WRITE_RESP => if i.mAxiBvalid && s.mAxiBready then .DONE else .WRITE_RESP
  | .DONE => .IDLE

/-- A request is taken up, or resumed. -/
def start : Bool := s.state == .IDLE && i.memReqValid

/-- A beat is read, or accepted. -/
def readTake : Bool := s.state == .READ_DATA && i.mAxiRvalid && s.mAxiRready
def writeTake : Bool := s.state == .WRITE_DATA && s.mAxiWvalid && i.mAxiWready

/-- It is the last one of its line. -/
def readLineEnd : Bool := s.readTake i && s.beatCount.toNat + 1 == B
def writeLineEnd : Bool := s.writeTake i && s.beatCount.toNat + 1 == B

/-- It is the last but one of its line, and another line follows. -/
def writeEarly : Bool := s.writeTake i && (s.beatCount.toNat + 2 == B && s.lineSent + 1 < s.savedLines)

/-- The registers after an edge. -/
def next : Regs :=
  -- Only the response is missing: every line is in the memory, so the write counts as done.
  if s.timeout TIMEOUT_LIMIT && s.writeDoneBarBresp then
    { s with
      state := .DONE
      beatCount := 0
      timeoutCnt := 0
      retryCount := s.retryCount + 1
      lineReady := false
      memWnext := false }
  -- The transaction is given up; the request is offered again, from the first line not served.
  else if s.timeout TIMEOUT_LIMIT then
    { s with
      state := .IDLE
      beatCount := 0
      timeoutCnt := 0
      retryCount := s.retryCount + 1
      retrying := true
      resumeHold := s.fifoAhead && s.savedWrite
      lineReady := false
      memWnext := false }
  else
    { state := s.nextState i
      beatCount :=
        if s.start i then 0
        else if s.readTake i || s.writeTake i then
          if s.beatCount.toNat + 1 == B then 0 else s.beatCount + 1
        else if s.state == .DONE then 0
        else s.beatCount
      savedAddr := if s.start i then i.memReqAddr else s.savedAddr
      savedWline := if s.start i && !s.retrying then i.memWline else s.savedWline
      wlineHold :=
        if s.state == .WRITE_DATA && s.beatCount == 0 && !s.resumeHold then i.memWline else s.wlineHold
      savedWrite := if s.start i then i.memReqWrite else s.savedWrite
      savedLines :=
        if s.start i then if i.memReqLines = 0 then 1 else i.memReqLines else s.savedLines
      lineReady := s.readLineEnd i
      lineSent :=
        if s.start i && !s.retrying then 0
        else if s.readLineEnd i || s.writeLineEnd i then s.lineSent + 1
        else s.lineSent
      retrying := if s.start i then false else s.retrying
      fifoAhead :=
        if s.start i && !s.retrying then false
        else if s.writeEarly i then true
        else if s.writeLineEnd i then false
        else s.fifoAhead
      resumeHold := if s.writeLineEnd i then false else s.resumeHold
      memWnext := s.writeEarly i
      memRline :=
        if s.readTake i then setLinePart (16 / B) s.memRline s.beatCount.toNat i.mAxiRdata
          else s.memRline
      timeoutCnt := if s.timeoutEligible then if s.axiProgress i then 0 else s.timeoutCnt + 1 else 0
      retryCount := s.retryCount }

def IsReset : Prop :=
  s.state = .IDLE ∧ s.beatCount = 0 ∧ s.savedLines = 1 ∧ s.lineReady = false ∧ s.lineSent = 0 ∧
    s.memWnext = false ∧ s.savedAddr = 0 ∧ s.savedWline = 0 ∧ s.wlineHold = 0 ∧ s.savedWrite = false ∧
    s.memRline = 0 ∧ s.timeoutCnt = 0 ∧ s.retryCount = 0 ∧ s.retrying = false ∧ s.fifoAhead = false ∧
    s.resumeHold = false

/-! ## The engines -/

/-- The adapter that reads, as a read engine. A request is withdrawn with its last line, so that
    there is no need to remember that it has been served. -/
def readEngine : RdRegs where
  rdState :=
    match s.state with
    | .READ_ADDR => .RD_ADDR
    | .READ_DATA => .RD_DATA
    | .DONE => if s.savedWrite then .RD_IDLE else .RD_DONE
    | _ => .RD_IDLE
  rdBeat := s.beatCount
  rdDoneLines := s.lineSent
  rdAddrS := s.savedAddr
  rdLinesS := s.savedLines
  rdRline := s.memRline
  rdReady := s.lineReady
  rdRetrying := s.retrying
  rdTmo := s.timeoutCnt
  rdRetries := s.retryCount
  rdServed := false

/-- The adapter that writes, as a write engine. -/
def writeEngine : WrRegs where
  wrState :=
    match s.state with
    | .WRITE_ADDR => .WR_ADDR
    | .WRITE_DATA => .WR_DATA
    | .WRITE_RESP => .WR_RESP
    | .DONE => if s.savedWrite then .WR_DONE else .WR_IDLE
    | _ => .WR_IDLE
  wrBeat := s.beatCount
  wrSent := s.lineSent
  wrAddrS := s.savedAddr
  wrLinesS := s.savedLines
  wlineHold := s.wlineHold
  wlineFirst := s.savedWline
  wrNext := s.memWnext
  wrRetrying := s.retrying
  wrFifoAhead := s.fifoAhead
  wrResumeHold := s.resumeHold
  wrTmo := s.timeoutCnt
  wrRetries := s.retryCount
  wrServed := false

end Regs

/-- The ports of the adapter, as those of either engine. -/
def Inputs.rd {B : ℕ} (i : Inputs B) : RdInputs B where
  rdReqValid := i.memReqValid
  rdReqAddr := i.memReqAddr
  rdReqLines := i.memReqLines
  mAxiArready := i.mAxiArready
  mAxiRdata := i.mAxiRdata
  mAxiRvalid := i.mAxiRvalid
  mAxiRlast := i.mAxiRlast

def Inputs.wr {B : ℕ} (i : Inputs B) : WrInputs where
  wrReqValid := i.memReqValid
  wrReqAddr := i.memReqAddr
  wrReqLines := i.memReqLines
  wrWline := i.memWline
  mAxiAwready := i.mAxiAwready
  mAxiWready := i.mAxiWready
  mAxiBvalid := i.mAxiBvalid

variable {B : ℕ} {TIMEOUT_LIMIT : BitVec 16} {s : Regs} {i : Inputs B}

namespace Regs

/-- The adapter is at a read, or at a write, or takes one up. -/
def Reads (s : Regs) (i : Inputs B) : Prop :=
  match s.state with
  | .IDLE => i.memReqValid ∧ i.memReqWrite = false
  | .READ_ADDR | .READ_DATA => s.savedWrite = false
  | _ => False

def Writes (s : Regs) (i : Inputs B) : Prop :=
  match s.state with
  | .IDLE => i.memReqValid ∧ i.memReqWrite
  | .WRITE_ADDR | .WRITE_DATA | .WRITE_RESP => s.savedWrite
  | _ => False

/-- A read goes on as in the read engine. -/
theorem readEngine_next (h : s.Reads i) :
    (s.next TIMEOUT_LIMIT i).readEngine = s.readEngine.next TIMEOUT_LIMIT i.rd := by
  cases hst : s.state with
  | IDLE =>
    simp only [Reads, hst] at h
    -- A fresh request starts at line 0, one that is offered again keeps its count.
    cases hr : s.retrying <;>
      simp +decide [next, readEngine, RdRegs.next, RdRegs.rdTimeout, RdRegs.rdEligible,
        RdRegs.rdNext, RdRegs.rdStart,
        RdRegs.rdTake, RdRegs.rdLineEnd, Inputs.rd, timeout, timeoutEligible, nextState, start,
        readTake, writeTake, readLineEnd, writeLineEnd, writeEarly, mAxiRready, hst, h, hr] <;>
      rfl
  | READ_ADDR =>
    simp only [Reads, hst] at h
    -- While the address waits, only the watchdog or ARREADY can move the engine.
    rcases Decidable.em (TIMEOUT_LIMIT ≤ s.timeoutCnt) with ht | ht <;> cases ha : i.mAxiArready <;>
      simp +decide [next, readEngine, RdRegs.next, RdRegs.rdTimeout, RdRegs.rdEligible,
        RdRegs.rdNext, RdRegs.rdStart,
        RdRegs.rdTake, RdRegs.rdLineEnd, RdRegs.rdProgress, RdRegs.mAxiArvalid, RdRegs.mAxiRready,
        Inputs.rd, timeout,
        timeoutEligible, writeDoneBarBresp, nextState, start, readTake, writeTake,
        readLineEnd, writeLineEnd,
        writeEarly, axiProgress, mAxiArvalid, mAxiRready, mAxiAwvalid, mAxiWvalid, mAxiBready,
        hst, h, ht, ha] <;>
      rfl
  | READ_DATA =>
    simp only [Reads, hst] at h
    -- A beat, its last flag and the watchdog decide where the data phase goes.
    rcases Decidable.em (TIMEOUT_LIMIT ≤ s.timeoutCnt) with ht | ht <;> cases hv :
      i.mAxiRvalid <;> cases hl : i.mAxiRlast <;>
      simp +decide [next, readEngine, RdRegs.next, RdRegs.rdTimeout, RdRegs.rdEligible,
        RdRegs.rdNext, RdRegs.rdStart,
        RdRegs.rdTake, RdRegs.rdLineEnd, RdRegs.rdProgress, RdRegs.mAxiArvalid, RdRegs.mAxiRready,
        Inputs.rd, timeout,
        timeoutEligible, writeDoneBarBresp, nextState, start, readTake, writeTake,
        readLineEnd, writeLineEnd,
        writeEarly, axiProgress, mAxiArvalid, mAxiRready, mAxiAwvalid, mAxiWvalid, mAxiBready,
        hst, h, ht, hv, hl]
  | _ => simp [Reads, hst] at h

/-- A write goes on as in the write engine. -/
theorem writeEngine_next (h : s.Writes i) :
    (s.next TIMEOUT_LIMIT i).writeEngine = s.writeEngine.next B TIMEOUT_LIMIT i.wr := by
  cases hst : s.state with
  | IDLE =>
    simp only [Writes, hst] at h
    cases hr : s.retrying <;>
      simp +decide [next, writeEngine, WrRegs.next, WrRegs.wrTimeout, WrRegs.wrEligible,
        WrRegs.wrNextS, WrRegs.wrStart,
        WrRegs.wrTake, WrRegs.wrLineEnd, WrRegs.wrEarly, WrRegs.wrBrespOnly, Inputs.wr,
        timeout, timeoutEligible,
        nextState, start, readTake, writeTake, readLineEnd, writeLineEnd, writeEarly, hst, h, hr] <;>
      rfl
  | WRITE_ADDR =>
    simp only [Writes, hst] at h
    rcases Decidable.em (TIMEOUT_LIMIT ≤ s.timeoutCnt) with ht | ht <;> cases ha : i.mAxiAwready <;>
      simp +decide [next, writeEngine, WrRegs.next, WrRegs.wrTimeout, WrRegs.wrEligible,
        WrRegs.wrNextS, WrRegs.wrStart,
        WrRegs.wrTake, WrRegs.wrLineEnd, WrRegs.wrEarly, WrRegs.wrBrespOnly, WrRegs.wrProgress,
        WrRegs.mAxiAwvalid,
        WrRegs.mAxiWvalid, WrRegs.mAxiBready, Inputs.wr, timeout, timeoutEligible,
        writeDoneBarBresp, nextState,
        start, readTake, writeTake, readLineEnd, writeLineEnd, writeEarly, axiProgress,
        mAxiArvalid, mAxiRready, mAxiAwvalid, mAxiWvalid, mAxiBready, hst, h, ht, ha] <;>
      rfl
  | WRITE_DATA =>
    simp only [Writes, hst] at h
    -- The beat counter is left symbolic here, so the line end stays a condition of both sides.
    rcases Decidable.em (TIMEOUT_LIMIT ≤ s.timeoutCnt) with ht | ht <;> cases hw : i.mAxiWready <;>
      simp +decide [next, writeEngine, WrRegs.next, WrRegs.wrTimeout, WrRegs.wrEligible,
        WrRegs.wrNextS, WrRegs.wrStart,
        WrRegs.wrTake, WrRegs.wrLineEnd, WrRegs.wrEarly, WrRegs.wrBrespOnly, WrRegs.wrProgress,
        WrRegs.mAxiAwvalid,
        WrRegs.mAxiWvalid, WrRegs.mAxiBready, WrRegs.mAxiWlast, Inputs.wr, timeout, timeoutEligible,
        writeDoneBarBresp, nextState, start, readTake, writeTake, readLineEnd, writeLineEnd,
        writeEarly, axiProgress,
        mAxiArvalid, mAxiRready, mAxiAwvalid, mAxiWvalid, mAxiBready, mAxiWlast, hst, h, ht, hw]
    split_ifs <;> rfl
  | WRITE_RESP =>
    simp only [Writes, hst] at h
    -- With all lines sent, a timeout completes the write instead of offering it again.
    rcases Decidable.em (TIMEOUT_LIMIT ≤ s.timeoutCnt) with ht | ht <;>
      rcases Decidable.em (s.savedLines ≤ s.lineSent) with hd | hd <;> cases hb : i.mAxiBvalid <;>
      simp +decide [next, writeEngine, WrRegs.next, WrRegs.wrTimeout, WrRegs.wrEligible,
        WrRegs.wrNextS, WrRegs.wrStart,
        WrRegs.wrTake, WrRegs.wrLineEnd, WrRegs.wrEarly, WrRegs.wrBrespOnly, WrRegs.wrProgress,
        WrRegs.mAxiAwvalid,
        WrRegs.mAxiWvalid, WrRegs.mAxiBready, Inputs.wr, timeout, timeoutEligible,
        writeDoneBarBresp, nextState,
        start, readTake, writeTake, readLineEnd, writeLineEnd, writeEarly, axiProgress,
        mAxiArvalid, mAxiRready, mAxiAwvalid, mAxiWvalid, mAxiBready, hst, h, ht, hd, hb] <;>
      rfl
  | _ => simp [Writes, hst] at h

/-! ## The states -/

/-- No line of a read ends outside `READ_DATA`. -/
theorem readLineEnd_eq_false (h : s.state ≠ .READ_DATA) : s.readLineEnd i = false := by
  simp [readLineEnd, readTake, h]

/-- Without a timeout nothing is to be resumed. -/
theorem next_of_no_timeout (ht : s.timeout TIMEOUT_LIMIT = false) (hret : s.retrying = false)
    (hhold : s.resumeHold = false) :
    (s.next TIMEOUT_LIMIT i).retrying = false ∧ (s.next TIMEOUT_LIMIT i).resumeHold = false ∧
      (s.next TIMEOUT_LIMIT i).memWnext = s.writeEarly i := by
  simp [next, ht, hret, hhold]

/-- A line is asked for in `WRITE_DATA` only. -/
theorem writeEarly_eq_false (h : s.state ≠ .WRITE_DATA) : s.writeEarly i = false := by
  simp [writeEarly, writeTake, h]

/-- A step of a read: it is taken up, abandoned, offered, or under way. -/
theorem read_cases (TIMEOUT_LIMIT : BitVec 16) (h : s.Reads i) :
    (s.state = .IDLE ∧ (s.next TIMEOUT_LIMIT i).state = .READ_ADDR ∧
      (s.next TIMEOUT_LIMIT i).savedWrite = false ∧
      (s.next TIMEOUT_LIMIT i).lineReady = false ∧
      (s.next TIMEOUT_LIMIT i).lineSent = if s.retrying then s.lineSent else 0) ∨
    (s.timeout TIMEOUT_LIMIT ∧ s.savedWrite = false ∧ (s.next TIMEOUT_LIMIT i).state = .IDLE ∧
      (s.next TIMEOUT_LIMIT i).lineReady = false ∧ (s.next TIMEOUT_LIMIT i).lineSent = s.lineSent) ∨
    (s.state = .READ_ADDR ∧
      ((s.next TIMEOUT_LIMIT i).state = .READ_ADDR ∨ (s.next TIMEOUT_LIMIT i).state = .READ_DATA) ∧
      (s.next TIMEOUT_LIMIT i).savedWrite = false ∧ (s.next TIMEOUT_LIMIT i).lineReady = false ∧
      (s.next TIMEOUT_LIMIT i).lineSent = s.lineSent) ∨
    (s.state = .READ_DATA ∧
      ((s.next TIMEOUT_LIMIT i).state = .READ_DATA ∨ (s.next TIMEOUT_LIMIT i).state = .DONE) ∧
      (s.next TIMEOUT_LIMIT i).savedWrite = false) := by
  cases ht : s.timeout TIMEOUT_LIMIT with
  | true =>
    -- Given up: a read never takes the branch for a missing write response.
    have hb : s.writeDoneBarBresp = false := by
      cases hst : s.state <;> simp_all [Reads, writeDoneBarBresp]
    have hsw : s.savedWrite = false := by
      cases hst : s.state <;> simp_all [Reads, timeout, timeoutEligible]
    exact .inr (.inl ⟨rfl, hsw, by simp [next, ht, hb], by simp [next, ht, hb], by simp [next, ht, hb]⟩)
  | false =>
    cases hst : s.state with
    | IDLE =>
      simp only [Reads, hst] at h
      refine .inl ⟨rfl, ?_⟩
      cases hr : s.retrying <;>
        simp [next, ht, nextState, start, readLineEnd, readTake, writeLineEnd, writeTake, hst, h, hr]
    | READ_ADDR =>
      simp only [Reads, hst] at h
      refine .inr (.inr (.inl ⟨rfl, ?_⟩))
      cases ha : i.mAxiArready <;>
        simp [next, ht, nextState, start, readLineEnd, readTake, writeLineEnd, writeTake,
          mAxiArvalid, hst, h, ha]
    | READ_DATA =>
      simp only [Reads, hst] at h
      refine .inr (.inr (.inr ⟨rfl, ?_, by simp [next, ht, start, hst, h]⟩))
      -- The data phase ends or goes on; which of the two is left to the caller.
      have hn : (s.next TIMEOUT_LIMIT i).state = s.nextState i := by simp [next, ht]
      rw [hn]
      simp only [nextState, hst]
      split_ifs
      · exact .inr rfl
      · exact .inl rfl
    | _ => simp [Reads, hst] at h

/-- A step of a write: it is abandoned, or under way. -/
theorem write_cases (TIMEOUT_LIMIT : BitVec 16) (h : s.Writes i)
    (hret : s.state ≠ .IDLE → s.retrying = false) :
    (s.next TIMEOUT_LIMIT i).lineReady = false ∧
      ((s.next TIMEOUT_LIMIT i).state = .IDLE ∨
        ((s.next TIMEOUT_LIMIT i).state = .WRITE_ADDR ∨ (s.next TIMEOUT_LIMIT i).state = .WRITE_DATA ∨
          (s.next TIMEOUT_LIMIT i).state = .WRITE_RESP ∨ (s.next TIMEOUT_LIMIT i).state = .DONE) ∧
        (s.next TIMEOUT_LIMIT i).savedWrite ∧ (s.next TIMEOUT_LIMIT i).retrying = false) := by
  have hready : s.readLineEnd i = false := readLineEnd_eq_false fun hst => by simp [Writes, hst] at h
  cases ht : s.timeout TIMEOUT_LIMIT with
  | true =>
    -- Given up: back to IDLE, or done when only the response was missing.
    cases hb : s.writeDoneBarBresp with
    | false => exact ⟨by simp [next, ht, hb], .inl (by simp [next, ht, hb])⟩
    | true =>
      obtain ⟨hst, hsw⟩ : s.state = .WRITE_RESP ∧ s.savedWrite = true := by
        simp only [writeDoneBarBresp, Bool.and_eq_true, beq_iff_eq] at hb
        exact hb.1
      simp [next, ht, hb, hsw, hret (by simp [hst])]
  | false =>
    have hn : (s.next TIMEOUT_LIMIT i).state = s.nextState i := by simp [next, ht]
    refine ⟨by simp [next, ht, hready], .inr ?_⟩
    rw [hn]
    cases hst : s.state with
    | IDLE =>
      simp only [Writes, hst] at h
      simp [next, ht, nextState, start, hst, h]
    | WRITE_ADDR =>
      simp only [Writes, hst] at h
      refine ⟨?_, by simp [next, ht, start, hst, h], by simp [next, ht, start, hst, hret]⟩
      simp only [nextState, hst]
      split_ifs
      · exact .inr (.inl rfl)
      · exact .inl rfl
    | WRITE_DATA =>
      simp only [Writes, hst] at h
      refine ⟨?_, by simp [next, ht, start, hst, h], by simp [next, ht, start, hst, hret]⟩
      simp only [nextState, hst]
      split_ifs
      · exact .inr (.inr (.inl rfl))
      · exact .inr (.inl rfl)
    | WRITE_RESP =>
      simp only [Writes, hst] at h
      refine ⟨?_, by simp [next, ht, start, hst, h], by simp [next, ht, start, hst, hret]⟩
      simp only [nextState, hst]
      split_ifs
      · exact .inr (.inr (.inr rfl))
      · exact .inr (.inr (.inl rfl))
    | _ => simp [Writes, hst] at h

end Regs

end CacheAdapter

end Rv32Soc
