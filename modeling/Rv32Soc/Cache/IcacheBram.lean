import Rv32Soc.Lib.Circuit
import Rv32Soc.Lib.Geometry

/-!
# The BRAM-backed instruction cache

`icache_bram.v`: a direct-mapped, read-only cache of `2 ^ IDX` sets. A fetch is two
halfwords and may start on any halfword, so its halves may fall in different
words, and in different lines. Each line is split by halfword parity over the
banks `datEven` and `datOdd`, whose rows are read at independent indices, and the
tags are kept twice, to be read for the line of the fetch (`tagA`) and for that
of its second half (`tagB`).

As in the data cache the arrays are addressed one cycle early, by `fetchAddrNext`,
and `specOk` checks the speculation. An edge takes what the array reads returned
as a parameter (`Reads`): a read of an entry that the edge writes may return
anything (`collidingReads`). `overMemory` is the cache over a line memory, driven by
arbitrary fetches and speculations.
-/

namespace Rv32Soc

namespace IcacheBram

/-- The states of the refill FSM. -/
inductive FsmState
  | S_INIT
  | S_IDLE
  | S_FILL
  | S_RECHECK
  deriving DecidableEq, Repr

/-- An entry of a tag array, `{valid, tag}`. -/
structure TagV (IDX : ℕ) where
  valid : Bool
  tag : BitVec (28 - IDX)
  deriving DecidableEq

/-- What the array reads of an edge return. -/
structure Reads (IDX : ℕ) where
  even : BitVec 64
  odd : BitVec 64
  tagA : TagV IDX
  tagB : TagV IDX

/-- The registers and the arrays. -/
structure Regs (IDX : ℕ) where
  datEven : BitVec IDX → BitVec 64
  datOdd : BitVec IDX → BitVec 64
  tagA : BitVec IDX → TagV IDX
  tagB : BitVec IDX → TagV IDX
  state : FsmState
  sweepCnt : BitVec IDX
  missAddrQ : Word
  qEven : BitVec 64
  qOdd : BitVec 64
  qTagA : TagV IDX
  qTagB : TagV IDX
  qEsel : BitVec 2
  qOsel : BitVec 2
  qUnal : Bool
  qA : Word

/-- The input ports. -/
structure Inputs where
  fetchValid : Bool
  fetchAddr : Word
  fetchAddrNext : Word
  memRline : Line
  memReady : Bool

def RESET_PC : Word := 0x40000000

/-! ## Array addresses -/

section Addressing

variable (IDX : ℕ) (a : Word)

/-- The word of an address, within the cache. -/
def word : BitVec (IDX + 2) := a.extractLsb' 2 (IDX + 2)

/-- The word the even half comes from: the next one when the fetch starts on an odd half. -/
def eword : BitVec (IDX + 2) := word IDX a + (a.extractLsb' 1 1).setWidth (IDX + 2)

def erow : BitVec IDX := (eword IDX a).extractLsb' 2 IDX
def esel : BitVec 2 := (eword IDX a).extractLsb' 0 2
def osel : BitVec 2 := (word IDX a).extractLsb' 0 2
def idxA : BitVec IDX := idxOf IDX a
def orow : BitVec IDX := idxA IDX a

/-- The address is that of the last halfword of its line: `&a[3:1]`. -/
def crossN : Bool := a.extractLsb' 1 3 == 7

def idxB : BitVec IDX := idxA IDX a + (BitVec.ofBool (crossN a)).setWidth IDX

end Addressing

/-- The even halfwords of a line, as a row of `datEven`. -/
def wdEven (l : Line) : BitVec 64 :=
  l.extractLsb' (3 * 32) 16 ++ l.extractLsb' (2 * 32) 16 ++ l.extractLsb' (1 * 32) 16 ++
    l.extractLsb' (0 * 32) 16

/-- The odd halfwords of a line, as a row of `datOdd`. -/
def wdOdd (l : Line) : BitVec 64 :=
  l.extractLsb' (3 * 32 + 16) 16 ++ l.extractLsb' (2 * 32 + 16) 16 ++
    l.extractLsb' (1 * 32 + 16) 16 ++ l.extractLsb' (0 * 32 + 16) 16

/-- The halfword `k` of a row. -/
def rowHalf (row : BitVec 64) (k : BitVec 2) : Half := row.extractLsb' (16 * k.toNat) 16

variable {IDX : ℕ}

namespace Regs

variable (s : Regs IDX) (i : Inputs)

/-! ## Write ports -/

def wrEn : Bool := s.state == .S_FILL && i.memReady
def wrIdx : BitVec IDX := idxOf IDX s.missAddrQ
def wrTag : BitVec (28 - IDX) := tagOf IDX s.missAddrQ
def initEn : Bool := s.state == .S_INIT
def tagWe : Bool := s.initEn || s.wrEn i
def tagWaddr : BitVec IDX := if s.initEn then s.sweepCnt else s.wrIdx
def tagWdata : TagV IDX := if s.initEn then ⟨false, 0⟩ else ⟨true, s.wrTag⟩

/-! ## Stitching and hits -/

def he : Half := rowHalf s.qEven s.qEsel
def ho : Half := rowHalf s.qOdd s.qOsel
def fetchRdata : Word := if s.qUnal then s.he ++ s.ho else s.ho ++ s.he

def hitA : Bool := s.qTagA.valid && s.qTagA.tag == tagOf IDX i.fetchAddr
def hitB : Bool := s.qTagB.valid && s.qTagB.tag == tagOf IDX (i.fetchAddr + 2)

/-- The address speculated last cycle has the set and the halfword of the one fetched now. -/
def specOk : Bool := s.qA.extractLsb' 1 (IDX + 3) == i.fetchAddr.extractLsb' 1 (IDX + 3)

def fetchReady : Bool :=
  s.state == .S_IDLE && i.fetchValid && s.specOk i && s.hitA i && (!crossN i.fetchAddr || s.hitB i)

def lineA : Word := i.fetchAddr.extractLsb' 4 28 ++ 0#4
def lineB : Word := (i.fetchAddr + 2).extractLsb' 4 28 ++ 0#4
def missAddr : Word := if !s.hitA i then lineA i else lineB i

def memReqValid : Bool := s.state == .S_FILL
def memReqAddr : Word := s.missAddrQ

/-! ## The clock edge -/

/-- The FSM state after the edge. -/
def nextState : FsmState :=
  match s.state with
  | .S_INIT => if s.sweepCnt = BitVec.allOnes IDX then .S_RECHECK else .S_INIT
  | .S_IDLE =>
    if i.fetchValid && !s.fetchReady i then if !s.specOk i then .S_RECHECK else .S_FILL
    else .S_IDLE
  | .S_FILL => if i.memReady then .S_RECHECK else .S_FILL
  | .S_RECHECK => .S_IDLE

/-- A miss is detected: the speculation was right, and a line is missing. -/
def missed : Bool := s.state == .S_IDLE && i.fetchValid && !s.fetchReady i && s.specOk i

/-- The registers after an edge on which the array reads returned `r`. -/
def edge (r : Reads IDX) : Regs IDX where
  datEven x := if s.wrEn i && x == s.wrIdx then wdEven i.memRline else s.datEven x
  datOdd x := if s.wrEn i && x == s.wrIdx then wdOdd i.memRline else s.datOdd x
  tagA x := if s.tagWe i && x == s.tagWaddr then s.tagWdata else s.tagA x
  tagB x := if s.tagWe i && x == s.tagWaddr then s.tagWdata else s.tagB x
  state := s.nextState i
  sweepCnt := if s.state == .S_INIT then s.sweepCnt + 1 else s.sweepCnt
  missAddrQ := if s.missed i then s.missAddr i else s.missAddrQ
  qEven := r.even
  qOdd := r.odd
  qTagA := r.tagA
  qTagB := r.tagB
  qEsel := esel IDX i.fetchAddrNext
  qOsel := osel IDX i.fetchAddrNext
  qUnal := i.fetchAddrNext.getLsbD 1
  qA := i.fetchAddrNext

/-- The array reads when one of an entry being written returns what `r` says. -/
def collidingReads (r : Reads IDX) : Reads IDX where
  even := if s.wrEn i ∧ s.wrIdx = erow IDX i.fetchAddrNext then r.even
    else s.datEven (erow IDX i.fetchAddrNext)
  odd := if s.wrEn i ∧ s.wrIdx = orow IDX i.fetchAddrNext then r.odd
    else s.datOdd (orow IDX i.fetchAddrNext)
  tagA := if s.tagWe i ∧ s.tagWaddr = idxA IDX i.fetchAddrNext then r.tagA
    else s.tagA (idxA IDX i.fetchAddrNext)
  tagB := if s.tagWe i ∧ s.tagWaddr = idxB IDX i.fetchAddrNext then r.tagB
    else s.tagB (idxB IDX i.fetchAddrNext)

/-- The registers a reset leaves; the arrays and their outputs keep what they held. -/
def IsReset : Prop :=
  s.state = .S_INIT ∧ s.sweepCnt = 0 ∧ s.missAddrQ = 0 ∧ s.qEsel = 0 ∧ s.qOsel = 0 ∧
    s.qUnal = false ∧ s.qA = RESET_PC

end Regs

/-- The cache over a read-only line memory `m` of arbitrary latency: the fetch
    address, the speculated one and what colliding reads return are arbitrary. -/
def overMemory (IDX : ℕ) (m : Mem) : Circuit (Regs IDX) (Inputs × Reads IDX) where
  init := {s | s.IsReset}
  admits s i := s.memReqValid = true → i.1.memReady = true → i.1.memRline = m.line s.memReqAddr
  next s i := s.edge i.1 (s.collidingReads i.1 i.2)

end IcacheBram

end Rv32Soc
