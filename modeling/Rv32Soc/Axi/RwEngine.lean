import Rv32Soc.Lib.Burst

/-!
# The read and write engines

`axi_rw_engine.v`: a read engine and a write engine over one AXI4 master. They
touch disjoint channels and share nothing, so each is a circuit of its own. A line
of 16 bytes is moved in `B` beats (`BEATS_PER_LINE`: 4, 2 or 1 on a bus of 32, 64
or 128 bits), and a request of several lines in one INCR burst.

A transaction on which the slave makes no progress for `TIMEOUT_LIMIT` cycles is
abandoned and resumed after the lines already moved. The engine asks the requester
of a multi-line write for its next line one beat early, by `wrNext`; the line being
sent is kept in `wlineHold` meanwhile.
-/

namespace Rv32Soc

namespace AxiRw

/-- A beat of a bus that moves a line in `B` beats. -/
abbrev Beat (B : ℕ) := BitVec (8 * (16 / B))

/-- The length field of the burst of `n` lines. -/
theorem toNat_burstLen {B n : ℕ} {x : BitVec 8} (hx : x.toNat = n) (hB : 0 < B) (hn : 0 < n)
    (hlen : B * n ≤ 256) :
    ((x.setWidth 32 * BitVec.ofNat 32 B - 1).setWidth 8).toNat + 1 = B * n := by
  have hmul : 0 < B * n := Nat.mul_pos hB hn
  have hB256 : B ≤ 256 := Nat.le_trans (Nat.le_mul_of_pos_right B hn) hlen
  have hn255 : n ≤ 255 := hx ▸ Nat.lt_succ_iff.1 x.isLt
  rw [BitVec.toNat_setWidth, BitVec.toNat_sub, BitVec.toNat_mul, BitVec.toNat_setWidth,
    BitVec.toNat_ofNat, hx, Nat.mod_eq_of_lt (by omega : n < 2 ^ 32),
    Nat.mod_eq_of_lt (by omega : B < 2 ^ 32), Nat.mul_comm n B,
    Nat.mod_eq_of_lt (by omega : B * n < 2 ^ 32), show (1 : BitVec 32).toNat = 1 from rfl]
  omega

/-! ## The read engine -/

inductive RdState
  | RD_IDLE
  | RD_ADDR
  | RD_DATA
  | RD_DONE
  deriving DecidableEq, Repr

structure RdRegs where
  rdState : RdState
  rdBeat : BitVec 8
  rdDoneLines : BitVec 8
  rdAddrS : Word
  rdLinesS : BitVec 8
  rdRline : Line
  rdReady : Bool
  rdRetrying : Bool
  rdTmo : BitVec 16
  rdRetries : BitVec 16
  rdServed : Bool

structure RdInputs (B : ℕ) where
  rdReqValid : Bool
  rdReqAddr : Word
  rdReqLines : BitVec 8
  mAxiArready : Bool
  mAxiRdata : Beat B
  mAxiRvalid : Bool
  mAxiRlast : Bool

namespace RdRegs

variable {B : ℕ} (TIMEOUT_LIMIT : BitVec 16) (s : RdRegs) (i : RdInputs B)

def rdBase : Word := lineBase s.rdAddrS + s.rdDoneLines.setWidth 32 <<< 4

def rdRemaining : BitVec 8 := if s.rdDoneLines < s.rdLinesS then s.rdLinesS - s.rdDoneLines else 1

def mAxiAraddr : Word := s.rdBase
def mAxiArlen (B : ℕ) : BitVec 8 := (s.rdRemaining.setWidth 32 * BitVec.ofNat 32 B - 1).setWidth 8
def mAxiArvalid : Bool := s.rdState == .RD_ADDR
def mAxiRready : Bool := s.rdState == .RD_DATA

def rdEligible : Bool := s.rdState != .RD_IDLE && s.rdState != .RD_DONE

def rdProgress : Bool :=
  (s.mAxiArvalid && i.mAxiArready) || (i.mAxiRvalid && s.mAxiRready)

/-- The transaction is abandoned on this edge. -/
def rdTimeout : Bool := s.rdEligible && TIMEOUT_LIMIT ≤ s.rdTmo

def rdNext : RdState :=
  match s.rdState with
  | .RD_IDLE => if i.rdReqValid && !s.rdServed then .RD_ADDR else .RD_IDLE
  | .RD_ADDR => if s.mAxiArvalid && i.mAxiArready then .RD_DATA else .RD_ADDR
  | .RD_DATA => if i.mAxiRvalid && s.mAxiRready && i.mAxiRlast then .RD_DONE else .RD_DATA
  | .RD_DONE => .RD_IDLE

/-- A request is taken up, or resumed. -/
def rdStart : Bool := s.rdState == .RD_IDLE && i.rdReqValid && !s.rdServed

/-- A beat is taken. -/
def rdTake : Bool := s.rdState == .RD_DATA && i.mAxiRvalid && s.mAxiRready

/-- The beat taken is the last one of its line. -/
def rdLineEnd : Bool := s.rdTake i && s.rdBeat.toNat + 1 == B

/-- The registers after an edge. -/
def next : RdRegs :=
  if s.rdTimeout TIMEOUT_LIMIT then
    { s with
      rdState := .RD_IDLE
      rdBeat := 0
      rdTmo := 0
      rdRetries := s.rdRetries + 1
      rdRetrying := true
      rdReady := false }
  else
    { rdState := s.rdNext i
      rdBeat :=
        if s.rdStart i then 0
        else if s.rdTake i then if s.rdBeat.toNat + 1 == B then 0 else s.rdBeat + 1
        else if s.rdState == .RD_DONE then 0
        else s.rdBeat
      rdDoneLines :=
        if s.rdStart i && !s.rdRetrying then 0
        else if s.rdLineEnd i then s.rdDoneLines + 1
        else s.rdDoneLines
      rdAddrS := if s.rdStart i then i.rdReqAddr else s.rdAddrS
      rdLinesS :=
        if s.rdStart i then if i.rdReqLines = 0 then 1 else i.rdReqLines else s.rdLinesS
      rdRline := if s.rdTake i then setLinePart (16 / B) s.rdRline s.rdBeat.toNat i.mAxiRdata
        else s.rdRline
      rdReady := s.rdLineEnd i
      rdRetrying := if s.rdStart i then false else s.rdRetrying
      rdTmo := if s.rdEligible then if s.rdProgress i then 0 else s.rdTmo + 1 else 0
      rdRetries := s.rdRetries
      rdServed :=
        if s.rdState == .RD_DONE then true else if !i.rdReqValid then false else s.rdServed }

def IsReset : Prop :=
  s.rdState = .RD_IDLE ∧ s.rdBeat = 0 ∧ s.rdDoneLines = 0 ∧ s.rdAddrS = 0 ∧ s.rdLinesS = 1 ∧
    s.rdReady = false ∧ s.rdRline = 0 ∧ s.rdRetrying = false ∧ s.rdTmo = 0 ∧ s.rdRetries = 0 ∧
    s.rdServed = false

variable {s TIMEOUT_LIMIT i}

variable (s TIMEOUT_LIMIT i) in
theorem rdTmo_next : (s.next TIMEOUT_LIMIT i).rdTmo =
    if s.rdTimeout TIMEOUT_LIMIT then 0
    else if s.rdEligible then if s.rdProgress i then 0 else s.rdTmo + 1 else 0 := by
  rw [next]
  cases s.rdTimeout TIMEOUT_LIMIT <;> rfl

/-- A slave that answers keeps the watchdog at rest. -/
theorem rdTmo_next_of_ready (har : i.mAxiArready = true) (hr : s.rdState = .RD_DATA →
    i.mAxiRvalid = true) :
    (s.next TIMEOUT_LIMIT i).rdTmo = 0 := by
  have hprog : s.rdEligible = true → s.rdProgress i = true := by
    cases hst : s.rdState with
    | RD_IDLE | RD_DONE => simp [rdEligible, hst]
    | RD_ADDR => simp [rdProgress, mAxiArvalid, hst, har]
    | RD_DATA => simp [rdProgress, mAxiRready, hst, hr hst]
  rw [rdTmo_next]
  split_ifs with ht he hp
  · rfl
  · rfl
  · exact absurd (hprog he) hp
  · rfl

end RdRegs

/-! ## The write engine -/

inductive WrState
  | WR_IDLE
  | WR_ADDR
  | WR_DATA
  | WR_RESP
  | WR_DONE
  deriving DecidableEq, Repr

structure WrRegs where
  wrState : WrState
  wrBeat : BitVec 8
  wrSent : BitVec 8
  wrAddrS : Word
  wrLinesS : BitVec 8
  wlineHold : Line
  wlineFirst : Line
  wrNext : Bool
  wrRetrying : Bool
  wrFifoAhead : Bool
  wrResumeHold : Bool
  wrTmo : BitVec 16
  wrRetries : BitVec 16
  wrServed : Bool

structure WrInputs where
  wrReqValid : Bool
  wrReqAddr : Word
  wrReqLines : BitVec 8
  wrWline : Line
  mAxiAwready : Bool
  mAxiWready : Bool
  mAxiBvalid : Bool

namespace WrRegs

variable (B : ℕ) (TIMEOUT_LIMIT : BitVec 16) (s : WrRegs) (i : WrInputs)

def wrBase : Word := lineBase s.wrAddrS + s.wrSent.setWidth 32 <<< 4

def wrRemaining : BitVec 8 := if s.wrSent < s.wrLinesS then s.wrLinesS - s.wrSent else 1

def mAxiAwaddr : Word := s.wrBase
def mAxiAwlen : BitVec 8 := (s.wrRemaining.setWidth 32 * BitVec.ofNat 32 B - 1).setWidth 8
def mAxiAwvalid : Bool := s.wrState == .WR_ADDR
def mAxiWvalid : Bool := s.wrState == .WR_DATA
def mAxiBready : Bool := s.wrState == .WR_RESP

def mAxiWdata : Beat B :=
  if s.wrLinesS = 1 then linePart (16 / B) s.wlineFirst s.wrBeat.toNat
  else if s.wrResumeHold then linePart (16 / B) s.wlineHold s.wrBeat.toNat
  else if s.wrBeat = 0 then linePart (16 / B) i.wrWline s.wrBeat.toNat
  else linePart (16 / B) s.wlineHold s.wrBeat.toNat

def mAxiWlast : Bool := s.wrBeat.toNat + 1 == B && s.wrSent == s.wrLinesS - 1

def wrReady : Bool := s.wrState == .WR_DONE

def wrEligible : Bool := s.wrState != .WR_IDLE && s.wrState != .WR_DONE

def wrProgress : Bool :=
  (s.mAxiAwvalid && i.mAxiAwready) || (s.mAxiWvalid && i.mAxiWready) ||
    (i.mAxiBvalid && s.mAxiBready)

/-- All the data is accepted, and only the response is missing. -/
def wrBrespOnly : Bool := s.wrState == .WR_RESP && s.wrLinesS ≤ s.wrSent

/-- The transaction is given up on this edge. -/
def wrTimeout : Bool := s.wrEligible && TIMEOUT_LIMIT ≤ s.wrTmo

def wrNextS : WrState :=
  match s.wrState with
  | .WR_IDLE => if i.wrReqValid && !s.wrServed then .WR_ADDR else .WR_IDLE
  | .WR_ADDR => if s.mAxiAwvalid && i.mAxiAwready then .WR_DATA else .WR_ADDR
  | .WR_DATA => if s.mAxiWvalid && i.mAxiWready && s.mAxiWlast B then .WR_RESP else .WR_DATA
  | .WR_RESP => if i.mAxiBvalid && s.mAxiBready then .WR_DONE else .WR_RESP
  | .WR_DONE => .WR_IDLE

/-- A request is taken up, or resumed. -/
def wrStart : Bool := s.wrState == .WR_IDLE && i.wrReqValid && !s.wrServed

/-- A beat is accepted. -/
def wrTake : Bool := s.wrState == .WR_DATA && s.mAxiWvalid && i.mAxiWready

/-- The beat accepted is the last one of its line. -/
def wrLineEnd : Bool := s.wrTake i && s.wrBeat.toNat + 1 == B

/-- The beat accepted is the last but one of its line, and another line follows. -/
def wrEarly : Bool := s.wrTake i && (s.wrBeat.toNat + 2 == B && s.wrSent + 1 < s.wrLinesS)

/-- The registers after an edge. -/
def next : WrRegs :=
  if s.wrTimeout TIMEOUT_LIMIT && s.wrBrespOnly then
    { s with
      wrState := .WR_DONE
      wrBeat := 0
      wrTmo := 0
      wrRetries := s.wrRetries + 1
      wrNext := false }
  else if s.wrTimeout TIMEOUT_LIMIT then
    { s with
      wrState := .WR_IDLE
      wrBeat := 0
      wrTmo := 0
      wrRetries := s.wrRetries + 1
      wrRetrying := true
      wrResumeHold := s.wrFifoAhead
      wrNext := false }
  else
    { wrState := s.wrNextS B i
      wrBeat :=
        if s.wrStart i then 0
        else if s.wrTake i then if s.wrBeat.toNat + 1 == B then 0 else s.wrBeat + 1
        else if s.wrState == .WR_DONE then 0
        else s.wrBeat
      wrSent :=
        if s.wrStart i && !s.wrRetrying then 0
        else if s.wrLineEnd B i then s.wrSent + 1
        else s.wrSent
      wrAddrS := if s.wrStart i then i.wrReqAddr else s.wrAddrS
      wrLinesS :=
        if s.wrStart i then if i.wrReqLines = 0 then 1 else i.wrReqLines else s.wrLinesS
      wlineHold :=
        if s.wrState == .WR_DATA && s.wrBeat == 0 && !s.wrResumeHold then i.wrWline else s.wlineHold
      wlineFirst := if s.wrStart i && !s.wrRetrying then i.wrWline else s.wlineFirst
      wrNext := s.wrEarly B i
      wrRetrying := if s.wrStart i then false else s.wrRetrying
      wrFifoAhead :=
        if s.wrStart i && !s.wrRetrying then false
        else if s.wrEarly B i then true
        else if s.wrLineEnd B i then false
        else s.wrFifoAhead
      wrResumeHold := if s.wrLineEnd B i then false else s.wrResumeHold
      wrTmo := if s.wrEligible then if s.wrProgress i then 0 else s.wrTmo + 1 else 0
      wrRetries := s.wrRetries
      wrServed :=
        if s.wrState == .WR_DONE then true else if !i.wrReqValid then false else s.wrServed }

def IsReset : Prop :=
  s.wrState = .WR_IDLE ∧ s.wrBeat = 0 ∧ s.wrSent = 0 ∧ s.wrAddrS = 0 ∧ s.wrLinesS = 1 ∧
    s.wlineHold = 0 ∧ s.wlineFirst = 0 ∧ s.wrNext = false ∧ s.wrRetrying = false ∧
    s.wrFifoAhead = false ∧ s.wrResumeHold = false ∧ s.wrTmo = 0 ∧ s.wrRetries = 0 ∧
    s.wrServed = false

variable {B s TIMEOUT_LIMIT i}

/-- A slave that accepts and acknowledges at once keeps the watchdog at rest. -/
theorem wrTmo_next_of_ready (haw : i.mAxiAwready = true) (hw : i.mAxiWready = true)
    (hb : i.mAxiBvalid = true) :
    (s.next B TIMEOUT_LIMIT i).wrTmo = 0 := by
  have hprog : s.wrEligible = true → s.wrProgress i = true := by
    cases hst : s.wrState <;>
      simp [wrEligible, wrProgress, mAxiAwvalid, mAxiWvalid, mAxiBready, hst, haw, hw, hb]
  have hnext : (s.next B TIMEOUT_LIMIT i).wrTmo =
      if s.wrTimeout TIMEOUT_LIMIT then 0
      else if s.wrEligible then if s.wrProgress i then 0 else s.wrTmo + 1 else 0 := by
    rw [next]
    cases s.wrTimeout TIMEOUT_LIMIT
    · rfl
    · cases s.wrBrespOnly <;> rfl
  rw [hnext]
  split_ifs with ht he hp
  · rfl
  · rfl
  · exact absurd (hprog he) hp
  · rfl

end WrRegs

end AxiRw

end Rv32Soc
