import Rv32Soc.Lib.Geometry

/-!
# The arbiter

`mem_arbiter_rw.v`: three requesters share the read channel, two of them the write
channel, and the two rotations share nothing. A grant copies the address and the
number of lines of the request; a read is released by the last of its lines, a write
by its one acknowledgement.

Whoever was granted last drops to the back, so that a request is overtaken at most
once by every other one: a grant to somebody else brings its turn nearer
(`RPort.wait_lt_of_rGrant`, `WPort.wait_lt_of_wGrant`).
-/

namespace Rv32Soc

namespace AxiRw

/-- The requesters of the read channel. -/
inductive RPort
  | D
  | I
  | A
  deriving DecidableEq, Repr

/-- The requesters of the write channel. -/
inductive WPort
  | D
  | A
  deriving DecidableEq, Repr

/-- The registers of the arbiter. `R_IDLE` and `W_IDLE` are `none`. -/
structure ArbRegs where
  rState : Option RPort
  rLast : RPort
  rAddr : Word
  rLines : BitVec 8
  rCount : BitVec 8
  wState : Option WPort
  wLastA : Bool
  wAddr : Word
  wLines : BitVec 8
  wLineLatched : Line

structure ArbInputs where
  icacheReqValid : Bool
  icacheReqAddr : Word
  dcacheReqValid : Bool
  dcacheReqWrite : Bool
  dcacheReqAddr : Word
  dcacheWline : Line
  accelRdReqValid : Bool
  accelRdReqAddr : Word
  accelRdReqLines : BitVec 8
  accelWrReqValid : Bool
  accelWrReqAddr : Word
  accelWrReqLines : BitVec 8
  accelWline : Line
  rdReady : Bool
  wrNext : Bool
  wrReady : Bool

namespace ArbRegs

variable (s : ArbRegs) (i : ArbInputs)

/-! ## The read side -/

/-- The requests to read. -/
def rReq (i : ArbInputs) : RPort → Bool
  | .D => i.dcacheReqValid && !i.dcacheReqWrite
  | .I => i.icacheReqValid
  | .A => i.accelRdReqValid

def rReqAddr (i : ArbInputs) : RPort → Word
  | .D => i.dcacheReqAddr
  | .I => i.icacheReqAddr
  | .A => i.accelRdReqAddr

def rReqLines (i : ArbInputs) : RPort → BitVec 8
  | .D | .I => 1
  | .A => if i.accelRdReqLines = 0 then 1 else i.accelRdReqLines

def rGrantD : Bool :=
  s.rState.isNone && rReq i .D &&
    match s.rLast with
    | .A => true
    | .I => !rReq i .A
    | .D => !rReq i .A && !rReq i .I

def rGrantI : Bool :=
  s.rState.isNone && rReq i .I && !s.rGrantD i &&
    match s.rLast with
    | .D => true
    | .A => !rReq i .D
    | .I => !rReq i .D && !rReq i .A

def rGrantA : Bool := s.rState.isNone && rReq i .A && !s.rGrantD i && !s.rGrantI i

def rGrant : Option RPort :=
  if s.rGrantD i then some .D
  else if s.rGrantI i then some .I
  else if s.rGrantA i then some .A
  else none

/-- The read served is over with this pulse of `rd_ready`. -/
def rRelease : Bool :=
  match s.rState with
  | none => false
  | some .D | some .I => i.rdReady
  | some .A => i.rdReady && s.rLines ≤ s.rCount + 1

/-! ## The write side -/

/-- The requests to write. -/
def wReq (i : ArbInputs) : WPort → Bool
  | .D => i.dcacheReqValid && i.dcacheReqWrite
  | .A => i.accelWrReqValid

def wReqAddr (i : ArbInputs) : WPort → Word
  | .D => i.dcacheReqAddr
  | .A => i.accelWrReqAddr

def wReqLines (i : ArbInputs) : WPort → BitVec 8
  | .D => 1
  | .A => if i.accelWrReqLines = 0 then 1 else i.accelWrReqLines

def wReqLine (i : ArbInputs) : WPort → Line
  | .D => i.dcacheWline
  | .A => i.accelWline

def wGrantD : Bool := s.wState.isNone && wReq i .D && (s.wLastA || !wReq i .A)
def wGrantA : Bool := s.wState.isNone && wReq i .A && !s.wGrantD i

def wGrant : Option WPort :=
  if s.wGrantD i then some .D else if s.wGrantA i then some .A else none

/-- The registers after an edge. -/
def next : ArbRegs where
  rState := if s.rState.isNone then s.rGrant i else if s.rRelease i then none else s.rState
  rLast := (s.rGrant i).getD s.rLast
  rAddr := ((s.rGrant i).map (rReqAddr i)).getD s.rAddr
  rLines := ((s.rGrant i).map (rReqLines i)).getD s.rLines
  rCount :=
    match s.rState with
    | none => 0
    | some .D | some .I => s.rCount
    | some .A => if i.rdReady then if s.rRelease i then 0 else s.rCount + 1 else s.rCount
  wState := if s.wState.isNone then s.wGrant i else if i.wrReady then none else s.wState
  wLastA := ((s.wGrant i).map (· == .A)).getD s.wLastA
  wAddr := ((s.wGrant i).map (wReqAddr i)).getD s.wAddr
  wLines := ((s.wGrant i).map (wReqLines i)).getD s.wLines
  wLineLatched := ((s.wGrant i).map (wReqLine i)).getD s.wLineLatched

def IsReset : Prop :=
  s.rState = none ∧ s.rLast = .D ∧ s.rAddr = 0 ∧ s.rLines = 1 ∧ s.rCount = 0 ∧
    s.wState = none ∧ s.wLastA = true ∧ s.wAddr = 0 ∧ s.wLines = 1 ∧ s.wLineLatched = 0

/-! ## The ports -/

def rdReqValid : Bool := s.rState.isSome
def rdReqAddr : Word := if s.rState.isSome then s.rAddr else 0
def rdReqLines : BitVec 8 := if s.rState.isSome then s.rLines else 1

def wrReqValid : Bool := s.wState.isSome
def wrReqAddr : Word := if s.wState.isSome then s.wAddr else 0
def wrReqLines : BitVec 8 := if s.wState.isSome then s.wLines else 1

/-- A write of several lines takes the line the accelerator presents now. -/
def wrWline : Line :=
  if s.wState = some .A && 1 < s.wLines then i.accelWline else s.wLineLatched

def icacheReady : Bool := s.rState = some .I && i.rdReady
def dcacheReady : Bool := (s.rState = some .D && i.rdReady) || (s.wState = some .D && i.wrReady)
def accelRdReady : Bool := s.rState = some .A && i.rdReady
def accelWrReady : Bool := s.wState = some .A && i.wrReady
def accelWnext : Bool := s.wState = some .A && i.wrNext

end ArbRegs

variable {s : ArbRegs} {i : ArbInputs}

/-! ## The rotations -/

/-- The grants until the turn of `p` when `l` was granted last. -/
def RPort.wait (l p : RPort) : ℕ :=
  match l, p with
  | .D, .I | .I, .A | .A, .D => 1
  | .D, .A | .I, .D | .A, .I => 2
  | .D, .D | .I, .I | .A, .A => 3

/-- The grants until the turn of `p`, when the accelerator went last or not. -/
def WPort.wait (lastA : Bool) (p : WPort) : ℕ := if (p == .A) = lastA then 2 else 1

theorem rGrant_of_busy {p : RPort} (h : s.rState = some p) : s.rGrant i = none := by
  simp [ArbRegs.rGrant, ArbRegs.rGrantD, ArbRegs.rGrantI, ArbRegs.rGrantA, h]

theorem wGrant_of_busy {p : WPort} (h : s.wState = some p) : s.wGrant i = none := by
  simp [ArbRegs.wGrant, ArbRegs.wGrantD, ArbRegs.wGrantA, h]

theorem rReq_of_rGrant {p : RPort} (h : s.rGrant i = some p) : ArbRegs.rReq i p = true := by
  rw [ArbRegs.rGrant] at h
  split at h
  next hg =>
    cases h
    simp_all [ArbRegs.rGrantD]
  next =>
    split at h
    next hg =>
      cases h
      simp_all [ArbRegs.rGrantI]
    next =>
      split at h
      next hg =>
        cases h
        simp_all [ArbRegs.rGrantA]
      next => cases h

theorem wReq_of_wGrant {p : WPort} (h : s.wGrant i = some p) : ArbRegs.wReq i p = true := by
  rw [ArbRegs.wGrant] at h
  split at h
  next hg =>
    cases h
    simp_all [ArbRegs.wGrantD]
  next =>
    split at h
    next hg =>
      cases h
      simp_all [ArbRegs.wGrantA]
    next => cases h

/-- An idle channel grants a request if there is one, and the turn of every other one
    comes nearer. -/
theorem RPort.wait_lt_of_rGrant {p : RPort} (hidle : s.rState = none) (hp : ArbRegs.rReq i p = true) :
    ∃ q, s.rGrant i = some q ∧ (q ≠ p → RPort.wait q p < RPort.wait s.rLast p) := by
  simp only [ArbRegs.rGrant, ArbRegs.rGrantA, ArbRegs.rGrantI, ArbRegs.rGrantD, hidle]
  cases p <;> cases hD : ArbRegs.rReq i .D <;> cases hI : ArbRegs.rReq i .I <;>
    cases hA : ArbRegs.rReq i .A <;> cases s.rLast <;> simp_all [RPort.wait]

theorem WPort.wait_lt_of_wGrant {p : WPort} (hidle : s.wState = none) (hp : ArbRegs.wReq i p = true) :
    ∃ q, s.wGrant i = some q ∧ (q ≠ p → WPort.wait (q == .A) p < WPort.wait s.wLastA p) := by
  simp only [ArbRegs.wGrant, ArbRegs.wGrantA, ArbRegs.wGrantD, hidle]
  cases p <;> cases hD : ArbRegs.wReq i .D <;> cases hA : ArbRegs.wReq i .A <;> cases s.wLastA <;>
    simp_all [WPort.wait]

end AxiRw

end Rv32Soc
