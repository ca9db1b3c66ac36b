import Rv32Soc.Lib.Burst

/-!
# The systolic array

The parts of `MmAccel.scala` that compute: the parameters of `mm_accel`, the processing
elements, and the array with the operand buffers that feed it.

Lane `i` of the A buffer holds row `i` of the left operand and lane `j` of the B buffer
column `j` of the right one, each as rows of 16 bytes. A buffer has one registered read
port: the row is selected on one cycle and read on the next. Lanes and elements are
numbered from `0`; those from `dim` on are not there, and nothing reads them.

Counters and indices are natural numbers, reduced by their width where they can
leave it.
-/

namespace Rv32Soc

/-- `log2Ceil`. -/
def log2Ceil (n : ℕ) : ℕ := if n ≤ 1 then 0 else (n - 1).log2 + 1

/-- The parameters of `mm_accel`, and what it requires of them. -/
structure MmParams where
  dim : ℕ
  maxK : ℕ
  bPanels : ℕ
  fifoDepth : ℕ
  enableReadBursts : Bool
  enableWriteBursts : Bool
  enablePrefetch : Bool
  descDepth : ℕ
  dim_pos : 1 ≤ dim
  maxK_pow : ∃ k, maxK = 2 ^ k
  maxK_ge : 16 ≤ maxK
  bPanels_pow : ∃ k, bPanels = 2 ^ k
  fifoDepth_ge : 2 ≤ fifoDepth

namespace MmParams

variable (p : MmParams)

def kGrpBits : ℕ := log2Ceil (p.maxK / 4)
def laneBits : ℕ := max (log2Ceil p.dim) 1
def accBits : ℕ := max (log2Ceil (p.dim * p.dim)) 1
def panBits : ℕ := max (log2Ceil p.bPanels) 1
def linesPerLane : ℕ := p.maxK / 16
def lplBits : ℕ := max (log2Ceil p.linesPerLane) 1

/-- The width of the last cycle of a run. -/
def lastTBits : ℕ := max 8 (log2Ceil (2 * (p.dim - 1) + 1))

/-- The lines of a tile of 32-bit results. -/
def nGroups : ℕ := p.dim * p.dim / 4
def grpBits : ℕ := max (log2Ceil p.nGroups) 1
def fifoLines : ℕ := max p.fifoDepth p.nGroups

def int8Capable : Bool := 16 ≤ p.dim * p.dim && 16 % p.dim == 0
def rowsPerLine : ℕ := if p.int8Capable then 16 / p.dim else 1

/-- The lines of a tile of 8-bit results. -/
def nGroups8 : ℕ := if p.int8Capable then p.dim * p.dim / 16 else 1
def grp8Bits : ℕ := max (log2Ceil p.nGroups8) 1

/-- Lines in a row of 32-bit results. -/
def perRow : ℕ := p.nGroups / p.dim

/-- The row of a lane of B that holds the row `row` of a panel. -/
def bAddr (panel row : ℕ) : ℕ := if p.bPanels = 1 then row else panel * p.linesPerLane + row

end MmParams

/-! ## The processing element -/

/-- The registers of `SystolicPE`. -/
structure SystolicPE where
  aReg : Byte
  bReg : Byte
  accReg : Word

/-- The product of two signed bytes, extended to the width of the accumulator. -/
def signedProduct (a b : Byte) : Word := (a.signExtend 16 * b.signExtend 16).signExtend 32

def SystolicPE.next (s : SystolicPE) (en clearAcc : Bool) (aIn bIn : Byte) : SystolicPE :=
  if en then
    { aReg := aIn
      bReg := bIn
      accReg := if clearAcc then signedProduct aIn bIn else s.accReg + signedProduct aIn bIn }
  else s

/-! ## The operand buffers -/

/-- `aMem` and `bMem`, by lane and row, with the rows that are being read. -/
structure OperandBuffers where
  aMem : ℕ → ℕ → Line
  bMem : ℕ → ℕ → Line
  aRow : ℕ → ℕ
  bRow : ℕ → ℕ

/-- A write to a lane: the rows of A and of B it goes to, which of them is written, and what is
    written over the old row. -/
structure LaneWrite where
  aWen : Bool
  bWen : Bool
  aWrow : ℕ
  bWrow : ℕ
  write : Line → Line

/-- The byte `k` of a row. -/
def rowByte (l : Line) (k : ℕ) : Byte := l.extractLsb' (8 * (k % 16)) 8

namespace OperandBuffers

variable (s : OperandBuffers)

/-- The byte `k` of the lane `i` of A. -/
def aByte (i k : ℕ) : Byte := rowByte (s.aMem i (k / 16)) k

/-- The byte `k` of the lane `j` of a panel of B. -/
def bByte (p : MmParams) (panel j k : ℕ) : Byte := rowByte (s.bMem j (p.bAddr panel (k / 16))) k

/-- The buffers after an edge: each lane is written as `w` says, and `aRow` and `bRow` are read
    next. -/
def next (w : ℕ → Option LaneWrite) (aRow bRow : ℕ → ℕ) : OperandBuffers where
  aMem i r :=
    match w i with
    | some x => if x.aWen && x.aWrow == r then x.write (s.aMem i r) else s.aMem i r
    | none => s.aMem i r
  bMem i r :=
    match w i with
    | some x => if x.bWen && x.bWrow == r then x.write (s.bMem i r) else s.bMem i r
    | none => s.bMem i r
  aRow := aRow
  bRow := bRow

end OperandBuffers

/-! ## The array -/

/-- The run sequencer and the elements. -/
structure SystolicArray where
  busy : Bool
  done : Bool
  t : ℕ
  peEn : ℕ → ℕ → Bool
  pes : ℕ → ℕ → SystolicPE

namespace SystolicArray

variable (p : MmParams) (s : SystolicArray)

/-- The row that the lane `i` needs on the next cycle: `kNext` is computed in as many bits as its
    operands have. -/
def rowNext (startAny : Bool) (i : ℕ) : ℕ :=
  let kNext : ℤ :=
    if startAny then 0 else (((s.t : ℤ) + 1).bmod 512 - i).bmod (2 ^ max 9 (log2Ceil (i + 1) + 1))
  kNext.toNat / 16 % p.linesPerLane

/-- The byte that enters a lane: `none` outside of the run. -/
def kIdx (kLen i : ℕ) : Option ℕ := if i ≤ s.t ∧ s.t - i < kLen then some (s.t - i) else none

def aEdge (b : OperandBuffers) (kLen i : ℕ) : Byte :=
  match s.kIdx kLen i with
  | some k => rowByte (b.aMem i (b.aRow i)) k
  | none => 0

def bEdge (b : OperandBuffers) (kLen j : ℕ) : Byte :=
  match s.kIdx kLen j with
  | some k => rowByte (b.bMem j (b.bRow j)) k
  | none => 0

def aIn (b : OperandBuffers) (kLen i j : ℕ) : Byte :=
  if j = 0 then s.aEdge b kLen i else (s.pes i (j - 1)).aReg

def bIn (b : OperandBuffers) (kLen i j : ℕ) : Byte :=
  if i = 0 then s.bEdge b kLen j else (s.pes (i - 1) j).bReg

/-- The last cycle of a run. -/
def lastT (kLen : ℕ) : ℕ := (kLen + 2 * (p.dim - 1) + (2 ^ p.lastTBits - 1)) % 2 ^ p.lastTBits

def busyNext (kLen : ℕ) (softRst startAny : Bool) : Bool :=
  if softRst then false
  else if startAny then true
  else if s.busy then s.t != lastT p kLen
  else s.busy

/-- The registers after an edge. -/
def next (b : OperandBuffers) (kLen : ℕ) (softRst startAny : Bool) : SystolicArray where
  busy := s.busyNext p kLen softRst startAny
  done :=
    if softRst then false
    else if startAny then false
    else if s.busy && s.t == lastT p kLen then true
    else s.done
  t :=
    if softRst then 0
    else if startAny then 0
    else if s.busy then (s.t + 1) % 256
    else s.t
  peEn _ _ := s.busyNext p kLen softRst startAny
  pes i j := (s.pes i j).next (s.peEn i j) (s.t == i + j) (s.aIn b kLen i j) (s.bIn b kLen i j)

/-- The accumulator of an element. -/
def acc (i j : ℕ) : Word := (s.pes i j).accReg

end SystolicArray

end Rv32Soc
