import Rv32Soc.Lib.Geometry

/-!
# The BRAM-backed data cache

`dcache_bram.v`: a direct-mapped write-back cache of `2 ^ IDX` sets whose arrays
have registered outputs. They are addressed one cycle early, by the index the
MEM stage will present next (`cpuReqAddrNext`), so that on a hit the line is
already in the output registers `q`, `qTagv`; `specOk` checks that the index
they were read at is the one requested. A store writes one bank under its byte
mask and leaves itself in the one-deep bypass `byp`, as the read of the next
cycle may collide with that write. A miss captures the victim (`S_CAP`), writes
it back if it is dirty (`S_WB`), refills the line (`S_FILL`) and reads again
(`S_RECHECK`); after a reset a sweep (`S_INIT`) clears the valid bits.

An edge takes what the array reads returned as a parameter (`Reads`). The RTL
reads with non-blocking assignments, i.e. the contents before the writes of the
same edge (`arrayReads`, hence `next`); on the targets a read that collides with
a write is undefined, and returns whatever an adversary wants
(`collidingReads`).
-/

namespace Rv32Soc

namespace DcacheBram

/-- The states of the miss FSM. -/
inductive FsmState
  | S_INIT
  | S_IDLE
  | S_CAP
  | S_WB
  | S_FILL
  | S_RECHECK
  deriving DecidableEq, Repr

/-- An entry of the tag array, `{valid, tag}`. -/
structure TagV (IDX : ℕ) where
  valid : Bool
  tag : BitVec (28 - IDX)
  deriving DecidableEq

/-- The registers and the arrays. The banks `d0` to `d3` are `d 0` to `d 3`. -/
structure Regs (IDX : ℕ) where
  d : BitVec 2 → BitVec IDX → Word
  tagv : BitVec IDX → TagV IDX
  dirty : BitVec IDX → Bool
  state : FsmState
  sweepCnt : BitVec IDX
  missIdx : BitVec IDX
  missTag : BitVec (28 - IDX)
  wbTag : BitVec (28 - IDX)
  wbLine : Line
  q : BitVec 2 → Word
  qTagv : TagV IDX
  qAIdx : BitVec IDX
  bypV : Bool
  bypWord : BitVec 2
  bypBe : BitVec 4
  bypData : Word

/-- The input ports. -/
structure Inputs (IDX : ℕ) where
  cpuReqValid : Bool
  cpuReqWrite : Bool
  cpuReqAddr : Word
  cpuReqAddrNext : BitVec (IDX + 4)
  cpuWdata : Word
  cpuWmask : BitVec 4
  memRline : Line
  memReady : Bool

/-- What the array reads of an edge return. -/
structure Reads (IDX : ℕ) where
  q : BitVec 2 → Word
  qTagv : TagV IDX

variable {IDX : ℕ}

/-! ## Decoded addresses -/

namespace Inputs

variable (i : Inputs IDX)

/-- The index the arrays are read at. -/
def aIdx : BitVec IDX := i.cpuReqAddrNext.extractLsb' 4 IDX
def mIdx : BitVec IDX := idxOf IDX i.cpuReqAddr
def mTag : BitVec (28 - IDX) := tagOf IDX i.cpuReqAddr
def mBank : BitVec 2 := i.cpuReqAddr.extractLsb' 2 2

end Inputs

namespace Regs

variable (s : Regs IDX) (i : Inputs IDX)

/-! ## Combinational outputs and enables -/

/-- The index speculated last cycle is the one requested now. -/
def specOk : Bool := s.qAIdx == i.mIdx

def hit : Bool := s.qTagv.valid && (s.qTagv.tag == i.mTag) && s.specOk i

def cpuReady : Bool := s.state == .S_IDLE && i.cpuReqValid && s.hit i

/-- A store commits, only on a confirmed hit in `S_IDLE`. -/
def wrHit : Bool := s.state == .S_IDLE && i.cpuReqValid && i.cpuReqWrite && s.hit i

def fillEn : Bool := s.state == .S_FILL && i.memReady
def initEn : Bool := s.state == .S_INIT

def waddr : BitVec IDX := if s.fillEn i then s.missIdx else i.mIdx

/-- The byte enables `be0` to `be3` of the banks. -/
def be (k : BitVec 2) : BitVec 4 :=
  if s.fillEn i then 0xF else if s.wrHit i && i.mBank == k then i.cpuWmask else 0x0

/-- The write data `wd0` to `wd3` of the banks. -/
def wd (k : BitVec 2) : Word := if s.fillEn i then lineWord i.memRline k else i.cpuWdata

def tagvWe : Bool := s.fillEn i || s.initEn
def tagvWaddr : BitVec IDX := if s.initEn then s.sweepCnt else s.missIdx
def tagvWdata : TagV IDX := if s.initEn then ⟨false, 0⟩ else ⟨true, s.missTag⟩

def bypUse : Bool := s.bypV && s.bypWord == i.mBank

/-- The word of the requested bank, with the bypass applied byte by byte. -/
def cpuRdata : Word := mergeBytes (s.q i.mBank) s.bypData (if s.bypUse i then s.bypBe else 0)

def wbNeeded : Bool := s.qTagv.valid && s.dirty i.mIdx

def memReqValid : Bool := s.state == .S_WB || s.state == .S_FILL
def memReqWrite : Bool := s.state == .S_WB
def memReqAddr : Word :=
  if s.state == .S_WB then lineAddr s.wbTag s.missIdx else lineAddr s.missTag s.missIdx
def memWline : Line := s.wbLine

/-! ## The clock edge -/

/-- The FSM state after the edge. -/
def nextState : FsmState :=
  match s.state with
  | .S_INIT => if s.sweepCnt = BitVec.allOnes IDX then .S_RECHECK else .S_INIT
  | .S_IDLE =>
    if i.cpuReqValid && !s.hit i then if !s.specOk i then .S_RECHECK else .S_CAP else .S_IDLE
  | .S_CAP => if s.wbNeeded i then .S_WB else .S_FILL
  | .S_WB => if i.memReady then .S_FILL else .S_WB
  | .S_FILL => if i.memReady then .S_RECHECK else .S_FILL
  | .S_RECHECK => .S_IDLE

/-- A miss is detected: the speculation was right and the tag does not match. -/
def missed : Bool := s.state == .S_IDLE && i.cpuReqValid && !s.hit i && s.specOk i

/-- The registers after an edge on which the array reads returned `r`. -/
def edge (r : Reads IDX) : Regs IDX where
  d k x := if x = s.waddr i then mergeBytes (s.d k x) (s.wd i k) (s.be i k) else s.d k x
  tagv x := if s.tagvWe i && x == s.tagvWaddr then s.tagvWdata else s.tagv x
  dirty x :=
    if s.fillEn i then if x = s.missIdx then false else s.dirty x
    else if s.wrHit i then if x = i.mIdx then true else s.dirty x
    else s.dirty x
  state := s.nextState i
  sweepCnt := if s.state == .S_INIT then s.sweepCnt + 1 else s.sweepCnt
  missIdx := if s.missed i then i.mIdx else s.missIdx
  missTag := if s.missed i then i.mTag else s.missTag
  wbTag := if s.state == .S_CAP then s.qTagv.tag else s.wbTag
  wbLine := if s.state == .S_CAP then lineOfWords s.q else s.wbLine
  q := r.q
  qTagv := r.qTagv
  qAIdx := i.aIdx
  bypV := s.wrHit i && !s.fillEn i && i.mIdx == i.aIdx
  bypWord := i.mBank
  bypBe := i.cpuWmask
  bypData := i.cpuWdata

/-- The array reads of the RTL: the contents before the writes of the same edge. -/
def arrayReads : Reads IDX := ⟨fun k => s.d k i.aIdx, s.tagv i.aIdx⟩

/-- The array reads when one that collides with a write, i.e., of the entry being
    written with some byte enabled, returns what the adversary `r` says. -/
def collidingReads (r : Reads IDX) : Reads IDX where
  q k := if s.be i k ≠ 0 ∧ s.waddr i = i.aIdx then r.q k else s.d k i.aIdx
  qTagv := if s.tagvWe i ∧ s.tagvWaddr = i.aIdx then r.qTagv else s.tagv i.aIdx

/-- The registers after an edge. -/
def next : Regs IDX := s.edge i (s.arrayReads i)

/-- The registers a reset leaves: the FSM and the bypass are reset, while the
    arrays (and the dirty bits) keep whatever they held. -/
def IsReset : Prop :=
  s.state = .S_INIT ∧ s.sweepCnt = 0 ∧ s.missIdx = 0 ∧ s.missTag = 0 ∧ s.bypV = false

end Regs

end DcacheBram

end Rv32Soc
