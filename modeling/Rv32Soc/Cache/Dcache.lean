import Rv32Soc.Cache.DcacheBram
import Rv32Soc.Cache.Tcm

/-!
# The data-side memory front end

`dcache.v`: a request goes to the tightly-coupled memory or to the cache,
`dcache_bram`, by its address. The TCM answers one cycle later, and
`tcmReqPending` keeps a request that is held from being issued twice for one
answer.
-/

namespace Rv32Soc

namespace Dcache

structure Regs (IDX : ℕ) where
  coreInst : DcacheBram.Regs IDX
  tcmReqPending : Bool

/-- The input ports. -/
structure Inputs (IDX : ℕ) where
  cpuReqValid : Bool
  cpuReqWrite : Bool
  cpuReqAddr : Word
  cpuReqAddrNext : BitVec (IDX + 4)
  cpuWdata : Word
  cpuWmask : BitVec 4
  tcmRdata : Word
  tcmReady : Bool
  memRline : Line
  memReady : Bool

variable {IDX : ℕ} (K : ℕ)

def Inputs.cpuAddrIsTcm (i : Inputs IDX) : Bool := Tcm.inRange K i.cpuReqAddr

/-- The ports of the cache. -/
def Inputs.core (i : Inputs IDX) : DcacheBram.Inputs IDX where
  cpuReqValid := i.cpuReqValid && !i.cpuAddrIsTcm K
  cpuReqWrite := i.cpuReqWrite
  cpuReqAddr := i.cpuReqAddr
  cpuReqAddrNext := i.cpuReqAddrNext
  cpuWdata := i.cpuWdata
  cpuWmask := i.cpuWmask
  memRline := i.memRline
  memReady := i.memReady

namespace Regs

variable (s : Regs IDX) (i : Inputs IDX)

def tcmReqValid : Bool := i.cpuReqValid && i.cpuAddrIsTcm K && !s.tcmReqPending

def cpuRdata : Word := if i.cpuAddrIsTcm K then i.tcmRdata else s.coreInst.cpuRdata (i.core K)

def cpuReady : Bool := if i.cpuAddrIsTcm K then i.tcmReady else s.coreInst.cpuReady (i.core K)

/-- The registers after an edge. -/
def next : Regs IDX where
  coreInst := s.coreInst.next (i.core K)
  tcmReqPending :=
    if s.tcmReqValid K i then true else if i.tcmReady then false else s.tcmReqPending

def IsReset : Prop := s.coreInst.IsReset ∧ s.tcmReqPending = false

end Regs

end Dcache

end Rv32Soc
