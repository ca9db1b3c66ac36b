import Rv32Soc.Cache.IcacheBram
import Rv32Soc.Cache.Tcm

/-!
# The instruction-side memory front end

`icache.v`: a fetch goes to the tightly-coupled memory or to the cache, `icache_bram`,
by its address, with the handshake to the TCM that `dcache.v` has.
-/

namespace Rv32Soc

namespace Icache

structure Regs (IDX : ℕ) where
  bramCache : IcacheBram.Regs IDX
  tcmReqPending : Bool

/-- The input ports. -/
structure Inputs where
  cpuReqValid : Bool
  cpuReqAddr : Word
  cpuReqAddrNext : Word
  tcmRdata : Word
  tcmReady : Bool
  memRline : Line
  memReady : Bool

variable {IDX : ℕ} (K : ℕ)

def Inputs.reqIsTcm (i : Inputs) : Bool := Tcm.inRange K i.cpuReqAddr

/-- The ports of the cache. -/
def Inputs.bram (i : Inputs) : IcacheBram.Inputs where
  fetchValid := i.cpuReqValid && !i.reqIsTcm K
  fetchAddr := i.cpuReqAddr
  fetchAddrNext := i.cpuReqAddrNext
  memRline := i.memRline
  memReady := i.memReady

namespace Regs

variable (s : Regs IDX) (i : Inputs)

def tcmReqValid : Bool := i.cpuReqValid && i.reqIsTcm K && !s.tcmReqPending

def cpuRdata : Word := if i.reqIsTcm K then i.tcmRdata else s.bramCache.fetchRdata

def cpuReady : Bool := if i.reqIsTcm K then i.tcmReady else s.bramCache.fetchReady (i.bram K)

/-- The registers after an edge on which colliding array reads returned `r`. -/
def next (r : IcacheBram.Reads IDX) : Regs IDX where
  bramCache := s.bramCache.edge (i.bram K) (s.bramCache.collidingReads (i.bram K) r)
  tcmReqPending :=
    if s.tcmReqValid K i then true else if i.tcmReady then false else s.tcmReqPending

def IsReset : Prop := s.bramCache.IsReset ∧ s.tcmReqPending = false

end Regs

end Icache

end Rv32Soc
