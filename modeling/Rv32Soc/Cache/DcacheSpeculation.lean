import Rv32Soc.Cache.DcacheCoherence

/-!
# Speculated indices of the data cache

The data cache above a line memory of arbitrary latency, its requests held until
they are acknowledged, and the index its arrays are read at chosen freely on
every cycle. The abstract memory `mem` is what the stores committed so far make
of the initial line memory.

`specOk` re-checks the index on a hit, so a wrong one only costs a cycle there.
The capture of a victim re-checks nothing: on the edge that detects a miss the
arrays are read once more, and `S_CAP` takes what they return for the victim. A
wrong index on that edge loses a dirty line (`lost_store`); with the right one
whenever the set of the miss is dirty, no data is ever wrong
(`dataSafe_of_reachable`).
-/

namespace Rv32Soc

namespace DcacheBram

/-- A request of the CPU. -/
structure Request where
  write : Bool
  addr : Word
  wdata : Word
  wmask : BitVec 4
  deriving DecidableEq

variable {IDX : ℕ}

/-- The request presented, if any. -/
def Inputs.request (i : Inputs IDX) : Option Request :=
  if i.cpuReqValid then some ⟨i.cpuReqWrite, i.cpuReqAddr, i.cpuWdata, i.cpuWmask⟩ else none

/-- The cache, the line memory, the abstract memory, and the request to be held. -/
structure Sys (IDX : ℕ) where
  cache : Regs IDX
  lower : Mem
  mem : Mem
  held : Option Request

namespace Sys

variable (s : Sys IDX) (i : Inputs IDX)

/-- A request that is not acknowledged is held, and a refill delivers the line
    asked for, whenever it does. -/
def Admits : Prop :=
  (s.held = none ∨ i.request = s.held) ∧
    (s.cache.fillEn i = true → i.memRline = s.lower.line s.cache.memReqAddr)

instance : Decidable (s.Admits i) := inferInstanceAs (Decidable (_ ∧ _))

def next : Sys IDX where
  cache := s.cache.next i
  lower := s.cache.lowerNext i s.lower
  mem := s.cache.memNext i s.mem
  held := if s.cache.cpuReady i then none else i.request

/-- After a reset nothing is held, and the memory is the line memory. -/
def IsReset : Prop := s.cache.IsReset ∧ s.mem = s.lower ∧ s.held = none

/-- No data is wrong: a completed load returns the memory's word, a write-back
    writes the memory's line at the address it names, and, once the valid bits
    are swept, no store is lost. -/
structure DataSafe : Prop where
  load : s.cache.cpuReady i = true → i.cpuReqWrite = false →
    s.cache.cpuRdata i = s.mem.word i.cpuReqAddr
  writeBack : s.cache.memReqWrite = true → s.cache.memWline = s.mem.line s.cache.memReqAddr
  kept : s.cache.state ≠ .S_INIT → s.cache.overlay s.lower = s.mem

/-- On the edge that detects a miss on a dirty set, the arrays are read at that set. -/
def VictimRead : Prop :=
  s.cache.missed i = true → s.cache.dirty i.mIdx = true → i.aIdx = i.mIdx

instance : Decidable (s.VictimRead i) := inferInstanceAs (Decidable (_ → _ → _))

end Sys

/-- The cache with an arbitrary speculated index on every cycle. -/
def speculating (IDX : ℕ) : Circuit (Sys IDX) (Inputs IDX) where
  init := {s | s.IsReset}
  admits s i := s.Admits i
  next s i := s.next i

/-- The cache with an arbitrary speculated index except where a victim is read. -/
def victimReading (IDX : ℕ) : Circuit (Sys IDX) (Inputs IDX) where
  init := {s | s.IsReset}
  admits s i := s.Admits i ∧ s.VictimRead i
  next s i := s.next i

instance (s : Sys IDX) (i : Inputs IDX) : Decidable ((speculating IDX).admits s i) :=
  inferInstanceAs (Decidable (s.Admits i))

instance (s : Sys IDX) (i : Inputs IDX) : Decidable ((victimReading IDX).admits s i) :=
  inferInstanceAs (Decidable (s.Admits i ∧ s.VictimRead i))

/-- The invariant of the system: the data cache's, and that the victim being
    captured is that of the request being held. -/
def Sys.Inv (s : Sys IDX) : Prop :=
  s.cache.Inv s.lower s.mem ∧
    (s.cache.state = .S_CAP → ∃ r, s.held = some r ∧ idxOf IDX r.addr = s.cache.missIdx)

theorem mIdx_of_request {i : Inputs IDX} {r : Request} (h : i.request = some r) :
    i.mIdx = idxOf IDX r.addr := by
  unfold Inputs.request at h
  split at h
  · rw [← Option.some.inj h]; rfl
  · exact absurd h (by simp)

theorem inv_of_reachable (hn : IDX ≤ 28) {s : Sys IDX} (h : (victimReading IDX).Reachable s) :
    s.Inv := by
  refine h.invariant ?_ ?_
  · rintro s ⟨hc, hm, -⟩
    exact ⟨hm ▸ inv_of_isReset hc, fun hst => by simp [hc.1] at hst⟩
  · rintro s i ⟨hi, hcap⟩ ⟨⟨hheld, hline⟩, hv⟩
    have hx : s.cache.state = .S_CAP → i.mIdx = s.cache.missIdx := fun hst => by
      obtain ⟨r, hr, hri⟩ := hcap hst
      rw [← hri]
      exact mIdx_of_request (by simpa [hr] using hheld)
    refine ⟨inv_next hn hi hv hx hline, fun hst => ?_⟩
    -- A request that misses is held.
    have hm : s.cache.missed i = true := missed_of_cap hst
    have hval : i.cpuReqValid = true := by simp_all [Regs.missed]
    have hhit : s.cache.hit i = false := by simp_all [Regs.missed]
    refine ⟨⟨i.cpuReqWrite, i.cpuReqAddr, i.cpuWdata, i.cpuWmask⟩, ?_, ?_⟩
    · simp [victimReading, Sys.next, Regs.cpuReady, hhit, Inputs.request, hval]
    · simp [victimReading, Sys.next, Regs.next, Regs.edge, hm, Inputs.mIdx]

/-- Whatever the speculated indices, as long as a dirty victim is read at the set
    of its miss, no data is ever wrong. -/
theorem dataSafe_of_reachable (hn : IDX ≤ 28) {s : Sys IDX} {i : Inputs IDX}
    (h : (victimReading IDX).Reachable s) : s.DataSafe i :=
  have hi := (inv_of_reachable hn h).1
  ⟨fun hr _ => hi.cpuRdata_eq hn hr, hi.memWline_eq hn, hi.overlay_eq⟩

/-! ## A dirty victim evicted by a load of its set -/

/-- A cache as it may come out of a reset, with cleared arrays. -/
def resetRegs (IDX : ℕ) : Regs IDX where
  d _ _ := 0
  tagv _ := ⟨false, 0⟩
  dirty _ := false
  state := .S_INIT
  sweepCnt := 0
  missIdx := 0
  missTag := 0
  wbTag := 0
  wbLine := 0
  q _ := 0
  qTagv := ⟨false, 0⟩
  qAIdx := 0
  bypV := false
  bypWord := 0
  bypBe := 0
  bypData := 0

/-- A reset over a line memory of zeros. -/
def resetSys (IDX : ℕ) : Sys IDX := ⟨resetRegs IDX, fun _ => 0, fun _ => 0, none⟩

theorem isReset_resetSys : (resetSys IDX).IsReset := ⟨⟨rfl, rfl, rfl, rfl, rfl⟩, rfl, rfl⟩

/-- A request to a cache of two sets, the line memory answering at once with zeros. -/
def ask (write : Bool) (addr : Word) (next : BitVec 5) : Inputs 1 :=
  ⟨true, write, addr, next, 0xFFFFFFFF, 0xF, 0, true⟩

/-- Set `0` is stored to (cycles 3 to 7), a load of another line of it evicts what
    was stored (8 to 12), and the stored word is loaded back (13 to 17). On cycle
    8, which detects the miss of that load, the arrays are read at `next`. -/
def evictRun (next : BitVec 5) (n : ℕ) : Inputs 1 :=
  if n < 3 then ⟨false, false, 0, 0, 0, 0, 0, true⟩
  else if n < 8 then ask true 0x00 0
  else if n = 8 then ask false 0x20 next
  else if n < 13 then ask false 0x20 0
  else ask false 0x00 0

/-- Reading another set on that cycle loses the store: the victim is not written
    back, and the load returns the word from before the store. -/
theorem lost_store : ∃ s i, (speculating 1).Reachable s ∧ (speculating 1).admits s i ∧
    s.cache.cpuReady i = true ∧ i.cpuReqWrite = false ∧
    s.cache.cpuRdata i ≠ s.mem.word i.cpuReqAddr :=
  ⟨(speculating 1).trace (resetSys 1) (evictRun 0x10) 17, evictRun 0x10 17,
    Circuit.reachable_trace isReset_resetSys (by decide +kernel),
    by decide +kernel, by decide +kernel, by decide +kernel, by decide +kernel⟩

/-- Reading the set of the miss writes the victim back on cycle 10. -/
theorem victim_written_back :
    ((victimReading 1).trace (resetSys 1) (evictRun 0) 10).cache.memReqWrite = true ∧
      ((victimReading 1).trace (resetSys 1) (evictRun 0) 10).DataSafe (evictRun 0 10) :=
  ⟨by decide +kernel, dataSafe_of_reachable (by decide)
    (Circuit.reachable_trace isReset_resetSys (by decide +kernel))⟩

end DcacheBram

end Rv32Soc
