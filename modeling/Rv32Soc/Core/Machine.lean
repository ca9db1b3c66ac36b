import Rv32Soc.Cache.CodeFetch
import Rv32Soc.Cache.DataPath
import Rv32Soc.Core.HartRun
import Rv32Soc.Core.TightlyCoupled

/-!
# The machine

The pipeline, its two caches and the TCM over one line memory of arbitrary latency. The D-cache
writes dirty lines back to it, and the I-cache reads it. The peripherals and the
timer answer whatever they like, the peripherals only when they are asked.

* `Machine.Serves`: the data side is a flat memory, that of the hart, driven as the pipeline drives it;
* `Machine.Holds`: the code is where it was in the line memory, in the I-cache and in the TCM.
-/

namespace Rv32Soc

/-- The pipeline with its caches and the TCM, and the line memory. -/
structure Machine (IC DC K : ℕ) where
  cpu : Cpu IC DC K
  lower : Mem

variable {IC DC K : ℕ}

namespace Machine

variable (s : Machine IC DC K) (i : CpuInputs IC) (STALL_WATCHDOG_LIMIT : BitVec 16)

/-- What the pipeline sees. -/
def seen : CoreInputs := s.cpu.coreInputs i

/-- The ports of the caches. -/
def icacheIn : Icache.Inputs := s.cpu.icacheInputs i (s.cpu.core.nextPc (s.seen i))
def dcacheIn : Dcache.Inputs DC := s.cpu.dcacheInputs i (s.cpu.dcAddrNext i)

def next : Machine IC DC K where
  cpu := s.cpu.nextWith i (s.cpu.core.nextPred (s.seen i)) STALL_WATCHDOG_LIMIT
  lower := s.cpu.dcache.coreInst.lowerNext ((s.dcacheIn i).core K) s.lower

/-- How the line memory and the peripherals answer. -/
structure Admits : Prop where
  fetched : s.cpu.icache.bramCache.wrEn ((s.icacheIn i).bram K) →
    i.icMemRline = s.lower.line s.cpu.icache.bramCache.missAddrQ
  filled : s.cpu.dcache.coreInst.fillEn ((s.dcacheIn i).core K) →
    i.dcMemRline = s.lower.line s.cpu.dcache.coreInst.memReqAddr
  uart : i.core.uartReady → s.cpu.core.uart.pending
  intc : i.core.intcReady → s.cpu.core.intc.pending
  accel : i.core.accelReady → s.cpu.core.accel.pending

/-- The memory that the machine holds: the TCM, and elsewhere the line memory overlaid with the
    dirty lines. -/
def flat : Mem := fun a =>
  if Tcm.inRange K a then s.cpu.tcm.byteAt a else s.cpu.dcache.coreInst.overlay s.lower a

/-- What the machine has before its first instruction. -/
def hart : Hart where
  state := ⟨Core.resetPc, s.cpu.core.regs, fun a => if Tcm.inRange K a then s.cpu.tcm.byteAt a
    else s.lower a⟩
  csr := s.cpu.core.csr
  reserved := none

end Machine

def machine (IC DC K : ℕ) (STALL_WATCHDOG_LIMIT : BitVec 16) :
    Circuit (Machine IC DC K) (CpuInputs IC) where
  init := {s | s.cpu.IsReset}
  admits s i := s.Admits i
  next s i := s.next i STALL_WATCHDOG_LIMIT

/-! ## The data side -/

namespace Core

variable (s : Core) (i : CoreInputs)

/-- What MEM does to memory, or would if it were not a peripheral. -/
def access : DataPath.Access where
  write := s.storeCommits || s.amoWritePhase
  inst := s.exMem.inst
  addr := s.exMem.alu
  data := if s.amoWritePhase then s.amoNewValue else s.exMem.rs2

/-- The last cycle of an access: the two of an AMO are withdrawn as soon as they are acknowledged. -/
def accessLast : Bool := if s.exMem.isAmo then i.dcacheReady else !s.globalMemStall i

/-- Memory as the instruction in MEM has made it so far, but for a store that is under way. -/
def memSoFar (m : Mem) : Mem :=
  if s.exMem.isAmo && s.amo.amoResultReady then m.store s.exMem.alu s.amoNewValue 0b1111 else m

variable {s i} {p : Predictor} {L : BitVec 16}

/-- What `partial_store` is asked for. -/
theorem partialStore_access (hamo : s.exMem.isAmo → accessBytes (s.exMem.inst.extractLsb' 12 2) = 4) :
    partialStore s.access.inst s.access.addr s.access.data s.access.write = ⟨s.memWriteMask,
      s.storeData⟩ := by
  cases hw : s.amoWritePhase
  · have hmask : (partialStore s.exMem.inst s.exMem.alu s.exMem.rs2 s.storeCommits).memWriteMask =
        s.memWriteMask := by
      rw [memWriteMask, hw, if_neg Bool.false_ne_true, storeCommits, isStore]
      cases s.exMem.memRw <;> cases s.exMem.isSc <;> cases s.scSuccessFlag <;> simp [partialStore]
    rw [← hmask, storeData, access, hw]
    simp [partialStore]
  · have ha : s.exMem.isAmo := by
      simp only [amoWritePhase, Bool.and_eq_true] at hw
      exact hw.1.1
    have hsize : ∀ z : BitVec 2, accessBytes z = 4 → z ≠ 0#2 ∧ z ≠ 1#2 := by decide
    obtain ⟨h₀, h₁⟩ := hsize _ (hamo ha)
    rw [memWriteMask, storeData, access, hw]
    simp [partialStore, h₀, h₁]

/-- What MEM presents is acknowledged before it leaves. -/
theorem dcacheReady_of_leaves (hg : s.globalMemStall i = false) (hv : s.dcacheValid) :
    i.dcacheReady := by
  simp only [globalMemStall, dmemStall, hv, Bool.or_eq_false_iff, Bool.true_and,
    Bool.not_eq_false'] at hg
  exact hg.1.1.1.1.1.1

/-- What MEM presents when it presents anything. -/
theorem access_of_dcacheValid (hv : s.dcacheValid) :
    s.memAddrIsCacheable ∧ (s.access.write = false → s.isLoad ∨ s.amoReadPhase) := by
  simp only [dcacheValid, dcacheRen, dcacheWen, Bool.or_eq_true, Bool.and_eq_true] at hv
  refine ⟨hv.elim And.right And.right, fun hw => ?_⟩
  rcases hv with hv | hv
  · exact hv.1
  · rw [access, Bool.or_eq_false_iff] at hw
    rw [hw.1, hw.2] at hv
    simp at hv

/-- While the pipeline is frozen, MEM presents the same, unless an AMO goes on to its next phase. -/
theorem access_frozen (hwf : s.WellFormed) (hg : s.globalMemStall i)
    (ha : s.exMem.isAmo → s.amoWaits ∧ i.dcacheReady = false) :
    (s.nextWith i p L).dcacheValid = s.dcacheValid ∧ (s.nextWith i p L).access = s.access := by
  have he : (s.nextWith i p L).exMem = s.exMem := exMem_frozen hg
  have hc : (s.nextWith i p L).storeCommits = s.storeCommits := hwf.storeCommits_frozen hg
  have hphase : (s.nextWith i p L).amoReadPhase = s.amoReadPhase ∧
    (s.nextWith i p L).amoWritePhase = s.amoWritePhase ∧
      (s.amoWritePhase → (s.nextWith i p L).amoNewValue = s.amoNewValue) := by
    cases hamo : s.exMem.isAmo
    · simp only [amoReadPhase, amoWritePhase, he, hamo, Bool.false_and, Bool.false_eq_true,
        false_implies, and_self]
    · obtain ⟨hw, hd⟩ := ha hamo
      have hn : (s.nextWith i p L).amo = s.amo := by
        rw [nextWith_amo, nextAmo_frozen hg hamo, hd]
        simp only [amoWaits, amoReadPhase, amoWritePhase, hamo] at hw
        cases hst : s.amo.amoState <;> simp_all
      simp only [amoReadPhase, amoWritePhase, Core.amoNewValue, he, hn, implies_true, and_self]
  obtain ⟨hr, hw, hnew⟩ := hphase
  constructor
  · simp only [dcacheValid, dcacheRen, dcacheWen, hc, hr, hw, isLoad, memAddrIsCacheable, isMmio,
      isLed, isClint, isUart, isIntc, isAccel, he]
  · rw [access, access, hc, hw, he]
    cases hwr : s.amoWritePhase
    · rfl
    · rw [hnew hwr]

end Core

namespace Machine

variable (s : Machine IC DC K) (i : CpuInputs IC)

/-- The memory path of the machine, with what its stores have made of memory, the access that is
    held and whether it has been taken. -/
def sys (done : Mem) (held : Option DataPath.Access) (taken : Bool) : DataPath.Sys DC K :=
  ⟨s.cpu.dcache, s.cpu.tcm, s.lower, done, held, taken⟩

/-- What drives it. -/
def drive : DataPath.Inputs DC where
  valid := s.cpu.core.dcacheValid
  access := s.cpu.core.access
  last := s.cpu.core.accessLast (s.seen i)
  addrNext := s.cpu.dcAddrNext i
  memRline := i.dcMemRline
  memReady := i.dcMemReady
  iReq := (s.cpu.tcmInputs i).iReq
  iAddr := s.cpu.core.pc

variable {s i} {L : BitVec 16} {done : Mem} {held : Option DataPath.Access} {taken : Bool}

/-- The ports of the path are those of the machine, but that the machine does not ask for the write
    of what is not memory. -/
theorem dcacheIn_sys (hamo : s.cpu.core.exMem.isAmo →
    accessBytes (s.cpu.core.exMem.inst.extractLsb' 12 2) = 4) :
    (s.sys done held taken).dcacheIn (s.drive i) =
      { s.dcacheIn i with cpuReqWrite := s.cpu.core.access.write } := by
  have h := Core.partialStore_access hamo
  simp only [DataPath.Sys.dcacheIn, DataPath.Sys.storePort, drive, h]
  rfl

theorem tcmIn_sys (hamo : s.cpu.core.exMem.isAmo →
    accessBytes (s.cpu.core.exMem.inst.extractLsb' 12 2) = 4) :
    (s.sys done held taken).tcmIn (s.drive i) =
      { s.cpu.tcmInputs i with dWe := s.cpu.core.access.write } := by
  have h := Core.partialStore_access hamo
  simp only [DataPath.Sys.tcmIn, DataPath.Sys.storePort, drive, h]
  rfl

/-- A write that is not asked for makes no difference. -/
theorem dcacheWen_eq : s.cpu.core.dcacheWen = s.cpu.core.access.write ∨
    s.cpu.core.dcacheValid = false := by
  simp only [Core.access, Core.dcacheWen, Core.dcacheValid, Core.dcacheRen]
  cases s.cpu.core.memAddrIsCacheable <;> simp

theorem next_write {x : Dcache.Inputs DC} (w : Bool) (h : x.cpuReqWrite = w ∨ x.cpuReqValid = false)
    (r : Dcache.Regs DC) : r.next K { x with cpuReqWrite := w } = r.next K x ∧
      r.coreInst.lowerNext ({ x with cpuReqWrite := w }.core K) s.lower =
        r.coreInst.lowerNext (x.core K) s.lower := by
  rcases h with rfl | h
  · exact ⟨rfl, rfl⟩
  · refine ⟨?_, rfl⟩
    have hv : (x.core K).cpuReqValid = false := by rw [Dcache.Inputs.core, h, Bool.false_and]
    have hwr : r.coreInst.wrHit ({ x with cpuReqWrite := w }.core K) = r.coreInst.wrHit (x.core K) := by
      simp only [DcacheBram.Regs.wrHit, Dcache.Inputs.core, h, Bool.false_and, Bool.and_false]
    simp only [Dcache.Regs.next, DcacheBram.Regs.next, DcacheBram.Regs.edge, DcacheBram.Regs.be, hwr]
    rfl

/-- The memory path of the machine on a cycle. -/
theorem sys_next (hamo : s.cpu.core.exMem.isAmo →
    accessBytes (s.cpu.core.exMem.inst.extractLsb' 12 2) = 4) :
    (s.sys done held taken).next (s.drive i) =
      (s.next i L).sys ((s.sys done held taken).next (s.drive i)).done ((s.sys done held taken).next
        (s.drive i)).held
        ((s.sys done held taken).next (s.drive i)).taken := by
  have hw : (s.dcacheIn i).cpuReqWrite = s.cpu.core.access.write ∨
    (s.dcacheIn i).cpuReqValid = false := dcacheWen_eq
  obtain ⟨hd, hl⟩ := next_write (s := s) s.cpu.core.access.write hw s.cpu.dcache
  have ht : s.cpu.tcm.next { s.cpu.tcmInputs i with dWe := s.cpu.core.access.write } =
      s.cpu.tcm.next (s.cpu.tcmInputs i) := by
    rcases dcacheWen_eq (s := s) with h | h
    · rw [← h]
      rfl
    · have hq : (s.cpu.tcmInputs i).dReq = false := by
        simp only [Cpu.tcmInputs, Dcache.Regs.tcmReqValid, Cpu.dcacheInputs, h, Bool.false_and]
      simp only [Tcm.Regs.next, hq, Bool.false_and]
  have hdcache : ((s.sys done held taken).next (s.drive i)).dcache = (s.next i L).cpu.dcache := by
    rw [DataPath.Sys.next, dcacheIn_sys hamo]
    exact hd
  have htcm : ((s.sys done held taken).next (s.drive i)).tcm = (s.next i L).cpu.tcm := by
    rw [DataPath.Sys.next, tcmIn_sys hamo]
    exact ht
  have hlower : ((s.sys done held taken).next (s.drive i)).lower = (s.next i L).lower := by
    rw [DataPath.Sys.next, DataPath.Sys.coreIn, dcacheIn_sys hamo]
    exact hl
  rw [sys.eq_1 (s.next i L), ← hdcache, ← htcm, ← hlower]

/-- What the path answers is what the pipeline sees. -/
theorem cpuReady_sys (hamo : s.cpu.core.exMem.isAmo →
    accessBytes (s.cpu.core.exMem.inst.extractLsb' 12 2) = 4) :
    (s.sys done held taken).cpuReady (s.drive i) = (s.seen i).dcacheReady := by
  rw [DataPath.Sys.cpuReady, dcacheIn_sys hamo]
  rfl

theorem cpuRdata_sys (hamo : s.cpu.core.exMem.isAmo →
    accessBytes (s.cpu.core.exMem.inst.extractLsb' 12 2) = 4) :
    s.cpu.dcache.cpuRdata K ((s.sys done held taken).dcacheIn (s.drive i)) =
      (s.seen i).dcacheReadData := by
  rw [dcacheIn_sys hamo]
  rfl

/-- The data side is the memory `m` of the hart, as far as the instruction in MEM has come. -/
def Serves (s : Machine IC DC K) (m : Mem) : Prop :=
  ∃ held taken, DataPath.Inv (s.sys (s.cpu.core.memSoFar m) held taken) ∧
    ∀ r ∈ held, s.cpu.core.dcacheValid ∧ s.cpu.core.access = r

end Machine

namespace Core

/-- What is asked of the accesses of MEM. -/
structure Accesses (s : Core) : Prop where
  word : s.exMem.isAmo → accessBytes (s.exMem.inst.extractLsb' 12 2) = 4
  cacheable : s.exMem.isAmo → s.memAddrIsCacheable
  aligned : s.dcacheValid → Rv32Soc.Aligned s.exMem.inst s.exMem.alu

variable {s : Core} {i : CoreInputs} {p : Predictor} {L : BitVec 16}

/-- What an AMO presents are its two accesses. -/
theorem amoWaits_of_dcacheValid (hwf : s.WellFormed) (ha : s.exMem.isAmo) (hv : s.dcacheValid) :
    s.amoWaits := by
  obtain ⟨hl, hs⟩ := hwf.not_access (.inl ha)
  simp only [dcacheValid, dcacheRen, dcacheWen, hl, hs, Bool.false_or, Bool.or_eq_true,
    Bool.and_eq_true] at hv
  exact Bool.or_eq_true_iff.2 (hv.imp And.left And.left)

/-- An access that is not withdrawn holds the pipeline. -/
theorem globalMemStall_of_accessLast (hwf : s.WellFormed) (hr : s.AmoRests) (hv : s.dcacheValid)
    (hl : s.accessLast i = false) : s.globalMemStall i := by
  cases ha : s.exMem.isAmo
  · simpa [accessLast, ha] using hl
  · have hw := amoWaits_of_dcacheValid hwf ha hv
    have hready := hr.ready
    refine globalMemStall_of_amoStall ?_ i
    simp only [amoWaits, amoReadPhase, amoWritePhase, amoStall, ha] at hw ⊢
    cases hst : s.amo.amoState <;> simp_all

/-- A store writes what the ports carry. -/
theorem Accesses.apply_access (hc : s.Accesses) (hv : s.dcacheValid) (hw : s.access.write) (m : Mem) :
    s.access.apply m = m.store s.exMem.alu s.storeData s.memWriteMask := by
  have hport := partialStore_access hc.word
  rw [hw] at hport
  refine (Mem.store_partialStore m (hc.aligned hv) s.access.data).symm.trans ?_
  exact congrArg (fun x : PartialStore => m.store s.exMem.alu x.dataToMem x.memWriteMask) hport

/-- Once its access is done, an AMO has made of memory what it does. -/
theorem Accesses.memSoFar_cases (hc : s.Accesses) (hr : s.AmoRests) (m : Mem) :
    s.memSoFar m = m ∨ (s.exMem.isAmo → s.amo.amoState = .AMO_WRITE) ∧ s.memSoFar m = s.memAfter m := by
  by_cases h : s.exMem.isAmo && s.amo.amoResultReady
  · obtain ⟨ha, hready⟩ := Bool.and_eq_true_iff.1 h
    refine .inr ⟨fun _ => hr.ready hready, ?_⟩
    rw [memSoFar, if_pos h, memAfter, if_pos (hc.cacheable ha), if_pos ha]
  · exact .inl (if_neg h)

/-- Once it is stored, what MEM presents has made of memory what the instruction does. -/
theorem Accesses.apply_memSoFar (hc : s.Accesses) (hwf : s.WellFormed) (hv : s.dcacheValid)
    (hw : s.access.write)
    (m : Mem) : (s.exMem.isAmo → s.amo.amoState = .AMO_WRITE) ∧
    s.access.apply (s.memSoFar m) = s.memAfter m := by
  have hm := (access_of_dcacheValid hv).1
  cases ha : s.exMem.isAmo
  · have hst : s.storeCommits := by simpa [access, amoWritePhase, ha] using hw
    rw [hc.apply_access hv hw, memSoFar, memAfter, if_pos hm, ha, hst]
    exact ⟨fun h => absurd h Bool.false_ne_true, rfl⟩
  · have hphase : s.amoWritePhase := by simpa [access, (hwf.not_access (.inl ha)).2] using hw
    rw [hc.apply_access hv hw, memSoFar, memAfter, if_pos hm, if_pos ha, storeData,
      if_pos hphase, memWriteMask, if_pos hphase]
    simp only [amoWritePhase, ha, Bool.true_and, Bool.and_eq_true, beq_iff_eq,
      Bool.not_eq_true'] at hphase
    exact ⟨fun _ => hphase.1, by rw [hphase.2, Bool.and_false, if_neg Bool.false_ne_true]⟩

/-- What an access that is withdrawn has made of memory. -/
theorem Accesses.memSoFar_next (hc : s.Accesses) (hwf : s.WellFormed) (hr : s.AmoRests) (m : Mem) :
    (if s.dcacheValid && s.accessLast i && s.access.write then s.access.apply (s.memSoFar m)
      else s.memSoFar m) =
      (s.nextWith i p L).memSoFar (if s.globalMemStall i then m else s.memAfter m) := by
  cases hg : s.globalMemStall i
  · -- the instruction leaves
    have hnext : ∀ m', (s.nextWith i p L).memSoFar m' = m' := fun m' => by
      rw [memSoFar, (amo_next_leaves hg).2, Bool.and_false, if_neg Bool.false_ne_true]
    rw [hnext, if_neg Bool.false_ne_true, memAfter]
    cases ha : s.exMem.isAmo
    · have hw : s.access.write = s.storeCommits := by simp [access, amoWritePhase, ha]
      have hv : (s.dcacheValid && s.storeCommits) = (s.memAddrIsCacheable && s.storeCommits) := by
        simp only [dcacheValid, dcacheRen, dcacheWen, amoReadPhase, amoWritePhase, ha]
        cases s.storeCommits <;> cases s.memAddrIsCacheable <;> simp
      have hlast : s.accessLast i := by rw [accessLast, ha, hg]; rfl
      rw [memSoFar, ha, hw, hlast, Bool.and_true, Bool.false_and, if_neg Bool.false_ne_true,
        if_neg Bool.false_ne_true]
      by_cases hs : s.dcacheValid && s.storeCommits
      · obtain ⟨hm, hst⟩ := Bool.and_eq_true_iff.1 (hv.symm.trans hs)
        rw [if_pos hs, if_pos hm, if_pos hst,
          hc.apply_access (Bool.and_eq_true_iff.1 hs).1 (hw.trans hst)]
      · rw [if_neg hs]
        rw [hv] at hs
        cases hm : s.memAddrIsCacheable
        · rfl
        · rw [hm, Bool.true_and] at hs
          rw [if_pos rfl, if_neg hs]
    · have hready := amoResultReady_of_leaves hg ha
      have hw : s.access.write = false := by
        simp [access, (hwf.not_access (.inl ha)).2, amoWritePhase, hready]
      rw [hw, Bool.and_false, if_neg Bool.false_ne_true, memSoFar, ha, hready, if_pos (hc.cacheable ha)]
      rfl
  · have he : (s.nextWith i p L).exMem = s.exMem := exMem_frozen hg
    rw [if_pos rfl, memSoFar.eq_1 (nextWith _ _ _ _), Core.amoNewValue.eq_1 (nextWith _ _ _ _), he]
    cases ha : s.exMem.isAmo
    · simp [memSoFar, ha, accessLast, hg]
    · have hc' := hc.cacheable ha
      have hstore := (hwf.not_access (.inl ha)).2
      have hready := hr.ready
      rw [nextWith_amo, nextAmo_frozen hg ha]
      have hvalid : s.dcacheValid = (s.amoReadPhase || s.amoWritePhase) := by
        simp [dcacheValid, dcacheRen, dcacheWen, hc', hstore, (hwf.not_access (.inl ha)).1]
      have hw : s.access.write = s.amoWritePhase := by rw [access, hstore, Bool.false_or]
      have hread : s.amoReadPhase = (s.amo.amoState == .AMO_READ) := by
        rw [amoReadPhase, ha, Bool.true_and]
      have hwrite : s.amoWritePhase = (s.amo.amoState == .AMO_WRITE && !s.amo.amoResultReady) := by
        rw [amoWritePhase, ha, Bool.true_and]
      rw [memSoFar, ha, hvalid, hw, accessLast, ha, Core.amoNewValue]
      have hidle : s.amo.amoState ≠ .AMO_WRITE → s.amo.amoResultReady = false := fun h =>
        Bool.eq_false_iff.2 fun hx => h (hready hx)
      cases hst : s.amo.amoState
      · simp [hwrite, hst]
      · have hx := hidle (by rw [hst]; decide)
        cases i.dcacheReady <;> simp [hwrite, hst, hx]
      · cases hx : s.amo.amoResultReady
        · have hphase : s.amoWritePhase := by rw [hwrite, hst, hx]; rfl
          have happ := hc.apply_access (m := m) (by rw [hvalid, hphase, Bool.or_true]) (hw.trans hphase)
          rw [storeData, if_pos hphase, memWriteMask, if_pos hphase, Core.amoNewValue] at happ
          cases i.dcacheReady
          · simp [hx]
          · simpa [hphase] using happ
        · cases i.dcacheReady <;> simp [hwrite, hx]

end Core

namespace Machine

variable {s : Machine IC DC K} {i : CpuInputs IC} {L : BitVec 16} {done : Mem}
  {held : Option DataPath.Access} {taken : Bool} {m : Mem}

/-- The pipeline and the line memory drive the path as it asks. -/
theorem admits_drive (ha : s.Admits i) (hc : s.cpu.core.Accesses) (hwf : s.cpu.core.WellFormed)
    (hr : s.cpu.core.AmoRests) (hheld : ∀ r ∈ held, s.cpu.core.dcacheValid ∧ s.cpu.core.access = r) :
    (s.sys done held taken).Admits (s.drive i) where
  held := hheld
  last := by
    intro hv hl
    rw [cpuReady_sys hc.word]
    have hvalid : s.cpu.core.dcacheValid := hv
    have hlast : s.cpu.core.accessLast (s.seen i) := hl
    rw [Core.accessLast] at hlast
    split at hlast
    · exact hlast
    · rw [Bool.not_eq_true'] at hlast
      exact Core.dcacheReady_of_leaves hlast hvalid
  aligned := hc.aligned
  addrNext := by
    intro hv hl
    have hg : s.cpu.core.globalMemStall (s.cpu.coreInputs i) :=
      Core.globalMemStall_of_accessLast hwf hr hv hl
    show s.cpu.dcAddrNext i = _
    rw [Cpu.dcAddrNext, if_pos hg]
    rfl
  line := by
    intro hf
    refine ha.filled ?_
    rw [DataPath.Sys.coreIn, dcacheIn_sys hc.word] at hf
    exact hf

/-- One cycle of the data side. -/
theorem Serves.next (hn : DC ≤ 28) (hK : K ≤ 28) (hs : s.Serves m) (ha : s.Admits i)
    (hc : s.cpu.core.Accesses) (hwf : s.cpu.core.WellFormed) (hr : s.cpu.core.AmoRests) :
    (s.next i L).Serves (if s.cpu.core.globalMemStall (s.seen i) then m else s.cpu.core.memAfter m) := by
  obtain ⟨held, taken, hinv, hheld⟩ := hs
  have hnext := hinv.next hn hK (admits_drive ha hc hwf hr hheld)
  have hdone : ((s.sys (s.cpu.core.memSoFar m) held taken).next (s.drive i)).done =
      (s.next i L).cpu.core.memSoFar (if s.cpu.core.globalMemStall (s.seen i) then m
        else s.cpu.core.memAfter m) :=
    hc.memSoFar_next hwf hr m
  rw [sys_next hc.word (L := L), hdone] at hnext
  refine ⟨_, _, hnext, fun r hr' => ?_⟩
  -- what is held is presented again
  simp only [DataPath.Sys.next, drive, Option.mem_def, Option.ite_none_right_eq_some, Bool.and_eq_true,
    Bool.not_eq_true', Option.some.injEq] at hr'
  obtain ⟨⟨hv, hl⟩, rfl⟩ := hr'
  have hg := Core.globalMemStall_of_accessLast hwf hr hv hl
  obtain ⟨hvalid, hacc⟩ :=
      Core.access_frozen (p := s.cpu.core.nextPred (s.seen i)) (L := L) hwf hg fun hamo =>
    ⟨Core.amoWaits_of_dcacheValid hwf hamo hv, by rwa [Core.accessLast, hamo, if_pos rfl] at hl⟩
  exact ⟨hvalid.trans hv, hacc⟩

/-- What MEM reads is what the hart has in memory. -/
theorem Serves.read (hn : DC ≤ 28) (hK : K ≤ 28) (hs : s.Serves m) (ha : s.Admits i)
    (hc : s.cpu.core.Accesses)
    (hwf : s.cpu.core.WellFormed) (hr : s.cpu.core.AmoRests) (hready : (s.seen i).dcacheReady)
    (hw : s.cpu.core.access.write = false) (hamo : s.cpu.core.exMem.isAmo →
      s.cpu.core.amo.amoResultReady = false) :
    (s.seen i).dcacheReadData = m.word s.cpu.core.exMem.alu := by
  obtain ⟨held, taken, hinv, hheld⟩ := hs
  have hm : s.cpu.core.memSoFar m = m := by
    rw [Core.memSoFar]
    cases ha : s.cpu.core.exMem.isAmo
    · rfl
    · rw [hamo ha]
      rfl
  rw [hm] at hinv
  have hrd := hinv.cpuRdata_eq hn hK (admits_drive ha hc hwf hr hheld)
    ((cpuReady_sys hc.word).trans hready) hw
  exact (cpuRdata_sys hc.word).symm.trans hrd

/-- The memory that the path holds is that of the hart, or already that of the hart after the
    instruction in MEM. -/
theorem Serves.mem (hs : s.Serves m) (hc : s.cpu.core.Accesses) (hwf : s.cpu.core.WellFormed)
    (hr : s.cpu.core.AmoRests) :
    ∃ held taken, DataPath.Inv (s.sys (s.cpu.core.memSoFar m) held taken) ∧
      ((s.sys (s.cpu.core.memSoFar m) held taken).mem = m ∨
        (s.cpu.core.exMem.isAmo → s.cpu.core.amo.amoState = .AMO_WRITE) ∧
          (s.sys (s.cpu.core.memSoFar m) held taken).mem = s.cpu.core.memAfter m) := by
  obtain ⟨held, taken, hinv, hheld⟩ := hs
  refine ⟨held, taken, hinv, ?_⟩
  rw [DataPath.Sys.mem]
  split
  · next r hr' =>
    obtain ⟨hv, rfl⟩ := hheld r hr'
    split
    · next ht =>
      obtain ⟨r, hr, hw⟩ := hinv.taken ht
      rw [(hheld r hr).2.symm] at hw
      exact .inr (hc.apply_memSoFar hwf hv hw m)
    · exact hc.memSoFar_cases hr m
  · exact hc.memSoFar_cases hr m

end Machine

end Rv32Soc
