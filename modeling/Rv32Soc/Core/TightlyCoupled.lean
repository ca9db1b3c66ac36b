import Rv32Soc.Cache.Dcache
import Rv32Soc.Cache.Icache
import Rv32Soc.Core.Mmio

/-!
# Fetch and data in the TCM

The pipeline with its two caches and the TCM. Either side asks the TCM by a pulse and is
answered by a pulse on the next cycle, after which it asks again if the pipeline has
not moved on: a side that waits sees an answer on every second cycle. When both
wait they must see it on the same ones, or the pipeline never moves.

* `Cpu.InPhase`: the handshake flag of a side is the answer of the TCM, and the two flags
  agree when both sides wait for the TCM;
* `Cpu.InPhase.next`: an edge on which the pipeline moves clears both flags, and one on
  which it is frozen flips both;
* `tcm_inPhase`: in phase in every state of a run, whence the pipeline moves on.
-/

namespace Rv32Soc

/-- The pipeline, the caches of `2 ^ IC` and `2 ^ DC` sets and a TCM of `2 ^ K` words. -/
structure Cpu (IC DC K : ℕ) where
  core : Core
  icache : Icache.Regs IC
  dcache : Dcache.Regs DC
  tcm : Tcm.Regs K

/-- What the rest of the system answers on a cycle: to the pipeline, where the four fields of the caches
    are not used, and to the caches, with what colliding reads of the arrays of the I-cache
    return. -/
structure CpuInputs (IC : ℕ) where
  core : CoreInputs
  icMemRline : Line
  icMemReady : Bool
  icReads : IcacheBram.Reads IC
  dcMemRline : Line
  dcMemReady : Bool

namespace Cpu

variable {IC DC K : ℕ} (s : Cpu IC DC K) (i : CpuInputs IC) (p : Predictor)
  (STALL_WATCHDOG_LIMIT : BitVec 16)

/-- The ports of `icache`. What it answers does not depend on the address `pcNext` it prepares for. -/
def icacheInputs (pcNext : Word) : Icache.Inputs where
  cpuReqValid := true
  cpuReqAddr := s.core.pc
  cpuReqAddrNext := pcNext
  tcmRdata := s.tcm.iRdata
  tcmReady := s.tcm.iReady
  memRline := i.icMemRline
  memReady := i.icMemReady

/-- The ports of `dcache`, which does not answer by `dcAddrNext` either. -/
def dcacheInputs (dcAddrNext : BitVec (DC + 4)) : Dcache.Inputs DC where
  cpuReqValid := s.core.dcacheValid
  cpuReqWrite := s.core.dcacheWen
  cpuReqAddr := s.core.exMem.alu
  cpuReqAddrNext := dcAddrNext
  cpuWdata := s.core.storeData
  cpuWmask := s.core.memWriteMask
  tcmRdata := s.tcm.dRdata
  tcmReady := s.tcm.dReady
  memRline := i.dcMemRline
  memReady := i.dcMemReady

/-- What the pipeline sees on a cycle. -/
def coreInputs : CoreInputs :=
  { i.core with
    cacheReady := s.icache.cpuReady K (s.icacheInputs i 0)
    ifInst := s.icache.cpuRdata K (s.icacheInputs i 0)
    dcacheReady := s.dcache.cpuReady K (s.dcacheInputs i 0)
    dcacheReadData := s.dcache.cpuRdata K (s.dcacheInputs i 0) }

/-- The address MEM will present, as far as it addresses the arrays. -/
def dcAddrNext : BitVec (DC + 4) :=
  if s.core.globalMemStall (s.coreInputs i) then s.core.exMem.alu.setWidth (DC + 4)
  else s.core.fwdRs1.setWidth (DC + 4) + s.core.idEx.imm.setWidth (DC + 4)

/-- The ports of the TCM. -/
def tcmInputs : Tcm.Inputs where
  iReq := s.icache.tcmReqValid K (s.icacheInputs i (s.core.nextPc (s.coreInputs i)))
  iAddr := s.core.pc
  dReq := s.dcache.tcmReqValid K (s.dcacheInputs i (s.dcAddrNext i))
  dWe := s.core.dcacheWen
  dAddr := s.core.exMem.alu
  dWdata := s.core.storeData
  dWmask := s.core.memWriteMask

/-- The registers after an edge that leaves anything in the predictor. -/
def nextWith : Cpu IC DC K where
  core := s.core.nextWith (s.coreInputs i) p STALL_WATCHDOG_LIMIT
  icache := s.icache.next K (s.icacheInputs i (s.core.nextPc (s.coreInputs i))) i.icReads
  dcache := s.dcache.next K (s.dcacheInputs i (s.dcAddrNext i))
  tcm := s.tcm.next (s.tcmInputs i)

def IsReset : Prop := s.core.IsReset ∧ s.icache.IsReset ∧ s.dcache.IsReset ∧ s.tcm.IsReset

end Cpu

/-- The pipeline with its caches and the TCM. The lower memory, the peripherals and the timer
    answer whatever they like. -/
def cpu (IC DC K : ℕ) (STALL_WATCHDOG_LIMIT : BitVec 16) :
    Circuit (Cpu IC DC K) (CpuInputs IC × Predictor) where
  init := {s | s.IsReset}
  admits _ _ := True
  next s i := s.nextWith i.1 i.2 STALL_WATCHDOG_LIMIT

/-- MEM holds a load, a store or a committing `sc.w` that goes to the TCM. -/
def Core.routedToTcm (K : ℕ) (s : Core) : Bool :=
  (s.isLoad || s.storeCommits) && s.memAddrIsCacheable && Tcm.inRange K s.exMem.alu

namespace Cpu

variable {IC DC K : ℕ} {s : Cpu IC DC K} {i : CpuInputs IC} {p : Predictor} {L : BitVec 16}

/-- Fetch waits for the TCM, and so does MEM. -/
def fetchInTcm (s : Cpu IC DC K) : Bool := Tcm.inRange K s.core.pc
def dataInTcm (s : Cpu IC DC K) : Bool := s.core.dcacheValid && Tcm.inRange K s.core.exMem.alu

/-! ## The two sides -/

/-- The state between two edges. -/
structure InPhase (s : Cpu IC DC K) : Prop where
  fetch : s.tcm.iReady = s.icache.tcmReqPending
  data : s.tcm.dReady = s.dcache.tcmReqPending
  both : s.fetchInTcm → s.core.routedToTcm K → s.icache.tcmReqPending = s.dcache.tcmReqPending

theorem dataInTcm_of_routed (h : s.core.routedToTcm K) : s.dataInTcm := by
  simp only [Core.routedToTcm, Bool.and_eq_true] at h
  obtain ⟨⟨ha, hc⟩, hr⟩ := h
  rw [dataInTcm, hr, Core.dcacheValid, Core.dcacheRen, Core.dcacheWen, hc]
  rcases Bool.or_eq_true_iff.1 ha with ha | ha <;> simp [ha]

/-- A side that waits flips its flag on every edge; one that does not clears it. -/
theorem InPhase.fetch_next (h : s.InPhase) :
    (s.nextWith i p L).icache.tcmReqPending = (s.fetchInTcm && !s.icache.tcmReqPending) ∧
      (s.nextWith i p L).tcm.iReady = (s.fetchInTcm && !s.icache.tcmReqPending) := by
  have hr := h.fetch
  simp only [nextWith, Icache.Regs.next, Icache.Regs.tcmReqValid, Icache.Inputs.reqIsTcm,
    icacheInputs, Tcm.Regs.next, tcmInputs, hr, ← fetchInTcm.eq_1]
  cases s.fetchInTcm <;> cases s.icache.tcmReqPending <;> decide

theorem InPhase.data_next (h : s.InPhase) :
    (s.nextWith i p L).dcache.tcmReqPending = (s.dataInTcm && !s.dcache.tcmReqPending) ∧
      (s.nextWith i p L).tcm.dReady = (s.dataInTcm && !s.dcache.tcmReqPending) := by
  have hr := h.data
  simp only [nextWith, Dcache.Regs.next, Dcache.Regs.tcmReqValid,
    Dcache.Inputs.cpuAddrIsTcm, dcacheInputs, Tcm.Regs.next, tcmInputs, hr, dataInTcm]
  cases s.core.dcacheValid <;> cases Tcm.inRange K s.core.exMem.alu <;>
    cases s.dcache.tcmReqPending <;> decide

/-- What holds the pipeline on a side that waits for the TCM. -/
theorem imemStall_eq (h : s.InPhase) (hf : s.fetchInTcm) :
    Core.imemStall (s.coreInputs i) = !s.icache.tcmReqPending := by
  rw [Core.imemStall, coreInputs, Icache.Regs.cpuReady,
    if_pos (show (s.icacheInputs i 0).reqIsTcm K = true from hf), icacheInputs, h.fetch]

theorem dmemStall_eq (h : s.InPhase) (hd : s.dataInTcm) :
    s.core.dmemStall (s.coreInputs i) = !s.dcache.tcmReqPending := by
  obtain ⟨hv, hr⟩ := Bool.and_eq_true_iff.1 hd
  rw [Core.dmemStall, coreInputs, Dcache.Regs.cpuReady, hv,
    if_pos (show (s.dcacheInputs i 0).cpuAddrIsTcm K = true from hr), dcacheInputs,
    h.data, Bool.true_and]

/-- The pipeline moves on only with the answers that it waits for, and no side has one left then. -/
theorem InPhase.next_leaves (h : s.InPhase) (hg : s.core.globalMemStall (s.coreInputs i) = false) :
    (s.nextWith i p L).icache.tcmReqPending = false ∧
    (s.nextWith i p L).dcache.tcmReqPending = false := by
  simp only [Core.globalMemStall, Bool.or_eq_false_iff] at hg
  obtain ⟨⟨⟨⟨⟨⟨hd, hi⟩, -⟩, -⟩, -⟩, -⟩, -⟩ := hg
  rw [h.fetch_next.1, h.data_next.1]
  constructor
  · cases hf : s.fetchInTcm
    · rfl
    · rw [← imemStall_eq h hf, hi]
      rfl
  · cases hf : s.dataInTcm
    · rfl
    · rw [← dmemStall_eq h hf, hd]
      rfl

/-- A frozen pipeline goes on asking for the same. -/
theorem frozen (hwf : s.core.WellFormed) (hg : s.core.globalMemStall (s.coreInputs i)) :
    (s.nextWith i p L).fetchInTcm = s.fetchInTcm ∧
      (s.nextWith i p L).core.routedToTcm K = s.core.routedToTcm K := by
  have he : (s.nextWith i p L).core.exMem = s.core.exMem := Core.exMem_frozen hg
  have hc : (s.nextWith i p L).core.storeCommits = s.core.storeCommits := hwf.storeCommits_frozen hg
  have hpc : (s.nextWith i p L).core.pc = s.core.pc := by simp [nextWith, Core.nextPc, hg]
  refine ⟨by rw [fetchInTcm, hpc, fetchInTcm], ?_⟩
  simp only [Core.routedToTcm, hc, Core.isLoad, Core.memAddrIsCacheable, Core.isMmio,
    Core.isLed, Core.isClint, Core.isUart, Core.isIntc, Core.isAccel, he]

theorem InPhase.next (h : s.InPhase) (hwf : s.core.WellFormed) : (s.nextWith i p L).InPhase where
  fetch := h.fetch_next.2.trans h.fetch_next.1.symm
  data := h.data_next.2.trans h.data_next.1.symm
  both := by
    intro hf hd
    cases hg : s.core.globalMemStall (s.coreInputs i)
    · rw [(h.next_leaves hg).1, (h.next_leaves hg).2]
    · -- both sides were waiting before the edge
      obtain ⟨hf', hd'⟩ := frozen (p := p) (L := L) hwf hg
      rw [hf'] at hf
      rw [hd'] at hd
      rw [h.fetch_next.1, h.data_next.1, hf, dataInTcm_of_routed hd, h.both hf hd]

theorem IsReset.inPhase (h : s.IsReset) : s.InPhase := by
  obtain ⟨-, ⟨-, hi⟩, ⟨-, hd⟩, -, -, -, hir, -, -, hdr⟩ := h
  exact ⟨hir.trans hi.symm, hdr.trans hd.symm, fun _ _ => hi.trans hd.symm⟩

/-- The edges until the pipeline moves on, at most: the divider has to be done, and the answers
    of the TCM come on every second cycle. -/
def wait (s : Cpu IC DC K) : ℕ := 2 * s.core.divWait + if s.tcm.iReady then 0 else 1

/-- While both sides wait for the TCM, only they and the divider hold the pipeline. -/
theorem InPhase.globalMemStall_eq (h : s.InPhase) (hwf : s.core.WellFormed) (hf : s.fetchInTcm)
    (hm : s.core.routedToTcm K) :
    s.core.globalMemStall (s.coreInputs i) = (!s.tcm.iReady || s.core.divStall) := by
  have hi := imemStall_eq (i := i) h hf
  have hd := dmemStall_eq (i := i) h (dataInTcm_of_routed hm)
  rw [← h.both hf hm] at hd
  simp only [Core.routedToTcm, Core.memAddrIsCacheable, Bool.and_eq_true, Bool.not_eq_true'] at hm
  obtain ⟨⟨ha, ⟨⟨-, hu⟩, hn⟩, hx⟩, -⟩ := hm
  have hamo : s.core.exMem.isAmo = false := by
    refine Bool.eq_false_iff.2 fun hamo => ?_
    rcases Bool.or_eq_true_iff.1 ha with hl | hc
    · simp [Core.isLoad, hamo] at hl
    · simp [Core.storeCommits, Core.isStore, hwf.memRw_of_isAmo hamo] at hc
  rw [Core.globalMemStall, hi, hd, ← h.fetch]
  simp only [Core.uartStall, Core.uartValid, Core.intcStall, Core.intcValid,
    Core.accelStall, Core.accelValid,
    Core.amoStall, hu, hn, hx, hamo, Bool.false_and, Bool.or_false, Bool.or_self]

/-- Held up by the TCM or by the divider, the pipeline comes closer to moving on. -/
theorem InPhase.wait_next (h : s.InPhase) (hwf : s.core.WellFormed) (hdiv : s.core.Dividing)
    (hf : s.fetchInTcm) (hm : s.core.routedToTcm K) (hg : s.core.globalMemStall (s.coreInputs i)) :
    (s.nextWith i p L).wait < s.wait := by
  have hd : (s.nextWith i p L).core.divWait ≤ s.core.divWait - 1 := hdiv.divWait_frozen hg
  have hr := h.fetch_next (i := i) (p := p) (L := L)
  rw [h.globalMemStall_eq hwf hf hm, Core.divStall_eq, Bool.or_eq_true, Bool.not_eq_true',
    decide_eq_true_eq] at hg
  rw [wait, wait, hr.2, hf, h.fetch, Bool.true_and]
  rw [h.fetch] at hg
  cases hp : s.icache.tcmReqPending
  · simp
    omega
  · have : 0 < s.core.divWait := hg.resolve_left (by simp [hp])
    simp
    omega

end Cpu

/-! ## A run -/

section

variable {IC DC K : ℕ} {STALL_WATCHDOG_LIMIT : BitVec 16} {σ : ℕ → Cpu IC DC K}
  {ι : ℕ → CpuInputs IC} {π : ℕ → Predictor}

/-- The pipeline in a run, and what it sees. -/
def Cpu.cores (σ : ℕ → Cpu IC DC K) (n : ℕ) : Core := (σ n).core
def Cpu.seen (σ : ℕ → Cpu IC DC K) (ι : ℕ → CpuInputs IC) (n : ℕ) : CoreInputs :=
  (σ n).coreInputs (ι n)

theorem isRun_cores (h : (cpu IC DC K STALL_WATCHDOG_LIMIT).IsRun σ fun n => (ι n, π n)) :
    (core STALL_WATCHDOG_LIMIT).IsRun (Cpu.cores σ) fun n => (Cpu.seen σ ι n, π n) :=
  ⟨(show (σ 0).IsReset from h.init).1, fun _ => trivial, fun n => congrArg Cpu.core (h.next n)⟩

theorem Cpu.inPhase_of_isRun (h : (cpu IC DC K STALL_WATCHDOG_LIMIT).IsRun σ fun n =>
    (ι n, π n)) (n : ℕ) :
    (σ n).InPhase := by
  induction n with
  | zero => exact Cpu.IsReset.inPhase h.init
  | succ n ih =>
    rw [h.next n]
    exact ih.next (wellFormed_of_reachable ((isRun_cores h).reachable n))

/-- Fetch and data are never out of phase in the TCM: while the instruction in MEM and the one that
    is fetched both wait for it, the two handshake flags agree, as do the two answers, and what the
    two sides do to the pipeline. The answers come together, and the pipeline moves on. -/
theorem tcm_inPhase (h : (cpu IC DC K STALL_WATCHDOG_LIMIT).IsRun σ fun n => (ι n, π n)) {n : ℕ}
    (hf : Tcm.inRange K (σ n).core.pc) (hm : (σ n).core.routedToTcm K) :
    (σ n).icache.tcmReqPending = (σ n).dcache.tcmReqPending ∧ (σ n).tcm.iReady = (σ n).tcm.dReady ∧
      Core.imemStall (Cpu.seen σ ι n) = (σ n).core.dmemStall (Cpu.seen σ ι n) ∧
      ∃ m ≥ n, (∀ k, n ≤ k → k ≤ m → (σ k).core.pc = (σ n).core.pc ∧
        (σ k).core.exMem = (σ n).core.exMem ∧
          (σ k).icache.tcmReqPending = (σ k).dcache.tcmReqPending ∧
          (σ k).tcm.iReady = (σ k).tcm.dReady) ∧
        (σ m).core.globalMemStall (Cpu.seen σ ι m) = false := by
  have hin := Cpu.inPhase_of_isRun h
  have hwf : ∀ k, (σ k).core.WellFormed := fun k => wellFormed_of_reachable ((isRun_cores h).reachable k)
  have hdiv : ∀ k, (σ k).core.Dividing := fun k => dividing_of_reachable ((isRun_cores h).reachable k)
  have hready : ∀ k, (σ k).fetchInTcm → (σ k).core.routedToTcm K →
      (σ k).tcm.iReady = (σ k).tcm.dReady := by
    intro k hf hm
    rw [(hin k).fetch, (hin k).data, (hin k).both hf hm]
  refine ⟨(hin n).both hf hm, hready n hf hm, ?_, ?_⟩
  · rw [Cpu.seen, Cpu.imemStall_eq (hin n) hf, Cpu.dmemStall_eq (hin n) (Cpu.dataInTcm_of_routed hm),
      (hin n).both hf hm]
  · -- frozen until then, both sides go on waiting
    let P : Cpu IC DC K → Prop := fun s => s.core.pc = (σ n).core.pc ∧ s.core.exMem = (σ n).core.exMem ∧
      s.fetchInTcm ∧ s.core.routedToTcm K
    have hstep : ∀ k, P (σ k) → ¬(σ k).core.globalMemStall ((σ k).coreInputs (ι k)) = false →
        P (σ (k + 1)) ∧ (σ (k + 1)).wait < (σ k).wait := by
      rintro k ⟨hpc, he, hf, hm⟩ hg
      rw [Bool.not_eq_false] at hg
      obtain ⟨hf', hm'⟩ := Cpu.frozen (p := π k) (L := STALL_WATCHDOG_LIMIT) (hwf k) hg
      have hw := (hin k).wait_next (p := π k) (L := STALL_WATCHDOG_LIMIT) (hwf k) (hdiv k) hf hm hg
      rw [show σ (k + 1) = (σ k).nextWith (ι k) (π k) STALL_WATCHDOG_LIMIT from h.next k]
      refine ⟨⟨?_, ?_, hf'.trans hf, hm'.trans hm⟩, hw⟩
      · rw [← hpc]
        simp [Cpu.nextWith, Core.nextPc, hg]
      · rw [← he]
        exact Core.exMem_frozen hg
    obtain ⟨m, hnm, hall, hq⟩ := Circuit.exists_of_rank Cpu.wait
      (Q := fun s j => s.core.globalMemStall (s.coreInputs j) = false) hstep ⟨rfl, rfl, hf, hm⟩
    refine ⟨m, hnm, fun k hk hkm => ?_, hq⟩
    obtain ⟨hpc, he, hf, hm⟩ := hall k hk hkm
    exact ⟨hpc, he, (hin k).both hf hm, hready k hf hm⟩

end

/-! ### A load from the TCM -/

/-- A TCM of 64 KB that holds `lui x2, 0x40000`, `lw x1, 0(x2)` and zeros. -/
def lwTcm : Tcm.Regs 14 where
  memEven x := if x = 0 then 0x0137 else if x = 1 then 0x2083 else 0
  memOdd x := if x = 0 then 0x4000 else if x = 1 then 0x0001 else 0
  iRdataEven := 0
  iRdataOdd := 0
  iIsUnalignedReg := false
  iReady := false
  dRdataEven := 0
  dRdataOdd := 0
  dReady := false

/-- The state after a reset, with zeros in what is not reset. -/
def resetCpu : Cpu 11 10 14 where
  core := resetCore
  icache :=
    { bramCache := ⟨fun _ => 0, fun _ => 0, fun _ => ⟨false, 0⟩, fun _ => ⟨false, 0⟩, .S_INIT, 0, 0,
      0, 0, ⟨false, 0⟩,
        ⟨false, 0⟩, 0, 0, false, IcacheBram.RESET_PC⟩
      tcmReqPending := false }
  dcache :=
    { coreInst := ⟨fun _ _ => 0, fun _ => ⟨false, 0⟩, fun _ => false, .S_INIT, 0, 0, 0, 0, 0,
      fun _ => 0, ⟨false, 0⟩,
        0, false, 0, 0, 0⟩
      tcmReqPending := false }
  tcm := lwTcm

theorem isReset_resetCpu : resetCpu.IsReset := by
  simp [Cpu.IsReset, isReset_resetCore, Icache.Regs.IsReset, IcacheBram.Regs.IsReset,
    Dcache.Regs.IsReset, DcacheBram.Regs.IsReset, Tcm.Regs.IsReset, resetCpu, lwTcm]

/-- A cycle on which nothing else answers anything but ready. -/
def CpuInputs.ready : CpuInputs 11 :=
  ⟨CoreInputs.ready, 0, false, ⟨0, 0, ⟨false, 0⟩, ⟨false, 0⟩⟩, 0, false⟩

def lwTrace : ℕ → Cpu 11 10 14 := (cpu 11 10 14 1023).trace resetCpu fun _ => (.ready, resetCore.pred)

theorem isRun_lwTrace : (cpu 11 10 14 1023).IsRun lwTrace fun _ => (.ready, resetCore.pred) :=
  Circuit.isRun_trace isReset_resetCpu fun _ => trivial

theorem lwTrace_waits : Tcm.inRange 14 (lwTrace 8).core.pc ∧ (lwTrace 8).core.routedToTcm 14 := by
  decide +kernel

/-- The load and a fetch wait for the TCM together, and are answered together. -/
theorem lwTrace_answered :
    (lwTrace 8).icache.tcmReqPending = (lwTrace 8).dcache.tcmReqPending ∧
      (lwTrace 8).tcm.iReady = (lwTrace 8).tcm.dReady ∧
      ∃ m ≥ 8, (lwTrace m).core.globalMemStall ((lwTrace m).coreInputs .ready) = false := by
  obtain ⟨h₁, h₂, -, m, hm, -, hg⟩ := tcm_inPhase isRun_lwTrace lwTrace_waits.1 lwTrace_waits.2
  exact ⟨h₁, h₂, m, hm, hg⟩

end Rv32Soc
