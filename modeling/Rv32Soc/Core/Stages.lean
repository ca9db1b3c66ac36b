import Rv32Soc.Core.Pipeline
import Rv32Soc.Lib.Circuit

/-!
# What the stages hold

The core as a circuit, what an edge does to each pipeline register, and the invariant
that a slot of the pipeline holds either an instruction with its own control
signals or a bubble, which has no effect.

The predictor is left open: after an edge it holds anything. All that is proved of
`core` is therefore proved of the core with its own predictor (`Core.nextWith_nextPred`),
and does not depend on how it is initialised or updated.

* `nextIfId_cases`, `nextIdEx_cases`, `nextExMem_cases`: all that an edge can do to
  a pipeline register;
* `Core.trap_eq`: what the trap controller asks for, and when;
* `wellFormed_of_reachable`: the invariant.
-/

namespace Rv32Soc

namespace Core

variable (s : Core) (i : CoreInputs) (p : Predictor) (STALL_WATCHDOG_LIMIT : BitVec 16)

/-- The registers after an edge that leaves anything in the predictor. -/
def nextWith : Core := { s.next i STALL_WATCHDOG_LIMIT with pred := p }

/-- The predictor of the source does so. -/
theorem nextWith_nextPred :
    s.nextWith i (s.nextPred i) STALL_WATCHDOG_LIMIT = s.next i STALL_WATCHDOG_LIMIT := by
  have h : ∀ t : Core, { t with pred := t.pred } = t := fun _ => rfl
  exact h (s.next i STALL_WATCHDOG_LIMIT)

section

variable {STALL_WATCHDOG_LIMIT}

@[simp]
theorem nextWith_pc : (s.nextWith i p STALL_WATCHDOG_LIMIT).pc = s.nextPc i := by
  rw [nextWith, next]

@[simp]
theorem nextWith_ifId : (s.nextWith i p STALL_WATCHDOG_LIMIT).ifId = s.nextIfId i := by
  rw [nextWith, next]

@[simp]
theorem nextWith_idEx : (s.nextWith i p STALL_WATCHDOG_LIMIT).idEx = s.nextIdEx i := by
  rw [nextWith, next]

@[simp]
theorem nextWith_exMem : (s.nextWith i p STALL_WATCHDOG_LIMIT).exMem = s.nextExMem i := by
  rw [nextWith, next]

@[simp]
theorem nextWith_memWb : (s.nextWith i p STALL_WATCHDOG_LIMIT).memWb = s.nextMemWb i := by
  rw [nextWith, next]

@[simp]
theorem nextWith_regs : (s.nextWith i p STALL_WATCHDOG_LIMIT).regs = s.nextRegs := by
  rw [nextWith, next]

@[simp]
theorem nextWith_pred : (s.nextWith i p STALL_WATCHDOG_LIMIT).pred = p := by
  rw [nextWith, next]

@[simp]
theorem nextWith_csr : (s.nextWith i p STALL_WATCHDOG_LIMIT).csr = s.nextCsr i := by
  rw [nextWith, next]

@[simp]
theorem nextWith_div :
    (s.nextWith i p STALL_WATCHDOG_LIMIT).div =
      s.div.next s.divStart s.aluA s.aluB (!s.idEx.ctl.aluSel.getLsbD 0) := by
  rw [nextWith, next]

@[simp]
theorem nextWith_divResultReady :
    (s.nextWith i p STALL_WATCHDOG_LIMIT).divResultReady = s.nextDivResultReady i := by
  rw [nextWith, next]

@[simp]
theorem nextWith_amo : (s.nextWith i p STALL_WATCHDOG_LIMIT).amo = s.nextAmo i := by
  rw [nextWith, next]

@[simp]
theorem nextWith_rm :
    (s.nextWith i p STALL_WATCHDOG_LIMIT).rm =
      s.rm.next (s.lrReservationSet i) (s.scReservationClear i) (s.normalStoreReservationClear i)
        (s.trap i).trapTaken s.exMem.alu := by
  rw [nextWith, next]

end

end Core

/-- The core out of reset, with any predictor. -/
def core (STALL_WATCHDOG_LIMIT : BitVec 16) : Circuit Core (CoreInputs × Predictor) where
  init := {s | s.IsReset}
  admits _ _ := True
  next s i := s.nextWith i.1 i.2 STALL_WATCHDOG_LIMIT

theorem core_next {STALL_WATCHDOG_LIMIT : BitVec 16} {σ : ℕ → Core} {ι : ℕ → CoreInputs}
    {π : ℕ → Predictor} (h : (core STALL_WATCHDOG_LIMIT).IsRun σ fun n => (ι n, π n)) (n : ℕ) :
    σ (n + 1) = (σ n).nextWith (ι n) (π n) STALL_WATCHDOG_LIMIT := h.next n

/-! ## The trap controller -/

section

variable {exPc exInst mtvecOut mepcOut faultAddr : Word}
  {timerIrq externalIrq memStall exValid illegalInst misalignLoad misalignStore : Bool}

/-- All flushes come together, with a trap or with `mret`. -/
theorem trapController_flush :
    let t := trapController exPc exInst timerIrq externalIrq mtvecOut mepcOut memStall
      exValid illegalInst
      misalignLoad misalignStore faultAddr
    t.flushIf = (t.trapTaken || t.mretExec) ∧ t.flushId = (t.trapTaken || t.mretExec) ∧
      t.flushEx = (t.trapTaken || t.mretExec) ∧ t.pcTrapOverride = (t.trapTaken || t.mretExec) ∧
      t.mretExec = (isMret exInst && !memStall) := by
  unfold trapController
  grind [TrapController.redirect]

/-- Where control goes, and what is saved. -/
theorem trapController_target :
    let t := trapController exPc exInst timerIrq externalIrq mtvecOut mepcOut memStall
      exValid illegalInst
      misalignLoad misalignStore faultAddr
    (t.trapTaken → t.trapTargetPc = mtvecOut ∧ t.trapPc = exPc) ∧
      (t.trapTaken = false → t.mretExec → t.trapTargetPc = mepcOut) := by
  unfold trapController
  grind [TrapController.redirect]

/-- What a trap is taken for. -/
theorem trapController_cause :
    (trapController exPc exInst timerIrq externalIrq mtvecOut mepcOut memStall exValid illegalInst
      misalignLoad misalignStore faultAddr).trapTaken →
      ((timerIrq || externalIrq) && !isMret exInst) ∨ (memStall = false ∧ exValid ∧ illegalInst) ∨
      (memStall = false ∧ exValid ∧ (misalignLoad ∨ misalignStore)) ∨
      (memStall = false ∧ isEcall exInst) := by
  unfold trapController
  grind [TrapController.redirect]

/-- An illegal instruction is not let go. -/
theorem trapController_illegal (hv : exValid) (hi : illegalInst) (hs : memStall = false) :
    (trapController exPc exInst timerIrq externalIrq mtvecOut mepcOut memStall exValid illegalInst
      misalignLoad misalignStore faultAddr).trapTaken := by
  unfold trapController
  grind [TrapController.redirect]

end

namespace Core

variable (s : Core) (i : CoreInputs)

/-! ## The trap controller in the pipeline -/

@[simp]
theorem trap_flushIf : (s.trap i).flushIf = (s.trap i).pcTrapOverride :=
  trapController_flush.1.trans trapController_flush.2.2.2.1.symm

@[simp]
theorem trap_flushId : (s.trap i).flushId = (s.trap i).pcTrapOverride :=
  trapController_flush.2.1.trans trapController_flush.2.2.2.1.symm

@[simp]
theorem trap_flushEx : (s.trap i).flushEx = (s.trap i).pcTrapOverride :=
  trapController_flush.2.2.1.trans trapController_flush.2.2.2.1.symm

theorem trap_pcTrapOverride :
    (s.trap i).pcTrapOverride = ((s.trap i).trapTaken || (s.trap i).mretExec) :=
  trapController_flush.2.2.2.1

theorem trap_mretExec : (s.trap i).mretExec = (isMret s.idEx.inst && !s.globalMemStall i) :=
  trapController_flush.2.2.2.2

variable {s i}

/-- What a trap is taken for. -/
theorem cause_of_trapTaken (h : (s.trap i).trapTaken) :
    (s.timerFires i || s.externalFires i) && !isMret s.idEx.inst ∨
      s.globalMemStall i = false ∧ s.idEx.valid ∧ s.idEx.ctl.illegalInst ∨
      s.globalMemStall i = false ∧ s.idEx.valid ∧ (s.exMisalignLoad ∨ s.exMisalignStore) ∨
      s.globalMemStall i = false ∧ isEcall s.idEx.inst :=
  trapController_cause h

/-- An illegal instruction does not leave EX. -/
theorem illegalInst_of_leaves (hv : s.idEx.valid) (hg : s.globalMemStall i = false)
    (ht : (s.trap i).pcTrapOverride = false) : s.idEx.ctl.illegalInst = false := by
  refine Bool.eq_false_iff.2 fun hi => ?_
  have ht' : (s.trap i).trapTaken := trapController_illegal hv hi hg
  simp [trap_pcTrapOverride, ht'] at ht

/-- Nothing is redirected while the pipeline is frozen. -/
theorem globalMemStall_of_pcTrapOverride (h : (s.trap i).pcTrapOverride) :
    s.globalMemStall i = false := by
  rw [trap_pcTrapOverride, trap_mretExec, Bool.or_eq_true] at h
  rcases h with h | h
  · rcases cause_of_trapTaken h with h | ⟨h, -⟩ | ⟨h, -⟩ | ⟨h, -⟩
    · simp only [timerFires, externalFires] at h
      grind
    · exact h
    · exact h
    · exact h
  · simp only [Bool.and_eq_true, Bool.not_eq_true'] at h
    exact h.2

/-- The instruction in EX stays: the pipeline is frozen. -/
theorem pcTrapOverride_of_globalMemStall (h : s.globalMemStall i) :
    (s.trap i).pcTrapOverride = false := by
  rw [Bool.eq_false_iff]
  intro h'
  simp [globalMemStall_of_pcTrapOverride h'] at h

/-! ## The pipeline registers over an edge -/

variable (s i)

theorem nextIfId_cases :
    (s.globalMemStall i ∧ s.nextIfId i = s.ifId) ∨
      (s.globalMemStall i = false ∧ (s.pcSel ∨ (s.trap i).pcTrapOverride) ∧ s.nextIfId i = .clear) ∨
      (s.globalMemStall i = false ∧ s.pcSel = false ∧ (s.trap i).pcTrapOverride = false ∧ s.stall ∧
        s.nextIfId i = s.ifId) ∨
      (s.globalMemStall i = false ∧ s.pcSel = false ∧ (s.trap i).pcTrapOverride = false ∧
        s.stall = false ∧
        s.nextIfId i =
          ⟨s.pc, muxedIfInst i.ifInst, ifCompressed i, s.ifPredictedTaken i, s.ifPredictedTarget i,
            s.ifPhtIndex, true⟩) := by
  cases h₁ : s.globalMemStall i <;> cases h₂ : s.pcSel <;> cases h₃ :
    (s.trap i).pcTrapOverride <;> cases h₄ : s.stall <;>
    simp [nextIfId, h₁, h₂, h₃, h₄]

theorem nextIdEx_cases :
    (s.globalMemStall i ∧ s.nextIdEx i = s.idEx) ∨
      (s.globalMemStall i = false ∧ (s.pcSel ∨ s.stall ∨ (s.trap i).pcTrapOverride) ∧
        s.nextIdEx i = .clear) ∨
      (s.globalMemStall i = false ∧ s.pcSel = false ∧ s.stall = false ∧
        (s.trap i).pcTrapOverride = false ∧
        s.nextIdEx i = s.decoded) := by
  cases h₁ : s.globalMemStall i <;> cases h₂ : s.pcSel <;> cases h₃ : s.stall <;> cases h₄ :
    (s.trap i).pcTrapOverride <;>
    simp [nextIdEx, h₁, h₂, h₃, h₄]

theorem nextExMem_cases :
    (s.globalMemStall i ∧ s.nextExMem i = s.exMem) ∨
      (s.globalMemStall i = false ∧ (s.trap i).pcTrapOverride ∧ s.nextExMem i = s.exMem.flush) ∨
      (s.globalMemStall i = false ∧ (s.trap i).pcTrapOverride = false ∧
        s.nextExMem i = s.executed i) := by
  cases h₁ : s.globalMemStall i <;> cases h₂ : (s.trap i).pcTrapOverride <;>
    simp [nextExMem, h₁, h₂]

theorem nextMemWb_cases :
    (s.globalMemStall i ∧ s.nextMemWb i = s.memWb) ∨
      (s.globalMemStall i = false ∧ s.nextMemWb i = s.accessed i) := by
  cases h : s.globalMemStall i <;> simp [nextMemWb, h]

end Core

/-! ## The invariant -/

/-- The control signals that go on to MEM are those of the instruction. -/
structure ExMem.IsDecoded (e : ExMem) : Prop where
  rd : e.rd = rdField e.inst
  regWen : e.regWen = (controlLogic e.inst).regWen
  memRw : e.memRw = (controlLogic e.inst).memRw
  wbSel : e.wbSel = (controlLogic e.inst).wbSel
  isLr : e.isLr = (controlLogic e.inst).isLr
  isSc : e.isSc = (controlLogic e.inst).isSc
  isAmo : e.isAmo = (controlLogic e.inst).isAmo
  atomicOp : e.atomicOp = (controlLogic e.inst).atomicOp

/-- A bubble in MEM has no effect: at most it writes `x0`. -/
structure ExMem.IsBubble (e : ExMem) : Prop where
  wbSel : e.regWen → e.wbSel = 0b01
  rd : e.regWen → e.rd = 0
  memRw : e.memRw = false
  isLr : e.isLr = false
  isSc : e.isSc = false
  isAmo : e.isAmo = false

/-- The control signals in EX are those of the instruction. -/
structure IdEx.IsDecoded (e : IdEx) : Prop where
  ctl : e.ctl = controlLogic e.inst
  imm : e.imm = immgen e.inst (controlLogic e.inst).immSel

/-- A bubble in EX is a `nop`: a cleared slot, or one decoded from a cleared slot. -/
structure IdEx.IsBubble (e : IdEx) : Prop where
  inst : e.inst = nop
  ctl : e.ctl = .clear ∨ e.ctl = controlLogic nop

/-- Every slot of the pipeline holds an instruction, with what belongs to it, or a bubble. -/
structure Core.WellFormed (s : Core) : Prop where
  ifId : s.ifId.valid = false → s.ifId.inst = nop
  rd : s.idEx.rd = rdField s.idEx.inst
  idEx : s.idEx.valid → s.idEx.IsDecoded
  idExBubble : s.idEx.valid = false → s.idEx.IsBubble
  exMem : s.exMem.valid → s.exMem.IsDecoded
  exMemBubble : s.exMem.valid = false → s.exMem.IsBubble
  memWb : s.memWb.valid = false → s.memWb.regWen → s.memWb.rd = 0

theorem IdEx.isBubble_clear : IdEx.clear.IsBubble := ⟨rfl, .inl rfl⟩

theorem ExMem.isBubble_clear : ExMem.clear.IsBubble := by
  constructor <;> simp [ExMem.clear]

theorem ExMem.isBubble_flush (e : ExMem) : e.flush.IsBubble := by
  constructor <;> simp [ExMem.flush]

namespace Core

variable {s : Core} {i : CoreInputs}

theorem isBubble_decoded (h : s.ifId.inst = nop) : s.decoded.IsBubble := by
  refine ⟨h, .inr ?_⟩
  show controlLogic s.ifId.inst = controlLogic nop
  rw [h]

/-- What EX hands on is decoded as it was. -/
theorem isDecoded_executed (hr : s.idEx.rd = rdField s.idEx.inst) (h : s.idEx.IsDecoded) :
    (s.executed i).IsDecoded := by
  constructor <;> simp only [executed, h.ctl, hr]

theorem isBubble_executed (hr : s.idEx.rd = rdField s.idEx.inst) (h : s.idEx.IsBubble) :
    (s.executed i).IsBubble := by
  have h₀ : s.idEx.rd = 0 := by rw [hr, h.inst]; decide
  rcases h.ctl with hc | hc
  · constructor <;> simp [executed, hc, ControlLogic.clear]
  · constructor <;> simp [executed, hc, controlLogic_nop, h₀]

theorem WellFormed.next (h : s.WellFormed) (p : Predictor) (STALL_WATCHDOG_LIMIT : BitVec 16) :
    (s.nextWith i p STALL_WATCHDOG_LIMIT).WellFormed := by
  constructor <;>
    simp only [nextWith_ifId, nextWith_idEx, nextWith_exMem, nextWith_memWb]
  · rcases s.nextIfId_cases i with ⟨-, he⟩ | ⟨-, -, he⟩ | ⟨-, -, -, -, he⟩ |
      ⟨-, -, -, -, he⟩ <;> rw [he]
    · exact h.ifId
    · exact fun _ => rfl
    · exact h.ifId
    · exact fun hv => absurd hv (by simp)
  · rcases s.nextIdEx_cases i with ⟨-, he⟩ | ⟨-, -, he⟩ | ⟨-, -, -, -, he⟩ <;> rw [he]
    · exact h.rd
    · decide
    · rfl
  · rcases s.nextIdEx_cases i with ⟨-, he⟩ | ⟨-, -, he⟩ | ⟨-, -, -, -, he⟩ <;> rw [he]
    · exact h.idEx
    · exact fun hv => absurd hv (by decide)
    · exact fun _ => ⟨rfl, rfl⟩
  · rcases s.nextIdEx_cases i with ⟨-, he⟩ | ⟨-, -, he⟩ | ⟨-, -, -, -, he⟩ <;> rw [he]
    · exact h.idExBubble
    · exact fun _ => IdEx.isBubble_clear
    · exact fun hv => isBubble_decoded (h.ifId hv)
  · rcases s.nextExMem_cases i with ⟨-, he⟩ | ⟨-, -, he⟩ | ⟨-, -, he⟩ <;> rw [he]
    · exact h.exMem
    · exact fun hv => absurd hv (by simp [ExMem.flush])
    · exact fun hv => isDecoded_executed h.rd (h.idEx hv)
  · rcases s.nextExMem_cases i with ⟨-, he⟩ | ⟨-, -, he⟩ | ⟨-, -, he⟩ <;> rw [he]
    · exact h.exMemBubble
    · exact fun _ => s.exMem.isBubble_flush
    · exact fun hv => isBubble_executed h.rd (h.idExBubble hv)
  · rcases s.nextMemWb_cases i with ⟨-, he⟩ | ⟨-, he⟩ <;> rw [he]
    · exact h.memWb
    · exact fun hv => (h.exMemBubble hv).rd

theorem IsReset.wellFormed (h : s.IsReset) : s.WellFormed := by
  obtain ⟨-, h₁, h₂, h₃, h₄, -⟩ := h
  refine ⟨?_, ?_, ?_, ?_, ?_, ?_, ?_⟩
  · exact fun _ => h₁ ▸ rfl
  · rw [h₂]; decide
  · rw [h₂]; exact fun hv => absurd hv (by decide)
  · rw [h₂]; exact fun _ => IdEx.isBubble_clear
  · rw [h₃]; exact fun hv => absurd hv (by decide)
  · rw [h₃]; exact fun _ => ExMem.isBubble_clear
  · rw [h₄]; exact fun _ hv => absurd hv (by decide)

/-- A bubble in EX neither stalls, nor jumps, nor traps. -/
theorem WellFormed.of_bubble (h : s.WellFormed) (hv : s.idEx.valid = false) :
    s.stall = false ∧ s.pcSel = false ∧ (s.trap i).pcTrapOverride = false := by
  have hb := h.idExBubble hv
  have hd : s.idExMemRead = false := by
    rcases hb.ctl with hc | hc <;> simp [idExMemRead, hc, ControlLogic.clear, controlLogic_nop]
  have hi : isMret s.idEx.inst = false := by rw [hb.inst]; decide
  refine ⟨by simp [stall, loadUseStall, hd], ?_, ?_⟩
  · simp only [pcSel, idExIsJal, idExIsJalr, branchMispredicted, idExIsBranch, hb.inst]
    simp [show opcode nop = 0b0010011 by decide]
  · rw [trap_pcTrapOverride, trap_mretExec, hi, Bool.false_and, Bool.or_false, Bool.eq_false_iff]
    intro ht
    rcases cause_of_trapTaken ht with hc | ⟨-, hc, -⟩ | ⟨-, hc, -⟩ | ⟨-, hc⟩
    · simp [timerFires, externalFires, hv] at hc
    · simp [hv] at hc
    · simp [hv] at hc
    · rw [hb.inst] at hc
      exact absurd hc (by decide)

end Core

theorem wellFormed_of_reachable {STALL_WATCHDOG_LIMIT : BitVec 16} {s : Core}
    (h : (core STALL_WATCHDOG_LIMIT).Reachable s) : s.WellFormed := by
  refine h.invariant (P := Core.WellFormed) ?_ ?_
  · exact fun _ hs => Core.IsReset.wellFormed hs
  · exact fun _ i hs _ => hs.next i.2 STALL_WATCHDOG_LIMIT

/-! ## A reset state -/

/-- The core out of reset, with zeros in what is not reset. -/
def resetCore : Core where
  pc := Core.resetPc
  ifId := .clear
  idEx := .clear
  exMem := .clear
  memWb := .clear
  regs _ := 0
  pred := ⟨fun _ => 0, 0, fun _ => 0, 0, 0⟩
  csr := ⟨0, 0, 0, 0, 0, 0⟩
  div := ⟨false, false, 0, 0, 0, 0, 0, false, false⟩
  divResultReady := false
  amo := ⟨.AMO_IDLE, 0, false⟩
  rm := ⟨0, false⟩
  uart := ⟨false, false, 0⟩
  intc := ⟨false, false, 0⟩
  accel := ⟨false, false, 0⟩
  ledsSw := 0
  stallWatchdog := 0
  stallHung := false

theorem isReset_resetCore : resetCore.IsReset := by
  simp [Core.IsReset, resetCore]

/-- A cycle on which everything outside is ready, and no interrupt is pending. -/
def CoreInputs.ready : CoreInputs where
  cacheReady := true
  ifInst := nop
  dcacheReady := true
  dcacheReadData := 0
  uartReady := true
  uartRdata := 0
  intcReady := true
  intcRdata := 0
  accelReady := true
  accelRdata := 0
  clintRdata := 0
  timerInterrupt := false
  intcIrqOut := false

/-- The run of the core from there on given inputs, with a predictor that never learns. -/
def coreTrace (ι : ℕ → CoreInputs) : ℕ → Core :=
  (core 1023).trace resetCore fun n => (ι n, resetCore.pred)

theorem isRun_coreTrace (ι : ℕ → CoreInputs) :
    (core 1023).IsRun (coreTrace ι) fun n => (ι n, resetCore.pred) :=
  Circuit.isRun_trace isReset_resetCore fun _ => trivial

end Rv32Soc
