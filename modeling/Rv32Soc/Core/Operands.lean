import Rv32Soc.Core.Stages

/-!
# Operands

What an instruction in EX uses for a source register is the value that all older
instructions leave in it: it comes from EX/MEM, from MEM/WB or from the register
file, in this order, and a load that is still in MEM has been waited for.

* `completed`: the instructions that MEM has handed on, oldest first, and
  `archRegs`: the registers when they have been executed one after the other;
* `issued`: the instructions that have left EX. They complete in order, and none is
  lost (`issued_eq`);
* `Core.OperandsHeld`: the invariant of the operands in ID/EX;
* `operands_of_isRun`: an instruction leaves EX with the operands that the program
  order gives it.
-/

namespace Rv32Soc

/-! ## The source registers of an instruction -/

/-- The format of the instruction has a first source register. Of the `SYSTEM` instructions
    these are the register forms of the CSR instructions. -/
def readsRs1 (inst : Word) : Bool :=
  match (opcode inst).toNat with
  | 0b0110011 | 0b0010011 | 0b0000011 | 0b0100011 | 0b1100011 | 0b1100111 | 0b0101111 => true
  | 0b1110011 => funct3 inst == 1 || funct3 inst == 2 || funct3 inst == 3
  | _ => false

/-- The format of the instruction has a second source register. -/
def readsRs2 (inst : Word) : Bool :=
  match (opcode inst).toNat with
  | 0b0110011 | 0b0100011 | 0b1100011 | 0b0101111 => true
  | _ => false

/-- The interlock knows every register that is read. -/
theorem rs1Used_of_readsRs1 {inst : Word} (h : readsRs1 inst) : rs1Used inst := by
  revert h
  simp only [readsRs1, rs1Used, extractLsb'_opcode]
  generalize opcode inst = c, funct3 inst = f
  revert c f
  decide +kernel

theorem rs2Used_of_readsRs2 {inst : Word} (h : readsRs2 inst) : rs2Used inst := by
  revert h
  simp only [readsRs2, rs2Used, extractLsb'_opcode]
  generalize opcode inst = c
  revert c
  decide +kernel

/-! ## The invariant -/

namespace Core

variable (s : Core) (i : CoreInputs)

/-- A valid instruction leaves EX, and is not flushed. -/
def leavesEx : Bool := s.idEx.valid && !s.globalMemStall i && !(s.trap i).flushEx

/-- A valid instruction leaves MEM. -/
def leavesMem : Bool := s.exMem.valid && !s.globalMemStall i

/-- The operand `v` that ID/EX holds for the register `r`: it is read from the register file,
    unless MEM/WB has something newer, and no load in MEM will write it. -/
structure OperandHeld (r : BitVec 5) (v : Word) : Prop where
  interlock : s.exMem.regWen → s.exMem.rd = r → r ≠ 0 → s.exMem.wbSel ≠ 0b00
  read : s.memWb.writes r = false → v = s.regs r

/-- Each register that the instruction in EX reads is held. -/
structure OperandsHeld : Prop where
  zero : s.regs 0 = 0
  rs1 : s.idEx.valid → readsRs1 s.idEx.inst → s.OperandHeld (rs1Field s.idEx.inst) s.idEx.rs1
  rs2 : s.idEx.valid → readsRs2 s.idEx.inst → s.OperandHeld (rs2Field s.idEx.inst) s.idEx.rs2

variable {s i}

theorem writes_zero (w : MemWb) : w.writes 0 = false := by
  simp [MemWb.writes]

/-- The read ports give what the register file holds after the edge. -/
theorem readData_eq_nextRegs (h : s.regs 0 = 0) (r : BitVec 5) : s.readData r = s.nextRegs r := by
  unfold readData nextRegs MemWb.writes
  by_cases hr : r = 0
  · subst hr
    simpa using h.symm
  · rw [if_neg hr, bne_iff_ne.2 hr, Bool.and_true]

/-- An operand that is being read is held: the load-use stall has seen to loads. -/
theorem operandHeld_decoded {L : BitVec 16} {p : Predictor} {r : BitVec 5} (h : s.regs 0 = 0)
    (hg : s.globalMemStall i = false) (ht : (s.trap i).pcTrapOverride = false)
    (hs : s.idExMemRead → s.idEx.rd = r → r ≠ 0 → False) :
    (s.nextWith i p L).OperandHeld r (s.readData r) where
  interlock := by
    simp only [nextWith_exMem, nextExMem, trap_flushEx, hg, ht, executed, Bool.false_eq_true, if_false]
    intro h₁ h₂ h₃ h₄
    exact hs (by simp [idExMemRead, h₁, h₄]) h₂ h₃
  read _ := readData_eq_nextRegs h r

/-- What is held stays so while the pipeline is frozen. -/
theorem OperandHeld.frozen {L : BitVec 16} {p : Predictor} {r : BitVec 5} {v : Word}
    (h : s.OperandHeld r v) (hg : s.globalMemStall i) : (s.nextWith i p L).OperandHeld r v where
  interlock := by
    simp only [nextWith_exMem, nextExMem, hg, if_true]
    exact h.interlock
  read := by
    simp only [nextWith_memWb, nextMemWb, nextWith_regs, hg, if_true]
    intro hw
    rw [nextRegs, hw]
    exact h.read hw

theorem OperandsHeld.nextRegs_zero (h : s.OperandsHeld) : s.nextRegs 0 = 0 := by
  rw [nextRegs, writes_zero]
  exact h.zero

theorem OperandsHeld.next (h : s.OperandsHeld) (p : Predictor) (L : BitVec 16) :
    (s.nextWith i p L).OperandsHeld where
  zero := h.nextRegs_zero
  rs1 := by
    rcases s.nextIdEx_cases i with ⟨hg, he⟩ | ⟨-, -, he⟩ | ⟨hg, -, hs, ht, he⟩ <;>
      simp only [nextWith_idEx, he]
    · exact fun hv hr => (h.rs1 hv hr).frozen hg
    · exact fun hv => absurd hv (by decide)
    · refine fun _ hr => operandHeld_decoded h.zero hg ht fun h₁ h₂ h₃ => ?_
      have hu := rs1Used_of_readsRs1 hr
      simp_all [stall, loadUseStall, decoded]
  rs2 := by
    rcases s.nextIdEx_cases i with ⟨hg, he⟩ | ⟨-, -, he⟩ | ⟨hg, -, hs, ht, he⟩ <;>
      simp only [nextWith_idEx, he]
    · exact fun hv hr => (h.rs2 hv hr).frozen hg
    · exact fun hv => absurd hv (by decide)
    · refine fun _ hr => operandHeld_decoded h.zero hg ht fun h₁ h₂ h₃ => ?_
      have hu := rs2Used_of_readsRs2 hr
      simp_all [stall, loadUseStall, decoded]

theorem IsReset.operandsHeld (h : s.IsReset) : s.OperandsHeld := by
  obtain ⟨-, -, h₂, -, -, h₀, -⟩ := h
  refine ⟨h₀, ?_, ?_⟩ <;> rw [h₂] <;> exact fun hv => absurd hv (by decide)

end Core

theorem operandsHeld_of_reachable {STALL_WATCHDOG_LIMIT : BitVec 16} {s : Core}
    (h : (core STALL_WATCHDOG_LIMIT).Reachable s) : s.OperandsHeld := by
  refine h.invariant (P := Core.OperandsHeld) ?_ ?_
  · exact fun _ hs => Core.IsReset.operandsHeld hs
  · exact fun _ i hs _ => hs.next i.2 STALL_WATCHDOG_LIMIT

/-! ## Forwarding -/

namespace Core

variable {s : Core} {i : CoreInputs}

/-- What writes a register is an instruction. -/
theorem WellFormed.valid_of_regWen (h : s.WellFormed) (hw : s.exMem.regWen) (hr : s.exMem.rd ≠ 0) :
    s.exMem.valid := by
  by_contra hv
  exact hr ((h.exMemBubble (Bool.eq_false_iff.2 hv)).rd hw)

theorem WellFormed.wbSel_ne (h : s.WellFormed) (hw : s.exMem.regWen) (hr : s.exMem.rd ≠ 0) :
    s.exMem.wbSel ≠ 0b11 := by
  rw [(h.exMem (h.valid_of_regWen hw hr)).wbSel]
  exact controlLogic_wbSel_ne _

/-- What works on the reservation or as an AMO is an instruction. -/
theorem WellFormed.isDecoded_of_atomic (h : s.WellFormed)
    (ha : s.exMem.isLr ∨ s.exMem.isSc ∨ s.exMem.isAmo) : s.exMem.IsDecoded := by
  refine h.exMem ?_
  by_contra hv
  have hb := h.exMemBubble (Bool.eq_false_iff.2 hv)
  simp [hb.isLr, hb.isSc, hb.isAmo] at ha

theorem WellFormed.wbSel_of_isSc (h : s.WellFormed) (hs : s.exMem.isSc) : s.exMem.wbSel = 0b01 := by
  have hd := h.isDecoded_of_atomic (.inr (.inl hs))
  rw [hd.wbSel]
  exact Rv32Soc.wbSel_of_isSc (hd.isSc ▸ hs)

theorem WellFormed.wbSel_of_isLr (h : s.WellFormed) (hs : s.exMem.isLr) : s.exMem.wbSel = 0b00 := by
  have hd := h.isDecoded_of_atomic (.inl hs)
  rw [hd.wbSel]
  exact (Rv32Soc.wbSel_of_isLr (hd.isLr ▸ hs)).1

theorem WellFormed.wbSel_of_isAmo (h : s.WellFormed) (hs : s.exMem.isAmo) : s.exMem.wbSel = 0b00 := by
  have hd := h.isDecoded_of_atomic (.inr (.inr hs))
  rw [hd.wbSel]
  exact (Rv32Soc.wbSel_of_isAmo (hd.isAmo ▸ hs)).1

/-- What the instruction in MEM will write. -/
theorem wbData_accessed :
    (s.accessed i).wbData =
      if s.exMem.wbSel = 0b01 then s.finalAluToWb
      else if s.exMem.wbSel = 0b00 then partialLoad s.exMem.inst s.finalAluToWb (s.finalMemReadData i)
      else if s.exMem.wbSel = 0b10 then s.exMem.pc + pcInc s.exMem.compressed
      else 0 := (rfl)

/-- EX/MEM forwards what its instruction will write, unless that is loaded. -/
theorem WellFormed.exMemForwardData_eq (h : s.WellFormed) (hw : s.exMem.regWen) (hr : s.exMem.rd ≠ 0)
    (hl : s.exMem.wbSel ≠ 0b00) : s.exMemForwardData = (s.accessed i).wbData := by
  have h₃ := h.wbSel_ne hw hr
  rw [exMemForwardData, wbData_accessed]
  by_cases hs : s.exMem.isSc
  · rw [if_pos hs, if_pos (h.wbSel_of_isSc hs)]
  · rw [if_neg hs, finalAluToWb, if_neg hs]
    rcases bitVec2_cases s.exMem.wbSel with h' | h' | h' | h'
    · exact absurd h' hl
    · rw [h']; rfl
    · rw [h']; rfl
    · exact absurd h' h₃

/-- The operand that is selected is what the registers hold when MEM and WB are done. -/
theorem OperandHeld.fwdMux_eq {r : BitVec 5} {v : Word} (h : s.OperandHeld r v) (hwf : s.WellFormed) :
    s.fwdMux (forward s.exMem.regWen s.exMem.wbSel s.exMem.rd s.memWb.regWen s.memWb.rd r) v =
      if (s.accessed i).writes r then (s.accessed i).wbData else s.nextRegs r := by
  by_cases hm : s.exMem.regWen ∧ s.exMem.rd = r ∧ r ≠ 0
  · obtain ⟨hw, rfl, hr⟩ := hm
    have hl := h.interlock hw rfl hr
    simp only [forward, hw, bne_iff_ne.2 hl, bne_iff_ne.2 hr, beq_self_eq_true,
      Bool.and_true, if_true, fwdMux, MemWb.writes, accessed]
    exact hwf.exMemForwardData_eq hw hr hl
  · have hm' : (s.accessed i).writes r = false := by
      simp only [MemWb.writes, accessed, Bool.and_assoc, Bool.eq_false_iff, ne_eq, Bool.and_eq_true,
        beq_iff_eq, bne_iff_ne]
      exact hm
    have hf : forward s.exMem.regWen s.exMem.wbSel s.exMem.rd s.memWb.regWen s.memWb.rd r =
        if s.memWb.writes r then .memWb else .reg := by
      simp only [forward, MemWb.writes]
      grind
    rw [hm', hf, if_neg Bool.false_ne_true, nextRegs]
    cases hw : s.memWb.writes r
    · exact h.read hw
    · rfl

theorem wbSel_ne_of_forward {r : BitVec 5}
    (h : forward s.exMem.regWen s.exMem.wbSel s.exMem.rd s.memWb.regWen s.memWb.rd r = .exMem) :
    s.exMem.wbSel ≠ 0b00 := by
  unfold forward at h
  grind

theorem writes_accessed_of_bubble (h : s.exMem.IsBubble) : (s.accessed i).writes = fun _ => false := by
  funext r
  cases hw : s.exMem.regWen
  · simp [MemWb.writes, accessed, hw]
  · simp only [MemWb.writes, accessed, h.rd hw]
    grind

end Core

/-! ## The program order -/

/-- An instruction that MEM has handed on: its EX/MEM register, and what goes to MEM/WB. -/
structure Completed where
  mem : ExMem
  wb : MemWb

/-- The registers after the instructions `l`, one after the other. -/
def archRegs (regs : BitVec 5 → Word) (l : List Completed) : BitVec 5 → Word :=
  l.foldl (fun regs c r => if c.wb.writes r then c.wb.wbData else regs r) regs

theorem archRegs_append (regs : BitVec 5 → Word) (l : List Completed) (c : Completed) :
    archRegs regs (l ++ [c]) = fun r => if c.wb.writes r then c.wb.wbData else archRegs regs l r := by
  simp [archRegs]

section

variable (σ : ℕ → Core) (ι : ℕ → CoreInputs)

/-- The instructions that have left MEM before the cycle `n`. -/
def completed : ℕ → List Completed
  | 0 => []
  | n + 1 =>
    if (σ n).leavesMem (ι n) then completed n ++ [⟨(σ n).exMem, (σ n).accessed (ι n)⟩] else completed n

/-- The instructions that have left EX before the cycle `n`. -/
def issued : ℕ → List IdEx
  | 0 => []
  | n + 1 => if (σ n).leavesEx (ι n) then issued n ++ [(σ n).idEx] else issued n

end

section

variable {STALL_WATCHDOG_LIMIT : BitVec 16} {σ : ℕ → Core} {ι : ℕ → CoreInputs}
  {π : ℕ → Predictor}

/-- The registers at a cycle, with the write of WB: all that has left MEM is done. -/
theorem archRegs_completed (h : (core STALL_WATCHDOG_LIMIT).IsRun σ fun n => (ι n, π n)) (n : ℕ) :
    archRegs (σ 0).regs (completed σ ι n) = (σ n).nextRegs := by
  induction n with
  | zero =>
    obtain ⟨-, -, -, -, h₄, -⟩ := h.init
    funext r
    simp [completed, archRegs, Core.nextRegs, MemWb.writes, h₄, MemWb.clear]
  | succ n ih =>
    have hwf := wellFormed_of_reachable (h.reachable n)
    rw [core_next h n, completed]
    by_cases hl : (σ n).leavesMem (ι n)
    · obtain ⟨hv, hg⟩ : (σ n).exMem.valid ∧ (σ n).globalMemStall (ι n) = false := by
        simpa [Core.leavesMem] using hl
      rw [if_pos hl, archRegs_append, ih]
      funext r
      simp only [Core.nextRegs, Core.nextWith_memWb, Core.nextWith_regs, Core.nextMemWb, hg]
      rfl
    · rw [if_neg hl, ih]
      funext r
      rcases (σ n).nextMemWb_cases (ι n) with ⟨hg, he⟩ | ⟨hg, he⟩
      · simp only [Core.nextRegs, Core.nextWith_memWb, Core.nextWith_regs, he]
        split <;> rfl
      · -- A bubble leaves MEM, and writes nothing.
        have hv : (σ n).exMem.valid = false := by
          simpa [Core.leavesMem, hg] using hl
        rw [Core.nextRegs.eq_1 (Core.nextWith _ _ _ _), Core.nextWith_memWb, he,
          Core.writes_accessed_of_bubble (hwf.exMemBubble hv)]
        rfl

/-- All that has left EX has left MEM, or is there. -/
theorem issued_eq (h : (core STALL_WATCHDOG_LIMIT).IsRun σ fun n => (ι n, π n)) (n : ℕ) :
    (issued σ ι n).map (fun e => (e.pc, e.inst)) =
      (completed σ ι n).map (fun c => (c.wb.pc, c.wb.inst)) ++
        if (σ n).exMem.valid then [((σ n).exMem.pc, (σ n).exMem.inst)] else [] := by
  induction n with
  | zero =>
    obtain ⟨-, -, -, h₃, -⟩ := h.init
    simp [issued, completed, h₃, ExMem.clear]
  | succ n ih =>
    rw [core_next h n, issued, completed, Core.nextWith_exMem]
    rcases (σ n).nextExMem_cases (ι n) with ⟨hg, he⟩ | ⟨hg, ht, he⟩ | ⟨hg, ht, he⟩
    · have hx : (σ n).leavesEx (ι n) = false := by simp [Core.leavesEx, hg]
      have hm : (σ n).leavesMem (ι n) = false := by simp [Core.leavesMem, hg]
      simp [hx, hm, he, ih]
    · have hx : (σ n).leavesEx (ι n) = false := by simp [Core.leavesEx, ht]
      have hm : (σ n).leavesMem (ι n) = (σ n).exMem.valid := by simp [Core.leavesMem, hg]
      rw [hx, hm, he]
      cases hv : (σ n).exMem.valid <;> simp [ih, hv, ExMem.flush, Core.accessed]
    · have hx : (σ n).leavesEx (ι n) = (σ n).idEx.valid := by simp [Core.leavesEx, hg, ht]
      have hm : (σ n).leavesMem (ι n) = (σ n).exMem.valid := by simp [Core.leavesMem, hg]
      rw [hx, hm, he]
      cases hv : (σ n).exMem.valid <;> cases hv' : (σ n).idEx.valid <;>
        simp [ih, hv, hv', Core.accessed, Core.executed]

/-- The registers when an instruction leaves EX: all older instructions are done. -/
theorem archRegs_completed_succ (h : (core STALL_WATCHDOG_LIMIT).IsRun σ fun n => (ι n, π n)) {n : ℕ}
    (hg : (σ n).globalMemStall (ι n) = false) (r : BitVec 5) :
    archRegs (σ 0).regs (completed σ ι (n + 1)) r =
      if ((σ n).accessed (ι n)).writes r then ((σ n).accessed (ι n)).wbData else (σ n).nextRegs r := by
  rw [archRegs_completed h, core_next h n]
  simp only [Core.nextRegs.eq_1 (Core.nextWith _ _ _ _), Core.nextWith_memWb, Core.nextWith_regs,
    Core.nextMemWb, hg]
  rfl

theorem fwdRs1_eq (h : (core STALL_WATCHDOG_LIMIT).IsRun σ fun n => (ι n, π n)) {n : ℕ}
    (hv : (σ n).idEx.valid) (hg : (σ n).globalMemStall (ι n) = false) (hr : readsRs1 (σ n).idEx.inst) :
    (σ n).fwdRs1 = archRegs (σ 0).regs (completed σ ι (n + 1)) (rs1Field (σ n).idEx.inst) := by
  rw [archRegs_completed_succ h hg]
  exact ((operandsHeld_of_reachable (h.reachable n)).rs1 hv hr).fwdMux_eq
    (wellFormed_of_reachable (h.reachable n))

theorem fwdRs2_eq (h : (core STALL_WATCHDOG_LIMIT).IsRun σ fun n => (ι n, π n)) {n : ℕ}
    (hv : (σ n).idEx.valid) (hg : (σ n).globalMemStall (ι n) = false) (hr : readsRs2 (σ n).idEx.inst) :
    (σ n).fwdRs2 = archRegs (σ 0).regs (completed σ ι (n + 1)) (rs2Field (σ n).idEx.inst) := by
  rw [archRegs_completed_succ h hg]
  exact ((operandsHeld_of_reachable (h.reachable n)).rs2 hv hr).fwdMux_eq
    (wellFormed_of_reachable (h.reachable n))

/-- An instruction leaves EX with the operands that the program order gives it: for each register
    that it reads, what the older instructions leave there, all of which have completed; and
    nothing that is still to be loaded is ever forwarded. -/
theorem operands_of_isRun (h : (core STALL_WATCHDOG_LIMIT).IsRun σ fun n => (ι n, π n)) (n : ℕ)
    (hl : (σ n).leavesEx (ι n)) :
    (issued σ ι n).map (fun e => (e.pc, e.inst)) =
        (completed σ ι (n + 1)).map (fun c => (c.wb.pc, c.wb.inst)) ∧
      (readsRs1 (σ n).idEx.inst →
        (σ n).fwdRs1 = archRegs (σ 0).regs (completed σ ι (n + 1)) (rs1Field (σ n).idEx.inst)) ∧
      (readsRs2 (σ n).idEx.inst →
        (σ n).fwdRs2 = archRegs (σ 0).regs (completed σ ι (n + 1)) (rs2Field (σ n).idEx.inst)) ∧
      archRegs (σ 0).regs (completed σ ι (n + 1)) 0 = 0 ∧
      ((σ n).fwdA = .exMem ∨ (σ n).fwdB = .exMem →
        (σ n).isLoad = false ∧ (σ n).exMem.isLr = false ∧ (σ n).exMem.isAmo = false) := by
  obtain ⟨⟨hv, hg⟩, -⟩ : ((σ n).idEx.valid ∧ (σ n).globalMemStall (ι n) = false) ∧ _ := by
    simpa [Core.leavesEx] using hl
  refine ⟨?_, fwdRs1_eq h hv hg, fwdRs2_eq h hv hg, ?_, fun hf => ?_⟩
  · have hm : (σ n).leavesMem (ι n) = (σ n).exMem.valid := by simp [Core.leavesMem, hg]
    rw [issued_eq h n, completed, hm]
    cases (σ n).exMem.valid <;> simp [Core.accessed]
  · rw [archRegs_completed h]
    exact (operandsHeld_of_reachable (h.reachable (n + 1))).nextRegs_zero
  · have hwf := wellFormed_of_reachable (h.reachable n)
    have hs : (σ n).exMem.wbSel ≠ 0b00 := hf.elim Core.wbSel_ne_of_forward Core.wbSel_ne_of_forward
    refine ⟨?_, ?_, ?_⟩
    · rw [Core.isLoad, beq_false_of_ne hs, Bool.false_and, Bool.false_and]
    · exact Bool.eq_false_iff.2 fun hr => hs (hwf.wbSel_of_isLr hr)
    · exact Bool.eq_false_iff.2 fun ha => hs (hwf.wbSel_of_isAmo ha)

end

/-! ## A run -/

/-- `lw x1, 0(x0)` and `add x2, x1, x1`, the loaded word being `7`. -/
def loadUse (n : ℕ) : CoreInputs :=
  { CoreInputs.ready with
    ifInst := if n = 0 then 0x00002083 else if n = 1 then 0x00108133 else nop
    dcacheReadData := 7 }

/-- The sum waits for the load, which then comes from MEM/WB. -/
theorem loadUse_operands :
    (coreTrace loadUse 2).stall ∧ (coreTrace loadUse 4).leavesEx (loadUse 4) ∧
      (coreTrace loadUse 4).fwdRs1 = 7 ∧
      archRegs resetCore.regs (completed (coreTrace loadUse) loadUse 5) 1 = 7 := by
  have hl : (coreTrace loadUse 4).leavesEx (loadUse 4) := by decide +kernel
  have h₁ : (coreTrace loadUse 4).fwdRs1 = 7 := by decide +kernel
  have h := (operands_of_isRun (isRun_coreTrace loadUse) 4 hl).2.1 (by decide +kernel)
  exact ⟨by decide +kernel, hl, h₁, h.symm.trans h₁⟩

end Rv32Soc
