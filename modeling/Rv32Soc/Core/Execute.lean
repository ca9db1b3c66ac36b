import Rv32Soc.Core.Division
import Rv32Soc.Core.Fetch
import Rv32Soc.Core.System

/-!
# Execution of an instruction

The decoder, the control words and the units of EX and MEM, against the instructions of the manual.
An instruction in EX with operands from the registers of a state (`Core.Executes`) redirects fetch,
writes its register and accesses memory as `Riscv.Instr.exec` has it (`Core.Effect`).

* `alu_aluOp`, `alu_mulOp`, `alu_shAddOp`, `branchTaken_eq`: the units;
* `Core.Executes.effect_writes`, `Core.Executes.effect_store`: an instruction by its control word;
* `effect_of_decode`: all instructions.
-/

namespace Rv32Soc

open Riscv (AluOp MulDivOp ShAddOp BranchOp LoadOp StoreOp AmoOp Instr)

/-! ## The units -/

/-- The code of an operation in a control word. -/
def aluSelOf : AluOp → BitVec 5
  | .add => 0
  | .sub => 12
  | .sll => 1
  | .slt => 2
  | .sltu => 3
  | .xor => 4
  | .srl => 5
  | .sra => 13
  | .or => 6
  | .and => 7

theorem alu_aluOp (op : AluOp) (x y : Word) : alu x y (aluSelOf op) = op.eval x y := by
  have hshamt : (y.extractLsb' 0 5).toNat = y.toNat % 32 := by
    rw [BitVec.extractLsb'_toNat, Nat.shiftRight_zero]
  have hslt : x.slt y = decide (x.toInt < y.toInt) := rfl
  cases op <;> simp [alu, aluSelOf, AluOp.eval, hshamt, hslt, BitVec.lt_def]

/-- A shift takes the lower five bits of its second operand. -/
theorem eval_shift {op : AluOp} (h : op = .sll ∨ op = .srl ∨ op = .sra) (x : Word) {y z : Word}
    (he : y.toNat % 32 = z.toNat % 32) : op.eval x y = op.eval x z := by
  rcases h with rfl | rfl | rfl <;> simp only [AluOp.eval, he]

/-- The lower bits of an immediate. -/
theorem immI_mod (inst : Word) : (immI inst).toNat % 32 = (rs2Field inst).toNat := by
  have h : (immI inst).extractLsb' 0 5 = rs2Field inst := by
    apply BitVec.eq_of_getLsbD_eq
    intro k hk
    simp only [immI, rs2Field, BitVec.getLsbD_extractLsb', BitVec.getLsbD_signExtend, hk,
      decide_true, Bool.true_and, Nat.zero_add]
    simp [show k < 12 by omega, show k < 32 by omega]
  rw [← h, BitVec.extractLsb'_toNat, Nat.shiftRight_zero]

theorem opImmImm_mod (inst : Word) :
    ((rs2Field inst).setWidth 32 : Word).toNat % 32 = (rs2Field inst).toNat := by
  have := (rs2Field inst).isLt
  rw [BitVec.toNat_setWidth]
  omega

def aluSelOfMul : MulDivOp → BitVec 5
  | .mul => 8
  | .mulh => 9
  | .mulhsu => 10
  | .mulhu => 11
  | .div => 16
  | .divu => 17
  | .rem => 18
  | .remu => 19

/-- An operand of the multiplier: one bit more, for the sign. -/
theorem signExtend_operand (x : Word) (isSigned : Bool) :
    (BitVec.ofBool (isSigned && x.getLsbD 31) ++ x : BitVec 33).signExtend 66 =
      BitVec.ofInt 66 (if isSigned then x.toInt else x.toNat) := by
  have hmsb : x.getLsbD 31 = decide (2 ^ 31 ≤ x.toNat) := by
    rw [← BitVec.msb_eq_getLsbD_last, BitVec.msb_eq_decide]
  have hx := x.isLt
  rw [BitVec.signExtend]
  congr 1
  rw [BitVec.toInt_eq_toNat_cond, toNat_append_eq, hmsb]
  cases isSigned
  · rw [Bool.false_and, if_neg Bool.false_ne_true, if_pos (by simp; omega)]
    simp
  · rw [Bool.true_and, if_pos rfl, BitVec.toInt_eq_toNat_cond]
    by_cases hneg : 2 ^ 31 ≤ x.toNat
    · rw [decide_eq_true hneg, if_neg (by simp; omega), if_neg (by omega)]
      simp
      omega
    · rw [decide_eq_false hneg, if_pos (by simp; omega), if_pos (by omega)]
      simp

/-- A half of a product. -/
theorem extractLsb'_ofInt (z : ℤ) :
    (BitVec.ofInt 66 z).extractLsb' 0 32 = BitVec.ofInt 32 z ∧
      (BitVec.ofInt 66 z).extractLsb' 32 32 = BitVec.ofInt 32 (z / 2 ^ 32) := by
  constructor <;> apply BitVec.eq_of_toNat_eq
  · rw [BitVec.extractLsb'_toNat, BitVec.toNat_ofInt, BitVec.toNat_ofInt, Nat.shiftRight_zero]
    omega
  · rw [BitVec.extractLsb'_toNat, BitVec.toNat_ofInt, BitVec.toNat_ofInt, Nat.shiftRight_eq_div_pow]
    omega

/-- One multiplier serves all products. -/
theorem alu_mulOp {op : MulDivOp} (h : op = .mul ∨ op = .mulh ∨ op = .mulhsu ∨
    op = .mulhu) (x y : Word) :
    alu x y (aluSelOfMul op) = op.eval x y := by
  rcases h with rfl | rfl | rfl | rfl <;>
  simp only [alu, aluSelOfMul, signExtend_operand, ← BitVec.ofInt_mul, MulDivOp.eval]
  · exact (extractLsb'_ofInt _).1
  · exact (extractLsb'_ofInt _).2
  · exact (extractLsb'_ofInt _).2
  · exact (extractLsb'_ofInt _).2.trans (BitVec.ofInt_natCast ..)

def aluSelOfShAdd : ShAddOp → BitVec 5
  | .sh1add => 20
  | .sh2add => 21
  | .sh3add => 22

theorem alu_shAddOp (op : ShAddOp) (x y : Word) : alu x y (aluSelOfShAdd op) = op.eval x y := by
  cases op <;> rfl

/-- A branch is taken as its operation has it. -/
theorem branchTaken_eq {inst : Word} {op : BranchOp}
    (h : Riscv.branchOp (funct3 inst) = some op) (x y : Word) :
    branchTaken inst x y = op.taken x y := by
  unfold branchTaken
  unfold Riscv.branchOp at h
  generalize (funct3 inst).toNat = f at h ⊢
  split at h <;> cases h
  all_goals
    rw [Bool.eq_iff_iff]
    simp [BranchOp.taken, BitVec.slt, BitVec.lt_def]

/-! ## The instruction in EX -/

namespace Core

/-- The instruction in EX, decoded, with the operands that the state `a` has for it. The divider
    holds what it computes from them. -/
structure Executes (s : Core) (inst : Word) (compressed : Bool) (a : Riscv.State) : Prop where
  holds : s.idEx.inst = inst
  decoded : s.idEx.IsDecoded
  rd : s.idEx.rd = rdField s.idEx.inst
  compressed : s.idEx.compressed = compressed
  pc : s.idEx.pc = a.pc
  rs1 : s.fwdRs1 = a.get (rs1Field inst)
  rs2 : s.fwdRs2 = a.get (rs2Field inst)
  div : s.isDivOp → (s.div.quotient, s.div.remainder) = DivUnit.result s.aluA s.aluB
    (!s.idEx.ctl.aluSel.getLsbD 0)

/-- What EX handed on is in MEM, which finds the memory of `a`, and a reservation or none. -/
structure InMem (s : Core) (i : CoreInputs) (reserved : Bool) (a : Riscv.State) (t : Core) : Prop where
  exMem : t.exMem = s.executed i
  reserved : t.scSuccessFlag = reserved
  amo : t.exMem.isAmo → t.amo.amoOldValue = a.mem.word t.exMem.alu

/-- Memory after a cycle with the instruction in MEM. -/
def stored (t : Core) (m : Mem) : Mem :=
  if t.storeCommits || t.amoWritePhase then m.store t.exMem.alu t.storeData t.memWriteMask else m

/-- The registers after the instruction has been in WB. -/
def writtenBack (t : Core) (j : CoreInputs) (a : Riscv.State) (r : BitVec 5) : Word :=
  if (t.accessed j).writes r then (t.accessed j).wbData else a.get r

/-- The instruction in EX takes the state `a` to `b`: by the address that fetch goes on from, by the
    word that MEM writes (an AMO in the phase of the sequencer for it), and by what WB writes to its
    register. -/
structure Effect (s : Core) (i : CoreInputs) (reserved : Bool) (a b : Riscv.State) : Prop where
  legal : s.idEx.ctl.illegalInst = false
  aligned : s.exMisalignLoad = false ∧ s.exMisalignStore = false
  pc : s.exRedirectTarget = b.pc
  mem : ∀ t, InMem s i reserved a t → (t.exMem.isAmo → t.amoWritePhase) → t.stored a.mem = b.mem
  regs : ∀ t j, InMem s i reserved a t →
    (t.exMem.wbSel = 0 → t.exMem.isAmo = false → t.finalMemReadData j = a.mem.word t.exMem.alu) →
    ∀ r, t.writtenBack j a r = b.get r

end Core

/-! ## The control words -/

/-- The decoder finds the control word `k` for an instruction that is neither atomic nor `SYSTEM`. -/
structure Decodes (inst : Word) (k : BitVec 6) : Prop where
  romDecoder : romDecoder inst = some k
  atomic : opcode inst ≠ 0b0101111
  system : opcode inst ≠ 0b1110011

theorem Decodes.controlLogic {inst : Word} {k : BitVec 6} (h : Decodes inst k) :
    (controlLogic inst).toControl = rom k ∧ (controlLogic inst).illegalInst = false ∧
      (controlLogic inst).isLr = false ∧ (controlLogic inst).isSc = false ∧
      (controlLogic inst).isAmo = false ∧
      (controlLogic inst).csrWen = false := by
  have ha : ¬opcode inst = 47#7 := h.atomic
  have hs : ¬opcode inst = 115#7 := h.system
  simp [Rv32Soc.controlLogic, h.romDecoder, ha, hs]

theorem Decodes.of_case {inst : Word} {c : BitVec 7} {k : BitVec 6} (h : opcode inst = c)
    (hc : c ∈ [0b0110111, 0b0010111, 0b1101111, 0b1100111, 0b1100011, 0b0000011, 0b0100011,
      (0b0010011 : BitVec 7)])
    (hk : romCase (c.extractLsb' 2 5) (funct3 inst) ((Riscv.funct7 inst).getLsbD 5)
      ((Riscv.funct7 inst).getLsbD 0) = some k) :
    Decodes inst k := by
  have h30 : (Riscv.funct7 inst).getLsbD 5 = inst.getLsbD 30 := by simp [Riscv.funct7]
  have h25 : (Riscv.funct7 inst).getLsbD 0 = inst.getLsbD 25 := by simp [Riscv.funct7]
  rw [h30, h25] at hk
  have hne : ∀ c ∈ [0b0110111, 0b0010111, 0b1101111, 0b1100111, 0b1100011, 0b0000011, 0b0100011,
    (0b0010011 : BitVec 7)],
      c ≠ 0 ∧ c ≠ 0b1111111 ∧ c ≠ 0b0101111 ∧ c ≠ 0b1110011 ∧
        c.extractLsb' 2 5 ∉ [0b01011, 0b11100, 0b00011, (0b01100 : BitVec 5)] := by decide
  obtain ⟨h₀, h₁, ha, hs, hl⟩ := hne c hc
  exact ⟨(romDecoder_case h h₀ h₁ hl).trans hk, h ▸ ha, h ▸ hs⟩

/-- The control words of the instructions on two registers. -/
def romOfReg : AluOp → BitVec 6
  | .add => 0
  | .sub => 2
  | .sll => 3
  | .slt => 6
  | .sltu => 43
  | .xor => 7
  | .srl => 8
  | .sra => 9
  | .or => 10
  | .and => 11

def romOfImm : AluOp → BitVec 6
  | .add | .sub => 15
  | .sll => 16
  | .slt => 17
  | .sltu => 44
  | .xor => 18
  | .srl => 19
  | .sra => 20
  | .or => 21
  | .and => 22

def romOfMul : MulDivOp → BitVec 6
  | .mul => 1
  | .mulh => 4
  | .mulhsu => 48
  | .mulhu => 5
  | .div => 39
  | .divu => 40
  | .rem => 41
  | .remu => 42

def romOfShAdd : ShAddOp → BitVec 6
  | .sh1add => 45
  | .sh2add => 46
  | .sh3add => 47

def romOfOp : AluOp ⊕ MulDivOp ⊕ ShAddOp → BitVec 6
  | .inl op => romOfReg op
  | .inr (.inl op) => romOfMul op
  | .inr (.inr op) => romOfShAdd op

theorem decodes_opImm {inst : Word} {op : AluOp} (h : opcode inst = 0b0010011)
    (hop : Riscv.opImmOp (funct3 inst) (Riscv.funct7 inst) = some op) :
      Decodes inst (romOfImm op) ∧ op ≠ .sub := by
  have hcase : ∀ f₃ f₇ op, Riscv.opImmOp f₃ f₇ = some op →
      romCase 0b00100 f₃ (f₇.getLsbD 5) (f₇.getLsbD 0) = some (romOfImm op) ∧ op ≠ .sub := by
    have hall : ∀ f₃ f₇, ∀ op ∈ Riscv.opImmOp f₃ f₇,
        romCase 0b00100 f₃ (f₇.getLsbD 5) (f₇.getLsbD 0) = some (romOfImm op) ∧ op ≠ .sub := by
      decide +kernel
    exact hall
  obtain ⟨hk, hne⟩ := hcase _ _ _ hop
  exact ⟨.of_case h (by decide) hk, hne⟩

theorem decodes_opOp {inst : Word} {op : AluOp ⊕ MulDivOp ⊕ ShAddOp} (h : opcode inst = 0b0110011)
    (hop : Riscv.opOp (funct3 inst) (Riscv.funct7 inst) = some op) : Decodes inst (romOfOp op) := by
  have h30 : inst.getLsbD 30 = (Riscv.funct7 inst).getLsbD 5 := by simp [Riscv.funct7]
  have h25 : inst.getLsbD 25 = (Riscv.funct7 inst).getLsbD 0 := by simp [Riscv.funct7]
  have hall : ∀ f₃ f₇, ∀ op ∈ Riscv.opOp f₃ f₇,
      (if f₇ = 0b0010000#7 then
        if f₃ = 0b010 then some 45 else if f₃ = 0b100 then some 46
          else if f₃ = 0b110 then some 47 else none
      else romCase 0b01100 f₃ (f₇.getLsbD 5) (f₇.getLsbD 0)) = some (romOfOp op) := by
    decide +kernel
  refine ⟨?_, by rw [h]; decide, by rw [h]; decide⟩
  rw [romDecoder_op h, h30, h25]
  exact hall _ _ _ hop

/-! ## An instruction in EX -/

namespace Core

variable {s : Core} {i : CoreInputs} {inst : Word} {compressed reserved : Bool}
  {a : Riscv.State} {k : BitVec 6}

namespace Executes

variable (E : s.Executes inst compressed a)

include E

theorem ctl : s.idEx.ctl = controlLogic inst := by rw [E.decoded.ctl, E.holds]

theorem imm : s.idEx.imm = immgen inst (controlLogic inst).immSel := by rw [E.decoded.imm, E.holds]

theorem exRedirectTarget_eq (he : IsEven a.pc) (hl : (controlLogic inst).illegalInst = false) :
    s.exRedirectTarget = successor a.pc inst compressed (a.get (rs1Field inst))
      (a.get (rs2Field inst)) := by
  have h := Core.exRedirectTarget_eq E.decoded (by rw [E.ctl, hl]) (E.pc ▸ he)
  rwa [E.pc, E.holds, E.compressed, E.rs1, E.rs2] at h

/-- The operands of EX. -/
theorem aluA_eq : s.aluA = if (controlLogic inst).aSel then a.pc else a.get (rs1Field inst) := by
  rw [aluA, E.ctl, E.pc, E.rs1]

theorem aluB_eq :
    s.aluB = if (controlLogic inst).bSel then immgen inst (controlLogic inst).immSel
      else a.get (rs2Field inst) := by
  rw [aluB, E.ctl, E.imm, E.rs2]

theorem isDivOp_eq : s.isDivOp = ((controlLogic inst).aluSel.extractLsb' 2 3 == 0b100#3) := by
    rw [isDivOp, E.ctl]

/-- The result of an instruction that neither divides nor reads a CSR. -/
theorem alu_eq (hc : (controlLogic inst).csrWen = false)
    (hd : ((controlLogic inst).aluSel.extractLsb' 2 3 == 0b100#3) = false) :
    (s.executed i).alu = alu s.aluA s.aluB (controlLogic inst).aluSel := by
  show s.actualExResult i = _
  rw [actualExResult, E.ctl, hc, if_neg Bool.false_ne_true, exResult, E.isDivOp_eq, hd,
    if_neg Bool.false_ne_true, E.ctl]

/-- The register that WB writes. -/
theorem writtenBack_eq {t : Core} {j : CoreInputs} (h : s.InMem i reserved a t)
    (hw : (controlLogic inst).regWen) {next : Word} {m : Mem} (r : BitVec 5) :
    t.writtenBack j a r = Riscv.State.get ⟨next,
      a.setReg (rdField inst) (t.accessed j).wbData, m⟩ r := by
  have hwrites : (t.accessed j).writes r = (rdField inst == r && r != 0) := by
    rw [MemWb.writes]
    show (t.exMem.regWen && t.exMem.rd == r && r != 0) = _
    rw [h.exMem]
    show (s.idEx.ctl.regWen && s.idEx.rd == r && r != 0) = _
    rw [E.ctl, hw, E.rd, E.holds, Bool.true_and]
  rw [writtenBack, hwrites, Riscv.State.get, Riscv.State.get]
  by_cases h0 : r = 0
  · rw [if_pos h0, if_pos h0, if_neg (by simp [h0])]
  · rw [if_neg h0, if_neg h0]
    simp only [Riscv.State.setReg]
    by_cases hr : rdField inst = r
    · subst hr
      rw [if_pos (by simpa using h0), if_pos ⟨rfl, h0⟩]
    · rw [if_neg (by simp [hr]), if_neg fun h' => hr h'.1.symm]

/-- No register is written. -/
theorem writtenBack_of_regWen {t : Core} {j : CoreInputs} (h : s.InMem i reserved a t)
    (hw : (controlLogic inst).regWen = false) (r : BitVec 5) : t.writtenBack j a r = a.get r := by
  have hwrites : (t.accessed j).writes r = false := by
    rw [MemWb.writes]
    show (t.exMem.regWen && t.exMem.rd == r && r != 0) = _
    rw [h.exMem]
    show (s.idEx.ctl.regWen && s.idEx.rd == r && r != 0) = _
    rw [E.ctl, hw, Bool.false_and, Bool.false_and]
  rw [writtenBack, hwrites, if_neg Bool.false_ne_true]

/-- Memory is not written. -/
theorem stored_eq {t : Core} (h : s.InMem i reserved a t) (hm : (controlLogic inst).memRw = false)
    (ha : (controlLogic inst).isAmo = false) : t.stored a.mem = a.mem := by
  have hm' : t.exMem.memRw = false := by
    rw [h.exMem]
    show s.idEx.ctl.memRw = false
    rw [E.ctl, hm]
  have ha' : t.exMem.isAmo = false := by
    rw [h.exMem]
    show s.idEx.ctl.isAmo = false
    rw [E.ctl, ha]
  simp [stored, storeCommits, isStore, amoWritePhase, hm', ha']

/-- Only accesses can be misaligned. -/
theorem aligned_of_opcode
    (h : opcode inst ≠ 0b0000011 ∧ opcode inst ≠ 0b0100011 ∧ opcode inst ≠ 0b0101111) :
    s.exMisalignLoad = false ∧ s.exMisalignStore = false := by
  obtain ⟨h₁, h₂, h₃⟩ := h
  rw [exMisalignLoad, exMisalignStore, E.holds, beq_false_of_ne h₁, beq_false_of_ne h₂,
    beq_false_of_ne h₃]
  exact ⟨rfl, rfl⟩

/-- An instruction that writes a register and leaves memory alone. -/
theorem effect_writes (he : IsEven a.pc) (hl : (controlLogic inst).illegalInst = false)
    (hw : (controlLogic inst).regWen) (hm : (controlLogic inst).memRw = false)
    (hamo : (controlLogic inst).isAmo = false)
    (hal : s.exMisalignLoad = false ∧ s.exMisalignStore = false) {v : Word}
    (hv : ∀ t j, s.InMem i reserved a t →
      (t.exMem.wbSel = 0 → t.exMem.isAmo = false → t.finalMemReadData j = a.mem.word t.exMem.alu) →
      (t.accessed j).wbData = v) :
    s.Effect i reserved a
      { a with
        pc := successor a.pc inst compressed (a.get (rs1Field inst)) (a.get (rs2Field inst))
        regs := a.setReg (rdField inst) v } where
  legal := by rw [E.ctl, hl]
  aligned := hal
  pc := E.exRedirectTarget_eq he hl
  mem t ht _ := E.stored_eq ht hm hamo
  regs t j ht hj r := by rw [E.writtenBack_eq ht hw r, hv t j ht hj]

/-- What WB writes for an instruction that computes or links. -/
theorem wbData_computed {t : Core} {j : CoreInputs} (h : s.InMem i reserved a t)
    (hwb : (controlLogic inst).wbSel = 0b01)
    (hsc : (controlLogic inst).isSc = false) : (t.accessed j).wbData = (s.executed i).alu := by
  have hsc' : t.exMem.isSc = false := by
    rw [h.exMem]
    show s.idEx.ctl.isSc = false
    rw [E.ctl, hsc]
  have hwb' : (t.accessed j).wbSel = 0b01 := by
    show t.exMem.wbSel = _
    rw [h.exMem]
    show s.idEx.ctl.wbSel = _
    rw [E.ctl, hwb]
  rw [MemWb.wbData, if_pos hwb']
  show t.finalAluToWb = _
  rw [finalAluToWb, hsc', if_neg Bool.false_ne_true, h.exMem]

theorem wbData_link {t : Core} {j : CoreInputs} (h : s.InMem i reserved a t)
    (hwb : (controlLogic inst).wbSel = 0b10) :
    (t.accessed j).wbData = a.pc + pcInc compressed := by
  have hwb' : (t.accessed j).wbSel = 0b10 := by
    show t.exMem.wbSel = _
    rw [h.exMem]
    show s.idEx.ctl.wbSel = _
    rw [E.ctl, hwb]
  rw [MemWb.wbData, hwb', if_neg (by decide), if_neg (by decide), if_pos rfl]
  show t.exMem.pc + pcInc t.exMem.compressed = _
  rw [h.exMem]
  show s.idEx.pc + pcInc s.idEx.compressed = _
  rw [E.pc, E.compressed]

theorem wbData_loaded {t : Core} {j : CoreInputs} (h : s.InMem i reserved a t)
    (hwb : (controlLogic inst).wbSel = 0b00)
    (hj : t.exMem.wbSel = 0 → t.exMem.isAmo = false → t.finalMemReadData j = a.mem.word t.exMem.alu) :
    (t.accessed j).wbData = partialLoad inst (s.executed i).alu (a.mem.word (s.executed i).alu) := by
  have hwb' : t.exMem.wbSel = 0b00 := by
    rw [h.exMem]
    show s.idEx.ctl.wbSel = _
    rw [E.ctl, hwb]
  have hinst : t.exMem.inst = inst := by
    rw [h.exMem]
    exact E.holds
  have hdata : t.finalMemReadData j = a.mem.word t.exMem.alu := by
    cases hamo : t.exMem.isAmo
    · exact hj hwb' hamo
    · rw [finalMemReadData, if_pos hamo, h.amo hamo]
  -- a store-conditional does not return what it reads
  have hsc : t.exMem.isSc = false := by
    rw [h.exMem]
    show s.idEx.ctl.isSc = false
    rw [E.ctl, Bool.eq_false_iff]
    intro hsc
    rw [wbSel_of_isSc hsc] at hwb
    exact absurd hwb (by decide)
  rw [MemWb.wbData]
  show (if t.exMem.wbSel = _ then _
    else if t.exMem.wbSel = _ then partialLoad t.exMem.inst t.finalAluToWb (t.finalMemReadData j)
    else _) = _
  rw [hwb', if_neg (by decide), if_pos rfl, hdata, hinst, finalAluToWb, hsc,
    if_neg Bool.false_ne_true, h.exMem]

/-- An instruction that computes its result. -/
theorem effect_computed (hd : Decodes inst k) (hk : (rom k).regWen ∧ (rom k).memRw = false ∧
    (rom k).wbSel = 0b01)
    (he : IsEven a.pc) (ho : opcode inst ≠ 0b0000011 ∧ opcode inst ≠ 0b0100011) :
    s.Effect i reserved a
      { a with
        pc := successor a.pc inst compressed (a.get (rs1Field inst)) (a.get (rs2Field inst))
        regs := a.setReg (rdField inst) (s.executed i).alu } := by
  obtain ⟨hctl, hl, -, hsc, hamo, -⟩ := hd.controlLogic
  obtain ⟨hw, hm, hwb⟩ := hk
  refine E.effect_writes he hl (by rw [hctl, hw]) (by rw [hctl, hm]) hamo (E.aligned_of_opcode ⟨ho.1,
    ho.2, hd.atomic⟩) ?_
  intro t j ht _
  exact E.wbData_computed ht (by rw [hctl, hwb]) hsc

/-- What the ALU computes for it. -/
theorem alu_of_decodes (hd : Decodes inst k)
    (hdiv : ((rom k).aluSel.extractLsb' 2 3 == 0b100#3) = false) :
    (s.executed i).alu =
      alu (if (rom k).aSel then a.pc else a.get (rs1Field inst))
        (if (rom k).bSel then immgen inst (rom k).immSel else a.get (rs2Field inst)) (rom k).aluSel := by
  obtain ⟨hctl, -, -, -, -, hcsr⟩ := hd.controlLogic
  rw [E.alu_eq hcsr (by rw [hctl, hdiv]), E.aluA_eq, E.aluB_eq, hctl]

/-- What the divider has computed for it. -/
theorem div_of_decodes (hd : Decodes inst k) (hdiv : ((rom k).aluSel.extractLsb' 2 3 == 0b100#3) = true)
    (hab : (rom k).aSel = false ∧ (rom k).bSel = false) :
    (s.executed i).alu =
      if (rom k).aluSel.getLsbD 1 then
        (DivUnit.result (a.get (rs1Field inst)) (a.get (rs2Field inst)) (!(rom k).aluSel.getLsbD 0)).2
      else (DivUnit.result (a.get (rs1Field inst)) (a.get (rs2Field inst))
        (!(rom k).aluSel.getLsbD 0)).1 := by
  obtain ⟨hctl, -, -, -, -, hcsr⟩ := hd.controlLogic
  have hop : s.isDivOp := by rw [E.isDivOp_eq, hctl, hdiv]
  have hres := E.div hop
  rw [E.aluA_eq, E.aluB_eq, E.ctl, hctl, hab.1, hab.2, if_neg Bool.false_ne_true,
    if_neg Bool.false_ne_true] at hres
  show s.actualExResult i = _
  rw [actualExResult, E.ctl, hcsr, if_neg Bool.false_ne_true, exResult, if_pos hop, E.ctl, hctl, ← hres]

end Executes

theorem successor_seq {pc x y : Word} (h : opcode inst ≠ 0b1101111 ∧ opcode inst ≠ 0b1100111 ∧
    opcode inst ≠ 0b1100011) :
    successor pc inst compressed x y = pc + pcInc compressed := by
  rw [successor, if_neg h.1, if_neg h.2.1, if_neg fun h' => h.2.2 h'.1]

theorem size_eq (inst : Word) : inst.extractLsb' 12 2 = (funct3 inst).extractLsb' 0 2 := by
  rw [funct3, extractLsb'_extractLsb' _ (by decide)]

theorem aligned_load {op : LoadOp} (h : Riscv.loadOp (funct3 inst) = some op) {x : Word}
    (hx : x.toNat % op.bytes = 0) :
    Rv32Soc.Aligned inst x := by
  have hall : ∀ f, ∀ op ∈ Riscv.loadOp f, accessBytes (f.extractLsb' 0 2) = op.bytes := by decide
  rw [Rv32Soc.Aligned, size_eq, hall _ _ h, hx]

theorem aligned_store {op : StoreOp} (h : Riscv.storeOp (funct3 inst) = some op) {x : Word}
    (hx : x.toNat % op.bytes = 0) :
    Rv32Soc.Aligned inst x ∧ accessBytes (inst.extractLsb' 12 2) = op.bytes := by
  have hall : ∀ f, ∀ op ∈ Riscv.storeOp f, accessBytes (f.extractLsb' 0 2) = op.bytes := by decide
  rw [Rv32Soc.Aligned, size_eq, hall _ _ h, hx]
  exact ⟨rfl, rfl⟩

/-- A load returns what its operation has. -/
theorem loadValue_eq {op : LoadOp} (h : Riscv.loadOp (funct3 inst) = some op) (m : Mem) (x : Word) :
    m.loadValue (inst.extractLsb' 12 3) x = op.value m x := by
  have hall : ∀ f, ∀ op ∈ Riscv.loadOp f,
      f = 0 ∧ op = .lb ∨ f = 1 ∧ op = .lh ∨ f = 2 ∧ op = .lw ∨ f = 4 ∧ op = .lbu ∨ f = 5 ∧
      op = .lhu := by decide
  show m.loadValue (funct3 inst) x = _
  rcases hall _ _ h with ⟨hf, rfl⟩ | ⟨hf, rfl⟩ | ⟨hf, rfl⟩ | ⟨hf, rfl⟩ | ⟨hf, rfl⟩ <;>
  · rw [hf]
    rfl

theorem loadOp_word (h : funct3 inst = 0b010) : Riscv.loadOp (funct3 inst) = some .lw := by
  rw [h]
  rfl

theorem aligned_word (h : funct3 inst = 0b010) {x : Word} (hx : x.toNat % 4 = 0) :
    Rv32Soc.Aligned inst x :=
  aligned_load (loadOp_word h) hx

namespace Executes

variable (E : s.Executes inst compressed a)

include E

theorem effect_lui (ho : opcode inst = 0b0110111) (he : IsEven a.pc) :
    s.Effect i reserved a
      ((Instr.lui (rdField inst) (immU inst)).exec (pcInc compressed) reserved a) := by
  have hd : Decodes inst 33 := .of_case ho (by decide) rfl
  have h : s.Effect i reserved a _ := E.effect_computed hd (by decide) he (by rw [ho]; decide)
  rw [successor_seq (by rw [ho]; decide), E.alu_of_decodes hd (by decide)] at h
  exact h

theorem effect_auipc (ho : opcode inst = 0b0010111) (he : IsEven a.pc) :
    s.Effect i reserved a
      ((Instr.auipc (rdField inst) (immU inst)).exec (pcInc compressed) reserved a) := by
  have hd : Decodes inst 32 := .of_case ho (by decide) rfl
  have h : s.Effect i reserved a _ := E.effect_computed hd (by decide) he (by rw [ho]; decide)
  rw [successor_seq (by rw [ho]; decide), E.alu_of_decodes hd (by decide)] at h
  exact h

theorem effect_opImm {op : AluOp} (ho : opcode inst = 0b0010011)
    (hop : Riscv.opImmOp (funct3 inst) (Riscv.funct7 inst) = some op) (he : IsEven a.pc) :
    s.Effect i reserved a
      ((Instr.opImm op (rdField inst) (rs1Field inst) (Riscv.opImmImm op inst)).exec
        (pcInc compressed) reserved a) := by
  obtain ⟨hd, hne⟩ := decodes_opImm ho hop
  have hk : (rom (romOfImm op)) = ⟨true, false, true, false, 1, 0, aluSelOf op⟩ := by
    cases op <;> first | exact absurd rfl hne | decide
  have hdiv : ((aluSelOf op).extractLsb' 2 3 == 0b100#3) = false := by cases op <;> rfl
  have h : s.Effect i reserved a _ :=
    E.effect_computed hd (by rw [hk]; exact ⟨rfl, rfl, rfl⟩) he (by rw [ho]; decide)
  rw [successor_seq (by rw [ho]; decide), E.alu_of_decodes hd (by rw [hk]; exact hdiv), hk] at h
  have himm : op.eval (a.get (rs1Field inst)) (immI inst) = op.eval (a.get (rs1Field inst))
      (Riscv.opImmImm op inst) := by
    by_cases hs : op = .sll ∨ op = .srl ∨ op = .sra
    · refine eval_shift hs _ ?_
      rw [immI_mod]
      rcases hs with rfl | rfl | rfl <;> exact (opImmImm_mod inst).symm
    · cases op <;> first | rfl | exact absurd (by simp) hs
  rw [← alu_aluOp] at himm
  rw [Instr.exec, ← himm]
  exact h

theorem effect_opReg {op : AluOp} (ho : opcode inst = 0b0110011)
    (hop : Riscv.opOp (funct3 inst) (Riscv.funct7 inst) = some (.inl op)) (he : IsEven a.pc) :
    s.Effect i reserved a
      ((Instr.opReg op (rdField inst) (rs1Field inst) (rs2Field inst)).exec
        (pcInc compressed) reserved a) := by
  have hd : Decodes inst (romOfReg op) := decodes_opOp ho hop
  have hk : rom (romOfReg op) = ⟨true, false, false, false, 1, 0, aluSelOf op⟩ := by cases op <;> decide
  have hdiv : ((aluSelOf op).extractLsb' 2 3 == 0b100#3) = false := by cases op <;> rfl
  have h : s.Effect i reserved a _ :=
    E.effect_computed hd (by rw [hk]; exact ⟨rfl, rfl, rfl⟩) he (by rw [ho]; decide)
  rw [successor_seq (by rw [ho]; decide), E.alu_of_decodes hd (by rw [hk]; exact hdiv), hk] at h
  rw [Instr.exec, ← alu_aluOp]
  exact h

theorem effect_shAdd {op : ShAddOp} (ho : opcode inst = 0b0110011)
    (hop : Riscv.opOp (funct3 inst) (Riscv.funct7 inst) = some (.inr (.inr op))) (he : IsEven a.pc) :
    s.Effect i reserved a
      ((Instr.shAdd op (rdField inst) (rs1Field inst) (rs2Field inst)).exec
        (pcInc compressed) reserved a) := by
  have hd : Decodes inst (romOfShAdd op) := decodes_opOp ho hop
  have hk : rom (romOfShAdd op) = ⟨true, false, false, false, 1, 0, aluSelOfShAdd op⟩ := by
    cases op <;> decide
  have hdiv : ((aluSelOfShAdd op).extractLsb' 2 3 == 0b100#3) = false := by cases op <;> rfl
  have h : s.Effect i reserved a _ :=
    E.effect_computed hd (by rw [hk]; exact ⟨rfl, rfl, rfl⟩) he (by rw [ho]; decide)
  rw [successor_seq (by rw [ho]; decide), E.alu_of_decodes hd (by rw [hk]; exact hdiv), hk] at h
  rw [Instr.exec, ← alu_shAddOp]
  exact h

theorem effect_mulDiv {op : MulDivOp} (ho : opcode inst = 0b0110011)
    (hop : Riscv.opOp (funct3 inst) (Riscv.funct7 inst) = some (.inr (.inl op))) (he : IsEven a.pc) :
    s.Effect i reserved a
      ((Instr.mulDiv op (rdField inst) (rs1Field inst) (rs2Field inst)).exec
        (pcInc compressed) reserved a) := by
  have hd : Decodes inst (romOfMul op) := decodes_opOp ho hop
  have hk : rom (romOfMul op) = ⟨true, false, false, false, 1, 0, aluSelOfMul op⟩ := by
    cases op <;> decide
  have h : s.Effect i reserved a _ :=
    E.effect_computed hd (by rw [hk]; exact ⟨rfl, rfl, rfl⟩) he (by rw [ho]; decide)
  rw [successor_seq (by rw [ho]; decide)] at h
  have hv : (s.executed i).alu = op.eval (a.get (rs1Field inst)) (a.get (rs2Field inst)) := by
    by_cases hm : op = .mul ∨ op = .mulh ∨ op = .mulhsu ∨ op = .mulhu
    · have hdiv : ((aluSelOfMul op).extractLsb' 2 3 == 0b100#3) = false := by
        rcases hm with rfl | rfl | rfl | rfl <;> rfl
      rw [E.alu_of_decodes hd (by rw [hk]; exact hdiv), hk, ← alu_mulOp hm]
      rfl
    · have hdiv : ((aluSelOfMul op).extractLsb' 2 3 == 0b100#3) = true := by
        cases op <;> first | rfl | exact absurd (by simp) hm
      rw [E.div_of_decodes hd (by rw [hk]; exact hdiv) (by rw [hk]; exact ⟨rfl, rfl⟩), hk,
        DivUnit.result_eq]
      cases op <;> first | rfl | exact absurd (by simp) hm
  rw [hv] at h
  exact h

theorem effect_jal (ho : opcode inst = 0b1101111) (he : IsEven a.pc) :
    s.Effect i reserved a
      ((Instr.jal (rdField inst) (immJ inst)).exec (pcInc compressed) reserved a) := by
  have hd : Decodes inst 34 := .of_case ho (by decide) rfl
  obtain ⟨hctl, hl, -, -, hamo, -⟩ := hd.controlLogic
  have h : s.Effect i reserved a _ :=
    E.effect_writes he hl (by rw [hctl]; decide) (by rw [hctl]; decide) hamo
    (E.aligned_of_opcode (by rw [ho]; decide)) fun t j ht _ => E.wbData_link ht (by rw [hctl]; decide)
  rw [successor, if_pos ho, (he.add (isEven_immJ inst)).and_eq] at h
  exact h

theorem effect_jalr (ho : opcode inst = 0b1100111) (hf : funct3 inst = 0b000) (he : IsEven a.pc) :
    s.Effect i reserved a
      ((Instr.jalr (rdField inst) (rs1Field inst) (immI inst)).exec (pcInc compressed) reserved a) := by
  have hd : Decodes inst 35 := .of_case ho (by decide) (by rw [hf]; rfl)
  obtain ⟨hctl, hl, -, -, hamo, -⟩ := hd.controlLogic
  have h : s.Effect i reserved a _ :=
    E.effect_writes he hl (by rw [hctl]; decide) (by rw [hctl]; decide) hamo
    (E.aligned_of_opcode (by rw [ho]; decide)) fun t j ht _ => E.wbData_link ht (by rw [hctl]; decide)
  rw [successor, if_neg (by rw [ho]; decide), if_pos ho] at h
  exact h

theorem effect_branch {op : BranchOp} (ho : opcode inst = 0b1100011)
    (hop : Riscv.branchOp (funct3 inst) = some op) (he : IsEven a.pc) :
    s.Effect i reserved a
      ((Instr.branch op (rs1Field inst) (rs2Field inst) (immB inst)).exec
        (pcInc compressed) reserved a) := by
  have hall : ∀ f b b', ∀ op ∈ Riscv.branchOp f, ∃ k, romCase 0b11000 f b b' = some k ∧
      (rom k).regWen = false ∧ (rom k).memRw = false := by decide +kernel
  obtain ⟨k, hk, hw, hm⟩ := hall _ _ _ _ hop
  have hd : Decodes inst k := .of_case ho (by decide) hk
  obtain ⟨hctl, hl, -, -, hamo, -⟩ := hd.controlLogic
  refine ⟨by rw [E.ctl, hl], E.aligned_of_opcode (by rw [ho]; decide), ?_, ?_, ?_⟩
  · rw [E.exRedirectTarget_eq he hl, successor, if_neg (by rw [ho]; decide),
      if_neg (by rw [ho]; decide), branchTaken_eq hop, Instr.exec]
    cases op.taken (a.get (rs1Field inst)) (a.get (rs2Field inst))
    · rw [if_neg fun h => Bool.false_ne_true h.2]
      rfl
    · rw [if_pos ⟨ho, rfl⟩, (he.add (isEven_immB inst)).and_eq]
      rfl
  · exact fun t ht _ => E.stored_eq ht (by rw [hctl, hm]) hamo
  · exact fun t j ht _ r => E.writtenBack_of_regWen ht (by rw [hctl, hw]) r

/-- The address of an access. -/
theorem redirectTargetAdder_eq (ha : (controlLogic inst).aSel = false) (hb : (controlLogic inst).bSel) :
    s.redirectTargetAdder = a.get (rs1Field inst) + immgen inst (controlLogic inst).immSel := by
  rw [redirectTargetAdder, E.aluA_eq, E.aluB_eq, ha, hb, if_neg Bool.false_ne_true, if_pos rfl]

theorem exSizeMisaligned_eq (h : Rv32Soc.Aligned inst s.redirectTargetAdder) :
    s.exSizeMisaligned = false := by
  rw [exSizeMisaligned, E.holds]
  rw [Rv32Soc.Aligned, accessBytes] at h
  generalize inst.extractLsb' 12 2 = size at h ⊢
  generalize s.redirectTargetAdder = x at h ⊢
  split_ifs with h₁ h₂
  · rw [h₁, if_neg (by decide), if_pos rfl] at h
    rw [BitVec.getLsbD, Nat.testBit_eq_decide_div_mod_eq, pow_zero, Nat.div_one, h]
    rfl
  · rw [h₂, if_neg (by decide), if_neg (by decide)] at h
    have hx : x.extractLsb' 0 2 = 0#2 := by
      apply BitVec.eq_of_toNat_eq
      rw [BitVec.extractLsb'_toNat, Nat.shiftRight_zero]
      exact h
    rw [hx]
    rfl
  · rfl

/-- What is in MEM, by the control word. -/
theorem exMem_eq {t : Core} (h : s.InMem i reserved a t) :
    t.exMem.inst = inst ∧ t.exMem.alu = (s.executed i).alu ∧ t.exMem.rs2 = a.get (rs2Field inst) ∧
      t.exMem.memRw = (controlLogic inst).memRw ∧ t.exMem.isSc = (controlLogic inst).isSc ∧
      t.exMem.isAmo = (controlLogic inst).isAmo ∧ t.exMem.atomicOp = (controlLogic inst).atomicOp := by
  rw [h.exMem]
  simp only [executed, E.ctl, E.holds, E.rs2, and_self]

theorem effect_load {op : LoadOp} (ho : opcode inst = 0b0000011)
    (hop : Riscv.loadOp (funct3 inst) = some op)
    (he : IsEven a.pc) (hal : (Instr.load op (rdField inst) (rs1Field inst) (immI inst)).Aligned a) :
    s.Effect i reserved a
      ((Instr.load op (rdField inst) (rs1Field inst) (immI inst)).exec
        (pcInc compressed) reserved a) := by
  have hall : ∀ f b b', ∀ op ∈ Riscv.loadOp f, ∃ k, romCase 0b00000 f b b' = some k ∧
      rom k = ⟨true, false, true, false, 0, 0, 0⟩ := by decide +kernel
  obtain ⟨k, hk, hrom⟩ := hall _ _ _ _ hop
  have hd : Decodes inst k := .of_case ho (by decide) hk
  obtain ⟨hctl, hl, -, -, hamo, -⟩ := hd.controlLogic
  rw [hrom] at hctl
  have haddr : s.redirectTargetAdder = a.get (rs1Field inst) + immI inst := by
    rw [E.redirectTargetAdder_eq (by rw [hctl]) (by rw [hctl]), hctl]
    rfl
  have halu : (s.executed i).alu = a.get (rs1Field inst) + immI inst := by
    rw [E.alu_of_decodes hd (by rw [hrom]; rfl), hrom]
    rfl
  have hacc := aligned_load hop (hal _ _ rfl)
  have h : s.Effect i reserved a _ := E.effect_writes he hl (by rw [hctl]) (by rw [hctl]) hamo
    (by
      rw [exMisalignLoad, exMisalignStore, E.exSizeMisaligned_eq (haddr ▸ hacc), E.holds, ho]
      exact ⟨rfl, rfl⟩)
    fun t j ht hj => E.wbData_loaded ht (by rw [hctl]) hj
  rw [successor_seq (by rw [ho]; decide), halu, Mem.partialLoad_word _ hacc, loadValue_eq hop] at h
  exact h

theorem effect_store {op : StoreOp} (ho : opcode inst = 0b0100011)
    (hop : Riscv.storeOp (funct3 inst) = some op)
    (he : IsEven a.pc) (hal : (Instr.store op (rs1Field inst) (rs2Field inst) (immS inst)).Aligned a) :
    s.Effect i reserved a
      ((Instr.store op (rs1Field inst) (rs2Field inst) (immS inst)).exec
        (pcInc compressed) reserved a) := by
  have hall : ∀ f b b', ∀ op ∈ Riscv.storeOp f, ∃ k, romCase 0b01000 f b b' = some k ∧
      rom k = ⟨false, false, true, true, 0, 1, 0⟩ := by decide +kernel
  obtain ⟨k, hk, hrom⟩ := hall _ _ _ _ hop
  have hd : Decodes inst k := .of_case ho (by decide) hk
  obtain ⟨hctl, hl, -, hsc, hamo, -⟩ := hd.controlLogic
  rw [hrom] at hctl
  have haddr : s.redirectTargetAdder = a.get (rs1Field inst) + immS inst := by
    rw [E.redirectTargetAdder_eq (by rw [hctl]) (by rw [hctl]), hctl]
    rfl
  have halu : (s.executed i).alu = a.get (rs1Field inst) + immS inst := by
    rw [E.alu_of_decodes hd (by rw [hrom]; rfl), hrom]
    rfl
  obtain ⟨hacc, hbytes⟩ := aligned_store hop (hal _ _ rfl)
  refine ⟨by rw [E.ctl, hl], ?_, ?_, ?_, ?_⟩
  · rw [exMisalignLoad, exMisalignStore, E.exSizeMisaligned_eq (haddr ▸ hacc), E.holds, ho]
    exact ⟨rfl, rfl⟩
  · rw [E.exRedirectTarget_eq he hl, successor_seq (by rw [ho]; decide)]
    rfl
  · -- In MEM the byte enables and the shifted data are those of the manual's store.
    intro t ht _
    obtain ⟨hi, ha, hr, hm, hs, hat, -⟩ := E.exMem_eq ht
    rw [hctl] at hm
    rw [hsc] at hs
    rw [hamo] at hat
    have hphase : t.amoWritePhase = false := by rw [amoWritePhase, hat]; rfl
    have hcommits : t.storeCommits := by rw [storeCommits, isStore, hm, hs]; rfl
    have hmask : t.memWriteMask =
        (partialStore inst (s.executed i).alu (a.get (rs2Field inst)) true).memWriteMask := by
      rw [memWriteMask, hphase, hs, hi, ha, hr, hm]
      rfl
    have hdata : t.storeData =
        (partialStore inst (s.executed i).alu (a.get (rs2Field inst)) true).dataToMem := by
      rw [storeData, hphase, hi, ha, hr, hm]
      rfl
    rw [stored, hcommits, Bool.true_or, if_pos rfl, hmask, hdata, ha, halu,
      Mem.store_partialStore _ hacc, hbytes]
    rfl
  · exact fun t j ht _ r => E.writtenBack_of_regWen ht (by rw [hctl]) r

/-- An atomic instruction works on the word at its first operand. -/
theorem atomic_eq (ho : opcode inst = 0b0101111) (hal : (a.get (rs1Field inst)).toNat % 4 = 0) :
    (controlLogic inst).illegalInst = false ∧ (s.executed i).alu = a.get (rs1Field inst) ∧
      s.exMisalignLoad = false ∧ s.exMisalignStore = false := by
  obtain ⟨⟨hl, hcsr⟩, ha, hb, himm, hsel⟩ := controlLogic_atomic ho
  have hadd : s.aluA + s.aluB = a.get (rs1Field inst) := by
    rw [E.aluA_eq, E.aluB_eq, ha, hb, himm, if_neg Bool.false_ne_true, if_pos rfl]
    exact BitVec.add_zero _
  have haddr : s.redirectTargetAdder.extractLsb' 0 2 = 0#2 := by
    apply BitVec.eq_of_toNat_eq
    rw [redirectTargetAdder, hadd, BitVec.extractLsb'_toNat, Nat.shiftRight_zero]
    exact hal
  refine ⟨hl, ?_, ?_, ?_⟩
  · rw [E.alu_eq hcsr (by rw [hsel]; rfl), hsel]
    exact hadd
  · rw [exMisalignLoad, E.holds, ho]
    rfl
  · rw [exMisalignStore, E.holds, ho, haddr]
    rfl

theorem effect_lr (ho : opcode inst = 0b0101111) (hf : funct3 inst = 0b010)
    (h₅ : Riscv.funct5 inst = 0b00010)
    (he : IsEven a.pc) (hal : (Instr.lr (rdField inst) (rs1Field inst)).Aligned a) :
    s.Effect i reserved a
      ((Instr.lr (rdField inst) (rs1Field inst)).exec (pcInc compressed) reserved a) := by
  have hword := hal _ _ rfl
  obtain ⟨hl, halu, hmis⟩ := E.atomic_eq (i := i) ho hword
  have hlr : (controlLogic inst).isLr := by
    simp [Rv32Soc.controlLogic, ho, show inst.extractLsb' 27 5 = 2#5 from h₅]
  have hamo : (controlLogic inst).isAmo = false := by
    simp [Rv32Soc.controlLogic, show inst.extractLsb' 27 5 = 2#5 from h₅]
  have hw : (controlLogic inst).regWen := by
    simp only [Rv32Soc.controlLogic, romDecoder_amo ho, show inst.extractLsb' 27 5 = 2#5 from h₅]
    decide
  obtain ⟨hwb, hm⟩ := wbSel_of_isLr hlr
  have h : s.Effect i reserved a _ := E.effect_writes he hl hw hm hamo hmis fun t j ht hj =>
    E.wbData_loaded ht hwb hj
  rw [successor_seq (by rw [ho]; decide), halu, Mem.partialLoad_word _ (aligned_word hf hword),
    loadValue_eq (loadOp_word hf)] at h
  exact h

theorem effect_sc (ho : opcode inst = 0b0101111) (hf : funct3 inst = 0b010)
    (h₅ : Riscv.funct5 inst = 0b00011)
    (he : IsEven a.pc) (hal : (Instr.sc (rdField inst) (rs1Field inst) (rs2Field inst)).Aligned a) :
    s.Effect i reserved a
      ((Instr.sc (rdField inst) (rs1Field inst) (rs2Field inst)).exec
        (pcInc compressed) reserved a) := by
  have hword := hal _ _ rfl
  obtain ⟨hl, halu, hmis⟩ := E.atomic_eq (i := i) ho hword
  have hctl : (controlLogic inst).toControl = rom 37 := by
    simp only [Rv32Soc.controlLogic, romDecoder_amo ho, show inst.extractLsb' 27 5 = 3#5 from h₅]
    rfl
  have hsc : (controlLogic inst).isSc := by
    simp [Rv32Soc.controlLogic, ho, show inst.extractLsb' 27 5 = 3#5 from h₅]
  have hamo : (controlLogic inst).isAmo = false := by
    simp [Rv32Soc.controlLogic, ho, show inst.extractLsb' 27 5 = 3#5 from h₅]
  refine ⟨by rw [E.ctl, hl], hmis, ?_, ?_, ?_⟩
  · rw [E.exRedirectTarget_eq he hl, successor_seq (by rw [ho]; decide)]
    rfl
  · intro t ht _
    obtain ⟨hi, ha, hr, hm, hs, hat, -⟩ := E.exMem_eq ht
    rw [hctl] at hm
    rw [hsc] at hs
    rw [hamo] at hat
    have hphase : t.amoWritePhase = false := by rw [amoWritePhase, hat]; rfl
    have hcommits : t.storeCommits = reserved := by
      rw [storeCommits, isStore, hm, hs, ht.reserved]
      cases reserved <;> rfl
    rw [stored, hcommits, hphase, Bool.or_false, ha, halu]
    -- Without the reservation nothing is stored.
    cases reserved with
    | false => rfl
    | true =>
      have hmask : t.memWriteMask =
          (partialStore inst (s.executed i).alu (a.get (rs2Field inst)) true).memWriteMask := by
        rw [memWriteMask, hphase, hs, ht.reserved, hi, ha, hr, hm]
        rfl
      have hdata : t.storeData =
          (partialStore inst (s.executed i).alu (a.get (rs2Field inst)) true).dataToMem := by
        rw [storeData, hphase, hi, ha, hr, hm]
        rfl
      rw [if_pos rfl, hmask, hdata, halu, Mem.store_partialStore _ (aligned_word hf hword), size_eq, hf]
      rfl
  · intro t j ht _ r
    obtain ⟨-, -, -, -, hs, -⟩ := E.exMem_eq ht
    -- What is returned is the outcome, zero for success.
    have hv : (t.accessed j).wbData = if reserved then 0 else 1 := by
      have hwb : (t.accessed j).wbSel = 0b01 := by
        show t.exMem.wbSel = _
        rw [ht.exMem]
        show s.idEx.ctl.wbSel = _
        rw [E.ctl, hctl]
        rfl
      rw [MemWb.wbData, if_pos hwb]
      show t.finalAluToWb = _
      rw [finalAluToWb, hs, if_pos hsc, ht.reserved]
    rw [E.writtenBack_eq ht (by rw [hctl]; decide) r, hv]
    rfl

theorem effect_amo {op : AmoOp} (ho : opcode inst = 0b0101111) (hf : funct3 inst = 0b010)
    (hop : Riscv.amoOp (Riscv.funct5 inst) = some op) (he : IsEven a.pc)
    (hal : (Instr.amo op (rdField inst) (rs1Field inst) (rs2Field inst)).Aligned a) :
    s.Effect i reserved a
      ((Instr.amo op (rdField inst) (rs1Field inst) (rs2Field inst)).exec
        (pcInc compressed) reserved a) := by
  have hword := hal _ _ rfl
  obtain ⟨hl, halu, hmis⟩ := E.atomic_eq (i := i) ho hword
  have hne : Riscv.funct5 inst ≠ 0b00010 ∧ Riscv.funct5 inst ≠ 0b00011 := by
    have hall : ∀ f, ∀ op ∈ Riscv.amoOp f, f ≠ 0b00010 ∧ f ≠ 0b00011 := by decide
    exact hall _ _ hop
  have hamo : (controlLogic inst).isAmo := by
    simp [Rv32Soc.controlLogic, ho, show ¬inst.extractLsb' 27 5 = 2#5 from hne.1,
      show ¬inst.extractLsb' 27 5 = 3#5 from hne.2]
  have hw : (controlLogic inst).regWen := by
    simp only [Rv32Soc.controlLogic, romDecoder_amo ho,
      if_neg (show ¬inst.extractLsb' 27 5 = 3#5 from hne.2)]
    decide
  obtain ⟨hwb, hm⟩ := wbSel_of_isAmo hamo
  -- The read phase loads the word, which is what `lw` would load.
  have hlw : a.mem.word (a.get (rs1Field inst)) = LoadOp.lw.value a.mem (a.get (rs1Field inst)) := by
    have hload := Mem.partialLoad_word a.mem (aligned_word hf hword)
    rw [loadValue_eq (loadOp_word hf)] at hload
    rw [← hload, partialLoad]
    rw [show inst.extractLsb' 12 3 = 0b010#3 from hf]
    rfl
  refine ⟨by rw [E.ctl, hl], hmis, ?_, ?_, ?_⟩
  · rw [E.exRedirectTarget_eq he hl, successor_seq (by rw [ho]; decide)]
    rfl
  · -- The write phase stores the whole word, computed from what was read.
    intro t ht hphase
    obtain ⟨hi, ha, hr, -, -, hat, hop'⟩ := E.exMem_eq ht
    rw [hamo] at hat
    have hp := hphase hat
    have hdata : t.storeData = op.eval (a.mem.word (a.get (rs1Field inst))) (a.get (rs2Field inst)) := by
      rw [storeData, if_pos hp, amoNewValue, hop', hr, ht.amo hat, ha, halu]
      exact amoNewValue_eq hop _ _
    have hmask : t.memWriteMask = 0b1111 := by rw [memWriteMask, if_pos hp]
    have hstore := Mem.store_partialStore a.mem (aligned_word hf hword)
      (op.eval (a.mem.word (a.get (rs1Field inst))) (a.get (rs2Field inst)))
    have hsize : inst.extractLsb' 12 2 = 2#2 := by
      rw [size_eq, hf]
      decide
    have hfull : ∀ x v, partialStore inst x v true = ⟨0b1111, v⟩ :=
      fun x v => by simp [partialStore, hsize]
    rw [hfull, hsize] at hstore
    rw [stored, hp, Bool.or_true, if_pos rfl, hdata, hmask, ha, halu]
    refine hstore.trans ?_
    rw [hlw]
    rfl
  · intro t j ht hj r
    rw [E.writtenBack_eq ht hw r, E.wbData_loaded ht hwb hj, halu,
      Mem.partialLoad_word _ (aligned_word hf hword), loadValue_eq (loadOp_word hf)]
    rfl

end Executes

/-- An instruction that the manual has does what the manual has it do. -/
theorem effect_of_decode {ins : Instr} (E : s.Executes inst compressed a)
    (hi : Riscv.decode inst = some ins)
    (he : IsEven a.pc) (hal : ins.Aligned a) :
      s.Effect i reserved a (ins.exec (pcInc compressed) reserved a) := by
  have hopcode : ∀ {c : BitVec 7}, (Riscv.opcode inst).toNat = c.toNat → opcode inst = c :=
    fun h => BitVec.eq_of_toNat_eq h
  -- One case for each opcode, in the order of `decode`.
  unfold Riscv.decode at hi
  split at hi
  · next ho =>
    cases hi
    exact E.effect_lui (hopcode ho) he
  · next ho =>
    cases hi
    exact E.effect_auipc (hopcode ho) he
  · next ho =>
    cases hi
    exact E.effect_jal (hopcode ho) he
  · next ho =>
    split at hi
    · next hf =>
      cases hi
      exact E.effect_jalr (hopcode ho) hf he
    · cases hi
  · next ho =>
    obtain ⟨op, hop, rfl⟩ := Option.map_eq_some_iff.1 hi
    exact E.effect_branch (hopcode ho) hop he
  · next ho =>
    obtain ⟨op, hop, rfl⟩ := Option.map_eq_some_iff.1 hi
    exact E.effect_load (hopcode ho) hop he hal
  · next ho =>
    obtain ⟨op, hop, rfl⟩ := Option.map_eq_some_iff.1 hi
    exact E.effect_store (hopcode ho) hop he hal
  · next ho =>
    obtain ⟨op, hop, rfl⟩ := Option.map_eq_some_iff.1 hi
    exact E.effect_opImm (hopcode ho) hop he
  · next ho =>
    obtain ⟨op, hop, rfl⟩ := Option.map_eq_some_iff.1 hi
    rcases op with op | op | op
    · exact E.effect_opReg (hopcode ho) hop he
    · exact E.effect_mulDiv (hopcode ho) hop he
    · exact E.effect_shAdd (hopcode ho) hop he
  · next ho =>
    split at hi
    · next hf =>
      split at hi
      · next h₅ =>
        split at hi
        · cases hi
          exact E.effect_lr (hopcode ho) hf h₅ he hal
        · cases hi
      · split at hi
        · next h₅ =>
          cases hi
          exact E.effect_sc (hopcode ho) hf h₅ he hal
        · obtain ⟨op, hop, rfl⟩ := Option.map_eq_some_iff.1 hi
          exact E.effect_amo (hopcode ho) hf hop he hal
    · cases hi
  · cases hi

end Core

/-- The control word, the immediate and the units of EX and MEM give every instruction of the manual
    the effect that it has there. -/
theorem exec_of_executes {s : Core} {i : CoreInputs} {inst : Word} {compressed reserved : Bool}
    {a : Riscv.State} {ins : Instr}
    (hi : Riscv.decode inst = some ins) (E : s.Executes inst compressed a) (he : IsEven a.pc)
    (hal : ins.Aligned a) :
    s.Effect i reserved a (ins.exec (pcInc compressed) reserved a) :=
  Core.effect_of_decode E hi he hal

/-- A state with `6` in `x2` and `7` in `x3`, and `mul x1, x2, x3` in EX. -/
def mulState : Riscv.State := ⟨0, fun r => if r = 2 then 6 else if r = 3 then 7 else 0, fun _ => 0⟩

def coreMul : Core :=
  { coreInEx 0x023100B3 with idEx := { (coreInEx 0x023100B3).idEx with rs1 := 6, rs2 := 7 } }

theorem executes_coreMul : coreMul.Executes 0x023100B3 false mulState :=
  ⟨rfl, ⟨rfl, rfl⟩, rfl, rfl, rfl, by decide, by decide, fun h => absurd h (by decide)⟩

/-- The product is `42`. -/
theorem coreMul_effect :
    coreMul.Effect .ready false mulState { mulState with pc := 4, regs := mulState.setReg 1 42 } :=
  exec_of_executes (by decide : Riscv.decode 0x023100B3 = some (.mulDiv .mul 1 2 3)) executes_coreMul
    (by decide) fun _ _ h => nomatch h

/-! ## Compressed instructions -/

/-- IF finds the immediates of branches and of `jal` where the manual has them. -/
theorem immB_of_decode {w : Word} {op : BranchOp} {x₁ x₂ : BitVec 5} {imm : Word}
    (h : Riscv.decode w = some (.branch op x₁ x₂ imm)) : opcode w = 0b1100011 ∧ immB w = imm := by
  unfold Riscv.decode at h
  split at h
  case h_5 ho =>
    obtain ⟨o, -, he⟩ := Option.map_eq_some_iff.1 h
    cases he
    exact ⟨BitVec.eq_of_toNat_eq ho, rfl⟩
  case h_9 =>
    obtain ⟨o, -, he⟩ := Option.map_eq_some_iff.1 h
    rcases o with o | o | o <;> cases he
  case h_10 => split_ifs at h <;> simp at h
  all_goals simp at h

theorem immJ_of_decode {w : Word} {xd : BitVec 5} {imm : Word}
    (h : Riscv.decode w = some (.jal xd imm)) :
    opcode w = 0b1101111 ∧ immJ w = imm := by
  unfold Riscv.decode at h
  split at h
  case h_3 ho =>
    cases h
    exact ⟨BitVec.eq_of_toNat_eq ho, rfl⟩
  case h_9 =>
    obtain ⟨o, -, he⟩ := Option.map_eq_some_iff.1 h
    rcases o with o | o | o <;> cases he
  case h_10 => split_ifs at h <;> simp at h
  all_goals simp at h

/-- A fetched word that starts with a compressed instruction is taken for it: fetch goes on two
    bytes further, or at the target of a branch or a `jal` that is predicted, and in EX it does what
    the instruction does. -/
structure ExpandsTo (rawInst : Word) (ins : Instr) : Prop where
  length : ∀ i : CoreInputs, i.ifInst = rawInst → pcInc (Core.ifCompressed i) = 2
  branch : ∀ (s : Core) i op x₁ x₂ imm, i.ifInst = rawInst → ins = .branch op x₁ x₂ imm →
    Core.ifIsBranch i ∧ s.ifPredictedTarget i = s.pc + imm
  jal : ∀ (s : Core) i xd imm, i.ifInst = rawInst → ins = .jal xd imm →
    Core.ifIsJal i ∧ s.ifPredictedTarget i = s.pc + imm
  effect : ∀ (s : Core) i reserved a, s.Executes (muxedIfInst rawInst) true a →
    IsEven a.pc → ins.Aligned a →
    s.Effect i reserved a (ins.exec 2 reserved a)

/-- The expansion of a compressed instruction does what the manual has the instruction do, and it is
    exactly the halfwords that do not end in `11` that are expanded. -/
theorem expandsTo_of_decode {rawInst : Word} {ins : Instr}
    (h : Riscv.Compressed.decode (rawInst.extractLsb' 0 16) = some ins) :
    (∀ instC : Half, isCompressed instC ↔ instC.extractLsb' 0 2 ≠ 0b11) ∧ ExpandsTo rawInst ins := by
  have hexact : ∀ instC : Half, isCompressed instC ↔ instC.extractLsb' 0 2 ≠ 0b11 := fun instC => by
    rw [isCompressed, bne_iff_ne]
    rfl
  have hc : isCompressed (rawInst.extractLsb' 0 16) := by
    refine (hexact _).2 fun hq => ?_
    rw [Riscv.Compressed.decode, hq] at h
    cases h
  have hm : muxedIfInst rawInst = rvcExpand (rawInst.extractLsb' 0 16) := if_pos hc
  have hd : Riscv.decode (muxedIfInst rawInst) = some ins := hm ▸ decode_rvcExpand h
  have hnojalr : ∀ (s : Core) i, i.ifInst = rawInst → opcode (muxedIfInst rawInst) ≠ 0b1100111 →
      s.ifRasHit i = false := by
    rintro s i rfl ho
    simp [Core.ifRasHit, Core.ifRasPopPattern, Core.ifIsJalr,
      show ¬opcode (muxedIfInst i.ifInst) = 103#7 from ho]
  refine ⟨hexact, ?_, ?_, ?_, ?_⟩
  · rintro i rfl
    rw [Core.ifCompressed, hc]
    rfl
  · rintro s i op x₁ x₂ imm rfl rfl
    obtain ⟨ho, himm⟩ := immB_of_decode hd
    have hb : Core.ifIsBranch i := by rw [Core.ifIsBranch, ho]; rfl
    refine ⟨hb, ?_⟩
    rw [Core.ifPredictedTarget, hnojalr s i rfl (by rw [ho]; decide),
      if_neg Bool.false_ne_true, if_pos hb, himm]
  · rintro s i xd imm rfl rfl
    obtain ⟨ho, himm⟩ := immJ_of_decode hd
    have hb : Core.ifIsBranch i = false := by rw [Core.ifIsBranch, ho]; rfl
    refine ⟨by rw [Core.ifIsJal, ho]; rfl, ?_⟩
    rw [Core.ifPredictedTarget, hnojalr s i rfl (by rw [ho]; decide), hb, if_neg Bool.false_ne_true,
      if_neg Bool.false_ne_true, himm]
  · exact fun s i reserved a E he hal => Core.effect_of_decode E hd he hal

/-- `c.bnez a0, -2` -/
theorem bnez_expandsTo :
    ExpandsTo 0x0000FD7D (.branch .bne 10 0 0xFFFFFFFE) := by
  have h : Riscv.Compressed.decode ((0x0000FD7D : Word).extractLsb' 0 16) =
    some (.branch .bne 10 0 0xFFFFFFFE) := by decide
  exact (expandsTo_of_decode h).2

end Rv32Soc
