import Rv32Soc.Lib.Bytes

/-!
# Decoding

`control_logic.v` and `immgen.v`: `romDecoder` finds the control word of an
instruction, `rom` holds the control words, and `controlLogic` adds what is read off
the instruction itself. An instruction that nothing matches gets the control word of
`add` and is marked illegal.

The opcodes are compared on their five upper bits here and on all seven in EX; both
stand as in the source.
-/

namespace Rv32Soc

/-! ## The fields of an instruction -/

def opcode (inst : Word) : BitVec 7 := inst.extractLsb' 0 7
def rdField (inst : Word) : BitVec 5 := inst.extractLsb' 7 5
def funct3 (inst : Word) : BitVec 3 := inst.extractLsb' 12 3
def rs1Field (inst : Word) : BitVec 5 := inst.extractLsb' 15 5
def rs2Field (inst : Word) : BitVec 5 := inst.extractLsb' 20 5

/-- The instruction in a cleared slot of the pipeline: `addi x0, x0, 0`. -/
def nop : Word := 0x00000013

/-! ## The control words -/

/-- The outputs of `rom`. -/
structure Control where
  regWen : Bool
  aSel : Bool
  bSel : Bool
  memRw : Bool
  wbSel : BitVec 2
  immSel : BitVec 3
  aluSel : BitVec 5
  deriving DecidableEq

def romOut (romAddress : BitVec 6) : BitVec 16 :=
  match romAddress.toNat with
  | 0 => 0x1001 -- add
  | 1 => 0x1401 -- mul
  | 2 => 0x1601 -- sub
  | 3 => 0x1081 -- sll
  | 4 => 0x1481 -- mulh
  | 5 => 0x1581 -- mulhu
  | 6 => 0x1101 -- slt
  | 7 => 0x1201 -- xor
  | 8 => 0x1281 -- srl
  | 9 => 0x1681 -- sra
  | 10 => 0x1301 -- or
  | 11 => 0x1381 -- and
  | 12 => 0x0041 -- lb
  | 13 => 0x0041 -- lh
  | 14 => 0x0041 -- lw
  | 15 => 0x1041 -- addi
  | 16 => 0x10C1 -- slli
  | 17 => 0x1141 -- slti
  | 18 => 0x1241 -- xori
  | 19 => 0x12C1 -- srli
  | 20 => 0x16C1 -- srai
  | 21 => 0x1341 -- ori
  | 22 => 0x13C1 -- andi
  | 23 => 0x0842 -- sb
  | 24 => 0x0842 -- sh
  | 25 => 0x0842 -- sw
  | 26 => 0x0064 -- beq
  | 27 => 0x0064 -- bne
  | 28 => 0x0064 -- blt
  | 29 => 0x0064 -- bge
  | 30 => 0x0074 -- bltu
  | 31 => 0x0074 -- bgeu
  | 32 => 0x1067 -- auipc
  | 33 => 0x17C7 -- lui
  | 34 => 0x2069 -- jal
  | 35 => 0x2041 -- jalr
  | 36 => 0x004F -- lr.w
  | 37 => 0x184F -- sc.w
  | 38 => 0x8030 -- csrrw
  | 39 => 0x5001 -- div
  | 40 => 0x5081 -- divu
  | 41 => 0x5101 -- rem
  | 42 => 0x5181 -- remu
  | 43 => 0x1181 -- sltu
  | 44 => 0x11C1 -- sltiu
  | 45 => 0x5201 -- sh1add
  | 46 => 0x5281 -- sh2add
  | 47 => 0x5301 -- sh3add
  | 48 => 0x1501 -- mulhsu
  | _ => 0x0000

def rom (romAddress : BitVec 6) : Control where
  regWen := (romOut romAddress).getLsbD 0
  immSel := (romOut romAddress).extractLsb' 1 3
  aSel := (romOut romAddress).getLsbD 5
  bSel := (romOut romAddress).getLsbD 6
  aluSel := (romOut romAddress).extractLsb' 14 1 ++ (romOut romAddress).extractLsb' 7 4
  memRw := (romOut romAddress).getLsbD 11
  wbSel := (romOut romAddress).extractLsb' 12 2

/-- The `casex` of `rom_decoder`, by `inst[6:2]`, `inst[14:12]`, `inst[30]` and `inst[25]`. -/
def romCase (opcode : BitVec 5) (funct3 : BitVec 3) (f7Bit5 f7Bit0 : Bool) : Option (BitVec 6) :=
  match opcode.toNat, funct3.toNat, f7Bit5, f7Bit0 with
  | 0b01100, 0b000, false, false => some 0 -- add
  | 0b01100, 0b000, false, true => some 1 -- mul
  | 0b01100, 0b000, true, false => some 2 -- sub
  | 0b01100, 0b001, false, false => some 3 -- sll
  | 0b01100, 0b001, false, true => some 4 -- mulh
  | 0b01100, 0b010, false, true => some 48 -- mulhsu
  | 0b01100, 0b011, false, true => some 5 -- mulhu
  | 0b01100, 0b010, false, false => some 6 -- slt
  | 0b01100, 0b011, false, false => some 43 -- sltu
  | 0b01100, 0b100, false, false => some 7 -- xor
  | 0b01100, 0b101, false, false => some 8 -- srl
  | 0b01100, 0b101, true, false => some 9 -- sra
  | 0b01100, 0b110, false, false => some 10 -- or
  | 0b01100, 0b111, false, false => some 11 -- and
  | 0b01100, 0b100, false, true => some 39 -- div
  | 0b01100, 0b101, false, true => some 40 -- divu
  | 0b01100, 0b110, false, true => some 41 -- rem
  | 0b01100, 0b111, false, true => some 42 -- remu
  | 0b00000, 0b000, _, _ => some 12 -- lb
  | 0b00000, 0b001, _, _ => some 13 -- lh
  | 0b00000, 0b010, _, _ => some 14 -- lw
  | 0b00000, 0b100, _, _ => some 12 -- lbu
  | 0b00000, 0b101, _, _ => some 13 -- lhu
  | 0b01000, 0b000, _, _ => some 23 -- sb
  | 0b01000, 0b001, _, _ => some 24 -- sh
  | 0b01000, 0b010, _, _ => some 25 -- sw
  | 0b00100, 0b000, _, _ => some 15 -- addi
  | 0b00100, 0b010, _, _ => some 17 -- slti
  | 0b00100, 0b011, _, _ => some 44 -- sltiu
  | 0b00100, 0b100, _, _ => some 18 -- xori
  | 0b00100, 0b110, _, _ => some 21 -- ori
  | 0b00100, 0b111, _, _ => some 22 -- andi
  | 0b00100, 0b001, false, _ => some 16 -- slli
  | 0b00100, 0b101, false, _ => some 19 -- srli
  | 0b00100, 0b101, true, _ => some 20 -- srai
  | 0b11000, 0b000, _, _ => some 26 -- beq
  | 0b11000, 0b001, _, _ => some 27 -- bne
  | 0b11000, 0b100, _, _ => some 28 -- blt
  | 0b11000, 0b101, _, _ => some 29 -- bge
  | 0b11000, 0b110, _, _ => some 30 -- bltu
  | 0b11000, 0b111, _, _ => some 31 -- bgeu
  | 0b00101, _, _, _ => some 32 -- auipc
  | 0b01101, _, _, _ => some 33 -- lui
  | 0b11011, _, _, _ => some 34 -- jal
  | 0b11001, 0b000, _, _ => some 35 -- jalr
  | _, _, _, _ => none

/-- The address of the control word; `none` is `illegal`, with the address `0`. -/
def romDecoder (inst : Word) : Option (BitVec 6) :=
  let opcode : BitVec 5 := inst.extractLsb' 2 5
  let funct5 : BitVec 5 := inst.extractLsb' 27 5
  if inst = 0x00000000 ∨ inst = 0xFFFFFFFF then none
  else if opcode = 0b01011 then
    if funct5 = 0b00010 then some 36
    else if funct5 = 0b00011 then some 37
    else some 36
  else if opcode = 0b11100 then some 0
  else if opcode = 0b00011 then some 0
  else if opcode = 0b01100 ∧ inst.extractLsb' 25 7 = 0b0010000#7 then
    if funct3 inst = 0b010 then some 45
    else if funct3 inst = 0b100 then some 46
    else if funct3 inst = 0b110 then some 47
    else none
  else romCase opcode (funct3 inst) (inst.getLsbD 30) (inst.getLsbD 25)

/-- The outputs of `control_logic` beside those of `rom`. -/
structure ControlLogic extends Control where
  isLr : Bool
  isSc : Bool
  isAmo : Bool
  atomicOp : BitVec 5
  csrWen : Bool
  csrOp : BitVec 2
  csrUseImm : Bool
  csrUimm : BitVec 5
  illegalInst : Bool
  deriving DecidableEq

def controlLogic (inst : Word) : ControlLogic :=
  let isAtomicInst := opcode inst = 0b0101111
  let atomicFunct5 : BitVec 5 := inst.extractLsb' 27 5
  let isLr := isAtomicInst && atomicFunct5 == 0b00010
  let isSc := isAtomicInst && atomicFunct5 == 0b00011
  let isSystemInst := opcode inst = 0b1110011
  { rom ((romDecoder inst).getD 0) with
    isLr := isLr
    isSc := isSc
    isAmo := isAtomicInst && !isLr && !isSc
    atomicOp := atomicFunct5
    csrWen := isSystemInst && funct3 inst != 0b000 && funct3 inst != 0b100
    csrOp := inst.extractLsb' 12 2
    csrUseImm := isSystemInst && inst.getLsbD 14
    csrUimm := rs1Field inst
    illegalInst := (romDecoder inst).isNone }

/-! ## Immediates -/

def immI (inst : Word) : Word := (inst.extractLsb' 20 12).signExtend 32

def immS (inst : Word) : Word :=
  (inst.extractLsb' 25 7 ++ inst.extractLsb' 7 5 : BitVec 12).signExtend 32

def immB (inst : Word) : Word :=
  (inst.extractLsb' 31 1 ++ inst.extractLsb' 7 1 ++ inst.extractLsb' 25 6 ++
    inst.extractLsb' 8 4 ++ 0#1 :
    BitVec 13).signExtend 32

def immU (inst : Word) : Word := inst.extractLsb' 12 20 ++ 0#12

def immJ (inst : Word) : Word :=
  (inst.extractLsb' 31 1 ++ inst.extractLsb' 12 8 ++ inst.extractLsb' 20 1 ++
    inst.extractLsb' 21 10 ++ 0#1 :
    BitVec 21).signExtend 32

def immgen (inst : Word) (immSel : BitVec 3) : Word :=
  match immSel.toNat with
  | 0b000 => immI inst
  | 0b001 => immS inst
  | 0b010 => immB inst
  | 0b011 => immU inst
  | 0b100 => immJ inst
  | _ => 0

/-! ## What the control words say -/

theorem extractLsb'_opcode (inst : Word) : inst.extractLsb' 2 5 = (opcode inst).extractLsb' 2 5 := by
  ext i hi
  simp [opcode]

theorem controlLogic_wbSel_ne (inst : Word) : (controlLogic inst).wbSel ≠ 0b11 := by
  have h : ∀ a, (rom a).wbSel ≠ 0b11 := by decide
  exact h _

/-- The divider works on two registers. -/
theorem controlLogic_div {inst : Word} (h : (controlLogic inst).aluSel.extractLsb' 2 3 = 0b100) :
    (controlLogic inst).aSel = false ∧ (controlLogic inst).bSel = false := by
  have h' : ∀ a, (rom a).aluSel.extractLsb' 2 3 = 0b100 → (rom a).aSel = false ∧
      (rom a).bSel = false := by
    decide
  exact h' _ h

theorem controlLogic_nop :
    controlLogic nop =
      { regWen := true, aSel := false, bSel := true, memRw := false, wbSel := 0b01,
        immSel := 0, aluSel := 0
        isLr := false, isSc := false, isAmo := false, atomicOp := 0, csrWen := false, csrOp := 0
        csrUseImm := false, csrUimm := 0, illegalInst := false } := by
  decide

section

variable {inst : Word}

private theorem not_blank {c : BitVec 7} (h : opcode inst = c) (h₀ : c ≠ 0) (h₁ : c ≠ 0b1111111) :
    ¬(inst = 0x00000000 ∨ inst = 0xFFFFFFFF) := by
  rintro (rfl | rfl)
  · exact h₀ (h.symm.trans (by decide))
  · exact h₁ (h.symm.trans (by decide))

theorem romDecoder_amo (h : opcode inst = 0b0101111) :
    romDecoder inst = some (if inst.extractLsb' 27 5 = 0b00011#5 then 37 else 36) := by
  have h₅ : inst.extractLsb' 2 5 = 0b01011 := by rw [extractLsb'_opcode, h]; decide
  rw [romDecoder, if_neg (not_blank h (by decide) (by decide)), if_pos h₅]
  split
  · next h₂ => rw [if_neg (by rw [h₂]; decide)]
  · split <;> simp_all

/-- The opcodes that only the `casex` knows. -/
theorem romDecoder_case {c : BitVec 7} (h : opcode inst = c) (h₀ : c ≠ 0) (h₁ : c ≠ 0b1111111)
    (h₂ : c.extractLsb' 2 5 ∉ [0b01011, 0b11100, 0b00011, (0b01100 : BitVec 5)]) :
    romDecoder inst = romCase (c.extractLsb' 2 5) (funct3 inst) (inst.getLsbD 30) (inst.getLsbD 25) := by
  simp only [List.mem_cons, List.not_mem_nil, or_false, not_or] at h₂
  rw [romDecoder, if_neg (not_blank h h₀ h₁), extractLsb'_opcode, h, if_neg h₂.1, if_neg h₂.2.1,
    if_neg h₂.2.2.1, if_neg fun h => h₂.2.2.2 h.1]

/-- The CSR instructions have the control word of `add`. -/
theorem controlLogic_system (h : opcode inst = 0b1110011) :
    (controlLogic inst).toControl = rom 0 ∧ (controlLogic inst).illegalInst = false := by
  have h₅ : inst.extractLsb' 2 5 = 0b11100 := by rw [extractLsb'_opcode, h]; decide
  have hr : romDecoder inst = some 0 := by
    rw [romDecoder, if_neg (not_blank h (by decide) (by decide)), if_neg (by rw [h₅]; decide), if_pos h₅]
  simp only [controlLogic, hr]
  exact ⟨rfl, rfl⟩

theorem opcode_of_csrWen (h : (controlLogic inst).csrWen) : opcode inst = 0b1110011 := by
  simp only [controlLogic, Bool.and_eq_true, decide_eq_true_eq] at h
  exact h.1.1

/-- An atomic instruction works on the word at its first operand. -/
theorem controlLogic_atomic (h : opcode inst = 0b0101111) :
    ((controlLogic inst).illegalInst = false ∧ (controlLogic inst).csrWen = false) ∧
      (controlLogic inst).aSel = false ∧ (controlLogic inst).bSel ∧ (controlLogic inst).immSel = 7 ∧
      (controlLogic inst).aluSel = 0 := by
  have hcsr : (controlLogic inst).csrWen = false := by
    refine Bool.eq_false_iff.2 fun hc => ?_
    rw [opcode_of_csrWen hc] at h
    exact absurd h (by decide)
  refine ⟨⟨?_, hcsr⟩, ?_⟩
  · simp only [controlLogic, romDecoder_amo h]
    rfl
  · simp only [controlLogic, romDecoder_amo h]
    split <;> decide

theorem controlLogic_branch (h : opcode inst = 0b1100011) :
    ((controlLogic inst).wbSel ≠ 0 ∨ (controlLogic inst).regWen = false) ∧
      ((controlLogic inst).illegalInst = false →
        (controlLogic inst).aSel ∧ (controlLogic inst).bSel ∧ (controlLogic inst).immSel = 0b010) := by
  simp only [controlLogic, romDecoder_case h (by decide) (by decide) (by decide)]
  generalize funct3 inst = f, inst.getLsbD 30 = b₃₀, inst.getLsbD 25 = b₂₅
  revert f b₃₀ b₂₅
  decide +kernel

theorem controlLogic_jal (h : opcode inst = 0b1101111) :
    (controlLogic inst).wbSel = 0b10 ∧ (controlLogic inst).aSel ∧ (controlLogic inst).bSel ∧
      (controlLogic inst).immSel = 0b100 := by
  simp only [controlLogic, romDecoder_case h (by decide) (by decide) (by decide)]
  generalize funct3 inst = f, inst.getLsbD 30 = b₃₀, inst.getLsbD 25 = b₂₅
  revert f b₃₀ b₂₅
  decide +kernel

theorem controlLogic_jalr (h : opcode inst = 0b1100111) :
    (controlLogic inst).wbSel ≠ 0 ∧
      ((controlLogic inst).illegalInst = false →
        (controlLogic inst).aSel = false ∧ (controlLogic inst).bSel ∧
        (controlLogic inst).immSel = 0b000) := by
  simp only [controlLogic, romDecoder_case h (by decide) (by decide) (by decide)]
  generalize funct3 inst = f, inst.getLsbD 30 = b₃₀, inst.getLsbD 25 = b₂₅
  revert f b₃₀ b₂₅
  decide +kernel

/-- The class `OP`: `sh1add`, `sh2add` and `sh3add` come before the `casex`. -/
theorem romDecoder_op (h : opcode inst = 0b0110011) :
    romDecoder inst =
      if inst.extractLsb' 25 7 = 0b0010000#7 then
        if funct3 inst = 0b010 then some 45
        else if funct3 inst = 0b100 then some 46
        else if funct3 inst = 0b110 then some 47
        else none
      else romCase 0b01100 (funct3 inst) (inst.getLsbD 30) (inst.getLsbD 25) := by
  have h₅ : inst.extractLsb' 2 5 = 0b01100 := by rw [extractLsb'_opcode, h]; decide
  rw [romDecoder, if_neg (not_blank h (by decide) (by decide)), h₅, if_neg (by decide),
    if_neg (by decide), if_neg (by decide)]
  simp

/-- What an instruction of the class `OP` writes is computed. -/
theorem wbSel_of_op (h : opcode inst = 0b0110011) : (controlLogic inst).wbSel = 0b01 := by
  have hc : ∀ f b₃₀ b₂₅, (rom ((romCase 0b01100 f b₃₀ b₂₅).getD 0)).wbSel = 0b01 := by
    decide +kernel
  show (rom ((romDecoder inst).getD 0)).wbSel = 0b01
  rw [romDecoder_op h]
  split_ifs
  · rfl
  · rfl
  · rfl
  · rfl
  · exact hc _ _ _

/-- Of what the `casex` knows, the loads apart: an instruction that writes a register links, or
    computes from the `pc` and an immediate or, with an immediate, from one register. -/
theorem controlLogic_writes {c : BitVec 7} (h : opcode inst = c)
    (hc : c ∈ [0b0010011, 0b0110111, 0b0010111, 0b1101111, 0b1100111, 0b1100011, (0b0100011 : BitVec 7)])
    (hl : (controlLogic inst).illegalInst = false) (hw : (controlLogic inst).regWen) :
    (controlLogic inst).wbSel = 0b10 ∨ (controlLogic inst).wbSel = 0b01 ∧
      ((controlLogic inst).aSel ∨ c = 0b0010011 ∨ (controlLogic inst).aluSel = 15) ∧
      (controlLogic inst).bSel := by
  revert hl hw
  simp only [List.mem_cons, List.not_mem_nil, or_false] at hc
  rcases hc with rfl | rfl | rfl | rfl | rfl | rfl | rfl <;>
  · simp only [controlLogic, romDecoder_case h (by decide) (by decide) (by decide)]
    generalize funct3 inst = f, inst.getLsbD 30 = b₃₀, inst.getLsbD 25 = b₂₅
    revert f b₃₀ b₂₅
    decide +kernel

theorem opcode_of_isSc (h : (controlLogic inst).isSc) :
    opcode inst = 0b0101111 ∧ inst.extractLsb' 27 5 = 0b00011#5 := by
  simpa [controlLogic] using h

theorem opcode_of_isLr (h : (controlLogic inst).isLr) :
    opcode inst = 0b0101111 ∧ inst.extractLsb' 27 5 = 0b00010#5 := by
  simpa [controlLogic] using h

theorem opcode_of_isAmo (h : (controlLogic inst).isAmo) :
    opcode inst = 0b0101111 ∧ inst.extractLsb' 27 5 ≠ 0b00010#5 ∧
    inst.extractLsb' 27 5 ≠ 0b00011#5 := by
  simp only [controlLogic, Bool.and_eq_true, Bool.not_eq_true', decide_eq_true_eq, Bool.and_eq_false_imp,
    beq_eq_false_iff_ne] at h
  exact ⟨h.1.1, h.1.2 h.1.1, h.2 h.1.1⟩

/-- `sc.w` writes back what EX/MEM holds; `lr.w` and the AMOs write back what they read. -/
theorem wbSel_of_isSc (h : (controlLogic inst).isSc) : (controlLogic inst).wbSel = 0b01 := by
  obtain ⟨ho, hf⟩ := opcode_of_isSc h
  simp only [controlLogic, romDecoder_amo ho, hf]
  decide

theorem wbSel_of_isLr (h : (controlLogic inst).isLr) :
    (controlLogic inst).wbSel = 0b00 ∧ (controlLogic inst).memRw = false := by
  obtain ⟨ho, hf⟩ := opcode_of_isLr h
  simp only [controlLogic, romDecoder_amo ho, hf]
  decide

theorem wbSel_of_isAmo (h : (controlLogic inst).isAmo) :
    (controlLogic inst).wbSel = 0b00 ∧ (controlLogic inst).memRw = false := by
  obtain ⟨ho, _, hf⟩ := opcode_of_isAmo h
  simp only [controlLogic, romDecoder_amo ho, if_neg hf]
  decide

end

end Rv32Soc
