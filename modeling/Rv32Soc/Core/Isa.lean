import Rv32Soc.Core.MultiCycle

/-!
# The instruction set level

What a program does, one instruction after the other, with no pipeline: the
address of the next instruction (`successor`), and the state that an
instruction leaves (`Arch.after`).

A step is given the result that the instruction wrote to its register. For an
instruction that computes it from the registers, the `pc` and the CSRs, it is
`Arch.result`; what other instructions return (`isComputed` is false for
them: loads, LR, SC, AMOs, reads of `mip`) is up to the outside.
-/

namespace Rv32Soc

/-- The word fetched at an address: the halfword there, and the one after it. -/
def Mem.fetchWord (m : Mem) (a : Word) : Word := m.half (a + 2) ++ m.half a

/-! ## Control flow -/

/-- A branch on two registers is taken. -/
def branchTaken (inst x₁ x₂ : Word) : Bool :=
  match (funct3 inst).toNat with
  | 0b000 => x₁ == x₂
  | 0b001 => x₁ != x₂
  | 0b100 => x₁.slt x₂
  | 0b101 => !x₁.slt x₂
  | 0b110 => x₁ < x₂
  | 0b111 => !decide (x₁ < x₂)
  | _ => false

/-- The address of the next instruction, by the values `x₁` and `x₂` of the source registers. -/
def successor (pc inst : Word) (compressed : Bool) (x₁ x₂ : Word) : Word :=
  if opcode inst = 0b1101111 then (pc + immJ inst) &&& 0xFFFFFFFE
  else if opcode inst = 0b1100111 then (x₁ + immI inst) &&& 0xFFFFFFFE
  else if opcode inst = 0b1100011 ∧ branchTaken inst x₁ x₂ then (pc + immB inst) &&& 0xFFFFFFFE
  else pc + pcInc compressed

/-- Only a register that the instruction reads matters. -/
theorem successor_congr {pc inst : Word} {compressed : Bool} {x₁ x₂ y₁ y₂ : Word}
    (h₁ : readsRs1 inst → x₁ = y₁) (h₂ : readsRs2 inst → x₂ = y₂) :
    successor pc inst compressed x₁ x₂ = successor pc inst compressed y₁ y₂ := by
  unfold successor
  by_cases hj : opcode inst = 0b1100111
  · rw [h₁ (by rw [readsRs1, hj]; rfl)]
    simp only [hj, if_true]
  · by_cases hb : opcode inst = 0b1100011
    · rw [h₁ (by rw [readsRs1, hb]; rfl), h₂ (by rw [readsRs2, hb]; rfl)]
    · simp only [hj, hb, if_false, false_and]

/-! ## The state -/

/-- An instruction that has been executed, with what it wrote to its register if it has one. -/
structure Retired where
  pc : Word
  inst : Word
  compressed : Bool
  result : Word
  deriving DecidableEq

structure Arch where
  pc : Word
  regs : BitVec 5 → Word
  csr : CsrFile

/-- The instruction writes the register `r`. -/
def writesReg (inst : Word) (r : BitVec 5) : Bool :=
  (controlLogic inst).regWen && rdField inst == r && r != 0

/-- The CSR that an instruction names. -/
def csrField (inst : Word) : BitVec 12 := inst.extractLsb' 20 12

namespace Arch

variable (a : Arch)

/-- The operand of a CSR instruction. -/
def csrOperand (inst : Word) : Word :=
  if (controlLogic inst).csrUseImm then (controlLogic inst).csrUimm.setWidth 32
    else a.regs (rs1Field inst)

/-- The state after an instruction. -/
def after (r : Retired) : Arch where
  pc := successor r.pc r.inst r.compressed (a.regs (rs1Field r.inst)) (a.regs (rs2Field r.inst))
  regs x := if writesReg r.inst x then r.result else a.regs x
  csr :=
    if (controlLogic r.inst).csrWen then
      a.csr.write (csrField r.inst) (controlLogic r.inst).csrOp (a.csrOperand r.inst)
    else a.csr

/-- The state after some instructions, oldest first. -/
def afterAll (l : List Retired) : Arch := l.foldl after a

theorem afterAll_append (l : List Retired) (r : Retired) :
    a.afterAll (l ++ [r]) = (a.afterAll l).after r := by
  simp [afterAll]

/-- The reservation after an instruction that found `v`: an `lr.w` makes one, what writes memory
    breaks it. -/
def reserve (v : Option Word) (r : Retired) : Option Word :=
  if (controlLogic r.inst).isLr then some (a.regs (rs1Field r.inst))
  else if (controlLogic r.inst).memRw || (controlLogic r.inst).isAmo then none
  else v

/-- The reservation after some instructions, oldest first. -/
def reserveAll (a : Arch) (v : Option Word) : List Retired → Option Word
  | [] => v
  | r :: l => (a.after r).reserveAll (a.reserve v r) l

theorem reserveAll_append (v : Option Word) (l : List Retired) (r : Retired) :
    a.reserveAll v (l ++ [r]) = (a.afterAll l).reserve (a.reserveAll v l) r := by
  induction l generalizing a v with
  | nil => rfl
  | cons _ l ih => exact ih _ _

/-- The result of an instruction that computes it. -/
def result (pc inst : Word) (compressed : Bool) : Word :=
  let c := controlLogic inst
  let x₁ := if c.aSel then pc else a.regs (rs1Field inst)
  let x₂ := if c.bSel then immgen inst c.immSel else a.regs (rs2Field inst)
  if c.wbSel = 0b10 then pc + pcInc compressed
  else if c.csrWen then a.csr.csrRdata (csrField inst) false false
  else if c.aluSel.extractLsb' 2 3 = 0b100 then
    if c.aluSel.getLsbD 1 then (DivUnit.result x₁ x₂ (!c.aluSel.getLsbD 0)).2
    else (DivUnit.result x₁ x₂ (!c.aluSel.getLsbD 0)).1
  else alu x₁ x₂ c.aluSel

end Arch

/-- The result of an instruction, if it has one, comes from the registers, the `pc` and the CSRs
    alone. -/
def isComputed (inst : Word) : Bool :=
  match (opcode inst).toNat with
  | 0b0110011 | 0b0010011 | 0b0110111 | 0b0010111 | 0b1101111 | 0b1100111 | 0b1100011 | 0b0100011 => true
  | 0b1110011 => (controlLogic inst).csrWen && csrField inst != 0x344
  | _ => false

end Rv32Soc
