import Rv32Soc.Core.Decode
import Rv32Soc.Riscv.Compressed

/-!
# Compressed instructions

`rvc_expansion.v`: the 32-bit instruction that a 16-bit one stands for. What is not
recognised expands to the all-zero word, which `romDecoder` rejects.

The expansion puts a word together of pieces of the halfword. Such a word is decoded by its fields
(`Fields`), format by format, and the pieces of each immediate make up the number that the manual has
for it (`decode_rvcExpand`).
-/

namespace Rv32Soc

/-- A halfword that is not the start of a 32-bit instruction. -/
def isCompressed (instC : Half) : Bool := instC.extractLsb' 0 2 != 0b11#2

section

variable (instC : Half)

/-- The bit `n` of the instruction, replicated. -/
private def rep (n k : ℕ) : BitVec k := (instC.extractLsb' n 1).signExtend k

private def rs1p : BitVec 5 := 0b01#2 ++ instC.extractLsb' 7 3
private def rs2p : BitVec 5 := 0b01#2 ++ instC.extractLsb' 2 3
private def rdp : BitVec 5 := 0b01#2 ++ instC.extractLsb' 2 3
private def rs2Full : BitVec 5 := instC.extractLsb' 2 5
private def rdFull : BitVec 5 := instC.extractLsb' 7 5

/-- Bit `n` as a vector. -/
private def bit (n : ℕ) : BitVec 1 := instC.extractLsb' n 1

/-- The immediate of `C.ADDI`, `C.LI` and `C.ANDI`. -/
private def ciImm : BitVec 12 := rep instC 12 6 ++ bit instC 12 ++ instC.extractLsb' 2 5

/-- The immediate of `C.JAL` and `C.J`, as `jal` has it. -/
private def cjImm : BitVec 20 :=
  bit instC 12 ++ bit instC 8 ++ instC.extractLsb' 9 2 ++ bit instC 6 ++ bit instC 7 ++ bit instC 2 ++
    bit instC 11 ++ instC.extractLsb' 3 3 ++ bit instC 12 ++ rep instC 12 8

/-- Quadrant 0. -/
def rvcQ0 : Word :=
  match (instC.extractLsb' 13 3).toNat with
  | 0b000 => -- C.ADDI4SPN
    0b00#2 ++ instC.extractLsb' 7 4 ++ instC.extractLsb' 11 2 ++ bit instC 5 ++ bit instC 6 ++ 0b00#2 ++
      0b00010#5 ++ 0b000#3 ++ rdp instC ++ 0b0010011#7
  | 0b010 => -- C.LW
    0b00000#5 ++ bit instC 5 ++ instC.extractLsb' 10 3 ++ bit instC 6 ++ 0b00#2 ++
      rs1p instC ++ 0b010#3 ++ rdp instC ++ 0b0000011#7
  | 0b110 => -- C.SW
    0b00000#5 ++ bit instC 5 ++ bit instC 12 ++ rs2p instC ++ rs1p instC ++ 0b010#3 ++
      instC.extractLsb' 10 2 ++ bit instC 6 ++ 0b00#2 ++ 0b0100011#7
  | _ => 0x00000000

/-- The arithmetic instructions of quadrant 1. -/
def rvcArith : Word :=
  match (instC.extractLsb' 10 2).toNat with
  | 0b00 => -- C.SRLI
    0b000000#6 ++ bit instC 12 ++ instC.extractLsb' 2 5 ++ rs1p instC ++ 0b101#3 ++
      rs1p instC ++ 0b0010011#7
  | 0b01 => -- C.SRAI
    0b010000#6 ++ bit instC 12 ++ instC.extractLsb' 2 5 ++ rs1p instC ++ 0b101#3 ++
      rs1p instC ++ 0b0010011#7
  | 0b10 => -- C.ANDI
    ciImm instC ++ rs1p instC ++ 0b111#3 ++ rs1p instC ++ 0b0010011#7
  | _ =>
    match (instC.extractLsb' 5 2).toNat with
    | 0b00 => -- C.SUB
      0b0100000#7 ++ rs2p instC ++ rs1p instC ++ 0b000#3 ++ rs1p instC ++ 0b0110011#7
    | 0b01 => -- C.XOR
      0b0000000#7 ++ rs2p instC ++ rs1p instC ++ 0b100#3 ++ rs1p instC ++ 0b0110011#7
    | 0b10 => -- C.OR
      0b0000000#7 ++ rs2p instC ++ rs1p instC ++ 0b110#3 ++ rs1p instC ++ 0b0110011#7
    | _ => -- C.AND
      0b0000000#7 ++ rs2p instC ++ rs1p instC ++ 0b111#3 ++ rs1p instC ++ 0b0110011#7

/-- Quadrant 1. -/
def rvcQ1 : Word :=
  match (instC.extractLsb' 13 3).toNat with
  | 0b000 => -- C.ADDI
    ciImm instC ++ rdFull instC ++ 0b000#3 ++ rdFull instC ++ 0b0010011#7
  | 0b001 => -- C.JAL
    cjImm instC ++ 0b00001#5 ++ 0b1101111#7
  | 0b010 => -- C.LI
    ciImm instC ++ 0b00000#5 ++ 0b000#3 ++ rdFull instC ++ 0b0010011#7
  | 0b011 =>
    if rdFull instC = 0b00010 then -- C.ADDI16SP
      rep instC 12 2 ++ bit instC 12 ++ instC.extractLsb' 3 2 ++ bit instC 5 ++
        bit instC 2 ++ bit instC 6 ++
        0b0000#4 ++ 0b00010#5 ++ 0b000#3 ++ 0b00010#5 ++ 0b0010011#7
    else -- C.LUI
      rep instC 12 14 ++ bit instC 12 ++ instC.extractLsb' 2 5 ++ rdFull instC ++ 0b0110111#7
  | 0b100 => rvcArith instC
  | 0b101 => -- C.J
    cjImm instC ++ 0b00000#5 ++ 0b1101111#7
  | 0b110 => -- C.BEQZ
    bit instC 12 ++ rep instC 12 3 ++ instC.extractLsb' 5 2 ++ bit instC 2 ++ 0b00000#5 ++ rs1p instC ++
      0b000#3 ++ instC.extractLsb' 10 2 ++ instC.extractLsb' 3 2 ++ bit instC 12 ++ 0b1100011#7
  | _ => -- C.BNEZ
    bit instC 12 ++ rep instC 12 3 ++ instC.extractLsb' 5 2 ++ bit instC 2 ++ 0b00000#5 ++ rs1p instC ++
      0b001#3 ++ instC.extractLsb' 10 2 ++ instC.extractLsb' 3 2 ++ bit instC 12 ++ 0b1100011#7

/-- Quadrant 2. -/
def rvcQ2 : Word :=
  match (instC.extractLsb' 13 3).toNat with
  | 0b000 => -- C.SLLI
    0b000000#6 ++ bit instC 12 ++ instC.extractLsb' 2 5 ++ rdFull instC ++ 0b001#3 ++ rdFull instC ++
      0b0010011#7
  | 0b010 => -- C.LWSP
    0b0000#4 ++ instC.extractLsb' 2 2 ++ bit instC 12 ++ instC.extractLsb' 4 3 ++ 0b00#2 ++ 0b00010#5 ++
      0b010#3 ++ rdFull instC ++ 0b0000011#7
  | 0b110 => -- C.SWSP
    0b0000#4 ++ instC.extractLsb' 7 2 ++ bit instC 12 ++ rs2Full instC ++ 0b00010#5 ++ 0b010#3 ++
      instC.extractLsb' 9 3 ++ 0b00#2 ++ 0b0100011#7
  | 0b100 =>
    if instC.getLsbD 12 = false then
      if rs2Full instC = 0b00000 then -- C.JR
        0b000000000000#12 ++ rdFull instC ++ 0b000#3 ++ 0b00000#5 ++ 0b1100111#7
      else -- C.MV
        0b0000000#7 ++ rs2Full instC ++ 0b00000#5 ++ 0b000#3 ++ rdFull instC ++ 0b0110011#7
    else if rdFull instC = 0b00000 ∧ rs2Full instC = 0b00000 then 0x00100073 -- C.EBREAK
    else if rs2Full instC = 0b00000 then -- C.JALR
      0b000000000000#12 ++ rdFull instC ++ 0b000#3 ++ 0b00001#5 ++ 0b1100111#7
    else -- C.ADD
      0b0000000#7 ++ rs2Full instC ++ rdFull instC ++ 0b000#3 ++ rdFull instC ++ 0b0110011#7
  | _ => 0x00000000

/-- The instruction that a halfword expands to. -/
def rvcExpand : Word :=
  match (instC.extractLsb' 0 2).toNat with
  | 0b00 => rvcQ0 instC
  | 0b01 => rvcQ1 instC
  | 0b10 => rvcQ2 instC
  | _ => nop

end

/-- The instruction delivered to ID for the word that was fetched. -/
def muxedIfInst (rawInst : Word) : Word :=
  if isCompressed (rawInst.extractLsb' 0 16) then rvcExpand (rawInst.extractLsb' 0 16) else rawInst

/-- `c.addi a0, 1`, `c.lw a0, 4(a1)` and `c.jr ra`. -/
example : muxedIfInst 0x00000505 = 0x00150513 ∧ muxedIfInst 0x000041C8 = 0x0045A503 ∧
    muxedIfInst 0x00008082 = 0x00008067 := by decide

/-! ## What the words stand for -/

open Riscv (Instr AluOp)

/-- A word with an immediate of 12 bits, registers, `funct3` and opcode. -/
structure Fields (w : Word) (imm : BitVec 12) (rs1 : BitVec 5) (f₃ : BitVec 3) (rd : BitVec 5)
    (op : BitVec 7) :
    Prop where
  opcode : Riscv.opcode w = op
  rd : Riscv.rd w = rd
  funct3 : Riscv.funct3 w = f₃
  rs1 : Riscv.rs1 w = rs1
  imm : w.extractLsb' 20 12 = imm

theorem extractLsb'_upper {v n start len : ℕ} {x : BitVec v} {y : BitVec n} (h : n ≤ start) :
    (x ++ y).extractLsb' start len = x.extractLsb' (start - n) len :=
  BitVec.extractLsb'_append_eq_of_le h

theorem fields_append (imm : BitVec 12) (rs1 : BitVec 5) (f₃ : BitVec 3) (rd : BitVec 5)
    (op : BitVec 7) :
    Fields (imm ++ rs1 ++ f₃ ++ rd ++ op) imm rs1 f₃ rd op where
  opcode := BitVec.extractLsb'_append_eq_right
  rd := (extractLsb'_upper (by decide)).trans BitVec.extractLsb'_append_eq_right
  funct3 :=
    (extractLsb'_upper (by decide)).trans
      ((extractLsb'_upper (by decide)).trans BitVec.extractLsb'_append_eq_right)
  rs1 := (extractLsb'_upper (by decide)).trans ((extractLsb'_upper (by decide)).trans
    ((extractLsb'_upper (by decide)).trans BitVec.extractLsb'_append_eq_right))
  imm := (extractLsb'_upper (by decide)).trans ((extractLsb'_upper (by decide)).trans
    ((extractLsb'_upper (by decide)).trans BitVec.extractLsb'_append_eq_left))

private theorem append_pieces {n k l m : ℕ} (x : BitVec n) (a : BitVec k) (b : BitVec l) (c : BitVec m) :
    x ++ a ++ b ++ c = (x ++ (a ++ b ++ c)).cast (by omega) := by
  apply BitVec.eq_of_toNat_eq
  simp only [BitVec.toNat_cast, BitVec.toNat_append, Nat.shiftLeft_or_distrib,
    ← Nat.shiftLeft_add, Nat.or_assoc, Nat.add_assoc]

/-- The lower bits of an immediate, in pieces, in the place of `rd`. -/
private theorem fields_of_eq {imm : BitVec 12} {x₁ : BitVec 5} {f₃ : BitVec 3}
    {low : BitVec 5} {y : BitVec 25}
    (h : y = imm ++ x₁ ++ f₃ ++ low) (op : BitVec 7) : Fields (y ++ op) imm x₁ f₃ low op := by
  subst h
  exact fields_append _ _ _ _ _

private theorem fields_sw (imm : BitVec 12) (x₁ : BitVec 5) (f₃ : BitVec 3) (a : BitVec 2)
    (b : BitVec 1) (c : BitVec 2)
    (op : BitVec 7) : Fields (imm ++ x₁ ++ f₃ ++ a ++ b ++ c ++ op) imm x₁ f₃ (a ++ b ++ c) op :=
  fields_of_eq (append_pieces (imm ++ x₁ ++ f₃) a b c) op

private theorem fields_swsp (imm : BitVec 12) (x₁ : BitVec 5) (f₃ : BitVec 3) (a : BitVec 3)
    (b : BitVec 2) (op : BitVec 7) :
    Fields (imm ++ x₁ ++ f₃ ++ a ++ b ++ op) imm x₁ f₃ (a ++ b) op :=
  fields_of_eq (BitVec.append_assoc) op

private theorem fields_branch (imm : BitVec 12) (x₁ : BitVec 5) (f₃ : BitVec 3) (a : BitVec 2)
    (b : BitVec 2) (c : BitVec 1)
    (op : BitVec 7) : Fields (imm ++ x₁ ++ f₃ ++ a ++ b ++ c ++ op) imm x₁ f₃ (a ++ b ++ c) op :=
  fields_of_eq (append_pieces (imm ++ x₁ ++ f₃) a b c) op

section

variable {w : Word} {imm : BitVec 12} {f₇ : BitVec 7} {x₂ x₁ xd : BitVec 5}
  {f₃ : BitVec 3} {op : BitVec 7}

theorem Fields.rs2 (F : Fields w imm x₁ f₃ xd op) : Riscv.rs2 w = imm.extractLsb' 0 5 := by
  rw [← F.imm, extractLsb'_extractLsb' _ (by decide)]
  rfl

theorem Fields.funct7 (F : Fields w imm x₁ f₃ xd op) : Riscv.funct7 w = imm.extractLsb' 5 7 := by
  rw [← F.imm, extractLsb'_extractLsb' _ (by decide)]
  rfl

theorem Fields.iImm (F : Fields w imm x₁ f₃ xd op) : Riscv.iImm w = imm.signExtend 32 := by
  rw [← F.imm]
  rfl

/-- The upper seven bits and the register `rs2` in place of an immediate. -/
theorem Fields.upper (F : Fields w (f₇ ++ x₂) x₁ f₃ xd op) :
    Riscv.funct7 w = f₇ ∧ Riscv.rs2 w = x₂ :=
  ⟨F.funct7.trans BitVec.extractLsb'_append_eq_left, F.rs2.trans BitVec.extractLsb'_append_eq_right⟩

private theorem decode_opImm {o : AluOp} (F : Fields w imm x₁ f₃ xd 0b0010011)
    (ho : Riscv.opImmOp f₃ (imm.extractLsb' 5 7) = some o) :
    Riscv.decode w = some (.opImm o xd x₁ (Riscv.opImmImm o w)) := by
  rw [Riscv.decode_opImm F.opcode, F.funct3, F.funct7, ho, F.rd, F.rs1]
  rfl

private theorem decode_addi (F : Fields w imm x₁ 0b000 xd 0b0010011) :
    Riscv.decode w = some (.opImm .add xd x₁ (imm.signExtend 32)) := by
  rw [decode_opImm F rfl, ← F.iImm]
  rfl

private theorem decode_andi (F : Fields w imm x₁ 0b111 xd 0b0010011) :
    Riscv.decode w = some (.opImm .and xd x₁ (imm.signExtend 32)) := by
  rw [decode_opImm F rfl, ← F.iImm]
  rfl

private theorem decode_shift {o : AluOp} (F : Fields w (f₇ ++ x₂) x₁ f₃ xd 0b0010011)
    (ho : Riscv.opImmOp f₃ f₇ = some o)
    (hs : o = .sll ∨ o = .srl ∨ o = .sra) :
      Riscv.decode w = some (.opImm o xd x₁ (x₂.setWidth 32)) := by
  rw [decode_opImm F ((congrArg _ BitVec.extractLsb'_append_eq_left).trans ho), ← F.upper.2]
  rcases hs with rfl | rfl | rfl <;> rfl

private theorem decode_opReg {o : AluOp} (F : Fields w (f₇ ++ x₂) x₁ f₃ xd 0b0110011)
    (ho : Riscv.opOp f₃ f₇ = some (.inl o)) : Riscv.decode w = some (.opReg o xd x₁ x₂) := by
  rw [Riscv.decode_op F.opcode, F.funct3, F.upper.1, ho, F.rd, F.rs1, F.upper.2]
  rfl

private theorem decode_lw (F : Fields w imm x₁ 0b010 xd 0b0000011) :
    Riscv.decode w = some (.load .lw xd x₁ (imm.signExtend 32)) := by
  rw [Riscv.decode_load F.opcode, F.funct3, F.rd, F.rs1, F.iImm]
  rfl

private theorem decode_sw (F : Fields w (f₇ ++ x₂) x₁ 0b010 xd 0b0100011) :
    Riscv.decode w = some (.store .sw x₁ x₂ ((f₇ ++ xd : BitVec 12).signExtend 32)) := by
  have himm : Riscv.sImm w = (f₇ ++ xd : BitVec 12).signExtend 32 := by
    rw [← F.upper.1, ← F.rd]
    rfl
  rw [Riscv.decode_store F.opcode, F.funct3, F.rs1, F.upper.2, himm]
  rfl

private theorem decode_jalr (F : Fields w imm x₁ 0b000 xd 0b1100111) :
    Riscv.decode w = some (.jalr xd x₁ (imm.signExtend 32)) := by
  rw [Riscv.decode_jalr F.opcode, F.funct3, if_pos rfl, F.rd, F.rs1, F.iImm]

private theorem decode_branch {o : Riscv.BranchOp} (F : Fields w (f₇ ++ x₂) x₁ f₃ xd 0b1100011)
    (ho : Riscv.branchOp f₃ = some o) :
    Riscv.decode w = some (.branch o x₁ x₂
      ((f₇.extractLsb' 6 1 ++ xd.extractLsb' 0 1 ++ f₇.extractLsb' 0 6 ++ xd.extractLsb' 1 4 ++
        0#1 : BitVec 13).signExtend 32)) := by
  have himm : Riscv.bImm w =
      (f₇.extractLsb' 6 1 ++ xd.extractLsb' 0 1 ++ f₇.extractLsb' 0 6 ++ xd.extractLsb' 1 4 ++ 0#1 :
        BitVec 13).signExtend 32 := by
    rw [← F.upper.1, ← F.rd, Riscv.funct7, Riscv.rd, extractLsb'_extractLsb' _ (by decide),
      extractLsb'_extractLsb' _ (by decide),
      extractLsb'_extractLsb' _ (by decide), extractLsb'_extractLsb' _ (by decide)]
    rfl
  rw [Riscv.decode_branch F.opcode, F.funct3, ho, F.rs1, F.upper.2, himm]
  rfl

end

private theorem decode_lui (imm : BitVec 20) (xd : BitVec 5) :
    Riscv.decode (imm ++ xd ++ 0b0110111#7) = some (.lui xd (imm ++ 0#12)) := by
  have ho : Riscv.opcode (imm ++ xd ++ 0b0110111#7) = 0b0110111 := BitVec.extractLsb'_append_eq_right
  have hd : Riscv.rd (imm ++ xd ++ 0b0110111#7) = xd :=
    (extractLsb'_upper (by decide)).trans BitVec.extractLsb'_append_eq_right
  have hi : Riscv.uImm (imm ++ xd ++ 0b0110111#7) = imm ++ 0#12 :=
    congrArg (· ++ 0#12) ((extractLsb'_upper (by decide)).trans BitVec.extractLsb'_append_eq_left)
  rw [Riscv.decode_lui ho, hd, hi]

private theorem decode_jal (imm : BitVec 20) (xd : BitVec 5) :
    Riscv.decode (imm ++ xd ++ 0b1101111#7) = some (.jal xd
      ((imm.extractLsb' 19 1 ++ imm.extractLsb' 0 8 ++ imm.extractLsb' 8 1 ++
        imm.extractLsb' 9 10 ++ 0#1 :
        BitVec 21).signExtend 32)) := by
  have ho : Riscv.opcode (imm ++ xd ++ 0b1101111#7) = 0b1101111 := BitVec.extractLsb'_append_eq_right
  have hd : Riscv.rd (imm ++ xd ++ 0b1101111#7) = xd :=
    (extractLsb'_upper (by decide)).trans BitVec.extractLsb'_append_eq_right
  have hi : BitVec.extractLsb' 12 20 (imm ++ xd ++ 0b1101111#7) = imm :=
    (extractLsb'_upper (by decide)).trans BitVec.extractLsb'_append_eq_left
  have hj : ∀ w : Word, Riscv.jImm w =
      ((w.extractLsb' 12 20).extractLsb' 19 1 ++ (w.extractLsb' 12 20).extractLsb' 0 8 ++
        (w.extractLsb' 12 20).extractLsb' 8 1 ++ (w.extractLsb' 12 20).extractLsb' 9 10 ++ 0#1 :
          BitVec 21).signExtend 32 := by
    intro w
    rw [extractLsb'_extractLsb' _ (by decide), extractLsb'_extractLsb' _ (by decide),
      extractLsb'_extractLsb' _ (by decide), extractLsb'_extractLsb' _ (by decide)]
    rfl
  rw [Riscv.decode_jal ho, hd, hj]
  exact congrArg (fun v : BitVec 20 => some (Instr.jal xd
    ((v.extractLsb' 19 1 ++ v.extractLsb' 0 8 ++ v.extractLsb' 8 1 ++ v.extractLsb' 9 10 ++ 0#1 :
      BitVec 21).signExtend 32))) hi

section

variable {h : Half} {ins : Instr}

/-! The immediates, put in their places. -/

private theorem ciImm_eq (h : Half) : (ciImm h).signExtend 32 = Riscv.Compressed.ciImm h := by
  unfold ciImm rep bit Riscv.Compressed.ciImm
  generalize h.extractLsb' 12 1 = b₁₂, h.extractLsb' 2 5 = b₂
  revert b₁₂ b₂
  decide

private theorem addi4spnImm_eq (h : Half) :
    (0b00#2 ++ h.extractLsb' 7 4 ++ h.extractLsb' 11 2 ++ bit h 5 ++ bit h 6 ++ 0b00#2 :
      BitVec 12).signExtend 32 =
      Riscv.Compressed.addi4spnImm h := by
  unfold bit Riscv.Compressed.addi4spnImm
  generalize h.extractLsb' 7 4 = b₇, h.extractLsb' 11 2 = b₁₁, h.extractLsb' 5 1 = b₅,
    h.extractLsb' 6 1 = b₆
  revert b₇ b₁₁ b₅ b₆
  decide +kernel

private theorem lwImm_eq (h : Half) :
    (0b00000#5 ++ bit h 5 ++ h.extractLsb' 10 3 ++ bit h 6 ++ 0b00#2 : BitVec 12).signExtend 32 =
      Riscv.Compressed.lwImm h := by
  unfold bit Riscv.Compressed.lwImm
  generalize h.extractLsb' 5 1 = b₅, h.extractLsb' 10 3 = b₁₀, h.extractLsb' 6 1 = b₆
  revert b₅ b₁₀ b₆
  decide

private theorem swImm_eq (h : Half) :
    ((0b00000#5 ++ bit h 5 ++ bit h 12) ++ (h.extractLsb' 10 2 ++ bit h 6 ++ 0b00#2) :
      BitVec 12).signExtend 32 =
      Riscv.Compressed.lwImm h := by
  have hsplit : h.extractLsb' 12 1 ++ h.extractLsb' 10 2 = h.extractLsb' 10 3 :=
    BitVec.extractLsb'_append_extractLsb'_eq_extractLsb' (by rfl)
  unfold bit Riscv.Compressed.lwImm
  rw [← hsplit]
  generalize h.extractLsb' 5 1 = b₅, h.extractLsb' 12 1 = b₁₂, h.extractLsb' 10 2 = b₁₀,
    h.extractLsb' 6 1 = b₆
  revert b₅ b₁₂ b₁₀ b₆
  decide

private theorem addi16spImm_eq (h : Half) :
    (rep h 12 2 ++ bit h 12 ++ h.extractLsb' 3 2 ++ bit h 5 ++ bit h 2 ++ bit h 6 ++
      0b0000#4 : BitVec 12).signExtend 32 =
      Riscv.Compressed.addi16spImm h := by
  unfold rep bit Riscv.Compressed.addi16spImm
  generalize h.extractLsb' 12 1 = b₁₂, h.extractLsb' 3 2 = b₃, h.extractLsb' 5 1 = b₅,
    h.extractLsb' 2 1 = b₂, h.extractLsb' 6 1 = b₆
  revert b₁₂ b₃ b₅ b₂ b₆
  decide +kernel

private theorem luiImm_eq (h : Half) :
    ((rep h 12 14 ++ bit h 12 ++ h.extractLsb' 2 5 : BitVec 20) ++ 0#12 : Word) =
      Riscv.Compressed.luiImm h := by
  unfold rep bit Riscv.Compressed.luiImm
  generalize h.extractLsb' 12 1 = b₁₂, h.extractLsb' 2 5 = b₂
  revert b₁₂ b₂
  decide

private theorem jImm_eq (h : Half) :
    ((cjImm h).extractLsb' 19 1 ++ (cjImm h).extractLsb' 0 8 ++ (cjImm h).extractLsb' 8 1 ++
      (cjImm h).extractLsb' 9 10 ++ 0#1 :
      BitVec 21).signExtend 32 = Riscv.Compressed.jImm h := by
  unfold cjImm rep bit Riscv.Compressed.jImm
  generalize h.extractLsb' 12 1 = b₁₂, h.extractLsb' 8 1 = b₈, h.extractLsb' 9 2 = b₉,
    h.extractLsb' 6 1 = b₆,
    h.extractLsb' 7 1 = b₇, h.extractLsb' 2 1 = b₂, h.extractLsb' 11 1 = b₁₁, h.extractLsb' 3 3 = b₃
  revert b₁₂ b₈ b₉ b₆ b₇ b₂ b₁₁ b₃
  decide +kernel

private theorem bImm_eq (h : Half) :
    let f₇ : BitVec 7 := bit h 12 ++ rep h 12 3 ++ h.extractLsb' 5 2 ++ bit h 2
    let low : BitVec 5 := h.extractLsb' 10 2 ++ h.extractLsb' 3 2 ++ bit h 12
    (f₇.extractLsb' 6 1 ++ low.extractLsb' 0 1 ++ f₇.extractLsb' 0 6 ++ low.extractLsb' 1 4 ++ 0#1 :
      BitVec 13).signExtend 32 = Riscv.Compressed.bImm h := by
  unfold rep bit Riscv.Compressed.bImm
  generalize h.extractLsb' 12 1 = b₁₂, h.extractLsb' 5 2 = b₅, h.extractLsb' 2 1 = b₂,
    h.extractLsb' 10 2 = b₁₀, h.extractLsb' 3 2 = b₃
  revert b₁₂ b₅ b₂ b₁₀ b₃
  decide +kernel

private theorem lwspImm_eq (h : Half) :
    (0b0000#4 ++ h.extractLsb' 2 2 ++ bit h 12 ++ h.extractLsb' 4 3 ++ 0b00#2 :
      BitVec 12).signExtend 32 =
      Riscv.Compressed.lwspImm h := by
  unfold bit Riscv.Compressed.lwspImm
  generalize h.extractLsb' 2 2 = b₂, h.extractLsb' 12 1 = b₁₂, h.extractLsb' 4 3 = b₄
  revert b₂ b₁₂ b₄
  decide

private theorem swspImm_eq (h : Half) :
    ((0b0000#4 ++ h.extractLsb' 7 2 ++ bit h 12) ++ (h.extractLsb' 9 3 ++ 0b00#2) :
      BitVec 12).signExtend 32 =
      Riscv.Compressed.swspImm h := by
  have hsplit : h.extractLsb' 12 1 ++ h.extractLsb' 9 3 = h.extractLsb' 9 4 :=
    BitVec.extractLsb'_append_extractLsb'_eq_extractLsb' (by rfl)
  unfold bit Riscv.Compressed.swspImm
  rw [← hsplit]
  generalize h.extractLsb' 7 2 = b₇, h.extractLsb' 12 1 = b₁₂, h.extractLsb' 9 3 = b₉
  revert b₇ b₁₂ b₉
  decide

private theorem decode_rvcQ0 (hd : Riscv.Compressed.decodeQ0 h = some ins) :
    Riscv.decode (rvcQ0 h) = some ins := by
  unfold Riscv.Compressed.decodeQ0 at hd
  unfold rvcQ0
  generalize (h.extractLsb' 13 3).toNat = f at hd ⊢
  split at hd
  · split at hd
    · cases hd
    · cases hd
      exact (decode_addi (fields_append _ _ _ _ _)).trans
        (congrArg (fun v => some (Instr.opImm .add (rdp h) 2 v)) (addi4spnImm_eq h))
  · cases hd
    exact (decode_lw (fields_append _ _ _ _ _)).trans
      (congrArg (fun v => some (Instr.load .lw (rdp h) (rs1p h) v)) (lwImm_eq h))
  · cases hd
    exact (decode_sw (fields_sw _ _ _ _ _ _ _)).trans
      (congrArg (fun v => some (Instr.store .sw (rs1p h) (rs2p h) v)) (swImm_eq h))
  · cases hd

private theorem bit_eq_zero (hb : ¬h.getLsbD 12 = true) : bit h 12 = 0#1 := by
  apply BitVec.eq_of_getLsbD_eq
  intro k hk
  obtain rfl : k = 0 := by omega
  simpa [bit] using hb

private theorem eq_three {x : BitVec 2} (h₀ : x.toNat ≠ 0) (h₁ : x.toNat ≠ 1) (h₂ : x.toNat ≠ 2) :
    x.toNat = 3 := by
  have := x.isLt
  omega

private theorem eq_seven {x : BitVec 3} (h₀ : x.toNat ≠ 0) (h₁ : x.toNat ≠ 1) (h₂ : x.toNat ≠ 2)
    (h₃ : x.toNat ≠ 3)
    (h₄ : x.toNat ≠ 4) (h₅ : x.toNat ≠ 5) (h₆ : x.toNat ≠ 6) : x.toNat = 7 := by
  have := x.isLt
  omega

private theorem decode_rvcArith (hd : Riscv.Compressed.decodeArith h = some ins) :
    Riscv.decode (rvcArith h) = some ins := by
  unfold Riscv.Compressed.decodeArith at hd
  split at hd
  · next hf =>
    split at hd
    · cases hd
    · next hb =>
      cases hd
      rw [rvcArith, hf, bit_eq_zero hb]
      have F := fields_append ((0b000000#6 ++ 0#1 : BitVec 7) ++ h.extractLsb' 2 5) (rs1p h) 0b101
        (rs1p h) 0b0010011
      exact decode_shift F rfl (by decide)
  · next hf =>
    split at hd
    · cases hd
    · next hb =>
      cases hd
      rw [rvcArith, hf, bit_eq_zero hb]
      have F := fields_append ((0b010000#6 ++ 0#1 : BitVec 7) ++ h.extractLsb' 2 5) (rs1p h) 0b101
        (rs1p h) 0b0010011
      exact decode_shift F rfl (by decide)
  · next hf =>
    cases hd
    rw [rvcArith, hf]
    exact (decode_andi (fields_append _ _ _ _ _)).trans
      (congrArg (fun v => some (Instr.opImm .and (rs1p h) (rs1p h) v)) (ciImm_eq h))
  · -- funct2 = 3: the register forms, with bit 12 clear.
    next h₀ h₁ h₂ =>
    split at hd
    · cases hd
    · split at hd
      · next hf =>
        cases hd
        rw [rvcArith, eq_three h₀ h₁ h₂, hf]
        exact decode_opReg (fields_append _ _ _ _ _) rfl
      · next hf =>
        cases hd
        rw [rvcArith, eq_three h₀ h₁ h₂, hf]
        exact decode_opReg (fields_append _ _ _ _ _) rfl
      · next hf =>
        cases hd
        rw [rvcArith, eq_three h₀ h₁ h₂, hf]
        exact decode_opReg (fields_append _ _ _ _ _) rfl
      · next g₀ g₁ g₂ =>
        cases hd
        rw [rvcArith, eq_three h₀ h₁ h₂, eq_three g₀ g₁ g₂]
        exact decode_opReg (fields_append _ _ _ _ _) rfl

private theorem decode_rvcQ1 (hd : Riscv.Compressed.decodeQ1 h = some ins) :
    Riscv.decode (rvcQ1 h) = some ins := by
  unfold Riscv.Compressed.decodeQ1 at hd
  split at hd
  · next hf =>
    cases hd
    rw [rvcQ1, hf]
    exact (decode_addi (fields_append _ _ _ _ _)).trans
      (congrArg (fun v => some (Instr.opImm .add (rdFull h) (rdFull h) v)) (ciImm_eq h))
  · next hf =>
    cases hd
    rw [rvcQ1, hf]
    exact (decode_jal _ _).trans (congrArg (fun v => some (Instr.jal 1 v)) (jImm_eq h))
  · next hf =>
    cases hd
    rw [rvcQ1, hf]
    exact (decode_addi (fields_append _ _ _ _ _)).trans
      (congrArg (fun v => some (Instr.opImm .add (rdFull h) 0 v)) (ciImm_eq h))
  · next hf =>
    rw [rvcQ1, hf]
    split at hd
    · cases hd
    · -- rd = x2 makes `c.lui` a `c.addi16sp`.
      split at hd
      · next hr =>
        cases hd
        refine (congrArg Riscv.decode (if_pos hr)).trans ?_
        exact (decode_addi (fields_append _ _ _ _ _)).trans
          (congrArg (fun v => some (Instr.opImm .add 2 2 v)) (addi16spImm_eq h))
      · next hr =>
        cases hd
        refine (congrArg Riscv.decode (if_neg hr)).trans ?_
        exact (decode_lui _ _).trans (congrArg (fun v => some (Instr.lui (rdFull h) v)) (luiImm_eq h))
  · next hf =>
    rw [rvcQ1, hf]
    exact decode_rvcArith hd
  · next hf =>
    cases hd
    rw [rvcQ1, hf]
    exact (decode_jal _ _).trans (congrArg (fun v => some (Instr.jal 0 v)) (jImm_eq h))
  · next hf =>
    cases hd
    rw [rvcQ1, hf]
    exact (decode_branch (fields_branch _ _ _ _ _ _ _) rfl).trans
      (congrArg (fun v => some (Instr.branch .beq (rs1p h) 0 v)) (bImm_eq h))
  · next h₀ h₁ h₂ h₃ h₄ h₅ h₆ =>
    cases hd
    rw [rvcQ1, eq_seven h₀ h₁ h₂ h₃ h₄ h₅ h₆]
    exact (decode_branch (fields_branch _ _ _ _ _ _ _) rfl).trans
      (congrArg (fun v => some (Instr.branch .bne (rs1p h) 0 v)) (bImm_eq h))

private theorem decode_rvcQ2 (hd : Riscv.Compressed.decodeQ2 h = some ins) :
    Riscv.decode (rvcQ2 h) = some ins := by
  unfold Riscv.Compressed.decodeQ2 at hd
  split at hd
  · next hf =>
    split at hd
    · cases hd
    · next hb =>
      cases hd
      rw [rvcQ2, hf, bit_eq_zero hb]
      have F := fields_append ((0b000000#6 ++ 0#1 : BitVec 7) ++ h.extractLsb' 2 5) (rdFull h) 0b001
        (rdFull h) 0b0010011
      exact decode_shift F rfl (by decide)
  · next hf =>
    split at hd
    · cases hd
    · cases hd
      rw [rvcQ2, hf]
      exact (decode_lw (fields_append _ _ _ _ _)).trans
        (congrArg (fun v => some (Instr.load .lw (rdFull h) 2 v)) (lwspImm_eq h))
  · next hf =>
    rw [rvcQ2, hf]
    -- funct3 = 4: bit 12 and a zero rs2 tell jr, mv, jalr and add apart.
    cases hb : h.getLsbD 12 <;> rw [hb] at hd
    · refine (congrArg Riscv.decode (if_pos rfl)).trans ?_
      split at hd
      · next hr =>
        refine (congrArg Riscv.decode (if_pos hr)).trans ?_
        split at hd
        · cases hd
        · cases hd
          exact decode_jalr (fields_append _ _ _ _ _)
      · next hr =>
        cases hd
        refine (congrArg Riscv.decode (if_neg hr)).trans ?_
        exact decode_opReg (fields_append _ _ _ _ _) rfl
    · refine (congrArg Riscv.decode (if_neg (by decide))).trans ?_
      split at hd
      · next hr =>
        split at hd
        · cases hd
        · next h₀ =>
          cases hd
          refine (congrArg Riscv.decode ((if_neg fun h' => h₀ h'.1).trans (if_pos hr))).trans ?_
          exact decode_jalr (fields_append _ _ _ _ _)
      · next hr =>
        cases hd
        refine (congrArg Riscv.decode ((if_neg fun h' => hr h'.2).trans (if_neg hr))).trans ?_
        exact decode_opReg (fields_append _ _ _ _ _) rfl
  · next hf =>
    cases hd
    rw [rvcQ2, hf]
    exact (decode_sw (fields_swsp _ _ _ _ _ _)).trans
      (congrArg (fun v => some (Instr.store .sw 2 (rs2Full h) v)) (swspImm_eq h))
  · cases hd

/-- A halfword expands to a word for the instruction that it stands for. -/
theorem decode_rvcExpand (hd : Riscv.Compressed.decode h = some ins) :
    Riscv.decode (rvcExpand h) = some ins := by
  unfold Riscv.Compressed.decode at hd
  split at hd
  · next hq =>
    rw [rvcExpand, hq]
    exact decode_rvcQ0 hd
  · next hq =>
    rw [rvcExpand, hq]
    exact decode_rvcQ1 hd
  · next hq =>
    rw [rvcExpand, hq]
    exact decode_rvcQ2 hd
  · cases hd

end

end Rv32Soc
