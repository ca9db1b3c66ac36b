import Rv32Soc.Riscv.Instr

/-!
# Compressed instructions

The integer instructions of the extension C on a 32-bit machine, as the manual has them: each halfword
stands for one of the instructions of `Instr`. A halfword that is reserved, or set aside for custom
extensions, stands for none; hints stand for what they are written as. `C.EBREAK` is left out, as
`EBREAK` is.
-/

namespace Rv32Soc

namespace Riscv

namespace Compressed

variable (h : Half)

/-! ## Registers -/

/-- A register of three bits is one of `x8` to `x15`. -/
def reg' (r : BitVec 3) : Reg := 0b01#2 ++ r

def rd : Reg := h.extractLsb' 7 5
def rs2 : Reg := h.extractLsb' 2 5
def rd' : Reg := reg' (h.extractLsb' 2 3)
def rs1' : Reg := reg' (h.extractLsb' 7 3)
def rs2' : Reg := reg' (h.extractLsb' 2 3)

/-! ## Immediates -/

/-- `imm[5] | imm[4:0]` -/
def ciImm : Word := (h.extractLsb' 12 1 ++ h.extractLsb' 2 5 : BitVec 6).signExtend 32

/-- `nzimm[17] | nzimm[16:12]` -/
def luiImm : Word := (h.extractLsb' 12 1 ++ h.extractLsb' 2 5 ++ 0#12 : BitVec 18).signExtend 32

/-- `nzimm[9] | nzimm[4|6|8:7|5]` -/
def addi16spImm : Word :=
  (h.extractLsb' 12 1 ++ h.extractLsb' 3 2 ++ h.extractLsb' 5 1 ++ h.extractLsb' 2 1 ++
    h.extractLsb' 6 1 ++ 0#4 :
    BitVec 10).signExtend 32

/-- `nzuimm[5:4|9:6|2|3]` -/
def addi4spnImm : Word :=
  (h.extractLsb' 7 4 ++ h.extractLsb' 11 2 ++ h.extractLsb' 5 1 ++ h.extractLsb' 6 1 ++
    0#2 : BitVec 10).setWidth 32

/-- `uimm[5] | uimm[4:2|7:6]` -/
def lwspImm : Word :=
  (h.extractLsb' 2 2 ++ h.extractLsb' 12 1 ++ h.extractLsb' 4 3 ++ 0#2 : BitVec 8).setWidth 32

/-- `uimm[5:2|7:6]` -/
def swspImm : Word := (h.extractLsb' 7 2 ++ h.extractLsb' 9 4 ++ 0#2 : BitVec 8).setWidth 32

/-- `uimm[5:3] | uimm[2|6]` -/
def lwImm : Word :=
  (h.extractLsb' 5 1 ++ h.extractLsb' 10 3 ++ h.extractLsb' 6 1 ++ 0#2 : BitVec 7).setWidth 32

/-- `imm[11|4|9:8|10|6|7|3:1|5]` -/
def jImm : Word :=
  (h.extractLsb' 12 1 ++ h.extractLsb' 8 1 ++ h.extractLsb' 9 2 ++ h.extractLsb' 6 1 ++
    h.extractLsb' 7 1 ++
    h.extractLsb' 2 1 ++ h.extractLsb' 11 1 ++ h.extractLsb' 3 3 ++ 0#1 : BitVec 12).signExtend 32

/-- `imm[8|4:3] | imm[7:6|2:1|5]` -/
def bImm : Word :=
  (h.extractLsb' 12 1 ++ h.extractLsb' 5 2 ++ h.extractLsb' 2 1 ++ h.extractLsb' 10 2 ++
    h.extractLsb' 3 2 ++ 0#1 :
    BitVec 9).signExtend 32

/-- `shamt[4:0]`, where `shamt[5]` has to be zero. -/
def shamt : Word := (h.extractLsb' 2 5).setWidth 32

/-! ## The instructions -/

/-- Quadrant 0: `C.ADDI4SPN`, `C.LW`, `C.SW`. -/
def decodeQ0 : Option Instr :=
  match (h.extractLsb' 13 3).toNat with
  | 0b000 => if addi4spnImm h = 0 then none else some (.opImm .add (rd' h) 2 (addi4spnImm h))
  | 0b010 => some (.load .lw (rd' h) (rs1' h) (lwImm h))
  | 0b110 => some (.store .sw (rs1' h) (rs2' h) (lwImm h))
  | _ => none

/-- `C.SRLI`, `C.SRAI`, `C.ANDI`, `C.SUB`, `C.XOR`, `C.OR`, `C.AND`. -/
def decodeArith : Option Instr :=
  match (h.extractLsb' 10 2).toNat with
  | 0b00 => if h.getLsbD 12 then none else some (.opImm .srl (rs1' h) (rs1' h) (shamt h))
  | 0b01 => if h.getLsbD 12 then none else some (.opImm .sra (rs1' h) (rs1' h) (shamt h))
  | 0b10 => some (.opImm .and (rs1' h) (rs1' h) (ciImm h))
  | _ =>
    if h.getLsbD 12 then none
    else
      match (h.extractLsb' 5 2).toNat with
      | 0b00 => some (.opReg .sub (rs1' h) (rs1' h) (rs2' h))
      | 0b01 => some (.opReg .xor (rs1' h) (rs1' h) (rs2' h))
      | 0b10 => some (.opReg .or (rs1' h) (rs1' h) (rs2' h))
      | _ => some (.opReg .and (rs1' h) (rs1' h) (rs2' h))

/-- Quadrant 1: `C.ADDI`, `C.JAL`, `C.LI`, `C.ADDI16SP`, `C.LUI`, arithmetic, `C.J`, `C.BEQZ`,
    `C.BNEZ`. -/
def decodeQ1 : Option Instr :=
  match (h.extractLsb' 13 3).toNat with
  | 0b000 => some (.opImm .add (rd h) (rd h) (ciImm h))
  | 0b001 => some (.jal 1 (jImm h))
  | 0b010 => some (.opImm .add (rd h) 0 (ciImm h))
  | 0b011 =>
    if ciImm h = 0 then none
    else if rd h = 2 then some (.opImm .add 2 2 (addi16spImm h))
    else some (.lui (rd h) (luiImm h))
  | 0b100 => decodeArith h
  | 0b101 => some (.jal 0 (jImm h))
  | 0b110 => some (.branch .beq (rs1' h) 0 (bImm h))
  | _ => some (.branch .bne (rs1' h) 0 (bImm h))

/-- Quadrant 2: `C.SLLI`, `C.LWSP`, `C.JR`, `C.MV`, `C.JALR`, `C.ADD`, `C.SWSP`. -/
def decodeQ2 : Option Instr :=
  match (h.extractLsb' 13 3).toNat with
  | 0b000 => if h.getLsbD 12 then none else some (.opImm .sll (rd h) (rd h) (shamt h))
  | 0b010 => if rd h = 0 then none else some (.load .lw (rd h) 2 (lwspImm h))
  | 0b100 =>
    if rs2 h = 0 then if rd h = 0 then none else some (.jalr (if h.getLsbD 12 then 1 else 0) (rd h) 0)
    else some (.opReg .add (rd h) (if h.getLsbD 12 then rd h else 0) (rs2 h))
  | 0b110 => some (.store .sw 2 (rs2 h) (swspImm h))
  | _ => none

/-- The instruction that a halfword stands for, if it stands for one. -/
def decode : Option Instr :=
  match (h.extractLsb' 0 2).toNat with
  | 0b00 => decodeQ0 h
  | 0b01 => decodeQ1 h
  | 0b10 => decodeQ2 h
  | _ => none

/-- `c.addi a0, 1`, `c.lw a0, 4(a1)`, `c.jr ra`, and the halfword of zeros, which is reserved. -/
example : decode 0x0505 = some (.opImm .add 10 10 1) ∧ decode 0x41C8 = some (.load .lw 10 11 4) ∧
    decode 0x8082 = some (.jalr 0 1 0) ∧ decode 0x0000 = none := by
  decide

end Compressed

/-- The instruction at the start of a word that has been fetched. -/
def decodeFetched (w : Word) : Option Instr :=
  if w.extractLsb' 0 2 = 0b11 then decode w else Compressed.decode (w.extractLsb' 0 16)

end Riscv

end Rv32Soc
