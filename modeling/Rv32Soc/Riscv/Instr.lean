import Rv32Soc.Lib.Bytes

/-!
# Instructions

The user-level instructions of RV32IMA with the address generation of Zba, as the manual
has them: their syntax (`Instr`), the words that stand for them (`decode`), and what each one
does to the program counter, the registers and memory (`Instr.exec`). `FENCE` and the `SYSTEM`
instructions are left out.

Whether a store-conditional finds a reservation is up to the memory it runs on, and is an
argument of `Instr.exec`.
-/

namespace Rv32Soc

namespace Riscv

abbrev Reg := BitVec 5

/-! ## Syntax -/

inductive AluOp
  | add
  | sub
  | sll
  | slt
  | sltu
  | xor
  | srl
  | sra
  | or
  | and
  deriving DecidableEq, Repr

inductive MulDivOp
  | mul
  | mulh
  | mulhsu
  | mulhu
  | div
  | divu
  | rem
  | remu
  deriving DecidableEq, Repr

/-- `sh1add`, `sh2add`, `sh3add`. -/
inductive ShAddOp
  | sh1add
  | sh2add
  | sh3add
  deriving DecidableEq, Repr

inductive BranchOp
  | beq
  | bne
  | blt
  | bge
  | bltu
  | bgeu
  deriving DecidableEq, Repr

inductive LoadOp
  | lb
  | lh
  | lw
  | lbu
  | lhu
  deriving DecidableEq, Repr

inductive StoreOp
  | sb
  | sh
  | sw
  deriving DecidableEq, Repr

inductive AmoOp
  | swap
  | add
  | xor
  | and
  | or
  | min
  | max
  | minu
  | maxu
  deriving DecidableEq, Repr

/-- An instruction, with its immediate as the operand it stands for. -/
inductive Instr
  | lui (rd : Reg) (imm : Word)
  | auipc (rd : Reg) (imm : Word)
  | jal (rd : Reg) (imm : Word)
  | jalr (rd rs1 : Reg) (imm : Word)
  | branch (op : BranchOp) (rs1 rs2 : Reg) (imm : Word)
  | load (op : LoadOp) (rd rs1 : Reg) (imm : Word)
  | store (op : StoreOp) (rs1 rs2 : Reg) (imm : Word)
  | opImm (op : AluOp) (rd rs1 : Reg) (imm : Word)
  | opReg (op : AluOp) (rd rs1 rs2 : Reg)
  | mulDiv (op : MulDivOp) (rd rs1 rs2 : Reg)
  | shAdd (op : ShAddOp) (rd rs1 rs2 : Reg)
  | lr (rd rs1 : Reg)
  | sc (rd rs1 rs2 : Reg)
  | amo (op : AmoOp) (rd rs1 rs2 : Reg)
  deriving DecidableEq, Repr

/-! ## Encoding -/

section

variable (w : Word)

def opcode : BitVec 7 := w.extractLsb' 0 7
def rd : Reg := w.extractLsb' 7 5
def funct3 : BitVec 3 := w.extractLsb' 12 3
def rs1 : Reg := w.extractLsb' 15 5
def rs2 : Reg := w.extractLsb' 20 5
def funct7 : BitVec 7 := w.extractLsb' 25 7
def funct5 : BitVec 5 := w.extractLsb' 27 5

def iImm : Word := (w.extractLsb' 20 12).signExtend 32

def sImm : Word := (w.extractLsb' 25 7 ++ w.extractLsb' 7 5 : BitVec 12).signExtend 32

def bImm : Word :=
  (w.extractLsb' 31 1 ++ w.extractLsb' 7 1 ++ w.extractLsb' 25 6 ++ w.extractLsb' 8 4 ++ 0#1 :
    BitVec 13).signExtend 32

def uImm : Word := w.extractLsb' 12 20 ++ 0#12

def jImm : Word :=
  (w.extractLsb' 31 1 ++ w.extractLsb' 12 8 ++ w.extractLsb' 20 1 ++ w.extractLsb' 21 10 ++ 0#1 :
    BitVec 21).signExtend 32

end

def branchOp (funct3 : BitVec 3) : Option BranchOp :=
  match funct3.toNat with
  | 0b000 => some .beq
  | 0b001 => some .bne
  | 0b100 => some .blt
  | 0b101 => some .bge
  | 0b110 => some .bltu
  | 0b111 => some .bgeu
  | _ => none

def loadOp (funct3 : BitVec 3) : Option LoadOp :=
  match funct3.toNat with
  | 0b000 => some .lb
  | 0b001 => some .lh
  | 0b010 => some .lw
  | 0b100 => some .lbu
  | 0b101 => some .lhu
  | _ => none

def storeOp (funct3 : BitVec 3) : Option StoreOp :=
  match funct3.toNat with
  | 0b000 => some .sb
  | 0b001 => some .sh
  | 0b010 => some .sw
  | _ => none

/-- The operations that the immediate instructions share with those on two registers. -/
def aluOp (funct3 : BitVec 3) : AluOp :=
  match funct3.toNat with
  | 0b000 => .add
  | 0b001 => .sll
  | 0b010 => .slt
  | 0b011 => .sltu
  | 0b100 => .xor
  | 0b101 => .srl
  | 0b110 => .or
  | _ => .and

def opImmOp (funct3 : BitVec 3) (funct7 : BitVec 7) : Option AluOp :=
  if funct3 = 0b001 then if funct7 = 0b0000000 then some .sll else none
  else if funct3 = 0b101 then
    if funct7 = 0b0000000 then some .srl else if funct7 = 0b0100000 then some .sra else none
  else some (aluOp funct3)

def mulDivOp (funct3 : BitVec 3) : MulDivOp :=
  match funct3.toNat with
  | 0b000 => .mul
  | 0b001 => .mulh
  | 0b010 => .mulhsu
  | 0b011 => .mulhu
  | 0b100 => .div
  | 0b101 => .divu
  | 0b110 => .rem
  | _ => .remu

/-- The instructions on two registers. -/
def opOp (funct3 : BitVec 3) (funct7 : BitVec 7) : Option (AluOp ⊕ MulDivOp ⊕ ShAddOp) :=
  if funct7 = 0b0000000 then some (.inl (aluOp funct3))
  else if funct7 = 0b0000001 then some (.inr (.inl (mulDivOp funct3)))
  else if funct7 = 0b0100000 then
    if funct3 = 0b000 then some (.inl .sub) else if funct3 = 0b101 then some (.inl .sra) else none
  else if funct7 = 0b0010000 then
    if funct3 = 0b010 then some (.inr (.inr .sh1add))
    else if funct3 = 0b100 then some (.inr (.inr .sh2add))
    else if funct3 = 0b110 then some (.inr (.inr .sh3add))
    else none
  else none

def amoOp (funct5 : BitVec 5) : Option AmoOp :=
  match funct5.toNat with
  | 0b00001 => some .swap
  | 0b00000 => some .add
  | 0b00100 => some .xor
  | 0b01100 => some .and
  | 0b01000 => some .or
  | 0b10000 => some .min
  | 0b10100 => some .max
  | 0b11000 => some .minu
  | 0b11100 => some .maxu
  | _ => none

/-- The immediate of an instruction with one register: shifts take five bits of it. -/
def opImmImm (op : AluOp) (w : Word) : Word :=
  match op with
  | .sll | .srl | .sra => (rs2 w).setWidth 32
  | _ => iImm w

/-- The instruction that a word stands for, if it stands for one. -/
def decode (w : Word) : Option Instr :=
  match (opcode w).toNat with
  | 0b0110111 => some (.lui (rd w) (uImm w))
  | 0b0010111 => some (.auipc (rd w) (uImm w))
  | 0b1101111 => some (.jal (rd w) (jImm w))
  | 0b1100111 => if funct3 w = 0b000 then some (.jalr (rd w) (rs1 w) (iImm w)) else none
  | 0b1100011 => (branchOp (funct3 w)).map fun op => .branch op (rs1 w) (rs2 w) (bImm w)
  | 0b0000011 => (loadOp (funct3 w)).map fun op => .load op (rd w) (rs1 w) (iImm w)
  | 0b0100011 => (storeOp (funct3 w)).map fun op => .store op (rs1 w) (rs2 w) (sImm w)
  | 0b0010011 => (opImmOp (funct3 w) (funct7 w)).map fun op => .opImm op (rd w) (rs1 w) (opImmImm op w)
  | 0b0110011 =>
    (opOp (funct3 w) (funct7 w)).map fun
      | .inl op => .opReg op (rd w) (rs1 w) (rs2 w)
      | .inr (.inl op) => .mulDiv op (rd w) (rs1 w) (rs2 w)
      | .inr (.inr op) => .shAdd op (rd w) (rs1 w) (rs2 w)
  | 0b0101111 =>
    if funct3 w = 0b010 then
      if funct5 w = 0b00010 then if rs2 w = 0 then some (.lr (rd w) (rs1 w)) else none
      else if funct5 w = 0b00011 then some (.sc (rd w) (rs1 w) (rs2 w))
      else (amoOp (funct5 w)).map fun op => .amo op (rd w) (rs1 w) (rs2 w)
    else none
  | _ => none

/-! The classes of instructions, by their opcodes. -/

section

variable {w : Word}

theorem decode_lui (h : opcode w = 0b0110111) : decode w = some (.lui (rd w) (uImm w)) := by
  rw [decode, h]
  rfl

theorem decode_auipc (h : opcode w = 0b0010111) : decode w = some (.auipc (rd w) (uImm w)) := by
  rw [decode, h]
  rfl

theorem decode_jal (h : opcode w = 0b1101111) : decode w = some (.jal (rd w) (jImm w)) := by
  rw [decode, h]
  rfl

theorem decode_jalr (h : opcode w = 0b1100111) :
    decode w = if funct3 w = 0b000 then some (.jalr (rd w) (rs1 w) (iImm w)) else none := by
  rw [decode, h]
  rfl

theorem decode_branch (h : opcode w = 0b1100011) :
    decode w = (branchOp (funct3 w)).map fun op => .branch op (rs1 w) (rs2 w) (bImm w) := by
  rw [decode, h]
  rfl

theorem decode_load (h : opcode w = 0b0000011) :
    decode w = (loadOp (funct3 w)).map fun op => .load op (rd w) (rs1 w) (iImm w) := by
  rw [decode, h]
  rfl

theorem decode_store (h : opcode w = 0b0100011) :
    decode w = (storeOp (funct3 w)).map fun op => .store op (rs1 w) (rs2 w) (sImm w) := by
  rw [decode, h]
  rfl

theorem decode_opImm (h : opcode w = 0b0010011) :
    decode w = (opImmOp (funct3 w) (funct7 w)).map fun op =>
      .opImm op (rd w) (rs1 w) (opImmImm op w) := by
  rw [decode, h]
  rfl

theorem decode_op (h : opcode w = 0b0110011) :
    decode w = (opOp (funct3 w) (funct7 w)).map fun
      | .inl op => .opReg op (rd w) (rs1 w) (rs2 w)
      | .inr (.inl op) => .mulDiv op (rd w) (rs1 w) (rs2 w)
      | .inr (.inr op) => .shAdd op (rd w) (rs1 w) (rs2 w) := by
  rw [decode, h]
  rfl

theorem decode_atomic (h : opcode w = 0b0101111) :
    decode w =
      if funct3 w = 0b010 then
        if funct5 w = 0b00010 then if rs2 w = 0 then some (.lr (rd w) (rs1 w)) else none
        else if funct5 w = 0b00011 then some (.sc (rd w) (rs1 w) (rs2 w))
        else (amoOp (funct5 w)).map fun op => .amo op (rd w) (rs1 w) (rs2 w)
      else none := by
  rw [decode, h]
  rfl

end

/-! ## Operations -/

def AluOp.eval (op : AluOp) (x y : Word) : Word :=
  match op with
  | .add => x + y
  | .sub => x - y
  | .sll => x <<< (y.toNat % 32)
  | .slt => if x.toInt < y.toInt then 1 else 0
  | .sltu => if x.toNat < y.toNat then 1 else 0
  | .xor => x ^^^ y
  | .srl => x >>> (y.toNat % 32)
  | .sra => x.sshiftRight (y.toNat % 32)
  | .or => x ||| y
  | .and => x &&& y

/-- Products of 64 bits, lower and upper half; quotients that are rounded to zero, with the results of a
    division by zero and of one that overflows as the manual sets them. -/
def MulDivOp.eval (op : MulDivOp) (x y : Word) : Word :=
  match op with
  | .mul => BitVec.ofInt 32 (x.toInt * y.toInt)
  | .mulh => BitVec.ofInt 32 (x.toInt * y.toInt / 2 ^ 32)
  | .mulhsu => BitVec.ofInt 32 (x.toInt * y.toNat / 2 ^ 32)
  | .mulhu => BitVec.ofNat 32 (x.toNat * y.toNat / 2 ^ 32)
  | .div => if y = 0 then BitVec.ofInt 32 (-1) else BitVec.ofInt 32 (x.toInt.tdiv y.toInt)
  | .divu => if y = 0 then BitVec.ofNat 32 (2 ^ 32 - 1) else BitVec.ofNat 32 (x.toNat / y.toNat)
  | .rem => if y = 0 then x else BitVec.ofInt 32 (x.toInt.tmod y.toInt)
  | .remu => if y = 0 then x else BitVec.ofNat 32 (x.toNat % y.toNat)

def ShAddOp.eval (op : ShAddOp) (x y : Word) : Word :=
  match op with
  | .sh1add => (x <<< 1) + y
  | .sh2add => (x <<< 2) + y
  | .sh3add => (x <<< 3) + y

def BranchOp.taken (op : BranchOp) (x y : Word) : Bool :=
  match op with
  | .beq => x = y
  | .bne => x ≠ y
  | .blt => x.toInt < y.toInt
  | .bge => y.toInt ≤ x.toInt
  | .bltu => x.toNat < y.toNat
  | .bgeu => y.toNat ≤ x.toNat

/-- The bytes that an access moves. -/
def LoadOp.bytes : LoadOp → ℕ
  | .lb | .lbu => 1
  | .lh | .lhu => 2
  | .lw => 4

def StoreOp.bytes : StoreOp → ℕ
  | .sb => 1
  | .sh => 2
  | .sw => 4

/-- What a load returns from the address `a`. -/
def LoadOp.value (op : LoadOp) (m : Mem) (a : Word) : Word :=
  match op with
  | .lb => (m a).signExtend 32
  | .lh => (m (a + 1) ++ m a).signExtend 32
  | .lw => m (a + 3) ++ m (a + 2) ++ m (a + 1) ++ m a
  | .lbu => (m a).setWidth 32
  | .lhu => (m (a + 1) ++ m a).setWidth 32

/-- What an AMO leaves in memory, by the word that it finds there. -/
def AmoOp.eval (op : AmoOp) (old x : Word) : Word :=
  match op with
  | .swap => x
  | .add => old + x
  | .xor => old ^^^ x
  | .and => old &&& x
  | .or => old ||| x
  | .min => if old.toInt < x.toInt then old else x
  | .max => if x.toInt < old.toInt then old else x
  | .minu => if old.toNat < x.toNat then old else x
  | .maxu => if x.toNat < old.toNat then old else x

/-! ## Execution -/

/-- The program counter, the registers and memory. -/
structure State where
  pc : Word
  regs : Reg → Word
  mem : Mem

namespace State

variable (s : State)

/-- The value of a register: `x0` is zero. -/
def get (r : Reg) : Word := if r = 0 then 0 else s.regs r

/-- The registers with a value in one of them. -/
def setReg (r : Reg) (v : Word) : Reg → Word := fun x => if x = r ∧ r ≠ 0 then v else s.regs x

end State

namespace Instr

/-- The address of an access, and the bytes that it moves. -/
def access (i : Instr) (s : State) : Option (Word × ℕ) :=
  match i with
  | .load op _ rs1 imm => some (s.get rs1 + imm, op.bytes)
  | .store op rs1 _ imm => some (s.get rs1 + imm, op.bytes)
  | .lr _ rs1 | .sc _ rs1 _ | .amo _ _ rs1 _ => some (s.get rs1, 4)
  | _ => none

/-- An access is naturally aligned. -/
def Aligned (i : Instr) (s : State) : Prop := ∀ a n, i.access s = some (a, n) → a.toNat % n = 0

/-- The state after an instruction of `len` bytes; a store-conditional succeeds if `reserved` is set. -/
def exec (i : Instr) (len : Word) (reserved : Bool) (s : State) : State :=
  let seq := s.pc + len
  match i with
  | .lui rd imm => { s with pc := seq, regs := s.setReg rd imm }
  | .auipc rd imm => { s with pc := seq, regs := s.setReg rd (s.pc + imm) }
  | .jal rd imm => { s with pc := s.pc + imm, regs := s.setReg rd seq }
  | .jalr rd rs1 imm => { s with pc := (s.get rs1 + imm) &&& ~~~1, regs := s.setReg rd seq }
  | .branch op rs1 rs2 imm =>
    { s with pc := if op.taken (s.get rs1) (s.get rs2) then s.pc + imm else seq }
  | .load op rd rs1 imm => { s with pc := seq, regs := s.setReg rd (op.value s.mem (s.get rs1 + imm)) }
  | .store op rs1 rs2 imm =>
    { s with pc := seq, mem := s.mem.storeBytes (s.get rs1 + imm) (s.get rs2) op.bytes }
  | .opImm op rd rs1 imm => { s with pc := seq, regs := s.setReg rd (op.eval (s.get rs1) imm) }
  | .opReg op rd rs1 rs2 => { s with pc := seq, regs := s.setReg rd (op.eval (s.get rs1) (s.get rs2)) }
  | .mulDiv op rd rs1 rs2 => { s with pc := seq, regs := s.setReg rd (op.eval (s.get rs1) (s.get rs2)) }
  | .shAdd op rd rs1 rs2 => { s with pc := seq, regs := s.setReg rd (op.eval (s.get rs1) (s.get rs2)) }
  | .lr rd rs1 => { s with pc := seq, regs := s.setReg rd (LoadOp.lw.value s.mem (s.get rs1)) }
  | .sc rd rs1 rs2 =>
    { pc := seq
      regs := s.setReg rd (if reserved then 0 else 1)
      mem := if reserved then s.mem.storeBytes (s.get rs1) (s.get rs2) 4 else s.mem }
  | .amo op rd rs1 rs2 =>
    let old := LoadOp.lw.value s.mem (s.get rs1)
    { pc := seq
      regs := s.setReg rd old
      mem := s.mem.storeBytes (s.get rs1) (op.eval old (s.get rs2)) 4 }

end Instr

/-- `addi x1, x2, -1` and `amoadd.w x4, x5, (x1)`. -/
example : decode 0xFFF10093 = some (.opImm .add 1 2 0xFFFFFFFF) ∧
    decode 0x0050A22F = some (.amo .add 4 1 5) := by
  decide

end Riscv

end Rv32Soc
