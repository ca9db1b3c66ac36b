import Rv32Soc.Riscv.Instr

/-!
# The footprint of an instruction

The registers that an instruction uses (`Instr.sources`), and the one that it writes if it
writes one (`Instr.dest`); which instructions read memory, and which write it.

* `Instr.get_exec`: no other register changes;
* `Instr.exec_congr`: two states that agree on the program counter, on memory and on the
  sources are taken to states that agree on the program counter, on memory and on the
  destination.
-/

namespace Rv32Soc

namespace Riscv

namespace Instr

def sources : Instr → List Reg
  | .lui .. | .auipc .. | .jal .. => []
  | .jalr _ rs1 _ | .load _ _ rs1 _ | .opImm _ _ rs1 _ | .lr _ rs1 => [rs1]
  | .branch _ rs1 rs2 _ | .store _ rs1 rs2 _ | .opReg _ _ rs1 rs2 | .mulDiv _ _ rs1 rs2
  | .shAdd _ _ rs1 rs2
  | .sc _ rs1 rs2 | .amo _ _ rs1 rs2 => [rs1, rs2]

def dest : Instr → Option Reg
  | .lui rd _ | .auipc rd _ | .jal rd _ | .jalr rd _ _ | .load _ rd _ _ | .opImm _ rd _
    _ | .opReg _ rd _ _
  | .mulDiv _ rd _ _ | .shAdd _ rd _ _ | .lr rd _ | .sc rd _ _ | .amo _ rd _ _ => some rd
  | .branch .. | .store .. => none

/-! The classes of instructions that access memory. -/

def isLoad : Instr → Bool
  | .load .. => true
  | _ => false

def isLr : Instr → Bool
  | .lr .. => true
  | _ => false

def isSc : Instr → Bool
  | .sc .. => true
  | _ => false

def isAmo : Instr → Bool
  | .amo .. => true
  | _ => false

/-- The instruction returns what it reads. -/
def loads : Instr → Bool
  | .load .. | .lr .. | .amo .. => true
  | _ => false

/-- The instruction writes a value that it has from a register. -/
def stores : Instr → Bool
  | .store .. | .sc .. => true
  | _ => false

end Instr

/-- The two states differ at most in registers that `i` does not use. -/
structure Agree (i : Instr) (a b : State) : Prop where
  pc : a.pc = b.pc
  mem : a.mem = b.mem
  sources : ∀ r ∈ i.sources, a.get r = b.get r

namespace State

variable (s : State)

theorem get_setReg (r : Reg) (v pc : Word) (m : Mem) (x : Reg) :
    State.get ⟨pc, s.setReg r v, m⟩ x = if x = r ∧ r ≠ 0 then v else s.get x := by
  simp only [get, setReg]
  by_cases hx : x = 0
  · rw [if_pos hx, if_pos hx, if_neg fun h => h.2 (h.1 ▸ hx)]
  · rw [if_neg hx, if_neg hx]

end State

namespace Instr

variable {i : Instr} {a b : State} {len : Word} {reserved : Bool}

/-- An instruction changes no register but its destination. -/
theorem get_exec {r : Reg} (h : i.dest ≠ some r) : (i.exec len reserved a).get r = a.get r := by
  have hrd : ∀ {rd : Reg}, some rd ≠ some r → ¬(r = rd ∧ rd ≠ 0) :=
    fun hne h' => hne (congrArg some h'.1.symm)
  cases i with
  | branch => rfl
  | store => rfl
  | _ =>
    simp only [exec, State.get_setReg]
    exact if_neg (hrd h)

theorem access_congr (h : Agree i a b) : i.access a = i.access b := by
  cases i <;> simp only [access] <;> rw [h.sources _ (by simp [sources])]

theorem aligned_congr (h : Agree i a b) : i.Aligned a ↔ i.Aligned b := by
  rw [Aligned, Aligned, access_congr h]

/-- What an instruction does depends on what it uses. -/
theorem exec_congr (h : Agree i a b) :
    (i.exec len reserved a).pc = (i.exec len reserved b).pc ∧
      (i.exec len reserved a).mem = (i.exec len reserved b).mem ∧
      ∀ r ∈ i.dest, (i.exec len reserved a).get r = (i.exec len reserved b).get r := by
  have hrd : ∀ {rd : Reg} {v w pc pc' : Word} {m m' : Mem}, v = w → ∀ r ∈ some rd,
      State.get ⟨pc, a.setReg rd v, m⟩ r = State.get ⟨pc', b.setReg rd w, m'⟩ r := by
    rintro rd v w pc pc' m m' rfl r hr
    cases Option.mem_some_iff.1 hr
    rw [State.get_setReg, State.get_setReg]
    by_cases h0 : rd = 0
    · rw [if_neg fun h => h.2 h0, if_neg fun h => h.2 h0, h0]
      rfl
    · rw [if_pos ⟨rfl, h0⟩, if_pos ⟨rfl, h0⟩]
  have hs : ∀ r ∈ i.sources, a.get r = b.get r := h.sources
  cases i <;> simp only [sources, List.mem_cons, List.not_mem_nil, or_false, forall_eq_or_imp,
    forall_eq] at hs <;>
    simp only [exec, h.pc, h.mem, hs]
  case branch => simp [dest]
  case store => simp [dest]
  all_goals exact ⟨trivial, trivial, hrd rfl⟩

end Instr

end Riscv

end Rv32Soc
