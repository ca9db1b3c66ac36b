import Rv32Soc.Core.Execute
import Rv32Soc.Riscv.Footprint

/-!
# What the decoder says of an instruction

* `Encodes`: the control word, the register fields and the interlock agree with the footprint
  of the instruction;
* `encodes_of_decode`: those of a word do with the instruction that it stands for;
* `Core.Executes.addresses`, `Core.Executes.aligned_of_access`: the address that EX computes for an
  access, and what it finds wrong with it.
-/

namespace Rv32Soc

open Riscv (AluOp BranchOp Instr LoadOp MulDivOp ShAddOp State StoreOp)

structure Encodes (inst : Word) (ins : Instr) : Prop where
  legal : (controlLogic inst).illegalInst = false
  regWen : (controlLogic inst).regWen = ins.dest.isSome
  rd : ∀ r ∈ ins.dest, rdField inst = r
  sources : ∀ r ∈ ins.sources, r = rs1Field inst ∧ readsRs1 inst ∨ r = rs2Field inst ∧ readsRs2 inst
  memRw : (controlLogic inst).memRw = ins.stores
  wbSel : ins.dest.isSome → ((controlLogic inst).wbSel = 0 ↔ ins.loads)
  isLr : (controlLogic inst).isLr = ins.isLr
  isSc : (controlLogic inst).isSc = ins.isSc
  isAmo : (controlLogic inst).isAmo = ins.isAmo
  system : opcode inst ≠ 0b1110011

section

variable {inst : Word} {ins : Instr}

/-- An instruction that is not atomic: it writes a register if `w` is set, writes memory if `m` is,
    and loads if `l` is. -/
theorem Encodes.of_decodes {k : BitVec 6} (w m l : Bool) (hd : Decodes inst k)
    (hk : (rom k).regWen = w ∧ (rom k).memRw = m ∧ (w → ((rom k).wbSel = 0 ↔ l)))
    (hw : ins.dest.isSome = w) (hm : ins.stores = m) (hl : ins.loads = l)
    (ha : ins.isLr = false ∧ ins.isSc = false ∧ ins.isAmo = false)
    (hrd : ∀ r ∈ ins.dest, rdField inst = r)
    (hs : ∀ r ∈ ins.sources, r = rs1Field inst ∧ readsRs1 inst ∨ r = rs2Field inst ∧ readsRs2 inst) :
    Encodes inst ins := by
  subst hw hm hl
  obtain ⟨hctl, hill, hlr, hsc, hamo, -⟩ := hd.controlLogic
  exact ⟨hill, by rw [hctl, hk.1], hrd, hs, by rw [hctl, hk.2.1], by rw [hctl]; exact hk.2.2,
    by rw [hlr, ha.1], by rw [hsc, ha.2.1], by rw [hamo, ha.2.2], hd.system⟩

/-- The registers that an instruction of the opcode `c` reads. -/
theorem reads_of_opcode {c : BitVec 7} (ho : opcode inst = c)
    (hc : c ∈ [0b0110011, 0b0010011, 0b0000011, 0b0100011, 0b1100011, 0b1100111,
      (0b0101111 : BitVec 7)]) :
    readsRs1 inst ∧ (c ∈ [0b0110011, 0b0100011, 0b1100011, (0b0101111 : BitVec 7)] → readsRs2 inst) := by
  rw [readsRs1, readsRs2, ho]
  simp only [List.mem_cons, List.not_mem_nil, or_false] at hc
  rcases hc with rfl | rfl | rfl | rfl | rfl | rfl | rfl <;> simp

/-! One lemma a class of instructions, by their opcodes. -/

/-- `lui`, `auipc` and `jal` have no source. -/
theorem encodes_lui (ho : opcode inst = 0b0110111) (imm : Word) :
    Encodes inst (.lui (rdField inst) imm) :=
  have hd : Decodes inst 33 := .of_case ho (by decide) rfl
  .of_decodes true false false hd (by decide) rfl rfl rfl ⟨rfl, rfl, rfl⟩ (fun _ h => Option.some.inj h)
    (by simp [Instr.sources])

theorem encodes_auipc (ho : opcode inst = 0b0010111) (imm : Word) :
    Encodes inst (.auipc (rdField inst) imm) :=
  have hd : Decodes inst 32 := .of_case ho (by decide) rfl
  .of_decodes true false false hd (by decide) rfl rfl rfl ⟨rfl, rfl, rfl⟩ (fun _ h => Option.some.inj h)
    (by simp [Instr.sources])

theorem encodes_jal (ho : opcode inst = 0b1101111) (imm : Word) :
    Encodes inst (.jal (rdField inst) imm) :=
  have hd : Decodes inst 34 := .of_case ho (by decide) rfl
  .of_decodes true false false hd (by decide) rfl rfl rfl ⟨rfl, rfl, rfl⟩ (fun _ h => Option.some.inj h)
    (by simp [Instr.sources])

theorem encodes_jalr (ho : opcode inst = 0b1100111) (hf : funct3 inst = 0) (imm : Word) :
    Encodes inst (.jalr (rdField inst) (rs1Field inst) imm) :=
  have hd : Decodes inst 35 := .of_case ho (by decide) (by rw [hf]; rfl)
  .of_decodes true false false hd (by decide) rfl rfl rfl ⟨rfl, rfl, rfl⟩ (fun _ h => Option.some.inj h)
    fun _ hr => .inl ⟨List.mem_singleton.1 hr, (reads_of_opcode ho (by decide)).1⟩

/-- A branch writes nothing. -/
theorem encodes_branch (ho : opcode inst = 0b1100011) {op : BranchOp}
    (hop : Riscv.branchOp (funct3 inst) = some op)
    (imm : Word) : Encodes inst (.branch op (rs1Field inst) (rs2Field inst) imm) := by
  have hall : ∀ f b b', ∀ op ∈ Riscv.branchOp f, ∃ k, romCase 0b11000 f b b' = some k ∧
      (rom k).regWen = false ∧ (rom k).memRw = false := by decide +kernel
  obtain ⟨k, hk, hw, hm⟩ := hall _ _ _ _ hop
  obtain ⟨h₁, h₂⟩ := reads_of_opcode ho (by decide)
  exact .of_decodes false false false (.of_case ho (by decide) hk) ⟨hw, hm, fun h =>
    absurd h (by decide)⟩
    rfl rfl rfl ⟨rfl, rfl, rfl⟩ (by simp [Instr.dest])
    fun r hr => (List.mem_pair.1 hr).imp (fun h => ⟨h, h₁⟩) fun h => ⟨h, h₂ (by decide)⟩

/-- Every load has the one control word, -/
theorem encodes_load (ho : opcode inst = 0b0000011) {op : LoadOp}
    (hop : Riscv.loadOp (funct3 inst) = some op)
    (imm : Word) : Encodes inst (.load op (rdField inst) (rs1Field inst) imm) := by
  have hall : ∀ f b b', ∀ op ∈ Riscv.loadOp f, ∃ k, romCase 0b00000 f b b' = some k ∧
      rom k = ⟨true, false, true, false, 0, 0, 0⟩ := by decide +kernel
  obtain ⟨k, hk, hrom⟩ := hall _ _ _ _ hop
  exact .of_decodes true false true (.of_case ho (by decide) hk) (by rw [hrom]; decide) rfl rfl rfl
    ⟨rfl, rfl, rfl⟩ (fun _ h => Option.some.inj h)
    fun r hr => .inl ⟨List.mem_singleton.1 hr, (reads_of_opcode ho (by decide)).1⟩

/-- and so has every store. -/
theorem encodes_store (ho : opcode inst = 0b0100011) {op : StoreOp}
    (hop : Riscv.storeOp (funct3 inst) = some op)
    (imm : Word) : Encodes inst (.store op (rs1Field inst) (rs2Field inst) imm) := by
  have hall : ∀ f b b', ∀ op ∈ Riscv.storeOp f, ∃ k, romCase 0b01000 f b b' = some k ∧
      rom k = ⟨false, false, true, true, 0, 1, 0⟩ := by decide +kernel
  obtain ⟨k, hk, hrom⟩ := hall _ _ _ _ hop
  obtain ⟨h₁, h₂⟩ := reads_of_opcode ho (by decide)
  exact .of_decodes false true false (.of_case ho (by decide) hk) (by rw [hrom]; decide) rfl rfl rfl
    ⟨rfl, rfl, rfl⟩ (by simp [Instr.dest])
    fun r hr => (List.mem_pair.1 hr).imp (fun h => ⟨h, h₁⟩) fun h => ⟨h, h₂ (by decide)⟩

theorem encodes_opImm (ho : opcode inst = 0b0010011) {op : AluOp}
    (hop : Riscv.opImmOp (funct3 inst) (Riscv.funct7 inst) = some op) (imm : Word) :
    Encodes inst (.opImm op (rdField inst) (rs1Field inst) imm) := by
  obtain ⟨hd, hne⟩ := decodes_opImm ho hop
  -- There is no immediate form of `sub`.
  have hk : rom (romOfImm op) = ⟨true, false, true, false, 1, 0, aluSelOf op⟩ := by
    cases op <;> first | exact absurd rfl hne | decide
  exact .of_decodes true false false hd (by rw [hk]; simp) rfl rfl rfl ⟨rfl, rfl, rfl⟩
    (fun _ h => Option.some.inj h)
    fun r hr => .inl ⟨List.mem_singleton.1 hr, (reads_of_opcode ho (by decide)).1⟩

/-- An operation on two registers, of the base set, of M or of Zba. -/
theorem encodes_opOp (ho : opcode inst = 0b0110011) {op : AluOp ⊕ MulDivOp ⊕ ShAddOp}
    (hop : Riscv.opOp (funct3 inst) (Riscv.funct7 inst) = some op) :
    Encodes inst
      (match op with
      | .inl op => .opReg op (rdField inst) (rs1Field inst) (rs2Field inst)
      | .inr (.inl op) => .mulDiv op (rdField inst) (rs1Field inst) (rs2Field inst)
      | .inr (.inr op) => .shAdd op (rdField inst) (rs1Field inst) (rs2Field inst)) := by
  obtain ⟨h₁, h₂⟩ := reads_of_opcode ho (by decide)
  have hd := decodes_opOp ho hop
  have hk : (rom (romOfOp op)).regWen = true ∧ (rom (romOfOp op)).memRw = false ∧
      (true → ((rom (romOfOp op)).wbSel = 0 ↔ false)) := by
    rcases op with op | op | op <;> cases op <;> decide
  rcases op with op | op | op
  all_goals
    exact .of_decodes true false false hd hk rfl rfl rfl ⟨rfl, rfl, rfl⟩ (fun _ h => Option.some.inj h)
      fun r hr => (List.mem_pair.1 hr).imp (fun h => ⟨h, h₁⟩) fun h => ⟨h, h₂ (by decide)⟩

/-- Of the atomic instructions `sc.w` has a control word of its own. -/
theorem encodes_atomic (ho : opcode inst = 0b0101111) (hins : ins.dest = some (rdField inst))
    (hs : ∀ r ∈ ins.sources, r = rs1Field inst ∨ r = rs2Field inst)
    (hlr : ins.isLr = (inst.extractLsb' 27 5 == 0b00010#5))
    (hsc : ins.isSc = (inst.extractLsb' 27 5 == 0b00011#5))
    (hamo : ins.isAmo = (!ins.isLr && !ins.isSc)) (hl : ins.loads = !ins.isSc)
    (hst : ins.stores = ins.isSc) :
    Encodes inst ins := by
  have hrom := romDecoder_amo ho
  obtain ⟨h₁, h₂⟩ := reads_of_opcode ho (by decide)
  have hk : ∀ b : Bool, (rom (if b then 37 else 36)).regWen ∧ (rom (if b then 37 else 36)).memRw = b ∧
      ((rom (if b then 37 else 36)).wbSel = 0 ↔ b = false) := by decide
  have hctl : (controlLogic inst).toControl = rom (if ins.isSc then 37 else 36) := by
    rw [Rv32Soc.controlLogic, hrom, hsc]
    simp
  obtain ⟨hw, hm, hwb⟩ := hk ins.isSc
  refine ⟨(controlLogic_atomic ho).1.1, by rw [hctl, hw, hins]; rfl, fun r hr => ?_, fun r hr => ?_,
    by rw [hctl, hm, hst], fun _ => by rw [hctl, hwb, hl]; simp, ?_, ?_, ?_, by rw [ho]; decide⟩
  · rw [hins] at hr
    exact Option.some.inj hr
  · exact (hs r hr).imp (fun h => ⟨h, h₁⟩) fun h => ⟨h, h₂ (by decide)⟩
  · simp [Rv32Soc.controlLogic, ho, hlr]
  · simp [Rv32Soc.controlLogic, ho, hsc]
  · simp [Rv32Soc.controlLogic, ho, hamo, hlr, hsc]

theorem encodes_of_decode_atomic (ho : opcode inst = 0b0101111) (hi : Riscv.decode inst = some ins) :
    Encodes inst ins := by
  have hf : inst.extractLsb' 27 5 = Riscv.funct5 inst := rfl
  rw [Riscv.decode_atomic ho] at hi
  split at hi
  · split at hi
    · next h₅ =>
      -- `lr.w`, which has no second source
      split at hi
      · cases hi
        exact encodes_atomic ho rfl (fun r hr => .inl (List.mem_singleton.1 hr)) (by rw [hf, h₅]; rfl)
          (by rw [hf, h₅]; rfl) rfl rfl rfl
      · cases hi
    · next hlr =>
      split at hi
      · next h₅ =>
        -- `sc.w`
        cases hi
        exact encodes_atomic ho rfl (fun r hr => List.mem_pair.1 hr) (by rw [hf, h₅]; rfl)
          (by rw [hf, h₅]; rfl)
          rfl rfl rfl
      · next hsc =>
        -- the AMOs
        obtain ⟨op, hop, rfl⟩ := Option.map_eq_some_iff.1 hi
        exact encodes_atomic ho rfl (fun r hr => List.mem_pair.1 hr) (beq_false_of_ne hlr).symm
          (beq_false_of_ne hsc).symm rfl rfl rfl
  · cases hi

/-- The decoder knows every instruction of the manual. -/
theorem encodes_of_decode (hi : Riscv.decode inst = some ins) : Encodes inst ins := by
  have hopcode : ∀ {c : BitVec 7}, (Riscv.opcode inst).toNat = c.toNat → opcode inst = c :=
    fun h => BitVec.eq_of_toNat_eq h
  have hatomic : (Riscv.opcode inst).toNat = 0b0101111 → Encodes inst ins :=
    fun ho => encodes_of_decode_atomic (hopcode ho) hi
  unfold Riscv.decode at hi
  split at hi
  case h_1 ho =>
    cases hi
    exact encodes_lui (hopcode ho) _
  case h_2 ho =>
    cases hi
    exact encodes_auipc (hopcode ho) _
  case h_3 ho =>
    cases hi
    exact encodes_jal (hopcode ho) _
  case h_4 ho =>
    split at hi
    · next hf =>
      cases hi
      exact encodes_jalr (hopcode ho) hf _
    · cases hi
  case h_5 ho =>
    obtain ⟨op, hop, rfl⟩ := Option.map_eq_some_iff.1 hi
    exact encodes_branch (hopcode ho) hop _
  case h_6 ho =>
    obtain ⟨op, hop, rfl⟩ := Option.map_eq_some_iff.1 hi
    exact encodes_load (hopcode ho) hop _
  case h_7 ho =>
    obtain ⟨op, hop, rfl⟩ := Option.map_eq_some_iff.1 hi
    exact encodes_store (hopcode ho) hop _
  case h_8 ho =>
    obtain ⟨op, hop, rfl⟩ := Option.map_eq_some_iff.1 hi
    exact encodes_opImm (hopcode ho) hop _
  case h_9 ho =>
    obtain ⟨op, hop, rfl⟩ := Option.map_eq_some_iff.1 hi
    rcases op with op | op | op <;> exact encodes_opOp (hopcode ho) hop
  case h_10 ho => exact hatomic ho
  case h_11 => cases hi

end

/-! ## Addresses -/

namespace Core

variable {s : Core} {i : CoreInputs} {inst : Word} {compressed : Bool} {a : State} {ins : Instr}
  {x : Word} {n : ℕ}

/-- What EX makes of an access to `n` bytes at `x`. -/
structure Addresses (s : Core) (i : CoreInputs) (ins : Instr) (x : Word) (n : ℕ) : Prop where
  bytes : accessBytes (s.idEx.inst.extractLsb' 12 2) = n
  target : s.redirectTargetAdder = x
  alu : (s.executed i).alu = x
  load : s.exMisalignLoad = (ins.isLoad && decide (x.toNat % n ≠ 0))
  store : s.exMisalignStore = (!ins.isLoad && decide (x.toNat % n ≠ 0))

namespace Executes

variable (E : s.Executes inst compressed a)

include E

/-- The check knows the three sizes there are. -/
theorem exSizeMisaligned_eq_decide (hsize : inst.extractLsb' 12 2 ≠ 0b11) :
    s.exSizeMisaligned =
      decide (s.redirectTargetAdder.toNat % accessBytes (inst.extractLsb' 12 2) ≠ 0) := by
  rw [exSizeMisaligned, E.holds, accessBytes]
  revert hsize
  generalize inst.extractLsb' 12 2 = size
  generalize s.redirectTargetAdder = x
  intro hsize
  have hone : x.getLsbD 0 = decide (x.toNat % 2 ≠ 0) := by
    rw [BitVec.getLsbD, Nat.testBit_eq_decide_div_mod_eq, pow_zero, Nat.div_one, decide_eq_decide]
    omega
  have htwo : (x.extractLsb' 0 2 != 0#2) = decide (x.toNat % 4 ≠ 0) := by
    rw [Bool.eq_iff_iff, bne_iff_ne, ne_eq, decide_eq_true_eq, ← BitVec.toNat_inj,
      BitVec.extractLsb'_toNat, Nat.shiftRight_zero]
    rfl
  rcases bitVec2_cases size with rfl | rfl | rfl | rfl
  · simp [Nat.mod_one]
  · exact hone
  · exact htwo
  · exact absurd rfl hsize

theorem addresses_load {op : Riscv.LoadOp} {r₁ : Riscv.Reg} (ho : opcode inst = 0b0000011)
    (hop : Riscv.loadOp (funct3 inst) = some op) :
    s.Addresses i (.load op r₁ (rs1Field inst) (immI inst)) (a.get (rs1Field inst) + immI inst)
      op.bytes := by
  have hall : ∀ f b b', ∀ op ∈ Riscv.loadOp f, ∃ k, romCase 0b00000 f b b' = some k ∧
      rom k = ⟨true, false, true, false, 0, 0, 0⟩ := by decide +kernel
  have hsize : ∀ f, ∀ op ∈ Riscv.loadOp f, accessBytes (f.extractLsb' 0 2) = op.bytes ∧
      f.extractLsb' 0 2 ≠ 0b11 := by
    decide
  obtain ⟨k, hk, hrom⟩ := hall _ _ _ _ hop
  have hd : Decodes inst k := .of_case ho (by decide) hk
  obtain ⟨hctl, -⟩ := hd.controlLogic
  rw [hrom] at hctl
  obtain ⟨hbytes, h3⟩ := hsize _ _ hop
  rw [← size_eq] at hbytes h3
  have haddr : s.redirectTargetAdder = a.get (rs1Field inst) + immI inst := by
    rw [E.redirectTargetAdder_eq (by rw [hctl]) (by rw [hctl]), hctl]
    rfl
  refine ⟨by rw [E.holds, hbytes], haddr, ?_, ?_, ?_⟩
  · rw [E.alu_of_decodes hd (by rw [hrom]; rfl), hrom]
    rfl
  · rw [exMisalignLoad, E.holds, ho, E.exSizeMisaligned_eq_decide h3, hbytes, haddr]
    rfl
  · rw [exMisalignStore, E.holds, ho]
    rfl

theorem addresses_store {op : Riscv.StoreOp} (ho : opcode inst = 0b0100011)
    (hop : Riscv.storeOp (funct3 inst) = some op) :
    s.Addresses i (.store op (rs1Field inst) (rs2Field inst) (immS inst))
      (a.get (rs1Field inst) + immS inst)
      op.bytes := by
  have hall : ∀ f b b', ∀ op ∈ Riscv.storeOp f, ∃ k, romCase 0b01000 f b b' = some k ∧
      rom k = ⟨false, false, true, true, 0, 1, 0⟩ := by decide +kernel
  have hsize : ∀ f, ∀ op ∈ Riscv.storeOp f, accessBytes (f.extractLsb' 0 2) = op.bytes ∧
      f.extractLsb' 0 2 ≠ 0b11 := by
    decide
  obtain ⟨k, hk, hrom⟩ := hall _ _ _ _ hop
  have hd : Decodes inst k := .of_case ho (by decide) hk
  obtain ⟨hctl, -⟩ := hd.controlLogic
  rw [hrom] at hctl
  obtain ⟨hbytes, h3⟩ := hsize _ _ hop
  rw [← size_eq] at hbytes h3
  have haddr : s.redirectTargetAdder = a.get (rs1Field inst) + immS inst := by
    rw [E.redirectTargetAdder_eq (by rw [hctl]) (by rw [hctl]), hctl]
    rfl
  refine ⟨by rw [E.holds, hbytes], haddr, ?_, ?_, ?_⟩
  · rw [E.alu_of_decodes hd (by rw [hrom]; rfl), hrom]
    rfl
  · rw [exMisalignLoad, E.holds, ho]
    rfl
  · rw [exMisalignStore, E.holds, ho, E.exSizeMisaligned_eq_decide h3, hbytes, haddr]
    exact Bool.or_false _

theorem addresses_atomic (ho : opcode inst = 0b0101111) (hf : funct3 inst = 0b010)
    (hins : ins.isLoad = false) : s.Addresses i ins (a.get (rs1Field inst)) 4 := by
  obtain ⟨⟨-, hcsr⟩, ha, hb, himm, hsel⟩ := controlLogic_atomic ho
  have hadd : s.aluA + s.aluB = a.get (rs1Field inst) := by
    rw [E.aluA_eq, E.aluB_eq, ha, hb, himm, if_neg Bool.false_ne_true, if_pos rfl]
    exact BitVec.add_zero _
  have htwo : (s.redirectTargetAdder.extractLsb' 0 2 != 0#2) =
      decide ((a.get (rs1Field inst)).toNat % 4 ≠ 0) := by
    rw [Bool.eq_iff_iff, bne_iff_ne, ne_eq, decide_eq_true_eq, ← BitVec.toNat_inj,
      BitVec.extractLsb'_toNat, Nat.shiftRight_zero, redirectTargetAdder, hadd]
    rfl
  refine ⟨?_, hadd, ?_, ?_, ?_⟩
  · rw [E.holds, size_eq, hf]
    rfl
  · rw [E.alu_eq hcsr (by rw [hsel]; rfl), hsel]
    exact hadd
  · rw [exMisalignLoad, E.holds, ho, hins]
    rfl
  · rw [exMisalignStore, E.holds, ho, hins]
    exact htwo

/-- EX computes the address of an access and checks its alignment. -/
theorem addresses (hi : Riscv.decode inst = some ins) (hx : ins.access a = some (x, n)) :
    s.Addresses i ins x n := by
  have hopcode : ∀ {c : BitVec 7}, (Riscv.opcode inst).toNat = c.toNat → opcode inst = c :=
    fun h => BitVec.eq_of_toNat_eq h
  unfold Riscv.decode at hi
  split at hi
  case h_6 ho =>
    obtain ⟨op, hop, rfl⟩ := Option.map_eq_some_iff.1 hi
    cases hx
    exact E.addresses_load (hopcode ho) hop
  case h_7 ho =>
    obtain ⟨op, hop, rfl⟩ := Option.map_eq_some_iff.1 hi
    cases hx
    exact E.addresses_store (hopcode ho) hop
  case h_9 ho =>
    obtain ⟨op, -, rfl⟩ := Option.map_eq_some_iff.1 hi
    rcases op with op | op | op <;> cases hx
  case h_10 ho =>
    split at hi
    · next hf =>
      split_ifs at hi
      · cases hi
        cases hx
        exact E.addresses_atomic (hopcode ho) hf rfl
      · cases hi
        cases hx
        exact E.addresses_atomic (hopcode ho) hf rfl
      · obtain ⟨op, -, rfl⟩ := Option.map_eq_some_iff.1 hi
        cases hx
        exact E.addresses_atomic (hopcode ho) hf rfl
    · cases hi
  -- the others access nothing
  case h_4 =>
    split_ifs at hi
    cases hi
    cases hx
  case h_5 | h_8 =>
    obtain ⟨op, -, rfl⟩ := Option.map_eq_some_iff.1 hi
    cases hx
  case h_11 => cases hi
  all_goals
    cases hi
    cases hx

/-- What accesses nothing is not misaligned. -/
theorem aligned_of_access (hi : Riscv.decode inst = some ins) (hx : ins.access a = none) :
    s.exMisalignLoad = false ∧ s.exMisalignStore = false := by
  have hopcode : ∀ {c : BitVec 7}, (Riscv.opcode inst).toNat = c.toNat → opcode inst = c :=
    fun h => BitVec.eq_of_toNat_eq h
  have hne : ∀ {c : BitVec 7}, (Riscv.opcode inst).toNat = c.toNat → c ≠ 0b0000011 ∧
    c ≠ 0b0100011 ∧ c ≠ 0b0101111 →
      s.exMisalignLoad = false ∧ s.exMisalignStore = false :=
        fun h hc => E.aligned_of_opcode (by rwa [hopcode h])
  unfold Riscv.decode at hi
  split at hi
  case h_1 ho => exact hne (c := 0b0110111) ho (by decide)
  case h_2 ho => exact hne (c := 0b0010111) ho (by decide)
  case h_3 ho => exact hne (c := 0b1101111) ho (by decide)
  case h_4 ho => exact hne (c := 0b1100111) ho (by decide)
  case h_5 ho => exact hne (c := 0b1100011) ho (by decide)
  case h_8 ho => exact hne (c := 0b0010011) ho (by decide)
  case h_9 ho => exact hne (c := 0b0110011) ho (by decide)
  case h_6 | h_7 =>
    obtain ⟨op, -, rfl⟩ := Option.map_eq_some_iff.1 hi
    cases hx
  case h_10 =>
    split_ifs at hi
    · cases hi
      cases hx
    · cases hi
      cases hx
    · obtain ⟨op, -, rfl⟩ := Option.map_eq_some_iff.1 hi
      cases hx
  case h_11 => cases hi

end Executes

end Core

end Rv32Soc
