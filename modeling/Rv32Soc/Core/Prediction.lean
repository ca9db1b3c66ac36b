import Rv32Soc.Core.Fetch
import Rv32Soc.Core.Reservation

/-!
# Prediction does not change the program

The instructions that complete are a path of the program (`IsPath`): each is the one
in memory where the ones before it lead, and computes what the architecture says from
what they left. Nothing in this depends on the predictor, so that two runs of one
program can differ only in what it reads from outside.

* `csr_of_isRun`, `computed_of_isRun`: the CSRs, and the result of the instruction in
  MEM, are those of the architecture;
* `isPath_of_isRun`: what has completed is a path;
* `IsPath.comparable`: a path is determined by what it reads;
* `scPath_of_isRun`: what an `sc.w` reads is determined by the path.
-/

namespace Rv32Soc

/-! ## Paths -/

/-- The instructions `l`, from the state `a` on, are those of the program in `m`. -/
def IsPath (m : Mem) : Arch → List Retired → Prop
  | _, [] => True
  | a, r :: l =>
    r.pc = a.pc ∧ r.inst = muxedIfInst (m.fetchWord a.pc) ∧ r.compressed = isCompressed (m.half a.pc) ∧
      ((controlLogic r.inst).regWen = false ∨ rdField r.inst = 0 → r.result = 0) ∧
      (isComputed r.inst → (controlLogic r.inst).regWen → rdField r.inst ≠ 0 →
        r.result = a.result r.pc r.inst r.compressed) ∧
      IsPath m (a.after r) l

theorem isPath_append {m : Mem} {a : Arch} {l l' : List Retired} :
    IsPath m a (l ++ l') ↔ IsPath m a l ∧ IsPath m (a.afterAll l) l' := by
  induction l generalizing a with
  | nil => simp [IsPath, Arch.afterAll]
  | cons r l ih =>
    simp only [List.cons_append, IsPath, ih, and_assoc]
    rfl

/-- The result of an instruction comes from outside. -/
def readsOutside (inst : Word) : Bool := !isComputed inst

/-- It comes from memory, from a peripheral or from the interrupt lines: an `sc.w` reads only what
    has been reserved. -/
def readsBus (inst : Word) : Bool := !isComputed inst && !(controlLogic inst).isSc

/-- The instructions that `reads` names have the same results in the two sequences, as long as they
    go along together. -/
def SameReads (reads : Word → Bool) : List Retired → List Retired → Prop
  | r :: l, r' :: l' =>
    (r.pc = r'.pc → r.inst = r'.inst → reads r.inst → r.result = r'.result) ∧
      (r = r' → SameReads reads l l')
  | _, _ => True

instance decidableSameReads (reads : Word → Bool) : ∀ l l', Decidable (SameReads reads l l')
  | [], _ => .isTrue (by simp [SameReads])
  | _ :: _, [] => .isTrue (by simp [SameReads])
  | r :: l, r' :: l' =>
    haveI := decidableSameReads reads l l'
    inferInstanceAs (Decidable ((_ → _ → _ → _) ∧ (r = r' → SameReads reads l l')))

/-- Every `sc.w` returns what the instructions before it have reserved. -/
def ScPath : Arch → Option Word → List Retired → Prop
  | _, _, [] => True
  | a, v, r :: l =>
    ((controlLogic r.inst).isSc →
      r.result = if rdField r.inst = 0 then 0
        else if v = some (a.regs (rs1Field r.inst)) then 0 else 1) ∧
      ScPath (a.after r) (a.reserve v r) l

theorem scPath_append {a : Arch} {v : Option Word} {l : List Retired} {r : Retired} :
    ScPath a v (l ++ [r]) ↔ ScPath a v l ∧ ScPath (a.afterAll l) (a.reserveAll v l) [r] := by
  induction l generalizing a v with
  | nil => exact (and_iff_right trivial).symm
  | cons _ l ih =>
    simp only [List.cons_append, ScPath, ih, and_assoc]
    rfl

/-- Two paths that read the same from the bus read the same. -/
theorem SameReads.of_scPath {a : Arch} {v : Option Word} {l l' : List Retired} (h : ScPath a v l)
    (h' : ScPath a v l') (hr : SameReads readsBus l l') : SameReads readsOutside l l' := by
  induction l generalizing a v l' with
  | nil => trivial
  | cons r l ih =>
    rcases l' with _ | ⟨r', l'⟩
    · trivial
    refine ⟨fun hpc hinst ho => ?_, fun he => ?_⟩
    · cases hs : (controlLogic r.inst).isSc
      · exact hr.1 hpc hinst (by rw [readsBus, hs]; simpa [readsOutside] using ho)
      · rw [h.1 hs, h'.1 (hinst ▸ hs), hinst]
    · subst he
      exact ih h.2 h'.2 (hr.2 rfl)

/-- Two paths that read the same go along together, until one of them ends. -/
theorem IsPath.comparable {m : Mem} {a : Arch} {l l' : List Retired} (h : IsPath m a l)
    (h' : IsPath m a l') (hr : SameReads readsOutside l l') : l <+: l' ∨ l' <+: l := by
  induction l generalizing a l' with
  | nil => exact .inl l'.nil_prefix
  | cons r l ih =>
    rcases l' with _ | ⟨r', l'⟩
    · exact .inr (List.nil_prefix)
    obtain ⟨h₁, h₂, h₃, h₄, h₅, hl⟩ := h
    obtain ⟨h₁', h₂', h₃', h₄', h₅', hl'⟩ := h'
    have hpc : r.pc = r'.pc := h₁.trans h₁'.symm
    have hinst : r.inst = r'.inst := h₂.trans h₂'.symm
    have hcomp : r.compressed = r'.compressed := h₃.trans h₃'.symm
    have hres : r.result = r'.result := by
      by_cases hw : (controlLogic r.inst).regWen = false ∨ rdField r.inst = 0
      · rw [h₄ hw, h₄' (hinst ▸ hw)]
      · rw [not_or, Bool.not_eq_false] at hw
        cases hc : isComputed r.inst
        · exact hr.1 hpc hinst (by rw [readsOutside, hc]; rfl)
        · rw [h₅ hc hw.1 hw.2, h₅' (hinst ▸ hc) (hinst ▸ hw.1) (hinst ▸ hw.2), hpc, hinst, hcomp]
    obtain rfl : r = r' := by
      obtain ⟨_, _, _, _⟩ := r
      obtain ⟨_, _, _, _⟩ := r'
      simp_all only
    rcases ih hl hl' (hr.2 rfl) with hp | hp
    · exact .inl ((List.prefix_cons_inj r).2 hp)
    · exact .inr ((List.prefix_cons_inj r).2 hp)

/-! ## Results -/

/-- The operands of a computed result: the registers that are read, the `pc` and an immediate. -/
theorem controlLogic_computed {inst : Word} (hc : isComputed inst)
    (hl : (controlLogic inst).illegalInst = false) (hw : (controlLogic inst).regWen)
    (hs : (controlLogic inst).csrWen = false) :
    (controlLogic inst).wbSel = 0b10 ∨ (controlLogic inst).wbSel = 0b01 ∧
      ((controlLogic inst).aSel ∨ readsRs1 inst ∨ (controlLogic inst).aluSel = 15) ∧
      ((controlLogic inst).bSel ∨ readsRs2 inst) := by
  by_cases hop : opcode inst = 0b0110011
  · exact .inr ⟨wbSel_of_op hop, .inr (.inl (by rw [readsRs1, hop]; rfl)),
      .inr (by rw [readsRs2, hop]; rfl)⟩
  have ho : opcode inst ∈
      [0b0010011, 0b0110111, 0b0010111, 0b1101111, 0b1100111, 0b1100011, (0b0100011 : BitVec 7)] := by
    revert hc hop
    rw [isComputed, hs, Bool.false_and]
    generalize opcode inst = c
    revert c
    decide +kernel
  rcases controlLogic_writes rfl ho hl hw with h | ⟨h, ha, hb⟩
  · exact .inl h
  · refine .inr ⟨h, ?_, .inl hb⟩
    rcases ha with ha | ha | ha
    · exact .inl ha
    · exact .inr (.inl (by rw [readsRs1, ha]; rfl))
    · exact .inr (.inr ha)

/-- What the CSR instructions write comes from the CSR. -/
theorem controlLogic_csr {inst : Word} (h : (controlLogic inst).csrWen) :
    (controlLogic inst).wbSel = 0b01 ∧ (controlLogic inst).regWen := by
  rw [(controlLogic_system (opcode_of_csrWen h)).1]
  decide

theorem csrRdata_eq (c : CsrFile) {a : BitVec 12} (h : a ≠ 0x344) (b₁ b₂ : Bool) :
    c.csrRdata a b₁ b₂ = c.csrRdata a false false := by
  have h' : a.toNat ≠ 0x344 := fun h' => h (BitVec.eq_of_toNat_eq h')
  unfold CsrFile.csrRdata
  split <;> first | rfl | exact absurd ‹_› h'

theorem alu_lui (x₁ x₁' x₂ : Word) : alu x₁ x₂ 15 = alu x₁' x₂ 15 := by
  simp [alu]

section

variable {m : Mem} {STALL_WATCHDOG_LIMIT : BitVec 16} {σ : ℕ → Core} {ι : ℕ → CoreInputs}
  {π : ℕ → Predictor}

/-- The operand of a CSR instruction that leaves EX. -/
theorem csrOperand_eq (h : (core STALL_WATCHDOG_LIMIT).IsRun σ fun n => (ι n, π n)) {n : ℕ}
    (hv : (σ n).idEx.valid) (hg : (σ n).globalMemStall (ι n) = false)
    (hc : (controlLogic (σ n).idEx.inst).csrWen) :
    (if (controlLogic (σ n).idEx.inst).csrUseImm then (controlLogic (σ n).idEx.inst).csrUimm.setWidth 32
      else (σ n).fwdRs1) = (archState σ ι (n + 1)).csrOperand (σ n).idEx.inst := by
  rw [Arch.csrOperand]
  split
  · rfl
  · next hi =>
    refine fwdRs1_eq_archState h hv hg ?_
    have ho := opcode_of_csrWen hc
    have h₁₄ : (σ n).idEx.inst.getLsbD 14 = (funct3 (σ n).idEx.inst).getLsbD 2 := by simp [funct3]
    simp only [controlLogic, ho, decide_true, Bool.true_and, h₁₄] at hi hc
    rw [readsRs1, ho]
    revert hi hc
    generalize funct3 (σ n).idEx.inst = f
    revert f
    decide

/-- The CSRs are those that all instructions beyond EX lead to. -/
theorem csr_of_isRun (h : (core STALL_WATCHDOG_LIMIT).IsRun σ fun n => (ι n, π n)) {n : ℕ}
    (hq : Quiet m σ ι n) : (σ n).csr = (frontState σ ι n).csr := by
  induction n with
  | zero =>
    obtain ⟨-, -, -, h₃, -⟩ := h.init
    rw [frontState, h₃]
    rfl
  | succ n ih =>
    have hn := n.lt_succ_self
    have hcsr : (σ (n + 1)).csr = if (σ n).exCsrWen (ι n) then
        (σ n).csr.write (csrField (σ n).idEx.inst) (σ n).idEx.ctl.csrOp
          (if (σ n).idEx.ctl.csrUseImm then (σ n).idEx.ctl.csrUimm.setWidth 32 else (σ n).fwdRs1)
        else (σ n).csr := by
      rw [core_next h n, Core.nextWith_csr, Core.nextCsr, (hq.trap n hn).1, (hq.trap n hn).2]
      rfl
    rw [hcsr]
    -- A moving pipeline takes one instruction out of EX, a stalled one changes neither side.
    cases hg : (σ n).globalMemStall (ι n)
    · have hwf := wellFormed_of_reachable (h.reachable n)
      have hc : (archState σ ι (n + 1)).csr = (σ n).csr :=
        (archState_succ_eq_frontState hg).2.trans (ih (hq.mono hn.le)).symm
      rw [frontState_succ h hg (hq.pcTrapOverride hn)]
      -- A bubble in EX writes no CSR.
      cases hv : (σ n).idEx.valid
      · have hw : (σ n).idEx.ctl.csrWen = false := by
          rcases (hwf.idExBubble hv).ctl with h' | h' <;> rw [h'] <;> decide
        simp [Core.exCsrWen, hw, hc]
      · rw [if_pos rfl, Core.exCsrWen, hg, (hwf.idEx hv).ctl]
        cases hw : (controlLogic (σ n).idEx.inst).csrWen
        · simp [Arch.after, hw, hc]
        · have hs : (σ n).stall = false := by
            simp [Core.stall, loadUseStall, Core.idExMemRead, (hwf.idEx hv).ctl, (controlLogic_csr hw).1]
          rw [hs, csrOperand_eq h hv hg hw]
          simp only [Arch.after, hw, hc]
          rfl
    · rw [frontState_succ_frozen h hg, ← ih (hq.mono hn.le)]
      simp [Core.exCsrWen, hg]

/-- What EX computes. -/
theorem actualExResult_eq (h : (core STALL_WATCHDOG_LIMIT).IsRun σ fun n => (ι n, π n)) {n : ℕ}
    (hq : Quiet m σ ι n) (hl : (σ n).leavesEx (ι n)) (hc : isComputed (σ n).idEx.inst)
    (hw : (controlLogic (σ n).idEx.inst).regWen) :
    (controlLogic (σ n).idEx.inst).wbSel = 0b10 ∨ (controlLogic (σ n).idEx.inst).wbSel = 0b01 ∧
      (σ n).actualExResult (ι n) =
        (archState σ ι (n + 1)).result (σ n).idEx.pc (σ n).idEx.inst (σ n).idEx.compressed := by
  obtain ⟨⟨hv, hg⟩, ht⟩ : ((σ n).idEx.valid ∧ (σ n).globalMemStall (ι n) = false) ∧
      ((σ n).trap (ι n)).pcTrapOverride = false := by
    simpa [Core.leavesEx] using hl
  have hd := (wellFormed_of_reachable (h.reachable n)).idEx hv
  have hill : (controlLogic (σ n).idEx.inst).illegalInst = false :=
    hd.ctl ▸ Core.illegalInst_of_leaves hv hg ht
  cases hs : (controlLogic (σ n).idEx.inst).csrWen
  · -- Not a CSR instruction: the result is that of the divider or the ALU.
    rcases controlLogic_computed hc hill hw hs with hb | ⟨hb, h₁, h₂⟩
    · exact .inl hb
    refine .inr ⟨hb, ?_⟩
    have hB : (σ n).aluB = if (controlLogic (σ n).idEx.inst).bSel then
        immgen (σ n).idEx.inst (controlLogic (σ n).idEx.inst).immSel
        else (archState σ ι (n + 1)).regs (rs2Field (σ n).idEx.inst) := by
      rw [Core.aluB, hd.ctl, hd.imm]
      split
      · rfl
      · next hb' => exact fwdRs2_eq_archState h hv hg (h₂.resolve_left hb')
    have hA : (controlLogic (σ n).idEx.inst).aluSel = 15 ∨
        (σ n).aluA = if (controlLogic (σ n).idEx.inst).aSel then (σ n).idEx.pc
          else (archState σ ι (n + 1)).regs (rs1Field (σ n).idEx.inst) := by
      rw [Core.aluA, hd.ctl]
      split
      · exact .inr rfl
      · next ha => exact (h₁.resolve_left ha).symm.imp id (fwdRs1_eq_archState h hv hg)
    have hdiv : (σ n).isDivOp = ((controlLogic (σ n).idEx.inst).aluSel.extractLsb' 2 3 == 0b100#3) := by
      rw [Core.isDivOp, hd.ctl]
    have hs' : (σ n).idEx.ctl.csrWen = false := by rw [hd.ctl, hs]
    simp only [Arch.result]
    rw [if_neg (by rw [hb]; decide), hs, if_neg Bool.false_ne_true, ← hB]
    -- A division holds EX until the unit is done, and its result is then the one selected.
    split
    · next hdop =>
      have hd' : (σ n).isDivOp := by rw [hdiv, hdop]; rfl
      rw [(dividing_of_reachable (h.reachable n)).actualExResult_eq hg hd' hs', Core.divIsSigned,
        hA.resolve_left fun h' => by rw [h'] at hdop; exact absurd hdop (by decide), hd.ctl]
    · next hdop =>
      have hd' : (σ n).isDivOp = false := by rw [hdiv]; exact beq_false_of_ne hdop
      rw [Core.actualExResult, hs', if_neg Bool.false_ne_true, Core.exResult, hd',
        if_neg Bool.false_ne_true, hd.ctl]
      -- The first operand of `lui` is a don't-care: its ALU function passes the second through.
      rcases hA with hA | hA
      · rw [hA]
        exact alu_lui _ _ _
      · rw [hA]
  · -- A CSR instruction returns the old value; `mip` alone also reads the interrupt lines.
    have hb := (controlLogic_csr hs).1
    have hm : csrField (σ n).idEx.inst ≠ 0x344 := by
      rw [isComputed, opcode_of_csrWen hs, hs] at hc
      simpa using hc
    refine .inr ⟨hb, ?_⟩
    simp only [Arch.result]
    rw [if_neg (by rw [hb]; decide), hs, if_pos rfl, Core.actualExResult, hd.ctl, hs, if_pos rfl,
      (archState_succ_eq_frontState hg).2, ← csr_of_isRun h hq]
    exact csrRdata_eq _ hm _ _

/-- What holds of each instruction as it leaves EX, and of the state that the ones before it lead to,
    still holds when it is in MEM. -/
theorem inMem_of_leaves {P : ExMem → Arch → Prop}
    (h : (core STALL_WATCHDOG_LIMIT).IsRun σ fun n => (ι n, π n)) {n : ℕ} (hq : Quiet m σ ι n)
    (hP : ∀ k < n, (σ k).leavesEx (ι k) → P ((σ k).executed (ι k)) (archState σ ι (k + 1)))
    (hv : (σ n).exMem.valid) : P (σ n).exMem (archState σ ι n) := by
  induction n with
  | zero =>
    obtain ⟨-, -, -, h₃, -⟩ := h.init
    rw [h₃] at hv
    exact absurd hv (by decide)
  | succ n ih =>
    have hn := n.lt_succ_self
    have ht := hq.pcTrapOverride hn
    have he : (σ (n + 1)).exMem = (σ n).nextExMem (ι n) := by rw [core_next h n, Core.nextWith_exMem]
    rw [he] at hv ⊢
    rcases (σ n).nextExMem_cases (ι n) with ⟨hg, hx⟩ | ⟨-, ht', -⟩ | ⟨hg, -, hx⟩
    · -- It waits in MEM.
      rw [hx] at hv ⊢
      rw [archState_succ_of_not (by simp [Core.leavesMem, hg])]
      exact ih (hq.mono hn.le) (fun k hk => hP k (hk.trans hn)) hv
    · exact absurd (ht.symm.trans ht') Bool.false_ne_true
    · rw [hx] at hv ⊢
      have hv' : (σ n).idEx.valid := hv
      exact hP n hn (by simp [Core.leavesEx, hv', hg, ht])

/-- The result of the instruction in MEM, if it is computed. -/
theorem computed_of_isRun (h : (core STALL_WATCHDOG_LIMIT).IsRun σ fun n => (ι n, π n)) {n : ℕ}
    (hq : Quiet m σ ι n) (hv : (σ n).exMem.valid) (hc : isComputed (σ n).exMem.inst)
    (hw : (σ n).exMem.regWen) :
    (σ n).exMem.wbSel = 0b10 ∨ (σ n).exMem.wbSel = 0b01 ∧
      (σ n).exMem.alu = (archState σ ι n).result (σ n).exMem.pc (σ n).exMem.inst
        (σ n).exMem.compressed := by
  refine inMem_of_leaves (P := fun e a => isComputed e.inst → e.regWen →
    e.wbSel = 0b10 ∨ e.wbSel = 0b01 ∧ e.alu = a.result e.pc e.inst e.compressed) h hq ?_ hv hc hw
  intro k hk hl hc hw
  obtain ⟨⟨hv', -⟩, -⟩ : ((σ k).idEx.valid ∧ _) ∧ _ := by simpa [Core.leavesEx] using hl
  have hctl := ((wellFormed_of_reachable (h.reachable k)).idEx hv').ctl
  have hw' : (controlLogic (σ k).idEx.inst).regWen := hctl ▸ hw
  have hb : ((σ k).executed (ι k)).wbSel = (controlLogic (σ k).idEx.inst).wbSel := by
    rw [← hctl]
    rfl
  rw [hb]
  exact actualExResult_eq h (hq.mono hk.le) hl hc hw'

/-- What it writes. -/
theorem wbData_of_isRun (h : (core STALL_WATCHDOG_LIMIT).IsRun σ fun n => (ι n, π n)) {n : ℕ}
    (hq : Quiet m σ ι n) (hv : (σ n).exMem.valid) (hc : isComputed (σ n).exMem.inst)
    (hw : (σ n).exMem.regWen) :
    ((σ n).accessed (ι n)).wbData =
      (archState σ ι n).result (σ n).exMem.pc (σ n).exMem.inst (σ n).exMem.compressed := by
  have hd := (wellFormed_of_reachable (h.reachable n)).exMem hv
  have hsc : (σ n).exMem.isSc = false := by
    refine Bool.eq_false_iff.2 fun hs => ?_
    rw [isComputed, (opcode_of_isSc (hd.isSc ▸ hs)).1] at hc
    exact Bool.false_ne_true hc
  rw [Core.wbData_accessed, Core.finalAluToWb, hsc]
  rcases computed_of_isRun h hq hv hc hw with hb | ⟨hb, ha⟩
  · simp only [Arch.result]
    rw [hb, ← hd.wbSel, hb]
    rfl
  · rw [hb, ← ha]
    rfl

/-! ## Runs -/

theorem exMem_of_isRun (h : (core STALL_WATCHDOG_LIMIT).IsRun σ fun n => (ι n, π n)) {n : ℕ}
    (hq : Quiet m σ ι n) (hv : (σ n).exMem.valid) :
    (σ n).exMem.pc = (archState σ ι n).pc ∧
      (σ n).exMem.inst = muxedIfInst (m.fetchWord (archState σ ι n).pc) ∧
      (σ n).exMem.compressed = isCompressed (m.half (archState σ ι n).pc) :=
  inMem_of_leaves (P := fun e a => e.pc = a.pc ∧ e.inst = muxedIfInst (m.fetchWord a.pc) ∧
    e.compressed = isCompressed (m.half a.pc)) h hq (fun _ hk hl =>
      path_of_isRun h (hq.mono hk.le) hl) hv

/-- The instructions that have completed are a path of the program. -/
theorem isPath_of_isRun (h : (core STALL_WATCHDOG_LIMIT).IsRun σ fun n => (ι n, π n)) {n : ℕ}
    (hq : Quiet m σ ι n) : IsPath m (σ 0).arch (retired σ ι n) := by
  induction n with
  | zero => trivial
  | succ n ih =>
    have hq' := hq.mono n.le_succ
    cases hl : (σ n).leavesMem (ι n)
    · rw [retired, completed, hl]
      exact ih hq'
    · rw [retired, completed, if_pos hl, List.map_append, isPath_append]
      obtain ⟨hv, -⟩ : (σ n).exMem.valid ∧ _ := by simpa [Core.leavesMem] using hl
      have hd := (wellFormed_of_reachable (h.reachable n)).exMem hv
      obtain ⟨h₁, h₂, h₃⟩ := exMem_of_isRun h hq' hv
      refine ⟨ih hq', h₁, h₂, h₃, fun hw => if_neg ?_, fun hc hw hr => ?_, trivial⟩
      · show ¬((σ n).exMem.regWen && (σ n).exMem.rd != 0) = true
        rw [hd.regWen, hd.rd, Bool.and_eq_true, bne_iff_ne]
        rintro ⟨hw', hr⟩
        exact hw.elim (fun h' => absurd (h'.symm.trans hw') Bool.false_ne_true) hr
      · refine (if_pos ?_).trans (wbData_of_isRun h hq' hv hc (hd.regWen ▸ hw))
        show ((σ n).exMem.regWen && (σ n).exMem.rd != 0) = true
        rw [hd.regWen, hd.rd, Bool.and_eq_true, bne_iff_ne]
        exact ⟨hw, hr⟩

/-! ## Reservations -/

/-- The peripherals answer only what they are asked, and what is reserved is memory. -/
structure ReservesMemory (σ : ℕ → Core) (ι : ℕ → CoreInputs) : Prop where
  answers : Core.Answers σ ι
  cacheable : ∀ n, (σ n).exMem.isLr → (σ n).memAddrIsCacheable

/-- The address of an atomic instruction in MEM. -/
theorem alu_of_atomic (h : (core STALL_WATCHDOG_LIMIT).IsRun σ fun n => (ι n, π n)) {n : ℕ}
    (hq : Quiet m σ ι n) (hv : (σ n).exMem.valid) (ho : opcode (σ n).exMem.inst = 0b0101111) :
    (σ n).exMem.alu = (archState σ ι n).regs (rs1Field (σ n).exMem.inst) := by
  refine inMem_of_leaves (P := fun e a => opcode e.inst = 0b0101111 →
    e.alu = a.regs (rs1Field e.inst)) h hq ?_ hv ho
  intro k hk hl (ho : opcode (σ k).idEx.inst = 0b0101111)
  obtain ⟨⟨hv, hg⟩, -⟩ : ((σ k).idEx.valid ∧ (σ k).globalMemStall (ι k) = false) ∧ _ := by
    simpa [Core.leavesEx] using hl
  have hd := (wellFormed_of_reachable (h.reachable k)).idEx hv
  obtain ⟨⟨-, hcsr⟩, ha, hb, himm, hsel⟩ := controlLogic_atomic ho
  have hdiv : (σ k).isDivOp = false := by
    rw [Core.isDivOp, hd.ctl, hsel]
    rfl
  show (σ k).actualExResult (ι k) = _
  rw [Core.actualExResult, hd.ctl, hcsr, if_neg Bool.false_ne_true, Core.exResult, hdiv,
    if_neg Bool.false_ne_true,
    hd.ctl, hsel, Core.aluA, Core.aluB, hd.ctl, hd.imm, ha, hb, himm,
    if_neg Bool.false_ne_true, if_pos rfl]
  exact (BitVec.add_zero _).trans (fwdRs1_eq_archState h hv hg (by rw [readsRs1, ho]; rfl))

/-- Without a trap, what is reserved is what the completed instructions have reserved. -/
theorem reserved_iff_reserveAll (h : (core STALL_WATCHDOG_LIMIT).IsRun σ fun n => (ι n, π n)) {n : ℕ}
    (hq : Quiet m σ ι n) (x : Word) :
    Reserved σ ι n x ↔ (σ 0).arch.reserveAll none (retired σ ι n) = some x := by
  induction n with
  | zero => simp [Reserved, retired, completed, Arch.reserveAll]
  | succ n ih =>
    have hq' := hq.mono n.le_succ
    have hwf := wellFormed_of_reachable (h.reachable n)
    rw [reserved_succ, (hq.trap n n.lt_succ_self).1, eq_self_iff_true, true_and, ih hq']
    cases hl : (σ n).leavesMem (ι n)
    · -- Nothing completes: the pipeline is frozen, or MEM holds a bubble.
      have hnone : (σ n).globalMemStall (ι n) = false → (σ n).exMem.isLr = false ∧
        (σ n).exMem.isSc = false ∧
          (σ n).exMem.isAmo = false ∧ (σ n).isStore = false := by
        intro hg
        have hb := hwf.exMemBubble (by simpa [Core.leavesMem, hg] using hl)
        exact ⟨hb.isLr, hb.isSc, hb.isAmo, hb.memRw⟩
      have hc : ¬lrCompletes σ ι n x := fun hc => by simp [hnone hc.1, lrCompletes] at hc
      have hb : ¬breaks σ ι n x := fun hb => by simp [hnone hb.1, breaks] at hb
      have hr : retired σ ι (n + 1) = retired σ ι n := by
        rw [retired, completed, hl]
        rfl
      rw [hr, or_iff_right hc, and_iff_left hb]
    · obtain ⟨hv, hg⟩ : (σ n).exMem.valid ∧ (σ n).globalMemStall (ι n) = false := by
        simpa [Core.leavesMem] using hl
      have hd := hwf.exMem hv
      have hr : (σ 0).arch.reserveAll none (retired σ ι (n + 1)) =
          (archState σ ι n).reserve ((σ 0).arch.reserveAll none (retired σ ι n))
            (Completed.retired ⟨(σ n).exMem, (σ n).accessed (ι n)⟩) := by
        rw [retired, completed, if_pos hl, List.map_append]
        exact Arch.reserveAll_append _ _ _ _
      have hi : (Completed.retired ⟨(σ n).exMem, (σ n).accessed (ι n)⟩).inst = (σ n).exMem.inst := rfl
      rw [hr, Arch.reserve, hi, ← hd.isLr, ← hd.isAmo, ← hd.memRw]
      cases hlr : (σ n).exMem.isLr
      · have hsc : (σ n).exMem.isSc → (σ n).exMem.memRw := fun hs => (hwf.kind_of_isSc hs).2.2.1
        have hbreaks : breaks σ ι n x ↔ ((σ n).exMem.memRw || (σ n).exMem.isAmo) = true := by
          simp only [breaks, hg, hlr, Core.isStore, Bool.or_eq_true, Bool.false_eq_true, false_and,
            or_false, true_and]
          tauto
        rw [hbreaks, lrCompletes, hlr]
        cases (σ n).exMem.memRw || (σ n).exMem.isAmo <;> simp
      · have ha := alu_of_atomic h hq' hv (opcode_of_isLr (hd.isLr ▸ hlr)).1
        simp only [if_true, Option.some.injEq, ← ha]
        constructor
        · rintro (hc | ⟨-, hb⟩)
          · exact hc.2.2
          · by_contra hne
            exact hb ⟨hg, .inr (.inr (.inr ⟨hlr, hne⟩))⟩
        · exact fun he => .inl ⟨hg, hlr, he⟩

/-- What an `sc.w` returns is settled by the instructions that have completed. -/
theorem scPath_of_isRun (h : (core STALL_WATCHDOG_LIMIT).IsRun σ fun n => (ι n, π n))
    (hm : ReservesMemory σ ι)
    {n : ℕ} (hq : Quiet m σ ι n) : ScPath (σ 0).arch none (retired σ ι n) := by
  induction n with
  | zero => trivial
  | succ n ih =>
    have hq' := hq.mono n.le_succ
    cases hl : (σ n).leavesMem (ι n)
    · rw [retired, completed, hl]
      exact ih hq'
    · rw [retired, completed, if_pos hl, List.map_append]
      refine scPath_append.2 ⟨ih hq', fun hs => ?_, trivial⟩
      obtain ⟨hv, -⟩ : (σ n).exMem.valid ∧ _ := by simpa [Core.leavesMem] using hl
      have hwf := wellFormed_of_reachable (h.reachable n)
      have hd := hwf.exMem hv
      have hsc : (σ n).exMem.isSc := hd.isSc.trans hs
      have ha := alu_of_atomic h hq' hv (opcode_of_isSc hs).1
      have hflag : (σ n).scSuccessFlag ↔ (σ 0).arch.reserveAll none (retired σ ι n) =
          some ((archState σ ι n).regs (rs1Field (σ n).exMem.inst)) := by
        rw [Core.scSuccessFlag_iff h hm.answers hm.cacheable hsc, reserved_iff_reserveAll h hq', ha]
      have hwb : ((σ n).accessed (ι n)).wbData = if (σ n).scSuccessFlag then 0 else 1 := by
        rw [Core.wbData_accessed, hwf.wbSel_of_isSc hsc, if_pos rfl, Core.finalAluToWb, if_pos hsc]
      show (if (σ n).exMem.regWen && (σ n).exMem.rd != 0 then ((σ n).accessed (ι n)).wbData else 0) =
        if rdField (σ n).exMem.inst = 0 then 0 else _
      rw [hwb, (hwf.kind_of_isSc hsc).2.2.2, hd.rd]
      by_cases hrd : rdField (σ n).exMem.inst = 0
      · simp [hrd]
      · rw [if_neg hrd, if_pos (by simpa using hrd)]
        exact if_congr hflag rfl rfl

/-- Whatever the predictor holds, the instructions leave EX, and complete, on the path of the
    program. Another run of it, with another predictor, completes the same instructions if they
    read the same from outside; of an `sc.w` this need not be asked where only memory is reserved. -/
theorem prediction_of_isRun (h : (core STALL_WATCHDOG_LIMIT).IsRun σ fun n => (ι n, π n)) {n : ℕ}
    (hq : Quiet m σ ι n) :
    (∀ k ≤ n, (σ k).leavesEx (ι k) →
        (issued σ ι k).map (fun e => (e.pc, e.inst)) = (retired σ ι (k + 1)).map (fun r =>
          (r.pc, r.inst)) ∧
        (σ k).idEx.pc = (archState σ ι (k + 1)).pc ∧
        (σ k).idEx.inst = muxedIfInst (m.fetchWord (archState σ ι (k + 1)).pc) ∧
        (σ k).idEx.compressed = isCompressed (m.half (archState σ ι (k + 1)).pc)) ∧
      IsPath m (σ 0).arch (retired σ ι n) ∧
      ∀ (σ' : ℕ → Core) (ι' : ℕ → CoreInputs) (π' : ℕ → Predictor) (n' : ℕ),
        ((core STALL_WATCHDOG_LIMIT).IsRun σ' fun n => (ι' n, π' n)) → (σ' 0).regs = (σ 0).regs →
        Quiet m σ' ι' n' →
        SameReads readsOutside (retired σ ι n) (retired σ' ι' n') ∨
          ReservesMemory σ ι ∧ ReservesMemory σ' ι' ∧
          SameReads readsBus (retired σ ι n) (retired σ' ι' n') →
        retired σ ι n <+: retired σ' ι' n' ∨ retired σ' ι' n' <+: retired σ ι n := by
  refine ⟨fun k hk hl => ⟨?_, path_of_isRun h (hq.mono hk) hl⟩, isPath_of_isRun h hq, ?_⟩
  · rw [(operands_of_isRun h k hl).1, retired, List.map_map]
    rfl
  · intro σ' ι' π' n' h' hr hq' hs
    -- Reset sets the CSRs, so equal registers make equal architectural states.
    have ha : (σ' 0).arch = (σ 0).arch := by
      have hcsr : ∀ {s : Core}, s ∈ (core STALL_WATCHDOG_LIMIT).init →
          s.csr = ⟨0, 0, 0, 0, 0, 0⟩ := by
        rintro s ⟨-, -, -, -, -, -, -, -, -, hc, -⟩
        exact hc
      rw [Core.arch, Core.arch, hr, hcsr h.init, hcsr h'.init]
    refine (isPath_of_isRun h hq).comparable (ha ▸ isPath_of_isRun h' hq') ?_
    rcases hs with hs | ⟨hm, hm', hs⟩
    · exact hs
    · exact hs.of_scPath (scPath_of_isRun h hm hq) (ha ▸ scPath_of_isRun h' hm' hq')

end

/-! ## Two runs -/

/-- A run with the predictor of the source, on the program in `m`; `ι` is what else comes from
    outside. -/
def predTrace (m : Mem) (s : Core) (ι : ℕ → CoreInputs) : ℕ → Core
  | 0 => s
  | n + 1 => (predTrace m s ι n).next { ι n with ifInst := m.fetchWord (predTrace m s ι n).pc } 1023

def predInputs (m : Mem) (s : Core) (ι : ℕ → CoreInputs) (n : ℕ) : CoreInputs :=
  { ι n with ifInst := m.fetchWord (predTrace m s ι n).pc }

theorem isRun_predTrace (m : Mem) {s : Core} (h : s.IsReset) (ι : ℕ → CoreInputs) :
    (core 1023).IsRun (predTrace m s ι)
      fun n => (predInputs m s ι n, (predTrace m s ι n).nextPred (predInputs m s ι n)) :=
  ⟨h, fun _ => trivial, fun _ => (Core.nextWith_nextPred _ _ _).symm⟩

/-- `beq x0, x0, 8; nop; lui x1, 2; lw x2, 0(x1); bne x2, x0, 8; nop` and so on: the program loads
    the stall counter. -/
def watchdogProgram : Mem := fun a =>
  if a = 0x40000000 then 0x63
  else if a = 0x40000001 then 0x04
  else if a = 0x40000008 then 0xB7
  else if a = 0x40000009 then 0x20
  else if a = 0x4000000C then 0x03
  else if a = 0x4000000D then 0xA1
  else if a = 0x40000010 then 0x63
  else if a = 0x40000011 then 0x14
  else if a = 0x40000012 then 0x01
  else if a.extractLsb' 0 2 = 0 then 0x13
  else 0

/-- The instruction cache is not ready once. -/
def watchdogInputs (n : ℕ) : CoreInputs := { CoreInputs.ready with cacheReady := n != 5 }

/-- The core out of reset, with every counter of the pattern history table at `c`. -/
def phtCore (c : BitVec 2) : Core := { resetCore with pred := { resetCore.pred with pht := fun _ => c } }

theorem isReset_phtCore (c : BitVec 2) : (phtCore c).IsReset := by
  simp [Core.IsReset, phtCore, resetCore]

theorem quiet_watchdog (c : BitVec 2) (hc : c = 0 ∨ c = 3) :
    Quiet watchdogProgram (predTrace watchdogProgram (phtCore c) watchdogInputs)
      (predInputs watchdogProgram (phtCore c) watchdogInputs) 12 := by
  refine ⟨fun _ _ _ => rfl, ?_, ?_⟩
  · rcases hc with rfl | rfl <;> decide +kernel
  · rcases hc with rfl | rfl <;> decide +kernel

/-- With either predictor the branch is taken, and the load follows it. -/
theorem watchdog_prediction :
    ((predTrace watchdogProgram (phtCore 0) watchdogInputs 7).idEx.pc = 0x4000000C ∧
      (predTrace watchdogProgram (phtCore 3) watchdogInputs 4).idEx.pc = 0x4000000C) ∧
      retired (predTrace watchdogProgram (phtCore 3) watchdogInputs)
          (predInputs watchdogProgram (phtCore 3) watchdogInputs) 5 <+:
        retired (predTrace watchdogProgram (phtCore 0) watchdogInputs)
          (predInputs watchdogProgram (phtCore 0) watchdogInputs) 9 := by
  have h := prediction_of_isRun (isRun_predTrace watchdogProgram (isReset_phtCore 3) watchdogInputs)
    ((quiet_watchdog 3 (.inr rfl)).mono (show 5 ≤ 12 by decide))
  have h' := h.2.2 _ _ _ 9 (isRun_predTrace watchdogProgram (isReset_phtCore 0) watchdogInputs) rfl
    ((quiet_watchdog 0 (.inl rfl)).mono (by decide)) (.inl (by decide +kernel))
  refine ⟨by decide +kernel, h'.elim id fun hp => absurd hp ?_⟩
  decide +kernel

/-- What the program reads can depend on the predictor: here the load sees how long the pipeline
    has been frozen. -/
theorem watchdog_retired :
    ¬∀ (m : Mem) (σ σ' : ℕ → Core) (ι ι' : ℕ → CoreInputs) (n n' : ℕ),
      ((core 1023).IsRun σ fun k => (ι k, (σ k).nextPred (ι k))) →
      ((core 1023).IsRun σ' fun k => (ι' k, (σ' k).nextPred (ι' k))) →
      (∀ p, { σ 0 with pred := p } = { σ' 0 with pred := p }) →
      (∀ k w, { ι k with ifInst := w } = { ι' k with ifInst := w }) →
      Quiet m σ ι n → Quiet m σ' ι' n' →
      (retired σ ι n).map (fun r => (r.pc, r.inst)) <+: (retired σ' ι' n').map (fun r =>
        (r.pc, r.inst)) ∨
        (retired σ' ι' n').map (fun r => (r.pc, r.inst)) <+: (retired σ ι n).map (fun r =>
          (r.pc, r.inst)) := by
  intro h
  have h' := h watchdogProgram _ _ _ _ 12 12
    (isRun_predTrace watchdogProgram (isReset_phtCore 0) watchdogInputs)
    (isRun_predTrace watchdogProgram (isReset_phtCore 3) watchdogInputs) (fun _ => rfl) (fun _ _ => rfl)
    (quiet_watchdog 0 (.inl rfl)) (quiet_watchdog 3 (.inr rfl))
  revert h'
  decide +kernel

end Rv32Soc
