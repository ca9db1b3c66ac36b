import Rv32Soc.Core.Isa

/-!
# SYSTEM instructions

`ECALL` and `MRET` are recognised by the opcode and the upper twelve bits of an instruction,
which in a CSR instruction are the number of the CSR. CSR instructions are recognised by
`funct3`. Where both match, the trap controller wins.

* `CsrDone`: what a CSR instruction does when it leaves EX;
* `systemExact_iff`: the words for which the two decoders agree.
-/

namespace Rv32Soc

def ecallWord : Word := 0x00000073
def mretWord : Word := 0x30200073

/-- `csrrw`, `csrrs` and `csrrc`, and the forms with an immediate. -/
def isCsr (inst : Word) : Prop := opcode inst = 0b1110011 ∧ funct3 inst ≠ 0b000 ∧ funct3 inst ≠ 0b100

instance : DecidablePred isCsr := fun inst =>
  inferInstanceAs (Decidable (opcode inst = 0b1110011 ∧ funct3 inst ≠ 0b000 ∧ funct3 inst ≠ 0b100))

/-- What a CSR instruction leaves in its CSR, by its old value and the register `rs1`. -/
def csrResult (inst : Word) (old x₁ : Word) : Word :=
  match (funct3 inst).toNat with
  | 0b001 => x₁
  | 0b010 => old ||| x₁
  | 0b011 => old &&& ~~~x₁
  | 0b101 => (rs1Field inst).setWidth 32
  | 0b110 => old ||| (rs1Field inst).setWidth 32
  | 0b111 => old &&& ~~~(rs1Field inst).setWidth 32
  | _ => old

namespace CsrFile

/-- The CSRs that can be written; `mip` can be read as well. -/
def writable (a : BitVec 12) : Bool :=
  a == 0x300 || a == 0x304 || a == 0x305 || a == 0x341 || a == 0x342 || a == 0x343

def implemented (a : BitVec 12) : Bool := writable a || a == 0x344

variable (s : CsrFile)

theorem csrRdata_of_not_implemented {a : BitVec 12} (h : implemented a = false) (t e : Bool) :
    s.csrRdata a t e = 0 := by
  simp only [implemented, writable, Bool.or_eq_false_iff, beq_eq_false_iff_ne, ne_eq] at h
  obtain ⟨⟨⟨⟨⟨⟨h₁, h₂⟩, h₃⟩, h₄⟩, h₅⟩, h₆⟩, h₇⟩ := h
  unfold csrRdata
  split
  · next hn => exact absurd (BitVec.eq_of_toNat_eq hn) h₁
  · next hn => exact absurd (BitVec.eq_of_toNat_eq hn) h₂
  · next hn => exact absurd (BitVec.eq_of_toNat_eq hn) h₃
  · next hn => exact absurd (BitVec.eq_of_toNat_eq hn) h₄
  · next hn => exact absurd (BitVec.eq_of_toNat_eq hn) h₅
  · next hn => exact absurd (BitVec.eq_of_toNat_eq hn) h₆
  · next hn => exact absurd (BitVec.eq_of_toNat_eq hn) h₇
  · rfl

/-- A write changes the CSR that it names, if that can be written, and no other one. -/
theorem csrRdata_write (n a : BitVec 12) (op : BitVec 2) (w : Word) (t e : Bool) :
    (s.write n op w).csrRdata a t e =
      if a = n ∧ writable a then written op (s.csrRdata a t e) w else s.csrRdata a t e := by
  by_cases hw : writable n
  · have hn : n = 0x300 ∨ n = 0x304 ∨ n = 0x305 ∨ n = 0x341 ∨ n = 0x342 ∨ n = 0x343 := by
      simpa [writable, or_assoc] using hw
    by_cases ha : a = n
    · subst ha
      rw [if_pos ⟨rfl, hw⟩]
      rcases hn with rfl | rfl | rfl | rfl | rfl | rfl <;> rfl
    · rw [if_neg fun h => ha h.1]
      have hne : a.toNat ≠ n.toNat := fun h => ha (BitVec.eq_of_toNat_eq h)
      rcases hn with rfl | rfl | rfl | rfl | rfl | rfl <;>
      · unfold csrRdata
        split <;> first | rfl | exact absurd ‹_› hne
  · have hne : ¬(a = n ∧ writable a) := by
      rintro ⟨rfl, h⟩
      exact hw h
    rw [if_neg hne]
    have hid : s.write n op w = s := by
      simp only [writable, Bool.or_eq_true, beq_iff_eq, not_or] at hw
      obtain ⟨⟨⟨⟨⟨h₁, h₂⟩, h₃⟩, h₄⟩, h₅⟩, h₆⟩ := hw
      unfold write
      split
      · next hn => exact absurd (BitVec.eq_of_toNat_eq hn) h₁
      · next hn => exact absurd (BitVec.eq_of_toNat_eq hn) h₂
      · next hn => exact absurd (BitVec.eq_of_toNat_eq hn) h₃
      · next hn => exact absurd (BitVec.eq_of_toNat_eq hn) h₄
      · next hn => exact absurd (BitVec.eq_of_toNat_eq hn) h₅
      · next hn => exact absurd (BitVec.eq_of_toNat_eq hn) h₆
      · rfl
    rw [hid]

end CsrFile

/-! ## The two decoders -/

section

variable {inst : Word}

theorem csrWen_iff : (controlLogic inst).csrWen ↔ isCsr inst := by
  simp [controlLogic, isCsr, and_assoc]

/-- The operation on the CSR. -/
theorem written_eq (h : isCsr inst) (old x₁ : Word) :
    CsrFile.written (controlLogic inst).csrOp old
        (if (controlLogic inst).csrUseImm then (controlLogic inst).csrUimm.setWidth 32 else x₁) =
      csrResult inst old x₁ := by
  obtain ⟨ho, h₀, h₄⟩ := h
  have hop : (controlLogic inst).csrOp = (funct3 inst).extractLsb' 0 2 := by
    show inst.extractLsb' 12 2 = _
    ext k hk
    simp only [funct3, BitVec.getElem_extractLsb', BitVec.getLsbD_extractLsb']
    simp
    omega
  have himm : (controlLogic inst).csrUseImm = (funct3 inst).getLsbD 2 := by
    simp [controlLogic, ho, funct3]
  rw [hop, himm]
  unfold csrResult
  show CsrFile.written _ old (if _ then (rs1Field inst).setWidth 32 else x₁) = _
  revert h₀ h₄
  generalize funct3 inst = f
  generalize ((rs1Field inst).setWidth 32 : Word) = u
  intro h₀ h₄
  have hf : f = 1 ∨ f = 2 ∨ f = 3 ∨ f = 5 ∨ f = 6 ∨ f = 7 := by
    revert h₀ h₄
    revert f
    decide
  rcases hf with rfl | rfl | rfl | rfl | rfl | rfl <;> rfl

theorem isEcall_iff : isEcall inst ↔ opcode inst = 0b1110011 ∧ csrField inst = 0 := by
  simp [isEcall, isSystem, csrField]

theorem isMret_iff : isMret inst ↔ opcode inst = 0b1110011 ∧ csrField inst = 0x302 := by
  simp [isMret, isSystem, csrField]

end

namespace Core

variable {s : Core} {i : CoreInputs}

/-- What a CSR instruction does when it leaves EX: its register gets the old value, its CSR the new one,
    and the next instruction follows. -/
structure CsrDone (s : Core) (i : CoreInputs) : Prop where
  stays : (s.trap i).pcTrapOverride = false ∧ s.pcSel = false
  follows : successor s.idEx.pc s.idEx.inst s.idEx.compressed s.fwdRs1 s.fwdRs2 =
    s.idEx.pc + pcInc s.idEx.compressed
  leaves : s.nextExMem i = s.executed i
  rd : (s.executed i).regWen ∧ (s.executed i).wbSel = 0b01 ∧ (s.executed i).rd = rdField s.idEx.inst ∧
    (s.executed i).memRw = false
  old : (s.executed i).alu = s.csr.csrRdata (csrField s.idEx.inst) i.timerInterrupt i.intcIrqOut
  absent : CsrFile.implemented (csrField s.idEx.inst) = false → (s.executed i).alu = 0
  new : ∀ a t e, (s.nextCsr i).csrRdata a t e =
    if a = csrField s.idEx.inst ∧ CsrFile.writable a then
      csrResult s.idEx.inst (s.csr.csrRdata a t e) s.fwdRs1
    else s.csr.csrRdata a t e
  mstatus : csrField s.idEx.inst ≠ 0x300 → (s.nextCsr i).mstatus = s.csr.mstatus

/-- The instruction in EX moves on, and no interrupt comes in between. -/
structure InEx (s : Core) (i : CoreInputs) (inst : Word) : Prop where
  inst : s.idEx.inst = inst
  valid : s.idEx.valid
  decoded : s.idEx.IsDecoded
  rd : s.idEx.rd = rdField s.idEx.inst
  moves : s.globalMemStall i = false
  timer : s.timerFires i = false
  external : s.externalFires i = false

/-- A trap whose cause is that of a call is taken for what looks like one. -/
theorem isEcall_of_trapCause (ht : (s.trap i).trapTaken) (hc : (s.trap i).trapCause = 11) :
    isEcall s.idEx.inst := by
  revert ht hc
  unfold trap trapController
  grind [TrapController.redirect]

/-- What the trap controller does with an instruction of the opcode `SYSTEM`. -/
theorem InEx.trap_system {inst : Word} (h : s.InEx i inst) (ho : opcode inst = 0b1110011) :
    s.trap i =
      if isEcall inst then .redirect true 11 0 s.idEx.pc (isMret inst) s.csr.mtvec
      else if isMret inst then .redirect false 0 0 0 true s.csr.mepc
      else ⟨false, 0, 0, 0, false, false, false, false, false, 0⟩ := by
  have hill : s.idEx.ctl.illegalInst = false := by
    rw [h.decoded.ctl, h.inst]
    exact (controlLogic_system ho).2
  have hl : s.exMisalignLoad = false := by simp [exMisalignLoad, h.inst, ho]
  have hst : s.exMisalignStore = false := by simp [exMisalignStore, h.inst, ho]
  rw [trap, trapController, h.timer, h.external, h.moves, hill, hl, hst, h.inst]
  cases isEcall inst <;> cases isMret inst <;> simp [TrapController.redirect]

theorem InEx.csrDone {inst : Word} (h : s.InEx i inst) (hc : isCsr inst) (he : isEcall inst = false)
    (hm : isMret inst = false) : s.CsrDone i := by
  have ho := hc.1
  have htrap := h.trap_system ho
  rw [he, hm, if_neg Bool.false_ne_true, if_neg Bool.false_ne_true] at htrap
  have hwen : s.idEx.ctl.csrWen := by
    rw [h.decoded.ctl, h.inst]
    exact csrWen_iff.2 hc
  have hctl : s.idEx.ctl.toControl = rom 0 := by
    rw [h.decoded.ctl, h.inst]
    exact (controlLogic_system ho).1
  have hwb : s.idEx.ctl.wbSel = 0b01 := congrArg Control.wbSel hctl
  have hstall : s.stall = false := by simp [stall, idExMemRead, loadUseStall, hwb]
  have hold : (s.executed i).alu =
      s.csr.csrRdata (csrField s.idEx.inst) i.timerInterrupt i.intcIrqOut := by
    show s.actualExResult i = _
    rw [actualExResult, if_pos hwen]
    rfl
  have hnext : s.nextCsr i = s.csr.write (csrField s.idEx.inst) s.idEx.ctl.csrOp
      (if s.idEx.ctl.csrUseImm then s.idEx.ctl.csrUimm.setWidth 32 else s.fwdRs1) := by
    simp only [nextCsr, htrap, exCsrWen, hwen, h.moves, hstall]
    rfl
  have hnew : ∀ a t e, (s.nextCsr i).csrRdata a t e =
      if a = csrField s.idEx.inst ∧ CsrFile.writable a then
        csrResult s.idEx.inst (s.csr.csrRdata a t e) s.fwdRs1
      else s.csr.csrRdata a t e := by
    intro a t e
    rw [hnext, CsrFile.csrRdata_write, h.decoded.ctl, h.inst, written_eq hc]
  -- The fields in order: stays, follows, leaves, rd, absent, mstatus.
  refine ⟨⟨by rw [htrap], ?_⟩, ?_, ?_, ⟨?_, ?_, h.rd, ?_⟩, hold, fun ha => ?_, hnew, fun hne => ?_⟩
  · simp [pcSel, idExIsJal, idExIsJalr, branchMispredicted, idExIsBranch, h.inst, ho]
  · simp [successor, h.inst, ho]
  · rw [nextExMem, h.moves, htrap]
    rfl
  · show s.idEx.ctl.regWen = true
    rw [hctl]
    rfl
  · exact hwb
  · show s.idEx.ctl.memRw = false
    rw [hctl]
    rfl
  · rw [hold]
    exact CsrFile.csrRdata_of_not_implemented _ ha _ _
  · have h300 := hnew 0x300 false false
    rw [if_neg fun h => hne h.1.symm] at h300
    exact h300

end Core

/-! ## Which words are recognised -/

/-- Both decoders read an instruction as it is meant: it is a call or a return only if it is the word
    for one, and a CSR instruction does what one does. -/
structure SystemExact (inst : Word) : Prop where
  ecall : ∀ (s : Core) (i : CoreInputs), s.idEx.inst = inst → (s.trap i).trapTaken →
    (s.trap i).trapCause = 11 →
    inst = ecallWord
  mret : ∀ (s : Core) (i : CoreInputs), s.idEx.inst = inst → (s.trap i).mretExec → inst = mretWord
  csr : isCsr inst → ∀ (s : Core) (i : CoreInputs), s.InEx i inst → s.CsrDone i

/-- The core out of reset, with an instruction in EX. -/
def coreInEx (inst : Word) : Core :=
  { resetCore with
    idEx :=
      { IdEx.clear with
        rd := rdField inst, imm := immgen inst (controlLogic inst).immSel, inst, ctl := controlLogic inst
        valid := true } }

theorem inEx_coreInEx {inst : Word} (ho : opcode inst = 0b1110011) :
    (coreInEx inst).InEx .ready inst := by
  have hmie : (coreInEx inst).csr.mstatusMie = false := (by decide : resetCore.csr.mstatusMie = false)
  refine ⟨rfl, rfl, ⟨rfl, rfl⟩, rfl, ?_, by simp [Core.timerFires, hmie],
    by simp [Core.externalFires, hmie]⟩
  have hctl := (controlLogic_system ho).1
  have hdiv : (coreInEx inst).isDivOp = false := by
    show ((controlLogic inst).aluSel.extractLsb' 2 3 == _) = false
    rw [hctl]
    rfl
  have hd : (coreInEx inst).divStall = false := by rw [Core.divStall, hdiv]; rfl
  have hm : resetCore.globalMemStall .ready = false := by decide
  rw [Core.globalMemStall] at hm ⊢
  rwa [hd]

/-- The two decoders agree on all words but those with the opcode `SYSTEM` whose upper bits are those of
    `ECALL` or of `MRET` while the rest is not. -/
theorem systemExact_iff (inst : Word) :
    SystemExact inst ↔
      ¬(opcode inst = 0b1110011 ∧
        (csrField inst = 0 ∧ inst ≠ ecallWord ∨ csrField inst = 0x302 ∧ inst ≠ mretWord)) := by
  refine ⟨?_, fun hn => ⟨?_, ?_, ?_⟩⟩
  · -- A word that only looks like ECALL or MRET is taken for it in the state set up here.
    rintro h ⟨ho, ⟨hf, hne⟩ | ⟨hf, hne⟩⟩
    · have ht := (inEx_coreInEx ho).trap_system ho
      rw [if_pos (isEcall_iff.2 ⟨ho, hf⟩)] at ht
      exact hne (h.ecall (coreInEx inst) .ready rfl (by rw [ht]; rfl) (by rw [ht]; rfl))
    · have ht := (inEx_coreInEx ho).trap_system ho
      have he : isEcall inst = false := by
        refine Bool.eq_false_iff.2 fun he => ?_
        rw [(isEcall_iff.1 he).2] at hf
        exact absurd hf (by decide)
      rw [he, isMret_iff.2 ⟨ho, hf⟩, if_neg Bool.false_ne_true, if_pos rfl] at ht
      exact hne (h.mret (coreInEx inst) .ready rfl (by rw [ht]; rfl))
  · -- Conversely a trap with the cause of ECALL, or an MRET, comes from the upper bits.
    rintro s i rfl ht hc
    by_contra hne
    obtain ⟨ho, hf⟩ := isEcall_iff.1 (Core.isEcall_of_trapCause ht hc)
    exact hn ⟨ho, .inl ⟨hf, hne⟩⟩
  · rintro s i rfl hm
    by_contra hne
    rw [Core.trap_mretExec, Bool.and_eq_true] at hm
    obtain ⟨ho, hf⟩ := isMret_iff.1 hm.1
    exact hn ⟨ho, .inr ⟨hf, hne⟩⟩
  · intro hc s i h
    have hword : ∀ w, inst = w → ¬isCsr w → False := by
      rintro w rfl hw
      exact hw hc
    refine h.csrDone hc (Bool.eq_false_iff.2 fun he => ?_) (Bool.eq_false_iff.2 fun hm => ?_)
    · obtain ⟨ho, hf⟩ := isEcall_iff.1 he
      exact hn ⟨ho, .inl ⟨hf, fun hw => hword _ hw (by decide)⟩⟩
    · obtain ⟨ho, hf⟩ := isMret_iff.1 hm
      exact hn ⟨ho, .inr ⟨hf, fun hw => hword _ hw (by decide)⟩⟩

/-- `csrrw x1, medeleg, x2` is taken for `mret`. -/
theorem csrrwMedeleg_mret : ¬∀ inst, SystemExact inst := by
  intro h
  have h' := (h 0x302110F3).mret (coreInEx 0x302110F3) .ready rfl (by decide +kernel)
  revert h'
  decide

end Rv32Soc
