import Rv32Soc.Core.Encoding
import Rv32Soc.Core.Hart
import Rv32Soc.Core.Traps

/-!
# EX against the hart

An instruction leaves EX on a cycle on which the pipeline moves: by then all older ones are
done, and EX has the operands that the hart has (`Core.Front`). The instruction then enters
MEM as the one that the hart executes next (`InFlight`), or control goes elsewhere as it does
in the hart.

* `Core.Front.executes`: an operand that is not used may be anything; the instruction is
  executed in a state that differs from the hart's in such registers only;
* `Core.Front.redirects`: a trap and `mret` do in the pipeline what they do in the hart;
* `Core.Front.enters`: all other instructions enter MEM.
-/

namespace Rv32Soc

open Riscv (Instr State)

/-! ## What the word at the program counter asks for -/

section

variable {w : Word}

theorem decode_muxedIfInst {ins : Instr} (h : Riscv.decodeFetched w = some ins) :
    Riscv.decode (muxedIfInst w) = some ins := by
  have hc : isCompressed (w.extractLsb' 0 16) ↔ w.extractLsb' 0 2 ≠ 0b11 := by
    rw [isCompressed, bne_iff_ne, extractLsb'_extractLsb' _ (by decide)]
    rfl
  rw [Riscv.decodeFetched] at h
  rw [muxedIfInst]
  split at h
  · next hq => rwa [if_neg fun h' => hc.1 h' hq]
  · next hq =>
    rw [if_pos (hc.2 hq)]
    exact decode_rvcExpand h

theorem decode_of_kind {ins : Instr} (h : kind w = .user ins) :
    Riscv.decode (muxedIfInst w) = some ins := by
  rw [kind] at h
  split at h
  · next hd =>
    cases h
    exact decode_muxedIfInst hd
  · split_ifs at h

theorem isCsr_of_kind (h : kind w = .csr) :
    isCsr (muxedIfInst w) ∧ csrField (muxedIfInst w) ≠ 0 ∧ csrField (muxedIfInst w) ≠ 0x302 := by
  rw [kind] at h
  split at h
  · cases h
  · split_ifs at h with _ _ _ _ hc
    exact hc

theorem inst_of_kind_nop (h : kind w = .nop) :
    muxedIfInst w = wfiWord ∨ opcode (muxedIfInst w) = 0b0001111 ∧ rdField (muxedIfInst w) = 0 := by
  rw [kind] at h
  split at h
  · cases h
  · split_ifs at h with _ _ _ hw _ ho hr
    · exact .inl hw
    · exact .inr ⟨ho, hr⟩

theorem inst_of_kind_ecall (h : kind w = .ecall) : muxedIfInst w = ecallWord := by
  rw [kind] at h
  split at h
  · cases h
  · split_ifs at h with _ he
    exact he

theorem inst_of_kind_mret (h : kind w = .mret) : muxedIfInst w = mretWord := by
  rw [kind] at h
  split at h
  · cases h
  · split_ifs at h with _ _ hm
    exact hm

/-- What does nothing is decoded as `add`. -/
theorem nop_of_kind (h : kind w = .nop) :
    (opcode (muxedIfInst w) = 0b1110011 ∨ opcode (muxedIfInst w) = 0b0001111) ∧
    isEcall (muxedIfInst w) = false ∧
      isMret (muxedIfInst w) = false ∧ (controlLogic (muxedIfInst w)).toControl = rom 0 ∧
      (controlLogic (muxedIfInst w)).illegalInst = false ∧
      (controlLogic (muxedIfInst w)).csrWen = false ∧
      rdField (muxedIfInst w) = 0 := by
  rcases inst_of_kind_nop h with hw | ⟨ho, hrd⟩
  · rw [hw]
    obtain ⟨hctl, hill⟩ := controlLogic_system (by decide : opcode wfiWord = 0b1110011)
    exact ⟨.inl (by decide), by decide, by decide, hctl, hill, by decide, by decide⟩
  · have h₅ : (muxedIfInst w).extractLsb' 2 5 = 0b00011 := by rw [extractLsb'_opcode, ho]; decide
    have hblank : ¬(muxedIfInst w = 0x00000000 ∨ muxedIfInst w = 0xFFFFFFFF) := by
      rintro (h0 | h0) <;> rw [h0] at ho <;> exact absurd ho (by decide)
    have hr : romDecoder (muxedIfInst w) = some 0 := by
      rw [romDecoder, if_neg hblank, if_neg (by rw [h₅]; decide), if_neg (by rw [h₅]; decide), if_pos h₅]
    refine ⟨.inr ho, ?_, ?_, ?_, ?_, ?_, hrd⟩
    · simp [isEcall, isSystem, ho]
    · simp [isMret, isSystem, ho]
    · simp only [controlLogic, hr]
      rfl
    · simp only [controlLogic, hr]
      rfl
    · simp [controlLogic, ho]

/-- The decoder marks what is illegal, unless it is lax. -/
theorem illegalInst_of_kind (h : kind w = .illegal) (hl : ¬Lax w) :
    (controlLogic (muxedIfInst w)).illegalInst ∧ isMret (muxedIfInst w) = false := by
  have hn : Riscv.decodeFetched w = none ∧ opcode (muxedIfInst w) ≠ 0b1110011 ∧
      opcode (muxedIfInst w) ≠ 0b0001111 := by
    rw [kind] at h
    split at h
    · cases h
    · next hd =>
      split_ifs at h with h₁ _ _ _ _ h₂
      exact ⟨hd, h₁, h₂⟩
  have hs : ¬(romDecoder (muxedIfInst w)).isSome :=
    fun hs => hl ((lax_iff w).1 ⟨hn.1, hn.2.2, hn.2.1, hs⟩)
  exact ⟨by simpa [controlLogic] using hs, Bool.eq_false_iff.2 fun hm => hn.2.1 (isMret_iff.1 hm).1⟩

/-- What looks like `mret` is. -/
theorem kind_of_isMret (hk : kind w ≠ .other) (hl : ¬Lax w) (hm : isMret (muxedIfInst w)) :
    kind w = .mret := by
  cases hw : kind w with
  | user ins => exact absurd (isMret_iff.1 hm).1 (encodes_of_decode (decode_of_kind hw)).system
  | csr => exact absurd (isMret_iff.1 hm).2 (isCsr_of_kind hw).2.2
  | nop => exact absurd (hm.symm.trans (nop_of_kind hw).2.2.1) (by decide)
  | ecall =>
    rw [inst_of_kind_ecall hw] at hm
    exact absurd hm (by decide)
  | mret => rfl
  | illegal => exact absurd (hm.symm.trans (illegalInst_of_kind hw hl).2) (by decide)
  | other => exact absurd hw hk

end

/-! ## Operands -/

namespace Core

variable {s : Core} {i : CoreInputs} {p : Predictor} {L : BitVec 16}

/-- ID/EX holds zero for `x0`, and the same for the same register: also where a field of the instruction
    that looks like one is none. -/
structure OperandsRead (s : Core) : Prop where
  zero₁ : s.idEx.valid → rs1Field s.idEx.inst = 0 → s.idEx.rs1 = 0
  zero₂ : s.idEx.valid → rs2Field s.idEx.inst = 0 → s.idEx.rs2 = 0
  same : s.idEx.valid → rs1Field s.idEx.inst = rs2Field s.idEx.inst → s.idEx.rs1 = s.idEx.rs2

theorem OperandsRead.next (h : s.OperandsRead) : (s.nextWith i p L).OperandsRead := by
  rcases s.nextIdEx_cases i with ⟨-, he⟩ | ⟨-, -, he⟩ | ⟨-, -, -, -, he⟩
  · exact ⟨by rw [nextWith_idEx, he]; exact h.zero₁, by rw [nextWith_idEx, he]; exact h.zero₂,
      by rw [nextWith_idEx, he]; exact h.same⟩
  · have hv : (s.nextWith i p L).idEx.valid = false := by rw [nextWith_idEx, he]; rfl
    have hn : ¬(s.nextWith i p L).idEx.valid := ne_true_of_eq_false hv
    exact ⟨fun h' => absurd h' hn, fun h' => absurd h' hn, fun h' => absurd h' hn⟩
  · have hzero : s.readData 0 = 0 := if_pos rfl
    refine ⟨?_, ?_, ?_⟩ <;> rw [nextWith_idEx, he] <;> intro _ hr
    · exact (congrArg s.readData hr).trans hzero
    · exact (congrArg s.readData hr).trans hzero
    · exact congrArg s.readData hr

theorem IsReset.operandsRead (h : s.IsReset) : s.OperandsRead := by
  have hv : s.idEx.valid = false := by
    obtain ⟨-, -, h₂, -⟩ := h
    rw [h₂]
    rfl
  have hn : ¬s.idEx.valid := ne_true_of_eq_false hv
  exact ⟨fun h' => absurd h' hn, fun h' => absurd h' hn, fun h' => absurd h' hn⟩

end Core

theorem operandsRead_of_reachable {STALL_WATCHDOG_LIMIT : BitVec 16} {s : Core}
    (h : (core STALL_WATCHDOG_LIMIT).Reachable s) : s.OperandsRead := by
  refine h.invariant (P := Core.OperandsRead) ?_ ?_
  · exact fun _ hs => Core.IsReset.operandsRead hs
  · exact fun _ _ hs _ => hs.next

namespace Core

variable {s : Core} {i : CoreInputs} {h : Hart}

theorem OperandsRead.fwdRs1_zero (hr : s.OperandsRead) (hv : s.idEx.valid)
    (h0 : rs1Field s.idEx.inst = 0) :
    s.fwdRs1 = 0 := by
  have hf : s.fwdA = .reg := by
    rw [fwdA, h0]
    simp only [forward]
    grind
  rw [fwdRs1, hf]
  exact hr.zero₁ hv h0

theorem OperandsRead.fwdRs2_zero (hr : s.OperandsRead) (hv : s.idEx.valid)
    (h0 : rs2Field s.idEx.inst = 0) :
    s.fwdRs2 = 0 := by
  have hf : s.fwdB = .reg := by
    rw [fwdB, h0]
    simp only [forward]
    grind
  rw [fwdRs2, hf]
  exact hr.zero₂ hv h0

theorem OperandsRead.fwdRs1_eq_fwdRs2 (hr : s.OperandsRead) (hv : s.idEx.valid)
    (he : rs1Field s.idEx.inst = rs2Field s.idEx.inst) : s.fwdRs1 = s.fwdRs2 := by
  rw [fwdRs1, fwdRs2, fwdA, fwdB, he, hr.same hv he]

end Core

/-! ## MEM -/

/-- The instruction in MEM writes `v` to the register `rd`, and accesses nothing. -/
structure ExMem.Computes (x : ExMem) (rd : BitVec 5) (v : Word) : Prop where
  regWen : x.regWen
  rd : x.rd = rd
  wbSel : x.wbSel = 0b01
  alu : x.alu = v
  memRw : x.memRw = false
  isLr : x.isLr = false
  isSc : x.isSc = false
  isAmo : x.isAmo = false

/-- The instruction in MEM is the one that the hart executes next. After it the CSRs are those of
    the third argument, and the program counter is the fourth. -/
inductive InFlight (x : ExMem) (h : Hart) : CsrFile → Word → Prop
  | user {ins : Instr} {a : State} {s : Core} {i : CoreInputs} (kind : kind h.word = .user ins)
      (aligned : ins.Aligned h.state) (agree : Riscv.Agree ins a h.state)
      (executes : s.Executes h.inst h.compressed a)
      (exMem : x = s.executed i) : InFlight x h h.csr (ins.exec h.len false h.state).pc
  | csr (timer external : Bool) (kind : kind h.word = .csr)
      (computes : x.Computes (rdField h.inst) (h.csr.csrRdata (csrField h.inst) timer external)) :
      InFlight x h (h.afterCsr timer external).csr (h.afterCsr timer external).state.pc
  | nop {v : Word} (kind : kind h.word = .nop) (computes : x.Computes 0 v) :
    InFlight x h h.csr h.skip.state.pc

theorem CsrFile.write_eq (s : CsrFile) (n : BitVec 12) (op : BitVec 2) (w : Word)
    (timer external : Bool) :
    s.write n op w = s.write n 0b01 (written op (s.csrRdata n timer external) w) := by
  unfold write csrRdata
  split <;> rename_i hn <;> simp [written, hn]

theorem csrResult_congr {inst old x y : Word} (hc : isCsr inst) (hx : readsRs1 inst → x = y) :
    csrResult inst old x = csrResult inst old y := by
  have hf : ∀ f : BitVec 3, f ≠ 0 → f ≠ 4 → f = 1 ∨ f = 2 ∨ f = 3 ∨ f = 5 ∨ f = 6 ∨
    f = 7 := by decide
  rw [readsRs1, hc.1] at hx
  unfold csrResult
  rcases hf _ hc.2.1 hc.2.2 with h | h | h | h | h | h <;> rw [h] at hx ⊢ <;> first | rfl | rw [hx rfl]

namespace Core

variable {s : Core} {i : CoreInputs} {h : Hart}

/-- EX holds the instruction that the hart executes next, with its operands, and the pipeline moves. -/
structure Front (s : Core) (i : CoreInputs) (h : Hart) : Prop where
  moves : s.globalMemStall i = false
  valid : s.idEx.valid
  decoded : s.idEx.IsDecoded
  rd : s.idEx.rd = rdField s.idEx.inst
  pc : s.idEx.pc = h.state.pc
  inst : s.idEx.inst = h.inst
  compressed : s.idEx.compressed = h.compressed
  even : IsEven h.state.pc
  rs1 : readsRs1 h.inst → s.fwdRs1 = h.state.get (rs1Field h.inst)
  rs2 : readsRs2 h.inst → s.fwdRs2 = h.state.get (rs2Field h.inst)
  read : s.OperandsRead
  div : s.Dividing
  csr : s.csr = h.csr

namespace Front

variable (F : s.Front i h)

include F

/-- The hart, with the operands of EX for all that looks like a register. -/
theorem executes {ins : Instr} (hk : kind h.word = .user ins) :
    ∃ a, s.Executes h.inst h.compressed a ∧ Riscv.Agree ins a h.state := by
  have hc := encodes_of_decode (decode_of_kind hk)
  have hread := F.read
  let a : State :=
    ⟨h.state.pc,
      fun r => if r = rs1Field h.inst then s.fwdRs1 else if r = rs2Field h.inst then s.fwdRs2
        else h.state.regs r,
      h.state.mem⟩
  have h₁ : s.fwdRs1 = a.get (rs1Field h.inst) := by
    rw [State.get]
    split
    · next h0 => exact hread.fwdRs1_zero F.valid (F.inst ▸ h0)
    · exact (if_pos rfl).symm
  have h₂ : s.fwdRs2 = a.get (rs2Field h.inst) := by
    rw [State.get]
    split
    · next h0 => exact hread.fwdRs2_zero F.valid (F.inst ▸ h0)
    · show _ = if _ then _ else _
      split
      · next he => exact (hread.fwdRs1_eq_fwdRs2 F.valid (by rw [F.inst]; exact he.symm)).symm
      · exact (if_pos rfl).symm
  have hdiv : s.isDivOp →
      (s.div.quotient, s.div.remainder) = DivUnit.result s.aluA s.aluB (!s.idEx.ctl.aluSel.getLsbD 0) :=
    fun hd => (F.div.holds (divResultReady_of_leaves F.moves hd)).symm ▸ rfl
  refine ⟨a, ⟨F.inst, F.decoded, F.rd, F.compressed, F.pc, h₁, h₂, hdiv⟩, rfl, rfl, fun r hr => ?_⟩
  rcases hc.sources r hr with ⟨rfl, hreads⟩ | ⟨rfl, hreads⟩
  · exact h₁.symm.trans (F.rs1 hreads)
  · exact h₂.symm.trans (F.rs2 hreads)

/-! ### Where control goes elsewhere -/

theorem decoded_eq : s.idEx.ctl = controlLogic h.inst := by rw [F.decoded.ctl, F.inst]

/-- Only what accesses memory can be misaligned. -/
theorem aligned_of_opcode (ho : opcode h.inst = 0b1110011 ∨ opcode h.inst = 0b0001111) :
    s.exMisalignLoad = false ∧ s.exMisalignStore = false := by
  rw [exMisalignLoad, exMisalignStore, F.inst]
  rcases ho with ho | ho <;>
  · rw [ho]
    exact ⟨rfl, rfl⟩

theorem not_atomic (ho : opcode h.inst = 0b1110011 ∨ opcode h.inst = 0b0001111) :
    s.idEx.ctl.isLr = false ∧ s.idEx.ctl.isSc = false ∧ s.idEx.ctl.isAmo = false := by
  rw [F.decoded_eq]
  rcases ho with ho | ho <;> simp [controlLogic, ho]

/-- EX finds the exceptions that the hart raises. -/
theorem exception_eq (hk : kind h.word ≠ .other) (hl : ¬Lax h.word) :
    h.exception =
      if s.idEx.ctl.illegalInst then some (2, h.inst)
      else if s.exMisalignLoad || s.exMisalignStore then some (if s.exMisalignLoad then 4 else 6,
        s.redirectTargetAdder)
      else if isEcall h.inst then some (11, 0) else none := by
  rw [F.decoded_eq, Hart.exception]
  cases hw : kind h.word with
  | user ins =>
    -- A load or store faults by its address, any other instruction of the ISA does not.
    obtain ⟨a, E, hag⟩ := F.executes hw
    have hi : Riscv.decode h.inst = some ins := decode_of_kind hw
    have hc := encodes_of_decode hi
    have hecall : isEcall h.inst = false := Bool.eq_false_iff.2 fun he => hc.system (isEcall_iff.1 he).1
    rw [hc.legal, hecall, if_neg Bool.false_ne_true, if_neg Bool.false_ne_true]
    dsimp only
    rw [← Riscv.Instr.access_congr hag]
    cases hx : ins.access a with
    | none =>
      obtain ⟨hl, hs⟩ := E.aligned_of_access hi hx
      rw [hl, hs]
      rfl
    | some x =>
      obtain ⟨x, n⟩ := x
      have hA := E.addresses (i := i) hi hx
      rw [hA.load, hA.store, hA.target]
      by_cases h0 : x.toNat % n = 0 <;> cases ins.isLoad <;> simp [h0]
  | csr =>
    obtain ⟨hc, h₀, -⟩ := isCsr_of_kind hw
    obtain ⟨hl, hs⟩ := F.aligned_of_opcode (.inl hc.1)
    have hecall : isEcall h.inst = false := Bool.eq_false_iff.2 fun he => h₀ (isEcall_iff.1 he).2
    rw [(controlLogic_system (show opcode h.inst = 0b1110011 from hc.1)).2, hl, hs, hecall]
    rfl
  | nop =>
    -- FENCE and WFI: nothing is decoded for them that could trap.
    obtain ⟨ho, he, -, -, hill, -⟩ := nop_of_kind hw
    obtain ⟨hl, hs⟩ := F.aligned_of_opcode ho
    rw [show (controlLogic h.inst).illegalInst = false from hill, hl, hs,
      show isEcall h.inst = false from he]
    rfl
  | ecall =>
    have hinst : h.inst = ecallWord := inst_of_kind_ecall hw
    obtain ⟨hl, hs⟩ := F.aligned_of_opcode (.inl (by rw [hinst]; decide))
    rw [hl, hs, hinst]
    rfl
  | mret =>
    have hinst : h.inst = mretWord := inst_of_kind_mret hw
    obtain ⟨hl, hs⟩ := F.aligned_of_opcode (.inl (by rw [hinst]; decide))
    rw [hl, hs, hinst]
    rfl
  | illegal =>
    -- The control logic has the same illegal words, but for the lax ones.
    rw [show (controlLogic h.inst).illegalInst = true from (illegalInst_of_kind hw hl).1]
    rfl
  | other => exact absurd hw hk

/-- What the trap controller asks for. -/
theorem trap_eq (hk : kind h.word ≠ .other) (hl : ¬Lax h.word) :
    s.trap i =
      if (s.timerFires i || s.externalFires i) && !isMret h.inst then
        .redirect true (if s.externalFires i then 0x8000000B
          else 0x80000007) 0 h.state.pc (isMret h.inst) h.csr.mtvec
      else
        match h.exception with
        | some x => .redirect true x.1 x.2 h.state.pc (isMret h.inst) h.csr.mtvec
        | none =>
          if isMret h.inst then .redirect false 0 0 0 true h.csr.mepc
          else ⟨false, 0, 0, 0, false, false, false, false, false, 0⟩ := by
  rw [F.exception_eq hk hl, trap, trapController, F.moves, F.valid, F.pc, F.inst, F.csr]
  cases (s.timerFires i || s.externalFires i) && !isMret h.inst
  · cases s.idEx.ctl.illegalInst
    · cases s.exMisalignLoad <;> cases s.exMisalignStore <;> cases isEcall h.inst <;>
        cases isMret h.inst <;> rfl
    · simp
  · simp

/-- An interrupt that is taken is pending and enabled. -/
theorem interrupt_eq (hf : s.timerFires i || s.externalFires i) :
    h.interrupt i.timerInterrupt i.intcIrqOut = some (if s.externalFires i then 0x8000000B
      else 0x80000007) := by
  have hst : s.stall = false := by
    rcases Bool.or_eq_true_iff.1 hf with hf | hf <;>
    · simp only [timerFires, externalFires, Bool.and_eq_true, Bool.not_eq_true'] at hf
      exact hf.2
  have ht : s.timerFires i = (h.csr.mstatusMie && h.csr.mieMtie && i.timerInterrupt) := by
    simp [timerFires, F.valid, F.moves, hst, F.csr]
  have he : s.externalFires i = (h.csr.mstatusMie && h.csr.mieMeie && i.intcIrqOut) := by
    simp [externalFires, F.valid, F.moves, hst, F.csr]
  rw [ht, he] at hf
  rw [Hart.interrupt, he]
  cases hx : h.csr.mstatusMie && h.csr.mieMeie && i.intcIrqOut
  · rw [hx, Bool.or_false] at hf
    rw [if_neg Bool.false_ne_true, if_pos hf]
    rfl
  · rfl

/-- Control goes where it goes in the hart, with the CSRs that it has then. -/
theorem redirects (hk : kind h.word ≠ .other) (hl : ¬Lax h.word) (ht : (s.trap i).pcTrapOverride) :
    ∃ h', Hart.Redirects i.timerInterrupt i.intcIrqOut h h' ∧ (s.trap i).trapTargetPc = h'.state.pc ∧
      s.nextCsr i = h'.csr ∧ h'.reserved = if (s.trap i).trapTaken then none else h.reserved := by
  have htrap := F.trap_eq hk hl
  by_cases hf : (s.timerFires i || s.externalFires i) && !isMret h.inst
  · rw [if_pos hf] at htrap
    rw [Bool.and_eq_true] at hf
    refine ⟨_, .interrupt (F.interrupt_eq hf.1), by rw [htrap]; rfl, ?_, by rw [htrap]; rfl⟩
    rw [nextCsr, htrap, F.csr]
    rfl
  · rw [if_neg hf] at htrap
    cases hx : h.exception with
    | some x =>
      rw [hx] at htrap
      refine ⟨_, .exception hx, by rw [htrap]; rfl, ?_, by rw [htrap]; rfl⟩
      rw [nextCsr, htrap, F.csr]
      rfl
    | none =>
      rw [hx] at htrap
      by_cases hm : isMret h.inst
      · rw [if_pos hm] at htrap
        refine ⟨_, .mret (kind_of_isMret hk hl hm), by rw [htrap]; rfl, ?_, by rw [htrap]; rfl⟩
        rw [nextCsr, htrap, F.csr]
        rfl
      · rw [if_neg hm] at htrap
        rw [htrap] at ht
        cases ht

/-! ### What enters MEM -/

/-- The instruction in EX is one that goes on. -/
theorem goes_on (hk : kind h.word ≠ .other) (hl : ¬Lax h.word) (ht : (s.trap i).pcTrapOverride = false) :
    h.exception = none ∧ isMret h.inst = false ∧ s.timerFires i = false ∧ s.externalFires i = false := by
  have htrap := F.trap_eq hk hl
  by_cases hf : (s.timerFires i || s.externalFires i) && !isMret h.inst
  · rw [htrap, if_pos hf] at ht
    cases ht
  · rw [if_neg hf] at htrap
    cases hx : h.exception with
    | some x =>
      rw [htrap, hx] at ht
      cases ht
    | none =>
      cases hm : isMret h.inst
      · rw [hm] at hf
        simpa using hf
      · rw [htrap, hx, hm] at ht
        cases ht

/-- Only the CSR instructions touch the CSRs. -/
theorem nextCsr_of_csrWen (ht : (s.trap i).pcTrapOverride = false) (hc : s.idEx.ctl.csrWen = false) :
    s.nextCsr i = h.csr := by
  rw [trap_pcTrapOverride, Bool.or_eq_false_iff] at ht
  simp [nextCsr, ht.1, ht.2, exCsrWen, hc, F.csr]

/-- A user instruction has its effect, since its access is aligned. -/
theorem enters_user {ins : Instr} (hw : kind h.word = .user ins) (hx : h.exception = none)
    (ht : (s.trap i).pcTrapOverride = false) :
    InFlight (s.executed i) h (s.nextCsr i)
      (successor s.idEx.pc s.idEx.inst s.idEx.compressed s.fwdRs1 s.fwdRs2) := by
  obtain ⟨a, E, hag⟩ := F.executes hw
  have hi : Riscv.decode h.inst = some ins := decode_of_kind hw
  have hc := encodes_of_decode hi
  have hal : ins.Aligned h.state := by
    intro x n hacc
    rw [Hart.exception, hw] at hx
    dsimp only at hx
    rw [hacc] at hx
    dsimp only at hx
    by_contra hne
    rw [if_neg hne] at hx
    cases hx
  have he : IsEven a.pc := hag.pc ▸ F.even
  have heff : s.Effect i false a (ins.exec h.len false a) :=
    effect_of_decode E hi he ((Riscv.Instr.aligned_congr hag).2 hal)
  have hnext : successor s.idEx.pc s.idEx.inst s.idEx.compressed s.fwdRs1 s.fwdRs2 =
      (ins.exec h.len false h.state).pc := by
    rw [← exRedirectTarget_eq F.decoded (by rw [F.decoded_eq, hc.legal]) (F.pc ▸ F.even), heff.pc]
    exact (Riscv.Instr.exec_congr hag).1
  rw [hnext, F.nextCsr_of_csrWen ht]
  · exact .user hw hal hag E rfl
  · rw [F.decoded_eq, Bool.eq_false_iff]
    exact fun h' => hc.system (opcode_of_csrWen h')

/-- A CSR instruction takes the old value along, and leaves the new one behind in EX. -/
theorem enters_csr (hw : kind h.word = .csr) (hm : isMret h.inst = false)
    (htimer : s.timerFires i = false)
    (hext : s.externalFires i = false) (ht : (s.trap i).pcTrapOverride = false) :
    InFlight (s.executed i) h (s.nextCsr i)
      (successor s.idEx.pc s.idEx.inst s.idEx.compressed s.fwdRs1 s.fwdRs2) := by
  obtain ⟨hc, h₀, -⟩ := isCsr_of_kind hw
  have hecall : isEcall h.inst = false := Bool.eq_false_iff.2 fun he => h₀ (isEcall_iff.1 he).2
  have hin : s.InEx i h.inst := ⟨F.inst, F.valid, F.decoded, F.rd, F.moves, htimer, hext⟩
  have D := hin.csrDone hc hecall hm
  have hwen : s.idEx.ctl.csrWen := by
    rw [F.decoded_eq]
    exact csrWen_iff.2 hc
  have hctl : s.idEx.ctl.toControl = rom 0 := by
    rw [F.decoded_eq]
    exact (controlLogic_system hc.1).1
  -- A CSR instruction is no load, so nothing waits for it and the write is on the same edge.
  have hstall : s.stall = false := by
    simp [stall, idExMemRead, loadUseStall, show s.idEx.ctl.wbSel = 0b01 from
      congrArg Control.wbSel hctl]
  have hnext : s.nextCsr i = (h.afterCsr i.timerInterrupt i.intcIrqOut).csr := by
    rw [trap_pcTrapOverride, Bool.or_eq_false_iff] at ht
    have hc' : isCsr h.inst := hc
    rw [nextCsr, ht.1, ht.2, exCsrWen, hwen, F.moves, hstall, if_neg Bool.false_ne_true,
      if_neg Bool.false_ne_true,
      if_pos (by rfl), CsrFile.write_eq _ _ _ _ i.timerInterrupt i.intcIrqOut,
      F.decoded_eq, F.inst, F.csr, written_eq hc', csrResult_congr hc' F.rs1]
    rfl
  have hatomic := F.not_atomic (.inl hc.1)
  rw [D.follows, hnext, F.pc, F.compressed]
  refine .csr _ _ hw ⟨D.rd.1, ?_, D.rd.2.1, ?_, D.rd.2.2.2, hatomic.1, hatomic.2.1, hatomic.2.2⟩
  · rw [D.rd.2.2.1, F.inst]
  · rw [D.old, F.inst, F.csr]

/-- What is taken for a `nop` has the control word of `add`, with `x0` for its destination. -/
theorem enters_nop (hw : kind h.word = .nop) (ht : (s.trap i).pcTrapOverride = false) :
    InFlight (s.executed i) h (s.nextCsr i)
      (successor s.idEx.pc s.idEx.inst s.idEx.compressed s.fwdRs1 s.fwdRs2) := by
  obtain ⟨ho, -, -, hctl, -, hwen, hrd⟩ := nop_of_kind hw
  have hctl' : s.idEx.ctl.toControl = rom 0 := by rw [F.decoded_eq]; exact hctl
  have hatomic : s.idEx.ctl.isLr = false ∧ s.idEx.ctl.isSc = false ∧ s.idEx.ctl.isAmo = false :=
    F.not_atomic ho
  have hnext : successor s.idEx.pc s.idEx.inst s.idEx.compressed s.fwdRs1 s.fwdRs2 =
      h.skip.state.pc := by
    rw [successor_seq, F.pc, F.compressed]
    · rfl
    · rw [F.inst]
      rcases ho with ho | ho <;> rw [show opcode h.inst = _ from ho] <;> decide
  rw [hnext, F.nextCsr_of_csrWen ht (by rw [F.decoded_eq]; exact hwen)]
  refine .nop hw ⟨?_, ?_, ?_, rfl, ?_, hatomic.1, hatomic.2.1, hatomic.2.2⟩
  · exact (congrArg Control.regWen hctl').trans rfl
  · exact F.rd.trans ((congrArg rdField F.inst).trans hrd)
  · exact (congrArg Control.wbSel hctl').trans rfl
  · exact (congrArg Control.memRw hctl').trans rfl

/-- What is not redirected enters MEM, and leads to where it leads in the hart. -/
theorem enters (hk : kind h.word ≠ .other) (hl : ¬Lax h.word) (ht : (s.trap i).pcTrapOverride = false) :
    InFlight (s.executed i) h (s.nextCsr i)
      (successor s.idEx.pc s.idEx.inst s.idEx.compressed s.fwdRs1 s.fwdRs2) := by
  obtain ⟨hx, hm, htimer, hext⟩ := F.goes_on hk hl ht
  cases hw : kind h.word with
  | user ins => exact F.enters_user hw hx ht
  | csr => exact F.enters_csr hw hm htimer hext ht
  | nop => exact F.enters_nop hw ht
  | ecall =>
    rw [Hart.exception, hw] at hx
    cases hx
  | mret =>
    rw [show h.inst = mretWord from inst_of_kind_mret hw] at hm
    cases hm
  | illegal =>
    rw [Hart.exception, hw] at hx
    cases hx
  | other => exact absurd hw hk

end Front

end Core

end Rv32Soc
