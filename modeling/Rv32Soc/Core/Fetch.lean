import Rv32Soc.Core.Isa

/-!
# The path of a program

Fetch runs ahead on guesses: the pattern history table for branches, the return
address stack for `jalr`. Every guess goes with its instruction (`Slot`) and is
compared in EX with what the instruction does, so that the instructions that leave
EX are those of the program, whatever the predictor holds.

* `Core.slotNext_eq`, `Core.exRedirectTarget_eq`: without a redirection the guess of
  EX was right, and with one fetch goes on at the right address;
* `Core.Guided`, `Core.OnPath`: every stage holds the instruction at the address that the stage
  before EX guesses;
* `Quiet`: the conditions of a run, up to a cycle;
* `path_of_isRun`: an instruction leaves EX at the address that the instructions before
  it lead to.
-/

namespace Rv32Soc

/-! ## Even addresses -/

def IsEven (a : Word) : Prop := a.getLsbD 0 = false

instance : DecidablePred IsEven := fun a => inferInstanceAs (Decidable (a.getLsbD 0 = false))

theorem IsEven.add {a b : Word} (ha : IsEven a) (hb : IsEven b) : IsEven (a + b) := by
  unfold IsEven at *
  rw [BitVec.getLsbD_add (by decide), ha, hb, BitVec.carry_zero]
  rfl

theorem isEven_and (a : Word) : IsEven (a &&& 0xFFFFFFFE) := by
  rw [IsEven, BitVec.getLsbD_and]
  exact Bool.and_false _

theorem IsEven.and_eq {a : Word} (h : IsEven a) : a &&& 0xFFFFFFFE = a := by
  have hm : ∀ i < 32, i ≠ 0 → (0xFFFFFFFE : Word).getLsbD i = true := by decide
  refine BitVec.eq_of_getLsbD_eq fun i hi => ?_
  rw [BitVec.getLsbD_and]
  by_cases h₀ : i = 0
  · rw [h₀, h]
    rfl
  · rw [hm i hi h₀, Bool.and_true]

theorem isEven_pcInc (compressed : Bool) : IsEven (pcInc compressed) := by
  cases compressed <;> rfl

theorem isEven_immB (inst : Word) : IsEven (immB inst) := by
  rw [IsEven, immB, BitVec.getLsbD_signExtend, BitVec.getLsbD_append]
  rfl

theorem isEven_immJ (inst : Word) : IsEven (immJ inst) := by
  rw [IsEven, immJ, BitVec.getLsbD_signExtend, BitVec.getLsbD_append]
  rfl

/-! ## Guesses -/

/-- An instruction on its way to EX, with the guess that fetch made of what comes after it. -/
structure Slot where
  pc : Word
  inst : Word
  compressed : Bool
  predictedTaken : Bool
  predictedTarget : Word

/-- Where fetch went after the instruction. -/
def Slot.next (s : Slot) : Word := if s.predictedTaken then s.predictedTarget
    else s.pc + pcInc s.compressed

def IfId.slot (s : IfId) : Slot := ⟨s.pc, s.inst, s.compressed, s.predictedTaken, s.predictedTarget⟩
def IdEx.slot (s : IdEx) : Slot := ⟨s.pc, s.inst, s.compressed, s.predictedTaken, s.predictedTarget⟩

/-- The instruction is the one in memory, and a guess was made only of a jump or a branch: of all
    but `jalr` it can only have been the right target. -/
structure Slot.Fetched (m : Mem) (s : Slot) : Prop where
  even : IsEven s.pc
  inst : s.inst = muxedIfInst (m.fetchWord s.pc)
  compressed : s.compressed = isCompressed (m.half s.pc)
  target : s.predictedTaken → IsEven s.predictedTarget
  jump : s.predictedTaken → opcode s.inst = 0b1100011 ∨ opcode s.inst = 0b1101111 ∨
    opcode s.inst = 0b1100111
  branch : s.predictedTaken → opcode s.inst = 0b1100011 → s.predictedTarget = s.pc + immB s.inst
  jal : s.predictedTaken → opcode s.inst = 0b1101111 → s.predictedTarget = s.pc + immJ s.inst

theorem Slot.Fetched.even_next {m : Mem} {s : Slot} (h : s.Fetched m) : IsEven s.next := by
  unfold Slot.next
  split
  · next ht => exact h.target ht
  · exact h.even.add (isEven_pcInc _)

/-! ## EX -/

namespace Core

variable {s : Core} {i : CoreInputs}

/-- The target of a jump, and of a branch if it is taken. -/
theorem redirectTargetAdder_jal (h : s.idEx.IsDecoded) (ho : opcode s.idEx.inst = 0b1101111) :
    s.redirectTargetAdder = s.idEx.pc + immJ s.idEx.inst := by
  obtain ⟨-, ha, hb, hi⟩ := controlLogic_jal ho
  rw [redirectTargetAdder, aluA, aluB, h.ctl, h.imm, ha, hb, hi]
  rfl

theorem redirectTargetAdder_jalr (h : s.idEx.IsDecoded) (hl : s.idEx.ctl.illegalInst = false)
    (ho : opcode s.idEx.inst = 0b1100111) : s.redirectTargetAdder = s.fwdRs1 + immI s.idEx.inst := by
  rw [h.ctl] at hl
  obtain ⟨ha, hb, hi⟩ := (controlLogic_jalr ho).2 hl
  rw [redirectTargetAdder, aluA, aluB, h.ctl, h.imm, ha, hb, hi]
  rfl

theorem redirectTargetAdder_branch (h : s.idEx.IsDecoded) (hl : s.idEx.ctl.illegalInst = false)
    (ho : opcode s.idEx.inst = 0b1100011) : s.redirectTargetAdder = s.idEx.pc + immB s.idEx.inst := by
  rw [h.ctl] at hl
  obtain ⟨ha, hb, hi⟩ := (controlLogic_branch ho).2 hl
  rw [redirectTargetAdder, aluA, aluB, h.ctl, h.imm, ha, hb, hi]
  rfl

theorem branchActualTaken_eq :
    s.branchActualTaken =
      (opcode s.idEx.inst == 0b1100011 && branchTaken s.idEx.inst s.fwdRs1 s.fwdRs2) := by
  have hun : s.idEx.inst.getLsbD 13 = (funct3 s.idEx.inst).getLsbD 1 := by simp [funct3]
  have hf : ∀ f : BitVec 3, f = 0 ∨ f = 1 ∨ f = 2 ∨ f = 3 ∨ f = 4 ∨ f = 5 ∨ f = 6 ∨
    f = 7 := by decide
  unfold branchActualTaken branchTaken idExIsBranch
  rw [hun]
  generalize funct3 s.idEx.inst = f
  rcases hf f with rfl | rfl | rfl | rfl | rfl | rfl | rfl | rfl <;> rfl

/-- Without a redirection fetch has gone where the instruction in EX leads. -/
theorem slotNext_eq {m : Mem} (h : s.idEx.IsDecoded) (hl : s.idEx.ctl.illegalInst = false)
    (hf : s.idEx.slot.Fetched m) (hp : s.pcSel = false) :
    s.idEx.slot.next = successor s.idEx.pc s.idEx.inst s.idEx.compressed s.fwdRs1 s.fwdRs2 := by
  simp only [pcSel, Bool.or_eq_false_iff, Bool.and_eq_false_imp, idExIsJal, idExIsJalr,
    branchMispredicted, idExIsBranch, jalrRasMispredicted, beq_iff_eq] at hp
  obtain ⟨⟨hjal, hjalr⟩, hbr⟩ := hp
  show (if s.idEx.predictedTaken then s.idEx.predictedTarget
    else s.idEx.pc + pcInc s.idEx.compressed) = _
  unfold successor
  -- `jal`: its target is exact, so a prediction is right when there is one.
  by_cases ho : opcode s.idEx.inst = 0b1101111
  · have ht : s.idEx.predictedTaken := by simpa using hjal ho
    rw [if_pos ho, if_pos ht]
    exact (hf.jal ht ho).trans (hf.even.add (isEven_immJ _)).and_eq.symm
  -- `jalr`: the target predicted is compared with the adder.
  by_cases ho' : opcode s.idEx.inst = 0b1100111
  · have ht : s.idEx.predictedTaken := by simpa using (hjalr ho').1
    have hadd : s.redirectTargetAdder = s.idEx.predictedTarget := by
      simpa using (hjalr ho').2 (by rw [beq_iff_eq.2 ho', ht]; rfl)
    rw [if_neg ho, if_pos ho', if_pos ht, ← redirectTargetAdder_jalr h hl ho', hadd]
    exact (hf.target ht).and_eq.symm
  -- A branch: the direction is compared, and the target is exact.
  by_cases ho'' : opcode s.idEx.inst = 0b1100011
  · have hb : branchTaken s.idEx.inst s.fwdRs1 s.fwdRs2 = s.idEx.predictedTaken := by
      have := hbr ho''
      rw [branchActualTaken_eq, beq_iff_eq.2 ho''] at this
      simpa using this
    rw [if_neg ho, if_neg ho', hb]
    cases ht : s.idEx.predictedTaken
    · rw [if_neg Bool.false_ne_true, if_neg fun h' => Bool.false_ne_true h'.2]
    · rw [if_pos rfl, if_pos ⟨ho'', rfl⟩]
      exact (hf.branch ht ho'').trans (hf.even.add (isEven_immB _)).and_eq.symm
  · -- Nothing else is ever predicted taken.
    have ht : ¬s.idEx.predictedTaken := fun ht => by
      rcases hf.jump ht with h' | h' | h'
      · exact ho'' h'
      · exact ho h'
      · exact ho' h'
    rw [if_neg ht, if_neg ho, if_neg ho', if_neg fun h' => ho'' h'.1]

/-- A redirection goes there. -/
theorem exRedirectTarget_eq (h : s.idEx.IsDecoded) (hl : s.idEx.ctl.illegalInst = false)
    (he : IsEven s.idEx.pc) :
    s.exRedirectTarget = successor s.idEx.pc s.idEx.inst s.idEx.compressed s.fwdRs1 s.fwdRs2 := by
  unfold exRedirectTarget successor
  simp only [idExIsJal, idExIsJalr, branchActualTaken_eq, Bool.or_eq_true, Bool.and_eq_true, beq_iff_eq]
  by_cases ho : opcode s.idEx.inst = 0b1101111
  · rw [if_pos (.inl (.inl ho)), if_pos ho, redirectTargetAdder_jal h ho]
  by_cases ho' : opcode s.idEx.inst = 0b1100111
  · rw [if_pos (.inl (.inr ho')), if_neg ho, if_pos ho', redirectTargetAdder_jalr h hl ho']
  by_cases ho'' : opcode s.idEx.inst = 0b1100011 ∧ branchTaken s.idEx.inst s.fwdRs1 s.fwdRs2
  · rw [if_pos (.inr ho''), if_neg ho, if_neg ho', if_pos ho'', redirectTargetAdder_branch h hl ho''.1]
  · rw [if_neg (by tauto), if_neg ho, if_neg ho', if_neg ho'']
    exact (he.add (isEven_pcInc _)).and_eq

/-! ## IF -/

theorem extractLsb'_fetchWord (m : Mem) (a : Word) : (m.fetchWord a).extractLsb' 0 16 = m.half a := by
  refine BitVec.eq_of_getLsbD_eq fun k hk => ?_
  rw [BitVec.getLsbD_extractLsb', Mem.fetchWord, BitVec.getLsbD_append, Nat.zero_add, if_pos hk,
    decide_eq_true hk, Bool.true_and]

/-- The instruction in IF, when it moves on. -/
def ifSlot (s : Core) (i : CoreInputs) : Slot :=
  ⟨s.pc, muxedIfInst i.ifInst, ifCompressed i, s.ifPredictedTaken i, s.ifPredictedTarget i⟩

theorem fetched_ifSlot_of_isEven {m : Mem} (he : IsEven s.pc) (hf : i.ifInst = m.fetchWord s.pc)
    (ht : IsEven (s.ifPredictedTarget i)) : (s.ifSlot i).Fetched m where
  even := he
  inst := by
    show muxedIfInst i.ifInst = muxedIfInst (m.fetchWord s.pc)
    rw [hf]
  compressed := by
    show ifCompressed i = _
    rw [ifCompressed, hf, extractLsb'_fetchWord]
    rfl
  target _ := ht
  jump := by
    show s.ifPredictedTaken i → _
    unfold ifPredictedTaken ifRasHit ifRasPopPattern ifIsBranch ifIsJal ifIsJalr
    simp only [ifSlot]
    grind
  branch _ hb := by
    show s.ifPredictedTarget i = _
    have hb' : opcode (muxedIfInst i.ifInst) = 0b1100011 := hb
    have hh : s.ifRasHit i = false := by simp [ifRasHit, ifRasPopPattern, ifIsJalr, hb']
    rw [ifPredictedTarget, hh, if_neg Bool.false_ne_true, ifIsBranch, hb']
    rfl
  jal _ hj := by
    show s.ifPredictedTarget i = _
    have hj' : opcode (muxedIfInst i.ifInst) = 0b1101111 := hj
    have hh : s.ifRasHit i = false := by simp [ifRasHit, ifRasPopPattern, ifIsJalr, hj']
    rw [ifPredictedTarget, hh, if_neg Bool.false_ne_true, ifIsBranch, hj']
    rfl

theorem fetched_ifSlot {m : Mem} (he : IsEven s.pc) (hf : i.ifInst = m.fetchWord s.pc)
    (hr : ∀ k, IsEven (s.pred.rasStack k)) : (s.ifSlot i).Fetched m := by
  refine fetched_ifSlot_of_isEven he hf ?_
  unfold ifPredictedTarget
  split_ifs
  · exact hr _
  · exact he.add (isEven_immB _)
  · exact he.add (isEven_immJ _)

/-! ## The invariant -/

/-- The instruction to leave EX next is at `e`, and each stage holds the instruction that the
    one ahead of it was guessed to lead to. All that has been fetched is as `P` has it. -/
structure Guided (P : Slot → Prop) (s : Core) (e : Word) : Prop where
  even : IsEven e
  idEx : s.idEx.valid → P s.idEx.slot ∧ s.idEx.pc = e
  ifId : s.ifId.valid → P s.ifId.slot ∧ s.ifId.pc = if s.idEx.valid then s.idEx.slot.next else e
  pc : s.pc = if s.ifId.valid then s.ifId.slot.next else if s.idEx.valid then s.idEx.slot.next else e

theorem Guided.even_pc {P : Slot → Prop} {e : Word} (h : s.Guided P e)
    (hP : ∀ x, P x → ∃ m, x.Fetched m) :
    IsEven s.pc := by
  have heven : ∀ x, P x → IsEven x.next := fun x hx => (hP x hx).elim fun _ hm => hm.even_next
  rw [h.pc]
  split_ifs with h₁ h₂
  · exact heven _ (h.ifId h₁).1
  · exact heven _ (h.idEx h₂).1
  · exact h.even

theorem WellFormed.valid_of_pcSel (h : s.WellFormed) (hp : s.pcSel) : s.idEx.valid := by
  by_contra hv
  rw [(h.of_bubble (i := .ready) (Bool.eq_false_iff.2 hv)).2.1] at hp
  exact absurd hp (by decide)

/-- A jump or a branch in EX does not hold ID back. -/
theorem WellFormed.stall_of_pcSel (h : s.WellFormed) (hp : s.pcSel) : s.stall = false := by
  have hv := h.valid_of_pcSel hp
  have hm : s.idExMemRead = false := by
    have hj : opcode s.idEx.inst = 0b1101111 ∨ opcode s.idEx.inst = 0b1100111 ∨
        opcode s.idEx.inst = 0b1100011 := by
      unfold pcSel branchMispredicted idExIsJal idExIsJalr idExIsBranch at hp
      grind
    rw [idExMemRead, (h.idEx hv).ctl]
    rcases hj with hj | hj | hj
    · rw [(controlLogic_jal hj).1]
      rfl
    · rw [beq_false_of_ne (controlLogic_jalr hj).1, Bool.false_and]
    · rcases (controlLogic_branch hj).1 with hw | hw
      · rw [beq_false_of_ne hw, Bool.false_and]
      · rw [hw, Bool.and_false]
  simp [stall, loadUseStall, hm]

theorem cacheReady_of_leaves (hg : s.globalMemStall i = false) : i.cacheReady := by
  simp only [globalMemStall, imemStall, Bool.or_eq_false_iff] at hg
  simpa using hg.1.1.1.1.1.2

/-- The address after the instruction that leaves EX, if one does. -/
def successorEx (s : Core) (i : CoreInputs) (e : Word) : Word :=
  if s.leavesEx i then successor s.idEx.pc s.idEx.inst s.idEx.compressed s.fwdRs1 s.fwdRs2 else e

section

variable {P : Slot → Prop} {e : Word}

theorem Guided.next_frozen (h : s.Guided P e) (hg : s.globalMemStall i) (p : Predictor) (L : BitVec 16) :
    (s.nextWith i p L).Guided P (s.successorEx i e) := by
  have he : s.successorEx i e = e := by simp [successorEx, leavesEx, hg]
  have hid : (s.nextWith i p L).idEx = s.idEx := by simp [nextIdEx, hg]
  have hif : (s.nextWith i p L).ifId = s.ifId := by simp [nextIfId, hg]
  have hpc : (s.nextWith i p L).pc = s.pc := by simp [nextPc, hg]
  rw [he]
  exact ⟨h.even, by rw [hid]; exact h.idEx, by rw [hif, hid]; exact h.ifId,
    by rw [hpc, hif, hid]; exact h.pc⟩

/-- EX redirects fetch. -/
theorem Guided.next_redirect (h : s.Guided P e) (hP : ∀ x, P x → ∃ m, x.Fetched m) (hwf : s.WellFormed)
    (hg : s.globalMemStall i = false) (ht : (s.trap i).pcTrapOverride = false)
    (hp : s.pcSel) (p : Predictor)
    (L : BitVec 16) : (s.nextWith i p L).Guided P (s.successorEx i e) := by
  have hs := hwf.stall_of_pcSel hp
  have hv : s.idEx.valid := hwf.valid_of_pcSel hp
  have hl := illegalInst_of_leaves hv hg ht
  obtain ⟨m, hm⟩ := hP _ (h.idEx hv).1
  have he : s.successorEx i e = s.exRedirectTarget := by
    rw [successorEx, leavesEx, hv, hg, trap_flushEx, ht, exRedirectTarget_eq (hwf.idEx hv) hl hm.even]
    rfl
  have hid : (s.nextWith i p L).idEx = .clear := by simp [nextIdEx, hg, hp]
  have hif : (s.nextWith i p L).ifId = .clear := by simp [nextIfId, hg, hp]
  refine ⟨he ▸ isEven_and _, ?_, ?_, ?_⟩
  · exact fun hv => absurd hv (by rw [hid]; decide)
  · exact fun hv => absurd hv (by rw [hif]; decide)
  · rw [he, hid, hif, nextWith_pc, nextPc]
    simp [hs, hg, ht, hp, IfId.clear, IdEx.clear]

/-- The guess was right. -/
theorem Guided.next_ahead (h : s.Guided P e) (hP : ∀ x, P x → ∃ m, x.Fetched m) (hwf : s.WellFormed)
    (hg : s.globalMemStall i = false) (ht : (s.trap i).pcTrapOverride = false) (hp : s.pcSel = false)
    (hf : P (s.ifSlot i)) (p : Predictor) (L : BitVec 16) :
      (s.nextWith i p L).Guided P (s.successorEx i e) := by
  have he : (if s.idEx.valid then s.idEx.slot.next else e) = s.successorEx i e := by
    cases hv : s.idEx.valid
    · simp [successorEx, leavesEx, hv]
    · obtain ⟨m, hm⟩ := hP _ (h.idEx hv).1
      rw [if_pos rfl, slotNext_eq (hwf.idEx hv) (illegalInst_of_leaves hv hg ht) hm hp, successorEx,
        leavesEx, hv, hg, trap_flushEx, ht]
      rfl
  have heven : IsEven (s.successorEx i e) := by
    rw [← he]
    split
    · next hv =>
      obtain ⟨m, hm⟩ := hP _ (h.idEx hv).1
      exact hm.even_next
    · exact h.even
  have hpc := h.pc
  rw [he] at hpc
  -- A load-use stall puts a bubble into EX and holds what is behind it.
  cases hs : s.stall
  · have hid : (s.nextWith i p L).idEx = s.decoded := by simp [nextIdEx, hg, hp, hs, ht]
    have hif : (s.nextWith i p L).ifId.slot = s.ifSlot i ∧ (s.nextWith i p L).ifId.valid := by
      rw [nextWith_ifId]
      simp [nextIfId, hg, hp, hs, ht, IfId.slot, ifSlot]
    refine ⟨heven, ?_, fun _ => ⟨?_, ?_⟩, ?_⟩
    · rw [hid]
      exact fun hv => ⟨(h.ifId hv).1, (h.ifId hv).2.trans he⟩
    · rw [hif.1]
      exact hf
    · rw [hid]
      exact (congrArg Slot.pc hif.1).trans hpc
    · rw [hif.1, if_pos hif.2, nextWith_pc, nextPc]
      simp [hg, hp, hs, ht, Slot.next, ifSlot]
      rfl
  · have hid : (s.nextWith i p L).idEx = .clear := by simp [nextIdEx, hg, hs]
    have hif : (s.nextWith i p L).ifId = s.ifId := by simp [nextIfId, hg, hp, hs, ht]
    refine ⟨heven, fun hv => absurd hv (by rw [hid]; decide), ?_, ?_⟩
    · rw [hif, hid]
      exact fun hv => ⟨(h.ifId hv).1, (h.ifId hv).2.trans he⟩
    · rw [hif, hid, nextWith_pc, nextPc]
      simpa [hs, ht, IdEx.clear] using hpc

theorem Guided.next (h : s.Guided P e) (hP : ∀ x, P x → ∃ m, x.Fetched m) (hwf : s.WellFormed)
    (ht : (s.trap i).pcTrapOverride = false) (hf : i.cacheReady → P (s.ifSlot i)) (p : Predictor)
    (L : BitVec 16) :
    (s.nextWith i p L).Guided P (s.successorEx i e) := by
  cases hg : s.globalMemStall i
  · cases hp : s.pcSel
    · exact h.next_ahead hP hwf hg ht hp (hf (cacheReady_of_leaves hg)) p L
    · exact h.next_redirect hP hwf hg ht hp p L
  · exact h.next_frozen hg p L

end

/-- All that has been fetched is in the memory `m`. -/
structure OnPath (m : Mem) (s : Core) (e : Word) : Prop where
  even : IsEven e
  idEx : s.idEx.valid → s.idEx.slot.Fetched m ∧ s.idEx.pc = e
  ifId : s.ifId.valid →
    s.ifId.slot.Fetched m ∧ s.ifId.pc = if s.idEx.valid then s.idEx.slot.next else e
  pc : s.pc = if s.ifId.valid then s.ifId.slot.next else if s.idEx.valid then s.idEx.slot.next else e

theorem OnPath.next {m : Mem} {e : Word} (h : s.OnPath m e) (hwf : s.WellFormed)
    (ht : (s.trap i).pcTrapOverride = false) (hf : i.cacheReady → i.ifInst = m.fetchWord s.pc)
    (hr : ∀ k, IsEven (s.pred.rasStack k)) (p : Predictor) (L : BitVec 16) :
    (s.nextWith i p L).OnPath m (s.successorEx i e) := by
  have hP : ∀ x : Slot, x.Fetched m → ∃ m, x.Fetched m := fun _ hx => ⟨m, hx⟩
  have hguided : s.Guided (Slot.Fetched m) e := ⟨h.even, h.idEx, h.ifId, h.pc⟩
  obtain ⟨h₁, h₂, h₃, h₄⟩ :=
    hguided.next hP hwf ht (fun hc => fetched_ifSlot (hguided.even_pc hP) (hf hc) hr) p L
  exact ⟨h₁, h₂, h₃, h₄⟩

end Core

/-! ## Runs -/

/-- The instruction as the architecture sees it. -/
def Completed.retired (c : Completed) : Retired :=
  ⟨c.wb.pc, c.wb.inst, c.wb.compressed, if c.wb.regWen && c.wb.rd != 0 then c.wb.wbData else 0⟩

/-- Out of reset. -/
def Core.arch (s : Core) : Arch := ⟨Core.resetPc, s.regs, s.csr⟩

section

variable (m : Mem) (σ : ℕ → Core) (ι : ℕ → CoreInputs)

/-- The instructions that have completed before the cycle `n`, oldest first. -/
def retired (n : ℕ) : List Retired := (completed σ ι n).map Completed.retired

/-- The state that they lead to. -/
def archState (n : ℕ) : Arch := (σ 0).arch.afterAll (retired σ ι n)

/-- The state that they and the instruction in MEM lead to, as far as EX is concerned: what is
    loaded in MEM counts neither for the `pc` nor for the CSRs. -/
def frontState (n : ℕ) : Arch :=
  if (σ n).exMem.valid then
    (archState σ ι n).after ⟨(σ n).exMem.pc, (σ n).exMem.inst, (σ n).exMem.compressed, 0⟩
  else archState σ ι n

/-- Before the cycle `n`, the program that is fetched is the one in `m`, the return addresses are
    even, no trap is taken and no `mret` executed. -/
structure Quiet (n : ℕ) : Prop where
  fetch : ∀ k < n, (ι k).cacheReady → (ι k).ifInst = m.fetchWord (σ k).pc
  ras : ∀ k < n, ∀ j, IsEven ((σ k).pred.rasStack j)
  trap : ∀ k < n, ((σ k).trap (ι k)).trapTaken = false ∧ ((σ k).trap (ι k)).mretExec = false

end

section

variable {m : Mem} {STALL_WATCHDOG_LIMIT : BitVec 16} {σ : ℕ → Core} {ι : ℕ → CoreInputs}
  {π : ℕ → Predictor}

theorem Quiet.mono {k n : ℕ} (h : Quiet m σ ι n) (hk : k ≤ n) : Quiet m σ ι k :=
  ⟨fun j hj => h.fetch j (hj.trans_le hk), fun j hj => h.ras j (hj.trans_le hk),
    fun j hj => h.trap j (hj.trans_le hk)⟩

theorem Quiet.pcTrapOverride {k n : ℕ} (h : Quiet m σ ι n) (hk : k < n) :
    ((σ k).trap (ι k)).pcTrapOverride = false := by
  rw [Core.trap_pcTrapOverride, (h.trap k hk).1, (h.trap k hk).2]
  rfl

/-- What has completed is decoded as it is. -/
theorem writes_completed (h : (core STALL_WATCHDOG_LIMIT).IsRun σ fun n => (ι n, π n)) {n : ℕ}
    (hv : (σ n).exMem.valid) (r : BitVec 5) :
    ((σ n).accessed (ι n)).writes r = writesReg ((σ n).accessed (ι n)).inst r := by
  have hd := (wellFormed_of_reachable (h.reachable n)).exMem hv
  simp only [MemWb.writes, writesReg, Core.accessed, hd.regWen, hd.rd]

theorem archState_succ {n : ℕ} (hl : (σ n).leavesMem (ι n)) :
    archState σ ι (n + 1) = (archState σ ι n).after (Completed.retired ⟨(σ n).exMem,
      (σ n).accessed (ι n)⟩) := by
  rw [archState, retired, completed, if_pos hl, List.map_append]
  exact Arch.afterAll_append _ _ _

theorem archState_succ_of_not {n : ℕ} (hl : (σ n).leavesMem (ι n) = false) :
    archState σ ι (n + 1) = archState σ ι n := by
  rw [archState, retired, completed, hl]
  rfl

theorem result_of_writes {w : MemWb} {r : BitVec 5} (h : w.writes r) :
    (if w.regWen && w.rd != 0 then w.wbData else 0) = w.wbData := by
  refine if_pos ?_
  simp only [MemWb.writes, Bool.and_eq_true, beq_iff_eq] at h ⊢
  exact ⟨h.1.1, h.1.2 ▸ h.2⟩

theorem archState_regs (h : (core STALL_WATCHDOG_LIMIT).IsRun σ fun n => (ι n, π n)) (n : ℕ) :
    (archState σ ι n).regs = archRegs (σ 0).regs (completed σ ι n) := by
  induction n with
  | zero => rfl
  | succ n ih =>
    cases hl : (σ n).leavesMem (ι n)
    · rw [archState_succ_of_not hl, ih, completed, hl]
      rfl
    · have hv : (σ n).exMem.valid := by
        simp only [Core.leavesMem, Bool.and_eq_true] at hl
        exact hl.1
      rw [archState_succ hl, completed, if_pos hl, archRegs_append, ← ih]
      funext r
      simp only [Arch.after, Completed.retired, ← writes_completed h hv]
      cases hw : ((σ n).accessed (ι n)).writes r
      · rfl
      · exact result_of_writes hw

/-- When the pipeline moves, what is in MEM completes. -/
theorem archState_succ_eq_frontState {n : ℕ} (hg : (σ n).globalMemStall (ι n) = false) :
    (archState σ ι (n + 1)).pc = (frontState σ ι n).pc ∧
    (archState σ ι (n + 1)).csr = (frontState σ ι n).csr := by
  rw [frontState]
  cases hv : (σ n).exMem.valid
  · rw [archState_succ_of_not (by simp [Core.leavesMem, hv])]
    exact ⟨rfl, rfl⟩
  · rw [archState_succ (by simp [Core.leavesMem, hv, hg])]
    exact ⟨rfl, rfl⟩

/-- The registers that the instruction in EX reads, when it leaves. -/
theorem fwdRs1_eq_archState (h : (core STALL_WATCHDOG_LIMIT).IsRun σ fun n => (ι n, π n)) {n : ℕ}
    (hv : (σ n).idEx.valid) (hg : (σ n).globalMemStall (ι n) = false) (hr : readsRs1 (σ n).idEx.inst) :
    (σ n).fwdRs1 = (archState σ ι (n + 1)).regs (rs1Field (σ n).idEx.inst) := by
  rw [archState_regs h]
  exact fwdRs1_eq h hv hg hr

theorem fwdRs2_eq_archState (h : (core STALL_WATCHDOG_LIMIT).IsRun σ fun n => (ι n, π n)) {n : ℕ}
    (hv : (σ n).idEx.valid) (hg : (σ n).globalMemStall (ι n) = false) (hr : readsRs2 (σ n).idEx.inst) :
    (σ n).fwdRs2 = (archState σ ι (n + 1)).regs (rs2Field (σ n).idEx.inst) := by
  rw [archState_regs h]
  exact fwdRs2_eq h hv hg hr

theorem frontState_succ_frozen (h : (core STALL_WATCHDOG_LIMIT).IsRun σ fun n => (ι n, π n)) {n : ℕ}
    (hg : (σ n).globalMemStall (ι n)) : frontState σ ι (n + 1) = frontState σ ι n := by
  have he : (σ (n + 1)).exMem = (σ n).exMem := by
    rw [core_next h n]
    simp [Core.nextExMem, hg]
  rw [frontState, frontState, he, archState_succ_of_not (by simp [Core.leavesMem, hg])]

theorem frontState_succ (h : (core STALL_WATCHDOG_LIMIT).IsRun σ fun n => (ι n, π n)) {n : ℕ}
    (hg : (σ n).globalMemStall (ι n) = false) (ht : ((σ n).trap (ι n)).pcTrapOverride = false) :
    frontState σ ι (n + 1) =
      if (σ n).idEx.valid then
        (archState σ ι (n + 1)).after ⟨(σ n).idEx.pc, (σ n).idEx.inst, (σ n).idEx.compressed, 0⟩
      else archState σ ι (n + 1) := by
  have he : (σ (n + 1)).exMem = (σ n).executed (ι n) := by
    rw [core_next h n]
    simp [Core.nextExMem, hg, ht]
  rw [frontState, he]
  rfl

/-- The address that EX waits for, one cycle on. -/
theorem frontState_pc_succ (h : (core STALL_WATCHDOG_LIMIT).IsRun σ fun n => (ι n, π n)) {n : ℕ}
    (ht : ((σ n).trap (ι n)).pcTrapOverride = false) :
    (frontState σ ι (n + 1)).pc = (σ n).successorEx (ι n) (frontState σ ι n).pc := by
  cases hg : (σ n).globalMemStall (ι n)
  · rw [frontState_succ h hg ht, Core.successorEx, Core.leavesEx, hg, Core.trap_flushEx, ht]
    cases hv : (σ n).idEx.valid
    · exact (archState_succ_eq_frontState hg).1
    · exact successor_congr (fun hr => (fwdRs1_eq_archState h hv hg hr).symm)
        fun hr => (fwdRs2_eq_archState h hv hg hr).symm
  · rw [frontState_succ_frozen h hg]
    simp [Core.successorEx, Core.leavesEx, hg]

theorem onPath_of_isRun (h : (core STALL_WATCHDOG_LIMIT).IsRun σ fun n => (ι n, π n)) {n : ℕ}
    (hq : Quiet m σ ι n) : (σ n).OnPath m (frontState σ ι n).pc := by
  induction n with
  | zero =>
    obtain ⟨h₀, h₁, h₂, h₃, -⟩ := h.init
    have he : (frontState σ ι 0).pc = Core.resetPc := by
      rw [frontState, h₃]
      rfl
    rw [he]
    refine ⟨by decide, ?_, ?_, ?_⟩
    · rw [h₂]
      exact fun hv => absurd hv (by decide)
    · rw [h₁]
      exact fun hv => absurd hv (by decide)
    · rw [h₀, h₁, h₂]
      rfl
  | succ n ih =>
    have hn := n.lt_succ_self
    rw [frontState_pc_succ h (hq.pcTrapOverride hn), core_next h n]
    exact (ih (hq.mono hn.le)).next (wellFormed_of_reachable (h.reachable n)) (hq.pcTrapOverride hn)
      (hq.fetch n hn) (hq.ras n hn) _ _

/-- An instruction leaves EX at the address that all older instructions lead to, and is the one in
    memory there. -/
theorem path_of_isRun (h : (core STALL_WATCHDOG_LIMIT).IsRun σ fun n => (ι n, π n)) {n : ℕ}
    (hq : Quiet m σ ι n) (hl : (σ n).leavesEx (ι n)) :
    (σ n).idEx.pc = (archState σ ι (n + 1)).pc ∧
      (σ n).idEx.inst = muxedIfInst (m.fetchWord (archState σ ι (n + 1)).pc) ∧
      (σ n).idEx.compressed = isCompressed (m.half (archState σ ι (n + 1)).pc) := by
  obtain ⟨⟨hv, hg⟩, -⟩ : ((σ n).idEx.valid ∧ (σ n).globalMemStall (ι n) = false) ∧ _ := by
    simpa [Core.leavesEx] using hl
  obtain ⟨hf, hpc⟩ := (onPath_of_isRun h hq).idEx hv
  rw [(archState_succ_eq_frontState hg).1, ← hpc]
  exact ⟨rfl, hf.inst, hf.compressed⟩

end

end Rv32Soc
