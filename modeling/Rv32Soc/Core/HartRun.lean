import Rv32Soc.Core.Alignment
import Rv32Soc.Core.HartMem

/-!
# The pipeline follows the hart

On a cycle on which the pipeline moves, the instruction in MEM is executed in the hart, and if EX
redirects control then, so does the hart (`Core.Follows`). All that is asked of memory is that it be one
memory (`Core.Sees`): that what is loaded, and what is fetched as code, is what the hart has there.

* `Core.Simulates`: what the pipeline has of the hart between two cycles;
* `Core.Simulates.next`: it has that again after the cycle, of the hart that has then been reached.
-/

namespace Rv32Soc

open Riscv (Instr State)

/-! ## Code -/

namespace Mem

theorem half_of_isEven (m : Mem) {a : Word} (he : IsEven a) : m.half a = m (a + 1) ++ m a := by
  have hmod : a.toNat % 2 = 0 := by
    rw [IsEven, BitVec.getLsbD, Nat.testBit_eq_decide_div_mod_eq, pow_zero, Nat.div_one,
      decide_eq_false_iff_not] at he
    omega
  have h₀ : (halfNo a ++ 0#1 : BitVec 32) = a := by
    rw [← BitVec.toNat_inj, toNat_halfNo_append, show (0#1).toNat = 0 from rfl]
    omega
  have h₁ : (halfNo a ++ 1#1 : BitVec 32) = a + 1 := by
    rw [← BitVec.toNat_inj, toNat_halfNo_append, show (1#1).toNat = 1 from rfl, BitVec.toNat_add,
      show (1 : Word).toNat = 1 from rfl]
    omega
  rw [half, h₀, h₁]

theorem exists_fetchWord {a : Word} (he : IsEven a) (w : Word) : ∃ m : Mem, m.fetchWord a = w := by
  have he₂ : IsEven (a + 2) := he.add (by decide)
  refine ⟨fun x => byteOf w (if x = a then 0 else if x = a + 1 then 1
    else if x = a + 2 then 2 else 3), ?_⟩
  obtain ⟨h₁, h₂, h₃, h₄, h₅, h₆⟩ : a + 1 ≠ a ∧ a + 2 ≠ a ∧
    a + 2 ≠ a + 1 ∧ a + 2 + 1 ≠ a ∧
    a + 2 + 1 ≠ a + 1 ∧
      a + 2 + 1 ≠ a + 2 := by
    refine ⟨?_, ?_, ?_, ?_, ?_, ?_⟩ <;> bv_omega
  rw [fetchWord, half_of_isEven _ he, half_of_isEven _ he₂]
  simp only [if_true, if_neg h₁, if_neg h₂, if_neg h₃, if_neg h₄, if_neg h₅, if_neg h₆]
  apply BitVec.eq_of_getLsbD_eq
  intro k hk
  simp [byteOf]
  grind

variable {C : Set Word} {K : ℕ} {m m' : Mem} {a : Word}

theorem IsCode.congr (h : m.IsCode C K a) (he : IsEven a) (hm : ∀ x ∈ C, m' x = m x) :
    m'.IsCode C K a ∧ m'.half a = m.half a ∧
    muxedIfInst (m'.fetchWord a) = muxedIfInst (m.fetchWord a) := by
  have hhalf : m'.half a = m.half a := by
    rw [half_of_isEven _ he, half_of_isEven _ he, hm _ h.first.1, hm _ h.first.2]
  refine ⟨⟨h.first, fun hc => h.second (hhalf ▸ hc)⟩, hhalf, ?_⟩
  cases hc : isCompressed (m.half a)
  · have hnext : m'.half (a + 2) = m.half (a + 2) := by
      have he₂ : IsEven (a + 2) := he.add (by decide)
      obtain ⟨h₂, h₃, -⟩ := h.second hc
      rw [half_of_isEven _ he₂, half_of_isEven _ he₂, hm _ h₂, BitVec.add_assoc]
      exact congrArg (fun x : Byte => x ++ m (a + 2)) (hm _ h₃)
    rw [fetchWord, fetchWord, hhalf, hnext]
  · rw [muxedIfInst, muxedIfInst, Core.extractLsb'_fetchWord, Core.extractLsb'_fetchWord, hhalf,
      if_pos hc, if_pos hc]

end Mem

/-- What has been fetched is the code in `m`, where there is code. -/
structure Slot.OfCode (C : Set Word) (K : ℕ) (m : Mem) (s : Slot) : Prop where
  fetched : ∃ m', s.Fetched m'
  inst : m.IsCode C K s.pc → s.inst = muxedIfInst (m.fetchWord s.pc)
  compressed : m.IsCode C K s.pc → s.compressed = isCompressed (m.half s.pc)

/-! ## The relation -/

namespace Core

/-- What the pipeline sees on a cycle: the code in `m₀`, and the memory of the hart. -/
structure Sees (C : Set Word) (K : ℕ) (m₀ : Mem) (s : Core) (i : CoreInputs) (h : Hart) : Prop where
  code : i.cacheReady → m₀.IsCode C K s.pc →
    muxedIfInst i.ifInst = muxedIfInst (m₀.fetchWord s.pc) ∧ ifCompressed i = isCompressed (m₀.half s.pc)
  load : s.globalMemStall i = false → s.isLoad → s.memAddrIsCacheable →
    i.dcacheReadData = h.state.mem.word s.exMem.alu
  amo : s.amoReadPhase → s.memAddrIsCacheable → i.dcacheReady →
    i.dcacheReadData = h.state.mem.word s.exMem.alu

/-- What the hart does on a cycle of the pipeline. -/
def Follows (s : Core) (i : CoreInputs) (h h' : Hart) : Prop :=
  ∃ h₁, (if s.leavesMem i then h.Completes h₁ else h₁ = h) ∧
    if (s.trap i).pcTrapOverride then Hart.Redirects i.timerInterrupt i.intcIrqOut h₁ h' else h' = h₁

theorem Follows.reaches {s : Core} {i : CoreInputs} {h h' : Hart} (hf : s.Follows i h h') :
    h.Reaches h' := by
  obtain ⟨h₁, hm, hx⟩ := hf
  have h₁' : h.Reaches h₁ := by
    split at hm
    · exact .completes .refl hm
    · exact hm ▸ .refl
  split at hx
  · exact .redirects h₁' hx
  · exact hx ▸ h₁'

/-- What the pipeline has of the hart, which has executed all the instructions that have left MEM.
    The code is in `C`, as it was in `m₀`. -/
structure Simulates (C : Set Word) (K : ℕ) (m₀ : Mem) (s : Core) (h : Hart) : Prop where
  regs : ∀ r, s.nextRegs r = h.state.get r
  code : ∀ a ∈ C, h.state.mem a = m₀ a
  even : IsEven h.state.pc
  front : ∃ e, s.Guided (Slot.OfCode C K m₀) e ∧
    if s.exMem.valid then InFlight s.exMem h s.csr e else s.csr = h.csr ∧ h.state.pc = e
  amo : s.exMem.isAmo → s.amo.amoState = .AMO_WRITE → s.amo.amoOldValue = h.state.mem.word s.exMem.alu

variable {C : Set Word} {K : ℕ} {m₀ : Mem} {s : Core} {i : CoreInputs} {h h₁ : Hart}
  {p : Predictor} {L : BitVec 16}

/-! ## One cycle -/

/-- The registers after the instruction in MEM, if there is one. -/
theorem nextRegs_nextWith (hg : s.globalMemStall i = false) (r : BitVec 5) :
    (s.nextWith i p L).nextRegs r = if (s.accessed i).writes r then (s.accessed i).wbData
      else s.nextRegs r := by
  simp only [nextRegs.eq_1 (nextWith _ _ _ _), nextWith_memWb, nextWith_regs, nextMemWb, hg]
  rfl

/-- A bubble in MEM leaves memory alone. -/
theorem memAfter_of_bubble (hb : s.exMem.IsBubble) (m : Mem) : s.memAfter m = m := by
  simp [memAfter, storeCommits, isStore, hb.memRw, hb.isAmo]

/-- The hart once the instruction in MEM is done: it is the one for the instruction in EX. -/
structure Advanced (C : Set Word) (K : ℕ) (m₀ : Mem) (s : Core) (i : CoreInputs) (h : Hart) : Prop where
  regs : ∀ r, (if (s.accessed i).writes r then (s.accessed i).wbData else s.nextRegs r) = h.state.get r
  code : ∀ a ∈ C, h.state.mem a = m₀ a
  guided : s.Guided (Slot.OfCode C K m₀) h.state.pc
  csr : s.csr = h.csr

/-- What an instruction that has left MEM has done to memory and to the reservation. -/
structure Done (s : Core) (h h₁ : Hart) : Prop where
  mem : h₁.state.mem = s.memAfter h.state.mem
  reserved : ∀ a, h₁.reserved = some a ↔ s.exMem.isLr ∧ s.exMem.alu = a ∨
    h.reserved = some a ∧ ¬(s.isStore ∨ s.exMem.isAmo ∨ s.exMem.isSc ∨
      s.exMem.isLr ∧ s.exMem.alu ≠ a)

/-- The instruction in MEM is executed. -/
theorem Simulates.finishes (S : s.Simulates C K m₀ h) (hwf : s.WellFormed) (hrests : s.AmoRests)
    (hs : s.Sees C K m₀ i h)
    (hl : h.Lawful C K) (hsc : s.exMem.isSc → (s.scSuccessFlag ↔ h.reserved = some s.exMem.alu))
    (hg : s.globalMemStall i = false) :
    ∃ h₁, (if s.leavesMem i then h.Completes h₁ else h₁ = h) ∧ s.Advanced C K m₀ i h₁ ∧
      s.Done h h₁ := by
  obtain ⟨e, hguided, hf⟩ := S.front
  cases hv : s.exMem.valid
  · have hleaves : s.leavesMem i = false := by rw [leavesMem, hv, Bool.false_and]
    have hb := hwf.exMemBubble hv
    rw [hv, if_neg Bool.false_ne_true] at hf
    refine ⟨h, by rw [hleaves]; rfl, ⟨fun r => ?_, S.code, hf.2 ▸ hguided, hf.1⟩, ?_, fun a => ?_⟩
    · rw [writes_accessed_of_bubble hb, if_neg Bool.false_ne_true, S.regs]
    · exact (memAfter_of_bubble hb _).symm
    · simp [isStore, hb.memRw, hb.isLr, hb.isSc, hb.isAmo]
  · have hleaves : s.leavesMem i := by rw [leavesMem, hv, hg]; rfl
    rw [hv, if_pos rfl] at hf
    have hserved : s.Served i h.state.mem h.reserved :=
      ⟨hs.load hg, fun ha => S.amo ha (hrests.ready (amoResultReady_of_leaves hg ha)), hsc⟩
    obtain ⟨h₁, hfin, hc, hpc⟩ := hserved.finishes hf S.even hl.atomic
    refine ⟨h₁, by rw [hleaves]; exact hfin.completes,
      ⟨fun r => ?_, fun a ha => ?_, hpc ▸ hguided, hc.symm⟩, hfin.mem.symm, hfin.reserved⟩
    · rw [S.regs, hfin.regs]
    · rw [← S.code a ha]
      exact hfin.completes.code hl ha

/-- What is fetched next. -/
theorem ofCode_ifSlot (hs : s.Sees C K m₀ i h) (he : IsEven s.pc) (ht : IsEven (s.ifPredictedTarget i))
    (hc : i.cacheReady) : (s.ifSlot i).OfCode C K m₀ := by
  obtain ⟨m, hm⟩ := Mem.exists_fetchWord he i.ifInst
  exact ⟨⟨m, fetched_ifSlot_of_isEven he hm.symm ht⟩, fun hin => (hs.code hc hin).1, fun hin =>
    (hs.code hc hin).2⟩

/-- After a redirection fetch starts anew. -/
theorem guided_of_redirect (P : Slot → Prop) (ht : (s.trap i).pcTrapOverride)
    (he : IsEven (s.trap i).trapTargetPc) :
    (s.nextWith i p L).Guided P (s.trap i).trapTargetPc := by
  have hg := globalMemStall_of_pcTrapOverride ht
  have hid : (s.nextWith i p L).idEx = .clear := by simp [nextIdEx, hg, ht]
  have hif : (s.nextWith i p L).ifId = .clear := by simp [nextIfId, hg, ht]
  refine ⟨he, ?_, ?_, ?_⟩
  · exact fun hv => absurd hv (by rw [hid]; decide)
  · exact fun hv => absurd hv (by rw [hif]; decide)
  · rw [hid, hif, nextWith_pc, nextPc]
    simp [hg, ht, IfId.clear, IdEx.clear]

/-- A bubble in EX writes no CSR. -/
theorem nextCsr_of_bubble (hwf : s.WellFormed) (hv : s.idEx.valid = false) : s.nextCsr i = s.csr := by
  have ht := (hwf.of_bubble (i := i) hv).2.2
  have hwen : s.idEx.ctl.csrWen = false := Bool.eq_false_iff.2 fun hc =>
    absurd (hv.symm.trans (hwf.valid_of_csrWen hc)) (by decide)
  rw [trap_pcTrapOverride, Bool.or_eq_false_iff] at ht
  simp [nextCsr, ht.1, ht.2, exCsrWen, hwen]

namespace Advanced

variable (A : s.Advanced C K m₀ i h) (hr : (core L).Reachable s) (hg : s.globalMemStall i = false)

include A hr hg

/-- EX, when the pipeline moves. -/
theorem front (hv : s.idEx.valid) (hl : h.Lawful C K) : s.Front i h := by
  have hwf := wellFormed_of_reachable hr
  have hheld := operandsHeld_of_reachable hr
  obtain ⟨hslot, hpc⟩ := A.guided.idEx hv
  obtain ⟨hin, hhalf, hword⟩ := hl.code.congr A.guided.even fun a ha => (A.code a ha).symm
  have hslotpc : s.idEx.slot.pc = h.state.pc := hpc
  have hinst : s.idEx.inst = h.inst := by
    refine (hslot.inst (hslotpc ▸ hin)).trans ?_
    rw [hslotpc, hword]
    rfl
  have hcompressed : s.idEx.compressed = h.compressed := by
    refine (hslot.compressed (hslotpc ▸ hin)).trans ?_
    rw [hslotpc, hhalf]
    rfl
  refine ⟨hg, hv, hwf.idEx hv, hwf.rd, hpc, hinst, hcompressed, A.guided.even,
    fun hx => ?_, fun hx => ?_, operandsRead_of_reachable hr, dividing_of_reachable hr, A.csr⟩
  · rw [← hinst] at hx ⊢
    rw [← A.regs]
    exact (hheld.rs1 hv hx).fwdMux_eq hwf
  · rw [← hinst] at hx ⊢
    rw [← A.regs]
    exact (hheld.rs2 hv hx).fwdMux_eq hwf

/-- Control goes elsewhere. -/
theorem next_redirect (ht : (s.trap i).pcTrapOverride) (hl : h.Lawful C K) :
    ∃ h', Hart.Redirects i.timerInterrupt i.intcIrqOut h h' ∧ (s.nextWith i p L).Simulates C K m₀ h' ∧
      h'.reserved = if (s.trap i).trapTaken then none else h.reserved := by
  have hv : s.idEx.valid := by
    by_contra hv
    rw [((wellFormed_of_reachable hr).of_bubble (Bool.eq_false_iff.2 hv)).2.2] at ht
    cases ht
  obtain ⟨h', hred, hpc, hcsr, hres⟩ := (A.front hr hg hv hl).redirects hl.known hl.strict ht
  obtain ⟨hregs, hmem⟩ := hred.frame
  have heven : IsEven (s.trap i).trapTargetPc := by
    rw [hpc]
    cases hred with
    | exception => exact hl.even.1
    | interrupt => exact hl.even.1
    | mret => exact hl.even.2
  have hx : (s.nextWith i p L).exMem.valid = false := by
    rw [nextWith_exMem, nextExMem, hg, trap_flushEx, ht]
    rfl
  refine ⟨h', hred, ⟨fun r => ?_, fun a ha => ?_, hpc ▸ heven, ⟨_, guided_of_redirect _ ht heven,
    ?_⟩, fun _ hw => ?_⟩, hres⟩
  · rw [nextRegs_nextWith hg, A.regs, State.get, State.get, hregs]
  · rw [hmem, A.code a ha]
  · rw [hx, nextWith_csr]
    exact ⟨hcsr, hpc.symm⟩
  · rw [(amo_next_leaves hg).1] at hw
    cases hw

/-- The instruction in EX enters MEM, if there is one. -/
theorem next_enters (ht : (s.trap i).pcTrapOverride = false) (hs : s.Sees C K m₀ i h₁)
    (htarget : IsEven (s.ifPredictedTarget i)) (hl : h.Lawful C K) :
      (s.nextWith i p L).Simulates C K m₀ h := by
  have hwf := wellFormed_of_reachable hr
  have hP : ∀ x : Slot, x.OfCode C K m₀ → ∃ m, x.Fetched m := fun _ hx => hx.fetched
  have hguided := A.guided.next (i := i) hP hwf ht (fun hc =>
    ofCode_ifSlot hs (A.guided.even_pc hP) htarget hc) p L
  have hx : (s.nextWith i p L).exMem = s.executed i := by
    rw [nextWith_exMem, nextExMem, hg, trap_flushEx, ht]
    rfl
  refine ⟨fun r => ?_, A.code, A.guided.even, ⟨_, hguided, ?_⟩, fun _ hw => ?_⟩
  · rw [nextRegs_nextWith hg, A.regs]
  · rw [hx, nextWith_csr]
    show if s.idEx.valid then _ else _
    cases hv : s.idEx.valid
    · rw [nextCsr_of_bubble hwf hv,
        show s.successorEx i h.state.pc = h.state.pc by simp [successorEx, leavesEx, hv]]
      exact ⟨A.csr, rfl⟩
    · have hin := (A.front hr hg hv hl).enters hl.known hl.strict ht
      rw [successorEx, leavesEx, hv, hg, trap_flushEx, ht]
      exact hin
  · rw [(amo_next_leaves hg).1] at hw
    cases hw

end Advanced

/-- The pipeline moves. -/
theorem Simulates.next_moves (S : s.Simulates C K m₀ h) (hr : (core L).Reachable s)
    (hs : s.Sees C K m₀ i h)
    (hlaw : ∀ h', h.Reaches h' → h'.Lawful C K) (hsc : s.exMem.isSc →
      (s.scSuccessFlag ↔ h.reserved = some s.exMem.alu))
    (htarget : IsEven (s.ifPredictedTarget i)) (hg : s.globalMemStall i = false) :
    ∃ h₁ h', s.Follows i h h' ∧ (s.nextWith i p L).Simulates C K m₀ h' ∧ s.Done h h₁ ∧
      h'.state.mem = h₁.state.mem ∧
      h'.reserved = (if (s.trap i).trapTaken then none else h₁.reserved) ∧ ¬s.TakesOdd i := by
  obtain ⟨h₁, hfin, A, hdone⟩ :=
    S.finishes (wellFormed_of_reachable hr) (amoRests_of_reachable hr) hs (hlaw h .refl) hsc hg
  have hl : h₁.Lawful C K := by
    refine hlaw h₁ ?_
    cases hl : s.leavesMem i
    · rw [hl, if_neg Bool.false_ne_true] at hfin
      exact hfin ▸ .refl
    · rw [hl, if_pos rfl] at hfin
      exact .completes .refl hfin
  have hodd : ¬s.TakesOdd i := by
    rintro (⟨-, hodd⟩ | ⟨-, -, hodd⟩)
    · exact hodd (A.csr ▸ hl.even.1)
    · exact hodd (A.csr ▸ hl.even.2)
  cases ht : (s.trap i).pcTrapOverride
  · refine ⟨h₁, h₁, ⟨h₁, hfin, by rw [ht]; rfl⟩, A.next_enters hr hg ht hs htarget hl,
      hdone, rfl, ?_, hodd⟩
    rw [trap_pcTrapOverride, Bool.or_eq_false_iff] at ht
    rw [ht.1]
    rfl
  · obtain ⟨h', hred, hsim, hres⟩ := A.next_redirect (p := p) hr hg ht hl
    exact ⟨h₁, h', ⟨h₁, hfin, by rw [ht]; exact hred⟩, hsim, hdone, hred.frame.2, hres, hodd⟩

theorem Simulates.cacheable (S : s.Simulates C K m₀ h) (hwf : s.WellFormed) (hl : h.Lawful C K)
    (ha : s.exMem.isLr ∨ s.exMem.isAmo) : s.memAddrIsCacheable := by
  obtain ⟨e, -, hf⟩ := S.front
  cases hv : s.exMem.valid
  · have hb := hwf.exMemBubble hv
    simp [hb.isLr, hb.isAmo] at ha
  · rw [hv, if_pos rfl] at hf
    exact cacheable_of_inFlight hf hl.atomic ha

/-- The pipeline is frozen. -/
theorem Simulates.next_frozen (S : s.Simulates C K m₀ h) (hwf : s.WellFormed)
    (hs : s.Sees C K m₀ i h) (hl : h.Lawful C K)
    (hg : s.globalMemStall i) : s.Follows i h h ∧ (s.nextWith i p L).Simulates C K m₀ h := by
  have ht := pcTrapOverride_of_globalMemStall hg
  have hx : (s.nextWith i p L).exMem = s.exMem := exMem_frozen hg
  have hcsr : (s.nextWith i p L).csr = s.csr := by
    rw [trap_pcTrapOverride, Bool.or_eq_false_iff] at ht
    simp [nextCsr, ht.1, ht.2, exCsrWen, hg]
  refine ⟨⟨h, by simp [leavesMem, hg], by rw [ht]; rfl⟩, fun r => ?_, S.code, S.even, ?_, ?_⟩
  · rw [← S.regs]
    simp only [nextRegs.eq_1 (nextWith _ _ _ _), nextWith_memWb, nextWith_regs, nextMemWb, if_pos hg]
    cases hw : s.memWb.writes r <;> simp [nextRegs, hw]
  · obtain ⟨e, hguided, hf⟩ := S.front
    refine ⟨_, hguided.next_frozen hg p L, ?_⟩
    rw [hx, hcsr, show s.successorEx i e = e by simp [successorEx, leavesEx, hg]]
    exact hf
  · rw [hx]
    intro ha
    have hc := S.cacheable hwf hl (.inr ha)
    rw [nextWith_amo, nextAmo_frozen hg ha]
    cases hst : s.amo.amoState
    · exact fun hw => by cases hw
    · cases hd : i.dcacheReady
      · exact fun hw => absurd (hst.symm.trans hw) (by decide)
      · exact fun _ => hs.amo (by rw [amoReadPhase, ha, hst]; rfl) hc hd
    · intro _
      have hold := S.amo ha hst
      cases hd : i.dcacheReady <;> exact hold

end Core

/-! ## Runs -/

section

variable {L : BitVec 16} {σ σ' : ℕ → Core} {ι ι' : ℕ → CoreInputs}

/-- What is reserved depends on what has been. -/
theorem reserved_congr {n : ℕ} (h : ∀ k < n, σ' k = σ k ∧ ι' k = ι k) (a : Word) :
    Reserved σ' ι' n a ↔ Reserved σ ι n a := by
  induction n with
  | zero => simp [Reserved]
  | succ n ih =>
    obtain ⟨hσ, hι⟩ := h n n.lt_succ_self
    rw [reserved_succ, reserved_succ, ih fun k hk => h k (hk.trans n.lt_succ_self)]
    simp only [lrCompletes, breaks, hσ, hι]

/-- A run may stand still from the cycle `n` on. -/
theorem exists_still {π : ℕ → Predictor} (h : (core L).IsRun σ fun n => (ι n, π n)) (n : ℕ) :
    ∃ (σ' : ℕ → Core) (ι' : ℕ → CoreInputs), ((core L).IsRun σ' fun n => (ι' n, π n)) ∧
      (∀ k ≤ n, σ' k = σ k) ∧ (∀ k < n, ι' k = ι k) ∧
      ∀ k ≥ n, (σ' k).exMem = (σ n).exMem ∧ (ι' k).uartReady = false ∧ (ι' k).intcReady = false ∧
        (ι' k).accelReady = false := by
  let still : CoreInputs :=
    { ι n with cacheReady := false, uartReady := false, intcReady := false, accelReady := false }
  let ι' : ℕ → CoreInputs := fun k => if k < n then ι k else still
  let σ' : ℕ → Core := (core L).trace (σ 0) fun k => (ι' k, π k)
  have hrun : (core L).IsRun σ' fun k => (ι' k, π k) := Circuit.isRun_trace h.init fun _ => trivial
  have hι : ∀ k < n, ι' k = ι k := fun k hk => if_pos hk
  have hσ : ∀ k ≤ n, σ' k = σ k := by
    intro k hk
    induction k with
    | zero => rfl
    | succ k ih => rw [core_next hrun, core_next h, ih (Nat.le_of_succ_le hk), hι k hk]
  refine ⟨σ', ι', hrun, hσ, hι, fun k hk => ?_⟩
  have hstill : ∀ k ≥ n, ι' k = still := fun k hk => if_neg (Nat.not_lt.2 hk)
  rw [hstill k hk]
  refine ⟨?_, rfl, rfl, rfl⟩
  induction k, hk using Nat.le_induction with
  | base => rw [hσ n le_rfl]
  | succ k hk ih =>
    have hg : (σ' k).globalMemStall (ι' k) := by
      rw [hstill k hk]
      simp [Core.globalMemStall, Core.imemStall, still]
    rw [core_next hrun, Core.exMem_frozen hg, ih]

/-- What an `sc.w` finds depends on what has been. -/
theorem scSuccessFlag_iff_of_le {π : ℕ → Predictor} (h : (core L).IsRun σ fun n => (ι n, π n))
    (ha : Core.Answers σ ι)
    {n : ℕ} (hlr : ∀ k ≤ n, (σ k).exMem.isLr → (σ k).memAddrIsCacheable) (hsc : (σ n).exMem.isSc) :
    (σ n).scSuccessFlag ↔ Reserved σ ι n (σ n).exMem.alu := by
  obtain ⟨σ', ι', hrun, hσ, hι, hstill⟩ := exists_still h n
  have hne : (σ n).exMem.isLr = false := ((wellFormed_of_reachable (h.reachable n)).kind_of_isSc hsc).1
  have hlr' : ∀ k, (σ' k).exMem.isLr → (σ' k).memAddrIsCacheable := by
    intro k hl
    rcases Nat.le_total k n with hk | hk
    · rw [hσ k hk] at hl ⊢
      exact hlr k hk hl
    · rw [(hstill k hk).1, hne] at hl
      cases hl
  have hbefore : ∀ (v : Core.Port), (∀ n, v.ready (ι n) → (v.port (σ n)).pending) →
    (∀ k ≥ n, v.ready (ι' k) = false) →
      ∀ k, v.ready (ι' k) → (v.port (σ' k)).pending := by
    intro v hv hoff k hr
    rcases Nat.lt_or_ge k n with hk | hk
    · rw [hι k hk] at hr
      rw [hσ k hk.le]
      exact hv k hr
    · rw [hoff k hk] at hr
      cases hr
  have ha' : Core.Answers σ' ι' :=
    ⟨hbefore _ ha.uart fun k hk => (hstill k hk).2.1, hbefore _ ha.intc fun k hk => (hstill k hk).2.2.1,
      hbefore _ ha.accel fun k hk => (hstill k hk).2.2.2⟩
  have hflag := Core.scSuccessFlag_iff hrun ha' hlr' (hσ n le_rfl ▸ hsc)
  rw [hσ n le_rfl, reserved_congr fun k hk => ⟨hσ k hk.le, hι k hk⟩] at hflag
  exact hflag

/-- What holds before the cycle `n` of a run, of the hart that has been reached. -/
structure Tracks (C : Set Word) (K : ℕ) (m₀ : Mem) (σ : ℕ → Core) (ι : ℕ → CoreInputs) (n : ℕ)
    (h : Hart) : Prop where
  simulates : (σ n).Simulates C K m₀ h
  reserved : ∀ a, h.reserved = some a ↔ Reserved σ ι n a
  cacheable : ∀ k ≤ n, (σ k).exMem.isLr → (σ k).memAddrIsCacheable
  aligned : (σ n).Aligned

variable {C : Set Word} {K : ℕ} {m₀ : Mem} {h : Hart}

theorem Tracks.sc {π : ℕ → Predictor} {n : ℕ} (T : Tracks C K m₀ σ ι n h)
    (hrun : (core L).IsRun σ fun n => (ι n, π n))
    (ha : Core.Answers σ ι) (hsc : (σ n).exMem.isSc) :
      (σ n).scSuccessFlag ↔ h.reserved = some (σ n).exMem.alu := by
  rw [T.reserved]
  exact scSuccessFlag_iff_of_le hrun ha T.cacheable hsc

/-- Out of reset. -/
theorem tracks_zero (hinit : (σ 0).IsReset) (hcode : ∀ a ∈ C, h.state.mem a = m₀ a)
    (hh : h.state.pc = Core.resetPc ∧ h.state.regs = (σ 0).regs ∧ h.csr = (σ 0).csr ∧
      h.reserved = none) :
    Tracks C K m₀ σ ι 0 h := by
  obtain ⟨hpc, hregs, hcsr, hres⟩ := hh
  have haligned := Core.IsReset.aligned hinit
  obtain ⟨h₀, h₁, h₂, h₃, h₄, h₅, -⟩ := hinit
  refine ⟨⟨fun r => ?_, hcode, by rw [hpc]; decide, ⟨Core.resetPc, ⟨by decide, ?_, ?_, ?_⟩, ?_⟩,
    ?_⟩, fun a => ?_, ?_, haligned⟩
  · have hw : (σ 0).memWb.writes r = false := by rw [h₄]; rfl
    rw [Core.nextRegs, hw, if_neg Bool.false_ne_true, State.get, hregs]
    split
    · next h0 => rw [h0, h₅]
    · rfl
  · rw [h₂]
    exact fun hv => absurd hv (by decide)
  · rw [h₁]
    exact fun hv => absurd hv (by decide)
  · rw [h₀, h₁, h₂]
    rfl
  · rw [h₃]
    exact ⟨hcsr.symm, hpc⟩
  · rw [h₃]
    exact fun ha => absurd ha (by decide)
  · rw [hres]
    simp [Reserved]
  · intro k hk
    rw [Nat.le_zero.1 hk, h₃]
    exact fun ha => absurd ha (by decide)

/-- One cycle of a run. -/
theorem Tracks.next {n : ℕ} (T : Tracks C K m₀ σ ι n h)
    (hrun : (core L).IsRun σ fun n => (ι n, (σ n).nextPred (ι n))) (ha : Core.Answers σ ι)
    (hs : (σ n).Sees C K m₀ (ι n) h) (hlaw : ∀ h', h.Reaches h' → h'.Lawful C K) :
    ∃ h', (σ n).Follows (ι n) h h' ∧ Tracks C K m₀ σ ι (n + 1) h' ∧
      h'.state.mem = if (σ n).globalMemStall (ι n) then h.state.mem else (σ n).memAfter h.state.mem := by
  have hr := hrun.reachable n
  have hwf := wellFormed_of_reachable hr
  -- what an `lr.w` reads next is memory
  have hlr : ∀ h', (σ (n + 1)).Simulates C K m₀ h' → h'.Lawful C K →
      ∀ k ≤ n + 1, (σ k).exMem.isLr → (σ k).memAddrIsCacheable := by
    intro h' S hl k hk hlr
    rcases Nat.le_succ_iff.1 hk with hk | rfl
    · exact T.cacheable k hk hlr
    · exact S.cacheable (wellFormed_of_reachable (hrun.reachable (n + 1))) hl (.inl hlr)
  cases hg : (σ n).globalMemStall (ι n)
  · obtain ⟨h₁, h', hf, S, hdone, hmem, hres, hodd⟩ :=
      T.simulates.next_moves (p := (σ n).nextPred (ι n)) hr hs hlaw
      (T.sc hrun ha) T.aligned.ifPredictedTarget hg
    rw [← core_next hrun n] at S
    refine ⟨h', hf, ⟨S, fun a => ?_, hlr h' S (hlaw h' hf.reaches), ?_⟩, by rw [hmem, hdone.mem]; rfl⟩
    · rw [hres, reserved_succ, ← T.reserved]
      cases ((σ n).trap (ι n)).trapTaken
      · simp only [Bool.false_eq_true, if_false, hdone.reserved, lrCompletes, breaks, hg, true_and]
      · simp
    · rw [core_next hrun n]
      exact T.aligned.next hodd
  · obtain ⟨hf, S⟩ := T.simulates.next_frozen (p := (σ n).nextPred (ι n)) (L := L) hwf hs
      (hlaw h .refl) hg
    have htrap := Core.trapTaken_of_globalMemStall hg
    rw [← core_next hrun n] at S
    refine ⟨h, hf, ⟨S, fun a => ?_, hlr h S (hlaw h .refl), ?_⟩, rfl⟩
    · rw [T.reserved, reserved_succ]
      simp [htrap, lrCompletes, breaks, hg]
    · rw [core_next hrun n]
      refine T.aligned.next ?_
      have ht := Core.pcTrapOverride_of_globalMemStall hg
      rw [Core.trap_pcTrapOverride, Bool.or_eq_false_iff] at ht
      simp [Core.TakesOdd, ht.1, ht.2]

end

end Rv32Soc
