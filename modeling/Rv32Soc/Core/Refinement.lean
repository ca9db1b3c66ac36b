import Rv32Soc.Core.Machine

/-!
# The machine refines the hart

* `Machine.Holds`: the code is where it was, in the line memory, in the I-cache and in the TCM;
* `Machine.Embodies`: what the machine has of the hart between two cycles;
* `refines_of_isRun`: on every cycle of a run the machine does what some run of the hart does.
-/

namespace Rv32Soc

open Riscv (Instr State)

/-! ## Code -/

theorem Tcm.inRange_add_one {K : ℕ} (hK : K ≤ 28) {a : Word} (he : IsEven a) :
    Tcm.inRange K (a + 1) = Tcm.inRange K a := by
  rw [IsEven, BitVec.getLsbD, Nat.testBit_eq_decide_div_mod_eq, pow_zero, Nat.div_one,
    decide_eq_false_iff_not] at he
  refine Tcm.inRange_congr hK ?_
  rw [← BitVec.toNat_inj, toNat_wordNo, toNat_wordNo, BitVec.toNat_add,
    show (1 : Word).toNat = 1 from rfl]
  omega

namespace Mem

variable {C : Set Word} {K : ℕ} {m n : Mem} {a w : Word}

/-- What is fetched from a memory that has the code on one side of the boundary of the TCM. -/
theorem IsCode.fetched (hin : m.IsCode C K a) (hK : K ≤ 28) (he : IsEven a)
    (hm : ∀ x ∈ C, Tcm.inRange K x = Tcm.inRange K a → n x = m x) (hlow : w.extractLsb' 0 16 = n.half a)
    (hw : Tcm.inRange K (a + 2) = Tcm.inRange K a → w = n.half (a + 2) ++ n.half a) :
    muxedIfInst w = muxedIfInst (m.fetchWord a) ∧
    isCompressed (w.extractLsb' 0 16) = isCompressed (m.half a) := by
  have hhalf : ∀ x, IsEven x → x ∈ C → x + 1 ∈ C → Tcm.inRange K x = Tcm.inRange K a →
      n.half x = m.half x := by
    intro x hx h₀ h₁ hr
    rw [half_of_isEven _ hx, half_of_isEven _ hx, hm x h₀ hr,
      hm _ h₁ ((Tcm.inRange_add_one hK hx).trans hr)]
  have hfirst := hhalf a he hin.first.1 hin.first.2 rfl
  rw [hfirst] at hlow
  refine ⟨?_, by rw [hlow]⟩
  cases hc : isCompressed (m.half a)
  · obtain ⟨h₂, h₃, hr⟩ := hin.second hc
    have hsecond := hhalf (a + 2) (he.add (by decide)) h₂ (by rw [BitVec.add_assoc]; exact h₃) hr
    rw [hw hr, hfirst, hsecond, fetchWord]
  · rw [muxedIfInst, muxedIfInst, Core.extractLsb'_fetchWord, hlow, if_pos hc, if_pos hc]

end Mem

variable {IC DC K : ℕ} {C : Set Word} {m₀ : Mem}

namespace Machine

/-- Wherever code is fetched from, it is as it was in `m₀`. -/
structure Holds (C : Set Word) (m₀ : Mem) (s : Machine IC DC K) : Prop where
  lower : ∀ a ∈ C, Tcm.inRange K a = false → s.lower a = m₀ a
  icache : ∃ m, s.cpu.icache.bramCache.Inv m ∧ ∀ a ∈ C, Tcm.inRange K a = false → m a = m₀ a
  answer : s.cpu.tcm.iReady → Tcm.inRange K s.cpu.core.pc ∧ (m₀.IsCode C K s.cpu.core.pc →
    muxedIfInst s.cpu.tcm.iRdata = muxedIfInst (m₀.fetchWord s.cpu.core.pc) ∧
      isCompressed (s.cpu.tcm.iRdata.extractLsb' 0 16) = isCompressed (m₀.half s.cpu.core.pc))

variable {s : Machine IC DC K} {i : CpuInputs IC} {L : BitVec 16}

/-- What is fetched is the code. -/
theorem Holds.code (hn : IC ≤ 28) (hK : K ≤ 28) (h : s.Holds C m₀) (he : IsEven s.cpu.core.pc)
    (hr : (s.seen i).cacheReady) (hin : m₀.IsCode C K s.cpu.core.pc) :
    muxedIfInst (s.seen i).ifInst = muxedIfInst (m₀.fetchWord s.cpu.core.pc) ∧
      Core.ifCompressed (s.seen i) = isCompressed (m₀.half s.cpu.core.pc) := by
  have hready : s.cpu.icache.cpuReady K (s.cpu.icacheInputs i 0) := hr
  rw [Core.ifCompressed, show (s.seen i).ifInst = s.cpu.icache.cpuRdata K
    (s.cpu.icacheInputs i 0) from rfl, Icache.Regs.cpuRdata]
  rw [Icache.Regs.cpuReady] at hready
  cases ht : Tcm.inRange K s.cpu.core.pc
  · rw [if_neg (show ¬(s.cpu.icacheInputs i 0).reqIsTcm K from Bool.eq_false_iff.1 ht)] at hready ⊢
    obtain ⟨m, hinv, hm⟩ := h.icache
    have hrd := hinv.fetchRdata_eq hn hready
    refine hin.fetched hK he (n := m) (fun x hx hr => hm x hx (hr.trans ht)) ?_ fun _ => hrd
    rw [hrd]
    exact BitVec.extractLsb'_append_eq_right
  · rw [if_pos (show (s.cpu.icacheInputs i 0).reqIsTcm K from ht)] at hready ⊢
    exact (h.answer hready).2 hin

/-- One cycle, on which the data side has the code as it was. -/
theorem Holds.next (hIC : IC ≤ 28) (hDC : DC ≤ 28) (hK : K ≤ 28) (h : s.Holds C m₀) (ha : s.Admits i)
    (hphase : s.cpu.InPhase) (he : IsEven s.cpu.core.pc) {done : Mem}
    {held : Option DataPath.Access} {taken : Bool}
    (hinv : DataPath.Inv (s.sys done held taken))
    (hmem : ∀ a ∈ C, (s.sys done held taken).mem a = m₀ a) :
    (s.next i L).Holds C m₀ where
  lower := by
    intro a hC ht
    obtain ⟨cm, hcm, hout⟩ := hinv.cache
    show s.cpu.dcache.coreInst.lowerNext ((s.dcacheIn i).core K) s.lower a = m₀ a
    rw [DcacheBram.Regs.lowerNext]
    split
    · next hw =>
      have hline := hcm.memWline_eq hDC (Bool.and_eq_true_iff.1 hw).1
      rw [Mem.setLine]
      split
      · next hx =>
        rw [show s.cpu.dcache.coreInst.memWline = _ from hline, ← hmem a hC, ← hout a ht]
        exact Mem.lineByte_line cm hx
      · exact h.lower a hC ht
    · exact h.lower a hC ht
  icache := by
    obtain ⟨m, hinv, hm⟩ := h.icache
    refine ⟨_, hinv.edge_filled hIC (i := (s.icacheIn i).bram K) (r := i.icReads), fun a hC ht => ?_⟩
    rw [← h.lower a hC ht]
    exact IcacheBram.filled_eq ((hm a hC ht).trans (h.lower a hC ht).symm) ha.fetched
  answer := by
    intro hr
    have hasked := hphase.fetch_next (i := i) (p := s.cpu.core.nextPred (s.seen i)) (L := L)
    obtain ⟨ht, hp⟩ := Bool.and_eq_true_iff.1 (hasked.2.symm.trans hr)
    -- on the cycle on which it is asked the TCM does not answer
    have hg : s.cpu.core.globalMemStall (s.seen i) := by
      have hi := Cpu.imemStall_eq (i := i) hphase ht
      rw [hp] at hi
      rw [Core.globalMemStall, seen, hi]
      simp
    have hpc : (s.next i L).cpu.core.pc = s.cpu.core.pc := by
      show s.cpu.core.nextPc (s.seen i) = _
      rw [Core.nextPc, hg, Bool.or_true, if_pos rfl]
    have hr' : (s.cpu.tcm.next (s.cpu.tcmInputs i)).iReady := hr
    obtain ⟨hlow, hboth⟩ := Tcm.iRdata_next hK hr'
    rw [hpc]
    refine ⟨ht, fun hin =>
      hin.fetched hK he (n := s.cpu.tcm.byteAt) (fun x hx hr => ?_) hlow fun h₂ => ?_⟩
    · exact (hinv.tcm x (hr.trans ht)).trans (hmem x hx)
    · exact hboth (h₂.trans ht)

end Machine

/-! ## The instruction in MEM -/

namespace Core

variable {K : ℕ} {s : Core} {i : CoreInputs} {h : Hart}

/-- The accesses of MEM are those of the instruction that the hart executes next. -/
theorem Simulates.accesses (S : s.Simulates C K m₀ h) (hwf : s.WellFormed) (hl : h.Lawful C K) :
    s.Accesses := by
  obtain ⟨e, -, hf⟩ := S.front
  have hcacheable : s.exMem.isAmo → s.memAddrIsCacheable := fun ha => S.cacheable hwf hl (.inr ha)
  -- what accesses nothing presents nothing
  have hnone : s.isLoad = false → s.storeCommits = false → s.exMem.isAmo = false → s.Accesses := by
    intro hld hst ha
    refine ⟨fun h => absurd (ha.symm.trans h) (by decide), hcacheable, fun hv => ?_⟩
    simp [dcacheValid, dcacheRen, dcacheWen, hld, hst, amoReadPhase, amoWritePhase, ha] at hv
  cases hv : s.exMem.valid
  · have hb := hwf.exMemBubble hv
    exact hnone (hwf.not_access (.inr (.inl hv))).1 (hwf.not_access (.inr (.inl hv))).2 hb.isAmo
  · rw [hv, if_pos rfl] at hf
    generalize s.csr = c at hf
    cases hf with
    | csr _ _ _ hc | nop _ hc =>
      exact hnone (by simp [isLoad, hc.wbSel]) (by simp [storeCommits, isStore, hc.memRw]) hc.isAmo
    | @user ins a s₀ i₀ hk hal hag E hx =>
      have hi : Riscv.decode h.inst = some ins := decode_of_kind hk
      obtain ⟨-, -, hst, -, -, hamo, -⟩ := E.flags hi hx
      have haccess : ∀ {x n}, ins.access h.state = some (x, n) →
          accessBytes (s.exMem.inst.extractLsb' 12 2) = n ∧ s.exMem.alu = x := by
        intro x n hacc
        have hadr := E.addresses (i := i₀) hi ((Riscv.Instr.access_congr hag).trans hacc)
        rw [hx]
        exact ⟨hadr.bytes, hadr.alu⟩
      refine ⟨fun ha => ?_, hcacheable, fun hvalid => ?_⟩
      · have h₄ : ∃ x, ins.access h.state = some (x, 4) := by
          rw [hamo] at ha
          cases ins <;> first | exact ⟨_, rfl⟩ | cases ha
        exact (haccess h₄.choose_spec).1
      · have hls : ins.loads ∨ ins.stores := by
          by_contra hno
          obtain ⟨hs, ha⟩ := E.no_access hi hx hno
          have hld : s.isLoad = false :=
            Bool.eq_false_iff.2 fun hld => hno (.inl (E.loads_of_isLoad hi hx hld))
          simp [dcacheValid, dcacheRen, dcacheWen, hld, hs, amoReadPhase, amoWritePhase, ha] at hvalid
        obtain ⟨x, n, hacc⟩ := Riscv.Instr.access_of_loads (a := h.state) hls
        obtain ⟨hbytes, halu⟩ := haccess hacc
        rw [Rv32Soc.Aligned, hbytes, halu]
        exact hal x n hacc

/-- The code is not written by the instruction in MEM. -/
theorem Simulates.memAfter_code (S : s.Simulates C K m₀ h) (hwf : s.WellFormed) (hl : h.Lawful C K)
    (hsc : s.exMem.isSc → (s.scSuccessFlag ↔ h.reserved = some s.exMem.alu))
    (hw : s.exMem.isAmo → s.amo.amoState = .AMO_WRITE) {a : Word} (ha : a ∈ C) :
      s.memAfter h.state.mem a = m₀ a := by
  obtain ⟨e, -, hf⟩ := S.front
  rw [← S.code a ha]
  cases hv : s.exMem.valid
  · rw [memAfter_of_bubble (hwf.exMemBubble hv)]
  · rw [hv, if_pos rfl] at hf
    -- as if it left now, with what memory has
    have hserved : s.Served
        { CoreInputs.ready with dcacheReadData := h.state.mem.word s.exMem.alu } h.state.mem
        h.reserved :=
      ⟨fun _ _ => rfl, fun hamo => S.amo hamo (hw hamo), hsc⟩
    obtain ⟨h₁, hfin, -⟩ := hserved.finishes hf S.even hl.atomic
    rw [hfin.mem]
    exact hfin.completes.code hl ha

end Core

/-- Where the next instruction is that is not in MEM yet. -/
def Core.front (s : Core) : Word :=
  if s.idEx.valid then s.idEx.pc else if s.ifId.valid then s.ifId.pc else s.pc

namespace Machine

/-- What the machine has of the hart between two cycles: always its registers, and all of it when
    there is nothing in MEM. -/
structure Embodies (s : Machine IC DC K) (h : Hart) : Prop where
  regs : ∀ r, s.cpu.core.nextRegs r = h.state.get r
  pc : s.cpu.core.exMem.valid = false → s.cpu.core.front = h.state.pc
  csr : s.cpu.core.exMem.valid = false → s.cpu.core.csr = h.csr
  mem : s.cpu.core.exMem.valid = false → s.cpu.dcache.coreInst.state ≠ .S_INIT → s.flat = h.state.mem

end Machine

/-! ## Runs -/

section

variable {L : BitVec 16} {σ : ℕ → Machine IC DC K} {ι : ℕ → CpuInputs IC} {n : ℕ} {h : Hart}

/-- The pipeline, the caches and the TCM in a run, and what the pipeline sees. -/
def Machine.cpus (σ : ℕ → Machine IC DC K) (n : ℕ) : Cpu IC DC K := (σ n).cpu
def Machine.cores (σ : ℕ → Machine IC DC K) (n : ℕ) : Core := (σ n).cpu.core
def Machine.views (σ : ℕ → Machine IC DC K) (ι : ℕ → CpuInputs IC) (n : ℕ) : CoreInputs :=
  (σ n).seen (ι n)

theorem isRun_cpus (h : (machine IC DC K L).IsRun σ ι) :
    (cpu IC DC K L).IsRun (Machine.cpus σ) fun n =>
      (ι n, (Machine.cores σ n).nextPred (Machine.views σ ι n)) :=
  ⟨h.init, fun _ => trivial, fun n => congrArg Machine.cpu (h.next n)⟩

theorem isRun_machineCores (h : (machine IC DC K L).IsRun σ ι) :
    (core L).IsRun (Machine.cores σ) fun n => (Machine.views σ ι n,
      (Machine.cores σ n).nextPred (Machine.views σ ι n)) :=
  isRun_cores (isRun_cpus h)

theorem Machine.answers (h : (machine IC DC K L).IsRun σ ι) :
    Core.Answers (Machine.cores σ) (Machine.views σ ι) :=
  ⟨fun n => (h.admits n).uart, fun n => (h.admits n).intc, fun n => (h.admits n).accel⟩

/-- What holds before the cycle `n` of a run, of the hart that has been reached. -/
structure Carries (C : Set Word) (m₀ : Mem) (σ : ℕ → Machine IC DC K)
    (ι : ℕ → CpuInputs IC) (n : ℕ) (h : Hart) : Prop where
  tracks : Tracks C K m₀ (Machine.cores σ) (Machine.views σ ι) n h
  serves : (σ n).Serves h.state.mem
  holds : (σ n).Holds C m₀
  lawful : ∀ h', h.Reaches h' → h'.Lawful C K

namespace Carries

variable (hC : Carries C m₀ σ ι n h) (hrun : (machine IC DC K L).IsRun σ ι)

include hC hrun

theorem accesses : (σ n).cpu.core.Accesses :=
  hC.tracks.simulates.accesses (wellFormed_of_reachable ((isRun_machineCores hrun).reachable n))
    (hC.lawful h .refl)

/-- What the data side has of the code. -/
theorem code_mem : ∃ done held taken, DataPath.Inv ((σ n).sys done held taken) ∧
    ∀ a ∈ C, ((σ n).sys done held taken).mem a = m₀ a := by
  have hr := (isRun_machineCores hrun).reachable n
  have S := hC.tracks.simulates
  obtain ⟨held, taken, hinv, hmem⟩ :=
    hC.serves.mem (hC.accesses hrun) (wellFormed_of_reachable hr) (amoRests_of_reachable hr)
  refine ⟨_, held, taken, hinv, fun a ha => ?_⟩
  rcases hmem with hmem | ⟨hw, hmem⟩
  · rw [hmem, S.code a ha]
  · rw [hmem]
    exact S.memAfter_code (wellFormed_of_reachable hr) (hC.lawful h .refl)
      (hC.tracks.sc (isRun_machineCores hrun) (Machine.answers hrun)) hw ha

theorem sees (hIC : IC ≤ 28) (hDC : DC ≤ 28) (hK : K ≤ 28) :
    (Machine.cores σ n).Sees C K m₀ (Machine.views σ ι n) h where
  code := hC.holds.code hIC hK hC.tracks.aligned.pc
  load := by
    intro hg hl hc
    have hr := (isRun_machineCores hrun).reachable n
    have hwf : (σ n).cpu.core.WellFormed := wellFormed_of_reachable hr
    have hamo : (σ n).cpu.core.exMem.isAmo = false := by
      simp only [Core.isLoad, Bool.and_eq_true, Bool.not_eq_true'] at hl
      exact hl.2
    have hv : (σ n).cpu.core.dcacheValid := by
      rw [Core.dcacheValid, Core.dcacheRen, show (σ n).cpu.core.isLoad = true from hl,
        show (σ n).cpu.core.memAddrIsCacheable = true from hc]
      rfl
    refine hC.serves.read hDC hK (hrun.admits n) (hC.accesses hrun) hwf (amoRests_of_reachable hr)
      (Core.dcacheReady_of_leaves hg hv) ?_ fun ha => absurd (hamo.symm.trans ha) (by decide)
    rw [Core.access, hwf.storeCommits_of_isLoad hl, Core.amoWritePhase, hamo]
    rfl
  amo := by
    intro hp hc hd
    have hr := (isRun_machineCores hrun).reachable n
    have hwf : (σ n).cpu.core.WellFormed := wellFormed_of_reachable hr
    have hready := (amoRests_of_reachable hr).ready
    obtain ⟨ha, hst⟩ := Bool.and_eq_true_iff.1 hp
    have hst' : (σ n).cpu.core.amo.amoState = .AMO_READ := beq_iff_eq.1 hst
    refine hC.serves.read hDC hK (hrun.admits n) (hC.accesses hrun) hwf (amoRests_of_reachable hr)
      hd ?_ fun _ => ?_
    · -- The read phase of an AMO is a read access, before the result is ready.
      rw [Core.access, (hwf.not_access (.inl ha)).2, Core.amoWritePhase, hst']
      simp
    · refine Bool.eq_false_iff.2 fun hx => ?_
      rw [show (σ n).cpu.core.amo.amoState = _ from hready hx] at hst'
      cases hst'

theorem embodies : (σ n).Embodies h where
  regs := hC.tracks.simulates.regs
  pc := by
    intro hv
    obtain ⟨e, hguided, hf⟩ := hC.tracks.simulates.front
    rw [show (Machine.cores σ n).exMem.valid = false from hv, if_neg Bool.false_ne_true] at hf
    rw [hf.2, Core.front]
    split_ifs with hd hi
    · exact (hguided.idEx hd).2
    · exact (hguided.ifId hi).2.trans (if_neg hd)
    · exact hguided.pc.trans ((if_neg hi).trans (if_neg hd))
  csr := by
    intro hv
    obtain ⟨e, -, hf⟩ := hC.tracks.simulates.front
    rw [show (Machine.cores σ n).exMem.valid = false from hv, if_neg Bool.false_ne_true] at hf
    exact hf.1
  mem := by
    intro hv hst
    have hr := (isRun_machineCores hrun).reachable n
    have hwf : (σ n).cpu.core.WellFormed := wellFormed_of_reachable hr
    obtain ⟨held, taken, hinv, hmem⟩ := hC.serves.mem (hC.accesses hrun) hwf (amoRests_of_reachable hr)
    refine (show (σ n).flat = _ from hinv.flat_eq hst).trans ?_
    rcases hmem with hmem | ⟨-, hmem⟩
    · exact hmem
    · exact hmem.trans (Core.memAfter_of_bubble (hwf.exMemBubble hv) _)

/-- One cycle of a run. -/
theorem next (hIC : IC ≤ 28) (hDC : DC ≤ 28) (hK : K ≤ 28) :
    ∃ h', (Machine.cores σ n).Follows (Machine.views σ ι n) h h' ∧ Carries C m₀ σ ι (n + 1) h' := by
  have hr := (isRun_machineCores hrun).reachable n
  obtain ⟨h', hf, T, hmem⟩ := hC.tracks.next (isRun_machineCores hrun) (Machine.answers hrun)
    (hC.sees hrun hIC hDC hK) hC.lawful
  obtain ⟨done, held, taken, hinv, hcode⟩ := hC.code_mem hrun
  have hnext : σ (n + 1) = (σ n).next (ι n) L := hrun.next n
  refine ⟨h', hf, T, ?_, ?_, fun h'' hreach => hC.lawful h'' (hf.reaches.trans hreach)⟩
  · rw [hnext, hmem]
    exact hC.serves.next hDC hK (hrun.admits n) (hC.accesses hrun) (wellFormed_of_reachable hr)
      (amoRests_of_reachable hr)
  · rw [hnext]
    exact hC.holds.next hIC hDC hK (hrun.admits n) (Cpu.inPhase_of_isRun (isRun_cpus hrun) n)
      hC.tracks.aligned.pc hinv
      hcode

end Carries

/-- Out of reset. -/
theorem carries_zero (hIC : IC ≤ 28) (hrun : (machine IC DC K L).IsRun σ ι)
    (hlaw : ∀ h, (σ 0).hart.Reaches h → h.Lawful C K) :
      Carries C (σ 0).hart.state.mem σ ι 0 (σ 0).hart := by
  obtain ⟨hcore, hic, hdc, htcm⟩ : (σ 0).cpu.IsReset := hrun.init
  have hx : (σ 0).cpu.core.exMem.isAmo = false := by
    obtain ⟨-, -, -, h₃, -⟩ := hcore
    rw [h₃]
    rfl
  refine ⟨tracks_zero hcore (fun _ _ => rfl) ⟨rfl, rfl, rfl, rfl⟩, ⟨none, false, ?_, ?_⟩,
    ⟨?_, ?_, ?_⟩, hlaw⟩
  · refine DataPath.inv_of_isReset ⟨hdc, htcm, ?_, rfl, rfl⟩
    show (σ 0).cpu.core.memSoFar _ = _
    rw [Core.memSoFar, hx]
    rfl
  · exact fun r hr => (by cases hr)
  · intro a _ ht
    show _ = if Tcm.inRange K a then _ else _
    rw [ht, if_neg Bool.false_ne_true]
  · exact ⟨_, IcacheBram.inv_of_isReset hIC hic.1, fun _ _ _ => rfl⟩
  · rw [htcm.2.2.2.1]
    exact fun h => absurd h Bool.false_ne_true

/-- The machine refines the hart. Of a program that is lawful in every state that it reaches, every
    run does what a run of the hart does: an instruction that leaves MEM is executed, a trap that is
    taken in EX is taken and `mret` returns, in this order and no other; and between two cycles the
    machine has the hart's registers, and its program counter, CSRs and memory when there is nothing
    in MEM. -/
theorem refines_of_isRun (hIC : IC ≤ 28) (hDC : DC ≤ 28) (hK : K ≤ 28)
    (hrun : (machine IC DC K L).IsRun σ ι) (hlaw : ∀ h, (σ 0).hart.Reaches h → h.Lawful C K) :
    ∃ η : ℕ → Hart, η 0 = (σ 0).hart ∧ ∀ n, (σ n).Embodies (η n) ∧
      (σ n).cpu.core.Follows ((σ n).seen (ι n)) (η n) (η (n + 1)) := by
  obtain ⟨η, h₀, hη⟩ := Circuit.exists_sequence (P := Carries C (σ 0).hart.state.mem σ ι)
    (R := fun n => (Machine.cores σ n).Follows (Machine.views σ ι n)) (carries_zero hIC hrun hlaw)
    fun n h hC => hC.next hrun hIC hDC hK
  exact ⟨η, h₀, fun n => ⟨(hη n).1.embodies hrun, (hη n).2⟩⟩

end

/-! ### A loop that stores -/

/-- A TCM of 64 KB that holds `lui x2, 0x40000`, `sw x1, 0x40(x2)`, `jal x0, -4` and zeros. -/
def storeTcm : Tcm.Regs 14 :=
  { lwTcm with
    memEven := fun x => if x = 0 then 0x0137 else if x = 1 then 0x2023 else if x = 2 then 0xF06F else 0
    memOdd := fun x => if x = 0 then 0x4000 else if x = 1 then 0x0411 else if x = 2 then 0xFFDF else 0 }

def storeMachine : Machine 11 10 14 := ⟨{ resetCpu with tcm := storeTcm }, fun _ => 0⟩

/-- A cycle on which nothing outside answers. -/
def CpuInputs.silent : CpuInputs 11 :=
  { CpuInputs.ready with
    core := { CoreInputs.ready with uartReady := false, intcReady := false, accelReady := false } }

def storeTrace : ℕ → Machine 11 10 14 := (machine 11 10 14 1023).trace storeMachine fun _ => .silent

theorem isRun_storeTrace : (machine 11 10 14 1023).IsRun storeTrace fun _ => .silent := by
  refine Circuit.isRun_trace ?_ fun _ => ⟨fun h => ?_, fun h => ?_, ?_, ?_, ?_⟩
  · obtain ⟨h₁, h₂, h₃, -⟩ := isReset_resetCpu
    exact ⟨h₁, h₂, h₃, rfl, rfl, rfl, rfl, rfl, rfl, rfl⟩
  · exact absurd (Bool.and_eq_true_iff.1 h).2 Bool.false_ne_true
  · exact absurd (Bool.and_eq_true_iff.1 h).2 Bool.false_ne_true
  all_goals exact fun h => absurd h Bool.false_ne_true

/-- The three instructions. -/
def storeCode : Set Word := {a | (a - 0x40000000).toNat < 12}

instance : DecidablePred (· ∈ storeCode) :=
  fun a => inferInstanceAs (Decidable ((a - 0x40000000).toNat < 12))

/-- What holds in the loop. -/
structure StoreLoop (h : Hart) : Prop where
  pc : h.state.pc = 0x40000000 ∨ (h.state.pc = 0x40000004 ∨ h.state.pc = 0x40000008) ∧
    h.state.get 2 = 0x40000000
  code : ∀ a ∈ storeCode, h.state.mem a = storeTcm.byteAt a
  csr : h.csr = ⟨0, 0, 0, 0, 0, 0⟩

namespace StoreLoop

variable {h h' : Hart} (hl : StoreLoop h)

include hl

theorem isCode : h.state.mem.IsCode storeCode 14 h.state.pc ∧ h.compressed = false ∧
    h.word = storeTcm.byteAt.fetchWord h.state.pc := by
  have hall : ∀ a : Word, a = 0x40000000 ∨ a = 0x40000004 ∨ a = 0x40000008 →
    IsEven a ∧ IsEven (a + 2) ∧
      (a ∈ storeCode ∧ a + 1 ∈ storeCode ∧ a + 2 ∈ storeCode ∧ a + 2 + 1 ∈ storeCode) ∧
      isCompressed (storeTcm.byteAt.half a) = false ∧ Tcm.inRange 14 (a + 2) = Tcm.inRange 14 a := by
    rintro a (rfl | rfl | rfl) <;> decide +kernel
  obtain ⟨he, he₂, ⟨h₀, h₁, h₂, h₃⟩, hc, hr⟩ :=
    hall h.state.pc (hl.pc.imp_right And.left)
  have hhalf : h.state.mem.half h.state.pc = storeTcm.byteAt.half h.state.pc := by
    rw [Mem.half_of_isEven _ he, Mem.half_of_isEven _ he, hl.code _ h₀, hl.code _ h₁]
  have hnext : h.state.mem.half (h.state.pc + 2) = storeTcm.byteAt.half (h.state.pc + 2) := by
    rw [Mem.half_of_isEven _ he₂, Mem.half_of_isEven _ he₂, hl.code _ h₂, hl.code _ h₃]
  refine ⟨⟨⟨h₀, h₁⟩, fun _ => ⟨h₂, ?_, hr⟩⟩, by rw [Hart.compressed, hhalf, hc], ?_⟩
  · rwa [BitVec.add_assoc] at h₃
  · rw [Hart.word, Mem.fetchWord, Mem.fetchWord, hhalf, hnext]

/-- The three instructions, and where. -/
theorem kind_eq : h.state.pc = 0x40000000 ∧ kind h.word = .user (.lui 2 0x40000000) ∨
    h.state.pc = 0x40000004 ∧ h.state.get 2 = 0x40000000 ∧ kind h.word = .user (.store .sw 2 1 0x40) ∨
    h.state.pc = 0x40000008 ∧ h.state.get 2 = 0x40000000 ∧ kind h.word = .user (.jal 0 0xFFFFFFFC) := by
  have hw := hl.isCode.2.2
  rcases hl.pc with hpc | ⟨hpc | hpc, hx⟩
  · exact .inl ⟨hpc, by rw [hw, hpc]; decide +kernel⟩
  · exact .inr (.inl ⟨hpc, hx, by rw [hw, hpc]; decide +kernel⟩)
  · exact .inr (.inr ⟨hpc, hx, by rw [hw, hpc]; decide +kernel⟩)

/-- An instruction that neither touches a peripheral nor is misaligned, and writes no code. -/
theorem harmless {i : Instr} (hk : kind h.word = .user i) :
    i.Aligned h.state ∧ i.touchesDevice h.state = false ∧
    StoreLoop ⟨i.exec h.len (h.succeeds i) h.state, h.csr, h.reservedAfter i⟩ := by
  have hlen : h.len = 4 := by rw [Hart.len, hl.isCode.2.1]; rfl
  rw [hlen]
  -- The three instructions of the loop: set the register, store to the memory, jump back.
  rcases hl.kind_eq with ⟨hpc, hk'⟩ | ⟨hpc, hx, hk'⟩ | ⟨hpc, hx, hk'⟩ <;> cases hk.symm.trans hk'
  · refine ⟨fun a n ha => (by cases ha), rfl, .inr ⟨.inl ?_, ?_⟩, hl.code, hl.csr⟩
    · show h.state.pc + 4 = _
      rw [hpc]
      rfl
    · exact (State.get_setReg ..).trans (if_pos ⟨rfl, by decide⟩)
  · refine ⟨fun a n ha => ?_, ?_, .inr ⟨.inr ?_, hx⟩, fun a ha => ?_, hl.csr⟩
    · cases ha
      rw [hx]
      rfl
    · show isDevice (h.state.get 2 + 0x40) = false
      rw [hx]
      rfl
    · show h.state.pc + 4 = _
      rw [hpc]
      rfl
    · show h.state.mem.storeBytes (h.state.get 2 + 0x40) (h.state.get 1) 4 a = _
      have hout : ¬(a - (0x40000000 + 0x40)).toNat < 4 := by
        have ha' : (a - 0x40000000).toNat < 12 := ha
        bv_omega
      rw [hx, Mem.storeBytes, if_neg hout, hl.code a ha]
  · refine ⟨fun a n ha => (by cases ha), rfl, .inr ⟨.inl ?_, ?_⟩, hl.code, hl.csr⟩
    · show h.state.pc + 0xFFFFFFFC = _
      rw [hpc]
      rfl
    · exact (State.get_setReg ..).trans ((if_neg (by decide)).trans hx)

/-- Nothing but an instruction is next. -/
theorem exists_kind : ∃ i, kind h.word = .user i := by
  rcases hl.kind_eq with ⟨-, hk⟩ | ⟨-, -, hk⟩ | ⟨-, -, hk⟩ <;> exact ⟨_, hk⟩

theorem not_redirects {timer external : Bool} : ¬Hart.Redirects timer external h h' := by
  obtain ⟨i, hk⟩ := hl.exists_kind
  rintro (hx | hx | hx)
  · rw [Hart.exception, hk] at hx
    dsimp only at hx
    split at hx
    · next a n hacc =>
      rw [if_pos ((hl.harmless hk).1 a n hacc)] at hx
      cases hx
    · cases hx
  · rw [Hart.interrupt, hl.csr] at hx
    simp [CsrFile.mstatusMie] at hx
  · rw [hk] at hx
    cases hx

theorem completes (hc : h.Completes h') : StoreLoop h' := by
  obtain ⟨i, hk⟩ := hl.exists_kind
  cases hc with
  | user d hk' hal =>
    obtain ⟨-, htouch, hnext⟩ := hl.harmless hk'
    rwa [Hart.exec, htouch]
  | csr _ _ hk' => cases hk.symm.trans hk'
  | nop hk' => cases hk.symm.trans hk'

theorem lawful : h.Lawful storeCode 14 := by
  obtain ⟨i, hk⟩ := hl.exists_kind
  have hcsr : IsEven h.csr.mtvec ∧ IsEven h.csr.mepc := by
    rw [hl.csr]
    decide
  refine ⟨hl.isCode.1, fun ho => (by cases hk.symm.trans ho), fun hlax => ?_,
    fun j hj _ _ a ha => ?_, fun j hj ht => ?_, hcsr⟩
  · have hnone := ((lax_iff _).2 hlax).1
    rw [kind, hnone] at hk
    dsimp only at hk
    split_ifs at hk
  · rw [hl.code a ha]
    exact (hl.harmless hj).2.2.code a ha
  · rw [(hl.harmless hj).2.1] at ht
    cases ht

theorem reaches (hr : h.Reaches h') : StoreLoop h' := by
  induction hr with
  | refl => exact hl
  | completes _ hc ih => exact ih.completes hc
  | redirects _ hx ih => exact absurd hx ih.not_redirects

end StoreLoop

theorem storeLoop_hart : StoreLoop (storeTrace 0).hart := by
  refine ⟨.inl rfl, fun a ha => ?_, rfl⟩
  have hin : Tcm.inRange 14 a := by
    rw [Tcm.inRange_iff (by decide)]
    have ha' : (a - 0x40000000).toNat < 12 := ha
    constructor <;> bv_omega
  exact if_pos hin

/-- The machine executes the loop, with all its caches in between. -/
theorem refines_storeTrace :
    ∃ η : ℕ → Hart, η 0 = (storeTrace 0).hart ∧ ∀ n, (storeTrace n).Embodies (η n) ∧
      (storeTrace n).cpu.core.Follows ((storeTrace n).seen .silent) (η n) (η (n + 1)) :=
  refines_of_isRun (by decide) (by decide) (by decide) isRun_storeTrace
    fun _ hr => (storeLoop_hart.reaches hr).lawful

end Rv32Soc
