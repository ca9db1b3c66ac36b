import Rv32Soc.Core.Operands

/-!
# Precise traps

Every instruction gets a number when it is fetched, which goes with it through the
pipeline (`tags`). A trap, or `mret`, divides the numbers in two: what is older
than the instruction in EX completes, once; what is not, up to the instruction
that is being fetched, has no effect at all; and the next instruction to reach
EX is the one at the address that control was given to.

* `Tags.Ordered`: the numbers in flight are in the order of the pipeline, so an
  instruction is in one stage at a time and never returns to one
  (`Tags.LeftEx`, `Tags.LeftMem`);
* `flushed_of_redirect`: what is flushed reaches neither MEM nor WB;
* `completes_once`: what leaves EX completes exactly once;
* `Refetching`: from a redirection until its target reaches EX;
* `precise_of_isRun`: traps and `mret` are precise.
-/

namespace Rv32Soc

/-! ## The instructions in flight -/

/-- The numbers of the instructions in IF, ID, EX, MEM and WB. -/
structure Tags where
  fetched : ℕ
  ifId : Option ℕ
  idEx : Option ℕ
  exMem : Option ℕ
  memWb : Option ℕ

namespace Tags

/-- The numbers go with the instructions. What is in IF when it is redirected is lost, and
    its number with it. -/
def next (t : Tags) (s : Core) (i : CoreInputs) : Tags :=
  if s.globalMemStall i then t
  else
    { fetched := if s.stall && !s.pcSel && !(s.trap i).flushIf then t.fetched else t.fetched + 1
      ifId := if s.pcSel || (s.trap i).flushIf then none else if s.stall then t.ifId else some t.fetched
      idEx := if s.pcSel || s.stall || (s.trap i).flushId then none else t.ifId
      exMem := if (s.trap i).flushEx then none else t.idEx
      memWb := t.exMem }

variable (t : Tags)

/-- The instructions that have not left EX. -/
def beforeMem : List ℕ := t.idEx.toList ++ (t.ifId.toList ++ [t.fetched])

/-- The instructions that have not left MEM. -/
def beforeWb : List ℕ := t.exMem.toList ++ t.beforeMem

/-- An instruction that has left EX, or that never will. -/
def LeftEx (a : ℕ) : Prop := ∀ x ∈ t.beforeMem, a < x

/-- An instruction that has left MEM, or that never will. -/
def LeftMem (a : ℕ) : Prop := ∀ x ∈ t.beforeWb, a < x

/-- The instructions in flight, from WB to IF, are in the order of their numbers. -/
structure Ordered : Prop where
  memWb : ∀ a ∈ t.memWb, t.LeftMem a
  exMem : ∀ a ∈ t.exMem, t.LeftEx a
  idEx : ∀ a ∈ t.idEx, ∀ b ∈ t.ifId, a < b
  idEx_lt : ∀ a ∈ t.idEx, a < t.fetched
  ifId_lt : ∀ a ∈ t.ifId, a < t.fetched

variable {t} {s : Core} {i : CoreInputs}

/-- Only a new number comes to those before MEM. -/
theorem mem_beforeMem_next {x : ℕ} (h : x ∈ (t.next s i).beforeMem) :
    x ∈ t.beforeMem ∨ x = t.fetched + 1 := by
  unfold next beforeMem at *
  grind

theorem mem_beforeWb_next {x : ℕ} (h : x ∈ (t.next s i).beforeWb) :
    x ∈ t.beforeWb ∨ x = t.fetched + 1 := by
  unfold next beforeWb beforeMem at *
  grind

theorem LeftEx.next {a : ℕ} (h : t.LeftEx a) : (t.next s i).LeftEx a := by
  intro x hx
  have hf : a < t.fetched := h _ (by simp [beforeMem])
  rcases mem_beforeMem_next hx with hx | rfl
  · exact h x hx
  · exact Nat.lt_succ_of_lt hf

theorem LeftMem.next {a : ℕ} (h : t.LeftMem a) : (t.next s i).LeftMem a := by
  intro x hx
  have hf : a < t.fetched := h _ (by simp [beforeWb, beforeMem])
  rcases mem_beforeWb_next hx with hx | rfl
  · exact h x hx
  · exact Nat.lt_succ_of_lt hf

/-- What leaves MEM has left it for good. -/
theorem Ordered.leftMem (h : t.Ordered) {a : ℕ} (ha : t.exMem = some a)
    (hg : s.globalMemStall i = false) :
    (t.next s i).LeftMem a := by
  intro x hx
  have hl := h.exMem a ha
  have hf : a < t.fetched := hl _ (by simp [beforeMem])
  have hx' : x ∈ t.beforeMem ∨ x = t.fetched + 1 := by
    unfold Tags.next beforeWb beforeMem at *
    grind
  rcases hx' with hx' | rfl
  · exact hl x hx'
  · exact Nat.lt_succ_of_lt hf

/-- What leaves EX has left it for good. -/
theorem Ordered.leftEx (h : t.Ordered) {a : ℕ} (ha : t.idEx = some a) (hg : s.globalMemStall i = false) :
    (t.next s i).LeftEx a := by
  intro x hx
  have hf := h.idEx_lt a ha
  have hx' : x ∈ t.ifId ∨ x = t.fetched ∨ x = t.fetched + 1 := by
    unfold Tags.next beforeMem at *
    grind
  rcases hx' with hx' | rfl | rfl
  · exact h.idEx a ha x hx'
  · exact hf
  · exact Nat.lt_succ_of_lt hf

theorem Ordered.next (h : t.Ordered) : (t.next s i).Ordered := by
  cases hg : s.globalMemStall i
  · refine ⟨fun a ha => ?_, fun a ha => ?_, ?_, ?_, ?_⟩
    · exact h.leftMem (by simpa [Tags.next, hg] using ha) hg
    · refine h.leftEx ?_ hg
      rw [Option.mem_def] at ha
      unfold Tags.next at ha
      grind
    all_goals
      have := h.ifId_lt
      unfold Tags.next
      grind
  · simpa [Tags.next, hg] using h

end Tags

/-- The numbers at a cycle. -/
def tags (σ : ℕ → Core) (ι : ℕ → CoreInputs) : ℕ → Tags
  | 0 => ⟨0, none, none, none, none⟩
  | n + 1 => (tags σ ι n).next (σ n) (ι n)

section

variable {σ : ℕ → Core} {ι : ℕ → CoreInputs}

theorem ordered_tags (n : ℕ) : (tags σ ι n).Ordered := by
  induction n with
  | zero => constructor <;> simp [tags]
  | succ n ih => exact ih.next

theorem leftEx_mono {a m n : ℕ} (h : (tags σ ι m).LeftEx a) (hmn : m ≤ n) : (tags σ ι n).LeftEx a := by
  induction n, hmn using Nat.le_induction with
  | base => exact h
  | succ n _ ih => exact ih.next

theorem leftMem_mono {a m n : ℕ} (h : (tags σ ι m).LeftMem a) (hmn : m ≤ n) :
    (tags σ ι n).LeftMem a := by
  induction n, hmn using Nat.le_induction with
  | base => exact h
  | succ n _ ih => exact ih.next

/-- What is in MEM or in WB is older than all that comes to EX from there on. -/
theorem leftEx_of_mem {a m : ℕ} (h : (tags σ ι m).exMem = some a ∨ (tags σ ι m).memWb = some a) :
    (tags σ ι m).LeftEx a := by
  rcases h with h | h
  · exact (ordered_tags m).exMem a h
  · exact fun x hx => (ordered_tags m).memWb a h x (List.mem_append_right _ hx)

end

/-- The stages that hold an instruction are those that have a number. -/
structure Tags.Fits (t : Tags) (s : Core) : Prop where
  ifId : t.ifId.isSome = s.ifId.valid
  idEx : t.idEx.isSome = s.idEx.valid
  exMem : t.exMem.isSome = s.exMem.valid
  memWb : t.memWb.isSome = s.memWb.valid

theorem Tags.Fits.next {t : Tags} {s : Core} (h : t.Fits s) (i : CoreInputs) (p : Predictor)
    (L : BitVec 16) :
    (t.next s i).Fits (s.nextWith i p L) := by
  obtain ⟨h₁, h₂, h₃, h₄⟩ := h
  constructor <;>
    simp only [Tags.next, Core.nextWith_ifId, Core.nextWith_idEx, Core.nextWith_exMem,
      Core.nextWith_memWb, Core.nextIfId, Core.nextIdEx, Core.nextExMem, Core.nextMemWb] <;>
    split_ifs <;> simp_all [IfId.clear, IdEx.clear, ExMem.flush, Core.decoded,
      Core.executed, Core.accessed]

section

variable {STALL_WATCHDOG_LIMIT : BitVec 16} {σ : ℕ → Core} {ι : ℕ → CoreInputs}
  {π : ℕ → Predictor}

theorem fits_tags (h : (core STALL_WATCHDOG_LIMIT).IsRun σ fun n => (ι n, π n)) (n : ℕ) :
    (tags σ ι n).Fits (σ n) := by
  induction n with
  | zero =>
    obtain ⟨-, h₁, h₂, h₃, h₄, -⟩ := h.init
    constructor <;> simp [tags, h₁, h₂, h₃, h₄, IfId.clear, IdEx.clear, ExMem.clear, MemWb.clear]
  | succ n ih =>
    rw [core_next h n]
    exact ih.next (ι n) (π n) STALL_WATCHDOG_LIMIT

end

/-! ## What happens to an instruction -/

section

variable (σ : ℕ → Core) (ι : ℕ → CoreInputs)

/-- The instruction `t` leaves EX at the cycle `n`, and is not flushed. -/
def leaves (n t : ℕ) : Prop := (tags σ ι n).idEx = some t ∧ (σ n).leavesEx (ι n)

/-- The instruction `t` completes at the cycle `n`: MEM hands its result to WB, to be written. -/
def completes (n t : ℕ) : Prop := (tags σ ι n).exMem = some t ∧ (σ n).globalMemStall (ι n) = false

variable {σ ι}

theorem tags_succ_frozen {n : ℕ} (hg : (σ n).globalMemStall (ι n)) : tags σ ι (n + 1) = tags σ ι n := by
  rw [tags, Tags.next, if_pos hg]

theorem exMem_of_leaves {n t : ℕ} (h : leaves σ ι n t) : (tags σ ι (n + 1)).exMem = some t := by
  obtain ⟨ht, hl⟩ := h
  simp only [Core.leavesEx, Bool.and_eq_true, Bool.not_eq_true'] at hl
  simp only [tags, Tags.next, hl.1.2, hl.2, ht, Bool.false_eq_true, if_false]

/-- What leaves EX waits in MEM, as long as the pipeline is frozen. -/
theorem exMem_of_frozen {n k t : ℕ} (h : (tags σ ι n).exMem = some t) (hk : n ≤ k)
    (hg : ∀ j, n ≤ j → j < k → (σ j).globalMemStall (ι j)) : (tags σ ι k).exMem = some t := by
  induction k, hk using Nat.le_induction with
  | base => exact h
  | succ k hk ih =>
    rw [tags_succ_frozen (hg k hk k.lt_succ_self)]
    exact ih fun j h₁ h₂ => hg j h₁ (Nat.lt_succ_of_lt h₂)

/-- What has completed is not in MEM again. -/
theorem not_completes_of_lt {k k' t : ℕ} (h : completes σ ι k t) (hk : k < k') :
    ¬completes σ ι k' t := by
  intro h'
  have hl : (tags σ ι (k + 1)).LeftMem t := (ordered_tags k).leftMem h.1 h.2
  have := leftMem_mono hl hk t (by simp [Tags.beforeWb, h'.1])
  exact absurd this (lt_irrefl t)

/-- What leaves EX completes exactly once, when the pipeline next moves. -/
theorem completes_once {m n t : ℕ} (h : leaves σ ι m t) (hmn : m < n)
    (hg : (σ n).globalMemStall (ι n) = false) : ∃! k, completes σ ι k t := by
  classical
  have hex : ∃ k, m + 1 ≤ k ∧ (σ k).globalMemStall (ι k) = false := ⟨n, hmn, hg⟩
  obtain ⟨hk, hgk⟩ := Nat.find_spec hex
  have hc : completes σ ι (Nat.find hex) t := by
    refine ⟨exMem_of_frozen (exMem_of_leaves h) hk fun j h₁ h₂ => ?_, hgk⟩
    simpa [h₁] using Nat.find_min hex h₂
  refine ⟨_, hc, fun k' hc' => ?_⟩
  rcases Nat.lt_trichotomy k' (Nat.find hex) with h' | h' | h'
  · exact absurd hc (not_completes_of_lt hc' h')
  · exact h'
  · exact absurd hc' (not_completes_of_lt hc h')

/-- A redirection leaves nothing before WB. -/
theorem tags_succ_redirect {n : ℕ} (hr : ((σ n).trap (ι n)).pcTrapOverride) :
    tags σ ι (n + 1) = ⟨(tags σ ι n).fetched + 1, none, none, none, (tags σ ι n).exMem⟩ := by
  simp [tags, Tags.next, Core.globalMemStall_of_pcTrapOverride hr, hr]

/-- What is flushed when control is redirected is not seen before WB any more. -/
theorem leftMem_of_redirect {n t : ℕ} (hr : ((σ n).trap (ι n)).pcTrapOverride)
    (h : t ≤ (tags σ ι n).fetched) : (tags σ ι (n + 1)).LeftMem t := by
  rw [tags_succ_redirect hr]
  intro x hx
  have hx' : x = (tags σ ι n).fetched + 1 := by simpa [Tags.beforeWb, Tags.beforeMem] using hx
  exact hx' ▸ Nat.lt_succ_of_le h

theorem memWb_succ {n t : ℕ} (h : (tags σ ι (n + 1)).memWb = some t) :
    (tags σ ι n).memWb = some t ∨ (tags σ ι n).exMem = some t := by
  rw [tags, Tags.next] at h
  split at h
  · exact .inl h
  · exact .inr h

/-- What is flushed when control is redirected reaches neither MEM nor WB, at any time. -/
theorem flushed_of_redirect {n t t' : ℕ} (hr : ((σ n).trap (ι n)).pcTrapOverride)
    (ht : (tags σ ι n).idEx = some t) (h : t ≤ t') (h' : t' ≤ (tags σ ι n).fetched) (m : ℕ) :
    (tags σ ι m).exMem ≠ some t' ∧ (tags σ ι m).memWb ≠ some t' := by
  -- Before: what is in MEM or WB is older than the instruction in EX. After: its number is past.
  rw [← not_or]
  rcases Nat.lt_or_ge n m with hm | hm
  swap
  · intro hx
    have := leftEx_mono (leftEx_of_mem hx) hm t (by simp [Tags.beforeMem, ht])
    omega
  · induction m, hm using Nat.le_induction with
    | base =>
      rw [tags_succ_redirect hr]
      rintro (hx | hx)
      · cases hx
      · have := leftEx_of_mem (.inl hx) t (by simp [Tags.beforeMem, ht])
        omega
    | succ m hm ih =>
      rintro (hx | hx)
      · have hl := leftMem_mono (leftMem_of_redirect hr h') (Nat.le_succ_of_le hm)
        exact absurd (hl t' (by simp [Tags.beforeWb, hx])) (lt_irrefl t')
      · exact ih ((memWb_succ hx).symm)

end

/-! ## What an instruction does -/

namespace Core

variable (s : Core) (i : CoreInputs)

/-- `clint_wen`, and the write enable of the LED register. -/
def clintWen : Bool := s.storeCommits && s.isClint && !s.globalMemStall i
def ledWen : Bool := s.storeCommits && s.isLed && !s.globalMemStall i

/-- MEM makes a request, to the D-cache or the TCM or to a device. -/
def requests : Bool :=
  s.dcacheValid || s.uartReq || s.intcReq || s.accelReq || s.clintWen i || s.ledWen i

/-- The instruction in EX writes a CSR of its own. -/
def writesCsr : Bool := s.exCsrWen i && !(s.trap i).trapTaken && !(s.trap i).mretExec

variable {s i}

theorem WellFormed.valid_of_writes (h : s.WellFormed) {r : BitVec 5} (hw : s.memWb.writes r) :
    s.memWb.valid := by
  by_contra hv
  have hr := h.memWb (Bool.eq_false_iff.2 hv)
  simp only [MemWb.writes, Bool.and_eq_true, beq_iff_eq, bne_iff_ne] at hw
  exact hw.2 (hw.1.2 ▸ hr hw.1.1)

/-- A bubble in MEM asks for nothing. -/
theorem isLoad_of_bubble (h : s.exMem.IsBubble) : s.isLoad = false := by
  cases hw : s.exMem.regWen
  · simp [isLoad, hw]
  · simp [isLoad, h.wbSel hw]

theorem WellFormed.valid_of_requests (h : s.WellFormed) (hr : s.requests i) : s.exMem.valid := by
  by_contra hv
  have hb := h.exMemBubble (Bool.eq_false_iff.2 hv)
  simp [requests, dcacheValid, dcacheRen, dcacheWen, uartReq, uartValid, intcReq, intcValid,
    accelReq, accelValid,
    clintWen, ledWen, storeCommits, isStore, amoReadPhase, amoWritePhase, isLoad_of_bubble hb, hb.memRw,
    hb.isAmo] at hr

theorem WellFormed.valid_of_lrReservationSet (h : s.WellFormed) (hr : s.lrReservationSet i) :
    s.exMem.valid := by
  by_contra hv
  simp [lrReservationSet, (h.exMemBubble (Bool.eq_false_iff.2 hv)).isLr] at hr

theorem WellFormed.valid_of_csrWen (h : s.WellFormed) (hc : s.idEx.ctl.csrWen) : s.idEx.valid := by
  by_contra hv
  rcases (h.idExBubble (Bool.eq_false_iff.2 hv)).ctl with hb | hb <;> rw [hb] at hc
  · exact absurd hc (by decide)
  · exact absurd hc (by simp [controlLogic_nop])

/-- What writes a CSR of its own leaves EX on that cycle. -/
theorem WellFormed.leavesEx_of_writesCsr (h : s.WellFormed) (hc : s.writesCsr i) : s.leavesEx i := by
  simp only [writesCsr, exCsrWen, Bool.and_eq_true, Bool.not_eq_true'] at hc
  obtain ⟨⟨⟨⟨hc, hg⟩, -⟩, ht⟩, hm⟩ := hc
  simp [leavesEx, h.valid_of_csrWen hc, hg, trap_pcTrapOverride, ht, hm]

theorem target_of_trapTaken (h : (s.trap i).trapTaken) :
    (s.trap i).trapTargetPc = s.csr.mtvec ∧ (s.trap i).trapPc = s.idEx.pc :=
  trapController_target.1 h

theorem target_of_mretExec (h : (s.trap i).trapTaken = false) (hm : (s.trap i).mretExec) :
    (s.trap i).trapTargetPc = s.csr.mepc :=
  trapController_target.2 h hm

/-- No trap is taken with an `mret` in EX: it is legal, accesses nothing, and holds off
    interrupts. -/
theorem WellFormed.isMret_of_trapTaken (h : s.WellFormed) (ht : (s.trap i).trapTaken) :
    isMret s.idEx.inst = false := by
  refine Bool.eq_false_iff.2 fun hm => ?_
  obtain ⟨hs, hi⟩ : opcode s.idEx.inst = 0b1110011 ∧ s.idEx.inst.extractLsb' 20 12 = 0x302#12 := by
    simpa [isMret, isSystem] using hm
  rcases cause_of_trapTaken ht with hc | ⟨-, hv, hc⟩ | ⟨-, -, hc⟩ | ⟨-, hc⟩
  · simp [hm] at hc
  · rw [(h.idEx hv).ctl, (controlLogic_system hs).2] at hc
    exact absurd hc (by decide)
  · simp [exMisalignLoad, exMisalignStore, hs] at hc
  · simp [isEcall, hi] at hc

end Core

/-! ## Where control goes -/

/-- The instruction in EX at the cycle `m` is the one at `target`, fetched after the cycle `n`. -/
structure Resumed (σ : ℕ → Core) (ι : ℕ → CoreInputs) (n : ℕ) (target : Word) (m : ℕ) : Prop where
  valid : (σ m).idEx.valid
  pc : (σ m).idEx.pc = target
  fetched : ∃ k, n < k ∧ k < m ∧ (σ k).pc = target ∧ (σ m).idEx.inst = muxedIfInst (ι k).ifInst

/-- From a redirection at the cycle `n` on, until its target is in EX: it is being fetched, or
    decoded. -/
inductive Refetching (σ : ℕ → Core) (ι : ℕ → CoreInputs) (n : ℕ) (target : Word) (m : ℕ) : Prop
  | fetch (pc : (σ m).pc = target) (ifId : (σ m).ifId.valid = false) (idEx : (σ m).idEx.valid = false)
  | decode (k : ℕ) (hn : n < k) (hm : k < m) (pc : (σ k).pc = target) (valid : (σ m).ifId.valid)
      (ifId : (σ m).ifId.pc = target) (inst : (σ m).ifId.inst = muxedIfInst (ι k).ifInst)
      (idEx : (σ m).idEx.valid = false)

section

variable {STALL_WATCHDOG_LIMIT : BitVec 16} {σ : ℕ → Core} {ι : ℕ → CoreInputs}
  {π : ℕ → Predictor}

theorem Refetching.idEx_valid {n m : ℕ} {target : Word} (hr : Refetching σ ι n target m) :
    (σ m).idEx.valid = false := by
  cases hr with
  | fetch _ _ idEx => exact idEx
  | decode _ _ _ _ _ _ _ idEx => exact idEx

theorem Refetching.next (h : (core STALL_WATCHDOG_LIMIT).IsRun σ fun n => (ι n, π n)) {n m : ℕ}
    {target : Word} (hm : n < m) (hr : Refetching σ ι n target m) :
    Refetching σ ι n target (m + 1) ∨ Resumed σ ι n target (m + 1) := by
  obtain ⟨hs, hp, ht⟩ := (wellFormed_of_reachable (h.reachable m)).of_bubble (i := ι m) hr.idEx_valid
  cases hg : (σ m).globalMemStall (ι m)
  · have hid : (σ (m + 1)).idEx = (σ m).decoded := by
      rw [core_next h m, Core.nextWith_idEx]
      simp [Core.nextIdEx, hg, hs, hp, ht]
    cases hr with
    | fetch pc ifId idEx =>
      have hif : (σ (m + 1)).ifId.valid ∧ (σ (m + 1)).ifId.pc = (σ m).pc ∧
          (σ (m + 1)).ifId.inst = muxedIfInst (ι m).ifInst := by
        rw [core_next h m, Core.nextWith_ifId]
        simp [Core.nextIfId, hg, hs, hp, ht]
      exact .inl (.decode m hm m.lt_succ_self pc hif.1 (hif.2.1.trans pc) hif.2.2 (hid ▸ ifId))
    | decode k hn hk pc valid ifId inst idEx =>
      exact .inr ⟨hid ▸ valid, hid ▸ ifId, k, hn, Nat.lt_succ_of_lt hk, pc, hid ▸ inst⟩
  · have hpc : (σ (m + 1)).pc = (σ m).pc := by
      rw [core_next h m, Core.nextWith_pc, Core.nextPc, hg, Bool.or_true, if_pos rfl]
    have hif : (σ (m + 1)).ifId = (σ m).ifId := by
      rw [core_next h m, Core.nextWith_ifId, Core.nextIfId, if_pos hg]
    have hid : (σ (m + 1)).idEx = (σ m).idEx := by
      rw [core_next h m, Core.nextWith_idEx, Core.nextIdEx, if_pos hg]
    left
    cases hr with
    | fetch pc ifId idEx => exact .fetch (hpc.trans pc) (hif ▸ ifId) (hid ▸ idEx)
    | decode k hn hk pc valid ifId inst idEx =>
      exact .decode k hn (Nat.lt_succ_of_lt hk) pc (hif ▸ valid) (hif ▸ ifId) (hif ▸ inst) (hid ▸ idEx)

/-- The first instruction in EX after a redirection is the one at its target. -/
theorem resumed_of_redirect (h : (core STALL_WATCHDOG_LIMIT).IsRun σ fun n => (ι n, π n)) {n m : ℕ}
    (hr : ((σ n).trap (ι n)).pcTrapOverride) (hm : n < m)
    (hk : ∀ k, n < k → k < m → (σ k).idEx.valid = false) (hv : (σ m).idEx.valid) :
    Resumed σ ι n ((σ n).trap (ι n)).trapTargetPc m := by
  have hg := Core.globalMemStall_of_pcTrapOverride hr
  have h₀ : Refetching σ ι n ((σ n).trap (ι n)).trapTargetPc (n + 1) := by
    refine .fetch ?_ ?_ ?_ <;> rw [core_next h n]
    · simp [Core.nextPc, hg, hr]
    · simp [Core.nextIfId, hg, hr, IfId.clear]
    · simp [Core.nextIdEx, hg, hr, IdEx.clear]
  have hall : ∀ k, n + 1 ≤ k → k < m → Refetching σ ι n ((σ n).trap (ι n)).trapTargetPc k := by
    intro k hk'
    induction k, hk' using Nat.le_induction with
    | base => exact fun _ => h₀
    | succ k hk' ih =>
      intro hkm
      rcases (ih (Nat.lt_of_succ_lt hkm)).next h hk' with h' | h'
      · exact h'
      · exact absurd h'.valid (by simp [hk (k + 1) (Nat.lt_succ_of_lt hk') hkm])
  obtain ⟨k, rfl⟩ : ∃ k, m = k + 1 := ⟨m - 1, by omega⟩
  rcases Nat.eq_or_lt_of_le (Nat.le_of_lt_succ hm) with rfl | hm'
  · exact absurd hv (by simp [h₀.idEx_valid])
  · rcases (hall k hm' k.lt_succ_self).next h hm' with h' | h'
    · exact absurd hv (by simp [h'.idEx_valid])
    · exact h'

/-- Control is given to `target` at the cycle `n`, when the instruction `t` is in EX: what is older
    completes, once; what is not, up to the instruction in IF, does nothing, at any time; and
    the next instruction to reach EX is the one at `target`. -/
structure Precise (σ : ℕ → Core) (ι : ℕ → CoreInputs) (n t : ℕ) (target : Word) : Prop where
  older : ∀ m t', m < n → leaves σ ι m t' → ∃! k, completes σ ι k t'
  registers : ∀ m r, (σ m).memWb.writes r →
    ∃ t', (tags σ ι m).memWb = some t' ∧ (t' < t ∨ (tags σ ι n).fetched < t')
  requests : ∀ m, (σ m).requests (ι m) →
    ∃ t', (tags σ ι m).exMem = some t' ∧ (t' < t ∨ (tags σ ι n).fetched < t')
  reservations : ∀ m, (σ m).lrReservationSet (ι m) →
    ∃ t', (tags σ ι m).exMem = some t' ∧ (t' < t ∨ (tags σ ι n).fetched < t')
  csrs : ∀ m, (σ m).writesCsr (ι m) →
    ∃ t', (tags σ ι m).idEx = some t' ∧ (t' < t ∨ (tags σ ι n).fetched < t')
  resumes : ∀ m, n < m → (∀ k, n < k → k < m → (σ k).idEx.valid = false) → (σ m).idEx.valid →
    Resumed σ ι n target m

theorem precise_of_redirect (h : (core STALL_WATCHDOG_LIMIT).IsRun σ fun n => (ι n, π n)) {n t : ℕ}
    (hr : ((σ n).trap (ι n)).pcTrapOverride) (ht : (tags σ ι n).idEx = some t) :
    Precise σ ι n t ((σ n).trap (ι n)).trapTargetPc := by
  have hg := Core.globalMemStall_of_pcTrapOverride hr
  have hwf : ∀ m, (σ m).WellFormed := fun m => wellFormed_of_reachable (h.reachable m)
  -- Whatever is in MEM or WB, at any time, is not among the flushed.
  have hsep : ∀ m t', (tags σ ι m).exMem = some t' ∨ (tags σ ι m).memWb = some t' →
      t' < t ∨ (tags σ ι n).fetched < t' := by
    intro m t' hx
    by_contra hc
    obtain ⟨h₁, h₂⟩ := not_or.1 hc
    obtain ⟨h₃, h₄⟩ := flushed_of_redirect hr ht (Nat.le_of_not_lt h₁) (Nat.le_of_not_lt h₂) m
    exact hx.elim h₃ h₄
  refine ⟨fun m t' hm hl => completes_once hl hm hg, fun m r hw => ?_, fun m hq => ?_, fun m hq => ?_,
    fun m hc => ?_, fun m hm hk hv => resumed_of_redirect h hr hm hk hv⟩
  · obtain ⟨t', ht'⟩ :=
      Option.isSome_iff_exists.1 ((fits_tags h m).memWb.trans ((hwf m).valid_of_writes hw))
    exact ⟨t', ht', hsep m t' (.inr ht')⟩
  · obtain ⟨t', ht'⟩ :=
      Option.isSome_iff_exists.1 ((fits_tags h m).exMem.trans ((hwf m).valid_of_requests hq))
    exact ⟨t', ht', hsep m t' (.inl ht')⟩
  · obtain ⟨t', ht'⟩ :=
      Option.isSome_iff_exists.1 ((fits_tags h m).exMem.trans ((hwf m).valid_of_lrReservationSet hq))
    exact ⟨t', ht', hsep m t' (.inl ht')⟩
  · have hl := (hwf m).leavesEx_of_writesCsr hc
    have hv : (σ m).idEx.valid := by
      simp only [Core.leavesEx, Bool.and_eq_true] at hl
      exact hl.1.1
    obtain ⟨t', ht'⟩ := Option.isSome_iff_exists.1 ((fits_tags h m).idEx.trans hv)
    exact ⟨t', ht', hsep (m + 1) t' (.inl (exMem_of_leaves ⟨ht', hl⟩))⟩

/-- What is redirected is an instruction. -/
theorem tag_of_redirect (h : (core STALL_WATCHDOG_LIMIT).IsRun σ fun n => (ι n, π n)) {n : ℕ}
    (hr : ((σ n).trap (ι n)).pcTrapOverride) : ∃ t, (tags σ ι n).idEx = some t := by
  refine Option.isSome_iff_exists.1 ((fits_tags h n).idEx.trans ?_)
  by_contra hv
  have := ((wellFormed_of_reachable (h.reachable n)).of_bubble (i := ι n) (Bool.eq_false_iff.2 hv)).2.2
  exact absurd (hr.symm.trans this) (by decide)

/-- An instruction redirects control at most once. -/
theorem redirect_unique {m n t : ℕ} (hm : ((σ m).trap (ι m)).pcTrapOverride)
    (hn : ((σ n).trap (ι n)).pcTrapOverride) (htm : (tags σ ι m).idEx = some t)
    (htn : (tags σ ι n).idEx = some t) : m = n := by
  have hlt : ∀ {m n}, ((σ m).trap (ι m)).pcTrapOverride → (tags σ ι m).idEx = some t →
      (tags σ ι n).idEx = some t → ¬m < n := by
    intro m n hr h₁ h₂ hmn
    have hf := (ordered_tags m).idEx_lt t h₁
    have hl := leftMem_mono (leftMem_of_redirect hr hf.le) hmn t
      (by simp [Tags.beforeWb, Tags.beforeMem, h₂])
    exact absurd hl (lt_irrefl t)
  rcases Nat.lt_trichotomy m n with h' | h' | h'
  · exact absurd h' (hlt hm htm htn)
  · exact h'
  · exact absurd h' (hlt hn htn htm)

/-- From `c` to `c'` the interrupt enable bit `MIE` takes `MPIE`, and no other bit of a CSR changes. -/
structure CsrFile.Restores (c c' : CsrFile) : Prop where
  mie : c'.mstatusMie = c.mstatus.getLsbD 7
  mstatus : ∀ b ≠ 3, c'.mstatus.getLsbD b = c.mstatus.getLsbD b
  others : { c' with mstatus := c.mstatus } = c

theorem CsrFile.restores_mret (c : CsrFile) : c.Restores c.mret := by
  have hbit : ∀ b < 32, (0x08#32).getLsbD b = decide (b = 3) := by decide
  have hget : ∀ b < 32, c.mret.mstatus.getLsbD b =
      if b = 3 then c.mstatus.getLsbD 7 else c.mstatus.getLsbD b := by
    intro b hb
    show ((c.mstatus &&& ~~~0x08#32) ||| if c.mstatus.getLsbD 7 then 0x08#32 else 0#32).getLsbD b = _
    rw [BitVec.getLsbD_or, BitVec.getLsbD_and, BitVec.getLsbD_not,
      apply_ite (BitVec.getLsbD · b), hbit b hb, BitVec.getLsbD_zero, decide_eq_true hb]
    by_cases h₃ : b = 3
    · subst h₃
      cases c.mstatus.getLsbD 7 <;> simp
    · simp [h₃]
  refine ⟨(hget 3 (by decide)).trans (if_pos rfl), fun b hb => ?_, rfl⟩
  rcases Nat.lt_or_ge b 32 with hlt | hge
  · exact (hget b hlt).trans (if_neg hb)
  · rw [BitVec.getLsbD_of_ge _ _ hge, BitVec.getLsbD_of_ge _ _ hge]

/-- Traps are precise, and `mret` is: it acts once, and no trap is taken in its place. -/
theorem precise_of_isRun (h : (core STALL_WATCHDOG_LIMIT).IsRun σ fun n => (ι n, π n)) (n : ℕ) :
    (((σ n).trap (ι n)).trapTaken →
      isMret (σ n).idEx.inst = false ∧
        (σ (n + 1)).csr.mepc = (σ n).idEx.pc ∧
        ∃ t, (tags σ ι n).idEx = some t ∧ Precise σ ι n t (σ n).csr.mtvec) ∧
    (((σ n).trap (ι n)).mretExec →
      (σ n).csr.Restores (σ (n + 1)).csr ∧
        ∃ t, (tags σ ι n).idEx = some t ∧ Precise σ ι n t (σ n).csr.mepc ∧
          ∀ m, ((σ m).trap (ι m)).mretExec → (tags σ ι m).idEx = some t → m = n) := by
  have hwf := wellFormed_of_reachable (h.reachable n)
  have hmret : ∀ m, ((σ m).trap (ι m)).mretExec → ((σ m).trap (ι m)).pcTrapOverride := by
    intro m hm
    rw [Core.trap_pcTrapOverride, hm, Bool.or_true]
  refine ⟨fun ht => ?_, fun hm => ?_⟩
  · have hr : ((σ n).trap (ι n)).pcTrapOverride := by rw [Core.trap_pcTrapOverride, ht, Bool.true_or]
    obtain ⟨t, htag⟩ := tag_of_redirect h hr
    obtain ⟨htarget, hpc⟩ := Core.target_of_trapTaken ht
    refine ⟨hwf.isMret_of_trapTaken ht, ?_, t, htag, htarget ▸ precise_of_redirect h hr htag⟩
    rw [core_next h n, Core.nextWith_csr, Core.nextCsr, if_pos ht]
    exact hpc
  · obtain ⟨t, htag⟩ := tag_of_redirect h (hmret n hm)
    have ht : ((σ n).trap (ι n)).trapTaken = false := by
      refine Bool.eq_false_iff.2 fun ht => ?_
      rw [Core.trap_mretExec, hwf.isMret_of_trapTaken ht] at hm
      exact absurd hm (by simp)
    refine ⟨?_, t, htag, Core.target_of_mretExec ht hm ▸ precise_of_redirect h (hmret n hm) htag, ?_⟩
    · rw [core_next h n, Core.nextWith_csr, Core.nextCsr, ht, if_neg Bool.false_ne_true, if_pos hm]
      exact (σ n).csr.restores_mret
    · exact fun m hm' ht' => redirect_unique (hmret m hm') (hmret n hm) ht' htag

end

/-! ## A run -/

/-- `ecall`, and an `mret` in the handler. -/
def ecallMret (n : ℕ) : CoreInputs :=
  { CoreInputs.ready with ifInst := if n = 0 then 0x00000073 else if n = 3 then 0x30200073 else nop }

/-- The handler at `mtvec`, which is 0, is entered, and left for the address of the `ecall`. -/
theorem ecallMret_precise :
    ((coreTrace ecallMret 2).trap (ecallMret 2)).trapTaken ∧
      (coreTrace ecallMret 3).csr.mepc = Core.resetPc ∧
      (∃ t, Precise (coreTrace ecallMret) ecallMret 2 t 0) ∧
      ((coreTrace ecallMret 5).trap (ecallMret 5)).mretExec ∧
      ∃ t, Precise (coreTrace ecallMret) ecallMret 5 t Core.resetPc := by
  have h₂ : ((coreTrace ecallMret 2).trap (ecallMret 2)).trapTaken := by decide +kernel
  have h₅ : ((coreTrace ecallMret 5).trap (ecallMret 5)).mretExec := by decide +kernel
  have hpc : (coreTrace ecallMret 2).idEx.pc = Core.resetPc := by decide +kernel
  have htv : (coreTrace ecallMret 2).csr.mtvec = 0 := by decide +kernel
  have hep : (coreTrace ecallMret 5).csr.mepc = Core.resetPc := by decide +kernel
  obtain ⟨-, he, t, -, ht⟩ := (precise_of_isRun (isRun_coreTrace ecallMret) 2).1 h₂
  obtain ⟨-, u, -, hu, -⟩ := (precise_of_isRun (isRun_coreTrace ecallMret) 5).2 h₅
  exact ⟨h₂, he.trans hpc, ⟨t, htv ▸ ht⟩, h₅, u, hep ▸ hu⟩

end Rv32Soc
