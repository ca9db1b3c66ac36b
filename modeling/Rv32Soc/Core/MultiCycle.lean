import Mathlib.Logic.Function.Iterate
import Rv32Soc.Core.Operands
import Rv32Soc.Riscv.Instr

/-!
# Operations of several cycles

A division holds the pipeline until the divider is done, an AMO until it has read and
written. Each does so once, for its own instruction: the flags `divResultReady` and
`amoResultReady`, that let the instruction go, are low when the next one
arrives.

* `DivUnit.result`: what a run of the divider on two operands gives, whatever it was
  left with by the run before;
* `Core.Dividing`: how far the division in EX has come, on the operands it still
  has;
* `divStarts`, `accesses`: the starts of the divider for the instruction in EX,
  and the completed accesses to the D-cache for the one in MEM;
* `multiCycle_of_isRun`: an instruction leaves with its own result.
-/

namespace Rv32Soc

/-! ## A run of the divider -/

namespace DivUnit

/-- The divider out of reset. -/
def idle : DivUnit := ⟨false, false, 0, 0, 0, 0, 0, false, false⟩

/-- The divider, `k` steps after the start. -/
def run (a b : Word) (isSigned : Bool) (k : ℕ) : DivUnit := stepped^[k] (idle.started a b isSigned)

/-- The quotient and the remainder of a run: at once, or after 32 steps. -/
def result (a b : Word) (isSigned : Bool) : Word × Word :=
  if (idle.started a b isSigned).done then
    ((idle.started a b isSigned).quotient, (idle.started a b isSigned).remainder)
  else ((run a b isSigned 32).quotient, (run a b isSigned 32).remainder)

/-- Two dividers that do the same from here on: the working registers count while they are
    busy, and the results when they are done. -/
structure Same (d e : DivUnit) : Prop where
  busy : d.busy = e.busy
  done : d.done = e.done
  count : d.busy → d.count = e.count
  divisorAbs : d.busy → d.divisorAbs = e.divisorAbs
  rq : d.busy → d.rq = e.rq
  negQ : d.busy → d.negQ = e.negQ
  negR : d.busy → d.negR = e.negR
  quotient : d.done → d.quotient = e.quotient
  remainder : d.done → d.remainder = e.remainder

theorem same_started {d e : DivUnit} (hd : d.busy = false) (hd' : d.done = false) (he : e.busy = false)
    (he' : e.done = false) (a b : Word) (isSigned : Bool) :
    (d.started a b isSigned).Same (e.started a b isSigned) := by
  unfold started
  split_ifs <;> constructor <;> simp [hd, hd', he, he']

theorem Same.stepped {d e : DivUnit} (h : d.Same e) (hb : d.busy) : d.stepped.Same e.stepped := by
  have hrq : d.rqNext = e.rqNext := by
    simp only [rqNext, h.rq hb, h.divisorAbs hb]
  unfold DivUnit.stepped
  rw [h.count hb, hrq, h.negQ hb, h.negR hb]
  by_cases hc : e.count = 31
  · rw [if_pos hc, if_pos hc]
    constructor <;> simp
  · rw [if_neg hc, if_neg hc]
    exact ⟨h.busy, h.done, fun _ => rfl, h.divisorAbs, fun _ => rfl, fun _ => rfl,
      fun _ => rfl, h.quotient, h.remainder⟩

/-- The divider is at work on `a` and `b`. -/
structure Running (d : DivUnit) (a b : Word) (isSigned : Bool) : Prop where
  busy : d.busy
  done : d.done = false
  long : (idle.started a b isSigned).done = false
  same : d.Same (run a b isSigned d.count.toNat)

/-- The divider holds the result for `a` and `b`. -/
def Holds (d : DivUnit) (a b : Word) (isSigned : Bool) : Prop :=
  (d.quotient, d.remainder) = result a b isSigned

variable {d : DivUnit}

/-- Without a start `done` falls, and all else stays. -/
theorem next_idle (hb : d.busy = false) (a b : Word) (isSigned : Bool) :
    d.next false a b isSigned = { d with done := false } := by
  simp [next, hb]

theorem next_start (hb : d.busy = false) (hd : d.done = false) (a b : Word) (isSigned : Bool) :
    d.next true a b isSigned = d.started a b isSigned := by
  have h : { d with done := false } = d := by rw [← hd]
  rw [next, if_pos (by simp [hb, hd]), h]

theorem next_busy (hb : d.busy) (hd : d.done = false) (start : Bool) (a b : Word) (isSigned : Bool) :
    d.next start a b isSigned = d.stepped := by
  have h : { d with done := false } = d := by rw [← hd]
  rw [next, if_neg (by simp [hb]), if_pos hb, h]

/-- A start: the result is there at once, or the divider is running. -/
theorem started_cases (hb : d.busy = false) (hd : d.done = false) (a b : Word) (isSigned : Bool) :
    ((d.started a b isSigned).busy = false ∧ (d.started a b isSigned).done ∧
        (d.started a b isSigned).Holds a b isSigned) ∨
      (d.started a b isSigned).Running a b isSigned := by
  have hs := same_started hb hd (e := idle) rfl rfl a b isSigned
  have hc : ((d.started a b isSigned).busy = false ∧ (d.started a b isSigned).done) ∨
      (d.started a b isSigned).busy ∧ (d.started a b isSigned).done = false ∧
        (d.started a b isSigned).count = 0 := by
    unfold started
    split_ifs <;> simp [hb, hd]
  rcases hc with ⟨hb', hd'⟩ | ⟨hb', hd', h₀⟩
  · refine .inl ⟨hb', hd', ?_⟩
    rw [Holds, hs.quotient hd', hs.remainder hd', result, if_pos (hs.done ▸ hd')]
  · refine .inr ⟨hb', hd', hs.done ▸ hd', ?_⟩
    rw [h₀]
    exact hs

/-- A step: the divider is still running, or it is done. -/
theorem Running.stepped {a b : Word} {isSigned : Bool} (h : d.Running a b isSigned) :
    (d.stepped.busy = false ∧ d.stepped.done ∧ d.stepped.Holds a b isSigned) ∨
      d.stepped.Running a b isSigned := by
  have hs := h.same.stepped h.busy
  rw [run, ← Function.iterate_succ_apply' (f := DivUnit.stepped)] at hs
  by_cases hc : d.count = 31
  · have hd : d.stepped.done := by rw [DivUnit.stepped, if_pos hc]
    refine .inl ⟨by rw [DivUnit.stepped, if_pos hc], hd, ?_⟩
    rw [hc] at hs
    rw [Holds, hs.quotient hd, hs.remainder hd, result, h.long]
    rfl
  · have hn : d.stepped.count.toNat = d.count.toNat + 1 := by
      have := d.count.isLt
      have : d.count.toNat ≠ 31 := fun h' => hc (BitVec.eq_of_toNat_eq h')
      rw [DivUnit.stepped, if_neg hc, BitVec.toNat_add]
      exact Nat.mod_eq_of_lt (by show d.count.toNat + 1 < 32; omega)
    refine .inr ⟨?_, ?_, h.long, ?_⟩
    · rw [DivUnit.stepped, if_neg hc]; exact h.busy
    · rw [DivUnit.stepped, if_neg hc]; exact h.done
    · rw [hn]; exact hs

end DivUnit

/-! ## A frozen pipeline -/

namespace Core

variable {s : Core} {i : CoreInputs} {p : Predictor} {L : BitVec 16}

/-- The reservation that `sc.w` needs stays while it is frozen. -/
theorem WellFormed.rm_frozen (h : s.WellFormed) (hg : s.globalMemStall i) (hs : s.exMem.isSc) :
    (s.nextWith i p L).rm = s.rm := by
  have hd := h.isDecoded_of_atomic (.inr (.inl hs))
  obtain ⟨-, hf⟩ := opcode_of_isSc (hd.isSc ▸ hs)
  have hlr : s.exMem.isLr = false := by
    refine Bool.eq_false_iff.2 fun hl => ?_
    obtain ⟨-, hf'⟩ := opcode_of_isLr (hd.isLr ▸ hl)
    exact absurd (hf.symm.trans hf') (by decide)
  have hamo : s.exMem.isAmo = false := by
    refine Bool.eq_false_iff.2 fun ha => ?_
    exact (opcode_of_isAmo (hd.isAmo ▸ ha)).2.2 hf
  have ht : (s.trap i).trapTaken = false := by
    have ht := pcTrapOverride_of_globalMemStall hg
    rw [trap_pcTrapOverride, Bool.or_eq_false_iff] at ht
    exact ht.1
  simp [ReservationMonitor.next, lrReservationSet, scReservationClear, normalStoreReservationClear,
    amoWritePhase, hlr, hamo, ht, hs, hg]

theorem WellFormed.exMemForwardData_frozen (h : s.WellFormed) (hg : s.globalMemStall i) :
    (s.nextWith i p L).exMemForwardData = s.exMemForwardData := by
  have he : (s.nextWith i p L).exMem = s.exMem := by simp [nextExMem, hg]
  unfold exMemForwardData finalAluToWb scSuccessFlag
  rw [he]
  by_cases hs : s.exMem.isSc
  · rw [h.rm_frozen hg hs]
  · simp only [hs]
    rfl

/-- An instruction that waits in EX keeps its operands. -/
theorem WellFormed.fwdMux_frozen (h : s.WellFormed) (hg : s.globalMemStall i) :
    (s.nextWith i p L).fwdMux = s.fwdMux := by
  have he : (s.nextWith i p L).memWb = s.memWb := by simp [nextMemWb, hg]
  funext fwd v
  cases fwd
  · rfl
  · exact h.exMemForwardData_frozen hg
  · simp only [fwdMux, he]

theorem WellFormed.aluA_frozen (h : s.WellFormed) (hg : s.globalMemStall i) :
    (s.nextWith i p L).aluA = s.aluA := by
  simp only [aluA, fwdRs1, fwdA, h.fwdMux_frozen hg, nextWith_idEx, nextWith_exMem,
    nextWith_memWb, nextIdEx, nextExMem, nextMemWb, hg, if_true]

theorem WellFormed.aluB_frozen (h : s.WellFormed) (hg : s.globalMemStall i) :
    (s.nextWith i p L).aluB = s.aluB := by
  simp only [aluB, fwdRs2, fwdB, h.fwdMux_frozen hg, nextWith_idEx, nextWith_exMem,
    nextWith_memWb, nextIdEx, nextExMem, nextMemWb, hg, if_true]

/-! ## The division in EX -/

/-- `div_is_signed`. -/
def divIsSigned (s : Core) : Bool := !s.idEx.ctl.aluSel.getLsbD 0

/-- How far the division in EX has come, on the operands that EX has now. -/
inductive Dividing (s : Core) : Prop
  | idle (busy : s.div.busy = false) (done : s.div.done = false) (ready : s.divResultReady = false)
  | running (own : s.isDivOp) (run : s.div.Running s.aluA s.aluB s.divIsSigned)
      (ready : s.divResultReady = false)
  | done (own : s.isDivOp) (busy : s.div.busy = false) (done : s.div.done)
      (holds : s.div.Holds s.aluA s.aluB s.divIsSigned) (ready : s.divResultReady = false)
  | ready (own : s.isDivOp) (busy : s.div.busy = false) (done : s.div.done = false)
      (holds : s.div.Holds s.aluA s.aluB s.divIsSigned) (ready : s.divResultReady)

/-- The divider has been started for the instruction in EX. -/
def divStarted (s : Core) : Bool := s.div.busy || s.div.done || s.divResultReady

/-- The instruction in EX does not leave before its division is done. -/
theorem divResultReady_of_leaves (hg : s.globalMemStall i = false) (hd : s.isDivOp) :
    s.divResultReady := by
  simp only [globalMemStall, divStall, Bool.or_eq_false_iff, hd, Bool.true_and] at hg
  simpa using hg.1.1.1.1.2

theorem divStart_of_leaves (hg : s.globalMemStall i = false) : s.divStart = false := by
  cases hd : s.isDivOp
  · simp [divStart, hd]
  · simp [divStart, divResultReady_of_leaves hg hd]

theorem Dividing.holds (h : s.Dividing) (hr : s.divResultReady) :
    s.div.Holds s.aluA s.aluB s.divIsSigned := by
  cases h with
  | idle _ _ ready => exact absurd hr (by simp [ready])
  | running _ _ ready => exact absurd hr (by simp [ready])
  | done _ _ _ _ ready => exact absurd hr (by simp [ready])
  | ready _ _ _ holds _ => exact holds

/-- A division leaves EX with the result of its run. -/
theorem Dividing.actualExResult_eq (h : s.Dividing) (hg : s.globalMemStall i = false) (hd : s.isDivOp)
    (hc : s.idEx.ctl.csrWen = false) :
    s.actualExResult i =
      if s.idEx.ctl.aluSel.getLsbD 1 then (DivUnit.result s.aluA s.aluB s.divIsSigned).2
      else (DivUnit.result s.aluA s.aluB s.divIsSigned).1 := by
  rw [actualExResult, hc, if_neg Bool.false_ne_true, exResult, if_pos hd,
    ← h.holds (divResultReady_of_leaves hg hd)]

/-- A division works on the two registers, and reads no CSR. -/
theorem operands_of_isDivOp (h : s.idEx.IsDecoded) (hd : s.isDivOp) :
    s.aluA = s.fwdRs1 ∧ s.aluB = s.fwdRs2 ∧ s.idEx.ctl.csrWen = false := by
  have hs : (controlLogic s.idEx.inst).aluSel.extractLsb' 2 3 = 0b100 := by
    rw [isDivOp, h.ctl] at hd
    exact beq_iff_eq.1 hd
  obtain ⟨ha, hb⟩ := controlLogic_div hs
  refine ⟨by rw [aluA, h.ctl, ha]; rfl, by rw [aluB, h.ctl, hb]; rfl, ?_⟩
  rw [h.ctl]
  refine Bool.eq_false_iff.2 fun hc => ?_
  rw [(controlLogic_system (opcode_of_csrWen hc)).1] at hs
  exact absurd hs (by decide)

/-- When the pipeline moves on, the divider is free for the next instruction. -/
theorem Dividing.next_leaves (h : s.Dividing) (hg : s.globalMemStall i = false) :
    (s.nextWith i p L).div.busy = false ∧ (s.nextWith i p L).div.done = false ∧
      (s.nextWith i p L).divResultReady = false := by
  have hs := divStart_of_leaves hg
  have hidle : s.div.busy = false ∧ s.div.done = false := by
    cases h with
    | idle busy done _ => exact ⟨busy, done⟩
    | running own _ ready => exact absurd (divResultReady_of_leaves hg own) (by simp [ready])
    | done own _ _ _ ready => exact absurd (divResultReady_of_leaves hg own) (by simp [ready])
    | ready _ busy done _ _ => exact ⟨busy, done⟩
  simp [DivUnit.next, hs, hidle.1, hidle.2, nextDivResultReady, hg]

theorem Dividing.next_frozen (h : s.Dividing) (hwf : s.WellFormed) (hg : s.globalMemStall i) :
    (s.nextWith i p L).Dividing := by
  have ha := hwf.aluA_frozen (p := p) (L := L) hg
  have hb := hwf.aluB_frozen (p := p) (L := L) hg
  have hx : (s.nextWith i p L).idEx = s.idEx := by simp [nextIdEx, hg]
  have hop : (s.nextWith i p L).isDivOp = s.isDivOp := by rw [isDivOp, hx, isDivOp]
  have hsg : (s.nextWith i p L).divIsSigned = s.divIsSigned := by rw [divIsSigned, hx, divIsSigned]
  have hr : (s.nextWith i p L).divResultReady = (s.div.done || s.divResultReady) := by
    cases hd : s.div.done <;> simp [nextDivResultReady, hg, hd]
  have hn : (s.nextWith i p L).div = _ := nextWith_div s i p
  cases h with
  | idle busy done ready =>
    rw [ready, Bool.or_false, done] at hr
    cases hd : s.isDivOp
    · rw [show s.divStart = false by simp [divStart, hd], DivUnit.next_idle busy] at hn
      exact .idle (by rw [hn, busy]) (by rw [hn]) hr
    · -- Started on this edge, and done at once for a zero divisor or the signed overflow.
      rw [show s.divStart = true by simp [divStart, hd, busy, done, ready],
        DivUnit.next_start busy done] at hn
      rcases DivUnit.started_cases busy done s.aluA s.aluB s.divIsSigned with ⟨h₁, h₂, h₃⟩ | h₁
      · exact .done (hop.trans hd) (hn ▸ h₁) (hn ▸ h₂) (by rw [ha, hb, hsg, hn]; exact h₃) hr
      · exact .running (hop.trans hd) (by rw [ha, hb, hsg, hn]; exact h₁) hr
  | running own run ready =>
    -- The step that finds the counter at its end delivers the result.
    rw [ready, Bool.or_false, run.done] at hr
    rw [DivUnit.next_busy run.busy run.done] at hn
    rcases run.stepped with ⟨h₁, h₂, h₃⟩ | h₁
    · exact .done (hop.trans own) (hn ▸ h₁) (hn ▸ h₂) (by rw [ha, hb, hsg, hn]; exact h₃) hr
    · exact .running (hop.trans own) (by rw [ha, hb, hsg, hn]; exact h₁) hr
  | done own busy done holds ready =>
    -- `done` is up for one cycle; `divResultReady` keeps the result until EX moves on.
    rw [done, Bool.true_or] at hr
    rw [show s.divStart = false by simp [divStart, done], DivUnit.next_idle busy] at hn
    exact .ready (hop.trans own) (by rw [hn, busy]) (by rw [hn])
      (by rw [ha, hb, hsg, hn]; exact holds) hr
  | ready own busy done holds ready =>
    rw [ready, Bool.or_true] at hr
    rw [show s.divStart = false by simp [divStart, ready], DivUnit.next_idle busy] at hn
    exact .ready (hop.trans own) (by rw [hn, busy]) (by rw [hn])
      (by rw [ha, hb, hsg, hn]; exact holds) hr

/-- A division that has been started stays so, and there is no other way to become so. -/
theorem Dividing.divStarted_frozen (h : s.Dividing) (hg : s.globalMemStall i) :
    (s.nextWith i p L).divStarted = (s.divStarted || s.divStart) := by
  have hn : (s.nextWith i p L).div = _ := nextWith_div s i p
  have hr : (s.nextWith i p L).divResultReady = (s.div.done || s.divResultReady) := by
    cases hd : s.div.done <;> simp [nextDivResultReady, hg, hd]
  cases h with
  | idle busy done ready =>
    cases hd : s.isDivOp
    · rw [show s.divStart = false by simp [divStart, hd], DivUnit.next_idle busy] at hn
      rw [divStarted, hn, hr, busy, done, ready, divStarted, busy, done, ready, divStart, hd]
      rfl
    · rw [show s.divStart = true by simp [divStart, hd, busy, done, ready],
        DivUnit.next_start busy done] at hn
      rw [show s.divStart = true by simp [divStart, hd, busy, done, ready], Bool.or_true, divStarted, hn]
      rcases DivUnit.started_cases busy done s.aluA s.aluB s.divIsSigned with ⟨-, h₂, -⟩ | h₁
      · rw [divIsSigned] at h₂
        rw [h₂, Bool.or_true, Bool.true_or]
      · rw [divIsSigned] at h₁
        rw [h₁.busy, Bool.true_or, Bool.true_or]
  | running own run ready =>
    rw [DivUnit.next_busy run.busy run.done] at hn
    rw [show s.divStarted = true by simp [divStarted, run.busy], Bool.true_or, divStarted, hn]
    rcases run.stepped with ⟨-, h₂, -⟩ | h₁
    · rw [h₂, Bool.or_true, Bool.true_or]
    · rw [h₁.busy, Bool.true_or, Bool.true_or]
  | done own busy done holds ready =>
    rw [divStarted, hr, done, Bool.true_or, Bool.or_true, divStarted, done, Bool.or_true, Bool.true_or,
      Bool.true_or]
  | ready own busy done holds ready =>
    rw [divStarted, hr, ready, Bool.or_true, Bool.or_true, divStarted, ready, Bool.or_true, Bool.true_or]

theorem Dividing.next (h : s.Dividing) (hwf : s.WellFormed) : (s.nextWith i p L).Dividing := by
  cases hg : s.globalMemStall i
  · obtain ⟨h₁, h₂, h₃⟩ := h.next_leaves (p := p) (L := L) hg
    exact .idle h₁ h₂ h₃
  · exact h.next_frozen hwf hg

end Core

theorem dividing_of_reachable {STALL_WATCHDOG_LIMIT : BitVec 16} {s : Core}
    (h : (core STALL_WATCHDOG_LIMIT).Reachable s) : s.Dividing := by
  refine h.invariant_of (P := Core.Dividing) (Q := Core.WellFormed) ?_ ?_ ?_
  · exact fun _ hs => wellFormed_of_reachable hs
  · rintro s ⟨-, -, -, -, -, -, -, -, -, -, hb, hd, hr, -⟩
    exact .idle hb hd hr
  · exact fun _ _ hwf hs _ => hs.next hwf

namespace Core

variable {s : Core} {i : CoreInputs} {p : Predictor} {L : BitVec 16}

/-- How many edges the instruction in EX still waits for the divider, at most. -/
def divWait (s : Core) : ℕ :=
  if s.isDivOp && !s.divResultReady then
    if s.div.done then 1 else if s.div.busy then 33 - s.div.count.toNat else 34
  else 0

theorem divStall_eq (s : Core) : s.divStall = decide (0 < s.divWait) := by
  have hc : 0 < 33 - s.div.count.toNat := by
    have := s.div.count.isLt
    omega
  rw [divStall, divWait]
  split_ifs <;> simp_all

/-- The divider is not held up by whatever else stalls the pipeline. -/
theorem Dividing.divWait_frozen (h : s.Dividing) (hg : s.globalMemStall i) :
    (s.nextWith i p L).divWait ≤ s.divWait - 1 := by
  have hx : (s.nextWith i p L).idEx = s.idEx := by simp [nextIdEx, hg]
  have hop : (s.nextWith i p L).isDivOp = s.isDivOp := by rw [isDivOp, hx, isDivOp]
  have hr : (s.nextWith i p L).divResultReady = (s.div.done || s.divResultReady) := by
    cases hd : s.div.done <;> simp [nextDivResultReady, hg, hd]
  have hn : (s.nextWith i p L).div = _ := nextWith_div s i p
  rw [divWait, divWait, hop, hr]
  cases h with
  | idle busy done ready =>
    cases hd : s.isDivOp
    · simp
    · -- The start itself is one of the cycles that are counted.
      rw [show s.divStart = true by simp [divStart, hd, busy, done, ready],
        DivUnit.next_start busy done] at hn
      have hs : (s.nextWith i p L).div.done ∨ (s.nextWith i p L).div.busy := by
        rw [hn]
        rcases DivUnit.started_cases busy done s.aluA s.aluB s.divIsSigned with ⟨-, h₂, -⟩ | h₁
        · exact .inl h₂
        · exact .inr h₁.busy
      rw [busy, done, ready]
      generalize (s.nextWith i p L).div = d at hs
      rcases hs with hs | hs
      · simp [hs]
      · cases hd' : d.done <;> simp [hs]
  | running own run ready =>
    rw [DivUnit.next_busy run.busy run.done] at hn
    rw [hn, own, ready, run.busy, run.done, DivUnit.stepped]
    have := s.div.count.isLt
    by_cases hc : s.div.count = 31
    · simp [hc]
    · have hlt : s.div.count.toNat ≠ 31 := fun h => hc (BitVec.eq_of_toNat_eq h)
      have hs : (s.div.count + 1).toNat = s.div.count.toNat + 1 := by
        rw [BitVec.toNat_add]
        exact Nat.mod_eq_of_lt (by show s.div.count.toNat + 1 < 32; omega)
      simp only [hc, run.done, run.busy, if_false, if_true, hs, Bool.or_self,
        Bool.not_false, Bool.and_self, Bool.false_eq_true]
      omega
  | done own busy done holds ready => simp [done]
  | ready own busy done holds ready => simp [ready]

end Core

/-! ## The AMO in MEM -/

/-- A completed access to the D-cache or the TCM: for a read `data` is what was read, and
    the mask is empty. -/
structure DcacheAccess where
  addr : Word
  mask : BitVec 4
  data : Word
  deriving DecidableEq

namespace Core

variable (s : Core) (i : CoreInputs)

/-- The access that completes on a cycle, if one does. -/
def dcacheAccess : List DcacheAccess :=
  if s.dcacheValid && i.dcacheReady then
    [if s.dcacheWen then ⟨s.exMem.alu, s.memWriteMask, s.storeData⟩ else ⟨s.exMem.alu, 0,
      i.dcacheReadData⟩]
  else []

/-- What the AMO in MEM has done so far. -/
def amoAccesses : List DcacheAccess :=
  match s.amo.amoState with
  | .AMO_IDLE => []
  | .AMO_READ => []
  | .AMO_WRITE =>
    ⟨s.exMem.alu, 0, s.amo.amoOldValue⟩ ::
      if s.amo.amoResultReady then [⟨s.exMem.alu, 0b1111, s.amoNewValue⟩] else []

/-- The sequencer rests unless an AMO is in MEM, and is ready only when it has written. -/
structure AmoRests : Prop where
  idle : s.exMem.isAmo = false → s.amo.amoState = .AMO_IDLE
  ready : s.amo.amoResultReady → s.amo.amoState = .AMO_WRITE

variable {s i} {p : Predictor} {L : BitVec 16}

/-- An AMO does not leave MEM before it has written. -/
theorem amoResultReady_of_leaves (hg : s.globalMemStall i = false) (ha : s.exMem.isAmo) :
    s.amo.amoResultReady := by
  simp only [globalMemStall, amoStall, Bool.or_eq_false_iff, ha, Bool.true_and] at hg
  simpa using hg.1.2

/-- When the pipeline moves on, the sequencer is free for the next instruction. -/
theorem amo_next_leaves (hg : s.globalMemStall i = false) :
    (s.nextWith i p L).amo.amoState = .AMO_IDLE ∧ (s.nextWith i p L).amo.amoResultReady = false := by
  have hc : (!s.exMem.isAmo || (s.amo.amoResultReady && !s.globalMemStall i)) = true := by
    cases ha : s.exMem.isAmo
    · rfl
    · simp [amoResultReady_of_leaves hg ha, hg]
  rw [nextWith_amo, nextAmo, if_pos hc]
  exact ⟨rfl, rfl⟩

theorem nextAmo_frozen (hg : s.globalMemStall i) (ha : s.exMem.isAmo) :
    s.nextAmo i =
      match s.amo.amoState with
      | .AMO_IDLE => { s.amo with amoState := .AMO_READ }
      | .AMO_READ =>
        if i.dcacheReady then
          { s.amo with amoOldValue := i.dcacheReadData, amoState := .AMO_WRITE }
        else s.amo
      | .AMO_WRITE => if i.dcacheReady then { s.amo with amoResultReady := true } else s.amo := by
  have hc : (!s.exMem.isAmo || (s.amo.amoResultReady && !s.globalMemStall i)) = false := by simp [ha, hg]
  exact if_neg (ne_true_of_eq_false hc)

theorem AmoRests.next (h : s.AmoRests) : (s.nextWith i p L).AmoRests := by
  cases hg : s.globalMemStall i
  · obtain ⟨h₁, h₂⟩ := amo_next_leaves (p := p) (L := L) hg
    exact ⟨fun _ => h₁, fun h => absurd (h₂.symm.trans h) (by decide)⟩
  · have he : (s.nextWith i p L).exMem = s.exMem := by simp [nextExMem, hg]
    have hn : (s.nextWith i p L).amo = _ := nextWith_amo s i p
    cases ha : s.exMem.isAmo
    · rw [nextAmo, if_pos (by simp [ha])] at hn
      exact ⟨fun _ => by rw [hn], fun hr => absurd hr (by rw [hn]; exact Bool.false_ne_true)⟩
    · rw [nextAmo_frozen hg ha] at hn
      refine ⟨fun ha' => absurd (he ▸ ha') (by simp [ha]), ?_⟩
      have hr := h.ready
      rw [hn]
      cases hs : s.amo.amoState <;> cases hd : i.dcacheReady <;> simp_all

theorem WellFormed.memRw_of_isAmo (h : s.WellFormed) (ha : s.exMem.isAmo) : s.exMem.memRw = false := by
  have hd := h.isDecoded_of_atomic (.inr (.inr ha))
  rw [hd.memRw]
  exact (Rv32Soc.wbSel_of_isAmo (hd.isAmo ▸ ha)).2

/-- The access of an AMO: a read, then a write. -/
theorem WellFormed.dcacheAccess_amo (h : s.WellFormed) (ha : s.exMem.isAmo) (hc : s.memAddrIsCacheable) :
    s.dcacheAccess i =
      match s.amo.amoState with
      | .AMO_IDLE => []
      | .AMO_READ => if i.dcacheReady then [⟨s.exMem.alu, 0, i.dcacheReadData⟩] else []
      | .AMO_WRITE =>
        if i.dcacheReady && !s.amo.amoResultReady then [⟨s.exMem.alu, 0b1111, s.amoNewValue⟩]
            else [] := by
  have hm := h.memRw_of_isAmo ha
  have hl : s.isLoad = false := by simp [isLoad, ha]
  have hs : s.storeCommits = false := by simp [storeCommits, isStore, hm]
  cases hst : s.amo.amoState <;> cases hd : i.dcacheReady <;> cases hr : s.amo.amoResultReady <;>
    simp [dcacheAccess, dcacheValid, dcacheRen, dcacheWen, hl, hs, hc, amoReadPhase,
      amoWritePhase, ha, hst, hd, hr, memWriteMask, storeData]

/-- An AMO of a word returns what it read. -/
theorem WellFormed.wbData_amo (h : s.WellFormed) (ha : s.exMem.isAmo)
    (hf : funct3 s.exMem.inst = 0b010) :
    (s.accessed i).wbData = s.amo.amoOldValue := by
  have hf' : s.exMem.inst.extractLsb' 12 3 = 2 := hf
  rw [wbData_accessed, h.wbSel_of_isAmo ha, if_neg (by decide), if_pos rfl, partialLoad, hf',
    finalMemReadData, if_pos ha]
  rfl

/-- What the AMO has done, one cycle on. -/
theorem WellFormed.amoAccesses_next (h : s.WellFormed) (hr : s.AmoRests) (hg : s.globalMemStall i)
    (ha : s.exMem.isAmo) (hc : s.memAddrIsCacheable) :
    (s.nextWith i p L).amoAccesses = s.amoAccesses ++ s.dcacheAccess i := by
  have he : (s.nextWith i p L).exMem = s.exMem := by simp [nextExMem, hg]
  have hn : (s.nextWith i p L).amo = _ := nextWith_amo s i p
  rw [nextAmo_frozen hg ha] at hn
  have hready := hr.ready
  rw [h.dcacheAccess_amo ha hc]
  unfold amoAccesses Core.amoNewValue
  rw [hn, he]
  cases hst : s.amo.amoState <;> cases hd : i.dcacheReady <;> cases hw : s.amo.amoResultReady <;>
    simp_all

end Core

theorem amoRests_of_reachable {STALL_WATCHDOG_LIMIT : BitVec 16} {s : Core}
    (h : (core STALL_WATCHDOG_LIMIT).Reachable s) : s.AmoRests := by
  refine h.invariant (P := Core.AmoRests) ?_ ?_
  · rintro s ⟨-, -, -, -, -, -, -, -, -, -, -, -, -, hs, hr, -⟩
    exact ⟨fun _ => hs, fun h => absurd (hr.symm.trans h) (by decide)⟩
  · exact fun _ _ hs _ => hs.next

/-! ## Runs -/

section

variable (σ : ℕ → Core) (ι : ℕ → CoreInputs)

/-- The starts of the divider for the instruction that is in EX at the cycle `n`, up to that
    cycle: its operands, and whether they are signed. -/
def divStarts : ℕ → List (Word × Word × Bool)
  | 0 => []
  | n + 1 =>
    if (σ n).globalMemStall (ι n) then
      divStarts n ++ if (σ n).divStart then [((σ n).aluA, (σ n).aluB, (σ n).divIsSigned)] else []
    else []

/-- The accesses that have completed for the instruction that is in MEM at the cycle `n`, before
    that cycle. -/
def accesses : ℕ → List DcacheAccess
  | 0 => []
  | n + 1 => if (σ n).globalMemStall (ι n) then accesses n ++ (σ n).dcacheAccess (ι n) else []

end

section

variable {STALL_WATCHDOG_LIMIT : BitVec 16} {σ : ℕ → Core} {ι : ℕ → CoreInputs}
  {π : ℕ → Predictor}

/-- The divider is started once, on the operands that the instruction still has. -/
theorem divStarts_eq (h : (core STALL_WATCHDOG_LIMIT).IsRun σ fun n => (ι n, π n)) (n : ℕ) :
    divStarts σ ι n =
      if (σ n).divStarted then [((σ n).aluA, (σ n).aluB, (σ n).divIsSigned)] else [] := by
  induction n with
  | zero =>
    obtain ⟨-, -, -, -, -, -, -, -, -, -, hb, hd, hr, -⟩ := h.init
    simp [divStarts, Core.divStarted, hb, hd, hr]
  | succ n ih =>
    have hwf := wellFormed_of_reachable (h.reachable n)
    have hdiv := dividing_of_reachable (h.reachable n)
    rw [divStarts, core_next h n]
    cases hg : (σ n).globalMemStall (ι n)
    · obtain ⟨h₁, h₂, h₃⟩ := hdiv.next_leaves (p := π n) (L := STALL_WATCHDOG_LIMIT) hg
      rw [if_neg Bool.false_ne_true, Core.divStarted, h₁, h₂, h₃]
      rfl
    · have hx : ((σ n).nextWith (ι n) (π n) STALL_WATCHDOG_LIMIT).divIsSigned = (σ n).divIsSigned := by
        simp [Core.divIsSigned, Core.nextIdEx, hg]
      rw [if_pos rfl, ih, hwf.aluA_frozen hg, hwf.aluB_frozen hg, hx, hdiv.divStarted_frozen hg]
      -- The divider is not started twice.
      have hs : (σ n).divStarted → (σ n).divStart = false := by
        grind [Core.divStarted, Core.divStart]
      cases hd : (σ n).divStarted
      · cases (σ n).divStart <;> rfl
      · rw [hs hd]
        rfl

/-- What an AMO has done is what the sequencer says. -/
theorem accesses_eq (h : (core STALL_WATCHDOG_LIMIT).IsRun σ fun n => (ι n, π n)) (n : ℕ)
    (ha : (σ n).exMem.isAmo) (hc : (σ n).memAddrIsCacheable) : accesses σ ι n = (σ n).amoAccesses := by
  induction n with
  | zero =>
    obtain ⟨-, -, -, h₃, -⟩ := h.init
    rw [h₃] at ha
    exact absurd ha (by decide)
  | succ n ih =>
    rw [accesses]
    cases hg : (σ n).globalMemStall (ι n)
    · obtain ⟨h₁, -⟩ := Core.amo_next_leaves (p := π n) (L := STALL_WATCHDOG_LIMIT) hg
      rw [core_next h n, Core.amoAccesses, h₁]
      rfl
    · have he : (σ (n + 1)).exMem = (σ n).exMem := by
        rw [core_next h n]
        simp [Core.nextExMem, hg]
      have ha' : (σ n).exMem.isAmo := he ▸ ha
      have hc' : (σ n).memAddrIsCacheable := by
        simpa only [Core.memAddrIsCacheable, Core.isMmio, Core.isLed, Core.isClint,
          Core.isUart, Core.isIntc, Core.isAccel, he] using hc
      rw [if_pos rfl, ih ha' hc', core_next h n]
      exact ((wellFormed_of_reachable (h.reachable n)).amoAccesses_next
        (amoRests_of_reachable (h.reachable n)) hg ha' hc').symm

/-- What an AMO computes, in the terms of the manual. -/
theorem amoNewValue_eq {op : Riscv.AmoOp} {funct5 : BitVec 5}
    (h : Riscv.amoOp funct5 = some op) (old x : Word) :
    amoNewValue funct5 old x = op.eval old x := by
  unfold Riscv.amoOp at h
  split at h <;> cases h
  all_goals
    next hf => simp only [amoNewValue, hf, Riscv.AmoOp.eval, BitVec.slt_iff_toInt_lt, BitVec.lt_def]

theorem Core.WellFormed.amoNewValue_of_decode {s : Core} (h : s.WellFormed) (ha : s.exMem.isAmo)
    {op : Riscv.AmoOp} {rd rs1 rs2 : Riscv.Reg}
    (hd : Riscv.decode s.exMem.inst = some (.amo op rd rs1 rs2))
    (old : Word) : Rv32Soc.amoNewValue s.exMem.atomicOp old s.exMem.rs2 = op.eval old s.exMem.rs2 := by
  have hdec := h.isDecoded_of_atomic (.inr (.inr ha))
  have ho : Riscv.opcode s.exMem.inst = 0b0101111 := (opcode_of_isAmo (hdec.isAmo ▸ ha)).1
  rw [Riscv.decode_atomic ho] at hd
  split_ifs at hd
  · cases hd
  · cases hd
  · obtain ⟨op', hop, he⟩ := Option.map_eq_some_iff.1 hd
    cases he
    have hfunct : s.exMem.atomicOp = Riscv.funct5 s.exMem.inst := hdec.atomicOp
    rw [hfunct]
    exact amoNewValue_eq hop old _

/-- Operations of several cycles belong to their own instruction. A division that leaves EX has
    started the divider once, on its own operands, and takes the result of that run; an AMO that
    leaves MEM has read its word once, and then written it once, with what its operation makes of
    what it read, and returns what it read. No instruction finds the result of another one. -/
theorem multiCycle_of_isRun (h : (core STALL_WATCHDOG_LIMIT).IsRun σ fun n => (ι n, π n)) (n : ℕ) :
    ((σ n).leavesEx (ι n) → (σ n).isDivOp →
      (divStarts σ ι n ++ if (σ n).divStart then [((σ n).aluA, (σ n).aluB, (σ n).divIsSigned)] else []) =
          [((σ n).fwdRs1, (σ n).fwdRs2, (σ n).divIsSigned)] ∧
        ((σ n).executed (ι n)).alu =
          if (σ n).idEx.ctl.aluSel.getLsbD 1 then
            (DivUnit.result (σ n).fwdRs1 (σ n).fwdRs2 (σ n).divIsSigned).2
          else (DivUnit.result (σ n).fwdRs1 (σ n).fwdRs2 (σ n).divIsSigned).1) ∧
    ((σ n).leavesMem (ι n) → (σ n).exMem.isAmo → (σ n).memAddrIsCacheable →
      ∃ old new,
        accesses σ ι n ++ (σ n).dcacheAccess (ι n) =
            [⟨(σ n).exMem.alu, 0b0000, old⟩, ⟨(σ n).exMem.alu, 0b1111, new⟩] ∧
          new = amoNewValue (σ n).exMem.atomicOp old (σ n).exMem.rs2 ∧
          (∀ op rd rs1 rs2, Riscv.decode (σ n).exMem.inst = some (.amo op rd rs1 rs2) →
            new = op.eval old (σ n).exMem.rs2) ∧
          (funct3 (σ n).exMem.inst = 0b010 → ((σ n).accessed (ι n)).wbData = old)) ∧
    (n = 0 ∨ (σ (n - 1)).globalMemStall (ι (n - 1)) = false →
      (σ n).divResultReady = false ∧ (σ n).amo.amoResultReady = false) := by
  refine ⟨fun hl hd => ?_, fun hl ha hc => ?_, fun hn => ?_⟩
  · obtain ⟨⟨hv, hg⟩, -⟩ : ((σ n).idEx.valid ∧ (σ n).globalMemStall (ι n) = false) ∧ _ := by
      simpa [Core.leavesEx] using hl
    have hr := Core.divResultReady_of_leaves hg hd
    obtain ⟨ha, hb, hc⟩ :=
      Core.operands_of_isDivOp ((wellFormed_of_reachable (h.reachable n)).idEx hv) hd
    have hs : (σ n).divStarted := by simp [Core.divStarted, hr]
    rw [divStarts_eq h n, hs, if_pos rfl, Core.divStart_of_leaves hg, ← ha, ← hb]
    exact ⟨rfl, (dividing_of_reachable (h.reachable n)).actualExResult_eq hg hd hc⟩
  · obtain ⟨-, hg⟩ : (σ n).exMem.valid ∧ (σ n).globalMemStall (ι n) = false := by
      simpa [Core.leavesMem] using hl
    have hwf := wellFormed_of_reachable (h.reachable n)
    have hr := Core.amoResultReady_of_leaves hg ha
    have hs := (amoRests_of_reachable (h.reachable n)).ready hr
    refine ⟨(σ n).amo.amoOldValue, (σ n).amoNewValue, ?_, rfl,
      fun op rd rs1 rs2 hd => hwf.amoNewValue_of_decode ha hd _, fun hf => ?_⟩
    · rw [accesses_eq h n ha hc, hwf.dcacheAccess_amo ha hc, Core.amoAccesses, hs, hr]
      simp
    · exact hwf.wbData_amo ha hf
  · cases n with
    | zero =>
      obtain ⟨-, -, -, -, -, -, -, -, -, -, -, -, hr, -, hr', -⟩ := h.init
      exact ⟨hr, hr'⟩
    | succ n =>
      have hg : (σ n).globalMemStall (ι n) = false := by simpa using hn
      rw [core_next h n]
      exact ⟨((dividing_of_reachable (h.reachable n)).next_leaves hg).2.2, (Core.amo_next_leaves hg).2⟩

end

/-! ## An AMO that waits -/

namespace Core

variable {s : Core} {i : CoreInputs} {p : Predictor} {L : BitVec 16}

/-- The sequencer waits for the D-cache. -/
def amoWaits (s : Core) : Bool := s.amoReadPhase || s.amoWritePhase

/-- The sequencer waits for any address, but asks only for one that is not a peripheral's. -/
theorem dcacheValid_of_amoWaits (h : s.amoWaits) : s.dcacheValid = s.memAddrIsCacheable := by
  rw [amoWaits, Bool.or_eq_true] at h
  rcases h with h | h
  · rw [dcacheValid, dcacheRen, dcacheWen, h, Bool.or_true, Bool.true_and]
    cases s.memAddrIsCacheable <;> simp
  · rw [dcacheValid, dcacheRen, dcacheWen, h, Bool.or_true, Bool.true_and]
    cases s.memAddrIsCacheable <;> simp

theorem globalMemStall_of_amoStall (h : s.amoStall) (i : CoreInputs) : s.globalMemStall i := by
  rw [globalMemStall, h, Bool.or_true, Bool.true_or]

/-- The AMO stays in MEM until its result is there, and the sequencer goes on with each answer. -/
theorem amo_next_waits (h : s.amoStall) :
    (s.nextWith i p L).exMem = s.exMem ∧
      (s.nextWith i p L).amo.amoState =
        (match s.amo.amoState with
        | .AMO_IDLE => .AMO_READ
        | .AMO_READ => if i.dcacheReady then .AMO_WRITE else .AMO_READ
        | .AMO_WRITE => .AMO_WRITE) ∧
      (s.nextWith i p L).amo.amoResultReady = (s.amo.amoState == .AMO_WRITE && i.dcacheReady) := by
  have hg := globalMemStall_of_amoStall h i
  obtain ⟨ha, hr⟩ : s.exMem.isAmo ∧ s.amo.amoResultReady = false := by simpa [amoStall] using h
  refine ⟨by simp [nextExMem, hg], ?_, ?_⟩ <;>
  · rw [nextWith_amo, nextAmo_frozen hg ha]
    cases hst : s.amo.amoState <;> cases i.dcacheReady <;> simp [hr, hst]

end Core

section

variable {STALL_WATCHDOG_LIMIT : BitVec 16} {σ : ℕ → Core} {ι : ℕ → CoreInputs}
  {π : ℕ → Predictor}

/-- While an AMO waits it stays where it is. -/
theorem exMem_of_amoStall (h : (core STALL_WATCHDOG_LIMIT).IsRun σ fun n => (ι n, π n))
    {n m : ℕ} (hn : n ≤ m)
    (hs : ∀ k, n ≤ k → k < m → (σ k).amoStall) : (σ m).exMem = (σ n).exMem := by
  induction m, hn using Nat.le_induction with
  | base => rfl
  | succ m hn ih =>
    rw [core_next h m, (Core.amo_next_waits (hs m hn m.lt_succ_self)).1]
    exact ih fun k h₁ h₂ => hs k h₁ (h₂.trans m.lt_succ_self)

/-- The D-cache answers only what it is asked. -/
def DcacheAnswers (σ : ℕ → Core) (ι : ℕ → CoreInputs) : Prop := ∀ n, (ι n).dcacheReady →
    (σ n).dcacheValid

/-- Until the pipeline moves on, an AMO to a peripheral gets no answer. -/
theorem amoState_ne_write (h : (core STALL_WATCHDOG_LIMIT).IsRun σ fun n => (ι n, π n))
    (ha : DcacheAnswers σ ι) (n : ℕ)
    (hs : (σ n).exMem.isAmo) (hc : (σ n).memAddrIsCacheable = false) :
      (σ n).amo.amoState ≠ .AMO_WRITE := by
  induction n with
  | zero =>
    obtain ⟨-, -, -, h₃, -⟩ := h.init
    rw [h₃] at hs
    exact absurd hs (by decide)
  | succ n ih =>
    rw [core_next h n] at hs hc ⊢
    cases hg : (σ n).globalMemStall (ι n)
    · rw [(Core.amo_next_leaves hg).1]
      simp
    · have he : ((σ n).nextWith (ι n) (π n) STALL_WATCHDOG_LIMIT).exMem = (σ n).exMem := by
        simp [Core.nextExMem, hg]
      rw [he] at hs
      have hc' : (σ n).memAddrIsCacheable = false := by
        simpa only [Core.memAddrIsCacheable, Core.isMmio, Core.isLed, Core.isClint,
          Core.isUart, Core.isIntc, Core.isAccel, he] using hc
      have hne := ih hs hc'
      rw [Core.nextWith_amo, Core.nextAmo_frozen hg hs]
      cases hst : (σ n).amo.amoState with
      | AMO_IDLE => simp
      | AMO_READ =>
        -- AMO_WRITE is entered on an answer of the D-cache, which was not asked.
        have hw : (σ n).amoWaits := by simp [Core.amoWaits, Core.amoReadPhase, hs, hst]
        have hr : (ι n).dcacheReady = false := by
          refine Bool.eq_false_iff.2 fun hr => ?_
          have hv := ha n hr
          rw [Core.dcacheValid_of_amoWaits hw, hc'] at hv
          cases hv
        rw [hr]
        exact fun h => absurd (hst.symm.trans h) (by decide)
      | AMO_WRITE => exact absurd hst hne

/-- An AMO that waits for memory is asked for, and so gets its result in the end. -/
theorem amoResultReady_of_answers (h : (core STALL_WATCHDOG_LIMIT).IsRun σ fun n => (ι n, π n))
    (hf : ∀ n, (σ n).dcacheValid → ∃ m ≥ n, (ι m).dcacheReady) {n : ℕ}
    (hc : (σ n).memAddrIsCacheable) :
    ∃ m ≥ n, (σ m).amoStall = false := by
  by_contra hno
  have hs : ∀ m ≥ n, (σ m).amoStall := fun m hm => Bool.not_eq_false _ ▸ fun hs => hno ⟨m, hm, hs⟩
  have hamo : ∀ m ≥ n, (σ m).exMem.isAmo ∧ (σ m).amo.amoResultReady = false := fun m hm => by
    simpa [Core.amoStall] using hs m hm
  have hstep : ∀ m ≥ n, _ := fun m hm => core_next h m ▸ Core.amo_next_waits (i := ι m) (p := π m)
    (L := STALL_WATCHDOG_LIMIT) (hs m hm)
  -- what the sequencer waits for is asked for, and answered
  have hready : ∀ m ≥ n, (σ m).amo.amoState ≠ .AMO_IDLE → ∃ k ≥ m, (ι k).dcacheReady := by
    intro m hm hst
    refine hf m ?_
    have hw : (σ m).amoWaits := by
      obtain ⟨h₁, h₂⟩ := hamo m hm
      rw [Core.amoWaits, Core.amoReadPhase, Core.amoWritePhase, h₁, h₂]
      cases hm' : (σ m).amo.amoState <;> simp_all
    have he := exMem_of_amoStall h hm fun k h₁ _ => hs k h₁
    rw [Core.dcacheValid_of_amoWaits hw]
    simpa only [Core.memAddrIsCacheable, Core.isMmio, Core.isLed, Core.isClint, Core.isUart, Core.isIntc,
      Core.isAccel, he] using hc
  have hbusy : ∀ m > n, (σ m).amo.amoState ≠ .AMO_IDLE := by
    rintro (_ | m) hm
    · exact absurd hm (Nat.not_lt_zero n)
    · rw [(hstep m (Nat.le_of_lt_succ hm)).2.1]
      cases (σ m).amo.amoState <;> cases (ι m).dcacheReady <;> nofun
  -- with the first answer the word is read, with the second one it is written
  obtain ⟨k, hk, hr⟩ := hready (n + 1) (Nat.le_succ n) (hbusy _ (Nat.lt_succ_self n))
  have hwrite : ∀ m > k, (σ m).amo.amoState = .AMO_WRITE := by
    intro m hm
    induction m, hm using Nat.le_induction with
    | base =>
      have := hbusy k hk
      rw [(hstep k (Nat.le_of_succ_le hk)).2.1, hr]
      cases hst : (σ k).amo.amoState <;> simp_all
    | succ m hm ih => rw [(hstep m (by omega)).2.1, ih]
  obtain ⟨l, hl, hr'⟩ := hready (k + 1) (by omega) (hbusy _ (by omega))
  have hdone := (hstep l (by omega)).2.2
  rw [hwrite l hl, hr', (hamo (l + 1) (by omega)).2] at hdone
  exact absurd hdone (by decide)

/-- An AMO asks for the access that its sequencer waits for exactly if its address is not a
    peripheral's. With a D-cache that answers what it is asked, and nothing else, the wait of an AMO
    comes to an end exactly then. -/
theorem amo_of_isRun (h : (core STALL_WATCHDOG_LIMIT).IsRun σ fun n => (ι n, π n)) (n : ℕ)
    (hs : (σ n).exMem.isAmo) :
    (((σ n).amo.amoState = .AMO_READ ∨ (σ n).amo.amoState = .AMO_WRITE ∧
      (σ n).amo.amoResultReady = false) →
        ((σ n).dcacheValid ↔ (σ n).memAddrIsCacheable)) ∧
      (DcacheAnswers σ ι → (∀ m, (σ m).dcacheValid → ∃ k ≥ m, (ι k).dcacheReady) →
        ((∃ m ≥ n, (σ m).amoStall = false) ↔ (σ n).memAddrIsCacheable)) := by
  refine ⟨fun hst => ?_, fun ha hf => ⟨fun ⟨m, hm, hm'⟩ => ?_, amoResultReady_of_answers h hf⟩⟩
  · have hw : (σ n).amoWaits := by
      rcases hst with hst | ⟨hst, hr⟩
      · simp [Core.amoWaits, Core.amoReadPhase, hs, hst]
      · simp [Core.amoWaits, Core.amoWritePhase, hs, hst, hr]
    rw [Core.dcacheValid_of_amoWaits hw]
  · by_contra hc
    rw [Bool.not_eq_true] at hc
    -- the result is not there, and so never will be
    have hwait : ∀ k ≥ n, (σ k).amoStall := by
      intro k hk
      induction k using Nat.strong_induction_on with
      | _ k ih =>
        have he := exMem_of_amoStall h hk fun j h₁ h₂ => ih j h₂ h₁
        have hs' : (σ k).exMem.isAmo := he ▸ hs
        have hc' : (σ k).memAddrIsCacheable = false := by
          simpa only [Core.memAddrIsCacheable, Core.isMmio, Core.isLed, Core.isClint,
            Core.isUart, Core.isIntc, Core.isAccel, he] using hc
        have hne := amoState_ne_write h ha k hs' hc'
        have hr : (σ k).amo.amoResultReady = false :=
          Bool.eq_false_iff.2 fun hr => hne ((amoRests_of_reachable (h.reachable k)).ready hr)
        rw [Core.amoStall, hs', hr]
        rfl
    rw [hwait m hm] at hm'
    cases hm'

end

/-! ## Runs -/

/-- `lui x1, 2` and `amoadd.w x4, x5, (x1)`: the LEDs. -/
def amoLeds (n : ℕ) : CoreInputs :=
  { CoreInputs.ready with
    ifInst := if n = 0 then 0x000020B7 else if n = 1 then 0x0050A22F else nop
    dcacheReady := false }

theorem amoLeds_waits :
    ¬∀ (L : BitVec 16) (s : Core), (core L).Reachable s → s.exMem.isAmo →
    s.amo.amoState = .AMO_READ → s.dcacheValid := by
  intro h
  have h' := h 1023 (coreTrace amoLeds 5) ((isRun_coreTrace amoLeds).reachable 5)
  revert h'
  decide +kernel

/-- `div x3, x0, x0` and `amoadd.w x4, x5, (x0)`, the word in memory being `7`. -/
def divAmo (n : ℕ) : CoreInputs :=
  { CoreInputs.ready with
    ifInst := if n = 0 then 0x020041B3 else if n = 1 then 0x0050222F else nop
    dcacheReadData := 7 }

/-- The division leaves EX with the quotient of a division by zero, and the AMO leaves MEM with
    the word it read. -/
theorem divAmo_results :
    (coreTrace divAmo 4).leavesEx (divAmo 4) ∧ divStarts (coreTrace divAmo) divAmo 4 = [(0, 0, true)] ∧
      ((coreTrace divAmo 4).executed (divAmo 4)).alu = 0xFFFFFFFF ∧
      (coreTrace divAmo 9).leavesMem (divAmo 9) ∧
      ∃ old, accesses (coreTrace divAmo) divAmo 9 ++ (coreTrace divAmo 9).dcacheAccess (divAmo 9) =
          [⟨0, 0b0000, old⟩, ⟨0, 0b1111, old + 0⟩] ∧
        ((coreTrace divAmo 9).accessed (divAmo 9)).wbData = old := by
  have h₄ : (coreTrace divAmo 4).leavesEx (divAmo 4) := by decide +kernel
  have h₉ : (coreTrace divAmo 9).leavesMem (divAmo 9) := by decide +kernel
  obtain ⟨hs, hd⟩ := (multiCycle_of_isRun (isRun_coreTrace divAmo) 4).1 h₄ (by decide +kernel)
  obtain ⟨old, new, ha, hn, -, hw⟩ :=
    (multiCycle_of_isRun (isRun_coreTrace divAmo) 9).2.1 h₉ (by decide +kernel) (by decide +kernel)
  refine ⟨h₄, ?_, ?_, h₉, old, ?_, hw (by decide +kernel)⟩
  · rw [Core.divStart_of_leaves (i := divAmo 4) (by decide +kernel), if_neg Bool.false_ne_true,
      List.append_nil] at hs
    rw [hs]
    decide +kernel
  · rw [hd]
    decide +kernel
  · have h₁ : (coreTrace divAmo 9).exMem.alu = 0 := by decide +kernel
    have h₂ : (coreTrace divAmo 9).exMem.rs2 = 0 := by decide +kernel
    have h₃ : (coreTrace divAmo 9).exMem.atomicOp = 0 := by decide +kernel
    rw [ha, hn, h₁, h₂, h₃]
    rfl

/-- The AMO among them finds the D-cache asked for its word. -/
theorem divAmo_waits :
    ((coreTrace divAmo 7).exMem.isAmo ∧ (coreTrace divAmo 7).amo.amoState = .AMO_READ) ∧
    (coreTrace divAmo 7).dcacheValid := by
  have hs : (coreTrace divAmo 7).exMem.isAmo ∧ (coreTrace divAmo 7).amo.amoState = .AMO_READ := by
    decide +kernel
  exact ⟨hs, ((amo_of_isRun (isRun_coreTrace divAmo) 7 hs.1).1 (.inl hs.2)).2 (by decide +kernel)⟩

end Rv32Soc
