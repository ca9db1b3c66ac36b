import Rv32Soc.Accel.Config

/-!
# The write port of the operand buffers

A lane has one write port, which pushes over the bus share with the lines of an operand
load. A line goes before a push (`laneWrite_eq`): a push that comes on the cycle of a line
for its lane is dropped, while `LOAD_K` counts it. Nothing keeps the two apart, as a push
waits for the array and not for the load.

* `SharedPort`: what comes in on a cycle is written as if it came alone;
* `sharedPort_of_isRun`: so it is, whatever the memory answers and when, exactly if no
  push goes to the lane that is being loaded.
-/

namespace Rv32Soc

/-- The same on the bus, with another answer of the memory to the load. -/
def MmInputs.answered (i : MmInputs) (ready : Bool) (line : Line) : MmInputs :=
  { i with memRdReady := ready, memRline := line }

namespace MmAccel

variable (p : MmParams) (s : MmAccel) (i : MmInputs)

/-! ## The two writers -/

/-- What a line of the operand load writes to a lane. -/
def lineWrite (lane : ℕ) : Option LaneWrite :=
  if s.captures i && s.ld.ldLane == lane then
    some
      { aWen := !s.ld.ldInB
        bWen := s.ld.ldInB
        aWrow := s.ldRow p
        bWrow := p.bAddr s.regs.bPanelLoad (s.ldRow p)
        write := fun _ => i.memRline }
  else none

/-- What a push writes to a lane. -/
def pushWrite (lane : ℕ) : Option LaneWrite :=
  if (s.pushA i || s.pushB i) && s.regs.loadLane == lane then
    some
      { aWen := s.pushA i
        bWen := s.pushB i
        aWrow := s.regs.loadK / 4
        bWrow := p.bAddr s.regs.bPanelLoad (s.regs.loadK / 4)
        write := fun old => setLinePart 4 old (s.regs.loadK % 4) i.wdata }
  else none

/-- The line goes before the push. -/
theorem laneWrite_eq (lane : ℕ) :
    s.laneWrite p i lane = (s.lineWrite p i lane).or (s.pushWrite p i lane) := by
  unfold laneWrite lineWrite
  split
  · rfl
  · rfl

/-- The buffers after an edge on which `w` is all that is written. -/
def bufWith (w : ℕ → Option LaneWrite) : OperandBuffers :=
  s.buf.next w (s.arr.rowNext p (s.startAny i)) fun lane =>
    p.bAddr s.regs.bPanelUse (s.arr.rowNext p (s.startAny i) lane)

variable {p s i}

theorem nextBuf_eq_bufWith : s.nextBuf p i = s.bufWith p i (s.laneWrite p i) := rfl

/-- What is written to a lane depends on nothing else. -/
theorem bufWith_congr {w w' : ℕ → Option LaneWrite} {lane : ℕ} (h : w lane = w' lane) (r : ℕ) :
    (s.bufWith p i w).aMem lane r = (s.bufWith p i w').aMem lane r ∧
      (s.bufWith p i w).bMem lane r = (s.bufWith p i w').bMem lane r := by
  simp only [bufWith, OperandBuffers.next, h, and_self]

/-! ## Apart -/

/-- What comes in on a cycle is written as if it came alone: no push meets a line for its lane, and
    what a push or a line leaves in its lane is what it would leave by itself. -/
structure SharedPort (p : MmParams) (s : MmAccel) (i : MmInputs) : Prop where
  apart : ¬((s.pushA i ∨ s.pushB i) ∧ s.ld.ldBusy ∧ i.memRdReady ∧ s.ld.ldLane = s.regs.loadLane)
  pushed : s.pushA i ∨ s.pushB i → ∀ r,
    (s.nextBuf p i).aMem s.regs.loadLane r = (s.bufWith p i (s.pushWrite p i)).aMem s.regs.loadLane r ∧
      (s.nextBuf p i).bMem s.regs.loadLane r = (s.bufWith p i (s.pushWrite p i)).bMem s.regs.loadLane r
  captured : s.captures i → ∀ r,
    (s.nextBuf p i).aMem s.ld.ldLane r = (s.bufWith p i (s.lineWrite p i)).aMem s.ld.ldLane r ∧
      (s.nextBuf p i).bMem s.ld.ldLane r = (s.bufWith p i (s.lineWrite p i)).bMem s.ld.ldLane r

/-- A push goes to the lane that is being loaded. -/
structure PushesLoaded (s : MmAccel) (i : MmInputs) : Prop where
  push : s.pushA i ∨ s.pushB i
  busy : s.ld.ldBusy
  lane : s.ld.ldLane = s.regs.loadLane

theorem captures_busy (h : s.captures i) : s.ld.ldBusy ∧ i.memRdReady := by
  simp only [captures, Bool.and_eq_true] at h
  exact ⟨h.1.2, h.2⟩

theorem sharedPort_of_not (h : ¬s.PushesLoaded i) : s.SharedPort p i where
  apart := fun ⟨hp, hb, _, hl⟩ => h ⟨hp, hb, hl⟩
  pushed hp r := by
    rw [nextBuf_eq_bufWith]
    refine bufWith_congr ?_ r
    have hline : s.lineWrite p i s.regs.loadLane = none := if_neg fun hc => by
      rw [Bool.and_eq_true, beq_iff_eq] at hc
      exact h ⟨hp, (captures_busy hc.1).1, hc.2⟩
    rw [laneWrite_eq, hline, Option.none_or]
  captured hc r := by
    rw [nextBuf_eq_bufWith]
    refine bufWith_congr ?_ r
    have hpush : s.pushWrite p i s.ld.ldLane = none := if_neg fun hp => by
      rw [Bool.and_eq_true, Bool.or_eq_true, beq_iff_eq] at hp
      exact h ⟨hp.1, (captures_busy hc).1, hp.2.symm⟩
    rw [laneWrite_eq, hpush, Option.or_none]

end MmAccel

section

variable {p : MmParams} {σ : ℕ → MmAccel} {ι : ℕ → MmInputs}

/-- Two runs are in the same state as long as they have seen the same. -/
theorem isRun_congr {σ' : ℕ → MmAccel} {ι' : ℕ → MmInputs} (h : (mmAccel p).IsRun σ ι)
    (h' : (mmAccel p).IsRun σ' ι')
    (h₀ : σ' 0 = σ 0) {n : ℕ} (hι : ∀ k < n, ι' k = ι k) : σ' n = σ n := by
  induction n with
  | zero => exact h₀
  | succ n ih =>
    rw [mmAccel_next h' n, mmAccel_next h n, ih fun k hk => hι k (Nat.lt_succ_of_lt hk),
      hι n n.lt_succ_self]

/-- Whenever the memory answers, and what: what comes in on a cycle is written as if it came alone,
    exactly if on no cycle a push goes to the lane that is being loaded. -/
theorem sharedPort_of_isRun (h : (mmAccel p).IsRun σ ι) :
    (∀ σ' ι' n ready line, (mmAccel p).IsRun σ' ι' → σ' 0 = σ 0 → (∀ k < n, ι' k = ι k) →
      ι' n = (ι n).answered ready line → (σ' n).SharedPort p (ι' n)) ↔
    ∀ n, ¬(σ n).PushesLoaded (ι n) := by
  constructor
  · intro hall n hp
    let ι' := Function.update ι n ((ι n).answered true 0)
    have hn : ι' n = (ι n).answered true 0 := Function.update_self ..
    have hbefore : ∀ k < n, ι' k = ι k := fun k hk => Function.update_of_ne hk.ne ..
    have hrun : (mmAccel p).IsRun ((mmAccel p).trace (σ 0) ι') ι' :=
      Circuit.isRun_trace h.init fun _ => trivial
    have hport := hall _ ι' n true 0 hrun rfl hbefore hn
    rw [isRun_congr h hrun rfl hbefore, hn] at hport
    exact hport.apart ⟨hp.push, hp.busy, rfl, hp.lane⟩
  · intro hno σ' ι' n ready line h' h₀ hbefore hn
    rw [isRun_congr h h' h₀ hbefore, hn]
    exact MmAccel.sharedPort_of_not fun hp => hno n ⟨hp.push, hp.busy, hp.lane⟩

/-! ### Runs -/

/-- `LOAD_LANE` is set to `lane`, a load is started, and a push comes together with its first line. -/
def pushWithLine (lane : Word) (n : ℕ) : MmInputs :=
  match n with
  | 0 => .write 2 16
  | 2 => .write 4 lane
  | 4 => .write 0 8
  | 6 => (MmInputs.write 5 0x04030201).answered true 0xFF
  | _ => .quiet

theorem not_push_quiet (s : MmAccel) : ¬(s.pushA .quiet ∨ s.pushB .quiet) := by
  simp [MmAccel.pushA, MmAccel.pushB, MmAccel.writesCfg, MmAccel.writes, MmAccel.doWrite, MmInputs.quiet]

/-- A push to the next lane and the line are both written. -/
theorem pushWithLine_apart :
    (mmTrace (pushWithLine 1) 6).SharedPort mmDefault (pushWithLine 1 6) ∧
      (mmTrace (pushWithLine 1) 7).buf.aByte 0 0 = 0xFF ∧
      (mmTrace (pushWithLine 1) 7).buf.aByte 1 0 = 0x01 := by
  have hlow : ∀ n < 7,
      ¬((mmTrace (pushWithLine 1) n).ld.ldBusy ∧
        (mmTrace (pushWithLine 1) n).ld.ldLane = (mmTrace (pushWithLine 1) n).regs.loadLane) := by
    decide +kernel
  have hno : ∀ n, ¬(mmTrace (pushWithLine 1) n).PushesLoaded (pushWithLine 1 n) := fun n hp => by
    rcases Nat.lt_or_ge n 7 with hn | hn
    · exact hlow n hn ⟨hp.busy, hp.lane⟩
    · obtain ⟨m, rfl⟩ := Nat.exists_eq_add_of_le' hn
      exact not_push_quiet _ hp.push
  have hrun := isRun_mmTrace (pushWithLine 1)
  have hport := (sharedPort_of_isRun hrun).2 hno _ _ 6 true 0xFF hrun rfl (fun _ _ => rfl) rfl
  exact ⟨hport, by decide +kernel, by decide +kernel⟩

/-- A push to the lane of the line is dropped, and `LOAD_K` has counted it. -/
theorem pushWithLine_lost :
    (mmAccel mmDefault).IsRun (mmTrace (pushWithLine 0)) (pushWithLine 0) ∧
      (mmTrace (pushWithLine 0) 6).pushA (pushWithLine 0 6) ∧
      ¬(mmTrace (pushWithLine 0) 6).SharedPort mmDefault (pushWithLine 0 6) ∧
      (mmTrace (pushWithLine 0) 7).buf.aByte 0 1 = 0 ∧ (mmTrace (pushWithLine 0) 7).regs.loadK = 1 := by
  refine ⟨isRun_mmTrace _, by decide +kernel, fun h => ?_, by decide +kernel, by decide +kernel⟩
  exact h.apart (by decide +kernel)

end

end Rv32Soc
