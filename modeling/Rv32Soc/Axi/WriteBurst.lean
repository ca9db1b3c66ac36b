import Mathlib.Algebra.BigOperators.Intervals
import Rv32Soc.Axi.WriteChannel

/-!
# Writes of several lines

The write engine at the widths that `AXI_SIZE` names, while no timeout fires. The next
line is asked for by the beat before the last one of a line. Where a line is a single
beat, as on a bus of 128 bits, there is no such beat: `wr_next` never comes, and the first
line is written in the place of every other one (`repeated_line`). Otherwise every line
ends up in its place, under any back-pressure (`writeBurst_of_isRun`).
-/

namespace Rv32Soc

namespace AxiRw

/-- The values of `AXI_DATA_WIDTH` for which `AXI_SIZE` is defined. -/
def axiDataWidths : List ℕ := [32, 64, 128]

/-- `BEATS_PER_LINE`. -/
def beatsPerLine (AXI_DATA_WIDTH : ℕ) : ℕ := 128 / AXI_DATA_WIDTH

/-- The write channel while no timeout fires. -/
def writingOnTime (B : ℕ) (TIMEOUT_LIMIT : BitVec 16) : Circuit WriteSys WriteInputs where
  init := {s | s.IsReset}
  admits s _ := s.eng.wrTimeout TIMEOUT_LIMIT = false
  next s i := s.next B TIMEOUT_LIMIT i

namespace WriteSys

/-- The request `r`, raised on cycle `n`, is acknowledged on cycle `m`: it went out in one burst of
    its length, its lines are in their places and nothing else has changed, and a line has been
    asked for after each but the last. -/
structure Delivered (B : ℕ) (σ : ℕ → WriteSys) (n m : ℕ) (r : WReq) : Prop where
  held : ∀ k, n < k → k ≤ m → (σ k).req = some r
  ack : (σ m).eng.wrReady
  burst : ∀ k, n < k → k ≤ m → (σ k).eng.mAxiAwvalid →
    (σ k).eng.mAxiAwaddr = r.base ∧ ((σ k).eng.mAxiAwlen B).toNat + 1 = B * r.count
  line : ∀ k < r.count, (σ m).mem.line (r.base + BitVec.ofNat 32 (16 * k)) = r.line k
  frame : ∀ x, ¬(x - r.base).toNat < 16 * r.count → (σ m).mem x = (σ n).mem x
  asked : ∑ k ∈ Finset.Ico (n + 1) (m + 1), (σ k).eng.wrNext.toNat = r.count - 1

/-- While nothing is abandoned the engine has nothing to resume, and it rests without a request. -/
structure Quiet (s : WriteSys) : Prop where
  hold : s.eng.wrResumeHold = false
  retrying : s.eng.wrRetrying = false
  sent : s.eng.wrState = .WR_ADDR → s.eng.wrSent = 0
  idle : s.req = none → s.eng.wrState = .WR_IDLE ∧ s.eng.wrNext = false ∧ s.pos = 0

variable {B : ℕ} {TIMEOUT_LIMIT : BitVec 16} {s : WriteSys} {i : WriteInputs} {r : WReq}
  {σ : ℕ → WriteSys} {ι : ℕ → WriteInputs} {n : ℕ}

theorem quiet_of_isReset (h : s.IsReset) : s.Quiet := by
  obtain ⟨⟨hst, -, -, -, -, -, -, hn, hret, -, hh, -, -, -⟩, -, -, hpos⟩ := h
  exact ⟨hh, hret, fun h => absurd (hst.symm.trans h) nofun, fun _ => ⟨hst, hn, hpos⟩⟩

theorem Quiet.next (h : s.Quiet) (ht : s.eng.wrTimeout TIMEOUT_LIMIT = false) :
    (s.next B TIMEOUT_LIMIT i).Quiet where
  hold := by simp [WriteSys.next, WrRegs.next, ht, h.hold]
  retrying := by simp [WriteSys.next, WrRegs.next, ht, h.retrying]
  sent hst' := by
    have hst' : s.eng.wrNextS B (s.engIn i) = .WR_ADDR := by
      simpa [WriteSys.next, WrRegs.next, ht] using hst'
    have hsent : (s.next B TIMEOUT_LIMIT i).eng.wrSent =
        if s.eng.wrStart (s.engIn i) then 0 else if s.eng.wrLineEnd B (s.engIn i) then s.eng.wrSent + 1
          else s.eng.wrSent := by
      simp [WriteSys.next, WrRegs.next, ht, h.retrying]
    rw [hsent]
    cases hst : s.eng.wrState with
    | WR_IDLE =>
      have hstart : s.eng.wrStart (s.engIn i) := by
        simp only [WrRegs.wrNextS, hst] at hst'
        split_ifs at hst' with hv
        simpa [WrRegs.wrStart, hst] using hv
      rw [if_pos hstart]
    | WR_ADDR => simp [WrRegs.wrStart, WrRegs.wrLineEnd, WrRegs.wrTake, hst, h.sent hst]
    | WR_DATA | WR_RESP =>
      simp only [WrRegs.wrNextS, hst] at hst'
      split_ifs at hst'
    | WR_DONE => simp [WrRegs.wrNextS, hst] at hst'
  idle hreq' := by
    cases hreq : s.req with
    | none =>
      obtain ⟨hst, -, -⟩ := h.idle hreq
      refine ⟨?_, ?_, by simp [WriteSys.next, hreq]⟩
      · simp [WriteSys.next, WrRegs.next, ht, WrRegs.wrNextS, hst, engIn, hreq]
      · simp [WriteSys.next, WrRegs.next, ht, WrRegs.wrEarly, WrRegs.wrTake, hst]
    | some r =>
      have hready : s.eng.wrReady := by
        by_contra hready
        simp [WriteSys.next, hreq, hready] at hreq'
      have hst : s.eng.wrState = .WR_DONE := by simpa [WrRegs.wrReady] using hready
      refine ⟨?_, ?_, by simp [WriteSys.next, hready]⟩
      · simp [WriteSys.next, WrRegs.next, ht, WrRegs.wrNextS, hst]
      · simp [WriteSys.next, WrRegs.next, ht, WrRegs.wrEarly, WrRegs.wrTake, hst]

theorem quiet_of_reachable (h : (writingOnTime B TIMEOUT_LIMIT).Reachable s) : s.Quiet := by
  induction h with
  | init hs => exact quiet_of_isReset hs
  | step _ ha ih => exact ih.next ha

/-- Without a request the channel is where every request begins. -/
theorem Quiet.inv (h : s.Quiet) (hreq : s.req = none) : s.Inv B := by
  obtain ⟨hst, hn, hpos⟩ := h.idle hreq
  simp only [WriteSys.Inv, hreq]
  exact ⟨h.hold, hst, h.retrying, hn, hpos⟩

/-- A line of a single beat is never followed by `wr_next`. -/
theorem wrNext_next_single (ht : s.eng.wrTimeout TIMEOUT_LIMIT = false) :
    (s.next 1 TIMEOUT_LIMIT i).eng.wrNext = false := by
  simp [WriteSys.next, WrRegs.next, ht, WrRegs.wrEarly]

/-- The requester counts the lines it is asked for. -/
theorem pos_eq_sum (hnext : ∀ k, σ (k + 1) = (σ k).next B TIMEOUT_LIMIT (ι k)) {a b : ℕ} (hab : a ≤ b)
    (h : ∀ k, a ≤ k → k < b → (σ k).req = some r ∧ (σ k).eng.wrReady = false) :
    (σ b).pos = (σ a).pos + ∑ k ∈ Finset.Ico a b, (σ k).eng.wrNext.toNat := by
  induction b, hab using Nat.le_induction with
  | base => simp
  | succ b hab ih =>
    obtain ⟨hreq, hready⟩ := h b hab b.lt_succ_self
    rw [Finset.sum_Ico_succ_top hab, ← Nat.add_assoc, ← ih fun k h₁ h₂ =>
      h k h₁ (Nat.lt_succ_of_lt h₂), hnext]
    simp [WriteSys.next, hreq, hready]

end WriteSys

variable {TIMEOUT_LIMIT : BitVec 16} {σ : ℕ → WriteSys} {ι : ℕ → WriteInputs}

/-- A request is served where its lines take several beats, or where it has a single one. -/
theorem exists_delivered {B : ℕ} (h0 : 0 < B) (hdvd : B * (16 / B) = 16) {r : WReq} {n : ℕ}
    (h : (writingOnTime B TIMEOUT_LIMIT).IsRun σ ι) (hreq : (σ n).req = none)
    (hstart : (ι n).start = some r)
    (hlen : B * r.count ≤ 256) (hB : B = 1 → r.count = 1) : ∃ m > n, WriteSys.Delivered B σ n m r := by
  have hnext : ∀ k, σ (k + 1) = (σ k).next B TIMEOUT_LIMIT (ι k) := h.next
  have hquiet : ∀ k, (σ k).Quiet := fun k => WriteSys.quiet_of_reachable (h.reachable k)
  have hinv := (hquiet n).inv (B := B) hreq
  obtain ⟨hidle, -, -⟩ := (hquiet n).idle hreq
  have hinv1 : (σ (n + 1)).Inv B := hnext n ▸ WriteSys.inv_next_none hinv hreq
  have hreq1 : (σ (n + 1)).req = some r := by rw [hnext, WriteSys.next, hreq, hstart]
  have hpos1 : (σ (n + 1)).pos = 0 := by simp [hnext, WriteSys.next, hreq]
  have hmem1 : (σ (n + 1)).mem0 = (σ n).mem := by simp [hnext, WriteSys.next, hreq]
  obtain ⟨m, hm, hall, hready⟩ := Circuit.exists_of_rank (fun s => s.rank B) (σ := σ) (ι := ι)
    (P := fun s => s.Inv B ∧ s.req = some r ∧ s.mem0 = (σ n).mem) (Q := fun s _ => s.eng.wrReady = true)
    (fun k hheld hready => by
      obtain ⟨hk, hreq, hmem⟩ := hheld
      rw [Bool.not_eq_true] at hready
      have hB16 : B ≤ 16 := Nat.le_of_dvd (by decide) ⟨_, hdvd.symm⟩
      have ht : (σ k).eng.wrTimeout TIMEOUT_LIMIT = false := h.admits k
      rw [hnext]
      refine ⟨⟨WriteSys.inv_next_of_asked h0 hdvd (fun q hq => ?_) hk fun htmo => ?_, ?_, ?_⟩,
        WriteSys.rank_next hB16 hk hreq ht hready⟩
      · obtain rfl : r = q := Option.some_inj.1 (hreq.symm.trans hq)
        exact hB
      · exact absurd (ht.symm.trans htmo) (by simp)
      · simp [WriteSys.next, hreq, hready]
      · simp [WriteSys.next, hreq, hmem]) (n := n + 1) ⟨hinv1, hreq1, hmem1⟩
  have hwait : ∀ k, n + 1 ≤ k → k < m → (σ k).req = some r ∧ (σ k).eng.wrReady = false := by
    intro k h₁ h₂
    obtain ⟨-, hk, -⟩ := hall k h₁ h₂.le
    refine ⟨hk, ?_⟩
    -- otherwise the request would be gone
    by_contra hready
    rw [Bool.not_eq_false] at hready
    obtain ⟨-, hk', -⟩ := hall (k + 1) (Nat.le_succ_of_le h₁) h₂
    simp [hnext, WriteSys.next, hk, hready] at hk'
  obtain ⟨hm', hreqm, hmemm⟩ := hall m hm le_rfl
  have hsum : ∑ k ∈ Finset.Ico (n + 1) m, (σ k).eng.wrNext.toNat = (σ m).pos := by
    rw [WriteSys.pos_eq_sum hnext hm hwait, hpos1, Nat.zero_add]
  have hst : (σ m).eng.wrState = .WR_DONE := by simpa [WrRegs.wrReady] using hready
  have hsent : (σ m).Sent r := by
    rw [WriteSys.Inv, hreqm] at hm'
    simp only [hst] at hm'
    exact hm'.2.2
  have hcount := count_le r
  have hmem : (σ m).mem = (σ n).mem.image r.base r.line (16 * r.count) := hmemm ▸ hsent.written
  refine ⟨m, hm, fun k h₁ h₂ => (hall k h₁ h₂).2.1, hready, fun k h₁ h₂ haw => ?_, fun k hk => ?_,
    fun x hx => ?_, ?_⟩
  · obtain ⟨hk, hreqk, -⟩ := hall k h₁ h₂
    have hst : (σ k).eng.wrState = .WR_ADDR := by simpa [WrRegs.mAxiAwvalid] using haw
    exact hk.burst_eq h0 hlen hreqk hst ((hquiet k).sent hst)
  · rw [hmem]
    exact Mem.line_image _ _ _ (by omega) (by omega)
  · rw [hmem]
    exact if_neg hx
  · rw [Finset.sum_Ico_succ_top hm, hsum, hsent.next, Bool.toNat_false, Nat.add_zero]
    exact Nat.eq_sub_of_add_eq hsent.pos

/-- Where a line is one beat, the request is served only if it has one line. -/
theorem count_of_delivered {r : WReq} {n m : ℕ} (h : (writingOnTime 1 TIMEOUT_LIMIT).IsRun σ ι)
    (hd : WriteSys.Delivered 1 σ n m r) : r.count = 1 := by
  have hzero : ∑ k ∈ Finset.Ico (n + 1) (m + 1), (σ k).eng.wrNext.toNat = 0 := by
    refine Finset.sum_eq_zero fun k hk => ?_
    have hk0 : 0 < k := n.succ_pos.trans_le (Finset.mem_Ico.1 hk).1
    obtain ⟨k, rfl⟩ := Nat.exists_eq_succ_of_ne_zero hk0.ne'
    have hnext : σ (k + 1) = (σ k).next 1 TIMEOUT_LIMIT (ι k) := h.next k
    rw [Nat.succ_eq_add_one, hnext, WriteSys.wrNext_next_single (h.admits k)]
    rfl
  have hasked := hd.asked
  have hpos := count_pos r
  omega

/-- At each width that `AXI_SIZE` names, and under any back-pressure, a request that fits into a
    burst is written line by line, with one `wr_next` less than its lines, exactly if a line takes
    several beats or there is only one. -/
theorem writeBurst_of_isRun {AXI_DATA_WIDTH : ℕ} (hwidth : AXI_DATA_WIDTH ∈ axiDataWidths)
    (h : (writingOnTime (beatsPerLine AXI_DATA_WIDTH) TIMEOUT_LIMIT).IsRun σ ι) {n : ℕ} {r : WReq}
    (hreq : (σ n).req = none) (hstart : (ι n).start = some r)
    (hlen : beatsPerLine AXI_DATA_WIDTH * r.count ≤ 256) :
    (∃ m > n, WriteSys.Delivered (beatsPerLine AXI_DATA_WIDTH) σ n m r) ↔ AXI_DATA_WIDTH ≠ 128 ∨
    r.count = 1 := by
  have hB : 0 < beatsPerLine AXI_DATA_WIDTH ∧
      beatsPerLine AXI_DATA_WIDTH * (16 / beatsPerLine AXI_DATA_WIDTH) = 16 ∧
      (beatsPerLine AXI_DATA_WIDTH = 1 ↔ AXI_DATA_WIDTH = 128) := by
    simp only [axiDataWidths, List.mem_cons, List.not_mem_nil, or_false] at hwidth
    rcases hwidth with rfl | rfl | rfl <;> decide
  obtain ⟨h0, hdvd, hone⟩ := hB
  constructor
  · rintro ⟨m, -, hd⟩
    by_cases h128 : AXI_DATA_WIDTH = 128
    · subst h128
      exact .inr (count_of_delivered h hd)
    · exact .inl h128
  · intro hcond
    exact exists_delivered h0 hdvd h hreq hstart hlen fun hb =>
      hcond.resolve_left (not_not.2 (hone.1 hb))

/-- Two lines, over a memory that is always ready. -/
def twoLinesReady : ℕ → WriteInputs := twoLines fun _ => false

theorem wrTmo_twoLinesReady {B : ℕ} {s : WriteSys} (n : ℕ) (ht : s.eng.wrTimeout TIMEOUT_LIMIT = false) :
    (s.next B TIMEOUT_LIMIT (twoLinesReady n)).eng.wrTmo = 0 := by
  have hprog : s.eng.wrEligible → s.eng.wrProgress (s.engIn (twoLinesReady n)) := by
    cases hst : s.eng.wrState <;>
      simp [WrRegs.wrEligible, WrRegs.wrProgress, WrRegs.mAxiAwvalid, WrRegs.mAxiWvalid,
        WrRegs.mAxiBready, hst, WriteSys.engIn, twoLinesReady, twoLines]
  have hnext : (s.next B TIMEOUT_LIMIT (twoLinesReady n)).eng.wrTmo =
      if s.eng.wrEligible then if s.eng.wrProgress (s.engIn (twoLinesReady n)) then 0
        else s.eng.wrTmo + 1 else 0 := by
    simp [WriteSys.next, WrRegs.next, ht]
  rw [hnext]
  split_ifs with he hp
  · rfl
  · exact absurd (hprog he) hp
  · rfl

theorem isRun_twoLinesReady (B : ℕ) :
    (writingOnTime B 100).IsRun ((writingOnTime B 100).trace resetWrite twoLinesReady)
      twoLinesReady := by
  have hadmits : ∀ {s : WriteSys}, s.eng.wrTmo = 0 → s.eng.wrTimeout 100 = false := fun h0 => by
    simp [WrRegs.wrTimeout, h0]
  refine Circuit.isRun_trace isReset_resetWrite fun n => hadmits ?_
  induction n with
  | zero => rfl
  | succ n ih => exact wrTmo_twoLinesReady n (hadmits ih)

/-- On a bus of 64 bits both lines end up in their places. -/
theorem twoLinesReady_delivered :
    ∃ m > 0, WriteSys.Delivered (beatsPerLine 64)
      ((writingOnTime (beatsPerLine 64) 100).trace resetWrite twoLinesReady) 0 m
      ⟨0x1000, 2, fun k => BitVec.ofNat 128 (k + 1)⟩ :=
  (writeBurst_of_isRun (by decide) (isRun_twoLinesReady (beatsPerLine 64)) rfl rfl (by decide)).2
    (.inl (by decide))

/-- On a bus of 128 bits the first line is written twice. -/
theorem repeated_line :
    (writingOnTime (beatsPerLine 128) 100).IsRun ((writingOnTime (beatsPerLine 128) 100).trace
      resetWrite twoLinesReady)
        twoLinesReady ∧
      ((writingOnTime (beatsPerLine 128) 100).trace resetWrite twoLinesReady 6).eng.wrReady ∧
      ((writingOnTime (beatsPerLine 128) 100).trace resetWrite twoLinesReady 6).mem.line 0x1010 = 1 ∧
      ¬∃ m > 0, WriteSys.Delivered (beatsPerLine 128)
        ((writingOnTime (beatsPerLine 128) 100).trace resetWrite twoLinesReady) 0 m
        ⟨0x1000, 2, fun k => BitVec.ofNat 128 (k + 1)⟩ := by
  refine ⟨isRun_twoLinesReady 1, by decide +kernel, by decide +kernel, ?_⟩
  rintro ⟨m, -, hd⟩
  have hcount : WReq.count ⟨0x1000, 2, fun k => BitVec.ofNat 128 (k + 1)⟩ = 1 :=
    count_of_delivered (isRun_twoLinesReady 1) hd
  exact absurd hcount (by decide)

end AxiRw

end Rv32Soc
