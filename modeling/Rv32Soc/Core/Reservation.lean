import Rv32Soc.Core.Mmio

/-!
# `lr.w` and `sc.w`

The reservation monitor is set by an `lr.w` as soon as its word is there, cleared by a store as
soon as it is made, and by an `sc.w` only when it leaves MEM. Since an instruction may
wait in MEM long after that, the monitor runs ahead of the instructions that complete;
but never while an `sc.w` is in MEM.

* `Reserved`: what an `sc.w` depends on, in terms of the instructions that have completed;
* `Core.Acted`: the instruction in MEM has already done to the monitor what it does;
* `sc_of_isRun`: what an `sc.w` returns, and what it writes.
-/

namespace Rv32Soc

section

variable (σ : ℕ → Core) (ι : ℕ → CoreInputs)

/-- An `lr.w` of the address `a` completes on the cycle `n`. -/
def lrCompletes (n : ℕ) (a : Word) : Prop :=
  (σ n).globalMemStall (ι n) = false ∧ (σ n).exMem.isLr ∧ (σ n).exMem.alu = a

/-- A store, an AMO, an `sc.w` or an `lr.w` of another address completes on the cycle `n`. -/
def breaks (n : ℕ) (a : Word) : Prop :=
  (σ n).globalMemStall (ι n) = false ∧
    ((σ n).isStore ∨ (σ n).exMem.isAmo ∨ (σ n).exMem.isSc ∨ (σ n).exMem.isLr ∧
      (σ n).exMem.alu ≠ a)

/-- An `lr.w` of the address `a` has completed before the cycle `n`, and since then no trap has been
    taken, and nothing has completed that breaks the reservation. -/
def Reserved (n : ℕ) (a : Word) : Prop :=
  ∃ m < n, lrCompletes σ ι m a ∧ (∀ k, m ≤ k → k < n → ((σ k).trap (ι k)).trapTaken = false) ∧
    ∀ k, m < k → k < n → ¬breaks σ ι k a

variable {σ ι}

theorem reserved_succ {n : ℕ} {a : Word} :
    Reserved σ ι (n + 1) a ↔ ((σ n).trap (ι n)).trapTaken = false ∧
      (lrCompletes σ ι n a ∨ Reserved σ ι n a ∧ ¬breaks σ ι n a) := by
  constructor
  · rintro ⟨m, hm, hl, ht, hb⟩
    refine ⟨ht n (Nat.le_of_lt_succ hm) n.lt_succ_self, ?_⟩
    rcases Nat.lt_succ_iff_lt_or_eq.1 hm with hlt | rfl
    · exact .inr ⟨⟨m, hlt, hl, fun k h₁ h₂ => ht k h₁ (h₂.trans n.lt_succ_self), fun k h₁ h₂ =>
        hb k h₁ (h₂.trans n.lt_succ_self)⟩, hb n hlt n.lt_succ_self⟩
    · exact .inl hl
  · rintro ⟨htrap, hl | ⟨⟨m, hm, hl, ht, hb⟩, hbn⟩⟩
    · refine ⟨n, n.lt_succ_self, hl, fun k h₁ h₂ => ?_, fun k h₁ h₂ => absurd h₁ (by omega)⟩
      rwa [show k = n by omega]
    · refine ⟨m, hm.trans n.lt_succ_self, hl, fun k h₁ h₂ => ?_, fun k h₁ h₂ => ?_⟩
      · rcases Nat.lt_succ_iff_lt_or_eq.1 h₂ with hlt | rfl
        · exact ht k h₁ hlt
        · exact htrap
      · rcases Nat.lt_succ_iff_lt_or_eq.1 h₂ with hlt | rfl
        · exact hb k h₁ hlt
        · exact hbn

end

namespace Core

variable {s : Core} {i : CoreInputs} {p : Predictor} {L : BitVec 16}

/-- The monitor holds a reservation of `a`. -/
def locked (s : Core) (a : Word) : Bool := s.rm.scSuccessful a

/-- The instruction in MEM has already set or cleared the reservation. -/
def Acted (s : Core) : Prop :=
  (s.exMem.isLr ∧ ∀ a, s.locked a ↔ s.exMem.alu = a) ∨
    ((s.isStore ∧ s.exMem.isSc = false ∨ s.exMem.isAmo) ∧ ∀ a, s.locked a = false)

/-- The monitor after an edge without a trap. -/
theorem locked_nextWith (ht : (s.trap i).trapTaken = false) (a : Word) :
    (s.nextWith i p L).locked a =
      if s.lrReservationSet i then a == s.exMem.alu
      else if s.scReservationClear i || s.normalStoreReservationClear i then false
      else s.locked a := by
  rw [locked, nextWith_rm, ReservationMonitor.next, ht]
  cases s.lrReservationSet i <;> cases s.scReservationClear i <;>
    cases s.normalStoreReservationClear i <;>
    simp [ReservationMonitor.scSuccessful, locked]

theorem locked_of_trapTaken (ht : (s.trap i).trapTaken) (a : Word) :
    (s.nextWith i p L).locked a = false := by
  rw [locked, nextWith_rm, ReservationMonitor.next, ht]
  rfl

theorem trapTaken_of_globalMemStall (hg : s.globalMemStall i) : (s.trap i).trapTaken = false := by
  have ht := pcTrapOverride_of_globalMemStall hg
  rw [trap_pcTrapOverride, Bool.or_eq_false_iff] at ht
  exact ht.1

/-- `lr.w` is a load, and neither `sc.w` nor an AMO. -/
theorem WellFormed.kind_of_isLr (h : s.WellFormed) (hl : s.exMem.isLr) :
    s.exMem.isSc = false ∧ s.exMem.isAmo = false ∧ s.isStore = false ∧ s.isLoad := by
  have hd := h.isDecoded_of_atomic (.inl hl)
  obtain ⟨ho, hf⟩ := opcode_of_isLr (hd.isLr ▸ hl)
  have hw : (controlLogic s.exMem.inst).regWen := by
    simp only [controlLogic, romDecoder_amo ho, hf]
    decide
  have hamo : s.exMem.isAmo = false := by
    rw [hd.isAmo]
    simp [controlLogic, hf]
  refine ⟨?_, hamo, ?_, ?_⟩
  · rw [hd.isSc]
    simp [controlLogic, hf]
  · exact hd.memRw.trans (Rv32Soc.wbSel_of_isLr (hd.isLr ▸ hl)).2
  · simp [isLoad, h.wbSel_of_isLr hl, hamo, hd.regWen, hw]

/-- `sc.w` is a store that writes a register. -/
theorem WellFormed.kind_of_isSc (h : s.WellFormed) (hs : s.exMem.isSc) :
    s.exMem.isLr = false ∧ s.exMem.isAmo = false ∧ s.isStore ∧ s.exMem.regWen := by
  have hd := h.isDecoded_of_atomic (.inr (.inl hs))
  obtain ⟨ho, hf⟩ := opcode_of_isSc (hd.isSc ▸ hs)
  have hc : (controlLogic s.exMem.inst).memRw ∧ (controlLogic s.exMem.inst).regWen := by
    simp only [controlLogic, romDecoder_amo ho, hf]
    decide
  refine ⟨?_, ?_, hd.memRw.trans hc.1, hd.regWen.trans hc.2⟩
  · rw [hd.isLr]
    simp [controlLogic, hf]
  · rw [hd.isAmo]
    simp [controlLogic, hf]

/-- An instruction that breaks a reservation for good does not make one. -/
theorem WellFormed.isLr_of_clears (h : s.WellFormed) (hc : s.isStore ∨ s.exMem.isAmo) :
    s.exMem.isLr = false := by
  refine Bool.eq_false_iff.2 fun hl => ?_
  obtain ⟨-, ha, hm, -⟩ := h.kind_of_isLr hl
  simp [ha, hm] at hc

/-- Nothing but `lr.w` makes a reservation. -/
theorem lockValid_nextWith (hl : s.exMem.isLr = false)
    (hc : s.rm.lockValid = false ∨ s.normalStoreReservationClear i) :
      (s.nextWith i p L).rm.lockValid = false := by
  have hset : s.lrReservationSet i = false := by simp [lrReservationSet, hl]
  rw [nextWith_rm, ReservationMonitor.next, hset]
  rcases hc with hc | hc
  · cases (s.trap i).trapTaken <;> cases s.scReservationClear i <;>
      cases s.normalStoreReservationClear i <;> simp [hc]
  · cases (s.trap i).trapTaken <;> cases s.scReservationClear i <;> simp [hc]

/-! ## What has been answered -/

section

variable {STALL_WATCHDOG_LIMIT : BitVec 16} {σ : ℕ → Core} {ι : ℕ → CoreInputs}
  {π : ℕ → Predictor} {v : Port}

/-- A store that a peripheral has answered has cleared the reservation. -/
theorem Port.lockValid_of_done (hv : v.Lawful)
    (h : (core STALL_WATCHDOG_LIMIT).IsRun σ fun n => (ι n, π n))
    (hready : ∀ n, v.ready (ι n) → (v.port (σ n)).pending)
    (hclear : ∀ (s : Core) (i : CoreInputs), s.isStore → s.exMem.isSc = false →
      v.window s.exMem.alu → v.ready i →
      s.normalStoreReservationClear i) (n : ℕ) (hd : (v.port (σ n)).done) (hs : (σ n).isStore)
    (hsc : (σ n).exMem.isSc = false) : (σ n).rm.lockValid = false := by
  -- A port that is answered was waiting, for the instruction that is still in MEM.
  have hwaits : ∀ n, v.ready (ι n) → v.valid (σ n) ∧ (σ n).globalMemStall (ι n) := by
    intro n hr
    have hp := hready n hr
    have hphase := Port.follows (f := fun _ => ([] : List Unit)) (W := fun _ _ => True) (A :=
      fun _ _ _ => True) h hv
      hready (fun _ _ => trivial) (fun _ _ _ _ _ _ => trivial) (fun _ _ _ _ _ _ => trivial)
        (fun _ _ _ => rfl) n
    cases hphase with
    | idle pending => exact absurd (pending.symm.trans hp) (by decide)
    | waiting valid pending done => exact ⟨valid, hv.stall _ _ valid done⟩
    | answered valid pending => exact absurd (pending.symm.trans hp) (by decide)
  induction n with
  | zero =>
    rw [hv.init (σ 0) h.init] at hd
    cases hd
  | succ n ih =>
    have hwf := wellFormed_of_reachable (h.reachable n)
    rw [core_next h n] at hd ⊢
    rw [hv.next, MmioPort.next] at hd
    cases hg : (σ n).globalMemStall (ι n)
    · -- Nothing is answered when the pipeline moves on.
      cases hr : v.ready (ι n)
      · rw [hr, hg] at hd
        cases hd
      · rw [(hwaits n hr).2] at hg
        cases hg
    · have he : (σ (n + 1)).exMem = (σ n).exMem := by rw [core_next h n, exMem_frozen hg]
      rw [isStore, he] at hs
      rw [he] at hsc
      refine lockValid_nextWith (hwf.isLr_of_clears (.inl hs)) ?_
      cases hr : v.ready (ι n)
      · rw [hr, hg] at hd
        exact .inl (ih hd hs hsc)
      · exact .inr (hclear _ _ hs hsc (Bool.and_eq_true_iff.1 (hwaits n hr).1).1 hr)

/-- An AMO that has written has cleared the reservation. -/
theorem lockValid_of_amoResultReady (h : (core STALL_WATCHDOG_LIMIT).IsRun σ fun n => (ι n, π n)) (n : ℕ)
    (hr : (σ n).amo.amoResultReady) (ha : (σ n).exMem.isAmo) : (σ n).rm.lockValid = false := by
  induction n with
  | zero =>
    obtain ⟨-, -, -, hx, -⟩ := h.init
    rw [hx] at ha
    cases ha
  | succ n ih =>
    have hwf := wellFormed_of_reachable (h.reachable n)
    rw [core_next h n] at hr ha ⊢
    cases hg : (σ n).globalMemStall (ι n)
    · rw [(amo_next_leaves hg).2] at hr
      cases hr
    · rw [exMem_frozen hg] at ha
      rw [nextWith_amo, nextAmo_frozen hg ha] at hr
      refine lockValid_nextWith (hwf.isLr_of_clears (.inr ha)) ?_
      cases hready : (σ n).amo.amoResultReady
      · refine .inr ?_
        cases hst : (σ n).amo.amoState <;> cases hd : (ι n).dcacheReady <;>
          simp_all [normalStoreReservationClear, amoWritePhase]
      · exact .inl (ih hready ha)

end

/-! ## One edge -/

section

variable {STALL_WATCHDOG_LIMIT : BitVec 16} {σ : ℕ → Core} {ι : ℕ → CoreInputs}
  {π : ℕ → Predictor}

/-- A peripheral answers only what it has been asked. -/
structure Answers (σ : ℕ → Core) (ι : ℕ → CoreInputs) : Prop where
  uart : ∀ n, uartPort.ready (ι n) → (uartPort.port (σ n)).pending
  intc : ∀ n, intcPort.ready (ι n) → (intcPort.port (σ n)).pending
  accel : ∀ n, accelPort.ready (ι n) → (accelPort.port (σ n)).pending

/-- An `lr.w` of the D-cache or the TCM that leaves MEM makes its reservation. -/
theorem WellFormed.lrReservationSet_of_leaves (h : s.WellFormed) (hl : s.exMem.isLr)
    (hc : s.memAddrIsCacheable) (hg : s.globalMemStall i = false) : s.lrReservationSet i := by
  have hren : s.dcacheRen := by simp [dcacheRen, (h.kind_of_isLr hl).2.2.2, hc]
  have hready : i.dcacheReady := by
    simp only [globalMemStall, dmemStall, dcacheValid, hren, Bool.true_or, Bool.true_and,
      Bool.or_eq_false_iff, Bool.not_eq_false'] at hg
    exact hg.1.1.1.1.1.1
  simp [lrReservationSet, hl, hren, hready]

/-- A store or an AMO that leaves MEM leaves no reservation behind. -/
theorem lockValid_of_leaves (h : (core STALL_WATCHDOG_LIMIT).IsRun σ fun n => (ι n, π n))
    (ha : Answers σ ι) {n : ℕ}
    (hg : (σ n).globalMemStall (ι n) = false) (hc : (σ n).isStore ∧ (σ n).exMem.isSc = false ∨
      (σ n).exMem.isAmo) :
    (σ n).rm.lockValid = false ∨ (σ n).normalStoreReservationClear (ι n) := by
  rcases hc with ⟨hs, hsc⟩ | hamo
  · have hcommits : (σ n).storeCommits := by simp [storeCommits, hs, hsc]
    -- A store to a peripheral has its answer, and one to memory is made on this cycle.
    have hdone : ∀ v : Port, v.Lawful → v.window (σ n).exMem.alu → (v.port (σ n)).done := by
      intro v hv hw
      by_contra hd
      rw [hv.stall (σ n) (ι n) (by simp [Port.valid, hw, hcommits]) (Bool.eq_false_iff.2 hd)] at hg
      cases hg
    cases hu : (σ n).isUart
    · cases hi : (σ n).isIntc
      · cases hx : (σ n).isAccel
        · refine .inr ?_
          cases hm : (σ n).isMmio
          · have hwen : (σ n).dcacheWen := by
              simp [dcacheWen, hcommits, memAddrIsCacheable, hu, hi, hx, hm]
            have hready : (ι n).dcacheReady := by
              simp only [globalMemStall, dmemStall, dcacheValid, hwen, Bool.or_true, Bool.true_and,
                Bool.or_eq_false_iff, Bool.not_eq_false'] at hg
              exact hg.1.1.1.1.1.1
            simp [normalStoreReservationClear, hs, hsc, hwen, hready]
          · simp [normalStoreReservationClear, hs, hsc, hm]
        · exact .inl (Port.lockValid_of_done lawful_accelPort h ha.accel
            (fun s i hs hsc (hw : s.isAccel) (hr : i.accelReady) => by
              simp [normalStoreReservationClear, hs, hsc, hw, hr])
            n (hdone accelPort lawful_accelPort hx) hs hsc)
      · exact .inl (Port.lockValid_of_done lawful_intcPort h ha.intc
          (fun s i hs hsc (hw : s.isIntc) (hr : i.intcReady) => by
            simp [normalStoreReservationClear, hs, hsc, hw, hr])
          n (hdone intcPort lawful_intcPort hi) hs hsc)
    · exact .inl (Port.lockValid_of_done lawful_uartPort h ha.uart
        (fun s i hs hsc (hw : s.isUart) (hr : i.uartReady) => by
          simp [normalStoreReservationClear, hs, hsc, hw, hr])
        n (hdone uartPort lawful_uartPort hu) hs hsc)
  · exact .inl (lockValid_of_amoResultReady h n (amoResultReady_of_leaves hg hamo) hamo)

/-- The step while the pipeline is frozen: the monitor stays, or the instruction in MEM acts. -/
theorem acted_frozen (hg : s.globalMemStall i) :
    (∀ a, (s.nextWith i p L).locked a = s.locked a) ∨ (s.nextWith i p L).Acted := by
  have ht := trapTaken_of_globalMemStall hg
  have he : (s.nextWith i p L).exMem = s.exMem := exMem_frozen hg
  have hsc : s.scReservationClear i = false := by simp [scReservationClear, hg]
  cases hset : s.lrReservationSet i
  · cases hclear : s.normalStoreReservationClear i
    · refine .inl fun a => ?_
      rw [locked_nextWith ht, hset, hsc, hclear]
      rfl
    · refine .inr (.inr ⟨?_, fun a => ?_⟩)
      · rw [isStore, he]
        simp only [normalStoreReservationClear, amoWritePhase, Bool.or_eq_true, Bool.and_eq_true,
          Bool.not_eq_true'] at hclear
        rcases hclear with hc | hc
        · exact .inl hc.1
        · exact .inr hc.1.1.1
      · rw [locked_nextWith ht, hset, hsc, hclear]
        rfl
  · refine .inr (.inl ⟨?_, fun a => ?_⟩)
    · simp only [lrReservationSet, Bool.and_eq_true] at hset
      rw [he]
      exact hset.1.1
    · rw [locked_nextWith ht, hset, if_pos rfl, he, beq_iff_eq]
      exact eq_comm

/-- What an instruction has done to the monitor stays done while it is frozen. -/
theorem Acted.frozen (h : s.Acted) (hg : s.globalMemStall i) : (s.nextWith i p L).Acted := by
  rcases acted_frozen (p := p) (L := L) hg with hsame | hacted
  · have he : (s.nextWith i p L).exMem = s.exMem := exMem_frozen hg
    rcases h with ⟨hl, ha⟩ | ⟨hk, ha⟩
    · exact .inl ⟨he ▸ hl, fun a => by rw [hsame, he, ha]⟩
    · exact .inr ⟨by rw [isStore, he]; exact hk, fun a => by rw [hsame, ha]⟩
  · exact hacted

/-- The step on which the instruction in MEM leaves: whatever the monitor held, it holds what is
    reserved. -/
theorem locked_of_leaves (h : (core STALL_WATCHDOG_LIMIT).IsRun σ fun n => (ι n, π n)) (ha : Answers σ ι)
    (hlr : ∀ n, (σ n).exMem.isLr → (σ n).memAddrIsCacheable) {n : ℕ}
    (hg : (σ n).globalMemStall (ι n) = false)
    (ih : (∀ a, (σ n).locked a ↔ Reserved σ ι n a) ∨ (σ n).Acted) (a : Word) :
    (σ (n + 1)).locked a ↔ Reserved σ ι (n + 1) a := by
  have hwf := wellFormed_of_reachable (h.reachable n)
  rw [reserved_succ, core_next h n]
  cases ht : ((σ n).trap (ι n)).trapTaken
  · rw [eq_self_iff_true, true_and]
    cases hl : (σ n).exMem.isLr
    · have hset : (σ n).lrReservationSet (ι n) = false := by simp [lrReservationSet, hl]
      have hno : ¬lrCompletes σ ι n a := fun hc => by simp [lrCompletes, hl] at hc
      rw [or_iff_right hno]
      by_cases hk : (σ n).isStore ∨ (σ n).exMem.isAmo
      · -- A store, an AMO or an `sc.w` leaves no reservation behind.
        have hbreaks : breaks σ ι n a := ⟨hg, by tauto⟩
        have hfree : ((σ n).nextWith (ι n) (π n) STALL_WATCHDOG_LIMIT).rm.lockValid = false := by
          cases hsc : (σ n).exMem.isSc
          · exact lockValid_nextWith hl (lockValid_of_leaves h ha hg (by tauto))
          · rw [nextWith_rm, ReservationMonitor.next, hset, scReservationClear, hsc, hg, ht]
            rfl
        rw [locked, ReservationMonitor.scSuccessful, hfree]
        simp [hbreaks]
      · -- Any other instruction has nothing to do with it.
        rw [not_or, Bool.not_eq_true, Bool.not_eq_true] at hk
        have hsc : (σ n).exMem.isSc = false := by
          refine Bool.eq_false_iff.2 fun hsc => ?_
          rw [(hwf.kind_of_isSc hsc).2.2.1] at hk
          cases hk.1
        have hsame := locked_nextWith (p := π n) (L := STALL_WATCHDOG_LIMIT) ht a
        have hclear : (σ n).normalStoreReservationClear (ι n) = false := by
          simp [normalStoreReservationClear, amoWritePhase, hk.1, hk.2]
        rw [hset, hclear,
          show (σ n).scReservationClear (ι n) = false by simp [scReservationClear, hsc]] at hsame
        have hbreaks : ¬breaks σ ι n a := fun hc => by simp [breaks, hk.1, hk.2, hsc, hl] at hc
        rcases ih with ih | hacted
        · rw [hsame]
          simpa [hbreaks] using ih a
        · simp [Acted, hl, hk.1, hk.2] at hacted
    · have hset := hwf.lrReservationSet_of_leaves hl (hlr n hl) hg
      rw [locked_nextWith ht, hset, if_pos rfl, beq_iff_eq]
      constructor
      · rintro rfl
        exact .inl ⟨hg, hl, rfl⟩
      · rintro (hc | ⟨-, hb⟩)
        · exact hc.2.2.symm
        · by_contra hne
          exact hb ⟨hg, .inr (.inr (.inr ⟨hl, Ne.symm hne⟩))⟩
  · simp [locked_of_trapTaken ht]

/-- The monitor holds what is reserved, or the instruction in MEM is ahead of that. -/
theorem locked_or_acted (h : (core STALL_WATCHDOG_LIMIT).IsRun σ fun n => (ι n, π n)) (ha : Answers σ ι)
    (hlr : ∀ n, (σ n).exMem.isLr → (σ n).memAddrIsCacheable) (n : ℕ) :
    (∀ a, (σ n).locked a ↔ Reserved σ ι n a) ∨ (σ n).Acted := by
  induction n with
  | zero =>
    have hrm : (σ 0).rm = ⟨0, false⟩ := by
      obtain ⟨-, -, -, -, -, -, -, -, -, -, -, -, -, -, -, hrm, -⟩ := h.init
      exact hrm
    refine .inl fun a => ?_
    simp [locked, hrm, ReservationMonitor.scSuccessful, Reserved]
  | succ n ih =>
    cases hg : (σ n).globalMemStall (ι n)
    · exact .inl (locked_of_leaves h ha hlr hg ih)
    · have hreserved : ∀ a, Reserved σ ι (n + 1) a ↔ Reserved σ ι n a := by
        intro a
        simp [reserved_succ, trapTaken_of_globalMemStall hg, lrCompletes, breaks, hg]
      simp only [hreserved]
      rw [core_next h n]
      rcases ih with ih | hacted
      · rcases acted_frozen (p := π n) (L := STALL_WATCHDOG_LIMIT) hg with hsame | hacted
        · exact .inl fun a => by rw [hsame, ih]
        · exact .inr hacted
      · exact .inr (hacted.frozen hg)

/-- Nothing is ahead of an `sc.w`. -/
theorem scSuccessFlag_iff (h : (core STALL_WATCHDOG_LIMIT).IsRun σ fun n => (ι n, π n))
    (ha : Answers σ ι)
    (hlr : ∀ n, (σ n).exMem.isLr → (σ n).memAddrIsCacheable) {n : ℕ} (hsc : (σ n).exMem.isSc) :
    (σ n).scSuccessFlag ↔ Reserved σ ι n (σ n).exMem.alu := by
  obtain ⟨hl, hamo, -⟩ := (wellFormed_of_reachable (h.reachable n)).kind_of_isSc hsc
  rcases locked_or_acted h ha hlr n with hlocked | hacted
  · exact hlocked _
  · simp [Acted, hl, hamo, hsc] at hacted

/-! ## The stay of an `sc.w` -/

/-- What is reserved can be written. -/
theorem cacheable_of_reserved (hlr : ∀ n, (σ n).exMem.isLr → (σ n).memAddrIsCacheable) {n : ℕ}
    (hr : Reserved σ ι n (σ n).exMem.alu) : (σ n).memAddrIsCacheable := by
  obtain ⟨m, -, ⟨-, hl, ha⟩, -⟩ := hr
  have hc := hlr m hl
  simp only [memAddrIsCacheable, isMmio, isLed, isClint, isUart, isIntc, isAccel, ha] at hc ⊢
  exact hc

/-- An `sc.w` waits in MEM with the reservation it found. -/
theorem rm_of_waits (h : (core STALL_WATCHDOG_LIMIT).IsRun σ fun n => (ι n, π n)) {n : ℕ}
    (hsc : (σ n).exMem.isSc)
    {k : ℕ} (hk : k ≤ n) (hw : ∀ j, k ≤ j → j < n → (σ j).globalMemStall (ι j)) :
    (σ k).exMem = (σ n).exMem ∧ (σ k).rm = (σ n).rm := by
  induction hk using Nat.decreasingInduction with
  | self => exact ⟨rfl, rfl⟩
  | of_succ k hk ih =>
    obtain ⟨hx, hrm⟩ := ih fun j hj => hw j (Nat.le_of_succ_le hj)
    have hg := hw k le_rfl hk
    have he : (σ (k + 1)).exMem = (σ k).exMem := by rw [core_next h k, exMem_frozen hg]
    refine ⟨he.symm.trans hx, Eq.trans ?_ hrm⟩
    have hsc' : (σ k).exMem.isSc := by rw [← he, hx, hsc]
    rw [core_next h k, (wellFormed_of_reachable (h.reachable k)).rm_frozen hg hsc']

/-- What an `sc.w` asks of the D-cache. -/
theorem WellFormed.mask_sc (h : s.WellFormed) (hsc : s.exMem.isSc) (hf : funct3 s.exMem.inst = 0b010) :
    s.storeCommits = s.scSuccessFlag ∧ s.memWriteMask = (if s.scSuccessFlag then 0b1111 else 0b0000) ∧
      s.storeData = s.exMem.rs2 := by
  obtain ⟨-, hamo, hm, -⟩ := h.kind_of_isSc hsc
  have hsize : s.exMem.inst.extractLsb' 12 2 = 0b10 := by
    have hlow : s.exMem.inst.extractLsb' 12 2 = (funct3 s.exMem.inst).extractLsb' 0 2 := by
      ext j hj
      simp [funct3]
      omega
    rw [hlow, hf]
    rfl
  have hm' : s.exMem.memRw = true := hm
  refine ⟨by simp [storeCommits, hm, hsc], ?_, ?_⟩
  · cases hflag : s.scSuccessFlag <;>
      simp [memWriteMask, amoWritePhase, hamo, hsc, hflag, partialStore, hsize, hm']
  · simp [storeData, amoWritePhase, hamo, partialStore, hsize]

theorem WellFormed.dcacheAccess_sc (h : s.WellFormed) (hsc : s.exMem.isSc)
    (hf : funct3 s.exMem.inst = 0b010) :
    s.dcacheAccess i =
      if s.scSuccessFlag && s.memAddrIsCacheable && i.dcacheReady then [⟨s.exMem.alu,
        0b1111, s.exMem.rs2⟩]
      else [] := by
  obtain ⟨hc, hm, hd⟩ := h.mask_sc hsc hf
  obtain ⟨-, hamo, -⟩ := h.kind_of_isSc hsc
  have hload : s.isLoad = false := by simp [isLoad, h.wbSel_of_isSc hsc]
  rw [dcacheAccess, dcacheValid, dcacheRen, dcacheWen, amoReadPhase, amoWritePhase, hamo,
    hload, hc, hm, hd]
  cases s.scSuccessFlag <;> cases s.memAddrIsCacheable <;> simp

/-- An `sc.w` writes its word, or nothing. -/
theorem accesses_sc (h : (core STALL_WATCHDOG_LIMIT).IsRun σ fun n => (ι n, π n)) (n : ℕ)
    (hsc : (σ n).exMem.isSc) (hf : funct3 (σ n).exMem.inst = 0b010) :
    (∀ x ∈ accesses σ ι n, x = ⟨(σ n).exMem.alu, 0b1111, (σ n).exMem.rs2⟩) ∧
      ((σ n).scSuccessFlag = false → accesses σ ι n = []) := by
  induction n with
  | zero => simp [accesses]
  | succ n ih =>
    rw [accesses]
    cases hg : (σ n).globalMemStall (ι n)
    · simp
    · have he : (σ (n + 1)).exMem = (σ n).exMem := by rw [core_next h n, exMem_frozen hg]
      rw [he] at hsc hf
      have hwf := wellFormed_of_reachable (h.reachable n)
      have hrm : (σ (n + 1)).rm = (σ n).rm := by rw [core_next h n, hwf.rm_frozen hg hsc]
      obtain ⟨hall, hnone⟩ := ih hsc hf
      rw [if_pos rfl, scSuccessFlag, he, hrm, hwf.dcacheAccess_sc hsc hf]
      refine ⟨fun x hx => ?_, fun hflag => ?_⟩
      · rcases List.mem_append.1 hx with hx | hx
        · exact hall x hx
        · split at hx
          · exact List.mem_singleton.1 hx
          · cases hx
      · rw [hnone hflag, scSuccessFlag, hflag]
        rfl

end

end Core

/-! ## A run -/

section

variable {STALL_WATCHDOG_LIMIT : BitVec 16} {τ : ℕ → Soc} {ι : ℕ → SocInputs} {π : ℕ → Predictor}

open Soc Rv32Soc.Core

theorem answers_of_isRun (h : (soc STALL_WATCHDOG_LIMIT).IsRun τ fun n => (ι n, π n)) :
    Answers (cores τ) (seen τ ι) where
  uart n hr := by
    cases n with
    | zero =>
      rw [show uartPort.ready (seen τ ι 0) = (τ 0).uart.dReady from rfl,
        (show (τ 0).IsReset from h.init).uart] at hr
      cases hr
    | succ n =>
      refine (lawful_uartPort.frozen_of_req (isRun_core h) ?_).2.2
      rw [show uartPort.ready (seen τ ι (n + 1)) = (τ (n + 1)).uart.dReady from rfl, soc_next h n] at hr
      exact (τ n).core.selects_uart.symm.trans hr
  intc n hr := by
    cases n with
    | zero =>
      rw [show intcPort.ready (seen τ ι 0) = (τ 0).intc.dReady from rfl,
        (show (τ 0).IsReset from h.init).intc] at hr
      cases hr
    | succ n =>
      refine (lawful_intcPort.frozen_of_req (isRun_core h) ?_).2.2
      rw [show intcPort.ready (seen τ ι (n + 1)) = (τ (n + 1)).intc.dReady from rfl, soc_next h n] at hr
      exact (τ n).core.selects_intc.symm.trans hr
  accel := accelReady_pending h

/-- An `sc.w` that completes returns `0` just if its address is reserved: an `lr.w` of the same
    address has completed, and since then no store, AMO, `sc.w` or `lr.w` of another address, and no
    trap has been taken. Then, and only then, it has written, and what it has written is its word.
    The forwarded result and the write mask are the same on every cycle it has waited in MEM, and
    agree with what it writes back. -/
theorem sc_of_isRun (h : (soc STALL_WATCHDOG_LIMIT).IsRun τ fun n => (ι n, π n))
    (hlr : ∀ n, (cores τ n).exMem.isLr → (cores τ n).memAddrIsCacheable) {n : ℕ}
    {s : Core} {i : CoreInputs}
    (hs : cores τ n = s) (hi : seen τ ι n = i) (hsc : s.exMem.isSc) (hf : funct3 s.exMem.inst = 0b010)
    (hg : s.globalMemStall i = false) :
    (s.scSuccessFlag ↔ Reserved (cores τ) (seen τ ι) n s.exMem.alu) ∧
    (∀ r ≠ 0, rdField s.exMem.inst = r → (cores τ (n + 2)).regs r = if s.scSuccessFlag then 0 else 1) ∧
    ((∀ x ∈ accesses (cores τ) (seen τ ι) n ++ s.dcacheAccess i,
      x = ⟨s.exMem.alu, 0b1111, s.exMem.rs2⟩) ∧
      (s.scSuccessFlag ↔ accesses (cores τ) (seen τ ι) n ++ s.dcacheAccess i ≠ [])) ∧
    ∀ k ≤ n, (∀ j, k ≤ j → j < n → (cores τ j).globalMemStall (seen τ ι j)) →
      (cores τ k).exMem = s.exMem ∧ (cores τ k).scSuccessFlag = s.scSuccessFlag ∧
        (cores τ k).exMemForwardData = (if s.scSuccessFlag then 0 else 1) ∧
        (cores τ k).storeCommits = s.scSuccessFlag ∧
        (cores τ k).memWriteMask = if s.scSuccessFlag then 0b1111 else 0b0000 := by
  subst hs hi
  have hcore := isRun_core h
  have hwf := wellFormed_of_reachable (hcore.reachable n)
  have hflag := scSuccessFlag_iff hcore (answers_of_isRun h) hlr hsc
  obtain ⟨hall, hnone⟩ := accesses_sc hcore n hsc hf
  refine ⟨hflag, fun r hr hrd => ?_, ⟨fun x hx => ?_, fun hok => ?_, fun hne => ?_⟩, fun k hk hw => ?_⟩
  · have hwb : (cores τ (n + 1)).memWb = (cores τ n).accessed (seen τ ι n) := by
      rw [core_next hcore n, nextWith_memWb, nextMemWb, hg]
      rfl
    have hd := hwf.isDecoded_of_atomic (.inr (.inl hsc))
    have hwrites : ((cores τ n).accessed (seen τ ι n)).writes r := by
      simp only [MemWb.writes, accessed, (hwf.kind_of_isSc hsc).2.2.2, hd.rd, hrd,
        bne_iff_ne, Bool.true_and, beq_self_eq_true]
      exact hr
    rw [core_next hcore (n + 1), nextWith_regs, nextRegs, hwb, if_pos hwrites, wbData_accessed,
      hwf.wbSel_of_isSc hsc, if_pos rfl, finalAluToWb, if_pos hsc]
  · rcases List.mem_append.1 hx with hx | hx
    · exact hall x hx
    · rw [hwf.dcacheAccess_sc hsc hf] at hx
      split at hx
      · exact List.mem_singleton.1 hx
      · cases hx
  · -- The write of the last cycle completes on it.
    have hc := cacheable_of_reserved hlr (hflag.1 hok)
    have hready : (seen τ ι n).dcacheReady := by
      have hwen : (cores τ n).dcacheWen := by simp [dcacheWen, (hwf.mask_sc hsc hf).1, hok, hc]
      simp only [globalMemStall, dmemStall, dcacheValid, hwen, Bool.or_true, Bool.true_and,
        Bool.or_eq_false_iff, Bool.not_eq_false'] at hg
      exact hg.1.1.1.1.1.1
    rw [hwf.dcacheAccess_sc hsc hf, hok, hc, hready]
    simp
  · by_contra hno
    rw [Bool.not_eq_true] at hno
    rw [hnone hno, hwf.dcacheAccess_sc hsc hf, hno] at hne
    exact hne rfl
  · obtain ⟨hx, hrm⟩ := rm_of_waits hcore hsc hk hw
    have hwf' := wellFormed_of_reachable (hcore.reachable k)
    have hsc' : (cores τ k).exMem.isSc := hx ▸ hsc
    have hsame : (cores τ k).scSuccessFlag = (cores τ n).scSuccessFlag := by
      rw [scSuccessFlag, hx, hrm, scSuccessFlag]
    obtain ⟨hc, hm, -⟩ := hwf'.mask_sc hsc' (hx ▸ hf)
    refine ⟨hx, hsame, ?_, hc.trans hsame, hm.trans (by rw [hsame])⟩
    rw [exMemForwardData, if_pos hsc', finalAluToWb, if_pos hsc', hsame]

end

/-! ### A run -/

/-- `lr.w x5, (x0)` and `sc.w x6, x5, (x0)`, the word in memory being `7`, with a miss of the I-cache
    while the `sc.w` is in MEM, and no instruction after it. -/
def lrSc (n : ℕ) : SocInputs :=
  { SocInputs.ready with
    ifInst := if n = 0 then 0x100022AF else if n = 1 || n = 2 then 0x1850232F else nop
    dcacheReadData := 7
    cacheReady := n != 5 && decide (n < 9) }

theorem lrSc_cacheable (n : ℕ) (hl : (Soc.cores (socTrace lrSc) n).exMem.isLr) :
    (Soc.cores (socTrace lrSc) n).memAddrIsCacheable := by
  have hrun := isRun_core (isRun_socTrace lrSc)
  have hfirst : ∀ n < 10, (Soc.cores (socTrace lrSc) n).exMem.isLr →
      (Soc.cores (socTrace lrSc) n).memAddrIsCacheable := by decide +kernel
  have hlast : ∀ k, (Soc.cores (socTrace lrSc) (9 + k)).exMem = (Soc.cores (socTrace lrSc) 9).exMem := by
    intro k
    induction k with
    | zero => rfl
    | succ k ih =>
      have hg : (Soc.cores (socTrace lrSc) (9 + k)).globalMemStall
          (Soc.seen (socTrace lrSc) lrSc (9 + k)) := by
        have hi : Core.imemStall (Soc.seen (socTrace lrSc) lrSc (9 + k)) := by
          simp [Core.imemStall, Soc.seen, Soc.coreInputs, lrSc]
        simp [Core.globalMemStall, hi]
      rw [← ih, ← Nat.add_assoc, core_next hrun (9 + k), Core.exMem_frozen hg]
  rcases Nat.lt_or_ge n 9 with hn | hn
  · exact hfirst n (hn.trans (by decide)) hl
  · obtain ⟨k, rfl⟩ := Nat.exists_eq_add_of_le hn
    rw [hlast k] at hl
    exact absurd hl (by decide +kernel)

/-- The `sc.w` waits for a cycle, writes its word, and returns `0`. -/
theorem lrSc_sc :
    (Soc.cores (socTrace lrSc) 6).globalMemStall (Soc.seen (socTrace lrSc) lrSc 6) = false ∧
      Reserved (Soc.cores (socTrace lrSc)) (Soc.seen (socTrace lrSc) lrSc) 6 0 ∧
      (Soc.cores (socTrace lrSc) 8).regs 6 = 0 ∧
      ∀ x ∈ accesses (Soc.cores (socTrace lrSc)) (Soc.seen (socTrace lrSc) lrSc) 6 ++
        (Soc.cores (socTrace lrSc) 6).dcacheAccess (Soc.seen (socTrace lrSc) lrSc 6),
          x = ⟨0, 0b1111, 7⟩ := by
  have hg : (Soc.cores (socTrace lrSc) 6).globalMemStall (Soc.seen (socTrace lrSc) lrSc 6) =
    false := by decide +kernel
  have hflag : (Soc.cores (socTrace lrSc) 6).scSuccessFlag = true := by decide +kernel
  have ha : (Soc.cores (socTrace lrSc) 6).exMem.alu = 0 := by decide +kernel
  have hd : (Soc.cores (socTrace lrSc) 6).exMem.rs2 = 7 := by decide +kernel
  obtain ⟨h₁, h₂, ⟨h₃, -⟩, -⟩ :=
    sc_of_isRun (isRun_socTrace lrSc) lrSc_cacheable (n := 6) rfl rfl (by decide +kernel)
    (by decide +kernel) hg
  refine ⟨hg, ha ▸ h₁.1 hflag, ?_, ?_⟩
  · rw [h₂ 6 (by decide) (by decide +kernel), hflag]
    rfl
  · rw [ha, hd] at h₃
    exact h₃

end Rv32Soc
