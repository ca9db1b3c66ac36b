import Rv32Soc.Accel.Config

/-!
# The sequencer and the load engine

Loads are started by software, by the sequencer for a descriptor it has adopted, and as
a prefetch one cycle after it. `QueueInv` says how these stand to each other, as long as
software does not start loads by hand while the queue runs (`Orderly`): no descriptor
is adopted while a load is in flight, and no prefetch while another one is.

* `QueueInv.prefetches_eq`: a prefetch is issued from `qPreIssue` only;
* `config_of_isRun`: the registers of an engine hold still while it runs, if moreover
  `OUT_CTRL` is left alone during a store.
-/

namespace Rv32Soc

namespace MmAccel

variable (p : MmParams) (s : MmAccel) (i : MmInputs)

/-- The line that comes in is the last one of the load. -/
def ldEnds : Bool := s.captures i && s.ldPanelEnd p && s.ld.ldInB

variable {p s i}

theorem nextLd_ldBusy (hr : s.softRstPulse i = false) :
    (s.nextLd p i).ldBusy = (s.ldStartAny i || (s.ld.ldBusy && !s.ldEnds p i)) := by
  rw [nextLd, hr, if_neg Bool.false_ne_true, nextLd']
  cases h₁ : s.ldStartAny i <;> cases h₂ : s.ld.ldBusy <;> cases h₃ : i.memRdReady <;>
    cases h₄ : s.ldPanelEnd p <;> cases h₅ : s.ld.ldInB <;> simp_all [ldEnds, captures]

theorem nextLd_ldDone (hr : s.softRstPulse i = false) :
    (s.nextLd p i).ldDone = (!s.ldStartAny i && (s.ldEnds p i || s.ld.ldDone)) := by
  rw [nextLd, hr, if_neg Bool.false_ne_true, nextLd']
  cases h₁ : s.ldStartAny i <;> cases h₂ : s.ld.ldBusy <;> cases h₃ : i.memRdReady <;>
    cases h₄ : s.ldPanelEnd p <;> cases h₅ : s.ld.ldInB <;> simp_all [ldEnds, captures]

theorem ldBusy_of_ldEnds (h : s.ldEnds p i) : s.ld.ldBusy := by
  simp only [ldEnds, captures, Bool.and_eq_true] at h
  exact h.1.1.1.2

/-! ## Software -/

/-- Software does not reset the accelerator, starts loads by hand only while the queue does not
    run, and starts the queue only while no load is in flight. -/
structure Orderly (s : MmAccel) (i : MmInputs) : Prop where
  reset : s.softRstPulse i = false
  load : s.ldStart i ∨ s.ldStartB i → s.q.qBusy = false ∧ s.qStartPulse i = false
  kick : s.qStartPulse i → s.ld.ldBusy = false

/-- Software neither starts an engine by hand nor resets them. It may start the queue. -/
structure StartsNone (s : MmAccel) (i : MmInputs) : Prop where
  ctrl : ∀ b < 5, (s.writes i 0 && i.wdata.getLsbD b) = false

namespace StartsNone

theorem reset (h : s.StartsNone i) : s.softRstPulse i = false := h.ctrl 1 (by decide)

theorem startAny (h : s.StartsNone i) : s.startAny i = (s.q.qState == .qComp) := by
  rw [MmAccel.startAny, startPulse, h.ctrl 0 (by decide)]
  rfl

theorem dmaStartAny (h : s.StartsNone i) : s.dmaStartAny i = (s.q.qState == .qStore) := by
  rw [MmAccel.dmaStartAny, dmaStart, h.ctrl 2 (by decide)]
  rfl

theorem ldStart (h : s.StartsNone i) : s.ldStart i = false ∧ s.ldStartB i = false := by
  rw [MmAccel.ldStart, ldStartB, h.ctrl 3 (by decide), h.ctrl 4 (by decide)]
  exact ⟨rfl, rfl⟩

theorem ldStartAny (h : s.StartsNone i) : s.ldStartAny i = (s.q.qState == .qLoad || s.q.prePend) := by
  rw [MmAccel.ldStartAny, h.ldStart.1, h.ldStart.2]
  rfl

end StartsNone

/-- The states from which no prefetch is outstanding. -/
def QState.isFresh : QState → Bool
  | .qIdle | .qLoad | .qLoadW | .qPreIssue => true
  | _ => false

/-- How the sequencer and the load engine stand to each other. -/
structure QueueInv (s : MmAccel) : Prop where
  run : s.q.qRun = s.q.qBusy
  rest : s.q.qBusy = false → s.q.qState = .qIdle ∧ s.q.prePend = false
  excl : s.ld.ldBusy → s.ld.ldDone = false
  fresh : QState.isFresh s.q.qState → s.q.preBusy = false
  preW : s.q.qState = .qPreW → s.q.preBusy
  busy : s.q.qBusy → s.ld.ldBusy → s.q.qState = .qLoadW ∨ (s.q.preBusy ∧ s.q.preDone = false ∧
    s.q.prePend = false)
  pend : s.q.prePend → s.q.preBusy ∧ s.q.preDone = false ∧ s.ld.ldBusy = false ∧
    (s.ld.ldDone → s.q.ldDonePrev)
  done : s.q.preDone →
    s.q.preBusy ∧ s.ld.ldBusy = false ∧ s.q.prePend = false ∧ (s.ld.ldDone → s.q.ldDonePrev)
  issue : s.q.qState = .qPreIssue → s.ld.ldBusy = false ∧ (s.ld.ldDone → s.q.ldDonePrev)

namespace QueueInv

/-- The guard of a prefetch from `qPreW` reads `preBusy` before it is cleared. -/
theorem prefetches_eq (h : s.QueueInv) :
    s.prefetches p = (s.q.qState == .qPreIssue && p.enablePrefetch &&
      s.q.descQ.head?.any fun d => d.bOnly && d.panelLoad p != s.q.stgPanelUse) := by
  unfold prefetches
  by_cases h₁ : s.q.qState = .qPreIssue
  · have hb : s.q.preBusy = false := h.fresh (by rw [h₁]; rfl)
    simp [h₁, hb]
  by_cases h₂ : s.q.qState = .qPreW
  · simp [h₂, h.preW h₂]
  · rw [beq_false_of_ne h₁, beq_false_of_ne h₂]
    rfl

theorem preBusy_of_prefetches (h : s.QueueInv) (hp : s.prefetches p) :
    s.q.qState = .qPreIssue ∧ s.q.preBusy = false := by
  rw [h.prefetches_eq] at hp
  simp only [Bool.and_eq_true, beq_iff_eq] at hp
  exact ⟨hp.1.1, h.fresh (by rw [hp.1.1]; rfl)⟩

/-- While the queue runs, only the sequencer starts loads. -/
theorem ldStartAny_of_qBusy (ho : s.Orderly i) (hq : s.q.qBusy) :
    s.ldStartAny i = (s.q.qState == .qLoad || s.q.prePend) := by
  have h₁ : s.ldStart i = false := Bool.eq_false_iff.2 fun h' => by simp [(ho.load (.inl h')).1] at hq
  have h₂ : s.ldStartB i = false := Bool.eq_false_iff.2 fun h' => by simp [(ho.load (.inr h')).1] at hq
  rw [ldStartAny, h₁, h₂]
  rfl

/-- No load is started when the queue is. -/
theorem ldStartAny_of_kick (h : s.QueueInv) (ho : s.Orderly i) (hq : s.q.qBusy = false)
    (hk : s.qStartPulse i) : s.ldStartAny i = false := by
  have h₁ : s.ldStart i = false := Bool.eq_false_iff.2 fun h' => by simp [(ho.load (.inl h')).2] at hk
  have h₂ : s.ldStartB i = false := Bool.eq_false_iff.2 fun h' => by simp [(ho.load (.inr h')).2] at hk
  rw [ldStartAny, h₁, h₂, (h.rest hq).1, (h.rest hq).2]
  rfl

theorem qBusy_of_preBusy (h : s.QueueInv) (hp : s.q.preBusy) : s.q.qBusy ∧ s.q.qState ≠ .qLoad := by
  have hf : ∀ q, s.q.qState = q → QState.isFresh q = false := by
    rintro q rfl
    refine Bool.eq_false_iff.2 fun hf => ?_
    simp [h.fresh hf] at hp
  refine ⟨?_, fun hq => absurd (hf _ hq) (by decide)⟩
  by_contra hb
  exact absurd (hf _ (h.rest (Bool.eq_false_iff.2 hb)).1) (by decide)

theorem next (h : s.QueueInv) (ho : s.Orderly i) : (s.next p i).QueueInv := by
  have hB := nextLd_ldBusy (p := p) ho.reset
  have hD := nextLd_ldDone (p := p) ho.reset
  have hE := @ldBusy_of_ldEnds p s i
  have hS := ldStartAny_of_qBusy (i := i) ho
  have hK := h.ldStartAny_of_kick ho
  have hP := @h.preBusy_of_prefetches p
  have hF : s.q.preBusy → s.q.qBusy ∧ s.q.qState ≠ .qLoad := h.qBusy_of_preBusy
  have hI : s.adoptsIdle → s.q.qState = .qIdle ∧ s.q.qRun := by
    intro ha
    simp only [adoptsIdle, Bool.and_eq_true, beq_iff_eq] at ha
    exact ha.1
  have hR : s.drained → s.q.qState = .qIdle ∧ s.adoptsIdle = false := by
    intro hd
    simp only [drained, Bool.and_eq_true, beq_iff_eq] at hd
    simp [adoptsIdle, hd]
  obtain ⟨h₁, h₂, h₃, h₄, h₅, h₆, h₇, h₈, h₉⟩ := h
  obtain ⟨ho₁, ho₂, ho₃⟩ := ho
  constructor <;> simp only [next_q, next_ld, hB, hD, nextQ, nextQState, ho₁]
  · grind
  · grind
  · grind
  · grind [QState.isFresh]
  · grind
  · grind
  · grind
  · grind
  · grind [QState.isFresh]

end QueueInv

theorem IsReset.queueInv (h : s.IsReset) : s.QueueInv := by
  constructor <;> simp [h.q, h.ld]

/-! ## The configuration of an engine -/

/-- What a store depends on, the accumulators apart. -/
structure StoreConfig where
  destStride : Word
  int8Mode : Bool
  outShift : ℕ
  nGroupsEff : ℕ
  wBurstLines : ℕ
  deriving DecidableEq

/-- What a load depends on. -/
structure LoadConfig where
  aSrcAddr : Word
  bSrcAddr : Word
  srcStride : Word
  ldKLen : ℕ
  bPanelLoad : ℕ
  deriving DecidableEq

def storeConfig (p : MmParams) (s : MmAccel) : StoreConfig :=
  ⟨s.regs.destStride, s.int8Mode p, s.regs.outShift, s.nGroupsEff p, s.wBurstLines p⟩

def loadConfig (s : MmAccel) : LoadConfig :=
  ⟨s.regs.aSrcAddr, s.regs.bSrcAddr, s.regs.srcStride, s.regs.ldKLen, s.regs.bPanelLoad⟩

/-- The configuration of a store is made of `DEST_STRIDE` and `OUT_CTRL`. -/
theorem storeConfig_next_of (h₁ : (s.next p i).regs.destStride = s.regs.destStride)
    (hc : s.writesCfg i 22 = false) :
    (s.next p i).storeConfig p = s.storeConfig p := by
  have h₂ : (s.next p i).regs.outShift = s.regs.outShift := by
    rw [next_regs, nextRegs, hc]
    rfl
  have h₃ : (s.next p i).regs.int8Req = s.regs.int8Req := by
    rw [next_regs, nextRegs, hc]
    rfl
  unfold storeConfig nGroupsEff wBurstLines destContig int8Mode
  rw [h₁, h₂, h₃]

/-- `OUT_CTRL` is the one register of the store that its engine does not guard. -/
theorem storeConfig_next (hb : s.st.dmaBusy) (hc : s.writesCfg i 22 = false) :
    (s.next p i).storeConfig p = s.storeConfig p :=
  storeConfig_next_of (by simp [nextRegs, hb]) hc

/-- No descriptor is adopted while a load is in flight. -/
theorem QueueInv.adopted_eq_none (h : s.QueueInv) (hb : s.ld.ldBusy) : s.adopted p = none := by
  have h₁ : s.adoptsIdle = false := by
    refine Bool.eq_false_iff.2 fun ha => ?_
    simp only [adoptsIdle, Bool.and_eq_true, beq_iff_eq] at ha
    obtain ⟨⟨hq, hr⟩, -⟩ := ha
    rcases h.busy (h.run ▸ hr) hb with hl | ⟨hp, -⟩
    · exact absurd (hq.symm.trans hl) (by decide)
    · simp [h.fresh (by rw [hq]; rfl)] at hp
  have h₂ : s.prefetches p = false := by
    refine Bool.eq_false_iff.2 fun hp => ?_
    simp [(h.issue (h.preBusy_of_prefetches hp).1).1] at hb
  rw [adopted, h₁, h₂]
  rfl

theorem QueueInv.loadConfig_next (h : s.QueueInv) (hb : s.ld.ldBusy) :
    (s.next p i).loadConfig = s.loadConfig := by
  simp [loadConfig, nextRegs, hb, h.adopted_eq_none hb]

end MmAccel

theorem queueInv_of_isRun {p : MmParams} {σ : ℕ → MmAccel} {ι : ℕ → MmInputs}
    (h : (mmAccel p).IsRun σ ι) {n : ℕ} (ho : ∀ k < n, (σ k).Orderly (ι k)) : (σ n).QueueInv := by
  induction n with
  | zero => exact MmAccel.IsReset.queueInv h.init
  | succ n ih =>
    rw [mmAccel_next h n]
    exact (ih fun k hk => ho k (hk.trans n.lt_succ_self)).next (ho n n.lt_succ_self)

/-- While a store runs its configuration is what it was when the store began, and so is that of a
    load, if software is orderly and does not write `OUT_CTRL` during a store. -/
theorem config_of_isRun {p : MmParams} {σ : ℕ → MmAccel} {ι : ℕ → MmInputs}
    (h : (mmAccel p).IsRun σ ι) {k n : ℕ} (hk : k ≤ n) (ho : ∀ j < n, (σ j).Orderly (ι j))
    (hc : ∀ j < n, (σ j).st.dmaBusy → (σ j).writesCfg (ι j) 22 = false) :
    ((∀ j, k ≤ j → j ≤ n → (σ j).st.dmaBusy) → (σ n).storeConfig p = (σ k).storeConfig p) ∧
      ((∀ j, k ≤ j → j ≤ n → (σ j).ld.ldBusy) → (σ n).loadConfig = (σ k).loadConfig) := by
  induction n, hk using Nat.le_induction with
  | base => exact ⟨fun _ => rfl, fun _ => rfl⟩
  | succ n hkn ih =>
    have hn := n.lt_succ_self
    obtain ⟨ih₁, ih₂⟩ := ih (fun j hj => ho j (hj.trans hn)) fun j hj => hc j (hj.trans hn)
    rw [mmAccel_next h n]
    refine ⟨fun hb => ?_, fun hb => ?_⟩
    · have hbn := hb n hkn hn.le
      rw [MmAccel.storeConfig_next hbn (hc n hn hbn)]
      exact ih₁ fun j h₁ h₂ => hb j h₁ (h₂.trans hn.le)
    · rw [(queueInv_of_isRun h fun j hj => ho j (hj.trans hn)).loadConfig_next (hb n hkn hn.le)]
      exact ih₂ fun j h₁ h₂ => hb j h₁ (h₂.trans hn.le)

/-! ### Runs -/

/-- A store is started, and `OUT_CTRL` written while it waits for the memory. -/
def outCtrlDuringStore (n : ℕ) : MmInputs :=
  match n with
  | 0 => .write 0 4
  | 2 => .write 22 0x100
  | _ => .quiet

/-- A store and a load are started. -/
def storeAndLoad (n : ℕ) : MmInputs := if n = 0 then .write 0 0xC else .quiet

/-- The accelerator of dimension `4`. -/
def mmDim4 : MmParams := { mmDefault with dim := 4, dim_pos := by decide }

theorem storeAndLoad_config :
    ((mmTrace storeAndLoad 5).st.dmaBusy ∧ (mmTrace storeAndLoad 5).ld.ldBusy) ∧
      (mmTrace storeAndLoad 5).storeConfig mmDefault = (mmTrace storeAndLoad 1).storeConfig mmDefault ∧
      (mmTrace storeAndLoad 5).loadConfig = (mmTrace storeAndLoad 1).loadConfig := by
  have hd : ∀ j < 5, (mmTrace storeAndLoad j).softRstPulse (storeAndLoad j) = false ∧
      ((mmTrace storeAndLoad j).ldStart (storeAndLoad j) ∨
        (mmTrace storeAndLoad j).ldStartB (storeAndLoad j) →
        (mmTrace storeAndLoad j).q.qBusy = false ∧
        (mmTrace storeAndLoad j).qStartPulse (storeAndLoad j) = false) ∧
      ((mmTrace storeAndLoad j).qStartPulse (storeAndLoad j) →
        (mmTrace storeAndLoad j).ld.ldBusy = false) := by
    decide +kernel
  have h := config_of_isRun (isRun_mmTrace storeAndLoad) (show 1 ≤ 5 by decide)
    (fun j hj => ⟨(hd j hj).1, (hd j hj).2.1, (hd j hj).2.2⟩) (by decide +kernel)
  have hb : ∀ j ≤ 5, 1 ≤ j → (mmTrace storeAndLoad j).st.dmaBusy ∧
      (mmTrace storeAndLoad j).ld.ldBusy := by
    decide +kernel
  exact ⟨by decide +kernel, h.1 fun j h₁ h₂ => (hb j h₂ h₁).1,
    h.2 fun j h₁ h₂ => (hb j h₂ h₁).2⟩

/-- A store does not keep its format to itself. -/
theorem outCtrlDuringStore_config :
    ¬∀ (p : MmParams) (σ : ℕ → MmAccel) (ι : ℕ → MmInputs) (k n : ℕ),
      (mmAccel p).IsRun σ ι → k ≤ n →
      (∀ j < n, (σ j).softRstPulse (ι j) = false) → (∀ j, k ≤ j → j ≤ n → (σ j).st.dmaBusy) →
      (σ n).storeConfig p = (σ k).storeConfig p := by
  intro h
  have h' := h mmDim4 _ outCtrlDuringStore 1 3 (Circuit.isRun_trace isReset_resetMm fun _ =>
    trivial) (by decide)
    (by decide +kernel) fun j h₁ h₂ => by
      have hb : ∀ j ≤ 3, 1 ≤ j → ((mmAccel mmDim4).trace resetMm outCtrlDuringStore j).st.dmaBusy := by
        decide +kernel
      exact hb j h₂ h₁
  revert h'
  decide +kernel

end Rv32Soc
