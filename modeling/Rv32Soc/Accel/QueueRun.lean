import Mathlib.Algebra.Order.Group.Nat
import Mathlib.Data.Nat.Count
import Mathlib.Tactic.IntervalCases
import Rv32Soc.Accel.Prefetch
import Rv32Soc.Accel.Store

/-!
# Runs of the queue

Whole runs of the accelerator in which the queue is all that software uses (`QueueTraffic`),
with any delay of the memory. What the lines hold does not matter here.

* `SequencerInv`, `ChannelInv`: how the sequencer stands to the engines, and these to their
  channels;
* `pending`: the tiles that have been adopted and are not stored yet (`pending_next`);
* `QueueRun.tiles_eq`, `QueueRun.kicks_eq`: the edges of `irq_dma` and `irq_batch` are counted
  by the tiles and by the starts of the queue;
* `QueueRun.exists_stored`, `QueueRun.exists_rest`: every tile is stored, and every batch ends.
  Each state of the sequencer leads to the store of its tile (`QueueRun.exists_edge`).
-/

namespace Rv32Soc

namespace MmAccel

variable (p : MmParams) (s : MmAccel) (i : MmInputs)

def irqBatch : Bool := s.q.qDone
def irqDma : Bool := s.st.dmaDone

/-- Software pushes descriptors, starts the queue while it rests, and leaves the other registers
    alone while it runs. -/
structure QueueTraffic (s : MmAccel) (i : MmInputs) : Prop where
  ctrl : s.writes i 0 → i.wdata = 0x20 ∧ s.q.qBusy = false
  regs : s.q.qBusy → ∀ w, s.writes i w → w = 17 ∨ w = 18 ∨ w = 19 ∨ w = 20

/-- The acknowledgement that comes in is the last one of the store. -/
def dmaEnds : Bool := s.st.dmaBusy && i.memWrReady && decide (s.nGroupsEff p ≤ s.nextSent p)

variable {p s i}

namespace QueueTraffic

/-- Of the bits of `CTRL` only that of the queue is written. -/
theorem startsNone (h : s.QueueTraffic i) : s.StartsNone i where
  ctrl b hb := by
    cases hw : s.writes i 0
    · rfl
    · rw [(h.ctrl hw).1]
      interval_cases b <;> rfl

theorem reset (h : s.QueueTraffic i) : s.softRstPulse i = false := h.startsNone.reset
theorem startAny (h : s.QueueTraffic i) : s.startAny i = (s.q.qState == .qComp) := h.startsNone.startAny
theorem dmaStartAny (h : s.QueueTraffic i) : s.dmaStartAny i = (s.q.qState == .qStore) :=
  h.startsNone.dmaStartAny

theorem ldStartAny (h : s.QueueTraffic i) : s.ldStartAny i = (s.q.qState == .qLoad || s.q.prePend) :=
  h.startsNone.ldStartAny

theorem writesCfg (h : s.QueueTraffic i) (hb : s.q.qBusy) {w : BitVec 6}
    (hw : w ≠ 17 ∧ w ≠ 18 ∧ w ≠ 19 ∧ w ≠ 20) :
    s.writesCfg i w = false := by
  have hf : s.writes i w = false := Bool.eq_false_iff.2 fun hw' => by
    rcases h.regs hb w hw' with rfl | rfl | rfl | rfl <;> simp at hw
  rw [MmAccel.writesCfg, hf]
  rfl

theorem orderly (h : s.QueueTraffic i) (hr : s.q.qBusy = false → s.ld.ldBusy = false) : s.Orderly i where
  reset := h.reset
  load hl := by simp [h.startsNone.ldStart.1, h.startsNone.ldStart.2] at hl
  kick hk := by
    simp only [qStartPulse, Bool.and_eq_true, Bool.not_eq_true'] at hk
    exact hr hk.2

end QueueTraffic

theorem nextSt_dmaBusy (hr : s.softRstPulse i = false) :
    (s.nextSt p i).dmaBusy = (s.dmaStartAny i || (s.st.dmaBusy && !s.dmaEnds p i)) := by
  rw [nextSt, hr, if_neg Bool.false_ne_true, nextSt', dmaEnds]
  cases s.dmaStartAny i
  · by_cases hN : s.nGroupsEff p ≤ s.nextSent p <;> cases hb :
      s.st.dmaBusy <;> cases i.memWrReady <;> simp [hN, hb]
  · rfl

theorem nextSt_dmaDone (hr : s.softRstPulse i = false) :
    (s.nextSt p i).dmaDone = (!s.dmaStartAny i && (s.dmaEnds p i || s.st.dmaDone)) := by
  rw [nextSt, hr, if_neg Bool.false_ne_true, nextSt', dmaEnds]
  cases s.dmaStartAny i
  · by_cases hN : s.nGroupsEff p ≤ s.nextSent p <;> cases hb :
      s.st.dmaBusy <;> cases i.memWrReady <;> simp [hN, hb]
  · rfl

/-- Where the sequencer comes from when it waits for the array, and when it starts a store and waits
    for it. -/
theorem of_nextQState (hr : s.softRstPulse i = false) :
    (s.nextQState i = .qCompW → s.q.qState = .qComp ∨ s.q.qState = .qCompW) ∧
      (s.nextQState i = .qStore → s.q.qState = .qCompW ∧ s.st.dmaBusy = false) ∧
      (s.nextQState i = .qStoreW → s.q.qState = .qStore ∨ s.q.qState = .qStoreW) := by
  rw [nextQState, hr, if_neg Bool.false_ne_true]
  refine ⟨fun h => ?_, fun h => ?_, fun h => ?_⟩ <;> grind

/-! ## The sequencer and its engines -/

/-- How the sequencer stands to the engines: while the queue rests so do they, and each state that
    waits for one of them has something to wait for. -/
structure SequencerInv (s : MmAccel) : Prop where
  queue : s.QueueInv
  rest : s.q.qBusy = false → s.ld.ldBusy = false ∧ s.st.dmaBusy = false
  done : s.q.qBusy → s.q.qDone = false
  excl : s.st.dmaBusy → s.st.dmaDone = false
  loadW : s.q.qState = .qLoadW → s.ld.ldBusy ∨ s.ld.ldDone
  pre : s.q.preBusy → s.q.preDone ∨ s.q.prePend ∨ s.ld.ldBusy ∨ (s.ld.ldDone ∧ s.q.ldDonePrev = false)
  compW : s.q.qState = .qCompW → s.arr.busy ∨ s.arr.done
  store : s.q.qState = .qStore → s.st.dmaBusy = false
  storeW : s.q.qState = .qStoreW → s.st.dmaBusy ∨ s.st.dmaDone

theorem IsReset.sequencerInv (h : s.IsReset) : s.SequencerInv := by
  refine ⟨h.queueInv, ?_, ?_, ?_, ?_, ?_, ?_, ?_, ?_⟩ <;> simp [h.q, h.ld, h.st]

namespace SequencerInv

theorem next (h : s.SequencerInv) (ht : s.QueueTraffic i) : (s.next p i).SequencerInv := by
  have ho := ht.orderly fun hb => (h.rest hb).1
  have hq := h.queue.next (p := p) ho
  have hB := nextLd_ldBusy (p := p) ho.reset
  have hD := nextLd_ldDone (p := p) ho.reset
  have hS := nextSt_dmaBusy (p := p) ho.reset
  have hT := nextSt_dmaDone (p := p) ho.reset
  rw [ht.ldStartAny] at hB hD
  rw [ht.dmaStartAny] at hS hT
  have hstart := ht.startAny
  have hP := @QueueInv.preBusy_of_prefetches p s h.queue
  have hE : s.ldEnds p i → s.ld.ldBusy := ldBusy_of_ldEnds
  have hF : s.dmaEnds p i → s.st.dmaBusy := by
    simp only [dmaEnds, Bool.and_eq_true]
    exact fun h => h.1.1
  have hR : s.drained → s.q.qState = .qIdle ∧ s.adoptsIdle = false ∧ s.st.dmaBusy = false ∧
      s.ld.ldBusy = false := by
    intro hd
    simp only [drained, Bool.and_eq_true, beq_iff_eq, Bool.not_eq_true'] at hd
    simp [adoptsIdle, hd]
  obtain ⟨h₁, h₂, h₃, h₄, h₅, h₆, h₇, h₈, h₉⟩ := h
  obtain ⟨q₁, q₂, q₃, q₄, q₅, q₆, q₇, q₈, q₉⟩ := h₁
  have hr := ho.reset
  obtain ⟨n₁, n₂, n₃⟩ := of_nextQState hr
  refine ⟨hq, ?_, ?_, ?_, ?_, ?_, fun hq' => ?_, fun hq' => ?_, fun hq' => ?_⟩ <;>
    simp only [next_q, next_ld, next_st, next_arr, hB, hD, hS, hT, nextQ]
  · grind [QState.isFresh]
  · grind
  · grind
  · grind [nextQState]
  · grind
  · -- the array is started, runs on, or is through
    have := n₁ hq'
    simp only [SystolicArray.next, SystolicArray.busyNext, hstart, hr]
    clear n₁ n₂ n₃ h₆ q₂ q₃ q₄ q₅ q₆ q₇ q₈ q₉ hB hD hS hT hq' hR hP
    grind
  · obtain ⟨hc, hb⟩ := n₂ hq'
    simp [hc, hb]
  · have := n₃ hq'
    clear n₁ n₂ n₃ h₆ q₂ q₃ q₄ q₅ q₆ q₇ q₈ q₉ hB hD hS hT hq' hR hP
    grind

end SequencerInv

/-! ## The tiles -/

/-- The states of a tile that is loaded or computed, up to the start of its store. -/
def QState.isCurrent : QState → Bool
  | .qLoad | .qLoadW | .qPreIssue | .qComp | .qCompW | .qStore => true
  | _ => false

/-- The tiles that have been adopted and are not stored yet: the one that is worked on, the one that is
    prefetched, and the one that is being stored. -/
def pending (s : MmAccel) : ℕ :=
  (QState.isCurrent s.q.qState).toNat + s.q.preBusy.toNat + s.st.dmaBusy.toNat

theorem isSome_adopted : (s.adopted p).isSome = (s.adoptsIdle || s.prefetches p) := by
  unfold adopted
  cases hd : s.q.descQ with
  | nil => simp [adoptsIdle, prefetches, hd]
  | cons d l => cases s.adoptsIdle <;> cases s.prefetches p <;> rfl

/-- A tile is pending from when it is adopted until its last acknowledgement. -/
theorem pending_next (h : s.SequencerInv) (ht : s.QueueTraffic i) :
    (s.next p i).pending + (s.dmaEnds p i).toNat = s.pending + (s.adopted p).isSome.toNat := by
  have hr := ht.reset
  have hP := @QueueInv.preBusy_of_prefetches p s h.queue
  have hI : s.adoptsIdle → s.q.qState = .qIdle := fun ha => by
    simp only [adoptsIdle, Bool.and_eq_true, beq_iff_eq] at ha
    exact ha.1.1
  have hadopts : (s.adopted p).isSome.toNat = s.adoptsIdle.toNat + (s.prefetches p).toNat := by
    rw [isSome_adopted]
    cases ha : s.adoptsIdle <;> cases hp : s.prefetches p <;> simp_all
  have hcurrent : (QState.isCurrent (s.next p i).q.qState).toNat + (s.q.qState == .qStore).toNat =
      (QState.isCurrent s.q.qState).toNat + s.adoptsIdle.toNat +
        (s.q.qState == .qPreW && s.q.preDone).toNat := by
    rw [next_q, nextQ, nextQState, hr, if_neg Bool.false_ne_true]
    cases hq : s.q.qState <;> grind [QState.isCurrent, Bool.toNat]
  have hpre : (s.next p i).q.preBusy.toNat + (s.q.qState == .qPreW && s.q.preDone).toNat =
      s.q.preBusy.toNat + (s.prefetches p).toNat := by
    have := h.queue.preW
    rw [next_q, nextQ, hr]
    cases hp : s.prefetches p <;> grind [Bool.toNat]
  have hdma : (s.next p i).st.dmaBusy.toNat + (s.dmaEnds p i).toNat =
      s.st.dmaBusy.toNat + (s.q.qState == .qStore).toNat := by
    have := h.store
    rw [next_st, nextSt_dmaBusy hr, ht.dmaStartAny, dmaEnds]
    cases hq : s.q.qState == .qStore <;> cases hb : s.st.dmaBusy <;> grind [Bool.toNat]
  rw [pending, pending]
  omega

/-! ## The channels -/

/-- How the engines stand to their channels, which are free while they rest. -/
structure ChannelInv (p : MmParams) (s : MmAccel) (x : Option Transfer) (z : Option WriteTransfer) :
    Prop where
  load : s.ld.ldBusy → LoadUnderway p s.loadConfig s x
  loadRest : s.ld.ldBusy = false → x = none
  store : s.st.dmaBusy → ∃ f, StoreUnderway p (s.storeConfig p) s z f
  storeRest : s.st.dmaBusy = false → z = none ∧ s.st.lineFifo = [] ∧ s.st.fillValid = false

theorem SequencerInv.qBusy (h : s.SequencerInv) (hb : s.ld.ldBusy ∨ s.st.dmaBusy ∨
    s.q.qState ≠ .qIdle) : s.q.qBusy := by
  by_contra hq
  have hq := Bool.eq_false_iff.2 hq
  rcases hb with hb | hb | hb
  · simp [(h.rest hq).1] at hb
  · simp [(h.rest hq).2] at hb
  · exact hb (h.queue.rest hq).1

/-- No load is started while one is under way, and nothing else interferes with it. -/
theorem SequencerInv.loadAlone (h : s.SequencerInv) (ht : s.QueueTraffic i) (hb : s.ld.ldBusy) :
    s.LoadAlone p i where
  reset := ht.reset
  start := by
    have hq := h.qBusy (.inl hb)
    rw [ht.ldStartAny]
    rcases h.queue.busy hq hb with hl | ⟨hp, -, hpend⟩
    · have hpre : s.q.preBusy = false := h.queue.fresh (by rw [hl]; rfl)
      have hpend : s.q.prePend = false := Bool.eq_false_iff.2 fun hp => by
        simp [(h.queue.pend hp).1] at hpre
      rw [hl, hpend]
      rfl
    · rw [hpend, beq_false_of_ne (h.queue.qBusy_of_preBusy hp).2]
      rfl
  adopts := h.queue.adopted_eq_none hb
  pushA := ht.writesCfg (h.qBusy (.inl hb)) (by decide)
  pushB := ht.writesCfg (h.qBusy (.inl hb)) (by decide)

/-- The configuration of a store holds still while the queue runs. -/
theorem QueueTraffic.storeConfig_next (ht : s.QueueTraffic i) (hb : s.q.qBusy) :
    (s.next p i).storeConfig p = s.storeConfig p := by
  have h11 : s.writesCfg i 11 = false := ht.writesCfg hb (by decide)
  refine storeConfig_next_of ?_ (ht.writesCfg hb (by decide))
  simp only [next_regs, nextRegs, h11, Bool.false_and, if_neg Bool.false_ne_true]

theorem dmaStartAny_of_dmaBusy (h : s.SequencerInv) (ht : s.QueueTraffic i) (hb : s.st.dmaBusy) :
    s.dmaStartAny i = false := by
  rw [ht.dmaStartAny]
  refine beq_false_of_ne fun hq => ?_
  rw [h.store hq] at hb
  cases hb

namespace ChannelInv

variable {x : Option Transfer} {z : Option WriteTransfer} {look : Bool} {m m' : Mem}

/-- The read channel and the load engine after an edge. -/
theorem next_load (h : ChannelInv p s x z) (hs : s.SequencerInv) (ht : s.QueueTraffic i) (hd : p.GoodDim)
    (hm : p.maxK ≤ 128) (grant : Bool) (hx : i.memRdReady → x ≠ none) :
    ((s.next p i).ld.ldBusy →
      LoadUnderway p (s.next p i).loadConfig (s.next p i) (s.rdNext p grant i.memRdReady x)) ∧
      ((s.next p i).ld.ldBusy = false → s.rdNext p grant i.memRdReady x = none) := by
  by_cases hb : s.ld.ldBusy
  · have ha : s.LoadAlone p i := hs.loadAlone ht hb
    rcases (h.load hb).next ha hd hm grant hx with ⟨hl, -⟩ | ⟨hb', -, hx'⟩
    · rw [ha.loadConfig_next hb]
      exact ⟨fun _ => hl, fun hb' => absurd (hb'.symm.trans hl.busy.1) nofun⟩
    · exact ⟨fun hb'' => absurd (hb'.symm.trans hb'') nofun, fun _ => hx'⟩
  · have hb := Bool.eq_false_iff.2 hb
    have hx' : s.rdNext p grant i.memRdReady x = none := by
      rw [h.loadRest hb, rdNext, memRdReqValid, hb]
      simp
    refine ⟨fun hb' => ?_, fun _ => hx'⟩
    rw [next_ld, nextLd_ldBusy ht.reset, hb, Bool.false_and, Bool.or_false] at hb'
    rw [hx']
    exact ⟨_, _, (loading_of_ldStartAny (fun _ _ _ => 0) hb' ht.reset).1⟩

/-- The write channel and the store engine after an edge. -/
theorem next_store (h : ChannelInv p s x z) (hs : s.SequencerInv)
    (ht : s.QueueTraffic i) (hd : p.GoodDim) (grant : Bool) (hw : s.WriteServes i look z m m') :
    ((s.next p i).st.dmaBusy →
        ∃ f, StoreUnderway p ((s.next p i).storeConfig p) (s.next p i) (s.wrNext p i grant look z) f) ∧
      ((s.next p i).st.dmaBusy = false → s.wrNext p i grant look z = none ∧
        (s.next p i).st.lineFifo = [] ∧
        (s.next p i).st.fillValid = false) := by
  by_cases hb : s.st.dmaBusy
  · have hq := hs.qBusy (.inr (.inl hb))
    obtain ⟨f, hf⟩ := h.store hb
    rw [ht.storeConfig_next hq]
    rcases hf.next (fits_storeConfig s hd) ht.reset (dmaStartAny_of_dmaBusy hs ht hb)
      (ht.storeConfig_next hq) grant hw with
      ⟨⟨f', hf'⟩, -⟩ | ⟨hb', -, hfifo, hvalid, hz⟩
    · exact ⟨fun _ => ⟨f', hf'⟩, fun hb' => absurd (hb'.symm.trans hf'.busy.1) nofun⟩
    · exact ⟨fun hb'' => absurd (hb'.symm.trans hb'') nofun, fun _ => ⟨hz, hfifo, hvalid⟩⟩
  · have hb := Bool.eq_false_iff.2 hb
    obtain ⟨hz, hfifo, hvalid⟩ := h.storeRest hb
    have hz' : s.wrNext p i grant look z = none := by
      rw [hz, wrNext, memWrReqValid, hb]
      simp
    have hfill : (s.next p i).st.lineFifo = [] ∧ (s.next p i).st.fillValid = false := by
      have hf : s.fillFire p = false := by simp [fillFire, hb]
      have hn : s.nextFifo p i = [] := by simp [nextFifo, hfifo, hvalid]
      rw [next_st, nextSt, ht.reset, if_neg Bool.false_ne_true, nextSt', hb, Bool.false_and, hf, hn]
      cases s.dmaStartAny i <;> exact ⟨rfl, rfl⟩
    refine ⟨fun hb' => ?_, fun _ => ⟨hz', hfill⟩⟩
    rw [next_st, nextSt_dmaBusy ht.reset, hb, Bool.false_and, Bool.or_false] at hb'
    have hq : s.q.qBusy := hs.qBusy (.inr (.inr fun hq => by simp [ht.dmaStartAny, hq] at hb'))
    rw [hz', ht.storeConfig_next hq]
    exact ⟨0, fun _ => 0, _, storing_of_dmaStartAny hd hb' ht.reset hb hfill.1 rfl
      (ht.storeConfig_next hq)⟩

end ChannelInv

end MmAccel

open MmAccel

/-! ## Runs -/

/-- A run in which the queue is all that software uses, with any delay of the memory. -/
structure QueueRun (p : MmParams) (σ : ℕ → MmAccel) (ι : ℕ → MmInputs) (χ : ℕ → Option Transfer)
    (ζ : ℕ → Option WriteTransfer) (μ : ℕ → Mem) : Prop where
  run : (mmAccel p).IsRun σ ι
  traffic : ∀ n, (σ n).QueueTraffic (ι n)
  reads : ReadTiming p σ ι χ
  writes : WriteService p σ ι ζ μ
  free : χ 0 = none ∧ ζ 0 = none

/-- The rising edges of a line on the cycles before `n`. -/
def risingEdges (line : ℕ → Bool) (n : ℕ) :
    ℕ := Nat.count (fun k => line k = false ∧ line (k + 1) = true) n

/-- How often the queue has been started. -/
def kicks (σ : ℕ → MmAccel) (ι : ℕ → MmInputs) (n : ℕ) :
    ℕ := Nat.count (fun k => (σ k).qStartPulse (ι k) = true) n

/-- The tiles that have been adopted. -/
def tiles (p : MmParams) (σ : ℕ → MmAccel) (n : ℕ) :
    ℕ := Nat.count (fun k => ((σ k).adopted p).isSome = true) n

theorem count_succ_toNat (f : ℕ → Bool) (n : ℕ) :
    Nat.count (fun k => f k = true) (n + 1) = Nat.count (fun k => f k = true) n + (f n).toNat := by
  rw [Nat.count_succ]
  cases f n <;> rfl

namespace QueueRun

variable {p : MmParams} {σ : ℕ → MmAccel} {ι : ℕ → MmInputs} {χ : ℕ → Option Transfer}
  {ζ : ℕ → Option WriteTransfer} {μ : ℕ → Mem} {n : ℕ}

section

variable (h : QueueRun p σ ι χ ζ μ)

include h

theorem next (n : ℕ) : σ (n + 1) = (σ n).next p (ι n) := mmAccel_next h.run n

theorem sequencerInv (n : ℕ) : (σ n).SequencerInv := by
  induction n with
  | zero => exact IsReset.sequencerInv h.run.init
  | succ n ih => exact h.next n ▸ ih.next (h.traffic n)

theorem channelInv (hd : p.GoodDim) (hm : p.maxK ≤ 128) (n : ℕ) : ChannelInv p (σ n) (χ n) (ζ n) := by
  induction n with
  | zero =>
    have hr : (σ 0).IsReset := h.run.init
    refine ⟨fun hb => ?_, fun _ => h.free.1, fun hb => ?_, fun _ => ⟨h.free.2, ?_, ?_⟩⟩
    · simp [hr.ld] at hb
    · simp [hr.st] at hb
    · simp [hr.st]
    · simp [hr.st]
  | succ n ih =>
    obtain ⟨g, hx⟩ := h.reads.next n
    obtain ⟨g', l, hz, hw⟩ := h.writes n
    obtain ⟨h₁, h₂⟩ := ih.next_load (h.sequencerInv n) (h.traffic n) hd hm g (h.reads.line n)
    obtain ⟨h₃, h₄⟩ := ih.next_store (h.sequencerInv n) (h.traffic n) hd g' hw
    rw [h.next n, hx, hz]
    exact ⟨h₁, h₂, h₃, h₄⟩

/-- `irq_dma` rises with the last acknowledgement of a store. -/
theorem irqDma_iff (n : ℕ) :
    ((σ n).irqDma = false ∧ (σ (n + 1)).irqDma = true) ↔ (σ n).dmaEnds p (ι n) = true := by
  have hi := h.sequencerInv n
  have ht := h.traffic n
  have hdone : (σ (n + 1)).irqDma = (!(σ n).dmaStartAny (ι n) && ((σ n).dmaEnds p (ι n) ||
      (σ n).irqDma)) := by
    rw [h.next n]
    exact nextSt_dmaDone ht.reset
  rw [hdone]
  cases he : (σ n).dmaEnds p (ι n)
  · cases (σ n).irqDma <;> simp
  · have hb : (σ n).st.dmaBusy := by
      simp only [dmaEnds, Bool.and_eq_true] at he
      exact he.1.1
    simp [irqDma, hi.excl hb, dmaStartAny_of_dmaBusy hi ht hb]

/-- `irq_batch` rises when the queue is drained. -/
theorem irqBatch_iff (n : ℕ) :
    ((σ n).irqBatch = false ∧ (σ (n + 1)).irqBatch = true) ↔ (σ n).drained = true := by
  have hi := h.sequencerInv n
  have hdone : (σ (n + 1)).irqBatch =
      ((σ n).drained || (!(σ n).qStartPulse (ι n) && (σ n).irqBatch)) := by
    rw [h.next n, irqBatch, next_q, nextQ, (h.traffic n).reset]
    cases (σ n).drained <;> cases (σ n).qStartPulse (ι n) <;> rfl
  rw [hdone]
  cases hdr : (σ n).drained
  · cases (σ n).irqBatch <;> simp
  · have hrun : (σ n).q.qRun = true := by
      simp only [drained, Bool.and_eq_true] at hdr
      exact hdr.1.1.1.2
    simp [irqBatch, hi.done (hi.queue.run ▸ hrun)]

theorem risingEdges_dma_succ (n : ℕ) : risingEdges (fun k => (σ k).irqDma) (n + 1) =
    risingEdges (fun k => (σ k).irqDma) n + ((σ n).dmaEnds p (ι n)).toNat := by
  rw [risingEdges, Nat.count_succ, risingEdges]
  simp only [h.irqDma_iff n]
  cases (σ n).dmaEnds p (ι n) <;> rfl

/-- Every tile that has been adopted is pending, or `irq_dma` has risen for it. -/
theorem tiles_eq (n : ℕ) : tiles p σ n = risingEdges (fun k => (σ k).irqDma) n + (σ n).pending := by
  induction n with
  | zero =>
    have hr : (σ 0).IsReset := h.run.init
    simp [tiles, risingEdges, pending, hr.q, hr.st, QState.isCurrent]
  | succ n ih =>
    have hstep := pending_next (p := p) (h.sequencerInv n) (h.traffic n)
    rw [h.risingEdges_dma_succ n, h.next n, tiles, count_succ_toNat]
    rw [tiles] at ih
    omega

/-- Every start of the queue is followed by one edge of `irq_batch`, before the next one. -/
theorem kicks_eq (n : ℕ) :
    kicks σ ι n = risingEdges (fun k => (σ k).irqBatch) n + (σ n).q.qBusy.toNat := by
  induction n with
  | zero =>
    have hr : (σ 0).IsReset := h.run.init
    simp [kicks, risingEdges, hr.q]
  | succ n ih =>
    have hedge : risingEdges (fun k => (σ k).irqBatch) (n + 1) =
        risingEdges (fun k => (σ k).irqBatch) n + (σ n).drained.toNat := by
      rw [risingEdges, Nat.count_succ, risingEdges]
      simp only [h.irqBatch_iff n]
      cases (σ n).drained <;> rfl
    have hbusy : (σ (n + 1)).q.qBusy = (!(σ n).drained && ((σ n).qStartPulse (ι n) ||
        (σ n).q.qBusy)) := by
      rw [h.next n, next_q, nextQ, (h.traffic n).reset]
      cases (σ n).drained <;> rfl
    have hkick : (σ n).qStartPulse (ι n) → (σ n).q.qBusy = false := by
      simp only [qStartPulse, Bool.and_eq_true, Bool.not_eq_true']
      exact fun h => h.2
    have hrun : (σ n).drained → (σ n).q.qBusy = true := by
      rw [← (h.sequencerInv n).queue.run]
      simp only [drained, Bool.and_eq_true]
      exact fun h => h.1.1.1.2
    rw [hedge, hbusy, kicks, count_succ_toNat]
    rw [kicks] at ih
    cases hdr : (σ n).drained <;> cases hk : (σ n).qStartPulse (ι n) <;> cases hb :
      (σ n).q.qBusy <;> simp_all

/-! ### Every tile is stored -/

/-- A store that runs comes to its last acknowledgement. -/
theorem exists_dmaEnds (hd : p.GoodDim) (hm : p.maxK ≤ 128) (hf : WriteFair σ ι ζ)
    (hb : (σ n).st.dmaBusy) :
    ∃ m ≥ n, (σ m).dmaEnds p (ι m) = true := by
  by_contra hcon
  have hno : ∀ m ≥ n, (σ m).dmaEnds p (ι m) = false :=
    fun m hm => Bool.eq_false_iff.2 fun he => hcon ⟨m, hm, he⟩
  have hall : ∀ m ≥ n, (σ m).st.dmaBusy = true ∧ (σ m).storeConfig p = (σ n).storeConfig p := by
    intro m hm
    induction m, hm using Nat.le_induction with
    | base => exact ⟨hb, rfl⟩
    | succ m hm ih =>
      have ht := h.traffic m
      refine ⟨?_, ?_⟩
      · rw [h.next m, next_st, nextSt_dmaBusy ht.reset, hno m hm, ih.1]
        simp
      · rw [h.next m, ht.storeConfig_next ((h.sequencerInv m).qBusy (.inr (.inl ih.1))), ih.2]
  obtain ⟨f, hst⟩ := (h.channelInv hd hm n).store hb
  obtain ⟨e, he, hdone⟩ :=
      hst.ends (fits_storeConfig (σ n) hd) (fun m _ => h.next m) h.writes hf fun m hm _ =>
    ⟨(h.traffic m).reset, dmaStartAny_of_dmaBusy (h.sequencerInv m) (h.traffic m) (hall m hm).1,
      (hall (m + 1) (Nat.le_succ_of_le hm)).2⟩
  have hexcl := (h.sequencerInv e).excl (hall e he).1
  simp [hdone] at hexcl

/-- A load that runs comes to its end. -/
theorem exists_ldDone (hd : p.GoodDim) (hm : p.maxK ≤ 128) (hf : ReadFair σ ι χ) (hb : (σ n).ld.ldBusy) :
    ∃ m ≥ n, (σ m).ld.ldDone = true := by
  refine ((h.channelInv hd hm n).load hb).ends (fun m _ => h.next m) h.reads hf hd hm fun m hm hno => ?_
  have hbusy : ∀ k ≥ n, k ≤ m → (σ k).ld.ldBusy = true := by
    intro k hk hkm
    induction k, hk using Nat.le_induction with
    | base => exact hb
    | succ k hk ih =>
      have hr := (h.traffic k).reset
      have hdone := hno (k + 1) (Nat.le_succ_of_le hk) hkm
      rw [h.next k, next_ld, nextLd_ldDone hr] at hdone
      rw [h.next k, next_ld, nextLd_ldBusy hr, ih (Nat.le_of_succ_le hkm)]
      cases hs : (σ k).ldStartAny (ι k)
      · rw [hs, Bool.not_false, Bool.true_and, Bool.or_eq_false_iff] at hdone
        rw [hdone.1]
        rfl
      · rfl
  exact (h.sequencerInv m).loadAlone (h.traffic m) (hbusy m hm le_rfl)

/-- Where the sequencer goes on one cycle. -/
theorem qState_step (n : ℕ) :
    (σ (n + 1)).q.qState =
      match (σ n).q.qState with
      | .qIdle => if (σ n).adoptsIdle then .qLoad else .qIdle
      | .qLoad => .qLoadW
      | .qLoadW => if (σ n).ld.ldDone then .qPreIssue else .qLoadW
      | .qPreIssue => .qComp
      | .qComp => .qCompW
      | .qCompW => if (σ n).arr.done && !(σ n).st.dmaBusy then .qStore else .qCompW
      | .qStore => .qStoreW
      | .qStoreW =>
        if (σ n).st.dmaDone || ((σ n).st.dmaBusy && (σ n).st.fillLeft == 0) then
          if (σ n).q.preBusy then .qPreW else .qIdle
        else .qStoreW
      | .qPreW => if (σ n).q.preDone then .qComp else .qPreW := by
  rw [h.next n, next_q, nextQ, nextQState, (h.traffic n).reset]
  rfl

theorem t_lt (n : ℕ) : (σ n).arr.t < 256 := by
  induction n with
  | zero =>
    have hr : (σ 0).IsReset := h.run.init
    simp [hr.arr]
  | succ n ih =>
    rw [h.next n, next_arr, SystolicArray.next, (h.traffic n).reset]
    cases (σ n).startAny (ι n) <;> cases (σ n).arr.busy <;> simp [ih, Nat.mod_lt]

/-- The array comes to the last cycle of its run. -/
theorem exists_done (hb : (σ n).arr.busy = true) (hd : p.lastTBits = 8)
    (hstart : ∀ m ≥ n, (σ m).startAny (ι m) = false ∧ (σ (m + 1)).regs.kLen = (σ m).regs.kLen) :
    ∃ m ≥ n, (σ m).arr.done = true := by
  have hstep : ∀ m ≥ n, (σ (m + 1)).arr =
      (σ m).arr.next p (σ m).buf (σ m).regs.kLen false false := fun m hm => by
    rw [h.next m, next_arr, (h.traffic m).reset, (hstart m hm).1]
  have hlast : ∀ m, SystolicArray.lastT p (σ m).regs.kLen < 256 := fun m => by
    rw [SystolicArray.lastT, hd]
    exact Nat.mod_lt _ (by decide)
  -- the cycles that are left
  suffices hleft : ∀ d, ∀ m ≥ n, (σ m).arr.busy = true →
      (SystolicArray.lastT p (σ m).regs.kLen + 256 - (σ m).arr.t) % 256 = d →
      ∃ k ≥ m, (σ k).arr.done = true from
    hleft _ n le_rfl hb rfl
  intro d
  induction d with
  | zero =>
    intro m hm hbusy hd'
    have ht := h.t_lt m
    have hl := hlast m
    have heq : (σ m).arr.t = SystolicArray.lastT p (σ m).regs.kLen := by omega
    refine ⟨m + 1, m.le_succ, ?_⟩
    rw [hstep m hm, SystolicArray.next, heq]
    simp [hbusy]
  | succ d ih =>
    intro m hm hbusy hd'
    have ht := h.t_lt m
    have hl := hlast m
    have hne : (σ m).arr.t ≠ SystolicArray.lastT p (σ m).regs.kLen := fun he => by
      rw [he] at hd'
      omega
    have hnext : (σ (m + 1)).arr.busy = true ∧ (σ (m + 1)).arr.t = ((σ m).arr.t + 1) % 256 := by
      rw [hstep m hm, SystolicArray.next]
      simp [SystolicArray.busyNext, hbusy, hne]
    obtain ⟨k, hk, hdone⟩ :=
      ih (m + 1) (Nat.le_succ_of_le hm) hnext.1 (by rw [(hstart m hm).2, hnext.2]; omega)
    exact ⟨k, Nat.le_of_succ_le hk, hdone⟩

theorem stores_of_qStore (hq : (σ n).q.qState = .qStore) : ∃ m ≥ n, (σ m).st.dmaBusy = true := by
  refine ⟨n + 1, n.le_succ, ?_⟩
  rw [h.next n, next_st, nextSt_dmaBusy (h.traffic n).reset, (h.traffic n).dmaStartAny, hq]
  rfl

theorem stores_of_qCompW (hd : p.GoodDim) (hq : (σ n).q.qState = .qCompW) :
    ∃ m ≥ n, (σ m).st.dmaBusy = true := by
  by_contra hcon
  have hno : ∀ m ≥ n, (σ m).st.dmaBusy = false :=
    fun m hm => Bool.eq_false_iff.2 fun hb => hcon ⟨m, hm, hb⟩
  have hdone : ∀ m ≥ n, (σ m).q.qState = .qCompW → (σ m).arr.done = false := fun m hm hs =>
    Bool.eq_false_iff.2 fun hdone => by
      have hstep := h.qState_step m
      simp only [hs, hdone, hno m hm, Bool.not_false, Bool.and_self, if_pos] at hstep
      obtain ⟨k, hk, hb⟩ := h.stores_of_qStore hstep
      exact hcon ⟨k, (Nat.le_succ_of_le hm).trans hk, hb⟩
  have hall : ∀ m ≥ n, (σ m).q.qState = .qCompW := by
    intro m hm
    induction m, hm using Nat.le_induction with
    | base => exact hq
    | succ m hm ih =>
      have hstep := h.qState_step m
      simpa only [ih, hdone m hm ih, Bool.false_and, if_neg Bool.false_ne_true] using hstep
  have hbusy : (σ n).arr.busy = true := ((h.sequencerInv n).compW hq).resolve_right fun hd' => by
    simp [hdone n le_rfl hq] at hd'
  obtain ⟨e, he, hd'⟩ := h.exists_done hbusy (p.lastTBits_eq (by have := hd.le; omega)) fun m hm => by
    have ht := h.traffic m
    have hq' := hall m hm
    have hcfg : (σ m).writesCfg (ι m) 2 = false :=
      ht.writesCfg ((h.sequencerInv m).qBusy (.inr (.inr (by rw [hq']; nofun)))) (by decide)
    refine ⟨by rw [ht.startAny, hq']; rfl, ?_⟩
    rw [h.next m, next_regs, nextRegs]
    simp only [hcfg, promotes, hq']
    rfl
  simp [hdone e he (hall e he)] at hd'

theorem stores_of_qComp (hd : p.GoodDim) (hq : (σ n).q.qState = .qComp) :
    ∃ m ≥ n, (σ m).st.dmaBusy = true := by
  have hstep := h.qState_step n
  rw [hq] at hstep
  obtain ⟨m, hm, hb⟩ := h.stores_of_qCompW hd hstep
  exact ⟨m, Nat.le_of_succ_le hm, hb⟩

theorem stores_of_qPreIssue (hd : p.GoodDim) (hq : (σ n).q.qState = .qPreIssue) :
    ∃ m ≥ n, (σ m).st.dmaBusy = true := by
  have hstep := h.qState_step n
  rw [hq] at hstep
  obtain ⟨m, hm, hb⟩ := h.stores_of_qComp hd hstep
  exact ⟨m, Nat.le_of_succ_le hm, hb⟩

theorem stores_of_qLoadW (hd : p.GoodDim) (hm : p.maxK ≤ 128) (hf : ReadFair σ ι χ)
    (hq : (σ n).q.qState = .qLoadW) :
    ∃ m ≥ n, (σ m).st.dmaBusy = true := by
  by_contra hcon
  have hdone : ∀ m ≥ n, (σ m).q.qState = .qLoadW → (σ m).ld.ldDone = false := fun m hm hs =>
    Bool.eq_false_iff.2 fun hdone => by
      have hstep := h.qState_step m
      simp only [hs, hdone, if_pos] at hstep
      obtain ⟨k, hk, hb⟩ := h.stores_of_qPreIssue hd hstep
      exact hcon ⟨k, (Nat.le_succ_of_le hm).trans hk, hb⟩
  have hall : ∀ m ≥ n, (σ m).q.qState = .qLoadW := by
    intro m hm
    induction m, hm using Nat.le_induction with
    | base => exact hq
    | succ m hm ih =>
      have hstep := h.qState_step m
      simpa only [ih, hdone m hm ih, if_neg Bool.false_ne_true] using hstep
  have hbusy : (σ n).ld.ldBusy = true := ((h.sequencerInv n).loadW hq).resolve_right fun hd' => by
    simp [hdone n le_rfl hq] at hd'
  obtain ⟨e, he, hd'⟩ := h.exists_ldDone hd hm hf hbusy
  simp [hdone e he (hall e he)] at hd'

theorem stores_of_qLoad (hd : p.GoodDim) (hm : p.maxK ≤ 128) (hf : ReadFair σ ι χ)
    (hq : (σ n).q.qState = .qLoad) :
    ∃ m ≥ n, (σ m).st.dmaBusy = true := by
  have hstep := h.qState_step n
  rw [hq] at hstep
  obtain ⟨m, hm, hb⟩ := h.stores_of_qLoadW hd hm hf hstep
  exact ⟨m, Nat.le_of_succ_le hm, hb⟩

/-- The prefetch that `qPreW` waits for is about to start, under way, or just over. -/
theorem stores_of_qPreW (hd : p.GoodDim) (hm : p.maxK ≤ 128) (hf : ReadFair σ ι χ)
    (hq : (σ n).q.qState = .qPreW) :
    ∃ m ≥ n, (σ m).st.dmaBusy = true := by
  by_contra hcon
  have hdone : ∀ m ≥ n, (σ m).q.qState = .qPreW → (σ m).q.preDone = false := fun m hm hs =>
    Bool.eq_false_iff.2 fun hdone => by
      have hstep := h.qState_step m
      simp only [hs, hdone, if_pos] at hstep
      obtain ⟨k, hk, hb⟩ := h.stores_of_qComp hd hstep
      exact hcon ⟨k, (Nat.le_succ_of_le hm).trans hk, hb⟩
  have hall : ∀ m ≥ n, (σ m).q.qState = .qPreW := by
    intro m hm
    induction m, hm using Nat.le_induction with
    | base => exact hq
    | succ m hm ih =>
      have hstep := h.qState_step m
      simpa only [ih, hdone m hm ih, if_neg Bool.false_ne_true] using hstep
  have hpre : ∀ m ≥ n, (σ m).q.preBusy = true := fun m hm => (h.sequencerInv m).queue.preW (hall m hm)
  have hnone : ∀ m ≥ n, (σ m).prefetches p = false :=
    fun m hm => by simp [prefetches, hall m hm, hpre m hm]
  -- a load that is just over would be noticed
  have hedge : ∀ m ≥ n, ¬((σ m).ld.ldDone = true ∧ (σ m).q.ldDonePrev = false) :=
      fun m hm ⟨h₁, h₂⟩ => by
    have := hdone (m + 1) (Nat.le_succ_of_le hm) (hall (m + 1) (Nat.le_succ_of_le hm))
    rw [h.next m, next_q, nextQ, (h.traffic m).reset, h₁, h₂, hpre m hm] at this
    cases this
  have hpend : ∀ m ≥ n, (σ (m + 1)).q.prePend = false := fun m hm => by
    rw [h.next m, next_q, nextQ, (h.traffic m).reset, hnone m hm]
    simp
  have hwait : ∀ m > n, (σ m).ld.ldBusy = true := fun m hm => by
    obtain ⟨m, rfl⟩ : ∃ k, m = k + 1 := ⟨m - 1, by omega⟩
    have hm : n ≤ m := Nat.le_of_lt_succ hm
    have hm' : n ≤ m + 1 := Nat.le_succ_of_le hm
    rcases (h.sequencerInv (m + 1)).pre (hpre (m + 1) hm') with h' | h' | h' | h'
    · simp [hdone (m + 1) hm' (hall (m + 1) hm')] at h'
    · simp [hpend m hm] at h'
    · exact h'
    · exact absurd h' (hedge (m + 1) hm')
  obtain ⟨e, he, hd'⟩ := h.exists_ldDone hd hm hf (hwait (n + 1) n.lt_succ_self)
  have hexcl := (h.sequencerInv e).queue.excl (hwait e he)
  simp [hd'] at hexcl

/-- A tile that is pending is stored. -/
theorem exists_edge (hd : p.GoodDim) (hm : p.maxK ≤ 128) (hr : ReadFair σ ι χ) (hw : WriteFair σ ι ζ)
    (hp : 0 < (σ n).pending) : ∃ m ≥ n, (σ m).dmaEnds p (ι m) = true := by
  obtain ⟨m, hnm, hb⟩ : ∃ m ≥ n, (σ m).st.dmaBusy = true := by
    cases hb : (σ n).st.dmaBusy with
    | true => exact ⟨n, le_rfl, hb⟩
    | false =>
      have hfresh := (h.sequencerInv n).queue.fresh
      rw [pending, hb, Bool.toNat_false, Nat.add_zero] at hp
      cases hq : (σ n).q.qState with
      | qIdle => simp [hq, QState.isCurrent, hfresh (by rw [hq]; rfl)] at hp
      | qLoad => exact h.stores_of_qLoad hd hm hr hq
      | qLoadW => exact h.stores_of_qLoadW hd hm hr hq
      | qPreIssue => exact h.stores_of_qPreIssue hd hq
      | qComp => exact h.stores_of_qComp hd hq
      | qCompW => exact h.stores_of_qCompW hd hq
      | qStore => exact h.stores_of_qStore hq
      | qPreW => exact h.stores_of_qPreW hd hm hr hq
      | qStoreW =>
        have hdone := ((h.sequencerInv n).storeW hq).resolve_left (by simp [hb])
        have hpre : (σ n).q.preBusy = true := by
          by_contra hpre
          simp [hq, QState.isCurrent, Bool.eq_false_iff.2 hpre] at hp
        have hstep := h.qState_step n
        simp only [hq, hdone, hpre, Bool.true_or, if_pos] at hstep
        obtain ⟨m, hm', hb'⟩ := h.stores_of_qPreW hd hm hr hstep
        exact ⟨m, Nat.le_of_succ_le hm', hb'⟩
  obtain ⟨k, hk, he⟩ := h.exists_dmaEnds hd hm hw hb
  exact ⟨k, hnm.trans hk, he⟩

/-- `irq_dma` rises for every tile that has been adopted. -/
theorem exists_stored (hd : p.GoodDim) (hm : p.maxK ≤ 128) (hr : ReadFair σ ι χ)
    (hw : WriteFair σ ι ζ) (n : ℕ) :
    ∃ m ≥ n, tiles p σ n ≤ risingEdges (fun k => (σ k).irqDma) m := by
  -- the edges that are missing
  suffices hleft : ∀ k T n, T ≤ tiles p σ n → T ≤ risingEdges (fun k => (σ k).irqDma) n + k →
      ∃ m ≥ n, T ≤ risingEdges (fun k => (σ k).irqDma) m from
    hleft (tiles p σ n) _ n le_rfl (Nat.le_add_left _ _)
  intro k
  induction k with
  | zero => exact fun T n _ hT => ⟨n, le_rfl, hT⟩
  | succ k ih =>
    intro T n hT hk
    by_cases hle : T ≤ risingEdges (fun k => (σ k).irqDma) n
    · exact ⟨n, le_rfl, hle⟩
    have htiles := h.tiles_eq n
    obtain ⟨m, hnm, he⟩ := h.exists_edge hd hm hr hw (n := n) (by omega)
    have hmono : risingEdges (fun k => (σ k).irqDma) n ≤ risingEdges (fun k => (σ k).irqDma) m :=
      Nat.count_monotone _ hnm
    have hsucc := h.risingEdges_dma_succ m
    rw [he, Bool.toNat_true] at hsucc
    obtain ⟨l, hl, hT'⟩ :=
      ih T (m + 1) (hT.trans (Nat.count_monotone _ (Nat.le_succ_of_le hnm))) (by omega)
    exact ⟨l, (Nat.le_succ_of_le hnm).trans hl, hT'⟩

/-- Without new descriptors the queue gets shorter with every tile. -/
theorem tiles_add_length {N : ℕ} (hpush : ∀ m ≥ N, (σ m).descPush (ι m) = false)
    {m : ℕ} (hNm : N ≤ m) :
    tiles p σ m + (σ m).q.descQ.length = tiles p σ N + (σ N).q.descQ.length := by
  induction m, hNm using Nat.le_induction with
  | base => rfl
  | succ m hm ih =>
    rw [← ih, tiles, count_succ_toNat, ← tiles, h.next m, descQ_next (h.traffic m).reset (hpush m hm)]
    cases ha : (σ m).adopted p with
    | none => simp
    | some d =>
      have hpos : 0 < (σ m).q.descQ.length := List.length_pos_of_mem (mem_of_adopted ha)
      simp only [Option.isSome_some, if_pos, Bool.toNat_true, List.length_tail]
      omega

/-- A batch ends, unless descriptors are pushed for ever. -/
theorem exists_rest (hd : p.GoodDim) (hm : p.maxK ≤ 128) (hr : ReadFair σ ι χ) (hw : WriteFair σ ι ζ)
    (hpush : ∃ N, ∀ m ≥ N, (σ m).descPush (ι m) = false) (n : ℕ) :
      ∃ m ≥ n, (σ m).q.qBusy = false := by
  by_contra hcon
  have hbusy : ∀ m ≥ n, (σ m).q.qBusy = true := fun m hm => by
    by_contra hb
    exact hcon ⟨m, hm, Bool.eq_false_iff.2 hb⟩
  obtain ⟨N, hN⟩ := hpush
  -- the last tile is adopted
  obtain ⟨a, ha, hlast⟩ : ∃ a ≥ max n N, ∀ k ≥ a, tiles p σ k ≤ tiles p σ a := by
    by_contra hgrow
    push Not at hgrow
    obtain ⟨k, hk, hle⟩ := Circuit.exists_le_of_grows hgrow (tiles p σ N + (σ N).q.descQ.length + 1)
    have := h.tiles_add_length hN (le_of_max_le_right hk)
    omega
  -- and stored
  obtain ⟨b, hab, hstored⟩ := h.exists_stored hd hm hr hw a
  have hnone : ∀ m ≥ b, (σ m).pending = 0 ∧ (σ m).adopted p = none := fun m hbm => by
    have h₁ := h.tiles_eq m
    have h₂ := hlast m (hab.trans hbm)
    have h₃ := hlast (m + 1) ((hab.trans hbm).trans m.le_succ)
    have h₄ : tiles p σ a ≤ tiles p σ m := Nat.count_monotone _ (hab.trans hbm)
    have h₅ : risingEdges (fun k => (σ k).irqDma) b ≤ risingEdges (fun k => (σ k).irqDma) m :=
      Nat.count_monotone _ hbm
    rw [tiles, count_succ_toNat, ← tiles] at h₃
    refine ⟨by omega, Option.not_isSome_iff_eq_none.1 fun hs => ?_⟩
    rw [hs, Bool.toNat_true] at h₃
    omega
  have hnb : n ≤ b := (le_of_max_le_left ha).trans hab
  have hzero : ∀ m ≥ b, QState.isCurrent (σ m).q.qState = false ∧ (σ m).q.preBusy = false ∧
      (σ m).st.dmaBusy = false :=
    fun m hbm => by
      have hp := (hnone m hbm).1
      rw [pending] at hp
      refine ⟨?_, ?_, ?_⟩ <;> refine Bool.eq_false_iff.2 fun hx => ?_ <;> rw [hx,
        Bool.toNat_true] at hp <;> omega
  -- so that the sequencer comes to rest
  obtain ⟨m, hbm, hq⟩ : ∃ m ≥ b, (σ m).q.qState = .qIdle := by
    obtain ⟨hc, hpre, hdma⟩ := hzero b le_rfl
    cases hq : (σ b).q.qState with
    | qIdle => exact ⟨b, le_rfl, hq⟩
    | qStoreW =>
      have hdone := ((h.sequencerInv b).storeW hq).resolve_left (by simp [hdma])
      have hstep := h.qState_step b
      simp only [hq, hdone, hpre, Bool.true_or, if_pos, if_neg Bool.false_ne_true] at hstep
      exact ⟨b + 1, b.le_succ, hstep⟩
    | qPreW => simp [(h.sequencerInv b).queue.preW hq] at hpre
    | _ => simp [hq, QState.isCurrent] at hc
  obtain ⟨-, hpre, hdma⟩ := hzero m hbm
  have hrun : (σ m).q.qRun = true := (h.sequencerInv m).queue.run.trans (hbusy m (hnb.trans hbm))
  have hnil : (σ m).q.descQ = [] := by
    by_contra hne
    have hs : ((σ m).adopted p).isSome = true := by
      rw [isSome_adopted, Bool.or_eq_true]
      exact .inl (by simp [adoptsIdle, hq, hrun, hne])
    rw [(hnone m hbm).2] at hs
    cases hs
  have hld : (σ m).ld.ldBusy = false := Bool.eq_false_iff.2 fun hb => by
    rcases (h.sequencerInv m).queue.busy (hbusy m (hnb.trans hbm)) hb with hl | ⟨hp, -⟩
    · simp [hq] at hl
    · simp [hpre] at hp
  have hdrained : (σ m).drained = true := by simp [drained, hq, hrun, hnil, hdma, hld]
  have := hbusy (m + 1) ((hnb.trans hbm).trans m.le_succ)
  rw [h.next m, next_q, nextQ, hdrained, Bool.or_true, if_pos rfl] at this
  cases this

end

end QueueRun

end Rv32Soc
