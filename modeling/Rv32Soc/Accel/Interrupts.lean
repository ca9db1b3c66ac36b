import Rv32Soc.Accel.QueueRun

/-!
# The interrupts of the accelerator

`irq_batch` and `irq_dma` are the levels of `qDone` and `dmaDone`, and the interrupt controller
sees their rising edges.

* `interrupts_of_isRun`: there is one edge of `irq_batch` for each start of the queue, when all is
  stored, and one edge of `irq_dma` for each tile;
* `longTile_interrupts`: for a dimension beyond those that the accelerator is built for a load may
  wait for lines that it has not asked for.
-/

namespace Rv32Soc

open MmAccel

/-- There is one rising edge of `irq_batch` for each start of the queue. It comes when every tile
    that has been adopted is stored, no descriptor is left, and nothing is in flight. `irq_dma`
    rises with the last acknowledgement of each tile, once. If the memory serves what it is asked
    for all of these edges come, those of a batch that descriptors are added to for ever apart. -/
theorem interrupts_of_isRun {p : MmParams} {σ : ℕ → MmAccel} {ι : ℕ → MmInputs}
    {χ : ℕ → Option Transfer}
    {ζ : ℕ → Option WriteTransfer} {μ : ℕ → Mem} (h : QueueRun p σ ι χ ζ μ) (hd : p.GoodDim)
    (hm : p.maxK ≤ 128) :
    (∀ n, kicks σ ι n = risingEdges (fun k => (σ k).irqBatch) n + (σ n).q.qBusy.toNat) ∧
      (∀ n, (σ n).irqBatch = false → (σ (n + 1)).irqBatch = true →
        tiles p σ n = risingEdges (fun k => (σ k).irqDma) n ∧ (σ n).q.descQ = [] ∧
        (σ n).st.dmaBusy = false ∧
          (σ n).ld.ldBusy = false ∧ χ n = none ∧ ζ n = none) ∧
      (∀ n, risingEdges (fun k => (σ k).irqDma) n ≤ tiles p σ n ∧
        ((σ n).irqDma = false ∧ (σ (n + 1)).irqDma = true ↔ (σ n).dmaEnds p (ι n) = true)) ∧
      (ReadFair σ ι χ → WriteFair σ ι ζ →
        (∀ n, ∃ m ≥ n, tiles p σ n ≤ risingEdges (fun k => (σ k).irqDma) m) ∧
          ((∃ N, ∀ m ≥ N, (σ m).descPush (ι m) = false) →
            ∀ n, ∃ m ≥ n, (σ m).q.qBusy = false)) := by
  refine ⟨h.kicks_eq, fun n h₁ h₂ => ?_, fun n => ⟨?_, h.irqDma_iff n⟩, fun hr hw =>
    ⟨h.exists_stored hd hm hr hw, h.exists_rest hd hm hr hw⟩⟩
  · have hdrained := (h.irqBatch_iff n).1 ⟨h₁, h₂⟩
    simp only [drained, Bool.and_eq_true, beq_iff_eq, Bool.not_eq_true', List.isEmpty_iff] at hdrained
    obtain ⟨⟨⟨⟨hq, -⟩, hnil⟩, hdma⟩, hld⟩ := hdrained
    have hpre : (σ n).q.preBusy = false := (h.sequencerInv n).queue.fresh (by rw [hq]; rfl)
    have hpending : (σ n).pending = 0 := by simp [pending, hq, QState.isCurrent, hpre, hdma]
    have hch := h.channelInv hd hm n
    exact ⟨by rw [h.tiles_eq n, hpending, Nat.add_zero], hnil, hdma, hld, hch.loadRest hld,
      (hch.storeRest hdma).1⟩
  · rw [h.tiles_eq n]
    exact Nat.le_add_right _ _

/-! ### Concrete runs -/

theorem queueTraffic_quiet (s : MmAccel) {i : MmInputs} (hi : i.awvalid = false) : s.QueueTraffic i := by
  have hw : ∀ w, s.writes i w = false := fun w => by simp [writes, doWrite, hi]
  refine ⟨fun h => ?_, fun _ w h => ?_⟩ <;> simp [hw] at h

theorem writeServes_rest (s : MmAccel) {i : MmInputs} (hn : i.memWnext = false)
    (hr : i.memWrReady = false) (look : Bool) (m : Mem) : s.WriteServes i look none m m :=
  ⟨fun h => by simp [hn] at h, fun h => by simp [hr] at h, fun _ => rfl, nofun⟩

/-- A descriptor is pushed, the queue is started, the two lines of its B panel come in, and its one
    line goes out. -/
def zeroTile (n : ℕ) : MmInputs :=
  match n with
  | 0 => .write 20 0x10001
  | 2 => .write 0 0x20
  | 6 | 7 => { MmInputs.quiet with memRdReady := true }
  | 19 => { MmInputs.quiet with memWrReady := true }
  | _ => .quiet

/-- Its channels. -/
def zeroTileReads (n : ℕ) : Option Transfer :=
  match n with
  | 6 => some ⟨0, 2, 0⟩
  | 7 => some ⟨0, 2, 1⟩
  | _ => none

def zeroTileWrites (n : ℕ) : Option WriteTransfer := if n = 19 then some ⟨0, 1, 0, []⟩ else none

theorem queueRun_zeroTile :
    QueueRun mmDefault (mmTrace zeroTile) zeroTile zeroTileReads zeroTileWrites fun _ _ => 0 where
  run := isRun_mmTrace zeroTile
  traffic n := by
    by_cases h0 : n = 0
    · subst h0
      exact ⟨by decide, by decide +kernel⟩
    by_cases h2 : n = 2
    · subst h2
      exact ⟨by decide +kernel, by decide +kernel⟩
    · refine queueTraffic_quiet _ ?_
      unfold zeroTile
      split <;> simp_all [MmInputs.quiet]
  reads := by
    constructor
    · intro n
      rcases n with _ | _ | _ | _ | _ | _ | _ | _ | n
      · exact ⟨false, rfl⟩
      · exact ⟨false, rfl⟩
      · exact ⟨false, rfl⟩
      · exact ⟨false, rfl⟩
      · exact ⟨false, rfl⟩
      · exact ⟨true, by decide +kernel⟩
      · exact ⟨false, rfl⟩
      · exact ⟨false, rfl⟩
      · exact ⟨false, rfl⟩
    · intro n hr
      have hn : n = 6 ∨ n = 7 := by
        unfold zeroTile at hr
        split at hr <;> simp_all [MmInputs.quiet, MmInputs.write]
      rcases hn with rfl | rfl <;> nofun
  writes n := by
    by_cases h18 : n = 18
    · subst h18
      exact ⟨true, false, by decide +kernel, writeServes_rest _ rfl rfl _ _⟩
    by_cases h19 : n = 19
    · subst h19
      refine ⟨false, true, rfl, nofun, fun _ => ⟨_, rfl, rfl, by decide +kernel, fun k hk => ?_⟩,
        nofun, fun _ _ _ _ => rfl⟩
      obtain rfl : k = 0 := Nat.lt_one_iff.1 hk
      decide +kernel
    · have hz : zeroTileWrites n = none := if_neg h19
      have hz' : zeroTileWrites (n + 1) = none := if_neg (by omega)
      have hr : (zeroTile n).memWnext = false ∧ (zeroTile n).memWrReady = false := by
        unfold zeroTile
        split <;> simp_all [MmInputs.quiet, MmInputs.write]
      rw [hz, hz']
      exact ⟨false, false, rfl, writeServes_rest _ hr.1 hr.2 _ _⟩
  free := ⟨rfl, rfl⟩

theorem zeroTile_rest {n : ℕ} (hn : 21 ≤ n) : (mmTrace zeroTile n).q.qBusy = false := by
  induction n, hn using Nat.le_induction with
  | base => decide +kernel
  | succ n hn ih =>
    have hq : (zeroTile n).awvalid = false := by
      unfold zeroTile
      split <;> first | omega | rfl
    have hk : (mmTrace zeroTile n).qStartPulse (zeroTile n) = false := by
      simp [qStartPulse, writes, doWrite, hq]
    rw [mmAccel_next (isRun_mmTrace zeroTile) n, next_q, nextQ, hk, ih]
    simp

theorem fair_zeroTile : ReadFair (mmTrace zeroTile) zeroTile zeroTileReads ∧
    WriteFair (mmTrace zeroTile) zeroTile zeroTileWrites := by
  have hrest : ∀ n ≥ 21, (mmTrace zeroTile n).memRdReqValid = false ∧
      (mmTrace zeroTile n).memWrReqValid = false :=
    fun n hn => by
      obtain ⟨hl, hs⟩ := (queueRun_zeroTile.sequencerInv n).rest (zeroTile_rest hn)
      simp [memRdReqValid, memWrReqValid, hl, hs]
  have hasks : ∀ n < 21, (mmTrace zeroTile n).memRdReqValid = (n == 5 || n == 6) ∧
      (mmTrace zeroTile n).memWrReqValid = (n == 18 || n == 19) := by decide +kernel
  refine ⟨⟨fun n hx hv => ?_, fun n hx => ⟨n, le_rfl, ?_⟩⟩, ⟨fun n hx hv => ?_, fun n hx =>
    ⟨n, le_rfl, ?_⟩⟩⟩
  · have hn : n < 21 := Nat.lt_of_not_le fun hn => by simp [(hrest n hn).1] at hv
    rw [(hasks n hn).1, Bool.or_eq_true, beq_iff_eq, beq_iff_eq] at hv
    rcases hv with rfl | rfl
    · exact ⟨5, le_rfl, fun h => by cases h⟩
    · cases hx
  · unfold zeroTileReads at hx
    split at hx
    · rfl
    · rfl
    · exact absurd rfl hx
  · have hn : n < 21 := Nat.lt_of_not_le fun hn => by simp [(hrest n hn).2] at hv
    rw [(hasks n hn).2, Bool.or_eq_true, beq_iff_eq, beq_iff_eq] at hv
    rcases hv with rfl | rfl
    · exact ⟨18, le_rfl, fun h => by cases h⟩
    · cases hx
  · have hn : n = 19 := by
      by_contra hn
      exact hx (if_neg hn)
    rw [hn]
    rfl

/-- One edge of each line. -/
theorem zeroTile_interrupts :
    risingEdges (fun k => (mmTrace zeroTile k).irqBatch) 24 = 1 ∧
    risingEdges (fun k => (mmTrace zeroTile k).irqDma) 24 = 1 ∧
      (∃ m ≥ 24, tiles mmDefault (mmTrace zeroTile) 24 ≤ risingEdges (fun k =>
        (mmTrace zeroTile k).irqDma) m) ∧
      ∃ m ≥ 3, (mmTrace zeroTile m).q.qBusy = false := by
  obtain ⟨hk, -, -, hlive⟩ := interrupts_of_isRun queueRun_zeroTile (.inl rfl) (by decide)
  obtain ⟨hstored, hends⟩ := hlive fair_zeroTile.1 fair_zeroTile.2
  refine ⟨?_, by decide +kernel, hstored 24, hends ⟨3, fun m hm => ?_⟩ 3⟩
  · have hone : kicks (mmTrace zeroTile) zeroTile 24 = 1 := by decide +kernel
    have := hk 24
    rw [hone, zeroTile_rest (by decide)] at this
    exact this.symm
  · have hq : (zeroTile m).awvalid = false := by
      unfold zeroTile
      split <;> first | omega | rfl
    simp [descPush, writes, doWrite, hq]

/-- The accelerator of dimension `32`, with lanes of `128` bytes. -/
def mmDim32 : MmParams :=
  { mmDefault with
    dim := 32
    maxK := 128
    dim_pos := by decide
    maxK_pow := ⟨7, rfl⟩
    maxK_ge := by decide }

/-- A tile of full length: its panel of A has `256` lines, which are `0` in the eight bits of the
    request. One line comes in, as for every request of `0` lines. -/
def longTile (n : ℕ) : MmInputs :=
  match n with
  | 0 => .write 20 0x80
  | 2 => .write 0 0x20
  | 6 => { MmInputs.quiet with memRdReady := true }
  | _ => .quiet

def longTileReads (n : ℕ) : Option Transfer := if n = 6 then some ⟨0, 1, 0⟩ else none

def longTileTrace : ℕ → MmAccel := (mmAccel mmDim32).trace resetMm longTile

/-- The load waits for the other lines, and does not ask for them. -/
structure Hangs (s : MmAccel) : Prop where
  state : s.q.qState = .qLoadW
  load : s.ld.ldBusy = true ∧ s.ld.ldDone = false ∧ s.ld.ldReq = false
  queue : s.q.qBusy = true ∧ s.q.qDone = false ∧ s.q.prePend = false
  store : s.st.dmaBusy = false

theorem Hangs.next {s : MmAccel} (h : Hangs s) (p : MmParams) : Hangs (s.next p .quiet) := by
  have hw : ∀ w, s.writes .quiet w = false := fun w => by simp [writes, doWrite, MmInputs.quiet]
  have hr : s.softRstPulse .quiet = false := by simp [softRstPulse, hw]
  have hld : s.nextLd p .quiet = s.ld := by
    have hs : s.ldStartAny .quiet = false := by
      simp [ldStartAny, ldStart, ldStartB, hw, h.state, h.queue]
    rw [nextLd, hr, if_neg Bool.false_ne_true, nextLd', hs, h.load.1]
    rfl
  have hf : s.prefetches p = false := by simp [prefetches, h.state]
  have hd : s.drained = false := by simp [drained, h.state]
  have hk : s.qStartPulse .quiet = false := by simp [qStartPulse, hw]
  refine ⟨?_, ?_, ⟨?_, ?_, ?_⟩, ?_⟩
  · rw [next_q, nextQ, nextQState, hr, if_neg Bool.false_ne_true, h.state, h.load.2.1]
    rfl
  · rw [next_ld, hld]
    exact h.load
  · rw [next_q, nextQ, hr, hd, hk, h.queue.1]
    rfl
  · rw [next_q, nextQ, hr, hd, hk, h.queue.2.1]
    rfl
  · rw [next_q, nextQ, hr, hf]
    simp
  · have hs : s.dmaStartAny .quiet = false := by simp [dmaStartAny, dmaStart, hw, h.state]
    rw [next_st, nextSt_dmaBusy hr, hs, h.store]
    rfl

theorem hangs_longTile {n : ℕ} (hn : 7 ≤ n) : Hangs (longTileTrace n) := by
  induction n, hn using Nat.le_induction with
  | base => exact ⟨by decide +kernel, by decide +kernel, by decide +kernel, by decide +kernel⟩
  | succ n hn ih =>
    have hq : longTile n = .quiet := by
      unfold longTile
      split <;> first | omega | rfl
    have hnext : longTileTrace (n + 1) = (longTileTrace n).next mmDim32 (longTile n) := rfl
    rw [hnext, hq]
    exact ih.next mmDim32

theorem queueRun_longTile : QueueRun mmDim32 longTileTrace longTile longTileReads (fun _ => none)
    fun _ _ => 0 where
  run := Circuit.isRun_trace isReset_resetMm fun _ => trivial
  traffic n := by
    by_cases h0 : n = 0
    · subst h0
      exact ⟨by decide, by decide +kernel⟩
    by_cases h2 : n = 2
    · subst h2
      exact ⟨by decide +kernel, by decide +kernel⟩
    · refine queueTraffic_quiet _ ?_
      unfold longTile
      split <;> simp_all [MmInputs.quiet]
  reads := by
    constructor
    · intro n
      by_cases h5 : n = 5
      · subst h5
        exact ⟨true, by decide +kernel⟩
      by_cases h6 : n = 6
      · subst h6
        exact ⟨false, rfl⟩
      · have hx : longTileReads n = none := if_neg h6
        have hx' : longTileReads (n + 1) = none := if_neg (by omega)
        rw [hx, hx']
        exact ⟨false, rfl⟩
    · intro n hr
      have hn : n = 6 := by
        unfold longTile at hr
        split at hr <;> simp_all [MmInputs.quiet, MmInputs.write]
      subst hn
      nofun
  writes n := by
    have hr : (longTile n).memWnext = false ∧ (longTile n).memWrReady = false := by
      unfold longTile
      split <;> simp_all [MmInputs.quiet, MmInputs.write]
    exact ⟨false, false, rfl, writeServes_rest _ hr.1 hr.2 _ _⟩
  free := ⟨rfl, rfl⟩

/-- With this dimension the batch never ends, though the memory serves all that it is asked for. -/
theorem longTile_interrupts :
    QueueRun mmDim32 longTileTrace longTile longTileReads (fun _ => none) (fun _ _ => 0) ∧
      ReadFair longTileTrace longTile longTileReads ∧ WriteFair longTileTrace longTile (fun _ => none) ∧
      (∀ n ≥ 1, (longTileTrace n).descPush (longTile n) = false) ∧
      (∀ n ≥ 3, kicks longTileTrace longTile n = 1) ∧
      ∀ n, risingEdges (fun k => (longTileTrace k).irqBatch) n = 0 ∧
        risingEdges (fun k => (longTileTrace k).irqDma) n = 0 := by
  have hrun := queueRun_longTile
  -- the panel has 256 lines, of which the request has the lowest eight bits, none
  have hearly : ∀ n < 7, ((longTileTrace n).memRdReqValid = true → n = 5 ∨ n = 6) ∧
      (longTileTrace n).st.dmaBusy = false ∧ (longTileTrace n).irqBatch = false ∧
      (3 ≤ n → (longTileTrace n).q.qBusy = true) := by
    decide +kernel
  have hlate : ∀ n ≥ 7, Hangs (longTileTrace n) := fun n hn => hangs_longTile hn
  have hdma : ∀ n, (longTileTrace n).st.dmaBusy = false := fun n => by
    by_cases hn : n < 7
    · exact (hearly n hn).2.1
    · exact (hlate n (Nat.not_lt.1 hn)).store
  have hdone : ∀ n, (longTileTrace n).irqBatch = false := fun n => by
    by_cases hn : n < 7
    · exact (hearly n hn).2.2.1
    · exact (hlate n (Nat.not_lt.1 hn)).queue.2.1
  have hbatch : ∀ n, risingEdges (fun k => (longTileTrace k).irqBatch) n = 0 := fun n =>
    Nat.count_of_forall_not fun k _ hk => by simp [hdone (k + 1)] at hk
  have hbusy : ∀ n ≥ 3, (longTileTrace n).q.qBusy = true := fun n hn => by
    by_cases hn' : n < 7
    · exact (hearly n hn').2.2.2 hn
    · exact (hlate n (Nat.not_lt.1 hn')).queue.1
  refine ⟨hrun, ⟨fun n hx hv => ?_, fun n hx => ⟨n, le_rfl, ?_⟩⟩,
    ⟨fun n _ hv => ?_, fun n hx => absurd rfl hx⟩,
    fun n hn => ?_, fun n hn => ?_, fun n => ⟨hbatch n, Nat.count_of_forall_not fun k _ hk => ?_⟩⟩
  · by_cases hn : n < 7
    · rcases (hearly n hn).1 hv with rfl | rfl
      · exact ⟨5, le_rfl, nofun⟩
      · exact absurd hx nofun
    · simp [memRdReqValid, (hlate n (Nat.not_lt.1 hn)).load.2.2] at hv
  · have hn : n = 6 := by
      by_contra hn
      exact hx (if_neg hn)
    rw [hn]
    rfl
  · simp [memWrReqValid, hdma n] at hv
  · have hw : waddrWord (longTile n) ≠ 20 ∨ (longTile n).awvalid = false := by
      unfold longTile
      split
      · omega
      · exact .inl (by decide)
      · exact .inr rfl
      · exact .inr rfl
    rcases hw with hw | hw
    · rw [descPush, writes, beq_false_of_ne hw, Bool.and_false]
    · simp [descPush, writes, doWrite, hw]
  · rw [hrun.kicks_eq n, hbatch n, hbusy n hn]
    rfl
  · have he := (hrun.irqDma_iff k).1 hk
    simp [dmaEnds, hdma k] at he

end Rv32Soc
