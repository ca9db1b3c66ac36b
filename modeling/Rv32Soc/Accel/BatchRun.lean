import Rv32Soc.Accel.Phases

/-!
# A batch, run by the queue

The queue is started with a list of descriptors, while the engines rest, and software waits for
`qDone`. The loads, the runs of the array and the stores overlap, and memory is left as
if the tiles had been loaded, computed and stored one after another.

* `BatchRun`: such a run, with channels of any timing;
* `BatchUntil`: what is asked of the cycles of a batch so far. It is in one of its phases as long
  as it is not over (`BatchUntil.running_of_run`);
* `BatchUntil.exists_ended`: the batch ends. Every phase is left (`BatchRun.Endless.exists_leaves`), and
  there are `9` of them for a tile at most (`BatchRun.place`);
* `batch_of_run`: what it leaves behind.
-/

namespace Rv32Soc

open MmAccel

/-! ## The channels and the start -/

/-- The read channel `χ` serves the accelerator from the memory `μ`: a byte of a line is one that
    has been there on some cycle so far. -/
structure ReadMemory (p : MmParams) (σ : ℕ → MmAccel) (ι : ℕ → MmInputs)
    (χ : ℕ → Option Transfer) (μ : ℕ → Mem) :
    Prop where
  next : ∀ n, ∃ grant, χ (n + 1) = (σ n).rdNext p grant (ι n).memRdReady (χ n)
  line : ∀ n, (ι n).memRdReady → ∃ t, χ n = some t ∧ ∀ o, ∃ k ≤ n,
    lineByte (ι n).memRline o = μ k (lineNo t.next ++ o)

/-- The engines rest, and nothing is on its way to memory. -/
structure MmAccel.Idle (s : MmAccel) : Prop where
  queue : s.q.qBusy = false
  load : s.ld.ldBusy = false
  store : s.st.dmaBusy = false
  fifo : s.st.lineFifo = []
  valid : s.st.fillValid = false

/-- The engines rest, by their flags in `STATUS`. -/
structure MmAccel.EnginesRest (s : MmAccel) : Prop where
  queue : s.q.qBusy = false
  load : s.ld.ldBusy = false
  store : s.st.dmaBusy = false

theorem MmAccel.Idle.enginesRest {s : MmAccel} (h : s.Idle) : s.EnginesRest := ⟨h.queue, h.load, h.store⟩

/-- Software starts the queue, and nothing else. -/
structure MmAccel.Kicks (s : MmAccel) (i : MmInputs) : Prop where
  ctrl : s.writes i 0 = true
  queue : i.wdata.getLsbD 5 = true
  others : ∀ b < 5, i.wdata.getLsbD b = false

/-- The queue is started on the cycle `0` with the descriptors `ds`, while the engines rest, and
    software leaves the accelerator alone until the batch is over. -/
structure BatchRun (p : MmParams) (ds : List Descriptor) (σ : ℕ → MmAccel) (ι : ℕ → MmInputs)
    (χ : ℕ → Option Transfer) (ζ : ℕ → Option WriteTransfer) (μ : ℕ → Mem) : Prop where
  reach : (mmAccel p).Reachable (σ 0)
  next : ∀ n, σ (n + 1) = (σ n).next p (ι n)
  queue : (σ 0).q.descQ = ds
  idle : (σ 0).Idle
  free : χ 0 = none ∧ ζ 0 = none
  kick : (σ 0).Kicks (ι 0)
  calm : ∀ n > 0, (∀ k, 0 < k → k ≤ n → (σ k).q.qDone = false) → (σ n).Calm (ι n)
  reads : ReadMemory p σ ι χ μ
  writes : WriteService p σ ι ζ μ

/-- A batch on the cycles before `e`, with lines that come in for its operands. The FIFO may hold
    lines of an earlier store when the batch is started, but none is left when its own first store
    begins. -/
structure BatchUntil (e : ℕ) (p : MmParams) (ds : List Descriptor) (σ : ℕ → MmAccel)
    (ι : ℕ → MmInputs)
    (χ : ℕ → Option Transfer) (ζ : ℕ → Option WriteTransfer) (μ : ℕ → Mem) : Prop where
  reach : (mmAccel p).Reachable (σ 0)
  next : ∀ n < e, σ (n + 1) = (σ n).next p (ι n)
  queue : (σ 0).q.descQ = ds
  rest : (σ 0).EnginesRest
  free : χ 0 = none ∧ ζ 0 = none
  kick : (σ 0).Kicks (ι 0)
  calm : ∀ n > 0, n < e → (σ n).Calm (ι n)
  fresh : ∀ n < e, (∀ j < n, (σ j).dmaStartAny (ι j) = false) → (σ n).dmaStartAny (ι n) = true →
    (σ (n + 1)).st.lineFifo = []
  grants : ∀ n < e, ∃ grant, χ (n + 1) = (σ n).rdNext p grant (ι n).memRdReady (χ n)
  line : ∀ n < e, (ι n).memRdReady → ∃ t, χ n = some t ∧ ∀ o, ∀ d ∈ ds,
    d.Operand p (σ 0).regs.srcStride (lineNo t.next ++ o) →
    ∃ k ≤ n, lineByte (ι n).memRline o = μ k (lineNo t.next ++ o)
  writes : ∀ n < e, ∃ grant look, ζ (n + 1) = (σ n).wrNext p (ι n) grant look (ζ n) ∧
    (σ n).WriteServes (ι n) look (ζ n) (μ n) (μ (n + 1))

/-- The configurations of what is started on the cycles before `n`, in order. -/
def started {α : Type*} (start : ℕ → Bool) (conf : ℕ → α) (n : ℕ) :
    List α := ((List.range n).filter start).map conf

theorem started_succ {α : Type*} (start : ℕ → Bool) (conf : ℕ → α) (n : ℕ) :
    started start conf (n + 1) = started start conf n ++ if start n then [conf n] else [] := by
  rw [started, List.range_succ, List.filter_append, List.map_append, started]
  cases h : start n <;> simp [h]

/-- Before the first start there is none. -/
theorem started_eq_nil {α : Type*} {start : ℕ → Bool} {conf : ℕ → α} {n : ℕ}
    (h : started start conf n = []) :
    ∀ j < n, start j = false := by
  intro j hj
  have hnil : (List.range n).filter start = [] := List.map_eq_nil_iff.1 h
  exact Bool.eq_false_iff.2 (List.filter_eq_nil_iff.1 hnil j (List.mem_range.2 hj))

/-- Starts that follow a list one by one. -/
theorem started_succ_eq {α β : Type*} {start : ℕ → Bool} {conf : ℕ → α} {n l : ℕ}
    {ds : List β} {f : β → α} (h : started start conf n = (ds.take l).map f)
    (hn : start n = true → ∃ d, ds[l]? = some d ∧ conf n = f d) :
    started start conf (n + 1) = (ds.take (l + (start n).toNat)).map f := by
  rw [started_succ, h]
  cases hs : start n
  · simp
  · obtain ⟨d, hd, hf⟩ := hn hs
    simp [List.take_add_one, hd, hf]

namespace MmAccel

/-! ## Before a batch -/

variable {p : MmParams} {s : MmAccel} {i : MmInputs}

theorem prefetchInv_of_reachable (h : (mmAccel p).Reachable s) : s.PrefetchInv := by
  refine h.invariant (fun s hr => ?_) fun _ _ hi _ => hi.next
  have hr : s.IsReset := hr
  exact hr.prefetchInv

/-- A prefetch is about to be started in `qComp` only. -/
theorem qComp_of_prePend (h : (mmAccel p).Reachable s) : s.q.prePend = true → s.q.qState = .qComp := by
  refine h.invariant_of (Q := PrefetchInv) (P := fun s => s.q.prePend = true → s.q.qState = .qComp)
    (fun _ => prefetchInv_of_reachable) (fun s hr => ?_) fun s i hinv _ _ => ?_
  · have hr : s.IsReset := hr
    simp [hr.q]
  · change (s.nextQ p i).prePend = true → (s.nextQ p i).qState = .qComp
    rw [nextQ, nextQState]
    cases hr : s.softRstPulse i
    · intro hp
      have hp : s.prefetches p = true := by
        cases hpend : s.q.prePend <;> simp_all
      simp [(hinv.prefetches_iff.1 hp).1]
    · simp

theorem ldChunk_of_reachable (h : (mmAccel p).Reachable s) : s.ld.ldChunk < 2 ^ p.lplBits := by
  refine h.invariant (P := fun s => s.ld.ldChunk < 2 ^ p.lplBits) (fun s hr => ?_) fun _ _ hc
    _ => ldChunk_next hc
  have hr : s.IsReset := hr
  rw [hr.ld]
  exact Nat.two_pow_pos _

variable (p) in
theorem lineFifo_next : (s.next p i).st.lineFifo = s.nextFifo p i := by
  rw [next_st, nextSt, nextSt']
  split_ifs <;> rfl

/-- The store engine rests until a store is started. -/
theorem storeRests_next (hs : s.dmaStartAny i = false) (hb : s.st.dmaBusy = false) :
    (s.next p i).st.dmaBusy = false ∧ (s.next p i).st.fillValid = false := by
  have hf : s.fillFire p = false := by rw [fillFire, hb]; rfl
  rw [next_st, nextSt, nextSt', hs, hb, hf]
  cases s.softRstPulse i
  · exact ⟨hb, rfl⟩
  · exact ⟨rfl, rfl⟩

namespace Kicks

theorem writes_eq (h : s.Kicks i) {n : BitVec 6} (hn : n ≠ 0) : s.writes i n = false := by
  have hc := h.ctrl
  simp only [writes, Bool.and_eq_true, beq_iff_eq] at hc
  rw [writes, hc.2, beq_false_of_ne hn.symm, Bool.and_false]

theorem writesCfg_eq (h : s.Kicks i) {n : BitVec 6} (hn : n ≠ 0) : s.writesCfg i n = false := by
  rw [writesCfg, h.writes_eq hn]
  rfl

theorem startsNone (h : s.Kicks i) : s.StartsNone i :=
  ⟨fun b hb => by rw [h.others b hb, Bool.and_false]⟩

theorem reset (h : s.Kicks i) : s.softRstPulse i = false := h.startsNone.reset
theorem pushA (h : s.Kicks i) : s.pushA i = false := h.writesCfg_eq (by decide)
theorem pushB (h : s.Kicks i) : s.pushB i = false := h.writesCfg_eq (by decide)
theorem push (h : s.Kicks i) : s.descPush i = false := h.writes_eq (by decide)

theorem kick (h : s.Kicks i) (hb : s.q.qBusy = false) : s.qStartPulse i = true := by
  rw [qStartPulse, h.ctrl, h.queue, hb]
  rfl

theorem starts (h : s.Kicks i) (hq : s.q.qState = .qIdle) (hp : s.q.prePend = false) :
    s.ldStartAny i = false ∧ s.startAny i = false ∧ s.dmaStartAny i = false := by
  rw [h.startsNone.ldStartAny, h.startsNone.startAny, h.startsNone.dmaStartAny, hq, hp]
  exact ⟨rfl, rfl, rfl⟩

/-- The registers of software are left alone. -/
theorem conf_next (h : s.Kicks i) :
    (s.next p i).regs.srcStride = s.regs.srcStride ∧ (s.next p i).storeConfig p = s.storeConfig p :=
  ⟨by simp [nextRegs, h.writesCfg_eq],
    storeConfig_next_of (by simp [nextRegs, h.writesCfg_eq]) (h.writesCfg_eq (by decide))⟩

end Kicks

end MmAccel

/-! ## Along a batch -/

namespace BatchRun

variable {p : MmParams} {ds : List Descriptor} {σ : ℕ → MmAccel} {ι : ℕ → MmInputs}
  {χ : ℕ → Option Transfer} {ζ : ℕ → Option WriteTransfer} {μ : ℕ → Mem} {n : ℕ}

/-- The batch, over what it starts from. -/
def job (p : MmParams) (ds : List Descriptor) (σ : ℕ → MmAccel) (μ : ℕ → Mem) : Job :=
  ⟨p, (σ 0).regs.srcStride, (σ 0).storeConfig p, ds, ⟨(σ 0).buf.aMem, (σ 0).buf.bMem, μ 0⟩⟩

/-- What has been started before `n`: the first `l` loads, `k` runs of the array and `w` stores. -/
structure Started (J : Job) (σ : ℕ → MmAccel) (ι : ℕ → MmInputs) (n l k w : ℕ) : Prop where
  loads : started (fun j => (σ j).ldStartAny (ι j)) (fun j => ((σ j).loadConfig, (σ j).q.qBOnly)) n =
    (J.ds.take l).map fun d => (d.loadConfig J.p J.stride, d.bOnly)
  runs : started (fun j => (σ j).startAny (ι j)) (fun j => ((σ j).regs.kLen, (σ j).regs.bPanelUse)) n =
    (J.ds.take k).map fun d => (d.kLen, d.panelUse J.p)
  stores : started (fun j => (σ j).dmaStartAny (ι j)) (fun j => (σ j).regs.destAddr) n =
    (J.ds.take w).map Descriptor.dest

/-- The batch on the cycle `n`. -/
structure Running (J : Job) (σ : ℕ → MmAccel) (ι : ℕ → MmInputs) (χ : ℕ → Option Transfer)
    (ζ : ℕ → Option WriteTransfer) (μ : ℕ → Mem) (n l k w : ℕ) : Prop where
  phase : J.Phase (σ n) (χ n) (ζ n) (μ n) l k w
  env : J.Env (σ n)
  started : Started J σ ι n l k w

end BatchRun

namespace BatchUntil

open BatchRun

variable {e : ℕ} {p : MmParams} {ds : List Descriptor} {σ : ℕ → MmAccel} {ι : ℕ → MmInputs}
  {χ : ℕ → Option Transfer} {ζ : ℕ → Option WriteTransfer} {μ : ℕ → Mem} {n : ℕ}

section

variable (h : BatchUntil e p ds σ ι χ ζ μ)

include h

/-- The first edge. -/
theorem running_one (hJ : (job p ds σ μ).Good) (he : 0 < e) :
    Running (job p ds σ μ) σ ι χ ζ μ 1 0 0 0 := by
  -- the queue is still in `qIdle` after the kick, but runs
  have hinv := prefetchInv_of_reachable h.reach
  have hq := hinv.rest h.rest.queue
  have hrun : (σ 0).q.qRun = false := hinv.run.trans h.rest.queue
  have hbusy : (σ 0).q.preBusy = false := hinv.fresh (by rw [hq]; rfl)
  have hpend : (σ 0).q.prePend = false := Bool.eq_false_iff.2 fun hp => by
    simp [qComp_of_prePend h.reach hp] at hq
  obtain ⟨hs₁, hs₂, hs₃⟩ := h.kick.starts hq hpend
  have hadopts : (σ 0).adoptsIdle = false := by simp [adoptsIdle, hrun]
  have hpre : (σ 0).prefetches p = false := by simp [prefetches, hq]
  have hadopted : (σ 0).adopted p = none := by simp [adopted, hadopts, hpre]
  have hdrained : (σ 0).drained = false := by simp [drained, hrun]
  have hr := h.kick.reset
  have hrests : (job p ds σ μ).LoadRests 0 (σ 0) (χ 0) := ⟨h.rest.load, h.free.1, rfl, rfl⟩
  have hstore : (job p ds σ μ).StoreRests 0 (σ 0) (ζ 0) (μ 0) :=
    ⟨h.rest.store, fun hw => absurd rfl hw, fun hw => absurd rfl hw, h.free.2, rfl⟩
  obtain ⟨grant, hx⟩ := h.grants 0 he
  obtain ⟨grant', look, hz, hw⟩ := h.writes 0 he
  obtain ⟨hstride, hconf⟩ := h.kick.conf_next (p := p)
  have hstate : (σ 1).q.qState = .qIdle := by
    rw [h.next 0 he, next_q, nextQ, nextQState, hr, hq, hadopts]
    rfl
  have halone : (job p ds σ μ).Alone 0 (σ 1) (χ 1) := by
    rw [h.next 0 he, hx]
    constructor
    case queue =>
      rw [descQ_next hr h.kick.push, hadopted]
      exact h.queue
    case preBusy =>
      rw [next_q, nextQ, hr, hpre, hq]
      exact hbusy
    case prePend =>
      rw [next_q, nextQ, hr, hpre, hpend]
      rfl
    case load => exact (hrests.hold hr h.kick.pushA h.kick.pushB hs₁ grant _).1
  have htail : (job p ds σ μ).StoreRests 0 (σ 1) (ζ 1) (μ 1) := by
    rw [h.next 0 he, hz]
    exact hstore.hold hr hs₃ hw grant'
  have henv : (job p ds σ μ).Env (σ 1) := by
    rw [h.next 0 he]
    constructor
    case stride => exact hstride
    case conf => exact hconf
    case chunk => exact ldChunk_of_reachable (p := p) (.step h.reach trivial)
    case run =>
      rw [next_q, nextQ, hr, hdrained, h.kick.kick h.rest.queue]
      rfl
    case done =>
      rw [next_q, nextQ, hr, hdrained, h.kick.kick h.rest.queue]
      rfl
  exact ⟨.idle hstate halone hJ.panels (.rests htail), henv,
    ⟨by simp [started, hs₁], by simp [started, hs₂], by simp [started, hs₃]⟩⟩

/-- `qDone` rises when the queue is drained. -/
theorem qDone_next (h₀ : 0 < n) (hn : n < e) (hno : (σ n).q.qDone = false) :
    (σ (n + 1)).q.qDone = (σ n).drained := by
  rw [h.next n hn, (h.calm n h₀ hn).run_next.2, hno, Bool.or_false]

/-- Lines that come in for an operand are those of the memory before the batch. -/
theorem reads_of_operands (hn : n < e)
    (hop : ∀ j ≤ n, ∀ d ∈ ds, ∀ y, d.Operand p (σ 0).regs.srcStride y → μ j y = μ 0 y) :
    (job p ds σ μ).Reads (ι n) (χ n) := by
  intro hready
  obtain ⟨t, ht, hline⟩ := h.line n hn hready
  refine ⟨t, ht, fun d hd hy => line_ext fun o => ?_⟩
  have hy : d.Operand p (σ 0).regs.srcStride (lineNo t.next ++ o) :=
    hy _ BitVec.extractLsb'_append_eq_left
  obtain ⟨k, hk, hbyte⟩ := hline o d hd hy
  rw [hbyte, Mem.lineByte_line_append]
  exact hop k hk d hd _ hy

/-- The batch is in one of its phases until it is over, and its operands are what they were. -/
theorem running_of_run (hJ : (job p ds σ μ).Good) (h₀ : 0 < n) (hne : n ≤ e)
    (hno : ∀ k, 0 < k → k ≤ n → (σ k).q.qDone = false) :
    (∃ l k w, Running (job p ds σ μ) σ ι χ ζ μ n l k w) ∧
      ∀ j ≤ n, ∀ d ∈ ds, ∀ y, d.Operand p (σ 0).regs.srcStride y → μ j y = μ 0 y := by
  induction n, h₀ using Nat.le_induction with
  | base =>
    have h₁ := h.running_one hJ hne
    refine ⟨⟨_, _, _, h₁⟩, fun j hj d hd y hy => ?_⟩
    rcases Nat.le_one_iff_eq_zero_or_eq_one.1 hj with rfl | rfl
    · rfl
    · exact h₁.phase.operand hJ hd hy
  | succ n hn ih =>
    have hno' : ∀ k, 0 < k → k ≤ n → (σ k).q.qDone = false :=
      fun k h₁ h₂ => hno k h₁ (Nat.le_succ_of_le h₂)
    obtain ⟨⟨l, k, w, hrun⟩, hop⟩ := ih (Nat.le_of_succ_le hne) hno'
    have hc := h.calm n hn hne
    obtain ⟨grant, hx⟩ := h.grants n hne
    obtain ⟨grant', look, hz, hw⟩ := h.writes n hne
    have hd : (σ n).drained = false := by
      rw [← h.qDone_next hn hne (hno' n hn le_rfl)]
      exact hno (n + 1) n.succ_pos le_rfl
    have hfresh : (σ n).dmaStartAny (ι n) = true → ((σ n).next p (ι n)).st.lineFifo = [] := fun hs => by
      by_cases hw₀ : w = 0
      · -- no store has begun so far
        have hnil := hrun.started.stores
        rw [hw₀] at hnil
        rw [← h.next n hne]
        exact h.fresh n hne (started_eq_nil hnil) hs
      · exact hrun.phase.lineFifo_next hw₀ hc hs
    have hedge : (job p ds σ μ).Edge (σ n) (ι n) (χ n) (ζ n) (μ n) (μ (n + 1)) look :=
      ⟨hJ, hc, hrun.env, h.reads_of_operands hne hop, hw, hfresh, hd⟩
    have hphase := hrun.phase.next hedge grant grant'
    obtain ⟨hs₁, hs₂, hs₃⟩ := hrun.phase.starts hc
    have hnext : σ (n + 1) = (σ n).next (job p ds σ μ).p (ι n) := h.next n hne
    refine ⟨⟨l + ((σ n).ldStartAny (ι n)).toNat, k + ((σ n).startAny (ι n)).toNat,
      w + ((σ n).dmaStartAny (ι n)).toNat, ?_, ?_, ?_⟩, fun j hj d hd y hy => ?_⟩
    · rw [hnext, hx, hz]
      exact hphase
    · rw [hnext]
      exact hrun.env.next hc hd
    · refine ⟨started_succ_eq hrun.started.loads fun hs => ?_,
        started_succ_eq hrun.started.runs fun hs => ?_,
        started_succ_eq hrun.started.stores fun hs => ?_⟩
      · obtain ⟨d, hd, hf⟩ := hs₁ hs
        exact ⟨d, hd, by rw [hf.conf, hf.bOnly]⟩
      · obtain ⟨d, hd, hf⟩ := hs₂ hs
        exact ⟨d, hd, by rw [hf.kLen, hf.panel]⟩
      · obtain ⟨d, hd, hf⟩ := hs₃ hs
        exact ⟨d, hd, hf.dest⟩
    · rcases Nat.le_succ_iff.1 hj with hj | rfl
      · exact hop j hj d hd y hy
      · exact hphase.operand hJ hd hy

/-- When the queue is drained every tile is through. -/
theorem drained_of_running (hJ : (job p ds σ μ).Good) (h₀ : 0 < n) (hn : n < e)
    (hno : ∀ k, 0 < k → k ≤ n → (σ k).q.qDone = false) (hd : (σ n).drained = true) :
    (job p ds σ μ).Alone ds.length (σ n) (χ n) ∧
    (job p ds σ μ).StoreRests ds.length (σ n) (ζ n) (μ n) ∧
      Started (job p ds σ μ) σ ι (n + 1) ds.length ds.length ds.length := by
  obtain ⟨⟨l, k, w, hphase, -, hstarted⟩, -⟩ := h.running_of_run hJ h₀ hn.le hno
  have hc := h.calm n h₀ hn
  simp only [drained, Bool.and_eq_true, beq_iff_eq, Bool.not_eq_true', List.isEmpty_iff] at hd
  obtain ⟨⟨⟨⟨hq, -⟩, hnil⟩, hdma⟩, -⟩ := hd
  cases hphase with
  | idle _ alone _ tail =>
    -- `l` may be more than the number of tiles, but then there is none beyond it
    have hrests := tail.rests_of_busy hdma
    have hl : ds.length ≠ 0 → l ≠ 0 := fun hl₀ hl => by
      rw [alone.queue, hl, List.drop_zero] at hnil
      exact hl₀ (List.length_eq_zero_iff.2 hnil)
    have hle : ds.length ≤ l := List.drop_eq_nil_iff.1 (alone.queue.symm.trans hnil)
    have htake : ds.take l = ds.take ds.length := by rw [List.take_of_length_le hle, List.take_length]
    have hafter : (job p ds σ μ).after l = (job p ds σ μ).after ds.length :=
      congrArg ((job p ds σ μ).start.run p (σ 0).regs.srcStride ((σ 0).storeConfig p)) htake
    have hs₁ : (σ n).ldStartAny (ι n) = false := by rw [hc.ldStartAny, hq, alone.prePend]; rfl
    have hs₂ : (σ n).startAny (ι n) = false := by rw [hc.startAny, hq]; rfl
    have hs₃ : (σ n).dmaStartAny (ι n) = false := by rw [hc.dmaStartAny, hq]; rfl
    obtain ⟨h₁, h₂, h₃⟩ := hstarted
    have hds : (job p ds σ μ).ds.take l = (job p ds σ μ).ds.take ds.length := htake
    refine ⟨⟨?_, alone.preBusy, alone.prePend, alone.load.busy, alone.load.free, ?_, ?_⟩,
      ⟨hrests.busy, fun h₀ => hrests.fifo (hl h₀), fun h₀ => hrests.valid (hl h₀), hrests.free,
        ?_⟩, ⟨?_, ?_, ?_⟩⟩
    · rw [hnil]
      exact List.drop_length.symm
    · rw [alone.load.aMem, hafter]
    · rw [alone.load.bMem, hafter]
    · rw [hrests.mem, hafter]
    · rw [started_succ, hs₁, h₁, hds]
      simp
    · rw [started_succ, hs₂, h₂, hds]
      simp
    · rw [started_succ, hs₃, h₃, hds]
      simp
  | load hq' | loadW hq' | preIssue hq' | comp hq' | compW hq' | store hq' | storeW hq' | preW hq' =>
    rw [hq'] at hq
    cases hq

/-- On the next cycle they are in memory. -/
theorem stored_of_drained (hJ : (job p ds σ μ).Good) (h₀ : 0 < n) (hn : n < e)
    (hno : ∀ k, 0 < k → k ≤ n → (σ k).q.qDone = false) (hd : (σ n).drained = true) :
    (job p ds σ μ).StoreRests ds.length (σ (n + 1)) (ζ (n + 1)) (μ (n + 1)) ∧
      Started (job p ds σ μ) σ ι (n + 1) ds.length ds.length ds.length := by
  obtain ⟨-, hstore, hstarted⟩ := h.drained_of_running hJ h₀ hn hno hd
  have hc := h.calm n h₀ hn
  have hq : (σ n).q.qState = .qIdle := by
    simp only [drained, Bool.and_eq_true, beq_iff_eq] at hd
    exact hd.1.1.1.1
  obtain ⟨grant, look, hz, hserves⟩ := h.writes n hn
  have hrests := hstore.next hc (by rw [hc.dmaStartAny, hq]; rfl) hserves grant
  have hnext : σ (n + 1) = (σ n).next (job p ds σ μ).p (ι n) := h.next n hn
  have hζ : ζ (n + 1) = (σ n).wrNext (job p ds σ μ).p (ι n) grant look (ζ n) := hz
  rw [← hnext, ← hζ] at hrests
  exact ⟨hrests, hstarted⟩

end

end BatchUntil

namespace BatchRun

variable {p : MmParams} {ds : List Descriptor} {σ : ℕ → MmAccel} {ι : ℕ → MmInputs}
  {χ : ℕ → Option Transfer} {ζ : ℕ → Option WriteTransfer} {μ : ℕ → Mem} {n : ℕ}

/-- All the tiles, one after another. -/
theorem after_length : (job p ds σ μ).after ds.length =
    TileState.run p (σ 0).regs.srcStride ((σ 0).storeConfig p) ⟨(σ 0).buf.aMem,
      (σ 0).buf.bMem, μ 0⟩ ds :=
  congrArg ((job p ds σ μ).start.run p (σ 0).regs.srcStride ((σ 0).storeConfig p)) List.take_length

/-! ### Every phase is left -/

/-- Where a tile is in its phases. -/
def stage : QState → ℕ
  | .qStoreW => 0
  | .qPreW => 1
  | .qIdle => 2
  | .qLoad => 3
  | .qLoadW => 4
  | .qPreIssue => 5
  | .qComp => 6
  | .qCompW => 7
  | .qStore => 8

/-- How far a batch has come. -/
def place (σ : ℕ → MmAccel) (ι : ℕ → MmInputs) (n : ℕ) : ℕ :=
  9 * (started (fun j => (σ j).dmaStartAny (ι j)) (fun _ => ()) n).length + stage (σ n).q.qState

/-- A batch only moves on. -/
theorem place_next (hnext : σ (n + 1) = (σ n).next p (ι n)) (hc : (σ n).Calm (ι n)) :
    place σ ι n ≤ place σ ι (n + 1) ∧
      ((σ (n + 1)).q.qState ≠ (σ n).q.qState → place σ ι n < place σ ι (n + 1)) := by
  have hstate := hc.qState_next (p := p)
  rw [← hnext] at hstate
  have hlen : place σ ι (n + 1) = 9 * (started (fun j => (σ j).dmaStartAny (ι j))
    (fun _ => ()) n).length +
      (if (σ n).q.qState = .qStore then 9 else 0) + stage (σ (n + 1)).q.qState := by
    rw [place, started_succ, hc.dmaStartAny, List.length_append]
    by_cases hq : (σ n).q.qState = .qStore
    · simp [hq, Nat.mul_add]
    · simp [hq]
  rw [hlen, place, hstate]
  cases hq : (σ n).q.qState <;> simp only [reduceCtorEq, if_true, if_false]
  · split_ifs <;> simp [stage]
  · simp [stage]
  · split_ifs <;> simp [stage]
  · simp [stage]
  · split_ifs <;> simp [stage]
  · simp [stage]
  · split_ifs <;> simp [stage]
  · split_ifs <;> simp [stage]
  · simp [stage]

/-- The batch is never drained, and the channels serve it. -/
structure Endless (p : MmParams) (ds : List Descriptor) (σ : ℕ → MmAccel) (ι : ℕ → MmInputs)
    (χ : ℕ → Option Transfer) (ζ : ℕ → Option WriteTransfer) (μ : ℕ → Mem) : Prop where
  run : ∀ e, BatchUntil e p ds σ ι χ ζ μ
  good : (job p ds σ μ).Good
  reads : ReadFair σ ι χ
  writes : WriteFair σ ι ζ
  drained : ∀ n > 0, (σ n).drained = false

namespace Endless

variable (h : Endless p ds σ ι χ ζ μ)

include h

theorem next (n : ℕ) : σ (n + 1) = (σ n).next p (ι n) := (h.run (n + 1)).next n n.lt_succ_self

theorem calm (h₀ : 0 < n) : (σ n).Calm (ι n) := (h.run (n + 1)).calm n h₀ n.lt_succ_self

theorem timing : ReadTiming p σ ι χ where
  next n := (h.run (n + 1)).grants n n.lt_succ_self
  line n hr := by
    obtain ⟨t, ht, -⟩ := (h.run (n + 1)).line n n.lt_succ_self hr
    simp [ht]

theorem service : WriteService p σ ι ζ μ := fun n => (h.run (n + 1)).writes n n.lt_succ_self

theorem qDone (h₀ : 0 < n) : (σ n).q.qDone = false := by
  induction n, h₀ using Nat.le_induction with
  | base => exact ((h.run 1).running_one h.good Nat.one_pos).env.done
  | succ n hn ih => exact ((h.run (n + 1)).qDone_next hn n.lt_succ_self ih).trans (h.drained n hn)

theorem running (h₀ : 0 < n) : ∃ l k w, Running (job p ds σ μ) σ ι χ ζ μ n l k w :=
  ((h.run n).running_of_run h.good h₀ le_rfl fun _ h₁ _ => h.qDone h₁).1

/-- The load engine comes to rest again and again. -/
theorem exists_ld (h₀ : 0 < n) : ∃ m ≥ n, (σ m).ld.ldBusy = false := by
  by_contra hcon
  have hbusy : ∀ m ≥ n, (σ m).ld.ldBusy = true := fun m hm => by
    by_contra hb
    exact hcon ⟨m, hm, Bool.eq_false_iff.2 hb⟩
  have hload : ∀ m ≥ n, (∃ a, LoadUnderway p a (σ m) (χ m)) ∧ (σ m).LoadAlone p (ι m) :=
      fun m hm => by
    obtain ⟨l, k, w, hr⟩ := h.running (h₀.trans_le hm)
    exact hr.phase.load_of_busy (h.calm (h₀.trans_le hm)) (hbusy m hm)
  obtain ⟨⟨a, ha⟩, -⟩ := hload n le_rfl
  obtain ⟨e, he, hd⟩ := ha.ends (fun m _ => h.next m) h.timing h.reads h.good.dim h.good.maxK
    fun m hm _ => (hload m hm).2
  obtain ⟨⟨b, hb⟩, -⟩ := hload e he
  exact absurd (hd.symm.trans hb.busy.2.1) (by simp)

/-- So does the store engine. -/
theorem exists_st (h₀ : 0 < n) : ∃ m ≥ n, (σ m).st.dmaBusy = false := by
  by_contra hcon
  have hbusy : ∀ m ≥ n, (σ m).st.dmaBusy = true := fun m hm => by
    by_contra hb
    exact hcon ⟨m, hm, Bool.eq_false_iff.2 hb⟩
  have hstore : ∀ m ≥ n, (∃ f, StoreUnderway p ((σ 0).storeConfig p) (σ m) (ζ m) f) ∧
      (σ m).dmaStartAny (ι m) = false :=
    fun m hm => by
      obtain ⟨l, k, w, hr⟩ := h.running (h₀.trans_le hm)
      exact hr.phase.store_of_busy (h.calm (h₀.trans_le hm)) (hbusy m hm)
  obtain ⟨⟨f, hf⟩, -⟩ := hstore n le_rfl
  obtain ⟨e, he, hd⟩ := hf.ends h.good.fits (fun m _ => h.next m) h.service h.writes fun m hm _ =>
    ⟨(h.calm (h₀.trans_le hm)).reset, (hstore m hm).2, by
      obtain ⟨⟨f', hf'⟩, -⟩ := hstore (m + 1) (Nat.le_succ_of_le hm)
      exact hf'.busy.2.2⟩
  obtain ⟨⟨f', hf'⟩, -⟩ := hstore e he
  exact absurd (hd.symm.trans hf'.busy.2.1) (by simp)

/-- In `qCompW` the array comes to its end. -/
theorem exists_done (h₀ : 0 < n) (hall : ∀ m ≥ n, (σ m).q.qState = .qCompW) :
    ∃ m ≥ n, (σ m).arr.done = true := by
  by_contra hcon
  have hno : ∀ m ≥ n, (σ m).arr.done = false :=
    fun m hm => Bool.eq_false_iff.2 fun hd => hcon ⟨m, hm, hd⟩
  -- the cycle that the array is on
  have hstep : ∀ m ≥ n, (σ m).arr.t < 256 ∧ (σ (m + 1)).arr.t = (σ m).arr.t + 1 := fun m hm => by
    have hm₀ := h₀.trans_le hm
    have hc := h.calm hm₀
    obtain ⟨l, k, w, hr⟩ := h.running hm₀
    have hstart : (σ m).startAny (ι m) = false := by rw [hc.startAny, hall m hm]; rfl
    cases hr.phase with
    | compW _ hd current ahead array =>
      rcases array with ⟨t, array⟩ | array
      · have hmem := List.mem_of_getElem? hd
        have hlt : t < _ := array.lt
        have hK := (h.good.kLen _ hmem).2
        have hmax := h.good.maxK
        have hdim := h.good.dim.le
        rw [array.feed.cycle]
        refine ⟨by omega, ?_⟩
        rcases array.next h.good hmem hc hstart current hr.env.chunk ahead.captures with array' | array'
        · rw [h.next m]
          exact array'.feed.cycle
        · have := hno (m + 1) (Nat.le_succ_of_le hm)
          rw [h.next m] at this
          exact absurd (this.symm.trans array'.done) (by simp)
      · exact absurd ((hno m hm).symm.trans array.done) (by simp)
    | idle hq | load hq | loadW hq | preIssue hq | comp hq | store hq | storeW hq | preW hq =>
      rw [hall m hm] at hq
      cases hq
  have hsum : ∀ j, (σ (n + j)).arr.t = (σ n).arr.t + j := by
    intro j
    induction j with
    | zero => rfl
    | succ j ih =>
      rw [← Nat.add_assoc, (hstep (n + j) (Nat.le_add_right n j)).2, ih]
      rfl
  have h₁ := (hstep (n + 256) (Nat.le_add_right n 256)).1
  have h₂ := hsum 256
  omega

/-- A batch that stays in a state takes the edge from it again and again. -/
theorem stays {q : QState} (h₀ : 0 < n) (hall : ∀ m ≥ n, (σ m).q.qState = q) {m : ℕ} (hm : n ≤ m) :
    (σ m).q.qState = q ∧ (σ m).Calm (ι m) ∧ ((σ m).next p (ι m)).q.qState = q ∧
      ∃ l k w, Running (job p ds σ μ) σ ι χ ζ μ m l k w := by
  refine ⟨hall m hm, h.calm (h₀.trans_le hm), ?_, h.running (h₀.trans_le hm)⟩
  rw [← h.next m]
  exact hall (m + 1) (Nat.le_succ_of_le hm)

theorem not_stays_qIdle (h₀ : 0 < n) (hall : ∀ m ≥ n, (σ m).q.qState = .qIdle) : False := by
  obtain ⟨m, hm, hb⟩ := h.exists_st h₀
  obtain ⟨hq, hc, hs, l, k, w, hr⟩ := h.stays h₀ hall hm
  rw [hc.qState_next, hq] at hs
  have hadopts : (σ m).adoptsIdle = false := Bool.eq_false_iff.2 fun ha => by simp [ha] at hs
  have hnil : (σ m).q.descQ = [] := by
    by_contra hne
    simp [adoptsIdle, hq, hr.env.run, hne] at hadopts
  have hd := h.drained m (h₀.trans_le hm)
  cases hr.phase with
  | idle _ alone => simp [MmAccel.drained, hq, hr.env.run, hnil, hb, alone.load.busy] at hd
  | load hq' | loadW hq' | preIssue hq' | comp hq' | compW hq' | store hq' | storeW hq' | preW hq' =>
    rw [hq] at hq'
    cases hq'

theorem not_stays_qLoadW (h₀ : 0 < n) (hall : ∀ m ≥ n, (σ m).q.qState = .qLoadW) : False := by
  obtain ⟨m, hm, hb⟩ := h.exists_ld h₀
  obtain ⟨hq, hc, hs, l, k, w, hr⟩ := h.stays h₀ hall hm
  rw [hc.qState_next, hq] at hs
  cases hr.phase with
  | loadW _ _ _ _ _ _ load =>
    rcases load with load | ⟨-, hdone⟩
    · exact absurd (hb.symm.trans load.load.busy) (by simp)
    · simp [hdone] at hs
  | idle hq' | load hq' | preIssue hq' | comp hq' | compW hq' | store hq' | storeW hq' | preW hq' =>
    rw [hq] at hq'
    cases hq'

theorem not_stays_qCompW (h₀ : 0 < n) (hall : ∀ m ≥ n, (σ m).q.qState = .qCompW) : False := by
  obtain ⟨a, ha, hdone⟩ := h.exists_done h₀ hall
  have hstays : ∀ m ≥ a, (σ m).arr.done = true := fun m hm => by
    induction m, hm using Nat.le_induction with
    | base => exact hdone
    | succ m hm ih =>
      obtain ⟨hq, hc, -, l, k, w, hr⟩ := h.stays h₀ hall (ha.trans hm)
      have hstart : (σ m).startAny (ι m) = false := by rw [hc.startAny, hq]; rfl
      cases hr.phase with
      | compW _ _ _ _ array =>
        rcases array with ⟨t, array⟩ | array
        · exact absurd (ih.symm.trans array.feed.done) (by simp)
        · rw [h.next m]
          exact (array.next hc hstart).1.done
      | idle hq' | load hq' | loadW hq' | preIssue hq' | comp hq' | store hq' | storeW hq' | preW hq' =>
        rw [hq] at hq'
        cases hq'
  obtain ⟨m, hm, hb⟩ := h.exists_st (h₀.trans_le ha)
  obtain ⟨hq, hc, hs, -⟩ := h.stays h₀ hall (ha.trans hm)
  rw [hc.qState_next, hq, hstays m hm, hb] at hs
  cases hs

theorem not_stays_qStoreW (h₀ : 0 < n) (hall : ∀ m ≥ n, (σ m).q.qState = .qStoreW) : False := by
  obtain ⟨m, hm, hb⟩ := h.exists_st h₀
  obtain ⟨hq, hc, hs, l, k, w, hr⟩ := h.stays h₀ hall hm
  rw [hc.qState_next, hq] at hs
  cases hr.phase with
  | storeW _ _ _ store =>
    rcases store with ⟨f, store, -⟩ | ⟨-, hdone⟩
    · exact absurd (hb.symm.trans store.store.busy) (by simp)
    · simp only [hdone, Bool.true_or, if_true] at hs
      split_ifs at hs
  | idle hq' | load hq' | loadW hq' | preIssue hq' | comp hq' | compW hq' | store hq' | preW hq' =>
    rw [hq] at hq'
    cases hq'

/-- The end of a prefetch is noticed. -/
theorem not_stays_qPreW (h₀ : 0 < n) (hall : ∀ m ≥ n, (σ m).q.qState = .qPreW) : False := by
  have hno : ∀ m ≥ n, (σ m).q.preDone = false := fun m hm => by
    obtain ⟨hq, hc, hs, -⟩ := h.stays h₀ hall hm
    rw [hc.qState_next, hq] at hs
    by_contra hd
    simp [hd] at hs
  obtain ⟨m, hm, hb⟩ := h.exists_ld h₀
  obtain ⟨hq, hc, -, l, k, w, hr⟩ := h.stays h₀ hall hm
  have hnext := hno (m + 1) (Nat.le_succ_of_le hm)
  cases hr.phase with
  | preW _ ahead =>
    cases ahead with
    | loading _ _ _ load => exact absurd (hb.symm.trans load.load.busy) (by simp)
    | loaded hpre _ _ done =>
      obtain ⟨hd, hp⟩ := done.resolve_left (by simp [hno m hm])
      rw [h.next m, hc.pre_next.2.1, hd, hp, hpre.preBusy] at hnext
      cases hnext
  | idle hq' | load hq' | loadW hq' | preIssue hq' | comp hq' | compW hq' | store hq' | storeW hq' =>
    rw [hq] at hq'
    cases hq'

/-- Every phase is left. -/
theorem exists_leaves (h₀ : 0 < n) : ∃ m ≥ n, (σ m).q.qState ≠ (σ n).q.qState := by
  by_contra hcon
  have hall : ∀ m ≥ n, (σ m).q.qState = (σ n).q.qState := fun m hm => by
    by_contra hq
    exact hcon ⟨m, hm, hq⟩
  obtain ⟨-, hc, hs, -⟩ := h.stays h₀ hall le_rfl
  rw [hc.qState_next] at hs
  cases hq : (σ n).q.qState with
  | qLoad | qPreIssue | qComp | qStore =>
    rw [hq] at hs
    cases hs
  | qIdle => exact h.not_stays_qIdle h₀ fun m hm => (hall m hm).trans hq
  | qLoadW => exact h.not_stays_qLoadW h₀ fun m hm => (hall m hm).trans hq
  | qCompW => exact h.not_stays_qCompW h₀ fun m hm => (hall m hm).trans hq
  | qStoreW => exact h.not_stays_qStoreW h₀ fun m hm => (hall m hm).trans hq
  | qPreW => exact h.not_stays_qPreW h₀ fun m hm => (hall m hm).trans hq

theorem place_le (h₀ : 0 < n) : place σ ι n ≤ 9 * ds.length + 8 := by
  obtain ⟨l, k, w, hr⟩ := h.running h₀
  have hlen : (started (fun j => (σ j).dmaStartAny (ι j)) (fun _ => ()) n).length ≤ ds.length := by
    have hstores := congrArg List.length hr.started.stores
    simp only [started, List.length_map, List.length_take] at hstores ⊢
    rw [hstores]
    exact min_le_right _ _
  have hstage : ∀ q, stage q ≤ 8 := fun q => by cases q <;> decide
  have := hstage (σ n).q.qState
  rw [place]
  omega

/-- A batch does not go on for ever. -/
theorem not_endless : False := by
  have hmono : ∀ n > 0, ∀ m ≥ n, place σ ι n ≤ place σ ι m ∧
      ((σ m).q.qState ≠ (σ n).q.qState → place σ ι n < place σ ι m) := fun n h₀ m hm => by
    induction m, hm using Nat.le_induction with
    | base => exact ⟨le_rfl, fun hne => absurd rfl hne⟩
    | succ m hm ih =>
      obtain ⟨h₁, h₂⟩ := place_next (h.next m) (h.calm (h₀.trans_le hm))
      refine ⟨ih.1.trans h₁, fun hne => ?_⟩
      by_cases hq : (σ m).q.qState = (σ n).q.qState
      · exact ih.1.trans_lt (h₂ (hq ▸ hne))
      · exact (ih.2 hq).trans_le h₁
  obtain ⟨k, hk, hle⟩ := Circuit.exists_le_of_grows (f := place σ ι) (a := 1) (fun n hn => by
    obtain ⟨m, hm, hq⟩ := h.exists_leaves hn
    exact ⟨m, hm, (hmono n hn m hm).2 hq⟩) (9 * ds.length + 9)
  have := h.place_le hk
  omega

end Endless

end BatchRun

/-! ## A memory that answers at once -/

/-- The accelerator with its channels and a memory that answers on every cycle. -/
structure Served where
  acc : MmAccel
  rd : Option Transfer
  wr : Option WriteTransfer
  mem : Mem

namespace Served

variable (p : MmParams) (i : MmInputs) (s : Served)

/-- What memory answers: the next line that is read, and a request for the next one that is written
    or the end of the transaction. -/
def answer : MmInputs :=
  { i with
    memRdReady := s.rd.isSome
    memRline := s.rd.elim 0 fun t => s.mem.line t.next
    memWnext := s.wr.any fun t => t.pos + 1 < t.lines
    memWrReady := s.wr.any fun t => t.lines ≤ t.pos + 1 }

def memNext : Mem :=
  match s.wr with
  | some t =>
    if t.lines ≤ t.pos + 1 then
      writeLines t.at (fun k => (s.acc.takeLine true t).getD k 0) s.mem t.lines
    else s.mem
  | none => s.mem

def next : Served where
  acc := s.acc.next p (s.answer i)
  rd := s.acc.rdNext p true s.rd.isSome s.rd
  wr := s.acc.wrNext p (s.answer i) true true s.wr
  mem := s.memNext

/-- A transaction has taken the lines that it has asked for. -/
structure Sound (t : WriteTransfer) : Prop where
  lt : t.pos < t.lines
  le : t.lines ≤ 255
  got : t.pos ≤ t.got.length ∧ t.got.length ≤ t.pos + 1

variable {p i s}

theorem Sound.length_takeLine {t : WriteTransfer} (h : Sound t) :
    (s.acc.takeLine true t).length = t.pos + 1 := by
  obtain ⟨h₁, h₂⟩ := h.got
  rw [takeLine, Bool.true_and]
  by_cases he : t.got.length = t.pos
  · rw [beq_iff_eq.2 he, if_pos rfl, List.length_append, he]
    rfl
  · rw [beq_false_of_ne he, if_neg Bool.false_ne_true]
    omega

theorem sound_next (h : ∀ t, s.wr = some t → Sound t) (t : WriteTransfer)
    (ht : (s.next p i).wr = some t) :
    Sound t := by
  change s.acc.wrNext p (s.answer i) true true s.wr = some t at ht
  cases hw : s.wr with
  | none =>
    rw [hw, wrNext, Bool.true_and] at ht
    split_ifs at ht
    obtain rfl := Option.some_inj.1 ht
    have hlines : 0 < (if s.acc.memWrReqLines p = 0 then 1 else s.acc.memWrReqLines p).toNat := by
      split_ifs with h0
      · exact Nat.one_pos
      · exact Nat.pos_of_ne_zero fun hz => h0 (BitVec.eq_of_toNat_eq hz)
    have hlt := (if s.acc.memWrReqLines p = 0 then 1 else s.acc.memWrReqLines p).isLt
    exact ⟨hlines, Nat.le_of_lt_succ hlt, Nat.zero_le _, le_rfl⟩
  | some t' =>
    have hs := h t' hw
    have hlen := hs.length_takeLine (s := s)
    have hlt := hs.lt
    rw [hw, wrNext, answer, hw] at ht
    by_cases hle : t'.lines ≤ t'.pos + 1
    · simp [hle] at ht
    · simp only [Option.any_some, hle, decide_false, Bool.false_eq_true, if_false, Option.some_inj] at ht
      subst ht
      have hd : decide (t'.pos + 1 < t'.lines) = true := by simp only [decide_eq_true_iff]; omega
      simp only [hd, Bool.toNat_true]
      exact ⟨by dsimp only; omega, hs.le, by dsimp only; omega, by dsimp only; omega⟩

/-- What has been taken is in memory at the end of a transaction. -/
theorem memNext_line {t : WriteTransfer} (ht : s.wr = some t) (hs : Sound t)
    (hle : t.lines ≤ t.pos + 1) {k : ℕ}
    (hk : k < t.lines) : s.memNext.line (t.at k) = (s.acc.takeLine true t).getD k 0 := by
  refine line_ext fun o => ?_
  have hl : lineNo (lineNo (t.at k) ++ o : Word) = lineNo (t.at k) := BitVec.extractLsb'_append_eq_left
  have ho : offsetOf (lineNo (t.at k) ++ o : Word) = o := BitVec.extractLsb'_append_eq_right
  have hmax := hs.le
  rw [Mem.lineByte_line_append, memNext, ht]
  simp only [hle, if_true]
  rw [writeLines_of_eq hk hl fun j h₁ h₂ he => ?_, ho]
  have := Job.lineNo_burst (by omega) (by omega) (hl.symm.trans he)
  omega

theorem writeServes (h : ∀ t, s.wr = some t → Sound t) :
    s.acc.WriteServes (s.answer i) true s.wr s.mem s.memNext where
  wnext hn := by
    simp only [answer, Option.any_eq_true, decide_eq_true_iff] at hn
    obtain ⟨t, ht, hlt⟩ := hn
    refine ⟨?_, t, ht, hlt, (h t ht).length_takeLine⟩
    simp only [answer, ht, Option.any_some, decide_eq_false_iff_not]
    omega
  ready hr := by
    simp only [answer, Option.any_eq_true, decide_eq_true_iff] at hr
    obtain ⟨t, ht, hle⟩ := hr
    have hs := h t ht
    have hpos : t.pos + 1 = t.lines := le_antisymm hs.lt hle
    exact ⟨t, ht, hpos, hs.length_takeLine.trans hpos, fun k hk => memNext_line ht hs hle hk⟩
  idle hx := by rw [memNext, hx]
  frame t ht y hy := by
    rw [memNext, ht]
    dsimp only
    split_ifs
    · exact writeLines_of_ne hy
    · rfl

end Served

/-- The queue is started, and nothing else. -/
def kickOnly (n : ℕ) : MmInputs := if n = 0 then .write 0 0x20 else .quiet

/-- The accelerator with its memory from the start of the queue on. -/
def served (p : MmParams) (s : MmAccel) (m : Mem) : ℕ → Served
  | 0 => ⟨s, none, none, m⟩
  | n + 1 => (served p s m n).next p (kickOnly n)

section

variable {p : MmParams} {s : MmAccel}

theorem sound_served (m : Mem) (n : ℕ) (t : WriteTransfer) (ht : (served p s m n).wr = some t) :
    Served.Sound t := by
  induction n generalizing t with
  | zero => cases ht
  | succ n ih => exact Served.sound_next ih t ht

/-- From every start there is a batch. -/
theorem batchRun_served (hr : (mmAccel p).Reachable s) (hi : s.Idle)
    (hb : s.axi.wState = .wIdle) (m : Mem) :
    BatchRun p s.q.descQ (fun n => (served p s m n).acc) (fun n => (served p s m n).answer (kickOnly n))
      (fun n => (served p s m n).rd) (fun n => (served p s m n).wr) fun n => (served p s m n).mem where
  reach := hr
  next _ := rfl
  queue := rfl
  idle := hi
  free := ⟨rfl, rfl⟩
  kick := by
    refine ⟨?_, ?_, ?_⟩
    · simp [writes, doWrite, served, Served.answer, kickOnly, MmInputs.write, hb, waddrWord]
    · change (0x20 : Word).getLsbD 5 = true
      decide
    · change ∀ b < 5, (0x20 : Word).getLsbD b = false
      decide
  calm n hn _ := ⟨by simp [doWrite, Served.answer, kickOnly, hn.ne', MmInputs.quiet]⟩
  reads := by
    refine ⟨fun n => ⟨true, rfl⟩, fun n hready => ?_⟩
    obtain ⟨t, ht⟩ := Option.isSome_iff_exists.1 hready
    refine ⟨t, ht, fun o => ⟨n, le_rfl, ?_⟩⟩
    rw [← Mem.lineByte_line_append (served p s m n).mem t.next o, Served.answer, ht]
    rfl
  writes n := ⟨true, true, rfl, Served.writeServes (sound_served m n)⟩

theorem fair_served (m : Mem) :
    ReadFair (fun n => (served p s m n).acc) (fun n => (served p s m n).answer (kickOnly n))
        (fun n => (served p s m n).rd) ∧
      WriteFair (fun n => (served p s m n).acc) (fun n => (served p s m n).answer (kickOnly n))
        fun n => (served p s m n).wr := by
  refine ⟨⟨fun n hx hv => ⟨n, le_rfl, ?_⟩, fun n hx =>
    ⟨n, le_rfl, Option.isSome_iff_ne_none.2 hx⟩⟩,
    ⟨fun n hx hv => ⟨n, le_rfl, ?_⟩, fun n hx => ?_⟩⟩
  · change (served p s m n).acc.rdNext p true _ (served p s m n).rd ≠ none
    rw [hx, rdNext, hv]
    simp
  · change (served p s m n).acc.wrNext p _ true true (served p s m n).wr ≠ none
    rw [hx, wrNext, hv]
    simp
  · -- the lines that are left
    obtain ⟨t, ht⟩ := Option.ne_none_iff_exists'.1 hx
    induction hd : t.lines - t.pos using Nat.strong_induction_on generalizing n t with
    | _ d ih =>
      have hlt := (sound_served m n t ht).lt
      by_cases hle : t.lines ≤ t.pos + 1
      · refine ⟨n, le_rfl, ?_⟩
        simp [Served.answer, ht, hle]
      · have hnext : (served p s m (n + 1)).wr =
            some { t with pos := t.pos + 1, got := (served p s m n).acc.takeLine true t } := by
          change (served p s m n).acc.wrNext p _ true true (served p s m n).wr = _
          rw [ht, wrNext, Served.answer, ht]
          have hd : decide (t.pos + 1 < t.lines) = true := by simp only [decide_eq_true_iff]; omega
          simp [hle, hd]
        obtain ⟨k, hk, hready⟩ :=
          ih (t.lines - (t.pos + 1)) (by omega) (n + 1) (by simp [hnext]) _ hnext rfl
        exact ⟨k, Nat.le_of_succ_le hk, hready⟩

end

/-! ## The result -/

/-- What a batch leaves behind when it ends, on the cycle `e`. -/
structure BatchRun.Ended (p : MmParams) (ds : List Descriptor) (σ : ℕ → MmAccel) (ι : ℕ → MmInputs)
    (ζ : ℕ → Option WriteTransfer) (μ : ℕ → Mem) (e : ℕ) : Prop where
  done : ∀ n, 0 < n → n ≤ e → ((σ n).q.qDone = true ↔ n = e)
  mem : μ e = (TileState.run p (σ 0).regs.srcStride ((σ 0).storeConfig p)
    ⟨(σ 0).buf.aMem, (σ 0).buf.bMem, μ 0⟩ ds).mem
  loads : started (fun n => (σ n).ldStartAny (ι n)) (fun n => ((σ n).loadConfig, (σ n).q.qBOnly)) e =
    ds.map fun d => (d.loadConfig p (σ 0).regs.srcStride, d.bOnly)
  runs : started (fun n => (σ n).startAny (ι n)) (fun n => ((σ n).regs.kLen, (σ n).regs.bPanelUse)) e =
    ds.map fun d => (d.kLen, d.panelUse p)
  stores : started (fun n => (σ n).dmaStartAny (ι n)) (fun n => (σ n).regs.destAddr) e =
    ds.map Descriptor.dest
  busy : (σ e).st.dmaBusy = false
  fifo : ds ≠ [] → (σ e).st.lineFifo = []
  free : ζ e = none

section

variable {p : MmParams} {ds : List Descriptor} {σ : ℕ → MmAccel} {ι : ℕ → MmInputs}
  {χ : ℕ → Option Transfer} {ζ : ℕ → Option WriteTransfer} {μ : ℕ → Mem}

/-- A batch that goes on as long as it is not over is over in the end. -/
theorem BatchUntil.exists_ended
    (h : ∀ e, (∀ k, 0 < k → k < e → (σ k).q.qDone = false) → BatchUntil e p ds σ ι χ ζ μ)
    (hJ : (BatchRun.job p ds σ μ).Good) (hr : (∀ n > 0, (σ n).q.qDone = false) → ReadFair σ ι χ)
    (hw : (∀ n > 0, (σ n).q.qDone = false) → WriteFair σ ι ζ) :
      ∃ e > 0, BatchRun.Ended p ds σ ι ζ μ e := by
  have hex : ∃ n > 0, (σ n).q.qDone = true := by
    by_contra hcon
    have hno : ∀ n > 0, (σ n).q.qDone = false :=
      fun n hn => Bool.eq_false_iff.2 fun hd => hcon ⟨n, hn, hd⟩
    have hall : ∀ e, BatchUntil e p ds σ ι χ ζ μ := fun e => h e fun k h₁ _ => hno k h₁
    refine BatchRun.Endless.not_endless ⟨hall, hJ, hr hno, hw hno, fun n hn => ?_⟩
    rw [← (hall (n + 1)).qDone_next hn n.lt_succ_self (hno n hn)]
    exact hno (n + 1) n.succ_pos
  -- the first cycle on which it is over, and the one before
  obtain ⟨e, ⟨he, hdone⟩, hmin⟩ : ∃ e, (e > 0 ∧ (σ e).q.qDone = true) ∧
    ∀ k, 0 < k → k < e →
      (σ k).q.qDone = false :=
    ⟨Nat.find hex, Nat.find_spec hex, fun k h₁ h₂ => Bool.eq_false_iff.2 fun hk =>
      Nat.find_min hex h₂ ⟨h₁, hk⟩⟩
  obtain ⟨n, rfl⟩ : ∃ n, e = n + 1 := ⟨e - 1, by omega⟩
  have hb := h (n + 1) hmin
  have hn : 0 < n := by
    refine Nat.pos_of_ne_zero fun h0 => ?_
    subst h0
    exact absurd (hdone.symm.trans (hb.running_one hJ he).env.done) (by simp)
  have hno : ∀ k, 0 < k → k ≤ n → (σ k).q.qDone = false :=
    fun k h₁ h₂ => hmin k h₁ (Nat.lt_succ_of_le h₂)
  have hdrained : (σ n).drained = true := by
    rw [← hb.qDone_next hn n.lt_succ_self (hno n hn le_rfl), hdone]
  obtain ⟨hrests, hstarted⟩ := hb.stored_of_drained hJ hn n.lt_succ_self hno hdrained
  have htake : (BatchRun.job p ds σ μ).ds.take ds.length = ds := List.take_length
  refine ⟨n + 1, he, fun k hk hkn => ⟨fun hd => ?_, fun hk => hk ▸ hdone⟩, ?_, ?_, ?_, ?_,
    hrests.busy, fun hne => ?_, hrests.free⟩
  · rcases Nat.le_succ_iff.1 hkn with hkn | rfl
    · exact absurd (hd.symm.trans (hno k hk hkn)) (by simp)
    · rfl
  · rw [hrests.mem, BatchRun.after_length]
  · rw [hstarted.loads, htake]
    rfl
  · rw [hstarted.runs, htake]
    rfl
  · rw [hstarted.stores, htake]
  · exact hrests.fifo fun h0 => hne (List.length_eq_zero_iff.1 h0)

namespace BatchRun

variable (h : BatchRun p ds σ ι χ ζ μ) {e n : ℕ}

include h

/-- The FIFO is empty until the first store begins. -/
theorem lineFifo_of_no_store (hs : ∀ j < n, (σ j).dmaStartAny (ι j) = false) :
    (σ n).st.dmaBusy = false ∧ (σ n).st.lineFifo = [] ∧ (σ n).st.fillValid = false := by
  induction n with
  | zero => exact ⟨h.idle.store, h.idle.fifo, h.idle.valid⟩
  | succ n ih =>
    obtain ⟨hb, hf, hv⟩ := ih fun j hj => hs j (Nat.lt_succ_of_lt hj)
    obtain ⟨h₁, h₂⟩ := storeRests_next (p := p) (hs n n.lt_succ_self) hb
    rw [h.next n]
    exact ⟨h₁, (lineFifo_next p).trans (Job.nextFifo_of_empty hf hv), h₂⟩

theorem batchUntil (hno : ∀ k, 0 < k → k < e → (σ k).q.qDone = false) :
    BatchUntil e p ds σ ι χ ζ μ where
  reach := h.reach
  next n _ := h.next n
  queue := h.queue
  rest := h.idle.enginesRest
  free := h.free
  kick := h.kick
  calm n hn hne := h.calm n hn fun k h₁ h₂ => hno k h₁ (h₂.trans_lt hne)
  fresh n _ hs _ := by
    obtain ⟨-, hf, hv⟩ := h.lineFifo_of_no_store hs
    rw [h.next n, lineFifo_next, Job.nextFifo_of_empty hf hv]
  grants n _ := h.reads.next n
  line n _ hr := by
    obtain ⟨t, ht, hline⟩ := h.reads.line n hr
    exact ⟨t, ht, fun o _ _ _ => hline o⟩
  writes n _ := h.writes n

end BatchRun

end

/-- A batch ends, if the channels serve what they are asked for. `qDone` rises when the last store
    has been accepted. Every descriptor has then been loaded, computed and stored, each once and in
    their order, and memory is as if they had been executed one after another. -/
theorem batch_of_run {p : MmParams} {ds : List Descriptor} {σ : ℕ → MmAccel} {ι : ℕ → MmInputs}
    {χ : ℕ → Option Transfer} {ζ : ℕ → Option WriteTransfer} {μ : ℕ → Mem}
    (h : BatchRun p ds σ ι χ ζ μ) (hd : p.GoodDim)
    (hm : p.maxK ≤ 128) (_hp : p.enablePrefetch) (hK : ∀ d ∈ ds, 1 ≤ d.kLen ∧ d.kLen ≤ p.maxK)
    (ha : Descriptor.Apart p (σ 0).regs.srcStride ((σ 0).storeConfig p) ds) (hpan : PanelsApart p ds)
    (hr : ReadFair σ ι χ) (hw : WriteFair σ ι ζ) :
    ∃ e > 0, (∀ n, 0 < n → n ≤ e → ((σ n).q.qDone = true ↔ n = e)) ∧
      μ e = (TileState.run p (σ 0).regs.srcStride ((σ 0).storeConfig p) ⟨(σ 0).buf.aMem,
        (σ 0).buf.bMem, μ 0⟩ ds).mem ∧
      started (fun n => (σ n).ldStartAny (ι n)) (fun n => ((σ n).loadConfig, (σ n).q.qBOnly)) e =
        ds.map (fun d => (d.loadConfig p (σ 0).regs.srcStride, d.bOnly)) ∧
      started (fun n => (σ n).startAny (ι n)) (fun n => ((σ n).regs.kLen, (σ n).regs.bPanelUse)) e =
        ds.map (fun d => (d.kLen, d.panelUse p)) ∧
      started (fun n => (σ n).dmaStartAny (ι n)) (fun n => (σ n).regs.destAddr) e =
        ds.map Descriptor.dest ∧
      (σ e).st.dmaBusy = false ∧ (σ e).st.lineFifo = [] ∧ ζ e = none := by
  have hJ : (BatchRun.job p ds σ μ).Good := ⟨hd, hm, hK, ha, fun _ => hpan, fits_storeConfig (σ 0) hd⟩
  obtain ⟨e, he, hend⟩ :=
    BatchUntil.exists_ended (fun e hno => h.batchUntil hno) hJ (fun _ => hr) fun _ => hw
  refine ⟨e, he, hend.done, hend.mem, hend.loads, hend.runs, hend.stores, hend.busy, ?_, hend.free⟩
  by_cases hds : ds = []
  · -- there has been no store
    have hnil := hend.stores
    rw [hds] at hnil
    exact (h.lineFifo_of_no_store (started_eq_nil hnil)).2.1
  · exact hend.fifo hds

/-! ### Two products -/

/-- Two descriptors are pushed, for the products of one A with two B. The second one names the panel
    `1`. -/
def twoProducts (n : ℕ) : MmInputs :=
  match n with
  | 0 => .write 18 0x20
  | 2 => .write 19 0x100
  | 4 => .write 20 0x10
  | 6 => .write 18 0x40
  | 8 => .write 19 0x200
  | 10 => .write 20 0x11110
  | _ => .quiet

def pushed (p : MmParams) : MmAccel := (mmAccel p).trace resetMm twoProducts 12

/-- The first three operands are all ones, and the others are all twos. -/
def onesAndTwos : Mem := fun a => if a.toNat < 64 then 1 else 2

/-- The default accelerator, with a single panel. -/
def onePanel : MmParams := { mmDefault with bPanels := 1, bPanels_pow := ⟨0, rfl⟩ }

theorem reachable_pushed (p : MmParams) : (mmAccel p).Reachable (pushed p) :=
  Circuit.reachable_trace isReset_resetMm fun _ _ => trivial

theorem idle_pushed : (pushed mmDefault).Idle ∧ (pushed onePanel).Idle :=
  ⟨⟨by decide +kernel, by decide +kernel, by decide +kernel, by decide +kernel, by decide +kernel⟩,
    ⟨by decide +kernel, by decide +kernel, by decide +kernel, by decide +kernel, by decide +kernel⟩⟩

/-- With four panels both products are right. -/
theorem twoProducts_served :
    ∃ e > 0, (served mmDefault (pushed mmDefault) onesAndTwos e).acc.q.qDone = true ∧
      (served mmDefault (pushed mmDefault) onesAndTwos e).mem =
        (TileState.run mmDefault (pushed mmDefault).regs.srcStride
        ((pushed mmDefault).storeConfig mmDefault) ⟨(pushed mmDefault).buf.aMem,
          (pushed mmDefault).buf.bMem, onesAndTwos⟩
        (pushed mmDefault).q.descQ).mem := by
  obtain ⟨hr, hw⟩ := fair_served (p := mmDefault) (s := pushed mmDefault) onesAndTwos
  obtain ⟨e, he, hdone, hmem, -⟩ := batch_of_run
    (batchRun_served (reachable_pushed mmDefault) idle_pushed.1 (by decide +kernel) onesAndTwos)
      (.inl rfl) (by decide) rfl
    (by decide +kernel) (Descriptor.apart_of_lineNo (by decide +kernel))
      (panelsApart_of_ne (by decide) _) hr hw
  exact ⟨e, he, (hdone e he le_rfl).2 rfl, hmem⟩

/-- With one panel the second B comes in while the array works with the first. -/
theorem twoProducts_onePanel :
    ¬∀ (p : MmParams) (ds : List Descriptor) (σ : ℕ → MmAccel) (ι : ℕ → MmInputs)
    (χ : ℕ → Option Transfer)
      (ζ : ℕ → Option WriteTransfer) (μ : ℕ → Mem), BatchRun p ds σ ι χ ζ μ → p.GoodDim →
      p.maxK ≤ 128 → p.enablePrefetch →
      (∀ d ∈ ds, 1 ≤ d.kLen ∧ d.kLen ≤ p.maxK) →
      Descriptor.Apart p (σ 0).regs.srcStride ((σ 0).storeConfig p) ds → ReadFair σ ι χ →
      WriteFair σ ι ζ →
      ∃ e > 0, (∀ n, 0 < n → n ≤ e → ((σ n).q.qDone = true ↔ n = e)) ∧
        μ e = (TileState.run p (σ 0).regs.srcStride ((σ 0).storeConfig p) ⟨(σ 0).buf.aMem,
          (σ 0).buf.bMem, μ 0⟩ ds).mem := by
  intro h
  obtain ⟨hr, hw⟩ := fair_served (p := onePanel) (s := pushed onePanel) onesAndTwos
  obtain ⟨e, he, hdone, hmem⟩ := h _ _ _ _ _ _ _
    (batchRun_served (reachable_pushed onePanel) idle_pushed.2 (by decide +kernel) onesAndTwos)
      (.inl rfl) (by decide) rfl
    (by decide +kernel) (Descriptor.apart_of_lineNo (by decide +kernel)) hr hw
  -- the batch is over on the cycle `61`
  have hno : ∀ n < 61, (served onePanel (pushed onePanel) onesAndTwos n).acc.q.qDone = false := by
    decide +kernel
  have hyes : (served onePanel (pushed onePanel) onesAndTwos 61).acc.q.qDone = true := by decide +kernel
  obtain rfl : e = 61 := by
    rcases Nat.lt_trichotomy e 61 with hlt | heq | hgt
    · exact absurd ((hdone e he le_rfl).2 rfl) (by simp [hno e hlt])
    · exact heq
    · exact ((hdone 61 (by decide) hgt.le).1 hyes).symm
  have hbyte := congrFun hmem 0x100
  revert hbyte
  decide +kernel

end Rv32Soc
