import Rv32Soc.Accel.Tiles
import Rv32Soc.Accel.Prefetch

/-!
# The engines in a batch

What the load engine, the array and the store engine do on one cycle of a batch, while only the
sequencer starts them (`Calm`). Each engine is described by the number of tiles it is
through with, whatever the two others are working on.

* `Job`: a batch with what it starts from, and the buffers and the memory after its first tiles
  (`Job.after`);
* `Job.LoadRests`, `Job.LoadBusy`, `Job.StoreRests`, `Job.StoreBusy`, `Job.Computing`,
  `Job.Computed`: the engines, with a lemma for an edge of each;
* `PanelsApart`: no tile is prefetched into the panel that its predecessor computes with.
-/

namespace Rv32Soc

namespace MmAccel

variable {p : MmParams} {s : MmAccel} {i : MmInputs}

/-! ## Without writes on the bus -/

/-- Nothing is written on the bus: only the sequencer starts anything. -/
structure Calm (s : MmAccel) (i : MmInputs) : Prop where
  write : s.doWrite i = false

namespace Calm

theorem writes (h : s.Calm i) (n : BitVec 6) : s.writes i n = false := by
  rw [MmAccel.writes, h.write]
  rfl

theorem writesCfg (h : s.Calm i) (n : BitVec 6) : s.writesCfg i n = false := by
  rw [MmAccel.writesCfg, h.writes]
  rfl

theorem startsNone (h : s.Calm i) : s.StartsNone i := ⟨fun b _ => by rw [h.writes, Bool.false_and]⟩

theorem reset (h : s.Calm i) : s.softRstPulse i = false := h.startsNone.reset
theorem push (h : s.Calm i) : s.descPush i = false := h.writes 20
theorem kick (h : s.Calm i) : s.qStartPulse i = false := by simp [qStartPulse, h.writes]

theorem startAny (h : s.Calm i) : s.startAny i = (s.q.qState == .qComp) := h.startsNone.startAny
theorem dmaStartAny (h : s.Calm i) : s.dmaStartAny i = (s.q.qState == .qStore) :=
  h.startsNone.dmaStartAny

theorem ldStartAny (h : s.Calm i) : s.ldStartAny i = (s.q.qState == .qLoad || s.q.prePend) :=
  h.startsNone.ldStartAny

/-- What a load that the sequencer starts fetches. -/
theorem startsBOnly (h : s.Calm i) (hs : s.ldStartAny i) : s.startsBOnly i = s.q.qBOnly := by
  rw [h.ldStartAny] at hs
  simp [MmAccel.startsBOnly, hs]

/-- The registers of the array and of the store change when a tile is promoted. -/
theorem tile_next (h : s.Calm i) :
    (s.next p i).regs.kLen = (if s.promotes then s.q.stgKLen else s.regs.kLen) ∧
      (s.next p i).regs.bPanelUse = (if s.promotes then s.q.stgPanelUse else s.regs.bPanelUse) ∧
      (s.next p i).regs.destAddr = if s.promotes then s.q.stgDest else s.regs.destAddr := by
  simp [nextRegs, h.writesCfg]

/-- The registers of a load change when a descriptor is adopted. -/
theorem loadConfig_next (h : s.Calm i) :
    (s.next p i).loadConfig =
      ((s.adopted p).map (Descriptor.loadConfig p s.regs.srcStride)).getD s.loadConfig := by
  cases ha : s.adopted p <;> simp [loadConfig, nextRegs, h.writesCfg, ha, Descriptor.loadConfig]

theorem srcStride_next (h : s.Calm i) : (s.next p i).regs.srcStride = s.regs.srcStride := by
  simp [nextRegs, h.writesCfg]

theorem storeConfig_next (h : s.Calm i) : (s.next p i).storeConfig p = s.storeConfig p :=
  storeConfig_next_of (by simp [nextRegs, h.writesCfg]) (h.writesCfg 22)

/-- No load is disturbed while nothing is adopted and none is started. -/
theorem loadAlone (h : s.Calm i) (hs : s.ldStartAny i = false) (ha : s.adopted p = none) :
    s.LoadAlone p i where
  reset := h.reset
  start := hs
  adopts := ha
  pushA := h.writesCfg 5
  pushB := h.writesCfg 6

/-- The sequencer. -/
theorem qState_next (h : s.Calm i) :
    (s.next p i).q.qState =
      match s.q.qState with
      | .qIdle => if s.adoptsIdle then .qLoad else .qIdle
      | .qLoad => .qLoadW
      | .qLoadW => if s.ld.ldDone then .qPreIssue else .qLoadW
      | .qPreIssue => .qComp
      | .qComp => .qCompW
      | .qCompW => if s.arr.done && !s.st.dmaBusy then .qStore else .qCompW
      | .qStore => .qStoreW
      | .qStoreW =>
        if s.st.dmaDone || (s.st.dmaBusy && s.st.fillLeft == 0) then
          if s.q.preBusy then .qPreW else .qIdle
        else .qStoreW
      | .qPreW => if s.q.preDone then .qComp else .qPreW := by
  rw [next_q, nextQ, nextQState, h.reset]
  rfl

/-- What the sequencer has staged. -/
theorem staged_next (h : s.Calm i) :
    (s.next p i).q.descQ = (if (s.adopted p).isSome then s.q.descQ.tail else s.q.descQ) ∧
      (s.next p i).q.qBOnly = ((s.adopted p).map Descriptor.bOnly).getD s.q.qBOnly ∧
      (s.next p i).q.stgKLen = ((s.adopted p).map Descriptor.kLen).getD s.q.stgKLen ∧
      (s.next p i).q.stgPanelUse = ((s.adopted p).map (Descriptor.panelUse p)).getD s.q.stgPanelUse ∧
      (s.next p i).q.stgDest = ((s.adopted p).map Descriptor.dest).getD s.q.stgDest :=
  ⟨descQ_next h.reset h.push, rfl, rfl, rfl, rfl⟩

/-- Whether the batch is over. -/
theorem run_next (h : s.Calm i) :
    (s.next p i).q.qRun = (!s.drained && s.q.qRun) ∧
    (s.next p i).q.qDone = (s.drained || s.q.qDone) := by
  simp only [next_q, nextQ, h.reset, h.kick]
  cases s.drained <;> simp

/-- The prefetch. -/
theorem pre_next (h : s.Calm i) :
    (s.next p i).q.preBusy = (s.prefetches p ||
      (s.q.preBusy && !(s.q.qState == .qPreW && s.q.preDone))) ∧
      (s.next p i).q.preDone = ((s.ld.ldDone && !s.q.ldDonePrev && s.q.preBusy) ||
        (s.q.preDone && !(s.prefetches p || (s.q.qState == .qPreW && s.q.preDone)))) ∧
      (s.next p i).q.prePend = (s.prefetches p && !s.q.prePend) ∧
      (s.next p i).q.ldDonePrev = s.ld.ldDone := by
  simp only [next_q, nextQ, h.reset]
  refine ⟨?_, ?_, ?_, trivial⟩
  · cases s.prefetches p <;> cases (s.q.qState == .qPreW && s.q.preDone) <;> simp
  · cases (s.ld.ldDone && !s.q.ldDonePrev && s.q.preBusy) <;>
      cases (s.prefetches p || (s.q.qState == .qPreW && s.q.preDone)) <;> simp
  · cases s.q.prePend <;> simp

end Calm

/-- A descriptor is adopted from `qIdle` and `qPreIssue` only. -/
theorem adopted_eq_none (h₁ : s.q.qState ≠ .qIdle) (h₂ : s.q.qState ≠ .qPreIssue)
    (h₃ : s.q.qState = .qPreW → s.q.preBusy) : s.adopted p = none ∧ s.prefetches p = false := by
  have hf : s.prefetches p = false := by
    by_cases hq : s.q.qState = .qPreW
    · simp [prefetches, hq, h₃ hq]
    · simp [prefetches, h₂, hq]
  rw [adopted, hf, adoptsIdle, beq_false_of_ne h₁]
  exact ⟨rfl, rfl⟩

end MmAccel

open MmAccel

/-! ## What a batch works on -/

instance (p : MmParams) (d d' : Descriptor) : Decidable (Prefetchable p d d') :=
  inferInstanceAs (Decidable (_ ∧ _))

/-- No tile is prefetched into the panel that the one before it works with, as it would be if there
    were a single panel for all panel numbers. A tile that follows a prefetched one is loaded from
    `qIdle`. -/
def PanelsApart (p : MmParams) : List Descriptor → Prop
  | d :: d' :: ds =>
    if Prefetchable p d d' then p.bPanels ≠ 1 ∧ PanelsApart p ds else PanelsApart p (d' :: ds)
  | _ => True

/-- With several panels they are different ones. -/
theorem panelsApart_of_ne {p : MmParams} (h : p.bPanels ≠ 1) (ds : List Descriptor) :
    PanelsApart p ds := by
  fun_induction PanelsApart p ds with
  | case1 d d' ds hp ih => exact ⟨h, ih⟩
  | case2 d d' ds hp ih => exact ih
  | case3 => trivial

theorem PanelsApart.of_prefetchable {p : MmParams} {d d' : Descriptor} {l : List Descriptor}
    (h : PanelsApart p (d :: d' :: l)) (hp : Prefetchable p d d') : p.bPanels ≠ 1 ∧ PanelsApart p l := by
  rwa [PanelsApart, if_pos hp] at h

theorem PanelsApart.of_not_prefetchable {p : MmParams} {d : Descriptor} {l : List Descriptor}
    (h : PanelsApart p (d :: l)) (hp : ∀ d', l.head? = some d' → ¬Prefetchable p d d') :
      PanelsApart p l := by
  cases l with
  | nil => trivial
  | cons d' l => rwa [PanelsApart, if_neg (hp d' rfl)] at h

/-- `PanelsApart` is only asked for where tiles are prefetched at all. -/
def PanelsKept (p : MmParams) (ds : List Descriptor) : Prop :=
  p.enablePrefetch → PanelsApart p ds

/-- A batch: its descriptors, the registers that it leaves alone, and what it starts from. -/
structure Job where
  p : MmParams
  stride : Word
  conf : StoreConfig
  ds : List Descriptor
  start : TileState

namespace Job

variable (J : Job)

/-- The operand buffers and the memory after the first `j` tiles. -/
def after (j : ℕ) : TileState := J.start.run J.p J.stride J.conf (J.ds.take j)

/-- The lines that a load fetches. -/
def line (d : Descriptor) (inB : Bool) (i r : ℕ) : Line :=
  J.start.mem.line ((d.loadConfig J.p J.stride).addr J.p inB i r)

/-- The accumulators of the tile `j`. -/
def acc (j : ℕ) (d : Descriptor) : ℕ → ℕ → Word := ((J.after j).load J.p J.stride d).acc J.p d

/-- The lines of the tile `j`. -/
def outLine (j : ℕ) (d : Descriptor) : ℕ → Line :=
  resultLine J.p J.conf.int8Mode J.conf.outShift (J.acc j d)

/-- A batch that can be run: its lengths are within bounds, its operands are not written by it, and no
    tile is prefetched into the panel that the one before it works with. -/
structure Good : Prop where
  dim : J.p.GoodDim
  maxK : J.p.maxK ≤ 128
  kLen : ∀ d ∈ J.ds, 1 ≤ d.kLen ∧ d.kLen ≤ J.p.maxK
  apart : Descriptor.Apart J.p J.stride J.conf J.ds
  panels : PanelsKept J.p J.ds
  fits : J.conf.Fits J.p

variable {J} {j : ℕ} {d : Descriptor}

theorem after_succ (hd : J.ds[j]? = some d) : J.after (j + 1) = (J.after j).tile J.p J.stride J.conf d :=
  TileState.run_take_succ hd _

theorem Good.mem_after (h : J.Good) (hd : d ∈ J.ds) {y : Word} (hy : d.Operand J.p J.stride y) (j : ℕ) :
    (J.after j).mem y = J.start.mem y :=
  TileState.mem_run h.apart (List.take_subset _ _) hd hy _

/-- A load leaves the buffers as the tiles before and its own leave them. -/
theorem Good.loadRows_eq (h : J.Good) (hd : J.ds[j]? = some d) :
    loadRows J.p.dim ((d.loadConfig J.p J.stride).lines J.p) 0 (J.line d false) (J.after j).aMem
        (if d.bOnly then 0 else J.p.dim * (d.loadConfig J.p J.stride).lines J.p) =
          (J.after (j + 1)).aMem ∧
      loadRows J.p.dim ((d.loadConfig J.p J.stride).lines J.p)
        (J.p.bAddr (d.panelLoad J.p) 0) (J.line d true)
        (J.after j).bMem (J.p.dim * (d.loadConfig J.p J.stride).lines J.p) = (J.after (j + 1)).bMem := by
  have hmem := List.mem_of_getElem? hd
  have hline : ∀ inB i r, (inB = true ∨ d.bOnly = false) → i < J.p.dim →
    r < (d.loadConfig J.p J.stride).lines J.p →
      J.line d inB i r = (J.after j).mem.line ((d.loadConfig J.p J.stride).addr J.p inB i r) := by
    intro inB i r hb hi hr
    refine (Mem.line_congr fun y hy => ?_).symm
    exact h.mem_after hmem ⟨inB, i, r, hb, hi, hr, hy⟩ j
  obtain ⟨hA, hB⟩ := TileState.loadRows_load (J.after j) d
  rw [after_succ hd]
  refine ⟨Eq.trans ?_ hA, Eq.trans ?_ hB⟩
  · refine loadRows_congr fun i r hi hr hk => hline false i r (.inr ?_) hi hr
    cases hb : d.bOnly
    · rfl
    · rw [hb] at hk
      exact absurd hk (Nat.not_lt_zero _)
  · exact loadRows_congr fun i r hi hr _ => hline true i r (.inl rfl) hi hr

variable {s : MmAccel} {i : MmInputs} {x : Option Transfer}

/-! ## The load engine -/

/-- The load engine rests, with the operands of the first `b` tiles in the buffers. -/
structure LoadRests (J : Job) (b : ℕ) (s : MmAccel) (x : Option Transfer) : Prop where
  busy : s.ld.ldBusy = false
  free : x = none
  aMem : s.buf.aMem = (J.after b).aMem
  bMem : s.buf.bMem = (J.after b).bMem

/-- The operands of the tile `b` are being loaded. -/
structure LoadBusy (J : Job) (b : ℕ) (d : Descriptor) (s : MmAccel) (x : Option Transfer) : Prop where
  load : Loading J.p (J.line d) (d.loadConfig J.p J.stride) ⟨(J.after b).aMem, (J.after b).bMem,
    fun _ => 0, fun _ => 0⟩ s x
  bOnly : s.ld.ldBOnly = d.bOnly

/-- A line that comes in is one of the memory before the batch, if it is an operand. -/
def Reads (J : Job) (i : MmInputs) (x : Option Transfer) : Prop :=
  i.memRdReady → ∃ t, x = some t ∧
    ∀ d ∈ J.ds, (∀ y, lineNo y = lineNo t.next → d.Operand J.p J.stride y) →
    i.memRline = J.start.mem.line t.next

/-- Nothing is captured while no load runs. -/
theorem nextBuf_of_no_push (hA : s.pushA i = false) (hB : s.pushB i = false)
    (hb : s.ld.ldBusy = false) (p : MmParams) :
    (s.next p i).buf.aMem = s.buf.aMem ∧ (s.next p i).buf.bMem = s.buf.bMem := by
  have hw : ∀ l, s.laneWrite p i l = none := by
    intro l
    simp [laneWrite, captures, hb, hA, hB]
  refine ⟨?_, ?_⟩
  · rw [next_buf, nextBuf, OperandBuffers.next]
    simp only [hw]
  · rw [next_buf, nextBuf, OperandBuffers.next]
    simp only [hw]

theorem nextBuf_of_rests (hc : s.Calm i) (hb : s.ld.ldBusy = false) (p : MmParams) :
    (s.next p i).buf.aMem = s.buf.aMem ∧ (s.next p i).buf.bMem = s.buf.bMem :=
  nextBuf_of_no_push (hc.writesCfg 5) (hc.writesCfg 6) hb p

/-- The load engine rests on, unless it is started, or software pushes into the buffers. -/
theorem LoadRests.hold {b : ℕ} (h : LoadRests J b s x) (hr : s.softRstPulse i = false)
    (hA : s.pushA i = false)
    (hB : s.pushB i = false) (hs : s.ldStartAny i = false) (grant ready : Bool) :
    LoadRests J b (s.next J.p i) (s.rdNext J.p grant ready x) ∧
    (s.next J.p i).ld.ldDone = s.ld.ldDone := by
  have hld : (s.next J.p i).ld = s.ld := by
    rw [next_ld, nextLd, nextLd', hr, hs, h.busy]
    rfl
  obtain ⟨hA, hB⟩ := nextBuf_of_no_push hA hB h.busy J.p
  refine ⟨⟨by rw [hld, h.busy], ?_, hA.trans h.aMem, hB.trans h.bMem⟩, by rw [hld]⟩
  simp [h.free, rdNext, memRdReqValid, h.busy]

theorem LoadRests.next {b : ℕ} (h : LoadRests J b s x) (hc : s.Calm i) (hs : s.ldStartAny i = false)
    (grant ready : Bool) :
    LoadRests J b (s.next J.p i) (s.rdNext J.p grant ready x) ∧ (s.next J.p i).ld.ldDone = s.ld.ldDone :=
  h.hold hc.reset (hc.writesCfg 5) (hc.writesCfg 6) hs grant ready

/-- A load is started. -/
theorem LoadRests.start {b : ℕ} (h : LoadRests J b s x) (hc : s.Calm i) (hs : s.ldStartAny i)
    (ha : s.adopted J.p = none) (hconf : s.loadConfig = d.loadConfig J.p J.stride)
    (hb : s.q.qBOnly = d.bOnly)
    (grant ready : Bool) : LoadBusy J b d (s.next J.p i) (s.rdNext J.p grant ready x) := by
  obtain ⟨hA, hB⟩ := nextBuf_of_rests hc h.busy J.p
  have hx : s.rdNext J.p grant ready x = none := by simp [h.free, rdNext, memRdReqValid, h.busy]
  have hcf : (s.next J.p i).loadConfig = d.loadConfig J.p J.stride := by
    rw [hc.loadConfig_next, ha]
    exact hconf
  obtain ⟨hl, hbo, -⟩ := loading_of_ldStartAny (p := J.p) (J.line d) hs hc.reset
  rw [hcf] at hl
  rw [hx]
  refine ⟨{ hl with aMem := ?_, bMem := ?_ }, hbo.trans ((hc.startsBOnly hs).trans hb)⟩
  · rw [hl.aMem, hA, h.aMem]
  · rw [hl.bMem, hB, h.bMem]

/-- One edge of a load: it goes on, or the operands are there. -/
theorem LoadBusy.next {b : ℕ} (h : LoadBusy J b d s x) (hJ : J.Good)
    (hd : J.ds[b]? = some d) (hc : s.Calm i)
    (hs : s.ldStartAny i = false) (ha : s.adopted J.p = none) (hr : J.Reads i x) (grant : Bool) :
    (LoadBusy J b d (s.next J.p i) (s.rdNext J.p grant i.memRdReady x) ∧
        (s.next J.p i).aCount J.p + (s.next J.p i).bCount J.p =
          s.aCount J.p + s.bCount J.p + i.memRdReady.toNat) ∨
      (LoadRests J (b + 1) (s.next J.p i) (s.rdNext J.p grant i.memRdReady x) ∧
        (s.next J.p i).ld.ldDone) := by
  have hl := h.load
  have hprog : LoadProgress J.p (J.line d) (d.loadConfig J.p J.stride) d.bOnly _ s x _ _ :=
    .loading hl h.bOnly rfl rfl
  have hcap : s.captures i = i.memRdReady := by simp [captures, hs, hl.busy]
  have hstep := hprog.next (hc.loadAlone hs ha) hJ.dim hJ.maxK grant fun hready => by
    obtain ⟨t, ht, hline⟩ := hr hready
    refine ⟨t, ht, fun _ hnext => ?_⟩
    have hL := ldLines_of_conf (p := J.p) hl.conf
    have hB : s.ld.ldInB = true ∨ d.bOnly = false := by
      rw [← h.bOnly]
      cases hbo : s.ld.ldBOnly
      · exact .inr rfl
      · exact .inl (hl.bOnly hbo)
    have haddr := hnext.trans (ldNextAddr_of_conf hl.conf)
    rw [hline d (List.mem_of_getElem? hd), haddr]
    · rfl
    · intro y hy
      exact ⟨_, _, _, hB, hl.lane, hL ▸ hl.chunk, haddr ▸ hy⟩
  rw [hcap] at hstep
  cases hstep with
  | loading hl' hb' ht' => exact .inl ⟨⟨hl', hb'⟩, ht'.symm⟩
  | loaded hl' hx' =>
    obtain ⟨hA, hB⟩ := hJ.loadRows_eq hd
    exact .inr ⟨⟨hl'.busy, hx', hl'.aMem.trans hA, hl'.bMem.trans hB⟩, hl'.done⟩

/-! ## The store engine -/

variable {w f : ℕ} {z : Option WriteTransfer} {m m' : Mem}

/-- The store engine rests, with the first `w` tiles in memory. Before the first store there may be
    lines in the FIFO that an earlier one has left there. -/
structure StoreRests (J : Job) (w : ℕ) (s : MmAccel) (z : Option WriteTransfer) (m : Mem) : Prop where
  busy : s.st.dmaBusy = false
  fifo : w ≠ 0 → s.st.lineFifo = []
  valid : w ≠ 0 → s.st.fillValid = false
  free : z = none
  mem : m = (J.after w).mem

/-- The tile `w` is being stored: memory holds the lines that have been acknowledged, apart from those of
    the transaction in flight. -/
structure StoreBusy (J : Job) (w : ℕ) (d : Descriptor) (s : MmAccel) (z : Option WriteTransfer)
    (m : Mem) (f : ℕ) :
    Prop where
  store : Storing J.p J.conf d.dest (J.outLine w d) s z f
  mem : ∀ y, (∀ k < J.conf.wBurstLines, z ≠ none →
    lineNo y ≠ lineNo (J.conf.addr J.p d.dest (s.st.dmaSent + k))) →
    m y = writeLines (J.conf.addr J.p d.dest) (J.outLine w d) (J.after w).mem s.st.dmaSent y

/-- An empty FIFO stays empty while nothing is on its way to it. -/
theorem nextFifo_of_empty {p : MmParams} (h : s.st.lineFifo = []) (hv : s.st.fillValid = false) :
    s.nextFifo p i = [] := by
  rw [nextFifo, h, hv]
  simp

theorem StoreRests.hold (h : StoreRests J w s z m) (hr : s.softRstPulse i = false)
    (hs : s.dmaStartAny i = false) {look : Bool} (hw : s.WriteServes i look z m m') (grant : Bool) :
    StoreRests J w (s.next J.p i) (s.wrNext J.p i grant look z) m' := by
  have hn : (s.nextSt J.p i).dmaBusy = false ∧ (s.nextSt J.p i).fillValid = s.fillFire J.p ∧
      (s.nextSt J.p i).lineFifo = s.nextFifo J.p i := by
    rw [nextSt, hr, nextSt', hs, h.busy]
    exact ⟨h.busy, rfl, rfl⟩
  refine ⟨hn.1, fun hw => ?_, fun _ => ?_, ?_, (hw.idle h.free).trans h.mem⟩
  · rw [next_st, hn.2.2]
    exact nextFifo_of_empty (h.fifo hw) (h.valid hw)
  · rw [next_st, hn.2.1, fillFire, h.busy]
    rfl
  · simp [h.free, wrNext, memWrReqValid, h.busy]

theorem StoreRests.next (h : StoreRests J w s z m) (hc : s.Calm i)
    (hs : s.dmaStartAny i = false) {look : Bool} (hw : s.WriteServes i look z m m') (grant : Bool) :
    StoreRests J w (s.next J.p i) (s.wrNext J.p i grant look z) m' :=
  h.hold hc.reset hs hw grant

/-- A store starts with an empty FIFO, apart from the first one. -/
theorem StoreRests.lineFifo_next (h : StoreRests J w s z m) (hw : w ≠ 0) (hc : s.Calm i)
    (hs : s.dmaStartAny i) :
    (s.next J.p i).st.lineFifo = [] := by
  rw [next_st, nextSt, hc.reset, nextSt', hs]
  exact nextFifo_of_empty (h.fifo hw) (h.valid hw)

/-- A store is started, with an empty FIFO. -/
theorem StoreRests.start (h : StoreRests J w s z m) (hJ : J.Good) (hc : s.Calm i) (hs : s.dmaStartAny i)
    (hfifo : (s.next J.p i).st.lineFifo = []) (hconf : s.storeConfig J.p = J.conf)
    (hdest : s.regs.destAddr = d.dest)
    {look : Bool} (hw : s.WriteServes i look z m m') (grant : Bool) :
    StoreBusy J w d (s.next J.p i) (s.wrNext J.p i grant look z) m' 0 := by
  have hst : Storing J.p J.conf s.regs.destAddr (J.outLine w d) (s.next J.p i) none 0 :=
    storing_of_dmaStartAny hJ.dim hs hc.reset h.busy hfifo hconf (hc.storeConfig_next.trans hconf)
  have hz : s.wrNext J.p i grant look z = none := by simp [h.free, wrNext, memWrReqValid, h.busy]
  have hsent : (s.next J.p i).st.dmaSent = 0 := by
    have := hst.order
    simp only [popped, entered, Option.map_none, Option.getD_none] at this
    omega
  rw [hdest] at hst
  rw [hz]
  refine ⟨hst, fun y _ => ?_⟩
  rw [hsent, hw.idle h.free, h.mem]
  rfl

/-- The lines of a burst are different ones. -/
theorem lineNo_burst {x : Word} {k k' : ℕ} (hk : k < 256) (hk' : k' < 256)
    (h : lineNo (x + BitVec.ofNat 32 (16 * k)) = lineNo (x + BitVec.ofNat 32 (16 * k'))) : k = k' := by
  have hn := congrArg BitVec.toNat h
  have hx := x.isLt
  rw [lineNo, lineNo, BitVec.extractLsb'_toNat, BitVec.extractLsb'_toNat, Nat.shiftRight_eq_div_pow,
    Nat.shiftRight_eq_div_pow, BitVec.toNat_add, BitVec.toNat_add, BitVec.toNat_ofNat,
    BitVec.toNat_ofNat] at hn
  omega

/-- One edge of a store: it goes on, or the tile is in memory. -/
theorem StoreBusy.next (h : StoreBusy J w d s z m f) (hJ : J.Good) (hd : J.ds[w]? = some d)
    (ha : StoreAlone J.p J.conf (J.outLine w d) s i f) {look : Bool} (hw : s.WriteServes i look z m m')
    (grant : Bool) :
    (∃ f' ≥ f, StoreBusy J w d (s.next J.p i) (s.wrNext J.p i grant look z) m' f') ∨
      (StoreRests J (w + 1) (s.next J.p i) (s.wrNext J.p i grant look z) m' ∧
        (s.next J.p i).st.dmaDone) := by
  have hst := h.store
  have hadd := hJ.fits.add_le hst.dvd hst.sent
  have hle := hJ.fits.le
  -- the transaction covers the lines from `dmaSent` on
  have hat : ∀ t, z = some t → t.lines = J.conf.wBurstLines ∧
      ∀ k < J.conf.wBurstLines, t.at k = J.conf.addr J.p d.dest (s.st.dmaSent + k) := by
    intro t ht
    obtain ⟨h₁, h₂, -⟩ := hst.serve t ht
    refine ⟨h₂, fun k hk => ?_⟩
    rw [WriteTransfer.at, h₁, hst.addr, hJ.fits.addr_add hst.dvd hk]
  have hframe : ∀ y, (∀ k < J.conf.wBurstLines, z ≠ none →
      lineNo y ≠ lineNo (J.conf.addr J.p d.dest (s.st.dmaSent + k))) →
      m' y = writeLines (J.conf.addr J.p d.dest) (J.outLine w d) (J.after w).mem s.st.dmaSent y := by
    intro y hy
    rw [← h.mem y hy]
    rcases z with _ | t
    · rw [hw.idle rfl]
    · refine hw.frame t rfl y fun k hk => ?_
      rw [(hat t rfl).1] at hk
      rw [(hat t rfl).2 k hk]
      exact hy k hk (by simp)
  cases hready : i.memWrReady with
  | false =>
    obtain ⟨f', hf', hst'⟩ := hst.next_hold hJ.fits ha grant hw hready
    have hsent : (s.next J.p i).st.dmaSent = s.st.dmaSent := (ha.nextSt_hold hready).2.2.1
    refine .inl ⟨f', hf', hst', fun y hy => ?_⟩
    rw [hsent] at hy ⊢
    rcases z with _ | t
    · rw [hw.idle rfl]
      exact h.mem y (by simp)
    · refine hframe y fun k hk _ => hy k hk ?_
      rw [wrNext, hready]
      simp
  | true =>
    obtain ⟨t, rfl, -⟩ := hw.ready hready
    obtain ⟨-, -, hlines, -⟩ := hst.ready_cases hw hready
    have hz : s.wrNext J.p i grant look (some t) = none := by rw [wrNext, hready, if_pos rfl]
    have hmem : m' = writeLines (J.conf.addr J.p d.dest) (J.outLine w d) (J.after w).mem
        (s.st.dmaSent + J.conf.wBurstLines) := by
      refine eq_writeLines_add (fun k hk k' hk' he => ?_) (fun k hk => ?_) fun y hy =>
        hframe y fun k hk _ => hy k hk
      · rw [← hJ.fits.addr_add hst.dvd hk, ← hJ.fits.addr_add hst.dvd hk'] at he
        exact lineNo_burst (by omega) (by omega) he
      · rw [← (hat t rfl).2 k hk, hlines k hk]
    rw [hz]
    by_cases hlt : s.st.dmaSent + J.conf.wBurstLines < J.conf.nGroupsEff
    · obtain ⟨f', hf', hst', hsent⟩ := hst.next_ready hJ.fits ha hw hready hlt
      exact .inl ⟨f', hf', hst', fun y _ => by rw [hsent, hmem]⟩
    · obtain ⟨h₁, h₂, h₃, h₄⟩ := hst.finish hJ.fits ha hw hready hlt
      refine .inr ⟨⟨h₁, fun _ => h₃, fun _ => h₄, rfl, ?_⟩, h₂⟩
      rw [hmem, show s.st.dmaSent + J.conf.wBurstLines = J.conf.nGroupsEff by omega, after_succ hd]
      rfl

/-! ## The array -/

/-- The rows of A that the tile `j` works on. -/
def rows (J : Job) (j : ℕ) (d : Descriptor) (i k : ℕ) : Byte :=
  rowByte (((J.after j).load J.p J.stride d).aMem i (k / 16)) k

/-- The columns of B. -/
def cols (J : Job) (j : ℕ) (d : Descriptor) (l k : ℕ) : Byte :=
  rowByte (((J.after j).load J.p J.stride d).bMem l (J.p.bAddr (d.panelUse J.p) (k / 16))) k

/-- The registers of the array and of the store are those of the descriptor `d`. -/
structure Current (J : Job) (d : Descriptor) (s : MmAccel) : Prop where
  kLen : s.regs.kLen = d.kLen
  panel : s.regs.bPanelUse = d.panelUse J.p
  dest : s.regs.destAddr = d.dest

/-- The array is on the cycle `t` of the tile `j`. -/
structure Computing (J : Job) (j : ℕ) (d : Descriptor) (s : MmAccel) (t : ℕ) : Prop where
  feed : Feeding J.p d.kLen (d.panelUse J.p) (J.rows j d) (J.cols j d) t s
  lt : t < d.kLen + 2 * (J.p.dim - 1)

/-- The array rests with the tile `j` in its accumulators. -/
structure Computed (J : Job) (j : ℕ) (d : Descriptor) (s : MmAccel) : Prop where
  done : s.arr.done = true
  rests : s.Rests s.arr.acc
  acc : ∀ i < J.p.dim, ∀ l < J.p.dim, s.arr.acc i l = J.acc j d i l

theorem computing_of_start (hJ : J.Good) (hd : J.ds[j]? = some d) (hc : s.Calm i) (hs : s.startAny i)
    (hcur : J.Current d s) (hl : LoadRests J (j + 1) s x) : Computing J j d (s.next J.p i) 0 := by
  obtain ⟨hA, hB⟩ := nextBuf_of_rests hc hl.busy J.p
  have hf := feeding_of_startAny (p := J.p) (K := d.kLen) hc.reset hs hcur.panel
  have hrows : (s.next J.p i).buf.aByte = J.rows j d := by
    funext l k
    rw [OperandBuffers.aByte, hA, hl.aMem, after_succ hd]
    rfl
  have hcols : (s.next J.p i).buf.bByte J.p (d.panelUse J.p) = J.cols j d := by
    funext l k
    rw [OperandBuffers.bByte, hB, hl.bMem, after_succ hd]
    rfl
  rw [hrows, hcols] at hf
  have hK := (hJ.kLen d (List.mem_of_getElem? hd)).1
  exact ⟨hf, by omega⟩

/-- One edge of a run: the next cycle, or the tile is there. -/
theorem Computing.next {t : ℕ} (h : Computing J j d s t) (hJ : J.Good) (hd : d ∈ J.ds) (hc : s.Calm i)
    (hs : s.startAny i = false) (hcur : J.Current d s) (hchunk : s.ld.ldChunk < 2 ^ J.p.lplBits)
    (hl : s.captures i → s.ld.ldInB ∧ J.p.panel s.regs.bPanelLoad ≠ J.p.panel (d.panelUse J.p)) :
    Computing J j d (s.next J.p i) (t + 1) ∨ Computed J j d (s.next J.p i) := by
  obtain ⟨hK, hK'⟩ := hJ.kLen d hd
  have hdim := hJ.dim.le
  have hmax := hJ.maxK
  have hlt := h.lt
  have hlast : SystolicArray.lastT J.p d.kLen = d.kLen + 2 * (J.p.dim - 1) - 1 :=
    SystolicArray.lastT_eq J.p (by omega) (by omega) (by omega)
  by_cases he : t = SystolicArray.lastT J.p d.kLen
  · obtain ⟨hdone, hb, hen, hfed⟩ := h.feed.finish (i := i) hcur.kLen he hc.reset hs
    refine .inr ⟨hdone, ⟨hb, hen, fun _ _ => rfl⟩, fun l hl' k hk => ?_⟩
    rw [hfed.acc l k (by omega), dotProduct_upTo (by omega)]
    rfl
  · exact .inl ⟨h.feed.next hcur.kLen hcur.panel hchunk hK' (by omega) he hc.reset hs hl, by omega⟩

theorem Computed.next (h : Computed J j d s) (hc : s.Calm i) (hs : s.startAny i = false) :
    Computed J j d (s.next J.p i) ∧ (s.next J.p i).arr.acc = s.arr.acc := by
  have hr := h.rests.next (p := J.p) hs
  have hacc : (s.next J.p i).arr.acc = s.arr.acc := funext fun l => funext fun k => hr.acc l k
  refine ⟨⟨?_, hacc ▸ hr, hacc ▸ h.acc⟩, hacc⟩
  rw [next_arr, hc.reset, hs, SystolicArray.next]
  simp [h.done]

theorem lineOfBytes_congr {f g : ℕ → Byte} (h : ∀ b < 16, f b = g b) :
    lineOfBytes f = lineOfBytes g := by
  unfold lineOfBytes
  refine congrArg _ (funext fun k => ?_)
  have hk := k.isLt
  rw [h _ (by omega), h _ (by omega), h _ (by omega), h _ (by omega)]

/-- The lines of a tile depend on the accumulators of the array. -/
theorem resultLine_congr {p : MmParams} (hd : p.GoodDim) {int8 : Bool} {outShift k : ℕ}
    {acc acc' : ℕ → ℕ → Word}
    (h : ∀ i < p.dim, ∀ l < p.dim, acc i l = acc' i l) (h8 : int8 = true → p.int8Capable = true)
    (hk : k < if int8 then p.nGroups8 else p.nGroups) :
    resultLine p int8 outShift acc k = resultLine p int8 outShift acc' k := by
  unfold resultLine
  have hw : ∀ w : BitVec 2, w.toNat < 4 := fun w => w.isLt
  cases int8
  · rw [if_neg Bool.false_ne_true] at hk
    rw [if_neg Bool.false_ne_true, if_neg Bool.false_ne_true]
    rcases hd.cases with ⟨h₀, h₁, -⟩ | ⟨h₀, h₁, h₂, -⟩ |
      ⟨h₀, h₁, h₂, -⟩ | ⟨h₀, h₁, h₂, -⟩
    · rw [if_pos h₁, if_pos h₁]
      refine congrArg _ (funext fun w => h _ ?_ _ ?_) <;> have := hw w <;> rw [h₀] <;> omega
    all_goals
      rw [if_neg (by omega), if_neg (by omega), h₂]
      refine congrArg _ (funext fun w => h _ ?_ _ ?_) <;> have := hw w <;> omega
  · rw [if_pos rfl] at hk
    rw [if_pos rfl, if_pos rfl]
    refine lineOfBytes_congr fun b hb => congrArg _ (h _ ?_ _ (Nat.mod_lt _ p.dim_pos))
    rcases hd.cases with ⟨-, -, -, h', -⟩ | ⟨h₀, -, -, -, -, h₁, h₂, -⟩ |
      ⟨h₀, -, -, -, -, h₁, h₂, -⟩ |
        ⟨h₀, -, -, -, -, h₁, h₂, -⟩
    · rw [h8 rfl] at h'
      cases h'
    all_goals
      rw [h₀, h₁]
      omega

/-- Nothing interferes with a store that only the sequencer could start, as long as the array keeps what
    has not been taken from it. -/
theorem storeAlone_of_storing (hst : Storing J.p J.conf d.dest (J.outLine w d) s z f)
    (hJ : J.Good) (hc : s.Calm i)
    (hs : s.dmaStartAny i = false) (hacc : f < J.conf.nGroupsEff → Computed J w d s ∧
      s.startAny i = false) :
    StoreAlone J.p J.conf (J.outLine w d) s i f := by
  refine ⟨hc.reset, hs, hc.storeConfig_next.trans hst.conf, fun hfire => ?_⟩
  have hf : f < J.conf.nGroupsEff := of_decide_eq_true (hst.fillFire_eq hJ.fits ▸ hfire)
  obtain ⟨hcomp, ha⟩ := hacc hf
  obtain ⟨-, hsame⟩ := hcomp.next hc ha
  rw [lineOut_next hJ.dim hst.conf (hc.storeConfig_next.trans hst.conf) hf (hst.fillGrp hf) hsame]
  have hm : s.int8Mode J.p = J.conf.int8Mode := congrArg StoreConfig.int8Mode hst.conf
  have hN : J.conf.nGroupsEff = if J.conf.int8Mode then J.p.nGroups8 else J.p.nGroups := by
    rw [← hm, ← hst.conf]
    rfl
  exact resultLine_congr hJ.dim hcomp.acc (fun h8 => (Bool.and_eq_true_iff.1 (hm.trans h8)).1) (hN ▸ hf)

end Job

end Rv32Soc
