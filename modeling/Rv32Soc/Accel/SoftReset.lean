import Rv32Soc.Accel.MmSystem

/-!
# A batch after a soft reset

`SOFT_RST` stops the engines of the accelerator, but not the arbiter and the AXI engine: what they
have taken over is served on, and its completions carry no tag. A batch that is kicked later can
find such a read, or such a write, or the lines of an earlier store in the FIFO.

* `SystemBatch`: a batch in front of the arbiter, the engines and the memory. What comes in before its
  first load (its first store) begins is of no consequence (`next_masked`), and from then on the channels
  are those that the accelerator expects (`SystemBatch.until_of_qDone`);
* `Settles`: what is still in flight is through when the first load, or the first store, begins.
  Nothing in flight is a case of it (`LaterBatch.settles_of_quiet`);
* `isolated_of_run`: a batch after a soft reset then leaves memory as its tiles do, one after another;
* `isolated_late`: it does not if a read is answered too late.
-/

namespace Rv32Soc

open MmAccel AxiRw

namespace Job

variable {J : Job} {s : MmAccel} {i : MmInputs} {x : Option Transfer} {z : Option WriteTransfer}
  {m : Mem} {l k w : ℕ}

/-! ## What is being stored -/

/-- A tile is being stored, the last one of those that have been started. -/
def Underway (J : Job) (s : MmAccel) (z : Option WriteTransfer) (m : Mem) (w : ℕ) : Prop :=
  ∃ c d f, w = c + 1 ∧ J.ds[c]? = some d ∧ StoreBusy J c d s z m f

theorem Tail.underway (h : Tail J s z m w) : s.st.dmaBusy = false ∧ z = none ∨ Underway J s z m w := by
  cases h with
  | rests h => exact .inl ⟨h.busy, h.free⟩
  | busy hd h => exact .inr ⟨_, _, _, rfl, hd, h⟩

/-- In each phase the store engine rests, or a tile is being stored that the sequencer has left in
    `qStore`. -/
theorem Phase.underway (h : Phase J s x z m l k w) :
    s.st.dmaBusy = false ∧ z = none ∨ s.q.qState ≠ .qStore ∧ Underway J s z m w := by
  cases h with
  | idle hq _ _ tail => exact tail.underway.imp_right fun h => ⟨by simp [hq], h⟩
  | load hq _ _ _ _ _ _ _ _ tail => exact tail.underway.imp_right fun h => ⟨by simp [hq], h⟩
  | loadW hq _ _ _ _ _ _ _ tail => exact tail.underway.imp_right fun h => ⟨by simp [hq], h⟩
  | preIssue hq _ _ _ _ _ tail => exact tail.underway.imp_right fun h => ⟨by simp [hq], h⟩
  | comp hq _ _ _ tail => exact tail.underway.imp_right fun h => ⟨by simp [hq], h⟩
  | compW hq _ _ _ _ tail => exact tail.underway.imp_right fun h => ⟨by simp [hq], h⟩
  | store hq _ _ _ _ store => exact .inl ⟨store.busy, store.free⟩
  | storeW hq hd _ store =>
    rcases store with ⟨f, h, -⟩ | ⟨h, -⟩
    · exact .inr ⟨by simp [hq], _, _, f, rfl, hd, h⟩
    · exact .inl ⟨h.busy, h.free⟩
  | preW hq _ tail => exact tail.underway.imp_right fun h => ⟨by simp [hq], h⟩

/-- The line `k` of the transaction that is served or asked for, `w` stores having been started. -/
def presented (J : Job) (w : ℕ) (s : MmAccel) (k : ℕ) : Line :=
  (J.ds[w - 1]?).elim 0 fun d => J.outLine (w - 1) d (s.st.dmaSent + k)

theorem Underway.presented_eq (h : Underway J s z m w) :
    ∃ d f, StoreBusy J (w - 1) d s z m f ∧
      ∀ k, J.presented w s k = J.outLine (w - 1) d (s.st.dmaSent + k) := by
  obtain ⟨c, d, f, rfl, hd, h⟩ := h
  exact ⟨d, f, h, fun k => by simp [presented, hd]⟩

/-- The next line of a transaction is there. -/
theorem Underway.memWline {t : WriteTransfer} (h : Underway J s (some t) m w) :
    s.memWline = J.presented w s t.pos := by
  obtain ⟨d, f, hb, hp⟩ := h.presented_eq
  have hlt := (hb.store.serve t rfl).2.2.2.2.2.2
  rw [hb.store.has_line hlt, hp]
  rfl

/-- A transaction is asked for when there is a line. -/
theorem Underway.memWline_of_valid (h : Underway J s none m w) (hv : s.memWrReqValid = true) :
    s.memWline = J.presented w s 0 := by
  obtain ⟨d, f, hb, hp⟩ := h.presented_eq
  rw [hb.store.has_line (hb.store.popped_lt hv), hp]
  rfl

/-- The lines of a transaction are the same until it ends. -/
theorem presented_next (hc : s.Calm i) (hq : s.q.qState ≠ .qStore) (hr : i.memWrReady = false) :
    s.dmaStartAny i = false ∧ J.presented w (s.next J.p i) = J.presented w s := by
  have hs : s.dmaStartAny i = false := by rw [hc.dmaStartAny, beq_false_of_ne hq]
  have hsent : (s.next J.p i).st.dmaSent = s.st.dmaSent := by
    rw [next_st, nextSt, hc.reset, nextSt', hs, hr, Bool.and_false]
    rfl
  refine ⟨hs, funext fun k => ?_⟩
  rw [presented, presented, hsent]

end Job

/-! ## A batch so far -/

namespace BatchUntil

variable {e : ℕ} {p : MmParams} {ds : List Descriptor} {σ : ℕ → MmAccel} {ι : ℕ → MmInputs}
  {χ : ℕ → Option Transfer} {ζ : ℕ → Option WriteTransfer} {μ : ℕ → Mem}

/-- The stores that have been started. -/
def stores (σ : ℕ → MmAccel) (ι : ℕ → MmInputs) (n : ℕ) : List Word :=
  started (fun j => (σ j).dmaStartAny (ι j)) (fun j => (σ j).regs.destAddr) n

/-- The phase of the batch on the cycle `e`. -/
theorem exists_phase (h : BatchUntil e p ds σ ι χ ζ μ) (hJ : (BatchRun.job p ds σ μ).Good) (he : 0 < e)
    (hno : ∀ k, 0 < k → k ≤ e → (σ k).q.qDone = false) :
    ∃ l k w, (BatchRun.job p ds σ μ).Phase (σ e) (χ e) (ζ e) (μ e) l k w ∧
      stores σ ι e = (ds.take w).map Descriptor.dest := by
  obtain ⟨⟨l, k, w, hphase, -, hstarted⟩, -⟩ := h.running_of_run hJ he le_rfl hno
  exact ⟨l, k, w, hphase, hstarted.stores⟩

end BatchUntil

/-! ## Completions of what is older than the batch -/

/-- Something has been started before the cycle `n`. -/
def begun (start : ℕ → Bool) (n : ℕ) : Bool := (List.range n).any start

section

variable {start : ℕ → Bool} {n m : ℕ}

theorem begun_succ : begun start (n + 1) = (begun start n || start n) := by
  simp [begun, List.range_succ]

theorem begun_eq_false : begun start n = false ↔ ∀ j < n, start j = false := by
  simp [begun]

/-- There is a first start. -/
theorem exists_first (h : begun start n = true) : ∃ m < n, begun start m = false ∧ start m = true := by
  induction n with
  | zero => cases h
  | succ n ih =>
    cases hb : begun start n with
    | true =>
      obtain ⟨m, hm, hfirst⟩ := ih hb
      exact ⟨m, Nat.lt_succ_of_lt hm, hfirst⟩
    | false =>
      rw [begun_succ, hb, Bool.false_or] at h
      exact ⟨n, n.lt_succ_self, hb, h⟩

theorem begun_of_started {α : Type*} {conf : ℕ → α} (h : started start conf n ≠ []) :
    begun start n = true := by
  by_contra hb
  have hno := begun_eq_false.1 (Bool.eq_false_iff.2 hb)
  refine h (List.map_eq_nil_iff.2 (List.filter_eq_nil_iff.2 fun j hj => ?_))
  simp [hno j (List.mem_range.1 hj)]

theorem begun_mono (h : begun start n = true) (hm : n ≤ m) : begun start m = true := by
  simp only [begun, List.any_eq_true, List.mem_range] at h ⊢
  obtain ⟨j, hj, hs⟩ := h
  exact ⟨j, hj.trans_le hm, hs⟩

end

/-- The completions of reads, and those of writes, may be kept from the accelerator. -/
def MmInputs.masked (i : MmInputs) (reads writes : Bool) : MmInputs :=
  { i with
    memRdReady := reads && i.memRdReady
    memWnext := writes && i.memWnext
    memWrReady := writes && i.memWrReady }

namespace MmAccel

variable {p : MmParams} {s : MmAccel} {i : MmInputs}

/-- An engine that rests takes no notice of completions. -/
theorem next_masked {reads writes : Bool} (hr : reads = false → s.ld.ldBusy = false)
    (hw : writes = false → s.st.dmaBusy = false) : s.next p (i.masked reads writes) = s.next p i := by
  have hready : (s.ld.ldBusy && (i.masked reads writes).memRdReady) = (s.ld.ldBusy && i.memRdReady) := by
    cases reads
    · simp [hr rfl]
    · rfl
  have hwready : (s.st.dmaBusy && (i.masked reads writes).memWrReady) =
      (s.st.dmaBusy && i.memWrReady) := by
    cases writes
    · simp [hw rfl]
    · rfl
  have hdeq : s.deqReady (i.masked reads writes) = s.deqReady i := by
    cases writes
    · simp [deqReady, hw rfl]
    · rfl
  have hld : s.nextLd p (i.masked reads writes) = s.nextLd p i := by
    rw [nextLd, nextLd, nextLd', nextLd', hready]
    rfl
  have hcap : s.captures (i.masked reads writes) = s.captures i := by
    rw [captures, captures, Bool.and_assoc, hready, ← Bool.and_assoc]
    rfl
  have hbuf : s.nextBuf p (i.masked reads writes) = s.nextBuf p i := by
    have hlane : s.laneWrite p (i.masked reads writes) = s.laneWrite p i := by
      funext lane
      rw [laneWrite, laneWrite, hcap]
      rfl
    rw [nextBuf, nextBuf, hlane]
    rfl
  have hst : s.nextSt p (i.masked reads writes) = s.nextSt p i := by
    have hfifo : s.nextFifo p (i.masked reads writes) = s.nextFifo p i := by
      rw [nextFifo, nextFifo, hdeq]
    rw [nextSt, nextSt, nextSt', nextSt', hwready, hfifo]
    rfl
  rw [MmAccel.next, MmAccel.next, hld, hbuf, hst]
  rfl

/-- The load engine rests until a load is started. -/
theorem loadRests_next (hs : s.ldStartAny i = false) (hb : s.ld.ldBusy = false) :
    (s.next p i).ld.ldBusy = false := by
  rw [next_ld, nextLd, nextLd', hs, hb]
  cases s.softRstPulse i
  · exact hb
  · rfl

end MmAccel

/-! ## The batch of the system -/

/-- A batch that is kicked on the cycle `k` is not over on the cycle `n`. -/
def GoesOn (x : ℕ → MmSystem) (k n : ℕ) : Prop := ∀ j, k < j → j ≤ n → (x j).acc.q.qDone = false

namespace SystemBatch

variable (p : MmParams) (x : ℕ → MmSystem) (ι : ℕ → MmSystemInputs)

/-- A load, and a store, starts on the cycle `n`. -/
def loadStarts (n : ℕ) : Bool := (x n).acc.ldStartAny ((x n).accIn p (ι n))
def storeStarts (n : ℕ) : Bool := (x n).acc.dmaStartAny ((x n).accIn p (ι n))

/-- The inputs of the accelerator, without the completions that come in before it has started
    anything of its own. -/
def ins (n : ℕ) : MmInputs :=
  ((x n).accIn p (ι n)).masked (begun (loadStarts p x ι) n) (begun (storeStarts p x ι) n)

/-- The read of the batch that is served. -/
def rdOwn (n : ℕ) : Option Transfer := if begun (loadStarts p x ι) n then (x n).rdChan else none

/-- The write of the batch that is served. The channel looks at every line as soon as it is presented. -/
def wrOwn : ℕ → Option WriteTransfer
  | 0 => none
  | n + 1 =>
    (x n).acc.wrNext p (ins p x ι n) ((x n).arb.wGrant ((x n).arbIn p (ι n)) == some .A) true
      (wrOwn n)

/-- The memory of the batch: `mem0` until its first store begins. -/
def memOwn (mem0 : Mem) (n : ℕ) : Mem := if begun (storeStarts p x ι) n then (x n).mem else mem0

end SystemBatch

open SystemBatch in
/-- A batch is started on the cycle `0`. Software leaves the accelerator alone until the batch is
    over, and nothing else is written meanwhile. What is still in flight from before does not last:
    no read is served when the first load begins, and no write when the first store begins, on the
    memory `mem0`; the FIFO is empty by then, and the operands have been left alone. -/
structure SystemBatch (p : MmParams) (TIMEOUT_LIMIT : BitVec 16) (ds : List Descriptor)
    (x : ℕ → MmSystem) (ι : ℕ → MmSystemInputs) (mem0 : Mem) : Prop where
  runs : MmSystem.Runs p TIMEOUT_LIMIT x ι
  writes : ∀ n, (x n).Writes
  reach : (mmAccel p).Reachable (x 0).acc
  queue : (x 0).acc.q.descQ = ds
  rest : (x 0).acc.EnginesRest
  kick : (x 0).acc.Kicks ((x 0).accIn p (ι 0))
  calm : ∀ n > 0, GoesOn x 0 n → (x n).acc.Calm ((x n).accIn p (ι n))
  alone : ∀ n, GoesOn x 0 n → ArbRegs.wReq ((x n).arbIn p (ι n)) .D = false ∧
    (x n).arb.wState ≠ some .D
  firstLoad : ∀ n, GoesOn x 0 n → begun (loadStarts p x ι) n = false → loadStarts p x ι n = true →
    (x (n + 1)).arb.rState ≠ some .A
  firstStore : ∀ n, GoesOn x 0 n → begun (storeStarts p x ι) n = false → storeStarts p x ι n = true →
    (x (n + 1)).arb.wState ≠ some .A ∧ (x (n + 1)).acc.st.lineFifo = [] ∧ (x n).mem = mem0
  kept : ∀ n, begun (storeStarts p x ι) n = false →
    ∀ d ∈ ds, ∀ y, d.Operand p (x 0).acc.regs.srcStride y → (x n).mem y = mem0 y

namespace SystemBatch

variable {p : MmParams} {TIMEOUT_LIMIT : BitVec 16} {ds : List Descriptor} {x : ℕ → MmSystem}
  {ι : ℕ → MmSystemInputs} {mem0 : Mem} {n : ℕ}

/-- The batch, over what it starts from. -/
def job (p : MmParams) (ds : List Descriptor) (x : ℕ → MmSystem) (mem0 : Mem) : Job :=
  BatchRun.job p ds (fun n => (x n).acc) fun _ => mem0

/-- The number of stores that have been started. -/
def tiles (p : MmParams) (x : ℕ → MmSystem) (ι : ℕ → MmSystemInputs) (n : ℕ) : ℕ :=
  (BatchUntil.stores (fun n => (x n).acc) (ins p x ι) n).length

/-- The batch so far, as the accelerator sees it. -/
def Until (p : MmParams) (ds : List Descriptor) (x : ℕ → MmSystem) (ι : ℕ → MmSystemInputs)
    (mem0 : Mem) (n : ℕ) :
    Prop :=
  BatchUntil n p ds (fun n => (x n).acc) (ins p x ι) (rdOwn p x ι) (wrOwn p x ι) (memOwn p x ι mem0)

/-- From its first load on the read channel is that of the arbiter and its engine, and so is the
    write channel from the first store on. -/
structure Linked (p : MmParams) (ds : List Descriptor) (x : ℕ → MmSystem)
    (ι : ℕ → MmSystemInputs) (mem0 : Mem) (n : ℕ) : Prop where
  read : ∃ seen, (x n).Reads seen ∧
    (begun (loadStarts p x ι) n = true → MmSystem.Seen (fun n => (x n).mem) n (x n) seen)
  write : begun (storeStarts p x ι) n = true → wrOwn p x ι n = none ∧ (x n).arb.wState = none ∨
    ∃ t mem₁, wrOwn p x ι n = some t ∧
      (x n).Serves t ((job p ds x mem0).presented (tiles p x ι n) (x n).acc) mem₁

section

variable (h : SystemBatch p TIMEOUT_LIMIT ds x ι mem0)

include h

theorem ldBusy_eq_false (hl : begun (loadStarts p x ι) n = false) : (x n).acc.ld.ldBusy = false := by
  induction n with
  | zero => exact h.rest.load
  | succ n ih =>
    rw [begun_succ, Bool.or_eq_false_iff] at hl
    rw [h.runs.next n]
    exact loadRests_next hl.2 (ih hl.1)

theorem dmaBusy_eq_false (hs : begun (storeStarts p x ι) n = false) : (x n).acc.st.dmaBusy = false := by
  induction n with
  | zero => exact h.rest.store
  | succ n ih =>
    rw [begun_succ, Bool.or_eq_false_iff] at hs
    rw [h.runs.next n]
    exact (storeRests_next hs.2 (ih hs.1)).1

/-- The accelerator takes no notice of what is kept from it. -/
theorem acc_next (n : ℕ) : (x (n + 1)).acc = (x n).acc.next p (ins p x ι n) := by
  rw [h.runs.next n, ins, next_masked h.ldBusy_eq_false h.dmaBusy_eq_false]
  rfl

/-- Before the first store the batch has written nothing. -/
theorem wrOwn_eq_none (hs : begun (storeStarts p x ι) n = false) :
    wrOwn p x ι n = none ∧ (x n).acc.wrNext p (ins p x ι n)
      ((x n).arb.wGrant ((x n).arbIn p (ι n)) == some .A) true none = none := by
  have hnext : ∀ n, begun (storeStarts p x ι) n = false → (x n).acc.wrNext p (ins p x ι n)
      ((x n).arb.wGrant ((x n).arbIn p (ι n)) == some .A) true none = none := fun n hs => by
    simp [wrNext, memWrReqValid, h.dmaBusy_eq_false hs]
  refine ⟨?_, hnext n hs⟩
  induction n with
  | zero => rfl
  | succ n ih =>
    rw [begun_succ, Bool.or_eq_false_iff] at hs
    rw [wrOwn, ih hs.1, hnext n hs.1]

/-- The store engine rests, or a tile is being stored. -/
theorem underway (hJ : (job p ds x mem0).Good) (hu : Until p ds x ι mem0 n) (hno : GoesOn x 0 n) :
    (x n).acc.st.dmaBusy = false ∧ wrOwn p x ι n = none ∨
      0 < n ∧ (x n).acc.q.qState ≠ .qStore ∧
        (job p ds x mem0).Underway (x n).acc (wrOwn p x ι n) (memOwn p x ι mem0 n) (tiles p x ι n) := by
  rcases Nat.eq_zero_or_pos n with rfl | hn
  · exact .inl ⟨h.rest.store, rfl⟩
  · obtain ⟨l, k, w, hphase, hstores⟩ := hu.exists_phase hJ hn hno
    refine hphase.underway.imp_right fun hway => ?_
    obtain ⟨hq, hu⟩ := hway
    have hw : tiles p x ι n = w := by
      obtain ⟨c, d, -, rfl, hd, -⟩ := hu
      have hlt : c < ds.length := (List.getElem?_eq_some_iff.1 hd).1
      rw [tiles, hstores, List.length_map, List.length_take, Nat.min_eq_left hlt]
    rw [hw]
    exact ⟨hn, hq, hu⟩

/-- The lines that are presented stay the same while a transaction goes on. -/
theorem presented_next (hno : GoesOn x 0 n) (hn : 0 < n) (hq : (x n).acc.q.qState ≠ .qStore)
    (hr : (ins p x ι n).memWrReady = false) :
    (job p ds x mem0).presented (tiles p x ι (n + 1)) (x (n + 1)).acc =
      (job p ds x mem0).presented (tiles p x ι n) (x n).acc := by
  have hc : (x n).acc.Calm (ins p x ι n) := ⟨(h.calm n hn hno).write⟩
  obtain ⟨hstart, hp⟩ := Job.presented_next (J := job p ds x mem0) (w := tiles p x ι n) hc hq hr
  have hstart : (x n).acc.dmaStartAny (ins p x ι n) = false := hstart
  have ht : tiles p x ι (n + 1) = tiles p x ι n := by
    rw [tiles, BatchUntil.stores, started_succ, hstart, if_neg Bool.false_ne_true, List.append_nil]
    rfl
  rw [ht, h.acc_next n]
  exact hp

/-- Where the write channel of the batch is that of the arbiter, it stays so. -/
theorem write_next (hno : GoesOn x 0 n) (hs₀ : begun (storeStarts p x ι) n = true)
    (hway : (x n).acc.st.dmaBusy = false ∧ wrOwn p x ι n = none ∨
      0 < n ∧ (x n).acc.q.qState ≠ .qStore ∧
        (job p ds x mem0).Underway (x n).acc (wrOwn p x ι n) (memOwn p x ι mem0 n) (tiles p x ι n))
    (hwrite : wrOwn p x ι n = none ∧ (x n).arb.wState = none ∨ ∃ t mem₁, wrOwn p x ι n = some t ∧
      (x n).Serves t ((job p ds x mem0).presented (tiles p x ι n) (x n).acc) mem₁) :
    (x n).acc.WriteServes (ins p x ι n) true (wrOwn p x ι n) (x n).mem (x (n + 1)).mem ∧
      (wrOwn p x ι (n + 1) = none ∧ (x (n + 1)).arb.wState = none ∨
        ∃ t mem₁, wrOwn p x ι (n + 1) = some t ∧
        (x (n + 1)).Serves t ((job p ds x mem0).presented (tiles p x ι (n + 1))
          (x (n + 1)).acc) mem₁) := by
  have hw := h.writes n
  have hto := h.runs.wrTimeout n
  have hready : (ins p x ι n).memWrReady = ((x n).accIn p (ι n)).memWrReady := by
    simp [ins, MmInputs.masked, hs₀]
  have hwnext : (ins p x ι n).memWnext = ((x n).accIn p (ι n)).memWnext := by
    simp [ins, MmInputs.masked, hs₀]
  -- to the write channel the inputs are the same
  have hserve : ∀ z m', (x n).acc.WriteServes ((x n).accIn p (ι n)) true z (x n).mem m' →
      (x n).acc.WriteServes (ins p x ι n) true z (x n).mem m' := fun z m' hz =>
    ⟨hwnext ▸ hready ▸ hz.wnext, hready ▸ hz.ready, hz.idle, hz.frame⟩
  have hchan : ∀ z grant, (x n).acc.wrNext p (ins p x ι n) grant true z =
      (x n).acc.wrNext p ((x n).accIn p (ι n)) grant true z := fun z grant => by
    cases z <;> simp [wrNext, hready, hwnext]
  rw [wrOwn, hchan]
  rcases hwrite with ⟨hz, hs⟩ | ⟨t, mem₁, hz, hs⟩
  · rw [hz, h.runs.next n]
    refine ⟨hserve _ _ (hw.writeServes_none TIMEOUT_LIMIT hs true), ?_⟩
    have hst : ((x n).next p TIMEOUT_LIMIT (ι n)).arb.wState =
        (x n).arb.wGrant ((x n).arbIn p (ι n)) := by
      rw [MmSystem.wState_next, hs]
      rfl
    cases hg : (x n).arb.wGrant ((x n).arbIn p (ι n)) with
    | none => exact .inl ⟨rfl, hst.trans hg⟩
    | some q =>
      cases q with
      | D => exact absurd ((wReq_of_wGrant hg).symm.trans (h.alone n hno).1) (by simp)
      | A =>
        -- there is a request, so a tile is being stored
        have hv : (x n).acc.memWrReqValid = true := wReq_of_wGrant hg
        obtain ⟨hb, -⟩ | ⟨hn, hq, hu⟩ := hway
        · simp [memWrReqValid, hb] at hv
        · rw [hz] at hu
          have hready : (ins p x ι n).memWrReady = false := by simp [hready, MmSystem.memWrReady_eq, hs]
          obtain ⟨hnext, hserves⟩ :=
            hw.serves_of_wGrant TIMEOUT_LIMIT hto hs hg (hu.memWline_of_valid hv)
          have hpres := h.presented_next hno hn hq hready
          rw [h.runs.next n] at hpres
          rw [hpres]
          exact .inr ⟨_, _, hnext, hserves⟩
  · obtain ⟨-, hnone⟩ | ⟨hn, hq, hu⟩ := hway
    · rw [hz] at hnone
      cases hnone
    rw [hz] at hu
    have hp := hu.memWline
    rw [hz, h.runs.next n]
    refine ⟨hserve _ _ (hs.writeServes TIMEOUT_LIMIT hw hp), ?_⟩
    cases hr : (x n).wr.wrReady with
    | true =>
      obtain ⟨h₁, h₂⟩ := hs.done TIMEOUT_LIMIT hr _ _
      exact .inl ⟨h₁, h₂⟩
    | false =>
      have hready : (ins p x ι n).memWrReady = false := by simp [hready, MmSystem.memWrReady_eq, hr]
      obtain ⟨t', hnext, -, hserves⟩ := hs.next hw hp hto hr _
      have hpres := h.presented_next hno hn hq hready
      rw [h.runs.next n] at hpres
      rw [hpres]
      exact .inr ⟨t', mem₁, hnext, hserves⟩

/-- When the first store begins nothing is being written. -/
theorem first_store (hno : GoesOn x 0 n) (hs₀ : begun (storeStarts p x ι) n = false)
    (hs : storeStarts p x ι n = true) : (x (n + 1)).arb.wState = none ∧ (x (n + 1)).mem = mem0 := by
  obtain ⟨hA, -, hmem⟩ := h.firstStore n hno hs₀ hs
  obtain ⟨hreq, hD⟩ := h.alone n hno
  have hD : (x (n + 1)).arb.wState ≠ some .D := by
    rw [h.runs.next n]
    exact MmSystem.wState_ne_D_next hD hreq
  have hnone : (x (n + 1)).arb.wState = none := by
    cases hw : (x (n + 1)).arb.wState with
    | none => rfl
    | some q =>
      cases q with
      | A => exact absurd hw hA
      | D => exact absurd hw hD
  refine ⟨hnone, Eq.trans ?_ hmem⟩
  rw [h.runs.next n] at hnone ⊢
  exact (h.writes n).mem_next hnone

/-- The write channel of the batch on a cycle, and how it goes on. -/
theorem writes_next (hJ : (job p ds x mem0).Good) (hu : Until p ds x ι mem0 n)
    (hl : Linked p ds x ι mem0 n) (hno : GoesOn x 0 n) :
    (x n).acc.WriteServes (ins p x ι n) true (wrOwn p x ι n) (memOwn p x ι mem0 n)
      (memOwn p x ι mem0 (n + 1)) ∧
      (begun (storeStarts p x ι) (n + 1) = true → wrOwn p x ι (n + 1) = none ∧
        (x (n + 1)).arb.wState = none ∨
        ∃ t mem₁, wrOwn p x ι (n + 1) = some t ∧
          (x (n + 1)).Serves t ((job p ds x mem0).presented (tiles p x ι (n + 1))
            (x (n + 1)).acc) mem₁) := by
  rw [memOwn, memOwn, begun_succ]
  cases hs₀ : begun (storeStarts p x ι) n with
  | true =>
    obtain ⟨h₁, h₂⟩ := h.write_next hno hs₀ (h.underway hJ hu hno) (hl.write hs₀)
    exact ⟨h₁, fun _ => h₂⟩
  | false =>
    obtain ⟨hz, hnext⟩ := h.wrOwn_eq_none hs₀
    have hmask : (ins p x ι n).memWnext = false ∧ (ins p x ι n).memWrReady = false := by
      simp [ins, MmInputs.masked, hs₀]
    have hmem : (if (false || storeStarts p x ι n) = true then (x (n + 1)).mem else mem0) = mem0 := by
      cases hs : storeStarts p x ι n with
      | false => rfl
      | true => exact (h.first_store hno hs₀ hs).2
    rw [hmem, hz]
    refine ⟨⟨fun hn => ?_, fun hr => ?_, fun _ => rfl, fun t ht => (by cases ht)⟩,
      fun hs => .inl ⟨?_, ?_⟩⟩
    · exact absurd (hmask.1.symm.trans hn) (by simp)
    · exact absurd (hmask.2.symm.trans hr) (by simp)
    · rw [wrOwn, hz, hnext]
    · exact (h.first_store hno hs₀ hs).1

/-- The read channel of the batch on a cycle, and how it goes on. -/
theorem reads_next (hl : Linked p ds x ι mem0 n) (hd : p.GoodDim) (hm : p.maxK ≤ 128)
    (hno : GoesOn x 0 n) :
    (∃ grant, rdOwn p x ι (n + 1) = (x n).acc.rdNext p grant (ins p x ι n).memRdReady (rdOwn p x ι n)) ∧
      ((ins p x ι n).memRdReady → ∃ t, rdOwn p x ι n = some t ∧ ∀ o, ∀ d ∈ ds,
        d.Operand p (x 0).acc.regs.srcStride (lineNo t.next ++ o) →
          ∃ k ≤ n, lineByte (ins p x ι n).memRline o = memOwn p x ι mem0 k (lineNo t.next ++ o)) ∧
      ∃ seen, (x (n + 1)).Reads seen ∧
        (begun (loadStarts p x ι) (n + 1) = true →
          MmSystem.Seen (fun n => (x n).mem) (n + 1) (x (n + 1)) seen) := by
  obtain ⟨seen, hr, hs⟩ := hl.read
  have hnext := h.runs.next n
  have hr' : (x (n + 1)).Reads (MmSystem.nextSeen p TIMEOUT_LIMIT (x n) (ι n) seen) := by
    rw [hnext]
    exact hr.next hd hm (h.runs.rdTimeout n)
  cases hb : begun (loadStarts p x ι) n with
  | true =>
    have hb' : begun (loadStarts p x ι) (n + 1) = true := begun_mono hb n.le_succ
    have hready : (ins p x ι n).memRdReady = ((x n).accIn p (ι n)).memRdReady := by
      simp [ins, MmInputs.masked, hb]
    have hown : ∀ m, begun (loadStarts p x ι) m = true → rdOwn p x ι m = (x m).rdChan :=
      fun m hm => if_pos hm
    refine ⟨⟨(x n).arb.rGrant ((x n).arbIn p (ι n)) == some .A, ?_⟩, fun hrd => ?_, _,
      hr', fun _ => ?_⟩
    · rw [hown n hb, hown (n + 1) hb', hready, hnext]
      exact hr.rdChan_next
    · rw [hready] at hrd
      obtain ⟨t, ht, hline⟩ := (hs hb).line_eq hr hrd
      refine ⟨t, (hown n hb).trans ht, fun o d hd hy => ?_⟩
      obtain ⟨k, hk, hbyte⟩ := hline o
      refine ⟨k, hk, Eq.trans hbyte ?_⟩
      rw [memOwn]
      split
      · rfl
      · next hk => exact h.kept k (Bool.eq_false_iff.2 hk) d hd _ hy
    · rw [hnext]
      exact (hs hb).next hr rfl
  | false =>
    -- nothing has been asked for yet, so what is served is not the batch's
    have hown : rdOwn p x ι n = none := by rw [rdOwn, hb]; rfl
    have hfirst : begun (loadStarts p x ι) (n + 1) = true → (x (n + 1)).arb.rState ≠ some .A :=
        fun hb' => by
      rw [begun_succ, hb, Bool.false_or] at hb'
      exact h.firstLoad n hno hb hb'
    refine ⟨⟨false, ?_⟩, fun hrd => ?_, _, hr', fun hb' hA => absurd hA (hfirst hb')⟩
    · rw [hown, rdOwn]
      split
      · next hb' => exact if_neg (hfirst hb')
      · rfl
    · simp [ins, MmInputs.masked, hb] at hrd

/-- One more cycle. -/
theorem next (hJ : (job p ds x mem0).Good) (hu : Until p ds x ι mem0 n) (hl : Linked p ds x ι mem0 n)
    (hno : GoesOn x 0 n) : Until p ds x ι mem0 (n + 1) ∧ Linked p ds x ι mem0 (n + 1) := by
  obtain ⟨hserves, hwrite⟩ := h.writes_next hJ hu hl hno
  obtain ⟨hgrant, hline, hread⟩ := h.reads_next hl hJ.dim hJ.maxK hno
  refine ⟨⟨hu.reach, fun j hj => ?_, hu.queue, hu.rest, hu.free, hu.kick, fun j h₀ hj => ?_,
    fun j hj hs₀ hs => ?_, fun j hj => ?_, fun j hj => ?_, fun j hj => ?_⟩, hread, hwrite⟩
  · exact h.acc_next j
  · exact ⟨(h.calm j h₀ fun k h₁ h₂ => hno k h₁ (h₂.trans (Nat.le_of_lt_succ hj))).write⟩
  · exact (h.firstStore j (fun k h₁ h₂ => hno k h₁ (h₂.trans (Nat.le_of_lt_succ hj)))
      (begun_eq_false.2 hs₀) hs).2.1
  · rcases Nat.lt_succ_iff_lt_or_eq.1 hj with hj | rfl
    · exact hu.grants j hj
    · exact hgrant
  · rcases Nat.lt_succ_iff_lt_or_eq.1 hj with hj | rfl
    · exact hu.line j hj
    · exact hline
  · rcases Nat.lt_succ_iff_lt_or_eq.1 hj with hj | rfl
    · exact hu.writes j hj
    · exact ⟨_, true, rfl, hserves⟩

/-- The batch, as long as it is not over. -/
theorem until_of_qDone (hJ : (job p ds x mem0).Good) (hno : ∀ j, 0 < j → j < n →
    (x j).acc.q.qDone = false) :
    Until p ds x ι mem0 n ∧ Linked p ds x ι mem0 n := by
  induction n with
  | zero =>
    obtain ⟨seen, hr⟩ := h.runs.reads 0
    refine ⟨⟨h.reach, fun n hn => ?_, h.queue, h.rest, ⟨rfl, rfl⟩,
      ⟨h.kick.ctrl, h.kick.queue, h.kick.others⟩,
      fun n _ hn => ?_, fun n hn => ?_, fun n hn => ?_, fun n hn => ?_, fun n hn => ?_⟩,
      ⟨seen, hr, fun hb => (by cases hb)⟩, fun hb => (by cases hb)⟩ <;> exact absurd hn n.not_lt_zero
  | succ n ih =>
    obtain ⟨hu, hl⟩ := ih fun j h₁ h₂ => hno j h₁ (Nat.lt_succ_of_lt h₂)
    exact h.next hJ hu hl fun j h₁ h₂ => hno j h₁ (Nat.lt_succ_of_le h₂)

end

/-- A batch that is never over. -/
structure Forever (p : MmParams) (TIMEOUT_LIMIT : BitVec 16) (ds : List Descriptor) (x : ℕ → MmSystem)
    (ι : ℕ → MmSystemInputs) (mem0 : Mem) : Prop where
  batch : SystemBatch p TIMEOUT_LIMIT ds x ι mem0
  good : (job p ds x mem0).Good
  qDone : ∀ n > 0, (x n).acc.q.qDone = false

namespace Forever

variable (h : Forever p TIMEOUT_LIMIT ds x ι mem0)

include h

theorem soFar (n : ℕ) : Until p ds x ι mem0 n ∧ Linked p ds x ι mem0 n :=
  h.batch.until_of_qDone h.good fun j h₀ _ => h.qDone j h₀

/-- A request to read is not withdrawn. -/
theorem memRdReqValid_next (hs : (x n).arb.rState ≠ some .A) (hv : (x n).acc.memRdReqValid = true) :
    (x (n + 1)).acc.memRdReqValid = true := by
  have hready : (ins p x ι n).memRdReady = false := by
    simp [ins, MmInputs.masked, MmSystem.memRdReady_eq, hs]
  have hn : 0 < n := by
    refine Nat.pos_of_ne_zero fun h0 => ?_
    subst h0
    simp [memRdReqValid, h.batch.rest.load] at hv
  have hc := (h.soFar (n + 1)).1.calm n hn n.lt_succ_self
  rw [h.batch.acc_next n, memRdReqValid, next_ld, nextLd, hc.reset,
    if_neg Bool.false_ne_true, nextLd', hready]
  cases (x n).acc.ldStartAny (ins p x ι n)
  · rw [memRdReqValid] at hv
    simpa using hv
  · rfl

theorem readFair : ReadFair (fun n => (x n).acc) (ins p x ι) (rdOwn p x ι) where
  grant n hx hv := by
    have hb : begun (loadStarts p x ι) n = true := by
      by_contra hb
      simp [memRdReqValid, h.batch.ldBusy_eq_false (Bool.eq_false_iff.2 hb)] at hv
    have hs : (x n).arb.rState ≠ some .A := fun hs => by simp [rdOwn, hb, MmSystem.rdChan, hs] at hx
    obtain ⟨k, hk, hA⟩ := h.batch.runs.exists_rGrant (fun k _ hs hv => h.memRdReqValid_next hs hv) hs hv
    have hb' := begun_mono hb (Nat.le_succ_of_le hk)
    exact ⟨k, hk, by simp [rdOwn, hb', MmSystem.rdChan, hA]⟩
  serve n hx := by
    have hb : begun (loadStarts p x ι) n = true := by
      by_contra hb
      exact hx (if_neg hb)
    have hs : (x n).arb.rState = some .A := by
      by_contra hs
      exact hx (by simp [rdOwn, MmSystem.rdChan, hs])
    obtain ⟨k, hk, hstay, hl⟩ := h.batch.runs.exists_rdLast hs
    have hA := hstay k hk le_rfl
    refine ⟨k, hk, ?_⟩
    rw [ins, MmInputs.masked, MmSystem.memRdReady_eq, hA, begun_mono hb hk]
    simp only [MmSystem.rdLast, ReadSys.complete, MmSystem.readSys, hA, Option.map_some,
      Option.getD_some, Bool.and_eq_true] at hl
    simpa using hl.1

/-- From the first store on the write channel is that of the arbiter and its engine. -/
theorem write (hb : begun (storeStarts p x ι) n = true) :
    wrOwn p x ι n = none ∧ (x n).arb.wState = none ∨
    ∃ t mem₁, wrOwn p x ι n = some t ∧
      (x n).Serves t ((job p ds x mem0).presented (tiles p x ι n) (x n).acc) mem₁ :=
  (h.soFar n).2.write hb

theorem begun_of_wrOwn (hz : wrOwn p x ι n ≠ none) : begun (storeStarts p x ι) n = true := by
  by_contra hb
  exact hz (h.batch.wrOwn_eq_none (Bool.eq_false_iff.2 hb)).1

theorem writeFair : WriteFair (fun n => (x n).acc) (ins p x ι) (wrOwn p x ι) where
  grant n hz hv := by
    -- the data cache does not write, so a request is granted as soon as nothing is served
    have hb : begun (storeStarts p x ι) n = true := by
      by_contra hb
      simp [memWrReqValid, h.batch.dmaBusy_eq_false (Bool.eq_false_iff.2 hb)] at hv
    rcases h.write hb with ⟨-, hs⟩ | ⟨t, mem₁, ht, -⟩
    · have hD := (h.batch.alone n fun j h₀ _ => h.qDone j h₀).1
      have hA : ArbRegs.wReq ((x n).arbIn p (ι n)) .A = true := hv
      have hg : (x n).arb.wGrant ((x n).arbIn p (ι n)) = some .A := by
        simp [ArbRegs.wGrant, ArbRegs.wGrantD, ArbRegs.wGrantA, hs, hD, hA]
      refine ⟨n, le_rfl, ?_⟩
      rw [wrOwn, hz, hg, wrNext, hv]
      simp
    · rw [hz] at ht
      cases ht
  serve n hz := by
    -- a write that is served goes on to `wrReady`
    have hstep : ∀ k, wrOwn p x ι k ≠ none → ¬(x k).wr.wrReady = true →
        wrOwn p x ι (k + 1) ≠ none ∧ (x (k + 1)).wrRank < (x k).wrRank := fun k hP hr => by
      have hr : (x k).wr.wrReady = false := Bool.eq_false_iff.2 hr
      have hb := h.begun_of_wrOwn hP
      obtain ⟨hn, -⟩ | ⟨t, mem₁, ht, hs⟩ := h.write hb
      · exact absurd hn hP
      obtain ⟨-, hn⟩ | ⟨-, -, hway⟩ :=
        h.batch.underway h.good (h.soFar k).1 fun j h₀ _ => h.qDone j h₀
      · exact absurd hn hP
      rw [ht] at hway
      have hw := h.batch.writes k
      have hto := h.batch.runs.wrTimeout k
      have hready : (ins p x ι k).memWrReady = false := by
        simp [ins, MmInputs.masked, MmSystem.memWrReady_eq, hr]
      refine ⟨?_, ?_⟩
      · rw [wrOwn, ht, wrNext, hready]
        simp
      · rw [h.batch.runs.next k]
        exact hs.wrRank_next hw hway.memWline hto hr
    obtain ⟨m, hm, hP, hr⟩ := Circuit.exists_of_rank (ι := fun _ => ()) (σ := id) (fun k => (x k).wrRank)
      (P := fun k => wrOwn p x ι k ≠ none) (Q := fun k _ => (x k).wr.wrReady = true) hstep hz
    have hP : wrOwn p x ι m ≠ none := hP m hm le_rfl
    have hr : (x m).wr.wrReady = true := hr
    have hb := h.begun_of_wrOwn hP
    obtain ⟨hn, -⟩ | ⟨t, mem₁, ht, hs⟩ := h.write hb
    · exact absurd hn hP
    · refine ⟨m, hm, ?_⟩
      rw [ins, MmInputs.masked, MmSystem.memWrReady_eq, hs.state, hr, hb]
      rfl

end Forever

/-- The batch ends, with all its tiles in memory. -/
theorem exists_ended (h : SystemBatch p TIMEOUT_LIMIT ds x ι mem0) (hJ : (job p ds x mem0).Good) :
    ∃ e > 0, BatchRun.Ended p ds (fun n => (x n).acc) (ins p x ι) (wrOwn p x ι) (memOwn p x ι mem0) e :=
  BatchUntil.exists_ended (fun _ hno => (h.until_of_qDone hJ hno).1) hJ
    (fun hno => (⟨h, hJ, hno⟩ : Forever p TIMEOUT_LIMIT ds x ι mem0).readFair)
    fun hno => (⟨h, hJ, hno⟩ : Forever p TIMEOUT_LIMIT ds x ι mem0).writeFair

end SystemBatch

/-! ## The reset -/

namespace MmAccel

variable {p : MmParams} {s : MmAccel} {i : MmInputs}

/-- Something is started over the bus. -/
def starts (s : MmAccel) (i : MmInputs) : Bool :=
  s.startPulse i || s.dmaStart i || s.ldStart i || s.ldStartB i || s.qStartPulse i

/-- Nothing goes on until something is started over the bus. -/
structure Quiesced (s : MmAccel) : Prop extends s.EnginesRest where
  state : s.q.qState = .qIdle
  run : s.q.qRun = false
  pend : s.q.prePend = false

theorem quiesced_of_softRst (h : s.softRstPulse i = true) : (s.next p i).Quiesced where
  queue := by simp [nextQ, h]
  load := by simp [nextLd, h]
  store := by simp [nextSt, h]
  state := by simp [nextQ, nextQState, h]
  run := by simp [nextQ, h]
  pend := by simp [nextQ, h]

theorem Quiesced.next (h : s.Quiesced) (hi : s.starts i = false) : (s.next p i).Quiesced := by
  cases hr : s.softRstPulse i with
  | true => exact quiesced_of_softRst hr
  | false =>
    simp only [starts, Bool.or_eq_false_iff] at hi
    obtain ⟨⟨⟨⟨-, hdma⟩, hld⟩, hldB⟩, hq⟩ := hi
    have hadopts : s.adoptsIdle = false := by simp [adoptsIdle, h.run]
    have hpre : s.prefetches p = false := by simp [prefetches, h.state]
    have hstart : s.ldStartAny i = false := by simp [ldStartAny, hld, hldB, h.state, h.pend]
    have hstore : s.dmaStartAny i = false := by simp [dmaStartAny, hdma, h.state]
    constructor
    · constructor
      · simp [nextQ, hr, hq, h.queue]
      · simp [nextLd, hr, nextLd', hstart, h.load]
      · simp [nextSt, hr, nextSt', hstore, h.store]
    · simp [nextQ, nextQState, hr, h.state, hadopts]
    · simp [nextQ, hr, hq, h.run]
    · simp [nextQ, hr, hpre, h.pend]

end MmAccel

/-- A batch that is kicked on the cycle `k`, later than a soft reset on the cycle `r`. Software has
    started nothing since the reset, or has waited for what it has started; it leaves the
    accelerator alone until the batch is over, and nothing else is written meanwhile. -/
structure LaterBatch (p : MmParams) (TIMEOUT_LIMIT : BitVec 16) (ds : List Descriptor) (x : ℕ → MmSystem)
    (ι : ℕ → MmSystemInputs) (r k : ℕ) : Prop where
  run : (mmSystem p TIMEOUT_LIMIT).IsRun x ι
  reset : (x r).acc.softRstPulse ((x r).accIn p (ι r)) = true
  lt : r < k
  waits : (∀ n, r < n → n < k → (x n).acc.starts ((x n).accIn p (ι n)) = false) ∨ (x k).acc.EnginesRest
  queue : (x k).acc.q.descQ = ds
  kick : (x k).acc.Kicks ((x k).accIn p (ι k))
  calm : ∀ n > k, GoesOn x k n → (x n).acc.Calm ((x n).accIn p (ι n))
  alone : ∀ n ≥ k, GoesOn x k n → ArbRegs.wReq ((x n).arbIn p (ι n)) .D = false ∧
    (x n).arb.wState ≠ some .D

/-- Nothing starts from the cycle `k` on, before the cycle `n`. -/
def Before (start : ℕ → Bool) (k n : ℕ) : Prop := k ≤ n ∧ ∀ j, k ≤ j → j < n → start j = false

theorem before_of_shift {start : ℕ → Bool} {k n : ℕ} (h : ∀ j < n, start (k + j) = false) :
    Before start k (k + n) := by
  refine ⟨Nat.le_add_right k n, fun j h₁ h₂ => ?_⟩
  obtain ⟨j, rfl⟩ := Nat.exists_eq_add_of_le h₁
  exact h j (by omega)

/-- There is only one first start. -/
theorem Before.eq {start : ℕ → Bool} {k n m : ℕ} (hn : Before start k n) (hm : Before start k m)
    (hs : start n = true) (hs' : start m = true) : n = m := by
  rcases Nat.lt_trichotomy n m with hlt | heq | hgt
  · exact absurd (hs.symm.trans (hm.2 n hn.1 hlt)) (by simp)
  · exact heq
  · exact absurd (hs'.symm.trans (hn.2 m hm.1 hgt)) (by simp)

open SystemBatch in
/-- What is still in flight when a batch is kicked on the cycle `k` is through by the time it could
    do harm: no read of the accelerator is served when the first load begins, no write when the
    first store begins, with an empty FIFO, and until then no operand of the batch is written. -/
structure Settles (p : MmParams) (ds : List Descriptor) (x : ℕ → MmSystem) (ι : ℕ → MmSystemInputs)
    (k : ℕ) : Prop where
  firstLoad : ∀ n, Before (loadStarts p x ι) k n → GoesOn x k n → loadStarts p x ι n = true →
    (x (n + 1)).arb.rState ≠ some .A
  firstStore : ∀ n, Before (storeStarts p x ι) k n → GoesOn x k n → storeStarts p x ι n = true →
    (x (n + 1)).arb.wState ≠ some .A ∧ (x (n + 1)).acc.st.lineFifo = []
  operands : ∀ n, Before (storeStarts p x ι) k n →
    ∀ d ∈ ds, ∀ y, d.Operand p (x k).acc.regs.srcStride y → (x n).mem y = (x k).mem y

open SystemBatch in
/-- The memory that the first store finds, or one that agrees with it on the operands if there is
    none. -/
theorem Settles.exists_mem0 {p : MmParams} {ds : List Descriptor} {x : ℕ → MmSystem}
    {ι : ℕ → MmSystemInputs} {k : ℕ} (hc : Settles p ds x ι k) : ∃ mem0 : Mem,
      (∀ n, Before (storeStarts p x ι) k n → storeStarts p x ι n = true → (x n).mem = mem0) ∧
      ∀ n, Before (storeStarts p x ι) k n →
        ∀ d ∈ ds, ∀ y, d.Operand p (x k).acc.regs.srcStride y → (x n).mem y = mem0 y := by
  by_cases hex : ∃ f, Before (storeStarts p x ι) k f ∧ storeStarts p x ι f = true
  · obtain ⟨f, hf, hs⟩ := hex
    refine ⟨(x f).mem, fun n hn hs' => by rw [hn.eq hf hs' hs], fun n hn d hd y hy => ?_⟩
    rw [hc.operands n hn d hd y hy, hc.operands f hf d hd y hy]
  · exact ⟨(x k).mem, fun n hn hs => absurd ⟨n, hn, hs⟩ hex, hc.operands⟩

namespace LaterBatch

open SystemBatch

variable {p : MmParams} {TIMEOUT_LIMIT : BitVec 16} {ds : List Descriptor} {x : ℕ → MmSystem}
  {ι : ℕ → MmSystemInputs} {r k : ℕ}

/-- The reset has brought the engines to rest. -/
theorem enginesRest (h : LaterBatch p TIMEOUT_LIMIT ds x ι r k) : (x k).acc.EnginesRest := by
  refine h.waits.elim (fun hno => ?_) id
  have hall : ∀ n, r + n + 1 ≤ k → (x (r + n + 1)).acc.Quiesced := by
    intro n
    induction n with
    | zero =>
      intro _
      rw [h.run.next]
      exact quiesced_of_softRst h.reset
    | succ n ih =>
      intro hn
      rw [← Nat.add_assoc r n 1, h.run.next]
      exact (ih (by omega)).next (hno _ (by omega) (by omega))
  obtain ⟨n, rfl⟩ := Nat.exists_eq_add_of_lt h.lt
  exact (hall n le_rfl).toEnginesRest

theorem goesOn_add {n : ℕ} (h : GoesOn (fun n => x (k + n)) 0 n) : GoesOn x k (k + n) := by
  intro j h₁ h₂
  obtain ⟨j, rfl⟩ := Nat.exists_eq_add_of_lt h₁
  exact h (j + 1) j.succ_pos (by omega)

theorem systemBatch (h : LaterBatch p TIMEOUT_LIMIT ds x ι r k)
    (hc : Settles p ds x ι k) (hd : p.GoodDim) (hm : p.maxK ≤ 128) {mem0 : Mem}
    (hfirst : ∀ n, Before (storeStarts p x ι) k n → storeStarts p x ι n = true → (x n).mem = mem0)
    (hkept : ∀ n, Before (storeStarts p x ι) k n →
      ∀ d ∈ ds, ∀ y, d.Operand p (x k).acc.regs.srcStride y → (x n).mem y = mem0 y) :
    SystemBatch p TIMEOUT_LIMIT ds (fun n => x (k + n)) (fun n => ι (k + n)) mem0 where
  runs := ⟨fun n => h.run.next (k + n), fun n => (h.run.admits (k + n)).1, fun n =>
    (h.run.admits (k + n)).2, fun n => MmSystem.exists_reads (h.run.reachable (k + n)) hd hm⟩
  writes n := MmSystem.writes_of_reachable (h.run.reachable (k + n))
  reach := MmSystem.reachable_acc (h.run.reachable k)
  queue := h.queue
  rest := h.enginesRest
  kick := h.kick
  calm n hn hno := h.calm (k + n) (by omega) (goesOn_add hno)
  alone n hno := h.alone (k + n) (Nat.le_add_right k n) (goesOn_add hno)
  firstLoad n hno hb hs :=
    hc.firstLoad (k + n) (before_of_shift (begun_eq_false.1 hb)) (goesOn_add hno) hs
  firstStore n hno hb hs := by
    have hbefore : Before (storeStarts p x ι) k (k + n) := before_of_shift (begun_eq_false.1 hb)
    obtain ⟨hA, hfifo⟩ := hc.firstStore (k + n) hbefore (goesOn_add hno) hs
    exact ⟨hA, hfifo, hfirst (k + n) hbefore hs⟩
  kept n hb := hkept (k + n) (before_of_shift (begun_eq_false.1 hb))

end LaterBatch

open SystemBatch in
/-- A batch that finds what is in flight settled leaves memory as if its tiles had been executed one
    after another, whatever a soft reset has cut off before. A write that was in flight when it was
    kicked has been through when its first store begins, on the cycle `f`. -/
theorem isolated_of_run {p : MmParams} {TIMEOUT_LIMIT : BitVec 16} {ds : List Descriptor}
    {x : ℕ → MmSystem}
    {ι : ℕ → MmSystemInputs} {r k : ℕ} (h : LaterBatch p TIMEOUT_LIMIT ds x ι r k)
    (hc : Settles p ds x ι k)
    (hd : p.GoodDim) (hm : p.maxK ≤ 128) (hK : ∀ d ∈ ds, 1 ≤ d.kLen ∧ d.kLen ≤ p.maxK)
    (ha : Descriptor.Apart p (x k).acc.regs.srcStride ((x k).acc.storeConfig p) ds)
    (hpan : p.enablePrefetch → PanelsApart p ds) :
    ∃ e > k, (∀ n, k < n → n ≤ e → ((x n).acc.q.qDone = true ↔ n = e)) ∧
      ∃ f ≤ e, Before (storeStarts p x ι) k f ∧ (f < e → storeStarts p x ι f = true) ∧
        (x e).mem = (TileState.run p (x k).acc.regs.srcStride ((x k).acc.storeConfig p)
          ⟨(x k).acc.buf.aMem, (x k).acc.buf.bMem, (x f).mem⟩ ds).mem := by
  obtain ⟨mem0, hfirst, hkept⟩ := hc.exists_mem0
  obtain ⟨e, he, hend⟩ := (h.systemBatch hc hd hm hfirst hkept).exists_ended
    ⟨hd, hm, hK, ha, hpan, fits_storeConfig (x k).acc hd⟩
  have hdone : ∀ n, k < n → n ≤ k + e → ((x n).acc.q.qDone = true ↔ n = k + e) := fun n hn hne => by
    obtain ⟨j, rfl⟩ := Nat.exists_eq_add_of_lt hn
    have := hend.done (j + 1) (by omega) (by omega)
    rw [← Nat.add_assoc] at this
    rw [this]
    omega
  have hstores : started (fun j => storeStarts p x ι (k + j)) (fun j =>
    (x (k + j)).acc.regs.destAddr) e =
      ds.map Descriptor.dest := hend.stores
  refine ⟨k + e, by omega, hdone, ?_⟩
  by_cases hds : ds = []
  · -- nothing is stored
    subst hds
    exact ⟨k + e, le_rfl, before_of_shift (started_eq_nil hstores), fun hlt =>
      absurd hlt (Nat.lt_irrefl _), rfl⟩
  · have hbegun : begun (storeStarts p (fun n => x (k + n)) fun n => ι (k + n)) e = true :=
      begun_of_started fun hnil => hds (List.map_eq_nil_iff.1 (hstores.symm.trans hnil))
    obtain ⟨f, hlt, hno, hs⟩ := exists_first hbegun
    have hbefore : Before (storeStarts p x ι) k (k + f) := before_of_shift (begun_eq_false.1 hno)
    have hs : storeStarts p x ι (k + f) = true := hs
    refine ⟨k + f, by omega, hbefore, fun _ => hs, ?_⟩
    have hmem := hend.mem
    rw [memOwn, hbegun, if_pos rfl] at hmem
    rw [hfirst (k + f) hbefore hs]
    exact hmem

/-! ### Nothing in flight -/

/-- Nothing of the accelerator is in flight, and no line is on its way to memory. -/
structure MmSystem.Quiet (s : MmSystem) : Prop where
  read : s.arb.rState ≠ some .A
  write : s.arb.wState = none
  fifo : s.acc.st.lineFifo = []
  valid : s.acc.st.fillValid = false

namespace LaterBatch

open SystemBatch

variable {p : MmParams} {TIMEOUT_LIMIT : BitVec 16} {ds : List Descriptor} {x : ℕ → MmSystem}
  {ι : ℕ → MmSystemInputs} {r k : ℕ}

/-- The accelerator asks for nothing while its load engine rests. -/
theorem rState_next (h : LaterBatch p TIMEOUT_LIMIT ds x ι r k) (hd : p.GoodDim)
    (hm : p.maxK ≤ 128) {n : ℕ}
    (hb : (x n).acc.ld.ldBusy = false) (hs : (x n).arb.rState ≠ some .A) :
      (x (n + 1)).arb.rState ≠ some .A := by
  obtain ⟨seen, hr⟩ := MmSystem.exists_reads (h.run.reachable n) hd hm
  have hst := hr.rState_next p TIMEOUT_LIMIT (ι n)
  have hnext : x (n + 1) = (x n).next p TIMEOUT_LIMIT (ι n) := h.run.next n
  rw [hnext, hst]
  split_ifs
  · intro hg
    have hreq : (x n).acc.memRdReqValid = true := rReq_of_rGrant hg
    simp [memRdReqValid, hb] at hreq
  · simp
  · exact hs

theorem reads_of_quiet (h : LaterBatch p TIMEOUT_LIMIT ds x ι r k) (hq : (x k).Quiet) (hd : p.GoodDim)
    (hm : p.maxK ≤ 128) {n : ℕ} (hn : Before (loadStarts p x ι) k n) : (x n).acc.ld.ldBusy = false ∧
    (x n).arb.rState ≠ some .A := by
  obtain ⟨hle, hno⟩ := hn
  induction n, hle using Nat.le_induction with
  | base => exact ⟨h.enginesRest.load, hq.read⟩
  | succ n hn ih =>
    obtain ⟨hb, hs⟩ := ih fun j h₁ h₂ => hno j h₁ (Nat.lt_succ_of_lt h₂)
    refine ⟨?_, h.rState_next hd hm hb hs⟩
    rw [h.run.next n]
    exact loadRests_next (hno n hn n.lt_succ_self) hb

/-- Nor does it write while its store engine rests. -/
theorem writes_of_quiet (h : LaterBatch p TIMEOUT_LIMIT ds x ι r k) (hq : (x k).Quiet)
    (hD : ∀ n ≥ k, ArbRegs.wReq ((x n).arbIn p (ι n)) .D = false) {n : ℕ}
    (hn : Before (storeStarts p x ι) k n) :
    (x n).acc.st.dmaBusy = false ∧ (x (n + 1)).acc.st.lineFifo = [] ∧ (x (n + 1)).arb.wState = none ∧
      (x n).mem = (x k).mem := by
  -- neither the data cache nor the accelerator asks for a write
  have hstep : ∀ n ≥ k, (x n).acc.st.dmaBusy = false → (x n).arb.wState = none →
      (x (n + 1)).arb.wState = none :=
    fun n hn hb hs => by
      have hnext : x (n + 1) = (x n).next p TIMEOUT_LIMIT (ι n) := h.run.next n
      rw [hnext, MmSystem.wState_next, hs]
      cases hg : (x n).arb.wGrant ((x n).arbIn p (ι n)) with
      | none => rfl
      | some q =>
        have hreq := wReq_of_wGrant hg
        cases q with
        | D => exact absurd (hreq.symm.trans (hD n hn)) (by simp)
        | A =>
          have hv : (x n).acc.memWrReqValid = true := hreq
          simp [memWrReqValid, hb] at hv
  have hall : (x n).acc.st.dmaBusy = false ∧ (x n).acc.st.lineFifo = [] ∧
      (x n).acc.st.fillValid = false ∧ (x n).arb.wState = none ∧ (x n).mem = (x k).mem := by
    obtain ⟨hle, hno⟩ := hn
    induction n, hle using Nat.le_induction with
    | base => exact ⟨h.enginesRest.store, hq.fifo, hq.valid, hq.write, rfl⟩
    | succ n hn ih =>
      obtain ⟨hb, hf, hv, hs, hmem⟩ := ih fun j h₁ h₂ => hno j h₁ (Nat.lt_succ_of_lt h₂)
      have hs' := hstep n hn hb hs
      have hnext : x (n + 1) = (x n).next p TIMEOUT_LIMIT (ι n) := h.run.next n
      obtain ⟨h₁, h₂⟩ := storeRests_next (p := p) (hno n hn n.lt_succ_self) hb
      rw [hnext] at hs' ⊢
      exact ⟨h₁, (lineFifo_next p).trans (Job.nextFifo_of_empty hf hv), h₂, hs',
        ((MmSystem.writes_of_reachable (h.run.reachable n)).mem_next hs').trans hmem⟩
  obtain ⟨hb, hf, hv, hs, hmem⟩ := hall
  refine ⟨hb, ?_, hstep n hn.1 hb hs, hmem⟩
  rw [h.run.next n]
  exact (lineFifo_next p).trans (Job.nextFifo_of_empty hf hv)

/-- What is not in flight is settled. -/
theorem settles_of_quiet (h : LaterBatch p TIMEOUT_LIMIT ds x ι r k) (hq : (x k).Quiet) (hd : p.GoodDim)
    (hm : p.maxK ≤ 128) (hD : ∀ n ≥ k, ArbRegs.wReq ((x n).arbIn p (ι n)) .D = false) :
      Settles p ds x ι k where
  firstLoad n hn _ _ := by
    obtain ⟨hb, hs⟩ := h.reads_of_quiet hq hd hm hn
    exact h.rState_next hd hm hb hs
  firstStore n hn _ _ := by
    obtain ⟨-, hf, hs, -⟩ := h.writes_of_quiet hq hD hn
    exact ⟨by simp [hs], hf⟩
  operands n hn _ _ y _ := by
    obtain ⟨-, -, -, hmem⟩ := h.writes_of_quiet hq hD hn
    rw [hmem]

end LaterBatch

/-! ### A load that is cut off -/

/-- A batch is kicked and reset, and another one with the same A and another B is kicked after it. -/
def cutOffBus (n : ℕ) : MmInputs :=
  match n with
  | 0 => .write 18 0x20
  | 2 => .write 19 0x100
  | 4 => .write 20 0x10
  | 6 => .write 0 0x20
  | 14 => .write 0 0x02
  | 16 => .write 17 0x40
  | 18 => .write 18 0x60
  | 20 => .write 19 0x200
  | 22 => .write 20 0x10
  | 24 => .write 0 0x20
  | _ => .quiet

/-- The memory returns what is read from the cycle `late` on, and the caches ask for nothing. -/
def lateReads (late n : ℕ) : MmSystemInputs where
  bus := cutOffBus n
  caches := ⟨false, 0, false, false, 0, 0, false, 0, 0, false, 0, 0, 0, false, false, false⟩
  mAxiArready := true
  mAxiRvalid := late ≤ n
  mAxiAwready := true
  mAxiWready := true
  mAxiBvalid := true

def cutOff (late : ℕ) : ℕ → MmSystem :=
  (mmSystem mmDefault 0x3ff).trace
    { acc := resetMm
      arb := ⟨none, .D, 0, 1, 0, none, true, 0, 1, 0⟩
      rd := ⟨.RD_IDLE, 0, 0, 0, 1, 0, false, false, 0, 0, false⟩
      wr := ⟨.WR_IDLE, 0, 0, 0, 1, 0, 0, false, false, false, false, 0, 0, false⟩
      mem := onesAndTwos
      rtxn := none
      wtxn := none }
    (lateReads late)

theorem isRun_cutOff {late : ℕ} (h : late < 0x3ff) :
    (mmSystem mmDefault 0x3ff).IsRun (cutOff late) (lateReads late) := by
  have hans : MmSystem.Answers late (lateReads late) :=
    ⟨fun _ => rfl, fun n hn => decide_eq_true hn, fun _ => rfl, fun _ => rfl, fun _ => rfl⟩
  refine hans.isRun h ?_ (.inl rfl) (by decide)
  exact ⟨isReset_resetMm, ⟨rfl, rfl, rfl, rfl, rfl, rfl, rfl, rfl, rfl, rfl⟩,
    ⟨rfl, rfl, rfl, rfl, rfl, rfl, rfl, rfl, rfl, rfl, rfl⟩,
    ⟨rfl, rfl, rfl, rfl, rfl, rfl, rfl, rfl, rfl, rfl, rfl, rfl, rfl, rfl⟩, rfl, rfl⟩

/-- The data cache never writes. -/
theorem wReq_cutOff (late n : ℕ) :
    ArbRegs.wReq ((cutOff late n).arbIn mmDefault (lateReads late n)) .D = false := rfl

theorem laterBatch_cutOff (late : ℕ) (hl : late ∈ [0, 30]) :
    LaterBatch mmDefault 0x3ff (cutOff late 24).acc.q.descQ (cutOff late) (lateReads late) 14 24 := by
  have hlt : late < 0x3ff := by
    rcases List.mem_pair.1 hl with rfl | rfl <;> decide
  have hrun := isRun_cutOff hlt
  have hreset : ∀ late ∈ [0, 30],
      (cutOff late 14).acc.softRstPulse ((cutOff late 14).accIn mmDefault (lateReads late 14)) = true ∧
        (∀ n < 24, 14 < n →
          (cutOff late n).acc.starts ((cutOff late n).accIn mmDefault (lateReads late n)) = false) ∧
        (cutOff late 24).acc.writes ((cutOff late 24).accIn mmDefault (lateReads late 24)) 0 = true := by
    decide +kernel
  obtain ⟨h₁, h₂, h₃⟩ := hreset late hl
  have hD : ∀ n, (cutOff late n).arb.wState ≠ some .D := fun n => by
    induction n with
    | zero => exact fun h => (by cases h)
    | succ n ih => exact hrun.next n ▸ MmSystem.wState_ne_D_next ih (wReq_cutOff late n)
  refine ⟨hrun, h₁, by decide, .inl fun n hn hlt => h₂ n hlt hn, rfl, ⟨h₃, ?_, ?_⟩,
    fun n hn _ => ⟨?_⟩, fun n _ _ => ⟨wReq_cutOff late n, hD n⟩⟩
  · change (0x20 : Word).getLsbD 5 = true
    decide
  · change ∀ b < 5, (0x20 : Word).getLsbD b = false
    decide
  · have hq : cutOffBus n = .quiet := by
      unfold cutOffBus
      split
      all_goals first | rfl | omega
    change (cutOff late n).acc.doWrite ((cutOff late n).accIn mmDefault (lateReads late n)) = false
    simp [doWrite, MmSystem.accIn, lateReads, hq, MmInputs.quiet]

/-- The operands of the second batch lie on other lines than its result. -/
theorem batch_cutOff (late : ℕ) (hl : late ∈ [0, 30]) :
    (∀ d ∈ (cutOff late 24).acc.q.descQ, 1 ≤ d.kLen ∧ d.kLen ≤ mmDefault.maxK) ∧
      Descriptor.Apart mmDefault (cutOff late 24).acc.regs.srcStride
        ((cutOff late 24).acc.storeConfig mmDefault) (cutOff late 24).acc.q.descQ := by
  rcases List.mem_pair.1 hl with rfl | rfl
  · exact ⟨by decide +kernel, Descriptor.apart_of_lineNo (by decide +kernel)⟩
  · exact ⟨by decide +kernel, Descriptor.apart_of_lineNo (by decide +kernel)⟩

/-- When the first read has been answered before the second batch is kicked, the result of this one
    is right. -/
theorem isolated_answered :
    ∃ e > 24, (cutOff 0 e).acc.q.qDone = true ∧ ∃ f ≤ e, (cutOff 0 e).mem =
      (TileState.run mmDefault (cutOff 0 24).acc.regs.srcStride ((cutOff 0 24).acc.storeConfig mmDefault)
        ⟨(cutOff 0 24).acc.buf.aMem, (cutOff 0 24).acc.buf.bMem, (cutOff 0 f).mem⟩
          (cutOff 0 24).acc.q.descQ).mem := by
  have h := laterBatch_cutOff 0 (by decide)
  have hq : (cutOff 0 24).Quiet :=
    ⟨by decide +kernel, by decide +kernel, by decide +kernel, by decide +kernel⟩
  obtain ⟨hK, ha⟩ := batch_cutOff 0 (by decide)
  obtain ⟨e, he, hdone, f, hf, -, -, hmem⟩ := isolated_of_run h
    (h.settles_of_quiet hq (.inl rfl) (by decide) fun n _ => wReq_cutOff 0 n) (.inl rfl)
      (by decide) hK ha
    fun _ => panelsApart_of_ne (by decide) _
  exact ⟨e, he, (hdone e he le_rfl).2 rfl, f, hf, hmem⟩

open SystemBatch in
/-- When it is answered after that, its lines are taken for those of the second batch. -/
theorem isolated_late :
    ¬∀ (p : MmParams) (TIMEOUT_LIMIT : BitVec 16) (ds : List Descriptor) (x : ℕ → MmSystem)
    (ι : ℕ → MmSystemInputs)
      (r k : ℕ), LaterBatch p TIMEOUT_LIMIT ds x ι r k → p.GoodDim → p.maxK ≤ 128 →
      (∀ d ∈ ds, 1 ≤ d.kLen ∧ d.kLen ≤ p.maxK) →
      Descriptor.Apart p (x k).acc.regs.srcStride ((x k).acc.storeConfig p) ds →
      (p.enablePrefetch → PanelsApart p ds) →
      ∃ e > k, (∀ n, k < n → n ≤ e → ((x n).acc.q.qDone = true ↔ n = e)) ∧
        ∃ f ≤ e, Before (storeStarts p x ι) k f ∧ (f < e → storeStarts p x ι f = true) ∧
          (x e).mem = (TileState.run p (x k).acc.regs.srcStride ((x k).acc.storeConfig p)
            ⟨(x k).acc.buf.aMem, (x k).acc.buf.bMem, (x f).mem⟩ ds).mem := by
  intro h
  obtain ⟨hK, ha⟩ := batch_cutOff 30 (by decide)
  obtain ⟨e, he, hdone, f, hf, hbefore, hs, hmem⟩ := h _ _ _ _ _ _ _ (laterBatch_cutOff 30 (by decide))
    (.inl rfl) (by decide) hK ha fun _ => panelsApart_of_ne (by decide) _
  -- the batch is over on the cycle `76`, and its store begins on the cycle `65`
  have hno : ∀ n < 76, 24 < n → (cutOff 30 n).acc.q.qDone = false := by decide +kernel
  have hyes : (cutOff 30 76).acc.q.qDone = true := by decide +kernel
  have hstore : storeStarts mmDefault (cutOff 30) (lateReads 30) 65 = true := by decide +kernel
  have hnone : ∀ n < 65, 24 ≤ n → storeStarts mmDefault (cutOff 30) (lateReads 30) n = false := by
    decide +kernel
  obtain rfl : e = 76 := by
    rcases Nat.lt_trichotomy e 76 with hlt | heq | hgt
    · exact absurd ((hdone e he le_rfl).2 rfl) (by simp [hno e hlt he])
    · exact heq
    · exact ((hdone 76 (by decide) hgt.le).1 hyes).symm
  have hlt : f < 76 := by
    refine Nat.lt_of_le_of_ne hf fun heq => ?_
    subst heq
    exact absurd (hstore.symm.trans (hbefore.2 65 (by decide) (by decide))) (by simp)
  obtain rfl : f = 65 := hbefore.eq ⟨by decide, fun j h₁ h₂ => hnone j h₂ h₁⟩ (hs hlt) hstore
  have hbyte := congrFun hmem 0x200
  revert hbyte
  decide +kernel

end Rv32Soc
