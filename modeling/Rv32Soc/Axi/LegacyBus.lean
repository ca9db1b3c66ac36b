import Rv32Soc.Axi.CacheAdapter
import Rv32Soc.Axi.MemArbiter
import Rv32Soc.Axi.ReadRetry

/-!
# Retries on the single-port path

`mem_arbiter.v` over `axi_cache_adapter.v`, between requesters that do as they like and
an AXI4 memory that may stall for as long as it likes, forgets a transaction that is
abandoned, and answers each new one with as many beats as it asks for.

A read that is abandoned after some of its lines is taken up again with a burst of the
full length (`m_axi_arlen`), which goes on past the end of the request; the arbiter counts
lines and releases the port at the last one of the request, and the lines that are left
over go to the next request (`surplus_line`). As long as no read is abandoned after its
first line, the adapter is the read engine of `axi_rw_engine.v` behind a requester that
withdraws its request with its last line, and what holds of that engine under retries
holds here (`LegacyBus.readSys_next`, `legacyRead_of_isRun`).
-/

namespace Rv32Soc

open AxiRw

/-- The arbiter, the adapter, the memory with the transactions it serves, and what is
    recorded: the lines announced since the last grant, the grants so far, and the one
    for which the adapter has started its last transaction. -/
structure LegacyBus where
  arb : MemArbiter.Regs
  adp : CacheAdapter.Regs
  mem : Mem
  rtxn : Option (Word × ℕ)
  wtxn : Option Word
  got : List Line
  grants : ℕ
  owner : ℕ

/-- What the requesters drive, and what the memory accepts and answers. -/
structure LegacyInputs where
  ports : MemArbiter.Ports
  mAxiArready : Bool
  mAxiRvalid : Bool
  mAxiAwready : Bool
  mAxiWready : Bool
  mAxiBvalid : Bool

namespace LegacyBus

variable (B : ℕ) (TIMEOUT_LIMIT : BitVec 16) (s : LegacyBus) (i : LegacyInputs)

def adpIn : CacheAdapter.Inputs B where
  memReqValid := s.arb.memReqValid
  memReqWrite := s.arb.memReqWrite
  memReqAddr := s.arb.memReqAddr
  memReqLines := s.arb.memReqLines
  memWline := s.arb.memWline i.ports
  mAxiArready := i.mAxiArready
  mAxiRdata := (s.rtxn.map fun t => s.mem.part (16 / B) t.1).getD 0
  mAxiRvalid := i.mAxiRvalid && s.rtxn.isSome
  mAxiRlast := (s.rtxn.map fun t => t.2 == 1).getD false
  mAxiAwready := i.mAxiAwready
  mAxiWready := i.mAxiWready
  mAxiBvalid := i.mAxiBvalid

/-- An address is accepted, or a beat transferred, on the read or the write channel. -/
def arBeat : Bool := s.adp.mAxiArvalid && i.mAxiArready
def rBeat : Bool := s.adp.mAxiRready && (i.mAxiRvalid && s.rtxn.isSome)
def awBeat : Bool := s.adp.mAxiAwvalid && i.mAxiAwready
def wBeat : Bool := s.adp.mAxiWvalid && i.mAxiWready

/-- The request served is over with this cycle. -/
def release : Bool := s.arb.release s.adp.memReady

/-- The lines announced since the last grant, with the one of this cycle. -/
def lines : List Line := if s.adp.memReady then s.got ++ [s.adp.memRline] else s.got

def next : LegacyBus where
  arb := s.arb.next i.ports s.adp.memReady
  adp := s.adp.next TIMEOUT_LIMIT (s.adpIn B i)
  mem :=
    match s.wtxn with
    | some p => if s.wBeat i then s.mem.storePart p (s.adp.mAxiWdata (s.adpIn B i)) else s.mem
    | none => s.mem
  rtxn :=
    if s.adp.timeout TIMEOUT_LIMIT then none
    else if s.arBeat i then some (s.adp.mAxiAraddr, (s.adp.mAxiArlen B).toNat + 1)
    else if s.rBeat i then
      s.rtxn.bind fun t => if t.2 = 1 then none else some (t.1 + BitVec.ofNat 32 (16 / B), t.2 - 1)
    else s.rtxn
  wtxn :=
    if s.adp.timeout TIMEOUT_LIMIT then none
    else if s.awBeat i then some s.adp.mAxiAwaddr
    else if s.wBeat i then
      if s.adp.mAxiWlast B then none else s.wtxn.map (· + BitVec.ofNat 32 (16 / B))
    else s.wtxn
  got := if s.arb.state.isSome && !s.release then s.lines else []
  grants := s.grants + (s.arb.grant i.ports).isSome.toNat
  owner := if s.adp.start (s.adpIn B i) then s.grants else s.owner

def IsReset : Prop := s.arb.IsReset ∧ s.adp.IsReset ∧ s.rtxn = none ∧ s.wtxn = none ∧ s.got = []

end LegacyBus

/-- The arbiter and the adapter, whatever the requesters and the memory do. -/
def legacyBus (B : ℕ) (TIMEOUT_LIMIT : BitVec 16) : Circuit LegacyBus LegacyInputs where
  init := {s | s.IsReset}
  admits _ _ := True
  next s i := s.next B TIMEOUT_LIMIT i

namespace LegacyBus

/-! ## The read that is served -/

section

variable (B : ℕ) (TIMEOUT_LIMIT : BitVec 16) (s : LegacyBus) (i : LegacyInputs)

/-- The read that is served. -/
def rreq : Option RReq :=
  if s.arb.state.isSome && !s.arb.memReqWrite then some ⟨s.arb.savedReqAddr,
    s.arb.savedReqLines⟩ else none

/-- The adapter as a read engine behind a requester. -/
def readSys : RetrySys B where
  eng := s.adp.readEngine
  txn := s.rtxn
  req := s.rreq
  mem := s.mem
  got := s.got

def readIn : RetryInputs where
  start := none
  withdraw := true
  mAxiArready := i.mAxiArready
  mAxiRvalid := i.mAxiRvalid
  mem := s.mem

/-- Where the adapter may be while the arbiter serves a request, or none. -/
def Fsm : Prop :=
  match s.adp.state with
  | .IDLE => s.adp.lineReady = false ∧
      (s.adp.retrying → s.arb.state.isSome ∧ (s.arb.memReqWrite = false → s.adp.lineSent = 0))
  | .READ_ADDR => s.arb.state.isSome ∧ s.arb.memReqWrite = false ∧ s.adp.savedWrite = false ∧
      s.adp.lineReady = false ∧ s.adp.lineSent = 0
  | .READ_DATA => s.arb.state.isSome ∧ s.arb.memReqWrite = false ∧ s.adp.savedWrite = false
  | .WRITE_ADDR | .WRITE_DATA | .WRITE_RESP =>
      s.arb.state.isSome ∧ s.arb.memReqWrite ∧ s.adp.savedWrite ∧ s.adp.lineReady = false ∧
        s.adp.retrying = false
  | .DONE => s.arb.state.isSome ∧ s.adp.savedWrite = s.arb.memReqWrite ∧
      s.adp.lineReady = !s.arb.memReqWrite ∧ s.adp.retrying = false

/-- The invariant. -/
structure Inv : Prop where
  fsm : s.Fsm
  read : s.arb.memReqWrite = false → (s.readSys B).Inv
  write : s.arb.memReqWrite → s.rtxn = none
  cache : ∀ p, s.arb.state = some p → p ≠ .A → s.arb.savedReqLines = 1
  count : s.arb.state = some .A → s.arb.savedReqWrite = false → s.arb.lineCount.toNat = s.got.length
  owner : s.adp.state ≠ .IDLE → s.owner = s.grants

/-- The cycle does not lead to the defect: no read is abandoned after its first line, and a read that is
    granted fits into one burst. -/
structure Resumable : Prop where
  timeout : s.adp.timeout TIMEOUT_LIMIT → s.adp.savedWrite = false → s.adp.lineSent = 0
  fits : s.arb.grant i.ports = some .A → i.ports.accelReqWrite = false →
    B * (⟨i.ports.accelReqAddr, i.ports.accelReqLines⟩ : RReq).count ≤ 256

end

variable {B : ℕ} {TIMEOUT_LIMIT : BitVec 16} {s : LegacyBus} {i : LegacyInputs} {p : MemArbiter.Port}

theorem memReqWrite_none (hp : s.arb.state = none) : s.arb.memReqWrite = false := by
  simp [MemArbiter.Regs.memReqWrite, hp]

theorem rreq_reading (hp : s.arb.state = some p) (hw : s.arb.memReqWrite = false) :
    s.rreq = some ⟨s.arb.savedReqAddr, s.arb.savedReqLines⟩ := by
  simp [rreq, hp, hw]

theorem reading_of_rreq {r : RReq} (hr : s.rreq = some r) :
    ∃ p, s.arb.state = some p ∧ s.arb.memReqWrite = false ∧
      ⟨s.arb.savedReqAddr, s.arb.savedReqLines⟩ = r := by
  rw [rreq, Option.ite_none_right_eq_some] at hr
  obtain ⟨hb, hr⟩ := hr
  simp only [Bool.and_eq_true, Bool.not_eq_true'] at hb
  obtain ⟨p, hp⟩ := Option.isSome_iff_exists.1 hb.1
  exact ⟨p, hp, hb.2, Option.some_inj.1 hr⟩

theorem rreq_none (hp : s.arb.state = none) : s.rreq = none := by simp [rreq, hp]

/-- A read is announced by its lines. -/
theorem Fsm.memReady_reading (h : s.Fsm) (hw : s.arb.memReqWrite = false) :
    s.adp.memReady = s.adp.lineReady := by
  cases hst : s.adp.state <;> simp_all [Fsm, CacheAdapter.Regs.memReady]

/-- A write is acknowledged. -/
theorem Fsm.memReady_writing (h : s.Fsm) (hw : s.arb.memReqWrite) :
    s.adp.memReady = (s.adp.state == .DONE) := by
  cases hst : s.adp.state <;> simp_all [Fsm, CacheAdapter.Regs.memReady]

theorem Fsm.lines_eq (h : s.Fsm) (hw : s.arb.memReqWrite = false) : s.lines = (s.readSys B).lines := by
  rw [lines, h.memReady_reading hw]
  rfl

/-- All the lines of a read are got when the adapter is done. -/
theorem Inv.complete_eq (h : s.Inv B) (hp : s.arb.state = some p) (hw : s.arb.memReqWrite = false) :
    (s.readSys B).complete = (s.adp.state == .DONE) := by
  have hdone : s.adp.readEngine.rdState = .RD_DONE ↔ s.adp.state = .DONE := by
    have := h.fsm
    cases hst : s.adp.state <;> simp_all [Fsm, CacheAdapter.Regs.readEngine]
  rw [Bool.eq_iff_iff, (h.read hw).complete_iff (rreq_reading hp hw) rfl, beq_iff_eq]
  exact hdone

/-- The arbiter's comparison, with `n` lines counted. -/
theorem savedLines_le_iff {x c : BitVec 8} {n : ℕ} (a : Word) (hn : c.toNat = n) (hlt : n < 255) :
    x ≤ c + 1 ↔ RReq.count ⟨a, x⟩ ≤ n + 1 := by
  have hadd : (c + 1).toNat = n + 1 := by
    rw [BitVec.toNat_add_of_lt (by rw [hn]; exact Nat.succ_lt_succ hlt), hn]
    rfl
  rw [BitVec.le_def, hadd, RReq.count]
  split_ifs with h0
  · rw [show x = 0 from h0]
    simp
  · rfl

/-- The port is released when the adapter is done. -/
theorem Inv.release_eq (h : s.Inv B) (hp : s.arb.state = some p) :
    s.release = (s.adp.state == .DONE) := by
  cases hw : s.arb.memReqWrite with
  | true =>
    -- A write is released by the ready pulse, which the adapter gives in DONE only.
    rw [release, h.fsm.memReady_writing hw]
    cases p <;> simp_all [MemArbiter.Regs.release, MemArbiter.Regs.memReqWrite]
  | false =>
    -- A read is released by the pulse of its last line; the count tells which one that is.
    rw [release, h.fsm.memReady_reading hw]
    cases hr : s.adp.lineReady with
    | false =>
      have hne : s.adp.state ≠ .DONE := fun hst => by
        have := h.fsm
        simp_all [Fsm]
      cases p <;> simp [MemArbiter.Regs.release, hp, hne]
    | true =>
      have hle := ((h.read hw).lines_eq (rreq_reading hp hw)).2
      rw [RetrySys.length_lines, show (s.readSys B).eng.rdReady = true from hr, Bool.toNat_true] at hle
      have hc : (s.adp.state == .DONE) = decide (RReq.count ⟨s.arb.savedReqAddr,
          s.arb.savedReqLines⟩ ≤ s.got.length + 1) := by
        rw [← h.complete_eq hp hw, RetrySys.complete, show (s.readSys B).req = _ from rreq_reading hp hw,
          Option.any_some, RetrySys.length_lines, show (s.readSys B).eng.rdReady = true from hr]
        rfl
      rw [hc]
      have hcount : RReq.count ⟨s.arb.savedReqAddr, s.arb.savedReqLines⟩ < 2 ^ 8 := BitVec.isLt _
      cases p with
      | A =>
        -- The counter of port A does not wrap, as the count fits its 8 bits.
        have hsw : s.arb.savedReqWrite = false := by simpa [MemArbiter.Regs.memReqWrite, hp] using hw
        have hn : s.got.length < 255 := Nat.succ_lt_succ_iff.1 (hle.trans_lt hcount)
        simp only [MemArbiter.Regs.release, hp, hsw, Bool.false_or, Bool.true_and,
          savedLines_le_iff s.arb.savedReqAddr (h.count hp hsw) hn]
      | D | I =>
        have hone : RReq.count ⟨s.arb.savedReqAddr, s.arb.savedReqLines⟩ = 1 := by
          rw [h.cache _ hp (by simp)]
          rfl
        simp [MemArbiter.Regs.release, hp, hone]

/-! ## One edge -/

/-- What the arbiter serves stays. -/
theorem arb_next_busy (B : ℕ) (TIMEOUT_LIMIT : BitVec 16) (s : LegacyBus) (i : LegacyInputs)
    (hp : s.arb.state = some p) (hr : s.release = false) :
    (s.next B TIMEOUT_LIMIT i).arb.state = some p ∧
      (s.next B TIMEOUT_LIMIT i).arb.memReqWrite = s.arb.memReqWrite ∧
      (s.next B TIMEOUT_LIMIT i).arb.savedReqAddr = s.arb.savedReqAddr ∧
      (s.next B TIMEOUT_LIMIT i).arb.savedReqLines = s.arb.savedReqLines ∧
      (s.next B TIMEOUT_LIMIT i).arb.savedReqWrite = s.arb.savedReqWrite := by
  have hg : s.arb.grant i.ports = none := MemArbiter.grant_of_busy hp
  have hr' : s.arb.release s.adp.memReady = false := hr
  simp [next, MemArbiter.Regs.next, MemArbiter.Regs.memReqWrite, hp, hg, hr']

theorem adpIn_rd (hp : s.arb.state = some p) (hw : s.arb.memReqWrite = false) :
    (s.adpIn B i).rd = (s.readSys B).engIn (s.readIn i) := by
  simp [adpIn, CacheAdapter.Inputs.rd, RetrySys.engIn, readSys, readIn, rreq_reading hp hw, hp,
    MemArbiter.Regs.memReqValid, MemArbiter.Regs.memReqAddr, MemArbiter.Regs.memReqLines]

theorem Fsm.reads (B : ℕ) (i : LegacyInputs) (h : s.Fsm) (hp : s.arb.state = some p)
    (hw : s.arb.memReqWrite = false) (hd : s.adp.state ≠ .DONE) : s.adp.Reads (s.adpIn B i) := by
  cases hst : s.adp.state <;>
    simp_all [Fsm, CacheAdapter.Regs.Reads, adpIn, MemArbiter.Regs.memReqValid]

/-- The signals of the adapter that reads are those of the read engine. -/
theorem Fsm.signals (B : ℕ) (TIMEOUT_LIMIT : BitVec 16) (h : s.Fsm) (hw : s.arb.memReqWrite = false)
    (hd : s.adp.state ≠ .DONE) :
    (s.readSys B).eng.rdTimeout TIMEOUT_LIMIT = s.adp.timeout TIMEOUT_LIMIT ∧
      (s.readSys B).eng.mAxiArvalid = s.adp.mAxiArvalid ∧
      (s.readSys B).eng.mAxiRready = s.adp.mAxiRready ∧
      s.adp.mAxiAwvalid = false ∧ s.adp.mAxiWvalid = false := by
  cases hst : s.adp.state <;>
    simp_all +decide [Fsm, readSys, CacheAdapter.Regs.readEngine, RdRegs.rdTimeout, RdRegs.rdEligible,
      RdRegs.mAxiArvalid, RdRegs.mAxiRready, CacheAdapter.Regs.timeout,
      CacheAdapter.Regs.timeoutEligible,
      CacheAdapter.Regs.mAxiArvalid, CacheAdapter.Regs.mAxiRready, CacheAdapter.Regs.mAxiAwvalid,
      CacheAdapter.Regs.mAxiWvalid] <;>
    rfl

/-- A burst from the first line on is as long as the engine's. -/
theorem Inv.mAxiArlen_eq (h : s.Inv B) (hp : s.arb.state = some p) (hst : s.adp.state = .READ_ADDR) :
    s.adp.mAxiArlen B = (s.readSys B).eng.mAxiArlen B := by
  have hfsm := h.fsm
  simp only [Fsm, hst] at hfsm
  obtain ⟨-, hw, -, -, hsent⟩ := hfsm
  obtain ⟨-, -, hphase⟩ := (h.read hw).active _ (rreq_reading hp hw)
  have hlines : s.adp.savedLines.toNat ≠ 0 := by
    have heng : (s.readSys B).eng.rdState = .RD_ADDR := by
      simp [readSys, CacheAdapter.Regs.readEngine, hst]
    cases hphase with
    | offered _ _ _ _ lines =>
      rw [show s.adp.savedLines.toNat = _ from lines]
      exact (RReq.count_pos _).ne'
    | fresh st | again st | reading st | last st | held st => exact absurd (heng.symm.trans st) (by simp)
  have hrem : (s.readSys B).eng.rdRemaining = s.adp.savedLines := by
    have hlt : (0 : BitVec 8) < s.adp.savedLines := by
      rw [BitVec.lt_def]
      exact Nat.pos_of_ne_zero hlines
    change (if s.adp.lineSent < s.adp.savedLines then s.adp.savedLines - s.adp.lineSent else 1) = _
    rw [hsent, if_pos hlt]
    exact BitVec.sub_zero _
  rw [CacheAdapter.Regs.mAxiArlen, RdRegs.mAxiArlen, hrem]

/-- A read that is served goes on as in the read engine. -/
theorem Inv.readSys_next (h : s.Inv B) (hp : s.arb.state = some p)
    (hw : s.arb.memReqWrite = false) (hd : s.adp.state ≠ .DONE) :
    (s.next B TIMEOUT_LIMIT i).readSys B = (s.readSys B).next TIMEOUT_LIMIT (s.readIn i) := by
  have hrel : s.release = false := by rw [h.release_eq hp, beq_eq_false_iff_ne.2 hd]
  have hc : (s.readSys B).leaves (s.readIn i) = false := by
    rw [RetrySys.leaves, h.complete_eq hp hw, beq_eq_false_iff_ne.2 hd, Bool.false_and]
  obtain ⟨hp', hw', ha', hl', -⟩ := s.arb_next_busy B TIMEOUT_LIMIT i hp hrel
  have hreq : (s.readSys B).req = some ⟨s.arb.savedReqAddr, s.arb.savedReqLines⟩ := rreq_reading hp hw
  obtain ⟨ht, har, hr, -, hwv⟩ := h.fsm.signals B TIMEOUT_LIMIT hw hd
  -- The fields in order: engine, transaction, request, memory, lines got.
  ext1
  · exact (CacheAdapter.Regs.readEngine_next (h.fsm.reads B i hp hw hd)).trans
      (by rw [adpIn_rd hp hw]; rfl)
  · have haddr : (s.readSys B).eng.mAxiAraddr = s.adp.mAxiAraddr := rfl
    simp only [RetrySys.next, ht, har, hr, haddr]
    cases hv : s.adp.mAxiArvalid with
    | false => simp [next, readSys, arBeat, rBeat, hv, readIn]
    | true =>
      rw [← h.mAxiArlen_eq hp (by simpa [CacheAdapter.Regs.mAxiArvalid] using hv)]
      simp [next, readSys, arBeat, rBeat, hv, readIn]
  · have hnext : (s.next B TIMEOUT_LIMIT i).rreq = some ⟨s.arb.savedReqAddr, s.arb.savedReqLines⟩ := by
      rw [rreq_reading hp' (hw'.trans hw), ha', hl']
    simp only [RetrySys.next, hc, hreq, Option.isSome_some, if_true, Bool.false_eq_true, if_false]
    exact hnext
  · have hmem : (s.next B TIMEOUT_LIMIT i).mem = s.mem := by
      cases hx : s.wtxn <;> simp [next, wBeat, hwv, hx]
    simp only [RetrySys.next, hreq, Option.isSome_some, if_true]
    exact hmem
  · have hgot : (s.next B TIMEOUT_LIMIT i).got = s.lines := by simp [next, hp, hrel]
    simp only [RetrySys.next, hc, hreq, ← h.fsm.lines_eq hw, Option.isSome_some,
      Bool.not_false, Bool.and_self, if_true]
    exact hgot

/-- The read in service stays within its request. -/
theorem Inv.readSys_inv_next (TIMEOUT_LIMIT : BitVec 16) (i : LegacyInputs)
    (hdvd : B * (16 / B) = 16) (h : s.Inv B) (hp : s.arb.state = some p)
    (hw : s.arb.memReqWrite = false) (hd : s.adp.state ≠ .DONE) :
    ((s.next B TIMEOUT_LIMIT i).readSys B).Inv := by
  rw [h.readSys_next hp hw hd]
  exact (h.read hw).next hdvd ⟨nofun, fun _ _ _ _ => rfl⟩

/-- The adapter at rest stays there. -/
theorem adp_next_rest (B : ℕ) (TIMEOUT_LIMIT : BitVec 16) (s : LegacyBus) (i : LegacyInputs)
    (hp : s.arb.state = none) (hst : s.adp.state = .IDLE) :
    (s.next B TIMEOUT_LIMIT i).adp =
      { s.adp with lineReady := false, memWnext := false, timeoutCnt := 0 } := by
  have hv : (s.adpIn B i).memReqValid = false := by simp [adpIn, MemArbiter.Regs.memReqValid, hp]
  simp only [next]
  generalize s.adpIn B i = j at hv
  simp [CacheAdapter.Regs.next, CacheAdapter.Regs.timeout, CacheAdapter.Regs.timeoutEligible,
    CacheAdapter.Regs.nextState, CacheAdapter.Regs.start, CacheAdapter.Regs.readTake,
    CacheAdapter.Regs.writeTake,
    CacheAdapter.Regs.readLineEnd, CacheAdapter.Regs.writeLineEnd, CacheAdapter.Regs.writeEarly, hst, hv]

/-- The adapter after its work is done. -/
theorem adp_next_done (B : ℕ) (TIMEOUT_LIMIT : BitVec 16) (s : LegacyBus) (i : LegacyInputs)
    (hst : s.adp.state = .DONE) :
    (s.next B TIMEOUT_LIMIT i).adp =
      { s.adp with
        state := .IDLE
        beatCount := 0
        lineReady := false
        memWnext := false
        timeoutCnt := 0 } := by
  simp only [next]
  generalize s.adpIn B i = j
  simp [CacheAdapter.Regs.next, CacheAdapter.Regs.timeout, CacheAdapter.Regs.timeoutEligible,
    CacheAdapter.Regs.nextState, CacheAdapter.Regs.start, CacheAdapter.Regs.readTake,
    CacheAdapter.Regs.writeTake,
    CacheAdapter.Regs.readLineEnd, CacheAdapter.Regs.writeLineEnd, CacheAdapter.Regs.writeEarly, hst]

/-- No transaction is left when the adapter rests, or is done. -/
theorem Inv.rtxn_eq_none (h : s.Inv B) (hd : s.arb.state = none ∨ s.adp.state = .DONE) :
    s.rtxn = none := by
  rcases hp : s.arb.state with _ | p
  · exact ((h.read (memReqWrite_none hp)).rest (rreq_none hp)).2.2.2.1
  · cases hw : s.arb.memReqWrite with
    | true => exact h.write hw
    | false =>
      have hst := hd.resolve_left (by simp [hp])
      have hc := h.complete_eq hp hw
      rw [hst, beq_self_eq_true] at hc
      obtain ⟨-, -, hphase⟩ := (h.read hw).active _ (rreq_reading hp hw)
      cases hphase with
      | fresh _ _ _ _ txn | again _ _ _ _ txn | offered _ _ _ _ _ _ _ txn | last _ _ _ txn
      | held _ _ _ _ txn =>
        exact txn
      | reading st =>
        have hdone := ((h.read hw).complete_iff (rreq_reading hp hw) rfl).1 hc
        exact absurd (st.symm.trans hdone) nofun

/-- Nothing is served, and the adapter rests. -/
theorem Inv.of_none (hp : s.arb.state = none) (hst : s.adp.state = .IDLE)
    (hready : s.adp.lineReady = false)
    (hret : s.adp.retrying = false) (htx : s.rtxn = none) (hgot : s.got = []) : s.Inv B where
  fsm := by simp [Fsm, hst, hready, hret]
  read _ :=
    .of_none (rreq_none hp) (by simp [readSys, CacheAdapter.Regs.readEngine, hst]) hready hret htx
      hgot
  write _ := htx
  cache p hp' := absurd (hp.symm.trans hp') nofun
  count hp' := absurd (hp.symm.trans hp') nofun
  owner hne := absurd hst hne

/-- A request is granted. -/
theorem Inv.of_grant (hp : s.arb.state = some p) (hst : s.adp.state = .IDLE)
    (hready : s.adp.lineReady = false)
    (hret : s.adp.retrying = false) (htx : s.rtxn = none) (hgot : s.got = [])
    (hlines : p ≠ .A → s.arb.savedReqLines = 1) (hcount : p = .A → s.arb.lineCount = 0)
    (hlen : s.arb.memReqWrite = false →
      B * RReq.count ⟨s.arb.savedReqAddr, s.arb.savedReqLines⟩ ≤ 256) : s.Inv B where
  fsm := by simp [Fsm, hst, hready, hret]
  read hw := .of_phase (rreq_reading hp hw) (hlen hw) (by simp [readSys, hgot, RReq.linesOf])
    (.fresh (by simp [readSys, CacheAdapter.Regs.readEngine, hst]) rfl hret hready htx hgot)
  write _ := htx
  cache q hq hne := hlines (by rwa [Option.some_inj.1 (hp.symm.trans hq)])
  count hq _ := by rw [hcount (Option.some_inj.1 (hp.symm.trans hq)), hgot]; rfl
  owner hne := absurd hst hne

theorem Inv.next_none (hdvd : B * (16 / B) = 16) (h : s.Inv B) (hi : s.Resumable B TIMEOUT_LIMIT i)
    (hp : s.arb.state = none) : (s.next B TIMEOUT_LIMIT i).Inv B := by
  obtain ⟨hst, hret⟩ : s.adp.state = .IDLE ∧ s.adp.retrying = false := by
    have := h.fsm
    cases hst : s.adp.state <;> simp_all [Fsm]
  have hadp := s.adp_next_rest B TIMEOUT_LIMIT i hp hst
  have htx : (s.next B TIMEOUT_LIMIT i).rtxn = none := by
    simp [next, h.rtxn_eq_none (.inl hp), arBeat, rBeat, CacheAdapter.Regs.mAxiArvalid, hst]
  have hgot : (s.next B TIMEOUT_LIMIT i).got = [] := by simp [next, hp]
  -- Either no port asks and nothing moves, or the grant latches a request for the adapter.
  rcases hg : s.arb.grant i.ports with _ | p
  · have harb : (s.next B TIMEOUT_LIMIT i).arb = s.arb := MemArbiter.Regs.next_none hp hg _
    exact .of_none (by rw [harb, hp]) (by rw [hadp]; exact hst) (by rw [hadp])
      (by rw [hadp]; exact hret) htx hgot
  · have harb : (s.next B TIMEOUT_LIMIT i).arb = _ := MemArbiter.Regs.next_grant hp hg _
    refine .of_grant (p := p) (by rw [harb]) (by rw [hadp]; exact hst) (by rw [hadp])
      (by rw [hadp]; exact hret) htx
      hgot ?_ ?_ ?_
    · rw [harb]
      cases p <;> simp [MemArbiter.Ports.reqLines]
    · rw [harb]
      exact fun hA => if_pos hA
    · rw [harb]
      cases p with
      | A =>
        exact fun hw => hi.fits hg (by simpa [MemArbiter.Regs.memReqWrite,
          MemArbiter.Ports.reqWrite] using hw)
      | D | I =>
        intro _
        have hB : B ≤ 16 := Nat.le_of_dvd (by decide) ⟨_, hdvd.symm⟩
        simp only [MemArbiter.Ports.reqLines, RReq.count]
        exact (Nat.mul_one B).trans_le (hB.trans (by decide))

/-- The last line is announced, or the write acknowledged, and the port is released. -/
theorem Inv.next_done (h : s.Inv B) (hp : s.arb.state = some p) (hst : s.adp.state = .DONE) :
    (s.next B TIMEOUT_LIMIT i).Inv B := by
  have hrel : s.release := by rw [h.release_eq hp, hst, beq_self_eq_true]
  have hfsm := h.fsm
  simp only [Fsm, hst] at hfsm
  have hadp := s.adp_next_done B TIMEOUT_LIMIT i hst
  refine .of_none ?_ (by rw [hadp]) (by rw [hadp]) (by rw [hadp]; exact hfsm.2.2.2) ?_ ?_
  · have hrel' : s.arb.release s.adp.memReady := hrel
    simp [next, MemArbiter.Regs.next, hp, hrel']
  · simp [next, h.rtxn_eq_none (.inr hst), arBeat, rBeat, CacheAdapter.Regs.mAxiArvalid, hst]
  · simp [next, hrel]

/-- The states a read goes through. -/
theorem Inv.fsm_next_reading (hdvd : B * (16 / B) = 16) (h : s.Inv B)
    (hi : s.Resumable B TIMEOUT_LIMIT i)
    (hp : s.arb.state = some p) (hw : s.arb.memReqWrite = false) (hd : s.adp.state ≠ .DONE) :
    (s.next B TIMEOUT_LIMIT i).Fsm := by
  have hrel : s.release = false := by rw [h.release_eq hp, beq_eq_false_iff_ne.2 hd]
  obtain ⟨hp', hw', -⟩ := s.arb_next_busy B TIMEOUT_LIMIT i hp hrel
  rw [hw] at hw'
  have hinv := h.readSys_inv_next TIMEOUT_LIMIT i hdvd hp hw hd
  have hbusy : (s.next B TIMEOUT_LIMIT i).arb.state.isSome := by rw [hp']; rfl
  have hadp : (s.next B TIMEOUT_LIMIT i).adp = s.adp.next TIMEOUT_LIMIT (s.adpIn B i) := rfl
  have hcases := CacheAdapter.Regs.read_cases TIMEOUT_LIMIT (h.fsm.reads B i hp hw hd)
  have hfsm := h.fsm
  rw [← hadp] at hcases
  rcases hcases with ⟨hst, hst', hsw, hready, hsent⟩ | ⟨ht, hsw, hst', hready, hsent⟩ |
    ⟨hst, hst', hsw, hready, hsent⟩ |
    ⟨hst, hst', hsw⟩
  · -- Taken up from IDLE: a retry starts at line 0 too, as the inputs are resumable.
    have hret : (s.next B TIMEOUT_LIMIT i).adp.lineSent = 0 := by
      simp only [Fsm, hst] at hfsm
      rw [hsent]
      split_ifs with hr
      · exact (hfsm.2 hr).2 hw
      · rfl
    simp only [Fsm, hst']
    exact ⟨hbusy, hw', hsw, hready, hret⟩
  · -- Given up: resumable inputs time out before the first line only.
    simp only [Fsm, hst']
    exact ⟨hready, fun _ => ⟨hbusy, fun _ => hsent.trans (hi.timeout ht hsw)⟩⟩
  · simp only [Fsm, hst] at hfsm
    rcases hst' with hst' | hst'
    · simp only [Fsm, hst']
      exact ⟨hbusy, hw', hsw, hready, hsent.trans hfsm.2.2.2.2⟩
    · simp only [Fsm, hst']
      exact ⟨hbusy, hw', hsw⟩
  · rcases hst' with hst' | hst'
    · simp only [Fsm, hst']
      exact ⟨hbusy, hw', hsw⟩
    · -- The data phase ends with the last line ready, by the phases of the read engine.
      obtain ⟨-, -, hphase⟩ := hinv.active _ (rreq_reading hp' hw')
      have hdone : ((s.next B TIMEOUT_LIMIT i).readSys B).eng.rdState = .RD_DONE := by
        simp [readSys, CacheAdapter.Regs.readEngine, hst', hsw]
      simp only [Fsm, hst', hw']
      cases hphase with
      | last _ retrying ready => exact ⟨hbusy, hsw, ready, retrying⟩
      | fresh st | again st | offered st | reading st | held st =>
        exact absurd (hdone.symm.trans st) (by simp)

/-- The states a write goes through. -/
theorem Fsm.next_writing (h : s.Fsm) (hp : s.arb.state = some p) (hw : s.arb.memReqWrite)
    (hd : s.adp.state ≠ .DONE) (hrel : s.release = false) : (s.next B TIMEOUT_LIMIT i).Fsm := by
  obtain ⟨hp', hw', -⟩ := s.arb_next_busy B TIMEOUT_LIMIT i hp hrel
  rw [hw] at hw'
  have hbusy : (s.next B TIMEOUT_LIMIT i).arb.state.isSome := by rw [hp']; rfl
  have hadp : (s.next B TIMEOUT_LIMIT i).adp = s.adp.next TIMEOUT_LIMIT (s.adpIn B i) := rfl
  have hwrites : s.adp.Writes (s.adpIn B i) := by
    cases hst : s.adp.state <;> simp_all [Fsm, CacheAdapter.Regs.Writes, adpIn,
      MemArbiter.Regs.memReqValid]
  have hret : s.adp.state ≠ .IDLE → s.adp.retrying = false := by
    cases hst : s.adp.state <;> simp_all [Fsm]
  have hcases := CacheAdapter.Regs.write_cases TIMEOUT_LIMIT hwrites hret
  rw [← hadp] at hcases
  obtain ⟨hready, hst' | ⟨hst', hsw, hret'⟩⟩ := hcases
  · simp only [Fsm, hst']
    exact ⟨hready, fun _ => ⟨hbusy, fun h => absurd (hw'.symm.trans h) (by simp)⟩⟩
  · rcases hst' with hst' | hst' | hst' | hst' <;> simp only [Fsm, hst']
    · exact ⟨hbusy, hw', hsw, hready, hret'⟩
    · exact ⟨hbusy, hw', hsw, hready, hret'⟩
    · exact ⟨hbusy, hw', hsw, hready, hret'⟩
    · exact ⟨hbusy, hsw.trans hw'.symm, by rw [hready, hw']; rfl, hret'⟩

/-- The arbiter counts the lines that are announced. -/
theorem Inv.count_next (h : s.Inv B) (hp : s.arb.state = some .A) (hw : s.arb.savedReqWrite = false)
    (hrel : s.release = false) :
      (s.next B TIMEOUT_LIMIT i).arb.lineCount.toNat = (s.next B TIMEOUT_LIMIT i).got.length := by
  have hw' : s.arb.memReqWrite = false := by simp [MemArbiter.Regs.memReqWrite, hw]
  have hcount : RReq.count ⟨s.arb.savedReqAddr, s.arb.savedReqLines⟩ < 2 ^ 8 := BitVec.isLt _
  have hle := ((h.read hw').lines_eq (rreq_reading hp hw')).2
  rw [← h.fsm.lines_eq hw'] at hle
  have hn := h.count hp hw
  have hrel' : s.arb.release s.adp.memReady = false := hrel
  have hgot : (s.next B TIMEOUT_LIMIT i).got = s.lines := by simp [next, hp, hrel]
  rw [hgot]
  cases hr : s.adp.memReady with
  | false => simp [next, MemArbiter.Regs.next, hp, hr, lines, hn]
  | true =>
    have hl : s.lines.length = s.got.length + 1 := by simp [lines, hr]
    have hadd : (s.arb.lineCount + 1).toNat = s.arb.lineCount.toNat + 1 :=
      BitVec.toNat_add_of_lt (by rw [hn]; exact hl ▸ hle.trans_lt hcount)
    have hc : (s.next B TIMEOUT_LIMIT i).arb.lineCount = s.arb.lineCount + 1 := by
      rw [hr] at hrel'
      simp [next, MemArbiter.Regs.next, hp, hr, hrel']
    rw [hc, hadd, hn, hl]

/-- A request in service goes on. -/
theorem Inv.next_busy (hdvd : B * (16 / B) = 16) (h : s.Inv B) (hi : s.Resumable B TIMEOUT_LIMIT i)
    (hp : s.arb.state = some p) (hd : s.adp.state ≠ .DONE) : (s.next B TIMEOUT_LIMIT i).Inv B := by
  have hrel : s.release = false := by rw [h.release_eq hp, beq_eq_false_iff_ne.2 hd]
  obtain ⟨hp', hw', -, hl', hsw'⟩ := s.arb_next_busy B TIMEOUT_LIMIT i hp hrel
  refine ⟨?_, fun hr => ?_, fun hwr => ?_, fun q hq hne => ?_, fun hq hwr => ?_, fun hne => ?_⟩
  · cases hw : s.arb.memReqWrite with
    | true => exact h.fsm.next_writing hp hw hd hrel
    | false => exact h.fsm_next_reading hdvd hi hp hw hd
  · rw [hw'] at hr
    exact h.readSys_inv_next TIMEOUT_LIMIT i hdvd hp hr hd
  · rw [hw'] at hwr
    have har : s.arBeat i = false ∧ s.rBeat i = false := by
      have := h.fsm
      cases hst : s.adp.state <;>
        simp_all [Fsm, arBeat, rBeat, CacheAdapter.Regs.mAxiArvalid, CacheAdapter.Regs.mAxiRready]
    simp [next, har.1, har.2, h.write hwr]
  · rw [hl']
    exact h.cache q (hp.trans (hp'.symm.trans hq)) hne
  · rw [hsw'] at hwr
    exact h.count_next (hp.trans (hp'.symm.trans hq)) hwr hrel
  · have hg : (s.next B TIMEOUT_LIMIT i).grants = s.grants := by simp [next, MemArbiter.grant_of_busy hp]
    rw [hg]
    by_cases hst : s.adp.state = .IDLE
    · have hstart : s.adp.start (s.adpIn B i) := by
        simp [CacheAdapter.Regs.start, hst, adpIn, MemArbiter.Regs.memReqValid, hp]
      simp [next, hstart]
    · have hstart : s.adp.start (s.adpIn B i) = false := by simp [CacheAdapter.Regs.start, hst]
      simp [next, hstart, h.owner hst]

theorem Inv.next (hdvd : B * (16 / B) = 16) (h : s.Inv B) (hi : s.Resumable B TIMEOUT_LIMIT i) :
    (s.next B TIMEOUT_LIMIT i).Inv B := by
  rcases hp : s.arb.state with _ | p
  · exact h.next_none hdvd hi hp
  · by_cases hd : s.adp.state = .DONE
    · exact h.next_done hp hd
    · exact h.next_busy hdvd hi hp hd

theorem inv_of_isReset (h : s.IsReset) : s.Inv B := by
  obtain ⟨⟨hp, -⟩, ⟨hst, -, -, hready, -, -, -, -, -, -, -, -, -, hret, -⟩, hrtxn, -, hgot⟩ := h
  exact .of_none hp hst hready hret hrtxn hgot

/-! ## A read is served -/

/-- What a cycle does is for the request that is served: a pulse of `mem_ready` comes from a
    transaction started for it, the lines of a read are announced in order, and the port is released
    with the last one. -/
structure InOrder (s : LegacyBus) : Prop where
  pulse : s.adp.memReady → ∃ p, s.arb.ready s.adp.memReady p ∧ s.owner = s.grants
  lines : ∀ r, s.rreq = some r → s.lines = r.linesOf s.mem s.lines.length ∧ s.lines.length ≤ r.count
  release : ∀ r, s.rreq = some r → (s.release ↔ s.lines.length = r.count)

theorem Inv.inOrder (h : s.Inv B) : s.InOrder where
  pulse hr := by
    have hne : s.adp.state ≠ .IDLE := fun hst => by simp [CacheAdapter.Regs.memReady, hst] at hr
    have hbusy : s.arb.state.isSome := by
      have := h.fsm
      cases hst : s.adp.state <;> simp_all [Fsm]
    obtain ⟨p, hp⟩ := Option.isSome_iff_exists.1 hbusy
    exact ⟨p, by simp [MemArbiter.Regs.ready, hp, hr], h.owner hne⟩
  lines r hr := by
    obtain ⟨p, hp, hw, -⟩ := reading_of_rreq hr
    rw [h.fsm.lines_eq (B := B) hw]
    exact (h.read hw).lines_eq hr
  release r hr := by
    obtain ⟨p, hp, hw, -⟩ := reading_of_rreq hr
    have hle := ((h.read hw).lines_eq hr).2
    have hc : (s.readSys B).complete = decide (r.count ≤ (s.readSys B).lines.length) := by
      rw [RetrySys.complete, show (s.readSys B).req = some r from hr, Option.any_some]
    rw [h.release_eq hp, ← h.complete_eq hp hw, hc, h.fsm.lines_eq (B := B) hw, decide_eq_true_iff]
    exact ⟨fun hge => Nat.le_antisymm hle hge, fun he => he.ge⟩

/-- A read that is not abandoned comes nearer to its end. -/
theorem Inv.rank_next (hdvd : B * (16 / B) = 16) (h : s.Inv B) {r : RReq} (hr : s.rreq = some r)
    (ht : s.adp.timeout TIMEOUT_LIMIT = false) (hrel : s.release = false) :
    ((s.next B TIMEOUT_LIMIT i).readSys B).rank < (s.readSys B).rank := by
  obtain ⟨p, hp, hw, -⟩ := reading_of_rreq hr
  have hd : s.adp.state ≠ .DONE := by
    rw [h.release_eq hp, beq_eq_false_iff_ne] at hrel
    exact hrel
  have hc : (s.readSys B).complete = false := by rw [h.complete_eq hp hw, beq_eq_false_iff_ne.2 hd]
  rw [h.readSys_next hp hw hd]
  refine (h.read hw).rank_next hdvd hr ?_ hc
  rw [(h.fsm.signals B TIMEOUT_LIMIT hw hd).1, ht]

/-- It is held, over the same memory and under the same grant. -/
theorem Inv.rreq_next (TIMEOUT_LIMIT : BitVec 16) (i : LegacyInputs) (h : s.Inv B) {r : RReq}
    (hr : s.rreq = some r) (hrel : s.release = false) :
    (s.next B TIMEOUT_LIMIT i).rreq = some r ∧ (s.next B TIMEOUT_LIMIT i).mem = s.mem ∧
      (s.next B TIMEOUT_LIMIT i).arb.state = s.arb.state ∧
      (s.next B TIMEOUT_LIMIT i).grants = s.grants := by
  obtain ⟨p, hp, hw, hr'⟩ := reading_of_rreq hr
  have hd : s.adp.state ≠ .DONE := by
    rw [h.release_eq hp, beq_eq_false_iff_ne] at hrel
    exact hrel
  obtain ⟨hp', hw', ha', hl', -⟩ := s.arb_next_busy B TIMEOUT_LIMIT i hp hrel
  refine ⟨by rw [rreq_reading hp' (hw'.trans hw), ha', hl', hr'], ?_, hp'.trans hp.symm, ?_⟩
  · have hwv := (h.fsm.signals B TIMEOUT_LIMIT hw hd).2.2.2.2
    cases hx : s.wtxn <;> simp [LegacyBus.next, wBeat, hwv, hx]
  · simp [LegacyBus.next, MemArbiter.grant_of_busy hp]

end LegacyBus

/-! ## A run -/

variable {B : ℕ} {TIMEOUT_LIMIT : BitVec 16} {σ : ℕ → LegacyBus} {ι : ℕ → LegacyInputs}

theorem LegacyBus.inv_of_isRun (hdvd : B * (16 / B) = 16) (h : (legacyBus B TIMEOUT_LIMIT).IsRun σ ι)
    (hi : ∀ n, (σ n).Resumable B TIMEOUT_LIMIT (ι n)) (n : ℕ) : (σ n).Inv B := by
  induction n with
  | zero => exact inv_of_isReset h.init
  | succ n ih => exact h.next n ▸ ih.next hdvd (hi n)

/-- As long as no read is abandoned after its first line, a read of any port gets the lines it asked
    for, in order, and no line of it goes anywhere else; it does get them all, unless the memory
    stalls for ever. -/
theorem legacyRead_of_isRun (hdvd : B * (16 / B) = 16) (h : (legacyBus B TIMEOUT_LIMIT).IsRun σ ι)
    (hi : ∀ n, (σ n).Resumable B TIMEOUT_LIMIT (ι n)) (n : ℕ) :
    (σ n).InOrder ∧ ∀ r, (σ n).rreq = some r →
      (∃ N, ∀ k ≥ N, (σ k).adp.timeout TIMEOUT_LIMIT = false) →
        ∃ m ≥ n, (∀ k, n ≤ k → k ≤ m → (σ k).rreq = some r ∧
          (σ k).arb.state = (σ n).arb.state ∧
            (σ k).grants = (σ n).grants) ∧
          (σ m).release ∧ (σ m).lines = r.linesOf (σ n).mem r.count := by
  have hinv := LegacyBus.inv_of_isRun hdvd h hi
  have hnext : ∀ k, σ (k + 1) = (σ k).next B TIMEOUT_LIMIT (ι k) := h.next
  refine ⟨(hinv n).inOrder, fun r hr ⟨N, ht⟩ => ?_⟩
  obtain ⟨m, hm, hall, hrel⟩ :=
    Circuit.exists_of_rank_from (fun s => (s.readSys B).rank) (σ := σ) (ι := ι) (N := N)
    (P := fun s => s.Inv B ∧ s.rreq = some r ∧ s.mem = (σ n).mem ∧ s.arb.state = (σ n).arb.state ∧
      s.grants = (σ n).grants) (Q := fun s _ => s.release)
    (fun k ⟨_, hr, hmem, hst, hg⟩ hrel => by
      obtain ⟨hr', hmem', hst', hg'⟩ := (hinv k).rreq_next TIMEOUT_LIMIT (ι k) hr
        (Bool.not_eq_true _ ▸ hrel)
      rw [← hnext] at hr' hmem' hst' hg'
      exact ⟨hinv _, hr', hmem'.trans hmem, hst'.trans hst, hg'.trans hg⟩)
    (fun k hk ⟨_, hr, _⟩ hrel => by
      rw [hnext]
      exact (hinv k).rank_next hdvd hr (ht k hk) (Bool.not_eq_true _ ▸ hrel))
    ⟨hinv n, hr, rfl, rfl, rfl⟩
  obtain ⟨-, hr', hmem', -⟩ := hall m hm le_rfl
  refine ⟨m, hm, fun k h₁ h₂ => ?_, hrel, ?_⟩
  · obtain ⟨-, hr, -, hst, hg⟩ := hall k h₁ h₂
    exact ⟨hr, hst, hg⟩
  · rw [((hinv m).inOrder.lines r hr').1, ((hinv m).inOrder.release r hr').1 hrel, hmem']

/-! ### Two reads -/

/-- Everything out of reset, over a memory that holds the low byte of each address. -/
def resetLegacyBus : LegacyBus where
  arb := ⟨none, false, 1, 0, 0, 0, .D⟩
  adp := ⟨.IDLE, 0, 0, 0, 0, false, 1, false, 0, false, false, false, false, 0, 0, 0⟩
  mem := lowBytes
  rtxn := none
  wtxn := none
  got := []
  grants := 0
  owner := 0

theorem isReset_resetLegacyBus : resetLegacyBus.IsReset :=
  ⟨⟨rfl, rfl, rfl, rfl, rfl, rfl, rfl⟩,
    ⟨rfl, rfl, rfl, rfl, rfl, rfl, rfl, rfl, rfl, rfl, rfl, rfl, rfl, rfl, rfl, rfl⟩, rfl, rfl, rfl⟩

/-- The accelerator asks for two lines, and holds its request up to the cycle `a`; the instruction
    cache asks for one on the next cycle, and holds its request up to the cycle `c`. The memory has
    a beat ready when `rvalid` says so. -/
def twoReads (a c : ℕ) (rvalid : ℕ → Bool) (n : ℕ) : LegacyInputs where
  ports := ⟨0 < n && n ≤ c, 0x100, false, false, 0, 0, n ≤ a, false, 0x80000000, 2, 0⟩
  mAxiArready := true
  mAxiRvalid := rvalid n
  mAxiAwready := true
  mAxiWready := true
  mAxiBvalid := true

/-- The memory stalls in the middle of the second line. -/
def stalledBetween : ℕ → LegacyInputs := twoReads 13 15 fun n => n ≤ 5 || 9 ≤ n

def surplusTrace : ℕ → LegacyBus := (legacyBus 2 2).trace resetLegacyBus stalledBetween

/-- The burst that takes the read up again goes on after its second line, and the third one goes to the
    instruction cache for its own. -/
theorem surplus_line :
    (legacyBus 2 2).IsRun surplusTrace stalledBetween ∧ (surplusTrace 1).arb.state = some .A ∧
      (surplusTrace 1).rreq = some ⟨0x80000000, 2⟩ ∧ (surplusTrace 1).grants = 1 ∧
      (surplusTrace 15).arb.ready (surplusTrace 15).adp.memReady .I ∧ (surplusTrace 15).owner = 1 ∧
      (surplusTrace 15).rreq = some ⟨0x100, 1⟩ ∧ (surplusTrace 15).lines = [lowBytes.line 0x80000020] ∧
      ¬(surplusTrace 15).InOrder := by
  refine ⟨Circuit.isRun_trace isReset_resetLegacyBus fun _ => trivial, by decide +kernel,
    by decide +kernel,
    by decide +kernel, by decide +kernel, by decide +kernel, by decide +kernel, by
      decide +kernel, fun h => ?_⟩
  obtain ⟨-, -, ho⟩ := h.pulse (by decide +kernel)
  exact absurd ho (by decide +kernel)

/-- The memory stalls before the first line. -/
def stalledBefore : ℕ → LegacyInputs := twoReads 12 18 fun n => 6 ≤ n

def resumedTrace : ℕ → LegacyBus := (legacyBus 2 2).trace resetLegacyBus stalledBefore

/-- In the end nobody asks, and nothing is left to do. -/
theorem resumedTrace_rest {n : ℕ} (hn : 19 ≤ n) :
    (resumedTrace n).arb.state = none ∧ (resumedTrace n).adp.state = .IDLE := by
  induction n, hn using Nat.le_induction with
  | base => exact ⟨by decide +kernel, by decide +kernel⟩
  | succ n hn ih =>
    have hnext : resumedTrace (n + 1) = (resumedTrace n).next 2 2 (stalledBefore n) := rfl
    have hg : (resumedTrace n).arb.grant (stalledBefore n).ports = none := by
      have hI : (stalledBefore n).ports.icacheReqValid = false := by
        simp [stalledBefore, twoReads]; omega
      have hA : (stalledBefore n).ports.accelReqValid = false := by simp [stalledBefore, twoReads]; omega
      have hD : (stalledBefore n).ports.dcacheReqValid = false := rfl
      simp [MemArbiter.Regs.grant, MemArbiter.Regs.grantD, MemArbiter.Regs.grantI,
        MemArbiter.Regs.grantA, hI, hA, hD]
    rw [hnext, LegacyBus.adp_next_rest _ _ _ _ ih.1 ih.2]
    exact ⟨(congrArg MemArbiter.Regs.state (MemArbiter.Regs.next_none ih.1 hg _)).trans ih.1, ih.2⟩

theorem resumedTrace_resumable (n : ℕ) : (resumedTrace n).Resumable 2 2 (stalledBefore n) where
  timeout ht _ := by
    rcases Nat.lt_or_ge n 19 with hn | hn
    · have hall : ∀ n < 19, (resumedTrace n).adp.timeout 2 → (resumedTrace n).adp.lineSent = 0 := by
        decide +kernel
      exact hall n hn ht
    · rw [CacheAdapter.Regs.timeout, CacheAdapter.Regs.timeoutEligible, (resumedTrace_rest hn).2] at ht
      cases ht
  fits _ _ := by
    change 2 * RReq.count ⟨0x80000000, 2⟩ ≤ 256
    decide

/-- The read is taken up again, and gets its two lines. -/
theorem resumedTrace_lines :
    (resumedTrace 12).adp.retryCount = 1 ∧ (resumedTrace 12).release ∧
      (resumedTrace 12).lines = RReq.linesOf ⟨0x80000000, 2⟩ (resumedTrace 12).mem 2 := by
  have hrun : (legacyBus 2 2).IsRun resumedTrace stalledBefore :=
    Circuit.isRun_trace isReset_resetLegacyBus fun _ => trivial
  have hreq : (resumedTrace 12).rreq = some ⟨0x80000000, 2⟩ := by decide +kernel
  have hlen : (resumedTrace 12).lines.length = 2 := by decide +kernel
  have h := ((legacyRead_of_isRun (by decide) hrun resumedTrace_resumable 12).1.lines _ hreq).1
  rw [hlen] at h
  exact ⟨by decide +kernel, by decide +kernel, h⟩

end Rv32Soc
