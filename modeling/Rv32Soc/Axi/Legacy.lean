import Rv32Soc.Axi.LegacyBus
import Rv32Soc.Axi.PortTrace
import Rv32Soc.Axi.Transport

/-!
# The legacy path

`accel_port_join.v` over `mem_arbiter.v` and `axi_cache_adapter.v` on a bus of 64 bits,
between the requesters of line transport and an AXI4 memory, while no timeout fires. One
transaction is served at a time, and the arbiter, the join and the requester each count
the lines of a read by the pulses of the one `mem_ready`.

* `Legacy.Link`: they agree, and a request is released by all of them on the same cycle;
* `Legacy.writeSys`: the adapter that writes is the write engine of line transport;
* `Legacy.lawful_portTrace`: a run obeys the laws of the ports.
-/

namespace Rv32Soc

open AxiRw

namespace MemArbiter.Port

/-- The port of a requester to the split path. -/
def rport : Port → RPort
  | .D => .D
  | .I => .I
  | .A => .A

def wport : Port → Option WPort
  | .D => some .D
  | .I => none
  | .A => some .A

end MemArbiter.Port

/-- The join, the arbiter with what is below it, and the requesters: their reads with the number of
    lines got, their writes with the number of lines asked for after the first, and what the memory
    was when the request served was granted. -/
structure Legacy where
  join : PortJoin.Regs
  bus : LegacyBus
  reads : RPort → Option (RReq × ℕ)
  writes : WPort → Option (WReq × ℕ)
  mem0 : Mem

namespace Legacy

variable (TIMEOUT_LIMIT : BitVec 16) (s : Legacy) (i : TransportInputs)

/-- The accelerator's requests as they stand on its ports. -/
def accelRdReq : Option RReq := if s.join.state = .S_RD then i.accelRd else (s.reads .A).map (·.1)

def accelWrReq : Option (Word × BitVec 8) :=
  if s.join.state = .S_WR then i.accelWr else (s.writes .A).map fun w => (w.1.addr, w.1.lines)

/-- The line that a requester presents. -/
def wline (p : WPort) : Line := ((s.writes p).map fun w => w.1.line w.2).getD 0

def joinIn : PortJoin.Ports where
  accelRdReqValid := (s.accelRdReq i).isSome
  accelRdReqAddr := ((s.accelRdReq i).map RReq.addr).getD 0
  accelRdReqLines := ((s.accelRdReq i).map RReq.lines).getD 0
  accelWrReqValid := (s.accelWrReq i).isSome
  accelWrReqAddr := ((s.accelWrReq i).map (·.1)).getD 0
  accelWrReqLines := ((s.accelWrReq i).map (·.2)).getD 0
  accelWline := s.wline .A

def arbIn : MemArbiter.Ports where
  icacheReqValid := (s.reads .I).isSome
  icacheReqAddr := ((s.reads .I).map (·.1.addr)).getD 0
  dcacheReqValid := (s.reads .D).isSome || (s.writes .D).isSome
  dcacheReqWrite := (s.writes .D).isSome
  dcacheReqAddr := ((s.writes .D).map (·.1.addr)).getD (((s.reads .D).map (·.1.addr)).getD 0)
  dcacheWline := s.wline .D
  accelReqValid := s.join.memReqValid
  accelReqWrite := s.join.memReqWrite
  accelReqAddr := s.join.memReqAddr
  accelReqLines := s.join.memReqLines
  accelWline := PortJoin.Regs.memWline (s.joinIn i)

def busIn : LegacyInputs where
  ports := s.arbIn i
  mAxiArready := i.mAxiArready
  mAxiRvalid := i.mAxiRvalid
  mAxiAwready := i.mAxiAwready
  mAxiWready := i.mAxiWready
  mAxiBvalid := i.mAxiBvalid

/-- `icache_ready`, `dcache_ready` and `accel_ready`. -/
def ready (p : MemArbiter.Port) : Bool := s.bus.arb.ready s.bus.adp.memReady p

/-- The port's line of a read is on the bus. -/
def rReady : RPort → Bool
  | .D => s.ready .D
  | .I => s.ready .I
  | .A => s.join.accelRdReady (s.ready .A)

/-- The port's write is acknowledged. -/
def wReady : WPort → Bool
  | .D => s.ready .D
  | .A => s.join.accelWrReady (s.ready .A)

/-- The port is asked for its next line. -/
def wNext : WPort → Bool
  | .D => false
  | .A => s.join.accelWnext (s.bus.arb.accelWnext s.bus.adp.memWnext)

/-- The last line of the port's read is delivered. -/
def rDone (p : RPort) : Bool := (s.reads p).any fun r => s.rReady p && r.2 + 1 == r.1.count

/-- The port's write is complete. -/
def wDone (p : WPort) : Bool := (s.writes p).any fun _ => s.wReady p

def rFree (p : RPort) : Bool := (s.reads p).isNone || s.rDone p
def wFree (p : WPort) : Bool := (s.writes p).isNone || s.wDone p

/-- The request that port `p` may raise: the data cache has one at a time. -/
def raiseRd (p : RPort) : Option (RReq × ℕ) :=
  if p = .D && !s.wFree .D then none else (i.startRd p).map fun r => (r, 0)

def raiseWr (p : WPort) : Option (WReq × ℕ) :=
  if p = .D && !s.rFree .D then none else (i.startWr p).map fun w => (w, 0)

def next : Legacy where
  join := s.join.next (s.joinIn i) (s.ready .A)
  bus := s.bus.next 2 TIMEOUT_LIMIT (s.busIn i)
  reads p := if s.rFree p then s.raiseRd i p else (s.reads p).map fun r =>
    (r.1, r.2 + (s.rReady p).toNat)
  writes p := if s.wFree p then s.raiseWr i p else (s.writes p).map fun w =>
    (w.1, w.2 + (s.wNext p).toNat)
  mem0 := if s.bus.arb.state.isSome then s.mem0 else s.bus.mem

def IsReset : Prop :=
  s.join.IsReset ∧ s.bus.IsReset ∧ (∀ p, s.reads p = none) ∧ ∀ p, s.writes p = none

end Legacy

/-- The legacy path while no timeout fires. -/
def legacy (TIMEOUT_LIMIT : BitVec 16) : Circuit Legacy TransportInputs where
  init := {s | s.IsReset}
  admits s i := i.Fits ∧ s.bus.adp.timeout TIMEOUT_LIMIT = false
  next s i := s.next TIMEOUT_LIMIT i

namespace Legacy

/-! ## The invariant -/

section

variable (s : Legacy)

/-- The port whose read is served, or whose write. -/
def rServed : Option RPort := if s.bus.arb.memReqWrite then none else s.bus.arb.state.map (·.rport)
def wServed : Option WPort := if s.bus.arb.memReqWrite then s.bus.arb.state.bind (·.wport) else none

/-- The adapter that writes as a write engine, behind the requester that is served. -/
def writeSys : WriteSys where
  eng := s.bus.adp.writeEngine
  mem := s.bus.mem
  txn := s.bus.wtxn
  req := (s.wServed.bind s.writes).map fun w => ⟨s.bus.arb.savedReqAddr,
    s.bus.arb.savedReqLines, w.1.line⟩
  pos := ((s.wServed.bind s.writes).map (·.2)).getD 0
  mem0 := s.mem0

def writeIn (i : TransportInputs) : WriteInputs where
  start := none
  mAxiAwready := i.mAxiAwready
  mAxiWready := i.mAxiWready
  mAxiBvalid := i.mAxiBvalid

/-- The join, the arbiter and the requesters agree on the request that is served; nothing has been
    done for the others. -/
structure Link : Prop where
  rServed : ∀ p, s.rServed = some p → ∃ r, s.reads p = some r ∧ s.bus.arb.savedReqAddr = r.1.addr ∧
    RReq.count ⟨s.bus.arb.savedReqAddr, s.bus.arb.savedReqLines⟩ = r.1.count ∧ r.2 = s.bus.got.length
  rWaiting : ∀ p r, s.reads p = some r → s.rServed ≠ some p → r.2 = 0
  rFits : ∀ p r, s.reads p = some r → 2 * r.1.count ≤ 256 ∧ (p ≠ .A → r.1.lines = 1)
  wServed : ∀ p, s.wServed = some p → ∃ w, s.writes p = some w ∧ s.bus.arb.savedReqAddr = w.1.addr ∧
    s.bus.arb.savedReqLines = (if w.1.lines = 0 then 1 else w.1.lines) ∧
    s.bus.arb.savedWline = w.1.line 0
  wWaiting : ∀ p w, s.writes p = some w → s.wServed ≠ some p → w.2 = 0
  wFits : ∀ p w, s.writes p = some w → p ≠ .A → w.1.lines = 1
  dcache : s.reads .D = none ∨ s.writes .D = none
  accel : s.bus.arb.state = some .A → s.join.memReqValid ∧ s.join.memReqWrite = s.bus.arb.memReqWrite
  joinRd : s.join.state = .S_RD → ∃ r, s.reads .A = some r ∧ s.join.savedAddr = r.1.addr ∧
    s.join.savedLines = (if r.1.lines = 0 then 1 else r.1.lines) ∧ s.join.lineCount.toNat = r.2
  joinWr : s.join.state = .S_WR → ∃ w, s.writes .A = some w ∧ s.join.savedAddr = w.1.addr ∧
    s.join.savedLines = (if w.1.lines = 0 then 1 else w.1.lines)

/-- The invariant of the legacy path. -/
structure Inv : Prop extends s.Link where
  bus : s.bus.Inv 2
  wr : s.writeSys.Inv 2
  retrying : s.bus.adp.retrying = false

end

variable {TIMEOUT_LIMIT : BitVec 16} {s : Legacy} {i : TransportInputs} {p : MemArbiter.Port}

theorem rServed_eq (hp : s.bus.arb.state = some p) (hw : s.bus.arb.memReqWrite = false) :
    s.rServed = some p.rport := by
  simp [rServed, hp, hw]

theorem serving_of_rServed {q : RPort} (h : s.rServed = some q) :
    ∃ p, s.bus.arb.state = some p ∧ p.rport = q ∧ s.bus.arb.memReqWrite = false := by
  rw [rServed, Option.ite_none_left_eq_some, Bool.not_eq_true] at h
  obtain ⟨hw, h⟩ := h
  obtain ⟨p, hp, hq⟩ := Option.map_eq_some_iff.1 h
  exact ⟨p, hp, hq, hw⟩

theorem serving_of_wServed {q : WPort} (h : s.wServed = some q) :
    ∃ p, s.bus.arb.state = some p ∧ p.wport = some q ∧ s.bus.arb.memReqWrite := by
  rw [wServed, Option.ite_none_right_eq_some] at h
  obtain ⟨hw, h⟩ := h
  obtain ⟨p, hp, hq⟩ := Option.bind_eq_some_iff.1 h
  exact ⟨p, hp, hq, hw⟩

theorem rServed_ne_accel (hp : s.bus.arb.state ≠ some .A) : s.rServed ≠ some .A := fun hq => by
  obtain ⟨p, hp', hpq, -⟩ := serving_of_rServed hq
  cases p with
  | A => exact hp hp'
  | D | I => cases hpq

theorem wServed_ne_accel (hp : s.bus.arb.state ≠ some .A) : s.wServed ≠ some .A := fun hq => by
  obtain ⟨p, hp', hpq, -⟩ := serving_of_wServed hq
  cases p with
  | A => exact hp hp'
  | D | I => cases hpq

/-- Whoever writes is served. -/
theorem wServed_of_writing (hw : s.bus.arb.memReqWrite) :
    ∃ q p, s.bus.arb.state = some p ∧ p.wport = some q ∧ s.wServed = some q := by
  have hw' := hw
  simp only [MemArbiter.Regs.memReqWrite, Bool.and_eq_true, Bool.or_eq_true, beq_iff_eq] at hw'
  obtain ⟨hp | hp, -⟩ := hw'
  · exact ⟨.D, .D, hp, rfl, by simp [wServed, hw, hp, MemArbiter.Port.wport]⟩
  · exact ⟨.A, .A, hp, rfl, by simp [wServed, hw, hp, MemArbiter.Port.wport]⟩

/-! ## The requesters -/

/-- The join is at the request that the arbiter serves for the accelerator. -/
theorem Link.join_state (h : s.Link) (hp : s.bus.arb.state = some .A) :
    s.join.state = if s.bus.arb.memReqWrite then .S_WR else .S_RD := by
  obtain ⟨hv, hw⟩ := h.accel hp
  rw [← hw, PortJoin.Regs.memReqWrite]
  rw [PortJoin.Regs.memReqValid] at hv
  cases hj : s.join.state with
  | S_IDLE => simp [hj] at hv
  | S_RD => rfl
  | S_WR => rfl

/-- A line reaches the requester that is served, and no other. -/
theorem Link.rReady_eq (h : s.Link) {q : RPort} {r : RReq × ℕ} (hr : s.reads q = some r) :
    s.rReady q = (decide (s.rServed = some q) && s.bus.adp.memReady) := by
  cases hp : s.bus.arb.state with
  | none => cases q <;> simp [rReady, ready, MemArbiter.Regs.ready, PortJoin.Regs.accelRdReady,
      Legacy.rServed, hp]
  | some p =>
    cases hw : s.bus.arb.memReqWrite with
    | true =>
      -- the port may be that of the data cache, but then it does not read
      have hD : q = .D → p ≠ .D := by
        rintro rfl rfl
        obtain ⟨w, hw, -⟩ := h.wServed .D (by simp [Legacy.wServed, hp, hw, MemArbiter.Port.wport])
        rcases h.dcache with hd | hd
        · exact absurd (hd.symm.trans hr) (by simp)
        · exact absurd (hd.symm.trans hw) (by simp)
      have hI : p ≠ .I := by
        rintro rfl
        simp [MemArbiter.Regs.memReqWrite, hp] at hw
      have hA : p = .A → s.join.state = .S_WR := by
        rintro rfl
        rw [h.join_state hp, hw, if_pos rfl]
      cases q <;> cases p <;>
        simp_all [rReady, ready, MemArbiter.Regs.ready, PortJoin.Regs.accelRdReady, Legacy.rServed]
    | false =>
      have hA : p = .A → s.join.state = .S_RD := by
        rintro rfl
        rw [h.join_state hp, hw, if_neg Bool.false_ne_true]
      cases q <;> cases p <;>
        simp_all [rReady, ready, MemArbiter.Regs.ready, PortJoin.Regs.accelRdReady, Legacy.rServed,
          MemArbiter.Port.rport]

/-- So does an acknowledgement. -/
theorem Link.wReady_eq (h : s.Link) {q : WPort} {w : WReq × ℕ} (hq : s.writes q = some w) :
    s.wReady q = (decide (s.wServed = some q) && s.bus.adp.memReady) := by
  cases hp : s.bus.arb.state with
  | none => cases q <;> simp [wReady, ready, MemArbiter.Regs.ready, PortJoin.Regs.accelWrReady,
      Legacy.wServed, hp]
  | some p =>
    cases hw : s.bus.arb.memReqWrite with
    | true =>
      have hA : p = .A → s.join.state = .S_WR := by
        rintro rfl
        rw [h.join_state hp, hw, if_pos rfl]
      cases q <;> cases p <;>
        simp_all [wReady, ready, MemArbiter.Regs.ready, PortJoin.Regs.accelWrReady, Legacy.wServed,
          MemArbiter.Port.wport]
    | false =>
      have hD : q = .D → p ≠ .D := by
        rintro rfl rfl
        obtain ⟨r, hr, -⟩ := h.rServed .D (rServed_eq hp hw)
        rcases h.dcache with hd | hd
        · exact absurd (hd.symm.trans hr) (by simp)
        · exact absurd (hd.symm.trans hq) (by simp)
      have hA : p = .A → s.join.state = .S_RD := by
        rintro rfl
        rw [h.join_state hp, hw, if_neg Bool.false_ne_true]
      cases q <;> cases p <;>
        simp_all [wReady, ready, MemArbiter.Regs.ready, PortJoin.Regs.accelWrReady, Legacy.wServed]

/-- The last line of a read is that with which the port is released. -/
theorem Inv.rDone_eq (h : s.Inv) {q : RPort} {r : RReq × ℕ} (hr : s.reads q = some r)
    (hq : s.rServed = some q) :
    s.rDone q = s.bus.release := by
  obtain ⟨p, hp, rfl, hw⟩ := serving_of_rServed hq
  obtain ⟨r', hr', -, hcount, hgot⟩ := h.rServed _ hq
  obtain rfl : r = r' := Option.some_inj.1 (hr.symm.trans hr')
  have hrel := h.bus.inOrder.release _ (LegacyBus.rreq_reading hp hw)
  have hdone : s.rDone p.rport = (s.bus.adp.memReady && r.2 + 1 == r.1.count) := by
    simp [rDone, hr, h.rReady_eq hr, hq]
  cases hm : s.bus.adp.memReady with
  | false => rw [hdone, hm, Bool.false_and, LegacyBus.release, hm, MemArbiter.Regs.release_false]
  | true => rw [hdone, hm, Bool.true_and, Bool.eq_iff_iff, hrel, LegacyBus.lines, if_pos hm,
      List.length_append, hgot, hcount, beq_iff_eq, List.length_singleton]

/-- The acknowledgement of a write is the pulse with which the port is released. -/
theorem Inv.wDone_eq (h : s.Inv) {q : WPort} {w : WReq × ℕ} (hw : s.writes q = some w)
    (hq : s.wServed = some q) :
    s.wDone q = s.bus.release := by
  obtain ⟨p, hp, -, hwr⟩ := serving_of_wServed hq
  rw [h.bus.release_eq hp, ← h.bus.fsm.memReady_writing hwr]
  simp [wDone, hw, h.wReady_eq hw, hq]

/-! ### A grant -/

/-- The read granted is that of a requester that waits. -/
theorem Link.read_of_grant (h : s.Link) (hg : s.bus.arb.grant (s.arbIn i) = some p)
    (hw : (s.arbIn i).reqWrite p = false) :
    ∃ r, s.reads p.rport = some r ∧ (s.arbIn i).reqAddr p = r.1.addr ∧
      RReq.count ⟨(s.arbIn i).reqAddr p, (s.arbIn i).reqLines p⟩ = r.1.count := by
  have hreq := MemArbiter.request_of_grant hg
  cases p with
  | D =>
    simp only [arbIn, MemArbiter.Ports.reqWrite, Option.isSome_eq_false_iff,
      Option.isNone_iff_eq_none] at hw
    simp only [arbIn, hw, Option.isSome_none, Bool.or_false] at hreq
    obtain ⟨r, hr⟩ := Option.isSome_iff_exists.1 hreq
    refine ⟨r, hr, by simp [MemArbiter.Ports.reqAddr, arbIn, hr, hw], ?_⟩
    rw [RReq.count, RReq.count, (h.rFits _ r hr).2 (by simp)]
    rfl
  | I =>
    obtain ⟨r, hr⟩ := Option.isSome_iff_exists.1 hreq
    refine ⟨r, hr, by simp [MemArbiter.Ports.reqAddr, arbIn, hr], ?_⟩
    rw [RReq.count, RReq.count, (h.rFits _ r hr).2 (by simp)]
    rfl
  | A =>
    have hj : s.join.state = .S_RD := by
      cases hj : s.join.state <;>
        simp_all [arbIn, MemArbiter.Ports.reqWrite, PortJoin.Regs.memReqValid, PortJoin.Regs.memReqWrite]
    obtain ⟨r, hr, ha, hl, -⟩ := h.joinRd hj
    refine ⟨r, hr, by simp [MemArbiter.Ports.reqAddr, arbIn, PortJoin.Regs.memReqAddr, hj, ha], ?_⟩
    exact Transport.count_served (by simp [MemArbiter.Ports.reqLines, arbIn,
      PortJoin.Regs.memReqLines, hj, hl])

/-- So is the write. -/
theorem Link.write_of_grant (h : s.Link) (hidle : s.bus.arb.state = none)
    (hg : s.bus.arb.grant (s.arbIn i) = some p) (hw : (s.arbIn i).reqWrite p) :
    ∃ q w, p.wport = some q ∧ s.writes q = some w ∧ w.2 = 0 ∧ (s.arbIn i).reqAddr p = w.1.addr ∧
      (s.arbIn i).reqLines p = (if w.1.lines = 0 then 1 else w.1.lines) ∧
      (s.arbIn i).wline p = w.1.line 0 := by
  have hserved : s.wServed = none := by simp [Legacy.wServed, hidle]
  cases p with
  | D =>
    obtain ⟨w, hw⟩ := Option.isSome_iff_exists.1 hw
    have hpos := h.wWaiting _ w hw (by simp [hserved])
    refine ⟨.D, w, rfl, hw, hpos, by simp [MemArbiter.Ports.reqAddr, arbIn, hw], ?_, ?_⟩
    · rw [h.wFits _ w hw nofun]
      rfl
    · simp [MemArbiter.Ports.wline, arbIn, wline, hw, hpos]
  | I => cases hw
  | A =>
    have hj : s.join.state = .S_WR := by
      simpa [MemArbiter.Ports.reqWrite, arbIn, PortJoin.Regs.memReqWrite] using hw
    obtain ⟨w, hw, ha, hl⟩ := h.joinWr hj
    have hpos := h.wWaiting _ w hw (by simp [hserved])
    refine ⟨.A, w, rfl, hw, hpos,
      by simp [MemArbiter.Ports.reqAddr, arbIn, PortJoin.Regs.memReqAddr, hj, ha],
      by simp [MemArbiter.Ports.reqLines, arbIn, PortJoin.Regs.memReqLines, hj, hl], ?_⟩
    simp [MemArbiter.Ports.wline, arbIn, PortJoin.Regs.memWline, joinIn, wline, hw, hpos]

/-! ### The lines of a write -/

theorem writeSys_busy {q : WPort} {w : WReq × ℕ} (hq : s.wServed = some q) (hw : s.writes q = some w) :
    s.writeSys = ⟨s.bus.adp.writeEngine, s.bus.mem, s.bus.wtxn,
      some ⟨s.bus.arb.savedReqAddr, s.bus.arb.savedReqLines, w.1.line⟩, w.2, s.mem0⟩ := by
  simp [writeSys, hq, hw]

/-- A line is asked for while one is left. -/
theorem Inv.pos_lt (h : s.Inv) {q : WPort} {w : WReq × ℕ} (hq : s.wServed = some q)
    (hw : s.writes q = some w) :
    w.2 + s.bus.adp.memWnext.toNat < w.1.count := by
  obtain ⟨w', hw', -, hl, -⟩ := h.wServed q hq
  obtain rfl : w = w' := Option.some_inj.1 (hw.symm.trans hw')
  have hlt := h.wr.pos_lt (r := ⟨s.bus.arb.savedReqAddr, s.bus.arb.savedReqLines, w.1.line⟩)
    (by rw [writeSys_busy hq hw])
  rwa [Transport.count_served_wr hl, writeSys_busy hq hw] at hlt

/-- The adapter is given the line that the requester presents. -/
theorem Inv.memWline_eq (h : s.Inv) (hp : s.bus.arb.state = some p) {q : WPort} {w : WReq × ℕ}
    (hq : s.wServed = some q) (hw : s.writes q = some w) :
      s.bus.arb.memWline (s.arbIn i) = w.1.line w.2 := by
  obtain ⟨p', hp', hpq, hwr⟩ := serving_of_wServed hq
  obtain rfl : p = p' := Option.some_inj.1 (hp.symm.trans hp')
  obtain ⟨w', hw', -, hl, hlat⟩ := h.wServed q hq
  obtain rfl : w = w' := Option.some_inj.1 (hw.symm.trans hw')
  have hlt := h.pos_lt hq hw
  have hc : w.1.count = s.bus.arb.savedReqLines.toNat := by rw [hl, WReq.count]
  rw [MemArbiter.Regs.memWline]
  split_ifs with hlive hport
  · -- A burst of the accelerator takes each line live, through the join.
    obtain rfl : p = .A := Option.some_inj.1 (hp.symm.trans hlive.1)
    obtain rfl : q = .A := (Option.some_inj.1 hpq).symm
    simp [arbIn, PortJoin.Regs.memWline, joinIn, wline, hw]
  · -- Any other write is one line, which was latched at the grant.
    have hone : w.1.count = 1 := by
      cases p with
      | A =>
        have hle : ¬1 < s.bus.arb.savedReqLines := fun hgt => hlive ⟨hp, hgt⟩
        rw [BitVec.lt_def, ← hc, show (1 : BitVec 8).toNat = 1 from rfl] at hle
        exact Nat.le_antisymm (Nat.not_lt.1 hle) (count_pos w.1)
      | D =>
        obtain rfl : q = .D := (Option.some_inj.1 hpq).symm
        rw [WReq.count, h.wFits _ w hw (by simp)]
        rfl
      | I => cases hpq
    have hpos : w.2 = 0 := by
      rw [hone] at hlt
      exact Nat.eq_zero_of_add_eq_zero_right (Nat.lt_one_iff.1 hlt)
    rw [hlat, hpos]
  · -- A write is never of the instruction cache.
    cases p with
    | D | A => exact absurd (by simp [hp]) hport
    | I => cases hpq

/-- The requester that is served is asked for its next line. -/
theorem Inv.wNext_eq (h : s.Inv) {q : WPort} {w : WReq × ℕ} (hw : s.writes q = some w) :
    s.wNext q = (decide (s.wServed = some q) && s.bus.adp.memWnext) := by
  cases q with
  | A =>
    cases hp : s.bus.arb.state with
    | none => simp [wNext, PortJoin.Regs.accelWnext, MemArbiter.Regs.accelWnext, Legacy.wServed, hp]
    | some p =>
      have hA : p = .A → s.join.state = if s.bus.arb.memReqWrite then .S_WR else .S_RD := by
        rintro rfl
        exact h.join_state hp
      cases hwr : s.bus.arb.memReqWrite <;> cases p <;>
        simp_all [wNext, PortJoin.Regs.accelWnext, MemArbiter.Regs.accelWnext, Legacy.wServed,
          MemArbiter.Port.wport]
  | D =>
    -- a single line is all there is to present
    by_cases hq : s.wServed = some .D
    · have hlt := h.pos_lt hq hw
      rw [WReq.count, h.wFits _ w hw (by simp)] at hlt
      cases hn : s.bus.adp.memWnext with
      | false => simp [wNext]
      | true =>
        rw [hn] at hlt
        exact absurd hlt (by simp)
    · simp [wNext, hq]

/-! ## One edge -/

variable (TIMEOUT_LIMIT) in
/-- A request that waits is left as it is. -/
theorem Link.reads_next_waiting (h : s.Link) {q : RPort} {r : RReq × ℕ} (hr : s.reads q = some r)
    (hq : s.rServed ≠ some q) : (s.next TIMEOUT_LIMIT i).reads q = some r := by
  have hready : s.rReady q = false := by simp [h.rReady_eq hr, hq]
  simp [next, rFree, rDone, hr, hready]

variable (TIMEOUT_LIMIT) in
/-- The one that is served counts its lines. -/
theorem Inv.reads_next_served (h : s.Inv) {q : RPort} {r : RReq × ℕ} (hr : s.reads q = some r)
    (hq : s.rServed = some q) :
    (s.next TIMEOUT_LIMIT i).reads q =
      if s.bus.release then s.raiseRd i q else some (r.1, r.2 + s.bus.adp.memReady.toNat) := by
  simp [next, rFree, hr, h.rDone_eq hr hq, h.rReady_eq hr, hq]

variable (TIMEOUT_LIMIT) in
theorem Inv.writes_next_waiting (h : s.Inv) {q : WPort} {w : WReq × ℕ} (hw : s.writes q = some w)
    (hq : s.wServed ≠ some q) : (s.next TIMEOUT_LIMIT i).writes q = some w := by
  have hready : s.wReady q = false := by simp [h.wReady_eq hw, hq]
  have hnext : s.wNext q = false := by simp [h.wNext_eq hw, hq]
  simp [next, wFree, wDone, hw, hready, hnext]

variable (TIMEOUT_LIMIT) in
theorem Inv.writes_next_served (h : s.Inv) {q : WPort} {w : WReq × ℕ} (hw : s.writes q = some w)
    (hq : s.wServed = some q) :
    (s.next TIMEOUT_LIMIT i).writes q =
      if s.bus.release then s.raiseWr i q else some (w.1, w.2 + s.bus.adp.memWnext.toNat) := by
  simp [next, wFree, hw, h.wDone_eq hw hq, h.wNext_eq hw, hq]

theorem raiseRd_eq_some {q : RPort} {r : RReq × ℕ} (h : s.raiseRd i q = some r) :
    r.1 ∈ i.startRd q ∧ r.2 = 0 := by
  rw [raiseRd, Option.ite_none_left_eq_some] at h
  obtain ⟨r', hr', rfl⟩ := Option.map_eq_some_iff.1 h.2
  exact ⟨hr', rfl⟩

theorem raiseWr_eq_some {q : WPort} {w : WReq × ℕ} (h : s.raiseWr i q = some w) :
    w.1 ∈ i.startWr q ∧ w.2 = 0 := by
  rw [raiseWr, Option.ite_none_left_eq_some] at h
  obtain ⟨w', hw', rfl⟩ := Option.map_eq_some_iff.1 h.2
  exact ⟨hw', rfl⟩

/-! ### What is served -/

variable (TIMEOUT_LIMIT) in
theorem arb_next_grant (hidle : s.bus.arb.state = none) (hg : s.bus.arb.grant (s.arbIn i) = some p) :
    (s.next TIMEOUT_LIMIT i).bus.arb.state = some p ∧
      (s.next TIMEOUT_LIMIT i).bus.arb.memReqWrite = (s.arbIn i).reqWrite p ∧
      (s.next TIMEOUT_LIMIT i).bus.arb.savedReqAddr = (s.arbIn i).reqAddr p ∧
      (s.next TIMEOUT_LIMIT i).bus.arb.savedReqLines = (s.arbIn i).reqLines p ∧
      (s.next TIMEOUT_LIMIT i).bus.arb.savedWline = (s.arbIn i).wline p := by
  have harb : (s.next TIMEOUT_LIMIT i).bus.arb = _ := MemArbiter.Regs.next_grant hidle hg _
  rw [harb]
  refine ⟨rfl, ?_, rfl, rfl, rfl⟩
  cases p <;> simp [MemArbiter.Regs.memReqWrite, MemArbiter.Ports.reqWrite]

theorem arb_next_release (hp : s.bus.arb.state = some p) (hrel : s.bus.release) :
    (s.next TIMEOUT_LIMIT i).bus.arb.state = none := by
  have hrel' : s.bus.arb.release s.bus.adp.memReady := hrel
  simp [next, LegacyBus.next, MemArbiter.Regs.next, hp, hrel']

/-- What is served after an edge was served before, or has just been granted. -/
theorem arb_next_cases (TIMEOUT_LIMIT : BitVec 16) (s : Legacy) (i : TransportInputs)
    (hp' : (s.next TIMEOUT_LIMIT i).bus.arb.state = some p) :
    (s.bus.arb.state = none ∧ s.bus.arb.grant (s.arbIn i) = some p) ∨
      (s.bus.arb.state = some p ∧ s.bus.release = false) := by
  cases hp : s.bus.arb.state with
  | none =>
    have : (s.next TIMEOUT_LIMIT i).bus.arb.state = s.bus.arb.grant (s.arbIn i) := by
      simp [next, LegacyBus.next, MemArbiter.Regs.next, hp, busIn]
    exact .inl ⟨rfl, this.symm.trans hp'⟩
  | some q =>
    cases hrel : s.bus.release with
    | true => exact absurd ((arb_next_release hp hrel).symm.trans hp') (by simp)
    | false =>
      obtain ⟨hq, -⟩ := s.bus.arb_next_busy 2 TIMEOUT_LIMIT (s.busIn i) hp hrel
      exact .inr ⟨hq.symm.trans hp', rfl⟩

/-- A read that goes on, or a write. -/
theorem rServed_next_busy (hp : s.bus.arb.state = some p) (hrel : s.bus.release = false) :
    (s.next TIMEOUT_LIMIT i).rServed = s.rServed := by
  obtain ⟨hp', hw', -⟩ := s.bus.arb_next_busy 2 TIMEOUT_LIMIT (s.busIn i) hp hrel
  simp only [next, Legacy.rServed, hp, hp', hw']

theorem wServed_next_busy (hp : s.bus.arb.state = some p) (hrel : s.bus.release = false) :
    (s.next TIMEOUT_LIMIT i).wServed = s.wServed := by
  obtain ⟨hp', hw', -⟩ := s.bus.arb_next_busy 2 TIMEOUT_LIMIT (s.busIn i) hp hrel
  simp only [next, Legacy.wServed, hp, hp', hw']

/-- The reads after an edge: a new one, one that waits, or the one that is served. -/
theorem Inv.reads_next (h : s.Inv) {q : RPort} {r' : RReq × ℕ}
    (hr' : (s.next TIMEOUT_LIMIT i).reads q = some r') :
    (r'.1 ∈ i.startRd q ∧ r'.2 = 0 ∧ (s.next TIMEOUT_LIMIT i).rServed ≠ some q) ∨
      (s.reads q = some r' ∧ s.rServed ≠ some q) ∨
      (∃ r, s.reads q = some r ∧ s.rServed = some q ∧ s.bus.release = false ∧
        r' = (r.1, r.2 + s.bus.adp.memReady.toNat)) := by
  -- A released port is not served in the next cycle, even when it raises again.
  have hnone : s.rServed = some q → s.bus.release → (s.next TIMEOUT_LIMIT i).rServed ≠ some q := by
    intro hq hrel hq'
    obtain ⟨p, hp, -⟩ := serving_of_rServed hq
    obtain ⟨p', hp', -⟩ := serving_of_rServed hq'
    exact absurd ((arb_next_release hp hrel).symm.trans hp') nofun
  cases hr : s.reads q with
  | none =>
    have hnew : s.raiseRd i q = some r' := by simpa [next, rFree, hr] using hr'
    refine .inl ⟨(raiseRd_eq_some hnew).1, (raiseRd_eq_some hnew).2, fun hq' => ?_⟩
    obtain ⟨p, hp', rfl, hw'⟩ := serving_of_rServed hq'
    rcases arb_next_cases TIMEOUT_LIMIT s i hp' with ⟨hidle, hg⟩ | ⟨hp, hrel⟩
    · rw [(arb_next_grant _ hidle hg).2.1] at hw'
      obtain ⟨r, hr₂, -⟩ := h.read_of_grant hg hw'
      exact absurd (hr.symm.trans hr₂) nofun
    · rw [rServed_next_busy hp hrel] at hq'
      obtain ⟨r, hr₂, -⟩ := h.rServed _ hq'
      exact absurd (hr.symm.trans hr₂) nofun
  | some r =>
    -- The read that is served counts the pulses until the release; the others stay.
    by_cases hq : s.rServed = some q
    · rw [h.reads_next_served _ hr hq] at hr'
      cases hrel : s.bus.release with
      | true =>
        rw [hrel, if_pos rfl] at hr'
        exact .inl ⟨(raiseRd_eq_some hr').1, (raiseRd_eq_some hr').2, hnone hq hrel⟩
      | false =>
        rw [hrel, if_neg Bool.false_ne_true] at hr'
        exact .inr (.inr ⟨r, rfl, hq, rfl, (Option.some_inj.1 hr').symm⟩)
    · rw [h.reads_next_waiting _ hr hq] at hr'
      exact .inr (.inl ⟨hr', hq⟩)

/-- So are the writes. -/
theorem Inv.writes_next (h : s.Inv) {q : WPort} {w' : WReq × ℕ}
    (hw' : (s.next TIMEOUT_LIMIT i).writes q = some w') :
    (w'.1 ∈ i.startWr q ∧ w'.2 = 0 ∧ (s.next TIMEOUT_LIMIT i).wServed ≠ some q) ∨
      (s.writes q = some w' ∧ s.wServed ≠ some q) ∨
      (∃ w, s.writes q = some w ∧ s.wServed = some q ∧ s.bus.release = false ∧
        w' = (w.1, w.2 + s.bus.adp.memWnext.toNat)) := by
  have hnone : s.wServed = some q → s.bus.release → (s.next TIMEOUT_LIMIT i).wServed ≠ some q := by
    intro hq hrel hq'
    obtain ⟨p, hp, -⟩ := serving_of_wServed hq
    obtain ⟨p', hp', -⟩ := serving_of_wServed hq'
    exact absurd ((arb_next_release hp hrel).symm.trans hp') nofun
  cases hw : s.writes q with
  | none =>
    have hnew : s.raiseWr i q = some w' := by simpa [next, wFree, hw] using hw'
    refine .inl ⟨(raiseWr_eq_some hnew).1, (raiseWr_eq_some hnew).2, fun hq' => ?_⟩
    obtain ⟨p, hp', hpq, hwr'⟩ := serving_of_wServed hq'
    rcases arb_next_cases TIMEOUT_LIMIT s i hp' with ⟨hidle, hg⟩ | ⟨hp, hrel⟩
    · rw [(arb_next_grant _ hidle hg).2.1] at hwr'
      obtain ⟨q₂, w, hpq₂, hw₂, -⟩ := h.write_of_grant hidle hg hwr'
      obtain rfl : q = q₂ := Option.some_inj.1 (hpq.symm.trans hpq₂)
      exact absurd (hw.symm.trans hw₂) nofun
    · rw [wServed_next_busy hp hrel] at hq'
      obtain ⟨w, hw₂, -⟩ := h.wServed _ hq'
      exact absurd (hw.symm.trans hw₂) nofun
  | some w =>
    -- The write that is served counts the lines it is asked for, until the release.
    by_cases hq : s.wServed = some q
    · rw [h.writes_next_served _ hw hq] at hw'
      cases hrel : s.bus.release with
      | true =>
        rw [hrel, if_pos rfl] at hw'
        exact .inl ⟨(raiseWr_eq_some hw').1, (raiseWr_eq_some hw').2, hnone hq hrel⟩
      | false =>
        rw [hrel, if_neg Bool.false_ne_true] at hw'
        exact .inr (.inr ⟨w, rfl, hq, rfl, (Option.some_inj.1 hw').symm⟩)
    · rw [h.writes_next_waiting _ hw hq] at hw'
      exact .inr (.inl ⟨hw', hq⟩)

/-- The read that is served is that of its requester. -/
theorem Inv.rServed_next (h : s.Inv) {q : RPort} (hq' : (s.next TIMEOUT_LIMIT i).rServed = some q) :
    ∃ r, (s.next TIMEOUT_LIMIT i).reads q = some r ∧
      (s.next TIMEOUT_LIMIT i).bus.arb.savedReqAddr = r.1.addr ∧
      RReq.count ⟨(s.next TIMEOUT_LIMIT i).bus.arb.savedReqAddr,
        (s.next TIMEOUT_LIMIT i).bus.arb.savedReqLines⟩ =
        r.1.count ∧
      r.2 = (s.next TIMEOUT_LIMIT i).bus.got.length := by
  obtain ⟨p, hp', rfl, hw'⟩ := serving_of_rServed hq'
  rcases arb_next_cases TIMEOUT_LIMIT s i hp' with ⟨hidle, hg⟩ | ⟨hp, hrel⟩
  · obtain ⟨-, hw₂, ha', hl', -⟩ := arb_next_grant TIMEOUT_LIMIT hidle hg
    rw [hw₂] at hw'
    obtain ⟨r, hr, ha, hcount⟩ := h.read_of_grant hg hw'
    have hwait : s.rServed ≠ some p.rport := by simp [Legacy.rServed, hidle]
    refine ⟨r, h.reads_next_waiting _ hr hwait, by rw [ha', ha], by rw [ha', hl', hcount], ?_⟩
    rw [h.rWaiting _ r hr hwait]
    simp [next, LegacyBus.next, hidle]
  · rw [rServed_next_busy hp hrel] at hq'
    obtain ⟨-, -, ha', hl', -⟩ := s.bus.arb_next_busy 2 TIMEOUT_LIMIT (s.busIn i) hp hrel
    obtain ⟨r, hr, ha, hcount, hgot⟩ := h.rServed _ hq'
    have hr' := h.reads_next_served TIMEOUT_LIMIT (i := i) hr hq'
    rw [hrel, if_neg Bool.false_ne_true] at hr'
    refine ⟨_, hr', ha'.trans ha, ?_, ?_⟩
    · exact (congrArg₂ (fun a l => RReq.count ⟨a, l⟩) ha' hl').trans hcount
    · have hlines : (s.next TIMEOUT_LIMIT i).bus.got = s.bus.lines := by
        simp [next, LegacyBus.next, hp, hrel]
      rw [hlines, LegacyBus.lines, hgot]
      cases s.bus.adp.memReady <;> simp

/-- The write that is served is that of its requester. -/
theorem Inv.wServed_next (h : s.Inv) {q : WPort} (hq' : (s.next TIMEOUT_LIMIT i).wServed = some q) :
    ∃ w, (s.next TIMEOUT_LIMIT i).writes q = some w ∧
      (s.next TIMEOUT_LIMIT i).bus.arb.savedReqAddr = w.1.addr ∧
      (s.next TIMEOUT_LIMIT i).bus.arb.savedReqLines = (if w.1.lines = 0 then 1 else w.1.lines) ∧
      (s.next TIMEOUT_LIMIT i).bus.arb.savedWline = w.1.line 0 := by
  obtain ⟨p, hp', hpq, hwr'⟩ := serving_of_wServed hq'
  rcases arb_next_cases TIMEOUT_LIMIT s i hp' with ⟨hidle, hg⟩ | ⟨hp, hrel⟩
  · obtain ⟨-, hw₂, ha', hl', hline'⟩ := arb_next_grant TIMEOUT_LIMIT hidle hg
    rw [hw₂] at hwr'
    obtain ⟨q₂, w, hpq₂, hw, -, ha, hl, hline⟩ := h.write_of_grant hidle hg hwr'
    obtain rfl : q = q₂ := Option.some_inj.1 (hpq.symm.trans hpq₂)
    have hwait : s.wServed ≠ some q := by simp [Legacy.wServed, hidle]
    exact ⟨w, h.writes_next_waiting _ hw hwait, ha'.trans ha, hl'.trans hl, hline'.trans hline⟩
  · rw [wServed_next_busy hp hrel] at hq'
    obtain ⟨-, -, ha', hl', -⟩ := s.bus.arb_next_busy 2 TIMEOUT_LIMIT (s.busIn i) hp hrel
    obtain ⟨w, hw, ha, hl, hline⟩ := h.wServed _ hq'
    have hw' := h.writes_next_served TIMEOUT_LIMIT (i := i) hw hq'
    rw [hrel, if_neg Bool.false_ne_true] at hw'
    refine ⟨_, hw', ha'.trans ha, hl'.trans hl, ?_⟩
    have hsame : (s.next TIMEOUT_LIMIT i).bus.arb.savedWline = s.bus.arb.savedWline := by
      simp [next, LegacyBus.next, MemArbiter.Regs.next, MemArbiter.grant_of_busy hp]
    exact hsame.trans hline

/-! ### The join -/

theorem ready_accel (s : Legacy) : s.ready .A = (s.bus.arb.state == some .A && s.bus.adp.memReady) := rfl

/-- The join counts the lines of the read that is served. -/
theorem Inv.joinRd_served (h : s.Inv) (hp : s.bus.arb.state = some .A)
    (hw : s.bus.arb.memReqWrite = false) :
    ∃ r, s.reads .A = some r ∧ s.join.lineCount.toNat = r.2 ∧ r.2 < r.1.count ∧
      (s.bus.adp.memReady → (s.bus.release ↔ s.join.savedLines ≤ s.join.lineCount + 1)) := by
  have hserved : s.rServed = some .A := rServed_eq hp hw
  obtain ⟨r, hr, -, hl, hc⟩ := h.joinRd (by rw [h.join_state hp, hw, if_neg Bool.false_ne_true])
  obtain ⟨r', hr', -, hcount, hgot⟩ := h.rServed _ hserved
  obtain rfl : r = r' := Option.some_inj.1 (hr.symm.trans hr')
  have hrel := h.bus.inOrder.release _ (LegacyBus.rreq_reading hp hw)
  have hfits := (h.rFits _ r hr).1
  have hlt : r.2 < r.1.count := by
    obtain ⟨-, hlen⟩ := h.bus.inOrder.lines _ (LegacyBus.rreq_reading hp hw)
    rw [hcount] at hlen
    cases hm : s.bus.adp.memReady with
    | true =>
      rw [LegacyBus.lines, if_pos hm, List.length_append, ← hgot] at hlen
      exact hlen
    | false =>
      -- a port that has got all its lines is released
      refine Nat.lt_of_le_of_ne ?_ fun he => ?_
      · rw [LegacyBus.lines, hm, if_neg Bool.false_ne_true, ← hgot] at hlen
        exact hlen
      · have hnot : s.bus.release = false := by rw [LegacyBus.release, hm, MemArbiter.Regs.release_false]
        rw [hcount, LegacyBus.lines, hm, if_neg Bool.false_ne_true, ← hgot, hnot] at hrel
        exact absurd (hrel.2 he) (by simp)
  refine ⟨r, hr, hc, hlt, fun hm => ?_⟩
  have hlines : s.bus.lines.length = r.2 + 1 := by
    rw [LegacyBus.lines, if_pos hm, List.length_append, ← hgot]
    rfl
  rw [hrel, hcount, hlines, LegacyBus.savedLines_le_iff r.1.addr hc (by omega),
    Transport.count_served hl]
  omega

/-- The join releases its port with the arbiter. -/
theorem Inv.join_next_release (h : s.Inv) (hp : s.bus.arb.state = some .A) (hrel : s.bus.release) :
    (s.next TIMEOUT_LIMIT i).join.state = .S_IDLE := by
  have hm : s.bus.adp.memReady := by
    cases hm : s.bus.adp.memReady with
    | true => rfl
    | false =>
      rw [LegacyBus.release, hm, MemArbiter.Regs.release_false] at hrel
      cases hrel
  have hready : s.ready .A := by rw [ready_accel, hp, hm]; rfl
  have hst := h.join_state hp
  cases hw : s.bus.arb.memReqWrite with
  | true =>
    rw [hw, if_pos rfl] at hst
    simp [next, PortJoin.Regs.next, hst, hready]
  | false =>
    rw [hw, if_neg Bool.false_ne_true] at hst
    obtain ⟨r, -, -, -, hle⟩ := h.joinRd_served hp hw
    simp only [next, PortJoin.Regs.next, hst, hready, if_true, if_pos ((hle hm).1 hrel)]

variable (TIMEOUT_LIMIT) in
/-- Otherwise it counts. -/
theorem Inv.join_next_busy (h : s.Inv) (hp : s.bus.arb.state = some .A) (hrel : s.bus.release = false) :
    (s.next TIMEOUT_LIMIT i).join =
      { s.join with lineCount := s.join.lineCount + if s.bus.adp.memReady then 1 else 0 } := by
  have hst := h.join_state hp
  cases hw : s.bus.arb.memReqWrite with
  | true =>
    rw [hw, if_pos rfl] at hst
    have hm : s.bus.adp.memReady = false := by
      rw [h.bus.fsm.memReady_writing hw, ← h.bus.release_eq hp, hrel]
    have hready : s.ready .A = false := by rw [ready_accel, hm, Bool.and_false]
    simp [next, hready, hm, PortJoin.Regs.next_wait (hst.trans_ne (by decide))]
  | false =>
    rw [hw, if_neg Bool.false_ne_true] at hst
    obtain ⟨r, -, -, -, hle⟩ := h.joinRd_served hp hw
    cases hm : s.bus.adp.memReady with
    | false =>
      have hready : s.ready .A = false := by rw [ready_accel, hm, Bool.and_false]
      simp [next, hready, PortJoin.Regs.next_wait (hst.trans_ne (by decide))]
    | true =>
      have hready : s.ready .A := by rw [ready_accel, hp, hm]; rfl
      have hnot : ¬s.join.savedLines ≤ s.join.lineCount + 1 := fun hge => by
        rw [(hle hm).2 hge] at hrel
        cases hrel
      simp only [next, PortJoin.Regs.next, hst, hready, if_true, if_neg hnot]

/-- It waits to be served. -/
theorem join_next_waiting (hp : s.bus.arb.state ≠ some .A) (hj : s.join.state ≠ .S_IDLE) :
    (s.next TIMEOUT_LIMIT i).join = s.join := by
  have hready : s.ready .A = false := by rw [ready_accel, beq_false_of_ne hp, Bool.false_and]
  simp [next, hready, PortJoin.Regs.next_wait hj]

variable (TIMEOUT_LIMIT) in
/-- It takes up a write, or else a read. -/
theorem join_next_idle (hj : s.join.state = .S_IDLE) :
    (∃ w, s.writes .A = some w ∧ (s.next TIMEOUT_LIMIT i).join =
        ⟨.S_WR, w.1.addr, if w.1.lines = 0 then 1 else w.1.lines, 0⟩) ∨
      (∃ r, s.reads .A = some r ∧ s.writes .A = none ∧ (s.next TIMEOUT_LIMIT i).join =
        ⟨.S_RD, r.1.addr, if r.1.lines = 0 then 1 else r.1.lines, 0⟩) ∨
      (s.reads .A = none ∧ s.writes .A = none ∧ (s.next TIMEOUT_LIMIT i).join.state = .S_IDLE) := by
  cases hw : s.writes .A with
  | some w =>
    refine .inl ⟨w, rfl, ?_⟩
    simp [next, PortJoin.Regs.next, hj, PortJoin.Regs.grantWr, joinIn, accelWrReq, hw]
  | none =>
    cases hr : s.reads .A with
    | some r =>
      refine .inr (.inl ⟨r, rfl, rfl, ?_⟩)
      simp [next, PortJoin.Regs.next, hj, PortJoin.Regs.grantWr, PortJoin.Regs.grantRd, joinIn,
        accelWrReq, accelRdReq, hw, hr]
    | none =>
      refine .inr (.inr ⟨rfl, rfl, ?_⟩)
      simp [next, PortJoin.Regs.next, hj, PortJoin.Regs.grantWr, PortJoin.Regs.grantRd, joinIn,
        accelWrReq, accelRdReq, hw, hr]

/-- The accelerator is served at the request that the join has taken up. -/
theorem Inv.accel_next (h : s.Inv) (hp' : (s.next TIMEOUT_LIMIT i).bus.arb.state = some .A) :
    (s.next TIMEOUT_LIMIT i).join.memReqValid ∧
      (s.next TIMEOUT_LIMIT i).join.memReqWrite = (s.next TIMEOUT_LIMIT i).bus.arb.memReqWrite := by
  rcases arb_next_cases TIMEOUT_LIMIT s i hp' with ⟨hidle, hg⟩ | ⟨hp, hrel⟩
  · have hv : s.join.memReqValid := MemArbiter.request_of_grant hg
    have hj : s.join.state ≠ .S_IDLE := by simpa [PortJoin.Regs.memReqValid] using hv
    rw [join_next_waiting (by simp [hidle]) hj, (arb_next_grant _ hidle hg).2.1]
    exact ⟨hv, rfl⟩
  · obtain ⟨-, hw', -⟩ := s.bus.arb_next_busy 2 TIMEOUT_LIMIT (s.busIn i) hp hrel
    rw [h.join_next_busy _ hp hrel]
    obtain ⟨hv, hw⟩ := h.accel hp
    exact ⟨hv, hw.trans hw'.symm⟩

theorem Inv.joinRd_next (h : s.Inv) (hj' : (s.next TIMEOUT_LIMIT i).join.state = .S_RD) :
    ∃ r, (s.next TIMEOUT_LIMIT i).reads .A = some r ∧
      (s.next TIMEOUT_LIMIT i).join.savedAddr = r.1.addr ∧
      (s.next TIMEOUT_LIMIT i).join.savedLines = (if r.1.lines = 0 then 1 else r.1.lines) ∧
      (s.next TIMEOUT_LIMIT i).join.lineCount.toNat = r.2 := by
  -- The join follows a read of the accelerator while the arbiter serves port A.
  by_cases hp : s.bus.arb.state = some .A
  · cases hrel : s.bus.release with
    -- The line counter of the join follows the pulses, and cannot wrap within a read.
    | true => exact absurd ((h.join_next_release hp hrel).symm.trans hj') nofun
    | false =>
      have hjn := h.join_next_busy TIMEOUT_LIMIT (i := i) hp hrel
      rw [hjn] at hj' ⊢
      have hw : s.bus.arb.memReqWrite = false := by
        rw [← (h.accel hp).2, PortJoin.Regs.memReqWrite, show s.join.state = .S_RD from hj']
        rfl
      obtain ⟨r, hr, ha, hl, -⟩ := h.joinRd hj'
      obtain ⟨r', hr', hc, hlt, -⟩ := h.joinRd_served hp hw
      obtain rfl : r = r' := Option.some_inj.1 (hr.symm.trans hr')
      have hr₂ := h.reads_next_served TIMEOUT_LIMIT (i := i) hr (rServed_eq hp hw)
      rw [hrel, if_neg Bool.false_ne_true] at hr₂
      refine ⟨_, hr₂, ha, hl, ?_⟩
      have hfits := (h.rFits _ r hr).1
      cases hm : s.bus.adp.memReady with
      | false => simpa using hc
      | true =>
        have hadd : (s.join.lineCount + 1).toNat = s.join.lineCount.toNat + 1 :=
          BitVec.toNat_add_of_lt (by rw [hc, show (1 : BitVec 8).toNat = 1 from rfl]; omega)
        rw [if_pos rfl, hadd, hc]
        rfl
  · -- The arbiter is elsewhere: the join takes a request up, or holds the one it has.
    have hserved := rServed_ne_accel hp
    by_cases hj : s.join.state = .S_IDLE
    · rcases join_next_idle TIMEOUT_LIMIT (i := i) hj with ⟨w, -, hjn⟩ |
        ⟨r, hr, -, hjn⟩ | ⟨-, -, hjn⟩
      · rw [hjn] at hj'
        cases hj'
      · rw [hjn]
        exact ⟨r, h.reads_next_waiting _ hr hserved, rfl, rfl, (h.rWaiting _ r hr hserved).symm⟩
      · exact absurd (hjn.symm.trans hj') nofun
    · rw [join_next_waiting hp hj] at hj' ⊢
      obtain ⟨r, hr, ha, hl, hc⟩ := h.joinRd hj'
      exact ⟨r, h.reads_next_waiting _ hr hserved, ha, hl, hc⟩

theorem Inv.joinWr_next (h : s.Inv) (hj' : (s.next TIMEOUT_LIMIT i).join.state = .S_WR) :
    ∃ w, (s.next TIMEOUT_LIMIT i).writes .A = some w ∧
      (s.next TIMEOUT_LIMIT i).join.savedAddr = w.1.addr ∧
      (s.next TIMEOUT_LIMIT i).join.savedLines = (if w.1.lines = 0 then 1 else w.1.lines) := by
  by_cases hp : s.bus.arb.state = some .A
  · cases hrel : s.bus.release with
    | true => exact absurd ((h.join_next_release hp hrel).symm.trans hj') nofun
    | false =>
      have hjn := h.join_next_busy TIMEOUT_LIMIT (i := i) hp hrel
      rw [hjn] at hj' ⊢
      obtain ⟨w, hw, ha, hl⟩ := h.joinWr hj'
      have hwr : s.bus.arb.memReqWrite := by
        rw [← (h.accel hp).2, PortJoin.Regs.memReqWrite, show s.join.state = .S_WR from hj']
        rfl
      have hw₂ := h.writes_next_served TIMEOUT_LIMIT (i := i) hw
        (by simp [Legacy.wServed, hwr, hp, MemArbiter.Port.wport])
      rw [hrel, if_neg Bool.false_ne_true] at hw₂
      exact ⟨_, hw₂, ha, hl⟩
  · -- The join prefers the write when both directions are asked for.
    have hserved := wServed_ne_accel hp
    by_cases hj : s.join.state = .S_IDLE
    · rcases join_next_idle TIMEOUT_LIMIT (i := i) hj with ⟨w, hw, hjn⟩ |
        ⟨r, -, -, hjn⟩ | ⟨-, -, hjn⟩
      · rw [hjn]
        exact ⟨w, h.writes_next_waiting _ hw hserved, rfl, rfl⟩
      · rw [hjn] at hj'
        cases hj'
      · exact absurd (hjn.symm.trans hj') nofun
    · rw [join_next_waiting hp hj] at hj' ⊢
      obtain ⟨w, hw, ha, hl⟩ := h.joinWr hj'
      exact ⟨w, h.writes_next_waiting _ hw hserved, ha, hl⟩

/-- The data cache never has two requests. -/
theorem Link.dcache_next (h : s.Link) (hfit : i.Fits) :
    (s.next TIMEOUT_LIMIT i).reads .D = none ∨ (s.next TIMEOUT_LIMIT i).writes .D = none := by
  rw [or_iff_not_imp_left, ← ne_eq, Option.ne_none_iff_exists']
  rintro ⟨r, hr⟩
  simp only [next] at hr ⊢
  split_ifs at hr with hrf
  · -- a read is raised, so that no write is held, or raised
    obtain ⟨hq, -⟩ := raiseRd_eq_some hr
    rw [raiseRd, Option.ite_none_left_eq_some] at hr
    have hwf : s.wFree .D := by simpa using hr.1
    have hnone : i.startWr .D = none := hfit.dcache.resolve_left fun hd =>
      absurd (hd.symm.trans hq) nofun
    simp [hwf, raiseWr, hnone]
  · have hwn : s.writes .D = none := by
      refine h.dcache.resolve_left fun hd => ?_
      simp [hd] at hr
    have hwf : s.wFree .D := by simp [wFree, hwn]
    simp [hwf, raiseWr, hrf]

theorem Inv.link_next (h : s.Inv) (hfit : i.Fits) : (s.next TIMEOUT_LIMIT i).Link where
  rServed _ hq := h.rServed_next hq
  rWaiting q r' hr' hq' := by
    rcases h.reads_next hr' with ⟨-, hnew, -⟩ | ⟨hr, hq⟩ | ⟨r, hr, hq, hrel, -⟩
    · exact hnew
    · exact h.rWaiting q r' hr hq
    · obtain ⟨p, hp, -⟩ := serving_of_rServed hq
      exact absurd ((rServed_next_busy hp hrel).trans hq) hq'
  rFits q r' hr' := by
    rcases h.reads_next hr' with ⟨hstart, -⟩ | ⟨hr, -⟩ | ⟨r, hr, -, -, rfl⟩
    · exact hfit.rd q _ hstart
    · exact h.rFits q r' hr
    · exact h.rFits q r hr
  wServed _ hq := h.wServed_next hq
  wWaiting q w' hw' hq' := by
    rcases h.writes_next hw' with ⟨-, hnew, -⟩ | ⟨hw, hq⟩ | ⟨w, hw, hq, hrel, -⟩
    · exact hnew
    · exact h.wWaiting q w' hw hq
    · obtain ⟨p, hp, -⟩ := serving_of_wServed hq
      exact absurd ((wServed_next_busy hp hrel).trans hq) hq'
  wFits q w' hw' := by
    rcases h.writes_next hw' with ⟨hstart, -⟩ | ⟨hw, -⟩ | ⟨w, hw, -, -, rfl⟩
    · exact (hfit.wr q _ hstart).2
    · exact h.wFits q w' hw
    · exact h.wFits q w hw
  dcache := h.dcache_next hfit
  accel hp := h.accel_next hp
  joinRd hj := h.joinRd_next hj
  joinWr hj := h.joinWr_next hj

/-! ### The adapter that writes -/

theorem Inv.resumeHold_eq (h : s.Inv) : s.bus.adp.resumeHold = false := h.wr.1

/-- The adapter is given what the write engine would be. -/
theorem Inv.adpIn_wr (h : s.Inv) {q : WPort} (hq : s.wServed = some q) :
    (s.bus.adpIn 2 (s.busIn i)).wr = s.writeSys.engIn (writeIn i) := by
  obtain ⟨p, hp, -, hwr⟩ := serving_of_wServed hq
  obtain ⟨w, hw, -⟩ := h.wServed q hq
  have hline : s.bus.arb.memWline (s.busIn i).ports = w.1.line w.2 := h.memWline_eq hp hq hw
  rw [writeSys_busy hq hw]
  simp [CacheAdapter.Inputs.wr, LegacyBus.adpIn, WriteSys.engIn, writeIn, busIn,
    MemArbiter.Regs.memReqValid,
    MemArbiter.Regs.memReqAddr, MemArbiter.Regs.memReqLines, hp, ← hline]

variable (TIMEOUT_LIMIT) in
/-- The signals of the adapter that writes are those of the write engine. -/
theorem Inv.signals_wr (h : s.Inv) {q : WPort} (hq : s.wServed = some q) (hd : s.bus.adp.state ≠ .DONE) :
    s.writeSys.eng.wrTimeout TIMEOUT_LIMIT = s.bus.adp.timeout TIMEOUT_LIMIT ∧
      s.writeSys.eng.mAxiAwvalid = s.bus.adp.mAxiAwvalid ∧
      s.writeSys.eng.mAxiWvalid = s.bus.adp.mAxiWvalid ∧
      s.writeSys.eng.wrReady = false := by
  obtain ⟨p, hp, -, hwr⟩ := serving_of_wServed hq
  have hfsm := h.bus.fsm
  cases hst : s.bus.adp.state <;>
    simp_all +decide [LegacyBus.Fsm, writeSys, CacheAdapter.Regs.writeEngine, WrRegs.wrTimeout,
      WrRegs.wrEligible,
      WrRegs.mAxiAwvalid, WrRegs.mAxiWvalid, WrRegs.wrReady, CacheAdapter.Regs.timeout,
      CacheAdapter.Regs.timeoutEligible, CacheAdapter.Regs.mAxiAwvalid, CacheAdapter.Regs.mAxiWvalid] <;>
    rfl

/-- A write that is served goes on as in the write engine. -/
theorem Inv.writeSys_next (h : s.Inv) {q : WPort} (hq : s.wServed = some q)
    (hd : s.bus.adp.state ≠ .DONE) :
    (s.next TIMEOUT_LIMIT i).writeSys = s.writeSys.next 2 TIMEOUT_LIMIT (writeIn i) := by
  obtain ⟨p, hp, -, hwr⟩ := serving_of_wServed hq
  obtain ⟨w, hw, -⟩ := h.wServed q hq
  have hrel : s.bus.release = false := by rw [h.bus.release_eq hp, beq_eq_false_iff_ne.2 hd]
  obtain ⟨hp', hwr', ha', hl', -⟩ := s.bus.arb_next_busy 2 TIMEOUT_LIMIT (s.busIn i) hp hrel
  obtain ⟨ht, haw, hwv, hready⟩ := h.signals_wr TIMEOUT_LIMIT hq hd
  have hin := h.adpIn_wr (i := i) hq
  have hw' := h.writes_next_served TIMEOUT_LIMIT (i := i) hw hq
  rw [hrel, if_neg Bool.false_ne_true] at hw'
  have hbusy := writeSys_busy (s := s.next TIMEOUT_LIMIT i) ((wServed_next_busy hp hrel).trans hq) hw'
  have hreq : s.writeSys.req = some ⟨s.bus.arb.savedReqAddr, s.bus.arb.savedReqLines, w.1.line⟩ := by
    rw [writeSys_busy hq hw]
  have hwrites : s.bus.adp.Writes (s.bus.adpIn 2 (s.busIn i)) := by
    have hfsm := h.bus.fsm
    cases hst : s.bus.adp.state <;>
      simp_all [LegacyBus.Fsm, CacheAdapter.Regs.Writes, LegacyBus.adpIn, MemArbiter.Regs.memReqValid]
  have hdata : s.bus.adp.mAxiWdata (s.bus.adpIn 2 (s.busIn i)) =
      s.writeSys.eng.mAxiWdata 2 (s.writeSys.engIn (writeIn i)) := by
    rw [← hin]
    rfl
  -- The fields in order: engine, memory, transaction, request, position, memory at the start.
  ext1
  · exact (CacheAdapter.Regs.writeEngine_next hwrites).trans (by rw [hin]; rfl)
  · simp only [WriteSys.next, WriteSys.beat, hwv, ← hdata]
    rfl
  · simp only [WriteSys.next, WriteSys.beat, hwv, haw, ht]
    rfl
  · rw [hbusy]
    simp only [WriteSys.next, hreq, hready, Bool.false_eq_true, if_false]
    exact congrArg₂ (fun a l => some (WReq.mk a l w.1.line)) ha' hl'
  · rw [hbusy]
    simp only [WriteSys.next, hreq, hready, Option.isSome_some, Bool.not_false, Bool.and_self, if_true]
    rw [writeSys_busy hq hw]
    rfl
  · simp only [WriteSys.next, hreq, Option.isSome_some, if_true]
    simp [writeSys, next, hp]

variable (TIMEOUT_LIMIT) (i) in
/-- A write is not left in the middle. -/
theorem Inv.wServed_next_of_data (h : s.Inv) (hst : s.bus.adp.state = .WRITE_DATA) :
    ∃ q, (s.next TIMEOUT_LIMIT i).wServed = some q := by
  have hfsm := h.bus.fsm
  simp only [LegacyBus.Fsm, hst] at hfsm
  obtain ⟨q, p, hp, -, hq⟩ := wServed_of_writing hfsm.2.1
  have hrel : s.bus.release = false := by
    rw [h.bus.release_eq hp, hst]
    rfl
  exact ⟨q, (wServed_next_busy hp hrel).trans hq⟩

theorem Inv.resumable (h : s.Inv) (ht : s.bus.adp.timeout TIMEOUT_LIMIT = false) :
    s.bus.Resumable 2 TIMEOUT_LIMIT (s.busIn i) where
  timeout htmo := absurd (ht.symm.trans htmo) nofun
  fits hg hw := by
    obtain ⟨r, hr, -, hcount⟩ := h.read_of_grant hg hw
    exact (Nat.mul_le_mul_left 2 hcount.le).trans (h.rFits _ r hr).1

theorem Inv.wr_next (h : s.Inv) (ht : s.bus.adp.timeout TIMEOUT_LIMIT = false) :
    (s.next TIMEOUT_LIMIT i).writeSys.Inv 2 := by
  obtain ⟨hret', hhold', hnext'⟩ :=
    CacheAdapter.Regs.next_of_no_timeout (i := s.bus.adpIn 2 (s.busIn i)) ht
    h.retrying h.resumeHold_eq
  have hbus' := h.bus.next (by decide) (h.resumable (i := i) ht)
  cases hq' : (s.next TIMEOUT_LIMIT i).wServed with
  | none =>
    have hw' : (s.next TIMEOUT_LIMIT i).bus.arb.memReqWrite = false := by
      by_contra hw
      obtain ⟨q, -, -, -, hq⟩ := wServed_of_writing ((Bool.not_eq_false _).mp hw)
      exact absurd (hq'.symm.trans hq) nofun
    have hst : s.bus.adp.state ≠ .WRITE_DATA := fun hst => by
      obtain ⟨q, hq⟩ := h.wServed_next_of_data TIMEOUT_LIMIT i hst
      exact absurd (hq'.symm.trans hq) nofun
    have hidle : (s.next TIMEOUT_LIMIT i).bus.adp.writeEngine.wrState = .WR_IDLE := by
      have hfsm : (s.next TIMEOUT_LIMIT i).bus.Fsm := hbus'.fsm
      cases hst' : (s.next TIMEOUT_LIMIT i).bus.adp.state <;>
        simp_all [LegacyBus.Fsm, CacheAdapter.Regs.writeEngine]
    simp only [WriteSys.Inv, writeSys, hq', Option.bind_none, Option.map_none, Option.getD_none]
    exact ⟨hhold', hidle, hret', hnext'.trans (CacheAdapter.Regs.writeEarly_eq_false hst), trivial⟩
  | some q =>
    obtain ⟨p, hp', hpq, hwr'⟩ := serving_of_wServed hq'
    rcases arb_next_cases TIMEOUT_LIMIT s i hp' with ⟨hidle, hg⟩ | ⟨hp, hrel⟩
    · -- a write has just been granted, and the adapter rests
      rw [(arb_next_grant TIMEOUT_LIMIT hidle hg).2.1] at hwr'
      obtain ⟨q₂, w, hpq₂, hw, hpos, -⟩ := h.write_of_grant hidle hg hwr'
      obtain rfl : q = q₂ := Option.some_inj.1 (hpq.symm.trans hpq₂)
      have hwait : s.wServed ≠ some q := by simp [Legacy.wServed, hidle]
      have hst : s.bus.adp.state = .IDLE := by
        have hfsm := h.bus.fsm
        cases hst : s.bus.adp.state <;> simp_all [LegacyBus.Fsm]
      have hadp : (s.next TIMEOUT_LIMIT i).bus.adp = _ :=
        s.bus.adp_next_rest 2 TIMEOUT_LIMIT (s.busIn i) hidle hst
      have hmem : (s.next TIMEOUT_LIMIT i).bus.mem = (s.next TIMEOUT_LIMIT i).mem0 := by
        have hwv : s.bus.wBeat (s.busIn i) = false := by
          simp [LegacyBus.wBeat, CacheAdapter.Regs.mAxiWvalid, hst]
        cases hx : s.bus.wtxn <;> simp [Legacy.next, LegacyBus.next, hidle, hwv, hx]
      rw [writeSys_busy hq' (h.writes_next_waiting TIMEOUT_LIMIT hw hwait), hadp]
      simp [WriteSys.Inv, CacheAdapter.Regs.writeEngine, hst, h.retrying, h.resumeHold_eq, hpos, hmem]
    · rw [wServed_next_busy hp hrel] at hq'
      have hd : s.bus.adp.state ≠ .DONE := by
        rw [h.bus.release_eq hp, beq_eq_false_iff_ne] at hrel
        exact hrel
      rw [h.writeSys_next hq' hd]
      refine WriteSys.inv_next (by decide) (by decide) h.wr fun htmo => ?_
      rw [(h.signals_wr TIMEOUT_LIMIT hq' hd).1, ht] at htmo
      cases htmo

theorem Inv.next (h : s.Inv) (ha : (legacy TIMEOUT_LIMIT).admits s i) :
    (s.next TIMEOUT_LIMIT i).Inv where
  toLink := h.link_next ha.1
  bus := h.bus.next (by decide) (h.resumable ha.2)
  wr := h.wr_next ha.2
  retrying := (CacheAdapter.Regs.next_of_no_timeout ha.2 h.retrying h.resumeHold_eq).1

theorem inv_of_isReset (h : s.IsReset) : s.Inv := by
  obtain ⟨⟨hj, -⟩, hbus, hr, hw⟩ := h
  have hinv := LegacyBus.inv_of_isReset (B := 2) hbus
  obtain ⟨⟨hp, -⟩, ⟨hst, -, -, -, -, hnext, -, -, -, -, -, -, -, hret, -, hhold⟩, -⟩ := hbus
  have hrs : s.rServed = none := by simp [Legacy.rServed, hp]
  have hws : s.wServed = none := by simp [Legacy.wServed, hp]
  refine ⟨⟨fun q hq => ?_, fun q r hq => ?_, fun q r hq => ?_, fun q hq => ?_, fun q w hq => ?_,
    fun q w hq => ?_, .inl (hr _), fun hA => ?_, fun hS => ?_, fun hS => ?_⟩, hinv, ?_, hret⟩
  · exact absurd (hrs.symm.trans hq) nofun
  · exact absurd ((hr q).symm.trans hq) nofun
  · exact absurd ((hr q).symm.trans hq) nofun
  · exact absurd (hws.symm.trans hq) nofun
  · exact absurd ((hw q).symm.trans hq) nofun
  · exact absurd ((hw q).symm.trans hq) nofun
  · exact absurd (hp.symm.trans hA) nofun
  · exact absurd (hj.symm.trans hS) nofun
  · exact absurd (hj.symm.trans hS) nofun
  · simp [WriteSys.Inv, writeSys, hws, CacheAdapter.Regs.writeEngine, hst, hret, hnext, hhold]

theorem inv_of_reachable (h : (legacy TIMEOUT_LIMIT).Reachable s) : s.Inv := by
  induction h with
  | init hs => exact inv_of_isReset hs
  | step _ ha ih => exact ih.next ha

/-! ## Every request is served -/

/-- Some requester waits or is served. -/
def Pending (s : Legacy) : Prop := (∃ q, (s.reads q).isSome) ∨ ∃ q, (s.writes q).isSome

/-- Some request is done on this cycle. -/
def Completes (s : Legacy) : Prop := (∃ q, s.rDone q) ∨ ∃ q, s.wDone q

/-- What is left until a request is done: the join takes it up, the arbiter grants it, the adapter
    serves it. -/
def rank (s : Legacy) : ℕ ×ₗ ℕ :=
  match s.bus.arb.state with
  | some _ => toLex (0, if s.bus.arb.memReqWrite then s.writeSys.rank 2 else (s.bus.readSys 2).rank)
  | none => toLex (if s.join.memReqValid then 1 else 2, 0)

theorem rank_busy (hp : s.bus.arb.state = some p) :
    s.rank = toLex (0, if s.bus.arb.memReqWrite then s.writeSys.rank 2 else (s.bus.readSys 2).rank) := by
  rw [rank, hp]

theorem rank_idle (hp : s.bus.arb.state = none) :
    s.rank = toLex (if s.join.memReqValid then 1 else 2, 0) := by
  rw [rank, hp]

/-- The request that is served comes nearer to its end. -/
theorem Inv.rank_next_busy (h : s.Inv) (ht : s.bus.adp.timeout TIMEOUT_LIMIT = false)
    (hp : s.bus.arb.state = some p)
    (hc : ¬s.Completes) : (s.next TIMEOUT_LIMIT i).Pending ∧ (s.next TIMEOUT_LIMIT i).rank < s.rank := by
  cases hw : s.bus.arb.memReqWrite with
  | false =>
    -- A read: the rank of the bus says how far it has to go.
    have hq := rServed_eq hp hw
    obtain ⟨r, hr, -⟩ := h.rServed _ hq
    have hrel : s.bus.release = false := by
      rw [← h.rDone_eq hr hq, Bool.eq_false_iff]
      exact fun hd => hc (.inl ⟨_, hd⟩)
    obtain ⟨hp', hw', -⟩ := s.bus.arb_next_busy 2 TIMEOUT_LIMIT (s.busIn i) hp hrel
    have hr' := h.reads_next_served TIMEOUT_LIMIT (i := i) hr hq
    rw [hrel, if_neg Bool.false_ne_true] at hr'
    have hw' : (s.next TIMEOUT_LIMIT i).bus.arb.memReqWrite = false := hw'.trans hw
    refine ⟨.inl ⟨_, by rw [hr']; rfl⟩, ?_⟩
    rw [rank_busy (s := s.next TIMEOUT_LIMIT i) hp', rank_busy hp, hw, hw']
    exact Prod.Lex.toLex_lt_toLex.2 (.inr ⟨rfl,
      h.bus.rank_next (by decide) (LegacyBus.rreq_reading hp hw) ht hrel⟩)
  | true =>
    -- A write: `rank_next` of the write engine carries over, as the two go on alike.
    obtain ⟨q, p', hp₂, -, hq⟩ := wServed_of_writing hw
    obtain ⟨w, hwq, -⟩ := h.wServed _ hq
    have hrel : s.bus.release = false := by
      rw [← h.wDone_eq hwq hq, Bool.eq_false_iff]
      exact fun hd => hc (.inr ⟨_, hd⟩)
    have hd : s.bus.adp.state ≠ .DONE := by
      rw [h.bus.release_eq hp, beq_eq_false_iff_ne] at hrel
      exact hrel
    obtain ⟨hp', hw', -⟩ := s.bus.arb_next_busy 2 TIMEOUT_LIMIT (s.busIn i) hp hrel
    have hwq' := h.writes_next_served TIMEOUT_LIMIT (i := i) hwq hq
    rw [hrel, if_neg Bool.false_ne_true] at hwq'
    have hw' : (s.next TIMEOUT_LIMIT i).bus.arb.memReqWrite = true := hw'.trans hw
    refine ⟨.inr ⟨_, by rw [hwq']; rfl⟩, ?_⟩
    rw [rank_busy (s := s.next TIMEOUT_LIMIT i) hp', rank_busy hp, hw, hw']
    obtain ⟨htmo, -, -, hready⟩ := h.signals_wr TIMEOUT_LIMIT hq hd
    refine Prod.Lex.toLex_lt_toLex.2 (.inr ⟨rfl, ?_⟩)
    rw [if_pos rfl, if_pos rfl, h.writeSys_next hq hd]
    exact WriteSys.rank_next (by decide) h.wr (by rw [writeSys_busy hq hwq]) (htmo.trans ht) hready

/-- A request that waits is granted in the end. -/
theorem Inv.rank_next_idle (h : s.Inv) (hidle : s.bus.arb.state = none) (hpend : s.Pending) :
    (s.next TIMEOUT_LIMIT i).Pending ∧ (s.next TIMEOUT_LIMIT i).rank < s.rank := by
  have hrs : s.rServed = none := by simp [Legacy.rServed, hidle]
  have hws : s.wServed = none := by simp [Legacy.wServed, hidle]
  refine ⟨?_, ?_⟩
  · rcases hpend with ⟨q, hq⟩ | ⟨q, hq⟩
    · obtain ⟨r, hr⟩ := Option.isSome_iff_exists.1 hq
      exact .inl ⟨q, by rw [h.reads_next_waiting TIMEOUT_LIMIT hr (by simp [hrs])]; rfl⟩
    · obtain ⟨w, hw⟩ := Option.isSome_iff_exists.1 hq
      exact .inr ⟨q, by rw [h.writes_next_waiting TIMEOUT_LIMIT hw (by simp [hws])]; rfl⟩
  · rw [rank_idle hidle]
    cases hg : s.bus.arb.grant (s.arbIn i) with
    | some p =>
      rw [rank_busy (arb_next_grant TIMEOUT_LIMIT hidle hg).1]
      refine Prod.Lex.toLex_lt_toLex.2 (.inl ?_)
      dsimp only
      split_ifs <;> exact Nat.succ_pos _
    | none =>
      -- nobody asks, but for the accelerator, whose request the join takes up
      have hno : ¬((s.arbIn i).dcacheReqValid || (s.arbIn i).icacheReqValid ||
          (s.arbIn i).accelReqValid) = true := by
        intro hreq
        have := MemArbiter.grant_of_request hidle hreq
        simp [hg] at this
      simp only [arbIn, Bool.or_eq_true, not_or, Bool.not_eq_true, Option.isSome_eq_false_iff,
        Option.isNone_iff_eq_none] at hno
      obtain ⟨⟨⟨hrD, hwD⟩, hrI⟩, hv⟩ := hno
      have hj : s.join.state = .S_IDLE := by simpa [PortJoin.Regs.memReqValid] using hv
      have hidle' : (s.next TIMEOUT_LIMIT i).bus.arb.state = none := by
        simpa [Legacy.next, LegacyBus.next, MemArbiter.Regs.next, hidle, busIn] using hg
      have hv' : (s.next TIMEOUT_LIMIT i).join.memReqValid := by
        rcases join_next_idle TIMEOUT_LIMIT (i := i) hj with ⟨w, -, hjn⟩ |
          ⟨r, -, -, hjn⟩ | ⟨hrA, hwA, -⟩
        · rw [hjn]
          rfl
        · rw [hjn]
          rfl
        · rcases hpend with ⟨q, hq⟩ | ⟨q, hq⟩ <;> cases q <;> simp_all
      rw [rank_idle hidle', hv, hv', if_pos rfl, if_neg Bool.false_ne_true]
      exact Prod.Lex.toLex_lt_toLex.2 (.inl (by decide))

/-- Some request is done in the end. -/
theorem exists_completes {σ : ℕ → Legacy} {ι : ℕ → TransportInputs}
    (h : (legacy TIMEOUT_LIMIT).IsRun σ ι) {n : ℕ}
    (hn : (σ n).Pending) : ∃ m ≥ n, (σ m).Completes := by
  have hinv : ∀ n, (σ n).Inv := fun n => inv_of_reachable (h.reachable n)
  obtain ⟨m, hm, -, hc⟩ := Circuit.exists_of_rank rank (σ := σ) (ι := ι) (P := Pending)
    (Q := fun s _ => s.Completes) (fun k hpend hc => by
      rw [h.next k]
      cases hp : (σ k).bus.arb.state with
      | none => exact (hinv k).rank_next_idle hp hpend
      | some p => exact (hinv k).rank_next_busy (h.admits k).2 hp hc) hn
  exact ⟨m, hm, hc⟩

/-! ## The path, seen from its ports -/

/-- What a run is on its ports. -/
def portTrace (σ : ℕ → Legacy) : PortTrace where
  mem n := (σ n).bus.mem
  reads p n := (σ n).reads p
  writes p n := ((σ n).writes p).map (·.1)
  rReady p n := (σ n).rReady p
  wReady p n := (σ n).wReady p
  line n := (σ n).bus.adp.memRline

/-- A line that is announced is the next one of the request that is served. -/
theorem Inv.line_eq (h : s.Inv) {q : RPort} {r : RReq × ℕ} (hr : s.reads q = some r)
    (hready : s.rReady q) :
    s.bus.adp.memRline = s.bus.mem.line (r.1.lineAddr r.2) ∧ r.2 < r.1.count := by
  rw [h.rReady_eq hr, Bool.and_eq_true, decide_eq_true_iff] at hready
  obtain ⟨hq, hm⟩ := hready
  obtain ⟨p, hp, rfl, hw⟩ := serving_of_rServed hq
  obtain ⟨r', hr', ha, hcount, hgot⟩ := h.rServed _ hq
  obtain rfl : r = r' := Option.some_inj.1 (hr.symm.trans hr')
  obtain ⟨hlines, hlen⟩ := h.bus.inOrder.lines _ (LegacyBus.rreq_reading hp hw)
  have hsucc : s.bus.lines = s.bus.got ++ [s.bus.adp.memRline] := if_pos hm
  rw [hsucc, List.length_append, List.length_singleton, ← hgot] at hlines hlen
  rw [RetrySys.linesOf_succ] at hlines
  obtain ⟨-, hlast⟩ := List.append_inj' hlines rfl
  refine ⟨?_, hcount ▸ hlen⟩
  rw [List.singleton_inj.1 hlast, RReq.lineAddr, RReq.lineAddr, RReq.base, RReq.base, ha]

theorem ready_iff {p : MemArbiter.Port} : s.ready p ↔ s.bus.arb.state = some p ∧ s.bus.adp.memReady := by
  simp [ready, MemArbiter.Regs.ready]

/-- A port gets a pulse for the request that it holds. -/
theorem Inv.held_of_rReady (h : s.Inv) {q : RPort} (hready : s.rReady q) :
    (∃ r, s.reads q = some r ∧ r.2 < r.1.count) ∨ (q = .D ∧ ∃ w, s.writes .D = some w) := by
  have hread : s.rServed = some q → ∃ r, s.reads q = some r ∧ r.2 < r.1.count := fun hq => by
    obtain ⟨r, hr, -⟩ := h.rServed q hq
    exact ⟨r, hr, (h.line_eq hr hready).2⟩
  cases q with
  | D =>
    obtain ⟨hp, -⟩ := ready_iff.1 hready
    cases hw : s.bus.arb.memReqWrite with
    | false => exact .inl (hread (rServed_eq hp hw))
    | true =>
      obtain ⟨w, hw, -⟩ := h.wServed .D (by simp [Legacy.wServed, hw, hp, MemArbiter.Port.wport])
      exact .inr ⟨rfl, w, hw⟩
  | I =>
    obtain ⟨hp, -⟩ := ready_iff.1 hready
    exact .inl (hread (rServed_eq hp (by simp [MemArbiter.Regs.memReqWrite, hp])))
  | A =>
    rw [rReady, PortJoin.Regs.accelRdReady, Bool.and_eq_true, beq_iff_eq] at hready
    obtain ⟨hp, -⟩ := ready_iff.1 hready.2
    refine .inl (hread (rServed_eq hp ?_))
    rw [← (h.accel hp).2, PortJoin.Regs.memReqWrite, hready.1]
    rfl

theorem Inv.held_of_wReady (h : s.Inv) (hready : s.wReady .A) : ∃ w, s.writes .A = some w := by
  rw [wReady, PortJoin.Regs.accelWrReady, Bool.and_eq_true, beq_iff_eq] at hready
  obtain ⟨w, hw, -⟩ := h.joinWr hready.1
  exact ⟨w, hw⟩

/-- The memory changes where the write that is served may change it. -/
theorem Inv.mem_next (h : s.Inv) (x : Word)
    (hx : ∀ q w, s.writes q = some w → s.wReady q = false → ¬(Op.write w.1).Covers x) :
    (s.next TIMEOUT_LIMIT i).bus.mem x = s.bus.mem x := by
  by_cases hst : s.bus.adp.state = .WRITE_DATA
  · have hfsm := h.bus.fsm
    simp only [LegacyBus.Fsm, hst] at hfsm
    obtain ⟨q, p, hp, -, hq⟩ := wServed_of_writing hfsm.2.1
    obtain ⟨w, hw, ha, hl, -⟩ := h.wServed q hq
    have hready : s.wReady q = false := by
      rw [h.wReady_eq hw, h.bus.fsm.memReady_writing hfsm.2.1, hst]
      simp
    have hmem : (s.next TIMEOUT_LIMIT i).bus.mem = (s.writeSys.next 2 TIMEOUT_LIMIT (writeIn i)).mem :=
      congrArg WriteSys.mem (h.writeSys_next hq (by simp [hst]))
    rw [hmem]
    refine h.wr.mem_next_outside (r := ⟨s.bus.arb.savedReqAddr, s.bus.arb.savedReqLines,
      w.1.line⟩) (by decide)
      (by rw [writeSys_busy hq hw]) ?_
    rw [Transport.count_served_wr hl, WReq.base, ha]
    exact hx q w hw hready
  · have hwv : s.bus.wBeat (s.busIn i) = false := by
      simp [LegacyBus.wBeat, CacheAdapter.Regs.mAxiWvalid, hst]
    cases htx : s.bus.wtxn <;> simp [Legacy.next, LegacyBus.next, hwv, htx]

/-- A write that is acknowledged has written its lines. -/
theorem Inv.mem_of_wReady (h : s.Inv) {q : WPort} {w : WReq × ℕ} (hw : s.writes q = some w)
    (hready : s.wReady q) :
    s.bus.mem = s.mem0.image w.1.base w.1.line (16 * w.1.count) := by
  rw [h.wReady_eq hw, Bool.and_eq_true, decide_eq_true_iff] at hready
  obtain ⟨hq, hm⟩ := hready
  obtain ⟨p, hp, -, hwr⟩ := serving_of_wServed hq
  obtain ⟨w', hw', ha, hl, -⟩ := h.wServed q hq
  obtain rfl : w = w' := Option.some_inj.1 (hw.symm.trans hw')
  have hst : s.bus.adp.state = .DONE := by
    rw [h.bus.fsm.memReady_writing hwr, beq_iff_eq] at hm
    exact hm
  have hsw : s.bus.adp.savedWrite := by
    have hfsm := h.bus.fsm
    simp only [LegacyBus.Fsm, hst] at hfsm
    exact hfsm.2.1.trans hwr
  have hinv := h.wr
  rw [writeSys_busy hq hw, WriteSys.Inv] at hinv
  simp only [CacheAdapter.Regs.writeEngine, hst, hsw, if_true] at hinv
  have hwritten := hinv.2.2.written
  rw [Transport.count_served_wr hl, WReq.base, ha] at hwritten
  exact hwritten

/-- A run of the legacy path obeys the laws of the ports. -/
theorem lawful_portTrace {σ : ℕ → Legacy} {ι : ℕ → TransportInputs}
    (h : (legacy TIMEOUT_LIMIT).IsRun σ ι) :
    (portTrace σ).Lawful := by
  have hinv : ∀ n, (σ n).Inv := fun n => inv_of_reachable (h.reachable n)
  have hnext : ∀ n, σ (n + 1) = (σ n).next TIMEOUT_LIMIT (ι n) := h.next
  obtain ⟨-, -, hreads, hwrites⟩ := h.init
  have hrdone : ∀ p n, (portTrace σ).rDone p n = (σ n).rDone p := fun p n => rfl
  have hwdone : ∀ p n, (portTrace σ).wDone p n = (σ n).wDone p := fun p n => by
    cases hw : (σ n).writes p <;> simp [PortTrace.wDone, portTrace, wDone, hw]
  constructor
  case initRd => exact fun p => hreads p
  case initWr => simp [portTrace, hwrites]
  case dcache => exact fun n => (hinv n).dcache.imp_right fun hd => by simp [portTrace, hd]
  case dport => exact fun n => rfl
  case holdRd =>
    intro p n r hr hd
    rw [hrdone] at hd
    have hr : (σ n).reads p = some r := hr
    simp only [portTrace]
    rw [hnext]
    simp [Legacy.next, rFree, hr, hd]
  case fresh =>
    intro p n hf r hr
    rw [hrdone] at hf
    have hfree : (σ n).rFree p := by
      rw [rFree, Bool.or_eq_true, Option.isNone_iff_eq_none]
      exact hf
    simp only [portTrace] at hr
    rw [hnext] at hr
    simp only [Legacy.next, hfree, if_true] at hr
    exact (raiseRd_eq_some hr).2
  case holdWr =>
    intro p n w hw hready
    obtain ⟨v, hv, rfl⟩ := Option.map_eq_some_iff.1 hw
    have hready : (σ n).wReady p = false := hready
    simp only [portTrace]
    rw [hnext]
    simp [Legacy.next, wFree, wDone, hv, hready]
  case heldRd =>
    intro p n hready
    refine ((hinv n).held_of_rReady hready).imp_right fun hwrite => ?_
    obtain ⟨hp, w, hw⟩ := hwrite
    exact ⟨hp, w.1, by simp [portTrace, hw]⟩
  case heldWr =>
    intro n hready
    obtain ⟨w, hw⟩ := (hinv n).held_of_wReady hready
    exact ⟨w.1, by simp [portTrace, hw]⟩
  case line =>
    -- one transaction at a time: the line is still what memory holds
    intro p n r hr hready o
    have hr : (σ n).reads p = some r := hr
    refine ⟨n, le_rfl, fun j h₁ h₂ => absurd h₂ (Nat.not_lt.2 h₁), ?_⟩
    simp only [portTrace]
    rw [((hinv n).line_eq hr hready).1, Mem.lineByte_line_append]
  case frame =>
    intro n x hx
    simp only [portTrace]
    rw [hnext]
    exact (hinv n).mem_next x fun q w hw hready => hx q w.1 (by simp [portTrace, hw]) hready
  case written =>
    intro p n w hw hready x hx
    obtain ⟨v, hv, rfl⟩ := Option.map_eq_some_iff.1 hw
    have hmem := (hinv n).mem_of_wReady hv hready
    calc (σ n).bus.mem x = (Op.write v.1).exec (σ n).mem0 x := congrFun hmem x
      _ = (Op.write v.1).exec (σ n).bus.mem x := Op.exec_of_covers hx
  case progress =>
    intro n hsome
    have hpend : (σ n).Pending := by
      rcases hsome with ⟨p, hp⟩ | ⟨p, hp⟩
      · exact .inl ⟨p, hp⟩
      · exact .inr ⟨p, by simpa [portTrace] using hp⟩
    obtain ⟨m, hm, ⟨p, hd⟩ | ⟨p, hd⟩⟩ := exists_completes h hpend
    · exact ⟨m, hm, .inl ⟨p, hd⟩⟩
    · exact ⟨m, hm, .inr ⟨p, (hwdone p m).trans hd⟩⟩

/-- A port that raises nothing is left without a request. -/
theorem portTrace_reads_eq_none {σ : ℕ → Legacy} {ι : ℕ → TransportInputs}
    (h : (legacy TIMEOUT_LIMIT).IsRun σ ι)
    {p : RPort} {n : ℕ} (hs : (ι n).startRd p = none) (hf : (portTrace σ).reads p n = none ∨
      (portTrace σ).rDone p n) :
    (portTrace σ).reads p (n + 1) = none := by
  have hnext : σ (n + 1) = (σ n).next TIMEOUT_LIMIT (ι n) := h.next n
  have hfree : (σ n).rFree p := by
    rw [rFree, Bool.or_eq_true, Option.isNone_iff_eq_none]
    exact hf
  simp only [portTrace]
  rw [hnext]
  simp [Legacy.next, hfree, raiseRd, hs]

theorem portTrace_writes_eq_none {σ : ℕ → Legacy} {ι : ℕ → TransportInputs}
    (h : (legacy TIMEOUT_LIMIT).IsRun σ ι)
    {p : WPort} {n : ℕ} (hs : (ι n).startWr p = none) (hf : (portTrace σ).writes p n = none ∨
      (portTrace σ).wReady p n) :
    (portTrace σ).writes p (n + 1) = none := by
  have hnext : σ (n + 1) = (σ n).next TIMEOUT_LIMIT (ι n) := h.next n
  have hfree : (σ n).wFree p := by
    cases hw : (σ n).writes p with
    | none => simp [wFree, hw]
    | some w =>
      have hready : (σ n).wReady p := hf.resolve_left (by simp [portTrace, hw])
      simp [wFree, wDone, hw, hready]
  simp only [portTrace]
  rw [hnext]
  simp [Legacy.next, hfree, raiseWr, hs]

end Legacy

end Rv32Soc
