import Rv32Soc.Lib.Circuit
import Rv32Soc.Axi.RwEngine

/-!
# The write channel

The write engine of `axi_rw_engine.v` between a requester and an AXI4 memory. The
requester presents the first of its lines, moves on by one line for each `wrNext`
pulse and cannot go back; the memory accepts addresses and beats whenever it likes,
and forgets a transaction that is abandoned but keeps the beats it accepted.

A line that is resumed after a timeout is sent again from its first beat. If the
engine had asked for the next line already, i.e., if the timeout fell between the
last two beats of a line that is not the last one, it sends the line it kept, but
asks for the next line once more on the way, and the requester skips one
(`skipped_line`). When no timeout falls there, every line ends up in its place, and
exactly one is asked for after each but the last (`written_of_reachable`).
-/

namespace Rv32Soc

namespace AxiRw

/-- A request to write lines, and the lines its requester presents in turn. -/
structure WReq where
  addr : Word
  lines : BitVec 8
  line : ℕ → Line

/-- The number of lines requested; `0` stands for one. -/
def WReq.count (r : WReq) : ℕ := (if r.lines = 0 then 1 else r.lines).toNat

def WReq.base (r : WReq) : Word := lineBase r.addr

/-- The engine, the memory with the address of the next beat of the transaction it
    serves, and the requester: its request, the `wrNext` pulses it has seen, and what
    the memory was when the request was raised. -/
@[ext] structure WriteSys where
  eng : WrRegs
  mem : Mem
  txn : Option Word
  req : Option WReq
  pos : ℕ
  mem0 : Mem

/-- What the requester, when it has no request, and the memory do on a cycle. -/
structure WriteInputs where
  start : Option WReq
  mAxiAwready : Bool
  mAxiWready : Bool
  mAxiBvalid : Bool

namespace WriteSys

variable (B : ℕ) (TIMEOUT_LIMIT : BitVec 16) (s : WriteSys) (i : WriteInputs)

/-- The ports of the engine. -/
def engIn : WrInputs where
  wrReqValid := s.req.isSome
  wrReqAddr := (s.req.map WReq.addr).getD 0
  wrReqLines := (s.req.map WReq.lines).getD 1
  wrWline := (s.req.map fun r => r.line s.pos).getD 0
  mAxiAwready := i.mAxiAwready
  mAxiWready := i.mAxiWready
  mAxiBvalid := i.mAxiBvalid

/-- The memory accepts a beat. -/
def beat : Bool := s.eng.mAxiWvalid && i.mAxiWready

def next : WriteSys where
  eng := s.eng.next B TIMEOUT_LIMIT (s.engIn i)
  mem :=
    match s.txn with
    | some p => if s.beat i then s.mem.storePart p (s.eng.mAxiWdata B (s.engIn i)) else s.mem
    | none => s.mem
  txn :=
    if s.eng.wrTimeout TIMEOUT_LIMIT then none
    else if s.eng.mAxiAwvalid && i.mAxiAwready then some s.eng.mAxiAwaddr
    else if s.beat i then
      if s.eng.mAxiWlast B then none else s.txn.map (· + BitVec.ofNat 32 (16 / B))
    else s.txn
  req :=
    match s.req with
    | some r => if s.eng.wrReady then none else some r
    | none => i.start
  pos := if s.req.isSome && !s.eng.wrReady then s.pos + s.eng.wrNext.toNat else 0
  mem0 := if s.req.isSome then s.mem0 else s.mem

/-- After a reset nothing is requested and no transaction is served. -/
def IsReset : Prop := s.eng.IsReset ∧ s.txn = none ∧ s.req = none ∧ s.pos = 0

/-! ## The invariant -/

/-- The engine has taken up the request `r`, of which `wrSent` lines are sent. -/
structure Taken (r : WReq) : Prop where
  addr : s.eng.wrAddrS = r.addr
  lines : s.eng.wrLinesS.toNat = r.count
  first : s.eng.wlineFirst = r.line 0

/-- The lines of the request are in place at least up to the byte `c`. -/
def Written (r : WReq) (c : ℕ) : Prop :=
  ∃ e, c ≤ e ∧ e ≤ 16 * r.count ∧ s.mem = s.mem0.image r.base r.line e

/-- Between the lines: the requester presents the line to be sent next. -/
structure Between (r : WReq) : Prop extends s.Taken r where
  sent : s.eng.wrSent.toNat < r.count
  pos : s.pos = s.eng.wrSent.toNat
  next : s.eng.wrNext = false
  ahead : s.eng.wrFifoAhead = false
  written : s.Written r (16 * s.eng.wrSent.toNat)

/-- A line is being sent. -/
structure Sending (r : WReq) : Prop extends s.Taken r where
  sent : s.eng.wrSent.toNat < r.count
  beat : s.eng.wrBeat.toNat < B
  txn : s.txn = some (r.base +
    BitVec.ofNat 32 (16 * s.eng.wrSent.toNat + s.eng.wrBeat.toNat * (16 / B)))
  ahead : s.eng.wrFifoAhead = true ↔
    s.eng.wrBeat.toNat + 1 = B ∧ s.eng.wrSent.toNat + 1 < r.count
  next : s.eng.wrNext = true → s.eng.wrFifoAhead = true
  pos : s.pos + s.eng.wrNext.toNat = s.eng.wrSent.toNat + s.eng.wrFifoAhead.toNat
  hold : s.eng.wrBeat ≠ 0 → s.eng.wlineHold = r.line s.eng.wrSent.toNat
  written : s.Written r (16 * s.eng.wrSent.toNat + s.eng.wrBeat.toNat * (16 / B))

/-- Every line is sent. -/
structure Sent (r : WReq) : Prop extends s.Taken r where
  sent : s.eng.wrSent.toNat = r.count
  pos : s.pos + 1 = r.count
  next : s.eng.wrNext = false
  ahead : s.eng.wrFifoAhead = false
  written : s.mem = s.mem0.image r.base r.line (16 * r.count)

/-- The invariant of the channel. -/
def Inv : Prop :=
  s.eng.wrResumeHold = false ∧
    match s.req with
    | none => s.eng.wrState = .WR_IDLE ∧ s.eng.wrRetrying = false ∧ s.eng.wrNext = false ∧ s.pos = 0
    | some r =>
      match s.eng.wrState with
      | .WR_IDLE => s.eng.wrServed = false ∧
          if s.eng.wrRetrying then s.Between r
          else s.pos = 0 ∧ s.eng.wrNext = false ∧ s.mem = s.mem0
      | .WR_ADDR => s.eng.wrServed = false ∧ s.eng.wrRetrying = false ∧ s.eng.wrBeat = 0 ∧ s.Between r
      | .WR_DATA => s.eng.wrServed = false ∧ s.eng.wrRetrying = false ∧ s.Sending B r
      | .WR_RESP | .WR_DONE => s.eng.wrRetrying = false ∧ s.Sent r

end WriteSys

variable {B : ℕ} {TIMEOUT_LIMIT : BitVec 16} {s : WriteSys} {i : WriteInputs} {r : WReq}

/-! ## One edge -/

theorem count_pos (r : WReq) : 0 < r.count := by
  rw [WReq.count]
  split
  next => decide
  next h => exact Nat.pos_of_ne_zero fun h0 => h (BitVec.eq_of_toNat_eq h0)

theorem count_le (r : WReq) : r.count ≤ 255 := Nat.lt_succ_iff.1 (BitVec.isLt _)

theorem setWidth_shiftLeft_four (x : BitVec 8) :
    x.setWidth 32 <<< 4 = BitVec.ofNat 32 (16 * x.toNat) := by
  apply BitVec.eq_of_toNat_eq
  rw [BitVec.toNat_shiftLeft, BitVec.toNat_setWidth, BitVec.toNat_ofNat, Nat.shiftLeft_eq]
  have := x.isLt
  omega

/-- Without a request the engine rests. -/
theorem WriteSys.next_none (hreq : s.req = none) (hst : s.eng.wrState = .WR_IDLE) :
    s.next B TIMEOUT_LIMIT i =
      { s with
        eng := { s.eng with wrNext := false, wrTmo := 0, wrServed := false }
        req := i.start, pos := 0, mem0 := s.mem } := by
  have heng : s.eng.next B TIMEOUT_LIMIT (s.engIn i) =
      { s.eng with wrNext := false, wrTmo := 0, wrServed := false } := by
    simp [WrRegs.next, WrRegs.wrTimeout, WrRegs.wrEligible, WrRegs.wrNextS, WrRegs.wrStart,
      WrRegs.wrTake, WrRegs.wrLineEnd, WrRegs.wrEarly, WriteSys.engIn, hst, hreq]
  rw [WriteSys.next, heng]
  cases s.txn <;>
    simp [hreq, hst, WriteSys.beat, WrRegs.wrTimeout, WrRegs.wrEligible, WrRegs.mAxiAwvalid,
      WrRegs.mAxiWvalid]

/-- A request is taken up, or taken up again where it was left. -/
theorem WriteSys.next_idle (hreq : s.req = some r) (hst : s.eng.wrState = .WR_IDLE)
    (hserved : s.eng.wrServed = false) :
    s.next B TIMEOUT_LIMIT i =
      { s with
        eng := { s.eng with
          wrState := .WR_ADDR, wrBeat := 0, wrNext := false, wrRetrying := false, wrTmo := 0
          wrAddrS := r.addr, wrLinesS := if r.lines = 0 then 1 else r.lines
          wrSent := if s.eng.wrRetrying then s.eng.wrSent else 0
          wlineFirst := if s.eng.wrRetrying then s.eng.wlineFirst else r.line s.pos
          wrFifoAhead := if s.eng.wrRetrying then s.eng.wrFifoAhead else false }
        pos := s.pos + s.eng.wrNext.toNat } := by
  have heng : s.eng.next B TIMEOUT_LIMIT (s.engIn i) =
      { s.eng with
        wrState := .WR_ADDR, wrBeat := 0, wrNext := false, wrRetrying := false, wrTmo := 0
        wrAddrS := r.addr, wrLinesS := if r.lines = 0 then 1 else r.lines
        wrSent := if s.eng.wrRetrying then s.eng.wrSent else 0
        wlineFirst := if s.eng.wrRetrying then s.eng.wlineFirst else r.line s.pos
        wrFifoAhead := if s.eng.wrRetrying then s.eng.wrFifoAhead else false } := by
    cases hret : s.eng.wrRetrying <;>
      simp [WrRegs.next, WrRegs.wrTimeout, WrRegs.wrEligible, WrRegs.wrNextS, WrRegs.wrStart,
        WrRegs.wrTake, WrRegs.wrLineEnd, WrRegs.wrEarly, WriteSys.engIn, hst, hreq, hserved, hret]
  rw [WriteSys.next, heng]
  cases s.txn <;>
    simp [hreq, hst, WriteSys.beat, WrRegs.wrTimeout, WrRegs.wrEligible, WrRegs.mAxiAwvalid,
      WrRegs.mAxiWvalid, WrRegs.wrReady]

/-- A transaction is abandoned before all its data is sent. -/
theorem WriteSys.next_timeout (hreq : s.req = some r) (ht : s.eng.wrTimeout TIMEOUT_LIMIT = true)
    (hst : s.eng.wrState = .WR_ADDR ∨ s.eng.wrState = .WR_DATA) :
    s.next B TIMEOUT_LIMIT i =
      { s with
        eng := { s.eng with
          wrState := .WR_IDLE, wrBeat := 0, wrTmo := 0, wrRetries := s.eng.wrRetries + 1
          wrRetrying := true, wrResumeHold := s.eng.wrFifoAhead, wrNext := false }
        mem := (s.next B TIMEOUT_LIMIT i).mem
        txn := none
        pos := s.pos + s.eng.wrNext.toNat } := by
  have hb : s.eng.wrBrespOnly = false := by rcases hst with h | h <;> simp [WrRegs.wrBrespOnly, h]
  have hr : s.eng.wrReady = false := by rcases hst with h | h <;> simp [WrRegs.wrReady, h]
  simp [WriteSys.next, WrRegs.next, ht, hb, hr, hreq]

/-- The address is offered. -/
theorem WriteSys.next_addr (hreq : s.req = some r) (ht : s.eng.wrTimeout TIMEOUT_LIMIT = false)
    (hst : s.eng.wrState = .WR_ADDR) :
    s.next B TIMEOUT_LIMIT i =
      { s with
        eng := { s.eng with
          wrState := if i.mAxiAwready then .WR_DATA else .WR_ADDR, wrNext := false
          wrTmo := if i.mAxiAwready then 0 else s.eng.wrTmo + 1 }
        txn := if i.mAxiAwready then some s.eng.mAxiAwaddr else s.txn
        pos := s.pos + s.eng.wrNext.toNat } := by
  have heng : s.eng.next B TIMEOUT_LIMIT (s.engIn i) =
      { s.eng with
        wrState := if i.mAxiAwready then .WR_DATA else .WR_ADDR, wrNext := false
        wrTmo := if i.mAxiAwready then 0 else s.eng.wrTmo + 1 } := by
    simp [WrRegs.next, ht, WrRegs.wrEligible, WrRegs.wrNextS, WrRegs.wrStart, WrRegs.wrTake,
      WrRegs.wrLineEnd, WrRegs.wrEarly, WrRegs.wrProgress, WrRegs.mAxiAwvalid, WrRegs.mAxiWvalid,
      WrRegs.mAxiBready, WriteSys.engIn, hst, hreq]
  rw [WriteSys.next, heng]
  cases s.txn <;>
    simp [hreq, ht, hst, WriteSys.beat, WrRegs.mAxiAwvalid, WrRegs.mAxiWvalid, WrRegs.wrReady]

/-- A beat is offered, but not accepted. -/
theorem WriteSys.next_wait (hreq : s.req = some r) (ht : s.eng.wrTimeout TIMEOUT_LIMIT = false)
    (hst : s.eng.wrState = .WR_DATA) (hw : i.mAxiWready = false) :
    s.next B TIMEOUT_LIMIT i =
      { s with
        eng := { s.eng with
          wlineHold := if s.eng.wrBeat = 0 && !s.eng.wrResumeHold then r.line s.pos else s.eng.wlineHold
          wrNext := false, wrTmo := s.eng.wrTmo + 1 }
        pos := s.pos + s.eng.wrNext.toNat } := by
  have heng : s.eng.next B TIMEOUT_LIMIT (s.engIn i) =
      { s.eng with
        wlineHold := if s.eng.wrBeat = 0 && !s.eng.wrResumeHold then r.line s.pos else s.eng.wlineHold
        wrNext := false, wrTmo := s.eng.wrTmo + 1 } := by
    simp [WrRegs.next, ht, WrRegs.wrEligible, WrRegs.wrNextS, WrRegs.wrStart, WrRegs.wrTake,
      WrRegs.wrLineEnd, WrRegs.wrEarly, WrRegs.wrProgress, WrRegs.mAxiAwvalid, WrRegs.mAxiWvalid,
      WrRegs.mAxiBready, WriteSys.engIn, hst, hreq, hw]
  rw [WriteSys.next, heng]
  cases s.txn <;>
    simp [hreq, ht, hst, WriteSys.beat, WrRegs.mAxiAwvalid, WrRegs.mAxiWvalid, WrRegs.wrReady, hw]

/-- A beat is accepted. -/
theorem WriteSys.next_take (hreq : s.req = some r) (ht : s.eng.wrTimeout TIMEOUT_LIMIT = false)
    (hst : s.eng.wrState = .WR_DATA) (hw : i.mAxiWready = true) {p : Word} (hp : s.txn = some p) :
    s.next B TIMEOUT_LIMIT i =
      { s with
        eng := { s.eng with
          wrState := if s.eng.mAxiWlast B then .WR_RESP else .WR_DATA
          wrBeat := if s.eng.wrBeat.toNat + 1 = B then 0 else s.eng.wrBeat + 1
          wrSent := if s.eng.wrBeat.toNat + 1 = B then s.eng.wrSent + 1 else s.eng.wrSent
          wlineHold := if s.eng.wrBeat = 0 && !s.eng.wrResumeHold then r.line s.pos else s.eng.wlineHold
          wrNext := s.eng.wrBeat.toNat + 2 == B && s.eng.wrSent + 1 < s.eng.wrLinesS
          wrFifoAhead :=
            if s.eng.wrBeat.toNat + 2 == B && s.eng.wrSent + 1 < s.eng.wrLinesS then true
            else if s.eng.wrBeat.toNat + 1 = B then false else s.eng.wrFifoAhead
          wrResumeHold := if s.eng.wrBeat.toNat + 1 = B then false else s.eng.wrResumeHold
          wrTmo := 0 }
        mem := s.mem.storePart p (s.eng.mAxiWdata B (s.engIn i))
        txn := if s.eng.mAxiWlast B then none else some (p + BitVec.ofNat 32 (16 / B))
        pos := s.pos + s.eng.wrNext.toNat } := by
  simp [WriteSys.next, WrRegs.next, ht, WrRegs.wrEligible, WrRegs.wrNextS, WrRegs.wrStart, WrRegs.wrTake,
      WrRegs.wrLineEnd, WrRegs.wrEarly, WrRegs.wrProgress, WrRegs.mAxiAwvalid, WrRegs.mAxiWvalid,
      WrRegs.mAxiBready, WriteSys.engIn, hst, hreq, hw, hp, WriteSys.beat, WrRegs.wrReady]

/-- The response is awaited. -/
theorem WriteSys.next_resp (hreq : s.req = some r) (ht : s.eng.wrTimeout TIMEOUT_LIMIT = false)
    (hst : s.eng.wrState = .WR_RESP) :
    s.next B TIMEOUT_LIMIT i =
      { s with
        eng := { s.eng with
          wrState := if i.mAxiBvalid then .WR_DONE else .WR_RESP, wrNext := false
          wrTmo := if i.mAxiBvalid then 0 else s.eng.wrTmo + 1 }
        pos := s.pos + s.eng.wrNext.toNat } := by
  have heng : s.eng.next B TIMEOUT_LIMIT (s.engIn i) =
      { s.eng with
        wrState := if i.mAxiBvalid then .WR_DONE else .WR_RESP, wrNext := false
        wrTmo := if i.mAxiBvalid then 0 else s.eng.wrTmo + 1 } := by
    simp [WrRegs.next, ht, WrRegs.wrEligible, WrRegs.wrNextS, WrRegs.wrStart, WrRegs.wrTake,
      WrRegs.wrLineEnd, WrRegs.wrEarly, WrRegs.wrProgress, WrRegs.mAxiAwvalid, WrRegs.mAxiWvalid,
      WrRegs.mAxiBready, WriteSys.engIn, hst, hreq]
  rw [WriteSys.next, heng]
  cases s.txn <;>
    simp [hreq, ht, hst, WriteSys.beat, WrRegs.mAxiAwvalid, WrRegs.mAxiWvalid, WrRegs.wrReady]

/-- The response is given up. -/
theorem WriteSys.next_lost (hreq : s.req = some r) (ht : s.eng.wrTimeout TIMEOUT_LIMIT = true)
    (hst : s.eng.wrState = .WR_RESP) (hsent : s.eng.wrLinesS ≤ s.eng.wrSent) :
    s.next B TIMEOUT_LIMIT i =
      { s with
        eng := { s.eng with
          wrState := .WR_DONE, wrBeat := 0, wrTmo := 0, wrRetries := s.eng.wrRetries + 1
          wrNext := false }
        txn := none
        pos := s.pos + s.eng.wrNext.toNat } := by
  rw [WriteSys.next]
  cases s.txn <;>
    simp [WrRegs.next, ht, hst, hsent, WrRegs.wrBrespOnly, hreq, WriteSys.beat, WrRegs.mAxiWvalid,
      WrRegs.wrReady]

/-- The request is acknowledged, and withdrawn. -/
theorem WriteSys.next_done (hreq : s.req = some r) (hst : s.eng.wrState = .WR_DONE) :
    s.next B TIMEOUT_LIMIT i =
      { s with
        eng := { s.eng with
          wrState := .WR_IDLE, wrBeat := 0, wrNext := false, wrTmo := 0, wrServed := true }
        req := none, pos := 0 } := by
  have heng : s.eng.next B TIMEOUT_LIMIT (s.engIn i) =
      { s.eng with
        wrState := .WR_IDLE, wrBeat := 0, wrNext := false, wrTmo := 0, wrServed := true } := by
    simp [WrRegs.next, WrRegs.wrTimeout, WrRegs.wrEligible, WrRegs.wrNextS, WrRegs.wrStart,
      WrRegs.wrTake, WrRegs.wrLineEnd, WrRegs.wrEarly, WriteSys.engIn, hst, hreq]
  rw [WriteSys.next, heng]
  cases s.txn <;>
    simp [hreq, hst, WriteSys.beat, WrRegs.wrTimeout, WrRegs.wrEligible, WrRegs.mAxiAwvalid,
      WrRegs.mAxiWvalid, WrRegs.wrReady]

/-! ## The invariant is kept -/

theorem WriteSys.Written.congr {s' : WriteSys} {c : ℕ} (h : s.Written r c) (hm : s'.mem = s.mem)
    (h0 : s'.mem0 = s.mem0) : s'.Written r c := by
  obtain ⟨e, hc, he, hmem⟩ := h
  exact ⟨e, hc, he, by rw [hm, h0, hmem]⟩

theorem WriteSys.inv_next_none (h : s.Inv B) (hreq : s.req = none) :
    (s.next B TIMEOUT_LIMIT i).Inv B := by
  simp only [WriteSys.Inv, hreq] at h
  obtain ⟨hh, hst, hret, -, -⟩ := h
  rw [WriteSys.next_none hreq hst]
  rcases hstart : i.start with _ | r
  · exact ⟨hh, hst, hret, rfl, rfl⟩
  · simp only [WriteSys.Inv, hst]
    exact ⟨hh, trivial, by simp [hret]⟩

theorem WriteSys.inv_next_idle (h : s.Inv B) (hreq : s.req = some r) (hst : s.eng.wrState = .WR_IDLE) :
    (s.next B TIMEOUT_LIMIT i).Inv B := by
  simp only [WriteSys.Inv, hreq, hst] at h
  obtain ⟨hh, hserved, h⟩ := h
  rw [WriteSys.next_idle hreq hst hserved]
  simp only [WriteSys.Inv, hreq]
  refine ⟨hh, hserved, trivial, trivial, ?_⟩
  cases hret : s.eng.wrRetrying with
  | true =>
    simp only [hret, if_true] at h
    exact ⟨⟨rfl, rfl, h.first⟩, h.sent, by simp [h.pos, h.next], rfl, h.ahead,
      h.written.congr rfl rfl⟩
  | false =>
    simp only [hret, Bool.false_eq_true, if_false] at h
    obtain ⟨hpos, hnext, hm⟩ := h
    exact ⟨⟨rfl, rfl, by simp [hpos]⟩, count_pos r, by simp [hpos, hnext], rfl, rfl,
      0, Nat.le_refl 0, Nat.zero_le _, by simp [hm]⟩

theorem WriteSys.inv_next_addr (h0 : 0 < B) (hB : B = 1 → r.count = 1) (h : s.Inv B)
    (hreq : s.req = some r) (hst : s.eng.wrState = .WR_ADDR) : (s.next B TIMEOUT_LIMIT i).Inv B := by
  simp only [WriteSys.Inv, hreq, hst] at h
  obtain ⟨hh, hserved, hret, hbeat, h⟩ := h
  cases ht : s.eng.wrTimeout TIMEOUT_LIMIT with
  | true =>
    -- No data goes out in the address phase, so the memory is as it was.
    rw [WriteSys.next_timeout hreq ht (.inl hst)]
    have hmem : (s.next B TIMEOUT_LIMIT i).mem = s.mem := by
      simp only [WriteSys.next, WriteSys.beat, WrRegs.mAxiWvalid, hst]
      split <;> rfl
    simp only [WriteSys.Inv, hreq, if_true]
    exact ⟨h.ahead, hserved, ⟨⟨h.addr, h.lines, h.first⟩, h.sent, by simp [h.pos, h.next], rfl, h.ahead,
      h.written.congr hmem rfl⟩⟩
  | false =>
    rw [WriteSys.next_addr hreq ht hst]
    simp only [WriteSys.Inv, hreq]
    refine ⟨hh, ?_⟩
    cases ha : i.mAxiAwready with
    | false =>
      exact ⟨hserved, hret, hbeat, ⟨⟨h.addr, h.lines, h.first⟩, h.sent, by simp [h.pos, h.next], rfl,
        h.ahead, h.written.congr rfl rfl⟩⟩
    | true =>
      -- The address accepted is that of the first line not sent, which the beats continue.
      refine ⟨hserved, hret, ⟨⟨h.addr, h.lines, h.first⟩, h.sent, ?_, ?_, ?_, by simp,
        by simp [h.pos, h.next, h.ahead], by simp [hbeat], ?_⟩⟩
      · simp [hbeat]
        omega
      · simp [WrRegs.mAxiAwaddr, WrRegs.wrBase, setWidth_shiftLeft_four, h.addr, WReq.base, hbeat]
      · simp [h.ahead, hbeat]
        omega
      · obtain ⟨e, hle, hub, hmem⟩ := h.written
        exact ⟨e, by simpa [hbeat] using hle, hub, hmem⟩

/-- Where the next line has not been asked for, the requester presents the line to be
    sent. -/
theorem WriteSys.Sending.pos_eq (h : s.Sending B r) (ha : s.eng.wrFifoAhead = false) :
    s.eng.wrNext = false ∧ s.pos = s.eng.wrSent.toNat := by
  have hn : s.eng.wrNext = false := by
    by_contra hc
    rw [h.next (by simpa using hc)] at ha
    exact absurd ha (by decide)
  exact ⟨hn, by simpa [ha, hn] using h.pos⟩

theorem WriteSys.Sending.ahead_of_beat_zero (hB : B = 1 → r.count = 1) (h : s.Sending B r)
    (hb : s.eng.wrBeat = 0) :
    s.eng.wrFifoAhead = false := by
  by_contra hc
  obtain ⟨hone, hlt⟩ := h.ahead.1 (by simpa using hc)
  rw [hb, show (0 : BitVec 8).toNat = 0 from rfl] at hone
  have hsingle := hB hone.symm
  omega

/-- The beat offered is the next one of the line to be sent. -/
theorem WriteSys.Sending.mAxiWdata_eq (hB : B = 1 → r.count = 1) (h : s.Sending B r)
    (hreq : s.req = some r) (hh : s.eng.wrResumeHold = false) :
    s.eng.mAxiWdata B (s.engIn i) =
      linePart (16 / B) (r.line s.eng.wrSent.toNat) s.eng.wrBeat.toNat := by
  rw [WrRegs.mAxiWdata, hh, if_neg Bool.false_ne_true]
  by_cases h1 : s.eng.wrLinesS = 1
  · -- A single line is sent from the copy taken at the start.
    have hs : s.eng.wrSent.toNat = 0 := by
      have := h.sent
      rw [← h.lines, h1] at this
      exact Nat.lt_one_iff.1 this
    rw [if_pos h1, h.first, hs]
  · by_cases hb : s.eng.wrBeat = 0
    · have hpos := (h.pos_eq (h.ahead_of_beat_zero hB hb)).2
      rw [if_neg h1, if_pos hb, ← hpos, WriteSys.engIn, hreq]
      rfl
    · rw [if_neg h1, if_neg hb, h.hold hb]

/-- Accepting the beat offered puts it in its place. -/
theorem WriteSys.Sending.written_take (hB : B = 1 → r.count = 1) (hdvd : B * (16 / B) = 16)
    (h : s.Sending B r) (hreq : s.req = some r) (hh : s.eng.wrResumeHold = false) :
    ∃ e, 16 * s.eng.wrSent.toNat + s.eng.wrBeat.toNat * (16 / B) + 16 / B ≤ e ∧ e ≤ 16 * r.count ∧
      s.mem.storePart (r.base +
          BitVec.ofNat 32 (16 * s.eng.wrSent.toNat + s.eng.wrBeat.toNat * (16 / B)))
        (s.eng.mAxiWdata B (s.engIn i)) = s.mem0.image r.base r.line e := by
  obtain ⟨e, hle, hub, hmem⟩ := h.written
  have hend : s.eng.wrBeat.toNat * (16 / B) + 16 / B ≤ 16 := by
    have := Nat.mul_le_mul_right (16 / B) h.beat
    rw [hdvd, Nat.succ_mul] at this
    exact this
  have hcnt := count_le r
  have hsent := h.sent
  refine ⟨max e (16 * s.eng.wrSent.toNat + s.eng.wrBeat.toNat * (16 / B) + 16 / B), by omega,
    by omega, ?_⟩
  rw [hmem, Mem.storePart_image _ _ _ _ hle (by omega)]
  intro j hj
  rw [h.mAxiWdata_eq hB hreq hh, extractLsb'_linePart _ hj (by omega)]
  congr 2 <;> omega

/-- The line kept is the one being sent. -/
theorem WriteSys.Sending.hold_eq (hB : B = 1 → r.count = 1) (h : s.Sending B r)
    (hh : s.eng.wrResumeHold = false) :
    (if s.eng.wrBeat = 0 && !s.eng.wrResumeHold then r.line s.pos else s.eng.wlineHold) =
      r.line s.eng.wrSent.toNat := by
  by_cases hb : s.eng.wrBeat = 0
  · rw [(h.pos_eq (h.ahead_of_beat_zero hB hb)).2]
    simp [hb, hh]
  · rw [h.hold hb]
    split <;> simp_all

/-- The next line is asked for exactly when it is one beat away. -/
theorem WriteSys.Sending.early_iff (h : s.Sending B r) :
    s.eng.wrSent + 1 < s.eng.wrLinesS ↔ s.eng.wrSent.toNat + 1 < r.count := by
  have hs := h.sent
  have hc := count_le r
  rw [BitVec.lt_def, h.lines, BitVec.toNat_add, show (1 : BitVec 8).toNat = 1 from rfl,
    Nat.mod_eq_of_lt (by omega)]

theorem WriteSys.Sending.toNat_wrSent_add (h : s.Sending B r) :
    (s.eng.wrSent + 1).toNat = s.eng.wrSent.toNat + 1 := by
  have hs := h.sent
  have hc := count_le r
  rw [BitVec.toNat_add, show (1 : BitVec 8).toNat = 1 from rfl, Nat.mod_eq_of_lt (by omega)]

theorem WriteSys.Sending.mAxiWlast_iff (h : s.Sending B r) :
    s.eng.mAxiWlast B = true ↔ s.eng.wrBeat.toNat + 1 = B ∧ s.eng.wrSent.toNat + 1 = r.count := by
  have hs := h.sent
  have hc := count_le r
  have hl : (s.eng.wrLinesS - 1).toNat = r.count - 1 := by
    rw [BitVec.toNat_sub, h.lines, show (1 : BitVec 8).toNat = 1 from rfl]
    omega
  rw [WrRegs.mAxiWlast, Bool.and_eq_true, beq_iff_eq, beq_iff_eq, ← BitVec.toNat_inj, hl]
  omega

/-- A beat of a line is accepted, and is not the last one of it. -/
theorem WriteSys.inv_take_beat (hB : B = 1 → r.count = 1) (hdvd : B * (16 / B) = 16) (h : s.Sending B r)
    (hreq : s.req = some r) (ht : s.eng.wrTimeout TIMEOUT_LIMIT = false)
    (hst : s.eng.wrState = .WR_DATA) (hw : i.mAxiWready = true) (hh : s.eng.wrResumeHold = false)
    (hserved : s.eng.wrServed = false) (hret : s.eng.wrRetrying = false)
    (hend : s.eng.wrBeat.toNat + 1 ≠ B) : (s.next B TIMEOUT_LIMIT i).Inv B := by
  have hbeat := h.beat
  have hB16 : B ≤ 16 := Nat.le_of_dvd (by decide) ⟨_, hdvd.symm⟩
  -- Neither the last flag nor a line end can be up within a line.
  have hwl : s.eng.mAxiWlast B = false := by
    by_contra hc
    exact hend (h.mAxiWlast_iff.1 (by simpa using hc)).1
  have ha : s.eng.wrFifoAhead = false := by
    by_contra hc
    exact hend (h.ahead.1 (by simpa using hc)).1
  obtain ⟨hn, hpos⟩ := h.pos_eq ha
  have hb1 : (s.eng.wrBeat + 1).toNat = s.eng.wrBeat.toNat + 1 := by
    rw [BitVec.toNat_add, show (1 : BitVec 8).toNat = 1 from rfl, Nat.mod_eq_of_lt (by omega)]
  have hmul : (s.eng.wrBeat.toNat + 1) * (16 / B) = s.eng.wrBeat.toNat * (16 / B) + 16 / B :=
    Nat.succ_mul _ _
  obtain ⟨e, hle, hub, hmem⟩ := h.written_take (i := i) hB hdvd hreq hh
  -- One beat before the line end the next line is asked for, if there is one.
  let early : Bool := s.eng.wrBeat.toNat + 2 == B && s.eng.wrSent + 1 < s.eng.wrLinesS
  have hearly : early = true ↔ s.eng.wrBeat.toNat + 2 = B ∧ s.eng.wrSent.toNat + 1 < r.count := by
    simp only [early, Bool.and_eq_true, beq_iff_eq, decide_eq_true_eq, h.early_iff]
  have hs' : s.next B TIMEOUT_LIMIT i =
      { s with
        eng := { s.eng with
          wrBeat := s.eng.wrBeat + 1, wlineHold := r.line s.eng.wrSent.toNat, wrNext := early
          wrFifoAhead := early, wrTmo := 0 }
        mem := s.mem0.image r.base r.line e
        txn := some (r.base + BitVec.ofNat 32 (16 * s.eng.wrSent.toNat +
          s.eng.wrBeat.toNat * (16 / B)) + BitVec.ofNat 32 (16 / B))
        pos := s.pos } := by
    rw [WriteSys.next_take hreq ht hst hw h.txn, h.hold_eq hB hh, hmem]
    rw [ha]
    cases he : early <;> simp_all [early]
  rw [hs']
  simp only [WriteSys.Inv, hreq, hst]
  refine ⟨hh, hserved, hret, ⟨⟨h.addr, h.lines, h.first⟩, h.sent, ?_, ?_, ?_, fun hx => hx, ?_,
    fun _ => rfl, e, ?_, hub, rfl⟩⟩
  · dsimp only
    omega
  · dsimp only
    rw [hb1, hmul, BitVec.add_assoc, ← BitVec.ofNat_add, Nat.add_assoc]
  · dsimp only
    rw [hearly, hb1]
  · dsimp only
    rw [hpos]
  · dsimp only
    rw [hb1, hmul, ← Nat.add_assoc]
    exact hle

/-- The last beat of a line is accepted: the requester has moved on to the next one. -/
theorem WriteSys.inv_take_line (h0 : 0 < B) (hB : B = 1 → r.count = 1) (hdvd : B * (16 / B) = 16)
    (h : s.Sending B r) (hreq : s.req = some r) (ht : s.eng.wrTimeout TIMEOUT_LIMIT = false)
    (hst : s.eng.wrState = .WR_DATA) (hw : i.mAxiWready = true) (hh : s.eng.wrResumeHold = false)
    (hserved : s.eng.wrServed = false) (hret : s.eng.wrRetrying = false)
    (hend : s.eng.wrBeat.toNat + 1 = B) (hlast : s.eng.wrSent.toNat + 1 ≠ r.count) :
    (s.next B TIMEOUT_LIMIT i).Inv B := by
  have hsent := h.sent
  have hbytes : s.eng.wrBeat.toNat * (16 / B) + 16 / B = 16 := by
    rw [← Nat.succ_mul, Nat.succ_eq_add_one, hend, hdvd]
  have hwl : s.eng.mAxiWlast B = false := by
    by_contra hc
    exact hlast (h.mAxiWlast_iff.1 (by simpa using hc)).2
  -- The next line was asked for a beat ago, so the requester presents it from now on.
  have ha : s.eng.wrFifoAhead = true := h.ahead.2 ⟨hend, by omega⟩
  have hpos := h.pos
  rw [ha, Bool.toNat_true] at hpos
  have hs1 := h.toNat_wrSent_add
  have hne : (s.eng.wrBeat.toNat + 2 == B) = false := by rw [beq_eq_false_iff_ne]; omega
  obtain ⟨e, hle, hub, hmem⟩ := h.written_take (i := i) hB hdvd hreq hh
  have hs' : s.next B TIMEOUT_LIMIT i =
      { s with
        eng := { s.eng with
          wrBeat := 0, wrSent := s.eng.wrSent + 1, wlineHold := r.line s.eng.wrSent.toNat
          wrNext := false, wrFifoAhead := false, wrTmo := 0 }
        mem := s.mem0.image r.base r.line e
        txn := some (r.base + BitVec.ofNat 32 (16 * s.eng.wrSent.toNat +
          s.eng.wrBeat.toNat * (16 / B)) + BitVec.ofNat 32 (16 / B))
        pos := s.pos + s.eng.wrNext.toNat } := by
    rw [WriteSys.next_take hreq ht hst hw h.txn, h.hold_eq hB hh, hmem]
    simp [hwl, hend, hst, hh, hne]
  rw [hs']
  simp only [WriteSys.Inv, hreq, hst]
  refine ⟨hh, hserved, hret, ⟨⟨h.addr, h.lines, h.first⟩, ?_, ?_, ?_, ?_, by simp, ?_,
    by simp, e, ?_, hub, rfl⟩⟩
  · dsimp only
    omega
  · exact h0
  · dsimp only
    rw [hs1, BitVec.add_assoc, ← BitVec.ofNat_add, show (0 : BitVec 8).toNat = 0 from rfl]
    congr 3
    omega
  · dsimp only
    rw [show (0 : BitVec 8).toNat = 0 from rfl]
    constructor
    · exact fun hc => absurd hc (by decide)
    · omega
  · dsimp only
    rw [hs1]
    exact hpos
  · dsimp only
    rw [hs1, show (0 : BitVec 8).toNat = 0 from rfl]
    omega

/-- The last beat of the last line is accepted. -/
theorem WriteSys.inv_take_last (hB : B = 1 → r.count = 1) (hdvd : B * (16 / B) = 16) (h : s.Sending B r)
    (hreq : s.req = some r) (ht : s.eng.wrTimeout TIMEOUT_LIMIT = false)
    (hst : s.eng.wrState = .WR_DATA) (hw : i.mAxiWready = true) (hh : s.eng.wrResumeHold = false)
    (hret : s.eng.wrRetrying = false) (hend : s.eng.wrBeat.toNat + 1 = B)
    (hlast : s.eng.wrSent.toNat + 1 = r.count) : (s.next B TIMEOUT_LIMIT i).Inv B := by
  have hbytes : s.eng.wrBeat.toNat * (16 / B) + 16 / B = 16 := by
    rw [← Nat.succ_mul, Nat.succ_eq_add_one, hend, hdvd]
  have hwl : s.eng.mAxiWlast B = true := h.mAxiWlast_iff.2 ⟨hend, hlast⟩
  have ha : s.eng.wrFifoAhead = false := by
    by_contra hc
    have := (h.ahead.1 (by simpa using hc)).2
    omega
  obtain ⟨hn, hpos⟩ := h.pos_eq ha
  have hs1 := h.toNat_wrSent_add
  have hne : (s.eng.wrBeat.toNat + 2 == B) = false := by rw [beq_eq_false_iff_ne]; omega
  obtain ⟨e, hle, hub, hmem⟩ := h.written_take (i := i) hB hdvd hreq hh
  -- The beats sent are all the bytes of the request.
  obtain rfl : e = 16 * r.count := by omega
  have hs' : s.next B TIMEOUT_LIMIT i =
      { s with
        eng := { s.eng with
          wrState := .WR_RESP, wrBeat := 0, wrSent := s.eng.wrSent + 1
          wlineHold := r.line s.eng.wrSent.toNat, wrNext := false, wrFifoAhead := false, wrTmo := 0 }
        mem := s.mem0.image r.base r.line (16 * r.count)
        txn := none
        pos := s.pos } := by
    rw [WriteSys.next_take hreq ht hst hw h.txn, h.hold_eq hB hh, hmem]
    simp [hwl, hend, hh, hne, hn]
  rw [hs']
  simp only [WriteSys.Inv, hreq]
  exact ⟨hh, hret, ⟨⟨h.addr, h.lines, h.first⟩,
    hs1.trans hlast, by rw [hpos, hlast], rfl, rfl, rfl⟩⟩

theorem WriteSys.inv_next_data (h0 : 0 < B) (hB : B = 1 → r.count = 1) (hdvd : B * (16 / B) = 16)
    (h : s.Inv B) (hreq : s.req = some r) (hst : s.eng.wrState = .WR_DATA)
    (hcond : s.eng.wrTimeout TIMEOUT_LIMIT = true → s.eng.wrFifoAhead = false) :
    (s.next B TIMEOUT_LIMIT i).Inv B := by
  simp only [WriteSys.Inv, hreq, hst] at h
  obtain ⟨hh, hserved, hret, h⟩ := h
  cases ht : s.eng.wrTimeout TIMEOUT_LIMIT with
  | true =>
    -- The memory may have accepted a beat that is sent again.
    have ha := hcond ht
    obtain ⟨hn, hpos⟩ := h.pos_eq ha
    rw [WriteSys.next_timeout hreq ht (.inr hst)]
    simp only [WriteSys.Inv, hreq, if_true]
    refine ⟨ha, hserved, ⟨⟨h.addr, h.lines, h.first⟩, h.sent, by simp [hpos, hn], rfl, ha, ?_⟩⟩
    cases hb : s.beat i with
    | true =>
      obtain ⟨e, hle, hub, hmem⟩ := h.written_take (i := i) hB hdvd hreq hh
      refine ⟨e, Nat.le_trans (Nat.le_add_right _ _) (Nat.le_trans (Nat.le_add_right _ _) hle), hub, ?_⟩
      simpa [WriteSys.next, h.txn, hb] using hmem
    | false =>
      obtain ⟨e, hle, hub, hmem⟩ := h.written
      refine ⟨e, Nat.le_trans (Nat.le_add_right _ _) hle, hub, ?_⟩
      simpa [WriteSys.next, h.txn, hb] using hmem
  | false =>
    cases hw : i.mAxiWready with
    | false =>
      rw [WriteSys.next_wait hreq ht hst hw, h.hold_eq hB hh]
      simp only [WriteSys.Inv, hreq, hst]
      refine ⟨hh, hserved, hret, ⟨⟨h.addr, h.lines, h.first⟩, h.sent, h.beat, h.txn, h.ahead, by simp,
        by simpa using h.pos, fun _ => rfl, h.written.congr rfl rfl⟩⟩
    | true =>
      by_cases hend : s.eng.wrBeat.toNat + 1 = B
      · by_cases hlast : s.eng.wrSent.toNat + 1 = r.count
        · exact WriteSys.inv_take_last hB hdvd h hreq ht hst hw hh hret hend hlast
        · exact WriteSys.inv_take_line h0 hB hdvd h hreq ht hst hw hh hserved hret hend hlast
      · exact WriteSys.inv_take_beat hB hdvd h hreq ht hst hw hh hserved hret hend

theorem WriteSys.inv_next_resp (h : s.Inv B) (hreq : s.req = some r) (hst : s.eng.wrState = .WR_RESP) :
    (s.next B TIMEOUT_LIMIT i).Inv B := by
  simp only [WriteSys.Inv, hreq, hst] at h
  obtain ⟨hh, hret, h⟩ := h
  cases ht : s.eng.wrTimeout TIMEOUT_LIMIT with
  | true =>
    have hsent : s.eng.wrLinesS ≤ s.eng.wrSent := by rw [BitVec.le_def, h.lines, h.sent]
    rw [WriteSys.next_lost hreq ht hst hsent]
    simp only [WriteSys.Inv, hreq]
    exact ⟨hh, hret, ⟨⟨h.addr, h.lines, h.first⟩, h.sent, by simpa [h.next] using h.pos, rfl, h.ahead,
      h.written⟩⟩
  | false =>
    rw [WriteSys.next_resp hreq ht hst]
    simp only [WriteSys.Inv, hreq]
    have hpos : s.pos + s.eng.wrNext.toNat + 1 = r.count := by simpa [h.next] using h.pos
    refine ⟨hh, ?_⟩
    cases i.mAxiBvalid with
    | true => exact ⟨hret, ⟨⟨h.addr, h.lines, h.first⟩, h.sent, hpos, rfl, h.ahead, h.written⟩⟩
    | false => exact ⟨hret, ⟨⟨h.addr, h.lines, h.first⟩, h.sent, hpos, rfl, h.ahead, h.written⟩⟩

theorem WriteSys.inv_next_done (h : s.Inv B) (hreq : s.req = some r) (hst : s.eng.wrState = .WR_DONE) :
    (s.next B TIMEOUT_LIMIT i).Inv B := by
  simp only [WriteSys.Inv, hreq, hst] at h
  obtain ⟨hh, hret, -⟩ := h
  rw [WriteSys.next_done hreq hst]
  exact ⟨hh, rfl, hret, rfl, rfl⟩

/-- An edge keeps the invariant, unless it abandons a line whose successor has been
    asked for, or a line is sent in one beat and another one follows. -/
theorem WriteSys.inv_next_of_asked (h0 : 0 < B) (hdvd : B * (16 / B) = 16)
    (hB : ∀ r, s.req = some r → B = 1 → r.count = 1) (h : s.Inv B)
    (hcond : s.eng.wrTimeout TIMEOUT_LIMIT = true → s.eng.wrFifoAhead = false) :
    (s.next B TIMEOUT_LIMIT i).Inv B := by
  rcases hreq : s.req with _ | r
  · exact WriteSys.inv_next_none h hreq
  · cases hst : s.eng.wrState with
    | WR_IDLE => exact WriteSys.inv_next_idle h hreq hst
    | WR_ADDR => exact WriteSys.inv_next_addr h0 (hB r hreq) h hreq hst
    | WR_DATA => exact WriteSys.inv_next_data h0 (hB r hreq) hdvd h hreq hst hcond
    | WR_RESP => exact WriteSys.inv_next_resp h hreq hst
    | WR_DONE => exact WriteSys.inv_next_done h hreq hst

/-- Where a line takes several beats, the next one is asked for in time. -/
theorem WriteSys.inv_next (hB : 2 ≤ B) (hdvd : B * (16 / B) = 16) (h : s.Inv B)
    (hcond : s.eng.wrTimeout TIMEOUT_LIMIT = true → s.eng.wrFifoAhead = false) :
    (s.next B TIMEOUT_LIMIT i).Inv B :=
  WriteSys.inv_next_of_asked (Nat.zero_lt_of_lt hB) hdvd (fun _ _ h1 => absurd hB (by omega)) h hcond

theorem WriteSys.inv_of_isReset (h : s.IsReset) : s.Inv B := by
  obtain ⟨⟨hst, -, -, -, -, -, -, hn, hret, -, hh, -, -, -⟩, -, hreq, hpos⟩ := h
  simp only [WriteSys.Inv, hreq]
  exact ⟨hh, hst, hret, hn, hpos⟩

/-! ## What is written -/

/-- Nothing is written but by a beat. -/
theorem WriteSys.mem_next_of_rest (hst : s.eng.wrState ≠ .WR_DATA) :
    (s.next B TIMEOUT_LIMIT i).mem = s.mem := by
  have hb : s.beat i = false := by simp [WriteSys.beat, WrRegs.mAxiWvalid, hst]
  cases htx : s.txn <;> simp [WriteSys.next, hb, htx]

/-- A request writes its own lines only. -/
theorem WriteSys.Inv.mem_next_outside (hdvd : B * (16 / B) = 16) (h : s.Inv B)
    (hreq : s.req = some r) {x : Word}
    (hx : ¬(x - r.base).toNat < 16 * r.count) : (s.next B TIMEOUT_LIMIT i).mem x = s.mem x := by
  by_cases hst : s.eng.wrState = .WR_DATA
  · rw [WriteSys.Inv, hreq] at h
    simp only [hst] at h
    obtain ⟨-, -, -, hsend⟩ := h
    have hbeat : s.eng.wrBeat.toNat * (16 / B) + 16 / B ≤ 16 := by
      rw [← Nat.succ_mul]
      exact (Nat.mul_le_mul_right _ hsend.beat).trans_eq hdvd
    have hsent := hsend.sent
    have hcount := count_le r
    simp only [WriteSys.next, hsend.txn]
    split_ifs
    · exact Mem.storePart_of_outside _ _ _ (by omega) (by omega) hx
    · rfl
  · rw [WriteSys.mem_next_of_rest hst]

/-! ## Every request is served -/

/-- A line is asked for only while one is left, and is within the request. -/
theorem WriteSys.Inv.pos_lt (h : s.Inv B) (hreq : s.req = some r) :
    s.pos + s.eng.wrNext.toNat < r.count := by
  have hcount := count_pos r
  simp only [WriteSys.Inv, hreq] at h
  obtain ⟨-, h⟩ := h
  cases hst : s.eng.wrState with
  | WR_IDLE =>
    simp only [hst] at h
    obtain ⟨-, h⟩ := h
    split at h
    next => simpa [h.next, h.pos] using h.sent
    next => simpa [h.1, h.2.1] using hcount
  | WR_ADDR =>
    simp only [hst] at h
    obtain ⟨-, -, -, h⟩ := h
    simpa [h.next, h.pos] using h.sent
  | WR_DATA =>
    simp only [hst] at h
    obtain ⟨-, -, h⟩ := h
    rw [h.pos]
    cases ha : s.eng.wrFifoAhead with
    | false => exact h.sent
    | true => exact (h.ahead.1 ha).2
  | WR_RESP =>
    simp only [hst] at h
    simpa [h.2.next] using Nat.lt_of_succ_le (Nat.le_of_eq h.2.pos)
  | WR_DONE =>
    simp only [hst] at h
    simpa [h.2.next] using Nat.lt_of_succ_le (Nat.le_of_eq h.2.pos)

/-- The address offered first is that of the burst of all the lines. -/
theorem WriteSys.Inv.burst_eq (hB : 0 < B) (hlen : B * r.count ≤ 256) (h : s.Inv B)
    (hreq : s.req = some r) (hst : s.eng.wrState = .WR_ADDR) (hsent : s.eng.wrSent = 0) :
    s.eng.mAxiAwaddr = r.base ∧ (s.eng.mAxiAwlen B).toNat + 1 = B * r.count := by
  simp only [WriteSys.Inv, hreq, hst] at h
  obtain ⟨-, -, -, -, h⟩ := h
  have hpos := count_pos r
  have hrem : s.eng.wrRemaining.toNat = r.count := by
    rw [WrRegs.wrRemaining, hsent, if_pos (by rw [BitVec.lt_def, h.lines]; exact hpos)]
    simpa using h.lines
  exact ⟨by simp [WrRegs.mAxiAwaddr, WrRegs.wrBase, hsent, h.addr, WReq.base],
    toNat_burstLen hrem hB hpos hlen⟩

/-- The number of the beat to be sent next. -/
def WriteSys.beatNo (B : ℕ) (s : WriteSys) : ℕ := B * s.eng.wrSent.toNat + s.eng.wrBeat.toNat

/-- What is left of a request: the beats, and the cycles until the next timeout. -/
def WriteSys.rank (B : ℕ) (s : WriteSys) : ℕ :=
  (match s.eng.wrState with
    | .WR_IDLE => B * 256 + 4
    | .WR_ADDR => B * 256 + 3
    | .WR_DATA => B * 256 + 2 - s.beatNo B
    | .WR_RESP => 1
    | .WR_DONE => 0) * 2 ^ 16 + (2 ^ 16 - 1 - s.eng.wrTmo.toNat)

/-- The timeout counter counts up to the timeout. -/
theorem WrRegs.toNat_wrTmo_succ {e : WrRegs} (ht : e.wrTimeout TIMEOUT_LIMIT = false)
    (he : e.wrEligible = true) : (e.wrTmo + 1).toNat = e.wrTmo.toNat + 1 ∧
    e.wrTmo.toNat + 1 < 2 ^ 16 := by
  rw [WrRegs.wrTimeout, he, Bool.true_and, decide_eq_false_iff_not, BitVec.not_le] at ht
  have hlt : e.wrTmo.toNat + 1 < 2 ^ 16 := Nat.lt_of_le_of_lt ht TIMEOUT_LIMIT.isLt
  exact ⟨BitVec.toNat_add_of_lt hlt, hlt⟩

theorem WriteSys.Sending.beatNo_lt (h : s.Sending B r) : s.beatNo B < B * 256 := by
  calc s.beatNo B < B * s.eng.wrSent.toNat + B := Nat.add_lt_add_left h.beat _
    _ = B * (s.eng.wrSent.toNat + 1) := (Nat.mul_succ _ _).symm
    _ ≤ B * 256 := Nat.mul_le_mul_left _ (Nat.le_trans h.sent (Nat.le_succ_of_le (count_le r)))

/-- A beat that is not the last one moves the count of the beats. -/
theorem WriteSys.Sending.beatNo_next (hB : B ≤ 16) (h : s.Sending B r) (hreq : s.req = some r)
    (ht : s.eng.wrTimeout TIMEOUT_LIMIT = false) (hst : s.eng.wrState = .WR_DATA)
    (hw : i.mAxiWready = true) : (s.next B TIMEOUT_LIMIT i).beatNo B = s.beatNo B + 1 := by
  have hbeat := h.beat
  rw [WriteSys.next_take hreq ht hst hw h.txn]
  by_cases hend : s.eng.wrBeat.toNat + 1 = B
  · simp only [WriteSys.beatNo, hend, if_true, h.toNat_wrSent_add, Nat.mul_succ,
      show (0 : BitVec 8).toNat = 0 from rfl]
    omega
  · have hb1 : (s.eng.wrBeat + 1).toNat = s.eng.wrBeat.toNat + 1 := BitVec.toNat_add_of_lt (by
      rw [show (1 : BitVec 8).toNat = 1 from rfl]
      omega)
    simp only [WriteSys.beatNo, hend, if_false, hb1]
    omega

/-- A transaction that is not abandoned makes progress. -/
theorem WriteSys.rank_next (hB : B ≤ 16) (h : s.Inv B) (hreq : s.req = some r)
    (ht : s.eng.wrTimeout TIMEOUT_LIMIT = false) (hc : s.eng.wrReady = false) :
    (s.next B TIMEOUT_LIMIT i).rank B < s.rank B := by
  simp only [WriteSys.Inv, hreq] at h
  obtain ⟨-, h⟩ := h
  cases hst : s.eng.wrState with
  | WR_IDLE =>
    simp only [hst] at h
    rw [WriteSys.next_idle hreq hst h.1]
    simp only [WriteSys.rank, hst]
    omega
  | WR_ADDR =>
    -- Waiting for AWREADY spends the watchdog, the handshake enters the data phase.
    have htmo := WrRegs.toNat_wrTmo_succ ht (by simp [WrRegs.wrEligible, hst])
    rw [WriteSys.next_addr hreq ht hst]
    cases i.mAxiAwready with
    | true =>
      simp only [WriteSys.rank, WriteSys.beatNo, hst, if_true]
      omega
    | false =>
      simp only [WriteSys.rank, hst, htmo.1, Bool.false_eq_true, if_false]
      omega
  | WR_DATA =>
    simp only [hst] at h
    obtain ⟨-, -, h⟩ := h
    have htmo := WrRegs.toNat_wrTmo_succ ht (by simp [WrRegs.wrEligible, hst])
    have hlt := h.beatNo_lt
    cases hw : i.mAxiWready with
    | false =>
      rw [WriteSys.next_wait hreq ht hst hw]
      simp only [WriteSys.rank, WriteSys.beatNo, hst, htmo.1] at hlt ⊢
      omega
    | true =>
      have hbeat := h.beatNo_next hB hreq ht hst hw
      have hst' : (s.next B TIMEOUT_LIMIT i).eng.wrState =
          if s.eng.mAxiWlast B then .WR_RESP else .WR_DATA := by
        rw [WriteSys.next_take hreq ht hst hw h.txn]
      -- Every beat accepted counts, and the last one also moves the state on.
      cases hlast : s.eng.mAxiWlast B with
      | true =>
        rw [hlast, if_pos rfl] at hst'
        simp only [WriteSys.rank, hst, hst']
        omega
      | false =>
        rw [hlast, if_neg Bool.false_ne_true] at hst'
        simp only [WriteSys.rank, hst, hst', hbeat]
        omega
  | WR_RESP =>
    have htmo := WrRegs.toNat_wrTmo_succ ht (by simp [WrRegs.wrEligible, hst])
    rw [WriteSys.next_resp hreq ht hst]
    cases i.mAxiBvalid with
    | true =>
      simp only [WriteSys.rank, hst, if_true]
      omega
    | false =>
      simp only [WriteSys.rank, hst, htmo.1, Bool.false_eq_true, if_false]
      omega
  | WR_DONE => simp [WrRegs.wrReady, hst] at hc

/-! ## Every line in its place -/

/-- The write channel under every pattern of stalls. -/
def writing (B : ℕ) (TIMEOUT_LIMIT : BitVec 16) : Circuit WriteSys WriteInputs where
  init := {s | s.IsReset}
  admits _ _ := True
  next s i := s.next B TIMEOUT_LIMIT i

/-- The write channel when no timeout falls after the next line has been asked for and
    before the current one is sent. -/
def askingOnce (B : ℕ) (TIMEOUT_LIMIT : BitVec 16) : Circuit WriteSys WriteInputs where
  init := {s | s.IsReset}
  admits s _ := s.eng.wrTimeout TIMEOUT_LIMIT = true → s.eng.wrFifoAhead = false
  next s i := s.next B TIMEOUT_LIMIT i

instance (s : WriteSys) (i : WriteInputs) : Decidable ((askingOnce B TIMEOUT_LIMIT).admits s i) :=
  inferInstanceAs (Decidable (_ → _))

/-- When the write is acknowledged, every line of the request is in its place, and one
    line has been asked for after each but the last. -/
def WriteSys.InPlace (s : WriteSys) : Prop :=
  ∃ r, s.req = some r ∧ (∀ k < r.count, s.mem.line (r.base + BitVec.ofNat 32 (16 * k)) = r.line k) ∧
    s.pos = r.count - 1

theorem WriteSys.Inv.inPlace (h : s.Inv B) (hr : s.eng.wrReady = true) : s.InPlace := by
  have hst : s.eng.wrState = .WR_DONE := by simpa [WrRegs.wrReady] using hr
  obtain ⟨hh, h⟩ := h
  rcases hreq : s.req with _ | r
  · simp [hreq, hst] at h
  · simp only [hreq, hst] at h
    obtain ⟨-, h⟩ := h
    have hcnt := count_le r
    refine ⟨r, hreq, fun k hk => ?_, Nat.eq_sub_of_add_eq h.pos⟩
    rw [h.written]
    exact Mem.line_image _ _ _ (by omega) (by omega)

/-- On a bus of 64 bits, a write that is acknowledged left every line in its place,
    whatever was abandoned and resumed, if the requester was asked for each line once. -/
theorem written_of_reachable (h : (askingOnce 2 TIMEOUT_LIMIT).Reachable s)
    (hr : s.eng.wrReady = true) : s.InPlace := by
  have hi : s.Inv 2 := by
    refine h.invariant (P := fun s => s.Inv 2) ?_ ?_
    · exact fun s hs => WriteSys.inv_of_isReset hs
    · exact fun s i hs ha => WriteSys.inv_next (by decide) (by decide) hs ha
  exact hi.inPlace hr

/-! ## A line skipped -/

/-- A channel out of reset, over a memory of zeros. -/
def resetWrite : WriteSys where
  eng := ⟨.WR_IDLE, 0, 0, 0, 1, 0, 0, false, false, false, false, 0, 0, false⟩
  mem _ := 0
  txn := none
  req := none
  pos := 0
  mem0 _ := 0

theorem isReset_resetWrite : resetWrite.IsReset :=
  ⟨⟨rfl, rfl, rfl, rfl, rfl, rfl, rfl, rfl, rfl, rfl, rfl, rfl, rfl, rfl⟩, rfl, rfl, rfl⟩

/-- Two lines are requested, of which the memory accepts the first beat on cycle 3, and no
    beat on the cycles for which `stall` says so. -/
def twoLines (stall : ℕ → Bool) (n : ℕ) : WriteInputs where
  start := if n = 0 then some ⟨0x1000, 2, fun k => BitVec.ofNat 128 (k + 1)⟩ else none
  mAxiAwready := true
  mAxiWready := !stall n
  mAxiBvalid := true

/-- A stall between the two beats of line `0` until the engine times out: the line is
    sent again, and the requester asked once more for the next one, so that line `2`
    takes the place of line `1`. -/
theorem skipped_line : ∃ s, (writing 2 100).Reachable s ∧ s.eng.wrReady = true ∧ ¬s.InPlace := by
  refine ⟨(writing 2 100).trace resetWrite (twoLines fun n => 4 ≤ n && n ≤ 104) 112,
    Circuit.reachable_trace isReset_resetWrite fun _ _ => trivial, by decide +kernel, ?_⟩
  rintro ⟨r, hr, -, hpos⟩
  have hcount : (((writing 2 100).trace resetWrite (twoLines fun n => 4 ≤ n && n ≤ 104) 112).req.map
      WReq.count) = some 2 := by decide +kernel
  rw [hr, Option.map_some, Option.some_inj] at hcount
  rw [hcount] at hpos
  exact absurd hpos (by decide +kernel)

/-- A stall before the first beat of line `1`: it is resumed, and both lines end up in
    their places. -/
theorem resumed_line :
    ((askingOnce 2 100).trace resetWrite (twoLines fun n => 5 ≤ n && n ≤ 105) 111).InPlace :=
  written_of_reachable (Circuit.reachable_trace isReset_resetWrite (by decide +kernel))
    (by decide +kernel)

end AxiRw

end Rv32Soc
