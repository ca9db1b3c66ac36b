import Rv32Soc.Axi.ReadChannel
import Rv32Soc.Lib.Circuit

/-!
# Retries of a read

The read engine of `axi_rw_engine.v` against a memory that may stall for as long as it
likes, on any cycle: a transaction that makes no progress for `TIMEOUT_LIMIT` cycles is
abandoned, the memory forgets it, and the engine asks again for what is left. The
requester holds its request until it has all the lines, and may go on holding it after
that.

* `RetrySys.Phase`: where a request stands; the lines delivered are counted alike by the
  engine and by the requester, whatever has been abandoned;
* `RetrySys.Phase.next`: an edge, with or without a timeout;
* `readRetry_of_isRun`: a request gets each of its lines once, in order, and no
  transaction is started for it afterwards.
-/

namespace Rv32Soc

namespace AxiRw

/-- The address of the line number `k` of the request. -/
def RReq.lineAddr (r : RReq) (k : ℕ) : Word := r.base + BitVec.ofNat 32 (16 * k)

/-- The first `n` lines of the request, in the memory `m`. -/
def RReq.linesOf (r : RReq) (m : Mem) (n : ℕ) : List Line :=
  (List.range n).map fun k => m.line (r.lineAddr k)

/-- The engine, the transaction the memory serves (the address of its next beat, and the beats left), and
    the requester: its request, what the memory held when it was made, and the lines got for it. -/
@[ext] structure RetrySys (B : ℕ) where
  eng : RdRegs
  txn : Option (Word × ℕ)
  req : Option RReq
  mem : Mem
  got : List Line

/-- What the requester, when it has no request or all of its lines, and the memory do on a cycle. -/
structure RetryInputs where
  start : Option RReq
  withdraw : Bool
  mAxiArready : Bool
  mAxiRvalid : Bool
  mem : Mem

namespace RetrySys

variable {B : ℕ} (TIMEOUT_LIMIT : BitVec 16) (s : RetrySys B) (i : RetryInputs)

/-- The ports of the engine. -/
def engIn : RdInputs B where
  rdReqValid := s.req.isSome
  rdReqAddr := (s.req.map RReq.addr).getD 0
  rdReqLines := (s.req.map RReq.lines).getD 1
  mAxiArready := i.mAxiArready
  mAxiRdata := (s.txn.map fun t => i.mem.part (16 / B) t.1).getD 0
  mAxiRvalid := i.mAxiRvalid && s.txn.isSome
  mAxiRlast := (s.txn.map fun t => t.2 == 1).getD false

/-- The lines got, with the one that `rd_ready` announces on this cycle. -/
def lines : List Line := if s.eng.rdReady then s.got ++ [s.eng.rdRline] else s.got

/-- The requester has what it asked for. -/
def complete : Bool := s.req.any fun r => r.count ≤ s.lines.length

/-- The request is withdrawn. -/
def leaves : Bool := s.complete && i.withdraw

def next : RetrySys B where
  eng := s.eng.next TIMEOUT_LIMIT (s.engIn i)
  txn :=
    if s.eng.rdTimeout TIMEOUT_LIMIT then none
    else if s.eng.mAxiArvalid && i.mAxiArready then some (s.eng.mAxiAraddr,
        (s.eng.mAxiArlen B).toNat + 1)
    else if s.eng.mAxiRready && (i.mAxiRvalid && s.txn.isSome) then
      s.txn.bind fun t => if t.2 = 1 then none else some (t.1 + BitVec.ofNat 32 (16 / B), t.2 - 1)
    else s.txn
  req := if s.req.isSome then if s.leaves i then none else s.req else i.start
  mem := if s.req.isSome then s.mem else i.mem
  got := if s.req.isSome && !s.leaves i then s.lines else []

def IsReset : Prop := s.eng.IsReset ∧ s.txn = none ∧ s.req = none ∧ s.got = []

end RetrySys

/-- The engine, a requester and a memory that may stall. A burst fits into one transaction, and nobody
    writes to the lines of a request while it is held. -/
def retry (B : ℕ) (TIMEOUT_LIMIT : BitVec 16) : Circuit (RetrySys B) RetryInputs where
  init := {s | s.IsReset}
  admits s i := (∀ r ∈ i.start, B * r.count ≤ 256) ∧
    ∀ r ∈ s.req, ∀ k < r.count, i.mem.line (r.lineAddr k) = s.mem.line (r.lineAddr k)
  next s i := s.next TIMEOUT_LIMIT i

variable {B : ℕ} {TIMEOUT_LIMIT : BitVec 16} {s : RetrySys B} {i : RetryInputs} {r : RReq}

/-! ## The beats of a line -/

theorem RReq.toNat_base (r : RReq) : r.base.toNat % 16 = 0 := by
  rw [RReq.base, toNat_lineBase]
  omega

/-- The beat number `b` of a line is its part `b`. -/
theorem part_beatAddr (hdvd : B * (16 / B) = 16) (m : Mem) (r : RReq) {k b : ℕ} (hb : b < B) :
    m.part (16 / B) (r.beatAddr B (B * k + b)) = linePart (16 / B) (m.line (r.lineAddr k)) b := by
  have hw : b * (16 / B) + 16 / B ≤ 16 := by
    rw [← Nat.succ_mul]
    exact (Nat.mul_le_mul_right _ hb).trans_eq hdvd
  have hpos : 0 < 16 / B := Nat.pos_of_ne_zero fun h => by simp [h] at hdvd
  have haddr : (r.beatAddr B (B * k + b)).toNat = (r.base.toNat + (16 * k + b * (16 / B))) % 2 ^ 32 := by
    rw [RReq.beatAddr, Nat.add_mul, Nat.mul_right_comm, hdvd, BitVec.toNat_add,
      BitVec.toNat_ofNat, Nat.add_mod_mod]
  have hline : (r.lineAddr k).toNat = (r.base.toNat + 16 * k) % 2 ^ 32 := by
    rw [RReq.lineAddr, BitVec.toNat_add, BitVec.toNat_ofNat, Nat.add_mod_mod]
  have hbase := r.toNat_base
  have hno : lineNo (r.beatAddr B (B * k + b)) = lineNo (r.lineAddr k) := by
    apply BitVec.eq_of_toNat_eq
    rw [lineNo, lineNo, BitVec.extractLsb'_toNat, BitVec.extractLsb'_toNat, Nat.shiftRight_eq_div_pow,
      Nat.shiftRight_eq_div_pow, haddr, hline]
    omega
  have hoff : (r.beatAddr B (B * k + b)).toNat % 16 = b * (16 / B) := by
    rw [haddr]
    omega
  rw [Mem.part, Mem.line_eq_of_lineNo m hno, hoff, Nat.mul_div_cancel b hpos]

/-! ## Where a request stands -/

namespace RetrySys

/-- A line of the request that is held. -/
def line (s : RetrySys B) (r : RReq) (k : ℕ) : Line := s.mem.line (r.lineAddr k)

/-- Beats of what is left of the request are being read. -/
structure Reading (s : RetrySys B) (r : RReq) : Prop where
  served : s.eng.rdServed = false
  retrying : s.eng.rdRetrying = false
  addr : s.eng.rdAddrS = r.addr
  lines : s.eng.rdLinesS.toNat = r.count
  done : s.eng.rdDoneLines.toNat < r.count
  beat : s.eng.rdBeat.toNat < B
  txn : s.txn = some (r.beatAddr B (B * s.eng.rdDoneLines.toNat + s.eng.rdBeat.toNat),
    B * r.count - (B * s.eng.rdDoneLines.toNat + s.eng.rdBeat.toNat))
  part : ∀ b < s.eng.rdBeat.toNat,
    linePart (16 / B) s.eng.rdRline b = linePart (16 / B) (s.line r s.eng.rdDoneLines.toNat) b
  got : s.got.length + s.eng.rdReady.toNat = s.eng.rdDoneLines.toNat
  ready : s.eng.rdReady → s.eng.rdRline = s.line r s.got.length

/-- The phases of a request: new, abandoned, with its address offered, being read, its last line
    announced, and complete. -/
inductive Phase (s : RetrySys B) (r : RReq) : Prop
  | fresh (st : s.eng.rdState = .RD_IDLE) (served : s.eng.rdServed = false)
      (retrying : s.eng.rdRetrying = false)
      (ready : s.eng.rdReady = false) (txn : s.txn = none) (got : s.got = [])
  | again (st : s.eng.rdState = .RD_IDLE) (served : s.eng.rdServed = false) (retrying : s.eng.rdRetrying)
      (ready : s.eng.rdReady = false) (txn : s.txn = none) (done : s.eng.rdDoneLines.toNat < r.count)
      (got : s.got.length = s.eng.rdDoneLines.toNat)
  | offered (st : s.eng.rdState = .RD_ADDR) (served : s.eng.rdServed = false)
      (retrying : s.eng.rdRetrying = false)
      (addr : s.eng.rdAddrS = r.addr) (lines : s.eng.rdLinesS.toNat = r.count) (beat : s.eng.rdBeat = 0)
      (ready : s.eng.rdReady = false) (txn : s.txn = none) (done : s.eng.rdDoneLines.toNat < r.count)
      (got : s.got.length = s.eng.rdDoneLines.toNat)
  | reading (st : s.eng.rdState = .RD_DATA) (reading : s.Reading r)
  | last (st : s.eng.rdState = .RD_DONE) (retrying : s.eng.rdRetrying = false) (ready : s.eng.rdReady)
      (txn : s.txn = none) (got : s.got.length + 1 = r.count)
      (rline : s.eng.rdRline = s.line r s.got.length)
  | held (st : s.eng.rdState = .RD_IDLE) (served : s.eng.rdServed) (retrying : s.eng.rdRetrying = false)
      (ready : s.eng.rdReady = false) (txn : s.txn = none) (got : s.got.length = r.count)

/-- The invariant. -/
structure Inv (s : RetrySys B) : Prop where
  rest : s.req = none → s.eng.rdState = .RD_IDLE ∧ s.eng.rdReady = false ∧ s.eng.rdRetrying = false ∧
    s.txn = none ∧ s.got = []
  active : ∀ r, s.req = some r → B * r.count ≤ 256 ∧ s.got = r.linesOf s.mem s.got.length ∧ s.Phase r

/-! ## One edge -/

/-- Without a request the engine rests. -/
theorem next_none (hreq : s.req = none) (hst : s.eng.rdState = .RD_IDLE) (htx : s.txn = none) :
    s.next TIMEOUT_LIMIT i =
      { s with
        eng := { s.eng with rdReady := false, rdTmo := 0, rdServed := false }
        txn := none, req := i.start, mem := i.mem, got := [] } := by
  simp [next, RdRegs.next, RdRegs.rdTimeout, RdRegs.rdEligible, RdRegs.rdNext,
    RdRegs.rdStart, RdRegs.rdTake,
    RdRegs.rdLineEnd, RdRegs.mAxiArvalid, RdRegs.mAxiRready, engIn, hst, hreq, htx]

/-- A request is taken up, from the first line on or from where it was abandoned. -/
theorem next_idle (hreq : s.req = some r) (hst : s.eng.rdState = .RD_IDLE)
    (hserved : s.eng.rdServed = false)
    (hready : s.eng.rdReady = false) (htx : s.txn = none) (hl : s.leaves i = false) :
    s.next TIMEOUT_LIMIT i =
      { s with
        eng := { s.eng with
          rdState := .RD_ADDR, rdBeat := 0, rdDoneLines :=
            if s.eng.rdRetrying then s.eng.rdDoneLines else 0
          rdAddrS := r.addr, rdLinesS := if r.lines = 0 then 1 else r.lines, rdReady := false, rdTmo := 0
          rdRetrying := false }
        txn := none } := by
  cases hr : s.eng.rdRetrying <;>
    simp [next, lines, RdRegs.next, RdRegs.rdTimeout, RdRegs.rdEligible, RdRegs.rdNext,
      RdRegs.rdStart, RdRegs.rdTake,
      RdRegs.rdLineEnd, RdRegs.mAxiArvalid, RdRegs.mAxiRready, engIn, hst, hreq, htx,
      hserved, hready, hl, hr]

/-- A request that is complete is not taken up again. -/
theorem next_held (hreq : s.req = some r) (hst : s.eng.rdState = .RD_IDLE) (hserved : s.eng.rdServed)
    (hready : s.eng.rdReady = false) (htx : s.txn = none) :
    s.next TIMEOUT_LIMIT i =
      { s with
        eng := { s.eng with rdReady := false, rdTmo := 0 }
        txn := none, req := if s.leaves i then none else s.req, got := if s.leaves i then []
          else s.got } := by
  cases hl : s.leaves i <;>
    simp [next, lines, RdRegs.next, RdRegs.rdTimeout, RdRegs.rdEligible, RdRegs.rdNext,
      RdRegs.rdStart, RdRegs.rdTake,
      RdRegs.rdLineEnd, RdRegs.mAxiArvalid, RdRegs.mAxiRready, engIn, hst, hreq, htx,
      hserved, hready, hl]

/-- The transaction is abandoned. A line that has been read to its end is announced all the same. -/
theorem next_timeout (hreq : s.req = some r) (ht : s.eng.rdTimeout TIMEOUT_LIMIT)
    (hl : s.leaves i = false) :
    s.next TIMEOUT_LIMIT i =
      { s with
        eng := { s.eng with
          rdState := .RD_IDLE, rdBeat := 0, rdTmo := 0, rdRetries := s.eng.rdRetries + 1,
          rdRetrying := true
          rdReady := false }
        txn := none, got := s.lines } := by
  simp [next, RdRegs.next, hreq, ht, hl]

/-- The address is offered. -/
theorem next_addr (hreq : s.req = some r) (hst : s.eng.rdState = .RD_ADDR)
    (ht : s.eng.rdTimeout TIMEOUT_LIMIT = false) (hready : s.eng.rdReady = false) (htx : s.txn = none)
    (hl : s.leaves i = false) :
    s.next TIMEOUT_LIMIT i =
      { s with
        eng := { s.eng with
          rdState := if i.mAxiArready then .RD_DATA else .RD_ADDR, rdReady := false
          rdTmo := if i.mAxiArready then 0 else s.eng.rdTmo + 1 }
        txn := if i.mAxiArready then some (s.eng.mAxiAraddr, (s.eng.mAxiArlen B).toNat + 1)
          else none } := by
  simp [next, lines, RdRegs.next, RdRegs.rdEligible, RdRegs.rdNext, RdRegs.rdStart,
    RdRegs.rdProgress, RdRegs.rdTake,
    RdRegs.rdLineEnd, RdRegs.mAxiArvalid, RdRegs.mAxiRready, engIn, hst, hreq, htx, ht, hready, hl]

/-- The next beat is awaited. -/
theorem next_wait (hreq : s.req = some r) (hst : s.eng.rdState = .RD_DATA)
    (ht : s.eng.rdTimeout TIMEOUT_LIMIT = false) (hv : i.mAxiRvalid = false) (hl : s.leaves i = false) :
    s.next TIMEOUT_LIMIT i =
      { s with
        eng := { s.eng with rdReady := false, rdTmo := s.eng.rdTmo + 1 }
        got := s.lines } := by
  simp [next, RdRegs.next, RdRegs.rdEligible, RdRegs.rdNext, RdRegs.rdStart,
    RdRegs.rdProgress, RdRegs.rdTake,
    RdRegs.rdLineEnd, RdRegs.mAxiArvalid, RdRegs.mAxiRready, engIn, hst, hreq, hv, ht, hl]

/-- A beat is read. -/
theorem next_take (hreq : s.req = some r) (hst : s.eng.rdState = .RD_DATA)
    (ht : s.eng.rdTimeout TIMEOUT_LIMIT = false) (hv : i.mAxiRvalid) (hl : s.leaves i = false)
    {p : Word} {left : ℕ} (htx : s.txn = some (p, left)) :
    s.next TIMEOUT_LIMIT i =
      { s with
        eng := { s.eng with
          rdState := if left = 1 then .RD_DONE else .RD_DATA
          rdBeat := if s.eng.rdBeat.toNat + 1 = B then 0 else s.eng.rdBeat + 1
          rdDoneLines := if s.eng.rdBeat.toNat + 1 = B then s.eng.rdDoneLines + 1 else s.eng.rdDoneLines
          rdRline := setLinePart (16 / B) s.eng.rdRline s.eng.rdBeat.toNat (i.mem.part (16 / B) p)
          rdReady := s.eng.rdBeat.toNat + 1 == B
          rdTmo := 0 }
        txn := if left = 1 then none else some (p + BitVec.ofNat 32 (16 / B), left - 1)
        got := s.lines } := by
  simp [next, RdRegs.next, RdRegs.rdEligible, RdRegs.rdNext, RdRegs.rdStart,
    RdRegs.rdProgress, RdRegs.rdTake,
    RdRegs.rdLineEnd, RdRegs.mAxiArvalid, RdRegs.mAxiRready, engIn, hst, hreq, hv, ht, hl, htx]

/-- The last line is announced. -/
theorem next_done (hreq : s.req = some r) (hst : s.eng.rdState = .RD_DONE) (htx : s.txn = none) :
    s.next TIMEOUT_LIMIT i =
      { s with
        eng :=
          { s.eng with
            rdState := .RD_IDLE
            rdBeat := 0
            rdReady := false
            rdTmo := 0
            rdServed := true }
        txn := none
        req := if s.leaves i then none else s.req
        got := if s.leaves i then [] else s.lines } := by
  cases hl : s.leaves i <;>
    simp [next, RdRegs.next, RdRegs.rdTimeout, RdRegs.rdEligible, RdRegs.rdNext,
      RdRegs.rdStart, RdRegs.rdTake,
      RdRegs.rdLineEnd, RdRegs.mAxiArvalid, RdRegs.mAxiRready, engIn, hst, hreq, hl, htx]

/-! ## The invariant is kept -/

theorem linesOf_succ (r : RReq) (m : Mem) (n : ℕ) :
    r.linesOf m (n + 1) = r.linesOf m n ++ [m.line (r.lineAddr n)] := by
  simp [RReq.linesOf, List.range_succ]

theorem length_lines (s : RetrySys B) : s.lines.length = s.got.length + s.eng.rdReady.toNat := by
  cases h : s.eng.rdReady <;> simp [lines, h]

/-- The lines got are the first ones when the one that is announced is the next one. -/
theorem lines_eq (hgot : s.got = r.linesOf s.mem s.got.length)
    (hr : s.eng.rdReady → s.eng.rdRline = s.line r s.got.length) :
    s.lines = r.linesOf s.mem s.lines.length := by
  rw [length_lines]
  cases h : s.eng.rdReady
  · simpa [lines, h] using hgot
  · rw [lines, if_pos h, hr h, Bool.toNat_true, linesOf_succ, ← hgot]
    rfl

theorem leaves_of_lt (hreq : s.req = some r) (h : s.lines.length < r.count) : s.leaves i = false := by
  simp [leaves, complete, hreq, h]

theorem Inv.of_phase (hreq : s.req = some r) (hlen : B * r.count ≤ 256)
    (hgot : s.got = r.linesOf s.mem s.got.length) (h : s.Phase r) : s.Inv where
  rest hn := absurd (hreq.symm.trans hn) nofun
  active r' hr' := by
    obtain rfl : r = r' := Option.some.inj (hreq.symm.trans hr')
    exact ⟨hlen, hgot, h⟩

theorem Inv.of_none (hreq : s.req = none) (hst : s.eng.rdState = .RD_IDLE)
    (hready : s.eng.rdReady = false)
    (hret : s.eng.rdRetrying = false) (htx : s.txn = none) (hgot : s.got = []) : s.Inv where
  rest _ := ⟨hst, hready, hret, htx, hgot⟩
  active _ hr := absurd (hreq.symm.trans hr) nofun

/-- The burst asks for all the beats that are left. -/
theorem toNat_mAxiArlen_left (hB : 0 < B) (hlen : B * r.count ≤ 256) {e : RdRegs}
    (hl : e.rdLinesS.toNat = r.count) (hd : e.rdDoneLines.toNat < r.count) :
    (e.mAxiArlen B).toNat + 1 = B * (r.count - e.rdDoneLines.toNat) := by
  have hrem : e.rdRemaining.toNat = r.count - e.rdDoneLines.toNat := by
    rw [RdRegs.rdRemaining, if_pos (by rw [BitVec.lt_def, hl]; exact hd), BitVec.toNat_sub_of_le, hl]
    rw [BitVec.le_def, hl]
    exact Nat.le_of_lt hd
  exact toNat_burstLen hrem hB (by omega) (Nat.le_trans (Nat.mul_le_mul_left _ (Nat.sub_le _ _)) hlen)

/-- The burst starts with the first line that is left. -/
theorem mAxiAraddr_left {e : RdRegs} (ha : e.rdAddrS = r.addr) (hdvd : B * (16 / B) = 16) :
    e.mAxiAraddr = r.beatAddr B (B * e.rdDoneLines.toNat) := by
  apply BitVec.eq_of_toNat_eq
  have hd := e.rdDoneLines.isLt
  rw [RReq.beatAddr, Nat.mul_right_comm, hdvd, RdRegs.mAxiAraddr, RdRegs.rdBase, ha, RReq.base,
    BitVec.toNat_add,
    BitVec.toNat_add, BitVec.toNat_shiftLeft, BitVec.toNat_setWidth, BitVec.toNat_ofNat,
    Nat.shiftLeft_eq]
  omega

theorem Inv.next_none (h : s.Inv) (hreq : s.req = none) (hlen : ∀ r ∈ i.start, B * r.count ≤ 256) :
    (s.next TIMEOUT_LIMIT i).Inv := by
  obtain ⟨hst, -, hret, htx, -⟩ := h.rest hreq
  rw [RetrySys.next_none hreq hst htx]
  rcases hstart : i.start with _ | r
  · exact .of_none rfl hst rfl hret rfl rfl
  · exact .of_phase rfl (hlen r hstart) rfl (.fresh hst rfl hret rfl rfl rfl)

/-- The lines got, in a phase in which none is announced. -/
theorem lines_of_not_ready (hr : s.eng.rdReady = false) : s.lines = s.got := by simp [lines, hr]

/-- A transaction is abandoned: what has been announced counts, and no more. -/
theorem inv_timeout (hreq : s.req = some r) (hlen : B * r.count ≤ 256)
    (ht : s.eng.rdTimeout TIMEOUT_LIMIT)
    (hlines : s.lines = r.linesOf s.mem s.lines.length) (hserved : s.eng.rdServed = false)
    (hdone : s.eng.rdDoneLines.toNat < r.count) (hgot : s.lines.length = s.eng.rdDoneLines.toNat) :
    (s.next TIMEOUT_LIMIT i).Inv := by
  rw [next_timeout hreq ht (leaves_of_lt hreq (hgot.trans_lt hdone))]
  exact .of_phase hreq hlen hlines (.again rfl hserved rfl rfl rfl hdone hgot)

/-- The beat that is read joins the parts of the line that are in place. -/
theorem Reading.part_take (hdvd : B * (16 / B) = 16) (h : s.Reading r)
    (hmem : ∀ k < r.count, i.mem.line (r.lineAddr k) = s.line r k) :
    ∀ b ≤ s.eng.rdBeat.toNat,
      linePart (16 / B)
          (setLinePart (16 / B) s.eng.rdRline s.eng.rdBeat.toNat
            (i.mem.part (16 / B) (r.beatAddr B (B * s.eng.rdDoneLines.toNat + s.eng.rdBeat.toNat)))) b =
        linePart (16 / B) (s.line r s.eng.rdDoneLines.toNat) b := by
  have hfit : ∀ b < B, (b + 1) * (16 / B) ≤ 16 :=
    fun b hb => (Nat.mul_le_mul_right (16 / B) hb).trans_eq hdvd
  intro b hb
  rw [linePart_setLinePart _ _ (hfit _ h.beat) (hfit _ (hb.trans_lt h.beat)),
    part_beatAddr hdvd _ _ h.beat, hmem _ h.done]
  rcases Nat.lt_or_eq_of_le hb with hlt | rfl
  · rw [if_neg (Nat.ne_of_lt hlt), h.part b hlt]
  · rw [if_pos rfl]

/-- The line is complete with its last beat. -/
theorem Reading.line_take (hdvd : B * (16 / B) = 16) (h : s.Reading r)
    (hmem : ∀ k < r.count, i.mem.line (r.lineAddr k) = s.line r k) (hend : s.eng.rdBeat.toNat + 1 = B) :
    setLinePart (16 / B) s.eng.rdRline s.eng.rdBeat.toNat
        (i.mem.part (16 / B) (r.beatAddr B (B * s.eng.rdDoneLines.toNat + s.eng.rdBeat.toNat))) =
      s.line r s.eng.rdDoneLines.toNat :=
  line_ext_parts hdvd fun b hb => h.part_take hdvd hmem b (by omega)

theorem Reading.length_lines (h : s.Reading r) : s.lines.length = s.eng.rdDoneLines.toNat := by
  rw [RetrySys.length_lines, h.got]

/-- A beat is read: the next one is due, the next line, or nothing is left. -/
theorem Reading.inv_take (hdvd : B * (16 / B) = 16) (h : s.Reading r) (hreq : s.req = some r)
    (hst : s.eng.rdState = .RD_DATA) (hlen : B * r.count ≤ 256)
    (hgot : s.got = r.linesOf s.mem s.got.length)
    (hmem : ∀ k < r.count, i.mem.line (r.lineAddr k) = s.line r k)
    (ht : s.eng.rdTimeout TIMEOUT_LIMIT = false)
    (hv : i.mAxiRvalid) : (s.next TIMEOUT_LIMIT i).Inv := by
  have hlines := lines_eq hgot h.ready
  have hlength := h.length_lines
  have hl := leaves_of_lt (i := i) hreq (hlength.trans_lt h.done)
  have hcount : r.count < 2 ^ 8 := BitVec.isLt _
  have hdone := h.done
  have hmul : B * (s.eng.rdDoneLines.toNat + 1) ≤ B * r.count := Nat.mul_le_mul_left _ hdone
  rw [next_take hreq hst ht hv hl h.txn]
  rcases Nat.lt_or_eq_of_le h.beat with hend | (hend : s.eng.rdBeat.toNat + 1 = B)
  · -- another beat of the line
    have hB : B ≤ B * r.count := Nat.le_mul_of_pos_right _ r.count_pos
    rw [Nat.mul_succ] at hmul
    have hleft : B * r.count - (B * s.eng.rdDoneLines.toNat + s.eng.rdBeat.toNat) ≠ 1 := by omega
    have hadd : (s.eng.rdBeat + 1).toNat = s.eng.rdBeat.toNat + 1 :=
      BitVec.toNat_add_of_lt (Nat.lt_of_lt_of_le hend (Nat.le_trans hB hlen))
    have hne : ¬s.eng.rdBeat.toNat + 1 = B := Nat.ne_of_lt hend
    simp only [hleft, hne, if_false]
    refine .of_phase hreq hlen hlines (.reading rfl ⟨h.served, h.retrying, h.addr, h.lines, hdone,
      ?_, ?_, ?_, ?_, ?_⟩)
    · simpa only [hadd] using hend
    · simp only [hadd, ← Nat.add_assoc, RReq.beatAddr_succ]
      rfl
    · simp only [hadd]
      exact fun b hb => h.part_take hdvd hmem b (Nat.lt_succ_iff.1 hb)
    · simp [hlength, hne]
    · simp [hne]
  · have hline := h.line_take hdvd hmem hend
    rcases Nat.lt_or_eq_of_le hdone with hlast | (hlast : s.eng.rdDoneLines.toNat + 1 = r.count)
    · -- the last beat of a line that is not the last one
      have hmul' : B * (s.eng.rdDoneLines.toNat + 2) ≤ B * r.count := Nat.mul_le_mul_left _ hlast
      rw [Nat.mul_add] at hmul'
      have hleft : B * r.count - (B * s.eng.rdDoneLines.toNat + s.eng.rdBeat.toNat) ≠ 1 := by omega
      have hadd : (s.eng.rdDoneLines + 1).toNat = s.eng.rdDoneLines.toNat + 1 :=
        BitVec.toNat_add_of_lt (Nat.lt_trans hlast hcount)
      have hnext : B * (s.eng.rdDoneLines.toNat + 1) =
          B * s.eng.rdDoneLines.toNat + s.eng.rdBeat.toNat + 1 := by
        rw [Nat.mul_succ]
        omega
      have hzero : (0 : BitVec 8).toNat = 0 := rfl
      simp only [hleft, hend, if_false, if_true, hline]
      refine .of_phase hreq hlen hlines
        (.reading rfl ⟨h.served, h.retrying, h.addr, h.lines, ?_, ?_, ?_, nofun, ?_, ?_⟩)
      · simpa only [hadd] using hlast
      · exact Nat.lt_of_lt_of_eq (Nat.succ_pos _) hend
      · simp only [hadd, hnext, hzero, Nat.add_zero, RReq.beatAddr_succ]
        rfl
      · simp only [hlength, hadd, beq_self_eq_true, Bool.toNat_true]
      · intro _
        dsimp only
        rw [hlength]
        rfl
    · -- the last beat of the last line
      have hleft : B * r.count - (B * s.eng.rdDoneLines.toNat + s.eng.rdBeat.toNat) = 1 := by
        rw [← hlast, Nat.mul_succ]
        omega
      simp only [hleft, hend, if_true, hline]
      refine .of_phase hreq hlen hlines (.last rfl h.retrying (by simp) rfl ?_ ?_)
      · rw [hlength, hlast]
      · dsimp only
        rw [hlength]
        rfl

theorem Inv.next (hdvd : B * (16 / B) = 16) (h : s.Inv) (hi : (retry B TIMEOUT_LIMIT).admits s i) :
    (s.next TIMEOUT_LIMIT i).Inv := by
  have hB : 0 < B := Nat.pos_of_ne_zero fun h0 => by simp [h0] at hdvd
  rcases hreq : s.req with _ | r
  · exact h.next_none hreq hi.1
  · obtain ⟨hlen, hgot, hphase⟩ := h.active r hreq
    have hmem := hi.2 r hreq
    cases hphase with
    | fresh st served retrying ready txn got =>
      -- Taken up at the request's own address, with nothing read yet.
      have hlt : s.lines.length < r.count := by simpa [lines_of_not_ready ready, got] using r.count_pos
      rw [next_idle hreq st served ready txn (leaves_of_lt hreq hlt), retrying]
      exact .of_phase hreq hlen hgot
        (.offered rfl served rfl rfl rfl rfl rfl rfl r.count_pos (by simp [got]))
    | again st served retrying ready txn done got =>
      -- Taken up again after a timeout: the address and the count of lines left have moved on.
      have hlt : s.lines.length < r.count := by rwa [lines_of_not_ready ready, got]
      rw [next_idle hreq st served ready txn (leaves_of_lt hreq hlt), retrying]
      exact .of_phase hreq hlen hgot (.offered rfl served rfl rfl rfl rfl rfl rfl done got)
    | offered st served retrying addr lines beat ready txn done got =>
      have hl := lines_of_not_ready ready
      have hlt : s.lines.length < r.count := by rwa [hl, got]
      cases ht : s.eng.rdTimeout TIMEOUT_LIMIT with
      -- The watchdog fires: the lines that were pulsed are kept, the part of the next is lost.
      | true => exact inv_timeout hreq hlen ht (by rwa [hl]) served done (by rw [hl, got])
      | false =>
        rw [next_addr hreq st ht ready txn (leaves_of_lt hreq hlt)]
        cases ha : i.mAxiArready with
        | false =>
          exact .of_phase hreq hlen hgot
            (.offered rfl served retrying addr lines beat rfl rfl done got)
        | true =>
          -- The address is accepted, and the burst has one beat for each part of the lines left.
          refine .of_phase hreq hlen hgot
            (.reading rfl ⟨served, retrying, addr, lines, done, ?_, ?_, ?_, ?_, nofun⟩)
          · simpa [beat] using hB
          · simp [beat, mAxiAraddr_left addr hdvd, toNat_mAxiArlen_left hB hlen lines done, Nat.mul_sub]
          · simp [beat]
          · simpa using got
    | reading st reading =>
      have hlt := reading.length_lines.trans_lt reading.done
      have hlines := lines_eq hgot reading.ready
      cases ht : s.eng.rdTimeout TIMEOUT_LIMIT with
      | true => exact inv_timeout hreq hlen ht hlines reading.served reading.done reading.length_lines
      | false =>
        cases hv : i.mAxiRvalid with
        | true => exact reading.inv_take hdvd hreq st hlen hgot hmem ht hv
        | false =>
          rw [next_wait hreq st ht hv (leaves_of_lt hreq hlt)]
          exact .of_phase hreq hlen hlines (.reading st ⟨reading.served, reading.retrying,
            reading.addr, reading.lines,
            reading.done, reading.beat, reading.txn, reading.part, reading.length_lines, nofun⟩)
    | last st retrying ready txn got rline =>
      -- The pulse of the last line; the requester drops its request with it or holds it.
      have hlines := lines_eq hgot fun _ => rline
      have hlength : s.lines.length = r.count := by
        rw [RetrySys.length_lines, ready, Bool.toNat_true, got]
      rw [next_done hreq st txn]
      cases hl : s.leaves i with
      | true => exact .of_none rfl rfl rfl retrying rfl rfl
      | false => exact .of_phase hreq hlen hlines (.held rfl rfl retrying rfl rfl hlength)
    | held st served retrying ready txn got =>
      rw [next_held hreq st served ready txn]
      cases hl : s.leaves i with
      | true => exact .of_none rfl st rfl retrying rfl rfl
      | false => exact .of_phase hreq hlen hgot (.held st served retrying rfl rfl got)

theorem inv_of_reachable (hdvd : B * (16 / B) = 16) (h : (retry B TIMEOUT_LIMIT).Reachable s) :
    s.Inv := by
  refine h.invariant (P := Inv) ?_ fun s i hs hi => hs.next hdvd hi
  rintro s ⟨⟨hst, -, -, -, -, hready, -, hret, -, -, -⟩, htx, hreq, hgot⟩
  exact .of_none hreq hst hready hret htx hgot

/-! ## A request is served once -/

/-- The lines got are the first ones, and no more than asked for. -/
theorem Inv.lines_eq (h : s.Inv) (hreq : s.req = some r) :
    s.lines = r.linesOf s.mem s.lines.length ∧ s.lines.length ≤ r.count := by
  obtain ⟨-, hgot, hphase⟩ := h.active r hreq
  cases hphase with
  | fresh _ _ _ ready _ got => simp [lines_of_not_ready ready, got, RReq.linesOf]
  | again _ _ _ ready _ done got =>
    rw [lines_of_not_ready ready, got]
    exact ⟨got ▸ hgot, Nat.le_of_lt done⟩
  | offered _ _ _ _ _ _ ready _ done got =>
    rw [lines_of_not_ready ready, got]
    exact ⟨got ▸ hgot, Nat.le_of_lt done⟩
  | reading _ reading => exact ⟨RetrySys.lines_eq hgot reading.ready,
      (reading.length_lines.trans_lt reading.done).le⟩
  | last _ _ ready _ got rline =>
    refine ⟨RetrySys.lines_eq hgot fun _ => rline, ?_⟩
    rw [RetrySys.length_lines, ready, Bool.toNat_true, got]
  | held _ _ _ ready _ got =>
    rw [lines_of_not_ready ready, got]
    exact ⟨got ▸ hgot, le_rfl⟩

/-- Once it has them all, nothing is announced, offered or taken up again. -/
theorem Inv.quiet (h : s.Inv) (hreq : s.req = some r) (hgot : s.got.length = r.count) :
    s.eng.rdReady = false ∧ s.eng.mAxiArvalid = false ∧ s.eng.rdStart (s.engIn i) = false := by
  obtain ⟨-, -, hphase⟩ := h.active r hreq
  cases hphase with
  | fresh _ _ _ _ _ got =>
    rw [got] at hgot
    exact absurd hgot (Nat.ne_of_lt r.count_pos)
  | again _ _ _ _ _ done got => omega
  | offered _ _ _ _ _ _ _ _ done got => omega
  | reading _ reading =>
    have := reading.got
    have := reading.done
    omega
  | last _ _ _ _ got _ => omega
  | held st served _ ready _ _ => exact ⟨ready, by simp [RdRegs.mAxiArvalid, st],
      by simp [RdRegs.rdStart, served]⟩

/-- Its last line is announced when the engine is done. -/
theorem Inv.complete_iff (h : s.Inv) (hreq : s.req = some r) (hserved : s.eng.rdServed = false) :
    s.complete ↔ s.eng.rdState = .RD_DONE := by
  obtain ⟨-, -, hphase⟩ := h.active r hreq
  have hc : s.complete ↔ r.count ≤ s.lines.length := by simp [complete, hreq]
  rw [hc]
  cases hphase with
  | fresh st _ _ ready _ got => simp [st, lines_of_not_ready ready, got, r.count_pos.ne']
  | again st _ _ ready _ done got => simp [st, lines_of_not_ready ready, got, done]
  | offered st _ _ _ _ _ ready _ done got => simp [st, lines_of_not_ready ready, got, done]
  | reading st reading => simp [st, reading.length_lines, reading.done]
  | last st _ ready _ got _ => simp [st, RetrySys.length_lines, ready, got]
  | held _ served => exact absurd (hserved.symm.trans served) nofun

/-- What is left of a transaction: the beats. -/
def left (s : RetrySys B) : ℕ :=
  match s.eng.rdState with
  | .RD_IDLE => B * 256 + 3
  | .RD_ADDR => B * 256 + 2
  | .RD_DATA => B * 256 + 1 - (B * s.eng.rdDoneLines.toNat + s.eng.rdBeat.toNat)
  | .RD_DONE => 0

/-- And the cycles until it is abandoned. -/
def rank (s : RetrySys B) : ℕ := s.left * 2 ^ 16 + (2 ^ 16 - 1 - s.eng.rdTmo.toNat)

theorem rank_lt_of_left {t : RetrySys B} (h : t.left < s.left) : t.rank < s.rank := by
  unfold rank
  omega

/-- The cycles that pass without a beat are counted. -/
theorem rank_lt_of_rdTmo {t : RetrySys B} (ht : s.eng.rdTimeout TIMEOUT_LIMIT = false)
    (he : s.eng.rdEligible)
    (hl : t.left = s.left) (htmo : t.eng.rdTmo = s.eng.rdTmo + 1) : t.rank < s.rank := by
  obtain ⟨hadd, hlt⟩ := RdRegs.toNat_rdTmo_succ ht he
  rw [rank, rank, hl, htmo, hadd]
  omega

theorem Reading.left_next (hdvd : B * (16 / B) = 16) (h : s.Reading r) (hreq : s.req = some r)
    (hst : s.eng.rdState = .RD_DATA) (ht : s.eng.rdTimeout TIMEOUT_LIMIT = false) (hv : i.mAxiRvalid)
    (hl : s.leaves i = false) : (s.next TIMEOUT_LIMIT i).left < s.left := by
  have hbeat := h.beat
  have hdone := h.done
  have hcount : r.count < 2 ^ 8 := BitVec.isLt _
  have hB : B ≤ 16 := Nat.le_of_dvd (by decide) ⟨_, hdvd.symm⟩
  have hmul : B * (s.eng.rdDoneLines.toNat + 1) ≤ B * 256 := Nat.mul_le_mul_left _ (by omega)
  rw [Nat.mul_succ] at hmul
  have h1 : (1 : BitVec 8).toNat = 1 := rfl
  have hs : s.left = B * 256 + 1 - (B * s.eng.rdDoneLines.toNat + s.eng.rdBeat.toNat) := by
    rw [left, hst]
  rw [hs, next_take hreq hst ht hv hl h.txn]
  -- `left` counts the beats still to come, so each beat taken lowers it by one or ends it.
  by_cases hlast : B * r.count - (B * s.eng.rdDoneLines.toNat + s.eng.rdBeat.toNat) = 1
  · simp only [left, hlast, if_true]
    omega
  · simp only [left, hlast, if_false]
    by_cases hend : s.eng.rdBeat.toNat + 1 = B
    · have hadd : (s.eng.rdDoneLines + 1).toNat = s.eng.rdDoneLines.toNat + 1 :=
        BitVec.toNat_add_of_lt (by rw [h1]; omega)
      have hsucc : B * (s.eng.rdDoneLines.toNat + 1) = B * s.eng.rdDoneLines.toNat + B :=
        Nat.mul_succ _ _
      simp only [hend, if_true, hadd, hsucc]
      omega
    · have hadd : (s.eng.rdBeat + 1).toNat = s.eng.rdBeat.toNat + 1 :=
        BitVec.toNat_add_of_lt (by rw [h1]; omega)
      simp only [hend, if_false, hadd]
      omega

/-- A transaction that is not abandoned makes progress. -/
theorem Inv.rank_next (hdvd : B * (16 / B) = 16) (h : s.Inv) (hreq : s.req = some r)
    (ht : s.eng.rdTimeout TIMEOUT_LIMIT = false) (hc : s.complete = false) :
    (s.next TIMEOUT_LIMIT i).rank < s.rank := by
  have hl : s.leaves i = false := by rw [leaves, hc, Bool.false_and]
  obtain ⟨-, -, hphase⟩ := h.active r hreq
  cases hphase with
  | fresh st served _ ready txn _ =>
    refine rank_lt_of_left ?_
    rw [next_idle hreq st served ready txn hl, left, left, st]
    exact Nat.lt_succ_self _
  | again st served _ ready txn _ _ =>
    refine rank_lt_of_left ?_
    rw [next_idle hreq st served ready txn hl, left, left, st]
    exact Nat.lt_succ_self _
  | offered st _ _ _ _ _ ready txn _ _ =>
    cases ha : i.mAxiArready with
    | true =>
      -- An accepted address moves the state on.
      refine rank_lt_of_left ?_
      rw [next_addr hreq st ht ready txn hl, ha, left, left, st]
      simp only [if_true]
      omega
    | false =>
      -- A cycle without a handshake brings the watchdog nearer.
      refine rank_lt_of_rdTmo ht (by simp [RdRegs.rdEligible, st]) ?_ ?_
      · rw [next_addr hreq st ht ready txn hl, ha, left, left, st]
        rfl
      · rw [next_addr hreq st ht ready txn hl, ha]
        rfl
  | reading st reading =>
    cases hv : i.mAxiRvalid with
    | true => exact rank_lt_of_left (reading.left_next hdvd hreq st ht hv hl)
    | false =>
      refine rank_lt_of_rdTmo ht (by simp [RdRegs.rdEligible, st]) ?_ ?_
      · rw [next_wait hreq st ht hv hl]
        rfl
      · rw [next_wait hreq st ht hv hl]
  | last _ _ ready _ got _ =>
    -- With the last line pulsed the request is complete, against `hc`.
    have : s.lines.length = r.count := by rw [RetrySys.length_lines, ready, Bool.toNat_true, got]
    simp [complete, hreq, this] at hc
  | held _ _ _ ready _ got =>
    have : s.lines.length = r.count := by rw [lines_of_not_ready ready, got]
    simp [complete, hreq, this] at hc

theorem next_req (hreq : s.req = some r) (hc : s.complete = false) :
    (s.next TIMEOUT_LIMIT i).req = some r ∧ (s.next TIMEOUT_LIMIT i).mem = s.mem := by
  simp [RetrySys.next, leaves, hc, hreq]

end RetrySys

/-! ## A run -/

variable {σ : ℕ → RetrySys B} {ι : ℕ → RetryInputs}

/-- A request that is abandoned only finitely often is completed. -/
theorem complete_of_isRun (hdvd : B * (16 / B) = 16) (h : (retry B TIMEOUT_LIMIT).IsRun σ ι) {n N : ℕ}
    (hreq : (σ n).req = some r) (ht : ∀ k ≥ N, (σ k).eng.rdTimeout TIMEOUT_LIMIT = false) :
    ∃ m ≥ n, (∀ k, n ≤ k → k ≤ m → (σ k).req = some r ∧ (σ k).mem = (σ n).mem) ∧
      (σ m).complete := by
  have hnext : ∀ k, σ (k + 1) = (σ k).next TIMEOUT_LIMIT (ι k) := h.next
  refine Circuit.exists_of_rank_from RetrySys.rank (ι := ι) (N := N)
    (P := fun s => s.req = some r ∧ s.mem = (σ n).mem) (Q := fun s _ => s.complete) ?_ ?_ ⟨hreq, rfl⟩
  · rintro k ⟨hreq, hmem⟩ hc
    obtain ⟨hreq', hmem'⟩ : (σ (k + 1)).req = some r ∧ (σ (k + 1)).mem = (σ k).mem := by
      rw [hnext]
      exact RetrySys.next_req hreq (Bool.not_eq_true _ ▸ hc)
    exact ⟨hreq', hmem'.trans hmem⟩
  · rintro k hk ⟨hreq, -⟩ hc
    rw [hnext]
    exact (RetrySys.inv_of_reachable hdvd (h.reachable k)).rank_next hdvd hreq (ht k hk)
      (Bool.not_eq_true _ ▸ hc)

/-- Whatever is abandoned and taken up again, a request gets the lines it asked for once and in
    order, one for each time `rd_ready` is high; without a request it is low. With all of its lines
    a request gets no other, and no transaction is started for it. It does get them all, unless the
    memory stalls for ever. -/
theorem readRetry_of_isRun (hdvd : B * (16 / B) = 16) (h : (retry B TIMEOUT_LIMIT).IsRun σ ι) (n : ℕ) :
    ((σ n).req = none → (σ n).eng.rdReady = false ∧ (σ n).eng.mAxiArvalid = false) ∧
    ∀ r, (σ n).req = some r →
      ((σ n).lines = r.linesOf (σ n).mem (σ n).lines.length ∧ (σ n).lines.length ≤ r.count) ∧
      ((σ n).got.length = r.count → (σ n).eng.rdReady = false ∧ (σ n).eng.mAxiArvalid = false ∧
        (σ n).eng.rdStart ((σ n).engIn (ι n)) = false) ∧
      ((∃ N, ∀ k ≥ N, (σ k).eng.rdTimeout TIMEOUT_LIMIT = false) →
        ∃ m ≥ n, (∀ k, n ≤ k → k ≤ m → (σ k).req = some r) ∧
          (σ m).lines = r.linesOf (σ n).mem r.count) := by
  have hinv := fun k => RetrySys.inv_of_reachable hdvd (h.reachable k)
  refine ⟨fun hn => ?_, fun r hreq => ⟨(hinv n).lines_eq hreq, (hinv n).quiet hreq, ?_⟩⟩
  · obtain ⟨hst, hready, -⟩ := (hinv n).rest hn
    exact ⟨hready, by simp [RdRegs.mAxiArvalid, hst]⟩
  · rintro ⟨N, ht⟩
    obtain ⟨m, hm, hall, hc⟩ := complete_of_isRun hdvd h hreq ht
    obtain ⟨hreq', hmem'⟩ := hall m hm le_rfl
    obtain ⟨hl, hle⟩ := (hinv m).lines_eq hreq'
    simp only [RetrySys.complete, hreq', Option.any_some, decide_eq_true_eq] at hc
    refine ⟨m, hm, fun k h₁ h₂ => (hall k h₁ h₂).1, ?_⟩
    rw [hl, hmem', Nat.le_antisymm hle hc]

/-! ### A request that is abandoned -/

deriving instance DecidableEq for RReq

/-- A memory that holds the low byte of each address. -/
def lowBytes : Mem := fun a => a.setWidth 8

/-- A request of two lines, on a bus of 64 bits. The first line is read, and the memory then
    stalls for three cycles in the middle of the second one. -/
def stalledRead (n : ℕ) : RetryInputs where
  start := if n = 0 then some ⟨0x80000000, 2⟩ else none
  withdraw := false
  mAxiArready := true
  mAxiRvalid := n ≤ 5 || 9 ≤ n
  mem := lowBytes

def stalledTrace : ℕ → RetrySys 2 :=
  (retry 2 2).trace ⟨⟨.RD_IDLE, 0, 0, 0, 1, 0, false, false, 0, 0, false⟩, none, none,
    lowBytes, []⟩ stalledRead

theorem stalledTrace_mem (n : ℕ) : (stalledTrace n).mem = lowBytes := by
  induction n with
  | zero => rfl
  | succ n ih =>
    change (if _ then (stalledTrace n).mem else (stalledRead n).mem) = _
    rw [ih]
    exact ite_self _

theorem isRun_stalledTrace : (retry 2 2).IsRun stalledTrace stalledRead := by
  refine Circuit.isRun_trace (by simp [retry, RetrySys.IsReset, RdRegs.IsReset]) fun n =>
    ⟨fun r hr => ?_, ?_⟩
  · have hr' : some (⟨0x80000000, 2⟩ : RReq) = some r := by
      cases n with
      | zero => exact hr
      | succ n => cases hr
    rw [← Option.some.inj hr']
    decide
  · exact fun r _ k _ => congrArg (fun m => Mem.line m (r.lineAddr k)) (stalledTrace_mem n).symm

/-- The second line is asked for again, and the two are got once. -/
theorem stalledTrace_lines :
    (stalledTrace 13).eng.rdRetries = 1 ∧
      (stalledTrace 13).lines = RReq.linesOf ⟨0x80000000, 2⟩ (stalledTrace 13).mem 2 := by
  have hreq : (stalledTrace 13).req = some ⟨0x80000000, 2⟩ := by decide +kernel
  have hlen : (stalledTrace 13).lines.length = 2 := by decide +kernel
  have h := ((readRetry_of_isRun (by decide) isRun_stalledTrace 13).2 _ hreq).1.1
  rw [hlen] at h
  exact ⟨by decide +kernel, h⟩

end AxiRw

end Rv32Soc
