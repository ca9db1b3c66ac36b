import Rv32Soc.Axi.RwEngine

/-!
# The read channel

The read engine of `axi_rw_engine.v` between a requester, which holds its request
until the last of its lines is delivered, and an AXI4 memory, which accepts an
address and answers each beat of a burst whenever it likes, with what it holds then
(`ReadInputs.mem`), and forgets a transaction that is abandoned.

`seen` are the beats read for the request so far: the beat number `j` is what the
memory held at the place of the request's `j`-th beat when it was read. As long as
no transaction is abandoned, each line delivered is made of the next `B` of them
(`ReadSys.Inv.line_eq`).
-/

namespace Rv32Soc

namespace AxiRw

/-- A request to read lines. -/
structure RReq where
  addr : Word
  lines : BitVec 8

/-- The number of lines requested; `0` stands for one. -/
def RReq.count (r : RReq) : ℕ := (if r.lines = 0 then 1 else r.lines).toNat

def RReq.base (r : RReq) : Word := lineBase r.addr

/-- The address of the `j`-th beat of the request. -/
def RReq.beatAddr (B : ℕ) (r : RReq) (j : ℕ) : Word := r.base + BitVec.ofNat 32 (j * (16 / B))

/-- The engine, the transaction the memory serves (the address of its next beat, and
    the beats left), and the requester: its request, the lines it got, and the beats
    read for it. -/
@[ext] structure ReadSys (B : ℕ) where
  eng : RdRegs
  txn : Option (Word × ℕ)
  req : Option RReq
  got : ℕ
  seen : List (Beat B)

/-- What the requester, when it has no request, and the memory do on a cycle. -/
structure ReadInputs where
  start : Option RReq
  mAxiArready : Bool
  mAxiRvalid : Bool
  mem : Mem

namespace ReadSys

variable {B : ℕ} (TIMEOUT_LIMIT : BitVec 16) (s : ReadSys B) (i : ReadInputs)

/-- The ports of the engine. -/
def engIn : RdInputs B where
  rdReqValid := s.req.isSome
  rdReqAddr := (s.req.map RReq.addr).getD 0
  rdReqLines := (s.req.map RReq.lines).getD 1
  mAxiArready := i.mAxiArready
  mAxiRdata := (s.txn.map fun t => i.mem.part (16 / B) t.1).getD 0
  mAxiRvalid := i.mAxiRvalid && s.txn.isSome
  mAxiRlast := (s.txn.map fun t => t.2 == 1).getD false

/-- A beat is transferred. -/
def beat : Bool := s.eng.mAxiRready && (i.mAxiRvalid && s.txn.isSome)

/-- The last line of the request is delivered. -/
def complete : Bool := (s.req.map fun r => s.eng.rdReady && s.got + 1 == r.count).getD false

def next : ReadSys B where
  eng := s.eng.next TIMEOUT_LIMIT (s.engIn i)
  txn :=
    if s.eng.rdTimeout TIMEOUT_LIMIT then none
    else if s.eng.mAxiArvalid && i.mAxiArready then some (s.eng.mAxiAraddr,
        (s.eng.mAxiArlen B).toNat + 1)
    else if s.beat i then
      s.txn.bind fun t => if t.2 = 1 then none else some (t.1 + BitVec.ofNat 32 (16 / B), t.2 - 1)
    else s.txn
  req := if s.req.isSome then if s.complete then none else s.req else i.start
  got := if s.req.isSome && !s.complete then s.got + s.eng.rdReady.toNat else 0
  seen :=
    if s.req.isSome && !s.complete then
      if s.beat i then
        s.seen ++ (s.req.map fun r => i.mem.part (16 / B) (r.beatAddr B s.seen.length)).toList
      else s.seen
    else []

def IsReset : Prop := s.eng.IsReset ∧ s.txn = none ∧ s.req = none ∧ s.got = 0 ∧ s.seen = []

/-! ## The invariant -/

/-- The line `l` is made of the beats seen for the line number `k`. -/
def IsLine (k : ℕ) (l : Line) : Prop :=
  ∀ b < B, s.seen[B * k + b]? = some (linePart (16 / B) l b)

/-- Beats of the burst of the request `r` are being read. -/
structure Reading (r : RReq) : Prop where
  addr : s.eng.rdAddrS = r.addr
  lines : s.eng.rdLinesS.toNat = r.count
  done : s.eng.rdDoneLines.toNat < r.count
  beat : s.eng.rdBeat.toNat < B
  txn : s.txn = some (r.beatAddr B (B * s.eng.rdDoneLines.toNat + s.eng.rdBeat.toNat),
    B * r.count - (B * s.eng.rdDoneLines.toNat + s.eng.rdBeat.toNat))
  seen : s.seen.length = B * s.eng.rdDoneLines.toNat + s.eng.rdBeat.toNat
  part : ∀ b < s.eng.rdBeat.toNat,
    s.seen[B * s.eng.rdDoneLines.toNat + b]? = some (linePart (16 / B) s.eng.rdRline b)
  got : s.got + s.eng.rdReady.toNat = s.eng.rdDoneLines.toNat
  ready : s.eng.rdReady = true → s.eng.rdBeat = 0 ∧ s.IsLine s.got s.eng.rdRline

/-- The invariant of the channel, while no transaction is abandoned. -/
def Inv : Prop :=
  s.eng.rdRetrying = false ∧
    match s.req with
    | none => s.eng.rdState = .RD_IDLE ∧ s.eng.rdReady = false ∧ s.txn = none ∧ s.got = 0 ∧ s.seen = []
    | some r => B * r.count ≤ 256 ∧
      match s.eng.rdState with
      | .RD_IDLE => s.eng.rdServed = false ∧ s.eng.rdReady = false ∧ s.txn = none ∧
          s.got = 0 ∧ s.seen = []
      | .RD_ADDR => s.eng.rdAddrS = r.addr ∧ s.eng.rdLinesS.toNat = r.count ∧ s.eng.rdDoneLines = 0 ∧
          s.eng.rdBeat = 0 ∧ s.eng.rdReady = false ∧ s.txn = none ∧ s.got = 0 ∧ s.seen = []
      | .RD_DATA => s.Reading r
      | .RD_DONE => s.eng.rdReady = true ∧ s.txn = none ∧ s.got + 1 = r.count ∧
          s.IsLine s.got s.eng.rdRline

end ReadSys

variable {B : ℕ} {TIMEOUT_LIMIT : BitVec 16} {s : ReadSys B} {i : ReadInputs} {r : RReq}

/-! ## One edge -/

/-- Without a request the engine rests. -/
theorem ReadSys.next_none (hreq : s.req = none) (hst : s.eng.rdState = .RD_IDLE) (htx : s.txn = none) :
    s.next TIMEOUT_LIMIT i =
      { s with
        eng := { s.eng with rdReady := false, rdTmo := 0, rdServed := false }
        txn := none, req := i.start, got := 0, seen := [] } := by
  simp [ReadSys.next, RdRegs.next, RdRegs.rdTimeout, RdRegs.rdEligible, RdRegs.rdNext, RdRegs.rdStart,
    RdRegs.rdTake, RdRegs.rdLineEnd, RdRegs.mAxiArvalid, ReadSys.engIn, ReadSys.beat, hst, hreq, htx]

/-- A request is taken up. -/
theorem ReadSys.next_idle (hreq : s.req = some r) (hst : s.eng.rdState = .RD_IDLE)
    (hserved : s.eng.rdServed = false) (hret : s.eng.rdRetrying = false) (hready : s.eng.rdReady = false)
    (htx : s.txn = none) :
    s.next TIMEOUT_LIMIT i =
      { s with
        eng := { s.eng with
          rdState := .RD_ADDR, rdBeat := 0, rdDoneLines := 0, rdAddrS := r.addr
          rdLinesS := if r.lines = 0 then 1 else r.lines, rdReady := false, rdTmo := 0 }
        txn := none } := by
  simp [ReadSys.next, RdRegs.next, RdRegs.rdTimeout, RdRegs.rdEligible, RdRegs.rdNext, RdRegs.rdStart,
    RdRegs.rdTake, RdRegs.rdLineEnd, RdRegs.mAxiArvalid, RdRegs.mAxiRready, ReadSys.engIn, ReadSys.beat,
    ReadSys.complete, hst, hreq, htx, hserved, hret, hready]

/-- The address is offered. -/
theorem ReadSys.next_addr (hreq : s.req = some r) (hst : s.eng.rdState = .RD_ADDR)
    (ht : s.eng.rdTimeout TIMEOUT_LIMIT = false) (hready : s.eng.rdReady = false) (htx : s.txn = none) :
    s.next TIMEOUT_LIMIT i =
      { s with
        eng := { s.eng with
          rdState := if i.mAxiArready then .RD_DATA else .RD_ADDR, rdReady := false
          rdTmo := if i.mAxiArready then 0 else s.eng.rdTmo + 1 }
        txn := if i.mAxiArready then some (s.eng.mAxiAraddr, (s.eng.mAxiArlen B).toNat + 1)
          else none } := by
  simp [ReadSys.next, RdRegs.next, RdRegs.rdEligible, RdRegs.rdNext, RdRegs.rdStart, RdRegs.rdProgress,
    RdRegs.rdTake, RdRegs.rdLineEnd, RdRegs.mAxiArvalid, RdRegs.mAxiRready, ReadSys.engIn, ReadSys.beat,
    ReadSys.complete, hst, hreq, htx, ht, hready]

/-- The next beat is awaited. -/
theorem ReadSys.next_wait (hreq : s.req = some r) (hst : s.eng.rdState = .RD_DATA)
    (ht : s.eng.rdTimeout TIMEOUT_LIMIT = false) (hv : i.mAxiRvalid = false)
    (hc : s.complete = false) :
    s.next TIMEOUT_LIMIT i =
      { s with
        eng := { s.eng with rdReady := false, rdTmo := s.eng.rdTmo + 1 }
        got := s.got + s.eng.rdReady.toNat } := by
  simp [ReadSys.next, RdRegs.next, RdRegs.rdEligible, RdRegs.rdNext, RdRegs.rdStart, RdRegs.rdProgress,
    RdRegs.rdTake, RdRegs.rdLineEnd, RdRegs.mAxiArvalid, RdRegs.mAxiRready, ReadSys.engIn, ReadSys.beat,
    hst, hreq, hv, ht, hc]

/-- A beat is read. -/
theorem ReadSys.next_take (hreq : s.req = some r) (hst : s.eng.rdState = .RD_DATA)
    (ht : s.eng.rdTimeout TIMEOUT_LIMIT = false) (hv : i.mAxiRvalid = true)
    (hc : s.complete = false) {p : Word} {left : ℕ} (htx : s.txn = some (p, left)) :
    s.next TIMEOUT_LIMIT i =
      { s with
        eng := { s.eng with
          rdState := if left = 1 then .RD_DONE else .RD_DATA
          rdBeat := if s.eng.rdBeat.toNat + 1 = B then 0 else s.eng.rdBeat + 1
          rdDoneLines := if s.eng.rdBeat.toNat + 1 = B then s.eng.rdDoneLines + 1 else s.eng.rdDoneLines
          rdRline := setLinePart (16 / B) s.eng.rdRline s.eng.rdBeat.toNat (i.mem.part (16 / B) p)
          rdReady := s.eng.rdBeat.toNat + 1 == B
          rdTmo := 0 }
        txn := if left = 1 then none else some (p + BitVec.ofNat 32 (16 / B), left - 1)
        got := s.got + s.eng.rdReady.toNat
        seen := s.seen ++ [i.mem.part (16 / B) (r.beatAddr B s.seen.length)] } := by
  simp [ReadSys.next, RdRegs.next, RdRegs.rdEligible, RdRegs.rdNext, RdRegs.rdStart, RdRegs.rdProgress,
    RdRegs.rdTake, RdRegs.rdLineEnd, RdRegs.mAxiArvalid, RdRegs.mAxiRready, ReadSys.engIn, ReadSys.beat,
    hst, hreq, hv, ht, hc, htx]

/-- The last line is delivered, and the request withdrawn. -/
theorem ReadSys.next_done (hreq : s.req = some r) (hst : s.eng.rdState = .RD_DONE)
    (hc : s.complete = true) (htx : s.txn = none) :
    s.next TIMEOUT_LIMIT i =
      { s with
        eng := { s.eng with
          rdState := .RD_IDLE, rdBeat := 0, rdReady := false, rdTmo := 0, rdServed := true }
        txn := none, req := none, got := 0, seen := [] } := by
  simp [ReadSys.next, RdRegs.next, RdRegs.rdTimeout, RdRegs.rdEligible, RdRegs.rdNext, RdRegs.rdStart,
    RdRegs.rdTake, RdRegs.rdLineEnd, RdRegs.mAxiArvalid, RdRegs.mAxiRready, ReadSys.engIn, ReadSys.beat,
    hst, hreq, hc, htx]

/-! ## The invariant is kept -/

theorem RReq.count_pos (r : RReq) : 0 < r.count := by
  rw [RReq.count]
  split
  next => decide
  next h => exact Nat.pos_of_ne_zero fun h0 => h (BitVec.eq_of_toNat_eq h0)

/-- The burst asks for all the beats of the request. -/
theorem toNat_mAxiArlen (hB : 0 < B) (hlen : B * r.count ≤ 256) (hl : s.eng.rdLinesS.toNat = r.count)
    (hd : s.eng.rdDoneLines = 0) : (s.eng.mAxiArlen B).toNat + 1 = B * r.count := by
  have hpos := r.count_pos
  have hrem : s.eng.rdRemaining.toNat = r.count := by
    rw [RdRegs.rdRemaining, hd, if_pos (by rw [BitVec.lt_def, hl]; exact hpos)]
    simpa using hl
  exact toNat_burstLen hrem hB hpos hlen

theorem ReadSys.Reading.complete_eq (h : s.Reading r) (hreq : s.req = some r) : s.complete = false := by
  have hgot := h.got
  have hdone := h.done
  rw [ReadSys.complete, hreq, Option.map_some, Option.getD_some]
  cases hr : s.eng.rdReady with
  | false => rfl
  | true =>
    rw [hr, Bool.toNat_true] at hgot
    rw [Bool.true_and, beq_eq_false_iff_ne]
    omega

theorem ReadSys.inv_next_none (h : s.Inv) (hreq : s.req = none)
    (hlen : ∀ r ∈ i.start, B * r.count ≤ 256) : (s.next TIMEOUT_LIMIT i).Inv := by
  simp only [ReadSys.Inv, hreq] at h
  obtain ⟨hret, hst, -, htx, -, -⟩ := h
  rw [ReadSys.next_none hreq hst htx]
  simp only [ReadSys.Inv, hst]
  rcases hstart : i.start with _ | r
  · exact ⟨hret, trivial, trivial, trivial, trivial, trivial⟩
  · exact ⟨hret, hlen r hstart, trivial, trivial, trivial, trivial, trivial⟩

theorem ReadSys.inv_next_idle (h : s.Inv) (hreq : s.req = some r) (hst : s.eng.rdState = .RD_IDLE) :
    (s.next TIMEOUT_LIMIT i).Inv := by
  simp only [ReadSys.Inv, hreq, hst] at h
  obtain ⟨hret, hlen, hserved, hready, htx, hgot, hseen⟩ := h
  rw [ReadSys.next_idle hreq hst hserved hret hready htx]
  simp only [ReadSys.Inv, hreq]
  exact ⟨hret, hlen, trivial, rfl, trivial, trivial, trivial, trivial, hgot, hseen⟩

theorem ReadSys.inv_next_addr (hB : 0 < B) (h : s.Inv) (hreq : s.req = some r)
    (hst : s.eng.rdState = .RD_ADDR) (ht : s.eng.rdTimeout TIMEOUT_LIMIT = false) :
    (s.next TIMEOUT_LIMIT i).Inv := by
  simp only [ReadSys.Inv, hreq, hst] at h
  obtain ⟨hret, hlen, haddr, hlines, hdone, hbeat, hready, htx, hgot, hseen⟩ := h
  rw [ReadSys.next_addr hreq hst ht hready htx]
  simp only [ReadSys.Inv, hreq]
  refine ⟨hret, hlen, ?_⟩
  cases ha : i.mAxiArready with
  | false => exact ⟨haddr, hlines, hdone, hbeat, trivial, rfl, hgot, hseen⟩
  | true =>
    refine ⟨haddr, hlines, ?_, ?_, ?_, ?_, ?_, ?_, ?_⟩
    · rw [hdone]
      exact r.count_pos
    · rw [hbeat]
      exact hB
    · dsimp only
      rw [toNat_mAxiArlen hB hlen hlines hdone, hdone, hbeat]
      simp [RdRegs.mAxiAraddr, RdRegs.rdBase, hdone, haddr, RReq.beatAddr, RReq.base]
    · simp [hseen, hdone, hbeat]
    · simp [hbeat]
    · simp [hgot, hdone]
    · simp

theorem ReadSys.inv_next_done (h : s.Inv) (hreq : s.req = some r) (hst : s.eng.rdState = .RD_DONE) :
    (s.next TIMEOUT_LIMIT i).Inv := by
  simp only [ReadSys.Inv, hreq, hst] at h
  obtain ⟨hret, -, hready, htx, hgot, -⟩ := h
  have hc : s.complete = true := by simp [ReadSys.complete, hreq, hready, hgot]
  rw [ReadSys.next_done hreq hst hc htx]
  exact ⟨hret, rfl, rfl, rfl, rfl, rfl⟩

theorem RReq.beatAddr_succ (r : RReq) (j : ℕ) :
    r.beatAddr B (j + 1) = r.beatAddr B j + BitVec.ofNat 32 (16 / B) := by
  rw [RReq.beatAddr, RReq.beatAddr, BitVec.add_assoc, ← BitVec.ofNat_add, Nat.succ_mul]

/-- The number of the beat to be read next. -/
def ReadSys.beatNo (s : ReadSys B) : ℕ := B * s.eng.rdDoneLines.toNat + s.eng.rdBeat.toNat

/-- The line once the beat is read. -/
def ReadSys.takenLine (s : ReadSys B) (i : ReadInputs) (r : RReq) : Line :=
  setLinePart (16 / B) s.eng.rdRline s.eng.rdBeat.toNat (i.mem.part (16 / B) (r.beatAddr B s.beatNo))

/-- The beats seen once the beat is read. -/
def ReadSys.takenSeen (s : ReadSys B) (i : ReadInputs) (r : RReq) : List (Beat B) :=
  s.seen ++ [i.mem.part (16 / B) (r.beatAddr B s.seen.length)]

/-- The beat read joins the parts of the line that are in place. -/
theorem ReadSys.Reading.part_take (hdvd : B * (16 / B) = 16) (h : s.Reading r) :
    ∀ b ≤ s.eng.rdBeat.toNat, (s.takenSeen i r)[B * s.eng.rdDoneLines.toNat + b]? =
      some (linePart (16 / B) (s.takenLine i r) b) := by
  have hfit : ∀ b < B, (b + 1) * (16 / B) ≤ 16 := fun b hb =>
    (Nat.mul_le_mul_right (16 / B) hb).trans_eq hdvd
  intro b hb
  rw [ReadSys.takenLine, ReadSys.takenSeen,
    linePart_setLinePart _ _ (hfit _ h.beat) (hfit _ (Nat.lt_of_le_of_lt hb h.beat))]
  rcases Nat.lt_or_eq_of_le hb with hlt | rfl
  · have hlen : B * s.eng.rdDoneLines.toNat + b < s.seen.length := by
      rw [h.seen]
      exact Nat.add_lt_add_left hlt _
    rw [if_neg (Nat.ne_of_lt hlt), List.getElem?_append_left hlen, h.part b hlt]
  · rw [if_pos rfl, List.getElem?_append_right (Nat.le_of_eq h.seen), h.seen, Nat.sub_self]
    rfl

theorem ReadSys.Reading.length_takenSeen (h : s.Reading r) :
    (s.takenSeen i r).length = s.beatNo + 1 := by
  rw [ReadSys.takenSeen, List.length_append, h.seen]
  rfl

theorem ReadSys.Reading.lineEnd_take (hdvd : B * (16 / B) = 16) (h : s.Reading r)
    (hend : s.eng.rdBeat.toNat + 1 = B) : ∀ b < B,
      (s.takenSeen i r)[B * (s.got + s.eng.rdReady.toNat) + b]? =
        some (linePart (16 / B) (s.takenLine i r) b) := by
  intro b hb
  rw [h.got]
  exact h.part_take hdvd b (by omega)

/-- The last beat of the burst is read. -/
theorem ReadSys.inv_take_last (hdvd : B * (16 / B) = 16) (h : s.Reading r) (hreq : s.req = some r)
    (hst : s.eng.rdState = .RD_DATA) (ht : s.eng.rdTimeout TIMEOUT_LIMIT = false)
    (hv : i.mAxiRvalid = true) (hret : s.eng.rdRetrying = false) (hlen : B * r.count ≤ 256)
    (hend : s.eng.rdBeat.toNat + 1 = B) (hlast : s.eng.rdDoneLines.toNat + 1 = r.count) :
    (s.next TIMEOUT_LIMIT i).Inv := by
  have hleft : B * r.count - (B * s.eng.rdDoneLines.toNat + s.eng.rdBeat.toNat) = 1 := by
    rw [← hlast, Nat.mul_succ]
    omega
  rw [ReadSys.next_take hreq hst ht hv (h.complete_eq hreq) h.txn]
  simp only [ReadSys.Inv, hreq, hleft, hend, if_true, beq_self_eq_true]
  refine ⟨hret, hlen, trivial, trivial, ?_, h.lineEnd_take hdvd hend⟩
  rw [h.got, hlast]

/-- The last beat of another line is read. -/
theorem ReadSys.inv_take_line (hdvd : B * (16 / B) = 16) (h : s.Reading r) (hreq : s.req = some r)
    (hst : s.eng.rdState = .RD_DATA) (ht : s.eng.rdTimeout TIMEOUT_LIMIT = false)
    (hv : i.mAxiRvalid = true) (hret : s.eng.rdRetrying = false) (hlen : B * r.count ≤ 256)
    (hend : s.eng.rdBeat.toNat + 1 = B) (hlast : s.eng.rdDoneLines.toNat + 1 < r.count) :
    (s.next TIMEOUT_LIMIT i).Inv := by
  have hcount : r.count < 2 ^ 8 := BitVec.isLt _
  have hmul : B * (s.eng.rdDoneLines.toNat + 2) ≤ B * r.count := Nat.mul_le_mul_left _ hlast
  rw [Nat.mul_add] at hmul
  -- More than one beat is left, since a whole line is.
  have hleft : B * r.count - (B * s.eng.rdDoneLines.toNat + s.eng.rdBeat.toNat) ≠ 1 := by omega
  have hadd : (s.eng.rdDoneLines + 1).toNat = s.eng.rdDoneLines.toNat + 1 :=
    BitVec.toNat_add_of_lt (Nat.lt_trans hlast hcount)
  have hnext : B * (s.eng.rdDoneLines.toNat + 1) = s.beatNo + 1 := by
    rw [ReadSys.beatNo, Nat.mul_succ]
    omega
  have hzero : (0 : BitVec 8).toNat = 0 := rfl
  rw [ReadSys.next_take hreq hst ht hv (h.complete_eq hreq) h.txn]
  simp only [ReadSys.Inv, hreq, hleft, hend, if_true, if_false, beq_self_eq_true]
  refine ⟨hret, hlen, h.addr, h.lines, ?_, Nat.lt_of_lt_of_eq (Nat.succ_pos _) hend, ?_, ?_, nofun, ?_,
    fun _ => ⟨rfl, ?_⟩⟩
  · dsimp only
    rw [hadd]
    exact hlast
  · simp only [hadd, hnext, hzero, Nat.add_zero, RReq.beatAddr_succ]
    rfl
  · simp only [hadd, hnext, hzero, Nat.add_zero]
    exact h.length_takenSeen
  · simp only [hadd, h.got, Bool.toNat_true]
  · exact h.lineEnd_take hdvd hend

/-- Another beat is read. -/
theorem ReadSys.inv_take_beat (hdvd : B * (16 / B) = 16) (h : s.Reading r) (hreq : s.req = some r)
    (hst : s.eng.rdState = .RD_DATA) (ht : s.eng.rdTimeout TIMEOUT_LIMIT = false)
    (hv : i.mAxiRvalid = true) (hret : s.eng.rdRetrying = false) (hlen : B * r.count ≤ 256)
    (hend : s.eng.rdBeat.toNat + 1 < B) : (s.next TIMEOUT_LIMIT i).Inv := by
  have hmul : B * (s.eng.rdDoneLines.toNat + 1) ≤ B * r.count := Nat.mul_le_mul_left _ h.done
  have hB : B ≤ B * r.count := Nat.le_mul_of_pos_right _ r.count_pos
  rw [Nat.mul_succ] at hmul
  have hleft : B * r.count - (B * s.eng.rdDoneLines.toNat + s.eng.rdBeat.toNat) ≠ 1 := by omega
  have hadd : (s.eng.rdBeat + 1).toNat = s.eng.rdBeat.toNat + 1 :=
    BitVec.toNat_add_of_lt (Nat.lt_of_lt_of_le hend (Nat.le_trans hB hlen))
  have hne : ¬s.eng.rdBeat.toNat + 1 = B := Nat.ne_of_lt hend
  rw [ReadSys.next_take hreq hst ht hv (h.complete_eq hreq) h.txn]
  simp only [ReadSys.Inv, hreq, hleft, hne, if_false]
  refine ⟨hret, hlen, h.addr, h.lines, h.done, ?_, ?_, ?_, ?_, ?_, ?_⟩
  · simp only [hadd]
    exact hend
  · simp only [hadd, ← Nat.add_assoc, RReq.beatAddr_succ]
    rfl
  · simp only [hadd]
    exact h.length_takenSeen
  · simp only [hadd]
    exact fun b hb => h.part_take hdvd b (Nat.lt_succ_iff.1 hb)
  · simp [h.got, hne]
  · simp [hne]

theorem ReadSys.inv_next_data (hdvd : B * (16 / B) = 16) (h : s.Inv) (hreq : s.req = some r)
    (hst : s.eng.rdState = .RD_DATA) (ht : s.eng.rdTimeout TIMEOUT_LIMIT = false) :
    (s.next TIMEOUT_LIMIT i).Inv := by
  simp only [ReadSys.Inv, hreq, hst] at h
  obtain ⟨hret, hlen, h⟩ := h
  cases hv : i.mAxiRvalid with
  | false =>
    rw [ReadSys.next_wait hreq hst ht hv (h.complete_eq hreq)]
    simp only [ReadSys.Inv, hreq, hst]
    exact ⟨hret, hlen, h.addr, h.lines, h.done, h.beat, h.txn, h.seen, h.part, h.got, nofun⟩
  | true =>
    rcases Nat.lt_or_eq_of_le h.beat with hend | hend
    · exact ReadSys.inv_take_beat hdvd h hreq hst ht hv hret hlen hend
    · rcases Nat.lt_or_eq_of_le h.done with hlast | hlast
      · exact ReadSys.inv_take_line hdvd h hreq hst ht hv hret hlen hend hlast
      · exact ReadSys.inv_take_last hdvd h hreq hst ht hv hret hlen hend hlast

theorem ReadSys.inv_of_isReset (h : s.IsReset) : s.Inv := by
  obtain ⟨⟨hst, -, -, -, -, hready, -, hret, -, -, -⟩, htx, hreq, hgot, hseen⟩ := h
  simp only [ReadSys.Inv, hreq]
  exact ⟨hret, hst, hready, htx, hgot, hseen⟩

/-- An edge that abandons no transaction keeps the invariant. -/
theorem ReadSys.inv_next (hdvd : B * (16 / B) = 16) (h : s.Inv)
    (hlen : ∀ r ∈ i.start, B * r.count ≤ 256) (ht : s.eng.rdTimeout TIMEOUT_LIMIT = false) :
    (s.next TIMEOUT_LIMIT i).Inv := by
  have hB : 0 < B := Nat.pos_of_ne_zero fun h0 => by simp [h0] at hdvd
  rcases hreq : s.req with _ | r
  · exact ReadSys.inv_next_none h hreq hlen
  · cases hst : s.eng.rdState with
    | RD_IDLE => exact ReadSys.inv_next_idle h hreq hst
    | RD_ADDR => exact ReadSys.inv_next_addr hB h hreq hst ht
    | RD_DATA => exact ReadSys.inv_next_data hdvd h hreq hst ht
    | RD_DONE => exact ReadSys.inv_next_done h hreq hst

/-! ## Every request is served -/

namespace ReadSys

/-- A line that is delivered is the next one of the request. -/
theorem Inv.line_eq (h : s.Inv) (hreq : s.req = some r) (hr : s.eng.rdReady = true) :
    s.got < r.count ∧ s.IsLine s.got s.eng.rdRline := by
  simp only [Inv, hreq] at h
  obtain ⟨-, -, h⟩ := h
  cases hst : s.eng.rdState with
  | RD_IDLE =>
    rw [hst] at h
    exact absurd (h.2.1.symm.trans hr) nofun
  | RD_ADDR =>
    rw [hst] at h
    exact absurd (h.2.2.2.2.1.symm.trans hr) nofun
  | RD_DATA =>
    rw [hst] at h
    exact ⟨Nat.lt_of_le_of_lt (Nat.le_of_add_right_le (Nat.le_of_eq h.got)) h.done, (h.ready hr).2⟩
  | RD_DONE =>
    rw [hst] at h
    exact ⟨Nat.lt_of_lt_of_eq (Nat.lt_succ_self _) h.2.2.1, h.2.2.2⟩

/-- The address offered is that of the burst of all the lines. -/
theorem Inv.burst_eq (hB : 0 < B) (h : s.Inv) (hreq : s.req = some r) (hst : s.eng.rdState = .RD_ADDR) :
    s.eng.mAxiAraddr = r.base ∧ (s.eng.mAxiArlen B).toNat + 1 = B * r.count := by
  simp only [Inv, hreq, hst] at h
  obtain ⟨-, hlen, haddr, hlines, hdone, -⟩ := h
  exact ⟨by simp [RdRegs.mAxiAraddr, RdRegs.rdBase, hdone, haddr, RReq.base],
    toNat_mAxiArlen hB hlen hlines hdone⟩

/-- What is left of a request: the beats, and the cycles until the next timeout. -/
def rank (s : ReadSys B) : ℕ :=
  (match s.eng.rdState with
    | .RD_IDLE => B * 256 + 3
    | .RD_ADDR => B * 256 + 2
    | .RD_DATA => B * 256 + 1 - s.beatNo
    | .RD_DONE => 0) * 2 ^ 16 + (2 ^ 16 - 1 - s.eng.rdTmo.toNat)

end ReadSys

/-- The timeout counter counts up to the timeout. -/
theorem RdRegs.toNat_rdTmo_succ {e : RdRegs} (ht : e.rdTimeout TIMEOUT_LIMIT = false)
    (he : e.rdEligible = true) : (e.rdTmo + 1).toNat = e.rdTmo.toNat + 1 ∧
    e.rdTmo.toNat + 1 < 2 ^ 16 := by
  rw [RdRegs.rdTimeout, he, Bool.true_and, decide_eq_false_iff_not, BitVec.not_le] at ht
  have hlt : e.rdTmo.toNat + 1 < 2 ^ 16 := Nat.lt_of_le_of_lt ht TIMEOUT_LIMIT.isLt
  exact ⟨BitVec.toNat_add_of_lt hlt, hlt⟩

theorem ReadSys.Reading.beatNo_lt (h : s.Reading r) : s.beatNo < B * 256 := by
  have hcount : r.count < 256 := BitVec.isLt _
  calc s.beatNo < B * s.eng.rdDoneLines.toNat + B := Nat.add_lt_add_left h.beat _
    _ = B * (s.eng.rdDoneLines.toNat + 1) := (Nat.mul_succ _ _).symm
    _ ≤ B * 256 := Nat.mul_le_mul_left _ (Nat.le_trans h.done (Nat.le_of_lt hcount))

/-- A beat that is not the last one moves the count of the beats. -/
theorem ReadSys.Reading.beatNo_next (h : s.Reading r) (hreq : s.req = some r)
    (hst : s.eng.rdState = .RD_DATA) (ht : s.eng.rdTimeout TIMEOUT_LIMIT = false)
    (hv : i.mAxiRvalid = true) (hn : (s.next TIMEOUT_LIMIT i).Reading r) :
    (s.next TIMEOUT_LIMIT i).beatNo = s.beatNo + 1 := by
  have hseen := hn.seen
  have hnext : (s.next TIMEOUT_LIMIT i).seen = s.takenSeen i r := by
    rw [ReadSys.next_take hreq hst ht hv (h.complete_eq hreq) h.txn]
    rfl
  rw [hnext, h.length_takenSeen] at hseen
  exact hseen.symm

/-- A transaction that is not abandoned makes progress. -/
theorem ReadSys.rank_next (hdvd : B * (16 / B) = 16) (h : s.Inv) (hreq : s.req = some r)
    (ht : s.eng.rdTimeout TIMEOUT_LIMIT = false) (hc : s.complete = false) :
    (s.next TIMEOUT_LIMIT i).rank < s.rank := by
  have h' := h
  simp only [ReadSys.Inv, hreq] at h'
  obtain ⟨hret, hlen, h'⟩ := h'
  cases hst : s.eng.rdState with
  | RD_IDLE =>
    rw [hst] at h'
    obtain ⟨hserved, hready, htx, -, -⟩ := h'
    rw [ReadSys.next_idle hreq hst hserved hret hready htx]
    simp only [ReadSys.rank, hst]
    omega
  | RD_ADDR =>
    -- Waiting for ARREADY spends the watchdog, the handshake enters the data phase.
    rw [hst] at h'
    obtain ⟨-, -, hdone, hbeat, hready, htx, -, -⟩ := h'
    have htmo := RdRegs.toNat_rdTmo_succ ht (by simp [RdRegs.rdEligible, hst])
    rw [ReadSys.next_addr hreq hst ht hready htx]
    cases i.mAxiArready with
    | true =>
      simp only [ReadSys.rank, ReadSys.beatNo, hst, if_true]
      omega
    | false =>
      simp only [ReadSys.rank, hst, htmo.1, Bool.false_eq_true, if_false]
      omega
  | RD_DATA =>
    rw [hst] at h'
    have htmo := RdRegs.toNat_rdTmo_succ ht (by simp [RdRegs.rdEligible, hst])
    have hlt := h'.beatNo_lt
    cases hv : i.mAxiRvalid with
    | false =>
      rw [ReadSys.next_wait hreq hst ht hv hc]
      simp only [ReadSys.rank, ReadSys.beatNo, hst, htmo.1] at hlt ⊢
      omega
    | true =>
      -- A beat is one step nearer to the end; the last one leaves the data phase.
      have hn := ReadSys.inv_next_data (i := i) hdvd h hreq hst ht
      have hnext := ReadSys.next_take hreq hst ht hv hc h'.txn
      have hreq' : (s.next TIMEOUT_LIMIT i).req = some r := by rw [hnext, ← hreq]
      rw [ReadSys.Inv, hreq'] at hn
      by_cases hleft : B * r.count - (B * s.eng.rdDoneLines.toNat + s.eng.rdBeat.toNat) = 1
      · have hst' : (s.next TIMEOUT_LIMIT i).eng.rdState = .RD_DONE := by rw [hnext, if_pos hleft]
        simp only [ReadSys.rank, hst, hst']
        omega
      · have hst' : (s.next TIMEOUT_LIMIT i).eng.rdState = .RD_DATA := by rw [hnext, if_neg hleft]
        simp only [hst'] at hn
        have hbeat := h'.beatNo_next hreq hst ht hv hn.2.2
        simp only [ReadSys.rank, hst, hst', hbeat]
        omega
  | RD_DONE =>
    -- A read that is done has all its lines, against `hc`.
    rw [hst] at h'
    obtain ⟨hready, -, hgot, -⟩ := h'
    simp [ReadSys.complete, hreq, hready, hgot] at hc

end AxiRw

end Rv32Soc
