import Mathlib.Data.Prod.Lex
import Rv32Soc.Axi.ArbiterRw
import Rv32Soc.Axi.ReadChannel
import Rv32Soc.Axi.WriteChannel

/-!
# Line transport

`mem_arbiter_rw.v` over `axi_rw_engine.v` on a bus of 64 bits, between the caches and
the accelerator on one side and an AXI4 memory on the other. A requester holds its
request until it is complete: the caches have one request of one line at a time, the
accelerator may have a read and a write of several lines each. What the accelerator
drives on the ports of a request that is being served is ignored, and is arbitrary
here. The memory accepts addresses and moves beats whenever it likes.

Each request is followed by a record, of the addresses accepted while it is served, of
the beats read or the lines asked for, and of the lines delivered to its requester.
Seen from either engine, the arbiter and the requesters are one requester
(`Transport.readSys_next`, `Transport.writeSys_next`), so that the invariants of the
two channels carry over; as long as no timeout fires every request is complete in the
end, with one burst and with all its lines in order (`transport_of_isRun`).
-/

namespace Rv32Soc

namespace AxiRw

/-- A read at its requester: the request, the bursts read for it, what the memory held at
    the place of each beat of the request when that beat was transferred, and the lines
    delivered. -/
structure ReadRec where
  req : RReq
  ars : List (Word × BitVec 8)
  seen : List (Beat 2)
  got : List Line

/-- A write at its requester: the request, the bursts written for it, and the lines
    asked for after the first. -/
structure WriteRec where
  req : WReq
  aws : List (Word × BitVec 8)
  pos : ℕ

def ReadRec.fresh (r : RReq) : ReadRec := ⟨r, [], [], []⟩
def WriteRec.fresh (r : WReq) : WriteRec := ⟨r, [], 0⟩

/-- The arbiter, the engines, the memory with the transactions it serves, the requests
    at the requesters, and what the memory was when the write served was granted. -/
structure Transport where
  arb : ArbRegs
  rd : RdRegs
  wr : WrRegs
  mem : Mem
  rtxn : Option (Word × ℕ)
  wtxn : Option Word
  reads : RPort → Option ReadRec
  writes : WPort → Option WriteRec
  mem0 : Mem

/-- What the requesters ask for when they have no request, what the accelerator drives
    while it is served, and what the memory accepts and answers. -/
structure TransportInputs where
  startRd : RPort → Option RReq
  startWr : WPort → Option WReq
  accelRd : Option RReq
  accelWr : Option (Word × BitVec 8)
  mAxiArready : Bool
  mAxiRvalid : Bool
  mAxiAwready : Bool
  mAxiWready : Bool
  mAxiBvalid : Bool

namespace Transport

variable (TIMEOUT_LIMIT : BitVec 16) (s : Transport) (i : TransportInputs)

/-- The accelerator's read request as it stands on its port. -/
def accelRdReq : Option RReq :=
  if s.arb.rState = some .A then i.accelRd else (s.reads .A).map (·.req)

/-- The accelerator's write request as it stands on its port. -/
def accelWrReq : Option (Word × BitVec 8) :=
  if s.arb.wState = some .A then i.accelWr else (s.writes .A).map fun w => (w.req.addr, w.req.lines)

/-- The line that a requester presents. -/
def wline (p : WPort) : Line := ((s.writes p).map fun w => w.req.line w.pos).getD 0

def arbIn : ArbInputs where
  icacheReqValid := (s.reads .I).isSome
  icacheReqAddr := ((s.reads .I).map (·.req.addr)).getD 0
  dcacheReqValid := (s.reads .D).isSome || (s.writes .D).isSome
  dcacheReqWrite := (s.writes .D).isSome
  dcacheReqAddr := ((s.writes .D).map (·.req.addr)).getD (((s.reads .D).map (·.req.addr)).getD 0)
  dcacheWline := s.wline .D
  accelRdReqValid := (s.accelRdReq i).isSome
  accelRdReqAddr := ((s.accelRdReq i).map RReq.addr).getD 0
  accelRdReqLines := ((s.accelRdReq i).map RReq.lines).getD 0
  accelWrReqValid := (s.accelWrReq i).isSome
  accelWrReqAddr := ((s.accelWrReq i).map (·.1)).getD 0
  accelWrReqLines := ((s.accelWrReq i).map (·.2)).getD 0
  accelWline := s.wline .A
  rdReady := s.rd.rdReady
  wrNext := s.wr.wrNext
  wrReady := s.wr.wrReady

def rdIn : RdInputs 2 where
  rdReqValid := s.arb.rdReqValid
  rdReqAddr := s.arb.rdReqAddr
  rdReqLines := s.arb.rdReqLines
  mAxiArready := i.mAxiArready
  mAxiRdata := (s.rtxn.map fun t => s.mem.part (16 / 2) t.1).getD 0
  mAxiRvalid := i.mAxiRvalid && s.rtxn.isSome
  mAxiRlast := (s.rtxn.map fun t => t.2 == 1).getD false

def wrIn : WrInputs where
  wrReqValid := s.arb.wrReqValid
  wrReqAddr := s.arb.wrReqAddr
  wrReqLines := s.arb.wrReqLines
  wrWline := s.arb.wrWline (s.arbIn i)
  mAxiAwready := i.mAxiAwready
  mAxiWready := i.mAxiWready
  mAxiBvalid := i.mAxiBvalid

/-! ## The requesters -/

/-- The port's line of a read is on `rd_rline`. -/
def rReady : RPort → Bool
  | .D => s.arb.dcacheReady (s.arbIn i)
  | .I => s.arb.icacheReady (s.arbIn i)
  | .A => s.arb.accelRdReady (s.arbIn i)

/-- The port's write is acknowledged. -/
def wReady : WPort → Bool
  | .D => s.arb.dcacheReady (s.arbIn i)
  | .A => s.arb.accelWrReady (s.arbIn i)

/-- The port is asked for its next line. -/
def wNext : WPort → Bool
  | .D => false
  | .A => s.arb.accelWnext (s.arbIn i)

/-- The last line of the port's read is delivered. -/
def rDone (p : RPort) : Bool :=
  (s.reads p).any fun r => s.rReady i p && r.got.length + 1 == r.req.count

/-- The port's write is complete. -/
def wDone (p : WPort) : Bool := (s.writes p).any fun _ => s.wReady i p

def rFree (p : RPort) : Bool := (s.reads p).isNone || s.rDone i p
def wFree (p : WPort) : Bool := (s.writes p).isNone || s.wDone i p

/-- An address is accepted on the read channel. -/
def arBeat : Bool := s.rd.mAxiArvalid && i.mAxiArready

/-- A beat is transferred on the read channel. -/
def rBeat : Bool := s.rd.mAxiRready && (i.mAxiRvalid && s.rtxn.isSome)

/-- An address is accepted on the write channel. -/
def awBeat : Bool := s.wr.mAxiAwvalid && i.mAxiAwready

/-- A beat is transferred on the write channel. -/
def wBeat : Bool := s.wr.mAxiWvalid && i.mAxiWready

/-- The record of the read of port `p` after an edge. -/
def nextRead (p : RPort) (r : ReadRec) : ReadRec where
  req := r.req
  ars :=
    if s.arb.rState = some p && s.arBeat i then r.ars ++ [(s.rd.mAxiAraddr, s.rd.mAxiArlen 2)] else r.ars
  seen :=
    if s.arb.rState = some p && s.rBeat i then
      r.seen ++ [s.mem.part (16 / 2) (r.req.beatAddr 2 r.seen.length)]
    else r.seen
  got := if s.rReady i p then r.got ++ [s.rd.rdRline] else r.got

/-- The record of the write of port `p` after an edge. -/
def nextWrite (p : WPort) (w : WriteRec) : WriteRec where
  req := w.req
  aws :=
    if s.arb.wState = some p && s.awBeat i then w.aws ++ [(s.wr.mAxiAwaddr, s.wr.mAxiAwlen 2)] else w.aws
  pos := w.pos + (s.wNext i p).toNat

/-- The request that port `p` may raise: the data cache has one at a time. -/
def raiseRd (p : RPort) : Option ReadRec :=
  if p = .D && !s.wFree i .D then none else (i.startRd p).map .fresh

def raiseWr (p : WPort) : Option WriteRec :=
  if p = .D && !s.rFree i .D then none else (i.startWr p).map .fresh

def next : Transport where
  arb := s.arb.next (s.arbIn i)
  rd := s.rd.next TIMEOUT_LIMIT (s.rdIn i)
  wr := s.wr.next 2 TIMEOUT_LIMIT (s.wrIn i)
  mem :=
    match s.wtxn with
    | some p => if s.wBeat i then s.mem.storePart p (s.wr.mAxiWdata 2 (s.wrIn i)) else s.mem
    | none => s.mem
  rtxn :=
    if s.rd.rdTimeout TIMEOUT_LIMIT then none
    else if s.arBeat i then some (s.rd.mAxiAraddr, (s.rd.mAxiArlen 2).toNat + 1)
    else if s.rBeat i then
      s.rtxn.bind fun t => if t.2 = 1 then none else some (t.1 + BitVec.ofNat 32 (16 / 2), t.2 - 1)
    else s.rtxn
  wtxn :=
    if s.wr.wrTimeout TIMEOUT_LIMIT then none
    else if s.awBeat i then some s.wr.mAxiAwaddr
    else if s.wBeat i then
      if s.wr.mAxiWlast 2 then none else s.wtxn.map (· + BitVec.ofNat 32 (16 / 2))
    else s.wtxn
  reads p := if s.rFree i p then s.raiseRd i p else (s.reads p).map (s.nextRead i p)
  writes p := if s.wFree i p then s.raiseWr i p else (s.writes p).map (s.nextWrite i p)
  mem0 := if s.arb.wState.isSome then s.mem0 else s.mem

def IsReset : Prop :=
  s.arb.IsReset ∧ s.rd.IsReset ∧ s.wr.IsReset ∧ s.rtxn = none ∧ s.wtxn = none ∧
    (∀ p, s.reads p = none) ∧ ∀ p, s.writes p = none

end Transport

/-- The requests fit: the caches move one line at a time, a burst at most 256 beats, and
    the data cache asks for a read or for a write. -/
structure TransportInputs.Fits (i : TransportInputs) : Prop where
  rd : ∀ p, ∀ r ∈ i.startRd p, 2 * r.count ≤ 256 ∧ (p ≠ .A → r.lines = 1)
  wr : ∀ p, ∀ r ∈ i.startWr p, 2 * r.count ≤ 256 ∧ (p ≠ .A → r.lines = 1)
  dcache : i.startRd .D = none ∨ i.startWr .D = none

/-- Line transport while no timeout fires. -/
def transport (TIMEOUT_LIMIT : BitVec 16) : Circuit Transport TransportInputs where
  init := {s | s.IsReset}
  admits s i := i.Fits ∧ s.rd.rdTimeout TIMEOUT_LIMIT = false ∧ s.wr.wrTimeout TIMEOUT_LIMIT = false
  next s i := s.next TIMEOUT_LIMIT i

namespace Transport

/-! ## The invariant -/

section

variable (s : Transport) (i : TransportInputs)

/-- The read channel as its engine sees it. -/
def readSys : ReadSys 2 where
  eng := s.rd
  txn := s.rtxn
  req := s.arb.rState.map fun _ => ⟨s.arb.rAddr, s.arb.rLines⟩
  got := ((s.arb.rState.bind s.reads).map (·.got.length)).getD 0
  seen := ((s.arb.rState.bind s.reads).map (·.seen)).getD []

def readIn : ReadInputs where
  start := (s.arb.rGrant (s.arbIn i)).map fun p =>
    ⟨ArbRegs.rReqAddr (s.arbIn i) p, ArbRegs.rReqLines (s.arbIn i) p⟩
  mAxiArready := i.mAxiArready
  mAxiRvalid := i.mAxiRvalid
  mem := s.mem

/-- The write channel as its engine sees it. -/
def writeSys : WriteSys where
  eng := s.wr
  mem := s.mem
  txn := s.wtxn
  req := (s.arb.wState.bind s.writes).map fun w => ⟨s.arb.wAddr, s.arb.wLines, w.req.line⟩
  pos := ((s.arb.wState.bind s.writes).map (·.pos)).getD 0
  mem0 := s.mem0

def writeIn : WriteInputs where
  start := (s.arb.wGrant (s.arbIn i)).bind fun p => (s.writes p).map fun w =>
    ⟨ArbRegs.wReqAddr (s.arbIn i) p, ArbRegs.wReqLines (s.arbIn i) p, w.req.line⟩
  mAxiAwready := i.mAxiAwready
  mAxiWready := i.mAxiWready
  mAxiBvalid := i.mAxiBvalid

/-- The arbiter and the requesters agree on the requests that are served; nothing has
    been done for the others. -/
structure Link : Prop where
  rServed : ∀ p, s.arb.rState = some p → ∃ r, s.reads p = some r ∧ s.arb.rAddr = r.req.addr ∧
    s.arb.rLines = (if r.req.lines = 0 then 1 else r.req.lines) ∧
    (p = .A → s.arb.rCount.toNat = r.got.length)
  rWaiting : ∀ p r, s.reads p = some r → s.arb.rState ≠ some p → r = .fresh r.req
  rFits : ∀ p r, s.reads p = some r → 2 * r.req.count ≤ 256 ∧ (p ≠ .A → r.req.lines = 1)
  wServed : ∀ p, s.arb.wState = some p → ∃ w, s.writes p = some w ∧ s.arb.wAddr = w.req.addr ∧
    s.arb.wLines = (if w.req.lines = 0 then 1 else w.req.lines) ∧ s.arb.wLineLatched = w.req.line 0
  wWaiting : ∀ p w, s.writes p = some w → s.arb.wState ≠ some p → w = .fresh w.req
  wFits : ∀ p w, s.writes p = some w → 2 * w.req.count ≤ 256 ∧ (p ≠ .A → w.req.lines = 1)
  dcache : s.reads .D = none ∨ s.writes .D = none

end

variable {TIMEOUT_LIMIT : BitVec 16} {s : Transport} {i : TransportInputs}

theorem readSys_idle (hp : s.arb.rState = none) : s.readSys = ⟨s.rd, s.rtxn, none, 0, []⟩ := by
  simp [readSys, hp]

theorem readSys_busy {p : RPort} {r : ReadRec} (hp : s.arb.rState = some p) (hr : s.reads p = some r) :
    s.readSys = ⟨s.rd, s.rtxn, some ⟨s.arb.rAddr, s.arb.rLines⟩, r.got.length, r.seen⟩ := by
  simp [readSys, hp, hr]

/-! ## The requesters of the read channel -/

/-- A line reaches the requester that is served, and no other. -/
theorem Link.rReady_eq (h : s.Link) {p : RPort} {r : ReadRec} (hr : s.reads p = some r) :
    s.rReady i p = (decide (s.arb.rState = some p) && s.rd.rdReady) := by
  cases p with
  | D =>
    have hw : s.arb.wState ≠ some .D := fun hw => by
      obtain ⟨w, hw, -⟩ := h.wServed _ hw
      rcases h.dcache with h | h <;> simp_all
    simp [rReady, ArbRegs.dcacheReady, arbIn, hw]
  | I => rfl
  | A => rfl

/-- A request that waits is left as it is. -/
theorem Link.reads_next_waiting (h : s.Link) {p : RPort} {r : ReadRec} (hr : s.reads p = some r)
    (hp : s.arb.rState ≠ some p) : (s.next TIMEOUT_LIMIT i).reads p = some r := by
  have hready : s.rReady i p = false := by simp [h.rReady_eq hr, hp]
  simp [next, rFree, rDone, hr, hready, nextRead, hp]

theorem reads_next_none {p : RPort} (hr : s.reads p = none) :
    (s.next TIMEOUT_LIMIT i).reads p = s.raiseRd i p := by
  simp [next, rFree, hr]

/-- The number of lines the engine is asked for is that of the request. -/
theorem count_served {r : RReq} {a : Word} {l : BitVec 8} (hl : l = if r.lines = 0 then 1 else r.lines) :
    RReq.count ⟨a, l⟩ = r.count := by
  subst hl
  by_cases h0 : r.lines = 0
  · simp [RReq.count, h0]
  · rw [RReq.count, RReq.count, if_neg h0, if_neg h0]

theorem Link.rDone_eq (h : s.Link) {p : RPort} {r : ReadRec} (hp : s.arb.rState = some p)
    (hr : s.reads p = some r) : s.rDone i p = s.readSys.complete := by
  obtain ⟨r', hr', -, hl, -⟩ := h.rServed p hp
  obtain rfl : r = r' := Option.some_inj.1 (hr.symm.trans hr')
  simp [rDone, hr, h.rReady_eq hr, hp, readSys, ReadSys.complete, count_served hl]

/-- The arbiter releases the channel with the last line. -/
theorem Link.rRelease_eq (h : s.Link) (hi : s.readSys.Inv) {p : RPort} (hp : s.arb.rState = some p) :
    s.arb.rRelease (s.arbIn i) = s.readSys.complete := by
  obtain ⟨r, hr, -, hl, hcnt⟩ := h.rServed p hp
  have hfits := h.rFits p r hr
  have hreq : s.readSys.req = some ⟨s.arb.rAddr, s.arb.rLines⟩ := by simp [readSys, hp]
  have hgot : s.readSys.got = r.got.length := by simp [readSys, hp, hr]
  have hcomp : s.readSys.complete = (s.rd.rdReady && r.got.length + 1 == r.req.count) := by
    rw [ReadSys.complete, hreq, Option.map_some, Option.getD_some, count_served hl, hgot]
    rfl
  have hlt : s.rd.rdReady = true → r.got.length < r.req.count := fun hready => by
    have := (hi.line_eq hreq hready).1
    rwa [hgot, count_served hl] at this
  rw [hcomp, ArbRegs.rRelease, hp]
  cases hready : s.rd.rdReady with
  | false => cases p <;> simp [arbIn, hready]
  | true =>
    have hlt := hlt hready
    -- Port A counts its lines; the caches ask for one line and are released by its pulse.
    by_cases hA : p = .A
    · subst hA
      have hc : r.req.count = s.arb.rLines.toNat := by rw [hl, RReq.count]
      have hadd : (s.arb.rCount + 1).toNat = r.got.length + 1 := by
        rw [← hcnt rfl]
        exact BitVec.toNat_add_of_lt (by rw [hcnt rfl, show (1 : BitVec 8).toNat = 1 from rfl]; omega)
      have hle : decide (s.arb.rLines ≤ s.arb.rCount + 1) = (r.got.length + 1 == r.req.count) := by
        rw [Bool.eq_iff_iff, decide_eq_true_iff, beq_iff_eq, BitVec.le_def, hadd, ← hc]
        omega
      simp only [arbIn, hready, Bool.true_and, hle]
    · have h1 : r.req.count = 1 := by rw [RReq.count, hfits.2 hA]; rfl
      have h0 : r.got.length = 0 := by omega
      cases p <;> simp_all [arbIn]

/-- The request granted is that of a requester that waits. -/
theorem Link.reads_of_rGrant (h : s.Link) (hidle : s.arb.rState = none) {p : RPort}
    (hg : s.arb.rGrant (s.arbIn i) = some p) :
    ∃ r, s.reads p = some r ∧ ArbRegs.rReqAddr (s.arbIn i) p = r.req.addr ∧
      ArbRegs.rReqLines (s.arbIn i) p = if r.req.lines = 0 then 1 else r.req.lines := by
  have hreq := rReq_of_rGrant hg
  cases p with
  | D =>
    simp only [ArbRegs.rReq, arbIn, Bool.and_eq_true, Bool.or_eq_true, Bool.not_eq_true',
      Option.isSome_eq_false_iff, Option.isNone_iff_eq_none] at hreq
    obtain ⟨hv, hw⟩ := hreq
    obtain ⟨r, hr⟩ := Option.isSome_iff_exists.1 (hv.resolve_right (by simp [hw]))
    refine ⟨r, hr, by simp [ArbRegs.rReqAddr, arbIn, hr, hw], ?_⟩
    rw [(h.rFits _ r hr).2 nofun]
    rfl
  | I =>
    obtain ⟨r, hr⟩ := Option.isSome_iff_exists.1 hreq
    refine ⟨r, hr, by simp [ArbRegs.rReqAddr, arbIn, hr], ?_⟩
    rw [(h.rFits _ r hr).2 nofun]
    rfl
  | A =>
    simp only [ArbRegs.rReq, arbIn, accelRdReq, hidle, reduceCtorEq, if_false, Option.isSome_map] at hreq
    obtain ⟨r, hr⟩ := Option.isSome_iff_exists.1 hreq
    exact ⟨r, hr, by simp [ArbRegs.rReqAddr, arbIn, accelRdReq, hidle, hr],
      by simp [ArbRegs.rReqLines, arbIn, accelRdReq, hidle, hr]⟩

theorem rdIn_eq : s.rdIn i = s.readSys.engIn (s.readIn i) := by
  cases hp : s.arb.rState <;>
    simp [rdIn, readSys, readIn, ReadSys.engIn, ArbRegs.rdReqValid, ArbRegs.rdReqAddr,
      ArbRegs.rdReqLines, hp]

variable (TIMEOUT_LIMIT) in
/-- The requester that is served moves on unless its request is complete. -/
theorem Link.reads_next_served (h : s.Link) {p : RPort} {r : ReadRec} (hp : s.arb.rState = some p)
    (hr : s.reads p = some r) :
    (s.next TIMEOUT_LIMIT i).reads p =
      if s.readSys.complete then s.raiseRd i p else some (s.nextRead i p r) := by
  simp [next, rFree, hr, h.rDone_eq hp hr]

variable (TIMEOUT_LIMIT) in
theorem rd_next :
    (s.next TIMEOUT_LIMIT i).rd = (s.readSys.next TIMEOUT_LIMIT (s.readIn i)).eng := by
  rw [next, rdIn_eq]
  rfl

variable (TIMEOUT_LIMIT) in
/-- While no requester is served the engine sees no request, or the one that is granted. -/
theorem readSys_next_idle (h : s.Link) (hp : s.arb.rState = none) :
    (s.next TIMEOUT_LIMIT i).readSys = s.readSys.next TIMEOUT_LIMIT (s.readIn i) := by
  have heng := rd_next TIMEOUT_LIMIT (s := s) (i := i)
  have hreq : s.readSys.req = none := by simp [readSys, hp]
  cases hg : s.arb.rGrant (s.arbIn i) with
  | none =>
    have hp' : (s.next TIMEOUT_LIMIT i).arb.rState = none := by simp [next, ArbRegs.next, hp, hg]
    refine ReadSys.ext heng rfl ?_ ?_ ?_
    · rw [readSys_idle hp']
      simp [ReadSys.next, hreq, readIn, hg]
    · rw [readSys_idle hp']
      simp [ReadSys.next, hreq]
    · rw [readSys_idle hp']
      simp [ReadSys.next, hreq]
  | some p =>
    -- The arbiter takes the request of `p` over, which has not begun.
    obtain ⟨r, hr, -, -⟩ := h.reads_of_rGrant hp hg
    have hp' : (s.next TIMEOUT_LIMIT i).arb.rState = some p := by simp [next, ArbRegs.next, hp, hg]
    have hr' : (s.next TIMEOUT_LIMIT i).reads p = some r := h.reads_next_waiting hr (by simp [hp])
    have hf := h.rWaiting p r hr (by simp [hp])
    refine ReadSys.ext heng rfl ?_ ?_ ?_
    · rw [readSys_busy hp' hr']
      simp [ReadSys.next, hreq, readIn, hg, next, ArbRegs.next]
    · rw [readSys_busy hp' hr', hf]
      simp [ReadSys.next, hreq, ReadRec.fresh]
    · rw [readSys_busy hp' hr', hf]
      simp [ReadSys.next, hreq, ReadRec.fresh]

variable (TIMEOUT_LIMIT) in
/-- While one is served the engine sees its request. -/
theorem readSys_next_busy (h : s.Link) (hi : s.readSys.Inv) {p : RPort} (hp : s.arb.rState = some p) :
    (s.next TIMEOUT_LIMIT i).readSys = s.readSys.next TIMEOUT_LIMIT (s.readIn i) := by
  have heng := rd_next TIMEOUT_LIMIT (s := s) (i := i)
  obtain ⟨r, hr, ha, hl, -⟩ := h.rServed p hp
  have hg : s.arb.rGrant (s.arbIn i) = none := rGrant_of_busy hp
  have hreq : s.readSys.req = some ⟨s.arb.rAddr, s.arb.rLines⟩ := by simp [readSys, hp]
  have hgot : s.readSys.got = r.got.length := by simp [readSys, hp, hr]
  have hseen : s.readSys.seen = r.seen := by simp [readSys, hp, hr]
  have hrel := h.rRelease_eq (i := i) hi hp
  have hr' := h.reads_next_served TIMEOUT_LIMIT (i := i) hp hr
  cases hc : s.readSys.complete with
  | true =>
    -- The last line is served on this cycle, and the arbiter lets `p` go.
    have hp' : (s.next TIMEOUT_LIMIT i).arb.rState = none := by
      simp [next, ArbRegs.next, hp, hrel, hc]
    refine ReadSys.ext heng rfl ?_ ?_ ?_
    · rw [readSys_idle hp']
      simp [ReadSys.next, hreq, hc]
    · rw [readSys_idle hp']
      simp [ReadSys.next, hreq, hc]
    · rw [readSys_idle hp']
      simp [ReadSys.next, hreq, hc]
  | false =>
    -- The engine and `p` count the same lines.
    have hp' : (s.next TIMEOUT_LIMIT i).arb.rState = some p := by
      simp [next, ArbRegs.next, hp, hrel, hc]
    rw [hc, if_neg Bool.false_ne_true] at hr'
    have hready := h.rReady_eq (i := i) hr
    refine ReadSys.ext heng rfl ?_ ?_ ?_
    · rw [readSys_busy hp' hr']
      simp [ReadSys.next, hreq, hc, next, ArbRegs.next, hg]
    · have hgot' : (s.next TIMEOUT_LIMIT i).readSys.got = r.got.length + s.rd.rdReady.toNat := by
        simp only [readSys, hp', Option.bind_some, hr', Option.map_some, Option.getD_some, nextRead]
        cases hr : s.rd.rdReady <;> simp [hready, hp, hr]
      simp only [ReadSys.next, hreq, hc, hgot, hgot', Option.isSome_some, Bool.not_false, Bool.and_self,
        if_true]
      rfl
    · have hseen' : (s.next TIMEOUT_LIMIT i).readSys.seen = (s.nextRead i p r).seen := by
        simp only [readSys, hp', Option.bind_some, hr', Option.map_some, Option.getD_some]
      have hbase : ∀ j, RReq.beatAddr 2 ⟨s.arb.rAddr, s.arb.rLines⟩ j = r.req.beatAddr 2 j := fun j => by
        simp [RReq.beatAddr, RReq.base, ha]
      simp only [ReadSys.next, hreq, hc, hseen, hseen', Option.isSome_some,
        Bool.not_false, Bool.and_self,
        if_true, nextRead, hp, decide_true, Bool.true_and, Option.map_some, Option.toList_some, hbase]
      rfl

variable (TIMEOUT_LIMIT) in
/-- Seen from the engine, the arbiter and the requesters are one requester. -/
theorem readSys_next (h : s.Link) (hi : s.readSys.Inv) :
    (s.next TIMEOUT_LIMIT i).readSys = s.readSys.next TIMEOUT_LIMIT (s.readIn i) := by
  cases hp : s.arb.rState with
  | none => exact readSys_next_idle TIMEOUT_LIMIT h hp
  | some p => exact readSys_next_busy TIMEOUT_LIMIT h hi hp

variable (TIMEOUT_LIMIT) in
theorem rState_next_busy (h : s.Link) (hi : s.readSys.Inv) {p : RPort} (hp : s.arb.rState = some p) :
    (s.next TIMEOUT_LIMIT i).arb.rState = if s.readSys.complete then none else some p := by
  simp [next, ArbRegs.next, hp, h.rRelease_eq (i := i) hi hp]

variable (TIMEOUT_LIMIT) in
theorem rState_next_idle (hp : s.arb.rState = none) :
    (s.next TIMEOUT_LIMIT i).arb.rState = s.arb.rGrant (s.arbIn i) := by
  simp [next, ArbRegs.next, hp]

theorem raiseRd_eq_some {p : RPort} {r : ReadRec} (h : s.raiseRd i p = some r) :
    ∃ q ∈ i.startRd p, r = .fresh q := by
  rw [raiseRd] at h
  split at h
  · cases h
  · obtain ⟨q, hq, rfl⟩ := Option.map_eq_some_iff.1 h
    exact ⟨q, hq, rfl⟩

/-- The reads after an edge: a new one, one that waits, or the one that is served. -/
theorem Link.reads_next (h : s.Link) (hi : s.readSys.Inv) {p : RPort} {r' : ReadRec}
    (hr' : (s.next TIMEOUT_LIMIT i).reads p = some r') :
    ((∃ q ∈ i.startRd p, r' = .fresh q) ∧ (s.next TIMEOUT_LIMIT i).arb.rState ≠ some p ∧
        s.raiseRd i p = some r' ∧ s.rFree i p = true) ∨
      (s.reads p = some r' ∧ s.arb.rState ≠ some p) ∨
      (∃ r, s.reads p = some r ∧ s.arb.rState = some p ∧ s.readSys.complete = false ∧
        r' = s.nextRead i p r ∧ (s.next TIMEOUT_LIMIT i).arb.rState = some p) := by
  cases hr : s.reads p with
  | none =>
    -- A port without a read can only raise one, and the grant looks at raised reads only.
    rw [reads_next_none hr] at hr'
    refine .inl ⟨raiseRd_eq_some hr', fun hp' => ?_, hr', by simp [rFree, hr]⟩
    cases hp : s.arb.rState with
    | none =>
      rw [rState_next_idle _ hp] at hp'
      obtain ⟨r, hr2, -⟩ := h.reads_of_rGrant hp hp'
      exact absurd (hr.symm.trans hr2) nofun
    | some q =>
      -- A port that is served has a read.
      rw [rState_next_busy _ h hi hp] at hp'
      split at hp'
      · cases hp'
      · cases hp'
        obtain ⟨r, hr2, -⟩ := h.rServed p hp
        exact absurd (hr.symm.trans hr2) nofun
  | some r =>
    by_cases hp : s.arb.rState = some p
    · rw [h.reads_next_served _ hp hr] at hr'
      have hst := rState_next_busy TIMEOUT_LIMIT (i := i) h hi hp
      cases hc : s.readSys.complete with
      | true =>
        -- The last line ends the read, and the port may raise another on the same edge.
        rw [hc, if_pos rfl] at hr' hst
        exact .inl ⟨raiseRd_eq_some hr', by simp [hst], hr', by simp [rFree, h.rDone_eq hp hr, hc]⟩
      | false =>
        rw [hc, if_neg Bool.false_ne_true] at hr' hst
        exact .inr (.inr ⟨r, rfl, hp, rfl, (Option.some_inj.1 hr').symm, hst⟩)
    · rw [h.reads_next_waiting hr hp] at hr'
      exact .inr (.inl ⟨hr', hp⟩)

theorem Link.rServed_next (h : s.Link) (hi : s.readSys.Inv) {p : RPort}
    (hp' : (s.next TIMEOUT_LIMIT i).arb.rState = some p) :
    ∃ r, (s.next TIMEOUT_LIMIT i).reads p = some r ∧ (s.next TIMEOUT_LIMIT i).arb.rAddr = r.req.addr ∧
      (s.next TIMEOUT_LIMIT i).arb.rLines = (if r.req.lines = 0 then 1 else r.req.lines) ∧
      (p = .A → (s.next TIMEOUT_LIMIT i).arb.rCount.toNat = r.got.length) := by
  cases hp : s.arb.rState with
  | none =>
    -- A grant latches the address and the lines of the read that is granted.
    rw [rState_next_idle _ hp] at hp'
    obtain ⟨r, hr, ha, hl⟩ := h.reads_of_rGrant hp hp'
    have hf := h.rWaiting p r hr (by simp [hp])
    refine ⟨r, h.reads_next_waiting hr (by simp [hp]), ?_, ?_, fun _ => ?_⟩
    · simp [next, ArbRegs.next, hp', ha]
    · simp [next, ArbRegs.next, hp', hl]
    · rw [hf]
      simp [next, ArbRegs.next, hp, ReadRec.fresh]
  | some q =>
    -- A port that stays served keeps what was latched, and its line counter follows the pulses.
    rw [rState_next_busy _ h hi hp] at hp'
    split at hp'
    · cases hp'
    · next hc =>
      cases hp'
      obtain ⟨r, hr, ha, hl, hcnt⟩ := h.rServed p hp
      have hg : s.arb.rGrant (s.arbIn i) = none := rGrant_of_busy hp
      have hr' := h.reads_next_served TIMEOUT_LIMIT (i := i) hp hr
      rw [if_neg hc] at hr'
      refine ⟨_, hr', by simp [next, ArbRegs.next, hg, ha, nextRead],
        by simp [next, ArbRegs.next, hg, hl, nextRead], fun hA => ?_⟩
      subst hA
      have hrel := (h.rRelease_eq (i := i) hi hp).trans (Bool.not_eq_true _ ▸ hc)
      have hready := h.rReady_eq (i := i) hr
      cases hrdy : s.rd.rdReady with
      | false =>
        simp [next, ArbRegs.next, nextRead, hp, hready, hrdy, arbIn, hcnt]
      | true =>
        have hlt := (hi.line_eq (r := ⟨s.arb.rAddr, s.arb.rLines⟩) (by simp [readSys, hp]) hrdy).1
        rw [count_served hl, readSys_busy hp hr] at hlt
        dsimp only at hlt
        have hfits := (h.rFits _ r hr).1
        have hadd : (s.arb.rCount + 1).toNat = r.got.length + 1 := by
          rw [← hcnt rfl]
          exact BitVec.toNat_add_of_lt (by rw [hcnt rfl, show (1 : BitVec 8).toNat = 1 from rfl]; omega)
        have hcnt' : (s.next TIMEOUT_LIMIT i).arb.rCount = s.arb.rCount + 1 := by
          simp only [next, ArbRegs.next, hp, hrel]
          simp [arbIn, hrdy]
        rw [hcnt', hadd]
        simp [nextRead, hready, hp, hrdy]

/-! ## The requesters of the write channel -/

theorem writeSys_idle (hp : s.arb.wState = none) :
    s.writeSys = ⟨s.wr, s.mem, s.wtxn, none, 0, s.mem0⟩ := by
  simp [writeSys, hp]

theorem writeSys_busy {p : WPort} {w : WriteRec} (hp : s.arb.wState = some p)
    (hw : s.writes p = some w) :
    s.writeSys =
      ⟨s.wr, s.mem, s.wtxn, some ⟨s.arb.wAddr, s.arb.wLines, w.req.line⟩, w.pos, s.mem0⟩ := by
  simp [writeSys, hp, hw]

/-- An acknowledgement reaches the requester that is served, and no other. -/
theorem Link.wReady_eq (h : s.Link) {p : WPort} {w : WriteRec} (hw : s.writes p = some w) :
    s.wReady i p = (decide (s.arb.wState = some p) && s.wr.wrReady) := by
  cases p with
  | D =>
    have hr : s.arb.rState ≠ some .D := fun hr => by
      obtain ⟨r, hr, -⟩ := h.rServed _ hr
      rcases h.dcache with h | h <;> simp_all
    simp [wReady, ArbRegs.dcacheReady, arbIn, hr]
  | A => rfl

theorem Link.wDone_eq (h : s.Link) {p : WPort} {w : WriteRec} (hp : s.arb.wState = some p)
    (hw : s.writes p = some w) : s.wDone i p = s.wr.wrReady := by
  simp [wDone, hw, h.wReady_eq hw, hp]

theorem Link.writes_next_waiting (h : s.Link) {p : WPort} {w : WriteRec} (hw : s.writes p = some w)
    (hp : s.arb.wState ≠ some p) : (s.next TIMEOUT_LIMIT i).writes p = some w := by
  have hready : s.wReady i p = false := by simp [h.wReady_eq hw, hp]
  have hnext : s.wNext i p = false := by
    cases p with
    | D => rfl
    | A => simp [wNext, ArbRegs.accelWnext, hp]
  simp [next, wFree, wDone, hw, hready, nextWrite, hp, hnext]

theorem writes_next_none {p : WPort} (hw : s.writes p = none) :
    (s.next TIMEOUT_LIMIT i).writes p = s.raiseWr i p := by
  simp [next, wFree, hw]

variable (TIMEOUT_LIMIT) in
theorem Link.writes_next_served (h : s.Link) {p : WPort} {w : WriteRec} (hp : s.arb.wState = some p)
    (hw : s.writes p = some w) :
    (s.next TIMEOUT_LIMIT i).writes p =
      if s.wr.wrReady then s.raiseWr i p else some (s.nextWrite i p w) := by
  simp [next, wFree, hw, h.wDone_eq hp hw]

/-- The request granted is that of a requester that waits. -/
theorem Link.writes_of_wGrant (h : s.Link) (hidle : s.arb.wState = none) {p : WPort}
    (hg : s.arb.wGrant (s.arbIn i) = some p) :
    ∃ w, s.writes p = some w ∧ ArbRegs.wReqAddr (s.arbIn i) p = w.req.addr ∧
      ArbRegs.wReqLines (s.arbIn i) p = (if w.req.lines = 0 then 1 else w.req.lines) ∧
      ArbRegs.wReqLine (s.arbIn i) p = w.req.line 0 := by
  have hreq := wReq_of_wGrant hg
  cases p with
  | D =>
    simp only [ArbRegs.wReq, arbIn, Bool.and_eq_true] at hreq
    obtain ⟨w, hw⟩ := Option.isSome_iff_exists.1 hreq.2
    have hf := h.wWaiting _ w hw (by simp [hidle])
    refine ⟨w, hw, by simp [ArbRegs.wReqAddr, arbIn, hw], ?_, ?_⟩
    · rw [(h.wFits _ w hw).2 nofun]
      rfl
    · simp only [ArbRegs.wReqLine, arbIn, wline, hw, Option.map_some, Option.getD_some]
      rw [hf]
      rfl
  | A =>
    simp only [ArbRegs.wReq, arbIn, accelWrReq, hidle, reduceCtorEq, if_false, Option.isSome_map] at hreq
    obtain ⟨w, hw⟩ := Option.isSome_iff_exists.1 hreq
    have hf := h.wWaiting _ w hw (by simp [hidle])
    refine ⟨w, hw, by simp [ArbRegs.wReqAddr, arbIn, accelWrReq, hidle, hw],
      by simp [ArbRegs.wReqLines, arbIn, accelWrReq, hidle, hw], ?_⟩
    simp only [ArbRegs.wReqLine, arbIn, wline, hw, Option.map_some, Option.getD_some]
    rw [hf]
    rfl

theorem count_served_wr {r : WReq} {a : Word} {l : BitVec 8} {f : ℕ → Line}
    (hl : l = if r.lines = 0 then 1 else r.lines) : WReq.count ⟨a, l, f⟩ = r.count := by
  subst hl
  by_cases h0 : r.lines = 0
  · simp [WReq.count, h0]
  · rw [WReq.count, WReq.count, if_neg h0, if_neg h0]

/-- The line the engine is given is the one the requester presents. -/
theorem Link.wrWline_eq (h : s.Link) (hi : s.writeSys.Inv 2) {p : WPort} {w : WriteRec}
    (hp : s.arb.wState = some p) (hw : s.writes p = some w) :
    s.arb.wrWline (s.arbIn i) = w.req.line w.pos := by
  obtain ⟨w', hw', -, hl, hlat⟩ := h.wServed p hp
  obtain rfl : w = w' := Option.some_inj.1 (hw.symm.trans hw')
  have hlt := hi.pos_lt (r := ⟨s.arb.wAddr, s.arb.wLines, w.req.line⟩) (by rw [writeSys_busy hp hw])
  rw [count_served_wr hl, writeSys_busy hp hw] at hlt
  have hc : w.req.count = s.arb.wLines.toNat := by rw [hl, WReq.count]
  rw [ArbRegs.wrWline]
  split
  · next hlive =>
    simp only [hp, Bool.and_eq_true, decide_eq_true_iff, Option.some_inj] at hlive
    obtain ⟨rfl, -⟩ := hlive
    simp [arbIn, wline, hw]
  · next hlive =>
    have hone : w.req.count = 1 := by
      by_cases hA : p = .A
      · subst hA
        simp only [hp, decide_true, Bool.true_and, decide_eq_true_iff, BitVec.lt_def, ← hc] at hlive
        have := count_pos w.req
        rw [show (1 : BitVec 8).toNat = 1 from rfl] at hlive
        omega
      · rw [WReq.count, (h.wFits p w hw).2 hA]
        rfl
    have hpos : w.pos = 0 := by
      rw [hone] at hlt
      exact Nat.eq_zero_of_add_eq_zero_right (Nat.lt_one_iff.1 hlt)
    rw [hlat, hpos]

theorem Link.wrIn_busy (h : s.Link) (hi : s.writeSys.Inv 2) {p : WPort} (hp : s.arb.wState = some p) :
    s.wrIn i = s.writeSys.engIn (s.writeIn i) := by
  obtain ⟨w, hw, -⟩ := h.wServed p hp
  rw [writeSys_busy hp hw]
  simp [wrIn, writeIn, WriteSys.engIn, ArbRegs.wrReqValid, ArbRegs.wrReqAddr, ArbRegs.wrReqLines, hp,
    h.wrWline_eq hi hp hw]

variable (TIMEOUT_LIMIT) in
/-- Without a request the engine rests, whatever is on its ports. -/
theorem wrIn_idle (hi : s.writeSys.Inv 2) (hp : s.arb.wState = none) :
    s.wr.next 2 TIMEOUT_LIMIT (s.wrIn i) = s.wr.next 2 TIMEOUT_LIMIT (s.writeSys.engIn (s.writeIn i)) ∧
      s.wr.wrState = .WR_IDLE := by
  rw [writeSys_idle hp] at hi ⊢
  have hst : s.wr.wrState = .WR_IDLE := hi.2.1
  refine ⟨?_, hst⟩
  simp [WrRegs.next, WrRegs.wrTimeout, WrRegs.wrEligible, WrRegs.wrNextS, WrRegs.wrStart, WrRegs.wrTake,
    WrRegs.wrLineEnd, WrRegs.wrEarly, hst, wrIn, writeIn, WriteSys.engIn, ArbRegs.wrReqValid, hp]

/-- The lines asked for reach the requester that is served. -/
theorem Link.wNext_eq (h : s.Link) (hi : s.writeSys.Inv 2) {p : WPort} {w : WriteRec}
    (hp : s.arb.wState = some p) (hw : s.writes p = some w) : s.wNext i p = s.wr.wrNext := by
  cases p with
  | A => simp [wNext, ArbRegs.accelWnext, hp, arbIn]
  | D =>
    -- A single line is all there is to present.
    obtain ⟨w', hw', -, hl, -⟩ := h.wServed _ hp
    obtain rfl : w = w' := Option.some_inj.1 (hw.symm.trans hw')
    have hlt := hi.pos_lt (r := ⟨s.arb.wAddr, s.arb.wLines, w.req.line⟩) (by rw [writeSys_busy hp hw])
    rw [count_served_wr hl, writeSys_busy hp hw, WReq.count, (h.wFits _ w hw).2 (by simp)] at hlt
    cases hn : s.wr.wrNext with
    | false => rfl
    | true =>
      rw [hn] at hlt
      exact absurd hlt (by simp)

variable (TIMEOUT_LIMIT) in
theorem wState_next_busy {p : WPort} (hp : s.arb.wState = some p) :
    (s.next TIMEOUT_LIMIT i).arb.wState = if s.wr.wrReady then none else some p := by
  simp [next, ArbRegs.next, hp, arbIn]

variable (TIMEOUT_LIMIT) in
theorem wState_next_idle (hp : s.arb.wState = none) :
    (s.next TIMEOUT_LIMIT i).arb.wState = s.arb.wGrant (s.arbIn i) := by
  simp [next, ArbRegs.next, hp]

variable (TIMEOUT_LIMIT) in
/-- While no requester is served the engine sees no request, or the one that is granted. -/
theorem writeSys_next_idle (h : s.Link) (hi : s.writeSys.Inv 2) (hp : s.arb.wState = none) :
    (s.next TIMEOUT_LIMIT i).writeSys = s.writeSys.next 2 TIMEOUT_LIMIT (s.writeIn i) := by
  obtain ⟨heng, hst⟩ := wrIn_idle TIMEOUT_LIMIT (i := i) hi hp
  have hreq : s.writeSys.req = none := by simp [writeSys, hp]
  have hmem : (s.next TIMEOUT_LIMIT i).mem = (s.writeSys.next 2 TIMEOUT_LIMIT (s.writeIn i)).mem := by
    simp only [next, WriteSys.next, wBeat, WriteSys.beat, WrRegs.mAxiWvalid]
    rw [writeSys_idle hp]
    cases s.wtxn <;> simp [hst]
  cases hg : s.arb.wGrant (s.arbIn i) with
  | none =>
    have hp' := (wState_next_idle TIMEOUT_LIMIT hp).trans hg
    refine WriteSys.ext heng hmem rfl ?_ ?_ ?_
    · rw [writeSys_idle hp']
      simp [WriteSys.next, hreq, writeIn, hg]
    · rw [writeSys_idle hp']
      simp [WriteSys.next, hreq]
    · simp [WriteSys.next, writeSys, next, hp]
  | some p =>
    -- The arbiter takes the request of `p` over, which has not begun.
    obtain ⟨w, hw, -, -, -⟩ := h.writes_of_wGrant hp hg
    have hp' := (wState_next_idle TIMEOUT_LIMIT hp).trans hg
    have hw' : (s.next TIMEOUT_LIMIT i).writes p = some w := h.writes_next_waiting hw (by simp [hp])
    have hf := h.wWaiting p w hw (by simp [hp])
    refine WriteSys.ext heng hmem rfl ?_ ?_ ?_
    · rw [writeSys_busy hp' hw']
      simp [WriteSys.next, hreq, writeIn, hg, hw, next, ArbRegs.next]
    · rw [writeSys_busy hp' hw', hf]
      simp [WriteSys.next, hreq, WriteRec.fresh]
    · simp [WriteSys.next, writeSys, next, hp]

variable (TIMEOUT_LIMIT) in
/-- While one is served the engine sees its request. -/
theorem writeSys_next_busy (h : s.Link) (hi : s.writeSys.Inv 2) {p : WPort}
    (hp : s.arb.wState = some p) :
    (s.next TIMEOUT_LIMIT i).writeSys = s.writeSys.next 2 TIMEOUT_LIMIT (s.writeIn i) := by
  obtain ⟨w, hw, -⟩ := h.wServed p hp
  have hin := h.wrIn_busy (i := i) hi hp
  have hg : s.arb.wGrant (s.arbIn i) = none := wGrant_of_busy hp
  have heng : (s.next TIMEOUT_LIMIT i).wr = (s.writeSys.next 2 TIMEOUT_LIMIT (s.writeIn i)).eng := by
    rw [next, hin]
    rfl
  have hmem : (s.next TIMEOUT_LIMIT i).mem = (s.writeSys.next 2 TIMEOUT_LIMIT (s.writeIn i)).mem := by
    rw [next, hin]
    rfl
  have hst := wState_next_busy TIMEOUT_LIMIT (i := i) hp
  have hreq : s.writeSys.req = some ⟨s.arb.wAddr, s.arb.wLines, w.req.line⟩ := by
    rw [writeSys_busy hp hw]
  have hpos : s.writeSys.pos = w.pos := by rw [writeSys_busy hp hw]
  have hw' := h.writes_next_served TIMEOUT_LIMIT (i := i) hp hw
  have hready : s.writeSys.eng.wrReady = s.wr.wrReady := rfl
  cases hc : s.wr.wrReady with
  | true =>
    -- The request is acknowledged on this cycle, and the arbiter lets `p` go.
    rw [hc, if_pos rfl] at hst
    refine WriteSys.ext heng hmem rfl ?_ ?_ ?_
    · rw [writeSys_idle hst]
      simp [WriteSys.next, hreq, hready, hc]
    · rw [writeSys_idle hst]
      simp [WriteSys.next, hready, hc]
    · simp [WriteSys.next, writeSys, next, hp, hw]
  | false =>
    -- The engine and `p` are at the same line.
    rw [hc, if_neg Bool.false_ne_true] at hst hw'
    refine WriteSys.ext heng hmem rfl ?_ ?_ ?_
    · rw [writeSys_busy hst hw']
      simp [WriteSys.next, hreq, hready, hc, next, ArbRegs.next, hg, nextWrite]
    · rw [writeSys_busy hst hw']
      simp [WriteSys.next, hreq, hready, hc, hpos, nextWrite, h.wNext_eq hi hp hw]
      rfl
    · simp [WriteSys.next, writeSys, next, hp, hw]

variable (TIMEOUT_LIMIT) in
/-- Seen from the engine, the arbiter and the requesters are one requester. -/
theorem writeSys_next (h : s.Link) (hi : s.writeSys.Inv 2) :
    (s.next TIMEOUT_LIMIT i).writeSys = s.writeSys.next 2 TIMEOUT_LIMIT (s.writeIn i) := by
  cases hp : s.arb.wState with
  | none => exact writeSys_next_idle TIMEOUT_LIMIT h hi hp
  | some p => exact writeSys_next_busy TIMEOUT_LIMIT h hi hp

theorem raiseWr_eq_some {p : WPort} {w : WriteRec} (h : s.raiseWr i p = some w) :
    ∃ q ∈ i.startWr p, w = .fresh q := by
  rw [raiseWr] at h
  split at h
  · cases h
  · obtain ⟨q, hq, rfl⟩ := Option.map_eq_some_iff.1 h
    exact ⟨q, hq, rfl⟩

/-- The writes after an edge: a new one, one that waits, or the one that is served. -/
theorem Link.writes_next (h : s.Link) {p : WPort} {w' : WriteRec}
    (hw' : (s.next TIMEOUT_LIMIT i).writes p = some w') :
    ((∃ q ∈ i.startWr p, w' = .fresh q) ∧ (s.next TIMEOUT_LIMIT i).arb.wState ≠ some p ∧
        s.raiseWr i p = some w' ∧ s.wFree i p = true) ∨
      (s.writes p = some w' ∧ s.arb.wState ≠ some p) ∨
      (∃ w, s.writes p = some w ∧ s.arb.wState = some p ∧ s.wr.wrReady = false ∧
        w' = s.nextWrite i p w ∧ (s.next TIMEOUT_LIMIT i).arb.wState = some p) := by
  cases hw : s.writes p with
  | none =>
    -- A port without a write can only raise one, and the grant looks at raised writes only.
    rw [writes_next_none hw] at hw'
    refine .inl ⟨raiseWr_eq_some hw', fun hp' => ?_, hw', by simp [wFree, hw]⟩
    cases hp : s.arb.wState with
    | none =>
      rw [wState_next_idle _ hp] at hp'
      obtain ⟨r, hr2, -⟩ := h.writes_of_wGrant hp hp'
      exact absurd (hw.symm.trans hr2) nofun
    | some q =>
      rw [wState_next_busy _ hp] at hp'
      split at hp'
      · cases hp'
      · cases hp'
        obtain ⟨r, hr2, -⟩ := h.wServed p hp
        exact absurd (hw.symm.trans hr2) nofun
  | some w =>
    by_cases hp : s.arb.wState = some p
    · rw [h.writes_next_served _ hp hw] at hw'
      have hst := wState_next_busy TIMEOUT_LIMIT (i := i) hp
      cases hc : s.wr.wrReady with
      | true =>
        -- `wrReady` ends the write, and the port may raise another on the same edge.
        rw [hc, if_pos rfl] at hw' hst
        exact .inl ⟨raiseWr_eq_some hw', by simp [hst], hw', by simp [wFree, h.wDone_eq hp hw, hc]⟩
      | false =>
        rw [hc, if_neg Bool.false_ne_true] at hw' hst
        exact .inr (.inr ⟨w, rfl, hp, rfl, (Option.some_inj.1 hw').symm, hst⟩)
    · rw [h.writes_next_waiting hw hp] at hw'
      exact .inr (.inl ⟨hw', hp⟩)

theorem Link.wServed_next (h : s.Link) {p : WPort} (hp' : (s.next TIMEOUT_LIMIT i).arb.wState = some p) :
    ∃ w, (s.next TIMEOUT_LIMIT i).writes p = some w ∧ (s.next TIMEOUT_LIMIT i).arb.wAddr = w.req.addr ∧
      (s.next TIMEOUT_LIMIT i).arb.wLines = (if w.req.lines = 0 then 1 else w.req.lines) ∧
      (s.next TIMEOUT_LIMIT i).arb.wLineLatched = w.req.line 0 := by
  cases hp : s.arb.wState with
  | none =>
    rw [wState_next_idle _ hp] at hp'
    obtain ⟨w, hw, ha, hl, hlat⟩ := h.writes_of_wGrant hp hp'
    exact ⟨w, h.writes_next_waiting hw (by simp [hp]), by simp [next, ArbRegs.next, hp', ha],
      by simp [next, ArbRegs.next, hp', hl], by simp [next, ArbRegs.next, hp', hlat]⟩
  | some q =>
    rw [wState_next_busy _ hp] at hp'
    split at hp'
    · cases hp'
    · next hc =>
      cases hp'
      obtain ⟨w, hw, ha, hl, hlat⟩ := h.wServed p hp
      have hg : s.arb.wGrant (s.arbIn i) = none := wGrant_of_busy hp
      have hw' := h.writes_next_served TIMEOUT_LIMIT (i := i) hp hw
      rw [if_neg hc] at hw'
      exact ⟨_, hw', by simp [next, ArbRegs.next, hg, ha, nextWrite],
        by simp [next, ArbRegs.next, hg, hl, nextWrite],
        by simp [next, ArbRegs.next, hg, hlat, nextWrite]⟩

/-- The data cache never has two requests. -/
theorem Link.dcache_next (h : s.Link) (hfit : i.Fits) :
    (s.next TIMEOUT_LIMIT i).reads .D = none ∨ (s.next TIMEOUT_LIMIT i).writes .D = none := by
  rcases hr' : (s.next TIMEOUT_LIMIT i).reads .D with _ | r'
  · exact .inl rfl
  · rcases hw' : (s.next TIMEOUT_LIMIT i).writes .D with _ | w'
    · exact .inr rfl
    · -- Both are new, or one of them is and the other one keeps it from being raised.
      have hrd : s.raiseRd i .D = some r' ∧ s.rFree i .D = true ∨ s.rFree i .D = false := by
        rw [next] at hr'
        dsimp only at hr'
        split at hr'
        · next hf => exact .inl ⟨hr', hf⟩
        · next hf => exact .inr (Bool.not_eq_true _ ▸ hf)
      have hwr : s.raiseWr i .D = some w' ∧ s.wFree i .D = true ∨ s.wFree i .D = false := by
        rw [next] at hw'
        dsimp only at hw'
        split at hw'
        · next hf => exact .inl ⟨hw', hf⟩
        · next hf => exact .inr (Bool.not_eq_true _ ▸ hf)
      rcases hrd with ⟨hrd, hrf⟩ | hrf <;> rcases hwr with ⟨hwr, hwf⟩ | hwf
      · obtain ⟨a, ha, -⟩ := raiseRd_eq_some hrd
        obtain ⟨b, hb, -⟩ := raiseWr_eq_some hwr
        rcases hfit.dcache with hd | hd
        · exact absurd (hd.symm.trans ha) nofun
        · exact absurd (hd.symm.trans hb) nofun
      · simp [raiseRd, hwf] at hrd
      · simp [raiseWr, hrf] at hwr
      · rw [rFree, Bool.or_eq_false_iff] at hrf
        rw [wFree, Bool.or_eq_false_iff] at hwf
        rcases h.dcache with hd | hd
        · simp [hd] at hrf
        · simp [hd] at hwf

theorem Link.next (h : s.Link) (hi : s.readSys.Inv) (hfit : i.Fits) : (s.next TIMEOUT_LIMIT i).Link where
  rServed _ hp := h.rServed_next hi hp
  rWaiting p r' hr' hp' := by
    rcases h.reads_next hi hr' with ⟨⟨q, -, rfl⟩, -⟩ | ⟨hr, hp⟩ | ⟨r, hr, hp, hc, rfl, hst⟩
    · rfl
    · exact h.rWaiting p r' hr hp
    · exact absurd hst hp'
  rFits p r' hr' := by
    rcases h.reads_next hi hr' with ⟨⟨q, hq, rfl⟩, -⟩ | ⟨hr, hp⟩ | ⟨r, hr, hp, hc, rfl, hst⟩
    · exact hfit.rd p q hq
    · exact h.rFits p r' hr
    · exact h.rFits p r hr
  wServed _ hp := h.wServed_next hp
  wWaiting p w' hw' hp' := by
    rcases h.writes_next hw' with ⟨⟨q, -, rfl⟩, -⟩ | ⟨hw, hp⟩ | ⟨w, hw, hp, hc, rfl, hst⟩
    · rfl
    · exact h.wWaiting p w' hw hp
    · exact absurd hst hp'
  wFits p w' hw' := by
    rcases h.writes_next hw' with ⟨⟨q, hq, rfl⟩, -⟩ | ⟨hw, hp⟩ | ⟨w, hw, hp, hc, rfl, hst⟩
    · exact hfit.wr p q hq
    · exact h.wFits p w' hw
    · exact h.wFits p w hw
  dcache := h.dcache_next hfit

end Transport

/-! ## The records -/

/-- The one burst of a read: all its lines from the base on. -/
def ReadRec.burst (r : ReadRec) : Word × BitVec 8 := (r.req.base, BitVec.ofNat 8 (2 * r.req.count - 1))

/-- The one burst of a write: all its lines from the base on. -/
def WriteRec.burst (w : WriteRec) : Word × BitVec 8 := (w.req.base, BitVec.ofNat 8 (2 * w.req.count - 1))

/-- The line `l` is made of the two beats read for the line number `k`. -/
def ReadRec.IsLine (r : ReadRec) (k : ℕ) (l : Line) : Prop :=
  ∀ b < 2, r.seen[2 * k + b]? = some (linePart (16 / 2) l b)

theorem ReadRec.IsLine.mono {r r' : ReadRec} {k : ℕ} {l : Line} {x : List (Beat 2)} (h : r.IsLine k l)
    (hs : r'.seen = r.seen ++ x) : r'.IsLine k l := by
  intro b hb
  have hlt : 2 * k + b < r.seen.length := (List.getElem?_eq_some_iff.1 (h b hb)).1
  rw [hs, List.getElem?_append_left hlt, h b hb]

namespace Transport

variable {TIMEOUT_LIMIT : BitVec 16} {s : Transport} {i : TransportInputs}

/-- The address of the read served has been accepted. -/
def arDone (s : Transport) : Bool := s.rd.rdState == .RD_DATA || s.rd.rdState == .RD_DONE

/-- The address of the write served has been accepted. -/
def awDone (s : Transport) : Bool :=
  s.wr.wrState == .WR_DATA || s.wr.wrState == .WR_RESP || s.wr.wrState == .WR_DONE

/-- What the records of the requests hold. -/
structure Recorded (s : Transport) : Prop where
  ars : ∀ p r, s.arb.rState = some p → s.reads p = some r → r.ars = if s.arDone then [r.burst] else []
  got : ∀ p r, s.reads p = some r → ∀ k l, r.got[k]? = some l → r.IsLine k l
  retry : s.wr.wrRetrying = false
  sent : s.wr.wrState = .WR_ADDR → s.wr.wrSent = 0
  aws : ∀ p w, s.arb.wState = some p → s.writes p = some w → w.aws = if s.awDone then [w.burst] else []

/-- The invariant of line transport. -/
structure Inv (s : Transport) : Prop extends s.Link, s.Recorded where
  rd : s.readSys.Inv
  wr : s.writeSys.Inv 2

/-- The address accepted for a read is that of its burst. -/
theorem Inv.arBeat_eq (h : s.Inv) {p : RPort} {r : ReadRec} (hp : s.arb.rState = some p)
    (hr : s.reads p = some r) (hst : s.rd.rdState = .RD_ADDR) :
    (s.rd.mAxiAraddr, s.rd.mAxiArlen 2) = r.burst := by
  obtain ⟨r', hr', ha, hl, -⟩ := h.rServed p hp
  obtain rfl : r = r' := Option.some_inj.1 (hr.symm.trans hr')
  obtain ⟨haddr, hlen⟩ :=
    h.rd.burst_eq (r := ⟨s.arb.rAddr, s.arb.rLines⟩) Nat.two_pos (by simp [readSys, hp]) hst
  rw [count_served hl] at hlen
  refine Prod.ext (haddr.trans (congrArg lineBase ha)) (BitVec.eq_of_toNat_eq ?_)
  have hfit := (h.rFits p r hr).1
  have hpos := r.req.count_pos
  have hlen : (s.rd.mAxiArlen 2).toNat + 1 = 2 * r.req.count := hlen
  simp only [ReadRec.burst, BitVec.toNat_ofNat]
  omega

/-- The address accepted for a write is that of its burst. -/
theorem Inv.awBeat_eq (h : s.Inv) {p : WPort} {w : WriteRec} (hp : s.arb.wState = some p)
    (hw : s.writes p = some w) (hst : s.wr.wrState = .WR_ADDR) :
    (s.wr.mAxiAwaddr, s.wr.mAxiAwlen 2) = w.burst := by
  obtain ⟨w', hw', ha, hl, -⟩ := h.wServed p hp
  obtain rfl : w = w' := Option.some_inj.1 (hw.symm.trans hw')
  have hfit := (h.wFits p w hw).1
  obtain ⟨haddr, hlen⟩ := h.wr.burst_eq (r := ⟨s.arb.wAddr, s.arb.wLines, w.req.line⟩) Nat.two_pos
    (by rwa [count_served_wr hl]) (by rw [writeSys_busy hp hw]) hst (h.sent hst)
  rw [count_served_wr hl] at hlen
  refine Prod.ext (haddr.trans (congrArg lineBase ha)) (BitVec.eq_of_toNat_eq ?_)
  have hpos := count_pos w.req
  have hlen : (s.wr.mAxiAwlen 2).toNat + 1 = 2 * w.req.count := hlen
  simp only [WriteRec.burst, BitVec.toNat_ofNat]
  omega

/-! ## The invariant is kept -/

theorem arDone_next (ht : s.rd.rdTimeout TIMEOUT_LIMIT = false) (hst : s.rd.rdState ≠ .RD_DONE) :
    (s.next TIMEOUT_LIMIT i).arDone = (s.arDone || s.arBeat i) := by
  have hnext : (s.next TIMEOUT_LIMIT i).rd.rdState = s.rd.rdNext (s.rdIn i) := by
    simp [next, RdRegs.next, ht]
  rw [arDone, hnext, RdRegs.rdNext]
  cases hs : s.rd.rdState with
  | RD_IDLE =>
    dsimp only
    split <;> simp only [arDone, arBeat, RdRegs.mAxiArvalid, hs] <;> rfl
  | RD_ADDR =>
    cases ha : i.mAxiArready <;> simp [arDone, arBeat, RdRegs.mAxiArvalid, hs, rdIn, ha]
  | RD_DATA =>
    dsimp only
    split <;> simp [arDone, hs]
  | RD_DONE => exact absurd hs hst

theorem awDone_next (ht : s.wr.wrTimeout TIMEOUT_LIMIT = false) (hst : s.wr.wrReady = false) :
    (s.next TIMEOUT_LIMIT i).awDone = (s.awDone || s.awBeat i) := by
  have hnext : (s.next TIMEOUT_LIMIT i).wr.wrState = s.wr.wrNextS 2 (s.wrIn i) := by
    simp [next, WrRegs.next, ht]
  rw [awDone, hnext, WrRegs.wrNextS]
  cases hs : s.wr.wrState with
  | WR_IDLE =>
    dsimp only
    split <;> simp only [awDone, awBeat, WrRegs.mAxiAwvalid, hs] <;> rfl
  | WR_ADDR =>
    cases ha : i.mAxiAwready <;> simp [awDone, awBeat, WrRegs.mAxiAwvalid, hs, wrIn, ha]
  | WR_DATA =>
    dsimp only
    split <;> simp [awDone, hs]
  | WR_RESP =>
    dsimp only
    split <;> simp [awDone, hs]
  | WR_DONE => simp [WrRegs.wrReady, hs] at hst

theorem Inv.ars_next (h : s.Inv) (ht : s.rd.rdTimeout TIMEOUT_LIMIT = false) {p : RPort} {r' : ReadRec}
    (hp' : (s.next TIMEOUT_LIMIT i).arb.rState = some p)
    (hr' : (s.next TIMEOUT_LIMIT i).reads p = some r') :
    r'.ars = if (s.next TIMEOUT_LIMIT i).arDone then [r'.burst] else [] := by
  have hi := h.rd
  rcases h.reads_next h.rd hr' with ⟨-, hne, -⟩ | ⟨hr, hp⟩ | ⟨r, hr, hp, hc, rfl, -⟩
  · exact absurd hp' hne
  · -- The request has just been granted, and the engine rests.
    have hidle : s.arb.rState = none := by
      rcases hq : s.arb.rState with _ | q
      · rfl
      · rw [rState_next_busy _ h.toLink h.rd hq] at hp'
        split at hp'
        · cases hp'
        · exact absurd (hq.trans hp') hp
    rw [readSys_idle hidle] at hi
    have hst : s.rd.rdState = .RD_IDLE := hi.2.1
    rw [arDone_next ht (by simp [hst]), h.rWaiting p r' hr hp]
    simp [arDone, arBeat, RdRegs.mAxiArvalid, hst, ReadRec.fresh]
  · have hst : s.rd.rdState ≠ .RD_DONE := fun hst => by
      rw [readSys_busy hp hr] at hi hc
      simp only [ReadSys.Inv, hst] at hi
      simp [ReadSys.complete, hi.2.2.1, hi.2.2.2.2.1] at hc
    rw [arDone_next ht hst]
    have hars := h.ars p r hp hr
    cases hb : s.arBeat i with
    | false =>
      simp only [nextRead, hp, hb, Bool.and_false, Bool.or_false, Bool.false_eq_true, if_false, hars]
      rfl
    | true =>
      have hst : s.rd.rdState = .RD_ADDR := by
        simp only [arBeat, RdRegs.mAxiArvalid, Bool.and_eq_true, beq_iff_eq] at hb
        exact hb.1
      have hdone : s.arDone = false := by simp [arDone, hst]
      rw [hdone, if_neg Bool.false_ne_true] at hars
      simp only [nextRead, hp, hb, decide_true, Bool.and_self, if_true, hars, h.arBeat_eq hp hr hst,
        Bool.or_true, List.nil_append]
      rfl

theorem Inv.aws_next (h : s.Inv) (ht : s.wr.wrTimeout TIMEOUT_LIMIT = false) {p : WPort} {w' : WriteRec}
    (hp' : (s.next TIMEOUT_LIMIT i).arb.wState = some p)
    (hw' : (s.next TIMEOUT_LIMIT i).writes p = some w') :
    w'.aws = if (s.next TIMEOUT_LIMIT i).awDone then [w'.burst] else [] := by
  rcases h.writes_next hw' with ⟨-, hne, -⟩ | ⟨hw, hp⟩ | ⟨w, hw, hp, hc, rfl, -⟩
  · exact absurd hp' hne
  · -- The write is granted on this edge, so its address has not been offered yet.
    have hidle : s.arb.wState = none := by
      rcases hq : s.arb.wState with _ | q
      · rfl
      · rw [wState_next_busy _ hq] at hp'
        split at hp'
        · cases hp'
        · exact absurd (hq.trans hp') hp
    have hst := (wrIn_idle TIMEOUT_LIMIT (i := i) h.wr hidle).2
    rw [awDone_next ht (by simp [WrRegs.wrReady, hst]), h.wWaiting p w' hw hp]
    simp [awDone, awBeat, WrRegs.mAxiAwvalid, hst, WriteRec.fresh]
  · rw [awDone_next ht hc]
    have haws := h.aws p w hp hw
    cases hb : s.awBeat i with
    | false =>
      simp only [nextWrite, hp, hb, Bool.and_false, Bool.or_false, Bool.false_eq_true, if_false, haws]
      rfl
    | true =>
      -- The one cycle in which the address is accepted.
      have hst : s.wr.wrState = .WR_ADDR := by
        simp only [awBeat, WrRegs.mAxiAwvalid, Bool.and_eq_true, beq_iff_eq] at hb
        exact hb.1
      have hdone : s.awDone = false := by simp [awDone, hst]
      rw [hdone, if_neg Bool.false_ne_true] at haws
      simp only [nextWrite, hp, hb, decide_true, Bool.and_self, if_true, haws, h.awBeat_eq hp hw hst,
        Bool.or_true, List.nil_append]
      rfl

/-- The line on the port is the next one of the read that is served. -/
theorem Inv.isLine (h : s.Inv) {p : RPort} {r : ReadRec} (hp : s.arb.rState = some p)
    (hr : s.reads p = some r) (hready : s.rd.rdReady = true) :
    r.got.length < r.req.count ∧ r.IsLine r.got.length s.rd.rdRline := by
  obtain ⟨r', hr', -, hl, -⟩ := h.rServed p hp
  obtain rfl : r = r' := Option.some_inj.1 (hr.symm.trans hr')
  have hline := h.rd.line_eq (r := ⟨s.arb.rAddr, s.arb.rLines⟩) (by simp [readSys, hp]) hready
  rw [count_served hl, readSys_busy hp hr] at hline
  exact hline

theorem Inv.got_next (h : s.Inv) {p : RPort} {r' : ReadRec}
    (hr' : (s.next TIMEOUT_LIMIT i).reads p = some r') {k : ℕ} {l : Line} (hk : r'.got[k]? = some l) :
    r'.IsLine k l := by
  rcases h.reads_next h.rd hr' with ⟨⟨q, -, rfl⟩, -⟩ | ⟨hr, -⟩ | ⟨r, hr, hp, -, rfl, -⟩
  · exact absurd hk nofun
  · exact h.got p r' hr k l hk
  · have hmono : ∀ {k l}, r.IsLine k l → (s.nextRead i p r).IsLine k l := fun hl => by
      by_cases hb : s.rBeat i = true
      · exact hl.mono (by simp only [nextRead, hp, hb, decide_true, Bool.and_self, if_true]; rfl)
      · exact hl.mono (x := []) (by simp [nextRead, hb])
    cases hready : s.rReady i p with
    | false =>
      simp only [nextRead, hready, Bool.false_eq_true, if_false] at hk
      exact hmono (h.got p r hr k l hk)
    | true =>
      have hrdy := h.rReady_eq (i := i) hr
      rw [hready, decide_eq_true hp, Bool.true_and] at hrdy
      simp only [nextRead, hready, if_true] at hk
      rcases Nat.lt_trichotomy k r.got.length with hlt | rfl | hgt
      · rw [List.getElem?_append_left hlt] at hk
        exact hmono (h.got p r hr k l hk)
      · rw [List.getElem?_concat_length, Option.some_inj] at hk
        exact hk ▸ hmono (h.isLine hp hr hrdy.symm).2
      · rw [List.getElem?_eq_none (by simp; omega)] at hk
        cases hk

/-- A burst that is offered starts with the first line. -/
theorem Inv.sent_next (h : s.Inv) (ht : s.wr.wrTimeout TIMEOUT_LIMIT = false)
    (hst : (s.next TIMEOUT_LIMIT i).wr.wrState = .WR_ADDR) : (s.next TIMEOUT_LIMIT i).wr.wrSent = 0 := by
  simp only [Transport.next, WrRegs.next, ht, Bool.false_and, Bool.false_eq_true, if_false] at hst ⊢
  rw [WrRegs.wrNextS] at hst
  cases hs : s.wr.wrState with
  | WR_IDLE =>
    simp only [hs] at hst
    split at hst
    next hstart => simp_all [WrRegs.wrStart, h.retry]
    next => cases hst
  | WR_ADDR => simp [WrRegs.wrStart, WrRegs.wrLineEnd, WrRegs.wrTake, hs, h.sent hs]
  | WR_DATA =>
    simp only [hs] at hst
    split at hst <;> cases hst
  | WR_RESP =>
    simp only [hs] at hst
    split at hst <;> cases hst
  | WR_DONE => simp [hs] at hst

theorem Inv.count_start (h : s.Inv) {r : RReq} (hr : r ∈ (s.readIn i).start) : 2 * r.count ≤ 256 := by
  obtain ⟨p, hg, rfl⟩ := Option.map_eq_some_iff.1 hr
  rcases hp : s.arb.rState with _ | q
  · obtain ⟨q, hq, -, hl⟩ := h.reads_of_rGrant hp hg
    rw [count_served hl]
    exact (h.rFits p q hq).1
  · rw [rGrant_of_busy hp] at hg
    cases hg

theorem Inv.next (h : s.Inv) (ha : (transport TIMEOUT_LIMIT).admits s i) :
    (s.next TIMEOUT_LIMIT i).Inv where
  toLink := h.toLink.next h.rd ha.1
  ars _ _ hp hr := h.ars_next ha.2.1 hp hr
  got _ _ hr _ _ hk := h.got_next hr hk
  retry := by simp [Transport.next, WrRegs.next, ha.2.2, h.retry]
  sent := h.sent_next ha.2.2
  aws _ _ hp hw := h.aws_next ha.2.2 hp hw
  rd := by
    rw [readSys_next _ h.toLink h.rd]
    exact ReadSys.inv_next (by decide) h.rd (fun _ hr => h.count_start hr) ha.2.1
  wr := by
    rw [writeSys_next _ h.toLink h.wr]
    refine WriteSys.inv_next (by decide) (by decide) h.wr fun ht => ?_
    exact absurd (ha.2.2.symm.trans ht) (by simp)

theorem inv_of_isReset (h : s.IsReset) : s.Inv := by
  obtain ⟨⟨hr, -, -, -, -, hw, -⟩, hrd, hwr, hrt, hwt, hreads, hwrites⟩ := h
  have hrs : s.readSys.Inv := ReadSys.inv_of_isReset (by
    rw [readSys_idle hr]
    exact ⟨hrd, hrt, rfl, rfl, rfl⟩)
  have hws : s.writeSys.Inv 2 := WriteSys.inv_of_isReset (by
    rw [writeSys_idle hw]
    exact ⟨hwr, hwt, rfl, rfl⟩)
  obtain ⟨hst, -, -, -, -, -, -, -, hret, -⟩ := hwr
  exact
    { rServed := by simp [hr]
      rWaiting := by simp [hreads]
      rFits := by simp [hreads]
      wServed := by simp [hw]
      wWaiting := by simp [hwrites]
      wFits := by simp [hwrites]
      dcache := .inl (hreads _)
      ars := by simp [hr]
      got := by simp [hreads]
      retry := hret
      sent := by simp [hst]
      aws := by simp [hw]
      rd := hrs
      wr := hws }

theorem inv_of_reachable (h : (transport TIMEOUT_LIMIT).Reachable s) : s.Inv := by
  refine h.invariant (P := Inv) ?_ ?_
  · exact fun s hs => inv_of_isReset hs
  · exact fun s i hs ha => hs.next ha

/-! ## Every request is served -/

theorem Link.rReq_of_reads (h : s.Link) (hidle : s.arb.rState = none) {p : RPort} {r : ReadRec}
    (hr : s.reads p = some r) : ArbRegs.rReq (s.arbIn i) p = true := by
  cases p with
  | D =>
    have hw : s.writes .D = none := h.dcache.resolve_left (by simp [hr])
    simp [ArbRegs.rReq, arbIn, hr, hw]
  | I => simp [ArbRegs.rReq, arbIn, hr]
  | A => simp [ArbRegs.rReq, arbIn, accelRdReq, hidle, hr]

theorem wReq_of_writes (hidle : s.arb.wState = none) {p : WPort} {w : WriteRec}
    (hw : s.writes p = some w) : ArbRegs.wReq (s.arbIn i) p = true := by
  cases p with
  | D => simp [ArbRegs.wReq, arbIn, hw]
  | A => simp [ArbRegs.wReq, arbIn, accelWrReq, hidle, hw]

/-- How far the read of port `p` is from its end: the turns before its own, and what is
    left of the one being served. -/
def rRank (p : RPort) (s : Transport) : ℕ ×ₗ ℕ :=
  if s.arb.rState = some p then toLex (0, s.readSys.rank)
  else toLex (s.arb.rLast.wait p, if s.arb.rState.isSome then s.readSys.rank + 1 else 0)

/-- How far the write of port `p` is from its end. -/
def wRank (p : WPort) (s : Transport) : ℕ ×ₗ ℕ :=
  if s.arb.wState = some p then toLex (0, s.writeSys.rank 2)
  else toLex (WPort.wait s.arb.wLastA p, if s.arb.wState.isSome then s.writeSys.rank 2 + 1 else 0)

theorem rRank_served {p : RPort} (hp : s.arb.rState = some p) : rRank p s = toLex (0, s.readSys.rank) :=
  if_pos hp

theorem rRank_waiting {p : RPort} (hp : s.arb.rState ≠ some p) :
    rRank p s = toLex (s.arb.rLast.wait p, if s.arb.rState.isSome then s.readSys.rank + 1 else 0) :=
  if_neg hp

theorem wRank_served {p : WPort} (hp : s.arb.wState = some p) :
    wRank p s = toLex (0, s.writeSys.rank 2) :=
  if_pos hp

theorem wRank_waiting {p : WPort} (hp : s.arb.wState ≠ some p) :
    wRank p s =
      toLex (WPort.wait s.arb.wLastA p, if s.arb.wState.isSome then s.writeSys.rank 2 + 1 else 0) :=
  if_neg hp

theorem RPort.wait_pos (l p : RPort) : 0 < l.wait p := by cases l <;> cases p <;> decide

theorem WPort.wait_pos (l : Bool) (p : WPort) : 0 < WPort.wait l p := by cases l <;> cases p <;> decide

/-- A read that is not complete stays, and comes nearer to its end. -/
theorem Inv.rRank_next (h : s.Inv) (ha : (transport TIMEOUT_LIMIT).admits s i) {p : RPort} {r : ReadRec}
    (hr : s.reads p = some r) (hd : s.rDone i p = false) :
    (∃ r', (s.next TIMEOUT_LIMIT i).reads p = some r' ∧ r'.req = r.req) ∧
      rRank p (s.next TIMEOUT_LIMIT i) < rRank p s := by
  cases hp : s.arb.rState with
  | none =>
    -- The channel is granted on this edge: to this port, or to one before it in the rotation.
    obtain ⟨q, hg, hwait⟩ := RPort.wait_lt_of_rGrant hp (h.rReq_of_reads (i := i) hp hr)
    have hp' := (rState_next_idle TIMEOUT_LIMIT hp).trans hg
    refine ⟨⟨r, h.reads_next_waiting hr (by simp [hp]), rfl⟩, ?_⟩
    rw [rRank_waiting (s := s) (by simp [hp])]
    by_cases hq : q = p
    · rw [rRank_served (hq ▸ hp')]
      exact Prod.Lex.toLex_lt_toLex.2 (.inl (RPort.wait_pos _ _))
    · have hlast : (s.next TIMEOUT_LIMIT i).arb.rLast = q := by simp [Transport.next, ArbRegs.next, hg]
      rw [rRank_waiting (by simpa [hp'] using hq), hlast]
      exact Prod.Lex.toLex_lt_toLex.2 (.inl (hwait hq))
  | some q =>
    -- The channel is taken: the transaction under way comes nearer to its end.
    obtain ⟨rq, hrq, -⟩ := h.rServed q hp
    have hst := rState_next_busy TIMEOUT_LIMIT (i := i) h.toLink h.rd hp
    have hsys := readSys_next TIMEOUT_LIMIT (i := i) h.toLink h.rd
    have hreq : s.readSys.req = some ⟨s.arb.rAddr, s.arb.rLines⟩ := by simp [readSys, hp]
    have hlt := ReadSys.rank_next (i := s.readIn i) (by decide) h.rd hreq ha.2.1
    rw [← hsys] at hlt
    by_cases hq : q = p
    · subst hq
      rw [h.rDone_eq hp hr] at hd
      rw [hd, if_neg Bool.false_ne_true] at hst
      have hr' := h.reads_next_served TIMEOUT_LIMIT (i := i) hp hr
      rw [hd, if_neg Bool.false_ne_true] at hr'
      refine ⟨⟨_, hr', rfl⟩, ?_⟩
      rw [rRank_served hst, rRank_served hp]
      exact Prod.Lex.toLex_lt_toLex.2 (.inr ⟨rfl, hlt hd⟩)
    · refine ⟨⟨r, h.reads_next_waiting hr (by simpa [hp] using hq), rfl⟩, ?_⟩
      have hlast : (s.next TIMEOUT_LIMIT i).arb.rLast = s.arb.rLast := by
        simp [Transport.next, ArbRegs.next, rGrant_of_busy hp]
      have hne : (s.next TIMEOUT_LIMIT i).arb.rState ≠ some p := by
        rw [hst]
        split <;> simp [hq]
      rw [rRank_waiting hne, rRank_waiting (s := s) (by simpa [hp] using hq), hst, hp, hlast]
      refine Prod.Lex.toLex_lt_toLex.2 (.inr ⟨rfl, ?_⟩)
      -- With the last line the channel falls free, which ranks below any transaction.
      cases hc : s.readSys.complete with
      | true => simp
      | false => simpa using hlt hc

theorem Inv.wRank_next (h : s.Inv) (ha : (transport TIMEOUT_LIMIT).admits s i) {p : WPort} {w : WriteRec}
    (hw : s.writes p = some w) (hd : s.wDone i p = false) :
    (∃ w', (s.next TIMEOUT_LIMIT i).writes p = some w' ∧ w'.req = w.req) ∧
      wRank p (s.next TIMEOUT_LIMIT i) < wRank p s := by
  cases hp : s.arb.wState with
  | none =>
    -- As for the reads, except that the grant only alternates between the two ports.
    obtain ⟨q, hg, hwait⟩ := WPort.wait_lt_of_wGrant hp (wReq_of_writes (i := i) hp hw)
    have hp' := (wState_next_idle TIMEOUT_LIMIT hp).trans hg
    refine ⟨⟨w, h.writes_next_waiting hw (by simp [hp]), rfl⟩, ?_⟩
    rw [wRank_waiting (s := s) (by simp [hp])]
    by_cases hq : q = p
    · rw [wRank_served (hq ▸ hp')]
      exact Prod.Lex.toLex_lt_toLex.2 (.inl (WPort.wait_pos _ _))
    · have hlast : (s.next TIMEOUT_LIMIT i).arb.wLastA = (q == .A) := by
        simp [Transport.next, ArbRegs.next, hg]
      rw [wRank_waiting (by simpa [hp'] using hq), hlast]
      exact Prod.Lex.toLex_lt_toLex.2 (.inl (hwait hq))
  | some q =>
    obtain ⟨wq, hwq, -⟩ := h.wServed q hp
    have hst := wState_next_busy TIMEOUT_LIMIT (i := i) hp
    have hsys := writeSys_next TIMEOUT_LIMIT (i := i) h.toLink h.wr
    have hreq : s.writeSys.req = some ⟨s.arb.wAddr, s.arb.wLines, wq.req.line⟩ := by
      rw [writeSys_busy hp hwq]
    have hlt := WriteSys.rank_next (i := s.writeIn i) (by decide) h.wr hreq ha.2.2
    rw [← hsys] at hlt
    by_cases hq : q = p
    · subst hq
      rw [h.wDone_eq hp hw] at hd
      rw [hd, if_neg Bool.false_ne_true] at hst
      have hw' := h.writes_next_served TIMEOUT_LIMIT (i := i) hp hw
      rw [hd, if_neg Bool.false_ne_true] at hw'
      refine ⟨⟨_, hw', rfl⟩, ?_⟩
      rw [wRank_served hst, wRank_served hp]
      exact Prod.Lex.toLex_lt_toLex.2 (.inr ⟨rfl, hlt hd⟩)
    · refine ⟨⟨w, h.writes_next_waiting hw (by simpa [hp] using hq), rfl⟩, ?_⟩
      have hlast : (s.next TIMEOUT_LIMIT i).arb.wLastA = s.arb.wLastA := by
        simp [Transport.next, ArbRegs.next, wGrant_of_busy hp]
      have hne : (s.next TIMEOUT_LIMIT i).arb.wState ≠ some p := by
        rw [hst]
        split <;> simp [hq]
      rw [wRank_waiting hne, wRank_waiting (s := s) (by simpa [hp] using hq), hst, hp, hlast]
      refine Prod.Lex.toLex_lt_toLex.2 (.inr ⟨rfl, ?_⟩)
      cases hc : s.wr.wrReady with
      | true => simp
      | false => simpa using hlt hc

end Transport

/-! ## Line transport -/

/-- What a cycle does is for the request that is served, and is what it asks for. -/
structure Transport.InOrder (s : Transport) (i : TransportInputs) : Prop where
  /-- An address is accepted once for a read, and is that of its burst. -/
  ar : s.arBeat i = true → ∃ p r, s.arb.rState = some p ∧ s.reads p = some r ∧ r.ars = [] ∧
    (s.rd.mAxiAraddr, s.rd.mAxiArlen 2) = r.burst
  /-- An address is accepted once for a write, and is that of its burst. -/
  aw : s.awBeat i = true → ∃ p w, s.arb.wState = some p ∧ s.writes p = some w ∧ w.aws = [] ∧
    (s.wr.mAxiAwaddr, s.wr.mAxiAwlen 2) = w.burst
  /-- A line goes to one requester, whose next line it is; on the port that the data cache
      has for both directions the pulse may also acknowledge its write. -/
  line : ∀ p, s.rReady i p = true →
    (∃ r, s.reads p = some r ∧ r.ars = [r.burst] ∧ r.got.length < r.req.count ∧
      r.IsLine r.got.length s.rd.rdRline ∧ ∀ q ≠ p, (s.reads q).isSome = true →
      s.rReady i q = false) ∨
    (p = .D ∧ s.reads .D = none ∧ (s.writes .D).isSome = true)
  /-- An acknowledgement goes to one requester, all of whose lines are taken. -/
  ack : ∀ p, s.wReady i p = true →
    (∃ w, s.writes p = some w ∧ w.aws = [w.burst] ∧ w.pos + 1 = w.req.count ∧
      ∀ q ≠ p, (s.writes q).isSome = true → s.wReady i q = false) ∨
    (p = .D ∧ s.writes .D = none ∧ (s.reads .D).isSome = true)
  /-- The next line is asked for of the requester that is served, while it has one. -/
  wNext : ∀ p, s.wNext i p = true → ∃ w, s.writes p = some w ∧ w.pos + 1 < w.req.count
  /-- No line, acknowledgement or demand is lost on the way. -/
  rdReady : s.rd.rdReady = true → ∃ p, (s.reads p).isSome = true ∧ s.rReady i p = true
  wrReady : s.wr.wrReady = true → ∃ p, (s.writes p).isSome = true ∧ s.wReady i p = true
  wrNext : s.wr.wrNext = true → ∃ p, (s.writes p).isSome = true ∧ s.wNext i p = true

/-- The read of port `p` ends with its last line: one burst brought all its lines, in
    order. -/
def Transport.ReadEnds (s : Transport) (i : TransportInputs) (p : RPort) (q : RReq) : Prop :=
  s.rDone i p = true ∧ ∃ r, s.reads p = some r ∧ r.req = q ∧ r.ars = [r.burst] ∧
    (r.got ++ [s.rd.rdRline]).length = q.count ∧
    ∀ k l, (r.got ++ [s.rd.rdRline])[k]? = some l → r.IsLine k l

/-- The write of port `p` ends: one burst moved all its lines, the requester was asked for
    each line after the first, the lines are in place, and nothing else was written. -/
def Transport.WriteEnds (s : Transport) (i : TransportInputs) (p : WPort) (q : WReq) : Prop :=
  s.wDone i p = true ∧ ∃ w, s.writes p = some w ∧ w.req = q ∧ w.aws = [w.burst] ∧
  w.pos = q.count - 1 ∧
    s.mem = s.mem0.image q.base q.line (16 * q.count) ∧
    ∀ k < q.count, s.mem.line (q.base + BitVec.ofNat 32 (16 * k)) = q.line k

namespace Transport

variable {TIMEOUT_LIMIT : BitVec 16} {s : Transport} {i : TransportInputs}

/-- The engine is busy only with a request that is served. -/
theorem Inv.rState_of_rdState (h : s.Inv) (hst : s.rd.rdState ≠ .RD_IDLE ∨ s.rd.rdReady = true) :
    ∃ p r, s.arb.rState = some p ∧ s.reads p = some r := by
  cases hp : s.arb.rState with
  | none =>
    have hi := h.rd
    rw [readSys_idle hp] at hi
    rcases hst with hst | hst
    · exact absurd hi.2.1 hst
    · exact absurd (hi.2.2.1.symm.trans hst) nofun
  | some p =>
    obtain ⟨r, hr, -⟩ := h.rServed p hp
    exact ⟨p, r, rfl, hr⟩

theorem Inv.wState_of_wrState (h : s.Inv) (hst : s.wr.wrState ≠ .WR_IDLE ∨ s.wr.wrNext = true) :
    ∃ p w, s.arb.wState = some p ∧ s.writes p = some w := by
  cases hp : s.arb.wState with
  | none =>
    have hi := h.wr
    rw [writeSys_idle hp] at hi
    rcases hst with hst | hst
    · exact absurd hi.2.1 hst
    · exact absurd (hi.2.2.2.1.symm.trans hst) nofun
  | some p =>
    obtain ⟨w, hw, -⟩ := h.wServed p hp
    exact ⟨p, w, rfl, hw⟩

theorem Inv.pos_lt (h : s.Inv) {p : WPort} {w : WriteRec} (hp : s.arb.wState = some p)
    (hw : s.writes p = some w) : w.pos + s.wr.wrNext.toNat < w.req.count := by
  obtain ⟨w', hw', -, hl, -⟩ := h.wServed p hp
  obtain rfl : w = w' := Option.some_inj.1 (hw.symm.trans hw')
  have hlt := h.wr.pos_lt (r := ⟨s.arb.wAddr, s.arb.wLines, w.req.line⟩) (by rw [writeSys_busy hp hw])
  rw [count_served_wr hl, writeSys_busy hp hw] at hlt
  exact hlt

/-- The memory when a write is acknowledged. -/
theorem Inv.sent_of_wrReady (h : s.Inv) {p : WPort} {w : WriteRec} (hp : s.arb.wState = some p)
    (hw : s.writes p = some w) (hready : s.wr.wrReady = true) :
    w.aws = [w.burst] ∧ w.pos + 1 = w.req.count ∧
      s.mem = s.mem0.image w.req.base w.req.line (16 * w.req.count) := by
  have hst : s.wr.wrState = .WR_DONE := by simpa [WrRegs.wrReady] using hready
  obtain ⟨w', hw', ha, hl, -⟩ := h.wServed p hp
  obtain rfl : w = w' := Option.some_inj.1 (hw.symm.trans hw')
  have hi := h.wr
  rw [writeSys_busy hp hw] at hi
  simp only [WriteSys.Inv, hst] at hi
  obtain ⟨-, -, hsent⟩ := hi
  have hpos := hsent.pos
  have hmem := hsent.written
  rw [count_served_wr hl] at hpos hmem
  have haws := h.aws p w hp hw
  have hdone : s.awDone = true := by simp [awDone, hst]
  rw [hdone, if_pos rfl] at haws
  refine ⟨haws, hpos, ?_⟩
  simpa [WReq.base, ha] using hmem

theorem Inv.ars_of_rdReady (h : s.Inv) {p : RPort} {r : ReadRec} (hp : s.arb.rState = some p)
    (hr : s.reads p = some r) (hready : s.rd.rdReady = true) : r.ars = [r.burst] := by
  have hdone : s.arDone = true := by
    have hi := h.rd
    rw [readSys_busy hp hr] at hi
    cases hst : s.rd.rdState <;> simp [ReadSys.Inv, hst, hready, arDone] at hi ⊢
  have hars := h.ars p r hp hr
  rwa [hdone, if_pos rfl] at hars

theorem Inv.inOrder (h : s.Inv) : s.InOrder i where
  ar hb := by
    simp only [arBeat, RdRegs.mAxiArvalid, Bool.and_eq_true, beq_iff_eq] at hb
    obtain ⟨p, r, hp, hr⟩ := h.rState_of_rdState (.inl (by simp [hb.1]))
    refine ⟨p, r, hp, hr, ?_, h.arBeat_eq hp hr hb.1⟩
    rw [h.ars p r hp hr, if_neg (by simp [arDone, hb.1])]
  aw hb := by
    simp only [awBeat, WrRegs.mAxiAwvalid, Bool.and_eq_true, beq_iff_eq] at hb
    obtain ⟨p, w, hp, hw⟩ := h.wState_of_wrState (.inl (by simp [hb.1]))
    refine ⟨p, w, hp, hw, ?_, h.awBeat_eq hp hw hb.1⟩
    rw [h.aws p w hp hw, if_neg (by simp [awDone, hb.1])]
  line p hready := by
    cases hr : s.reads p with
    | none =>
      have hne : s.arb.rState ≠ some p := fun hp => by
        obtain ⟨r, hr', -⟩ := h.rServed p hp
        exact absurd (hr.symm.trans hr') (by simp)
      cases p with
      | I => simp [rReady, ArbRegs.icacheReady, hne] at hready
      | A => simp [rReady, ArbRegs.accelRdReady, hne] at hready
      | D =>
        -- The D-cache has one ready for its two channels: this one acknowledges a write.
        simp only [rReady, ArbRegs.dcacheReady, hne, decide_false, Bool.false_and, Bool.false_or,
          Bool.and_eq_true, decide_eq_true_iff] at hready
        obtain ⟨w, hw, -⟩ := h.wServed _ hready.1
        exact .inr ⟨rfl, hr, by simp [hw]⟩
    | some r =>
      rw [h.rReady_eq hr, Bool.and_eq_true, decide_eq_true_iff] at hready
      obtain ⟨hp, hready⟩ := hready
      obtain ⟨hlt, hline⟩ := h.isLine hp hr hready
      refine .inl ⟨r, rfl, h.ars_of_rdReady hp hr hready, hlt, hline, fun q hq hs => ?_⟩
      obtain ⟨rq, hrq⟩ := Option.isSome_iff_exists.1 hs
      rw [h.rReady_eq hrq, hp, decide_eq_false (fun he => hq (Option.some_inj.1 he).symm),
        Bool.false_and]
  ack p hready := by
    cases hw : s.writes p with
    | none =>
      have hne : s.arb.wState ≠ some p := fun hp => by
        obtain ⟨w, hw', -⟩ := h.wServed p hp
        exact absurd (hw.symm.trans hw') (by simp)
      cases p with
      | A => simp [wReady, ArbRegs.accelWrReady, hne] at hready
      | D =>
        -- And this one comes with a line.
        simp only [wReady, ArbRegs.dcacheReady, hne, decide_false, Bool.false_and, Bool.or_false,
          Bool.and_eq_true, decide_eq_true_iff] at hready
        obtain ⟨r, hr, -⟩ := h.rServed _ hready.1
        exact .inr ⟨rfl, hw, by simp [hr]⟩
    | some w =>
      rw [h.wReady_eq hw, Bool.and_eq_true, decide_eq_true_iff] at hready
      obtain ⟨hp, hready⟩ := hready
      obtain ⟨haws, hpos, -⟩ := h.sent_of_wrReady hp hw hready
      refine .inl ⟨w, rfl, haws, hpos, fun q hq hs => ?_⟩
      obtain ⟨wq, hwq⟩ := Option.isSome_iff_exists.1 hs
      rw [h.wReady_eq hwq, hp, decide_eq_false (fun he => hq (Option.some_inj.1 he).symm),
        Bool.false_and]
  wNext p hn := by
    cases p with
    | D => cases hn
    | A =>
      simp only [wNext, ArbRegs.accelWnext, Bool.and_eq_true, decide_eq_true_iff] at hn
      obtain ⟨w, hw, -⟩ := h.wServed _ hn.1
      have hlt := h.pos_lt hn.1 hw
      rw [show s.wr.wrNext = true from hn.2] at hlt
      exact ⟨w, hw, hlt⟩
  rdReady hready := by
    obtain ⟨p, r, hp, hr⟩ := h.rState_of_rdState (.inr hready)
    exact ⟨p, by simp [hr], by simp [h.rReady_eq hr, hp, hready]⟩
  wrReady hready := by
    have hst : s.wr.wrState = .WR_DONE := by simpa [WrRegs.wrReady] using hready
    obtain ⟨p, w, hp, hw⟩ := h.wState_of_wrState (.inl (by simp [hst]))
    exact ⟨p, by simp [hw], by simp [h.wReady_eq hw, hp, hready]⟩
  wrNext hn := by
    obtain ⟨p, w, hp, hw⟩ := h.wState_of_wrState (.inr hn)
    exact ⟨p, by simp [hw], by simp [h.wNext_eq h.wr hp hw, hn]⟩

theorem Inv.readEnds (h : s.Inv) {p : RPort} {r : ReadRec} (hr : s.reads p = some r)
    (hd : s.rDone i p = true) : s.ReadEnds i p r.req := by
  have hd' := hd
  simp only [rDone, hr, Option.any_some, Bool.and_eq_true, beq_iff_eq] at hd'
  obtain ⟨hready, hlen⟩ := hd'
  rw [h.rReady_eq hr, Bool.and_eq_true, decide_eq_true_iff] at hready
  obtain ⟨hp, hready⟩ := hready
  refine ⟨hd, r, hr, rfl, h.ars_of_rdReady hp hr hready, by simpa using hlen, fun k l hk => ?_⟩
  rcases Nat.lt_trichotomy k r.got.length with hlt | rfl | hgt
  · rw [List.getElem?_append_left hlt] at hk
    exact h.got p r hr k l hk
  · rw [List.getElem?_concat_length, Option.some_inj] at hk
    exact hk ▸ (h.isLine hp hr hready).2
  · rw [List.getElem?_eq_none (by simpa using Nat.succ_le_of_lt hgt)] at hk
    cases hk

theorem Inv.writeEnds (h : s.Inv) {p : WPort} {w : WriteRec} (hw : s.writes p = some w)
    (hd : s.wDone i p = true) : s.WriteEnds i p w.req := by
  have hready := hd
  simp only [wDone, hw, Option.any_some, h.wReady_eq hw, Bool.and_eq_true, decide_eq_true_iff] at hready
  obtain ⟨hp, hready⟩ := hready
  obtain ⟨haws, hpos, hmem⟩ := h.sent_of_wrReady hp hw hready
  have hcount := count_le w.req
  refine ⟨hd, w, hw, rfl, haws, Nat.eq_sub_of_add_eq hpos, hmem, fun k hk => ?_⟩
  rw [hmem]
  exact Mem.line_image _ _ _ (by omega) (by omega)

end Transport

variable {TIMEOUT_LIMIT : BitVec 16} {σ : ℕ → Transport} {ι : ℕ → TransportInputs}

namespace Transport

/-- A read comes to its end, and is held until then: every cycle on which it does not brings it
    nearer (`Inv.rRank_next`). -/
theorem exists_rDone (h : (transport TIMEOUT_LIMIT).IsRun σ ι) {n : ℕ} {p : RPort} {r : ReadRec}
    (hr : (σ n).reads p = some r) :
    ∃ m ≥ n, (∀ k, n ≤ k → k ≤ m → ∃ r', (σ k).reads p = some r' ∧ r'.req = r.req) ∧
      (σ m).rDone (ι m) p = true := by
  refine Circuit.exists_of_rank (rRank p)
    (P := fun s => ∃ r', s.reads p = some r' ∧ r'.req = r.req) (Q := fun s i => s.rDone i p = true)
    (fun k hk hd => ?_) ⟨r, hr, rfl⟩
  obtain ⟨r', hr', he⟩ := hk
  obtain ⟨⟨r'', hr'', he'⟩, hlt⟩ :=
    (inv_of_reachable (h.reachable k)).rRank_next (h.admits k) hr' (Bool.not_eq_true _ ▸ hd)
  rw [h.next k]
  exact ⟨⟨r'', hr'', he'.trans he⟩, hlt⟩

/-- So does a write. -/
theorem exists_wDone (h : (transport TIMEOUT_LIMIT).IsRun σ ι) {n : ℕ} {p : WPort} {w : WriteRec}
    (hw : (σ n).writes p = some w) :
    ∃ m ≥ n, (∀ k, n ≤ k → k ≤ m → ∃ w', (σ k).writes p = some w' ∧ w'.req = w.req) ∧
      (σ m).wDone (ι m) p = true := by
  refine Circuit.exists_of_rank (wRank p)
    (P := fun s => ∃ w', s.writes p = some w' ∧ w'.req = w.req) (Q := fun s i => s.wDone i p = true)
    (fun k hk hd => ?_) ⟨w, hw, rfl⟩
  obtain ⟨w', hw', he⟩ := hk
  obtain ⟨⟨w'', hw'', he'⟩, hlt⟩ :=
    (inv_of_reachable (h.reachable k)).wRank_next (h.admits k) hw' (Bool.not_eq_true _ ▸ hd)
  rw [h.next k]
  exact ⟨⟨w'', hw'', he'.trans he⟩, hlt⟩

end Transport

/-- While no timeout fires every request is served, once: it is held until its end, when
    one burst has moved all its lines, in order, for its own requester. -/
theorem transport_of_isRun (h : (transport TIMEOUT_LIMIT).IsRun σ ι) :
    (∀ n, (σ n).InOrder (ι n)) ∧
    (∀ n p r, (σ n).reads p = some r →
      ∃ m ≥ n, (∀ k, n ≤ k → k ≤ m → ∃ r', (σ k).reads p = some r' ∧ r'.req = r.req) ∧
        (σ m).ReadEnds (ι m) p r.req) ∧
    ∀ n p w, (σ n).writes p = some w →
      ∃ m ≥ n, (∀ k, n ≤ k → k ≤ m → ∃ w', (σ k).writes p = some w' ∧ w'.req = w.req) ∧
        (σ m).WriteEnds (ι m) p w.req := by
  have hinv : ∀ n, (σ n).Inv := fun n => Transport.inv_of_reachable (h.reachable n)
  refine ⟨fun n => (hinv n).inOrder, fun n p r hr => ?_, fun n p w hw => ?_⟩
  · obtain ⟨m, hm, hall, hd⟩ := Transport.exists_rDone h hr
    obtain ⟨r', hr', he⟩ := hall m hm le_rfl
    exact ⟨m, hm, hall, he ▸ (hinv m).readEnds hr' hd⟩
  · obtain ⟨m, hm, hall, hd⟩ := Transport.exists_wDone h hw
    obtain ⟨w', hw', he⟩ := hall m hm le_rfl
    exact ⟨m, hm, hall, he ▸ (hinv m).writeEnds hw' hd⟩

/-! ## A run -/

/-- Everything out of reset, over a memory of zeros. -/
def resetTransport : Transport where
  arb := ⟨none, .D, 0, 1, 0, none, true, 0, 1, 0⟩
  rd := ⟨.RD_IDLE, 0, 0, 0, 1, 0, false, false, 0, 0, false⟩
  wr := ⟨.WR_IDLE, 0, 0, 0, 1, 0, 0, false, false, false, false, 0, 0, false⟩
  mem _ := 0
  rtxn := none
  wtxn := none
  reads _ := none
  writes _ := none
  mem0 _ := 0

/-- The accelerator asks to read two lines and to write two lines while both caches ask
    for a line; the memory is always ready. -/
def allAtOnce (n : ℕ) : TransportInputs where
  startRd p := if n = 0 then some ⟨0x1000, if p = .A then 2 else 1⟩ else none
  startWr p := if n = 0 && p = .A then some ⟨0x2000, 2, fun k => BitVec.ofNat 128 (k + 1)⟩ else none
  accelRd := none
  accelWr := none
  mAxiArready := true
  mAxiRvalid := true
  mAxiAwready := true
  mAxiWready := true
  mAxiBvalid := true

theorem fits_allAtOnce (n : ℕ) : (allAtOnce n).Fits where
  rd p r hr := by
    simp only [allAtOnce, Option.mem_def, Option.ite_none_right_eq_some, Option.some_inj] at hr
    obtain ⟨-, rfl⟩ := hr
    cases p <;> decide
  wr p r hr := by
    simp only [allAtOnce, Option.mem_def, Option.ite_none_right_eq_some, Option.some_inj,
      Bool.and_eq_true, decide_eq_true_iff] at hr
    obtain ⟨⟨-, rfl⟩, rfl⟩ := hr
    decide
  dcache := by simp [allAtOnce]

/-- A memory that is always ready never lets a timeout come near. -/
theorem Transport.Inv.tmo_next {s : Transport} {n : ℕ} (h : s.Inv) :
    ((transport TIMEOUT_LIMIT).next s (allAtOnce n)).rd.rdTmo = 0 ∧
      ((transport TIMEOUT_LIMIT).next s (allAtOnce n)).wr.wrTmo = 0 := by
  refine ⟨RdRegs.rdTmo_next_of_ready rfl fun hst => ?_, WrRegs.wrTmo_next_of_ready rfl rfl rfl⟩
  -- a burst that is being read is in the memory
  obtain ⟨p, r, hp, hr⟩ := h.rState_of_rdState (.inl (by simp [hst]))
  have hi := h.rd
  rw [readSys_busy hp hr] at hi
  simp only [ReadSys.Inv, hst] at hi
  have htx : s.rtxn.isSome = true := by
    rw [show s.rtxn = _ from hi.2.2.txn]
    rfl
  simp [rdIn, allAtOnce, htx]

theorem admits_of_tmo {s : Transport} {n : ℕ} (h0 : s.rd.rdTmo = 0 ∧ s.wr.wrTmo = 0) :
    (transport 100).admits s (allAtOnce n) :=
  ⟨fits_allAtOnce n, by simp [RdRegs.rdTimeout, h0.1], by simp [WrRegs.wrTimeout, h0.2]⟩

theorem isRun_allAtOnce :
    (transport 100).IsRun ((transport 100).trace resetTransport allAtOnce) allAtOnce := by
  have hreset : resetTransport.IsReset :=
    ⟨⟨rfl, rfl, rfl, rfl, rfl, rfl, rfl, rfl, rfl, rfl⟩,
      ⟨rfl, rfl, rfl, rfl, rfl, rfl, rfl, rfl, rfl, rfl, rfl⟩,
      ⟨rfl, rfl, rfl, rfl, rfl, rfl, rfl, rfl, rfl, rfl, rfl, rfl, rfl, rfl⟩, rfl, rfl,
      fun _ => rfl, fun _ => rfl⟩
  refine Circuit.isRun_trace hreset fun n => admits_of_tmo ?_
  suffices h : ((transport 100).trace resetTransport allAtOnce n).Inv ∧
      ((transport 100).trace resetTransport allAtOnce n).rd.rdTmo = 0 ∧
      ((transport 100).trace resetTransport allAtOnce n).wr.wrTmo = 0 from h.2
  induction n with
  | zero => exact ⟨Transport.inv_of_isReset hreset, rfl, rfl⟩
  | succ n ih => exact ⟨ih.1.next (admits_of_tmo ih.2), ih.1.tmo_next⟩

/-- The lines of the accelerator are read and written, whatever the caches ask for
    meanwhile. -/
theorem allAtOnce_ends :
    (∃ m ≥ 1,
      ((transport 100).trace resetTransport allAtOnce m).ReadEnds (allAtOnce m) .A ⟨0x1000, 2⟩) ∧
      ∃ m ≥ 1, ((transport 100).trace resetTransport allAtOnce m).WriteEnds (allAtOnce m) .A
        ⟨0x2000, 2, fun k => BitVec.ofNat 128 (k + 1)⟩ := by
  obtain ⟨-, hrd, hwr⟩ := transport_of_isRun isRun_allAtOnce
  obtain ⟨m, hm, -, hr⟩ := hrd 1 .A (.fresh ⟨0x1000, 2⟩) rfl
  obtain ⟨k, hk, -, hw⟩ := hwr 1 .A (.fresh ⟨0x2000, 2, fun k => BitVec.ofNat 128 (k + 1)⟩) rfl
  exact ⟨⟨m, hm, hr⟩, k, hk, hw⟩

end AxiRw

end Rv32Soc
