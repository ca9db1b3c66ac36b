import Mathlib.Tactic.Ring
import Rv32Soc.Accel.Array

/-!
# What a load leaves in the buffers

The load engine walks over the lanes of A and then of B, a line at a time. It asks for a
whole panel at once where the lanes follow each other in memory, and for one line at a time
otherwise; a request that is granted is served line by line, in order.

* `Transfer`, `rdNext`, `ReadService`: the read channel as the accelerator sees it, with any
  delay before a grant and before each line;
* `Loading`: the engine, its request and the buffers in the middle of a load, whichever of
  the two ways it goes; one edge leads to the next line (`Loading.next_ready`) or leaves
  everything as it is (`Loading.next_wait`);
* `load_of_run`: when `ldDone` rises the lines are in their rows, and nothing else changed.
-/

namespace Rv32Soc

/-! ## The read channel -/

/-- A request that is being served: how many of its lines are through. -/
structure Transfer where
  addr : Word
  lines : ℕ
  pos : ℕ
  deriving DecidableEq

/-- The address of the next line. -/
def Transfer.next (t : Transfer) : Word := t.addr + BitVec.ofNat 32 (16 * t.pos)

/-- The transfer after a line. -/
def Transfer.advance (t : Transfer) : Option Transfer :=
  if t.pos + 1 = t.lines then none else some { t with pos := t.pos + 1 }

namespace MmAccel

variable (p : MmParams) (s : MmAccel)

/-- The request to read, as the arbiter copies it: no lines stand for one. -/
def rdTransfer : Transfer :=
  ⟨s.memRdReqAddr p, (if s.memRdReqLines p = 0 then 1 else s.memRdReqLines p).toNat, 0⟩

/-- The read channel after an edge: a request is granted when none is served, and released with
    its last line. -/
def rdNext (grant ready : Bool) (x : Option Transfer) : Option Transfer :=
  match x with
  | none => if grant && s.memRdReqValid then some (s.rdTransfer p) else none
  | some t => if ready then t.advance else some t

end MmAccel

/-- The read channel `χ` serves the accelerator from the memory `m`. -/
structure ReadService (p : MmParams) (m : Mem) (σ : ℕ → MmAccel) (ι : ℕ → MmInputs)
    (χ : ℕ → Option Transfer) : Prop where
  next : ∀ n, ∃ grant, χ (n + 1) = (σ n).rdNext p grant (ι n).memRdReady (χ n)
  line : ∀ n, (ι n).memRdReady → ∃ t, χ n = some t ∧ (ι n).memRline = m.line t.next

/-- The read channel `χ` serves the accelerator, whatever the lines hold. -/
structure ReadTiming (p : MmParams) (σ : ℕ → MmAccel) (ι : ℕ → MmInputs)
    (χ : ℕ → Option Transfer) : Prop where
  next : ∀ n, ∃ grant, χ (n + 1) = (σ n).rdNext p grant (ι n).memRdReady (χ n)
  line : ∀ n, (ι n).memRdReady → χ n ≠ none

theorem ReadService.timing {p : MmParams} {m : Mem} {σ : ℕ → MmAccel} {ι : ℕ → MmInputs}
    {χ : ℕ → Option Transfer} (h : ReadService p m σ ι χ) : ReadTiming p σ ι χ where
  next := h.next
  line n hr := by
    obtain ⟨t, ht, -⟩ := h.line n hr
    rw [ht]
    nofun

/-- The dimensions that the accelerator is built for. -/
def MmParams.GoodDim (p : MmParams) : Prop := p.dim = 2 ∨ p.dim = 4 ∨ p.dim = 8 ∨ p.dim = 16

namespace MmParams

variable {p : MmParams}

theorem GoodDim.two_pow (h : p.GoodDim) : 2 ^ log2Ceil p.dim = p.dim := by
  rcases h with h | h | h | h <;> rw [h] <;> decide

theorem GoodDim.le (h : p.GoodDim) : 2 ≤ p.dim ∧ p.dim ≤ 16 := by
  rcases h with h | h | h | h <;> rw [h] <;> decide

theorem GoodDim.le_laneBits (h : p.GoodDim) : p.dim ≤ 2 ^ p.laneBits := by
  refine h.two_pow.symm.le.trans (Nat.pow_le_pow_right (by decide) ?_)
  exact le_max_left _ _

theorem linesPerLane_le_lplBits (p : MmParams) : p.linesPerLane ≤ 2 ^ p.lplBits := by
  obtain ⟨j, hj, -⟩ := p.linesPerLane_pow
  rw [hj]
  refine Nat.pow_le_pow_right (by decide) ?_
  rw [lplBits, hj]
  refine le_trans ?_ (le_max_left _ _)
  unfold log2Ceil
  split
  · next h =>
    rcases j with _ | j
    · exact le_rfl
    · exact absurd h (by rw [pow_succ]; have := Nat.two_pow_pos j; omega)
  · next h =>
    rcases j with _ | j
    · exact absurd le_rfl h
    · refine Nat.succ_le_succ ((Nat.le_log2 (by omega)).2 ?_)
      rw [pow_succ]
      have := Nat.two_pow_pos j
      omega

end MmParams

theorem linesOf_le (p : MmParams) (K : ℕ) : 1 ≤ linesOf p K ∧ linesOf p K ≤ p.linesPerLane := by
  have := p.linesPerLane_pos
  unfold linesOf
  split <;> omega

/-! ## Rows -/

/-- The first `k` lines of a panel in the rows of its lanes from `off` on, `L` for each of the `D`
    lanes, over the rows `old`. -/
def loadRows (D L off : ℕ) (line old : ℕ → ℕ → Line) (k : ℕ) (i r : ℕ) : Line :=
  if i < D ∧ off ≤ r ∧ r - off < L ∧ i * L + (r - off) < k then line i (r - off) else old i r

@[simp]
theorem loadRows_zero (D L off : ℕ) (line old : ℕ → ℕ → Line) :
    loadRows D L off line old 0 = old := by
  funext i r
  simp [loadRows]

theorem loadRows_congr {D L off k : ℕ} {line line' old : ℕ → ℕ → Line}
    (h : ∀ i r, i < D → r < L → i * L + r < k → line i r = line' i r) :
    loadRows D L off line old k = loadRows D L off line' old k := by
  funext i r
  unfold loadRows
  split
  · next hc => exact h i _ hc.1 hc.2.2.1 hc.2.2.2
  · rfl

/-- The lines are numbered by their lane first. -/
theorem laneLine_lt {D L i r : ℕ} (hi : i < D) (hr : r < L) : i * L + r < D * L := by
  have hlane := Nat.mul_le_mul_right L hi
  rw [Nat.succ_mul] at hlane
  omega

/-- The rows of a panel that is all there. -/
theorem loadRows_all {D L off i r : ℕ} (line old : ℕ → ℕ → Line) (hi : i < D) (hr : r < L) :
    loadRows D L off line old (D * L) i (off + r) = line i r := by
  rw [loadRows, Nat.add_sub_cancel_left, if_pos ⟨hi, Nat.le_add_right _ _, hr, laneLine_lt hi hr⟩]

/-- Other rows stay as they were. -/
theorem loadRows_of_not {D L off k i r : ℕ} {line old : ℕ → ℕ → Line}
    (h : ¬(i < D ∧ off ≤ r ∧ r - off < L)) : loadRows D L off line old k i r = old i r :=
  if_neg fun h' => h ⟨h'.1, h'.2.1, h'.2.2.1⟩

/-- One more line. -/
theorem loadRows_succ {D L off : ℕ} {line old : ℕ → ℕ → Line} {lane chunk : ℕ}
    (hl : lane < D) (hc : chunk < L) (i r : ℕ) :
    loadRows D L off line old (lane * L + chunk + 1) i r =
      if lane = i ∧ off + chunk = r then line lane chunk
      else loadRows D L off line old (lane * L + chunk) i r := by
  by_cases h : lane = i ∧ off + chunk = r
  · obtain ⟨rfl, rfl⟩ := h
    rw [if_pos ⟨rfl, rfl⟩, loadRows, Nat.add_sub_cancel_left,
      if_pos ⟨hl, Nat.le_add_right _ _, hc, by omega⟩]
  · rw [if_neg h, loadRows, loadRows]
    refine if_congr ?_ rfl rfl
    refine and_congr_right fun hi => and_congr_right fun ho => and_congr_right fun hr => ?_
    -- the lines are numbered by their lane first
    have hne : i * L + (r - off) ≠ lane * L + chunk := by
      intro he
      rcases lt_trichotomy i lane with hlt | rfl | hlt
      · have := Nat.mul_le_mul_right L hlt
        rw [Nat.succ_mul] at this
        omega
      · exact h ⟨rfl, by omega⟩
      · have := Nat.mul_le_mul_right L hlt
        rw [Nat.succ_mul] at this
        omega
    omega

/-! ## The engine -/

namespace MmAccel

/-- The lines of a lane. -/
def LoadConfig.lines (p : MmParams) (c : LoadConfig) : ℕ := linesOf p c.ldKLen

/-- The distance between the lanes. -/
def LoadConfig.stride (p : MmParams) (c : LoadConfig) : Word :=
  if c.srcStride = 0 then BitVec.ofNat 32 (16 * c.lines p) else c.srcStride

/-- A panel is fetched with one request. -/
def LoadConfig.burst (p : MmParams) (c : LoadConfig) : Bool :=
  p.enableReadBursts && c.stride p == BitVec.ofNat 32 (16 * c.lines p)

/-- The address of the line `r` of the lane `i`. -/
def LoadConfig.addr (p : MmParams) (c : LoadConfig) (inB : Bool) (i r : ℕ) : Word :=
  (if inB then c.bSrcAddr else c.aSrcAddr) + BitVec.ofNat 32 i * c.stride p + BitVec.ofNat 32 (16 * r)

variable (p : MmParams) (s : MmAccel)

/-- The lines of the panel that are through. -/
def ldPos : ℕ := s.ld.ldLane * s.ldLines p + s.ld.ldChunk

/-- The lines of A that are through. -/
def aCount : ℕ := if s.ld.ldBOnly then 0 else if s.ld.ldInB then p.dim * s.ldLines p else s.ldPos p

/-- The lines of B that are through. -/
def bCount : ℕ := if s.ld.ldInB then s.ldPos p else 0

/-- The lines that the request which is served still owes. -/
def ldOwed : ℕ := if s.burstOK p then p.dim * s.ldLines p - s.ldPos p else 1

/-- The engine in the middle of a load, with its request `x`: the lines that are through have gone
    to their rows, over the buffers `buf`. -/
structure Loading (p : MmParams) (line : Bool → ℕ → ℕ → Line) (c : LoadConfig) (buf : OperandBuffers)
    (s : MmAccel) (x : Option Transfer) : Prop where
  busy : s.ld.ldBusy = true
  done : s.ld.ldDone = false
  conf : s.loadConfig = c
  bOnly : s.ld.ldBOnly → s.ld.ldInB
  lane : s.ld.ldLane < p.dim
  chunk : s.ld.ldChunk < s.ldLines p
  req : s.ld.ldReq = (s.ldPos p == 0 || !s.burstOK p)
  idle : x = none → s.ld.ldReq
  serve : ∀ t, x = some t → t.next = s.ldNextAddr p ∧ t.lines = t.pos + s.ldOwed p
  aMem : s.buf.aMem = loadRows p.dim (c.lines p) 0 (line false) buf.aMem (s.aCount p)
  bMem : s.buf.bMem =
    loadRows p.dim (c.lines p) (p.bAddr c.bPanelLoad 0) (line true) buf.bMem (s.bCount p)

/-- The engine after a load. -/
structure Loaded (p : MmParams) (line : Bool → ℕ → ℕ → Line) (c : LoadConfig) (bOnly : Bool)
    (buf : OperandBuffers) (s : MmAccel) : Prop where
  busy : s.ld.ldBusy = false
  done : s.ld.ldDone = true
  aMem : s.buf.aMem =
    loadRows p.dim (c.lines p) 0 (line false) buf.aMem (if bOnly then 0 else p.dim * c.lines p)
  bMem : s.buf.bMem =
    loadRows p.dim (c.lines p) (p.bAddr c.bPanelLoad 0) (line true) buf.bMem (p.dim * c.lines p)

variable {p s} {i : MmInputs} {c : LoadConfig} {line : Bool → ℕ → ℕ → Line} {buf : OperandBuffers}
  {x : Option Transfer}

theorem ldLines_of_conf (h : s.loadConfig = c) : s.ldLines p = c.lines p := by
  rw [← h]
  rfl

theorem burstOK_of_conf (h : s.loadConfig = c) : s.burstOK p = c.burst p := by
  rw [← h]
  rfl

theorem ldNextAddr_of_conf (h : s.loadConfig = c) :
    s.ldNextAddr p = c.addr p s.ld.ldInB s.ld.ldLane s.ld.ldChunk := by
  rw [← h]
  rfl

/-- Where the lanes follow each other the lines are numbered through. -/
theorem ldNextAddr_of_burstOK (h : s.burstOK p) :
    s.ldNextAddr p = s.panelBase + BitVec.ofNat 32 (16 * s.ldPos p) := by
  simp only [burstOK, Bool.and_eq_true, beq_iff_eq] at h
  rw [ldNextAddr, h.2, BitVec.add_assoc, ← BitVec.ofNat_mul, ← BitVec.ofNat_add, ldPos]
  congr 2
  ring

namespace Loading

theorem ldRow_eq (h : Loading p line c buf s x) : s.ldRow p = s.ld.ldChunk := by
  unfold ldRow
  split
  · next h₁ =>
    have h₂ := (linesOf_le p s.regs.ldKLen).2
    have h₃ := h.chunk
    rw [ldLines_eq] at h₃
    omega
  · rfl

/-- The last line of a panel. -/
theorem ldPanelEnd_iff (h : Loading p line c buf s x) :
    s.ldPanelEnd p = true ↔ s.ldPos p + 1 = p.dim * s.ldLines p := by
  have h₁ := h.lane
  have h₂ := h.chunk
  simp only [ldPanelEnd, ldLastLane, ldLastChunk, Bool.and_eq_true, beq_iff_eq, ldPos]
  obtain ⟨d, hd⟩ := Nat.exists_eq_add_of_lt h₁
  rw [hd]
  constructor
  · rintro ⟨h₃, h₄⟩
    have : d = 0 := by omega
    subst this
    rw [h₄, Nat.add_zero, Nat.succ_mul]
    omega
  · intro h₃
    have hd₀ : d * s.ldLines p = 0 := by
      have : (s.ld.ldLane + d + 1) * s.ldLines p =
          s.ld.ldLane * s.ldLines p + d * s.ldLines p + s.ldLines p := by
        ring
      omega
    have hL : 0 < s.ldLines p := by omega
    have : d = 0 := by
      rcases Nat.mul_eq_zero.1 hd₀ with h | h
      · exact h
      · omega
    subst this
    rw [Nat.add_zero, Nat.succ_mul] at h₃
    omega

theorem ldPos_lt (h : Loading p line c buf s x) : s.ldPos p < p.dim * s.ldLines p :=
  laneLine_lt h.lane h.chunk

end Loading

/-- Nothing interferes with a load on this cycle: it is neither started again nor reset, the sequencer
    adopts no descriptor, and nothing is pushed. -/
structure LoadAlone (p : MmParams) (s : MmAccel) (i : MmInputs) : Prop where
  reset : s.softRstPulse i = false
  start : s.ldStartAny i = false
  adopts : s.adopted p = none
  pushA : s.pushA i = false
  pushB : s.pushB i = false

theorem LoadAlone.loadConfig_next (h : s.LoadAlone p i) (hb : s.ld.ldBusy) :
    (s.next p i).loadConfig = s.loadConfig := by
  simp [loadConfig, nextRegs, hb, h.adopts]

/-- What the engine does next depends on its registers and its configuration. -/
theorem engine_congr {s' : MmAccel} (h₁ : s'.ld = s.ld) (h₂ : s'.loadConfig = s.loadConfig) :
    s'.ldLines p = s.ldLines p ∧ s'.burstOK p = s.burstOK p ∧ s'.ldPos p = s.ldPos p ∧
      s'.aCount p = s.aCount p ∧ s'.bCount p = s.bCount p ∧ s'.ldOwed p = s.ldOwed p ∧
      s'.ldNextAddr p = s.ldNextAddr p := by
  have hl : s'.ldLines p = s.ldLines p := by rw [ldLines_of_conf h₂, ldLines_of_conf rfl]
  have hb : s'.burstOK p = s.burstOK p := by rw [burstOK_of_conf h₂, burstOK_of_conf rfl]
  have hp : s'.ldPos p = s.ldPos p := by rw [ldPos, ldPos, h₁, hl]
  refine ⟨hl, hb, hp, ?_, ?_, ?_, ?_⟩
  · rw [aCount, aCount, h₁, hp, hl]
  · rw [bCount, bCount, h₁, hp]
  · rw [ldOwed, ldOwed, hb, hp, hl]
  · rw [ldNextAddr_of_conf h₂, h₁, ldNextAddr_of_conf rfl]

theorem LoadAlone.nextLd_wait (h : s.LoadAlone p i) (hr : i.memRdReady = false) :
    s.nextLd p i = s.ld := by
  simp [nextLd, nextLd', h.reset, h.start, hr]

/-- The rows that a line goes to. -/
theorem LoadAlone.nextBuf_eq (h : s.LoadAlone p i) (hb : s.ld.ldBusy) (l r : ℕ) :
    (s.nextBuf p i).aMem l r =
        (if i.memRdReady ∧ s.ld.ldInB = false ∧ s.ld.ldLane = l ∧ s.ldRow p = r then i.memRline
        else s.buf.aMem l r) ∧
      (s.nextBuf p i).bMem l r =
        if i.memRdReady ∧ s.ld.ldInB = true ∧ s.ld.ldLane = l ∧
        p.bAddr s.regs.bPanelLoad (s.ldRow p) = r then
          i.memRline
        else s.buf.bMem l r := by
  have hc : s.captures i = i.memRdReady := by simp [captures, h.start, hb]
  have hw : s.laneWrite p i l = if i.memRdReady && s.ld.ldLane == l then
      some
        { aWen := !s.ld.ldInB
          bWen := s.ld.ldInB
          aWrow := s.ldRow p
          bWrow := p.bAddr s.regs.bPanelLoad (s.ldRow p)
          write := fun _ => i.memRline }
      else none := by
    simp [laneWrite, hc, h.pushA, h.pushB]
  simp only [nextBuf, OperandBuffers.next, hw]
  cases hr : i.memRdReady
  · simp
  · by_cases hl : s.ld.ldLane = l
    · cases hB : s.ld.ldInB <;> simp [hl]
    · simp [hl]

/-- The request of the engine, as it is granted. -/
theorem Loading.rdTransfer_eq (h : Loading p line c buf s none) (hd : p.GoodDim) (hm : p.maxK ≤ 128) :
    (s.rdTransfer p).next = s.ldNextAddr p ∧ (s.rdTransfer p).lines = s.ldOwed p := by
  have hreq := h.req
  rw [h.idle rfl] at hreq
  have hL : s.ldLines p ≤ 8 := by
    have h₁ := (linesOf_le p s.regs.ldKLen).2
    have h₂ := p.linesPerLane_mul
    rw [ldLines_eq]
    omega
  have hL₁ : 1 ≤ s.ldLines p := (linesOf_le p s.regs.ldKLen).1
  cases hb : s.burstOK p
  · -- a line
    refine ⟨?_, ?_⟩
    · rw [Transfer.next, rdTransfer, memRdReqAddr, hb]
      simp
    · rw [rdTransfer, memRdReqLines, hb, ldOwed, hb]
      rfl
  · -- a panel, whose lines fit the eight bits of `memRdReqLines`
    have hpos : s.ldPos p = 0 := by simpa [hb] using hreq.symm
    have hlt : p.dim * s.ldLines p ≤ 16 * 8 := Nat.mul_le_mul hd.le.2 hL
    have hpp : s.linesPerPanel p = p.dim * s.ldLines p := by
      rw [linesPerPanel, if_neg (by have := hd.le.1; omega), hd.two_pow, Nat.mul_comm]
    have hne : 1 ≤ p.dim * s.ldLines p := Nat.mul_pos p.dim_pos hL₁
    have hnz : BitVec.ofNat 8 (p.dim * s.ldLines p) ≠ 0 := by
      intro h0
      have := congrArg BitVec.toNat h0
      rw [BitVec.toNat_ofNat, Nat.mod_eq_of_lt (by omega)] at this
      exact absurd this (Nat.ne_of_gt hne)
    refine ⟨?_, ?_⟩
    · rw [ldNextAddr_of_burstOK hb, hpos, Transfer.next, rdTransfer, memRdReqAddr, hb]
      rfl
    · rw [rdTransfer, memRdReqLines, hb, if_pos rfl, hpp, if_neg hnz, BitVec.toNat_ofNat,
        Nat.mod_eq_of_lt (by omega), ldOwed, hb, if_pos rfl, hpos, Nat.sub_zero]

namespace Loading

/-- A cycle on which no line comes in. -/
theorem next_wait (h : Loading p line c buf s x) (ha : s.LoadAlone p i) (hr : i.memRdReady = false)
    (hd : p.GoodDim) (hm : p.maxK ≤ 128) (grant : Bool) :
    Loading p line c buf (s.next p i) (s.rdNext p grant false x) := by
  have hld : (s.next p i).ld = s.ld := ha.nextLd_wait hr
  have hcf := ha.loadConfig_next h.busy
  obtain ⟨h₁, h₂, h₃, h₄, h₅, h₆, h₇⟩ := engine_congr (p := p) hld hcf
  have hbuf := ha.nextBuf_eq h.busy
  constructor
  case busy => rw [hld, h.busy]
  case done => rw [hld, h.done]
  case conf => exact hcf.trans h.conf
  case bOnly =>
    rw [hld]
    exact h.bOnly
  case lane =>
    rw [hld]
    exact h.lane
  case chunk =>
    rw [hld, h₁]
    exact h.chunk
  case req =>
    rw [hld, h₂, h₃]
    exact h.req
  case idle =>
    intro hx
    rw [hld]
    rcases x with _ | t
    · exact h.idle rfl
    · cases hx
  case serve =>
    intro t ht
    rw [h₆, h₇]
    rcases x with _ | t'
    · -- the request is granted
      simp only [rdNext] at ht
      split at ht
      · cases ht
        obtain ⟨hn, hl⟩ := h.rdTransfer_eq hd hm
        exact ⟨hn, by rw [hl]; exact (Nat.zero_add _).symm⟩
      · cases ht
    · exact h.serve t ht
  case aMem =>
    rw [h₄, ← h.aMem]
    funext l r
    rw [next_buf, (hbuf l r).1, hr]
    simp
  case bMem =>
    rw [h₅, ← h.bMem]
    funext l r
    rw [next_buf, (hbuf l r).2, hr]
    simp

/-- The registers of the engine after a line that is not the last one. -/
theorem nextLd_ready (h : Loading p line c buf s x) (ha : s.LoadAlone p i) (hr : i.memRdReady = true)
    (hd : p.GoodDim) (hf : (s.ldPanelEnd p && s.ld.ldInB) = false) :
    (s.nextLd p i).ldBusy = true ∧ (s.nextLd p i).ldDone = false ∧
    (s.nextLd p i).ldBOnly = s.ld.ldBOnly ∧
      (s.nextLd p i).ldInB = (s.ld.ldInB || s.ldPanelEnd p) ∧ (s.nextLd p i).ldLane < p.dim ∧
      (s.nextLd p i).ldChunk < s.ldLines p ∧
      (s.nextLd p i).ldLane * s.ldLines p + (s.nextLd p i).ldChunk =
        (if s.ldPanelEnd p then 0 else s.ldPos p + 1) ∧
      (s.nextLd p i).ldReq = (if s.burstOK p then !s.ld.ldInB && s.ldPanelEnd p else true) := by
  have hL : s.ldLines p ≤ 2 ^ p.lplBits := (linesOf_le p s.regs.ldKLen).2.trans p.linesPerLane_le_lplBits
  have h₁ := h.lane
  have h₂ := h.chunk
  have h₃ := hd.le_laneBits
  have hn : s.nextLd p i =
      { s.ld with
        ldChunk := if s.ldLastChunk p then 0 else (s.ld.ldChunk + 1) % 2 ^ p.lplBits
        ldLane :=
          if s.ldLastChunk p then if s.ldLastLane p then 0 else (s.ld.ldLane + 1) % 2 ^ p.laneBits
          else s.ld.ldLane
        ldInB := s.ld.ldInB || s.ldPanelEnd p
        ldReq := if s.burstOK p then !s.ld.ldInB && s.ldPanelEnd p else true } := by
    rw [nextLd, ha.reset, nextLd', ha.start, h.busy, hr, hf]
    rfl
  rw [hn]
  -- the counters wrap at the last lane and the last line of a lane, and nowhere else
  refine ⟨h.busy, h.done, rfl, rfl, ?_, ?_, ?_, rfl⟩
  · simp only [ldLastLane, beq_iff_eq]
    split
    · split
      · omega
      · rw [Nat.mod_eq_of_lt (by omega)]
        omega
    · exact h₁
  · simp only [ldLastChunk, beq_iff_eq]
    split
    · omega
    · rw [Nat.mod_eq_of_lt (by omega)]
      omega
  · have he : s.ldPanelEnd p = (s.ldLastLane p && s.ldLastChunk p) := rfl
    dsimp only
    by_cases hc : s.ldLastChunk p = true
    · have hc' : s.ld.ldChunk = s.ldLines p - 1 := beq_iff_eq.1 hc
      by_cases hl : s.ldLastLane p = true
      · simp [he, hc, hl]
      · have hl' : s.ld.ldLane ≠ p.dim - 1 := fun h' => hl (beq_iff_eq.2 h')
        rw [he, hc, Bool.and_true, if_neg hl, if_neg hl, if_pos rfl, if_pos rfl,
          Nat.mod_eq_of_lt (by omega), Nat.succ_mul, ldPos]
        omega
    · have hc' : s.ld.ldChunk ≠ s.ldLines p - 1 := fun h' => hc (beq_iff_eq.2 h')
      rw [if_neg hc, if_neg hc, if_neg (by simp [he, hc]), Nat.mod_eq_of_lt (by omega),
        ldPos, Nat.add_assoc]

/-- The buffers after a line. -/
theorem nextBuf_ready (h : Loading p line c buf s x) (ha : s.LoadAlone p i) (hr : i.memRdReady = true)
    (hline : i.memRline = line s.ld.ldInB s.ld.ldLane s.ld.ldChunk) :
    (s.nextBuf p i).aMem = loadRows p.dim (c.lines p) 0 (line false) buf.aMem
        (if s.ld.ldInB then s.aCount p else s.aCount p + 1) ∧
      (s.nextBuf p i).bMem = loadRows p.dim (c.lines p) (p.bAddr c.bPanelLoad 0) (line true) buf.bMem
        (if s.ld.ldInB then s.bCount p + 1 else s.bCount p) := by
  have hbuf := ha.nextBuf_eq h.busy
  have hL := ldLines_of_conf (p := p) h.conf
  have hpl : s.regs.bPanelLoad = c.bPanelLoad := by
    rw [← h.conf]
    rfl
  have hchunk := h.chunk
  rw [hL] at hchunk
  cases hB : s.ld.ldInB
  · -- a line of A, and the buffer of B stays
    have hbo : s.ld.ldBOnly = false := Bool.eq_false_iff.2 fun h' => by simp [h.bOnly h'] at hB
    have hcount : s.aCount p = s.ld.ldLane * c.lines p + s.ld.ldChunk := by
      rw [aCount, hbo, hB, ldPos, hL]
      rfl
    refine ⟨?_, ?_⟩
    · funext l r
      rw [(hbuf l r).1, if_neg Bool.false_ne_true, hcount, loadRows_succ h.lane hchunk,
        ← hcount, ← h.aMem, hline, h.ldRow_eq, Nat.zero_add, hB]
      simp [hr]
    · rw [if_neg Bool.false_ne_true, ← h.bMem]
      funext l r
      rw [(hbuf l r).2, hB]
      simp
  · -- a line of B
    have hcount : s.bCount p = s.ld.ldLane * c.lines p + s.ld.ldChunk := by
      rw [bCount, hB, ldPos, hL]
      rfl
    refine ⟨?_, ?_⟩
    · rw [if_pos rfl, ← h.aMem]
      funext l r
      rw [(hbuf l r).1, hB]
      simp
    · funext l r
      rw [(hbuf l r).2, if_pos rfl, hcount, loadRows_succ h.lane hchunk, ← hcount, ← h.bMem,
        hline, h.ldRow_eq, hB, hpl, p.bAddr_eq, p.bAddr_eq, Nat.add_zero]
      simp [hr]

/-- The last line of a load. -/
theorem finish (h : Loading p line c buf s x) (ha : s.LoadAlone p i) (hr : i.memRdReady = true)
    (hline : i.memRline = line s.ld.ldInB s.ld.ldLane s.ld.ldChunk) (hB : s.ld.ldInB = true)
    (hend : s.ldPanelEnd p = true) :
    Loaded p line c s.ld.ldBOnly buf (s.next p i) := by
  obtain ⟨h₁, h₂⟩ := h.nextBuf_ready ha hr hline
  have hL := ldLines_of_conf (p := p) h.conf
  have hn : s.nextLd p i = { s.ld with ldBusy := false, ldDone := true, ldReq := false } := by
    rw [nextLd, ha.reset, nextLd', ha.start, h.busy, hr, hend, hB]
    rfl
  refine ⟨by rw [next_ld, hn], by rw [next_ld, hn], ?_, ?_⟩
  · rw [next_buf, h₁, hB, if_pos rfl, aCount, hB, hL, if_pos rfl]
  · rw [next_buf, h₂, hB, if_pos rfl, bCount, hB, if_pos rfl, h.ldPanelEnd_iff.1 hend, hL]

/-- The place in the panel after a line that is not the last one. -/
theorem ldPos_next (h : Loading p line c buf s x) (ha : s.LoadAlone p i) (hr : i.memRdReady = true)
    (hd : p.GoodDim) (hf : (s.ldPanelEnd p && s.ld.ldInB) = false) :
    ((s.next p i).ldLines p = s.ldLines p ∧ (s.next p i).burstOK p = s.burstOK p) ∧
      (s.next p i).ldPos p = if s.ldPanelEnd p then 0 else s.ldPos p + 1 := by
  have hcf := ha.loadConfig_next h.busy
  have hL : (s.next p i).ldLines p = s.ldLines p := by rw [ldLines_of_conf hcf, ldLines_of_conf rfl]
  refine ⟨⟨hL, by rw [burstOK_of_conf hcf, burstOK_of_conf rfl]⟩, ?_⟩
  rw [ldPos, hL]
  exact (h.nextLd_ready ha hr hd hf).2.2.2.2.2.2.1

/-- The lines of the two panels that are through. -/
theorem counts_next (h : Loading p line c buf s x) (ha : s.LoadAlone p i) (hr : i.memRdReady = true)
    (hd : p.GoodDim) (hf : (s.ldPanelEnd p && s.ld.ldInB) = false) :
    (s.next p i).aCount p = (if s.ld.ldInB then s.aCount p else s.aCount p + 1) ∧
      (s.next p i).bCount p = if s.ld.ldInB then s.bCount p + 1 else s.bCount p := by
  obtain ⟨-, -, hbo, hinB, -⟩ := h.nextLd_ready ha hr hd hf
  obtain ⟨⟨hL, -⟩, hpos⟩ := h.ldPos_next ha hr hd hf
  have hend := h.ldPanelEnd_iff
  constructor
  · rw [aCount, aCount, next_ld, hbo, hinB, hL, hpos]
    cases hb : s.ld.ldBOnly
    · cases hI : s.ld.ldInB
      · -- The panel of A goes on, or is through.
        cases he : s.ldPanelEnd p
        · simp
        · simp [hend.1 he]
      · simp
    · simp [h.bOnly hb]
  · rw [bCount, bCount, next_ld, hinB, hpos]
    cases hI : s.ld.ldInB
    · cases he : s.ldPanelEnd p <;> simp
    · rw [hI, Bool.and_true] at hf
      simp [hf]

/-- The channel is free again after the last line of a request, and the next request is raised: the
    request was for one line, or for all that was left of the panel. -/
theorem ldReq_next {t : Transfer} (h : Loading p line c buf s (some t)) (ha : s.LoadAlone p i)
    (hr : i.memRdReady = true) (hd : p.GoodDim) (hf : (s.ldPanelEnd p && s.ld.ldInB) = false)
    (hx : t.advance = none) : (s.next p i).ld.ldReq = true := by
  obtain ⟨-, -, -, -, -, -, -, hreq⟩ := h.nextLd_ready ha hr hd hf
  obtain ⟨-, hlines⟩ := h.serve t rfl
  rw [Transfer.advance] at hx
  split at hx
  · next hlast =>
    rw [next_ld, hreq]
    cases hb : s.burstOK p
    · rfl
    · have he : s.ldPanelEnd p = true := by
        rw [h.ldPanelEnd_iff]
        rw [hlines, ldOwed, hb, if_pos rfl] at hlast
        omega
      rw [he, Bool.true_and] at hf
      simp [he, hf]
  · cases hx

/-- A request that goes on is one for a whole panel, in the middle of it. -/
theorem burstOK_of_advance {t t' : Transfer} (h : Loading p line c buf s (some t))
    (hx : t.advance = some t') :
    s.burstOK p = true ∧ s.ldPanelEnd p = false ∧ t' = { t with pos := t.pos + 1 } := by
  obtain ⟨-, hlines⟩ := h.serve t rfl
  rw [Transfer.advance] at hx
  split at hx
  · cases hx
  · next hlast =>
    cases hx
    rw [hlines, ldOwed] at hlast
    have hb : s.burstOK p = true := by
      by_contra hb
      exact hlast (by rw [if_neg hb])
    rw [hb, if_pos rfl] at hlast
    refine ⟨hb, Bool.eq_false_iff.2 fun he => hlast ?_, rfl⟩
    have := h.ldPanelEnd_iff.1 he
    omega

/-- Its next line is the one that the engine waits for. -/
theorem serve_next {t t' : Transfer} (h : Loading p line c buf s (some t)) (ha : s.LoadAlone p i)
    (hr : i.memRdReady = true) (hd : p.GoodDim) (hf : (s.ldPanelEnd p && s.ld.ldInB) = false)
    (hx : t.advance = some t') :
    t'.next = (s.next p i).ldNextAddr p ∧ t'.lines = t'.pos + (s.next p i).ldOwed p := by
  obtain ⟨hb, he, rfl⟩ := h.burstOK_of_advance hx
  obtain ⟨-, -, -, hinB, -⟩ := h.nextLd_ready ha hr hd hf
  obtain ⟨⟨hL, hbu⟩, hpos⟩ := h.ldPos_next ha hr hd hf
  obtain ⟨hnext, hlines⟩ := h.serve t rfl
  have hcf := ha.loadConfig_next h.busy
  have hbase : (s.next p i).panelBase = s.panelBase := by
    have h₁ : (s.next p i).regs.bSrcAddr = s.regs.bSrcAddr := congrArg LoadConfig.bSrcAddr hcf
    have h₂ : (s.next p i).regs.aSrcAddr = s.regs.aSrcAddr := congrArg LoadConfig.aSrcAddr hcf
    rw [panelBase, panelBase, next_ld, hinB, he, Bool.or_false, h₁, h₂]
  rw [he, if_neg Bool.false_ne_true] at hpos
  refine ⟨?_, ?_⟩
  · rw [ldNextAddr_of_burstOK (hbu.trans hb), hbase, hpos, Nat.mul_succ, BitVec.ofNat_add,
      ← BitVec.add_assoc,
      ← ldNextAddr_of_burstOK hb, ← hnext, Transfer.next, Transfer.next, Nat.mul_succ, BitVec.ofNat_add,
      BitVec.add_assoc]
  · rw [ldOwed, hbu, hb, if_pos rfl, hpos, hL]
    rw [hlines, ldOwed, hb, if_pos rfl]
    have hne : ¬s.ldPos p + 1 = p.dim * s.ldLines p := fun h' => by simp [h.ldPanelEnd_iff.2 h'] at he
    have hlt := h.ldPos_lt
    simp only
    omega

/-- A line that is not the last one. -/
theorem next_ready {t : Transfer} (h : Loading p line c buf s (some t)) (ha : s.LoadAlone p i)
    (hr : i.memRdReady = true) (hline : i.memRline = line s.ld.ldInB s.ld.ldLane s.ld.ldChunk)
    (hd : p.GoodDim) (hf : (s.ldPanelEnd p && s.ld.ldInB) = false) :
    Loading p line c buf (s.next p i) t.advance := by
  obtain ⟨hbusy, hdone, hbo, hinB, hlane, hchunk, -, hreq⟩ := h.nextLd_ready ha hr hd hf
  obtain ⟨⟨hL, hbu⟩, hpos⟩ := h.ldPos_next ha hr hd hf
  obtain ⟨hA, hB⟩ := h.nextBuf_ready ha hr hline
  obtain ⟨hcA, hcB⟩ := h.counts_next ha hr hd hf
  constructor
  case busy => exact hbusy
  case done => exact hdone
  case conf => exact (ha.loadConfig_next h.busy).trans h.conf
  case bOnly =>
    rw [next_ld, hbo, hinB]
    intro h'
    simp [h.bOnly h']
  case lane => exact hlane
  case chunk =>
    rw [hL]
    exact hchunk
  case req =>
    rw [next_ld, hreq, hbu, hpos]
    cases hb : s.burstOK p
    · simp
    · cases he : s.ldPanelEnd p
      · simp
      · rw [he, Bool.true_and] at hf
        simp [hf]
  case idle => exact h.ldReq_next ha hr hd hf
  case serve => exact fun t' => h.serve_next ha hr hd hf
  case aMem => rw [next_buf, hA, hcA]
  case bMem => rw [next_buf, hB, hcB]

end Loading

/-- A load that is started, with nothing on its channel. -/
theorem loading_of_ldStartAny (line : Bool → ℕ → ℕ → Line) (hs : s.ldStartAny i)
    (hr : s.softRstPulse i = false) :
    Loading p line (s.next p i).loadConfig (s.next p i).buf (s.next p i) none ∧
      (s.next p i).ld.ldBOnly = s.startsBOnly i ∧ (s.next p i).aCount p + (s.next p i).bCount p = 0 := by
  have hn : (s.next p i).ld =
      { ldBusy := true
        ldDone := false
        ldBOnly := s.startsBOnly i
        ldInB := s.startsBOnly i
        ldLane := 0
        ldChunk := 0
        ldReq := true } := by
    rw [next_ld, nextLd, hr, nextLd', hs]
    rfl
  have hpos : (s.next p i).ldPos p = 0 := by
    rw [ldPos, hn]
    simp
  have hA : (s.next p i).aCount p = 0 := by
    rw [aCount, hn, hpos]
    cases s.startsBOnly i <;> rfl
  have hB : (s.next p i).bCount p = 0 := by
    rw [bCount, hn, hpos]
    cases s.startsBOnly i <;> rfl
  refine ⟨?_, by rw [hn], by rw [hA, hB]⟩
  constructor
  case busy => rw [hn]
  case done => rw [hn]
  case conf => rfl
  case bOnly =>
    rw [hn]
    exact id
  case lane =>
    rw [hn]
    exact p.dim_pos
  case chunk =>
    rw [hn]
    exact (linesOf_le p _).1
  case req =>
    rw [hn, hpos]
    rfl
  case idle =>
    rw [hn]
    exact fun _ => rfl
  case serve =>
    intro t ht
    cases ht
  case aMem => rw [hA, loadRows_zero]
  case bMem => rw [hB, loadRows_zero]

/-- Nothing is asked for, and nothing changes, after a load. -/
theorem Loaded.next {bOnly : Bool} (h : Loaded p line c bOnly buf s) (ha : s.LoadAlone p i) :
    Loaded p line c bOnly buf (s.next p i) ∧ s.captures i = false ∧ s.memRdReqValid = false := by
  have hc : s.captures i = false := by simp [captures, h.busy]
  have hld : (s.next p i).ld = s.ld := by
    rw [next_ld, nextLd, nextLd', ha.reset, ha.start, h.busy]
    rfl
  have hw : ∀ l, s.laneWrite p i l = none := by
    intro l
    simp [laneWrite, hc, ha.pushA, ha.pushB]
  refine ⟨⟨by rw [hld, h.busy], by rw [hld, h.done], ?_, ?_⟩, hc, by rw [memRdReqValid, h.busy]; rfl⟩
  · rw [← h.aMem, next_buf, nextBuf, OperandBuffers.next]
    simp only [hw]
  · rw [← h.bMem, next_buf, nextBuf, OperandBuffers.next]
    simp only [hw]

/-! ## Counting the lines -/

/-- The lines of the request that is granted between `x` and `y`. -/
def grantedLines (x y : Option Transfer) : ℕ := if x = none then (y.map Transfer.lines).getD 0 else 0

/-- The lines that the request `x` still owes. -/
def owedLines (x : Option Transfer) : ℕ := (x.map fun t => t.lines - t.pos).getD 0

/-- A load with the lines that have come in and those that have been asked for. -/
inductive LoadProgress (p : MmParams) (line : Bool → ℕ → ℕ → Line) (c : LoadConfig) (bOnly : Bool)
    (buf : OperandBuffers) (s : MmAccel) (x : Option Transfer) (taken asked : ℕ) : Prop
  | loading (h : Loading p line c buf s x) (hb : s.ld.ldBOnly = bOnly)
      (ht : taken = s.aCount p + s.bCount p) (ha : asked = taken + owedLines x)
  | loaded (h : Loaded p line c bOnly buf s) (hx : x = none)
      (ht : taken = (if bOnly then 1 else 2) * (p.dim * c.lines p)) (ha : asked = taken)

variable {bOnly : Bool} {taken asked : ℕ}

namespace Loading

theorem owedLines_eq {t : Transfer} (h : Loading p line c buf s (some t)) :
    t.lines - t.pos = s.ldOwed p := by
  rw [(h.serve t rfl).2, Nat.add_sub_cancel_left]

theorem owedLines_wait (h : Loading p line c buf s x) (grant : Bool) :
    owedLines (s.rdNext p grant false x) = owedLines x + grantedLines x (s.rdNext p grant false x) := by
  rcases x with _ | t
  · cases hg : grant && s.memRdReqValid <;> simp [rdNext, hg, owedLines, grantedLines, rdTransfer]
  · simp [rdNext, owedLines, grantedLines]

/-- The line that comes in is no longer owed. -/
theorem owedLines_advance {t : Transfer} (h : Loading p line c buf s (some t)) :
    owedLines t.advance + 1 = owedLines (some t) := by
  have howed : 1 ≤ s.ldOwed p := by
    rw [ldOwed]
    split
    · have hlt := h.ldPos_lt
      omega
    · exact le_rfl
  have hl := (h.serve t rfl).2
  rw [Transfer.advance]
  split
  · simp only [owedLines, Option.map_none, Option.getD_none, Option.map_some, Option.getD_some]
    omega
  · simp only [owedLines, Option.map_some, Option.getD_some]
    omega

/-- One more line is through. -/
theorem count_ready (h : Loading p line c buf s x) (ha : s.LoadAlone p i) (hr : i.memRdReady = true)
    (hd : p.GoodDim) (hf : (s.ldPanelEnd p && s.ld.ldInB) = false) :
    (s.next p i).aCount p + (s.next p i).bCount p = s.aCount p + s.bCount p + 1 := by
  obtain ⟨-, -, hbo, hinB, -, -, hpos, -⟩ := h.nextLd_ready ha hr hd hf
  have hL : (s.next p i).ldLines p = s.ldLines p := by
    rw [ldLines_of_conf (ha.loadConfig_next h.busy), ldLines_of_conf rfl]
  have hpos' : (s.next p i).ldPos p = if s.ldPanelEnd p then 0 else s.ldPos p + 1 := by
    rw [ldPos, hL]
    exact hpos
  have hend := h.ldPanelEnd_iff
  rw [aCount, bCount, aCount, bCount, next_ld, hbo, hinB, hL, hpos']
  cases hI : s.ld.ldInB
  · have hb : s.ld.ldBOnly = false := Bool.eq_false_iff.2 fun h' => by simp [h.bOnly h'] at hI
    cases he : s.ldPanelEnd p
    · simp [hb]
    · simp [hb, hend.1 he]
  · rw [hI, Bool.and_true] at hf
    simp [hf, Nat.add_assoc]

/-- All the lines are through with the last one. -/
theorem count_finish (h : Loading p line c buf s x) (hB : s.ld.ldInB = true)
    (hend : s.ldPanelEnd p = true) :
    s.aCount p + s.bCount p + 1 = (if s.ld.ldBOnly then 1 else 2) * (p.dim * c.lines p) := by
  have hpos := h.ldPanelEnd_iff.1 hend
  rw [aCount, bCount, hB, if_pos rfl, if_pos rfl, ← ldLines_of_conf h.conf]
  cases s.ld.ldBOnly
  · rw [if_neg Bool.false_ne_true, if_neg Bool.false_ne_true]
    omega
  · rw [if_pos rfl, if_pos rfl]
    omega

end Loading

/-- One edge of a load. -/
theorem LoadProgress.next (h : LoadProgress p line c bOnly buf s x taken asked) (ha : s.LoadAlone p i)
    (hd : p.GoodDim) (hm : p.maxK ≤ 128) (grant : Bool)
    (hline : i.memRdReady → ∃ t, x = some t ∧ (s.ld.ldBusy → t.next = s.ldNextAddr p →
      i.memRline = line s.ld.ldInB s.ld.ldLane s.ld.ldChunk)) :
    LoadProgress p line c bOnly buf (s.next p i) (s.rdNext p grant i.memRdReady x)
      (taken + (s.captures i).toNat) (asked + grantedLines x (s.rdNext p grant i.memRdReady x)) := by
  cases h with
  | loaded hl hx ht hk =>
    obtain ⟨hl', hc, hv⟩ := hl.next ha
    have hx' : s.rdNext p grant i.memRdReady x = none := by simp [hx, rdNext, hv]
    exact .loaded hl' hx' (by rw [hc, ht]; rfl) (by rw [hx', hc, hk]; simp [grantedLines])
  | loading hl hb ht hk =>
    have hcap : s.captures i = i.memRdReady := by simp [captures, ha.start, hl.busy]
    rw [hcap]
    cases hr : i.memRdReady with
    | false =>
      -- no line has come in; more may have been granted
      obtain ⟨-, -, -, h₁, h₂, -⟩ :=
        engine_congr (p := p) (ha.nextLd_wait hr) (ha.loadConfig_next hl.busy)
      refine .loading (hl.next_wait ha hr hd hm grant) ?_ ?_ ?_
      · rw [next_ld, ha.nextLd_wait hr, hb]
      · rw [h₁, h₂, ht]
        rfl
      · rw [hl.owedLines_wait, hk, Nat.add_assoc]
        rfl
    | true =>
      obtain ⟨t, rfl, hl'⟩ := hline hr
      have hline := hl' hl.busy (hl.serve t rfl).1
      have howed := hl.owedLines_advance
      have hx : s.rdNext p grant true (some t) = t.advance := rfl
      have hg : grantedLines (some t) t.advance = 0 := if_neg (by simp)
      rw [hx, hg]
      by_cases hf : (s.ldPanelEnd p && s.ld.ldInB) = true
      · -- the last line of B: none is owed any more
        rw [Bool.and_eq_true] at hf
        have hend := hl.ldPanelEnd_iff.1 hf.1
        have hone : s.ldOwed p = 1 := by
          rw [ldOwed]
          split <;> omega
        have hcount := hl.count_finish hf.2 hf.1
        rw [hb] at hcount
        refine .loaded (hb ▸ hl.finish ha hr hline hf.2 hf.1) ?_ ?_ ?_
        · rw [Transfer.advance, if_pos (by rw [(hl.serve t rfl).2, hone])]
        · rw [ht]
          exact hcount
        · rw [hk, owedLines]
          simp only [Option.map_some, Option.getD_some, hl.owedLines_eq, hone, Bool.toNat_true]
      · have hf' := Bool.eq_false_iff.2 hf
        obtain ⟨-, -, hbo, -⟩ := hl.nextLd_ready ha hr hd hf'
        refine .loading (hl.next_ready ha hr hline hd hf') ?_ ?_ ?_
        · rw [next_ld, hbo, hb]
        · rw [hl.count_ready ha hr hd hf', ht]
          rfl
        · rw [hk, ← howed]
          simp only [Bool.toNat_true]
          omega

/-! ## Whatever the lines hold -/

/-- A load is under way. -/
def LoadUnderway (p : MmParams) (c : LoadConfig) (s : MmAccel) (x : Option Transfer) : Prop :=
  ∃ line buf, Loading p line c buf s x

/-- The line that comes in next may be any one. -/
theorem Loading.congr_line (h : Loading p line c buf s x) (v : Line) :
    Loading p (fun inB i r => if inB = s.ld.ldInB ∧ i = s.ld.ldLane ∧ r = s.ld.ldChunk then v
      else line inB i r)
      c buf s x := by
  have hL := ldLines_of_conf (p := p) h.conf
  have hnot : ∀ {i r : ℕ}, i * c.lines p + r < s.ldPos p → ¬(i = s.ld.ldLane ∧ r = s.ld.ldChunk) := by
    rintro i r hlt ⟨rfl, rfl⟩
    rw [ldPos, hL] at hlt
    exact absurd hlt (lt_irrefl _)
  refine { h with aMem := h.aMem.trans (loadRows_congr fun i r _ _ hk => ?_),
                  bMem := h.bMem.trans (loadRows_congr fun i r _ _ hk => ?_) }
  · cases hB : s.ld.ldInB
    · rw [aCount, hB, if_neg Bool.false_ne_true] at hk
      rw [if_neg fun hc => hnot ?_ hc.2]
      split at hk
      · exact absurd hk (Nat.not_lt_zero _)
      · exact hk
    · rw [if_neg fun hc => absurd hc.1 Bool.false_ne_true]
  · cases hB : s.ld.ldInB
    · rw [if_neg fun hc => absurd hc.1.symm Bool.false_ne_true]
    · rw [bCount, hB, if_pos rfl] at hk
      rw [if_neg fun hc => hnot hk hc.2]

namespace LoadUnderway

theorem busy (h : LoadUnderway p c s x) : s.ld.ldBusy = true ∧ s.ld.ldDone = false ∧
    s.loadConfig = c := by
  obtain ⟨line, buf, h⟩ := h
  exact ⟨h.busy, h.done, h.conf⟩

theorem asks (h : LoadUnderway p c s x) (hx : x = none) : s.memRdReqValid = true := by
  obtain ⟨line, buf, h⟩ := h
  rw [memRdReqValid, h.busy, h.idle hx]
  rfl

/-- Some line is still to come. -/
theorem count_lt (h : LoadUnderway p c s x) : s.aCount p + s.bCount p < 2 * (p.dim * c.lines p) := by
  obtain ⟨line, buf, h⟩ := h
  have hlt := h.ldPos_lt
  rw [← ldLines_of_conf h.conf, aCount, bCount]
  split <;> split <;> omega

/-- One edge: the load goes on, or it is over. -/
theorem next (h : LoadUnderway p c s x) (ha : s.LoadAlone p i) (hd : p.GoodDim)
    (hm : p.maxK ≤ 128) (grant : Bool) (hx : i.memRdReady → x ≠ none) :
    (LoadUnderway p c (s.next p i) (s.rdNext p grant i.memRdReady x) ∧
        (s.next p i).aCount p + (s.next p i).bCount p = s.aCount p + s.bCount p + i.memRdReady.toNat) ∨
      ((s.next p i).ld.ldBusy = false ∧ (s.next p i).ld.ldDone = true ∧
        s.rdNext p grant i.memRdReady x = none) := by
  obtain ⟨line, buf, h⟩ := h
  have hcap : s.captures i = i.memRdReady := by simp [captures, ha.start, h.busy]
  have hprog : LoadProgress p _ c s.ld.ldBOnly buf s x _ _ :=
    .loading (h.congr_line i.memRline) rfl rfl rfl
  have hstep := hprog.next ha hd hm grant fun hr => by
    obtain ⟨t, ht⟩ := Option.ne_none_iff_exists'.1 (hx hr)
    exact ⟨t, ht, fun _ _ => (if_pos ⟨rfl, rfl, rfl⟩).symm⟩
  rw [hcap] at hstep
  cases hstep with
  | loading hl _ ht => exact .inl ⟨⟨_, _, hl⟩, ht.symm⟩
  | loaded hl hx' => exact .inr ⟨hl.busy, hl.done, hx'⟩

end LoadUnderway

end MmAccel

/-! ## A run -/

/-- The places of a line, from its address on. -/
theorem lineNo_add_ofNat {x : Word} (hx : x.toNat % 16 = 0) {o : ℕ} (ho : o < 16) :
    lineNo (x + BitVec.ofNat 32 o) = lineNo x ∧ offsetOf (x + BitVec.ofNat 32 o) = BitVec.ofNat 4 o := by
  have hlt := x.isLt
  have hy : (x + BitVec.ofNat 32 o).toNat = x.toNat + o := by
    rw [BitVec.toNat_add, BitVec.toNat_ofNat]
    omega
  refine ⟨BitVec.eq_of_toNat_eq ?_, BitVec.eq_of_toNat_eq ?_⟩
  · rw [lineNo, lineNo, BitVec.extractLsb'_toNat, BitVec.extractLsb'_toNat, hy,
      Nat.shiftRight_eq_div_pow, Nat.shiftRight_eq_div_pow]
    omega
  · rw [offsetOf, BitVec.extractLsb'_toNat, hy, Nat.shiftRight_eq_div_pow, BitVec.toNat_ofNat]
    omega

/-- The byte `o` of a line is at the place `o` from its address on. -/
theorem rowByte_line (m : Mem) {x : Word} (hx : x.toNat % 16 = 0) {o : ℕ} (ho : o < 16) :
    rowByte (m.line x) o = m (x + BitVec.ofNat 32 o) := by
  obtain ⟨hl, hoff⟩ := lineNo_add_ofNat hx ho
  rw [← Mem.lineByte_line m hl, hoff, lineByte, BitVec.toNat_ofNat, rowByte]

/-- The lines that have come in on the cycles from `a` up to `n`. -/
def linesTaken (σ : ℕ → MmAccel) (ι : ℕ → MmInputs) (a n : ℕ) : ℕ :=
  ∑ k ∈ Finset.Ico a n, ((σ k).captures (ι k)).toNat

/-- The lines of the requests granted on the cycles from `a` up to `n`. -/
def linesAsked (χ : ℕ → Option Transfer) (a n : ℕ) : ℕ :=
  ∑ k ∈ Finset.Ico a n, MmAccel.grantedLines (χ k) (χ (k + 1))

/-- A load is started on the cycle `a`, with no read in flight, and nothing interferes with it
    until it is done. -/
structure LoadRun (p : MmParams) (m : Mem) (σ : ℕ → MmAccel) (ι : ℕ → MmInputs)
    (χ : ℕ → Option Transfer) (a : ℕ) : Prop where
  next : ∀ n, σ (n + 1) = (σ n).next p (ι n)
  serve : ReadService p m σ ι χ
  start : (σ a).ldStartAny (ι a)
  reset : (σ a).softRstPulse (ι a) = false
  rest : (σ a).ld.ldBusy = false
  free : χ a = none
  alone : ∀ n, a < n → (∀ k, a < k → k ≤ n → (σ k).ld.ldDone = false) → (σ n).LoadAlone p (ι n)

/-- The read channel grants every request in the end, and delivers every line. -/
structure ReadFair (σ : ℕ → MmAccel) (ι : ℕ → MmInputs) (χ : ℕ → Option Transfer) : Prop where
  grant : ∀ n, χ n = none → (σ n).memRdReqValid → ∃ k ≥ n, χ (k + 1) ≠ none
  serve : ∀ n, χ n ≠ none → ∃ k ≥ n, (ι k).memRdReady

/-- A channel that serves every request lets every load end. -/
theorem MmAccel.LoadUnderway.ends {p : MmParams} {σ : ℕ → MmAccel} {ι : ℕ → MmInputs}
    {χ : ℕ → Option Transfer}
    {c : LoadConfig} {a : ℕ} (h : LoadUnderway p c (σ a) (χ a))
    (hnext : ∀ n ≥ a, σ (n + 1) = (σ n).next p (ι n))
    (hs : ReadTiming p σ ι χ) (hf : ReadFair σ ι χ) (hd : p.GoodDim) (hm : p.maxK ≤ 128)
    (halone : ∀ n ≥ a, (∀ k ≥ a, k ≤ n → (σ k).ld.ldDone = false) → (σ n).LoadAlone p (ι n)) :
    ∃ e ≥ a, (σ e).ld.ldDone := by
  by_contra hcon
  have hno : ∀ k ≥ a, (σ k).ld.ldDone = false :=
    fun k hk => Bool.eq_false_iff.2 fun hd => hcon ⟨k, hk, hd⟩
  have hstep : ∀ n ≥ a, LoadUnderway p c (σ n) (χ n) → LoadUnderway p c (σ (n + 1)) (χ (n + 1)) ∧
      (σ (n + 1)).aCount p + (σ (n + 1)).bCount p = (σ n).aCount p + (σ n).bCount p +
        (ι n).memRdReady.toNat := by
    intro n hn hl
    obtain ⟨g, hg⟩ := hs.next n
    rw [hnext n hn, hg]
    refine (hl.next (halone n hn fun k hk _ => hno k hk) hd hm g (hs.line n)).resolve_right
      fun ⟨_, hdone, _⟩ => ?_
    have := hno (n + 1) (Nat.le_succ_of_le hn)
    rw [hnext n hn, hdone] at this
    cases this
  have hall : ∀ n ≥ a, LoadUnderway p c (σ n) (χ n) := by
    intro n hn
    induction n, hn using Nat.le_induction with
    | base => exact h
    | succ n hn ih => exact (hstep n hn ih).1
  have hmono : ∀ n ≥ a, ∀ k ≥ n, (σ n).aCount p + (σ n).bCount p ≤ (σ k).aCount p +
      (σ k).bCount p := by
    intro n hn k hk
    induction k, hk using Nat.le_induction with
    | base => exact le_rfl
    | succ k hk ih =>
      have := (hstep k (hn.trans hk) (hall k (hn.trans hk))).2
      omega
  -- a request that is served brings a line in
  have hserved : ∀ n ≥ a, χ n ≠ none →
      ∃ k ≥ n, (σ n).aCount p + (σ n).bCount p < (σ k).aCount p + (σ k).bCount p := by
    intro n hn hx
    obtain ⟨k, hk, hr⟩ := hf.serve n hx
    have hcount := (hstep k (hn.trans hk) (hall k (hn.trans hk))).2
    have := hmono n hn k hk
    rw [hr, Bool.toNat_true] at hcount
    exact ⟨k + 1, Nat.le_succ_of_le hk, by omega⟩
  obtain ⟨k, hk, hle⟩ := Circuit.exists_le_of_grows (fun n hn => by
    by_cases hx : χ n = none
    · obtain ⟨k, hk, hx'⟩ := hf.grant n hx ((hall n hn).asks hx)
      obtain ⟨l, hl, hlt⟩ := hserved (k + 1) (Nat.le_succ_of_le (hn.trans hk)) hx'
      exact ⟨l, (Nat.le_succ_of_le hk).trans hl,
        (hmono n hn (k + 1) (Nat.le_succ_of_le hk)).trans_lt hlt⟩
    · exact hserved n hn hx) (2 * (p.dim * c.lines p))
  exact absurd (hall k hk).count_lt (Nat.not_lt.2 hle)

namespace LoadRun

open MmAccel

variable {p : MmParams} {m : Mem} {σ : ℕ → MmAccel} {ι : ℕ → MmInputs}
  {χ : ℕ → Option Transfer} {a : ℕ}

/-- Up to its end a load is under way; then all its lines have been asked for and have come in. -/
theorem progress (h : LoadRun p m σ ι χ a) (hd : p.GoodDim) (hm : p.maxK ≤ 128) {n : ℕ} (hn : a < n)
    (hno : ∀ k, a < k → k < n → (σ k).ld.ldDone = false) :
    LoadProgress p (fun inB i r => m.line ((σ (a + 1)).loadConfig.addr p inB i r)) (σ (a + 1)).loadConfig
      (σ (a + 1)).ld.ldBOnly (σ (a + 1)).buf (σ n) (χ n) (linesTaken σ ι (a + 1) n)
      (linesAsked χ (a + 1) n) := by
  induction n, hn using Nat.le_induction with
  | base =>
    obtain ⟨g, hg⟩ := h.serve.next a
    have hx : χ (a + 1) = none := by
      rw [hg, h.free, rdNext, memRdReqValid, h.rest]
      simp
    have hstart := loading_of_ldStartAny (p := p) (fun inB i r =>
      m.line ((σ (a + 1)).loadConfig.addr p inB i r))
      h.start h.reset
    rw [← h.next a, ← hx] at hstart
    refine .loading hstart.1 rfl ?_ ?_
    · rw [hstart.2.2, linesTaken, Finset.Ico_self, Finset.sum_empty]
    · rw [linesTaken, linesAsked, Finset.Ico_self, Finset.sum_empty, Finset.sum_empty, hx]
      rfl
  | succ n hn ih =>
    have ha : (σ n).LoadAlone p (ι n) := h.alone n hn fun k h₁ h₂ => hno k h₁ (Nat.lt_succ_of_le h₂)
    have hp := ih fun k h₁ h₂ => hno k h₁ (h₂.trans n.lt_succ_self)
    obtain ⟨g, hg⟩ := h.serve.next n
    rw [linesTaken, Finset.sum_Ico_succ_top hn, linesAsked, Finset.sum_Ico_succ_top hn, h.next n, hg]
    refine hp.next ha hd hm g fun hr => ?_
    obtain ⟨t, ht, hline⟩ := h.serve.line n hr
    refine ⟨t, ht, fun hb hnext => ?_⟩
    cases hp with
    | loading hl => rw [hline, hnext, ldNextAddr_of_conf hl.conf]
    | loaded hl =>
      rw [hl.busy] at hb
      cases hb

theorem taken_le (h : LoadRun p m σ ι χ a) (hd : p.GoodDim) (hm : p.maxK ≤ 128) {n : ℕ} (hn : a < n)
    (hno : ∀ k, a < k → k ≤ n → (σ k).ld.ldDone = false) :
    Loading p (fun inB i r => m.line ((σ (a + 1)).loadConfig.addr p inB i r)) (σ (a + 1)).loadConfig
        (σ (a + 1)).buf (σ n) (χ n) ∧
      linesTaken σ ι (a + 1) n < 2 * (p.dim * (σ (a + 1)).loadConfig.lines p) := by
  cases h.progress hd hm hn fun k h₁ h₂ => hno k h₁ h₂.le with
  | loaded hl =>
    have := hno n hn le_rfl
    rw [hl.done] at this
    cases this
  | loading hl _ ht =>
    rw [ht]
    exact ⟨hl, LoadUnderway.count_lt ⟨_, _, hl⟩⟩

/-- A channel that serves every request lets every load end. -/
theorem ends (h : LoadRun p m σ ι χ a) (hd : p.GoodDim) (hm : p.maxK ≤ 128) (hf : ReadFair σ ι χ) :
    ∃ e > a, (σ e).ld.ldDone := by
  have hfirst : LoadUnderway p (σ (a + 1)).loadConfig (σ (a + 1)) (χ (a + 1)) := by
    cases h.progress hd hm a.lt_succ_self fun k h₁ h₂ =>
      absurd (Nat.lt_succ_iff.1 h₂) (Nat.not_le.2 h₁) with
    | loading hl => exact ⟨_, _, hl⟩
    | loaded hl =>
      have hbusy := (loading_of_ldStartAny (p := p) (fun _ _ _ => 0) h.start h.reset).1.busy
      rw [← h.next a, hl.busy] at hbusy
      cases hbusy
  exact hfirst.ends (fun n _ => h.next n) h.serve.timing hf hd hm fun n hn hno => h.alone n hn hno

/-- The load is over when `ldDone` rises. -/
theorem loaded (h : LoadRun p m σ ι χ a) (hd : p.GoodDim) (hm : p.maxK ≤ 128) {e : ℕ} (he : a < e)
    (hdone : (σ e).ld.ldDone) (hno : ∀ k, a < k → k < e → (σ k).ld.ldDone = false) :
    Loaded p (fun inB i r => m.line ((σ (a + 1)).loadConfig.addr p inB i r)) (σ (a + 1)).loadConfig
        (σ (a + 1)).ld.ldBOnly (σ (a + 1)).buf (σ e) ∧
      linesTaken σ ι (a + 1) e =
        (if (σ (a + 1)).ld.ldBOnly then 1 else 2) * (p.dim * (σ (a + 1)).loadConfig.lines p) ∧
      linesAsked χ (a + 1) e = linesTaken σ ι (a + 1) e := by
  cases h.progress hd hm he hno with
  | loading hl =>
    rw [hl.done] at hdone
    cases hdone
  | loaded hl _ ht ha => exact ⟨hl, ht, ha⟩

end LoadRun

/-- The lines of a length. -/
theorem linesOf_eq {p : MmParams} {K : ℕ} (h₁ : 1 ≤ K) (h₂ : K ≤ p.maxK) :
    linesOf p K = (K + 15) / 16 := by
  have := p.linesPerLane_mul
  rw [linesOf, if_neg (by omega)]
  omega

theorem aligned_add {x y : Word} (hx : x.toNat % 16 = 0) (hy : y.toNat % 16 = 0) :
    (x + y).toNat % 16 = 0 := by
  rw [BitVec.toNat_add]
  omega

theorem aligned_mul {x y : Word} (hy : y.toNat % 16 = 0) : (x * y).toNat % 16 = 0 := by
  rw [BitVec.toNat_mul, Nat.mod_mod_of_dvd _ (by decide), Nat.mul_mod, hy, Nat.mul_zero, Nat.zero_mod]

theorem aligned_ofNat (n : ℕ) : (BitVec.ofNat 32 (16 * n)).toNat % 16 = 0 := by
  rw [BitVec.toNat_ofNat]
  omega

/-- What a load is configured with: the addresses and the distance of the lanes are multiples
    of `16`. -/
structure MmAccel.LoadConfig.Aligned (c : MmAccel.LoadConfig) : Prop where
  a : c.aSrcAddr.toNat % 16 = 0
  b : c.bSrcAddr.toNat % 16 = 0
  stride : c.srcStride.toNat % 16 = 0

theorem MmAccel.LoadConfig.Aligned.addr {p : MmParams} {c : MmAccel.LoadConfig}
    (h : c.Aligned) (inB : Bool) (i r : ℕ) : (c.addr p inB i r).toNat % 16 = 0 := by
  have hs : (c.stride p).toNat % 16 = 0 := by
    rw [LoadConfig.stride]
    split
    · exact aligned_ofNat _
    · exact h.stride
  refine aligned_add (aligned_add ?_ (aligned_mul hs)) (aligned_ofNat r)
  cases inB
  · exact h.a
  · exact h.b

/-- The lines that a load of the length `K` moves for each lane. -/
def ceilLines (K : ℕ) : ℕ := (K + 15) / 16

/-- The distance of the lanes: without one they follow each other. -/
def laneStride (c : MmAccel.LoadConfig) : Word :=
  if c.srcStride = 0 then BitVec.ofNat 32 (16 * ceilLines c.ldKLen) else c.srcStride

section Load

open MmAccel

variable {p : MmParams} {m : Mem} {σ : ℕ → MmAccel} {ι : ℕ → MmInputs}
  {χ : ℕ → Option Transfer} {a : ℕ}

/-- When `ldDone` rises the rows of A, unless only B is loaded, and of the panel of B hold what the
    memory holds at their addresses, and no other row has changed. Every line has been asked
    for once, and `ldDone` does rise if the channel serves what it is asked for. Whether a panel
    is fetched at once or line by line makes no difference. -/
theorem load_of_run (h : LoadRun p m σ ι χ a) (hd : p.GoodDim) (hm : p.maxK ≤ 128)
    {c : LoadConfig} {bOnly : Bool}
    (hc : (σ (a + 1)).loadConfig = c) (hb : (σ (a + 1)).ld.ldBOnly = bOnly) (hK : 1 ≤ c.ldKLen)
    (hK' : c.ldKLen ≤ p.maxK) (hal : c.Aligned) :
    (ReadFair σ ι χ → ∃ e > a, (σ e).ld.ldDone) ∧
      ∀ e > a, (σ e).ld.ldDone → (∀ k, a < k → k < e → (σ k).ld.ldDone = false) →
        (∀ i < p.dim, ∀ r < ceilLines c.ldKLen, ∀ o < 16,
          (bOnly = false → rowByte ((σ e).buf.aMem i r) o =
            m (c.aSrcAddr + BitVec.ofNat 32 i * laneStride c +
              BitVec.ofNat 32 (16 * r) + BitVec.ofNat 32 o)) ∧
          rowByte ((σ e).buf.bMem i (p.bAddr c.bPanelLoad r)) o =
            m (c.bSrcAddr + BitVec.ofNat 32 i * laneStride c +
              BitVec.ofNat 32 (16 * r) + BitVec.ofNat 32 o)) ∧
        (∀ i r, bOnly = true ∨ p.dim ≤ i ∨ ceilLines c.ldKLen ≤ r →
          (σ e).buf.aMem i r = (σ (a + 1)).buf.aMem i r) ∧
        (∀ i r, (p.dim ≤ i ∨ ∀ r' < ceilLines c.ldKLen, r ≠ p.bAddr c.bPanelLoad r') →
          (σ e).buf.bMem i r = (σ (a + 1)).buf.bMem i r) ∧
        linesAsked χ (a + 1) e = (if bOnly then 1 else 2) * (p.dim * ceilLines c.ldKLen) ∧
        linesTaken σ ι (a + 1) e = (if bOnly then 1 else 2) * (p.dim * ceilLines c.ldKLen) ∧
        ∀ (bursts : Bool) (σ' : ℕ → MmAccel) (ι' : ℕ → MmInputs)
          (χ' : ℕ → Option Transfer) (a' e' : ℕ),
          LoadRun { p with enableReadBursts := bursts } m σ' ι' χ' a' → (σ' (a' + 1)).loadConfig = c →
          (σ' (a' + 1)).ld.ldBOnly = bOnly → (σ' (a' + 1)).buf.aMem = (σ (a + 1)).buf.aMem →
          (σ' (a' + 1)).buf.bMem = (σ (a + 1)).buf.bMem → a' < e' → (σ' e').ld.ldDone →
          (∀ k, a' < k → k < e' → (σ' k).ld.ldDone = false) →
          (σ' e').buf.aMem = (σ e).buf.aMem ∧ (σ' e').buf.bMem = (σ e).buf.bMem := by
  have hL : c.lines p = ceilLines c.ldKLen := linesOf_eq hK hK'
  have hS : c.stride p = laneStride c := by rw [LoadConfig.stride, hL, laneStride]
  refine ⟨h.ends hd hm, fun e he hdone hno => ?_⟩
  obtain ⟨hl, ht, hk⟩ := h.loaded hd hm he hdone hno
  rw [hc, hb] at hl ht
  refine ⟨fun i hi r hr o ho => ⟨fun hbo => ?_, ?_⟩, fun i r hir => ?_, fun i r hir => ?_, ?_, ?_, ?_⟩
  · have hrow := @loadRows_all _ _ 0 _ _ (fun i r => m.line (c.addr p false i r))
      (σ (a + 1)).buf.aMem hi (hL ▸ hr)
    rw [Nat.zero_add] at hrow
    rw [hl.aMem, hbo, if_neg Bool.false_ne_true, hrow, rowByte_line m (hal.addr false i r) ho,
      LoadConfig.addr, hS]
    rfl
  · rw [hl.bMem, p.bAddr_eq _ r, p.bAddr_eq _ 0, Nat.add_zero, loadRows_all _ _ hi (hL ▸ hr),
      rowByte_line m (hal.addr true i r) ho, LoadConfig.addr, hS]
    rfl
  · rw [hl.aMem]
    cases hbo : bOnly
    · rw [loadRows_of_not]
      rintro ⟨h₁, -, h₂⟩
      rw [Nat.sub_zero, hL] at h₂
      rcases hir with hir | hir | hir
      · exact absurd (hbo.symm.trans hir) Bool.false_ne_true
      · exact absurd h₁ (Nat.not_lt.2 hir)
      · exact absurd h₂ (Nat.not_lt.2 hir)
    · rw [if_pos rfl, loadRows_zero]
  · rw [hl.bMem, loadRows_of_not]
    rintro ⟨h₁, h₂, h₃⟩
    rcases hir with hir | hir
    · exact absurd h₁ (Nat.not_lt.2 hir)
    · refine hir _ (hL ▸ h₃) ?_
      rw [p.bAddr_eq _ (r - _)]
      rw [p.bAddr_eq] at h₂ ⊢
      omega
  · rw [hk, ht, hL]
  · rw [ht, hL]
  · -- both loads leave the same rows in the buffers
    intro bursts σ' ι' χ' a' e' h' hc' hb' hA hB he' hdone' hno'
    obtain ⟨hl', -⟩ := h'.loaded hd hm he' hdone' hno'
    rw [hc', hb'] at hl'
    exact ⟨by rw [hl'.aMem, hl.aMem, hA]; rfl, by rw [hl'.bMem, hl.bMem, hB]; rfl⟩

end Load

/-! ### A run -/

/-- A memory with a different byte at every address of a page. -/
def pageMem : Mem := fun x => x.setWidth 8

/-- Two panels of two lanes are loaded from `0x100` and from `0x200`, a line for each lane. -/
def loadTwoPanels (n : ℕ) : MmInputs :=
  match n with
  | 0 => .write 2 16
  | 2 => .write 12 0x100
  | 4 => .write 13 0x200
  | 6 => .write 0 8
  | 8 => { MmInputs.quiet with memRdReady := true, memRline := pageMem.line 0x100 }
  | 9 => { MmInputs.quiet with memRdReady := true, memRline := pageMem.line 0x110 }
  | 11 => { MmInputs.quiet with memRdReady := true, memRline := pageMem.line 0x200 }
  | 12 => { MmInputs.quiet with memRdReady := true, memRline := pageMem.line 0x210 }
  | _ => .quiet

/-- The read channel meanwhile: it grants each request at once. -/
def loadTwoPanelsChannel (n : ℕ) : Option Transfer :=
  match n with
  | 8 => some ⟨0x100, 2, 0⟩
  | 9 => some ⟨0x100, 2, 1⟩
  | 11 => some ⟨0x200, 2, 0⟩
  | 12 => some ⟨0x200, 2, 1⟩
  | _ => none

theorem loadRun_loadTwoPanels :
    LoadRun mmDefault pageMem (mmTrace loadTwoPanels) loadTwoPanels loadTwoPanelsChannel 6 := by
  have hchan : ∀ n < 13, loadTwoPanelsChannel (n + 1) =
      (mmTrace loadTwoPanels n).rdNext mmDefault true (loadTwoPanels n).memRdReady
        (loadTwoPanelsChannel n) := by
    decide +kernel
  have halone : ∀ n < 13, 6 < n → (mmTrace loadTwoPanels n).softRstPulse (loadTwoPanels n) = false ∧
      (mmTrace loadTwoPanels n).ldStartAny (loadTwoPanels n) = false ∧
      (mmTrace loadTwoPanels n).adopted mmDefault = none ∧
      (mmTrace loadTwoPanels n).pushA (loadTwoPanels n) = false ∧
      (mmTrace loadTwoPanels n).pushB (loadTwoPanels n) = false := by
    decide +kernel
  refine ⟨(isRun_mmTrace loadTwoPanels).next, ⟨fun n => ?_, fun n hr => ?_⟩, by decide +kernel,
    by decide +kernel, by decide +kernel, rfl, fun n hn hno => ?_⟩
  · by_cases hn : n < 13
    · exact ⟨true, hchan n hn⟩
    · obtain ⟨k, rfl⟩ := Nat.exists_eq_add_of_le' (Nat.not_lt.1 hn)
      exact ⟨false, rfl⟩
  · match n, hr with
    | 8, _ => exact ⟨_, rfl, rfl⟩
    | 9, _ => exact ⟨_, rfl, rfl⟩
    | 11, _ => exact ⟨_, rfl, rfl⟩
    | 12, _ => exact ⟨_, rfl, rfl⟩
  · have hn' : n < 13 := by
      by_contra hn'
      exact absurd (hno 13 (by decide) (Nat.not_lt.1 hn')) (by decide +kernel)
    obtain ⟨h₁, h₂, h₃, h₄, h₅⟩ := halone n hn' hn
    exact ⟨h₁, h₂, h₃, h₄, h₅⟩

/-- The byte `3` of the lane `1` of both panels. -/
theorem loadTwoPanels_rows :
    (mmTrace loadTwoPanels 13).ld.ldDone ∧
    rowByte ((mmTrace loadTwoPanels 13).buf.aMem 1 0) 3 = pageMem 0x113 ∧
      rowByte ((mmTrace loadTwoPanels 13).buf.bMem 1 (mmDefault.bAddr 0 0)) 3 = pageMem 0x213 := by
  have hno : ∀ k < 13, 6 < k → (mmTrace loadTwoPanels k).ld.ldDone = false := by
    decide +kernel
  have hdone : (mmTrace loadTwoPanels 13).ld.ldDone = true := by decide +kernel
  have h := (load_of_run loadRun_loadTwoPanels (.inl rfl) (by decide) (c := ⟨0x100, 0x200, 0, 16, 0⟩)
    (by decide +kernel) (show (mmTrace loadTwoPanels 7).ld.ldBOnly = false by decide +kernel)
      (by decide) le_rfl
    ⟨by decide, by decide, by decide⟩).2 13 (by decide) hdone fun k h₁ h₂ => hno k h₂ h₁
  obtain ⟨h₁, h₂⟩ := h.1 1 (by decide) 0 (by decide) 3 (by decide)
  exact ⟨hdone, (h₁ rfl).trans (by decide +kernel), h₂.trans (by decide +kernel)⟩

end Rv32Soc
