import Rv32Soc.Core.Intc

/-!
# The registers of the peripherals

What an access does, by the register maps of `uart_mmio.v`, `intc.v` and `clint_timer.v`: which
register it names, what it leaves there and what it returns, and that a cycle without an
access leaves what software has written. `Takes` is said of the state before and after
an edge, and of the access on it, if there is one; `takes_next` is that the next-state
functions do just this.
-/

namespace Rv32Soc

/-- In one window an offset is an address. -/
theorem offset_eq_iff {k : ℕ} {a c : Word} (hk : k ≤ 32)
    (h : a.extractLsb' k (32 - k) = c.extractLsb' k (32 - k)) :
    a.extractLsb' 0 k = c.extractLsb' 0 k ↔ a = c := by
  refine ⟨fun h₀ => BitVec.eq_of_getLsbD_eq fun i hi => ?_, fun h₀ => by rw [h₀]⟩
  rcases Nat.lt_or_ge i k with hlow | hhigh
  · have hbit := congrArg (BitVec.getLsbD · i) h₀
    simpa [hlow] using hbit
  · have hbit := congrArg (BitVec.getLsbD · (i - k)) h
    simpa [show i - k < 32 - k by omega, Nat.add_sub_cancel' hhigh] using hbit

/-- The window of a mask that keeps some of the bits. -/
theorem extract_of_window {a m c : Word} {k n : ℕ} (h : a &&& m == c)
    (hm : m.extractLsb' k n = BitVec.allOnes n) : a.extractLsb' k n = c.extractLsb' k n := by
  rw [beq_iff_eq] at h
  rw [← h, BitVec.extractLsb'_and, hm, BitVec.and_allOnes]

/-- The registers of a page are told apart by the last twelve bits. -/
theorem page_offset {p : BitVec 20} {a : Word} (h : a.extractLsb' 12 20 = p) (o : BitVec 12) :
    a.extractLsb' 0 12 = o ↔ a = p ++ o := by
  have hhigh : (p ++ o).extractLsb' 12 20 = p := BitVec.extractLsb'_append_eq_left
  have hlow : (p ++ o).extractLsb' 0 12 = o := BitVec.extractLsb'_append_eq_right
  have hiff := offset_eq_iff (k := 12) (a := a) (c := p ++ o) (by decide) (h.trans hhigh.symm)
  rwa [hlow] at hiff

/-! ## The UART -/

namespace UartMmio

def TX_DATA : Word := 0x40001000
def TX_STATUS : Word := 0x40001004
def RX_DATA : Word := 0x40001008
def RX_STATUS : Word := 0x4000100C

/-- From `s` to `s'` the UART takes the access `r`, or none. A write to `TX_DATA` starts the
    transmitter, and a read of `RX_DATA` consumes the byte; a byte that comes in is kept in any
    case. -/
structure Takes (s s' : UartMmio) (txReady rxValid : Bool) (rxByte : Byte) (r : Option MmioReq) :
    Prop where
  ready : s'.dReady = r.isSome
  start : s'.txStart = true ↔ ∃ d, r = some ⟨true, TX_DATA, d⟩
  sends : ∀ d, r = some ⟨true, TX_DATA, d⟩ → s'.txData = d.extractLsb' 0 8
  keeps : s'.txStart = false → s'.txData = s.txData
  txStatus : ∀ d, r = some ⟨false, TX_STATUS, d⟩ → s'.dRdata = 0#31 ++ BitVec.ofBool txReady
  rxData : ∀ d, r = some ⟨false, RX_DATA, d⟩ → s'.dRdata = 0#24 ++ s.rxHolding
  rxStatus : ∀ d, r = some ⟨false, RX_STATUS, d⟩ → s'.dRdata = 0#31 ++ BitVec.ofBool s.rxHasData
  holding : s'.rxHolding = if rxValid then rxByte else s.rxHolding
  hasData : s'.rxHasData = true ↔
    rxValid = true ∨ s.rxHasData = true ∧ ∀ d, r ≠ some ⟨false, RX_DATA, d⟩

variable {s : UartMmio} {q : MmioReq} {dReq txReady rxValid : Bool} {rxByte : Byte} {d : Word}

/-- What is returned by the registers that can be read. -/
theorem response_txStatus :
    s.response ⟨false, TX_STATUS, d⟩ txReady = 0#31 ++ BitVec.ofBool txReady := by
  have ho : (TX_STATUS.extractLsb' 0 12).toNat = 0x004 := by decide
  simp [response, readData, ho]

theorem response_rxData : s.response ⟨false, RX_DATA, d⟩ txReady = 0#24 ++ s.rxHolding := by
  have ho : (RX_DATA.extractLsb' 0 12).toNat = 0x008 := by decide
  simp [response, readData, ho]

theorem response_rxStatus :
    s.response ⟨false, RX_STATUS, d⟩ txReady = 0#31 ++ BitVec.ofBool s.rxHasData := by
  have ho : (RX_STATUS.extractLsb' 0 12).toNat = 0x00C := by decide
  simp [response, readData, ho]

theorem takes_next : s.Takes (s.next q dReq txReady rxValid rxByte) txReady rxValid rxByte
    (if selects dReq q then some q else none) := by
  cases hs : selects dReq q
  · -- nobody asks: only a byte that comes in changes anything
    constructor <;> simp [UartMmio.next, hs]
  · obtain ⟨we, a, d⟩ := q
    have hpage : a.extractLsb' 12 20 = 0x40001#20 := by
      simp only [selects, Bool.and_eq_true, beq_iff_eq] at hs
      exact hs.2
    have htx : a.extractLsb' 0 12 = 0x000#12 ↔ a = TX_DATA := page_offset hpage _
    have hrx : a.extractLsb' 0 12 = 0x008#12 ↔ a = RX_DATA := page_offset hpage _
    have hanswer : (s.next ⟨we, a, d⟩ dReq txReady rxValid rxByte).dRdata = s.response ⟨we,
        a, d⟩ txReady := by
      rw [UartMmio.next, hs, if_pos rfl]
    constructor
    case ready => simp [UartMmio.next, hs]
    case start => cases we <;> simp [UartMmio.next, hs, htx]
    case sends =>
      rintro d' hr
      obtain ⟨rfl, rfl, rfl⟩ := MmioReq.mk.inj (Option.some_inj.1 hr)
      simp [UartMmio.next, hs, htx]
    case keeps =>
      intro hk
      cases we <;> simp_all [UartMmio.next]
    case txStatus =>
      rintro d' hr
      obtain ⟨rfl, rfl, rfl⟩ := MmioReq.mk.inj (Option.some_inj.1 hr)
      exact hanswer.trans response_txStatus
    case rxData =>
      rintro d' hr
      obtain ⟨rfl, rfl, rfl⟩ := MmioReq.mk.inj (Option.some_inj.1 hr)
      exact hanswer.trans response_rxData
    case rxStatus =>
      rintro d' hr
      obtain ⟨rfl, rfl, rfl⟩ := MmioReq.mk.inj (Option.some_inj.1 hr)
      exact hanswer.trans response_rxStatus
    case holding => rfl
    case hasData =>
      cases rxValid <;> cases we <;> simp [UartMmio.next, hs, hrx]
      tauto

end UartMmio

/-! ## The interrupt controller -/

namespace Intc

def ENABLE : Word := 0x00004000
def PENDING : Word := 0x00004004

/-- From `s` to `s'` the interrupt controller takes the access `r`, or none. A write to `PENDING`
    clears the bits that are written 1; all other bits keep the edges that they have seen. -/
structure Takes (s s' : Intc) (irqIn : BitVec 8) (r : Option MmioReq) : Prop where
  ready : s'.dReady = r.isSome
  enable : ∀ d, r = some ⟨true, ENABLE, d⟩ → s'.enable = d.extractLsb' 0 8
  keeps : (∀ d, r ≠ some ⟨true, ENABLE, d⟩) → s'.enable = s.enable
  pending : ∀ b < 8, s'.pending.getLsbD b = true ↔
    (s.pending.getLsbD b = true ∨ irqIn.getLsbD b = true ∧ s.irqInPrev.getLsbD b = false) ∧
      ∀ d, r = some ⟨true, PENDING, d⟩ → d.getLsbD b = false
  readsEnable : ∀ d, r = some ⟨false, ENABLE, d⟩ → s'.dRdata = s.enable.setWidth 32
  readsPending : ∀ d, r = some ⟨false, PENDING, d⟩ → s'.dRdata = s.pending.setWidth 32

variable {s : Intc} {q : MmioReq} {dReq : Bool} {irqIn : BitVec 8} {d : Word}

theorem response_enable : s.response ⟨false, ENABLE, d⟩ = s.enable.setWidth 32 := by
  have ho : (ENABLE.extractLsb' 0 12).toNat = 0x000 := by decide
  simp [response, ho]

theorem response_pending : s.response ⟨false, PENDING, d⟩ = s.pending.setWidth 32 := by
  have ho : (PENDING.extractLsb' 0 12).toNat = 0x004 := by decide
  simp [response, ho]

theorem takes_next : s.Takes (s.next q dReq irqIn) irqIn (if selects dReq q then some q else none) := by
  have hpending : ∀ b, _ := fun b => pending_next (s := s) (i := ⟨dReq, q, irqIn⟩) (b := b)
  cases hs : selects dReq q
  · constructor
    case pending =>
      intro b _
      rw [hpending b]
      simp [IntcInputs.names, IntcInputs.writes, hs]
    all_goals simp [Intc.next, hs]
  · obtain ⟨we, a, d⟩ := q
    have hpage : a.extractLsb' 12 20 = 0x00004#20 := by
      simp only [selects, Bool.and_eq_true, beq_iff_eq] at hs
      exact hs.2
    have hen : a.extractLsb' 0 12 = 0x000#12 ↔ a = ENABLE := page_offset hpage _
    have hpe : a.extractLsb' 0 12 = 0x004#12 ↔ a = PENDING := page_offset hpage _
    have hanswer : (s.next ⟨we, a, d⟩ dReq irqIn).dRdata = s.response ⟨we, a, d⟩ := by
      rw [Intc.next, hs, if_pos rfl]
    constructor
    case ready => simp [Intc.next, hs]
    case enable =>
      rintro d' hr
      obtain ⟨rfl, rfl, rfl⟩ := MmioReq.mk.inj (Option.some_inj.1 hr)
      simp [Intc.next, hs, hen]
    case keeps =>
      intro hk
      cases we <;> simp_all [Intc.next]
    case pending =>
      intro b hb
      rw [hpending b]
      cases we <;> simp [IntcInputs.names, IntcInputs.writes, hs, hpe, hb]
      tauto
    case readsEnable =>
      rintro d' hr
      obtain ⟨rfl, rfl, rfl⟩ := MmioReq.mk.inj (Option.some_inj.1 hr)
      exact hanswer.trans response_enable
    case readsPending =>
      rintro d' hr
      obtain ⟨rfl, rfl, rfl⟩ := MmioReq.mk.inj (Option.some_inj.1 hr)
      exact hanswer.trans response_pending

end Intc

/-! ## The timer -/

namespace ClintTimer

/-- The halves of `mtime` and of `mtimecmp`. -/
def MTIME : Word := 0x02000000
def MTIMEH : Word := 0x02000004
def MTIMECMP : Word := 0x02000008
def MTIMECMPH : Word := 0x0200000C

/-- What an access leaves in the half at the address `a`, which holds `old` without it. -/
def half (r : Option MmioReq) (a old : Word) : Word :=
  match r with
  | some q => if q.addr = a then q.wdata else old
  | none => old

/-- From `s` to `s'` the timer takes the store `r`, or none: it replaces one half, and everything else
    goes on. -/
structure Takes (s s' : ClintTimer) (r : Option MmioReq) : Prop where
  mtime : s'.mtime.extractLsb' 0 32 = half r MTIME ((s.mtime + 1).extractLsb' 0 32)
  mtimeh : s'.mtime.extractLsb' 32 32 = half r MTIMEH ((s.mtime + 1).extractLsb' 32 32)
  mtimecmp : s'.mtimecmp.extractLsb' 0 32 = half r MTIMECMP (s.mtimecmp.extractLsb' 0 32)
  mtimecmph : s'.mtimecmp.extractLsb' 32 32 = half r MTIMECMPH (s.mtimecmp.extractLsb' 32 32)

variable {s : ClintTimer} {q : MmioReq} {wen : Bool}

/-- In the window of the timer four bits tell the halves apart. -/
theorem half_eq (h : q.addr &&& 0xFFFFFFF0 == 0x02000000) (o : BitVec 4) (old : Word) :
    half (some q) (0x0200000#28 ++ o) old = if q.addr.extractLsb' 0 4 = o then q.wdata else old := by
  have hwindow : q.addr.extractLsb' 4 28 = (0x0200000#28 ++ o).extractLsb' 4 28 :=
    (extract_of_window h (by decide)).trans BitVec.extractLsb'_append_eq_left.symm
  have hlow : (0x0200000#28 ++ o).extractLsb' 0 4 = o := BitVec.extractLsb'_append_eq_right
  have hiff := offset_eq_iff (k := 4) (by decide) hwindow
  rw [hlow] at hiff
  simp only [half, hiff]

theorem takes_next (h : wen → q.addr &&& 0xFFFFFFF0 == 0x02000000) :
    s.Takes (s.next wen q.addr q.wdata) (if wen then some q else none) := by
  cases wen
  · constructor <;> rfl
  · have h₀ : ∀ old, half (some q) MTIME old = _ := half_eq (h rfl) 0x0#4
    have h₄ : ∀ old, half (some q) MTIMEH old = _ := half_eq (h rfl) 0x4#4
    have h₈ : ∀ old, half (some q) MTIMECMP old = _ := half_eq (h rfl) 0x8#4
    have h₁₂ : ∀ old, half (some q) MTIMECMPH old = _ := half_eq (h rfl) 0xC#4
    have hlow : ∀ x y : Word, (x ++ y : BitVec 64).extractLsb' 0 32 = y := fun _ _ =>
      BitVec.extractLsb'_append_eq_right
    have hhigh : ∀ x y : Word, (x ++ y : BitVec 64).extractLsb' 32 32 = x := fun _ _ =>
      BitVec.extractLsb'_append_eq_left
    have hoff : ∀ o : BitVec 4, (q.addr.extractLsb' 0 4).toNat = o.toNat → q.addr.extractLsb' 0 4 = o :=
      fun _ => BitVec.eq_of_toNat_eq
    have hne : ∀ o : BitVec 4, (q.addr.extractLsb' 0 4).toNat ≠ o.toNat → q.addr.extractLsb' 0 4 ≠ o :=
      fun _ hn ho => hn (congrArg BitVec.toNat ho)
    -- one case for each half, and one for the offsets that name none
    unfold ClintTimer.next
    rw [if_pos rfl, if_pos rfl]
    split
    · next ho => constructor <;> simp [h₀, h₄, h₈, h₁₂, hoff 0x0 ho, hlow, hhigh]
    · next ho => constructor <;> simp [h₀, h₄, h₈, h₁₂, hoff 0x4 ho, hlow, hhigh]
    · next ho => constructor <;> simp [h₀, h₄, h₈, h₁₂, hoff 0x8 ho, hlow, hhigh]
    · next ho => constructor <;> simp [h₀, h₄, h₈, h₁₂, hoff 0xC ho, hlow, hhigh]
    · next n₀ n₄ n₈ n₁₂ =>
      constructor <;> simp [h₀, h₄, h₈, h₁₂, hne 0x0#4 n₀, hne 0x4#4 n₄,
        hne 0x8#4 n₈, hne 0xC#4 n₁₂]

end ClintTimer

end Rv32Soc
