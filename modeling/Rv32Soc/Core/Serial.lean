import Rv32Soc.Lib.Bytes
import Rv32Soc.Lib.Circuit

/-!
# The serial line

`uart_tx.v` and `uart_rx.v`, and one wired to the other. A frame is ten slots of `clksPerBit`
cycles each; the receiver takes `clksPerBit + 1` cycles from one bit to the next, and starts
half a bit late, so that its samples move through the slots. They stay within them
(`Receiving.next`), and the receiver is idle again before the frame is over: what is
received is what has been sent (`received_of_isRun`).
-/

namespace Rv32Soc

/-- The states of both ends. -/
inductive UartState
  | idle
  | start
  | data
  | stop
  deriving DecidableEq, Repr

/-! ## The transmitter -/

/-- The registers of `uart_tx`. -/
structure UartTx where
  state : UartState
  clockCount : ℕ
  bitIndex : ℕ
  savedData : Byte
  tx : Bool
  txReady : Bool

namespace UartTx

variable (C : ℕ) (s : UartTx)

/-- `rst` -/
def reset : UartTx := ⟨.idle, 0, 0, 0, true, true⟩

/-- `clock_count < CLOCKS_PER_BIT - 1` -/
def holds : Bool := s.clockCount < C - 1

/-- The counter is 16 bits wide. -/
def nextCount : ℕ := if s.holds C then (s.clockCount + 1) % 2 ^ 16 else 0

/-- The registers after an edge. `tx_start` is looked at in `IDLE` only, whatever `tx_ready` says. -/
def next (txStart : Bool) (txData : Byte) : UartTx :=
  match s.state with
  | .idle =>
    { s with
      tx := true
      clockCount := 0
      bitIndex := 0
      txReady := !txStart
      savedData := if txStart then txData else s.savedData
      state := if txStart then .start else .idle }
  | .start =>
    { s with
      tx := false
      clockCount := s.nextCount C
      state := if s.holds C then .start else .data }
  | .data =>
    { s with
      tx := s.savedData.getLsbD s.bitIndex
      clockCount := s.nextCount C
      bitIndex := if !s.holds C && decide (s.bitIndex < 7) then s.bitIndex + 1 else s.bitIndex
      state := if s.holds C || decide (s.bitIndex < 7) then .data else .stop }
  | .stop =>
    { s with
      tx := true
      clockCount := s.nextCount C
      state := if s.holds C then .stop else .idle }

end UartTx

/-! ## The receiver -/

/-- `b[i] <= v` -/
def setBit (b : Byte) (i : ℕ) (v : Bool) : Byte := if v then b ||| 1#8 <<< i else b &&& ~~~(1#8 <<< i)

theorem getLsbD_setBit (b : Byte) (v : Bool) {i j : ℕ} (hj : j < 8) :
    (setBit b i v).getLsbD j = if j = i then v else b.getLsbD j := by
  cases v <;> simp [setBit, hj] <;> grind

/-- The registers of `uart_rx`. -/
structure UartRx where
  state : UartState
  clkCount : ℕ
  bitIndex : ℕ
  rxMeta : Bool
  rxSync : Bool
  rxData : Byte
  rxValid : Bool

namespace UartRx

variable (C : ℕ) (s : UartRx)

/-- `rst`: the synchroniser is idle high. -/
def reset : UartRx := ⟨.idle, 0, 0, true, true, 0, false⟩

/-- The receiver after an edge, the synchroniser apart. -/
def step : UartRx :=
  match s.state with
  | .idle => if s.rxSync then { s with rxValid := false } else
    { s with rxValid := false, state := .start, clkCount := C / 2 }
  | .start =>
    if s.clkCount = 0 then
      if s.rxSync then { s with rxValid := false, state := .idle }
      else { s with rxValid := false, state := .data, clkCount := C, bitIndex := 0 }
    else { s with rxValid := false, clkCount := s.clkCount - 1 }
  | .data =>
    if s.clkCount = 0 then
      { s with
        rxValid := false
        rxData := setBit s.rxData s.bitIndex s.rxSync
        clkCount := C
        state := if s.bitIndex = 7 then .stop else .data
        bitIndex := if s.bitIndex = 7 then s.bitIndex else s.bitIndex + 1 }
    else { s with rxValid := false, clkCount := s.clkCount - 1 }
  | .stop =>
    if s.clkCount = 0 then { s with rxValid := true, state := .idle }
    else { s with rxValid := false, clkCount := s.clkCount - 1 }

def next (rx : Bool) : UartRx := { s.step C with rxMeta := rx, rxSync := s.rxMeta }

end UartRx

/-! ## One wired to the other -/

/-- `uart_tx.tx` is `uart_rx.rx`. -/
structure SerialLink where
  tx : UartTx
  rx : UartRx

/-- `tx_start` and `tx_data`. -/
structure SerialIn where
  txStart : Bool
  txData : Byte

/-- Both ends have the same bit period, and a byte is started while `tx_ready` is high. -/
def serialLink (C : ℕ) : Circuit SerialLink SerialIn where
  init := {⟨.reset, .reset⟩}
  admits s i := i.txStart → s.tx.txReady
  next s i := ⟨s.tx.next C i.txStart i.txData, s.rx.next C s.tx.tx⟩

/-! ## Frames -/

/-- The level of the line in the slot `q` of a frame: the start bit, the bits of the byte and the
    stop bit. -/
def slot (b : Byte) (q : ℕ) : Bool := if q = 0 then false else if q ≤ 8 then b.getLsbD (q - 1) else true

/-- The level before the slot `q`; the line is high before a frame. -/
def slotBefore (b : Byte) (q : ℕ) : Bool := if q = 0 then true else slot b (q - 1)

/-- The level on the cycle `r` of the slot `q`, behind a register and `d` more. -/
def lagged (b : Byte) (q r d : ℕ) : Bool := if d < r then slot b q else slotBefore b q

@[simp]
theorem lagged_succ (b : Byte) (q r d : ℕ) : lagged b q (r + 1) (d + 1) = lagged b q r d := by
  simp [lagged]

theorem lagged_zero (b : Byte) (q d : ℕ) : lagged b (q + 1) 0 d = slot b q := by
  simp [lagged, slotBefore]

namespace UartTx

/-- The transmitter is on the cycle `r` of the slot `q` of a frame. -/
structure Sending (C : ℕ) (b : Byte) (q r : ℕ) (s : UartTx) : Prop where
  slot : q ≤ 9
  cycle : r < C
  ready : s.txReady = false
  saved : s.savedData = b
  line : s.tx = lagged b q r 0
  count : s.clockCount = r
  index : s.bitIndex = if q ≤ 8 then q - 1 else 7
  state : s.state = if q = 0 then .start else if q ≤ 8 then .data else .stop

variable {C : ℕ} {b : Byte} {q r : ℕ} {s : UartTx} {txStart : Bool} {txData : Byte}

/-- The three kinds of slots. -/
theorem Sending.cases (h : Sending C b q r s) :
    q = 0 ∧ s.state = .start ∧ s.bitIndex = 0 ∨ 1 ≤ q ∧ q ≤ 8 ∧ s.state = .data ∧
    s.bitIndex = q - 1 ∨
      q = 9 ∧ s.state = .stop ∧ s.bitIndex = 7 := by
  have hq := h.slot
  have hs := h.state
  have hi := h.index
  rcases Nat.eq_zero_or_pos q with rfl | hpos
  · exact .inl ⟨rfl, hs, hi⟩
  · rw [if_neg (by omega)] at hs
    by_cases h8 : q ≤ 8
    · rw [if_pos h8] at hs hi
      exact .inr (.inl ⟨hpos, h8, hs, hi⟩)
    · rw [if_neg h8] at hs hi
      exact .inr (.inr ⟨by omega, hs, hi⟩)

/-- What a frame drives next, and how long it stays in its slot. -/
theorem Sending.line_next (h : Sending C b q r s) (hC : C ≤ 65536) :
    (s.next C txStart txData).tx = Rv32Soc.slot b q ∧ (s.next C txStart txData).txReady = false ∧
      (s.next C txStart txData).savedData = b ∧
      (s.next C txStart txData).clockCount = if r + 1 < C then r + 1 else 0 := by
  have hr := h.cycle
  have hcount : s.nextCount C = if r + 1 < C then r + 1 else 0 := by
    rw [nextCount, holds, h.count]
    by_cases hlt : r + 1 < C
    · rw [if_pos hlt, if_pos (by rw [decide_eq_true_iff]; omega)]
      omega
    · rw [if_neg hlt, if_neg (by rw [decide_eq_true_iff]; omega)]
  rcases h.cases with ⟨rfl, hs, -⟩ | ⟨h₁, h₈, hs, hi⟩ | ⟨rfl, hs, -⟩
  · simp only [UartTx.next, hs]
    exact ⟨rfl, h.ready, h.saved, hcount⟩
  · simp only [UartTx.next, hs]
    refine ⟨?_, h.ready, h.saved, hcount⟩
    rw [h.saved, hi, Rv32Soc.slot, if_neg (by omega), if_pos h₈]
  · simp only [UartTx.next, hs]
    exact ⟨rfl, h.ready, h.saved, hcount⟩

/-- The next cycle of a slot. -/
theorem Sending.next (h : Sending C b q r s) (hC : C ≤ 65536) (hr : r + 1 < C) :
    Sending C b q (r + 1) (s.next C txStart txData) := by
  obtain ⟨hline, hready, hsaved, hcount⟩ := h.line_next hC
  have hh : s.holds C = true := by
    rw [holds, h.count, decide_eq_true_iff]
    omega
  refine ⟨h.slot, hr, hready, hsaved, hline.trans (by simp [lagged]), hcount.trans (if_pos hr), ?_, ?_⟩
  · rw [← h.index]
    rcases h.cases with ⟨-, hs, -⟩ | ⟨-, -, hs, -⟩ | ⟨-, hs, -⟩ <;> simp [UartTx.next, hs, hh]
  · rw [← h.state]
    rcases h.cases with ⟨-, hs, -⟩ | ⟨-, -, hs, -⟩ | ⟨-, hs, -⟩ <;> simp [UartTx.next, hs, hh]

/-- The next slot. -/
theorem Sending.next_slot (h : Sending C b q r s) (hC : C ≤ 65536) (hr : r + 1 = C) (hq : q < 9) :
    Sending C b (q + 1) 0 (s.next C txStart txData) := by
  obtain ⟨hline, hready, hsaved, hcount⟩ := h.line_next hC
  have hh : s.holds C = false := by
    rw [holds, h.count, decide_eq_false_iff_not]
    omega
  refine ⟨hq, by omega, hready, hsaved, hline.trans (lagged_zero b q 0).symm,
    hcount.trans (if_neg (by omega)), ?_, ?_⟩
  · rcases h.cases with ⟨rfl, hs, hi⟩ | ⟨h₁, h₈, hs, hi⟩ | ⟨rfl, -⟩
    · simp [UartTx.next, hs, hi]
    · simp only [UartTx.next, hs, hh, hi]
      by_cases h₇ : q ≤ 7
      · simp [show q - 1 < 7 by omega, show q + 1 ≤ 8 by omega]
        omega
      · simp [show q = 8 by omega]
    · exact absurd hq (lt_irrefl 9)
  · rcases h.cases with ⟨rfl, hs, hi⟩ | ⟨h₁, h₈, hs, hi⟩ | ⟨rfl, -⟩
    · simp [UartTx.next, hs, hh]
    · simp only [UartTx.next, hs, hh, hi]
      by_cases h₇ : q ≤ 7
      · simp [show q - 1 < 7 by omega, show q + 1 ≤ 8 by omega]
      · simp [show q = 8 by omega]
    · exact absurd hq (lt_irrefl 9)

/-- After the stop bit the line stays high. -/
theorem Sending.last (h : Sending C b 9 r s) (hC : C ≤ 65536) (hr : r + 1 = C) :
    (s.next C txStart txData).state = .idle ∧ (s.next C txStart txData).tx = true ∧
      (s.next C txStart txData).txReady = false := by
  obtain ⟨hline, hready, -⟩ := h.line_next hC
  have hh : s.holds C = false := by
    rw [holds, h.count, decide_eq_false_iff_not]
    omega
  have hs : s.state = .stop := h.state
  exact ⟨by simp [UartTx.next, hs, hh], hline, hready⟩

/-- A byte is taken. -/
theorem sending_of_start (hs : s.state = .idle) (hpos : 0 < C) : Sending C b 0 0 (s.next C true b) := by
  refine ⟨by decide, hpos, ?_, ?_, ?_, ?_, ?_, ?_⟩ <;> simp [UartTx.next, hs, lagged, slotBefore]

/-- A frame of `b` is on the line for `k` cycles more. -/
def SendingFor (C : ℕ) (b : Byte) (k : ℕ) (s : UartTx) : Prop :=
  ∃ q r, Sending C b q r s ∧ (9 - q) * C + (C - r) = k

variable {k : ℕ}

/-- This cycle is the last one of a frame. -/
def ends (C : ℕ) (s : UartTx) : Prop := s.state = .stop ∧ s.holds C = false

instance (C : ℕ) (s : UartTx) : Decidable (s.ends C) := inferInstanceAs (Decidable (_ ∧ _))

theorem sendingFor_of_start (hs : s.state = .idle) (hpos : 0 < C) :
    SendingFor C b (10 * C) (s.next C true b) :=
  ⟨0, 0, sending_of_start hs hpos, by omega⟩

namespace SendingFor

theorem busy (h : SendingFor C b k s) : s.state ≠ .idle ∧ s.savedData = b ∧ s.txReady = false := by
  obtain ⟨q, r, h, -⟩ := h
  refine ⟨fun hs => ?_, h.saved, h.ready⟩
  rcases h.cases with ⟨-, hs', -⟩ | ⟨-, -, hs', -⟩ |
    ⟨-, hs', -⟩ <;> exact absurd (hs.symm.trans hs') nofun

theorem pos (h : SendingFor C b k s) : 0 < k := by
  obtain ⟨q, r, h, hk⟩ := h
  have := h.cycle
  omega

theorem ends_iff (h : SendingFor C b k s) : s.ends C ↔ k = 1 := by
  obtain ⟨q, r, h, hk⟩ := h
  have hr := h.cycle
  have hq := h.slot
  have hh : s.holds C = false ↔ r + 1 = C := by
    rw [holds, h.count, decide_eq_false_iff_not]
    omega
  rw [ends, hh]
  rcases h.cases with ⟨rfl, hs, -⟩ | ⟨h₁, h₈, hs, -⟩ | ⟨rfl, hs, -⟩
  · exact ⟨fun h => absurd (hs.symm.trans h.1) nofun, fun h => by omega⟩
  · refine ⟨fun h => absurd (hs.symm.trans h.1) nofun, fun h => ?_⟩
    have : 1 * C ≤ (9 - q) * C := Nat.mul_le_mul_right C (by omega)
    omega
  · exact ⟨fun h => by omega, fun h => ⟨hs, by omega⟩⟩

theorem next (h : SendingFor C b (k + 2) s) (hC : C ≤ 65536) :
    SendingFor C b (k + 1) (s.next C txStart txData) := by
  obtain ⟨q, r, h, hk⟩ := h
  have hr := h.cycle
  by_cases hlast : r + 1 < C
  · exact ⟨q, r + 1, h.next hC hlast, by omega⟩
  · have hq := h.slot
    have h9 : q < 9 := by
      by_contra hq'
      obtain rfl : q = 9 := by omega
      omega
    refine ⟨q + 1, 0, h.next_slot hC (by omega) h9, ?_⟩
    have hmul : (9 - q) * C = (9 - (q + 1)) * C + C := by
      rw [show 9 - q = 9 - (q + 1) + 1 by omega, Nat.succ_mul]
    omega

theorem last (h : SendingFor C b 1 s) : (s.next C txStart txData).state = .idle := by
  obtain ⟨hs, hh⟩ := h.ends_iff.2 rfl
  simp [UartTx.next, hs, hh]

end SendingFor

end UartTx

namespace UartRx

/-- The receiver on the cycle `r` of the slot `q` of the frame of `b`. It looks at the start bit `C
    / 2 + 4` cycles after the start of the frame, and at each bit `C + 1` cycles after the one
    before. -/
inductive Receiving (C : ℕ) (b : Byte) (q r : ℕ) (s : UartRx) : Prop
  | idle (hq : q = 0) (hr : r ≤ 3) (hs : s.state = .idle) (hv : s.rxValid = false)
  | start (hq : q = 0) (hr : s.clkCount + r = C / 2 + 4) (hs : s.state = .start) (hv : s.rxValid = false)
  | data (hi : s.bitIndex < 8) (hle : s.clkCount ≤ C)
      (hr : q = s.bitIndex + 1 ∧ s.clkCount + r = C / 2 + 5 + s.bitIndex ∨
        q = s.bitIndex ∧ s.clkCount + r = C + C / 2 + 5 + s.bitIndex)
      (hb : ∀ k < s.bitIndex, s.rxData.getLsbD k = b.getLsbD k) (hs : s.state = .data)
      (hv : s.rxValid = false)
  | stop (hle : s.clkCount ≤ C)
      (hr : q = 9 ∧ s.clkCount + r = C / 2 + 13 ∨ q = 8 ∧ s.clkCount + r = C + C / 2 + 13)
      (hb : s.rxData = b) (hs : s.state = .stop) (hv : s.rxValid = false)
  | valid (hq : q = 9) (hr : r = C / 2 + 14) (hb : s.rxData = b) (hs : s.state = .idle)
      (hv : s.rxValid = true)
  | done (hq : q = 9) (hr : C / 2 + 14 < r) (hs : s.state = .idle) (hv : s.rxValid = false)

variable {C : ℕ} {b : Byte} {q r : ℕ} {s : UartRx} {line : Bool}

/-- All bits but the last are there, and the last comes. -/
theorem eq_of_bits {d : Byte} {v : Bool} (hb : ∀ k < 7, d.getLsbD k = b.getLsbD k)
    (hv : v = b.getLsbD 7) :
    setBit d 7 v = b := by
  apply BitVec.eq_of_getLsbD_eq
  intro k hk
  rw [getLsbD_setBit d v hk]
  split_ifs with h7
  · rw [hv, h7]
  · exact hb k (by omega)

/-- A sample of a bit is in the slot of the bit. -/
theorem Receiving.sample (h : Receiving C b q r s) (hC : 32 ≤ C) (hr : r < C)
    (hsync : s.rxSync = lagged b q r 2) (hs : s.state = .data) (h0 : s.clkCount = 0) :
    q = s.bitIndex + 1 ∧ r = C / 2 + 5 + s.bitIndex ∧ s.rxSync = b.getLsbD s.bitIndex := by
  cases h with
  | data hi hle hr' =>
    rw [h0] at hr'
    have hq : q = s.bitIndex + 1 ∧ r = C / 2 + 5 + s.bitIndex := by omega
    refine ⟨hq.1, hq.2, ?_⟩
    rw [hsync, hq.1, lagged, if_pos (by omega), slot, if_neg (by omega), if_pos (by omega),
      Nat.add_sub_cancel]
  | idle _ _ hs' => exact absurd (hs.symm.trans hs') nofun
  | start _ _ hs' => exact absurd (hs.symm.trans hs') nofun
  | stop _ _ _ hs' => exact absurd (hs.symm.trans hs') nofun
  | valid _ _ _ hs' => exact absurd (hs.symm.trans hs') nofun
  | done _ _ hs' => exact absurd (hs.symm.trans hs') nofun

/-- One edge: the samples stay within their slots. -/
theorem Receiving.next (h : Receiving C b q r s) (hC : 32 ≤ C) (hr : r < C)
    (hsync : s.rxSync = lagged b q r 2)
    {q' r' : ℕ} (hnext : r + 1 < C ∧ q' = q ∧ r' = r + 1 ∨ r + 1 = C ∧ q < 9 ∧
      q' = q + 1 ∧ r' = 0) :
    Receiving C b q' r' (s.next C line) := by
  have hdata := h.sample hC hr hsync
  cases h with
  | idle hq hr' hs hv =>
    rw [UartRx.next, step, hs]
    -- The synchroniser is two cycles late, so the start bit is seen in the fourth.
    by_cases h3 : r = 3
    · have hlow : s.rxSync = false := by rw [hsync, hq, h3]; rfl
      simp only [hlow, Bool.false_eq_true, if_false]
      exact .start (by omega) (by dsimp only; omega) rfl rfl
    · have hhigh : s.rxSync = true := by
        rw [hsync, hq, lagged, if_neg (by omega)]
        rfl
      simp only [hhigh, if_true]
      exact .idle (by omega) (by omega) rfl rfl
  | start hq hr' hs hv =>
    rw [UartRx.next, step, hs]
    -- The middle of the start bit: the line is still low, and the bits follow `C + 1` apart.
    by_cases h0 : s.clkCount = 0
    · have hlow : s.rxSync = false := by
        rw [hsync, hq, lagged, if_pos (by omega)]
        rfl
      simp only [h0, hlow, if_true, Bool.false_eq_true, if_false]
      exact .data (by dsimp only; omega) le_rfl (by dsimp only; omega) (fun k hk =>
        absurd hk (Nat.not_lt_zero k)) rfl rfl
    · simp only [h0, if_false]
      exact .start (by omega) (by dsimp only; omega) rfl rfl
  | data hi hle hr' hb hs hv =>
    rw [UartRx.next, step, hs]
    by_cases h0 : s.clkCount = 0
    · obtain ⟨hq, hr₀, hbit⟩ := hdata hs h0
      -- A bit is sampled in its middle; after the eighth comes the stop bit.
      by_cases h7 : s.bitIndex = 7
      · simp only [h0, h7, if_true]
        rw [h7] at hb hbit hq hr₀
        exact .stop le_rfl (by dsimp only; omega) (eq_of_bits hb hbit) rfl rfl
      · simp only [h0, h7, if_true, if_false]
        refine .data (by dsimp only; omega) le_rfl (by dsimp only; omega) (fun k hk => ?_) rfl rfl
        rw [getLsbD_setBit _ _ (by dsimp only at hk; omega)]
        split_ifs with hk'
        · rw [hbit, hk']
        · exact hb k (by dsimp only at hk; omega)
    · simp only [h0, if_false]
      exact .data hi (by dsimp only; omega) (by dsimp only; omega) hb rfl rfl
  | stop hle hr' hb hs hv =>
    rw [UartRx.next, step, hs]
    by_cases h0 : s.clkCount = 0
    · simp only [h0, if_true]
      exact .valid (by omega) (by omega) hb rfl rfl
    · simp only [h0, if_false]
      exact .stop (by dsimp only; omega) (by dsimp only; omega) hb rfl rfl
  | valid hq hr' hb hs hv =>
    have hhigh : s.rxSync = true := by
      rw [hsync, hq, lagged, if_pos (by omega)]
      rfl
    rw [UartRx.next, step, hs]
    simp only [hhigh, if_true]
    exact .done (by omega) (by omega) rfl rfl
  | done hq hr' hs hv =>
    have hhigh : s.rxSync = true := by
      rw [hsync, hq, lagged, if_pos (by omega)]
      rfl
    rw [UartRx.next, step, hs]
    simp only [hhigh, if_true]
    exact .done (by omega) (by omega) rfl rfl

end UartRx

/-! ## The link -/

open UartTx UartRx

namespace SerialLink

variable {C : ℕ} {b : Byte} {q r : ℕ} {s : SerialLink} {i : SerialIn}

/-- Nothing is on the line. -/
structure Rest (s : SerialLink) : Prop where
  tx : s.tx.state = .idle
  line : s.tx.tx = true
  rxMeta : s.rx.rxMeta = true
  sync : s.rx.rxSync = true
  rx : s.rx.state = .idle
  valid : s.rx.rxValid = false

/-- The frame of `b` is on the line. -/
structure Frame (C : ℕ) (b : Byte) (q r : ℕ) (s : SerialLink) : Prop where
  tx : Sending C b q r s.tx
  rxMeta : s.rx.rxMeta = lagged b q r 1
  sync : s.rx.rxSync = lagged b q r 2
  rx : Receiving C b q r s.rx

theorem Rest.next (h : Rest s) (hi : i.txStart = false) : Rest ((serialLink C).next s i) := by
  have hrx : s.rx.next C s.tx.tx = { s.rx with rxMeta := s.tx.tx, rxSync := s.rx.rxMeta } := by
    simp [UartRx.next, UartRx.step, h.rx, h.sync, ← h.valid]
  refine ⟨?_, ?_, ?_, ?_, ?_, ?_⟩ <;> simp only [serialLink, hrx]
  · simp [UartTx.next, h.tx, hi]
  · simp [UartTx.next, h.tx]
  · exact h.line
  · exact h.rxMeta
  · exact h.rx
  · exact h.valid

/-- A byte is put on the line. -/
theorem Rest.start (h : Rest s) (hC : 0 < C) (hi : i.txStart = true) :
    Frame C i.txData 0 0 ((serialLink C).next s i) := by
  have hrx : s.rx.next C s.tx.tx = { s.rx with rxMeta := s.tx.tx, rxSync := s.rx.rxMeta } := by
    simp [UartRx.next, UartRx.step, h.rx, h.sync, ← h.valid]
  refine ⟨?_, ?_, ?_, ?_⟩ <;> simp only [serialLink, hrx]
  · rw [hi]
    exact sending_of_start h.tx hC
  · exact h.line
  · exact h.rxMeta
  · exact .idle rfl (Nat.zero_le 3) h.rx h.valid

theorem Frame.cycle (h : Frame C b q r s) : r < C := h.tx.cycle

theorem Frame.next (h : Frame C b q r s) (hC : 32 ≤ C) (hC' : C ≤ 65536) (hr : r + 1 < C) :
    Frame C b q (r + 1) ((serialLink C).next s i) where
  tx := h.tx.next hC' hr
  rxMeta := h.tx.line.trans (lagged_succ b q r 0).symm
  sync := h.rxMeta.trans (lagged_succ b q r 1).symm
  rx := h.rx.next hC h.cycle h.sync (.inl ⟨hr, rfl, rfl⟩)

theorem Frame.next_slot (h : Frame C b q r s) (hC : 32 ≤ C) (hC' : C ≤ 65536)
    (hr : r + 1 = C) (hq : q < 9) :
    Frame C b (q + 1) 0 ((serialLink C).next s i) where
  tx := h.tx.next_slot hC' hr hq
  rxMeta := by
    rw [lagged_zero]
    exact h.tx.line.trans (if_pos (by omega))
  sync := by
    rw [lagged_zero]
    exact h.rxMeta.trans (if_pos (by omega))
  rx := h.rx.next hC h.cycle h.sync (.inr ⟨hr, hq, rfl, rfl⟩)

/-- The receiver is done before the stop bit is over. -/
theorem Frame.last (h : Frame C b 9 r s) (hC : 32 ≤ C) (hC' : C ≤ 65536) (hr : r + 1 = C) :
    Rest ((serialLink C).next s i) := by
  obtain ⟨hstate, hline, -⟩ := h.tx.last hC' hr
  have hhigh : s.rx.rxSync = true := by
    rw [h.sync, lagged, if_pos (by omega)]
    rfl
  have hidle : s.rx.state = .idle := by
    cases h.rx with
    | idle hq => exact absurd hq (by decide)
    | start hq => exact absurd hq (by decide)
    | data hi hle hr' => omega
    | stop hle hr' => omega
    | valid _ _ _ hs => exact hs
    | done _ _ hs => exact hs
  refine ⟨hstate, hline, ?_, ?_, ?_, ?_⟩
  · exact h.tx.line.trans (if_pos (by omega))
  · exact h.rxMeta.trans (if_pos (by omega))
  · simp [serialLink, UartRx.next, UartRx.step, hidle, hhigh]
  · simp [serialLink, UartRx.next, UartRx.step, hidle, hhigh]

/-- When the byte is there. -/
theorem Frame.valid_iff (h : Frame C b q r s) :
    (s.rx.rxValid = true ↔ q = 9 ∧ r = C / 2 + 14) ∧ (s.rx.rxValid = true → s.rx.rxData = b) := by
  cases h.rx with
  | idle hq _ _ hv => simp [hv, hq]
  | start hq _ _ hv => simp [hv, hq]
  | data hi hle hr' _ _ hv =>
    refine ⟨⟨fun h => absurd (hv.symm.trans h) nofun, fun h => by omega⟩, fun h =>
      absurd (hv.symm.trans h) nofun⟩
  | stop hle hr' _ _ hv =>
    refine ⟨⟨fun h => absurd (hv.symm.trans h) nofun, fun h => by omega⟩, fun h =>
      absurd (hv.symm.trans h) nofun⟩
  | valid hq hr hb _ hv => exact ⟨⟨fun _ => ⟨hq, hr⟩, fun _ => hv⟩, fun _ => hb⟩
  | done hq hr _ hv =>
    refine ⟨⟨fun h => absurd (hv.symm.trans h) nofun, fun h => by omega⟩, fun h =>
      absurd (hv.symm.trans h) nofun⟩

end SerialLink

open SerialLink

/-- The bytes that are started on the first `n` cycles. -/
def sentBytes (ι : ℕ → SerialIn) : ℕ → List Byte
  | 0 => []
  | n + 1 => sentBytes ι n ++ if (ι n).txStart then [(ι n).txData] else []

/-- The bytes that `rx_valid` has been pulsed for on the first `n` cycles. -/
def receivedBytes (σ : ℕ → SerialLink) : ℕ → List Byte
  | 0 => []
  | n + 1 => receivedBytes σ n ++ if (σ n).rx.rxValid then [(σ n).rx.rxData] else []

/-- The line, what has been sent and what has been received. -/
inductive Delivering (C : ℕ) (s : SerialLink) (sent received : List Byte) : Prop
  | rest (h : Rest s) (he : received = sent)
  | frame {b q r l} (h : Frame C b q r s) (hs : sent = l ++ [b])
      (hr : received = if q = 9 ∧ C / 2 + 14 < r then l ++ [b] else l)

section

variable {C : ℕ} {σ : ℕ → SerialLink} {ι : ℕ → SerialIn}

theorem prefix_receivedBytes {n m : ℕ} (h : n ≤ m) : receivedBytes σ n <+: receivedBytes σ m := by
  induction m, h using Nat.le_induction with
  | base => exact List.prefix_rfl
  | succ m _ ih => exact ih.trans (List.prefix_append _ _)

theorem frame_txStart {b q r} {s : SerialLink} {i : SerialIn} (h : Frame C b q r s)
    (ha : i.txStart → s.tx.txReady) :
    i.txStart = false := by
  by_contra hi
  exact absurd (h.tx.ready.symm.trans (ha (Bool.eq_true_of_not_eq_false hi))) nofun

theorem delivering_of_isRun (h : (serialLink C).IsRun σ ι) (hC : 32 ≤ C) (hC' : C ≤ 65536) (n : ℕ) :
    Delivering C (σ n) (sentBytes ι n) (receivedBytes σ n) := by
  induction n with
  | zero =>
    have h0 : σ 0 = ⟨.reset, .reset⟩ := h.init
    rw [h0]
    exact .rest ⟨rfl, rfl, rfl, rfl, rfl, rfl⟩ rfl
  | succ n ih =>
    rw [h.next n, sentBytes, receivedBytes]
    cases ih with
    | rest hrest he =>
      rw [hrest.valid, he, if_neg Bool.false_ne_true, List.append_nil]
      cases hi : (ι n).txStart with
      | false => exact .rest (hrest.next hi) (by simp)
      | true => exact .frame (hrest.start (by omega) hi) rfl (by simp)
    | frame hf hs hr =>
      rename_i b q r l
      obtain ⟨hvalid, hdata⟩ := hf.valid_iff
      have hsent : (if (ι n).txStart = true then [(ι n).txData] else []) = [] := by
        rw [frame_txStart hf (h.admits n), if_neg Bool.false_ne_true]
      -- the byte is there on one cycle of the stop bit
      have hrec : receivedBytes σ n ++ (if (σ n).rx.rxValid = true then [(σ n).rx.rxData] else []) =
          if q = 9 ∧ C / 2 + 14 ≤ r then l ++ [b] else l := by
        rw [hr]
        by_cases hv : (σ n).rx.rxValid = true
        · have hat := hvalid.1 hv
          rw [if_pos hv, hdata hv, if_neg (by omega), if_pos (by omega)]
        · have hne := mt hvalid.2 hv
          rw [if_neg hv, List.append_nil]
          exact if_congr (by omega) rfl rfl
      rw [hsent, hrec, List.append_nil]
      have hcyc := hf.cycle
      by_cases hlast : r + 1 < C
      · exact .frame (hf.next hC hC' hlast) hs (if_congr (by omega) rfl rfl)
      · by_cases hq : q < 9
        · exact .frame (hf.next_slot hC hC' (by omega) hq) hs
            (by rw [if_neg (by omega), if_neg (by omega)])
        · have h9 : q = 9 := by
            have := hf.tx.slot
            omega
          subst h9
          exact .rest (hf.last hC hC' (by omega)) (by rw [if_pos (by omega), hs])

theorem prefix_sentBytes {n m : ℕ} (h : n ≤ m) : sentBytes ι n <+: sentBytes ι m := by
  induction m, h using Nat.le_induction with
  | base => exact List.prefix_rfl
  | succ m _ ih => exact ih.trans (List.prefix_append _ _)

section

variable (h : (serialLink C).IsRun σ ι) (hC : 32 ≤ C) (hC' : C ≤ 65536) {b : Byte} {q r n : ℕ}

include h hC hC'

/-- Further on in the same slot. -/
theorem frame_add (hf : Frame C b q r (σ n)) {j : ℕ} (hj : r + j < C) :
    Frame C b q (r + j) (σ (n + j)) := by
  induction j with
  | zero => exact hf
  | succ j ih =>
    rw [← Nat.add_assoc, ← Nat.add_assoc, h.next (n + j)]
    exact (ih (by omega)).next hC hC' (by omega)

/-- The slot after it. -/
theorem frame_slot (hf : Frame C b q r (σ n)) (hq : q < 9) : Frame C b (q + 1) 0 (σ (n + (C - r))) := by
  have hcyc := hf.cycle
  have hlast := frame_add h hC hC' hf (show r + (C - 1 - r) < C by omega)
  have hn := h.next (n + (C - 1 - r))
  rw [show n + (C - 1 - r) + 1 = n + (C - r) by omega] at hn
  rw [hn]
  exact hlast.next_slot hC hC' (by omega) hq

/-- The stop bit. -/
theorem frame_stop {k : ℕ} (hk : q + k = 9) (hf : Frame C b q 0 (σ n)) :
    Frame C b 9 0 (σ (n + k * C)) := by
  induction k generalizing q n with
  | zero =>
    obtain rfl : q = 9 := hk
    simpa using hf
  | succ k ih =>
    have hnext := ih (n := n + C) (by omega) (frame_slot h hC hC' hf (by omega))
    rwa [Nat.add_assoc, Nat.add_comm C, ← Nat.succ_mul] at hnext

/-- Everything that has been sent is there ten bit periods later, at the latest. -/
theorem exists_received (n : ℕ) : ∃ m ≥ n, m ≤ n + 10 * C ∧ receivedBytes σ m = sentBytes ι m := by
  -- From the sample of the stop bit on the byte counts as received.
  have hdone : ∀ {b m}, Frame C b 9 (C / 2 + 15) (σ m) → receivedBytes σ m = sentBytes ι m := by
    intro b m hf
    cases delivering_of_isRun h hC hC' m with
    | rest _ he => exact he
    | frame hf' hs hr =>
      have hr' := hf'.tx.count.symm.trans hf.tx.count
      have hstop : (σ m).tx.state = .stop := hf.tx.state
      have hq' := hf'.tx.state.symm.trans hstop
      rw [hr, hs, if_pos]
      refine ⟨?_, by omega⟩
      split_ifs at hq' with h0 h8
      have := hf'.tx.slot
      omega
  cases delivering_of_isRun h hC hC' n with
  | rest _ he => exact ⟨n, le_rfl, Nat.le_add_right _ _, he⟩
  | frame hf hs hr =>
    rename_i b q r l
    have hslot := hf.tx.slot
    have hcyc := hf.cycle
    -- In the stop bit it is late enough already, or soon will be; else the stop bit comes first.
    by_cases h9 : q = 9
    · subst h9
      by_cases hlate : C / 2 + 14 < r
      · exact ⟨n, le_rfl, Nat.le_add_right _ _, by rw [hr, if_pos ⟨rfl, hlate⟩, hs]⟩
      · have hf' := frame_add h hC hC' hf (show r + (C / 2 + 15 - r) < C by omega)
        rw [show r + (C / 2 + 15 - r) = C / 2 + 15 by omega] at hf'
        exact ⟨_, Nat.le_add_right _ _, by omega, hdone hf'⟩
    · have hstop := frame_stop h hC hC' (k := 8 - q) (by omega) (frame_slot h hC hC' hf (by omega))
      have hf' := frame_add h hC hC' hstop (show 0 + (C / 2 + 15) < C by omega)
      rw [Nat.zero_add] at hf'
      have hle : (8 - q) * C ≤ 8 * C := Nat.mul_le_mul_right C (by omega)
      exact ⟨_, by omega, by omega, hdone hf'⟩

end

/-- What `rx_valid` is pulsed for is what `tx_start` has been pulsed for, byte by byte. -/
theorem received_of_isRun (h : (serialLink C).IsRun σ ι) (hC : 32 ≤ C) (hC' : C ≤ 65536) (n : ℕ) :
    receivedBytes σ n <+: sentBytes ι n ∧ sentBytes ι n <+: receivedBytes σ (n + 10 * C) := by
  constructor
  · cases delivering_of_isRun h hC hC' n with
    | rest _ he => exact he ▸ List.prefix_rfl
    | frame _ hs hr =>
      rw [hs, hr]
      split_ifs
      · exact List.prefix_rfl
      · exact List.prefix_append _ _
  · obtain ⟨m, hm, hle, he⟩ := exists_received h hC hC' n
    exact (prefix_sentBytes hm).trans (he ▸ prefix_receivedBytes hle)

end

/-- A byte is started on the first cycle. -/
def singleByte (n : ℕ) : SerialIn := ⟨n == 0, 0x55⟩

theorem isRun_singleByte :
    (serialLink 32).IsRun ((serialLink 32).trace ⟨.reset, .reset⟩ singleByte) singleByte :=
  Circuit.isRun_trace rfl fun n hn => by
    obtain rfl : n = 0 := by simpa [singleByte] using hn
    rfl

/-- It is there after ten bit periods. -/
theorem received_singleByte :
    receivedBytes ((serialLink 32).trace ⟨.reset, .reset⟩ singleByte) 1 <+: [0x55] ∧
      [0x55] <+: receivedBytes ((serialLink 32).trace ⟨.reset, .reset⟩ singleByte) 321 :=
  received_of_isRun isRun_singleByte le_rfl (by decide) 1

end Rv32Soc
