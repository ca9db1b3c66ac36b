import Rv32Soc.Core.Peripherals
import Rv32Soc.Core.Serial

/-!
# The driver of the UART between a thread and interrupts

`poll_out` and `fifo_fill` of `uart_rv32_5stage.c`: a call reads `TX_STATUS`, and writes
`TX_DATA` when the transmitter is ready. The two are separate accesses, and the callback of
an interrupt may make calls of its own in between. A byte that is then written while the
frame of the callback's byte is on the line is dropped by `uart_tx`; every other byte that is
accepted is transmitted (`transmitted_iff`).
-/

namespace Rv32Soc

open UartTx

/-- A call for one byte. A `fifo_fill` of several takes the first. -/
inductive UartCall
  | pollOut (c : Byte)
  | fifoFill (c : Byte)
  deriving DecidableEq

/-- Where a call stands: `poll_out` has found the transmitter busy, or a call has found it ready. -/
inductive UartPc
  | none
  | polling (c : Byte)
  | writing (c : Byte)
  deriving DecidableEq

/-- The byte of a call. -/
def UartPc.byte : UartPc → Byte
  | none => 0
  | polling c => c
  | writing c => c

/-- A call after it has read `TX_STATUS`. -/
def UartCall.resume (ready : Bool) : UartCall → UartPc
  | pollOut c => if ready then .writing c else .polling c
  | fifoFill c => if ready then .writing c else .none

/-- `cfg->base`, and the two registers. -/
def uartBase : Word := 0x40001000
def UART_RV32_5STAGE_TX_DATA : Word := 0x0
def UART_RV32_5STAGE_TX_STATUS : Word := 0x4

/-- What happens on a cycle: a call of the thread or of the interrupt's callback reads `TX_STATUS`,
    or writes `TX_DATA`, or there is an access of another kind, or none. -/
inductive UartEvent
  | check (isr : Bool) (call : UartCall)
  | write (isr : Bool)
  | other (dReq : Bool) (req : MmioReq)

/-- The event, and what `uart_rx` delivers. -/
structure UartIn where
  event : UartEvent
  rxValid : Bool
  rxByte : Byte

/-- The device, the calls in progress, and whether there has been an access on the cycle before. -/
structure UartDriver where
  mmio : UartMmio
  shifter : UartTx
  thread : UartPc
  isr : UartPc
  recent : Bool

namespace UartDriver

variable (C : ℕ) (s : UartDriver) (x : UartIn)

def call (isr : Bool) : UartPc := if isr then s.isr else s.thread

/-- What the device sees. -/
def request : UartEvent → Bool × MmioReq
  | .check _ _ => (true, ⟨false, uartBase + UART_RV32_5STAGE_TX_STATUS, 0⟩)
  | .write isr => (true, ⟨true, uartBase + UART_RV32_5STAGE_TX_DATA, (s.call isr).byte.setWidth 32⟩)
  | .other dReq req => (dReq, req)

/-- `TX_STATUS & TX_READY_BIT` -/
def ready : Bool :=
  (s.mmio.response ⟨false, uartBase + UART_RV32_5STAGE_TX_STATUS, 0⟩ s.shifter.txReady).getLsbD 0

/-- The call of the thread, or of the callback, goes on. -/
def setCall (isr : Bool) (pc : UartPc) : UartDriver :=
  if isr then { s with isr := pc } else { s with thread := pc }

def next : UartDriver :=
  let s' := match x.event with
    | .check isr call => s.setCall isr (call.resume s.ready)
    | .write isr => s.setCall isr .none
    | .other _ _ => s
  { s' with
    mmio := s.mmio.next (s.request x.event).2 (s.request x.event).1 s.shifter.txReady x.rxValid x.rxByte
    shifter := s.shifter.next C s.mmio.txStart s.mmio.txData
    recent := match x.event with
      | .other _ _ => false
      | _ => true }

/-- The thread is stopped while the callback makes a call, and there are two cycles from access to
    access. Nobody else writes `TX_DATA`. -/
def Admits : UartEvent → Prop
  | .check true call => s.recent = false ∧ s.isr = .none ∧ ∃ c, call = .fifoFill c
  | .check false call =>
    s.recent = false ∧ s.isr = .none ∧ (s.thread = .none ∨ ∃ c, s.thread = .polling c ∧
      call = .pollOut c)
  | .write true => s.recent = false ∧ ∃ c, s.isr = .writing c
  | .write false => s.recent = false ∧ s.isr = .none ∧ ∃ c, s.thread = .writing c
  | .other dReq req =>
    (UartMmio.selects dReq req && req.we && req.addr.extractLsb' 0 12 == 0#12) = false

/-- Out of reset. -/
structure IsReset (s : UartDriver) : Prop where
  mmio : s.mmio = ⟨false, 0, false, 0, 0, false, true, false⟩
  shifter : s.shifter = .reset
  thread : s.thread = .none
  isr : s.isr = .none
  recent : s.recent = false

end UartDriver

/-- The driver over its device, with `C` cycles for a bit. -/
def uartDriver (C : ℕ) : Circuit UartDriver UartIn where
  init := {s | s.IsReset}
  admits s x := s.Admits x.event
  next s x := s.next C x

namespace UartDriver

/-- The bytes that have been accepted before the cycle `n`: a call that writes its byte returns. -/
def accepted (σ : ℕ → UartDriver) (ι : ℕ → UartIn) : ℕ → List Byte
  | 0 => []
  | n + 1 => accepted σ ι n ++ match (ι n).event with
    | .write isr => [((σ n).call isr).byte]
    | _ => []

/-- The bytes whose frames are over before the cycle `n`. -/
def transmitted (C : ℕ) (σ : ℕ → UartDriver) : ℕ → List Byte
  | 0 => []
  | n + 1 => transmitted C σ n ++ if (σ n).shifter.ends C then [(σ n).shifter.savedData] else []

variable {C : ℕ} {s : UartDriver} {x : UartIn} {σ : ℕ → UartDriver} {ι : ℕ → UartIn}
  {n w : ℕ} {b c : Byte}

/-- `TX_READY_BIT` is `tx_ready`. -/
theorem ready_eq : s.ready = s.shifter.txReady := by
  have haddr : ((uartBase + UART_RV32_5STAGE_TX_STATUS).extractLsb' 0 12).toNat = 0x004 := by decide
  rw [ready, UartMmio.response, if_neg Bool.false_ne_true]
  simp only [UartMmio.readData, haddr]
  cases s.shifter.txReady <;> rfl

/-- `tx_start` is pulsed for a write, and for nothing else. -/
theorem txStart_next (ha : s.Admits x.event) :
    (s.next C x).mmio.txStart = (match x.event with
      | .write _ => true
      | _ => false) ∧
      ∀ isr, x.event = .write isr → (s.next C x).mmio.txData = (s.call isr).byte := by
  have hsel : UartMmio.selects true ⟨true, uartBase + UART_RV32_5STAGE_TX_DATA, 0⟩ = true := by decide
  have haddr : (uartBase + UART_RV32_5STAGE_TX_DATA).extractLsb' 0 12 = 0#12 := by decide
  rw [UartDriver.next]
  cases he : x.event with
  | check isr call => simp [UartMmio.next, request]
  | write isr =>
    have hsel' : UartMmio.selects true (s.request (.write isr)).2 = true := hsel
    refine ⟨?_, fun isr' h => ?_⟩
    · simp only [UartMmio.next, request] at hsel' ⊢
      simp [hsel', haddr]
    · obtain rfl : isr = isr' := by simpa using h
      simp only [UartMmio.next, request] at hsel' ⊢
      simp only [hsel', haddr, Bool.true_and, beq_self_eq_true, if_true]
      refine BitVec.eq_of_getLsbD_eq fun i hi => ?_
      simp [hi, show i < 32 by omega]
  | other dReq req =>
    rw [he] at ha
    exact ⟨ha, nofun⟩

theorem next_shifter : (s.next C x).shifter = s.shifter.next C s.mmio.txStart s.mmio.txData := rfl

theorem idle_next (h : s.shifter.state = .idle) (hs : s.mmio.txStart = false) :
    (s.next C x).shifter.state = .idle := by
  rw [next_shifter, hs]
  simp [UartTx.next, h]

/-- A byte that is written while the shifter is idle goes out. -/
theorem sendingFor_next (h : s.shifter.state = .idle) (hs : s.mmio.txStart = true) (hC : 1 ≤ C) :
    SendingFor C s.mmio.txData (10 * C) (s.next C x).shifter := by
  rw [next_shifter, hs]
  exact sendingFor_of_start h hC

/-! ## What a call knows -/

/-- Nothing is on its way out. -/
def Quiet (s : UartDriver) : Prop := s.shifter.state = .idle ∧ s.mmio.txStart = false

/-- What holds on every cycle of a run: the transmitter is ready only when it is idle, a byte is on
    its way to it only after an access, and the callback writes only while nothing is. -/
structure Facts (s : UartDriver) : Prop where
  ready : s.shifter.txReady → s.shifter.state = .idle
  recent : s.mmio.txStart → s.recent
  isr : ∀ c, s.isr = .writing c → s.Quiet

theorem Quiet.next (h : s.Quiet) (ha : s.Admits x.event) (he : ∀ isr, x.event ≠ .write isr) :
    (s.next C x).Quiet := by
  refine ⟨idle_next h.1 h.2, ?_⟩
  rw [(txStart_next ha).1]
  cases hx : x.event with
  | write isr => exact absurd hx (he isr)
  | check isr call => rfl
  | other dReq req => rfl

/-- A call that finds the transmitter ready is right. -/
theorem Facts.quiet (h : s.Facts) (hr : s.recent = false) (hready : s.ready = true) : s.Quiet :=
  ⟨h.ready (ready_eq ▸ hready), by
    by_contra hs
    exact absurd (hr.symm.trans (h.recent (Bool.eq_true_of_not_eq_false hs))) nofun⟩

theorem ready_next (h : s.shifter.txReady → s.shifter.state = .idle) :
    (s.next C x).shifter.txReady → (s.next C x).shifter.state = .idle := by
  rw [next_shifter]
  intro hready
  cases hst : s.shifter.state with
  | idle =>
    simp only [UartTx.next, hst] at hready ⊢
    simp only [Bool.not_eq_true'] at hready
    simp [hready]
  | start | data | stop =>
    simp only [UartTx.next, hst] at hready
    exact absurd (hst.symm.trans (h hready)) (by simp)

theorem Facts.next (h : s.Facts) (ha : s.Admits x.event) : (s.next C x).Facts := by
  refine ⟨ready_next h.ready, fun hs => ?_, fun c hc => ?_⟩
  · rw [(txStart_next ha).1] at hs
    cases hx : x.event with
    | write isr => simp [UartDriver.next, hx]
    | check isr call => simp [UartDriver.next, hx]
    | other dReq req => simp [hx] at hs
  · cases hx : x.event with
    | check isr call =>
      have hno : ∀ isr, x.event ≠ .write isr := fun isr => by rw [hx]; nofun
      cases isr with
      | false =>
        have hisr : (s.next C x).isr = s.isr := by simp [UartDriver.next, hx, setCall]
        exact (h.isr c (hisr ▸ hc)).next ha hno
      | true =>
        -- A callback that has seen the transmitter ready may write, and nothing else may.
        have hisr : (s.next C x).isr = call.resume s.ready := by simp [UartDriver.next, hx, setCall]
        rw [hisr] at hc
        have hready : s.ready = true := by
          by_contra hr
          rw [Bool.eq_false_iff.2 hr] at hc
          cases call <;> exact absurd hc nofun
        have hax := ha
        rw [hx] at hax
        exact (h.quiet hax.1 hready).next ha hno
    | write isr =>
      -- After a write the context that made it has no call left.
      have hax := ha
      rw [hx] at hax
      cases isr with
      | true =>
        have hisr : (s.next C x).isr = .none := by simp [UartDriver.next, hx, setCall]
        exact absurd (hisr.symm.trans hc) nofun
      | false =>
        have hisr : (s.next C x).isr = s.isr := by simp [UartDriver.next, hx, setCall]
        exact absurd ((hisr.trans hax.2.1).symm.trans hc) nofun
    | other dReq req =>
      have hisr : (s.next C x).isr = s.isr := by simp [UartDriver.next, hx]
      exact (h.isr c (hisr ▸ hc)).next ha fun isr => by rw [hx]; nofun

/-! ## Runs -/

/-- The last write before the cycle `n` is on the cycle `w`. -/
structure LastWrite (ι : ℕ → UartIn) (w n : ℕ) : Prop where
  lt : w < n
  write : ∃ isr, (ι w).event = .write isr
  last : ∀ k, w < k → k < n → ∀ isr, (ι k).event ≠ .write isr

theorem LastWrite.unique {w' : ℕ} (h : LastWrite ι w n) (h' : LastWrite ι w' n) : w = w' := by
  rcases Nat.lt_trichotomy w w' with hlt | he | hlt
  · obtain ⟨isr, he⟩ := h'.write
    exact absurd he (h.last w' hlt h'.lt isr)
  · exact he
  · obtain ⟨isr, he⟩ := h.write
    exact absurd he (h'.last w hlt h.lt isr)

theorem LastWrite.le {w' : ℕ} (h : LastWrite ι w n) (h' : w' < n) {isr : Bool}
    (he : (ι w').event = .write isr) :
    w' ≤ w := by
  by_contra hlt
  exact h.last w' (by omega) h' isr he

theorem LastWrite.succ (h : LastWrite ι w n) (hn : ∀ isr, (ι n).event ≠ .write isr) :
    LastWrite ι w (n + 1) := by
  refine ⟨h.lt.trans n.lt_succ_self, h.write, fun k h₁ h₂ => ?_⟩
  rcases (Nat.le_of_lt_succ h₂).eq_or_lt with rfl | hlt
  · exact hn
  · exact h.last k h₁ hlt

theorem lastWrite_self {isr : Bool} (he : (ι n).event = .write isr) : LastWrite ι n (n + 1) :=
  ⟨n.lt_succ_self, ⟨isr, he⟩, fun k h₁ h₂ => by omega⟩

theorem exists_lastWrite {isr : Bool} (he : (ι w).event = .write isr) (hlt : w < n) :
    ∃ w' ≥ w, LastWrite ι w' n := by
  induction n, hlt using Nat.le_induction with
  | base => exact ⟨w, le_rfl, lastWrite_self he⟩
  | succ n hn ih =>
    by_cases hx : ∃ isr, (ι n).event = .write isr
    · obtain ⟨isr, hx⟩ := hx
      exact ⟨n, Nat.le_of_succ_le hn, lastWrite_self hx⟩
    · obtain ⟨w', hle, hw'⟩ := ih
      exact ⟨w', hle, hw'.succ fun isr hx' => hx ⟨isr, hx'⟩⟩

/-- What has been accepted since. -/
theorem LastWrite.accepted (h : LastWrite ι w n) : ∃ c, accepted σ ι n = accepted σ ι w ++ [c] := by
  obtain ⟨hlt, ⟨isr, he⟩, hlast⟩ := h
  refine ⟨((σ w).call isr).byte, ?_⟩
  induction n, hlt using Nat.le_induction with
  | base => rw [UartDriver.accepted, he]
  | succ n hn ih =>
    have hne := hlast n hn n.lt_succ_self
    rw [UartDriver.accepted, ih fun k h₁ h₂ => hlast k h₁ (h₂.trans n.lt_succ_self)]
    cases hx : (ι n).event with
    | write isr => exact absurd hx (hne isr)
    | check | other => simp

theorem prefix_accepted {m : ℕ} (h : n ≤ m) : accepted σ ι n <+: accepted σ ι m := by
  induction m, h using Nat.le_induction with
  | base => exact List.prefix_rfl
  | succ m _ ih => exact ih.trans (List.prefix_append _ _)

theorem prefix_transmitted {m : ℕ} (h : n ≤ m) : transmitted C σ n <+: transmitted C σ m := by
  induction m, h using Nat.le_induction with
  | base => exact List.prefix_rfl
  | succ m _ ih => exact ih.trans (List.prefix_append _ _)

/-- Nothing has been lost so far: all is transmitted, or all but the last byte, which is on its way. -/
inductive Shifting (C : ℕ) (σ : ℕ → UartDriver) (ι : ℕ → UartIn) (n : ℕ) : Prop
  | rest (hq : (σ n).Quiet) (he : transmitted C σ n = accepted σ ι n)
      (hw : ∀ w < n, ∀ isr, (ι w).event = .write isr → w + 2 + 10 * C ≤ n)
  | starting {w : ℕ} {l : List Byte} (hs : (σ n).shifter.state = .idle) (ht : (σ n).mmio.txStart = true)
      (ha : accepted σ ι n = l ++ [(σ n).mmio.txData]) (he : transmitted C σ n = l) (hn : n = w + 1)
      (hw : LastWrite ι w n)
  | frame {w k : ℕ} {l : List Byte} {b : Byte} (hs : SendingFor C b k (σ n).shifter)
      (ht : (σ n).mmio.txStart = false)
      (ha : accepted σ ι n = l ++ [b]) (he : transmitted C σ n = l) (hn : n + k = w + 2 + 10 * C)
      (hw : LastWrite ι w n)

/-- A run without a loss: what is transmitted is accepted, and what is accepted is transmitted after
    a frame. -/
theorem transmitted_of_shifting (hs : ∀ n, Shifting C σ ι n) (n : ℕ) :
    transmitted C σ n <+: accepted σ ι n ∧ accepted σ ι n <+: transmitted C σ (n + 10 * C + 1) := by
  constructor
  · cases hs n with
    | rest _ he => exact he ▸ List.prefix_rfl
    | starting _ _ ha he | frame _ _ ha he => exact he ▸ ha ▸ List.prefix_append _ _
  · -- what was accepted before the last write has been transmitted
    have hbefore : ∀ {w l b}, LastWrite ι w (n + 10 * C + 1) →
      accepted σ ι (n + 10 * C + 1) = l ++ [b] → n ≤ w →
        accepted σ ι n <+: l := fun {w l b} hw ha hle => by
      obtain ⟨c, hc⟩ := hw.accepted (σ := σ)
      have hl : accepted σ ι w = l := (List.append_inj' (hc.symm.trans ha) rfl).1
      exact hl ▸ prefix_accepted hle
    cases hs (n + 10 * C + 1) with
    | rest _ he => exact he ▸ prefix_accepted (by omega)
    | starting _ _ ha he hn hw => exact he ▸ hbefore hw ha (by omega)
    | frame hs _ ha he hn hw =>
      have := hs.pos
      exact he ▸ hbefore hw ha (by omega)

section

variable (h : (uartDriver C).IsRun σ ι)

include h

theorem facts_of_isRun (n : ℕ) : (σ n).Facts := by
  induction n with
  | zero =>
    have hr : (σ 0).IsReset := h.init
    refine ⟨fun _ => by rw [hr.shifter]; rfl, fun hs => ?_, fun c hc =>
      absurd (hr.isr.symm.trans hc) nofun⟩
    rw [hr.mmio] at hs
    exact absurd hs nofun
  | succ n ih => exact h.next n ▸ ih.next (h.admits n)

theorem sendingFor_succ {k : ℕ} (hC' : C ≤ 65536) (hs : SendingFor C b (k + 2) (σ n).shifter) :
    SendingFor C b (k + 1) (σ (n + 1)).shifter := by
  rw [h.next n]
  exact hs.next hC'

/-- A thread that is about to write has seen the transmitter ready, and only the callback may have
    written since. -/
theorem quiet_or_lastWrite (n : ℕ) (ht : (σ n).thread = .writing c) :
    (σ n).Quiet ∨ ∃ w, LastWrite ι w n ∧ (ι w).event = .write true ∧ (σ w).thread = .writing c := by
  induction n with
  | zero =>
    have hr : (σ 0).IsReset := h.init
    exact absurd (hr.thread.symm.trans ht) nofun
  | succ n ih =>
    have ha := h.admits n
    have hn := h.next n
    have hf := facts_of_isRun h n
    rw [hn] at ht ⊢
    cases hx : (ι n).event with
    | check isr call =>
      have hno : ∀ isr, (ι n).event ≠ .write isr := fun isr => by rw [hx]; nofun
      cases isr with
      | true =>
        have hsame : ((uartDriver C).next (σ n) (ι n)).thread = (σ n).thread := by
          simp [uartDriver, UartDriver.next, hx, setCall]
        exact (ih (hsame ▸ ht)).imp (fun hq => hq.next ha hno) fun ⟨w, hw, he⟩ => ⟨w, hw.succ hno, he⟩
      | false =>
        -- The thread looks at the status now, so the transmitter is quiet.
        have hpc : ((uartDriver C).next (σ n) (ι n)).thread = call.resume (σ n).ready := by
          simp [uartDriver, UartDriver.next, hx, setCall]
        rw [hpc] at ht
        have hready : (σ n).ready = true := by
          by_contra hr
          rw [Bool.eq_false_iff.2 hr] at ht
          cases call <;> exact absurd ht nofun
        have hax := ha
        simp only [uartDriver, hx, Admits] at hax
        exact .inl ((hf.quiet hax.1 hready).next ha hno)
    | write isr =>
      cases isr with
      | true =>
        -- The callback writes between the look and the write of the thread.
        have hsame : ((uartDriver C).next (σ n) (ι n)).thread = (σ n).thread := by
          simp [uartDriver, UartDriver.next, hx, setCall]
        exact .inr ⟨n, lastWrite_self hx, hx, hsame ▸ ht⟩
      | false =>
        have hnone : ((uartDriver C).next (σ n) (ι n)).thread = .none := by
          simp [uartDriver, UartDriver.next, hx, setCall]
        exact absurd (hnone.symm.trans ht) nofun
    | other dReq req =>
      have hno : ∀ isr, (ι n).event ≠ .write isr := fun isr => by rw [hx]; nofun
      have hsame : ((uartDriver C).next (σ n) (ι n)).thread = (σ n).thread := by
        simp [uartDriver, UartDriver.next, hx]
      exact (ih (hsame ▸ ht)).imp (fun hq => hq.next ha hno) fun ⟨w, hw, he⟩ => ⟨w, hw.succ hno, he⟩

theorem accepted_of_write {isr : Bool} (he : (ι n).event = .write isr) :
    accepted σ ι (n + 1) = accepted σ ι n ++ [(σ (n + 1)).mmio.txData] ∧
    (σ (n + 1)).mmio.txStart = true := by
  obtain ⟨hs, hd⟩ := txStart_next (C := C) (h.admits n)
  rw [he] at hs
  rw [accepted, h.next n]
  refine ⟨?_, hs⟩
  change _ ++ (match (ι n).event with
    | .write isr => [((σ n).call isr).byte]
    | _ => []) = _ ++ [((σ n).next C (ι n)).mmio.txData]
  rw [hd isr he, he]

theorem accepted_of_forall_ne (hne : ∀ isr, (ι n).event ≠ .write isr) :
    accepted σ ι (n + 1) = accepted σ ι n ∧ (σ (n + 1)).mmio.txStart = false := by
  obtain ⟨hs, -⟩ := txStart_next (C := C) (h.admits n)
  rw [accepted, h.next n]
  cases hx : (ι n).event with
  | write isr => exact absurd hx (hne isr)
  | check | other =>
    rw [hx] at hs
    exact ⟨by simp, hs⟩

/-- One cycle, if what is written can go out. -/
theorem Shifting.next (hC : 1 ≤ C) (hC' : C ≤ 65536) (hs : Shifting C σ ι n)
    (hfree : ∀ isr, (ι n).event = .write isr → (σ n).Quiet ∨ ∃ b, SendingFor C b 1 (σ n).shifter) :
    Shifting C σ ι (n + 1) := by
  have hnext : (σ (n + 1)).shifter = (σ n).shifter.next C (σ n).mmio.txStart (σ n).mmio.txData := by
    rw [h.next n]
    rfl
  have hidle : (σ n).shifter.state = .idle → transmitted C σ (n + 1) = transmitted C σ n := fun hi => by
    have hends : ¬(σ n).shifter.ends C := by simp [UartTx.ends, hi]
    rw [transmitted, if_neg hends, List.append_nil]
  by_cases hw : ∃ isr, (ι n).event = .write isr
  · obtain ⟨isr, he⟩ := hw
    obtain ⟨hacc, hstart⟩ := accepted_of_write h he
    have hlast := lastWrite_self he
    cases hs with
    | rest hq heq hold =>
      have hi : (σ (n + 1)).shifter.state = .idle := h.next n ▸ idle_next hq.1 hq.2
      exact .starting hi hstart hacc ((hidle hq.1).trans heq) rfl hlast
    | starting hs ht ha heq hn hw =>
      rcases hfree isr he with hq | ⟨b, hb⟩
      · exact absurd (ht.symm.trans hq.2) (by simp)
      · exact absurd hs hb.busy.1
    | frame hs ht ha heq hn hw =>
      rcases hfree isr he with hq | ⟨b, hb⟩
      · exact absurd hq.1 hs.busy.1
      -- the last cycle of the frame
      obtain rfl := hs.ends_iff.1 (hb.ends_iff.2 rfl)
      have hi : (σ (n + 1)).shifter.state = .idle := hnext ▸ hs.last
      refine .starting hi hstart hacc ?_ rfl hlast
      rw [transmitted, if_pos (hs.ends_iff.2 rfl), hs.busy.2.1, heq, ha]
  · have hne : ∀ isr, (ι n).event ≠ .write isr := fun isr he => hw ⟨isr, he⟩
    obtain ⟨hacc, hstart⟩ := accepted_of_forall_ne h hne
    cases hs with
    | rest hq heq hold =>
      have hq' : (σ (n + 1)).Quiet := h.next n ▸ hq.next (h.admits n) hne
      refine .rest hq' ?_ fun w hw isr he => ?_
      · rw [hacc, hidle hq.1, heq]
      · rcases (Nat.le_of_lt_succ hw).eq_or_lt with rfl | hlt
        · exact absurd he (hne isr)
        · exact (hold w hlt isr he).trans n.le_succ
    | starting hs ht ha heq hn hw =>
      have hsend : SendingFor C (σ n).mmio.txData (10 * C) (σ (n + 1)).shifter :=
        h.next n ▸ sendingFor_next hs ht hC
      exact .frame hsend hstart (hacc.trans ha) ((hidle hs).trans heq) (by omega) (hw.succ hne)
    | @frame w k l b hs ht ha heq hn hw =>
      obtain _ | _ | k := k
      · exact absurd hs.pos (lt_irrefl 0)
      · refine .rest ⟨hnext ▸ hs.last, hstart⟩ ?_ fun w' hw' isr he => ?_
        · rw [transmitted, if_pos (hs.ends_iff.2 rfl), hs.busy.2.1, heq, hacc, ha]
        · have := (hw.succ hne).le hw' he
          omega
      · refine .frame (sendingFor_succ h hC' hs) hstart (hacc.trans ha) ?_ (by omega) (hw.succ hne)
        rw [transmitted, if_neg (mt hs.ends_iff.1 (by omega)), List.append_nil, heq]

/-- What is written in the window of a thread's call finds the shifter idle again. -/
def Spaced (C : ℕ) (σ : ℕ → UartDriver) (ι : ℕ → UartIn) (n : ℕ) : Prop :=
  ∀ w b, w < b → b < n → (ι w).event = .write true → (∃ c, (σ w).thread = .writing c) →
  (ι b).event = .write false →
    (∀ k, w < k → k < b → (ι k).event ≠ .write false) → w + 10 * C < b

theorem shifting_of_spaced (hC : 1 ≤ C) (hC' : C ≤ 65536) (n : ℕ) (hsp : Spaced C σ ι n) :
    Shifting C σ ι n := by
  induction n with
  | zero =>
    have hr : (σ 0).IsReset := h.init
    refine .rest ⟨?_, ?_⟩ rfl fun w hw => absurd hw (Nat.not_lt_zero w)
    · rw [hr.shifter]
      rfl
    · rw [hr.mmio]
  | succ n ih =>
    have hs := ih fun w b h₁ h₂ => hsp w b h₁ (h₂.trans n.lt_succ_self)
    refine hs.next h hC hC' fun isr he => ?_
    have ha := h.admits n
    simp only [uartDriver, he] at ha
    cases isr with
    | true =>
      -- A write of the callback follows its own look at the status.
      obtain ⟨-, c, hc⟩ := ha
      exact .inl ((facts_of_isRun h n).isr c hc)
    | false =>
      obtain ⟨-, -, c, hc⟩ := ha
      -- A write of the thread may follow one of the callback, which `hsp` keeps away far enough.
      rcases quiet_or_lastWrite h n hc with hq | ⟨w, hw, hwe, hwc⟩
      · exact .inl hq
      have hfar := hsp w n hw.lt n.lt_succ_self hwe ⟨c, hwc⟩ he fun k h₁ h₂ => hw.last k h₁ h₂ false
      cases hs with
      | rest hq => exact .inl hq
      | starting _ _ _ _ hn hw' =>
        obtain rfl := hw.unique hw'
        omega
      | @frame w' k l b hs _ _ _ hn hw' =>
        have hpos := hs.pos
        have hww := hw.unique hw'
        obtain rfl : k = 1 := by omega
        exact .inr ⟨b, hs⟩

/-- No frame ends on the next `r` cycles. -/
theorem transmitted_add (hC : 1 ≤ C) (hC' : C ≤ 65536) {r : ℕ} (hr : r ≤ 10 * C)
    (hs : (σ n).shifter.state = .idle ∨ ∃ b k, r < k ∧ SendingFor C b k (σ n).shifter) :
    transmitted C σ (n + r) = transmitted C σ n := by
  induction r generalizing n with
  | zero => rfl
  | succ r ih =>
    have hends : ¬(σ n).shifter.ends C := by
      rcases hs with hi | ⟨b, k, hk, hb⟩
      · simp [UartTx.ends, hi]
      · exact mt hb.ends_iff.1 (by omega)
    have hlater : (σ (n + 1)).shifter.state = .idle ∨ ∃ b k, r < k ∧
        SendingFor C b k (σ (n + 1)).shifter := by
      rcases hs with hi | ⟨b, k, hk, hb⟩
      · cases ht : (σ n).mmio.txStart with
        | false => exact .inl (h.next n ▸ idle_next hi ht)
        | true =>
          rw [h.next n]
          exact .inr ⟨_, 10 * C, by omega, sendingFor_next hi ht hC⟩
      · obtain ⟨k, rfl⟩ : ∃ k', k = k' + 2 := ⟨k - 2, by omega⟩
        exact .inr ⟨b, k + 1, by omega, sendingFor_succ h hC' hb⟩
    rw [show n + (r + 1) = n + 1 + r by omega, ih (by omega) hlater, transmitted,
      if_neg hends, List.append_nil]

/-- One frame ends when it is over. -/
theorem transmitted_frame {k : ℕ} (hC : 1 ≤ C) (hC' : C ≤ 65536)
    (hs : SendingFor C b (k + 1) (σ n).shifter) (hk : k ≤ 10 * C) :
    transmitted C σ (n + k + 1) = transmitted C σ n ++ [b] ∧
      (σ (n + k + 1)).shifter.state = .idle := by
  have hrun : ∀ j ≤ k, SendingFor C b (k - j + 1) (σ (n + j)).shifter := fun j hj => by
    induction j with
    | zero => exact hs
    | succ j ih =>
      have hj := ih (by omega)
      rw [show k - j + 1 = k - (j + 1) + 2 by omega] at hj
      exact sendingFor_succ h hC' hj
  have hlast := hrun k le_rfl
  rw [Nat.sub_self] at hlast
  refine ⟨?_, ?_⟩
  · rw [transmitted, if_pos (hlast.ends_iff.2 rfl), hlast.busy.2.1,
      transmitted_add h hC hC' hk (.inr ⟨b, k + 1, by omega, hs⟩)]
  · rw [h.next (n + k)]
    exact hlast.last

/-- The second of two bytes that are written within a frame of each other is lost. -/
theorem not_prefix_of_write (hC : 1 ≤ C) (hC' : C ≤ 65536) (hs : Shifting C σ ι n)
    (he : (ι n).event = .write false) (hw : LastWrite ι w n) (hnear : n ≤ w + 10 * C) :
    ¬accepted σ ι (n + 1) <+: transmitted C σ (n + 1 + 10 * C + 1) := by
  obtain ⟨hacc, hstart⟩ := accepted_of_write h he
  have ha := h.admits n
  simp only [uartDriver, he] at ha
  cases hs with
  | rest _ _ hold =>
    obtain ⟨isr, hwe⟩ := hw.write
    have := hold w hw.lt isr hwe
    omega
  | starting _ ht => exact absurd (ha.1.symm.trans ((facts_of_isRun h n).recent ht)) nofun
  | @frame w' k l b hs _ ha' heq hn hw' =>
    have hww := hw.unique hw'
    obtain ⟨k, rfl⟩ : ∃ j, k = j + 2 := ⟨k - 2, by omega⟩
    -- the frame that is on the line is over in time, but no other
    obtain ⟨htr, hi⟩ := transmitted_frame h hC hC' hs (by have := hw.lt; omega)
    have hstay := transmitted_add h hC hC' (r := 10 * C - k) (by omega) (.inl hi)
    rw [show n + (k + 1) + 1 + (10 * C - k) = n + 1 + 10 * C + 1 by have := hw.lt; omega] at hstay
    intro hpre
    have hlen := hpre.length_le
    rw [hstay, htr, hacc, ha', heq] at hlen
    simp at hlen

end

/-- Every byte that a call has accepted is transmitted once, in order and within a frame, exactly if
    what is written in the window of a thread's call is over by its write. -/
theorem transmitted_iff (h : (uartDriver C).IsRun σ ι) (hC : 1 ≤ C) (hC' : C ≤ 65536) :
    (∀ n, transmitted C σ n <+: accepted σ ι n ∧
      accepted σ ι n <+: transmitted C σ (n + 10 * C + 1)) ↔
      ∀ w b, w < b → (ι w).event = .write true → (∃ c, (σ w).thread = .writing c) →
        (ι b).event = .write false →
        (∀ k, w < k → k < b → (ι k).event ≠ .write false) → w + 10 * C < b := by
  constructor
  · intro hall w b
    -- the first loss
    induction b using Nat.strong_induction_on generalizing w with
    | _ b ih =>
      intro hwb hwe hwc hbe hbetween
      by_contra hnear
      have hs := shifting_of_spaced h hC hC' b fun w' b' h₁ h₂ => ih b' h₂ w' h₁
      obtain ⟨w', hle, hw'⟩ := exists_lastWrite hwe hwb
      exact not_prefix_of_write h hC hC' hs hbe hw' (by omega) (hall (b + 1)).2
  · intro hsp
    exact transmitted_of_shifting fun n => shifting_of_spaced h hC hC' n fun w b hwb _ => hsp w b hwb

/-- When no call writes any more, the frame that is on the line is the last. -/
theorem transmitted_of_forall_ne (h : (uartDriver C).IsRun σ ι) (hC : 1 ≤ C) (hC' : C ≤ 65536) {k m : ℕ}
    (hs : SendingFor C b (k + 1) (σ n).shifter) (hk : k ≤ 10 * C) (ht : (σ n).mmio.txStart = false)
    (hne : ∀ j ≥ n, ∀ isr, (ι j).event ≠ .write isr) :
      transmitted C σ m <+: transmitted C σ n ++ [b] := by
  obtain ⟨htr, hi⟩ := transmitted_frame h hC hC' hs hk
  have hstart : ∀ j ≥ n, (σ j).mmio.txStart = false := fun j hj => by
    obtain rfl | ⟨j, rfl⟩ : j = n ∨ ∃ i, j = i + 1 := by
      rcases hj.eq_or_lt with rfl | hlt
      · exact .inl rfl
      · exact .inr ⟨j - 1, by omega⟩
    · exact ht
    · by_cases hjn : n ≤ j
      · exact (accepted_of_forall_ne h (hne j hjn)).2
      · obtain rfl : n = j + 1 := by omega
        exact ht
  -- from then on nothing happens
  have hrest : ∀ m ≥ n + k + 1, (σ m).shifter.state = .idle ∧
      transmitted C σ m = transmitted C σ n ++ [b] := by
    intro m hm
    induction m, hm using Nat.le_induction with
    | base => exact ⟨hi, htr⟩
    | succ m hm ih =>
      refine ⟨h.next m ▸ idle_next ih.1 (hstart m (by omega)), ?_⟩
      have hends : ¬(σ m).shifter.ends C := by simp [UartTx.ends, ih.1]
      rw [transmitted, if_neg hends, List.append_nil, ih.2]
  rcases Nat.le_total m (n + k + 1) with hm | hm
  · exact htr ▸ prefix_transmitted hm
  · exact (hrest m hm).2 ▸ List.prefix_rfl

/-- A thread calls `poll_out`, and writes six cycles later. A callback may come in between with a
    `fifo_fill`. -/
def pollOutAt (preempted : Bool) (n : ℕ) : UartIn :=
  ⟨match n with
    | 0 => .check false (.pollOut 0x41)
    | 2 => if preempted then .check true (.fifoFill 0x42) else .other false ⟨false, 0, 0⟩
    | 4 => if preempted then .write true else .other false ⟨false, 0, 0⟩
    | 6 => .write false
    | _ => .other false ⟨false, 0, 0⟩, false, 0⟩

def resetUart : UartDriver := ⟨⟨false, 0, false, 0, 0, false, true, false⟩, .reset, .none, .none, false⟩

theorem isRun_pollOutAt (preempted : Bool) :
    (uartDriver 520).IsRun ((uartDriver 520).trace resetUart (pollOutAt preempted))
      (pollOutAt preempted) := by
  refine Circuit.isRun_trace ⟨rfl, rfl, rfl, rfl, rfl⟩ fun n => ?_
  cases preempted with
  | false =>
    rcases n with _ | _ | _ | _ | _ | _ | _ | n
    · exact ⟨rfl, rfl, .inl rfl⟩
    · rfl
    · rfl
    · rfl
    · rfl
    · rfl
    · exact ⟨by decide +kernel, by decide +kernel, 0x41, by decide +kernel⟩
    · rfl
  | true =>
    rcases n with _ | _ | _ | _ | _ | _ | _ | n
    · exact ⟨rfl, rfl, .inl rfl⟩
    · rfl
    · exact ⟨by decide +kernel, by decide +kernel, 0x42, rfl⟩
    · rfl
    · exact ⟨by decide +kernel, 0x42, by decide +kernel⟩
    · rfl
    · exact ⟨by decide +kernel, by decide +kernel, 0x41, by decide +kernel⟩
    · rfl

theorem write_pollOutAt {preempted isr : Bool} (he : (pollOutAt preempted n).event = .write isr) :
    isr = true ∧ n = 4 ∧ preempted = true ∨ isr = false ∧ n = 6 := by
  rcases n with _ | _ | _ | _ | _ | _ | _ | n <;> cases preempted <;> simp_all [pollOutAt]

/-- No callback comes in: the byte is transmitted. -/
theorem transmitted_pollOut :
    accepted ((uartDriver 520).trace resetUart (pollOutAt false)) (pollOutAt false) 7 = [0x41] ∧ ∀ n,
      transmitted 520 ((uartDriver 520).trace resetUart (pollOutAt false)) n <+:
          accepted ((uartDriver 520).trace resetUart (pollOutAt false)) (pollOutAt false) n ∧
        accepted ((uartDriver 520).trace resetUart (pollOutAt false)) (pollOutAt false) n <+:
          transmitted 520 ((uartDriver 520).trace resetUart (pollOutAt false)) (n + 10 * 520 + 1) := by
  refine ⟨by decide +kernel, ?_⟩
  exact (transmitted_iff (isRun_pollOutAt false) (by decide) (by decide)).2 fun w b _ hw _ _ _ => by
    rcases write_pollOutAt hw with ⟨-, -, h⟩ | ⟨h, -⟩ <;> exact absurd h nofun

/-- The callback of an interrupt sends a byte of its own in the window: `poll_out` returns, and its
    byte never goes out. -/
theorem lost_pollOut :
    (uartDriver 520).IsRun ((uartDriver 520).trace resetUart (pollOutAt true)) (pollOutAt true) ∧
      accepted ((uartDriver 520).trace resetUart (pollOutAt true)) (pollOutAt true) 7 = [0x42, 0x41] ∧
      ∀ m, transmitted 520 ((uartDriver 520).trace resetUart (pollOutAt true)) m <+: [0x42] := by
  have hrun := isRun_pollOutAt true
  refine ⟨hrun, by decide +kernel, fun m => ?_⟩
  -- the callback's frame is on the line when the thread writes
  have hs : SendingFor 520 0x42 (10 * 520) ((uartDriver 520).trace resetUart
      (pollOutAt true) 6).shifter := by
    have hdata : ((uartDriver 520).trace resetUart (pollOutAt true) 5).mmio.txData = 0x42 := by
      decide +kernel
    exact hdata ▸ sendingFor_next (x := pollOutAt true 5) (by decide +kernel)
      (by decide +kernel) (by decide)
  have hnil : transmitted 520 ((uartDriver 520).trace resetUart (pollOutAt true)) 8 = [] := by
    decide +kernel
  have hs' := sendingFor_succ hrun (by decide) (sendingFor_succ hrun (by decide) hs)
  have hlast := transmitted_of_forall_ne (m := m) hrun (by decide) (by decide) hs' (by decide)
    (by decide +kernel)
    fun j hj isr he => by
      rcases write_pollOutAt he with ⟨-, h, -⟩ | ⟨-, h⟩ <;> omega
  rwa [hnil] at hlast

end UartDriver

end Rv32Soc
