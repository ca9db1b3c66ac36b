import Mathlib.Algebra.BigOperators.Intervals
import Rv32Soc.Lib.Circuit
import Rv32Soc.Lib.Geometry

/-!
# The single-port path

What `axi_cache_adapter.v` serves: `accel_port_join.v` puts the read and the write port
of the accelerator on one port, with priority for the write, and `mem_arbiter.v` puts
that port and those of the caches on one memory port, in rotation. There is a single
`mem_ready`. It goes to the port that is granted, and stands for a line of a read, and
for the whole of a write.

* `MemArbiter.Regs`, `PortJoin.Regs`: the two modules;
* `PortJoin.orderly_of_isRun`: a completion goes to the channel granted only, a read is
  released by the pulse of its last line and a write by its first one, and the request is
  low in the cycle after that.
-/

namespace Rv32Soc

/-! ## The arbiter -/

namespace MemArbiter

/-- `SVC_D`, `SVC_I` and `SVC_A`, or `LAST_D`, `LAST_I` and `LAST_A`. -/
inductive Port
  | D
  | I
  | A
  deriving DecidableEq, Repr

/-- The registers of the arbiter. `IDLE` is `none`. -/
@[ext] structure Regs where
  state : Option Port
  savedReqWrite : Bool
  savedReqLines : BitVec 8
  lineCount : BitVec 8
  savedReqAddr : Word
  savedWline : Line
  lastGranted : Port

/-- The ports of the requesters. -/
structure Ports where
  icacheReqValid : Bool
  icacheReqAddr : Word
  dcacheReqValid : Bool
  dcacheReqWrite : Bool
  dcacheReqAddr : Word
  dcacheWline : Line
  accelReqValid : Bool
  accelReqWrite : Bool
  accelReqAddr : Word
  accelReqLines : BitVec 8
  accelWline : Line

namespace Ports

variable (i : Ports)

def reqWrite : Port → Bool
  | .D => i.dcacheReqWrite
  | .I => false
  | .A => i.accelReqWrite

def reqAddr : Port → Word
  | .D => i.dcacheReqAddr
  | .I => i.icacheReqAddr
  | .A => i.accelReqAddr

def reqLines : Port → BitVec 8
  | .D | .I => 1
  | .A => i.accelReqLines

def wline : Port → Line
  | .D => i.dcacheWline
  | .I => 0
  | .A => i.accelWline

end Ports

namespace Regs

variable (s : Regs) (i : Ports)

def grantD : Bool :=
  s.state.isNone && i.dcacheReqValid &&
    match s.lastGranted with
    | .A => true
    | .I => !i.accelReqValid
    | .D => !i.icacheReqValid && !i.accelReqValid

def grantI : Bool :=
  s.state.isNone && i.icacheReqValid &&
    match s.lastGranted with
    | .D => true
    | .A => !i.dcacheReqValid
    | .I => !i.accelReqValid && !i.dcacheReqValid

def grantA : Bool :=
  s.state.isNone && i.accelReqValid &&
    match s.lastGranted with
    | .I => true
    | .D => !i.icacheReqValid
    | .A => !i.dcacheReqValid && !i.icacheReqValid

def grant : Option Port :=
  if s.grantD i then some .D else if s.grantI i then some .I else if s.grantA i then some .A else none

/-- The request served is over with this pulse of `mem_ready`. -/
def release (memReady : Bool) : Bool :=
  match s.state with
  | none => false
  | some .D | some .I => memReady
  | some .A => memReady && (s.savedReqWrite || s.savedReqLines ≤ s.lineCount + 1)

/-- The registers after an edge. -/
def next (memReady : Bool) : Regs where
  state := if s.state.isNone then s.grant i else if s.release memReady then none else s.state
  savedReqWrite := ((s.grant i).map i.reqWrite).getD s.savedReqWrite
  savedReqLines := ((s.grant i).map i.reqLines).getD s.savedReqLines
  lineCount :=
    match s.state with
    | none => if s.grant i = some .A then 0 else s.lineCount
    | some .D | some .I => s.lineCount
    | some .A => if memReady then if s.release memReady then 0 else s.lineCount + 1 else s.lineCount
  savedReqAddr := ((s.grant i).map i.reqAddr).getD s.savedReqAddr
  savedWline := ((s.grant i).map i.wline).getD s.savedWline
  lastGranted := (s.grant i).getD s.lastGranted

def IsReset : Prop :=
  s.state = none ∧ s.savedReqWrite = false ∧ s.savedReqAddr = 0 ∧ s.savedReqLines = 1 ∧
  s.lineCount = 0 ∧
    s.savedWline = 0 ∧ s.lastGranted = .D

/-! ### The ports -/

def memReqValid : Bool := s.state.isSome
def memReqWrite : Bool := (s.state == some .D || s.state == some .A) && s.savedReqWrite
def memReqAddr : Word := if s.state.isSome then s.savedReqAddr else 0
def memReqLines : BitVec 8 := if s.state.isSome then s.savedReqLines else 1

/-- A write of several lines takes the line the accelerator presents now. -/
def memWline : Line :=
  if s.state = some .A ∧ 1 < s.savedReqLines then i.accelWline
  else if s.state = some .D ∨ s.state = some .A then s.savedWline
  else 0

/-- `dcache_ready`, `icache_ready` and `accel_ready`. -/
def ready (memReady : Bool) (p : Port) : Bool := s.state == some p && memReady

def accelWnext (memWnext : Bool) : Bool := s.state == some .A && memWnext

end Regs

variable {s : Regs} {i : Ports}

theorem grant_of_busy {p : Port} (h : s.state = some p) : s.grant i = none := by
  simp [Regs.grant, Regs.grantD, Regs.grantI, Regs.grantA, h]

/-- An idle arbiter grants a request if there is one. -/
theorem grant_of_request (h : s.state = none)
    (hi : i.dcacheReqValid || i.icacheReqValid || i.accelReqValid) :
    (s.grant i).isSome := by
  cases hD : i.dcacheReqValid <;> cases hI : i.icacheReqValid <;> cases hA : i.accelReqValid <;>
    cases hl : s.lastGranted <;> simp_all [Regs.grant, Regs.grantD, Regs.grantI, Regs.grantA]

/-- What is granted is requested. -/
theorem request_of_grant {p : Port} (h : s.grant i = some p) :
    match p with
    | .D => i.dcacheReqValid
    | .I => i.icacheReqValid
    | .A => i.accelReqValid := by
  unfold Regs.grant at h
  split_ifs at h with hD hI hA
  · obtain rfl := Option.some_inj.1 h
    simp only [Regs.grantD, Bool.and_eq_true] at hD
    exact hD.1.2
  · obtain rfl := Option.some_inj.1 h
    simp only [Regs.grantI, Bool.and_eq_true] at hI
    exact hI.1.2
  · obtain rfl := Option.some_inj.1 h
    simp only [Regs.grantA, Bool.and_eq_true] at hA
    exact hA.1.2

/-- No pulse, no release. -/
theorem Regs.release_false : s.release false = false := by
  rw [release]
  split <;> rfl

theorem Regs.next_none (h : s.state = none) (hg : s.grant i = none) (memReady : Bool) :
    s.next i memReady = s := by
  ext <;> simp [Regs.next, hg, h]

theorem Regs.next_grant {p : Port} (h : s.state = none) (hg : s.grant i = some p) (memReady : Bool) :
    s.next i memReady =
      { state := some p, savedReqWrite := i.reqWrite p, savedReqLines := i.reqLines p
        lineCount := if p = .A then 0 else s.lineCount, savedReqAddr := i.reqAddr p,
        savedWline := i.wline p
        lastGranted := p } := by
  simp [Regs.next, hg, h]

end MemArbiter

/-! ## The join -/

namespace PortJoin

inductive State
  | S_IDLE
  | S_RD
  | S_WR
  deriving DecidableEq, Repr

@[ext] structure Regs where
  state : State
  savedAddr : Word
  savedLines : BitVec 8
  lineCount : BitVec 8

/-- The ports of the accelerator. -/
structure Ports where
  accelRdReqValid : Bool
  accelRdReqAddr : Word
  accelRdReqLines : BitVec 8
  accelWrReqValid : Bool
  accelWrReqAddr : Word
  accelWrReqLines : BitVec 8
  accelWline : Line

namespace Regs

variable (s : Regs) (i : Ports)

def grantWr : Bool := s.state == .S_IDLE && i.accelWrReqValid
def grantRd : Bool := s.state == .S_IDLE && i.accelRdReqValid && !s.grantWr i

/-- The registers after an edge. -/
def next (memReady : Bool) : Regs :=
  match s.state with
  | .S_IDLE =>
    if s.grantWr i then
      { state := .S_WR, savedAddr := i.accelWrReqAddr
        savedLines := if i.accelWrReqLines = 0 then 1 else i.accelWrReqLines, lineCount := 0 }
    else if s.grantRd i then
      { state := .S_RD, savedAddr := i.accelRdReqAddr
        savedLines := if i.accelRdReqLines = 0 then 1 else i.accelRdReqLines, lineCount := 0 }
    else { s with lineCount := 0 }
  | .S_RD =>
    if memReady then
      if s.savedLines ≤ s.lineCount + 1 then { s with state := .S_IDLE, lineCount := 0 }
      else { s with lineCount := s.lineCount + 1 }
    else s
  | .S_WR => if memReady then { s with state := .S_IDLE } else s

def IsReset : Prop := s.state = .S_IDLE ∧ s.savedAddr = 0 ∧ s.savedLines = 1 ∧ s.lineCount = 0

/-! ### The ports -/

def memReqValid : Bool := s.state != .S_IDLE
def memReqWrite : Bool := s.state == .S_WR
def memReqAddr : Word := if s.state != .S_IDLE then s.savedAddr else 0
def memReqLines : BitVec 8 := if s.state != .S_IDLE then s.savedLines else 1
def memWline : Line := i.accelWline

def accelRdReady (memReady : Bool) : Bool := s.state == .S_RD && memReady
def accelWrReady (memReady : Bool) : Bool := s.state == .S_WR && memReady
def accelWnext (memWnext : Bool) : Bool := s.state == .S_WR && memWnext

end Regs

/-- The ports of the accelerator, and the memory port. -/
structure Inputs where
  ports : Ports
  memReady : Bool
  memWnext : Bool

/-- The join, between an accelerator and a memory that do as they like. -/
def portJoin : Circuit Regs Inputs where
  init := {s | s.IsReset}
  admits _ _ := True
  next s i := s.next i.ports i.memReady

/-- The pulses that a transaction takes. -/
def pulsesOf (i : Ports) : State → ℕ
  | .S_IDLE => 0
  | .S_RD => (if i.accelRdReqLines = 0 then 1 else i.accelRdReqLines).toNat
  | .S_WR => 1

/-- The pulses from the cycle `a` on, and before the cycle `b`. -/
def pulses (ι : ℕ → Inputs) (a b : ℕ) : ℕ := ∑ k ∈ Finset.Ico a b, (ι k).memReady.toNat

/-- A run of the join that keeps the two channels apart. -/
structure Orderly (σ : ℕ → Regs) (ι : ℕ → Inputs) : Prop where
  /-- A completion goes to the channel that holds the grant, and to no other. -/
  rdReady : ∀ n, (σ n).accelRdReady (ι n).memReady = true ↔ (σ n).state = .S_RD ∧ (ι n).memReady
  wrReady : ∀ n, (σ n).accelWrReady (ι n).memReady = true ↔ (σ n).state = .S_WR ∧ (ι n).memReady
  wnext : ∀ n, (σ n).accelWnext (ι n).memWnext = true ↔ (σ n).state = .S_WR ∧ (ι n).memWnext
  /-- What is granted on a cycle is held until it has had its pulses, and the request is low then. -/
  granted : ∀ g, (σ g).state = .S_IDLE → (σ (g + 1)).memReqValid → ∀ m > g,
    (∀ k, g < k → k ≤ m → (σ k).memReqValid) →
      (σ m).state = (σ (g + 1)).state ∧ pulses ι (g + 1) m < pulsesOf (ι g).ports (σ m).state ∧
        ((σ (m + 1)).memReqValid = false ↔ pulses ι (g + 1) (m + 1) = pulsesOf (ι g).ports (σ m).state)

variable {s : Regs} {i : Ports} {memReady : Bool}

/-- Without a pulse a transaction stays as it is. -/
theorem Regs.next_wait (h : s.state ≠ .S_IDLE) : s.next i false = s := by
  cases hst : s.state with
  | S_IDLE => exact absurd hst h
  | S_RD | S_WR => simp [next, hst]

/-- The counter of a read, after `k` pulses out of `n`. -/
structure Counts (s : Regs) (d : State) (n k : ℕ) : Prop where
  state : s.state = d
  lt : k < n
  lines : d = .S_RD → s.savedLines.toNat = n
  count : d = .S_RD → s.lineCount.toNat = k
  write : d = .S_WR → n = 1

theorem toNat_lines_pos (x : BitVec 8) : 0 < (if x = 0 then 1 else x).toNat := by
  split_ifs with h
  · decide
  · exact Nat.pos_of_ne_zero fun h0 => h (BitVec.eq_of_toNat_eq h0)

/-- A grant starts counting. -/
theorem Counts.start (hs : s.state = .S_IDLE) (hv : (s.next i memReady).memReqValid) :
    Counts (s.next i memReady) (s.next i memReady).state (pulsesOf i (s.next i memReady).state) 0 := by
  cases hw : s.grantWr i with
  | true =>
    have hn : s.next i memReady = ⟨.S_WR, i.accelWrReqAddr,
        if i.accelWrReqLines = 0 then 1 else i.accelWrReqLines, 0⟩ := by simp [Regs.next, hs, hw]
    rw [hn]
    exact ⟨rfl, Nat.one_pos, nofun, nofun, fun _ => rfl⟩
  | false =>
    cases hr : s.grantRd i with
    | true =>
      have hn : s.next i memReady = ⟨.S_RD, i.accelRdReqAddr,
          if i.accelRdReqLines = 0 then 1 else i.accelRdReqLines, 0⟩ := by simp [Regs.next, hs, hw, hr]
      rw [hn]
      exact ⟨rfl, toNat_lines_pos _, fun _ => rfl, fun _ => rfl, nofun⟩
    | false =>
      have hn : (s.next i memReady).state = .S_IDLE := by simp [Regs.next, hs, hw, hr]
      simp [Regs.memReqValid, hn] at hv

/-- An edge counts its pulse, and the last one releases the transaction. -/
theorem Counts.next {d : State} {n k : ℕ} (h : Counts s d n k) (hd : d ≠ .S_IDLE) (i : Ports)
    (memReady : Bool) :
    if k + memReady.toNat = n then (s.next i memReady).state = .S_IDLE
    else Counts (s.next i memReady) d n (k + memReady.toNat) := by
  have hlt := h.lt
  cases hm : memReady with
  | false =>
    rw [Bool.toNat_false, Nat.add_zero, if_neg (Nat.ne_of_lt hlt), Regs.next_wait (h.state.trans_ne hd)]
    exact h
  | true =>
    cases d with
    | S_IDLE => exact absurd rfl hd
    | S_WR =>
      have hn := h.write rfl
      rw [Bool.toNat_true, if_pos (by omega)]
      simp [Regs.next, h.state]
    | S_RD =>
      have hlines := h.lines rfl
      have hcount := h.count rfl
      have hadd : (s.lineCount + 1).toNat = k + 1 := by
        have := s.savedLines.isLt
        rw [BitVec.toNat_add_of_lt (by rw [show (1 : BitVec 8).toNat = 1 from rfl]; omega), hcount]
        rfl
      have hle : s.savedLines ≤ s.lineCount + 1 ↔ k + 1 = n := by
        rw [BitVec.le_def, hadd, hlines]
        omega
      rw [Bool.toNat_true]
      split_ifs with hkn
      · simp only [Regs.next, h.state, if_true, if_pos (hle.2 hkn)]
      · have hn : s.next i true = { s with lineCount := s.lineCount + 1 } := by
          simp only [Regs.next, h.state, if_true, if_neg (mt hle.1 hkn)]
        rw [hn]
        exact ⟨h.state, by omega, fun _ => hlines, fun _ => hadd, nofun⟩

theorem pulses_succ (ι : ℕ → Inputs) {a b : ℕ} (h : a ≤ b) :
    pulses ι a (b + 1) = pulses ι a b + (ι b).memReady.toNat := Finset.sum_Ico_succ_top h _

/-- The join keeps its channels apart, whatever the accelerator and the memory do. -/
theorem orderly_of_isRun {σ : ℕ → Regs} {ι : ℕ → Inputs} (h : portJoin.IsRun σ ι) :
    Orderly σ ι where
  rdReady n := by simp [Regs.accelRdReady]
  wrReady n := by simp [Regs.accelWrReady]
  wnext n := by simp [Regs.accelWnext]
  granted g hg hv m hm hbusy := by
    have hnext : ∀ n, σ (n + 1) = (σ n).next (ι n).ports (ι n).memReady := h.next
    let d := (σ (g + 1)).state
    have hd : d ≠ .S_IDLE := by simpa [Regs.memReqValid] using hv
    -- the pulses are counted along the transaction
    have hcounts : ∀ m ≥ g + 1, (∀ k, g < k → k ≤ m → (σ k).memReqValid) →
        Counts (σ m) d (pulsesOf (ι g).ports d) (pulses ι (g + 1) m) := by
      intro m hm
      induction m, hm using Nat.le_induction with
      | base =>
        intro _
        rw [hnext] at hv
        have := Counts.start hg hv
        rw [← hnext] at this
        simpa [pulses] using this
      | succ m hm ih =>
        intro hbusy
        have hstep := (ih fun k h₁ h₂ => hbusy k h₁ (by omega)).next hd (ι m).ports (ι m).memReady
        rw [← hnext, ← pulses_succ ι hm] at hstep
        have hv := hbusy (m + 1) (by omega) le_rfl
        split_ifs at hstep with he
        · simp [Regs.memReqValid, hstep] at hv
        · exact hstep
    have hc := hcounts m hm hbusy
    have hstep := hc.next hd (ι m).ports (ι m).memReady
    rw [← hnext, ← pulses_succ ι hm] at hstep
    rw [hc.state]
    refine ⟨rfl, hc.lt, ?_⟩
    split_ifs at hstep with he
    · simp [Regs.memReqValid, hstep, he]
    · simp [Regs.memReqValid, hstep.state, he, hd]

end PortJoin

end Rv32Soc
