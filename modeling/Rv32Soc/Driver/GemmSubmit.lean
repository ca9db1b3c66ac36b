import Mathlib.Tactic.IntervalCases
import Rv32Soc.Accel.BatchRun
import Rv32Soc.Accel.Window
import Rv32Soc.Driver.GemmStride

/-!
# The submission of a batch

The register writes of `gemm_run_batch`, up to the start of the queue, and what they come to: the
queue holds a descriptor for each tile, in their order (`descQ_of_written`). The writes may
be accepted at any distance from each other.

The driver goes by the registers in `QueueRegs` only, which change by what is written as long as nothing
runs (`queueRegs_accepted`).
-/

namespace Rv32Soc

open MmAccel

/-! ## The writes of the driver -/

/-- `REG_DEST_STRIDE` and the other registers of the driver, by the number of their word. -/
def REG_CTRL : BitVec 6 := 0
def REG_DEST_STRIDE : BitVec 6 := 11
def REG_DESC_A_SRC : BitVec 6 := 17
def REG_DESC_B_SRC : BitVec 6 := 18
def REG_DESC_DEST : BitVec 6 := 19
def REG_DESC_PUSH : BitVec 6 := 20
def REG_OUT_CTRL : BitVec 6 := 22

def CTRL_START_QUEUE : Word := 1#32 <<< 5

/-- The writes for a tile. -/
def GemmTile.writes (t : GemmTile) : List (BitVec 6 × Word) :=
  [(REG_DESC_A_SRC, t.aSrc), (REG_DESC_B_SRC, t.bSrc), (REG_DESC_DEST, t.dest),
    (REG_DESC_PUSH, t.descPush)]

/-- The writes of `gemm_run_batch`, before it writes `CTRL_START_QUEUE`. -/
def GemmCall.writes (c : GemmCall) : List (BitVec 6 × Word) :=
  (REG_DEST_STRIDE, c.destStride) :: (REG_OUT_CTRL, c.outCtrl) :: c.tiles.flatMap GemmTile.writes

/-- `CTRL` is not among them. -/
theorem GemmCall.ne_ctrl_of_mem_writes {c : GemmCall} {x : BitVec 6 × Word} (h : x ∈ c.writes) :
    x.1 ≠ 0 := by
  simp only [writes, GemmTile.writes, List.mem_cons, List.mem_flatMap, List.not_mem_nil, or_false] at h
  obtain rfl | rfl | ⟨t, -, rfl | rfl | rfl | rfl⟩ := h <;>
    simp [REG_DEST_STRIDE, REG_OUT_CTRL, REG_DESC_A_SRC, REG_DESC_B_SRC, REG_DESC_DEST, REG_DESC_PUSH]

/-! ## The registers of a batch -/

/-- The registers that a batch goes by, and the queue. -/
structure QueueRegs where
  destStride : Word
  srcStride : Word
  outShift : ℕ
  int8Req : Bool
  descA : Word
  descB : Word
  descD : Word
  descQ : List Descriptor

namespace QueueRegs

variable (p : MmParams) (r : QueueRegs)

/-- What a write does. A descriptor that the queue has no room for is lost. -/
def write (word : BitVec 6) (data : Word) : QueueRegs where
  destStride := if word = 11 then data else r.destStride
  srcStride := if word = 14 then data else r.srcStride
  outShift := if word = 22 then data.toNat % 32 else r.outShift
  int8Req := if word = 22 then data.getLsbD 8 else r.int8Req
  descA := if word = 17 then data else r.descA
  descB := if word = 18 then data else r.descB
  descD := if word = 19 then data else r.descD
  descQ :=
    if word = 20 ∧ r.descQ.length < p.descDepth then r.descQ ++
      [⟨r.descA, r.descB, r.descD, data⟩] else r.descQ

def writes (l : List (BitVec 6 × Word)) : QueueRegs := l.foldl (fun r x => r.write p x.1 x.2) r

variable {p r}

/-- The writes for a tile put its descriptor into the queue, if there is room. -/
theorem descQ_writes_tile {t : GemmTile} (h : r.descQ.length < p.descDepth) :
    (r.writes p t.writes).descQ = r.descQ ++ [t.descriptor] ∧
    (r.writes p t.writes).destStride = r.destStride ∧
      (r.writes p t.writes).srcStride = r.srcStride ∧ (r.writes p t.writes).outShift = r.outShift ∧
        (r.writes p t.writes).int8Req = r.int8Req := by
  simp [writes, write, GemmTile.writes, REG_DESC_A_SRC, REG_DESC_B_SRC, REG_DESC_DEST, REG_DESC_PUSH, h,
    GemmTile.descriptor]

theorem descQ_writes_tiles {l : List GemmTile} (h : r.descQ.length + l.length ≤ p.descDepth) :
    (r.writes p (l.flatMap GemmTile.writes)).descQ = r.descQ ++ l.map GemmTile.descriptor ∧
      (r.writes p (l.flatMap GemmTile.writes)).destStride = r.destStride ∧
      (r.writes p (l.flatMap GemmTile.writes)).srcStride = r.srcStride ∧
      (r.writes p (l.flatMap GemmTile.writes)).outShift = r.outShift ∧
      (r.writes p (l.flatMap GemmTile.writes)).int8Req = r.int8Req := by
  induction l generalizing r with
  | nil => simp [writes]
  | cons t l ih =>
    rw [List.length_cons] at h
    obtain ⟨hq, h₁, h₂, h₃, h₄⟩ := descQ_writes_tile (p := p) (r := r) (t := t) (by omega)
    have hlen : (r.writes p t.writes).descQ.length + l.length ≤ p.descDepth := by
      rw [hq, List.length_append, List.length_singleton]
      omega
    obtain ⟨hq', h₁', h₂', h₃', h₄'⟩ := ih hlen
    have hsplit : r.writes p ((t :: l).flatMap GemmTile.writes) =
        (r.writes p t.writes).writes p (l.flatMap GemmTile.writes) := by
      rw [List.flatMap_cons, writes, List.foldl_append]
      rfl
    rw [hsplit]
    refine ⟨?_, h₁'.trans h₁, h₂'.trans h₂, h₃'.trans h₃, h₄'.trans h₄⟩
    rw [hq', hq, List.append_assoc, List.map_cons, List.singleton_append]

end QueueRegs

/-- The shift that is asked for. -/
theorem GemmCall.toNat_outCtrl (c : GemmCall) :
    c.outCtrl.toNat % 32 = if c.outInt8 then c.outShift.toNat % 32 else 0 := by
  rw [outCtrl]
  split_ifs
  · have hlow : (1#32 <<< 8 ||| (c.outShift.setWidth 32 &&& 0x1F)).setWidth 5 =
        c.outShift.setWidth 5 := by
      apply BitVec.eq_of_getLsbD_eq
      intro i hi
      interval_cases i <;> simp
    have hn := congrArg BitVec.toNat hlow
    rwa [BitVec.toNat_setWidth, BitVec.toNat_setWidth] at hn
  · rfl

/-- What the writes of the driver come to. -/
theorem QueueRegs.writes_call {p : MmParams} {r : QueueRegs} {c : GemmCall} (hq : r.descQ = [])
    (hlen : c.tiles.length ≤ p.descDepth) :
    (r.writes p c.writes).descQ = c.tiles.map GemmTile.descriptor ∧
      (r.writes p c.writes).destStride = c.destStride ∧ (r.writes p c.writes).srcStride = r.srcStride ∧
      (r.writes p c.writes).outShift = (if c.outInt8 then c.outShift.toNat % 32 else 0) ∧
      (r.writes p c.writes).int8Req = c.outInt8 := by
  have hsplit : r.writes p c.writes =
      ((r.write p REG_DEST_STRIDE c.destStride).write p REG_OUT_CTRL c.outCtrl).writes p
        (c.tiles.flatMap GemmTile.writes) := rfl
  have hfirst : ((r.write p REG_DEST_STRIDE c.destStride).write p REG_OUT_CTRL c.outCtrl).descQ =
      [] := by
    simp [write, REG_DEST_STRIDE, REG_OUT_CTRL, hq]
  obtain ⟨h₀, h₁, h₂, h₃, h₄⟩ := descQ_writes_tiles (p := p) (l := c.tiles)
    (r := (r.write p REG_DEST_STRIDE c.destStride).write p REG_OUT_CTRL c.outCtrl)
      (by simp [hfirst, hlen])
  rw [hsplit, h₀, h₁, h₂, h₃, h₄, hfirst]
  refine ⟨rfl, ?_, ?_, ?_, ?_⟩
  · simp [write, REG_DEST_STRIDE, REG_OUT_CTRL]
  · simp [write, REG_DEST_STRIDE, REG_OUT_CTRL]
  · rw [← c.toNat_outCtrl]
    simp [write, REG_OUT_CTRL]
  · rw [← c.getLsbD_outCtrl]
    simp [write, REG_OUT_CTRL]

namespace MmAccel

variable {p : MmParams} {s : MmAccel} {i : MmInputs}

def queueRegs (s : MmAccel) : QueueRegs :=
  ⟨s.regs.destStride, s.regs.srcStride, s.regs.outShift, s.regs.int8Req, s.q.descA, s.q.descB,
    s.q.descD, s.q.descQ⟩

theorem engineInv_of_reachable (h : (mmAccel p).Reachable s) : s.EngineInv := by
  refine h.invariant (fun s hr => ?_) fun _ _ hi _ => hi.next
  have hr : s.IsReset := hr
  exact hr.engineInv

/-- While nothing runs, these registers change by what is written. -/
theorem Stopped.queueRegs_next (h : s.Stopped) (hb : s.st.dmaBusy = false) (hw : s.writes i 0 = false) :
    (s.next p i).queueRegs = match s.accepts i with
      | some x => s.queueRegs.write p x.1 x.2
      | none => s.queueRegs := by
  have ha := (h.adopted (p := p)).1
  have hr : s.softRstPulse i = false := by rw [softRstPulse, hw, Bool.false_and]
  cases hx : s.accepts i with
  | none =>
    have hw := writes_of_not_accepts hx
    simp [queueRegs, nextRegs, nextQ, h.writesCfg_eq, hw, ha, hr, descPush]
  | some x =>
    have hw := fun n => (writes_of_accepts hx n).1
    have hd := (writes_of_accepts hx 0).2
    by_cases hpush : x.1 = 20#6 ∧ s.q.descQ.length < p.descDepth
    · simp [queueRegs, nextRegs, nextQ, h.writesCfg_eq, hw, hd, ha, hr, hb, h.ld, descPush,
        enqReady, QueueRegs.write, hpush]
    · have hdesc : (x.1 == 20#6 && decide (s.q.descQ.length < p.descDepth)) = false := by
        simpa using hpush
      simp [queueRegs, nextRegs, nextQ, h.writesCfg_eq, hw, hd, ha, hr, hb, h.ld, descPush,
        enqReady, QueueRegs.write, hpush, hdesc]

end MmAccel

section

variable {p : MmParams} {σ : ℕ → MmAccel} {ι : ℕ → MmInputs} {a n : ℕ}

/-- A write to `CTRL` is one of those that are accepted. -/
theorem writes_ctrl_of_accepted (hno : ∀ x ∈ accepted σ ι a (n + 1), x.1 ≠ 0) :
    (σ (a + n)).writes (ι (a + n)) 0 = false := by
  rw [accepted_succ] at hno
  cases hx : (σ (a + n)).accepts (ι (a + n)) with
  | none => exact writes_of_not_accepts hx 0
  | some x =>
    rw [(writes_of_accepts hx 0).1]
    exact beq_false_of_ne (hno x (List.mem_append_right _ (by rw [hx]; exact List.mem_singleton_self x)))

/-- As long as `CTRL` is not written the engines rest, and the registers are what has been written. -/
theorem queueRegs_accepted (hnext : ∀ n, σ (n + 1) = (σ n).next p (ι n)) (hs : (σ a).Stopped)
    (hi : (σ a).Idle) (hno : ∀ x ∈ accepted σ ι a n, x.1 ≠ 0) :
    (σ (a + n)).Stopped ∧ (σ (a + n)).Idle ∧
      (σ (a + n)).queueRegs = (σ a).queueRegs.writes p (accepted σ ι a n) := by
  induction n with
  | zero => exact ⟨hs, hi, rfl⟩
  | succ n ih =>
    have hctrl := writes_ctrl_of_accepted hno
    rw [accepted_succ] at hno ⊢
    obtain ⟨hs', hi', hregs⟩ := ih fun x hx => hno x (List.mem_append_left _ hx)
    have hdma : (σ (a + n)).dmaStartAny (ι (a + n)) = false := by
      have hw' : (σ (a + n)).writes (ι (a + n)) 0#6 = false := hctrl
      simp [dmaStartAny, dmaStart, hw', hs'.state]
    have hstop := hs'.next (p := p) hctrl
    obtain ⟨hb, hv⟩ := storeRests_next (p := p) hdma hi'.store
    rw [← Nat.add_assoc, hnext]
    refine ⟨hstop, ⟨?_, hstop.ld, hb, ?_, hv⟩, ?_⟩
    · have hr : (σ (a + n)).softRstPulse (ι (a + n)) = false := by
        rw [softRstPulse, hctrl, Bool.false_and]
      have hk : (σ (a + n)).qStartPulse (ι (a + n)) = false := by
        rw [qStartPulse, hctrl, Bool.false_and, Bool.false_and]
      simp [nextQ, hr, hk, hi'.queue]
    · rw [lineFifo_next, Job.nextFifo_of_empty hi'.fifo hi'.valid]
    · rw [hs'.queueRegs_next hi'.store hctrl, hregs]
      cases (σ (a + n)).accepts (ι (a + n)) with
      | none => rw [Option.toList_none, List.append_nil]
      | some x => rw [Option.toList_some, QueueRegs.writes, QueueRegs.writes, List.foldl_append]; rfl

/-- When all that the driver writes has been accepted, the queue holds the descriptors of its tiles,
    and the registers are as it wants them. -/
theorem descQ_of_written {c : GemmCall} (hnext : ∀ n, σ (n + 1) = (σ n).next p (ι n))
    (hs : (σ a).Stopped)
    (hi : (σ a).Idle) (hq : (σ a).q.descQ = []) (hlen : c.tiles.length ≤ p.descDepth)
    (hw : accepted σ ι a n = c.writes) :
    (σ (a + n)).Idle ∧ (σ (a + n)).q.descQ = c.tiles.map GemmTile.descriptor ∧ c.Programs (σ (a + n)) ∧
      (σ (a + n)).regs.srcStride = (σ a).regs.srcStride ∧
      (σ (a + n)).regs.outShift = if c.outInt8 then c.outShift.toNat % 32 else 0 := by
  obtain ⟨-, hidle, hregs⟩ := queueRegs_accepted hnext hs hi fun x hx =>
    c.ne_ctrl_of_mem_writes (hw ▸ hx)
  obtain ⟨h₀, h₁, h₂, h₃, h₄⟩ := QueueRegs.writes_call (r := (σ a).queueRegs) hq hlen
  rw [hw] at hregs
  rw [← hregs] at h₀ h₁ h₂ h₃ h₄
  exact ⟨hidle, h₀, ⟨h₁, h₄⟩, h₂, h₃⟩

end

end Rv32Soc
