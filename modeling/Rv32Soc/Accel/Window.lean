import Rv32Soc.Accel.Array
import Rv32Soc.Accel.OperandPort

/-!
# The register window

What software does with the accelerator without its engines: it pushes operands, four
bytes at a time, and reads results one by one. The registers count on their own, lane by
lane and row by row.

* `Window`: what is behind the window, and what a write does to it; as long as no engine
  runs the accelerator follows it, whatever the spacing of the writes (`window_accepted`);
* `Window.Pushing`: how far the pushes of an operand have come;
* `Settled`: the multiplexer of the results has caught up with `RESULT_IDX` whenever a
  read is outstanding;
* `window_of_isRun`: what is pushed is in the buffers, and what is read is in the array.
-/

namespace Rv32Soc

/-! ## Powers of two -/

theorem log2Ceil_two_pow (k : ℕ) : log2Ceil (2 ^ k) = k := by
  refine Nat.le_antisymm (log2Ceil_le le_rfl) ?_
  rcases k with _ | k
  · exact Nat.zero_le _
  · have h1 : 1 ≤ 2 ^ k := Nat.one_le_two_pow
    have h2 : 2 ^ (k + 1) = 2 * 2 ^ k := by rw [pow_succ, Nat.mul_comm]
    rw [log2Ceil, if_neg (by omega)]
    exact Nat.succ_le_succ ((Nat.le_log2 (by omega)).2 (by omega))

namespace MmParams

variable (p : MmParams)

/-- The dimension is a power of two, and the array is not a single element. -/
def PowDim : Prop := ∃ k, 1 ≤ k ∧ p.dim = 2 ^ k

variable {p}

theorem PowDim.two_pow_laneBits (h : p.PowDim) : 2 ^ p.laneBits = p.dim := by
  obtain ⟨k, hk, hd⟩ := h
  rw [laneBits, hd, log2Ceil_two_pow, max_eq_left hk]

theorem PowDim.two_pow_accBits (h : p.PowDim) : 2 ^ p.accBits = p.dim * p.dim := by
  obtain ⟨k, hk, hd⟩ := h
  rw [accBits, hd, ← pow_add, log2Ceil_two_pow, max_eq_left (by omega)]

theorem PowDim.two_pow_idxBits (h : p.PowDim) : 2 ^ max 1 (log2Ceil p.dim) = p.dim := by
  obtain ⟨k, hk, hd⟩ := h
  rw [hd, log2Ceil_two_pow, max_eq_right hk]

variable (p)

theorem two_pow_kGrpBits : 2 ^ p.kGrpBits = p.maxK / 4 := by
  obtain ⟨k, hk⟩ := p.maxK_pow
  have hge := p.maxK_ge
  have hk4 : 2 ≤ k := by
    by_contra hlt
    have : 2 ^ k ≤ 2 ^ 1 := Nat.pow_le_pow_right (by decide) (by omega)
    omega
  have hdiv : 2 ^ k / 4 = 2 ^ (k - 2) := Nat.pow_div hk4 (by decide)
  rw [kGrpBits, hk, hdiv, log2Ceil_two_pow]

end MmParams

/-! ## What is behind the window -/

/-- The registers that pushes go by, and the buffers. -/
structure Window where
  kLen : ℕ
  loadK : ℕ
  loadLane : ℕ
  bPanelLoad : ℕ
  aMem : ℕ → ℕ → Line
  bMem : ℕ → ℕ → Line

namespace Window

variable (p : MmParams) (w : Window)

/-- A word goes to its place in the lane. -/
def pushed (row : ℕ → ℕ) (mem : ℕ → ℕ → Line) (data : Word) : ℕ → ℕ → Line :=
  fun lane r =>
  if w.loadLane = lane ∧ row (w.loadK / 4) = r then setLinePart 4 (mem lane r) (w.loadK % 4) data
      else mem lane r

/-- The last place of a lane. -/
def lastGrp : ℕ := (w.kLen / 4 + 63) % 64

/-- What a write does. -/
def write (word : BitVec 6) (data : Word) : Window where
  kLen := if word = 2 then min (data.toNat % 256) p.maxK else w.kLen
  loadK :=
    if word = 3 then data.toNat % 2 ^ p.kGrpBits
    else if word = 4 then 0
    else if word = 5 ∨ word = 6 then if w.loadK = w.lastGrp then 0 else (w.loadK + 1) % 2 ^ p.kGrpBits
    else w.loadK
  loadLane :=
    if word = 4 then data.toNat % 2 ^ p.laneBits
    else if (word = 5 ∨ word = 6) ∧ w.loadK = w.lastGrp then (w.loadLane + 1) % 2 ^ p.laneBits
    else w.loadLane
  bPanelLoad := if word = 16 then data.toNat % 2 ^ p.panBits else w.bPanelLoad
  aMem := if word = 5 then w.pushed id w.aMem data else w.aMem
  bMem := if word = 6 then w.pushed (p.bAddr w.bPanelLoad) w.bMem data else w.bMem

def writes (l : List (BitVec 6 × Word)) : Window := l.foldl (fun w x => w.write p x.1 x.2) w

end Window

namespace MmAccel

variable {p : MmParams} {s : MmAccel} {i : MmInputs}

def window (s : MmAccel) : Window :=
  ⟨s.regs.kLen, s.regs.loadK, s.regs.loadLane, s.regs.bPanelLoad, s.buf.aMem, s.buf.bMem⟩

/-- The write that is accepted on a cycle. -/
def accepts (s : MmAccel) (i : MmInputs) : Option (BitVec 6 × Word) :=
  if s.doWrite i then some (waddrWord i, i.wdata) else none

theorem writes_of_accepts {x : BitVec 6 × Word} (h : s.accepts i = some x) (n : BitVec 6) :
    s.writes i n = (x.1 == n) ∧ i.wdata = x.2 := by
  unfold accepts at h
  split at h
  · next hw =>
    cases h
    exact ⟨by rw [writes, hw, Bool.true_and], rfl⟩
  · cases h

theorem writes_of_not_accepts (h : s.accepts i = none) (n : BitVec 6) : s.writes i n = false := by
  unfold accepts at h
  split at h
  · cases h
  · next hw => rw [writes, Bool.eq_false_iff.2 hw, Bool.false_and]

/-- Neither the array, nor a load, nor the queue runs. -/
structure Stopped (s : MmAccel) : Prop where
  arr : s.arr.busy = false
  en : ∀ i j, s.arr.peEn i j = false
  ld : s.ld.ldBusy = false
  run : s.q.qRun = false
  state : s.q.qState = .qIdle
  pend : s.q.prePend = false

namespace Stopped

theorem adopted (h : s.Stopped) : s.adopted p = none ∧ s.prefetches p = false ∧ s.promotes = false := by
  simp [MmAccel.adopted, adoptsIdle, prefetches, promotes, h.run, h.state]

theorem starts (h : s.Stopped) (hw : s.writes i 0 = false) :
    s.startAny i = false ∧ s.ldStartAny i = false := by
  have hw' : s.writes i 0#6 = false := hw
  simp [startAny, startPulse, ldStartAny, ldStart, ldStartB, hw', h.state, h.pend]

/-- Only a write to `CTRL` starts an engine. -/
theorem next (h : s.Stopped) (hw : s.writes i 0 = false) : (s.next p i).Stopped := by
  obtain ⟨hs, hl⟩ := h.starts hw
  have hr : s.softRstPulse i = false := by rw [softRstPulse, hw, Bool.false_and]
  have hk : s.qStartPulse i = false := by rw [qStartPulse, hw, Bool.false_and, Bool.false_and]
  have hb : s.arr.busyNext p s.regs.kLen false false = false := by simp [SystolicArray.busyNext, h.arr]
  refine ⟨?_, fun _ _ => ?_, ?_, ?_, ?_, ?_⟩
  · rw [next_arr, hs, hr]
    exact hb
  · rw [next_arr, hs, hr]
    exact hb
  · rw [next_ld, nextLd, hr, if_neg Bool.false_ne_true, nextLd', hl, if_neg Bool.false_ne_true,
      h.ld, Bool.false_and, if_neg Bool.false_ne_true]
    exact h.ld
  · simp [next_q, nextQ, hr, hk, h.run]
  · simp [next_q, nextQ, nextQState, hr, h.state, adoptsIdle, h.run]
  · simp [next_q, nextQ, hr, h.adopted.2.1]

theorem laneWrite_eq (h : s.Stopped) (lane : ℕ) : s.laneWrite p i lane = s.pushWrite p i lane := by
  have hline : s.lineWrite p i lane = none := by simp [lineWrite, captures, h.ld]
  rw [MmAccel.laneWrite_eq, hline, Option.none_or]

theorem writesCfg_eq (h : s.Stopped) (n : BitVec 6) : s.writesCfg i n = s.writes i n := by
  rw [writesCfg, h.arr, Bool.not_false, Bool.and_true]

/-- While nothing runs, only what is pushed is written to the buffers. -/
theorem buf_next (h : s.Stopped) :
    (s.next p i).buf.aMem = (if s.writes i 5 then s.window.pushed id s.buf.aMem i.wdata
      else s.buf.aMem) ∧
      (s.next p i).buf.bMem =
        if s.writes i 6 then s.window.pushed (p.bAddr s.regs.bPanelLoad) s.buf.bMem i.wdata
          else s.buf.bMem := by
  have hlane : ∀ lane, s.laneWrite p i lane =
      if (s.writes i 5 || s.writes i 6) && s.regs.loadLane == lane then
        some ⟨s.writes i 5, s.writes i 6, s.regs.loadK / 4, p.bAddr s.regs.bPanelLoad (s.regs.loadK / 4),
          fun old => setLinePart 4 old (s.regs.loadK % 4) i.wdata⟩
      else none := by
    intro lane
    rw [h.laneWrite_eq, pushWrite, pushA, pushB, h.writesCfg_eq, h.writesCfg_eq]
  constructor
  · funext lane r
    simp only [next_buf, nextBuf, OperandBuffers.next, hlane]
    cases s.writes i 5 <;> cases s.writes i 6 <;> by_cases hl : s.regs.loadLane = lane <;>
      simp [Window.pushed, window, hl]
  · funext lane r
    simp only [next_buf, nextBuf, OperandBuffers.next, hlane]
    cases s.writes i 5 <;> cases s.writes i 6 <;> by_cases hl : s.regs.loadLane = lane <;>
      simp [Window.pushed, window, hl]

/-- While nothing runs, the window changes by what is written. -/
theorem window_next (h : s.Stopped) :
    (s.next p i).window = match s.accepts i with
      | some x => s.window.write p x.1 x.2
      | none => s.window := by
  obtain ⟨ha, -, hp⟩ := h.adopted (p := p)
  have hl : s.ld.ldBusy = false := h.ld
  obtain ⟨hA, hB⟩ := h.buf_next (p := p) (i := i)
  rw [window, hA, hB]
  cases hx : s.accepts i with
  | none =>
    have hw := writes_of_not_accepts hx
    simp only [next_regs, nextRegs, pushA, pushB, h.writesCfg_eq, hw, ha, hp, hl]
    rfl
  | some x =>
    have hw := fun n => (writes_of_accepts hx n).1
    have hd := (writes_of_accepts hx 0).2
    simp only [next_regs, nextRegs, pushA, pushB, h.writesCfg_eq, hw, hd, ha, hp, hl, kReq,
      Window.write, Window.lastGrp,
      window, Bool.false_eq_true, if_false, Bool.not_false, Bool.and_true, beq_iff_eq,
      Bool.or_eq_true, Bool.and_eq_true]
    rfl

end Stopped

/-- What holds of the engines in every reachable state. -/
structure EngineInv (s : MmAccel) : Prop where
  en : ∀ i j, s.arr.peEn i j = s.arr.busy
  run : s.q.qRun = s.q.qBusy
  rest : s.q.qBusy = false → s.q.qState = .qIdle ∧ s.q.prePend = false
  kLen : s.regs.kLen < 256
  stgKLen : s.q.stgKLen < 256
  rvalid : s.axi.rvalidReg = (s.axi.rState == .rResp)

theorem EngineInv.next (h : s.EngineInv) : (s.next p i).EngineInv where
  en _ _ := rfl
  run := by simp only [next_q, nextQ, h.run]
  rest := by
    intro hq
    cases hr : s.softRstPulse i
    · -- `qRun` falls when the queue is drained, and that is seen in `qIdle` only.
      have hidle : s.q.qState = .qIdle ∧ s.adoptsIdle = false := by
        simp only [next_q, nextQ, hr, Bool.false_or] at hq
        cases hd : s.drained
        · rw [hd, if_neg Bool.false_ne_true, Bool.or_eq_false_iff] at hq
          have hrun : s.q.qRun = false := h.run.trans hq.2
          exact ⟨(h.rest hq.2).1, by simp [adoptsIdle, hrun]⟩
        · simp only [drained, Bool.and_eq_true, beq_iff_eq] at hd
          exact ⟨hd.1.1.1.1, by simp [adoptsIdle, hd.1.1.2]⟩
      have hpre : s.prefetches p = false := by simp [prefetches, hidle.1]
      simp [nextQ, nextQState, hr, hidle, hpre]
    · simp [nextQ, nextQState, hr]
  kLen := by
    simp only [next_regs, nextRegs, kReq]
    have := h.kLen
    have := h.stgKLen
    -- `k_len` is written from the bus, clamped, or loaded with a descriptor.
    split
    · omega
    · split <;> assumption
  stgKLen := by
    simp only [next_q, nextQ]
    cases s.adopted p with
    | none => exact h.stgKLen
    | some d => exact Nat.mod_lt _ (by decide)
  rvalid := by
    simp only [next_axi, nextAxi, h.rvalid]
    cases s.axi.rState <;> cases i.arvalid <;> cases i.rready <;> rfl

theorem IsReset.engineInv (h : s.IsReset) : s.EngineInv := by
  constructor <;> simp [h.arr, h.q, h.regs, h.axi]

/-- With the flags of `STATUS` low nothing runs. -/
theorem EngineInv.stopped (h : s.EngineInv) (hb : s.arr.busy = false) (hl : s.ld.ldBusy = false)
    (hq : s.q.qBusy = false) : s.Stopped :=
  ⟨hb, fun i j => (h.en i j).trans hb, hl, h.run.trans hq, (h.rest hq).1, (h.rest hq).2⟩

end MmAccel

/-! ## Pushes -/

namespace Window

variable {p : MmParams} {w w₀ : Window} {inB : Bool} {K m : ℕ} {data : ℕ → Word}

/-- The buffers of an operand, and the rows of a lane that its pushes go to. -/
def mem (w : Window) (inB : Bool) : ℕ → ℕ → Line := if inB then w.bMem else w.aMem
def row (p : MmParams) (w : Window) (inB : Bool) (r : ℕ) : ℕ := if inB then p.bAddr w.bPanelLoad r else r

/-- `A_PUSH` and `B_PUSH`. -/
def pushWord (inB : Bool) : BitVec 6 := if inB then 6 else 5

/-- The word at the place `g` of a lane. -/
def place (p : MmParams) (w : Window) (inB : Bool) (lane g : ℕ) : Word :=
  linePart 4 (w.mem inB lane (w.row p inB (g / 4))) (g % 4)

theorem linePart_pushed (l : Line) (x : BitVec (8 * 4)) (g k : ℕ) :
    linePart 4 (setLinePart 4 l (k % 4) x) (g % 4) = if g % 4 = k % 4 then x
      else linePart 4 l (g % 4) := by
  have hk : (k % 4 + 1) * 4 ≤ 16 := by omega
  have hg : (g % 4 + 1) * 4 ≤ 16 := by omega
  exact linePart_setLinePart l x hk hg

/-- After `m` pushes from the first place of the first lane on. -/
structure Pushing (p : MmParams) (w₀ : Window) (inB : Bool) (K : ℕ) (data : ℕ → Word) (m : ℕ)
    (w : Window) : Prop where
  kLen : w.kLen = w₀.kLen
  panel : w.bPanelLoad = w₀.bPanelLoad
  loadK : w.loadK = m % (K / 4)
  loadLane : w.loadLane = m / (K / 4) % p.dim
  other : w.mem (!inB) = w₀.mem (!inB)
  place : ∀ lane g, w.place p inB lane g =
    if g < K / 4 ∧ lane * (K / 4) + g < m then data (lane * (K / 4) + g) else w₀.place p inB lane g
  rest : ∀ lane r, (∀ k < K / 4, w₀.row p inB (k / 4) ≠ r) → w.mem inB lane r = w₀.mem inB lane r

theorem row_inj {r r' : ℕ} (h : w.row p inB r = w.row p inB r') : r = r' := by
  cases inB
  · exact h
  · simp only [row, if_true, MmParams.bAddr_eq] at h
    omega

theorem mem_write_push (w : Window) (x : Word) :
    (w.write p (pushWord inB) x).mem inB = w.pushed (w.row p inB) (w.mem inB) x ∧
      (w.write p (pushWord inB) x).mem (!inB) = w.mem (!inB) := by
  cases inB <;> exact ⟨rfl, rfl⟩

theorem loadK_write_push (w : Window) (x : Word) : (w.write p (pushWord inB) x).loadK =
    if w.loadK = w.lastGrp then 0 else (w.loadK + 1) % 2 ^ p.kGrpBits := by
  cases inB <;> rfl

theorem loadLane_write_push (w : Window) (x : Word) : (w.write p (pushWord inB) x).loadLane =
    if w.loadK = w.lastGrp then (w.loadLane + 1) % 2 ^ p.laneBits else w.loadLane := by
  cases inB <;> simp [write, pushWord]

theorem kept_write_push (w : Window) (x : Word) : (w.write p (pushWord inB) x).kLen = w.kLen ∧
    (w.write p (pushWord inB) x).bPanelLoad = w.bPanelLoad := by
  cases inB <;> exact ⟨rfl, rfl⟩

/-- A push changes the word at its place. -/
theorem place_write_push (w : Window) (x : Word) (lane g : ℕ) :
    (w.write p (pushWord inB) x).place p inB lane g =
    if w.loadLane = lane ∧ w.loadK = g then x else w.place p inB lane g := by
  have hrow : (w.write p (pushWord inB) x).row p inB = w.row p inB := by
    funext r
    rw [row, row, (kept_write_push w x).2]
  rw [place, place, hrow, (mem_write_push w x).1, pushed]
  by_cases hl : w.loadLane = lane ∧ w.row p inB (w.loadK / 4) = w.row p inB (g / 4)
  · have hdiv := row_inj hl.2
    rw [if_pos hl, linePart_pushed]
    by_cases hg : g % 4 = w.loadK % 4
    · rw [if_pos hg, if_pos ⟨hl.1, by omega⟩]
    · rw [if_neg hg, if_neg fun h : _ ∧ w.loadK = g => hg (by rw [h.2])]
  · rw [if_neg hl, if_neg fun h : _ ∧ w.loadK = g => hl ⟨h.1, by rw [h.2]⟩]

theorem div_mod_succ {m G : ℕ} (hG : 0 < G) :
    if m % G = G - 1 then (m + 1) / G = m / G + 1 ∧ (m + 1) % G = 0
    else (m + 1) / G = m / G ∧ (m + 1) % G = m % G + 1 := by
  have hlt := Nat.mod_lt m hG
  have hm := Nat.div_add_mod m G
  split
  · next h =>
    have he : m + 1 = G * (m / G + 1) := by
      rw [Nat.mul_add, Nat.mul_one]
      omega
    rw [he, Nat.mul_div_cancel_left _ hG, Nat.mul_mod_right]
    exact ⟨rfl, rfl⟩
  · next h =>
    have he : m + 1 = G * (m / G) + (m % G + 1) := by omega
    have hr : m % G + 1 < G := by omega
    constructor
    · rw [he, Nat.mul_add_div hG, Nat.div_eq_of_lt hr, Nat.add_zero]
    · rw [he, Nat.mul_add_mod, Nat.mod_eq_of_lt hr]

/-- The next push goes to the next place. -/
theorem Pushing.push (h : Pushing p w₀ inB K data m w) (hd : p.PowDim) (hK : w₀.kLen = K)
    (hpos : 0 < K / 4) (hmax : K ≤ p.maxK) (h256 : K < 256) (hm : m < p.dim * (K / 4)) :
    Pushing p w₀ inB K data (m + 1) (w.write p (pushWord inB) (data m)) := by
  have hlast : w.lastGrp = K / 4 - 1 := by
    rw [lastGrp, h.kLen, hK]
    omega
  have hlane : m / (K / 4) < p.dim := Nat.div_lt_of_lt_mul (by rwa [Nat.mul_comm])
  have hg := Nat.mod_lt m hpos
  have hnext := div_mod_succ (m := m) hpos
  have hkept : (w.write p (pushWord inB) (data m)).kLen = w.kLen ∧
      (w.write p (pushWord inB) (data m)).bPanelLoad = w.bPanelLoad := kept_write_push w (data m)
  have hrow : w.row p inB = w₀.row p inB := by
    funext r
    rw [row, row, h.panel]
  refine ⟨hkept.1.trans h.kLen, hkept.2.trans h.panel, ?_, ?_, ?_, fun lane g => ?_, fun lane r hr => ?_⟩
  · rw [loadK_write_push, hlast, h.loadK]
    split at hnext
    · next he => rw [if_pos he, hnext.2]
    · next he =>
      rw [if_neg he, hnext.2, p.two_pow_kGrpBits, Nat.mod_eq_of_lt]
      omega
  · rw [loadLane_write_push, hlast, h.loadK, h.loadLane, hd.two_pow_laneBits]
    split at hnext
    · next he => rw [if_pos he, hnext.1, Nat.mod_add_mod]
    · next he => rw [if_neg he, hnext.1]
  · rw [(mem_write_push w (data m)).2, h.other]
  · rw [place_write_push, h.loadLane, h.loadK, h.place, Nat.mod_eq_of_lt hlane]
    have hdiv := Nat.div_add_mod' m (K / 4)
    by_cases hc : m / (K / 4) = lane ∧ m % (K / 4) = g
    · obtain ⟨rfl, rfl⟩ := hc
      rw [if_pos ⟨rfl, rfl⟩, if_pos ⟨hg, by omega⟩, hdiv]
    · -- another place is not the one that is counted
      have hne : g < K / 4 → lane * (K / 4) + g ≠ m := by
        rintro hlt rfl
        refine hc ⟨?_, ?_⟩
        · rw [Nat.add_comm, Nat.add_mul_div_right _ _ hpos, Nat.div_eq_of_lt hlt, Nat.zero_add]
        · rw [Nat.mul_add_mod', Nat.mod_eq_of_lt hlt]
      have hiff : (g < K / 4 ∧ lane * (K / 4) + g < m + 1) ↔ g < K / 4 ∧ lane * (K / 4) + g < m := by
        constructor
        · rintro ⟨h₁, h₂⟩
          exact ⟨h₁, lt_of_le_of_ne (Nat.le_of_lt_succ h₂) (hne h₁)⟩
        · rintro ⟨h₁, h₂⟩
          exact ⟨h₁, Nat.lt_succ_of_lt h₂⟩
      rw [if_neg hc, if_congr hiff rfl rfl]
  · rw [(mem_write_push w (data m)).1, pushed, if_neg, h.rest lane r hr]
    rintro ⟨-, he⟩
    rw [hrow, h.loadK] at he
    exact hr _ hg he

/-- Four bytes of a lane, packed for a push. -/
def packWord (x : ℕ → Byte) (g : ℕ) :
    Word := x (4 * g + 3) ++ x (4 * g + 2) ++ x (4 * g + 1) ++ x (4 * g)

/-- The words of an operand with lanes of the length `K`, lane by lane. -/
def packed (K : ℕ) (x : ℕ → ℕ → Byte) (m : ℕ) : Word := packWord (x (m / (K / 4))) (m % (K / 4))

/-- The pushes of an operand. -/
def pushes (p : MmParams) (inB : Bool) (K : ℕ) (x : ℕ → ℕ → Byte) : List (BitVec 6 × Word) :=
  (List.range (p.dim * (K / 4))).map fun m => (pushWord inB, packed K x m)

/-- `LOAD_LANE` is set to zero, and an operand is pushed. -/
theorem pushing_writes (hd : p.PowDim) (hK : w₀.kLen = K) (hpos : 0 < K / 4)
    (hmax : K ≤ p.maxK) (h256 : K < 256) (x : ℕ → ℕ → Byte) :
    Pushing p w₀ inB K (packed K x) (p.dim * (K / 4)) (w₀.writes p ((4, 0) :: pushes p inB K x)) := by
  have hsteps : ∀ m ≤ p.dim * (K / 4), Pushing p w₀ inB K (packed K x) m
      ((w₀.write p 4 0).writes p ((List.range m).map fun m => (pushWord inB, packed K x m))) := by
    intro m hm
    induction m with
    | zero =>
      refine ⟨rfl, rfl, (Nat.zero_mod _).symm, ?_, by cases inB <;> rfl, fun lane g => ?_,
        fun lane r _ => ?_⟩
      · show 0 % 2 ^ p.laneBits = 0 / (K / 4) % p.dim
        rw [Nat.zero_mod, Nat.zero_div, Nat.zero_mod]
      · rw [if_neg fun h => Nat.not_lt_zero _ h.2]
        cases inB <;> rfl
      · cases inB <;> rfl
    | succ m ih =>
      rw [List.range_succ, List.map_append, writes, List.foldl_append]
      exact (ih (Nat.le_of_succ_le hm)).push hd hK hpos hmax h256 hm
  exact hsteps _ le_rfl

/-- After the last push the counters are back at the beginning. -/
theorem Pushing.ends (h : Pushing p w₀ inB K data (p.dim * (K / 4)) w) (hG : 0 < K / 4) :
    w.loadLane = 0 ∧ w.loadK = 0 := by
  refine ⟨h.loadLane.trans ?_, h.loadK.trans (Nat.mul_mod_left _ _)⟩
  rw [Nat.mul_div_cancel _ hG, Nat.mod_self]

/-- Another panel has other rows. -/
theorem Pushing.other_panel {m q u k : ℕ} (h : Pushing p w₀ true K data m w) (hq : q < p.bPanels)
    (hu : u < p.bPanels) (hpanel : w₀.bPanelLoad = q) (hne : u ≠ q) (hmax : K ≤ p.maxK)
    (hk : k < p.maxK) (lane : ℕ) :
    w.mem true lane (p.bAddr u (k / 16)) = w₀.mem true lane (p.bAddr u (k / 16)) := by
  have hpan : p.panel q ≠ p.panel u := by
    unfold MmParams.panel
    split
    · omega
    · exact Ne.symm hne
  have hlines := p.linesPerLane_mul
  refine h.rest lane _ fun g hg => ?_
  rw [row, if_pos rfl, hpanel]
  exact MmParams.bAddr_ne hpan (by omega) (by omega)

theorem rowByte_eq (l : Line) (k : ℕ) :
    rowByte l k = (linePart 4 l (k / 4 % 4)).extractLsb' (8 * (k % 4)) 8 := by
  rw [linePart, extractLsb'_extractLsb' _ (by omega), rowByte, show k / 4 % 4 * (8 * 4) + 8 *
    (k % 4) = 8 * (k % 16) by omega]

theorem extractLsb'_packWord (x : ℕ → Byte) (k : ℕ) :
    (packWord x (k / 4)).extractLsb' (8 * (k % 4)) 8 = x k := by
  have hk : k = 4 * (k / 4) + k % 4 := (Nat.div_add_mod k 4).symm
  have hj : k % 4 = 0 ∨ k % 4 = 1 ∨ k % 4 = 2 ∨ k % 4 = 3 := by omega
  generalize k / 4 = g at *
  apply BitVec.eq_of_getLsbD_eq
  intro i hi
  rcases hj with hj | hj | hj | hj <;> rw [hj] at hk ⊢ <;> subst hk <;> simp [packWord, hi] <;> grind

/-- The bytes of a pushed operand are in the buffers, and all others are what they were. -/
theorem Pushing.byte {x : ℕ → ℕ → Byte} (h : Pushing p w₀ inB K (packed K x) (p.dim * (K / 4)) w)
    (h4 : 4 ∣ K) (lane k : ℕ) :
    rowByte (w.mem inB lane (w.row p inB (k / 16))) k =
      if lane < p.dim ∧ k < K then x lane k
        else rowByte (w₀.mem inB lane (w₀.row p inB (k / 16))) k := by
  have hplace := h.place lane (k / 4)
  rw [Window.place, Window.place, Nat.div_div_eq_div_mul] at hplace
  obtain ⟨G, rfl⟩ := h4
  rw [Nat.mul_div_cancel_left G (by decide)] at hplace
  rw [rowByte_eq, rowByte_eq, hplace]
  -- The word of a byte beyond K was never pushed; the others are found in lane-major order.
  by_cases hk : k / 4 < G
  · have hiff : lane * G + k / 4 < p.dim * G ↔ lane < p.dim := by
      constructor
      · intro hlt
        by_contra hge
        have := Nat.mul_le_mul_right G (not_lt.1 hge)
        omega
      · intro hlt
        have := Nat.mul_le_mul_right G (Nat.succ_le_of_lt hlt)
        rw [Nat.succ_mul] at this
        omega
    by_cases hl : lane < p.dim
    · have hdiv : (lane * G + k / 4) / G = lane := by
        rw [Nat.add_comm, Nat.add_mul_div_right _ _ (by omega), Nat.div_eq_of_lt hk, Nat.zero_add]
      have hmod : (lane * G + k / 4) % G = k / 4 := by rw [Nat.mul_add_mod', Nat.mod_eq_of_lt hk]
      rw [if_pos ⟨hk, hiff.2 hl⟩, if_pos ⟨hl, by omega⟩, packed, Nat.mul_div_cancel_left G
        (by decide), hdiv, hmod, extractLsb'_packWord]
    · rw [if_neg fun h => hl (hiff.1 h.2), if_neg fun h => hl h.1]
  · rw [if_neg fun h => hk h.1, if_neg fun h => hk (by omega)]

end Window

/-! ## The writes of a run -/

section

open MmAccel

variable {p : MmParams} {σ : ℕ → MmAccel} {ι : ℕ → MmInputs}

theorem engineInv_of_isRun (h : (mmAccel p).IsRun σ ι) (n : ℕ) : (σ n).EngineInv := by
  induction n with
  | zero => exact IsReset.engineInv h.init
  | succ n ih =>
    rw [mmAccel_next h n]
    exact ih.next

/-- The writes that are accepted on the `n` cycles from `a` on. -/
def accepted (σ : ℕ → MmAccel) (ι : ℕ → MmInputs) (a n : ℕ) : List (BitVec 6 × Word) :=
  (List.range n).filterMap fun k => (σ (a + k)).accepts (ι (a + k))

theorem accepted_succ (a n : ℕ) :
    accepted σ ι a (n + 1) = accepted σ ι a n ++ ((σ (a + n)).accepts (ι (a + n))).toList := by
  rw [accepted, List.range_succ, List.filterMap_append, ← accepted]
  congr 1

/-- As long as `CTRL` is not written nothing runs, and what is behind the window is what has been
    written. -/
theorem window_accepted (h : (mmAccel p).IsRun σ ι) {a : ℕ} (ha : (σ a).Stopped) {n : ℕ}
    (hno : ∀ x ∈ accepted σ ι a n, x.1 ≠ 0) :
    (σ (a + n)).Stopped ∧ (σ (a + n)).window = (σ a).window.writes p (accepted σ ι a n) := by
  induction n with
  | zero => exact ⟨ha, rfl⟩
  | succ n ih =>
    rw [accepted_succ] at hno ⊢
    obtain ⟨hs, hw⟩ := ih fun x hx => hno x (List.mem_append_left _ hx)
    have hctrl : (σ (a + n)).writes (ι (a + n)) 0 = false := by
      cases hx : (σ (a + n)).accepts (ι (a + n)) with
      | none => exact writes_of_not_accepts hx 0
      | some x =>
        rw [(writes_of_accepts hx 0).1]
        exact beq_false_of_ne (hno x (List.mem_append_right _
          (by rw [hx]; exact List.mem_singleton_self x)))
    rw [← Nat.add_assoc, mmAccel_next h, hs.window_next, hw]
    refine ⟨hs.next hctrl, ?_⟩
    cases (σ (a + n)).accepts (ι (a + n)) with
    | none => rw [Option.toList_none, List.append_nil]
    | some x => rw [Option.toList_some, Window.writes, Window.writes, List.foldl_append]; rfl

/-! ## The reads of a run -/

namespace MmAccel

variable {s : MmAccel} {i : MmInputs} {acc : ℕ → ℕ → Word} {c : ℕ}

/-- What a read of `RESULT` returns that completes on a cycle. -/
def returns (p : MmParams) (s : MmAccel) (i : MmInputs) : Option Word :=
  if s.axi.rvalidReg && i.rready && s.axi.raddrWord == 8 then some (s.rdata p) else none

/-- The array rests, `c` results have been read, and the multiplexer has caught up whenever a read
    is outstanding. -/
structure Reading (p : MmParams) (acc : ℕ → ℕ → Word) (c : ℕ) (s : MmAccel) : Prop where
  rests : s.Rests acc
  idx : s.regs.resultIdx = c % (p.dim * p.dim)
  settled : s.axi.rState = .rResp → ∀ row, s.rowSelReg row = acc row (c % p.dim)

namespace Reading

/-- The result that is next is returned. -/
theorem returns_eq (h : Reading p acc c s) (hd : p.PowDim) (he : s.EngineInv) {v : Word}
    (hv : s.returns p i = some v) :
    v = acc (c / p.dim % p.dim) (c % p.dim) := by
  unfold returns at hv
  split at hv
  · next hc =>
    simp only [Bool.and_eq_true, beq_iff_eq] at hc
    have hresp : s.axi.rState = .rResp := by simpa [he.rvalid] using hc.1.1
    have hne : p.dim ≠ 1 := by
      obtain ⟨k, hk, hdim⟩ := hd
      have : 2 ^ 1 ≤ 2 ^ k := Nat.pow_le_pow_right (by decide) hk
      omega
    have hdata : s.rdata p = s.results p := by rw [rdata, hc.2]; rfl
    rw [← Option.some.inj hv, hdata, results, if_neg hne, h.settled hresp]
    simp only [hd.two_pow_idxBits]
    rw [h.idx, Nat.mod_mul_right_div_self, Nat.mod_mod]
  · cases hv

theorem next (h : Reading p acc c s) (hd : p.PowDim) (he : s.EngineInv) (hs : s.startAny i = false)
    (hw : s.writes i 7 = false) : Reading p acc (c + (s.returns p i).toList.length) (s.next p i) := by
  have hcfg : s.writesCfg i 7 = false := by rw [writesCfg, hw, Bool.false_and]
  have hsel : ∀ row, (s.next p i).rowSelReg row = acc row (c % p.dim) := by
    intro row
    show s.arr.acc row (s.regs.resultIdx % 2 ^ max 1 (log2Ceil p.dim)) = _
    rw [h.rests.acc, hd.two_pow_idxBits, h.idx, Nat.mod_mul_right_mod]
  by_cases hr : s.axi.rState = .rResp ∧ i.rready ∧ s.axi.raddrWord = 8
  · -- a result has been read, and the next one is selected
    obtain ⟨h₁, h₂, h₃⟩ := hr
    have hret : (s.returns p i).toList.length = 1 := by simp [returns, he.rvalid, h₁, h₂, h₃]
    rw [hret]
    refine ⟨h.rests.next hs, ?_, fun h' => ?_⟩
    · simp only [next_regs, nextRegs, hcfg, h₁, h₂, h₃, hd.two_pow_accBits, h.idx,
        Bool.false_eq_true, if_false]
      exact Nat.mod_add_mod c _ 1
    · simp [nextAxi, h₁, h₂] at h'
  · have hret : (s.returns p i).toList.length = 0 := by
      rw [returns, if_neg, Option.toList_none, List.length_nil]
      simpa [he.rvalid, and_assoc] using hr
    rw [hret, Nat.add_zero]
    refine ⟨h.rests.next hs, ?_, fun _ => hsel⟩
    rw [← h.idx]
    simp only [next_regs, nextRegs, hcfg, Bool.false_eq_true, if_false]
    rw [if_neg]
    simpa [and_assoc] using hr

end Reading

end MmAccel

/-- What the reads of `RESULT` return that complete on the `n` cycles from `a` on. -/
def resultReads (p : MmParams) (σ : ℕ → MmAccel) (ι : ℕ → MmInputs) (a n : ℕ) : List Word :=
  (List.range n).filterMap fun k => (σ (a + k)).returns p (ι (a + k))

/-- The master keeps asking for `RESULT`, and takes what it gets. -/
structure KeepsReading (σ : ℕ → MmAccel) (ι : ℕ → MmInputs) (a : ℕ) : Prop where
  asks : ∀ n ≥ a, (σ n).axi.rState = .rIdle → ∃ m ≥ n, (∀ k, n ≤ k → k < m →
    (ι k).arvalid = false) ∧
    (ι m).arvalid ∧ (ι m).araddr.extractLsb' 2 6 = 8
  takes : ∀ n ≥ a, ∃ m ≥ n, (ι m).rready

theorem resultReads_succ (a n : ℕ) :
    resultReads p σ ι a (n + 1) = resultReads p σ ι a n ++
      ((σ (a + n)).returns p (ι (a + n))).toList := by
  rw [resultReads, List.range_succ, List.filterMap_append, ← resultReads]
  congr 1

/-- A write of `RESULT_IDX = 0` sends the reads back to the beginning. -/
theorem reading_of_accepts (h : (mmAccel p).IsRun σ ι) {a : ℕ} (hs : (σ a).Stopped)
    (hw : (σ a).accepts (ι a) = some (7, 0)) (hidle : (σ (a + 1)).axi.rState = .rIdle) :
    Reading p (σ a).arr.acc 0 (σ (a + 1)) ∧ (σ (a + 1)).Stopped := by
  have hw₀ : (σ a).writes (ι a) 0 = false := (writes_of_accepts hw 0).1
  have hw₇ : (σ a).writesCfg (ι a) 7 := by rw [hs.writesCfg_eq, (writes_of_accepts hw 7).1]; rfl
  have hrests : (σ a).Rests (σ a).arr.acc := ⟨hs.arr, hs.en, fun _ _ => rfl⟩
  rw [mmAccel_next h] at hidle ⊢
  refine ⟨⟨hrests.next (hs.starts hw₀).1, ?_, fun hresp => ?_⟩, hs.next hw₀⟩
  · simp only [next_regs, nextRegs, hw₇, if_true, (writes_of_accepts hw 7).2]
    rfl
  · rw [hidle] at hresp
    cases hresp

/-- What has been read are the accumulators, row by row. -/
theorem reads_eq (h : (mmAccel p).IsRun σ ι) (hd : p.PowDim) {acc : ℕ → ℕ → Word} {a n : ℕ}
    (ha : Reading p acc 0 (σ a)) (hs : (σ a).Stopped)
    (hno : ∀ x ∈ accepted σ ι a n, x.1 ≠ 0 ∧ x.1 ≠ 7) :
    Reading p acc (resultReads p σ ι a n).length (σ (a + n)) ∧
      resultReads p σ ι a n =
        (List.range (resultReads p σ ι a n).length).map fun c =>
          acc (c / p.dim % p.dim) (c % p.dim) := by
  -- On the reads: each one moves the counters, and leaves the accumulators as they are.
  induction n with
  | zero => exact ⟨ha, rfl⟩
  | succ n ih =>
    have hno' : ∀ x ∈ accepted σ ι a n, x.1 ≠ 0 ∧ x.1 ≠ 7 := fun x hx =>
      hno x (by rw [accepted_succ]; exact List.mem_append_left _ hx)
    obtain ⟨hr, hl⟩ := ih hno'
    have hstop := (window_accepted h hs fun x hx => (hno' x hx).1).1
    -- Neither CTRL nor the result index is written meanwhile.
    have hw : ∀ k, (k = 0 ∨ k = 7) → (σ (a + n)).writes (ι (a + n)) k = false := by
      intro k hk
      cases hx : (σ (a + n)).accepts (ι (a + n)) with
      | none => exact writes_of_not_accepts hx k
      | some x =>
        have hmem := hno x <| by
          rw [accepted_succ, hx]
          exact List.mem_append_right _ (List.mem_singleton_self x)
        rw [(writes_of_accepts hx k).1]
        rcases hk with rfl | rfl
        · exact beq_false_of_ne hmem.1
        · exact beq_false_of_ne hmem.2
    have he := engineInv_of_isRun h (a + n)
    rw [resultReads_succ, List.length_append, ← Nat.add_assoc, mmAccel_next h]
    refine ⟨hr.next hd he (hstop.starts (hw 0 (.inl rfl))).1 (hw 7 (.inr rfl)), ?_⟩
    cases hv : (σ (a + n)).returns p (ι (a + n)) with
    | none => simpa using hl
    | some v =>
      rw [Option.toList_some, List.length_singleton, List.range_succ, List.map_append, ← hl,
        hr.returns_eq hd he hv]
      rfl

/-- A read that is outstanding completes. -/
theorem exists_taken (h : (mmAccel p).IsRun σ ι) {a n : ℕ} (hk : KeepsReading σ ι a) (hn : a ≤ n)
    (hr : (σ n).axi.rState = .rResp) :
    ∃ m ≥ n, (σ m).axi.rState = .rResp ∧ (σ m).axi.raddrWord = (σ n).axi.raddrWord ∧
      (ι m).rready := by
  have hex : ∃ d, (ι (n + d)).rready := by
    obtain ⟨m, hm, hrdy⟩ := hk.takes n hn
    exact ⟨m - n, by rwa [Nat.add_sub_cancel' hm]⟩
  obtain ⟨hrdy, hmin⟩ := And.intro (Nat.find_spec hex) fun m => Nat.find_min (m := m) hex
  generalize Nat.find hex = d at *
  have hold : ∀ j ≤ d, (σ (n + j)).axi.rState = .rResp ∧
      (σ (n + j)).axi.raddrWord = (σ n).axi.raddrWord := by
    intro j hj
    induction j with
    | zero => exact ⟨hr, rfl⟩
    | succ j ih =>
      obtain ⟨h₁, h₂⟩ := ih (Nat.le_of_succ_le hj)
      have hno : (ι (n + j)).rready = false := Bool.eq_false_iff.2 (hmin j hj)
      rw [← Nat.add_assoc, mmAccel_next h]
      simp [nextAxi, h₁, h₂, hno]
  exact ⟨n + d, Nat.le_add_right n d, (hold d le_rfl).1, (hold d le_rfl).2, hrdy⟩

/-- A result is read sooner or later. -/
theorem exists_returns (h : (mmAccel p).IsRun σ ι) {a n : ℕ} (hk : KeepsReading σ ι a) (hn : a ≤ n) :
    ∃ m ≥ n, ∃ v, (σ m).returns p (ι m) = some v := by
  -- from an idle channel the next read is one of `RESULT`
  have hidle : ∀ n ≥ a, (σ n).axi.rState = .rIdle →
      ∃ m ≥ n, ∃ v, (σ m).returns p (ι m) = some v := by
    intro n hn hr
    obtain ⟨m, hm, hno, hask, hword⟩ := hk.asks n hn hr
    have hwait : ∀ j, n ≤ j → j ≤ m → (σ j).axi.rState = .rIdle := by
      intro j hj
      induction j, hj using Nat.le_induction with
      | base => exact fun _ => hr
      | succ j hj ih =>
        intro hle
        rw [mmAccel_next h]
        simp [nextAxi, ih (Nat.le_of_succ_le hle), hno j hj hle]
    have hm' := hwait m hm le_rfl
    have hresp : (σ (m + 1)).axi.rState = .rResp ∧ (σ (m + 1)).axi.raddrWord = 8 := by
      rw [mmAccel_next h]
      simp [nextAxi, hm', hask, hword]
    obtain ⟨k, hge, h₁, h₂, h₃⟩ := exists_taken h hk (n := m + 1) (by omega) hresp.1
    have hv : (σ k).axi.rvalidReg := by rw [(engineInv_of_isRun h k).rvalid, h₁]; rfl
    exact ⟨k, by omega, _, if_pos (by rw [hv, h₃, h₂, hresp.2]; rfl)⟩
  cases hr : (σ n).axi.rState with
  | rIdle => exact hidle n hn hr
  | rResp =>
    obtain ⟨m, hm, h₁, -, h₃⟩ := exists_taken h hk hn hr
    have hr' : (σ (m + 1)).axi.rState = .rIdle := by
      rw [mmAccel_next h]
      simp [nextAxi, h₁, h₃]
    obtain ⟨k, hge, hv⟩ := hidle (m + 1) (by omega) hr'
    exact ⟨k, by omega, hv⟩

/-- A master that keeps reading gets as many results as it wants. -/
theorem exists_length_resultReads (h : (mmAccel p).IsRun σ ι) {a : ℕ}
    (hk : KeepsReading σ ι a) (q : ℕ) :
    ∃ n, (resultReads p σ ι a n).length = q := by
  have hmono : ∀ n m, n ≤ m → (resultReads p σ ι a n).length ≤ (resultReads p σ ι a m).length := by
    intro n m hnm
    induction m, hnm using Nat.le_induction with
    | base => exact le_rfl
    | succ m _ ih =>
      rw [resultReads_succ, List.length_append]
      exact ih.trans (Nat.le_add_right _ _)
  refine Circuit.exists_eq_of_grows rfl (fun n => ?_) (fun n => ?_) q
  · rw [resultReads_succ, List.length_append]
    cases (σ (a + n)).returns p (ι (a + n)) <;> simp
  · obtain ⟨m, hm, v, hv⟩ := exists_returns (p := p) h hk (Nat.le_add_right a n)
    obtain ⟨d, rfl⟩ := Nat.exists_eq_add_of_le ((Nat.le_add_right a n).trans hm)
    refine ⟨d + 1, by omega, ?_⟩
    rw [resultReads_succ, List.length_append, hv]
    exact Nat.lt_succ_of_le (hmono n d (by omega))

/-! ## The window -/

/-- No engine runs, with `K` in `K_LEN` and `q` in `B_PANEL_LOAD`. -/
structure MmAccel.Ready (K q : ℕ) (s : MmAccel) : Prop where
  arr : s.arr.busy = false
  ld : s.ld.ldBusy = false
  queue : s.q.qBusy = false
  kLen : s.regs.kLen = K
  panel : s.regs.bPanelLoad = q

theorem MmAccel.Ready.stopped {s : MmAccel} {K q : ℕ} (h : s.Ready K q) (he : s.EngineInv) : s.Stopped :=
  he.stopped h.arr h.ld h.queue

/-- What a window and the engines are like after an operand has been pushed. -/
theorem pushing_of_accepted (h : (mmAccel p).IsRun σ ι) (hd : p.PowDim) {K q a n : ℕ} {inB : Bool}
    {x : ℕ → ℕ → Byte} (hpos : 0 < K) (h4 : 4 ∣ K) (hmax : K ≤ p.maxK) (hr : (σ a).Ready K q)
    (hacc : accepted σ ι a n = (4, 0) :: Window.pushes p inB K x) :
    Window.Pushing p (σ a).window inB K (Window.packed K x) (p.dim * (K / 4)) (σ (a + n)).window ∧
      (σ (a + n)).Ready K q := by
  have he := engineInv_of_isRun h a
  have hK4 : 0 < K / 4 := Nat.div_pos (Nat.le_of_dvd hpos h4) (by decide)
  have hno : ∀ y ∈ accepted σ ι a n, y.1 ≠ 0 := by
    intro y hy
    rw [hacc, Window.pushes] at hy
    rcases List.mem_cons.1 hy with rfl | hy
    · decide
    · obtain ⟨m, -, rfl⟩ := List.mem_map.1 hy
      show Window.pushWord inB ≠ 0
      cases inB <;> decide
  obtain ⟨hs, hw⟩ := window_accepted h (hr.stopped he) hno
  have hp : Window.Pushing p (σ a).window inB K (Window.packed K x) (p.dim * (K / 4))
      ((σ a).window.writes p ((4, 0) :: Window.pushes p inB K x)) :=
    Window.pushing_writes hd hr.kLen hK4 hmax (hr.kLen ▸ he.kLen) x
  rw [← hacc, ← hw] at hp
  exact ⟨hp, hs.arr, hs.ld, (engineInv_of_isRun h (a + n)).run.symm.trans hs.run, hp.kLen.trans hr.kLen,
    hp.panel.trans hr.panel⟩

/-- With no engine running, `LOAD_LANE = 0` and the packed words of an operand, lane by lane and
    with any spacing, leave exactly the operand in its buffers, and the registers at their
    beginning. After `RESULT_IDX = 0` the reads of `RESULT` return the accumulators row by row, with
    any timing of the channel, and a master that keeps reading gets all of them. -/
theorem window_of_isRun (h : (mmAccel p).IsRun σ ι) (hd : p.PowDim) {K q a : ℕ}
    (hpos : 0 < K) (h4 : 4 ∣ K) (hmax : K ≤ p.maxK) (hq : q < p.bPanels) (hr : (σ a).Ready K q) :
    (∀ (A : ℕ → ℕ → Byte) n, accepted σ ι a n = (4, 0) :: Window.pushes p false K A →
      (∀ i k, (σ (a + n)).buf.aByte i k = if i < p.dim ∧ k < K then A i k else (σ a).buf.aByte i k) ∧
      (σ (a + n)).buf.bMem = (σ a).buf.bMem ∧
      (σ (a + n)).regs.loadLane = 0 ∧ (σ (a + n)).regs.loadK = 0 ∧ (σ (a + n)).Ready K q) ∧
    (∀ (B : ℕ → ℕ → Byte) n, accepted σ ι a n = (4, 0) :: Window.pushes p true K B →
      (∀ u < p.bPanels, ∀ j, ∀ k < p.maxK, (σ (a + n)).buf.bByte p u j k =
        if u = q ∧ j < p.dim ∧ k < K then B j k else (σ a).buf.bByte p u j k) ∧
      (σ (a + n)).buf.aMem = (σ a).buf.aMem ∧
      (σ (a + n)).regs.loadLane = 0 ∧ (σ (a + n)).regs.loadK = 0 ∧ (σ (a + n)).Ready K q) ∧
    ((σ a).accepts (ι a) = some (7, 0) → (σ (a + 1)).axi.rState = .rIdle →
      (∀ n, (∀ x ∈ accepted σ ι (a + 1) n, x.1 ≠ 0 ∧ x.1 ≠ 7) →
        (resultReads p σ ι (a + 1) n).length ≤ p.dim * p.dim →
        resultReads p σ ι (a + 1) n = (List.range (resultReads p σ ι (a + 1) n).length).map fun c =>
          (σ a).arr.acc (c / p.dim) (c % p.dim)) ∧
      (KeepsReading σ ι (a + 1) → ∃ n, (resultReads p σ ι (a + 1) n).length = p.dim * p.dim)) := by
  have hG : 0 < K / 4 := Nat.div_pos (Nat.le_of_dvd hpos h4) (by decide)
  refine ⟨fun A n hacc => ?_, fun B n hacc => ?_, fun hw hidle => ⟨fun n hno hle => ?_, fun hk => ?_⟩⟩
  · obtain ⟨hp, hr'⟩ := pushing_of_accepted h hd hpos h4 hmax hr hacc
    exact ⟨fun i k => hp.byte h4 i k, hp.other, (hp.ends hG).1, (hp.ends hG).2, hr'⟩
  · obtain ⟨hp, hr'⟩ := pushing_of_accepted h hd hpos h4 hmax hr hacc
    refine ⟨fun u hu j k hk => ?_, hp.other, (hp.ends hG).1, (hp.ends hG).2, hr'⟩
    by_cases huq : u = q
    · have hpan : (σ (a + n)).window.bPanelLoad = q := hr'.panel
      have hpan₀ : (σ a).window.bPanelLoad = q := hr.panel
      have hbyte := hp.byte h4 j k
      simp only [Window.mem, Window.row, if_true, hpan, hpan₀] at hbyte
      rw [huq, if_congr (and_iff_right rfl) rfl rfl]
      exact hbyte
    · rw [if_neg fun h => huq h.1]
      exact congrArg (rowByte · k) (hp.other_panel hq hu hr.panel huq hmax hk j)
  · obtain ⟨hread, hstop⟩ := reading_of_accepts h (hr.stopped (engineInv_of_isRun h a)) hw hidle
    rw [(reads_eq h hd hread hstop hno).2, List.length_map, List.length_range]
    refine List.map_congr_left fun c hc => ?_
    have hlt : c < p.dim * p.dim := (List.mem_range.1 hc).trans_le hle
    rw [Nat.mod_eq_of_lt (Nat.div_lt_of_lt_mul hlt)]
  · exact exists_length_resultReads h hk _

/-! ### A run -/

/-- `K_LEN` is set to `4`, and A is pushed, with a read of `STATUS` in between. -/
def pushTwoLanes (n : ℕ) : MmInputs :=
  match n with
  | 0 => .write 2 4
  | 2 => .write 4 0
  | 4 => .write 5 0x04030201
  | 5 => { MmInputs.quiet with arvalid := true, araddr := 4, rready := true }
  | 7 => .write 5 0x08070605
  | _ => .quiet

theorem pushTwoLanes_bytes :
    accepted (mmTrace pushTwoLanes) pushTwoLanes 2 6 = [(4, 0), (5, 0x04030201), (5, 0x08070605)] ∧
      ∀ i < 2, ∀ k < 4, (mmTrace pushTwoLanes 8).buf.aByte i k = BitVec.ofNat 8 (4 * i + k + 1) := by
  have hacc : accepted (mmTrace pushTwoLanes) pushTwoLanes 2 6 = [(4, 0), (5, 0x04030201),
      (5, 0x08070605)] := by
    decide +kernel
  have hpushes : (Window.pushes mmDefault false 4 fun i k => BitVec.ofNat 8 (4 * i + k + 1)) =
      [(5, 0x04030201), (5, 0x08070605)] := by
    decide +kernel
  have hready : (mmTrace pushTwoLanes 2).Ready 4 0 :=
    ⟨by decide +kernel, by decide +kernel, by decide +kernel, by decide +kernel, by decide +kernel⟩
  have hA := (window_of_isRun (isRun_mmTrace pushTwoLanes) ⟨1, le_rfl,
    rfl⟩ (by decide) (by decide) (by decide)
    (by decide) hready).1 (fun i k => BitVec.ofNat 8 (4 * i + k + 1)) 6 (hacc.trans (by rw [hpushes]))
  exact ⟨hacc, fun i hi k hk => (hA.1 i k).trans (if_pos ⟨hi, hk⟩)⟩

end

end Rv32Soc
