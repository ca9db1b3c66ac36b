import Mathlib.Algebra.BigOperators.Group.Finset.Basic
import Mathlib.Algebra.BigOperators.Intervals
import Mathlib.Algebra.Order.BigOperators.Group.Finset
import Mathlib.Tactic.Linarith
import Rv32Soc.Accel.Sequencer

/-!
# What the array computes

The byte `k` of row `i` reaches the element `(i, j)` together with the byte `k` of column
`j`, on the cycle `k + i + j` of a run. So on the cycle `i + j` the element is
cleared with the first product, and what is left from before never counts.

* `Feeding`: the state of the array on the cycle `t` of a run, with what each element has
  let through and accumulated; one edge leads from `t` to `t + 1` (`Feeding.next`);
* `dotProduct`: the sum of the products, in the width of an accumulator;
* `array_of_run`: when `done` rises, every accumulator holds its dot product, and keeps it
  until the next start.
-/

namespace Rv32Soc

/-! ## Sums of products -/

/-- The first `n` products of two sequences of signed bytes, modulo `2 ^ 32`. -/
def dotProduct (a b : ℕ → Byte) (n : ℕ) : Word :=
  BitVec.ofInt 32 (∑ k ∈ Finset.range n, (a k).toInt * (b k).toInt)

theorem signedProduct_eq (a b : Byte) : signedProduct a b = BitVec.ofInt 32 (a.toInt * b.toInt) := by
  have ha₁ := a.le_two_mul_toInt
  have ha₂ := a.two_mul_toInt_lt
  have hb₁ := b.le_two_mul_toInt
  have hb₂ := b.two_mul_toInt_lt
  have hm : (a.signExtend 16 * b.signExtend 16).toInt = a.toInt * b.toInt := by
    rw [BitVec.toInt_mul, BitVec.toInt_signExtend_of_le (by decide),
      BitVec.toInt_signExtend_of_le (by decide)]
    norm_num at ha₁ ha₂ hb₁ hb₂
    exact Int.bmod_eq_of_le_mul_two (by norm_num; nlinarith) (by norm_num; nlinarith)
  rw [signedProduct, BitVec.signExtend, hm]

theorem dotProduct_succ (a b : ℕ → Byte) (n : ℕ) :
    dotProduct a b (n + 1) = dotProduct a b n + signedProduct (a n) (b n) := by
  rw [dotProduct, dotProduct, signedProduct_eq, Finset.sum_range_succ, BitVec.ofInt_add]

theorem dotProduct_one (a b : ℕ → Byte) : dotProduct a b 1 = signedProduct (a 0) (b 0) := by
  rw [dotProduct, signedProduct_eq, Finset.sum_range_one]

theorem dotProduct_congr {a a' b b' : ℕ → Byte} {n : ℕ} (h : ∀ k < n, a k = a' k ∧ b k = b' k) :
    dotProduct a b n = dotProduct a' b' n := by
  rw [dotProduct, dotProduct]
  refine congrArg _ (Finset.sum_congr rfl fun k hk => ?_)
  rw [(h k (Finset.mem_range.1 hk)).1, (h k (Finset.mem_range.1 hk)).2]

/-- Bytes beyond the length count as zero. -/
def upTo (n : ℕ) (a : ℕ → Byte) (k : ℕ) : Byte := if k < n then a k else 0

theorem dotProduct_upTo {a b : ℕ → Byte} {n m : ℕ} (h : n ≤ m) :
    dotProduct (upTo n a) (upTo n b) m = dotProduct a b n := by
  rw [dotProduct, dotProduct, ← Finset.sum_subset (Finset.range_mono h)]
  · refine congrArg _ (Finset.sum_congr rfl fun k hk => ?_)
    rw [upTo, upTo, if_pos (Finset.mem_range.1 hk), if_pos (Finset.mem_range.1 hk)]
  · intro k _ hk
    rw [upTo, if_neg fun h => hk (Finset.mem_range.2 h)]
    exact zero_mul _

/-! ## The elements -/

namespace SystolicArray

variable {p : MmParams} {s : SystolicArray} {buf : OperandBuffers} {K t : ℕ} {a b : ℕ → ℕ → Byte}

/-- What the elements have let through and accumulated on the cycle `t` of a run of the length `K`
    over the rows `a` and the columns `b`. -/
structure Fed (K : ℕ) (a b : ℕ → ℕ → Byte) (t : ℕ) (s : SystolicArray) : Prop where
  aReg : ∀ i j, i + j < t → (s.pes i j).aReg = upTo K (a i) (t - 1 - i - j)
  bReg : ∀ i j, i + j < t → (s.pes i j).bReg = upTo K (b j) (t - 1 - i - j)
  acc : ∀ i j, i + j < t → s.acc i j = dotProduct (upTo K (a i)) (upTo K (b j)) (t - i - j)

theorem fed_zero (s : SystolicArray) : s.Fed K a b 0 where
  aReg _ _ h := absurd h (Nat.not_lt_zero _)
  bReg _ _ h := absurd h (Nat.not_lt_zero _)
  acc _ _ h := absurd h (Nat.not_lt_zero _)

/-- The edges of the array are fed with the bytes of the rows and the columns. -/
structure Feeds (K : ℕ) (a b : ℕ → ℕ → Byte) (t : ℕ) (s : SystolicArray) (buf : OperandBuffers) :
    Prop where
  aEdge : ∀ i ≤ t, s.aEdge buf K i = upTo K (a i) (t - i)
  bEdge : ∀ j ≤ t, s.bEdge buf K j = upTo K (b j) (t - j)

theorem Fed.aIn_eq (h : s.Fed K a b t) (he : s.Feeds K a b t buf) {i j : ℕ} (hij : i + j ≤ t) :
    s.aIn buf K i j = upTo K (a i) (t - i - j) := by
  unfold aIn
  split
  · next hj => rw [hj, he.aEdge i (by omega), Nat.sub_zero]
  · next hj => rw [h.aReg i (j - 1) (by omega), show t - 1 - i - (j - 1) = t - i - j by omega]

theorem Fed.bIn_eq (h : s.Fed K a b t) (he : s.Feeds K a b t buf) {i j : ℕ} (hij : i + j ≤ t) :
    s.bIn buf K i j = upTo K (b j) (t - i - j) := by
  unfold bIn
  split
  · next hi => rw [hi, he.bEdge j (by omega), Nat.sub_zero]
  · next hi => rw [h.bReg (i - 1) j (by omega), show t - 1 - (i - 1) - j = t - i - j by omega]

/-- One cycle further, every element has taken in one more pair. -/
theorem Fed.next (h : s.Fed K a b t) (he : s.Feeds K a b t buf) (ht : s.t = t)
    (hen : ∀ i j, s.peEn i j = true) (r st : Bool) : (s.next p buf K r st).Fed K a b (t + 1) := by
  have hp : ∀ i j, (s.next p buf K r st).pes i j =
      (s.pes i j).next true (t == i + j) (s.aIn buf K i j) (s.bIn buf K i j) := by
    intro i j
    rw [← ht, ← hen i j]
    rfl
  refine ⟨fun i j hij => ?_, fun i j hij => ?_, fun i j hij => ?_⟩
  · rw [hp, SystolicPE.next, if_pos rfl, h.aIn_eq he (Nat.le_of_lt_succ hij), Nat.add_sub_cancel]
  · rw [hp, SystolicPE.next, if_pos rfl, h.bIn_eq he (Nat.le_of_lt_succ hij), Nat.add_sub_cancel]
  · rw [SystolicArray.acc, hp, SystolicPE.next, if_pos rfl, h.aIn_eq he (Nat.le_of_lt_succ hij),
      h.bIn_eq he (Nat.le_of_lt_succ hij)]
    rcases (Nat.le_of_lt_succ hij).eq_or_lt with hc | hc
    · -- the first pair clears what is left from before
      rw [show t + 1 - i - j = 1 by omega, dotProduct_one, show t - i - j = 0 by omega]
      simp [hc]
    · have hs := h.acc i j hc
      rw [SystolicArray.acc] at hs
      rw [show t + 1 - i - j = t - i - j + 1 by omega, dotProduct_succ, ← hs]
      simp [hc.ne']

end SystolicArray

/-! ## The operand buffers -/

namespace MmParams

variable (p : MmParams)

/-- The panel of B that a panel number selects: with one panel the number does not matter. -/
def panel (n : ℕ) : ℕ := if p.bPanels = 1 then 0 else n

theorem bAddr_eq (n r : ℕ) : p.bAddr n r = p.panel n * p.linesPerLane + r := by
  unfold bAddr panel
  split <;> simp

theorem linesPerLane_pos : 0 < p.linesPerLane := by
  have := p.linesPerLane_mul
  have := p.maxK_ge
  omega

variable {p}

theorem bAddr_ne {n m r r' : ℕ} (h : p.panel n ≠ p.panel m) (hr : r < p.linesPerLane)
    (hr' : r' < p.linesPerLane) :
    p.bAddr n r ≠ p.bAddr m r' := by
  rw [bAddr_eq, bAddr_eq]
  intro he
  have hd := congrArg (· / p.linesPerLane) he
  simp only [Nat.mul_add_div p.linesPerLane_pos, Nat.div_eq_of_lt hr, Nat.div_eq_of_lt hr', add_zero,
    Nat.mul_comm _ p.linesPerLane] at hd
  exact h hd

end MmParams

namespace MmAccel

variable {p : MmParams} {s : MmAccel} {i : MmInputs}

/-- The row that a line goes to is in its lane. -/
theorem ldRow_lt (h : s.ld.ldChunk < 2 ^ p.lplBits) : s.ldRow p < p.linesPerLane := by
  unfold ldRow
  split
  · next h₁ => rw [h₁]; decide
  · next h₁ =>
    obtain ⟨j, hj, -⟩ := p.linesPerLane_pow
    have hj₁ : 1 ≤ j := by
      rcases j with _ | j
      · exact absurd hj h₁
      · omega
    have hl : p.lplBits ≤ j := by
      rw [MmParams.lplBits, hj]
      exact max_le (log2Ceil_le le_rfl) hj₁
    exact h.trans_le (hj ▸ Nat.pow_le_pow_right (by decide) hl)

/-- While the array runs nothing is pushed. -/
theorem push_of_busy (hb : s.arr.busy) : s.pushA i = false ∧ s.pushB i = false := by
  simp [pushA, pushB, writesCfg, hb]

/-- A line that goes to B, and to another panel, leaves A and a panel of B alone. -/
theorem nextBuf_of_busy (hb : s.arr.busy) (hc : s.ld.ldChunk < 2 ^ p.lplBits) {u : ℕ}
    (hl : s.captures i → s.ld.ldInB ∧ p.panel s.regs.bPanelLoad ≠ p.panel u) :
    (s.nextBuf p i).aMem = s.buf.aMem ∧
      ∀ j, ∀ r < p.linesPerLane, (s.nextBuf p i).bMem j (p.bAddr u r) = s.buf.bMem j (p.bAddr u r) := by
  obtain ⟨ha, hb'⟩ := push_of_busy (i := i) hb
  have hw : ∀ lane, s.laneWrite p i lane =
      if s.captures i && s.ld.ldLane == lane then some
        { aWen := !s.ld.ldInB
          bWen := s.ld.ldInB
          aWrow := s.ldRow p
          bWrow := p.bAddr s.regs.bPanelLoad (s.ldRow p)
          write := fun _ => i.memRline }
      else none := by
    intro lane
    simp [laneWrite, ha, hb']
  refine ⟨?_, fun j r hr => ?_⟩
  · funext lane r
    simp only [nextBuf, OperandBuffers.next, hw]
    by_cases hcap : s.captures i && s.ld.ldLane == lane
    · rw [if_pos hcap]
      rw [Bool.and_eq_true] at hcap
      simp [(hl hcap.1).1]
    · rw [if_neg hcap]
  · simp only [nextBuf, OperandBuffers.next, hw]
    by_cases hcap : s.captures i && s.ld.ldLane == j
    · rw [if_pos hcap]
      rw [Bool.and_eq_true] at hcap
      have hne := MmParams.bAddr_ne (hl hcap.1).2 (ldRow_lt hc) hr
      simp [hne]
    · rw [if_neg hcap]

/-! ## A run -/

variable {K U t : ℕ} {a b : ℕ → ℕ → Byte}

/-- The accelerator on the cycle `t` of a run of the length `K` with the panel `U`, over the rows `a`
    and the columns `b`. -/
structure Feeding (p : MmParams) (K U : ℕ) (a b : ℕ → ℕ → Byte) (t : ℕ) (s : MmAccel) : Prop where
  busy : s.arr.busy = true
  done : s.arr.done = false
  cycle : s.arr.t = t
  en : ∀ i j, s.arr.peEn i j = true
  aByte : ∀ i, ∀ k < K, s.buf.aByte i k = a i k
  bByte : ∀ j, ∀ k < K, s.buf.bByte p U j k = b j k
  aRow : ∀ i ≤ t, t - i < K → s.buf.aRow i = (t - i) / 16
  bRow : ∀ j ≤ t, t - j < K → s.buf.bRow j = p.bAddr U ((t - j) / 16)
  fed : s.arr.Fed K a b t

namespace Feeding

theorem feeds (h : Feeding p K U a b t s) : s.arr.Feeds K a b t s.buf := by
  refine ⟨fun i hi => ?_, fun j hj => ?_⟩
  · unfold SystolicArray.aEdge SystolicArray.kIdx upTo
    rw [h.cycle]
    by_cases hk : t - i < K
    · rw [if_pos ⟨hi, hk⟩, if_pos hk, ← h.aByte i _ hk]
      simp only [h.aRow i hi hk, OperandBuffers.aByte]
    · rw [if_neg fun hc => hk hc.2, if_neg hk]
  · unfold SystolicArray.bEdge SystolicArray.kIdx upTo
    rw [h.cycle]
    by_cases hk : t - j < K
    · rw [if_pos ⟨hj, hk⟩, if_pos hk, ← h.bByte j _ hk]
      simp only [h.bRow j hj hk, OperandBuffers.bByte]
    · rw [if_neg fun hc => hk hc.2, if_neg hk]

end Feeding

/-- The row that is read one cycle ahead. -/
theorem rowNext_eq (arr : SystolicArray) (ht : arr.t + 1 < 256) {i : ℕ} (hi : i ≤ arr.t + 1)
    (hk : arr.t + 1 - i < K) (hK : K ≤ p.maxK) : arr.rowNext p false i = (arr.t + 1 - i) / 16 := by
  have hm := p.linesPerLane_mul
  have h₁ : ((arr.t : ℤ) + 1).bmod 512 = arr.t + 1 := Int.bmod_eq_of_le_mul_two (by omega) (by omega)
  have h₂ : (2 : ℤ) ^ 9 ≤ (2 : ℤ) ^ max 9 (log2Ceil (i + 1) + 1) := by
    exact pow_le_pow_right₀ (by decide) (le_max_left _ _)
  have h₃ : ((arr.t : ℤ) + 1 - i).bmod (2 ^ max 9 (log2Ceil (i + 1) + 1)) = arr.t + 1 - i := by
    refine Int.bmod_eq_of_le_mul_two ?_ ?_ <;> push_cast <;> omega
  simp only [SystolicArray.rowNext, h₁, h₃, if_neg Bool.false_ne_true]
  rw [show ((arr.t : ℤ) + 1 - i).toNat = arr.t + 1 - i by omega]
  exact Nat.mod_eq_of_lt (by omega)

namespace Feeding

/-- What a cycle of a run leaves in the buffers. -/
theorem bytes_next (h : Feeding p K U a b t s) (hc : s.ld.ldChunk < 2 ^ p.lplBits) (hK : K ≤ p.maxK)
    (hl : s.captures i → s.ld.ldInB ∧ p.panel s.regs.bPanelLoad ≠ p.panel U) :
    (∀ l, ∀ k < K, (s.next p i).buf.aByte l k = a l k) ∧
      ∀ l, ∀ k < K, (s.next p i).buf.bByte p U l k = b l k := by
  obtain ⟨h₁, h₂⟩ := nextBuf_of_busy h.busy hc hl
  have hm := p.linesPerLane_mul
  refine ⟨fun l k hk => ?_, fun l k hk => ?_⟩
  · rw [← h.aByte l k hk, next_buf, OperandBuffers.aByte, h₁, OperandBuffers.aByte]
  · rw [← h.bByte l k hk, next_buf, OperandBuffers.bByte, h₂ l _ (by omega), OperandBuffers.bByte]

/-- One edge leads from a cycle of a run to the next one. -/
theorem next (h : Feeding p K U a b t s) (hkLen : s.regs.kLen = K) (hU : s.regs.bPanelUse = U)
    (hc : s.ld.ldChunk < 2 ^ p.lplBits) (hK : K ≤ p.maxK) (ht : t + 1 < 256)
    (hlast : t ≠ SystolicArray.lastT p K) (hr : s.softRstPulse i = false) (hs : s.startAny i = false)
    (hl : s.captures i → s.ld.ldInB ∧ p.panel s.regs.bPanelLoad ≠ p.panel U) :
    Feeding p K U a b (t + 1) (s.next p i) := by
  have hbusy : s.arr.busyNext p K false false = true := by
    simp [SystolicArray.busyNext, h.busy, h.cycle, hlast]
  obtain ⟨ha, hb⟩ := h.bytes_next hc hK hl
  have hrow : ∀ l ≤ t + 1, t + 1 - l < K → s.arr.rowNext p false l = (t + 1 - l) / 16 := by
    rw [← h.cycle]
    exact fun l hl hk => rowNext_eq s.arr (h.cycle ▸ ht) hl hk hK
  refine ⟨?_, ?_, ?_, fun _ _ => ?_, ha, hb, fun l hl hk => ?_, fun l hl hk => ?_, ?_⟩
  · rw [next_arr, hkLen, hr, hs]
    exact hbusy
  · rw [next_arr, hkLen, hr, hs, SystolicArray.next]
    simp [h.done, h.cycle, hlast]
  · rw [next_arr, hr, hs, SystolicArray.next]
    simp [h.busy, h.cycle, Nat.mod_eq_of_lt ht]
  · rw [next_arr, hkLen, hr, hs]
    exact hbusy
  · rw [next_buf, nextBuf, hs]
    exact hrow l hl hk
  · rw [next_buf, nextBuf, hs, hU]
    exact congrArg (p.bAddr U) (hrow l hl hk)
  · rw [next_arr, hkLen]
    exact h.fed.next h.feeds h.cycle h.en _ _

end Feeding

/-- A start leads to the first cycle of a run, over what the buffers then hold. -/
theorem feeding_of_startAny (hr : s.softRstPulse i = false) (hs : s.startAny i)
    (hU : s.regs.bPanelUse = U) :
    Feeding p K U (s.next p i).buf.aByte ((s.next p i).buf.bByte p U) 0 (s.next p i) := by
  have hb : s.arr.busyNext p s.regs.kLen false true = true := rfl
  have hrow : s.arr.rowNext p true 0 = 0 := by simp [SystolicArray.rowNext]
  refine ⟨?_, ?_, ?_, fun _ _ => ?_, fun _ _ _ => rfl, fun _ _ _ => rfl, fun l hl _ => ?_,
    fun l hl _ => ?_, ?_⟩
  · rw [next_arr, hr, hs]
    exact hb
  · rw [next_arr, hr, hs]
    rfl
  · rw [next_arr, hr, hs]
    rfl
  · rw [next_arr, hr, hs]
    exact hb
  · rw [next_buf, nextBuf, hs, Nat.le_zero.1 hl]
    exact hrow
  · rw [next_buf, nextBuf, hs, hU, Nat.le_zero.1 hl]
    exact congrArg (p.bAddr U) hrow
  · exact SystolicArray.fed_zero _

/-- A chunk fits its register. -/
theorem ldChunk_next (h : s.ld.ldChunk < 2 ^ p.lplBits) : (s.next p i).ld.ldChunk < 2 ^ p.lplBits := by
  have h₀ : 0 < 2 ^ p.lplBits := Nat.two_pow_pos _
  rw [next_ld, nextLd, nextLd']
  split
  · exact h₀
  · split
    · exact h₀
    · split
      · split
        · exact h
        · dsimp only
          split
          · exact h₀
          · exact Nat.mod_lt _ h₀
      · exact h

/-- What the array is programmed with holds still while it runs, unless a tile is promoted. -/
theorem regs_of_busy (hb : s.arr.busy) (hp : s.promotes = false) :
    (s.next p i).regs.kLen = s.regs.kLen ∧ (s.next p i).regs.bPanelUse = s.regs.bPanelUse := by
  simp [nextRegs, writesCfg, hb, hp]

/-- An array that rests keeps what it holds. -/
structure Rests (s : MmAccel) (acc : ℕ → ℕ → Word) : Prop where
  busy : s.arr.busy = false
  en : ∀ i j, s.arr.peEn i j = false
  acc : ∀ i j, s.arr.acc i j = acc i j

theorem Rests.next {acc : ℕ → ℕ → Word} (h : s.Rests acc) (hs : s.startAny i = false) :
    (s.next p i).Rests acc := by
  have hb : s.arr.busyNext p s.regs.kLen (s.softRstPulse i) false = false := by
    simp [SystolicArray.busyNext, h.busy]
  refine ⟨?_, fun _ _ => ?_, fun j k => ?_⟩
  · rw [next_arr, hs]
    exact hb
  · rw [next_arr, hs]
    exact hb
  · rw [← h.acc j k, next_arr, SystolicArray.acc, SystolicArray.next]
    simp only [h.en j k, SystolicPE.next, if_neg Bool.false_ne_true]
    rfl

/-- The last cycle of a run raises `done`. -/
theorem Feeding.finish (h : Feeding p K U a b t s) (hkLen : s.regs.kLen = K)
    (hlast : t = SystolicArray.lastT p K) (hr : s.softRstPulse i = false) (hs : s.startAny i = false) :
    (s.next p i).arr.done ∧ (s.next p i).arr.busy = false ∧ (∀ j k, (s.next p i).arr.peEn j k = false) ∧
      (s.next p i).arr.Fed K a b (t + 1) := by
  have hb : s.arr.busyNext p K false false = false := by
    simp [SystolicArray.busyNext, h.busy, h.cycle, ← hlast]
  rw [next_arr, hkLen, hr, hs]
  refine ⟨?_, hb, fun _ _ => hb, h.fed.next h.feeds h.cycle h.en _ _⟩
  simp [SystolicArray.next, h.busy, h.cycle, ← hlast]

/-- The sequencer waits for a run that it has started. -/
theorem qState_of_qComp (hq : s.q.qState = .qComp ∨ s.q.qState = .qCompW ∧ s.arr.done = false)
    (hr : s.softRstPulse i = false) : (s.next p i).q.qState = .qCompW ∧ s.promotes = false := by
  rcases hq with hq | ⟨hq, hd⟩
  · simp [nextQ, nextQState, promotes, hq, hr]
  · simp [nextQ, nextQState, promotes, hq, hr, hd]

end MmAccel

section Run

open MmAccel

variable {p : MmParams} {σ : ℕ → MmAccel} {ι : ℕ → MmInputs} {a K : ℕ}

/-- The cycle on which `done` rises, if the start is on the cycle `a`. -/
def doneAt (p : MmParams) (a K : ℕ) : ℕ := a + 1 + (K + 2 * (p.dim - 1))

/-- A run is left alone: it is neither started again nor reset, and what is loaded meanwhile goes
    to other panels. -/
structure Undisturbed (p : MmParams) (σ : ℕ → MmAccel) (ι : ℕ → MmInputs) (a K : ℕ) : Prop where
  reset : ∀ n, a ≤ n → n < doneAt p a K → (σ n).softRstPulse (ι n) = false
  start : ∀ n, a < n → n < doneAt p a K → (σ n).startAny (ι n) = false
  loads : ∀ n, a < n → n < doneAt p a K → (σ n).captures (ι n) →
    (σ n).ld.ldInB ∧ p.panel (σ n).regs.bPanelLoad ≠ p.panel (σ (a + 1)).regs.bPanelUse

/-- The array on every cycle of a run. -/
theorem feeding_of_run (hσ : ∀ n, σ (n + 1) = (σ n).next p (ι n)) (hK : 1 ≤ K)
    (hmax : K ≤ p.maxK) (hT : K + 2 * (p.dim - 1) ≤ 256) (hc : (σ a).ld.ldChunk < 2 ^ p.lplBits)
    (hs : (σ a).startAny (ι a)) (hk : (σ (a + 1)).regs.kLen = K) (hu : Undisturbed p σ ι a K)
    (hw : (σ a).writesCfg (ι a) 15 = false)
    (hp : ∀ n, a ≤ n → n + 1 < doneAt p a K →
      (∀ m, a < m → m ≤ n → (σ m).arr.done = false) → (σ n).promotes = false)
    {t : ℕ} (ht : t < K + 2 * (p.dim - 1)) :
    Feeding p K (σ (a + 1)).regs.bPanelUse (σ (a + 1)).buf.aByte
        ((σ (a + 1)).buf.bByte p (σ (a + 1)).regs.bPanelUse) t (σ (a + 1 + t)) ∧
      (σ (a + 1 + t)).regs.kLen = K ∧
      (σ (a + 1 + t)).regs.bPanelUse = (σ (a + 1)).regs.bPanelUse ∧
      (σ (a + 1 + t)).ld.ldChunk < 2 ^ p.lplBits ∧
      ∀ m, a < m → m ≤ a + 1 + t → (σ m).arr.done = false := by
  have hlast : SystolicArray.lastT p K = K + 2 * (p.dim - 1) - 1 :=
    SystolicArray.lastT_eq p (by omega) hT (by omega)
  induction t with
  | zero =>
    -- the rows of k = 0 have been selected on the cycle of the start
    have hr := hu.reset a le_rfl (by rw [doneAt]; omega)
    have hpa := hp a le_rfl (by rw [doneAt]; omega) fun m h₁ h₂ => absurd h₁ (by omega)
    have hU : (σ a).regs.bPanelUse = (σ (a + 1)).regs.bPanelUse := by
      rw [hσ a, next_regs, nextRegs, hw, hpa]
      rfl
    have hf := feeding_of_startAny (p := p) (K := K) hr hs hU
    rw [← hσ a] at hf
    refine ⟨hf, hk, rfl, ?_, fun m h₁ h₂ => ?_⟩
    · rw [Nat.add_zero, hσ a]
      exact ldChunk_next hc
    · rw [show m = a + 1 by omega]
      exact hf.done
  | succ t ih =>
    obtain ⟨hf, hkt, hUt, hct, hdt⟩ := ih (by omega)
    have hn : a + 1 + t < doneAt p a K := by
      rw [doneAt]
      omega
    have hf' := hf.next hkt hUt hct hmax (by omega) (by omega) (hu.reset _ (by omega) hn)
      (hu.start _ (by omega) hn) (hu.loads _ (by omega) hn)
    obtain ⟨h₁, h₂⟩ := regs_of_busy (p := p) (i := ι (a + 1 + t)) hf.busy
      (hp _ (by omega) (by rw [doneAt]; omega) hdt)
    rw [← Nat.add_assoc, hσ (a + 1 + t)]
    refine ⟨hf', h₁.trans hkt, h₂.trans hUt, ldChunk_next hct, fun m hm₁ hm₂ => ?_⟩
    rcases hm₂.eq_or_lt with rfl | hm
    · rw [hσ (a + 1 + t)]
      exact hf'.done
    · exact hdt m hm₁ (Nat.le_of_lt_succ hm)

/-- When `done` rises every accumulator holds the product of its row and its column, and keeps it
    until the next start. The sequencer must not promote a tile under a run that software has started,
    and `B_PANEL_USE` must not be written on the cycle of the start, when the first row is
    selected already. -/
theorem array_of_run (hσ : ∀ n, σ (n + 1) = (σ n).next p (ι n)) (hK : 1 ≤ K)
    (hmax : K ≤ p.maxK) (hT : K + 2 * (p.dim - 1) ≤ 256) (hc : (σ a).ld.ldChunk < 2 ^ p.lplBits)
    (hs : (σ a).startAny (ι a)) (hk : (σ (a + 1)).regs.kLen = K) (hu : Undisturbed p σ ι a K)
    (hw : (σ a).writesCfg (ι a) 15 = false)
    (hp : (σ a).q.qState = .qComp ∨ ∀ n, a ≤ n → n < doneAt p a K → (σ n).promotes = false) :
    (∀ n, a < n → n < doneAt p a K → (σ n).arr.busy ∧ (σ n).arr.done = false) ∧
      (σ (doneAt p a K)).arr.done ∧
      ∀ m ≥ doneAt p a K, (∀ n, doneAt p a K ≤ n → n < m → (σ n).startAny (ι n) = false) →
        ∀ i < p.dim, ∀ j < p.dim, (σ m).arr.acc i j =
          dotProduct ((σ (a + 1)).buf.aByte i) ((σ (a + 1)).buf.bByte p
            (σ (a + 1)).regs.bPanelUse j) K := by
  have hp' : ∀ n, a ≤ n → n + 1 < doneAt p a K →
      (∀ m, a < m → m ≤ n → (σ m).arr.done = false) → (σ n).promotes = false := by
    rcases hp with hq | hp
    · -- a run that the sequencer has started: it waits in `qCompW` for `done`
      intro n hn hlt hdone
      have hq' : (σ n).q.qState = .qComp ∨ (σ n).q.qState = .qCompW ∧ (σ n).arr.done = false := by
        induction n, hn using Nat.le_induction with
        | base => exact .inl hq
        | succ n hn ih =>
          have h := ih (by omega) fun m h₁ h₂ => hdone m h₁ (by omega)
          rw [hσ n]
          exact .inr ⟨(qState_of_qComp h (hu.reset n hn (by omega))).1, hσ n ▸ hdone _ (by omega) le_rfl⟩
      exact (qState_of_qComp (p := p) hq' (hu.reset n hn (by omega))).2
    · exact fun n hn hlt _ => hp n hn (by omega)
  have hall := fun t ht => feeding_of_run hσ hK hmax hT hc hs hk hu hw hp' (t := t) ht
  have hlast : SystolicArray.lastT p K = K + 2 * (p.dim - 1) - 1 :=
    SystolicArray.lastT_eq p (by omega) hT (by omega)
  obtain ⟨hf, hkt, -⟩ := hall (K + 2 * (p.dim - 1) - 1) (by omega)
  have hn : a + 1 + (K + 2 * (p.dim - 1) - 1) + 1 = doneAt p a K := by
    rw [doneAt]
    omega
  obtain ⟨hdone, hb, hen, hfed⟩ := hf.finish (i := ι _) hkt hlast.symm (hu.reset _ (by omega) (by omega))
    (hu.start _ (by omega) (by omega))
  rw [← hσ, hn] at hdone hb hen hfed
  refine ⟨fun n h₁ h₂ => ?_, hdone, fun m hm hno => ?_⟩
  · obtain ⟨t, rfl⟩ := Nat.exists_eq_add_of_le h₁
    have hf := (hall t (by rw [doneAt] at h₂; omega)).1
    exact ⟨hf.busy, hf.done⟩
  · -- the accumulators rest until the next start
    have hrest : (σ m).Rests (σ (doneAt p a K)).arr.acc := by
      induction m, hm using Nat.le_induction with
      | base => exact ⟨hb, hen, fun _ _ => rfl⟩
      | succ m hm ih =>
        rw [hσ m]
        exact (ih fun n h₁ h₂ => hno n h₁ (by omega)).next (hno m hm m.lt_succ_self)
    intro i hi j hj
    rw [hrest.acc, hfed.acc i j (by omega), dotProduct_upTo (by omega)]

end Run

/-! ### Runs -/

/-- A tile of the length `1` is queued, with ones in its operands. On the cycle on which the
    sequencer starts the array, `last` is on the bus. -/
def queuedTile (last : MmInputs) (n : ℕ) : MmInputs :=
  match n with
  | 0 => .write 20 1
  | 2 => .write 0 0x20
  | 5 | 6 | 7 | 8 => { MmInputs.quiet with memRdReady := true, memRline := 0x01 }
  | 11 => last
  | _ => .quiet

theorem undisturbed_queuedTile (last : MmInputs) (h : last = .quiet ∨ last = .write 15 1) :
    Undisturbed mmDefault (mmTrace (queuedTile last)) (queuedTile last) 11 1 := by
  have hd : ∀ n < 15, 11 ≤ n →
      (mmTrace (queuedTile last) n).softRstPulse (queuedTile last n) = false ∧
        (11 < n → (mmTrace (queuedTile last) n).startAny (queuedTile last n) = false) ∧
        (mmTrace (queuedTile last) n).captures (queuedTile last n) = false := by
    rcases h with rfl | rfl <;> decide +kernel
  refine ⟨fun n h₁ h₂ => (hd n h₂ h₁).1, fun n h₁ h₂ => (hd n h₂ h₁.le).2.1 h₁,
    fun n h₁ h₂ h₃ => ?_⟩
  rw [(hd n h₂ h₁.le).2.2] at h₃
  cases h₃

theorem queuedTile_acc :
    (mmTrace (queuedTile .quiet) 15).arr.done ∧
      dotProduct ((mmTrace (queuedTile .quiet) 12).buf.aByte 1)
        ((mmTrace (queuedTile .quiet) 12).buf.bByte mmDefault 0 1) 1 = 1 ∧
      (mmTrace (queuedTile .quiet) 15).arr.acc 1 1 =
        dotProduct ((mmTrace (queuedTile .quiet) 12).buf.aByte 1)
          ((mmTrace (queuedTile .quiet) 12).buf.bByte mmDefault 0 1) 1 := by
  have h := array_of_run (a := 11) (K := 1) (isRun_mmTrace (queuedTile .quiet)).next le_rfl (by decide)
    (by decide) (by decide +kernel) (by decide +kernel) (by decide +kernel)
    (undisturbed_queuedTile _ (.inl rfl)) (by decide +kernel) (.inl (by decide +kernel))
  exact ⟨h.2.1, by decide +kernel,
    h.2.2 15 le_rfl (fun n h₁ h₂ => absurd (h₁.trans_lt h₂) (by decide)) 1 (by decide) 1 (by decide)⟩

/-- A write to `B_PANEL_USE` on the cycle of the start splits the run between two panels. -/
theorem queuedTile_split :
    ¬∀ (p : MmParams) (σ : ℕ → MmAccel) (ι : ℕ → MmInputs) (a K : ℕ),
      (mmAccel p).IsRun σ ι → 2 ≤ p.dim →
      1 ≤ K → K ≤ p.maxK → K + 2 * (p.dim - 1) ≤ 256 → (σ a).startAny (ι a) →
      (σ (a + 1)).regs.kLen = K → Undisturbed p σ ι a K →
      (∀ n, a ≤ n → n < doneAt p a K → (σ n).writes (ι n) 0 = false) →
      ∃ U ∈ [(σ a).regs.bPanelUse, (σ (a + 1)).regs.bPanelUse], ∀ i < p.dim, ∀ j < p.dim,
        (σ (doneAt p a K)).arr.acc i j =
          dotProduct ((σ (a + 1)).buf.aByte i) ((σ (a + 1)).buf.bByte p U j) K := by
  intro h
  have hw : ∀ n < 15, 11 ≤ n →
      (mmTrace (queuedTile (.write 15 1)) n).writes (queuedTile (.write 15 1) n) 0 = false := by
    decide +kernel
  have h' := h mmDefault _ _ 11 1 (isRun_mmTrace (queuedTile (.write 15 1)))
    (by decide) le_rfl (by decide)
    (by decide) (by decide +kernel) (by decide +kernel) (undisturbed_queuedTile _ (.inr rfl))
    fun n h₁ h₂ => hw n h₂ h₁
  revert h'
  decide +kernel

end Rv32Soc
