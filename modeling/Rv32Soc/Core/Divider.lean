import Rv32Soc.Core.Division
import Rv32Soc.Lib.Circuit

/-!
# The divider by itself

`div_unit.v` as a circuit, under any inputs: one start in an idle state, whatever the
registers hold from the division before, and whatever comes in while it works.

* `DivUnit.Partial`: what the working register holds after `k` steps;
* `Working.partial`: the steps keep it, and the bit that is shifted out is low;
* `division_of_isRun`: the division is done after `cycles`, with the results of the manual.
-/

namespace Rv32Soc

/-- What drives the divider on a cycle. -/
structure DivInputs where
  rst : Bool
  start : Bool
  a : Word
  b : Word
  isSigned : Bool

/-- The registers after an edge. A reset ends what the divider does, and leaves the other registers
    alone. -/
def DivUnit.clocked (d : DivUnit) (i : DivInputs) : DivUnit :=
  if i.rst then { d with busy := false, done := false } else d.next i.start i.a i.b i.isSigned

/-- The divider, from any idle state. -/
def divUnit : Circuit DivUnit DivInputs where
  init := {d | d.busy = false ∧ d.done = false}
  admits _ _ := True
  next := DivUnit.clocked

/-- The divider in the pipeline is this one. -/
theorem Core.nextWith_div_clocked (s : Core) (i : CoreInputs) (p : Predictor) (L : BitVec 16) :
    (s.nextWith i p L).div = s.div.clocked ⟨false, s.divStart, s.aluA, s.aluB, s.divIsSigned⟩ := rfl

namespace DivUnit

/-! ## The working register -/

/-- The working register, `k` steps into the division of `A` by `D`: the remainder of the upper `k`
    bits of the dividend, its other bits, and the quotient of the upper ones. -/
structure Partial (A D k : ℕ) (rq : BitVec 64) : Prop where
  remainder : (rq.extractLsb' 32 32).toNat = A / 2 ^ (32 - k) % D
  remainder_lt : (rq.extractLsb' 32 32).toNat < D
  dividend : (rq.extractLsb' k (32 - k)).toNat = A % 2 ^ (32 - k)
  quotient : (rq.extractLsb' 0 k).toNat = A / 2 ^ (32 - k) / D

variable {A D k : ℕ} {rq : BitVec 64}

/-- The parts of a working register, side by side. -/
theorem parts_of_eq {r rest q : ℕ} (hk : k ≤ 32) (hrest : rest < 2 ^ (32 - k)) (hq : q < 2 ^ k)
    (h : rq.toNat = r * 2 ^ 32 + (rest * 2 ^ k + q)) :
    (rq.extractLsb' 32 32).toNat = r ∧ (rq.extractLsb' k (32 - k)).toNat = rest ∧
    (rq.extractLsb' 0 k).toNat = q := by
  have hpow : 2 ^ (32 - k) * 2 ^ k = 2 ^ 32 := by rw [← pow_add, Nat.sub_add_cancel hk]
  have hlow : rest * 2 ^ k + q < 2 ^ 32 := by
    have hle : (rest + 1) * 2 ^ k ≤ 2 ^ (32 - k) * 2 ^ k := Nat.mul_le_mul_right _ hrest
    rw [hpow, Nat.add_mul, Nat.one_mul] at hle
    omega
  -- from the place `k` on, and below it
  have hsplit : rq.toNat = (r * 2 ^ (32 - k) + rest) * 2 ^ k + q := by
    rw [h, Nat.add_mul, Nat.mul_assoc, hpow, Nat.add_assoc]
  refine ⟨?_, ?_, ?_⟩
  · rw [BitVec.extractLsb'_toNat, h, Nat.shiftRight_eq_div_pow]
    omega
  · rw [BitVec.extractLsb'_toNat, hsplit, Nat.shiftRight_eq_div_pow, Nat.mul_comm,
      Nat.mul_add_div (Nat.two_pow_pos k),
      Nat.div_eq_of_lt hq, Nat.add_zero, Nat.mul_add_mod', Nat.mod_eq_of_lt hrest]
  · rw [BitVec.extractLsb'_toNat, hsplit, Nat.shiftRight_zero, Nat.mul_add_mod', Nat.mod_eq_of_lt hq]

theorem partial_of_divState (hA : A < 2 ^ 32) (hD : 0 < D) (hk : k ≤ 32)
    (h : rq.toNat = divState A D k) :
    Partial A D k rq := by
  have hN : A / 2 ^ (32 - k) < 2 ^ k := (divState_bounds (D := D) hA hk).1
  obtain ⟨hremainder, hdividend, hquotient⟩ :=
    parts_of_eq hk (Nat.mod_lt _ (Nat.two_pow_pos _)) ((Nat.div_le_self _ _).trans_lt hN) h
  exact ⟨hremainder, hremainder.trans_lt (Nat.mod_lt _ hD), hdividend, hquotient⟩

/-- As long as a step is to come the remainder has not reached the top bit, and the step shifts out
    a zero. -/
theorem top_of_divState (hA : A < 2 ^ 32) (hk : k < 32) (h : rq.toNat = divState A D k) :
    rq.getLsbD 63 = false := by
  obtain ⟨hN, hlow⟩ := divState_bounds (D := D) hA hk.le
  have hr : A / 2 ^ (32 - k) % D < 2 ^ 31 :=
    ((Nat.mod_le _ _).trans_lt hN).trans_le (Nat.pow_le_pow_right (by decide) (Nat.le_of_lt_succ hk))
  rw [BitVec.getLsbD, h, divState]
  refine Nat.testBit_lt_two_pow ?_
  omega

/-! ## A run -/

/-- The cycles of a division. -/
def cycles (a b : Word) (isSigned : Bool) : ℕ :=
  if b = 0 ∨ (isSigned ∧ a = 0x80000000 ∧ b = 0xFFFFFFFF) then 1 else 33

variable {a b : Word} {isSigned : Bool}

theorem cycles_of_long (h : Long a b isSigned) : cycles a b isSigned = 33 :=
  if_neg fun hor => hor.elim h.1 h.2

theorem cycles_of_not_long (h : ¬Long a b isSigned) : cycles a b isSigned = 1 :=
  if_pos <| by
    by_contra hor
    exact h (not_or.1 hor)

end DivUnit

section

open DivUnit

variable {σ : ℕ → DivUnit} {ι : ℕ → DivInputs} {t : ℕ} {a b : Word} {isSigned : Bool}

/-- The first edge of a division. -/
theorem started_of_isRun (h : divUnit.IsRun σ ι) (hbusy : (σ t).busy = false)
    (hdone : (σ t).done = false)
    (hι : ι t = ⟨false, true, a, b, isSigned⟩) : σ (t + 1) = (σ t).started a b isSigned := by
  have hn : σ (t + 1) = (σ t).clocked (ι t) := h.next t
  rw [hn, hι]
  exact next_start hbusy hdone a b isSigned

/-- What comes in while the divider works does not matter, a reset apart. -/
theorem stepped_of_isRun {n : ℕ} (h : divUnit.IsRun σ ι) (hbusy : (σ n).busy)
    (hdone : (σ n).done = false) (hrst : (ι n).rst = false) : σ (n + 1) = (σ n).stepped := by
  have hn : σ (n + 1) = (σ n).clocked (ι n) := h.next n
  rw [hn, clocked, hrst]
  exact next_busy hbusy hdone _ _ _ _

/-- The divider after `k` steps. -/
theorem working_of_isRun (h : divUnit.IsRun σ ι) (hbusy : (σ t).busy = false)
    (hdone : (σ t).done = false)
    (hι : ι t = ⟨false, true, a, b, isSigned⟩) (hrst : ∀ k < 33, (ι (t + k)).rst = false)
    (hl : Long a b isSigned)
    {k : ℕ} (hk : k ≤ 31) : Working a b isSigned k (σ (t + 1 + k)) ∧ (σ (t + 1 + k)).done = false := by
  induction k with
  | zero =>
    rw [Nat.add_zero, started_of_isRun h hbusy hdone hι]
    refine ⟨working_started hl _, ?_⟩
    rw [started_long hl]
    exact hdone
  | succ k ih =>
    obtain ⟨hw, hd⟩ := ih (Nat.le_of_succ_le hk)
    have hr : (ι (t + 1 + k)).rst = false := by
      rw [Nat.add_assoc, Nat.add_comm 1]
      exact hrst _ (by omega)
    rw [← Nat.add_assoc, stepped_of_isRun h hw.busy hd hr]
    refine ⟨hw.stepped hl.1 hk, ?_⟩
    have hc : (σ (t + 1 + k)).count ≠ 31 := fun hc => by
      have hcount := hw.count
      rw [hc] at hcount
      exact absurd hcount (by simp; omega)
    rw [DivUnit.stepped, if_neg hc]
    exact hd

/-- A division that is started in an idle state is done after its cycles, and not before, with the
    quotient and the remainder of the manual. If it has to be worked out, the working register holds
    after each step the remainder of the upper bits of the dividend, its other bits and the
    quotient, and no step shifts out a one. -/
theorem division_of_isRun (h : divUnit.IsRun σ ι) (hbusy : (σ t).busy = false)
    (hdone : (σ t).done = false)
    (hι : ι t = ⟨false, true, a, b, isSigned⟩) (hrst : ∀ k < cycles a b isSigned,
      (ι (t + k)).rst = false) :
    ((σ (t + cycles a b isSigned)).done ∧ (∀ k < cycles a b isSigned, (σ (t + k)).done = false) ∧
      (σ (t + cycles a b isSigned)).quotient =
        (if isSigned then Riscv.MulDivOp.div.eval a b else Riscv.MulDivOp.divu.eval a b) ∧
      (σ (t + cycles a b isSigned)).remainder =
        if isSigned then Riscv.MulDivOp.rem.eval a b else Riscv.MulDivOp.remu.eval a b) ∧
    (Long a b isSigned → ∀ k ≤ 32,
      Partial (magnitude a isSigned) (magnitude b isSigned) k (σ (t + 1 + k)).rq ∧
      (k < 32 → (σ (t + 1 + k)).busy ∧ (σ (t + 1 + k)).rq.getLsbD 63 = false)) := by
  have hstart := started_of_isRun h hbusy hdone hι
  by_cases hl : Long a b isSigned
  · -- Worked out: 32 steps, after each of which `DivState` holds.
    rw [cycles_of_long hl] at hrst ⊢
    have hwork := fun k => working_of_isRun h hbusy hdone hι hrst hl (k := k)
    obtain ⟨hw, hd⟩ := hwork 31 le_rfl
    -- The last step also puts the signs back.
    have hlast : σ (t + 33) = (σ (t + 1 + 31)).stepped :=
      stepped_of_isRun (n := t + 1 + 31) h hw.busy hd (hrst 32 (by decide))
    have hA := magnitude_lt a isSigned
    have hB := magnitude_pos hl.1 isSigned
    obtain ⟨hq, hr⟩ := Prod.mk.inj (hw.manual_eq hl.1)
    refine ⟨⟨?_, fun k hk => ?_, ?_, ?_⟩, fun _ k hk => ?_⟩
    · rw [hlast]
      exact (hw.finish hl.1).1
    · rcases k with _ | k
      · exact hdone
      · rw [Nat.add_comm k, ← Nat.add_assoc]
        exact (hwork k (by omega)).2
    · rw [hlast, hq]
    · rw [hlast, hr]
    · rcases Nat.lt_or_eq_of_le hk with hlt | rfl
      · have hk' := (hwork k (Nat.le_of_lt_succ hlt)).1
        exact ⟨partial_of_divState hA hB hk hk'.rq, fun _ => ⟨hk'.busy, top_of_divState hA hlt hk'.rq⟩⟩
      · refine ⟨partial_of_divState hA hB le_rfl ?_, fun h => absurd h (lt_irrefl _)⟩
        have hrq := toNat_rqNext_divState hA (by decide) (hw.divisor ▸ hB) (hw.divisor ▸ hw.rq)
        rw [hw.divisor] at hrq
        rw [show σ (t + 1 + 32) = σ (t + 33) by rw [Nat.add_assoc], hlast, DivUnit.stepped,
          if_pos (BitVec.eq_of_toNat_eq hw.count)]
        exact hrq
  · -- A zero divisor or the signed overflow is answered on the starting edge.
    obtain ⟨hd, hres⟩ := started_short hl (σ t)
    obtain ⟨hq, hr⟩ := Prod.mk.inj hres
    rw [cycles_of_not_long hl, hstart]
    refine ⟨⟨hd, fun k hk => ?_, hq, hr⟩, fun h => absurd h hl⟩
    obtain rfl := Nat.lt_one_iff.1 hk
    exact hdone

/-- `-7` by `2`, started on the first cycle. -/
def minusSevenByTwo (n : ℕ) : DivInputs := ⟨false, n == 0, -7, 2, true⟩

theorem divided_minusSevenByTwo :
    (divUnit.trace idle minusSevenByTwo 33).quotient = -3 ∧
    (divUnit.trace idle minusSevenByTwo 33).remainder = -1 := by
  have hrun : divUnit.IsRun (divUnit.trace idle minusSevenByTwo) minusSevenByTwo :=
    Circuit.isRun_trace ⟨rfl, rfl⟩ fun _ => trivial
  have h := division_of_isRun (t := 0) hrun rfl rfl rfl fun _ _ => rfl
  exact ⟨h.1.2.2.1.trans (by decide), h.1.2.2.2.trans (by decide)⟩

end

end Rv32Soc
