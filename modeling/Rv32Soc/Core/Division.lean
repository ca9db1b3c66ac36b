import Rv32Soc.Core.MultiCycle
import Rv32Soc.Riscv.Instr

/-!
# Division

What the divider computes. It works on magnitudes: after `k` steps the upper half of `rq` is
the remainder of the upper `k` bits of the dividend, and the lower half holds the bits that
are still to come, followed by the bits of the quotient (`divState`). The remainder is
below `2 ^ k`, so that nothing is lost when it is shifted.

* `toNat_rqNext_divState`: a step;
* `working_run`: the steps of a run;
* `result_eq`: the results are those of the manual.
-/

namespace Rv32Soc

theorem toNat_append_eq {n m : ℕ} (x : BitVec n) (y : BitVec m) :
    (x ++ y).toNat = x.toNat * 2 ^ m + y.toNat := by
  rw [BitVec.toNat_append, ← Nat.shiftLeft_add_eq_or_of_lt y.isLt, Nat.shiftLeft_eq]

/-! ## A step -/

/-- The working register after `k` steps on the magnitudes `A` and `D`. -/
def divState (A D k : ℕ) : ℕ :=
  A / 2 ^ (32 - k) % D * 2 ^ 32 + (A % 2 ^ (32 - k) * 2 ^ k + A / 2 ^ (32 - k) / D)

namespace DivUnit

/-- A step on the remainder `r`: the next bit of the dividend comes in, and the divisor goes out if it
    fits. -/
theorem toNat_rqNext {d : DivUnit} {r l : ℕ} (hr : r < 2 ^ 31) (hl : l < 2 ^ 32)
    (h : d.rq.toNat = r * 2 ^ 32 + l) :
    d.rqNext.toNat =
      if 2 * r + l / 2 ^ 31 < d.divisorAbs.toNat then (2 * r + l / 2 ^ 31) * 2 ^ 32 + 2 * l % 2 ^ 32
      else (2 * r + l / 2 ^ 31 - d.divisorAbs.toNat) * 2 ^ 32 + (2 * l % 2 ^ 32 + 1) := by
  have hD := d.divisorAbs.isLt
  have hshift : (d.rq.extractLsb' 0 63 ++ 0#1 : BitVec 64).toNat =
      (2 * r + l / 2 ^ 31) * 2 ^ 32 + 2 * l % 2 ^ 32 := by
    rw [toNat_append_eq, BitVec.extractLsb'_toNat, h, Nat.shiftRight_zero, BitVec.toNat_ofNat]
    omega
  rw [rqNext]
  generalize (d.rq.extractLsb' 0 63 ++ 0#1 : BitVec 64) = s at hshift ⊢
  have hupper : (s.extractLsb' 32 32).toNat = 2 * r + l / 2 ^ 31 := by
    rw [BitVec.extractLsb'_toNat, hshift, Nat.shiftRight_eq_div_pow]
    omega
  have htrial : ((0#1 ++ s.extractLsb' 32 32) - (0#1 ++ d.divisorAbs) : BitVec 33).toNat =
      (2 * r + l / 2 ^ 31 + 2 ^ 33 - d.divisorAbs.toNat) % 2 ^ 33 := by
    rw [BitVec.toNat_sub, toNat_append_eq, toNat_append_eq, hupper, BitVec.toNat_ofNat]
    omega
  have hborrow : ((0#1 ++ s.extractLsb' 32 32) - (0#1 ++ d.divisorAbs) : BitVec 33).getLsbD 32 =
      decide (2 * r + l / 2 ^ 31 < d.divisorAbs.toNat) := by
    rw [BitVec.getLsbD, Nat.testBit_eq_decide_div_mod_eq, htrial]
    exact decide_eq_decide.2 (by omega)
  rw [hborrow]
  by_cases hlt : 2 * r + l / 2 ^ 31 < d.divisorAbs.toNat
  · rw [if_pos (decide_eq_true hlt), if_pos hlt, hshift]
  · have hlow :
        (((0#1 ++ s.extractLsb' 32 32) - (0#1 ++ d.divisorAbs) : BitVec 33).extractLsb' 0 32).toNat =
        2 * r + l / 2 ^ 31 - d.divisorAbs.toNat := by
      rw [BitVec.extractLsb'_toNat, htrial, Nat.shiftRight_zero]
      omega
    have hnext : (s.extractLsb' 1 31).toNat = l % 2 ^ 31 := by
      rw [BitVec.extractLsb'_toNat, hshift, Nat.shiftRight_eq_div_pow]
      omega
    rw [if_neg (by simpa using hlt), if_neg hlt, toNat_append_eq, toNat_append_eq, hlow, hnext,
      BitVec.toNat_ofNat]
    omega

end DivUnit

/-- The upper bits of the dividend, with one more of them. -/
theorem div_two_pow_succ (A m : ℕ) : A / 2 ^ m = 2 * (A / 2 ^ (m + 1)) + A / 2 ^ m % 2 := by
  rw [pow_succ, ← Nat.div_div_eq_div_mul]
  exact (Nat.div_add_mod _ 2).symm

theorem mod_two_pow_succ (A m : ℕ) : A % 2 ^ (m + 1) = A / 2 ^ m % 2 * 2 ^ m + A % 2 ^ m := by
  rw [pow_succ, Nat.mod_mul, Nat.mul_comm, Nat.add_comm]

/-- The quotient and the remainder of a dividend that gets one more bit. -/
theorem div_mod_two_mul_add {N D b : ℕ} (hb : b < 2) (hD : 0 < D) :
    if 2 * (N % D) + b < D then (2 * N + b) % D = 2 * (N % D) + b ∧ (2 * N + b) / D = 2 * (N / D)
    else (2 * N + b) % D = 2 * (N % D) + b - D ∧ (2 * N + b) / D = 2 * (N / D) + 1 := by
  have hr := Nat.mod_lt N hD
  have hN := Nat.div_add_mod N D
  split
  · next hlt =>
    have he : 2 * N + b = D * (2 * (N / D)) + (2 * (N % D) + b) := by
      rw [Nat.mul_left_comm]
      omega
    rw [he, Nat.mul_add_mod, Nat.mod_eq_of_lt hlt, Nat.mul_add_div hD, Nat.div_eq_of_lt hlt]
    exact ⟨rfl, rfl⟩
  · next hge =>
    have he : 2 * N + b = D * (2 * (N / D) + 1) + (2 * (N % D) + b - D) := by
      rw [Nat.mul_add, Nat.mul_left_comm]
      omega
    have hlt : 2 * (N % D) + b - D < D := by omega
    rw [he, Nat.mul_add_mod, Nat.mod_eq_of_lt hlt, Nat.mul_add_div hD, Nat.div_eq_of_lt hlt]
    exact ⟨rfl, rfl⟩

/-- The parts of the working register fit. -/
theorem divState_bounds {A D k : ℕ} (hA : A < 2 ^ 32) (hk : k ≤ 32) :
    A / 2 ^ (32 - k) < 2 ^ k ∧ A % 2 ^ (32 - k) * 2 ^ k + A / 2 ^ (32 - k) / D < 2 ^ 32 := by
  have hpow : 2 ^ (32 - k) * 2 ^ k = 2 ^ 32 := by rw [← pow_add, Nat.sub_add_cancel hk]
  have hN : A / 2 ^ (32 - k) < 2 ^ k := Nat.div_lt_of_lt_mul (hpow ▸ hA)
  refine ⟨hN, ?_⟩
  have hq : A / 2 ^ (32 - k) / D < 2 ^ k := (Nat.div_le_self _ _).trans_lt hN
  have hm : A % 2 ^ (32 - k) + 1 ≤ 2 ^ (32 - k) := Nat.mod_lt _ (Nat.two_pow_pos _)
  have := Nat.mul_le_mul_right (2 ^ k) hm
  rw [hpow, Nat.add_mul, Nat.one_mul] at this
  omega

namespace DivUnit

/-- The steps go from one state of the division to the next. -/
theorem toNat_rqNext_divState {d : DivUnit} {A k : ℕ} (hA : A < 2 ^ 32) (hk : k < 32)
    (hD : 0 < d.divisorAbs.toNat)
    (h : d.rq.toNat = divState A d.divisorAbs.toNat k) :
      d.rqNext.toNat = divState A d.divisorAbs.toNat (k + 1) := by
  generalize hDe : d.divisorAbs.toNat = D at *
  obtain ⟨m, hm⟩ : ∃ m, 32 - k = m + 1 := ⟨31 - k, by omega⟩
  have hm' : 32 - (k + 1) = m := by omega
  have hpow : 2 ^ m * 2 ^ k = 2 ^ 31 := by rw [← pow_add, show m + k = 31 by omega]
  obtain ⟨hN, hlow⟩ := divState_bounds (D := D) hA hk.le
  rw [hm] at hN hlow
  have hq : A / 2 ^ (m + 1) / D ≤ A / 2 ^ (m + 1) := Nat.div_le_self _ _
  have hk31 : 2 ^ k ≤ 2 ^ 31 := Nat.pow_le_pow_right (by decide) (by omega)
  have hr : A / 2 ^ (m + 1) % D < 2 ^ 31 := ((Nat.mod_le _ _).trans_lt hN).trans_le hk31
  have hbit : A / 2 ^ m % 2 < 2 := Nat.mod_lt _ (by decide)
  -- the bits that are still to come
  have hrest : A % 2 ^ m * 2 ^ k + A / 2 ^ (m + 1) / D < 2 ^ 31 := by
    have hlt : A % 2 ^ m + 1 ≤ 2 ^ m := Nat.mod_lt _ (Nat.two_pow_pos _)
    have := Nat.mul_le_mul_right (2 ^ k) hlt
    rw [hpow, Nat.add_mul, Nat.one_mul] at this
    omega
  have hlo : A % 2 ^ (m + 1) * 2 ^ k + A / 2 ^ (m + 1) / D =
      A / 2 ^ m % 2 * 2 ^ 31 + (A % 2 ^ m * 2 ^ k + A / 2 ^ (m + 1) / D) := by
    rw [mod_two_pow_succ, Nat.add_mul, Nat.mul_assoc, hpow, Nat.add_assoc]
  have hdouble : A % 2 ^ m * 2 ^ (k + 1) = 2 * (A % 2 ^ m * 2 ^ k) := by
    rw [pow_succ, ← Nat.mul_assoc, Nat.mul_comm]
  have hdiv := div_mod_two_mul_add (N := A / 2 ^ (m + 1)) hbit hD
  rw [← div_two_pow_succ] at hdiv
  rw [divState, hm] at h
  rw [divState, hm', hdouble, toNat_rqNext hr hlow h, hDe]
  generalize A / 2 ^ m % 2 = bit at *
  generalize A % 2 ^ m * 2 ^ k = rest at *
  generalize A / 2 ^ (m + 1) / D = q at *
  rw [hlo] at hlow ⊢
  have hhead : (bit * 2 ^ 31 + (rest + q)) / 2 ^ 31 = bit := by omega
  have htail : 2 * (bit * 2 ^ 31 + (rest + q)) % 2 ^ 32 = 2 * rest + 2 * q := by omega
  rw [hhead, htail]
  split at hdiv
  · next hlt =>
    rw [if_pos hlt, hdiv.1, hdiv.2]
  · next hge =>
    rw [if_neg hge, hdiv.1, hdiv.2, Nat.add_assoc]

/-! ## A run -/

/-- The magnitude of an operand. -/
def magnitude (x : Word) (isSigned : Bool) : ℕ := if isSigned then x.toInt.natAbs else x.toNat

theorem toNat_abs (x : Word) (isSigned : Bool) :
    (if isSigned && x.getLsbD 31 then ~~~x + 1 else x).toNat = magnitude x isSigned := by
  have hx := x.isLt
  have hmsb : x.getLsbD 31 = decide (2 ^ 31 ≤ x.toNat) := by
    rw [← BitVec.msb_eq_getLsbD_last, BitVec.msb_eq_decide]
  cases isSigned
  · rfl
  · rw [magnitude, if_pos rfl, Bool.true_and, hmsb, BitVec.toInt_eq_toNat_cond]
    by_cases hneg : 2 ^ 31 ≤ x.toNat
    · rw [if_pos (decide_eq_true hneg), if_neg (by omega), BitVec.toNat_add, BitVec.toNat_not,
        show (1 : Word).toNat = 1 from rfl]
      omega
    · rw [if_neg (by simpa using hneg), if_pos (by omega)]
      omega

theorem magnitude_lt (x : Word) (isSigned : Bool) : magnitude x isSigned < 2 ^ 32 :=
  toNat_abs x isSigned ▸ BitVec.isLt _

/-- The division has to be worked out. -/
def Long (a b : Word) (isSigned : Bool) : Prop :=
  b ≠ 0 ∧ ¬(isSigned ∧ a = 0x80000000 ∧ b = 0xFFFFFFFF)

theorem started_long {a b : Word} {isSigned : Bool} (h : Long a b isSigned) (d : DivUnit) :
    d.started a b isSigned =
      { d with
        rq := 0#32 ++ if isSigned && a.getLsbD 31 then ~~~a + 1 else a
        divisorAbs := if isSigned && b.getLsbD 31 then ~~~b + 1 else b
        negQ := isSigned && (a.getLsbD 31 ^^ b.getLsbD 31)
        negR := isSigned && a.getLsbD 31
        count := 0
        busy := true } := by
  rw [started, if_neg h.1, if_neg]
  simpa [and_assoc] using h.2

/-- The divider, `k` steps into a division. -/
structure Working (a b : Word) (isSigned : Bool) (k : ℕ) (d : DivUnit) : Prop where
  busy : d.busy = true
  count : d.count.toNat = k
  divisor : d.divisorAbs.toNat = magnitude b isSigned
  negQ : d.negQ = (isSigned && (a.getLsbD 31 ^^ b.getLsbD 31))
  negR : d.negR = (isSigned && a.getLsbD 31)
  rq : d.rq.toNat = divState (magnitude a isSigned) (magnitude b isSigned) k

theorem magnitude_pos {b : Word} (h : b ≠ 0) (isSigned : Bool) : 0 < magnitude b isSigned := by
  have hn : b.toNat ≠ 0 := fun h0 => h (BitVec.eq_of_toNat_eq h0)
  have hi : b.toInt ≠ 0 := fun h0 => h (BitVec.eq_of_toInt_eq h0)
  cases isSigned
  · exact Nat.pos_of_ne_zero hn
  · exact Int.natAbs_pos.2 hi

theorem working_started {a b : Word} {isSigned : Bool} (h : Long a b isSigned) (d : DivUnit) :
    Working a b isSigned 0 (d.started a b isSigned) := by
  rw [started_long h]
  refine ⟨rfl, rfl, toNat_abs b isSigned, rfl, rfl, ?_⟩
  have hlt := magnitude_lt a isSigned
  show (0#32 ++ _ : BitVec 64).toNat = _
  rw [toNat_append_eq, toNat_abs, divState, Nat.div_eq_of_lt hlt, Nat.mod_eq_of_lt hlt]
  simp

theorem Working.stepped {a b : Word} {isSigned : Bool} {k : ℕ} {d : DivUnit}
    (h : Working a b isSigned k d) (hb : b ≠ 0)
    (hk : k < 31) : Working a b isSigned (k + 1) d.stepped := by
  have hc : d.count ≠ 31 := by
    intro hc
    have := h.count
    rw [hc] at this
    exact absurd this (by simp; omega)
  have hrq := toNat_rqNext_divState (magnitude_lt a isSigned) (by omega)
    (h.divisor ▸ magnitude_pos hb isSigned) (h.divisor ▸ h.rq)
  rw [DivUnit.stepped, if_neg hc]
  refine ⟨h.busy, ?_, h.divisor, h.negQ, h.negR, h.divisor ▸ hrq⟩
  show (d.count + 1).toNat = k + 1
  rw [BitVec.toNat_add, h.count, show (1 : BitVec 5).toNat = 1 from rfl]
  omega

theorem working_run {a b : Word} {isSigned : Bool} (h : Long a b isSigned) {k : ℕ} (hk : k ≤ 31) :
    Working a b isSigned k (run a b isSigned k) := by
  induction k with
  | zero => exact working_started h idle
  | succ k ih =>
    rw [run, Function.iterate_succ_apply']
    exact (ih (Nat.le_of_succ_le hk)).stepped h.1 hk

/-- The last step leaves the results. -/
theorem Working.finish {a b : Word} {isSigned : Bool} {d : DivUnit}
    (h : Working a b isSigned 31 d) (hb : b ≠ 0) :
    d.stepped.done ∧
      d.stepped.quotient =
        (if isSigned && (a.getLsbD 31 ^^ b.getLsbD 31) then
          -BitVec.ofNat 32 (magnitude a isSigned / magnitude b isSigned)
        else BitVec.ofNat 32 (magnitude a isSigned / magnitude b isSigned)) ∧
      d.stepped.remainder =
        if isSigned && a.getLsbD 31 then -BitVec.ofNat 32 (magnitude a isSigned % magnitude b isSigned)
        else BitVec.ofNat 32 (magnitude a isSigned % magnitude b isSigned) := by
  have hc : d.count = 31 := BitVec.eq_of_toNat_eq h.count
  have hA := magnitude_lt a isSigned
  have hB := magnitude_pos hb isSigned
  have hrq := toNat_rqNext_divState hA (by decide) (h.divisor ▸ hB) (h.divisor ▸ h.rq)
  rw [h.divisor, divState] at hrq
  simp only [Nat.reduceAdd, Nat.sub_self, pow_zero, Nat.div_one, Nat.mod_one, Nat.zero_mul,
    Nat.zero_add] at hrq
  have hq : magnitude a isSigned / magnitude b isSigned < 2 ^ 32 := (Nat.div_le_self _ _).trans_lt hA
  have hr : magnitude a isSigned % magnitude b isSigned < 2 ^ 32 := (Nat.mod_le _ _).trans_lt hA
  generalize magnitude a isSigned / magnitude b isSigned = q,
    magnitude a isSigned % magnitude b isSigned = r at *
  have hlow : d.rqNext.extractLsb' 0 32 = BitVec.ofNat 32 q := by
    apply BitVec.eq_of_toNat_eq
    rw [BitVec.extractLsb'_toNat, hrq, BitVec.toNat_ofNat, Nat.shiftRight_zero]
    omega
  have hhigh : d.rqNext.extractLsb' 32 32 = BitVec.ofNat 32 r := by
    apply BitVec.eq_of_toNat_eq
    rw [BitVec.extractLsb'_toNat, hrq, BitVec.toNat_ofNat, Nat.shiftRight_eq_div_pow]
    omega
  rw [DivUnit.stepped, if_pos hc]
  refine ⟨rfl, ?_, ?_⟩
  · rw [hlow, h.negQ, BitVec.neg_eq_not_add]
    rfl
  · rw [hhigh, h.negR, BitVec.neg_eq_not_add]
    rfl

/-! ## The results -/

/-- An operand is its magnitude, with a sign. -/
theorem toInt_eq_magnitude (x : Word) : x.toInt = if x.getLsbD 31 then -(magnitude x true : ℤ)
    else magnitude x true := by
  have hmsb : x.getLsbD 31 = decide (2 ^ 31 ≤ x.toNat) := by
    rw [← BitVec.msb_eq_getLsbD_last, BitVec.msb_eq_decide]
  have hx := x.isLt
  rw [magnitude, if_pos rfl, hmsb, BitVec.toInt_eq_toNat_cond]
  by_cases hneg : 2 ^ 31 ≤ x.toNat
  · rw [if_pos (decide_eq_true hneg), if_neg (by omega)]
    omega
  · rw [if_pos (by omega : 2 * x.toNat < 2 ^ 32), if_neg (by rwa [decide_eq_true_eq])]
    omega

/-- The signs of the quotient and of the remainder. -/
theorem tdiv_tmod_eq (a b : Word) :
    a.toInt.tdiv b.toInt =
        (if a.getLsbD 31 ^^ b.getLsbD 31 then -((magnitude a true / magnitude b true : ℕ) : ℤ)
        else (magnitude a true / magnitude b true : ℕ)) ∧
      a.toInt.tmod b.toInt =
        if a.getLsbD 31 then -((magnitude a true % magnitude b true : ℕ) : ℤ)
          else (magnitude a true % magnitude b true : ℕ) := by
  rw [toInt_eq_magnitude a, toInt_eq_magnitude b]
  generalize magnitude a true = A, magnitude b true = B
  cases a.getLsbD 31 <;> cases b.getLsbD 31 <;> simp [Int.neg_tdiv, Int.tdiv_neg, Int.neg_tmod,
    Int.tmod_neg, Int.tmod_eq_emod_of_nonneg]

open Riscv in
/-- The results of the manual. -/
def manual (a b : Word) (isSigned : Bool) : Word × Word :=
  (if isSigned then MulDivOp.div.eval a b else MulDivOp.divu.eval a b,
    if isSigned then MulDivOp.rem.eval a b else MulDivOp.remu.eval a b)

/-- A division that has not to be worked out is done at once. -/
theorem started_short {a b : Word} {isSigned : Bool} (h : ¬Long a b isSigned) (d : DivUnit) :
    (d.started a b isSigned).done ∧
      ((d.started a b isSigned).quotient, (d.started a b isSigned).remainder) = manual a b isSigned := by
  by_cases hb : b = 0
  · subst hb
    have hs : d.started a 0 isSigned =
        { d with quotient := 0xFFFFFFFF, remainder := a, done := true } := rfl
    rw [hs]
    cases isSigned <;> exact ⟨rfl, rfl⟩
  · obtain ⟨rfl, rfl, rfl⟩ : isSigned = true ∧ a = 0x80000000 ∧ b = 0xFFFFFFFF := by
      by_contra ho
      exact h ⟨hb, ho⟩
    have hs : d.started 0x80000000 0xFFFFFFFF true =
        { d with quotient := 0x80000000, remainder := 0, done := true } := rfl
    have hm : ((0x80000000 : Word), (0 : Word)) = manual 0x80000000 0xFFFFFFFF true := by decide
    rw [hs]
    exact ⟨rfl, hm⟩

open Riscv in
/-- A division that has been worked out has the results of the manual. -/
theorem Working.manual_eq {a b : Word} {isSigned : Bool} {d : DivUnit}
    (h : Working a b isSigned 31 d) (hb : b ≠ 0) :
    (d.stepped.quotient, d.stepped.remainder) = manual a b isSigned := by
  obtain ⟨-, hq, hr⟩ := h.finish hb
  rw [hq, hr, manual]
  cases isSigned
  · have hb' : ¬b = 0#32 := hb
    simp [MulDivOp.eval, hb', magnitude]
  · obtain ⟨hdiv, hmod⟩ := tdiv_tmod_eq a b
    simp only [Bool.true_and, if_true, MulDivOp.eval, hb, if_false, hdiv, hmod, Prod.mk.injEq]
    refine ⟨?_, ?_⟩
    · split
      · rw [BitVec.ofInt_neg, BitVec.ofInt_natCast]
      · rw [BitVec.ofInt_natCast]
    · split
      · rw [BitVec.ofInt_neg, BitVec.ofInt_natCast]
      · rw [BitVec.ofInt_natCast]

open Riscv in
/-- The results of a division are those of the manual. -/
theorem result_eq (a b : Word) (isSigned : Bool) :
    result a b isSigned =
      (if isSigned then MulDivOp.div.eval a b else MulDivOp.divu.eval a b,
        if isSigned then MulDivOp.rem.eval a b else MulDivOp.remu.eval a b) := by
  by_cases hl : Long a b isSigned
  · have hd : (idle.started a b isSigned).done = false := by rw [started_long hl]; rfl
    have hrun : run a b isSigned 32 = (run a b isSigned 31).stepped := by
      rw [run, Function.iterate_succ_apply']
      rfl
    rw [result, hd, if_neg Bool.false_ne_true, hrun]
    exact (working_run hl le_rfl).manual_eq hl.1
  · obtain ⟨hd, hres⟩ := started_short hl idle
    rw [result, if_pos hd, hres, manual]

end DivUnit

end Rv32Soc
