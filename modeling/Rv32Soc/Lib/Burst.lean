import Rv32Soc.Lib.Bytes

/-!
# Bursts of lines

Lines written to consecutive addresses a few bytes at a time. `Mem.image` is the
memory once the first `c` bytes of a sequence of lines are in place, and
`store_image` that writing the next few bytes, or any few again, only moves `c`
forward: writes may be repeated from an earlier place on.
-/

namespace Rv32Soc

/-- The address of the line of `a`: `{a[31:4], 4'b0}`. -/
def lineBase (a : Word) : Word := a.extractLsb' 4 28 ++ 0#4

/-- A part of `w` bytes of a line, the one numbered `k`. -/
def linePart (w : ℕ) (l : Line) (k : ℕ) : BitVec (8 * w) := l.extractLsb' (k * (8 * w)) (8 * w)

/-- The line `l` with its part `k` replaced. -/
def setLinePart (w : ℕ) (l : Line) (k : ℕ) (x : BitVec (8 * w)) : Line :=
  let mask : Line := (BitVec.allOnes (8 * w)).setWidth 128 <<< (k * (8 * w))
  (l &&& ~~~mask) ||| (x.setWidth 128 <<< (k * (8 * w)))

theorem toNat_lineBase (a : Word) : (lineBase a).toNat = a.toNat / 16 * 16 := by
  have h : (a.extractLsb' 4 28 ++ 0#4).toNat = a.toNat / 16 * 16 := by
    rw [BitVec.toNat_append, BitVec.extractLsb'_toNat, Nat.shiftRight_eq_div_pow,
      Nat.mod_eq_of_lt (by omega), BitVec.toNat_ofNat, Nat.zero_mod, Nat.or_zero, Nat.shiftLeft_eq]
  exact h

/-- The bytes of a part of a line are those of the line. -/
theorem extractLsb'_linePart {w k j : ℕ} (l : Line) (hj : j < w) (hk : k * w + j < 16) :
    (linePart w l k).extractLsb' (8 * j) 8 = lineByte l (BitVec.ofNat 4 (k * w + j)) := by
  have hmul : k * (8 * w) + 8 * j = 8 * (k * w + j) := by rw [Nat.mul_add, Nat.mul_left_comm]
  apply BitVec.eq_of_getLsbD_eq
  intro i hi
  have h8 : 8 * j + i < 8 * w := by omega
  rw [lineByte, BitVec.toNat_ofNat, Nat.mod_eq_of_lt (by omega), linePart]
  simp [hi, h8, ← hmul, Nat.add_assoc]

/-- Lines with a part in common have its bytes in common. -/
theorem lineByte_eq_of_linePart {n w : ℕ} (hw : n * w = 16) {x y : Line} (o : BitVec 4)
    (h : linePart w x (o.toNat / w) = linePart w y (o.toNat / w)) : lineByte x o = lineByte y o := by
  have hpos : 0 < w := Nat.pos_of_ne_zero fun h0 => by simp [h0] at hw
  have hdiv : o.toNat / w * w + o.toNat % w = o.toNat := by
    rw [Nat.mul_comm]
    exact Nat.div_add_mod _ _
  have hof : BitVec.ofNat 4 (o.toNat / w * w + o.toNat % w) = o := by
    rw [hdiv, BitVec.ofNat_toNat, BitVec.setWidth_eq]
  rw [← hof, ← extractLsb'_linePart x (Nat.mod_lt _ hpos) (by rw [hdiv]; exact o.isLt),
    ← extractLsb'_linePart y (Nat.mod_lt _ hpos) (by rw [hdiv]; exact o.isLt), h]

theorem linePart_setLinePart {w k k' : ℕ} (l : Line) (x : BitVec (8 * w)) (hk : (k + 1) * w ≤ 16)
    (hk' : (k' + 1) * w ≤ 16) :
    linePart w (setLinePart w l k x) k' = if k' = k then x else linePart w l k' := by
  have hmul : ∀ a, (a + 1) * (8 * w) = 8 * ((a + 1) * w) := fun a => Nat.mul_left_comm _ _ _
  apply BitVec.eq_of_getLsbD_eq
  intro i hi
  have h1 : k' * (8 * w) + i < 128 := by
    have := hmul k'
    rw [Nat.succ_mul] at this
    omega
  have h2 := hmul k
  rw [Nat.succ_mul] at h2
  simp only [linePart, setLinePart, BitVec.getLsbD_extractLsb', hi, decide_true, Bool.true_and,
    BitVec.getLsbD_or, BitVec.getLsbD_and, BitVec.getLsbD_not, BitVec.getLsbD_shiftLeft,
    BitVec.getLsbD_setWidth, BitVec.getLsbD_allOnes, h1]
  by_cases he : k' = k
  · subst he
    simp [hi, show i < 128 by omega, show ¬k' * (8 * w) + i < k' * (8 * w) by omega]
  · rw [if_neg he]
    rcases Nat.lt_or_gt_of_ne he with hlt | hgt
    · -- A part below the one replaced.
      have h3 : (k' + 1) * (8 * w) ≤ k * (8 * w) := Nat.mul_le_mul_right _ hlt
      rw [Nat.succ_mul] at h3
      simp [show k' * (8 * w) + i < k * (8 * w) by omega, hi]
    · have h3 : (k + 1) * (8 * w) ≤ k' * (8 * w) := Nat.mul_le_mul_right _ hgt
      rw [Nat.succ_mul] at h3
      have hge : 8 * w ≤ k' * (8 * w) + i - k * (8 * w) := by omega
      simp [Nat.not_lt.2 hge, BitVec.getLsbD_of_ge x _ hge, hi]

/-- A line is determined by its parts. -/
theorem line_ext_parts {n w : ℕ} (hw : n * w = 16) {x y : Line}
    (h : ∀ b < n, linePart w x b = linePart w y b) : x = y := by
  have hpos : 0 < w := Nat.pos_of_ne_zero fun h0 => by simp [h0] at hw
  refine line_ext fun o => lineByte_eq_of_linePart hw o (h _ ?_)
  rw [Nat.div_lt_iff_lt_mul hpos, hw]
  exact o.isLt

namespace Mem

theorem line_eq_of_lineNo (m : Mem) {a b : Word} (h : lineNo a = lineNo b) : m.line a = m.line b := by
  apply line_ext
  intro o
  let y : Word := lineNo a ++ o
  have hl : lineNo y = lineNo a := BitVec.extractLsb'_append_eq_left
  have ho : offsetOf y = o := BitVec.extractLsb'_append_eq_right
  rw [← ho, lineByte_line m hl, lineByte_line m (hl.trans h)]

theorem lineByte_line_append (m : Mem) (a : Word) (o : BitVec 4) :
    lineByte (m.line a) o = m (lineNo a ++ o) := by
  let y : Word := lineNo a ++ o
  have hl : lineNo y = lineNo a := BitVec.extractLsb'_append_eq_left
  have ho : offsetOf y = o := BitVec.extractLsb'_append_eq_right
  rw [← ho, lineByte_line m hl, ho]

/-- The part of `w` bytes of its line that the address `a` falls on. -/
def part (m : Mem) (w : ℕ) (a : Word) : BitVec (8 * w) := linePart w (m.line a) (a.toNat % 16 / w)

/-- A write of `w` bytes from the address `a` on. -/
def storePart (m : Mem) (a : Word) {w : ℕ} (x : BitVec (8 * w)) : Mem := fun y =>
  if (y - a).toNat < w then x.extractLsb' (8 * (y - a).toNat) 8 else m y

/-- The memory `m` with the first `c` bytes of the lines `line` at `base`. -/
def image (m : Mem) (base : Word) (line : ℕ → Line) (c : ℕ) : Mem := fun y =>
  if (y - base).toNat < c then
    lineByte (line ((y - base).toNat / 16)) (BitVec.ofNat 4 ((y - base).toNat % 16))
  else m y

@[simp] theorem image_zero (m : Mem) (base : Word) (line : ℕ → Line) : m.image base line 0 = m := by
  funext y
  simp [image]

/-- Writing some bytes of the sequence, none of them ahead of the next, moves its end
    forward or leaves it. -/
theorem storePart_image (m : Mem) (base : Word) (line : ℕ → Line) {c p w : ℕ} (x : BitVec (8 * w))
    (hp : p ≤ c) (hw : p + w ≤ 2 ^ 32)
    (hx : ∀ j < w, x.extractLsb' (8 * j) 8 =
      lineByte (line ((p + j) / 16)) (BitVec.ofNat 4 ((p + j) % 16))) :
    (m.image base line c).storePart (base + BitVec.ofNat 32 p) x =
      m.image base line (max c (p + w)) := by
  funext y
  have hoff : (y - (base + BitVec.ofNat 32 p)).toNat =
      ((y - base).toNat + 2 ^ 32 - p % 2 ^ 32) % 2 ^ 32 := by
    rw [← BitVec.sub_sub, BitVec.toNat_sub, BitVec.toNat_ofNat]
    congr 1
    have := Nat.mod_lt p (show 2 ^ 32 > 0 by decide)
    omega
  have hy := (y - base).isLt
  simp only [storePart, image, hoff]
  generalize (y - base).toNat = o at hy ⊢
  by_cases hin : p ≤ o ∧ o < p + w
  · have ho : (o + 2 ^ 32 - p % 2 ^ 32) % 2 ^ 32 = o - p := by omega
    rw [ho, if_pos (by omega), if_pos (by omega), hx _ (by omega), show p + (o - p) = o by omega]
  · rw [if_neg (by omega)]
    by_cases hc : o < c
    · rw [if_pos hc, if_pos (by omega)]
    · rw [if_neg hc, if_neg (by omega)]

end Mem

/-- The place of a byte of a line of the sequence. -/
theorem toNat_sub_lineBase (a : Word) {k : ℕ} (hk : 16 * k + 16 ≤ 2 ^ 32) (o : BitVec 4) :
    (((lineNo (lineBase a + BitVec.ofNat 32 (16 * k)) ++ o : Word)) - lineBase a).toNat =
      16 * k + o.toNat := by
  generalize hy : (lineNo (lineBase a + BitVec.ofNat 32 (16 * k)) ++ o : Word) = y
  have hl : lineNo y = lineNo (lineBase a + BitVec.ofNat 32 (16 * k)) :=
    hy ▸ BitVec.extractLsb'_append_eq_left
  have ho : offsetOf y = o := hy ▸ BitVec.extractLsb'_append_eq_right
  have hoff : y.toNat = y.toNat / 16 * 16 + o.toNat := by
    rw [← ho, offsetOf, BitVec.extractLsb'_toNat, Nat.shiftRight_eq_div_pow]
    omega
  have hdiv := congrArg BitVec.toNat hl
  rw [lineNo, lineNo, BitVec.extractLsb'_toNat, BitVec.extractLsb'_toNat, Nat.shiftRight_eq_div_pow,
    Nat.shiftRight_eq_div_pow, BitVec.toNat_add, BitVec.toNat_ofNat, toNat_lineBase] at hdiv
  have ha := a.isLt
  have hylt := y.isLt
  have holt := o.isLt
  rw [BitVec.toNat_sub, toNat_lineBase]
  omega

namespace Mem

/-- A write into the sequence leaves the rest. -/
theorem storePart_of_outside (m : Mem) (base : Word) {c p w : ℕ} (x : BitVec (8 * w))
    (hp : p + w ≤ c) (hc : c ≤ 2 ^ 32)
    {y : Word} (hy : ¬(y - base).toNat < c) : m.storePart (base + BitVec.ofNat 32 p) x y = m y := by
  refine if_neg fun hlt => hy ?_
  rw [← BitVec.sub_sub, BitVec.toNat_sub, BitVec.toNat_ofNat] at hlt
  have := (y - base).isLt
  omega

/-- The lines in place are the lines of the memory. -/
theorem line_image (m : Mem) (a : Word) (line : ℕ → Line) {c k : ℕ} (hk : 16 * k + 16 ≤ c)
    (hc : c ≤ 2 ^ 32) :
    (m.image (lineBase a) line c).line (lineBase a + BitVec.ofNat 32 (16 * k)) = line k := by
  apply line_ext
  intro o
  let y : Word := lineNo (lineBase a + BitVec.ofNat 32 (16 * k)) ++ o
  have hl : lineNo y = lineNo (lineBase a + BitVec.ofNat 32 (16 * k)) :=
    BitVec.extractLsb'_append_eq_left
  have ho : offsetOf y = o := BitVec.extractLsb'_append_eq_right
  have hoff : (y - lineBase a).toNat = 16 * k + o.toNat := toNat_sub_lineBase a (by omega) o
  rw [← ho, lineByte_line _ hl, image, hoff, if_pos (by omega), ho,
    show (16 * k + o.toNat) / 16 = k by omega, show (16 * k + o.toNat) % 16 = o.toNat by omega,
    BitVec.ofNat_toNat, BitVec.setWidth_eq]

end Mem

end Rv32Soc
