import Rv32Soc.Lib.Bytes

/-!
# The geometry of a direct-mapped cache

A 32-bit address split for a direct-mapped cache of `2 ^ n` sets of 16-byte
lines: the four low bits are the offset in the line, the next `n` the set and
the rest the tag. A set and a tag name one line (`lineAddr`), and an address
falls in it exactly when it has that set and that tag.
-/

namespace Rv32Soc

variable {n : ℕ}

/-- The set an address falls in. -/
def idxOf (n : ℕ) (a : Word) : BitVec n := a.extractLsb' 4 n

/-- The tag of an address: what is left above its set. -/
def tagOf (n : ℕ) (a : Word) : BitVec (28 - n) := a.extractLsb' (4 + n) (28 - n)

/-- The address of the line of the set `x` with the tag `t`: `{t, x, 4'b0}`. -/
def lineAddr (t : BitVec (28 - n)) (x : BitVec n) : Word := (t ++ x ++ 0#4).setWidth 32

theorem toNat_lineNo (a : Word) : (lineNo a).toNat = a.toNat / 16 := by
  have h := a.isLt
  rw [lineNo, BitVec.extractLsb'_toNat, Nat.shiftRight_eq_div_pow, Nat.mod_eq_of_lt (by omega)]

theorem toNat_idxOf (n : ℕ) (a : Word) : (idxOf n a).toNat = a.toNat / 16 % 2 ^ n := by
  rw [idxOf, BitVec.extractLsb'_toNat, Nat.shiftRight_eq_div_pow]

theorem toNat_tagOf (hn : n ≤ 28) (a : Word) : (tagOf n a).toNat = a.toNat / (16 * 2 ^ n) := by
  have hpow : 2 ^ 32 = 16 * 2 ^ n * 2 ^ (28 - n) := by
    rw [Nat.mul_assoc, ← Nat.pow_add, Nat.add_sub_cancel' hn]
    rfl
  rw [tagOf, BitVec.extractLsb'_toNat, Nat.shiftRight_eq_div_pow, Nat.pow_add]
  exact Nat.mod_eq_of_lt (Nat.div_lt_of_lt_mul (hpow ▸ a.isLt))

theorem getLsbD_lineNo_lineAddr (t : BitVec (28 - n)) (x : BitVec n) {i : ℕ}
    (hi : i < 28) :
    (lineNo (lineAddr t x)).getLsbD i = if i < n then x.getLsbD i else t.getLsbD (i - n) := by
  have h4 : ¬4 + i < 4 := by omega
  have h32 : 4 + i < 32 := by omega
  simp [lineNo, lineAddr, hi, h4, h32, BitVec.getLsbD_append]

/-- An address falls in the line a tag and a set name exactly when they are its own. -/
theorem lineNo_eq_lineAddr_iff (hn : n ≤ 28) {a : Word} {t : BitVec (28 - n)} {x : BitVec n} :
    lineNo a = lineNo (lineAddr t x) ↔ tagOf n a = t ∧ idxOf n a = x := by
  have hbit : ∀ i, i < 28 → (lineNo a).getLsbD i =
      if i < n then (idxOf n a).getLsbD i else (tagOf n a).getLsbD (i - n) := by
    intro i hi
    by_cases h : i < n
    · simp [lineNo, idxOf, hi, h]
    · have h' : i - n < 28 - n := by omega
      have he : 4 + n + (i - n) = 4 + i := by omega
      simp [lineNo, tagOf, hi, h, h', he]
  constructor
  · intro he
    have key : ∀ i, i < 28 → (if i < n then (idxOf n a).getLsbD i else (tagOf n a).getLsbD (i - n)) =
        if i < n then x.getLsbD i else t.getLsbD (i - n) := fun i hi => by
      rw [← hbit i hi, he, getLsbD_lineNo_lineAddr t x hi]
    refine ⟨BitVec.eq_of_getLsbD_eq fun i hi => ?_, BitVec.eq_of_getLsbD_eq fun i hi => ?_⟩
    · simpa [show ¬i + n < n by omega] using key (i + n) (by omega)
    · simpa [hi] using key i (by omega)
  · rintro ⟨rfl, rfl⟩
    apply BitVec.eq_of_getLsbD_eq
    intro i hi
    rw [hbit i hi, getLsbD_lineNo_lineAddr _ _ hi]

/-- The line of an address is the one its tag and its set name. -/
theorem lineNo_lineAddr (hn : n ≤ 28) (a : Word) :
    lineNo (lineAddr (tagOf n a) (idxOf n a)) = lineNo a :=
  ((lineNo_eq_lineAddr_iff hn).2 ⟨rfl, rfl⟩).symm

/-- Addresses of one line have one set. -/
theorem idxOf_congr (hn : n ≤ 28) {a b : Word} (h : lineNo a = lineNo b) : idxOf n a = idxOf n b :=
  ((lineNo_eq_lineAddr_iff hn).1 (h.trans (lineNo_lineAddr hn b).symm)).2

/-- Addresses of one line have one tag. -/
theorem tagOf_congr (hn : n ≤ 28) {a b : Word} (h : lineNo a = lineNo b) : tagOf n a = tagOf n b :=
  ((lineNo_eq_lineAddr_iff hn).1 (h.trans (lineNo_lineAddr hn b).symm)).1

/-! ## Sweeping the sets -/

/-- The sets below a counter, one cycle later: those below it before, and itself. -/
theorem lt_or_eq_of_lt_add_one {x c : BitVec n} (h : x < c + 1) : x < c ∨ x = c := by
  rw [BitVec.lt_def, BitVec.toNat_add] at h
  have hle := Nat.mod_le (c.toNat + (1 : BitVec n).toNat) (2 ^ n)
  have h1 : (1 : BitVec n).toNat ≤ 1 := by
    simpa using Nat.mod_le 1 (2 ^ n)
  rw [BitVec.lt_def, ← BitVec.toNat_inj]
  omega

/-- When the counter is all ones, every set is below it or it. -/
theorem lt_or_eq_allOnes (x : BitVec n) : x < BitVec.allOnes n ∨ x = BitVec.allOnes n := by
  rw [BitVec.lt_def, ← BitVec.toNat_inj, BitVec.toNat_allOnes]
  have := x.isLt
  omega

end Rv32Soc
