import Mathlib.Data.BitVec

/-!
# Bytes, words, lines and flat memories

Words of four bytes and lines of sixteen, and the memory they are bytes of: a
function from 32-bit addresses to bytes. A memory is written a word at a time
under a byte mask (`Mem.store`) or a line at a time (`Mem.setLine`), and both
are described by the bytes they leave, so that two descriptions of a memory are
compared byte by byte and no proof concatenates anything.
-/

namespace Rv32Soc

abbrev Byte := BitVec 8
abbrev Half := BitVec 16
abbrev Word := BitVec 32
abbrev Line := BitVec 128

/-- A field of a field. -/
theorem extractLsb'_extractLsb' {n k w k' w' : ℕ} (x : BitVec n) (h : k' + w' ≤ w) :
    (x.extractLsb' k w).extractLsb' k' w' = x.extractLsb' (k + k') w' := by
  apply BitVec.eq_of_getLsbD_eq
  intro i hi
  simp [hi, show k' + i < w by omega, Nat.add_assoc]

/-! ## Bytes of a word -/

/-- The byte `b` of a word, byte `0` being the least significant. -/
def byteOf (w : Word) (b : BitVec 2) : Byte := w.extractLsb' (8 * b.toNat) 8

/-- The word whose bytes are those of `new` where `be` is set and of `old` elsewhere:
    what a memory word holds after a write with the byte enables `be`. -/
def mergeBytes (old new : Word) (be : BitVec 4) : Word :=
  let sel (b : ℕ) : Byte := if be.getLsbD b then new.extractLsb' (8 * b) 8 else old.extractLsb' (8 * b) 8
  sel 3 ++ sel 2 ++ sel 1 ++ sel 0

theorem bitVec2_cases (b : BitVec 2) : b = 0 ∨ b = 1 ∨ b = 2 ∨ b = 3 := by
  revert b; decide

/-- A word is determined by its bytes. -/
theorem word_ext {x y : Word} (h : ∀ b, byteOf x b = byteOf y b) : x = y := by
  apply BitVec.eq_of_getLsbD_eq
  intro i hi
  -- Bit `i` is bit `i % 8` of byte `i / 8`.
  have hb := congrArg (fun v : Byte => v.getLsbD (i % 8)) (h (BitVec.ofNat 2 (i / 8)))
  have hdiv : i / 8 % 4 = i / 8 := Nat.mod_eq_of_lt (by omega)
  have hpos : 8 * (i / 8) + i % 8 = i := Nat.div_add_mod i 8
  have hlt : i % 8 < 8 := Nat.mod_lt _ (by omega)
  simpa [byteOf, hdiv, hpos, hlt] using hb

@[simp] theorem byteOf_mergeBytes (old new : Word) (be : BitVec 4) (b : BitVec 2) :
    byteOf (mergeBytes old new be) b =
      if be.getLsbD b.toNat then byteOf new b else byteOf old b := by
  apply BitVec.eq_of_getLsbD_eq
  intro i hi
  rcases bitVec2_cases b with rfl | rfl | rfl | rfl <;>
    simp [byteOf, mergeBytes, hi] <;> grind

/-- A write with no byte enabled changes nothing. -/
@[simp] theorem mergeBytes_zero (old new : Word) : mergeBytes old new 0#4 = old :=
  word_ext fun b => by simp

/-- A write with every byte enabled replaces the word. -/
@[simp] theorem mergeBytes_full (old new : Word) : mergeBytes old new 15#4 = new :=
  word_ext fun b => by rcases bitVec2_cases b with rfl | rfl | rfl | rfl <;> simp

/-! ## Bytes and words of a line -/

/-- The byte at the offset `o` of a line. -/
def lineByte (l : Line) (o : BitVec 4) : Byte := l.extractLsb' (8 * o.toNat) 8

/-- The word `k` of a line. -/
def lineWord (l : Line) (k : BitVec 2) : Word := l.extractLsb' (32 * k.toNat) 32

/-- The word an offset of a line falls in. -/
def bankOf (o : BitVec 4) : BitVec 2 := o.extractLsb' 2 2

/-- The byte of its word an offset of a line falls on. -/
def laneOf (o : BitVec 4) : BitVec 2 := o.extractLsb' 0 2

theorem byteOf_lineWord (l : Line) (o : BitVec 4) :
    byteOf (lineWord l (bankOf o)) (laneOf o) = lineByte l o := by
  have key : 32 * (bankOf o).toNat + 8 * (laneOf o).toNat = 8 * o.toNat ∧ (laneOf o).toNat < 4 := by
    revert o; decide
  apply BitVec.eq_of_getLsbD_eq
  intro i hi
  have h32 : 8 * (laneOf o).toNat + i < 32 := by omega
  simp only [byteOf, lineWord, lineByte, BitVec.getLsbD_extractLsb', hi, h32, decide_true,
    Bool.true_and, ← key.1, Nat.add_assoc]

/-- The line with the given words. -/
def lineOfWords (w : BitVec 2 → Word) : Line := w 3 ++ w 2 ++ w 1 ++ w 0

@[simp] theorem lineWord_lineOfWords (w : BitVec 2 → Word) (k : BitVec 2) :
    lineWord (lineOfWords w) k = w k := by
  apply BitVec.eq_of_getLsbD_eq
  intro i hi
  rcases bitVec2_cases k with rfl | rfl | rfl | rfl <;>
    simp [lineWord, lineOfWords, hi] <;> grind

theorem lineByte_lineOfWords (w : BitVec 2 → Word) (o : BitVec 4) :
    lineByte (lineOfWords w) o = byteOf (w (bankOf o)) (laneOf o) := by
  rw [← byteOf_lineWord, lineWord_lineOfWords]

/-- The halfword `h` of a line. -/
def lineHalf (l : Line) (h : BitVec 3) : Half := l.extractLsb' (16 * h.toNat) 16

theorem lineHalf_eq (l : Line) (h : BitVec 3) :
    lineHalf l h = lineByte l (h ++ 1#1) ++ lineByte l (h ++ 0#1) := by
  have h1 : (h ++ 1#1 : BitVec 4).toNat = 2 * h.toNat + 1 := by revert h; decide
  have h0 : (h ++ 0#1 : BitVec 4).toNat = 2 * h.toNat := by revert h; decide
  apply BitVec.eq_of_getLsbD_eq
  intro i hi
  rw [BitVec.getLsbD_append, lineHalf, lineByte, lineByte, h1, h0]
  split
  next h8 => simp [hi, h8, ← Nat.mul_assoc]
  next h8 =>
    have h8' : i - 8 < 8 := by omega
    have he : 8 * (2 * h.toNat + 1) + (i - 8) = 16 * h.toNat + i := by omega
    simp [hi, h8', he]

/-- A line is determined by its bytes. -/
theorem line_ext {x y : Line} (h : ∀ o, lineByte x o = lineByte y o) : x = y := by
  apply BitVec.eq_of_getLsbD_eq
  intro i hi
  have hb := congrArg (fun v : Byte => v.getLsbD (i % 8)) (h (BitVec.ofNat 4 (i / 8)))
  have hdiv : i / 8 % 16 = i / 8 := Nat.mod_eq_of_lt (by omega)
  have hpos : 8 * (i / 8) + i % 8 = i := Nat.div_add_mod i 8
  have hlt : i % 8 < 8 := Nat.mod_lt _ (by omega)
  simpa [lineByte, hdiv, hpos, hlt] using hb

/-! ## Flat memories -/

/-- A flat memory: the byte at every address. -/
abbrev Mem := Word → Byte

/-- The offset of an address in its line. -/
def offsetOf (a : Word) : BitVec 4 := a.extractLsb' 0 4

/-- The line an address falls in. -/
def lineNo (a : Word) : BitVec 28 := a.extractLsb' 4 28

/-- The word an address falls in. -/
def wordNo (a : Word) : BitVec 30 := a.extractLsb' 2 30

/-- The byte of its word an address falls on. -/
def byteNo (a : Word) : BitVec 2 := a.extractLsb' 0 2

theorem bankOf_offsetOf (a : Word) : bankOf (offsetOf a) = a.extractLsb' 2 2 := by
  simp [bankOf, offsetOf, BitVec.extractLsb'_extractLsb'_of_le]

theorem laneOf_offsetOf (a : Word) : laneOf (offsetOf a) = byteNo a := by
  simp [laneOf, offsetOf, byteNo, BitVec.extractLsb'_extractLsb'_of_le]

/-- An address is the number of its word and its byte in it. -/
theorem wordNo_append_byteNo (a : Word) : (wordNo a ++ byteNo a : BitVec 32) = a :=
  BitVec.extractLsb'_append_extractLsb'

/-- An address is the number of its line and its offset in it. -/
theorem lineNo_append_offsetOf (a : Word) : (lineNo a ++ offsetOf a : BitVec 32) = a :=
  BitVec.extractLsb'_append_extractLsb'

theorem wordNo_eq_append (a : Word) : wordNo a = (lineNo a ++ a.extractLsb' 2 2 : BitVec 30) :=
  have h : a.extractLsb' 4 28 ++ a.extractLsb' 2 2 = a.extractLsb' 2 (28 + 2) :=
    BitVec.extractLsb'_append_extractLsb'_eq_extractLsb' rfl
  h.symm

/-- Two addresses fall in one word exactly when they fall in one line and in the
    same word of it. -/
theorem wordNo_eq_iff {a b : Word} :
    wordNo a = wordNo b ↔ lineNo a = lineNo b ∧ a.extractLsb' 2 2 = b.extractLsb' 2 2 := by
  constructor
  · intro h
    have hl : ∀ c : Word, lineNo c = (wordNo c).extractLsb' 2 28 := fun c => by
      rw [wordNo_eq_append]; exact BitVec.extractLsb'_append_eq_left.symm
    have hb : ∀ c : Word, c.extractLsb' 2 2 = (wordNo c).extractLsb' 0 2 := fun c => by
      rw [wordNo_eq_append]; exact BitVec.extractLsb'_append_eq_right.symm
    exact ⟨by rw [hl, hl, h], by rw [hb, hb, h]⟩
  · rintro ⟨hl, hb⟩
    rw [wordNo_eq_append, wordNo_eq_append, hl, hb]

/-- The halfword an address falls in. -/
def halfNo (a : Word) : BitVec 31 := a.extractLsb' 1 31

theorem lineNo_halfNo_append (a : Word) (b : BitVec 1) :
    lineNo (halfNo a ++ b : BitVec 32) = lineNo a := by
  apply BitVec.eq_of_getLsbD_eq
  intro i hi
  have hb : (a.extractLsb' 1 31 ++ b).getLsbD (4 + i) = a.getLsbD (4 + i) := by
    rw [BitVec.getLsbD_append, if_neg (by omega), BitVec.getLsbD_extractLsb',
      show 1 + (4 + i - 1) = 4 + i by omega, decide_eq_true (by omega : 4 + i - 1 < 31),
      Bool.true_and]
  simpa [lineNo, halfNo, hi] using hb

theorem toNat_halfNo_append (a : Word) (b : BitVec 1) :
    (halfNo a ++ b : BitVec 32).toNat = a.toNat / 2 * 2 + b.toNat := by
  rw [BitVec.toNat_append, ← Nat.shiftLeft_add_eq_or_of_lt b.isLt, Nat.shiftLeft_eq, halfNo,
    BitVec.extractLsb'_toNat, Nat.shiftRight_eq_div_pow]
  have := a.isLt
  omega

theorem offsetOf_halfNo_append (a : Word) (b : BitVec 1) :
    offsetOf (halfNo a ++ b : BitVec 32) = (a.extractLsb' 1 3 ++ b : BitVec 4) := by
  apply BitVec.eq_of_getLsbD_eq
  intro i hi
  have hb : (a.extractLsb' 1 31 ++ b).getLsbD i = (a.extractLsb' 1 3 ++ b).getLsbD i := by
    rw [BitVec.getLsbD_append, BitVec.getLsbD_append, BitVec.getLsbD_extractLsb',
      BitVec.getLsbD_extractLsb', decide_eq_true (by omega : i - 1 < 31),
      decide_eq_true (by omega : i - 1 < 3)]
  simpa [offsetOf, halfNo, hi] using hb

namespace Mem

/-- The word the address `a` falls in. -/
def word (m : Mem) (a : Word) : Word :=
  m (wordNo a ++ 3#2) ++ m (wordNo a ++ 2#2) ++ m (wordNo a ++ 1#2) ++ m (wordNo a ++ 0#2)

/-- The halfword the address `a` falls in. -/
def half (m : Mem) (a : Word) : Half := m (halfNo a ++ 1#1) ++ m (halfNo a ++ 0#1)

/-- The line the address `a` falls in. -/
def line (m : Mem) (a : Word) : Line :=
  lineOfWords fun k => m.word ((lineNo a ++ k ++ 0#2 : BitVec 32))

/-- A write of the bytes of `data` enabled by `be` to the word of `a`. -/
def store (m : Mem) (a data : Word) (be : BitVec 4) : Mem := fun x =>
  if wordNo x = wordNo a ∧ be.getLsbD (byteNo x).toNat then byteOf data (byteNo x) else m x

/-- A store of the `n` low bytes of `data` from the address `a` on. -/
def storeBytes (m : Mem) (a data : Word) (n : ℕ) : Mem := fun x =>
  if (x - a).toNat < n then data.extractLsb' (8 * (x - a).toNat) 8 else m x

/-- A write of the whole line of `a`. -/
def setLine (m : Mem) (a : Word) (l : Line) : Mem := fun x =>
  if lineNo x = lineNo a then lineByte l (offsetOf x) else m x

theorem byteOf_word (m : Mem) (a : Word) (b : BitVec 2) :
    byteOf (m.word a) b = m (wordNo a ++ b) := by
  apply BitVec.eq_of_getLsbD_eq
  intro i hi
  rcases bitVec2_cases b with rfl | rfl | rfl | rfl <;> simp [byteOf, word, hi] <;> grind

/-- The bytes of a word of memory are those at its addresses. -/
theorem byteOf_word_byteNo (m : Mem) {a x : Word} (h : wordNo x = wordNo a) :
    byteOf (m.word a) (byteNo x) = m x := by
  rw [byteOf_word, ← h, wordNo_append_byteNo]

theorem line_of_lineNo_eq {m : Mem} {a b : Word} (h : lineNo a = lineNo b) : m.line a = m.line b := by
  rw [line, line, h]

/-- The bytes of a line of memory are those at its addresses. -/
theorem lineByte_line (m : Mem) {a x : Word} (h : lineNo x = lineNo a) :
    lineByte (m.line a) (offsetOf x) = m x := by
  rw [line, lineByte_lineOfWords, laneOf_offsetOf, byteOf_word_byteNo]
  rw [bankOf_offsetOf, ← h]
  calc wordNo x = (lineNo x ++ x.extractLsb' 2 2 : BitVec 30) := wordNo_eq_append x
    _ = wordNo (lineNo x ++ x.extractLsb' 2 2 ++ 0#2 : BitVec 32) :=
        BitVec.extractLsb'_append_eq_left.symm

/-- The halfwords of a line of memory are those at its addresses. -/
theorem lineHalf_line (m : Mem) {a b : Word} (h : lineNo b = lineNo a) :
    lineHalf (m.line a) (b.extractLsb' 1 3) = m.half b := by
  rw [lineHalf_eq, ← offsetOf_halfNo_append, ← offsetOf_halfNo_append,
    lineByte_line _ ((lineNo_halfNo_append b 1#1).trans h),
    lineByte_line _ ((lineNo_halfNo_append b 0#1).trans h), half]

theorem line_setLine (m : Mem) (x : Word) (l : Line) : (m.setLine x l).line x = l := by
  apply line_ext
  intro o
  have ho : offsetOf (lineNo x ++ o) = o := BitVec.extractLsb'_append_eq_right
  have hl : lineNo (lineNo x ++ o) = lineNo x := BitVec.extractLsb'_append_eq_left
  rw [← ho, lineByte_line _ hl, setLine, if_pos hl]

/-- Writing the same bytes again changes nothing. -/
@[simp] theorem store_store (m : Mem) (a data : Word) (be : BitVec 4) :
    (m.store a data be).store a data be = m.store a data be := by
  funext x
  simp only [store]
  split <;> rfl

end Mem

end Rv32Soc
