import Rv32Soc.Cache.LoadStore

/-!
# The tightly-coupled memory

`tcm.v`: `2 ^ K` words from `TCM_BASE` on, in two banks of halfwords with an
instruction port, which may read the halves of two words, and a data port. Both
ports are registered: a request is answered on the next cycle. The banks are
read as they were before the writes of the same edge.

`Regs.byteAt` is the memory the banks hold, and `byteAt_next` what an edge does
to it: a store on the data port, and nothing else.
-/

namespace Rv32Soc

namespace Tcm

def TCM_BASE : Word := 0x40000000

/-- The size in bytes of a memory of `2 ^ K` words. -/
def TCM_BYTES (K : ℕ) : Word := BitVec.ofNat 32 (4 * 2 ^ K)

/-- The address is one of the memory's. -/
def inRange (K : ℕ) (a : Word) : Bool := TCM_BASE ≤ a && a < TCM_BASE + TCM_BYTES K

/-- The word of the banks an address falls in. -/
def index (K : ℕ) (a : Word) : BitVec K := (a - TCM_BASE).extractLsb' 2 K

/-- The registers and the banks. -/
structure Regs (K : ℕ) where
  memEven : BitVec K → Half
  memOdd : BitVec K → Half
  iRdataEven : Half
  iRdataOdd : Half
  iIsUnalignedReg : Bool
  iReady : Bool
  dRdataEven : Half
  dRdataOdd : Half
  dReady : Bool

/-- The input ports. -/
structure Inputs where
  iReq : Bool
  iAddr : Word
  dReq : Bool
  dWe : Bool
  dAddr : Word
  dWdata : Word
  dWmask : BitVec 4

/-- A write of the bytes of a halfword enabled by `lo` and `hi`. -/
def mergeHalf (old new : Half) (hi lo : Bool) : Half :=
  (if hi then new.extractLsb' 8 8 else old.extractLsb' 8 8) ++
    (if lo then new.extractLsb' 0 8 else old.extractLsb' 0 8)

variable {K : ℕ}

namespace Regs

variable (s : Regs K) (i : Inputs)

/-- The instruction, stitched from the banks. -/
def iRdata : Word :=
  if s.iIsUnalignedReg then s.iRdataEven ++ s.iRdataOdd else s.iRdataOdd ++ s.iRdataEven

def dRdata : Word := s.dRdataOdd ++ s.dRdataEven

/-- The registers after an edge. -/
def next : Regs K :=
  let iOffset := i.iAddr - TCM_BASE
  let isUnaligned := iOffset.getLsbD 1
  let evenIdx := if isUnaligned then index K i.iAddr + 1 else index K i.iAddr
  let iGo := i.iReq && inRange K i.iAddr
  let dGo := i.dReq && inRange K i.dAddr
  let dIndex := index K i.dAddr
  { memEven := fun x =>
      if dGo && i.dWe && x == dIndex then
        mergeHalf (s.memEven x) (i.dWdata.extractLsb' 0 16) (i.dWmask.getLsbD 1) (i.dWmask.getLsbD 0)
      else s.memEven x
    memOdd := fun x =>
      if dGo && i.dWe && x == dIndex then
        mergeHalf (s.memOdd x) (i.dWdata.extractLsb' 16 16) (i.dWmask.getLsbD 3) (i.dWmask.getLsbD 2)
      else s.memOdd x
    iRdataEven := if iGo then s.memEven evenIdx else s.iRdataEven
    iRdataOdd := if iGo then s.memOdd (index K i.iAddr) else s.iRdataOdd
    iIsUnalignedReg := if iGo then isUnaligned else s.iIsUnalignedReg
    iReady := iGo
    dRdataEven := if dGo then s.memEven dIndex else s.dRdataEven
    dRdataOdd := if dGo then s.memOdd dIndex else s.dRdataOdd
    dReady := dGo }

/-- The registers a reset leaves; the banks keep the image they were loaded with. -/
def IsReset : Prop :=
  s.iRdataEven = 0 ∧ s.iRdataOdd = 0 ∧ s.iIsUnalignedReg = false ∧ s.iReady = false ∧
    s.dRdataEven = 0 ∧ s.dRdataOdd = 0 ∧ s.dReady = false

/-- The word the banks hold for the address `a`. -/
def wordAt (a : Word) : Word := s.memOdd (index K a) ++ s.memEven (index K a)

/-- The byte the banks hold for the address `a`. -/
def byteAt : Mem := fun a => byteOf (s.wordAt a) (byteNo a)

end Regs

/-! ## Addresses -/

theorem inRange_iff (hK : K ≤ 28) (a : Word) :
    inRange K a = true ↔ 0x40000000 ≤ a.toNat ∧ a.toNat < 0x40000000 + 4 * 2 ^ K := by
  have hpow : 4 * 2 ^ K ≤ 4 * 2 ^ 28 := Nat.mul_le_mul_left 4 (Nat.pow_le_pow_right (by decide) hK)
  have hsum : (TCM_BASE + TCM_BYTES K).toNat = 0x40000000 + 4 * 2 ^ K := by
    rw [BitVec.toNat_add, TCM_BYTES, BitVec.toNat_ofNat, show TCM_BASE.toNat = 0x40000000 from rfl]
    omega
  rw [inRange, Bool.and_eq_true, decide_eq_true_eq, decide_eq_true_eq, BitVec.le_def, BitVec.lt_def,
    hsum, show TCM_BASE.toNat = 0x40000000 from rfl]

/-- The addresses of one word are all the memory's or none is. -/
theorem inRange_congr (hK : K ≤ 28) {a b : Word} (h : wordNo a = wordNo b) :
    inRange K a = inRange K b := by
  rw [← BitVec.toNat_inj, toNat_wordNo, toNat_wordNo] at h
  rw [Bool.eq_iff_iff, inRange_iff hK, inRange_iff hK]
  omega

/-- Two addresses of the memory are of one word when the banks hold them at one index. -/
theorem index_eq_iff (hK : K ≤ 28) {a b : Word} (ha : inRange K a = true) (hb : inRange K b = true) :
    index K a = index K b ↔ wordNo a = wordNo b := by
  have key : ∀ c, inRange K c = true → (index K c).toNat = c.toNat / 4 - 0x10000000 := by
    intro c hc
    rw [inRange_iff hK] at hc
    have hlt := c.isLt
    have hpow : 2 ^ K ≤ 2 ^ 28 := Nat.pow_le_pow_right (by decide) hK
    have hsub : (c - TCM_BASE).toNat = c.toNat - 0x40000000 := by
      rw [BitVec.toNat_sub, show TCM_BASE.toNat = 0x40000000 from rfl]
      omega
    rw [index, BitVec.extractLsb'_toNat, Nat.shiftRight_eq_div_pow, hsub, Nat.mod_eq_of_lt (by omega)]
    omega
  rw [inRange_iff hK] at ha hb
  rw [← BitVec.toNat_inj, ← BitVec.toNat_inj, key a ((inRange_iff hK a).2 ha),
    key b ((inRange_iff hK b).2 hb), toNat_wordNo, toNat_wordNo]
  omega

/-! ## The memory -/

variable {s : Regs K} {i : Inputs}

theorem byteOf_mergeHalf (o e o' e' : Half) (be : BitVec 4) (w : Word)
    (ho : o' = mergeHalf o (w.extractLsb' 16 16) (be.getLsbD 3) (be.getLsbD 2))
    (he : e' = mergeHalf e (w.extractLsb' 0 16) (be.getLsbD 1) (be.getLsbD 0)) (b : BitVec 2) :
    byteOf (o' ++ e') b = if be.getLsbD b.toNat then byteOf w b else byteOf (o ++ e) b := by
  subst ho he
  apply BitVec.eq_of_getLsbD_eq
  intro i hi
  rcases bitVec2_cases b with rfl | rfl | rfl | rfl <;>
    simp [byteOf, mergeHalf, hi] <;> grind

/-- An edge does to the memory what the data port asks. -/
theorem byteAt_next (hK : K ≤ 28) {x : Word} (hx : inRange K x = true) :
    (s.next i).byteAt x =
      (if i.dReq && inRange K i.dAddr && i.dWe then s.byteAt.store i.dAddr i.dWdata i.dWmask
        else s.byteAt) x := by
  cases hgo : i.dReq && inRange K i.dAddr && i.dWe with
  | false => simp [Regs.byteAt, Regs.wordAt, Regs.next, hgo]
  | true =>
    have hr : inRange K i.dAddr = true := by simp_all
    simp only [if_true, Mem.store]
    by_cases hw : wordNo x = wordNo i.dAddr
    · have hi : index K x = index K i.dAddr := (index_eq_iff hK hx hr).2 hw
      rw [Regs.byteAt, Regs.wordAt, byteOf_mergeHalf (s.memOdd (index K x)) (s.memEven (index K x))
        _ _ i.dWmask i.dWdata (by simp [Regs.next, hgo, hi]) (by simp [Regs.next, hgo, hi])]
      simp [hw, Regs.byteAt, Regs.wordAt]
    · have hi : index K x ≠ index K i.dAddr := fun h => hw ((index_eq_iff hK hx hr).1 h)
      simp [hw, Regs.byteAt, Regs.wordAt, Regs.next, hi]

/-- The word of the banks is the memory's. -/
theorem wordAt_eq (hK : K ≤ 28) {a : Word} (ha : inRange K a = true) {m : Mem}
    (hm : ∀ x, inRange K x = true → s.byteAt x = m x) : s.wordAt a = m.word a := by
  apply word_ext
  intro b
  let x : Word := wordNo a ++ b
  have hw : wordNo x = wordNo a := BitVec.extractLsb'_append_eq_left
  have hb : byteNo x = b := BitVec.extractLsb'_append_eq_right
  have hx : inRange K x = true := (inRange_congr hK hw).trans ha
  rw [Mem.byteOf_word, ← hm x hx, Regs.byteAt, Regs.wordAt, Regs.wordAt,
    (index_eq_iff hK hx ha).2 hw, hb]

end Tcm

end Rv32Soc
