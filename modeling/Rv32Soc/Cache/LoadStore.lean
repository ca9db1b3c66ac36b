import Rv32Soc.Lib.Bytes

/-!
# Partial stores and loads

`partial_store.v` and `partial_load.v`: the MEM stage reads and writes whole
words, so a byte or a halfword is replicated over the word and stored under a
byte mask, and is selected from the loaded word and extended to 32 bits.

`Mem.storeBytes` and `Mem.loadValue` are what a store and a load mean on a flat
memory: the bytes from the address on, least significant first. On aligned
addresses the two modules do just that, to the word of the address
(`store_partialStore`, `partialLoad_word`).
-/

namespace Rv32Soc

/-! ## The modules -/

/-- The outputs of `partial_store`. -/
structure PartialStore where
  memWriteMask : BitVec 4
  dataToMem : Word

def partialStore (inst memAddress dataFromReg : Word) (memRw : Bool) : PartialStore :=
  let sb : Word := dataFromReg.extractLsb' 0 8 ++ dataFromReg.extractLsb' 0 8 ++
    dataFromReg.extractLsb' 0 8 ++ dataFromReg.extractLsb' 0 8
  let sh : Word := dataFromReg.extractLsb' 0 16 ++ dataFromReg.extractLsb' 0 16
  let shMask : BitVec 4 := if memAddress.getLsbD 1 then 0b1100 else 0b0011
  let sbMask : BitVec 4 :=
    if byteNo memAddress = 0b00 then 0b0001
    else if byteNo memAddress = 0b01 then 0b0010
    else if byteNo memAddress = 0b10 then 0b0100
    else 0b1000
  let size : BitVec 2 := inst.extractLsb' 12 2
  let temp : BitVec 4 := if size = 0b00 then sbMask else if size = 0b01 then shMask else 0b1111
  { memWriteMask := temp &&& (if memRw then 0b1111 else 0b0000)
    dataToMem := if size = 0b00 then sb else if size = 0b01 then sh else dataFromReg }

def partialLoad (inst memAddress dataFromMem : Word) : Word :=
  let select : BitVec 3 := inst.extractLsb' 12 3
  let byteSel : Byte :=
    if byteNo memAddress = 0b00 then dataFromMem.extractLsb' 0 8
    else if byteNo memAddress = 0b01 then dataFromMem.extractLsb' 8 8
    else if byteNo memAddress = 0b10 then dataFromMem.extractLsb' 16 8
    else dataFromMem.extractLsb' 24 8
  let halfSel : Half :=
    if memAddress.getLsbD 1 then dataFromMem.extractLsb' 16 16 else dataFromMem.extractLsb' 0 16
  if select = 0 then byteSel.signExtend 32
  else if select = 1 then halfSel.signExtend 32
  else if select = 2 then dataFromMem
  else if select = 4 then byteSel.setWidth 32
  else if select = 5 then halfSel.setWidth 32
  else 0

/-! ## What they mean -/

/-- The number of bytes a load or a store of the size `inst[13:12]` moves. -/
def accessBytes (size : BitVec 2) : ℕ := if size = 0 then 1 else if size = 1 then 2 else 4

/-- The address of the access is a multiple of its size. -/
def Aligned (inst a : Word) : Prop := a.toNat % accessBytes (inst.extractLsb' 12 2) = 0

instance (inst a : Word) : Decidable (Aligned inst a) := inferInstanceAs (Decidable (_ = _))

namespace Mem

/-- The value a load of kind `select` (`funct3`) returns from the address `a`. -/
def loadValue (m : Mem) (select : BitVec 3) (a : Word) : Word :=
  if select = 0 then (m a).signExtend 32
  else if select = 1 then (m (a + 1) ++ m a).signExtend 32
  else if select = 2 then m (a + 3) ++ m (a + 2) ++ m (a + 1) ++ m a
  else if select = 4 then (m a).setWidth 32
  else if select = 5 then (m (a + 1) ++ m a).setWidth 32
  else 0

end Mem

/-! ## That they do it -/

theorem toNat_wordNo (a : Word) : (wordNo a).toNat = a.toNat / 4 := by
  have h := a.isLt
  rw [wordNo, BitVec.extractLsb'_toNat, Nat.shiftRight_eq_div_pow, Nat.mod_eq_of_lt (by omega)]

theorem toNat_byteNo (a : Word) : (byteNo a).toNat = a.toNat % 4 := by
  rw [byteNo, BitVec.extractLsb'_toNat, Nat.shiftRight_eq_div_pow, pow_zero, Nat.div_one]

theorem getLsbD_one_eq_byteNo (a : Word) : a.getLsbD 1 = (byteNo a).getLsbD 1 := by
  simp [byteNo]

/-- Of the bytes of one word, an aligned access moves those from its own on. -/
theorem accessBytes_cases {inst a : Word} (h : Aligned inst a) :
    accessBytes (inst.extractLsb' 12 2) = 1 ∨
      accessBytes (inst.extractLsb' 12 2) = 2 ∧ a.toNat % 2 = 0 ∨
      accessBytes (inst.extractLsb' 12 2) = 4 ∧ a.toNat % 4 = 0 := by
  rw [Aligned, accessBytes] at *
  split_ifs at * <;> omega

/-- The bytes enabled are those the access moves, and hold what it stores. -/
theorem partialStore_byte {inst a : Word} (data : Word) (h : Aligned inst a) (b : BitVec 2) :
    ((partialStore inst a data true).memWriteMask.getLsbD b.toNat = true ↔
        (byteNo a).toNat ≤ b.toNat ∧ b.toNat < (byteNo a).toNat + accessBytes (inst.extractLsb' 12 2)) ∧
      ((byteNo a).toNat ≤ b.toNat → b.toNat < (byteNo a).toNat + accessBytes (inst.extractLsb' 12 2) →
        byteOf (partialStore inst a data true).dataToMem b =
          data.extractLsb' (8 * (b.toNat - (byteNo a).toNat)) 8) := by
  have hal : (byteNo a).toNat % accessBytes (inst.extractLsb' 12 2) = 0 := by
    rw [toNat_byteNo]
    rcases accessBytes_cases h with hn | ⟨hn, ha⟩ | ⟨hn, ha⟩ <;> rw [hn] <;> omega
  simp only [partialStore, getLsbD_one_eq_byteNo, if_true]
  generalize inst.extractLsb' 12 2 = size at *
  generalize byteNo a = c at *
  constructor
  · revert size c b
    decide
  · intro hle hlt
    apply BitVec.eq_of_getLsbD_eq
    intro i hi
    rcases bitVec2_cases size with rfl | rfl | rfl | rfl <;>
    rcases bitVec2_cases c with rfl | rfl | rfl | rfl <;>
    rcases bitVec2_cases b with rfl | rfl | rfl | rfl <;>
      simp [accessBytes] at hal hle hlt <;>
      simp [byteOf, hi] <;> grind

/-- A store through `partial_store` stores the bytes of the access. -/
theorem Mem.store_partialStore (m : Mem) {inst a : Word} (h : Aligned inst a) (data : Word) :
    m.store a (partialStore inst a data true).dataToMem (partialStore inst a data true).memWriteMask =
      m.storeBytes a data (accessBytes (inst.extractLsb' 12 2)) := by
  funext x
  obtain ⟨hmask, hdata⟩ := partialStore_byte data h (byteNo x)
  have hx := x.isLt
  have ha := a.isLt
  -- The bytes moved are the next ones of the word, and do not leave it.
  have hin : (wordNo x = wordNo a ∧ (byteNo a).toNat ≤ (byteNo x).toNat ∧
      (byteNo x).toNat < (byteNo a).toNat + accessBytes (inst.extractLsb' 12 2)) ↔
      (x - a).toNat < accessBytes (inst.extractLsb' 12 2) := by
    rw [← BitVec.toNat_inj, toNat_wordNo, toNat_wordNo, toNat_byteNo, toNat_byteNo, BitVec.toNat_sub]
    rcases accessBytes_cases h with hn | ⟨hn, hal⟩ | ⟨hn, hal⟩ <;> rw [hn] <;> omega
  simp only [store, storeBytes, hmask, hin]
  split
  next hlt =>
    obtain ⟨hw, hle, hub⟩ := hin.2 hlt
    have hk : (byteNo x).toNat - (byteNo a).toNat = (x - a).toNat := by
      rw [← BitVec.toNat_inj, toNat_wordNo, toNat_wordNo] at hw
      rw [toNat_byteNo, toNat_byteNo] at hle ⊢
      rw [BitVec.toNat_sub]
      omega
    rw [hdata hle hub, hk]
  next => rfl

/-- The byte `k` of a word of memory, counted from an address of it. -/
theorem Mem.byteOf_word_add (m : Mem) {a : Word} {k : ℕ} (h : a.toNat % 4 + k < 4) :
    byteOf (m.word a) (BitVec.ofNat 2 (a.toNat % 4 + k)) = m (a + BitVec.ofNat 32 k) := by
  have ha := a.isLt
  have hk : (a + BitVec.ofNat 32 k).toNat = a.toNat + k := by
    rw [BitVec.toNat_add, BitVec.toNat_ofNat]
    omega
  have hb : BitVec.ofNat 2 (a.toNat % 4 + k) = byteNo (a + BitVec.ofNat 32 k) := by
    apply BitVec.eq_of_toNat_eq
    rw [toNat_byteNo, hk, BitVec.toNat_ofNat]
    omega
  rw [hb, byteOf_word_byteNo]
  apply BitVec.eq_of_toNat_eq
  rw [toNat_wordNo, toNat_wordNo, hk]
  omega

theorem byteSel_eq (w : Word) (b : BitVec 2) :
    (if b = 0b00 then w.extractLsb' 0 8 else if b = 0b01 then w.extractLsb' 8 8
      else if b = 0b10 then w.extractLsb' 16 8 else w.extractLsb' 24 8) = byteOf w b := by
  rcases bitVec2_cases b with rfl | rfl | rfl | rfl <;> rfl

theorem half_eq_bytes (w : Word) :
    w.extractLsb' 0 16 = byteOf w 1 ++ byteOf w 0 ∧ w.extractLsb' 16 16 = byteOf w 3 ++ byteOf w 2 := by
  constructor <;> apply BitVec.eq_of_getLsbD_eq <;> intro i hi <;> simp [byteOf, hi] <;> grind

theorem word_eq_bytes (w : Word) : w = byteOf w 3 ++ byteOf w 2 ++ byteOf w 1 ++ byteOf w 0 := by
  apply BitVec.eq_of_getLsbD_eq
  intro i hi
  simp [byteOf]
  grind

/-- A load through `partial_load`, from the word of the address, is that of the access. -/
theorem Mem.partialLoad_word (m : Mem) {inst a : Word} (h : Aligned inst a) :
    partialLoad inst a (m.word a) = m.loadValue (inst.extractLsb' 12 3) a := by
  have hlow : inst.extractLsb' 12 2 = (inst.extractLsb' 12 3).extractLsb' 0 2 := by
    rw [extractLsb'_extractLsb' _ (by decide)]
  have hbyte : byteOf (m.word a) (byteNo a) = m a := byteOf_word_byteNo m rfl
  -- A halfword is the two bytes from its address on, in either half of the word.
  have hhalf : a.toNat % 2 = 0 →
      (if a.getLsbD 1 then (m.word a).extractLsb' 16 16 else (m.word a).extractLsb' 0 16) =
        m (a + 1) ++ m a := by
    intro hal
    have h0 := m.byteOf_word_add (a := a) (k := 0) (by omega)
    have h1 := m.byteOf_word_add (a := a) (k := 1) (by omega)
    have hbit : a.getLsbD 1 = decide (a.toNat % 4 = 2) := by
      rw [BitVec.getLsbD, Nat.testBit_eq_decide_div_mod_eq]
      congr 1
      exact propext (by omega)
    rw [hbit]
    rcases (by omega : a.toNat % 4 = 0 ∨ a.toNat % 4 = 2) with h4 | h4
    · rw [h4] at h0 h1 ⊢
      rw [(half_eq_bytes _).1]
      simpa using congrArg₂ (· ++ ·) h1 h0
    · rw [h4] at h0 h1 ⊢
      rw [(half_eq_bytes _).2]
      simpa using congrArg₂ (· ++ ·) h1 h0
  have hword : a.toNat % 4 = 0 → m.word a = m (a + 3) ++ m (a + 2) ++ m (a + 1) ++ m a := by
    intro hal
    have hk : ∀ k < 4, byteOf (m.word a) (BitVec.ofNat 2 k) = m (a + BitVec.ofNat 32 k) := by
      intro k hk
      have := m.byteOf_word_add (a := a) (k := k) (by omega)
      rwa [hal, Nat.zero_add] at this
    have h0 := hk 0 (by decide)
    rw [show a + BitVec.ofNat 32 0 = a from BitVec.add_zero a] at h0
    rw [word_eq_bytes (m.word a)]
    exact congrArg₂ (· ++ ·) (congrArg₂ (· ++ ·) (congrArg₂ (· ++ ·) (hk 3 (by decide))
      (hk 2 (by decide))) (hk 1 (by decide))) h0
  rw [Aligned, hlow] at h
  simp only [partialLoad, loadValue, byteSel_eq, hbyte]
  generalize inst.extractLsb' 12 3 = select at h ⊢
  generalize (if a.getLsbD 1 then (m.word a).extractLsb' 16 16 else (m.word a).extractLsb' 0 16) = half
    at hhalf ⊢
  split_ifs with h0 h1 h2 h4 h5
  · rfl
  · rw [hhalf (by simpa [h1, accessBytes] using h)]
  · exact hword (by simpa [h2, accessBytes] using h)
  · rfl
  · rw [hhalf (by simpa [h5, accessBytes] using h)]
  · rfl

end Rv32Soc
