import Rv32Soc.Core.System

/-!
# Illegal instructions

The decoder looks at two bits of `funct7`, at one field of an atomic instruction, and takes whatever
`rvc_expand` makes of a halfword. So there are words that stand for no instruction and that it takes for
one (`Lax`). All others that stand for none trap.

* `laxWord_iff`, `laxCompressed_iff`: what the decoder takes though it stands for nothing;
* `Core.InEx.rejects`: what happens to an instruction that is marked illegal;
* `trapsIfIllegal_iff`: the words that do not go through.
-/

namespace Rv32Soc

/-! ## Words that are let through -/

/-- An atomic instruction that is none: the decoder looks at `funct5` for `LR` and `SC` only. -/
def laxAtomic (f₃ : BitVec 3) (f₅ x₂ : BitVec 5) : Prop :=
  f₃ ≠ 0b010 ∨ f₅ = 0b00010 ∧ x₂ ≠ 0 ∨ f₅ ≠ 0b00010 ∧ f₅ ≠ 0b00011 ∧
  Riscv.amoOp f₅ = none

/-- An instruction on two registers, of whose `funct7` only the bits 5 and 0 count. -/
def laxOp (f₃ : BitVec 3) (f₇ : BitVec 7) : Prop :=
  f₇ ∉ [0b0000000, 0b0000001, 0b0100000, (0b0010000 : BitVec 7)] ∧
    (f₇.getLsbD 5 = false ∨ f₇.getLsbD 0 = false ∧ (f₃ = 0b000 ∨ f₃ = 0b101))

/-- A shift by an immediate, of whose `funct7` only the bit 5 counts. -/
def laxOpImm (f₃ : BitVec 3) (f₇ : BitVec 7) : Prop :=
  f₃ = 0b001 ∧ f₇ ≠ 0 ∧ f₇.getLsbD 5 = false ∨ f₃ = 0b101 ∧ f₇ ≠ 0 ∧ f₇ ≠ 0b0100000

instance (f₃ : BitVec 3) (f₇ : BitVec 7) : Decidable (laxOp f₃ f₇) :=
  inferInstanceAs (Decidable (_ ∧ _))
instance (f₃ : BitVec 3) (f₇ : BitVec 7) : Decidable (laxOpImm f₃ f₇) :=
  inferInstanceAs (Decidable (_ ∨ _))

def LaxWord (w : Word) : Prop :=
  opcode w = 0b0101111 ∧ laxAtomic (funct3 w) (Riscv.funct5 w) (rs2Field w) ∨
    opcode w = 0b0110011 ∧ laxOp (funct3 w) (Riscv.funct7 w) ∨
    opcode w = 0b0010011 ∧ laxOpImm (funct3 w) (Riscv.funct7 w)

/-- The reserved halfwords for which `rvc_expand` has an instruction: `C.ADDI4SPN`, `C.LUI` and
    `C.ADDI16SP` with the immediate zero, shifts with `shamt[5]`, arithmetic instructions of 64
    bits, `C.LWSP` to `x0`, `C.JR` to `x0`. -/
def LaxCompressed (h : Half) : Prop :=
  let quadrant := (h.extractLsb' 0 2).toNat
  let funct3 := (h.extractLsb' 13 3).toNat
  quadrant = 0b00 ∧ funct3 = 0b000 ∧ Riscv.Compressed.addi4spnImm h = 0 ∨
    quadrant = 0b01 ∧ funct3 = 0b011 ∧ Riscv.Compressed.ciImm h = 0 ∨
    quadrant = 0b01 ∧ funct3 = 0b100 ∧ (h.extractLsb' 10 2).toNat ≠ 0b10 ∧ h.getLsbD 12 ∨
    quadrant = 0b10 ∧ funct3 = 0b000 ∧ h.getLsbD 12 ∨
    quadrant = 0b10 ∧ funct3 = 0b010 ∧ Riscv.Compressed.rd h = 0 ∨
    quadrant = 0b10 ∧ funct3 = 0b100 ∧ Riscv.Compressed.rs2 h = 0 ∧ Riscv.Compressed.rd h = 0 ∧
    h.getLsbD 12 = false

/-! ## Words of 32 bits -/

section

variable {w : Word}

theorem funct7_bits (w : Word) :
    (Riscv.funct7 w).getLsbD 5 = w.getLsbD 30 ∧ (Riscv.funct7 w).getLsbD 0 = w.getLsbD 25 := by
  simp [Riscv.funct7]

theorem laxAtomic_iff (ho : opcode w = 0b0101111) :
    Riscv.decode w = none ↔ laxAtomic (funct3 w) (Riscv.funct5 w) (rs2Field w) := by
  rw [Riscv.decode_atomic ho, laxAtomic]
  show (if funct3 w = _ then if _ then if rs2Field w = 0 then _ else _ else _ else _) = _ ↔ _
  split_ifs with h₁ h₂ h₃ h₄ <;> simp_all

theorem laxOp_iff (ho : opcode w = 0b0110011) :
    Riscv.decode w = none ∧ (romDecoder w).isSome ↔ laxOp (funct3 w) (Riscv.funct7 w) := by
  have hall : ∀ f₃ f₇, Riscv.opOp f₃ f₇ = none ∧
      (if f₇ = 0b0010000#7 then
        if f₃ = 0b010 then some 45 else if f₃ = 0b100 then some 46
          else if f₃ = 0b110 then some 47 else none
      else romCase 0b01100 f₃ (f₇.getLsbD 5) (f₇.getLsbD 0)).isSome ↔
      laxOp f₃ f₇ := by decide +kernel
  rw [Riscv.decode_op ho, Option.map_eq_none_iff, romDecoder_op ho, ← (funct7_bits w).1,
    ← (funct7_bits w).2]
  exact hall _ _

/-- The opcodes for which the decoder has the whole table: those of `romDecoder_case`. -/
theorem romDecoder_isSome {c : BitVec 7} (h : opcode w = c) (h₀ : c ≠ 0) (h₁ : c ≠ 0b1111111)
    (h₂ : c.extractLsb' 2 5 ∉ [0b01011, 0b11100, 0b00011, (0b01100 : BitVec 5)]) :
    (romDecoder w).isSome =
      (romCase (c.extractLsb' 2 5) (funct3 w) ((Riscv.funct7 w).getLsbD 5)
        ((Riscv.funct7 w).getLsbD 0)).isSome := by
  rw [romDecoder_case h h₀ h₁ h₂, (funct7_bits w).1, (funct7_bits w).2]

theorem laxOpImm_iff (ho : opcode w = 0b0010011) :
    Riscv.decode w = none ∧ (romDecoder w).isSome ↔ laxOpImm (funct3 w) (Riscv.funct7 w) := by
  have hall : ∀ f₃ f₇, Riscv.opImmOp f₃ f₇ = none ∧
      (romCase 0b00100 f₃ (f₇.getLsbD 5) (f₇.getLsbD 0)).isSome ↔ laxOpImm f₃ f₇ := by
        decide +kernel
  rw [Riscv.decode_opImm ho, Option.map_eq_none_iff,
    romDecoder_isSome ho (by decide) (by decide) (by decide)]
  exact hall _ _

/-- A word with an opcode that is none. -/
theorem romDecoder_of_opcode (h11 : (opcode w).extractLsb' 0 2 = 0b11)
    (ho : opcode w ∉ [0b0110111, 0b0010111, 0b1101111, 0b1100111, 0b1100011, 0b0000011, 0b0100011,
      0b0010011, 0b0110011,
      0b0101111, 0b0001111, (0b1110011 : BitVec 7)]) : romDecoder w = none := by
  have hall : ∀ c : BitVec 7, c.extractLsb' 0 2 = 0b11 →
      c ∉ [0b0110111, 0b0010111, 0b1101111, 0b1100111, 0b1100011, 0b0000011, 0b0100011, 0b0010011,
        0b0110011, 0b0101111, 0b0001111, (0b1110011 : BitVec 7)] →
      c ≠ 0 ∧ c.extractLsb' 2 5 ∉ [0b01011, 0b11100, 0b00011, (0b01100 : BitVec 5)] ∧
        ∀ f b b', romCase (c.extractLsb' 2 5) f b b' = none := by decide +kernel
  obtain ⟨h₀, hn, hc⟩ := hall _ h11 ho
  by_cases h₁ : opcode w = 0b1111111
  · simp only [List.mem_cons, List.not_mem_nil, or_false, not_or] at hn
    rw [romDecoder, extractLsb'_opcode]
    simp only [if_neg hn.1, if_neg hn.2.1, if_neg hn.2.2.1, hn.2.2.2, false_and, if_false, hc, ite_self]
  · rw [romDecoder_case rfl h₀ h₁ hn, hc]

/-- The decoder takes no other word that stands for nothing, of the opcodes of which it has all of
    `funct3`. -/
theorem romDecoder_of_none (h11 : (opcode w).extractLsb' 0 2 = 0b11) (hn : Riscv.decode w = none)
    (ho : opcode w ∉ [0b0001111, 0b1110011, 0b0101111, 0b0110011, (0b0010011 : BitVec 7)]) :
      romDecoder w = none := by
  have hload : ∀ f b b', Riscv.loadOp f = none → romCase 0b00000 f b b' = none := by decide
  have hstore : ∀ f b b', Riscv.storeOp f = none → romCase 0b01000 f b b' = none := by decide
  have hbranch : ∀ f b b', Riscv.branchOp f = none → romCase 0b11000 f b b' = none := by decide
  have hjalr : ∀ f b b', f ≠ 0b000 → romCase 0b11001 f b b' = none := by decide
  by_cases h₁ : opcode w = 0b0110111
  · rw [Riscv.decode_lui h₁] at hn
    cases hn
  by_cases h₂ : opcode w = 0b0010111
  · rw [Riscv.decode_auipc h₂] at hn
    cases hn
  by_cases h₃ : opcode w = 0b1101111
  · rw [Riscv.decode_jal h₃] at hn
    cases hn
  by_cases h₄ : opcode w = 0b1100111
  · rw [romDecoder_case h₄ (by decide) (by decide) (by decide)]
    refine hjalr _ _ _ fun hf => ?_
    rw [Riscv.decode_jalr h₄, show Riscv.funct3 w = 0b000 from hf, if_pos rfl] at hn
    cases hn
  by_cases h₅ : opcode w = 0b1100011
  · rw [romDecoder_case h₅ (by decide) (by decide) (by decide)]
    rw [Riscv.decode_branch h₅, Option.map_eq_none_iff] at hn
    exact hbranch _ _ _ hn
  by_cases h₆ : opcode w = 0b0000011
  · rw [romDecoder_case h₆ (by decide) (by decide) (by decide)]
    rw [Riscv.decode_load h₆, Option.map_eq_none_iff] at hn
    exact hload _ _ _ hn
  by_cases h₇ : opcode w = 0b0100011
  · rw [romDecoder_case h₇ (by decide) (by decide) (by decide)]
    rw [Riscv.decode_store h₇, Option.map_eq_none_iff] at hn
    exact hstore _ _ _ hn
  · refine romDecoder_of_opcode h11 ?_
    simp only [List.mem_cons, List.not_mem_nil, or_false, not_or] at ho ⊢
    exact ⟨h₁, h₂, h₃, h₄, h₅, h₆, h₇, ho.2.2.2.2, ho.2.2.2.1, ho.2.2.1, ho.1, ho.2.1⟩

theorem laxWord_iff (h11 : (opcode w).extractLsb' 0 2 = 0b11) (hmisc : opcode w ≠ 0b0001111)
    (hsys : opcode w ≠ 0b1110011) :
    Riscv.decode w = none ∧ (romDecoder w).isSome ↔ LaxWord w := by
  rw [LaxWord]
  by_cases hamo : opcode w = 0b0101111
  · rw [romDecoder_amo hamo, laxAtomic_iff hamo, hamo]
    simp
  by_cases hop : opcode w = 0b0110011
  · rw [laxOp_iff hop, hop]
    simp
  by_cases himm : opcode w = 0b0010011
  · rw [laxOpImm_iff himm, himm]
    simp
  · refine ⟨fun ⟨hn, hs⟩ => ?_, fun h => ?_⟩
    · have ho : opcode w ∉ [0b0001111, 0b1110011, 0b0101111, 0b0110011, (0b0010011 : BitVec 7)] := by
        simp only [List.mem_cons, List.not_mem_nil, or_false, not_or]
        exact ⟨hmisc, hsys, hamo, hop, himm⟩
      rw [romDecoder_of_none h11 hn ho] at hs
      cases hs
    · rcases h with ⟨h, -⟩ | ⟨h, -⟩ | ⟨h, -⟩
      · exact absurd h hamo
      · exact absurd h hop
      · exact absurd h himm

end

/-! ## Halfwords -/

/-- A word that the decoder has to tell apart, and takes for an instruction. -/
structure Taken (w : Word) : Prop where
  miscMem : opcode w ≠ 0b0001111
  system : opcode w ≠ 0b1110011
  isSome : (romDecoder w).isSome

theorem not_taken_zero : ¬Taken 0 := fun h => absurd h.isSome (by decide)

theorem not_taken_ebreak : ¬Taken 0x00100073 := fun h => h.system (by decide)

section

variable {w : Word} {imm : BitVec 12} {f₇ : BitVec 7} {x₂ x₁ xd : BitVec 5}
  {f₃ : BitVec 3} {c : BitVec 7}

theorem taken_of_case (ho : opcode w = c)
    (hc : c ∈ [0b0110111, 0b1100111, 0b0000011, (0b0010011 : BitVec 7)])
    (hk : ∀ b b', (romCase (c.extractLsb' 2 5) (funct3 w) b b').isSome) : Taken w := by
  have hall : ∀ c ∈ [0b0110111, 0b1100111, 0b0000011, (0b0010011 : BitVec 7)],
      c ≠ 0b0001111 ∧ c ≠ 0b1110011 ∧ c ≠ 0 ∧ c ≠ 0b1111111 ∧
        c.extractLsb' 2 5 ∉ [0b01011, 0b11100, 0b00011, (0b01100 : BitVec 5)] := by decide
  obtain ⟨hm, hs, h₀, h₁, h₂⟩ := hall c hc
  refine ⟨ho ▸ hm, ho ▸ hs, ?_⟩
  rw [romDecoder_case ho h₀ h₁ h₂]
  exact hk _ _

theorem taken_fields (F : Fields w imm x₁ f₃ xd c)
    (hc : c ∈ [0b0110111, 0b1100111, 0b0000011, (0b0010011 : BitVec 7)])
    (hk : ∀ b b', (romCase (c.extractLsb' 2 5) f₃ b b').isSome) : Taken w :=
  taken_of_case F.opcode hc fun b b' => by
    rw [show funct3 w = f₃ from F.funct3]
    exact hk b b'

/-- A shift by an immediate, whatever its upper bits are but for one of them. -/
theorem taken_shift (F : Fields w (f₇ ++ x₂) x₁ f₃ xd 0b0010011)
    (hf : f₃ = 0b101 ∨ f₃ = 0b001 ∧ f₇.getLsbD 5 = false) : Taken w := by
  have hall : ∀ f₃ b b', (f₃ = 0b101 ∨ f₃ = 0b001 ∧ b = false) →
    (romCase 0b00100 f₃ b b').isSome := by decide
  have ho : opcode w = 0b0010011 := F.opcode
  refine ⟨by rw [ho]; decide, by rw [ho]; decide, ?_⟩
  rw [romDecoder_isSome ho (by decide) (by decide) (by decide), F.upper.1,
    show funct3 w = f₃ from F.funct3]
  exact hall _ _ _ hf

theorem taken_op (F : Fields w (f₇ ++ x₂) x₁ f₃ xd 0b0110011) (hf : (Riscv.opOp f₃ f₇).isSome) :
    Taken w := by
  have ho : opcode w = 0b0110011 := F.opcode
  refine ⟨by rw [ho]; decide, by rw [ho]; decide, Option.isSome_iff_ne_none.2 fun hn => ?_⟩
  have hall : ∀ f₃ f₇, (Riscv.opOp f₃ f₇).isSome → (if f₇ = 0b0010000#7 then
        if f₃ = 0b010 then some 45 else if f₃ = 0b100 then some 46
          else if f₃ = 0b110 then some 47 else none
      else romCase 0b01100 f₃ (f₇.getLsbD 5) (f₇.getLsbD 0)) ≠ none := by decide +kernel
  rw [romDecoder_op ho, ← (funct7_bits w).1, ← (funct7_bits w).2] at hn
  refine hall _ _ hf ?_
  rwa [show w.extractLsb' 25 7 = f₇ from F.upper.1, F.upper.1, show funct3 w = f₃ from F.funct3] at hn

end

section

variable {h : Half}

theorem laxQ0_iff (hq : (h.extractLsb' 0 2).toNat = 0b00) :
    Riscv.Compressed.decodeQ0 h = none ∧ Taken (rvcQ0 h) ↔ LaxCompressed h := by
  have hlax : LaxCompressed h ↔ (h.extractLsb' 13 3).toNat = 0b000 ∧
      Riscv.Compressed.addi4spnImm h = 0 := by
    simp [LaxCompressed, hq]
  rw [hlax]
  constructor
  · rintro ⟨hn, ht⟩
    unfold Riscv.Compressed.decodeQ0 at hn
    split at hn
    · next hf =>
      split at hn
      · next hi => exact ⟨hf, hi⟩
      · cases hn
    · cases hn
    · cases hn
    · next h₀ h₂ h₆ =>
      refine absurd ht ?_
      unfold rvcQ0
      split
      · next hf => exact absurd hf h₀
      · next hf => exact absurd hf h₂
      · next hf => exact absurd hf h₆
      · exact not_taken_zero
  · rintro ⟨hf, hi⟩
    refine ⟨?_, ?_⟩
    · rw [Riscv.Compressed.decodeQ0, hf]
      exact if_pos hi
    · rw [rvcQ0, hf]
      exact taken_fields (fields_append _ _ _ _ _) (by decide) (by decide)

theorem laxArith_iff (hq : (h.extractLsb' 0 2).toNat = 0b01) (hf : (h.extractLsb' 13 3).toNat = 0b100) :
    Riscv.Compressed.decodeArith h = none ∧ Taken (rvcArith h) ↔ LaxCompressed h := by
  have hlax : LaxCompressed h ↔ (h.extractLsb' 10 2).toNat ≠ 0b10 ∧ h.getLsbD 12 := by
    simp [LaxCompressed, hq, hf]
  rw [hlax]
  constructor
  · rintro ⟨hn, -⟩
    unfold Riscv.Compressed.decodeArith at hn
    split at hn
    · next hg =>
      split at hn
      · next hb => exact ⟨by rw [hg]; decide, hb⟩
      · cases hn
    · next hg =>
      split at hn
      · next hb => exact ⟨by rw [hg]; decide, hb⟩
      · cases hn
    · cases hn
    · next h₀ h₁ h₂ =>
      split at hn
      · next hb => exact ⟨h₂, hb⟩
      · split at hn <;> cases hn
  · rintro ⟨hg, hb⟩
    unfold Riscv.Compressed.decodeArith rvcArith
    have hlt := (h.extractLsb' 10 2).isLt
    generalize (h.extractLsb' 10 2).toNat = g at hg hlt ⊢
    obtain rfl | rfl | rfl : g = 0 ∨ g = 1 ∨ g = 3 := by omega
    · exact ⟨if_pos hb, taken_shift (fields_append _ _ _ _ _) (.inl rfl)⟩
    · exact ⟨if_pos hb, taken_shift (fields_append _ _ _ _ _) (.inl rfl)⟩
    · refine ⟨if_pos hb, ?_⟩
      have hlt := (h.extractLsb' 5 2).isLt
      generalize (h.extractLsb' 5 2).toNat = k at hlt ⊢
      obtain rfl | rfl | rfl | rfl : k = 0 ∨ k = 1 ∨ k = 2 ∨ k = 3 := by omega
      · exact taken_op (fields_append _ _ _ _ _) (by decide)
      · exact taken_op (fields_append _ _ _ _ _) (by decide)
      · exact taken_op (fields_append _ _ _ _ _) (by decide)
      · exact taken_op (fields_append _ _ _ _ _) (by decide)

theorem laxQ1_iff (hq : (h.extractLsb' 0 2).toNat = 0b01) :
    Riscv.Compressed.decodeQ1 h = none ∧ Taken (rvcQ1 h) ↔ LaxCompressed h := by
  by_cases h₄ : (h.extractLsb' 13 3).toNat = 0b100
  · rw [← laxArith_iff hq h₄, Riscv.Compressed.decodeQ1, rvcQ1, h₄]
    exact Iff.rfl
  have hlax : LaxCompressed h ↔ (h.extractLsb' 13 3).toNat = 0b011 ∧ Riscv.Compressed.ciImm h = 0 := by
    simp only [LaxCompressed, hq, h₄]
    simp
  rw [hlax]
  constructor
  · rintro ⟨hn, -⟩
    unfold Riscv.Compressed.decodeQ1 at hn
    split at hn
    case h_4 hf =>
      split at hn
      · next hi => exact ⟨hf, hi⟩
      · split at hn <;> cases hn
    case h_5 hf => exact absurd hf h₄
    all_goals cases hn
  · rintro ⟨hf, hi⟩
    refine ⟨?_, ?_⟩
    · rw [Riscv.Compressed.decodeQ1, hf]
      exact if_pos hi
    · rw [rvcQ1, hf]
      show Taken (if _ then _ else _)
      split
      · exact taken_fields (fields_append _ _ _ _ _) (by decide) (by decide)
      · have hall : ∀ f b b', (romCase 0b01101 f b b').isSome := by decide
        exact taken_of_case BitVec.extractLsb'_append_eq_right
          (by decide : (0b0110111 : BitVec 7) ∈ _) (hall _)

theorem laxQ2_iff (hq : (h.extractLsb' 0 2).toNat = 0b10) :
    Riscv.Compressed.decodeQ2 h = none ∧ Taken (rvcQ2 h) ↔ LaxCompressed h := by
  have hlax : LaxCompressed h ↔
      (h.extractLsb' 13 3).toNat = 0b000 ∧ h.getLsbD 12 ∨
        (h.extractLsb' 13 3).toNat = 0b010 ∧ Riscv.Compressed.rd h = 0 ∨
        (h.extractLsb' 13 3).toNat = 0b100 ∧ Riscv.Compressed.rs2 h = 0 ∧ Riscv.Compressed.rd h = 0 ∧
          h.getLsbD 12 = false := by
    simp [LaxCompressed, hq]
  rw [hlax]
  constructor
  · rintro ⟨hn, ht⟩
    unfold Riscv.Compressed.decodeQ2 at hn
    split at hn
    · next hf =>
      split at hn
      · next hb => exact .inl ⟨hf, hb⟩
      · cases hn
    · next hf =>
      split at hn
      · next hr => exact .inr (.inl ⟨hf, hr⟩)
      · cases hn
    · next hf =>
      split at hn
      · next h₂ =>
        split at hn
        · next hr =>
          refine .inr (.inr ⟨hf, h₂, hr, Bool.eq_false_iff.2 fun hb => ?_⟩)
          -- `C.EBREAK`
          rw [rvcQ2, hf] at ht
          refine not_taken_ebreak ((congrArg Taken ?_).mp ht)
          exact (if_neg (by rw [hb]; decide)).trans (if_pos ⟨hr, h₂⟩)
        · cases hn
      · cases hn
    · cases hn
    · next h₀ h₂ h₄ h₆ =>
      refine absurd ht ?_
      unfold rvcQ2
      split
      · next hf => exact absurd hf h₀
      · next hf => exact absurd hf h₂
      · next hf => exact absurd hf h₆
      · next hf => exact absurd hf h₄
      · exact not_taken_zero
  · rintro (⟨hf, hb⟩ | ⟨hf, hr⟩ | ⟨hf, h₂, hr, hb⟩)
    · rw [Riscv.Compressed.decodeQ2, rvcQ2, hf]
      exact ⟨if_pos hb, taken_shift (fields_append _ _ _ _ _)
        (.inr ⟨rfl, by rw [BitVec.getLsbD_append]; rfl⟩)⟩
    · rw [Riscv.Compressed.decodeQ2, rvcQ2, hf]
      exact ⟨if_pos hr, taken_fields (fields_append _ _ _ _ _) (by decide) (by decide)⟩
    · rw [Riscv.Compressed.decodeQ2, rvcQ2, hf]
      refine ⟨(if_pos h₂).trans (if_pos hr), ?_⟩
      refine (congrArg Taken ((if_pos hb).trans (if_pos h₂))).mpr ?_
      exact taken_fields (fields_append _ _ _ _ _) (by decide) (by decide)

end

/-- The reserved halfwords that expand to an instruction. -/
theorem laxCompressed_iff {h : Half} (hc : isCompressed h) :
    Riscv.Compressed.decode h = none ∧ Taken (rvcExpand h) ↔ LaxCompressed h := by
  have hq : (h.extractLsb' 0 2).toNat ≠ 0b11 := by
    rw [isCompressed, bne_iff_ne] at hc
    exact fun hq => hc (BitVec.eq_of_toNat_eq hq)
  have hlt := (h.extractLsb' 0 2).isLt
  obtain hq | hq | hq : (h.extractLsb' 0 2).toNat = 0b00 ∨ (h.extractLsb' 0 2).toNat = 0b01 ∨
      (h.extractLsb' 0 2).toNat = 0b10 := by omega
  · rw [← laxQ0_iff hq, Riscv.Compressed.decode, rvcExpand, hq]
    exact Iff.rfl
  · rw [← laxQ1_iff hq, Riscv.Compressed.decode, rvcExpand, hq]
    exact Iff.rfl
  · rw [← laxQ2_iff hq, Riscv.Compressed.decode, rvcExpand, hq]
    exact Iff.rfl

/-! ## The trap -/

namespace Core

/-- The instruction in EX traps as illegal, and has no other effect. -/
structure Rejects (s : Core) (i : CoreInputs) : Prop where
  trapTaken : (s.trap i).trapTaken
  trapCause : (s.trap i).trapCause = 2
  trapVal : (s.trap i).trapVal = s.idEx.inst
  flushed : (s.nextExMem i).IsBubble
  csr : s.nextCsr i = s.csr.trap s.idEx.pc 2 s.idEx.inst

theorem InEx.rejects {s : Core} {i : CoreInputs} {inst : Word} (h : s.InEx i inst)
    (hi : (controlLogic inst).illegalInst) :
    s.Rejects i := by
  have hill : s.idEx.ctl.illegalInst := by rw [h.decoded.ctl, h.inst, hi]
  have htrap : s.trap i = .redirect true 2 s.idEx.inst s.idEx.pc (isMret s.idEx.inst) s.csr.mtvec := by
    rw [trap, trapController, h.timer, h.external, h.moves, hill, h.valid]
    simp
  refine ⟨by rw [htrap]; rfl, by rw [htrap]; rfl, by rw [htrap]; rfl, ?_, ?_⟩
  · rw [nextExMem, h.moves, htrap]
    exact s.exMem.isBubble_flush
  · rw [nextCsr, htrap]
    rfl

end Core

/-- A fetched word that stands for no instruction is marked illegal, and traps in EX. -/
def TrapsIfIllegal (rawInst : Word) : Prop :=
  Riscv.decodeFetched rawInst = none → opcode (muxedIfInst rawInst) ≠ 0b0001111 →
  opcode (muxedIfInst rawInst) ≠ 0b1110011 →
    (controlLogic (muxedIfInst rawInst)).illegalInst ∧
      ∀ (s : Core) (i : CoreInputs), s.InEx i (muxedIfInst rawInst) → s.Rejects i

/-- The words that stand for nothing and do not trap. -/
def Lax (rawInst : Word) : Prop :=
  if isCompressed (rawInst.extractLsb' 0 16) then LaxCompressed (rawInst.extractLsb' 0 16)
    else LaxWord rawInst

theorem lax_iff (rawInst : Word) : Riscv.decodeFetched rawInst = none ∧ Taken (muxedIfInst rawInst) ↔
    Lax rawInst := by
  have hlow : (rawInst.extractLsb' 0 16).extractLsb' 0 2 = rawInst.extractLsb' 0 2 :=
    extractLsb'_extractLsb' _ (by decide)
  by_cases hc : isCompressed (rawInst.extractLsb' 0 16)
  · have hq : rawInst.extractLsb' 0 2 ≠ 0b11 := by
      rw [← hlow]
      exact bne_iff_ne.1 hc
    rw [Lax, if_pos hc, ← laxCompressed_iff hc, muxedIfInst, if_pos hc, Riscv.decodeFetched, if_neg hq]
  · have hq : rawInst.extractLsb' 0 2 = 0b11 := by
      rw [isCompressed, hlow] at hc
      simpa using hc
    have h11 : (opcode rawInst).extractLsb' 0 2 = 0b11 := by
      rw [opcode, extractLsb'_extractLsb' _ (by decide), hq]
    rw [Lax, if_neg hc, muxedIfInst, if_neg hc, Riscv.decodeFetched, if_pos hq]
    constructor
    · rintro ⟨hn, ht⟩
      exact (laxWord_iff h11 ht.miscMem ht.system).1 ⟨hn, ht.isSome⟩
    · intro hl
      have ho : opcode rawInst ≠ 0b0001111 ∧ opcode rawInst ≠ 0b1110011 := by
        rcases hl with ⟨ho, -⟩ | ⟨ho, -⟩ | ⟨ho, -⟩ <;>
        · rw [ho]
          decide
      obtain ⟨hn, hs⟩ := (laxWord_iff h11 ho.1 ho.2).2 hl
      exact ⟨hn, ho.1, ho.2, hs⟩

/-- All words that stand for no instruction trap, but for those that the decoder is lax about. -/
theorem trapsIfIllegal_iff (rawInst : Word) : TrapsIfIllegal rawInst ↔ ¬Lax rawInst := by
  have hill : (controlLogic (muxedIfInst rawInst)).illegalInst ↔
      ¬(romDecoder (muxedIfInst rawInst)).isSome := by
    simp [controlLogic]
  rw [← lax_iff]
  constructor
  · rintro h ⟨hn, ht⟩
    exact hill.1 (h hn ht.miscMem ht.system).1 ht.isSome
  · intro h hn hm hs
    have hi := hill.2 fun hsome => h ⟨hn, hm, hs, hsome⟩
    exact ⟨hi, fun s i hin => hin.rejects hi⟩

/-- A halfword of zeros runs as `addi x8, x2, 0`. -/
theorem zeros_run : ¬∀ rawInst, TrapsIfIllegal rawInst := by
  intro h
  have hz := (h 0 (by decide) (by decide) (by decide)).1
  revert hz
  decide

end Rv32Soc
