import Rv32Soc.Driver.Gemm
import Rv32Soc.Accel.Tiles

/-!
# What is displaced, and what is stored

The driver displaces as many bytes from each destination as a result has; the accelerator
stores the rows of a result at the distance that `REG_DEST_STRIDE` gives. The two agree
where the rows follow each other, or where there is one line only (`covers_iff`).
-/

namespace Rv32Soc

open MmAccel

/-- The registers are as the driver writes them before the batch. -/
structure GemmCall.Programs (c : GemmCall) (s : MmAccel) : Prop where
  destStride : s.regs.destStride = c.destStride
  int8Req : s.regs.int8Req = c.outInt8

namespace MmAccel

variable {p : MmParams} {s : MmAccel} {i : MmInputs} {c : GemmCall}

theorem writesCfg_ne {n k : BitVec 6} (h : s.writesCfg i n) (hne : k ≠ n) : s.writesCfg i k = false := by
  simp only [writesCfg, writes, Bool.and_eq_true, beq_iff_eq] at h
  simp [writesCfg, writes, h.1.2, hne.symm]

/-- `wr(cfg, REG_DEST_STRIDE, dest_stride)` -/
theorem destStride_next (hw : s.writesCfg i 11) (hb : s.st.dmaBusy = false)
    (hd : i.wdata = c.destStride) :
    (s.next p i).regs.destStride = c.destStride := by
  rw [next_regs, nextRegs, ← hd]
  exact if_pos (by rw [hw, hb]; rfl)

/-- `wr(cfg, REG_OUT_CTRL, ...)` -/
theorem programs_next (h : s.regs.destStride = c.destStride) (hw : s.writesCfg i 22)
    (hd : i.wdata = c.outCtrl) :
    c.Programs (s.next p i) where
  destStride := by simp [nextRegs, writesCfg_ne hw (show 11#6 ≠ 22#6 by decide), h]
  int8Req := by
    simp only [next_regs, nextRegs, hw, if_true, hd]
    exact c.getLsbD_outCtrl

end MmAccel

namespace MmAccel.StoreConfig

variable (p : MmParams) (c : StoreConfig)

/-- How far the byte `t` of a tile is from where it is stored. -/
def offset (t : ℕ) : ℕ :=
  if c.int8Mode then t else t / (4 * p.dim) * (c.rowDistance p).toNat + t % (4 * p.dim)

/-- The bytes from the first of a tile to its last. -/
def extent : ℕ := if c.int8Mode then p.dim * p.dim else (p.dim - 1) * (c.rowDistance p).toNat + 4 * p.dim

variable {p c} {dest : Word} {t : ℕ}

theorem offset_lt (h : Tile p c dest) (ht : t < 16 * c.nGroupsEff) : c.offset p t < c.extent p := by
  rw [h.bytes] at ht
  rw [offset, extent]
  split_ifs at ht ⊢
  · exact ht
  · have hdim := p.dim_pos
    have hrow : t / (4 * p.dim) ≤ p.dim - 1 := Nat.le_sub_one_of_lt (Nat.div_lt_of_lt_mul ht)
    have hcol := Nat.mod_lt t (show 0 < 4 * p.dim by omega)
    have := Nat.mul_le_mul_right (c.rowDistance p).toNat hrow
    omega

theorem toNat_add_place (h : Tile p c dest) (hfit : dest.toNat + c.extent p ≤ 2 ^ 32)
    (ht : t < 16 * c.nGroupsEff) :
    (dest + c.place p t).toNat = dest.toNat + c.offset p t := by
  have hlt := offset_lt h ht
  have hplace : c.place p t = BitVec.ofNat 32 (c.offset p t) := by
    unfold place offset
    split_ifs
    · rfl
    · rw [BitVec.ofNat_add, BitVec.ofNat_mul, BitVec.ofNat_toNat, BitVec.setWidth_eq]
  rw [hplace, BitVec.toNat_add, BitVec.toNat_ofNat]
  omega

end MmAccel.StoreConfig

namespace GemmCall

variable {p : MmParams} {s : MmAccel} {c : GemmCall} {queueFree : ℕ}

theorem toNat_tileBytes (hd : p.GoodDim) (hdim : c.dim.toNat = p.dim) :
    c.tileBytes.toNat = if c.outInt8 then p.dim * p.dim else 4 * p.dim * p.dim := by
  have hsq : p.dim * p.dim ≤ 16 * 16 := Nat.mul_le_mul hd.le.2 hd.le.2
  have hle := hd.le
  have h4 : (4 : Word).toNat = 4 := rfl
  rw [tileBytes]
  split_ifs <;> simp only [BitVec.toNat_mul, BitVec.toNat_setWidth, hdim, h4] <;>
    rw [Nat.mod_eq_of_lt (show p.dim < 2 ^ 32 by omega),
      Nat.mod_eq_of_lt (show p.dim * p.dim < 2 ^ 32 by omega)]
  rw [Nat.mul_assoc 4]
  omega

theorem tile_descriptor (hd : p.GoodDim) (hs : c.Programs s)
    (hstride : c.destStride = 0 ∨ c.destStride.toNat % 16 = 0 ∧
      4 * p.dim ≤ c.destStride.toNat) {dest : Word}
    (hal : dest.toNat % 16 = 0) : StoreConfig.Tile p (s.storeConfig p) dest where
  dim := hd
  fits := fits_storeConfig s hd
  bytes := bytes_storeConfig s hd
  capable h := (Bool.and_eq_true_iff.1 h).1
  aligned k hk := by
    refine StoreConfig.addr_aligned hd (fits_storeConfig s hd) hal (fun _ _ h0 => ?_) hk
    have hreg : (s.storeConfig p).destStride = c.destStride := hs.destStride
    rw [hreg] at h0 ⊢
    exact (hstride.resolve_left h0).1

/-- The rows of a result follow each other. -/
def Packed (p : MmParams) (c : GemmCall) : Prop := c.destStride = 0 ∨
    c.destStride.toNat = 4 * p.dim ∨ p.dim = 2

theorem toNat_rowDistance (hd : p.GoodDim) (hs : c.Programs s) :
    ((s.storeConfig p).rowDistance p).toNat =
      if c.destStride = 0 ∨ p.dim = 2 then 4 * p.dim else c.destStride.toNat := by
  have hle := hd.le
  have hreg : (s.storeConfig p).destStride = c.destStride := hs.destStride
  rw [StoreConfig.rowDistance, hreg]
  split_ifs
  · rw [BitVec.toNat_ofNat]
    omega
  · rfl

/-- Without gaps the bytes of a result are as many as are displaced. -/
theorem offset_lt_tileBytes (hd : p.GoodDim) (hdim : c.dim.toNat = p.dim) (hs : c.Programs s)
    (hmode : if c.outInt8 then p.dim ≠ 2 else c.Packed p) {t : ℕ}
    (ht : t < 16 * (s.storeConfig p).nGroupsEff) :
    (s.storeConfig p).offset p t < c.tileBytes.toNat := by
  have hm : (s.storeConfig p).int8Mode = (p.int8Capable && c.outInt8) :=
    congrArg (p.int8Capable && ·) hs.int8Req
  rw [bytes_storeConfig s hd] at ht
  rw [toNat_tileBytes hd hdim, StoreConfig.offset]
  cases h8 : c.outInt8 with
  | true =>
    simp only [h8, if_true] at hmode ⊢
    have hcap : p.int8Capable = true := by
      rcases hd.cases with ⟨h, -⟩ | ⟨-, -, -, h, -⟩ | ⟨-, -, -, h, -⟩ | ⟨-, -, -, h, -⟩
      · exact absurd h hmode
      all_goals exact h
    rw [hm, h8, hcap] at ht ⊢
    exact ht
  | false =>
    simp only [h8, Bool.false_eq_true, if_false] at hmode ⊢
    rw [hm, h8, Bool.and_false] at ht ⊢
    simp only [Bool.false_eq_true, if_false] at ht ⊢
    have hrow : ((s.storeConfig p).rowDistance p).toNat = 4 * p.dim := by
      rw [toNat_rowDistance hd hs]
      split_ifs with h
      · rfl
      · rw [Packed] at hmode
        tauto
    rw [hrow, Nat.mul_comm _ (4 * p.dim), Nat.div_add_mod]
    exact ht

/-- A tile that is stored at 0, which the driver takes for no destination. -/
theorem exists_not_isDest_of_null (hd : p.GoodDim) (hs : c.Programs s)
    (hstride : c.destStride = 0 ∨ c.destStride.toNat % 16 = 0 ∧
      4 * p.dim ≤ c.destStride.toNat) {t : GemmTile}
    (ht : t.dest = 0) : ∃ y, t.descriptor.Result p (s.storeConfig p) y ∧ ¬c.IsDest y := by
  have htile := tile_descriptor hd hs hstride (show t.dest.toNat % 16 = 0 by rw [ht]; rfl)
  have hpos := htile.fits.pos
  refine ⟨t.dest + (s.storeConfig p).place p 0, (Descriptor.result_iff htile).2 ⟨0, by omega,
    rfl⟩, fun hy => ?_⟩
  have hplace : (s.storeConfig p).place p 0 = 0 := by simp [StoreConfig.place]
  obtain ⟨t', -, hne, hlow, -⟩ := isDest_iff.1 hy
  rw [ht, hplace] at hlow
  exact hne (BitVec.eq_of_toNat_eq (Nat.le_zero.1 hlow))

/-- An array of dimension 2 stores a line of words, whatever it is asked for. -/
theorem exists_not_isDest_of_dim2 (hd : p.GoodDim) (hdim : c.dim.toNat = p.dim) (hs : c.Programs s)
    (hstride : c.destStride = 0 ∨ c.destStride.toNat % 16 = 0 ∧ 4 * p.dim ≤ c.destStride.toNat)
    (hal : ∀ t ∈ c.tiles, t.dest.toNat % 16 = 0) (h2 : p.dim = 2) (h8 : c.outInt8 = true) {t : GemmTile}
    (ht : t ∈ c.tiles) (hfit : t.dest.toNat + (s.storeConfig p).extent p ≤ 2 ^ 32) :
    ∃ y, t.descriptor.Result p (s.storeConfig p) y ∧ ¬c.IsDest y := by
  have htile := tile_descriptor hd hs hstride (hal t ht)
  have hm : (s.storeConfig p).int8Mode = false := by
    refine Bool.eq_false_iff.2 fun h => ?_
    rcases hd.cases with ⟨-, -, -, h', -⟩ | ⟨h', -⟩ | ⟨h', -⟩ | ⟨h', -⟩
    · exact absurd ((Bool.and_eq_true_iff.1 h).1.symm.trans h') nofun
    all_goals omega
  have hN : 4 < 16 * (s.storeConfig p).nGroupsEff := by
    rw [bytes_storeConfig s hd, hm, h2]
    decide
  refine ⟨t.dest + (s.storeConfig p).place p 4, (Descriptor.result_iff htile).2 ⟨4, hN,
    rfl⟩, fun hy => ?_⟩
  obtain ⟨t', ht', -, hlow, hhigh⟩ := isDest_iff.1 hy
  have h4 : (s.storeConfig p).offset p 4 = 4 := by simp [StoreConfig.offset, hm, h2]
  have hal₁ := hal t ht
  have hal₂ := hal t' ht'
  rw [toNat_tileBytes hd hdim, h8, if_pos rfl, h2] at hhigh
  rw [StoreConfig.toNat_add_place htile hfit hN, h4] at hlow hhigh
  omega

/-- With gaps, the last row of the last tile is past everything that is displaced. -/
theorem exists_not_isDest_of_gaps (hd : p.GoodDim) (hdim : c.dim.toNat = p.dim) (hs : c.Programs s)
    (hstride : c.destStride = 0 ∨ c.destStride.toNat % 16 = 0 ∧ 4 * p.dim ≤ c.destStride.toNat)
    (h8 : c.outInt8 = false) (hgaps : ¬c.Packed p) {t : GemmTile} (ht : t.dest.toNat % 16 = 0)
    (hmax : ∀ t' ∈ c.tiles, t'.dest.toNat ≤ t.dest.toNat)
    (hfit : t.dest.toNat + (s.storeConfig p).extent p ≤ 2 ^ 32) :
    ∃ y, t.descriptor.Result p (s.storeConfig p) y ∧ ¬c.IsDest y := by
  have htile := tile_descriptor hd hs hstride ht
  simp only [Packed, not_or] at hgaps
  obtain ⟨h0, h4, h2⟩ := hgaps
  have hge := (hstride.resolve_left h0).2
  have hm : (s.storeConfig p).int8Mode = false := by
    have : (s.storeConfig p).int8Mode = (p.int8Capable && c.outInt8) :=
      congrArg (p.int8Capable && ·) hs.int8Req
    rw [this, h8, Bool.and_false]
  have hN : 16 * (s.storeConfig p).nGroupsEff = 4 * p.dim * p.dim := by
    rw [bytes_storeConfig s hd, hm]
    rfl
  have hle := hd.le
  have hlast : 4 * p.dim * (p.dim - 1) < 16 * (s.storeConfig p).nGroupsEff := by
    rw [hN]
    exact Nat.mul_lt_mul_of_pos_left (by omega) (by omega)
  refine ⟨_, (Descriptor.result_iff htile).2 ⟨_, hlast, rfl⟩, fun hy => ?_⟩
  obtain ⟨t', ht', -, hlow, hhigh⟩ := isDest_iff.1 hy
  -- the last row begins where a tile without gaps would end, at the earliest
  have hoff : 4 * p.dim * p.dim ≤ (s.storeConfig p).offset p (4 * p.dim * (p.dim - 1)) := by
    rw [StoreConfig.offset, hm, if_neg Bool.false_ne_true, toNat_rowDistance hd hs, if_neg (by tauto),
      Nat.mul_div_cancel_left _ (by omega), Nat.mul_mod_right, Nat.add_zero]
    have hS : 4 * p.dim + 16 ≤ c.destStride.toNat := by
      have := (hstride.resolve_left h0).1
      rcases hd with h | h | h | h <;> omega
    calc
      4 * p.dim * p.dim ≤ (p.dim - 1) * (4 * p.dim + 16) := by
        rcases hd with h | h | h | h <;> rw [h] <;> decide
      _ ≤ (p.dim - 1) * c.destStride.toNat := Nat.mul_le_mul_left _ hS
  rw [toNat_tileBytes hd hdim, h8, if_neg Bool.false_ne_true] at hhigh
  have hplace := StoreConfig.toNat_add_place htile hfit hlast
  change (t.dest + _ : Word).toNat < _ at hhigh
  rw [hplace] at hhigh
  have := hmax t' ht'
  omega

/-- What the accelerator stores is among what the driver displaces exactly if no destination is
    null, and the rows of the results follow each other, or there are bytes and the array can make
    them. -/
theorem covers_iff (hd : p.GoodDim) (hdim : c.dim.toNat = p.dim) (hs : c.Programs s)
    (hcheck : c.check queueFree = .ok)
    (hstride : c.destStride = 0 ∨ c.destStride.toNat % 16 = 0 ∧ 4 * p.dim ≤ c.destStride.toNat)
    (hal : ∀ t ∈ c.tiles, t.dest.toNat % 16 = 0)
    (hfit : ∀ t ∈ c.tiles, t.dest.toNat + (s.storeConfig p).extent p ≤ 2 ^ 32) :
    (∀ t ∈ c.tiles, ∀ y, t.descriptor.Result p (s.storeConfig p) y → c.IsDest y) ↔
      (∀ t ∈ c.tiles, t.dest ≠ 0) ∧ if c.outInt8 then p.dim ≠ 2 else c.Packed p := by
  constructor
  · intro hall
    refine ⟨fun t ht h0 => ?_, ?_⟩
    · obtain ⟨y, hy, hnot⟩ := exists_not_isDest_of_null hd hs hstride h0
      exact hnot (hall t ht y hy)
    have hne : c.tiles ≠ [] := fun hnil => by simp [check, hnil] at hcheck
    split_ifs with h8
    · intro h2
      obtain ⟨t, ht⟩ := List.exists_mem_of_ne_nil _ hne
      obtain ⟨y, hy, hnot⟩ := exists_not_isDest_of_dim2 hd hdim hs hstride hal h2 h8 ht (hfit t ht)
      exact hnot (hall t ht y hy)
    · by_contra hgaps
      obtain ⟨t, hmem⟩ :=
        Option.ne_none_iff_exists'.1 (mt (List.argmax_eq_none (f := fun t => t.dest.toNat)).1 hne)
      have ht := List.argmax_mem hmem
      obtain ⟨y, hy, hnot⟩ :=
        exists_not_isDest_of_gaps hd hdim hs hstride (Bool.eq_false_iff.2 h8) hgaps (hal t ht)
        (fun t' ht' => List.le_of_mem_argmax (f := fun t => t.dest.toNat) ht' hmem) (hfit t ht)
      exact hnot (hall t ht y hy)
  · rintro ⟨hnull, hmode⟩ t ht y hy
    have htile := tile_descriptor hd hs hstride (hal t ht)
    obtain ⟨k, hk, rfl⟩ := (Descriptor.result_iff htile).1 hy
    have hlt := offset_lt_tileBytes hd hdim hs hmode hk
    have hplace := StoreConfig.toNat_add_place htile (hfit t ht) hk
    change c.IsDest (t.dest + _)
    refine isDest_iff.2 ⟨t, ht, hnull t ht, ?_, ?_⟩ <;> rw [hplace] <;> omega

/-- A single tile over an array of dimension 4, with its rows at the distance `S`. -/
def strided (S : Word) : GemmCall := ⟨4, [⟨0x200, 0x300, 0x100, 16, 0, 0, false, false⟩], S, false, 0⟩

theorem programs_strided (S : Word) : (strided S).Programs (restingTile S) := ⟨rfl, rfl⟩

theorem covers_contiguous : (strided 0).check 4 = .ok ∧ ∀ t ∈ (strided 0).tiles, ∀ y,
    t.descriptor.Result mmDim4 ((restingTile 0).storeConfig mmDim4) y → (strided 0).IsDest y :=
  have hcheck : (strided 0).check 4 = .ok := by decide
  ⟨hcheck, (covers_iff (.inr (.inl rfl)) rfl (programs_strided 0) hcheck (.inl rfl)
    (by decide) (by decide)).2
    ⟨by decide, .inl rfl⟩⟩

/-- With 32 bytes from row to row, the last row is not displaced. -/
theorem gaps_strided : (strided 0x20).Programs (restingTile 0x20) ∧ (strided 0x20).check 4 = .ok ∧
    ∃ t ∈ (strided 0x20).tiles, t.descriptor.Result mmDim4
      ((restingTile 0x20).storeConfig mmDim4) 0x160 ∧
      ¬(strided 0x20).IsDest 0x160 := by
  refine ⟨programs_strided 0x20, by decide, _, List.mem_singleton.2 rfl, ⟨3, by decide, by decide⟩, ?_⟩
  rintro ⟨r, hr, hb⟩
  obtain rfl := List.mem_singleton.1 (show r ∈ [((0x100, 64) : MemRange)] from hr)
  exact absurd hb.2 (by decide)

end GemmCall

end Rv32Soc
