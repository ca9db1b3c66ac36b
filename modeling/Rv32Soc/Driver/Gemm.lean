import Rv32Soc.Accel.MmAccel
import Rv32Soc.Driver.Displacement

/-!
# The driver of the accelerator

What `gemm_run_batch` of `gemm_rv32_5stage.c` computes: the ranges it flushes before the
batch, the descriptors it pushes, and the ranges it displaces after the batch.
-/

namespace Rv32Soc

/-- `struct gemm_tile`. A null pointer is 0. -/
structure GemmTile where
  aSrc : Word
  bSrc : Word
  dest : Word
  kLen : BitVec 16
  panelUse : BitVec 8
  panelLoad : BitVec 8
  bOnly : Bool
  srcCoherent : Bool

/-- The arguments of `gemm_run_batch` but for the timeout, and the dimension of the array. -/
structure GemmCall where
  dim : BitVec 8
  tiles : List GemmTile
  destStride : Word
  outInt8 : Bool
  outShift : BitVec 8

/-- What `gemm_run_batch` returns. -/
inductive GemmRc
  | ok
  | EINVAL
  | EBUSY
  | ETIMEDOUT
  deriving DecidableEq

/-- A range of memory: its address and its size. -/
abbrev MemRange := Word × Word

namespace GemmCall

variable (c : GemmCall) (t : GemmTile)

/-- The checks before anything is done, over what `REG_QUEUE_FREE` reads. -/
def check (queueFree : ℕ) : GemmRc :=
  if c.tiles = [] then .EINVAL
  else if queueFree < c.tiles.length then .EBUSY
  else if c.outInt8 && c.destStride != 0 then .EINVAL
  else .ok

/-- The bytes of a result. -/
def tileBytes : Word :=
  if c.outInt8 then c.dim.setWidth 32 * c.dim.setWidth 32 else c.dim.setWidth 32 * c.dim.setWidth 32 * 4

/-- The bytes of an operand. -/
def operandBytes : Word := c.dim.setWidth 32 * t.kLen.setWidth 32

/-- The operands of a tile that are flushed. -/
def flushTile : List MemRange :=
  (if t.srcCoherent then []
    else if !t.bOnly && t.aSrc != 0 then [(t.aSrc, c.operandBytes t)]
    else []) ++
  if t.bSrc != 0 then [(t.bSrc, c.operandBytes t)] else []

/-- What is flushed before the batch. -/
def flushed : List MemRange := c.tiles.flatMap c.flushTile

/-- What is displaced after it. -/
def displaced : List MemRange :=
  c.tiles.filterMap fun t => if t.dest != 0 then some (t.dest, c.tileBytes) else none

end GemmCall

/-- `DESC_PUSH`: `{bOnly[16], panelLoad[15:12], panelUse[11:8], kLen[7:0]}`. -/
def GemmTile.descPush (t : GemmTile) : Word :=
  (if t.bOnly then 1#32 <<< 16 else 0) ||| (t.panelLoad.setWidth 32 &&& 0xF) <<< 12 |||
    (t.panelUse.setWidth 32 &&& 0xF) <<< 8 ||| (t.kLen.setWidth 32 &&& 0xFF)

/-- What the driver puts into the queue for a tile. -/
def GemmTile.descriptor (t : GemmTile) : Descriptor := ⟨t.aSrc, t.bSrc, t.dest, t.descPush⟩

/-- `REG_OUT_CTRL`. -/
def GemmCall.outCtrl (c : GemmCall) :
    Word := if c.outInt8 then 1#32 <<< 8 ||| (c.outShift.setWidth 32 &&& 0x1F) else 0

theorem GemmCall.getLsbD_outCtrl (c : GemmCall) : c.outCtrl.getLsbD 8 = c.outInt8 := by
  cases h : c.outInt8 <;> simp [outCtrl, h]

/-- The bytes of the destinations. -/
def GemmCall.IsDest (c : GemmCall) (b : Word) : Prop := ∃ r ∈ c.displaced, DcacheBram.InRange r.1 r.2 b

theorem GemmCall.isDest_iff {c : GemmCall} {b : Word} :
    c.IsDest b ↔ ∃ t ∈ c.tiles, t.dest ≠ 0 ∧ DcacheBram.InRange t.dest c.tileBytes b := by
  simp only [IsDest, displaced, List.mem_filterMap]
  constructor
  · rintro ⟨r, ⟨t, ht, hr⟩, hb⟩
    simp only [bne_iff_ne] at hr
    split_ifs at hr with h
    obtain rfl := Option.some_inj.1 hr
    exact ⟨t, ht, h, hb⟩
  · rintro ⟨t, ht, h, hb⟩
    exact ⟨_, ⟨t, ht, if_pos (bne_iff_ne.2 h)⟩, hb⟩

namespace DcacheBram

/-- What `sys_cache_data_flush_range` or `sys_cache_data_invd_range` of ranges loads, one range
    after another. -/
def displaceRanges (IDX : ℕ) (displaceBuf : Word) (fuel : ℕ) : List MemRange → Option (List Word)
  | [] => some []
  | (addr, size) :: rs => do
    let l ← displaceRange IDX displaceBuf fuel addr size
    let l' ← displaceRanges IDX displaceBuf fuel rs
    pure (l ++ l')

variable {IDX : ℕ} {displaceBuf : Word} {fuel : ℕ} {rs : List MemRange} {l : List Word}

/-- The sets of the lines of ranges. -/
def rangeSets (IDX : ℕ) (rs : List MemRange) : Set (BitVec IDX) :=
  {x | ∃ r ∈ rs, x ∈ setsOf IDX (r.1.toNat / 16 * 16) (r.1.toNat + r.2.toNat)}

theorem walks_of_displaceRanges (hn : IDX ≤ 28) (hbuf : BufAligned IDX displaceBuf)
    (hwrap : ∀ r ∈ rs, NoWrap r.1 r.2)
    (h : displaceRanges IDX displaceBuf fuel rs = some l) : Walks displaceBuf (rangeSets IDX rs) l := by
  induction rs generalizing l with
  | nil =>
    obtain rfl : [] = l := Option.some_inj.1 h
    have hnone : rangeSets IDX [] = ∅ := by simp [rangeSets]
    exact hnone ▸ .nil
  | cons r rs ih =>
    obtain ⟨addr, size⟩ := r
    obtain ⟨hr, hrs⟩ := List.forall_mem_cons.1 hwrap
    simp only [displaceRanges, Option.bind_eq_bind, Option.bind_eq_some_iff, Option.pure_def,
      Option.some_inj] at h
    obtain ⟨l₁, h₁, l₂, h₂, rfl⟩ := h
    have hsets : rangeSets IDX ((addr, size) :: rs) =
        setsOf IDX (addr.toNat / 16 * 16) (addr.toNat + size.toNat) ∪ rangeSets IDX rs := by
      ext x
      simp [rangeSets]
    rw [hsets]
    exact (walks_of_displaceRange hn hbuf hr h₁).append (ih hrs h₂)

variable (IDX displaceBuf) in
theorem exists_displaceRanges (hwrap : ∀ r ∈ rs, NoWrap r.1 r.2) :
    ∃ N, ∀ fuel ≥ N, ∃ l, displaceRanges IDX displaceBuf fuel rs = some l := by
  induction rs with
  | nil => exact ⟨0, fun _ _ => ⟨[], rfl⟩⟩
  | cons r rs ih =>
    obtain ⟨addr, size⟩ := r
    obtain ⟨hr, hrs⟩ := List.forall_mem_cons.1 hwrap
    obtain ⟨N₁, h₁⟩ := exists_displaceRange IDX displaceBuf hr
    obtain ⟨N₂, h₂⟩ := ih hrs
    refine ⟨max N₁ N₂, fun fuel hfuel => ?_⟩
    obtain ⟨l₁, hl₁⟩ := h₁ fuel (le_trans (le_max_left _ _) hfuel)
    obtain ⟨l₂, hl₂⟩ := h₂ fuel (le_trans (le_max_right _ _) hfuel)
    exact ⟨l₁ ++ l₂, by simp [displaceRanges, hl₁, hl₂]⟩

end DcacheBram

end Rv32Soc
