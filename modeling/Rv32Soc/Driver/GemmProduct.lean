import Mathlib.Tactic.IntervalCases
import Rv32Soc.Accel.SharedBatch
import Rv32Soc.Accel.TileResults
import Rv32Soc.Driver.GemmLayout
import Rv32Soc.Driver.GemmSubmit
import Rv32Soc.Driver.Sharing

/-!
# The product

A call of `gemm_run_batch` from end to end: the driver flushes the operands and fills the queue,
the accelerator works through it behind the data cache, and the driver displaces the destinations.
All the while other code runs on the CPU, through the same cache (`GemmCall.Run`).

* `GemmCall.Proper`: what is asked of the caller;
* `Run.sharedRun`, `Run.clean`: the batch has its operands and its results to itself, with none of
  them dirty in the cache;
* `product_of_run`: a load of a result then returns the product of the rows that the CPU
  had stored, and of everything else what other code has made of it.
-/

namespace Rv32Soc

open MmAccel DcacheBram

/-! ## What is asked of the caller -/

namespace GemmCall

variable {IDX : ℕ}

/-- The bytes of the operands that are fetched. -/
def IsSource (c : GemmCall) (b : Word) : Prop :=
  ∃ t ∈ c.tiles, ∃ inB, (inB = true ∨ t.bOnly = false) ∧ InRange (t.src inB) (c.operandBytes t) b

/-- Other code keeps away from the lines of the destinations, and does not write those of the
    operands. -/
structure Other (c : GemmCall) (r : Request) : Prop where
  dest : ∀ b, c.IsDest b → lineNo r.addr ≠ lineNo b
  source : r.write = true → ∀ b, c.IsSource b → lineNo r.addr ≠ lineNo b

/-- What is asked of the caller. The array has one of its dimensions. The lanes are whole lines, the
    results have no gaps, and none of them is null or runs past the end of the address space. No
    result falls on an operand (`apart`) or on another result (`distinct`), and neither on the
    buffer of the driver (`outside`). With prefetch, each B loaded ahead goes to another panel than
    the tile before it uses (`panels`).

    A dirty line of a destination is in a set that the driver flushes (`clean`), and so is one of
    an A that the tile calls coherent, which is not flushed for its own sake (`coherent`). Of
    everything but the destinations the cache has no line that memory is ahead of (`fresh`). -/
structure Proper (p : MmParams) (displaceBuf : Word) (c : GemmCall) (m : CachedMem IDX) : Prop where
  good : p.GoodDim
  dim : c.dim.toNat = p.dim
  kLen : ∀ t ∈ c.tiles, 1 ≤ t.kLen.toNat ∧ t.kLen.toNat ≤ p.maxK % 256 ∧ t.kLen.toNat % 16 = 0
  source : ∀ t ∈ c.tiles, ∀ inB, (inB = true ∨ t.bOnly = false) →
    t.src inB ≠ 0 ∧ (t.src inB).toNat % 16 = 0 ∧ NoWrap (t.src inB) (c.operandBytes t)
  dest : ∀ t ∈ c.tiles, t.dest ≠ 0 ∧ t.dest.toNat % 16 = 0 ∧ NoWrap t.dest c.tileBytes
  mode : if c.outInt8 then p.dim ≠ 2 else c.Packed p
  panels : PanelsKept p (c.tiles.map GemmTile.descriptor)
  apart : ∀ b, c.IsSource b → ¬c.IsDest b
  distinct : c.tiles.Pairwise fun t t' => ∀ b, InRange t.dest c.tileBytes b →
    ¬InRange t'.dest c.tileBytes b
  buf : BufAligned IDX displaceBuf
  outside : ∀ b, c.IsSource b ∨ c.IsDest b → ¬InBuf IDX displaceBuf b
  clean : ∀ b, c.IsDest b → m.HoldsDirty b → idxOf IDX b ∈ rangeSets IDX c.flushed
  coherent : ∀ t ∈ c.tiles, t.srcCoherent = true → t.bOnly = false →
    ∀ b, InRange t.aSrc (c.operandBytes t) b →
    m.HoldsDirty b → idxOf IDX b ∈ rangeSets IDX c.flushed
  fresh : ∀ b, ¬c.IsDest b → m.Fresh b

/-- The tile `k` is `t`, and works with the A of `a` and the B of `b`. -/
structure Works (p : MmParams) (c : GemmCall) (k : ℕ) (t a b : GemmTile) : Prop where
  tile : c.tiles[k]? = some t
  loadsA : ∃ j, c.tiles[j]? = some a ∧ Descriptor.SharesA (c.tiles.map GemmTile.descriptor) j k
  loadsB : ∃ j, c.tiles[j]? = some b ∧
    Descriptor.SharesB p (c.tiles.map GemmTile.descriptor) (t.descriptor.panelUse p) j k
  deepA : t.kLen.toNat ≤ a.kLen.toNat
  deepB : t.kLen.toNat ≤ b.kLen.toNat

variable {p : MmParams} {c : GemmCall} {t : GemmTile} {displaceBuf : Word}
  {m : CachedMem IDX} {s : MmAccel}

/-! ### The operands -/

namespace Proper

variable (h : c.Proper p displaceBuf m)

include h

theorem kLen_pos (ht : t ∈ c.tiles) : 1 ≤ t.kLen.toNat := (h.kLen t ht).1
theorem kLen_le (ht : t ∈ c.tiles) : t.kLen.toNat ≤ p.maxK % 256 := (h.kLen t ht).2.1
theorem kLen_mod (ht : t ∈ c.tiles) : t.kLen.toNat % 16 = 0 := (h.kLen t ht).2.2

theorem maxK_le (hne : c.tiles ≠ []) : p.maxK ≤ 128 := by
  obtain ⟨t, ht⟩ := List.exists_mem_of_ne_nil _ hne
  exact GemmTile.maxK_le p (h.kLen_pos ht) (h.kLen_le ht)

theorem kLen_descriptor (ht : t ∈ c.tiles) : t.descriptor.kLen = t.kLen.toNat :=
  GemmTile.kLen_descriptor ((h.kLen_le ht).trans_lt (Nat.mod_lt _ (by decide)))

/-- The lines of a tile are bytes of its operands. -/
theorem isSource_of_operand (ht : t ∈ c.tiles) {y : Word} (hy : t.descriptor.Operand p 0 y) :
    c.IsSource y := by
  obtain ⟨inB, i, r, hb, hi, hr, hline⟩ := hy
  rw [GemmTile.bOnly_descriptor] at hb
  obtain ⟨-, hal, hwrap⟩ := h.source t ht inB hb
  have hin := GemmTile.inRange_addr h.good h.dim (h.kLen_pos ht) (h.kLen_le ht)
    (h.kLen_mod ht) hwrap hi hr
  refine ⟨t, ht, inB, hb, ?_⟩
  -- the operand begins and ends with a line
  have hbytes := GemmTile.toNat_operandBytes (c := c) h.good h.dim (h.kLen_pos ht) (h.kLen_le ht)
  have hmod : (c.operandBytes t).toNat % 16 = 0 := by
    rw [hbytes, Nat.mul_mod, h.kLen_mod ht, Nat.mul_zero, Nat.zero_mod]
  have hn := congrArg BitVec.toNat hline
  rw [toNat_lineNo, toNat_lineNo] at hn
  obtain ⟨h₁, h₂⟩ := hin
  constructor <;> omega

/-- The bytes of a lane are among them. -/
theorem isSource_lane (ht : t ∈ c.tiles) {inB : Bool} (hb : inB = true ∨ t.bOnly = false)
    {i n : ℕ} (hi : i < p.dim)
    (hn : n < t.kLen.toNat) : c.IsSource (t.src inB + BitVec.ofNat 32 (i * t.kLen.toNat + n)) := by
  obtain ⟨-, -, hwrap⟩ := h.source t ht inB hb
  have hbytes := GemmTile.toNat_operandBytes (c := c) h.good h.dim (h.kLen_pos ht) (h.kLen_le ht)
  have hrow := laneLine_lt hi hn
  rw [NoWrap, hbytes] at hwrap
  have haddr : (t.src inB + BitVec.ofNat 32 (i * t.kLen.toNat + n)).toNat =
      (t.src inB).toNat + (i * t.kLen.toNat + n) := by
    rw [BitVec.toNat_add, BitVec.toNat_ofNat]
    omega
  refine ⟨t, ht, inB, hb, ?_, ?_⟩ <;> rw [haddr]
  · omega
  · rw [hbytes]
    omega

/-- What the array reads of a lane is what the caller has laid out. -/
theorem rowByte_eq (ht : t ∈ c.tiles) {inB : Bool} (hb : inB = true ∨ t.bOnly = false)
    (μ : Mem) (i n : ℕ) :
    rowByte (μ.line ((t.descriptor.loadConfig p 0).addr p inB i (n / 16))) n = t.laneByte μ inB i n := by
  have h16 := h.kLen_mod ht
  have hal := (h.source t ht inB hb).2.1
  have hlane : 16 * (i * ((t.kLen.toNat + 15) / 16)) = i * t.kLen.toNat := by
    rw [Nat.mul_left_comm, show 16 * ((t.kLen.toNat + 15) / 16) = t.kLen.toNat by omega]
  rw [GemmTile.rowByte_descriptor, GemmTile.lines_descriptor (h.kLen_pos ht) (h.kLen_le ht), hlane,
    GemmTile.laneByte_eq, hal, Nat.zero_add]

/-- Operands that are dirty in the cache are flushed. -/
theorem mem_rangeSets {b : Word} (hb : c.IsSource b) (hd : m.HoldsDirty b) :
    idxOf IDX b ∈ rangeSets IDX c.flushed := by
  obtain ⟨t, ht, inB, hfetch, hin⟩ := hb
  have hnull := (h.source t ht inB hfetch).1
  have hflush : (t.src inB, c.operandBytes t) ∈ c.flushTile t →
      idxOf IDX b ∈ rangeSets IDX c.flushed := fun hmem =>
    ⟨_, List.mem_flatMap.2 ⟨t, ht, hmem⟩, b, by have := hin.1; dsimp only; omega, hin.2, rfl⟩
  cases inB with
  | true =>
    refine hflush (List.mem_append_right _ ?_)
    have hne : (t.bSrc != 0) = true := bne_iff_ne.2 hnull
    rw [hne]
    exact List.mem_singleton.2 rfl
  | false =>
    have hbo := hfetch.resolve_left (by simp)
    cases hcoh : t.srcCoherent with
    | true => exact h.coherent t ht hcoh hbo b hin hd
    | false => exact hflush (GemmTile.mem_flushTile hcoh hfetch hnull)

/-! ### The results -/

theorem tile_dest (hs : c.Programs s) (ht : t ∈ c.tiles) :
    StoreConfig.Tile p (s.storeConfig p) t.dest := by
  have hal := (h.dest t ht).2.1
  have hmode := h.mode
  refine ⟨h.good, fits_storeConfig s h.good, bytes_storeConfig s h.good, fun hm =>
    (Bool.and_eq_true_iff.1 hm).1,
    fun k hk => StoreConfig.addr_aligned h.good (fits_storeConfig s h.good) hal (fun hm h2 h0 => ?_) hk⟩
  have hreg : (s.storeConfig p).destStride = c.destStride := hs.destStride
  rw [hreg] at h0 ⊢
  cases h8 : c.outInt8 with
  | true =>
    -- an array that can make bytes makes them
    have hcap : p.int8Capable = true := by
      rcases h.good.cases with ⟨h', -⟩ | ⟨-, -, -, h', -⟩ | ⟨-, -, -, h', -⟩ | ⟨-, -, -, h', -⟩
      · exact absurd h' h2
      all_goals exact h'
    have hint : (s.storeConfig p).int8Mode = (p.int8Capable && s.regs.int8Req) := rfl
    rw [hint, hs.int8Req, h8, hcap] at hm
    exact absurd hm (by simp)
  | false =>
    rw [h8, if_neg Bool.false_ne_true] at hmode
    have h4 : c.destStride.toNat = 4 * p.dim := (hmode.resolve_left h0).resolve_right h2
    rw [h4]
    rcases h.good with h' | h' | h' | h' <;> omega

theorem rowDistance_eq (hs : c.Programs s) (h8 : c.outInt8 = false) :
    (s.storeConfig p).rowDistance p = BitVec.ofNat 32 (4 * p.dim) := by
  have hmode := h.mode
  have hreg : (s.storeConfig p).destStride = c.destStride := hs.destStride
  rw [h8, if_neg Bool.false_ne_true] at hmode
  rw [StoreConfig.rowDistance, hreg]
  split_ifs with h0
  · rfl
  · rw [not_or] at h0
    have h4 := (hmode.resolve_left h0.1).resolve_right h0.2
    rw [← h4, BitVec.ofNat_toNat, BitVec.setWidth_eq]

/-- What is asked for is what is stored. -/
theorem int8Mode_eq (hs : c.Programs s) : (s.storeConfig p).int8Mode = c.outInt8 := by
  have hint : (s.storeConfig p).int8Mode = (p.int8Capable && s.regs.int8Req) := rfl
  have hmode := h.mode
  rw [hint, hs.int8Req]
  cases h8 : c.outInt8 with
  | false => rw [Bool.and_false]
  | true =>
    rw [h8, if_pos rfl] at hmode
    rw [Bool.and_true]
    rcases h.good.cases with ⟨h', -⟩ | ⟨-, -, -, h', -⟩ | ⟨-, -, -, h', -⟩ | ⟨-, -, -, h', -⟩
    · exact absurd h' hmode
    all_goals exact h'

theorem rowsApart (hs : c.Programs s) : (s.storeConfig p).int8Mode = false →
    (s.storeConfig p).RowsApart p := by
  intro h8
  rw [h.int8Mode_eq hs] at h8
  have hflat := StoreConfig.rowsApart_of_contig (c := { s.storeConfig p with destStride := 0 })
    h.good (.inl rfl)
  have hdist : ({ s.storeConfig p with destStride := 0 } : StoreConfig).rowDistance p =
      BitVec.ofNat 32 (4 * p.dim) :=
    if_pos (.inl rfl)
  rw [StoreConfig.RowsApart, hdist] at hflat
  rwa [StoreConfig.RowsApart, h.rowDistance_eq hs h8]

/-- What a tile stores is in its destination. -/
theorem inRange_of_result (hs : c.Programs s) (ht : t ∈ c.tiles) {y : Word}
    (hy : t.descriptor.Result p (s.storeConfig p) y) : InRange t.dest c.tileBytes y := by
  have htile := h.tile_dest hs ht
  obtain ⟨-, hal, hwrap⟩ := h.dest t ht
  obtain ⟨k, hk, rfl⟩ := (Descriptor.result_iff htile).1 hy
  have hlt := offset_lt_tileBytes h.good h.dim hs h.mode hk
  have hext : (s.storeConfig p).extent p = c.tileBytes.toNat := by
    rw [StoreConfig.extent, toNat_tileBytes h.good h.dim, h.int8Mode_eq hs]
    cases h8 : c.outInt8 with
    | true => rfl
    | false =>
      have hdim := p.dim_pos
      have hle := h.good.le
      rw [h.rowDistance_eq hs h8, BitVec.toNat_ofNat, Nat.mod_eq_of_lt (by omega),
        if_neg Bool.false_ne_true, if_neg Bool.false_ne_true]
      obtain ⟨n, hn⟩ := Nat.exists_eq_add_of_lt hdim
      rw [show p.dim = n + 1 by omega, Nat.add_sub_cancel]
      ring
  rw [NoWrap] at hwrap
  have hplace := StoreConfig.toNat_add_place htile (by rw [hext]; omega) hk
  change InRange t.dest c.tileBytes (t.dest + _)
  rw [InRange]
  change (t.dest + _ : Word).toNat = t.dest.toNat + _ at hplace
  rw [hplace]
  omega

theorem isDest_of_result (hs : c.Programs s) (ht : t ∈ c.tiles) {y : Word}
    (hy : t.descriptor.Result p (s.storeConfig p) y) : c.IsDest y :=
  isDest_iff.2 ⟨t, ht, (h.dest t ht).1, h.inRange_of_result hs ht hy⟩

/-- The batch can be run. -/
theorem good_job (hs : c.Programs s) (hstride : s.regs.srcStride = 0) (hne : c.tiles ≠ [])
    (x : TileState) :
    (Job.mk p s.regs.srcStride (s.storeConfig p) (c.tiles.map GemmTile.descriptor) x).Good where
  dim := h.good
  maxK := h.maxK_le hne
  kLen d hd := by
    obtain ⟨t, ht, rfl⟩ := List.mem_map.1 hd
    rw [h.kLen_descriptor ht]
    exact ⟨h.kLen_pos ht, (h.kLen_le ht).trans (Nat.mod_le _ _)⟩
  apart d hd d' hd' y hy hy' := by
    obtain ⟨t, ht, rfl⟩ := List.mem_map.1 hd
    obtain ⟨t', ht', rfl⟩ := List.mem_map.1 hd'
    exact h.apart y (h.isSource_of_operand ht' (hstride ▸ hy')) (h.isDest_of_result hs ht hy)
  panels := h.panels
  fits := fits_storeConfig s h.good

/-- No result falls on another one. -/
theorem pairwise_result (hs : c.Programs s) : (c.tiles.map GemmTile.descriptor).Pairwise fun d d' =>
    ∀ y, d.Result p (s.storeConfig p) y → ¬d'.Result p (s.storeConfig p) y := by
  refine List.pairwise_map.2 (h.distinct.imp_of_mem fun ht ht' hne y hy hy' => ?_)
  exact hne y (h.inRange_of_result hs ht hy) (h.inRange_of_result hs ht' hy')

/-! ### The walks -/

/-- What the batch touches is not on a line of the buffer. -/
theorem lineNo_ne (hn : IDX ≤ 28) {b : Word} (hb : c.IsSource b ∨ c.IsDest b)
    {rgs : List MemRange} {fuel : ℕ} {walk : List Word} (hwrap : ∀ r ∈ rgs, NoWrap r.1 r.2)
    (hwalk : displaceRanges IDX displaceBuf fuel rgs = some walk) :
      ∀ a ∈ walk, lineNo a ≠ lineNo b := fun a ha he =>
  h.outside b hb ((tagOf_eq_iff_inBuf hn h.buf).1
    ((tagOf_congr hn he).symm.trans ((walks_of_displaceRanges hn h.buf hwrap hwalk).tag a ha)))

theorem noWrap_flushed : ∀ r ∈ c.flushed, NoWrap r.1 r.2 := fun r hr => by
  obtain ⟨t, ht, hr⟩ := List.mem_flatMap.1 hr
  rw [flushTile, List.mem_append] at hr
  rcases hr with hr | hr
  · split_ifs at hr with h₁ h₂
    · cases hr
    · obtain rfl := List.mem_singleton.1 hr
      simp only [Bool.and_eq_true, Bool.not_eq_true'] at h₂
      exact (h.source t ht false (.inr h₂.1)).2.2
    · cases hr
  · split_ifs at hr
    · obtain rfl := List.mem_singleton.1 hr
      exact (h.source t ht true (.inl rfl)).2.2
    · cases hr

theorem noWrap_displaced : ∀ r ∈ c.displaced, NoWrap r.1 r.2 := fun r hr => by
  obtain ⟨t, ht, hr⟩ := List.mem_filterMap.1 hr
  split_ifs at hr
  obtain rfl := Option.some_inj.1 hr
  exact (h.dest t ht).2.2

end Proper

/-- Other code writes nothing that the batch touches. -/
theorem unwritten {b : Word} (hb : c.IsSource b ∨ c.IsDest b) {l : List Request}
    (hl : ∀ r ∈ l, c.Other r) :
    ∀ r ∈ l, r.write = true → lineNo r.addr ≠ lineNo b := fun r hr hw =>
  hb.elim (fun hb => (hl r hr).source hw b hb) fun hb => (hl r hr).dest b hb

end GemmCall

/-! ## The call -/

/-- From the state `s` on the writes of the driver are accepted, one after another and at any
    distance. -/
def GemmCall.Submits (p : MmParams) (c : GemmCall) (s s' : MmAccel) : Prop :=
  ∃ (σ : ℕ → MmAccel) (ι : ℕ → MmInputs) (n : ℕ), σ 0 = s ∧
  (∀ k, σ (k + 1) = (σ k).next p (ι k)) ∧
    accepted σ ι 0 n = c.writes ∧ σ n = s'

variable {IDX : ℕ}

/-- A call over the cache and memory `m`, with an accelerator that rests in the state `s`: the
    operands are flushed and the descriptors pushed, and on the cycle `0` the queue is started. From
    then on `κ` is the cache with its memory; what the accelerator writes on a cycle makes its
    memory `μ'`, and the accesses `rs` of other code follow. -/
structure GemmCall.Run (p : MmParams) (displaceBuf : Word) (c : GemmCall)
    (m : CachedMem IDX) (s : MmAccel)
    (σ : ℕ → MmAccel) (ι : ℕ → MmInputs)
    (χ : ℕ → Option Transfer) (ζ : ℕ → Option WriteTransfer)
    (κ : ℕ → CachedMem IDX) (μ' : ℕ → Mem) (rs₀ : List Request) (rs : ℕ → List Request) : Prop where
  reach : (mmAccel p).Reachable s
  idle : s.Idle
  array : s.arr.busy = false
  queue : s.q.descQ = []
  stride : s.regs.srcStride = 0
  check : c.check p.descDepth = .ok
  submit : c.Submits p s (σ 0)
  flush : ∃ fuel walk, displaceRanges IDX displaceBuf fuel c.flushed = some walk ∧
    Walked m walk rs₀ (κ 0)
  next : ∀ n, σ (n + 1) = (σ n).next p (ι n)
  kick : (σ 0).accepts (ι 0) = some (REG_CTRL, CTRL_START_QUEUE)
  calm : ∀ n > 0, (∀ k, 0 < k → k ≤ n → (σ k).q.qDone = false) → (σ n).Calm (ι n)
  free : χ 0 = none ∧ ζ 0 = none
  reads : ReadMemory p σ ι χ fun n => (κ n).lower
  writes : ∀ n, ∃ grant look, ζ (n + 1) = (σ n).wrNext p (ι n) grant look (ζ n) ∧
    (σ n).WriteServes (ι n) look (ζ n) (κ n).lower (μ' n)
  memory : ∀ n, (∀ k, 0 < k → k ≤ n → (σ k).q.qDone = false) →
    κ (n + 1) = ({ κ n with lower := μ' n } : CachedMem IDX).accesses (rs n)
  others : (∀ r ∈ rs₀, c.Other r) ∧ ∀ n, ∀ r ∈ rs n, c.Other r

namespace GemmCall.Run

variable {p : MmParams} {c : GemmCall} {displaceBuf : Word} {m : CachedMem IDX} {s : MmAccel}
  {σ : ℕ → MmAccel} {ι : ℕ → MmInputs} {χ : ℕ → Option Transfer} {ζ : ℕ → Option WriteTransfer}
  {κ : ℕ → CachedMem IDX} {μ' : ℕ → Mem}
  {rs₀ : List Request} {rs : ℕ → List Request} {b : Word} {n : ℕ}

section

variable (h : c.Run p displaceBuf m s σ ι χ ζ κ μ' rs₀ rs)

include h

theorem tiles_ne : c.tiles ≠ [] := fun hnil => by
  have hcheck := h.check
  simp [GemmCall.check, hnil] at hcheck

theorem length_le : c.tiles.length ≤ p.descDepth := by
  have hcheck := h.check
  by_contra hlt
  rw [GemmCall.check, if_neg h.tiles_ne, if_pos (by omega)] at hcheck
  cases hcheck

/-- The accelerator when the queue is started. -/
theorem start : (mmAccel p).Reachable (σ 0) ∧ (σ 0).Idle ∧
    (σ 0).q.descQ = c.tiles.map GemmTile.descriptor ∧
    c.Programs (σ 0) ∧ (σ 0).regs.srcStride = 0 ∧
    (σ 0).regs.outShift = if c.outInt8 then c.outShift.toNat % 32 else 0 := by
  obtain ⟨σ', ι', k, h₀, hnext, hw, hk⟩ := h.submit
  have hreach : ∀ j, (mmAccel p).Reachable (σ' j) := fun j => by
    induction j with
    | zero => exact h₀ ▸ h.reach
    | succ j ih => exact hnext j ▸ .step ih trivial
  have hstop : (σ' 0).Stopped :=
    (engineInv_of_reachable (hreach 0)).stopped (h₀ ▸ h.array) (h₀ ▸ h.idle.load)
      (h₀ ▸ h.idle.queue)
  obtain ⟨hi, hq, hp, hs, ho⟩ := descQ_of_written (a := 0) (n := k) hnext hstop (h₀ ▸ h.idle)
    (h₀ ▸ h.queue) h.length_le hw
  rw [Nat.zero_add, hk] at hi hq hp hs ho
  exact ⟨hk ▸ hreach k, hi, hq, hp, hs.trans (h₀ ▸ h.stride), ho⟩

theorem kicks : (σ 0).Kicks (ι 0) := by
  have hw := fun n => writes_of_accepts h.kick n
  refine ⟨(hw 0).1, ?_, fun b hb => ?_⟩
  · rw [(hw 0).2]
    rfl
  · rw [(hw 0).2]
    interval_cases b <;> rfl

/-! ### Before the batch -/

/-- The flush: nothing that the batch touches is dirty, and the operands are in memory. -/
theorem flushed (hc : c.Proper p displaceBuf m) (hn : IDX ≤ 28) :
    (∀ b, c.IsSource b ∨ c.IsDest b → ¬(κ 0).HoldsDirty b) ∧
    (∀ b, c.IsSource b → (κ 0).lower b = m.latest b) ∧
      (κ 0).latest = applyAll rs₀ m.latest ∧ ∀ b, ¬c.IsDest b → (κ 0).Fresh b := by
  obtain ⟨fuel, walk, hwalk, hw⟩ := h.flush
  have hsets := (walks_of_displaceRanges hn hc.buf (hc.noWrap_flushed) hwalk).sets
  obtain ⟨hlatest, hfresh⟩ := hw.latest hn (D := c.IsDest) (fun r hr => (h.others.1 r hr).dest) hc.fresh
  have hclean : ∀ b, c.IsSource b ∨ c.IsDest b → ¬(κ 0).HoldsDirty b := fun b hb => by
    refine hw.clean hn (unwritten hb h.others.1)
      (hc.lineNo_ne hn hb (hc.noWrap_flushed) hwalk) fun hd => ?_
    have hset : idxOf IDX b ∈ rangeSets IDX c.flushed :=
      hb.elim (fun hb => hc.mem_rangeSets hb hd) fun hb => hc.clean b hb hd
    rw [← hsets] at hset
    exact hset
  refine ⟨hclean, fun b hb => ?_, hlatest, hfresh⟩
  rw [CachedMem.lower_eq_latest (hclean b (.inl hb)), hlatest,
    applyAll_of_ne (unwritten (.inl hb) h.others.1)]

/-! ### The batch -/

/-- Nothing that the batch touches becomes dirty. -/
theorem clean (hc : c.Proper p displaceBuf m) (hn : IDX ≤ 28) (hno : ∀ k, 0 < k → k < n →
    (σ k).q.qDone = false) :
    ∀ b, c.IsSource b ∨ c.IsDest b → ¬(κ n).HoldsDirty b := by
  induction n with
  | zero => exact (h.flushed hc hn).1
  | succ n ih =>
    intro b hb
    rw [h.memory n fun k h₁ h₂ => hno k h₁ (Nat.lt_succ_of_le h₂)]
    exact (CachedMem.lower_accesses hn (s := { κ n with lower := μ' n })
      (ih (fun k h₁ h₂ => hno k h₁ (Nat.lt_succ_of_lt h₂)) b hb) (unwritten hb (h.others.2 n))).1

/-- What the batch touches is of its operands or its destinations. -/
theorem of_touched (hc : c.Proper p displaceBuf m) {y : Word}
    (hy : Descriptor.Touched p (σ 0) (c.tiles.map GemmTile.descriptor) y) :
      c.IsSource y ∨ c.IsDest y := by
  obtain ⟨-, -, -, hs, hstride, -⟩ := h.start
  obtain ⟨d, hd, hy⟩ := hy
  obtain ⟨t, ht, rfl⟩ := List.mem_map.1 hd
  exact hy.imp (fun hy => hc.isSource_of_operand ht (hstride ▸ hy)) fun hy =>
    hc.isDest_of_result hs ht hy

/-- The accelerator runs the batch behind the cache. -/
theorem sharedRun (hc : c.Proper p displaceBuf m) (hn : IDX ≤ 28) :
    SharedRun p (c.tiles.map GemmTile.descriptor) σ ι χ ζ (fun n => (κ n).lower) μ' where
  reach := h.start.1
  next := h.next
  queue := h.start.2.2.1
  idle := h.start.2.1
  free := h.free
  kick := h.kicks
  calm := h.calm
  reads := h.reads
  writes := h.writes
  others n hno y hy := by
    have hb := h.of_touched hc hy
    rw [h.memory n hno]
    exact (CachedMem.lower_accesses hn (s := { κ n with lower := μ' n })
      (h.clean hc hn (fun k h₁ h₂ => hno k h₁ h₂.le) y hb) (unwritten hb (h.others.2 n))).2

/-- Everything else is what other code makes of it. -/
theorem data (hc : c.Proper p displaceBuf m) (hn : IDX ≤ 28) {e : ℕ}
    (hno : ∀ k, 0 < k → k < e → (σ k).q.qDone = false)
    (hframe : ∀ n < e, ∀ y, (∀ d ∈ c.tiles.map GemmTile.descriptor,
      ¬d.Result p ((σ 0).storeConfig p) y) →
      μ' n y = (κ n).lower y) (hne : n ≤ e) :
    ∀ b, ¬c.IsDest b → (κ n).Fresh b ∧
      (κ n).latest b = applyAll (rs₀ ++ (List.range n).flatMap rs) m.latest b := by
  induction n with
  | zero =>
    obtain ⟨-, -, hlatest, hfresh⟩ := h.flushed hc hn
    intro b hb
    refine ⟨hfresh b hb, ?_⟩
    rw [hlatest, List.range_zero, List.flatMap_nil, List.append_nil]
  | succ n ih =>
    have ih := ih (Nat.le_of_succ_le hne)
    -- what the accelerator has written is not there
    have hsame : ∀ b, ¬c.IsDest b → μ' n b = (κ n).lower b :=
        fun b hb => hframe n hne b fun d hd hy => by
      obtain ⟨t, ht, rfl⟩ := List.mem_map.1 hd
      exact hb (hc.isDest_of_result h.start.2.2.2.1 ht hy)
    have hlatest : ∀ b, ¬c.IsDest b → ({ κ n with lower := μ' n } : CachedMem IDX).latest b =
        (κ n).latest b := fun b hb => by
      simp only [CachedMem.latest, hsame b hb]
      rfl
    have hfresh : ∀ b, ¬c.IsDest b → ({ κ n with lower := μ' n } : CachedMem IDX).Fresh b :=
        fun b hb => by
      rw [CachedMem.Fresh, hlatest b hb, ← (ih b hb).1]
      simp only [CachedMem.read, hsame b hb]
      rfl
    obtain ⟨h₁, h₂⟩ := CachedMem.latest_accesses hn (D := c.IsDest) (fun r hr =>
      (h.others.2 n r hr).dest) hfresh
    intro b hb
    rw [h.memory n fun k h₁ h₂ => hno k h₁ (h₂.trans_lt hne)]
    refine ⟨h₂ b hb, ?_⟩
    rw [h₁, List.range_succ, List.flatMap_append, ← List.append_assoc, applyAll_append,
      List.flatMap_singleton]
    exact applyAll_congr (rs n) ((hlatest b hb).trans (ih b hb).2)

/-! ### After the batch -/

/-- Once the destinations are displaced a load returns what is in memory there. -/
theorem collected (hc : c.Proper p displaceBuf m) (hn : IDX ≤ 28) {e : ℕ}
    (hno : ∀ k, 0 < k → k < e → (σ k).q.qDone = false) {fuel : ℕ} {walk : List Word}
    (hwalk : displaceRanges IDX displaceBuf fuel c.displaced = some walk) {rs₁ : List Request}
    {m' : CachedMem IDX}
    (hother : ∀ r ∈ rs₁, c.Other r) (hw : Walked (κ e) walk rs₁ m') {y : Word} (hy : c.IsDest y) :
    m'.read y = (κ e).lower y := by
  have hsets := (walks_of_displaceRanges hn hc.buf hc.noWrap_displaced hwalk).sets
  have hgone : ¬m'.Holds y := by
    refine hw.gone hn (fun r hr => (hother r hr).dest y hy)
      (hc.lineNo_ne hn (.inr hy) hc.noWrap_displaced hwalk) fun _ => ?_
    obtain ⟨r, hr, hlow, hhigh⟩ := hy
    have hset : idxOf IDX y ∈ rangeSets IDX c.displaced := ⟨r, hr, y, by omega, hhigh, rfl⟩
    rw [← hsets] at hset
    exact hset
  rw [CachedMem.read, if_neg hgone]
  exact (hw.lower hn (unwritten (.inr hy) hother) (h.clean hc hn hno y (.inr hy))).2

/-- The accumulators of a tile are the products of what the CPU had stored. -/
theorem acc_eq (hc : c.Proper p displaceBuf m) (hn : IDX ≤ 28) {k : ℕ} {t a b : GemmTile}
    (hw : c.Works p k t a b)
    {x : TileState} (hx : x.mem = (κ 0).lower) {i j : ℕ} (hi : i < p.dim) (hj : j < p.dim) :
    ((x.run p 0 ((σ 0).storeConfig p) ((c.tiles.map GemmTile.descriptor).take k)).load p 0
      t.descriptor).acc p t.descriptor i j =
      dotProduct (a.laneByte m.latest false i) (b.laneByte m.latest true j) t.kLen.toNat := by
  obtain ⟨-, -, -, hs, hstride, -⟩ := h.start
  obtain ⟨ka, ha, hA⟩ := hw.loadsA
  obtain ⟨kb, hb, hB⟩ := hw.loadsB
  have ht := List.mem_of_getElem? hw.tile
  have ha' := List.mem_of_getElem? ha
  have hb' := List.mem_of_getElem? hb
  have hmap : ∀ {n : ℕ} {t : GemmTile}, c.tiles[n]? = some t →
      (c.tiles.map GemmTile.descriptor)[n]? = some t.descriptor := fun ht => by
    rw [List.getElem?_map, ht]
    rfl
  have hbo : a.bOnly = false := by rw [← GemmTile.bOnly_descriptor, hA.loads _ (hmap ha)]
  -- The two tiles whose operands are in the buffers, for the descriptors that the driver writes.
  have hworks : Descriptor.Works p (c.tiles.map GemmTile.descriptor) k t.descriptor a.descriptor
      b.descriptor := by
    refine ⟨hmap hw.tile, ⟨ka, hmap ha, hA⟩, ⟨kb, hmap hb, hB⟩, ?_, ?_⟩
    · rw [hc.kLen_descriptor ht, hc.kLen_descriptor ha']
      exact ⟨hw.deepA, (hc.kLen_le ha').trans (Nat.mod_le _ _)⟩
    · rw [hc.kLen_descriptor ht, hc.kLen_descriptor hb']
      exact ⟨hw.deepB, (hc.kLen_le hb').trans (Nat.mod_le _ _)⟩
  have hap := (hc.good_job hs hstride h.tiles_ne x).apart
  rw [hstride] at hap
  have hlower := (h.flushed hc hn).2.1
  rw [TileState.acc_run hap hworks x hi hj, hc.kLen_descriptor ht, hx]
  -- The accelerator fetches from the memory, which has what the CPU stored since the flush.
  refine dotProduct_congr fun n hlt => ⟨?_, ?_⟩
  · rw [hc.rowByte_eq ha' (.inr hbo), GemmTile.laneByte, GemmTile.laneByte]
    exact hlower _ (hc.isSource_lane ha' (.inr hbo) hi (hlt.trans_le hw.deepA))
  · rw [hc.rowByte_eq hb' (.inl rfl), GemmTile.laneByte, GemmTile.laneByte]
    exact hlower _ (hc.isSource_lane hb' (.inl rfl) hj (hlt.trans_le hw.deepB))

/-- A memory with the results of the batch has those of a tile. -/
theorem result_eq (hc : c.Proper p displaceBuf m) (hn : IDX ≤ 28) {k : ℕ} {t a b : GemmTile}
    (hw : c.Works p k t a b) {x : TileState} (hx : x.mem = (κ 0).lower) {μ : Mem}
    (hμ : ∀ y, t.descriptor.Result p ((σ 0).storeConfig p) y →
      μ y = (x.run p 0 ((σ 0).storeConfig p) (c.tiles.map GemmTile.descriptor)).mem y)
    {i j : ℕ} (hi : i < p.dim) (hj : j < p.dim) :
    (c.outInt8 = false → μ.word (t.dest + BitVec.ofNat 32 (4 * (i * p.dim + j))) =
      dotProduct (a.laneByte m.latest false i) (b.laneByte m.latest true j) t.kLen.toNat) ∧
    (c.outInt8 = true → μ (t.dest + BitVec.ofNat 32 (i * p.dim + j)) = requant (c.outShift.toNat % 32)
      (dotProduct (a.laneByte m.latest false i) (b.laneByte m.latest true j) t.kLen.toNat)) := by
  obtain ⟨-, -, -, hs, -, hshift⟩ := h.start
  have ht := List.mem_of_getElem? hw.tile
  have htile := hc.tile_dest hs ht
  have hd : (c.tiles.map GemmTile.descriptor)[k]? = some t.descriptor := by
    rw [List.getElem?_map, hw.tile]
    rfl
  have hlines := TileState.lines_run 0 hd htile (hc.rowsApart hs) (hc.pairwise_result hs) x
  have hin := hlines.of_eq fun g hg y hy => hμ y ⟨g, hg, hy⟩
  have hacc := h.acc_eq hc hn hw hx hi hj
  refine ⟨fun h8 => ?_, fun h8 => ?_⟩
  · rw [← hacc, ← htile.word hin ((hc.int8Mode_eq hs).trans h8) hi hj, hc.rowDistance_eq hs h8]
    congr 1
    rw [← BitVec.ofNat_mul, BitVec.add_assoc, ← BitVec.ofNat_add]
    congr 2
    ring
  · have hsh : ((σ 0).storeConfig p).outShift = c.outShift.toNat % 32 := hshift.trans (if_pos h8)
    rw [← hacc, ← hsh]
    exact htile.byte hin ((hc.int8Mode_eq hs).trans h8) hi hj

end

end GemmCall.Run

/-- A call of `gemm_run_batch` ends, if the channels serve the accelerator. When it has displaced
    the destinations a load of a result returns the product of a row of A and a column of B, as the
    CPU had stored them before the call: as a word, or rounded, shifted and saturated to a byte. A
    load of any other byte returns what other code has stored meanwhile, or what was there before. -/
theorem product_of_run {p : MmParams} {c : GemmCall} {displaceBuf : Word} {m : CachedMem IDX}
    {s : MmAccel} {σ : ℕ → MmAccel} {ι : ℕ → MmInputs}
    {χ : ℕ → Option Transfer} {ζ : ℕ → Option WriteTransfer}
    {κ : ℕ → CachedMem IDX} {μ' : ℕ → Mem}
    {rs₀ : List Request} {rs : ℕ → List Request} (h : c.Run p displaceBuf m s σ ι χ ζ κ μ' rs₀ rs)
    (hc : c.Proper p displaceBuf m) (hn : IDX ≤ 28) (hr : ReadFair σ ι χ) (hw : WriteFair σ ι ζ) :
    ∃ e > 0, (∀ n, 0 < n → n ≤ e → ((σ n).q.qDone = true ↔ n = e)) ∧
      ∃ N, ∀ fuel ≥ N, ∃ walk, displaceRanges IDX displaceBuf fuel c.displaced = some walk ∧
        ∀ rs₁ m', (∀ r ∈ rs₁, c.Other r) → Walked (κ e) walk rs₁ m' →
          (∀ k t a b, c.Works p k t a b → ∀ i < p.dim, ∀ j < p.dim,
            (c.outInt8 = false → Mem.word m'.read (t.dest + BitVec.ofNat 32 (4 * (i * p.dim + j))) =
              dotProduct (a.laneByte m.latest false i) (b.laneByte m.latest true j) t.kLen.toNat) ∧
            (c.outInt8 = true → m'.read (t.dest + BitVec.ofNat 32 (i * p.dim + j)) =
              requant (c.outShift.toNat % 32)
              (dotProduct (a.laneByte m.latest false i) (b.laneByte m.latest true j) t.kLen.toNat))) ∧
          ∀ y, ¬c.IsDest y →
            m'.read y = applyAll (rs₀ ++ (List.range e).flatMap rs ++ rs₁) m.latest y := by
  obtain ⟨-, -, -, hs, hstride, -⟩ := h.start
  -- The batch ends, with the products of its tiles in the memory.
  obtain ⟨e, he, hdone, hmem, hframe⟩ :=
    (h.sharedRun hc hn).exists_ended (hc.good_job hs hstride h.tiles_ne _) hr hw
  have hno : ∀ k, 0 < k → k < e → (σ k).q.qDone = false := fun k h₁ h₂ =>
    Bool.eq_false_iff.2 fun hd => absurd ((hdone k h₁ h₂.le).1 hd) h₂.ne
  obtain ⟨N, hN⟩ := exists_displaceRanges IDX displaceBuf hc.noWrap_displaced
  refine ⟨e, he, hdone, N, fun fuel hfuel => ?_⟩
  obtain ⟨walk, hwalk⟩ := hN fuel hfuel
  -- After the walk a load of a result is not answered by an old line.
  refine ⟨walk, hwalk, fun rs₁ m' hother hw' => ⟨fun k t a b hworks i hi j hj => ?_, fun y hy => ?_⟩⟩
  · rw [hstride] at hmem
    refine h.result_eq hc hn hworks (x := ⟨(σ 0).buf.aMem, (σ 0).buf.bMem, (κ 0).lower⟩) rfl
      (fun y hy => ?_) hi hj
    have ht := List.mem_of_getElem? hworks.tile
    rw [h.collected hc hn hno hwalk hother hw' (hc.isDest_of_result hs ht hy)]
    exact hmem y ⟨_, List.mem_map_of_mem ht, .inr hy⟩
  · obtain ⟨h₁, h₂⟩ := hw'.latest hn (D := c.IsDest) (fun r hr => (hother r hr).dest) fun b hb =>
      (h.data hc hn hno hframe le_rfl b hb).1
    rw [show m'.read y = m'.latest y from h₂ y hy, h₁, applyAll_append]
    exact applyAll_congr rs₁ (h.data hc hn hno hframe le_rfl y hy).2

/-! ### A product -/

namespace GemmBatch

/-- The writes of the driver, with a cycle between them. -/
def submission (c : GemmCall) (n : ℕ) : MmInputs :=
  if n % 2 = 0 then (c.writes[n / 2]?).elim .quiet fun x => .write x.1 x.2 else .quiet

/-- The accelerator once they have been accepted. -/
def submitted (c : GemmCall) : MmAccel :=
  (mmAccel mmDim4).trace resetMm (submission c) (2 * c.writes.length)

/-- An empty cache over a memory of ones, and of twos from `0x300` on. -/
def coldCache : CachedMem 10 := ⟨fun _ _ => 0, fun _ => ⟨false, 0⟩, fun _ => false, fun a =>
    if a.toNat < 0x300 then 1 else 2⟩

theorem fresh_coldCache (b : Word) : coldCache.Fresh b := by
  have hb : ¬coldCache.Holds b := fun h => absurd h.1 Bool.false_ne_true
  rw [CachedMem.Fresh, CachedMem.read, if_neg hb, CachedMem.latest, if_neg fun h => hb h.1]

theorem isSource_oneTile {b : Word} (hb : oneTile.IsSource b) : 0x200 ≤ b.toNat ∧ b.toNat < 0x340 := by
  obtain ⟨t, ht, inB, -, hlow, hhigh⟩ := hb
  obtain rfl := List.mem_singleton.1 ht
  have hbytes : (oneTile.operandBytes ⟨0x200, 0x300, 0x100, 16, 0, 0, false, false⟩).toNat = 64 := by
    decide
  rw [hbytes] at hhigh
  cases inB
  · simp only [GemmTile.src, Bool.false_eq_true, if_false, BitVec.ofNat_eq_ofNat,
      BitVec.toNat_ofNat] at hlow hhigh
    omega
  · simp only [GemmTile.src, if_true, BitVec.ofNat_eq_ofNat, BitVec.toNat_ofNat] at hlow hhigh
    omega

theorem isDest_oneTile {b : Word} (hb : oneTile.IsDest b) : 0x100 ≤ b.toNat ∧ b.toNat < 0x140 := by
  obtain ⟨r, hr, hlow, hhigh⟩ := hb
  obtain rfl := mem_displaced_oneTile.1 hr
  exact ⟨hlow, hhigh⟩

theorem proper_oneTile : oneTile.Proper mmDim4 0x4000 coldCache where
  good := .inr (.inl rfl)
  dim := rfl
  kLen := by decide
  source t ht inB _ := by
    obtain rfl := List.mem_singleton.1 ht
    revert inB
    decide
  dest := by decide
  mode := .inl rfl
  panels _ := trivial
  apart b hs hd := by
    have := isSource_oneTile hs
    have := isDest_oneTile hd
    omega
  distinct := List.pairwise_singleton _ _
  buf := by decide
  outside b hb hbuf := by
    have hlow : 0x4000 ≤ b.toNat := hbuf.1
    rcases hb with hb | hb
    · have := isSource_oneTile hb
      omega
    · have := isDest_oneTile hb
      omega
  clean _ _ hd := absurd hd.2 Bool.false_ne_true
  coherent _ _ _ _ _ _ hd := absurd hd.2 Bool.false_ne_true
  fresh b _ := fresh_coldCache b

theorem submits_oneTile : oneTile.Submits mmDim4 resetMm (submitted oneTile) :=
  ⟨(mmAccel mmDim4).trace resetMm (submission oneTile), submission oneTile,
    2 * oneTile.writes.length, rfl, fun _ => rfl, by decide +kernel, rfl⟩

theorem product_oneTile : ∃ σ ι χ ζ κ μ', oneTile.Run mmDim4 0x4000 coldCache resetMm σ ι χ ζ κ μ'
    [] (fun _ => []) ∧
    ∃ e walk, (σ e).q.qDone = true ∧ Mem.word (CachedMem.loads (κ e) walk).read 0x100 = 32 := by
  obtain ⟨N, hN⟩ := exists_displaceRanges 10 0x4000 proper_oneTile.noWrap_flushed
  obtain ⟨walk, hwalk⟩ := hN N le_rfl
  have hreach : (mmAccel mmDim4).Reachable (submitted oneTile) :=
    Circuit.reachable_trace isReset_resetMm fun _ _ => trivial
  have hidle : (submitted oneTile).Idle :=
    ⟨by decide +kernel, by decide +kernel, by decide +kernel, by decide +kernel, by decide +kernel⟩
  have hb := batchRun_served hreach hidle (by decide +kernel) (coldCache.loads walk).lower
  obtain ⟨hr, hw⟩ := fair_served (p := mmDim4) (s := submitted oneTile) (coldCache.loads walk).lower
  have hrun : oneTile.Run mmDim4 0x4000 coldCache resetMm _ _ _
      (fun n => (served mmDim4 (submitted oneTile) (coldCache.loads walk).lower n).wr)
      (fun n =>
        { coldCache.loads walk with
          lower := (served mmDim4 (submitted oneTile) (coldCache.loads walk).lower n).mem })
      (fun n => (served mmDim4 (submitted oneTile) (coldCache.loads walk).lower (n + 1)).mem)
          [] (fun _ => []) :=
    { reach := .init isReset_resetMm
      idle := ⟨rfl, rfl, rfl, rfl, rfl⟩
      array := rfl
      queue := rfl
      stride := rfl
      check := by decide
      submit := submits_oneTile
      flush := ⟨N, walk, hwalk, walked_loads coldCache walk⟩
      next := hb.next
      kick := by
        change (submitted oneTile).accepts (kickOnly 0) = _
        decide +kernel
      calm := hb.calm
      free := hb.free
      reads := hb.reads
      writes := hb.writes
      memory := fun _ _ => rfl
      others := ⟨fun _ hr => absurd hr List.not_mem_nil, fun _ _ hr => absurd hr List.not_mem_nil⟩ }
  obtain ⟨e, he, hdone, N', hcollect⟩ := product_of_run hrun proper_oneTile (by decide) hr hw
  obtain ⟨walk', -, hresult⟩ := hcollect N' le_rfl
  refine ⟨_, _, _, _, _, _, hrun, e, walk', (hdone e he le_rfl).2 rfl, ?_⟩
  have hworks : oneTile.Works mmDim4 0 ⟨0x200, 0x300, 0x100, 16, 0, 0, false, false⟩
      ⟨0x200, 0x300, 0x100, 16, 0, 0, false, false⟩ ⟨0x200, 0x300, 0x100, 16, 0, 0, false, false⟩ :=
    ⟨rfl, ⟨0, rfl, le_rfl, fun a ha => by obtain rfl := Option.some_inj.1 ha; rfl,
      fun i h₁ h₂ => by omega⟩,
      ⟨0, rfl, le_rfl, fun a ha => by obtain rfl := Option.some_inj.1 ha; rfl,
        fun i h₁ h₂ => by omega⟩, le_rfl, le_rfl⟩
  have hword := ((hresult [] _ (fun _ hr => absurd hr List.not_mem_nil) (walked_loads _ walk')).1 0 _
    _ _ hworks 0 (by decide)
    0 (by decide)).1 rfl
  exact hword.trans (by decide +kernel)

end GemmBatch

end Rv32Soc
