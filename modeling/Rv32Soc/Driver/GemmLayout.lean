import Mathlib.Tactic.IntervalCases
import Rv32Soc.Accel.TileRun
import Rv32Soc.Driver.Gemm

/-!
# The layout of the operands

`gemm.h` and the byte count of the driver pack the lanes of an operand; the accelerator
begins each lane with a line of its own. What the array multiplies is what the caller has
laid out exactly where a lane is a whole number of lines (`operands_iff`).
-/

namespace Rv32Soc

open MmAccel DcacheBram

/-! ## Lines and lanes -/

/-- Where the line of an address starts. -/
def lineStart (x : Word) : Word := BitVec.ofNat 32 (x.toNat / 16 * 16)

theorem toNat_lineStart (x : Word) : (lineStart x).toNat = x.toNat / 16 * 16 := by
  have := x.isLt
  rw [lineStart, BitVec.toNat_ofNat]
  omega

theorem lineNo_lineStart (x : Word) : lineNo (lineStart x) = lineNo x := by
  apply BitVec.eq_of_toNat_eq
  rw [toNat_lineNo, toNat_lineNo, toNat_lineStart]
  omega

theorem lineStart_add (x : Word) (n : ℕ) :
    lineStart (x + BitVec.ofNat 32 (16 * n)) = lineStart x + BitVec.ofNat 32 (16 * n) := by
  apply BitVec.eq_of_toNat_eq
  rw [toNat_lineStart, BitVec.toNat_add, BitVec.toNat_add, toNat_lineStart, BitVec.toNat_ofNat]
  have := x.isLt
  omega

/-- The bytes of a row, wherever it has been fetched from. -/
theorem rowByte_line_lineStart (m : Mem) (x : Word) (k : ℕ) :
    rowByte (m.line x) k = m (lineStart x + BitVec.ofNat 32 (k % 16)) := by
  have hal : (lineStart x).toNat % 16 = 0 := by
    rw [toNat_lineStart]
    omega
  have hline : m.line x = m.line (lineStart x) := by rw [Mem.line, Mem.line, lineNo_lineStart]
  rw [← rowByte_line m hal (Nat.mod_lt _ (by decide)), hline, rowByte, rowByte, Nat.mod_mod]

namespace MmAccel.LoadConfig

variable {p : MmParams} {c : LoadConfig}

/-- Without a distance the lines of a panel are numbered through. -/
theorem addr_of_stride_eq_zero (h : c.srcStride = 0) (inB : Bool) (i r : ℕ) :
    c.addr p inB i r =
      (if inB then c.bSrcAddr else c.aSrcAddr) + BitVec.ofNat 32 (16 * (i * c.lines p + r)) := by
  rw [addr, stride, if_pos h, BitVec.add_assoc, ← BitVec.ofNat_mul, ← BitVec.ofNat_add]
  congr 2
  ring

end MmAccel.LoadConfig

/-! ## Two windows of memory -/

/-- A memory of ones, but for one byte. -/
def onesBut (z : Word) : Mem := fun y => if y = z then 0 else 1

/-- The product of two rows of it falls short where one of them meets that byte. -/
theorem dotProduct_onesBut {K : ℕ} (hK : K ≤ 128) (z : Word) (f g : ℕ → Word) :
    dotProduct (fun k => onesBut z (f k)) (fun k => onesBut z (g k)) K = BitVec.ofNat 32 K ↔
      ∀ k < K, f k ≠ z ∧ g k ≠ z := by
  have hterm : ∀ x, (onesBut z x).toInt = if x = z then 0 else 1 := fun x => by
    rw [onesBut]
    split_ifs <;> rfl
  simp only [dotProduct, hterm]
  constructor
  · intro h k hk
    by_contra hmeet
    have hle : ∀ k ∈ Finset.range K,
        (if f k = z then (0 : ℤ) else 1) * (if g k = z then 0 else 1) ≤ 1 := fun k _ => by
      split_ifs <;> simp
    have hlt := Finset.sum_lt_sum hle ⟨k, Finset.mem_range.2 hk, by split_ifs <;> simp_all⟩
    have hnonneg := Finset.sum_nonneg fun k (_ : k ∈ Finset.range K) =>
      (by split_ifs <;> simp : (0 : ℤ) ≤ (if f k = z then (0 : ℤ) else 1) * (if g k = z then 0 else 1))
    have hn := congrArg BitVec.toNat h
    simp only [Finset.sum_const, Finset.card_range, nsmul_eq_mul, mul_one] at hlt
    rw [BitVec.toNat_ofInt, BitVec.toNat_ofNat] at hn
    omega
  · intro h
    rw [Finset.sum_congr rfl fun k hk => by
      rw [if_neg (h k (Finset.mem_range.1 hk)).1, if_neg (h k (Finset.mem_range.1 hk)).2]]
    simp

/-- Two pairs of windows that meet the same bytes, the second pair a few bytes further on, are the
    same. -/
theorem eq_zero_of_windows {K δ ε : ℕ} (hK₁ : 1 ≤ K) (hK : K ≤ 128) (hδ : δ < 16)
    (hε : ε < 16) {α β : Word}
    (h : ∀ z, (∀ k < K, α + BitVec.ofNat 32 k ≠ z ∧ β + BitVec.ofNat 32 k ≠ z) ↔
      ∀ k < K, α + BitVec.ofNat 32 (δ + k) ≠ z ∧ β + BitVec.ofNat 32 (ε + k) ≠ z) : δ = 0 := by
  have hα := α.isLt
  have hβ := β.isLt
  have hto : ∀ {x y : Word} {m n : ℕ}, x + BitVec.ofNat 32 m = y + BitVec.ofNat 32 n →
      (x.toNat + m) % 2 ^ 32 = (y.toNat + n) % 2 ^ 32 := fun he => by
    have := congrArg BitVec.toNat he
    simpa only [BitVec.toNat_add, BitVec.toNat_ofNat, Nat.add_mod_mod] using this
  have hright : ∀ k < K, ∀ z, α + BitVec.ofNat 32 k = z ∨ β + BitVec.ofNat 32 k = z →
      ∃ k < K, α + BitVec.ofNat 32 (δ + k) = z ∨ β + BitVec.ofNat 32 (ε + k) = z := by
    intro k hk z hz
    by_contra hnone
    push Not at hnone
    have hk := (h z).2 hnone k hk
    exact hz.elim hk.1 hk.2
  have hleft : ∀ k < K, ∀ z, α + BitVec.ofNat 32 (δ + k) = z ∨ β + BitVec.ofNat 32 (ε + k) = z →
      ∃ k < K, α + BitVec.ofNat 32 k = z ∨ β + BitVec.ofNat 32 k = z := by
    intro k hk z hz
    by_contra hnone
    push Not at hnone
    have hk := (h z).1 hnone k hk
    exact hz.elim hk.1 hk.2
  by_contra hpos
  -- where the first window begins there is no window but the other one
  obtain ⟨k, hk, hz | hz⟩ := hright 0 hK₁ _ (.inl rfl)
  · have := hto hz
    omega
  rcases Nat.eq_zero_or_pos ε with rfl | hε'
  · -- and where it ends now there was none before
    obtain ⟨l, hl, hy | hy⟩ := hleft (K - 1) (by omega) _ (.inl rfl)
    · have := hto hy
      omega
    · have h₁ := hto hz
      have h₂ := hto hy
      omega
  · obtain ⟨l, hl, hy | hy⟩ := hright 0 hK₁ _ (.inr rfl)
    · have h₁ := hto hz
      have h₂ := hto hy
      omega
    · have := hto hy
      omega

/-! ## Tiles of the driver -/

namespace GemmTile

variable (t : GemmTile)

/-- The pointer to an operand. -/
def src (inB : Bool) : Word := if inB then t.bSrc else t.aSrc

/-- The byte `k` of the lane `i` of an operand, `k_len` bytes a lane. -/
def laneByte (m : Mem) (inB : Bool) (i k : ℕ) :
    Byte := m (t.src inB + BitVec.ofNat 32 (i * t.kLen.toNat + k))

variable {t}

theorem kLen_descriptor (h : t.kLen.toNat < 256) : t.descriptor.kLen = t.kLen.toNat := by
  have hlow : t.descPush.setWidth 8 = t.kLen.setWidth 8 := by
    apply BitVec.eq_of_getLsbD_eq
    intro i hi
    interval_cases i <;> cases hb : t.bOnly <;> simp [descPush, hb]
  have hn := congrArg BitVec.toNat hlow
  rw [BitVec.toNat_setWidth, BitVec.toNat_setWidth] at hn
  exact hn.trans (Nat.mod_eq_of_lt h)

theorem bOnly_descriptor : t.descriptor.bOnly = t.bOnly := by
  cases h : t.bOnly <;> simp [descriptor, Descriptor.bOnly, descPush, h]

/-- The operands that a tile fetches are flushed, unless the caller has done so. -/
theorem mem_flushTile {c : GemmCall} (hcoh : t.srcCoherent = false) {inB : Bool}
    (hb : inB = true ∨ t.bOnly = false)
    (hnull : t.src inB ≠ 0) : (t.src inB, c.operandBytes t) ∈ c.flushTile t := by
  rw [GemmCall.flushTile, hcoh, if_neg Bool.false_ne_true, List.mem_append]
  cases inB with
  | false =>
    have ha : (t.aSrc != 0) = true := bne_iff_ne.2 hnull
    rw [hb.resolve_left nofun, ha]
    exact .inl (List.mem_singleton.2 rfl)
  | true =>
    have hb : (t.bSrc != 0) = true := bne_iff_ne.2 hnull
    rw [hb]
    exact .inr (List.mem_singleton.2 rfl)

/-- `gemm_get_info` gives a depth only for arrays that are no deeper than 128. -/
theorem maxK_le (p : MmParams) {K : ℕ} (hK : 1 ≤ K) (h : K ≤ p.maxK % 256) : p.maxK ≤ 128 := by
  obtain ⟨n, hn⟩ := p.maxK_pow
  by_cases h8 : 8 ≤ n
  · obtain ⟨j, rfl⟩ := Nat.exists_eq_add_of_le h8
    rw [hn, pow_add] at h
    omega
  · rw [hn]
    exact Nat.pow_le_pow_right (by decide) (by omega : n ≤ 7)

/-- Where the line `r` of the lane `i` is fetched from. -/
theorem addr_descriptor (p : MmParams) (inB : Bool) (i r : ℕ) :
    (t.descriptor.loadConfig p 0).addr p inB i r =
      t.src inB + BitVec.ofNat 32 (16 * (i * (t.descriptor.loadConfig p 0).lines p + r)) :=
  LoadConfig.addr_of_stride_eq_zero rfl inB i r

/-- The bytes that the array reads as the lane `i`. -/
theorem rowByte_descriptor (p : MmParams) (m : Mem) (inB : Bool) (i k : ℕ) :
    rowByte (m.line ((t.descriptor.loadConfig p 0).addr p inB i (k / 16))) k =
      m (lineStart (t.src inB) + BitVec.ofNat 32
        (16 * (i * (t.descriptor.loadConfig p 0).lines p) + k)) := by
  rw [rowByte_line_lineStart, addr_descriptor, lineStart_add, BitVec.add_assoc, ← BitVec.ofNat_add]
  congr 3
  omega

/-- The same, from the line of the operand on. -/
theorem laneByte_eq (m : Mem) (inB : Bool) (i k : ℕ) :
    t.laneByte m inB i k =
      m (lineStart (t.src inB) + BitVec.ofNat 32 ((t.src inB).toNat % 16 + (i * t.kLen.toNat + k))) := by
  have hsplit : t.src inB = lineStart (t.src inB) + BitVec.ofNat 32 ((t.src inB).toNat % 16) := by
    apply BitVec.eq_of_toNat_eq
    rw [BitVec.toNat_add, toNat_lineStart, BitVec.toNat_ofNat]
    omega
  rw [laneByte, BitVec.ofNat_add (_ % 16), ← BitVec.add_assoc, ← hsplit]

section

variable {p : MmParams} {c : GemmCall}

/-- The accumulators hold the products of the lanes as the caller has laid them out. -/
def Multiplies (p : MmParams) (t : GemmTile) : Prop :=
  ∀ m : Mem, ∀ i < p.dim, ∀ j < p.dim,
    dotProduct (fun k => rowByte (m.line ((t.descriptor.loadConfig p 0).addr p false i (k / 16))) k)
        (fun k => rowByte (m.line ((t.descriptor.loadConfig p 0).addr p true j (k / 16))) k)
        t.kLen.toNat =
      dotProduct (fun k => t.laneByte m false i k) (fun k => t.laneByte m true j k) t.kLen.toNat

theorem lines_descriptor (hK₁ : 1 ≤ t.kLen.toNat) (hK : t.kLen.toNat ≤ p.maxK % 256) :
    (t.descriptor.loadConfig p 0).lines p = (t.kLen.toNat + 15) / 16 := by
  have hle := maxK_le p hK₁ hK
  have hk : t.descriptor.kLen = t.kLen.toNat := kLen_descriptor (by omega)
  exact (linesOf_eq (by rw [← hk] at hK₁; exact hK₁)
    (by rw [← hk] at hK; exact hK.trans (Nat.mod_le _ _))).trans
    (show (t.descriptor.kLen + 15) / 16 = _ by rw [hk])

/-- The bytes that two lanes meet tell whether they are where they should be. -/
theorem aligned_of_multiplies (hd : p.GoodDim) (hK₁ : 1 ≤ t.kLen.toNat)
    (hK : t.kLen.toNat ≤ p.maxK % 256)
    (h : t.Multiplies p) : t.kLen.toNat % 16 = 0 ∧ t.aSrc.toNat % 16 = 0 ∧ t.bSrc.toNat % 16 = 0 := by
  have hle := maxK_le p hK₁ hK
  have hL := lines_descriptor hK₁ hK
  have hmeet : ∀ i < p.dim, ∀ z,
      (∀ k < t.kLen.toNat,
        lineStart t.aSrc + BitVec.ofNat 32 (16 * (i * ((t.kLen.toNat + 15) / 16)) + k) ≠ z ∧
          lineStart t.bSrc + BitVec.ofNat 32 (16 * (i * ((t.kLen.toNat + 15) / 16)) + k) ≠ z) ↔
      ∀ k < t.kLen.toNat,
        lineStart t.aSrc + BitVec.ofNat 32 (t.aSrc.toNat % 16 + (i * t.kLen.toNat + k)) ≠ z ∧
          lineStart t.bSrc + BitVec.ofNat 32 (t.bSrc.toNat % 16 + (i * t.kLen.toNat + k)) ≠ z := by
    intro i hi z
    have hz := h (onesBut z) i hi i hi
    simp only [rowByte_descriptor, hL, laneByte_eq] at hz
    rw [← dotProduct_onesBut (by omega), ← dotProduct_onesBut (by omega)]
    exact Eq.congr_left hz
  -- the first lane begins where the line of the operand does
  have h₀ := hmeet 0 p.dim_pos
  simp only [Nat.zero_mul, Nat.mul_zero, Nat.zero_add] at h₀
  have ha := eq_zero_of_windows hK₁ (by omega) (Nat.mod_lt _ (by decide)) (Nat.mod_lt _ (by decide)) h₀
  have hb := eq_zero_of_windows hK₁ (by omega) (Nat.mod_lt _ (by decide))
      (Nat.mod_lt _ (by decide)) fun z =>
    (forall₂_congr fun _ _ => and_comm).trans ((h₀ z).trans (forall₂_congr fun _ _ => and_comm))
  -- the second one is a whole number of lines further on
  have h₁ := hmeet 1 hd.le.1
  obtain ⟨n, hn⟩ := Nat.exists_eq_add_of_le
    (show t.kLen.toNat ≤ 16 * ((t.kLen.toNat + 15) / 16) by omega)
  have hgap : n = 0 := eq_zero_of_windows (δ := n) (ε := n)
    (α := lineStart t.aSrc + BitVec.ofNat 32 t.kLen.toNat)
    (β := lineStart t.bSrc + BitVec.ofNat 32 t.kLen.toNat) hK₁
    (by omega) (by omega) (by omega) fun z => by
      have hz := (h₁ z).symm
      simp only [ha, hb, Nat.one_mul, Nat.zero_add, hn] at hz
      simp only [BitVec.add_assoc, ← BitVec.ofNat_add, ← Nat.add_assoc]
      exact hz
  exact ⟨by omega, ha, hb⟩

theorem multiplies_of_aligned (hK₁ : 1 ≤ t.kLen.toNat) (hK : t.kLen.toNat ≤ p.maxK % 256)
    (h16 : t.kLen.toNat % 16 = 0)
    (ha : t.aSrc.toNat % 16 = 0) (hb : t.bSrc.toNat % 16 = 0) : t.Multiplies p := by
  have hL := lines_descriptor hK₁ hK
  have hal : ∀ inB, (t.src inB).toNat % 16 = 0 := fun inB => by
    cases inB
    · exact ha
    · exact hb
  have hlane : ∀ i, 16 * (i * ((t.kLen.toNat + 15) / 16)) = i * t.kLen.toNat := fun i => by
    rw [Nat.mul_left_comm, show 16 * ((t.kLen.toNat + 15) / 16) = t.kLen.toNat by omega]
  intro m i _ j _
  simp only [rowByte_descriptor, hL, hlane, laneByte_eq, hal, Nat.zero_add]

theorem toNat_operandBytes (hd : p.GoodDim) (hdim : c.dim.toNat = p.dim) (hK₁ : 1 ≤ t.kLen.toNat)
    (hK : t.kLen.toNat ≤ p.maxK % 256) : (c.operandBytes t).toNat = p.dim * t.kLen.toNat := by
  have hle := maxK_le p hK₁ hK
  have hmul : p.dim * t.kLen.toNat ≤ 16 * 128 := Nat.mul_le_mul hd.le.2 (by omega)
  have hdle := hd.le
  rw [GemmCall.operandBytes, BitVec.toNat_mul, BitVec.toNat_setWidth, BitVec.toNat_setWidth, hdim,
    Nat.mod_eq_of_lt (show p.dim < 2 ^ 32 by omega),
    Nat.mod_eq_of_lt (show t.kLen.toNat < 2 ^ 32 by omega),
    Nat.mod_eq_of_lt (by omega)]

/-- Whole lines of a lane are within what is flushed. -/
theorem inRange_addr (hd : p.GoodDim) (hdim : c.dim.toNat = p.dim) (hK₁ : 1 ≤ t.kLen.toNat)
    (hK : t.kLen.toNat ≤ p.maxK % 256) (h16 : t.kLen.toNat % 16 = 0) {inB : Bool}
    (hwrap : NoWrap (t.src inB) (c.operandBytes t)) {i r : ℕ} (hi : i < p.dim)
    (hr : r < (t.descriptor.loadConfig p 0).lines p) :
    InRange (t.src inB) (c.operandBytes t) ((t.descriptor.loadConfig p 0).addr p inB i r) := by
  have hbytes := toNat_operandBytes (c := c) hd hdim hK₁ hK
  rw [NoWrap, hbytes] at hwrap
  rw [lines_descriptor hK₁ hK] at hr
  have hpos : 16 * (i * ((t.kLen.toNat + 15) / 16) + r) < p.dim * t.kLen.toNat := by
    have hrow := Nat.mul_le_mul_right t.kLen.toNat hi
    have hlane : 16 * (i * ((t.kLen.toNat + 15) / 16)) = i * t.kLen.toNat := by
      rw [Nat.mul_left_comm, show 16 * ((t.kLen.toNat + 15) / 16) = t.kLen.toNat by omega]
    rw [Nat.succ_mul] at hrow
    omega
  have haddr : ((t.descriptor.loadConfig p 0).addr p inB i r).toNat =
      (t.src inB).toNat + 16 * (i * ((t.kLen.toNat + 15) / 16) + r) := by
    rw [addr_descriptor, lines_descriptor hK₁ hK, BitVec.toNat_add, BitVec.toNat_ofNat]
    omega
  rw [InRange, haddr, hbytes]
  omega

end

end GemmTile

/-- Every run of the array over a tile multiplies the lanes as `gemm.h` has them, and every line
    that it has fetched is one of those that are flushed. -/
def GemmCall.Agrees (p : MmParams) (c : GemmCall) (t : GemmTile) : Prop :=
  ∀ m σ ι χ a e b, TileRun p m t.descriptor σ ι χ a e b →
    (t.bOnly → TileRun.Resident p m t.descriptor (σ (a + 1))) →
    (∀ i < p.dim, ∀ j < p.dim, (σ (doneAt p b t.kLen.toNat)).arr.acc i j =
      dotProduct (t.laneByte m false i) (t.laneByte m true j) t.kLen.toNat) ∧
    ∀ n, a < n → n < e → ∀ x, χ n = some x →
      ∃ y, InRange (t.src (σ n).ld.ldInB) (c.operandBytes t) y ∧ lineNo y = lineNo x.next

open GemmTile

variable {p : MmParams} {c : GemmCall} {t : GemmTile}

/-- The accumulators, from the memory. -/
theorem TileRun.acc_descriptor {m σ ι χ a e b}
    (h : TileRun p m t.descriptor σ ι χ a e b) (hd : p.GoodDim)
    (hK₁ : 1 ≤ t.kLen.toNat) (hK : t.kLen.toNat ≤ p.maxK % 256)
    (hpan : t.descriptor.panelUse p = t.descriptor.panelLoad p)
    (hres : t.bOnly → Resident p m t.descriptor (σ (a + 1))) {i j : ℕ} (hi : i < p.dim)
    (hj : j < p.dim) :
    (σ (doneAt p b t.kLen.toNat)).arr.acc i j =
      dotProduct (fun k => rowByte (m.line ((t.descriptor.loadConfig p 0).addr p false i (k / 16))) k)
        (fun k => rowByte (m.line ((t.descriptor.loadConfig p 0).addr p true j (k / 16))) k)
          t.kLen.toNat := by
  have hm := maxK_le p hK₁ hK
  have hk : t.descriptor.kLen = t.kLen.toNat := kLen_descriptor (by omega)
  rw [← bOnly_descriptor] at hres
  have := h.acc_eq_dotProduct hd hm (hk ▸ hK₁) (hk ▸ hK.trans (Nat.mod_le _ _)) hpan hres hi hj
  rwa [hk] at this

/-- The hardware, the driver and `gemm.h` agree about the operands of a tile exactly if a lane is a
    whole number of lines, and both operands begin with one. -/
theorem operands_iff (hd : p.GoodDim) (hdim : c.dim.toNat = p.dim) (hK₁ : 1 ≤ t.kLen.toNat)
    (hK : t.kLen.toNat ≤ p.maxK % 256) (hpan : t.descriptor.panelUse p = t.descriptor.panelLoad p)
    (hwrap : ∀ inB, NoWrap (t.src inB) (c.operandBytes t)) :
    c.Agrees p t ↔ t.kLen.toNat % 16 = 0 ∧ t.aSrc.toNat % 16 = 0 ∧ t.bSrc.toNat % 16 = 0 := by
  have hm := maxK_le p hK₁ hK
  constructor
  · intro hall
    refine aligned_of_multiplies hd hK₁ hK fun m i hi j hj => ?_
    obtain ⟨σ, ι, χ, a, e, b, hrun, hres⟩ := exists_tileRun hd hm m t.descriptor
    rw [← hrun.acc_descriptor hd hK₁ hK hpan (fun _ => hres) hi hj]
    exact (hall m σ ι χ a e b hrun fun _ => hres).1 i hi j hj
  · rintro ⟨h16, ha, hb⟩ m σ ι χ a e b hrun hres
    refine ⟨fun i hi j hj => ?_, fun n hn hne x hx => ?_⟩
    · rw [hrun.acc_descriptor hd hK₁ hK hpan hres hi hj]
      exact multiplies_of_aligned hK₁ hK h16 ha hb m i hi j hj
    · obtain ⟨i, hi, r, hr, haddr⟩ := hrun.fetched hd hm hn hne hx
      exact ⟨x.next, haddr ▸ inRange_addr hd hdim hK₁ hK h16 (hwrap _) hi hr, rfl⟩

/-- A tile of the depth `k`, over an array of dimension 4. -/
def packedTile (k : BitVec 16) : GemmTile := ⟨0x200, 0x300, 0x100, k, 0, 0, false, false⟩

theorem agrees_packedTile : (GemmCall.mk 4 [packedTile 16] 0 false 0).Agrees mmDim4 (packedTile 16) :=
  (operands_iff (.inr (.inl rfl)) rfl (by decide) (by decide) rfl (by decide)).2 ⟨rfl, rfl, rfl⟩

/-- At the depth 8 the second lanes are not found. -/
theorem disagrees_packedTile :
    ∃ m σ ι χ a e b, TileRun mmDim4 m (packedTile 8).descriptor σ ι χ a e b ∧
    (σ (doneAt mmDim4 b 8)).arr.acc 1 1 = 8 ∧
      dotProduct ((packedTile 8).laneByte m false 1) ((packedTile 8).laneByte m true 1) 8 = 7 := by
  obtain ⟨σ, ι, χ, a, e, b, hrun, hres⟩ :=
    exists_tileRun (p := mmDim4) (.inr (.inl rfl)) (by decide) (onesBut 0x208)
    (packedTile 8).descriptor
  refine ⟨_, σ, ι, χ, a, e, b, hrun, ?_, by decide +kernel⟩
  have hacc := hrun.acc_descriptor (.inr (.inl rfl)) (by decide) (by decide) rfl (fun _ =>
    hres) (show 1 < mmDim4.dim by decide)
    (show 1 < mmDim4.dim by decide)
  exact hacc.trans (by decide +kernel)

end Rv32Soc
