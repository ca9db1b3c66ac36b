import Rv32Soc.Accel.BatchRun

/-!
# The results of tiles

What tiles that are executed one after another leave in memory, by the memory before them. A tile
works with the A of the last tile so far that has loaded one, and with the B that was loaded
last into its panel (`Descriptor.Works`): `TileState.acc_run`. Results that do not fall on
each other are all there in the end: `TileState.lines_run`.
-/

namespace Rv32Soc

open MmAccel

/-- A line that none of the later ones falls on is in memory. -/
theorem line_writeLines {addr : ℕ → Word} {line : ℕ → Line} {m : Mem} {n k : ℕ} (hk : k < n)
    (hlast : ∀ j, k < j → j < n → lineNo (addr k) ≠ lineNo (addr j)) :
    (writeLines addr line m n).line (addr k) = line k := by
  refine line_ext fun o => ?_
  have hl : lineNo (lineNo (addr k) ++ o : Word) = lineNo (addr k) := BitVec.extractLsb'_append_eq_left
  have ho : offsetOf (lineNo (addr k) ++ o : Word) = o := BitVec.extractLsb'_append_eq_right
  rw [Mem.lineByte_line_append, writeLines_of_eq hk hl fun j h₁ h₂ he =>
    hlast j h₁ h₂ (hl.symm.trans he), ho]

/-- Lines that are in memory are in every memory with the same bytes there. -/
theorem LinesIn.of_eq {addr : ℕ → Word} {line : ℕ → Line} {N k : ℕ} {m₀ m m' : Mem}
    (h : LinesIn addr line N k m₀ m)
    (he : ∀ j < k, ∀ y, lineNo y = lineNo (addr j) → m' y = m y) : LinesIn addr line N k m' m' :=
  ⟨fun j hj => (Mem.line_congr (he j hj)).trans (h.lines j hj), fun _ _ => rfl⟩

/-! ## The operands of a tile -/

namespace Descriptor

variable (p : MmParams) (ds : List Descriptor)

/-- The A that the tile `j` has loaded is there for the tile `k`. -/
structure SharesA (j k : ℕ) : Prop where
  le : j ≤ k
  loads : ∀ a, ds[j]? = some a → a.bOnly = false
  keeps : ∀ i, j < i → i ≤ k → ∀ d, ds[i]? = some d → d.bOnly = true

/-- The B that the tile `j` has loaded is there for the tile `k`, in the panel `n`. -/
structure SharesB (n j k : ℕ) : Prop where
  le : j ≤ k
  loads : ∀ b, ds[j]? = some b → p.panel (b.panelLoad p) = p.panel n
  keeps : ∀ i, j < i → i ≤ k → ∀ d, ds[i]? = some d → p.panel (d.panelLoad p) ≠ p.panel n

/-- The tile `k` is the one of `d`, and works with the A of `a` and the B of `b`, which are deep
    enough. -/
structure Works (k : ℕ) (d a b : Descriptor) : Prop where
  tile : ds[k]? = some d
  loadsA : ∃ j, ds[j]? = some a ∧ SharesA ds j k
  loadsB : ∃ j, ds[j]? = some b ∧ SharesB p ds (d.panelUse p) j k
  deepA : d.kLen ≤ a.kLen ∧ a.kLen ≤ p.maxK
  deepB : d.kLen ≤ b.kLen ∧ b.kLen ≤ p.maxK

end Descriptor

namespace TileState

variable {p : MmParams} {stride : Word} {c : StoreConfig} {ds : List Descriptor}
  {d : Descriptor} {j k : ℕ}

/-- The lines that a tile loads are those of the memory before the batch. -/
theorem line_run (hap : Descriptor.Apart p stride c ds) (hd : d ∈ ds) {inB : Bool}
    (hb : inB = true ∨ d.bOnly = false)
    {i r : ℕ} (hi : i < p.dim) (hr : r < (d.loadConfig p stride).lines p) (x : TileState) (k : ℕ) :
    (x.run p stride c (ds.take k)).mem.line ((d.loadConfig p stride).addr p inB i r) =
      x.mem.line ((d.loadConfig p stride).addr p inB i r) :=
  Mem.line_congr fun _ hy => mem_run hap (List.take_subset _ _) hd ⟨inB, i, r, hb, hi, hr, hy⟩ x

/-- The rows of A that a tile works with. -/
theorem aMem_run (hap : Descriptor.Apart p stride c ds) {a : Descriptor} (ha : ds[j]? = some a)
    (hd : ds[k]? = some d) (hs : Descriptor.SharesA ds j k) (x : TileState) {i r : ℕ} (hi : i < p.dim)
    (hr : r < (a.loadConfig p stride).lines p) :
    ((x.run p stride c (ds.take k)).load p stride d).aMem i r =
      x.mem.line ((a.loadConfig p stride).addr p false i r) := by
  obtain ⟨hjk, hloads, hkeeps⟩ := hs
  induction k, hjk using Nat.le_induction generalizing d with
  | base =>
    obtain rfl : a = d := Option.some_inj.1 (ha.symm.trans hd)
    have hbo := hloads a ha
    rw [load]
    dsimp only
    rw [if_pos ⟨hbo, hi, hr⟩]
    exact line_run hap (List.mem_of_getElem? ha) (.inr hbo) hi hr x j
  | succ k hjk ih =>
    -- the tile loads B only, and finds what the one before has left
    have hbo := hkeeps (k + 1) (Nat.lt_succ_of_le hjk) le_rfl d hd
    obtain ⟨d', hd'⟩ : ∃ d', ds[k]? = some d' := by
      have hlt := (List.getElem?_eq_some_iff.1 hd).1
      exact ⟨_, List.getElem?_eq_getElem (Nat.lt_of_succ_lt hlt)⟩
    rw [load, run_take_succ hd']
    dsimp only
    rw [if_neg fun h => absurd (h.1.symm.trans hbo) (by simp)]
    exact ih hd' fun i h₁ h₂ => hkeeps i h₁ (Nat.le_succ_of_le h₂)

/-- The rows of B that a tile works with. -/
theorem bMem_run (hap : Descriptor.Apart p stride c ds) {b : Descriptor} (hb : ds[j]? = some b)
    (hd : ds[k]? = some d) {n : ℕ} (hs : Descriptor.SharesB p ds n j k) (x : TileState)
    {i r : ℕ} (hi : i < p.dim) (hr : r < (b.loadConfig p stride).lines p) :
    ((x.run p stride c (ds.take k)).load p stride d).bMem i (p.bAddr n r) =
      x.mem.line ((b.loadConfig p stride).addr p true i r) := by
  obtain ⟨hjk, hloads, hkeeps⟩ := hs
  induction k, hjk using Nat.le_induction generalizing d with
  | base =>
    obtain rfl : b = d := Option.some_inj.1 (hb.symm.trans hd)
    have hrow : p.bAddr n r = p.bAddr (b.panelLoad p) 0 + r := by
      rw [p.bAddr_eq, p.bAddr_eq, hloads b hb, Nat.add_zero]
    rw [load]
    dsimp only
    rw [hrow, if_pos ⟨hi, Nat.le_add_right _ _, by omega⟩, Nat.add_sub_cancel_left]
    exact line_run hap (List.mem_of_getElem? hb) (.inl rfl) hi hr x j
  | succ k hjk ih =>
    -- the tile loads another panel
    have hpanel := hkeeps (k + 1) (Nat.lt_succ_of_le hjk) le_rfl d hd
    obtain ⟨d', hd'⟩ : ∃ d', ds[k]? = some d' := by
      have hlt := (List.getElem?_eq_some_iff.1 hd).1
      exact ⟨_, List.getElem?_eq_getElem (Nat.lt_of_succ_lt hlt)⟩
    rw [load, run_take_succ hd']
    dsimp only
    rw [if_neg]
    · exact ih hd' fun i h₁ h₂ => hkeeps i h₁ (Nat.le_succ_of_le h₂)
    · rintro ⟨-, hle, hlt⟩
      have hr' := hr.trans_le (linesOf_le p _).2
      have hlt' := hlt.trans_le (linesOf_le p _).2
      refine MmParams.bAddr_ne hpanel hlt' hr' ?_
      have hrow := p.bAddr_eq (d.panelLoad p) (p.bAddr n r - p.bAddr (d.panelLoad p) 0)
      have hbase := p.bAddr_eq (d.panelLoad p) 0
      omega

/-- The accumulators of a tile are the products of its operands, as they are in memory before the
    batch. -/
theorem acc_run (hap : Descriptor.Apart p stride c ds) {a b : Descriptor}
    (h : Descriptor.Works p ds k d a b) (x : TileState) {i l : ℕ} (hi : i < p.dim) (hl : l < p.dim) :
    ((x.run p stride c (ds.take k)).load p stride d).acc p d i l =
      dotProduct (fun n => rowByte (x.mem.line ((a.loadConfig p stride).addr p false i (n / 16))) n)
        (fun n => rowByte (x.mem.line ((b.loadConfig p stride).addr p true l (n / 16))) n) d.kLen := by
  obtain ⟨j, ha, hA⟩ := h.loadsA
  obtain ⟨j', hb, hB⟩ := h.loadsB
  rw [acc]
  refine dotProduct_congr fun n hn => ⟨?_, ?_⟩
  · rw [aMem_run hap ha h.tile hA x hi (lt_linesOf p (hn.trans_le h.deepA.1) h.deepA.2)]
  · rw [bMem_run hap hb h.tile hB x hl (lt_linesOf p (hn.trans_le h.deepB.1) h.deepB.2)]

/-! ## The results -/

theorem run_append (l l' : List Descriptor) (x : TileState) :
    x.run p stride c (l ++ l') = (x.run p stride c l).run p stride c l' := List.foldl_append

theorem mem_run_of_ne {l : List Descriptor} {y : Word} (h : ∀ d ∈ l, ¬d.Result p c y) (x : TileState) :
    (x.run p stride c l).mem y = x.mem y := by
  induction l generalizing x with
  | nil => rfl
  | cons d l ih =>
    obtain ⟨hd, hl⟩ := List.forall_mem_cons.1 h
    exact (ih hl (x.tile p stride c d)).trans (mem_tile hd)

variable (stride) in
/-- The lines of a tile are in memory in the end, if no later tile falls on them. -/
theorem lines_run (hd : ds[k]? = some d) (htile : StoreConfig.Tile p c d.dest)
    (hrows : c.int8Mode = false → c.RowsApart p)
    (hkeep : ds.Pairwise fun d d' => ∀ y, d.Result p c y → ¬d'.Result p c y) (x : TileState) :
    LinesIn (c.addr p d.dest)
      (resultLine p c.int8Mode c.outShift (((x.run p stride c (ds.take k)).load p stride d).acc p d))
      c.nGroupsEff c.nGroupsEff (x.run p stride c ds).mem (x.run p stride c ds).mem := by
  have hlater : ∀ d' ∈ ds.drop (k + 1), ∀ y, d.Result p c y → ¬d'.Result p c y := by
    have hdrop : ds.drop k = d :: ds.drop (k + 1) := List.drop_eq_getElem?_toList_append ▸ by
      rw [hd]; rfl
    have := hkeep.sublist (List.drop_sublist k ds)
    rw [hdrop] at this
    exact (List.pairwise_cons.1 this).1
  have hsplit : x.run p stride c ds =
      ((x.run p stride c (ds.take k)).tile p stride c d).run p stride c (ds.drop (k + 1)) := by
    rw [← run_take_succ hd, ← run_append, List.take_append_drop]
  refine ⟨fun n hn => ?_, fun _ _ => rfl⟩
  rw [hsplit, Mem.line_congr fun y hy => mem_run_of_ne (fun d' hd' => hlater d' hd' y ⟨n, hn,
    hy⟩) _, tile, store]
  refine line_writeLines hn fun j h₁ h₂ he => ?_
  have := htile.apart hrows hn h₂ he
  omega

end TileState

end Rv32Soc
