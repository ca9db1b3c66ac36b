import Rv32Soc.Accel.Store

/-!
# Tiles, one after another

What a batch of descriptors is for, whatever overlaps in the accelerator. A tile is loaded,
computed and stored, and only then the next one begins.

* `writeLines`: lines that are written in order; where two of them meet, the later one counts;
* `TileState`: the operand buffers and memory, and what a tile does to them;
* `Descriptor.Operand`, `Descriptor.Result`: the addresses that a tile reads and writes. Where no
  result falls on an operand, the operands are those of the memory before the batch
  (`TileState.mem_run`).
-/

namespace Rv32Soc

/-! ## Lines in order -/

/-- The memory `m` with the first `n` lines written. -/
def writeLines (addr : ℕ → Word) (line : ℕ → Line) (m : Mem) : ℕ → Mem
  | 0 => m
  | n + 1 => (writeLines addr line m n).setLine (addr n) (line n)

section

variable {addr : ℕ → Word} {line : ℕ → Line} {m : Mem}

theorem writeLines_of_ne {n : ℕ} {y : Word} (h : ∀ k < n, lineNo y ≠ lineNo (addr k)) :
    writeLines addr line m n y = m y := by
  induction n with
  | zero => rfl
  | succ n ih =>
    rw [writeLines, Mem.setLine, if_neg (h n n.lt_succ_self)]
    exact ih fun k hk => h k (hk.trans n.lt_succ_self)

/-- The last line that falls on an address is the one that is there. -/
theorem writeLines_of_eq {n k : ℕ} {y : Word} (hk : k < n) (h : lineNo y = lineNo (addr k))
    (hlast : ∀ j, k < j → j < n → lineNo y ≠ lineNo (addr j)) :
    writeLines addr line m n y = lineByte (line k) (offsetOf y) := by
  induction n with
  | zero => exact absurd hk (Nat.not_lt_zero _)
  | succ n ih =>
    rw [writeLines, Mem.setLine]
    rcases (Nat.le_of_lt_succ hk).eq_or_lt with rfl | hlt
    · rw [if_pos h]
    · rw [if_neg (hlast n hlt n.lt_succ_self)]
      exact ih hlt fun j h₁ h₂ => hlast j h₁ (h₂.trans n.lt_succ_self)

/-- A memory that holds some more lines, and is otherwise as it was. -/
theorem eq_writeLines_add {n B : ℕ} {m' : Mem}
    (hinj : ∀ k < B, ∀ k' < B, lineNo (addr (n + k)) = lineNo (addr (n + k')) → k = k')
    (hline : ∀ k < B, m'.line (addr (n + k)) = line (n + k))
    (hframe : ∀ y, (∀ k < B, lineNo y ≠ lineNo (addr (n + k))) → m' y = writeLines addr line m n y) :
    m' = writeLines addr line m (n + B) := by
  have hadd : ∀ y, (∀ k < B, lineNo y ≠ lineNo (addr (n + k))) →
      writeLines addr line m (n + B) y = writeLines addr line m n y := by
    intro y hy
    clear hinj hline hframe
    induction B with
    | zero => rfl
    | succ B ih =>
      rw [← Nat.add_assoc, writeLines, Mem.setLine, if_neg (hy B B.lt_succ_self)]
      exact ih fun k hk => hy k (hk.trans B.lt_succ_self)
  funext y
  by_cases hy : ∃ k < B, lineNo y = lineNo (addr (n + k))
  · obtain ⟨k, hk, he⟩ := hy
    rw [← Mem.lineByte_line m' he, hline k hk, writeLines_of_eq (by omega) he fun j h₁ h₂ he' => ?_]
    obtain ⟨l, rfl⟩ := Nat.exists_eq_add_of_le (show n ≤ j by omega)
    have := hinj k hk l (by omega) (he.symm.trans he')
    omega
  · have hy' : ∀ k < B, lineNo y ≠ lineNo (addr (n + k)) := fun k hk he => hy ⟨k, hk, he⟩
    rw [hadd y hy', hframe y hy']

end

/-! ## Tiles -/

open MmAccel

/-- What a descriptor makes of the configuration of a load. -/
def Descriptor.loadConfig (p : MmParams) (stride : Word) (d : Descriptor) : LoadConfig :=
  ⟨d.aSrc, d.bSrc, stride, d.kLen, d.panelLoad p⟩

/-- The operand buffers and the memory. -/
structure TileState where
  aMem : ℕ → ℕ → Line
  bMem : ℕ → ℕ → Line
  mem : Mem

namespace TileState

variable (p : MmParams) (stride : Word) (c : StoreConfig) (d : Descriptor) (x : TileState)

/-- The rows of A, unless only B is loaded, and of a panel of B come from memory. -/
def load : TileState where
  aMem i r :=
    if d.bOnly = false ∧ i < p.dim ∧ r < (d.loadConfig p stride).lines p then
      x.mem.line ((d.loadConfig p stride).addr p false i r)
    else x.aMem i r
  bMem i r :=
    if i < p.dim ∧ p.bAddr (d.panelLoad p) 0 ≤ r ∧
        r - p.bAddr (d.panelLoad p) 0 < (d.loadConfig p stride).lines p then
      x.mem.line ((d.loadConfig p stride).addr p true i (r - p.bAddr (d.panelLoad p) 0))
    else x.bMem i r
  mem := x.mem

/-- The products of the rows of A and the columns of a panel of B. -/
def acc (i j : ℕ) : Word :=
  dotProduct (fun k => rowByte (x.aMem i (k / 16)) k)
    (fun k => rowByte (x.bMem j (p.bAddr (d.panelUse p) (k / 16))) k) d.kLen

/-- The lines of a tile go to memory. -/
def store (acc : ℕ → ℕ → Word) : TileState :=
  { x with
    mem := writeLines (c.addr p d.dest) (resultLine p c.int8Mode c.outShift acc) x.mem c.nGroupsEff }

/-- A tile is loaded, computed and stored. -/
def tile : TileState := (x.load p stride d).store p c d ((x.load p stride d).acc p d)

/-- The tiles of a batch, one after another. -/
def run (ds : List Descriptor) : TileState := ds.foldl (fun x d => x.tile p stride c d) x

end TileState

/-! ## Operands and results -/

namespace Descriptor

variable (p : MmParams) (stride : Word) (c : StoreConfig) (d : Descriptor)

/-- An address in the rows that a tile loads. -/
def Operand (y : Word) : Prop :=
  ∃ inB i r, (inB = true ∨ d.bOnly = false) ∧ i < p.dim ∧ r < (d.loadConfig p stride).lines p ∧
    lineNo y = lineNo ((d.loadConfig p stride).addr p inB i r)

/-- An address in the tile that is stored. -/
def Result (y : Word) : Prop := ∃ k < c.nGroupsEff, lineNo y = lineNo (c.addr p d.dest k)

/-- The addresses of a tile that is stored are those of its bytes. -/
theorem result_iff {p : MmParams} {c : StoreConfig} {d : Descriptor}
    (h : StoreConfig.Tile p c d.dest) {y : Word} :
    d.Result p c y ↔ ∃ t < 16 * c.nGroupsEff, y = d.dest + c.place p t := by
  constructor
  · rintro ⟨k, hk, he⟩
    obtain ⟨o, ho, rfl⟩ := exists_eq_add_of_lineNo_eq (h.aligned k hk) he
    have ht : 16 * k + o < 16 * c.nGroupsEff := by omega
    have hplace := h.place ht
    rw [show (16 * k + o) / 16 = k by omega, show (16 * k + o) % 16 = o by omega] at hplace
    exact ⟨16 * k + o, ht, hplace⟩
  · rintro ⟨t, ht, rfl⟩
    have hk := StoreConfig.Tile.lt ht
    refine ⟨t / 16, hk, ?_⟩
    rw [← h.place ht]
    exact (lineNo_add_ofNat (h.aligned _ hk) (Nat.mod_lt _ (by decide))).1

/-- No result of a batch falls on an operand of it. -/
def Apart (ds : List Descriptor) : Prop :=
  ∀ d ∈ ds, ∀ d' ∈ ds, ∀ y, d.Result p c y → ¬d'.Operand p stride y

/-- Results and operands that lie on different lines are apart. -/
theorem apart_of_lineNo {p : MmParams} {stride : Word} {c : StoreConfig} {ds : List Descriptor}
    (h : ∀ d ∈ ds, ∀ d' ∈ ds, ∀ k < c.nGroupsEff, ∀ inB, ∀ i < p.dim,
      ∀ r < (d'.loadConfig p stride).lines p,
      lineNo (c.addr p d.dest k) ≠ lineNo ((d'.loadConfig p stride).addr p inB i r)) :
    Apart p stride c ds := by
  rintro d hd d' hd' y ⟨k, hk, hy⟩ ⟨inB, i, r, -, hi, hr, hy'⟩
  exact h d hd d' hd' k hk inB i hi r hr (hy.symm.trans hy')

end Descriptor

namespace TileState

variable {p : MmParams} {stride : Word} {c : StoreConfig} {ds : List Descriptor}

theorem mem_tile {d : Descriptor} {x : TileState} {y : Word} (h : ¬d.Result p c y) :
    (x.tile p stride c d).mem y = x.mem y :=
  writeLines_of_ne fun k hk he => h ⟨k, hk, he⟩

/-- The operands of a batch are not written by it. -/
theorem mem_run (h : Descriptor.Apart p stride c ds) {l : List Descriptor} (hl : l ⊆ ds)
    {d : Descriptor} (hd : d ∈ ds)
    {y : Word} (hy : d.Operand p stride y) (x : TileState) : (x.run p stride c l).mem y = x.mem y := by
  induction l generalizing x with
  | nil => rfl
  | cons d' l ih =>
    rw [List.cons_subset] at hl
    exact (ih hl.2 (x.tile p stride c d')).trans (mem_tile fun hr => h d' hl.1 d hd y hr hy)

theorem run_take_succ {j : ℕ} {d : Descriptor} (hd : ds[j]? = some d) (x : TileState) :
    x.run p stride c (ds.take (j + 1)) = (x.run p stride c (ds.take j)).tile p stride c d := by
  rw [run, List.take_add_one, hd, Option.toList_some, List.foldl_append]
  rfl

/-- All the lines of a load are through. -/
theorem loadRows_load (x : TileState) (d : Descriptor) :
    loadRows p.dim ((d.loadConfig p stride).lines p) 0 (fun i r =>
      x.mem.line ((d.loadConfig p stride).addr p false i r))
        x.aMem (if d.bOnly then 0 else p.dim * (d.loadConfig p stride).lines p) =
          (x.load p stride d).aMem ∧
      loadRows p.dim ((d.loadConfig p stride).lines p) (p.bAddr (d.panelLoad p) 0)
        (fun i r => x.mem.line ((d.loadConfig p stride).addr p true i r)) x.bMem
        (p.dim * (d.loadConfig p stride).lines p) = (x.load p stride d).bMem := by
  refine ⟨funext fun i => funext fun r => ?_, funext fun i => funext fun r => ?_⟩
  · rw [loadRows, load]
    refine if_congr ?_ rfl rfl
    cases d.bOnly
    · simp only [Nat.zero_le, Nat.sub_zero, true_and, if_neg Bool.false_ne_true]
      exact ⟨fun h => ⟨h.1, h.2.1⟩, fun h => ⟨h.1, h.2, laneLine_lt h.1 h.2⟩⟩
    · simp
  · rw [loadRows, load]
    refine if_congr ?_ rfl rfl
    exact ⟨fun h => ⟨h.1, h.2.1, h.2.2.1⟩, fun h => ⟨h.1, h.2.1, h.2.2, laneLine_lt h.1 h.2.2⟩⟩

end TileState

end Rv32Soc
