import Rv32Soc.Accel.Load

/-!
# What a store leaves in memory

The store engine sends the lines of a tile through a FIFO that is filled one line a cycle from
the accumulators. The write channel takes the line at the head of the FIFO for its own, asks
for the next one of a transaction with `memWnext`, and ends the transaction with
`memWrReady`; either takes the line off the FIFO.

* `WriteTransfer`, `wrNext`, `WriteServes`: the write channel as the accelerator sees it.
  When it looks at the line it is presented, and when memory changes, is left open;
* `StoreConfig.addr`, `resultLine`: where a line goes, and what it holds;
* `Storing`: the engine, the FIFO and the transaction in the middle of a store. The fill
  never stops before the tile is through (`Storing.fillFire_eq`), so that there is always a line
  for the channel (`Storing.has_line`);
* `store_of_run`: when `dmaDone` rises the tile is in its place, and nothing else changed.
-/

namespace Rv32Soc

/-! ## The write channel -/

/-- A transaction that is being served: how many lines have been asked for after the first, and
    the lines that the channel has taken. -/
structure WriteTransfer where
  addr : Word
  lines : ℕ
  pos : ℕ
  got : List Line
  deriving DecidableEq

/-- The address of the line `k` of a transaction. -/
def WriteTransfer.at (t : WriteTransfer) (k : ℕ) : Word := t.addr + BitVec.ofNat 32 (16 * k)

namespace MmAccel

variable (p : MmParams) (s : MmAccel) (i : MmInputs)

/-- The lines that the channel has taken: if it looks now, the one it is presented. -/
def takeLine (look : Bool) (t : WriteTransfer) : List Line :=
  if look && t.got.length == t.pos then t.got ++ [s.memWline] else t.got

/-- The request to write, as the arbiter copies it: no lines stand for one. -/
def wrTransfer (look : Bool) : WriteTransfer :=
  ⟨s.memWrReqAddr, (if s.memWrReqLines p = 0 then 1 else s.memWrReqLines p).toNat, 0,
    if look then [s.memWline] else []⟩

/-- The write channel after an edge. -/
def wrNext (grant look : Bool) (x : Option WriteTransfer) : Option WriteTransfer :=
  match x with
  | none => if grant && s.memWrReqValid then some (s.wrTransfer p look) else none
  | some t =>
    if i.memWrReady then none
    else some { t with pos := t.pos + i.memWnext.toNat, got := s.takeLine look t }

/-- The write channel on a cycle, with the memory before and after it. The next line is asked for
    when the one before has been taken, and the transaction ends with all its lines
    in memory; only the lines it covers may change. -/
structure WriteServes (look : Bool) (x : Option WriteTransfer) (m m' : Mem) : Prop where
  wnext : i.memWnext → i.memWrReady = false ∧
    ∃ t, x = some t ∧ t.pos + 1 < t.lines ∧ (s.takeLine look t).length = t.pos + 1
  ready : i.memWrReady → ∃ t, x = some t ∧ t.pos + 1 = t.lines ∧
    (s.takeLine look t).length = t.lines ∧
    ∀ k < t.lines, m'.line (t.at k) = (s.takeLine look t).getD k 0
  idle : x = none → m' = m
  frame : ∀ t, x = some t → ∀ y, (∀ k < t.lines, lineNo y ≠ lineNo (t.at k)) → m' y = m y

end MmAccel

/-- The write channel `χ` serves the accelerator, and `μ` is the memory. -/
def WriteService (p : MmParams) (σ : ℕ → MmAccel) (ι : ℕ → MmInputs)
    (χ : ℕ → Option WriteTransfer) (μ : ℕ → Mem) : Prop :=
  ∀ n, ∃ grant look, χ (n + 1) = (σ n).wrNext p (ι n) grant look (χ n) ∧
    (σ n).WriteServes (ι n) look (χ n) (μ n) (μ (n + 1))

/-! ## The lines of a tile -/

namespace MmParams

variable {p : MmParams}

/-- What the dimensions come to: the lines of a tile of words, those of a row, the rows of a line of
    bytes and the lines of a tile of bytes. -/
theorem GoodDim.cases (h : p.GoodDim) :
    (p.dim = 2 ∧ p.nGroups = 1 ∧ p.perRow = 0 ∧ p.int8Capable = false ∧ p.grpBits = 1) ∨
      (p.dim = 4 ∧ p.nGroups = 4 ∧ p.perRow = 1 ∧ p.int8Capable = true ∧ p.grpBits = 2 ∧
        p.rowsPerLine = 4 ∧ p.nGroups8 = 1 ∧ p.grp8Bits = 1) ∨
      (p.dim = 8 ∧ p.nGroups = 16 ∧ p.perRow = 2 ∧ p.int8Capable = true ∧ p.grpBits = 4 ∧
        p.rowsPerLine = 2 ∧ p.nGroups8 = 4 ∧ p.grp8Bits = 2) ∨
      (p.dim = 16 ∧ p.nGroups = 64 ∧ p.perRow = 4 ∧ p.int8Capable = true ∧ p.grpBits = 6 ∧
        p.rowsPerLine = 1 ∧ p.nGroups8 = 16 ∧ p.grp8Bits = 4) := by
  rcases h with h | h | h | h
  · have hg : p.nGroups = 1 := by simp [nGroups, h]
    exact .inl ⟨h, hg, by simp [perRow, h, hg], by simp [int8Capable, h], by rw [grpBits, hg]; decide⟩
  · have hg : p.nGroups = 4 := by simp [nGroups, h]
    have hi : p.int8Capable = true := by simp [int8Capable, h]
    have hg₈ : p.nGroups8 = 1 := by simp [nGroups8, hi, h]
    exact .inr (.inl ⟨h, hg, by simp [perRow, h, hg], hi, by rw [grpBits, hg]; decide,
      by simp [rowsPerLine, hi, h], hg₈, by rw [grp8Bits, hg₈]; decide⟩)
  · have hg : p.nGroups = 16 := by simp [nGroups, h]
    have hi : p.int8Capable = true := by simp [int8Capable, h]
    have hg₈ : p.nGroups8 = 4 := by simp [nGroups8, hi, h]
    exact .inr (.inr (.inl ⟨h, hg, by simp [perRow, h, hg], hi, by rw [grpBits, hg]; decide,
      by simp [rowsPerLine, hi, h], hg₈, by rw [grp8Bits, hg₈]; decide⟩))
  · have hg : p.nGroups = 64 := by simp [nGroups, h]
    have hi : p.int8Capable = true := by simp [int8Capable, h]
    have hg₈ : p.nGroups8 = 16 := by simp [nGroups8, hi, h]
    exact .inr (.inr (.inr ⟨h, hg, by simp [perRow, h, hg], hi, by rw [grpBits, hg]; decide,
      by simp [rowsPerLine, hi, h], hg₈, by rw [grp8Bits, hg₈]; decide⟩))

end MmParams

namespace MmAccel

variable (p : MmParams)

/-- The line `k` of a tile. -/
def resultLine (int8 : Bool) (outShift : ℕ) (acc : ℕ → ℕ → Word) (k : ℕ) : Line :=
  if int8 then
    lineOfBytes fun b => requant outShift (acc (k * p.rowsPerLine + b / p.dim) (b % p.dim))
  else if p.nGroups = 1 then lineOfWords fun w => acc (w.toNat / p.dim) (w.toNat % p.dim)
  else lineOfWords fun w => acc (k / p.perRow) (4 * (k % p.perRow) + w.toNat)

namespace StoreConfig

variable (c : StoreConfig)

/-- The tile is written without gaps. -/
def contig : Bool :=
  (c.destStride == 0 || c.destStride == BitVec.ofNat 32 (4 * p.dim)) || c.int8Mode

/-- The distance of the rows. -/
def stride : Word := if c.destStride = 0 then BitVec.ofNat 32 (4 * p.dim) else c.destStride

/-- Where the line `k` of a tile goes. -/
def addr (dest : Word) (k : ℕ) : Word :=
  if c.contig p then dest + BitVec.ofNat 32 (16 * k)
  else dest + BitVec.ofNat 32 (k / p.perRow) * c.stride p + BitVec.ofNat 32 (16 * (k % p.perRow))

end StoreConfig

/-- What the numbers of a store satisfy. -/
structure StoreConfig.Fits (p : MmParams) (c : StoreConfig) : Prop where
  pos : 1 ≤ c.nGroupsEff
  le : c.nGroupsEff ≤ 64
  fifo : c.nGroupsEff ≤ p.fifoLines
  grp : c.nGroupsEff ≤ 2 ^ p.grpBits
  burst : 1 ≤ c.wBurstLines
  dvd : c.wBurstLines ∣ c.nGroupsEff
  rows : c.contig p = false → c.nGroupsEff = 1 ∨
    1 ≤ p.perRow ∧ 2 ^ log2Ceil p.perRow = p.perRow ∧ strideOK p = true ∧
      (c.wBurstLines = 1 ∨ c.wBurstLines = p.perRow)

theorem fits_storeConfig {p : MmParams} (s : MmAccel) (hd : p.GoodDim) : (s.storeConfig p).Fits p := by
  have hf : p.nGroups ≤ p.fifoLines := le_max_right _ _
  have hcontig : (s.storeConfig p).contig p = (s.destContig p || s.int8Mode p) := rfl
  have hN : (s.storeConfig p).nGroupsEff = if s.int8Mode p then p.nGroups8 else p.nGroups := rfl
  have hB : (s.storeConfig p).wBurstLines = if p.enableWriteBursts then
      if s.int8Mode p then p.nGroups8
      else if s.destContig p then p.nGroups
      else if strideOK p then p.perRow else p.nGroups
    else 1 := rfl
  have hok : strideOK p = decide (p.dim ≤ p.nGroups) := rfl
  have h8 : s.int8Mode p = true → p.int8Capable = true := fun h => (Bool.and_eq_true_iff.1 h).1
  have hmode : s.int8Mode p = false ∨ s.int8Mode p = true ∧ p.int8Capable = true := by
    cases h : s.int8Mode p
    · exact .inl rfl
    · exact .inr ⟨rfl, h8 h⟩
  rcases hd.cases with ⟨h₁, h₂, h₃, h₄, h₅⟩ | ⟨h₁, h₂, h₃, -, h₅, -, h₇, -⟩ |
    ⟨h₁, h₂, h₃, -, h₅, -, h₇, -⟩ |
      ⟨h₁, h₂, h₃, -, h₅, -, h₇, -⟩
  · -- dimension 2: the tile is a single line, and is stored as words
    have hm : s.int8Mode p = false := hmode.resolve_right fun h => by simp [h₄] at h
    have hs : strideOK p = false := by simp [hok, h₁, h₂]
    rw [hm, h₂, if_neg Bool.false_ne_true] at hN
    have hB₁ : (s.storeConfig p).wBurstLines = 1 := by
      rw [hB, hm, hs, h₂]
      cases p.enableWriteBursts <;> cases s.destContig p <;> rfl
    refine ⟨hN.ge, by rw [hN]; decide, by rw [hN, ← h₂]; exact hf, by rw [hN, h₅]; decide, hB₁.ge,
      ?_, fun _ => .inl hN⟩
    rw [hN, hB₁]
  -- otherwise the lines of a transaction divide those of the tile, which is checked by cases
  all_goals
    have hs : strideOK p = true := by simp [hok, h₁, h₂]
    rw [h₂, h₇] at hN
    rw [h₂, h₃, h₇, hs] at hB
    rw [h₂] at hf
    have hNB : (s.storeConfig p).nGroupsEff ≤ p.nGroups ∧ 1 ≤ (s.storeConfig p).nGroupsEff ∧
        1 ≤ (s.storeConfig p).wBurstLines ∧
        (s.storeConfig p).wBurstLines ∣ (s.storeConfig p).nGroupsEff := by
      rw [hN, hB, h₂]
      cases s.int8Mode p <;> cases p.enableWriteBursts <;> cases s.destContig p <;> decide
    rw [h₂] at hNB
    refine ⟨hNB.2.1, hNB.1.trans (by decide), hNB.1.trans hf,
      hNB.1.trans (by rw [h₅]; decide), hNB.2.2.1,
      hNB.2.2.2, fun hc => .inr ⟨by omega, by rw [h₃]; decide, hs, ?_⟩⟩
    rw [hcontig, Bool.or_eq_false_iff] at hc
    rw [hB, hc.1, hc.2, h₃]
    cases p.enableWriteBursts <;> simp

namespace StoreConfig.Fits

variable {p : MmParams} {c : StoreConfig} {dest : Word} {d : ℕ}

/-- There is room for one more transaction. -/
theorem add_le (h : c.Fits p) (hd : c.wBurstLines ∣ d) (hlt : d < c.nGroupsEff) :
    d + c.wBurstLines ≤ c.nGroupsEff := by
  obtain ⟨a, ha⟩ := hd
  obtain ⟨b, hb⟩ := h.dvd
  rw [ha, hb] at hlt
  have hab : a < b := lt_of_mul_lt_mul_left hlt (Nat.zero_le _)
  rw [ha, hb, ← Nat.mul_succ]
  exact Nat.mul_le_mul_left _ hab

/-- The lines of a transaction follow each other. -/
theorem addr_add (h : c.Fits p) (hd : c.wBurstLines ∣ d) {k : ℕ} (hk : k < c.wBurstLines) :
    c.addr p dest d + BitVec.ofNat 32 (16 * k) = c.addr p dest (d + k) := by
  unfold StoreConfig.addr
  cases hc : c.contig p
  · have hone : c.wBurstLines = 1 ∨ 1 ≤ p.perRow ∧ c.wBurstLines = p.perRow := by
      rcases h.rows hc with hN | ⟨hp, -, -, hB | hB⟩
      · exact .inl (Nat.dvd_one.1 (hN ▸ h.dvd))
      · exact .inl hB
      · exact .inr ⟨hp, hB⟩
    rw [if_neg Bool.false_ne_true, if_neg Bool.false_ne_true]
    rcases hone with hB | ⟨hp, hB⟩
    · rw [show k = 0 by omega]
      simp
    · obtain ⟨q, rfl⟩ := hd
      rw [hB] at hk ⊢
      rw [Nat.mul_div_cancel_left _ hp, Nat.mul_mod_right, Nat.mul_add_div hp, Nat.div_eq_of_lt hk,
        Nat.mul_add_mod, Nat.mod_eq_of_lt hk]
      simp
  · rw [if_pos rfl, if_pos rfl, BitVec.add_assoc, ← BitVec.ofNat_add, Nat.mul_add]

end StoreConfig.Fits

/-! ## The engine -/

/-- The lines that have left the FIFO. -/
def popped (s : MmAccel) (x : Option WriteTransfer) :
    ℕ := s.st.dmaSent + (x.map WriteTransfer.pos).getD 0

/-- The lines that have entered the FIFO, of `f` that are on their way. -/
def entered (s : MmAccel) (f : ℕ) : ℕ := f - s.st.fillValid.toNat

/-- The engine in the middle of a store, with the transaction `x`: `f` lines have been taken from the
    accumulators. -/
structure Storing (p : MmParams) (c : StoreConfig) (dest : Word) (line : ℕ → Line) (s : MmAccel)
    (x : Option WriteTransfer) (f : ℕ) : Prop where
  busy : s.st.dmaBusy = true
  done : s.st.dmaDone = false
  conf : s.storeConfig p = c
  le : f ≤ c.nGroupsEff
  fillLeft : s.st.fillLeft = c.nGroupsEff - f
  fillGrp : f < c.nGroupsEff → s.st.fillGrp = f
  stage : s.st.fillValid = true → 1 ≤ f ∧ s.lineOut p = line (f - 1)
  flow : f < c.nGroupsEff → s.st.fillValid = true ∨ f = 0
  order : s.popped x ≤ s.entered f
  fifo : s.st.lineFifo = (List.range' (s.popped x) (s.entered f - s.popped x)).map line
  sent : s.st.dmaSent < c.nGroupsEff
  dvd : c.wBurstLines ∣ s.st.dmaSent
  addr : s.st.dmaAddr = c.addr p dest s.st.dmaSent
  rowBase : c.contig p = false →
    s.st.dmaRowBase = dest + BitVec.ofNat 32 (s.st.dmaSent / p.perRow) * c.stride p
  serve : ∀ t, x = some t → t.addr = s.st.dmaAddr ∧ t.lines = c.wBurstLines ∧ t.pos < t.lines ∧
    t.got = (List.range' s.st.dmaSent t.got.length).map line ∧ t.pos ≤ t.got.length ∧
    t.got.length ≤ t.pos + 1 ∧ s.popped x < s.entered f

variable {p} {s : MmAccel} {i : MmInputs} {c : StoreConfig} {dest : Word} {line : ℕ → Line}
  {x : Option WriteTransfer} {f : ℕ}

namespace Storing

theorem length_fifo (h : Storing p c dest line s x f) :
    s.st.lineFifo.length = s.entered f - s.popped x := by
  rw [h.fifo, List.length_map, List.length_range']

theorem entered_add (h : Storing p c dest line s x f) : s.entered f + s.st.fillValid.toNat = f := by
  cases hv : s.st.fillValid
  · simp [entered, hv]
  · have := (h.stage hv).1
    simp only [entered, hv, Bool.toNat_true]
    omega

/-- The fill goes on until the tile is through. -/
theorem fillFire_eq (h : Storing p c dest line s x f) (hc : c.Fits p) :
    s.fillFire p = decide (f < c.nGroupsEff) := by
  have hlen := h.length_fifo
  have he := h.entered_add
  have hF := hc.fifo
  have hF₂ : 2 ≤ p.fifoLines := p.fifoDepth_ge.trans (le_max_left _ _)
  rw [fillFire, h.busy, Bool.true_and, h.fillLeft, hlen]
  by_cases hf : f < c.nGroupsEff
  · have hcount : s.entered f - s.popped x < p.fifoLines - 1 := by
      rcases h.flow hf with hv | h0
      · rw [hv, Bool.toNat_true] at he
        omega
      · omega
    simp only [hf, hcount, decide_true, Bool.and_true]
    simp
    omega
  · simp only [hf, decide_false]
    simp
    omega

/-- There is always a line for the channel. -/
theorem has_line (h : Storing p c dest line s x f) (hlt : s.popped x < s.entered f) :
    s.memWline = line (s.popped x) := by
  obtain ⟨n, hn⟩ := Nat.exists_eq_add_of_lt hlt
  rw [memWline, h.fifo, show s.entered f - s.popped x = n + 1 by omega, List.range'_succ]
  rfl

/-- A request is made when there is a line. -/
theorem popped_lt (h : Storing p c dest line s x f) (hv : s.memWrReqValid) :
    s.popped x < s.entered f := by
  rw [memWrReqValid, Bool.and_eq_true] at hv
  have hne : s.st.lineFifo.length ≠ 0 := by
    intro h0
    rw [List.length_eq_zero_iff] at h0
    simp [h0] at hv
  rw [h.length_fifo] at hne
  omega

/-- A line enters the FIFO, which is not full, and one may leave it, which is not empty. -/
theorem nextFifo_eq (h : Storing p c dest line s x f) (hc : c.Fits p)
    (hpop : s.deqReady i = true → s.popped x < s.entered f) :
    (s.st.fillValid = true → s.st.lineFifo.length < p.fifoLines) ∧
      s.nextFifo p i = (List.range' (s.popped x + (s.deqReady i).toNat)
        (f - (s.popped x + (s.deqReady i).toNat))).map line := by
  have hlen := h.length_fifo
  have he := h.entered_add
  have hroom : s.st.fillValid = true → s.st.lineFifo.length < p.fifoLines := by
    intro hv
    rw [hv, Bool.toNat_true] at he
    have := hc.fifo
    have := h.le
    omega
  refine ⟨hroom, ?_⟩
  -- what is left when the head has been taken
  have htail : (if s.deqReady i then s.st.lineFifo.tail else s.st.lineFifo) =
      (List.range' (s.popped x + (s.deqReady i).toNat)
        (s.entered f - (s.popped x + (s.deqReady i).toNat))).map line := by
    cases hp : s.deqReady i
    · rw [if_neg Bool.false_ne_true, h.fifo]
      rfl
    · obtain ⟨n, hn⟩ := Nat.exists_eq_add_of_lt (hpop hp)
      rw [if_pos rfl, h.fifo, show s.entered f - s.popped x = n + 1 by omega,
        List.range'_succ, List.map_cons,
        List.tail_cons, Bool.toNat_true, show s.entered f - (s.popped x + 1) = n by omega]
  rw [nextFifo, htail]
  have hle : s.popped x + (s.deqReady i).toNat ≤ s.entered f := by
    cases hp : s.deqReady i
    · exact h.order
    · exact hpop hp
  cases hv : s.st.fillValid
  · rw [hv, Bool.toNat_false, Nat.add_zero] at he
    simp [he]
  · -- the line in the stage goes to the end
    rw [hv, Bool.toNat_true] at he
    have hl := hroom hv
    rw [(h.stage hv).2]
    simp only [hl, decide_true, Bool.and_self, if_true]
    rw [show f - (s.popped x + (s.deqReady i).toNat) =
        s.entered f - (s.popped x + (s.deqReady i).toNat) + 1 by omega,
        List.range'_concat, List.map_append,
      List.map_singleton, Nat.one_mul, show s.popped x + (s.deqReady i).toNat +
        (s.entered f - (s.popped x + (s.deqReady i).toNat)) = f - 1 by omega]

end Storing

/-- Nothing interferes with a store on this cycle: it is neither started again nor reset, its
    configuration holds still, and so does what is taken from the accumulators. -/
structure StoreAlone (p : MmParams) (c : StoreConfig) (line : ℕ → Line) (s : MmAccel)
    (i : MmInputs) (f : ℕ) :
    Prop where
  reset : s.softRstPulse i = false
  start : s.dmaStartAny i = false
  conf : (s.next p i).storeConfig p = c
  stage : s.fillFire p = true → (s.next p i).lineOut p = line f

/-- The stages of the fill after an edge. -/
theorem StoreAlone.nextSt_fill (h : StoreAlone p c line s i f) :
    (s.nextSt p i).fillGrp = (if s.fillFire p then (s.st.fillGrp + 1) % 2 ^ p.grpBits
      else s.st.fillGrp) ∧
      (s.nextSt p i).fillLeft = (if s.fillFire p then s.st.fillLeft - 1 else s.st.fillLeft) ∧
      (s.nextSt p i).fillValid = s.fillFire p ∧ (s.nextSt p i).lineFifo = s.nextFifo p i := by
  rw [nextSt, h.reset, if_neg Bool.false_ne_true, nextSt', h.start]
  cases s.st.dmaBusy && i.memWrReady
  · exact ⟨rfl, rfl, rfl, rfl⟩
  · by_cases hN : s.nGroupsEff p ≤ s.nextSent p
    · simp [hN]
    · simp [hN]

/-- Without an acknowledgement nothing else moves. -/
theorem StoreAlone.nextSt_hold (h : StoreAlone p c line s i f) (hw : i.memWrReady = false) :
    (s.nextSt p i).dmaBusy = s.st.dmaBusy ∧ (s.nextSt p i).dmaDone = s.st.dmaDone ∧
      (s.nextSt p i).dmaSent = s.st.dmaSent ∧ (s.nextSt p i).dmaAddr = s.st.dmaAddr ∧
      (s.nextSt p i).dmaRowBase = s.st.dmaRowBase := by
  rw [nextSt, h.reset, if_neg Bool.false_ne_true, nextSt', h.start, hw, Bool.and_false]
  exact ⟨rfl, rfl, rfl, rfl, rfl⟩

namespace Storing

/-- The lines taken from the accumulators after an edge. -/
theorem fill_next (h : Storing p c dest line s x f) (hc : c.Fits p) (ha : StoreAlone p c line s i f) :
    ∃ f', f ≤ f' ∧ f' ≤ c.nGroupsEff ∧ (s.next p i).st.fillLeft = c.nGroupsEff - f' ∧
      (f' < c.nGroupsEff → (s.next p i).st.fillGrp = f') ∧
      ((s.next p i).st.fillValid = true → 1 ≤ f' ∧ (s.next p i).lineOut p = line (f' - 1)) ∧
      (f' < c.nGroupsEff → (s.next p i).st.fillValid = true ∨ f' = 0) ∧
      (s.next p i).entered f' = f := by
  obtain ⟨h₁, h₂, h₃, -⟩ := ha.nextSt_fill
  have hfire := h.fillFire_eq hc
  have hle := h.le
  by_cases hf : f < c.nGroupsEff
  · rw [decide_eq_true hf] at hfire
    have hgrp := hc.grp
    refine ⟨f + 1, Nat.le_succ _, hf, ?_, fun hf' => ?_, fun _ => ⟨Nat.succ_pos _, ha.stage hfire⟩,
      fun _ => .inl ?_, ?_⟩
    · rw [next_st, h₂, hfire, if_pos rfl, h.fillLeft, Nat.sub_sub]
    · rw [next_st, h₁, hfire, if_pos rfl, h.fillGrp hf, Nat.mod_eq_of_lt (by omega)]
    · rw [next_st, h₃, hfire]
    · rw [entered, next_st, h₃, hfire]
      rfl
  · rw [decide_eq_false hf] at hfire
    refine ⟨f, le_rfl, hle, ?_, fun hf' => absurd hf' hf, fun hv => ?_, fun hf' => absurd hf' hf, ?_⟩
    · rw [next_st, h₂, hfire, if_neg Bool.false_ne_true, h.fillLeft]
    · rw [next_st, h₃, hfire] at hv
      cases hv
    · rw [entered, next_st, h₃, hfire]
      rfl

/-- The lines that the channel has taken. -/
theorem takeLine_eq {t : WriteTransfer} (h : Storing p c dest line s (some t) f) (look : Bool) :
    s.takeLine look t = (List.range' s.st.dmaSent (s.takeLine look t).length).map line ∧
      t.pos ≤ (s.takeLine look t).length ∧ (s.takeLine look t).length ≤ t.pos + 1 := by
  obtain ⟨-, -, -, hgot, h₁, h₂, hlt⟩ := h.serve t rfl
  rw [takeLine]
  split
  · next hl =>
    rw [Bool.and_eq_true, beq_iff_eq] at hl
    rw [h.has_line hlt, List.length_append, List.length_singleton, List.range'_concat, List.map_append,
      List.map_singleton, ← hgot, Nat.one_mul, hl.2]
    exact ⟨rfl, by omega, le_rfl⟩
  · exact ⟨hgot, h₁, h₂⟩

/-- The request of the engine, as it is granted. -/
theorem lines_wrTransfer (h : Storing p c dest line s x f) (hc : c.Fits p) (look : Bool) :
    (s.wrTransfer p look).lines = c.wBurstLines := by
  have hB : s.wBurstLines p = c.wBurstLines := by
    rw [← h.conf]
    rfl
  have h₁ := hc.burst
  have h₂ : c.wBurstLines ≤ 64 := (Nat.le_of_dvd hc.pos hc.dvd).trans hc.le
  have hnz : BitVec.ofNat 8 c.wBurstLines ≠ 0 := by
    intro h0
    have := congrArg BitVec.toNat h0
    rw [BitVec.toNat_ofNat, Nat.mod_eq_of_lt (by omega)] at this
    exact absurd this (Nat.ne_of_gt h₁)
  rw [wrTransfer, memWrReqLines, hB, if_neg hnz, BitVec.toNat_ofNat, Nat.mod_eq_of_lt (by omega)]

/-- Without an acknowledgement a line leaves the FIFO only for the channel, -/
theorem deqReady_of_hold (h : Storing p c dest line s x f) (hw : i.memWrReady = false) :
    s.deqReady i = i.memWnext := by
  simp [deqReady, h.busy, hw]

/-- which holds a transaction, whose line is there. -/
theorem popped_lt_of_deqReady (h : Storing p c dest line s x f) {look : Bool} {m m' : Mem}
    (hs : s.WriteServes i look x m m') (hw : i.memWrReady = false) (hd : s.deqReady i = true) :
    s.popped x < s.entered f := by
  obtain ⟨-, t, rfl, -⟩ := hs.wnext (h.deqReady_of_hold hw ▸ hd)
  exact (h.serve t rfl).2.2.2.2.2.2

/-- Without a transaction nothing leaves. -/
theorem deqReady_none (h : Storing p c dest line s none f) {look : Bool} {m m' : Mem}
    (hs : s.WriteServes i look none m m') (hw : i.memWrReady = false) : s.deqReady i = false := by
  rw [h.deqReady_of_hold hw]
  refine Bool.eq_false_iff.2 fun hn => ?_
  obtain ⟨-, t, ht, -⟩ := hs.wnext hn
  cases ht

theorem popped_next_hold (h : Storing p c dest line s x f)
    (ha : StoreAlone p c line s i f) (grant : Bool)
    {look : Bool} {m m' : Mem} (hs : s.WriteServes i look x m m') (hw : i.memWrReady = false) :
    (s.next p i).popped (s.wrNext p i grant look x) = s.popped x + (s.deqReady i).toNat := by
  obtain ⟨-, -, hsent, -⟩ := ha.nextSt_hold hw
  rw [popped, popped, next_st, hsent, Nat.add_assoc]
  rcases x with _ | t
  · rw [h.deqReady_none hs hw]
    cases hg : grant && s.memWrReqValid <;> simp [wrNext, hg, wrTransfer]
  · rw [h.deqReady_of_hold hw]
    simp [wrNext, hw]

/-- A transaction that is granted on this cycle starts after the lines that have been sent. -/
theorem granted (h : Storing p c dest line s none f) (hc : c.Fits p) {grant look : Bool} {m m' : Mem}
    (hs : s.WriteServes i look none m m') (hw : i.memWrReady = false) {t : WriteTransfer}
    (ht : s.wrNext p i grant look none = some t) :
    t.addr = s.st.dmaAddr ∧ t.lines = c.wBurstLines ∧ t.pos < t.lines ∧
      t.got = (List.range' s.st.dmaSent t.got.length).map line ∧ t.pos ≤ t.got.length ∧
      t.got.length ≤ t.pos + 1 ∧ s.popped none + (s.deqReady i).toNat < f := by
  simp only [wrNext] at ht
  split at ht
  · next hg =>
    cases ht
    have hlt := h.popped_lt (Bool.and_eq_true_iff.1 hg).2
    have he := h.entered_add
    refine ⟨rfl, h.lines_wrTransfer hc look, by rw [h.lines_wrTransfer hc]; exact hc.burst, ?_,
      Nat.zero_le _, ?_, ?_⟩
    · -- A channel that looks ahead takes the first line with the grant.
      cases look
      · rfl
      · simp only [wrTransfer, if_true]
        rw [h.has_line hlt]
        rfl
    · cases look <;> simp [wrTransfer]
    · rw [h.deqReady_none hs hw, Bool.toNat_false]
      omega
  · cases ht

/-- A line stays behind for a transaction that goes on: if one leaves the FIFO, the next is on its
    way. -/
theorem popped_add_lt {t : WriteTransfer} (h : Storing p c dest line s (some t) f) (hc : c.Fits p)
    {look : Bool} {m m' : Mem} (hs : s.WriteServes i look (some t) m m') (hw : i.memWrReady = false) :
    s.popped (some t) + (s.deqReady i).toNat < f := by
  have he := h.entered_add
  obtain ⟨-, hl, -, -, -, -, hlt⟩ := h.serve t rfl
  cases hn : s.deqReady i
  · rw [Bool.toNat_false]
    omega
  · rw [Bool.toNat_true]
    obtain ⟨-, t₁, ht₁, hpos, -⟩ := hs.wnext (h.deqReady_of_hold hw ▸ hn)
    cases ht₁
    cases hv : s.st.fillValid
    · -- The fill is through, and the lines of the transaction are not.
      rw [hv, Bool.toNat_false] at he
      have hfN : ¬f < c.nGroupsEff := by
        intro hf
        rcases h.flow hf with h' | h'
        · rw [hv] at h'
          cases h'
        · omega
      have hadd := hc.add_le h.dvd h.sent
      simp only [popped, Option.map_some, Option.getD_some]
      omega
    · rw [hv, Bool.toNat_true] at he
      omega

/-- A transaction that goes on keeps its address, and steps to its next line with the channel. -/
theorem goes_on {t₀ t : WriteTransfer} (h : Storing p c dest line s (some t₀) f) (hc : c.Fits p)
    {grant look : Bool} {m m' : Mem} (hs : s.WriteServes i look (some t₀) m m')
    (hw : i.memWrReady = false) (ht : s.wrNext p i grant look (some t₀) = some t) :
    t.addr = s.st.dmaAddr ∧ t.lines = c.wBurstLines ∧ t.pos < t.lines ∧
      t.got = (List.range' s.st.dmaSent t.got.length).map line ∧ t.pos ≤ t.got.length ∧
      t.got.length ≤ t.pos + 1 ∧ s.popped (some t₀) + (s.deqReady i).toNat < f := by
  obtain ⟨hga, hgl, hgp, -⟩ := h.serve t₀ rfl
  obtain ⟨hgot, hp₁, hp₂⟩ := h.takeLine_eq look
  simp only [wrNext, hw] at ht
  cases ht
  cases hn : i.memWnext
  · exact ⟨hga, hgl, hgp, hgot, hp₁, hp₂, h.popped_add_lt hc hs hw⟩
  · obtain ⟨-, t₁, ht₁, hpos, hlen⟩ := hs.wnext hn
    cases ht₁
    exact ⟨hga, hgl, hpos, hgot, hlen.ge, hlen.le.trans (Nat.le_succ _), h.popped_add_lt hc hs hw⟩

/-- A cycle without an acknowledgement. -/
theorem next_hold (h : Storing p c dest line s x f) (hc : c.Fits p) (ha : StoreAlone p c line s i f)
    (grant : Bool) {look : Bool} {m m' : Mem} (hs : s.WriteServes i look x m m')
    (hw : i.memWrReady = false) :
    ∃ f' ≥ f, Storing p c dest line (s.next p i) (s.wrNext p i grant look x) f' := by
  obtain ⟨f', hff, hle, hleft, hgrp, hstage, hflow, hent⟩ := h.fill_next hc ha
  obtain ⟨-, -, -, hfifo⟩ := ha.nextSt_fill
  obtain ⟨hb, hd, hsent, haddr, hrow⟩ := ha.nextSt_hold hw
  have hpop := h.popped_lt_of_deqReady hs hw
  have hpopped := h.popped_next_hold ha grant hs hw
  refine ⟨f', hff, ?_⟩
  constructor
  case busy => rw [next_st, hb, h.busy]
  case done => rw [next_st, hd, h.done]
  case conf => exact ha.conf
  case le => exact hle
  case fillLeft => exact hleft
  case fillGrp => exact hgrp
  case stage => exact hstage
  case flow => exact hflow
  case order =>
    rw [hpopped, hent]
    have he := h.entered_add
    cases hn : s.deqReady i
    · exact h.order.trans (by omega)
    · have := hpop hn
      rw [Bool.toNat_true]
      omega
  case fifo =>
    rw [hpopped, hent, next_st, hfifo]
    exact (h.nextFifo_eq hc hpop).2
  case sent =>
    rw [next_st, hsent]
    exact h.sent
  case dvd =>
    rw [next_st, hsent]
    exact h.dvd
  case addr => rw [next_st, haddr, hsent, h.addr]
  case rowBase => exact fun hk => by rw [next_st, hrow, hsent, h.rowBase hk]
  case serve =>
    intro t ht
    rw [hpopped, hent, next_st, haddr, hsent]
    rcases x with _ | t₀
    · exact h.granted hc hs hw ht
    · exact h.goes_on hc hs hw ht

/-- What an acknowledgement finds: the whole transaction has been taken, and its last line is at the
    head of the FIFO. -/
theorem ready_cases {t : WriteTransfer} (h : Storing p c dest line s (some t) f)
    {look : Bool} {m m' : Mem} (hs : s.WriteServes i look (some t) m m') (hw : i.memWrReady = true) :
    t.lines = c.wBurstLines ∧ s.popped (some t) + 1 = s.st.dmaSent + c.wBurstLines ∧
      (∀ k < c.wBurstLines, m'.line (t.at k) = line (s.st.dmaSent + k)) ∧ i.memWnext = false := by
  obtain ⟨hga, hgl, -⟩ := h.serve t rfl
  obtain ⟨hgot, -⟩ := h.takeLine_eq look
  obtain ⟨t₁, ht₁, hpos, hlen, hmem⟩ := hs.ready hw
  cases ht₁
  refine ⟨hgl, ?_, fun k hk => ?_, ?_⟩
  · simp only [popped, Option.map_some, Option.getD_some]
    omega
  · rw [hmem k (hgl ▸ hk), hgot, List.getD_eq_getElem?_getD, List.getElem?_map, hlen, hgl,
      List.getElem?_range' (by omega), Option.map_some, Option.getD_some, Nat.one_mul]
  · refine Bool.eq_false_iff.2 fun hn => ?_
    rw [(hs.wnext hn).1] at hw
    cases hw

/-- The tests of the engine at an acknowledgement. -/
theorem nextSent_eq (h : Storing p c dest line s x f) (hc : c.Fits p) :
    s.nextSent p = s.st.dmaSent + c.wBurstLines ∧ s.nGroupsEff p = c.nGroupsEff ∧
      s.nextSent p % 512 = s.st.dmaSent + c.wBurstLines := by
  have hB : s.wBurstLines p = c.wBurstLines := by
    rw [← h.conf]
    rfl
  have hadd := hc.add_le h.dvd h.sent
  have hN := hc.le
  have hns : s.nextSent p = s.st.dmaSent + c.wBurstLines := by
    rw [nextSent, hB]
    refine Nat.mod_eq_of_lt (lt_of_lt_of_le (show _ < 2 ^ 9 by omega) ?_)
    exact Nat.pow_le_pow_right (by decide) (le_max_left _ _)
  refine ⟨hns, ?_, by rw [hns]; omega⟩
  rw [← h.conf]
  rfl

/-- Rows with gaps: a transaction is a row, or a line of one. -/
theorem burst_of_rows (hc : c.Fits p) (hk : c.contig p = false)
    (hlt : s.st.dmaSent + c.wBurstLines < c.nGroupsEff) :
    0 < p.perRow ∧ 2 ^ log2Ceil p.perRow = p.perRow ∧ strideOK p = true ∧
      (c.wBurstLines = 1 ∨ c.wBurstLines = p.perRow) :=
  (hc.rows hk).resolve_left (by have := hc.burst; omega)

/-- Where a row is through, the next one begins. -/
theorem row_through (hc : c.Fits p) (hk : c.contig p = false)
    (hlt : s.st.dmaSent + c.wBurstLines < c.nGroupsEff)
    (he : (s.st.dmaSent + c.wBurstLines) % p.perRow = 0) :
    (s.st.dmaSent + c.wBurstLines) / p.perRow = s.st.dmaSent / p.perRow + 1 := by
  obtain ⟨hp, -, -, hB | hB⟩ := burst_of_rows hc hk hlt
  · rw [hB] at he ⊢
    exact Nat.succ_div_of_mod_eq_zero he
  · rw [hB, Nat.add_div_right _ hp]

section

variable (h : Storing p c dest line s x f) (hc : c.Fits p) (hk : c.contig p = false)
  (hlt : s.st.dmaSent + c.wBurstLines < c.nGroupsEff)

include h hc hk hlt

theorem atRowEndSent_eq :
    s.atRowEndSent p = decide ((s.st.dmaSent + c.wBurstLines) % p.perRow = 0) := by
  obtain ⟨-, hpow, hok, -⟩ := burst_of_rows hc hk hlt
  rw [atRowEndSent, hok, (h.nextSent_eq hc).1, hpow]
  by_cases h1 : p.perRow = 1
  · simp [h1, Nat.mod_one]
  · simp only [Bool.not_true, Bool.false_or, beq_false_of_ne h1]
    rfl

/-- Where it is not, a line of it has been sent, and the next line is the next one of it. -/
theorem row_within (he : ¬(s.st.dmaSent + c.wBurstLines) % p.perRow = 0) :
    c.wBurstLines = 1 ∧ (s.st.dmaSent + 1) / p.perRow = s.st.dmaSent / p.perRow ∧
      (s.st.dmaSent + 1) % p.perRow = s.st.dmaSent % p.perRow + 1 := by
  obtain ⟨-, -, -, hB⟩ := burst_of_rows hc hk hlt
  have hB₁ : c.wBurstLines = 1 := by
    -- a transaction of a whole row ends with the row
    refine hB.resolve_right fun hB => ?_
    obtain ⟨q, hq⟩ := h.dvd
    rw [hq, hB, ← Nat.mul_succ] at he
    exact absurd (Nat.mul_mod_right _ _) he
  rw [hB₁] at he
  have hdiv : (s.st.dmaSent + 1) / p.perRow = s.st.dmaSent / p.perRow :=
    Nat.succ_div_of_mod_ne_zero he
  refine ⟨hB₁, hdiv, ?_⟩
  have h₁ := Nat.div_add_mod (s.st.dmaSent + 1) p.perRow
  have h₂ := Nat.div_add_mod s.st.dmaSent p.perRow
  rw [hdiv] at h₁
  omega

end

/-- Where the next transaction starts. -/
theorem addr_next (h : Storing p c dest line s x f) (hc : c.Fits p)
    (hlt : s.st.dmaSent + c.wBurstLines < c.nGroupsEff) :
    (if s.destContigEff p then s.st.dmaAddr + BitVec.ofNat 32 (16 * s.wBurstLines p)
        else if s.atRowEndSent p then s.st.dmaRowBase + s.effStride p
        else s.st.dmaAddr + 16) = c.addr p dest (s.st.dmaSent + c.wBurstLines) ∧
      (c.contig p = false →
        (if !s.destContigEff p && s.atRowEndSent p then s.st.dmaRowBase + s.effStride p
          else s.st.dmaRowBase) =
          dest + BitVec.ofNat 32 ((s.st.dmaSent + c.wBurstLines) / p.perRow) * c.stride p) := by
  have hB : s.wBurstLines p = c.wBurstLines := by
    rw [← h.conf]
    rfl
  have hcon : s.destContigEff p = c.contig p := by
    rw [← h.conf]
    rfl
  have hstr : s.effStride p = c.stride p := by
    rw [← h.conf]
    rfl
  have haddr := h.addr
  rw [hcon, hstr, hB]
  cases hk : c.contig p
  · have hrow := h.rowBase hk
    have hend := h.atRowEndSent_eq hc hk hlt
    rw [StoreConfig.addr, hk] at haddr ⊢
    simp only [if_neg Bool.false_ne_true, Bool.not_false, Bool.true_and] at haddr ⊢
    by_cases he : (s.st.dmaSent + c.wBurstLines) % p.perRow = 0
    · -- a row is through: the base moves on by the stride, and the address with it
      rw [hend, decide_eq_true he, if_pos rfl, if_pos rfl, row_through hc hk hlt he, he, hrow,
        BitVec.ofNat_add, BitVec.add_mul]
      simp [BitVec.add_assoc]
    · -- within a row: the base stays, and the address is that of the next line
      obtain ⟨hB₁, hdiv, hmod⟩ := h.row_within hc hk hlt he
      rw [hB₁] at he
      rw [hend, hB₁, decide_eq_false he, if_neg Bool.false_ne_true, if_neg Bool.false_ne_true, hdiv,
        hmod, haddr, hrow, Nat.mul_succ, BitVec.ofNat_add, ← BitVec.add_assoc]
      simp
  · -- no rows: the lines of the tile follow each other
    rw [StoreConfig.addr, hk, if_pos rfl] at haddr
    rw [if_pos rfl, haddr, StoreConfig.addr, hk, if_pos rfl, Nat.mul_add, BitVec.ofNat_add,
      BitVec.add_assoc]
    exact ⟨rfl, nofun⟩

/-- The head of the FIFO leaves it with an acknowledgement. -/
theorem nextFifo_ready {t : WriteTransfer} (h : Storing p c dest line s (some t) f) (hc : c.Fits p)
    {look : Bool} {m m' : Mem} (hs : s.WriteServes i look (some t) m m') (hw : i.memWrReady = true) :
    s.st.dmaSent + c.wBurstLines ≤ f ∧
      s.nextFifo p i = (List.range' (s.st.dmaSent + c.wBurstLines)
        (f - (s.st.dmaSent + c.wBurstLines))).map line := by
  obtain ⟨-, hpop, -, -⟩ := h.ready_cases hs hw
  have hdeq : s.deqReady i = true := by simp [deqReady, h.busy, hw]
  have hlt := (h.serve t rfl).2.2.2.2.2.2
  have hfifo := (h.nextFifo_eq (i := i) hc fun _ => hlt).2
  have he := h.entered_add
  rw [hdeq, Bool.toNat_true, hpop] at hfifo
  exact ⟨by omega, hfifo⟩

/-- An acknowledgement that is not the last one. -/
theorem next_ready {t : WriteTransfer} (h : Storing p c dest line s (some t) f) (hc : c.Fits p)
    (ha : StoreAlone p c line s i f) {look : Bool} {m m' : Mem} (hs : s.WriteServes i look (some t) m m')
    (hw : i.memWrReady = true) (hlt : s.st.dmaSent + c.wBurstLines < c.nGroupsEff) :
    ∃ f' ≥ f, Storing p c dest line (s.next p i) none f' ∧
      (s.next p i).st.dmaSent = s.st.dmaSent + c.wBurstLines := by
  obtain ⟨f', hff, hle, hleft, hgrp, hstage, hflow, hent⟩ := h.fill_next hc ha
  obtain ⟨-, -, -, hfifo⟩ := ha.nextSt_fill
  obtain ⟨hns, hN, hns'⟩ := h.nextSent_eq hc
  obtain ⟨haddr, hrow⟩ := h.addr_next hc hlt
  obtain ⟨hfle, hfifo'⟩ := h.nextFifo_ready hc hs hw
  have hst : (s.nextSt p i).dmaBusy = true ∧ (s.nextSt p i).dmaDone = false ∧
      (s.nextSt p i).dmaSent = s.nextSent p % 512 ∧
      (s.nextSt p i).dmaAddr = (if s.destContigEff p then s.st.dmaAddr + BitVec.ofNat 32
        (16 * s.wBurstLines p)
        else if s.atRowEndSent p then s.st.dmaRowBase + s.effStride p else s.st.dmaAddr + 16) ∧
      (s.nextSt p i).dmaRowBase = (if !s.destContigEff p && s.atRowEndSent p
        then s.st.dmaRowBase + s.effStride p
        else s.st.dmaRowBase) := by
    rw [nextSt, ha.reset, if_neg Bool.false_ne_true, nextSt', ha.start, hw, h.busy,
      if_neg Bool.false_ne_true, Bool.and_self, if_pos rfl, if_neg (by rw [hns, hN]; omega)]
    exact ⟨rfl, h.done, rfl, rfl, rfl⟩
  obtain ⟨hb, hd, hsent, ha', hr'⟩ := hst
  rw [hns'] at hsent
  have hpopped : (s.next p i).popped none = s.st.dmaSent + c.wBurstLines := hsent
  refine ⟨f', hff, ?_, hsent⟩
  constructor
  case busy => exact hb
  case done => exact hd
  case conf => exact ha.conf
  case le => exact hle
  case fillLeft => exact hleft
  case fillGrp => exact hgrp
  case stage => exact hstage
  case flow => exact hflow
  case order =>
    rw [hpopped, hent]
    exact hfle
  case fifo => rw [hpopped, hent, next_st, hfifo, hfifo']
  case sent =>
    rw [next_st, hsent]
    exact hlt
  case dvd =>
    rw [next_st, hsent]
    exact (Nat.dvd_add_right h.dvd).2 dvd_rfl
  case addr => rw [next_st, ha', hsent, haddr]
  case rowBase => exact fun hk => by rw [next_st, hr', hsent, hrow hk]
  case serve => exact nofun -- the channel is free again

/-- The last acknowledgement: the FIFO is empty, and nothing is on its way to it. -/
theorem finish {t : WriteTransfer} (h : Storing p c dest line s (some t) f) (hc : c.Fits p)
    (ha : StoreAlone p c line s i f) {look : Bool} {m m' : Mem} (hs : s.WriteServes i look (some t) m m')
    (hw : i.memWrReady = true) (hlt : ¬s.st.dmaSent + c.wBurstLines < c.nGroupsEff) :
    (s.next p i).st.dmaBusy = false ∧ (s.next p i).st.dmaDone = true ∧ (s.next p i).st.lineFifo = [] ∧
      (s.next p i).st.fillValid = false := by
  obtain ⟨-, -, hvalid, hfifo⟩ := ha.nextSt_fill
  obtain ⟨hns, hN, -⟩ := h.nextSent_eq hc
  obtain ⟨hfle, hfifo'⟩ := h.nextFifo_ready hc hs hw
  have hadd := hc.add_le h.dvd h.sent
  have hle := h.le
  have hst : (s.nextSt p i).dmaBusy = false ∧ (s.nextSt p i).dmaDone = true := by
    rw [nextSt, ha.reset, if_neg Bool.false_ne_true, nextSt', ha.start, hw, h.busy,
      if_neg Bool.false_ne_true, Bool.and_self, if_pos rfl, if_pos (by rw [hns, hN]; omega)]
    exact ⟨rfl, rfl⟩
  refine ⟨hst.1, hst.2, ?_, ?_⟩
  · rw [next_st, hfifo, hfifo', show f - (s.st.dmaSent + c.wBurstLines) = 0 by omega]
    rfl
  · rw [next_st, hvalid, h.fillFire_eq hc]
    exact decide_eq_false (by omega)

end Storing

/-! ## What is taken from the accumulators -/

/-- The registers between the accumulators and the FIFO after an edge. -/
theorem nextSt_stage (s : MmAccel) (i : MmInputs) :
    (s.nextSt p i).fillGrpD = s.st.fillGrp ∧ (s.nextSt p i).rowLineReg = s.rowLine p ∧
      (s.nextSt p i).lineReg8 = s.line8 p := by
  unfold nextSt nextSt'
  dsimp only
  split <;> split <;> (try split) <;> (try split) <;> exact ⟨rfl, rfl, rfl⟩

/-- The line that enters the FIFO is the one that the fill pointer selected a cycle before. -/
theorem lineOut_next (hd : p.GoodDim) (hc : s.storeConfig p = c) (hc' : (s.next p i).storeConfig p = c)
    (hf : f < c.nGroupsEff) (hg : s.st.fillGrp = f) (hacc : (s.next p i).arr.acc = s.arr.acc) :
    (s.next p i).lineOut p = resultLine p c.int8Mode c.outShift s.arr.acc f := by
  obtain ⟨h₁, h₂, h₃⟩ := nextSt_stage (p := p) s i
  have hm : s.int8Mode p = c.int8Mode := congrArg StoreConfig.int8Mode hc
  have hm' : (s.next p i).int8Mode p = c.int8Mode := congrArg StoreConfig.int8Mode hc'
  have hsh : s.regs.outShift = c.outShift := congrArg StoreConfig.outShift hc
  have hN : c.nGroupsEff = if c.int8Mode then p.nGroups8 else p.nGroups := by
    rw [← hm, ← hc]
    rfl
  have hcap : c.int8Mode = true → p.int8Capable = true :=
    fun h => (Bool.and_eq_true_iff.1 (hm.trans h)).1
  rw [lineOut, hm', resultLine]
  cases hi : c.int8Mode
  · -- words: `rowLineReg` has a line of each row, and the row is selected here
    rw [hi, if_neg Bool.false_ne_true] at hN
    rw [if_neg Bool.false_ne_true, if_neg Bool.false_ne_true, lineData, hacc]
    refine if_congr Iff.rfl rfl ?_
    rw [next_st, h₁, h₂, hg, rowLine, hg]
    by_cases h1 : p.nGroups = 1
    · rcases hd.cases with ⟨-, -, h, -⟩ | ⟨-, h, -⟩ | ⟨-, h, -⟩ | ⟨-, h, -⟩
      · rw [show f = 0 by omega, h]
        rfl
      all_goals omega
    · have hpow : 2 ^ log2Ceil p.perRow = p.perRow := by
        rcases hd.cases with ⟨-, h, -⟩ | ⟨-, -, h, -⟩ | ⟨-, -, h, -⟩ | ⟨-, -, h, -⟩
        · exact absurd h h1
        all_goals
          rw [h]
          decide
      rw [hpow]
  · -- bytes: `lineReg8` has the line itself
    rw [hi, if_pos rfl] at hN
    rw [if_pos rfl, if_pos rfl, next_st, h₃, line8, hsh]
    have hsel : (if p.nGroups8 = 1 then 0 else s.st.fillGrp % 2 ^ p.grp8Bits) = f := by
      rw [hg]
      rcases hd.cases with ⟨-, -, -, h, -⟩ | ⟨-, -, -, -, -, -, h, h'⟩ | ⟨-, -, -, -, -, -, h, h'⟩ |
          ⟨-, -, -, -, -, -, h, h'⟩
      · rw [hcap hi] at h
        cases h
      · rw [h, if_pos rfl]
        omega
      all_goals
        rw [h, h', if_neg (by decide)]
        omega
    simp only [hsel]

/-- A store that is started, with nothing on its channel and nothing in the FIFO. -/
theorem storing_of_dmaStartAny (hd : p.GoodDim) (hs : s.dmaStartAny i) (hr : s.softRstPulse i = false)
    (hb : s.st.dmaBusy = false) (he : (s.next p i).st.lineFifo = []) (hc : s.storeConfig p = c)
    (hc' : (s.next p i).storeConfig p = c) : Storing p c s.regs.destAddr line (s.next p i) none 0 := by
  have hF : c.Fits p := hc ▸ fits_storeConfig s hd
  have hN : s.nGroupsEff p = c.nGroupsEff := congrArg StoreConfig.nGroupsEff hc
  have hle := hF.le
  have hpos := hF.pos
  have hn : (s.nextSt p i).dmaBusy = true ∧ (s.nextSt p i).dmaDone = false ∧
      (s.nextSt p i).dmaAddr = s.regs.destAddr ∧ (s.nextSt p i).dmaRowBase = s.regs.destAddr ∧
      (s.nextSt p i).fillGrp = 0 ∧ (s.nextSt p i).fillLeft = s.nGroupsEff p % 512 ∧
      (s.nextSt p i).dmaSent = 0 ∧ (s.nextSt p i).fillValid = s.fillFire p := by
    rw [nextSt, hr, if_neg Bool.false_ne_true, nextSt', hs]
    exact ⟨rfl, rfl, rfl, rfl, rfl, rfl, rfl, rfl⟩
  obtain ⟨h₁, h₂, h₃, h₄, h₅, h₆, h₇, h₈⟩ := hn
  have hv : s.fillFire p = false := by simp [fillFire, hb]
  have hp : (s.next p i).popped none = 0 := by rw [popped, next_st, h₇]; rfl
  have hen : (s.next p i).entered 0 = 0 := Nat.zero_sub _
  constructor
  case busy => exact h₁
  case done => exact h₂
  case conf => exact hc'
  case le => exact Nat.zero_le _
  case fillLeft => rw [next_st, h₆, hN, Nat.mod_eq_of_lt (by omega), Nat.sub_zero]
  case fillGrp => exact fun _ => h₅
  case stage =>
    intro h
    rw [next_st, h₈, hv] at h
    cases h
  case flow => exact fun _ => .inr rfl
  case order => rw [hp, hen]
  case fifo =>
    rw [he, hp, hen]
    rfl
  case sent =>
    rw [next_st, h₇]
    exact hF.pos
  case dvd =>
    rw [next_st, h₇]
    exact dvd_zero _
  case addr =>
    rw [next_st, h₃, h₇, StoreConfig.addr]
    simp
  case rowBase =>
    intro _
    rw [next_st, h₄, h₇]
    simp
  case serve => exact nofun

end MmAccel

/-! ## Memory -/

/-- A line of memory depends on its bytes. -/
theorem Mem.line_congr {m m' : Mem} {a : Word} (h : ∀ y, lineNo y = lineNo a → m' y = m y) :
    m'.line a = m.line a := by
  apply line_ext
  intro o
  have ho : offsetOf (lineNo a ++ o) = o := BitVec.extractLsb'_append_eq_right
  have hl : lineNo (lineNo a ++ o) = lineNo a := BitVec.extractLsb'_append_eq_left
  rw [← ho, Mem.lineByte_line _ hl, Mem.lineByte_line _ hl, h _ hl]

/-- The first `k` of `N` lines are in memory, and outside of these it is as it was. -/
structure LinesIn (addr : ℕ → Word) (line : ℕ → Line) (N k : ℕ) (m₀ m : Mem) : Prop where
  lines : ∀ j < k, m.line (addr j) = line j
  frame : ∀ y, (∀ j < N, lineNo y ≠ lineNo (addr j)) → m y = m₀ y

section

variable {addr : ℕ → Word} {line : ℕ → Line} {N k : ℕ} {m₀ m m' : Mem}

theorem LinesIn.refl (m : Mem) : LinesIn addr line N 0 m m :=
  ⟨fun _ h => absurd h (Nat.not_lt_zero _), fun _ _ => rfl⟩

/-- A transaction over the lines from `k` on leaves the others alone. -/
theorem LinesIn.frame_next (h : LinesIn addr line N k m₀ m) {B : ℕ} (hB : k + B ≤ N)
    (hinj : ∀ j < N, ∀ j' < N, lineNo (addr j) = lineNo (addr j') → j = j')
    (hf : ∀ y, (∀ j < B, lineNo y ≠ lineNo (addr (k + j))) → m' y = m y) :
      LinesIn addr line N k m₀ m' := by
  refine ⟨fun j hj => ?_, fun y hy => ?_⟩
  · rw [← h.lines j hj]
    refine Mem.line_congr fun y hy => hf y fun l hl he => ?_
    have := hinj j (by omega) (k + l) (by omega) (hy.symm.trans he)
    omega
  · rw [← h.frame y hy]
    exact hf y fun l hl => hy _ (by omega)

/-- The lines of the transaction are in memory when it ends. -/
theorem LinesIn.lines_next (h : LinesIn addr line N k m₀ m') {B : ℕ}
    (hl : ∀ j < B, m'.line (addr (k + j)) = line (k + j)) : LinesIn addr line N (k + B) m₀ m' := by
  refine ⟨fun j hj => ?_, h.frame⟩
  by_cases hk : j < k
  · exact h.lines j hk
  · obtain ⟨l, rfl⟩ := Nat.exists_eq_add_of_le (Nat.not_lt.1 hk)
    exact hl l (by omega)

end

namespace MmAccel

variable {p : MmParams} {s : MmAccel} {i : MmInputs} {c : StoreConfig} {dest : Word} {line : ℕ → Line}
  {x : Option WriteTransfer} {f : ℕ}

/-- One edge of a store, with the memory. -/
theorem Storing.step (h : Storing p c dest line s x f) (hc : c.Fits p) (ha : StoreAlone p c line s i f)
    (hinj : ∀ j < c.nGroupsEff, ∀ j' < c.nGroupsEff,
      lineNo (c.addr p dest j) = lineNo (c.addr p dest j') → j = j')
    {m₀ m m' : Mem} (hm : LinesIn (c.addr p dest) line c.nGroupsEff s.st.dmaSent m₀ m)
    (grant : Bool) {look : Bool} (hs : s.WriteServes i look x m m') :
    (∃ f' ≥ f, Storing p c dest line (s.next p i) (s.wrNext p i grant look x) f' ∧
        LinesIn (c.addr p dest) line c.nGroupsEff (s.next p i).st.dmaSent m₀ m') ∨
      ((s.next p i).st.dmaBusy = false ∧ (s.next p i).st.dmaDone = true ∧ (s.next p i).st.lineFifo = [] ∧
        (s.next p i).st.fillValid = false ∧ s.wrNext p i grant look x = none ∧
        LinesIn (c.addr p dest) line c.nGroupsEff c.nGroupsEff m₀ m') := by
  have hadd := hc.add_le h.dvd h.sent
  -- the transaction covers the lines from `dmaSent` on
  have hat : ∀ t, x = some t → t.lines = c.wBurstLines ∧
      ∀ k < c.wBurstLines, t.at k = c.addr p dest (s.st.dmaSent + k) := by
    intro t ht
    obtain ⟨h₁, h₂, -⟩ := h.serve t ht
    refine ⟨h₂, fun k hk => ?_⟩
    rw [WriteTransfer.at, h₁, h.addr, hc.addr_add h.dvd hk]
  have hmem : LinesIn (c.addr p dest) line c.nGroupsEff s.st.dmaSent m₀ m' := by
    refine hm.frame_next hadd hinj fun y hy => ?_
    rcases x with _ | t
    · rw [hs.idle rfl]
    · refine hs.frame t rfl y fun k hk => ?_
      rw [(hat t rfl).1] at hk
      rw [(hat t rfl).2 k hk]
      exact hy k hk
  cases hw : i.memWrReady with
  | false =>
    obtain ⟨f', hf', hst⟩ := h.next_hold hc ha grant hs hw
    have hsent : (s.next p i).st.dmaSent = s.st.dmaSent := (ha.nextSt_hold hw).2.2.1
    exact .inl ⟨f', hf', hst, hsent ▸ hmem⟩
  | true =>
    obtain ⟨t, rfl, -⟩ := hs.ready hw
    obtain ⟨-, -, hlines, -⟩ := h.ready_cases hs hw
    have hx : s.wrNext p i grant look (some t) = none := by rw [wrNext, hw, if_pos rfl]
    have hend : LinesIn (c.addr p dest) line c.nGroupsEff (s.st.dmaSent + c.wBurstLines) m₀ m' := by
      refine hmem.lines_next fun k hk => ?_
      rw [← (hat t rfl).2 k hk, hlines k hk]
    rw [hx]
    by_cases hlt : s.st.dmaSent + c.wBurstLines < c.nGroupsEff
    · obtain ⟨f', hf', hst, hsent⟩ := h.next_ready hc ha hs hw hlt
      exact .inl ⟨f', hf', hst, hsent ▸ hend⟩
    · obtain ⟨h₁, h₂, h₃, h₄⟩ := h.finish hc ha hs hw hlt
      refine .inr ⟨h₁, h₂, h₃, h₄, rfl, ?_⟩
      rwa [show s.st.dmaSent + c.wBurstLines = c.nGroupsEff by omega] at hend

/-! ## Whatever the lines hold -/

section Underway

variable {p : MmParams} {s : MmAccel} {i : MmInputs} {c : StoreConfig} {dest : Word} {line : ℕ → Line}
  {x : Option WriteTransfer} {f : ℕ}

/-- A store is under way: `f` lines have been taken from the accumulators. -/
def StoreUnderway (p : MmParams) (c : StoreConfig) (s : MmAccel) (x : Option WriteTransfer)
    (f : ℕ) : Prop :=
  ∃ line dest, Storing p c dest line s x f

/-- The line that is taken next may be any one. -/
theorem Storing.congr_line (h : Storing p c dest line s x f) (v : Line) :
    Storing p c dest (Function.update line f v) s x f := by
  have he := h.entered_add
  have hord := h.order
  have hbelow : ∀ a n, a + n ≤ f →
      (List.range' a n).map line = (List.range' a n).map (Function.update line f v) := by
    intro a n hle
    refine List.map_congr_left fun k hk => ?_
    rw [List.mem_range'_1] at hk
    rw [Function.update_of_ne (by omega)]
  refine
    { h with
      stage := fun hv => ?_
      fifo := h.fifo.trans (hbelow _ _ (by omega))
      serve := fun t ht => ?_ }
  · obtain ⟨h₁, h₂⟩ := h.stage hv
    exact ⟨h₁, by rw [h₂, Function.update_of_ne (by omega)]⟩
  · obtain ⟨h₁, h₂, h₃, h₄, h₅, h₆, h₇⟩ := h.serve t ht
    refine ⟨h₁, h₂, h₃, h₄.trans (hbelow _ _ ?_), h₅, h₆, h₇⟩
    simp only [popped, ht, Option.map_some, Option.getD_some] at h₇
    omega

/-- How far a store has come: the lines that have been acknowledged, taken, and have entered the FIFO. -/
def storeProgress (c : StoreConfig) (s : MmAccel) : ℕ :=
  s.st.dmaSent + (2 * (c.nGroupsEff - s.st.fillLeft) - s.st.fillValid.toNat)

namespace StoreUnderway

theorem busy (h : StoreUnderway p c s x f) : s.st.dmaBusy = true ∧ s.st.dmaDone = false ∧
    s.storeConfig p = c := by
  obtain ⟨line, dest, h⟩ := h
  exact ⟨h.busy, h.done, h.conf⟩

theorem progress_lt (h : StoreUnderway p c s x f) (hc : c.Fits p) : storeProgress c s < 200 := by
  obtain ⟨line, dest, h⟩ := h
  have h₁ := h.sent
  have h₂ := hc.le
  rw [storeProgress]
  omega

/-- A store that has nothing on its way into the FIFO asks for the channel, or has it. -/
theorem asks (h : StoreUnderway p c s x f) (hf : ¬f < c.nGroupsEff) (hv : s.st.fillValid = false)
    (hx : x = none) :
    s.memWrReqValid = true := by
  obtain ⟨line, dest, h⟩ := h
  have hlen := h.length_fifo
  have hent := h.entered_add
  have hsent := h.sent
  rw [hv, Bool.toNat_false] at hent
  simp only [popped, hx, Option.map_none, Option.getD_none] at hlen
  have hne : s.st.lineFifo ≠ [] := by
    intro hnil
    rw [hnil, List.length_nil] at hlen
    omega
  simp [memWrReqValid, h.busy, hne]

/-- The stages of the fill make progress until everything is in the FIFO. -/
theorem fill_progress (h : Storing p c dest line s x f) (hc : c.Fits p)
    (ha : StoreAlone p c line s i f) :
    2 * (c.nGroupsEff - s.st.fillLeft) - s.st.fillValid.toNat ≤
        2 * (c.nGroupsEff - (s.nextSt p i).fillLeft) - (s.nextSt p i).fillValid.toNat ∧
      (f < c.nGroupsEff ∨ s.st.fillValid = true →
        2 * (c.nGroupsEff - s.st.fillLeft) - s.st.fillValid.toNat <
        2 * (c.nGroupsEff - (s.nextSt p i).fillLeft) - (s.nextSt p i).fillValid.toNat) := by
  obtain ⟨-, hleft, hvalid, -⟩ := ha.nextSt_fill
  have hfire := h.fillFire_eq hc
  have hent := h.entered_add
  have hfl := h.fillLeft
  have hf := h.le
  rw [hleft, hvalid, hfire]
  by_cases hlt : f < c.nGroupsEff
  · simp only [hlt, decide_true, if_true, Bool.toNat_true]
    omega
  · simp only [hlt, decide_false, Bool.false_eq_true, if_false, Bool.toNat_false]
    cases hv : s.st.fillValid
    · exact ⟨le_rfl, fun hor => absurd hor (by simp)⟩
    · rw [hv, Bool.toNat_true] at hent
      rw [Bool.toNat_true]
      exact ⟨by omega, fun _ => by omega⟩

/-- One edge: the store goes on, and comes nearer to its end while lines are on their way into the
    FIFO and with every acknowledgement, or it is over. -/
theorem next (h : StoreUnderway p c s x f) (hc : c.Fits p) (hr : s.softRstPulse i = false)
    (hs : s.dmaStartAny i = false) (hconf : (s.next p i).storeConfig p = c) (grant : Bool)
    {look : Bool} {m m' : Mem} (hw : s.WriteServes i look x m m') :
    ((∃ f', StoreUnderway p c (s.next p i) (s.wrNext p i grant look x) f') ∧
        storeProgress c s ≤ storeProgress c (s.next p i) ∧
        (f < c.nGroupsEff ∨ s.st.fillValid ∨ i.memWrReady →
          storeProgress c s < storeProgress c (s.next p i))) ∨
      ((s.next p i).st.dmaBusy = false ∧ (s.next p i).st.dmaDone = true ∧ (s.next p i).st.lineFifo = [] ∧
        (s.next p i).st.fillValid = false ∧ s.wrNext p i grant look x = none) := by
  obtain ⟨line, dest, h'⟩ := h
  have h := h'.congr_line ((s.next p i).lineOut p)
  have ha : StoreAlone p c (Function.update line f ((s.next p i).lineOut p)) s i f :=
    ⟨hr, hs, hconf, fun _ => by rw [Function.update_self]⟩
  obtain ⟨hle, hlt⟩ := fill_progress h hc ha
  rw [storeProgress, storeProgress, next_st]
  cases hready : i.memWrReady with
  | false =>
    -- only the fill pointer and the stage can bring it nearer
    obtain ⟨f', -, hst⟩ := h.next_hold hc ha grant hw hready
    rw [(ha.nextSt_hold hready).2.2.1]
    refine .inl ⟨⟨f', _, _, hst⟩, by omega, fun hor => ?_⟩
    have := hlt (by tauto)
    omega
  | true =>
    obtain ⟨t, rfl, -⟩ := hw.ready hready
    have hx : s.wrNext p i grant look (some t) = none := by rw [wrNext, hready, if_pos rfl]
    have hburst := hc.burst
    rw [hx]
    by_cases hend : s.st.dmaSent + c.wBurstLines < c.nGroupsEff
    · -- a transaction is through
      obtain ⟨f', -, hst, hsent⟩ := h.next_ready hc ha hw hready hend
      rw [next_st] at hsent
      rw [hsent]
      exact .inl ⟨⟨f', _, _, hst⟩, by omega, fun _ => by omega⟩
    · -- the last one
      obtain ⟨h₁, h₂, h₃, h₄⟩ := h.finish hc ha hw hready hend
      exact .inr ⟨h₁, h₂, h₃, h₄, rfl⟩

end StoreUnderway

end Underway

end MmAccel

/-! ## A run -/

/-- A store is started on the cycle `a`, while none runs, no write is in flight and the FIFO is empty,
    and nothing interferes with it until it is done. -/
structure StoreRun (p : MmParams) (σ : ℕ → MmAccel) (ι : ℕ → MmInputs)
    (χ : ℕ → Option WriteTransfer) (μ : ℕ → Mem) (a : ℕ) : Prop where
  next : ∀ n, σ (n + 1) = (σ n).next p (ι n)
  serve : WriteService p σ ι χ μ
  start : (σ a).dmaStartAny (ι a)
  reset : (σ a).softRstPulse (ι a) = false
  rest : (σ a).st.dmaBusy = false
  free : χ a = none
  empty : (σ (a + 1)).st.lineFifo = []
  conf : (σ (a + 1)).storeConfig p = (σ a).storeConfig p
  alone : ∀ n, a < n → (∀ k, a < k → k ≤ n → (σ k).st.dmaDone = false) →
    (σ n).softRstPulse (ι n) = false ∧ (σ n).dmaStartAny (ι n) = false ∧
      (σ (n + 1)).storeConfig p = (σ a).storeConfig p ∧
      ((σ n).st.fillLeft ≠ 0 → (σ (n + 1)).arr.acc = (σ n).arr.acc)

/-- The write channel grants every request in the end, and acknowledges every transaction. -/
structure WriteFair (σ : ℕ → MmAccel) (ι : ℕ → MmInputs) (χ : ℕ → Option WriteTransfer) :
    Prop where
  grant : ∀ n, χ n = none → (σ n).memWrReqValid → ∃ k ≥ n, χ (k + 1) ≠ none
  serve : ∀ n, χ n ≠ none → ∃ k ≥ n, (ι k).memWrReady

/-- A channel that serves every transaction lets every store end. -/
theorem MmAccel.StoreUnderway.ends {p : MmParams} {σ : ℕ → MmAccel} {ι : ℕ → MmInputs}
    {χ : ℕ → Option WriteTransfer}
    {μ : ℕ → Mem} {c : StoreConfig} {a f : ℕ} (h : StoreUnderway p c (σ a) (χ a) f) (hc : c.Fits p)
    (hnext : ∀ n ≥ a, σ (n + 1) = (σ n).next p (ι n)) (hs : WriteService p σ ι χ μ)
    (hf : WriteFair σ ι χ)
    (halone : ∀ n ≥ a, (∀ k ≥ a, k ≤ n → (σ k).st.dmaDone = false) →
      (σ n).softRstPulse (ι n) = false ∧
      (σ n).dmaStartAny (ι n) = false ∧ (σ (n + 1)).storeConfig p = c) :
    ∃ e ≥ a, (σ e).st.dmaDone := by
  by_contra hcon
  have hno : ∀ k ≥ a, (σ k).st.dmaDone = false :=
    fun k hk => Bool.eq_false_iff.2 fun hd => hcon ⟨k, hk, hd⟩
  have hstep : ∀ n ≥ a, ∀ f, StoreUnderway p c (σ n) (χ n) f →
    (∃ f', StoreUnderway p c (σ (n + 1)) (χ (n + 1)) f') ∧
      storeProgress c (σ n) ≤ storeProgress c (σ (n + 1)) ∧
      (f < c.nGroupsEff ∨ (σ n).st.fillValid ∨ (ι n).memWrReady →
        storeProgress c (σ n) < storeProgress c (σ (n + 1))) := by
    intro n hn f hst
    obtain ⟨g, l, hx, hw⟩ := hs n
    obtain ⟨h₁, h₂, h₃⟩ := halone n hn fun k hk _ => hno k hk
    rw [hnext n hn] at h₃
    rw [hnext n hn, hx]
    refine (hst.next hc h₁ h₂ h₃ g hw).resolve_right fun ⟨_, hdone, _⟩ => ?_
    have := hno (n + 1) (Nat.le_succ_of_le hn)
    rw [hnext n hn, hdone] at this
    cases this
  have hall : ∀ n ≥ a, ∃ f, StoreUnderway p c (σ n) (χ n) f := by
    intro n hn
    induction n, hn using Nat.le_induction with
    | base => exact ⟨f, h⟩
    | succ n hn ih =>
      obtain ⟨f, hf⟩ := ih
      exact (hstep n hn f hf).1
  have hmono : ∀ n ≥ a, ∀ k ≥ n, storeProgress c (σ n) ≤ storeProgress c (σ k) := by
    intro n hn k hk
    induction k, hk using Nat.le_induction with
    | base => exact le_rfl
    | succ k hk ih =>
      obtain ⟨f, hf⟩ := hall k (hn.trans hk)
      exact ih.trans (hstep k (hn.trans hk) f hf).2.1
  -- a transaction that is served brings an acknowledgement
  have hserved : ∀ n ≥ a, χ n ≠ none →
      ∃ k ≥ n, storeProgress c (σ n) < storeProgress c (σ k) := by
    intro n hn hx
    obtain ⟨k, hk, hr⟩ := hf.serve n hx
    obtain ⟨f, hf⟩ := hall k (hn.trans hk)
    exact ⟨k + 1, Nat.le_succ_of_le hk, (hmono n hn k hk).trans_lt ((hstep k (hn.trans hk) f hf).2.2
      (.inr (.inr hr)))⟩
  obtain ⟨k, hk, hle⟩ := Circuit.exists_le_of_grows (fun n hn => by
    obtain ⟨f, hst⟩ := hall n hn
    by_cases hfill : f < c.nGroupsEff ∨ (σ n).st.fillValid
    · exact ⟨n + 1, n.le_succ, (hstep n hn f hst).2.2 (by tauto)⟩
    push Not at hfill
    by_cases hx : χ n = none
    · obtain ⟨k, hk, hx'⟩ := hf.grant n hx (hst.asks (Nat.not_lt.2 hfill.1)
      (Bool.eq_false_iff.2 hfill.2) hx)
      obtain ⟨l, hl, hlt⟩ := hserved (k + 1) (Nat.le_succ_of_le (hn.trans hk)) hx'
      exact ⟨l, (Nat.le_succ_of_le hk).trans hl,
        (hmono n hn (k + 1) (Nat.le_succ_of_le hk)).trans_lt hlt⟩
    · exact hserved n hn hx) 200
  obtain ⟨f, hst⟩ := hall k hk
  exact absurd (hst.progress_lt hc) (Nat.not_lt.2 hle)

namespace StoreRun

open MmAccel

variable {p : MmParams} {σ : ℕ → MmAccel} {ι : ℕ → MmInputs} {χ : ℕ → Option WriteTransfer}
  {μ : ℕ → Mem} {a : ℕ}

/-- The line `k` of the tile that is stored. -/
def line (p : MmParams) (σ : ℕ → MmAccel) (a k : ℕ) : Line :=
  resultLine p ((σ a).storeConfig p).int8Mode ((σ a).storeConfig p).outShift (σ (a + 1)).arr.acc k

/-- The lines of the tile fall on different lines of memory. -/
def Apart (p : MmParams) (σ : ℕ → MmAccel) (a : ℕ) : Prop :=
  ∀ j < ((σ a).storeConfig p).nGroupsEff, ∀ j' < ((σ a).storeConfig p).nGroupsEff,
    lineNo (((σ a).storeConfig p).addr p (σ a).regs.destAddr j) =
      lineNo (((σ a).storeConfig p).addr p (σ a).regs.destAddr j') → j = j'

/-- The first cycle of a store. -/
theorem first (h : StoreRun p σ ι χ μ a) (hd : p.GoodDim) :
    Storing p ((σ a).storeConfig p) (σ a).regs.destAddr (line p σ a) (σ (a + 1)) (χ (a + 1)) 0 ∧
      (σ (a + 1)).st.dmaSent = 0 ∧ μ (a + 1) = μ a := by
  obtain ⟨g, l, hx, hs⟩ := h.serve a
  have hst : Storing p ((σ a).storeConfig p) (σ a).regs.destAddr (line p σ a) (σ (a + 1)) none 0 := by
    have he := h.empty
    have hc := h.conf
    rw [h.next a] at he hc ⊢
    exact storing_of_dmaStartAny hd h.start h.reset h.rest he rfl hc
  have hnone : χ (a + 1) = none := by
    rw [hx, h.free, wrNext, memWrReqValid, h.rest]
    simp
  refine ⟨hnone ▸ hst, ?_, hs.idle h.free⟩
  have := hst.order
  simp only [popped, entered, Option.map_none, Option.getD_none] at this
  omega

/-- Up to its end a store is under way, with as many lines in memory as have been acknowledged; then
    all of them are, and the FIFO is empty. -/
theorem progress (h : StoreRun p σ ι χ μ a) (hd : p.GoodDim) (hinj : Apart p σ a) {n : ℕ} (hn : a < n)
    (hno : ∀ k, a < k → k < n → (σ k).st.dmaDone = false) :
    (∃ f, Storing p ((σ a).storeConfig p) (σ a).regs.destAddr (line p σ a) (σ n) (χ n) f ∧
      LinesIn (((σ a).storeConfig p).addr p (σ a).regs.destAddr) (line p σ a)
        ((σ a).storeConfig p).nGroupsEff
        (σ n).st.dmaSent (μ a) (μ n) ∧
      (f < ((σ a).storeConfig p).nGroupsEff → (σ n).arr.acc = (σ (a + 1)).arr.acc)) ∨
    ((σ n).st.dmaDone = true ∧ (σ n).st.lineFifo = [] ∧
      LinesIn (((σ a).storeConfig p).addr p (σ a).regs.destAddr) (line p σ a)
        ((σ a).storeConfig p).nGroupsEff
        ((σ a).storeConfig p).nGroupsEff (μ a) (μ n)) := by
  have hF := fits_storeConfig (p := p) (σ a) hd
  induction n, hn using Nat.le_induction with
  | base =>
    obtain ⟨hst, hsent, hmu⟩ := h.first hd
    refine .inl ⟨0, hst, ?_, fun _ => rfl⟩
    rw [hsent, hmu]
    exact .refl _
  | succ n hn ih =>
    have hdone : (σ n).st.dmaDone = false := hno n hn n.lt_succ_self
    rcases ih fun k h₁ h₂ => hno k h₁ (h₂.trans n.lt_succ_self) with
      ⟨f, hst, hmem, hacc⟩ | ⟨hd', -⟩
    swap
    · rw [hd'] at hdone
      cases hdone
    obtain ⟨g, l, hx, hs⟩ := h.serve n
    obtain ⟨ha₁, ha₂, ha₃, ha₄⟩ := h.alone n hn fun k h₁ h₂ =>
      hno k h₁ (Nat.lt_succ_of_le h₂)
    rw [h.next n] at ha₃ ha₄
    have hleft : f < ((σ a).storeConfig p).nGroupsEff → (σ n).st.fillLeft ≠ 0 := by
      rw [hst.fillLeft]
      omega
    -- the accumulators are as they were when the store began, as long as they are read
    have halone : StoreAlone p ((σ a).storeConfig p) (line p σ a) (σ n) (ι n) f := by
      refine ⟨ha₁, ha₂, ha₃, fun hfire => ?_⟩
      have hf : f < ((σ a).storeConfig p).nGroupsEff := of_decide_eq_true ((hst.fillFire_eq hF) ▸ hfire)
      rw [lineOut_next hd hst.conf ha₃ hf (hst.fillGrp hf) (ha₄ (hleft hf)), hacc hf]
      rfl
    rw [h.next n, hx]
    rcases hst.step hF halone hinj hmem g hs with ⟨f', hf', hst', hmem'⟩ | ⟨-, hd', he, -, -, hmem'⟩
    · refine .inl ⟨f', hst', hmem', fun hlt => ?_⟩
      have hf := lt_of_le_of_lt hf' hlt
      rw [ha₄ (hleft hf), hacc hf]
    · exact .inr ⟨hd', he, hmem'⟩

/-- A channel that serves every transaction lets every store end. -/
theorem ends (h : StoreRun p σ ι χ μ a) (hd : p.GoodDim) (hf : WriteFair σ ι χ) :
    ∃ e > a, (σ e).st.dmaDone := by
  have hfirst : StoreUnderway p ((σ a).storeConfig p) (σ (a + 1)) (χ (a + 1)) 0 := ⟨_, _, (h.first hd).1⟩
  exact hfirst.ends (fits_storeConfig (σ a) hd) (fun n _ => h.next n) h.serve hf fun n hn hno => by
    obtain ⟨h₁, h₂, h₃, -⟩ := h.alone n hn hno
    exact ⟨h₁, h₂, h₃⟩

end StoreRun

/-! ## The image of a tile -/

/-- An address is in the line of an aligned one exactly at the sixteen places from there on. -/
theorem exists_eq_add_of_lineNo_eq {x y : Word} (hx : x.toNat % 16 = 0) (h : lineNo y = lineNo x) :
    ∃ o < 16, y = x + BitVec.ofNat 32 o := by
  refine ⟨(offsetOf y).toNat, (offsetOf y).isLt, ?_⟩
  obtain ⟨hl, ho⟩ := lineNo_add_ofNat hx (offsetOf y).isLt
  have ho' : offsetOf (x + BitVec.ofNat 32 (offsetOf y).toNat) = offsetOf y := by
    rw [ho, BitVec.ofNat_toNat, BitVec.setWidth_eq]
  calc y = (lineNo y ++ offsetOf y : BitVec 32) := (lineNo_append_offsetOf y).symm
    _ = x + BitVec.ofNat 32 (offsetOf y).toNat := by
      rw [h, ← hl]
      exact (congrArg _ ho'.symm).trans (lineNo_append_offsetOf _)

theorem eq_of_lineNo_eq {x y : Word} (hx : x.toNat % 16 = 0) (hy : y.toNat % 16 = 0)
    (h : lineNo x = lineNo y) :
    x = y := by
  apply BitVec.eq_of_toNat_eq
  have hn := congrArg BitVec.toNat h
  have hx' := x.isLt
  have hy' := y.isLt
  rw [lineNo, lineNo, BitVec.extractLsb'_toNat, BitVec.extractLsb'_toNat, Nat.shiftRight_eq_div_pow,
    Nat.shiftRight_eq_div_pow] at hn
  omega

/-- The words of a line of memory are those at its addresses. -/
theorem Mem.lineWord_line (m : Mem) {x : Word} (hx : x.toNat % 16 = 0) {w : ℕ} (hw : w < 4) :
    lineWord (m.line x) (BitVec.ofNat 2 w) = m.word (x + BitVec.ofNat 32 (4 * w)) := by
  obtain ⟨hl, ho⟩ := lineNo_add_ofNat hx (show 4 * w < 16 by omega)
  have hb : (x + BitVec.ofNat 32 (4 * w)).extractLsb' 2 2 = BitVec.ofNat 2 w := by
    rw [← bankOf_offsetOf, ho]
    have : ∀ w < 4, bankOf (BitVec.ofNat 4 (4 * w)) = BitVec.ofNat 2 w := by decide
    exact this w hw
  have hno : wordNo (x + BitVec.ofNat 32 (4 * w)) =
      wordNo (lineNo x ++ BitVec.ofNat 2 w ++ 0#2 : BitVec 32) := by
    rw [wordNo_eq_append, hl, hb]
    exact BitVec.extractLsb'_append_eq_left.symm
  rw [Mem.line, lineWord_lineOfWords, Mem.word, Mem.word, hno]

/-- A line from its bytes has these. -/
theorem MmAccel.lineByte_lineOfBytes (f : ℕ → Byte) {b : ℕ} (hb : b < 16) :
    lineByte (lineOfBytes f) (BitVec.ofNat 4 b) = f b := by
  have hpos : ∀ b < 16, 4 * (bankOf (BitVec.ofNat 4 b)).toNat +
    (laneOf (BitVec.ofNat 4 b)).toNat = b := by decide
  have hbyte : ∀ k l : BitVec 2,
      byteOf (f (4 * k.toNat + 3) ++ f (4 * k.toNat + 2) ++ f (4 * k.toNat + 1) ++ f (4 * k.toNat)) l =
        f (4 * k.toNat + l.toNat) := by
    intro k l
    apply BitVec.eq_of_getLsbD_eq
    intro i hi
    rcases bitVec2_cases l with rfl | rfl | rfl | rfl <;> simp [byteOf, hi] <;> grind
  rw [lineOfBytes, lineByte_lineOfWords, hbyte, hpos b hb]

/-- Rounding, shifting and saturating, over the integers. -/
theorem MmAccel.toInt_requant (n : ℕ) (acc : Word) :
    (requant n acc).toInt =
      max (-128) (min 127 ((acc.toInt + if n = 0 then 0 else 2 ^ (n - 1)) / 2 ^ n)) := by
  unfold requant
  dsimp only
  generalize (acc.toInt + if n = 0 then 0 else 2 ^ (n - 1)) / 2 ^ n = z
  split
  · rw [min_eq_left (by omega)]
    rfl
  · split
    · rw [min_eq_right (by omega), max_eq_left (by omega)]
      rfl
    · rw [min_eq_right (by omega), max_eq_right (by omega), BitVec.toInt_ofInt,
        Int.bmod_eq_of_le] <;> omega

namespace MmAccel.StoreConfig

variable (p : MmParams) (c : StoreConfig)

/-- The distance of the rows of words in memory. -/
def rowDistance : Word := if c.destStride = 0 ∨ p.dim = 2 then BitVec.ofNat 32 (4 * p.dim)
    else c.destStride

/-- The place of the byte `t` of a tile, from where it is stored. -/
def place (t : ℕ) : Word :=
  if c.int8Mode then BitVec.ofNat 32 t
  else BitVec.ofNat 32 (t / (4 * p.dim)) * c.rowDistance p + BitVec.ofNat 32 (t % (4 * p.dim))

/-- The rows of words do not run into each other, which they can do around the end of the address
    space. -/
def RowsApart : Prop :=
  ∀ i < p.dim, ∀ j < p.dim, i ≠ j → ∀ x < 4 * p.dim, ∀ y < 4 * p.dim,
    BitVec.ofNat 32 i * c.rowDistance p + BitVec.ofNat 32 x ≠
      BitVec.ofNat 32 j * c.rowDistance p + BitVec.ofNat 32 y

variable {p c} {dest : Word}

/-- The bytes of the tile: those of its lines. -/
theorem add_place (hd : p.GoodDim) (hc : c.Fits p)
    (hN : 16 * c.nGroupsEff = if c.int8Mode then p.dim * p.dim else 4 * p.dim * p.dim) {t : ℕ}
    (ht : t < 16 * c.nGroupsEff) :
    c.addr p dest (t / 16) + BitVec.ofNat 32 (t % 16) = dest + c.place p t := by
  -- without gaps the bytes follow each other
  have hcat : c.rowDistance p = BitVec.ofNat 32 (4 * p.dim) ∨ c.int8Mode = true →
      c.place p t = BitVec.ofNat 32 t := by
    rintro h
    unfold place
    split
    · rfl
    · rw [h.resolve_right ‹_›, ← BitVec.ofNat_mul, ← BitVec.ofNat_add, Nat.mul_comm, Nat.div_add_mod]
  have hflat : dest + BitVec.ofNat 32 (16 * (t / 16)) + BitVec.ofNat 32 (t % 16) =
      dest + BitVec.ofNat 32 t := by
    rw [BitVec.add_assoc, ← BitVec.ofNat_add, Nat.div_add_mod]
  cases hg : c.contig p
  · have hcontig : ((c.destStride == 0 || c.destStride == BitVec.ofNat 32 (4 * p.dim)) ||
      c.int8Mode) = false := hg
    simp only [Bool.or_eq_false_iff, beq_eq_false_iff_ne] at hcontig
    obtain ⟨⟨hs, -⟩, hm⟩ := hcontig
    rcases hc.rows hg with h1 | ⟨hp, -⟩
    · have h2 : p.dim = 2 := by
        rw [hm, if_neg Bool.false_ne_true, h1] at hN
        rcases hd with h | h | h | h <;> simp [h] at hN ⊢
      have ht0 : t / 16 = 0 := by omega
      rw [hcat (.inl (if_pos (.inr h2))), ← hflat, ht0, addr, hg, if_neg Bool.false_ne_true]
      simp
    · have hdim : p.dim ≠ 2 ∧ 16 * p.perRow = 4 * p.dim := by
        rcases hd.cases with ⟨-, -, h, -⟩ | ⟨h', -, h, -⟩ | ⟨h', -, h, -⟩ |
          ⟨h', -, h, -⟩ <;> omega
      have hS : c.rowDistance p = c.stride p := by
        rw [rowDistance, if_neg (by tauto), stride, if_neg hs]
      rw [addr, hg, if_neg Bool.false_ne_true, place, hm, if_neg Bool.false_ne_true, hS,
        ← hdim.2, Nat.mod_mul,
        ← Nat.div_div_eq_div_mul, BitVec.add_assoc, ← BitVec.ofNat_add, BitVec.add_assoc,
        Nat.add_comm (t % 16)]
  · rw [addr, hg, if_pos rfl, hflat, hcat]
    have hcontig : ((c.destStride == 0 || c.destStride == BitVec.ofNat 32 (4 * p.dim)) ||
      c.int8Mode) = true := hg
    simp only [Bool.or_eq_true, beq_iff_eq] at hcontig
    rcases hcontig with (h | h) | h
    · exact .inl (if_pos (.inl h))
    · refine .inl ?_
      rw [rowDistance, h, ite_self]
    · exact .inr h

/-- The bytes of the tile fall on different places. -/
theorem place_injOn (hd : p.GoodDim) (hN : 16 * c.nGroupsEff = if c.int8Mode then p.dim * p.dim
    else 4 * p.dim * p.dim)
    (hr : c.int8Mode = false → c.RowsApart p) : Set.InjOn (c.place p) {t | t < 16 * c.nGroupsEff} := by
  intro t ht t' ht' h
  obtain ⟨hpos, hle⟩ := hd.le
  have hsq : p.dim * p.dim ≤ 16 * 16 := Nat.mul_le_mul hle hle
  have hinj : ∀ {x y : ℕ}, x < 2 ^ 32 → y < 2 ^ 32 →
      BitVec.ofNat 32 x = BitVec.ofNat 32 y → x = y := by
    intro x y hx hy hxy
    have := congrArg BitVec.toNat hxy
    rwa [BitVec.toNat_ofNat, BitVec.toNat_ofNat, Nat.mod_eq_of_lt hx, Nat.mod_eq_of_lt hy] at this
  change t < _ at ht
  change t' < _ at ht'
  rw [hN] at ht ht'
  unfold place at h
  cases hm : c.int8Mode
  · -- words: the rows are apart, so it is the same row, and the same byte of it
    rw [hm, if_neg Bool.false_ne_true] at ht ht'
    rw [hm, if_neg Bool.false_ne_true, if_neg Bool.false_ne_true] at h
    have hx : ∀ t, t % (4 * p.dim) < 4 * p.dim := fun t => Nat.mod_lt _ (by omega)
    have hx₁ := hx t
    have hx₂ := hx t'
    have hi : t / (4 * p.dim) = t' / (4 * p.dim) := by
      by_contra hne
      exact hr hm _ (Nat.div_lt_of_lt_mul ht) _ (Nat.div_lt_of_lt_mul ht') hne _ hx₁ _ hx₂ h
    rw [hi] at h
    have hmod := hinj (by omega) (by omega) ((BitVec.add_right_inj _).1 h)
    rw [← Nat.div_add_mod t (4 * p.dim), hi, hmod, Nat.div_add_mod]
  · rw [hm, if_pos rfl] at ht ht'
    rw [hm, if_pos rfl, if_pos rfl] at h
    exact hinj (by omega) (by omega) h

/-- Rows that follow each other lie apart. -/
theorem rowsApart_of_contig (hd : p.GoodDim) (h : c.destStride = 0 ∨ p.dim = 2) : c.RowsApart p := by
  intro i hi j hj hij x hx y hy he
  obtain ⟨hpos, hle⟩ := hd.le
  rw [rowDistance, if_pos h, ← BitVec.ofNat_mul, ← BitVec.ofNat_mul, ← BitVec.ofNat_add,
    ← BitVec.ofNat_add] at he
  have hb : ∀ k < p.dim, ∀ z < 4 * p.dim, k * (4 * p.dim) + z < 2 ^ 32 := by
    intro k hk z hz
    have : k * (4 * p.dim) ≤ 16 * 64 := Nat.mul_le_mul (by omega) (by omega)
    omega
  have hn := congrArg BitVec.toNat he
  rw [BitVec.toNat_ofNat, BitVec.toNat_ofNat, Nat.mod_eq_of_lt (hb i hi x hx),
    Nat.mod_eq_of_lt (hb j hj y hy)] at hn
  have hdiv := congrArg (· / (4 * p.dim)) hn
  simp only [Nat.mul_comm _ (4 * p.dim), Nat.mul_add_div (show 0 < 4 * p.dim by omega),
    Nat.div_eq_of_lt hx, Nat.div_eq_of_lt hy, Nat.add_zero] at hdiv
  exact hij hdiv

/-- The lines of an aligned tile are aligned. -/
theorem addr_aligned (hd : p.GoodDim) (hc : c.Fits p) (hdest : dest.toNat % 16 = 0)
    (hs : c.int8Mode = false → p.dim ≠ 2 → c.destStride ≠ 0 → c.destStride.toNat % 16 = 0) {k : ℕ}
    (hk : k < c.nGroupsEff) :
    (c.addr p dest k).toNat % 16 = 0 := by
  unfold addr
  cases hg : c.contig p
  · rw [if_neg Bool.false_ne_true]
    refine aligned_add (aligned_add hdest ?_) (aligned_ofNat _)
    rcases hc.rows hg with h1 | ⟨hp, -⟩
    · rw [show k = 0 by omega, Nat.zero_div]
      simp
    · have hm : c.int8Mode = false := (Bool.or_eq_false_iff.1 hg).2
      have hdim : p.dim ≠ 2 ∧ 16 * p.perRow = 4 * p.dim := by
        rcases hd.cases with ⟨-, -, h, -⟩ | ⟨h', -, h, -⟩ | ⟨h', -, h, -⟩ |
          ⟨h', -, h, -⟩ <;> omega
      refine aligned_mul ?_
      unfold stride
      split
      · rw [← hdim.2]
        exact aligned_ofNat _
      · exact hs hm hdim.1 ‹_›
  · rw [if_pos rfl]
    exact aligned_add hdest (aligned_ofNat _)

end MmAccel.StoreConfig

namespace MmAccel

variable {p : MmParams} {t : ℕ}

/-- The bytes of a tile. -/
theorem bytes_storeConfig (s : MmAccel) (hd : p.GoodDim) :
    16 * (s.storeConfig p).nGroupsEff =
      if (s.storeConfig p).int8Mode then p.dim * p.dim else 4 * p.dim * p.dim := by
  have hN : (s.storeConfig p).nGroupsEff = if s.int8Mode p then p.nGroups8 else p.nGroups := rfl
  have hm : (s.storeConfig p).int8Mode = (p.int8Capable && s.regs.int8Req) := rfl
  have hm' : s.int8Mode p = (p.int8Capable && s.regs.int8Req) := rfl
  rw [hN, hm, hm']
  rcases hd.cases with ⟨h, h₁, -, h₂, -⟩ | ⟨h, h₁, -, h₂, -, -, h₃, -⟩ |
    ⟨h, h₁, -, h₂, -, -, h₃, -⟩ |
      ⟨h, h₁, -, h₂, -, -, h₃, -⟩ <;> rw [h, h₁, h₂]
  · rfl
  all_goals
    rw [h₃]
    cases s.regs.int8Req <;> rfl

/-- The words of the lines of a tile. -/
theorem lineWord_resultLine (outShift : ℕ) (acc : ℕ → ℕ → Word) (hd : p.GoodDim)
    (ht : t < 4 * p.dim * p.dim) :
    lineWord (resultLine p false outShift acc (t / 16)) (BitVec.ofNat 2 (t % 16 / 4)) =
      acc (t / (4 * p.dim)) (t % (4 * p.dim) / 4) := by
  have hw : (BitVec.ofNat 2 (t % 16 / 4)).toNat = t % 16 / 4 := by
    rw [BitVec.toNat_ofNat]
    omega
  rw [resultLine, if_neg Bool.false_ne_true]
  rcases hd.cases with ⟨h, h₁, -⟩ | ⟨h, h₁, h₂, -⟩ | ⟨h, h₁, h₂, -⟩ |
    ⟨h, h₁, h₂, -⟩ <;> rw [h] at ht
  · rw [if_pos h₁, lineWord_lineOfWords, hw, h]
    congr 1 <;> omega
  all_goals
    rw [if_neg (by omega), lineWord_lineOfWords, hw, h, h₂]
    congr 1 <;> omega

/-- The bytes of the lines of a requantised tile. -/
theorem lineByte_resultLine (outShift : ℕ) (acc : ℕ → ℕ → Word) (hd : p.GoodDim)
    (h8 : p.int8Capable = true) :
    lineByte (resultLine p true outShift acc (t / 16)) (BitVec.ofNat 4 (t % 16)) =
      requant outShift (acc (t / p.dim) (t % p.dim)) := by
  rw [resultLine, if_pos rfl, lineByte_lineOfBytes _ (Nat.mod_lt _ (by decide))]
  rcases hd.cases with ⟨-, -, -, h, -⟩ | ⟨h, -, -, -, -, h₁, -⟩ | ⟨h, -, -, -, -, h₁, -⟩ |
      ⟨h, -, -, -, -, h₁, -⟩
  · rw [h8] at h
    cases h
  all_goals
    rw [h₁, h]
    congr 2 <;> omega

end MmAccel

/-- A tile, and where it is stored: its lines are aligned, and hold its bytes. -/
structure MmAccel.StoreConfig.Tile (p : MmParams) (c : MmAccel.StoreConfig) (dest : Word) : Prop where
  dim : p.GoodDim
  fits : c.Fits p
  bytes : 16 * c.nGroupsEff = if c.int8Mode then p.dim * p.dim else 4 * p.dim * p.dim
  capable : c.int8Mode = true → p.int8Capable = true
  aligned : ∀ k < c.nGroupsEff, (c.addr p dest k).toNat % 16 = 0

namespace MmAccel.StoreConfig.Tile

variable {p : MmParams} {c : StoreConfig} {dest : Word} {acc : ℕ → ℕ → Word} {m₀ m : Mem} {t : ℕ}

theorem place (h : Tile p c dest) (ht : t < 16 * c.nGroupsEff) :
    c.addr p dest (t / 16) + BitVec.ofNat 32 (t % 16) = dest + c.place p t :=
  c.add_place h.dim h.fits h.bytes ht

theorem lt (ht : t < 16 * c.nGroupsEff) : t / 16 < c.nGroupsEff := Nat.div_lt_of_lt_mul ht

/-- The lines of a tile whose rows lie apart fall on different lines of memory. -/
theorem apart (h : Tile p c dest) (hr : c.int8Mode = false → c.RowsApart p) {k k' : ℕ}
    (hk : k < c.nGroupsEff)
    (hk' : k' < c.nGroupsEff) (he : lineNo (c.addr p dest k) = lineNo (c.addr p dest k')) : k = k' := by
  have hat : ∀ k < c.nGroupsEff, c.addr p dest k = dest + c.place p (16 * k) := by
    intro k hk
    rw [← h.place (show 16 * k < 16 * c.nGroupsEff by omega), Nat.mul_div_cancel_left _ (by decide),
      Nat.mul_mod_right]
    simp
  have haddr := eq_of_lineNo_eq (h.aligned k hk) (h.aligned k' hk') he
  rw [hat k hk, hat k' hk', BitVec.add_right_inj] at haddr
  have := c.place_injOn h.dim h.bytes hr (show 16 * k < 16 * c.nGroupsEff by omega)
    (show 16 * k' < 16 * c.nGroupsEff by omega) haddr
  omega

/-- The words of a tile whose lines are in memory. -/
theorem word (h : Tile p c dest)
    (hm : LinesIn (c.addr p dest) (resultLine p c.int8Mode c.outShift acc) c.nGroupsEff
      c.nGroupsEff m₀ m)
    (h8 : c.int8Mode = false) {i j : ℕ} (hi : i < p.dim) (hj : j < p.dim) :
    m.word (dest + BitVec.ofNat 32 i * c.rowDistance p + BitVec.ofNat 32 (4 * j)) = acc i j := by
  have hN := h.bytes
  have hpos := p.dim_pos
  rw [h8, if_neg Bool.false_ne_true] at hN
  have hrow : i * (4 * p.dim) + 4 * p.dim ≤ 16 * c.nGroupsEff := by
    rw [hN, ← Nat.succ_mul, Nat.mul_comm (4 * p.dim)]
    exact Nat.mul_le_mul_right _ hi
  have ht : i * (4 * p.dim) + 4 * j < 16 * c.nGroupsEff := by omega
  have hdiv : (i * (4 * p.dim) + 4 * j) / (4 * p.dim) = i := by
    rw [Nat.mul_comm, Nat.mul_add_div (by omega), Nat.div_eq_of_lt (by omega), Nat.add_zero]
  have hmod : (i * (4 * p.dim) + 4 * j) % (4 * p.dim) = 4 * j := by
    rw [Nat.mul_comm, Nat.mul_add_mod, Nat.mod_eq_of_lt (by omega)]
  have hw := lineWord_resultLine c.outShift acc h.dim (hN ▸ ht)
  rw [hdiv, hmod, Nat.mul_div_cancel_left _ (by decide)] at hw
  have h4 : 4 * ((i * (4 * p.dim) + 4 * j) % 16 / 4) = (i * (4 * p.dim) + 4 * j) % 16 := by
    have : i * (4 * p.dim) = 4 * (i * p.dim) := Nat.mul_left_comm ..
    omega
  have hplace : dest + BitVec.ofNat 32 i * c.rowDistance p + BitVec.ofNat 32 (4 * j) =
      dest + c.place p (i * (4 * p.dim) + 4 * j) := by
    rw [StoreConfig.place, h8, if_neg Bool.false_ne_true, hdiv, hmod, BitVec.add_assoc]
  rw [hplace, ← h.place ht, ← h4, ← Mem.lineWord_line _ (h.aligned _ (lt ht)) (by omega),
    hm.lines _ (lt ht), h8, hw]

/-- The bytes of a requantised tile whose lines are in memory. -/
theorem byte (h : Tile p c dest)
    (hm : LinesIn (c.addr p dest) (resultLine p c.int8Mode c.outShift acc) c.nGroupsEff
      c.nGroupsEff m₀ m)
    (h8 : c.int8Mode = true) {i j : ℕ} (hi : i < p.dim) (hj : j < p.dim) :
    m (dest + BitVec.ofNat 32 (i * p.dim + j)) = requant c.outShift (acc i j) := by
  have hN := h.bytes
  have hpos := p.dim_pos
  rw [h8, if_pos rfl] at hN
  have hrow : i * p.dim + p.dim ≤ 16 * c.nGroupsEff := by
    rw [hN, ← Nat.succ_mul]
    exact Nat.mul_le_mul_right _ hi
  have ht : i * p.dim + j < 16 * c.nGroupsEff := by omega
  have hdiv : (i * p.dim + j) / p.dim = i := by
    rw [Nat.mul_comm, Nat.mul_add_div (by omega), Nat.div_eq_of_lt hj, Nat.add_zero]
  have hmod : (i * p.dim + j) % p.dim = j := by
    rw [Nat.mul_comm, Nat.mul_add_mod, Nat.mod_eq_of_lt hj]
  have hb := lineByte_resultLine c.outShift acc (t := i * p.dim + j) h.dim (h.capable h8)
  rw [hdiv, hmod] at hb
  have hplace : dest + BitVec.ofNat 32 (i * p.dim + j) = dest + c.place p (i * p.dim + j) := by
    rw [StoreConfig.place, h8, if_pos rfl]
  obtain ⟨hl, ho⟩ :=
    lineNo_add_ofNat (h.aligned _ (lt ht)) (Nat.mod_lt (i * p.dim + j) (show 0 < 16 by decide))
  rw [hplace, ← h.place ht, ← Mem.lineByte_line m hl, ho, hm.lines _ (lt ht), h8, hb]

/-- What is outside of a tile is as it was. -/
theorem frame (h : Tile p c dest)
    (hm : LinesIn (c.addr p dest) (resultLine p c.int8Mode c.outShift acc) c.nGroupsEff
      c.nGroupsEff m₀ m) {y : Word}
    (hy : ∀ i < p.dim, ∀ j < p.dim, if c.int8Mode then y ≠ dest + BitVec.ofNat 32 (i * p.dim + j)
      else ∀ b < 4, y ≠ dest + BitVec.ofNat 32 i * c.rowDistance p + BitVec.ofNat 32 (4 * j + b)) :
    m y = m₀ y := by
  have hpos := p.dim_pos
  refine hm.frame y fun k hk hl => ?_
  obtain ⟨o, ho, rfl⟩ := exists_eq_add_of_lineNo_eq (h.aligned k hk) hl
  obtain ⟨t, rfl, rfl⟩ : ∃ t, t / 16 = k ∧ t % 16 = o := ⟨16 * k + o, by omega, by omega⟩
  have ht : t < 16 * c.nGroupsEff := by omega
  rw [h.place ht, StoreConfig.place] at hy
  rw [h.bytes] at ht
  cases h8 : c.int8Mode
  · rw [h8, if_neg Bool.false_ne_true] at ht
    have hx : t % (4 * p.dim) < 4 * p.dim := Nat.mod_lt _ (by omega)
    have := hy (t / (4 * p.dim)) (Nat.div_lt_of_lt_mul ht) (t % (4 * p.dim) / 4) (by omega)
    rw [h8, if_neg Bool.false_ne_true, if_neg Bool.false_ne_true] at this
    refine this (t % (4 * p.dim) % 4) (Nat.mod_lt _ (by decide)) ?_
    rw [Nat.div_add_mod, BitVec.add_assoc]
  · rw [h8, if_pos rfl] at ht
    have := hy (t / p.dim) (Nat.div_lt_of_lt_mul ht) (t % p.dim) (Nat.mod_lt _ (by omega))
    rw [h8, if_pos rfl, if_pos rfl, Nat.mul_comm (t / p.dim), Nat.div_add_mod] at this
    exact this rfl

end MmAccel.StoreConfig.Tile

section Store

open MmAccel

variable {p : MmParams} {σ : ℕ → MmAccel} {ι : ℕ → MmInputs} {χ : ℕ → Option WriteTransfer}
  {μ : ℕ → Mem} {a : ℕ}

/-- Up to the end of a store the FIFO is never popped empty or pushed full. -/
theorem StoreRun.fifo_safe (h : StoreRun p σ ι χ μ a) (hd : p.GoodDim) (hinj : StoreRun.Apart p σ a)
    {n : ℕ} (hn : a < n) (hno : ∀ k, a < k → k ≤ n → (σ k).st.dmaDone = false) :
    ((σ n).deqReady (ι n) → (σ n).st.lineFifo ≠ []) ∧
      ((σ n).st.fillValid → (σ n).st.lineFifo.length < p.fifoLines) := by
  have hfit := (fits_storeConfig (p := p) (σ a) hd).fifo
  obtain ⟨f, hst, -⟩ := (h.progress hd hinj hn fun k h₁ h₂ =>
      hno k h₁ h₂.le).resolve_right fun h' => by
    rw [hno n hn le_rfl] at h'
    cases h'.1
  have hlen := hst.length_fifo
  obtain ⟨g, l, -, hserve⟩ := h.serve n
  refine ⟨fun hpop hnil => ?_, fun hv => ?_⟩
  · -- the channel takes lines for a transaction only
    have hx : ∃ t, χ n = some t := by
      rw [deqReady, hst.busy, Bool.true_and, Bool.not_true, Bool.or_false, Bool.or_eq_true] at hpop
      rcases hpop with hw | hw
      · obtain ⟨-, t, ht, -⟩ := hserve.wnext hw
        exact ⟨t, ht⟩
      · obtain ⟨t, ht, -⟩ := hserve.ready hw
        exact ⟨t, ht⟩
    obtain ⟨t, ht⟩ := hx
    obtain ⟨-, -, -, -, -, -, hlt⟩ := hst.serve t ht
    rw [hnil, List.length_nil] at hlen
    omega
  · have hent := hst.entered_add
    have hle := hst.le
    rw [hv, Bool.toNat_true] at hent
    omega

/-- When `dmaDone` rises every accumulator is in its place in memory, as a word or requantised to a
    byte, and no other byte has changed; the FIFO is empty then, and was never popped empty
    or pushed full. The rows of words must not run into each other around the end of the address
    space. -/
theorem store_of_run (h : StoreRun p σ ι χ μ a) (hd : p.GoodDim) {c : StoreConfig} {dest : Word}
    {acc : ℕ → ℕ → Word}
    (hc : (σ a).storeConfig p = c) (hdest : (σ a).regs.destAddr = dest)
    (hacc : (σ (a + 1)).arr.acc = acc) (hal : dest.toNat % 16 = 0)
    (hs : c.int8Mode = false → p.dim ≠ 2 → c.destStride ≠ 0 →
      c.destStride.toNat % 16 = 0 ∧ c.RowsApart p) :
    (WriteFair σ ι χ → ∃ e > a, (σ e).st.dmaDone) ∧
      ∀ e > a, (σ e).st.dmaDone → (∀ k, a < k → k < e → (σ k).st.dmaDone = false) →
        (c.int8Mode = false → ∀ i < p.dim, ∀ j < p.dim,
          (μ e).word (dest + BitVec.ofNat 32 i * c.rowDistance p + BitVec.ofNat 32 (4 * j)) = acc i j) ∧
        (c.int8Mode = true → ∀ i < p.dim, ∀ j < p.dim,
          (μ e (dest + BitVec.ofNat 32 (i * p.dim + j))).toInt = max (-128) (min 127
            (((acc i j).toInt + if c.outShift = 0 then 0 else 2 ^ (c.outShift - 1)) / 2 ^ c.outShift))) ∧
        (∀ y, (∀ i < p.dim, ∀ j < p.dim, if c.int8Mode then y ≠ dest + BitVec.ofNat 32 (i * p.dim + j)
            else ∀ b < 4, y ≠ dest + BitVec.ofNat 32 i * c.rowDistance p + BitVec.ofNat 32 (4 * j + b)) →
          μ e y = μ a y) ∧
        (σ e).st.lineFifo = [] ∧
        ∀ n, a < n → n < e → ((σ n).deqReady (ι n) → (σ n).st.lineFifo ≠ []) ∧
          ((σ n).st.fillValid → (σ n).st.lineFifo.length < p.fifoLines) := by
  have hF : c.Fits p := hc ▸ fits_storeConfig (σ a) hd
  have htile : StoreConfig.Tile p c dest := by
    refine ⟨hd, hF, hc ▸ bytes_storeConfig (σ a) hd, ?_, fun k hk =>
      c.addr_aligned hd hF hal (fun h₁ h₂ h₃ => (hs h₁ h₂ h₃).1) hk⟩
    rw [← hc]
    exact fun h => (Bool.and_eq_true_iff.1 h).1
  have hrows : c.int8Mode = false → c.RowsApart p := by
    intro hm
    by_cases h0 : c.destStride = 0 ∨ p.dim = 2
    · exact c.rowsApart_of_contig hd h0
    · rw [not_or] at h0
      exact (hs hm h0.2 h0.1).2
  have hinj : StoreRun.Apart p σ a := by
    intro k hk k' hk' he
    rw [hc] at hk hk' he
    rw [hdest] at he
    exact htile.apart hrows hk hk' he
  refine ⟨h.ends hd, fun e he hdone hno => ?_⟩
  -- at the end all lines are in memory, and a line is made up of the results it is for
  have hend := h.progress hd hinj he hno
  rw [hc, hdest] at hend
  obtain ⟨-, hfifo, hmem⟩ := hend.resolve_left fun ⟨f, hst, _⟩ => by
    rw [hst.done] at hdone
    cases hdone
  have hline : StoreRun.line p σ a = resultLine p c.int8Mode c.outShift acc := by
    funext k
    rw [StoreRun.line, hc, hacc]
  rw [hline] at hmem
  refine ⟨fun hm i hi j hj => htile.word hmem hm hi hj, fun hm i hi j hj => ?_, fun y hy =>
    htile.frame hmem hy, hfifo,
    fun n hn hn' => h.fifo_safe hd hinj hn fun k h₁ h₂ => hno k h₁ (h₂.trans_lt hn')⟩
  rw [htile.byte hmem hm hi hj, toInt_requant]

end Store

/-! ### Runs -/

/-- An accelerator of dimension `4` that is at rest, with the numbers from `1` to `16` in its
    accumulators and the distance `S` for the rows of the result. -/
def restingTile (S : Word) : MmAccel :=
  { resetMm with
    regs := { resetMm.regs with destAddr := 0x100, destStride := S }
    arr := { resetMm.arr with pes := fun i j => ⟨0, 0, BitVec.ofNat 32 (4 * i + j + 1)⟩ } }

/-- A store is started, and each of its four lines accepted a cycle after it has been granted. -/
def storeRows (n : ℕ) : MmInputs :=
  match n with
  | 0 => .write 0 4
  | 4 | 6 | 8 | 10 => { MmInputs.quiet with memWrReady := true }
  | _ => .quiet

def storeRowsTrace (S : Word) : ℕ → MmAccel := (mmAccel mmDim4).trace (restingTile S) storeRows

/-- The write channel meanwhile. -/
def storeRowsChannel (S : Word) (n : ℕ) : Option WriteTransfer :=
  match n with
  | 4 => some ⟨0x100, 1, 0, []⟩
  | 6 => some ⟨0x100 + S, 1, 0, []⟩
  | 8 => some ⟨0x100 + S + S, 1, 0, []⟩
  | 10 => some ⟨0x100 + S + S + S, 1, 0, []⟩
  | _ => none

/-- The row `i` of the tile. -/
def tileRow (i : ℕ) : Line := lineOfWords fun w => BitVec.ofNat 32 (4 * i + w.toNat + 1)

/-- The memory meanwhile, out of zeros. -/
def storeRowsMem (S : Word) (n : ℕ) : Mem :=
  let m₁ := Mem.setLine (fun _ => 0) 0x100 (tileRow 0)
  let m₂ := m₁.setLine (0x100 + S) (tileRow 1)
  let m₃ := m₂.setLine (0x100 + S + S) (tileRow 2)
  if n ≤ 4 then fun _ => 0
  else if n ≤ 6 then m₁
  else if n ≤ 8 then m₂
  else if n ≤ 10 then m₃
  else m₃.setLine (0x100 + S + S + S) (tileRow 3)

/-- A line is accepted that the channel is presented, and goes to memory. -/
theorem MmAccel.writeServes_of_line {s : MmAccel} {i : MmInputs} {x : Word} {m : Mem} {l : Line}
    (hw : i.memWnext = false)
    (hl : s.memWline = l) : s.WriteServes i true (some ⟨x, 1, 0, []⟩) m (m.setLine x l) := by
  have hat : (⟨x, 1, 0, []⟩ : WriteTransfer).at 0 = x := by simp [WriteTransfer.at]
  refine ⟨fun h => ?_, fun _ => ⟨_, rfl, rfl, rfl, fun k hk => ?_⟩, nofun, fun t ht y hy => ?_⟩
  · rw [hw] at h
    cases h
  · obtain rfl := Nat.lt_one_iff.1 hk
    rw [hat, Mem.line_setLine, ← hl]
    rfl
  · cases ht
    rw [Mem.setLine, if_neg]
    rw [← hat]
    exact hy 0 Nat.one_pos

/-- Nothing is accepted while no transaction is in flight. -/
theorem MmAccel.writeServes_none {s : MmAccel} {i : MmInputs} {m : Mem} (hw : i.memWnext = false)
    (hr : i.memWrReady = false) : s.WriteServes i false none m m := by
  refine ⟨fun h => ?_, fun h => ?_, fun _ => rfl, nofun⟩
  · rw [hw] at h
    cases h
  · rw [hr] at h
    cases h

theorem storeRun_storeRows {S : Word} (hS : S = 0x40 ∨ S = 0x80000000) :
    StoreRun mmDim4 (storeRowsTrace S) storeRows (storeRowsChannel S) (storeRowsMem S) 0 := by
  have hchan : ∀ n < 11, storeRowsChannel S (n + 1) =
      (storeRowsTrace S n).wrNext mmDim4 (storeRows n) true (storeRows n).memWrReady
        (storeRowsChannel S n) := by
    rcases hS with rfl | rfl <;> decide +kernel
  have hline : (storeRowsTrace S 4).memWline = tileRow 0 ∧ (storeRowsTrace S 6).memWline = tileRow 1 ∧
      (storeRowsTrace S 8).memWline = tileRow 2 ∧ (storeRowsTrace S 10).memWline = tileRow 3 := by
    rcases hS with rfl | rfl <;> decide +kernel
  have halone : ∀ n < 11, 0 < n → (storeRowsTrace S n).softRstPulse (storeRows n) = false ∧
      (storeRowsTrace S n).dmaStartAny (storeRows n) = false ∧
      (storeRowsTrace S (n + 1)).storeConfig mmDim4 = (storeRowsTrace S 0).storeConfig mmDim4 := by
    rcases hS with rfl | rfl <;> decide +kernel
  have hstart : ∀ n < 11, (storeRowsTrace S n).startAny (storeRows n) = false := by
    rcases hS with rfl | rfl <;> decide +kernel
  have hdone : (storeRowsTrace S 11).st.dmaDone = true := by
    rcases hS with rfl | rfl <;> decide +kernel
  have hrest : ∀ n ≤ 11, (storeRowsTrace S n).Rests (restingTile S).arr.acc := by
    intro n hn
    induction n with
    | zero => exact ⟨rfl, fun _ _ => rfl, fun _ _ => rfl⟩
    | succ n ih => exact (ih (Nat.le_of_succ_le hn)).next (hstart n hn)
  have hacc : ∀ n ≤ 11, (storeRowsTrace S n).arr.acc = (restingTile S).arr.acc := fun n hn =>
    funext fun j => funext fun k => (hrest n hn).acc j k
  refine ⟨fun _ => rfl, fun n => ?_, ?_, ?_, rfl, rfl, ?_, ?_, fun n hn hno => ?_⟩
  · by_cases hn : n < 11
    · refine ⟨true, _, hchan n hn, ?_⟩
      obtain ⟨h₁, h₂, h₃, h₄⟩ := hline
      match n, hn with
      | 4, _ => exact MmAccel.writeServes_of_line rfl h₁
      | 6, _ => exact MmAccel.writeServes_of_line rfl h₂
      | 8, _ => exact MmAccel.writeServes_of_line rfl h₃
      | 10, _ => exact MmAccel.writeServes_of_line rfl h₄
      | 0, _ | 1, _ | 2, _ | 3, _ | 5, _ | 7, _ | 9, _ => exact MmAccel.writeServes_none rfl rfl
    · obtain ⟨k, rfl⟩ := Nat.exists_eq_add_of_le' (Nat.not_lt.1 hn)
      exact ⟨false, false, rfl, MmAccel.writeServes_none rfl rfl⟩
  · rcases hS with rfl | rfl <;> decide +kernel
  · rcases hS with rfl | rfl <;> decide +kernel
  · rcases hS with rfl | rfl <;> decide +kernel
  · rcases hS with rfl | rfl <;> decide +kernel
  · have hn' : n < 11 := by
      by_contra hn'
      rw [hno 11 (by decide) (Nat.not_lt.1 hn')] at hdone
      cases hdone
    obtain ⟨h₁, h₂, h₃⟩ := halone n hn' hn
    exact ⟨h₁, h₂, h₃, fun _ => by rw [hacc (n + 1) hn', hacc n hn'.le]⟩

theorem storeRows_done {S : Word} (hS : S = 0x40 ∨ S = 0x80000000) :
    (storeRowsTrace S 11).st.dmaDone = true ∧
    ∀ k < 11, 0 < k → (storeRowsTrace S k).st.dmaDone = false := by
  rcases hS with rfl | rfl <;> decide +kernel

/-- Rows at a distance of `64` bytes: the accumulator `10` of the tile. -/
theorem storeRows_word :
    (storeRowsTrace 0x40 11).st.dmaDone ∧ (storeRowsMem 0x40 11).word 0x184 = 10 := by
  obtain ⟨hdone, hno⟩ := storeRows_done (.inl rfl)
  have hapart : ∀ i < 4, ∀ j < 4, i ≠ j → ∀ x < 16, ∀ y < 16,
      BitVec.ofNat 32 i * (0x40 : Word) + BitVec.ofNat 32 x ≠ BitVec.ofNat 32 j * 0x40 +
        BitVec.ofNat 32 y := by
    decide +kernel
  have h := (store_of_run (storeRun_storeRows (.inl rfl)) (.inr (.inl rfl)) rfl rfl rfl (by decide)
    fun _ _ _ => ⟨by decide +kernel, hapart⟩).2 11 (by decide) hdone fun k h₁ h₂ => hno k h₂ h₁
  exact ⟨hdone, (h.1 rfl 2 (by decide) 1 (by decide)).trans (by decide +kernel)⟩

/-- Rows at a distance of half the address space: the third of them goes where the first is. -/
theorem storeRows_overlap :
    ¬∀ (p : MmParams) (σ : ℕ → MmAccel) (ι : ℕ → MmInputs) (χ : ℕ → Option WriteTransfer)
    (μ : ℕ → Mem) (a e : ℕ)
      (c : MmAccel.StoreConfig) (dest : Word), StoreRun p σ ι χ μ a → p.GoodDim →
      (σ a).storeConfig p = c →
      (σ a).regs.destAddr = dest → dest.toNat % 16 = 0 → c.destStride.toNat % 16 = 0 →
      c.destStride = 0 ∨ 4 * p.dim ≤ c.destStride.toNat → a < e → (σ e).st.dmaDone →
      (∀ k, a < k → k < e → (σ k).st.dmaDone = false) → c.int8Mode = false →
      ∀ i < p.dim, ∀ j < p.dim,
        (μ e).word (dest + BitVec.ofNat 32 i * c.rowDistance p + BitVec.ofNat 32 (4 * j)) =
          (σ (a + 1)).arr.acc i j := by
  intro h
  obtain ⟨hdone, hno⟩ := storeRows_done (.inr rfl)
  have hrun := storeRun_storeRows (.inr rfl)
  have h' := h mmDim4 _ storeRows _ _ 0 11 ⟨0x80000000, false, 0, 4, 1⟩ 0x100 hrun (.inr (.inl rfl))
    (by decide +kernel)
    rfl (by decide) (by decide) (.inr (by decide)) (by decide) hdone (fun k h₁ h₂ => hno k h₂ h₁) rfl
  have h₀ := h' 0 (by decide) 0 (by decide)
  have h₂ := h' 2 (by decide) 0 (by decide)
  have hne : (storeRowsTrace 0x80000000 (0 + 1)).arr.acc 0 0 ≠
      (storeRowsTrace 0x80000000 (0 + 1)).arr.acc 2 0 := by
    decide +kernel
  exact hne (h₀.symm.trans h₂)

end Rv32Soc
