import Rv32Soc.Cache.IcacheBram

/-!
# Fetches of the instruction cache

Whenever `icache_bram` acknowledges a fetch, its data are the two halfwords of the
line memory at the fetched address (`fetchRdata_of_reachable`).

* The second half of a fetch from `a` is at `a + 2`, and every array address of it
  is that of `a + 2` (`erow_eq`, `esel_eq`, `idxB_eq`), wrapping with it around the
  sets and around the address space.
* `Regs.Inv`: the tag arrays are mirrors, the banks hold the memory's halfwords of
  every line that is valid, and in `S_IDLE` the output registers are the arrays at
  the address speculated last. No read on the edge into `S_IDLE` collides with a
  write, which is what `S_RECHECK` is for.
* `specOk` compares all the bits of the address the array addresses depend on, so the
  registers were read for the fetched address (`arrays_congr`).
-/

namespace Rv32Soc

namespace IcacheBram

variable {IDX : ℕ}

/-! ## The second halfword of a fetch -/

/-- A field of `a + 2`: no bit of the sum is lost below the top. -/
theorem toNat_extractLsb'_add_two {k w : ℕ} (h : k + w ≤ 32) (a : Word) :
    ((a + 2).extractLsb' k w).toNat = (a.toNat + 2) / 2 ^ k % 2 ^ w := by
  have h32 : 2 ^ 32 = 2 ^ k * 2 ^ (32 - k) := by rw [← pow_add]; congr 1; omega
  rw [BitVec.extractLsb'_toNat, Nat.shiftRight_eq_div_pow, BitVec.toNat_add,
    show (2 : Word).toNat = 2 from rfl, h32, Nat.mod_mul_right_div_self,
    Nat.mod_mod_of_dvd _ (pow_dvd_pow 2 (by omega))]

/-- The even half comes from the word of the second halfword. -/
theorem eword_eq (hn : IDX ≤ 28) (a : Word) : eword IDX a = word IDX (a + 2) := by
  apply BitVec.eq_of_toNat_eq
  have hdiv : (a.toNat + 2) / 2 ^ 2 = a.toNat / 2 ^ 2 + a.toNat / 2 ^ 1 % 2 ^ 1 := by omega
  rw [word, toNat_extractLsb'_add_two (by omega), hdiv, eword, word, BitVec.toNat_add,
    BitVec.extractLsb'_toNat, BitVec.toNat_setWidth, BitVec.extractLsb'_toNat,
    Nat.shiftRight_eq_div_pow, Nat.shiftRight_eq_div_pow, ← Nat.add_mod]

theorem toNat_crossN (a : Word) :
    (BitVec.ofBool (crossN a)).toNat = if 14 ≤ a.toNat % 16 then 1 else 0 := by
  have h : (a.extractLsb' 1 3 = 7) ↔ 14 ≤ a.toNat % 16 := by
    rw [← BitVec.toNat_inj, BitVec.extractLsb'_toNat, Nat.shiftRight_eq_div_pow,
      show (7 : BitVec 3).toNat = 7 from rfl]
    omega
  simp only [crossN, ← h]
  split <;> simp_all

/-- The second tag is read at the set of the second halfword. -/
theorem idxB_eq (hn : IDX ≤ 28) (a : Word) : idxB IDX a = idxOf IDX (a + 2) := by
  apply BitVec.eq_of_toNat_eq
  have hdiv : (a.toNat + 2) / 2 ^ 4 =
      a.toNat / 2 ^ 4 + if 14 ≤ a.toNat % 16 then 1 else 0 := by split <;> omega
  rw [idxOf, toNat_extractLsb'_add_two (by omega), hdiv, idxB, idxA, idxOf, BitVec.toNat_add,
    BitVec.extractLsb'_toNat, BitVec.toNat_setWidth, toNat_crossN, Nat.shiftRight_eq_div_pow,
    ← Nat.add_mod]

theorem erow_eq (hn : IDX ≤ 28) (a : Word) : erow IDX a = idxOf IDX (a + 2) := by
  rw [erow, eword_eq hn, word, extractLsb'_extractLsb' _ (by omega), idxOf]

theorem esel_eq (hn : IDX ≤ 28) (a : Word) : esel IDX a = (a + 2).extractLsb' 2 2 := by
  rw [esel, eword_eq hn, word, extractLsb'_extractLsb' _ (by omega)]

theorem osel_eq (a : Word) : osel IDX a = a.extractLsb' 2 2 := by
  rw [osel, word, extractLsb'_extractLsb' _ (by omega)]

/-- Unless a fetch starts on the last halfword of its line, it stays in the line. -/
theorem lineNo_add_two {a : Word} (h : crossN a = false) : lineNo (a + 2) = lineNo a := by
  have h14 : ¬14 ≤ a.toNat % 16 := by
    have := toNat_crossN a
    rw [h] at this
    simpa using this
  apply BitVec.eq_of_toNat_eq
  rw [lineNo, toNat_extractLsb'_add_two (by omega), lineNo, BitVec.extractLsb'_toNat,
    Nat.shiftRight_eq_div_pow]
  congr 1
  omega

/-- The next halfword has the other parity. -/
theorem getLsbD_add_two (a : Word) : (a + 2).getLsbD 1 = !a.getLsbD 1 := by
  have h : ∀ b : Word, b.getLsbD 1 = decide (b.toNat / 2 % 2 = 1) := fun b => by
    rw [BitVec.getLsbD, Nat.testBit_eq_decide_div_mod_eq, pow_one]
  have h2 : (a + 2).toNat / 2 % 2 = (a.toNat / 2 + 1) % 2 := by
    rw [BitVec.toNat_add, show (2 : Word).toNat = 2 from rfl]
    omega
  rw [h, h, h2]
  rcases Nat.mod_two_eq_zero_or_one (a.toNat / 2) with h0 | h0 <;> simp [Nat.add_mod, h0]

/-- An even halfword and the next one are of one word. -/
theorem word_add_two_of_even (hn : IDX ≤ 28) {a : Word} (h : a.getLsbD 1 = false) :
    word IDX (a + 2) = word IDX a := by
  have h0 : a.extractLsb' 1 1 = 0 := by
    apply BitVec.eq_of_getLsbD_eq
    intro i hi
    rw [show i = 0 by omega, BitVec.getLsbD_extractLsb', h]
    rfl
  rw [← eword_eq hn, eword, h0]
  simp

theorem idxOf_eq_of_word {a b : Word} (h : word IDX a = word IDX b) : idxOf IDX a = idxOf IDX b := by
  have hw : ∀ c, idxOf IDX c = (word IDX c).extractLsb' 2 IDX := fun c => by
    rw [word, extractLsb'_extractLsb' _ (by omega)]; rfl
  rw [hw, hw, h]

theorem sel_eq_of_word {a b : Word} (h : word IDX a = word IDX b) :
    a.extractLsb' 2 2 = b.extractLsb' 2 2 := by
  have hw : ∀ c, c.extractLsb' 2 2 = (word IDX c).extractLsb' 0 2 := fun c => (osel_eq c).symm
  rw [hw, hw, h]

/-- The array addresses depend on the bits that `specOk` compares. -/
theorem arrays_congr {a b : Word} (h : a.extractLsb' 1 (IDX + 3) = b.extractLsb' 1 (IDX + 3)) :
    word IDX a = word IDX b ∧ eword IDX a = eword IDX b ∧ idxB IDX a = idxB IDX b ∧
      a.getLsbD 1 = b.getLsbD 1 := by
  have hword : ∀ c : Word, word IDX c = (c.extractLsb' 1 (IDX + 3)).extractLsb' 1 (IDX + 2) :=
    fun c => by rw [word, extractLsb'_extractLsb' _ (by omega)]
  have hone : ∀ c : Word, c.extractLsb' 1 1 = (c.extractLsb' 1 (IDX + 3)).extractLsb' 0 1 :=
    fun c => by rw [extractLsb'_extractLsb' _ (by omega)]
  have hoff : ∀ c : Word, c.extractLsb' 1 3 = (c.extractLsb' 1 (IDX + 3)).extractLsb' 0 3 :=
    fun c => by rw [extractLsb'_extractLsb' _ (by omega)]
  have hbit : ∀ c : Word, c.getLsbD 1 = (c.extractLsb' 1 (IDX + 3)).getLsbD 0 := fun c => by simp
  have hw : word IDX a = word IDX b := by rw [hword, hword, h]
  refine ⟨hw, ?_, ?_, ?_⟩
  · rw [eword, eword, hw, hone, hone, h]
  · rw [idxB, idxB, idxA, idxA, idxOf_eq_of_word hw, crossN, crossN, hoff, hoff, h]
  · rw [hbit, hbit, h]

/-! ## Rows -/

/-- The halfword of its line an address falls in: its word there, and its parity. -/
theorem half_of_line (a : Word) :
    a.extractLsb' 1 3 = (a.extractLsb' 2 2 ++ BitVec.ofBool (a.getLsbD 1) : BitVec 3) := by
  have h1 : BitVec.ofBool (a.getLsbD 1) = a.extractLsb' 1 1 := by
    apply BitVec.eq_of_getLsbD_eq
    intro j hj
    simp [show j = 0 by omega]
  have h2 : a.extractLsb' 2 2 ++ a.extractLsb' 1 1 = a.extractLsb' 1 (2 + 1) :=
    BitVec.extractLsb'_append_extractLsb'_eq_extractLsb' rfl
  rw [h1]
  exact h2.symm

theorem rowHalf_wdEven (l : Line) (k : BitVec 2) : rowHalf (wdEven l) k = lineHalf l (k ++ 0#1) := by
  apply BitVec.eq_of_getLsbD_eq
  intro i hi
  rcases bitVec2_cases k with rfl | rfl | rfl | rfl <;>
    simp [rowHalf, wdEven, lineHalf, hi] <;> grind

theorem rowHalf_wdOdd (l : Line) (k : BitVec 2) : rowHalf (wdOdd l) k = lineHalf l (k ++ 1#1) := by
  apply BitVec.eq_of_getLsbD_eq
  intro i hi
  rcases bitVec2_cases k with rfl | rfl | rfl | rfl <;>
    simp [rowHalf, wdOdd, lineHalf, hi] <;> grind

/-! ## The invariant -/

namespace Regs

variable (s : Regs IDX)

/-- The line of the address `a` is in the cache. -/
def Holds (a : Word) : Prop :=
  (s.tagA (idxOf IDX a)).valid = true ∧ (s.tagA (idxOf IDX a)).tag = tagOf IDX a

/-- The halfword the banks hold for the address `a`. -/
def cachedHalf (a : Word) : Half :=
  if a.getLsbD 1 then rowHalf (s.datOdd (idxOf IDX a)) (a.extractLsb' 2 2)
  else rowHalf (s.datEven (idxOf IDX a)) (a.extractLsb' 2 2)

/-- The tags are mirrored, and every line in the cache has the contents of `m`. -/
structure Coherent (m : Mem) : Prop where
  mirror : s.tagB = s.tagA
  cached : ∀ a, s.Holds a → s.cachedHalf a = m.half a

/-- The output registers are the arrays at the address speculated last. -/
structure Settled : Prop where
  even : s.qEven = s.datEven (erow IDX s.qA)
  odd : s.qOdd = s.datOdd (orow IDX s.qA)
  tagA : s.qTagA = s.tagA (idxA IDX s.qA)
  tagB : s.qTagB = s.tagB (idxB IDX s.qA)

/-- What the registers that follow the speculated address say about it. -/
structure Follows : Prop where
  esel : s.qEsel = IcacheBram.esel IDX s.qA
  osel : s.qOsel = IcacheBram.osel IDX s.qA
  unal : s.qUnal = s.qA.getLsbD 1

/-- The invariant, state by state. -/
def Inv (m : Mem) : Prop :=
  s.Follows ∧
    match s.state with
    | .S_INIT => ∀ x, x < s.sweepCnt → s.tagA x = ⟨false, 0⟩ ∧ s.tagB x = ⟨false, 0⟩
    | .S_IDLE => s.Coherent m ∧ s.Settled
    | .S_FILL | .S_RECHECK => s.Coherent m

end Regs

variable {s : Regs IDX} {i : Inputs} {r : Reads IDX} {m : Mem}

theorem follows_edge : (s.edge i r).Follows := ⟨rfl, rfl, rfl⟩

/-- An edge that writes no array leaves the output registers settled. -/
theorem settled_edge (hw : s.wrEn i = false) (hi : s.initEn = false) :
    (s.edge i (s.collidingReads i r)).Settled := by
  have ht : s.tagWe i = false := by simp [Regs.tagWe, hw, hi]
  constructor <;> simp [Regs.edge, Regs.collidingReads, hw, ht]

theorem coherent_edge_of_quiet (h : s.Coherent m) (hw : s.wrEn i = false) (hi : s.initEn = false) :
    (s.edge i r).Coherent m := by
  have ht : s.tagWe i = false := by simp [Regs.tagWe, hw, hi]
  constructor
  · simp [Regs.edge, ht, h.mirror]
  · intro a ha
    have hc : (s.edge i r).cachedHalf a = s.cachedHalf a := by
      simp [Regs.cachedHalf, Regs.edge, hw]
    rw [hc]
    refine h.cached a ?_
    simpa [Regs.Holds, Regs.edge, ht] using ha

/-- A refill puts the memory's line in the set. -/
theorem coherent_edge_of_fill (hn : IDX ≤ 28) (h : s.Coherent m) (hw : s.wrEn i = true)
    (hm : i.memRline = m.line s.missAddrQ) : (s.edge i r).Coherent m := by
  have hst : s.state = .S_FILL := by simp_all [Regs.wrEn]
  have hi : s.initEn = false := by simp [Regs.initEn, hst]
  have ht : s.tagWe i = true := by simp [Regs.tagWe, hw]
  have htag : ∀ x, (s.edge i r).tagA x = if x = s.wrIdx then ⟨true, s.wrTag⟩ else s.tagA x :=
    fun x => by simp [Regs.edge, ht, Regs.tagWaddr, Regs.tagWdata, hi]
  constructor
  · simp [Regs.edge, h.mirror]
  · intro a ha
    rw [Regs.Holds, htag] at ha
    by_cases hx : idxOf IDX a = s.wrIdx
    · rw [if_pos hx] at ha
      -- The address has the set and the tag of the refill: it is of its line.
      have hl : lineNo a = lineNo s.missAddrQ := by
        rw [← lineNo_lineAddr hn s.missAddrQ, lineNo_eq_lineAddr_iff hn]
        exact ⟨ha.2.symm, hx⟩
      rw [← Mem.lineHalf_line m hl, ← hm]
      rw [half_of_line, Regs.cachedHalf, hx]
      cases a.getLsbD 1 with
      | false => simp [Regs.edge, hw, rowHalf_wdEven]
      | true => simp [Regs.edge, hw, rowHalf_wdOdd]
    · rw [if_neg hx] at ha
      have hc : (s.edge i r).cachedHalf a = s.cachedHalf a := by
        simp [Regs.cachedHalf, Regs.edge, hx]
      rw [hc]
      exact h.cached a ha

theorem inv_edge_init (hst : s.state = .S_INIT) (h : s.Inv m) :
    (s.edge i (s.collidingReads i r)).Inv m := by
  refine ⟨follows_edge, ?_⟩
  have hsw := h.2
  simp only [hst] at hsw
  have hi : s.initEn = true := by simp [Regs.initEn, hst]
  have hclr : ∀ x, x < s.sweepCnt ∨ x = s.sweepCnt →
      (s.edge i (s.collidingReads i r)).tagA x = ⟨false, 0⟩ ∧
        (s.edge i (s.collidingReads i r)).tagB x = ⟨false, 0⟩ := by
    intro x hx
    by_cases he : x = s.sweepCnt
    · simp [Regs.edge, Regs.tagWe, Regs.tagWaddr, Regs.tagWdata, hi, he]
    · simpa [Regs.edge, Regs.tagWaddr, hi, he] using hsw x (hx.resolve_right he)
  by_cases hl : s.sweepCnt = BitVec.allOnes IDX
  · -- The last set is swept: no line is valid.
    have hst' : (s.edge i (s.collidingReads i r)).state = .S_RECHECK := by
      simp [Regs.edge, Regs.nextState, hst, hl]
    have hall : ∀ x, x < s.sweepCnt ∨ x = s.sweepCnt := fun x => by
      rw [hl]; exact lt_or_eq_allOnes x
    simp only [hst']
    refine ⟨funext fun x => ?_, fun a ha => ?_⟩
    · rw [(hclr x (hall x)).1, (hclr x (hall x)).2]
    · rw [Regs.Holds, (hclr _ (hall _)).1] at ha
      exact absurd ha.1 Bool.false_ne_true
  · have hst' : (s.edge i (s.collidingReads i r)).state = .S_INIT := by
      simp [Regs.edge, Regs.nextState, hst, hl]
    have hcnt : (s.edge i (s.collidingReads i r)).sweepCnt = s.sweepCnt + 1 := by
      simp [Regs.edge, hst]
    simp only [hst', hcnt]
    exact fun x hx => hclr x (lt_or_eq_of_lt_add_one hx)

/-- An edge keeps the invariant. -/
theorem inv_edge (hn : IDX ≤ 28) (h : s.Inv m)
    (hm : s.memReqValid = true → i.memReady = true → i.memRline = m.line s.memReqAddr) :
    (s.edge i (s.collidingReads i r)).Inv m := by
  cases hst : s.state with
  | S_INIT => exact inv_edge_init hst h
  | S_IDLE =>
    have hw : s.wrEn i = false := by simp [Regs.wrEn, hst]
    have hi : s.initEn = false := by simp [Regs.initEn, hst]
    -- A hit or a miss: either way nothing is written, and the read port has settled.
    have hc : s.Coherent m := by have := h.2; simp only [hst] at this; exact this.1
    refine ⟨follows_edge, ?_⟩
    have hc' := coherent_edge_of_quiet (r := s.collidingReads i r) hc hw hi
    have hs' := settled_edge (r := r) hw hi
    split
    next he =>
      exact absurd he (by simp [Regs.edge, Regs.nextState, hst]; grind)
    next => exact ⟨hc', hs'⟩
    next => exact hc'
    next => exact hc'
  | S_FILL =>
    have hi : s.initEn = false := by simp [Regs.initEn, hst]
    have hc : s.Coherent m := by simpa only [hst] using h.2
    refine ⟨follows_edge, ?_⟩
    cases hr : i.memReady with
    | false =>
      have hw : s.wrEn i = false := by simp [Regs.wrEn, hr]
      have hst' : (s.edge i (s.collidingReads i r)).state = .S_FILL := by
        simp [Regs.edge, Regs.nextState, hst, hr]
      simp only [hst']
      exact coherent_edge_of_quiet hc hw hi
    | true =>
      -- The fill writes the line of the missed address.
      have hw : s.wrEn i = true := by simp [Regs.wrEn, hst, hr]
      have hst' : (s.edge i (s.collidingReads i r)).state = .S_RECHECK := by
        simp [Regs.edge, Regs.nextState, hst, hr]
      simp only [hst']
      exact coherent_edge_of_fill hn hc hw (hm (by simp [Regs.memReqValid, hst]) hr)
  | S_RECHECK =>
    have hw : s.wrEn i = false := by simp [Regs.wrEn, hst]
    have hi : s.initEn = false := by simp [Regs.initEn, hst]
    have hc : s.Coherent m := by simpa only [hst] using h.2
    have hst' : (s.edge i (s.collidingReads i r)).state = .S_IDLE := by
      simp [Regs.edge, Regs.nextState, hst]
    refine ⟨follows_edge, ?_⟩
    simp only [hst']
    exact ⟨coherent_edge_of_quiet hc hw hi, settled_edge hw hi⟩

theorem inv_of_isReset (hn : IDX ≤ 28) (h : s.IsReset) : s.Inv m := by
  obtain ⟨hst, hcnt, -, he, ho, hu, ha⟩ := h
  refine ⟨⟨?_, ?_, ?_⟩, ?_⟩
  · rw [he, ha, esel_eq hn]; decide
  · rw [ho, ha, osel_eq]; decide
  · rw [hu, ha]; decide
  · simp only [hst, hcnt]
    exact fun x hx => absurd hx (by simp [BitVec.lt_def])

theorem inv_of_reachable (hn : IDX ≤ 28) (h : (overMemory IDX m).Reachable s) : s.Inv m := by
  refine h.invariant (P := fun s => s.Inv m) ?_ ?_
  · exact fun s hs => inv_of_isReset hn hs
  · exact fun s i hs ha => inv_edge hn hs ha

/-! ## Acknowledged fetches -/

/-- What an acknowledged fetch knows: the registers were read for its address, and the
    lines of both its halves are in the cache. -/
theorem holds_of_fetchReady (hn : IDX ≤ 28) (hc : s.Coherent m) (hs : s.Settled)
    (hr : s.fetchReady i = true) :
    s.qA.extractLsb' 1 (IDX + 3) = i.fetchAddr.extractLsb' 1 (IDX + 3) ∧
      s.Holds i.fetchAddr ∧ s.Holds (i.fetchAddr + 2) := by
  simp only [Regs.fetchReady, Regs.hitA, Regs.hitB, Regs.specOk, Bool.and_eq_true, Bool.or_eq_true,
    Bool.not_eq_true', beq_iff_eq] at hr
  obtain ⟨⟨⟨-, hspec⟩, hav, hat⟩, hb⟩ := hr
  obtain ⟨hword, -, hidxB, -⟩ := arrays_congr hspec
  rw [hs.tagA, idxA, idxOf_eq_of_word hword] at hav hat
  rw [hs.tagB, hc.mirror, hidxB, idxB_eq hn] at hb
  refine ⟨hspec, ⟨hav, hat⟩, ?_⟩
  rcases hb with hb | hb
  · -- Both halves are of one line.
    have hl := lineNo_add_two hb
    rw [Regs.Holds, idxOf_congr hn hl, tagOf_congr hn hl]
    exact ⟨hav, hat⟩
  · exact hb

/-- Whenever a fetch is acknowledged, its data are the two halfwords of memory at its
    address. -/
theorem fetchRdata_of_reachable (hn : IDX ≤ 28) (h : (overMemory IDX m).Reachable s)
    (hr : s.fetchReady i = true) :
    s.fetchRdata = m.half (i.fetchAddr + 2) ++ m.half i.fetchAddr := by
  obtain ⟨hf, hinv⟩ := inv_of_reachable hn h
  have hst : s.state = .S_IDLE := by simp_all [Regs.fetchReady]
  simp only [hst] at hinv
  obtain ⟨hc, hs⟩ := hinv
  obtain ⟨hspec, hA, hB⟩ := holds_of_fetchReady hn hc hs hr
  obtain ⟨hword, heword, -, hbit⟩ := arrays_congr hspec
  have hhe : s.he = rowHalf (s.datEven (idxOf IDX (i.fetchAddr + 2)))
      ((i.fetchAddr + 2).extractLsb' 2 2) := by
    rw [Regs.he, hs.even, hf.esel, erow, esel, heword, ← erow_eq hn, ← esel_eq hn, erow, esel]
  have hho : s.ho = rowHalf (s.datOdd (idxOf IDX i.fetchAddr)) (i.fetchAddr.extractLsb' 2 2) := by
    rw [Regs.ho, hs.odd, hf.osel, orow, idxA, osel_eq, idxOf_eq_of_word hword, sel_eq_of_word hword]
  rw [Regs.fetchRdata, hf.unal, hbit, ← hc.cached _ hA, ← hc.cached _ hB, Regs.cachedHalf,
    Regs.cachedHalf, getLsbD_add_two, hhe, hho]
  cases hodd : i.fetchAddr.getLsbD 1 with
  | false =>
    -- Both halves are of one word, the even one at the fetched address.
    have hw := word_add_two_of_even hn hodd
    rw [idxOf_eq_of_word hw, sel_eq_of_word hw]
    rfl
  | true => rfl

/-- A cache as it may come out of a reset, with cleared arrays. -/
def resetRegs (IDX : ℕ) : Regs IDX :=
  ⟨fun _ => 0, fun _ => 0, fun _ => ⟨false, 0⟩, fun _ => ⟨false, 0⟩, .S_INIT, 0, 0, 0, 0,
    ⟨false, 0⟩, ⟨false, 0⟩, 0, 0, false, RESET_PC⟩

theorem isReset_resetRegs (IDX : ℕ) : (resetRegs IDX).IsReset :=
  ⟨rfl, rfl, rfl, rfl, rfl, rfl, rfl⟩

instance (s : Regs IDX) (i : Inputs × Reads IDX) : Decidable ((overMemory IDX m).admits s i) :=
  inferInstanceAs (Decidable (_ → _ → _))

/-- A memory in which every byte is the low byte of its address. -/
def lowBytes : Mem := fun a => a.setWidth 8

/-- A fetch of the last halfword of the address space by a cache of two sets. Its halves
    lie in the last set and in the first, and each line is refilled in turn. -/
def wrapFetch (n : ℕ) : Inputs × Reads 1 :=
  (⟨true, 0xFFFFFFFE, 0xFFFFFFFE, lowBytes.line (if n < 6 then 0xFFFFFFF0 else 0), true⟩,
    ⟨0, 0, ⟨false, 0⟩, ⟨false, 0⟩⟩)

/-- It is acknowledged on cycle 9, with the bytes at `0xFFFFFFFE`, `0xFFFFFFFF`, `0` and `1`. -/
theorem fetchRdata_wrap :
    ((overMemory 1 lowBytes).trace (resetRegs 1) wrapFetch 9).fetchReady (wrapFetch 9).1 = true ∧
      ((overMemory 1 lowBytes).trace (resetRegs 1) wrapFetch 9).fetchRdata = 0x0100FFFE := by
  have hr : (overMemory 1 lowBytes).Reachable
      ((overMemory 1 lowBytes).trace (resetRegs 1) wrapFetch 9) :=
    Circuit.reachable_trace (isReset_resetRegs 1) (by decide +kernel)
  refine ⟨by decide +kernel, ?_⟩
  rw [fetchRdata_of_reachable (i := (wrapFetch 9).1) (by decide) hr (by decide +kernel)]
  decide +kernel

end IcacheBram

end Rv32Soc
