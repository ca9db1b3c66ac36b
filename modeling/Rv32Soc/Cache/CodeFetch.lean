import Rv32Soc.Cache.IcacheFetch
import Rv32Soc.Cache.Tcm

/-!
# Code in a memory that is written

What the two instruction ports return while the data side writes.

Nothing tells `icache_bram` that memory has changed: a line that it holds stays as it was
when it was filled. The cache is therefore coherent not with the memory below, but with one
in which each line is as it was filled last (`Regs.filled`). Where nothing is ever written,
as in the code of a program, the two agree. The instruction port of the TCM reads its banks.

* `Regs.Inv.edge_filled`: an edge keeps the invariant, whatever the memory below has become;
* `Regs.Inv.fetchRdata_eq`: what is fetched from the cache, by the invariant;
* `Tcm.iRdata_next`: what is fetched from the TCM.
-/

namespace Rv32Soc

/-- Another line is as it was. -/
theorem Mem.half_setLine_of_ne (m : Mem) {a x : Word} (l : Line) (h : lineNo a ≠ lineNo x) :
    (m.setLine x l).half a = m.half a := by
  simp only [half, setLine, lineNo_halfNo_append, if_neg h]

/-! ## The cache -/

namespace IcacheBram

variable {IDX : ℕ} {s : Regs IDX} {i : Inputs} {r : Reads IDX} {m : Mem}

/-- The memory that the cache is coherent with after an edge. -/
def Regs.filled (s : Regs IDX) (i : Inputs) (m : Mem) : Mem :=
  if s.wrEn i then m.setLine s.missAddrQ i.memRline else m

/-- A refill puts the line that arrives in the set. -/
theorem Regs.Coherent.edge_setLine (hn : IDX ≤ 28) (h : s.Coherent m) (hw : s.wrEn i = true) :
    (s.edge i r).Coherent (m.setLine s.missAddrQ i.memRline) := by
  have hst : s.state = .S_FILL := by simp_all [Regs.wrEn]
  have hi : s.initEn = false := by simp [Regs.initEn, hst]
  have ht : s.tagWe i = true := by simp [Regs.tagWe, hw]
  have htag : ∀ x, (s.edge i r).tagA x = if x = s.wrIdx then ⟨true, s.wrTag⟩ else s.tagA x :=
    fun x => by simp [Regs.edge, ht, Regs.tagWaddr, Regs.tagWdata, hi]
  refine ⟨by simp [Regs.edge, h.mirror], fun a ha => ?_⟩
  rw [Regs.Holds, htag] at ha
  by_cases hx : idxOf IDX a = s.wrIdx
  · rw [if_pos hx] at ha
    -- the set and the tag of the refill: the address is of its line
    have hl : lineNo a = lineNo s.missAddrQ := by
      rw [← lineNo_lineAddr hn s.missAddrQ, lineNo_eq_lineAddr_iff hn]
      exact ⟨ha.2.symm, hx⟩
    rw [← Mem.lineHalf_line _ hl, Mem.line_setLine, half_of_line, Regs.cachedHalf, hx]
    cases a.getLsbD 1 with
    | false => simp [Regs.edge, hw, rowHalf_wdEven]
    | true => simp [Regs.edge, hw, rowHalf_wdOdd]
  · rw [if_neg hx] at ha
    have hc : (s.edge i r).cachedHalf a = s.cachedHalf a := by simp [Regs.cachedHalf, Regs.edge, hx]
    have hl : lineNo a ≠ lineNo s.missAddrQ := fun hl => hx (idxOf_congr hn hl)
    rw [hc, Mem.half_setLine_of_ne _ _ hl]
    exact h.cached a ha

/-- An edge keeps the invariant. -/
theorem Regs.Inv.edge_filled (hn : IDX ≤ 28) (h : s.Inv m) :
    (s.edge i (s.collidingReads i r)).Inv (s.filled i m) := by
  cases hw : s.wrEn i with
  | false =>
    rw [filled, hw, if_neg Bool.false_ne_true]
    refine inv_edge hn h fun hv hr => ?_
    rw [wrEn, ← memReqValid, hv, hr] at hw
    cases hw
  | true =>
    have hst : s.state = .S_FILL := by simp_all [wrEn]
    have hr : i.memReady = true := by simp_all [wrEn]
    have hc : s.Coherent m := by simpa only [hst] using h.2
    have hst' : (s.edge i (s.collidingReads i r)).state = .S_RECHECK := by
      simp [edge, nextState, hst, hr]
    rw [filled, hw, if_pos rfl]
    refine ⟨follows_edge, ?_⟩
    simp only [hst']
    exact hc.edge_setLine hn hw

/-- Code that memory and the cache agree on is filled as it is. -/
theorem filled_eq {m' : Mem} {a : Word} (h : m a = m' a)
    (hl : s.wrEn i → i.memRline = m'.line s.missAddrQ) : s.filled i m a = m' a := by
  rw [Regs.filled]
  split
  · next hw =>
    rw [Mem.setLine, hl hw]
    split
    · next hx => exact Mem.lineByte_line m' hx
    · exact h
  · exact h

/-- An acknowledged fetch returns the two halfwords at its address. -/
theorem Regs.Inv.fetchRdata_eq (hn : IDX ≤ 28) (h : s.Inv m) (hr : s.fetchReady i = true) :
    s.fetchRdata = m.half (i.fetchAddr + 2) ++ m.half i.fetchAddr := by
  obtain ⟨hf, hinv⟩ := h
  have hst : s.state = .S_IDLE := by simp_all [fetchReady]
  simp only [hst] at hinv
  obtain ⟨hc, hs⟩ := hinv
  obtain ⟨hspec, hA, hB⟩ := holds_of_fetchReady hn hc hs hr
  obtain ⟨hword, heword, -, hbit⟩ := arrays_congr hspec
  have hhe : s.he = rowHalf (s.datEven (idxOf IDX (i.fetchAddr + 2)))
      ((i.fetchAddr + 2).extractLsb' 2 2) := by
    rw [he, hs.even, hf.esel, erow, esel, heword, ← erow_eq hn, ← esel_eq hn, erow, esel]
  have hho : s.ho = rowHalf (s.datOdd (idxOf IDX i.fetchAddr)) (i.fetchAddr.extractLsb' 2 2) := by
    rw [ho, hs.odd, hf.osel, orow, idxA, osel_eq, idxOf_eq_of_word hword, sel_eq_of_word hword]
  rw [fetchRdata, hf.unal, hbit, ← hc.cached _ hA, ← hc.cached _ hB, cachedHalf, cachedHalf,
    getLsbD_add_two, hhe, hho]
  cases hodd : i.fetchAddr.getLsbD 1 with
  | false =>
    have hw := word_add_two_of_even hn hodd
    rw [idxOf_eq_of_word hw, sel_eq_of_word hw]
    rfl
  | true => rfl

end IcacheBram

/-! ## The TCM -/

namespace Tcm

variable {K : ℕ} {s : Regs K} {i : Inputs}

theorem toNat_index (K : ℕ) (a : Word) : (index K a).toNat = (a - TCM_BASE).toNat / 4 % 2 ^ K := by
  rw [index, BitVec.extractLsb'_toNat, Nat.shiftRight_eq_div_pow]

theorem getLsbD_one (a : Word) : a.getLsbD 1 = decide (a.toNat / 2 % 2 = 1) := by
  rw [BitVec.getLsbD, Nat.testBit_eq_decide_div_mod_eq, pow_one]

/-- The halfword of an address is in the bank of its parity. -/
theorem half_byteAt (hK : K ≤ 28) {a : Word} (ha : inRange K a = true) :
    s.byteAt.half a = if a.getLsbD 1 then s.memOdd (index K a) else s.memEven (index K a) := by
  have hw : ∀ b : BitVec 1, wordNo (halfNo a ++ b : BitVec 32) = wordNo a := by
    intro b
    have hb := b.isLt
    rw [← BitVec.toNat_inj, toNat_wordNo, toNat_wordNo, toNat_halfNo_append]
    omega
  have hb : ∀ b : BitVec 1, byteNo (halfNo a ++ b : BitVec 32) = BitVec.ofBool (a.getLsbD 1) ++ b := by
    intro b
    have hb := b.isLt
    rw [← BitVec.toNat_inj, toNat_byteNo, toNat_halfNo_append, BitVec.toNat_append,
      ← Nat.shiftLeft_add_eq_or_of_lt hb, Nat.shiftLeft_eq, getLsbD_one]
    rcases Nat.mod_two_eq_zero_or_one (a.toNat / 2) with h | h <;> simp [h] <;> omega
  have hx : ∀ b : BitVec 1, s.byteAt (halfNo a ++ b : BitVec 32) =
      byteOf (s.wordAt a) (BitVec.ofBool (a.getLsbD 1) ++ b) := by
    intro b
    have hi := (index_eq_iff hK ((inRange_congr hK (hw b)).trans ha) ha).2 (hw b)
    rw [Regs.byteAt, Regs.wordAt, hi, hb]
    rfl
  rw [Mem.half, hx, hx, Regs.wordAt]
  cases a.getLsbD 1
  · apply BitVec.eq_of_getLsbD_eq
    intro k hk
    simp [byteOf]
    grind
  · apply BitVec.eq_of_getLsbD_eq
    intro k hk
    simp [byteOf]
    grind

theorem getLsbD_offset (a : Word) : (a - TCM_BASE).getLsbD 1 = a.getLsbD 1 := by
  rw [getLsbD_one, getLsbD_one, BitVec.toNat_sub, show TCM_BASE.toNat = 0x40000000 from rfl]
  congr 1
  have := a.isLt
  rw [eq_iff_iff]
  omega

/-- The word after a halfword of odd number. -/
theorem index_add_two (hK : K ≤ 28) (a : Word) :
    index K (a + 2) = if a.getLsbD 1 then index K a + 1 else index K a := by
  have hd : 2 ^ 30 = 2 ^ K * 2 ^ (30 - K) := by rw [← pow_add]; congr 1; omega
  have hmod : ∀ x : ℕ, x % 2 ^ 32 / 4 % 2 ^ K = x / 4 % 2 ^ K := by
    intro x
    have : x % 2 ^ 32 / 4 = x / 4 % 2 ^ 30 := by omega
    rw [this, hd, Nat.mod_mul_right_mod]
  apply BitVec.eq_of_toNat_eq
  have hsub : ∀ c : Word, (index K c).toNat = (2 ^ 32 - 0x40000000 + c.toNat) / 4 % 2 ^ K := by
    intro c
    rw [toNat_index, BitVec.toNat_sub, hmod]
    rfl
  have hadd : (index K (a + 2)).toNat = (2 ^ 32 - 0x40000000 + (a.toNat + 2)) / 4 % 2 ^ K := by
    rw [toNat_index, BitVec.toNat_sub, BitVec.toNat_add, hmod, ← hmod, Nat.add_mod_mod, hmod]
    rfl
  rw [hadd, getLsbD_one]
  split
  · next h =>
    rw [decide_eq_true_eq] at h
    have hnext : (2 ^ 32 - 0x40000000 + (a.toNat + 2)) / 4 =
        (2 ^ 32 - 0x40000000 + a.toNat) / 4 + 1 := by
      omega
    have hone : (1 : BitVec K).toNat = 1 % 2 ^ K := BitVec.toNat_ofNat 1 K
    rw [BitVec.toNat_add, hsub, hnext, Nat.add_mod, hone]
  · next h =>
    rw [decide_eq_true_eq] at h
    rw [hsub]
    congr 1
    omega

/-- What is fetched: the halfword at the address, and, if that is in the memory as well, the one
    after it. -/
theorem iRdata_next (hK : K ≤ 28) (hr : (s.next i).iReady) :
    (s.next i).iRdata.extractLsb' 0 16 = s.byteAt.half i.iAddr ∧
      (inRange K (i.iAddr + 2) →
        (s.next i).iRdata = s.byteAt.half (i.iAddr + 2) ++ s.byteAt.half i.iAddr) := by
  have hgo : (i.iReq && inRange K i.iAddr) = true := hr
  have ha : inRange K i.iAddr = true := (Bool.and_eq_true_iff.1 hgo).2
  have hrd : (s.next i).iRdata =
      if i.iAddr.getLsbD 1 then s.memEven (index K i.iAddr + 1) ++ s.memOdd (index K i.iAddr)
      else s.memOdd (index K i.iAddr) ++ s.memEven (index K i.iAddr) := by
    simp only [Regs.iRdata, Regs.next, hgo, if_true, getLsbD_offset]
    cases i.iAddr.getLsbD 1 <;> rfl
  have hlow : ∀ x y : Half, (x ++ y : Word).extractLsb' 0 16 = y :=
    fun x y => BitVec.extractLsb'_append_eq_right
  have htwo : (i.iAddr + 2).getLsbD 1 = !i.iAddr.getLsbD 1 := by
    rw [getLsbD_one, getLsbD_one, BitVec.toNat_add, show (2 : Word).toNat = 2 from rfl,
      Bool.eq_not, ne_eq, decide_eq_decide]
    omega
  refine ⟨?_, fun hb => ?_⟩
  · rw [half_byteAt hK ha, hrd]
    cases i.iAddr.getLsbD 1 <;> exact hlow _ _
  · rw [half_byteAt hK ha, half_byteAt hK hb, hrd, index_add_two hK, htwo]
    cases i.iAddr.getLsbD 1 <;> rfl

end Tcm

end Rv32Soc
