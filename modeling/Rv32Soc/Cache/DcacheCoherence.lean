import Rv32Soc.Lib.Circuit
import Rv32Soc.Cache.DcacheBram

/-!
# Coherence of the data cache

The cache and the line memory below it, compared byte by byte with one abstract
memory that a store changes on the edge it commits (`Regs.memNext`), and whose
dirty lines a write-back moves to the line memory (`Regs.lowerNext`).

* `Regs.Coherent`: every line in the cache holds the memory's bytes, and so does
  the line memory wherever the cache does not hold a dirty line;
* `Regs.Settled`: in `S_IDLE` the output registers, once the bypass is applied,
  are the set they were read at;
* `Regs.Inv` adds what each state of a miss knows about the victim and its set,
  and `inv_next` that an edge keeps it. The only thing asked of the speculated
  index is about the victim: that the capture of a dirty one was read at the set
  of the miss. Everywhere else the index is arbitrary.

Hence a completed load returns the memory's word (`Inv.cpuRdata_eq`), and a
write-back writes the memory's line at the address it names
(`Inv.memWline_eq`).
-/

namespace Rv32Soc

namespace DcacheBram

variable {IDX : ℕ}

namespace Regs

variable (s : Regs IDX)

/-- The line of the address `a` is in the cache. -/
def Holds (a : Word) : Prop :=
  (s.tagv (idxOf IDX a)).valid = true ∧ (s.tagv (idxOf IDX a)).tag = tagOf IDX a

instance (a : Word) : Decidable (s.Holds a) := inferInstanceAs (Decidable (_ ∧ _))

/-- The byte the data banks hold for the address `a`. -/
def cachedByte (a : Word) : Byte := byteOf (s.d (a.extractLsb' 2 2) (idxOf IDX a)) (byteNo a)

/-- The line memory overlaid with the valid dirty lines of the cache. -/
def overlay (lower : Mem) : Mem := fun a =>
  if s.Holds a ∧ s.dirty (idxOf IDX a) = true then s.cachedByte a else lower a

/-- The cache and the line memory `lower` together hold the memory `mem`: every
    line in the cache has its contents, and so has every line in `lower` that is
    not dirty in the cache. -/
structure Coherent (lower mem : Mem) : Prop where
  cached : ∀ a, s.Holds a → s.cachedByte a = mem a
  lower : ∀ a, ¬(s.Holds a ∧ s.dirty (idxOf IDX a) = true) → lower a = mem a

/-- The output registers, with the bypass, hold the set they were read at. -/
structure Settled : Prop where
  tagv : s.qTagv = s.tagv s.qAIdx
  data : ∀ k, mergeBytes (s.q k) s.bypData (if s.bypV && s.bypWord == k then s.bypBe else 0) =
    s.d k s.qAIdx

/-- The invariant, state by state. -/
def Inv (lower mem : Mem) : Prop :=
  match s.state with
  | .S_INIT => (∀ x, x < s.sweepCnt → (s.tagv x).valid = false) ∧ lower = mem
  | .S_RECHECK => s.Coherent lower mem
  | .S_IDLE => s.Coherent lower mem ∧ s.Settled
  | .S_CAP => s.Coherent lower mem ∧
      (s.dirty s.missIdx = true → s.qTagv = s.tagv s.missIdx ∧ ∀ k, s.q k = s.d k s.missIdx)
  | .S_WB => s.Coherent lower mem ∧ s.tagv s.missIdx = ⟨true, s.wbTag⟩ ∧
      ∀ a, idxOf IDX a = s.missIdx → tagOf IDX a = s.wbTag →
        lineByte s.wbLine (offsetOf a) = mem a
  | .S_FILL => s.Coherent lower mem ∧ ∀ a, idxOf IDX a = s.missIdx → lower a = mem a

end Regs

variable {s : Regs IDX} {i : Inputs IDX} {lower mem : Mem}

theorem Regs.Coherent.overlay_eq (h : s.Coherent lower mem) : s.overlay lower = mem := by
  funext a
  unfold Regs.overlay
  split
  next hd => exact h.cached a hd.1
  next hd => exact h.lower a hd

/-- Two addresses of a set with the same tag and bank fall in the same word. -/
theorem wordNo_eq_of_parts (hn : IDX ≤ 28) {a b : Word} :
    wordNo a = wordNo b ↔
      (tagOf IDX a = tagOf IDX b ∧ idxOf IDX a = idxOf IDX b) ∧
      a.extractLsb' 2 2 = b.extractLsb' 2 2 := by
  rw [wordNo_eq_iff, ← lineNo_lineAddr hn b, lineNo_eq_lineAddr_iff hn]

/-! ## Each state of the FSM -/

/-- What a hit in a settled cache means: the requested line is in the cache, and
    the arrays were read at its set. -/
theorem holds_of_hit (hs : s.Settled) (h : s.hit i = true) :
    s.Holds i.cpuReqAddr ∧ s.qAIdx = i.mIdx := by
  simp only [Regs.hit, Regs.specOk, Bool.and_eq_true, beq_iff_eq] at h
  obtain ⟨⟨hv, ht⟩, hx⟩ := h
  rw [hs.tagv, hx] at hv ht
  exact ⟨⟨hv, ht⟩, hx⟩

/-- A completed load returns the memory's word. -/
theorem cpuRdata_of_hit (hn : IDX ≤ 28) (hc : s.Coherent lower mem) (hs : s.Settled)
    (h : s.hit i = true) : s.cpuRdata i = mem.word i.cpuReqAddr := by
  obtain ⟨hh, hx⟩ := holds_of_hit hs h
  apply word_ext
  intro b
  have hd : s.cpuRdata i = s.d i.mBank i.mIdx := by
    rw [Regs.cpuRdata, Regs.bypUse, hs.data, hx]
  -- The byte `b` of the word is the one at this address, of the same line.
  let a : Word := wordNo i.cpuReqAddr ++ b
  have hw : wordNo a = wordNo i.cpuReqAddr := BitVec.extractLsb'_append_eq_left
  have hb : byteNo a = b := BitVec.extractLsb'_append_eq_right
  obtain ⟨⟨ht, hi⟩, hk⟩ := (wordNo_eq_of_parts hn).1 hw
  have hha : s.Holds a := by
    rw [Regs.Holds, hi, ht]; exact hh
  rw [Mem.byteOf_word, hd, ← hc.cached a hha, Regs.cachedByte, hk, hi, hb]
  rfl

/-- The line memory after an edge: a write-back is written when it is acknowledged. -/
def Regs.lowerNext (s : Regs IDX) (i : Inputs IDX) (lower : Mem) : Mem :=
  if s.memReqWrite && i.memReady then lower.setLine s.memReqAddr s.memWline else lower

/-- The abstract memory after an edge: a store takes effect when it commits. -/
def Regs.memNext (s : Regs IDX) (i : Inputs IDX) (mem : Mem) : Mem :=
  if s.wrHit i then mem.store i.cpuReqAddr i.cpuWdata i.cpuWmask else mem

theorem coherent_next_of_quiet (h : s.Coherent lower mem) (hf : s.fillEn i = false)
    (hi : s.initEn = false) (hw : s.wrHit i = false) : (s.next i).Coherent lower mem := by
  have ht : (s.next i).tagv = s.tagv := by
    funext x; simp [Regs.next, Regs.edge, Regs.tagvWe, hf, hi]
  have hd : (s.next i).d = s.d := by
    funext k x; simp [Regs.next, Regs.edge, Regs.be, hf, hw]
  have hb : (s.next i).dirty = s.dirty := by
    funext x; simp [Regs.next, Regs.edge, hf, hw]
  constructor
  · intro a ha
    rw [Regs.Holds, ht] at ha
    rw [Regs.cachedByte, hd]
    exact h.cached a ha
  · intro a ha
    rw [Regs.Holds, ht, hb] at ha
    exact h.lower a ha

theorem inv_next_init (hst : s.state = .S_INIT) (h : s.Inv lower mem) :
    (s.next i).Inv lower mem := by
  simp only [Regs.Inv, hst] at h
  obtain ⟨hsw, rfl⟩ := h
  have ht : ∀ x, (s.next i).tagv x = if x = s.sweepCnt then ⟨false, 0⟩ else s.tagv x := fun x => by
    simp [Regs.next, Regs.edge, Regs.tagvWe, Regs.tagvWaddr, Regs.tagvWdata, Regs.initEn,
      Regs.fillEn, hst]
  have hclr : ∀ x, x < s.sweepCnt ∨ x = s.sweepCnt → ((s.next i).tagv x).valid = false := by
    intro x hx
    rw [ht]
    split
    next => rfl
    next hne => exact hsw x (hx.resolve_right hne)
  by_cases hl : s.sweepCnt = BitVec.allOnes IDX
  · -- The last set is swept: no line is valid, so the line memory is the memory.
    have hst' : (s.next i).state = .S_RECHECK := by
      simp [Regs.next, Regs.edge, Regs.nextState, hst, hl]
    simp only [Regs.Inv, hst']
    have hno : ∀ a, ¬(s.next i).Holds a := fun a ha => by
      have hx : idxOf IDX a < s.sweepCnt ∨ idxOf IDX a = s.sweepCnt := by
        rw [hl]; exact lt_or_eq_allOnes _
      rw [Regs.Holds, hclr _ hx] at ha
      exact absurd ha.1 (by decide)
    exact ⟨fun a ha => absurd ha (hno a), fun _ _ => rfl⟩
  · have hst' : (s.next i).state = .S_INIT := by
      simp [Regs.next, Regs.edge, Regs.nextState, hst, hl]
    have hcnt : (s.next i).sweepCnt = s.sweepCnt + 1 := by simp [Regs.next, Regs.edge, hst]
    simp only [Regs.Inv, hst', hcnt, and_true]
    exact fun x hx => hclr x (lt_or_eq_of_lt_add_one hx)

/-- Outside a refill and the sweep, an edge leaves the output registers settled:
    the bypass holds exactly what the read missed. -/
theorem settled_next (hf : s.fillEn i = false) (hi : s.initEn = false) : (s.next i).Settled := by
  constructor
  · simp [Regs.next, Regs.edge, Regs.arrayReads, Regs.tagvWe, hf, hi]
  · intro k
    cases hw : s.wrHit i with
    | false => simp [Regs.next, Regs.edge, Regs.arrayReads, Regs.be, hf, hw]
    | true =>
      by_cases hx : i.mIdx = i.aIdx
      · simp [Regs.next, Regs.edge, Regs.arrayReads, Regs.be, Regs.wd, Regs.waddr, hf, hw, hx]
      · simp [Regs.next, Regs.edge, Regs.arrayReads, Regs.waddr, hf, hw, hx, Ne.symm hx]

/-- A store that commits keeps the cache coherent with the memory it stores to. -/
theorem coherent_next_of_wrHit (hn : IDX ≤ 28) (hc : s.Coherent lower mem) (hs : s.Settled)
    (hw : s.wrHit i = true) :
    (s.next i).Coherent lower (mem.store i.cpuReqAddr i.cpuWdata i.cpuWmask) := by
  have hidle : s.state = .S_IDLE := by simp_all [Regs.wrHit]
  have hhit : s.hit i = true := by simp_all [Regs.wrHit]
  have hf : s.fillEn i = false := by simp [Regs.fillEn, hidle]
  have hi : s.initEn = false := by simp [Regs.initEn, hidle]
  obtain ⟨hh, -⟩ := holds_of_hit hs hhit
  have ht : (s.next i).tagv = s.tagv := by
    funext x; simp [Regs.next, Regs.edge, Regs.tagvWe, hf, hi]
  have hdirty : ∀ x, (s.next i).dirty x = (decide (x = i.mIdx) || s.dirty x) := fun x => by
    simp only [Regs.next, Regs.edge, hf, hw, if_true, Bool.false_eq_true, if_false]
    split <;> simp_all
  have hd : ∀ k x, (s.next i).d k x =
      if x = i.mIdx then mergeBytes (s.d k x) i.cpuWdata (if i.mBank = k then i.cpuWmask else 0)
      else s.d k x := fun k x => by
    simp [Regs.next, Regs.edge, Regs.be, Regs.wd, Regs.waddr, hf, hw]
  -- A line in the cache at the set of the store is the line of the store.
  have hword : ∀ a, s.Holds a → (wordNo a = wordNo i.cpuReqAddr ↔
      idxOf IDX a = i.mIdx ∧ i.mBank = a.extractLsb' 2 2) := fun a ha => by
    rw [wordNo_eq_of_parts hn]
    refine ⟨fun h => ⟨h.1.2, h.2.symm⟩, fun h => ⟨⟨?_, h.1⟩, h.2.symm⟩⟩
    rw [← ha.2, ← hh.2, h.1]
    rfl
  constructor
  · intro a ha
    rw [Regs.Holds, ht] at ha
    simp only [Regs.cachedByte, hd, Mem.store, hword a ha]
    have hold := hc.cached a ha
    rw [Regs.cachedByte] at hold
    by_cases hx : idxOf IDX a = i.mIdx
    · by_cases hk : i.mBank = a.extractLsb' 2 2
      · simp [hx, hk, ← hold]
      · simp [hx, hk, ← hold]
    · simp [hx, ← hold]
  · intro a ha
    rw [Regs.Holds, ht, hdirty] at ha
    have hold : ¬(s.Holds a ∧ s.dirty (idxOf IDX a) = true) := fun h => ha ⟨h.1, by simp [h.2]⟩
    rw [hc.lower a hold, Mem.store, if_neg]
    rintro ⟨hwd, -⟩
    -- The word stored to is in the cache, and dirty after the store.
    obtain ⟨⟨hta, hia⟩, -⟩ := (wordNo_eq_of_parts hn).1 hwd
    refine ha ⟨?_, by simp [hia, Inputs.mIdx]⟩
    rw [hia, hta]
    exact hh

theorem inv_next_idle (hn : IDX ≤ 28) (hst : s.state = .S_IDLE) (h : s.Inv lower mem)
    (hcap : s.missed i = true → s.dirty i.mIdx = true → i.aIdx = i.mIdx) :
    (s.next i).Inv lower (s.memNext i mem) := by
  simp only [Regs.Inv, hst] at h
  obtain ⟨hc, hs⟩ := h
  have hf : s.fillEn i = false := by simp [Regs.fillEn, hst]
  have hi : s.initEn = false := by simp [Regs.initEn, hst]
  have hc' : (s.next i).Coherent lower (s.memNext i mem) := by
    cases hw : s.wrHit i with
    | false => simpa [Regs.memNext, hw] using coherent_next_of_quiet hc hf hi hw
    | true => simpa [Regs.memNext, hw] using coherent_next_of_wrHit hn hc hs hw
  have hs' : (s.next i).Settled := settled_next hf hi
  by_cases hm : i.cpuReqValid = true ∧ s.hit i = false
  · by_cases hsp : s.specOk i = true
    · -- A miss: nothing is written, and the victim is read on this edge.
      have hmiss : s.missed i = true := by simp [Regs.missed, hst, hm, hsp]
      have hw : s.wrHit i = false := by simp [Regs.wrHit, hm]
      have hst' : (s.next i).state = .S_CAP := by
        simp [Regs.next, Regs.edge, Regs.nextState, hst, hm, hsp]
      simp only [Regs.Inv, hst']
      refine ⟨hc', fun hd => ?_⟩
      have hx : i.aIdx = i.mIdx := hcap hmiss (by
        simpa [Regs.next, Regs.edge, hf, hw, hmiss] using hd)
      refine ⟨?_, fun k => ?_⟩
      · simp [Regs.next, Regs.edge, Regs.arrayReads, Regs.tagvWe, hf, hi, hmiss, hx]
      · simp [Regs.next, Regs.edge, Regs.arrayReads, Regs.be, hf, hw, hmiss, hx]
    · have hst' : (s.next i).state = .S_RECHECK := by
        simp [Regs.next, Regs.edge, Regs.nextState, hst, hm, hsp]
      simpa only [Regs.Inv, hst'] using hc'
  · have hst' : (s.next i).state = .S_IDLE := by
      simp only [not_and, Bool.not_eq_false] at hm
      simp only [Regs.next, Regs.edge, Regs.nextState, hst]
      split <;> simp_all
    simp only [Regs.Inv, hst']
    exact ⟨hc', hs'⟩

/-- Only a miss leads to the capture of a victim. -/
theorem missed_of_cap (h : (s.next i).state = .S_CAP) :
    s.missed i = true := by
  revert h
  simp only [Regs.next, Regs.edge, Regs.nextState, Regs.missed]
  cases s.state <;> simp <;> grind

theorem inv_next_cap (hst : s.state = .S_CAP) (h : s.Inv lower mem)
    (hheld : i.mIdx = s.missIdx) : (s.next i).Inv lower mem := by
  simp only [Regs.Inv, hst] at h
  obtain ⟨hc, hq⟩ := h
  have hf : s.fillEn i = false := by simp [Regs.fillEn, hst]
  have hi : s.initEn = false := by simp [Regs.initEn, hst]
  have hw : s.wrHit i = false := by simp [Regs.wrHit, hst]
  have hm : s.missed i = false := by simp [Regs.missed, hst]
  have hc' := coherent_next_of_quiet hc hf hi hw
  have hmi : (s.next i).missIdx = s.missIdx := by simp [Regs.next, Regs.edge, hm]
  cases hwb : s.wbNeeded i with
  | true =>
    -- The victim is valid and dirty, and it is what the output registers hold.
    simp only [Regs.wbNeeded, Bool.and_eq_true, hheld] at hwb
    obtain ⟨hqt, hqd⟩ := hq hwb.2
    have hst' : (s.next i).state = .S_WB := by
      simp [Regs.next, Regs.edge, Regs.nextState, Regs.wbNeeded, hst, hheld, hwb]
    have ht : s.tagv s.missIdx = ⟨true, s.qTagv.tag⟩ := by
      rw [← hqt, ← hwb.1]
    simp only [Regs.Inv, hst']
    refine ⟨hc', ?_, fun a hia hta => ?_⟩
    · simpa [Regs.next, Regs.edge, Regs.tagvWe, hf, hi, hm, hst] using ht
    · have hia' : idxOf IDX a = s.missIdx := hmi ▸ hia
      have hta' : tagOf IDX a = s.qTagv.tag := by
        simpa [Regs.next, Regs.edge, hst] using hta
      have hh : s.Holds a := by rw [Regs.Holds, hia', ht, hta']; exact ⟨rfl, rfl⟩
      have hl : (s.next i).wbLine = lineOfWords s.q := by simp [Regs.next, Regs.edge, hst]
      rw [hl, lineByte_lineOfWords, bankOf_offsetOf, laneOf_offsetOf, hqd, ← hia']
      exact hc.cached a hh
  | false =>
    have hst' : (s.next i).state = .S_FILL := by
      simp [Regs.next, Regs.edge, Regs.nextState, hst, hwb]
    simp only [Regs.Inv, hst']
    refine ⟨hc', fun a hia => hc.lower a fun hd => ?_⟩
    rw [hmi] at hia
    rw [hia] at hd
    rw [Regs.Holds, hia, ← (hq hd.2).1] at hd
    simp [Regs.wbNeeded, hheld, hd.2, hd.1.1] at hwb

theorem inv_next_wb (hn : IDX ≤ 28) (hst : s.state = .S_WB) (h : s.Inv lower mem) :
    (s.next i).Inv (s.lowerNext i lower) mem := by
  simp only [Regs.Inv, hst] at h
  obtain ⟨hc, ht, hl⟩ := h
  have hf : s.fillEn i = false := by simp [Regs.fillEn, hst]
  have hi : s.initEn = false := by simp [Regs.initEn, hst]
  have hw : s.wrHit i = false := by simp [Regs.wrHit, hst]
  have hm : s.missed i = false := by simp [Regs.missed, hst]
  have hmi : (s.next i).missIdx = s.missIdx := by simp [Regs.next, Regs.edge, hm]
  cases hr : i.memReady with
  | false =>
    have hst' : (s.next i).state = .S_WB := by
      simp [Regs.next, Regs.edge, Regs.nextState, hst, hr]
    have hlow : s.lowerNext i lower = lower := by simp [Regs.lowerNext, hr]
    rw [hlow]
    simp only [Regs.Inv, hst']
    refine ⟨coherent_next_of_quiet hc hf hi hw, ?_, ?_⟩
    · simpa [Regs.next, Regs.edge, Regs.tagvWe, hf, hi, hm, hst] using ht
    · simpa [Regs.next, Regs.edge, hm, hst] using hl
  | true =>
    have hst' : (s.next i).state = .S_FILL := by
      simp [Regs.next, Regs.edge, Regs.nextState, hst, hr]
    have haddr : s.memReqAddr = lineAddr s.wbTag s.missIdx := by simp [Regs.memReqAddr, hst]
    have hlow : s.lowerNext i lower = lower.setLine (lineAddr s.wbTag s.missIdx) s.wbLine := by
      simp [Regs.lowerNext, Regs.memReqWrite, Regs.memWline, hst, hr, haddr]
    have hset : ∀ a, lower.setLine (lineAddr s.wbTag s.missIdx) s.wbLine a =
        if tagOf IDX a = s.wbTag ∧ idxOf IDX a = s.missIdx then mem a else lower a := fun a => by
      simp only [Mem.setLine, lineNo_eq_lineAddr_iff hn]
      split
      next hin => exact hl a hin.2 hin.1
      next => rfl
    rw [hlow]
    simp only [Regs.Inv, hst']
    refine ⟨coherent_next_of_quiet ⟨hc.cached, fun a ha => ?_⟩ hf hi hw, fun a hia => ?_⟩
    · rw [hset]
      split
      next => rfl
      next => exact hc.lower a ha
    · rw [hmi] at hia
      rw [hset]
      -- The rest of the set was in the line memory already.
      by_cases hta : tagOf IDX a = s.wbTag
      · simp [hta, hia]
      · simp only [hta, false_and, if_false]
        refine hc.lower a fun hd => hta ?_
        rw [Regs.Holds, hia, ht] at hd
        exact hd.1.2.symm

theorem inv_next_fill (hn : IDX ≤ 28) (hst : s.state = .S_FILL) (h : s.Inv lower mem)
    (hline : i.memReady = true → i.memRline = lower.line s.memReqAddr) :
    (s.next i).Inv lower mem := by
  simp only [Regs.Inv, hst] at h
  obtain ⟨hc, hset⟩ := h
  have hi : s.initEn = false := by simp [Regs.initEn, hst]
  have hw : s.wrHit i = false := by simp [Regs.wrHit, hst]
  have hm : s.missed i = false := by simp [Regs.missed, hst]
  cases hr : i.memReady with
  | false =>
    have hf : s.fillEn i = false := by simp [Regs.fillEn, hr]
    have hst' : (s.next i).state = .S_FILL := by
      simp [Regs.next, Regs.edge, Regs.nextState, hst, hr]
    simp only [Regs.Inv, hst']
    exact ⟨coherent_next_of_quiet hc hf hi hw, by simpa [Regs.next, Regs.edge, hm] using hset⟩
  | true =>
    have hf : s.fillEn i = true := by simp [Regs.fillEn, hst, hr]
    have hst' : (s.next i).state = .S_RECHECK := by
      simp [Regs.next, Regs.edge, Regs.nextState, hst, hr]
    have haddr : s.memReqAddr = lineAddr s.missTag s.missIdx := by simp [Regs.memReqAddr, hst]
    have ht : ∀ x, (s.next i).tagv x = if x = s.missIdx then ⟨true, s.missTag⟩ else s.tagv x :=
      fun x => by simp [Regs.next, Regs.edge, Regs.tagvWe, Regs.tagvWaddr, Regs.tagvWdata, hf, hi]
    have hdirty : ∀ x, (s.next i).dirty x = if x = s.missIdx then false else s.dirty x :=
      fun x => by simp [Regs.next, Regs.edge, hf]
    have hd : ∀ k x, (s.next i).d k x =
        if x = s.missIdx then lineWord (lower.line s.memReqAddr) k else s.d k x := fun k x => by
      simp [Regs.next, Regs.edge, Regs.be, Regs.wd, Regs.waddr, hf, hline hr]
    simp only [Regs.Inv, hst']
    constructor
    · intro a ha
      by_cases hx : idxOf IDX a = s.missIdx
      · -- The refilled line: its bytes are the line memory's, which is up to date.
        rw [Regs.Holds, ht, if_pos hx] at ha
        have hl : lineNo a = lineNo s.memReqAddr := by
          rw [haddr]; exact (lineNo_eq_lineAddr_iff hn).2 ⟨ha.2.symm, hx⟩
        rw [Regs.cachedByte, hd, if_pos hx, ← bankOf_offsetOf, ← laneOf_offsetOf, byteOf_lineWord,
          Mem.lineByte_line _ hl]
        exact hset a hx
      · rw [Regs.Holds, ht, if_neg hx] at ha
        rw [Regs.cachedByte, hd, if_neg hx]
        exact hc.cached a ha
    · intro a ha
      by_cases hx : idxOf IDX a = s.missIdx
      · exact hset a hx
      · rw [Regs.Holds, ht, hdirty, if_neg hx, if_neg hx] at ha
        exact hc.lower a ha

theorem inv_next_recheck (hst : s.state = .S_RECHECK) (h : s.Inv lower mem) :
    (s.next i).Inv lower mem := by
  simp only [Regs.Inv, hst] at h
  have hf : s.fillEn i = false := by simp [Regs.fillEn, hst]
  have hi : s.initEn = false := by simp [Regs.initEn, hst]
  have hst' : (s.next i).state = .S_IDLE := by simp [Regs.next, Regs.edge, Regs.nextState, hst]
  simp only [Regs.Inv, hst']
  exact ⟨coherent_next_of_quiet h hf hi (by simp [Regs.wrHit, hst]), settled_next hf hi⟩

/-- An edge keeps the invariant, provided that the request is held while its
    victim is captured, that a refill delivers the line asked for, and that the
    victim of a miss on a dirty set is read at the set of the miss. -/
theorem inv_next (hn : IDX ≤ 28) (h : s.Inv lower mem)
    (hcap : s.missed i = true → s.dirty i.mIdx = true → i.aIdx = i.mIdx)
    (hheld : s.state = .S_CAP → i.mIdx = s.missIdx)
    (hline : s.fillEn i = true → i.memRline = lower.line s.memReqAddr) :
    (s.next i).Inv (s.lowerNext i lower) (s.memNext i mem) := by
  have hlow : s.state ≠ .S_WB → s.lowerNext i lower = lower := fun hne => by
    simp [Regs.lowerNext, Regs.memReqWrite, hne]
  have hmem : s.state ≠ .S_IDLE → s.memNext i mem = mem := fun hne => by
    simp [Regs.memNext, Regs.wrHit, hne]
  cases hst : s.state with
  | S_INIT =>
    rw [hlow (by simp [hst]), hmem (by simp [hst])]
    exact inv_next_init hst h
  | S_IDLE =>
    rw [hlow (by simp [hst])]
    exact inv_next_idle hn hst h hcap
  | S_CAP =>
    rw [hlow (by simp [hst]), hmem (by simp [hst])]
    exact inv_next_cap hst h (hheld hst)
  | S_WB =>
    rw [hmem (by simp [hst])]
    exact inv_next_wb hn hst h
  | S_FILL =>
    rw [hlow (by simp [hst]), hmem (by simp [hst])]
    exact inv_next_fill hn hst h fun hr => hline (by simp [Regs.fillEn, hst, hr])
  | S_RECHECK =>
    rw [hlow (by simp [hst]), hmem (by simp [hst])]
    exact inv_next_recheck hst h

/-- A reset leaves the invariant: the memory is the line memory. -/
theorem inv_of_isReset (h : s.IsReset) : s.Inv lower lower := by
  simp only [Regs.Inv, h.1, h.2.1, and_true]
  exact fun x hx => absurd hx (BitVec.not_lt_zero)

/-! ## What the invariant gives -/

/-- Once the sweep is over, the line memory overlaid with the dirty lines is the memory. -/
theorem Regs.Inv.overlay_eq (h : s.Inv lower mem) (hst : s.state ≠ .S_INIT) :
    s.overlay lower = mem := by
  apply Regs.Coherent.overlay_eq
  unfold Regs.Inv at h
  cases hs : s.state <;> simp_all

/-- A completed load returns the memory's word. -/
theorem Regs.Inv.cpuRdata_eq (hn : IDX ≤ 28) (h : s.Inv lower mem) (hr : s.cpuReady i = true) :
    s.cpuRdata i = mem.word i.cpuReqAddr := by
  simp only [Regs.cpuReady, Bool.and_eq_true, beq_iff_eq] at hr
  simp only [Regs.Inv, hr.1.1] at h
  exact cpuRdata_of_hit hn h.1 h.2 hr.2

/-- A write-back writes the memory's line at the address it names. -/
theorem Regs.Inv.memWline_eq (hn : IDX ≤ 28) (h : s.Inv lower mem) (hw : s.memReqWrite = true) :
    s.memWline = mem.line s.memReqAddr := by
  have hst : s.state = .S_WB := by simpa [Regs.memReqWrite] using hw
  have haddr : s.memReqAddr = lineAddr s.wbTag s.missIdx := by simp [Regs.memReqAddr, hst]
  simp only [Regs.Inv, hst] at h
  apply line_ext
  intro o
  let a : Word := lineNo s.memReqAddr ++ o
  have hl : lineNo a = lineNo s.memReqAddr := BitVec.extractLsb'_append_eq_left
  have ho : offsetOf a = o := BitVec.extractLsb'_append_eq_right
  obtain ⟨hta, hia⟩ := (lineNo_eq_lineAddr_iff hn).1 (hl.trans (congrArg lineNo haddr))
  rw [← ho, Mem.lineByte_line _ hl]
  exact h.2.2 a hia hta

end DcacheBram

end Rv32Soc
