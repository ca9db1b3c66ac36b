import Rv32Soc.Cache.DcacheSpeculation

/-!
# The data cache from one access to the next

What `dcache_bram.v` and the line memory hold between two accesses, whatever they hold: the
sets, and the memory below. A load of a line that is not there writes the dirty line of its
set back, and takes its place (`load`); the FSM does exactly this, over any number of cycles
(`view_of_served`).

The data of the CPU is what its dirty lines and the memory make together (`latest`). A load
moves it, and changes nothing of it (`latest_load`).
-/

namespace Rv32Soc

namespace DcacheBram

/-- The sets of the cache, and the line memory. -/
structure CachedMem (IDX : ℕ) where
  d : BitVec 2 → BitVec IDX → Word
  tagv : BitVec IDX → TagV IDX
  dirty : BitVec IDX → Bool
  lower : Mem

variable {IDX : ℕ}

namespace CachedMem

variable (s : CachedMem IDX) (a b : Word) (x : BitVec IDX)

/-- The line of the address `a` is in the cache. -/
def Holds : Prop := (s.tagv (idxOf IDX a)).valid = true ∧ (s.tagv (idxOf IDX a)).tag = tagOf IDX a

instance : Decidable (s.Holds a) := inferInstanceAs (Decidable (_ ∧ _))

/-- The line of the address `a` is in the cache, and dirty. -/
def HoldsDirty : Prop := s.Holds a ∧ s.dirty (idxOf IDX a) = true

instance : Decidable (s.HoldsDirty a) := inferInstanceAs (Decidable (_ ∧ _))

/-- The byte the cache has for the address `a`. -/
def cachedByte : Byte := byteOf (s.d (a.extractLsb' 2 2) (idxOf IDX a)) (byteNo a)

/-- The latest data of the CPU. -/
def latest : Mem := fun a => if s.HoldsDirty a then s.cachedByte a else s.lower a

/-- What a load of a byte returns. -/
def read : Byte := if s.Holds a then s.cachedByte a else s.lower a

/-- The line memory once the line of the set `x` is written back, if it has to be. -/
def writeBack : Mem :=
  if (s.tagv x).valid && s.dirty x then s.lower.setLine (lineAddr (s.tagv x).tag x)
    (lineOfWords fun k => s.d k x)
  else s.lower

/-- After a load. -/
def load : CachedMem IDX :=
  if s.Holds a then s
  else
    { d k x := if x = idxOf IDX a then lineWord ((s.writeBack (idxOf IDX a)).line a) k else s.d k x
      tagv x := if x = idxOf IDX a then ⟨true, tagOf IDX a⟩ else s.tagv x
      dirty x := if x = idxOf IDX a then false else s.dirty x
      lower := s.writeBack (idxOf IDX a) }

/-- After a store: the line is there, has the bytes stored, and is dirty. -/
def store (data : Word) (be : BitVec 4) : CachedMem IDX where
  d k x := if x = idxOf IDX a ∧ a.extractLsb' 2 2 = k then mergeBytes ((s.load a).d k x) data be
    else (s.load a).d k x
  tagv := (s.load a).tagv
  dirty x := if x = idxOf IDX a then true else (s.load a).dirty x
  lower := (s.load a).lower

/-- After an access of the CPU. -/
def access (r : Request) : CachedMem IDX := if r.write then s.store r.addr r.wdata r.wmask
    else s.load r.addr

variable {s a b x}

theorem load_of_holds (h : s.Holds a) : s.load a = s := if_pos h

theorem tagv_load : (s.load a).tagv x = if x = idxOf IDX a then ⟨true, tagOf IDX a⟩ else s.tagv x := by
  by_cases h : s.Holds a
  · rw [load_of_holds h]
    split_ifs with hx
    · subst hx
      rw [← h.2, ← h.1]
    · rfl
  · rw [load, if_neg h]

theorem holds_load : (s.load a).Holds a := by simp [Holds, tagv_load]

/-- A load leaves the other sets alone. -/
theorem dirty_load_of_ne (h : x ≠ idxOf IDX a) : (s.load a).dirty x = s.dirty x := by
  rw [load]
  split_ifs <;> simp [h]

theorem d_load_of_ne (h : x ≠ idxOf IDX a) (k : BitVec 2) : (s.load a).d k x = s.d k x := by
  rw [load]
  split_ifs <;> simp [h]

/-- A line that is written back is written with what the cache has for it. -/
theorem writeBack_apply (hn : IDX ≤ 28) :
    s.writeBack x b = if s.HoldsDirty b ∧ idxOf IDX b = x then s.cachedByte b else s.lower b := by
  by_cases hb : idxOf IDX b = x
  · subst hb
    rw [writeBack]
    by_cases hd : (s.tagv (idxOf IDX b)).valid && s.dirty (idxOf IDX b)
    · simp only [if_pos hd, Mem.setLine, lineNo_eq_lineAddr_iff hn,
        lineByte_lineOfWords, bankOf_offsetOf, laneOf_offsetOf]
      rw [Bool.and_eq_true] at hd
      simp [HoldsDirty, Holds, hd, eq_comm, cachedByte]
    · rw [if_neg hd]
      rw [Bool.and_eq_true] at hd
      rw [if_neg fun h => hd ⟨h.1.1.1, h.1.2⟩]
  · rw [if_neg fun h => hb h.2, writeBack]
    split_ifs
    · simp only [Mem.setLine, lineNo_eq_lineAddr_iff hn, hb, and_false, if_false]
    · rfl

/-- What a load of another line leaves in the line memory. -/
theorem lower_load (hn : IDX ≤ 28) : (s.load a).lower b =
    if ¬s.Holds a ∧ s.HoldsDirty b ∧ idxOf IDX b = idxOf IDX a then s.cachedByte b else s.lower b := by
  rw [load]
  split_ifs with ha h h
  · exact absurd ha h.1
  · rfl
  · exact (writeBack_apply hn).trans (if_pos h.2)
  · exact (writeBack_apply hn).trans (if_neg fun hb => h ⟨ha, hb⟩)

theorem holds_congr (hn : IDX ≤ 28) (h : lineNo a = lineNo b) : s.Holds a ↔ s.Holds b := by
  rw [Holds, Holds, idxOf_congr hn h, tagOf_congr hn h]

theorem holds_load_of_ne (h : idxOf IDX b ≠ idxOf IDX a) : (s.load a).Holds b ↔ s.Holds b := by
  rw [Holds, tagv_load, if_neg h, Holds]

theorem cachedByte_load_of_ne (h : idxOf IDX b ≠ idxOf IDX a) :
    (s.load a).cachedByte b = s.cachedByte b := by
  rw [cachedByte, d_load_of_ne h, cachedByte]

theorem holds_load_iff (h : idxOf IDX b = idxOf IDX a) :
    (s.load a).Holds b ↔ tagOf IDX b = tagOf IDX a := by
  rw [Holds, tagv_load, if_pos h]
  simp [eq_comm]

/-- The line of a load is there afterwards, as it was there or as it was below. -/
theorem cachedByte_load (hn : IDX ≤ 28) (h : lineNo b = lineNo a) :
    (s.load a).cachedByte b = s.read b := by
  rw [read]
  by_cases ha : s.Holds a
  · rw [load_of_holds ha, if_pos ((holds_congr hn h).2 ha)]
  · have hb : ¬s.Holds b := fun hb => ha ((holds_congr hn h).1 hb)
    have hidx := idxOf_congr hn h
    have hd : ∀ k, (s.load a).d k (idxOf IDX b) = lineWord ((s.writeBack (idxOf IDX a)).line a) k :=
        fun k => by
      rw [load, if_neg ha]
      exact if_pos hidx
    rw [if_neg hb, cachedByte, hd, ← bankOf_offsetOf, ← laneOf_offsetOf, byteOf_lineWord,
      Mem.lineByte_line _ h, writeBack_apply hn, if_neg fun hw => hb hw.1.1]

/-- A load changes nothing of the data of the CPU. -/
theorem latest_load (hn : IDX ≤ 28) : (s.load a).latest = s.latest := by
  funext b
  by_cases ha : s.Holds a
  · rw [load_of_holds ha]
  by_cases hidx : idxOf IDX b = idxOf IDX a
  · have hclean : ¬(s.load a).HoldsDirty b := fun h => by
      have hd : (s.load a).dirty (idxOf IDX b) = false := by
        rw [load, if_neg ha]
        exact if_pos hidx
      exact absurd (hd.symm.trans (show (s.load a).dirty (idxOf IDX b) = true from h.2)) nofun
    rw [latest, if_neg hclean, lower_load hn, latest]
    by_cases hb : s.HoldsDirty b
    · rw [if_pos ⟨ha, hb, hidx⟩, if_pos hb]
    · rw [if_neg fun h => hb h.2.1, if_neg hb]
  · have hd : (s.load a).HoldsDirty b ↔ s.HoldsDirty b := by
      rw [HoldsDirty, holds_load_of_ne hidx, dirty_load_of_ne hidx, HoldsDirty]
    have hl : (s.load a).lower b = s.lower b := by rw [lower_load hn, if_neg fun h => hidx h.2.2]
    simp only [latest, hd, cachedByte_load_of_ne hidx, hl]

/-- What is not dirty in the cache is up to date below. -/
theorem lower_eq_latest (h : ¬s.HoldsDirty b) : s.lower b = s.latest b := (if_neg h).symm

end CachedMem

/-! ## What the FSM does -/

/-- What the cache and its memory hold. -/
def Sys.view (s : Sys IDX) : CachedMem IDX := ⟨s.cache.d, s.cache.tagv, s.cache.dirty, s.lower⟩

/-- On the way from `v` to an access of the address `a`: the line is on its way in. -/
def Serving (v : CachedMem IDX) (a : Word) (s : Sys IDX) : Prop :=
  match s.cache.state with
  | .S_INIT => False
  | .S_IDLE => (s.view = v ∨ s.view = v.load a) ∧ s.cache.Settled
  | .S_RECHECK => s.view = v ∨ s.view = v.load a
  | .S_CAP => ¬v.Holds a ∧ s.cache.missIdx = idxOf IDX a ∧ s.cache.missTag = tagOf IDX a ∧ s.view = v ∧
      (v.dirty (idxOf IDX a) = true →
        s.cache.qTagv = v.tagv (idxOf IDX a) ∧ ∀ k, s.cache.q k = v.d k (idxOf IDX a))
  | .S_WB => ¬v.Holds a ∧ s.cache.missIdx = idxOf IDX a ∧ s.cache.missTag = tagOf IDX a ∧ s.view = v ∧
      ((v.tagv (idxOf IDX a)).valid && v.dirty (idxOf IDX a)) ∧
      s.cache.wbTag = (v.tagv (idxOf IDX a)).tag ∧
      s.cache.wbLine = lineOfWords fun k => v.d k (idxOf IDX a)
  | .S_FILL => ¬v.Holds a ∧ s.cache.missIdx = idxOf IDX a ∧ s.cache.missTag = tagOf IDX a ∧
      s.view = { v with lower := v.writeBack (idxOf IDX a) }

variable {s : Sys IDX} {i : Inputs IDX} {v : CachedMem IDX} {a : Word}

/-- An edge without a write to the arrays. -/
theorem view_next_of_quiet (hf : s.cache.fillEn i = false) (hi : s.cache.initEn = false)
    (hw : s.cache.wrHit i = false) :
      (s.next i).view = { s.view with lower := s.cache.lowerNext i s.lower } := by
  have ht : (s.cache.next i).tagv = s.cache.tagv := by
    funext x; simp [Regs.next, Regs.edge, Regs.tagvWe, hf, hi]
  have hd : (s.cache.next i).d = s.cache.d := by
    funext k x; simp [Regs.next, Regs.edge, Regs.be, hf, hw]
  have hb : (s.cache.next i).dirty = s.cache.dirty := by
    funext x; simp [Regs.next, Regs.edge, hf, hw]
  simp [Sys.view, Sys.next, ht, hd, hb]

/-- An edge that leaves the line memory alone as well. -/
theorem view_next_of_idle (hf : s.cache.fillEn i = false) (hi : s.cache.initEn = false)
    (hw : s.cache.wrHit i = false) (hst : s.cache.state ≠ .S_WB) : (s.next i).view = s.view := by
  rw [view_next_of_quiet hf hi hw]
  simp [Sys.view, Regs.lowerNext, Regs.memReqWrite, hst]

theorem Serving.next_idle (h : Serving v a s) (hst : s.cache.state = .S_IDLE) (hv : i.cpuReqValid = true)
    (ha : i.cpuReqAddr = a) (hcap : s.VictimRead i) (hready : s.cache.cpuReady i = false) :
    Serving v a (s.next i) := by
  simp only [Serving, hst] at h
  obtain ⟨hview, hsettled⟩ := h
  have hhit : s.cache.hit i = false := by simpa [Regs.cpuReady, hst, hv] using hready
  have hview' : (s.next i).view = s.view :=
    view_next_of_idle (by simp [Regs.fillEn, hst]) (by simp [Regs.initEn, hst])
    (by simp [Regs.wrHit, hhit]) (by simp [hst])
  cases hspec : s.cache.specOk i with
  | false =>
    have hst' : (s.next i).cache.state = .S_RECHECK := by
      simp [Sys.next, Regs.next, Regs.edge, Regs.nextState, hst, hv, hhit, hspec]
    simp only [Serving, hst', hview']
    exact hview
  | true =>
    have hst' : (s.next i).cache.state = .S_CAP := by
      simp [Sys.next, Regs.next, Regs.edge, Regs.nextState, hst, hv, hhit, hspec]
    have hmiss : s.cache.missed i = true := by simp [Regs.missed, hst, hv, hhit, hspec]
    have hidx : i.mIdx = idxOf IDX a := by rw [Inputs.mIdx, ha]
    have hnot : ¬s.view.Holds a := by
      rintro ⟨hvalid, htag⟩
      have hq : s.cache.qTagv = s.cache.tagv (idxOf IDX a) := by
        rw [hsettled.tagv, ← hidx]
        exact congrArg _ (by simpa [Regs.specOk] using hspec)
      refine absurd hhit (by simpa [Regs.hit, hspec, hq, Inputs.mTag, ha] using ⟨hvalid, htag⟩)
    -- the line is not there, so nothing has been done yet
    obtain rfl : s.view = v := hview.resolve_right fun h => hnot (h ▸ CachedMem.holds_load)
    simp only [Serving, hst']
    refine ⟨hnot, ?_, ?_, hview', fun hd => ?_⟩
    · simp [Sys.next, Regs.next, Regs.edge, hmiss, hidx]
    · simp [Sys.next, Regs.next, Regs.edge, hmiss, Inputs.mTag, ha]
    · have hread : i.aIdx = idxOf IDX a := hidx ▸ hcap hmiss (hidx ▸ hd)
      simp [Sys.next, Regs.next, Regs.edge, Regs.arrayReads, hread, Sys.view]

theorem Serving.next_cap (h : Serving v a s) (hst : s.cache.state = .S_CAP) (ha : i.cpuReqAddr = a) :
    Serving v a (s.next i) := by
  simp only [Serving, hst] at h
  obtain ⟨hnot, hmi, hmt, hview, hq⟩ := h
  -- S_CAP captures the victim and changes neither the arrays nor the memory.
  have hview' : (s.next i).view = v :=
    (view_next_of_idle (by simp [Regs.fillEn, hst]) (by simp [Regs.initEn, hst])
    (by simp [Regs.wrHit, hst]) (by simp [hst])).trans hview
  have hm : s.cache.missed i = false := by simp [Regs.missed, hst]
  have hmi' : (s.next i).cache.missIdx = idxOf IDX a := by simp [Sys.next, Regs.next, Regs.edge, hm, hmi]
  have hmt' : (s.next i).cache.missTag = tagOf IDX a := by simp [Sys.next, Regs.next, Regs.edge, hm, hmt]
  have hidx : i.mIdx = idxOf IDX a := by rw [Inputs.mIdx, ha]
  have hdirty : s.cache.dirty (idxOf IDX a) = v.dirty (idxOf IDX a) := by rw [← hview]; rfl
  -- A clean or invalid victim goes straight to the fill, as `writeBack` leaves it alone.
  cases hd : v.dirty (idxOf IDX a) with
  | false =>
    have hst' : (s.next i).cache.state = .S_FILL := by
      simp [Sys.next, Regs.next, Regs.edge, Regs.nextState, Regs.wbNeeded, hst, hidx, hdirty, hd]
    simp only [Serving, hst']
    exact ⟨hnot, hmi', hmt', by simp [hview', CachedMem.writeBack, hd]⟩
  | true =>
    obtain ⟨hqt, hqd⟩ := hq hd
    cases hvalid : (v.tagv (idxOf IDX a)).valid with
    | false =>
      have hst' : (s.next i).cache.state = .S_FILL := by
        simp [Sys.next, Regs.next, Regs.edge, Regs.nextState, Regs.wbNeeded, hst, hqt, hvalid]
      simp only [Serving, hst']
      exact ⟨hnot, hmi', hmt', by simp [hview', CachedMem.writeBack, hvalid]⟩
    | true =>
      have hst' : (s.next i).cache.state = .S_WB := by
        simp [Sys.next, Regs.next, Regs.edge, Regs.nextState, Regs.wbNeeded, hst, hqt, hvalid,
          hidx, hdirty, hd]
      simp only [Serving, hst']
      refine ⟨hnot, hmi', hmt', hview', by simp [hvalid, hd], ?_, ?_⟩
      · simp [Sys.next, Regs.next, Regs.edge, hst, hqt]
      · simp [Sys.next, Regs.next, Regs.edge, hst, funext hqd]

theorem Serving.next_wb (h : Serving v a s) (hst : s.cache.state = .S_WB) : Serving v a (s.next i) := by
  simp only [Serving, hst] at h
  obtain ⟨hnot, hmi, hmt, rfl, hd, htag, hline⟩ := h
  have hview' : (s.next i).view = { s.view with lower := s.cache.lowerNext i s.lower } :=
    view_next_of_quiet (by simp [Regs.fillEn, hst]) (by simp [Regs.initEn, hst])
      (by simp [Regs.wrHit, hst])
  have hm : s.cache.missed i = false := by simp [Regs.missed, hst]
  have hmi' : (s.next i).cache.missIdx = idxOf IDX a := by simp [Sys.next, Regs.next, Regs.edge, hm, hmi]
  have hmt' : (s.next i).cache.missTag = tagOf IDX a := by simp [Sys.next, Regs.next, Regs.edge, hm, hmt]
  cases hr : i.memReady with
  | false =>
    have hst' : (s.next i).cache.state = .S_WB := by
      simp [Sys.next, Regs.next, Regs.edge, Regs.nextState, hst, hr]
    have hlower : s.cache.lowerNext i s.lower = s.lower := by simp [Regs.lowerNext, hr]
    simp only [Serving, hst']
    refine ⟨hnot, hmi', hmt', by rw [hview', hlower]; rfl, hd, ?_, ?_⟩
    · simpa [Sys.next, Regs.next, Regs.edge, hst] using htag
    · simpa [Sys.next, Regs.next, Regs.edge, hst] using hline
  | true =>
    have hst' : (s.next i).cache.state = .S_FILL := by
      simp [Sys.next, Regs.next, Regs.edge, Regs.nextState, hst, hr]
    have hlower : s.cache.lowerNext i s.lower = s.view.writeBack (idxOf IDX a) := by
      rw [CachedMem.writeBack, if_pos hd]
      simp [Regs.lowerNext, Regs.memReqWrite, Regs.memReqAddr, Regs.memWline, hst, hr, hmi,
        htag, hline, Sys.view]
    simp only [Serving, hst']
    exact ⟨hnot, hmi', hmt', by rw [hview', hlower]⟩

theorem Serving.next_fill (hn : IDX ≤ 28) (h : Serving v a s) (hst : s.cache.state = .S_FILL)
    (hline : s.cache.fillEn i = true → i.memRline = s.lower.line s.cache.memReqAddr) :
      Serving v a (s.next i) := by
  simp only [Serving, hst] at h
  obtain ⟨hnot, hmi, hmt, hview⟩ := h
  have hi : s.cache.initEn = false := by simp [Regs.initEn, hst]
  have hw : s.cache.wrHit i = false := by simp [Regs.wrHit, hst]
  have hm : s.cache.missed i = false := by simp [Regs.missed, hst]
  cases hr : i.memReady with
  | false =>
    have hf : s.cache.fillEn i = false := by simp [Regs.fillEn, hr]
    have hst' : (s.next i).cache.state = .S_FILL := by
      simp [Sys.next, Regs.next, Regs.edge, Regs.nextState, hst, hr]
    simp only [Serving, hst']
    refine ⟨hnot, ?_, ?_, (view_next_of_idle hf hi hw (by simp [hst])).trans hview⟩
    · simp [Sys.next, Regs.next, Regs.edge, hm, hmi]
    · simp [Sys.next, Regs.next, Regs.edge, hm, hmt]
  | true =>
    -- The line arrives, and all four banks and the tag take it on the same edge.
    have hf : s.cache.fillEn i = true := by simp [Regs.fillEn, hst, hr]
    have hst' : (s.next i).cache.state = .S_RECHECK := by
      simp [Sys.next, Regs.next, Regs.edge, Regs.nextState, hst, hr]
    obtain ⟨hd, ht, hdirty, hlower⟩ : s.cache.d = v.d ∧ s.cache.tagv = v.tagv ∧
      s.cache.dirty = v.dirty ∧
        s.lower = v.writeBack (idxOf IDX a) := by simpa [Sys.view] using hview
    simp only [Serving, hst']
    right
    rw [CachedMem.load, if_neg hnot]
    have haddr : s.cache.memReqAddr = lineAddr (tagOf IDX a) (idxOf IDX a) := by
      simp [Regs.memReqAddr, hst, hmi, hmt]
    have hlow : s.cache.lowerNext i s.lower = s.lower := by simp [Regs.lowerNext, Regs.memReqWrite, hst]
    simp only [Sys.view, Sys.next, hlow, CachedMem.mk.injEq]
    refine ⟨?_, ?_, ?_, hlower⟩
    · funext k x
      have hfill : i.memRline = (v.writeBack (idxOf IDX a)).line a := by
        rw [hline hf, haddr, hlower, Mem.line_of_lineNo_eq (lineNo_lineAddr hn a)]
      simp [Regs.next, Regs.edge, Regs.be, Regs.wd, Regs.waddr, hf, hmi, hfill, hd]
    · funext x
      simp [Regs.next, Regs.edge, Regs.tagvWe, Regs.tagvWaddr, Regs.tagvWdata, hf, hi, hmi, hmt, ht]
    · funext x
      simp [Regs.next, Regs.edge, hf, hmi, hdirty]

theorem Serving.next_recheck (h : Serving v a s) (hst : s.cache.state = .S_RECHECK) :
    Serving v a (s.next i) := by
  simp only [Serving, hst] at h
  have hf : s.cache.fillEn i = false := by simp [Regs.fillEn, hst]
  have hi : s.cache.initEn = false := by simp [Regs.initEn, hst]
  have hst' : (s.next i).cache.state = .S_IDLE := by
    simp [Sys.next, Regs.next, Regs.edge, Regs.nextState, hst]
  have hw : s.cache.wrHit i = false := by simp [Regs.wrHit, hst]
  simp only [Serving, hst', view_next_of_idle hf hi hw (by simp [hst])]
  exact ⟨h, settled_next hf hi⟩

/-- A cycle on which the access is not acknowledged. -/
theorem Serving.next (hn : IDX ≤ 28) (h : Serving v a s) (hv : i.cpuReqValid = true)
    (ha : i.cpuReqAddr = a)
    (hcap : s.VictimRead i) (hline : s.cache.fillEn i = true →
      i.memRline = s.lower.line s.cache.memReqAddr)
    (hready : s.cache.cpuReady i = false) : Serving v a (s.next i) := by
  cases hst : s.cache.state with
  | S_INIT => simp [Serving, hst] at h
  | S_IDLE => exact h.next_idle hst hv ha hcap hready
  | S_CAP => exact h.next_cap hst ha
  | S_WB => exact h.next_wb hst
  | S_FILL => exact h.next_fill hn hst hline
  | S_RECHECK => exact h.next_recheck hst

/-- The cycle on which it is. -/
theorem Serving.view_of_ready (hn : IDX ≤ 28) {r : Request} (h : Serving v r.addr s)
    (hr : i.request = some r) (hready : s.cache.cpuReady i = true) :
    (s.next i).view = v.access r ∧ byteOf (s.cache.cpuRdata i) (byteNo r.addr) = v.read r.addr := by
  simp only [Regs.cpuReady, Bool.and_eq_true, beq_iff_eq] at hready
  obtain ⟨⟨hst, hv⟩, hhit⟩ := hready
  obtain rfl : _ = r := Option.some_inj.1 ((if_pos hv).symm.trans hr)
  simp only [Serving, hst] at h
  obtain ⟨hview, hsettled⟩ := h
  obtain ⟨hholds, hidx⟩ := holds_of_hit hsettled hhit
  have hload : s.view = v.load i.cpuReqAddr := by
    -- The line was there from the start, or the fill has made the view that of `load`.
    rcases hview with rfl | hview
    · exact (CachedMem.load_of_holds (show s.view.Holds i.cpuReqAddr from hholds)).symm
    · exact hview
  have hf : s.cache.fillEn i = false := by simp [Regs.fillEn, hst]
  have hi : s.cache.initEn = false := by simp [Regs.initEn, hst]
  refine ⟨?_, ?_⟩
  · cases hw : i.cpuReqWrite with
    | false =>
      rw [view_next_of_idle hf hi (by simp [Regs.wrHit, hw]) (by simp [hst]), hload,
        CachedMem.access, if_neg (by simp)]
    | true =>
      -- A store hit writes one bank of the line, under its byte enables, and marks it dirty.
      have hwr : s.cache.wrHit i = true := by simp [Regs.wrHit, hst, hv, hw, hhit]
      rw [CachedMem.access, if_pos rfl, CachedMem.store, ← hload]
      simp [Sys.view, Sys.next, Regs.next, Regs.edge, Regs.be, Regs.wd, Regs.waddr,
        Regs.tagvWe, Regs.lowerNext, Regs.memReqWrite, hf, hi, hwr, hst]
      refine ⟨funext fun k => funext fun x => ?_, rfl⟩
      rw [Inputs.mIdx, Inputs.mBank]
      by_cases hx : x = idxOf IDX i.cpuReqAddr
      · by_cases hk : i.cpuReqAddr.extractLsb' 2 2 = k <;> simp [hx, hk]
      · simp [hx]
  · rw [← CachedMem.cachedByte_load hn rfl, ← hload, Regs.cpuRdata, Regs.bypUse, hsettled.data, hidx]
    rfl

/-- An access that is presented on cycle `n` and acknowledged on cycle `m` does what `access` does,
    and returns what `read` returns. -/
theorem view_of_served (hn : IDX ≤ 28) {σ : ℕ → Sys IDX} {ι : ℕ → Inputs IDX}
    (h : (victimReading IDX).IsRun σ ι)
    {n m : ℕ} {r : Request} (hnm : n ≤ m) (hidle : (σ n).cache.state = .S_IDLE)
    (hreq : ∀ k, n ≤ k → k ≤ m → (ι k).request = some r)
    (hwait : ∀ k, n ≤ k → k < m → (σ k).cache.cpuReady (ι k) = false)
    (hready : (σ m).cache.cpuReady (ι m) = true) :
    (σ (m + 1)).view = (σ n).view.access r ∧
      byteOf ((σ m).cache.cpuRdata (ι m)) (byteNo r.addr) = (σ n).view.read r.addr := by
  have hnext : ∀ k, σ (k + 1) = (σ k).next (ι k) := h.next
  have hstart : Serving (σ n).view r.addr (σ n) := by
    have hinv := (inv_of_reachable hn (h.reachable n)).1
    simp only [Regs.Inv, hidle] at hinv
    simp only [Serving, hidle, true_or, true_and]
    exact hinv.2
  -- By induction on the wait: each cycle keeps `Serving`, in whatever state the miss is.
  have hserving : ∀ k, n ≤ k → k ≤ m → Serving (σ n).view r.addr (σ k) := by
    intro k hk
    induction k, hk using Nat.le_induction with
    | base => exact fun _ => hstart
    | succ k hk ih =>
      intro hkm
      obtain ⟨⟨-, hline⟩, hcap⟩ := h.admits k
      obtain ⟨hv, ha⟩ : (ι k).cpuReqValid = true ∧ (ι k).cpuReqAddr = r.addr := by
        have hr := hreq k hk (Nat.le_of_succ_le hkm)
        rw [Inputs.request] at hr
        split_ifs at hr with hv
        exact ⟨hv, congrArg Request.addr (Option.some_inj.1 hr)⟩
      exact hnext k ▸ (ih (Nat.le_of_succ_le hkm)).next hn hv ha hcap hline (hwait k hk hkm)
  exact hnext m ▸ (hserving m hnm le_rfl).view_of_ready hn (hreq m hnm le_rfl) hready

end DcacheBram

end Rv32Soc
