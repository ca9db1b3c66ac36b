import Rv32Soc.Driver.GemmCoherence

/-!
# Code that runs meanwhile

What a sequence of accesses does to the data of the CPU, over a cache that may hold stale lines of what a
master behind it has written. Away from these (`Fresh`) every access is one of the flat memory
(`latest_accesses`), and what is not dirty stays as it is below.

`Walked`: the loads of a walk, with the accesses of other code in between.
-/

namespace Rv32Soc

namespace DcacheBram

variable {IDX : ℕ}

/-- What an access does to a flat memory. -/
def Request.apply (r : Request) (m : Mem) : Mem := if r.write then m.store r.addr r.wdata r.wmask else m

/-- What accesses do to it, one after another. -/
def applyAll (rs : List Request) (m : Mem) : Mem := rs.foldl (fun m r => r.apply m) m

theorem applyAll_append (rs rs' : List Request) (m : Mem) :
    applyAll (rs ++ rs') m = applyAll rs' (applyAll rs m) :=
  List.foldl_append

theorem Request.apply_of_ne {r : Request} {m : Mem} {b : Word}
    (h : r.write = true → lineNo r.addr ≠ lineNo b) :
    r.apply m b = m b := by
  rw [apply]
  split_ifs with hw
  · rw [Mem.store, if_neg fun hb => h hw (wordNo_eq_iff.1 hb.1).1.symm]
  · rfl

theorem Request.apply_congr (r : Request) {m m' : Mem} {b : Word} (h : m b = m' b) :
    r.apply m b = r.apply m' b := by
  rw [apply, apply]
  split_ifs
  · rw [Mem.store, Mem.store, h]
  · exact h

theorem applyAll_congr (rs : List Request) {m m' : Mem} {b : Word} (h : m b = m' b) :
    applyAll rs m b = applyAll rs m' b := by
  induction rs generalizing m m' with
  | nil => exact h
  | cons r rs ih => exact ih (r.apply_congr h)

theorem applyAll_of_ne {rs : List Request} {m : Mem} {b : Word}
    (h : ∀ r ∈ rs, r.write = true → lineNo r.addr ≠ lineNo b) : applyAll rs m b = m b := by
  induction rs generalizing m with
  | nil => rfl
  | cons r rs ih =>
    obtain ⟨hr, hrs⟩ := List.forall_mem_cons.1 h
    exact (ih hrs).trans (Request.apply_of_ne hr)

namespace CachedMem

variable {s : CachedMem IDX} {a b : Word} {r : Request} {rs : List Request}

/-! ## What is dirty -/

theorem holdsDirty_load (h : (s.load a).HoldsDirty b) : s.HoldsDirty b := by
  by_cases ha : s.Holds a
  · rwa [load_of_holds ha] at h
  · have hne : idxOf IDX b ≠ idxOf IDX a := fun hidx => by
      have hd := h.2
      rw [load, if_neg ha] at hd
      exact absurd ((if_pos hidx).symm.trans hd) (by simp)
    exact ⟨(holds_load_of_ne hne).1 h.1, (dirty_load_of_ne hne).symm.trans h.2⟩

/-- What is dirty after an access was so before, or has been written. -/
theorem holdsDirty_of_access (hn : IDX ≤ 28) (h : (s.access r).HoldsDirty b)
    (hw : r.write = true → lineNo r.addr ≠ lineNo b) : s.HoldsDirty b := by
  cases hr : r.write with
  | true => exact holdsDirty_access hn (hw hr) h
  | false =>
    rw [access, hr, if_neg Bool.false_ne_true] at h
    exact holdsDirty_load h

/-- After accesses, one after another. -/
def accesses (s : CachedMem IDX) (rs : List Request) : CachedMem IDX := rs.foldl access s

/-- What is not dirty stays so if it is not written, and stays as it is below. -/
theorem lower_accesses (hn : IDX ≤ 28) (hd : ¬s.HoldsDirty b)
    (hw : ∀ r ∈ rs, r.write = true → lineNo r.addr ≠ lineNo b) :
    ¬(s.accesses rs).HoldsDirty b ∧ (s.accesses rs).lower b = s.lower b := by
  induction rs generalizing s with
  | nil => exact ⟨hd, rfl⟩
  | cons r rs ih =>
    obtain ⟨hr, hrs⟩ := List.forall_mem_cons.1 hw
    obtain ⟨h₁, h₂⟩ := ih (s := s.access r) (fun h => hd (holdsDirty_of_access hn h hr)) hrs
    exact ⟨h₁, h₂.trans (lower_access hn hd)⟩

/-! ## What a load returns -/

/-- A load of the byte returns the latest data. -/
def Fresh (s : CachedMem IDX) (b : Word) : Prop := s.read b = s.latest b

theorem fresh_of_holdsDirty (h : s.HoldsDirty b) : s.Fresh b := by
  rw [Fresh, read, if_pos h.1, latest, if_pos h]

/-- A load of a line takes nothing away from what another load returns. -/
theorem read_load (hn : IDX ≤ 28) (hf : s.Fresh b) : (s.load a).read b = s.read b := by
  by_cases hline : lineNo b = lineNo a
  · rw [read, if_pos ((holds_congr hn hline).2 holds_load), cachedByte_load hn hline]
  by_cases hidx : idxOf IDX b = idxOf IDX a
  · -- the line of `b` is not there any more
    have hb : ¬(s.load a).Holds b := fun hb => by
      have htag := (holds_load_iff hidx).1 hb
      refine hline ?_
      rw [← lineNo_lineAddr hn a, lineNo_eq_lineAddr_iff hn]
      exact ⟨htag, hidx⟩
    by_cases ha : s.Holds a
    · rw [load_of_holds ha]
    rw [read, if_neg hb, lower_load hn, hf, latest]
    by_cases hd : s.HoldsDirty b
    · rw [if_pos ⟨ha, hd, hidx⟩, if_pos hd]
    · rw [if_neg fun h => hd h.2.1, if_neg hd]
  · have hl : (s.load a).lower b = s.lower b := by rw [lower_load hn, if_neg fun h => hidx h.2.2]
    simp only [read, holds_load_of_ne hidx, cachedByte_load_of_ne hidx, hl]

theorem Fresh.load (hn : IDX ≤ 28) (hf : s.Fresh b) : (s.load a).Fresh b := by
  rw [Fresh, read_load hn hf, latest_load hn]
  exact hf

/-- The line of a store is in the cache afterwards, and dirty. -/
theorem holdsDirty_store (hn : IDX ≤ 28) (data : Word) (be : BitVec 4) (h : lineNo b = lineNo a) :
    (s.store a data be).HoldsDirty b :=
  ⟨(holds_congr (s := s.load a) hn h).2 holds_load, if_pos (idxOf_congr hn h)⟩

/-- The other sets are as the load of a store leaves them. -/
theorem store_of_ne (data : Word) (be : BitVec 4) (h : idxOf IDX b ≠ idxOf IDX a) :
    (s.store a data be).cachedByte b = (s.load a).cachedByte b ∧
      ((s.store a data be).HoldsDirty b ↔ (s.load a).HoldsDirty b) := by
  refine ⟨?_, ?_⟩
  · rw [cachedByte, store]
    dsimp only
    rw [if_neg fun hx => h hx.1, cachedByte]
  · have hd : (s.store a data be).dirty (idxOf IDX b) = (s.load a).dirty (idxOf IDX b) := if_neg h
    have hh : (s.store a data be).Holds b ↔ (s.load a).Holds b := Iff.rfl
    rw [HoldsDirty, HoldsDirty, hd, hh]

theorem cachedByte_store (hn : IDX ≤ 28) (data : Word) (be : BitVec 4) (h : lineNo b = lineNo a)
    (hf : s.Fresh b) :
    (s.store a data be).cachedByte b = s.latest.store a data be b := by
  have hold : s.latest b = (s.load a).cachedByte b := by rw [cachedByte_load hn h, hf]
  rw [cachedByte, store]
  dsimp only
  by_cases hbank : a.extractLsb' 2 2 = b.extractLsb' 2 2
  · have hword : wordNo b = wordNo a := wordNo_eq_iff.2 ⟨h, hbank.symm⟩
    rw [if_pos ⟨idxOf_congr hn h, hbank⟩, byteOf_mergeBytes, Mem.store, hold, cachedByte]
    by_cases hbe : be.getLsbD (byteNo b).toNat
    · rw [if_pos hbe, if_pos ⟨hword, hbe⟩]
    · rw [if_neg hbe, if_neg fun h => hbe h.2]
  · rw [if_neg fun h => hbank h.2, Mem.store, if_neg fun h => hbank (wordNo_eq_iff.1 h.1).2.symm,
      hold, cachedByte]

/-- A store to a fresh line is one of the flat memory, and keeps what is fresh. -/
theorem latest_store (hn : IDX ≤ 28) (data : Word) (be : BitVec 4)
    (hf : ∀ c, lineNo c = lineNo a → s.Fresh c) :
    (s.store a data be).latest = s.latest.store a data be ∧
      ∀ b, s.Fresh b → (s.store a data be).Fresh b := by
  have hother : ∀ b, lineNo b ≠ lineNo a → (s.store a data be).latest b = s.latest b ∧
      ((s.load a).Fresh b → (s.store a data be).Fresh b) := fun b hline => by
    have hlatest := congrFun (latest_load (s := s) (a := a) hn) b
    by_cases hidx : idxOf IDX b = idxOf IDX a
    · -- `b` is not in the cache
      have hb : ¬(s.load a).Holds b := fun hb => by
        have htag := (holds_load_iff hidx).1 hb
        refine hline ?_
        rw [← lineNo_lineAddr hn a, lineNo_eq_lineAddr_iff hn]
        exact ⟨htag, hidx⟩
      have hb' : ¬(s.store a data be).Holds b := hb
      have hl : (s.store a data be).latest b = (s.load a).latest b := by
        rw [latest, if_neg fun h => hb' h.1, latest, if_neg fun h => hb h.1]
        rfl
      refine ⟨hl.trans hlatest, fun hf => ?_⟩
      rw [Fresh, hl, ← hf, read, if_neg hb', read, if_neg hb]
      rfl
    · obtain ⟨hbyte, hdirty⟩ := store_of_ne (s := s) data be hidx
      have hl : (s.store a data be).latest b = (s.load a).latest b := by
        simp only [latest, hdirty, hbyte]
        rfl
      refine ⟨hl.trans hlatest, fun hf => ?_⟩
      rw [Fresh, hl, ← hf]
      have hh : (s.store a data be).Holds b ↔ (s.load a).Holds b := Iff.rfl
      simp only [read, hh, hbyte]
      rfl
  refine ⟨funext fun b => ?_, fun b hb => ?_⟩
  · by_cases hline : lineNo b = lineNo a
    · rw [latest, if_pos (holdsDirty_store hn data be hline),
        cachedByte_store hn data be hline (hf b hline)]
    · rw [(hother b hline).1, Mem.store, if_neg fun h => hline (wordNo_eq_iff.1 h.1).1]
  · by_cases hline : lineNo b = lineNo a
    · exact fresh_of_holdsDirty (holdsDirty_store hn data be hline)
    · exact (hother b hline).2 (hb.load hn)

/-- So is every access of a fresh line. -/
theorem latest_access (hn : IDX ≤ 28) (hf : ∀ c, lineNo c = lineNo r.addr → s.Fresh c) :
    (s.access r).latest = r.apply s.latest ∧ ∀ b, s.Fresh b → (s.access r).Fresh b := by
  rw [access, Request.apply]
  split_ifs
  · exact latest_store hn r.wdata r.wmask hf
  · exact ⟨latest_load hn, fun b hb => hb.load hn⟩

/-- Accesses that keep away from `D` see the flat memory, if it is fresh everywhere else. -/
theorem latest_accesses (hn : IDX ≤ 28) {D : Word → Prop} (hD : ∀ r ∈ rs, ∀ b, D b →
    lineNo r.addr ≠ lineNo b)
    (hf : ∀ b, ¬D b → s.Fresh b) :
    (s.accesses rs).latest = applyAll rs s.latest ∧ ∀ b, ¬D b → (s.accesses rs).Fresh b := by
  induction rs generalizing s with
  | nil => exact ⟨rfl, hf⟩
  | cons r rs ih =>
    obtain ⟨hr, hrs⟩ := List.forall_mem_cons.1 hD
    obtain ⟨h₁, h₂⟩ := latest_access (s := s) (r := r) hn fun c hc => hf c fun hd => hr c hd hc.symm
    obtain ⟨h₃, h₄⟩ := ih (s := s.access r) hrs fun b hb => h₂ b (hf b hb)
    refine ⟨h₃.trans ?_, h₄⟩
    rw [h₁]
    rfl

end CachedMem

/-! ## Walks -/

/-- From `m` to `m'` by the loads of `l`, in their order, with the accesses `rs` of other code in
    between. -/
inductive Walked : CachedMem IDX → List Word → List Request → CachedMem IDX → Prop
  | done (m : CachedMem IDX) : Walked m [] [] m
  | load {m m' : CachedMem IDX} {a : Word} {l : List Word} {rs : List Request}
      (h : Walked (m.load a) l rs m') :
      Walked m (a :: l) rs m'
  | access {m m' : CachedMem IDX} {l : List Word} {r : Request} {rs : List Request}
      (h : Walked (m.access r) l rs m') :
      Walked m l (r :: rs) m'

/-- With nobody else around. -/
theorem walked_loads (m : CachedMem IDX) (l : List Word) : Walked m l [] (m.loads l) := by
  induction l generalizing m with
  | nil => exact .done m
  | cons a l ih => exact .load (ih (m.load a))

namespace Walked

variable {m m' : CachedMem IDX} {l : List Word} {rs : List Request} {b : Word}

/-- The loads change nothing of the data of the CPU. -/
theorem latest (h : Walked m l rs m') (hn : IDX ≤ 28) {D : Word → Prop}
    (hD : ∀ r ∈ rs, ∀ b, D b → lineNo r.addr ≠ lineNo b) (hf : ∀ b, ¬D b → m.Fresh b) :
    m'.latest = applyAll rs m.latest ∧ ∀ b, ¬D b → m'.Fresh b := by
  induction h with
  | done m => exact ⟨rfl, hf⟩
  | load _ ih =>
    obtain ⟨h₁, h₂⟩ := ih hD fun b hb => (hf b hb).load hn
    exact ⟨by rw [h₁, CachedMem.latest_load hn], h₂⟩
  | access _ ih =>
    obtain ⟨hr, hrs⟩ := List.forall_mem_cons.1 hD
    obtain ⟨h₁, h₂⟩ := CachedMem.latest_access hn fun c hc => hf c fun hd => hr c hd hc.symm
    obtain ⟨h₃, h₄⟩ := ih hrs fun b hb => h₂ b (hf b hb)
    refine ⟨h₃.trans ?_, h₄⟩
    rw [h₁]
    rfl

/-- What is not dirty and not written is where it was. -/
theorem lower (h : Walked m l rs m') (hn : IDX ≤ 28) (hw : ∀ r ∈ rs, r.write = true →
    lineNo r.addr ≠ lineNo b)
    (hd : ¬m.HoldsDirty b) : ¬m'.HoldsDirty b ∧ m'.lower b = m.lower b := by
  induction h with
  | done m => exact ⟨hd, rfl⟩
  | @load m _ a _ _ _ ih =>
    obtain ⟨h₁, h₂⟩ := ih hw fun h => hd (CachedMem.holdsDirty_load h)
    exact ⟨h₁, h₂.trans (CachedMem.lower_access (r := GemmBatch.loadOf a) hn hd)⟩
  | access _ ih =>
    obtain ⟨hr, hrs⟩ := List.forall_mem_cons.1 hw
    obtain ⟨h₁, h₂⟩ := ih hrs fun h => hd (CachedMem.holdsDirty_of_access hn h hr)
    exact ⟨h₁, h₂.trans (CachedMem.lower_access hn hd)⟩

/-- What is dirty in a set of the walk is not so afterwards. -/
theorem clean (h : Walked m l rs m') (hn : IDX ≤ 28) (hw : ∀ r ∈ rs, r.write = true →
    lineNo r.addr ≠ lineNo b)
    (hl : ∀ a ∈ l, lineNo a ≠ lineNo b) (hd : m.HoldsDirty b → ∃ a ∈ l, idxOf IDX a = idxOf IDX b) :
    ¬m'.HoldsDirty b := by
  induction h with
  | done m =>
    intro hb
    obtain ⟨a, ha, -⟩ := hd hb
    exact absurd ha List.not_mem_nil
  | @load m _ a _ _ _ ih =>
    obtain ⟨ha, hl⟩ := List.forall_mem_cons.1 hl
    refine ih hw hl fun hb => ?_
    obtain ⟨a', ha', hidx⟩ := hd (CachedMem.holdsDirty_load hb)
    rcases List.mem_cons.1 ha' with rfl | ha'
    · exact absurd hidx.symm (CachedMem.holds_access (r := GemmBatch.loadOf a') hn ha hb.1).2
    · exact ⟨a', ha', hidx⟩
  | access _ ih =>
    obtain ⟨hr, hrs⟩ := List.forall_mem_cons.1 hw
    exact ih hrs hl fun hb => hd (CachedMem.holdsDirty_of_access hn hb hr)

/-- What is in a set of the walk is not in the cache afterwards, unless other code loads it again. -/
theorem gone (h : Walked m l rs m') (hn : IDX ≤ 28) (hr : ∀ r ∈ rs, lineNo r.addr ≠ lineNo b)
    (hl : ∀ a ∈ l, lineNo a ≠ lineNo b) (hh : m.Holds b → ∃ a ∈ l, idxOf IDX a = idxOf IDX b) :
      ¬m'.Holds b := by
  induction h with
  | done m =>
    intro hb
    obtain ⟨a, ha, -⟩ := hh hb
    exact absurd ha List.not_mem_nil
  | @load m _ a _ _ _ ih =>
    obtain ⟨ha, hl⟩ := List.forall_mem_cons.1 hl
    refine ih hr hl fun hb => ?_
    obtain ⟨hold, htaken⟩ := CachedMem.holds_access (r := GemmBatch.loadOf a) hn ha hb
    obtain ⟨a', ha', hidx⟩ := hh hold
    rcases List.mem_cons.1 ha' with rfl | ha'
    · exact absurd hidx.symm htaken
    · exact ⟨a', ha', hidx⟩
  | access _ ih =>
    obtain ⟨hr₁, hrs⟩ := List.forall_mem_cons.1 hr
    exact ih hrs hl fun hb => hh (CachedMem.holds_access hn hr₁ hb).1

end Walked

end DcacheBram

end Rv32Soc
