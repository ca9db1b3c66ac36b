import Rv32Soc.Driver.Gemm

/-!
# Coherence of the results

`gemm_run_batch` over a data cache that holds anything, while the accelerator writes lines to
the memory behind it and other code goes on with lines of its own. The driver flushes the
operands before the batch, and displaces the destinations after it. A destination that is
dirty in the cache when the batch begins is then written back over its result; it is not only
if a line of an operand happens to share its set (`results_iff`).
-/

namespace Rv32Soc

namespace DcacheBram

variable {IDX : ℕ}

namespace CachedMem

variable {s : CachedMem IDX} {r : Request} {a b : Word}

/-- A line that the accelerator writes. -/
def dma (s : CachedMem IDX) (a : Word) (l : Line) : CachedMem IDX :=
  { s with lower := s.lower.setLine a l }

/-- What an access of another line may do to a line: take its set. -/
theorem holds_access (hn : IDX ≤ 28) (hne : lineNo r.addr ≠ lineNo b) (h : (s.access r).Holds b) :
    s.Holds b ∧ idxOf IDX b ≠ idxOf IDX r.addr := by
  have h : (s.load r.addr).Holds b := by
    rw [access] at h
    split_ifs at h <;> exact h
  have hidx : idxOf IDX b ≠ idxOf IDX r.addr := fun hidx => by
    have htag := (holds_load_iff hidx).1 h
    refine hne ?_
    rw [← lineNo_lineAddr hn b, lineNo_eq_lineAddr_iff hn]
    exact ⟨htag.symm, hidx.symm⟩
  exact ⟨(holds_load_of_ne hidx).1 h, hidx⟩

theorem holdsDirty_access (hn : IDX ≤ 28) (hne : lineNo r.addr ≠ lineNo b)
    (h : (s.access r).HoldsDirty b) :
    s.HoldsDirty b := by
  obtain ⟨hb, hidx⟩ := holds_access hn hne h.1
  refine ⟨hb, ?_⟩
  have hd : (s.access r).dirty (idxOf IDX b) = s.dirty (idxOf IDX b) := by
    rw [access]
    split_ifs
    · rw [store]
      exact (if_neg hidx).trans (dirty_load_of_ne hidx)
    · exact dirty_load_of_ne hidx
  exact hd ▸ h.2

/-- What it writes back is dirty lines only. -/
theorem lower_access (hn : IDX ≤ 28) (h : ¬s.HoldsDirty b) : (s.access r).lower b = s.lower b := by
  have hload : (s.load r.addr).lower b = s.lower b := by rw [lower_load hn, if_neg fun hb => h hb.2.1]
  rw [access]
  split_ifs <;> exact hload

end CachedMem

end DcacheBram

/-- Where a call of `gemm_run_batch` stands. -/
inductive BatchPhase
  | submit
  | running
  | collect
  | returned (rc : GemmRc)
  deriving DecidableEq

open DcacheBram

/-- The cache with its memory, what the accelerator has stored last, and the loads that the driver
    has before it in this phase. -/
structure GemmBatch (IDX : ℕ) where
  mem : CachedMem IDX
  result : Word → Option Byte
  phase : BatchPhase
  todo : List Word

/-- What happens: an access of other code, the next step of the driver, a line written by the
    accelerator, and the end of the wait, with what is to be displaced. -/
inductive BatchEvent
  | cpu (r : Request)
  | driver
  | dma (a : Word) (l : Line)
  | done (walk : List Word)
  | timeout

variable {IDX : ℕ}

namespace GemmBatch

variable (c : GemmCall) (displaceBuf : Word) (s : GemmBatch IDX)

/-- Other code keeps away from the lines of the destinations, and the accelerator writes while the
    batch runs. -/
def Admits : BatchEvent → Prop
  | .cpu r => ∀ b, c.IsDest b → lineNo r.addr ≠ lineNo b
  | .driver => (s.phase = .submit ∨ s.phase = .collect)
  | .dma _ _ => s.phase = .running
  | .done walk => s.phase = .running ∧
      ∃ fuel, displaceRanges IDX displaceBuf fuel c.displaced = some walk
  | .timeout => s.phase = .running

/-- The driver loads what is before it, and goes on to the next phase when there is nothing left. -/
def next : BatchEvent → GemmBatch IDX
  | .cpu r => { s with mem := s.mem.access r }
  | .driver => match s.todo with
    | a :: todo => { s with mem := s.mem.load a, todo := todo }
    | [] => { s with phase := if s.phase = .submit then .running else .returned .ok }
  | .dma a l =>
    { s with
      mem := s.mem.dma a l
      result := fun b => if lineNo b = lineNo a then some (lineByte l (offsetOf b)) else s.result b }
  | .done walk => { s with phase := .collect, todo := walk }
  | .timeout => { s with phase := .returned .ETIMEDOUT }

/-- A call begins over the memory `m`. -/
def IsStart (queueFree : ℕ) (m : CachedMem IDX) : Prop :=
  s.mem = m ∧ (∀ b, s.result b = none) ∧
    if c.check queueFree = .ok then
      s.phase = .submit ∧ ∃ fuel, displaceRanges IDX displaceBuf fuel c.flushed = some s.todo
    else s.phase = .returned (c.check queueFree)

end GemmBatch

/-- A call of `gemm_run_batch`, over the memory `m`. -/
def gemmRunBatch (c : GemmCall) (displaceBuf : Word) (queueFree : ℕ) (m : CachedMem IDX) :
    Circuit (GemmBatch IDX) BatchEvent where
  init := {s | s.IsStart c displaceBuf queueFree m}
  admits s e := s.Admits c displaceBuf e
  next s e := s.next e

namespace GemmBatch

/-- No line of a destination is dirty in the cache, and what the accelerator has stored is in memory. -/
structure Clean (c : GemmCall) (m : CachedMem IDX) (result : Word → Option Byte) : Prop where
  clean : ∀ b, c.IsDest b → ¬m.HoldsDirty b
  stored : ∀ b, c.IsDest b → ∀ v, result b = some v → m.lower b = v

/-- The loads are of lines of the buffer. -/
def OfBuf (IDX : ℕ) (displaceBuf : Word) (l : List Word) :
    Prop := ∀ a ∈ l, tagOf IDX a = tagOf IDX displaceBuf

/-- The invariant, phase by phase. -/
def Inv (c : GemmCall) (displaceBuf : Word) (s : GemmBatch IDX) : Prop :=
  match s.phase with
  | .submit => OfBuf IDX displaceBuf s.todo ∧ (∀ b, s.result b = none) ∧
      ∀ b, c.IsDest b → s.mem.HoldsDirty b → ∃ a ∈ s.todo, idxOf IDX a = idxOf IDX b
  | .running => Clean c s.mem s.result
  | .collect => Clean c s.mem s.result ∧ OfBuf IDX displaceBuf s.todo ∧
      ∀ b, c.IsDest b → s.mem.Holds b → ∃ a ∈ s.todo, idxOf IDX a = idxOf IDX b
  | .returned .ok => Clean c s.mem s.result ∧ ∀ b, c.IsDest b → ¬s.mem.Holds b
  | .returned _ => True

variable {c : GemmCall} {displaceBuf : Word} {s : GemmBatch IDX} {queueFree : ℕ}
  {m : CachedMem IDX} {r : Request}

theorem Clean.access {result : Word → Option Byte} (hn : IDX ≤ 28) (h : Clean c m result)
    (hne : ∀ b, c.IsDest b → lineNo r.addr ≠ lineNo b) : Clean c (m.access r) result where
  clean b hb hd := h.clean b hb (CachedMem.holdsDirty_access hn (hne b hb) hd)
  stored b hb v hv := (CachedMem.lower_access hn (h.clean b hb)).trans (h.stored b hb v hv)

theorem Inv.next_cpu (hn : IDX ≤ 28) (h : s.Inv c displaceBuf)
    (hne : ∀ b, c.IsDest b → lineNo r.addr ≠ lineNo b) :
    (s.next (.cpu r)).Inv c displaceBuf := by
  simp only [Inv, GemmBatch.next] at h ⊢
  cases hph : s.phase with
  | submit =>
    simp only [hph] at h ⊢
    obtain ⟨hbuf, hres, hdirty⟩ := h
    exact ⟨hbuf, hres, fun b hb hd => hdirty b hb (CachedMem.holdsDirty_access hn (hne b hb) hd)⟩
  | running =>
    simp only [hph] at h ⊢
    exact h.access hn hne
  | collect =>
    simp only [hph] at h ⊢
    obtain ⟨hclean, hbuf, hheld⟩ := h
    exact ⟨hclean.access hn hne, hbuf, fun b hb hd =>
      hheld b hb (CachedMem.holds_access hn (hne b hb) hd).1⟩
  | returned rc =>
    cases rc with
    | ok =>
      simp only [hph] at h ⊢
      exact ⟨h.1.access hn hne, fun b hb hd => h.2 b hb (CachedMem.holds_access hn (hne b hb) hd).1⟩
    | EINVAL | EBUSY | ETIMEDOUT => trivial

/-- A line of the buffer is not one of a destination. -/
theorem lineNo_ne_of_ofBuf (hn : IDX ≤ 28) (hbuf : BufAligned IDX displaceBuf)
    (hdisj : ∀ b, c.IsDest b → ¬InBuf IDX displaceBuf b) {a : Word}
    (ha : tagOf IDX a = tagOf IDX displaceBuf) :
    ∀ b, c.IsDest b → lineNo a ≠ lineNo b := fun b hb he =>
  hdisj b hb ((tagOf_eq_iff_inBuf hn hbuf).1 ((tagOf_congr hn he).symm.trans ha))

/-- A load of the driver, as any other load. -/
def loadOf (a : Word) : Request := ⟨false, a, 0, 0⟩

theorem access_loadOf (a : Word) : m.access (loadOf a) = m.load a := rfl

theorem Inv.next_driver (hn : IDX ≤ 28) (h : s.Inv c displaceBuf) (hbuf : BufAligned IDX displaceBuf)
    (hdisj : ∀ b, c.IsDest b → ¬InBuf IDX displaceBuf b) (hph : s.phase = .submit ∨ s.phase = .collect) :
    (s.next .driver).Inv c displaceBuf := by
  simp only [Inv, GemmBatch.next] at h ⊢
  rcases hph with hph | hph
  · -- The flush: each load takes the place of the line that has its index.
    simp only [hph] at h
    obtain ⟨hof, hres, hdirty⟩ := h
    cases htodo : s.todo with
    | nil =>
      simp only [hph, if_true]
      refine ⟨fun b hb hd => ?_, fun b _ v hv => absurd ((hres b).symm.trans hv) nofun⟩
      obtain ⟨a, ha, -⟩ := hdirty b hb hd
      exact absurd (htodo ▸ ha) List.not_mem_nil
    | cons a todo =>
      rw [htodo] at hof hdirty
      obtain ⟨ha, hof⟩ := List.forall_mem_cons.1 hof
      have hne := lineNo_ne_of_ofBuf hn hbuf hdisj ha
      simp only [hph]
      refine ⟨hof, hres, fun b hb hd => ?_⟩
      rw [← access_loadOf] at hd
      obtain ⟨a', ha', hidx⟩ := hdirty b hb (CachedMem.holdsDirty_access hn (hne b hb) hd)
      rcases List.mem_cons.1 ha' with rfl | ha'
      · exact absurd hidx.symm (CachedMem.holds_access hn (hne b hb) hd.1).2
      · exact ⟨a', ha', hidx⟩
  · -- The displacement after the batch: the same, of lines that are clean but out of date.
    simp only [hph] at h
    obtain ⟨hclean, hof, hheld⟩ := h
    cases htodo : s.todo with
    | nil =>
      simp only [hph, reduceCtorEq, if_false]
      refine ⟨hclean, fun b hb hd => ?_⟩
      obtain ⟨a, ha, -⟩ := hheld b hb hd
      exact absurd (htodo ▸ ha) List.not_mem_nil
    | cons a todo =>
      rw [htodo] at hof hheld
      obtain ⟨ha, hof⟩ := List.forall_mem_cons.1 hof
      have hne := lineNo_ne_of_ofBuf hn hbuf hdisj ha
      simp only [hph]
      refine ⟨hclean.access (r := loadOf a) hn hne, hof, fun b hb hd => ?_⟩
      rw [← access_loadOf] at hd
      obtain ⟨hold, htaken⟩ := CachedMem.holds_access hn (hne b hb) hd
      obtain ⟨a', ha', hidx⟩ := hheld b hb hold
      rcases List.mem_cons.1 ha' with rfl | ha'
      · exact absurd hidx.symm htaken
      · exact ⟨a', ha', hidx⟩

theorem Inv.next_dma (h : s.Inv c displaceBuf) (hph : s.phase = .running) (a : Word) (l : Line) :
    (s.next (.dma a l)).Inv c displaceBuf := by
  simp only [Inv, GemmBatch.next, hph] at h ⊢
  refine ⟨h.clean, fun b hb v hv => ?_⟩
  simp only [CachedMem.dma, Mem.setLine]
  split_ifs at hv ⊢ with hline
  · exact Option.some_inj.1 hv
  · exact h.stored b hb v hv

theorem Inv.next_done (hn : IDX ≤ 28) (h : s.Inv c displaceBuf) (hbuf : BufAligned IDX displaceBuf)
    (hwrap : ∀ r ∈ c.displaced, NoWrap r.1 r.2) (hph : s.phase = .running) {walk : List Word} {fuel : ℕ}
    (hwalk : displaceRanges IDX displaceBuf fuel c.displaced = some walk) :
    (s.next (.done walk)).Inv c displaceBuf := by
  simp only [Inv, GemmBatch.next, hph] at h ⊢
  have hw := walks_of_displaceRanges hn hbuf hwrap hwalk
  refine ⟨h, hw.tag, fun b hb _ => ?_⟩
  obtain ⟨r, hr, hlow, hhigh⟩ := hb
  have hset : idxOf IDX b ∈ rangeSets IDX c.displaced := ⟨r, hr, b, by omega, hhigh, rfl⟩
  rw [← hw.sets] at hset
  exact hset

theorem inv_of_isStart (hn : IDX ≤ 28) (hbuf : BufAligned IDX displaceBuf)
    (hwrap : ∀ r ∈ c.flushed, NoWrap r.1 r.2)
    (hdirty : ∀ b, c.IsDest b → m.HoldsDirty b → idxOf IDX b ∈ rangeSets IDX c.flushed)
    (h : s.IsStart c displaceBuf queueFree m) : s.Inv c displaceBuf := by
  obtain ⟨rfl, hres, hph⟩ := h
  split_ifs at hph with hcheck
  · obtain ⟨hph, fuel, hwalk⟩ := hph
    have hw := walks_of_displaceRanges hn hbuf hwrap hwalk
    simp only [Inv, hph]
    refine ⟨hw.tag, hres, fun b hb hd => ?_⟩
    have hset := hdirty b hb hd
    rw [← hw.sets] at hset
    exact hset
  · cases hrc : c.check queueFree with
    | ok => exact absurd hrc hcheck
    | EINVAL | EBUSY | ETIMEDOUT => simp only [Inv, hph, hrc]

theorem inv_next (hn : IDX ≤ 28) (hbuf : BufAligned IDX displaceBuf)
    (hwrap : ∀ r ∈ c.displaced, NoWrap r.1 r.2)
    (hdisj : ∀ b, c.IsDest b → ¬InBuf IDX displaceBuf b) {e : BatchEvent} (h : s.Inv c displaceBuf)
    (ha : s.Admits c displaceBuf e) : (s.next e).Inv c displaceBuf := by
  cases e with
  | cpu r => exact h.next_cpu hn ha
  | driver => exact h.next_driver hn hbuf hdisj ha
  | dma a l => exact h.next_dma ha a l
  | done walk =>
    obtain ⟨hph, fuel, hwalk⟩ := ha
    exact h.next_done hn hbuf hwrap hph hwalk
  | timeout => trivial

theorem inv_of_reachable (hn : IDX ≤ 28) (hbuf : BufAligned IDX displaceBuf)
    (hflush : ∀ r ∈ c.flushed, NoWrap r.1 r.2)
    (hdest : ∀ r ∈ c.displaced, NoWrap r.1 r.2) (hdisj : ∀ b, c.IsDest b → ¬InBuf IDX displaceBuf b)
    (hdirty : ∀ b, c.IsDest b → m.HoldsDirty b → idxOf IDX b ∈ rangeSets IDX c.flushed)
    (h : (gemmRunBatch c displaceBuf queueFree m).Reachable s) : s.Inv c displaceBuf := by
  refine h.invariant (P := fun s => s.Inv c displaceBuf) ?_ ?_
  · exact fun s hs => inv_of_isStart hn hbuf hflush hdirty hs
  · exact fun s e hs ha => inv_next hn hbuf hdest hdisj hs ha

theorem reachable_next (h : (gemmRunBatch c displaceBuf queueFree m).Reachable s) {e : BatchEvent}
    (ha : s.Admits c displaceBuf e) :
      (gemmRunBatch c displaceBuf queueFree m).Reachable (s.next e) := .step h ha

/-- The loads that are before the driver can come one after another. -/
theorem reachable_loads (h : (gemmRunBatch c displaceBuf queueFree m).Reachable s)
    (hph : s.phase = .submit ∨ s.phase = .collect) :
    (gemmRunBatch c displaceBuf queueFree m).Reachable
      { s with mem := s.mem.loads s.todo, todo := [] } := by
  obtain ⟨mem, result, phase, todo⟩ := s
  induction todo generalizing mem with
  | nil => exact h
  | cons a todo ih => exact ih (mem.load a) (reachable_next (e := .driver) h hph) hph

/-- A batch whose accelerator writes a single line, with nobody else around. -/
theorem reachable_single (hcheck : c.check queueFree = .ok) {l₁ l₂ : List Word} {fuel₁ fuel₂ : ℕ}
    (h₁ : displaceRanges IDX displaceBuf fuel₁ c.flushed = some l₁)
    (h₂ : displaceRanges IDX displaceBuf fuel₂ c.displaced = some l₂) (a : Word) (l : Line) :
    (gemmRunBatch c displaceBuf queueFree m).Reachable
      ⟨((m.loads l₁).dma a l).loads l₂, fun b => if lineNo b = lineNo a then some
        (lineByte l (offsetOf b)) else none, .returned .ok, []⟩ := by
  have hstart : (gemmRunBatch c displaceBuf queueFree m).Reachable ⟨m, fun _ => none, .submit, l₁⟩ :=
    .init ⟨rfl, fun _ => rfl, (if_pos hcheck).symm ▸ ⟨rfl, fuel₁, h₁⟩⟩
  have hflushed := reachable_loads hstart (.inl rfl)
  have hrunning := reachable_next (e := .driver) hflushed (.inl rfl)
  have hstored := reachable_next (e := .dma a l) hrunning rfl
  have hdone := reachable_next (e := .done l₂) hstored ⟨rfl, fuel₂, h₂⟩
  exact reachable_next (e := .driver) (reachable_loads hdone (.inr rfl)) (.inr rfl)

/-- A destination that is dirty in the cache when the batch begins to run is written back over its
    result. -/
theorem exists_overwritten (hn : IDX ≤ 28) (hbuf : BufAligned IDX displaceBuf)
    (hcheck : c.check queueFree = .ok)
    (hflush : ∀ r ∈ c.flushed, NoWrap r.1 r.2) (hdest : ∀ r ∈ c.displaced, NoWrap r.1 r.2)
    (hdisj : ∀ b, c.IsDest b → ¬InBuf IDX displaceBuf b) {b : Word} (hb : c.IsDest b)
    (hd : m.HoldsDirty b) (hset : idxOf IDX b ∉ rangeSets IDX c.flushed) :
    ∃ s, (gemmRunBatch c displaceBuf queueFree m).Reachable s ∧ s.phase = .returned .ok ∧
      ∃ v, s.result b = some v ∧ s.mem.read b ≠ v := by
  obtain ⟨N₁, hN₁⟩ := exists_displaceRanges IDX displaceBuf hflush
  obtain ⟨N₂, hN₂⟩ := exists_displaceRanges IDX displaceBuf hdest
  obtain ⟨l₁, h₁⟩ := hN₁ N₁ le_rfl
  obtain ⟨l₂, h₂⟩ := hN₂ N₂ le_rfl
  -- the accelerator stores something else than what is in the cache
  obtain ⟨v, hv⟩ : ∃ v, v ≠ m.cachedByte b := ⟨m.cachedByte b + 1, by simp⟩
  refine ⟨_, reachable_single hcheck h₁ h₂ b (Mem.line (fun _ => v) b), rfl, v,
    (if_pos rfl).trans (congrArg some (Mem.lineByte_line _ rfl)), ?_⟩
  obtain ⟨htag, hdirty, hdata⟩ :=
    ((walks_of_displaceRanges hn hbuf hflush h₁).displaced (s := m) hn).frame _ hset
  have hd' : ((m.loads l₁).dma b (Mem.line (fun _ => v) b)).HoldsDirty b := by
    simpa [CachedMem.HoldsDirty, CachedMem.Holds, CachedMem.dma, htag, hdirty] using hd
  have hset₂ : idxOf IDX b ∈ rangeSets IDX c.displaced := by
    obtain ⟨r, hr, hlow, hhigh⟩ := hb
    exact ⟨r, hr, b, by omega, hhigh, rfl⟩
  obtain ⟨hnot, hlower⟩ := ((walks_of_displaceRanges hn hbuf hdest h₂).displaced hn).lower_eq hset₂
    fun htag => hdisj b hb ((tagOf_eq_iff_inBuf hn hbuf).1 htag)
  have hread : (((m.loads l₁).dma b (Mem.line (fun _ => v) b)).loads l₂).read b = m.cachedByte b := by
    rw [CachedMem.read, if_neg hnot, hlower, CachedMem.latest, if_pos hd']
    simp [CachedMem.cachedByte, CachedMem.dma, hdata]
  exact fun he => hv (he.symm.trans hread)

/-- What the accelerator has stored to the destinations can be read when `gemm_run_batch` has
    returned 0, in every run over the memory `m`, exactly if each destination that is dirty in the
    cache at the beginning shares its set with a line that is flushed. -/
theorem results_iff (hn : IDX ≤ 28) (hbuf : BufAligned IDX displaceBuf)
    (hcheck : c.check queueFree = .ok)
    (hflush : ∀ r ∈ c.flushed, NoWrap r.1 r.2) (hdest : ∀ r ∈ c.displaced, NoWrap r.1 r.2)
    (hdisj : ∀ b, c.IsDest b → ¬InBuf IDX displaceBuf b) :
    (∀ s, (gemmRunBatch c displaceBuf queueFree m).Reachable s → s.phase = .returned .ok →
      ∀ b, c.IsDest b → ∀ v, s.result b = some v → s.mem.read b = v) ↔
    ∀ b, c.IsDest b → m.HoldsDirty b → idxOf IDX b ∈ rangeSets IDX c.flushed := by
  constructor
  · intro hall b hb hd
    by_contra hset
    obtain ⟨s, hs, hph, v, hv, hread⟩ := exists_overwritten hn hbuf hcheck hflush hdest hdisj hb hd hset
    exact hread (hall s hs hph b hb v hv)
  · intro hdirty s hs hph b hb v hv
    have hinv := inv_of_reachable hn hbuf hflush hdest hdisj hdirty hs
    simp only [Inv, hph] at hinv
    rw [CachedMem.read, if_neg (hinv.2 b hb)]
    exact hinv.1.stored b hb v hv

/-- A single tile over an array of dimension 4, with its operands at `0x200` and `0x300`, and its
    destination at `0x100`. -/
def oneTile : GemmCall := ⟨4, [⟨0x200, 0x300, 0x100, 16, 0, 0, false, false⟩], 0, false, 0⟩

/-- A cache of 1024 sets: clean, or with the line at `0x100` dirty. -/
def oneLine (dirty : Bool) : CachedMem 10 :=
  ⟨fun _ _ => 0, fun _ => ⟨true, 0⟩, fun x => dirty && x == 0x10, fun _ => 0⟩

theorem not_inBuf_oneTile {b : Word} (hb : oneTile.IsDest b) : ¬InBuf 10 0x4000 b := fun hbuf => by
  have hlow : 0x4000 ≤ b.toNat := hbuf.1
  simp only [GemmCall.IsDest, GemmCall.displaced, oneTile, GemmCall.tileBytes, InRange] at hb
  simp at hb
  omega

theorem mem_flushed_oneTile {r : MemRange} : r ∈ oneTile.flushed ↔ r = (0x200, 64) ∨
    r = (0x300, 64) := by
  have hflushed : oneTile.flushed = [(0x200, 64), (0x300, 64)] := by decide
  simp only [hflushed, List.mem_cons, List.not_mem_nil, or_false]

theorem mem_displaced_oneTile {r : MemRange} : r ∈ oneTile.displaced ↔ r = (0x100, 64) := by
  have hdisplaced : oneTile.displaced = [(0x100, 64)] := by decide
  simp only [hdisplaced, List.mem_cons, List.not_mem_nil, or_false]

theorem noWrap_flushed_oneTile : ∀ r ∈ oneTile.flushed, NoWrap r.1 r.2 := fun r hr => by
  rcases mem_flushed_oneTile.1 hr with rfl | rfl <;> decide

theorem noWrap_displaced_oneTile : ∀ r ∈ oneTile.displaced, NoWrap r.1 r.2 := fun r hr => by
  obtain rfl := mem_displaced_oneTile.1 hr
  decide

theorem not_flushed_oneTile : idxOf 10 0x100 ∉ rangeSets 10 oneTile.flushed := by
  rintro ⟨r, hr, b, hlow, hhigh, hidx⟩
  have hset := congrArg BitVec.toNat hidx
  rw [toNat_idxOf, toNat_idxOf] at hset
  rw [mem_flushed_oneTile] at hr
  rcases hr with rfl | rfl <;> simp at hlow hhigh hset <;> omega

/-- Over the clean cache the result can be read. -/
theorem results_oneTile : oneTile.IsDest 0x100 ∧
    ∀ s, (gemmRunBatch oneTile 0x4000 4 (oneLine false)).Reachable s → s.phase = .returned .ok →
      ∀ b, oneTile.IsDest b → ∀ v, s.result b = some v → s.mem.read b = v := by
  refine ⟨⟨(0x100, 64), by decide, by decide, by decide⟩, ?_⟩
  exact (results_iff (by decide) (by decide) (by decide) noWrap_flushed_oneTile noWrap_displaced_oneTile
    fun _ => not_inBuf_oneTile).2 fun _ _ hd => absurd hd.2 Bool.false_ne_true

/-- Over the dirty one it is lost. -/
theorem overwritten_oneTile : ∃ s, (gemmRunBatch oneTile 0x4000 4 (oneLine true)).Reachable s ∧
    s.phase = .returned .ok ∧ oneTile.IsDest 0x100 ∧ ∃ v, s.result 0x100 = some v ∧
    s.mem.read 0x100 ≠ v := by
  have hdest : oneTile.IsDest 0x100 := ⟨(0x100, 64), by decide, by decide, by decide⟩
  obtain ⟨s, hs, hph, hread⟩ := exists_overwritten (m := oneLine true) (by decide)
    (show BufAligned 10 0x4000 by decide) (show oneTile.check 4 = .ok by decide)
    noWrap_flushed_oneTile noWrap_displaced_oneTile (fun _ => not_inBuf_oneTile) hdest (by decide)
      not_flushed_oneTile
  exact ⟨s, hs, hph, hdest, hread⟩

end GemmBatch

end Rv32Soc
