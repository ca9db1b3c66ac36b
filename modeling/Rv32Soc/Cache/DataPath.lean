import Rv32Soc.Cache.DcacheCoherence
import Rv32Soc.Cache.Dcache

/-!
# The data-memory path

`partial_store`, `dcache` (the cache over a line memory of arbitrary latency, and
the TCM) and `partial_load`, driven as the pipeline drives them: an access is held
until it is acknowledged, and possibly longer, and is withdrawn only on a cycle
that acknowledges it; while it is held, the index speculated for the next cycle is
its own. What is speculated for a new access is arbitrary.

The path behaves as one flat memory of bytes. `Sys.done` is what the stores that
have been withdrawn make of the initial memory, in their order, and `Sys.mem` adds
the store being held, once the path has taken it.

* `Inv`: the cache is coherent with `Sys.mem` outside the TCM, and the banks of the
  TCM hold it inside; the TCM answers the access being held;
* `flat_of_reachable`: a load returns, on its last cycle, what it would from
  `Sys.done`, and in `S_IDLE` the line memory overlaid with the dirty lines, and
  with the TCM, is `Sys.mem`.
-/

namespace Rv32Soc

namespace DataPath

/-- A load or a store of the MEM stage: `inst` tells its size. -/
structure Access where
  write : Bool
  inst : Word
  addr : Word
  data : Word
  deriving DecidableEq

/-- What a store does to a flat memory. -/
def Access.apply (r : Access) (m : Mem) : Mem :=
  m.storeBytes r.addr r.data (accessBytes (r.inst.extractLsb' 12 2))

/-- What a load returns from a flat memory. -/
def Access.value (r : Access) (m : Mem) : Word := m.loadValue (r.inst.extractLsb' 12 3) r.addr

/-- What drives the path on a cycle: the access presented, if `valid`, and whether it
    is its `last` cycle; the index speculated; the line memory; and the instruction
    port of the TCM. -/
structure Inputs (IDX : ℕ) where
  valid : Bool
  access : Access
  last : Bool
  addrNext : BitVec (IDX + 4)
  memRline : Line
  memReady : Bool
  iReq : Bool
  iAddr : Word

/-- The front end, the TCM and the line memory, with the access being held and
    whether its store has been taken. -/
structure Sys (IDX K : ℕ) where
  dcache : Dcache.Regs IDX
  tcm : Tcm.Regs K
  lower : Mem
  done : Mem
  held : Option Access
  taken : Bool

variable {IDX K : ℕ}

namespace Sys

variable (s : Sys IDX K) (i : Inputs IDX)

/-! ## Ports -/

/-- The data to store and its byte enables. -/
def storePort : PartialStore :=
  partialStore i.access.inst i.access.addr i.access.data i.access.write

/-- The ports of `dcache`. -/
def dcacheIn : Dcache.Inputs IDX where
  cpuReqValid := i.valid
  cpuReqWrite := i.access.write
  cpuReqAddr := i.access.addr
  cpuReqAddrNext := i.addrNext
  cpuWdata := (storePort i).dataToMem
  cpuWmask := (storePort i).memWriteMask
  tcmRdata := s.tcm.dRdata
  tcmReady := s.tcm.dReady
  memRline := i.memRline
  memReady := i.memReady

/-- The ports of `tcm`. -/
def tcmIn : Tcm.Inputs where
  iReq := i.iReq
  iAddr := i.iAddr
  dReq := s.dcache.tcmReqValid K (s.dcacheIn i)
  dWe := i.access.write
  dAddr := i.access.addr
  dWdata := (storePort i).dataToMem
  dWmask := (storePort i).memWriteMask

/-- The ports of the cache. -/
def coreIn : DcacheBram.Inputs IDX := (s.dcacheIn i).core K

def cpuReady : Bool := s.dcache.cpuReady K (s.dcacheIn i)

/-- The value the load presented has returned, if it is acknowledged. -/
def loadData : Word :=
  partialLoad i.access.inst i.access.addr (s.dcache.cpuRdata K (s.dcacheIn i))

/-! ## Steps -/

/-- The store presented is taken on this edge: written to the banks of the TCM, or to
    the cache. -/
def takes : Bool :=
  i.valid && i.access.write &&
    if Tcm.inRange K i.access.addr then s.dcache.tcmReqValid K (s.dcacheIn i)
    else s.dcache.coreInst.wrHit (s.coreIn i)

def next : Sys IDX K where
  dcache := s.dcache.next K (s.dcacheIn i)
  tcm := s.tcm.next (s.tcmIn i)
  lower := s.dcache.coreInst.lowerNext (s.coreIn i) s.lower
  done := if i.valid && i.last && i.access.write then i.access.apply s.done else s.done
  held := if i.valid && !i.last then some i.access else none
  taken := i.valid && !i.last && (s.taken || s.takes i)

/-- How the pipeline and the line memory drive the path. -/
structure Admits : Prop where
  /-- An access that was not withdrawn is presented again. -/
  held : ∀ r ∈ s.held, i.valid = true ∧ i.access = r
  /-- An access is withdrawn only when it is acknowledged. -/
  last : i.valid = true → i.last = true → s.cpuReady i = true
  aligned : i.valid = true → Aligned i.access.inst i.access.addr
  /-- While an access is held, its own index is speculated. -/
  addrNext : i.valid = true → i.last = false → i.addrNext = i.access.addr.setWidth (IDX + 4)
  line : s.dcache.coreInst.fillEn (s.coreIn i) = true →
    i.memRline = s.lower.line s.dcache.coreInst.memReqAddr

/-- The abstract memory: the stores withdrawn, and the one being held once it is taken. -/
def mem : Mem :=
  match s.held with
  | some r => if s.taken then r.apply s.done else s.done
  | none => s.done

/-- The memory the path holds: the banks of the TCM inside it, and outside it the line
    memory overlaid with the dirty lines of the cache. -/
def flat : Mem := fun a =>
  if Tcm.inRange K a then s.tcm.byteAt a else s.dcache.coreInst.overlay s.lower a

/-- After a reset the memory is that of the TCM and the line memory. -/
def IsReset : Prop :=
  s.dcache.IsReset ∧ s.tcm.IsReset ∧
    (s.done = fun a => if Tcm.inRange K a then s.tcm.byteAt a else s.lower a) ∧
    s.held = none ∧ s.taken = false

end Sys

/-- The data-memory path under the pipeline's protocol. -/
def path (IDX K : ℕ) : Circuit (Sys IDX K) (Inputs IDX) where
  init := {s | s.IsReset}
  admits s i := s.Admits i
  next s i := s.next i

/-- What the front end, the TCM and the abstract memory know of each other. -/
structure Inv (s : Sys IDX K) : Prop where
  cache : ∃ cm, s.dcache.coreInst.Inv s.lower cm ∧ ∀ a, Tcm.inRange K a = false → cm a = s.mem a
  tcm : ∀ a, Tcm.inRange K a = true → s.tcm.byteAt a = s.mem a
  pending : s.dcache.tcmReqPending = s.tcm.dReady
  taken : s.taken = true → ∃ r ∈ s.held, r.write = true
  /-- The TCM answers the access being held. -/
  answer : s.tcm.dReady = true → ∃ r ∈ s.held, Tcm.inRange K r.addr = true ∧
    (r.write = true → s.taken = true) ∧ (r.write = false → s.tcm.dRdata = s.tcm.wordAt r.addr)
  /-- A victim is captured for the access being held. -/
  cap : s.dcache.coreInst.state = .S_CAP →
    ∃ r ∈ s.held, idxOf IDX r.addr = s.dcache.coreInst.missIdx

variable {s : Sys IDX K} {i : Inputs IDX}

/-! ## What the ports carry -/

theorem coreIn_cpuReqValid :
    (s.coreIn i).cpuReqValid = (i.valid && !Tcm.inRange K i.access.addr) := rfl

theorem coreIn_cpuReqWrite : (s.coreIn i).cpuReqWrite = i.access.write := rfl

theorem cpuReady_eq : s.cpuReady i =
    if Tcm.inRange K i.access.addr then s.tcm.dReady
    else s.dcache.coreInst.cpuReady (s.coreIn i) := rfl

theorem tcmReqValid_eq : s.dcache.tcmReqValid K (s.dcacheIn i) =
    (i.valid && Tcm.inRange K i.access.addr && !s.dcache.tcmReqPending) := rfl

/-! ## The abstract memory -/

theorem Access.apply_apply (r : Access) (m : Mem) : r.apply (r.apply m) = r.apply m := by
  funext x
  simp only [Access.apply, Mem.storeBytes]
  split <;> rfl

theorem Access.apply_congr (r : Access) {m m' : Mem} {a : Word} (h : m a = m' a) :
    r.apply m a = r.apply m' a := by
  simp only [Access.apply, Mem.storeBytes, h]

/-- A store is the write of a word under the byte enables of `partial_store`. -/
theorem apply_eq_store (ha : Aligned i.access.inst i.access.addr) (hw : i.access.write = true)
    (m : Mem) :
    i.access.apply m =
      m.store i.access.addr (Sys.storePort i).dataToMem (Sys.storePort i).memWriteMask := by
  rw [Sys.storePort, hw, Mem.store_partialStore m ha, Access.apply]

/-- A store changes no byte on the other side of the TCM's boundary. -/
theorem apply_of_inRange_ne (hK : K ≤ 28) (ha : Aligned i.access.inst i.access.addr)
    (hw : i.access.write = true) {a : Word} (h : Tcm.inRange K a ≠ Tcm.inRange K i.access.addr)
    (m : Mem) : i.access.apply m a = m a := by
  rw [apply_eq_store ha hw, Mem.store, if_neg]
  exact fun hx => h (Tcm.inRange_congr hK hx.1)

/-- A load is not taken, so it is served from what the stores before it left. -/
theorem Inv.mem_eq_done (h : Inv s) (ha : s.Admits i) (hw : i.access.write = false) :
    s.mem = s.done := by
  rw [Sys.mem]
  split
  next r hr =>
    have hacc := (ha.held r hr).2
    have ht : s.taken = false := by
      by_contra ht
      obtain ⟨r', hr', hw'⟩ := h.taken (by simpa using ht)
      rw [← (ha.held r' hr').2, hw] at hw'
      exact absurd hw' Bool.false_ne_true
    simp [ht]
  next => rfl

/-- An acknowledged store has been taken, on this cycle or before. -/
theorem Inv.takes_or_taken (h : Inv s) (ha : s.Admits i) (hv : i.valid = true)
    (hw : i.access.write = true) (hr : s.cpuReady i = true) :
    s.takes i = true ∨ s.taken = true ∧ s.held = some i.access := by
  cases ht : Tcm.inRange K i.access.addr with
  | true =>
    have hd : s.tcm.dReady = true := by simpa [cpuReady_eq, ht] using hr
    obtain ⟨r, hr, -, htk, -⟩ := h.answer hd
    have hacc := (ha.held r hr).2
    exact .inr ⟨htk (hacc ▸ hw), hacc ▸ hr⟩
  | false =>
    left
    have hrdy : s.dcache.coreInst.cpuReady (s.coreIn i) = true := by simpa [cpuReady_eq, ht] using hr
    simp only [DcacheBram.Regs.cpuReady, Bool.and_eq_true] at hrdy
    simp [Sys.takes, hv, hw, ht, DcacheBram.Regs.wrHit, hrdy, coreIn_cpuReqWrite]

/-- The abstract memory after an edge: a store takes effect when it is taken. -/
theorem Inv.mem_next (h : Inv s) (ha : s.Admits i) :
    (s.next i).mem = if s.takes i then i.access.apply s.mem else s.mem := by
  cases hv : i.valid with
  | false =>
    -- Nothing is presented, so nothing was held.
    have hh : s.held = none := by
      rcases hh : s.held with _ | r
      · rfl
      · exact absurd (ha.held r hh).1 (by simp [hv])
    simp [Sys.mem, Sys.next, Sys.takes, hv, hh]
  | true =>
    -- Whatever was held is the access presented, and was not taken unless it was held.
    have hmem : s.mem = s.done ∨ s.mem = i.access.apply s.done ∧ s.taken = true ∧
        s.held = some i.access := by
      rcases hh : s.held with _ | r
      · exact .inl (by simp [Sys.mem, hh])
      · obtain rfl := (ha.held r hh).2
        cases ht : s.taken with
        | false => exact .inl (by simp [Sys.mem, hh, ht])
        | true => exact .inr ⟨by simp [Sys.mem, hh, ht], rfl, rfl⟩
    have happ : i.access.apply s.mem = i.access.apply s.done := by
      rcases hmem with hm | ⟨hm, -⟩
      · rw [hm]
      · rw [hm, Access.apply_apply]
    cases hl : i.last with
    | false =>
      have hnext : (s.next i).mem = if s.taken || s.takes i then i.access.apply s.done else s.done := by
        simp [Sys.mem, Sys.next, hv, hl]
      rw [hnext, happ]
      rcases hmem with hm | ⟨hm, ht, -⟩
      · cases hk : s.takes i with
        | true => simp
        | false =>
          cases ht : s.taken with
          | false => simp [hm]
          | true =>
            obtain ⟨r, hr, -⟩ := h.taken ht
            obtain rfl := (ha.held r hr).2
            have hr' : s.held = some i.access := hr
            simp [Sys.mem, hr', ht]
      · simp [ht, hm]
    | true =>
      have hnext : (s.next i).mem = if i.access.write then i.access.apply s.done else s.done := by
        simp [Sys.mem, Sys.next, hv, hl]
      rw [hnext, happ]
      cases hw : i.access.write with
      | false => simp [Sys.takes, hw, h.mem_eq_done ha hw]
      | true =>
        rcases h.takes_or_taken ha hv hw (ha.last hv hl) with hk | ⟨ht, hh⟩
        · simp [hk]
        · simp [Sys.mem, hh, ht]

/-! ## One edge -/

/-- The index speculated while an access is held is its own. -/
theorem aIdx_eq_mIdx (ha : s.Admits i) (hv : i.valid = true) (hl : i.last = false) :
    (s.coreIn i).aIdx = (s.coreIn i).mIdx := by
  have hx : (i.access.addr.setWidth (IDX + 4)).extractLsb' 4 IDX = i.access.addr.extractLsb' 4 IDX := by
    apply BitVec.eq_of_getLsbD_eq
    intro j hj
    simp [hj, show 4 + j < IDX + 4 by omega]
  rw [← ha.addrNext hv hl] at hx
  exact hx

/-- An access that misses is the one presented, and stays so. -/
theorem of_missed (ha : s.Admits i) (hm : s.dcache.coreInst.missed (s.coreIn i) = true) :
    i.valid = true ∧ i.last = false ∧ Tcm.inRange K i.access.addr = false := by
  simp only [DcacheBram.Regs.missed, coreIn_cpuReqValid, Bool.and_eq_true, Bool.not_eq_true'] at hm
  obtain ⟨⟨⟨-, hv, ht⟩, hhit⟩, -⟩ := hm
  refine ⟨hv, ?_, ht⟩
  by_contra hl
  have hr := ha.last hv (by simpa using hl)
  simp [cpuReady_eq, DcacheBram.Regs.cpuReady, ht, hhit] at hr

theorem Inv.cache_next (hn : IDX ≤ 28) (hK : K ≤ 28) (h : Inv s) (ha : s.Admits i) :
    ∃ cm, (s.next i).dcache.coreInst.Inv (s.next i).lower cm ∧
      ∀ a, Tcm.inRange K a = false → cm a = (s.next i).mem a := by
  obtain ⟨cm, hcm, hmem⟩ := h.cache
  refine ⟨_, DcacheBram.inv_next (i := s.coreIn i) hn hcm ?_ ?_ ha.line, fun a hna => ?_⟩
  · intro hm _
    obtain ⟨hv, hl, -⟩ := of_missed ha hm
    exact aIdx_eq_mIdx ha hv hl
  · intro hst
    obtain ⟨r, hr, hx⟩ := h.cap hst
    obtain rfl := (ha.held r hr).2
    exact hx
  · rw [h.mem_next ha, DcacheBram.Regs.memNext]
    cases hw : s.dcache.coreInst.wrHit (s.coreIn i) with
    | true =>
      have hwr := hw
      simp only [DcacheBram.Regs.wrHit, coreIn_cpuReqValid, coreIn_cpuReqWrite, Bool.and_eq_true,
        Bool.not_eq_true'] at hwr
      obtain ⟨⟨⟨-, hv, ht⟩, hwrite⟩, -⟩ := hwr
      have hk : s.takes i = true := by simp [Sys.takes, hv, hwrite, ht, hw]
      rw [hk, if_pos rfl, if_pos rfl, ← i.access.apply_congr (hmem a hna),
        apply_eq_store (ha.aligned hv) hwrite]
      rfl
    | false =>
      rw [if_neg Bool.false_ne_true, hmem a hna]
      split
      next hk =>
        -- A store to the TCM.
        simp only [Sys.takes, hw, Bool.and_eq_true] at hk
        obtain ⟨⟨hv, hwrite⟩, hk⟩ := hk
        have ht : Tcm.inRange K i.access.addr = true := by
          by_contra ht
          simp [ht] at hk
        exact (apply_of_inRange_ne hK (ha.aligned hv) hwrite (by simp [hna, ht]) _).symm
      next => rfl

/-- What the TCM is asked to store is what is taken from a store to it. -/
theorem takes_of_inRange (ht : Tcm.inRange K i.access.addr = true) :
    s.takes i = (s.dcache.tcmReqValid K (s.dcacheIn i) && i.access.write) := by
  simp only [Sys.takes, ht, if_true, tcmReqValid_eq]
  cases i.valid <;> cases i.access.write <;> simp

theorem Inv.tcm_next (hK : K ≤ 28) (h : Inv s) (ha : s.Admits i) (a : Word)
    (hr : Tcm.inRange K a = true) : (s.next i).tcm.byteAt a = (s.next i).mem a := by
  rw [h.mem_next ha]
  refine (Tcm.byteAt_next hK hr).trans ?_
  by_cases ht : Tcm.inRange K i.access.addr = true
  · have hgo : ((s.tcmIn i).dReq && Tcm.inRange K (s.tcmIn i).dAddr && (s.tcmIn i).dWe) = s.takes i := by
      simp [takes_of_inRange ht, Sys.tcmIn, ht]
    rw [hgo]
    split
    next hk =>
      simp only [Sys.takes, Bool.and_eq_true] at hk
      rw [← i.access.apply_congr (h.tcm a hr), apply_eq_store (ha.aligned hk.1.1) hk.1.2]
      rfl
    next => exact h.tcm a hr
  · have hgo : ((s.tcmIn i).dReq && Tcm.inRange K (s.tcmIn i).dAddr && (s.tcmIn i).dWe) = false := by
      simp [Sys.tcmIn, ht]
    rw [hgo, if_neg Bool.false_ne_true, h.tcm a hr]
    split
    next hk =>
      simp only [Sys.takes, Bool.and_eq_true] at hk
      exact (apply_of_inRange_ne hK (ha.aligned hk.1.1) hk.1.2 (by simp [hr, ht]) _).symm
    next => rfl

/-- A request to the TCM is answered on the next cycle, and is held until then. -/
theorem Inv.held_next (h : Inv s) (ha : s.Admits i)
    (hq : s.dcache.tcmReqValid K (s.dcacheIn i) = true) :
    i.valid = true ∧ i.last = false ∧ Tcm.inRange K i.access.addr = true := by
  simp only [tcmReqValid_eq, h.pending, Bool.and_eq_true, Bool.not_eq_true'] at hq
  obtain ⟨⟨hv, ht⟩, hd⟩ := hq
  refine ⟨hv, ?_, ht⟩
  by_contra hl
  have hr := ha.last hv (by simpa using hl)
  simp [cpuReady_eq, ht, hd] at hr

/-- An edge keeps the invariant. -/
theorem Inv.next (hn : IDX ≤ 28) (hK : K ≤ 28) (h : Inv s) (ha : s.Admits i) : Inv (s.next i) where
  cache := h.cache_next hn hK ha
  tcm := h.tcm_next hK ha
  pending := by
    -- The TCM answers one cycle after every access in its window.
    have hd : (s.next i).tcm.dReady = s.dcache.tcmReqValid K (s.dcacheIn i) := by
      simp only [Sys.next, Tcm.Regs.next, Sys.tcmIn, tcmReqValid_eq]
      cases Tcm.inRange K i.access.addr <;> simp
    rw [hd]
    simp only [Sys.next, Dcache.Regs.next, h.pending]
    cases s.dcache.tcmReqValid K (s.dcacheIn i) with
    | true => rfl
    | false => cases hr : s.tcm.dReady <;> simp [Sys.dcacheIn, hr]
  taken := by
    intro ht
    simp only [Sys.next, Bool.and_eq_true, Bool.not_eq_true', Bool.or_eq_true] at ht
    obtain ⟨⟨hv, hl⟩, ht⟩ := ht
    refine ⟨i.access, by simp [Sys.next, hv, hl], ?_⟩
    -- Taken before and held by the pipeline, or taken on this very cycle.
    rcases ht with ht | hk
    · obtain ⟨r, hr, hw⟩ := h.taken ht
      rw [(ha.held r hr).2]
      exact hw
    · simp only [Sys.takes, Bool.and_eq_true] at hk
      exact hk.1.2
  answer := by
    intro hd
    have hq : s.dcache.tcmReqValid K (s.dcacheIn i) = true := by
      simp only [Sys.next, Tcm.Regs.next, Sys.tcmIn, Bool.and_eq_true] at hd
      exact hd.1
    obtain ⟨hv, hl, ht⟩ := h.held_next ha hq
    refine ⟨i.access, by simp [Sys.next, hv, hl], ht, fun hw => ?_, fun hw => ?_⟩
    · simp [Sys.next, hv, hl, takes_of_inRange ht, hq, hw]
    · simp [Sys.next, Tcm.Regs.next, Tcm.Regs.dRdata, Tcm.Regs.wordAt, Sys.tcmIn, hq, ht, hw]
  cap := by
    intro hst
    have hm := DcacheBram.missed_of_cap hst
    obtain ⟨hv, hl, -⟩ := of_missed ha hm
    refine ⟨i.access, by simp [Sys.next, hv, hl], ?_⟩
    simp only [Sys.next, Dcache.Regs.next, DcacheBram.Regs.next, DcacheBram.Regs.edge]
    rw [if_pos hm]
    rfl

theorem inv_of_isReset (h : s.IsReset) : Inv s := by
  obtain ⟨⟨hc, hp⟩, ⟨-, -, -, -, -, -, hd⟩, hdone, hh, ht⟩ := h
  have hmem : s.mem = fun a => if Tcm.inRange K a then s.tcm.byteAt a else s.lower a := by
    rw [Sys.mem, hh, hdone]
  refine ⟨⟨s.lower, DcacheBram.inv_of_isReset hc, fun a ha => ?_⟩, fun a ha => ?_, ?_, ?_, ?_, ?_⟩
  · simp [hmem, ha]
  · simp [hmem, ha]
  · rw [hp, hd]
  · simp [ht]
  · simp [hd]
  · simp [hc.1]

theorem inv_of_reachable (hn : IDX ≤ 28) (hK : K ≤ 28) (h : (path IDX K).Reachable s) : Inv s := by
  refine h.invariant ?_ ?_
  · exact fun s hs => inv_of_isReset hs
  · exact fun s i hs ha => hs.next hn hK ha

/-! ## The flat memory -/

/-- An acknowledged load finds the word that the stores before it left. -/
theorem Inv.cpuRdata_eq (hn : IDX ≤ 28) (hK : K ≤ 28) (h : Inv s) (ha : s.Admits i)
    (hr : s.cpuReady i = true)
    (hw : i.access.write = false) : s.dcache.cpuRdata K (s.dcacheIn i) = s.done.word i.access.addr := by
  rw [← h.mem_eq_done ha hw]
  cases ht : Tcm.inRange K i.access.addr with
  | true =>
    have hd : s.tcm.dReady = true := by simpa [cpuReady_eq, ht] using hr
    obtain ⟨r, hmem, -, -, hdata⟩ := h.answer hd
    obtain rfl := (ha.held r hmem).2
    rw [← Tcm.wordAt_eq hK ht h.tcm, ← hdata hw]
    simp [Dcache.Regs.cpuRdata, Dcache.Inputs.cpuAddrIsTcm, Sys.dcacheIn, ht]
  | false =>
    obtain ⟨cm, hcm, hmem⟩ := h.cache
    have hrdy : s.dcache.coreInst.cpuReady (s.coreIn i) = true := by
      simpa [cpuReady_eq, ht] using hr
    have hdat : s.dcache.cpuRdata K (s.dcacheIn i) = s.dcache.coreInst.cpuRdata (s.coreIn i) := by
      simp [Dcache.Regs.cpuRdata, Dcache.Inputs.cpuAddrIsTcm, Sys.coreIn, Sys.dcacheIn, ht]
    rw [hdat, hcm.cpuRdata_eq hn hrdy]
    -- The bytes of the word are all outside the TCM.
    apply word_ext
    intro b
    rw [Mem.byteOf_word, Mem.byteOf_word]
    refine hmem _ ?_
    rw [← ht]
    exact Tcm.inRange_congr hK BitVec.extractLsb'_append_eq_left

/-- An acknowledged load returns what it would from the stores before it. -/
theorem Inv.loadData_eq (hn : IDX ≤ 28) (hK : K ≤ 28) (h : Inv s) (ha : s.Admits i)
    (hv : i.valid = true) (hr : s.cpuReady i = true) (hw : i.access.write = false) :
    s.loadData i = i.access.value s.done := by
  rw [Sys.loadData, h.cpuRdata_eq hn hK ha hr hw, Mem.partialLoad_word _ (ha.aligned hv), Access.value]

/-- Once the valid bits are cleared, the memory held is the abstract one. -/
theorem Inv.flat_eq (h : Inv s) (hst : s.dcache.coreInst.state ≠ .S_INIT) : s.flat = s.mem := by
  funext a
  cases ht : Tcm.inRange K a with
  | true => simp [Sys.flat, ht, h.tcm a ht]
  | false =>
    obtain ⟨cm, hcm, hmem⟩ := h.cache
    simp [Sys.flat, ht, hcm.overlay_eq hst, hmem a ht]

/-- The path is a flat memory: a load returns, on its last cycle, the value of the
    stores before it, and in `S_IDLE` the memory held is the abstract one. -/
theorem flat_of_reachable (hn : IDX ≤ 28) (hK : K ≤ 28) (h : (path IDX K).Reachable s) :
    (∀ i, (path IDX K).admits s i → i.valid = true → i.last = true → i.access.write = false →
        s.loadData i = i.access.value s.done) ∧
      (s.dcache.coreInst.state = .S_IDLE → s.flat = s.mem) := by
  have hi := inv_of_reachable hn hK h
  refine ⟨fun i ha hv hl hw => hi.loadData_eq hn hK ha hv (ha.last hv hl) hw, fun hst => ?_⟩
  funext a
  cases ht : Tcm.inRange K a with
  | true => simp [Sys.flat, ht, hi.tcm a ht]
  | false =>
    obtain ⟨cm, hcm, hmem⟩ := hi.cache
    simp [Sys.flat, ht, hcm.overlay_eq (by simp [hst]), hmem a ht]

/-! ## A byte stored on each side of the boundary -/

instance (s : Sys IDX K) (i : Inputs IDX) : Decidable ((path IDX K).admits s i) :=
  decidable_of_iff
    ((s.held = none ∨ i.valid = true ∧ s.held = some i.access) ∧
      (i.valid = true → i.last = true → s.cpuReady i = true) ∧
      (i.valid = true → Aligned i.access.inst i.access.addr) ∧
      (i.valid = true → i.last = false → i.addrNext = i.access.addr.setWidth (IDX + 4)) ∧
      (s.dcache.coreInst.fillEn (s.coreIn i) = true →
        i.memRline = s.lower.line s.dcache.coreInst.memReqAddr))
    ⟨fun ⟨h₁, h₂, h₃, h₄, h₅⟩ => ⟨fun r hr => by simp_all, h₂, h₃, h₄, h₅⟩,
      fun ⟨h₁, h₂, h₃, h₄, h₅⟩ => ⟨by
        rcases hh : s.held with _ | r
        · exact .inl rfl
        · exact .inr ⟨(h₁ r hh).1, by rw [(h₁ r hh).2]⟩, h₂, h₃, h₄, h₅⟩⟩

/-- A reset over memories of zeros. -/
def resetSys (IDX K : ℕ) : Sys IDX K where
  dcache := ⟨⟨fun _ _ => 0, fun _ => ⟨false, 0⟩, fun _ => false, .S_INIT, 0, 0, 0, 0, 0, fun _ => 0,
    ⟨false, 0⟩, 0, false, 0, 0, 0⟩, false⟩
  tcm := ⟨fun _ => 0, fun _ => 0, 0, 0, false, false, 0, 0, false⟩
  lower _ := 0
  done _ := 0
  held := none
  taken := false

theorem isReset_resetSys (IDX K : ℕ) : (resetSys IDX K).IsReset := by
  refine ⟨⟨⟨rfl, rfl, rfl, rfl, rfl⟩, rfl⟩, ⟨rfl, rfl, rfl, rfl, rfl, rfl, rfl⟩, ?_, rfl, rfl⟩
  have hz : ∀ b : BitVec 2, byteOf 0 b = 0 := by decide
  funext a
  simp [resetSys, Tcm.Regs.byteAt, Tcm.Regs.wordAt, ← hz (byteNo a)]

/-- `sb` of `0xAB` to `0x11`, which misses (cycles 3 to 7), `sb` of `0xCD` to the TCM
    (8 and 9), and `lb` of `0x11`, which hits (10). -/
def twoBytes (n : ℕ) : Inputs 1 :=
  if n < 3 then ⟨false, ⟨false, 0, 0, 0⟩, false, 0x11, 0, true, false, 0⟩
  else if n < 8 then ⟨true, ⟨true, 0x00000023, 0x11, 0xAB⟩, n == 7, 0x11, 0, true, false, 0⟩
  else if n < 10 then
    ⟨true, ⟨true, 0x00000023, 0x40000001, 0xCD⟩, n == 9, if n = 9 then 0x11 else 0x01,
      0, true, false, 0⟩
  else ⟨true, ⟨false, 0x00000003, 0x11, 0⟩, true, 0, 0, true, false, 0⟩

/-- The load returns the byte stored, sign-extended, and the memory held is the one
    that both stores make of the initial one. -/
theorem flat_twoBytes :
    ((path 1 1).trace (resetSys 1 1) twoBytes 10).loadData (twoBytes 10) = 0xFFFFFFAB ∧
      ((path 1 1).trace (resetSys 1 1) twoBytes 10).flat =
        ((path 1 1).trace (resetSys 1 1) twoBytes 10).mem := by
  have hr : (path 1 1).Reachable ((path 1 1).trace (resetSys 1 1) twoBytes 10) :=
    Circuit.reachable_trace (isReset_resetSys 1 1) (by decide +kernel)
  have h := flat_of_reachable (by decide) (by decide) hr
  refine ⟨?_, h.2 (by decide +kernel)⟩
  rw [h.1 (twoBytes 10) (by decide +kernel) rfl rfl rfl]
  decide +kernel

end DataPath

end Rv32Soc
