import Rv32Soc.Cache.DcacheSpeculation

/-!
# Reads of the data cache that collide with writes

The data cache on arrays whose read-during-write behaviour is undefined: a read
of an entry that the same edge writes, with any byte enabled, returns a word of
an adversary's choice (`Regs.collidingReads`). Two copies of the cache run side
by side on the same requests, each with its own adversary and its own line
memory.

The bypass replaces, byte by byte, what the store of the previous cycle wrote.
An adversary owns the *whole* word, also the bytes the store did not write: a
load of a word right after a store to part of it returns them
(`byte_store_word_load`). A load never does so otherwise, and then the copies
cannot be told apart (`sameOutputs_of_reachable`): the other collisions, those of
the sweep and of a refill, are overwritten by the read of `S_RECHECK`.
-/

namespace Rv32Soc

namespace DcacheBram

variable {IDX : ℕ}

/-- The inputs, and what the adversary returns for the colliding reads. -/
structure RdwInputs (IDX : ℕ) where
  port : Inputs IDX
  adversary : Reads IDX

/-- The cache and its line memory, with the request to be held. -/
structure RdwSys (IDX : ℕ) where
  cache : Regs IDX
  lower : Mem
  held : Option Request

namespace RdwSys

variable (s : RdwSys IDX) (i : Inputs IDX)

/-- The ports: a refill delivers the line of the line memory. -/
def port : Inputs IDX := { i with memRline := s.lower.line s.cache.memReqAddr }

/-- The pipeline protocol: a request is held until it is acknowledged, and while
    it is not, the arrays are read at its own index. -/
def Admits : Prop :=
  (s.held = none ∨ i.request = s.held) ∧
    (i.cpuReqValid = true → s.cache.cpuReady i = false →
      i.cpuReqAddrNext = i.cpuReqAddr.extractLsb' 0 (IDX + 4))

instance : Decidable (s.Admits i) := inferInstanceAs (Decidable (_ ∧ _))

/-- A load of the word that the store of the previous cycle wrote a part of. -/
def PartialBypass : Prop :=
  i.cpuReqValid = true ∧ i.cpuReqWrite = false ∧ s.cache.hit i = true ∧ s.cache.bypV = true ∧
    s.cache.bypWord = i.mBank ∧ s.cache.bypBe ≠ 0 ∧ s.cache.bypBe ≠ 0xF

instance : Decidable (s.PartialBypass i) := inferInstanceAs (Decidable (_ ∧ _))

/-- The registers after an edge on which the adversary returned `r`. -/
def next (r : Reads IDX) : RdwSys IDX where
  cache := s.cache.edge (s.port i) (s.cache.collidingReads (s.port i) r)
  lower := s.cache.lowerNext i s.lower
  held := if s.cache.cpuReady i then none else i.request

end RdwSys

/-- The cache over colliding reads. -/
def colliding (IDX : ℕ) : Circuit (RdwSys IDX) (RdwInputs IDX) where
  init := {s | s.cache.IsReset ∧ s.held = none}
  admits s i := s.Admits i.port
  next s i := s.next i.port i.adversary

/-- The cache over colliding reads, when no load hits a word right after a store
    to part of it. -/
def collidingWhole (IDX : ℕ) : Circuit (RdwSys IDX) (RdwInputs IDX) where
  init := {s | s.cache.IsReset ∧ s.held = none}
  admits s i := s.Admits i.port ∧ ¬s.PartialBypass i.port
  next s i := s.next i.port i.adversary

/-- The inputs of two copies: the same ports, and an adversary for each. -/
abbrev PairInputs (IDX : ℕ) := Inputs IDX × Reads IDX × Reads IDX

def PairInputs.fst (j : PairInputs IDX) : RdwInputs IDX := ⟨j.1, j.2.1⟩
def PairInputs.snd (j : PairInputs IDX) : RdwInputs IDX := ⟨j.1, j.2.2⟩

/-- Two copies on the same ports, with an adversary each. -/
abbrev twoCopies (c : Circuit (RdwSys IDX) (RdwInputs IDX)) :
    Circuit (RdwSys IDX × RdwSys IDX) (PairInputs IDX) :=
  c.lockstep PairInputs.fst PairInputs.snd

/-- What the CPU and the line memory see of two copies on the same ports: the same
    acknowledgements, load data and write-backs. -/
structure SameOutputs (p : RdwSys IDX × RdwSys IDX) (i : Inputs IDX) : Prop where
  ready : p.2.cache.cpuReady i = p.1.cache.cpuReady i
  load : p.1.cache.cpuReady i = true → i.cpuReqWrite = false →
    p.2.cache.cpuRdata i = p.1.cache.cpuRdata i
  writeBack : p.2.cache.memReqWrite = p.1.cache.memReqWrite ∧ (p.1.cache.memReqWrite = true →
    p.2.cache.memReqAddr = p.1.cache.memReqAddr ∧ p.2.cache.memWline = p.1.cache.memWline)

/-! ## The copies differ in colliding reads only -/

/-- Two caches that differ at most in output registers nobody will use: while
    idle, in the bank the bypass covers; outside `S_IDLE` and `S_CAP`, in all. -/
structure Agree (s t : Regs IDX) : Prop where
  same : t = { s with q := t.q, qTagv := t.qTagv }
  tagv : s.state = .S_IDLE ∨ s.state = .S_CAP → t.qTagv = s.qTagv
  cap : s.state = .S_CAP → t.q = s.q
  idle : s.state = .S_IDLE → ∀ k, t.q k = s.q k ∨ s.bypV = true ∧ s.bypWord = k ∧ s.bypBe ≠ 0

variable {s t : Regs IDX} {i : Inputs IDX}

theorem Agree.state_eq (h : Agree s t) : t.state = s.state := by rw [h.same]

theorem Agree.hit_eq (h : Agree s t) (hst : s.state = .S_IDLE ∨ s.state = .S_CAP) :
    t.hit i = s.hit i := by
  rw [Regs.hit, Regs.hit, h.tagv hst, Regs.specOk, Regs.specOk]
  rw [h.same]

theorem Agree.cpuReady_eq (h : Agree s t) : t.cpuReady i = s.cpuReady i := by
  rw [Regs.cpuReady, Regs.cpuReady, h.state_eq]
  by_cases hst : s.state = .S_IDLE
  · rw [h.hit_eq (.inl hst)]
  · simp [beq_eq_false_iff_ne.2 hst]

theorem Agree.wrHit_eq (h : Agree s t) : t.wrHit i = s.wrHit i := by
  rw [Regs.wrHit, Regs.wrHit, h.state_eq]
  by_cases hst : s.state = .S_IDLE
  · rw [h.hit_eq (.inl hst)]
  · simp [beq_eq_false_iff_ne.2 hst]

theorem Agree.missed_eq (h : Agree s t) : t.missed i = s.missed i := by
  have hsp : t.specOk i = s.specOk i := by rw [h.same]; rfl
  rw [Regs.missed, Regs.missed, h.state_eq, hsp]
  by_cases hst : s.state = .S_IDLE
  · rw [h.hit_eq (.inl hst)]
  · simp [beq_eq_false_iff_ne.2 hst]

theorem Agree.nextState_eq (h : Agree s t) : t.nextState i = s.nextState i := by
  have hsp : t.specOk i = s.specOk i := by rw [h.same]; rfl
  have hcnt : t.sweepCnt = s.sweepCnt := by rw [h.same]
  have hdirty : t.dirty = s.dirty := by rw [h.same]
  rw [Regs.nextState, Regs.nextState, h.state_eq, hsp, hcnt]
  cases hst : s.state with
  | S_IDLE => rw [h.hit_eq (.inl hst)]
  | S_CAP => rw [Regs.wbNeeded, Regs.wbNeeded, h.tagv (.inr hst), hdirty]
  | _ => rfl

/-- The edge of two caches that agree differs in what the reads returned only. -/
theorem Agree.edge_eq (h : Agree s t) (r r' : Reads IDX) :
    t.edge i r' = { s.edge i r with q := r'.q, qTagv := r'.qTagv } := by
  have hw := h.wrHit_eq (i := i)
  have hf : t.fillEn i = s.fillEn i := by rw [h.same]; rfl
  have hbe : t.be i = s.be i := by funext k; rw [Regs.be, Regs.be, hf, hw]
  have hcap : (if s.state == .S_CAP then t.qTagv.tag else s.wbTag) =
      if s.state == .S_CAP then s.qTagv.tag else s.wbTag := by
    split
    next hst => rw [h.tagv (.inr (by simpa using hst))]
    next => rfl
  have hline : (if s.state == .S_CAP then lineOfWords t.q else s.wbLine) =
      if s.state == .S_CAP then lineOfWords s.q else s.wbLine := by
    split
    next hst => rw [h.cap (by simpa using hst)]
    next => rfl
  simp only [Regs.edge, h.nextState_eq, h.missed_eq, hw, hbe, hf]
  rw [h.same]
  simp only [Regs.mk.injEq, true_and, and_true]
  exact ⟨rfl, rfl, hcap, hline⟩

theorem Agree.collidingReads_eq (h : Agree s t) (r : Reads IDX) :
    t.collidingReads i r = s.collidingReads i r := by
  have hf : t.fillEn i = s.fillEn i := by rw [h.same]; rfl
  have hbe : t.be i = s.be i := by
    funext k; rw [Regs.be, Regs.be, hf, h.wrHit_eq]
  rw [Regs.collidingReads, Regs.collidingReads, hbe, h.same]
  rfl

/-- The reads that `S_IDLE` and `S_CAP` use are not of an entry being written, but
    for the bank the store of that edge wrote. -/
theorem quiet_of_nextState (h : s.nextState i = .S_IDLE ∨ s.nextState i = .S_CAP) :
    s.fillEn i = false ∧ s.initEn = false := by
  unfold Regs.nextState at h
  unfold Regs.fillEn Regs.initEn
  cases hst : s.state <;> simp_all <;> grind

/-- Two caches that agree still do after an edge, whatever their adversaries return. -/
theorem Agree.next (h : Agree s t) (r r' : Reads IDX) :
    Agree (s.edge i (s.collidingReads i r)) (t.edge i (t.collidingReads i r')) := by
  rw [h.collidingReads_eq, h.edge_eq (s.collidingReads i r)]
  refine ⟨rfl, fun hst => ?_, fun hst => ?_, fun hst k => ?_⟩
  · obtain ⟨hf, hi⟩ := quiet_of_nextState hst
    simp [Regs.edge, Regs.collidingReads, Regs.tagvWe, hf, hi]
  · obtain ⟨hf, -⟩ := quiet_of_nextState (.inr hst)
    have hw : s.wrHit i = false := by
      simp only [Regs.edge, Regs.nextState] at hst
      unfold Regs.wrHit
      cases hs : s.state <;> simp_all
      grind
    funext k
    simp [Regs.edge, Regs.collidingReads, Regs.be, hf, hw]
  · obtain ⟨hf, -⟩ := quiet_of_nextState (.inl hst)
    by_cases hc : s.be i k ≠ 0 ∧ s.waddr i = i.aIdx
    · -- The store of this edge wrote the bank: the bypass will cover it.
      right
      obtain ⟨hbe, hx⟩ := hc
      simp only [Regs.be, hf, Bool.false_eq_true, if_false] at hbe
      simp only [Regs.waddr, hf, Bool.false_eq_true, if_false] at hx
      split at hbe
      next hk =>
        simp only [Bool.and_eq_true, beq_iff_eq] at hk
        exact ⟨by simp [Regs.edge, hk.1, hf, hx], hk.2, hbe⟩
      next => exact absurd rfl hbe
    · left
      simp only [Regs.edge, Regs.collidingReads, if_neg hc]

/-! ## Independence of the adversary -/

/-- The two copies agree, above the same line memory. -/
def AgreeSys (p : RdwSys IDX × RdwSys IDX) : Prop :=
  Agree p.1.cache p.2.cache ∧ p.2.lower = p.1.lower ∧ p.2.held = p.1.held

theorem agreeSys_of_reachable {p : RdwSys IDX × RdwSys IDX}
    (h : (twoCopies (collidingWhole IDX)).Reachable p) :
    AgreeSys p := by
  refine h.invariant ?_ ?_
  · rintro ⟨s, t⟩ ⟨-, rfl : t = s⟩
    exact ⟨⟨rfl, fun _ => rfl, fun _ => rfl, fun _ _ => .inl rfl⟩, rfl, rfl⟩
  · rintro ⟨s, t⟩ ⟨i, r, r'⟩ ⟨ha, hl, hh⟩ -
    have haddr : t.cache.memReqAddr = s.cache.memReqAddr := by rw [ha.same]; rfl
    have hport : t.port i = s.port i := by rw [RdwSys.port, RdwSys.port, hl, haddr]
    refine ⟨?_, ?_, ?_⟩
    · show Agree (s.next i r).cache (t.next i r').cache
      rw [RdwSys.next, RdwSys.next, hport]
      exact ha.next r r'
    · have hlow : t.cache.lowerNext i s.lower = s.cache.lowerNext i s.lower := by
        rw [ha.same]; rfl
      exact (congrArg (t.cache.lowerNext i) hl).trans hlow
    · show (if t.cache.cpuReady i then none else i.request) = _
      rw [ha.cpuReady_eq]
      rfl

/-- When no load hits a word right after a store to part of it, two copies of the
    cache cannot be told apart, whatever the colliding reads return. -/
theorem sameOutputs_of_reachable {p : RdwSys IDX × RdwSys IDX} {j : PairInputs IDX}
    (h : (twoCopies (collidingWhole IDX)).Reachable p)
    (hj : (twoCopies (collidingWhole IDX)).admits p j) :
    SameOutputs p j.1 := by
  obtain ⟨ha, -, -⟩ := agreeSys_of_reachable h
  obtain ⟨i, r, r'⟩ := j
  have hi : ¬p.1.PartialBypass i := hj.2
  refine ⟨ha.cpuReady_eq, fun hr hw => ?_, ?_, fun _ => ⟨?_, ?_⟩⟩
  · simp only [Regs.cpuReady, Bool.and_eq_true, beq_iff_eq] at hr
    obtain ⟨⟨hst, hv⟩, hhit⟩ := hr
    have hbyp : p.2.cache.bypUse i = p.1.cache.bypUse i := by rw [ha.same]; rfl
    have hbe : p.2.cache.bypBe = p.1.cache.bypBe := by rw [ha.same]
    have hdata : p.2.cache.bypData = p.1.cache.bypData := by rw [ha.same]
    rw [Regs.cpuRdata, Regs.cpuRdata, hbyp, hbe, hdata]
    rcases ha.idle hst i.mBank with hq | ⟨hb, hk, hne⟩
    · rw [hq]
    · -- The bank may differ, but then the bypass replaces all of its bytes.
      have hfull : p.1.cache.bypBe = 0xF := by
        by_contra hnf
        exact hi ⟨hv, hw, hhit, hb, hk, hne, hnf⟩
      simp [Regs.bypUse, hb, hk, hfull]
  · rw [ha.same]; rfl
  · rw [ha.same]; rfl
  · rw [ha.same]; rfl

/-! ## A load right after a store to its word -/

instance (p : RdwSys IDX × RdwSys IDX) (j : PairInputs IDX) :
    Decidable ((twoCopies (colliding IDX)).admits p j) :=
  inferInstanceAs (Decidable (p.1.Admits j.1))

instance (p : RdwSys IDX × RdwSys IDX) (j : PairInputs IDX) :
    Decidable ((twoCopies (collidingWhole IDX)).admits p j) :=
  inferInstanceAs (Decidable (p.1.Admits j.1 ∧ ¬p.1.PartialBypass j.1))

/-- A word is stored to under the mask `be` (cycles 3 to 7) and loaded on cycle 8.
    One adversary returns zeros, the other ones. -/
def storeLoadRun (be : BitVec 4) (n : ℕ) : PairInputs 1 :=
  (if n < 3 then ⟨false, false, 0, 0, 0, 0, 0, true⟩
    else if n < 8 then ⟨true, true, 0x00, 0, 0x000000AA, be, 0, true⟩
    else ⟨true, false, 0x00, 0, 0, 0, 0, true⟩,
   ⟨fun _ => 0, ⟨false, 0⟩⟩, ⟨fun _ => 0xFFFFFFFF, ⟨false, 0⟩⟩)

/-- Two copies out of a reset over a line memory of zeros. -/
def resetPair (IDX : ℕ) : RdwSys IDX × RdwSys IDX :=
  (⟨resetRegs IDX, fun _ => 0, none⟩, ⟨resetRegs IDX, fun _ => 0, none⟩)

theorem isReset_resetPair :
    ((resetPair IDX).1.cache.IsReset ∧ (resetPair IDX).1.held = none) ∧
      (resetPair IDX).2 = (resetPair IDX).1 :=
  ⟨⟨⟨rfl, rfl, rfl, rfl, rfl⟩, rfl⟩, rfl⟩

/-- After a byte store, the load of its word returns the bytes the store did not
    write as the adversary wants them. -/
theorem byte_store_word_load : ∃ p j,
    (twoCopies (colliding 1)).Reachable p ∧ (twoCopies (colliding 1)).admits p j ∧
    p.1.cache.cpuReady j.1 = true ∧ j.1.cpuReqWrite = false ∧
    p.2.cache.cpuRdata j.1 ≠ p.1.cache.cpuRdata j.1 :=
  ⟨(twoCopies (colliding 1)).trace (resetPair 1) (storeLoadRun 0x1) 8, storeLoadRun 0x1 8,
    Circuit.reachable_trace isReset_resetPair (by decide +kernel),
    by decide +kernel, by decide +kernel, by decide +kernel, by decide +kernel⟩

/-- After a word store, it does not. -/
theorem word_store_word_load :
    SameOutputs ((twoCopies (collidingWhole 1)).trace (resetPair 1) (storeLoadRun 0xF) 8)
      (storeLoadRun 0xF 8).1 :=
  sameOutputs_of_reachable (Circuit.reachable_trace isReset_resetPair (by decide +kernel))
    (by decide +kernel)

end DcacheBram

end Rv32Soc
