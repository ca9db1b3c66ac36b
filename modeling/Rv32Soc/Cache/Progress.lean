import Rv32Soc.Cache.DcacheCoherence
import Rv32Soc.Cache.IcacheFetch
import Rv32Soc.Lib.LeadsTo

/-!
# The caches answer

A request that is held is acknowledged, and goes on being acknowledged, if the line memory answers what
it is asked: after a reset the valid bits are cleared, what was under way is finished, and what
misses is filled. Nothing that is filled for a request is displaced by it again: an access
is of one line, and the two lines of a fetch are of different sets.
-/

namespace Rv32Soc

/-- A counter that is not at its end counts on. -/
theorem toNat_add_one_of_ne {w : ℕ} {x : BitVec w} (h : x ≠ BitVec.allOnes w) :
    (x + 1).toNat = x.toNat + 1 := by
  have hne : x.toNat ≠ 2 ^ w - 1 := fun hx =>
    h (BitVec.eq_of_toNat_eq (hx.trans (BitVec.toNat_allOnes).symm))
  have hlt := x.isLt
  have hone : (1 : BitVec w).toNat = 1 % 2 ^ w := BitVec.toNat_ofNat 1 w
  rw [BitVec.toNat_add, hone, Nat.add_mod_mod, Nat.mod_eq_of_lt (by omega)]

/-! ## The data cache -/

namespace DcacheBram

variable {IDX : ℕ} {ρ : ℕ → Regs IDX} {κ : ℕ → Inputs IDX} {a : Word}

/-- An access to `a` is held, and its own index is speculated. -/
structure Asked (a : Word) (ρ : ℕ → Regs IDX) (κ : ℕ → Inputs IDX) : Prop where
  next : ∀ n, ρ (n + 1) = (ρ n).next (κ n)
  valid : ∀ n, (κ n).cpuReqValid
  addr : ∀ n, (κ n).cpuReqAddr = a
  index : ∀ n, (κ n).aIdx = idxOf IDX a
  settled : ∀ n, (ρ n).state = .S_IDLE → (ρ n).qTagv = (ρ n).tagv (ρ n).qAIdx
  answered : ∀ n, (ρ n).memReqValid → ∃ m ≥ n, (κ m).memReady

/-- The miss that is under way is one of `a`. -/
def Misses (a : Word) (s : Regs IDX) : Prop := s.missIdx = idxOf IDX a ∧ s.missTag = tagOf IDX a

theorem fillEn_of_ne {s : Regs IDX} {i : Inputs IDX} (hst : s.state ≠ .S_FILL) : s.fillEn i = false := by
  rw [Regs.fillEn, beq_eq_false_iff_ne.2 hst, Bool.false_and]

namespace Asked

variable (h : Asked a ρ κ)

include h

theorem state_next (n : ℕ) : (ρ (n + 1)).state = (ρ n).nextState (κ n) := by
  rw [h.next n]
  rfl

theorem qAIdx_next (n : ℕ) : (ρ (n + 1)).qAIdx = idxOf IDX a := by
  rw [h.next n, ← h.index n]
  rfl

theorem specOk_iff (n : ℕ) : (ρ n).specOk (κ n) ↔ (ρ n).qAIdx = idxOf IDX a := by
  rw [Regs.specOk, Inputs.mIdx, h.addr n, beq_iff_eq]

/-- When nothing is under way. -/
theorem hit_iff {n : ℕ} (hst : (ρ n).state = .S_IDLE) :
    (ρ n).hit (κ n) ↔ (ρ n).Holds a ∧ (ρ n).qAIdx = idxOf IDX a := by
  rw [Regs.hit, Bool.and_eq_true, Bool.and_eq_true, h.specOk_iff, Inputs.mTag, h.addr n,
    beq_iff_eq, h.settled n hst]
  constructor
  · rintro ⟨ht, hx⟩
    rw [hx] at ht
    exact ⟨ht, hx⟩
  · rintro ⟨ht, hx⟩
    rw [hx]
    exact ⟨ht, rfl⟩

theorem ready_of_holds {n : ℕ} (hst : (ρ n).state = .S_IDLE) (hh : (ρ n).Holds a)
    (hx : (ρ n).qAIdx = idxOf IDX a) :
    (ρ n).cpuReady (κ n) := by
  rw [Regs.cpuReady, hst, h.valid n, (h.hit_iff hst).2 ⟨hh, hx⟩]
  rfl

/-- The tags change on a refill and after a reset only. -/
theorem holds_next {n : ℕ} (hf : (ρ n).fillEn (κ n) = false) (hi : (ρ n).state ≠ .S_INIT) :
    (ρ (n + 1)).Holds a ↔ (ρ n).Holds a := by
  have hi' : (ρ n).initEn = false := beq_eq_false_iff_ne.2 hi
  have ht : (ρ (n + 1)).tagv = (ρ n).tagv := by
    rw [h.next n]
    funext x
    simp [Regs.next, Regs.edge, Regs.tagvWe, hf, hi']
  rw [Regs.Holds, Regs.Holds, ht]

theorem misses_next {n : ℕ} (hst : (ρ n).state ≠ .S_IDLE) (hm : Misses a (ρ n)) :
    Misses a (ρ (n + 1)) := by
  have hno : (ρ n).missed (κ n) = false := by
    rw [Regs.missed, beq_eq_false_iff_ne.2 hst, Bool.false_and, Bool.false_and, Bool.false_and]
  rw [h.next n]
  simpa [Misses, Regs.next, Regs.edge, hno] using hm

/-- The line memory answers, and finds all as it was. -/
theorem line_answered {st : FsmState} (hst : st = .S_WB ∨ st = .S_FILL) {M : Regs IDX → Prop}
    (hM : ∀ n, (ρ n).state = st → M (ρ n) → M (ρ (n + 1))) :
    LeadsTo (fun n => (ρ n).state = st ∧ M (ρ n)) fun n => ((ρ n).state = st ∧ M (ρ n)) ∧
    (κ n).memReady := by
  refine .waits (fun n hn hr => ⟨?_, hM n hn.1 hn.2⟩) fun n hs => h.answered n ?_
  · rw [h.state_next, Regs.nextState]
    rcases hst with rfl | rfl <;> rw [hn.1] <;> exact if_neg hr
  · rw [Regs.memReqValid]
    rcases hst with rfl | rfl <;> rw [(hs n le_rfl).1] <;> rfl

/-! ### A miss of `a` -/

theorem recheck_holds : LeadsTo (fun n => (ρ n).state = .S_RECHECK ∧ (ρ n).Holds a) fun n =>
    (ρ n).cpuReady (κ n) := by
  refine .trans (Q := fun n => (ρ n).state = .S_IDLE ∧ (ρ n).Holds a ∧ (ρ n).qAIdx = idxOf IDX a)
    (.of_next fun n hn => ⟨?_, ?_, h.qAIdx_next n⟩) (.of_imp fun n hn =>
      h.ready_of_holds hn.1 hn.2.1 hn.2.2)
  · rw [h.state_next, Regs.nextState, hn.1]
  · exact (h.holds_next (fillEn_of_ne (by rw [hn.1]; decide)) (by rw [hn.1]; decide)).2 hn.2

/-- A refill puts the line of `a` in the cache. -/
theorem fill_misses : LeadsTo (fun n => (ρ n).state = .S_FILL ∧ Misses a (ρ n)) fun n =>
    (ρ n).cpuReady (κ n) := by
  refine ((h.line_answered (.inr rfl) fun n hst => h.misses_next (by rw [hst]; decide)).trans
    (.of_next fun n hn => ⟨?_, ?_⟩)).trans h.recheck_holds
  · rw [h.state_next, Regs.nextState, hn.1.1]
    exact if_pos hn.2
  · obtain ⟨⟨hst, hidx, htag⟩, hr⟩ := hn
    have hf : (ρ n).fillEn (κ n) := by rw [Regs.fillEn, hst, hr]; rfl
    have ht : (ρ (n + 1)).tagv (idxOf IDX a) = ⟨true, tagOf IDX a⟩ := by
      rw [h.next n]
      simp [Regs.next, Regs.edge, Regs.tagvWe, Regs.tagvWaddr, Regs.tagvWdata, Regs.initEn,
        hf, hst, hidx, htag]
    rw [Regs.Holds, ht]
    exact ⟨rfl, rfl⟩

theorem wb_misses : LeadsTo (fun n => (ρ n).state = .S_WB ∧ Misses a (ρ n)) fun n =>
    (ρ n).cpuReady (κ n) := by
  refine ((h.line_answered (.inl rfl) fun n hst => h.misses_next (by rw [hst]; decide)).trans
    (.of_next fun n hn => ⟨?_, h.misses_next (by rw [hn.1.1]; decide) hn.1.2⟩)).trans h.fill_misses
  rw [h.state_next, Regs.nextState, hn.1.1]
  exact if_pos hn.2

theorem cap_misses : LeadsTo (fun n => (ρ n).state = .S_CAP ∧ Misses a (ρ n)) fun n =>
    (ρ n).cpuReady (κ n) := by
  refine .trans (.of_next fun n hn => ?_) (h.wb_misses.or h.fill_misses)
  have hm := h.misses_next (by rw [hn.1]; decide) hn.2
  have hst := h.state_next n
  rw [Regs.nextState, hn.1] at hst
  dsimp only at hst
  split at hst
  · exact .inl ⟨hst, hm⟩
  · exact .inr ⟨hst, hm⟩

/-! ### Any state -/

theorem idle_spec : LeadsTo (fun n => (ρ n).state = .S_IDLE ∧ (ρ n).qAIdx = idxOf IDX a) fun n =>
    (ρ n).cpuReady (κ n) := by
  have hcases : LeadsTo (fun n => (ρ n).state = .S_IDLE ∧ (ρ n).qAIdx = idxOf IDX a) fun n =>
      (ρ n).cpuReady (κ n) ∨ (ρ n).state = .S_CAP ∧ Misses a (ρ n) := by
    rintro n ⟨hst, hx⟩
    cases hh : (ρ n).hit (κ n)
    · have hs : (ρ n).specOk (κ n) := (h.specOk_iff n).2 hx
      have hm : (ρ n).missed (κ n) := by rw [Regs.missed, hst, h.valid n, hh, hs]; rfl
      refine ⟨n + 1, n.le_succ, .inr ⟨?_, ?_, ?_⟩⟩
      · rw [h.state_next, Regs.nextState, hst, h.valid n, hh, hs]
        rfl
      · rw [h.next n]
        simp [Regs.next, Regs.edge, hm, Inputs.mIdx, h.addr n]
      · rw [h.next n]
        simp [Regs.next, Regs.edge, hm, Inputs.mTag, h.addr n]
    · exact ⟨n, le_rfl, .inl (h.ready_of_holds hst ((h.hit_iff hst).1 hh).1 hx)⟩
  exact hcases.trans (.or (.of_imp fun _ hn => hn) h.cap_misses)

theorem recheck : LeadsTo (fun n => (ρ n).state = .S_RECHECK) fun n => (ρ n).cpuReady (κ n) := by
  refine .trans (.of_next fun n hn => ⟨?_, h.qAIdx_next n⟩) h.idle_spec
  rw [h.state_next, Regs.nextState, hn]

theorem fill : LeadsTo (fun n => (ρ n).state = .S_FILL) fun n => (ρ n).cpuReady (κ n) := by
  have hwait := h.line_answered (.inr rfl) (M := fun _ => True) fun _ _ _ => trivial
  refine (LeadsTo.of_imp fun n hn => ⟨hn, trivial⟩).trans
    ((hwait.trans (.of_next fun n hn => ?_)).trans h.recheck)
  rw [h.state_next, Regs.nextState, hn.1.1]
  exact if_pos hn.2

theorem wb : LeadsTo (fun n => (ρ n).state = .S_WB) fun n => (ρ n).cpuReady (κ n) := by
  have hwait := h.line_answered (.inl rfl) (M := fun _ => True) fun _ _ _ => trivial
  refine (LeadsTo.of_imp fun n hn => ⟨hn, trivial⟩).trans
    ((hwait.trans (.of_next fun n hn => ?_)).trans h.fill)
  rw [h.state_next, Regs.nextState, hn.1.1]
  exact if_pos hn.2

theorem cap : LeadsTo (fun n => (ρ n).state = .S_CAP) fun n => (ρ n).cpuReady (κ n) := by
  refine .trans (.of_next fun n hn => ?_) (h.wb.or h.fill)
  have hst := h.state_next n
  rw [Regs.nextState, hn] at hst
  dsimp only at hst
  split at hst
  · exact .inl hst
  · exact .inr hst

theorem idle : LeadsTo (fun n => (ρ n).state = .S_IDLE) fun n => (ρ n).cpuReady (κ n) := by
  intro n hst
  by_cases hx : (ρ n).qAIdx = idxOf IDX a
  · exact h.idle_spec n ⟨hst, hx⟩
  · -- what was speculated is of another set
    have hs : (ρ n).specOk (κ n) = false := Bool.eq_false_iff.2 fun hs => hx ((h.specOk_iff n).1 hs)
    have hh : (ρ n).hit (κ n) = false := by rw [Regs.hit, hs, Bool.and_false]
    have hnext : (ρ (n + 1)).state = .S_RECHECK := by
      rw [h.state_next, Regs.nextState, hst, h.valid n, hh, hs]
      rfl
    obtain ⟨m, hm, hr⟩ := h.recheck (n + 1) hnext
    exact ⟨m, Nat.le_of_succ_le hm, hr⟩

/-- The sweep ends. -/
theorem sweep : LeadsTo (fun n => (ρ n).state = .S_INIT) fun n => (ρ n).state = .S_RECHECK := by
  refine .of_rank (fun n => 2 ^ IDX - (ρ n).sweepCnt.toNat) fun n hst => ⟨n + 1, n.le_succ, ?_⟩
  have hnext := h.state_next n
  rw [Regs.nextState, hst] at hnext
  dsimp only at hnext
  split at hnext
  · exact .inl hnext
  · next hc =>
    have hcnt : (ρ (n + 1)).sweepCnt = (ρ n).sweepCnt + 1 := by
      rw [h.next n]
      simp [Regs.next, Regs.edge, hst]
    have hlt := toNat_add_one_of_ne hc
    have := (ρ (n + 1)).sweepCnt.isLt
    refine .inr ⟨hnext, ?_⟩
    rw [hcnt] at this ⊢
    omega

/-- A request that is held is acknowledged. -/
theorem answers : LeadsTo (fun _ => True) fun n => (ρ n).cpuReady (κ n) := by
  intro n _
  cases hst : (ρ n).state with
  | S_INIT => exact (h.sweep.trans h.recheck) n hst
  | S_IDLE => exact h.idle n hst
  | S_CAP => exact h.cap n hst
  | S_WB => exact h.wb n hst
  | S_FILL => exact h.fill n hst
  | S_RECHECK => exact h.recheck n hst

/-- A request that is acknowledged goes on being acknowledged. -/
theorem ready_next {n : ℕ} (hr : (ρ n).cpuReady (κ n)) : (ρ (n + 1)).cpuReady (κ (n + 1)) := by
  have hr' := hr
  simp only [Regs.cpuReady, Bool.and_eq_true, beq_iff_eq] at hr'
  obtain ⟨⟨hst, -⟩, hh⟩ := hr'
  refine h.ready_of_holds ?_ ?_ (h.qAIdx_next n)
  · rw [h.state_next, Regs.nextState, hst, hh, h.valid n]
    rfl
  · exact (h.holds_next (fillEn_of_ne (by rw [hst]; decide)) (by rw [hst]; decide)).2
      ((h.hit_iff hst).1 hh).1

theorem eventually_ready : ∀ᶠ n in Filter.atTop, (ρ n).cpuReady (κ n) :=
  h.answers.eventually (fun _ hr => h.ready_next hr) (n := 0) trivial

end Asked

end DcacheBram

/-! ## The instruction cache -/

namespace IcacheBram

variable {IDX : ℕ} {ρ : ℕ → Regs IDX} {κ : ℕ → Inputs} {τ : ℕ → Reads IDX} {a : Word}

theorem lineNo_line (x : Word) : lineNo (x.extractLsb' 4 28 ++ 0#4 : BitVec 32) = lineNo x :=
  BitVec.extractLsb'_append_eq_left

/-- The two lines of a fetch are of different sets, if there is more than one. -/
theorem idxOf_add_two_ne (hn : IDX ≤ 28) (hpos : 0 < IDX) {a : Word} (hc : crossN a) :
    idxOf IDX a ≠ idxOf IDX (a + 2) := by
  have hone : (1 : BitVec IDX).toNat = 1 := by
    rw [show (1 : BitVec IDX).toNat = 1 % 2 ^ IDX from BitVec.toNat_ofNat 1 IDX,
      Nat.mod_eq_of_lt (Nat.one_lt_two_pow hpos.ne')]
  have hstep : idxOf IDX (a + 2) = idxOf IDX a + 1 := by
    rw [← idxB_eq hn, idxB, hc]
    congr 1
    apply BitVec.eq_of_toNat_eq
    rw [hone, BitVec.toNat_setWidth, show (BitVec.ofBool true).toNat = 1 from rfl,
      Nat.mod_eq_of_lt (Nat.one_lt_two_pow hpos.ne')]
  intro he
  rw [hstep, eq_comm, add_eq_left] at he
  rw [he] at hone
  cases hone

/-- A fetch from `a` is held, and `a` is speculated. -/
structure Asked (a : Word) (ρ : ℕ → Regs IDX) (κ : ℕ → Inputs) (τ : ℕ → Reads IDX) : Prop where
  next : ∀ n, ρ (n + 1) = (ρ n).edge (κ n) ((ρ n).collidingReads (κ n) (τ n))
  valid : ∀ n, (κ n).fetchValid
  addr : ∀ n, (κ n).fetchAddr = a
  addrNext : ∀ n, (κ n).fetchAddrNext = a
  settled : ∀ n, (ρ n).state = .S_IDLE → (ρ n).Settled ∧ (ρ n).tagB = (ρ n).tagA
  answered : ∀ n, (ρ n).memReqValid → ∃ m ≥ n, (κ m).memReady

theorem wrEn_of_ne {s : Regs IDX} {i : Inputs} (hst : s.state ≠ .S_FILL) : s.wrEn i = false := by
  rw [Regs.wrEn, beq_eq_false_iff_ne.2 hst, Bool.false_and]

namespace Asked

variable (hn : IDX ≤ 28) (h : Asked a ρ κ τ)

include h

theorem state_next (n : ℕ) : (ρ (n + 1)).state = (ρ n).nextState (κ n) := by
  rw [h.next n]
  rfl

theorem specOk_next (n : ℕ) : (ρ (n + 1)).specOk (κ (n + 1)) := by
  have hq : (ρ (n + 1)).qA = a := by
    rw [h.next n, ← h.addrNext n]
    rfl
  rw [Regs.specOk, hq, h.addr, beq_self_eq_true]

include hn

/-- When nothing is under way. -/
theorem hit_iff {n : ℕ} (hst : (ρ n).state = .S_IDLE) (hs : (ρ n).specOk (κ n)) :
    ((ρ n).hitA (κ n) ↔ (ρ n).Holds a) ∧ ((ρ n).hitB (κ n) ↔ (ρ n).Holds (a + 2)) := by
  obtain ⟨hset, hmirror⟩ := h.settled n hst
  rw [Regs.specOk, beq_iff_eq, h.addr] at hs
  obtain ⟨hword, -, hidxB, -⟩ := arrays_congr hs
  constructor
  · rw [Regs.hitA, hset.tagA, idxA, idxOf_eq_of_word hword, h.addr, Bool.and_eq_true, beq_iff_eq]
    rfl
  · rw [Regs.hitB, hset.tagB, hmirror, hidxB, idxB_eq hn, h.addr, Bool.and_eq_true, beq_iff_eq]
    rfl

theorem ready_of_holds {n : ℕ} (hst : (ρ n).state = .S_IDLE) (hs : (ρ n).specOk (κ n))
    (hA : (ρ n).Holds a) (hB : crossN a → (ρ n).Holds (a + 2)) : (ρ n).fetchReady (κ n) := by
  obtain ⟨ha, hb⟩ := h.hit_iff hn hst hs
  rw [Regs.fetchReady, hst, h.valid, hs, ha.2 hA, h.addr]
  cases hc : crossN a
  · rfl
  · rw [hb.2 (hB hc)]
    rfl

omit hn

theorem tagA_of_quiet {n : ℕ} (hw : (ρ n).wrEn (κ n) = false) (hi : (ρ n).state ≠ .S_INIT) :
    (ρ (n + 1)).tagA = (ρ n).tagA := by
  have ht : (ρ n).tagWe (κ n) = false := by
    rw [Regs.tagWe, Regs.initEn, beq_eq_false_iff_ne.2 hi, hw]
    rfl
  rw [h.next n]
  funext x
  simp [Regs.edge, ht]

theorem holds_next {n : ℕ} {x : Word} (hst : (ρ n).state ≠ .S_FILL) (hi : (ρ n).state ≠ .S_INIT) :
    (ρ (n + 1)).Holds x ↔ (ρ n).Holds x := by
  rw [Regs.Holds, Regs.Holds, h.tagA_of_quiet (wrEn_of_ne hst) hi]

include hn

/-- A refill puts a line in the cache, and displaces none of another set. -/
theorem holds_of_fill {n : ℕ} (hst : (ρ n).state = .S_FILL) (hr : (κ n).memReady) :
    (∀ x, lineNo (ρ n).missAddrQ = lineNo x → (ρ (n + 1)).Holds x) ∧
      ∀ x, idxOf IDX x ≠ idxOf IDX (ρ n).missAddrQ → (ρ n).Holds x → (ρ (n + 1)).Holds x := by
  have hw : (ρ n).wrEn (κ n) := by rw [Regs.wrEn, hst, hr]; rfl
  have htag : ∀ x, (ρ (n + 1)).tagA x = if x = (ρ n).wrIdx then ⟨true, (ρ n).wrTag⟩
      else (ρ n).tagA x := by
    intro x
    rw [h.next n]
    simp [Regs.edge, Regs.tagWe, Regs.tagWaddr, Regs.tagWdata, Regs.initEn, hw, hst]
  constructor
  · intro x hx
    rw [Regs.Holds, htag, if_pos (show idxOf IDX x = (ρ n).wrIdx from idxOf_congr hn hx.symm)]
    exact ⟨rfl, tagOf_congr hn hx⟩
  · intro x hx hh
    rw [Regs.Holds, htag, if_neg (show ¬idxOf IDX x = (ρ n).wrIdx from hx)]
    exact hh

omit hn

/-- While it waits for the line memory the cache stays as it is. -/
theorem line_answered (B : Prop) (x y : Word) :
    LeadsTo (fun n => (ρ n).state = .S_FILL ∧ lineNo (ρ n).missAddrQ = lineNo x ∧
      (B → (ρ n).Holds y)) fun n =>
      ((ρ n).state = .S_FILL ∧ lineNo (ρ n).missAddrQ = lineNo x ∧ (B → (ρ n).Holds y)) ∧
      (κ n).memReady := by
  refine .waits (fun n ⟨hst, hx, hy⟩ hr => ?_) fun n hs => h.answered n ?_
  · have hw : (ρ n).wrEn (κ n) = false := by rw [Regs.wrEn, Bool.eq_false_iff.2 hr, Bool.and_false]
    have hm : (ρ (n + 1)).missAddrQ = (ρ n).missAddrQ := by
      rw [h.next n]
      simp [Regs.edge, Regs.missed, hst]
    refine ⟨?_, by rw [hm, hx], fun hb => ?_⟩
    · rw [h.state_next, Regs.nextState, hst]
      exact if_neg hr
    · rw [Regs.Holds, h.tagA_of_quiet hw (by rw [hst]; decide)]
      exact hy hb
  · rw [Regs.memReqValid, (hs n le_rfl).1]
    rfl

/-! ### Two lines -/

variable (hpos : 0 < IDX)

include hn

theorem recheck_both : LeadsTo (fun n => (ρ n).state = .S_RECHECK ∧ (ρ n).Holds a ∧
    (ρ n).Holds (a + 2)) fun n =>
    (ρ n).fetchReady (κ n) := by
  refine .of_next fun n hs => ?_
  have hst : (ρ (n + 1)).state = .S_IDLE := by rw [h.state_next, Regs.nextState, hs.1]
  have hkeep : ∀ x, (ρ (n + 1)).Holds x ↔ (ρ n).Holds x := fun x =>
    h.holds_next (by rw [hs.1]; decide) (by rw [hs.1]; decide)
  exact h.ready_of_holds hn hst (h.specOk_next n) ((hkeep a).2 hs.2.1) fun _ => (hkeep _).2 hs.2.2

include hpos

/-- The second line is filled, and does not displace the first one. -/
theorem fill_second (hc : crossN a) :
    LeadsTo (fun n => (ρ n).state = .S_FILL ∧ lineNo (ρ n).missAddrQ = lineNo (a + 2) ∧
      (True → (ρ n).Holds a))
      fun n => (ρ n).fetchReady (κ n) := by
  refine ((h.line_answered True (a + 2) a).trans (.of_next fun n hs => ?_)).trans (h.recheck_both hn)
  obtain ⟨⟨hst, hline, hh⟩, hr⟩ := hs
  obtain ⟨hnew, hold⟩ := h.holds_of_fill hn hst hr
  refine ⟨?_, hold a ?_ (hh trivial), hnew _ hline⟩
  · rw [h.state_next, Regs.nextState, hst]
    exact if_pos hr
  · rw [idxOf_congr hn hline]
    exact idxOf_add_two_ne hn hpos hc

theorem idle_first : LeadsTo (fun n => (ρ n).state = .S_IDLE ∧ (ρ n).specOk (κ n) ∧
    (ρ n).Holds a) fun n =>
    (ρ n).fetchReady (κ n) := by
  rintro n ⟨hst, hs, hA⟩
  cases hr : (ρ n).fetchReady (κ n)
  · have hitA := ((h.hit_iff hn hst hs).1).2 hA
    have hc : crossN a := by
      by_contra hc
      rw [h.ready_of_holds hn hst hs hA fun hc' => absurd hc' hc] at hr
      cases hr
    have hm : (ρ n).missed (κ n) := by rw [Regs.missed, hst, h.valid n, hr, hs]; rfl
    obtain ⟨m, hm, hready⟩ := h.fill_second hn hpos hc (n + 1) <| by
      refine ⟨?_, ?_, fun _ => (h.holds_next (by rw [hst]; decide) (by rw [hst]; decide)).2 hA⟩
      · rw [h.state_next, Regs.nextState, hst, h.valid n, hr, hs]
        rfl
      · rw [h.next n]
        simp only [Regs.edge, hm, if_true, Regs.missAddr, hitA, Bool.not_true, Bool.false_eq_true,
          if_false, Regs.lineB, h.addr n]
        exact lineNo_line _
    exact ⟨m, Nat.le_of_succ_le hm, hready⟩
  · exact ⟨n, le_rfl, hr⟩

theorem recheck_first : LeadsTo (fun n => (ρ n).state = .S_RECHECK ∧ (ρ n).Holds a) fun n =>
    (ρ n).fetchReady (κ n) := by
  refine .trans (.of_next fun n hs => ⟨?_, h.specOk_next n, ?_⟩) (h.idle_first hn hpos)
  · rw [h.state_next, Regs.nextState, hs.1]
  · exact (h.holds_next (by rw [hs.1]; decide) (by rw [hs.1]; decide)).2 hs.2

theorem fill_first :
    LeadsTo (fun n => (ρ n).state = .S_FILL ∧ lineNo (ρ n).missAddrQ = lineNo a ∧
      (False → (ρ n).Holds a))
      fun n => (ρ n).fetchReady (κ n) := by
  refine ((h.line_answered False a a).trans (.of_next fun n hs => ⟨?_, ?_⟩)).trans
    (h.recheck_first hn hpos)
  · rw [h.state_next, Regs.nextState, hs.1.1]
    exact if_pos hs.2
  · exact (h.holds_of_fill hn hs.1.1 hs.2).1 a hs.1.2.1

/-! ### Any state -/

theorem idle_spec : LeadsTo (fun n => (ρ n).state = .S_IDLE ∧ (ρ n).specOk (κ n)) fun n =>
    (ρ n).fetchReady (κ n) := by
  rintro n ⟨hst, hs⟩
  by_cases hA : (ρ n).Holds a
  · exact h.idle_first hn hpos n ⟨hst, hs, hA⟩
  · have hitA : (ρ n).hitA (κ n) = false :=
      Bool.eq_false_iff.2 fun hx => hA (((h.hit_iff hn hst hs).1).1 hx)
    have hr : (ρ n).fetchReady (κ n) = false := by
      rw [Regs.fetchReady, hitA, Bool.and_false, Bool.false_and]
    have hm : (ρ n).missed (κ n) := by rw [Regs.missed, hst, h.valid n, hr, hs]; rfl
    obtain ⟨m, hm, hready⟩ := h.fill_first hn hpos (n + 1) <| by
      refine ⟨?_, ?_, fun hf => hf.elim⟩
      · rw [h.state_next, Regs.nextState, hst, h.valid n, hr, hs]
        rfl
      · rw [h.next n]
        simp only [Regs.edge, hm, if_true, Regs.missAddr, hitA, Bool.not_false, Regs.lineA, h.addr n]
        exact lineNo_line _
    exact ⟨m, Nat.le_of_succ_le hm, hready⟩

theorem recheck : LeadsTo (fun n => (ρ n).state = .S_RECHECK) fun n => (ρ n).fetchReady (κ n) := by
  refine .trans (.of_next fun n hs => ⟨?_, h.specOk_next n⟩) (h.idle_spec hn hpos)
  rw [h.state_next, Regs.nextState, hs]

theorem fill : LeadsTo (fun n => (ρ n).state = .S_FILL) fun n => (ρ n).fetchReady (κ n) := by
  intro n hst
  refine ((h.line_answered False (ρ n).missAddrQ a).trans (.of_next fun n hs => ?_)).trans
    (h.recheck hn hpos) n
    ⟨hst, rfl, fun hf => hf.elim⟩
  rw [h.state_next, Regs.nextState, hs.1.1]
  exact if_pos hs.2

theorem idle : LeadsTo (fun n => (ρ n).state = .S_IDLE) fun n => (ρ n).fetchReady (κ n) := by
  intro n hst
  cases hs : (ρ n).specOk (κ n)
  · -- what was speculated is of another set
    have hr : (ρ n).fetchReady (κ n) = false := by
      rw [Regs.fetchReady, hs, Bool.and_false, Bool.false_and, Bool.false_and]
    have hnext : (ρ (n + 1)).state = .S_RECHECK := by
      rw [h.state_next, Regs.nextState, hst, h.valid n, hr, hs]
      rfl
    obtain ⟨m, hm, hready⟩ := h.recheck hn hpos (n + 1) hnext
    exact ⟨m, Nat.le_of_succ_le hm, hready⟩
  · exact h.idle_spec hn hpos n ⟨hst, hs⟩

omit hn hpos in
/-- The sweep ends. -/
theorem sweep : LeadsTo (fun n => (ρ n).state = .S_INIT) fun n => (ρ n).state = .S_RECHECK := by
  refine .of_rank (fun n => 2 ^ IDX - (ρ n).sweepCnt.toNat) fun n hst => ⟨n + 1, n.le_succ, ?_⟩
  have hnext := h.state_next n
  rw [Regs.nextState, hst] at hnext
  dsimp only at hnext
  split at hnext
  · exact .inl hnext
  · next hc =>
    have hcnt : (ρ (n + 1)).sweepCnt = (ρ n).sweepCnt + 1 := by
      rw [h.next n]
      simp [Regs.edge, hst]
    have hlt := toNat_add_one_of_ne hc
    have := (ρ (n + 1)).sweepCnt.isLt
    refine .inr ⟨hnext, ?_⟩
    rw [hcnt] at this ⊢
    omega

/-- A fetch that is held is acknowledged. -/
theorem answers : LeadsTo (fun _ => True) fun n => (ρ n).fetchReady (κ n) := by
  intro n _
  cases hst : (ρ n).state with
  | S_INIT => exact (h.sweep.trans (h.recheck hn hpos)) n hst
  | S_IDLE => exact h.idle hn hpos n hst
  | S_FILL => exact h.fill hn hpos n hst
  | S_RECHECK => exact h.recheck hn hpos n hst

omit hpos in
/-- A fetch that is acknowledged goes on being acknowledged. -/
theorem ready_next {n : ℕ} (hr : (ρ n).fetchReady (κ n)) : (ρ (n + 1)).fetchReady (κ (n + 1)) := by
  have hr' := hr
  simp only [Regs.fetchReady, Bool.and_eq_true, beq_iff_eq] at hr'
  obtain ⟨⟨⟨⟨hst, -⟩, hs⟩, hA⟩, hB⟩ := hr'
  obtain ⟨ha, hb⟩ := h.hit_iff hn hst hs
  have hkeep : ∀ x, (ρ (n + 1)).Holds x ↔ (ρ n).Holds x := fun x =>
    h.holds_next (by rw [hst]; decide) (by rw [hst]; decide)
  refine h.ready_of_holds hn ?_ (h.specOk_next n) ((hkeep a).2 (ha.1 hA)) fun hc => (hkeep _).2 (hb.1 ?_)
  · rw [h.state_next, Regs.nextState, hst, hr, h.valid n]
    rfl
  · rwa [h.addr n, hc] at hB

theorem eventually_ready : ∀ᶠ n in Filter.atTop, (ρ n).fetchReady (κ n) :=
  (h.answers hn hpos).eventually (fun _ hr => h.ready_next hn hr) (n := 0) trivial

end Asked

end IcacheBram

end Rv32Soc
