import Rv32Soc.Cache.Progress
import Rv32Soc.Core.Refinement

/-!
# The hart goes on

If the line memory and the peripherals answer what they are asked, the pipeline never stops: were
it frozen for good, the divider, the peripherals, the two accesses of an AMO, the D-cache and the
I-cache would be done one after the other, each for good, and the TCM, which answers on every
second cycle, answers both sides on the same one. And a pipeline that moves on executes: what is
fetched gets to MEM, unless a trap is taken or `mret` returns on the way.

* `div_done`, `port_done`, `amo_done`: what is done while the pipeline is frozen;
* `sides_together`: fetch and MEM are answered on one cycle;
* `exists_moves`, `exists_executes`: the pipeline moves again, and executes;
* `goes_on_of_isRun`: again and again an instruction is executed, or the pc goes to a handler or
  back from one.
-/

namespace Rv32Soc

/-! ## A frozen pipeline -/

/-- An AMO that has its result presents nothing any more. -/
theorem Core.dcacheValid_of_amoStall {s : Core} (hr : s.AmoRests) (hs : s.amoStall = false) :
    s.dcacheValid = ((s.isLoad || s.storeCommits) && s.memAddrIsCacheable) := by
  have hphase : s.amoReadPhase = false ∧ s.amoWritePhase = false := by
    rw [amoReadPhase, amoWritePhase]
    cases ha : s.exMem.isAmo
    · exact ⟨rfl, rfl⟩
    · rw [amoStall, ha, Bool.true_and, Bool.not_eq_false'] at hs
      rw [hr.ready hs, hs]
      exact ⟨rfl, rfl⟩
  rw [dcacheValid, dcacheRen, dcacheWen, hphase.1, hphase.2, Bool.or_false, Bool.or_false,
    Bool.and_or_distrib_right]

section

variable {L : BitVec 16} {σ : ℕ → Core} {ι : ℕ → CoreInputs} {π : ℕ → Predictor} {N : ℕ}
  (h : (core L).IsRun σ fun n => (ι n, π n)) (hz : ∀ k ≥ N, (σ k).globalMemStall (ι k))

include h hz

/-- It goes on asking for the same. -/
theorem frozen_eq {k : ℕ} (hk : N ≤ k) :
    (σ k).exMem = (σ N).exMem ∧ (σ k).pc = (σ N).pc ∧ (σ k).storeCommits = (σ N).storeCommits := by
  induction k, hk using Nat.le_induction with
  | base => exact ⟨rfl, rfl, rfl⟩
  | succ k hk ih =>
    obtain ⟨he, hpc, hc⟩ := ih
    have hwf := wellFormed_of_reachable (h.reachable k)
    rw [core_next h k]
    refine ⟨(Core.exMem_frozen (hz k hk)).trans he, ?_, (hwf.storeCommits_frozen (hz k hk)).trans hc⟩
    rw [Core.nextWith_pc, Core.nextPc, hz k hk, Bool.or_true, if_pos rfl, hpc]

theorem div_done : ∀ᶠ k in Filter.atTop, (σ k).divStall = false := by
  have hwait : ∀ k ≥ N, (σ (k + 1)).divWait ≤ (σ k).divWait - 1 := fun k hk => by
    rw [core_next h k]
    exact (dividing_of_reachable (h.reachable k)).divWait_frozen (hz k hk)
  have hdone : LeadsTo (fun k => N ≤ k) fun k => N ≤ k ∧ (σ k).divWait = 0 := by
    refine .of_rank (fun k => (σ k).divWait) fun k hk => ?_
    have := hwait k hk
    rcases Nat.eq_zero_or_pos (σ k).divWait with h0 | h0
    · exact ⟨k, le_rfl, .inl ⟨hk, h0⟩⟩
    · exact ⟨k + 1, k.le_succ, .inr ⟨hk.trans k.le_succ, by omega⟩⟩
  refine (hdone.eventually (fun k hk => ⟨hk.1.trans k.le_succ, ?_⟩) (le_refl N)).mono fun k hk => ?_
  · have := hwait k hk.1
    omega
  · rw [Core.divStall_eq, hk.2, decide_eq_false (Nat.lt_irrefl 0)]

/-- The answer of a peripheral is kept. -/
theorem port_done {v : Core.Port} (hv : v.Lawful) (hans : ∀ n, (v.port (σ n)).pending →
    ∃ m ≥ n, v.ready (ι m)) :
    ∀ᶠ k in Filter.atTop, v.valid (σ k) → (v.port (σ k)).done := by
  have hvalid : ∀ k ≥ N, v.valid (σ (k + 1)) = v.valid (σ k) := fun k hk => by
    rw [core_next h k]
    exact (wellFormed_of_reachable (h.reachable k)).valid_frozen (hz k hk) v
  have hnext : ∀ k, v.port (σ (k + 1)) =
      (v.port (σ k)).next (v.req (σ k)) (v.ready (ι k)) (v.rdata (ι k))
        ((σ k).globalMemStall (ι k)) := fun k => by
    rw [core_next h k]
    exact hv.next (σ k) (ι k) (π k) L
  -- asked, then answered
  have hpending : LeadsTo (fun k => N ≤ k ∧ v.valid (σ k) ∧ (v.port (σ k)).pending) fun k =>
      N ≤ k ∧ (v.valid (σ k) → (v.port (σ k)).done) := by
    refine .trans (.waits (R := fun k => v.ready (ι k)) (fun k hk hr => ?_) fun k hk =>
      hans k (hk k le_rfl).2.2)
      (.of_next fun k hk => ⟨hk.1.1.trans k.le_succ, fun _ => ?_⟩)
    · refine ⟨hk.1.trans k.le_succ, (hvalid k hk.1).trans hk.2.1, ?_⟩
      simp [hnext k, MmioPort.next, hk.2.2, Bool.eq_false_iff.2 hr]
    · simp [hnext k, MmioPort.next, hk.2]
  have hdone : LeadsTo (fun k => N ≤ k) fun k => N ≤ k ∧ (v.valid (σ k) → (v.port (σ k)).done) := by
    intro k hk
    by_cases hd : v.valid (σ k) → (v.port (σ k)).done
    · exact ⟨k, le_rfl, hk, hd⟩
    · obtain ⟨hval, hdone⟩ := Classical.not_imp.1 hd
      cases hp : (v.port (σ k)).pending
      · have hreq : v.req (σ k) := by
          rw [Core.Port.req, hval, hp, Bool.eq_false_iff.2 hdone]
          rfl
        obtain ⟨m, hm, hq⟩ := hpending (k + 1) <| by
          refine ⟨hk.trans k.le_succ, (hvalid k hk).trans hval, ?_⟩
          simp [hnext k, MmioPort.next, hreq]
        exact ⟨m, Nat.le_of_succ_le hm, hq⟩
      · exact hpending k ⟨hk, hval, hp⟩
  refine (hdone.eventually (fun k hk => ⟨hk.1.trans k.le_succ, fun hval => ?_⟩)
    (le_refl N)).mono fun k hk => hk.2
  simp [hnext k, MmioPort.next, hz k hk.1, hk.2 ((hvalid k hk.1).symm.trans hval)]

/-- An AMO makes its two accesses, if each is acknowledged that waits long enough. -/
theorem amo_done (hans : ∀ n ≥ N, (∀ m ≥ n, (σ m).amoWaits) → ∃ m ≥ n, (ι m).dcacheReady) :
    ∀ᶠ k in Filter.atTop, (σ k).amoStall = false := by
  have hrests : ∀ k, (σ k).AmoRests := fun k => amoRests_of_reachable (h.reachable k)
  -- what the sequencer does while it waits
  have hnext : ∀ k, (σ k).amoStall →
    (σ (k + 1)).amoStall = !((σ k).amo.amoState == .AMO_WRITE && (ι k).dcacheReady) ∧
      ((σ k).amo.amoState = .AMO_IDLE → (σ (k + 1)).amo.amoState = .AMO_READ) ∧
      ((σ k).amo.amoState = .AMO_READ →
        (σ (k + 1)).amo.amoState = if (ι k).dcacheReady then .AMO_WRITE else .AMO_READ) ∧
      ((σ k).amo.amoState = .AMO_WRITE → (σ (k + 1)).amo.amoState = .AMO_WRITE) := by
    intro k hs
    obtain ⟨he, hst, hr⟩ := Core.amo_next_waits (i := ι k) (p := π k) (L := L) hs
    rw [← core_next h k] at he hst hr
    rw [Core.amoStall, Bool.and_eq_true] at hs
    refine ⟨by rw [Core.amoStall, he, hs.1, hr, Bool.true_and], ?_, ?_, ?_⟩ <;>
    · intro hx
      rw [hst, hx]
  have hwaits : ∀ k, (σ k).amoStall → (σ k).amo.amoState ≠ .AMO_IDLE → (σ k).amoWaits := by
    intro k hs hne
    rw [Core.amoStall, Bool.and_eq_true, Bool.not_eq_true'] at hs
    rw [Core.amoWaits, Core.amoReadPhase, Core.amoWritePhase, hs.1, hs.2]
    cases hst : (σ k).amo.amoState with
    | AMO_IDLE => exact absurd hst hne
    | AMO_READ | AMO_WRITE => rfl
  -- either access is acknowledged
  have hwait : ∀ st, st ≠ .AMO_IDLE → LeadsTo (fun k => N ≤ k ∧ (σ k).amoStall ∧
      (σ k).amo.amoState = st) fun k =>
      (N ≤ k ∧ (σ k).amoStall ∧ (σ k).amo.amoState = st) ∧ (ι k).dcacheReady := by
    intro st hne
    refine .waits (fun k hk hr => ?_) fun n hs => hans n (hs n le_rfl).1 fun m hm =>
      hwaits m (hs m hm).2.1 (by rw [(hs m hm).2.2]; exact hne)
    obtain ⟨hstall, -, hread, hwrite⟩ := hnext k hk.2.1
    rw [Bool.eq_false_iff.2 hr] at hstall hread
    refine ⟨hk.1.trans k.le_succ, by rw [hstall, Bool.and_false]; rfl, ?_⟩
    cases st with
    | AMO_IDLE => exact absurd rfl hne
    | AMO_READ => exact hread hk.2.2
    | AMO_WRITE => exact hwrite hk.2.2
  have hwrite : LeadsTo (fun k => N ≤ k ∧ (σ k).amoStall ∧ (σ k).amo.amoState = .AMO_WRITE) fun k =>
      N ≤ k ∧ (σ k).amoStall = false := by
    refine (hwait .AMO_WRITE (by decide)).trans (.of_next fun k hk => ⟨hk.1.1.trans k.le_succ, ?_⟩)
    rw [(hnext k hk.1.2.1).1, hk.1.2.2, hk.2]
    rfl
  have hread : LeadsTo (fun k => N ≤ k ∧ (σ k).amoStall ∧ (σ k).amo.amoState = .AMO_READ) fun k =>
      N ≤ k ∧ (σ k).amoStall = false := by
    refine ((hwait .AMO_READ (by decide)).trans (.of_next fun k hk => ?_)).trans hwrite
    obtain ⟨hstall, -, hst, -⟩ := hnext k hk.1.2.1
    rw [hk.1.2.2] at hstall
    exact ⟨hk.1.1.trans k.le_succ, hstall, by rw [hst hk.1.2.2, hk.2, if_pos rfl]⟩
  have hdone : LeadsTo (fun k => N ≤ k) fun k => N ≤ k ∧ (σ k).amoStall = false := by
    intro k hk
    cases hs : (σ k).amoStall
    · exact ⟨k, le_rfl, hk, hs⟩
    · cases hst : (σ k).amo.amoState with
      | AMO_IDLE =>
        obtain ⟨hstall, hidle, -⟩ := hnext k hs
        rw [hst] at hstall
        obtain ⟨m, hm, hq⟩ := hread (k + 1) ⟨hk.trans k.le_succ, hstall, hidle hst⟩
        exact ⟨m, Nat.le_of_succ_le hm, hq⟩
      | AMO_READ => exact hread k ⟨hk, hs, hst⟩
      | AMO_WRITE => exact hwrite k ⟨hk, hs, hst⟩
  refine (hdone.eventually (fun k hk => ⟨hk.1.trans k.le_succ, ?_⟩) (le_refl N)).mono fun k hk => hk.2
  -- its result is kept
  have he : (σ (k + 1)).exMem = (σ k).exMem := by
    rw [core_next h k]
    exact Core.exMem_frozen (hz k hk.1)
  have hs := hk.2
  rw [Core.amoStall, he]
  cases ha : (σ k).exMem.isAmo
  · rfl
  · rw [Core.amoStall, ha, Bool.true_and, Bool.not_eq_false'] at hs
    rw [core_next h k, Core.nextWith_amo, Core.nextAmo_frozen (hz k hk.1) ha, (hrests k).ready hs]
    dsimp only
    split <;> simp [hs]

end

variable {IC DC K : ℕ} {C : Set Word}

/-- The part of an address that addresses the arrays has its index. -/
theorem idxOf_setWidth (a : Word) : (a.setWidth (DC + 4)).extractLsb' 4 DC = idxOf DC a := by
  apply BitVec.eq_of_getLsbD_eq
  intro j hj
  simp [idxOf, hj, show 4 + j < DC + 4 by omega]

/-! ## A frozen machine -/

namespace Machine

/-- Nobody that is asked is silent for ever. -/
structure Answered (σ : ℕ → Machine IC DC K) (ι : ℕ → CpuInputs IC) : Prop where
  fetches : ∀ n, (σ n).cpu.icache.bramCache.memReqValid → ∃ m ≥ n, (ι m).icMemReady
  lines : ∀ n, (σ n).cpu.dcache.coreInst.memReqValid → ∃ m ≥ n, (ι m).dcMemReady
  uart : ∀ n, (σ n).cpu.core.uart.pending → ∃ m ≥ n, (ι m).core.uartReady
  intc : ∀ n, (σ n).cpu.core.intc.pending → ∃ m ≥ n, (ι m).core.intcReady
  accel : ∀ n, (σ n).cpu.core.accel.pending → ∃ m ≥ n, (ι m).core.accelReady

end Machine

section

variable {L : BitVec 16} {σ : ℕ → Machine IC DC K} {ι : ℕ → CpuInputs IC} {N : ℕ}
  (h : (machine IC DC K L).IsRun σ ι) (hz : ∀ k ≥ N, (σ k).cpu.core.globalMemStall ((σ k).seen (ι k)))

include h hz

/-- The line memory has answered a fetch that is not from the TCM. -/
theorem fetch_done (hIC : IC ≤ 28) (hpos : 0 < IC) (ha : Machine.Answered σ ι)
    (hinv : ∀ n, ∃ m, (σ n).cpu.icache.bramCache.Inv m) (ht : Tcm.inRange K (σ N).cpu.core.pc = false) :
    ∀ᶠ k in Filter.atTop, Core.imemStall ((σ k).seen (ι k)) = false := by
  have hpc : ∀ k, (σ (N + k)).cpu.core.pc = (σ N).cpu.core.pc := fun k =>
    (frozen_eq (isRun_machineCores h) hz (Nat.le_add_right N k)).2.1
  -- While the pipeline stands still the I-cache is asked for the same address.
  have hasked : IcacheBram.Asked (σ N).cpu.core.pc (fun k => (σ (N + k)).cpu.icache.bramCache)
      (fun k => ((σ (N + k)).icacheIn (ι (N + k))).bram K) fun k => (ι (N + k)).icReads := by
    refine ⟨fun k => ?_, fun k => ?_, hpc, fun k => ?_, fun k hst => ?_, fun k hq => ?_⟩
    · rw [← Nat.add_assoc, show σ (N + k + 1) = _ from h.next (N + k)]
      rfl
    · show (true && !Tcm.inRange K (σ (N + k)).cpu.core.pc) = true
      rw [hpc, ht]
      rfl
    · show (σ (N + k)).cpu.core.nextPc ((σ (N + k)).seen (ι (N + k))) = _
      rw [Core.nextPc, hz _ (Nat.le_add_right N k), Bool.or_true, if_pos rfl, hpc]
    · obtain ⟨m, -, hm⟩ := hinv (N + k)
      simp only [hst] at hm
      exact ⟨hm.2, hm.1.mirror⟩
    · obtain ⟨m, hm, hr⟩ := ha.fetches (N + k) hq
      exact ⟨m - N, by omega, by rwa [show N + (m - N) = m by omega]⟩
  have hready := hasked.eventually_ready hIC hpos
  rw [Filter.eventually_atTop] at hready ⊢
  obtain ⟨M, hM⟩ := hready
  -- The cache answers from then on, and the fetch is not of the TCM.
  refine ⟨N + M, fun k hk => ?_⟩
  have hr := hM (k - N) (by omega)
  rw [show N + (k - N) = k by omega] at hr
  have hp : (σ k).cpu.core.pc = (σ N).cpu.core.pc := by
    rw [← hpc (k - N), show N + (k - N) = k by omega]
  have hc : (σ k).cpu.icache.cpuReady K ((σ k).cpu.icacheInputs (ι k) 0) := by
    rw [Icache.Regs.cpuReady, if_neg]
    · exact hr
    · show ¬Tcm.inRange K (σ k).cpu.core.pc
      rw [hp, ht]
      exact Bool.false_ne_true
  rw [Core.imemStall, show ((σ k).seen (ι k)).cacheReady = true from hc]
  rfl

/-- An access that is not to the TCM is acknowledged for good, if it is held. -/
theorem data_done (ha : Machine.Answered σ ι)
    (hinv : ∀ n, ∃ lower cm, (σ n).cpu.dcache.coreInst.Inv lower cm)
    {n : ℕ} (hn : N ≤ n) (hv : ∀ k ≥ n, (σ k).cpu.core.dcacheValid)
    (ht : Tcm.inRange K (σ N).cpu.core.exMem.alu = false) :
    ∀ᶠ k in Filter.atTop, ((σ k).seen (ι k)).dcacheReady := by
  have halu : ∀ k, (σ (n + k)).cpu.core.exMem.alu = (σ N).cpu.core.exMem.alu := fun k =>
    congrArg ExMem.alu (frozen_eq (isRun_machineCores h) hz (hn.trans (Nat.le_add_right n k))).1
  have hasked : DcacheBram.Asked (σ N).cpu.core.exMem.alu (fun k => (σ (n + k)).cpu.dcache.coreInst)
      fun k => ((σ (n + k)).dcacheIn (ι (n + k))).core K := by
    refine ⟨fun k => ?_, fun k => ?_, halu, fun k => ?_, fun k hst => ?_, fun k hq => ?_⟩
    · rw [← Nat.add_assoc, show σ (n + k + 1) = _ from h.next (n + k)]
      rfl
    · show ((σ (n + k)).cpu.core.dcacheValid && !Tcm.inRange K (σ (n + k)).cpu.core.exMem.alu) = true
      rw [hv _ (Nat.le_add_right n k), halu, ht]
      rfl
    · have hg : (σ (n + k)).cpu.core.globalMemStall ((σ (n + k)).cpu.coreInputs (ι (n + k))) :=
        hz _ (hn.trans (Nat.le_add_right n k))
      show ((σ (n + k)).cpu.dcAddrNext (ι (n + k))).extractLsb' 4 DC = _
      rw [Cpu.dcAddrNext, if_pos hg, halu]
      exact idxOf_setWidth _
    · obtain ⟨lower, cm, hm⟩ := hinv (n + k)
      simp only [DcacheBram.Regs.Inv, hst] at hm
      exact hm.2.tagv
    · obtain ⟨m, hm, hr⟩ := ha.lines (n + k) hq
      exact ⟨m - n, by omega, by rwa [show n + (m - n) = m by omega]⟩
  have hready := hasked.eventually_ready
  rw [Filter.eventually_atTop] at hready ⊢
  obtain ⟨M, hM⟩ := hready
  refine ⟨n + M, fun k hk => ?_⟩
  have hr := hM (k - n) (by omega)
  rw [show n + (k - n) = k by omega] at hr
  have hp : (σ k).cpu.core.exMem.alu = (σ N).cpu.core.exMem.alu := by
    rw [← halu (k - n), show n + (k - n) = k by omega]
  show (σ k).cpu.dcache.cpuReady K ((σ k).cpu.dcacheInputs (ι k) 0) = true
  rw [Dcache.Regs.cpuReady, if_neg]
  · exact hr
  · show ¬Tcm.inRange K (σ k).cpu.core.exMem.alu
    rw [hp, ht]
    exact Bool.false_ne_true

/-- The TCM answers on every second cycle: a fetch from there, -/
theorem fetch_alternates (hphase : ∀ k, (σ k).cpu.InPhase) (ht : Tcm.inRange K (σ N).cpu.core.pc)
    {k : ℕ} (hk : N ≤ k) :
    (σ k).cpu.fetchInTcm ∧
      (σ (k + 1)).cpu.icache.tcmReqPending = !(σ k).cpu.icache.tcmReqPending := by
  have hf : (σ k).cpu.fetchInTcm := by
    have hpc : (σ k).cpu.core.pc = (σ N).cpu.core.pc := (frozen_eq (isRun_machineCores h) hz hk).2.1
    rw [Cpu.fetchInTcm, hpc, ht]
  refine ⟨hf, ?_⟩
  rw [show σ (k + 1) = (σ k).next (ι k) L from h.next k, Machine.next, (hphase k).fetch_next.1,
    hf, Bool.true_and]

/-- and an access to it that is held. -/
theorem data_alternates (hphase : ∀ k, (σ k).cpu.InPhase) {n : ℕ} (hn : N ≤ n)
    (hv : ∀ k ≥ n, (σ k).cpu.core.dcacheValid) (ht : Tcm.inRange K (σ N).cpu.core.exMem.alu)
    {k : ℕ} (hk : n ≤ k) :
    (σ k).cpu.dataInTcm ∧ (σ (k + 1)).cpu.dcache.tcmReqPending = !(σ k).cpu.dcache.tcmReqPending := by
  have hd : (σ k).cpu.dataInTcm := by
    have he : (σ k).cpu.core.exMem = (σ N).cpu.core.exMem :=
      (frozen_eq (isRun_machineCores h) hz (hn.trans hk)).1
    rw [Cpu.dataInTcm, hv k hk, he, ht]
    rfl
  refine ⟨hd, ?_⟩
  rw [show σ (k + 1) = (σ k).next (ι k) L from h.next k, Machine.next, (hphase k).data_next.1,
    hd, Bool.true_and]

/-- An access that is held is acknowledged. -/
theorem data_answered (hphase : ∀ k, (σ k).cpu.InPhase) (ha : Machine.Answered σ ι)
    (hinv : ∀ n, ∃ lower cm, (σ n).cpu.dcache.coreInst.Inv lower cm) {n : ℕ} (hn : N ≤ n)
    (hv : ∀ k ≥ n, (σ k).cpu.core.dcacheValid) : ∃ m ≥ n, ((σ m).seen (ι m)).dcacheReady := by
  cases ht : Tcm.inRange K (σ N).cpu.core.exMem.alu
  · exact Filter.frequently_atTop.1 (data_done h hz ha hinv hn hv ht).frequently n
  · obtain ⟨m, hm, hp⟩ := Filter.frequently_atTop.1
      (frequently_of_alternates (f := fun k => (σ k).cpu.dcache.tcmReqPending) fun k hk =>
        (data_alternates h hz hphase hn hv ht hk).2) n
    have hd := Cpu.dmemStall_eq (i := ι m) (hphase m) (data_alternates h hz hphase hn hv ht hm).1
    rw [Core.dmemStall, hv m hm, hp, Bool.true_and, Bool.not_true, Bool.not_eq_false'] at hd
    exact ⟨m, hm, hd⟩

/-- The two sides are answered on the same cycle, once no AMO waits. -/
theorem sides_together (hIC : IC ≤ 28) (hpos : 0 < IC) (hphase : ∀ k, (σ k).cpu.InPhase)
    (ha : Machine.Answered σ ι)
    (hi : ∀ n, ∃ m, (σ n).cpu.icache.bramCache.Inv m) (hd : ∀ n, ∃ lower cm,
      (σ n).cpu.dcache.coreInst.Inv lower cm)
    {M : ℕ} (hM : N ≤ M) (hamo : ∀ k ≥ M, (σ k).cpu.core.amoStall = false) :
    ∃ k ≥ M, Core.imemStall ((σ k).seen (ι k)) = false ∧
      (σ k).cpu.core.dmemStall ((σ k).seen (ι k)) = false := by
  have hcore := isRun_machineCores h
  -- MEM goes on presenting the same, or nothing
  have hvalid : ∀ k ≥ M, (σ k).cpu.core.dcacheValid =
      (((σ k).cpu.core.isLoad || (σ k).cpu.core.storeCommits) &&
        (σ k).cpu.core.memAddrIsCacheable) := fun k hk =>
    Core.dcacheValid_of_amoStall (amoRests_of_reachable (hcore.reachable k)) (hamo k hk)
  have hsame : ∀ k ≥ M, (σ k).cpu.core.dcacheValid = (σ M).cpu.core.dcacheValid := by
    intro k hk
    obtain ⟨he, -, hc⟩ := frozen_eq hcore hz (hM.trans hk)
    obtain ⟨he', -, hc'⟩ := frozen_eq hcore hz hM
    rw [hvalid k hk, hvalid M le_rfl, show (σ k).cpu.core.storeCommits = _ from hc,
      show (σ M).cpu.core.storeCommits = _ from hc']
    simp only [Core.isLoad, Core.memAddrIsCacheable, Core.isMmio, Core.isLed, Core.isClint,
      Core.isUart, Core.isIntc,
      Core.isAccel, show (σ k).cpu.core.exMem = _ from he, show (σ M).cpu.core.exMem = _ from he']
  have hfetch : (∀ᶠ k in Filter.atTop, Core.imemStall ((σ k).seen (ι k)) = false) ∨
      ∀ k ≥ M, (σ k).cpu.fetchInTcm ∧
      (σ (k + 1)).cpu.icache.tcmReqPending = !(σ k).cpu.icache.tcmReqPending := by
    cases ht : Tcm.inRange K (σ N).cpu.core.pc
    · exact .inl (fetch_done h hz hIC hpos ha hi ht)
    · exact .inr fun k hk => fetch_alternates h hz hphase ht (hM.trans hk)
  have hdata : (∀ᶠ k in Filter.atTop, (σ k).cpu.core.dmemStall ((σ k).seen (ι k)) = false) ∨
      ∀ k ≥ M, (σ k).cpu.core.routedToTcm K ∧
        (σ (k + 1)).cpu.dcache.tcmReqPending = !(σ k).cpu.dcache.tcmReqPending := by
    cases hv : (σ M).cpu.core.dcacheValid
    · refine .inl (Filter.eventually_atTop.2 ⟨M, fun k hk => ?_⟩)
      rw [Core.dmemStall, hsame k hk, hv, Bool.false_and]
    · have hall : ∀ k ≥ M, (σ k).cpu.core.dcacheValid := fun k hk => (hsame k hk).trans hv
      cases ht : Tcm.inRange K (σ N).cpu.core.exMem.alu
      · refine .inl ((data_done h hz ha hd hM hall ht).mono fun k hk => ?_)
        rw [Core.dmemStall, hk, Bool.not_true, Bool.and_false]
      · refine .inr fun k hk => ?_
        obtain ⟨hd, hnext⟩ := data_alternates h hz hphase hM hall ht hk
        refine ⟨?_, hnext⟩
        rw [Core.routedToTcm, ← hvalid k hk]
        exact hd
  -- the cycles on which the TCM answers
  have hianswer : ∀ k, (σ k).cpu.fetchInTcm → (σ k).cpu.icache.tcmReqPending →
      Core.imemStall ((σ k).seen (ι k)) = false := fun k hf hp => by
    rw [Machine.seen, Cpu.imemStall_eq (hphase k) hf, hp]
    rfl
  have hdanswer : ∀ k, (σ k).cpu.core.routedToTcm K → (σ k).cpu.dcache.tcmReqPending →
      (σ k).cpu.core.dmemStall ((σ k).seen (ι k)) = false := fun k hr hp => by
    rw [Machine.seen, Cpu.dmemStall_eq (hphase k) (Cpu.dataInTcm_of_routed hr), hp]
    rfl
  have hlate := Filter.eventually_ge_atTop M
  refine Filter.frequently_atTop.1 ?_ M
  rcases hfetch with hf | hf <;> rcases hdata with hr | hr
  · exact (hf.and hr).frequently
  · have hp := frequently_of_alternates (f := fun k => (σ k).cpu.dcache.tcmReqPending)
      fun k hk => (hr k hk).2
    refine (hp.and_eventually (hf.and hlate)).mono ?_
    rintro k ⟨hp, hik, hk⟩
    exact ⟨hik, hdanswer k (hr k hk).1 hp⟩
  · have hp := frequently_of_alternates (f := fun k => (σ k).cpu.icache.tcmReqPending)
      fun k hk => (hf k hk).2
    refine (hp.and_eventually (hr.and hlate)).mono ?_
    rintro k ⟨hp, hdk, hk⟩
    exact ⟨hianswer k (hf k hk).1 hp, hdk⟩
  · have hp := frequently_of_alternates (f := fun k => (σ k).cpu.icache.tcmReqPending)
      fun k hk => (hf k hk).2
    refine (hp.and_eventually hlate).mono ?_
    rintro k ⟨hp, hk⟩
    have hboth := (hphase k).both (hf k hk).1 (hr k hk).1
    exact ⟨hianswer k (hf k hk).1 hp, hdanswer k (hr k hk).1 (hboth.symm.trans hp)⟩

end

section

variable {L : BitVec 16} {σ : ℕ → Machine IC DC K} {ι : ℕ → CpuInputs IC}

theorem exists_carries (hIC : IC ≤ 28) (hDC : DC ≤ 28) (hK : K ≤ 28)
    (hrun : (machine IC DC K L).IsRun σ ι)
    (hlaw : ∀ h, (σ 0).hart.Reaches h → h.Lawful C K) (n : ℕ) :
      ∃ h, Carries C (σ 0).hart.state.mem σ ι n h := by
  induction n with
  | zero => exact ⟨_, carries_zero hIC hrun hlaw⟩
  | succ n ih =>
    obtain ⟨h, hC⟩ := ih
    obtain ⟨h', -, hC'⟩ := hC.next hrun hIC hDC hK
    exact ⟨h', hC'⟩

/-- The pipeline is never frozen for good. -/
theorem exists_moves (hIC : IC ≤ 28) (hpos : 0 < IC) (hDC : DC ≤ 28) (hK : K ≤ 28)
    (hrun : (machine IC DC K L).IsRun σ ι)
    (hlaw : ∀ h, (σ 0).hart.Reaches h → h.Lawful C K) (ha : Machine.Answered σ ι) (n : ℕ) :
    ∃ m ≥ n, (σ m).cpu.core.globalMemStall ((σ m).seen (ι m)) = false := by
  by_contra hno
  have hz : ∀ k ≥ n, (σ k).cpu.core.globalMemStall ((σ k).seen (ι k)) := fun k hk =>
    Bool.not_eq_false _ ▸ fun hg => hno ⟨k, hk, hg⟩
  have hcore := isRun_machineCores hrun
  have hphase : ∀ k, (σ k).cpu.InPhase := Cpu.inPhase_of_isRun (isRun_cpus hrun)
  have hcarries : ∀ k, (∃ m, (σ k).cpu.icache.bramCache.Inv m) ∧
      (∃ lower cm, (σ k).cpu.dcache.coreInst.Inv lower cm) ∧ (σ k).cpu.core.Accesses := by
    intro k
    obtain ⟨h, hC⟩ := exists_carries hIC hDC hK hrun hlaw k
    obtain ⟨m, hm, -⟩ := hC.holds.icache
    obtain ⟨held, taken, hinv, -⟩ := hC.serves
    obtain ⟨cm, hcm, -⟩ := hinv.cache
    exact ⟨⟨m, hm⟩, ⟨_, cm, hcm⟩, hC.accesses hrun⟩
  -- one after the other, all but the two sides are done
  have hamo := amo_done hcore hz fun N hN hw => data_answered hrun hz hphase ha (fun k =>
    (hcarries k).2.1) hN
    fun k hk => by
      have hwait : (σ k).cpu.core.amoWaits := hw k hk
      have hisAmo : (σ k).cpu.core.exMem.isAmo := by
        simp only [Core.amoWaits, Core.amoReadPhase, Core.amoWritePhase, Bool.or_eq_true,
          Bool.and_eq_true] at hwait
        exact hwait.elim And.left fun h => h.1.1
      rw [Core.dcacheValid_of_amoWaits hwait]
      exact (hcarries k).2.2.cacheable hisAmo
  have hothers := (div_done hcore hz).and <| (port_done hcore hz Core.lawful_uartPort ha.uart).and <|
    (port_done hcore hz Core.lawful_intcPort ha.intc).and <|
      (port_done hcore hz Core.lawful_accelPort ha.accel).and hamo
  obtain ⟨M, hM⟩ := Filter.eventually_atTop.1 (hothers.and (Filter.eventually_ge_atTop n))
  obtain ⟨k, hk, hi, hd⟩ := sides_together hrun hz hIC hpos hphase ha (fun k => (hcarries k).1)
    (fun k => (hcarries k).2.1) (hM M le_rfl).2 fun k hk => (hM k hk).1.2.2.2.2
  obtain ⟨⟨hdiv, hu, hn, hx, hs⟩, hnk⟩ := hM k hk
  have hg := hz k hnk
  have hport : ∀ {valid done : Bool}, (valid → done) → (valid && !done) = false := by decide
  rw [Core.globalMemStall, hd, hi, show (σ k).cpu.core.divStall = false from hdiv,
    show (σ k).cpu.core.amoStall = false from hs, show (σ k).cpu.core.uartStall = false from hport hu,
    show (σ k).cpu.core.intcStall = false from hport hn,
    show (σ k).cpu.core.accelStall = false from hport hx] at hg
  cases hg

end

/-! ## From fetch to MEM -/

/-- A pipeline that moves on executes: what is fetched gets to MEM, unless a trap is taken on the way. -/
theorem exists_executes {L : BitVec 16} {σ : ℕ → Core} {ι : ℕ → CoreInputs} {π : ℕ → Predictor}
    (h : (core L).IsRun σ fun n => (ι n, π n)) (hmoves : ∀ n, ∃ m ≥ n,
      (σ m).globalMemStall (ι m) = false) (n : ℕ) :
    ∃ m ≥ n, (σ m).leavesMem (ι m) ∨ ((σ m).trap (ι m)).pcTrapOverride := by
  by_contra hno
  -- a slot that is a bubble on every move has been left a bubble
  have hslot : ∀ v : Core → Bool, (∀ k, (σ k).globalMemStall (ι k) → v (σ (k + 1)) = v (σ k)) →
      (∀ m ≥ n, (σ m).globalMemStall (ι m) = false → v (σ m) = false) →
      ∀ m ≥ n, v (σ (m + 1)) = false := by
    intro v hstay hbubble m hm
    have hwait : LeadsTo (fun k => v (σ k)) fun k => v (σ k) ∧ (σ k).globalMemStall (ι k) = false :=
      .waits (fun k hv hg => (hstay k (Bool.not_eq_false _ ▸ hg)).trans hv) fun k _ => hmoves k
    refine Bool.eq_false_iff.2 fun hv => ?_
    obtain ⟨k, hk, hv', hg⟩ := hwait (m + 1) hv
    rw [hbubble k (hm.trans (Nat.le_of_succ_le hk)) hg] at hv'
    cases hv'
  have htrap : ∀ m ≥ n, ((σ m).trap (ι m)).pcTrapOverride = false := fun m hm =>
    Bool.eq_false_iff.2 fun ht => hno ⟨m, hm, .inr ht⟩
  have hexMem : ∀ m ≥ n, (σ m).globalMemStall (ι m) = false → (σ m).exMem.valid = false :=
      fun m hm hg =>
    Bool.eq_false_iff.2 fun hv => hno ⟨m, hm, .inl (by rw [Core.leavesMem, hv, hg]; rfl)⟩
  have hidEx : ∀ m ≥ n, (σ m).globalMemStall (ι m) = false → (σ m).idEx.valid = false := by
    intro m hm hg
    have hnext := hslot (fun s => s.exMem.valid)
      (fun k hk => by rw [core_next h k]; exact congrArg ExMem.valid (Core.exMem_frozen hk)) hexMem m hm
    rcases (σ m).nextExMem_cases (ι m) with ⟨hg', -⟩ | ⟨-, ht, -⟩ | ⟨-, -, he⟩
    · exact absurd (hg.symm.trans hg') Bool.false_ne_true
    · exact absurd ((htrap m hm).symm.trans ht) Bool.false_ne_true
    · rw [core_next h m] at hnext
      rwa [Core.nextWith_exMem, he] at hnext
  -- nothing holds or flushes the stages before it
  have hcases : ∀ m ≥ n, (σ m).globalMemStall (ι m) = false →
      ((σ m).nextIfId (ι m)).valid ∧ (σ m).nextIdEx (ι m) = (σ m).decoded := by
    intro m hm hg
    obtain ⟨hs, hp, ht⟩ := (wellFormed_of_reachable (h.reachable m)).of_bubble (i := ι m) (hidEx m hm hg)
    constructor
    · rcases (σ m).nextIfId_cases (ι m) with ⟨hx, -⟩ | ⟨-, hx, -⟩ |
        ⟨-, -, -, hx, -⟩ | ⟨-, -, -, -, he⟩
      · exact absurd (hg.symm.trans hx) Bool.false_ne_true
      · exact hx.elim (fun hx => absurd (hp.symm.trans hx) Bool.false_ne_true)
          fun hx => absurd (ht.symm.trans hx) Bool.false_ne_true
      · exact absurd (hs.symm.trans hx) Bool.false_ne_true
      · rw [he]
    · rcases (σ m).nextIdEx_cases (ι m) with ⟨hx, -⟩ | ⟨-, hx, -⟩ | ⟨-, -, -, -, he⟩
      · exact absurd (hg.symm.trans hx) Bool.false_ne_true
      · simp [hp, hs, ht] at hx
      · exact he
  have hifId : ∀ m ≥ n, (σ m).globalMemStall (ι m) = false → (σ m).ifId.valid = false := by
    intro m hm hg
    have hnext := hslot (fun s => s.idEx.valid) (fun k hk => by
      rw [core_next h k]
      show ((σ k).nextIdEx (ι k)).valid = _
      rw [Core.nextIdEx, hk, if_pos rfl]) hidEx m hm
    rwa [core_next h m, Core.nextWith_idEx, (hcases m hm hg).2] at hnext
  obtain ⟨m, hm, hg⟩ := hmoves n
  have hnext := hslot (fun s => s.ifId.valid) (fun k hk => by
    rw [core_next h k, Core.nextWith_ifId, Core.nextIfId, hk, if_pos rfl]) hifId m hm
  rw [core_next h m, Core.nextWith_ifId, (hcases m hm hg).1] at hnext
  cases hnext

/-! ## Runs -/

/-- The hart goes on: if the line memory and the peripherals answer what they are asked, then in
    every run of a program that is lawful in every state that it reaches, again and again an
    instruction is executed, a trap is taken, or `mret` returns from one. -/
theorem goes_on_of_isRun {L : BitVec 16} {σ : ℕ → Machine IC DC K} {ι : ℕ → CpuInputs IC}
    (hIC : IC ≤ 28) (hpos : 0 < IC)
    (hDC : DC ≤ 28) (hK : K ≤ 28) (hrun : (machine IC DC K L).IsRun σ ι)
    (hlaw : ∀ h, (σ 0).hart.Reaches h → h.Lawful C K) (ha : Machine.Answered σ ι) (n : ℕ) :
    ∃ m ≥ n, (σ m).cpu.core.leavesMem ((σ m).seen (ι m)) ∨
      ((σ m).cpu.core.trap ((σ m).seen (ι m))).pcTrapOverride :=
  exists_executes (isRun_machineCores hrun) (exists_moves hIC hpos hDC hK hrun hlaw ha) n

/-! ### The loop that stores, with a system that answers at once -/

/-- A cycle on which everybody who is asked answers. -/
def Machine.prompt (s : Machine 11 10 14) : CpuInputs 11 :=
  { CpuInputs.ready with
    core := { CoreInputs.ready with
      uartReady := s.cpu.core.uart.pending
      intcReady := s.cpu.core.intc.pending
      accelReady := s.cpu.core.accel.pending }
    icMemRline := s.lower.line s.cpu.icache.bramCache.missAddrQ
    icMemReady := true
    dcMemRline := s.lower.line s.cpu.dcache.coreInst.memReqAddr
    dcMemReady := true }

def promptTrace : ℕ → Machine 11 10 14
  | 0 => storeMachine
  | n + 1 => (promptTrace n).next (promptTrace n).prompt 1023

theorem isRun_promptTrace : (machine 11 10 14 1023).IsRun promptTrace fun n => (promptTrace n).prompt :=
  ⟨isRun_storeTrace.init, fun _ => ⟨fun _ => rfl, fun _ => rfl, id, id, id⟩, fun _ => rfl⟩

theorem goes_on_promptTrace :
    ∃ m ≥ 100, (promptTrace m).cpu.core.leavesMem ((promptTrace m).seen (promptTrace m).prompt) ∨
      ((promptTrace m).cpu.core.trap ((promptTrace m).seen (promptTrace m).prompt)).pcTrapOverride :=
  goes_on_of_isRun (by decide) (by decide) (by decide) (by decide) isRun_promptTrace
    (fun _ hr => (storeLoop_hart.reaches hr).lawful)
    ⟨fun n _ => ⟨n, le_rfl, rfl⟩, fun n _ => ⟨n, le_rfl, rfl⟩, fun n hp => ⟨n, le_rfl, hp⟩,
      fun n hp => ⟨n, le_rfl, hp⟩, fun n hp => ⟨n, le_rfl, hp⟩⟩ 100

end Rv32Soc
