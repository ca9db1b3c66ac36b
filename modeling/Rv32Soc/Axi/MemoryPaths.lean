import Rv32Soc.Axi.Legacy
import Rv32Soc.Axi.SplitPath

/-!
# The two memory paths

`MEM_PATH_RW` selects between `mem_arbiter_rw.v` over `axi_rw_engine.v` and
`accel_port_join.v` over `mem_arbiter.v` and `axi_cache_adapter.v`. The first serves a read
and a write at once, the second one request at a time, and both take the requesters in
their own order; as long as no location that one channel writes is used by another, this
cannot be seen (`memoryPaths_agree`).
-/

namespace Rv32Soc

open AxiRw

/-- The two paths deliver the lines of the same requests in the same order on each channel, and
    leave the same memory; each does serve all the requests that are raised. The join of the legacy
    path keeps its channels apart, whatever is on its ports. -/
theorem memoryPaths_agree {TIMEOUT_LIMIT TIMEOUT_LIMIT' : BitVec 16} {σ : ℕ → Transport}
    {ι : ℕ → TransportInputs}
    {σ' : ℕ → Legacy} {ι' : ℕ → TransportInputs} {prog : Channel → List Op}
    (h : (transport TIMEOUT_LIMIT).IsRun σ ι) (h' : (legacy TIMEOUT_LIMIT').IsRun σ' ι')
    (hr : RaceFree prog)
    (hm : (σ 0).mem = (σ' 0).bus.mem) (hf : (Transport.portTrace σ ι).lineTrace.Follows prog)
    (hf' : (Legacy.portTrace σ').lineTrace.Follows prog) :
    (∀ c n, (Transport.portTrace σ ι).lineTrace.delivered c n <+: Op.linesAll (σ 0).mem (prog c)) ∧
      (∀ c n, (Legacy.portTrace σ').lineTrace.delivered c n <+: Op.linesAll (σ 0).mem (prog c)) ∧
      ((Transport.portTrace σ ι).lineTrace.Fair prog →
        ∃ n, (Transport.portTrace σ ι).lineTrace.Finished prog n) ∧
      ((Legacy.portTrace σ').lineTrace.Fair prog →
        ∃ n, (Legacy.portTrace σ').lineTrace.Finished prog n) ∧
      (∀ n n', (Transport.portTrace σ ι).lineTrace.Finished prog n →
        (Legacy.portTrace σ').lineTrace.Finished prog n' →
        (∀ c, (Transport.portTrace σ ι).lineTrace.delivered c n =
          (Legacy.portTrace σ').lineTrace.delivered c n') ∧
          (σ n).mem = (σ' n').bus.mem) ∧
      ∀ ρ κ, PortJoin.portJoin.IsRun ρ κ → PortJoin.Orderly ρ κ := by
  have ht := (Transport.lawful_portTrace h).lineTrace
  have ht' := (Legacy.lawful_portTrace h').lineTrace
  refine ⟨fun c n => ht.delivered_prefix hf hr c n, fun c n => ?_, ht.finishes hf, ht'.finishes hf',
    fun n n' hn hn' => ?_, fun _ _ => PortJoin.orderly_of_isRun⟩
  · rw [hm]
    exact ht'.delivered_prefix hf' hr c n
  · exact ht.agree ht' hf hf' hr hm hn hn'

/-! ## The same requests on both -/

/-- The legacy path out of reset, over a memory of zeros. -/
def resetLegacy : Legacy where
  join := ⟨.S_IDLE, 0, 1, 0⟩
  bus := { resetLegacyBus with mem := fun _ => 0 }
  reads _ := none
  writes _ := none
  mem0 _ := 0

theorem isReset_resetLegacy : resetLegacy.IsReset :=
  ⟨⟨rfl, rfl, rfl, rfl⟩, isReset_resetLegacyBus, fun _ => rfl, fun _ => rfl⟩

/-- A memory that is always ready never lets a timeout come near. -/
theorem Legacy.Inv.timeoutCnt_next {TIMEOUT_LIMIT : BitVec 16} {s : Legacy} {n : ℕ} (h : s.Inv)
    (ht : s.bus.adp.timeout TIMEOUT_LIMIT = false) :
    (s.next TIMEOUT_LIMIT (allAtOnce n)).bus.adp.timeoutCnt = 0 := by
  have hprog : s.bus.adp.timeoutEligible →
      s.bus.adp.axiProgress (s.bus.adpIn 2 (s.busIn (allAtOnce n))) := by
    intro he
    cases hst : s.bus.adp.state with
    | IDLE | DONE => simp [CacheAdapter.Regs.timeoutEligible, hst] at he
    | READ_DATA =>
      -- A beat comes as soon as the memory has a transaction, which the data phase implies.
      have hfsm := h.bus.fsm
      simp only [LegacyBus.Fsm, hst] at hfsm
      obtain ⟨p, hp⟩ := Option.isSome_iff_exists.1 hfsm.1
      obtain ⟨-, -, hphase⟩ := (h.bus.read hfsm.2.1).active _ (LegacyBus.rreq_reading hp hfsm.2.1)
      have heng : (s.bus.readSys 2).eng.rdState = .RD_DATA := by
        simp [LegacyBus.readSys, CacheAdapter.Regs.readEngine, hst]
      have htx : s.bus.rtxn.isSome := by
        cases hphase with
        | reading _ hread => rw [show s.bus.rtxn = _ from hread.txn]; rfl
        | fresh st | again st | offered st | last st | held st =>
          exact absurd (heng.symm.trans st) (by simp)
      simp [CacheAdapter.Regs.axiProgress, CacheAdapter.Regs.mAxiRready, hst, LegacyBus.adpIn,
        Legacy.busIn, allAtOnce, htx]
    | _ =>
      -- In the other phases the slave is ready on the spot.
      simp [CacheAdapter.Regs.axiProgress, CacheAdapter.Regs.mAxiArvalid, CacheAdapter.Regs.mAxiAwvalid,
        CacheAdapter.Regs.mAxiWvalid, CacheAdapter.Regs.mAxiBready, hst, LegacyBus.adpIn,
        Legacy.busIn, allAtOnce]
  have hnext : (s.next TIMEOUT_LIMIT (allAtOnce n)).bus.adp.timeoutCnt =
      if s.bus.adp.timeoutEligible then
        if s.bus.adp.axiProgress (s.bus.adpIn 2 (s.busIn (allAtOnce n))) then 0
            else s.bus.adp.timeoutCnt + 1
      else 0 := by
    simp [Legacy.next, LegacyBus.next, CacheAdapter.Regs.next, ht]
  rw [hnext]
  split_ifs with he hp
  · rfl
  · exact absurd (hprog he) hp
  · rfl

theorem isRun_legacy : (legacy 100).IsRun ((legacy 100).trace resetLegacy allAtOnce) allAtOnce := by
  have hadmits : ∀ {s : Legacy} {n : ℕ}, s.bus.adp.timeoutCnt = 0 →
      (legacy 100).admits s (allAtOnce n) :=
    fun {s n} h0 => ⟨fits_allAtOnce n, by simp [CacheAdapter.Regs.timeout, h0]⟩
  refine Circuit.isRun_trace isReset_resetLegacy fun n => hadmits ?_
  suffices h : ((legacy 100).trace resetLegacy allAtOnce n).Inv ∧
      ((legacy 100).trace resetLegacy allAtOnce n).bus.adp.timeoutCnt = 0 from h.2
  induction n with
  | zero => exact ⟨Legacy.inv_of_isReset isReset_resetLegacy, rfl⟩
  | succ n ih => exact ⟨ih.1.next (hadmits ih.2), ih.1.timeoutCnt_next (hadmits (n := n) ih.2).2⟩

/-- The requests of `allAtOnce`. -/
def opsAtOnce : Channel → List Op
  | .icache | .dcache => [.read ⟨0x1000, 1⟩]
  | .accelRd => [.read ⟨0x1000, 2⟩]
  | .accelWr => [.write ⟨0x2000, 2, fun k => BitVec.ofNat 128 (k + 1)⟩]

theorem raceFree_opsAtOnce : RaceFree opsAtOnce := by
  have hread : ∀ (l : BitVec 8) x, l.toNat ≤ 2 → (Op.read ⟨0x1000, l⟩).Covers x →
      (x - 0x1000).toNat < 32 := by
    intro l x hl hx
    have hcount : RReq.count ⟨0x1000, l⟩ ≤ 2 := by
      rw [RReq.count]
      split_ifs
      · decide
      · exact hl
    have hbase : RReq.base ⟨0x1000, l⟩ = 0x1000 := show lineBase 0x1000 = 0x1000 by decide
    rw [Op.Covers, hbase] at hx
    exact hx.trans_le (Nat.mul_le_mul_left 16 hcount)
  have hdisj : ∀ x : Word, (x - 0x2000).toNat < 32 → ¬(x - 0x1000).toNat < 32 := by
    intro x h₁ h₂
    rw [BitVec.toNat_sub] at h₁ h₂
    have := x.isLt
    simp only [BitVec.reduceToNat] at h₁ h₂
    omega
  intro c c' hne w hw o ho x hcov hcov'
  cases c with
  | icache | dcache | accelRd => simp [opsAtOnce] at hw
  | accelWr =>
    -- The one write is of the two lines at 0x2000; all reads are within those at 0x1000.
    obtain rfl : w = _ := by simpa [opsAtOnce] using hw
    have hbase : lineBase 0x2000 = 0x2000 := by decide
    have hcov : (x - lineBase 0x2000).toNat < 32 := hcov
    rw [hbase] at hcov
    refine hdisj x hcov ?_
    cases c' with
    | accelWr => exact absurd rfl hne
    | icache | dcache =>
      obtain rfl := List.mem_singleton.1 ho
      exact hread 1 x (by decide) hcov'
    | accelRd =>
      obtain rfl := List.mem_singleton.1 ho
      exact hread 2 x (by decide) hcov'

/-- Both paths serve them, with the same result. -/
theorem opsAtOnce_agree :
    ∃ n n', (∀ c, (Transport.portTrace ((transport 100).trace resetTransport allAtOnce)
      allAtOnce).lineTrace.delivered c n =
        (Legacy.portTrace ((legacy 100).trace resetLegacy allAtOnce)).lineTrace.delivered c n') ∧
      ((transport 100).trace resetTransport allAtOnce n).mem =
        ((legacy 100).trace resetLegacy allAtOnce n').bus.mem := by
  have hp := Transport.lawful_portTrace isRun_allAtOnce
  have hp' := Legacy.lawful_portTrace isRun_legacy
  have hrd : ∀ n ≥ 1, ∀ p, (allAtOnce n).startRd p = none := fun n hn p => by
    simp [allAtOnce, Nat.one_le_iff_ne_zero.1 hn]
  have hwr : ∀ n ≥ 1, ∀ p, (allAtOnce n).startWr p = none := fun n hn p => by
    simp [allAtOnce, Nat.one_le_iff_ne_zero.1 hn]
  have hone : ∀ c, ((Transport.portTrace ((transport 100).trace resetTransport allAtOnce)
    allAtOnce).lineTrace.op c
      1).toList = opsAtOnce c := fun c => by cases c <;> rfl
  have hone' :
    ∀ c, ((Legacy.portTrace ((legacy 100).trace resetLegacy allAtOnce)).lineTrace.op c 1).toList =
      opsAtOnce c := fun c => by cases c <;> rfl
  obtain ⟨hf, hfair⟩ := hp.lineTrace.once (fun c n hn => hp.op_eq_none
    (fun p => Transport.portTrace_reads_eq_none isRun_allAtOnce (hrd n hn p))
    (fun p => Transport.portTrace_writes_eq_none isRun_allAtOnce (hwr n hn p)) c) hone
  obtain ⟨hf', hfair'⟩ := hp'.lineTrace.once (fun c n hn => hp'.op_eq_none
    (fun p => Legacy.portTrace_reads_eq_none isRun_legacy (hrd n hn p))
    (fun p => Legacy.portTrace_writes_eq_none isRun_legacy (hwr n hn p)) c) hone'
  obtain ⟨-, -, hfin, hfin', hagree, -⟩ :=
    memoryPaths_agree isRun_allAtOnce isRun_legacy raceFree_opsAtOnce rfl hf hf'
  obtain ⟨n, hn⟩ := hfin hfair
  obtain ⟨n', hn'⟩ := hfin' hfair'
  exact ⟨n, n', hagree n n' hn hn'⟩

end Rv32Soc
