import Rv32Soc.Axi.PortTrace
import Rv32Soc.Axi.Transport

/-!
# The split path, seen from its ports

A run of line transport through `mem_arbiter_rw.v` and `axi_rw_engine.v` without timeouts
obeys the laws of the ports (`Transport.lawful_portTrace`): it is one of the two paths that
`MEM_PATH_RW` selects. Its reads and writes overlap, so that the two beats of a line may be
read from different memories: both are what the memory held while the request was.
-/

namespace Rv32Soc

namespace AxiRw

namespace Transport

/-- What a run is on its ports. -/
def portTrace (σ : ℕ → Transport) (ι : ℕ → TransportInputs) : PortTrace where
  mem n := (σ n).mem
  reads p n := ((σ n).reads p).map fun r => (r.req, r.got.length)
  writes p n := ((σ n).writes p).map (·.req)
  rReady p n := (σ n).rReady (ι n) p
  wReady p n := (σ n).wReady (ι n) p
  line n := (σ n).rd.rdRline

variable {TIMEOUT_LIMIT : BitVec 16} {σ : ℕ → Transport} {ι : ℕ → TransportInputs} {s : Transport}
  {i : TransportInputs}

theorem rDone_portTrace (p : RPort) (n : ℕ) : (portTrace σ ι).rDone p n = (σ n).rDone (ι n) p := by
  cases hr : (σ n).reads p <;> simp [PortTrace.rDone, portTrace, rDone, hr]

theorem wDone_portTrace (p : WPort) (n : ℕ) : (portTrace σ ι).wDone p n = (σ n).wDone (ι n) p := by
  cases hw : (σ n).writes p <;> simp [PortTrace.wDone, portTrace, wDone, hw]

/-! ## The reads -/

theorem reads_next_of_not_done {p : RPort} {r : ReadRec} (hr : s.reads p = some r)
    (hd : s.rDone i p = false) :
    (s.next TIMEOUT_LIMIT i).reads p = some (s.nextRead i p r) := by
  simp [next, rFree, hr, hd]

theorem reads_next_of_free {p : RPort} (hf : s.reads p = none ∨ s.rDone i p) :
    (s.next TIMEOUT_LIMIT i).reads p = s.raiseRd i p := by
  rcases hf with hr | hd
  · exact reads_next_none hr
  · simp [next, rFree, hd]

/-- Each beat of a read was in the memory at its place, while the read was held. -/
theorem seen_history (h : (transport TIMEOUT_LIMIT).IsRun σ ι) (p : RPort) (n : ℕ) :
    ∀ r, (σ n).reads p = some r → ∀ j x, r.seen[j]? = some x →
      ∃ k < n, (∀ m, k ≤ m → m < n → (∃ r', (σ m).reads p = some r' ∧ r'.req = r.req) ∧
        (σ m).rDone (ι m) p = false) ∧
        x = (σ k).mem.part (16 / 2) (r.req.beatAddr 2 j) := by
  induction n with
  | zero =>
    intro r hr
    obtain ⟨-, -, -, -, -, hreads, -⟩ := h.init
    exact absurd ((hreads p).symm.trans hr) nofun
  | succ n ih =>
    intro r' hr' j x hx
    have hnext : σ (n + 1) = (σ n).next TIMEOUT_LIMIT (ι n) := h.next n
    rw [hnext] at hr'
    -- a beat recorded before this cycle
    have hold : ∀ r, (σ n).reads p = some r → (σ n).rDone (ι n) p = false → r.req = r'.req →
      r.seen[j]? = some x →
        ∃ k < n + 1, (∀ m, k ≤ m → m < n + 1 →
            (∃ r'', (σ m).reads p = some r'' ∧ r''.req = r'.req) ∧ (σ m).rDone (ι m) p = false) ∧
          x = (σ k).mem.part (16 / 2) (r'.req.beatAddr 2 j) := by
      intro r hr hd he hx
      obtain ⟨k, hk, hheld, hxk⟩ := ih r hr j x hx
      rw [← he]
      refine ⟨k, Nat.lt_succ_of_lt hk, fun m h₁ h₂ => ?_, hxk⟩
      rcases Nat.eq_or_lt_of_le (Nat.lt_succ_iff.1 h₂) with rfl | hlt
      · exact ⟨⟨r, hr, rfl⟩, hd⟩
      · exact hheld m h₁ hlt
    by_cases hf : (σ n).reads p = none ∨ (σ n).rDone (ι n) p
    · rw [reads_next_of_free hf] at hr'
      obtain ⟨q, -, rfl⟩ := raiseRd_eq_some hr'
      cases hx
    · obtain ⟨hne, hd⟩ := not_or.1 hf
      obtain ⟨r, hr⟩ := Option.ne_none_iff_exists'.1 hne
      rw [Bool.not_eq_true] at hd
      rw [reads_next_of_not_done hr hd] at hr'
      obtain rfl := Option.some_inj.1 hr'
      simp only [nextRead] at hx
      split_ifs at hx with hb
      · rcases Nat.lt_trichotomy j r.seen.length with hlt | rfl | hgt
        · rw [List.getElem?_append_left hlt] at hx
          exact hold r hr hd rfl hx
        · rw [List.getElem?_concat_length, Option.some_inj] at hx
          refine ⟨n, n.lt_succ_self, fun m h₁ h₂ => ?_, hx.symm⟩
          obtain rfl := Nat.le_antisymm (Nat.lt_succ_iff.1 h₂) h₁
          exact ⟨⟨r, hr, rfl⟩, hd⟩
        · rw [List.getElem?_eq_none (by simpa using Nat.succ_le_of_lt hgt)] at hx
          cases hx
      · exact hold r hr hd rfl hx

/-- So was each byte of a line that is delivered. -/
theorem line_history (h : (transport TIMEOUT_LIMIT).IsRun σ ι) {p : RPort} {n : ℕ} {r : ReadRec}
    (hr : (σ n).reads p = some r) (hready : (σ n).rReady (ι n) p) (o : BitVec 4) :
    ∃ k ≤ n, (∀ m, k ≤ m → m < n →
        (∃ r', (σ m).reads p = some r' ∧ r'.req = r.req) ∧ (σ m).rDone (ι m) p = false) ∧
      lineByte (σ n).rd.rdRline o = (σ k).mem (lineNo (r.req.lineAddr r.got.length) ++ o) := by
  have hinv := inv_of_reachable (h.reachable n)
  rw [hinv.rReady_eq hr, Bool.and_eq_true, decide_eq_true_iff] at hready
  have hb : o.toNat / 8 < 2 := by
    have := o.isLt
    omega
  obtain ⟨k, hk, hheld, hx⟩ := seen_history h p n r hr _ _ ((hinv.isLine hready.1 hr hready.2).2 _ hb)
  refine ⟨k, hk.le, hheld, ?_⟩
  rw [part_beatAddr (by decide) _ _ hb] at hx
  exact (lineByte_eq_of_linePart (n := 2) (w := 8) rfl o hx).trans (Mem.lineByte_line_append _ _ _)

/-! ## The writes -/

theorem writes_next_of_not_ready {p : WPort} {w : WriteRec} (hw : s.writes p = some w)
    (hd : s.wReady i p = false) :
    (s.next TIMEOUT_LIMIT i).writes p = some (s.nextWrite i p w) := by
  simp [next, wFree, wDone, hw, hd]

/-- The memory changes where a write that is not acknowledged may change it. -/
theorem Inv.mem_next (h : s.Inv) (x : Word)
    (hx : ∀ p w, s.writes p = some w → s.wReady i p = false → ¬(Op.write w.req).Covers x) :
    (s.next TIMEOUT_LIMIT i).mem x = s.mem x := by
  have hmem : (s.next TIMEOUT_LIMIT i).mem = (s.writeSys.next 2 TIMEOUT_LIMIT (s.writeIn i)).mem :=
    congrArg WriteSys.mem (writeSys_next TIMEOUT_LIMIT (i := i) h.toLink h.wr)
  rw [hmem]
  by_cases hst : s.wr.wrState = .WR_DATA
  · obtain ⟨p, w, hp, hw⟩ := h.wState_of_wrState (.inl (by simp [hst]))
    have hready : s.wReady i p = false := by simp [h.wReady_eq hw, WrRegs.wrReady, hst]
    obtain ⟨w', hw', ha, hl, -⟩ := h.wServed p hp
    obtain rfl : w = w' := Option.some_inj.1 (hw.symm.trans hw')
    refine h.wr.mem_next_outside (r := ⟨s.arb.wAddr, s.arb.wLines, w.req.line⟩) (by decide)
      (by rw [writeSys_busy hp hw]) ?_
    rw [count_served_wr hl, WReq.base, ha]
    exact hx p w hw hready
  · exact congrFun (WriteSys.mem_next_of_rest hst) x

/-! ## The laws -/

theorem lawful_portTrace (h : (transport TIMEOUT_LIMIT).IsRun σ ι) : (portTrace σ ι).Lawful := by
  have hinv : ∀ n, (σ n).Inv := fun n => inv_of_reachable (h.reachable n)
  have hnext : ∀ n, σ (n + 1) = (σ n).next TIMEOUT_LIMIT (ι n) := h.next
  obtain ⟨-, -, -, -, -, hreads, hwrites⟩ := h.init
  constructor
  case initRd => simp [portTrace, hreads]
  case initWr => simp [portTrace, hwrites]
  case dcache =>
    intro n
    rcases (hinv n).dcache with hd | hd
    · exact .inl (by simp [portTrace, hd])
    · exact .inr (by simp [portTrace, hd])
  case dport => exact fun n => rfl
  case holdRd =>
    intro p n r hr hd
    obtain ⟨q, hq, rfl⟩ := Option.map_eq_some_iff.1 hr
    rw [rDone_portTrace] at hd
    simp only [portTrace]
    rw [hnext, reads_next_of_not_done hq hd]
    cases hready : (σ n).rReady (ι n) p <;> simp [nextRead, hready]
  case fresh =>
    intro p n hf r hr
    obtain ⟨q, hq, rfl⟩ := Option.map_eq_some_iff.1 hr
    rw [rDone_portTrace] at hf
    rw [hnext, reads_next_of_free (hf.imp_left Option.map_eq_none_iff.1)] at hq
    obtain ⟨q, -, rfl⟩ := raiseRd_eq_some hq
    rfl
  case holdWr =>
    intro p n w hw hready
    obtain ⟨v, hv, rfl⟩ := Option.map_eq_some_iff.1 hw
    simp only [portTrace]
    rw [hnext, writes_next_of_not_ready hv hready]
    rfl
  case heldRd =>
    intro p n hready
    rcases (hinv n).inOrder.line p hready with ⟨r, hr, -, hlt, -⟩ | ⟨hp, -, hw⟩
    · exact .inl ⟨(r.req, r.got.length), by simp [portTrace, hr], hlt⟩
    · obtain ⟨w, hw⟩ := Option.isSome_iff_exists.1 hw
      exact .inr ⟨hp, w.req, by simp [portTrace, hw]⟩
  case heldWr =>
    intro n hready
    rcases (hinv n).inOrder.ack .A hready with ⟨w, hw, -⟩ | ⟨hp, -⟩
    · exact ⟨w.req, by simp [portTrace, hw]⟩
    · cases hp
  case line =>
    -- each byte was read at some cycle of the request, its two beats perhaps at different ones
    intro p n r hr hready o
    obtain ⟨q, hq, rfl⟩ := Option.map_eq_some_iff.1 hr
    obtain ⟨k, hk, hheld, hbyte⟩ := line_history h hq hready o
    refine ⟨k, hk, fun j h₁ h₂ => ?_, hbyte⟩
    obtain ⟨⟨r', hr', he⟩, hd⟩ := hheld j h₁ h₂
    exact ⟨⟨r'.got.length, by simp [portTrace, hr', he]⟩, (rDone_portTrace p j).trans hd⟩
  case frame =>
    intro n x hx
    simp only [portTrace]
    rw [hnext]
    exact (hinv n).mem_next x fun p w hw hready => hx p w.req (by simp [portTrace, hw]) hready
  case written =>
    intro p n w hw hready x hx
    obtain ⟨v, hv, rfl⟩ := Option.map_eq_some_iff.1 hw
    simp only [portTrace, (hinv n).wReady_eq hv, Bool.and_eq_true, decide_eq_true_iff] at hready
    have hmem := ((hinv n).sent_of_wrReady hready.1 hv hready.2).2.2
    calc (σ n).mem x = (Op.write v.req).exec (σ n).mem0 x := congrFun hmem x
      _ = (Op.write v.req).exec (σ n).mem x := Op.exec_of_covers hx
  case progress =>
    intro n hsome
    rcases hsome with ⟨p, hp⟩ | ⟨p, hp⟩
    · obtain ⟨r, hr⟩ := Option.isSome_iff_exists.1 (Option.isSome_map ▸ hp)
      obtain ⟨m, hm, -, hd⟩ := exists_rDone h hr
      exact ⟨m, hm, .inl ⟨p, (rDone_portTrace p m).trans hd⟩⟩
    · obtain ⟨w, hw⟩ := Option.isSome_iff_exists.1 (Option.isSome_map ▸ hp)
      obtain ⟨m, hm, -, hd⟩ := exists_wDone h hw
      exact ⟨m, hm, .inr ⟨p, (wDone_portTrace p m).trans hd⟩⟩

/-- A port that raises nothing is left without a request. -/
theorem portTrace_reads_eq_none (h : (transport TIMEOUT_LIMIT).IsRun σ ι) {p : RPort} {n : ℕ}
    (hs : (ι n).startRd p = none) (hf : (portTrace σ ι).reads p n = none ∨ (portTrace σ ι).rDone p n) :
    (portTrace σ ι).reads p (n + 1) = none := by
  have hnext : σ (n + 1) = (σ n).next TIMEOUT_LIMIT (ι n) := h.next n
  rw [rDone_portTrace] at hf
  simp only [portTrace]
  rw [hnext, reads_next_of_free (hf.imp_left Option.map_eq_none_iff.1)]
  simp [raiseRd, hs]

theorem portTrace_writes_eq_none (h : (transport TIMEOUT_LIMIT).IsRun σ ι) {p : WPort} {n : ℕ}
    (hs : (ι n).startWr p = none) (hf : (portTrace σ ι).writes p n = none ∨ (portTrace σ ι).wReady p n) :
    (portTrace σ ι).writes p (n + 1) = none := by
  have hnext : σ (n + 1) = (σ n).next TIMEOUT_LIMIT (ι n) := h.next n
  have hfree : (σ n).wFree (ι n) p := by
    cases hw : (σ n).writes p with
    | none => simp [wFree, hw]
    | some w =>
      have hready : (σ n).wReady (ι n) p := hf.resolve_left (by simp [portTrace, hw])
      simp [wFree, wDone, hw, hready]
  simp only [portTrace]
  rw [hnext]
  simp [next, hfree, raiseWr, hs]

end Transport

end AxiRw

end Rv32Soc
