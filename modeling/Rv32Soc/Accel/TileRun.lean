import Rv32Soc.Accel.Queue

/-!
# A tile on the accelerator

The load of a tile and the run of the array over it, wherever the two stand in a batch. The
accumulators then hold what the tile is for (`TileRun.acc_eq`), and the lines that have been
fetched are those of its operands (`TileRun.fetched`). Every memory has such a run
(`exists_tileRun`).
-/

namespace Rv32Soc

open MmAccel

/-- The tile of the descriptor `d` is loaded from the cycle `a` to the cycle `e`, with the lanes
    packed, and the array starts on it on the cycle `b`. The bus is silent, and no other load gets
    at its rows. -/
structure TileRun (p : MmParams) (m : Mem) (d : Descriptor) (σ : ℕ → MmAccel) (ι : ℕ → MmInputs)
    (χ : ℕ → Option Transfer) (a e b : ℕ) : Prop where
  load : LoadRun p m σ ι χ a
  conf : (σ (a + 1)).loadConfig = d.loadConfig p 0
  bOnly : (σ (a + 1)).ld.ldBOnly = d.bOnly
  lt : a < e
  done : (σ e).ld.ldDone
  first : ∀ k, a < k → k < e → (σ k).ld.ldDone = false
  keepA : (σ (b + 1)).buf.aMem = (σ e).buf.aMem
  keepB : (σ (b + 1)).buf.bMem = (σ e).buf.bMem
  start : (σ b).q.qState = .qComp
  calm : ∀ n, b ≤ n → n < doneAt p b d.kLen → (σ n).Calm (ι n)
  kLen : (σ (b + 1)).regs.kLen = d.kLen
  panel : (σ (b + 1)).regs.bPanelUse = d.panelUse p
  chunk : (σ b).ld.ldChunk < 2 ^ p.lplBits
  undisturbed : Undisturbed p σ ι b d.kLen

namespace TileRun

variable {p : MmParams} {m : Mem} {d : Descriptor} {σ : ℕ → MmAccel} {ι : ℕ → MmInputs}
  {χ : ℕ → Option Transfer} {a e b : ℕ}

/-- The operand buffers before the load, over the memory. -/
def before (m : Mem) (σ : ℕ → MmAccel) (a : ℕ) : TileState :=
  ⟨(σ (a + 1)).buf.aMem, (σ (a + 1)).buf.bMem, m⟩

theorem acc_eq (h : TileRun p m d σ ι χ a e b) (hd : p.GoodDim) (hm : p.maxK ≤ 128) (hK : 1 ≤ d.kLen)
    (hK' : d.kLen ≤ p.maxK) {i j : ℕ} (hi : i < p.dim) (hj : j < p.dim) :
    (σ (doneAt p b d.kLen)).arr.acc i j = ((before m σ a).load p 0 d).acc p d i j := by
  obtain ⟨hl, -⟩ := h.load.loaded hd hm h.lt h.done h.first
  rw [h.conf, h.bOnly] at hl
  obtain ⟨hA, hB⟩ := @TileState.loadRows_load p 0 (before m σ a) d
  have haMem : (σ (b + 1)).buf.aMem = ((before m σ a).load p 0 d).aMem :=
    (h.keepA.trans hl.aMem).trans hA
  have hbMem : (σ (b + 1)).buf.bMem = ((before m σ a).load p 0 d).bMem :=
    (h.keepB.trans hl.bMem).trans hB
  have hdim := hd.le
  have hb : b < doneAt p b d.kLen := by
    rw [doneAt]
    omega
  have hc := h.calm b le_rfl hb
  have hstart : (σ b).startAny (ι b) := by rw [hc.startAny, h.start]; rfl
  have hrun := array_of_run h.load.next hK hK' (by omega) h.chunk hstart h.kLen h.undisturbed
    (hc.writesCfg 15)
    (.inl h.start)
  rw [hrun.2.2 _ le_rfl (fun n h₁ h₂ => absurd (h₁.trans_lt h₂) (lt_irrefl _)) i hi j hj, h.panel]
  rw [TileState.acc, ← haMem, ← hbMem]
  rfl

/-- The rows of A are in the buffers already, as a tile that loads B only needs them. -/
def Resident (p : MmParams) (m : Mem) (d : Descriptor) (s : MmAccel) : Prop :=
  ∀ i < p.dim, ∀ r < (d.loadConfig p 0).lines p, s.buf.aMem i r =
    m.line ((d.loadConfig p 0).addr p false i r)

/-- The array multiplies what is in memory. -/
theorem acc_eq_dotProduct (h : TileRun p m d σ ι χ a e b) (hd : p.GoodDim) (hm : p.maxK ≤ 128)
    (hK : 1 ≤ d.kLen)
    (hK' : d.kLen ≤ p.maxK) (hpan : d.panelUse p = d.panelLoad p) (hres : d.bOnly →
      Resident p m d (σ (a + 1)))
    {i j : ℕ} (hi : i < p.dim) (hj : j < p.dim) :
    (σ (doneAt p b d.kLen)).arr.acc i j =
      dotProduct (fun k => rowByte (m.line ((d.loadConfig p 0).addr p false i (k / 16))) k)
        (fun k => rowByte (m.line ((d.loadConfig p 0).addr p true j (k / 16))) k) d.kLen := by
  rw [h.acc_eq hd hm hK hK' hi hj, TileState.acc]
  refine dotProduct_congr fun k hk => ?_
  have hr : k / 16 < (d.loadConfig p 0).lines p := lt_linesOf p hk hK'
  constructor
  · simp only [TileState.load, before]
    split_ifs with hb
    · rfl
    · have hbo : d.bOnly = true := by
        by_contra hbo
        exact hb ⟨Bool.eq_false_iff.2 hbo, hi, hr⟩
      rw [hres hbo i hi _ hr]
  · have hrow := p.bAddr_eq (d.panelLoad p) (k / 16)
    have hbase := p.bAddr_eq (d.panelLoad p) 0
    simp only [TileState.load, before, hpan]
    rw [if_pos ⟨hj, by omega, by omega⟩, hrow, hbase, Nat.add_zero, Nat.add_sub_cancel_left]

/-- What comes in is the line of a row of the panel that is loaded. -/
theorem fetched (h : TileRun p m d σ ι χ a e b) (hd : p.GoodDim) (hm : p.maxK ≤ 128) {n : ℕ}
    (hn : a < n) (hne : n < e) {t : Transfer} (ht : χ n = some t) :
    ∃ i < p.dim, ∃ r < (d.loadConfig p 0).lines p,
      t.next = (d.loadConfig p 0).addr p (σ n).ld.ldInB i r := by
  obtain ⟨hl, -⟩ := h.load.taken_le hd hm hn fun k h₁ h₂ => h.first k h₁ (h₂.trans_lt hne)
  have hconf := hl.conf.trans h.conf
  have hchunk := hl.chunk
  rw [ldLines_of_conf hconf] at hchunk
  exact ⟨_, hl.lane, _, hchunk, (hl.serve t ht).1.trans (ldNextAddr_of_conf hconf)⟩

end TileRun

/-! ## There is one over every memory -/

namespace TileRun

variable (p : MmParams) (m : Mem) (d : Descriptor)

/-- The descriptor has been adopted, and the rows of A are there. -/
def adoptedTile : MmAccel :=
  { resetMm with
    buf := { resetMm.buf with aMem := fun i r => m.line ((d.loadConfig p 0).addr p false i r) }
    regs :=
      { resetMm.regs with
        ldKLen := d.kLen
        aSrcAddr := d.aSrc
        bSrcAddr := d.bSrc
        bPanelLoad := d.panelLoad p }
    q :=
      { resetMm.q with
        qRun := true
        qBusy := true
        qState := .qLoad
        qBOnly := d.bOnly
        stgKLen := d.kLen
        stgPanelUse := d.panelUse p
        stgDest := d.dest } }

/-- Every line that is asked for comes at once. -/
def serve (x : Option Transfer) : MmInputs :=
  match x with
  | some t => { MmInputs.quiet with memRdReady := true, memRline := m.line t.next }
  | none => .quiet

/-- The accelerator and its read channel, from the adoption on. -/
def served : ℕ → MmAccel × Option Transfer
  | 0 => (adoptedTile p m d, none)
  | n + 1 =>
    ((served n).1.next p (serve m (served n).2),
      (served n).1.rdNext p true (serve m (served n).2).memRdReady (served n).2)

variable {p m d}

theorem calm_serve (s : MmAccel) (x : Option Transfer) : s.Calm (serve m x) where
  write := by cases x <;> rfl

theorem readService_served :
    ReadService p m (fun n => (served p m d n).1) (fun n => serve m (served p m d n).2) fun n =>
      (served p m d n).2 where
  next _ := ⟨true, rfl⟩
  line n hr := by
    cases hx : (served p m d n).2 with
    | none =>
      rw [hx] at hr
      exact absurd hr nofun
    | some t => exact ⟨t, rfl, rfl⟩

theorem readFair_served :
    ReadFair (fun n => (served p m d n).1) (fun n => serve m (served p m d n).2) fun n =>
      (served p m d n).2 where
  grant n hn hv := by
    refine ⟨n, le_rfl, ?_⟩
    change (served p m d n).1.rdNext p true _ (served p m d n).2 ≠ none
    rw [hn, rdNext, hv]
    simp
  serve n hn := by
    refine ⟨n, le_rfl, ?_⟩
    obtain ⟨t, ht⟩ := Option.ne_none_iff_exists'.1 hn
    rw [ht]
    rfl

/-- The sequencer waits for the load. -/
structure Waiting (d : Descriptor) (p : MmParams) (s : MmAccel) : Prop where
  state : s.q.qState = .qLoadW
  pre : s.q.preBusy = false
  pend : s.q.prePend = false
  queue : s.q.descQ = []
  kLen : s.q.stgKLen = d.kLen
  panel : s.q.stgPanelUse = d.panelUse p

/-- The sequencer has nothing more to load or to start. -/
structure Last (s : MmAccel) : Prop where
  state : s.q.qState = .qCompW ∨ s.q.qState = .qStore ∨ s.q.qState = .qStoreW ∨ s.q.qState = .qIdle
  pre : s.q.preBusy = false
  pend : s.q.prePend = false
  queue : s.q.descQ = []
  busy : s.ld.ldBusy = false

variable {s : MmAccel} {i : MmInputs}

theorem Waiting.adopted (h : Waiting d p s) : s.adopted p = none ∧ s.prefetches p = false :=
  adopted_eq_none (by rw [h.state]; decide) (by rw [h.state]; decide) fun he =>
    absurd (h.state.symm.trans he) nofun

theorem Waiting.next (h : Waiting d p s) (hc : s.Calm i) (hd : s.ld.ldDone = false) :
    Waiting d p (s.next p i) := by
  obtain ⟨ha, hf⟩ := h.adopted
  obtain ⟨hq, -, hk, hu, -⟩ := hc.staged_next (p := p)
  obtain ⟨hb, -, hp, -⟩ := hc.pre_next (p := p)
  rw [ha] at hq hk hu
  refine ⟨?_, ?_, ?_, hq.trans h.queue, hk.trans h.kLen, hu.trans h.panel⟩
  · rw [hc.qState_next, h.state, hd]
    rfl
  · rw [hb, hf, h.pre]
    rfl
  · rw [hp, hf, h.pend]
    rfl

theorem Last.adopted (h : Last s) : s.adopted p = none ∧ s.prefetches p = false := by
  have hidle : s.adoptsIdle = false := by simp [adoptsIdle, h.queue]
  have hf : s.prefetches p = false := by simp [prefetches, h.queue]
  rw [MmAccel.adopted, hidle, hf]
  exact ⟨rfl, rfl⟩

theorem Last.starts (h : Last s) (hc : s.Calm i) :
    s.startAny i = false ∧ s.ldStartAny i = false ∧ s.captures i = false := by
  have hcomp : (s.q.qState == .qComp) = false ∧ (s.q.qState == .qLoad) = false := by
    rcases h.state with h | h | h | h <;> rw [h] <;> exact ⟨rfl, rfl⟩
  have hld : s.ldStartAny i = false := by rw [hc.ldStartAny, hcomp.2, h.pend]; rfl
  refine ⟨hc.startAny.trans hcomp.1, hld, ?_⟩
  rw [captures, h.busy, Bool.and_false, Bool.false_and]

/-- Nothing is loaded while the sequencer starts nothing. -/
theorem ld_next (hc : s.Calm i) (hs : s.ldStartAny i = false) (hb : s.ld.ldBusy = false) :
    (s.next p i).ld = s.ld := by
  rw [next_ld, nextLd, nextLd', hc.reset, hs, hb]
  rfl

theorem Last.next (h : Last s) (hc : s.Calm i) : Last (s.next p i) := by
  obtain ⟨ha, hf⟩ := h.adopted (p := p)
  obtain ⟨hq, -⟩ := hc.staged_next (p := p)
  obtain ⟨hb, -, hp, -⟩ := hc.pre_next (p := p)
  rw [ha] at hq
  refine ⟨?_, ?_, ?_, hq.trans h.queue, ?_⟩
  · have hidle : s.adoptsIdle = false := by simp [adoptsIdle, h.queue]
    rw [hc.qState_next, hidle, h.pre]
    rcases h.state with h | h | h | h <;> rw [h] <;> dsimp only
    · split_ifs <;> simp
    · simp
    · split_ifs <;> simp_all
    · simp
  · rw [hb, hf, h.pre]
    rfl
  · rw [hp, hf, h.pend]
    rfl
  · rw [ld_next hc (h.starts hc).2.1 h.busy]
    exact h.busy

/-- From the end of the load on, the array is two edges away. -/
theorem Waiting.starts {j : MmInputs} (h : Waiting d p s) (hi : s.Calm i) (hj : (s.next p i).Calm j)
    (hb : s.ld.ldBusy = false) (hd : s.ld.ldDone = true) :
    let s₁ := s.next p i
    let s₂ := s₁.next p j
    s₂.q.qState = .qComp ∧ s₂.buf.aMem = s.buf.aMem ∧ s₂.buf.bMem = s.buf.bMem ∧ s₂.ld = s.ld ∧
      s₂.regs.kLen = d.kLen ∧ s₂.regs.bPanelUse = d.panelUse p ∧ s₂.q.preBusy = false ∧
      s₂.q.prePend = false ∧
      s₂.q.descQ = [] := by
  intro s₁ s₂
  obtain ⟨ha, hf⟩ := h.adopted
  have hprom : s.promotes = true := by simp [promotes, h.state, hd]
  have hs : s.ldStartAny i = false := by rw [hi.ldStartAny, h.state, h.pend]; rfl
  obtain ⟨hq₁, -⟩ := hi.staged_next (p := p)
  obtain ⟨hb₁, -, hp₁, -⟩ := hi.pre_next (p := p)
  obtain ⟨hk₁, hu₁, -⟩ := hi.tile_next (p := p)
  obtain ⟨hA₁, hB₁⟩ := Job.nextBuf_of_rests hi hb p
  have hld₁ : s₁.ld = s.ld := ld_next hi hs hb
  have hstate₁ : s₁.q.qState = .qPreIssue := by
    show (s.next p i).q.qState = _
    rw [hi.qState_next, h.state, hd]
    rfl
  rw [ha] at hq₁
  rw [hprom] at hk₁ hu₁
  -- `qPreIssue`: the queue is empty, and nothing is prefetched
  have hqueue₁ : s₁.q.descQ = [] := hq₁.trans h.queue
  have hpre₁ : s₁.q.preBusy = false := by rw [hb₁, hf, h.pre]; rfl
  have hpend₁ : s₁.q.prePend = false := by rw [hp₁, hf, h.pend]; rfl
  have hf₁ : s₁.prefetches p = false := by simp [prefetches, hqueue₁]
  have ha₁ : s₁.adopted p = none := by simp [MmAccel.adopted, adoptsIdle, hf₁, hstate₁]
  have hprom₁ : s₁.promotes = false := by simp [promotes, hstate₁]
  have hs₁ : s₁.ldStartAny j = false := by rw [hj.ldStartAny, hstate₁, hpend₁]; rfl
  have hbusy₁ : s₁.ld.ldBusy = false := hld₁ ▸ hb
  obtain ⟨hq₂, -⟩ := hj.staged_next (p := p)
  obtain ⟨hb₂, -, hp₂, -⟩ := hj.pre_next (p := p)
  obtain ⟨hk₂, hu₂, -⟩ := hj.tile_next (p := p)
  obtain ⟨hA₂, hB₂⟩ := Job.nextBuf_of_rests hj hbusy₁ p
  rw [ha₁] at hq₂
  rw [hprom₁] at hk₂ hu₂
  refine ⟨?_, hA₂.trans hA₁, hB₂.trans hB₁, (ld_next hj hs₁ hbusy₁).trans hld₁, ?_, ?_, ?_, ?_,
    hq₂.trans hqueue₁⟩
  · show (s₁.next p j).q.qState = _
    rw [hj.qState_next, hstate₁]
  · exact hk₂.trans (hk₁.trans h.kLen)
  · exact hu₂.trans (hu₁.trans h.panel)
  · rw [hb₂, hf₁, hpre₁]
    rfl
  · rw [hp₂, hf₁, hpend₁]
    rfl

/-- The array is started, and the sequencer has nothing more to load. -/
theorem last_of_qComp (hc : s.Calm i) (hstate : s.q.qState = .qComp) (hpre : s.q.preBusy = false)
    (hpend : s.q.prePend = false) (hqueue : s.q.descQ = []) (hb : s.ld.ldBusy = false) :
    Last (s.next p i) ∧ (s.next p i).regs.kLen = s.regs.kLen ∧
    (s.next p i).regs.bPanelUse = s.regs.bPanelUse ∧
      (s.next p i).buf.aMem = s.buf.aMem ∧ (s.next p i).buf.bMem = s.buf.bMem := by
  have hf : s.prefetches p = false := by simp [prefetches, hqueue]
  have ha : s.adopted p = none := by simp [MmAccel.adopted, adoptsIdle, hf, hstate]
  have hprom : s.promotes = false := by simp [promotes, hstate]
  have hs : s.ldStartAny i = false := by rw [hc.ldStartAny, hstate, hpend]; rfl
  obtain ⟨hq, -⟩ := hc.staged_next (p := p)
  obtain ⟨hb', -, hp, -⟩ := hc.pre_next (p := p)
  obtain ⟨hk, hu, -⟩ := hc.tile_next (p := p)
  obtain ⟨hA, hB⟩ := Job.nextBuf_of_rests hc hb p
  rw [ha] at hq
  rw [hprom] at hk hu
  refine ⟨⟨.inl ?_, ?_, ?_, hq.trans hqueue, ?_⟩, hk, hu, hA, hB⟩
  · rw [hc.qState_next, hstate]
  · rw [hb', hf, hpre]
    rfl
  · rw [hp, hf, hpend]
    rfl
  · rw [ld_next hc hs hb]
    exact hb

theorem waiting_served {n : ℕ} (hn : 0 < n) (hno : ∀ k, 0 < k → k < n →
    (served p m d k).1.ld.ldDone = false) :
    Waiting d p (served p m d n).1 := by
  induction n, hn using Nat.le_induction with
  | base => exact ⟨rfl, rfl, rfl, rfl, rfl, rfl⟩
  | succ n hn ih =>
    exact (ih fun k h₁ h₂ => hno k h₁ (h₂.trans n.lt_succ_self)).next (calm_serve _ _)
      (hno n hn n.lt_succ_self)

theorem loadRun_served : LoadRun p m (fun n => (served p m d n).1) (fun n => serve m (served p m d n).2)
    (fun n => (served p m d n).2) 0 where
  next _ := rfl
  serve := readService_served
  start := by simp [MmAccel.ldStartAny, served, adoptedTile]
  reset := (calm_serve _ _).reset
  rest := rfl
  free := rfl
  alone n hn hno := by
    have hw := waiting_served hn fun k h₁ h₂ => hno k h₁ h₂.le
    refine (calm_serve _ _).loadAlone ?_ hw.adopted.1
    rw [(calm_serve _ _).ldStartAny, hw.state, hw.pend]
    rfl

theorem chunk_served (n : ℕ) : (served p m d n).1.ld.ldChunk < 2 ^ p.lplBits := by
  induction n with
  | zero => exact Nat.two_pow_pos _
  | succ n ih => exact ldChunk_next ih

end TileRun

variable {p : MmParams}

/-- A tile can be loaded from any memory, and computed. -/
theorem exists_tileRun (hd : p.GoodDim) (hm : p.maxK ≤ 128) (m : Mem) (d : Descriptor) :
    ∃ σ ι χ a e b, TileRun p m d σ ι χ a e b ∧ TileRun.Resident p m d (σ (a + 1)) := by
  have hload := TileRun.loadRun_served (p := p) (m := m) (d := d)
  have hends := hload.ends hd hm TileRun.readFair_served
  obtain ⟨e, ⟨hpos, hdone⟩, hno⟩ : ∃ e, (e > 0 ∧ (TileRun.served p m d e).1.ld.ldDone) ∧
      ∀ k, 0 < k → k < e → (TileRun.served p m d k).1.ld.ldDone = false :=
    ⟨Nat.find hends, Nat.find_spec hends, fun k h₁ h₂ =>
      Bool.eq_false_iff.2 fun hk => Nat.find_min hends h₂ ⟨h₁, hk⟩⟩
  obtain ⟨hl, -⟩ := hload.loaded hd hm hpos hdone hno
  have hwait := TileRun.waiting_served hpos hno
  obtain ⟨hstate, hA, hB, hld, hk, hu, hpre, hpend, hqueue⟩ := hwait.starts
    (TileRun.calm_serve _ (TileRun.served p m d e).2)
      (TileRun.calm_serve _ (TileRun.served p m d (e + 1)).2) hl.busy
    hdone
  have hcalm : ∀ n, (TileRun.served p m d n).1.Calm (TileRun.serve m (TileRun.served p m d n).2) :=
      fun n =>
    TileRun.calm_serve _ _
  obtain ⟨hlast, hk', hu', hA', hB'⟩ :=
    TileRun.last_of_qComp (p := p) (hcalm (e + 2)) hstate hpre hpend hqueue
    ((congrArg LoadEngine.ldBusy hld).trans hl.busy)
  have hrest : ∀ n, e + 2 < n → TileRun.Last (TileRun.served p m d n).1 := by
    intro n hn
    induction n, hn using Nat.le_induction with
    | base => exact hlast
    | succ n _ ih => exact ih.next (hcalm n)
  refine ⟨_, _, _, 0, e, e + 2, ⟨hload, rfl, rfl, hpos, hdone, hno, hA'.trans hA, hB'.trans hB, hstate,
    fun n _ _ => hcalm n, hk'.trans hk, hu'.trans hu, TileRun.chunk_served _,
    fun n _ _ => (hcalm n).reset,
    fun n h₁ _ => ((hrest n h₁).starts (hcalm n)).1, fun n h₁ _ hcap => ?_⟩, fun i _ r _ => ?_⟩
  · exact absurd (((hrest n h₁).starts (hcalm n)).2.2.symm.trans hcap) nofun
  · exact congrFun (congrFun (Job.nextBuf_of_rests (s := TileRun.adoptedTile p m d)
      (hcalm 0) rfl p).1 i) r

end Rv32Soc
