import Rv32Soc.Accel.Queue

/-!
# The phases of a batch

Where a batch stands, by the state of the sequencer: what each engine is doing, which tiles are
loaded, computed and stored, and which descriptor is staged. A phase counts the loads, the
runs of the array and the stores that have been started (`Phase`).

* `Ahead`: the tile after the one that is computed, which may be prefetched meanwhile;
* `Tail`: the store of the tile before, which goes on after the sequencer has left it;
* `Phase.next`: one edge, with what it starts (`Phase.starts`).
-/

namespace Rv32Soc

open MmAccel

namespace Job

variable {J : Job} {s : MmAccel} {i : MmInputs} {x : Option Transfer}
  {z : Option WriteTransfer} {m m' : Mem} {c w : ℕ} {d d' : Descriptor}

/-! ## What the sequencer holds -/

/-- What a batch leaves alone, while it runs. -/
structure Env (J : Job) (s : MmAccel) : Prop where
  stride : s.regs.srcStride = J.stride
  conf : s.storeConfig J.p = J.conf
  chunk : s.ld.ldChunk < 2 ^ J.p.lplBits
  run : s.q.qRun = true
  done : s.q.qDone = false

/-- The descriptor `d` is staged. -/
structure Staged (J : Job) (d : Descriptor) (s : MmAccel) : Prop where
  kLen : s.q.stgKLen = d.kLen
  panel : s.q.stgPanelUse = d.panelUse J.p
  dest : s.q.stgDest = d.dest

/-- The next load is the one of the descriptor `d`. -/
structure Fetch (J : Job) (d : Descriptor) (s : MmAccel) : Prop where
  conf : s.loadConfig = d.loadConfig J.p J.stride
  bOnly : s.q.qBOnly = d.bOnly

/-- Nothing is prefetched, and `c` tiles have been loaded. -/
structure Alone (J : Job) (c : ℕ) (s : MmAccel) (x : Option Transfer) : Prop where
  queue : s.q.descQ = J.ds.drop c
  preBusy : s.q.preBusy = false
  prePend : s.q.prePend = false
  load : LoadRests J c s x

/-- The tile `d'` after the tile `d` has been adopted as a prefetch, into another panel. -/
structure Prefetched (J : Job) (c : ℕ) (d d' : Descriptor) (s : MmAccel) : Prop where
  next : J.ds[c]? = some d'
  queue : s.q.descQ = J.ds.drop (c + 1)
  preBusy : s.q.preBusy = true
  staged : Staged J d' s
  bOnly : d'.bOnly = true
  panel : J.p.panel (d'.panelLoad J.p) ≠ J.p.panel (d.panelUse J.p)
  apart : PanelsKept J.p (J.ds.drop (c + 1))

/-- The tile after the tile `d`, with the number of loads that have been started. -/
inductive Ahead (J : Job) (c : ℕ) (d : Descriptor) (s : MmAccel) (x : Option Transfer) : ℕ → Prop
  | alone (h : Alone J c s x) (apart : PanelsKept J.p (J.ds.drop c)) : Ahead J c d s x c
  | loading {d' : Descriptor} (h : Prefetched J c d d' s) (pend : s.q.prePend = false)
      (done : s.q.preDone = false)
      (load : LoadBusy J c d' s x) : Ahead J c d s x (c + 1)
  | loaded {d' : Descriptor} (h : Prefetched J c d d' s) (pend : s.q.prePend = false)
      (load : LoadRests J (c + 1) s x)
      (done : s.q.preDone = true ∨ s.ld.ldDone = true ∧ s.q.ldDonePrev = false) : Ahead J c d s x (c + 1)

/-- The first `w` tiles are in memory, or the last of them is on its way, with no need of the array. -/
inductive Tail (J : Job) (s : MmAccel) (z : Option WriteTransfer) (m : Mem) : ℕ → Prop
  | rests {w : ℕ} (h : StoreRests J w s z m) : Tail J s z m w
  | busy {w : ℕ} {d : Descriptor} (hd : J.ds[w]? = some d)
      (h : StoreBusy J w d s z m J.conf.nGroupsEff) : Tail J s z m (w + 1)

/-! ## Edges on which nothing is adopted -/

theorem Env.next (h : Env J s) (hc : s.Calm i) (hd : s.drained = false) : Env J (s.next J.p i) := by
  obtain ⟨hrun, hdone⟩ := hc.run_next (p := J.p)
  refine ⟨hc.srcStride_next.trans h.stride, hc.storeConfig_next.trans h.conf,
    ldChunk_next h.chunk, ?_, ?_⟩
  · rw [hrun, hd, h.run]
    rfl
  · rw [hdone, hd, h.done]
    rfl

/-- The sequencer adopts nothing on this edge, and promotes nothing that has been prefetched. -/
structure Holds (J : Job) (s : MmAccel) : Prop where
  adopted : s.adopted J.p = none
  prefetches : s.prefetches J.p = false
  preW : (s.q.qState == .qPreW && s.q.preDone) = false

namespace Holds

theorem queue (h : Holds J s) (hc : s.Calm i) : (s.next J.p i).q.descQ = s.q.descQ := by
  rw [hc.staged_next.1, h.adopted]
  rfl

theorem preBusy (h : Holds J s) (hc : s.Calm i) : (s.next J.p i).q.preBusy = s.q.preBusy := by
  rw [hc.pre_next.1, h.prefetches, h.preW]
  simp

theorem prePend (h : Holds J s) (hc : s.Calm i) : (s.next J.p i).q.prePend = false := by
  rw [hc.pre_next.2.2.1, h.prefetches]
  rfl

theorem preDone (h : Holds J s) (hc : s.Calm i) :
    (s.next J.p i).q.preDone = ((s.ld.ldDone && !s.q.ldDonePrev && s.q.preBusy) || s.q.preDone) := by
  rw [hc.pre_next.2.1, h.prefetches, h.preW]
  simp

theorem ldDonePrev (hc : s.Calm i) : (s.next J.p i).q.ldDonePrev = s.ld.ldDone :=
  hc.pre_next (p := J.p).2.2.2

theorem staged (h : Holds J s) (hc : s.Calm i) (hs : Staged J d s) : Staged J d (s.next J.p i) := by
  obtain ⟨-, -, h₁, h₂, h₃⟩ := hc.staged_next (p := J.p)
  rw [h.adopted] at h₁ h₂ h₃
  exact ⟨h₁.trans hs.kLen, h₂.trans hs.panel, h₃.trans hs.dest⟩

end Holds

/-- Outside `qIdle` and `qPreIssue` nothing is adopted. -/
theorem holds_of_ne (h₁ : s.q.qState ≠ .qIdle) (h₂ : s.q.qState ≠ .qPreIssue)
    (h₃ : s.q.qState = .qPreW → s.q.preBusy = true ∧ s.q.preDone = false) : Holds J s := by
  obtain ⟨ha, hp⟩ := adopted_eq_none (p := J.p) h₁ h₂ fun hq => (h₃ hq).1
  refine ⟨ha, hp, ?_⟩
  by_cases hq : s.q.qState = .qPreW
  · rw [(h₃ hq).2, Bool.and_false]
  · rw [beq_false_of_ne hq, Bool.false_and]

theorem Current.next (h : Current J d s) (hc : s.Calm i) (hp : s.promotes = false) :
    Current J d (s.next J.p i) := by
  obtain ⟨h₁, h₂, h₃⟩ := hc.tile_next (p := J.p)
  rw [hp] at h₁ h₂ h₃
  exact ⟨h₁.trans h.kLen, h₂.trans h.panel, h₃.trans h.dest⟩

/-- The staged descriptor becomes the current one. -/
theorem Staged.promote (h : Staged J d s) (hc : s.Calm i) (hp : s.promotes = true) :
    Current J d (s.next J.p i) := by
  obtain ⟨h₁, h₂, h₃⟩ := hc.tile_next (p := J.p)
  rw [hp] at h₁ h₂ h₃
  exact ⟨h₁.trans h.kLen, h₂.trans h.panel, h₃.trans h.dest⟩

/-! ## The tile ahead, and the store behind -/

theorem Prefetched.next_hold (h : Prefetched J c d d' s) (hh : Holds J s) (hc : s.Calm i) :
    Prefetched J c d d' (s.next J.p i) where
  next := h.next
  queue := (hh.queue hc).trans h.queue
  preBusy := (hh.preBusy hc).trans h.preBusy
  staged := hh.staged hc h.staged
  bOnly := h.bOnly
  panel := h.panel
  apart := h.apart

theorem Alone.next (h : Alone J c s x) (hh : Holds J s) (hc : s.Calm i) (hs : s.q.qState ≠ .qLoad)
    (grant ready : Bool) :
    Alone J c (s.next J.p i) (s.rdNext J.p grant ready x) := by
  have hstart : s.ldStartAny i = false := by rw [hc.ldStartAny, h.prePend, beq_false_of_ne hs]; rfl
  exact ⟨(hh.queue hc).trans h.queue, (hh.preBusy hc).trans h.preBusy, hh.prePend hc,
    (h.load.next hc hstart grant ready).1⟩

/-- A prefetch goes on, whatever the sequencer waits for meanwhile. -/
theorem Ahead.next {l : ℕ} (h : Ahead J c d s x l) (hJ : J.Good) (hh : Holds J s) (hc : s.Calm i)
    (hs : s.q.qState ≠ .qLoad) (hr : J.Reads i x) (grant : Bool) :
    Ahead J c d (s.next J.p i) (s.rdNext J.p grant i.memRdReady x) l := by
  have hstart : s.q.prePend = false → s.ldStartAny i = false := fun hp => by
    rw [hc.ldStartAny, hp, beq_false_of_ne hs]
    rfl
  have hprev := Holds.ldDonePrev (J := J) hc
  cases h with
  | alone h apart => exact .alone (h.next hh hc hs grant _) apart
  | loading h pend done load =>
    rcases load.next hJ h.next hc (hstart pend) hh.adopted hr grant with ⟨hl, -⟩ | ⟨hl, hdone⟩
    · refine .loading (h.next_hold hh hc) (hh.prePend hc) ?_ hl
      rw [hh.preDone hc, load.load.done, done]
      rfl
    · refine .loaded (h.next_hold hh hc) (hh.prePend hc) hl (.inr ⟨hdone, ?_⟩)
      rw [hprev, load.load.done]
  | loaded h pend load done =>
    refine .loaded (h.next_hold hh hc) (hh.prePend hc) (load.next hc (hstart pend) grant _).1 (.inl ?_)
    rw [hh.preDone hc, h.preBusy]
    rcases done with hd | ⟨hd, hp⟩
    · simp [hd]
    · simp [hd, hp]

/-- What comes in during a run of the array goes to another panel. -/
theorem Ahead.captures {l : ℕ} (h : Ahead J c d s x l)
    (hcap : s.captures i = true) : s.ld.ldInB = true ∧
    J.p.panel s.regs.bPanelLoad ≠ J.p.panel (d.panelUse J.p) := by
  simp only [MmAccel.captures, Bool.and_eq_true] at hcap
  cases h with
  | alone h apart => simp [h.load.busy] at hcap
  | loading h pend done load =>
    refine ⟨load.load.bOnly (load.bOnly.trans h.bOnly), ?_⟩
    have hpanel := congrArg LoadConfig.bPanelLoad load.load.conf
    rw [show s.regs.bPanelLoad = _ from hpanel]
    exact h.panel
  | loaded h pend load done => simp [load.busy] at hcap

/-- The store of the tile before goes on. -/
theorem Tail.next (h : Tail J s z m w) (hJ : J.Good) (hc : s.Calm i)
    (hs : s.dmaStartAny i = false) {look : Bool} (hw : s.WriteServes i look z m m') (grant : Bool) :
    Tail J (s.next J.p i) (s.wrNext J.p i grant look z) m' w := by
  cases h with
  | rests h => exact .rests (h.next hc hs hw grant)
  | busy hd h =>
    have ha := storeAlone_of_storing h.store hJ hc hs fun hlt => absurd hlt (lt_irrefl _)
    rcases h.next hJ hd ha hw grant with ⟨f', hf', h'⟩ | ⟨h', -⟩
    · obtain rfl : f' = J.conf.nGroupsEff := le_antisymm h'.store.le hf'
      exact .busy hd h'
    · exact .rests h'

/-- The engine that stores is either at rest or busy. -/
theorem Tail.rests_of_busy (h : Tail J s z m w) (hb : s.st.dmaBusy = false) : StoreRests J w s z m := by
  cases h with
  | rests h => exact h
  | busy _ h => exact absurd (h.store.busy.symm.trans hb) (by simp)

/-! ## The phases -/

/-- Where a batch stands, with the loads, the runs of the array and the stores that have been started. -/
inductive Phase (J : Job) (s : MmAccel) (x : Option Transfer) (z : Option WriteTransfer) (m : Mem) :
    ℕ → ℕ → ℕ → Prop
  | idle {c : ℕ} (hq : s.q.qState = .qIdle) (alone : Alone J c s x)
      (apart : PanelsKept J.p (J.ds.drop c)) (tail : Tail J s z m c) : Phase J s x z m c c c
  | load {c : ℕ} {d : Descriptor} (hq : s.q.qState = .qLoad) (hd : J.ds[c]? = some d)
      (queue : s.q.descQ = J.ds.drop (c + 1)) (pre : s.q.preBusy = false) (pend : s.q.prePend = false)
      (staged : Staged J d s) (fetch : Fetch J d s) (load : LoadRests J c s x)
      (apart : PanelsKept J.p (J.ds.drop c)) (tail : Tail J s z m c) : Phase J s x z m c c c
  | loadW {c : ℕ} {d : Descriptor} (hq : s.q.qState = .qLoadW) (hd : J.ds[c]? = some d)
      (queue : s.q.descQ = J.ds.drop (c + 1)) (pre : s.q.preBusy = false) (pend : s.q.prePend = false)
      (staged : Staged J d s) (load : LoadBusy J c d s x ∨ LoadRests J (c + 1) s x ∧ s.ld.ldDone = true)
      (apart : PanelsKept J.p (J.ds.drop c)) (tail : Tail J s z m c) : Phase J s x z m (c + 1) c c
  | preIssue {c : ℕ} {d : Descriptor} (hq : s.q.qState = .qPreIssue) (hd : J.ds[c]? = some d)
      (current : Current J d s) (alone : Alone J (c + 1) s x) (panel : s.q.stgPanelUse = d.panelUse J.p)
      (apart : PanelsKept J.p (J.ds.drop c)) (tail : Tail J s z m c) : Phase J s x z m (c + 1) c c
  | comp {c : ℕ} {d : Descriptor} (hq : s.q.qState = .qComp) (hd : J.ds[c]? = some d)
      (current : Current J d s)
      (ahead : Alone J (c + 1) s x ∧ PanelsKept J.p (J.ds.drop (c + 1)) ∨
        ∃ d', Prefetched J (c + 1) d d' s ∧ Fetch J d' s ∧ LoadRests J (c + 1) s x ∧
          s.q.prePend = true ∧
          s.q.preDone = false ∧ s.q.ldDonePrev = s.ld.ldDone)
      (tail : Tail J s z m c) : Phase J s x z m (c + 1) c c
  | compW {c l : ℕ} {d : Descriptor} (hq : s.q.qState = .qCompW) (hd : J.ds[c]? = some d)
      (current : Current J d s)
      (ahead : Ahead J (c + 1) d s x l) (array : (∃ t, Computing J c d s t) ∨ Computed J c d s)
      (tail : Tail J s z m c) : Phase J s x z m l (c + 1) c
  | store {c l : ℕ} {d : Descriptor} (hq : s.q.qState = .qStore) (hd : J.ds[c]? = some d)
      (current : Current J d s)
      (ahead : Ahead J (c + 1) d s x l) (array : Computed J c d s) (store : StoreRests J c s z m) :
      Phase J s x z m l (c + 1) c
  | storeW {c l : ℕ} {d : Descriptor} (hq : s.q.qState = .qStoreW) (hd : J.ds[c]? = some d)
      (ahead : Ahead J (c + 1) d s x l)
      (store : (∃ f, StoreBusy J c d s z m f ∧ (f < J.conf.nGroupsEff → Computed J c d s)) ∨
        StoreRests J (c + 1) s z m ∧ s.st.dmaDone = true) : Phase J s x z m l (c + 1) (c + 1)
  | preW {c : ℕ} {d : Descriptor} (hq : s.q.qState = .qPreW) (ahead : Ahead J (c + 1) d s x (c + 2))
      (tail : Tail J s z m (c + 1)) : Phase J s x z m (c + 2) (c + 1) (c + 1)

/-! ## One edge -/

/-- An edge of a batch that is not over yet, with the channels and the memory. -/
structure Edge (J : Job) (s : MmAccel) (i : MmInputs) (x : Option Transfer)
    (z : Option WriteTransfer) (m m' : Mem) (look : Bool) : Prop where
  good : J.Good
  calm : s.Calm i
  env : Env J s
  reads : J.Reads i x
  writes : s.WriteServes i look z m m'
  fresh : s.dmaStartAny i = true → (s.next J.p i).st.lineFifo = []
  busy : s.drained = false

variable {look : Bool}

theorem getElem?_of_head? (hq : s.q.descQ = J.ds.drop c) (hd : s.q.descQ.head? = some d) :
    J.ds[c]? = some d := by
  rw [← hd, hq, List.head?_drop]

namespace Edge

theorem next_idle (e : Edge J s i x z m m' look) (hq : s.q.qState = .qIdle) (alone : Alone J c s x)
    (apart : PanelsKept J.p (J.ds.drop c)) (tail : Tail J s z m c) (grant grant' : Bool) :
    Phase J (s.next J.p i) (s.rdNext J.p grant i.memRdReady x)
      (s.wrNext J.p i grant' look z) m' c c c := by
  have hc := e.calm
  have hstate := hc.qState_next (p := J.p)
  have hpre : s.prefetches J.p = false := by simp [prefetches, hq]
  have hdma : s.dmaStartAny i = false := by rw [hc.dmaStartAny, hq]; rfl
  have hload : s.ldStartAny i = false := by rw [hc.ldStartAny, hq, alone.prePend]; rfl
  have htail := tail.next e.good hc hdma e.writes grant'
  have hrests := (alone.load.next hc hload grant i.memRdReady).1
  have hbusy : (s.next J.p i).q.preBusy = false := by rw [hc.pre_next.1, hpre, alone.preBusy]; rfl
  have hpend : (s.next J.p i).q.prePend = false := by rw [hc.pre_next.2.2.1, hpre]; rfl
  obtain ⟨hqueue, hb, hk, hu, hdest⟩ := hc.staged_next (p := J.p)
  have hconf := hc.loadConfig_next (p := J.p)
  rw [hq] at hstate
  cases hdq : s.q.descQ with
  | nil =>
    have ha : s.adoptsIdle = false := by simp [adoptsIdle, hdq]
    have hadopted : s.adopted J.p = none := by simp [adopted, ha, hpre]
    rw [hadopted] at hqueue
    simp only [ha] at hstate
    exact .idle hstate ⟨hqueue.trans alone.queue, hbusy, hpend, hrests⟩ apart htail
  | cons d l =>
    have ha : s.adoptsIdle = true := by simp [adoptsIdle, hq, hdq, e.env.run]
    have hadopted : s.adopted J.p = some d := by simp [adopted, ha, hdq]
    have hd := getElem?_of_head? alone.queue (d := d) (by rw [hdq]; rfl)
    rw [hadopted] at hqueue hb hk hu hdest hconf
    simp only [ha, if_true] at hstate
    refine .load hstate hd ?_ hbusy hpend ⟨hk, hu, hdest⟩ ⟨?_, hb⟩ hrests apart htail
    · rw [hqueue, Option.isSome_some, if_pos rfl, alone.queue, List.tail_drop]
    · rw [hconf, ← e.env.stride]
      rfl

theorem next_load (e : Edge J s i x z m m' look) (hq : s.q.qState = .qLoad) (hd : J.ds[c]? = some d)
    (queue : s.q.descQ = J.ds.drop (c + 1)) (pre : s.q.preBusy = false) (staged : Staged J d s)
    (fetch : Fetch J d s)
    (load : LoadRests J c s x) (apart : PanelsKept J.p (J.ds.drop c)) (tail : Tail J s z m c)
    (grant grant' : Bool) :
    Phase J (s.next J.p i) (s.rdNext J.p grant i.memRdReady x) (s.wrNext J.p i grant' look z) m'
      (c + 1) c c := by
  have hc := e.calm
  have hstate := hc.qState_next (p := J.p)
  have hh : Holds J s := holds_of_ne (by simp [hq]) (by simp [hq]) (by simp [hq])
  have hdma : s.dmaStartAny i = false := by rw [hc.dmaStartAny, hq]; rfl
  have hload : s.ldStartAny i = true := by rw [hc.ldStartAny, hq]; rfl
  rw [hq] at hstate
  exact .loadW hstate hd ((hh.queue hc).trans queue) ((hh.preBusy hc).trans pre) (hh.prePend hc)
    (hh.staged hc staged)
    (.inl (load.start hc hload hh.adopted fetch.conf fetch.bOnly grant _)) apart
      (tail.next e.good hc hdma e.writes grant')

theorem next_loadW (e : Edge J s i x z m m' look) (hq : s.q.qState = .qLoadW) (hd : J.ds[c]? = some d)
    (queue : s.q.descQ = J.ds.drop (c + 1)) (pre : s.q.preBusy = false) (pend : s.q.prePend = false)
    (staged : Staged J d s) (load : LoadBusy J c d s x ∨ LoadRests J (c + 1) s x ∧ s.ld.ldDone = true)
    (apart : PanelsKept J.p (J.ds.drop c)) (tail : Tail J s z m c) (grant grant' : Bool) :
    Phase J (s.next J.p i) (s.rdNext J.p grant i.memRdReady x) (s.wrNext J.p i grant' look z) m'
      (c + 1) c c := by
  have hc := e.calm
  have hstate := hc.qState_next (p := J.p)
  have hh : Holds J s := holds_of_ne (by simp [hq]) (by simp [hq]) (by simp [hq])
  have hdma : s.dmaStartAny i = false := by rw [hc.dmaStartAny, hq]; rfl
  have hload : s.ldStartAny i = false := by rw [hc.ldStartAny, hq, pend]; rfl
  have htail := tail.next e.good hc hdma e.writes grant'
  have hqueue := (hh.queue hc).trans queue
  have hbusy := (hh.preBusy hc).trans pre
  have hpend := hh.prePend hc
  rw [hq] at hstate
  rcases load with load | ⟨load, hdone⟩
  · simp only [load.load.done] at hstate
    refine .loadW hstate hd hqueue hbusy hpend (hh.staged hc staged) ?_ apart htail
    exact (load.next e.good hd hc hload hh.adopted e.reads grant).imp And.left id
  · simp only [hdone, if_true] at hstate
    have hprom : s.promotes = true := by simp [promotes, hq, hdone]
    exact .preIssue hstate hd (staged.promote hc hprom) ⟨hqueue, hbusy, hpend,
      (load.next hc hload grant _).1⟩
      (hh.staged hc staged).panel apart htail

/-- The next tile is prefetched if it can be, into a panel of its own. -/
theorem next_preIssue (e : Edge J s i x z m m' look) (hq : s.q.qState = .qPreIssue)
    (hd : J.ds[c]? = some d)
    (current : Current J d s) (alone : Alone J (c + 1) s x) (panel : s.q.stgPanelUse = d.panelUse J.p)
    (apart : PanelsKept J.p (J.ds.drop c)) (tail : Tail J s z m c) (grant grant' : Bool) :
    Phase J (s.next J.p i) (s.rdNext J.p grant i.memRdReady x) (s.wrNext J.p i grant' look z) m'
      (c + 1) c c := by
  have hc := e.calm
  have hstate := hc.qState_next (p := J.p)
  have hidle : s.adoptsIdle = false := by simp [adoptsIdle, hq]
  have hdma : s.dmaStartAny i = false := by rw [hc.dmaStartAny, hq]; rfl
  have hload : s.ldStartAny i = false := by rw [hc.ldStartAny, hq, alone.prePend]; rfl
  have hprom : s.promotes = false := by simp [promotes, hq]
  have htail := tail.next e.good hc hdma e.writes grant'
  have hcur := current.next hc hprom
  obtain ⟨hrests, hsame⟩ := alone.load.next hc hload grant i.memRdReady
  obtain ⟨hqueue, hb, hk, hu, hdest⟩ := hc.staged_next (p := J.p)
  obtain ⟨hbusy, hpdone, hpend, hprev⟩ := hc.pre_next (p := J.p)
  have hconf := hc.loadConfig_next (p := J.p)
  rw [List.drop_eq_getElem?_toList_append, hd] at apart
  have hnext : ∀ d', s.q.descQ.head? = some d' →
      (s.prefetches J.p = true ↔ J.p.enablePrefetch = true ∧ Prefetchable J.p d d') := fun d' hd' => by
    simp [prefetches, hq, alone.preBusy, hd', panel, Prefetchable]
  rw [hq] at hstate
  cases hpre : s.prefetches J.p with
  | false =>
    -- nothing is prefetched: the next tile waits for `qIdle`
    have hadopted : s.adopted J.p = none := by simp [adopted, hidle, hpre]
    rw [hpre, alone.preBusy] at hbusy
    rw [hpre] at hpend
    rw [hadopted] at hqueue
    refine .comp hstate hd hcur (.inl ⟨⟨hqueue.trans alone.queue, hbusy, hpend, hrests⟩, ?_⟩) htail
    refine fun henable => (apart henable).of_not_prefetchable fun d' hd' hp => ?_
    rw [← alone.queue] at hd'
    exact absurd (hpre.symm.trans ((hnext d' hd').2 ⟨henable, hp⟩)) Bool.false_ne_true
  | true =>
    -- the next tile becomes the staged one, and its load starts on the cycle after
    obtain ⟨d', hd'⟩ : ∃ d', s.q.descQ.head? = some d' := by
      cases hdq : s.q.descQ with
      | nil => simp [prefetches, hdq] at hpre
      | cons d' l => exact ⟨d', rfl⟩
    obtain ⟨henable, hp⟩ := (hnext d' hd').1 hpre
    have hadopted : s.adopted J.p = some d' := by simp [adopted, hpre, hd']
    have hd₁ := getElem?_of_head? alone.queue hd'
    have hdrop : J.ds.drop (c + 1) = d' :: J.ds.drop (c + 1 + 1) := by
      rw [List.drop_eq_getElem?_toList_append, hd₁]
      rfl
    rw [hdrop] at apart
    obtain ⟨hone, hapart⟩ := (apart henable).of_prefetchable hp
    rw [hadopted] at hqueue hb hk hu hdest hconf
    rw [hpre] at hbusy hpend hpdone
    rw [alone.preBusy] at hpdone
    rw [alone.prePend] at hpend
    refine .comp hstate hd hcur (.inr ⟨d', ⟨hd₁, ?_, hbusy, ⟨hk, hu, hdest⟩, hp.1, ?_, fun _ =>
      hapart⟩, ⟨?_, hb⟩, hrests, hpend, ?_, hprev.trans hsame.symm⟩) htail
    · rw [hqueue, Option.isSome_some, if_pos rfl, alone.queue, List.tail_drop]
    · rw [MmParams.panel, MmParams.panel, if_neg hone, if_neg hone]
      exact hp.2
    · rw [hconf, ← e.env.stride]
      rfl
    · simpa using hpdone

/-- The array is started, and with it the load of a tile that has been adopted as a prefetch. -/
theorem next_comp (e : Edge J s i x z m m' look) (hq : s.q.qState = .qComp) (hd : J.ds[c]? = some d)
    (current : Current J d s)
    (ahead : Alone J (c + 1) s x ∧ PanelsKept J.p (J.ds.drop (c + 1)) ∨
      ∃ d', Prefetched J (c + 1) d d' s ∧ Fetch J d' s ∧ LoadRests J (c + 1) s x ∧
        s.q.prePend = true ∧
        s.q.preDone = false ∧ s.q.ldDonePrev = s.ld.ldDone)
    (tail : Tail J s z m c) (grant grant' : Bool) :
    Phase J (s.next J.p i) (s.rdNext J.p grant i.memRdReady x) (s.wrNext J.p i grant' look z) m'
      (c + 1 + s.q.prePend.toNat) (c + 1) c := by
  have hc := e.calm
  have hstate := hc.qState_next (p := J.p)
  have hh : Holds J s := holds_of_ne (by simp [hq]) (by simp [hq]) (by simp [hq])
  have hdma : s.dmaStartAny i = false := by rw [hc.dmaStartAny, hq]; rfl
  have hstart : s.startAny i = true := by rw [hc.startAny, hq]; rfl
  have hprom : s.promotes = false := by simp [promotes, hq]
  have hcur := current.next hc hprom
  have htail := tail.next e.good hc hdma e.writes grant'
  rw [hq] at hstate
  rcases ahead with ⟨alone, apart⟩ | ⟨d', h, fetch, load, hpend, hdone, hprev⟩
  · rw [alone.prePend]
    exact .compW hstate hd hcur (.alone (alone.next hh hc (by simp [hq]) grant _) apart)
      (.inl ⟨0, computing_of_start e.good hd hc hstart current alone.load⟩) htail
  · have hload : s.ldStartAny i = true := by rw [hc.ldStartAny, hpend, Bool.or_true]
    rw [hpend]
    refine .compW hstate hd hcur (.loading (h.next_hold hh hc) (hh.prePend hc) ?_
      (load.start hc hload hh.adopted fetch.conf fetch.bOnly grant _))
      (.inl ⟨0, computing_of_start e.good hd hc hstart current load⟩) htail
    rw [hh.preDone hc, hdone, hprev]
    simp

/-- The array runs, and rests until the store of the tile before is through. -/
theorem next_compW (e : Edge J s i x z m m' look) (hq : s.q.qState = .qCompW)
    (hd : J.ds[c]? = some d) {l : ℕ}
    (current : Current J d s) (ahead : Ahead J (c + 1) d s x l) (array : (∃ t, Computing J c d s t) ∨
      Computed J c d s)
    (tail : Tail J s z m c) (grant grant' : Bool) :
    Phase J (s.next J.p i) (s.rdNext J.p grant i.memRdReady x) (s.wrNext J.p i grant' look z) m'
      l (c + 1) c := by
  have hc := e.calm
  have hstate := hc.qState_next (p := J.p)
  have hh : Holds J s := holds_of_ne (by simp [hq]) (by simp [hq]) (by simp [hq])
  have hdma : s.dmaStartAny i = false := by rw [hc.dmaStartAny, hq]; rfl
  have hstart : s.startAny i = false := by rw [hc.startAny, hq]; rfl
  have hprom : s.promotes = false := by simp [promotes, hq]
  have hcur := current.next hc hprom
  have htail := tail.next e.good hc hdma e.writes grant'
  have hahead := ahead.next e.good hh hc (by simp [hq]) e.reads grant
  rw [hq] at hstate
  rcases array with ⟨t, array⟩ | array
  · simp only [array.feed.done] at hstate
    refine .compW hstate hd hcur hahead ?_ htail
    exact (array.next e.good (List.mem_of_getElem? hd) hc hstart current e.env.chunk ahead.captures).imp
      (fun h => ⟨_, h⟩) id
  · have harray := (array.next hc hstart).1
    cases hb : s.st.dmaBusy with
    | false =>
      simp only [array.done, hb, Bool.not_false, Bool.and_self, if_true] at hstate
      exact .store hstate hd hcur hahead harray ((tail.rests_of_busy hb).next hc hdma e.writes grant')
    | true =>
      simp only [hb, Bool.not_true, Bool.and_false] at hstate
      exact .compW hstate hd hcur hahead (.inr harray) htail

theorem next_store (e : Edge J s i x z m m' look) (hq : s.q.qState = .qStore)
    (hd : J.ds[c]? = some d) {l : ℕ}
    (current : Current J d s) (ahead : Ahead J (c + 1) d s x l) (array : Computed J c d s)
    (store : StoreRests J c s z m) (grant grant' : Bool) :
    Phase J (s.next J.p i) (s.rdNext J.p grant i.memRdReady x) (s.wrNext J.p i grant' look z) m' l
      (c + 1) (c + 1) := by
  have hc := e.calm
  have hstate := hc.qState_next (p := J.p)
  have hh : Holds J s := holds_of_ne (by simp [hq]) (by simp [hq]) (by simp [hq])
  have hdma : s.dmaStartAny i = true := by rw [hc.dmaStartAny, hq]; rfl
  have hstart : s.startAny i = false := by rw [hc.startAny, hq]; rfl
  rw [hq] at hstate
  exact .storeW hstate hd (ahead.next e.good hh hc (by simp [hq]) e.reads grant)
    (.inl ⟨0, store.start e.good hc hdma (e.fresh hdma) e.env.conf current.dest e.writes grant',
      fun _ => (array.next hc hstart).1⟩)

/-- The sequencer leaves a store when the array has been read out. -/
theorem next_storeW (e : Edge J s i x z m m' look) (hq : s.q.qState = .qStoreW)
    (hd : J.ds[c]? = some d) {l : ℕ} (ahead : Ahead J (c + 1) d s x l)
    (store : (∃ f, StoreBusy J c d s z m f ∧ (f < J.conf.nGroupsEff → Computed J c d s)) ∨
      StoreRests J (c + 1) s z m ∧ s.st.dmaDone = true) (grant grant' : Bool) :
    Phase J (s.next J.p i) (s.rdNext J.p grant i.memRdReady x) (s.wrNext J.p i grant' look z) m' l
      (c + 1) (c + 1) := by
  have hc := e.calm
  have hstate := hc.qState_next (p := J.p)
  have hh : Holds J s := holds_of_ne (by simp [hq]) (by simp [hq]) (by simp [hq])
  have hdma : s.dmaStartAny i = false := by rw [hc.dmaStartAny, hq]; rfl
  have hstart : s.startAny i = false := by rw [hc.startAny, hq]; rfl
  have hahead := ahead.next e.good hh hc (by simp [hq]) e.reads grant
  rw [hq] at hstate
  -- the store that is left, if it is one
  have hleave : (s.st.dmaDone || (s.st.dmaBusy && s.st.fillLeft == 0)) = true → Tail J s z m (c + 1) →
      Phase J (s.next J.p i) (s.rdNext J.p grant i.memRdReady x) (s.wrNext J.p i grant' look z) m' l
        (c + 1) (c + 1) := by
    intro hl tail
    have htail := tail.next e.good hc hdma e.writes grant'
    simp only [hl, if_true] at hstate
    cases ahead with
    | alone h apart =>
      rw [h.preBusy] at hstate
      exact .idle hstate (h.next hh hc (by simp [hq]) grant _) apart htail
    | loading h _ _ _ =>
      rw [h.preBusy] at hstate
      exact .preW hstate hahead htail
    | loaded h _ _ _ =>
      rw [h.preBusy] at hstate
      exact .preW hstate hahead htail
  rcases store with ⟨f, store, array⟩ | ⟨store, hdone⟩
  · by_cases hf : f < J.conf.nGroupsEff
    · have hleft : (s.st.fillLeft == 0) = false := by
        rw [store.store.fillLeft]
        exact beq_false_of_ne (by omega)
      simp only [store.store.done, hleft, Bool.and_false, Bool.or_self] at hstate
      refine .storeW hstate hd hahead ?_
      rcases store.next e.good hd (storeAlone_of_storing store.store e.good hc hdma fun h =>
        ⟨array h, hstart⟩) e.writes
        grant' with ⟨f', hf', h⟩ | ⟨h, hdone⟩
      · exact .inl ⟨f', h, fun _ => ((array hf).next hc hstart).1⟩
      · exact .inr ⟨h, hdone⟩
    · obtain rfl : f = J.conf.nGroupsEff := le_antisymm store.store.le (Nat.not_lt.1 hf)
      refine hleave ?_ (.busy hd store)
      simp [store.store.busy, store.store.fillLeft]
  · exact hleave (by rw [hdone]; rfl) (.rests store)

/-- The tile that has been prefetched is the next one. -/
theorem next_preW (e : Edge J s i x z m m' look) (hq : s.q.qState = .qPreW)
    (ahead : Ahead J (c + 1) d s x (c + 2)) (tail : Tail J s z m (c + 1)) (grant grant' : Bool) :
    Phase J (s.next J.p i) (s.rdNext J.p grant i.memRdReady x)
      (s.wrNext J.p i grant' look z) m' (c + 2) (c + 1)
      (c + 1) := by
  have hc := e.calm
  have hstate := hc.qState_next (p := J.p)
  have hdma : s.dmaStartAny i = false := by rw [hc.dmaStartAny, hq]; rfl
  have htail := tail.next e.good hc hdma e.writes grant'
  rw [hq] at hstate
  cases hdone : s.q.preDone with
  | false =>
    -- its load is not over
    have hbusy : s.q.preBusy = true := by
      cases ahead with
      | loading h _ _ _ => exact h.preBusy
      | loaded h _ _ _ => exact h.preBusy
    have hh : Holds J s := holds_of_ne (by simp [hq]) (by simp [hq]) fun _ => ⟨hbusy, hdone⟩
    simp only [hdone] at hstate
    exact .preW hstate (ahead.next e.good hh hc (by simp [hq]) e.reads grant) htail
  | true =>
    -- it is promoted, and nothing can be prefetched on this cycle, as `preBusy` is still set
    simp only [hdone, if_true] at hstate
    cases ahead with
    | loading h _ done _ => exact absurd (hdone.symm.trans done) (by simp)
    | loaded h pend load _ =>
      obtain ⟨hadopted, hpre⟩ := adopted_eq_none (p := J.p) (s := s) (by simp [hq]) (by simp [hq])
        fun _ => h.preBusy
      have hload : s.ldStartAny i = false := by rw [hc.ldStartAny, hq, pend]; rfl
      have hprom : s.promotes = true := by simp [promotes, hq, hdone]
      obtain ⟨hqueue, -⟩ := hc.staged_next (p := J.p)
      obtain ⟨hbusy, -, hpend, -⟩ := hc.pre_next (p := J.p)
      rw [hadopted] at hqueue
      rw [hpre, hq, hdone] at hbusy
      rw [hpre] at hpend
      refine .comp hstate h.next (h.staged.promote hc hprom) (.inl ⟨⟨hqueue.trans h.queue, ?_, hpend,
        (load.next hc hload grant _).1⟩, h.apart⟩) htail
      rw [hbusy, h.preBusy]
      rfl

end Edge

/-! ## Every edge -/

/-- Only in `qComp` is a prefetch about to be started. -/
theorem Phase.prePend {l k w : ℕ} (h : Phase J s x z m l k w) (hq : s.q.qState ≠ .qComp) :
    s.q.prePend = false := by
  have hahead : ∀ {c d l}, Ahead J c d s x l → s.q.prePend = false := by
    rintro c d l (⟨h, -⟩ | ⟨-, hp, -⟩ | ⟨-, hp, -⟩)
    · exact h.prePend
    · exact hp
    · exact hp
  cases h with
  | idle _ alone => exact alone.prePend
  | load _ _ _ _ pend => exact pend
  | loadW _ _ _ _ pend => exact pend
  | preIssue _ _ _ alone => exact alone.prePend
  | comp hq' => exact absurd hq' hq
  | compW _ _ _ ahead => exact hahead ahead
  | store _ _ _ ahead => exact hahead ahead
  | storeW _ _ ahead => exact hahead ahead
  | preW _ ahead => exact hahead ahead

/-- A batch goes on from phase to phase. -/
theorem Phase.next {l k w : ℕ} (h : Phase J s x z m l k w) (e : Edge J s i x z m m' look)
    (grant grant' : Bool) :
    Phase J (s.next J.p i) (s.rdNext J.p grant i.memRdReady x) (s.wrNext J.p i grant' look z) m'
      (l + (s.ldStartAny i).toNat) (k + (s.startAny i).toNat) (w + (s.dmaStartAny i).toNat) := by
  have hpend := h.prePend
  rw [e.calm.ldStartAny, e.calm.startAny, e.calm.dmaStartAny]
  cases h with
  | idle hq alone apart tail =>
    rw [hpend (by simp [hq]), hq]
    exact e.next_idle hq alone apart tail grant grant'
  | load hq hd queue pre pend staged fetch load apart tail =>
    rw [pend, hq]
    exact e.next_load hq hd queue pre staged fetch load apart tail grant grant'
  | loadW hq hd queue pre pend staged load apart tail =>
    rw [pend, hq]
    exact e.next_loadW hq hd queue pre pend staged load apart tail grant grant'
  | preIssue hq hd current alone panel apart tail =>
    rw [alone.prePend, hq]
    exact e.next_preIssue hq hd current alone panel apart tail grant grant'
  | comp hq hd current ahead tail =>
    rw [hq]
    exact e.next_comp hq hd current ahead tail grant grant'
  | compW hq hd current ahead array tail =>
    rw [hpend (by simp [hq]), hq]
    exact e.next_compW hq hd current ahead array tail grant grant'
  | store hq hd current ahead array store =>
    rw [hpend (by simp [hq]), hq]
    exact e.next_store hq hd current ahead array store grant grant'
  | storeW hq hd ahead store =>
    rw [hpend (by simp [hq]), hq]
    exact e.next_storeW hq hd ahead store grant grant'
  | preW hq ahead tail =>
    rw [hpend (by simp [hq]), hq]
    exact e.next_preW hq ahead tail grant grant'

/-- A store starts with an empty FIFO, apart from the first one. -/
theorem Phase.lineFifo_next {l k w : ℕ} (h : Phase J s x z m l k w) (hw : w ≠ 0) (hc : s.Calm i)
    (hs : s.dmaStartAny i = true) : (s.next J.p i).st.lineFifo = [] := by
  have hq : s.q.qState = .qStore := by simpa [hc.dmaStartAny] using hs
  cases h with
  | store _ _ _ _ _ store => exact store.lineFifo_next hw hc hs
  | idle hq' | load hq' | loadW hq' | preIssue hq' | comp hq' | compW hq' | storeW hq' | preW hq' =>
    rw [hq] at hq'
    cases hq'

/-- What is started is the next descriptor. -/
theorem Phase.starts {l k w : ℕ} (h : Phase J s x z m l k w) (hc : s.Calm i) :
    (s.ldStartAny i = true → ∃ d, J.ds[l]? = some d ∧ Fetch J d s) ∧
      (s.startAny i = true → ∃ d, J.ds[k]? = some d ∧ Current J d s) ∧
      (s.dmaStartAny i = true → ∃ d, J.ds[w]? = some d ∧ Current J d s) := by
  have hpend := h.prePend
  rw [hc.ldStartAny, hc.startAny, hc.dmaStartAny]
  cases h with
  | load hq hd _ _ _ _ fetch =>
    rw [hq]
    refine ⟨fun _ => ⟨_, hd, fetch⟩, fun h => ?_, fun h => ?_⟩ <;> cases h
  | comp hq hd current ahead =>
    rw [hq]
    refine ⟨fun hp => ?_, fun _ => ⟨_, hd, current⟩, fun hs => by cases hs⟩
    rcases ahead with ⟨alone, -⟩ | ⟨d', h, fetch, -⟩
    · rw [alone.prePend] at hp
      cases hp
    · exact ⟨d', h.next, fetch⟩
  | store hq hd current =>
    rw [hpend (by simp [hq]), hq]
    refine ⟨fun h => ?_, fun h => ?_, fun _ => ⟨_, hd, current⟩⟩ <;> cases h
  | idle hq | loadW hq | preIssue hq | compW hq | storeW hq | preW hq =>
    rw [hpend (by simp [hq]), hq]
    refine ⟨fun h => ?_, fun h => ?_, fun h => ?_⟩ <;> cases h

/-! ## What is under way -/

theorem Ahead.load_of_busy {l : ℕ} (h : Ahead J c d s x l) (hb : s.ld.ldBusy = true) :
    ∃ a, LoadUnderway J.p a s x := by
  cases h with
  | alone h => exact absurd (hb.symm.trans h.load.busy) (by simp)
  | loading _ _ _ load => exact ⟨_, _, _, load.load⟩
  | loaded _ _ load => exact absurd (hb.symm.trans load.busy) (by simp)

/-- A load that runs is under way, and nothing interferes with it. -/
theorem Phase.load_of_busy {l k w : ℕ} (h : Phase J s x z m l k w) (hc : s.Calm i)
    (hb : s.ld.ldBusy = true) :
    (∃ a, LoadUnderway J.p a s x) ∧ s.LoadAlone J.p i := by
  have hrests : ∀ {c}, LoadRests J c s x → False := fun hl => by
    rw [hl.busy] at hb
    cases hb
  have hpend := h.prePend
  -- while a load runs the sequencer waits for it, or is busy with the tile before
  suffices hw : (∃ a, LoadUnderway J.p a s x) ∧ s.q.qState ≠ .qIdle ∧ s.q.qState ≠ .qLoad ∧
    s.q.qState ≠ .qComp ∧
      s.q.qState ≠ .qPreIssue ∧ (s.q.qState = .qPreW → s.q.preBusy = true) by
    obtain ⟨ha, h₁, h₂, h₃, h₄, h₅⟩ := hw
    refine ⟨ha, hc.loadAlone ?_ (adopted_eq_none h₁ h₄ h₅).1⟩
    rw [hc.ldStartAny, hpend h₃, beq_false_of_ne h₂]
    rfl
  cases h with
  | idle _ alone => exact (hrests alone.load).elim
  | load _ _ _ _ _ _ _ load => exact (hrests load).elim
  | loadW hq _ _ _ _ _ load =>
    rcases load with load | ⟨load, -⟩
    · exact ⟨⟨_, _, _, load.load⟩, by simp [hq]⟩
    · exact (hrests load).elim
  | preIssue _ _ _ alone => exact (hrests alone.load).elim
  | comp _ _ _ ahead =>
    rcases ahead with ⟨alone, -⟩ | ⟨d', -, -, load, -⟩
    · exact (hrests alone.load).elim
    · exact (hrests load).elim
  | compW hq _ _ ahead => exact ⟨ahead.load_of_busy hb, by simp [hq]⟩
  | store hq _ _ ahead => exact ⟨ahead.load_of_busy hb, by simp [hq]⟩
  | storeW hq _ ahead => exact ⟨ahead.load_of_busy hb, by simp [hq]⟩
  | preW hq ahead =>
    refine ⟨ahead.load_of_busy hb, by simp [hq], by simp [hq], by simp [hq], by simp [hq], fun _ => ?_⟩
    cases ahead with
    | loading h => exact h.preBusy
    | loaded h => exact h.preBusy

theorem Tail.store_of_busy (h : Tail J s z m w) (hb : s.st.dmaBusy = true) :
    ∃ f, StoreUnderway J.p J.conf s z f := by
  cases h with
  | rests h => exact absurd (hb.symm.trans h.busy) (by simp)
  | busy _ h => exact ⟨_, _, _, h.store⟩

/-- A store that runs is under way, and is not started again. -/
theorem Phase.store_of_busy {l k w : ℕ} (h : Phase J s x z m l k w) (hc : s.Calm i)
    (hb : s.st.dmaBusy = true) :
    (∃ f, StoreUnderway J.p J.conf s z f) ∧ s.dmaStartAny i = false := by
  rw [hc.dmaStartAny]
  cases h with
  | idle hq _ _ tail => exact ⟨tail.store_of_busy hb, by rw [hq]; rfl⟩
  | load hq _ _ _ _ _ _ _ _ tail => exact ⟨tail.store_of_busy hb, by rw [hq]; rfl⟩
  | loadW hq _ _ _ _ _ _ _ tail => exact ⟨tail.store_of_busy hb, by rw [hq]; rfl⟩
  | preIssue hq _ _ _ _ _ tail => exact ⟨tail.store_of_busy hb, by rw [hq]; rfl⟩
  | comp hq _ _ _ tail => exact ⟨tail.store_of_busy hb, by rw [hq]; rfl⟩
  | compW hq _ _ _ _ tail => exact ⟨tail.store_of_busy hb, by rw [hq]; rfl⟩
  | store _ _ _ _ _ store => exact absurd (hb.symm.trans store.busy) (by simp)
  | storeW hq _ _ store =>
    refine ⟨?_, by rw [hq]; rfl⟩
    rcases store with ⟨f, h, -⟩ | ⟨h, -⟩
    · exact ⟨f, _, _, h.store⟩
    · exact absurd (hb.symm.trans h.busy) (by simp)
  | preW hq _ tail => exact ⟨tail.store_of_busy hb, by rw [hq]; rfl⟩

/-! ## The operands -/

theorem StoreBusy.operand {f : ℕ} (h : StoreBusy J w d s z m f) (hJ : J.Good)
    (hd : J.ds[w]? = some d) (hd' : d' ∈ J.ds)
    {y : Word} (hy : d'.Operand J.p J.stride y) : m y = J.start.mem y := by
  have hle := hJ.fits.add_le h.store.dvd h.store.sent
  have hne : ∀ k < J.conf.nGroupsEff, lineNo y ≠ lineNo (J.conf.addr J.p d.dest k) := fun k hk he =>
    hJ.apart d (List.mem_of_getElem? hd) d' hd' y ⟨k, hk, he⟩ hy
  rw [h.mem y fun k hk _ => hne _ (by omega), writeLines_of_ne fun k hk => hne k (by omega)]
  exact hJ.mem_after hd' hy w

theorem Tail.operand (h : Tail J s z m w) (hJ : J.Good) (hd : d ∈ J.ds) {y : Word}
    (hy : d.Operand J.p J.stride y) :
    m y = J.start.mem y := by
  cases h with
  | rests h =>
    rw [h.mem]
    exact hJ.mem_after hd hy w
  | busy hw h => exact h.operand hJ hw hd hy

/-- The operands of a batch are not written while it runs. -/
theorem Phase.operand {l k w : ℕ} (h : Phase J s x z m l k w) (hJ : J.Good) (hd : d ∈ J.ds) {y : Word}
    (hy : d.Operand J.p J.stride y) : m y = J.start.mem y := by
  cases h with
  | idle _ _ _ tail => exact tail.operand hJ hd hy
  | load _ _ _ _ _ _ _ _ _ tail => exact tail.operand hJ hd hy
  | loadW _ _ _ _ _ _ _ _ tail => exact tail.operand hJ hd hy
  | preIssue _ _ _ _ _ _ tail => exact tail.operand hJ hd hy
  | comp _ _ _ _ tail => exact tail.operand hJ hd hy
  | compW _ _ _ _ _ tail => exact tail.operand hJ hd hy
  | store _ _ _ _ _ store => exact (Tail.rests store).operand hJ hd hy
  | storeW _ hw _ store =>
    rcases store with ⟨f, h, -⟩ | ⟨h, -⟩
    · exact h.operand hJ hw hd hy
    · exact (Tail.rests h).operand hJ hd hy
  | preW _ _ tail => exact tail.operand hJ hd hy

end Job

end Rv32Soc
