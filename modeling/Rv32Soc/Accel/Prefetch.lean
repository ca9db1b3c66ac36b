import Rv32Soc.Accel.Sequencer
import Mathlib.Order.Interval.Finset.Nat

/-!
# How often the sequencer prefetches

A descriptor is prefetched while its predecessor is about to compute, from `qPreIssue` after
a load of its own and, as the source has it, from `qPreW` after a prefetch. The second never
happens, since the guard `!preBusy` sees the register before `qPreW` clears it: a
prefetched descriptor is always followed by one that is loaded from `qIdle`.

* `PrefetchInv`: how the states and `preBusy` stand to each other, whatever software does;
* `Pairing`: descriptors that could all be prefetched are adopted in pairs, the first of
  each from `qIdle`;
* `loads_of_batch`: the cycles in `qLoad` of a whole batch.
-/

namespace Rv32Soc

namespace MmAccel

variable {p : MmParams} {s : MmAccel} {i : MmInputs}

/-- How the sequencer stands to its prefetch. -/
structure PrefetchInv (s : MmAccel) : Prop where
  run : s.q.qRun = s.q.qBusy
  rest : s.q.qBusy = false → s.q.qState = .qIdle
  fresh : QState.isFresh s.q.qState → s.q.preBusy = false
  preW : s.q.qState = .qPreW → s.q.preBusy

theorem IsReset.prefetchInv (h : s.IsReset) : s.PrefetchInv := by
  constructor <;> simp [h.q]

namespace PrefetchInv

theorem adoptsIdle_iff : s.adoptsIdle ↔ s.q.qState = .qIdle ∧ s.q.qRun ∧ s.q.descQ ≠ [] := by
  simp [adoptsIdle, and_assoc]

/-- A prefetch is issued from `qPreIssue` only. -/
theorem prefetches_iff (h : s.PrefetchInv) : s.prefetches p ↔ s.q.qState = .qPreIssue ∧
    p.enablePrefetch ∧
    ∃ d, s.q.descQ.head? = some d ∧ d.bOnly ∧ d.panelLoad p ≠ s.q.stgPanelUse := by
  unfold prefetches
  by_cases h₁ : s.q.qState = .qPreIssue
  · have hb : s.q.preBusy = false := h.fresh (by rw [h₁]; rfl)
    simp [h₁, hb, Option.any_eq_true]
  by_cases h₂ : s.q.qState = .qPreW
  · simp [h₂, h.preW h₂]
  · simp [h₁, h₂]

theorem next (h : s.PrefetchInv) : (s.next p i).PrefetchInv := by
  have hp := h.prefetches_iff (p := p)
  obtain ⟨h₁, h₂, h₃, h₄⟩ := h
  constructor <;> simp only [next_q, nextQ, nextQState]
  · grind
  · grind [drained, adoptsIdle]
  · grind [QState.isFresh]
  · grind

end PrefetchInv

/-! ## Pairs of descriptors -/

/-- The states of a descriptor that is loaded from `qIdle`. -/
def QState.isLoading : QState → Bool
  | .qLoad | .qLoadW | .qPreIssue => true
  | _ => false

/-- A descriptor that can be prefetched while its predecessor computes. -/
def Prefetchable (p : MmParams) (d d' : Descriptor) : Prop := d'.bOnly ∧ d'.panelLoad p ≠ d.panelUse p

/-- Of the descriptors `ds` the first `t` have been adopted, and `A` cycles in `qLoad` are over. -/
structure Pairing (p : MmParams) (ds : List Descriptor) (s : MmAccel) (t A : ℕ) : Prop where
  le : t ≤ ds.length
  queue : s.q.descQ = ds.drop t
  loads : A + (s.q.qState == .qLoad).toNat = (t + 1) / 2
  loading : QState.isLoading s.q.qState →
    t % 2 = 1 ∧ ∃ d, ds[t - 1]? = some d ∧ s.q.stgPanelUse = d.panelUse p
  others : QState.isLoading s.q.qState = false → t % 2 = 0 ∨ t = ds.length
  pre : s.q.preBusy → t % 2 = 0

/-- The queue after an edge, with nothing pushed. -/
theorem descQ_next (hr : s.softRstPulse i = false) (hd : s.descPush i = false) :
    (s.next p i).q.descQ = if (s.adopted p).isSome then s.q.descQ.tail else s.q.descQ := by
  simp only [next_q, nextQ, hr, hd, Bool.false_and, Bool.false_eq_true, if_false, List.append_nil]

/-- The head of a queue of which `t` descriptors have been adopted. -/
theorem Pairing.head?_eq {ds : List Descriptor} {t A : ℕ} (h : Pairing p ds s t A) :
    s.q.descQ.head? = ds[t]? := by
  rw [h.queue, List.head?_drop]

namespace Pairing

variable {ds : List Descriptor} {t A : ℕ}

/-- A descriptor is adopted from `qIdle`: the first one of a pair. -/
theorem next_idle (h : Pairing p ds s t A) (hi : s.PrefetchInv) (hr : s.softRstPulse i = false)
    (hd : s.descPush i = false) (ha : s.adoptsIdle) :
    Pairing p ds (s.next p i) (t + 1) (A + (s.q.qState == .qLoad).toNat) := by
  obtain ⟨hst, -, hne⟩ := PrefetchInv.adoptsIdle_iff.1 ha
  have hlt : t < ds.length := by
    rw [h.queue, Ne, List.drop_eq_nil_iff] at hne
    omega
  have heven : t % 2 = 0 := (h.others (by rw [hst]; rfl)).resolve_right hlt.ne
  have hhead : s.q.descQ.head? = some ds[t] := h.head?_eq.trans (List.getElem?_eq_getElem hlt)
  have had : s.adopted p = some ds[t] := by rw [adopted, ha, Bool.true_or, if_pos rfl, hhead]
  have hst' : (s.next p i).q.qState = .qLoad := by
    rw [next_q, nextQ, nextQState, hr, if_neg Bool.false_ne_true, hst, ha]
    rfl
  have hpre : (s.next p i).q.preBusy = false := by
    have hf : s.prefetches p = false := by
      refine Bool.eq_false_iff.2 fun hf => ?_
      rw [(hi.prefetches_iff.1 hf).1] at hst
      cases hst
    have hb : s.q.preBusy = false := hi.fresh (by rw [hst]; rfl)
    simp [nextQ, hr, hf, hst, hb]
  have hl := h.loads
  refine ⟨hlt, ?_, ?_, fun _ => ⟨by omega, ds[t], by simp, ?_⟩, fun hn => ?_, fun hb => ?_⟩
  · rw [descQ_next hr hd, had, Option.isSome_some, if_pos rfl, h.queue, List.tail_drop]
  · rw [hst', hl]
    simp only [beq_self_eq_true, Bool.toNat_true]
    omega
  · rw [next_q, nextQ, had]
    rfl
  · rw [hst'] at hn
    cases hn
  · rw [hpre] at hb
    cases hb

/-- A descriptor is prefetched: the second one of a pair. -/
theorem next_prefetch (h : Pairing p ds s t A) (hi : s.PrefetchInv) (hr : s.softRstPulse i = false)
    (hd : s.descPush i = false) (hf : s.prefetches p) :
    Pairing p ds (s.next p i) (t + 1) (A + (s.q.qState == .qLoad).toNat) := by
  obtain ⟨hst, -, d, hhead, -⟩ := hi.prefetches_iff.1 hf
  rw [h.head?_eq] at hhead
  obtain ⟨hlt, -⟩ := List.getElem?_eq_some_iff.1 hhead
  obtain ⟨hodd, -⟩ := h.loading (by rw [hst]; rfl)
  have had : s.adopted p = some d := by rw [adopted, hf, Bool.or_true, if_pos rfl, h.head?_eq, hhead]
  have hst' : (s.next p i).q.qState = .qComp := by
    rw [next_q, nextQ, nextQState, hr, if_neg Bool.false_ne_true, hst]
    rfl
  have hl := h.loads
  refine ⟨hlt, ?_, ?_, fun hn => ?_, fun _ => .inl (by omega), fun _ => by omega⟩
  · rw [descQ_next hr hd, had, Option.isSome_some, if_pos rfl, h.queue, List.tail_drop]
  · rw [hst', hl]
    have : (QState.qComp == QState.qLoad).toNat = 0 := rfl
    omega
  · rw [hst'] at hn
    cases hn

/-- No descriptor is adopted. One that is loaded goes on to compute without a prefetch only if it is
    the last one. -/
theorem next_none (h : Pairing p ds s t A) (hi : s.PrefetchInv) (hp : p.enablePrefetch)
    (hc : ds.IsChain (Prefetchable p)) (hr : s.softRstPulse i = false) (hd : s.descPush i = false)
    (ha : s.adoptsIdle = false) (hf : s.prefetches p = false) :
    Pairing p ds (s.next p i) t (A + (s.q.qState == .qLoad).toNat) := by
  have had : s.adopted p = none := by rw [adopted, ha, hf]; rfl
  have hstg : (s.next p i).q.stgPanelUse = s.q.stgPanelUse := by rw [next_q, nextQ, had]; rfl
  have hpre : (s.next p i).q.preBusy → s.q.preBusy := by
    simp only [next_q, nextQ, hr, hf, Bool.false_eq_true, if_false]
    split
    · simp
    · exact id
  have hlast : s.q.qState = .qPreIssue → t = ds.length := by
    intro hst
    by_contra hne
    have hlt : t < ds.length := Nat.lt_of_le_of_ne h.le hne
    obtain ⟨hodd, d, hd, hpan⟩ := h.loading (by rw [hst]; rfl)
    obtain ⟨ht, rfl⟩ := List.getElem?_eq_some_iff.1 hd
    have hcond := hc.getElem (t - 1) (by omega)
    simp only [show t - 1 + 1 = t by omega] at hcond
    refine Bool.eq_false_iff.1 hf (hi.prefetches_iff.2 ⟨hst, hp, ds[t], ?_, hcond.1, hpan ▸ hcond.2⟩)
    rw [h.head?_eq, List.getElem?_eq_getElem hlt]
  -- no state leads to `qLoad`, and none but the states of a load to these
  have hst : (s.next p i).q.qState ≠ .qLoad ∧
      (QState.isLoading (s.next p i).q.qState → QState.isLoading s.q.qState) ∧
      (QState.isLoading s.q.qState → QState.isLoading (s.next p i).q.qState = false →
        s.q.qState = .qPreIssue) := by
    simp only [next_q, nextQ, nextQState, hr, ha]
    cases s.q.qState <;> grind [QState.isLoading]
  refine ⟨h.le, ?_, ?_, fun hn => ?_, fun hn => ?_, fun hb => h.pre (hpre hb)⟩
  · rw [descQ_next hr hd, had, h.queue]
    rfl
  · rw [h.loads, beq_false_of_ne hst.1, Bool.toNat_false, Nat.add_zero]
  · rw [hstg]
    exact h.loading (hst.2.1 hn)
  · cases hs : QState.isLoading s.q.qState
    · exact h.others hs
    · exact .inr (hlast (hst.2.2 hs hn))

theorem next (h : Pairing p ds s t A) (hi : s.PrefetchInv) (hp : p.enablePrefetch)
    (hc : ds.IsChain (Prefetchable p)) (hr : s.softRstPulse i = false) (hd : s.descPush i = false) :
    ∃ t', Pairing p ds (s.next p i) t' (A + (s.q.qState == .qLoad).toNat) := by
  cases ha : s.adoptsIdle
  · cases hf : s.prefetches p
    · exact ⟨_, h.next_none hi hp hc hr hd ha hf⟩
    · exact ⟨_, h.next_prefetch hi hr hd hf⟩
  · exact ⟨_, h.next_idle hi hr hd ha⟩

end Pairing

end MmAccel

theorem prefetchInv_of_isRun {p : MmParams} {σ : ℕ → MmAccel} {ι : ℕ → MmInputs}
    (h : (mmAccel p).IsRun σ ι) (n : ℕ) : (σ n).PrefetchInv := by
  induction n with
  | zero => exact MmAccel.IsReset.prefetchInv h.init
  | succ n ih =>
    rw [mmAccel_next h n]
    exact ih.next

/-! ## A batch -/

/-- A batch from the cycle `a` on which the queue is started with the descriptors `ds`, up to the cycle
    `e`: nothing is pushed into the queue meanwhile, and the accelerator is not reset. -/
structure Batch (p : MmParams) (σ : ℕ → MmAccel) (ι : ℕ → MmInputs) (a e : ℕ)
    (ds : List Descriptor) : Prop where
  run : (mmAccel p).IsRun σ ι
  kick : (σ a).qStartPulse (ι a)
  queue : (σ a).q.descQ = ds
  reset : ∀ n, a ≤ n → n < e → (σ n).softRstPulse (ι n) = false
  push : ∀ n, a ≤ n → n < e → (σ n).descPush (ι n) = false

/-- The cycles in `qLoad` from `a` up to `n`. -/
def loadCycles (σ : ℕ → MmAccel) (a n : ℕ) : Finset ℕ :=
  (Finset.Ico a n).filter fun k => (σ k).q.qState = .qLoad

theorem card_loadCycles_succ (σ : ℕ → MmAccel) {a n : ℕ} (h : a ≤ n) :
    (loadCycles σ a (n + 1)).card = (loadCycles σ a n).card + ((σ n).q.qState == .qLoad).toNat := by
  rw [loadCycles, Nat.Ico_succ_right_eq_insert_Ico h, Finset.filter_insert]
  split
  · next hq =>
    rw [Finset.card_insert_of_notMem (by simp), hq]
    rfl
  · next hq =>
    rw [beq_false_of_ne hq]
    rfl

namespace Batch

open MmAccel

variable {p : MmParams} {σ : ℕ → MmAccel} {ι : ℕ → MmInputs} {a e : ℕ} {ds : List Descriptor}

/-- The queue does not run before it is started. -/
theorem rest (h : Batch p σ ι a e ds) : (σ a).q.qBusy = false := by
  have hk := h.kick
  simp only [qStartPulse, Bool.and_eq_true, Bool.not_eq_true'] at hk
  exact hk.2

theorem pairing (h : Batch p σ ι a e ds) (hp : p.enablePrefetch)
    (hc : ds.IsChain (Prefetchable p)) {n : ℕ}
    (hn : a ≤ n) (he : n ≤ e) : ∃ t, Pairing p ds (σ n) t (loadCycles σ a n).card := by
  induction n, hn using Nat.le_induction with
  | base =>
    have hst := (prefetchInv_of_isRun h.run a).rest h.rest
    have hpre : (σ a).q.preBusy = false := (prefetchInv_of_isRun h.run a).fresh (by rw [hst]; rfl)
    refine ⟨0, Nat.zero_le _, h.queue, ?_, fun hl => ?_, fun _ => .inl rfl, fun hb => ?_⟩
    · rw [loadCycles, Finset.Ico_self, hst]
      rfl
    · rw [hst] at hl
      cases hl
    · rw [hpre] at hb
  | succ n hn ih =>
    obtain ⟨t, ht⟩ := ih (Nat.le_of_succ_le he)
    rw [card_loadCycles_succ σ hn, mmAccel_next h.run n]
    exact ht.next (prefetchInv_of_isRun h.run n) hp hc (h.reset n hn he) (h.push n hn he)

/-- The queue stops only when it is empty. -/
theorem descQ_eq_nil (h : Batch p σ ι a e ds) {n : ℕ} (hn : a < n) (he : n ≤ e)
    (hb : (σ n).q.qBusy = false) :
    (σ n).q.descQ = [] := by
  induction n, hn using Nat.le_induction with
  | base =>
    have hd : (σ a).drained = false := by
      simp [drained, (prefetchInv_of_isRun h.run a).run, h.rest]
    rw [mmAccel_next h.run, next_q, nextQ, h.reset a le_rfl he, hd, h.kick] at hb
    cases hb
  | succ n hn ih =>
    have hn' := Nat.le_of_succ_le hn
    rw [mmAccel_next h.run] at hb ⊢
    have hnil : (σ n).q.descQ = [] := by
      cases hd : (σ n).drained
      · simp only [next_q, nextQ, h.reset n hn' he, hd, Bool.or_self, Bool.false_eq_true, if_false,
          Bool.or_eq_false_iff] at hb
        exact ih (Nat.le_of_succ_le he) hb.2
      · simp only [drained, Bool.and_eq_true, List.isEmpty_iff] at hd
        exact hd.1.1.2
    rw [descQ_next (h.reset n hn' he) (h.push n hn' he), hnil]
    split <;> rfl

end Batch

/-- In a batch whose descriptors could all be prefetched but the first, only every second one is. The
    sequencer passes `qLoad` once for each of the others: no more than once exactly if
    there are two descriptors. -/
theorem loads_of_batch {p : MmParams} {σ : ℕ → MmAccel} {ι : ℕ → MmInputs} {a e : ℕ}
    {ds : List Descriptor}
    (h : Batch p σ ι a e ds) (hp : p.enablePrefetch) (hc : ds.IsChain (MmAccel.Prefetchable p))
    (hn : 2 ≤ ds.length) (he : a < e) (hb : (σ e).q.qBusy = false) :
    (loadCycles σ a e).card = (ds.length + 1) / 2 ∧
      (((∀ n, a ≤ n → n < e → (σ n).adoptsIdle → (σ n).q.descQ = ds) ∧
        ∃! n, (a ≤ n ∧ n < e) ∧ (σ n).q.qState = .qLoad) ↔ ds.length = 2) := by
  have hst : ∀ n, a ≤ n → n ≤ e → ∃ t, MmAccel.Pairing p ds (σ n) t (loadCycles σ a n).card :=
      fun n h₁ h₂ =>
    h.pairing hp hc h₁ h₂
  -- the sequencer is idle at the end, and everything has been adopted
  have hcard : (loadCycles σ a e).card = (ds.length + 1) / 2 := by
    obtain ⟨t, ht⟩ := hst e he.le le_rfl
    have hidle := (prefetchInv_of_isRun h.run e).rest hb
    have hlen : t = ds.length := by
      have hnil := ht.queue.symm.trans (h.descQ_eq_nil he le_rfl hb)
      exact ht.le.antisymm (List.drop_eq_nil_iff.1 hnil)
    rw [← hlen, ← ht.loads, hidle]
    rfl
  have hone : (∃! n, (a ≤ n ∧ n < e) ∧ (σ n).q.qState = .qLoad) ↔ (loadCycles σ a e).card = 1 := by
    rw [Finset.card_eq_one_iff_existsUnique]
    simp [loadCycles]
  refine ⟨hcard, fun ⟨_, hex⟩ => ?_, fun h2 => ⟨fun n h₁ h₂ ha => ?_,
    hone.2 (by rw [hcard, h2])⟩⟩
  · have := hone.1 hex
    omega
  · obtain ⟨t, ht⟩ := hst n h₁ h₂.le
    obtain ⟨hq, -, hne⟩ := MmAccel.PrefetchInv.adoptsIdle_iff.1 ha
    have hlt : t < ds.length := by
      rw [ht.queue, Ne, List.drop_eq_nil_iff] at hne
      omega
    have heven : t % 2 = 0 := (ht.others (by rw [hq]; rfl)).resolve_right hlt.ne
    rw [ht.queue, show t = 0 by omega, List.drop_zero]

/-! ### Runs -/

/-- Three descriptors are pushed that load the panels `0`, `1` and `0` and compute with what they have
    loaded, and the queue is started. The lines come in for two loads, and the first result
    goes out. -/
def threeTiles (n : ℕ) : MmInputs :=
  match n with
  | 0 | 4 => .write 20 0x10001
  | 2 => .write 20 0x11101
  | 6 => .write 0 0x20
  | 10 | 11 | 16 | 17 => { MmInputs.quiet with memRdReady := true }
  | 25 => { MmInputs.quiet with memWrReady := true }
  | _ => .quiet

/-- The same with the first two of them, up to the end of the batch. -/
def twoTiles (n : ℕ) : MmInputs :=
  match n with
  | 0 => .write 20 0x10001
  | 2 => .write 20 0x11101
  | 4 => .write 0 0x20
  | 8 | 9 | 14 | 15 => { MmInputs.quiet with memRdReady := true }
  | 23 | 30 => { MmInputs.quiet with memWrReady := true }
  | _ => .quiet

theorem batch_twoTiles :
    Batch mmDefault (mmTrace twoTiles) twoTiles 4 32 [⟨0, 0, 0, 0x10001⟩, ⟨0, 0, 0, 0x11101⟩] := by
  have h : ∀ n < 32, 4 ≤ n → (mmTrace twoTiles n).softRstPulse (twoTiles n) = false ∧
      (mmTrace twoTiles n).descPush (twoTiles n) = false := by
    decide +kernel
  exact ⟨isRun_mmTrace twoTiles, by decide +kernel, by decide +kernel, fun n h₁ h₂ => (h n h₂ h₁).1,
    fun n h₁ h₂ => (h n h₂ h₁).2⟩

/-- Two descriptors: the second one is prefetched. -/
theorem twoTiles_loads :
    (mmTrace twoTiles 32).q.qBusy = false ∧ (loadCycles (mmTrace twoTiles) 4 32).card = 1 ∧
      ∃! n, (4 ≤ n ∧ n < 32) ∧ (mmTrace twoTiles n).q.qState = .qLoad := by
  have hb : (mmTrace twoTiles 32).q.qBusy = false := by decide +kernel
  have h :=
    loads_of_batch batch_twoTiles rfl (by simp [MmAccel.Prefetchable, Descriptor.bOnly]; decide) le_rfl
    (by decide) hb
  exact ⟨hb, h.1, (h.2.2 rfl).2⟩

/-- Three descriptors: the third one is loaded from `qIdle`. -/
theorem threeTiles_loads :
    ¬∀ (p : MmParams) (σ : ℕ → MmAccel) (ι : ℕ → MmInputs) (a e : ℕ) (ds : List Descriptor),
      Batch p σ ι a e ds →
      p.enablePrefetch → ds.IsChain (MmAccel.Prefetchable p) → 2 ≤ ds.length →
      ∀ n, a ≤ n → n < e → (σ n).adoptsIdle → (σ n).q.descQ = ds := by
  intro h
  have hq : ∀ n < 32, 6 ≤ n → (mmTrace threeTiles n).softRstPulse (threeTiles n) = false ∧
      (mmTrace threeTiles n).descPush (threeTiles n) = false := by
    decide +kernel
  have h' := h mmDefault _ threeTiles 6 32 [⟨0, 0, 0, 0x10001⟩, ⟨0, 0, 0, 0x11101⟩,
    ⟨0, 0, 0, 0x10001⟩]
    ⟨isRun_mmTrace threeTiles, by decide +kernel, by decide +kernel, fun n h₁ h₂ => (hq n h₂ h₁).1,
      fun n h₁ h₂ => (hq n h₂ h₁).2⟩
    rfl (by simp [MmAccel.Prefetchable, Descriptor.bOnly]; decide) (by decide) 31 (by decide)
      (by decide) (by decide +kernel)
  revert h'
  decide +kernel

end Rv32Soc
