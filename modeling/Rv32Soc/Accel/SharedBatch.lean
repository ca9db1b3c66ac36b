import Rv32Soc.Accel.BatchRun

/-!
# A batch over a memory that others write

The accelerator has the memory to itself only where its operands and its results are: while it
works, dirty lines of the data cache are written back elsewhere. What it makes of the batch is the same
(`SharedRun.exists_ended`), and it never writes anything but its results.

The proof is over a memory in which everything else stands still (`SharedRun.own`). That the
accelerator writes its results only is known on a cycle from the phase it is in, and the phase
from the cycles before.
-/

namespace Rv32Soc

open MmAccel

/-- The lines of a transaction are those of the tile that is stored. -/
theorem MmAccel.Storing.exists_addr {p : MmParams} {c : StoreConfig} {dest : Word}
    {line : ℕ → Line} {s : MmAccel}
    {t : WriteTransfer} {f : ℕ} (h : Storing p c dest line s (some t) f) (hc : c.Fits p) {k : ℕ}
    (hk : k < t.lines) :
    ∃ g < c.nGroupsEff, t.at k = c.addr p dest g := by
  obtain ⟨haddr, hlines, -⟩ := h.serve t rfl
  rw [hlines] at hk
  have hle := hc.add_le h.dvd h.sent
  exact ⟨s.st.dmaSent + k, by omega, by rw [WriteTransfer.at, haddr, h.addr, hc.addr_add h.dvd hk]⟩

namespace Job

variable {J : Job} {s : MmAccel} {x : Option Transfer} {t : WriteTransfer} {m : Mem} {w : ℕ}

theorem StoreBusy.result {d : Descriptor} {f : ℕ} (h : StoreBusy J w d s (some t) m f) (hJ : J.Good)
    (hd : J.ds[w]? = some d) {k : ℕ} (hk : k < t.lines) : ∃ d ∈ J.ds, d.Result J.p J.conf (t.at k) := by
  obtain ⟨g, hg, haddr⟩ := h.store.exists_addr hJ.fits hk
  exact ⟨d, List.mem_of_getElem? hd, g, hg, by rw [haddr]⟩

theorem Tail.result (h : Tail J s (some t) m w) (hJ : J.Good) {k : ℕ} (hk : k < t.lines) :
    ∃ d ∈ J.ds, d.Result J.p J.conf (t.at k) := by
  cases h with
  | rests h => exact absurd h.free (by simp)
  | busy hd h => exact h.result hJ hd hk

/-- What is being written is a result of the batch. -/
theorem Phase.result {l k : ℕ} (h : Phase J s x (some t) m l k w) (hJ : J.Good) {n : ℕ}
    (hn : n < t.lines) :
    ∃ d ∈ J.ds, d.Result J.p J.conf (t.at n) := by
  cases h with
  | idle _ _ _ tail => exact tail.result hJ hn
  | load _ _ _ _ _ _ _ _ _ tail => exact tail.result hJ hn
  | loadW _ _ _ _ _ _ _ _ tail => exact tail.result hJ hn
  | preIssue _ _ _ _ _ _ tail => exact tail.result hJ hn
  | comp _ _ _ _ tail => exact tail.result hJ hn
  | compW _ _ _ _ _ tail => exact tail.result hJ hn
  | store _ _ _ _ _ store => exact absurd store.free (by simp)
  | storeW _ hd _ store =>
    rcases store with ⟨f, h, -⟩ | ⟨h, -⟩
    · exact h.result hJ hd hn
    · exact absurd h.free (by simp)
  | preW _ _ tail => exact tail.result hJ hn

end Job

/-- An address in the operands or in the results of a batch. -/
def Descriptor.Touched (p : MmParams) (s : MmAccel) (ds : List Descriptor) (y : Word) : Prop :=
  ∃ d ∈ ds, d.Operand p s.regs.srcStride y ∨ d.Result p (s.storeConfig p) y

/-- The queue is started on the cycle `0` with the descriptors `ds`, while the engines rest, and
    software leaves the accelerator alone until the batch is over. On each cycle the memory goes
    from `μ` to `μ'` by what the accelerator writes, and then on by what others write, which leave
    what the batch touches alone. -/
structure SharedRun (p : MmParams) (ds : List Descriptor) (σ : ℕ → MmAccel) (ι : ℕ → MmInputs)
    (χ : ℕ → Option Transfer) (ζ : ℕ → Option WriteTransfer) (μ μ' : ℕ → Mem) : Prop where
  reach : (mmAccel p).Reachable (σ 0)
  next : ∀ n, σ (n + 1) = (σ n).next p (ι n)
  queue : (σ 0).q.descQ = ds
  idle : (σ 0).Idle
  free : χ 0 = none ∧ ζ 0 = none
  kick : (σ 0).Kicks (ι 0)
  calm : ∀ n > 0, (∀ k, 0 < k → k ≤ n → (σ k).q.qDone = false) → (σ n).Calm (ι n)
  reads : ReadMemory p σ ι χ μ
  writes : ∀ n, ∃ grant look, ζ (n + 1) = (σ n).wrNext p (ι n) grant look (ζ n) ∧
    (σ n).WriteServes (ι n) look (ζ n) (μ n) (μ' n)
  others : ∀ n, (∀ k, 0 < k → k ≤ n → (σ k).q.qDone = false) →
    ∀ y, Descriptor.Touched p (σ 0) ds y →
    μ (n + 1) y = μ' n y

namespace SharedRun

variable {p : MmParams} {ds : List Descriptor} {σ : ℕ → MmAccel} {ι : ℕ → MmInputs}
  {χ : ℕ → Option Transfer} {ζ : ℕ → Option WriteTransfer} {μ μ' : ℕ → Mem} {e n : ℕ}

open Classical in
/-- The memory of the batch, with everything else as it was at its start. -/
noncomputable def own (p : MmParams) (ds : List Descriptor) (σ : ℕ → MmAccel) (μ : ℕ → Mem)
    (n : ℕ) : Mem := fun y =>
  if Descriptor.Touched p (σ 0) ds y then μ n y else μ 0 y

theorem own_of_touched {y : Word} (h : Descriptor.Touched p (σ 0) ds y) : own p ds σ μ n y = μ n y :=
  if_pos h

theorem own_of_not {y : Word} (h : ¬Descriptor.Touched p (σ 0) ds y) : own p ds σ μ n y = μ 0 y :=
  if_neg h

@[simp]
theorem own_zero : own p ds σ μ 0 = μ 0 := by
  funext y
  rw [own, ite_self]

section

variable (h : SharedRun p ds σ ι χ ζ μ μ')

include h

/-- Before the first store is started there is nothing in the FIFO. -/
theorem lineFifo_of_no_store (hs : ∀ j < n, (σ j).dmaStartAny (ι j) = false) :
    (σ n).st.dmaBusy = false ∧ (σ n).st.lineFifo = [] ∧ (σ n).st.fillValid = false := by
  induction n with
  | zero => exact ⟨h.idle.store, h.idle.fifo, h.idle.valid⟩
  | succ n ih =>
    obtain ⟨hb, hf, hv⟩ := ih fun j hj => hs j (Nat.lt_succ_of_lt hj)
    obtain ⟨h₁, h₂⟩ := storeRests_next (p := p) (hs n n.lt_succ_self) hb
    rw [h.next n]
    exact ⟨h₁, (lineFifo_next p).trans (Job.nextFifo_of_empty hf hv), h₂⟩

/-- The write channel serves the batch from its own memory. -/
theorem writeServes_own {look : Bool} (hno : ∀ k, 0 < k → k ≤ n → (σ k).q.qDone = false)
    (hw : (σ n).WriteServes (ι n) look (ζ n) (μ n) (μ' n))
    (hres : ∀ t, ζ n = some t → ∀ k < t.lines, ∃ d ∈ ds,
      d.Result p ((σ 0).storeConfig p) (t.at k)) :
    (σ n).WriteServes (ι n) look (ζ n) (own p ds σ μ n) (own p ds σ μ (n + 1)) where
  wnext := hw.wnext
  ready hr := by
    obtain ⟨t, ht, hpos, hlen, hline⟩ := hw.ready hr
    refine ⟨t, ht, hpos, hlen, fun k hk => ?_⟩
    rw [← hline k hk]
    refine Mem.line_congr fun y hy => ?_
    obtain ⟨d, hd, g, hg, haddr⟩ := hres t ht k hk
    have htouched : Descriptor.Touched p (σ 0) ds y := ⟨d, hd, .inr ⟨g, hg, hy.trans haddr⟩⟩
    rw [own_of_touched htouched, h.others n hno y htouched]
  idle hx := by
    funext y
    by_cases hy : Descriptor.Touched p (σ 0) ds y
    · rw [own_of_touched hy, own_of_touched hy, h.others n hno y hy, hw.idle hx]
    · rw [own_of_not hy, own_of_not hy]
  frame t ht y hne := by
    by_cases hy : Descriptor.Touched p (σ 0) ds y
    · rw [own_of_touched hy, own_of_touched hy, h.others n hno y hy, hw.frame t ht y hne]
    · rw [own_of_not hy, own_of_not hy]

theorem batchUntil_of_writes (hno : ∀ k, 0 < k → k < e → (σ k).q.qDone = false)
    (hres : ∀ n < e, ∀ t, ζ n = some t → ∀ k < t.lines, ∃ d ∈ ds,
      d.Result p ((σ 0).storeConfig p) (t.at k)) :
    BatchUntil e p ds σ ι χ ζ (own p ds σ μ) where
  reach := h.reach
  next n _ := h.next n
  queue := h.queue
  rest := h.idle.enginesRest
  free := h.free
  kick := h.kick
  calm n hn hne := h.calm n hn fun k h₁ h₂ => hno k h₁ (h₂.trans_lt hne)
  fresh n _ hs _ := by
    obtain ⟨-, hf, hv⟩ := h.lineFifo_of_no_store hs
    rw [h.next n, lineFifo_next, Job.nextFifo_of_empty hf hv]
  grants n _ := h.reads.next n
  line n _ hr := by
    obtain ⟨t, ht, hline⟩ := h.reads.line n hr
    refine ⟨t, ht, fun o d hd hy => ?_⟩
    obtain ⟨k, hk, hbyte⟩ := hline o
    exact ⟨k, hk, hbyte.trans (own_of_touched ⟨d, hd, .inl hy⟩).symm⟩
  writes n hn := by
    obtain ⟨grant, look, hz, hw⟩ := h.writes n
    exact ⟨grant, look, hz, h.writeServes_own (fun k h₁ h₂ =>
      hno k h₁ (h₂.trans_lt hn)) hw (hres n hn)⟩

/-- As long as the batch is not over, what is written is a result of it. -/
theorem results (hJ : (BatchRun.job p ds σ μ).Good) (hno : ∀ k, 0 < k → k < e →
    (σ k).q.qDone = false) :
    ∀ n < e, ∀ t, ζ n = some t → ∀ k < t.lines, ∃ d ∈ ds,
      d.Result p ((σ 0).storeConfig p) (t.at k) := by
  intro n
  induction n using Nat.strong_induction_on with
  | _ n ih =>
    intro hn t ht k hk
    rcases Nat.eq_zero_or_pos n with rfl | h₀
    · exact absurd (ht.symm.trans h.free.2) (by simp)
    have hJ' : (BatchRun.job p ds σ (own p ds σ μ)).Good :=
      ⟨hJ.dim, hJ.maxK, hJ.kLen, hJ.apart, hJ.panels, hJ.fits⟩
    have hb : BatchUntil n p ds σ ι χ ζ (own p ds σ μ) :=
      h.batchUntil_of_writes (fun k h₁ h₂ => hno k h₁ (h₂.trans hn)) fun m hm => ih m hm (hm.trans hn)
    obtain ⟨⟨_, _, _, hrun⟩, -⟩ := hb.running_of_run hJ' h₀ le_rfl fun k h₁ h₂ =>
      hno k h₁ (h₂.trans_lt hn)
    exact (ht ▸ hrun.phase).result hJ' hk

/-- A batch ends, if the channels serve it. What it touches is then as if its tiles had been
    executed one after another, and on no cycle has it written anything but a result. -/
theorem exists_ended (hJ : (BatchRun.job p ds σ μ).Good) (hr : ReadFair σ ι χ) (hw : WriteFair σ ι ζ) :
    ∃ e > 0, (∀ n, 0 < n → n ≤ e → ((σ n).q.qDone = true ↔ n = e)) ∧
      (∀ y, Descriptor.Touched p (σ 0) ds y →
        μ e y = (TileState.run p (σ 0).regs.srcStride ((σ 0).storeConfig p)
        ⟨(σ 0).buf.aMem, (σ 0).buf.bMem, μ 0⟩ ds).mem y) ∧
      ∀ n < e, ∀ y, (∀ d ∈ ds, ¬d.Result p ((σ 0).storeConfig p) y) → μ' n y = μ n y := by
  have hJ' : (BatchRun.job p ds σ (own p ds σ μ)).Good :=
    ⟨hJ.dim, hJ.maxK, hJ.kLen, hJ.apart, hJ.panels, hJ.fits⟩
  obtain ⟨e, he, hend⟩ := BatchUntil.exists_ended
    (fun e hno => h.batchUntil_of_writes hno (h.results hJ hno)) hJ' (fun _ => hr) fun _ => hw
  refine ⟨e, he, hend.done, fun y hy => ?_, fun n hn y hy => ?_⟩
  · have hmem := congrFun hend.mem y
    rwa [own_of_touched hy, own_zero] at hmem
  · have hno : ∀ k, 0 < k → k < e → (σ k).q.qDone = false := fun k h₁ h₂ =>
      Bool.eq_false_iff.2 fun hd => absurd ((hend.done k h₁ h₂.le).1 hd) h₂.ne
    obtain ⟨_, look, -, hserve⟩ := h.writes n
    cases hz : ζ n with
    | none => rw [hserve.idle hz]
    | some t =>
      refine hserve.frame t hz y fun k hk he => ?_
      obtain ⟨d, hd, g, hg, haddr⟩ := h.results hJ hno n hn t hz k hk
      exact hy d hd ⟨g, hg, he.trans haddr⟩

end

end SharedRun

end Rv32Soc
