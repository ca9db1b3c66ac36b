import Rv32Soc.Accel.MmAccel
import Rv32Soc.Lib.Circuit

/-!
# The accelerator as a circuit

What a descriptor goes through from the bus to the array, seen from its length.

* `MmAccel.mem_descQ_next`, `MmAccel.mem_of_adopted`: what is in the queue has been
  pushed, and what is adopted was in the queue;
* `kLen_of_isRun`: the length of a run is at most `maxK`, if that of every descriptor is:
  `K_LEN` is clamped on the bus, but a descriptor brings its own.
-/

namespace Rv32Soc

/-- The accelerator out of reset. -/
def mmAccel (p : MmParams) : Circuit MmAccel MmInputs where
  init := {s | s.IsReset}
  admits _ _ := True
  next s i := s.next p i

theorem mmAccel_next {p : MmParams} {σ : ℕ → MmAccel} {ι : ℕ → MmInputs}
    (h : (mmAccel p).IsRun σ ι) (n : ℕ) :
    σ (n + 1) = (σ n).next p (ι n) := h.next n

namespace MmAccel

variable (p : MmParams) (s : MmAccel) (i : MmInputs)

@[simp]
theorem next_axi : (s.next p i).axi = s.nextAxi i := rfl

@[simp]
theorem next_regs : (s.next p i).regs = s.nextRegs p i := rfl

@[simp]
theorem next_arr : (s.next p i).arr = s.arr.next p s.buf s.regs.kLen (s.softRstPulse i)
    (s.startAny i) := rfl

@[simp]
theorem next_buf : (s.next p i).buf = s.nextBuf p i := rfl

@[simp]
theorem next_q : (s.next p i).q = s.nextQ p i := rfl

@[simp]
theorem next_ld : (s.next p i).ld = s.nextLd p i := rfl

@[simp]
theorem next_st : (s.next p i).st = s.nextSt p i := rfl

variable {p s i}

/-- What is adopted is the head of the queue. -/
theorem head?_of_adopted {d : Descriptor} (h : s.adopted p = some d) : s.q.descQ.head? = some d := by
  unfold adopted at h
  split at h
  · exact h
  · cases h

theorem mem_of_adopted {d : Descriptor} (h : s.adopted p = some d) : d ∈ s.q.descQ :=
  List.mem_of_head? (head?_of_adopted h)

/-- A descriptor of the queue after an edge was there, or is being pushed. -/
theorem mem_descQ_next {d : Descriptor} (h : d ∈ (s.nextQ p i).descQ) :
    d ∈ s.q.descQ ∨ s.descPush i ∧ s.enqReady p ∧
    d = ⟨s.q.descA, s.q.descB, s.q.descD, i.wdata⟩ := by
  simp only [nextQ] at h
  split at h
  · cases h
  · rw [List.mem_append] at h
    rcases h with h | h
    · split at h
      · exact .inl (List.mem_of_mem_tail h)
      · exact .inl h
    · split at h
      · next hp =>
        rw [Bool.and_eq_true] at hp
        exact .inr ⟨hp.1, hp.2, List.mem_singleton.1 h⟩
      · cases h

/-! ## The length of a run -/

/-- Every length that may reach the array is at most `maxK`. -/
structure KLenBounded (p : MmParams) (s : MmAccel) : Prop where
  kLen : s.regs.kLen ≤ p.maxK
  stgKLen : s.q.stgKLen ≤ p.maxK
  descQ : ∀ d ∈ s.q.descQ, d.kLen ≤ p.maxK

theorem KLenBounded.next (h : s.KLenBounded p)
    (hd : s.descPush i → s.enqReady p → i.wdata.toNat % 256 ≤ p.maxK) : (s.next p i).KLenBounded p where
  kLen := by
    simp only [next_regs, nextRegs]
    split
    · exact min_le_right _ _
    · split
      · exact h.stgKLen
      · exact h.kLen
  stgKLen := by
    simp only [next_q, nextQ]
    cases ha : s.adopted p with
    | none => exact h.stgKLen
    | some d => exact h.descQ d (mem_of_adopted ha)
  descQ := by
    intro d hm
    rcases mem_descQ_next hm with hm | ⟨hp, he, rfl⟩
    · exact h.descQ d hm
    · exact hd hp he

theorem IsReset.kLenBounded (h : s.IsReset) : s.KLenBounded p := by
  refine ⟨?_, ?_, ?_⟩
  · rw [h.regs]
    exact Nat.zero_le _
  · rw [h.q]
    exact Nat.zero_le _
  · rw [h.q]
    intro d hd
    cases hd

end MmAccel

/-- The lines that a load of the length `kLen` fills in a lane. -/
def linesOf (p : MmParams) (kLen : ℕ) : ℕ :=
  if (kLen + 15) / 16 = 0 then 1 else min ((kLen + 15) / 16) p.linesPerLane

theorem MmAccel.ldLines_eq (p : MmParams) (s : MmAccel) : s.ldLines p = linesOf p s.regs.ldKLen := rfl

/-- `16` divides `maxK`. -/
theorem MmParams.linesPerLane_pow (p : MmParams) : ∃ j, p.linesPerLane = 2 ^ j ∧
    p.maxK = 16 * 2 ^ j := by
  obtain ⟨k, hk⟩ := p.maxK_pow
  have h4 : 4 ≤ k := by
    by_contra h
    have hlt : p.maxK < 2 ^ 4 := hk ▸ Nat.pow_lt_pow_right (by decide) (Nat.not_le.1 h)
    exact absurd p.maxK_ge (by omega)
  obtain ⟨j, rfl⟩ := Nat.exists_eq_add_of_le h4
  refine ⟨j, ?_, hk.trans (pow_add 2 4 j)⟩
  rw [linesPerLane, hk, pow_add]
  omega

theorem MmParams.linesPerLane_mul (p : MmParams) : 16 * p.linesPerLane = p.maxK := by
  obtain ⟨j, h₁, h₂⟩ := p.linesPerLane_pow
  rw [h₁, h₂]

theorem lt_linesOf (p : MmParams) {k kLen : ℕ} (hk : k < kLen) (h : kLen ≤ p.maxK) :
    k / 16 < linesOf p kLen := by
  have hm := p.linesPerLane_mul
  rw [linesOf, if_neg (by omega)]
  omega

theorem log2Ceil_le {n k : ℕ} (h : n ≤ 2 ^ k) : log2Ceil n ≤ k := by
  unfold log2Ceil
  split
  · exact Nat.zero_le k
  · next hn => exact Nat.succ_le_of_lt ((Nat.log2_lt (by omega)).2 (by omega))

theorem MmParams.lastTBits_eq (p : MmParams) (h : 2 * (p.dim - 1) < 256) : p.lastTBits = 8 :=
  max_eq_left (log2Ceil_le h)

theorem SystolicArray.lastT_eq (p : MmParams) {kLen : ℕ} (h₀ : 0 < kLen + 2 * (p.dim - 1))
    (h : kLen + 2 * (p.dim - 1) ≤ 256) (hd : 2 * (p.dim - 1) < 256) :
    lastT p kLen = kLen + 2 * (p.dim - 1) - 1 := by
  rw [lastT, p.lastTBits_eq hd]
  omega

/-- The array runs for at most `maxK` terms, if no descriptor that is put into the queue asks for
    more: every row it then reads is among those that a load of that length has filled, and,
    where that fits the counter, the last cycle of the run is what it should be. -/
theorem kLen_of_isRun {p : MmParams} {σ : ℕ → MmAccel} {ι : ℕ → MmInputs}
    (h : (mmAccel p).IsRun σ ι) {n : ℕ}
    (hd : ∀ k < n, (σ k).descPush (ι k) → (σ k).enqReady p → (ι k).wdata.toNat % 256 ≤ p.maxK) :
    (σ n).regs.kLen ≤ p.maxK ∧ (∀ k < (σ n).regs.kLen, k / 16 < linesOf p (σ n).regs.kLen) ∧
      (2 ≤ p.dim → p.maxK + 2 * (p.dim - 1) ≤ 256 →
        SystolicArray.lastT p (σ n).regs.kLen = (σ n).regs.kLen + 2 * (p.dim - 1) - 1) := by
  have hb : (σ n).KLenBounded p := by
    induction n with
    | zero => exact MmAccel.IsReset.kLenBounded h.init
    | succ n ih =>
      rw [mmAccel_next h n]
      exact (ih fun k hk => hd k (hk.trans n.lt_succ_self)).next (hd n n.lt_succ_self)
  have hm := p.maxK_ge
  refine ⟨hb.kLen, fun k hk => lt_linesOf p hk hb.kLen, fun h₂ h₃ => ?_⟩
  exact SystolicArray.lastT_eq p (by omega) (by have := hb.kLen; omega) (by omega)

/-! ### Runs -/

/-- The parameters that the module is instantiated with by default. -/
def mmDefault : MmParams where
  dim := 2
  maxK := 16
  bPanels := 4
  fifoDepth := 8
  enableReadBursts := true
  enableWriteBursts := true
  enablePrefetch := true
  descDepth := 8
  dim_pos := by decide
  maxK_pow := ⟨4, rfl⟩
  maxK_ge := le_rfl
  bPanels_pow := ⟨2, rfl⟩
  fifoDepth_ge := by decide

/-- The accelerator out of reset, with zeros in what is not reset. -/
def resetMm : MmAccel where
  axi := ⟨.wIdle, false, false, false, .rIdle, 0, false, false⟩
  regs := ⟨0, 0, 0, 0, 0, 0, 0, 0, 0, 0, 0, false, 0, 0⟩
  arr := ⟨false, false, 0, fun _ _ => false, fun _ _ => ⟨0, 0, 0⟩⟩
  buf := ⟨fun _ _ => 0, fun _ _ => 0, fun _ => 0, fun _ => 0⟩
  q := ⟨[], 0, 0, 0, false, false, false, false, false, .qIdle, 0, 0, 0, false, false, false, false⟩
  ld := ⟨false, false, false, false, false, 0, 0⟩
  st := ⟨false, false, 0, 0, 0, 0, 0, false, 0, fun _ => 0, 0, []⟩
  rowSelReg _ := 0

theorem isReset_resetMm : resetMm.IsReset :=
  ⟨rfl, rfl, rfl, rfl, rfl, rfl, rfl, rfl, rfl, rfl, rfl, rfl, rfl, rfl, rfl⟩

/-- Nothing happens on the bus, and the memory is silent. -/
def MmInputs.quiet : MmInputs := ⟨false, 0, false, 0, true, false, 0, false, 0, false, false, false⟩

/-- A write of `data` to a word. -/
def MmInputs.write (word : BitVec 6) (data : Word) : MmInputs :=
  { quiet with awvalid := true, awaddr := word.setWidth 32 <<< 2, wvalid := true, wdata := data }

/-- A run of the default accelerator. -/
def mmTrace (ι : ℕ → MmInputs) : ℕ → MmAccel := (mmAccel mmDefault).trace resetMm ι

theorem isRun_mmTrace (ι : ℕ → MmInputs) : (mmAccel mmDefault).IsRun (mmTrace ι) ι :=
  Circuit.isRun_trace isReset_resetMm fun _ => trivial

/-- A descriptor of the length `k` is pushed, the queue is started, and the two lines of its B
    panel come in. -/
def oneTile (k : Word) (n : ℕ) : MmInputs :=
  match n with
  | 0 => .write 20 (0x10000 + k)
  | 2 => .write 0 0x20
  | 5 | 6 => { MmInputs.quiet with memRdReady := true }
  | _ => .quiet

/-- A tile of the length `16` is run at that length. -/
theorem oneTile_kLen :
    (mmTrace (oneTile 16) 8).regs.kLen = 16 ∧ (mmTrace (oneTile 16) 8).regs.kLen ≤ mmDefault.maxK :=
  ⟨by decide +kernel, (kLen_of_isRun (isRun_mmTrace (oneTile 16)) (by decide +kernel)).1⟩

/-- A descriptor is not clamped. -/
theorem oneTile_unclamped :
    ¬∀ (p : MmParams) (σ : ℕ → MmAccel) (ι : ℕ → MmInputs), (mmAccel p).IsRun σ ι →
      ∀ n, (σ n).regs.kLen ≤ p.maxK := by
  intro h
  have h' := h mmDefault _ _ (isRun_mmTrace (oneTile 255)) 8
  revert h'
  decide +kernel

end Rv32Soc
