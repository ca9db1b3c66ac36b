import Rv32Soc.Core.Peripherals

/-!
# The interrupt controller

`intc.v` by itself, under any lines and any accesses. An edge is `Captured` from the cycle
on which a line rises to the next clear of its bit. The line rises into `PENDING` whatever
the bus does, except when the clear comes on the very same cycle: then the edge is lost
with it, and this is the only way to lose one (`captured_iff`).
-/

namespace Rv32Soc

/-- What the bus and the lines drive on a cycle. -/
structure IntcInputs where
  dReq : Bool
  req : MmioReq
  irqIn : BitVec 8

/-- The interrupt controller out of reset. -/
def intc : Circuit Intc IntcInputs where
  init := {⟨0, 0, 0, false, 0⟩}
  admits _ _ := True
  next s i := s.next i.req i.dReq i.irqIn

namespace IntcInputs

variable (i : IntcInputs)

/-- A write to the register at `offset`. -/
def writes (offset : BitVec 12) : Bool :=
  Intc.selects i.dReq i.req && i.req.we && i.req.addr.extractLsb' 0 12 == offset

/-- A write to `PENDING` that names the source `b`. -/
def names (b : ℕ) : Bool := i.writes 0x004#12 && (i.req.wdata.extractLsb' 0 8).getLsbD b

end IntcInputs

/-- The line of the source `b` on the cycle before; all lines are low before the first. -/
def irqPrev (ι : ℕ → IntcInputs) (b : ℕ) : ℕ → Bool
  | 0 => false
  | n + 1 => (ι n).irqIn.getLsbD b

/-- The line of the source `b` rises. -/
def Rises (ι : ℕ → IntcInputs) (b n : ℕ) : Prop := (ι n).irqIn.getLsbD b ∧ irqPrev ι b n = false

/-- Before the cycle `n` the line of the source `b` has risen, and its bit has not been cleared on a
    later cycle. -/
def Captured (ι : ℕ → IntcInputs) (b n : ℕ) : Prop :=
  ∃ k < n, Rises ι b k ∧ ∀ j < n, (ι j).names b → j ≤ k

namespace Intc

variable {s : Intc} {i : IntcInputs} {σ : ℕ → Intc} {ι : ℕ → IntcInputs} {b n : ℕ}

theorem pending_next_eq : (s.next i.req i.dReq i.irqIn).pending =
    if i.writes 0x004#12 then (s.pending ||| (i.irqIn &&& ~~~s.irqInPrev)) &&&
      ~~~(i.req.wdata.extractLsb' 0 8)
    else s.pending ||| (i.irqIn &&& ~~~s.irqInPrev) := rfl

theorem pending_next : (s.next i.req i.dReq i.irqIn).pending.getLsbD b =
    ((s.pending.getLsbD b || (i.irqIn.getLsbD b && !s.irqInPrev.getLsbD b)) && !i.names b) := by
  rw [pending_next_eq, IntcInputs.names]
  by_cases hb : b < 8
  · cases i.writes 0x004#12 <;> simp [hb]
  · cases i.writes 0x004#12 <;> simp [BitVec.getLsbD_of_ge, not_lt.1 hb]

theorem enable_next : (s.next i.req i.dReq i.irqIn).enable =
    if i.writes 0#12 then i.req.wdata.extractLsb' 0 8 else s.enable := rfl

theorem irqOut_iff : s.irqOut ↔ ∃ b, s.pending.getLsbD b ∧ s.enable.getLsbD b := by
  rw [irqOut, bne_iff_ne, ne_eq, BitVec.eq_of_getLsbD_eq_iff]
  push Not
  constructor
  · rintro ⟨b, hb, h⟩
    exact ⟨b, by simpa [hb] using h⟩
  · rintro ⟨b, h⟩
    exact ⟨b, BitVec.lt_of_getLsbD h.1, by simpa using h⟩

end Intc

variable {σ : ℕ → Intc} {ι : ℕ → IntcInputs} {b n : ℕ}

theorem irqInPrev_eq (h : intc.IsRun σ ι) : ∀ n, (σ n).irqInPrev.getLsbD b = irqPrev ι b n
  | 0 => by
    have h0 : σ 0 = ⟨0, 0, 0, false, 0⟩ := h.init
    simp [h0, irqPrev]
  | n + 1 => congrArg (·.irqInPrev.getLsbD b) (h.next n)

/-- What a cycle does to a bit of `PENDING`. -/
theorem pending_succ (h : intc.IsRun σ ι) :
    (σ (n + 1)).pending.getLsbD b ↔ ((σ n).pending.getLsbD b ∨ Rises ι b n) ∧
    (ι n).names b = false := by
  have hnext : σ (n + 1) = (σ n).next (ι n).req (ι n).dReq (ι n).irqIn := h.next n
  rw [hnext, Intc.pending_next, irqInPrev_eq h]
  simp [Rises]

/-- What a cycle does to an edge that is captured. -/
theorem captured_succ :
    Captured ι b (n + 1) ↔ Rises ι b n ∨ (Captured ι b n ∧ (ι n).names b = false) := by
  constructor
  · rintro ⟨k, hk, hrise, hlast⟩
    rcases Nat.lt_succ_iff_lt_or_eq.1 hk with hk | rfl
    · refine .inr ⟨⟨k, hk, hrise, fun j hj => hlast j (hj.trans n.lt_succ_self)⟩, ?_⟩
      by_contra hn
      exact absurd (hlast n n.lt_succ_self (by simpa using hn)) (not_le.2 hk)
    · exact .inl hrise
  · rintro (hrise | ⟨⟨k, hk, hrise, hlast⟩, hn⟩)
    · exact ⟨n, n.lt_succ_self, hrise, fun j hj _ => Nat.lt_succ_iff.1 hj⟩
    · refine ⟨k, hk.trans n.lt_succ_self, hrise, fun j hj hname => ?_⟩
      rcases Nat.lt_succ_iff_lt_or_eq.1 hj with hj | rfl
      · exact hlast j hj hname
      · exact absurd (hn.symm.trans hname) nofun

/-- While no edge comes with its own clear, `PENDING` is what is captured. -/
theorem pending_iff_captured (h : intc.IsRun σ ι) (hclear : ∀ k < n, ¬(Rises ι b k ∧ (ι k).names b)) :
    (σ n).pending.getLsbD b ↔ Captured ι b n := by
  induction n with
  | zero =>
    have h0 : σ 0 = ⟨0, 0, 0, false, 0⟩ := h.init
    simp [h0, Captured]
  | succ n ih =>
    rw [pending_succ h, captured_succ, ih fun k hk => hclear k (hk.trans n.lt_succ_self)]
    have hn := hclear n n.lt_succ_self
    cases hname : (ι n).names b
    · simp [or_comm]
    · simp_all

/-- What an edge that comes with its own clear leaves. -/
theorem lost_of_rises_names (h : intc.IsRun σ ι) (hrise : Rises ι b n) (hname : (ι n).names b) :
    Captured ι b (n + 1) ∧ (σ (n + 1)).pending.getLsbD b = false :=
  ⟨captured_succ.2 (.inl hrise), by simpa [hname] using (pending_succ (b := b) (n := n) h).not⟩

/-- The controller keeps every edge until it is cleared, and asks for the core while one that is
    enabled is kept, exactly if no edge comes on the cycle of its own clear. -/
theorem captured_iff (h : intc.IsRun σ ι) :
    (∀ n, (∀ b, (σ n).pending.getLsbD b ↔ Captured ι b n) ∧
      ((σ n).irqOut ↔ ∃ b, Captured ι b n ∧ (σ n).enable.getLsbD b)) ↔
    ∀ n b, ¬(Rises ι b n ∧ (ι n).names b) := by
  constructor
  · rintro hall n b ⟨hrise, hname⟩
    obtain ⟨hcap, hpend⟩ := lost_of_rises_names h hrise hname
    exact absurd (((hall (n + 1)).1 b).2 hcap) (by simp [hpend])
  · intro hclear n
    have hpend : ∀ b, (σ n).pending.getLsbD b ↔ Captured ι b n := fun b =>
      pending_iff_captured h fun k _ => hclear k b
    exact ⟨hpend, by simp only [Intc.irqOut_iff, hpend]⟩

/-- The line of the source 0 is high on the cycle `k`, and its bit is cleared on the cycle `m`. -/
def pulseAndClear (k m n : ℕ) : IntcInputs := ⟨n == m, ⟨true, 0x4004, 1⟩, if n = k then 1 else 0⟩

theorem isRun_pulseAndClear (k m : ℕ) :
    intc.IsRun (intc.trace ⟨0, 0, 0, false, 0⟩ (pulseAndClear k m)) (pulseAndClear k m) :=
  Circuit.isRun_trace rfl fun _ => trivial

theorem rises_pulseAndClear {k m : ℕ} (h : Rises (pulseAndClear k m) b n) : n = k := by
  by_contra hn
  simp [Rises, pulseAndClear, hn] at h

theorem names_pulseAndClear {k m : ℕ} (h : (pulseAndClear k m n).names b) : n = m := by
  by_contra hn
  simp [IntcInputs.names, IntcInputs.writes, Intc.selects, pulseAndClear, hn] at h

/-- A clear on the next cycle does no harm. -/
theorem captured_pulse : Captured (pulseAndClear 3 4) 0 4 ∧ ∀ n,
    (∀ b, (intc.trace ⟨0, 0, 0, false, 0⟩ (pulseAndClear 3 4) n).pending.getLsbD b ↔
      Captured (pulseAndClear 3 4) b n) ∧
    ((intc.trace ⟨0, 0, 0, false, 0⟩ (pulseAndClear 3 4) n).irqOut ↔
      ∃ b, Captured (pulseAndClear 3 4) b n ∧
        (intc.trace ⟨0, 0, 0, false, 0⟩ (pulseAndClear 3 4) n).enable.getLsbD b) := by
  refine ⟨⟨3, by decide, ⟨by decide, by decide⟩, fun j hj _ => Nat.lt_succ_iff.1 hj⟩, ?_⟩
  exact (captured_iff (isRun_pulseAndClear 3 4)).2 fun _ _ ⟨hrise, hname⟩ =>
    absurd ((rises_pulseAndClear hrise).symm.trans (names_pulseAndClear hname)) (by decide)

/-- An edge on the cycle of its own clear is gone. -/
theorem lost_pulse :
    intc.IsRun (intc.trace ⟨0, 0, 0, false, 0⟩ (pulseAndClear 3 3)) (pulseAndClear 3 3) ∧
      Captured (pulseAndClear 3 3) 0 4 ∧
      (intc.trace ⟨0, 0, 0, false, 0⟩ (pulseAndClear 3 3) 4).pending = 0 := by
  refine ⟨isRun_pulseAndClear 3 3, ⟨3, by decide, ⟨by decide, by decide⟩, fun j hj _ =>
    Nat.lt_succ_iff.1 hj⟩, by decide⟩

end Rv32Soc
