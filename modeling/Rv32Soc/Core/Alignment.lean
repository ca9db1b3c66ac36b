import Rv32Soc.Core.Prediction
import Rv32Soc.Core.Traps

/-!
# Where the program counter points

Instructions start on even addresses. The redirect from EX clears the last bit of its
target; what fetch predicts is even because the program counter and the return
addresses are. A trap and `mret` go to `mtvec` and to `mepc` as they are, and a program
may leave anything there.

* `Core.Aligned`: the addresses in the pipeline are even, with those on the return address
  stack;
* `aligned_of_isRun`: they stay so exactly as long as no trap is taken to an odd `mtvec`,
  and no `mret` to an odd `mepc`.
-/

namespace Rv32Soc

namespace Core

/-! ## The return address stack -/

/-- The addresses on the return address stack are even. -/
def EvenRas (s : Core) : Prop :=
  ∀ k < s.pred.rasCount.toNat, IsEven (s.pred.rasStack (s.pred.rasSp - 1 - BitVec.ofNat 3 k))

variable {s : Core} {i : CoreInputs} {L : BitVec 16}

theorem EvenRas.top (h : s.EvenRas) (he : s.rasEmpty = false) : IsEven s.rasTop := by
  have hpos : s.pred.rasCount.toNat ≠ 0 := by
    intro h0
    rw [rasEmpty, beq_eq_false_iff_ne] at he
    exact he (BitVec.eq_of_toNat_eq h0)
  have htop := h 0 (Nat.pos_of_ne_zero hpos)
  rwa [BitVec.ofNat_eq_ofNat, BitVec.sub_zero] at htop

theorem sub_ofNat_succ (n : BitVec 3) (k : ℕ) :
    n - BitVec.ofNat 3 (k + 1) = n - 1 - BitVec.ofNat 3 k := by
  bv_omega

/-- A return address is pushed over the oldest one, or popped. -/
theorem EvenRas.next (h : s.EvenRas) (hpc : IsEven s.pc) : (s.nextWith i (s.nextPred i) L).EvenRas := by
  intro k hk
  rw [nextWith_pred] at hk ⊢
  have hret : IsEven (s.pc + pcInc (ifCompressed i)) := hpc.add (isEven_pcInc _)
  cases hpush : ifRasPushPattern i && s.ifPredictCommit i
  · cases hpop : ifRasPopPattern i && s.ifPredictCommit i && !s.rasEmpty
    · simp only [nextPred, hpush, hpop, Bool.false_and, Bool.false_eq_true, if_false] at hk ⊢
      exact h k hk
    · simp only [nextPred, hpush, hpop, Bool.false_and, Bool.false_eq_true, if_false, if_true] at hk ⊢
      have hne : s.pred.rasCount ≠ 0 := by
        simp only [rasEmpty, Bool.and_eq_true, Bool.not_eq_true', beq_eq_false_iff_ne] at hpop
        exact hpop.2
      have hlt : k + 1 < s.pred.rasCount.toNat := by
        bv_omega
      have hnext := h (k + 1) hlt
      rwa [sub_ofNat_succ] at hnext
  · simp only [nextPred, hpush, Bool.true_and, if_true] at hk ⊢
    split
    · exact hret
    · next hn =>
      -- below the new address are those that were there
      cases k with
      | zero =>
        refine absurd ?_ hn
        rw [beq_iff_eq]
        simp
      | succ k =>
        have hlt : k < s.pred.rasCount.toNat := by
          split at hk
          · next h8 =>
            rw [h8]
            exact Nat.lt_of_succ_lt hk
          · bv_omega
        rw [sub_ofNat_succ, BitVec.add_sub_cancel]
        exact h k hlt

/-! ## The pipeline -/

/-- The addresses in the pipeline are even. -/
structure Aligned (s : Core) : Prop where
  pc : IsEven s.pc
  ifId : IsEven s.ifId.pc
  idEx : IsEven s.idEx.pc
  ras : s.EvenRas

/-- A trap is taken to an odd address, or `mret` goes to one. -/
def TakesOdd (s : Core) (i : CoreInputs) : Prop :=
  ((s.trap i).trapTaken ∧ ¬IsEven s.csr.mtvec) ∨
    ((s.trap i).trapTaken = false ∧ (s.trap i).mretExec ∧ ¬IsEven s.csr.mepc)

theorem Aligned.ifPredictedTarget (h : s.Aligned) : IsEven (s.ifPredictedTarget i) := by
  unfold Core.ifPredictedTarget
  split
  · next hr =>
    refine h.ras.top ?_
    simp only [ifRasHit, Bool.and_eq_true, Bool.not_eq_true'] at hr
    exact hr.1.2
  · split
    · exact h.pc.add (isEven_immB _)
    · exact h.pc.add (isEven_immJ _)

/-- Where a trap or `mret` goes. -/
theorem isEven_trapTargetPc (ht : ¬s.TakesOdd i) (ho : (s.trap i).pcTrapOverride) :
    IsEven (s.trap i).trapTargetPc := by
  rw [TakesOdd, not_or] at ht
  cases htt : (s.trap i).trapTaken
  · have hm : (s.trap i).mretExec := by simpa [trap_pcTrapOverride, htt] using ho
    rw [target_of_mretExec htt hm]
    by_contra hodd
    exact ht.2 ⟨htt, hm, hodd⟩
  · rw [(target_of_trapTaken htt).1]
    by_contra hodd
    exact ht.1 ⟨htt, hodd⟩

theorem Aligned.nextPc (h : s.Aligned) (ht : ¬s.TakesOdd i) : IsEven (s.nextPc i) := by
  unfold Core.nextPc
  split
  · exact h.pc
  · split
    · next ho => exact isEven_trapTargetPc ht ho
    · split
      · exact isEven_and _
      · split
        · exact h.ifPredictedTarget
        · exact h.pc.add (isEven_pcInc _)

theorem Aligned.next (h : s.Aligned) (ht : ¬s.TakesOdd i) : (s.nextWith i (s.nextPred i) L).Aligned where
  pc := by
    rw [nextWith_pc]
    exact h.nextPc ht
  ifId := by
    rw [nextWith_ifId]
    rcases s.nextIfId_cases i with ⟨-, he⟩ | ⟨-, -, he⟩ | ⟨-, -, -, -, he⟩ |
      ⟨-, -, -, -, he⟩ <;> rw [he]
    · exact h.ifId
    · decide
    · exact h.ifId
    · exact h.pc
  idEx := by
    rw [nextWith_idEx]
    rcases s.nextIdEx_cases i with ⟨-, he⟩ | ⟨-, -, he⟩ | ⟨-, -, -, -, he⟩ <;> rw [he]
    · exact h.idEx
    · decide
    · exact h.ifId
  ras := h.ras.next h.pc

/-- What goes to an odd address arrives there. -/
theorem TakesOdd.next (h : s.TakesOdd i) (p : Predictor) : ¬IsEven (s.nextWith i p L).pc := by
  have ho : (s.trap i).pcTrapOverride ∧ ¬IsEven (s.trap i).trapTargetPc := by
    rcases h with ⟨ht, hodd⟩ | ⟨ht, hm, hodd⟩
    · exact ⟨by rw [trap_pcTrapOverride, ht, Bool.true_or], by rwa [(target_of_trapTaken ht).1]⟩
    · exact ⟨by rw [trap_pcTrapOverride, hm, Bool.or_true], by rwa [target_of_mretExec ht hm]⟩
  rw [nextWith_pc, nextPc, globalMemStall_of_pcTrapOverride ho.1, ho.1]
  simpa using ho.2

theorem IsReset.aligned (h : s.IsReset) : s.Aligned := by
  obtain ⟨h₁, h₂, h₃, -, -, -, -, -, h₄, -⟩ := h
  refine ⟨by rw [h₁]; decide, by rw [h₂]; decide, by rw [h₃]; decide, fun k hk => ?_⟩
  rw [h₄] at hk
  exact absurd hk (Nat.not_lt_zero k)

/-! ## What software writes -/

/-- What the CSR instruction in EX writes with. -/
def csrWdata (s : Core) :
    Word := if s.idEx.ctl.csrUseImm then s.idEx.ctl.csrUimm.setWidth 32 else s.fwdRs1

/-- A CSR instruction leaves an odd address in `mtvec` or in `mepc`. -/
def WritesOdd (s : Core) (i : CoreInputs) : Prop :=
  s.writesCsr i ∧
    ((csrField s.idEx.inst = 0x305 ∧ ¬IsEven (CsrFile.written s.idEx.ctl.csrOp s.csr.mtvec s.csrWdata)) ∨
      (csrField s.idEx.inst = 0x341 ∧ ¬IsEven (CsrFile.written s.idEx.ctl.csrOp s.csr.mepc s.csrWdata)))

/-- The addresses that traps use stay even, if software leaves none there that is odd. -/
theorem even_nextCsr (hpc : IsEven s.idEx.pc) (ht : IsEven s.csr.mtvec) (he : IsEven s.csr.mepc)
    (hw : ¬s.WritesOdd i) :
    IsEven (s.nextCsr i).mtvec ∧ IsEven (s.nextCsr i).mepc := by
  unfold nextCsr
  split
  · next htt => exact ⟨ht, by rw [(target_of_trapTaken htt).2]; exact hpc⟩
  · next htt =>
    split
    · exact ⟨ht, he⟩
    · next hm =>
      split
      · next hc =>
        have hw' : s.writesCsr i := by simp [writesCsr, hc, htt, hm]
        rw [WritesOdd, not_and, not_or, not_and, not_not, not_and, not_not] at hw
        obtain ⟨h₁, h₂⟩ := hw hw'
        rw [CsrFile.write]
        split
        · exact ⟨ht, he⟩
        · exact ⟨ht, he⟩
        · next hn => exact ⟨h₁ (BitVec.eq_of_toNat_eq hn), he⟩
        · next hn => exact ⟨ht, h₂ (BitVec.eq_of_toNat_eq hn)⟩
        · exact ⟨ht, he⟩
        · exact ⟨ht, he⟩
        · exact ⟨ht, he⟩
      · exact ⟨ht, he⟩

end Core

/-! ## Runs -/

section

variable {STALL_WATCHDOG_LIMIT : BitVec 16} {σ : ℕ → Core} {ι : ℕ → CoreInputs}

theorem aligned_of_takes (h : (core STALL_WATCHDOG_LIMIT).IsRun σ fun n =>
    (ι n, (σ n).nextPred (ι n))) {n : ℕ} (ht : ∀ m < n, ¬(σ m).TakesOdd (ι m)) : (σ n).Aligned := by
  induction n with
  | zero => exact Core.IsReset.aligned h.init
  | succ n ih =>
    rw [core_next h n]
    exact (ih fun m hm => ht m (hm.trans n.lt_succ_self)).next (ht n n.lt_succ_self)

theorem takesOdd_of_writes (h : (core STALL_WATCHDOG_LIMIT).IsRun σ fun n => (ι n, (σ n).nextPred (ι n)))
    (hw : ∀ n, ¬(σ n).WritesOdd (ι n)) (n : ℕ) : ¬(σ n).TakesOdd (ι n) := by
  have hinv : ∀ n, (σ n).Aligned ∧ IsEven (σ n).csr.mtvec ∧ IsEven (σ n).csr.mepc := by
    intro n
    induction n with
    | zero =>
      refine ⟨Core.IsReset.aligned h.init, ?_⟩
      obtain ⟨-, -, -, -, -, -, -, -, -, hc, -⟩ := h.init
      rw [hc]
      decide
    | succ n ih =>
      obtain ⟨ha, ht, he⟩ := ih
      rw [core_next h n, Core.nextWith_csr]
      refine ⟨ha.next ?_, Core.even_nextCsr ha.idEx ht he (hw n)⟩
      rintro (⟨-, hodd⟩ | ⟨-, -, hodd⟩)
      · exact hodd ht
      · exact hodd he
  obtain ⟨-, ht, he⟩ := hinv n
  rintro (⟨-, hodd⟩ | ⟨-, -, hodd⟩)
  · exact hodd ht
  · exact hodd he

/-- The program counter, the address in EX and the address that a trap saves are even throughout a
    run exactly if no trap is taken to an odd `mtvec` and no `mret` to an odd `mepc`; in particular,
    if no CSR instruction leaves an odd address there. -/
theorem aligned_of_isRun (h : (core STALL_WATCHDOG_LIMIT).IsRun σ fun n => (ι n, (σ n).nextPred (ι n))) :
    ((∀ n, IsEven (σ n).pc ∧ IsEven (σ n).idEx.pc ∧ (((σ n).trap (ι n)).trapTaken →
      IsEven (σ (n + 1)).csr.mepc)) ↔
        ∀ n, ¬(σ n).TakesOdd (ι n)) ∧
      ((∀ n, ¬(σ n).WritesOdd (ι n)) → ∀ n, ¬(σ n).TakesOdd (ι n)) := by
  refine ⟨⟨fun hall n ht => ?_, fun ht n => ?_⟩, takesOdd_of_writes h⟩
  · have hodd := ht.next (L := STALL_WATCHDOG_LIMIT) ((σ n).nextPred (ι n))
    rw [← core_next h n] at hodd
    exact hodd (hall (n + 1)).1
  · have ha := aligned_of_takes h (n := n) fun m _ => ht m
    refine ⟨ha.pc, ha.idEx, fun htt => ?_⟩
    rw [core_next h n, Core.nextWith_csr, Core.nextCsr, if_pos htt]
    show IsEven ((σ n).trap (ι n)).trapPc
    rw [(Core.target_of_trapTaken htt).2]
    exact ha.idEx

end

/-! ### Runs -/

/-- `csrrwi x0, mtvec, 1` and `ecall`. -/
def oddMtvec : Mem := fun a =>
  if a = 0x40000000 then 0x73
  else if a = 0x40000001 then 0xD0
  else if a = 0x40000002 then 0x50
  else if a = 0x40000003 then 0x30
  else if a = 0x40000004 then 0x73
  else 0

theorem oddMtvec_pc :
    ¬∀ (L : BitVec 16) (σ : ℕ → Core) (ι : ℕ → CoreInputs),
      ((core L).IsRun σ fun n => (ι n, (σ n).nextPred (ι n))) →
      ∀ n, IsEven (σ n).pc ∧ IsEven (σ n).idEx.pc ∧ (((σ n).trap (ι n)).trapTaken →
        IsEven (σ (n + 1)).csr.mepc) := by
  intro h
  have h' := (h 1023 _ _ (isRun_predTrace oddMtvec isReset_resetCore fun _ => .ready) 4).1
  revert h'
  decide +kernel

/-- Nothing but `c.addi x2, 0`. -/
def addis : Mem := fun _ => 0x01

theorem csrWen_addis (n : ℕ) :
    (controlLogic (predTrace addis resetCore (fun _ => .ready) n).ifId.inst).csrWen = false ∧
      (predTrace addis resetCore (fun _ => .ready) n).idEx.ctl.csrWen = false := by
  induction n with
  | zero => decide
  | succ n ih =>
    obtain ⟨h₁, h₂⟩ := ih
    rw [predTrace, ← Core.nextWith_nextPred, Core.nextWith_ifId, Core.nextWith_idEx]
    refine ⟨?_, ?_⟩
    · rcases Core.nextIfId_cases _ _ with ⟨-, he⟩ | ⟨-, -, he⟩ | ⟨-, -, -, -, he⟩ |
        ⟨-, -, -, -, he⟩ <;> rw [he]
      · exact h₁
      · decide
      · exact h₁
      · have hf : ∀ a, addis.fetchWord a = 0x01010101 :=
          fun _ => (by decide : ((1#8 ++ 1#8) ++ (1#8 ++ 1#8) : Word) = _)
        show (controlLogic (muxedIfInst (addis.fetchWord _))).csrWen = false
        rw [hf]
        decide
    · rcases Core.nextIdEx_cases _ _ with ⟨-, he⟩ | ⟨-, -, he⟩ | ⟨-, -, -, -, he⟩ <;> rw [he]
      · exact h₂
      · decide
      · exact h₁

theorem addis_pc : resetCore.IsReset ∧ ∀ n, IsEven (predTrace addis resetCore (fun _ => .ready) n).pc ∧
    IsEven (predTrace addis resetCore (fun _ => .ready) n).idEx.pc := by
  refine ⟨isReset_resetCore, fun n => ?_⟩
  have h := aligned_of_isRun (isRun_predTrace addis isReset_resetCore fun _ => .ready)
  have hw := h.2 fun k ⟨hw, _⟩ => by
    simp only [Core.writesCsr, Core.exCsrWen, (csrWen_addis k).2, Bool.false_and,
      Bool.false_eq_true] at hw
  exact ⟨(h.1.2 hw n).1, (h.1.2 hw n).2.1⟩

end Rv32Soc
