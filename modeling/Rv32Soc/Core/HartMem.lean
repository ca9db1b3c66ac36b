import Rv32Soc.Core.HartEx
import Rv32Soc.Core.Reservation

/-!
# MEM against the hart

The instruction in MEM leaves it as the one that the hart executes next (`InFlight`): it writes its
register, stores and reserves what it does there.

* `Core.memAfter`: memory once the instruction in MEM has left it;
* `Core.Served`: what the instruction in MEM relies on, for what it has read, and for a reservation;
* `Core.Served.finishes`: it is then executed as the hart does.
-/

namespace Rv32Soc

open Riscv (Instr State)

/-! ## What the hart leaves alone -/

namespace Riscv.Instr

variable {i : Instr} {a : State} {len : Word} {r r' : Bool}

/-- Only a store-conditional depends on a reservation. -/
theorem exec_of_isSc (h : i.isSc = false) : i.exec len r a = i.exec len r' a := by
  cases i <;> first | rfl | cases h

/-- Control depends neither on memory nor on a reservation. -/
theorem pc_exec (m : Mem) : (i.exec len r { a with mem := m }).pc = (i.exec len r' a).pc := by
  cases i <;> rfl

theorem access_of_loads (h : i.loads ∨ i.stores) : ∃ x n, i.access a = some (x, n) := by
  cases i <;> first | exact ⟨_, _, rfl⟩ | simp [loads, stores] at h

theorem access_of_mem (m : Mem) : i.access { a with mem := m } = i.access a := by
  cases i <;> rfl

theorem access_of_touchesDevice (h : i.touchesDevice a) :
    ∃ x n, i.access a = some (x, n) ∧ isDevice x := by
  rw [touchesDevice] at h
  split at h
  · next x n hacc => exact ⟨x, n, hacc, h⟩
  · cases h

end Riscv.Instr

/-- A memory that holds one word everywhere. -/
theorem Mem.word_bytes (w a : Word) : Mem.word (fun x => byteOf w (byteNo x)) a = w := by
  refine word_ext fun b => ?_
  rw [byteOf_word]
  exact congrArg (byteOf w) BitVec.extractLsb'_append_eq_right

namespace Core

variable (s : Core) (i : CoreInputs)

/-- Memory once the instruction in MEM has left it. -/
def memAfter (m : Mem) : Mem :=
  if s.memAddrIsCacheable then
    if s.exMem.isAmo then m.store s.exMem.alu s.amoNewValue 0b1111
    else if s.storeCommits then m.store s.exMem.alu s.storeData s.memWriteMask else m
  else m

/-- What the instruction in MEM relies on when it leaves: `m` is memory and `a` is reserved. -/
structure Served (m : Mem) (reserved : Option Word) : Prop where
  load : s.isLoad → s.memAddrIsCacheable → i.dcacheReadData = m.word s.exMem.alu
  amo : s.exMem.isAmo → s.amo.amoOldValue = m.word s.exMem.alu
  sc : s.exMem.isSc → (s.scSuccessFlag ↔ reserved = some s.exMem.alu)

/-- The instruction in MEM leaves as the hart executes it. -/
structure Finishes (h h' : Hart) : Prop where
  completes : h.Completes h'
  regs : ∀ r, (if (s.accessed i).writes r then (s.accessed i).wbData else h.state.get r) = h'.state.get r
  mem : s.memAfter h.state.mem = h'.state.mem
  reserved : ∀ a, h'.reserved = some a ↔ s.exMem.isLr ∧ s.exMem.alu = a ∨
    h.reserved = some a ∧ ¬(s.isStore ∨ s.exMem.isAmo ∨ s.exMem.isSc ∨
      s.exMem.isLr ∧ s.exMem.alu ≠ a)

variable {s i}

/-- The address decoder of the pipeline. -/
theorem memAddrIsCacheable_eq : s.memAddrIsCacheable = !isDevice s.exMem.alu := by
  rw [memAddrIsCacheable, isMmio, isLed, isClint, isUart, isIntc, isAccel, isDevice]
  simp only [Bool.not_or]

end Core

/-! ## What computes only -/

namespace ExMem.Computes

variable {s : Core} {i : CoreInputs} {rd : BitVec 5} {v : Word} (h : s.exMem.Computes rd v)

include h

theorem regs (x : State) (pc : Word) (m : Mem) (r : BitVec 5) :
    (if (s.accessed i).writes r then (s.accessed i).wbData else x.get r) = State.get ⟨pc,
      x.setReg rd v, m⟩ r := by
  have hwrites : (s.accessed i).writes r = (rd == r && r != 0) := by
    show (s.exMem.regWen && s.exMem.rd == r && r != 0) = _
    rw [h.regWen, h.rd, Bool.true_and]
  have hdata : (s.accessed i).wbData = v := by
    rw [MemWb.wbData, if_pos (show (s.accessed i).wbSel = 0b01 from h.wbSel)]
    show s.finalAluToWb = v
    rw [Core.finalAluToWb, h.isSc, if_neg Bool.false_ne_true, h.alu]
  rw [hwrites, hdata, State.get_setReg]
  by_cases hr : rd = r
  · subst hr
    simp
  · rw [beq_false_of_ne hr, Bool.false_and, if_neg Bool.false_ne_true, if_neg fun h' => hr h'.1.symm]

theorem memAfter (m : Mem) : s.memAfter m = m := by
  simp [Core.memAfter, h.isAmo, Core.storeCommits, Core.isStore, h.memRw]

theorem reserved (x : Option Word) (a : Word) : x = some a ↔ s.exMem.isLr ∧ s.exMem.alu = a ∨
    x = some a ∧ ¬(s.isStore ∨ s.exMem.isAmo ∨ s.exMem.isSc ∨ s.exMem.isLr ∧ s.exMem.alu ≠ a) := by
  simp [h.isLr, h.isAmo, h.isSc, Core.isStore, h.memRw]

end ExMem.Computes

/-! ## User-level instructions -/

namespace Core.Executes

variable {s₀ s : Core} {i₀ i : CoreInputs} {inst : Word} {compressed reserved : Bool}
  {a b : State} {ins : Instr}

section

variable (E : s₀.Executes inst compressed a) (hi : Riscv.decode inst = some ins)
  (hx : s.exMem = s₀.executed i₀)

include E hi hx

/-- What MEM has of the instruction. -/
theorem flags :
    s.exMem.regWen = ins.dest.isSome ∧ (∀ r ∈ ins.dest, s.exMem.rd = r) ∧ s.isStore = ins.stores ∧
      s.exMem.isLr = ins.isLr ∧ s.exMem.isSc = ins.isSc ∧ s.exMem.isAmo = ins.isAmo ∧
      (ins.dest.isSome → (s.exMem.wbSel = 0 ↔ ins.loads)) := by
  have hc := encodes_of_decode hi
  rw [isStore, hx]
  simp only [executed, E.ctl, E.rd, E.holds]
  exact ⟨hc.regWen, hc.rd, hc.memRw, hc.isLr, hc.isSc, hc.isAmo, hc.wbSel⟩

theorem alu_of_access {x : Word} {n : ℕ} (hacc : ins.access a = some (x, n)) : s.exMem.alu = x := by
  rw [hx]
  exact (E.addresses hi hacc).alu

theorem loads_of_isLoad (hl : s.isLoad) : ins.loads := by
  obtain ⟨hw, -, -, -, -, -, hwb⟩ := E.flags hi hx
  simp only [isLoad, Bool.and_eq_true, beq_iff_eq] at hl
  exact (hwb (hw.symm.trans hl.1.2)).1 hl.1.1

theorem no_access (h : ¬(ins.loads ∨ ins.stores)) : s.storeCommits = false ∧ s.exMem.isAmo = false := by
  obtain ⟨-, -, hst, -, -, hamo, -⟩ := E.flags hi hx
  rw [not_or, Bool.not_eq_true, Bool.not_eq_true] at h
  refine ⟨by rw [storeCommits, hst, h.2, Bool.false_and], hamo.trans ?_⟩
  have hl := h.1
  cases ins <;> first | rfl | cases hl

variable (hag : Riscv.Agree ins a b) (hal : ins.Aligned b) (he : IsEven b.pc)
  (hamo : s.exMem.isAmo → s.amo.amoOldValue = b.mem.word s.exMem.alu) (hsc : ins.isSc →
    s.scSuccessFlag = reserved)

include hag hal he hamo hsc

theorem inMem_effect : s₀.InMem i₀ s.scSuccessFlag a s ∧
    s₀.Effect i₀ s.scSuccessFlag a (ins.exec (pcInc compressed) s.scSuccessFlag a) ∧
    ins.exec (pcInc compressed) s.scSuccessFlag b = ins.exec (pcInc compressed) reserved b := by
  refine ⟨⟨hx, rfl, fun h => by rw [hag.mem, hamo h]⟩, ?_, ?_⟩
  · exact effect_of_decode E hi (hag.pc ▸ he) ((Instr.aligned_congr hag).2 hal)
  · cases hs : ins.isSc
    · exact Instr.exec_of_isSc hs
    · rw [hsc hs]

/-- WB writes what the instruction does. -/
theorem regs_exec (hload : s.isLoad → s.finalMemReadData i = b.mem.word s.exMem.alu) (r : BitVec 5) :
    (if (s.accessed i).writes r then (s.accessed i).wbData else b.get r) =
      (ins.exec (pcInc compressed) reserved b).get r := by
  obtain ⟨hin, heff, hexec⟩ := E.inMem_effect hi hx hag hal he hamo hsc
  obtain ⟨hw, hrd, -, -, -, -, hwb⟩ := E.flags hi hx
  have hwrites : (s.accessed i).writes r = (s.exMem.regWen && s.exMem.rd == r && r != 0) := rfl
  by_cases hr : ins.dest = some r
  · by_cases h0 : r = 0
    · subst h0
      rw [hwrites, bne_self_eq_false, Bool.and_false]
      rfl
    · have hregs := heff.regs s i hin (fun hsel hna => ?_) r
      · have hon : (s.accessed i).writes r := by
          rw [hwrites, hw, hrd r hr, hr]
          simpa using h0
        rw [writtenBack, if_pos hon] at hregs
        rw [if_pos hon, hregs, ← hexec]
        exact (Instr.exec_congr hag).2.2 r hr
      · rw [hag.mem]
        refine hload ?_
        rw [isLoad, hsel, hw, hr, hna]
        rfl
  · have hoff : (s.accessed i).writes r = false := by
      rw [hwrites, hw]
      cases hd : ins.dest with
      | none => rfl
      | some x =>
        have hne : ¬x = r := fun h => hr (h ▸ hd)
        rw [hrd x hd, beq_false_of_ne hne]
        rfl
    rw [hoff, if_neg Bool.false_ne_true, Instr.get_exec hr]

/-- Memory is written as the instruction does. -/
theorem mem_exec : (if s.exMem.isAmo then b.mem.store s.exMem.alu s.amoNewValue 0b1111
      else if s.storeCommits then b.mem.store s.exMem.alu s.storeData s.memWriteMask else b.mem) =
    (ins.exec (pcInc compressed) reserved b).mem := by
  obtain ⟨hin, heff, hexec⟩ := E.inMem_effect hi hx hag hal he hamo hsc
  rw [← hexec, ← (Instr.exec_congr hag).2.1, ← hag.mem]
  cases ha : s.exMem.isAmo
  · have hphase : s.amoWritePhase = false := by rw [amoWritePhase, ha]; rfl
    rw [← heff.mem s hin fun h => absurd (ha.symm.trans h) (by decide), stored, hphase, Bool.or_false]
    rfl
  · -- in the phase of the sequencer in which it has written
    let t : Core := { s with amo := { s.amo with amoState := .AMO_WRITE, amoResultReady := false } }
    have hphase : t.amoWritePhase := by
      show (s.exMem.isAmo && _ && _) = true
      rw [ha]
      rfl
    rw [← heff.mem t ⟨hin.exMem, hin.reserved, hin.amo⟩ fun _ => hphase, stored, hphase,
      Bool.or_true, if_pos rfl, if_pos rfl, storeData, if_pos hphase, memWriteMask, if_pos hphase]
    rfl

end

/-- The hart reserves and drops what the pipeline does. -/
theorem reserved_iff (E : s₀.Executes inst compressed a) (hi : Riscv.decode inst = some ins)
    (hx : s.exMem = s₀.executed i₀) {h : Hart} (hag : Riscv.Agree ins a h.state) (x : Word) :
    h.reservedAfter ins = some x ↔ s.exMem.isLr ∧ s.exMem.alu = x ∨
      h.reserved = some x ∧ ¬(s.isStore ∨ s.exMem.isAmo ∨ s.exMem.isSc ∨ s.exMem.isLr ∧
        s.exMem.alu ≠ x) := by
  obtain ⟨-, -, hst, hlr, hsc, hamo, -⟩ := E.flags hi hx
  have halu : ∀ {y : Word} {n : ℕ}, ins.access h.state = some (y, n) → s.exMem.alu = y := fun hacc =>
    E.alu_of_access hi hx ((Instr.access_congr hag).trans hacc)
  rw [hst, hlr, hsc, hamo]
  cases ins with
  | lr rd rs1 =>
    rw [halu rfl]
    by_cases hy : h.state.get rs1 = x <;>
      simp [Hart.reservedAfter, Instr.isLr, Instr.isSc, Instr.isAmo, Instr.stores, hy]
  | store | sc | amo => simp [Hart.reservedAfter, Instr.isLr, Instr.isSc, Instr.isAmo, Instr.stores]
  | _ => simp [Hart.reservedAfter, Instr.isLr, Instr.isSc, Instr.isAmo, Instr.stores]

end Core.Executes

/-! ## The instruction in MEM -/

namespace Core

variable {s : Core} {i : CoreInputs} {h : Hart} {c : CsrFile} {e : Word}

/-- What MEM has read from the D-cache or the TCM. -/
theorem finalMemReadData_eq (hc : s.memAddrIsCacheable) (ha : s.exMem.isAmo = false) :
    s.finalMemReadData i = i.dcacheReadData := by
  simp only [memAddrIsCacheable, isMmio, Bool.and_eq_true, Bool.not_eq_true', Bool.or_eq_false_iff] at hc
  obtain ⟨⟨⟨⟨hl, hcl⟩, hu⟩, hi⟩, hx⟩ := hc
  rw [finalMemReadData, ha, hcl, hl, hu, hi, hx]
  rfl

/-- What an atomic instruction works on is memory. -/
theorem cacheable_of_inFlight (hf : InFlight s.exMem h c e)
    (hat : ∀ ins, kind h.word = .user ins → ins.touchesDevice h.state → ins.isLr = false ∧
      ins.isAmo = false)
    (ha : s.exMem.isLr ∨ s.exMem.isAmo) : s.memAddrIsCacheable := by
  cases hf with
  | csr _ _ _ hc => simp [hc.isLr, hc.isAmo] at ha
  | nop _ hc => simp [hc.isLr, hc.isAmo] at ha
  | @user ins a s₀ i₀ hk hal hag E hx =>
    have hi : Riscv.decode h.inst = some ins := decode_of_kind hk
    obtain ⟨-, -, -, hlr, -, hamo, -⟩ := E.flags hi hx
    rw [hlr, hamo] at ha
    have hl : ins.loads := by cases ins <;> first | rfl | simp [Instr.isLr, Instr.isAmo] at ha
    obtain ⟨x, n, hacc⟩ := Instr.access_of_loads (a := h.state) (.inl hl)
    rw [memAddrIsCacheable_eq, E.alu_of_access hi hx ((Instr.access_congr hag).trans hacc),
      Bool.not_eq_true', Bool.eq_false_iff]
    intro hd
    have hno := hat ins hk (by rw [Riscv.Instr.touchesDevice, hacc]; exact hd)
    rw [hno.1, hno.2] at ha
    simp at ha

section

variable {ins : Instr} {a : State} {s₀ : Core} {i₀ : CoreInputs}

/-- A store-conditional succeeds as it does in the hart. -/
theorem Served.succeeds (S : s.Served i h.state.mem h.reserved) (hi : Riscv.decode h.inst = some ins)
    (hag : Riscv.Agree ins a h.state) (E : s₀.Executes h.inst h.compressed a)
    (hx : s.exMem = s₀.executed i₀) (hs : ins.isSc) : s.scSuccessFlag = h.succeeds ins := by
  obtain ⟨-, -, -, -, hisc, -⟩ := E.flags hi hx
  have hflag := S.sc (hisc.trans hs)
  cases ins with
  | sc rd rs1 rs2 =>
    rw [E.alu_of_access hi hx ((Instr.access_congr hag).trans rfl)] at hflag
    rw [Bool.eq_iff_iff, hflag]
    exact beq_iff_eq.symm
  | _ => cases hs

/-- An instruction that touches no peripheral accesses memory, if anything. -/
theorem Served.finishes_memory (S : s.Served i h.state.mem h.reserved) (hk : kind h.word = .user ins)
    (hal : ins.Aligned h.state) (hag : Riscv.Agree ins a h.state) (E : s₀.Executes h.inst h.compressed a)
    (hx : s.exMem = s₀.executed i₀) (he : IsEven h.state.pc) (ht : ins.touchesDevice h.state = false) :
    ∃ h', s.Finishes i h h' ∧ h'.csr = h.csr ∧ h'.state.pc = (ins.exec h.len false h.state).pc := by
  have hi : Riscv.decode h.inst = some ins := decode_of_kind hk
  have hsc := S.succeeds hi hag E hx
  have hcache : ins.loads ∨ ins.stores → s.memAddrIsCacheable := by
    intro hl
    obtain ⟨x, n, hacc⟩ := Instr.access_of_loads (a := h.state) hl
    rw [memAddrIsCacheable_eq, E.alu_of_access hi hx ((Instr.access_congr hag).trans hacc)]
    rw [Riscv.Instr.touchesDevice, hacc] at ht
    simpa using ht
  have hstate : (h.exec h.state.mem ins).state = ins.exec h.len (h.succeeds ins) h.state := by
    rw [Hart.exec, ht]
    rfl
  refine ⟨_, ⟨.user h.state.mem hk hal, fun r => ?_, ?_, E.reserved_iff hi hx hag⟩, rfl, ?_⟩
  · rw [hstate]
    refine E.regs_exec hi hx hag hal he S.amo hsc (fun hl => ?_) r
    have hc := hcache (.inl (E.loads_of_isLoad hi hx hl))
    have hna : s.exMem.isAmo = false := by
      simp only [isLoad, Bool.and_eq_true, Bool.not_eq_true'] at hl
      exact hl.2
    rw [finalMemReadData_eq hc hna, S.load hl hc]
  · rw [hstate]
    refine Eq.trans ?_ (E.mem_exec hi hx hag hal he S.amo hsc)
    rw [memAfter]
    by_cases hl : ins.loads ∨ ins.stores
    · rw [if_pos (hcache hl)]
    · obtain ⟨hs, ha⟩ := E.no_access hi hx hl
      rw [hs, ha]
      simp
  · rw [hstate]
    exact Instr.pc_exec h.state.mem

/-- A peripheral answers what it likes: the hart finishes as it would with the answer in memory, and
    its memory stays. -/
theorem Served.finishes_device (S : s.Served i h.state.mem h.reserved) (hk : kind h.word = .user ins)
    (hal : ins.Aligned h.state) (hag : Riscv.Agree ins a h.state) (E : s₀.Executes h.inst h.compressed a)
    (hx : s.exMem = s₀.executed i₀) (he : IsEven h.state.pc) (ht : ins.touchesDevice h.state)
    (hnamo : ins.isAmo = false) :
    ∃ h', s.Finishes i h h' ∧ h'.csr = h.csr ∧ h'.state.pc = (ins.exec h.len false h.state).pc := by
  have hi : Riscv.decode h.inst = some ins := decode_of_kind hk
  obtain ⟨-, -, -, -, -, hiamo, -⟩ := E.flags hi hx
  let d : Mem := fun y => byteOf (s.finalMemReadData i) (byteNo y)
  let b : State := { h.state with mem := d }
  have E' : s₀.Executes h.inst h.compressed { a with mem := d } :=
    ⟨E.holds, E.decoded, E.rd, E.compressed, E.pc, E.rs1, E.rs2, E.div⟩
  have hag' : Riscv.Agree ins { a with mem := d } b := ⟨hag.pc, rfl, hag.sources⟩
  have hal' : ins.Aligned b := by
    rw [Instr.Aligned, Instr.access_of_mem]
    exact hal
  have hna : s.exMem.isAmo = false := hiamo.trans hnamo
  have hstate : (h.exec d ins).state =
      { ins.exec h.len (h.succeeds ins) b with mem := h.state.mem } := by
    rw [Hart.exec, ht]
    rfl
  refine ⟨_, ⟨.user d hk hal, fun r => ?_, ?_, E.reserved_iff hi hx hag⟩, rfl, ?_⟩
  · rw [hstate]
    refine E'.regs_exec (b := b) hi hx hag' hal' he (fun hm => absurd (hna.symm.trans hm) (by decide))
      (S.succeeds hi hag E hx) (fun _ => ?_) r
    exact (Mem.word_bytes _ _).symm
  · rw [hstate, memAfter, memAddrIsCacheable_eq]
    obtain ⟨x, n, hacc, hdev⟩ := Instr.access_of_touchesDevice ht
    rw [E.alu_of_access hi hx ((Instr.access_congr hag).trans hacc), hdev]
    rfl
  · rw [hstate]
    exact Instr.pc_exec d

end

theorem Served.finishes (S : s.Served i h.state.mem h.reserved) (hf : InFlight s.exMem h c e)
    (he : IsEven h.state.pc)
    (hat : ∀ ins, kind h.word = .user ins → ins.touchesDevice h.state → ins.isLr = false ∧
      ins.isAmo = false) :
    ∃ h', s.Finishes i h h' ∧ h'.csr = c ∧ h'.state.pc = e := by
  cases hf with
  | csr timer external hk hc =>
    exact ⟨_, ⟨.csr timer external hk, fun r => hc.regs h.state _ _ r, hc.memAfter _,
      hc.reserved _⟩, rfl, rfl⟩
  | nop hk hc =>
    refine ⟨_, ⟨.nop hk, fun r => ?_, hc.memAfter _, hc.reserved _⟩, rfl, rfl⟩
    rw [hc.regs h.state h.skip.state.pc h.state.mem r, State.get_setReg, if_neg fun h' => h'.2 rfl]
    rfl
  | @user ins a s₀ i₀ hk hal hag E hx =>
    cases ht : ins.touchesDevice h.state
    · exact S.finishes_memory hk hal hag E hx he ht
    · exact S.finishes_device hk hal hag E hx he ht (hat ins hk ht).2

end Core

end Rv32Soc
