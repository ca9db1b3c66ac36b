import Rv32Soc.Core.Intc
import Rv32Soc.Lib.Assign

/-!
# The `ENABLE` register between threads and interrupts

`intr_enable` and `intr_disable` of the interrupt controller's driver, called by threads and
by interrupt handlers. A call reads `ENABLE`, changes the bit of its source, and writes the
register back. A handler that comes in between runs to its end, and what it has written is
then overwritten: it is as if its calls had never been made (`Inv`). The register still is
what some order of all calls leaves in two cases, source by source: a call for the source was
made outside of such a window, or one asks for what the source had at the beginning
(`exists_order_iff`).
-/

namespace Rv32Soc

/-- A call of `rv32_5stage_intc_intr_enable` or of `rv32_5stage_intc_intr_disable`. -/
inductive IrqCall
  | intrEnable (irq : ℕ)
  | intrDisable (irq : ℕ)
  deriving DecidableEq

/-- The access a call makes next. -/
inductive IrqPc
  | readEnable
  | clearPending (enable : Word)
  | writeEnable (enable : Word)
  deriving DecidableEq

def BIT (n : ℕ) : Word := 1#32 <<< n

/-- `cfg->base`, and the two registers. -/
def intcBase : Word := 0x00004000
def RV32_5STAGE_INTC_ENABLE_REG : Word := 0x0
def RV32_5STAGE_INTC_PENDING_REG : Word := 0x4

/-- What a call has read. -/
def IrqPc.saved : IrqPc → Option Word
  | readEnable => none
  | clearPending enable => some enable
  | writeEnable enable => some enable

namespace IrqCall

variable (c : IrqCall)

def irq : IrqCall → ℕ
  | intrEnable irq => irq
  | intrDisable irq => irq

/-- What a call asks for. -/
def asks : IrqCall → Bool
  | intrEnable _ => true
  | intrDisable _ => false

/-- What a call writes to `ENABLE`. -/
def value (enable : Word) : IrqCall → Word
  | intrEnable irq => enable ||| BIT irq
  | intrDisable irq => enable &&& ~~~BIT irq

/-- The access of a call. -/
def req : IrqPc → MmioReq
  | .readEnable => ⟨false, intcBase + RV32_5STAGE_INTC_ENABLE_REG, 0⟩
  | .clearPending _ => ⟨true, intcBase + RV32_5STAGE_INTC_PENDING_REG, BIT c.irq⟩
  | .writeEnable enable => ⟨true, intcBase + RV32_5STAGE_INTC_ENABLE_REG, c.value enable⟩

/-- The call after an access that returns `rdata`, if it goes on. Only `intr_enable` clears what is
    pending. -/
def resume (rdata : Word) : IrqPc → Option IrqPc
  | .readEnable => some (match c with
    | intrEnable _ => .clearPending rdata
    | intrDisable _ => .writeEnable rdata)
  | .clearPending enable => some (.writeEnable enable)
  | .writeEnable _ => none

/-- What a call by itself makes of `ENABLE`. -/
def apply (enable : BitVec 8) : BitVec 8 := (c.value (enable.setWidth 32)).extractLsb' 0 8

end IrqCall

/-- `ENABLE` after calls one after another. -/
def serial (l : List IrqCall) (enable : BitVec 8) : BitVec 8 := l.foldl (fun e c => c.apply e) enable

/-- The device, and the calls in progress. -/
structure IrqDriver where
  intc : Intc
  thread : Option (IrqCall × IrqPc)
  isr : Option (IrqCall × IrqPc)

/-- What happens on a cycle: a call begins, the call that runs makes its access, or there is an
    access of another kind, or none. -/
inductive IrqEvent
  | callThread (c : IrqCall)
  | callIsr (c : IrqCall)
  | access
  | other (dReq : Bool) (req : MmioReq)

namespace IrqDriver

variable (s : IrqDriver)

/-- The call that runs: the interrupt handler's before the thread's. -/
def running : Option (IrqCall × IrqPc) := s.isr.or s.thread

/-- The thread's call has read `ENABLE`, and has not written it. -/
def inWindow : Bool := s.thread.any (·.2.saved.isSome)

/-- What the device sees. -/
def inputs : IrqEvent × BitVec 8 → IntcInputs
  | (.access, irqIn) => match s.running with
    | some (c, pc) => ⟨true, c.req pc, irqIn⟩
    | none => ⟨false, ⟨false, 0, 0⟩, irqIn⟩
  | (.other dReq req, irqIn) => ⟨dReq, req, irqIn⟩
  | (_, irqIn) => ⟨false, ⟨false, 0, 0⟩, irqIn⟩

/-- A call after an access that returns `rdata`. -/
def resume (rdata : Word) (f : IrqCall × IrqPc) : Option (IrqCall × IrqPc) :=
  (f.1.resume rdata f.2).map (f.1, ·)

def next (x : IrqEvent × BitVec 8) : IrqDriver :=
  let intc' := s.intc.next (s.inputs x).req (s.inputs x).dReq (s.inputs x).irqIn
  match x.1 with
  | .callThread c => { s with intc := intc', thread := some (c, .readEnable) }
  | .callIsr c => { s with intc := intc', isr := some (c, .readEnable) }
  | .access => match s.isr with
    | some f => { s with intc := intc', isr := resume intc'.dRdata f }
    | none => { s with intc := intc', thread := s.thread.bind (resume intc'.dRdata) }
  | .other _ _ => { s with intc := intc' }

/-- A thread makes its calls one after another, and so does a handler; a handler comes in at any
    time. Nobody else writes to `ENABLE`. -/
def Admits (x : IrqEvent × BitVec 8) : Prop :=
  match x.1 with
  | .callThread _ => s.thread = none ∧ s.isr = none
  | .callIsr _ => s.isr = none
  | .access => s.running.isSome
  | .other _ _ => (s.inputs x).writes 0#12 = false

/-- The call whose last access this is. -/
def finishes (x : IrqEvent × BitVec 8) : Option IrqCall :=
  match x.1, s.running with
  | .access, some (c, .writeEnable _) => some c
  | _, _ => none

/-- The handler's calls in a thread's window are overwritten. -/
def overwritten : Bool := s.isr.isSome && s.inWindow

end IrqDriver

/-- The driver over its device, from any registers. -/
def irqDriver : Circuit IrqDriver (IrqEvent × BitVec 8) where
  init := {s | s.thread = none ∧ s.isr = none}
  admits s x := s.Admits x
  next s x := s.next x

namespace IrqDriver

/-- The calls that are over before the cycle `n`. -/
def returned (σ : ℕ → IrqDriver) (ι : ℕ → IrqEvent × BitVec 8) : ℕ → List IrqCall
  | 0 => []
  | n + 1 => returned σ ι n ++ ((σ n).finishes (ι n)).toList

/-- Those of them that were not made within the window of a thread. -/
def outside (σ : ℕ → IrqDriver) (ι : ℕ → IrqEvent × BitVec 8) : ℕ → List IrqCall
  | 0 => []
  | n + 1 => outside σ ι n ++ if (σ n).overwritten then [] else ((σ n).finishes (ι n)).toList

/-- What counts is what the calls of `l` have made of `ENABLE`: in a window it is not in the
    register, but in what the thread's call has read. -/
structure Inv (e : BitVec 8) (l : List IrqCall) (s : IrqDriver) : Prop where
  enable : s.inWindow = false → s.intc.enable = serial l e
  thread : ∀ f, s.thread = some f → ∀ v, f.2.saved = some v → v = (serial l e).setWidth 32
  isr : ∀ f, s.isr = some f → ∀ v, f.2.saved = some v → v = s.intc.enable.setWidth 32

variable {s : IrqDriver} {c : IrqCall} {pc : IrqPc} {x : IrqEvent × BitVec 8} {e : BitVec 8}
  {l : List IrqCall} {irqIn : BitVec 8} {σ : ℕ → IrqDriver} {ι : ℕ → IrqEvent × BitVec 8} {n : ℕ}

theorem serial_append {l' : List IrqCall} : serial (l ++ l') e = serial l' (serial l e) :=
  List.foldl_append

theorem enableAddr_extract : (intcBase + RV32_5STAGE_INTC_ENABLE_REG).extractLsb' 12 20 = 0x00004#20 ∧
    (intcBase + RV32_5STAGE_INTC_ENABLE_REG).extractLsb' 0 12 = 0#12 := by decide

theorem pendingAddr_extract :
    (intcBase + RV32_5STAGE_INTC_PENDING_REG).extractLsb' 0 12 = 0x004#12 := by
  decide

/-- Only the last access of a call changes `ENABLE`. -/
theorem enable_readEnable (d : Intc) : (d.next (c.req .readEnable) true irqIn).enable = d.enable := by
  simp [Intc.next, IrqCall.req]

theorem enable_clearPending (d : Intc) (v : Word) :
    (d.next (c.req (.clearPending v)) true irqIn).enable = d.enable := by
  simp [Intc.next, IrqCall.req, pendingAddr_extract]

theorem enable_writeEnable (d : Intc) (v : Word) :
    (d.next (c.req (.writeEnable v)) true irqIn).enable = (c.value v).extractLsb' 0 8 := by
  simp [Intc.next, IrqCall.req, Intc.selects, enableAddr_extract]

/-- The first one returns it. -/
theorem dRdata_readEnable (d : Intc) :
    (d.next (c.req .readEnable) true irqIn).dRdata = d.enable.setWidth 32 := by
  simp [Intc.next, IrqCall.req, Intc.selects, enableAddr_extract, Intc.response]

variable (pc) in
/-- A call goes on with what it has read. -/
theorem saved_resume (rdata : Word) {v : Word} (hread : pc = .readEnable → rdata = v)
    (hsaved : ∀ w, pc.saved = some w → w = v) :
    ∀ f, resume rdata (c, pc) = some f → ∀ w, f.2.saved = some w → w = v := by
  rintro f hf w hw
  cases pc with
  | readEnable =>
    obtain rfl : (c, _) = f := Option.some_inj.1 hf
    cases c <;> exact (Option.some_inj.1 hw).symm.trans (hread rfl)
  | clearPending u =>
    obtain rfl : (c, _) = f := Option.some_inj.1 hf
    exact hsaved w hw
  | writeEnable u => exact absurd hf nofun

/-- What a cycle without a write to `ENABLE` by a call does. -/
theorem Inv.of_enable_eq {s' : IrqDriver} (h : Inv e l s) (he : s'.intc.enable = s.intc.enable)
    (hw : s'.inWindow = false → s.inWindow = false)
    (ht : ∀ f, s'.thread = some f → ∀ v, f.2.saved = some v → v = (serial l e).setWidth 32)
    (hi : ∀ f, s'.isr = some f → ∀ v, f.2.saved = some v → v = s.intc.enable.setWidth 32) :
      Inv e l s' where
  enable hw' := he.trans (h.enable (hw hw'))
  thread := ht
  isr f hf v hv := he ▸ hi f hf v hv

/-- The step of a handler's call. -/
theorem Inv.next_isr (h : Inv e l s) {f : IrqCall × IrqPc} (hi : s.isr = some f) (hx : x.1 = .access) :
    Inv e (l ++ if s.overwritten then [] else (s.finishes x).toList) (s.next x) := by
  obtain ⟨c, pc⟩ := f
  obtain ⟨ev, irqIn⟩ := x
  obtain rfl : ev = .access := hx
  have hrun : s.running = some (c, pc) := by rw [running, hi, Option.some_or]
  have hsaved := h.isr _ hi
  have hnext : s.next (.access, irqIn) = { s with
      intc := s.intc.next (c.req pc) true irqIn
      isr := resume (s.intc.next (c.req pc) true irqIn).dRdata (c, pc) } := by
    simp [next, inputs, hi, hrun]
  rw [hnext]
  cases pc with
  | readEnable =>
    have hf : s.finishes (.access, irqIn) = none := by simp [finishes, hrun]
    rw [hf, Option.toList_none, ite_self, List.append_nil]
    exact h.of_enable_eq (enable_readEnable s.intc) id h.thread
      (saved_resume .readEnable _ (fun _ => dRdata_readEnable s.intc) hsaved)
  | clearPending v =>
    have hf : s.finishes (.access, irqIn) = none := by simp [finishes, hrun]
    rw [hf, Option.toList_none, ite_self, List.append_nil]
    refine h.of_enable_eq (enable_clearPending s.intc v) id h.thread ?_
    exact saved_resume (.clearPending v)
      (s.intc.next (c.req (.clearPending v)) true irqIn).dRdata nofun hsaved
  | writeEnable v =>
    have hf : s.finishes (.access, irqIn) = some c := by simp [finishes, hrun]
    have he : (s.intc.next (c.req (.writeEnable v)) true irqIn).enable = c.apply s.intc.enable := by
      rw [enable_writeEnable, hsaved v rfl, IrqCall.apply]
    rw [hf]
    cases hw : s.inWindow
    · -- the register counts, and the thread has read nothing
      have hover : s.overwritten = false := by simp [overwritten, hw]
      rw [hover]
      refine ⟨fun _ => ?_, fun f hft v hv => ?_, nofun⟩
      · show (s.intc.next (c.req (.writeEnable v)) true irqIn).enable = _
        rw [he, h.enable hw, if_neg Bool.false_ne_true, serial_append]
        rfl
      · have hthread : s.thread = some f := hft
        simp [inWindow, hthread, hv] at hw
    · have hover : s.overwritten = true := by simp [overwritten, hw, hi]
      rw [hover, if_pos rfl, List.append_nil]
      exact ⟨fun hw' => absurd (hw.symm.trans hw') nofun, h.thread, nofun⟩

/-- The step of a thread's call. -/
theorem Inv.next_thread (h : Inv e l s) (hi : s.isr = none) {f : IrqCall × IrqPc}
    (hthread : s.thread = some f)
    (hx : x.1 = .access) :
      Inv e (l ++ if s.overwritten then [] else (s.finishes x).toList) (s.next x) := by
  obtain ⟨c, pc⟩ := f
  obtain ⟨ev, irqIn⟩ := x
  obtain rfl : ev = .access := hx
  have hrun : s.running = some (c, pc) := by rw [running, hi, Option.none_or, hthread]
  have hsaved := h.thread _ hthread
  have hover : s.overwritten = false := by simp [overwritten, hi]
  have hnext : s.next (.access, irqIn) = { s with
      intc := s.intc.next (c.req pc) true irqIn
      thread := resume (s.intc.next (c.req pc) true irqIn).dRdata (c, pc) } := by
    simp [next, inputs, hi, hrun, hthread]
  rw [hnext, hover, if_neg Bool.false_ne_true]
  cases pc with
  | readEnable =>
    have hf : s.finishes (.access, irqIn) = none := by simp [finishes, hrun]
    have hw : s.inWindow = false := by simp [inWindow, hthread, IrqPc.saved]
    rw [hf, Option.toList_none, List.append_nil]
    refine h.of_enable_eq (enable_readEnable s.intc) (fun _ => hw) (saved_resume .readEnable _
      (fun _ => ?_) hsaved) ?_
    · rw [dRdata_readEnable, h.enable hw]
    · simp [hi]
  | clearPending v =>
    have hf : s.finishes (.access, irqIn) = none := by simp [finishes, hrun]
    rw [hf, Option.toList_none, List.append_nil]
    refine h.of_enable_eq (enable_clearPending s.intc v) (fun hw' => ?_) ?_ (by simp [hi])
    · exact absurd hw' (by simp [inWindow, resume, IrqCall.resume, IrqPc.saved])
    · exact saved_resume (.clearPending v)
        (s.intc.next (c.req (.clearPending v)) true irqIn).dRdata nofun hsaved
  | writeEnable v =>
    have hf : s.finishes (.access, irqIn) = some c := by simp [finishes, hrun]
    rw [hf]
    refine ⟨fun _ => ?_, nofun, by simp [hi]⟩
    show (s.intc.next (c.req (.writeEnable v)) true irqIn).enable = _
    rw [enable_writeEnable, hsaved v rfl, serial_append]
    rfl

theorem Inv.next (h : Inv e l s) (ha : s.Admits x) :
    Inv e (l ++ if s.overwritten then [] else (s.finishes x).toList) (s.next x) := by
  obtain ⟨ev, irqIn⟩ := x
  cases ev with
  | access =>
    cases hi : s.isr with
    | some f => exact h.next_isr hi rfl
    | none =>
      obtain ⟨f, hrun⟩ := Option.isSome_iff_exists.1 (show s.running.isSome from ha)
      have hthread : s.thread = some f := by simpa [running, hi] using hrun
      exact h.next_thread hi hthread rfl
  | callThread c =>
    obtain ⟨ht, hi⟩ : s.thread = none ∧ s.isr = none := ha
    simp only [finishes, Option.toList_none, ite_self, List.append_nil]
    refine h.of_enable_eq rfl (fun _ => by simp [inWindow, ht]) (fun f hf v hv => ?_) h.isr
    obtain rfl : (c, _) = f := Option.some_inj.1 hf
    exact absurd hv nofun
  | callIsr c =>
    simp only [finishes, Option.toList_none, ite_self, List.append_nil]
    refine h.of_enable_eq rfl id h.thread (fun f hf v hv => ?_)
    obtain rfl : (c, _) = f := Option.some_inj.1 hf
    exact absurd hv nofun
  | other dReq req =>
    simp only [finishes, Option.toList_none, ite_self, List.append_nil]
    refine h.of_enable_eq ?_ id h.thread h.isr
    exact (Intc.enable_next (i := ⟨dReq, req, irqIn⟩)).trans (if_neg (Bool.eq_false_iff.1 ha))

theorem inv_of_isRun (h : irqDriver.IsRun σ ι) :
    ∀ n, Inv (σ 0).intc.enable (outside σ ι n) (σ n)
  | 0 => by
    obtain ⟨ht, hi⟩ : (σ 0).thread = none ∧ (σ 0).isr = none := h.init
    exact ⟨fun _ => rfl, by simp [ht], by simp [hi]⟩
  | n + 1 => by
    have hnext : σ (n + 1) = (σ n).next (ι n) := h.next n
    exact hnext ▸ (inv_of_isRun h n).next (h.admits n)

/-! ## Source by source -/

theorem getElem_BIT (m : ℕ) {b : ℕ} (hb : b < 32) : (BIT m)[b] = decide (m = b) := by
  rw [← BitVec.getLsbD_eq_getElem, BIT, BitVec.getLsbD_shiftLeft, BitVec.getLsbD_one]
  by_cases h : m = b
  · simp [h, hb]
  · have hsub : b < m ∨ b - m ≠ 0 := by omega
    rcases hsub with hlt | hsub
    · simp [h, hlt]
    · simp [h, hsub]

theorem apply_getLsbD {b : ℕ} (hb : b < 8) (e : BitVec 8) :
    (c.apply e).getLsbD b = Function.update e.getLsbD c.irq c.asks b := by
  have hb' : b < 32 := by omega
  cases c with
  | intrEnable m | intrDisable m =>
    by_cases h : b = m
    · subst h
      simp [IrqCall.apply, IrqCall.value, IrqCall.asks, IrqCall.irq, getElem_BIT, hb, hb']
    · simp [IrqCall.apply, IrqCall.value, IrqCall.irq, getElem_BIT, hb, hb', h, Ne.symm h]

theorem serial_getLsbD {b : ℕ} (hb : b < 8) (l : List IrqCall) (e : BitVec 8) :
    (serial l e).getLsbD b = assign IrqCall.irq IrqCall.asks e.getLsbD l b := by
  induction l generalizing e with
  | nil => rfl
  | cons c l ih => exact (ih (c.apply e)).trans (assign_congr (apply_getLsbD hb e))

/-- What `ENABLE` can be after calls in an order of choice. -/
theorem exists_serial_iff {e' : BitVec 8} : (∃ l', l'.Perm l ∧ e' = serial l' e) ↔
    ∀ b < 8, MayHold IrqCall.irq IrqCall.asks e.getLsbD l b (e'.getLsbD b) := by
  refine (exists_congr fun l' => and_congr_right fun _ => ?_).trans (exists_perm_assign_iff
    (K := {b | b < 8}))
  constructor
  · rintro rfl b hb
    exact (serial_getLsbD hb l' e).symm
  · intro h
    refine BitVec.eq_of_getLsbD_eq fun b hb => ?_
    rw [serial_getLsbD hb, h b hb]

theorem returned_of_outside : ∀ {n : ℕ}, c ∈ outside σ ι n → c ∈ returned σ ι n
  | n + 1, h => by
    rcases List.mem_append.1 h with h | h
    · exact List.mem_append_left _ (returned_of_outside h)
    · refine List.mem_append_right _ ?_
      split_ifs at h
      · exact absurd h List.not_mem_nil
      · exact h

/-- When no call is in progress, `ENABLE` is what some order of all calls leaves exactly if for each
    source for which there was a call, one was made outside of every window, or one asked for what
    the source had. -/
theorem exists_order_iff (h : irqDriver.IsRun σ ι) (hover : (σ n).thread = none ∧ (σ n).isr = none) :
    (∃ l, l.Perm (returned σ ι n) ∧ (σ n).intc.enable = serial l (σ 0).intc.enable) ↔
    ∀ c ∈ returned σ ι n, c.irq < 8 → (∃ c' ∈ outside σ ι n, c'.irq = c.irq) ∨
      ∃ c' ∈ returned σ ι n, c'.irq = c.irq ∧ c'.asks = (σ 0).intc.enable.getLsbD c.irq := by
  have hwin : (σ n).inWindow = false := by simp [inWindow, hover.1]
  rw [(inv_of_isRun h n).enable hwin, exists_serial_iff]
  constructor
  · intro hmay c hc hb
    by_cases hout : ∃ c' ∈ outside σ ι n, c'.irq = c.irq
    · exact .inl hout
    · push Not at hout
      -- nothing that counts has touched the source
      have hkept : (serial (outside σ ι n) (σ 0).intc.enable).getLsbD c.irq =
          (σ 0).intc.enable.getLsbD c.irq := by
        rw [serial_getLsbD hb, assign_of_forall_ne hout]
      rcases hmay c.irq hb with ⟨c', hc', hirq, hasks⟩ | ⟨hnot, -⟩
      · exact .inr ⟨c', hc', hirq, hasks.trans hkept⟩
      · exact absurd rfl (hnot c hc)
  · intro hcond b hb
    rw [serial_getLsbD hb]
    have hmay : MayHold IrqCall.irq IrqCall.asks (σ 0).intc.enable.getLsbD (outside σ ι n) b _ :=
      mayHold_assign _ _ _
    rcases hmay with ⟨c, hc, h⟩ | ⟨hnot, heq⟩
    · exact .inl ⟨c, returned_of_outside hc, h⟩
    · rw [heq]
      by_cases hcall : ∃ c ∈ returned σ ι n, c.irq = b
      · obtain ⟨c, hc, rfl⟩ := hcall
        rcases hcond c hc hb with ⟨c', hc', hirq⟩ | hasked
        · exact absurd hirq (hnot c' hc')
        · exact .inl hasked
      · push Not at hcall
        exact .inr ⟨hcall, rfl⟩

/-- Out of reset a thread enables the source 1, and on the cycle `k` a handler comes in and enables
    the source 0. -/
def handlerAt (k n : ℕ) : IrqEvent × BitVec 8 :=
  (if n = 0 then .callThread (.intrEnable 1)
    else if n = k then .callIsr (.intrEnable 0)
    else if n < 8 then .access
    else .other false ⟨false, 0, 0⟩, 0)

def resetDriver : IrqDriver := ⟨⟨0, 0, 0, false, 0⟩, none, none⟩

instance (s : IrqDriver) : ∀ x, Decidable (s.Admits x)
  | (.callThread _, _) => inferInstanceAs (Decidable (s.thread = none ∧ s.isr = none))
  | (.callIsr _, _) => inferInstanceAs (Decidable (s.isr = none))
  | (.access, _) => inferInstanceAs (Decidable (s.running.isSome = true))
  | (.other _ _, _) => inferInstanceAs (Decidable (_ = false))

theorem isRun_handlerAt {k : ℕ} (h8 : k < 8)
    (hk : ∀ n < 8, (irqDriver.trace resetDriver (handlerAt k) n).Admits (handlerAt k n)) :
    irqDriver.IsRun (irqDriver.trace resetDriver (handlerAt k)) (handlerAt k) := by
  refine Circuit.isRun_trace ⟨rfl, rfl⟩ fun n => ?_
  by_cases hn : n < 8
  · exact hk n hn
  · have h0 : n ≠ 0 := by omega
    have hkn : n ≠ k := by omega
    show IrqDriver.Admits _ _
    simp [Admits, handlerAt, h0, hkn, hn, inputs, IntcInputs.writes, Intc.selects]

/-- A handler that comes in before the thread's call has read the register does no harm. -/
theorem serial_handlerAt :
    ∃ l, l.Perm (returned (irqDriver.trace resetDriver (handlerAt 1)) (handlerAt 1) 8) ∧
      (irqDriver.trace resetDriver (handlerAt 1) 8).intc.enable = serial l 0 :=
  (exists_order_iff (isRun_handlerAt (by decide) (by decide +kernel)) (by decide +kernel)).2
    (by decide +kernel)

/-- One that comes in just after is lost: no order of the two calls leaves the source 0 disabled. -/
theorem lost_handlerAt :
    irqDriver.IsRun (irqDriver.trace resetDriver (handlerAt 2)) (handlerAt 2) ∧
      returned (irqDriver.trace resetDriver (handlerAt 2)) (handlerAt 2) 8 =
        [.intrEnable 0, .intrEnable 1] ∧
      (irqDriver.trace resetDriver (handlerAt 2) 8).intc.enable = 0b10 ∧
      ¬∃ l, l.Perm (returned (irqDriver.trace resetDriver (handlerAt 2)) (handlerAt 2) 8) ∧
        (irqDriver.trace resetDriver (handlerAt 2) 8).intc.enable = serial l 0 := by
  have henable : (irqDriver.trace resetDriver (handlerAt 2) 8).intc.enable = 0b10 := by decide +kernel
  have hcalls : returned (irqDriver.trace resetDriver (handlerAt 2)) (handlerAt 2) 8 =
      [.intrEnable 0, .intrEnable 1] := by
    decide +kernel
  refine ⟨isRun_handlerAt (by decide) (by decide +kernel), hcalls, henable, ?_⟩
  rw [hcalls, henable, exists_serial_iff]
  intro h
  rcases h 0 (by decide) with ⟨c, hc, hirq, hasks⟩ | ⟨hnot, -⟩
  · simp only [List.mem_cons, List.not_mem_nil, or_false] at hc
    rcases hc with rfl | rfl
    · exact absurd hasks (by decide)
    · exact absurd hirq (by decide)
  · exact absurd rfl (hnot (.intrEnable 0) List.mem_cons_self)

end IrqDriver

end Rv32Soc
