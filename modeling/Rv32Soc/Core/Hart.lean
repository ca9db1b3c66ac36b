import Rv32Soc.Cache.Tcm
import Rv32Soc.Core.Fetch
import Rv32Soc.Core.Illegal
import Rv32Soc.Riscv.Footprint

/-!
# The hart

What the core is for: a machine that executes one instruction after the other, on a flat memory,
with neither a pipeline nor a predictor nor a cache. Its state is that of the user-level
instructions (`Riscv.State`), the CSRs of machine mode and the reservation of `lr.w`.

What the outside does to it is left open: the words that peripherals return, the pending
interrupts that a read of `mip` finds, and whether an interrupt that is pending is taken.

* `kind`: what a word that has been fetched asks for;
* `Hart.Completes`: an instruction is executed;
* `Hart.Redirects`: an exception or an interrupt is taken, or `mret` returns from one;
* `Hart.Reaches`: any number of these;
* `Hart.Lawful`: what the pipeline asks of a program.
-/

namespace Rv32Soc

open Riscv (Instr State)

/-! ## Words -/

/-- `WFI`, which does not wait. -/
def wfiWord : Word := 0x10500073

inductive Kind
  | user (i : Instr)
  | csr
  /-- `FENCE`, `FENCE.I` and `WFI`. -/
  | nop
  | ecall
  | mret
  | illegal
  /-- Other `SYSTEM` and `MISC-MEM` instructions, of which nothing is said. -/
  | other
  deriving DecidableEq

/-- What a word that has been fetched asks for. CSRs `0x000` and `0x302`, which there are none of,
    are left out. -/
def kind (w : Word) : Kind :=
  let inst := muxedIfInst w
  match Riscv.decodeFetched w with
  | some i => .user i
  | none =>
    if opcode inst = 0b1110011 then
      if inst = ecallWord then .ecall
      else if inst = mretWord then .mret
      else if inst = wfiWord then .nop
      else if isCsr inst ∧ csrField inst ≠ 0 ∧ csrField inst ≠ 0x302 then .csr
      else .other
    else if opcode inst = 0b0001111 then if rdField inst = 0 then .nop else .other
    else .illegal

/-- The address is one of a peripheral: the LEDs, the UART, the CLINT, the interrupt controller
    or the accelerator. -/
def isDevice (a : Word) : Bool :=
  a == 0x00002000 || a &&& 0xFFFFFFF0 == 0x02000000 || a &&& 0xFFFFFFF0 == 0x40001000 ||
    a &&& 0xFFFFFFF8 == 0x00004000 || a &&& 0xFFFFFF00 == 0x00005000

/-- The instruction accesses a peripheral. -/
def Riscv.Instr.touchesDevice (i : Instr) (s : State) : Bool :=
  match i.access s with
  | some (a, _) => isDevice a
  | none => false

/-! ## The state -/

structure Hart where
  state : State
  csr : CsrFile
  /-- The address that `lr.w` has reserved. -/
  reserved : Option Word

namespace Hart

variable (h : Hart)

def word : Word := h.state.mem.fetchWord h.state.pc
def inst : Word := muxedIfInst h.word
def compressed : Bool := isCompressed (h.state.mem.half h.state.pc)

/-- The length of the instruction. -/
def len : Word := pcInc h.compressed

/-! ## What an instruction does -/

/-- A store-conditional finds its address reserved. -/
def succeeds (i : Instr) : Bool :=
  match i with
  | .sc _ rs1 _ => h.reserved == some (h.state.get rs1)
  | _ => false

/-- The reservation after an instruction. -/
def reservedAfter (i : Instr) : Option Word :=
  match i with
  | .lr _ rs1 => some (h.state.get rs1)
  | .store .. | .sc .. | .amo .. => none
  | _ => h.reserved

/-- After a user-level instruction. What a peripheral returns is in `d`, and what it is sent is gone. -/
def exec (d : Mem) (i : Instr) : Hart where
  state :=
    if i.touchesDevice h.state then
      { i.exec h.len (h.succeeds i) { h.state with mem := d } with mem := h.state.mem }
    else i.exec h.len (h.succeeds i) h.state
  csr := h.csr
  reserved := h.reservedAfter i

/-- After an instruction that does nothing. -/
def skip : Hart := { h with state := { h.state with pc := h.state.pc + h.len } }

/-- After a CSR instruction, with `timer` and `external` pending. -/
def afterCsr (timer external : Bool) : Hart :=
  let old := h.csr.csrRdata (csrField h.inst) timer external
  { h with
    state := { h.state with pc := h.state.pc + h.len, regs := h.state.setReg (rdField h.inst) old }
    csr := h.csr.write (csrField h.inst) 0b01 (csrResult h.inst old (h.state.get (rs1Field h.inst))) }

/-- The cause of an exception and the value that comes with it, if the instruction raises one. -/
def exception : Option (Word × Word) :=
  match kind h.word with
  | .illegal => some (2, h.inst)
  | .ecall => some (11, 0)
  | .user i =>
    match i.access h.state with
    | some (a, n) => if a.toNat % n = 0 then none else some (if i.isLoad then 4 else 6, a)
    | none => none
  | _ => none

/-- The cause of the interrupt that may be taken. -/
def interrupt (timer external : Bool) : Option Word :=
  if h.csr.mstatusMie && h.csr.mieMeie && external then some 0x8000000B
  else if h.csr.mstatusMie && h.csr.mieMtie && timer then some 0x80000007
  else none

/-- After a trap, which drops the reservation. -/
def trap (cause tval : Word) : Hart where
  state := { h.state with pc := h.csr.mtvec }
  csr := h.csr.trap h.state.pc cause tval
  reserved := none

/-- After `mret`. -/
def afterMret : Hart := { h with state := { h.state with pc := h.csr.mepc }, csr := h.csr.mret }

/-! ## Steps -/

/-- An instruction is executed. -/
inductive Completes : Hart → Hart → Prop
  | user {h : Hart} {i : Instr} (d : Mem) : kind h.word = .user i → i.Aligned h.state →
  Completes h (h.exec d i)
  | csr {h : Hart} (timer external : Bool) : kind h.word = .csr → Completes h (h.afterCsr timer external)
  | nop {h : Hart} : kind h.word = .nop → Completes h h.skip

/-- Control goes elsewhere, with `timer` and `external` pending. -/
inductive Redirects (timer external : Bool) : Hart → Hart → Prop
  | exception {h : Hart} {cause tval : Word} : h.exception = some (cause, tval) →
      Redirects timer external h (h.trap cause tval)
  | interrupt {h : Hart} {cause : Word} : h.interrupt timer external = some cause →
      Redirects timer external h (h.trap cause 0)
  | mret {h : Hart} : kind h.word = .mret → Redirects timer external h h.afterMret

/-- The harts that one may become. -/
inductive Reaches (h₀ : Hart) : Hart → Prop
  | refl : Reaches h₀ h₀
  | completes {h h' : Hart} : Reaches h₀ h → Completes h h' → Reaches h₀ h'
  | redirects {h h' : Hart} {timer external : Bool} :
    Reaches h₀ h → Redirects timer external h h' → Reaches h₀ h'

end Hart

/-! ## Programs -/

/-- There is an instruction at `a`, in the code `C`, and not across the end of a TCM of `2 ^ K` words. -/
structure Mem.IsCode (m : Mem) (C : Set Word) (K : ℕ) (a : Word) : Prop where
  first : a ∈ C ∧ a + 1 ∈ C
  second : isCompressed (m.half a) = false → a + 2 ∈ C ∧ a + 3 ∈ C ∧
    Tcm.inRange K (a + 2) = Tcm.inRange K a

/-- What the pipeline asks of the program, in every state that it reaches. Its code is not written;
    encodings that are not of the instruction set are not among those that the decoder lets pass;
    what is reserved is memory; traps go to even addresses. -/
structure Hart.Lawful (C : Set Word) (K : ℕ) (h : Hart) : Prop where
  code : h.state.mem.IsCode C K h.state.pc
  known : kind h.word ≠ .other
  strict : ¬Lax h.word
  unwritten : ∀ i, kind h.word = .user i → i.Aligned h.state →
    i.touchesDevice h.state = false → ∀ a ∈ C,
    (i.exec h.len (h.succeeds i) h.state).mem a = h.state.mem a
  atomic : ∀ i, kind h.word = .user i → i.touchesDevice h.state → i.isLr = false ∧ i.isAmo = false
  even : IsEven h.csr.mtvec ∧ IsEven h.csr.mepc

namespace Hart

variable {C : Set Word} {K : ℕ} {h h' : Hart}

theorem Reaches.trans {h₀ : Hart} (h₁ : h₀.Reaches h) (h₂ : h.Reaches h') : h₀.Reaches h' := by
  induction h₂ with
  | refl => exact h₁
  | completes _ hc ih => exact .completes ih hc
  | redirects _ hr ih => exact .redirects ih hr

/-- The code stays as it is. -/
theorem Completes.code (hc : h.Completes h') (hl : h.Lawful C K) {a : Word} (ha : a ∈ C) :
    h'.state.mem a = h.state.mem a := by
  cases hc with
  | @user i d hk hal =>
    cases ht : i.touchesDevice h.state
    · rw [exec, ht]
      exact hl.unwritten i hk hal ht a ha
    · rw [exec, ht]
      rfl
  | csr => rfl
  | nop => rfl

/-- Where control goes changes nothing but the CSRs and the reservation. -/
theorem Redirects.frame {timer external : Bool} (hr : Redirects timer external h h') :
    h'.state.regs = h.state.regs ∧ h'.state.mem = h.state.mem := by
  cases hr <;> exact ⟨rfl, rfl⟩

end Hart

end Rv32Soc
