import Rv32Soc.Accel.BatchRun
import Rv32Soc.Axi.ArbiterRw
import Rv32Soc.Axi.ReadRetry
import Rv32Soc.Axi.WriteChannel

/-!
# The accelerator and its way to memory

The accelerator behind `mem_arbiter_rw.v` and `axi_rw_engine.v` on a bus of 64 bits, in front of
an AXI4 memory. The caches ask for whatever they like, and software writes whatever it likes:
a request that the accelerator has withdrawn is served all the same, and its completions come
back to whatever the accelerator is doing by then.

* `MmSystem.Reads`: the arbiter and the read engine agree on what is served, whoever has asked for
  it. To the accelerator they are a channel that grants and serves its reads (`Reads.rdChan_next`,
  `Seen.line_eq`);
* `MmSystem.Serves`: a write of the accelerator is served, with the lines that it presents in turn
  (`Serves.next`, `Serves.writeServes`);
* `Runs.exists_rGrant`: a read that is asked for is granted in the end;
* `Answers.isRun`: a memory that answers in time lets no timeout fire.
-/

namespace Rv32Soc

open AxiRw

/-- The accelerator, the arbiter, the engines, and the memory with the transactions it serves. -/
structure MmSystem where
  acc : MmAccel
  arb : ArbRegs
  rd : RdRegs
  wr : WrRegs
  mem : Mem
  rtxn : Option (Word × ℕ)
  wtxn : Option Word

/-- What is on the bus of the accelerator, what the caches ask for, and what the memory accepts and
    answers. -/
structure MmSystemInputs where
  bus : MmInputs
  caches : ArbInputs
  mAxiArready : Bool
  mAxiRvalid : Bool
  mAxiAwready : Bool
  mAxiWready : Bool
  mAxiBvalid : Bool

namespace MmSystem

variable (p : MmParams) (TIMEOUT_LIMIT : BitVec 16) (s : MmSystem) (i : MmSystemInputs)

def arbIn : ArbInputs :=
  { i.caches with
    accelRdReqValid := s.acc.memRdReqValid
    accelRdReqAddr := s.acc.memRdReqAddr p
    accelRdReqLines := s.acc.memRdReqLines p
    accelWrReqValid := s.acc.memWrReqValid
    accelWrReqAddr := s.acc.memWrReqAddr
    accelWrReqLines := s.acc.memWrReqLines p
    accelWline := s.acc.memWline
    rdReady := s.rd.rdReady
    wrNext := s.wr.wrNext
    wrReady := s.wr.wrReady }

def accIn : MmInputs :=
  { i.bus with
    memRline := s.rd.rdRline
    memRdReady := s.arb.accelRdReady (s.arbIn p i)
    memWnext := s.arb.accelWnext (s.arbIn p i)
    memWrReady := s.arb.accelWrReady (s.arbIn p i) }

def rdIn : RdInputs 2 where
  rdReqValid := s.arb.rdReqValid
  rdReqAddr := s.arb.rdReqAddr
  rdReqLines := s.arb.rdReqLines
  mAxiArready := i.mAxiArready
  mAxiRdata := (s.rtxn.map fun t => s.mem.part (16 / 2) t.1).getD 0
  mAxiRvalid := i.mAxiRvalid && s.rtxn.isSome
  mAxiRlast := (s.rtxn.map fun t => t.2 == 1).getD false

def wrIn : WrInputs where
  wrReqValid := s.arb.wrReqValid
  wrReqAddr := s.arb.wrReqAddr
  wrReqLines := s.arb.wrReqLines
  wrWline := s.arb.wrWline (s.arbIn p i)
  mAxiAwready := i.mAxiAwready
  mAxiWready := i.mAxiWready
  mAxiBvalid := i.mAxiBvalid

def next : MmSystem where
  acc := s.acc.next p (s.accIn p i)
  arb := s.arb.next (s.arbIn p i)
  rd := s.rd.next TIMEOUT_LIMIT (s.rdIn i)
  wr := s.wr.next 2 TIMEOUT_LIMIT (s.wrIn p i)
  mem :=
    match s.wtxn with
    | some a => if s.wr.mAxiWvalid && i.mAxiWready then s.mem.storePart a
        (s.wr.mAxiWdata 2 (s.wrIn p i)) else s.mem
    | none => s.mem
  rtxn :=
    if s.rd.rdTimeout TIMEOUT_LIMIT then none
    else if s.rd.mAxiArvalid && i.mAxiArready then some (s.rd.mAxiAraddr, (s.rd.mAxiArlen 2).toNat + 1)
    else if s.rd.mAxiRready && (i.mAxiRvalid && s.rtxn.isSome) then
      s.rtxn.bind fun t => if t.2 = 1 then none else some (t.1 + BitVec.ofNat 32 (16 / 2), t.2 - 1)
    else s.rtxn
  wtxn :=
    if s.wr.wrTimeout TIMEOUT_LIMIT then none
    else if s.wr.mAxiAwvalid && i.mAxiAwready then some s.wr.mAxiAwaddr
    else if s.wr.mAxiWvalid && i.mAxiWready then
      if s.wr.mAxiWlast 2 then none else s.wtxn.map (· + BitVec.ofNat 32 (16 / 2))
    else s.wtxn

structure IsReset : Prop where
  acc : s.acc.IsReset
  arb : s.arb.IsReset
  rd : s.rd.IsReset
  wr : s.wr.IsReset
  rtxn : s.rtxn = none
  wtxn : s.wtxn = none

end MmSystem

/-- The accelerator and its way to memory while no timeout fires. -/
def mmSystem (p : MmParams) (TIMEOUT_LIMIT : BitVec 16) : Circuit MmSystem MmSystemInputs where
  init := {s | s.IsReset}
  admits s _ := s.rd.rdTimeout TIMEOUT_LIMIT = false ∧ s.wr.wrTimeout TIMEOUT_LIMIT = false
  next s i := s.next p TIMEOUT_LIMIT i

/-- The lines that the arbiter copies from a request. -/
theorem AxiRw.RReq.count_copied (a : Word) (l : BitVec 8) :
    RReq.count ⟨a, if l = 0 then 1 else l⟩ = (if l = 0 then 1 else l).toNat := by
  by_cases h : l = 0
  · simp [RReq.count, h]
  · rw [RReq.count, if_neg h, if_neg h]

theorem AxiRw.WReq.count_copied (a : Word) (l : BitVec 8) (f : ℕ → Line) :
    WReq.count ⟨a, if l = 0 then 1 else l, f⟩ = (if l = 0 then 1 else l).toNat := RReq.count_copied a l

/-- A burst goes to the lines of its address, aligned or not. -/
theorem lineNo_lineBase_add (a : Word) (k : ℕ) :
    lineNo (lineBase a + BitVec.ofNat 32 (16 * k)) = lineNo (a + BitVec.ofNat 32 (16 * k)) := by
  apply BitVec.eq_of_toNat_eq
  rw [lineNo, lineNo, BitVec.extractLsb'_toNat, BitVec.extractLsb'_toNat, Nat.shiftRight_eq_div_pow,
    Nat.shiftRight_eq_div_pow, BitVec.toNat_add, BitVec.toNat_add, BitVec.toNat_ofNat, toNat_lineBase]
  omega

/-- The line of an address, counted from the base of a burst. -/
theorem lineNo_eq_of_sub (a y : Word) :
    lineNo y = lineNo (lineBase a + BitVec.ofNat 32 (16 * ((y - lineBase a).toNat / 16))) := by
  have hbase := toNat_lineBase a
  have ha := a.isLt
  have hy := y.isLt
  have hsub : (y - lineBase a).toNat = (y.toNat + 2 ^ 32 - (lineBase a).toNat) % 2 ^ 32 := by
    rw [BitVec.toNat_sub, Nat.add_comm, ← Nat.add_sub_assoc (lineBase a).isLt.le]
  apply BitVec.eq_of_toNat_eq
  rw [lineNo, lineNo, BitVec.extractLsb'_toNat, BitVec.extractLsb'_toNat, Nat.shiftRight_eq_div_pow,
    Nat.shiftRight_eq_div_pow, BitVec.toNat_add, BitVec.toNat_ofNat, hsub, hbase]
  omega

/-- A panel fits into a burst. -/
theorem MmAccel.memRdReqLines_le {p : MmParams} (s : MmAccel) (hd : p.GoodDim) (hm : p.maxK ≤ 128) :
    (s.memRdReqLines p).toNat ≤ 128 := by
  have hlanes : p.linesPerLane ≤ 8 := Nat.div_le_of_le_mul hm
  have hlines : s.ldLines p ≤ p.linesPerLane := (linesOf_le p s.regs.ldKLen).2
  have hdim := hd.le.2
  rw [memRdReqLines]
  split
  · calc (BitVec.ofNat 8 (s.linesPerPanel p)).toNat ≤ s.linesPerPanel p := by
          rw [BitVec.toNat_ofNat]
          exact Nat.mod_le _ _
      _ ≤ 8 * 16 := by
          rw [linesPerPanel, if_neg (by have := hd.le.1; omega), hd.two_pow]
          exact Nat.mul_le_mul (hlines.trans hlanes) hdim
  · decide

namespace MmSystem

variable {p : MmParams} {TIMEOUT_LIMIT : BitVec 16} {s : MmSystem} {i : MmSystemInputs}

/-! ## The read channel -/

/-- The read channel as its engine sees it, with the beats that have been read for the request. -/
def readSys (s : MmSystem) (seen : List (Beat 2)) : ReadSys 2 :=
  ⟨s.rd, s.rtxn, s.arb.rState.map fun _ => ⟨s.arb.rAddr, s.arb.rLines⟩, s.arb.rCount.toNat, seen⟩

def readIn (p : MmParams) (s : MmSystem) (i : MmSystemInputs) : ReadInputs where
  start := (s.arb.rGrant (s.arbIn p i)).map fun q =>
    ⟨ArbRegs.rReqAddr (s.arbIn p i) q, ArbRegs.rReqLines (s.arbIn p i) q⟩
  mAxiArready := i.mAxiArready
  mAxiRvalid := i.mAxiRvalid
  mem := s.mem

/-- The arbiter and the read engine agree on the request that is served, whoever made it. -/
structure Reads (s : MmSystem) (seen : List (Beat 2)) : Prop where
  inv : (s.readSys seen).Inv
  single : ∀ q, s.arb.rState = some q → q ≠ .A → s.arb.rLines = 1

/-- The beats seen after an edge. -/
def nextSeen (p : MmParams) (TIMEOUT_LIMIT : BitVec 16) (s : MmSystem) (i : MmSystemInputs)
    (seen : List (Beat 2)) :
    List (Beat 2) :=
  ((s.readSys seen).next TIMEOUT_LIMIT (s.readIn p i)).seen

namespace Reads

variable {seen : List (Beat 2)}

/-- A line that comes in is one that is left. -/
theorem rCount_lt (h : s.Reads seen) {q : RPort} (hp : s.arb.rState = some q)
    (hr : s.rd.rdReady = true) :
    s.arb.rCount.toNat < RReq.count ⟨s.arb.rAddr, s.arb.rLines⟩ :=
  (h.inv.line_eq (r := ⟨s.arb.rAddr, s.arb.rLines⟩) (by simp [readSys, hp]) hr).1

/-- The arbiter releases the channel with the last line. -/
theorem rRelease_eq (h : s.Reads seen) {q : RPort} (hp : s.arb.rState = some q) :
    s.arb.rRelease (s.arbIn p i) = (s.readSys seen).complete := by
  have hc : (s.readSys seen).complete =
      (s.rd.rdReady && s.arb.rCount.toNat + 1 == RReq.count ⟨s.arb.rAddr, s.arb.rLines⟩) := by
    simp [ReadSys.complete, readSys, hp]
  rw [hc, ArbRegs.rRelease, hp]
  cases hr : s.rd.rdReady with
  | false => cases q <;> simp [arbIn, hr]
  | true =>
    have hlt := h.rCount_lt hp hr
    have h1 : (1 : BitVec 8).toNat = 1 := rfl
    by_cases hA : q = .A
    · subst hA
      simp only [arbIn, hr, Bool.true_and]
      rw [RReq.count] at hlt ⊢
      have hmax : (if s.arb.rLines = 0 then 1 else s.arb.rLines).toNat < 2 ^ 8 := BitVec.isLt _
      have hadd : (s.arb.rCount + 1).toNat = s.arb.rCount.toNat + 1 :=
        BitVec.toNat_add_of_lt (by rw [h1]; omega)
      rw [Bool.eq_iff_iff, decide_eq_true_iff, beq_iff_eq, BitVec.le_def, hadd]
      split at hlt
      · next h0 => simp_all
      · next h0 =>
        simp only [if_neg h0]
        dsimp only at hlt
        omega
    · have hcount : RReq.count ⟨s.arb.rAddr, s.arb.rLines⟩ = 1 := by
        rw [RReq.count, h.single q hp hA]; rfl
      rw [hcount] at hlt ⊢
      have h0 : s.arb.rCount.toNat = 0 := by omega
      cases q <;> simp_all [arbIn]

variable (p TIMEOUT_LIMIT i) in
theorem rState_next (h : s.Reads seen) :
    (s.next p TIMEOUT_LIMIT i).arb.rState =
      if s.arb.rState.isNone then s.arb.rGrant (s.arbIn p i)
      else if (s.readSys seen).complete then none else s.arb.rState := by
  cases hp : s.arb.rState with
  | none => simp [MmSystem.next, ArbRegs.next, hp]
  | some q => simp [MmSystem.next, ArbRegs.next, hp, h.rRelease_eq hp]

variable (p TIMEOUT_LIMIT i) in
/-- The count of the arbiter is that of the lines that have come in. -/
theorem rCount_next (h : s.Reads seen) :
    (s.next p TIMEOUT_LIMIT i).arb.rCount.toNat =
      if s.arb.rState.isSome && !(s.readSys seen).complete then
        s.arb.rCount.toNat + s.rd.rdReady.toNat
      else 0 := by
  cases hp : s.arb.rState with
  | none => simp [MmSystem.next, ArbRegs.next, hp]
  | some q =>
    have hrel := h.rRelease_eq (p := p) (i := i) hp
    cases hr : s.rd.rdReady with
    | false =>
      have hc : (s.readSys seen).complete = false := by simp [ReadSys.complete, readSys, hp, hr]
      have hready : (s.arbIn p i).rdReady = false := hr
      cases q <;> simp [MmSystem.next, ArbRegs.next, hp, hc, hready]
    | true =>
      have hlt := h.rCount_lt hp hr
      have hready : (s.arbIn p i).rdReady = true := hr
      by_cases hA : q = .A
      · subst hA
        cases hc : (s.readSys seen).complete with
        | true => simp [MmSystem.next, ArbRegs.next, hp, hready, hrel, hc]
        | false =>
          have hmax : RReq.count ⟨s.arb.rAddr, s.arb.rLines⟩ < 2 ^ 8 := BitVec.isLt _
          have h1 : (1 : BitVec 8).toNat = 1 := rfl
          have hadd : (s.arb.rCount + 1).toNat = s.arb.rCount.toNat + 1 :=
            BitVec.toNat_add_of_lt (by rw [h1]; omega)
          simp only [MmSystem.next, ArbRegs.next, hp, hready, hrel, hc, if_true,
            Bool.false_eq_true, if_false, hadd]
          rfl
      · have hcount : RReq.count ⟨s.arb.rAddr, s.arb.rLines⟩ = 1 := by
          rw [RReq.count, h.single q hp hA]; rfl
        have h0 : s.arb.rCount.toNat = 0 := by omega
        have hc : (s.readSys seen).complete = true := by
          simp [ReadSys.complete, readSys, hp, hr, hcount, h0]
        cases q <;> simp_all [MmSystem.next, ArbRegs.next]

variable (p TIMEOUT_LIMIT i) in
/-- Seen from the engine, the arbiter and whoever asks for lines are one requester. -/
theorem readSys_next (h : s.Reads seen) :
    (s.next p TIMEOUT_LIMIT i).readSys (s.nextSeen p TIMEOUT_LIMIT i seen) =
      (s.readSys seen).next TIMEOUT_LIMIT (s.readIn p i) := by
  have hin : s.rdIn i = (s.readSys seen).engIn (s.readIn p i) := by
    cases hp : s.arb.rState <;>
      simp [rdIn, readSys, readIn, ReadSys.engIn, ArbRegs.rdReqValid, ArbRegs.rdReqAddr,
        ArbRegs.rdReqLines, hp]
  refine ReadSys.ext ?_ rfl ?_ ?_ rfl
  · rw [ReadSys.next, ← hin]
    rfl
  · cases hp : s.arb.rState with
    | none =>
      cases hg : s.arb.rGrant (s.arbIn p i) <;>
        simp [readSys, ReadSys.next, readIn, hp, hg, MmSystem.next, ArbRegs.next]
    | some q =>
      have hg : s.arb.rGrant (s.arbIn p i) = none := rGrant_of_busy hp
      have hrel := h.rRelease_eq (p := p) (i := i) hp
      have hreq : (s.readSys seen).req = some ⟨s.arb.rAddr, s.arb.rLines⟩ := by simp [readSys, hp]
      rw [ReadSys.next]
      dsimp only
      rw [hreq]
      cases hc : (s.readSys seen).complete <;> rw [hc] at hrel <;>
        simp [readSys, MmSystem.next, ArbRegs.next, hp, hg, hrel]
  · have hsome : (s.readSys seen).req.isSome = s.arb.rState.isSome := Option.isSome_map
    rw [ReadSys.next]
    dsimp only
    rw [hsome]
    exact h.rCount_next p TIMEOUT_LIMIT i

/-- A cycle keeps the agreement, if what is asked for fits into a burst. -/
theorem next (h : s.Reads seen) (hd : p.GoodDim) (hm : p.maxK ≤ 128)
    (ht : s.rd.rdTimeout TIMEOUT_LIMIT = false) :
    (s.next p TIMEOUT_LIMIT i).Reads (s.nextSeen p TIMEOUT_LIMIT i seen) where
  inv := by
    rw [h.readSys_next]
    refine ReadSys.inv_next (by decide) h.inv (fun r hr => ?_) ht
    obtain ⟨q, -, rfl⟩ := Option.map_eq_some_iff.1 hr
    cases q with
    | D => exact (by decide : 2 * 1 ≤ 256)
    | I => exact (by decide : 2 * 1 ≤ 256)
    | A =>
      have hmax := s.acc.memRdReqLines_le hd hm
      simp only [RReq.count, ArbRegs.rReqLines, arbIn]
      by_cases h0 : s.acc.memRdReqLines p = 0
      · simp [h0]
      · simp only [h0, if_false]
        omega
  single q hq hA := by
    rw [h.rState_next] at hq
    cases hp : s.arb.rState with
    | none =>
      rw [hp, Option.isNone_none, if_pos rfl] at hq
      cases q with
      | A => exact absurd rfl hA
      | D | I => simp [MmSystem.next, ArbRegs.next, hq, ArbRegs.rReqLines]
    | some q' =>
      have hg : s.arb.rGrant (s.arbIn p i) = none := rGrant_of_busy hp
      rw [hp] at hq
      simp only [Option.isNone_some, Bool.false_eq_true, if_false] at hq
      split at hq
      · cases hq
      · simp [MmSystem.next, ArbRegs.next, hg, h.single q (hp.trans hq) hA]

end Reads

variable (TIMEOUT_LIMIT) in
/-- A request to read is taken over. -/
theorem next_of_rGrant {q : RPort} (hp : s.arb.rState = none)
    (hg : s.arb.rGrant (s.arbIn p i) = some q) :
    (s.next p TIMEOUT_LIMIT i).arb.rState = some q ∧
      (s.next p TIMEOUT_LIMIT i).arb.rAddr = ArbRegs.rReqAddr (s.arbIn p i) q ∧
      (s.next p TIMEOUT_LIMIT i).arb.rLines = ArbRegs.rReqLines (s.arbIn p i) q ∧
      (s.next p TIMEOUT_LIMIT i).arb.rCount = 0 := by
  simp [MmSystem.next, ArbRegs.next, hp, hg]

/-- The accelerator's read that is served. -/
def rdChan (s : MmSystem) : Option Transfer :=
  if s.arb.rState = some .A then some ⟨s.arb.rAddr, RReq.count ⟨s.arb.rAddr, s.arb.rLines⟩,
    s.arb.rCount.toNat⟩
  else none

theorem memRdReady_eq : (s.accIn p i).memRdReady =
    (decide (s.arb.rState = some .A) && s.rd.rdReady) := rfl

/-- To the accelerator, the arbiter and the engine are a channel that grants and serves its requests. -/
theorem Reads.rdChan_next {seen : List (Beat 2)} (h : s.Reads seen) :
    (s.next p TIMEOUT_LIMIT i).rdChan =
      s.acc.rdNext p (s.arb.rGrant (s.arbIn p i) == some .A) (s.accIn p i).memRdReady s.rdChan := by
  have hst := h.rState_next p TIMEOUT_LIMIT i
  cases hp : s.arb.rState with
  | none =>
    -- a grant copies the request of the accelerator
    rw [hp, Option.isNone_none, if_pos rfl] at hst
    have hx : s.rdChan = none := by simp [rdChan, hp]
    rw [hx, MmAccel.rdNext]
    by_cases hg : s.arb.rGrant (s.arbIn p i) = some .A
    · obtain ⟨h₁, h₂, h₃, h₄⟩ := next_of_rGrant TIMEOUT_LIMIT hp hg
      have hreq : s.acc.memRdReqValid = true := rReq_of_rGrant hg
      have hlines : ArbRegs.rReqLines (s.arbIn p i) .A =
          if s.acc.memRdReqLines p = 0 then 1 else s.acc.memRdReqLines p := rfl
      rw [rdChan, if_pos h₁, h₂, h₃, h₄, hg, hreq, hlines, RReq.count_copied]
      rfl
    · simp [rdChan, hst, hg]
  | some q =>
    rw [hp] at hst
    simp only [Option.isNone_some, Bool.false_eq_true, if_false] at hst
    have hg : s.arb.rGrant (s.arbIn p i) = none := rGrant_of_busy hp
    by_cases hA : q = .A
    · -- each line is counted, and the last one releases the arbiter
      subst hA
      have hx : s.rdChan = some ⟨s.arb.rAddr, RReq.count ⟨s.arb.rAddr, s.arb.rLines⟩,
          s.arb.rCount.toNat⟩ :=
        if_pos hp
      have hcount := h.rCount_next p TIMEOUT_LIMIT i
      have hc : (s.readSys seen).complete =
          (s.rd.rdReady && s.arb.rCount.toNat + 1 == RReq.count ⟨s.arb.rAddr, s.arb.rLines⟩) := by
        simp [ReadSys.complete, readSys, hp]
      have haddr : (s.next p TIMEOUT_LIMIT i).arb.rAddr = s.arb.rAddr := by
        simp [MmSystem.next, ArbRegs.next, hg]
      have hlines : (s.next p TIMEOUT_LIMIT i).arb.rLines = s.arb.rLines := by
        simp [MmSystem.next, ArbRegs.next, hg]
      rw [hx, rdChan, hst, hcount, haddr, hlines, memRdReady_eq, hp, hc]
      cases s.rd.rdReady
      · simp [MmAccel.rdNext]
      · by_cases hlast : s.arb.rCount.toNat + 1 = RReq.count ⟨s.arb.rAddr, s.arb.rLines⟩
        · simp [MmAccel.rdNext, Transfer.advance, hlast]
        · simp [MmAccel.rdNext, Transfer.advance, hlast]
    · -- somebody else is served, and nobody is granted meanwhile
      have hne : (s.next p TIMEOUT_LIMIT i).arb.rState ≠ some .A := by
        rw [hst]
        split <;> simp [hA]
      simp [rdChan, hne, hp, hA, hg, MmAccel.rdNext]

/-- The beats that have been read for the accelerator were in memory on some cycle so far. -/
def Seen (μ : ℕ → Mem) (n : ℕ) (s : MmSystem) (seen : List (Beat 2)) : Prop :=
  s.arb.rState = some .A → ∀ j v, seen[j]? = some v →
    ∃ l ≤ n, v = (μ l).part (16 / 2) (RReq.beatAddr 2 ⟨s.arb.rAddr, s.arb.rLines⟩ j)

theorem Seen.next {μ : ℕ → Mem} {n : ℕ} {seen : List (Beat 2)} (h : Seen μ n s seen) (hr : s.Reads seen)
    (hμ : μ n = s.mem) :
      Seen μ (n + 1) (s.next p TIMEOUT_LIMIT i) (s.nextSeen p TIMEOUT_LIMIT i seen) := by
  intro hA j v hj
  have hst := hr.rState_next p TIMEOUT_LIMIT i
  rw [nextSeen, ReadSys.next] at hj
  dsimp only at hj
  cases hp : s.arb.rState with
  | none => simp [readSys, hp] at hj
  | some q =>
    rw [hp] at hst
    simp only [Option.isNone_some, Bool.false_eq_true, if_false] at hst
    have hreq : (s.readSys seen).req = some ⟨s.arb.rAddr, s.arb.rLines⟩ := by simp [readSys, hp]
    cases hc : (s.readSys seen).complete with
    | true =>
      rw [hst, hc] at hA
      cases hA
    | false =>
      have hq : s.arb.rState = some .A := by
        rw [hst, hc] at hA
        exact hp.trans hA
      have hg : s.arb.rGrant (s.arbIn p i) = none := rGrant_of_busy hp
      have haddr : (s.next p TIMEOUT_LIMIT i).arb.rAddr = s.arb.rAddr := by
        simp [MmSystem.next, ArbRegs.next, hg]
      have hlines : (s.next p TIMEOUT_LIMIT i).arb.rLines = s.arb.rLines := by
        simp [MmSystem.next, ArbRegs.next, hg]
      have hold : seen[j]? = some v →
          ∃ l ≤ n + 1, v = (μ l).part (16 / 2) (RReq.beatAddr 2 ⟨s.arb.rAddr, s.arb.rLines⟩ j) :=
            fun hj => by
        obtain ⟨l, hl, hv⟩ := h hq j v hj
        exact ⟨l, Nat.le_succ_of_le hl, hv⟩
      rw [haddr, hlines]
      rw [hreq, hc] at hj
      simp only [Option.isSome_some, Bool.not_false, Bool.and_self, if_true] at hj
      split at hj
      · -- the last one has just been read
        have hj : (seen ++ [s.mem.part (16 / 2) (RReq.beatAddr 2 ⟨s.arb.rAddr,
          s.arb.rLines⟩ seen.length)])[j]? =
            some v := hj
        rcases Nat.lt_trichotomy j seen.length with hlt | heq | hgt
        · exact hold (by rwa [List.getElem?_append_left hlt] at hj)
        · refine ⟨n, n.le_succ, ?_⟩
          rw [heq, List.getElem?_concat_length] at hj
          rw [hμ, heq]
          exact (Option.some_inj.1 hj).symm
        · rw [List.getElem?_eq_none (by simpa using hgt)] at hj
          cases hj
      · exact hold hj

/-- A line that comes in was in memory, byte by byte. -/
theorem Seen.line_eq {μ : ℕ → Mem} {n : ℕ} {seen : List (Beat 2)} (h : Seen μ n s seen)
    (hr : s.Reads seen) (hready : (s.accIn p i).memRdReady = true) :
    ∃ t, s.rdChan = some t ∧ ∀ o, ∃ l ≤ n, lineByte (s.accIn p i).memRline o =
      μ l (lineNo t.next ++ o) := by
  rw [memRdReady_eq, Bool.and_eq_true, decide_eq_true_iff] at hready
  obtain ⟨hA, hready⟩ := hready
  refine ⟨_, if_pos hA, fun o => ?_⟩
  obtain ⟨-, hline⟩ := hr.inv.line_eq (r := ⟨s.arb.rAddr, s.arb.rLines⟩) (by simp [readSys, hA]) hready
  have hb : o.toNat / 8 < 2 := by have := o.isLt; omega
  obtain ⟨l, hl, hv⟩ := h hA _ _ (hline _ hb)
  have hpart : linePart 8 s.rd.rdRline (o.toNat / 8) =
      linePart 8 ((μ l).line (RReq.lineAddr ⟨s.arb.rAddr, s.arb.rLines⟩ s.arb.rCount.toNat))
        (o.toNat / 8) :=
    hv.trans (part_beatAddr (B := 2) (by decide) (μ l) _ hb)
  refine ⟨l, hl, ?_⟩
  change lineByte s.rd.rdRline o = _
  rw [lineByte_eq_of_linePart (n := 2) (by decide) o hpart, Mem.lineByte_line_append,
    RReq.lineAddr, RReq.base, lineNo_lineBase_add]
  rfl

/-! ## The write channel -/

/-- The write engine rests without a request, asks for lines only while it sends, and never resumes. -/
structure Writes (s : MmSystem) : Prop where
  idle : s.arb.wState = none → s.wr.wrState = .WR_IDLE
  asks : s.wr.wrNext = true → s.wr.wrState = .WR_DATA
  retrying : s.wr.wrRetrying = false
  hold : s.wr.wrResumeHold = false

variable (p TIMEOUT_LIMIT i) in
theorem wState_next : (s.next p TIMEOUT_LIMIT i).arb.wState =
    if s.arb.wState.isNone then s.arb.wGrant (s.arbIn p i) else if s.wr.wrReady then none
      else s.arb.wState := rfl

theorem Writes.next (h : s.Writes) (ht : s.wr.wrTimeout TIMEOUT_LIMIT = false) :
    (s.next p TIMEOUT_LIMIT i).Writes where
  idle hp := by
    rw [wState_next] at hp
    cases hs : s.arb.wState with
    | none =>
      simp [MmSystem.next, WrRegs.next, ht, WrRegs.wrNextS, h.idle hs, wrIn, ArbRegs.wrReqValid, hs]
    | some q =>
      cases hr : s.wr.wrReady with
      | false => simp [hs, hr] at hp
      | true =>
        have hst : s.wr.wrState = .WR_DONE := by simpa [WrRegs.wrReady] using hr
        simp [MmSystem.next, WrRegs.next, ht, WrRegs.wrNextS, hst]
  asks hn := by
    simp only [MmSystem.next, WrRegs.next, ht, Bool.false_and, Bool.false_eq_true,
      if_false, WrRegs.wrEarly, WrRegs.wrTake, Bool.and_eq_true, beq_iff_eq] at hn ⊢
    obtain ⟨⟨⟨hst, -⟩, -⟩, hbeat, -⟩ := hn
    simp [WrRegs.wrNextS, hst, WrRegs.mAxiWlast]
    omega
  retrying := by simp [MmSystem.next, WrRegs.next, ht, h.retrying]
  hold := by simp [MmSystem.next, WrRegs.next, ht, h.hold]

/-- The write channel as its engine sees it, if the lines `line` are presented in turn. -/
def writeSys (s : MmSystem) (line : ℕ → Line) (pos : ℕ) (mem0 : Mem) : WriteSys :=
  ⟨s.wr, s.mem, s.wtxn, s.arb.wState.map fun _ => ⟨s.arb.wAddr, s.arb.wLines, line⟩, pos, mem0⟩

def writeIn (p : MmParams) (s : MmSystem) (i : MmSystemInputs) (line : ℕ → Line) : WriteInputs where
  start := (s.arb.wGrant (s.arbIn p i)).map fun q =>
    ⟨ArbRegs.wReqAddr (s.arbIn p i) q, ArbRegs.wReqLines (s.arbIn p i) q, line⟩
  mAxiAwready := i.mAxiAwready
  mAxiWready := i.mAxiWready
  mAxiBvalid := i.mAxiBvalid

variable (p TIMEOUT_LIMIT i) in
/-- Seen from the engine, the arbiter and whoever presents lines are one requester. -/
theorem Writes.writeSys_next (h : s.Writes) (line : ℕ → Line) (pos : ℕ) (mem0 : Mem)
    (hline : s.arb.wState ≠ none → s.arb.wrWline (s.arbIn p i) = line pos) :
    (s.next p TIMEOUT_LIMIT i).writeSys line
      (if s.arb.wState.isSome && !s.wr.wrReady then pos + s.wr.wrNext.toNat else 0)
        (if s.arb.wState.isSome then mem0 else s.mem) =
      (s.writeSys line pos mem0).next 2 TIMEOUT_LIMIT (s.writeIn p i line) := by
  cases hp : s.arb.wState with
  | none =>
    -- without a request the engine takes no notice of the line
    have hst := h.idle hp
    have hreq : (s.writeSys line pos mem0).req = none := by simp [writeSys, hp]
    refine WriteSys.ext ?_ ?_ rfl ?_ ?_ ?_
    · simp [writeSys, WriteSys.next, MmSystem.next, WrRegs.next, WrRegs.wrTimeout,
        WrRegs.wrEligible, WrRegs.wrNextS,
        WrRegs.wrStart, WrRegs.wrTake, WrRegs.wrLineEnd, WrRegs.wrEarly, hst, wrIn, writeIn,
        WriteSys.engIn, ArbRegs.wrReqValid, hp]
    · cases hx : s.wtxn <;> simp [writeSys, WriteSys.next, MmSystem.next, WriteSys.beat,
        WrRegs.mAxiWvalid, hst, hx]
    · cases hg : s.arb.wGrant (s.arbIn p i) <;>
        simp [writeSys, WriteSys.next, writeIn, MmSystem.next, ArbRegs.next, hp, hg]
    · simp [writeSys, WriteSys.next, hp]
    · simp [writeSys, WriteSys.next, hp]
  | some q =>
    have hg : s.arb.wGrant (s.arbIn p i) = none := wGrant_of_busy hp
    have hin : s.wrIn p i = (s.writeSys line pos mem0).engIn (s.writeIn p i line) := by
      simp [wrIn, writeSys, writeIn, WriteSys.engIn, ArbRegs.wrReqValid, ArbRegs.wrReqAddr,
        ArbRegs.wrReqLines, hp, hline (by simp [hp])]
    refine WriteSys.ext ?_ ?_ rfl ?_ ?_ ?_
    · rw [WriteSys.next, ← hin]
      rfl
    · rw [WriteSys.next, ← hin]
      rfl
    · have hready : (s.arbIn p i).wrReady = s.wr.wrReady := rfl
      cases hr : s.wr.wrReady <;>
        simp [writeSys, WriteSys.next, MmSystem.next, ArbRegs.next, hp, hg, hready, hr]
    · simp [writeSys, WriteSys.next, hp]
    · simp [writeSys, WriteSys.next, hp]

/-- What is left of a write for its engine. -/
def wrRank (s : MmSystem) : ℕ := (s.writeSys (fun _ => 0) 0 s.mem).rank 2

/-- The write `t` of the accelerator is served: its lines are those of `line`, of which the ones up
    to `t.pos` have been presented. -/
structure Serves (s : MmSystem) (t : WriteTransfer) (line : ℕ → Line) (mem0 : Mem) : Prop where
  state : s.arb.wState = some .A
  addr : t.addr = s.arb.wAddr
  lines : t.lines = WReq.count ⟨s.arb.wAddr, s.arb.wLines, line⟩
  inv : (s.writeSys line t.pos mem0).Inv 2
  first : s.arb.wLineLatched = line 0
  got : t.got = (List.range t.got.length).map line
  taken : t.pos ≤ t.got.length ∧ t.got.length ≤ t.pos + 1

theorem memWnext_eq : (s.accIn p i).memWnext = (decide (s.arb.wState = some .A) && s.wr.wrNext) := rfl

theorem memWrReady_eq : (s.accIn p i).memWrReady =
    (decide (s.arb.wState = some .A) && s.wr.wrReady) := rfl

namespace Serves

variable {t : WriteTransfer} {line : ℕ → Line} {mem0 : Mem}

theorem req (h : s.Serves t line mem0) :
    (s.writeSys line t.pos mem0).req = some ⟨s.arb.wAddr, s.arb.wLines, line⟩ := by
  simp [writeSys, h.state]

/-- The accelerator is asked for its lines only. -/
theorem pos_lt (h : s.Serves t line mem0) : t.pos + s.wr.wrNext.toNat < t.lines := by
  rw [h.lines]
  exact h.inv.pos_lt h.req

/-- The engine is given the line that is presented, or the only one there is. -/
theorem wrWline_eq (h : s.Serves t line mem0) (hp : s.acc.memWline = line t.pos) :
    s.arb.wrWline (s.arbIn p i) = line t.pos := by
  rw [ArbRegs.wrWline]
  split
  · exact hp
  · next hone =>
    have h1 : (1 : BitVec 8).toNat = 1 := rfl
    have hlt := h.pos_lt
    rw [h.lines, WReq.count] at hlt
    simp only [h.state, decide_true, Bool.true_and, decide_eq_true_iff, BitVec.lt_def, h1] at hone
    have hpos : t.pos = 0 := by
      split at hlt
      · rw [h1] at hlt
        omega
      · dsimp only at hlt
        omega
    rw [hpos]
    exact h.first

/-- The lines that have been presented. -/
theorem takeLine_eq (h : s.Serves t line mem0) (hp : s.acc.memWline = line t.pos) :
    s.acc.takeLine true t = (List.range (t.pos + 1)).map line := by
  rw [MmAccel.takeLine, Bool.true_and]
  obtain ⟨h₁, h₂⟩ := h.taken
  by_cases hl : t.got.length = t.pos
  · rw [beq_iff_eq.2 hl, if_pos rfl, h.got, hl, hp, List.range_succ, List.map_append]
    rfl
  · rw [beq_false_of_ne hl, if_neg Bool.false_ne_true, h.got, show t.got.length = t.pos + 1 by omega]

/-- The transaction goes on. -/
theorem next (h : s.Serves t line mem0) (hw : s.Writes) (hp : s.acc.memWline = line t.pos)
    (ht : s.wr.wrTimeout TIMEOUT_LIMIT = false) (hr : s.wr.wrReady = false) (grant : Bool) :
    ∃ t', s.acc.wrNext p (s.accIn p i) grant true (some t) = some t' ∧
      t'.pos = t.pos + s.wr.wrNext.toNat ∧
      (s.next p TIMEOUT_LIMIT i).Serves t' line mem0 := by
  have hready : (s.accIn p i).memWrReady = false := by simp [memWrReady_eq, hr]
  have hnext : (s.accIn p i).memWnext = s.wr.wrNext := by simp [memWnext_eq, h.state]
  have hg : s.arb.wGrant (s.arbIn p i) = none := wGrant_of_busy h.state
  have hst : (s.next p TIMEOUT_LIMIT i).arb.wState = some .A := by simp [wState_next, h.state, hr]
  have haddr : (s.next p TIMEOUT_LIMIT i).arb.wAddr = s.arb.wAddr := by
    simp [MmSystem.next, ArbRegs.next, hg]
  have hlines : (s.next p TIMEOUT_LIMIT i).arb.wLines = s.arb.wLines := by
    simp [MmSystem.next, ArbRegs.next, hg]
  have hlat : (s.next p TIMEOUT_LIMIT i).arb.wLineLatched = s.arb.wLineLatched := by
    simp [MmSystem.next, ArbRegs.next, hg]
  have hsys := hw.writeSys_next p TIMEOUT_LIMIT i line t.pos mem0 fun _ =>
    h.wrWline_eq (p := p) (i := i) hp
  rw [h.state, hr] at hsys
  have hinv : ((s.writeSys line t.pos mem0).next 2 TIMEOUT_LIMIT (s.writeIn p i line)).Inv 2 :=
    WriteSys.inv_next le_rfl (by decide) h.inv fun hto => absurd (hto.symm.trans ht) (by simp)
  rw [← hsys] at hinv
  refine ⟨{ t with pos := t.pos + s.wr.wrNext.toNat, got := s.acc.takeLine true t }, ?_, rfl, hst,
    h.addr.trans haddr.symm, ?_, hinv, hlat.trans h.first, ?_, ?_⟩
  · rw [MmAccel.wrNext, hready, if_neg Bool.false_ne_true, hnext]
  · rw [haddr, hlines]
    exact h.lines
  · simp [h.takeLine_eq hp]
  · dsimp only
    rw [h.takeLine_eq hp, List.length_map, List.length_range]
    cases s.wr.wrNext <;> simp

variable (TIMEOUT_LIMIT) in
/-- The transaction is over. -/
theorem done (h : s.Serves t line mem0) (hr : s.wr.wrReady = true) (grant look : Bool) :
    s.acc.wrNext p (s.accIn p i) grant look (some t) = none ∧
    (s.next p TIMEOUT_LIMIT i).arb.wState = none := by
  have hready : (s.accIn p i).memWrReady = true := by simp [memWrReady_eq, h.state, hr]
  exact ⟨by rw [MmAccel.wrNext, hready, if_pos rfl], by simp [wState_next, h.state, hr]⟩

/-- A transaction that goes on makes progress. -/
theorem wrRank_next (h : s.Serves t line mem0) (hw : s.Writes) (hp : s.acc.memWline = line t.pos)
    (ht : s.wr.wrTimeout TIMEOUT_LIMIT = false) (hr : s.wr.wrReady = false) :
    (s.next p TIMEOUT_LIMIT i).wrRank < s.wrRank := by
  have hrank : ((s.writeSys line t.pos mem0).next 2 TIMEOUT_LIMIT (s.writeIn p i line)).rank 2 <
      (s.writeSys line t.pos mem0).rank 2 := WriteSys.rank_next (by decide) h.inv h.req ht hr
  rw [← hw.writeSys_next p TIMEOUT_LIMIT i line t.pos mem0 fun _ =>
    h.wrWline_eq (p := p) (i := i) hp] at hrank
  exact hrank

variable (TIMEOUT_LIMIT) in
/-- The transaction is served as the accelerator expects it. -/
theorem writeServes (h : s.Serves t line mem0) (hw : s.Writes) (hp : s.acc.memWline = line t.pos) :
    s.acc.WriteServes (s.accIn p i) true (some t) s.mem (s.next p TIMEOUT_LIMIT i).mem := by
  have hsys := hw.writeSys_next p TIMEOUT_LIMIT i line t.pos mem0 fun _ =>
    h.wrWline_eq (p := p) (i := i) hp
  have hmem : (s.next p TIMEOUT_LIMIT i).mem =
      ((s.writeSys line t.pos mem0).next 2 TIMEOUT_LIMIT (s.writeIn p i line)).mem :=
        congrArg WriteSys.mem hsys
  have hat : ∀ k, lineNo (t.at k) = lineNo (lineBase s.arb.wAddr + BitVec.ofNat 32 (16 * k)) :=
      fun k => by
    rw [lineNo_lineBase_add, WriteTransfer.at, h.addr]
  have htake := h.takeLine_eq hp
  constructor
  case wnext =>
    intro hn
    rw [memWnext_eq, h.state] at hn
    have hn : s.wr.wrNext = true := by simpa using hn
    have hlt := h.pos_lt
    rw [hn, Bool.toNat_true] at hlt
    refine ⟨?_, t, rfl, hlt, by rw [htake, List.length_map, List.length_range]⟩
    simp [memWrReady_eq, WrRegs.wrReady, hw.asks hn]
  case ready =>
    -- `wrReady` comes in `WR_DONE`, when all lines are in place
    intro hr
    rw [memWrReady_eq, h.state] at hr
    have hr : s.wr.wrReady = true := by simpa using hr
    obtain ⟨r, hreq, hplace, hpos⟩ := h.inv.inPlace hr
    obtain rfl := Option.some_inj.1 (h.req.symm.trans hreq)
    have hst : s.wr.wrState = .WR_DONE := by simpa [WrRegs.wrReady] using hr
    have hrest : ((s.writeSys line t.pos mem0).next 2 TIMEOUT_LIMIT (s.writeIn p i line)).mem = s.mem :=
      WriteSys.mem_next_of_rest (by simp [writeSys, hst])
    have hlast : t.pos + 1 = t.lines := by
      have hpos : t.pos = WReq.count ⟨s.arb.wAddr, s.arb.wLines, line⟩ - 1 := hpos
      have := h.pos_lt
      rw [h.lines] at this ⊢
      omega
    refine ⟨t, rfl, hlast, by rw [htake, List.length_map, List.length_range, hlast], fun k hk => ?_⟩
    rw [hmem, hrest, htake, hlast, Mem.line_of_lineNo_eq (hat k)]
    refine (hplace k (h.lines ▸ hk)).trans ?_
    simp [List.getD, hk]
  case idle =>
    intro hx
    cases hx
  case frame =>
    intro t' ht' y hy
    obtain rfl := Option.some_inj.1 ht'
    rw [hmem]
    refine h.inv.mem_next_outside (by decide) h.req fun hlt => ?_
    have hlt : (y - lineBase s.arb.wAddr).toNat < 16 * t.lines := h.lines ▸ hlt
    exact hy _ (by omega) ((lineNo_eq_of_sub s.arb.wAddr y).trans (hat _).symm)

end Serves

variable (TIMEOUT_LIMIT) in
/-- A request to write is taken over, with the line that is presented. -/
theorem next_of_wGrant {q : WPort} (hp : s.arb.wState = none)
    (hg : s.arb.wGrant (s.arbIn p i) = some q) :
    (s.next p TIMEOUT_LIMIT i).arb.wState = some q ∧
      (s.next p TIMEOUT_LIMIT i).arb.wAddr = ArbRegs.wReqAddr (s.arbIn p i) q ∧
      (s.next p TIMEOUT_LIMIT i).arb.wLines = ArbRegs.wReqLines (s.arbIn p i) q ∧
      (s.next p TIMEOUT_LIMIT i).arb.wLineLatched = ArbRegs.wReqLine (s.arbIn p i) q := by
  simp [MmSystem.next, ArbRegs.next, hp, hg]

variable (TIMEOUT_LIMIT) in
/-- A write of the accelerator is granted. -/
theorem Writes.serves_of_wGrant (h : s.Writes) {line : ℕ → Line}
    (ht : s.wr.wrTimeout TIMEOUT_LIMIT = false)
    (hs : s.arb.wState = none) (hg : s.arb.wGrant (s.arbIn p i) = some .A)
    (hp : s.acc.memWline = line 0) :
    s.acc.wrNext p (s.accIn p i) true true none = some (s.acc.wrTransfer p true) ∧
      (s.next p TIMEOUT_LIMIT i).Serves (s.acc.wrTransfer p true) line s.mem := by
  obtain ⟨h₁, h₂, h₃, h₄⟩ := next_of_wGrant TIMEOUT_LIMIT hs hg
  have hreq : s.acc.memWrReqValid = true := wReq_of_wGrant hg
  have hsys : (s.next p TIMEOUT_LIMIT i).writeSys line 0 s.mem =
      (s.writeSys line 0 s.mem).next 2 TIMEOUT_LIMIT (s.writeIn p i line) := by
    have hsys := h.writeSys_next p TIMEOUT_LIMIT i line 0 s.mem fun hne => absurd hs hne
    rwa [hs] at hsys
  have hinv : (s.writeSys line 0 s.mem).Inv 2 := by
    have hn : s.wr.wrNext = false := Bool.eq_false_iff.2 fun hn => by
      have := (h.asks hn).symm.trans (h.idle hs)
      cases this
    simp [WriteSys.Inv, writeSys, hs, h.hold, h.idle hs, h.retrying, hn]
  refine ⟨by simp [MmAccel.wrNext, hreq], h₁, h₂.symm, ?_, ?_, h₄.trans hp, ?_, Nat.zero_le _, le_rfl⟩
  · rw [h₃]
    exact (WReq.count_copied _ _ _).symm
  · have hinv' : ((s.writeSys line 0 s.mem).next 2 TIMEOUT_LIMIT (s.writeIn p i line)).Inv 2 :=
      WriteSys.inv_next le_rfl (by decide) hinv fun hto => absurd (hto.symm.trans ht) (by simp)
    rw [← hsys] at hinv'
    exact hinv'
  · simp [MmAccel.wrTransfer, hp]

/-- Without a request of the data cache none of its writes begins. -/
theorem wState_ne_D_next (hs : s.arb.wState ≠ some .D) (hreq : ArbRegs.wReq (s.arbIn p i) .D = false) :
    (s.next p TIMEOUT_LIMIT i).arb.wState ≠ some .D := by
  rw [wState_next]
  split_ifs
  · exact fun hg => absurd ((wReq_of_wGrant hg).symm.trans hreq) (by simp)
  · simp
  · exact hs

/-- Memory is left alone on a cycle on which no write goes on. -/
theorem Writes.mem_next (h : s.Writes) (hs : (s.next p TIMEOUT_LIMIT i).arb.wState = none) :
    (s.next p TIMEOUT_LIMIT i).mem = s.mem := by
  have hst : s.wr.wrState = .WR_IDLE ∨ s.wr.wrState = .WR_DONE := by
    rw [wState_next] at hs
    cases hp : s.arb.wState with
    | none => exact .inl (h.idle hp)
    | some q =>
      cases hr : s.wr.wrReady with
      | false => simp [hp, hr] at hs
      | true => exact .inr (by simpa [WrRegs.wrReady] using hr)
  have hv : s.wr.mAxiWvalid = false := by rcases hst with hst | hst <;> simp [WrRegs.mAxiWvalid, hst]
  cases hx : s.wtxn <;> simp [MmSystem.next, hv, hx]

variable (TIMEOUT_LIMIT) in
/-- Without a write memory is left alone. -/
theorem Writes.writeServes_none (h : s.Writes) (hs : s.arb.wState = none) (look : Bool) :
    s.acc.WriteServes (s.accIn p i) look none s.mem (s.next p TIMEOUT_LIMIT i).mem where
  wnext hn := by simp [memWnext_eq, hs] at hn
  ready hr := by simp [memWrReady_eq, hs] at hr
  idle _ := by cases hx : s.wtxn <;> simp [MmSystem.next, WrRegs.mAxiWvalid, h.idle hs, hx]
  frame t ht := by cases ht

/-! ## Out of reset -/

theorem reachable_acc (h : (mmSystem p TIMEOUT_LIMIT).Reachable s) : (mmAccel p).Reachable s.acc := by
  induction h with
  | init h => exact .init (IsReset.acc h)
  | step _ _ ih => exact .step ih trivial

theorem exists_reads (h : (mmSystem p TIMEOUT_LIMIT).Reachable s) (hd : p.GoodDim) (hm : p.maxK ≤ 128) :
    ∃ seen, s.Reads seen := by
  refine h.invariant (P := fun s => ∃ seen, s.Reads seen) (fun s hs => ?_) fun s i hr ha => ?_
  · have hs : s.IsReset := hs
    obtain ⟨hst, -, ha, hl, hc, -⟩ := hs.arb
    refine ⟨[], ?_, fun q hq => by simp [hst] at hq⟩
    exact ReadSys.inv_of_isReset ⟨hs.rd, hs.rtxn, by simp [readSys, hst], by simp [readSys, hc], rfl⟩
  · obtain ⟨seen, hr⟩ := hr
    exact ⟨_, hr.next hd hm ha.1⟩

theorem writes_of_reachable (h : (mmSystem p TIMEOUT_LIMIT).Reachable s) : s.Writes := by
  refine h.invariant (fun s hs => ?_) fun s i hw ha => hw.next ha.2
  have hs : s.IsReset := hs
  obtain ⟨hst, -, -, -, -, -, -, hn, hret, -, hh, -, -, -⟩ := hs.wr
  exact ⟨fun _ => hst, fun h => by simp [hn] at h, hret, hh⟩

/-! ## A memory that answers -/

/-- A memory that accepts and acknowledges at once, and returns what is read from the cycle `late` on. -/
structure Answers (late : ℕ) (ι : ℕ → MmSystemInputs) : Prop where
  ar : ∀ n, (ι n).mAxiArready = true
  r : ∀ n ≥ late, (ι n).mAxiRvalid = true
  aw : ∀ n, (ι n).mAxiAwready = true
  w : ∀ n, (ι n).mAxiWready = true
  b : ∀ n, (ι n).mAxiBvalid = true

/-- A burst that is being read is in the memory. -/
theorem Reads.rtxn_isSome {seen : List (Beat 2)} (h : s.Reads seen) (hst : s.rd.rdState = .RD_DATA) :
    s.rtxn.isSome = true := by
  have hi := h.inv
  cases hp : s.arb.rState with
  | none => simp [ReadSys.Inv, readSys, hp, hst] at hi
  | some q =>
    simp only [ReadSys.Inv, readSys, hp, Option.map_some, hst] at hi
    rw [show s.rtxn = _ from hi.2.2.txn]
    rfl

/-- Until the memory answers the watchdog of the reads counts the cycles. -/
theorem rdTmo_next_le {n : ℕ} (h : s.rd.rdTmo.toNat ≤ n) :
    (s.next p TIMEOUT_LIMIT i).rd.rdTmo.toNat ≤ n + 1 := by
  have h1 : (1 : BitVec 16).toNat = 1 := rfl
  have hsucc : (s.rd.rdTmo + 1).toNat ≤ n + 1 := by
    rw [BitVec.toNat_add, h1]
    exact (Nat.mod_le _ _).trans (Nat.add_le_add_right h 1)
  change (s.rd.next TIMEOUT_LIMIT (s.rdIn i)).rdTmo.toNat ≤ n + 1
  rw [RdRegs.rdTmo_next]
  split_ifs
  · exact Nat.zero_le _
  · exact Nat.zero_le _
  · exact hsucc
  · exact Nat.zero_le _

/-- No timeout fires, if what is read is not too late. -/
theorem Answers.isRun {late : ℕ} {ι : ℕ → MmSystemInputs} (h : Answers late ι)
    (hlt : late < TIMEOUT_LIMIT.toNat) (hs : s.IsReset) (hd : p.GoodDim) (hm : p.maxK ≤ 128) :
    (mmSystem p TIMEOUT_LIMIT).IsRun ((mmSystem p TIMEOUT_LIMIT).trace s ι) ι := by
  have hpos : ∀ t : BitVec 16, t.toNat ≤ late → ¬TIMEOUT_LIMIT ≤ t := fun t ht hle => by
    rw [BitVec.le_def] at hle
    omega
  have hadm : ∀ {s : MmSystem} {i : MmSystemInputs}, s.rd.rdTmo.toNat ≤ late → s.wr.wrTmo = 0 →
      (mmSystem p TIMEOUT_LIMIT).admits s i := fun {s i} hrd hwr =>
    ⟨by simp [RdRegs.rdTimeout, hpos _ hrd], by simp [WrRegs.wrTimeout, hpos s.wr.wrTmo (by simp [hwr])]⟩
  have hall : ∀ n, (∃ seen, ((mmSystem p TIMEOUT_LIMIT).trace s ι n).Reads seen) ∧
      ((mmSystem p TIMEOUT_LIMIT).trace s ι n).rd.rdTmo.toNat ≤ min n late ∧
      ((mmSystem p TIMEOUT_LIMIT).trace s ι n).wr.wrTmo = 0 := by
    intro n
    induction n with
    | zero =>
      obtain ⟨-, -, -, -, -, -, -, -, htmo, -⟩ := hs.rd
      obtain ⟨-, -, -, -, -, -, -, -, -, -, -, hwtmo, -⟩ := hs.wr
      have hreach : (mmSystem p TIMEOUT_LIMIT).Reachable s := .init hs
      exact ⟨exists_reads hreach hd hm, by simp [Circuit.trace, htmo], hwtmo⟩
    | succ n ih =>
      obtain ⟨⟨seen, hr⟩, hrd, hwr⟩ := ih
      have ha := hadm (i := ι n) (hrd.trans (Nat.min_le_right n late)) hwr
      refine ⟨⟨_, hr.next hd hm ha.1⟩, ?_, WrRegs.wrTmo_next_of_ready (h.aw n) (h.w n) (h.b n)⟩
      rcases Nat.lt_or_ge n late with hn | hn
      · rw [Nat.min_eq_left hn]
        exact rdTmo_next_le (hrd.trans (Nat.min_le_left n late))
      · have h0 : ((mmSystem p TIMEOUT_LIMIT).trace s ι (n + 1)).rd.rdTmo = 0 :=
          RdRegs.rdTmo_next_of_ready (h.ar n) fun hst => by simp [rdIn, h.r n hn, hr.rtxn_isSome hst]
        rw [h0]
        exact Nat.zero_le _
  exact Circuit.isRun_trace hs fun n => hadm ((hall n).2.1.trans (Nat.min_le_right n late)) (hall n).2.2

/-! ## Every request is served -/

/-- What is left of a read for its engine. -/
def rdRank (s : MmSystem) : ℕ := (s.readSys []).rank

/-- The last line of a read comes in. -/
def rdLast (s : MmSystem) : Bool := (s.readSys []).complete

variable {x : ℕ → MmSystem} {ι : ℕ → MmSystemInputs} {n : ℕ}

/-- A run of the system, from any of its states on. -/
structure Runs (p : MmParams) (TIMEOUT_LIMIT : BitVec 16) (x : ℕ → MmSystem)
    (ι : ℕ → MmSystemInputs) : Prop where
  next : ∀ n, x (n + 1) = (x n).next p TIMEOUT_LIMIT (ι n)
  rdTimeout : ∀ n, (x n).rd.rdTimeout TIMEOUT_LIMIT = false
  wrTimeout : ∀ n, (x n).wr.wrTimeout TIMEOUT_LIMIT = false
  reads : ∀ n, ∃ seen, (x n).Reads seen

namespace Runs

variable (h : Runs p TIMEOUT_LIMIT x ι)

include h

/-- A read moves on, or is over. -/
theorem rdRank_next {q : RPort} (hq : (x n).arb.rState = some q) (hl : (x n).rdLast = false) :
    (x (n + 1)).arb.rState = some q ∧ (x (n + 1)).rdRank < (x n).rdRank := by
  obtain ⟨seen, hr⟩ := h.reads n
  have hl : ((x n).readSys seen).complete = false := hl
  have hrank := ReadSys.rank_next (i := (x n).readIn p (ι n)) (by decide) hr.inv
    (r := ⟨(x n).arb.rAddr, (x n).arb.rLines⟩) (by simp [readSys, hq]) (h.rdTimeout n) hl
  rw [← hr.readSys_next, ← h.next n] at hrank
  refine ⟨?_, hrank⟩
  rw [h.next n, hr.rState_next, hq, hl]
  rfl

/-- Every read that is served is over in the end. -/
theorem exists_rdLast {q : RPort} (hq : (x n).arb.rState = some q) :
    ∃ m ≥ n, (∀ k, n ≤ k → k ≤ m → (x k).arb.rState = some q) ∧ (x m).rdLast = true :=
  Circuit.exists_of_rank (ι := fun _ => ()) rdRank (P := fun s => s.arb.rState = some q) (Q :=
    fun s _ => s.rdLast = true)
    (fun _ hq hl => h.rdRank_next hq (Bool.eq_false_iff.2 hl)) hq

/-- A request of the accelerator that is not withdrawn is granted in the end. -/
theorem exists_rGrant
    (hv : ∀ k ≥ n, (x k).arb.rState ≠ some .A → (x k).acc.memRdReqValid = true →
      (x (k + 1)).acc.memRdReqValid = true)
    (hp : (x n).arb.rState ≠ some .A) (hreq : (x n).acc.memRdReqValid = true) :
    ∃ m ≥ n, (x (m + 1)).arb.rState = some .A := by
  by_contra hcon
  have hno : ∀ m ≥ n, (x (m + 1)).arb.rState ≠ some .A := fun m hm hs => hcon ⟨m, hm, hs⟩
  -- the turns until that of the accelerator come first, and then what is left of the read that is served
  let rank : ℕ → ℕ ×ₗ ℕ ×ₗ ℕ := fun k =>
    toLex (RPort.wait (x k).arb.rLast .A, toLex ((x k).arb.rState.isSome.toNat, (x k).rdRank))
  have hstep : ∀ k, n ≤ k ∧ (x k).arb.rState ≠ some .A ∧
    (x k).acc.memRdReqValid = true → ¬False →
      (n ≤ k + 1 ∧ (x (k + 1)).arb.rState ≠ some .A ∧ (x (k + 1)).acc.memRdReqValid = true) ∧
      rank (k + 1) < rank k := by
    rintro k ⟨hk, hs, hreq⟩ -
    refine ⟨⟨Nat.le_succ_of_le hk, hno k hk, hv k hk hs hreq⟩, ?_⟩
    obtain ⟨seen, hr⟩ := h.reads k
    cases hq : (x k).arb.rState with
    | none =>
      obtain ⟨q, hg, hlt⟩ := RPort.wait_lt_of_rGrant (i := (x k).arbIn p (ι k)) hq (p := .A) hreq
      have hst : (x (k + 1)).arb.rState = some q := by rw [h.next k, hr.rState_next, hq, ← hg]; rfl
      have hne : q ≠ .A := fun hA => hno k hk (hA ▸ hst)
      have hlast : (x (k + 1)).arb.rLast = q := by rw [h.next k]; simp [MmSystem.next, ArbRegs.next, hg]
      refine Prod.Lex.toLex_lt_toLex.2 (.inl ?_)
      simpa [hlast] using hlt hne
    | some q =>
      have hg : (x k).arb.rGrant ((x k).arbIn p (ι k)) = none := rGrant_of_busy hq
      have hlast : (x (k + 1)).arb.rLast = (x k).arb.rLast := by
        rw [h.next k]; simp [MmSystem.next, ArbRegs.next, hg]
      refine Prod.Lex.toLex_lt_toLex.2 (.inr ⟨by simp [hlast], Prod.Lex.toLex_lt_toLex.2 ?_⟩)
      cases hl : (x k).rdLast with
      | true =>
        have hl : ((x k).readSys seen).complete = true := hl
        have hst : (x (k + 1)).arb.rState = none := by rw [h.next k, hr.rState_next, hq, hl]; rfl
        exact .inl (by simp [hst, hq])
      | false =>
        obtain ⟨hst, hlt⟩ := h.rdRank_next hq hl
        exact .inr ⟨by simp [hst, hq], hlt⟩
  obtain ⟨-, -, -, hm⟩ := Circuit.exists_of_rank (ι := fun _ => ()) (σ := id) rank
    (P := fun k => n ≤ k ∧ (x k).arb.rState ≠ some .A ∧
      (x k).acc.memRdReqValid = true) (Q := fun _ _ => False) hstep
    ⟨le_rfl, hp, hreq⟩
  exact hm

end Runs

end MmSystem

end Rv32Soc
