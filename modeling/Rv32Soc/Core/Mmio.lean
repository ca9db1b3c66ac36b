import Rv32Soc.Core.MultiCycle
import Rv32Soc.Core.Registers

/-!
# Accesses to the peripherals

A load or a store to a peripheral holds the pipeline until the peripheral has answered, and may
then be held by something else for as long as that takes. `*_pending` and `*_done` see
to it that the peripheral is asked once all the same, and `*_rdata_latched` that its
answer is still there.

* `memLog`: what happens while an instruction is in MEM;
* `Once`: an access is made on one cycle of this stay, and on no other one;
* `Core.Port.follows`: a port that has not asked, waits, or has its answer, whatever it
  is that the log records;
* `AxiEvent`: the transfers on the five channels of the accelerator;
* `mmio_of_isRun`: each access is made once, with what it does to the peripheral, and no other
  instruction makes one.
-/

namespace Rv32Soc

/-- What happens while an instruction is in MEM: the events `f` of the cycles before `n` on which the
    one that is in MEM on the cycle `n` was there. -/
def memLog {α : Type*} (σ : ℕ → Core) (ι : ℕ → CoreInputs) (f : ℕ → List α) : ℕ → List α
  | 0 => []
  | n + 1 => if (σ n).globalMemStall (ι n) then memLog σ ι f n ++ f n else []

/-- The cycle on which the instruction that is in MEM on the cycle `n` came there. -/
def memSince (σ : ℕ → Core) (ι : ℕ → CoreInputs) : ℕ → ℕ
  | 0 => 0
  | n + 1 => if (σ n).globalMemStall (ι n) then memSince σ ι n else n + 1

/-- Of the cycles from `a` to `b` one has the access `r`, if there is one, and the others have none.
    What it is for a cycle to have an access, or none, is `P`. -/
def Once {α : Type*} (P : ℕ → Option α → Prop) (a b : ℕ) (r : Option α) : Prop :=
  ∃ k, a ≤ k ∧ k ≤ b ∧ P k r ∧ ∀ j, a ≤ j → j ≤ b → j ≠ k → P j none

theorem Once.imp {α β : Type*} {P : ℕ → Option α → Prop} {Q : ℕ → Option β → Prop}
    {a b : ℕ} {r : Option α}
    {r' : Option β} (h : Once P a b r) (hr : ∀ k, P k r → Q k r') (hn : ∀ k, P k none → Q k none) :
    Once Q a b r' := by
  obtain ⟨k, ha, hb, hk, hj⟩ := h
  exact ⟨k, ha, hb, hr k hk, fun j h₁ h₂ hne => hn j (hj j h₁ h₂ hne)⟩

section

variable {α : Type*} {σ : ℕ → Core} {ι : ℕ → CoreInputs}

theorem memSince_le (n : ℕ) : memSince σ ι n ≤ n := by
  induction n with
  | zero => exact le_rfl
  | succ n ih =>
    rw [memSince]
    split
    · exact ih.trans n.le_succ
    · exact le_rfl

/-- Until it leaves, the instruction is frozen. -/
theorem frozen_of_memSince {n k : ℕ} (hk : memSince σ ι n ≤ k) (hn : k < n) :
    (σ k).globalMemStall (ι k) := by
  induction n with
  | zero => exact absurd hn k.not_lt_zero
  | succ n ih =>
    rw [memSince] at hk
    split at hk
    · next hs =>
      rcases Nat.lt_succ_iff_lt_or_eq.1 hn with hlt | rfl
      · exact ih hk hlt
      · exact hs
    · exact absurd hk (by omega)

theorem toList_injective : Function.Injective (Option.toList (α := α)) := by
  rintro (_ | x) (_ | y) h
  · rfl
  · cases h
  · cases h
  · rw [List.singleton_inj.1 h]

/-- A log with one entry, or none, of a stay: so it is of its cycles. -/
theorem once_of_memLog {g : ℕ → Option α} {n : ℕ} {r : Option α}
    (h : memLog σ ι (fun k => (g k).toList) n ++ (g n).toList = r.toList) :
    Once (fun k x => g k = x) (memSince σ ι n) n r := by
  induction n generalizing r with
  | zero => exact ⟨0, le_rfl, le_rfl, toList_injective h, fun j _ hj hne =>
      absurd (Nat.le_zero.1 hj) hne⟩
  | succ n ih =>
    rw [memLog] at h
    rw [memSince]
    split at h
    · next hs =>
      rw [if_pos hs]
      have hle := memSince_le (σ := σ) (ι := ι) n
      cases hg : g (n + 1) with
      | none =>
        -- nothing happens on the last cycle
        rw [hg, Option.toList_none, List.append_nil] at h
        obtain ⟨k, h₁, h₂, hk, hj⟩ := ih h
        refine ⟨k, h₁, h₂.trans n.le_succ, hk, fun j hj₁ hj₂ hne => ?_⟩
        rcases Nat.le_succ_iff.1 hj₂ with hle | rfl
        · exact hj j hj₁ hle hne
        · exact hg
      | some x =>
        -- it happens on the last cycle, and so not before
        obtain ⟨hnil, hx⟩ : memLog σ ι (fun k => (g k).toList) n ++ (g n).toList =
          (none : Option α).toList ∧
            r = some x := by
          rw [hg] at h
          cases r with
          | none => exact absurd h (by simp)
          | some y =>
            rcases List.append_eq_singleton_iff.1 h with ⟨hl, hy⟩ | ⟨-, hy⟩
            · exact ⟨hl, congrArg some (List.singleton_inj.1 hy).symm⟩
            · cases hy
        obtain ⟨k, h₁, h₂, hk, hj⟩ := ih hnil
        refine ⟨n + 1, hle.trans n.le_succ, le_rfl, hg.trans hx.symm, fun j hj₁ hj₂ hne => ?_⟩
        rcases eq_or_ne j k with rfl | hjk
        · exact hk
        · exact hj j hj₁ (by omega) hjk
    · next hs =>
      rw [if_neg hs]
      exact ⟨n + 1, le_rfl, le_rfl, toList_injective h, fun j hj₁ hj₂ hne =>
        absurd (le_antisymm hj₂ hj₁) hne⟩

/-- What is done only when the pipeline moves on is done on the last cycle of a stay. -/
theorem once_of_leaves {P : ℕ → Option α → Prop} {n : ℕ} {r : Option α} (hn : P n r)
    (hj : ∀ j, (σ j).globalMemStall (ι j) → P j none) : Once P (memSince σ ι n) n r :=
  ⟨n, memSince_le n, le_rfl, hn, fun j h₁ h₂ hne =>
    hj j (frozen_of_memSince h₁ (lt_of_le_of_ne h₂ hne))⟩

end

namespace Core

/-! ## The ports -/

/-- A port to a peripheral: the addresses it is for, its registers, and the answer of the
    peripheral. -/
structure Port where
  window : Word → Bool
  port : Core → MmioPort
  ready : CoreInputs → Bool
  rdata : CoreInputs → Word

namespace Port

variable (v : Port) (s : Core)

def valid : Bool := v.window s.exMem.alu && (s.isLoad || s.storeCommits)
def req : Bool := v.valid s && !(v.port s).pending && !(v.port s).done

/-- What an edge does to the registers of the port, and what the port does to the pipeline. -/
structure Lawful (v : Port) : Prop where
  init : ∀ s : Core, s.IsReset → v.port s = ⟨false, false, 0⟩
  next : ∀ (s : Core) (i : CoreInputs) (p : Predictor) (L : BitVec 16),
    v.port (s.nextWith i p L) = (v.port s).next (v.req s) (v.ready i) (v.rdata i) (s.globalMemStall i)
  stall : ∀ (s : Core) (i : CoreInputs), v.valid s → (v.port s).done = false → s.globalMemStall i

end Port

def uartPort : Port where
  window a := a &&& 0xFFFFFFF0 == 0x40001000
  port := Core.uart
  ready := CoreInputs.uartReady
  rdata := CoreInputs.uartRdata

def intcPort : Port where
  window a := a &&& 0xFFFFFFF8 == 0x00004000
  port := Core.intc
  ready := CoreInputs.intcReady
  rdata := CoreInputs.intcRdata

def accelPort : Port where
  window a := a &&& 0xFFFFFF00 == 0x00005000
  port := Core.accel
  ready := CoreInputs.accelReady
  rdata := CoreInputs.accelRdata

/-- Out of reset no access is pending. -/
theorem IsReset.ports {s : Core} (h : s.IsReset) :
    s.uart = ⟨false, false, 0⟩ ∧ s.intc = ⟨false, false, 0⟩ ∧ s.accel = ⟨false, false, 0⟩ := by
  obtain ⟨-, -, -, -, -, -, -, -, -, -, -, -, -, -, -, -, h₁, h₂, h₃, -⟩ := h
  exact ⟨h₁, h₂, h₃⟩

theorem lawful_uartPort : uartPort.Lawful := by
  refine ⟨fun s h => h.ports.1, fun s i p L => rfl, fun s i hv hd => ?_⟩
  have hs : s.uartStall := by
    rw [uartStall, show s.uart.done = false from hd, show s.uartValid = true from hv]
    rfl
  simp [globalMemStall, hs]

theorem lawful_intcPort : intcPort.Lawful := by
  refine ⟨fun s h => h.ports.2.1, fun s i p L => rfl, fun s i hv hd => ?_⟩
  have hs : s.intcStall := by
    rw [intcStall, show s.intc.done = false from hd, show s.intcValid = true from hv]
    rfl
  simp [globalMemStall, hs]

theorem lawful_accelPort : accelPort.Lawful := by
  refine ⟨fun s h => h.ports.2.2, fun s i p L => rfl, fun s i hv hd => ?_⟩
  have hs : s.accelStall := by
    rw [accelStall, show s.accel.done = false from hd, show s.accelValid = true from hv]
    rfl
  simp [globalMemStall, hs]

/-! ## A frozen instruction -/

section

variable {s : Core} {i : CoreInputs} {p : Predictor} {L : BitVec 16}

theorem exMem_frozen (hg : s.globalMemStall i) : (s.nextWith i p L).exMem = s.exMem := by
  simp [nextExMem, hg]

/-- Whether an instruction stores is settled when it comes to MEM. -/
theorem WellFormed.storeCommits_frozen (h : s.WellFormed) (hg : s.globalMemStall i) :
    (s.nextWith i p L).storeCommits = s.storeCommits := by
  unfold storeCommits isStore scSuccessFlag
  rw [exMem_frozen hg]
  cases hs : s.exMem.isSc
  · rfl
  · rw [h.rm_frozen hg hs]

theorem WellFormed.mmioReq_frozen (h : s.WellFormed) (hg : s.globalMemStall i) :
    (s.nextWith i p L).mmioReq = s.mmioReq := by
  rw [mmioReq, h.storeCommits_frozen hg, exMem_frozen hg, mmioReq]

theorem WellFormed.valid_frozen (h : s.WellFormed) (hg : s.globalMemStall i) (v : Port) :
    v.valid (s.nextWith i p L) = v.valid s := by
  rw [Port.valid, h.storeCommits_frozen hg, exMem_frozen hg, isLoad, exMem_frozen hg, Port.valid, isLoad]

end

/-! ## One access -/

section

variable {STALL_WATCHDOG_LIMIT : BitVec 16} {σ : ℕ → Core} {ι : ℕ → CoreInputs}
  {π : ℕ → Predictor}
  {α : Type*} {v : Port} {f : ℕ → List α} {W : ℕ → List α → Prop} {A : MmioReq →
    List α → Word → Prop}

/-- A port has not asked yet, waits with the log `W`, or has its answer with the log `A`. -/
inductive Port.Phase (v : Port) (W : List α → Prop) (A : MmioReq → List α → Word → Prop) (s : Core)
    (l : List α) : Prop
  | idle (pending : (v.port s).pending = false) (done : (v.port s).done = false) (log : l = [])
  | waiting (valid : v.valid s) (pending : (v.port s).pending = true)
      (done : (v.port s).done = false) (log : W l)
  | answered (valid : v.valid s) (pending : (v.port s).pending = false) (done : (v.port s).done = true)
      (log : A s.mmioReq l (v.port s).rdataLatched)

theorem Port.port_next (h : (core STALL_WATCHDOG_LIMIT).IsRun σ fun n => (ι n, π n))
    (hv : v.Lawful) (n : ℕ) :
    v.port (σ (n + 1)) =
      (v.port (σ n)).next (v.req (σ n)) (v.ready (ι n)) (v.rdata (ι n))
        ((σ n).globalMemStall (ι n)) := by
  rw [core_next h n]
  exact hv.next (σ n) (ι n) (π n) STALL_WATCHDOG_LIMIT

/-- A frozen instruction keeps its request. -/
theorem Port.request_next (h : (core STALL_WATCHDOG_LIMIT).IsRun σ fun n => (ι n, π n)) {n : ℕ}
    (hg : (σ n).globalMemStall (ι n)) :
    v.valid (σ (n + 1)) = v.valid (σ n) ∧ (σ (n + 1)).mmioReq = (σ n).mmioReq := by
  have hwf := wellFormed_of_reachable (h.reachable n)
  rw [core_next h n]
  exact ⟨hwf.valid_frozen hg v, hwf.mmioReq_frozen hg⟩

section

variable {n : ℕ} {l : List α} {W : List α → Prop}

/-- A port that has not asked stays so, or asks. -/
theorem Port.idle_next (h : (core STALL_WATCHDOG_LIMIT).IsRun σ fun n => (ι n, π n)) (hv : v.Lawful)
    (pending : (v.port (σ n)).pending = false) (done : (v.port (σ n)).done = false)
    (hr : v.ready (ι n) = false) (hstart : v.req (σ n) → W (f n))
    (hquiet : v.req (σ n) = false → f n = []) :
    v.Phase W A (σ (n + 1)) (if (σ n).globalMemStall (ι n) then f n else []) := by
  have hnext := Port.port_next h hv n
  cases hq : v.req (σ n)
  · refine .idle ?_ ?_ (by rw [hquiet hq, ite_self])
    · rw [hnext, MmioPort.next, hq, hr, pending]
      rfl
    · rw [hnext, MmioPort.next, hr, done]
      simp
  · -- The request freezes the pipeline, so that its instruction is still in MEM when it waits.
    have hvalid : v.valid (σ n) := by
      simp only [Port.req, Bool.and_eq_true] at hq
      exact hq.1.1
    have hg := hv.stall (σ n) (ι n) hvalid done
    refine .waiting ((Port.request_next h hg).1.trans hvalid) ?_ ?_ ?_
    · rw [hnext, MmioPort.next, hq]
      rfl
    · rw [hnext, MmioPort.next, hr, hg, done]
      rfl
    · rw [if_pos hg]
      exact hstart hq

/-- A port that waits goes on, or gets its answer. -/
theorem Port.waiting_next (h : (core STALL_WATCHDOG_LIMIT).IsRun σ fun n => (ι n, π n)) (hv : v.Lawful)
    (valid : v.valid (σ n)) (pending : (v.port (σ n)).pending = true)
    (done : (v.port (σ n)).done = false) (hwait : v.ready (ι n) = false → W (l ++ f n))
    (hanswer : v.ready (ι n) → A (σ n).mmioReq (l ++ f n) (v.rdata (ι n))) :
    v.Phase W A (σ (n + 1)) (l ++ f n) := by
  have hnext := Port.port_next h hv n
  have hg := hv.stall (σ n) (ι n) valid done
  have hq : v.req (σ n) = false := by simp [Port.req, pending]
  obtain ⟨hvalid, hreq⟩ := Port.request_next (v := v) h hg
  cases hr : v.ready (ι n)
  · refine .waiting (hvalid.trans valid) ?_ ?_ (hwait hr)
    · rw [hnext, MmioPort.next, hq, hr, pending]
      rfl
    · rw [hnext, MmioPort.next, hr, hg, done]
      rfl
  · refine .answered (hvalid.trans valid) ?_ ?_ ?_
    · rw [hnext, MmioPort.next, hq, hr]
      rfl
    · rw [hnext, MmioPort.next, hr]
      rfl
    · rw [hreq, hnext, MmioPort.next, hr]
      exact hanswer hr

/-- An answer stays with its instruction until that leaves MEM. -/
theorem Port.answered_next (h : (core STALL_WATCHDOG_LIMIT).IsRun σ fun n => (ι n, π n)) (hv : v.Lawful)
    (valid : v.valid (σ n)) (pending : (v.port (σ n)).pending = false)
    (done : (v.port (σ n)).done = true)
    (hr : v.ready (ι n) = false) (log : A (σ n).mmioReq l (v.port (σ n)).rdataLatched) :
    v.Phase W A (σ (n + 1)) (if (σ n).globalMemStall (ι n) then l else []) := by
  have hnext := Port.port_next h hv n
  have hq : v.req (σ n) = false := by simp [Port.req, done]
  cases hg : (σ n).globalMemStall (ι n)
  · refine .idle ?_ ?_ rfl
    · rw [hnext, MmioPort.next, hq, hr, pending]
      rfl
    · rw [hnext, MmioPort.next, hr, hg]
      rfl
  · obtain ⟨hvalid, hreq⟩ := Port.request_next (v := v) h hg
    refine .answered (hvalid.trans valid) ?_ ?_ ?_
    · rw [hnext, MmioPort.next, hq, hr, pending]
      rfl
    · rw [hnext, MmioPort.next, hr, hg, done]
      rfl
    · rw [hreq, hnext, MmioPort.next, hr]
      exact log

end

/-- What a log says of the accesses through a port, for every instruction, follows from what it says
    of a request, while one waits, and of an answer. -/
theorem Port.follows (h : (core STALL_WATCHDOG_LIMIT).IsRun σ fun n => (ι n, π n)) (hv : v.Lawful)
    (hready : ∀ n, v.ready (ι n) → (v.port (σ n)).pending)
    (hstart : ∀ n, v.req (σ n) → W (n + 1) (f n))
    (hwait : ∀ n l, (σ n).globalMemStall (ι n) → (v.port (σ n)).pending → W n l →
      v.ready (ι n) = false →
      W (n + 1) (l ++ f n))
    (hanswer : ∀ n l, (σ n).globalMemStall (ι n) → (v.port (σ n)).pending →
      W n l → v.ready (ι n) →
      A (σ n).mmioReq (l ++ f n) (v.rdata (ι n)))
    (hquiet : ∀ n, v.req (σ n) = false → (v.port (σ n)).pending = false → f n = []) (n : ℕ) :
    v.Phase (W n) A (σ n) (memLog σ ι f n) := by
  induction n with
  | zero =>
    have hp := hv.init (σ 0) h.init
    exact .idle (by rw [hp]) (by rw [hp]) rfl
  | succ n ih =>
    have hnot : (v.port (σ n)).pending = false → v.ready (ι n) = false := by
      intro hp
      refine Bool.eq_false_iff.2 fun hr => ?_
      rw [hready n hr] at hp
      cases hp
    rw [memLog]
    cases ih with
    | idle pending done log =>
      rw [log, List.nil_append]
      exact Port.idle_next h hv pending done (hnot pending) (hstart n) fun hq => hquiet n hq pending
    | waiting valid pending done log =>
      have hg := hv.stall (σ n) (ι n) valid done
      rw [if_pos hg]
      exact Port.waiting_next h hv valid pending done (hwait n _ hg pending log)
        (hanswer n _ hg pending log)
    | answered valid pending done log =>
      rw [hquiet n (by simp [Port.req, done]) pending, List.append_nil]
      exact Port.answered_next h hv valid pending done (hnot pending) log

/-- An instruction that leaves MEM has its answer, or has not asked. -/
theorem Port.Phase.leaves {n : ℕ} {P : List α → Prop}
    (hp : v.Phase P A (σ n) (memLog σ ι f n)) (hv : v.Lawful)
    (hquiet : v.req (σ n) = false → (v.port (σ n)).pending = false → f n = [])
    (hg : (σ n).globalMemStall (ι n) = false) :
    (v.valid (σ n) → A (σ n).mmioReq (memLog σ ι f n ++ f n) (v.port (σ n)).rdataLatched) ∧
      (v.valid (σ n) = false → memLog σ ι f n ++ f n = []) := by
  have hdone : v.valid (σ n) → (v.port (σ n)).done = true := by
    intro hvalid
    by_contra hd
    rw [hv.stall (σ n) (ι n) hvalid (Bool.eq_false_iff.2 hd)] at hg
    cases hg
  cases hp with
  | idle pending done log =>
    refine ⟨fun hvalid => ?_, fun hvalid => ?_⟩
    · rw [hdone hvalid] at done
      cases done
    · rw [log, hquiet (by simp [Port.req, hvalid]) pending]
      rfl
  | waiting valid pending done log =>
    rw [hdone valid] at done
    cases done
  | answered valid pending done log =>
    refine ⟨fun _ => ?_, fun hvalid => ?_⟩
    · rw [hquiet (by simp [Port.req, done]) pending, List.append_nil]
      exact log
    · rw [valid] at hvalid
      cases hvalid

end

section

variable {STALL_WATCHDOG_LIMIT : BitVec 16} {σ : ℕ → Core} {ι : ℕ → CoreInputs}
  {π : ℕ → Predictor} {v : Port}

/-- The request through a port. -/
def Port.line (v : Port) (s : Core) : Option MmioReq := if v.req s then some s.mmioReq else none

/-- The access through a port of an instruction that is in MEM. -/
def Port.access (v : Port) (s : Core) : Option MmioReq := if v.valid s then some s.mmioReq else none

/-- The request on a cycle, with the answer that is there on the next one. -/
def Port.served (v : Port) (σ : ℕ → Core) (ι : ℕ → CoreInputs) (n : ℕ) : Option (MmioReq × Word) :=
  (v.line (σ n)).map fun r => (r, v.rdata (ι (n + 1)))

theorem Port.line_of_served {n : ℕ} {r : Option MmioReq} {d : Word}
    (h : v.served σ ι n = r.map fun r => (r, d)) :
    v.line (σ n) = r ∧ (r.isSome → v.rdata (ι (n + 1)) = d) := by
  rw [Port.served] at h
  cases hl : v.line (σ n) with
  | none =>
    rw [hl] at h
    obtain rfl := Option.map_eq_none_iff.1 h.symm
    exact ⟨rfl, fun hr => absurd hr Bool.false_ne_true⟩
  | some q =>
    rw [hl] at h
    obtain ⟨q', rfl, hq⟩ := Option.map_eq_some_iff.1 h.symm
    obtain ⟨rfl, rfl⟩ := Prod.mk.inj hq
    exact ⟨rfl, fun _ => rfl⟩

/-- The instruction that asks is frozen. -/
theorem Port.Lawful.frozen_of_req (hv : v.Lawful) (h : (core STALL_WATCHDOG_LIMIT).IsRun σ fun n =>
    (ι n, π n)) {n : ℕ}
    (hq : v.req (σ n)) : (σ n).globalMemStall (ι n) ∧ (σ (n + 1)).mmioReq = (σ n).mmioReq ∧
      (v.port (σ (n + 1))).pending := by
  simp only [Port.req, Bool.and_eq_true, Bool.not_eq_true'] at hq
  have hg := hv.stall (σ n) (ι n) hq.1.1 hq.2
  refine ⟨hg, ?_, ?_⟩
  · rw [core_next h n, (wellFormed_of_reachable (h.reachable n)).mmioReq_frozen hg]
  · rw [core_next h n, hv.next, MmioPort.next, show v.req (σ n) = true by simp [Port.req, hq]]
    rfl

/-- The instruction that waits for an answer is frozen, and does not ask again. -/
theorem Port.reqs_of_pending {n : ℕ} (hp : (v.port (σ n)).pending) : v.req (σ n) = false := by
  simp [Port.req, hp]

/-- An instruction asks once. -/
theorem Port.line_of_leaves (hv : v.Lawful) (h : (core STALL_WATCHDOG_LIMIT).IsRun σ fun n => (ι n, π n))
    (hready : ∀ n, v.ready (ι n) → (v.port (σ n)).pending) {n : ℕ}
    (hg : (σ n).globalMemStall (ι n) = false) :
    Once (fun k r => v.line (σ k) = r) (memSince σ ι n) n (v.access (σ n)) := by
  have hquiet : ∀ n, v.req (σ n) = false → (v.port (σ n)).pending = false →
      (v.line (σ n)).toList = [] := by
    intro n hq _
    rw [Port.line, hq]
    rfl
  have hphase := Port.follows (f := fun k => (v.line (σ k)).toList) (W := fun n l => l = [(σ n).mmioReq])
    (A := fun r l _ => l = [r]) h hv hready
    (fun n hq => by rw [Port.line, if_pos hq, (hv.frozen_of_req h hq).2.1]; rfl)
    (fun n l hs hp hl _ => by
      rw [Port.line, Port.reqs_of_pending hp, core_next h n,
        (wellFormed_of_reachable (h.reachable n)).mmioReq_frozen hs, hl]
      rfl)
    (fun n l _ hp hl _ => by
      rw [Port.line, Port.reqs_of_pending hp, hl]
      rfl)
    hquiet n
  obtain ⟨h₁, h₂⟩ := hphase.leaves hv (hquiet n) hg
  refine once_of_memLog ?_
  rw [Port.access]
  cases hvalid : v.valid (σ n)
  · exact h₂ hvalid
  · exact h₁ hvalid

/-- A peripheral that answers on the next cycle is asked once, and the instruction leaves with its
    answer. -/
theorem Port.served_of_leaves (hv : v.Lawful)
    (h : (core STALL_WATCHDOG_LIMIT).IsRun σ fun n => (ι n, π n))
    (h₀ : v.ready (ι 0) = false) (hr : ∀ n, v.ready (ι (n + 1)) = v.req (σ n)) {n : ℕ}
    (hg : (σ n).globalMemStall (ι n) = false) :
    Once (fun k r => v.line (σ k) = r ∧ (r.isSome → v.rdata (ι (k + 1)) = (v.port (σ n)).rdataLatched))
      (memSince σ ι n) n (v.access (σ n)) := by
  have hready : ∀ n, v.ready (ι n) → (v.port (σ n)).pending := by
    rintro (_ | n) hn
    · rw [h₀] at hn
      cases hn
    · exact (hv.frozen_of_req h (hr n ▸ hn)).2.2
  have hquiet : ∀ n, v.req (σ n) = false → (v.port (σ n)).pending = false →
      (v.served σ ι n).toList = [] := by
    intro n hq _
    rw [Port.served, Port.line, hq]
    rfl
  have hphase := Port.follows (f := fun k => (v.served σ ι k).toList)
    (W := fun n l => v.ready (ι n) ∧ l = [((σ n).mmioReq, v.rdata (ι n))]) (A := fun r l d =>
      l = [(r, d)]) h hv hready
    (fun n hq => by
      refine ⟨by rw [hr n, hq], ?_⟩
      rw [Port.served, Port.line, if_pos hq, (hv.frozen_of_req h hq).2.1]
      rfl)
    (fun n l _ _ hl hn => by
      rw [hl.1] at hn
      cases hn)
    (fun n l _ hp hl _ => by
      rw [Port.served, Port.line, Port.reqs_of_pending hp, hl.2]
      rfl)
    hquiet n
  obtain ⟨h₁, h₂⟩ := hphase.leaves hv (hquiet n) hg
  have honce : Once (fun k r => v.served σ ι k = r) (memSince σ ι n) n
      ((v.access (σ n)).map fun r => (r, (v.port (σ n)).rdataLatched)) := by
    refine once_of_memLog ?_
    rw [Port.access]
    cases hvalid : v.valid (σ n)
    · exact h₂ hvalid
    · exact h₁ hvalid
  exact honce.imp (fun k hk => Port.line_of_served hk) fun k hk => Port.line_of_served (r := none) hk

end

end Core

/-! ## The bridge -/

/-- A transfer on one of the channels of AXI4-Lite. -/
inductive AxiEvent
  | aw (addr : Word)
  | w (data : Word) (strb : BitVec 4)
  | b
  | ar (addr : Word)
  | r (data : Word)
  deriving DecidableEq

namespace AxiLiteBridge

/-- The transfers on a cycle. -/
def events (s : AxiLiteBridge) (x : AxiLiteInputs) : List AxiEvent :=
  (if s.awFires x then [.aw s.awaddr] else []) ++ (if s.wFires x then [.w s.wdata s.wstrb] else []) ++
    (if s.bFires x then [.b] else []) ++ (if s.arFires x then [.ar s.araddr] else []) ++
    if s.rFires x then [.r x.rdata] else []

/-- What the bridge drives in each of its states. -/
structure Inv (s : AxiLiteBridge) : Prop where
  aw : s.awvalid = (s.state == .WRITE_ADDR_DATA && !s.awDone)
  w : s.wvalid = (s.state == .WRITE_ADDR_DATA && !s.wDone)
  open' : s.state = .WRITE_ADDR_DATA → s.awDone = false ∨ s.wDone = false
  b : s.bready = (s.state == .WRITE_RESP)
  ar : s.arvalid = (s.state == .READ_ADDR)
  r : s.rready = (s.state == .READ_DATA)
  ready : s.dReady → s.state = .IDLE

variable {s : AxiLiteBridge} {r r' : MmioReq} {x : AxiLiteInputs} {dReq : Bool} {l : List AxiEvent}

theorem Inv.next (h : s.Inv) : (s.next r x dReq).Inv := by
  obtain ⟨h₁, h₂, h₃, h₄, h₅, h₆, h₇⟩ := h
  unfold AxiLiteBridge.next
  cases hs : s.state <;> constructor <;> simp_all [awFires, wFires, bFires, arFires, rFires] <;> grind

/-- The transfers that serve a request. -/
def Served (r : MmioReq) (l : List AxiEvent) (d : Word) : Prop :=
  if r.we then l = [.aw r.addr, .w r.wdata 0b1111, .b] ∨ l = [.w r.wdata 0b1111, .aw r.addr, .b]
  else l = [.ar r.addr, .r d]

/-- The bridge is serving a request, and has made the transfers `l` for it. -/
def Serves (s : AxiLiteBridge) (r : MmioReq) (l : List AxiEvent) : Prop :=
  match s.state with
  | .WRITE_ADDR_DATA =>
    r.we ∧ s.awaddr = r.addr ∧ s.wdata = r.wdata ∧ s.wstrb = 0b1111 ∧
      l = (if s.awDone then [.aw r.addr] else []) ++ if s.wDone then [.w r.wdata 0b1111] else []
  | .WRITE_RESP => r.we ∧ (l = [.aw r.addr, .w r.wdata 0b1111] ∨ l = [.w r.wdata 0b1111, .aw r.addr])
  | .READ_ADDR => r.we = false ∧ s.araddr = r.addr ∧ l = []
  | .READ_DATA => r.we = false ∧ l = [.ar r.addr]
  | .IDLE => s.dReady ∧ Served r l s.dRdata

/-- Nothing is transferred by an idle bridge. -/
theorem Inv.events_idle (h : s.Inv) (hs : s.state = .IDLE) : s.events x = [] := by
  simp [events, awFires, wFires, bFires, arFires, rFires, h.aw, h.w, h.b, h.ar, h.r, hs]

theorem Inv.serves_start (h : s.Inv) (hs : s.state = .IDLE) (hp : s.dReqPrev = false) :
    (s.next r x true).Serves r (s.events x) := by
  rw [h.events_idle hs, AxiLiteBridge.next, hs]
  cases hw : r.we <;> simp [dReqEdge, hp, hw, Serves]

theorem Inv.serves_next (h : s.Inv) (hs : s.Serves r l) (hr : s.dReady = false) :
    (s.next r' x dReq).Serves r (l ++ s.events x) := by
  obtain ⟨h₁, h₂, h₃, h₄, h₅, h₆, h₇⟩ := h
  unfold Serves at hs
  unfold AxiLiteBridge.next
  cases hst : s.state with
  | IDLE =>
    rw [hst, hr] at hs
    cases hs.1
  | WRITE_ADDR_DATA =>
    simp only [hst] at hs h₁ h₂ h₃ h₄ h₅ h₆
    obtain ⟨hw, ha, hd, hb, rfl⟩ := hs
    have hopen := h₃ trivial
    cases haw : s.awDone <;> cases hwd : s.wDone <;> cases hxa : x.awready <;> cases hxw : x.wready <;>
      simp_all [events, awFires, wFires, bFires, arFires, rFires, Serves]
  | WRITE_RESP =>
    simp only [hst] at hs h₁ h₂ h₄ h₅ h₆
    obtain ⟨hw, hl⟩ := hs
    cases hxb : x.bvalid
    · simp_all [events, awFires, wFires, bFires, arFires, rFires, Serves]
    · rcases hl with rfl | rfl <;> simp_all [events, awFires, wFires, bFires, arFires,
        rFires, Serves, Served]
  | READ_ADDR =>
    simp only [hst] at hs h₁ h₂ h₄ h₅ h₆
    obtain ⟨hw, ha, rfl⟩ := hs
    cases hxr : x.arready <;> simp_all [events, awFires, wFires, bFires, arFires, rFires, Serves]
  | READ_DATA =>
    simp only [hst] at hs h₁ h₂ h₄ h₅ h₆
    obtain ⟨hw, rfl⟩ := hs
    cases hxr : x.rvalid <;> simp_all [events, awFires, wFires, bFires, arFires, rFires, Serves, Served]

theorem Inv.served_of_ready (h : s.Inv) (hs : s.Serves r l) (hr : s.dReady) :
    Served r (l ++ s.events x) s.dRdata := by
  have hst := h.ready hr
  rw [h.events_idle hst, List.append_nil]
  rw [Serves, hst] at hs
  exact hs.2

end AxiLiteBridge

/-! ## The windows -/

/-- Two windows that differ where both masks look do not meet. -/
theorem window_apart {a m c : Word} (h : a &&& m == c) (m' c' : Word) (hne : c &&& m' ≠ c' &&& m) :
    (a &&& m' == c') = false := by
  rw [beq_iff_eq] at h
  rw [beq_eq_false_iff_ne]
  rintro rfl
  apply hne
  rw [← h, BitVec.and_assoc, BitVec.and_assoc, BitVec.and_comm m m']

namespace Core

variable {s : Core} {i : CoreInputs}

theorem isLed_eq (s : Core) : s.isLed = (s.exMem.alu &&& 0xFFFFFFFF == 0x00002000) := by
  rw [isLed, show (0xFFFFFFFF : Word) = BitVec.allOnes 32 by decide, BitVec.and_allOnes]

theorem finalMemReadData_uart (h : s.isUart) (ha : s.exMem.isAmo = false) :
    s.finalMemReadData i = s.uart.rdataLatched := by
  have h₁ : s.isClint = false := window_apart h _ _ (by decide)
  have h₂ : s.isLed = false := s.isLed_eq.trans (window_apart h _ _ (by decide))
  simp [finalMemReadData, ha, h₁, h₂, h]

theorem finalMemReadData_intc (h : s.isIntc) (ha : s.exMem.isAmo = false) :
    s.finalMemReadData i = s.intc.rdataLatched := by
  have h₁ : s.isClint = false := window_apart h _ _ (by decide)
  have h₂ : s.isLed = false := s.isLed_eq.trans (window_apart h _ _ (by decide))
  have h₃ : s.isUart = false := window_apart h _ _ (by decide)
  simp [finalMemReadData, ha, h₁, h₂, h₃, h]

theorem finalMemReadData_accel (h : s.isAccel) (ha : s.exMem.isAmo = false) :
    s.finalMemReadData i = s.accel.rdataLatched := by
  have h₁ : s.isClint = false := window_apart h _ _ (by decide)
  have h₂ : s.isLed = false := s.isLed_eq.trans (window_apart h _ _ (by decide))
  have h₃ : s.isUart = false := window_apart h _ _ (by decide)
  have h₄ : s.isIntc = false := window_apart h _ _ (by decide)
  simp [finalMemReadData, ha, h₁, h₂, h₃, h₄, h]

/-- The peripherals take every request through their ports for themselves. -/
theorem selects_uart (s : Core) : UartMmio.selects s.uartReq s.mmioReq = s.uartReq := by
  rw [UartMmio.selects]
  cases hq : s.uartReq
  · rfl
  · simp only [uartReq, uartValid, Bool.and_eq_true] at hq
    have h : s.mmioReq.addr.extractLsb' 12 20 = _ := extract_of_window hq.1.1.1 (by decide)
    rw [h]
    decide

theorem selects_intc (s : Core) : Intc.selects s.intcReq s.mmioReq = s.intcReq := by
  rw [Intc.selects]
  cases hq : s.intcReq
  · rfl
  · simp only [intcReq, intcValid, Bool.and_eq_true] at hq
    have h : s.mmioReq.addr.extractLsb' 12 20 = _ := extract_of_window hq.1.1.1 (by decide)
    rw [h]
    decide

end Core

/-! ## A run -/

section

variable {STALL_WATCHDOG_LIMIT : BitVec 16} {τ : ℕ → Soc} {ι : ℕ → SocInputs} {π : ℕ → Predictor}

/-- How the bridge stands to the port of the accelerator. -/
theorem bridge_of_isRun (h : (soc STALL_WATCHDOG_LIMIT).IsRun τ fun n => (ι n, π n)) (n : ℕ) :
    (τ n).bridge.Inv ∧ ((τ n).bridge.state ≠ .IDLE ∨ (τ n).bridge.dReady ∨ (τ n).bridge.dReqPrev →
      (τ n).core.accel.pending) := by
  induction n with
  | zero =>
    have hs : (τ 0).IsReset := h.init
    obtain ⟨h₁, h₂, h₃, h₄, h₅, h₆, h₇, h₈, h₉, h₁₀⟩ := hs.bridge
    refine ⟨?_, ?_⟩
    · constructor <;> simp_all
    · simp_all
  | succ n ih =>
    obtain ⟨hinv, hpend⟩ := ih
    have hnext : (τ (n + 1)).bridge = (τ n).bridge.next (τ n).core.mmioReq (ι n).axi
        (τ n).core.accelReq := by
      rw [soc_next h n]
      rfl
    have hport : (τ (n + 1)).core.accel.pending =
        (if (τ n).core.accelReq then true else if (τ n).bridge.dReady then false
          else (τ n).core.accel.pending) := by
      rw [soc_next h n]
      rfl
    refine ⟨hnext ▸ hinv.next, ?_⟩
    rw [hnext, hport]
    have hready := hinv.ready
    cases hq : (τ n).core.accelReq
    · cases hst : (τ n).bridge.state
      · simp [AxiLiteBridge.next, AxiLiteBridge.dReqEdge, hst]
      all_goals
        have hp := hpend (.inl (by rw [hst]; decide))
        have hr : (τ n).bridge.dReady = false := Bool.eq_false_iff.2 fun hr => by
          rw [hready hr] at hst
          cases hst
        simp [hr, hp]
    · simp

open Soc Rv32Soc.Core

/-- The transfers on the port of the accelerator. -/
def axiTransfers (τ : ℕ → Soc) (ι : ℕ → SocInputs) (n : ℕ) : List AxiEvent :=
  (τ n).bridge.events (ι n).axi

/-! ### What the peripherals do on a cycle -/

/-- On the cycle `k` the UART is asked for the access `r`, and makes it, and what it answers is `d`;
    or it is not asked, and does nothing for software. -/
structure UartCycle (τ : ℕ → Soc) (ι : ℕ → SocInputs) (d : Word) (k : ℕ) (r : Option MmioReq) :
    Prop where
  line : uartPort.line (cores τ k) = r
  takes : (τ k).uart.Takes (τ (k + 1)).uart (ι k).txReady (ι k).rxValid (ι k).rxByte r
  answer : r.isSome → (τ (k + 1)).uart.dRdata = d

/-- Likewise for the interrupt controller. -/
structure IntcCycle (τ : ℕ → Soc) (ι : ℕ → SocInputs) (d : Word) (k : ℕ) (r : Option MmioReq) :
    Prop where
  line : intcPort.line (cores τ k) = r
  takes : (τ k).intc.Takes (τ (k + 1)).intc ((τ k).irqIn (ι k)) r
  answer : r.isSome → (τ (k + 1)).intc.dRdata = d

/-- The LED register takes the store `r`, or stays as it is. -/
def LedCycle (τ : ℕ → Soc) (k : ℕ) (r : Option MmioReq) : Prop :=
  (cores τ (k + 1)).ledsSw = r.elim (cores τ k).ledsSw fun q => q.wdata.extractLsb' 0 4

/-- The timer takes the store `r`, or goes on. -/
def ClintCycle (τ : ℕ → Soc) (k : ℕ) (r : Option MmioReq) :
    Prop := (τ k).clint.Takes (τ (k + 1)).clint r

/-- The load that leaves MEM on the cycle `n` writes back what it takes out of the word `d`. -/
def WritesBack (τ : ℕ → Soc) (n : ℕ) (d : Word) : Prop :=
  ∀ r ≠ 0, rdField (cores τ n).exMem.inst = r →
    (cores τ (n + 2)).regs r = partialLoad (cores τ n).exMem.inst (cores τ n).exMem.alu d

/-- The stores to the LED register and to the timer. -/
def Core.ledStore (s : Core) : Option MmioReq :=
  if s.storeCommits && s.isLed then some s.mmioReq else none
def Core.clintStore (s : Core) : Option MmioReq :=
  if s.storeCommits && s.isClint then some s.mmioReq else none

theorem uart_of_leaves (h : (soc STALL_WATCHDOG_LIMIT).IsRun τ fun n => (ι n, π n)) {n : ℕ}
    (hg : (cores τ n).globalMemStall (seen τ ι n) = false) :
    Once (UartCycle τ ι (cores τ n).uart.rdataLatched) (memSince (cores τ) (seen τ ι) n) n
      (uartPort.access (cores τ n)) := by
  have hnext : ∀ n, (τ (n + 1)).uart =
      (τ n).uart.next (τ n).core.mmioReq (τ n).core.uartReq (ι n).txReady (ι n).rxValid
        (ι n).rxByte := by
    intro n
    rw [soc_next h n]
    rfl
  have hcycle : ∀ k r, uartPort.line (cores τ k) = r ∧
      (r.isSome → (τ (k + 1)).uart.dRdata = (cores τ n).uart.rdataLatched) →
      UartCycle τ ι (cores τ n).uart.rdataLatched k r := by
    rintro k _ ⟨rfl, ha⟩
    refine ⟨rfl, ?_, ha⟩
    rw [hnext, Port.line, show uartPort.req (cores τ k) = _ from (selects_uart (τ k).core).symm]
    exact UartMmio.takes_next
  refine (Port.served_of_leaves lawful_uartPort (isRun_core h) ?_ (fun n => ?_) hg).imp
    (hcycle · _) (hcycle · _)
  · show (τ 0).uart.dReady = false
    rw [(show (τ 0).IsReset from h.init).uart]
  · show (τ (n + 1)).uart.dReady = _
    rw [hnext]
    exact (τ n).core.selects_uart

theorem intc_of_leaves (h : (soc STALL_WATCHDOG_LIMIT).IsRun τ fun n => (ι n, π n)) {n : ℕ}
    (hg : (cores τ n).globalMemStall (seen τ ι n) = false) :
    Once (IntcCycle τ ι (cores τ n).intc.rdataLatched) (memSince (cores τ) (seen τ ι) n) n
      (intcPort.access (cores τ n)) := by
  have hnext : ∀ n, (τ (n + 1)).intc =
      (τ n).intc.next (τ n).core.mmioReq (τ n).core.intcReq ((τ n).irqIn (ι n)) := by
    intro n
    rw [soc_next h n]
    rfl
  have hcycle : ∀ k r, intcPort.line (cores τ k) = r ∧
      (r.isSome → (τ (k + 1)).intc.dRdata = (cores τ n).intc.rdataLatched) →
      IntcCycle τ ι (cores τ n).intc.rdataLatched k r := by
    rintro k _ ⟨rfl, ha⟩
    refine ⟨rfl, ?_, ha⟩
    rw [hnext, Port.line, show intcPort.req (cores τ k) = _ from (selects_intc (τ k).core).symm]
    exact Intc.takes_next
  refine (Port.served_of_leaves lawful_intcPort (isRun_core h) ?_ (fun n => ?_) hg).imp
    (hcycle · _) (hcycle · _)
  · show (τ 0).intc.dReady = false
    rw [(show (τ 0).IsReset from h.init).intc]
  · show (τ (n + 1)).intc.dReady = _
    rw [hnext]
    exact (τ n).core.selects_intc

/-- A store to the LED register is made when it leaves MEM. -/
theorem led_of_leaves (h : (soc STALL_WATCHDOG_LIMIT).IsRun τ fun n => (ι n, π n)) {n : ℕ}
    (hg : (cores τ n).globalMemStall (seen τ ι n) = false) :
    Once (LedCycle τ) (memSince (cores τ) (seen τ ι) n) n (cores τ n).ledStore := by
  have hnext : ∀ k, (cores τ (k + 1)).ledsSw =
      if !(cores τ k).globalMemStall (seen τ ι k) && (cores τ k).storeCommits && (cores τ k).isLed then
        (cores τ k).exMem.rs2.extractLsb' 0 4
      else (cores τ k).ledsSw := by
    intro k
    rw [core_next (isRun_core h) k]
    rfl
  refine once_of_leaves ?_ fun j hj => ?_
  · rw [LedCycle, hnext, hg, ledStore, Bool.not_false, Bool.true_and]
    cases (cores τ n).storeCommits && (cores τ n).isLed <;> rfl
  · rw [LedCycle, hnext, hj]
    rfl

/-- So is a store to the timer. -/
theorem clint_of_leaves (h : (soc STALL_WATCHDOG_LIMIT).IsRun τ fun n => (ι n, π n)) {n : ℕ}
    (hg : (cores τ n).globalMemStall (seen τ ι n) = false) :
    Once (ClintCycle τ) (memSince (cores τ) (seen τ ι) n) n (cores τ n).clintStore := by
  have hcycle : ∀ k, ClintCycle τ k
      (if (cores τ k).clintWen (seen τ ι k) then some (cores τ k).mmioReq else none) := by
    intro k
    have hwindow : (cores τ k).clintWen (seen τ ι k) →
        (cores τ k).mmioReq.addr &&& 0xFFFFFFF0 == 0x02000000 := by
      intro hw
      simp only [clintWen, Bool.and_eq_true] at hw
      exact hw.1.2
    rw [ClintCycle, soc_next h k]
    exact ClintTimer.takes_next hwindow
  refine once_of_leaves ?_ fun j hj => ?_
  · have hn := hcycle n
    rwa [clintWen, hg, Bool.not_false, Bool.and_true] at hn
  · have hn := hcycle j
    rwa [clintWen, hj, Bool.not_true, Bool.and_false, if_neg Bool.false_ne_true] at hn

/-- The bridge answers only what it has been asked. -/
theorem accelReady_pending (h : (soc STALL_WATCHDOG_LIMIT).IsRun τ fun n => (ι n, π n)) (n : ℕ)
    (hr : accelPort.ready (seen τ ι n)) : (accelPort.port (cores τ n)).pending :=
  (bridge_of_isRun h n).2 (.inr (.inl hr))

theorem axi_of_leaves (h : (soc STALL_WATCHDOG_LIMIT).IsRun τ fun n => (ι n, π n)) {n : ℕ}
    (hg : (cores τ n).globalMemStall (seen τ ι n) = false) :
    ((cores τ n).accelValid → AxiLiteBridge.Served (cores τ n).mmioReq
        (memLog (cores τ) (seen τ ι) (axiTransfers τ ι) n ++ axiTransfers τ ι n)
          (cores τ n).accel.rdataLatched) ∧
      ((cores τ n).accelValid = false →
        memLog (cores τ) (seen τ ι) (axiTransfers τ ι) n ++ axiTransfers τ ι n = []) := by
  have hcore := isRun_core h
  have hnext : ∀ n, (τ (n + 1)).bridge = (τ n).bridge.next (τ n).core.mmioReq (ι n).axi
      (τ n).core.accelReq := by
    intro n
    rw [soc_next h n]
    rfl
  have hidle : ∀ n, (accelPort.port (cores τ n)).pending = false →
      (τ n).bridge.state = .IDLE ∧ (τ n).bridge.dReqPrev = false := by
    intro n hp
    refine ⟨?_, Bool.eq_false_iff.2 fun hd => ?_⟩
    · by_contra hs
      rw [show (accelPort.port (cores τ n)).pending = true from (bridge_of_isRun h n).2 (.inl hs)] at hp
      cases hp
    · rw [show (accelPort.port (cores τ n)).pending = true from
        (bridge_of_isRun h n).2 (.inr (.inr hd))] at hp
      cases hp
  have hquiet : ∀ n, accelPort.req (cores τ n) = false → (accelPort.port (cores τ n)).pending = false →
      axiTransfers τ ι n = [] := fun n _ hp => (bridge_of_isRun h n).1.events_idle (hidle n hp).1
  have hphase := Port.follows (W := fun n l => (τ n).bridge.Serves (cores τ n).mmioReq l) (A :=
    AxiLiteBridge.Served)
    hcore lawful_accelPort (accelReady_pending h)
    (fun n hq => by
      have hp : (accelPort.port (cores τ n)).pending = false := by
        simp only [Port.req, Bool.and_eq_true, Bool.not_eq_true'] at hq
        exact hq.1.2
      rw [(lawful_accelPort.frozen_of_req hcore hq).2.1, hnext, show (τ n).core.accelReq = true from hq]
      exact (bridge_of_isRun h n).1.serves_start (hidle n hp).1 (hidle n hp).2)
    (fun n l hs hp hl hr => by
      have hm : (cores τ (n + 1)).mmioReq = (cores τ n).mmioReq := by
        rw [core_next hcore n]
        exact (wellFormed_of_reachable (hcore.reachable n)).mmioReq_frozen hs
      rw [hm, hnext]
      exact (bridge_of_isRun h n).1.serves_next hl hr)
    (fun n l _ _ hl hr => (bridge_of_isRun h n).1.served_of_ready hl hr)
    hquiet n
  exact hphase.leaves lawful_accelPort (hquiet n) hg

/-- No control word loads and stores. -/
theorem controlLogic_load {inst : Word} (h : (controlLogic inst).wbSel = 0b00)
    (hw : (controlLogic inst).regWen) :
    (controlLogic inst).memRw = false := by
  have hrom : ∀ a, (rom a).wbSel = 0b00 → (rom a).regWen → (rom a).memRw = false := by decide
  exact hrom _ h hw

theorem Core.WellFormed.storeCommits_of_isLoad {s : Core} (h : s.WellFormed) (hl : s.isLoad) :
    s.storeCommits = false := by
  have hm : s.exMem.memRw = false := by
    cases hv : s.exMem.valid
    · exact (h.exMemBubble hv).memRw
    · have hd := h.exMem hv
      simp only [isLoad, Bool.and_eq_true, beq_iff_eq] at hl
      rw [hd.memRw]
      exact controlLogic_load (hd.wbSel ▸ hl.1.1) (hd.regWen ▸ hl.1.2)
  simp [storeCommits, isStore, hm]

/-- Neither an AMO, nor a bubble, nor an `sc.w` that fails loads or stores at a peripheral. -/
theorem Core.WellFormed.not_access {s : Core} (h : s.WellFormed)
    (hs : s.exMem.isAmo ∨ s.exMem.valid = false ∨ s.exMem.isSc ∧ s.scSuccessFlag = false) :
    s.isLoad = false ∧ s.storeCommits = false := by
  rcases hs with ha | hv | ⟨hs, hf⟩
  · have hd := h.isDecoded_of_atomic (.inr (.inr ha))
    have hm : s.exMem.memRw = false := hd.memRw.trans (Rv32Soc.wbSel_of_isAmo (hd.isAmo ▸ ha)).2
    exact ⟨by simp [isLoad, ha], by simp [storeCommits, isStore, hm]⟩
  · have hb := h.exMemBubble hv
    exact ⟨isLoad_of_bubble hb, by simp [storeCommits, isStore, hb.memRw]⟩
  · have hw : s.exMem.wbSel = 0b01 := h.wbSel_of_isSc hs
    exact ⟨by simp [isLoad, hw], by simp [storeCommits, hs, hf]⟩

/-- A load that leaves MEM writes back what it has read. -/
theorem writesBack_of_leaves (h : (soc STALL_WATCHDOG_LIMIT).IsRun τ fun n => (ι n, π n))
    {n : ℕ} {d : Word}
    (hg : (cores τ n).globalMemStall (seen τ ι n) = false) (hl : (cores τ n).isLoad)
    (hd : (cores τ n).exMem.isAmo = false → (cores τ n).finalMemReadData (seen τ ι n) = d) :
      WritesBack τ n d := by
  intro r hr hrd
  have hcore := isRun_core h
  have hwf := wellFormed_of_reachable (hcore.reachable n)
  have hv : (cores τ n).exMem.valid := by
    by_contra hv
    rw [isLoad_of_bubble (hwf.exMemBubble (Bool.eq_false_iff.2 hv))] at hl
    cases hl
  simp only [isLoad, Bool.and_eq_true, beq_iff_eq, Bool.not_eq_true'] at hl
  obtain ⟨⟨hsel, hwen⟩, hamo⟩ := hl
  have hsc : (cores τ n).exMem.isSc = false := by
    refine Bool.eq_false_iff.2 fun hs => ?_
    rw [hwf.wbSel_of_isSc hs] at hsel
    exact absurd hsel (by decide)
  have hwb : (cores τ (n + 1)).memWb = (cores τ n).accessed (seen τ ι n) := by
    rw [core_next hcore n, nextWith_memWb, nextMemWb, hg]
    rfl
  have hwrites : ((cores τ n).accessed (seen τ ι n)).writes r := by
    simp only [MemWb.writes, accessed, hwen, (hwf.exMem hv).rd, hrd, bne_iff_ne, Bool.true_and,
      beq_self_eq_true]
    exact hr
  rw [core_next hcore (n + 1), nextWith_regs, nextRegs, hwb, if_pos hwrites, wbData_accessed, hsel,
    if_neg (by decide), if_pos rfl, finalAluToWb, hsc, hd hamo]
  rfl

/-- An instruction that leaves MEM has asked the peripheral that it loads from or stores to on one
    cycle, with its own address and data, and no other one. The UART and the interrupt controller
    then do, once, what the access asks for; for the accelerator one AXI4-Lite transaction is made
    of it. A load writes back what is answered to it. The LED register and the timer take a store
    once. On all other cycles of its stay the peripherals do nothing for software. An AMO, a bubble
    and an `sc.w` that fails ask for nothing. -/
theorem mmio_of_isRun (h : (soc STALL_WATCHDOG_LIMIT).IsRun τ fun n => (ι n, π n)) {n : ℕ}
    {s : Core} {i : CoreInputs}
    (hs : cores τ n = s) (hi : seen τ ι n = i) (hg : s.globalMemStall i = false) :
    ((s.isLoad → s.mmioReq = ⟨false, s.exMem.alu, s.exMem.rs2⟩) ∧
      (s.storeCommits → s.mmioReq = ⟨true, s.exMem.alu, s.exMem.rs2⟩)) ∧
    (∃ d, Once (UartCycle τ ι d) (memSince (cores τ) (seen τ ι) n) n (uartPort.access s) ∧
      (uartPort.valid s → s.isLoad → WritesBack τ n d)) ∧
    (∃ d, Once (IntcCycle τ ι d) (memSince (cores τ) (seen τ ι) n) n (intcPort.access s) ∧
      (intcPort.valid s → s.isLoad → WritesBack τ n d)) ∧
    (Once (fun k r => accelPort.line (cores τ k) = r) (memSince (cores τ) (seen τ ι) n) n
      (accelPort.access s) ∧
      (accelPort.valid s = false →
        memLog (cores τ) (seen τ ι) (axiTransfers τ ι) n ++ axiTransfers τ ι n = []) ∧
      (accelPort.valid s → ∃ d, AxiLiteBridge.Served s.mmioReq
          (memLog (cores τ) (seen τ ι) (axiTransfers τ ι) n ++ axiTransfers τ ι n) d ∧
        (s.isLoad → WritesBack τ n d))) ∧
    Once (LedCycle τ) (memSince (cores τ) (seen τ ι) n) n s.ledStore ∧
    Once (ClintCycle τ) (memSince (cores τ) (seen τ ι) n) n s.clintStore ∧
    (s.exMem.isAmo ∨ s.exMem.valid = false ∨ s.exMem.isSc ∧ s.scSuccessFlag = false →
      s.isLoad = false ∧ s.storeCommits = false) := by
  subst hs hi
  have hwf := wellFormed_of_reachable ((isRun_core h).reachable n)
  have hwin : ∀ {w v : Bool}, (w && v) = true → w = true := fun hv => (Bool.and_eq_true_iff.1 hv).1
  have haxi := axi_of_leaves h hg
  refine ⟨⟨fun hl => ?_, fun hc => ?_⟩,
    ⟨_, uart_of_leaves h hg, fun hv hl =>
      writesBack_of_leaves h hg hl (finalMemReadData_uart (hwin hv))⟩,
    ⟨_, intc_of_leaves h hg, fun hv hl =>
      writesBack_of_leaves h hg hl (finalMemReadData_intc (hwin hv))⟩,
    ⟨Port.line_of_leaves lawful_accelPort (isRun_core h) (accelReady_pending h) hg, haxi.2, fun hv =>
      ⟨_, haxi.1 hv, fun hl => writesBack_of_leaves h hg hl (finalMemReadData_accel (hwin hv))⟩⟩,
    led_of_leaves h hg, clint_of_leaves h hg, hwf.not_access⟩
  · rw [mmioReq, hwf.storeCommits_of_isLoad hl]
  · rw [mmioReq, hc]

end

/-! ### A run -/

/-- The core with its peripherals out of reset, with zeros in what is not reset. -/
def resetSoc : Soc where
  core := resetCore
  uart := ⟨false, 0, false, 0, 0, false, true, false⟩
  intc := ⟨0, 0, 0, false, 0⟩
  clint := ⟨0, 0x00000000FFFFFFFF⟩
  bridge := ⟨.IDLE, false, false, false, 0, false, 0, false, 0, 0, false, false, 0, false, false⟩

theorem isReset_resetSoc : resetSoc.IsReset :=
  ⟨isReset_resetCore, rfl, rfl, rfl, rfl, rfl, rfl, rfl, rfl, rfl, rfl, rfl, rfl, rfl⟩

/-- A cycle on which the caches and the accelerator are ready, and the UART can send. -/
def SocInputs.ready : SocInputs := ⟨true, nop, true, 0, true, false, 0, false, false,
    ⟨true, true, true, true, true, 7⟩⟩

/-- The run from there on given inputs, with a predictor that never learns. -/
def socTrace (ι : ℕ → SocInputs) : ℕ → Soc := (soc 1023).trace resetSoc fun n => (ι n, resetCore.pred)

theorem isRun_socTrace (ι : ℕ → SocInputs) :
    (soc 1023).IsRun (socTrace ι) fun n => (ι n, resetCore.pred) :=
  Circuit.isRun_trace isReset_resetSoc fun _ => trivial

/-- `lui x5, 0x40001` and `lw x6, 4(x5)`: a read of `TX_STATUS`, with a miss of the I-cache on the
    cycle on which the answer is there. -/
def readTxStatus (n : ℕ) : SocInputs :=
  { SocInputs.ready with
    ifInst := if n = 0 then 0x400012B7 else if n = 1 then 0x0042A303 else nop
    cacheReady := n != 6 }

/-- The read makes its one request, and its register holds the answer. -/
theorem readTxStatus_regs :
    (Soc.cores (socTrace readTxStatus) 7).globalMemStall (Soc.seen (socTrace readTxStatus)
      readTxStatus 7) = false ∧
      Once (UartCycle (socTrace readTxStatus) readTxStatus 1)
        (memSince (Soc.cores (socTrace readTxStatus)) (Soc.seen (socTrace readTxStatus)
          readTxStatus) 7) 7
        (some ⟨false, 0x40001004, 0⟩) ∧
      (Soc.cores (socTrace readTxStatus) 9).regs 6 = 1 := by
  have hg : (Soc.cores (socTrace readTxStatus) 7).globalMemStall (Soc.seen (socTrace readTxStatus)
    readTxStatus 7) =
      false := by decide +kernel
  have ha : Core.uartPort.access (Soc.cores (socTrace readTxStatus) 7) = some ⟨false, 0x40001004,
    0⟩ := by decide +kernel
  have hd : (Soc.cores (socTrace readTxStatus) 9).regs 6 = 1 := by decide +kernel
  obtain ⟨-, ⟨d, honce, hdata⟩, -⟩ := mmio_of_isRun (isRun_socTrace readTxStatus) (n := 7) rfl rfl hg
  have hi : (Soc.cores (socTrace readTxStatus) 7).exMem.inst = 0x0042A303 := by decide +kernel
  have hw := hdata (by decide +kernel) (by decide +kernel) 6 (by decide) (by decide +kernel)
  obtain rfl : (1 : Word) = d := by
    rw [hi] at hw
    exact hd.symm.trans hw
  rw [ha] at honce
  exact ⟨hg, honce, hd⟩

end Rv32Soc
