import Rv32Soc.Axi.ArbiterRw
import Rv32Soc.Axi.LineTrace

/-!
# The channels of the memory paths

The instruction cache and the data cache have a port each, on which the data cache has a
read or a write at a time; the accelerator has a port to read and a port to write. What is
seen on these ports (`PortTrace`) is a trace of four channels (`PortTrace.lineTrace`), and
the laws of the ports are those of the channels (`PortTrace.Lawful.lineTrace`).
-/

namespace Rv32Soc

open AxiRw

/-- The channels to the memory. -/
inductive Channel
  | icache
  | dcache
  | accelRd
  | accelWr
  deriving DecidableEq, Repr

namespace Channel

/-- The port on which a channel reads, and the one on which it writes. -/
def rport : Channel → Option RPort
  | .icache => some .I
  | .dcache => some .D
  | .accelRd => some .A
  | .accelWr => none

def wport : Channel → Option WPort
  | .dcache => some .D
  | .accelWr => some .A
  | _ => none

instance : Nonempty Channel := ⟨.icache⟩

instance : Fintype Channel := ⟨{.icache, .dcache, .accelRd, .accelWr}, fun c => by cases c <;> decide⟩

end Channel

/-- What is seen on the ports on every cycle: the reads with the number of lines got, the writes,
    the lines announced and the writes acknowledged. -/
structure PortTrace where
  mem : ℕ → Mem
  reads : RPort → ℕ → Option (RReq × ℕ)
  writes : WPort → ℕ → Option WReq
  rReady : RPort → ℕ → Bool
  wReady : WPort → ℕ → Bool
  line : ℕ → Line

namespace PortTrace

variable (t : PortTrace)

/-- The last line of the read is announced. -/
def rDone (p : RPort) (n : ℕ) : Bool := (t.reads p n).any fun r => t.rReady p n && r.2 + 1 == r.1.count

/-- The write is acknowledged. -/
def wDone (p : WPort) (n : ℕ) : Bool := (t.writes p n).any fun _ => t.wReady p n

/-- The laws of the ports, as in `LineTrace.Lawful`. -/
structure Lawful : Prop where
  initRd : ∀ p, t.reads p 0 = none
  initWr : ∀ p, t.writes p 0 = none
  /-- The data cache has one request at a time, and one port. -/
  dcache : ∀ n, t.reads .D n = none ∨ t.writes .D n = none
  dport : ∀ n, t.rReady .D n = t.wReady .D n
  holdRd : ∀ p n r, t.reads p n = some r → t.rDone p n = false →
    t.reads p (n + 1) = some (r.1, r.2 + (t.rReady p n).toNat)
  fresh : ∀ p n, t.reads p n = none ∨ t.rDone p n → ∀ r, t.reads p (n + 1) = some r → r.2 = 0
  holdWr : ∀ p n w, t.writes p n = some w → t.wReady p n = false → t.writes p (n + 1) = some w
  heldRd : ∀ p n, t.rReady p n →
    (∃ r, t.reads p n = some r ∧ r.2 < r.1.count) ∨ (p = .D ∧ ∃ w, t.writes .D n = some w)
  heldWr : ∀ n, t.wReady .A n → ∃ w, t.writes .A n = some w
  line : ∀ p n r, t.reads p n = some r → t.rReady p n → ∀ o : BitVec 4, ∃ k ≤ n,
    (∀ j, k ≤ j → j < n → (∃ g, t.reads p j = some (r.1, g)) ∧ t.rDone p j = false) ∧
      lineByte (t.line n) o = t.mem k (lineNo (r.1.lineAddr r.2) ++ o)
  frame : ∀ n x, (∀ p w, t.writes p n = some w → t.wReady p n = false → ¬(Op.write w).Covers x) →
    t.mem (n + 1) x = t.mem n x
  written : ∀ p n w, t.writes p n = some w → t.wReady p n → ∀ x, (Op.write w).Covers x →
    t.mem n x = (Op.write w).exec (t.mem n) x
  progress : ∀ n, (∃ p, (t.reads p n).isSome) ∨ (∃ p, (t.writes p n).isSome) →
    ∃ m ≥ n, (∃ p, t.rDone p m) ∨ ∃ p, t.wDone p m

/-- The read, or the write, of a channel. -/
def readOf (c : Channel) (n : ℕ) : Option (RReq × ℕ) := c.rport.bind fun p => t.reads p n
def writeOf (c : Channel) (n : ℕ) : Option WReq := c.wport.bind fun p => t.writes p n

/-- The trace of the channels. -/
def lineTrace : LineTrace Channel where
  mem := t.mem
  op c n := ((t.readOf c n).map fun r => .read r.1).or ((t.writeOf c n).map .write)
  pulse c n :=
    match c with
    | .icache => t.rReady .I n
    | .dcache => t.rReady .D n
    | .accelRd => t.rReady .A n
    | .accelWr => t.wReady .A n
  line := t.line

variable {t : PortTrace} {c : Channel} {n : ℕ}

theorem op_of_read {r : RReq × ℕ} (h : t.readOf c n = some r) :
    t.lineTrace.op c n = some (.read r.1) := by
  simp [lineTrace, h]

theorem op_of_write {w : WReq} (hr : t.readOf c n = none) (hw : t.writeOf c n = some w) :
    t.lineTrace.op c n = some (.write w) := by
  simp [lineTrace, hr, hw]

theorem op_eq_read {r : RReq} (h : t.lineTrace.op c n = some (.read r)) :
    ∃ g, t.readOf c n = some (r, g) := by
  cases hr : t.readOf c n with
  | none =>
    cases hw : t.writeOf c n <;> simp [lineTrace, hr, hw] at h
  | some q =>
    obtain rfl : q.1 = r := by simpa [lineTrace, hr] using h
    exact ⟨q.2, rfl⟩

theorem op_eq_write {w : WReq} (h : t.lineTrace.op c n = some (.write w)) :
    t.readOf c n = none ∧ t.writeOf c n = some w := by
  cases hr : t.readOf c n with
  | some q => simp [lineTrace, hr] at h
  | none => exact ⟨rfl, by simpa [lineTrace, hr] using h⟩

/-- A channel that reads does so on its port. -/
theorem port_of_read {r : RReq × ℕ} (h : t.readOf c n = some r) :
    ∃ p, c.rport = some p ∧ t.reads p n = some r ∧ t.lineTrace.pulse c n = t.rReady p n := by
  cases c with
  | icache => exact ⟨.I, rfl, h, rfl⟩
  | dcache => exact ⟨.D, rfl, h, rfl⟩
  | accelRd => exact ⟨.A, rfl, h, rfl⟩
  | accelWr => cases h

theorem Lawful.port_of_write (h : t.Lawful) {w : WReq} (hw : t.writeOf c n = some w) :
    ∃ p, c.wport = some p ∧ t.writes p n = some w ∧ t.lineTrace.pulse c n = t.wReady p n := by
  cases c with
  | dcache => exact ⟨.D, rfl, hw, h.dport n⟩
  | accelWr => exact ⟨.A, rfl, hw, rfl⟩
  | icache => cases hw
  | accelRd => cases hw

theorem readOf_of_port {p : RPort} (hc : c.rport = some p) : t.readOf c n = t.reads p n := by
  rw [readOf, hc, Option.bind_some]

/-- A read that is raised has got nothing yet. -/
theorem Lawful.fresh_read (h : t.Lawful) (hr : ∀ p, c.rport = some p →
    t.reads p n = none ∨ t.rDone p n) :
    ((t.readOf c (n + 1)).map (·.2)).getD 0 = 0 := by
  cases hr' : t.readOf c (n + 1) with
  | none => rfl
  | some r =>
    obtain ⟨p, hc, hp, -⟩ := port_of_read hr'
    exact h.fresh p n (hr p hc) r hp

theorem Lawful.got_eq (h : t.Lawful) (c : Channel) (n : ℕ) :
    t.lineTrace.got c n = ((t.readOf c n).map (·.2)).getD 0 := by
  induction n with
  | zero =>
    cases hr : t.readOf c 0 with
    | none => rfl
    | some r =>
      obtain ⟨p, -, hp, -⟩ := port_of_read hr
      exact absurd ((h.initRd p).symm.trans hp) (by simp)
  | succ n ih =>
    rw [LineTrace.got]
    cases hr : t.readOf c n with
    | some r =>
      obtain ⟨p, hc, hp, hpulse⟩ := port_of_read hr
      have hdone : t.rDone p n = (t.rReady p n && r.2 + 1 == r.1.count) := by simp [rDone, hp]
      rw [op_of_read hr, ih, hr, hpulse]
      cases hd : t.rDone p n with
      | true =>
        -- The last line ends the read, and the next one has nothing yet.
        have hd' : t.rReady p n = true ∧ r.2 + 1 = r.1.count := by simpa [hdone] using hd
        rw [h.fresh_read fun q hq => Option.some_inj.1 (hc.symm.trans hq) ▸ .inr hd]
        simp [LineTrace.ends, hd'.1, hd'.2]
      | false =>
        rw [readOf_of_port hc, h.holdRd p n r hp hd]
        cases hrdy : t.rReady p n with
        | false => simp
        | true =>
          have hne : (r.2 + 1 == r.1.count) = false := by simpa [hdone, hrdy] using hd
          simp [LineTrace.ends, hne]
    | none =>
      -- Without a read the count stays zero, whether or not the channel writes.
      rw [h.fresh_read fun p hp => .inl ((readOf_of_port hp).symm.trans hr)]
      rw [hr] at ih
      cases ho : t.lineTrace.op c n with
      | none => rfl
      | some o =>
        cases o with
        | read r =>
          obtain ⟨g, hg⟩ := op_eq_read ho
          exact absurd (hr.symm.trans hg) (by simp)
        | write w => simp [LineTrace.ends, ih]

theorem Lawful.done_read (h : t.Lawful) {r : RReq × ℕ} {p : RPort} (hc : c.rport = some p)
    (hr : t.readOf c n = some r) : t.lineTrace.done c n = t.rDone p n := by
  obtain ⟨q, hq, hp, hpulse⟩ := port_of_read hr
  obtain rfl : q = p := Option.some_inj.1 (hq.symm.trans hc)
  rw [LineTrace.done_eq (op_of_read hr), h.got_eq, hr, hpulse]
  simp [rDone, hp, LineTrace.ends]

theorem Lawful.done_write (h : t.Lawful) {w : WReq} {p : WPort} (hc : c.wport = some p)
    (hr : t.readOf c n = none) (hw : t.writeOf c n = some w) : t.lineTrace.done c n = t.wReady p n := by
  obtain ⟨q, hq, -, hpulse⟩ := h.port_of_write hw
  obtain rfl : q = p := Option.some_inj.1 (hq.symm.trans hc)
  rw [LineTrace.done_eq (op_of_write hr hw), hpulse]
  simp [LineTrace.ends]

/-- A request that is not done is held. -/
theorem Lawful.hold (h : t.Lawful) {o : Op} (ho : t.lineTrace.op c n = some o)
    (hd : t.lineTrace.done c n = false) :
    t.lineTrace.op c (n + 1) = some o := by
  cases o with
  | read r =>
    obtain ⟨g, hr⟩ := op_eq_read ho
    obtain ⟨p, hc, hp, -⟩ := port_of_read hr
    rw [h.done_read hc hr] at hd
    exact op_of_read (r := (r, _)) ((readOf_of_port hc).trans (h.holdRd p n _ hp hd))
  | write w =>
    obtain ⟨hr, hw⟩ := op_eq_write ho
    obtain ⟨p, hc, hp, -⟩ := h.port_of_write hw
    rw [h.done_write hc hr hw] at hd
    have hp' := h.holdWr p n w hp hd
    have hw' : t.writeOf c (n + 1) = some w := by rw [writeOf, hc, Option.bind_some, hp']
    refine op_of_write ?_ hw'
    cases c with
    | dcache =>
      obtain rfl : p = .D := (Option.some_inj.1 hc).symm
      exact (h.dcache (n + 1)).resolve_right (by simp [hp'])
    | accelWr => rfl
    | icache | accelRd => cases hc

/-- A pulse is for a request. -/
theorem Lawful.held (h : t.Lawful) (hp : t.lineTrace.pulse c n) :
    ∃ o, t.lineTrace.op c n = some o ∧ ∀ r, o = .read r → t.lineTrace.got c n < r.count := by
  have hread : ∀ r : RReq × ℕ, t.readOf c n = some r → r.2 < r.1.count →
      ∃ o, t.lineTrace.op c n = some o ∧ ∀ r, o = .read r → t.lineTrace.got c n < r.count :=
        fun r hr hlt =>
    ⟨_, op_of_read hr, fun q hq => by
      rw [h.got_eq, hr]
      cases hq
      exact hlt⟩
  have hwrite : ∀ w, t.readOf c n = none → t.writeOf c n = some w →
      ∃ o, t.lineTrace.op c n = some o ∧ ∀ r, o = .read r → t.lineTrace.got c n < r.count :=
        fun w hr hw =>
    ⟨_, op_of_write hr hw, nofun⟩
  cases c with
  | icache =>
    obtain ⟨r, hr, hlt⟩ | ⟨hne, -⟩ := h.heldRd .I n hp
    · exact hread r hr hlt
    · cases hne
  | accelRd =>
    obtain ⟨r, hr, hlt⟩ | ⟨hne, -⟩ := h.heldRd .A n hp
    · exact hread r hr hlt
    · cases hne
  | dcache =>
    -- The data cache owns a read and a write port, and raises one request at a time.
    obtain ⟨r, hr, hlt⟩ | ⟨-, w, hw⟩ := h.heldRd .D n hp
    · exact hread r hr hlt
    · exact hwrite w ((h.dcache n).resolve_right (by simp [hw])) hw
  | accelWr =>
    obtain ⟨w, hw⟩ := h.heldWr n hp
    exact hwrite w rfl hw

/-- The laws of the ports are those of the channels. -/
theorem Lawful.lineTrace (h : t.Lawful) : t.lineTrace.Lawful where
  init c := by
    have hr : t.readOf c 0 = none := by cases c <;> simp [readOf, Channel.rport, h.initRd]
    have hw : t.writeOf c 0 = none := by cases c <;> simp [writeOf, Channel.wport, h.initWr]
    simp [PortTrace.lineTrace, hr, hw]
  hold c n o := h.hold
  held c n := h.held
  line c n r ho hp o := by
    obtain ⟨g, hr⟩ := op_eq_read ho
    obtain ⟨p, hc, hpr, hpulse⟩ := port_of_read hr
    obtain ⟨k, hk, hheld, hbyte⟩ := h.line p n (r, g) hpr (hpulse ▸ hp) o
    refine ⟨k, hk, fun j h₁ h₂ => ?_, by rw [h.got_eq, hr]; exact hbyte⟩
    obtain ⟨⟨g', hg'⟩, hd⟩ := hheld j h₁ h₂
    have hrj : t.readOf c j = some (r, g') := (readOf_of_port hc).trans hg'
    exact ⟨op_of_read hrj, (h.done_read hc hrj).trans hd⟩
  frame n x hx := by
    refine h.frame n x fun p w hw hready => ?_
    -- the channel of the port
    obtain ⟨c, hc, hr⟩ : ∃ c : Channel, c.wport = some p ∧ t.readOf c n = none := by
      cases p with
      | D => exact ⟨.dcache, rfl, (h.dcache n).resolve_right (by simp [hw])⟩
      | A => exact ⟨.accelWr, rfl, rfl⟩
    have hw' : t.writeOf c n = some w := by rw [writeOf, hc, Option.bind_some, hw]
    exact hx c w (op_of_write hr hw') ((h.done_write hc hr hw').trans hready)
  written c n w ho hd := by
    obtain ⟨hr, hw⟩ := op_eq_write ho
    obtain ⟨p, hc, hp, -⟩ := h.port_of_write hw
    exact h.written p n w hp (h.done_write hc hr hw ▸ hd)
  progress n c ho := by
    have hsome : (∃ p, (t.reads p n).isSome) ∨ ∃ p, (t.writes p n).isSome := by
      obtain ⟨o, ho⟩ := Option.isSome_iff_exists.1 ho
      cases o with
      | read r =>
        obtain ⟨g, hr⟩ := op_eq_read ho
        obtain ⟨p, -, hp, -⟩ := port_of_read hr
        exact .inl ⟨p, by simp [hp]⟩
      | write w =>
        obtain ⟨-, hw⟩ := op_eq_write ho
        obtain ⟨p, -, hp, -⟩ := h.port_of_write hw
        exact .inr ⟨p, by simp [hp]⟩
    obtain ⟨m, hm, ⟨p, hd⟩ | ⟨p, hd⟩⟩ := h.progress n hsome
    · obtain ⟨c', hc⟩ : ∃ c : Channel, c.rport = some p := by
        cases p
        exacts [⟨.dcache, rfl⟩, ⟨.icache, rfl⟩, ⟨.accelRd, rfl⟩]
      have hd' := hd
      simp only [rDone, Option.any_eq_true] at hd'
      obtain ⟨r, hr, -⟩ := hd'
      exact ⟨m, hm, c', (h.done_read hc ((readOf_of_port hc).trans hr)).trans hd⟩
    · simp only [wDone, Option.any_eq_true] at hd
      obtain ⟨w, hw, hready⟩ := hd
      obtain ⟨c', hc, hr⟩ : ∃ c : Channel, c.wport = some p ∧ t.readOf c m = none := by
        cases p with
        | D => exact ⟨.dcache, rfl, (h.dcache m).resolve_right (by simp [hw])⟩
        | A => exact ⟨.accelWr, rfl, rfl⟩
      have hw' : t.writeOf c' m = some w := by rw [writeOf, hc, Option.bind_some, hw]
      exact ⟨m, hm, c', (h.done_write hc hr hw').trans hready⟩

/-- Ports that raise nothing after the first cycle. -/
theorem Lawful.op_eq_none (h : t.Lawful) (hr : ∀ p, t.reads p n = none ∨ t.rDone p n →
    t.reads p (n + 1) = none)
    (hw : ∀ p, t.writes p n = none ∨ t.wReady p n → t.writes p (n + 1) = none) (c : Channel)
    (ho : t.lineTrace.op c n = none ∨ t.lineTrace.done c n) : t.lineTrace.op c (n + 1) = none := by
  have hread : ∀ p, c.rport = some p → t.reads p n = none ∨ t.rDone p n := by
    intro p hc
    cases hr' : t.readOf c n with
    | none => exact .inl ((readOf_of_port hc).symm.trans hr')
    | some r =>
      refine .inr ?_
      rw [← h.done_read hc hr']
      exact ho.resolve_left fun hnone => absurd ((op_of_read hr').symm.trans hnone) nofun
  have hwrite : ∀ p, c.wport = some p → t.writes p n = none ∨ t.wReady p n := by
    intro p hc
    have hwo : t.writeOf c n = t.writes p n := by rw [writeOf, hc, Option.bind_some]
    cases hw' : t.writeOf c n with
    | none => exact .inl (hwo.symm.trans hw')
    | some w =>
      have hrn : t.readOf c n = none := by
        cases c with
        | dcache => exact (h.dcache n).resolve_right fun hd => absurd (hw'.symm.trans hd) nofun
        | accelWr => rfl
        | icache | accelRd => cases hc
      refine .inr ?_
      rw [← h.done_write hc hrn hw']
      exact ho.resolve_left fun hnone => absurd ((op_of_write hrn hw').symm.trans hnone) nofun
  have hr' : t.readOf c (n + 1) = none := by
    rw [readOf, Option.bind_eq_none_iff]
    exact fun p hc => hr p (hread p hc)
  have hw' : t.writeOf c (n + 1) = none := by
    rw [writeOf, Option.bind_eq_none_iff]
    exact fun p hc => hw p (hwrite p hc)
  simp [PortTrace.lineTrace, hr', hw']

end PortTrace

end Rv32Soc
