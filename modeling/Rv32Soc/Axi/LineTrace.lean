import Mathlib.Algebra.Order.BigOperators.Group.Finset
import Mathlib.Algebra.Order.Group.Nat
import Mathlib.Data.Fintype.Basic
import Rv32Soc.Axi.ReadRetry
import Rv32Soc.Axi.WriteChannel

/-!
# Channels to a memory

What can be seen of a path between some channels and a memory: on every cycle the
request that each channel holds, the pulse it gets, the line on the bus, and the memory
(`LineTrace`). A path may serve its channels in any order and at any time; it is *lawful*
if a request is held until it is done, a read gets only what the memory held meanwhile, a
write changes its own lines only and has written them when it is done, and something is
always done in the end (`LineTrace.Lawful`).

The channels follow lists of requests. If no location that one of them writes is used by
another, the order in which they are served does not matter: each channel sees the memory
as if it were alone (`Lawful.mem_eq`).

* `Lawful.delivered_prefix`: a channel gets the lines of its own requests, in order;
* `Lawful.finishes`: every request is done in the end;
* `Lawful.agree`: two lawful paths deliver the same lines and leave the same memory.
-/

namespace Rv32Soc

open AxiRw

/-- A request to read lines, or to write lines. -/
inductive Op
  | read (r : RReq)
  | write (w : WReq)

namespace Op

/-- The request uses the byte at `x`. -/
def Covers (x : Word) : Op → Prop
  | .read r => (x - r.base).toNat < 16 * r.count
  | .write w => (x - w.base).toNat < 16 * w.count

/-- The memory after the request. -/
def exec (m : Mem) : Op → Mem
  | .read _ => m
  | .write w => m.image w.base w.line (16 * w.count)

/-- The lines that the request gets. -/
def lines (m : Mem) : Op → List Line
  | .read r => r.linesOf m r.count
  | .write _ => []

/-- The memory after some requests, one after the other. -/
def execAll (m : Mem) (ops : List Op) : Mem := ops.foldl exec m

/-- The lines that they get. -/
def linesAll (m : Mem) : List Op → List Line
  | [] => []
  | o :: ops => o.lines m ++ linesAll (o.exec m) ops

theorem execAll_concat (m : Mem) (ops : List Op) (o : Op) :
    execAll m (ops ++ [o]) = o.exec (execAll m ops) := by
  simp [execAll]

theorem linesAll_append (m : Mem) (ops ops' : List Op) :
    linesAll m (ops ++ ops') = linesAll m ops ++ linesAll (execAll m ops) ops' := by
  induction ops generalizing m with
  | nil => rfl
  | cons o ops ih => simp [linesAll, execAll, ih]

theorem linesOf_prefix (r : RReq) (m : Mem) {k n : ℕ} (h : k ≤ n) : r.linesOf m k <+: r.linesOf m n := by
  obtain ⟨d, rfl⟩ := Nat.exists_eq_add_of_le h
  induction d with
  | zero => exact List.prefix_rfl
  | succ d ih =>
    exact (ih (Nat.le_add_right _ _)).trans
      (RetrySys.linesOf_succ r m _ ▸ List.prefix_append _ _)

theorem linesAll_prefix (m : Mem) {ops ops' : List Op} (h : ops <+: ops') :
    linesAll m ops <+: linesAll m ops' := by
  obtain ⟨l, rfl⟩ := h
  rw [linesAll_append]
  exact List.prefix_append _ _

/-- A request changes no more than it covers. -/
theorem exec_of_not_covers {m : Mem} {o : Op} {x : Word} (h : ∀ w, o = .write w → ¬o.Covers x) :
    o.exec m x = m x := by
  cases o with
  | read r => rfl
  | write w => exact if_neg (h w rfl)

/-- What a write covers does not depend on what was there. -/
theorem exec_of_covers {m m' : Mem} {w : WReq} {x : Word} (h : (Op.write w).Covers x) :
    (Op.write w).exec m x = (Op.write w).exec m' x := by
  simp only [exec, Mem.image]
  rw [if_pos (show (x - w.base).toNat < _ from h), if_pos (show (x - w.base).toNat < _ from h)]

/-- The bytes of a request to read. -/
theorem covers_read (r : RReq) {k : ℕ} (hk : k < r.count) (o : BitVec 4) :
    (Op.read r).Covers (lineNo (r.lineAddr k) ++ o) := by
  have hcount : r.count < 2 ^ 8 := BitVec.isLt _
  have ho := o.isLt
  rw [Covers, RReq.lineAddr, RReq.base, toNat_sub_lineBase _ (by omega)]
  omega

end Op

/-- What is seen of a path to a memory, on every cycle. -/
structure LineTrace (C : Type*) where
  mem : ℕ → Mem
  /-- The request that a channel holds. -/
  op : C → ℕ → Option Op
  /-- The line on the bus is for the channel, or its write is acknowledged. -/
  pulse : C → ℕ → Bool
  line : ℕ → Line

namespace LineTrace

variable {C : Type*} (t : LineTrace C)

/-- The request is done with a pulse when `k` lines have come before. -/
def ends (k : ℕ) : Op → Bool
  | .read r => k + 1 == r.count
  | .write _ => true

/-- The lines delivered for the request that is held. -/
def got (c : C) : ℕ → ℕ
  | 0 => 0
  | n + 1 =>
    match t.op c n with
    | none => 0
    | some o => if t.pulse c n then if ends (got c n) o then 0 else got c n + 1 else got c n

/-- The request is done on this cycle. -/
def done (c : C) (n : ℕ) : Bool := (t.op c n).any fun o => t.pulse c n && ends (t.got c n) o

/-- The requests raised up to a cycle, and those done before it. -/
def issued (c : C) : ℕ → List Op
  | 0 => []
  | n + 1 => if (t.op c n).isNone || t.done c n then issued c n ++ (t.op c (n + 1)).toList
      else issued c n

def completed (c : C) : ℕ → List Op
  | 0 => []
  | n + 1 => if t.done c n then completed c n ++ (t.op c n).toList else completed c n

/-- The lines delivered before a cycle. -/
def delivered (c : C) : ℕ → List Line
  | 0 => []
  | n + 1 =>
    match t.op c n with
    | some (.read _) => if t.pulse c n then delivered c n ++ [t.line n] else delivered c n
    | _ => delivered c n

/-- The laws of a path. -/
structure Lawful : Prop where
  init : ∀ c, t.op c 0 = none
  /-- A request is held until it is done. -/
  hold : ∀ c n o, t.op c n = some o → t.done c n = false → t.op c (n + 1) = some o
  /-- A channel gets a pulse for its own request only, and no more lines than it asked for. -/
  held : ∀ c n, t.pulse c n → ∃ o, t.op c n = some o ∧ ∀ r, o = .read r → t.got c n < r.count
  /-- Each byte of a line was in the memory at its place, at some time since the request was raised. -/
  line : ∀ c n r, t.op c n = some (.read r) → t.pulse c n → ∀ o : BitVec 4, ∃ k ≤ n,
    (∀ j, k ≤ j → j < n → t.op c j = some (.read r) ∧ t.done c j = false) ∧
      lineByte (t.line n) o = t.mem k (lineNo (r.lineAddr (t.got c n)) ++ o)
  /-- The memory changes where a write that is not done may change it. -/
  frame : ∀ n x, (∀ c w, t.op c n = some (.write w) → t.done c n = false → ¬(Op.write w).Covers x) →
    t.mem (n + 1) x = t.mem n x
  /-- A write that is done has written its lines. -/
  written : ∀ c n w, t.op c n = some (.write w) → t.done c n → ∀ x, (Op.write w).Covers x →
    t.mem n x = (Op.write w).exec (t.mem n) x
  /-- Something is done in the end. -/
  progress : ∀ n c, (t.op c n).isSome → ∃ m ≥ n, ∃ c', t.done c' m

/-- The channels raise the requests `prog`, in order. -/
def Follows (prog : C → List Op) : Prop := ∀ c n, t.issued c n <+: prog c

/-- All of them are done. -/
def Finished (prog : C → List Op) (n : ℕ) : Prop := ∀ c, t.completed c n = prog c

/-- A channel that has requests left, and holds none, raises the next one at some time. -/
def Fair (prog : C → List Op) : Prop :=
  ∀ c n, t.completed c n ≠ prog c → t.op c n = none → ∃ m ≥ n, (t.op c m).isSome

end LineTrace

/-- No location that a channel writes is used by another one. -/
def RaceFree {C : Type*} (prog : C → List Op) : Prop :=
  ∀ c c', c ≠ c' → ∀ w, .write w ∈ prog c → ∀ o ∈ prog c', ∀ x,
  (Op.write w).Covers x → ¬o.Covers x

namespace LineTrace

variable {C : Type*} {t : LineTrace C} {prog : C → List Op} {c : C} {n : ℕ}

theorem done_eq {o : Op} (h : t.op c n = some o) : t.done c n = (t.pulse c n && ends (t.got c n) o) := by
  simp [done, h]

theorem op_of_done (h : t.done c n) : ∃ o, t.op c n = some o := by
  simp only [done, Option.any_eq_true] at h
  obtain ⟨o, ho, -⟩ := h
  exact ⟨o, ho⟩

/-- What is raised is done or held. -/
theorem Lawful.issued_eq (h : t.Lawful) (c : C) (n : ℕ) :
    t.issued c n = t.completed c n ++ (t.op c n).toList := by
  induction n with
  | zero => simp [issued, completed, h.init c]
  | succ n ih =>
    rw [issued, completed]
    cases hd : t.done c n with
    | true => simp [ih]
    | false =>
      cases ho : t.op c n with
      | none => simp [ih, ho]
      | some o => simp [ih, ho, h.hold c n o ho hd]

/-- What a channel holds or has done is in its list. -/
theorem Lawful.op_mem (h : t.Lawful) (hf : t.Follows prog) {o : Op} (ho : t.op c n = some o) :
    o ∈ prog c := by
  refine (hf c n).subset ?_
  rw [h.issued_eq c n, ho]
  simp

theorem Lawful.completed_prefix (h : t.Lawful) (hf : t.Follows prog) (c : C) (n : ℕ) :
    t.completed c n <+: prog c := by
  have hi := hf c n
  rw [h.issued_eq c n] at hi
  exact (List.prefix_append _ _).trans hi

/-! ## What a channel sees of the memory -/

/-- Where no other channel writes, the memory is as if the channel were alone. -/
theorem Lawful.mem_eq (h : t.Lawful) (hf : t.Follows prog) (c : C) (n : ℕ) (x : Word)
    (hx : ∀ c' ≠ c, ∀ w, .write w ∈ prog c' → ¬(Op.write w).Covers x)
    (hop : ∀ w, t.op c n = some (.write w) → ¬(Op.write w).Covers x) :
    t.mem n x = Op.execAll (t.mem 0) (t.completed c n) x := by
  induction n with
  | zero => rfl
  | succ n ih =>
    have hother : ∀ c' ≠ c, ∀ w, t.op c' n = some (.write w) → ¬(Op.write w).Covers x :=
      fun c' hc w hw => hx c' hc w (h.op_mem hf hw)
    by_cases hw : ∃ w, t.op c n = some (.write w) ∧ (Op.write w).Covers x
    · -- the write that covers `x` is done on this cycle, as it is not held any more
      obtain ⟨w, hw, hcov⟩ := hw
      have hd : t.done c n = true := by
        by_contra hd
        exact hop w (h.hold c n _ hw (Bool.not_eq_true _ ▸ hd)) hcov
      have hframe : t.mem (n + 1) x = t.mem n x := h.frame n x fun c' w' hw' hd' => by
        by_cases hc : c' = c
        · subst hc
          exact absurd (hd.symm.trans hd') nofun
        · exact hother c' hc w' hw'
      rw [hframe, h.written c n w hw hd x hcov, completed, if_pos hd, hw, Option.toList_some,
        Op.execAll_concat]
      exact Op.exec_of_covers hcov
    · have hnot : ∀ w, t.op c n = some (.write w) → ¬(Op.write w).Covers x :=
        fun w hw' hcov => hw ⟨w, hw', hcov⟩
      have hframe : t.mem (n + 1) x = t.mem n x := h.frame n x fun c' w' hw' _ => by
        by_cases hc : c' = c
        · subst hc
          exact hnot w' hw'
        · exact hother c' hc w' hw'
      rw [hframe, ih hnot, completed]
      split_ifs with hd
      · obtain ⟨o, ho⟩ := op_of_done hd
        rw [ho, Option.toList_some, Op.execAll_concat,
          Op.exec_of_not_covers fun w hw' => hw' ▸ hnot w (hw' ▸ ho)]
      · rfl

/-! ## What it gets -/

theorem completed_eq_of_held {k : ℕ} (hk : k ≤ n) (h : ∀ j, k ≤ j → j < n → t.done c j = false) :
    t.completed c k = t.completed c n := by
  induction n, hk using Nat.le_induction with
  | base => rfl
  | succ n hk ih =>
    rw [ih fun j h₁ h₂ => h j h₁ (Nat.lt_succ_of_lt h₂), completed, h n hk n.lt_succ_self]
    rfl

theorem Lawful.got_lt (h : t.Lawful) {r : RReq} (ho : t.op c n = some (.read r)) :
    t.got c n < r.count := by
  induction n with
  | zero => exact absurd ((h.init c).symm.trans ho) nofun
  | succ n ih =>
    rw [got]
    cases ho' : t.op c n with
    | none => exact r.count_pos
    | some o =>
      dsimp only
      split_ifs with hp he
      · exact r.count_pos
      all_goals
        -- the request is the one that was held
        have hd : t.done c n = false := by simp_all [done_eq ho']
        obtain rfl : o = .read r := Option.some_inj.1 ((h.hold c n o ho' hd).symm.trans ho)
      · obtain ⟨o, ho, hlt⟩ := h.held c n hp
        have hlt := hlt r (Option.some_inj.1 (ho.symm.trans ho'))
        have hne : t.got c n + 1 ≠ r.count := by simpa [ends] using he
        exact Nat.lt_of_le_of_ne hlt hne
      · exact ih ho'

/-- A line that is delivered is the next one of the request, as the channel sees the memory. -/
theorem Lawful.line_eq (h : t.Lawful) (hf : t.Follows prog) (hr : RaceFree prog) {r : RReq}
    (ho : t.op c n = some (.read r)) (hp : t.pulse c n) :
    t.line n = (Op.execAll (t.mem 0) (t.completed c n)).line (r.lineAddr (t.got c n)) := by
  have hcov := Op.covers_read r (h.got_lt ho)
  apply line_ext
  intro o
  obtain ⟨k, hk, hheld, hbyte⟩ := h.line c n r ho hp o
  have hopk : t.op c k = some (.read r) := by
    rcases Nat.eq_or_lt_of_le hk with rfl | hlt
    · exact ho
    · exact (hheld k le_rfl hlt).1
  rw [hbyte, Mem.lineByte_line_append, ← completed_eq_of_held hk fun j h₁ h₂ => (hheld j h₁ h₂).2]
  exact h.mem_eq hf c k _ (fun c' hc w hw hx => hr c' c hc w hw _ (h.op_mem hf ho) _ hx (hcov o))
    fun w hw => absurd (hopk.symm.trans hw) nofun

/-- The lines delivered for the request that is held. -/
def begun (t : LineTrace C) (c : C) (n : ℕ) : List Line :=
  match t.op c n with
  | some (.read r) => r.linesOf (Op.execAll (t.mem 0) (t.completed c n)) (t.got c n)
  | _ => []

theorem begun_of_got_eq_zero (h : t.got c n = 0) : t.begun c n = [] := by
  unfold begun
  split
  · rw [h]
    rfl
  · rfl

theorem begun_read {r : RReq} (h : t.op c n = some (.read r)) :
    t.begun c n = r.linesOf (Op.execAll (t.mem 0) (t.completed c n)) (t.got c n) := by
  rw [begun, h]

/-- The lines delivered are those of the requests done, and the first ones of the one that is held. -/
theorem Lawful.delivered_eq (h : t.Lawful) (hf : t.Follows prog) (hr : RaceFree prog) (c : C) (n : ℕ) :
    t.delivered c n = Op.linesAll (t.mem 0) (t.completed c n) ++ t.begun c n := by
  induction n with
  | zero => simp [delivered, completed, Op.linesAll, begun, h.init c]
  | succ n ih =>
    cases ho : t.op c n with
    | none =>
      have hgot : t.got c (n + 1) = 0 := by simp [got, ho]
      have hb : t.begun c n = [] := by simp [begun, ho]
      simp [delivered, completed, done, ho, ih, hb, begun_of_got_eq_zero hgot]
    | some o =>
      cases hd : t.done c n with
      | true =>
        have hp : t.pulse c n = true ∧ ends (t.got c n) o = true := by simpa [done_eq ho] using hd
        have hgot : t.got c (n + 1) = 0 := by simp [got, ho, hp.1, hp.2]
        rw [begun_of_got_eq_zero hgot, List.append_nil, completed, if_pos hd, ho, Option.toList_some,
          Op.linesAll_append]
        cases o with
        | write w =>
          have hb : t.begun c n = [] := by simp [begun, ho]
          simp [delivered, ho, ih, hb, Op.linesAll, Op.lines]
        | read r =>
          have hcount : t.got c n + 1 = r.count := by simpa [ends] using hp.2
          simp [delivered, ho, hp.1, ih, begun_read ho, Op.linesAll, Op.lines, ← hcount,
            RetrySys.linesOf_succ, h.line_eq hf hr ho hp.1]
      | false =>
        have ho' := h.hold c n o ho hd
        have hc : t.completed c (n + 1) = t.completed c n := by simp [completed, hd]
        cases o with
        | write w => simp [delivered, ho, ih, hc, begun, ho']
        | read r =>
          rw [begun_read ho', hc]
          cases hp : t.pulse c n with
          | false => simp [delivered, ho, hp, ih, begun_read ho, got]
          | true =>
            have hne : ends (t.got c n) (.read r) = false := by simpa [done_eq ho, hp] using hd
            simp [delivered, ho, hp, ih, begun_read ho, got, hne, RetrySys.linesOf_succ,
              h.line_eq hf hr ho hp]

/-- A channel gets the lines of its requests, in order, as if it were alone. -/
theorem Lawful.delivered_prefix (h : t.Lawful) (hf : t.Follows prog) (hr : RaceFree prog)
    (c : C) (n : ℕ) :
    t.delivered c n <+: Op.linesAll (t.mem 0) (prog c) := by
  refine List.IsPrefix.trans ?_ (Op.linesAll_prefix _ (hf c n))
  rw [h.delivered_eq hf hr, h.issued_eq, Op.linesAll_append]
  refine List.prefix_append_right_inj _ |>.2 ?_
  unfold begun
  split
  next r ho =>
    rw [ho, Option.toList_some, Op.linesAll, Op.lines]
    exact (Op.linesOf_prefix r _ (h.got_lt ho).le).trans (List.prefix_append _ _)
  next => exact List.nil_prefix

/-! ## In the end -/

theorem completed_mono (c : C) : ∀ {n m : ℕ}, n ≤ m → t.completed c n <+: t.completed c m := by
  intro n m h
  induction m, h using Nat.le_induction with
  | base => exact List.prefix_rfl
  | succ m _ ih =>
    rw [completed]
    split_ifs
    · exact ih.trans (List.prefix_append _ _)
    · exact ih

/-- A request that is done is one more. -/
theorem length_completed_succ (h : t.done c n) :
    (t.completed c (n + 1)).length = (t.completed c n).length + 1 := by
  obtain ⟨o, ho⟩ := op_of_done h
  simp [completed, h, ho]

/-- When all are done nothing is held. -/
theorem Lawful.op_eq_none (h : t.Lawful) (hf : t.Follows prog) (hn : t.Finished prog n) :
    t.op c n = none := by
  have hle := (hf c n).length_le
  rw [h.issued_eq c n, hn c] at hle
  cases ho : t.op c n with
  | none => rfl
  | some o =>
    rw [ho, List.length_append, Option.toList_some, List.length_singleton] at hle
    exact absurd hle (Nat.not_succ_le_self _)

theorem Lawful.delivered_of_finished (h : t.Lawful) (hf : t.Follows prog) (hr : RaceFree prog)
    (hn : t.Finished prog n) (c : C) : t.delivered c n = Op.linesAll (t.mem 0) (prog c) := by
  rw [h.delivered_eq hf hr, begun, h.op_eq_none hf hn, hn c, List.append_nil]

theorem Lawful.mem_of_finished (h : t.Lawful) (hf : t.Follows prog) (hn : t.Finished prog n)
    (c : C) (x : Word) (hx : ∀ c' ≠ c, ∀ w, .write w ∈ prog c' → ¬(Op.write w).Covers x) :
    t.mem n x = Op.execAll (t.mem 0) (prog c) x := by
  rw [h.mem_eq hf c n x hx fun w hw => absurd ((h.op_eq_none hf hn).symm.trans hw) nofun, hn c]

/-- Two paths that have served the same requests from the same memory have delivered the same lines,
    and left the same memory. -/
theorem Lawful.agree [Nonempty C] {t' : LineTrace C} (h : t.Lawful) (h' : t'.Lawful)
    (hf : t.Follows prog)
    (hf' : t'.Follows prog) (hr : RaceFree prog) (hm : t.mem 0 = t'.mem 0) {n' : ℕ}
    (hn : t.Finished prog n)
    (hn' : t'.Finished prog n') : (∀ c, t.delivered c n = t'.delivered c n') ∧ t.mem n = t'.mem n' := by
  refine ⟨fun c => ?_, funext fun x => ?_⟩
  · rw [h.delivered_of_finished hf hr hn, h'.delivered_of_finished hf' hr hn', hm]
  · -- at most one channel writes at `x`
    obtain ⟨c, hc⟩ : ∃ c, ∀ c' ≠ c, ∀ w, .write w ∈ prog c' → ¬(Op.write w).Covers x := by
      by_cases hw : ∃ c w, .write w ∈ prog c ∧ (Op.write w).Covers x
      · obtain ⟨c, w, hw, hx⟩ := hw
        exact ⟨c, fun c' hc w' hw' hx' => hr c' c hc w' hw' _ hw x hx' hx⟩
      · exact ⟨Classical.arbitrary C, fun c' _ w hw' hx => hw ⟨c', w, hw', hx⟩⟩
    rw [h.mem_of_finished hf hn c x hc, h'.mem_of_finished hf' hn' c x hc, hm]

/-- The requests that are left. -/
def left [Fintype C] (t : LineTrace C) (prog : C → List Op) (n : ℕ) : ℕ :=
  ∑ c, ((prog c).length - (t.completed c n).length)

/-- Every request is done in the end, if the channels do raise them. -/
theorem Lawful.finishes [Fintype C] (h : t.Lawful) (hf : t.Follows prog) (hfair : t.Fair prog) :
    ∃ n, t.Finished prog n := by
  suffices ∀ k n, t.left prog n = k → ∃ m, t.Finished prog m from this _ 0 rfl
  intro k
  induction k using Nat.strong_induction_on with
  | _ k ih =>
    rintro n rfl
    by_cases hn : t.Finished prog n
    · exact ⟨n, hn⟩
    · obtain ⟨c, hc⟩ := not_forall.1 hn
      obtain ⟨m, hm, hop⟩ : ∃ m ≥ n, (t.op c m).isSome := by
        cases ho : t.op c n with
        | none => exact hfair c n hc ho
        | some o => exact ⟨n, le_rfl, by simp [ho]⟩
      obtain ⟨m', hm', c', hd⟩ := h.progress m c hop
      refine ih _ ?_ (m' + 1) rfl
      have hle : ∀ c, (t.completed c n).length ≤ (t.completed c (m' + 1)).length := fun c =>
        (completed_mono c (by omega)).length_le
      refine Finset.sum_lt_sum (fun c _ => Nat.sub_le_sub_left (hle c) _) ⟨c', Finset.mem_univ c', ?_⟩
      have hlt := length_completed_succ hd
      have hmono := (completed_mono (t := t) c' (hm.le.trans hm'.le : n ≤ m')).length_le
      have hbound := (h.completed_prefix hf c' (m' + 1)).length_le
      omega

/-! ## One request each -/

/-- The channels raise what they have at once, and nothing later. -/
theorem Lawful.issued_of_once (h : t.Lawful)
    (hn : ∀ c, ∀ n ≥ 1, t.op c n = none ∨ t.done c n → t.op c (n + 1) = none) (c : C) (n : ℕ) :
    t.issued c (n + 1) = (t.op c 1).toList := by
  induction n with
  | zero => simp [issued, h.init c]
  | succ n ih =>
    rw [issued, ih]
    split_ifs with hd
    · rw [Bool.or_eq_true, Option.isNone_iff_eq_none] at hd
      rw [hn c (n + 1) n.succ_pos hd, Option.toList_none, List.append_nil]
    · rfl

theorem Lawful.once (h : t.Lawful)
    (hn : ∀ c, ∀ n ≥ 1, t.op c n = none ∨ t.done c n → t.op c (n + 1) = none)
    (h1 : ∀ c, (t.op c 1).toList = prog c) : t.Follows prog ∧ t.Fair prog := by
  have hissued : ∀ c n, t.issued c (n + 1) = prog c := fun c n => (h.issued_of_once hn c n).trans (h1 c)
  refine ⟨fun c n => ?_, fun c n hne ho => ?_⟩
  · cases n with
    | zero => exact List.nil_prefix
    | succ n => exact (hissued c n) ▸ List.prefix_rfl
  · cases n with
    | zero =>
      refine ⟨1, Nat.zero_le _, ?_⟩
      cases ho1 : t.op c 1 with
      | some o => rfl
      | none =>
        have hnil := h1 c
        rw [ho1, Option.toList_none] at hnil
        exact absurd hnil hne
    | succ n =>
      have he := h.issued_eq c (n + 1)
      rw [hissued, ho, Option.toList_none, List.append_nil] at he
      exact absurd he.symm hne

end LineTrace

end Rv32Soc
