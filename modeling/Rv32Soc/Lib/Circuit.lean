import Mathlib.Data.Nat.Find
import Mathlib.Data.Prod.Lex
import Mathlib.Data.Set.Basic
import Mathlib.Order.WellFounded

/-!
# Synchronous circuits

A clocked circuit, seen from its registers: the states a reset may leave it in,
the inputs its environment may present in a state, and the state after the next
clock edge. What the circuit drives combinationally is a function of the state
and of the input, and needs no place here.

The environment is part of the circuit only through `admits`: a contract such as
*a request is held until it is acknowledged* is a relation between the state
(which remembers the request) and the input.

* `Circuit.Reachable`: the states some admitted sequence of inputs leads to, with
  the invariant rules `Reachable.invariant` and `Reachable.invariant_of`;
* `Circuit.IsRun`: an infinite run, state by state and input by input, every
  state of which is reachable (`IsRun.reachable`);
* `Circuit.exists_of_rank`, `Circuit.exists_of_rank_from`: what must happen along a run, by a
  well-founded rank; `Circuit.exists_le_of_grows`, `Circuit.exists_eq_of_grows`: what grows again
  and again;
* `Circuit.exists_sequence`: a second run alongside, step by step;
* `Circuit.lockstep`: two copies of a circuit side by side, for properties of two
  runs.
-/

namespace Rv32Soc

/-- A synchronous circuit with registers `S` and inputs `I`. -/
structure Circuit (S I : Type*) where
  /-- The states a reset may leave. -/
  init : Set S
  /-- The inputs the environment may present in a state. -/
  admits : S → I → Prop
  /-- The registers after the clock edge. -/
  next : S → I → S

namespace Circuit

variable {S I : Type*} (c : Circuit S I)

/-- The states reachable from a reset under admitted inputs. -/
inductive Reachable : S → Prop
  | init {s : S} : s ∈ c.init → Reachable s
  | step {s : S} {i : I} : Reachable s → c.admits s i → Reachable (c.next s i)

variable {c}

/-- An inductive invariant holds in every reachable state. -/
theorem Reachable.invariant {P : S → Prop} (h₀ : ∀ s ∈ c.init, P s)
    (hs : ∀ s i, P s → c.admits s i → P (c.next s i)) {s : S} (h : c.Reachable s) : P s := by
  induction h with
  | init h => exact h₀ _ h
  | step _ ha ih => exact hs _ _ ih ha

/-- An invariant that is inductive relative to one already established. -/
theorem Reachable.invariant_of {P Q : S → Prop} (hQ : ∀ s, c.Reachable s → Q s)
    (h₀ : ∀ s ∈ c.init, P s) (hs : ∀ s i, Q s → P s → c.admits s i → P (c.next s i))
    {s : S} (h : c.Reachable s) : P s := by
  induction h with
  | init h => exact h₀ _ h
  | step hr ha ih => exact hs _ _ (hQ _ hr) ih ha

variable (c)

/-- A run: the states `σ n` and the inputs `ι n` presented in them. -/
structure IsRun (σ : ℕ → S) (ι : ℕ → I) : Prop where
  init : σ 0 ∈ c.init
  admits : ∀ n, c.admits (σ n) (ι n)
  next : ∀ n, σ (n + 1) = c.next (σ n) (ι n)

variable {c}

theorem IsRun.reachable {σ : ℕ → S} {ι : ℕ → I} (h : c.IsRun σ ι) : ∀ n, c.Reachable (σ n)
  | 0 => .init h.init
  | n + 1 => h.next n ▸ .step (h.reachable n) (h.admits n)

/-- The states that the inputs `ι` lead to from `s`. -/
def trace (c : Circuit S I) (s : S) (ι : ℕ → I) : ℕ → S
  | 0 => s
  | n + 1 => c.next (trace c s ι n) (ι n)

/-- The trace from a reset state is a run when its inputs are admitted. -/
theorem isRun_trace {s : S} {ι : ℕ → I} (hs : s ∈ c.init)
    (ha : ∀ n, c.admits (c.trace s ι n) (ι n)) : c.IsRun (c.trace s ι) ι :=
  ⟨hs, ha, fun _ => rfl⟩

/-- The trace from a reset state reaches its states when its inputs are admitted so far. -/
theorem reachable_trace {s : S} {ι : ℕ → I} (hs : s ∈ c.init) {n : ℕ}
    (ha : ∀ m < n, c.admits (c.trace s ι m) (ι m)) : c.Reachable (c.trace s ι n) := by
  induction n with
  | zero => exact .init hs
  | succ n ih => exact .step (ih fun m hm => ha m (Nat.lt_succ_of_lt hm)) (ha n n.lt_succ_self)

/-- What must happen does: if every step on which `Q` does not hold keeps `P` and lowers a
    well-founded rank, then `P` holds until `Q` does. -/
theorem exists_of_rank {α : Type*} [Preorder α] [WellFoundedLT α] (rank : S → α) {P : S → Prop}
    {Q : S → I → Prop} {σ : ℕ → S} {ι : ℕ → I}
    (hs : ∀ n, P (σ n) → ¬Q (σ n) (ι n) → P (σ (n + 1)) ∧ rank (σ (n + 1)) < rank (σ n))
    {n : ℕ} (h : P (σ n)) : ∃ m ≥ n, (∀ k, n ≤ k → k ≤ m → P (σ k)) ∧ Q (σ m) (ι m) := by
  induction hr : rank (σ n) using WellFoundedLT.induction generalizing n with
  | _ a ih =>
    subst hr
    by_cases hq : Q (σ n) (ι n)
    · exact ⟨n, le_rfl, fun k h₁ h₂ => Nat.le_antisymm h₁ h₂ ▸ h, hq⟩
    · obtain ⟨hp, hlt⟩ := hs n h hq
      obtain ⟨m, hm, hall, hqm⟩ := ih _ hlt hp rfl
      refine ⟨m, Nat.le_of_succ_le hm, fun k h₁ h₂ => ?_, hqm⟩
      rcases Nat.eq_or_lt_of_le h₁ with rfl | hk
      · exact h
      · exact hall k hk h₂

/-- It also does when the rank is lowered from the step `N` on. -/
theorem exists_of_rank_from {α : Type*} [Preorder α] [WellFoundedLT α] (rank : S → α) {P : S → Prop}
    {Q : S → I → Prop} {σ : ℕ → S} {ι : ℕ → I} {N : ℕ} (hP : ∀ n, P (σ n) →
      ¬Q (σ n) (ι n) → P (σ (n + 1)))
    (hs : ∀ n ≥ N, P (σ n) → ¬Q (σ n) (ι n) → rank (σ (n + 1)) < rank (σ n))
    {n : ℕ} (h : P (σ n)) :
    ∃ m ≥ n, (∀ k, n ≤ k → k ≤ m → P (σ k)) ∧ Q (σ m) (ι m) := by
  -- the steps before `N` come first
  let rank' : S × ℕ → ℕ ×ₗ α := fun s => toLex (N - s.2, rank s.1)
  refine exists_of_rank rank' (σ := fun k => (σ k, k)) (ι := ι) (P := fun s => P s.1) (Q :=
    fun s i => Q s.1 i)
    (fun k hp hq => ⟨hP k hp hq, ?_⟩) h
  rcases Nat.lt_or_ge k N with hk | hk
  · exact Prod.Lex.toLex_lt_toLex.2 (.inl (Nat.sub_succ_lt_self N k hk))
  · refine Prod.Lex.toLex_lt_toLex.2 (.inr ⟨?_, hs k hk hp hq⟩)
    dsimp only
    rw [Nat.sub_eq_zero_of_le hk, Nat.sub_eq_zero_of_le (Nat.le_succ_of_le hk)]

/-- What grows again and again exceeds every bound. -/
theorem exists_le_of_grows {f : ℕ → ℕ} {a : ℕ} (h : ∀ n ≥ a, ∃ k ≥ n, f n < f k) (q : ℕ) :
    ∃ k ≥ a, q ≤ f k := by
  induction q with
  | zero => exact ⟨a, le_rfl, Nat.zero_le _⟩
  | succ q ih =>
    obtain ⟨n, hn, hq⟩ := ih
    obtain ⟨k, hk, hlt⟩ := h n hn
    exact ⟨k, hn.trans hk, Nat.succ_le_of_lt (hq.trans_lt hlt)⟩

/-- What starts at zero and grows again and again, by one at a time, takes every value. -/
theorem exists_eq_of_grows {f : ℕ → ℕ} (h₀ : f 0 = 0) (h₁ : ∀ n, f (n + 1) ≤ f n + 1)
    (h : ∀ n, ∃ k ≥ n, f n < f k) (q : ℕ) : ∃ k, f k = q := by
  induction q with
  | zero => exact ⟨0, h₀⟩
  | succ q ih =>
    obtain ⟨n, hn⟩ := ih
    have hex : ∃ k, q < f k := (h n).imp fun k hk => hn ▸ hk.2
    -- the first value above `q`
    obtain ⟨hlt, hmin⟩ := And.intro (Nat.find_spec hex) fun m => Nat.find_min (m := m) hex
    generalize Nat.find hex = k at *
    rcases k with _ | k
    · rw [h₀] at hlt
      exact absurd hlt (Nat.not_lt_zero q)
    · have hle : f k ≤ q := not_lt.1 (hmin k k.lt_succ_self)
      exact ⟨k + 1, Nat.le_antisymm ((h₁ k).trans (Nat.succ_le_succ hle)) hlt⟩

/-- A run step by step: what holds of the `n`-th state can be carried on to a next one. -/
theorem exists_sequence {α : Type*} {P : ℕ → α → Prop} {R : ℕ → α → α → Prop}
    {a : α} (h₀ : P 0 a) (hs : ∀ n x, P n x → ∃ y, R n x y ∧ P (n + 1) y) :
    ∃ f : ℕ → α, f 0 = a ∧ ∀ n, P n (f n) ∧ R n (f n) (f (n + 1)) := by
  choose next hnext using hs
  let g : ∀ n, {x // P n x} := fun n =>
    Nat.rec ⟨a, h₀⟩ (fun n x => ⟨next n x.1 x.2, (hnext n x.1 x.2).2⟩) n
  exact ⟨fun n => (g n).1, rfl, fun n => ⟨(g n).2, (hnext n (g n).1 (g n).2).1⟩⟩

/-- Two copies of a circuit in lock step, out of one reset. On an input `j` they see
    `f j` and `g j`, and the environment answers to the first. -/
def lockstep {J : Type*} (c : Circuit S I) (f g : J → I) : Circuit (S × S) J where
  init := {p | p.1 ∈ c.init ∧ p.2 = p.1}
  admits p j := c.admits p.1 (f j)
  next p j := (c.next p.1 (f j), c.next p.2 (g j))

end Circuit

end Rv32Soc
