import Mathlib.Order.Filter.AtTopBot.Basic

/-!
# What leads to what

Along a run, as predicates on the number of the step: whenever `P` holds, `Q` holds then or later
(`LeadsTo P Q`). A proof that something must happen is a chain of these, most of which are
one step (`LeadsTo.of_next`), a wait for an answer (`LeadsTo.waits`) or a
counter that runs down (`LeadsTo.of_rank`).
-/

namespace Rv32Soc

/-- Whenever `P` holds, `Q` does then or later. -/
def LeadsTo (P Q : ℕ → Prop) : Prop := ∀ n, P n → ∃ m ≥ n, Q m

namespace LeadsTo

variable {P Q R : ℕ → Prop}

theorem of_imp (h : ∀ n, P n → Q n) : LeadsTo P Q := fun n hp => ⟨n, le_rfl, h n hp⟩

theorem of_next (h : ∀ n, P n → Q (n + 1)) : LeadsTo P Q := fun n hp => ⟨n + 1, n.le_succ, h n hp⟩

theorem trans (h₁ : LeadsTo P Q) (h₂ : LeadsTo Q R) : LeadsTo P R := by
  intro n hp
  obtain ⟨m, hm, hq⟩ := h₁ n hp
  obtain ⟨k, hk, hr⟩ := h₂ m hq
  exact ⟨k, hm.trans hk, hr⟩

theorem or (h₁ : LeadsTo P R) (h₂ : LeadsTo Q R) : LeadsTo (fun n => P n ∨ Q n) R :=
  fun n hn => hn.elim (h₁ n) (h₂ n)

/-- A counter runs down. -/
theorem of_rank (f : ℕ → ℕ) (h : ∀ n, P n → ∃ m ≥ n, Q m ∨ P m ∧ f m < f n) :
    LeadsTo P Q := by
  intro n hp
  induction hr : f n using Nat.strong_induction_on generalizing n with
  | _ r ih =>
    subst hr
    obtain ⟨m, hm, hq | ⟨hp', hlt⟩⟩ := h n hp
    · exact ⟨m, hm, hq⟩
    · obtain ⟨k, hk, hq⟩ := ih _ hlt _ hp' rfl
      exact ⟨k, hm.trans hk, hq⟩

/-- What waits for an answer that comes, if it waits long enough, still waits when it does. -/
theorem waits (hstay : ∀ n, P n → ¬R n → P (n + 1))
    (h : ∀ n, (∀ m ≥ n, P m) → ∃ m ≥ n, R m) :
    LeadsTo P fun n => P n ∧ R n := by
  intro n hp
  by_contra hnone
  have hno : ∀ k ≥ n, P k → ¬R k := fun k hk hp hr => hnone ⟨k, hk, hp, hr⟩
  have hall : ∀ k ≥ n, P k := by
    intro k hk
    induction k, hk using Nat.le_induction with
    | base => exact hp
    | succ k hk ih => exact hstay k ih (hno k hk ih)
  obtain ⟨m, hm, hr⟩ := h n hall
  exact hno m hm (hall m hm) hr

/-- What happens and then stays holds from some step on. -/
theorem eventually (h : LeadsTo P Q) (hstay : ∀ n, Q n → Q (n + 1)) {n : ℕ} (hp : P n) :
    ∀ᶠ k in Filter.atTop, Q k := by
  obtain ⟨m, -, hq⟩ := h n hp
  refine Filter.eventually_atTop.2 ⟨m, fun k hk => ?_⟩
  induction k, hk using Nat.le_induction with
  | base => exact hq
  | succ k _ ih => exact hstay k ih

end LeadsTo

/-- What alternates is the case again and again. -/
theorem frequently_of_alternates {f : ℕ → Bool} {n : ℕ} (h : ∀ k ≥ n, f (k + 1) = !f k) :
    ∃ᶠ k in Filter.atTop, f k := by
  refine Filter.frequently_atTop.2 fun m => ?_
  cases hf : f (max m n)
  · refine ⟨max m n + 1, le_max_left m n |>.trans (Nat.le_succ _), ?_⟩
    rw [h _ (le_max_right m n), hf]
    rfl
  · exact ⟨max m n, le_max_left m n, hf⟩

end Rv32Soc
