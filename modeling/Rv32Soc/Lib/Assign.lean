import Mathlib.Data.Set.Basic
import Mathlib.Logic.Function.Basic

/-!
# Assignments in some order

A list of requests, each of which assigns to one entry of a map, made one after another: the
last one for an entry decides (`mayHold_assign`). When the order is free, every entry can be
left by any of the requests for it, independently of the others (`exists_perm_assign_iff`).
-/

namespace Rv32Soc

variable {α κ β : Type*} [DecidableEq κ] {key : α → κ} {value : α → β} {e e' : κ → β}
  {l l' : List α} {k : κ}

/-- The map after the requests of `l`, the first one first. -/
def assign (key : α → κ) (value : α → β) (e : κ → β) (l : List α) : κ → β :=
  l.foldl (fun e a => Function.update e (key a) (value a)) e

@[simp] theorem assign_cons {a : α} :
    assign key value e (a :: l) = assign key value (Function.update e (key a) (value a)) l := rfl

theorem assign_append : assign key value e (l ++ l') = assign key value (assign key value e l) l' :=
  List.foldl_append

/-- An entry depends on the others in nothing. -/
theorem assign_congr (h : e k = e' k) : assign key value e l k = assign key value e' l k := by
  induction l generalizing e e' with
  | nil => exact h
  | cons a l ih => exact ih (by simp only [Function.update_apply, h])

/-- What the entry `k` may hold after the requests of `l`, in some order. -/
def MayHold (key : α → κ) (value : α → β) (e : κ → β) (l : List α) (k : κ) (x : β) : Prop :=
  (∃ a ∈ l, key a = k ∧ value a = x) ∨ ((∀ a ∈ l, key a ≠ k) ∧ x = e k)

omit [DecidableEq κ] in
/-- The order of the requests is of no matter to what an entry may hold. -/
theorem MayHold.perm {x : β} (h : MayHold key value e l k x) (hp : l.Perm l') :
    MayHold key value e l' k x :=
  h.imp (fun ⟨a, ha, h⟩ => ⟨a, hp.mem_iff.1 ha, h⟩)
    fun ⟨hnot, heq⟩ => ⟨fun a ha => hnot a (hp.mem_iff.2 ha), heq⟩

theorem mayHold_assign (e : κ → β) (l : List α) (k : κ) :
    MayHold key value e l k (assign key value e l k) := by
  induction l generalizing e with
  | nil => exact .inr ⟨nofun, rfl⟩
  | cons a l ih =>
    rcases ih (Function.update e (key a) (value a)) with ⟨a', ha', h⟩ | ⟨hnot, heq⟩
    · exact .inl ⟨a', List.mem_cons_of_mem _ ha', h⟩
    · rw [assign_cons, heq]
      by_cases hk : k = key a
      · exact .inl ⟨a, List.mem_cons_self, hk.symm, by rw [hk, Function.update_self]⟩
      · rw [Function.update_of_ne hk]
        exact .inr ⟨List.forall_mem_cons.2 ⟨Ne.symm hk, hnot⟩, rfl⟩

/-- An entry for which all requests agree. -/
theorem assign_of_forall {x : β} (hx : ∀ a ∈ l, key a = k → value a = x) (h : ∃ a ∈ l, key a = k) :
    assign key value e l k = x := by
  rcases mayHold_assign e l k with ⟨a, ha, hk, hv⟩ | ⟨hnot, -⟩
  · exact hv.symm.trans (hx a ha hk)
  · obtain ⟨a, ha, hk⟩ := h
    exact absurd hk (hnot a ha)

/-- An entry for which there is no request. -/
theorem assign_of_forall_ne (h : ∀ a ∈ l, key a ≠ k) : assign key value e l k = e k := by
  rcases mayHold_assign e l k with ⟨a, ha, hk, -⟩ | ⟨-, heq⟩
  · exact absurd hk (h a ha)
  · exact heq

/-- What the entries in `K` can hold together after the requests of `l`, in an order of choice. -/
theorem exists_perm_assign_iff [DecidableEq β] {K : Set κ} :
    (∃ l', l'.Perm l ∧ ∀ k ∈ K, assign key value e l' k = e' k) ↔
    ∀ k ∈ K, MayHold key value e l k (e' k) := by
  constructor
  · rintro ⟨l', hp, h⟩ k hk
    exact h k hk ▸ (mayHold_assign e l' k).perm hp
  · intro h
    -- the requests that leave what is wanted come last
    refine ⟨_, List.filter_append_perm (fun a => e' (key a) != value a) l, fun k hk => ?_⟩
    rw [assign_append]
    rcases h k hk with ⟨a, ha, rfl, hv⟩ | ⟨hnot, heq⟩
    · refine assign_of_forall (fun a' ha' hk' => ?_) ⟨a, List.mem_filter.2 ⟨ha, by simp [hv]⟩, rfl⟩
      have hkept : e' (key a') = value a' := by simpa using (List.mem_filter.1 ha').2
      rw [← hkept, hk']
    · rw [assign_of_forall_ne fun a ha => hnot a (List.mem_filter.1 ha).1,
        assign_of_forall_ne fun a ha => hnot a (List.mem_filter.1 ha).1, heq]

end Rv32Soc
