import Mathlib.Data.Fintype.Card
import Mathlib.Data.Fintype.EquivFin

namespace TpeSo.Lib

/-!
# Arrays of pointers

An array of `n` slots that are empty or hold something.

* `Lists n t s` — the slots in use hold the members of `s`, each in one slot;
* `Lists.fill` — a slot is filled with something new;
* `Lists.card_of_full` — without an empty slot there are `n` members.
-/

variable {α : Type} {n i : Nat} {t : Nat → Option α} {s : Finset α} {x : α}

/-- The slots in use are among the first `n` and hold the members of `s`, each in one slot. -/
structure Lists (n : Nat) (t : Nat → Option α) (s : Finset α) : Prop where
  lt : ∀ i x, t i = some x → i < n
  mem : ∀ i x, t i = some x → x ∈ s
  unique : ∀ x ∈ s, ∃! i, t i = some x

namespace Lists

theorem empty (n : Nat) : Lists n (fun _ => none) (∅ : Finset α) where
  lt _ _ h := nomatch h
  mem _ _ h := nomatch h
  unique x h := absurd h (Finset.notMem_empty x)

/-- An empty slot is filled with something that is in none of them. -/
theorem fill [DecidableEq α] (h : Lists n t s) (hi : i < n) (hempty : t i = none) (hx : x ∉ s) :
    Lists n (Function.update t i (some x)) (insert x s) := by
  have hother : ∀ j y, y ∈ s → (Function.update t i (some x) j = some y ↔ t j = some y) := by
    intro j y hy
    by_cases hj : j = i
    · subst hj
      have hne : x ≠ y := fun he => hx (he ▸ hy)
      simp [hempty, hne]
    · rw [Function.update_of_ne hj]
  have hwhat : ∀ j y, Function.update t i (some x) j = some y → (j = i ∧ y = x) ∨ t j = some y := by
    intro j y hj
    by_cases hji : j = i
    · subst hji
      rw [Function.update_self] at hj
      exact .inl ⟨rfl, (Option.some.inj hj).symm⟩
    · exact .inr (by rwa [Function.update_of_ne hji] at hj)
  refine ⟨fun j y hj => ?_, fun j y hj => ?_, fun y hy => ?_⟩
  · obtain ⟨rfl, -⟩ | hj := hwhat j y hj
    · exact hi
    · exact h.lt j y hj
  · obtain ⟨-, rfl⟩ | hj := hwhat j y hj
    · exact Finset.mem_insert_self y s
    · exact Finset.mem_insert_of_mem (h.mem j y hj)
  · rcases Finset.mem_insert.mp hy with rfl | hys
    · refine ⟨i, by simp, fun j hj => ?_⟩
      obtain ⟨rfl, -⟩ | hj := hwhat j y hj
      · rfl
      · exact absurd (h.mem j y hj) hx
    · simp only [hother _ y hys]
      exact h.unique y hys

/-- **Without an empty slot** there are as many members as slots. -/
theorem card_of_full (h : Lists n t s) (hfull : ∀ i < n, (t i).isSome) : s.card = n := by
  symm
  rw [← Finset.card_range n]
  refine Finset.card_bij (fun i hi => (t i).get (hfull i (Finset.mem_range.mp hi))) ?_ ?_ ?_
  · exact fun i hi => h.mem i _ (Option.some_get _).symm
  · intro i hi j hj he
    have hti := (Option.some_get (hfull i (Finset.mem_range.mp hi))).symm
    have htj := (Option.some_get (hfull j (Finset.mem_range.mp hj))).symm
    rw [← he] at htj
    exact (h.unique _ (h.mem i _ hti)).unique hti htj
  · intro x hx
    obtain ⟨i, hi, -⟩ := h.unique x hx
    exact ⟨i, Finset.mem_range.mpr (h.lt i x hi), by simp [hi]⟩

end Lists

end TpeSo.Lib
