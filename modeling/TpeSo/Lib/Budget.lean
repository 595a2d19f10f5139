import TpeSo.Lib.Trace

namespace TpeSo.Lib

/-!
# Budgets over a run

A quantity that no step of a run increases, and that some of the steps use up, bounds how many
of these steps there are.

* `steps counts tr` — how many steps of the run count;
* `Trace.budget` — the rule, for a quantity that is only meaningful under an invariant.
-/

variable {σ ε ω : Type}

/-- The number of steps of `tr` that count. -/
def steps (counts : σ → ε → Bool) (tr : List (σ × ε × ω)) : Nat :=
  tr.countP fun x => counts x.1 x.2.1

theorem steps_snoc (counts : σ → ε → Bool) (tr : List (σ × ε × ω)) (s : σ) (e : ε) (o : ω) :
    steps counts (tr ++ [(s, e, o)]) = steps counts tr + if counts s e then 1 else 0 := by
  simp only [steps, List.countP_append, List.countP_singleton]

/-- **Budget rule.**  When every step keeps the invariant `I` and pays for itself out of `left`,
    the steps that count cannot outnumber what was there at the start. -/
theorem Trace.budget {next : σ → ε → Option (σ × ω)} {ok : σ → ε → Prop} {s t : σ}
    {tr : List (σ × ε × ω)} (I : σ → Prop) (counts : σ → ε → Bool) (left : σ → Nat) (h0 : I s)
    (hs : ∀ t e u o, I t → ok t e → next t e = some (u, o) →
      I u ∧ left u + (if counts t e then 1 else 0) ≤ left t)
    (h : Trace next ok s tr t) : I t ∧ left t + steps counts tr ≤ left s := by
  induction h with
  | nil => exact ⟨h0, Nat.le_refl _⟩
  | snoc hr hok hstep ih =>
    obtain ⟨hI, hleft⟩ := ih
    obtain ⟨hI', hpaid⟩ := hs _ _ _ _ hI hok hstep
    refine ⟨hI', ?_⟩
    rw [steps_snoc]
    omega

end TpeSo.Lib
