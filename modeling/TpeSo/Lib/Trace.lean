import Mathlib.Data.List.Induction

namespace TpeSo.Lib

/-!
# Runs of a deterministic labelled machine

A machine is a partial step function `next : σ → ε → Option (σ × ω)`: in state `s` the
event `e` either is impossible or leads to one state and shows one observation.

* `Trace next ok s tr t` — a run from `s` to `t` all of whose steps meet the condition
  `ok` on the state before the step and on the event; `tr` lists the steps in order, each
  with the state it started in, its event and its observation.
* `Trace.invariant`, `Trace.invariant_history` — the two induction rules: for a state
  predicate, and for one that also reads the history;
* `Trace.since` — the rule for what holds since a given step.
* `exec`, `execCheck` — the run of a given list of events, for evaluating concrete runs.
-/

variable {σ ε ω : Type}

/-- A run from `s` whose steps all meet `ok`. -/
inductive Trace (next : σ → ε → Option (σ × ω)) (ok : σ → ε → Prop) (s : σ) :
    List (σ × ε × ω) → σ → Prop where
  | nil : Trace next ok s [] s
  | snoc {tr t e u o} : Trace next ok s tr t → ok t e → next t e = some (u, o) →
      Trace next ok s (tr ++ [(t, e, o)]) u

namespace Trace

variable {next : σ → ε → Option (σ × ω)} {ok : σ → ε → Prop} {s t u : σ}
  {tr : List (σ × ε × ω)}

/-- **Invariant rule with history.** -/
theorem invariant_history (I : List (σ × ε × ω) → σ → Prop) (h0 : I [] s)
    (hs : ∀ tr t e u o, Trace next ok s tr t → I tr t → ok t e → next t e = some (u, o) →
      I (tr ++ [(t, e, o)]) u)
    (h : Trace next ok s tr t) : I tr t := by
  induction h with
  | nil => exact h0
  | snoc hr hok hstep ih => exact hs _ _ _ _ _ hr ih hok hstep

/-- **Invariant rule.** What holds initially and is kept by every step holds after every
    run. -/
theorem invariant (I : σ → Prop) (h0 : I s)
    (hs : ∀ t e u o, I t → ok t e → next t e = some (u, o) → I u)
    (h : Trace next ok s tr t) : I t :=
  invariant_history (fun _ t => I t) h0 (fun _ t e u o _ hI => hs t e u o hI) h

/-- A step condition may be replaced by what it implies under an invariant. -/
theorem mono {ok' : σ → ε → Prop} (I : σ → Prop) (h0 : I s)
    (hs : ∀ t e u o, I t → ok t e → next t e = some (u, o) → I u)
    (himp : ∀ t e, I t → ok t e → ok' t e) (h : Trace next ok s tr t) :
    Trace next ok' s tr t := by
  induction h with
  | nil => exact .nil
  | snoc hr hok hstep ih => exact .snoc ih (himp _ _ (hr.invariant I h0 hs) hok) hstep

/-- A step condition may be replaced by what it implies. -/
theorem imp {ok' : σ → ε → Prop} (himp : ∀ t e, ok t e → ok' t e) (h : Trace next ok s tr t) :
    Trace next ok' s tr t :=
  h.mono (fun _ => True) trivial (fun _ _ _ _ _ _ _ => trivial) fun t e _ => himp t e

/-- Every step of a run meets its condition. -/
theorem forall_ok (h : Trace next ok s tr t) : ∀ x ∈ tr, ok x.1 x.2.1 := by
  induction h with
  | nil => exact fun x hx => nomatch hx
  | snoc _ hok _ ih =>
    intro x hx
    rcases List.mem_append.mp hx with hx | hx
    · exact ih x hx
    · rw [List.mem_singleton.mp hx]
      exact hok

/-- The last step of a run. -/
theorem of_snoc {e : ε} {o : ω} (h : Trace next ok s (tr ++ [(t, e, o)]) u) :
    Trace next ok s tr t ∧ ok t e ∧ next t e = some (u, o) := by
  generalize hx : tr ++ [(t, e, o)] = tr' at h
  cases h with
  | nil => simp at hx
  | snoc hr hok hstep =>
    obtain ⟨rfl, hlast⟩ := List.append_inj' hx rfl
    simp only [List.cons.injEq, Prod.mk.injEq, and_true] at hlast
    obtain ⟨rfl, rfl, rfl⟩ := hlast
    exact ⟨hr, hok, hstep⟩

/-- **Rule for what holds since a step.** What holds right after a step of the run, and is
    kept by every later step, holds at its end. -/
theorem since (J : List (σ × ε × ω) → σ → Prop) {tr₁ : List (σ × ε × ω)} {j : σ} {e : ε} {o : ω}
    (h0 : ∀ u, Trace next ok s tr₁ j → ok j e → next j e = some (u, o) → J [] u)
    (hs : ∀ tr t e' u o', Trace next ok s (tr₁ ++ (j, e, o) :: tr) t → J tr t → ok t e' →
      next t e' = some (u, o') → J (tr ++ [(t, e', o')]) u) :
    ∀ {tr₂ : List (σ × ε × ω)} {t : σ}, Trace next ok s (tr₁ ++ (j, e, o) :: tr₂) t → J tr₂ t := by
  intro tr₂
  induction tr₂ using List.reverseRecOn with
  | nil =>
    intro t h
    obtain ⟨hr, hok, hstep⟩ := of_snoc h
    exact h0 t hr hok hstep
  | append_singleton tr x ih =>
    intro t h
    obtain ⟨t', e', o'⟩ := x
    rw [← List.cons_append, ← List.append_assoc] at h
    obtain ⟨hr, hok, hstep⟩ := of_snoc h
    exact hs tr t' e' t o' hr (ih hr) hok hstep

end Trace

/-- The run of the events `es` from `s`, when every one of them is possible. -/
def exec (next : σ → ε → Option (σ × ω)) : σ → List ε → Option (List (σ × ε × ω) × σ)
  | s, [] => some ([], s)
  | s, e :: es =>
    match next s e with
    | none => none
    | some (t, o) => (exec next t es).map fun r => ((s, e, o) :: r.1, r.2)

private theorem trace_append {next : σ → ε → Option (σ × ω)} {ok : σ → ε → Prop}
    {s : σ} {es : List ε} : ∀ {tr₀ : List (σ × ε × ω)} {t : σ}, Trace next ok s tr₀ t →
    ∀ {tr : List (σ × ε × ω)} {u : σ}, exec next t es = some (tr, u) →
    (∀ x ∈ tr, ok x.1 x.2.1) → Trace next ok s (tr₀ ++ tr) u := by
  induction es with
  | nil =>
    intro tr₀ t h tr u he _
    simp only [exec, Option.some.injEq, Prod.mk.injEq] at he
    obtain ⟨rfl, rfl⟩ := he
    simpa using h
  | cons e es ih =>
    intro tr₀ t h tr u he hok
    simp only [exec] at he
    split at he
    · cases he
    · rename_i v o hstep
      obtain ⟨⟨tr', u'⟩, hr, heq⟩ := Option.map_eq_some_iff.mp he
      simp only [Prod.mk.injEq] at heq
      obtain ⟨rfl, rfl⟩ := heq
      have h1 : Trace next ok s (tr₀ ++ [(t, e, o)]) v :=
        .snoc h (hok (t, e, o) (by simp)) hstep
      have h2 := ih h1 hr (fun x hx => hok x (by simp [hx]))
      simpa using h2

/-- An evaluated run is a run. -/
theorem Trace.of_exec {next : σ → ε → Option (σ × ω)} {ok : σ → ε → Prop} {s u : σ}
    {es : List ε} {tr : List (σ × ε × ω)} (he : exec next s es = some (tr, u))
    (hok : ∀ x ∈ tr, ok x.1 x.2.1) : Trace next ok s tr u := by
  simpa using trace_append (.nil : Trace next ok s [] s) he hok

/-- The events `es` are possible from `s`, each step meets `ok`, and the run has `Q`. -/
def execCheck (next : σ → ε → Option (σ × ω)) (ok : σ → ε → Prop) [∀ s e, Decidable (ok s e)]
    (Q : List (σ × ε × ω) → σ → Bool) (s : σ) (es : List ε) : Bool :=
  match exec next s es with
  | none => false
  | some r => decide (∀ x ∈ r.1, ok x.1 x.2.1) && Q r.1 r.2

/-- What an evaluation has checked is true of a run. -/
theorem Trace.of_execCheck {next : σ → ε → Option (σ × ω)} {ok : σ → ε → Prop}
    [∀ s e, Decidable (ok s e)] {Q : List (σ × ε × ω) → σ → Bool} {s : σ} {es : List ε}
    (h : execCheck next ok Q s es = true) : ∃ tr u, Trace next ok s tr u ∧ Q tr u = true := by
  unfold execCheck at h
  split at h
  · cases h
  · rename_i r he
    obtain ⟨hok, hQ⟩ := Bool.and_eq_true_iff.mp h
    exact ⟨r.1, r.2, .of_exec he (of_decide_eq_true hok), hQ⟩

end TpeSo.Lib
