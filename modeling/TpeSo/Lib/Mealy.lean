import Mathlib.Init

namespace TpeSo.Lib

/-!
# Machines that answer every input

A machine is a total step function `next : σ → ε → σ × ω`; in state `s` the input `e` leads
to one state and one answer.

* `outputs` — the answers to a list of inputs;
* `Always` — a condition on state and input that holds at every step of a run;
* `after` — the state a run ends in;
* `outputs_eq_iff` — two machines that agree step by step exactly where the condition holds
  give the same answers exactly on the runs it always holds on.
-/

variable {σ τ ε ω : Type}

/-- The answers to the inputs `es` from `s`. -/
def outputs (next : σ → ε → σ × ω) : σ → List ε → List ω
  | _, [] => []
  | s, e :: es => (next s e).2 :: outputs next (next s e).1 es

/-- Every step of the run on `es` from `s` meets `ok`. -/
def Always (next : σ → ε → σ × ω) (ok : σ → ε → Prop) : σ → List ε → Prop
  | _, [] => True
  | s, e :: es => ok s e ∧ Always next ok (next s e).1 es

instance Always.decidable (next : σ → ε → σ × ω) (ok : σ → ε → Prop)
    [∀ s e, Decidable (ok s e)] : ∀ s es, Decidable (Always next ok s es)
  | _, [] => instDecidableTrue
  | s, e :: es =>
    have := Always.decidable next ok (next s e).1 es
    inferInstanceAs (Decidable (ok s e ∧ Always next ok (next s e).1 es))

/-- The state after the inputs `es` from `s`. -/
def after (next : σ → ε → σ × ω) (s : σ) (es : List ε) : σ :=
  es.foldl (fun s e => (next s e).1) s

@[simp] theorem after_nil (next : σ → ε → σ × ω) (s : σ) : after next s [] = s := rfl

@[simp] theorem after_cons (next : σ → ε → σ × ω) (s : σ) (e : ε) (es : List ε) :
    after next s (e :: es) = after next (next s e).1 es := rfl

/-- What every step preserves holds after every run. -/
theorem after_invariant {f : σ → ε → σ × ω} (P : σ → Prop)
    (hstep : ∀ s e, P s → P (f s e).1) (es : List ε) : ∀ {s : σ}, P s → P (after f s es) := by
  induction es with
  | nil => intro s h; exact h
  | cons e es ih => intro s h; exact ih (hstep s e h)

/-- A relation that the steps meeting `ok` preserve holds after the runs that always meet it. -/
theorem after_related {f : σ → ε → σ × ω} {g : τ → ε → τ × ω} {ok : σ → ε → Prop}
    (R : σ → τ → Prop) (hstep : ∀ s t e, R s t → ok s e → R (f s e).1 (g t e).1)
    (es : List ε) : ∀ {s : σ} {t : τ}, R s t → Always f ok s es →
      R (after f s es) (after g t es) := by
  induction es with
  | nil => intro s t h _; exact h
  | cons e es ih => intro s t h hok; exact ih (hstep s t e h hok.1) hok.2

/-- **Simulation with an exact condition.**  `R` relates the states of the two machines; a
    step from related states that meets `ok` gives the same answer and related states, one
    that does not gives different answers. -/
theorem outputs_eq_iff {f : σ → ε → σ × ω} {g : τ → ε → τ × ω} {ok : σ → ε → Prop}
    (R : σ → τ → Prop)
    (hsame : ∀ s t e, R s t → ok s e → (f s e).2 = (g t e).2 ∧ R (f s e).1 (g t e).1)
    (hdiff : ∀ s t e, R s t → ¬ ok s e → (f s e).2 ≠ (g t e).2) (es : List ε) :
    ∀ {s : σ} {t : τ}, R s t → (outputs f s es = outputs g t es ↔ Always f ok s es) := by
  induction es with
  | nil => intro s t _; exact ⟨fun _ => trivial, fun _ => rfl⟩
  | cons e es ih =>
    intro s t hR
    simp only [outputs, Always, List.cons.injEq]
    by_cases hok : ok s e
    · obtain ⟨hans, hR'⟩ := hsame s t e hR hok
      rw [ih hR']
      exact ⟨fun h => ⟨hok, h.2⟩, fun h => ⟨hans, h.2⟩⟩
    · exact ⟨fun h => absurd h.1 (hdiff s t e hR hok), fun h => absurd h.1 hok⟩

end TpeSo.Lib
