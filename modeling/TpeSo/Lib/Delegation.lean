import Mathlib.Logic.Relation
import TpeSo.Lib.Trace

namespace TpeSo.Lib

/-!
# Delegation

Some agents hold something.  An agent may take it, and one that holds it may hand it to another.
Whoever holds it then has it, over any number of hands, from somebody who took it.

* `Handed gives tr p q` — along the run, `p` has handed to somebody who has handed to … `q`;
* `Trace.handed` — **the rule**: every holder has been handed what somebody took.
-/

variable {σ ε ω α : Type} {gives : σ → ε → α → α → Prop} {tr tr' : List (σ × ε × ω)} {p q r : α}

/-- A chain of gifts along the run, from `p` to `q`. -/
def Handed (gives : σ → ε → α → α → Prop) (tr : List (σ × ε × ω)) : α → α → Prop :=
  Relation.ReflTransGen fun p q => ∃ x ∈ tr, gives x.1 x.2.1 p q

namespace Handed

theorem refl (p : α) : Handed gives tr p p := Relation.ReflTransGen.refl

theorem trans (h : Handed gives tr p q) (g : Handed gives tr q r) : Handed gives tr p r :=
  Relation.ReflTransGen.trans h g

/-- A longer run has seen more. -/
theorem mono (hsub : ∀ x ∈ tr, x ∈ tr') (h : Handed gives tr p q) : Handed gives tr' p q := by
  refine Relation.ReflTransGen.mono ?_ _ _ h
  rintro p q ⟨x, hx, hgive⟩
  exact ⟨x, hsub x hx, hgive⟩

theorem snoc {s : σ} {e : ε} {o : ω} (h : Handed gives tr p q) :
    Handed gives (tr ++ [(s, e, o)]) p q :=
  h.mono fun _ hx => List.mem_append_left _ hx

/-- One more gift, at the last step of the run. -/
theorem snoc_give {s : σ} {e : ε} {o : ω} (h : Handed gives tr p q) (hgive : gives s e q r) :
    Handed gives (tr ++ [(s, e, o)]) p r :=
  h.snoc.trans (.single ⟨(s, e, o), List.mem_append_right _ (List.mem_singleton_self _), hgive⟩)

end Handed

/-- **Delegation rule.**  When a step only leaves, takes or hands on, the holders at the end have
    been handed what somebody held at the start, or took. -/
theorem Trace.handed {next : σ → ε → Option (σ × ω)} {ok : σ → ε → Prop} {s t : σ}
    (I : σ → Prop) (holds : σ → α → Prop) (takes : σ → ε → α → Prop)
    (gives : σ → ε → α → α → Prop) (h0 : I s)
    (hs : ∀ t e u o, I t → ok t e → next t e = some (u, o) → I u ∧
      ∀ q, holds u q → holds t q ∨ takes t e q ∨ ∃ p, holds t p ∧ gives t e p q)
    (h : Trace next ok s tr t) : I t ∧ ∀ q, holds t q →
      ∃ p, (holds s p ∨ ∃ x ∈ tr, takes x.1 x.2.1 p) ∧ Handed gives tr p q := by
  induction h with
  | nil => exact ⟨h0, fun q hq => ⟨q, .inl hq, .refl q⟩⟩
  | @snoc tr t e u o hr hok hstep ih =>
    obtain ⟨hI, hheld⟩ := ih
    obtain ⟨hI', hnew⟩ := hs _ _ _ _ hI hok hstep
    -- what was true of the shorter run
    have hkeep : ∀ q, holds t q → ∃ p, (holds s p ∨ ∃ x ∈ tr ++ [(t, e, o)], takes x.1 x.2.1 p) ∧
        Handed gives tr p q := by
      intro q hq
      obtain ⟨p, hp, hline⟩ := hheld q hq
      exact ⟨p, hp.imp_right fun ⟨x, hx, ht⟩ => ⟨x, List.mem_append_left _ hx, ht⟩, hline⟩
    refine ⟨hI', fun q hq => ?_⟩
    rcases hnew q hq with hq | htake | ⟨p, hp, hgive⟩
    · obtain ⟨p, hp, hline⟩ := hkeep q hq
      exact ⟨p, hp, hline.snoc⟩
    · exact ⟨q, .inr ⟨(t, e, o), List.mem_append_right _ (List.mem_singleton_self _), htake⟩,
        .refl q⟩
    · obtain ⟨r, hr, hline⟩ := hkeep p hp
      exact ⟨r, hr, hline.snoc_give hgive⟩

end TpeSo.Lib
