import Mathlib.Order.Basic

namespace TpeSo.Lib

/-!
# One token

A token that either lies free or is held by one participant.

* `OneToken n holds` — `n` tokens are free, and with those held there is one at most;
* `OneToken.mono`, `take`, `put`, `pass` — nobody gets it; somebody takes it, puts it back, or
  passes it on.
-/

variable {P : Type} {n : Nat} {holds holds' : P → Prop} {p q : P}

/-- At most one token: free, or held by one participant. -/
structure OneToken (n : Nat) (holds : P → Prop) : Prop where
  bound : n ≤ 1
  alone : ∀ p q, holds p → holds q → p = q
  kept : 0 < n → ∀ p, ¬ holds p

namespace OneToken

theorem mono (h : OneToken n holds) (hsub : ∀ r, holds' r → holds r) : OneToken n holds' where
  bound := h.bound
  alone r s hr hs := h.alone r s (hsub r hr) (hsub s hs)
  kept hn r hr := h.kept hn r (hsub r hr)

/-- While somebody holds the token, none is free. -/
theorem eq_zero (h : OneToken n holds) (hp : holds p) : n = 0 :=
  Nat.eq_zero_of_not_pos fun hn => h.kept hn p hp

/-- `p` takes the free token. -/
theorem take (h : OneToken n holds) (hn : 0 < n) (hsub : ∀ r, holds' r → holds r ∨ r = p) :
    OneToken (n - 1) holds' := by
  have hp : ∀ r, holds' r → r = p := fun r hr => (hsub r hr).resolve_left (h.kept hn r)
  have hbound := h.bound
  exact ⟨by omega, fun r s hr hs => (hp r hr).trans (hp s hs).symm, fun hn' => by omega⟩

/-- `p` puts the token back. -/
theorem put (h : OneToken n holds) (hp : holds p) (hsub : ∀ r, holds' r → holds r ∧ r ≠ p) :
    OneToken (n + 1) holds' := by
  have hnone : ∀ r, ¬ holds' r := fun r hr => (hsub r hr).2 (h.alone r p (hsub r hr).1 hp)
  have hzero := h.eq_zero hp
  exact ⟨by omega, fun r s hr => absurd hr (hnone r), fun _ => hnone⟩

/-- `p` passes the token on to `q`. -/
theorem pass (h : OneToken n holds) (hp : holds p)
    (hsub : ∀ r, holds' r → (holds r ∧ r ≠ p) ∨ r = q) : OneToken n holds' := by
  have hq : ∀ r, holds' r → r = q := fun r hr =>
    (hsub r hr).resolve_left fun hr' => hr'.2 (h.alone r p hr'.1 hp)
  have hzero := h.eq_zero hp
  exact ⟨h.bound, fun r s hr hs => (hq r hr).trans (hq s hs).symm, fun hn => by omega⟩

end OneToken

end TpeSo.Lib
