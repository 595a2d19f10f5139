import Mathlib.Data.List.Basic

namespace TpeSo.Lib

/-!
# The ledger of a counting semaphore

A counting semaphore whose post hands its token to the first waiter, and raises the value
only when nobody waits.

* `Ledger α v` — such a semaphore, created with `v` tokens, together with its history; the
  three laws it obeys are fields, so that no unbalanced ledger can be written down;
* `Ledger.take`, `Ledger.call`, `Ledger.hand`, `Ledger.raise` — the four things that can
  happen to it.
-/

/-- A semaphore created with `v` tokens, and what has happened to it since. -/
structure Ledger (α : Type) (v : Nat) where
  value : Nat
  queue : List α
  /-- The number of posts. -/
  posts : Nat
  /-- The number of tokens granted on the spot. -/
  taken : Nat
  /-- Who has had to wait, in the order of the calls. -/
  calls : List α
  /-- Whom the posts have handed a token, in order. -/
  handed : List α
  tokens : v + posts = value + (taken + handed.length)
  idle : 0 < value → queue = []
  order : calls = handed ++ queue

namespace Ledger

variable {α : Type} {v : Nat} (L : Ledger α v)

/-- The semaphore as it is created. -/
def create (α : Type) (v : Nat) : Ledger α v where
  value := v
  queue := []
  posts := 0
  taken := 0
  calls := []
  handed := []
  tokens := rfl
  idle _ := rfl
  order := rfl

/-- A token is granted on the spot. -/
def take (h : 0 < L.value) : Ledger α v :=
  { L with
    value := L.value - 1
    taken := L.taken + 1
    tokens := by
      have htokens := L.tokens
      omega
    idle := fun _ => L.idle h }

/-- `x` has to wait. -/
def call (h : L.value = 0) (x : α) : Ledger α v :=
  { L with
    queue := L.queue ++ [x]
    calls := L.calls ++ [x]
    idle := fun hpos => absurd h (Nat.ne_of_gt hpos)
    order := by rw [L.order, List.append_assoc] }

/-- A post hands its token to the first waiter. -/
def hand (x : α) (q : List α) (h : L.queue = x :: q) : Ledger α v :=
  { L with
    queue := q
    posts := L.posts + 1
    handed := L.handed ++ [x]
    tokens := by
      have htokens := L.tokens
      simp only [List.length_append, List.length_singleton]
      omega
    idle := fun hpos => by
      have hnil := L.idle hpos
      rw [h] at hnil
      cases hnil
    order := by rw [L.order, h, List.append_assoc, List.singleton_append] }

/-- A post that finds nobody waiting. -/
def raise (h : L.queue = []) : Ledger α v :=
  { L with
    value := L.value + 1
    posts := L.posts + 1
    tokens := by
      have htokens := L.tokens
      omega
    idle := fun _ => h }

/-- The value never exceeds the tokens that were put in. -/
theorem value_le : L.value ≤ v + L.posts := by
  have htokens := L.tokens
  omega

end Ledger

end TpeSo.Lib
