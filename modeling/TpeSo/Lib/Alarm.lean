import Mathlib.Data.List.Basic

namespace TpeSo.Lib

/-!
# A counter with pending deadlines

A counter modulo `m` and the items that wait for it to reach their deadline.  A tick counts
and then drops every item whose deadline has been reached.

* `Alarm.tick` — one tick;
* `Alarm.Early` — no pending item is due, which holds after every tick;
* `Alarm.now_tick` — while an item is pending the counter does not wrap around.
-/

variable {α : Type}

/-- The counter and the items that wait for it. -/
structure Alarm (α : Type) where
  now : Nat
  pending : List α

namespace Alarm

variable (m : Nat) (due : α → Nat)

/-- Count, and drop what has become due. -/
def tick (a : Alarm α) : Alarm α where
  now := (a.now + 1) % m
  pending := a.pending.filter fun x => decide ((a.now + 1) % m < due x)

/-- No pending item is due. -/
def Early (a : Alarm α) : Prop := ∀ x ∈ a.pending, a.now < due x

variable {m due} {a : Alarm α} {x : α}

theorem early_tick : Early due (a.tick m due) := by
  intro x hx
  exact of_decide_eq_true (List.mem_filter.mp hx).2

/-- **A pending item keeps the counter from wrapping around.** -/
theorem now_tick (h : Early due a) (hx : x ∈ a.pending) (hm : due x < m) :
    (a.tick m due).now = a.now + 1 := by
  have hlt := h x hx
  show (a.now + 1) % m = a.now + 1
  exact Nat.mod_eq_of_lt (by omega)

end Alarm

end TpeSo.Lib
