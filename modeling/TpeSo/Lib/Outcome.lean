import Mathlib.Init

namespace TpeSo.Lib

/-!
# Outcomes of code that may not come back

A routine of a freestanding program ends in one of three ways: it produces a value, it
spins for ever with interrupts disabled, or it performs an access that the language gives
no meaning to.  `Outcome` keeps the three apart, so that a statement about the states a
routine *produces* is never confused with one about the routines that produce none.

* `bind_eq_ok` — the one inversion rule the proofs peel `do` blocks with;
* `bind_ne_fault`, `bind_eq_fault` — a sequence goes wrong where one of its parts does;
* `Outcome.Ensures` — the partial-correctness reading, with its composition rule.
-/

/-- The result of running a routine. -/
inductive Outcome (α : Type) where
  | ok (a : α)
  /-- An endless loop that nothing can interrupt. -/
  | hang
  /-- A `NULL` dereference or an access outside an array. -/
  | fault
  deriving DecidableEq, Repr

namespace Outcome

variable {α β : Type}

/-- Sequencing: only a routine that came back is continued. -/
protected def bind (x : Outcome α) (f : α → Outcome β) : Outcome β :=
  match x with
  | .ok a => f a
  | .hang => .hang
  | .fault => .fault

instance : Monad Outcome where
  pure := .ok
  bind := Outcome.bind

@[simp] theorem pure_eq (a : α) : (pure a : Outcome α) = .ok a := rfl

@[simp] theorem ok_bind (a : α) (f : α → Outcome β) : (Outcome.ok a >>= f) = f a := rfl

@[simp] theorem hang_bind (f : α → Outcome β) : (Outcome.hang >>= f) = .hang := rfl

@[simp] theorem fault_bind (f : α → Outcome β) : (Outcome.fault >>= f) = .fault := rfl

theorem bind_ok (x : Outcome α) : (x >>= fun a => .ok a) = x := by
  cases x <;> rfl

theorem bind_assoc {γ : Type} (x : Outcome α) (f : α → Outcome β) (g : β → Outcome γ) :
    (x >>= f) >>= g = x >>= fun a => f a >>= g := by
  cases x <;> rfl

/-- **Inversion.** A sequence came back exactly when both of its parts did. -/
theorem bind_eq_ok {x : Outcome α} {f : α → Outcome β} {b : β} :
    (x >>= f) = .ok b ↔ ∃ a, x = .ok a ∧ f a = .ok b := by
  cases x with
  | ok a => simp
  | hang => simp
  | fault => simp

theorem ok_ne_hang (a : α) : Outcome.ok a ≠ .hang := by
  intro h
  cases h

theorem fault_ne_hang : (Outcome.fault : Outcome α) ≠ .hang := by
  intro h
  cases h

/-- A sequence spins only where one of its parts does. -/
theorem bind_ne_hang {x : Outcome α} {f : α → Outcome β} (hx : x ≠ .hang)
    (hf : ∀ a, x = .ok a → f a ≠ .hang) : (x >>= f) ≠ .hang := by
  cases x with
  | ok a => exact hf a rfl
  | hang => exact absurd rfl hx
  | fault => exact fun h => nomatch h

theorem bind_ok_ne_hang {x : Outcome α} {f : α → β} (hx : x ≠ .hang) :
    (x >>= fun a => .ok (f a)) ≠ .hang :=
  bind_ne_hang hx fun _ _ => ok_ne_hang _

/-- A sequence goes wrong only where one of its parts does. -/
theorem bind_ne_fault {x : Outcome α} {f : α → Outcome β} (hx : x ≠ .fault)
    (hf : ∀ a, x = .ok a → f a ≠ .fault) : (x >>= f) ≠ .fault := by
  cases x with
  | ok a => exact hf a rfl
  | hang => exact fun h => nomatch h
  | fault => exact absurd rfl hx

/-- When the second part never goes wrong, the sequence does exactly where the first part does. -/
theorem bind_eq_fault {x : Outcome α} {f : α → Outcome β} (hf : ∀ a, f a ≠ .fault) :
    (x >>= f) = .fault ↔ x = .fault := by
  cases x with
  | ok a => exact iff_of_false (hf a) (fun h => nomatch h)
  | hang => exact iff_of_false (fun h => nomatch h) (fun h => nomatch h)
  | fault => exact iff_of_true rfl rfl

theorem bind_ok_eq_fault {x : Outcome α} {f : α → β} :
    (x >>= fun a => .ok (f a)) = .fault ↔ x = .fault :=
  bind_eq_fault fun _ h => nomatch h

/-- The value, when there is one. -/
def toOption : Outcome α → Option α
  | .ok a => some a
  | .hang => none
  | .fault => none

@[simp] theorem toOption_eq_some {x : Outcome α} {a : α} :
    x.toOption = some a ↔ x = .ok a := by
  cases x <;> simp [toOption]

/-- `x.Ensures Q`: if `x` comes back, its value satisfies `Q`. -/
def Ensures (x : Outcome α) (Q : α → Prop) : Prop := ∀ a, x = .ok a → Q a

theorem Ensures.ok {a : α} {Q : α → Prop} (h : Q a) : (Outcome.ok a).Ensures Q := by
  intro b hb
  cases hb
  exact h

theorem Ensures.hang {Q : α → Prop} : (Outcome.hang : Outcome α).Ensures Q := by
  intro b hb
  cases hb

theorem Ensures.fault {Q : α → Prop} : (Outcome.fault : Outcome α).Ensures Q := by
  intro b hb
  cases hb

/-- **Composition.** What the first part ensures is what the second may assume. -/
theorem Ensures.bind {x : Outcome α} {f : α → Outcome β} {Q : α → Prop} {R : β → Prop}
    (hx : x.Ensures Q) (hf : ∀ a, Q a → (f a).Ensures R) : (x >>= f).Ensures R := by
  intro b hb
  obtain ⟨a, ha, hfa⟩ := bind_eq_ok.mp hb
  exact hf a (hx a ha) b hfa

end Outcome

end TpeSo.Lib
