import Mathlib.Data.Finset.Card
import Mathlib.Data.Finset.Lattice.Basic

namespace TpeSo.Lib

/-!
# Counting the places of a table

A table `f` gives every place a content.  `tally s P f` counts the places of the finite
set `s` whose content has the property `P`; reference counts are such numbers.

* `tally_update` — overwriting one place changes the count by that place alone;
* `tally_eq_zero` — what the count `0` says.
-/

variable {ι β : Type} {s : Finset ι} {P : β → Prop} [DecidablePred P] {f g : ι → β}

/-- The places of `s` whose content has the property `P`. -/
def holders (s : Finset ι) (P : β → Prop) [DecidablePred P] (f : ι → β) : Finset ι :=
  s.filter fun x => P (f x)

/-- How many places of `s` have a content with the property `P`. -/
def tally (s : Finset ι) (P : β → Prop) [DecidablePred P] (f : ι → β) : Nat :=
  (holders s P f).card

@[simp] theorem mem_holders {x : ι} : x ∈ holders s P f ↔ x ∈ s ∧ P (f x) :=
  Finset.mem_filter

theorem tally_eq_zero : tally s P f = 0 ↔ ∀ x ∈ s, ¬ P (f x) := by
  rw [tally, Finset.card_eq_zero, holders, Finset.filter_eq_empty_iff]

theorem tally_congr {t : Finset ι} (h : ∀ x, x ∈ s ∧ P (f x) ↔ x ∈ t ∧ P (g x)) :
    tally s P f = tally t P g := by
  unfold tally
  congr 1
  ext x
  rw [mem_holders, mem_holders, h]

variable [DecidableEq ι]

/-- The holders after one place has been overwritten. -/
theorem holders_update (f : ι → β) {x : ι} (hx : x ∈ s) (b : β) :
    holders s P (Function.update f x b) =
      if P b then insert x (holders s P f) else (holders s P f).erase x := by
  ext y
  by_cases hy : y = x
  · subst hy
    split <;> simp_all
  · split <;> simp [hy]

/-- **Overwriting one place** takes its old content out of the count and puts the new one
    in. -/
theorem tally_update (f : ι → β) {x : ι} (hx : x ∈ s) (b : β) :
    tally s P (Function.update f x b) + (if P (f x) then 1 else 0) =
      tally s P f + (if P b then 1 else 0) := by
  have hmem : x ∈ holders s P f ↔ P (f x) := by simp [hx]
  unfold tally
  rw [holders_update f hx]
  by_cases hold : P (f x)
  · have hin := hmem.mpr hold
    have hpos : 0 < (holders s P f).card := Finset.card_pos.mpr ⟨x, hin⟩
    by_cases hnew : P b
    · simp only [hold, hnew, if_true, Finset.insert_eq_of_mem hin]
    · simp only [hold, hnew, if_true, if_false, Finset.card_erase_of_mem hin]
      omega
  · have hout := mt hmem.mp hold
    by_cases hnew : P b
    · simp only [hold, hnew, if_true, if_false, Finset.card_insert_of_notMem hout]
    · simp only [hold, hnew, if_false, Finset.erase_eq_of_notMem hout]

end TpeSo.Lib
