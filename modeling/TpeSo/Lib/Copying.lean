import Mathlib.Data.List.Pairwise
import Mathlib.Logic.Function.Basic

namespace TpeSo.Lib

/-!
# Copying item by item

A store is changed by assignments of the form `dst i := src i`, one after the other.  The
places of the sources and of the destinations may share cells.

* `Copied` — of two stores: the items `is` of the second are those of the first, and nothing
  else has changed;
* `Copied.single`, `Copied.append` — one assignment, and a sequence of them none of which
  spoils what a later one reads or what an earlier one has written;
* `Copied.unique` — there is only one such store, however it has come about.
-/

variable {ι A B : Type} {dst src : ι → A} {is js : List ι} {i : ι} {mem mem' mem'' : A → B}

/-- The items `is` have been copied, as they were in `mem`, and nothing else has changed. -/
structure Copied (dst src : ι → A) (is : List ι) (mem mem' : A → B) : Prop where
  copied : ∀ i ∈ is, mem' (dst i) = mem (src i)
  kept : ∀ a, (∀ i ∈ is, dst i ≠ a) → mem' a = mem a

/-- Copying the item `i` spoils neither the item `j` before it is read, nor afterwards. -/
def Spares (dst src : ι → A) (i j : ι) : Prop := dst i ≠ dst j ∧ dst i ≠ src j

namespace Copied

theorem nil : Copied dst src [] mem mem :=
  ⟨fun _ hi => absurd hi List.not_mem_nil, fun _ _ => rfl⟩

/-- One assignment. -/
theorem single [DecidableEq A] (mem : A → B) (i : ι) :
    Copied dst src [i] mem (Function.update mem (dst i) (mem (src i))) where
  copied j hj := by
    rw [List.mem_singleton.mp hj]
    exact Function.update_self ..
  kept a ha := Function.update_of_ne (ha i List.mem_cons_self).symm _ _

/-- **One part after the other.** -/
theorem append (h : Copied dst src is mem mem') (h' : Copied dst src js mem' mem'')
    (hspares : ∀ i ∈ is, ∀ j ∈ js, Spares dst src i j) :
    Copied dst src (is ++ js) mem mem'' where
  copied i hi := by
    rcases List.mem_append.mp hi with hi | hi
    · rw [h'.kept _ fun j hj heq => (hspares i hi j hj).1 heq.symm, h.copied i hi]
    · rw [h'.copied i hi, h.kept _ fun j hj => (hspares j hj i hi).2]
  kept a ha := by
    rw [h'.kept a fun j hj => ha j (List.mem_append_right _ hj),
      h.kept a fun i hi => ha i (List.mem_append_left _ hi)]

theorem cons [DecidableEq A] (hspares : ∀ j ∈ is, Spares dst src i j)
    (h : Copied dst src is (Function.update mem (dst i) (mem (src i))) mem') :
    Copied dst src (i :: is) mem mem' :=
  (single mem i).append h fun _ hj => List.mem_singleton.mp hj ▸ hspares

/-- The order of the items does not show. -/
theorem congr (h : Copied dst src is mem mem') (hmem : ∀ i, i ∈ is ↔ i ∈ js) :
    Copied dst src js mem mem' :=
  ⟨fun i hi => h.copied i ((hmem i).mpr hi), fun a ha => h.kept a fun i hi => ha i ((hmem i).mp hi)⟩

theorem unique (h : Copied dst src is mem mem') (h' : Copied dst src is mem mem'') :
    mem' = mem'' := by
  funext a
  by_cases ha : ∃ i ∈ is, dst i = a
  · obtain ⟨i, hi, rfl⟩ := ha
    rw [h.copied i hi, h'.copied i hi]
  · have hother : ∀ i ∈ is, dst i ≠ a := fun i hi heq => ha ⟨i, hi, heq⟩
    rw [h.kept a hother, h'.kept a hother]

end Copied

end TpeSo.Lib
