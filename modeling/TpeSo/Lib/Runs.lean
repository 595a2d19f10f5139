import Mathlib.Order.Lattice.Nat

namespace TpeSo.Lib

/-!
# Runs of free places

A row of `size` places, each free or taken.

* `Fits free size n i` — `n` free places in a row, from `i` on;
* `Fits.avoids` — a run of free places lies on one side of a place that is taken;
* `longestRun` — how many free places there are in a row, at most.
-/

variable {free : Nat → Prop} {size n m i p : Nat}

/-- The `n` places from `i` on are places of the row, and free. -/
structure Fits (free : Nat → Prop) (size n i : Nat) : Prop where
  room : i + n ≤ size
  free : ∀ j < n, free (i + j)

namespace Fits

theorem mono (h : Fits free size n i) (hm : m ≤ n) : Fits free size m i where
  room := le_trans (Nat.add_le_add_left hm i) h.room
  free j hj := h.free j (lt_of_lt_of_le hj hm)

theorem le_size (h : Fits free size n i) : n ≤ size := le_trans (Nat.le_add_left n i) h.room

theorem of_pos (h : Fits free size n i) (hi : i ≤ p) (hp : p < i + n) : free p := by
  have hfree := h.free (p - i) (by omega)
  rwa [Nat.add_sub_cancel' hi] at hfree

/-- A run of free places lies on one side of a place that is taken. -/
theorem avoids (h : Fits free size n i) (hp : ¬ free p) : p < i ∨ i + n ≤ p := by
  by_contra hin
  rw [not_or, not_lt, not_le] at hin
  exact hp (h.of_pos hin.1 hin.2)

end Fits

/-- The length of a longest run of free places. -/
noncomputable def longestRun (free : Nat → Prop) (size : Nat) : Nat :=
  sSup {n | ∃ i, Fits free size n i}

theorem fits_bddAbove (free : Nat → Prop) (size : Nat) : BddAbove {n | ∃ i, Fits free size n i} :=
  ⟨size, fun _ ⟨_, h⟩ => h.le_size⟩

/-- There are `n` free places in a row exactly when a longest run has so many. -/
theorem le_longestRun_iff : n ≤ longestRun free size ↔ ∃ i, Fits free size n i := by
  constructor
  · intro hn
    have hne : {n | ∃ i, Fits free size n i}.Nonempty :=
      ⟨0, 0, Nat.zero_le _, fun _ hj => absurd hj (Nat.not_lt_zero _)⟩
    obtain ⟨i, h⟩ := Nat.sSup_mem hne (fits_bddAbove free size)
    exact ⟨i, h.mono hn⟩
  · exact fun h => le_csSup (fits_bddAbove free size) h

theorem longestRun_le (free : Nat → Prop) (size : Nat) : longestRun free size ≤ size := by
  obtain ⟨i, h⟩ := le_longestRun_iff.mp (le_refl (longestRun free size))
  exact h.le_size

end TpeSo.Lib
