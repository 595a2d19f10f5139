import Mathlib.Data.List.DropRight

namespace TpeSo.Lib

/-!
# The unfinished line at the end of a text

A text is a list of characters, in which the character `c` ends a line.

* `lastLine c s` — what stands behind the last `c`, the line that is not finished yet;
* `wholeLines c s` — the text up to there, the finished lines;
* `lastLine_drop`, `dropLast_lastLine` — how the two change when a part of the first line is
  removed, and when the newest character is.
-/

variable {α : Type} [DecidableEq α] {c : α}

/-- What stands behind the last `c`. -/
def lastLine (c : α) (s : List α) : List α := s.rtakeWhile fun x => x ≠ c

/-- The text up to and including the last `c`. -/
def wholeLines (c : α) (s : List α) : List α := s.rdropWhile fun x => x ≠ c

@[simp] theorem lastLine_nil (c : α) : lastLine c [] = [] := rfl

@[simp] theorem wholeLines_nil (c : α) : wholeLines c [] = [] := rfl

theorem lastLine_concat (s : List α) (x : α) :
    lastLine c (s ++ [x]) = if x = c then [] else lastLine c s ++ [x] := by
  rw [lastLine, List.rtakeWhile_concat]
  by_cases h : x = c
  · simp [h]
  · simp [h, lastLine]

theorem wholeLines_concat (s : List α) (x : α) :
    wholeLines c (s ++ [x]) = if x = c then s ++ [x] else wholeLines c s := by
  rw [wholeLines, List.rdropWhile_concat]
  by_cases h : x = c
  · simp [h]
  · simp [h, wholeLines]

/-- A terminator leaves nothing unfinished. -/
@[simp] theorem lastLine_terminated (s : List α) : lastLine c (s ++ [c]) = [] := by
  rw [lastLine_concat, if_pos rfl]

/-- Nothing in front of a terminator matters. -/
theorem lastLine_behind (s t : List α) : lastLine c (s ++ c :: t) = lastLine c t := by
  induction t using List.reverseRecOn with
  | nil => exact lastLine_terminated s
  | append_singleton t x ih =>
    rw [← List.cons_append, ← List.append_assoc, lastLine_concat, lastLine_concat, ih]

/-- **Removing the first line, or a part of it**, leaves the unfinished line alone. -/
theorem lastLine_drop {s : List α} (hc : c ∈ s) {n : Nat} (hn : n ≤ s.idxOf c + 1) :
    lastLine c (s.drop n) = lastLine c s := by
  have hlt : s.idxOf c < s.length := List.idxOf_lt_length_of_mem hc
  have hsplit : s.take (s.idxOf c) ++ c :: s.drop (s.idxOf c + 1) = s := by
    conv_rhs => rw [← List.take_append_drop (s.idxOf c) s, List.drop_eq_getElem_cons hlt,
      List.getElem_idxOf]
  have hwhole : lastLine c s = lastLine c (s.drop (s.idxOf c + 1)) := by
    conv_lhs => rw [← hsplit, lastLine_behind]
  rcases Nat.lt_or_eq_of_le hn with h | rfl
  · have hpart : s.drop n = (s.take (s.idxOf c)).drop n ++ c :: s.drop (s.idxOf c + 1) := by
      conv_lhs => rw [← hsplit]
      rw [List.drop_append_of_le_length (by rw [List.length_take]; omega)]
    rw [hpart, lastLine_behind, hwhole]
  · exact hwhole.symm

/-- **Taking back the newest character** of an unfinished line changes that line only. -/
theorem dropLast_lastLine {s : List α} (h : lastLine c s ≠ []) :
    lastLine c s.dropLast = (lastLine c s).dropLast ∧
      wholeLines c s.dropLast = wholeLines c s := by
  induction s using List.reverseRecOn with
  | nil => exact absurd rfl h
  | append_singleton s x _ =>
    rw [lastLine_concat] at h ⊢
    rw [wholeLines_concat, List.dropLast_concat]
    by_cases hx : x = c
    · exact absurd (if_pos hx) h
    · rw [if_neg hx, if_neg hx, List.dropLast_concat]
      exact ⟨rfl, rfl⟩

end TpeSo.Lib
