import Mathlib.Data.List.DropRight
import Mathlib.Data.List.TakeWhile

namespace TpeSo.Lib

/-!
# The pieces of a list

A test tells the separators from the rest.

* `pieces` — the maximal runs without a separator, in order;
* `pieces_eq_cons` — the first of them, and what is left;
* `unfinished` — how many there are when one may have begun already, element by element;
* `trimmed` — a list without the separators at its ends.
-/

variable {α : Type} {p : α → Bool} {a : α} {l w : List α}

/-- The maximal runs of elements that are no separators. -/
def pieces (p : α → Bool) (l : List α) : List (List α) :=
  (l.splitOnP p).filter fun w => !w.isEmpty

@[simp] theorem pieces_nil : pieces p ([] : List α) = [] := by
  simp [pieces]

/-- A separator in front. -/
theorem pieces_cons (ha : p a = true) (l : List α) : pieces p (a :: l) = pieces p l := by
  have hsplit := List.splitOnP_append_cons (p := p) [] l ha
  rw [List.nil_append, List.splitOnP_nil, List.singleton_append] at hsplit
  rw [pieces, hsplit]
  simp [pieces]

theorem pieces_dropWhile (l : List α) : pieces p (l.dropWhile p) = pieces p l := by
  induction l with
  | nil => rfl
  | cons a l ih =>
    cases ha : p a with
    | true => rw [List.dropWhile_cons_of_pos ha, ih, pieces_cons ha]
    | false => rw [List.dropWhile_cons_of_neg (by simp [ha])]

/-- A piece at the end. -/
theorem pieces_self (hw : ∀ x ∈ w, p x = false) (hne : w ≠ []) : pieces p w = [w] := by
  rw [pieces, List.splitOnP_eq_singleton hw]
  simp [hne]

/-- A piece and the separator behind it. -/
theorem pieces_append_cons (hw : ∀ x ∈ w, p x = false) (hne : w ≠ []) (ha : p a = true)
    (l : List α) : pieces p (w ++ a :: l) = w :: pieces p l := by
  rw [pieces, List.splitOnP_append_cons_of_forall_mem hw a ha,
    List.filter_cons_of_pos (by simp [hne])]
  rfl

theorem not_of_mem_takeWhile_not {x : α} (hx : x ∈ l.takeWhile fun a => !p a) : p x = false := by
  have hnot := List.mem_takeWhile_imp hx
  simpa using hnot

theorem not_of_dropWhile_eq_cons (h : l.dropWhile p = a :: w) : p a = false := by
  have hhead := List.dropWhile_get_zero_not p l (by rw [h]; exact Nat.succ_pos _)
  simpa [h] using hhead

/-- **The first piece** of a list that does not begin with a separator, and those behind it. -/
theorem pieces_eq_cons (ha : p a = false) (l : List α) :
    pieces p (a :: l) = (a :: l).takeWhile (fun a => !p a) ::
      pieces p ((a :: l).dropWhile fun a => !p a).tail := by
  have hpiece : ∀ x ∈ (a :: l).takeWhile (fun a => !p a), p x = false := fun x =>
    not_of_mem_takeWhile_not
  have hne : (a :: l).takeWhile (fun a => !p a) ≠ [] := by
    rw [List.takeWhile_cons_of_pos (by simp [ha])]
    exact List.cons_ne_nil _ _
  have happ := List.takeWhile_append_dropWhile (p := fun a => !p a) (l := a :: l)
  cases hrest : (a :: l).dropWhile fun a => !p a with
  | nil =>
    rw [hrest, List.append_nil] at happ
    rw [happ] at hpiece hne ⊢
    rw [pieces_self hpiece hne, List.tail_nil, pieces_nil]
  | cons b rest =>
    have hb : p b = true := by simpa using not_of_dropWhile_eq_cons hrest
    rw [hrest] at happ
    conv_lhs => rw [← happ]
    exact pieces_append_cons hpiece hne hb rest

/-- How many pieces there are when the list is read with a piece begun, or not. -/
def unfinished (p : α → Bool) (begun : Bool) (l : List α) : Nat :=
  if begun then (pieces p (l.dropWhile fun a => !p a)).length + 1 else (pieces p l).length

theorem unfinished_nil (begun : Bool) : unfinished p begun [] = begun.toNat := by
  cases begun <;> simp [unfinished]

/-- A separator ends the piece. -/
theorem unfinished_separator (ha : p a = true) (begun : Bool) (l : List α) :
    unfinished p begun (a :: l) = unfinished p false l + begun.toNat := by
  cases begun with
  | false => simp [unfinished, pieces_cons ha]
  | true => simp [unfinished, List.dropWhile_cons_of_neg, ha, pieces_cons ha]

/-- Anything else begins a piece, or belongs to the one that has begun. -/
theorem unfinished_other (ha : p a = false) (begun : Bool) (l : List α) :
    unfinished p begun (a :: l) = unfinished p true l := by
  have hdrop : (a :: l).dropWhile (fun a => !p a) = l.dropWhile fun a => !p a :=
    List.dropWhile_cons_of_pos (by simp [ha])
  cases begun with
  | true => simp only [unfinished, hdrop, if_true]
  | false =>
    have htail : pieces p (l.dropWhile fun a => !p a).tail =
        pieces p (l.dropWhile fun a => !p a) := by
      cases hrest : l.dropWhile fun a => !p a with
      | nil => rfl
      | cons b rest =>
        have hb : p b = true := by simpa using not_of_dropWhile_eq_cons hrest
        exact (pieces_cons hb rest).symm
    simp only [unfinished, pieces_eq_cons ha, hdrop, htail, List.length_cons, Bool.false_eq_true,
      if_false, if_true]

theorem unfinished_le (l : List α) : ∀ begun : Bool,
    unfinished p begun l ≤ l.length + begun.toNat := by
  induction l with
  | nil => exact fun begun => by rw [unfinished_nil]; exact Nat.le_add_left _ _
  | cons a l ih =>
    intro begun
    rw [List.length_cons]
    cases ha : p a with
    | true =>
      have hle : unfinished p false l ≤ l.length := ih false
      rw [unfinished_separator ha]
      omega
    | false =>
      have hle : unfinished p true l ≤ l.length + 1 := ih true
      rw [unfinished_other ha]
      omega

theorem length_pieces_le (l : List α) : (pieces p l).length ≤ l.length := unfinished_le l false

/-- The list without the separators at both ends. -/
def trimmed (p : α → Bool) (l : List α) : List α := (l.dropWhile p).rdropWhile p

theorem trimmed_eq_nil_iff : trimmed p l = [] ↔ ∀ a ∈ l, p a = true := by
  rw [trimmed, List.rdropWhile_eq_nil_iff]
  constructor
  · intro h a ha
    rw [← List.takeWhile_append_dropWhile (p := p) (l := l), List.mem_append] at ha
    exact ha.elim List.mem_takeWhile_imp (h a)
  · exact fun h a ha => h a ((List.dropWhile_sublist p).subset ha)

theorem rdropWhile_cons (ha : p a = false) (l : List α) :
    (a :: l).rdropWhile p = a :: l.rdropWhile p := by
  unfold List.rdropWhile
  rw [List.reverse_cons, List.dropWhile_append]
  split
  · rename_i hnil
    rw [List.isEmpty_iff.mp hnil, List.dropWhile_cons_of_neg (by simp [ha])]
    rfl
  · rw [List.reverse_append]
    rfl

/-- A list that is not trimmed away does not begin with a separator. -/
theorem trimmed_head (h : trimmed p l = a :: w) : p a = false := by
  obtain ⟨rest, hrest⟩ := List.rdropWhile_prefix (p := p) (l.dropWhile p)
  refine not_of_dropWhile_eq_cons (l := l) (w := w ++ rest) ?_
  rw [← hrest, show (l.dropWhile p).rdropWhile p = a :: w from h, List.cons_append]

end TpeSo.Lib
