import Mathlib.Algebra.BigOperators.Group.List.Basic
import Mathlib.Algebra.GroupWithZero.Nat
import Mathlib.Dynamics.PeriodicPts.Defs

namespace TpeSo.Lib

/-!
# Weighted round robin

The head of a list is served; it stays there for as many ticks as its weight says and then
moves to the back.

* `Wheel` — the list and the ticks left to its head; `Wheel.tick`, `Wheel.start`;
* `turns` — the list with everybody repeated as often as its weight says;
* `Wheel.full_turn` — after as many ticks as the weights add up to, the wheel stands as it
  did;
* `Wheel.current_iterate` — tick after tick the heads are the entries of `turns`, over and
  over again.
-/

variable {α : Type}

/-- The list in the order of service, and the ticks left to its head. -/
structure Wheel (α : Type) where
  left : Nat
  order : List α

/-- Everybody repeated as often as its weight says. -/
def turns (w : α → Nat) (l : List α) : List α := l.flatMap fun x => List.replicate (w x) x

theorem length_turns (w : α → Nat) (l : List α) : (turns w l).length = (l.map w).sum := by
  simp [turns, List.length_flatMap]

namespace Wheel

variable {w : α → Nat}

/-- The wheel at the moment its head has come up. -/
def start (w : α → Nat) (l : List α) : Wheel α := ⟨(l.head?.map w).getD 0, l⟩

/-- One tick: the head is served once more, or the next one comes up. -/
def tick (w : α → Nat) (s : Wheel α) : Wheel α :=
  if s.left - 1 = 0 then start w (s.order.tail ++ s.order.head?.toList)
  else { s with left := s.left - 1 }

@[simp] theorem start_cons (x : α) (l : List α) : start w (x :: l) = ⟨w x, x :: l⟩ := rfl

theorem tick_one (x : α) (l : List α) : tick w ⟨1, x :: l⟩ = start w (l ++ [x]) := rfl

theorem tick_succ (n : Nat) (l : List α) : tick w ⟨n + 2, l⟩ = ⟨n + 1, l⟩ := rfl

/-- The head keeps its place for the ticks left to it, and then moves to the back. -/
theorem iterate_left (x : α) (l : List α) (n : Nat) :
    (tick w)^[n + 1] ⟨n + 1, x :: l⟩ = start w (l ++ [x]) := by
  induction n with
  | zero => exact tick_one x l
  | succ n ih => rw [Function.iterate_succ_apply, tick_succ, ih]

/-- **Part of a turn.** When everybody in `l` has been served, `l` stands behind the rest. -/
theorem iterate_turns (l : List α) (hw : ∀ x ∈ l, 0 < w x) : ∀ rest : List α,
    (tick w)^[(turns w l).length] (start w (l ++ rest)) = start w (rest ++ l) := by
  induction l with
  | nil => intro rest; simp [turns]
  | cons x l ih =>
    intro rest
    obtain ⟨n, hn⟩ : ∃ n, w x = n + 1 := Nat.exists_eq_succ_of_ne_zero (hw x (by simp)).ne'
    have hlen : (turns w (x :: l)).length = (turns w l).length + (n + 1) := by
      simp [turns, hn, Nat.add_comm]
    rw [hlen, Function.iterate_add_apply, List.cons_append, start_cons, hn, iterate_left,
      List.append_assoc, ih (fun y hy => hw y (by simp [hy])), List.append_assoc,
      List.singleton_append]

/-- **A full turn.** -/
theorem full_turn (l : List α) (hw : ∀ x ∈ l, 0 < w x) :
    Function.IsPeriodicPt (tick w) (turns w l).length (start w l) := by
  have h := iterate_turns l hw []
  rwa [List.append_nil, List.nil_append] at h

/-- The heads of the ticks to come, up to the end of the turn. -/
def upcoming (w : α → Nat) (s : Wheel α) : List α :=
  (s.order.head?.toList.flatMap fun x => List.replicate s.left x) ++ turns w s.order.tail

/-- What comes up next is at the front of what is upcoming. -/
theorem tail_upcoming_prefix (x : α) (l : List α) (n : Nat) (hw : ∀ y ∈ l ++ [x], 0 < w y) :
    (upcoming w ⟨n + 1, x :: l⟩).tail <+: upcoming w (tick w ⟨n + 1, x :: l⟩) := by
  cases n with
  | zero =>
    rw [tick_one]
    have htail : (upcoming w ⟨0 + 1, x :: l⟩).tail = turns w l := by
      simp [upcoming]
    have hstart : upcoming w (start w (l ++ [x])) = turns w (l ++ [x]) := by
      cases l <;> simp [upcoming, turns]
    rw [htail, hstart]
    exact ⟨turns w [x], by simp [turns]⟩
  | succ n =>
    rw [tick_succ]
    exact ⟨[], by simp [upcoming, List.replicate_succ]⟩

/-- Until the end of the turn, the heads are the upcoming ones. -/
theorem head_iterate (n : Nat) : ∀ s : Wheel α, 0 < s.left → (∀ x ∈ s.order, 0 < w x) →
    n < (upcoming w s).length →
    ((tick w)^[n] s).order.head? = (upcoming w s)[n]? := by
  induction n with
  | zero =>
    rintro ⟨left, order⟩ hpos hw hn
    obtain ⟨m, rfl⟩ : ∃ m, left = m + 1 := Nat.exists_eq_succ_of_ne_zero hpos.ne'
    cases order with
    | nil => simp [upcoming, turns] at hn
    | cons x l => simp [upcoming, List.replicate_succ]
  | succ n ih =>
    rintro ⟨left, order⟩ hpos hw hn
    obtain ⟨m, rfl⟩ : ∃ m, left = m + 1 := Nat.exists_eq_succ_of_ne_zero hpos.ne'
    cases order with
    | nil => simp [upcoming, turns] at hn
    | cons x l =>
      have hw' : ∀ y ∈ l ++ [x], 0 < w y := by
        intro y hy
        exact hw y (by simpa [or_comm] using hy)
      obtain ⟨more, hmore⟩ := tail_upcoming_prefix x l m hw'
      have hlen : n < (upcoming w ⟨m + 1, x :: l⟩).tail.length := by
        rw [List.length_tail]
        omega
      rw [Function.iterate_succ_apply, ih]
      · rw [← hmore, List.getElem?_append_left hlen, List.getElem?_tail]
      · cases m with
        | zero =>
          rw [tick_one]
          cases l with
          | nil => exact hw x (by simp)
          | cons y l => exact hw y (by simp)
        | succ m => exact Nat.succ_pos m
      · cases m with
        | zero => exact hw'
        | succ m => exact hw
      · rw [← hmore, List.length_append]
        omega

/-- **Weighted round robin.**  The head after `n` ticks is the `n`-th turn, counted around
    the list. -/
theorem current_iterate (l : List α) (hw : ∀ x ∈ l, 0 < w x) (hne : l ≠ []) (n : Nat) :
    ((tick w)^[n] (start w l)).order.head? = (turns w l)[n % (turns w l).length]? := by
  cases l with
  | nil => exact absurd rfl hne
  | cons x l =>
    have hup : upcoming w (start w (x :: l)) = turns w (x :: l) := by simp [upcoming, turns]
    have hpos : 0 < (turns w (x :: l)).length := by
      have hx := hw x (by simp)
      simp only [turns, List.flatMap_cons, List.length_append, List.length_replicate]
      omega
    rw [← (full_turn (x :: l) hw).iterate_mod_apply n, head_iterate, hup]
    · exact hw x (by simp)
    · exact hw
    · rw [hup]
      exact Nat.mod_lt _ hpos

end Wheel

end TpeSo.Lib
