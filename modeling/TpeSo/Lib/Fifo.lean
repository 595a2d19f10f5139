import Mathlib.Data.List.Nodup

namespace TpeSo.Lib

/-!
# Semaphores that hand over in order

* `Fifo` — a counter and the participants that wait, in the order in which they have come;
  a post hands over to the first of them;
* `Queued s waits` — the queue has no duplicates, and everybody in it waits;
* `value_of_granted`, `value_of_counted`, `value_of_handed` — what becomes of the counter.
-/

/-- A counting semaphore with a queue. -/
structure Fifo (P : Type) where
  value : Nat := 0
  queue : List P := []

namespace Fifo

variable {P : Type} {s : Fifo P} {p q : P}

/-- `p` waits: it takes one of the counter, or it joins the queue. -/
def wait (s : Fifo P) (p : P) : Fifo P × Bool :=
  if 0 < s.value then ({ s with value := s.value - 1 }, true)
  else ({ s with queue := s.queue ++ [p] }, false)

/-- A post: the first of the queue goes on, or the counter grows. -/
def post (s : Fifo P) : Fifo P × Option P :=
  match s.queue with
  | [] => ({ s with value := s.value + 1 }, none)
  | p :: ps => ({ s with queue := ps }, some p)

/-- `p` waits no longer. -/
def drop [DecidableEq P] (s : Fifo P) (p : P) : Fifo P :=
  { s with queue := s.queue.filter fun q => q ≠ p }

/-! ### The queue -/

theorem queue_of_wait (h : (s.wait p).2 = true) : (s.wait p).1.queue = s.queue := by
  unfold wait at h ⊢
  split at h
  · next hpos => rw [if_pos hpos]
  · cases h

theorem queue_of_post (h : s.post.2 = none) : s.post.1.queue = s.queue := by
  unfold post at h ⊢
  split at h
  · rfl
  · cases h

theorem mem_of_mem_post (h : q ∈ s.post.1.queue) : q ∈ s.queue := by
  unfold post at h
  split at h
  · exact h
  · next hq => exact hq ▸ List.mem_cons_of_mem _ h

theorem mem_of_post (h : s.post.2 = some p) : p ∈ s.queue := by
  unfold post at h
  split at h
  · cases h
  · next hq =>
    cases h
    exact hq ▸ List.mem_cons_self

/-- Nobody is queued twice, and everybody who is queued waits. -/
structure Queued (s : Fifo P) (waits : P → Prop) : Prop where
  nodup : s.queue.Nodup
  waits : ∀ q ∈ s.queue, waits q

namespace Queued

variable {waits waits' : P → Prop}

theorem mono (h : Queued s waits) (himp : ∀ q ∈ s.queue, waits q → waits' q) :
    Queued s waits' :=
  ⟨h.nodup, fun q hq => himp q hq (h.waits q hq)⟩

theorem wait (h : Queued s waits) (hp : p ∉ s.queue) (hw : waits p) : Queued (s.wait p).1 waits := by
  unfold Fifo.wait
  split
  · exact ⟨h.nodup, h.waits⟩
  · refine ⟨?_, fun q hq => ?_⟩
    · rw [← List.concat_eq_append]
      exact h.nodup.concat hp
    · obtain hq | hq := List.mem_append.mp hq
      · exact h.waits q hq
      · rw [List.mem_singleton.mp hq]
        exact hw

theorem post (h : Queued s waits) : Queued s.post.1 waits := by
  unfold Fifo.post
  split
  · exact ⟨h.nodup, h.waits⟩
  · next hq =>
    refine ⟨(List.nodup_cons.mp (hq ▸ h.nodup)).2, fun q hmem => h.waits q ?_⟩
    rw [hq]
    exact List.mem_cons_of_mem _ hmem

/-- Who has been handed over to is in the queue no longer. -/
theorem not_mem_post (h : Queued s waits) (hp : s.post.2 = some p) : p ∉ s.post.1.queue := by
  unfold Fifo.post at hp ⊢
  split at hp
  · cases hp
  · next hq =>
    cases hp
    exact (List.nodup_cons.mp (hq ▸ h.nodup)).1

theorem drop [DecidableEq P] (h : Queued s waits) (p : P) :
    Queued (s.drop p) fun q => waits q ∧ q ≠ p := by
  refine ⟨h.nodup.filter _, fun q hq => ?_⟩
  obtain ⟨hmem, hne⟩ := List.mem_filter.mp hq
  exact ⟨h.waits q hmem, of_decide_eq_true hne⟩

end Queued

/-! ### The counter -/

theorem value_of_granted (h : (s.wait p).2 = true) :
    0 < s.value ∧ (s.wait p).1.value = s.value - 1 := by
  unfold wait at h ⊢
  split at h
  · next hpos =>
    rw [if_pos hpos]
    exact ⟨hpos, rfl⟩
  · cases h

theorem value_of_queued (h : (s.wait p).2 = false) : (s.wait p).1.value = s.value := by
  unfold wait at h ⊢
  split at h
  · cases h
  · next hpos => rw [if_neg hpos]

theorem value_of_counted (h : s.post.2 = none) : s.post.1.value = s.value + 1 := by
  unfold post at h ⊢
  split at h
  · rfl
  · cases h

theorem value_of_handed (h : s.post.2 = some p) : s.post.1.value = s.value := by
  unfold post at h ⊢
  split at h
  · cases h
  · rfl

end Fifo

end TpeSo.Lib
