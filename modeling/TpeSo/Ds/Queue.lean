import Mathlib.Data.List.Basic
import Mathlib.Data.List.Nodup

namespace TpeSo.Ds

/-!
# `ds/queue.h` — the kernel's queues, as lists

A `struct queue` is read as the list of the values of its nodes, from `head` to `tail`.
Every insertion allocates a node, so `enqueue` takes the outcome of that `kmalloc`.
-/

variable {α : Type}

/-- `enqueue`: append, provided the node could be allocated. -/
def enqueue (node : Bool) (q : List α) (value : α) : List α :=
  if node then q ++ [value] else q

/-- `dequeue`: the first value (`none` for `NULL` on an empty queue) and the rest. -/
def dequeue (q : List α) : Option α × List α := (q.head?, q.tail)

/-- `queue_remove`: drop the first node that holds `value`. -/
def queueRemove [BEq α] (q : List α) (value : α) : List α := q.erase value

@[simp] theorem enqueue_true (q : List α) (v : α) : enqueue true q v = q ++ [v] := rfl

@[simp] theorem enqueue_false (q : List α) (v : α) : enqueue false q v = q := rfl

@[simp] theorem dequeue_nil : dequeue ([] : List α) = (none, []) := rfl

@[simp] theorem dequeue_cons (v : α) (q : List α) : dequeue (v :: q) = (some v, q) := rfl

theorem mem_of_mem_enqueue {node : Bool} {q : List α} {v x : α}
    (h : x ∈ enqueue node q v) : x ∈ q ∨ x = v := by
  cases node with
  | false => exact Or.inl h
  | true => simpa using h

theorem mem_of_mem_queueRemove [DecidableEq α] {q : List α} {v x : α}
    (h : x ∈ queueRemove q v) : x ∈ q :=
  List.mem_of_mem_erase h

end TpeSo.Ds
