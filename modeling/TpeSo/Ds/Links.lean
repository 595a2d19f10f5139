import Mathlib.Logic.Function.Basic
import TpeSo.Lib.Chain
import TpeSo.Lib.Outcome

namespace TpeSo.Ds

open Lib

/-!
# `ds/queue.h` — the nodes behind a queue

`struct queue` is a doubly linked chain of nodes and a count.  A node that has been freed
keeps its bytes until its memory is handed out again.

* `LinkedQueue.Holds q as` — `q` consists of the nodes at the addresses `as`;
* `queueNodeRemove` — unlink and free one of them;
* `LinkedQueue.Holds.remove` — **the others stay, in order**, and the loop that had arrived
  at the freed node finds the next one;
* `LinkedQueue.enqueue`, `LinkedQueue.dequeue`, `LinkedQueue.queueRemove` — the other
  operations, and `Holds.enqueue`, `Holds.dequeue`, `Holds.queueRemove` what they do: every
  removal comes to that of `queueNodeRemove`.
-/

variable {α : Type}

/-- `struct queue` with the nodes, and the `value` each holds. -/
structure LinkedQueue (α : Type) where
  chain : Chain Nat
  value : Nat → α
  count : Nat

/-- The queue consists of the nodes `as`, which are correctly linked both ways. -/
structure LinkedQueue.Holds (q : LinkedQueue α) (as : List Nat) : Prop where
  spells : q.chain.Spells as
  count_eq : q.count = as.length

/-- `queue_node_remove` of a node that is not `NULL`. -/
def queueNodeRemove (q : LinkedQueue α) (node : Nat) : LinkedQueue α :=
  if q.count = 0 then q
  else { q with chain := q.chain.unlink node, count := q.count - 1 }

@[simp] theorem queueNodeRemove_value (q : LinkedQueue α) (node : Nat) :
    (queueNodeRemove q node).value = q.value := by
  unfold queueNodeRemove
  split <;> rfl

/-- **Removing a node.** -/
theorem LinkedQueue.Holds.remove {q : LinkedQueue α} {xs ys : List Nat} {node : Nat}
    (h : q.Holds (xs ++ node :: ys)) :
    (queueNodeRemove q node).Holds (xs ++ ys) ∧
      (queueNodeRemove q node).chain.next node = ys.head? := by
  have hcount := h.count_eq
  rw [List.length_append, List.length_cons] at hcount
  rw [queueNodeRemove, if_neg (by omega)]
  refine ⟨⟨h.spells.unlink, ?_⟩, h.spells.unlink_next⟩
  show q.count - 1 = (xs ++ ys).length
  rw [List.length_append]
  omega

theorem LinkedQueue.Holds.removeHead {q : LinkedQueue α} {as : List Nat} {node : Nat}
    (h : q.Holds (node :: as)) : (queueNodeRemove q node).Holds as := by
  have hcut : q.Holds ([] ++ node :: as) := h
  exact hcut.remove.1

/-- The node behind one that stays. -/
theorem LinkedQueue.Holds.next {q : LinkedQueue α} {xs ys : List Nat} {node : Nat}
    (h : q.Holds (xs ++ node :: ys)) : q.chain.next node = ys.head? :=
  (h.spells.linked xs node ys rfl).2

/-! ### The other operations -/

namespace LinkedQueue

/-- `QUEUE_NEW` and `queue_new`, whatever the memory for nodes holds. -/
def new (chain : Chain Nat) (value : Nat → α) : LinkedQueue α where
  chain := { chain with head := none, tail := none }
  value := value
  count := 0

/-- `enqueue`, `node` being what `kmalloc` returns for the new node. -/
def enqueue (q : LinkedQueue α) (node : Option Nat) (value : α) :
    Outcome (LinkedQueue α × Option Nat) :=
  match node with
  | none => .ok (q, none)
  | some node =>
    let chain := (q.chain.setPrev (some node) none).setNext (some node) none
    let values := Function.update q.value node value
    if q.count = 0 then
      let chain := { chain with head := some node, tail := some node }
      .ok (⟨chain, values, q.count + 1⟩, some node)
    else
      let chain := chain.setPrev (some node) chain.tail
      match chain.tail with
      | none => .fault
      | some tail =>
        let chain := { chain.setNext (some tail) (some node) with tail := some node }
        .ok (⟨chain, values, q.count + 1⟩, some node)

/-- `dequeue`: the value, `none` for `NULL` on an empty queue. -/
def dequeue (q : LinkedQueue α) : Outcome (LinkedQueue α × Option α) :=
  if q.count = 0 then .ok (q, none)
  else
    match q.chain.head with
    | none => .fault
    | some head =>
      let chain := { q.chain with head := q.chain.next head }
      let chain := chain.setPrev chain.head none
      let chain := { chain with tail := if chain.tail = some head then none else chain.tail }
      .ok (⟨chain, q.value, q.count - 1⟩, some (q.value head))

/-- What `queue_remove` does with the `node` it has found. -/
def removeFound (q : LinkedQueue α) (node : Nat) : Outcome (LinkedQueue α) :=
  if q.chain.prev node = none then do
    let (q, _) ← q.dequeue
    .ok q
  else if q.chain.next node = none then
    match q.chain.tail with
    | none => .fault
    | some tail =>
      let chain := { q.chain with tail := q.chain.prev tail }
      match chain.tail with
      | none => .fault
      | some tail => .ok ⟨chain.setNext (some tail) none, q.value, q.count - 1⟩
  else
    let chain := q.chain.setNext (q.chain.prev node) (q.chain.next node)
    let chain := chain.setPrev (chain.next node) (chain.prev node)
    .ok ⟨chain, q.value, q.count - 1⟩

/-- The loop of `queue_free`. -/
def freeLoop : Nat → LinkedQueue α → Outcome (LinkedQueue α)
  | 0, _ => .hang
  | fuel + 1, q =>
    if q.chain.head = none then .ok q
    else do
      let (q, _) ← q.dequeue
      freeLoop fuel q

/-- `queue_free`: the queue as it is when its own memory is freed. -/
def queueFree (q : LinkedQueue α) : Outcome (LinkedQueue α) := freeLoop (q.count + 1) q

variable [DecidableEq α]

/-- The loop of `queue_remove`, from `node` on. -/
def removeLoop (q : LinkedQueue α) (value : α) : Nat → Option Nat → Outcome (LinkedQueue α)
  | 0, _ => .hang
  | _ + 1, none => .ok q
  | fuel + 1, some node =>
    if q.value node = value then q.removeFound node
    else q.removeLoop value fuel (q.chain.next node)

/-- `queue_remove`.  The loop comes to `count` nodes at most. -/
def queueRemove (q : LinkedQueue α) (value : α) : Outcome (LinkedQueue α) :=
  if q.count = 0 then .ok q else q.removeLoop value (q.count + 1) q.chain.head

end LinkedQueue

namespace LinkedQueue.Holds

variable {q : LinkedQueue α} {as xs ys : List Nat} {node : Nat}

theorem new (chain : Chain Nat) (value : Nat → α) : (LinkedQueue.new chain value).Holds [] where
  spells := ⟨List.nodup_nil, rfl, rfl, fun xs _ _ he => by simp at he⟩
  count_eq := rfl

/-- **A new node goes to the end.** -/
theorem enqueue (h : q.Holds as) (hnode : node ∉ as) (value : α) :
    ∃ q' : LinkedQueue α, q.enqueue (some node) value = .ok (q', some node) ∧
      q'.Holds (as ++ [node]) ∧ q'.value = Function.update q.value node value := by
  have hcount : q.count + 1 = (as ++ [node]).length := by
    rw [h.count_eq, List.length_append, List.length_singleton]
  refine ⟨⟨q.chain.append node, Function.update q.value node value, q.count + 1⟩, ?_,
    ⟨h.spells.append hnode, hcount⟩, rfl⟩
  unfold LinkedQueue.enqueue
  rcases List.eq_nil_or_concat' as with rfl | ⟨as, last, rfl⟩
  · -- both ends move onto the new node
    have hzero : q.count = 0 := h.count_eq
    rw [h.spells.append_nil]
    exact if_pos hzero
  · have htail : q.chain.tail = some last := by rw [h.spells.tail, List.getLast?_concat]
    have hne : node ≠ last := fun he => hnode (by simp [he])
    have hsome : q.count ≠ 0 := by
      rw [h.count_eq, List.length_append, List.length_singleton]
      exact Nat.succ_ne_zero _
    dsimp only
    rw [if_neg hsome, h.spells.append_last hne]
    simp only [Chain.setPrev, Chain.setNext, htail]

/-- The first node. -/
theorem dequeue (h : q.Holds (node :: as)) :
    q.dequeue = .ok (queueNodeRemove q node, some (q.value node)) := by
  have hcount : q.count ≠ 0 := by
    rw [h.count_eq]
    exact Nat.succ_ne_zero _
  have hhead : q.chain.head = some node := h.spells.head
  unfold LinkedQueue.dequeue queueNodeRemove
  rw [if_neg hcount, if_neg hcount, hhead, h.spells.unlink_first]
  rfl

theorem dequeue_nil (h : q.Holds []) : q.dequeue = .ok (q, none) := if_pos h.count_eq

/-- The node that `queue_remove` has found, wherever it stands. -/
theorem removeFound (h : q.Holds (xs ++ node :: ys)) :
    q.removeFound node = .ok (queueNodeRemove q node) := by
  obtain ⟨hprev, hnext⟩ := h.spells.linked xs node ys rfl
  have hcount : q.count ≠ 0 := by
    rw [h.count_eq, List.length_append, List.length_cons]
    exact Nat.succ_ne_zero _
  unfold LinkedQueue.removeFound
  rcases List.eq_nil_or_concat' xs with rfl | ⟨xs, x, rfl⟩
  · -- the head goes through `dequeue`
    have hhead : q.dequeue = .ok (queueNodeRemove q node, some (q.value node)) := h.dequeue
    rw [hprev, List.getLast?_nil, if_pos rfl, hhead, Outcome.ok_bind]
  rw [hprev, List.getLast?_concat, if_neg (Option.some_ne_none x), queueNodeRemove, if_neg hcount]
  cases ys with
  | nil =>
    have htail : q.chain.tail = some node := by rw [h.spells.tail, List.getLast?_concat]
    rw [hnext, List.head?_nil, if_pos rfl, htail, h.spells.unlink_last (by simp)]
    dsimp only
    rw [hprev, List.getLast?_concat]
    rfl
  | cons y ys =>
    rw [hnext, List.head?_cons, if_neg (Option.some_ne_none y),
      h.spells.unlink_middle (by simp) (by simp)]
    -- the first of the two assignments is not to `node`
    have hx : some x ≠ some node := fun he =>
      h.spells.ne_of_mem (.inl (by simp)) (Option.some.inj he)
    have hstay : (q.chain.setNext (some x) (some y)).next node = some y :=
      (if_neg hx).trans hnext
    have hkeep : (q.chain.setNext (some x) (some y)).prev node = some x := by
      rw [← List.getLast?_concat (l := xs), ← hprev]
      rfl
    dsimp only
    rw [hstay, hkeep, hnext, hprev, List.getLast?_concat]
    rfl

/-- The first of the nodes that have the property goes, if there is one. -/
theorem removeFirst (h : q.Holds as) (p : Nat → Bool) :
    ((as.find? p).elim q (queueNodeRemove q)).Holds (as.eraseP p) := by
  cases hfind : as.find? p with
  | none =>
    rw [List.eraseP_of_forall_not (List.find?_eq_none.mp hfind)]
    exact h
  | some node =>
    obtain ⟨hp, xs, ys, rfl, hxs⟩ := List.find?_eq_some_iff_append.mp hfind
    have hnone : ∀ a ∈ xs, ¬ p a = true := fun a ha => by simpa using hxs a ha
    rw [List.eraseP_append_right _ hnone, List.eraseP_cons_of_pos hp]
    exact h.remove.1

/-- The loop of `queue_free` takes out one node after the other. -/
theorem freeLoop : ∀ {as : List Nat} {q : LinkedQueue α} {fuel : Nat}, q.Holds as →
    as.length < fuel →
    ∃ q' : LinkedQueue α, LinkedQueue.freeLoop fuel q = .ok q' ∧ q'.Holds [] := by
  intro as
  induction as with
  | nil =>
    intro q fuel h hfuel
    obtain ⟨fuel, rfl⟩ : ∃ f, fuel = f + 1 := ⟨fuel - 1, by simp at hfuel; omega⟩
    exact ⟨q, if_pos h.spells.head, h⟩
  | cons node as ih =>
    intro q fuel h hfuel
    rw [List.length_cons] at hfuel
    obtain ⟨fuel, rfl⟩ : ∃ f, fuel = f + 1 := ⟨fuel - 1, by omega⟩
    have hhead : ¬ q.chain.head = none := by simp [h.spells.head]
    have hrest : (queueNodeRemove q node).Holds as := h.removeHead
    obtain ⟨q', hq', hholds⟩ := ih hrest (by omega : as.length < fuel)
    refine ⟨q', ?_, hholds⟩
    rw [LinkedQueue.freeLoop, if_neg hhead, h.dequeue, Outcome.ok_bind]
    exact hq'

/-- **`queue_free`** leaves no node. -/
theorem queueFree (h : q.Holds as) :
    ∃ q' : LinkedQueue α, q.queueFree = .ok q' ∧ q'.Holds [] :=
  freeLoop h (by rw [h.count_eq]; omega)

variable [DecidableEq α]

/-- The loop of `queue_remove`, which has come to the nodes `ys`. -/
theorem removeLoop (value : α) : ∀ {ys xs : List Nat} {fuel : Nat}, q.Holds (xs ++ ys) →
    ys.length < fuel → q.removeLoop value fuel ys.head? =
      .ok ((ys.find? (q.value · = value)).elim q (queueNodeRemove q)) := by
  intro ys
  induction ys with
  | nil =>
    intro xs fuel _ hfuel
    obtain ⟨fuel, rfl⟩ : ∃ f, fuel = f + 1 := ⟨fuel - 1, by simp at hfuel; omega⟩
    rfl
  | cons node ys ih =>
    intro xs fuel h hfuel
    rw [List.length_cons] at hfuel
    obtain ⟨fuel, rfl⟩ : ∃ f, fuel = f + 1 := ⟨fuel - 1, by omega⟩
    rw [List.head?_cons, LinkedQueue.removeLoop]
    by_cases hv : q.value node = value
    · rw [if_pos hv, h.removeFound, List.find?_cons_of_pos (by simp [hv])]
      rfl
    · rw [if_neg hv, h.next, List.find?_cons_of_neg (by simp [hv])]
      have hbehind : q.Holds ((xs ++ [node]) ++ ys) := by simpa using h
      exact ih hbehind (by omega)

/-- **`queue_remove`** takes out the first node with the value. -/
theorem queueRemove (h : q.Holds as) (value : α) : q.queueRemove value =
    .ok ((as.find? (q.value · = value)).elim q (queueNodeRemove q)) := by
  unfold LinkedQueue.queueRemove
  split
  · rename_i hzero
    rw [h.count_eq] at hzero
    rw [List.length_eq_zero_iff.mp hzero]
    rfl
  · have hall : q.Holds ([] ++ as) := h
    rw [h.spells.head]
    exact hall.removeLoop value (by rw [h.count_eq]; omega)

end LinkedQueue.Holds

end TpeSo.Ds
