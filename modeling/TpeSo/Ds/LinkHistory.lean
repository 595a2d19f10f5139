import TpeSo.Ds.Links
import TpeSo.Ds.Queue
import TpeSo.Lib.Trace

namespace TpeSo.Ds

open Lib

/-!
# A queue of nodes is a list

Every queue of the kernel starts without a node and is changed by four operations only.

* `QueueOp`, `queueStep` — one operation on the nodes;
* `QueueOp.apply` — what it does to the list of the nodes and their values;
* `LinkedQueue.IsList` — the nodes that can be reached either way are those of the list;
* `Stores.step` — one operation does to the nodes what it does to the list;
* `queue_isList` — **after every run the queue is the list that the operations have made**;
* `map_apply` — the values alone are the queue as the scheduler's model reads it.
-/

/-- The operations on a queue, a new node being at the address that `kmalloc` returns. -/
inductive QueueOp (α : Type) where
  | enqueue (node : Nat) (value : α)
  | dequeue
  | remove (value : α)
  | nodeRemove (node : Nat)

/-- What an operation hands back. -/
inductive QueueAnswer (α : Type) where
  | node (node : Option Nat)
  | value (value : Option α)
  | done
  deriving DecidableEq

variable {α : Type} [DecidableEq α] {q q' : LinkedQueue α} {l : List (Nat × α)} {op : QueueOp α}

/-- One operation. -/
def queueStep (q : LinkedQueue α) : QueueOp α → Outcome (LinkedQueue α × QueueAnswer α)
  | .enqueue node value => do
    let (q, node) ← q.enqueue (some node) value
    .ok (q, .node node)
  | .dequeue => do
    let (q, value) ← q.dequeue
    .ok (q, .value value)
  | .remove value => do
    let q ← q.queueRemove value
    .ok (q, .done)
  | .nodeRemove node => .ok (queueNodeRemove q node, .done)

/-- The nodes that `queue_for` goes over. -/
def LinkedQueue.nodes (q : LinkedQueue α) : List Nat := walk q.chain.next q.count q.chain.head

/-- A new node is none of the queue's, and only one of the queue's is taken out by its address. -/
def QueueOp.Allowed (q : LinkedQueue α) : QueueOp α → Prop
  | .enqueue node _ => node ∉ q.nodes
  | .nodeRemove node => node ∈ q.nodes
  | _ => True

instance (q : LinkedQueue α) : ∀ op : QueueOp α, Decidable (op.Allowed q)
  | .enqueue node _ => inferInstanceAs (Decidable (node ∉ q.nodes))
  | .dequeue => instDecidableTrue
  | .remove _ => instDecidableTrue
  | .nodeRemove node => inferInstanceAs (Decidable (node ∈ q.nodes))

/-- A step of a run. -/
def queueNext (q : LinkedQueue α) (op : QueueOp α) : Option (LinkedQueue α × QueueAnswer α) :=
  (queueStep q op).toOption

/-! ### The abstract side -/

namespace QueueOp

/-- What an operation does to the list of the nodes with their values. -/
def apply : QueueOp α → List (Nat × α) → List (Nat × α)
  | .enqueue node value, l => l ++ [(node, value)]
  | .dequeue, l => l.tail
  | .remove value, l => l.eraseP (·.2 = value)
  | .nodeRemove node, l => l.eraseP (·.1 = node)

/-- What it hands back. -/
def answer : QueueOp α → List (Nat × α) → QueueAnswer α
  | .enqueue node _, _ => .node (some node)
  | .dequeue, l => .value (l.head?.map Prod.snd)
  | .remove _, _ => .done
  | .nodeRemove _, _ => .done

end QueueOp

/-- The list that the operations of a run have made. -/
def listAfter (tr : List (LinkedQueue α × QueueOp α × QueueAnswer α)) : List (Nat × α) :=
  tr.foldl (fun l x => x.2.1.apply l) []

/-- The queue is the list `l` of nodes and values: what can be reached from either end, the
    count and the ends are as they should be. -/
structure LinkedQueue.IsList (q : LinkedQueue α) (l : List (Nat × α)) : Prop where
  nodup : (l.map Prod.fst).Nodup
  forwards : Visits q.chain.next q.chain.head (l.map Prod.fst)
  backwards : Visits q.chain.prev q.chain.tail (l.map Prod.fst).reverse
  count_eq : q.count = l.length
  value_eq : ∀ e ∈ l, q.value e.1 = e.2
  head_prev : ∀ a, q.chain.head = some a → q.chain.prev a = none
  tail_next : ∀ a, q.chain.tail = some a → q.chain.next a = none
  empty : l = [] → q.chain.head = none ∧ q.chain.tail = none

/-! ### One operation -/

theorem eraseP_congr {β : Type} {p p' : β → Bool} {l : List β} (h : ∀ x ∈ l, p x = p' x) :
    l.eraseP p = l.eraseP p' := by
  induction l with
  | nil => rfl
  | cons x l ih =>
    rw [List.eraseP_cons, List.eraseP_cons, h x List.mem_cons_self,
      ih fun y hy => h y (List.mem_cons_of_mem x hy)]

/-- The nodes of the queue and their values, in order. -/
structure Stores (q : LinkedQueue α) (l : List (Nat × α)) : Prop where
  holds : q.Holds (l.map Prod.fst)
  value_eq : ∀ e ∈ l, q.value e.1 = e.2

namespace Stores

omit [DecidableEq α] in
/-- What a walk comes to. -/
theorem isList (h : Stores q l) : q.IsList l where
  nodup := h.holds.spells.nodup
  forwards := h.holds.spells.visits_next
  backwards := h.holds.spells.visits_prev
  count_eq := by rw [h.holds.count_eq, List.length_map]
  value_eq := h.value_eq
  head_prev a ha := by
    rw [h.holds.spells.head] at ha
    obtain ⟨ys, hys⟩ := List.head?_eq_some_iff.mp ha
    exact (h.holds.spells.linked [] a ys hys).1
  tail_next a ha := by
    rw [h.holds.spells.tail] at ha
    obtain ⟨xs, hxs⟩ := List.getLast?_eq_some_iff.mp ha
    exact (h.holds.spells.linked xs a [] hxs).2
  empty hl := by
    subst hl
    exact ⟨h.holds.spells.head, h.holds.spells.tail⟩

omit [DecidableEq α] in
theorem nodes_eq (h : Stores q l) : q.nodes = l.map Prod.fst := by
  rw [LinkedQueue.nodes, h.holds.count_eq]
  exact h.holds.spells.visits_next.walk_eq

omit [DecidableEq α] in
/-- The first entry that has the property goes. -/
theorem removeFirst (h : Stores q l) (p : Nat × α → Bool) (p' : Nat → Bool)
    (hp : ∀ e ∈ l, p e = p' e.1) :
    Stores (((l.map Prod.fst).find? p').elim q (queueNodeRemove q)) (l.eraseP p) := by
  have hvalue : (((l.map Prod.fst).find? p').elim q (queueNodeRemove q)).value = q.value := by
    cases (l.map Prod.fst).find? p' with
    | none => rfl
    | some node => exact queueNodeRemove_value q node
  refine ⟨?_, fun e he => ?_⟩
  · have hmap : (l.eraseP p).map Prod.fst = (l.map Prod.fst).eraseP p' := by
      rw [List.eraseP_map, eraseP_congr hp]
      rfl
    rw [hmap]
    exact h.holds.removeFirst p'
  · rw [hvalue]
    exact h.value_eq e (List.mem_of_mem_eraseP he)

/-- **One operation** does to the nodes what it does to the list. -/
theorem step (h : Stores q l) (hok : op.Allowed q) :
    ∃ q', queueStep q op = .ok (q', op.answer l) ∧ Stores q' (op.apply l) := by
  cases op with
  | enqueue node value =>
    have hnode : node ∉ l.map Prod.fst := h.nodes_eq ▸ hok
    obtain ⟨q', hq', hholds, hvalue⟩ := h.holds.enqueue hnode value
    refine ⟨q', by rw [queueStep, hq', Outcome.ok_bind]; rfl, ⟨?_, fun e he => ?_⟩⟩
    · rw [QueueOp.apply, List.map_append]
      exact hholds
    · rw [hvalue]
      -- the new node has the new value, and the others keep theirs
      rcases List.mem_append.mp he with he | he
      · have hne : e.1 ≠ node := fun heq => hnode (heq ▸ List.mem_map_of_mem he)
        rw [Function.update_of_ne hne, h.value_eq e he]
      · obtain rfl := List.mem_singleton.mp he
        exact Function.update_self ..
  | dequeue =>
    cases l with
    | nil => exact ⟨q, by rw [queueStep, h.holds.dequeue_nil, Outcome.ok_bind]; rfl, h⟩
    | cons e l =>
      refine ⟨queueNodeRemove q e.1, ?_, ⟨h.holds.removeHead, fun e' he' => ?_⟩⟩
      · have hdequeue : q.dequeue = .ok (queueNodeRemove q e.1, some (q.value e.1)) :=
          h.holds.dequeue
        rw [queueStep, hdequeue, Outcome.ok_bind, h.value_eq e List.mem_cons_self]
        rfl
      · rw [queueNodeRemove_value]
        exact h.value_eq e' (List.mem_cons_of_mem e he')
  | remove value =>
    refine ⟨_, by rw [queueStep, h.holds.queueRemove, Outcome.ok_bind]; rfl, ?_⟩
    exact h.removeFirst (·.2 = value) (q.value · = value) fun e he => by rw [h.value_eq e he]
  | nodeRemove node =>
    have hnode : node ∈ l.map Prod.fst := h.nodes_eq ▸ hok
    -- the nodes are pairwise different, so that the first one at this address is the node itself
    have hfind : (l.map Prod.fst).find? (· = node) = some node := by
      have hsome : ((l.map Prod.fst).find? (· = node)).isSome :=
        List.find?_isSome.mpr ⟨node, hnode, decide_eq_true rfl⟩
      obtain ⟨a, ha⟩ := Option.isSome_iff_exists.mp hsome
      have hsame := List.find?_some ha
      rw [ha, of_decide_eq_true hsame]
    have hrest := h.removeFirst (·.1 = node) (· = node) fun _ _ => rfl
    rw [hfind] at hrest
    exact ⟨queueNodeRemove q node, rfl, hrest⟩

end Stores

/-! ### Runs -/

/-- The list of the values alone is the one that the queues of the kernel are read as. -/
theorem map_apply (l : List (Nat × α)) (node : Nat) (value : α) :
    ((QueueOp.enqueue node value).apply l).map Prod.snd = enqueue true (l.map Prod.snd) value ∧
      ((QueueOp.dequeue : QueueOp α).apply l).map Prod.snd = (dequeue (l.map Prod.snd)).2 ∧
      ((QueueOp.remove value).apply l).map Prod.snd = queueRemove (l.map Prod.snd) value := by
  refine ⟨List.map_append, List.map_tail, ?_⟩
  rw [queueRemove, List.erase_eq_eraseP, List.eraseP_map, QueueOp.apply]
  exact congrArg _ (eraseP_congr fun e _ => decide_eq_decide.mpr eq_comm)

/-- **A queue is a list**, whatever has been done to it: the nodes that can be reached from its
    head, and in the opposite order from its tail, are those of the list that the operations
    have made, and the next operation does to the nodes what it does to that list. -/
theorem queue_isList {chain : Chain Nat} {value : Nat → α}
    {tr : List (LinkedQueue α × QueueOp α × QueueAnswer α)}
    (h : Trace queueNext (fun q op => op.Allowed q) (LinkedQueue.new chain value) tr q) :
    q.IsList (listAfter tr) ∧ ∀ op : QueueOp α, op.Allowed q → ∃ q',
      queueStep q op = .ok (q', op.answer (listAfter tr)) ∧
      q'.IsList (op.apply (listAfter tr)) := by
  have hstores : Stores q (listAfter tr) := by
    refine h.invariant_history (fun tr q => Stores q (listAfter tr)) ?_ ?_
    · exact ⟨LinkedQueue.Holds.new chain value, fun e he => nomatch he⟩
    · intro tr t op u o _ ht hok hnext
      obtain ⟨q', hq', hstores⟩ := ht.step hok
      rw [queueNext, Outcome.toOption_eq_some, hq'] at hnext
      obtain ⟨rfl, -⟩ := Prod.mk.inj (Outcome.ok.inj hnext)
      rw [listAfter, List.foldl_append]
      exact hstores
  refine ⟨hstores.isList, fun op hok => ?_⟩
  obtain ⟨q', hq', hstores'⟩ := hstores.step hok
  exact ⟨q', hq', hstores'.isList⟩

/-- A node from the middle, one found by its value at the end, and the head. -/
def mixedOps : List (QueueOp Nat) :=
  [.enqueue 1 10, .enqueue 2 20, .enqueue 3 30, .enqueue 4 20, .nodeRemove 3, .remove 20,
    .enqueue 3 50, .dequeue]

theorem queue_isList_mixed : ∃ q : LinkedQueue Nat, q.IsList [(4, 20), (3, 50)] := by
  have hrun : execCheck queueNext (fun q op => op.Allowed q)
      (fun tr _ => decide (listAfter tr = [(4, 20), (3, 50)]))
      (LinkedQueue.new ⟨fun _ => some 7, fun _ => some 7, none, none⟩ fun _ => 0) mixedOps =
        true := by
    decide
  obtain ⟨tr, q, h, hlist⟩ := Trace.of_execCheck hrun
  have hq := (queue_isList h).1
  rw [of_decide_eq_true hlist] at hq
  exact ⟨q, hq⟩

end TpeSo.Ds
