import Mathlib.Data.List.Induction
import Mathlib.Data.List.Nodup

namespace TpeSo.Lib

/-!
# Doubly linked chains

A chain is a set of nodes that know their neighbours, and the two ends.  Nodes are told
apart by their addresses; what they hold plays no role here.

* `Chain.Spells c as` — from the head on the nodes are `as`, correctly linked both ways;
* `Chain.unlink` — take a node out, by at most four assignments;
* `Chain.Spells.unlink` — **taking out a node of a chain** leaves a chain of the others, in
  their order;
* `Chain.Spells.unlink_next` — and the node still knows the one that followed it;
* `Chain.Spells.append` — **a new node behind the last one**;
* `Visits` — the nodes that a walk along the links comes to, `Spells.visits_next` and
  `Spells.visits_prev` what they are in a chain.
-/

variable {ι : Type}

/-- Nodes that know their neighbours, and the two ends. -/
structure Chain (ι : Type) where
  prev : ι → Option ι
  next : ι → Option ι
  head : Option ι
  tail : Option ι

namespace Chain

/-- The chain consists of the nodes `as`, each once, correctly linked both ways. -/
structure Spells (c : Chain ι) (as : List ι) : Prop where
  nodup : as.Nodup
  head : c.head = as.head?
  tail : c.tail = as.getLast?
  linked : ∀ xs a ys, as = xs ++ a :: ys → c.prev a = xs.getLast? ∧ c.next a = ys.head?

namespace Spells

variable {c : Chain ι} {a b : ι} {xs ys : List ι}

/-- The head of the chain when something stands in front of the node. -/
theorem head_append (h : c.Spells (xs ++ a :: ys)) :
    if xs = [] then c.head = some a else c.head ≠ some a ∧ c.head = (xs ++ ys).head? := by
  have hnodup := h.nodup
  rw [h.head]
  cases xs with
  | nil => simp
  | cons x xs =>
    simp only [List.cons_append, List.nodup_cons, List.mem_append, List.mem_cons] at hnodup
    simp only [List.cons_append, List.head?_cons, reduceCtorEq, if_false, and_true]
    intro hx
    exact hnodup.1 (.inr (.inl (Option.some.inj hx)))

/-- The tail of the chain when something stands behind the node. -/
theorem tail_append (h : c.Spells (xs ++ a :: ys)) :
    if ys = [] then c.tail = some a else c.tail ≠ some a ∧ c.tail = (xs ++ ys).getLast? := by
  have hnodup := (List.nodup_append.mp h.nodup).2.1
  rw [h.tail]
  rcases List.eq_nil_or_concat' ys with rfl | ⟨ys, y, rfl⟩
  · simp
  · simp only [List.nodup_cons, List.mem_append, List.mem_singleton] at hnodup
    rw [if_neg (by simp), ← List.cons_append, ← List.append_assoc, ← List.append_assoc,
      List.getLast?_concat, List.getLast?_concat]
    exact ⟨fun hy => hnodup.1 (.inr (Option.some.inj hy).symm), rfl⟩

/-- A neighbour is another node. -/
theorem ne_of_mem (h : c.Spells (xs ++ a :: ys)) (hb : b ∈ xs ∨ b ∈ ys) : b ≠ a := by
  rintro rfl
  obtain ⟨-, hys, hdis⟩ := List.nodup_append.mp h.nodup
  rcases hb with hb | hb
  · exact hdis b hb b List.mem_cons_self rfl
  · exact (List.nodup_cons.mp hys).1 hb

end Spells

section Unlink

variable [DecidableEq ι]

/-- Write to `o->next`, unless `o` is `NULL`. -/
def setNext (c : Chain ι) (o v : Option ι) : Chain ι :=
  { c with next := fun b => if o = some b then v else c.next b }

/-- Write to `o->prev`, unless `o` is `NULL`. -/
def setPrev (c : Chain ι) (o v : Option ι) : Chain ι :=
  { c with prev := fun b => if o = some b then v else c.prev b }

/-- Take a node out: its neighbours are linked to each other, and an end that stood on it
    moves to the neighbour. -/
def unlink (c : Chain ι) (a : ι) : Chain ι :=
  let c := c.setNext (c.prev a) (c.next a)
  let c := c.setPrev (c.next a) (c.prev a)
  let c := { c with head := if c.head = some a then c.next a else c.head }
  { c with tail := if c.tail = some a then c.prev a else c.tail }

variable {c : Chain ι} {a b : ι} {xs ys : List ι}

/-- What the four assignments come to. -/
theorem Spells.unlink_eq (h : c.Spells (xs ++ a :: ys)) : c.unlink a =
    { prev := fun b => if ys.head? = some b then xs.getLast? else c.prev b
      next := fun b => if xs.getLast? = some b then ys.head? else c.next b
      head := (xs ++ ys).head?
      tail := (xs ++ ys).getLast? } := by
  obtain ⟨hprev, hnext⟩ := h.linked xs a ys rfl
  have hfront : xs.getLast? ≠ some a := fun hx =>
    h.ne_of_mem (.inl (List.mem_of_getLast? hx)) rfl
  have hback : ys.head? ≠ some a := fun hy =>
    h.ne_of_mem (.inr (List.mem_of_head? hy)) rfl
  have hhead : (if c.head = some a then ys.head? else c.head) = (xs ++ ys).head? := by
    have hcases := h.head_append
    split at hcases
    · rename_i hx
      rw [if_pos hcases, hx, List.nil_append]
    · rw [if_neg hcases.1, hcases.2]
  have htail : (if c.tail = some a then xs.getLast? else c.tail) = (xs ++ ys).getLast? := by
    have hcases := h.tail_append
    split at hcases
    · rename_i hy
      rw [if_pos hcases, hy, List.append_nil]
    · rw [if_neg hcases.1, hcases.2]
  simp only [unlink, setNext, setPrev, hprev, hnext, if_neg hfront, if_neg hback, hhead, htail]

/-- A node behind the one taken out. -/
theorem Spells.unlink_back (zs : List ι) {vs : List ι} (h : c.Spells (xs ++ a :: (zs ++ b :: vs))) :
    (c.unlink a).prev b = (xs ++ zs).getLast? ∧ (c.unlink a).next b = vs.head? := by
  obtain ⟨hprev, hnext⟩ := h.linked (xs ++ a :: zs) b vs (by simp)
  obtain ⟨-, hys, hdis⟩ := List.nodup_append.mp h.nodup
  have hbx : xs.getLast? ≠ some b := fun hx =>
    hdis b (List.mem_of_getLast? hx) b (by simp) rfl
  rw [h.unlink_eq]
  refine ⟨?_, (if_neg hbx).trans hnext⟩
  -- only the node right behind gets a new neighbour
  cases zs with
  | nil => simp
  | cons z zs =>
    have hzb : z ≠ b := by
      rintro rfl
      simp at hys
    have hne : ((z :: zs) ++ b :: vs).head? ≠ some b := fun hz => hzb (Option.some.inj hz)
    refine (if_neg hne).trans (hprev.trans ?_)
    rw [List.getLast?_append, List.getLast?_append, List.getLast?_cons_cons]

/-- A node in front of the one taken out. -/
theorem Spells.unlink_front {us zs : List ι} (h : c.Spells ((us ++ b :: zs) ++ a :: ys)) :
    (c.unlink a).prev b = us.getLast? ∧ (c.unlink a).next b = (zs ++ ys).head? := by
  obtain ⟨hprev, hnext⟩ := h.linked us b (zs ++ a :: ys) (by simp)
  obtain ⟨hxs, -, hdis⟩ := List.nodup_append.mp h.nodup
  have hby : ys.head? ≠ some b := fun hy =>
    hdis b (by simp) b (List.mem_cons_of_mem _ (List.mem_of_head? hy)) rfl
  rw [h.unlink_eq]
  refine ⟨(if_neg hby).trans hprev, ?_⟩
  rcases List.eq_nil_or_concat' zs with rfl | ⟨zs, z, rfl⟩
  · simp
  · have hzb : z ≠ b := by
      rintro rfl
      exact (List.nodup_cons.mp (List.nodup_append.mp hxs).2.1).1 (by simp)
    have hne : (us ++ b :: (zs ++ [z])).getLast? ≠ some b := by
      rw [← List.cons_append, ← List.append_assoc, List.getLast?_concat]
      exact fun hz => hzb (Option.some.inj hz)
    refine (if_neg hne).trans (hnext.trans ?_)
    simp only [List.head?_append, List.head?_cons, Option.or_assoc, Option.some_or]

/-- **Taking out a node** leaves a chain of the others, in their order. -/
theorem Spells.unlink (h : c.Spells (xs ++ a :: ys)) : (c.unlink a).Spells (xs ++ ys) where
  nodup := h.nodup.sublist (List.Sublist.append_left (List.sublist_cons_self a ys) xs)
  head := by rw [h.unlink_eq]
  tail := by rw [h.unlink_eq]
  linked us b vs he := by
    -- where the cut falls: behind the node taken out, or in front of it
    rcases List.append_eq_append_iff.mp he with ⟨zs, rfl, rfl⟩ | ⟨zs, rfl, hzs⟩
    · exact h.unlink_back zs
    · cases zs with
      | nil =>
        rw [List.append_nil] at h
        obtain rfl : b :: vs = ys := hzs
        simpa using h.unlink_back []
      | cons z zs =>
        obtain ⟨rfl, rfl⟩ := List.cons_eq_cons.mp hzs
        exact h.unlink_front

/-- The node still knows the one that followed it. -/
theorem Spells.unlink_next (h : c.Spells (xs ++ a :: ys)) : (c.unlink a).next a = ys.head? := by
  have hfront : xs.getLast? ≠ some a := fun hx =>
    h.ne_of_mem (.inl (List.mem_of_getLast? hx)) rfl
  rw [h.unlink_eq]
  exact (if_neg hfront).trans (h.linked xs a ys rfl).2

/-- At the head, the two assignments to the ends and one to a neighbour do. -/
theorem Spells.unlink_first (h : c.Spells (a :: ys)) : c.unlink a =
    { c.setPrev (c.next a) none with
      head := c.next a
      tail := if c.tail = some a then none else c.tail } := by
  obtain ⟨-, hnext⟩ := h.linked [] a ys rfl
  have hcut : c.Spells ([] ++ a :: ys) := h
  have htail := hcut.tail_append
  rw [hcut.unlink_eq, hnext]
  unfold setPrev
  split at htail
  · rename_i hy
    rw [htail, if_pos rfl, hy]
    rfl
  · rw [if_neg htail.1, htail.2]
    simp

/-- At the tail, it is moved and cut off. -/
theorem Spells.unlink_last (h : c.Spells (xs ++ [a])) (hxs : xs ≠ []) : c.unlink a =
    { c.setNext (c.prev a) none with tail := c.prev a } := by
  obtain ⟨hprev, -⟩ := h.linked xs a [] rfl
  have hhead := h.head_append
  rw [if_neg hxs, List.append_nil] at hhead
  rw [h.unlink_eq, hprev, List.append_nil, ← hhead.2]
  unfold setNext
  simp

/-- In the middle, the ends stay. -/
theorem Spells.unlink_middle (h : c.Spells (xs ++ a :: ys)) (hxs : xs ≠ []) (hys : ys ≠ []) :
    c.unlink a = (c.setNext (c.prev a) (c.next a)).setPrev (c.next a) (c.prev a) := by
  obtain ⟨hprev, hnext⟩ := h.linked xs a ys rfl
  have hhead := h.head_append
  have htail := h.tail_append
  rw [if_neg hxs] at hhead
  rw [if_neg hys] at htail
  rw [h.unlink_eq, hprev, hnext, ← hhead.2, ← htail.2]
  rfl

end Unlink

section Append

variable [DecidableEq ι]

/-- Put a new node behind the last one. -/
def append (c : Chain ι) (a : ι) : Chain ι where
  prev b := if b = a then c.tail else c.prev b
  next b := if b = a then none else if c.tail = some b then some a else c.next b
  head := c.head.or (some a)
  tail := some a

variable {c : Chain ι} {a b : ι} {as : List ι}

/-- Into a chain of none, with the links of the new node cleared first. -/
theorem Spells.append_nil (h : c.Spells []) : c.append a =
    { (c.setPrev (some a) none).setNext (some a) none with head := some a, tail := some a } := by
  have hhead : c.head = none := h.head
  have htail : c.tail = none := h.tail
  unfold append setPrev setNext
  simp [hhead, htail, eq_comm]

/-- Behind a node `b`. -/
theorem Spells.append_last (h : c.Spells (as ++ [b])) (hab : a ≠ b) : c.append a =
    { (((c.setPrev (some a) none).setNext (some a) none).setPrev (some a) c.tail).setNext
        c.tail (some a) with tail := some a } := by
  have htail : c.tail = some b := by rw [h.tail, List.getLast?_concat]
  obtain ⟨x, hx⟩ : ∃ x, c.head = some x := by
    rw [h.head]
    cases as with
    | nil => exact ⟨b, rfl⟩
    | cons x as => exact ⟨x, rfl⟩
  simp only [append, setPrev, setNext, htail, hx]
  congr 1
  · funext d
    by_cases hd : d = a
    · rw [hd, if_pos rfl, if_pos rfl]
    · have hne : some a ≠ some d := fun he => hd (Option.some.inj he).symm
      rw [if_neg hd, if_neg hne, if_neg hne]
  · funext d
    by_cases hd : d = a
    · have hne : some b ≠ some a := fun he => hab (Option.some.inj he).symm
      rw [hd, if_pos rfl, if_neg hne, if_pos rfl]
    · have hne : some a ≠ some d := fun he => hd (Option.some.inj he).symm
      rw [if_neg hd, if_neg hne]

/-- **A new node behind the last one.** -/
theorem Spells.append (h : c.Spells as) (ha : a ∉ as) : (c.append a).Spells (as ++ [a]) where
  nodup := h.nodup.append (List.nodup_singleton a) (by simpa using ha)
  head := by
    show c.head.or (some a) = _
    rw [h.head, List.head?_append]
    rfl
  tail := by
    rw [List.getLast?_concat]
    rfl
  linked xs b ys he := by
    -- the new node, or one that was there
    rcases List.eq_nil_or_concat' ys with rfl | ⟨ys, y, rfl⟩
    · obtain ⟨rfl, hb⟩ := List.append_inj' he rfl
      obtain rfl : a = b := List.singleton_inj.mp hb
      exact ⟨(if_pos rfl).trans h.tail, if_pos rfl⟩
    · rw [← List.cons_append, ← List.append_assoc] at he
      obtain ⟨rfl, hy⟩ := List.append_inj' he rfl
      obtain rfl : a = y := List.singleton_inj.mp hy
      obtain ⟨hprev, hnext⟩ := h.linked xs b ys rfl
      have hba : b ≠ a := by
        rintro rfl
        simp at ha
      refine ⟨(if_neg hba).trans hprev, (if_neg hba).trans ?_⟩
      rw [h.tail]
      -- only the last one gets a new neighbour
      cases ys with
      | nil => simp
      | cons z zs =>
        have hlast : (xs ++ b :: z :: zs).getLast? ≠ some b := by
          rw [List.getLast?_append_of_ne_nil _ (by simp), List.getLast?_cons_cons]
          intro hl
          have hnodup := (List.nodup_append.mp h.nodup).2.1
          exact (List.nodup_cons.mp hnodup).1 (List.mem_of_getLast? hl)
        rw [if_neg hlast, hnext]
        rfl

end Append

end Chain

/-! ### Walks -/

/-- Following the links from `o` on, a walk comes to the nodes `as` and to an end. -/
inductive Visits (link : ι → Option ι) : Option ι → List ι → Prop where
  | nil : Visits link none []
  | cons {a as} : Visits link (link a) as → Visits link (some a) (a :: as)

/-- The first `n` nodes of a walk. -/
def walk (link : ι → Option ι) : Nat → Option ι → List ι
  | 0, _ => []
  | _ + 1, none => []
  | n + 1, some a => a :: walk link n (link a)

/-- The whole of it, when it has come to an end by then. -/
theorem Visits.walk_eq {link : ι → Option ι} {o : Option ι} {as : List ι} (h : Visits link o as) :
    walk link as.length o = as := by
  induction h with
  | nil => rfl
  | cons _ ih => rw [List.length_cons, walk, ih]

namespace Chain.Spells

variable {c : Chain ι} {as : List ι}

theorem visits_next_of (h : c.Spells as) : ∀ {xs ys : List ι}, as = xs ++ ys →
    Visits c.next ys.head? ys := by
  intro xs ys
  induction ys generalizing xs with
  | nil => exact fun _ => .nil
  | cons y ys ih =>
    intro he
    have hbehind : as = (xs ++ [y]) ++ ys := by simpa using he
    have hrest := ih hbehind
    rw [← (h.linked xs y ys he).2] at hrest
    exact .cons hrest

/-- From the head on. -/
theorem visits_next (h : c.Spells as) : Visits c.next c.head as := by
  rw [h.head]
  exact h.visits_next_of (List.nil_append as).symm

theorem visits_prev_of (h : c.Spells as) : ∀ {xs ys : List ι}, as = xs ++ ys →
    Visits c.prev xs.getLast? xs.reverse := by
  intro xs
  induction xs using List.reverseRecOn with
  | nil => exact fun _ => .nil
  | append_singleton xs x ih =>
    intro ys he
    rw [List.append_assoc] at he
    have hrest := ih he
    rw [← (h.linked xs x ys he).1] at hrest
    rw [List.getLast?_concat, List.reverse_concat]
    exact .cons hrest

/-- From the tail on, in the opposite order. -/
theorem visits_prev (h : c.Spells as) : Visits c.prev c.tail as.reverse := by
  rw [h.tail]
  exact h.visits_prev_of (List.append_nil as).symm

end Chain.Spells

end TpeSo.Lib
