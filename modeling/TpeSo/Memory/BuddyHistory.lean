import TpeSo.Memory.BuddyAlloc
import TpeSo.Memory.BuddyFree

namespace TpeSo.Buddy

open Lib

/-!
# Histories of the buddy memory manager

The calls of `buddy_kmalloc` and `buddy_kmm_free`, and writes to the memory by those who use it.

* `Call.Proper` — a pointer that is given back is one that was handed out, or one the checks of
  `buddy_kmm_free` refuse; a write leaves the headers of the current blocks alone;
* `InOrder` — the invariant: the pointers handed out are the blocks in use, and the manager shows
  the others;
* `InOrder.history` — it holds after every history, whatever the memory was at the start.
-/

/-- The manager, and the pointers it has handed out. -/
structure Heap where
  cdt : Cdt
  live : List Nat

inductive Call where
  | kmalloc (size : Nat)
  | kmmFree (ptr : Nat)
  /-- Someone writes to the memory. -/
  | write (mem : Memory)

/-- A call that comes back, with the pointer `buddy_kmalloc` returns. -/
def next (s : Heap) : Call → Option (Heap × Option Nat)
  | .kmalloc size =>
    let r := buddyKmalloc s.cdt size
    some ({ cdt := r.1, live := r.2.toList ++ s.live }, r.2)
  | .kmmFree ptr =>
    (buddyKmmFree s.cdt ptr).toOption.map fun m => ({ cdt := m, live := s.live.erase ptr }, none)
  | .write mem => some ({ s with cdt := { s.cdt with mem := mem } }, none)

/-- The checks of `buddy_kmm_free` and `free_block` fail. -/
def Refused (m : Cdt) (ptr : Nat) : Prop :=
  ptr = 0 ∨ headerOf ptr < m.base ∨ m.limit ≤ headerOf ptr ∨ m.get (headerOf ptr) .isFree ≠ 0 ∨
    orderOf m.mem (headerOf ptr) < minOrder ∨ (maxOrder : Int) < orderOf m.mem (headerOf ptr)

/-- A block stands at `b`: one in use, or a free one. -/
def Heap.Current (s : Heap) (b : Nat) : Prop :=
  (∃ p ∈ s.live, b = headerOf p) ∨ ∃ k l, Listed s.cdt k l ∧ ∃ a ∈ l, b = s.cdt.base + a

/-- Pointers are given back once, and headers are not written. -/
def Call.Proper (s : Heap) : Call → Prop
  | .kmalloc size => size < word
  | .kmmFree ptr => ptr ∈ s.live ∨ Refused s.cdt ptr
  | .write mem => ∀ b, s.Current b → AgreeOn b headerSize s.cdt.mem mem

/-- The manager at the start, over any memory. -/
def Heap.init (mem : Memory) : Heap := { cdt := buddyKmmInit mem heapBase, live := [] }

/-- A history of calls from `buddy_kmm_init` on. -/
abbrev History (mem : Memory) (tr : List (Heap × Call × Option Nat)) (s : Heap) : Prop :=
  Trace next Call.Proper (Heap.init mem) tr s

/-- The blocks at `out` are in use, and their payloads were handed out. -/
structure InOrder (s : Heap) (f : Nat → List Nat) (out : Set (Nat × Nat)) : Prop where
  shows : Shows s.cdt f out
  used : ∀ x ∈ out, Header s.cdt x 0
  live : ∀ p, p ∈ s.live ↔ ∃ x ∈ out, p = s.cdt.base + x.1 + headerSize
  nodup : s.live.Nodup

variable {s s' : Heap} {m : Cdt} {mem : Memory} {f : Nat → List Nat} {out : Set (Nat × Nat)}
  {a k p ptr size : Nat} {x y : Nat × Nat}

/-- What the checks refuse changes nothing. -/
theorem buddyKmmFree_of_refused (h : Refused m ptr) : buddyKmmFree m ptr = .ok m := by
  unfold Refused at h
  unfold buddyKmmFree freeBlock
  dsimp only
  split
  · rfl
  · rename_i hptr
    split
    · rfl
    · rename_i hrange
      split
      · rfl
      · rename_i hfree
        rw [if_pos]
        rcases h with h | h | h | h | h
        · exact absurd h hptr
        · exact absurd (.inl h) hrange
        · exact absurd (.inr h) hrange
        · exact absurd h hfree
        · exact h

namespace InOrder

/-- At the start the whole memory is one free block. -/
theorem init (mem : Memory) :
    InOrder (Heap.init mem) (fun k => if k = maxOrder then [0] else []) ∅ := by
  have hhead : Header (buddyKmmInit mem heapBase) (0, maxOrder) 1 :=
    ((header_put _ 0 (by decide) (by decide)).put_next (x := (0, maxOrder)) (.inl rfl)).setList _ _
  refine ⟨⟨rfl, rfl, Buddied.init (by decide), ?_, ?_⟩, ?_, ?_, List.nodup_nil⟩
  · intro k
    show Chain _ _ (Function.update (fun _ => 0) maxOrder _ k) _
    by_cases hk : k = maxOrder
    · rw [hk, Function.update_self, if_pos rfl]
      exact ⟨rfl, get_put_self (by decide)⟩
    · rw [Function.update_of_ne hk, if_neg hk]
      rfl
  · intro k a ha
    by_cases hk : k = maxOrder
    · rw [if_pos hk, List.mem_singleton] at ha
      rw [ha, hk]
      exact hhead
    · rw [if_neg hk] at ha
      exact absurd ha List.not_mem_nil
  · exact fun x hx => absurd hx (Set.notMem_empty x)
  · intro p
    refine ⟨fun hp => absurd hp List.not_mem_nil, ?_⟩
    rintro ⟨x, hx, -⟩
    exact absurd hx (Set.notMem_empty x)

/-- Two blocks in use do not start at the same place. -/
theorem eq_of_fst (h : InOrder s f out) (hx : x ∈ out) (hy : y ∈ out) (hxy : x.1 = y.1) : x = y :=
  h.shows.buddied.eq_of_start (.inr hx) (.inr hy) hxy.le
    (hxy ▸ Nat.lt_add_of_pos_right (blockLen_pos 6 x.2))

/-- A block is handed out. -/
theorem handOut (h : InOrder s f out) {m' : Cdt} {f' : Nat → List Nat}
    (ht : Took s.cdt m' out (a, k) f') (hbase : m'.base = s.cdt.base) :
    InOrder { cdt := m', live := (s.cdt.base + a + headerSize) :: s.live } f'
      (insert (a, k) out) := by
  refine ⟨ht.shows, ?_, fun p => ?_, ?_⟩
  · rintro x (rfl | hx)
    · exact ht.header
    · exact ht.keeps x hx 0 (h.used x hx)
  · show p ∈ (s.cdt.base + a + headerSize) :: s.live ↔
      ∃ x ∈ insert (a, k) out, p = m'.base + x.1 + headerSize
    rw [hbase, List.mem_cons, h.live, Set.exists_mem_insert]
  · refine List.nodup_cons.mpr ⟨fun hin => ?_, h.nodup⟩
    obtain ⟨x, hx, heq⟩ := (h.live _).mp hin
    have hfst : a = x.1 := by omega
    have hsame := ht.shows.buddied.eq_of_start (x := (a, k)) (.inr (.inl rfl)) (.inr (.inr hx))
      hfst.le (hfst ▸ Nat.lt_add_of_pos_right (blockLen_pos 6 k))
    exact ht.new (hsame ▸ hx)

/-- A block in use is given back. -/
theorem giveBack (h : InOrder s f out) (hx : x ∈ out) :
    ∃ m', buddyKmmFree s.cdt (s.cdt.base + x.1 + headerSize) = .ok m' ∧
      InOrder { cdt := m', live := s.live.erase (s.cdt.base + x.1 + headerSize) }
        (coalesce 6 f (maxOrder - x.2) x.2 x.1) (out \ {x}) ∧
      Steady s.cdt m' (out \ {x}) ∧ Marked m' x.1 := by
  have hshows : Shows s.cdt f (insert x (out \ {x})) := by
    rw [Set.insert_sdiff_singleton, Set.insert_eq_of_mem hx]
    exact h.shows
  obtain ⟨m', hrun, hm', hsteady, hmark⟩ :=
    buddyKmmFree_spec hshows (fun hin => hin.2 rfl) (h.used x hx)
  refine ⟨m', hrun, ⟨hm', fun y hy => hsteady.keeps y hy 0 (h.used y hy.1), fun p => ?_,
    h.nodup.erase _⟩, hsteady, hmark⟩
  show p ∈ s.live.erase _ ↔ ∃ y ∈ out \ {x}, p = m'.base + y.1 + headerSize
  rw [hsteady.base, h.nodup.mem_erase_iff, h.live]
  constructor
  · rintro ⟨hne, y, hy, rfl⟩
    refine ⟨y, ⟨hy, ?_⟩, rfl⟩
    rintro rfl
    exact hne rfl
  · rintro ⟨y, ⟨hy, hne⟩, rfl⟩
    refine ⟨fun heq => hne ?_, y, hy, rfl⟩
    exact h.eq_of_fst hy hx (by omega)

/-- The memory is written, but no header of a block. -/
theorem write (h : InOrder s f out) (hsame : ∀ b, s.Current b → AgreeOn b headerSize s.cdt.mem mem) :
    InOrder { s with cdt := { s.cdt with mem := mem } } f out := by
  have hread : ∀ x, IsBlock f out x → ∀ g, get mem (s.cdt.base + x.1) g = s.cdt.get (s.cdt.base + x.1) g := by
    intro x hx g
    refine get_congr (hsame _ ?_)
    rcases hx with hx | hx
    · exact .inr ⟨x.2, f x.2, h.shows.lists x.2, x.1, hx, rfl⟩
    · exact .inl ⟨_, (h.live _).mpr ⟨x, hx, rfl⟩, (h.shows.headerOf_payload (.inr hx)).symm⟩
  refine ⟨⟨h.shows.base, h.shows.limit, h.shows.buddied, fun k => ?_, fun k a ha => ?_⟩,
    fun x hx => ?_, h.live, h.nodup⟩
  · exact (h.shows.lists k).congr fun a ha => hread (a, k) (.inl ha) .next
  · have hhead := h.shows.free k a ha
    exact ⟨(hread (a, k) (.inl ha) _).trans hhead.order, (hread (a, k) (.inl ha) _).trans hhead.isFree⟩
  · have hhead := h.used x hx
    exact ⟨(hread x (.inr hx) _).trans hhead.order, (hread x (.inr hx) _).trans hhead.isFree⟩

end InOrder

/-- What a call does to a manager in order. -/
inductive CallStep (s s' : Heap) (f : Nat → List Nat) (out : Set (Nat × Nat)) (c : Call)
    (o : Option Nat) : Prop
  | same (hs' : s' = s) (ho : o = none)
  | take (size j a : Nat) (l : List Nat) (hc : c = .kmalloc size) (hf : f j = a :: l)
      (hkj : getOrder size ≤ j) (hj : j ≤ maxOrder) (ho : o = some (s.cdt.base + a + headerSize))
      (hlive : s'.live = (s.cdt.base + a + headerSize) :: s.live) (hbase : s'.cdt.base = s.cdt.base)
      (ht : Took s.cdt s'.cdt out (a, getOrder size) (carve 6 (getOrder size) j a l f))
  | give (x : Nat × Nat) (hx : x ∈ out) (hc : c = .kmmFree (s.cdt.base + x.1 + headerSize))
      (ho : o = none) (hlive : s'.live = s.live.erase (s.cdt.base + x.1 + headerSize))
      (hord : InOrder s' (coalesce 6 f (maxOrder - x.2) x.2 x.1) (out \ {x}))
      (ht : Steady s.cdt s'.cdt (out \ {x})) (hmark : Marked s'.cdt x.1)
  | write (mem : Memory) (hc : c = .write mem) (ho : o = none)
      (hs' : s' = { s with cdt := { s.cdt with mem := mem } })
      (hsame : ∀ b, s.Current b → AgreeOn b headerSize s.cdt.mem mem)

namespace InOrder

/-- Every call is a step of one of the four kinds. -/
theorem callStep (h : InOrder s f out) {c : Call} {o : Option Nat} (hc : c.Proper s)
    (hs : Buddy.next s c = some (s', o)) : CallStep s s' f out c o := by
  cases c with
  | kmalloc size =>
    obtain ⟨rfl, rfl⟩ := Prod.mk.inj (Option.some.inj hs)
    rcases buddyKmalloc_cases h.shows size with
      ⟨hrun, -⟩ | ⟨j, a, l, m', -, hkj, hj, hf, -, hrun, hbase, ht⟩
    · rw [hrun]
      exact .same rfl rfl
    · rw [hrun]
      exact .take size j a l rfl hf hkj hj rfl rfl hbase ht
  | kmmFree ptr =>
    obtain ⟨m', hrun, heq⟩ := Option.map_eq_some_iff.mp hs
    obtain ⟨rfl, rfl⟩ := Prod.mk.inj heq
    by_cases hlive : ptr ∈ s.live
    · obtain ⟨x, hx, rfl⟩ := (h.live ptr).mp hlive
      obtain ⟨m'', hfree, hord, ht, hmark⟩ := h.giveBack hx
      rw [hfree] at hrun
      obtain rfl := Option.some.inj hrun
      exact .give x hx rfl rfl rfl hord ht hmark
    · rw [buddyKmmFree_of_refused (hc.resolve_left hlive)] at hrun
      obtain rfl := Option.some.inj hrun
      rw [List.erase_of_not_mem hlive]
      exact .same rfl rfl
  | write mem =>
    obtain ⟨rfl, rfl⟩ := Prod.mk.inj (Option.some.inj hs)
    exact .write mem rfl rfl rfl hc

/-- The invariant after a block was taken. -/
theorem took (h : InOrder s f out) {f' : Nat → List Nat}
    (ht : Took s.cdt s'.cdt out (a, k) f') (hbase : s'.cdt.base = s.cdt.base)
    (hlive : s'.live = (s.cdt.base + a + headerSize) :: s.live) :
    InOrder s' f' (insert (a, k) out) := by
  have hs' : s' = { cdt := s'.cdt, live := (s.cdt.base + a + headerSize) :: s.live } := by
    rw [← hlive]
  rw [hs']
  exact h.handOut ht hbase

/-- Every call keeps the manager in order. -/
theorem next (h : InOrder s f out) {c : Call} {o : Option Nat} (hc : c.Proper s)
    (hs : Buddy.next s c = some (s', o)) : ∃ f' out', InOrder s' f' out' := by
  cases h.callStep hc hs with
  | same hs' => exact ⟨f, out, hs' ▸ h⟩
  | take size j a l hc hf hkj hj ho hlive hbase ht => exact ⟨_, _, h.took ht hbase hlive⟩
  | give x hx hc ho hlive hord => exact ⟨_, _, hord⟩
  | write mem hc ho hs' hsame => exact ⟨f, out, hs' ▸ h.write hsame⟩

/-- **The manager is in order** after every history. -/
theorem history {tr : List (Heap × Call × Option Nat)} (h : History mem tr s) :
    ∃ f out, InOrder s f out :=
  h.invariant (fun s => ∃ f out, InOrder s f out) ⟨_, _, InOrder.init mem⟩
    fun _ _ _ _ ⟨_, _, hs⟩ hc hstep => hs.next hc hstep

end InOrder

end TpeSo.Buddy
