import TpeSo.Memory.BuddyContract

namespace TpeSo.Buddy

open Lib

/-!
# What `buddy_kmm_free` ignores

The checks read the bytes before the pointer, whatever they are the bytes of.

* `InOrder.marked_next`, `stale_since` — the header of a block that was given back keeps its mark,
  as long as nobody writes to it and the block is not handed out again;
* `buddyKmmFree_ignores` — what the checks refuse is ignored, and which pointers they refuse;
* `buddyKmmFree_forged` — a header that was made up is believed.
-/

variable {s s' : Heap} {m : Cdt} {mem : Memory} {f : Nat → List Nat} {out : Set (Nat × Nat)}
  {tr : List (Heap × Call × Option Nat)} {a b k ptr : Nat} {x : Nat × Nat} {c : Call}
  {o : Option Nat}

/-- A marked header is refused. -/
theorem Marked.refused (h : Marked m b) (hhead : headerOf ptr = m.base + b) : Refused m ptr := by
  refine .inr (.inr (.inr (.inl ?_)))
  rw [hhead]
  exact h

namespace InOrder

variable (h : InOrder s f out)

include h

/-- The header of a free block is marked. -/
theorem marked_free (ha : a ∈ f k) : Marked s.cdt a := by
  intro hzero
  have hfree := (h.shows.free k a ha).isFree
  exact Nat.one_ne_zero (hfree.symm.trans hzero)

/-- The block is handed out, or its header is marked. -/
theorem marked_next (hc : c.Proper s) (hs : Buddy.next s c = some (s', o)) (hb : blockLen 6 0 ∣ b)
    (hkeep : ∀ mem, c = .write mem → AgreeOn (s.cdt.base + b) headerSize s.cdt.mem mem)
    (hm : s.cdt.base + b + headerSize ∈ s.live ∨ Marked s.cdt b) :
    s'.cdt.base + b + headerSize ∈ s'.live ∨ Marked s'.cdt b := by
  cases h.callStep hc hs with
  | same hs' =>
    subst hs'
    exact hm
  | take _ _ a _ _ _ _ _ _ hlive hbase ht =>
    rw [hlive, hbase]
    rcases hm with hin | hmark
    · exact .inl (List.mem_cons_of_mem _ hin)
    · by_cases hba : b = a
      · subst hba
        exact .inl List.mem_cons_self
      · exact .inr (ht.marks b hb hba hmark)
  | give x _ _ _ hlive _ hsteady hmark =>
    rw [hlive, hsteady.base]
    by_cases hbx : b = x.1
    · exact .inr (hbx ▸ hmark)
    · refine hm.imp (fun hin => ?_) (hsteady.marks b hb)
      exact (List.mem_erase_of_ne (by omega)).mpr hin
  | write mem hc' _ hs' _ =>
    subst hs'
    refine hm.imp id fun hmark => ?_
    show Buddy.get mem (s.cdt.base + b) .isFree ≠ 0
    rw [get_congr (hkeep mem hc')]
    exact hmark

end InOrder

/-- The pointer `ptr` is that of the block at the offset `b`, and the block is handed out or its
    header is marked. -/
structure Stale (s : Heap) (ptr b : Nat) : Prop where
  dvd : blockLen 6 0 ∣ b
  payload : ptr = s.cdt.base + b + headerSize
  header : headerOf ptr = s.cdt.base + b
  kept : ptr ∈ s.live ∨ Marked s.cdt b

/-- A pointer that was given back is refused, until it is handed out again or its header is
    written. -/
theorem stale_since {tr₁ tr₂ : List (Heap × Call × Option Nat)} {j : Heap}
    (h : History mem (tr₁ ++ (j, .kmmFree ptr, o) :: tr₂) s) (hlive : ptr ∈ j.live)
    (hkeep : ∀ t mem' o', (t, .write mem', o') ∈ tr₂ →
      AgreeOn (headerOf ptr) headerSize t.cdt.mem mem') : ∃ b, Stale s ptr b := by
  refine Trace.since (fun tr t => (∀ t mem' o', (t, .write mem', o') ∈ tr →
    AgreeOn (headerOf ptr) headerSize t.cdt.mem mem') → ∃ b, Stale t ptr b) ?_ ?_ h hkeep
  · intro u hj _ hs _
    obtain ⟨f, out, hord⟩ := InOrder.history hj
    obtain ⟨x, hx, rfl⟩ := (hord.live ptr).mp hlive
    obtain ⟨m', hfree, -, hsteady, hmark⟩ := hord.giveBack hx
    obtain ⟨m'', hrun, heq⟩ := Option.map_eq_some_iff.mp hs
    obtain ⟨rfl, -⟩ := Prod.mk.inj heq
    rw [hfree] at hrun
    obtain rfl := Option.some.inj hrun
    refine ⟨x.1, hord.shows.dvd (.inr hx), ?_, ?_, .inr hmark⟩
    · rw [hsteady.base]
    · rw [hsteady.base]
      exact hord.shows.headerOf_payload (.inr hx)
  · intro tr t c u o' hj hJ hc hs hw
    obtain ⟨b, hdvd, hpay, hhead, hkept⟩ := hJ fun t mem' o' ht =>
      hw t mem' o' (List.mem_append_left _ ht)
    obtain ⟨f, out, hord⟩ := InOrder.history hj
    obtain ⟨f', out', hord'⟩ := hord.next hc hs
    have hbase : u.cdt.base = t.cdt.base := hord'.shows.base.trans hord.shows.base.symm
    have hstep := hord.marked_next hc hs hdvd (fun mem' hmem => ?_) (hpay ▸ hkept)
    · rw [hbase, ← hpay] at hstep
      exact ⟨b, hdvd, hbase ▸ hpay, hbase ▸ hhead, hstep⟩
    · rw [← hhead]
      exact hw t mem' o' (hmem ▸ List.mem_append_right tr List.mem_cons_self)

/-! ### What is ignored -/

/-- **What the checks refuse is ignored**: a pointer out of the heap or with a header that is not
    that of a block in use, the pointer of a free block, and a pointer that was given back before. -/
theorem buddyKmmFree_ignores (h : History mem tr s) :
    (∀ ptr, Refused s.cdt ptr → buddyKmmFree s.cdt ptr = .ok s.cdt) ∧
    (∀ k l, Listed s.cdt k l → ∀ a ∈ l,
      buddyKmmFree s.cdt (s.cdt.base + a + headerSize) = .ok s.cdt) ∧
    ∀ tr₁ j ptr o tr₂, tr = tr₁ ++ (j, .kmmFree ptr, o) :: tr₂ → ptr ∈ j.live → ptr ∉ s.live →
      (∀ t mem' o', (t, .write mem', o') ∈ tr₂ →
        AgreeOn (headerOf ptr) headerSize t.cdt.mem mem') →
      buddyKmmFree s.cdt ptr = .ok s.cdt := by
  refine ⟨fun ptr => buddyKmmFree_of_refused, fun k l hl a ha => ?_, ?_⟩
  · obtain ⟨f, out, hord⟩ := InOrder.history h
    rw [Chain.unique hord.shows.base_pos hl (hord.shows.lists k)] at ha
    exact buddyKmmFree_of_refused ((hord.marked_free ha).refused
      (hord.shows.headerOf_payload (x := (a, k)) (.inl ha)))
  · rintro tr₁ j ptr o tr₂ rfl hlive hgone hkeep
    obtain ⟨b, hstale⟩ := stale_since h hlive hkeep
    exact buddyKmmFree_of_refused ((hstale.kept.resolve_left hgone).refused hstale.header)

/-- The whole memory is free at the start, and cannot be freed. -/
theorem buddyKmmFree_ignores_start :
    buddyKmmFree (Heap.init fun _ => 0).cdt (heapBase + cdtSize + headerSize) =
      .ok (Heap.init fun _ => 0).cdt :=
  (buddyKmmFree_ignores (.nil : History (fun _ => 0) [] _)).2.1 maxOrder [0]
    ((InOrder.init fun _ => 0).shows.lists maxOrder) 0 List.mem_cons_self

/-- A memory in which the bytes of a header stand inside the heap: order 3, in use. -/
def forged : Memory := fun x => if x = heapBase + cdtSize + 4104 then 3 else 0

/-- **A header that was made up is believed**: what lies inside the one free block is listed as a
    block of its own. -/
theorem buddyKmmFree_forged : ¬ ∀ mem tr s ptr, History mem tr s → ptr < word → ptr ∉ s.live →
    ∃ m', buddyKmmFree s.cdt ptr = .ok m' ∧ SameLists s.cdt m' := by
  intro hall
  obtain ⟨m', hfree, hsame, -⟩ := hall forged [] _ (heapBase + cdtSize + 4112) .nil (by decide)
    List.not_mem_nil
  have hrun : (buddyKmmFree (Heap.init forged).cdt (heapBase + cdtSize + 4112)).toOption.map
      (fun m => m.freeLists 3) = some (heapBase + cdtSize + 4096) := by decide +kernel
  rw [hfree] at hrun
  have hlist := (hsame 3).symm.trans (Option.some.inj hrun)
  exact absurd hlist (by decide)

end TpeSo.Buddy
