import TpeSo.Memory.BuddyHeap

namespace TpeSo.Buddy

open Lib

/-!
# Release by the buddy memory manager

* `Steady m m' out` — the headers of the blocks `out` say what they did, and no mark was lost;
* `Shows.merge` — one round of the loop of `free_block`: the buddy leaves its list, and the block
  that the two make is held in no list;
* `mergeFrom_spec` — the loop merges as `coalesce` does, by induction on the orders left;
* `buddyKmmFree_spec` — the whole call, for a block in use.
-/

variable {m m' m'' : Cdt} {f : Nat → List Nat} {out : Set (Nat × Nat)} {a k n : Nat}
  {pre post : List Nat}

/-- The headers of the blocks `out` say what they did, and no mark was lost. -/
structure Steady (m m' : Cdt) (out : Set (Nat × Nat)) : Prop where
  base : m'.base = m.base
  keeps : ∀ y ∈ out, ∀ v, Header m y v → Header m' y v
  marks : ∀ b, blockLen 6 0 ∣ b → Marked m b → Marked m' b

theorem Steady.trans (h : Steady m m' out) (g : Steady m' m'' out) : Steady m m'' out where
  base := g.base.trans h.base
  keeps y hy v hv := g.keeps y hy v (h.keeps y hy v hv)
  marks b hb hm := g.marks b hb (h.marks b hb hm)

namespace Shows

variable (h : Shows m f (insert (a, k) out)) (hnew : (a, k) ∉ out)

include h hnew

/-- A block that is held is marked as free. -/
theorem hold (g : Field) (v : Nat) (hv : g = .isFree → v = 1) :
    Steady m (m.put (m.base + a) g v) out := by
  have hblock : IsBlock f (insert (a, k) out) (a, k) := .inr (.inl rfl)
  refine ⟨rfl, fun y hy n hn => ?_, fun b hb hm => ?_⟩
  · have hne : (a, k) ≠ y := fun heq => hnew (heq ▸ hy)
    have hap := h.buddied.apart (a, k) y hblock (.inr (.inr hy)) hne
    exact hn.put_block hap (le_refl a) (Nat.add_le_add_left (headerSize_le k) a)
  · exact marked_put hb (h.dvd hblock) (fun hg _ => hv hg) hm

/-- A block without a free buddy is listed. -/
theorem list (hhead : Header m (a, k) 1) (hmiss : k < maxOrder → buddy 6 k a ∉ f k) :
    Shows (listBlock (m, m.base + a, k)) (Function.update f k (a :: f k)) out ∧
      Steady m (listBlock (m, m.base + a, k)) out := by
  refine ⟨h.give (.inl rfl) (h.buddied.give hnew hmiss) hhead, ?_⟩
  have hsteady := h.hold hnew .next (m.freeLists k) (fun hg => by cases hg)
  exact ⟨rfl, fun y hy v hv => (hsteady.keeps y hy v hv).setList k _,
    fun b hb hm => marked_setList k _ (hsteady.marks b hb hm)⟩

/-- The buddy leaves its list, and the two are one block. -/
theorem merge (hk : k < maxOrder) (hf : f k = pre ++ buddy 6 k a :: post) :
    Shows (unlink m k (m.base + buddy 6 k a) (lastOf m.base 0 pre))
      (Function.update f k ((f k).erase (buddy 6 k a))) (insert (min a (buddy 6 k a), k + 1) out) ∧
    (min a (buddy 6 k a), k + 1) ∉ out ∧
    Steady m (unlink m k (m.base + buddy 6 k a) (lastOf m.base 0 pre)) out := by
  have hmem : buddy 6 k a ∈ f k := by
    rw [hf]
    exact List.mem_append_right pre List.mem_cons_self
  have hbuddy : (buddy 6 k a, k) ∉ out := fun hin => h.buddied.notOut k _ hmem (.inr hin)
  have hdrop := h.drop hf
  have herase : (f k).erase (buddy 6 k a) = pre ++ post := by
    rw [hf, List.erase_append_right _ (h.notMem_of_split hf).1, List.erase_cons_head]
  rw [← herase, Set.insert_comm] at hdrop
  have hjoin := hdrop.buddied.join hnew hbuddy hk
  refine ⟨hdrop.rename hjoin, fun hin => ?_, ?_⟩
  · -- one of the two halves starts where the block of the next order would
    have hin' : IsBlock f (insert (a, k) out) (min a (buddy 6 k a), k + 1) := .inr (.inr hin)
    have hpos := blockLen_pos 6 (k + 1)
    rcases min_choice a (buddy 6 k a) with hm | hm <;> rw [hm] at hin'
    · have heq := h.buddied.eq_of_start hin' (.inr (.inl rfl)) (le_refl a) (Nat.lt_add_of_pos_right hpos)
      exact absurd (Prod.mk.inj heq).2 (Nat.succ_ne_self k)
    · have heq := h.buddied.eq_of_start (y := (buddy 6 k a, k)) hin' (.inl hmem) (le_refl _)
        (Nat.lt_add_of_pos_right hpos)
      exact absurd (Prod.mk.inj heq).2 (Nat.succ_ne_self k)
  · exact ⟨unlink_base _ _ _ _, fun y hy v hv => h.header_unlink hf (.inr (.inr hy)) hv,
      fun b hb hm => h.marked_unlink hf hb hm⟩

end Shows

/-- **The loop of `free_block`** merges a held block as far as it goes. -/
theorem mergeFrom_spec : ∀ n k a (m : Cdt) (f : Nat → List Nat),
    Shows m f (insert (a, k) out) → (a, k) ∉ out → Header m (a, k) 1 → n + k = maxOrder →
    ∃ r, mergeFrom m (m.base + a) n k = .ok r ∧
      Shows (listBlock r) (coalesce 6 f n k a) out ∧ Steady m (listBlock r) out := by
  intro n
  induction n with
  | zero =>
    intro k a m f h hnew hhead hk
    exact ⟨_, rfl, h.list hnew hhead fun hlt => absurd hlt (by omega)⟩
  | succ n ih =>
    intro k a m f h hnew hhead hk
    have hblock : IsBlock f (insert (a, k) out) (a, k) := .inr (.inl rfl)
    have hlt : k < maxOrder := by omega
    have hin : buddy 6 k a + blockLen 6 k ≤ heapSize :=
      buddy_inside (h.buddied.aligned _ hblock) (h.buddied.inside _ hblock) hlt
    have hpos := blockLen_pos 6 k
    have hrange : ¬ (m.base + buddy 6 k a < m.base ∨ m.limit ≤ m.base + buddy 6 k a) := by
      rw [h.limit]
      omega
    rw [mergeFrom, getBuddy_eq, if_neg hrange, coalesce]
    by_cases hmem : buddy 6 k a ∈ f k
    · obtain ⟨pre, post, hf⟩ := List.append_of_mem hmem
      have hchain := h.lists k
      rw [Listed, hf] at hchain
      have hlen : pre.length < word := by
        have hall := h.length_lt k
        rw [hf, List.length_append] at hall
        omega
      have hwalk := walk_hit (r := 0) h.base_pos (h.notMem_of_split hf).1 hchain hlen
      have hfree := h.free k _ hmem
      have hisFree : m.get (m.base + buddy 6 k a) .isFree ≠ 0 := by
        rw [hfree.isFree]
        exact Nat.one_ne_zero
      have horder : orderOf m.mem (m.base + buddy 6 k a) = k :=
        orderOf_eq (Nat.le_of_lt hlt) hfree.order
      obtain ⟨hshows, hnew', hsteady⟩ := h.merge hnew hlt hf
      have hmin : (if m.base + a < m.base + buddy 6 k a then m.base + a else m.base + buddy 6 k a) =
          m.base + min a (buddy 6 k a) := by
        rw [← min_def_lt, Nat.add_min_add_left]
      have hgo : ¬ (true = false ∨ m.get (m.base + buddy 6 k a) .isFree = 0 ∨
          orderOf m.mem (m.base + buddy 6 k a) ≠ k) := by
        simp [hisFree, horder]
      rw [hwalk, Outcome.ok_bind, if_neg hgo, if_pos hmem]
      dsimp only
      rw [hmin]
      have hbase := unlink_base m k (m.base + buddy 6 k a) (lastOf m.base 0 pre)
      generalize unlink m k (m.base + buddy 6 k a) (lastOf m.base 0 pre) = m₁ at *
      rw [← hbase]
      have hheld : (min a (buddy 6 k a), k + 1) ∈ insert (min a (buddy 6 k a), k + 1) out := .inl rfl
      have hlen' := Nat.add_le_add_left (headerSize_le (k + 1)) (min a (buddy 6 k a))
      have s₁ := hshows.relabel hheld (le_refl _) hlen' .order (k + 1)
      have s₂ := s₁.relabel hheld (le_refl _) hlen' .isFree 1
      have t₁ := hshows.hold hnew' .order (k + 1) (fun hg => by cases hg)
      have t₂ := s₁.hold hnew' .isFree 1 (fun _ => rfl)
      obtain ⟨r, hrun, hr, hsteady'⟩ := ih (k + 1) (min a (buddy 6 k a)) _ _ s₂ hnew'
        (header_put m₁ _ (order_lt hlt) (by decide)) (by omega)
      exact ⟨r, hrun, hr, hsteady.trans (t₁.trans (t₂.trans hsteady'))⟩
    · obtain ⟨q, hwalk⟩ := walk_miss (r := 0) h.base_pos hmem (h.lists k) (h.length_lt k)
      rw [hwalk, Outcome.ok_bind, if_pos (.inl rfl), if_neg hmem]
      exact ⟨_, rfl, h.list hnew hhead fun _ => hmem⟩

/-! ### The calls -/

variable (h : Shows m f (insert (a, k) out)) (hnew : (a, k) ∉ out) (hhead : Header m (a, k) 0)

include h hnew hhead

/-- **`free_block`** of a block in use. -/
theorem freeBlock_spec : ∃ m', freeBlock m (m.base + a) = .ok m' ∧
    Shows m' (coalesce 6 f (maxOrder - k) k a) out ∧ Steady m m' out ∧ Marked m' a := by
  have hblock : IsBlock f (insert (a, k) out) (a, k) := .inr (.inl rfl)
  obtain ⟨hlow, htop⟩ := h.buddied.order _ hblock
  dsimp only at hlow htop
  have hread : get m.mem (m.base + a) .order = k := hhead.order
  have horder : orderOf m.mem (m.base + a) = k := orderOf_eq htop hread
  have hbusy : ¬ m.get (m.base + a) .isFree ≠ 0 := fun hne => hne hhead.isFree
  have hrange : ¬ (orderOf m.mem (m.base + a) < minOrder ∨
      (maxOrder : Int) < orderOf m.mem (m.base + a)) := by
    rw [horder]
    omega
  have hlen := Nat.add_le_add_left (headerSize_le k) a
  have s₁ := h.relabel (.inl rfl) (le_refl a) hlen .isFree 1
  have t₁ := h.hold hnew .isFree 1 (fun _ => rfl)
  have hhead₁ : Header (m.put (m.base + a) .isFree 1) (a, k) 1 :=
    ⟨(get_put_ne (by decide)).trans hhead.order, get_put_self (by decide)⟩
  obtain ⟨r, hrun, hr, hsteady⟩ :=
    mergeFrom_spec (maxOrder - k) k a _ f s₁ hnew hhead₁ (Nat.sub_add_cancel htop)
  have hmark : Marked (m.put (m.base + a) .isFree 1) a :=
    fun hzero => Nat.one_ne_zero (hhead₁.isFree.symm.trans hzero)
  refine ⟨listBlock r, ?_, hr, t₁.trans hsteady, hsteady.marks a (h.dvd hblock) hmark⟩
  rw [freeBlock, if_neg hbusy, if_neg hrange, horder, Int.toNat_natCast]
  dsimp only
  rw [show (m.put (m.base + a) .isFree 1).base = m.base from rfl] at hrun
  rw [hrun]
  rfl

/-- **`buddy_kmm_free`** of a block in use. -/
theorem buddyKmmFree_spec : ∃ m', buddyKmmFree m (m.base + a + headerSize) = .ok m' ∧
    Shows m' (coalesce 6 f (maxOrder - k) k a) out ∧ Steady m m' out ∧ Marked m' a := by
  obtain ⟨m', hrun, hm'⟩ := freeBlock_spec h hnew hhead
  refine ⟨m', ?_, hm'⟩
  have hin := (h.block_lt (x := (a, k)) (.inr (.inl rfl))).1
  have hheader := h.headerOf_payload (x := (a, k)) (.inr (.inl rfl))
  dsimp only at hheader
  have hrange : ¬ (m.base + a < m.base ∨ m.limit ≤ m.base + a) := by
    have h16 : headerSize = 16 := rfl
    rw [h.limit]
    dsimp only at hin
    omega
  rw [buddyKmmFree, if_neg (by rw [headerSize]; omega)]
  dsimp only
  rw [hheader, if_neg hrange, if_neg (fun hne => hne hhead.isFree)]
  exact hrun

end TpeSo.Buddy
