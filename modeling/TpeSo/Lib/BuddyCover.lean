import Mathlib.Algebra.BigOperators.Group.Finset.Basic
import Mathlib.Algebra.Order.BigOperators.Group.Finset
import TpeSo.Lib.BuddySystem

namespace TpeSo.Lib

/-!
# The buddy system — blocks that leave no gap

* `Covers s top f out` — every place of the memory lies in a block;
* `covers_carve`, `covers_coalesce` — allocation and release open no gap;
* `freeLen s top f` — the length of all free blocks, and what allocation and release make of it;
* `Buddied.free_iff` — without gaps, the blocks that are out determine the free ones.
-/

variable {s low top k j n a p : Nat} {f f' : Nat → List Nat} {out : Set (Nat × Nat)}
  {x y : Nat × Nat}

/-- The place `p` lies in the block. -/
def Within (s : Nat) (x : Nat × Nat) (p : Nat) : Prop := x.1 ≤ p ∧ p < x.1 + blockLen s x.2

/-- Every place lies in a block. -/
def Covers (s top : Nat) (f : Nat → List Nat) (out : Set (Nat × Nat)) : Prop :=
  ∀ p < blockLen s top, ∃ x, IsBlock f out x ∧ Within s x p

theorem covers_init (s top : Nat) : Covers s top (fun k => if k = top then [0] else []) ∅ := by
  intro p hp
  refine ⟨(0, top), .inl ?_, Nat.zero_le p, ?_⟩
  · dsimp only
    rw [if_pos rfl]
    exact List.mem_cons_self
  · rwa [Nat.zero_add]

/-- A block with a place lies in a longer one with that place. -/
theorem within_of_le (hx : blockLen s x.2 ∣ x.1) (hy : blockLen s y.2 ∣ y.1) (hle : x.2 ≤ y.2)
    (hxp : Within s x p) (hyp : Within s y p) :
    y.1 ≤ x.1 ∧ x.1 + blockLen s x.2 ≤ y.1 + blockLen s y.2 := by
  obtain ⟨i, hi⟩ := hx
  obtain ⟨c, hc⟩ := blockLen_dvd s hle
  obtain ⟨b, hb⟩ := dvd_trans (blockLen_dvd s hle) hy
  obtain ⟨hxlo, hxhi⟩ := hxp
  obtain ⟨hylo, hyhi⟩ := hyp
  rw [hi, ← Nat.mul_succ] at hxhi
  rw [hi] at hxlo
  rw [hb] at hylo
  rw [hb, hc, ← Nat.mul_add] at hyhi
  have hbi : b < i + 1 := Nat.lt_of_mul_lt_mul_left (lt_of_le_of_lt hylo hxhi)
  have hic : i < b + c := Nat.lt_of_mul_lt_mul_left (lt_of_le_of_lt hxlo hyhi)
  refine ⟨?_, ?_⟩
  · rw [hi, hb]
    exact Nat.mul_le_mul_left _ (Nat.le_of_lt_succ hbi)
  · rw [hi, hb, hc, ← Nat.mul_succ, ← Nat.mul_add]
    exact Nat.mul_le_mul_left _ hic

theorem within_self (s : Nat) (x : Nat × Nat) : Within s x x.1 :=
  ⟨le_refl _, Nat.lt_add_of_pos_right (blockLen_pos s x.2)⟩

/-! ### Allocation and release -/

/-- Two buddies lie in the block they make. -/
theorem within_join (hd : blockLen s k ∣ a) (hp : Within s (a, k) p ∨ Within s (buddy s k a, k) p) :
    Within s (min a (buddy s k a), k + 1) p := by
  obtain ⟨-, hmax⟩ := halves hd
  have hlen := blockLen_succ s k
  unfold Within at hp ⊢
  dsimp only at hp ⊢
  omega

/-- **Release opens no gap.** -/
theorem covers_coalesce (hd : blockLen s k ∣ a) (n : Nat)
    (h : ∃ x, IsBlock f (insert (a, k) out) x ∧ Within s x p) :
    ∃ x, IsBlock (coalesce s f n k a) out x ∧ Within s x p := by
  -- a block that is given back is listed
  have hlist : ∀ {f : Nat → List Nat} {k a}, (∃ x, IsBlock f (insert (a, k) out) x ∧ Within s x p) →
      ∃ x, IsBlock (Function.update f k (a :: f k)) out x ∧ Within s x p := by
    rintro f k a ⟨x, hx | rfl | hx, hp⟩
    · refine ⟨x, .inl ?_, hp⟩
      by_cases hk : x.2 = k
      · rw [hk, Function.update_self]
        exact List.mem_cons_of_mem a (hk ▸ hx)
      · rwa [Function.update_of_ne hk]
    · refine ⟨(a, k), .inl ?_, hp⟩
      rw [Function.update_self]
      exact List.mem_cons_self
    · exact ⟨x, .inr hx, hp⟩
  induction n generalizing f k a with
  | zero => exact hlist h
  | succ n ih =>
    rw [coalesce]
    split
    · obtain ⟨hdvd, -⟩ := halves hd
      refine ih hdvd ?_
      obtain ⟨x, hx, hp⟩ := h
      by_cases hself : x = (a, k) ∨ x = (buddy s k a, k)
      · refine ⟨_, .inr (.inl rfl), within_join hd ?_⟩
        rcases hself with rfl | rfl
        · exact .inl hp
        · exact .inr hp
      · refine ⟨x, ?_, hp⟩
        rcases hx with hx | rfl | hx
        · refine .inl ?_
          by_cases hk : x.2 = k
          · have hne : x.1 ≠ buddy s k a := fun heq => hself (.inr (Prod.ext heq hk))
            rw [hk, Function.update_self]
            exact (List.mem_erase_of_ne hne).mpr (hk ▸ hx)
          · rwa [Function.update_of_ne hk]
        · exact absurd (.inl rfl) hself
        · exact .inr (.inr hx)
    · exact hlist h

/-- The pieces of a block that was cut. -/
theorem within_pieces (hkj : k ≤ j) (hp : Within s (a, j) p) :
    Within s (a, k) p ∨ ∃ o, k ≤ o ∧ o < j ∧ Within s (a + blockLen s o, o) p := by
  induction hkj using Nat.decreasingInduction with
  | self => exact .inl hp
  | of_succ k hk ih =>
    rcases ih with hlow | ⟨o, hko, hoj, ho⟩
    · have hlen := blockLen_succ s k
      unfold Within at hlow ⊢
      dsimp only at hlow ⊢
      by_cases hhalf : p < a + blockLen s k
      · exact .inl ⟨hlow.1, hhalf⟩
      · exact .inr ⟨k, le_refl k, hk, by omega, by omega⟩
    · exact .inr ⟨o, Nat.le_of_succ_le hko, hoj, ho⟩

/-- **Allocation opens no gap.** -/
theorem covers_carve {l : List Nat} (hf : f j = a :: l) (hkj : k ≤ j)
    (h : ∃ x, IsBlock f out x ∧ Within s x p) :
    ∃ x, IsBlock (carve s k j a l f) (insert (a, k) out) x ∧ Within s x p := by
  obtain ⟨x, hx | hx, hp⟩ := h
  · by_cases hself : x = (a, j)
    · subst hself
      rcases within_pieces hkj hp with hlow | ⟨o, hko, hoj, ho⟩
      · exact ⟨_, .inr (.inl rfl), hlow⟩
      · refine ⟨_, .inl ?_, ho⟩
        rw [carve, if_neg (Nat.ne_of_lt hoj), if_pos ⟨hko, hoj⟩]
        exact List.mem_cons_self
    · refine ⟨x, .inl ?_, hp⟩
      rw [carve]
      split
      · rename_i hj
        rw [hj, hf] at hx
        exact (List.mem_cons.mp hx).resolve_left fun heq => hself (Prod.ext heq hj)
      · split
        · exact List.mem_cons_of_mem _ hx
        · exact hx
  · exact ⟨x, .inr (.inr hx), hp⟩

/-! ### The free memory -/

/-- The length of all free blocks. -/
def freeLen (s top : Nat) (f : Nat → List Nat) : Nat :=
  ∑ k ∈ Finset.range (top + 1), (f k).length * blockLen s k

theorem freeLen_update (hk : k ≤ top) (l : List Nat) : freeLen s top (Function.update f k l) +
    (f k).length * blockLen s k = freeLen s top f + l.length * blockLen s k := by
  have hmem : k ∈ Finset.range (top + 1) := Finset.mem_range.mpr (Nat.lt_succ_of_le hk)
  have hrest : ∑ o ∈ (Finset.range (top + 1)).erase k,
      (Function.update f k l o).length * blockLen s o =
      ∑ o ∈ (Finset.range (top + 1)).erase k, (f o).length * blockLen s o := by
    refine Finset.sum_congr rfl fun o ho => ?_
    rw [Function.update_of_ne (Finset.ne_of_mem_erase ho)]
  rw [freeLen, freeLen, ← Finset.add_sum_erase _ _ hmem, ← Finset.add_sum_erase _ _ hmem, hrest,
    Function.update_self]
  omega

theorem freeLen_init (s top : Nat) :
    freeLen s top (fun k => if k = top then [0] else []) = blockLen s top := by
  rw [freeLen, Finset.sum_eq_single_of_mem top (Finset.self_mem_range_succ top)]
  · rw [if_pos rfl, List.length_singleton, Nat.one_mul]
  · intro k _ hk
    rw [if_neg hk, List.length_nil, Nat.zero_mul]

/-- A block that is given back is free afterwards. -/
theorem freeLen_coalesce : ∀ n k a (f : Nat → List Nat), n + k = top →
    freeLen s top (coalesce s f n k a) = freeLen s top f + blockLen s k := by
  intro n
  induction n with
  | zero =>
    intro k a f hk
    have hupd := freeLen_update (s := s) (f := f) (show k ≤ top by omega) (a :: f k)
    rw [List.length_cons, Nat.succ_mul] at hupd
    rw [coalesce]
    omega
  | succ n ih =>
    intro k a f hk
    rw [coalesce]
    split
    · rename_i hmem
      have hupd := freeLen_update (s := s) (f := f) (show k ≤ top by omega)
        ((f k).erase (buddy s k a))
      have hpos := List.length_pos_of_mem hmem
      have hlen : (f k).length = ((f k).erase (buddy s k a)).length + 1 := by
        rw [List.length_erase_of_mem hmem]
        omega
      rw [hlen, Nat.succ_mul] at hupd
      rw [ih (k + 1) _ _ (by omega), blockLen_succ]
      omega
    · have hupd := freeLen_update (s := s) (f := f) (show k ≤ top by omega) (a :: f k)
      rw [List.length_cons, Nat.succ_mul] at hupd
      omega

/-- A block that is taken is free no more. -/
theorem freeLen_carve {l : List Nat} (hf : f j = a :: l) (hj : j ≤ top) (hkj : k ≤ j) :
    freeLen s top (carve s k j a l f) + blockLen s k = freeLen s top f := by
  induction hkj using Nat.decreasingInduction with
  | self =>
    have hupd := freeLen_update (s := s) (f := f) hj l
    rw [hf, List.length_cons, Nat.succ_mul] at hupd
    rw [carve_self]
    omega
  | of_succ k hk ih =>
    have hupd := freeLen_update (s := s) (f := carve s (k + 1) j a l f)
      (show k ≤ top by omega) ((a + blockLen s k) :: f k)
    rw [carve_below hk, List.length_cons, Nat.succ_mul] at hupd
    rw [blockLen_succ] at ih
    rw [carve_succ hk]
    omega

/-! ### The free blocks are determined by the others -/

theorem buddy_dvd (h : blockLen s k ∣ a) : blockLen s k ∣ buddy s k a := by
  by_cases hd : blockLen s (k + 1) ∣ a
  · rw [buddy_of_dvd hd]
    exact Nat.dvd_add h (dvd_refl _)
  · exact dvd_trans (blockLen_dvd s (Nat.le_succ k)) (buddy_of_not_dvd h hd).2

namespace Buddied

/-- The buddy of a free block was cut, or is out. -/
theorem buddy_taken (h : Buddied s low top f out) (ha : a ∈ f k) (hk : k < top)
    (hy : IsBlock f out y) (hyp : Within s y (buddy s k a)) : y.2 < k ∨ y ∈ out := by
  by_cases hlt : y.2 < k
  · exact .inl hlt
  have hblock : IsBlock f out (a, k) := .inl ha
  have hd : blockLen s k ∣ a := h.aligned _ hblock
  have hdy := h.aligned y hy
  rcases Nat.eq_or_lt_of_le (not_lt.mp hlt) with heq | hklt
  · -- of the same order: it is the buddy, and two buddies are not both free
    obtain ⟨hlo, hhi⟩ := within_of_le (x := (buddy s k a, k)) (buddy_dvd hd) hdy heq.le
      (within_self s (buddy s k a, k)) hyp
    dsimp only at hlo hhi
    have hfst : y.1 = buddy s k a := by
      rw [← heq] at hhi
      omega
    refine .inr (hy.resolve_left fun hfree => ?_)
    rw [hfst, ← heq] at hfree
    exact h.coalesced k hk a ha hfree
  · -- of a higher order: it contains the free block
    obtain ⟨hdvd, -⟩ := halves hd
    have hbig : Within s (min a (buddy s k a), k + 1) (buddy s k a) :=
      within_join hd (.inr (within_self s (buddy s k a, k)))
    have hsmall : Within s (min a (buddy s k a), k + 1) a :=
      within_join hd (.inl (within_self s (a, k)))
    obtain ⟨hlo, hhi⟩ := within_of_le (x := (min a (buddy s k a), k + 1)) hdvd hdy hklt hbig hyp
    unfold Within at hsmall
    dsimp only at hlo hhi hsmall
    have heq := h.eq_of_start hy hblock (le_trans hlo hsmall.1) (lt_of_lt_of_le hsmall.2 hhi)
    rw [heq] at hklt
    exact absurd hklt (lt_irrefl k)

/-- What is out is apart from a free block. -/
theorem not_within_free (h : Buddied s low top f out) (hy : y.1 ∈ f y.2) (hx : x ∈ out)
    (hxp : Within s x p) : ¬ Within s y p := by
  intro hyp
  have hne : x ≠ y := by
    rintro rfl
    exact h.notOut _ _ hy hx
  unfold Within at hxp hyp
  rcases h.apart x y (.inr hx) (.inl hy) hne with hap | hap <;> omega

/-- In a region where nothing is out, no block is shorter than the region. -/
theorem order_le (h : Buddied s low top f out) (hc : Covers s top f out) (hd : blockLen s k ∣ a)
    (hk : k ≤ top) (hin : a + blockLen s k ≤ blockLen s top)
    (hfree : ∀ x ∈ out, ∀ p, Within s x p → ¬ Within s (a, k) p) (hx : IsBlock f out x)
    (hxp : Within s (a, k) x.1) : k ≤ x.2 := by
  by_contra hlt
  classical
  -- the shortest block of the region
  have hex : ∃ i, i < k ∧ ∃ c, IsBlock f out (c, i) ∧ Within s (a, k) c :=
    ⟨x.2, not_le.mp hlt, x.1, hx, hxp⟩
  obtain ⟨hik, c, hblock, hcp⟩ := Nat.find_spec hex
  have hmin := fun {i} (hi : i < Nat.find hex) => Nat.find_min hex hi
  generalize Nat.find hex = i at hik hblock hmin
  have hdc : blockLen s i ∣ c := h.aligned _ hblock
  have hmem : c ∈ f i :=
    hblock.resolve_right fun hout => hfree _ hout c (within_self s (c, i)) hcp
  -- its buddy lies in the region, and what covers it is shorter still
  obtain ⟨hdvd, -⟩ := halves hdc
  obtain ⟨hlo, hhi⟩ := within_of_le (x := (min c (buddy s i c), i + 1)) (y := (a, k)) hdvd hd hik
    (within_join hdc (.inl (within_self s (c, i)))) hcp
  have hbuddy : Within s (a, k) (buddy s i c) := by
    have hjoin : Within s (min c (buddy s i c), i + 1) (buddy s i c) :=
      within_join hdc (.inr (within_self s (buddy s i c, i)))
    exact ⟨le_trans hlo hjoin.1, lt_of_lt_of_le hjoin.2 hhi⟩
  obtain ⟨y, hy, hyp⟩ := hc (buddy s i c) (lt_of_lt_of_le hbuddy.2 hin)
  have hyi : y.2 < i := (h.buddy_taken hmem (lt_of_lt_of_le hik hk) hy hyp).resolve_right
    fun hout => hfree y hout _ hyp hbuddy
  have hyk : y.2 < k := lt_trans hyi hik
  obtain ⟨hylo, -⟩ := within_of_le (y := (a, k)) (h.aligned y hy) hd hyk.le hyp hbuddy
  exact hmin hyi ⟨hyk, y.1, hy, hylo, lt_of_le_of_lt hyp.1 hbuddy.2⟩

/-- A free block is free in every other system with the same blocks out. -/
theorem mem_free (h : Buddied s low top f out) (hc : Covers s top f out)
    (h' : Buddied s low top f' out) (hc' : Covers s top f' out) (ha : a ∈ f k) : a ∈ f' k := by
  have hblock : IsBlock f out (a, k) := .inl ha
  have hself := within_self s (a, k)
  have hd : blockLen s k ∣ a := h.aligned _ hblock
  have hin := h.inside _ hblock
  obtain ⟨y, hy, hyp⟩ := hc' a (lt_of_lt_of_le hself.2 hin)
  have hyfree : y.1 ∈ f' y.2 :=
    hy.resolve_right fun hout => h.not_within_free (y := (a, k)) ha hout hyp hself
  have hdy := h'.aligned y hy
  -- neither of the two blocks is shorter than the other
  have hky : k ≤ y.2 := by
    by_contra hlt
    have hyk := Nat.le_of_lt (not_le.mp hlt)
    obtain ⟨hlo, -⟩ := within_of_le (y := (a, k)) hdy hd hyk hyp hself
    exact hlt (h'.order_le hc' hd (h.order _ hblock).2 hin
      (fun x hx p => h.not_within_free (y := (a, k)) ha hx) hy ⟨hlo, lt_of_le_of_lt hyp.1 hself.2⟩)
  have hyk : y.2 ≤ k := h.order_le hc hdy (h'.order y hy).2 (h'.inside y hy)
    (fun x hx p => h'.not_within_free hyfree hx) hblock hyp
  have heq : k = y.2 := le_antisymm hky hyk
  obtain ⟨hlo, hhi⟩ := within_of_le (x := (a, k)) hd hdy hky hself hyp
  dsimp only at hlo hhi
  have hfst : y.1 = a := by
    rw [← heq] at hhi
    omega
  rwa [hfst, ← heq] at hyfree

/-- **The free blocks are determined** by the blocks that are out. -/
theorem free_iff (h : Buddied s low top f out) (hc : Covers s top f out)
    (h' : Buddied s low top f' out) (hc' : Covers s top f' out) : a ∈ f k ↔ a ∈ f' k :=
  ⟨h.mem_free hc h' hc', h'.mem_free hc' h hc⟩

end Buddied

end TpeSo.Lib
