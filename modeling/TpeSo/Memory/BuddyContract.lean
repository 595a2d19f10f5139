import Mathlib.Order.Bounds.Basic
import TpeSo.Memory.BuddyHistory

namespace TpeSo.Buddy

open Lib

/-!
# What the buddy memory manager promises

* `buddyKmalloc_splits` — which block is handed out, and what becomes of the lists;
* `buddyKmalloc_fits_iff` — the block is long enough exactly when the sum in `get_order` does not
  wrap around, or there is no block to give;
* `buddyKmmFree_undoes` — giving a block back right away restores every list, in its order.
-/

variable {s : Heap} {m m' : Cdt} {mem : Memory} {f : Nat → List Nat} {out : Set (Nat × Nat)}
  {tr : List (Heap × Call × Option Nat)} {a j k p size : Nat} {l : List Nat}

/-! ### Splitting -/

/-- Without wrapping around, `get_order` finds the least order that is large enough, if it is one
    of the manager's. -/
theorem getOrder_eq (hsize : size + headerSize < word)
    (hk : IsLeast {o | minOrder ≤ o ∧ size + headerSize ≤ blocksize o} k) (hmax : k ≤ maxOrder) :
    getOrder size = k := by
  obtain ⟨hmin, hbelow, hfit⟩ := getOrder_spec size
  rw [Nat.mod_eq_of_lt hsize] at hbelow hfit
  refine Nat.le_antisymm ?_ ?_
  · by_contra hlt
    exact absurd (hbelow k hk.1.1 (not_le.mp hlt)) (not_lt_of_ge hk.1.2)
  · by_contra hlt
    have hle : getOrder size ≤ maxOrder := by omega
    exact hlt (hk.2 ⟨hmin, hfit hle⟩)

/-- If no order of the manager is large enough, it finds none. -/
theorem maxOrder_lt_getOrder (hsize : size + headerSize < word)
    (hk : IsLeast {o | minOrder ≤ o ∧ size + headerSize ≤ blocksize o} k) (hmax : maxOrder < k) :
    maxOrder < getOrder size := by
  obtain ⟨hmin, -, hfit⟩ := getOrder_spec size
  rw [Nat.mod_eq_of_lt hsize] at hfit
  by_contra hle
  have hleast : k ≤ getOrder size := hk.2 ⟨hmin, hfit (not_lt.mp hle)⟩
  omega

/-- **Allocation is complete and splits as little as it can.** -/
theorem buddyKmalloc_splits (h : History mem tr s) (hone : 1 ≤ size)
    (hsize : size + headerSize < word)
    (hk : IsLeast {o | minOrder ≤ o ∧ size + headerSize ≤ blocksize o} k) :
    ∃ f : Nat → List Nat, (∀ o, Listed s.cdt o (f o)) ∧
      ((buddyKmalloc s.cdt size).2 = none ↔
        maxOrder < k ∨ ∀ o, k ≤ o → o ≤ maxOrder → f o = []) ∧
      ((buddyKmalloc s.cdt size).2 = none → (buddyKmalloc s.cdt size).1 = s.cdt) ∧
      ∀ j a l, IsLeast {o | k ≤ o ∧ o ≤ maxOrder ∧ f o ≠ []} j → f j = a :: l →
        ∃ m', buddyKmalloc s.cdt size = (m', some (s.cdt.base + a + headerSize)) ∧
          Header m' (a, k) 0 ∧
          ∀ o, Listed m' o
            (if o = j then l else if k ≤ o ∧ o < j then (a + blocksize o) :: f o else f o) := by
  obtain ⟨f, out, hs⟩ := InOrder.history h
  refine ⟨f, hs.shows.lists, ?_⟩
  have hne : size ≠ 0 := by omega
  rcases buddyKmalloc_cases hs.shows size with
    ⟨hrun, hwhy⟩ | ⟨i, b, r, m', -, hki, hi, hf, hempty, hrun, hbase, ht⟩
  · -- nothing was handed out: no list from `k` on has a block
    have hnone : maxOrder < k ∨ ∀ o, k ≤ o → o ≤ maxOrder → f o = [] := by
      by_cases hmax : maxOrder < k
      · exact .inl hmax
      · rw [getOrder_eq hsize hk (not_lt.mp hmax)] at hwhy
        exact .inr (hwhy.resolve_left hne)
    rw [hrun]
    refine ⟨⟨fun _ => hnone, fun _ => rfl⟩, fun _ => rfl, fun j a l hj hl => ?_⟩
    obtain ⟨hkj, hjmax, hfj⟩ := hj.1
    rcases hnone with hmax | hall
    · omega
    · exact absurd (hall j hkj hjmax) hfj
  · have hmax : k ≤ maxOrder := by
      by_contra hlt
      have hgt := maxOrder_lt_getOrder hsize hk (not_le.mp hlt)
      omega
    rw [getOrder_eq hsize hk hmax] at hki hempty ht
    rw [hrun]
    have hsome : (some (s.cdt.base + b + headerSize)) ≠ none := Option.some_ne_none _
    refine ⟨⟨fun hnone => absurd hnone hsome, ?_⟩, fun hnone => absurd hnone hsome,
      fun j a l hj hl => ?_⟩
    · rintro (hlt | hall)
      · omega
      · rw [hall i hki hi] at hf
        cases hf
    · have hij : i = j := by
        refine Nat.le_antisymm ?_ (hj.2 ⟨hki, hi, by rw [hf]; exact List.cons_ne_nil b r⟩)
        by_contra hlt
        exact hj.1.2.2 (hempty j hj.1.1 (not_le.mp hlt))
      subst hij
      rw [hf] at hl
      obtain ⟨rfl, rfl⟩ := List.cons.inj hl
      exact ⟨m', rfl, ht.header, ht.shows.lists⟩

/-- The first page is the lowest piece of the whole memory. -/
theorem buddyKmalloc_splits_page : ∃ m',
    buddyKmalloc (Heap.init fun _ => 0).cdt 4096 = (m', some (heapBase + cdtSize + headerSize)) ∧
    Header m' (0, 7) 0 ∧ ∀ o, 7 ≤ o → o < maxOrder → Listed m' o [blocksize o] := by
  have hleast : IsLeast {o | minOrder ≤ o ∧ 4096 + headerSize ≤ blocksize o} 7 := by
    refine ⟨by decide, fun o ho => ?_⟩
    by_contra hlt
    have hle : blocksize o ≤ blocksize 6 := Nat.pow_le_pow_right (by decide) (by omega)
    exact absurd (le_trans ho.2 hle) (by decide)
  obtain ⟨f, hf, -, -, hcut⟩ := buddyKmalloc_splits (.nil : History (fun _ => 0) [] _)
    (by decide) (by decide) hleast
  have hinit := (InOrder.init fun _ => 0).shows
  have hlist : ∀ o, f o = if o = maxOrder then [0] else [] := fun o =>
    Chain.unique hinit.base_pos (hf o) (hinit.lists o)
  have htop : f maxOrder = [0] := (hlist maxOrder).trans (if_pos rfl)
  have hleast' : IsLeast {o | 7 ≤ o ∧ o ≤ maxOrder ∧ f o ≠ []} maxOrder := by
    refine ⟨⟨by decide, le_refl _, htop ▸ List.cons_ne_nil 0 []⟩, fun o ho => ?_⟩
    by_contra hlt
    exact ho.2.2 ((hlist o).trans (if_neg (by omega)))
  obtain ⟨m', hrun, hhead, hlists⟩ := hcut maxOrder 0 [] hleast' htop
  refine ⟨m', hrun, hhead, fun o hlo hhi => ?_⟩
  have hcarved := hlists o
  rw [if_neg (by omega), if_pos ⟨hlo, hhi⟩, hlist, if_neg (by omega), Nat.zero_add] at hcarved
  exact hcarved

/-! ### Sizes -/

/-- What `buddy_kmalloc` returns for `size` is in a block that is long enough, by its header. -/
def BigEnough (m : Cdt) (size : Nat) : Prop :=
  ∀ m' p k, buddyKmalloc m size = (m', some p) → m'.get (headerOf p) .order = k →
    (size : Int) ≤ (blocksize k : Int) - headerSize ∧ p + size ≤ headerOf p + blocksize k

/-- A sum that wraps around asks for the smallest block. -/
theorem getOrder_of_overflow (hlt : size < word) (hover : word ≤ size + headerSize) :
    getOrder size = minOrder := by
  obtain ⟨hmin, hbelow, -⟩ := getOrder_spec size
  have hword : word = 18446744073709551616 := rfl
  have h16 : headerSize = 16 := rfl
  have hsum : (size + headerSize) % word = size + headerSize - word := by
    rw [Nat.mod_eq_sub_mod hover, Nat.mod_eq_of_lt (by omega)]
  by_contra hne
  have hsmall := hbelow minOrder (le_refl _) (by omega)
  have h512 : blocksize minOrder = 512 := rfl
  omega

theorem bigEnough_iff (h : Shows m f out) (hone : 1 ≤ size) (hsize : size < word) :
    BigEnough m size ↔
      size + headerSize < word ∨ ∀ k, minOrder ≤ k → k ≤ maxOrder → m.freeLists k = 0 := by
  have hword : word = 18446744073709551616 := rfl
  have h16 : headerSize = 16 := rfl
  -- the block that is handed out has the order that was computed
  have hcut : ∀ {m' a l j}, m'.base = m.base →
      Took m m' out (a, getOrder size) (carve 6 (getOrder size) j a l f) →
      headerOf (m.base + a + headerSize) = m.base + a ∧
        m'.get (m.base + a) .order = getOrder size := by
    intro m' a l j hbase ht
    have hhead := ht.shows.headerOf_payload (x := (a, getOrder size)) (.inr (.inl rfl))
    rw [hbase] at hhead
    exact ⟨hhead, hbase ▸ ht.header.order⟩
  obtain ⟨hmin, -, hfit⟩ := getOrder_spec size
  rcases buddyKmalloc_cases h size with
    ⟨hrun, hwhy⟩ | ⟨j, a, l, m', -, hkj, hj, hf, hempty, hrun, hbase, ht⟩
  · refine ⟨fun _ => ?_, fun _ m' p k hsome => ?_⟩
    · by_cases hover : size + headerSize < word
      · exact .inl hover
      · have hall := hwhy.resolve_left (by omega)
        rw [getOrder_of_overflow hsize (not_lt.mp hover)] at hall
        exact .inr fun k hlo hhi => h.freeLists_eq_zero_iff.mpr (hall k hlo hhi)
    · rw [hrun] at hsome
      cases (Prod.mk.inj hsome).2
  · obtain ⟨hhead, horder⟩ := hcut hbase ht
    constructor
    · intro hbig
      by_contra hno
      rw [not_or] at hno
      have hsmall := getOrder_of_overflow hsize (not_lt.mp hno.1)
      have hle := (hbig m' _ (getOrder size) hrun (by rw [hhead, horder])).1
      have h512 : blocksize (getOrder size) = 512 := by rw [hsmall]; rfl
      rw [h512] at hle
      omega
    · rintro (hok | hall)
      · intro m'' p k hsome hk
        rw [hrun] at hsome
        obtain ⟨rfl, hp⟩ := Prod.mk.inj hsome
        obtain rfl := Option.some.inj hp
        rw [hhead, horder] at hk
        have hlong := hfit (le_trans hkj hj)
        rw [Nat.mod_eq_of_lt hok, hk] at hlong
        rw [hhead]
        omega
      · have hzero := hall j (le_trans hmin hkj) hj
        rw [h.freeLists_eq_zero_iff, hf] at hzero
        cases hzero

/-- **Blocks are big enough** unless the size is within a header of `2 ^ 64`. -/
theorem buddyKmalloc_fits_iff (h : History mem tr s) (hone : 1 ≤ size) (hsize : size < word) :
    BigEnough s.cdt size ↔
      size + headerSize < word ∨ ∀ k, minOrder ≤ k → k ≤ maxOrder → s.cdt.freeLists k = 0 := by
  obtain ⟨f, out, hs⟩ := InOrder.history h
  exact bigEnough_iff hs.shows hone hsize

/-- A page fits. -/
theorem buddyKmalloc_fits_page : BigEnough (Heap.init fun _ => 0).cdt 4096 :=
  (buddyKmalloc_fits_iff .nil (by decide) (by decide)).mpr (.inl (by decide))

/-- The largest size of all is answered with a block of 512 bytes. -/
theorem buddyKmalloc_overflow : ¬ ∀ mem tr s size, History mem tr s → 1 ≤ size → size < word →
    BigEnough s.cdt size := by
  intro hall
  have hinit := (InOrder.init fun _ => 0).shows
  have hbig := hall _ _ _ (word - 1) (.nil : History (fun _ => 0) [] _) (by decide) (by decide)
  rcases (bigEnough_iff hinit (by decide) (by decide)).mp hbig with hlt | hempty
  · exact absurd hlt (by decide)
  · exact absurd (hempty maxOrder (by decide) (le_refl _)) (by decide)

/-! ### Giving back -/

/-- The lists of `m'` are those of `m`, in the same order. -/
def SameLists (m m' : Cdt) : Prop :=
  (∀ k, m'.freeLists k = m.freeLists k) ∧ ∀ k l, Listed m k l ↔ Listed m' k l

theorem Shows.sameLists {used : Set (Nat × Nat)} (h : Shows m f out) (h' : Shows m' f used) :
    SameLists m m' := by
  have hbase : m'.base = m.base := h'.base.trans h.base.symm
  refine ⟨fun k => ?_, fun k l => ⟨fun hl => ?_, fun hl => ?_⟩⟩
  · cases hf : f k with
    | nil => rw [h.freeLists_eq_zero_iff.mpr hf, h'.freeLists_eq_zero_iff.mpr hf]
    | cons a l => rw [h.freeLists_of_cons hf, h'.freeLists_of_cons hf, hbase]
  · rw [Chain.unique h.base_pos hl (h.lists k)]
    exact h'.lists k
  · rw [Chain.unique h'.base_pos hl (h'.lists k)]
    exact h.lists k

/-- **Release undoes allocation**, of any size. -/
theorem buddyKmmFree_undoes (h : History mem tr s) (hrun : buddyKmalloc s.cdt size = (m, some p)) :
    ∃ m', buddyKmmFree m p = .ok m' ∧ SameLists s.cdt m' := by
  obtain ⟨f, out, hs⟩ := InOrder.history h
  obtain ⟨hmin, -, -⟩ := getOrder_spec size
  rcases buddyKmalloc_cases hs.shows size with
    ⟨hnone, -⟩ | ⟨j, a, l, m', -, hkj, hj, hf, hempty, hsome, hbase, ht⟩
  · rw [hnone] at hrun
    cases (Prod.mk.inj hrun).2
  · rw [hsome] at hrun
    obtain ⟨rfl, hp⟩ := Prod.mk.inj hrun
    obtain rfl := Option.some.inj hp
    obtain ⟨m'', hfree, hm'', -⟩ := buddyKmmFree_spec ht.shows ht.new ht.header
    rw [hbase] at hfree
    refine ⟨m'', hfree, ?_⟩
    -- the merges climb exactly as far as the splits went down
    rw [coalesce_carve hs.shows.buddied hf _ _ (Nat.sub_add_cancel (le_trans hkj hj)) hkj hempty]
      at hm''
    exact hs.shows.sameLists hm''

/-- A page taken at the start and given back leaves the lists as they were. -/
theorem buddyKmmFree_undoes_page : ∃ m p m',
    buddyKmalloc (Heap.init fun _ => 0).cdt 4096 = (m, some p) ∧ buddyKmmFree m p = .ok m' ∧
    SameLists (Heap.init fun _ => 0).cdt m' := by
  have hinit := (InOrder.init fun _ => 0).shows
  rcases buddyKmalloc_cases hinit 4096 with
    ⟨-, hwhy⟩ | ⟨j, a, l, m, -, -, -, -, -, hrun, -, -⟩
  · have hempty := hwhy.resolve_left (by decide) maxOrder (by decide) (le_refl _)
    cases hempty
  · obtain ⟨m', hfree, hsame⟩ := buddyKmmFree_undoes (.nil : History (fun _ => 0) [] _) hrun
    exact ⟨m, _, m', hrun, hfree, hsame⟩

end TpeSo.Buddy
