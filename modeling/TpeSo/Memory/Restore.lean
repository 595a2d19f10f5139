import TpeSo.Memory.FirstFit

namespace TpeSo.MyMm

open Lib

/-!
# The simple memory manager — freeing what was just allocated

* `Tiled m` — the blocks in use are those of the allocations, each told by the count at its
  first block;
* `Tiled.history` — every history of calls keeps the table so;
* `myKmmFree_undoes_iff` — when `my_kmm_free` undoes the `my_kmalloc` before it.
-/

variable {m m' : Kmm} {size i j n p s : Nat} {c : Call} {o : Option Nat}

/-- The blocks in use are those of the allocations: a first block holds their number, and every
    other block, free or in use, holds `0`. -/
structure Tiled (m : Kmm) : Prop where
  memory : m.memory = heapBase
  inside : ∀ s, (m.blockInfo s).blockCount ≠ 0 → s + (m.blockInfo s).blockCount ≤ totalBlocks
  used : ∀ s j, j < (m.blockInfo s).blockCount → ¬ m.Free (s + j)
  inner : ∀ s j, j < (m.blockInfo s).blockCount → j ≠ 0 → (m.blockInfo (s + j)).blockCount = 0
  covered : ∀ p < totalBlocks, ¬ m.Free p → ∃ s ≤ p, p < s + (m.blockInfo s).blockCount

namespace Tiled

theorem init : Tiled (myKmmInit heapBase) where
  memory := rfl
  inside _ h := absurd rfl h
  used _ _ h := absurd h (Nat.not_lt_zero _)
  inner _ _ h := absurd h (Nat.not_lt_zero _)
  covered _ _ h := absurd rfl h

/-- A free block holds `0`. -/
theorem count_of_free (h : Tiled m) (hp : m.Free p) : (m.blockInfo p).blockCount = 0 := by
  by_contra hne
  exact h.used p 0 (Nat.pos_of_ne_zero hne) hp

/-- If the first block of the heap is in use, an allocation starts there. -/
theorem count_zero (h : Tiled m) (h0 : ¬ m.Free 0) : (m.blockInfo 0).blockCount ≠ 0 := by
  obtain ⟨s, hs, hlt⟩ := h.covered 0 (by decide) h0
  have hs0 : s = 0 := by omega
  subst hs0
  omega

/-- Two allocations that share a block are one. -/
theorem unique (h : Tiled m) {s t : Nat} (hs : s ≤ p) (hps : p < s + (m.blockInfo s).blockCount)
    (ht : t ≤ p) (hpt : p < t + (m.blockInfo t).blockCount) : s = t := by
  have hlt : ∀ {s t : Nat}, s < t → t ≤ p → p < s + (m.blockInfo s).blockCount →
      p < t + (m.blockInfo t).blockCount → False := by
    intro s t hst ht hps hpt
    have hzero := h.inner s (t - s) (by omega) (by omega)
    rw [Nat.add_sub_cancel' hst.le] at hzero
    omega
  rcases Nat.lt_trichotomy s t with hst | hst | hst
  · exact (hlt hst ht hps hpt).elim
  · exact hst
  · exact (hlt hst hs hpt hps).elim

end Tiled

/-! ### An allocation -/

theorem take_blockInfo (m : Kmm) (i n p : Nat) : (m.take i n).blockInfo p =
    if i ≤ p ∧ p < i + n then { isFree := false, blockCount := if p = i then n else 0 }
    else m.blockInfo p := rfl

theorem take_free_iff (m : Kmm) (i n p : Nat) :
    (m.take i n).Free p ↔ ¬ (i ≤ p ∧ p < i + n) ∧ m.Free p := by
  rw [Kmm.Free, take_blockInfo]
  split
  · rename_i hin
    simp [hin]
  · rename_i hout
    simp [hout, Kmm.Free]

/-- The counts after an allocation in free blocks. -/
theorem Tiled.take_count (h : Tiled m) (hfits : Fits m.Free totalBlocks n i) (hn : n ≠ 0) (s : Nat) :
    ((m.take i n).blockInfo s).blockCount = if s = i then n else (m.blockInfo s).blockCount := by
  rw [take_blockInfo]
  split
  · rename_i hin
    split
    · rfl
    · exact (h.count_of_free (hfits.of_pos hin.1 hin.2)).symm
  · rename_i hout
    rw [if_neg (by omega)]

/-- An allocation in free blocks is one more. -/
theorem Tiled.take (h : Tiled m) (hfits : Fits m.Free totalBlocks n i) : Tiled (m.take i n) := by
  by_cases hn : n = 0
  · subst hn
    rwa [Kmm.take, Kmm.paint_zero]
  have hcount : ∀ s, s ≠ i → ((m.take i n).blockInfo s).blockCount = (m.blockInfo s).blockCount :=
    fun s hs => (h.take_count hfits hn s).trans (if_neg hs)
  have hcount_self : ((m.take i n).blockInfo i).blockCount = n :=
    (h.take_count hfits hn i).trans (if_pos rfl)
  refine ⟨h.memory, fun s hs => ?_, fun s j hj => ?_, fun s j hj hj0 => ?_, fun p hp hused => ?_⟩
  · by_cases hsi : s = i
    · subst hsi
      rw [hcount_self]
      exact hfits.room
    · rw [hcount s hsi] at hs ⊢
      exact h.inside s hs
  · rw [take_free_iff]
    by_cases hsi : s = i
    · subst hsi
      rw [hcount_self] at hj
      exact fun hfree => hfree.1 (by omega)
    · rw [hcount s hsi] at hj
      exact fun hfree => h.used s j hj hfree.2
  · by_cases hsi : s = i
    · subst hsi
      rw [hcount_self] at hj
      rw [hcount _ (by omega)]
      exact h.count_of_free (hfits.free j hj)
    · rw [hcount s hsi] at hj
      by_cases hin : s + j = i
      · -- the start of the new allocation was free
        exact absurd (hfits.free 0 (by omega)) (hin ▸ h.used s j hj)
      · rw [hcount _ hin]
        exact h.inner s j hj hj0
  · rw [take_free_iff, not_and_or, not_not] at hused
    rcases hused with hin | hold
    · refine ⟨i, hin.1, ?_⟩
      rw [hcount_self]
      exact hin.2
    · obtain ⟨s, hs, hlt⟩ := h.covered p hp hold
      refine ⟨s, hs, ?_⟩
      have hsi : s ≠ i := by
        rintro rfl
        exact h.used s 0 (by omega) (hfits.free 0 (by omega))
      rwa [hcount s hsi]

/-! ### A release -/

/-- The table after the blocks of the allocation at `i` are released. -/
def Kmm.drop (m : Kmm) (i : Nat) : Kmm := m.paint i (m.blockInfo i).blockCount fun _ => {}

theorem drop_blockInfo (m : Kmm) (i p : Nat) : (m.drop i).blockInfo p =
    if i ≤ p ∧ p < i + (m.blockInfo i).blockCount then {} else m.blockInfo p := rfl

/-- The counts after a release. -/
theorem Tiled.drop_count (h : Tiled m) (i s : Nat) : ((m.drop i).blockInfo s).blockCount =
    if s = i then 0 else (m.blockInfo s).blockCount := by
  rw [drop_blockInfo]
  split
  · rename_i hin
    split
    · rfl
    · rename_i hsi
      have hzero := h.inner i (s - i) (by omega) (by omega)
      rwa [Nat.add_sub_cancel' hin.1, eq_comm] at hzero
  · rename_i hout
    split
    · rename_i hsi
      subst hsi
      omega
    · rfl

/-- Releasing an allocation leaves the others. -/
theorem Tiled.drop (h : Tiled m) (i : Nat) : Tiled (m.drop i) := by
  have hcount := h.drop_count i
  have hfree : ∀ p, (m.drop i).Free p ↔
      (i ≤ p ∧ p < i + (m.blockInfo i).blockCount) ∨ m.Free p := by
    intro p
    rw [Kmm.Free, drop_blockInfo]
    split
    · rename_i hin
      simp [hin]
    · rename_i hout
      simp [hout, Kmm.Free]
  refine ⟨h.memory, fun s hs => ?_, fun s j hj => ?_, fun s j hj hj0 => ?_, fun p hp hused => ?_⟩
  · rw [hcount] at hs ⊢
    split at hs
    · exact absurd rfl hs
    · rw [if_neg (by assumption)]
      exact h.inside s hs
  · rw [hcount] at hj
    split at hj
    · exact absurd hj (Nat.not_lt_zero _)
    · rename_i hsi
      rw [hfree]
      rintro (hin | hold)
      · exact hsi (h.unique (p := s + j) (by omega) (by omega) hin.1 hin.2)
      · exact h.used s j hj hold
  · rw [hcount] at hj
    split at hj
    · exact absurd hj (Nat.not_lt_zero _)
    · rw [hcount]
      split
      · rfl
      · exact h.inner s j hj hj0
  · rw [hfree, not_or] at hused
    obtain ⟨s, hs, hlt⟩ := h.covered p hp hused.2
    have hsi : s ≠ i := by
      rintro rfl
      exact hused.1 ⟨hs, hlt⟩
    refine ⟨s, hs, ?_⟩
    rwa [hcount, if_neg hsi]

/-- **`my_kmm_free`** of an address inside the heap. -/
theorem myKmmFree_eq (h : Tiled m) {ptr : Nat} (hlo : m.memory ≤ ptr)
    (hhi : ptr < m.memory + heapSize) :
    myKmmFree m (some ptr) = .ok (m.drop ((ptr - m.memory) / blockSize)) := by
  have hin : (ptr - m.memory) / blockSize < totalBlocks := by
    simp only [totalBlocks_eq, blockSize, heapSize] at *
    omega
  have hroom : (ptr - m.memory) / blockSize +
      (m.blockInfo ((ptr - m.memory) / blockSize)).blockCount ≤ totalBlocks := by
    by_cases hzero : (m.blockInfo ((ptr - m.memory) / blockSize)).blockCount = 0
    · omega
    · exact h.inside _ hzero
  have hrange : ¬ (ptr < m.memory ∨ m.memory + heapSize ≤ ptr) := by omega
  simp only [myKmmFree, hrange, if_false, Kmm.read, hin, if_true, Outcome.ok_bind]
  rw [release_eq hroom]
  rfl

/-! ### Histories -/

/-- What `my_kmalloc` does, if it comes back: it takes free blocks, possibly none, or refuses. -/
theorem myKmalloc_cases {r : Option Nat} (hsize : size < word) (h : myKmalloc m size = .ok (m', r)) :
    (r = none ∧ m' = m) ∨ (blocksNeeded size = 0 ∧ r = some m.memory ∧ m' = m) ∨
      ∃ i, blocksNeeded size ≠ 0 ∧ Fits m.Free totalBlocks (blocksNeeded size) i ∧
        r = some (m.memory + i * blockSize) ∧ m' = m.take i (blocksNeeded size) := by
  by_cases hnone : blocksNeeded size = 0
  · rw [myKmalloc_nothing hnone] at h
    cases h
    exact .inr (.inl ⟨hnone, rfl, rfl⟩)
  · by_cases hle : blocksNeeded size ≤ totalBlocks
    · obtain ⟨r', hsearch, heq⟩ := myKmalloc_eq (m := m) hle
      rw [heq] at h
      cases r' with
      | none =>
        cases h
        exact .inl ⟨rfl, rfl⟩
      | some i =>
        cases h
        exact .inr (.inr ⟨i, hnone, hsearch.1.2, rfl, rfl⟩)
    · have hbig : heapSize < size := by
        by_contra hsmall
        refine hle ((blocksNeeded_le_iff ?_).mpr (not_lt.mp hsmall))
        simp only [blockSize, word_eq, heapSize] at *
        omega
      obtain ⟨hmany, hfew⟩ := (blocksNeeded_big hbig hsize).resolve_left hnone
      rw [myKmalloc, search_fault hmany hfew (Nat.zero_le _) (by omega), Outcome.fault_bind] at h
      cases h

/-- Every call keeps the table tiled. -/
theorem Tiled.next (h : Tiled m) (hc : c.Wide) (hs : next m c = some (m', o)) : Tiled m' := by
  cases c with
  | kmalloc size =>
    rcases myKmalloc_cases hc (Outcome.toOption_eq_some.mp hs) with
      ⟨-, rfl⟩ | ⟨-, -, rfl⟩ | ⟨i, -, hfits, -, rfl⟩
    · exact h
    · exact h
    · exact h.take hfits
  | kmmFree ptr =>
    obtain ⟨m₁, hm, he⟩ := Option.map_eq_some_iff.mp hs
    obtain ⟨rfl, -⟩ := Prod.mk.inj he
    have hm := Outcome.toOption_eq_some.mp hm
    cases ptr with
    | none =>
      cases hm
      exact h
    | some p =>
      by_cases hrange : p < m.memory ∨ m.memory + heapSize ≤ p
      · simp only [myKmmFree, hrange, if_true] at hm
        cases hm
        exact h
      · rw [not_or, not_lt, not_le] at hrange
        rw [myKmmFree_eq h hrange.1 hrange.2] at hm
        cases hm
        exact h.drop _

theorem Tiled.history {tr : List (Kmm × Call × Option Nat)} (h : History tr m) : Tiled m :=
  h.invariant Tiled init fun _ _ _ _ hI hc hs => hI.next hc hs

/-! ### Allocate and free -/

/-- Freeing an allocation right after it was made restores the table. -/
def Undone (m : Kmm) (size : Nat) : Prop :=
  ∀ m' p, myKmalloc m size = .ok (m', some p) → myKmmFree m' (some p) = .ok m

theorem Tiled.drop_take (h : Tiled m) (hfits : Fits m.Free totalBlocks n i) (hn : n ≠ 0) :
    (m.take i n).drop i = m := by
  have hcount : ((m.take i n).blockInfo i).blockCount = n := by
    rw [take_blockInfo, if_pos (by omega)]
    simp
  have htable : ((m.take i n).drop i).blockInfo = m.blockInfo := by
    funext p
    rw [drop_blockInfo, hcount, take_blockInfo]
    split
    · rename_i hin
      -- a free block of a tiled table is as `my_kmm_free` leaves it
      have hfree := hfits.of_pos hin.1 hin.2
      have hzero := h.count_of_free hfree
      rw [Kmm.Free] at hfree
      cases hb : m.blockInfo p with
      | mk isFree blockCount =>
        rw [hb] at hfree hzero
        exact (congrArg₂ BlockInfo.mk hfree hzero).symm
    · rfl
  have hmk : (m.take i n).drop i = { m with blockInfo := ((m.take i n).drop i).blockInfo } := rfl
  rw [hmk, htable]

/-- **`my_kmm_free`** of the blocks just taken. -/
theorem Tiled.free_take (h : Tiled m) (hfits : Fits m.Free totalBlocks n i) (hn : n ≠ 0) :
    myKmmFree (m.take i n) (some (m.memory + i * blockSize)) = .ok m := by
  have hroom := hfits.room
  have hindex : (m.memory + i * blockSize - m.memory) / blockSize = i := by
    rw [Nat.add_sub_cancel_left]
    exact Nat.mul_div_cancel i (by decide)
  have hhi : m.memory + i * blockSize < m.memory + heapSize := by
    simp only [totalBlocks_eq, blockSize, heapSize] at *
    omega
  refine (myKmmFree_eq (h.take hfits) (Nat.le_add_right _ _) hhi).trans ?_
  refine (congrArg (fun x => Outcome.ok ((m.take i n).drop x)) hindex).trans ?_
  rw [h.drop_take hfits hn]

/-- **When freeing undoes allocating.**  In every state the manager can reach and for every
    64-bit size, `my_kmm_free` right after `my_kmalloc` restores the table exactly when the
    request comes to a block at least, or the first block of the heap is free. -/
theorem myKmmFree_undoes_iff {tr : List (Kmm × Call × Option Nat)} (h : History tr m)
    (hsize : size < word) :
    Undone m size ↔ (1 ≤ size ∧ size + (blockSize - 1) < word) ∨ m.Free 0 := by
  have ht := Tiled.history h
  have hblocks : blocksNeeded size ≠ 0 ↔ 1 ≤ size ∧ size + (blockSize - 1) < word := by
    simp only [blocksNeeded, blockSize, word_eq] at *
    omega
  have hmem : m.memory < m.memory + heapSize := by
    simp only [heapSize]
    omega
  rw [← hblocks]
  constructor
  · intro hundo
    by_contra hno
    rw [not_or, not_not] at hno
    have hfree := hundo m m.memory (myKmalloc_nothing hno.1)
    rw [myKmmFree_eq ht (le_refl _) hmem, Nat.sub_self, Nat.zero_div] at hfree
    -- the allocation at the start of the heap has been released
    have hpos := Nat.pos_of_ne_zero (ht.count_zero hno.2)
    have h0 : (m.drop 0).Free 0 := by
      rw [Kmm.Free, drop_blockInfo, if_pos (by omega)]
    rw [Outcome.ok.inj hfree] at h0
    exact hno.2 h0
  · intro hcond m' p hm
    rcases myKmalloc_cases hsize hm with ⟨hr, -⟩ | ⟨hnone, hr, rfl⟩ | ⟨i, hn, hfits, hr, rfl⟩
    · cases hr
    · cases hr
      rw [myKmmFree_eq ht (le_refl _) hmem, Nat.sub_self, Nat.zero_div]
      have hzero := ht.count_of_free (hcond.resolve_left (not_not.mpr hnone))
      rw [Kmm.drop, hzero, Kmm.paint_zero]
    · cases hr
      exact ht.free_take hfits hn

theorem myKmmFree_undoes_page : Undone (myKmmInit heapBase) 4096 :=
  (myKmmFree_undoes_iff .nil (by decide)).mpr (.inl (by decide))

/-- After an allocation of one byte, a request of no bytes returns its address, and freeing that
    releases it. -/
theorem myKmmFree_releases_other : ¬ ∀ tr m size, History tr m → size < word → Undone m size := by
  intro hall
  have hcheck : execCheck next (fun _ c => c.Wide)
      (fun _ m => !(m.blockInfo 0).isFree &&
        ((myKmmFree m (some m.memory)).toOption.map fun m => (m.blockInfo 0).isFree) == some true)
      (myKmmInit heapBase) [.kmalloc 1] = true := by decide +kernel
  obtain ⟨tr, m, hrun, hQ⟩ := Trace.of_execCheck hcheck
  have hundo := hall tr m 0 hrun (by decide) m m.memory (myKmalloc_nothing (by decide))
  rw [hundo] at hQ
  simp [Outcome.toOption] at hQ

end TpeSo.MyMm
