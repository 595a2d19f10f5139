import TpeSo.Memory.Restore

namespace TpeSo.MyMm

open Lib

/-!
# The simple memory manager — what is live

* `Kmm.Live m x` — an allocation of `x.2` blocks from `x.1` on;
* `Tiled.live_take`, `Tiled.live_drop` — what a call makes of the allocations;
* `myMm_integrity` — the table is cut into the live allocations and free blocks, and which of them
  each call touches.
-/

variable {m m' : Kmm} {size i n p : Nat} {x y : Nat × Nat}

/-- The first block of the run `x` holds its length. -/
def Kmm.Live (m : Kmm) (x : Nat × Nat) : Prop := x.2 ≠ 0 ∧ (m.blockInfo x.1).blockCount = x.2

/-- The runs share no block. -/
def Separate (x y : Nat × Nat) : Prop := x.1 + x.2 ≤ y.1 ∨ y.1 + y.2 ≤ x.1

/-- The address is in the first block of the run. -/
def Kmm.Heads (m : Kmm) (ptr : Option Nat) (x : Nat × Nat) : Prop :=
  ∃ p, ptr = some p ∧ m.memory + x.1 * blockSize ≤ p ∧ p < m.memory + (x.1 + 1) * blockSize

namespace Tiled

variable (h : Tiled m)

include h

theorem apart (hx : m.Live x) (hy : m.Live y) (hne : x ≠ y) : Separate x y := by
  obtain ⟨hx0, hxc⟩ := hx
  obtain ⟨hy0, hyc⟩ := hy
  by_contra hap
  unfold Separate at hap
  -- they share the start of the one that starts later
  have hstart : x.1 = y.1 := by
    rcases le_total x.1 y.1 with hle | hle
    · exact h.unique (p := y.1) hle (by omega) (le_refl _) (by omega)
    · exact h.unique (p := x.1) (le_refl _) (by omega) hle (by omega)
  exact hne (Prod.ext hstart (hxc.symm.trans (hstart ▸ hyc)))

/-- A block that no allocation has is as at the start. -/
theorem rest (hp : p < totalBlocks) (hno : ∀ x, m.Live x → ¬ (x.1 ≤ p ∧ p < x.1 + x.2)) :
    m.blockInfo p = {} := by
  have hfree : m.Free p := by
    by_contra hused
    obtain ⟨s, hs, hlt⟩ := h.covered p hp hused
    refine hno (s, (m.blockInfo s).blockCount) ⟨?_, rfl⟩ ⟨hs, hlt⟩
    dsimp only
    omega
  have hzero := h.count_of_free hfree
  rw [Kmm.Free] at hfree
  cases hb : m.blockInfo p with
  | mk isFree blockCount =>
    rw [hb] at hfree hzero
    exact congrArg₂ BlockInfo.mk hfree hzero

/-- Free blocks are apart from the allocations. -/
theorem apart_of_fits (hfits : Fits m.Free totalBlocks n i) (hn : n ≠ 0) (hx : m.Live x) :
    Separate (i, n) x := by
  obtain ⟨hx0, hxc⟩ := hx
  by_contra hap
  unfold Separate at hap
  dsimp only at hap
  have hfree : ∀ p, i ≤ p → p < i + n → x.1 ≤ p → p < x.1 + x.2 → False := by
    intro p hlo hhi hxlo hxhi
    have hused := h.used x.1 (p - x.1) (by omega)
    rw [Nat.add_sub_cancel' hxlo] at hused
    exact hused (hfits.of_pos hlo hhi)
  rcases le_total i x.1 with hle | hle
  · exact hfree x.1 hle (by omega) (le_refl _) (by omega)
  · exact hfree i (le_refl _) (by omega) hle (by omega)

/-- **An allocation is one more.** -/
theorem live_take (hfits : Fits m.Free totalBlocks n i) (hn : n ≠ 0) :
    (m.take i n).Live x ↔ m.Live x ∨ x = (i, n) := by
  have hzero : (m.blockInfo i).blockCount = 0 := h.count_of_free (hfits.free 0 (by omega))
  rw [Kmm.Live, Kmm.Live, h.take_count hfits hn, Prod.ext_iff]
  dsimp only
  split
  · rename_i hxi
    rw [hxi, hzero]
    constructor
    · rintro ⟨-, hc⟩
      exact .inr ⟨rfl, hc.symm⟩
    · rintro (⟨h0, hc⟩ | ⟨-, hc⟩)
      · exact absurd hc.symm h0
      · exact ⟨hc ▸ hn, hc.symm⟩
  · rename_i hxi
    rw [or_iff_left fun heq => hxi heq.1]

/-- **A release is one less.** -/
theorem live_drop : (m.drop i).Live x ↔ m.Live x ∧ x.1 ≠ i := by
  rw [Kmm.Live, Kmm.Live, h.drop_count]
  split
  · rename_i hxi
    constructor
    · rintro ⟨h0, hc⟩
      exact absurd hc.symm h0
    · exact fun hx => absurd hxi hx.2
  · rename_i hxi
    rw [and_iff_left hxi]

/-- **`my_kmm_free`** of any address. -/
theorem free_cases (ptr : Option Nat) : (myKmmFree m ptr = .ok m ∧ ∀ x, m.Live x → ¬ m.Heads ptr x) ∨
    ∃ x, m.Live x ∧ m.Heads ptr x ∧ myKmmFree m ptr = .ok (m.drop x.1) := by
  cases ptr with
  | none =>
    refine .inl ⟨rfl, fun x _ hp => ?_⟩
    obtain ⟨p, hp, -⟩ := hp
    cases hp
  | some p =>
    by_cases hrange : p < m.memory ∨ m.memory + heapSize ≤ p
    · refine .inl ⟨if_pos hrange, fun x hx hp => ?_⟩
      obtain ⟨q, hq, hlo, hhi⟩ := hp
      cases hq
      have hin := h.inside x.1 (hx.2 ▸ hx.1)
      have hx0 := hx.1
      rw [hx.2] at hin
      simp only [totalBlocks_eq, blockSize, heapSize] at *
      omega
    · rw [not_or, not_lt, not_le] at hrange
      have hrun := myKmmFree_eq h hrange.1 hrange.2
      generalize hindex : (p - m.memory) / blockSize = index at hrun
      have hdiv : index * blockSize ≤ p - m.memory ∧ p - m.memory < (index + 1) * blockSize := by
        rw [← hindex]
        exact ⟨Nat.div_mul_le_self _ _, Nat.lt_mul_of_div_lt (Nat.lt_succ_self _) (by decide)⟩
      by_cases hzero : (m.blockInfo index).blockCount = 0
      · left
        refine ⟨?_, fun x hx hp => ?_⟩
        · rw [hrun, Kmm.drop, hzero, Kmm.paint_zero]
        · obtain ⟨q, hq, hlo, hhi⟩ := hp
          cases hq
          have hsame : x.1 = index := by
            simp only [blockSize] at *
            omega
          exact hx.1 (hx.2.symm.trans (hsame ▸ hzero))
      · refine .inr ⟨(index, _), ⟨hzero, rfl⟩, ⟨p, rfl, ?_, ?_⟩, hrun⟩
        · dsimp only
          omega
        · dsimp only
          omega

end Tiled

/-- **Integrity of the simple memory manager**: the table is cut into live allocations and free
    blocks; a request takes free blocks; and freeing an address releases the allocation in whose
    first block it is, or nothing. -/
theorem myMm_integrity {tr : List (Kmm × Call × Option Nat)} (h : History tr m) :
    ((∀ x, m.Live x → x.1 + x.2 ≤ totalBlocks ∧
        ∀ j < x.2, m.blockInfo (x.1 + j) = ⟨false, if j = 0 then x.2 else 0⟩) ∧
      (∀ x y, m.Live x → m.Live y → x ≠ y → Separate x y) ∧
      ∀ p < totalBlocks, (∀ x, m.Live x → ¬ (x.1 ≤ p ∧ p < x.1 + x.2)) →
        m.blockInfo p = ⟨true, 0⟩) ∧
    (∀ size, 1 ≤ size → size ≤ heapSize → ∃ m' r, myKmalloc m size = .ok (m', r) ∧
      (r = none → m' = m) ∧
      ∀ p, r = some p → ∃ i, p = m.memory + i * blockSize ∧
        (∀ x, m.Live x → Separate (i, size ⌈/⌉ blockSize) x) ∧
        ∀ x, m'.Live x ↔ m.Live x ∨ x = (i, size ⌈/⌉ blockSize)) ∧
    ∀ ptr, ∃ m', myKmmFree m ptr = .ok m' ∧
      (m' = m ∧ (∀ x, m.Live x → ¬ m.Heads ptr x) ∨
        ∃ x, m.Live x ∧ m.Heads ptr x ∧ (∀ y, m'.Live y ↔ m.Live y ∧ y ≠ x) ∧
          ∀ p, m'.blockInfo p = if x.1 ≤ p ∧ p < x.1 + x.2 then ⟨true, 0⟩ else m.blockInfo p) := by
  have ht := Tiled.history h
  refine ⟨⟨fun x hx => ⟨?_, fun j hj => ?_⟩, fun x y => ht.apart, fun p => ht.rest⟩, ?_, fun ptr => ?_⟩
  · have hin := ht.inside x.1 (hx.2 ▸ hx.1)
    rwa [hx.2] at hin
  · have hused := ht.used x.1 j (hx.2.symm ▸ hj)
    have hcount : (m.blockInfo (x.1 + j)).blockCount = if j = 0 then x.2 else 0 := by
      split
      · rename_i hj0
        rw [hj0]
        exact hx.2
      · rename_i hj0
        exact ht.inner x.1 j (hx.2.symm ▸ hj) hj0
    rw [Kmm.Free, Bool.not_eq_true] at hused
    exact congrArg₂ BlockInfo.mk hused hcount
  · intro size hone hle
    obtain ⟨m', r, hrun, -, -, hnone⟩ := myKmalloc_firstFit m hle
    refine ⟨m', r, hrun, hnone, fun p hp => ?_⟩
    subst hp
    have hlt : size + (blockSize - 1) < word := by
      simp only [blockSize, word_eq, heapSize] at *
      omega
    have hpos : blocksNeeded size ≠ 0 := by
      simp only [blocksNeeded, blockSize, word_eq, heapSize] at *
      omega
    have hwide : size < word := by omega
    rcases myKmalloc_cases hwide hrun with ⟨hr, -⟩ | ⟨hzero, -⟩ | ⟨i, hn, hfits, hr, rfl⟩
    · cases hr
    · exact absurd hzero hpos
    · rw [blocksNeeded_of_lt hlt] at hfits hn ⊢
      exact ⟨i, Option.some.inj hr, fun x hx => ht.apart_of_fits hfits hn hx,
        fun x => ht.live_take hfits hn⟩
  · rcases ht.free_cases ptr with ⟨hrun, hno⟩ | ⟨x, hx, hp, hrun⟩
    · exact ⟨m, hrun, .inl ⟨rfl, hno⟩⟩
    · refine ⟨_, hrun, .inr ⟨x, hx, hp, fun y => ?_, fun p => ?_⟩⟩
      · rw [ht.live_drop]
        refine and_congr_right fun hy => not_congr ⟨fun heq => ?_, fun heq => heq ▸ rfl⟩
        exact Prod.ext heq (hy.2.symm.trans (heq ▸ hx.2))
      · rw [drop_blockInfo, hx.2]

/-- A byte is allocated, and an address in its block is freed. -/
theorem myMm_integrity_byte : ∃ tr m, History tr m ∧ m.Live (0, 1) ∧
    ∃ m', myKmmFree m (some (m.memory + 5)) = .ok m' ∧ ∀ x, m'.Live x → x ≠ (0, 1) := by
  have hcheck : execCheck next (fun _ c => c.Wide) (fun _ m => (m.blockInfo 0).blockCount == 1)
      (myKmmInit heapBase) [.kmalloc 1] = true := by decide +kernel
  obtain ⟨tr, m, hrun, hQ⟩ := Trace.of_execCheck hcheck
  have hlive : m.Live (0, 1) := ⟨Nat.one_ne_zero, beq_iff_eq.mp hQ⟩
  obtain ⟨⟨-, hapart, -⟩, -, hfree⟩ := myMm_integrity hrun
  have hheads : m.Heads (some (m.memory + 5)) (0, 1) := by
    refine ⟨_, rfl, ?_, ?_⟩
    · simp only [blockSize]
      omega
    · simp only [blockSize]
      omega
  obtain ⟨m', hm', ⟨-, hno⟩ | ⟨x, hx, ⟨p, hp, hlo, hhi⟩, hlives, -⟩⟩ :=
    hfree (some (m.memory + 5))
  · exact absurd hheads (hno _ hlive)
  · refine ⟨tr, m, hrun, hlive, m', hm', fun y hy heq => ((hlives y).mp hy).2 (heq.trans ?_)⟩
    obtain rfl := Option.some.inj hp
    have hx0 : x.1 = 0 := by
      simp only [blockSize] at *
      omega
    exact Prod.ext hx0.symm ((hlive.2.symm.trans (hx0 ▸ hx.2)))

end TpeSo.MyMm
