import Mathlib.Algebra.Order.Floor.Div
import TpeSo.Lib.Runs
import TpeSo.Memory.MyMm

namespace TpeSo.MyMm

open Lib

/-!
# The simple memory manager — first fit

* `firstUsed_spec`, `search_spec` — the inner and the outer loop, while the request is no
  larger than the heap;
* `search_fault` — a larger request makes the outer loop read past the end of the table;
* `myKmalloc_firstFit` — **first fit**: a request is placed at the least start that has room;
* `myKmalloc_refuses_iff` — which requests stay in the table and are refused when they must be.
-/

variable {m m' : Kmm} {size needed n i j p : Nat}

/-- Block `i` is free. -/
def Kmm.Free (m : Kmm) (i : Nat) : Prop := (m.blockInfo i).isFree = true

theorem totalBlocks_eq : totalBlocks = 131072 := rfl

theorem word_eq : word = 18446744073709551616 := rfl

/-- The blocks from `i` on, `n` of them, rewritten. -/
def Kmm.paint (m : Kmm) (i n : Nat) (f : Nat → BlockInfo) : Kmm :=
  { m with blockInfo := fun x => if i ≤ x ∧ x < i + n then f x else m.blockInfo x }

theorem Kmm.paint_zero (m : Kmm) (i : Nat) (f : Nat → BlockInfo) : m.paint i 0 f = m := by
  have hnone : ∀ x, ¬ (i ≤ x ∧ x < i + 0) := by
    intro x
    omega
  simp only [paint, hnone, if_false]

/-- One block, and then the ones behind it. -/
theorem Kmm.paint_succ (m : Kmm) (i n : Nat) (f : Nat → BlockInfo) :
    ({ m with blockInfo := Function.update m.blockInfo i (f i) } : Kmm).paint (i + 1) n f =
      m.paint i (n + 1) f := by
  simp only [paint, Kmm.mk.injEq, and_true]
  funext x
  by_cases hx : x = i
  · subst hx
    rw [if_neg (by omega), if_pos (by omega), Function.update_self]
  · rw [Function.update_of_ne hx]
    by_cases hin : i ≤ x ∧ x < i + (n + 1)
    · rw [if_pos (by omega), if_pos hin]
    · rw [if_neg (by omega), if_neg hin]

/-! ### The inner loop -/

/-- What the inner loop over the `n` blocks from `i + j` on tells. -/
def Scanned (m : Kmm) (i j n : Nat) : Option Nat → Prop
  | none => ∀ d, j ≤ d → d < j + n → i + d < totalBlocks ∧ m.Free (i + d)
  | some d => j ≤ d ∧ d < j + n ∧ i + d < totalBlocks ∧ ¬ m.Free (i + d)

theorem firstUsed_ok : ∀ {n j : Nat} {r : Option Nat}, firstUsed m i j n = .ok r →
    Scanned m i j n r := by
  intro n
  induction n with
  | zero =>
    intro j r h
    cases h
    exact fun d hj hd => absurd hd (by omega)
  | succ n ih =>
    intro j r h
    obtain ⟨b, hb, h⟩ := Outcome.bind_eq_ok.mp h
    unfold Kmm.read at hb
    split at hb
    case isFalse => cases hb
    rename_i hlt
    cases hb
    split at h
    · rename_i hfree
      have hrest := ih h
      cases r with
      | none =>
        intro d hj hd
        by_cases hdj : d = j
        · subst hdj
          exact ⟨hlt, hfree⟩
        · exact hrest d (by omega) (by omega)
      | some d =>
        obtain ⟨hj, hd, hin, hused⟩ := hrest
        exact ⟨by omega, by omega, hin, hused⟩
    · rename_i hused
      cases h
      exact ⟨le_refl j, by omega, hlt, hused⟩

/-- Inside the table the inner loop comes back. -/
theorem firstUsed_inside : ∀ {n j : Nat}, i + j + n ≤ totalBlocks →
    ∃ r, firstUsed m i j n = .ok r := by
  intro n
  induction n with
  | zero => exact fun _ => ⟨none, rfl⟩
  | succ n ih =>
    intro j h
    obtain ⟨r, hr⟩ := ih (j := j + 1) (by omega)
    have hlt : i + j < totalBlocks := by omega
    rw [firstUsed, Kmm.read, if_pos hlt, Outcome.ok_bind]
    split
    · exact ⟨r, hr⟩
    · exact ⟨some j, rfl⟩

theorem firstUsed_ne_hang : ∀ {n j : Nat}, firstUsed m i j n ≠ .hang := by
  intro n
  induction n with
  | zero => exact nofun
  | succ n ih =>
    intro j
    rw [firstUsed, Kmm.read]
    split
    · rw [Outcome.ok_bind]
      split
      · exact ih
      · exact nofun
    · exact nofun

/-! ### The outer loop -/

theorem lastStart_of_le (h : needed ≤ totalBlocks) : lastStart needed = totalBlocks - needed := by
  rw [lastStart, totalBlocks_eq, word_eq] at *
  omega

/-- What the outer loop tells that starts at `i`. -/
def Searched (m : Kmm) (needed i : Nat) : Option Nat → Prop
  | none => ∀ s, i ≤ s → ¬ Fits m.Free totalBlocks needed s
  | some s => IsLeast {s | i ≤ s ∧ Fits m.Free totalBlocks needed s} s

/-- **The outer loop** skips no start that has room: the block in use that ends a round lies
    inside every run that starts before it. -/
theorem search_spec (hle : needed ≤ totalBlocks) : ∀ {fuel i : Nat},
    i ≤ totalBlocks → totalBlocks < fuel + i →
    ∃ r, search m needed fuel i = .ok r ∧ Searched m needed i r := by
  intro fuel
  induction fuel with
  | zero => exact fun hi hf => absurd hf (by omega)
  | succ fuel ih =>
    intro i hi hf
    rw [search, lastStart_of_le hle]
    split
    · rename_i hstart
      obtain ⟨r, hr⟩ := firstUsed_inside (m := m) (i := i) (j := 0) (n := needed) (by omega)
      have hscan := firstUsed_ok hr
      rw [hr, Outcome.ok_bind]
      cases r with
      | none =>
        refine ⟨some i, rfl, ⟨le_refl i, by omega, fun j hj => ?_⟩, fun s hs => hs.1⟩
        exact (hscan j (Nat.zero_le j) (by omega)).2
      | some j =>
        obtain ⟨-, hj, hin, hused⟩ := hscan
        obtain ⟨r, hr, hsearch⟩ := ih (i := i + j + 1) (by omega) (by omega)
        have hskip : ∀ s, i ≤ s → Fits m.Free totalBlocks needed s → i + j + 1 ≤ s := by
          intro s hs hfits
          rcases hfits.avoids hused with hlt | hge
          · exact hlt
          · exact absurd hge (by omega)
        refine ⟨r, hr, ?_⟩
        cases r with
        | none => exact fun s hs hfits => hsearch s (hskip s hs hfits) hfits
        | some s =>
          refine ⟨⟨by have := hsearch.1.1; omega, hsearch.1.2⟩, fun s' hs' => ?_⟩
          exact hsearch.2 ⟨hskip s' hs'.1 hs'.2, hs'.2⟩
    · refine ⟨none, rfl, fun s hs hfits => ?_⟩
      have hroom := hfits.room
      omega

/-- With more blocks needed than there are, the bound of the outer loop has wrapped around, and
    the inner loop runs off the table. -/
theorem search_fault (hbig : totalBlocks < needed) (hle : needed ≤ word - totalBlocks) :
    ∀ {fuel i : Nat}, i ≤ totalBlocks → totalBlocks < fuel + i →
    search m needed fuel i = .fault := by
  have hlast : totalBlocks ≤ lastStart needed := by
    rw [lastStart, totalBlocks_eq, word_eq] at *
    omega
  intro fuel
  induction fuel with
  | zero => exact fun hi hf => absurd hf (by omega)
  | succ fuel ih =>
    intro i hi hf
    rw [search, if_pos (le_trans hi hlast)]
    cases hr : firstUsed m i 0 needed with
    | hang => exact absurd hr firstUsed_ne_hang
    | fault => rfl
    | ok r =>
      have hscan := firstUsed_ok hr
      rw [Outcome.ok_bind]
      cases r with
      | none => exact absurd (hscan (needed - 1) (by omega) (by omega)).1 (by omega)
      | some j =>
        have hin := hscan.2.2.1
        exact ih (by omega) (by omega)

/-! ### The table after a call -/

theorem reserve_eq : ∀ {n j : Nat} {m : Kmm}, i + j + n ≤ totalBlocks →
    reserve m i needed j n =
      .ok (m.paint (i + j) n fun x => { isFree := false, blockCount := if x = i then needed else 0 }) := by
  intro n
  induction n with
  | zero =>
    intro j m _
    rw [Kmm.paint_zero]
    rfl
  | succ n ih =>
    intro j m h
    have hlt : i + j < totalBlocks := by omega
    rw [reserve, Kmm.write, if_pos hlt, Outcome.ok_bind, ih (by omega), ← Kmm.paint_succ]
    simp [Nat.add_assoc]

theorem release_eq : ∀ {n i : Nat} {m : Kmm}, i + n ≤ totalBlocks →
    release m i n = .ok (m.paint i n fun _ => {}) := by
  intro n
  induction n with
  | zero =>
    intro i m _
    rw [Kmm.paint_zero]
    rfl
  | succ n ih =>
    intro i m h
    have hlt : i < totalBlocks := by omega
    rw [release, Kmm.write, if_pos hlt, Outcome.ok_bind, ih (by omega), ← Kmm.paint_succ]

/-- The table after an allocation of `n` blocks from `i` on. -/
def Kmm.take (m : Kmm) (i n : Nat) : Kmm :=
  m.paint i n fun x => { isFree := false, blockCount := if x = i then n else 0 }

theorem blocksNeeded_of_lt (h : size + (blockSize - 1) < word) :
    blocksNeeded size = size ⌈/⌉ blockSize := by
  rw [blocksNeeded, Nat.mod_eq_of_lt h, Nat.ceilDiv_eq_add_pred_div]
  rfl

theorem blocksNeeded_le_iff (h : size + (blockSize - 1) < word) :
    blocksNeeded size ≤ totalBlocks ↔ size ≤ heapSize := by
  rw [blocksNeeded, Nat.mod_eq_of_lt h]
  simp only [blockSize, totalBlocks_eq, heapSize]
  omega

/-- **`my_kmalloc`** of something that is no larger than the heap. -/
theorem myKmalloc_eq (hle : blocksNeeded size ≤ totalBlocks) :
    ∃ r, Searched m (blocksNeeded size) 0 r ∧ myKmalloc m size = .ok (match r with
      | none => (m, none)
      | some i => (m.take i (blocksNeeded size), some (m.memory + i * blockSize))) := by
  have hrounds : ∃ r, search m (blocksNeeded size) (totalBlocks + 1) 0 = .ok r ∧
      Searched m (blocksNeeded size) 0 r := search_spec hle (Nat.zero_le _) (by omega)
  obtain ⟨r, hr, hsearch⟩ := hrounds
  refine ⟨r, hsearch, ?_⟩
  rw [myKmalloc, hr, Outcome.ok_bind]
  cases r with
  | none => rfl
  | some i =>
    have hroom := hsearch.1.2.room
    dsimp only
    rw [reserve_eq (by omega), Outcome.ok_bind]
    rfl

/-- **First fit.**  A request of at most the whole heap is placed at the least start where
    enough blocks in a row are free; it is refused exactly when there is none, and then the
    table is as before. -/
theorem myKmalloc_firstFit (m : Kmm) (hle : size ≤ heapSize) :
    ∃ m' r, myKmalloc m size = .ok (m', r) ∧
      (∀ i, IsLeast {i | Fits m.Free totalBlocks (size ⌈/⌉ blockSize) i} i →
        r = some (m.memory + blockSize * i)) ∧
      (r = none ↔ ∀ i, ¬ Fits m.Free totalBlocks (size ⌈/⌉ blockSize) i) ∧
      (r = none → m' = m) := by
  have hlt : size + (blockSize - 1) < word := by
    simp only [blockSize, word_eq, heapSize] at *
    omega
  obtain ⟨r, hsearch, heq⟩ := myKmalloc_eq (m := m) ((blocksNeeded_le_iff hlt).mpr hle)
  rw [blocksNeeded_of_lt hlt] at hsearch
  cases r with
  | none =>
    have hnone : ∀ i, ¬ Fits m.Free totalBlocks (size ⌈/⌉ blockSize) i :=
      fun i => hsearch i (Nat.zero_le i)
    exact ⟨m, none, heq, fun i hi => absurd hi.1 (hnone i), by simpa using hnone, fun _ => rfl⟩
  | some s =>
    refine ⟨_, _, heq, fun i hi => ?_, ?_, nofun⟩
    · have hsi : s = i := le_antisymm (hsearch.2 ⟨Nat.zero_le i, hi.1⟩) (hi.2 hsearch.1.2)
      rw [hsi, Nat.mul_comm]
    · simp only [reduceCtorEq, false_iff, not_forall, not_not]
      exact ⟨s, hsearch.1.2⟩

/-- In a heap whose first block is in use, two blocks are handed out from the second on. -/
theorem myKmalloc_firstFit_second : ∃ m' r,
    myKmalloc (({} : Kmm).take 0 1) 200 = .ok (m', r) ∧ r = some (heapBase + blockSize * 1) := by
  have hle : 200 ≤ heapSize := by decide
  obtain ⟨m', r, hr, hleast, -⟩ := myKmalloc_firstFit (({} : Kmm).take 0 1) hle
  refine ⟨m', r, hr, hleast 1 ⟨⟨by decide, fun j hj => ?_⟩, fun i hi => ?_⟩⟩
  · simp [Kmm.Free, Kmm.take, Kmm.paint]
  · by_contra hlt
    have h0 : i = 0 := by omega
    subst h0
    have hfree := hi.free 0 (by decide)
    simp [Kmm.Free, Kmm.take, Kmm.paint] at hfree

/-! ### Requests of any size -/

/-- The call stays in the table, and refuses what no run of free blocks has room for. -/
def Refuses (m : Kmm) (size : Nat) : Prop :=
  ∃ m' r, myKmalloc m size = .ok (m', r) ∧
    (longestRun m.Free totalBlocks < size ⌈/⌉ blockSize → r = none)

theorem longestRun_lt_iff : longestRun m.Free totalBlocks < needed ↔
    ∀ i, ¬ Fits m.Free totalBlocks needed i := by
  rw [← not_le, le_longestRun_iff, not_exists]

/-- A request whose number of blocks wraps around to nothing is given the start of the heap. -/
theorem myKmalloc_nothing (h : blocksNeeded size = 0) :
    myKmalloc m size = .ok (m, some m.memory) := by
  have hsearch : search m 0 (totalBlocks + 1) 0 = .ok (some 0) := by
    rw [search, if_pos (Nat.zero_le _)]
    rfl
  simp only [myKmalloc, h, hsearch, Outcome.ok_bind, reserve, Nat.zero_mul, Nat.add_zero]

/-- The `size_t` sum of a request and `BLOCK_SIZE - 1` wraps around, or its blocks are more than
    the table has. -/
theorem blocksNeeded_big (hbig : heapSize < size) (hsize : size < word) :
    blocksNeeded size = 0 ∨
      totalBlocks < blocksNeeded size ∧ blocksNeeded size ≤ word - totalBlocks := by
  simp only [blocksNeeded, blockSize, totalBlocks_eq, word_eq, heapSize] at *
  omega

/-- **Which requests the manager is safe for.**  Of all 64-bit sizes, exactly those up to the size
    of the heap are looked for inside the table and refused when they must be. -/
theorem myKmalloc_refuses_iff (m : Kmm) (hsize : size < word) : Refuses m size ↔ size ≤ heapSize := by
  constructor
  · rintro ⟨m', r, hr, hrefuse⟩
    by_contra hbig
    rw [not_le] at hbig
    rcases blocksNeeded_big hbig hsize with hnone | ⟨hmany, hle⟩
    · -- the start of the heap is returned, although there are not that many blocks
      have hlong : longestRun m.Free totalBlocks < size ⌈/⌉ blockSize := by
        refine lt_of_le_of_lt (longestRun_le _ _) ?_
        rw [Nat.ceilDiv_eq_add_pred_div]
        simp only [blockSize, totalBlocks_eq, heapSize] at *
        omega
      rw [myKmalloc_nothing hnone] at hr
      cases hr
      cases hrefuse hlong
    · have hfault : search m (blocksNeeded size) (totalBlocks + 1) 0 = .fault :=
        search_fault hmany hle (Nat.zero_le _) (by omega)
      rw [myKmalloc, hfault, Outcome.fault_bind] at hr
      cases hr
  · intro hle
    obtain ⟨m', r, hr, -, hnone, -⟩ := myKmalloc_firstFit m hle
    exact ⟨m', r, hr, fun hlong => hnone.mpr (longestRun_lt_iff.mp hlong)⟩

theorem myKmalloc_refuses_page : Refuses (myKmmInit heapBase) 4096 :=
  (myKmalloc_refuses_iff (myKmmInit heapBase) (by decide)).mpr (by decide)

/-- On the empty heap, a request of `2 ^ 64 - 1` bytes is given the start of the heap. -/
theorem myKmalloc_overflow : ¬ ∀ tr m size, History tr m → size < word → Refuses m size := by
  intro hall
  obtain ⟨m', r, hr, hrefuse⟩ := hall [] (myKmmInit heapBase) (2 ^ 64 - 1) .nil (by decide)
  have hlong : longestRun (myKmmInit heapBase).Free totalBlocks < (2 ^ 64 - 1) ⌈/⌉ blockSize := by
    refine lt_of_le_of_lt (longestRun_le _ _) ?_
    rw [Nat.ceilDiv_eq_add_pred_div]
    decide
  rw [myKmalloc_nothing (by decide)] at hr
  cases hr
  cases hrefuse hlong

end TpeSo.MyMm
