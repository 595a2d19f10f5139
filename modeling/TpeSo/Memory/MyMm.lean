import TpeSo.Kernel.State
import TpeSo.Lib.Trace

namespace TpeSo.MyMm

open Lib

/-!
# `memory/my_mm.c` — the simple memory manager

The heap is a row of blocks of 128 bytes, each with an entry in `block_info`.  Reading or
writing `block_info` outside the array has no meaning in C; here it is a `fault`.

* Addresses are numbers, and `NULL` is `none`; the heap does not start at `0`.
* `size_t` arithmetic is that of `word`.  The two `int` counters of `my_kmalloc` stay
  numbers: what they index has faulted long before they can overflow.
-/

def blockSize : Nat := 128

/-- `TOTAL_BLOCKS`. -/
def totalBlocks : Nat := heapSize / blockSize

/-- `BlockInfo`. -/
structure BlockInfo where
  isFree : Bool := true
  /-- Only the first block of an allocation holds the count. -/
  blockCount : Nat := 0
  deriving DecidableEq, Repr

/-- `memory_manager_cdt`. -/
structure Kmm where
  blockInfo : Nat → BlockInfo := fun _ => {}
  memory : Nat := heapBase

/-- `my_kmm_init`. -/
def myKmmInit (memory : Nat) : Kmm := { memory := memory }

namespace Kmm

/-- Read `block_info[i]`. -/
def read (m : Kmm) (i : Nat) : Outcome BlockInfo :=
  if i < totalBlocks then .ok (m.blockInfo i) else .fault

/-- Write `block_info[i]`. -/
def write (m : Kmm) (i : Nat) (b : BlockInfo) : Outcome Kmm :=
  if i < totalBlocks then .ok { m with blockInfo := Function.update m.blockInfo i b } else .fault

end Kmm

/-- The number of blocks a request comes to. -/
def blocksNeeded (size : Nat) : Nat := (size + (blockSize - 1)) % word / blockSize

/-- `TOTAL_BLOCKS - blocks_needed`, on `size_t`. -/
def lastStart (needed : Nat) : Nat := (totalBlocks + word - needed) % word

/-- The inner loop: the first of the `n` blocks from `i + j` on that is in use, as its distance
    from `i`. -/
def firstUsed (m : Kmm) (i j : Nat) : Nat → Outcome (Option Nat)
  | 0 => .ok none
  | n + 1 => do
    let b ← m.read (i + j)
    if b.isFree then firstUsed m i (j + 1) n else .ok (some j)

/-- The outer loop from start `i` on.  Every round that goes on has read a block past `i`, so
    that `totalBlocks + 1` rounds are enough. -/
def search (m : Kmm) (needed : Nat) : Nat → Nat → Outcome (Option Nat)
  | 0, _ => .hang
  | fuel + 1, i =>
    if i ≤ lastStart needed then do
      match ← firstUsed m i 0 needed with
      | none => .ok (some i)
      -- `i += j; break`, and then `i++`
      | some j => search m needed fuel (i + j + 1)
    else .ok none

/-- The loop that takes `n` more blocks from `i + j` on. -/
def reserve (m : Kmm) (i needed j : Nat) : Nat → Outcome Kmm
  | 0 => .ok m
  | n + 1 => do
    let m ← m.write (i + j) { isFree := false, blockCount := if j = 0 then needed else 0 }
    reserve m i needed (j + 1) n

/-- `my_kmalloc`. -/
def myKmalloc (m : Kmm) (size : Nat) : Outcome (Kmm × Option Nat) := do
  let needed := blocksNeeded size
  match ← search m needed (totalBlocks + 1) 0 with
  | none => .ok (m, none)
  | some i => do
    let m' ← reserve m i needed 0 needed
    .ok (m', some (m.memory + i * blockSize))

/-- The loop of `my_kmm_free` over `n` blocks from `i` on. -/
def release (m : Kmm) (i : Nat) : Nat → Outcome Kmm
  | 0 => .ok m
  | n + 1 => do
    let m ← m.write i { isFree := true, blockCount := 0 }
    release m (i + 1) n

/-- `my_kmm_free`. -/
def myKmmFree (m : Kmm) (ptr : Option Nat) : Outcome Kmm :=
  match ptr with
  | none => .ok m
  | some ptr =>
    if ptr < m.memory ∨ m.memory + heapSize ≤ ptr then .ok m
    else do
      let index := (ptr - m.memory) / blockSize
      let b ← m.read index
      release m index b.blockCount

/-! ### Histories -/

/-- The calls of the memory manager. -/
inductive Call where
  | kmalloc (size : Nat)
  | kmmFree (ptr : Option Nat)

/-- A call that comes back, with the pointer `my_kmalloc` returns. -/
def next (m : Kmm) : Call → Option (Kmm × Option Nat)
  | .kmalloc size => (myKmalloc m size).toOption
  | .kmmFree ptr => (myKmmFree m ptr).toOption.map fun m => (m, none)

/-- The sizes and addresses of calls are `size_t` and pointers. -/
def Call.Wide : Call → Prop
  | .kmalloc size => size < word
  | .kmmFree ptr => ∀ p ∈ ptr, p < word

instance : DecidablePred Call.Wide
  | .kmalloc size => inferInstanceAs (Decidable (size < word))
  | .kmmFree ptr => inferInstanceAs (Decidable (∀ p ∈ ptr, p < word))

/-- A history of calls from `my_kmm_init` on. -/
abbrev History (tr : List (Kmm × Call × Option Nat)) (m : Kmm) : Prop :=
  Trace next (fun _ c => c.Wide) (myKmmInit heapBase) tr m

end TpeSo.MyMm
