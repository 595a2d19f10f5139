import TpeSo.Kernel.State
import TpeSo.Lib.Bytes
import TpeSo.Lib.Trace

namespace TpeSo.Buddy

open Lib

/-!
# `memory/buddy.c` — the buddy memory manager

Every block begins with a header, `block_t`, in the memory that is managed.  What the code reads
there is what the bytes say, whoever wrote them.

* Addresses are numbers, and `NULL` is `0`.  The heap lies far below `2 ^ 64`, so that pointer
  arithmetic wraps around only below address `0`.
* A walk along a list that goes on for more than `2 ^ 64` blocks never ends.
-/

def maxOrder : Nat := 18
def minOrder : Nat := 3

/-- `BLOCKSIZE`. -/
def blocksize (order : Nat) : Nat := 2 ^ (order + 6)

/-- `GET_BUDDY`. -/
def getBuddy (ptr base order : Nat) : Nat := ((ptr - base) ^^^ blocksize order) + base

/-! ### Headers -/

/-- The fields of `block_t`. -/
inductive Field where
  | next | order | isFree
  deriving DecidableEq, Repr

/-- Where a field stands in the header. -/
def Field.offset : Field → Nat
  | .next => 0
  | .order => 8
  | .isFree => 12

/-- The size of a field. -/
def Field.width : Field → Nat
  | .next => 8
  | .order => 4
  | .isFree => 4

/-- `sizeof(block_t)`. -/
def headerSize : Nat := 16

/-- Read a field of the header at `b`. -/
def get (mem : Memory) (b : Nat) (f : Field) : Nat := load mem (b + f.offset) f.width

/-- Write a field of the header at `b`. -/
def put (mem : Memory) (b : Nat) (f : Field) (v : Nat) : Memory :=
  store mem (b + f.offset) f.width v

/-- `block->order`, an `int`. -/
def orderOf (mem : Memory) (b : Nat) : Int := (get mem b .order : Int).bmod (2 ^ 32)

/-! ### The manager -/

/-- `sizeof(memory_manager_cdt)`. -/
def cdtSize : Nat := 8 + 8 + 8 * (maxOrder + 1)

/-- `memory_manager_cdt`, with the memory of the machine. -/
structure Cdt where
  base : Nat
  /-- `end`. -/
  limit : Nat
  freeLists : Nat → Nat := fun _ => 0
  mem : Memory

namespace Cdt

/-- Read a field of the header at `b`. -/
def get (m : Cdt) (b : Nat) (f : Field) : Nat := Buddy.get m.mem b f

/-- Write a field of the header at `b`. -/
def put (m : Cdt) (b : Nat) (f : Field) (v : Nat) : Cdt := { m with mem := Buddy.put m.mem b f v }

/-- `m->free_lists[order] = b`. -/
def setList (m : Cdt) (order b : Nat) : Cdt :=
  { m with freeLists := Function.update m.freeLists order b }

end Cdt

/-- `buddy_kmm_init`. -/
def buddyKmmInit (mem : Memory) (memory : Nat) : Cdt :=
  let base := memory + cdtSize
  let m : Cdt := { base := base, limit := base + heapSize, mem := mem }
  let m := m.put base .order maxOrder
  let m := m.put base .isFree 1
  let m := m.put base .next 0
  m.setList maxOrder base

/-- The loop of `get_order`, for at most `n` rounds. -/
def orderFrom (size : Nat) : Nat → Nat → Nat
  | 0, order => order
  | n + 1, order =>
    if order ≤ maxOrder ∧ blocksize order < size then orderFrom size n (order + 1) else order

/-- `get_order`. -/
def getOrder (size : Nat) : Nat :=
  orderFrom ((size + headerSize) % word) (maxOrder + 1 - minOrder) minOrder

/-- `alloc_block` of an order `n` below `MAX_ORDER + 1`. -/
def allocFrom (m : Cdt) : Nat → Nat → Cdt × Option Nat
  | 0, _ => (m, none)
  | n + 1, order =>
    let block := m.freeLists order
    if block ≠ 0 then
      let m := m.setList order (m.get block .next)
      let m := m.put block .isFree 0
      (m.put block .next 0, some block)
    else
      match allocFrom m n (order + 1) with
      | (m, none) => (m, none)
      | (m, some bigBlock) =>
        let buddy := bigBlock + blocksize order
        let m := m.put buddy .order order
        let m := m.put buddy .isFree 1
        let m := m.put buddy .next (m.freeLists order)
        let m := m.setList order buddy
        let m := m.put bigBlock .order order
        let m := m.put bigBlock .isFree 0
        (m.put bigBlock .next 0, some bigBlock)

/-- `alloc_block`. -/
def allocBlock (m : Cdt) (order : Nat) : Cdt × Option Nat :=
  if order < minOrder ∨ maxOrder < order then (m, none)
  else allocFrom m (maxOrder + 1 - order) order

/-- `buddy_kmalloc`. -/
def buddyKmalloc (m : Cdt) (size : Nat) : Cdt × Option Nat :=
  if size = 0 then (m, none)
  else
    let r := allocBlock m (getOrder size)
    (r.1, r.2.map (· + headerSize))

/-- The inner loop of `free_block`: is `buddy` in the list from `curr` on, and which block is
    before the place where the walk ends? -/
def walk (mem : Memory) (buddy : Nat) : Nat → Nat → Nat → Outcome (Bool × Nat)
  | 0, _, _ => .hang
  | fuel + 1, curr, prev =>
    if curr = 0 then .ok (false, prev)
    else if curr = buddy then .ok (true, prev)
    else walk mem buddy fuel (get mem curr .next) curr

/-- `buddy` leaves its list, in which `prev` is before it. -/
def unlink (m : Cdt) (order buddy prev : Nat) : Cdt :=
  if prev ≠ 0 then m.put prev .next (m.get buddy .next)
  else m.setList order (m.get buddy .next)

/-- The outer loop of `free_block`, with `n` orders left below `MAX_ORDER`: the block that is to
    be listed, and its order. -/
def mergeFrom (m : Cdt) (block : Nat) : Nat → Nat → Outcome (Cdt × Nat × Nat)
  | 0, order => .ok (m, block, order)
  | n + 1, order =>
    let buddy := getBuddy block m.base order
    if buddy < m.base ∨ m.limit ≤ buddy then .ok (m, block, order)
    else do
      let found ← walk m.mem buddy word (m.freeLists order) 0
      if found.1 = false ∨ m.get buddy .isFree = 0 ∨ orderOf m.mem buddy ≠ order then
        .ok (m, block, order)
      else
        let m := unlink m order buddy found.2
        let block := if block < buddy then block else buddy
        let m := m.put block .order (order + 1)
        let m := m.put block .isFree 1
        mergeFrom m block n (order + 1)

/-- The end of `free_block`. -/
def listBlock (r : Cdt × Nat × Nat) : Cdt :=
  let m := r.1.put r.2.1 .next (r.1.freeLists r.2.2)
  m.setList r.2.2 r.2.1

/-- `free_block`. -/
def freeBlock (m : Cdt) (block : Nat) : Outcome Cdt :=
  let order := orderOf m.mem block
  if m.get block .isFree ≠ 0 then .ok m
  else if order < minOrder ∨ (maxOrder : Int) < order then .ok m
  else do
    let m := m.put block .isFree 1
    let r ← mergeFrom m block (maxOrder - order.toNat) order.toNat
    .ok (listBlock r)

/-- The address of the header before a payload. -/
def headerOf (ptr : Nat) : Nat := (ptr + word - headerSize) % word

/-- `buddy_kmm_free`. -/
def buddyKmmFree (m : Cdt) (ptr : Nat) : Outcome Cdt :=
  if ptr = 0 then .ok m
  else
    let block := headerOf ptr
    if block < m.base ∨ m.limit ≤ block then .ok m
    else if m.get block .isFree ≠ 0 then .ok m
    else freeBlock m block

/-- `memory_info`. -/
structure MemoryInfo where
  totalSize : Nat
  free : Nat
  reserved : Nat
  deriving DecidableEq, Repr

/-- The inner loop of `buddy_kmm_mem_info`. -/
def addList (mem : Memory) (order : Nat) : Nat → Nat → Nat → Outcome Nat
  | 0, _, _ => .hang
  | fuel + 1, curr, free =>
    if curr = 0 then .ok free
    else addList mem order fuel (get mem curr .next) ((free + blocksize order) % word)

/-- The outer loop, for the orders below `n`. -/
def addLists (m : Cdt) : Nat → Outcome Nat
  | 0 => .ok 0
  | n + 1 => do
    let free ← addLists m n
    addList m.mem n word (m.freeLists n) free

/-- `buddy_kmm_mem_info`. -/
def buddyKmmMemInfo (m : Cdt) : Outcome MemoryInfo := do
  let totalSize := (m.limit + word - m.base) % word
  let free ← addLists m (maxOrder + 1)
  .ok { totalSize := totalSize, free := free, reserved := (totalSize + word - free) % word }

end TpeSo.Buddy
