import TpeSo.Kernel.Pipe
import TpeSo.Memory.Restore

namespace TpeSo.MyMm

open Lib

/-!
# `create_pipe` on the heap of the simple memory manager

`create_pipe` asks for five blocks in three functions, and each refusal gives back what has been
taken so far.  Here the blocks are those of `block_info`, and the objects are named by their
addresses; what the objects hold beside addresses does not matter.

* `ringbufNew`, `queueNew`, `createPipe` — the constructors, with `ringbufFree`, `queueFree` and
  `pipeFree`;
* `Gives` — a constructor that either refuses and changes nothing, or whose result can be given
  back;
* `createPipe_leaves_no_trace` — **a `create_pipe` that returns `NULL` has changed neither the
  block table nor `pipes_table`.**
-/

/-! ### The constructors -/

/-- `sizeof(struct ringbuf)`. -/
def sizeofRingbuf : Nat := 32

/-- `sizeof(struct queue)`. -/
def sizeofQueue : Nat := 32

/-- `sizeof(pipe_t)`. -/
def sizeofPipe : Nat := 72

/-- A ring, and its bytes. -/
structure RingAddr where
  ring : Nat
  buf : Nat

/-- A queue, and its nodes from the head on. -/
structure QueueAddr where
  queue : Nat
  nodes : List Nat

/-- A pipe, and what it owns. -/
structure PipeAddr where
  pipe : Nat
  buffer : RingAddr
  readersWaitQueue : QueueAddr
  writersWaitQueue : QueueAddr

/-- `ringbuf_new`. -/
def ringbufNew (m : Kmm) (size : Nat) : Outcome (Kmm × Option RingAddr) := do
  match ← myKmalloc m sizeofRingbuf with
  | (m, none) => .ok (m, none)
  | (m, some ring) =>
    match ← myKmalloc m size with
    | (m, none) => do
      let m ← myKmmFree m (some ring)
      .ok (m, none)
    | (m, some buf) => .ok (m, some ⟨ring, buf⟩)

/-- `ringbuf_free`. -/
def ringbufFree (m : Kmm) (r : RingAddr) : Outcome Kmm := do
  let m ← myKmmFree m (some r.buf)
  myKmmFree m (some r.ring)

/-- `queue_new`. -/
def queueNew (m : Kmm) : Outcome (Kmm × Option QueueAddr) := do
  match ← myKmalloc m sizeofQueue with
  | (m, none) => .ok (m, none)
  | (m, some queue) => .ok (m, some ⟨queue, []⟩)

/-- The loop of `queue_free`. -/
def freeNodes (m : Kmm) : List Nat → Outcome Kmm
  | [] => .ok m
  | node :: nodes => do
    let m ← myKmmFree m (some node)
    freeNodes m nodes

/-- `queue_free`. -/
def queueFree (m : Kmm) (q : QueueAddr) : Outcome Kmm := do
  let m ← freeNodes m q.nodes
  myKmmFree m (some q.queue)

/-- The heap and `pipes_table`. -/
structure PipeHeap where
  heap : Kmm
  pipesTable : Nat → Option Nat

/-- The slot the loop of `create_pipe` stops at. -/
def PipeHeap.freeSlot (s : PipeHeap) : Option Nat :=
  (List.range maxPipes).find? fun i => (s.pipesTable i).isNone

/-- The body of the loop in `create_pipe`, up to the store in `pipes_table`. -/
def newPipe (m : Kmm) : Outcome (Kmm × Option PipeAddr) := do
  match ← myKmalloc m sizeofPipe with
  | (m, none) => .ok (m, none)
  | (m, some pipe) =>
    match ← ringbufNew m pipeBufferSize with
    | (m, none) => do
      let m ← myKmmFree m (some pipe)
      .ok (m, none)
    | (m, some buffer) =>
      match ← queueNew m with
      | (m, none) => do
        let m ← ringbufFree m buffer
        let m ← myKmmFree m (some pipe)
        .ok (m, none)
      | (m, some readers) =>
        match ← queueNew m with
        | (m, none) => do
          let m ← queueFree m readers
          let m ← ringbufFree m buffer
          let m ← myKmmFree m (some pipe)
          .ok (m, none)
        | (m, some writers) => .ok (m, some ⟨pipe, buffer, readers, writers⟩)

/-- `create_pipe`. -/
def createPipe (s : PipeHeap) : Outcome (PipeHeap × Option PipeAddr) :=
  match s.freeSlot with
  | none => .ok (s, none)
  | some i => do
    match ← newPipe s.heap with
    | (m, none) => .ok ({ s with heap := m }, none)
    | (m, some pipe) =>
      .ok (⟨m, Function.update s.pipesTable i (some pipe.pipe)⟩, some pipe)

/-! ### What a constructor does -/

variable {α : Type} {m : Kmm} {size : Nat}

/-- The call either refuses and leaves the table as it is, or takes blocks that `free` gives
    back at once. -/
inductive Gives (m : Kmm) (free : Kmm → α → Outcome Kmm) : Outcome (Kmm × Option α) → Prop where
  | refused : Gives m free (.ok (m, none))
  | given (m' : Kmm) (a : α) (ht : Tiled m') (hfree : free m' a = .ok m) :
      Gives m free (.ok (m', some a))

/-- **`my_kmalloc`** of a size that the heap can hold. -/
theorem Tiled.myKmalloc_gives (h : Tiled m) (hpos : 1 ≤ size) (hle : size ≤ heapSize) :
    Gives m (fun m p => myKmmFree m (some p)) (myKmalloc m size) := by
  obtain ⟨m', r, hrun, -⟩ := myKmalloc_firstFit m hle
  have hlt : size + (blockSize - 1) < word := by
    simp only [blockSize, word_eq, heapSize] at *
    omega
  have hwide : size < word := by omega
  rw [hrun]
  rcases myKmalloc_cases hwide hrun with ⟨rfl, rfl⟩ | ⟨hzero, -⟩ | ⟨i, hn, hfits, rfl, rfl⟩
  · exact .refused
  · have hne : blocksNeeded size ≠ 0 := by
      simp only [blocksNeeded, blockSize, word_eq] at *
      omega
    exact absurd hzero hne
  · exact .given _ _ (h.take hfits) (h.free_take hfits hn)

theorem Tiled.ringbufNew_gives (h : Tiled m) (hpos : 1 ≤ size) (hle : size ≤ heapSize) :
    Gives m ringbufFree (ringbufNew m size) := by
  unfold ringbufNew
  have hring := h.myKmalloc_gives (show 1 ≤ sizeofRingbuf by decide) (by decide)
  generalize myKmalloc m sizeofRingbuf = out at hring
  cases hring with
  | refused => exact .refused
  | given m₁ ring ht₁ hfree₁ =>
    have hbuf := ht₁.myKmalloc_gives hpos hle
    simp only [Outcome.ok_bind]
    generalize myKmalloc m₁ size = out at hbuf
    cases hbuf with
    | refused =>
      simp only [Outcome.ok_bind, hfree₁]
      exact .refused
    | given m₂ buf ht₂ hfree₂ =>
      refine .given m₂ (RingAddr.mk ring buf) ht₂ ?_
      simp only [ringbufFree, hfree₂, Outcome.ok_bind, hfree₁]

theorem Tiled.queueNew_gives (h : Tiled m) : Gives m queueFree (queueNew m) := by
  unfold queueNew
  have hqueue := h.myKmalloc_gives (show 1 ≤ sizeofQueue by decide) (by decide)
  generalize myKmalloc m sizeofQueue = out at hqueue
  cases hqueue with
  | refused => exact .refused
  | given m₁ queue ht₁ hfree₁ =>
    refine .given m₁ (QueueAddr.mk queue []) ht₁ ?_
    simp only [queueFree, freeNodes, Outcome.ok_bind, hfree₁]

/-- What undoes the body of the loop: the order of the last rollback. -/
def unmakePipe (m : Kmm) (p : PipeAddr) : Outcome Kmm := do
  let m ← queueFree m p.writersWaitQueue
  let m ← queueFree m p.readersWaitQueue
  let m ← ringbufFree m p.buffer
  myKmmFree m (some p.pipe)

theorem Tiled.newPipe_gives (h : Tiled m) : Gives m unmakePipe (newPipe m) := by
  unfold newPipe
  have hpipe := h.myKmalloc_gives (show 1 ≤ sizeofPipe by decide) (by decide)
  generalize myKmalloc m sizeofPipe = out at hpipe
  cases hpipe with
  | refused => exact .refused
  | given m₁ pipe ht₁ hfree₁ =>
    have hring := ht₁.ringbufNew_gives (show 1 ≤ pipeBufferSize by decide) (by decide)
    simp only [Outcome.ok_bind]
    generalize ringbufNew m₁ pipeBufferSize = out at hring
    cases hring with
    | refused =>
      simp only [Outcome.ok_bind, hfree₁]
      exact .refused
    | given m₂ buffer ht₂ hfree₂ =>
      have hreaders := ht₂.queueNew_gives
      simp only [Outcome.ok_bind]
      generalize queueNew m₂ = out at hreaders
      cases hreaders with
      | refused =>
        simp only [Outcome.ok_bind, hfree₂, hfree₁]
        exact .refused
      | given m₃ readers ht₃ hfree₃ =>
        have hwriters := ht₃.queueNew_gives
        simp only [Outcome.ok_bind]
        generalize queueNew m₃ = out at hwriters
        cases hwriters with
        | refused =>
          simp only [Outcome.ok_bind, hfree₃, hfree₂, hfree₁]
          exact .refused
        | given m₄ writers ht₄ hfree₄ =>
          refine .given m₄ (PipeAddr.mk pipe buffer readers writers) ht₄ ?_
          simp only [unmakePipe, hfree₄, Outcome.ok_bind, hfree₃, hfree₂, hfree₁]

/-! ### `create_pipe` -/

/-- **A failed `create_pipe` leaves no trace.**  In every state the manager can reach and for
    every table of pipes, `create_pipe` comes back; when it returns `NULL`, the block table and
    `pipes_table` are as before; and when it does not, giving back its five blocks restores the
    block table, and the pipe stands in a slot that was empty. -/
theorem createPipe_leaves_no_trace {tr : List (Kmm × Call × Option Nat)} (h : History tr m)
    (pipesTable : Nat → Option Nat) : ∃ s r, createPipe ⟨m, pipesTable⟩ = .ok (s, r) ∧
      (r = none → s = ⟨m, pipesTable⟩) ∧
      ∀ p, r = some p → unmakePipe s.heap p = .ok m ∧ ∃ i < maxPipes, pipesTable i = none ∧
        s.pipesTable = Function.update pipesTable i (some p.pipe) := by
  unfold createPipe
  cases hslot : PipeHeap.freeSlot ⟨m, pipesTable⟩ with
  | none => exact ⟨_, none, rfl, fun _ => rfl, nofun⟩
  | some i =>
    have hempty : pipesTable i = none := by
      have hnull := List.find?_some hslot
      exact Option.isNone_iff_eq_none.mp hnull
    have hi : i < maxPipes := List.mem_range.mp (List.mem_of_find?_eq_some hslot)
    have hnew := (Tiled.history h).newPipe_gives
    dsimp only
    generalize newPipe m = out at hnew
    cases hnew with
    | refused => exact ⟨_, none, rfl, fun _ => rfl, nofun⟩
    | given m' p ht hfree =>
      refine ⟨_, some p, rfl, nofun, fun q hq => ?_⟩
      cases hq
      exact ⟨hfree, i, hi, hempty, rfl⟩

/-- A history that takes the whole heap. -/
theorem history_full : ∃ tr m, History tr m ∧ ∀ i < totalBlocks, ¬ m.Free i := by
  have hle : heapSize ≤ heapSize := le_refl _
  have hneed : blocksNeeded heapSize = totalBlocks := by decide
  have hceil : heapSize ⌈/⌉ blockSize = totalBlocks := by
    rw [← blocksNeeded_of_lt (by decide), hneed]
  have hfits : Fits (myKmmInit heapBase).Free totalBlocks totalBlocks 0 :=
    ⟨by omega, fun _ _ => rfl⟩
  obtain ⟨m', r, hrun, -, hnone, -⟩ := myKmalloc_firstFit (myKmmInit heapBase) hle
  have hstep : next (myKmmInit heapBase) (.kmalloc heapSize) = some (m', r) := by
    rw [next, hrun]
    rfl
  have hhist : History [(myKmmInit heapBase, .kmalloc heapSize, r)] m' :=
    .snoc .nil (show heapSize < word by decide) hstep
  refine ⟨_, m', hhist, fun p hp hfree => ?_⟩
  rw [hceil] at hnone
  rcases myKmalloc_cases (by decide) hrun with ⟨hr, -⟩ | ⟨hzero, -⟩ | ⟨i, -, hfits', -, rfl⟩
  · exact hnone.mp hr 0 hfits
  · rw [hneed] at hzero
    exact absurd hzero (by decide)
  · have hroom := hfits'.room
    rw [hneed] at hroom hfree
    rw [take_free_iff] at hfree
    exact hfree.1 (by omega)

/-- On a heap without a free block `create_pipe` returns `NULL`. -/
theorem createPipe_leaves_no_trace_full : ∃ m s, (∃ tr, History tr m) ∧
    createPipe ⟨m, fun _ => none⟩ = .ok (s, none) ∧ s = ⟨m, fun _ => none⟩ := by
  obtain ⟨tr, m, hrun, hfull⟩ := history_full
  obtain ⟨s, r, hcreate, hnone, -⟩ := createPipe_leaves_no_trace hrun fun _ => none
  have hrefuse : myKmalloc m sizeofPipe = .ok (m, none) := by
    have hle : sizeofPipe ≤ heapSize := by decide
    obtain ⟨m', r', hm, -, hno, hsame⟩ := myKmalloc_firstFit m hle
    have hr' : r' = none := hno.mpr fun i hfits => by
      have hneed : 0 < sizeofPipe ⌈/⌉ blockSize := by
        rw [Nat.ceilDiv_eq_add_pred_div]
        decide
      have hroom := hfits.room
      exact hfull i (by omega) (hfits.free 0 hneed)
    rw [hm, hr', hsame hr']
  have hnew : newPipe m = .ok (m, none) := by
    rw [newPipe, hrefuse]
    rfl
  have hr : r = none := by
    have hslot : PipeHeap.freeSlot ⟨m, fun _ => none⟩ = some 0 := rfl
    rw [createPipe, hslot] at hcreate
    dsimp only at hcreate
    rw [hnew] at hcreate
    cases hcreate
    rfl
  subst hr
  exact ⟨m, s, ⟨tr, hrun⟩, hcreate, hnone rfl⟩

end TpeSo.MyMm
