import TpeSo.Kernel.Scheduler

namespace TpeSo

open Ds Lib

/-!
# `ipc/pipe.c` and `ipc/filedesc.c`

Named pipes and the descriptors that refer to them.  `pipe_read` and `pipe_write` may give
up the processor in the middle; when they run again they take up at the loop test, so what
is left to do is the call itself (`Pending.pipeRead`, `Pending.pipeWrite`).
-/

/-! ### Strings -/

/-- `str_cmp` on the bytes in memory at the two pointers; behind a list the memory reads
    as `NUL`. -/
def strCmp : List UInt8 → List UInt8 → Int
  | [], s2 => 0 - ((s2.headD 0).toNat : Int)
  | a :: s1, s2 =>
    if a ≠ 0 ∧ a = s2.headD 0 then strCmp s1 s2.tail
    else (a.toNat : Int) - ((s2.headD 0).toNat : Int)

/-- `str_ncpy` into a field of `n` bytes: no terminator when the source fills it. -/
def strNcpy (src : List UInt8) (n : Nat) : List UInt8 :=
  let s := (src.takeWhile (· ≠ 0)).take n
  s ++ List.replicate (n - s.length) 0

/-- The bytes a comparison that starts at `pipe->id` runs over. -/
def Pipe.idBytes (p : Pipe) : List UInt8 :=
  p.id ++ [if p.inUse then 1 else 0, if p.lock then 1 else 0] ++ p.junk

/-! ### The table -/

/-- The body of the search in `find_pipe_by_id`. -/
def pipeMatches (k : Kernel) (id : List UInt8) (i : Nat) : Bool :=
  match k.pipesTable i with
  | none => false
  | some pp => (k.pipes pp).inUse && strCmp (k.pipes pp).idBytes id == 0

/-- `find_pipe_by_id`. -/
def findPipeById (k : Kernel) (id : List UInt8) : Option PipeId :=
  ((List.range maxPipes).find? (pipeMatches k id)).bind k.pipesTable

/-- The first free slot of `pipes_table`. -/
def freePipeSlot (k : Kernel) : Option Nat :=
  (List.range maxPipes).find? fun i => (k.pipesTable i).isNone

/-- The five allocations of `create_pipe`, made one after the other as long as they
    succeed: the pipe, the ring, its bytes, and the two wait queues. -/
def allocAll (k : Kernel) : Nat → Kernel × Bool
  | 0 => (k, true)
  | n + 1 => if k.kmalloc then allocAll k.alloc n else (k.alloc, false)

/-- `create_pipe`; `junk` is what the new memory holds behind the initialised fields. -/
def createPipe (k : Kernel) (id junk : List UInt8) : Kernel × Option PipeId :=
  match freePipeSlot k with
  | none => (k, none)
  | some i =>
    let r := allocAll k 5
    let k := r.1
    if r.2 then
      let pp := k.nextPipe
      ({ k with
          nextPipe := pp + 1
          pipes := Function.update k.pipes pp
            { id := strNcpy id 32, inUse := true, lock := true, junk := junk }
          pipesTable := Function.update k.pipesTable i (some pp) }, some pp)
    else (k, none)

/-- `pipe_free`: the table keeps its pointer. -/
def pipeFree (k : Kernel) (pp : PipeId) : Kernel :=
  k.setPipe pp fun q =>
    { q with inUse := false, readersWaitQueue := [], writersWaitQueue := [], freed := true }

/-- The entry `open_pipe` stores in the caller's slot. -/
def pipeEntry (pp : PipeId) (ops : FileOps) : FdEntry :=
  { resource := some pp, ops := some ops, type := .pipe }

/-- Store a descriptor. -/
def setFd (k : Kernel) (p : ProcId) (i : Fin fdMax) (e : FdEntry) : Kernel :=
  k.setProc p fun q => { q with fds := Function.update q.fds i e }

/-- `pipe_add_ref_read`, and the count of a read end in `open_pipe`. -/
def pipeAddRefRead (k : Kernel) (pp : PipeId) : Kernel :=
  k.setPipe pp fun q => { q with readers := q.readers + 1 }

/-- `pipe_add_ref_write`, and the count of a write end in `open_pipe`. -/
def pipeAddRefWrite (k : Kernel) (pp : PipeId) : Kernel :=
  k.setPipe pp fun q => { q with writers := q.writers + 1 }

/-- `open_pipe` on slot `i` of process `p`. -/
def openPipe (k : Kernel) (p : ProcId) (i : Fin fdMax) (id junk : List UInt8) (mode : Int) :
    Kernel × Int :=
  if mode ≠ 0 ∧ mode ≠ 1 then (k, -1)
  else
    let r := match findPipeById k id with
      | some pp => (k, some pp)
      | none => createPipe k id junk
    match r.2 with
    | none => (r.1, -1)
    | some pp =>
      if mode = 0 then (pipeAddRefRead (setFd r.1 p i (pipeEntry pp .pipeRead)) pp, 0)
      else (pipeAddRefWrite (setFd r.1 p i (pipeEntry pp .pipeWrite)) pp, 0)

/-! ### Reading and writing -/

/-- `pipe_read` by the current process `c`, from the loop test on.  The result is the
    bytes read; there is none while the caller waits. -/
def pipeRead (k : Kernel) (c : ProcId) (pp : PipeId) (size : Nat) :
    Outcome (Kernel × Option (List UInt8)) := do
  let k ← acquirePipe k pp
  if ringbufAvailable (k.pipes pp).buffer = 0 then
    if (k.pipes pp).writers = 0 then .ok (releasePipe k pp, some [])
    else
      let k := releasePipe k pp
      let node := k.kmalloc
      let k := k.alloc
      let k := k.setPipe pp fun q =>
        { q with readersWaitQueue := enqueue node q.readersWaitQueue c }
      let k ← blockCurrent (k.suspend (.pipeRead pp size)) .pipeRead (.pipeReaders pp)
      .ok (k, none)
  else
    let r := ringbufRead (k.pipes pp).buffer size
    let w := dequeue (k.pipes pp).writersWaitQueue
    let k := k.setPipe pp fun q => { q with buffer := r.1, writersWaitQueue := w.2 }
    .ok (releasePipe (procReady k w.1) pp, some r.2)

def ePipe : Int := 32

/-- `pipe_write` by the current process `c`, from the loop test on. -/
def pipeWrite (k : Kernel) (c : ProcId) (pp : PipeId) (buf : List UInt8) :
    Outcome (Kernel × Option Int) := do
  let k ← acquirePipe k pp
  if pipeBufferSize ≤ ringbufAvailable (k.pipes pp).buffer then
    if (k.pipes pp).readers = 0 then .ok (releasePipe k pp, some (-ePipe))
    else
      let k := releasePipe k pp
      let node := k.kmalloc
      let k := k.alloc
      let k := k.setPipe pp fun q =>
        { q with writersWaitQueue := enqueue node q.writersWaitQueue c }
      let k ← blockCurrent (k.suspend (.pipeWrite pp buf)) .pipeWrite (.pipeWriters pp)
      .ok (k, none)
  else
    let r := ringbufWrite (k.pipes pp).buffer buf
    let w := dequeue (k.pipes pp).readersWaitQueue
    let k := k.setPipe pp fun q => { q with buffer := r.1, readersWaitQueue := w.2 }
    .ok (releasePipe (procReady k w.1) pp, some r.2)

/-! ### Closing -/

/-- The last lines of both close operations. -/
def freeUnreferenced (k : Kernel) (pp : PipeId) : Kernel :=
  if (k.pipes pp).readers = 0 ∧ (k.pipes pp).writers = 0 then pipeFree k pp else k

/-- `pipe_close_read`. -/
def pipeCloseRead (k : Kernel) (pp : PipeId) : Kernel :=
  freeUnreferenced (k.setPipe pp fun q => { q with readers := q.readers - 1 }) pp

/-- `proc_ready(dequeue(pipe->readers_wait_queue))`. -/
def wakeFirstReader (k : Kernel) (pp : PipeId) : Kernel :=
  let w := dequeue (k.pipes pp).readersWaitQueue
  procReady (k.setPipe pp fun q => { q with readersWaitQueue := w.2 }) w.1

/-- The loop of `pipe_close_write` on a `readers_wait_queue` of `count` entries. -/
def wakeReaders (k : Kernel) (pp : PipeId) : Nat → Kernel
  | 0 => k
  | count + 1 => wakeReaders (wakeFirstReader k pp) pp count

/-- `pipe_close_write`: without writers left, every waiting reader is woken. -/
def pipeCloseWrite (k : Kernel) (pp : PipeId) : Kernel :=
  let k := k.setPipe pp fun q => { q with writers := q.writers - 1 }
  let k := if (k.pipes pp).writers = 0 then
      wakeReaders k pp (k.pipes pp).readersWaitQueue.length
    else k
  freeUnreferenced k pp

/-! ### Descriptors -/

/-- `ops->close(resource)`, for the tables that have a `close`. -/
def fdClose (k : Kernel) (e : FdEntry) : Kernel :=
  match e.ops, e.resource with
  | some .pipeRead, some pp => pipeCloseRead k pp
  | some .pipeWrite, some pp => pipeCloseWrite k pp
  | _, _ => k

/-- `ops->add_ref(resource)`, for the tables that have an `add_ref`. -/
def fdAddRef (k : Kernel) (e : FdEntry) : Kernel :=
  match e.ops, e.resource with
  | some .pipeRead, some pp => pipeAddRefRead k pp
  | some .pipeWrite, some pp => pipeAddRefWrite k pp
  | _, _ => k

/-- Close one slot and clear it: the body of `sys_close_fd` and of the loop in
    `proc_kill`. -/
def closeSlot (k : Kernel) (p : ProcId) (i : Fin fdMax) : Kernel :=
  setFd (fdClose k ((k.procs p).fds i)) p i {}

/-- `set_default_fds`. -/
def setDefaultFds (k : Kernel) (p : ProcId) : Kernel :=
  let k := setFd k p 0 { ops := some .keyboard, type := .terminal }
  let k := setFd k p 1 { ops := some .video, type := .terminal }
  setFd k p 2 { ops := some .videoErr, type := .terminal }

/-- The loop of `inherit_fds`, over the slots `is` of the child. -/
def inheritLoop (k : Kernel) (target source : ProcId) (fds : Fin fdMax → Int) :
    List (Fin fdMax) → Kernel
  | [] => k
  | i :: is =>
    if h : 0 ≤ fds i ∧ fds i < fdMax then
      let e := (k.procs source).fds ⟨(fds i).toNat, by omega⟩
      inheritLoop (setFd (fdAddRef k e) target i e) target source fds is
    else k

/-- `inherit_fds`. -/
def inheritFds (k : Kernel) (target : ProcId) (source : Option ProcId)
    (fds : Fin fdMax → Int) : Kernel :=
  match source with
  | none => k
  | some s => inheritLoop k target s fds (List.finRange fdMax)

/-- `find_free_fd`. -/
def findFreeFd (k : Kernel) (p : ProcId) : Option (Fin fdMax) :=
  (List.finRange fdMax).find? fun i => decide (((k.procs p).fds i).type = .none)

end TpeSo
