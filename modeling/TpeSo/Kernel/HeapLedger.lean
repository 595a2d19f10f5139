import TpeSo.Kernel.Process

namespace TpeSo

open Ds Lib

/-!
# The heap beside the kernel — which blocks are allocated

What `sys_spawn_process` and `proc_kill` ask of the memory manager.  Each definition follows the
branches of the routine it is named after, next to the kernel that routine works on.

* Blocks are named by their addresses; an address may be handed out again once it has been freed.
* `kmm_free` of an address that is not allocated changes nothing.
* The nodes of a queue are not listed: a queue of `n` entries owns `n` of them.
-/

/-- The allocated blocks, and where the kernel's objects stand. -/
structure HeapLedger where
  blocks : List Nat := []
  /-- The addresses `kmalloc` is going to return. -/
  fresh : Nat → Nat
  procAt : ProcId → Nat := fun _ => 0
  /-- `stack_start`. -/
  stackAt : ProcId → Nat := fun _ => 0
  /-- A pipe, its ring with the bytes, and its two queues. -/
  pipeAt : PipeId → List Nat := fun _ => []

namespace HeapLedger

/-- The ledger after a `kmalloc` that succeeds; it returns `l.fresh 0`. -/
def kmalloc (l : HeapLedger) : HeapLedger :=
  { l with blocks := l.fresh 0 :: l.blocks, fresh := fun n => l.fresh (n + 1) }

/-- `kmm_free`. -/
def kmmFree (l : HeapLedger) (a : Nat) : HeapLedger := { l with blocks := l.blocks.erase a }

end HeapLedger

/-! ### Creation -/

/-- `proc_new`; the new control block is cleared. -/
def procNewLedger (k : Kernel) (l : HeapLedger) : HeapLedger :=
  if (maxProcesses : Int) ≤ k.processCount then l
  else if k.kmalloc then
    { l.kmalloc with
      procAt := Function.update l.procAt k.nextProc (l.fresh 0)
      stackAt := Function.update l.stackAt k.nextProc 0 }
  else l

/-- `proc_init`. -/
def procInitLedger (k : Kernel) (l : HeapLedger) (p : ProcId) : HeapLedger :=
  match procPidAlloc k with
  | none => l
  | some _ =>
    if k.kmalloc then { l.kmalloc with stackAt := Function.update l.stackAt p (l.fresh 0) } else l

/-- `execv`: the buffer for the argument pointers is given back. -/
def execvLedger (k : Kernel) (l : HeapLedger) : HeapLedger :=
  if k.kmalloc then l.kmalloc.kmmFree (l.fresh 0) else l

/-- `sys_spawn_process`. -/
def spawnLedger (k : Kernel) (l : HeapLedger) (a : SpawnArgs) : HeapLedger :=
  match a.entry with
  | none => l
  | some entry =>
    let r := procNew k
    let l := procNewLedger k l
    match r.2 with
    | none => l
    | some p =>
      let l := procInitLedger r.1 l p
      execvLedger (procInit r.1 p a entry).1 l

/-! ### Death -/

/-- `pipe_free`. -/
def pipeFreeLedger (l : HeapLedger) (pp : PipeId) : HeapLedger :=
  (l.pipeAt pp).foldl HeapLedger.kmmFree l

/-- The last lines of both close operations. -/
def freeUnreferencedLedger (k : Kernel) (l : HeapLedger) (pp : PipeId) : HeapLedger :=
  if (k.pipes pp).readers = 0 ∧ (k.pipes pp).writers = 0 then pipeFreeLedger l pp else l

/-- `ops->close(resource)`. -/
def fdCloseLedger (k : Kernel) (l : HeapLedger) (e : FdEntry) : HeapLedger :=
  match e.ops, e.resource with
  | some .pipeRead, some pp =>
    freeUnreferencedLedger (k.setPipe pp fun q => { q with readers := q.readers - 1 }) l pp
  | some .pipeWrite, some pp =>
    freeUnreferencedLedger (k.setPipe pp fun q => { q with writers := q.writers - 1 }) l pp
  | _, _ => l

/-- `proc_kill`, second part. -/
def closeFdsLedger (k : Kernel) (l : HeapLedger) (p : ProcId) : List (Fin fdMax) → HeapLedger
  | [] => l
  | i :: is => closeFdsLedger (closeSlot k p i) (fdCloseLedger k l ((k.procs p).fds i)) p is

/-- `proc_kill`, last part: a process without a parent is collected at once. -/
def killNotifyLedger (k : Kernel) (l : HeapLedger) (p : ProcId) : HeapLedger :=
  match (k.procs p).parent with
  | none => l.kmmFree (l.procAt p)
  | some _ => l

/-- `proc_kill`. -/
def procKillLedger (k : Kernel) (l : HeapLedger) (p : ProcId) (code : Int) : Outcome HeapLedger :=
  if (k.procs p).pid = 0 ∨ (k.procs p).pid = 1 then .ok l
  else do
    let l := l.kmmFree (l.stackAt p)
    let k := killUnlink k p code
    let l := closeFdsLedger k l p (List.finRange fdMax)
    let k := closeFds k p (List.finRange fdMax)
    let k ← reparentAll k (k.procs p).children
    .ok (killNotifyLedger k l p)

end TpeSo
