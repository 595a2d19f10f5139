import TpeSo.Ds.Queue
import TpeSo.Ds.Ringbuf
import TpeSo.Lib.Outcome

namespace TpeSo

open Ds Lib

/-!
# Kernel — the data model

The state of the running kernel: the process control blocks of `pcb.h`, the scheduler's
record, the semaphore table, the pipes and their table, the sleep queue, the keyboard
driver and the terminal's foreground process.

* Objects handed out by `kmalloc` (process control blocks, pipes) are named by numbers
  that are never used again.  A released object keeps its bytes, as neither memory manager
  writes into a released payload; an address handed out again is a new object here.
* `mallocOk` is the stream of the outcomes of the `kmalloc` calls still to come, so that
  any of them may fail; "`kmalloc` never returns `NULL`" is `Kernel.HeapOk`.
* `kstack` records what is left to do on the kernel stack of a process that gave up the
  processor inside a system call.  System calls run with interrupts disabled, so a process
  that is switched back in finishes that work before anything else happens.
-/

/-- Address of a `proc_t`. -/
abbrev ProcId := Nat

/-- Address of a `pipe_t`. -/
abbrev PipeId := Nat

def maxProcesses : Nat := 64
abbrev fdMax : Nat := 16
def maxSemaphores : Nat := 1024
def maxPipes : Nat := 64
def pipeBufferSize : Nat := 1024
def kbuffSize : Nat := 8192
def quantumDefault : Nat := 2
def quantumMax : Nat := 5

/-- `HEAP_SIZE`. -/
def heapSize : Nat := 16777216

/-- `HEAP_BASE`, the address `main` hands to `kmm_init`. -/
def heapBase : Nat := 0x600000

/-- `2 ^ 64`, the modulus of `uint64_t`, `size_t` and `unsigned long`. -/
def word : Nat := 2 ^ 64

/-- `proc_state_t`. -/
inductive ProcState where
  | dead | ready | running | zombie | blocked
  deriving DecidableEq, Repr

/-- `block_reason_t`. -/
inductive BlockReason where
  | none | keyboard | arbitrary | semaphore | child | sleep | pipeRead | pipeWrite | terminal
  deriving DecidableEq, Repr

/-- What a `waiting_on` pointer leads to. -/
inductive WaitRef where
  | null
  | readyQueue
  /-- The `semaphore_t` itself, which is what `my_sem_wait` hands to `block_current`. -/
  | semaphore (id : Nat)
  | pipeReaders (pipe : PipeId)
  | pipeWriters (pipe : PipeId)
  | sleepers
  | keyboard
  deriving DecidableEq, Repr

/-- The `file_ops_t` tables of the kernel. -/
inductive FileOps where
  | keyboard | video | videoErr | pipeRead | pipeWrite
  deriving DecidableEq, Repr

/-- `FDType`. -/
inductive FDType where
  | none | pipe | terminal
  deriving DecidableEq, Repr

/-- `fd_entry_t`. -/
structure FdEntry where
  resource : Option PipeId := none
  ops : Option FileOps := none
  type : FDType := .none
  deriving DecidableEq, Repr

/-- `mode`: who owns the terminal. -/
inductive Mode where
  | bg | fg
  deriving DecidableEq, Repr

/-- `proc_t`, as `memset` leaves it. -/
structure Proc where
  pid : Int := 0
  parent : Option ProcId := none
  /-- `children[0 .. child_count)`. -/
  children : List Int := []
  /-- `stack_start` is not `NULL`. -/
  hasStack : Bool := false
  stackPointer : Nat := 0
  entry : Nat := 0
  blockReason : BlockReason := .none
  waitingOn : WaitRef := .null
  exit : Int := 0
  status : ProcState := .dead
  hasQuantum : Nat := 0
  priority : Nat := 0
  mode : Mode := .bg
  fds : Fin fdMax → FdEntry := fun _ => {}

/-- `semaphore_t`; a lock byte of `1` is `true`. -/
structure Semaphore where
  lock : Bool := false
  inUse : Bool := false
  value : Nat := 0
  /-- A value of this queue is `get_running()`, which may be `NULL`. -/
  waitingQueue : List (Option ProcId) := []

/-- `pipe_t`. -/
structure Pipe where
  buffer : Ringbuf := ringbufNew pipeBufferSize
  readers : Nat := 0
  writers : Nat := 0
  /-- The 32 bytes of `id`. -/
  id : List UInt8 := []
  inUse : Bool := false
  lock : Bool := false
  /-- The bytes behind `lock`, which `create_pipe` does not initialise. -/
  junk : List UInt8 := []
  readersWaitQueue : List ProcId := []
  writersWaitQueue : List ProcId := []
  /-- The pipe has been passed to `pipe_free`. -/
  freed : Bool := false

/-- `sleeping_proc_t`. -/
structure SleepingProc where
  pid : Int
  wakeUpTick : Nat
  deriving DecidableEq, Repr

/-- What is left of a system call whose process is switched out inside it. -/
inductive Pending where
  | yield
  | sleep
  | block
  | exit
  | semWait (id : Nat)
  | pipeRead (pipe : PipeId) (size : Nat)
  | pipeWrite (pipe : PipeId) (buf : List UInt8)
  | waitPid (pid : Int)
  | readLine (count : Nat) (buf0 : UInt8)
  deriving DecidableEq, Repr

/-- The whole kernel. -/
structure Kernel where
  procs : ProcId → Proc := fun _ => {}
  nextProc : ProcId := 0
  processTable : Nat → Option ProcId := fun _ => none
  processCount : Int := 0
  readyProcesses : List ProcId := []
  blockedProcesses : List ProcId := []
  currentProcess : Option ProcId := none
  semaphores : Nat → Semaphore := fun _ => {}
  pipes : PipeId → Pipe := fun _ => {}
  nextPipe : PipeId := 0
  pipesTable : Nat → Option PipeId := fun _ => none
  sleepingProcs : List SleepingProc := []
  ticks : Nat := 0
  foregroundProcess : Option ProcId := none
  kbuff : Ringbuf := ringbufNew kbuffSize
  keyboardQueue : List ProcId := []
  canonicalMode : Bool := true
  shift : Bool := false
  capsLock : Bool := false
  ctrl : Bool := false
  arrow : Bool := false
  esc : Bool := false
  currentLineLen : Int := 0
  /-- The stack pointer register. -/
  rsp : Nat := 0
  kstack : ProcId → Option Pending := fun _ => none
  mallocOk : Nat → Bool := fun _ => true

namespace Kernel

/-- Update one process control block. -/
def setProc (k : Kernel) (p : ProcId) (f : Proc → Proc) : Kernel :=
  { k with procs := Function.update k.procs p (f (k.procs p)) }

/-- Update one semaphore. -/
def setSem (k : Kernel) (id : Nat) (f : Semaphore → Semaphore) : Kernel :=
  { k with semaphores := Function.update k.semaphores id (f (k.semaphores id)) }

/-- Update one pipe. -/
def setPipe (k : Kernel) (pp : PipeId) (f : Pipe → Pipe) : Kernel :=
  { k with pipes := Function.update k.pipes pp (f (k.pipes pp)) }

/-- Does the next `kmalloc` succeed? -/
def kmalloc (k : Kernel) : Bool := k.mallocOk 0

/-- The kernel after a `kmalloc`. -/
def alloc (k : Kernel) : Kernel := { k with mallocOk := fun n => k.mallocOk (n + 1) }

/-- `kmalloc` never returns `NULL`. -/
def HeapOk (k : Kernel) : Prop := ∀ n, k.mallocOk n = true

/-- Note what the current process still has to do when it runs again. -/
def suspend (k : Kernel) (w : Pending) : Kernel :=
  match k.currentProcess with
  | none => k
  | some c => { k with kstack := Function.update k.kstack c (some w) }

/-- Control is inside the kernel, with interrupts disabled: the current process has been
    switched back in and has not finished its system call. -/
def inKernel (k : Kernel) : Bool :=
  match k.currentProcess with
  | none => false
  | some c => (k.kstack c).isSome

end Kernel

/-! ### Locks

A lock byte is `1` (`true`) when free.  With interrupts off and one processor a taken lock
is never released, so an `acquire` that finds it taken does not end. -/

/-- `acquire(&sem->lock)`. -/
def acquireSem (k : Kernel) (id : Nat) : Outcome Kernel :=
  if (k.semaphores id).lock then .ok (k.setSem id fun s => { s with lock := false }) else .hang

/-- `release(&sem->lock)`. -/
def releaseSem (k : Kernel) (id : Nat) : Kernel := k.setSem id fun s => { s with lock := true }

/-- `acquire(&pipe->lock)`. -/
def acquirePipe (k : Kernel) (pp : PipeId) : Outcome Kernel :=
  if (k.pipes pp).lock then .ok (k.setPipe pp fun q => { q with lock := false }) else .hang

/-- `release(&pipe->lock)`. -/
def releasePipe (k : Kernel) (pp : PipeId) : Kernel :=
  k.setPipe pp fun q => { q with lock := true }

/-! ### Process lookup -/

/-- `get_proc_by_pid`: an unchecked index into `process_table`. -/
def getProcByPid (k : Kernel) (pid : Int) : Outcome (Option ProcId) :=
  if 0 ≤ pid ∧ pid < maxProcesses then .ok (k.processTable pid.toNat) else .fault

/-- The implicit conversion of a system call argument to `pid_t`. -/
def toPid (x : Int) : Int := x.bmod (2 ^ 32)

end TpeSo
