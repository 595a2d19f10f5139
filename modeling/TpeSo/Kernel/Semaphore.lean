import TpeSo.Kernel.Scheduler

namespace TpeSo

open Ds Lib

/-!
# `ipc/semaphore.c`

The table of 1024 semaphores.  A post hands its token to the first waiter directly and
leaves `value` alone; only with no waiter does `value` grow.  The results are `uint64_t`
in the source and reach the caller as `int64_t`, so the error value is `-1` here.

A call that blocks its caller has no result yet: it returns `0` once the process runs
again (`Pending.semWait`).
-/

/-- `sem_is_open`. -/
def semIsOpen (k : Kernel) (id : Nat) : Bool :=
  id < maxSemaphores && (k.semaphores id).inUse

/-- `my_sem_create`. -/
def mySemCreate (k : Kernel) (id value : Nat) : Kernel × Int :=
  if id < maxSemaphores ∧ (k.semaphores id).inUse = false then
    let queue := k.kmalloc
    let k := k.alloc
    if queue then
      (k.setSem id fun s =>
        { s with waitingQueue := [], value := value, inUse := true, lock := true }, 0)
    else (k, -1)
  else (k, -1)

/-- `my_sem_destroy`: the waiting queue is freed with whatever it holds. -/
def mySemDestroy (k : Kernel) (id : Nat) : Kernel × Int :=
  if semIsOpen k id then
    (k.setSem id fun s => { s with inUse := false, waitingQueue := [] }, 0)
  else (k, -1)

/-- `my_sem_post`. -/
def mySemPost (k : Kernel) (id : Nat) : Outcome (Kernel × Int) :=
  if semIsOpen k id then do
    let k ← acquireSem k id
    let r := dequeue (k.semaphores id).waitingQueue
    let k := k.setSem id fun s => { s with waitingQueue := r.2 }
    match r.1.join with
    | some p => .ok (procReady (releaseSem k id) (some p), 0)
    | none =>
      let k := k.setSem id fun s => { s with value := (s.value + 1) % word }
      .ok (releaseSem k id, 0)
  else .ok (k, -1)

/-- `my_sem_wait`. -/
def mySemWait (k : Kernel) (id : Nat) : Outcome (Kernel × Option Int) :=
  if semIsOpen k id then do
    let k ← acquireSem k id
    if 0 < (k.semaphores id).value then
      let k := k.setSem id fun s => { s with value := s.value - 1 }
      .ok (releaseSem k id, some 0)
    else
      let running := k.currentProcess
      let node := k.kmalloc
      let k := k.alloc
      let k := k.setSem id fun s =>
        { s with waitingQueue := enqueue node s.waitingQueue running }
      let k := releaseSem k id
      let k ← blockCurrent (k.suspend (.semWait id)) .semaphore (.semaphore id)
      -- without a running process `block_current` only prints, and the call returns
      .ok (k, if running.isSome then none else some 0)
  else .ok (k, some (-1))

/-- `my_sem_trywait`. -/
def mySemTrywait (k : Kernel) (id : Nat) : Outcome (Kernel × Int) :=
  if semIsOpen k id then do
    let k ← acquireSem k id
    if 0 < (k.semaphores id).value then
      let k := k.setSem id fun s => { s with value := s.value - 1 }
      .ok (releaseSem k id, 0)
    else .ok (releaseSem k id, 1)
  else .ok (k, -1)

end TpeSo
