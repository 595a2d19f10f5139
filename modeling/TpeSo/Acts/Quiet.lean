import TpeSo.Kernel.Syscall

namespace TpeSo

open Ds Lib

/-!
# Acts — what an edit of the kernel may leave alone

Much of what the kernel writes (screen state, stack pointers, modes, families, lock bytes)
plays no part in who runs, who waits and who refers to which pipe.

* `Proc.watched`, `Semaphore.watched`, `Pipe.watched`, `Kernel.watched` — the fields that
  the invariants of this development read;
* `Calm k k'` — `k'` agrees with `k` on these, but perhaps not on the notes on the kernel
  stacks;
* `Quiet k k'` — the kernel stacks agree as well;
* `Quiet.setProc`, `Quiet.setSem`, `Quiet.setPipe`, `Quiet.alloc`, `Quiet.unwatched` — the
  edits that are quiet, from which the others are composed.

The quantum is only watched for being used up: a process that gives up the processor has
its quantum set to `0`, and nothing gives it a new one before the switch.
-/

/-! ### One record edited -/

namespace Kernel

variable (k : Kernel)

@[simp] theorem procs_setProc_self (p : ProcId) (f : Proc → Proc) :
    (k.setProc p f).procs p = f (k.procs p) := by
  simp [setProc]

@[simp] theorem procs_setProc_ne {p q : ProcId} {f : Proc → Proc} (h : q ≠ p) :
    (k.setProc p f).procs q = k.procs q := by
  simp [setProc, h]

theorem setProc_setProc (p : ProcId) (f g : Proc → Proc) :
    (k.setProc p f).setProc p g = k.setProc p fun q => g (f q) := by
  simp [setProc]

/-- A projection that `f` spares is spared by the edit `f` of one record. -/
theorem setProc_spares {β : Type} (g : Proc → β) {f : Proc → Proc} {p : ProcId}
    (h : g (f (k.procs p)) = g (k.procs p)) (q : ProcId) :
    g ((k.setProc p f).procs q) = g (k.procs q) := by
  by_cases hq : q = p
  · subst hq
    rw [procs_setProc_self, h]
  · rw [procs_setProc_ne k hq]

theorem setSem_spares {β : Type} (g : Semaphore → β) {f : Semaphore → Semaphore} {id : Nat}
    (h : g (f (k.semaphores id)) = g (k.semaphores id)) (i : Nat) :
    g ((k.setSem id f).semaphores i) = g (k.semaphores i) := by
  by_cases hi : i = id
  · subst hi
    simp [setSem, h]
  · simp [setSem, hi]

theorem setPipe_spares {β : Type} (g : Pipe → β) {f : Pipe → Pipe} {pp : PipeId}
    (h : g (f (k.pipes pp)) = g (k.pipes pp)) (i : PipeId) :
    g ((k.setPipe pp f).pipes i) = g (k.pipes i) := by
  by_cases hi : i = pp
  · subst hi
    simp [setPipe, h]
  · simp [setPipe, hi]

/-- An edit that changes nothing. -/
theorem setPipe_eq_self {pp : PipeId} {f : Pipe → Pipe} (h : f (k.pipes pp) = k.pipes pp) :
    k.setPipe pp f = k := by
  rw [setPipe, h, Function.update_eq_self]

end Kernel

/-! ### The watched fields -/

/-- The watched fields of a process control block, the quantum apart. -/
def Proc.watched (q : Proc) : Int × ProcState × BlockReason × WaitRef × (Fin fdMax → FdEntry) :=
  (q.pid, q.status, q.blockReason, q.waitingOn, q.fds)

/-- The watched fields of a semaphore: all but the lock. -/
def Semaphore.watched (s : Semaphore) : Nat × Bool × List (Option ProcId) :=
  (s.value, s.inUse, s.waitingQueue)

/-- The watched fields of a pipe. -/
def Pipe.watched (q : Pipe) :
    Ringbuf × Nat × Nat × Bool × Bool × List ProcId × List ProcId :=
  (q.buffer, q.readers, q.writers, q.inUse, q.freed, q.readersWaitQueue, q.writersWaitQueue)

/-- The watched fields of the kernel's own record. -/
def Kernel.watched (k : Kernel) : ProcId × (Nat → Option ProcId) × List ProcId × List ProcId ×
    Option ProcId × List SleepingProc × Nat × List ProcId × PipeId × (Nat → Option PipeId) :=
  (k.nextProc, k.processTable, k.readyProcesses, k.blockedProcesses, k.currentProcess,
    k.sleepingProcs, k.ticks, k.keyboardQueue, k.nextPipe, k.pipesTable)

/-! ### Calm and quiet edits -/

/-- Agreement on everything but the unwatched fields and the kernel stacks. -/
structure Calm (k k' : Kernel) : Prop where
  proc : ∀ p, (k'.procs p).watched = (k.procs p).watched
  quantum : ∀ p, (k.procs p).hasQuantum = 0 → (k'.procs p).hasQuantum = 0
  sem : ∀ i, (k'.semaphores i).watched = (k.semaphores i).watched
  pipe : ∀ i, (k'.pipes i).watched = (k.pipes i).watched
  kernel : k'.watched = k.watched
  heap : k.HeapOk → k'.HeapOk

/-- Agreement on everything but the unwatched fields. -/
structure Quiet (k k' : Kernel) : Prop extends Calm k k' where
  kstack : k'.kstack = k.kstack

theorem Kernel.HeapOk.alloc {k : Kernel} (h : k.HeapOk) : k.alloc.HeapOk :=
  fun n => h (n + 1)

theorem Kernel.HeapOk.kmalloc {k : Kernel} (h : k.HeapOk) : k.kmalloc = true := h 0

namespace Calm

variable {k k' k₁ k₂ k₃ : Kernel}

theorem trans (h : Calm k₁ k₂) (g : Calm k₂ k₃) : Calm k₁ k₃ where
  proc p := (g.proc p).trans (h.proc p)
  quantum p hq := g.quantum p (h.quantum p hq)
  sem i := (g.sem i).trans (h.sem i)
  pipe i := (g.pipe i).trans (h.pipe i)
  kernel := g.kernel.trans h.kernel
  heap hk := g.heap (h.heap hk)

section Fields

variable (h : Calm k k')

include h

theorem pid (p : ProcId) : (k'.procs p).pid = (k.procs p).pid :=
  congrArg (fun v => v.1) (h.proc p)

theorem status (p : ProcId) : (k'.procs p).status = (k.procs p).status :=
  congrArg (fun v => v.2.1) (h.proc p)

theorem blockReason (p : ProcId) : (k'.procs p).blockReason = (k.procs p).blockReason :=
  congrArg (fun v => v.2.2.1) (h.proc p)

theorem waitingOn (p : ProcId) : (k'.procs p).waitingOn = (k.procs p).waitingOn :=
  congrArg (fun v => v.2.2.2.1) (h.proc p)

theorem fds (p : ProcId) : (k'.procs p).fds = (k.procs p).fds :=
  congrArg (fun v => v.2.2.2.2) (h.proc p)

theorem semValue (i : Nat) : (k'.semaphores i).value = (k.semaphores i).value :=
  congrArg (fun v => v.1) (h.sem i)

theorem semInUse (i : Nat) : (k'.semaphores i).inUse = (k.semaphores i).inUse :=
  congrArg (fun v => v.2.1) (h.sem i)

theorem semQueue (i : Nat) : (k'.semaphores i).waitingQueue = (k.semaphores i).waitingQueue :=
  congrArg (fun v => v.2.2) (h.sem i)

theorem buffer (i : PipeId) : (k'.pipes i).buffer = (k.pipes i).buffer :=
  congrArg (fun v => v.1) (h.pipe i)

theorem readers (i : PipeId) : (k'.pipes i).readers = (k.pipes i).readers :=
  congrArg (fun v => v.2.1) (h.pipe i)

theorem writers (i : PipeId) : (k'.pipes i).writers = (k.pipes i).writers :=
  congrArg (fun v => v.2.2.1) (h.pipe i)

theorem pipeInUse (i : PipeId) : (k'.pipes i).inUse = (k.pipes i).inUse :=
  congrArg (fun v => v.2.2.2.1) (h.pipe i)

theorem freed (i : PipeId) : (k'.pipes i).freed = (k.pipes i).freed :=
  congrArg (fun v => v.2.2.2.2.1) (h.pipe i)

theorem pipeReaders (i : PipeId) :
    (k'.pipes i).readersWaitQueue = (k.pipes i).readersWaitQueue :=
  congrArg (fun v => v.2.2.2.2.2.1) (h.pipe i)

theorem pipeWriters (i : PipeId) :
    (k'.pipes i).writersWaitQueue = (k.pipes i).writersWaitQueue :=
  congrArg (fun v => v.2.2.2.2.2.2) (h.pipe i)

theorem nextProc : k'.nextProc = k.nextProc := congrArg (fun v => v.1) h.kernel

theorem table : k'.processTable = k.processTable := congrArg (fun v => v.2.1) h.kernel

theorem ready : k'.readyProcesses = k.readyProcesses := congrArg (fun v => v.2.2.1) h.kernel

theorem blocked : k'.blockedProcesses = k.blockedProcesses :=
  congrArg (fun v => v.2.2.2.1) h.kernel

theorem current : k'.currentProcess = k.currentProcess :=
  congrArg (fun v => v.2.2.2.2.1) h.kernel

theorem sleepers : k'.sleepingProcs = k.sleepingProcs :=
  congrArg (fun v => v.2.2.2.2.2.1) h.kernel

theorem ticks : k'.ticks = k.ticks := congrArg (fun v => v.2.2.2.2.2.2.1) h.kernel

theorem keyboard : k'.keyboardQueue = k.keyboardQueue :=
  congrArg (fun v => v.2.2.2.2.2.2.2.1) h.kernel

theorem nextPipe : k'.nextPipe = k.nextPipe :=
  congrArg (fun v => v.2.2.2.2.2.2.2.2.1) h.kernel

end Fields

end Calm

namespace Quiet

variable {k k₁ k₂ k₃ : Kernel}

/-- An edit of the unwatched fields of the kernel's own record, and of the heap. -/
theorem unwatched (hprocs : k₁.procs = k.procs) (hsems : k₁.semaphores = k.semaphores)
    (hpipes : k₁.pipes = k.pipes) (hstack : k₁.kstack = k.kstack)
    (hkernel : k₁.watched = k.watched) (hheap : k.HeapOk → k₁.HeapOk) : Quiet k k₁ where
  proc p := by rw [hprocs]
  quantum p hq := by rw [hprocs, hq]
  sem i := by rw [hsems]
  pipe i := by rw [hpipes]
  kernel := hkernel
  heap := hheap
  kstack := hstack

theorem refl (k : Kernel) : Quiet k k := .unwatched rfl rfl rfl rfl rfl id

theorem trans (h : Quiet k₁ k₂) (g : Quiet k₂ k₃) : Quiet k₁ k₃ :=
  { toCalm := h.toCalm.trans g.toCalm, kstack := g.kstack.trans h.kstack }

/-- A `kmalloc` is quiet. -/
theorem alloc (k : Kernel) : Quiet k k.alloc :=
  .unwatched rfl rfl rfl rfl rfl fun h => h.alloc

/-- An edit of a process control block is quiet when it spares the watched fields. -/
theorem setProc (p : ProcId) {f : Proc → Proc}
    (h : (f (k.procs p)).watched = (k.procs p).watched)
    (hq : (k.procs p).hasQuantum = 0 → (f (k.procs p)).hasQuantum = 0) :
    Quiet k (k.setProc p f) where
  proc := k.setProc_spares Proc.watched h
  quantum q hq' := by
    by_cases hqp : q = p
    · subst hqp
      rw [Kernel.procs_setProc_self]
      exact hq hq'
    · rw [Kernel.procs_setProc_ne k hqp]
      exact hq'
  sem _ := rfl
  pipe _ := rfl
  kernel := rfl
  heap := id
  kstack := rfl

theorem setSem (id : Nat) {f : Semaphore → Semaphore}
    (h : (f (k.semaphores id)).watched = (k.semaphores id).watched) : Quiet k (k.setSem id f) where
  proc _ := rfl
  quantum _ hq := hq
  sem := k.setSem_spares Semaphore.watched h
  pipe _ := rfl
  kernel := rfl
  heap hk := hk
  kstack := rfl

theorem setPipe (pp : PipeId) {f : Pipe → Pipe}
    (h : (f (k.pipes pp)).watched = (k.pipes pp).watched) : Quiet k (k.setPipe pp f) where
  proc _ := rfl
  quantum _ hq := hq
  sem _ := rfl
  pipe := k.setPipe_spares Pipe.watched h
  kernel := rfl
  heap := id
  kstack := rfl

theorem setForeground (k : Kernel) (o : Option ProcId) :
    Quiet k { k with foregroundProcess := o } := .unwatched rfl rfl rfl rfl rfl id

theorem setProcessCount (k : Kernel) (n : Int) : Quiet k { k with processCount := n } :=
  .unwatched rfl rfl rfl rfl rfl id

theorem acquireSem {id : Nat} (h : acquireSem k id = .ok k₁) : Quiet k k₁ := by
  unfold TpeSo.acquireSem at h
  split at h
  · cases h
    exact .setSem id rfl
  · cases h

theorem releaseSem (k : Kernel) (id : Nat) : Quiet k (releaseSem k id) := .setSem id rfl

theorem acquirePipe {pp : PipeId} (h : acquirePipe k pp = .ok k₁) : Quiet k k₁ := by
  unfold TpeSo.acquirePipe at h
  split at h
  · cases h
    exact .setPipe pp rfl
  · cases h

theorem releasePipe (k : Kernel) (pp : PipeId) : Quiet k (releasePipe k pp) := .setPipe pp rfl

end Quiet

end TpeSo
