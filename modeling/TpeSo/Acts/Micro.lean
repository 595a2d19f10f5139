import Mathlib.Data.List.ReduceOption
import Mathlib.Logic.Relation
import TpeSo.Acts.Quiet

namespace TpeSo

open Ds Lib

/-!
# Acts — the primitive edits every kernel entry is made of

A step of the machine edits several records one after the other, and between two of these
edits the invariants of the kernel hold in a form that depends on what the kernel is in
the middle of.

* `Phase` — what the kernel is in the middle of;
* `waiters`, `linkWaiter`, `popWaiter` — the wait queues under one name each;
* `Act`, `Micro` — the primitive edits, each with what the code has checked when it makes
  it.  An invariant is shown kept by every step by showing it kept by every edit;
* `Does`, `Does.invariant` — a sequence of edits, and the rule that carries an invariant
  along it.
-/

/-- What the kernel is in the middle of. -/
inductive Phase where
  /-- Nothing in particular: the current process, if any, has the processor. -/
  | run
  /-- The current process has marked itself blocked and is about to raise the timer. -/
  | leaving
  /-- The same, after `timer_handler` has counted the tick. -/
  | switching
  /-- `p` is a `ZOMBIE`, and `proc_kill` is still busy with it. -/
  | dying (p : ProcId)
  /-- `p` is being set up; `slot` is its place in the process table. -/
  | spawning (p : ProcId) (slot : Option Nat)

/-- The timer interrupt is raised in these phases. -/
def Phase.ticking (φ : Phase) : Prop := φ = .run ∨ φ = .switching

/-- Wait queues are served and descriptors closed in these phases. -/
def Phase.serving (φ : Phase) : Prop := φ = .run ∨ ∃ p, φ = .dying p

/-! ### The wait queues -/

/-- The processes in the queue `w` stands for. -/
def waiters (k : Kernel) : WaitRef → List ProcId
  | .null => []
  | .readyQueue => k.readyProcesses
  | .semaphore id => (k.semaphores id).waitingQueue.reduceOption
  | .pipeReaders pp => (k.pipes pp).readersWaitQueue
  | .pipeWriters pp => (k.pipes pp).writersWaitQueue
  | .sleepers => []
  | .keyboard => k.keyboardQueue

/-- The process a `dequeue` of `w` hands out. -/
def firstWaiter (k : Kernel) : WaitRef → Option ProcId
  | .null => none
  | .readyQueue => none
  | .semaphore id => (k.semaphores id).waitingQueue.head?.join
  | .pipeReaders pp => (k.pipes pp).readersWaitQueue.head?
  | .pipeWriters pp => (k.pipes pp).writersWaitQueue.head?
  | .sleepers => none
  | .keyboard => k.keyboardQueue.head?

/-- Drop the head of `w`. -/
def popWaiter (k : Kernel) : WaitRef → Kernel
  | .null => k
  | .readyQueue => k
  | .semaphore id => k.setSem id fun s => { s with waitingQueue := s.waitingQueue.tail }
  | .pipeReaders pp => k.setPipe pp fun q =>
      { q with readersWaitQueue := q.readersWaitQueue.tail }
  | .pipeWriters pp => k.setPipe pp fun q =>
      { q with writersWaitQueue := q.writersWaitQueue.tail }
  | .sleepers => k
  | .keyboard => { k with keyboardQueue := k.keyboardQueue.tail }

/-- Append `c` to `w`, with a node from the heap. -/
def linkWaiter (k : Kernel) (w : WaitRef) (c : ProcId) : Kernel :=
  match w with
  | .null => k
  | .readyQueue => k
  | .semaphore id => k.alloc.setSem id fun s =>
      { s with waitingQueue := enqueue k.kmalloc s.waitingQueue (some c) }
  | .pipeReaders pp => k.alloc.setPipe pp fun q =>
      { q with readersWaitQueue := enqueue k.kmalloc q.readersWaitQueue c }
  | .pipeWriters pp => k.alloc.setPipe pp fun q =>
      { q with writersWaitQueue := enqueue k.kmalloc q.writersWaitQueue c }
  | .sleepers => k
  | .keyboard => { k.alloc with keyboardQueue := enqueue k.kmalloc k.keyboardQueue c }

/-- Append an entry for `c` to the sleep queue, with a node from the heap. -/
def linkSleeper (k : Kernel) (c : ProcId) (tick : Nat) : Kernel :=
  { k.alloc with
    sleepingProcs := enqueue k.kmalloc k.sleepingProcs { pid := (k.procs c).pid, wakeUpTick := tick } }

/-- What a process that blocks itself for a reason outside the sleep queue waits on, and
    what it has left to do then. -/
def BlocksOn : BlockReason → WaitRef → Pending → Prop
  | .semaphore, .semaphore id, .semWait id' => id' = id
  | .pipeRead, .pipeReaders pp, .pipeRead pp' _ => pp' = pp
  | .pipeWrite, .pipeWriters pp, .pipeWrite pp' _ => pp' = pp
  | .terminal, .keyboard, .readLine _ _ => True
  | .child, .null, .waitPid _ => True
  | .arbitrary, .null, .block => True
  | _, _, _ => False

/-- A system call that, once its process runs again, has nothing left to do but to return,
    and that links its process into no queue. -/
def Pending.plain : Pending → Prop
  | .yield | .sleep | .block | .exit => True
  | _ => False

/-- The end of a pipe a suspended system call works on. -/
def Pending.pipeEnd : Pending → Option (FileOps × PipeId)
  | .pipeRead pp _ => some (.pipeRead, pp)
  | .pipeWrite pp _ => some (.pipeWrite, pp)
  | _ => none

/-- The current process `c` marks itself blocked and gives up its quantum. -/
def leave (k : Kernel) (c : ProcId) (reason : BlockReason) (w : WaitRef) (pend : Pending) :
    Kernel :=
  (markBlocked (k.suspend pend) c reason w).setProc c fun q => { q with hasQuantum := 0 }

/-! ### The processor -/

/-- Hand the processor to `p`, leaving `rest` in the ready queue. -/
def dispatchTo (k : Kernel) (p : ProcId) (rest : List ProcId) : Kernel :=
  { k with readyProcesses := rest, currentProcess := some p }.setProc p fun q =>
    { q with status := .running, hasQuantum := q.priority }

/-- `p` turns into a `ZOMBIE`: off the processor, off the queue it waits in. -/
def bury (k : Kernel) (p : ProcId) (code : Int) : Kernel :=
  (unlinkWaiting (rmCurrent k p) p).setProc p fun q => { q with status := .zombie, exit := code }

/-- The table forgets `p`. -/
def forgetPid (k : Kernel) (p : ProcId) : Kernel :=
  { k with processTable := Function.update k.processTable (k.procs p).pid.toNat none }

/-! ### Descriptors -/

/-- One descriptor more on the end of `pp` that `ops` stands for. -/
def addRef (k : Kernel) (ops : FileOps) (pp : PipeId) : Kernel :=
  match ops with
  | .pipeRead => pipeAddRefRead k pp
  | .pipeWrite => pipeAddRefWrite k pp
  | _ => k

/-- One descriptor less on the end of `pp` that `ops` stands for. -/
def subRef (k : Kernel) (ops : FileOps) (pp : PipeId) : Kernel :=
  match ops with
  | .pipeRead => k.setPipe pp fun q => { q with readers := q.readers - 1 }
  | .pipeWrite => k.setPipe pp fun q => { q with writers := q.writers - 1 }
  | _ => k

/-- `ops` is one of the two tables of a pipe. -/
def FileOps.isPipe : FileOps → Prop
  | .pipeRead => True
  | .pipeWrite => True
  | _ => False

/-- The slot refers to the end of `pp` that `ops` stands for. -/
def FdEntry.refers (e : FdEntry) (ops : FileOps) (pp : PipeId) : Prop :=
  ops.isPipe ∧ e.ops = some ops ∧ e.resource = some pp

/-! ### The edits -/

/-- The names of the edits, with the data that tells their occasions apart. -/
inductive Act where
  | quiet | quantum | suspend (w : Pending) | finish (c : ProcId) (w : Pending)
  | tick | wakeSleeper (p : ProcId) | dropSleeper
  | stay | refill | dispatch (p : ProcId) | preempt (c p : ProcId)
  | blockSelf (c : ProcId) (w : WaitRef) (pend : Pending) | blockSleep (c : ProcId) (tick : Nat)
  | blockOther (p : ProcId)
  | unblock (p : ProcId) | wake (w : WaitRef) (p : ProcId) | wakeParent (q : ProcId)
  | semCreate (id v : Nat) | semDestroy (id : Nat) | semTake (id : Nat) | semInc (id : Nat)
  | semLinkNull (id : Nat)
  | kill (p : ProcId) | endKill | reap (p : ProcId)
  | newProc | noPid | claimPid (i : Nat) | inherit | setTerminal | start (p : ProcId) | startBare
  | newPipe (pp : PipeId) | openRef (pp : PipeId) | dropRef (pp : PipeId) | clearSlot
  | freeUnref (pp : PipeId) | freeNamed (pp : PipeId)
  | take (pp : PipeId) | put (pp : PipeId)

/-- **One edit**, with the phase before and after it and what the code has checked. -/
inductive Micro : Phase → Kernel → Act → Phase → Kernel → Prop where
  | quiet {φ k k'} (h : Quiet k k') : Micro φ k .quiet φ k'
  | quantum {k} (p : ProcId) (n : Nat) :
      Micro .run k .quantum .run (k.setProc p fun q => { q with hasQuantum := n })
  | suspend {k w} (hw : Pending.plain w) : Micro .run k (.suspend w) .run (k.suspend w)
  | finish {k c w} (hc : k.currentProcess = some c) (hw : k.kstack c = some w) :
      Micro .run k (.finish c w) .run { k with kstack := Function.update k.kstack c none }
  -- the timer
  | tick {k} : Micro .run k .tick .run { k with ticks := (k.ticks + 1) % word }
  | tickLeaving {k} : Micro .leaving k .tick .switching { k with ticks := (k.ticks + 1) % word }
  | wakeSleeper {φ k sp p} (hφ : φ.ticking) (hmem : sp ∈ k.sleepingProcs)
      (hdue : sp.wakeUpTick ≤ k.ticks) (hp : getProcByPid k sp.pid = .ok (some p))
      (hs : (k.procs p).status = .blocked) :
      Micro φ k (.wakeSleeper p) φ { procReady k (some p) with
        sleepingProcs := queueRemove k.sleepingProcs sp }
  | dropSleeper {φ k sp} (hφ : φ.ticking) (hmem : sp ∈ k.sleepingProcs)
      (hp : ∀ p, getProcByPid k sp.pid = .ok (some p) → (k.procs p).status ≠ .blocked) :
      Micro φ k .dropSleeper φ { k with sleepingProcs := queueRemove k.sleepingProcs sp }
  -- the scheduler
  | stay {φ k c} (hφ : φ.ticking) (hc : k.currentProcess = some c)
      (hq : (k.procs c).hasQuantum ≠ 0) : Micro φ k .stay .run k
  | refill {φ k c} (n : Nat) (hφ : φ.ticking) (hc : k.currentProcess = some c)
      (hs : (k.procs c).status = .running) :
      Micro φ k .refill .run (k.setProc c fun q => { q with hasQuantum := n })
  | dispatch {φ k p rest} (hφ : φ.ticking)
      (hc : ∀ c, k.currentProcess = some c → (k.procs c).status = .blocked ∨
        (k.procs c).status = .zombie ∨ (k.procs c).status = .dead)
      (hr : k.readyProcesses = p :: rest) :
      Micro φ k (.dispatch p) .run (dispatchTo k p rest)
  | preempt {φ k c p rest} (hφ : φ.ticking) (hc : k.currentProcess = some c)
      (hs : (k.procs c).status ≠ .blocked ∧ (k.procs c).status ≠ .zombie ∧
        (k.procs c).status ≠ .dead)
      (hr : (procReady k (some c)).readyProcesses = p :: rest) :
      Micro φ k (.preempt c p) .run (dispatchTo (procReady k (some c)) p rest)
  -- blocking and waking
  | blockSelf {k c w} (reason : BlockReason) (pend : Pending) (hc : k.currentProcess = some c)
      (hw : BlocksOn reason w pend) :
      Micro .run k (.blockSelf c w pend) .leaving (leave (linkWaiter k w c) c reason w pend)
  | blockSleep {k c} (t : Nat) (hc : k.currentProcess = some c) :
      Micro .run k (.blockSleep c t) .leaving (leave (linkSleeper k c t) c .sleep .sleepers .sleep)
  | blockOther {k p} (hc : k.currentProcess ≠ some p)
      (hs : (k.procs p).status ≠ .zombie ∧ (k.procs p).status ≠ .dead ∧
        (k.procs p).status ≠ .blocked) :
      Micro .run k (.blockOther p) .run (markBlocked k p .arbitrary .null)
  | unblock {k p} (hs : (k.procs p).status = .blocked) :
      Micro .run k (.unblock p) .run (procReady k (some p))
  | wake {φ k w p} (hφ : φ.serving) (hw : firstWaiter k w = some p) :
      Micro φ k (.wake w p) φ (procReady (popWaiter k w) (some p))
  | wakeParent {p k q} (hs : (k.procs q).status = .blocked)
      (hr : (k.procs q).blockReason = .child) :
      Micro (.dying p) k (.wakeParent q) (.dying p) (procReady k (some q))
  -- semaphores
  | semCreate {k id v} (hu : (k.semaphores id).inUse = false) :
      Micro .run k (.semCreate id v) .run
        (k.setSem id fun s => { s with waitingQueue := [], value := v, inUse := true })
  | semDestroy {k} (id : Nat) : Micro .run k (.semDestroy id) .run
      (k.setSem id fun s => { s with inUse := false, waitingQueue := [] })
  | semTake {k id} (hv : 0 < (k.semaphores id).value) :
      Micro .run k (.semTake id) .run (k.setSem id fun s => { s with value := s.value - 1 })
  | semInc {k id} (hw : firstWaiter k (.semaphore id) = none) :
      Micro .run k (.semInc id) .run
        ((popWaiter k (.semaphore id)).setSem id fun s => { s with value := (s.value + 1) % word })
  | semLinkNull {k id} (hc : k.currentProcess = none) :
      Micro .run k (.semLinkNull id) .run (k.alloc.setSem id fun s =>
        { s with waitingQueue := enqueue k.kmalloc s.waitingQueue none })
  -- death
  | kill {k} (p : ProcId) (code : Int) : Micro .run k (.kill p) (.dying p) (bury k p code)
  | endKill {p k} : Micro (.dying p) k .endKill .run k
  | reapSelf {p k} : Micro (.dying p) k (.reap p) (.dying p) (forgetPid k p)
  | reapChild {k p pid} (hp : getProcByPid k pid = .ok (some p))
      (hs : (k.procs p).status = .zombie) : Micro .run k (.reap p) .run (forgetPid k p)
  -- birth
  | newProc {k} : Micro .run k .newProc (.spawning k.nextProc none)
      { k with nextProc := k.nextProc + 1, procs := Function.update k.procs k.nextProc {} }
  | noPid {p k} : Micro (.spawning p none) k .noPid (.spawning p none)
      (k.setProc p fun q => { q with pid := -1 })
  | claimPid {p k i} (hi : i < maxProcesses) (hfree : k.processTable i = none) :
      Micro (.spawning p none) k (.claimPid i) (.spawning p (some i))
        { k.setProc p (fun q => { q with pid := i }) with
          processTable := Function.update k.processTable i (some p) }
  | inherit {p slot k s i} (j : Fin fdMax) (hc : k.currentProcess = some s)
      (hi : (k.procs p).fds i = {}) :
      Micro (.spawning p slot) k .inherit (.spawning p slot)
        (setFd (fdAddRef k ((k.procs s).fds j)) p i ((k.procs s).fds j))
  | setTerminal {p slot k i ops} (hops : ¬ FileOps.isPipe ops) (hi : (k.procs p).fds i = {}) :
      Micro (.spawning p slot) k .setTerminal (.spawning p slot)
        (setFd k p i { ops := some ops, type := .terminal })
  | start {p i k} : Micro (.spawning p (some i)) k (.start p) .run (procReady k (some p))
  | startBare {p k} (hm : k.kmalloc = false) :
      Micro (.spawning p none) k .startBare .run (procReady k.alloc (some p))
  -- pipes and descriptors
  | newPipe {k i} (id junk : List UInt8) : Micro .run k (.newPipe k.nextPipe) .run
      { k with
        nextPipe := k.nextPipe + 1
        pipes := Function.update k.pipes k.nextPipe
          { id := id, inUse := true, lock := true, junk := junk }
        pipesTable := Function.update k.pipesTable i (some k.nextPipe) }
  | openRef {k c i pp} (ops : FileOps) (hc : k.currentProcess = some c)
      (hi : ((k.procs c).fds i).type = .none) (hu : (k.pipes pp).inUse = true)
      (hops : FileOps.isPipe ops) :
      Micro .run k (.openRef pp) .run (addRef (setFd k c i (pipeEntry pp ops)) ops pp)
  | dropRef {φ k p i ops pp} (hφ : φ.serving) (he : ((k.procs p).fds i).refers ops pp) :
      Micro φ k (.dropRef pp) φ (subRef (setFd k p i {}) ops pp)
  | clearSlot {φ k p i} (hφ : φ.serving) (he : ∀ ops pp, ¬ ((k.procs p).fds i).refers ops pp) :
      Micro φ k .clearSlot φ (setFd k p i {})
  | freeUnref {φ k pp} (hφ : φ.serving) (hr : (k.pipes pp).readers = 0)
      (hw : (k.pipes pp).writers = 0) : Micro φ k (.freeUnref pp) φ (pipeFree k pp)
  | freeNamed {k pp} (hu : (k.pipes pp).inUse = true) :
      Micro .run k (.freeNamed pp) .run (pipeFree k pp)
  | take {k} (pp : PipeId) (size : Nat) : Micro .run k (.take pp) .run
      (k.setPipe pp fun q => { q with buffer := (ringbufRead q.buffer size).1 })
  | put {k} (pp : PipeId) (buf : List UInt8) : Micro .run k (.put pp) .run
      (k.setPipe pp fun q => { q with buffer := (ringbufWrite q.buffer buf).1 })

/-! ### Sequences of edits -/

/-- One edit that `C` allows, between phases with their kernels. -/
def DoesOne (C : Kernel → Act → Prop) (s t : Phase × Kernel) : Prop :=
  ∃ a, C s.2 a ∧ Micro s.1 s.2 a t.1 t.2

/-- A sequence of edits, each of which `C` allows in the kernel it is made in. -/
def Does (C : Kernel → Act → Prop) : Phase × Kernel → Phase × Kernel → Prop :=
  Relation.ReflTransGen (DoesOne C)

namespace Does

variable {C : Kernel → Act → Prop} {φ ψ χ : Phase} {k k₁ k₂ k₃ : Kernel}

theorem refl (s : Phase × Kernel) : Does C s s := Relation.ReflTransGen.refl

theorem trans {r s t : Phase × Kernel} (h : Does C r s) (g : Does C s t) : Does C r t :=
  Relation.ReflTransGen.trans h g

theorem one {a : Act} (h : Micro φ k a ψ k₁) (hC : C k a) : Does C (φ, k) (ψ, k₁) :=
  .single ⟨a, hC, h⟩

/-- Append one edit. -/
theorem then_one {a : Act} (h : Does C (φ, k) (ψ, k₁)) (g : Micro ψ k₁ a χ k₂) (hC : C k₁ a) :
    Does C (φ, k) (χ, k₂) :=
  h.trans (one g hC)

theorem mono {C' : Kernel → Act → Prop} {s t : Phase × Kernel} (hCC : ∀ k a, C k a → C' k a)
    (h : Does C s t) : Does C' s t := by
  refine Relation.ReflTransGen.mono ?_ _ _ h
  rintro s t ⟨a, hC, hm⟩
  exact ⟨a, hCC _ a hC, hm⟩

/-- **Invariant rule.** What every allowed edit keeps, a sequence of edits keeps. -/
theorem invariant (I : Phase → Kernel → Prop)
    (hstep : ∀ φ k a ψ k', I φ k → C k a → Micro φ k a ψ k' → I ψ k') {s t : Phase × Kernel}
    (h : Does C s t) (h0 : I s.1 s.2) : I t.1 t.2 := by
  induction h with
  | refl => exact h0
  | tail _ hone ih =>
    obtain ⟨a, hC, hm⟩ := hone
    exact hstep _ _ a _ _ ih hC hm

end Does

end TpeSo
