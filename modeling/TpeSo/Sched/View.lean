import TpeSo.Acts.Entries

namespace TpeSo

open Ds Lib

/-!
# Scheduling — what the scheduler sees of an edit

* `SchedSame k k'` — `k'` looks the same to the scheduler, except that wait queues may
  have lost members;
* `Micro.schedSame` — the edits of `Act.offSched` (locks, values, rings, descriptors,
  kernel stacks) look like that;
* lemmas that read the fields of the kernel after the edits that do concern the scheduler.
-/

variable {φ ψ : Phase} {k k₁ k₂ k₃ : Kernel}

/-- What the scheduler reads of a process control block, the quantum apart. -/
def Proc.sched (q : Proc) : Int × ProcState × BlockReason × WaitRef :=
  (q.pid, q.status, q.blockReason, q.waitingOn)

/-- What the scheduler reads of the kernel's own record, the sleepers apart. -/
def Kernel.sched (k : Kernel) : ProcId × (Nat → Option ProcId) × List ProcId × List ProcId ×
    Option ProcId × Nat :=
  (k.nextProc, k.processTable, k.readyProcesses, k.blockedProcesses, k.currentProcess, k.ticks)

/-- The processes, the table and the scheduler's own record are the same. -/
structure SchedBase (k k' : Kernel) : Prop where
  proc : ∀ p, (k'.procs p).sched = (k.procs p).sched
  kernel : k'.sched = k.sched
  heap : k.HeapOk → k'.HeapOk

/-- The queues are the same, except that wait queues may have lost members. -/
structure SchedView (k k' : Kernel) : Prop extends SchedBase k k' where
  sleepers : k'.sleepingProcs = k.sleepingProcs
  waiters : ∀ w, (waiters k' w).Sublist (waiters k w)

/-- The scheduler sees no difference, but wait queues may have lost members. -/
structure SchedSame (k k' : Kernel) : Prop extends SchedView k k' where
  quantum : ∀ p, (k.procs p).hasQuantum = 0 → (k'.procs p).hasQuantum = 0

namespace SchedBase

theorem refl (k : Kernel) : SchedBase k k := ⟨fun _ => rfl, rfl, id⟩

/-- An edit of the semaphores, the pipes and the keyboard queue, with a `kmalloc`. -/
theorem of_alloc (hprocs : k₁.procs = k.procs) (hkernel : k₁.sched = k.sched)
    (hheap : k₁.mallocOk = k.alloc.mallocOk) : SchedBase k k₁ where
  proc p := by rw [hprocs]
  kernel := hkernel
  heap hk := by
    intro n
    rw [hheap]
    exact hk.alloc n

theorem trans (h : SchedBase k₁ k₂) (g : SchedBase k₂ k₃) : SchedBase k₁ k₃ where
  proc p := (g.proc p).trans (h.proc p)
  kernel := g.kernel.trans h.kernel
  heap hk := g.heap (h.heap hk)

variable (h : SchedBase k k₁)

include h

theorem pid (p : ProcId) : (k₁.procs p).pid = (k.procs p).pid :=
  congrArg (fun v => v.1) (h.proc p)

theorem status (p : ProcId) : (k₁.procs p).status = (k.procs p).status :=
  congrArg (fun v => v.2.1) (h.proc p)

theorem blockReason (p : ProcId) : (k₁.procs p).blockReason = (k.procs p).blockReason :=
  congrArg (fun v => v.2.2.1) (h.proc p)

theorem waitingOn (p : ProcId) : (k₁.procs p).waitingOn = (k.procs p).waitingOn :=
  congrArg (fun v => v.2.2.2) (h.proc p)

theorem nextProc : k₁.nextProc = k.nextProc := congrArg (fun v => v.1) h.kernel

theorem table : k₁.processTable = k.processTable := congrArg (fun v => v.2.1) h.kernel

theorem ready : k₁.readyProcesses = k.readyProcesses := congrArg (fun v => v.2.2.1) h.kernel

theorem blocked : k₁.blockedProcesses = k.blockedProcesses :=
  congrArg (fun v => v.2.2.2.1) h.kernel

theorem current : k₁.currentProcess = k.currentProcess :=
  congrArg (fun v => v.2.2.2.2.1) h.kernel

theorem ticks : k₁.ticks = k.ticks := congrArg (fun v => v.2.2.2.2.2) h.kernel

end SchedBase

/-- An edit of a process control block that spares what the scheduler reads. -/
theorem SchedView.setProc (p : ProcId) {f : Proc → Proc}
    (h : (f (k.procs p)).sched = (k.procs p).sched) : SchedView k (k.setProc p f) where
  proc := k.setProc_spares Proc.sched h
  kernel := rfl
  heap := id
  sleepers := rfl
  waiters _ := List.Sublist.refl _

namespace SchedSame

/-- An edit of the wait queues alone that adds nobody to them. -/
theorem of_waiters (hprocs : k₁.procs = k.procs) (hkernel : k₁.sched = k.sched)
    (hsleep : k₁.sleepingProcs = k.sleepingProcs) (hheap : k₁.mallocOk = k.mallocOk)
    (hw : ∀ w, (TpeSo.waiters k₁ w).Sublist (TpeSo.waiters k w)) : SchedSame k k₁ where
  proc p := by rw [hprocs]
  kernel := hkernel
  heap hk := by
    intro n
    rw [hheap]
    exact hk n
  sleepers := hsleep
  waiters := hw
  quantum p hq := by rw [hprocs, hq]

theorem refl (k : Kernel) : SchedSame k k :=
  .of_waiters rfl rfl rfl rfl fun _ => List.Sublist.refl _

theorem trans (h : SchedSame k₁ k₂) (g : SchedSame k₂ k₃) : SchedSame k₁ k₃ where
  toSchedBase := h.toSchedBase.trans g.toSchedBase
  sleepers := g.sleepers.trans h.sleepers
  waiters w := (g.waiters w).trans (h.waiters w)
  quantum p hq := g.quantum p (h.quantum p hq)

theorem of_quiet (h : Quiet k k₁) : SchedSame k k₁ where
  proc p := by
    simp only [Proc.sched, h.pid, h.status, h.blockReason, h.waitingOn]
  kernel := by
    simp only [Kernel.sched, h.nextProc, h.table, h.ready, h.blocked, h.current, h.ticks]
  heap := h.heap
  quantum := h.quantum
  sleepers := h.sleepers
  waiters w := by
    cases w with
    | semaphore id => simp [TpeSo.waiters, h.semQueue]
    | pipeReaders pp => simp [TpeSo.waiters, h.pipeReaders]
    | pipeWriters pp => simp [TpeSo.waiters, h.pipeWriters]
    | keyboard => simp [TpeSo.waiters, h.keyboard]
    | readyQueue => simp [TpeSo.waiters, h.ready]
    | null => simp [TpeSo.waiters]
    | sleepers => simp [TpeSo.waiters]

theorem alloc (k : Kernel) : SchedSame k k.alloc := .of_quiet (.alloc k)

/-- An edit of one semaphore that adds nobody to its queue. -/
theorem setSem (id : Nat) {f : Semaphore → Semaphore}
    (h : ((f (k.semaphores id)).waitingQueue.reduceOption).Sublist
      (k.semaphores id).waitingQueue.reduceOption) : SchedSame k (k.setSem id f) := by
  refine .of_waiters rfl rfl rfl rfl fun w => ?_
  cases w with
  | semaphore i =>
    by_cases hi : i = id
    · subst hi
      simpa [TpeSo.waiters, Kernel.setSem] using h
    · simp [TpeSo.waiters, Kernel.setSem, hi]
  | _ => exact List.Sublist.refl _

/-- An edit of one pipe that adds nobody to its queues. -/
theorem setPipe (pp : PipeId) {f : Pipe → Pipe}
    (hr : ((f (k.pipes pp)).readersWaitQueue).Sublist (k.pipes pp).readersWaitQueue)
    (hw : ((f (k.pipes pp)).writersWaitQueue).Sublist (k.pipes pp).writersWaitQueue) :
    SchedSame k (k.setPipe pp f) := by
  refine .of_waiters rfl rfl rfl rfl fun w => ?_
  cases w with
  | pipeReaders i =>
    by_cases hi : i = pp
    · subst hi
      simpa [TpeSo.waiters, Kernel.setPipe] using hr
    · simp [TpeSo.waiters, Kernel.setPipe, hi]
  | pipeWriters i =>
    by_cases hi : i = pp
    · subst hi
      simpa [TpeSo.waiters, Kernel.setPipe] using hw
    · simp [TpeSo.waiters, Kernel.setPipe, hi]
  | _ => exact List.Sublist.refl _

/-- An edit of one pipe that spares its queues. -/
theorem setPipe_of_eq (pp : PipeId) {f : Pipe → Pipe}
    (hr : (f (k.pipes pp)).readersWaitQueue = (k.pipes pp).readersWaitQueue)
    (hw : (f (k.pipes pp)).writersWaitQueue = (k.pipes pp).writersWaitQueue) :
    SchedSame k (k.setPipe pp f) := by
  refine .setPipe pp ?_ ?_
  · rw [hr]
  · rw [hw]

theorem setFd (k : Kernel) (p : ProcId) (i : Fin fdMax) (e : FdEntry) :
    SchedSame k (setFd k p i e) where
  toSchedView := .setProc p rfl
  quantum q hq := by
    rw [← hq]
    exact k.setProc_spares Proc.hasQuantum rfl q

theorem addRef (k : Kernel) (ops : FileOps) (pp : PipeId) : SchedSame k (addRef k ops pp) := by
  unfold TpeSo.addRef pipeAddRefRead pipeAddRefWrite
  split
  · exact .setPipe_of_eq pp rfl rfl
  · exact .setPipe_of_eq pp rfl rfl
  · exact .refl k

theorem subRef (k : Kernel) (ops : FileOps) (pp : PipeId) : SchedSame k (subRef k ops pp) := by
  unfold TpeSo.subRef
  split
  · exact .setPipe_of_eq pp rfl rfl
  · exact .setPipe_of_eq pp rfl rfl
  · exact .refl k

theorem fdAddRef (k : Kernel) (e : FdEntry) : SchedSame k (fdAddRef k e) := by
  unfold TpeSo.fdAddRef pipeAddRefRead pipeAddRefWrite
  split
  · exact .setPipe_of_eq _ rfl rfl
  · exact .setPipe_of_eq _ rfl rfl
  · exact .refl k

theorem pipeFree (k : Kernel) (pp : PipeId) : SchedSame k (pipeFree k pp) :=
  .setPipe pp (List.nil_sublist _) (List.nil_sublist _)

theorem suspend (k : Kernel) (w : Pending) : SchedSame k (k.suspend w) := by
  unfold Kernel.suspend
  split
  · exact .refl k
  · exact .of_waiters rfl rfl rfl rfl fun w => by cases w <;> exact List.Sublist.refl _

/-- Dropping the head of a wait queue. -/
theorem popWaiter (k : Kernel) (w : WaitRef) : SchedSame k (popWaiter k w) := by
  unfold TpeSo.popWaiter
  split
  · exact .refl k
  · exact .refl k
  · exact .setSem _ ((List.tail_sublist _).filterMap _)
  · exact .setPipe _ (List.tail_sublist _) (List.Sublist.refl _)
  · exact .setPipe _ (List.Sublist.refl _) (List.tail_sublist _)
  · exact .refl k
  · refine .of_waiters rfl rfl rfl rfl fun w => ?_
    cases w with
    | keyboard => exact List.tail_sublist _
    | _ => exact List.Sublist.refl _

end SchedSame

/-- The edits that leave the scheduler alone. -/
def Act.offSched : Act → Prop
  | .quiet | .suspend _ | .finish _ _ | .semCreate _ _ | .semDestroy _ | .semTake _ | .semInc _
  | .semLinkNull _ | .inherit | .setTerminal | .newPipe _ | .openRef _ | .dropRef _ | .clearSlot
  | .freeUnref _ | .freeNamed _ | .take _ | .put _ => True
  | _ => False

theorem reduceOption_enqueue_none (b : Bool) (q : List (Option ProcId)) :
    (enqueue b q none).reduceOption = q.reduceOption := by
  cases b with
  | false => rfl
  | true => simp [List.reduceOption_append]

/-- **The edits that leave the scheduler alone** keep the phase as well. -/
theorem Micro.schedSame {a : Act} (h : Micro φ k a ψ k₁) (ha : a.offSched) :
    SchedSame k k₁ ∧ ψ = φ := by
  cases h with
  | quiet hq => exact ⟨.of_quiet hq, rfl⟩
  | suspend => exact ⟨.suspend k _, rfl⟩
  | finish =>
    refine ⟨.of_waiters rfl rfl rfl rfl fun w => ?_, rfl⟩
    cases w <;> exact List.Sublist.refl _
  | semCreate => exact ⟨.setSem _ (List.nil_sublist _), rfl⟩
  | semDestroy id => exact ⟨.setSem id (List.nil_sublist _), rfl⟩
  | semTake => exact ⟨.setSem _ (List.Sublist.refl _), rfl⟩
  | semInc => exact ⟨(SchedSame.popWaiter k _).trans (.setSem _ (List.Sublist.refl _)), rfl⟩
  | semLinkNull =>
    refine ⟨(SchedSame.alloc k).trans (.setSem _ ?_), rfl⟩
    rw [reduceOption_enqueue_none]
  | inherit => exact ⟨(SchedSame.fdAddRef k _).trans (.setFd _ _ _ _), rfl⟩
  | setTerminal => exact ⟨.setFd _ _ _ _, rfl⟩
  | newPipe id junk =>
    refine ⟨.of_waiters rfl rfl rfl rfl fun w => ?_, rfl⟩
    cases w with
    | pipeReaders i =>
      by_cases hi : i = k.nextPipe
      · subst hi
        simp [waiters]
      · simp [waiters, hi]
    | pipeWriters i =>
      by_cases hi : i = k.nextPipe
      · subst hi
        simp [waiters]
      · simp [waiters, hi]
    | _ => exact List.Sublist.refl _
  | openRef => exact ⟨(SchedSame.setFd k _ _ _).trans (.addRef _ _ _), rfl⟩
  | dropRef => exact ⟨(SchedSame.setFd k _ _ _).trans (.subRef _ _ _), rfl⟩
  | clearSlot => exact ⟨.setFd _ _ _ _, rfl⟩
  | freeUnref => exact ⟨.pipeFree k _, rfl⟩
  | freeNamed => exact ⟨.pipeFree k _, rfl⟩
  | take pp size => exact ⟨.setPipe_of_eq pp rfl rfl, rfl⟩
  | put pp buf => exact ⟨.setPipe_of_eq pp rfl rfl, rfl⟩
  | _ => exact ha.elim

/-! ### The fields after the other edits -/

@[simp] theorem procReady_procs_self (k : Kernel) (p : ProcId) :
    (procReady k (some p)).procs p =
      { k.procs p with status := .ready, blockReason := .none, waitingOn := .readyQueue } := by
  simp [procReady, Kernel.setProc, Kernel.alloc]

@[simp] theorem procReady_procs_ne (k : Kernel) {p q : ProcId} (h : q ≠ p) :
    (procReady k (some p)).procs q = k.procs q := by
  simp [procReady, Kernel.setProc, Kernel.alloc, h]

theorem procReady_status (k : Kernel) (p q : ProcId) :
    ((procReady k (some p)).procs q).status = if q = p then .ready else (k.procs q).status := by
  by_cases h : q = p
  · subst h
    simp
  · simp [h]

theorem procReady_pid (k : Kernel) (p q : ProcId) :
    ((procReady k (some p)).procs q).pid = (k.procs q).pid := by
  by_cases h : q = p
  · subst h
    simp
  · simp [h]

theorem procReady_waiters (k : Kernel) (p : ProcId) {w : WaitRef} (h : w ≠ .readyQueue) :
    waiters (procReady k (some p)) w = waiters k w := by
  cases w <;> first | rfl | exact absurd rfl h

theorem procReady_ready (k : Kernel) (p : ProcId) :
    (procReady k (some p)).readyProcesses = enqueue k.kmalloc k.readyProcesses p := rfl

theorem procReady_blocked (k : Kernel) (p : ProcId) :
    (procReady k (some p)).blockedProcesses = k.blockedProcesses.erase p := rfl

/-- The head of a wait queue and what follows it. -/
theorem waiters_of_firstWaiter {w : WaitRef} {p : ProcId} (h : firstWaiter k w = some p) :
    w ≠ .readyQueue ∧ waiters k w = p :: waiters (popWaiter k w) w := by
  cases w with
  | null => cases h
  | readyQueue => cases h
  | sleepers => cases h
  | semaphore id =>
    have hq := Option.join_eq_some_iff.mp h
    obtain ⟨rest, hrest⟩ := List.head?_eq_some_iff.mp hq
    refine ⟨by simp, ?_⟩
    simp [waiters, popWaiter, Kernel.setSem, hrest]
  | pipeReaders pp =>
    obtain ⟨rest, hrest⟩ := List.head?_eq_some_iff.mp h
    refine ⟨by simp, ?_⟩
    simp [waiters, popWaiter, Kernel.setPipe, hrest]
  | pipeWriters pp =>
    obtain ⟨rest, hrest⟩ := List.head?_eq_some_iff.mp h
    refine ⟨by simp, ?_⟩
    simp [waiters, popWaiter, Kernel.setPipe, hrest]
  | keyboard =>
    obtain ⟨rest, hrest⟩ := List.head?_eq_some_iff.mp h
    refine ⟨by simp, ?_⟩
    simp [waiters, popWaiter, hrest]

@[simp] theorem suspend_procs (k : Kernel) (w : Pending) : (k.suspend w).procs = k.procs := by
  unfold Kernel.suspend
  split <;> rfl

@[simp] theorem waiters_suspend (k : Kernel) (w : Pending) (v : WaitRef) :
    waiters (k.suspend w) v = waiters k v := by
  unfold Kernel.suspend
  split <;> cases v <;> rfl

@[simp] theorem linkWaiter_procs (k : Kernel) (w : WaitRef) (c : ProcId) :
    (linkWaiter k w c).procs = k.procs := by
  unfold linkWaiter
  split <;> rfl

@[simp] theorem linkWaiter_sleepingProcs (k : Kernel) (w : WaitRef) (c : ProcId) :
    (linkWaiter k w c).sleepingProcs = k.sleepingProcs := by
  unfold linkWaiter
  split <;> rfl

theorem BlocksOn.ne_readyQueue {reason : BlockReason} {w : WaitRef} {pend : Pending}
    (h : BlocksOn reason w pend) : w ≠ .readyQueue := by
  rintro rfl
  cases reason <;> exact h

theorem SchedBase.linkWaiter (k : Kernel) (w : WaitRef) (c : ProcId) :
    SchedBase k (linkWaiter k w c) := by
  unfold TpeSo.linkWaiter
  split
  · exact .refl k
  · exact .refl k
  · exact .of_alloc rfl rfl rfl
  · exact .of_alloc rfl rfl rfl
  · exact .of_alloc rfl rfl rfl
  · exact .refl k
  · exact .of_alloc rfl rfl rfl

/-- `linkWaiter` adds at most its process, to the one queue. -/
theorem waiters_linkWaiter (k : Kernel) (w : WaitRef) (c : ProcId) (hw : w ≠ .readyQueue)
    (v : WaitRef) :
    waiters (linkWaiter k w c) v = waiters k v ∨
      (v = w ∧ waiters (linkWaiter k w c) v = waiters k v ++ [c]) := by
  cases w with
  | null => exact .inl rfl
  | readyQueue => exact absurd rfl hw
  | sleepers => exact .inl rfl
  | semaphore id =>
    cases v with
    | semaphore i =>
      by_cases hi : i = id
      · subst hi
        cases hm : k.kmalloc with
        | false => exact .inl (by simp [waiters, linkWaiter, Kernel.setSem, Kernel.alloc, hm])
        | true =>
          refine .inr ⟨rfl, ?_⟩
          simp [waiters, linkWaiter, Kernel.setSem, Kernel.alloc, hm, List.reduceOption_append]
      · exact .inl (by simp [waiters, linkWaiter, Kernel.setSem, Kernel.alloc, hi])
    | _ => exact .inl rfl
  | pipeReaders pp =>
    cases v with
    | pipeReaders i =>
      by_cases hi : i = pp
      · subst hi
        cases hm : k.kmalloc with
        | false => exact .inl (by simp [waiters, linkWaiter, Kernel.setPipe, Kernel.alloc, hm])
        | true =>
          exact .inr ⟨rfl, by simp [waiters, linkWaiter, Kernel.setPipe, Kernel.alloc, hm]⟩
      · exact .inl (by simp [waiters, linkWaiter, Kernel.setPipe, Kernel.alloc, hi])
    | pipeWriters i =>
      left
      by_cases hi : i = pp
      · subst hi
        simp [waiters, linkWaiter, Kernel.setPipe, Kernel.alloc]
      · simp [waiters, linkWaiter, Kernel.setPipe, Kernel.alloc, hi]
    | _ => exact .inl rfl
  | pipeWriters pp =>
    cases v with
    | pipeWriters i =>
      by_cases hi : i = pp
      · subst hi
        cases hm : k.kmalloc with
        | false => exact .inl (by simp [waiters, linkWaiter, Kernel.setPipe, Kernel.alloc, hm])
        | true =>
          exact .inr ⟨rfl, by simp [waiters, linkWaiter, Kernel.setPipe, Kernel.alloc, hm]⟩
      · exact .inl (by simp [waiters, linkWaiter, Kernel.setPipe, Kernel.alloc, hi])
    | pipeReaders i =>
      left
      by_cases hi : i = pp
      · subst hi
        simp [waiters, linkWaiter, Kernel.setPipe, Kernel.alloc]
      · simp [waiters, linkWaiter, Kernel.setPipe, Kernel.alloc, hi]
    | _ => exact .inl rfl
  | keyboard =>
    cases v with
    | keyboard =>
      cases hm : k.kmalloc with
      | false => exact .inl (by simp [waiters, linkWaiter, Kernel.alloc, hm])
      | true => exact .inr ⟨rfl, by simp [waiters, linkWaiter, Kernel.alloc, hm]⟩
    | _ => exact .inl rfl

/-- `proc_kill` drops the process from the queue `waiting_on` names, unless that is the queue
    of a semaphore ... -/
theorem waiters_unlinkWaiting_self (k : Kernel) (p : ProcId) {w : WaitRef}
    (hw : (k.procs p).waitingOn = w) (hsem : ∀ id, w ≠ .semaphore id) :
    waiters (unlinkWaiting k p) w = (waiters k w).erase p := by
  unfold unlinkWaiting
  rw [hw]
  cases w with
  | semaphore id => exact absurd rfl (hsem id)
  | pipeReaders pp => simp [waiters, Kernel.setPipe, queueRemove]
  | pipeWriters pp => simp [waiters, Kernel.setPipe, queueRemove]
  | _ => rfl

/-- ... and from no other. -/
theorem waiters_unlinkWaiting_ne (k : Kernel) (p : ProcId) {w v : WaitRef}
    (hw : (k.procs p).waitingOn = w) (hv : v ≠ w ∨ ∃ id, w = .semaphore id) :
    waiters (unlinkWaiting k p) v = waiters k v := by
  unfold unlinkWaiting
  rw [hw]
  cases w with
  | pipeReaders pp =>
    cases v with
    | pipeReaders i =>
      have hi : i ≠ pp := by
        rintro rfl
        rcases hv with hv | ⟨id, hid⟩
        · exact hv rfl
        · cases hid
      simp [waiters, Kernel.setPipe, hi]
    | pipeWriters i =>
      by_cases hi : i = pp
      · subst hi
        simp [waiters, Kernel.setPipe]
      · simp [waiters, Kernel.setPipe, hi]
    | _ => rfl
  | pipeWriters pp =>
    cases v with
    | pipeWriters i =>
      have hi : i ≠ pp := by
        rintro rfl
        rcases hv with hv | ⟨id, hid⟩
        · exact hv rfl
        · cases hid
      simp [waiters, Kernel.setPipe, hi]
    | pipeReaders i =>
      by_cases hi : i = pp
      · subst hi
        simp [waiters, Kernel.setPipe]
      · simp [waiters, Kernel.setPipe, hi]
    | _ => rfl
  | readyQueue => cases v <;> first | rfl | exact absurd rfl (hv.resolve_right (by simp))
  | keyboard => cases v <;> first | rfl | exact absurd rfl (hv.resolve_right (by simp))
  | _ => rfl

/-! ### The fields after a kill -/

/-- The wait queues read four fields of the kernel. -/
theorem waiters_congr (hr : k₁.readyProcesses = k.readyProcesses)
    (hs : k₁.semaphores = k.semaphores) (hp : k₁.pipes = k.pipes)
    (hq : k₁.keyboardQueue = k.keyboardQueue) (w : WaitRef) : waiters k₁ w = waiters k w := by
  cases w <;> simp [waiters, hr, hs, hp, hq]

/-- All of what the wait queues read is watched. -/
theorem Calm.waiters (h : Calm k k₁) (w : WaitRef) : waiters k₁ w = waiters k w := by
  cases w <;>
    simp [TpeSo.waiters, h.ready, h.semQueue, h.pipeReaders, h.pipeWriters, h.keyboard]

@[simp] theorem rmCurrent_procs (k : Kernel) (p : ProcId) : (rmCurrent k p).procs = k.procs := by
  unfold rmCurrent
  split <;> rfl

@[simp] theorem rmCurrent_nextProc (k : Kernel) (p : ProcId) :
    (rmCurrent k p).nextProc = k.nextProc := by
  unfold rmCurrent
  split <;> rfl

@[simp] theorem waiters_rmCurrent (k : Kernel) (p : ProcId) (w : WaitRef) :
    waiters (rmCurrent k p) w = waiters k w := by
  unfold rmCurrent
  split
  · exact waiters_congr rfl rfl rfl rfl w
  · rfl

@[simp] theorem unlinkWaiting_procs (k : Kernel) (p : ProcId) :
    (unlinkWaiting k p).procs = k.procs := by
  unfold unlinkWaiting
  split <;> rfl

@[simp] theorem unlinkWaiting_nextProc (k : Kernel) (p : ProcId) :
    (unlinkWaiting k p).nextProc = k.nextProc := by
  unfold unlinkWaiting
  split <;> rfl

@[simp] theorem unlinkWaiting_currentProcess (k : Kernel) (p : ProcId) :
    (unlinkWaiting k p).currentProcess = k.currentProcess := by
  unfold unlinkWaiting
  split <;> rfl

theorem mem_waiters_unlinkWaiting {p q : ProcId} {w : WaitRef}
    (hq : q ∈ waiters (unlinkWaiting k p) w) : q ∈ waiters k w := by
  by_cases hw : w = (k.procs p).waitingOn
  · by_cases hsem : ∃ id, w = .semaphore id
    · obtain ⟨id, rfl⟩ := hsem
      rwa [waiters_unlinkWaiting_ne _ p rfl (.inr ⟨id, hw.symm⟩)] at hq
    · rw [waiters_unlinkWaiting_self _ p hw.symm fun id hid => hsem ⟨id, hid⟩] at hq
      exact List.mem_of_mem_erase hq
  · rwa [waiters_unlinkWaiting_ne _ p rfl (.inl hw)] at hq

@[simp] theorem bury_nextProc (k : Kernel) (p : ProcId) (code : Int) :
    (bury k p code).nextProc = k.nextProc := by
  show (unlinkWaiting (rmCurrent k p) p).nextProc = _
  rw [unlinkWaiting_nextProc, rmCurrent_nextProc]

theorem bury_procs_ne (k : Kernel) {p q : ProcId} (code : Int) (h : q ≠ p) :
    (bury k p code).procs q = k.procs q := by
  rw [bury, Kernel.procs_setProc_ne _ h, unlinkWaiting_procs, rmCurrent_procs]

/-- A kill changes the queues only by unlinking its victim. -/
theorem waiters_bury (k : Kernel) (p : ProcId) (code : Int) (w : WaitRef) :
    waiters (bury k p code) w = waiters (unlinkWaiting (rmCurrent k p) p) w :=
  waiters_congr rfl rfl rfl rfl w

theorem mem_waiters_bury {p q : ProcId} {code : Int} {w : WaitRef}
    (hq : q ∈ waiters (bury k p code) w) : q ∈ waiters k w := by
  rw [waiters_bury] at hq
  simpa using mem_waiters_unlinkWaiting hq

/-- A kill takes at most its victim out of the queues. -/
theorem waiters_bury_sublist (k : Kernel) (p : ProcId) (code : Int) (w : WaitRef) :
    (waiters (bury k p code) w).Sublist (waiters k w) := by
  rw [waiters_bury, ← waiters_rmCurrent k p]
  by_cases hw : w = ((rmCurrent k p).procs p).waitingOn ∧ ∀ id, w ≠ .semaphore id
  · rw [waiters_unlinkWaiting_self _ p hw.1.symm hw.2]
    exact List.erase_sublist
  · rw [waiters_unlinkWaiting_ne _ p rfl]
    by_cases hself : w = ((rmCurrent k p).procs p).waitingOn
    · right
      by_contra hid
      exact hw ⟨hself, fun id hid' => hid ⟨id, hself ▸ hid'⟩⟩
    · exact .inl hself

@[simp] theorem bury_sleepingProcs (k : Kernel) (p : ProcId) (code : Int) :
    (bury k p code).sleepingProcs = k.sleepingProcs := by
  show (unlinkWaiting (rmCurrent k p) p).sleepingProcs = _
  unfold unlinkWaiting rmCurrent
  split <;> split <;> rfl

/-- A kill takes nobody else off the processor. -/
theorem current_of_bury {p c : ProcId} {code : Int}
    (hc : (bury k p code).currentProcess = some c) :
    k.currentProcess = some c ∧ (k.procs p).status ≠ .running := by
  have hc' : (rmCurrent k p).currentProcess = some c := by
    rw [← unlinkWaiting_currentProcess]
    exact hc
  unfold rmCurrent at hc'
  split at hc'
  · cases hc'
  · rename_i hs
    exact ⟨hc', hs⟩

end TpeSo
