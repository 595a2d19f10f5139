import TpeSo.Pipes.Calls
import TpeSo.Sched.View

namespace TpeSo

open Ds Lib

/-!
# Queues without memory

Whoever enters a queue needs a node from the heap, and nobody looks at what `enqueue` answers.

* `Retained k p` — after `proc_ready`, the process is in one of the two queues of the scheduler, in
  the state that goes with it;
* `callQueue k e` — the queue in which the call that `e` makes, or goes on with, may wait;
* `retained_iff` — `proc_ready` keeps its process exactly when it gets a node, or the process is in
  the ready queue already;
* `exhaustion_iff` — and a call that blocks its caller records it exactly when it gets a node, or
  the caller is in that queue already.
-/

variable {k k' : Kernel} {e : Event} {o : Option Completion} {p c : ProcId} {w : WaitRef}

/-- After `proc_ready`, `p` is ready in the ready queue, or still blocked in the other one. -/
def Retained (k : Kernel) (p : ProcId) : Prop :=
  p ∈ (procReady k (some p)).readyProcesses ∨
    (((procReady k (some p)).procs p).status = .blocked ∧
      p ∈ (procReady k (some p)).blockedProcesses)

/-- The queue a suspended call waits in, when it tries again. -/
def Pending.queue : Pending → Option WaitRef
  | .pipeRead pp _ => some (.pipeReaders pp)
  | .pipeWrite pp _ => some (.pipeWriters pp)
  | .readLine _ _ => some .keyboard
  | _ => none

/-- The queue a read from the descriptor may wait in. -/
def FdEntry.readQueue (d : FdEntry) : Option WaitRef :=
  match d.ops, d.resource with
  | some .pipeRead, some pp => some (.pipeReaders pp)
  | some .keyboard, _ => some .keyboard
  | _, _ => none

/-- The queue a write to the descriptor may wait in. -/
def FdEntry.writeQueue (d : FdEntry) : Option WaitRef :=
  match d.ops, d.resource with
  | some .pipeWrite, some pp => some (.pipeWriters pp)
  | _, _ => none

/-- The descriptor of the caller. -/
def callerFd (k : Kernel) (fd : Int) : Option FdEntry :=
  if h : 0 ≤ fd ∧ fd < fdMax then
    k.currentProcess.map fun c => (k.procs c).fds ⟨fd.toNat, toNat_lt_fdMax h⟩
  else none

/-- **The queue of a call** of `my_sem_wait`, `pipe_read`, `pipe_write` or `read_line`, from the
    start or from where it was switched out. -/
def callQueue (k : Kernel) : Event → Option WaitRef
  | .sysSemWait id => some (.semaphore id)
  | .sysRead fd _ _ => (callerFd k fd).bind FdEntry.readQueue
  | .sysWrite fd _ => (callerFd k fd).bind FdEntry.writeQueue
  | .resume => k.unfinished.bind Pending.queue
  | _ => none

/-! ### `proc_ready` -/

/-- **When `proc_ready` keeps its process.** -/
theorem retained_iff : Retained k p ↔ k.kmalloc = true ∨ p ∈ k.readyProcesses := by
  have hstatus : ((procReady k (some p)).procs p).status = .ready := by
    rw [procReady_procs_self]
  have hnot : ¬ (((procReady k (some p)).procs p).status = .blocked ∧
      p ∈ (procReady k (some p)).blockedProcesses) := by
    rw [hstatus]
    exact fun h => nomatch h.1
  rw [Retained, or_iff_left hnot, procReady_ready]
  cases k.kmalloc <;> simp

/-! ### Blocking -/

/-- A switch writes to the ready queue only. -/
theorem waiters_of_fixed (h : k'.fixed = k.fixed) (hw : w ≠ .readyQueue) :
    waiters k' w = waiters k w := by
  have hwaiters : ∀ k : Kernel, waiters k w = waiters k.fixed w := by
    intro k
    cases w <;> first | rfl | exact absurd rfl hw
  rw [hwaiters k', h, ← hwaiters k]

theorem waiters_blockCurrent {pend : Pending} {reason : BlockReason} {res : WaitRef}
    (h : blockCurrent (k.suspend pend) reason res = .ok k') (hw : w ≠ .readyQueue) :
    waiters k' w = waiters k w :=
  waiters_of_fixed ((fixed_blockCurrent h).trans (fixed_suspend k pend)) hw

/-- The queues that are linked into before blocking. -/
def WaitRef.linked : WaitRef → Prop
  | .semaphore _ | .pipeReaders _ | .pipeWriters _ | .keyboard => True
  | _ => False

/-- Linking succeeds when there is a node. -/
theorem mem_waiters_linkWaiter (hw : w.linked) (k : Kernel) (c : ProcId) :
    c ∈ waiters (linkWaiter k w c) w ↔ k.kmalloc = true ∨ c ∈ waiters k w := by
  cases w with
  | null | readyQueue | sleepers => exact hw.elim
  | semaphore id =>
    cases hm : k.kmalloc <;>
      simp [waiters, linkWaiter, Kernel.setSem, Kernel.alloc, hm, List.reduceOption_append]
  | pipeReaders pp =>
    cases hm : k.kmalloc <;> simp [waiters, linkWaiter, Kernel.setPipe, Kernel.alloc, hm]
  | pipeWriters pp =>
    cases hm : k.kmalloc <;> simp [waiters, linkWaiter, Kernel.setPipe, Kernel.alloc, hm]
  | keyboard => cases hm : k.kmalloc <;> simp [waiters, linkWaiter, Kernel.alloc, hm]

/-- **Who links itself and blocks** is recorded when there is a node. -/
theorem recorded {pend : Pending} {reason : BlockReason} (hw : w.linked)
    (h : blockCurrent ((linkWaiter k w c).suspend pend) reason w = .ok k') :
    c ∈ waiters k' w ↔ k.kmalloc = true ∨ c ∈ waiters k w := by
  rw [waiters_blockCurrent h (by rintro rfl; exact hw)]
  exact mem_waiters_linkWaiter hw k c

/-! ### The four routines -/

theorem mySemWait_recorded {id : Nat} (hc : k.currentProcess = some c)
    (h : mySemWait k id = .ok (k', none)) :
    c ∈ waiters k' (.semaphore id) ↔ k.kmalloc = true ∨ c ∈ waiters k (.semaphore id) := by
  unfold mySemWait at h
  split at h
  · obtain ⟨k₁, hacq, h⟩ := Outcome.bind_eq_ok.mp h
    have hq := Quiet.acquireSem hacq
    have hmalloc : (releaseSem k₁ id).kmalloc = k.kmalloc := by
      unfold acquireSem at hacq
      split at hacq
      · cases hacq
        rfl
      · cases hacq
    split at h
    · cases h
    · obtain ⟨k₂, hb, he⟩ := Outcome.bind_eq_ok.mp h
      rw [releaseSem_link (hq.current.trans hc)] at hb
      obtain rfl := (Prod.mk.inj (Outcome.ok.inj he)).1
      rw [recorded (w := .semaphore id) trivial hb, hmalloc,
        (hq.trans (.releaseSem k₁ id)).toCalm.waiters]
  · cases h

theorem pipeRead_recorded {pp : PipeId} {size : Nat} (h : pipeRead k c pp size = .ok (k', none)) :
    c ∈ waiters k' (.pipeReaders pp) ↔ k.kmalloc = true ∨ c ∈ waiters k (.pipeReaders pp) := by
  rw [pipeRead_eq (lock_of_pipeRead h)] at h
  split at h
  · split at h
    · cases h
    · obtain ⟨k₁, hb, he⟩ := Outcome.bind_eq_ok.mp h
      cases he
      exact recorded trivial hb
  · cases h

theorem pipeWrite_recorded {pp : PipeId} {buf : List UInt8}
    (h : pipeWrite k c pp buf = .ok (k', none)) :
    c ∈ waiters k' (.pipeWriters pp) ↔ k.kmalloc = true ∨ c ∈ waiters k (.pipeWriters pp) := by
  rw [pipeWrite_eq (lock_of_pipeWrite h)] at h
  split at h
  · split at h
    · cases h
    · obtain ⟨k₁, hb, he⟩ := Outcome.bind_eq_ok.mp h
      cases he
      exact recorded trivial hb
  · cases h

theorem readLine_recorded {count : Nat} {buf0 : UInt8}
    (h : readLine k c count buf0 = .ok (k', none)) :
    c ∈ waiters k' .keyboard ↔ k.kmalloc = true ∨ c ∈ waiters k .keyboard := by
  obtain ⟨n, -, h⟩ := Outcome.bind_eq_ok.mp h
  split at h
  · split at h
    · cases h
    · obtain ⟨k₁, hb, he⟩ := Outcome.bind_eq_ok.mp h
      cases he
      exact recorded (w := .keyboard) trivial hb
  · cases h

/-! ### Every call -/

theorem withFd_eq {fd : Int} {d : FdEntry} (hc : k.currentProcess = some c)
    (hd : callerFd k fd = some d) (f : ProcId → FdEntry → Outcome StepResult) :
    withFd k fd f = f c d := by
  unfold callerFd at hd
  split at hd
  · rename_i hfd
    rw [hc] at hd
    cases hd
    unfold withFd
    rw [dif_pos hfd, hc]
  · cases hd

theorem fdRead_recorded {d : FdEntry} {count : Nat} {buf0 : UInt8}
    (hw : d.readQueue = some w) (h : fdRead k c d count buf0 = .ok (k', none)) :
    c ∈ waiters k' w ↔ k.kmalloc = true ∨ c ∈ waiters k w := by
  unfold FdEntry.readQueue at hw
  unfold fdRead at h
  split at hw
  · rename_i pp hops hres
    rw [hops, hres] at h
    cases hw
    obtain ⟨⟨k₁, r⟩, hr, he⟩ := Outcome.bind_eq_ok.mp h
    cases r with
    | none =>
      cases he
      exact pipeRead_recorded hr
    | some bytes => cases he
  · rename_i hops
    rw [hops] at h
    cases hw
    obtain ⟨⟨k₁, r⟩, hr, he⟩ := Outcome.bind_eq_ok.mp h
    cases r with
    | none =>
      cases he
      unfold readFromKeyboard at hr
      split at hr
      · cases hr
      · split at hr
        · cases hr
        · exact readLine_recorded hr
    | some line => cases he
  · cases hw

theorem fdWrite_recorded {d : FdEntry} {buf : List UInt8} (hw : d.writeQueue = some w)
    (h : fdWrite k c d buf = .ok (k', none)) :
    c ∈ waiters k' w ↔ k.kmalloc = true ∨ c ∈ waiters k w := by
  unfold FdEntry.writeQueue at hw
  unfold fdWrite at h
  split at hw
  · rename_i pp hops hres
    rw [hops, hres] at h
    cases hw
    obtain ⟨⟨k₁, r⟩, hr, he⟩ := Outcome.bind_eq_ok.mp h
    cases r with
    | none =>
      cases he
      exact pipeWrite_recorded hr
    | some n => cases he
  · cases hw

/-- A suspended call that waits once more. -/
theorem resume_recorded {pend : Pending} (hw : pend.queue = some w)
    (h : resume k c pend = .ok (k', none)) :
    c ∈ waiters k' w ↔ k.kmalloc = true ∨ c ∈ waiters k w := by
  have hwaiters : waiters { k with kstack := Function.update k.kstack c none } w = waiters k w := by
    cases w <;> rfl
  have hmalloc : { k with kstack := Function.update k.kstack c none }.kmalloc = k.kmalloc := rfl
  rw [← hwaiters, ← hmalloc]
  unfold resume at h
  cases pend with
  | pipeRead pp size =>
    cases hw
    obtain ⟨⟨k₁, r⟩, hr, he⟩ := Outcome.bind_eq_ok.mp h
    cases r with
    | none =>
      cases he
      exact pipeRead_recorded hr
    | some bytes => cases he
  | pipeWrite pp buf =>
    cases hw
    obtain ⟨⟨k₁, r⟩, hr, he⟩ := Outcome.bind_eq_ok.mp h
    cases r with
    | none =>
      cases he
      exact pipeWrite_recorded hr
    | some n => cases he
  | readLine count buf0 =>
    cases hw
    obtain ⟨⟨k₁, r⟩, hr, he⟩ := Outcome.bind_eq_ok.mp h
    cases r with
    | none =>
      cases he
      exact readLine_recorded hr
    | some line => cases he
  | _ => cases hw

/-- **A step that blocks its caller** in a queue. -/
theorem step_recorded (hc : k.currentProcess = some c) (hw : callQueue k e = some w)
    (hs : step k e = some (k', none)) :
    c ∈ waiters k' w ↔ k.kmalloc = true ∨ c ∈ waiters k w := by
  have hcall := step_attempt hs
  cases e with
  | sysSemWait id =>
    cases hw
    obtain ⟨⟨k₁, r⟩, hr, he⟩ := Outcome.bind_eq_ok.mp hcall
    cases r with
    | none =>
      cases he
      exact mySemWait_recorded hc hr
    | some n => cases he
  | sysRead fd count buf0 =>
    obtain ⟨d, hd, hw⟩ := Option.bind_eq_some_iff.mp hw
    change sysRead k fd count buf0 = _ at hcall
    rw [sysRead, withFd_eq hc hd] at hcall
    exact fdRead_recorded hw hcall
  | sysWrite fd buf =>
    obtain ⟨d, hd, hw⟩ := Option.bind_eq_some_iff.mp hw
    change sysWrite k fd buf = _ at hcall
    rw [sysWrite, withFd_eq hc hd] at hcall
    exact fdWrite_recorded hw hcall
  | resume =>
    obtain ⟨pend, hpend, hw⟩ := Option.bind_eq_some_iff.mp hw
    rw [unfinished_eq hc] at hpend
    rw [attempt_resume hc hpend] at hcall
    exact resume_recorded hw hcall
  | _ => cases hw

/-- **What running out of memory loses.**  In every kernel, whatever its heap holds: `proc_ready`
    of a blocked process keeps it exactly when there is a node for it, or it is in the ready queue
    already; a call that blocks its caller records it exactly when there is a node, or the caller
    is in that queue already. -/
theorem exhaustion_iff (k : Kernel) :
    (∀ p, (k.procs p).status = .blocked →
      (Retained k p ↔ k.kmalloc = true ∨ p ∈ k.readyProcesses)) ∧
    ∀ e k' c w, k.currentProcess = some c → callQueue k e = some w →
      step k e = some (k', none) →
        (c ∈ waiters k' w ↔ k.kmalloc = true ∨ c ∈ waiters k w) :=
  ⟨fun _ _ => retained_iff, fun _ _ _ _ hc hw hs => step_recorded hc hw hs⟩

/-- `idle` and `init`, which has the processor. -/
def initRunsEvents : List Event :=
  [.sysSpawn { entry := some 1, fds := none, background := false },
   .sysSpawn { entry := some 2, fds := none, background := false }, .timer, .sysYield]

/-- With memory, a process that waits for a token is recorded, and is kept when it is woken. -/
theorem exhaustion_memory : ∃ tr k k' o, Run (fun _ => true) (fun _ _ => True) tr k ∧
    step k (.sysSemWait 0) = some (k', o) ∧ 1 ∈ waiters k' (.semaphore 0) ∧ Retained k' 1 := by
  have hcheck : execCheck step (fun _ _ => True) (fun _ k => k.currentProcess == some 1 &&
      k.kmalloc && (step k (.sysSemWait 0)).any fun r => r.2 == none &&
        (r.1.procs 1).status == .blocked && r.1.kmalloc)
      (boot fun _ => true) (initRunsEvents ++ [.sysCreateSem 0 0]) = true := by decide +kernel
  obtain ⟨tr, k, hrun, hQ⟩ := Trace.of_execCheck hcheck
  simp only [Bool.and_eq_true, beq_iff_eq, Option.any_eq_true] at hQ
  obtain ⟨⟨hc, hm⟩, ⟨k', o⟩, hs, ⟨ho, hblocked⟩, hm'⟩ := hQ
  obtain rfl : o = none := ho
  exact ⟨tr, k, k', none, hrun, hs, ((exhaustion_iff k).2 _ _ _ _ hc rfl hs).mpr (.inl hm),
    ((exhaustion_iff k').1 1 hblocked).mpr (.inl hm')⟩

/-- **Two losses**: `init` is blocked, and no node is left for waking it; and it waits for a token
    with no node left. -/
theorem exhaustion_loses :
    (¬ ∀ f tr k, Run f (fun _ _ => True) tr k → ∀ p, (k.procs p).status = .blocked → Retained k p) ∧
    ¬ ∀ f tr k, Run f (fun _ _ => True) tr k → ∀ e k' c w, k.currentProcess = some c →
      callQueue k e = some w → step k e = some (k', none) → c ∈ waiters k' w := by
  refine ⟨fun hall => ?_, fun hall => ?_⟩
  · have hcheck : execCheck step (fun _ _ => True) (fun _ k => (k.procs 1).status == .blocked &&
        !k.kmalloc && !k.readyProcesses.contains 1)
        (boot fun n => decide (n < 10)) (initRunsEvents ++ [.sysBlock 1]) = true := by
      decide +kernel
    obtain ⟨tr, k, hrun, hQ⟩ := Trace.of_execCheck hcheck
    simp only [Bool.and_eq_true, beq_iff_eq, Bool.not_eq_true', List.contains_eq_mem,
      decide_eq_false_iff_not] at hQ
    obtain ⟨⟨hblocked, hm⟩, hready⟩ := hQ
    rcases retained_iff.mp (hall _ tr k hrun 1 hblocked) with hm' | hmem
    · cases hm.symm.trans hm'
    · exact hready hmem
  · have hcheck : execCheck step (fun _ _ => True) (fun _ k => k.currentProcess == some 1 &&
        !k.kmalloc && !(waiters k (.semaphore 0)).contains 1 &&
        (step k (.sysSemWait 0)).any fun r => r.2 == none)
        (boot fun n => decide (n < 10)) (initRunsEvents ++ [.sysCreateSem 0 0]) = true := by
      decide +kernel
    obtain ⟨tr, k, hrun, hQ⟩ := Trace.of_execCheck hcheck
    simp only [Bool.and_eq_true, beq_iff_eq, Bool.not_eq_true', List.contains_eq_mem,
      decide_eq_false_iff_not, Option.any_eq_true] at hQ
    obtain ⟨⟨⟨hc, hm⟩, hqueue⟩, ⟨k', o⟩, hs, ho⟩ := hQ
    obtain rfl : o = none := ho
    rcases (step_recorded hc rfl hs).mp (hall _ tr k hrun _ k' 1 _ hc rfl hs) with hm' | hmem
    · cases hm.symm.trans hm'
    · exact hqueue hmem

end TpeSo
