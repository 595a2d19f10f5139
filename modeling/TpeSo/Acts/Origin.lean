import TpeSo.Acts.Micro

namespace TpeSo

open Ds Lib

/-!
# Acts — which entry an edit may come from

Most edits may be part of any step.  The others belong to particular entries, and what the
entry has looked up in the kernel before the step decides whom they are about.

* `killTarget`, `unblockTarget`, `sleepTick` — whom an entry kills or unblocks, and until
  when it puts its caller to sleep;
* `Reaches` — the end of a pipe an entry works on;
* `Act.routine` — the edits that need no particular occasion;
* `Origin k₀ e k a` — the entry `e`, made in `k₀`, may make the edit `a` in `k`;
* `Cause k₀ e k a` — besides, the edit blocks nobody but the caller of the entry and the process
  it names, and preempts, and notes something for, the caller only.
-/

/-- The process `proc_kill` is called on and does not spare. -/
def killTarget (k : Kernel) (e : Event) : Option ProcId :=
  let proc := match e with
    | .sysKillProc pid =>
      if pid = 0 ∨ pid = 1 then none
      else match getProcByPid k (toPid pid) with
        | .ok p => p
        | _ => none
    | .sysExit _ => k.currentProcess
    | .key scanCode =>
      if k.ctrl ∧ printableAscii[scanCode]?.map Prod.fst = some 99 then k.foregroundProcess
      else none
    | _ => none
  proc.filter fun p => (k.procs p).pid ≠ 0 ∧ (k.procs p).pid ≠ 1

theorem killTarget_pid {k : Kernel} {e : Event} {p : ProcId} (h : killTarget k e = some p) :
    ¬ ((k.procs p).pid = 0 ∨ (k.procs p).pid = 1) := by
  obtain ⟨-, hpid⟩ := Option.filter_eq_some_iff.mp h
  simpa [not_or] using hpid

/-- The process `unblock_process_by_pid` is called on by `sys_unblock`. -/
def unblockTarget (k : Kernel) : Event → Option ProcId
  | .sysUnblock pid =>
    match getProcByPid k (toPid pid) with
    | .ok p => p
    | _ => none
  | _ => none

/-- The process `block_process_by_pid` is called on by `sys_block`. -/
def blockTarget (k : Kernel) : Event → Option ProcId
  | .sysBlock pid =>
    match getProcByPid k (toPid pid) with
    | .ok p => p
    | _ => none
  | _ => none

/-- The wake-up tick of the sleep an entry begins. -/
def sleepTick (k : Kernel) : Event → Option Nat
  | .sysSleep s => some (wakeUpTick k (secondsToTicks s))
  | .sysUsleep us =>
    if usleepTicks us = 0 then none else some (wakeUpTick k (usleepTicks us))
  | _ => none

/-- The entry reads or writes, or goes on reading or writing, at the end of `pp` that `ops`
    stands for. -/
def Reaches (k : Kernel) (e : Event) (ops : FileOps) (pp : PipeId) : Prop :=
  ∃ c, k.currentProcess = some c ∧
    ((((∃ fd count b, e = .sysRead fd count b) ∨ ∃ fd buf, e = .sysWrite fd buf) ∧
        ∃ i, ((k.procs c).fds i).refers ops pp) ∨
      (e = .resume ∧ ∃ w, k.kstack c = some w ∧ w.pipeEnd = some (ops, pp)))

/-- An edit that may be part of any step. -/
def Act.routine : Act → Prop
  | .finish _ _ => False
  | .blockSelf _ (.semaphore _) _ => False
  | .blockSelf _ (.pipeReaders _) _ => False
  | .blockSelf _ (.pipeWriters _) _ => False
  | .blockSleep _ _ => False
  | .unblock _ => False
  | .wake (.semaphore _) _ => False
  | .semCreate _ _ => False
  | .semDestroy _ => False
  | .semTake _ => False
  | .semInc _ => False
  | .semLinkNull _ => False
  | .kill _ => False
  | .claimPid _ => False
  | .newPipe _ => False
  | .freeNamed _ => False
  | .take _ => False
  | .put _ => False
  | _ => True

/-- **Occasions.** What is known of an edit `a` made in `k` during the entry `e` from `k₀`. -/
def Origin (k₀ : Kernel) (e : Event) (k : Kernel) : Act → Prop
  | .finish c w => e = .resume ∧ k₀.currentProcess = some c ∧ k₀.kstack c = some w
  | .blockSelf _ (.semaphore id) _ => e = .sysSemWait id
  | .blockSelf _ (.pipeReaders pp) _ => Reaches k₀ e .pipeRead pp
  | .blockSelf _ (.pipeWriters pp) _ => Reaches k₀ e .pipeWrite pp
  | .blockSleep _ t => Calm k₀ k ∧ sleepTick k₀ e = some t
  | .unblock p => Calm k₀ k ∧ unblockTarget k₀ e = some p
  | .wake (.semaphore id) _ => e = .sysSemPost id
  | .semCreate id v => e = .sysCreateSem id v
  | .semDestroy id => e = .sysCloseSem id
  | .semTake id => e = .sysSemWait id ∨ e = .sysSemTrywait id
  | .semInc id => e = .sysSemPost id
  | .semLinkNull id => e = .sysSemWait id
  | .kill p => Calm k₀ k ∧ killTarget k₀ e = some p
  | .claimPid i => (∃ a, e = .sysSpawn a) ∧ procPidAlloc k₀ = some i
  | .freeNamed pp => Calm k₀ k ∧ ∃ id, e = .sysPipeClose id ∧ findPipeById k₀ id = some pp
  | .take pp => Reaches k₀ e .pipeRead pp
  | .put pp => Reaches k₀ e .pipeWrite pp
  | _ => True

/-- A routine edit may come from every entry. -/
theorem Origin.of_routine {k₀ k : Kernel} {e : Event} {a : Act} (h : a.routine) :
    Origin k₀ e k a := by
  unfold Act.routine at h
  unfold Origin
  split at h <;> first | exact h.elim | skip
  split <;> simp_all

/-! ### Who gives up the processor -/

/-- A routine edit that blocks and preempts nobody and notes nothing. -/
def Act.common : Act → Prop
  | .suspend _ | .preempt _ _ | .blockSelf _ _ _ | .blockSleep _ _ | .blockOther _ => False
  | a => a.routine

/-- Whom an edit may block or preempt, and for whom it may note something. -/
def ByCaller (k₀ : Kernel) (e : Event) (k : Kernel) : Act → Prop
  | .suspend _ => k.currentProcess = k₀.currentProcess
  | .preempt c _ => k₀.currentProcess = some c
  | .blockSelf c _ _ => k₀.currentProcess = some c
  | .blockSleep c _ => k₀.currentProcess = some c
  | .blockOther p => blockTarget k₀ e = some p
  | _ => True

/-- The occasion of an edit, and whose doing it is. -/
def Cause (k₀ : Kernel) (e : Event) (k : Kernel) (a : Act) : Prop :=
  Origin k₀ e k a ∧ ByCaller k₀ e k a

/-- A common edit may come from every entry. -/
theorem Cause.of_common {k₀ k : Kernel} {e : Event} {a : Act} (h : a.common) : Cause k₀ e k a := by
  unfold Act.common at h
  split at h
  case h_6 => exact ⟨.of_routine h, by unfold ByCaller; split <;> simp_all⟩
  all_goals exact h.elim

end TpeSo
