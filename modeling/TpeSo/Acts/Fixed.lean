import TpeSo.Kernel.Syscall

namespace TpeSo

open Ds Lib

/-!
# Acts — what scheduling leaves alone

Choosing the next process, blocking, waking and counting ticks only write the scheduler's
record and a few fields of the process control blocks.

* `Kernel.fixed` — the kernel with all of that blanked out;
* `fixed_procReady`, `fixed_callTimerTick`, `fixed_blockCurrent`, … — the routines of
  `scheduler.c` and `time_rtc.c` keep it.
-/

variable {k k' : Kernel}

/-- A process control block without what the scheduler writes into it. -/
def Proc.fixed (q : Proc) : Proc :=
  { q with status := .dead, blockReason := .none, waitingOn := .null, hasQuantum := 0,
           stackPointer := 0 }

/-- The kernel without what scheduling, sleeping and the heap change. -/
def Kernel.fixed (k : Kernel) : Kernel :=
  { k with
    procs := fun p => (k.procs p).fixed
    readyProcesses := []
    blockedProcesses := []
    currentProcess := none
    sleepingProcs := []
    ticks := 0
    rsp := 0
    kstack := fun _ => none
    mallocOk := fun _ => true }

theorem fixed_setProc (k : Kernel) (p : ProcId) {f : Proc → Proc}
    (h : (f (k.procs p)).fixed = (k.procs p).fixed) : (k.setProc p f).fixed = k.fixed := by
  have hprocs : (fun q => ((k.setProc p f).procs q).fixed) = fun q => (k.procs q).fixed := by
    funext q
    by_cases hq : q = p
    · subst hq
      simpa [Kernel.setProc] using h
    · simp [Kernel.setProc, hq]
  unfold Kernel.fixed
  rw [hprocs]
  rfl

theorem fixed_suspend (k : Kernel) (w : Pending) : (k.suspend w).fixed = k.fixed := by
  unfold Kernel.suspend
  split <;> rfl

theorem fixed_procReady (k : Kernel) (o : Option ProcId) : (procReady k o).fixed = k.fixed := by
  cases o with
  | none => rfl
  | some p =>
    exact fixed_setProc k p
      (f := fun q => { q with status := .ready, blockReason := .none, waitingOn := .readyQueue }) rfl

theorem fixed_enqueueNextProcess (h : enqueueNextProcess k = .ok k') : k'.fixed = k.fixed := by
  unfold enqueueNextProcess at h
  dsimp only at h
  split at h
  · cases h
  · cases h
    exact fixed_setProc { k with readyProcesses := _, currentProcess := _ } _ rfl

theorem fixed_pickNext {rsp : Nat} (h : pickNext k rsp = .ok k') : k'.fixed = k.fixed := by
  unfold pickNext at h
  split at h
  · split at h
    · cases h
    · exact fixed_enqueueNextProcess h
  · rename_i c _
    dsimp only at h
    refine Eq.trans ?_ (fixed_setProc k c (f := fun q => { q with stackPointer := rsp }) rfl)
    split at h
    · split at h
      · cases h
        exact fixed_setProc _ c rfl
      · cases h
    · unfold scheduleCurrent at h
      dsimp only at h
      refine Eq.trans ?_ (fixed_setProc _ c (f := fun q => { q with hasQuantum := q.hasQuantum - 1 }) rfl)
      split at h
      · refine (fixed_enqueueNextProcess h).trans ?_
        split
        · exact (fixed_procReady _ _).trans (fixed_setProc _ c rfl)
        · rfl
      · cases h
        rfl

theorem fixed_unblockProcessByPid {pid : Int} {r : Kernel × Int}
    (h : unblockProcessByPid k pid = .ok r) : r.1.fixed = k.fixed := by
  obtain ⟨o, -, h⟩ := Outcome.bind_eq_ok.mp h
  split at h
  · cases h
    rfl
  · split at h
    · cases h
      rfl
    · cases h
      exact fixed_procReady k (some _)

theorem fixed_wakeDue (rest : List SleepingProc) :
    ∀ {k : Kernel}, wakeDue k rest = .ok k' → k'.fixed = k.fixed := by
  induction rest with
  | nil =>
    intro k h
    cases h
    rfl
  | cons sp rest ih =>
    intro k h
    rw [wakeDue] at h
    split at h
    · obtain ⟨r, hr, h⟩ := Outcome.bind_eq_ok.mp h
      exact (ih h).trans (fixed_unblockProcessByPid hr)
    · exact ih h

theorem fixed_callTimerTick (h : callTimerTick k = .ok k') : k'.fixed = k.fixed := by
  simp only [callTimerTick, timerHandler, schedule, Outcome.bind_eq_ok] at h
  obtain ⟨k₁, hw, ⟨k₂, rsp⟩, ⟨k₃, hp, hs⟩, he⟩ := h
  have hwake := fixed_wakeDue _ hw
  have hpick := fixed_pickNext hp
  split at hs
  · cases hs
  · cases hs
    cases he
    exact hpick.trans hwake

theorem fixed_yield (h : yield k = .ok k') : k'.fixed = k.fixed := by
  unfold yield at h
  split at h
  · cases h
  · rename_i c _
    exact (fixed_callTimerTick h).trans (fixed_setProc k c rfl)

theorem fixed_markBlocked (k : Kernel) (p : ProcId) (reason : BlockReason) (res : WaitRef) :
    (markBlocked k p reason res).fixed = k.fixed :=
  fixed_setProc k p
    (f := fun q => { q with status := .blocked, blockReason := reason, waitingOn := res }) rfl

theorem fixed_block {p : ProcId} {reason : BlockReason} {res : WaitRef}
    (h : block k p reason res = .ok k') : k'.fixed = k.fixed := by
  unfold block at h
  dsimp only at h
  refine Eq.trans ?_ (fixed_markBlocked k p reason res)
  split at h
  · cases h
    rfl
  · split at h
    · exact fixed_yield h
    · cases h
      rfl

theorem fixed_blockCurrent {reason : BlockReason} {res : WaitRef}
    (h : blockCurrent k reason res = .ok k') : k'.fixed = k.fixed := by
  unfold blockCurrent at h
  split at h
  · cases h
    rfl
  · exact fixed_block h

theorem fixed_blockProcessByPid {pid : Int} {r : Kernel × Option Int}
    (h : blockProcessByPid k pid = .ok r) : r.1.fixed = k.fixed := by
  obtain ⟨o, -, h⟩ := Outcome.bind_eq_ok.mp h
  split at h
  · cases h
    rfl
  · split at h
    · cases h
      rfl
    · split at h
      · cases h
        rfl
      · split at h
        · obtain ⟨k₁, hb, he⟩ := Outcome.bind_eq_ok.mp h
          cases he
          exact (fixed_block hb).trans (fixed_suspend k .block)
        · obtain ⟨k₁, hb, he⟩ := Outcome.bind_eq_ok.mp h
          cases he
          exact fixed_block hb

theorem fixed_sleepHelper {n : Nat} (h : sleepHelper k n = .ok k') : k'.fixed = k.fixed := by
  unfold sleepHelper at h
  split at h
  · cases h
  · dsimp only at h
    split at h
    · exact (fixed_blockCurrent h).trans (fixed_suspend _ .sleep)
    · cases h

end TpeSo
