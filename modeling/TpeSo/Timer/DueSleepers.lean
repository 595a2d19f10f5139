import TpeSo.Timer.Clock

namespace TpeSo

open Ds Lib

/-!
# Timer — the sleepers that the interrupt looks up

The timer interrupt passes the id of every sleeper that is due to `get_proc_by_pid`.  That is
the only access in it that can go outside an array: choosing the next process may stop the
kernel, and it never goes wrong.

* `DueInside k` — the sleepers the next tick wakes have ids within the table;
* `callTimerTick_fault`, `block_fault` — the interrupt goes wrong exactly without it, and so does
  a process that blocks itself.
-/

variable {k : Kernel} {p c : ProcId}

/-- The sleepers that the next tick wakes have places in the table. -/
def DueInside (k : Kernel) : Prop := ∀ sp ∈ k.sleepingProcs,
  sp.wakeUpTick ≤ (k.ticks + 1) % word → 0 ≤ sp.pid ∧ sp.pid < maxProcesses

theorem dueInside_of_clock {k' : Kernel} (h : k'.clock = k.clock) :
    DueInside k' ↔ DueInside k := by
  have hticks : k'.ticks = k.ticks := congrArg Alarm.now h
  have hqueue : k'.sleepingProcs = k.sleepingProcs := congrArg Alarm.pending h
  unfold DueInside
  rw [hticks, hqueue]

/-! ### `get_proc_by_pid` -/

theorem getProcByPid_fault {x : Int} :
    getProcByPid k x = .fault ↔ ¬ (0 ≤ x ∧ x < maxProcesses) := by
  unfold getProcByPid
  split <;> simp [*]

theorem getProcByPid_inside {x : Int} (hx : 0 ≤ x ∧ x < maxProcesses) :
    getProcByPid k x = .ok (k.processTable x.toNat) := if_pos hx

theorem unblockProcessByPid_inside {x : Int} (hx : 0 ≤ x ∧ x < maxProcesses) :
    ∃ r, unblockProcessByPid k x = .ok r := by
  unfold unblockProcessByPid
  rw [getProcByPid_inside hx, Outcome.ok_bind]
  split
  · exact ⟨_, rfl⟩
  · split <;> exact ⟨_, rfl⟩

theorem unblockProcessByPid_outside {x : Int} (hx : ¬ (0 ≤ x ∧ x < maxProcesses)) :
    unblockProcessByPid k x = .fault := by
  unfold unblockProcessByPid
  rw [getProcByPid_fault.mpr hx, Outcome.fault_bind]

/-! ### The interrupt -/

/-- The loop goes wrong at the first sleeper that is due and has no place in the table. -/
theorem wakeDue_fault (rest : List SleepingProc) : ∀ k : Kernel, wakeDue k rest = .fault ↔
    ∃ sp ∈ rest, sp.wakeUpTick ≤ k.ticks ∧ ¬ (0 ≤ sp.pid ∧ sp.pid < maxProcesses) := by
  induction rest with
  | nil =>
    intro k
    simp [wakeDue]
  | cons sp rest ih =>
    intro k
    rw [List.exists_mem_cons_iff]
    by_cases hdue : sp.wakeUpTick ≤ k.ticks
    · simp only [wakeDue, hdue, if_true, true_and]
      by_cases hin : 0 ≤ sp.pid ∧ sp.pid < maxProcesses
      · obtain ⟨r, hr⟩ := unblockProcessByPid_inside (k := k) hin
        have hticks : r.1.ticks = k.ticks := congrArg Alarm.now (clock_unblockProcessByPid hr)
        rw [hr, Outcome.ok_bind]
        refine (ih _).trans ?_
        simp only [hticks, hin, and_self, not_true_eq_false, false_or]
      · rw [unblockProcessByPid_outside hin, Outcome.fault_bind]
        exact iff_of_true rfl (.inl hin)
    · simp only [wakeDue, hdue, if_false, false_and, false_or]
      exact ih k

theorem wakeDue_ne_hang (rest : List SleepingProc) : ∀ k : Kernel, wakeDue k rest ≠ .hang := by
  induction rest with
  | nil => exact fun _ => Outcome.ok_ne_hang _
  | cons sp rest ih =>
    intro k
    unfold wakeDue
    split
    · by_cases hin : 0 ≤ sp.pid ∧ sp.pid < maxProcesses
      · obtain ⟨r, hr⟩ := unblockProcessByPid_inside (k := k) hin
        rw [hr, Outcome.ok_bind]
        exact ih _
      · rw [unblockProcessByPid_outside hin, Outcome.fault_bind]
        exact Outcome.fault_ne_hang
    · exact ih k

theorem enqueueNextProcess_current {k' : Kernel} (h : enqueueNextProcess k = .ok k') :
    k'.currentProcess ≠ none := by
  unfold enqueueNextProcess at h
  dsimp only at h
  split at h
  · cases h
  · rename_i p hp
    cases h
    show (dequeue k.readyProcesses).1 ≠ none
    rw [hp]
    exact fun h => nomatch h

/-- Choosing the next process may stop the kernel; it never goes wrong. -/
theorem schedule_ne_fault (k : Kernel) (rsp : Nat) : schedule k rsp ≠ .fault := by
  have hnext : ∀ k : Kernel, enqueueNextProcess k ≠ .fault := by
    intro k
    unfold enqueueNextProcess
    dsimp only
    split <;> exact fun h => nomatch h
  intro h
  unfold schedule at h
  cases hpick : pickNext k rsp with
  | hang =>
    rw [hpick] at h
    cases h
  | fault =>
    unfold pickNext scheduleCurrent at hpick
    split at hpick
    · split at hpick
      · cases hpick
      · exact hnext _ hpick
    · dsimp only at hpick
      split at hpick
      · split at hpick <;> cases hpick
      · split at hpick
        · exact hnext _ hpick
        · cases hpick
  | ok k' =>
    rw [hpick, Outcome.ok_bind] at h
    have hcurrent : k'.currentProcess ≠ none := by
      unfold pickNext scheduleCurrent at hpick
      split at hpick
      · split at hpick
        · cases hpick
        · exact enqueueNextProcess_current hpick
      · rename_i c hc
        have hsome : k.currentProcess ≠ none := by
          rw [hc]
          exact fun h => nomatch h
        dsimp only at hpick
        split at hpick
        · split at hpick <;> cases hpick
          exact hsome
        · split at hpick
          · exact enqueueNextProcess_current hpick
          · cases hpick
            exact hsome
    split at h
    · rename_i hnone
      exact hcurrent hnone
    · cases h

/-- **The timer interrupt goes wrong** exactly when a sleeper that is due has no place in the
    table. -/
theorem callTimerTick_fault : callTimerTick k = .fault ↔ ¬ DueInside k := by
  have hdue : ¬ DueInside k ↔ timerHandler k = .fault := by
    unfold timerHandler
    rw [wakeDue_fault]
    simp only [DueInside, not_forall, exists_prop]
  rw [hdue]
  unfold callTimerTick
  exact Outcome.bind_eq_fault fun k₁ =>
    Outcome.bind_ne_fault (schedule_ne_fault k₁ k₁.rsp) fun _ _ h => nomatch h

/-! ### Giving up the processor -/

theorem yield_fault (hc : k.currentProcess = some c) : yield k = .fault ↔ ¬ DueInside k := by
  unfold yield
  rw [hc]
  exact callTimerTick_fault.trans (not_congr (dueInside_of_clock rfl))

/-- `block` of the caller. -/
theorem block_fault {reason : BlockReason} {res : WaitRef} (hself : blocksItself k p = true) :
    block k p reason res = .fault ↔ ¬ DueInside k := by
  unfold blocksItself at hself
  split at hself
  · cases hself
  · rename_i c hc
    have hpids := k.setProc_spares Proc.pid (p := p)
      (f := fun q => { q with status := .blocked, blockReason := reason, waitingOn := res }) rfl
    have hsame : ((markBlocked k p reason res).procs c).pid =
        ((markBlocked k p reason res).procs p).pid :=
      (hpids c).trans ((of_decide_eq_true hself).trans (hpids p).symm)
    have hcurrent : (markBlocked k p reason res).currentProcess = some c := hc
    unfold block
    dsimp only
    rw [hcurrent]
    dsimp only
    rw [if_pos hsame]
    exact (yield_fault hcurrent).trans (not_congr (dueInside_of_clock rfl))

/-- `block` of another process does not switch. -/
theorem block_other {reason : BlockReason} {res : WaitRef} (hother : blocksItself k p = false) :
    block k p reason res = .ok (markBlocked k p reason res) := by
  unfold blocksItself at hother
  unfold block
  dsimp only
  split
  · rfl
  · rename_i c hc
    have hcurrent : k.currentProcess = some c := hc
    rw [hcurrent] at hother
    have hpids := k.setProc_spares Proc.pid (p := p)
      (f := fun q => { q with status := .blocked, blockReason := reason, waitingOn := res }) rfl
    refine if_neg fun hsame => of_decide_eq_false hother ?_
    exact (hpids c).symm.trans (hsame.trans (hpids p))

/-- `block_current` with work left on the kernel stack. -/
theorem blockCurrent_fault {w : Pending} {reason : BlockReason} {res : WaitRef}
    (hc : k.currentProcess = some c) :
    blockCurrent (k.suspend w) reason res = .fault ↔ ¬ DueInside k := by
  have hcurrent : (k.suspend w).currentProcess = some c := (suspend_currentProcess k w).trans hc
  have hself : blocksItself (k.suspend w) c = true := by
    unfold blocksItself
    rw [hcurrent]
    exact decide_eq_true rfl
  unfold blockCurrent
  rw [hcurrent]
  exact (block_fault hself).trans (not_congr (dueInside_of_clock (clock_suspend k w)))

end TpeSo
