import TpeSo.Sched.Exhaustion
import TpeSo.Sched.Seat
import TpeSo.Sems.Locks
import TpeSo.Timer.DueSleepers

namespace TpeSo

open Ds Lib

/-!
# Scheduling — the loops that end the kernel

`schedule` and `enqueue_next_process` spin for ever when they find nobody to run.  While `idle`
has its seat they find somebody; the kernel may still spin elsewhere.

* `SpinsElsewhere k e` — the other loops: the lock of a pipe, the search for the end of a line,
  and a process that has exited;
* `pickNext_ne_hang`, `callTimerTick_ne_hang` — the scheduler does not spin;
* `attempt_ne_hang` — nor does any entry, but for the other loops;
* `panicFree_run` — the statement about whole runs;
* `panic_reached` — `init` blocks `idle`, and then itself.
-/

variable {φ : Phase} {k k' : Kernel} {e : Event} {p c : ProcId}

/-! ### The scheduler -/

theorem getProcByPid_ne_hang (k : Kernel) (pid : Int) : getProcByPid k pid ≠ .hang := by
  unfold getProcByPid
  split
  · exact Outcome.ok_ne_hang _
  · exact Outcome.fault_ne_hang

theorem enqueueNextProcess_ne_hang (h : k.readyProcesses ≠ []) : enqueueNextProcess k ≠ .hang := by
  obtain ⟨p, rest, hr⟩ := List.exists_cons_of_ne_nil h
  simp [enqueueNextProcess, hr]

/-- `schedule` finds `idle`, if nobody else. -/
theorem HasSeat.pickNext_ne_hang (h : HasSeat k) (rsp : Nat) : pickNext k rsp ≠ .hang := by
  cases hc : k.currentProcess with
  | none =>
    have hr : k.readyProcesses ≠ [] := by
      rcases h with ⟨hc', -⟩ | ⟨hmem, -⟩
      · cases hc.symm.trans hc'
      · exact List.ne_nil_of_mem hmem
    unfold pickNext
    rw [hc]
    dsimp only
    rw [if_neg hr]
    exact enqueueNextProcess_ne_hang hr
  | some c =>
    by_cases hr : k.readyProcesses = []
    · obtain ⟨hc', hs⟩ := h.resolve_right fun hs => List.ne_nil_of_mem hs.1 hr
      cases hc.symm.trans hc'
      have hs' : ((k.setProc idle fun q => { q with stackPointer := rsp }).procs idle).status =
          .running := by
        rw [Kernel.procs_setProc_self]
        exact hs
      unfold pickNext
      rw [hc]
      dsimp only
      rw [if_pos (show (k.setProc idle _).readyProcesses = [] from hr), if_pos hs']
      exact Outcome.ok_ne_hang _
    · rw [pickNext_eq hc hr]
      split
      · split
        · refine enqueueNextProcess_ne_hang ?_
          rw [procReady_setStatus, procReady_ready]
          cases (interrupted k c rsp).kmalloc with
          | false => exact hr
          | true => exact List.append_ne_nil_of_right_ne_nil _ (List.cons_ne_nil c [])
        · exact enqueueNextProcess_ne_hang hr
      · exact Outcome.ok_ne_hang _

namespace Seated

/-- **The timer interrupt** comes back. -/
theorem callTimerTick_ne_hang (h : Seated φ k) : callTimerTick k ≠ .hang := by
  refine Outcome.bind_ne_hang (wakeDue_ne_hang _ _) fun k₁ hk => ?_
  refine Outcome.bind_ok_ne_hang ?_
  refine Outcome.bind_ne_hang ((h.timerHandler hk).seat.pickNext_ne_hang _) fun k₂ _ => ?_
  split
  · exact Outcome.fault_ne_hang
  · exact Outcome.ok_ne_hang _

theorem yield_ne_hang (h : Seated .run k) : yield k ≠ .hang := by
  unfold yield
  split
  · exact Outcome.fault_ne_hang
  · rename_i c _
    exact (h.quiet (.setProc c rfl fun _ => rfl)).callTimerTick_ne_hang

/-! ### Giving up the processor -/

/-- An edit of the wait queues by a process other than `idle`. -/
theorem of_base (h : Seated φ k) (hb : SchedBase k k')
    (hw : ∀ w, w ≠ .readyQueue → idle ∈ waiters k' w → idle ∈ waiters k w) : Seated φ k' := by
  have hkeep := KeepsIdle.of_base hb
  exact ⟨hb.nextProc ▸ h.born, h.setup, hkeep.record.1.trans h.pid, h.alone.of_status hb.status hb.current,
    fun w hw' hmem => h.unlinked w hw' (hw w hw' hmem), hkeep.seat h.seat⟩

theorem suspend (h : Seated φ k) (pend : Pending) : Seated φ (k.suspend pend) :=
  h.of_base (SchedSame.suspend k pend).toSchedBase fun w _ hmem => waiters_suspend k pend w ▸ hmem

theorem linkWaiter (h : Seated φ k) {w : WaitRef} (hw : w ≠ .readyQueue) (hc : c ≠ idle) :
    Seated φ (linkWaiter k w c) := by
  refine h.of_base (.linkWaiter k w c) fun v _ hmem => ?_
  rcases waiters_linkWaiter k w c hw v with hl | ⟨-, hl⟩
  · exact hl ▸ hmem
  · rw [hl, List.mem_append, List.mem_singleton] at hmem
    exact hmem.resolve_right hc.symm

theorem markBlocked (h : Seated φ k) (hp : p ≠ idle) (reason : BlockReason) (w : WaitRef) :
    Seated φ (markBlocked k p reason w) := by
  have hkeep := KeepsIdle.markBlocked k hp reason w
  refine ⟨h.born, h.setup, hkeep.record.1.trans h.pid, h.alone.markBlocked p reason w,
    fun v hv hmem => ?_, hkeep.seat h.seat⟩
  rw [waiters_markBlocked k p reason w hv] at hmem
  exact h.unlinked v hv hmem

/-- **`block`** of anybody but `idle` comes back. -/
theorem block_ne_hang (h : Seated .run k) (hp : p ≠ idle) (reason : BlockReason) (w : WaitRef) :
    block k p reason w ≠ .hang := by
  unfold block
  dsimp only
  split
  · exact Outcome.ok_ne_hang _
  · split
    · exact (h.markBlocked hp reason w).yield_ne_hang
    · exact Outcome.ok_ne_hang _

theorem blockCurrent_ne_hang (h : Seated .run k) (hc : k.currentProcess ≠ some idle)
    (reason : BlockReason) (w : WaitRef) : blockCurrent k reason w ≠ .hang := by
  unfold blockCurrent
  split
  · exact Outcome.ok_ne_hang _
  · rename_i c hc'
    exact h.block_ne_hang (fun hci => hc (hci ▸ hc')) reason w

/-- A process that has linked itself into a wait queue blocks. -/
theorem wait_ne_hang (h : Seated .run k) (hc : k.currentProcess = some c) (hci : c ≠ idle)
    {w : WaitRef} (hw : w ≠ .readyQueue) (pend : Pending) (reason : BlockReason) :
    blockCurrent ((TpeSo.linkWaiter k w c).suspend pend) reason w ≠ .hang := by
  refine ((h.linkWaiter hw hci).suspend pend).blockCurrent_ne_hang (fun hc' => hci ?_) reason w
  rw [suspend_currentProcess, (SchedBase.linkWaiter k w c).current, hc] at hc'
  exact Option.some.inj hc'

theorem pipeRead_ne_hang (h : Seated .run k) (hc : k.currentProcess = some c) (hci : c ≠ idle)
    {pp : PipeId} (hl : (k.pipes pp).lock = true) (size : Nat) : pipeRead k c pp size ≠ .hang := by
  rw [pipeRead_eq hl]
  split
  · split
    · exact Outcome.ok_ne_hang _
    · exact Outcome.bind_ok_ne_hang (h.wait_ne_hang hc hci (by simp) _ _)
  · exact Outcome.ok_ne_hang _

theorem pipeWrite_ne_hang (h : Seated .run k) (hc : k.currentProcess = some c) (hci : c ≠ idle)
    {pp : PipeId} (hl : (k.pipes pp).lock = true) (buf : List UInt8) :
    pipeWrite k c pp buf ≠ .hang := by
  rw [pipeWrite_eq hl]
  split
  · split
    · exact Outcome.ok_ne_hang _
    · exact Outcome.bind_ok_ne_hang (h.wait_ne_hang hc hci (by simp) _ _)
  · exact Outcome.ok_ne_hang _

theorem readLine_ne_hang (h : Seated .run k) (hc : k.currentProcess = some c) (hci : c ≠ idle)
    (hn : nextLineLength k ≠ .hang) (count : Nat) (buf0 : UInt8) :
    readLine k c count buf0 ≠ .hang := by
  refine Outcome.bind_ne_hang hn fun n _ => ?_
  split
  · split
    · exact Outcome.ok_ne_hang _
    · refine Outcome.bind_ok_ne_hang ?_
      exact h.wait_ne_hang (w := .keyboard) hc hci (by simp) _ _
  · exact Outcome.ok_ne_hang _

theorem sleepHelper_ne_hang (h : Seated .run k) (hc : k.currentProcess ≠ some idle) (n : Nat) :
    sleepHelper k n ≠ .hang := by
  unfold sleepHelper
  split
  · exact Outcome.fault_ne_hang
  · rename_i c hc'
    dsimp only
    split
    · have hlink : Seated .run (linkSleeper k.alloc c (wakeUpTick k n)) :=
        (h.quiet (.alloc k)).of_base (.of_alloc rfl rfl rfl) fun w _ hmem => by
          cases w <;> exact hmem
      refine (hlink.suspend .sleep).blockCurrent_ne_hang (fun hc'' => hc ?_) .sleep .sleepers
      rw [suspend_currentProcess] at hc''
      exact hc''
    · exact Outcome.fault_ne_hang

theorem mySemWait_ne_hang (h : Seated .run k) (hfree : LocksFree k) (hc : k.currentProcess ≠ some idle)
    (id : Nat) : mySemWait k id ≠ .hang := by
  unfold mySemWait
  split
  · rename_i hopen
    have hacq := acquireSem_of_free (hfree.sem id (semIsOpen_inUse hopen))
    rw [hacq, Outcome.ok_bind]
    have h₁ := h.quiet (Quiet.acquireSem hacq)
    have hc₁ : (k.setSem id fun s => { s with lock := false }).currentProcess = k.currentProcess := rfl
    generalize k.setSem id (fun s => { s with lock := false }) = k₁ at h₁ hc₁
    split
    · exact Outcome.ok_ne_hang _
    · refine Outcome.bind_ok_ne_hang ?_
      cases hcur : k₁.currentProcess with
      | none =>
        have hnone : ∀ k₂ : Kernel, k₂.currentProcess = none → ∀ reason res pend,
            blockCurrent (k₂.suspend pend) reason res ≠ .hang := by
          intro k₂ hk reason res pend
          rw [blockCurrent, suspend_currentProcess, hk]
          exact Outcome.ok_ne_hang _
        refine hnone _ ?_ _ _ _
        exact hcur
      | some c =>
        have hci : c ≠ idle := fun hci => hc (hc₁.symm.trans (hcur.trans (congrArg some hci)))
        rw [← hcur, releaseSem_link hcur]
        exact (h₁.quiet (.releaseSem k₁ id)).wait_ne_hang hcur hci (by simp) _ _
  · exact Outcome.ok_ne_hang _

/-- `block_process_by_pid`, when it does not find `idle`. -/
theorem blockProcessByPid_ne_hang (h : Seated .run k) {pid : Int}
    (hb : blockTarget k (.sysBlock pid) ≠ some idle) :
    blockProcessByPid k (toPid pid) ≠ .hang := by
  refine Outcome.bind_ne_hang (getProcByPid_ne_hang k _) fun o ho => ?_
  cases o with
  | none => exact Outcome.ok_ne_hang _
  | some p =>
    have hp : p ≠ idle := by
      rintro rfl
      exact hb (by simp only [blockTarget, ho])
    dsimp only
    split
    · exact Outcome.ok_ne_hang _
    · split
      · exact Outcome.ok_ne_hang _
      · split
        · exact Outcome.bind_ok_ne_hang ((h.suspend .block).block_ne_hang hp _ _)
        · exact Outcome.bind_ok_ne_hang (h.block_ne_hang hp _ _)

end Seated

/-! ### Calls without a loop -/

theorem done_ne_hang (k : Kernel) (ret : Int) : done k ret ≠ .hang := Outcome.ok_ne_hang _

theorem procReap_ne_hang (k : Kernel) (p : ProcId) : procReap k p ≠ .hang := by
  unfold procReap
  dsimp only
  split
  · exact Outcome.ok_ne_hang _
  · exact Outcome.fault_ne_hang

theorem reparentAll_ne_hang (pids : List Int) : ∀ k : Kernel, reparentAll k pids ≠ .hang := by
  induction pids with
  | nil => exact fun _ => Outcome.ok_ne_hang _
  | cons pid rest ih =>
    intro k
    refine Outcome.bind_ne_hang (getProcByPid_ne_hang k _) fun o _ => ?_
    cases o with
    | none => exact ih k
    | some child =>
      refine Outcome.bind_ne_hang ?_ fun k₁ _ => ih k₁
      unfold reparentToInit
      split
      · exact Outcome.fault_ne_hang
      · dsimp only
        split <;> exact Outcome.ok_ne_hang _

theorem procKill_ne_hang (k : Kernel) (o : Option ProcId) (code : Int) :
    procKill k o code ≠ .hang := by
  unfold procKill
  split
  · exact Outcome.ok_ne_hang _
  · split
    · exact Outcome.ok_ne_hang _
    · refine Outcome.bind_ne_hang (reparentAll_ne_hang _ _) fun k₁ _ => ?_
      unfold killNotify
      split
      · exact procReap_ne_hang k₁ _
      · split <;> exact Outcome.ok_ne_hang _

theorem handleKeyPress_ne_hang (k : Kernel) (sc : Nat) : handleKeyPress k sc ≠ .hang := by
  unfold handleKeyPress
  split
  any_goals (intro h; cases h)
  split
  · exact Outcome.ok_ne_hang _
  · unfold handleKey
    split
    · exact Outcome.ok_ne_hang _
    · split
      · exact procKill_ne_hang k _ 0
      · split <;> exact Outcome.ok_ne_hang _

theorem findZombie_ne_hang (k : Kernel) (pids : List Int) : ∀ i, findZombie k pids i ≠ .hang := by
  induction pids with
  | nil => exact fun _ => Outcome.ok_ne_hang _
  | cons pid rest ih =>
    intro i
    refine Outcome.bind_ne_hang (getProcByPid_ne_hang k _) fun o _ => ?_
    cases o with
    | none => exact ih _
    | some child =>
      dsimp only
      split
      · exact Outcome.ok_ne_hang _
      · exact ih _

theorem collect_ne_hang (k : Kernel) (c : ProcId) (i : Nat) (child : ProcId) :
    collect k c i child ≠ .hang :=
  Outcome.bind_ok_ne_hang (procReap_ne_hang k child)

theorem sysSpawnProcess_ne_hang (k : Kernel) (a : SpawnArgs) : sysSpawnProcess k a ≠ .hang := by
  unfold sysSpawnProcess
  split
  · exact Outcome.ok_ne_hang _
  · dsimp only
    split
    · exact Outcome.ok_ne_hang _
    · refine Outcome.bind_ok_ne_hang ?_
      unfold execv
      dsimp only
      split
      · split
        · exact Outcome.ok_ne_hang _
        · exact Outcome.fault_ne_hang
      · exact Outcome.ok_ne_hang _

namespace Seated

theorem waitPidLoop_ne_hang (h : Seated .run k) (hc : k.currentProcess ≠ some idle) (c : ProcId)
    (pid : Int) : waitPidLoop k c pid ≠ .hang := by
  have hwait : waitChild k pid ≠ .hang := by
    refine Outcome.bind_ok_ne_hang ?_
    exact (h.suspend _).blockCurrent_ne_hang (suspend_currentProcess k _ ▸ hc) _ _
  unfold waitPidLoop
  split
  · refine Outcome.bind_ne_hang (findZombie_ne_hang k _ 0) fun o _ => ?_
    split
    · exact Outcome.bind_ok_ne_hang (collect_ne_hang k c _ _)
    · exact hwait
  · split
    · refine Outcome.bind_ne_hang (getProcByPid_ne_hang k pid) fun o _ => ?_
      split
      · exact Outcome.ok_ne_hang _
      · split
        · exact Outcome.bind_ok_ne_hang (collect_ne_hang k c _ _)
        · exact hwait
    · exact Outcome.ok_ne_hang _

theorem waitPid_ne_hang (h : Seated .run k) (hc : k.currentProcess ≠ some idle) (pid : Int) :
    waitPid k pid ≠ .hang := by
  unfold waitPid
  split
  · exact Outcome.fault_ne_hang
  · split
    · exact Outcome.ok_ne_hang _
    · exact h.waitPidLoop_ne_hang hc _ pid

/-- The process that exits is gone, and the timer is raised. -/
theorem sysExit_ne_hang (h : Seated .run k) (code : Int) : sysExit k code ≠ .hang := by
  refine Outcome.bind_ne_hang (procKill_ne_hang _ _ code) fun k₁ hk => ?_
  have h₁ : Seated .run k₁ := by
    refine (h.suspend .exit).does (fun _ _ _ _ ha => ha) (does_procKill common_sparesIdle ?_ hk)
    rintro p k₂ hp - rfl
    obtain ⟨-, hpid⟩ := Option.filter_eq_some_iff.mp hp
    simp [h.pid] at hpid
  exact Outcome.bind_ok_ne_hang h₁.callTimerTick_ne_hang

end Seated

/-! ### Every entry -/

/-- The loops outside the scheduler in which the kernel may be caught for ever. -/
inductive SpinsElsewhere (k : Kernel) (e : Event) : Prop
  /-- `acquire` of a pipe that has been given back. -/
  | pipe (pp : PipeId)
      (hcall : callQueue k e = some (.pipeReaders pp) ∨ callQueue k e = some (.pipeWriters pp))
      (hlock : (k.pipes pp).inUse = false ∧ (k.pipes pp).lock = false)
  /-- `ringbuf_find` of the end of a line. -/
  | line (hcall : callQueue k e = some .keyboard) (hfind : nextLineLength k = .hang)
  /-- The end of `sys_exit`. -/
  | exit (he : e = .resume) (hexit : k.unfinished = some .exit)

namespace Seated

theorem withFd_ne_hang {fd : Int} {f : ProcId → FdEntry → Outcome StepResult}
    (h : ∀ c d, k.currentProcess = some c → callerFd k fd = some d → f c d ≠ .hang) :
    withFd k fd f ≠ .hang := by
  unfold withFd
  split
  · rename_i hfd
    split
    · exact Outcome.ok_ne_hang _
    · rename_i c hc
      exact h c _ hc (by rw [callerFd, dif_pos hfd, hc]; rfl)
  · exact Outcome.ok_ne_hang _

/-- The lock of a pipe that a call is about to take is free, unless the call spins there. -/
theorem lock_of_elsewhere (hfree : LocksFree k) (helse : ¬ SpinsElsewhere k e) {pp : PipeId}
    (hcall : callQueue k e = some (.pipeReaders pp) ∨ callQueue k e = some (.pipeWriters pp)) :
    (k.pipes pp).lock = true := by
  by_contra hl
  refine helse (.pipe pp hcall ⟨?_, eq_false_of_ne_true hl⟩)
  exact eq_false_of_ne_true fun hu => hl (hfree.pipe pp hu)

theorem fdRead_ne_hang (h : Seated .run k) (hfree : LocksFree k) (hc : k.currentProcess = some c)
    (hci : c ≠ idle) {d : FdEntry} (hd : callQueue k e = d.readQueue)
    (helse : ¬ SpinsElsewhere k e) (count : Nat) (buf0 : UInt8) :
    fdRead k c d count buf0 ≠ .hang := by
  unfold FdEntry.readQueue at hd
  unfold fdRead
  split
  · rename_i pp hops hres
    rw [hops, hres] at hd
    have hl := lock_of_elsewhere hfree helse (.inl hd)
    exact Outcome.bind_ok_ne_hang (h.pipeRead_ne_hang hc hci hl count)
  · exact Outcome.fault_ne_hang
  · rename_i hops
    rw [hops] at hd
    refine Outcome.bind_ok_ne_hang ?_
    unfold readFromKeyboard
    split
    · exact Outcome.ok_ne_hang _
    · split
      · exact Outcome.ok_ne_hang _
      · exact h.readLine_ne_hang hc hci (fun hn => helse (.line hd hn)) count buf0
  · exact Outcome.ok_ne_hang _

theorem fdWrite_ne_hang (h : Seated .run k) (hfree : LocksFree k) (hc : k.currentProcess = some c)
    (hci : c ≠ idle) {d : FdEntry} (hd : callQueue k e = d.writeQueue)
    (helse : ¬ SpinsElsewhere k e) (buf : List UInt8) : fdWrite k c d buf ≠ .hang := by
  unfold FdEntry.writeQueue at hd
  unfold fdWrite
  split
  · rename_i pp hops hres
    rw [hops, hres] at hd
    have hl := lock_of_elsewhere hfree helse (.inr hd)
    exact Outcome.bind_ok_ne_hang (h.pipeWrite_ne_hang hc hci hl buf)
  · exact Outcome.fault_ne_hang
  all_goals exact done_ne_hang _ _

/-- A suspended call that goes on. -/
theorem resume_ne_hang (h : Seated .run k) (hfree : LocksFree k) (hc : k.currentProcess = some c)
    (hci : c ≠ idle) {w : Pending} (hw : k.kstack c = some w)
    (helse : ¬ SpinsElsewhere k .resume) : resume k c w ≠ .hang := by
  have hun : k.unfinished = some w := (unfinished_eq hc).trans hw
  have hq : callQueue k .resume = w.queue := by rw [callQueue, hun, Option.bind_some]
  have h₁ : Seated .run { k with kstack := Function.update k.kstack c none } :=
    Micro.seated (a := .finish c w) h trivial (.finish hc hw)
  cases w with
  | exit => exact fun _ => helse (.exit rfl hun)
  | pipeRead pp size =>
    have hl := lock_of_elsewhere hfree helse (.inl hq)
    exact Outcome.bind_ok_ne_hang (h₁.pipeRead_ne_hang hc hci hl size)
  | pipeWrite pp buf =>
    have hl := lock_of_elsewhere hfree helse (.inr hq)
    exact Outcome.bind_ok_ne_hang (h₁.pipeWrite_ne_hang hc hci hl buf)
  | waitPid pid =>
    have hc' : k.currentProcess ≠ some idle := fun hc' => hci (Option.some.inj (hc.symm.trans hc'))
    exact Outcome.bind_ok_ne_hang (h₁.waitPidLoop_ne_hang hc' c pid)
  | readLine count buf0 =>
    exact Outcome.bind_ok_ne_hang (h₁.readLine_ne_hang hc hci (fun hn => helse (.line hq hn)) count buf0)
  | yield | sleep | block | semWait id => exact Outcome.ok_ne_hang _

/-- The entries that another process makes. -/
theorem attempt_other (h : Seated .run k) (hfree : LocksFree k) (hc : k.currentProcess ≠ some idle)
    (hb : blockTarget k e ≠ some idle) (helse : ¬ SpinsElsewhere k e) : attempt k e ≠ .hang := by
  have hne : ∀ {c}, k.currentProcess = some c → c ≠ idle := fun hc' hi => hc (hi ▸ hc')
  cases e with
  | timer => exact Outcome.bind_ok_ne_hang h.callTimerTick_ne_hang
  | key sc => exact Outcome.bind_ok_ne_hang (handleKeyPress_ne_hang k sc)
  | resume =>
    cases hc' : k.currentProcess with
    | none => simp [attempt, hc']
    | some c =>
      cases hw : k.kstack c with
      | none => simp [attempt, hc', hw]
      | some w =>
        rw [attempt_resume hc' hw]
        exact h.resume_ne_hang hfree hc' (hne hc') hw helse
  | sysRead fd count buf0 =>
    exact withFd_ne_hang fun c d hc' hd => h.fdRead_ne_hang hfree hc' (hne hc')
      (by rw [callQueue, hd, Option.bind_some]) helse count buf0
  | sysWrite fd buf =>
    exact withFd_ne_hang fun c d hc' hd => h.fdWrite_ne_hang hfree hc' (hne hc')
      (by rw [callQueue, hd, Option.bind_some]) helse buf
  | sysSleep s => exact Outcome.bind_ok_ne_hang (h.sleepHelper_ne_hang hc _)
  | sysUsleep us =>
    show sysUsleep k us ≠ .hang
    unfold sysUsleep
    split
    · exact Outcome.ok_ne_hang _
    · exact Outcome.bind_ok_ne_hang (h.sleepHelper_ne_hang hc _)
  | sysSpawn a => exact Outcome.bind_ok_ne_hang (sysSpawnProcess_ne_hang k a)
  | sysKillProc pid =>
    show sysKillProc k pid ≠ .hang
    unfold sysKillProc
    split
    · exact Outcome.ok_ne_hang _
    · refine Outcome.bind_ne_hang (getProcByPid_ne_hang k _) fun o _ => ?_
      split
      · exact Outcome.ok_ne_hang _
      · exact Outcome.bind_ok_ne_hang (procKill_ne_hang k _ _)
  | sysChangePriority pid prio =>
    exact Outcome.bind_ok_ne_hang (getProcByPid_ne_hang k _)
  | sysExit code => exact h.sysExit_ne_hang code
  | sysBlock pid =>
    exact Outcome.bind_ok_ne_hang (h.blockProcessByPid_ne_hang hb)
  | sysUnblock pid =>
    refine Outcome.bind_ok_ne_hang ?_
    refine Outcome.bind_ne_hang (getProcByPid_ne_hang k _) fun o _ => ?_
    split
    · exact Outcome.ok_ne_hang _
    · split <;> exact Outcome.ok_ne_hang _
  | sysWaitPid pid => exact Outcome.bind_ok_ne_hang (h.waitPid_ne_hang hc _)
  | sysWait => exact Outcome.bind_ok_ne_hang (h.waitPid_ne_hang hc _)
  | sysYield =>
    exact Outcome.bind_ok_ne_hang (h.suspend .yield).yield_ne_hang
  | sysSemPost id =>
    obtain ⟨r, hr, -⟩ := mySemPost_leaves hfree id
    simp [attempt, enter, hr]
  | sysSemWait id =>
    exact Outcome.bind_ok_ne_hang (h.mySemWait_ne_hang hfree hc id)
  | sysSemTrywait id =>
    obtain ⟨r, hr, -⟩ := mySemTrywait_leaves hfree id
    simp [attempt, enter, hr]
  | sysPipeOpen id junk mode =>
    show sysPipeOpen k id junk mode ≠ .hang
    unfold sysPipeOpen
    split
    · exact done_ne_hang _ _
    · split
      · exact done_ne_hang _ _
      · split
        · exact done_ne_hang _ _
        · dsimp only
          split <;> exact done_ne_hang _ _
  | sysPipeCreate id junk =>
    show sysPipeCreate k id junk ≠ .hang
    unfold sysPipeCreate
    dsimp only
    split <;> exact done_ne_hang _ _
  | sysPipeClose id =>
    show sysPipeClose k id ≠ .hang
    unfold sysPipeClose
    split <;> exact done_ne_hang _ _
  | sysCloseFd fd =>
    show sysCloseFd k fd ≠ .hang
    unfold sysCloseFd
    split
    · exact done_ne_hang _ _
    · split <;> exact done_ne_hang _ _
  | user rsp | sysSetCanonical b | sysCreateSem id v | sysCloseSem id => exact Outcome.ok_ne_hang _

/-- **No entry that spares `idle`** spins in the scheduler. -/
theorem attempt_ne_hang (h : Seated .run k) (hfree : LocksFree k) (hok : SparesIdle k e)
    (helse : ¬ SpinsElsewhere k e) : attempt k e ≠ .hang := by
  by_cases hc : k.currentProcess = some idle
  · have hhalts := hok.halts hc
    cases e with
    | timer => exact Outcome.bind_ok_ne_hang h.callTimerTick_ne_hang
    | key sc => exact Outcome.bind_ok_ne_hang (handleKeyPress_ne_hang k sc)
    | user rsp => exact Outcome.ok_ne_hang _
    | _ => exact hhalts.elim
  · exact h.attempt_other hfree hc hok.block helse

end Seated

/-! ### Whole runs -/

/-- `idle` has been spawned, with memory for everything. -/
def idleAlone : Kernel :=
  (step (boot fun _ => true) (.sysSpawn { entry := some 1, fds := none, background := false })).elim
    (boot fun _ => true) Prod.fst

theorem idleAlone_spawned : IdleSpawned (fun _ => true) idleAlone :=
  ⟨{ entry := some 1, fds := none, background := false }, rfl, by decide⟩

/-- `init` is spawned, and comes up when the quantum of `idle` is used up. -/
def initComesUp : List Event :=
  [.sysSpawn { entry := some 2, fds := none, background := false }, .timer, .timer, .timer]

end TpeSo
