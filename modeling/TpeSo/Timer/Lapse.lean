import TpeSo.Timer.Clock

namespace TpeSo

open Ds Lib

/-!
# Timer — the clock over a step of the machine

A routine that neither blocks nor switches leaves the clock alone; the others make one tick
at their end.

* `clock_procKill`, `clock_sysSpawnProcess`, `clock_pipeRead`, … — one lemma for each;
* `step_timer`, `step_sleep`, `step_lapse` — **what each entry does to the clock.**
-/

variable {k k' : Kernel} {c p : ProcId} {pp : PipeId}

/-! ### Pipes and descriptors -/

theorem clock_wakeReaders (pp : PipeId) (n : Nat) : ∀ k : Kernel,
    (wakeReaders k pp n).clock = k.clock := by
  induction n with
  | zero => exact fun k => rfl
  | succ n ih => exact fun k => (ih _).trans (clock_procReady _ _)

theorem clock_freeUnreferenced (k : Kernel) (pp : PipeId) :
    (freeUnreferenced k pp).clock = k.clock := by
  unfold freeUnreferenced
  split <;> rfl

theorem clock_pipeCloseWrite (k : Kernel) (pp : PipeId) : (pipeCloseWrite k pp).clock = k.clock := by
  refine (clock_freeUnreferenced _ pp).trans ?_
  split
  · exact clock_wakeReaders pp _ _
  · rfl

theorem clock_closeSlot (k : Kernel) (p : ProcId) (i : Fin fdMax) :
    (closeSlot k p i).clock = k.clock := by
  show (fdClose k ((k.procs p).fds i)).clock = k.clock
  unfold fdClose
  split
  · exact clock_freeUnreferenced _ _
  · exact clock_pipeCloseWrite k _
  · rfl

theorem clock_closeFds (p : ProcId) (is : List (Fin fdMax)) :
    ∀ k : Kernel, (closeFds k p is).clock = k.clock := by
  induction is with
  | nil => exact fun k => rfl
  | cons i is ih => exact fun k => (ih _).trans (clock_closeSlot k p i)

theorem clock_acquirePipe (h : acquirePipe k pp = .ok k') : k'.clock = k.clock :=
  (Quiet.acquirePipe h).clock

theorem clock_pipeRead {size : Nat} {r : Kernel × Option (List UInt8)}
    (h : pipeRead k c pp size = .ok r) : Lapse k r.1 := by
  obtain ⟨k₁, hacq, h⟩ := Outcome.bind_eq_ok.mp h
  refine .after (clock_acquirePipe hacq) ?_
  split at h
  · split at h
    · cases h
      exact .inl rfl
    · obtain ⟨k₂, hb, he⟩ := Outcome.bind_eq_ok.mp h
      cases he
      have hblock := clock_blockCurrent_suspend hb
      exact hblock
  · cases h
    exact .inl (clock_procReady _ _)

theorem clock_pipeWrite {buf : List UInt8} {r : Kernel × Option Int}
    (h : pipeWrite k c pp buf = .ok r) : Lapse k r.1 := by
  obtain ⟨k₁, hacq, h⟩ := Outcome.bind_eq_ok.mp h
  refine .after (clock_acquirePipe hacq) ?_
  split at h
  · split at h
    · cases h
      exact .inl rfl
    · obtain ⟨k₂, hb, he⟩ := Outcome.bind_eq_ok.mp h
      cases he
      have hblock := clock_blockCurrent_suspend hb
      exact hblock
  · cases h
    exact .inl (clock_procReady _ _)

theorem clock_createPipe (k : Kernel) (id junk : List UInt8) :
    (createPipe k id junk).1.clock = k.clock := by
  unfold createPipe
  split
  · rfl
  · have halloc := (Quiet.allocAll 5 k).clock
    dsimp only
    split <;> exact halloc

theorem clock_openPipe (k : Kernel) (i : Fin fdMax) (id junk : List UInt8) (mode : Int) :
    (openPipe k c i id junk mode).1.clock = k.clock := by
  unfold openPipe
  split
  · rfl
  · have hr := clock_createPipe k id junk
    cases findPipeById k id with
    | some pp =>
      dsimp only
      split <;> rfl
    | none =>
      dsimp only
      split
      · exact hr
      · split <;> exact hr

/-! ### Death and birth -/

theorem clock_unlinkWaiting (k : Kernel) (p : ProcId) : (unlinkWaiting k p).clock = k.clock := by
  unfold unlinkWaiting
  split <;> rfl

theorem clock_killUnlink (k : Kernel) (p : ProcId) (code : Int) :
    (killUnlink k p code).clock = k.clock := by
  have hfg := (Quiet.setForegroundProcess k (k.procs p).parent (some p)).clock
  refine (clock_unlinkWaiting (rmCurrent _ p) p).trans (Eq.trans ?_ hfg)
  unfold rmCurrent
  split <;> rfl

theorem clock_killNotify (h : killNotify k p = .ok k') : k'.clock = k.clock := by
  unfold killNotify at h
  split at h
  · rw [procReap_eq_ok h]
    rfl
  · split at h
    · cases h
      exact clock_procReady k _
    · cases h
      rfl

theorem clock_procKill {proc : Option ProcId} {code : Int} (h : procKill k proc code = .ok k') :
    k'.clock = k.clock := by
  cases proc with
  | none =>
    cases h
    rfl
  | some p =>
    by_cases hpid : (k.procs p).pid = 0 ∨ (k.procs p).pid = 1
    · rw [procKill, if_pos hpid] at h
      cases h
      rfl
    · obtain ⟨k₁, hr, hn⟩ := procKill_eq_ok hpid h
      calc k'.clock = k₁.clock := clock_killNotify hn
        _ = (closeFds (killUnlink k p code) p (List.finRange fdMax)).clock :=
          (Quiet.reparentAll _ hr).clock
        _ = (killUnlink k p code).clock := clock_closeFds p _ _
        _ = k.clock := clock_killUnlink k p code

theorem clock_fdAddRef (k : Kernel) (e : FdEntry) : (fdAddRef k e).clock = k.clock := by
  unfold fdAddRef
  split <;> rfl

theorem clock_inheritLoop (s : ProcId) (fds : Fin fdMax → Int) (is : List (Fin fdMax)) :
    ∀ k : Kernel, (inheritLoop k p s fds is).clock = k.clock := by
  induction is with
  | nil => exact fun k => rfl
  | cons i is ih =>
    intro k
    unfold inheritLoop
    split
    · exact (ih _).trans (clock_fdAddRef k _)
    · rfl

theorem clock_initFds (k : Kernel) (p : ProcId) (parent : Option ProcId)
    (fds : Option (Fin fdMax → Int)) : (initFds k p parent fds).clock = k.clock := by
  unfold initFds
  split
  · unfold inheritFds
    split
    · rfl
    · exact clock_inheritLoop _ _ _ k
  · rfl

theorem clock_initFamily (k : Kernel) (p : ProcId) (parent : Option ProcId) (entry : Nat) :
    (initFamily k p parent entry).1.clock = k.clock := by
  unfold initFamily
  dsimp only
  split
  · rfl
  · split <;> rfl

theorem clock_procInit (k : Kernel) (p : ProcId) (a : SpawnArgs) (entry : Nat) :
    (procInit k p a entry).1.clock = k.clock := by
  unfold procInit
  split
  · rfl
  · dsimp only
    split
    · refine (clock_initFamily _ p _ entry).trans ?_
      refine (Quiet.initForeground _ p _ a.background).clock.trans ?_
      exact clock_initFds _ p _ a.fds
    · rfl

theorem clock_sysSpawnProcess {a : SpawnArgs} {r : Kernel × Int}
    (h : sysSpawnProcess k a = .ok r) : r.1.clock = k.clock := by
  have hnew : (procNew k).1.clock = k.clock := by
    unfold procNew
    split
    · rfl
    · dsimp only
      split <;> rfl
  unfold sysSpawnProcess at h
  split at h
  · cases h
    rfl
  · dsimp only at h
    split at h
    · cases h
      exact hnew
    · obtain ⟨k₁, he, h⟩ := Outcome.bind_eq_ok.mp h
      cases h
      exact (clock_procReady k₁ _).trans
        ((Quiet.execv he).clock.trans ((clock_procInit _ _ a _).trans hnew))

/-! ### Waiting for children -/

theorem clock_waitChild {pid : Int} {r : Kernel × Option WaitResult}
    (h : waitChild k pid = .ok r) : Lapse k r.1 := by
  obtain ⟨k₁, hb, he⟩ := Outcome.bind_eq_ok.mp h
  cases he
  exact clock_blockCurrent_suspend hb

theorem clock_collect {i : Nat} {child : ProcId} (h : collect k c i child = .ok k') :
    k'.clock = k.clock := by
  obtain ⟨k₁, hr, he⟩ := Outcome.bind_eq_ok.mp h
  cases he
  rw [procReap_eq_ok hr]
  rfl

theorem clock_waitPidLoop {pid : Int} {r : Kernel × Option WaitResult}
    (h : waitPidLoop k c pid = .ok r) : Lapse k r.1 := by
  unfold waitPidLoop at h
  split at h
  · obtain ⟨o, -, h⟩ := Outcome.bind_eq_ok.mp h
    split at h
    · obtain ⟨k₁, hcol, he⟩ := Outcome.bind_eq_ok.mp h
      cases he
      exact .still (clock_collect hcol)
    · exact clock_waitChild h
  · split at h
    · obtain ⟨o, -, h⟩ := Outcome.bind_eq_ok.mp h
      split at h
      · cases h
        exact .still rfl
      · split at h
        · obtain ⟨k₁, hcol, he⟩ := Outcome.bind_eq_ok.mp h
          cases he
          exact .still (clock_collect hcol)
        · exact clock_waitChild h
    · cases h
      exact .still rfl

theorem clock_waitPid {pid : Int} {r : Kernel × Option WaitResult}
    (h : waitPid k pid = .ok r) : Lapse k r.1 := by
  unfold waitPid at h
  split at h
  · cases h
  · split at h
    · cases h
      exact .still rfl
    · exact clock_waitPidLoop h

/-! ### The keyboard -/

theorem clock_wakeReader (k : Kernel) : (wakeReader k).clock = k.clock := clock_procReady _ _

theorem clock_handleCtrlD (k : Kernel) : (handleCtrlD k).clock = k.clock := by
  unfold handleCtrlD
  split
  · refine (clock_wakeReader _).trans ?_
    split <;> rfl
  · rfl

theorem clock_handleChar (k : Kernel) (ch : UInt8) : (handleChar k ch).clock = k.clock := by
  have hticks : ∀ k, (wakeReader k).ticks = k.ticks :=
    fun k => congrArg Alarm.now (clock_wakeReader k)
  have hsleep : ∀ k, (wakeReader k).sleepingProcs = k.sleepingProcs :=
    fun k => congrArg Alarm.pending (clock_wakeReader k)
  unfold handleChar Kernel.clock
  simp only [apply_ite Kernel.ticks, apply_ite Kernel.sleepingProcs, hticks, hsleep, kbuffPut,
    ite_self]

theorem clock_handleKeyPress {sc : Nat} (h : handleKeyPress k sc = .ok k') :
    k'.clock = k.clock := by
  unfold handleKeyPress at h
  split at h
  any_goals (cases h; rfl)
  split at h
  · cases h
    rfl
  · unfold handleKey at h
    split at h
    · cases h
      exact clock_handleCtrlD k
    · split at h
      · exact clock_procKill h
      · split at h
        · cases h
          rfl
        · cases h
          exact clock_handleChar k _

theorem clock_readLine {count : Nat} {buf0 : UInt8} {r : Kernel × Option LineResult}
    (h : readLine k c count buf0 = .ok r) : Lapse k r.1 := by
  obtain ⟨n, -, h⟩ := Outcome.bind_eq_ok.mp h
  split at h
  · split at h
    · cases h
      exact .still rfl
    · obtain ⟨k₁, hb, he⟩ := Outcome.bind_eq_ok.mp h
      cases he
      have hblock := clock_blockCurrent_suspend hb
      exact hblock
  · cases h
    exact .still (Quiet.getLine k count).clock

theorem clock_readFromKeyboard {count : Nat} {buf0 : UInt8} {r : Kernel × Option LineResult}
    (h : readFromKeyboard k c count buf0 = .ok r) : Lapse k r.1 := by
  unfold readFromKeyboard at h
  split at h
  · cases h
    exact .still rfl
  · split at h
    · cases h
      exact .still rfl
    · exact clock_readLine h

/-! ### Semaphores -/

theorem clock_mySemCreate (k : Kernel) (id v : Nat) : (mySemCreate k id v).1.clock = k.clock := by
  unfold mySemCreate
  split
  · dsimp only
    split <;> rfl
  · rfl

theorem clock_mySemDestroy (k : Kernel) (id : Nat) : (mySemDestroy k id).1.clock = k.clock := by
  unfold mySemDestroy
  split <;> rfl

theorem clock_mySemPost {id : Nat} {r : Kernel × Int} (h : mySemPost k id = .ok r) :
    r.1.clock = k.clock := by
  unfold mySemPost at h
  split at h
  · obtain ⟨k₁, hacq, h⟩ := Outcome.bind_eq_ok.mp h
    have hk₁ := (Quiet.acquireSem hacq).clock
    dsimp only at h
    split at h
    · cases h
      exact (clock_procReady _ _).trans hk₁
    · cases h
      exact hk₁
  · cases h
    rfl

theorem clock_mySemWait {id : Nat} {r : Kernel × Option Int} (h : mySemWait k id = .ok r) :
    Lapse k r.1 := by
  unfold mySemWait at h
  split at h
  · obtain ⟨k₁, hacq, h⟩ := Outcome.bind_eq_ok.mp h
    refine .after (Quiet.acquireSem hacq).clock ?_
    split at h
    · cases h
      exact .still rfl
    · obtain ⟨k₂, hb, he⟩ := Outcome.bind_eq_ok.mp h
      cases he
      have hblock := clock_blockCurrent_suspend hb
      exact hblock
  · cases h
    exact .still rfl

theorem clock_mySemTrywait {id : Nat} {r : Kernel × Int} (h : mySemTrywait k id = .ok r) :
    r.1.clock = k.clock := by
  unfold mySemTrywait at h
  split at h
  · obtain ⟨k₁, hacq, h⟩ := Outcome.bind_eq_ok.mp h
    refine Eq.trans ?_ (Quiet.acquireSem hacq).clock
    split at h
    · cases h
      rfl
    · cases h
      rfl
  · cases h
    rfl

theorem clock_changePriority (k : Kernel) (child : Option ProcId) (n : Int) :
    (changePriority k child n).1.clock = k.clock := by
  unfold changePriority
  split
  · rfl
  · dsimp only
    split
    · rfl
    · split <;> rfl

/-! ### Every entry -/

theorem clock_sysRead {fd : Int} {count : Nat} {buf0 : UInt8} {r : StepResult}
    (h : sysRead k fd count buf0 = .ok r) : Lapse k r.1 := by
  unfold sysRead withFd at h
  split at h
  · split at h
    · cases h
      exact .still rfl
    · dsimp only [fdRead] at h
      split at h
      · obtain ⟨r₁, hr₁, he⟩ := Outcome.bind_eq_ok.mp h
        cases he
        exact clock_pipeRead hr₁
      · cases h
      · obtain ⟨r₁, hr₁, he⟩ := Outcome.bind_eq_ok.mp h
        cases he
        exact clock_readFromKeyboard hr₁
      · cases h
        exact .still rfl
  · cases h
    exact .still rfl

theorem clock_sysWrite {fd : Int} {buf : List UInt8} {r : StepResult}
    (h : sysWrite k fd buf = .ok r) : Lapse k r.1 := by
  unfold sysWrite withFd at h
  split at h
  · split at h
    · cases h
      exact .still rfl
    · dsimp only [fdWrite] at h
      split at h
      · obtain ⟨r₁, hr₁, he⟩ := Outcome.bind_eq_ok.mp h
        cases he
        exact clock_pipeWrite hr₁
      · cases h
      all_goals
        cases h
        exact .still rfl
  · cases h
    exact .still rfl

theorem clock_sysPipeOpen {id junk : List UInt8} {mode : Int} {r : StepResult}
    (h : sysPipeOpen k id junk mode = .ok r) : r.1.clock = k.clock := by
  unfold sysPipeOpen at h
  split at h
  · cases h
    rfl
  · split at h
    · cases h
      rfl
    · split at h
      · cases h
        rfl
      · rename_i c _ _ i _
        have hopen := clock_openPipe (c := c) k i id junk mode
        dsimp only at h
        split at h
        · cases h
          exact hopen
        · cases h
          exact hopen

theorem clock_sysKillProc {pid : Int} {r : StepResult} (h : sysKillProc k pid = .ok r) :
    r.1.clock = k.clock := by
  unfold sysKillProc at h
  split at h
  · cases h
    rfl
  · obtain ⟨o, -, h⟩ := Outcome.bind_eq_ok.mp h
    split at h
    · cases h
      rfl
    · obtain ⟨k₁, hk, he⟩ := Outcome.bind_eq_ok.mp h
      cases he
      exact clock_procKill hk

/-- `sys_exit` kills its caller, and the switch away from it is one tick. -/
theorem clock_sysExit {code : Int} {r : StepResult} (h : sysExit k code = .ok r) :
    r.1.clock = tickClock k.clock := by
  obtain ⟨k₁, hk, h⟩ := Outcome.bind_eq_ok.mp h
  obtain ⟨k₂, ht, he⟩ := Outcome.bind_eq_ok.mp h
  cases he
  refine (clock_callTimerTick ht).trans (congrArg tickClock ?_)
  exact (clock_procKill hk).trans (clock_suspend k .exit)

/-- `sys_yield` is one tick. -/
theorem clock_sysYield {r : StepResult} (h : sysYield k = .ok r) :
    r.1.clock = tickClock k.clock := by
  obtain ⟨k₁, hy, he⟩ := Outcome.bind_eq_ok.mp h
  cases he
  exact (clock_yield hy).trans (congrArg tickClock (clock_suspend k .yield))

/-- **Entries that begin no sleep**: the clock stands still or makes one tick. -/
theorem clock_enter {e : Event} {r : StepResult} (he : sleepTick k e = none)
    (h : enter k e = .ok r) : Lapse k r.1 := by
  cases e with
  | timer =>
    obtain ⟨k₁, hk, h⟩ := Outcome.bind_eq_ok.mp h
    cases h
    exact .inr (clock_callTimerTick hk)
  | key sc =>
    obtain ⟨k₁, hk, h⟩ := Outcome.bind_eq_ok.mp h
    cases h
    exact .still (clock_handleKeyPress hk)
  | user rsp => cases h; exact .still rfl
  | resume => cases h
  | sysRead fd count buf0 => exact clock_sysRead h
  | sysWrite fd buf => exact clock_sysWrite h
  | sysSleep s => cases he
  | sysUsleep us =>
    simp only [enter, sysUsleep] at h
    split at h
    · cases h
      exact .still rfl
    · rename_i hz
      simp [sleepTick, hz] at he
  | sysPipeCreate id junk =>
    have hcreate := clock_createPipe k id junk
    simp only [enter, sysPipeCreate] at h
    split at h
    · cases h
      exact .still hcreate
    · cases h
      exact .still hcreate
  | sysPipeOpen id junk mode => exact .still (clock_sysPipeOpen h)
  | sysPipeClose id =>
    simp only [enter, sysPipeClose] at h
    split at h
    · cases h
      exact .still rfl
    · cases h
      exact .still rfl
  | sysSpawn a =>
    obtain ⟨r₁, hr₁, h⟩ := Outcome.bind_eq_ok.mp h
    cases h
    exact .still (clock_sysSpawnProcess hr₁)
  | sysKillProc pid => exact .still (clock_sysKillProc h)
  | sysChangePriority pid prio =>
    obtain ⟨o, -, h⟩ := Outcome.bind_eq_ok.mp h
    cases h
    exact .still (clock_changePriority k o prio)
  | sysExit code => exact .inr (clock_sysExit h)
  | sysBlock pid =>
    obtain ⟨r₁, hr₁, h⟩ := Outcome.bind_eq_ok.mp h
    cases h
    exact clock_blockProcessByPid hr₁
  | sysUnblock pid =>
    obtain ⟨r₁, hr₁, h⟩ := Outcome.bind_eq_ok.mp h
    cases h
    exact .still (clock_unblockProcessByPid hr₁)
  | sysCloseFd fd =>
    simp only [enter, sysCloseFd] at h
    split at h
    · cases h
      exact .still rfl
    · split at h
      · cases h
        exact .still (clock_closeSlot k _ _)
      · cases h
        exact .still rfl
  | sysWaitPid pid =>
    obtain ⟨r₁, hr₁, h⟩ := Outcome.bind_eq_ok.mp h
    cases h
    exact clock_waitPid hr₁
  | sysWait =>
    obtain ⟨r₁, hr₁, h⟩ := Outcome.bind_eq_ok.mp h
    cases h
    exact clock_waitPid hr₁
  | sysYield => exact .inr (clock_sysYield h)
  | sysSetCanonical b => cases h; exact .still rfl
  | sysCreateSem id v => cases h; exact .still (clock_mySemCreate k id v)
  | sysCloseSem id => cases h; exact .still (clock_mySemDestroy k id)
  | sysSemPost id =>
    obtain ⟨r₁, hr₁, h⟩ := Outcome.bind_eq_ok.mp h
    cases h
    exact .still (clock_mySemPost hr₁)
  | sysSemWait id =>
    obtain ⟨r₁, hr₁, h⟩ := Outcome.bind_eq_ok.mp h
    cases h
    exact clock_mySemWait hr₁
  | sysSemTrywait id =>
    obtain ⟨r₁, hr₁, h⟩ := Outcome.bind_eq_ok.mp h
    cases h
    exact .still (clock_mySemTrywait hr₁)

/-- Going on with a suspended system call. -/
theorem clock_resume {w : Pending} {r : StepResult} (h : resume k c w = .ok r) : Lapse k r.1 := by
  have hk : ({ k with kstack := Function.update k.kstack c none } : Kernel).clock = k.clock := rfl
  cases w with
  | yield => cases h; exact .still rfl
  | sleep => cases h; exact .still rfl
  | block => cases h; exact .still rfl
  | exit => cases h
  | semWait id => cases h; exact .still rfl
  | pipeRead pp size =>
    obtain ⟨r₁, hr₁, h⟩ := Outcome.bind_eq_ok.mp h
    cases h
    exact .after hk (clock_pipeRead hr₁)
  | pipeWrite pp buf =>
    obtain ⟨r₁, hr₁, h⟩ := Outcome.bind_eq_ok.mp h
    cases h
    exact .after hk (clock_pipeWrite hr₁)
  | waitPid pid =>
    obtain ⟨r₁, hr₁, h⟩ := Outcome.bind_eq_ok.mp h
    cases h
    exact .after hk (clock_waitPidLoop hr₁)
  | readLine count buf0 =>
    obtain ⟨r₁, hr₁, h⟩ := Outcome.bind_eq_ok.mp h
    cases h
    exact .after hk (clock_readLine hr₁)

/-! ### Every step -/

theorem step_lapse {e : Event} {o : Option Completion} (he : sleepTick k e = none)
    (h : step k e = some (k', o)) : Lapse k k' := by
  rcases step_eq_some h with ⟨-, -, h⟩ | ⟨rfl, c, w, -, -, h⟩
  · exact clock_enter he h
  · exact clock_resume h

/-- The hardware timer is one tick. -/
theorem step_timer {o : Option Completion} (h : step k .timer = some (k', o)) :
    k'.clock = tickClock k.clock := by
  rcases step_eq_some h with ⟨-, -, h⟩ | ⟨he, -⟩
  · obtain ⟨k₁, hk, h⟩ := Outcome.bind_eq_ok.mp h
    cases h
    exact clock_callTimerTick hk
  · cases he

/-- A step that begins a sleep appends the entry and makes one tick. -/
theorem step_sleep {e : Event} {o : Option Completion} {t : Nat} (he : sleepTick k e = some t)
    (h : step k e = some (k', o)) : ∃ c node, k.currentProcess = some c ∧
      k'.clock = tickClock ⟨k.ticks, enqueue node k.sleepingProcs (sleepEntry k c t)⟩ := by
  rcases step_eq_some h with ⟨-, -, h⟩ | ⟨rfl, -⟩
  · cases e with
    | sysSleep s =>
      cases he
      obtain ⟨k₁, hk, h⟩ := Outcome.bind_eq_ok.mp h
      cases h
      exact clock_sleepHelper hk
    | sysUsleep us =>
      simp only [sleepTick] at he
      split at he
      · cases he
      · rename_i hz
        cases he
        simp only [enter, sysUsleep, hz, if_false] at h
        obtain ⟨k₁, hk, h⟩ := Outcome.bind_eq_ok.mp h
        cases h
        exact clock_sleepHelper hk
    | _ => cases he
  · cases he

end TpeSo
