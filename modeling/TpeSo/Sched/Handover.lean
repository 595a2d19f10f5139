import TpeSo.Sched.Prelude

namespace TpeSo

open Ds Lib

/-!
# Scheduling — a step hands the processor on once at most

* `Handover S k k'` — a prelude, perhaps followed by one timer interrupt;
* `Handover.pipeRead`, `Handover.waitPid`, … — the system calls that may give up the processor;
* `Touched k e` — the processes a step may take out of the ready queue itself: its caller, the one
  it kills, and the one it blocks;
* `step_handover` — **every step but a change of priority is a handover**.
-/

variable {k k' k₁ k₂ : Kernel} {c p : ProcId} {pp : PipeId} {e : Event} {S : Scope}
  {o : Option Completion}

/-- A prelude, and then a timer interrupt if the processor is given up. -/
def Handover (S : Scope) (k k' : Kernel) : Prop :=
  Prelude S k k' ∨ ∃ k₁, Prelude S k k₁ ∧
    (k₁.currentProcess = k.currentProcess ∨ ∃ c, k.currentProcess = some c ∧ S.dies c) ∧
    callTimerTick k₁ = .ok k'

namespace Handover

theorem of_turn (h : k'.turn = k.turn) : Handover S k k' := .inl (.of_turn h)

/-- A prelude in front of a handover. -/
theorem after (h : Prelude S k k₁) (hcur : k₁.currentProcess = k.currentProcess)
    (g : Handover S k₁ k') : Handover S k k' := by
  rcases g with hk | ⟨k₂, hk, hlate, ht⟩
  · exact .inl (h.trans hk)
  · rw [hcur] at hlate
    exact .inr ⟨k₂, h.trans hk, hlate, ht⟩

/-! ### Giving up the processor -/

theorem yield (h : yield k = .ok k') : Handover S k k' := by
  unfold TpeSo.yield at h
  split at h
  · cases h
  · rename_i c hc
    have hgive : Prelude S k (k.setProc c fun q => { q with hasQuantum := 0 }) := by
      refine ⟨fun q hq => ?_, fun q => ?_, .inl rfl, fun _ _ hq => ⟨hq, Nat.le_refl _⟩, rfl,
        fun q _ _ => k.setProc_spares (p := c) (f := fun q => { q with hasQuantum := 0 })
          Proc.stackPointer rfl q, .inl rfl, rfl⟩
      · have hpaced : ∀ x : Proc, x.Paced → { x with hasQuantum := 0 }.Paced := fun _ hx => hx
        by_cases hqc : q = c
        · subst hqc
          rw [Kernel.procs_setProc_self]
          exact hpaced _ hq
        · rwa [Kernel.procs_setProc_ne k hqc]
      · by_cases hqc : q = c
        · subst hqc
          simp
        · rw [Kernel.procs_setProc_ne k hqc]
    exact .inr ⟨_, hgive, .inl rfl, h⟩

theorem block (hp : S.leaves p) {reason : BlockReason} {res : WaitRef}
    (h : block k p reason res = .ok k') : Handover S k k' := by
  have hmark : Prelude S k (markBlocked k p reason res) := .markBlocked k hp reason res
  unfold TpeSo.block at h
  dsimp only at h
  split at h
  · cases h
    exact .inl hmark
  · split at h
    · exact .after hmark rfl (yield h)
    · cases h
      exact .inl hmark

/-- Only the current process blocks itself. -/
theorem blockCurrent (hS : ∀ c, k.currentProcess = some c → S.leaves c) {reason : BlockReason}
    {res : WaitRef} (h : blockCurrent k reason res = .ok k') : Handover S k k' := by
  unfold TpeSo.blockCurrent at h
  split at h
  · cases h
    exact .of_turn rfl
  · rename_i c hc
    exact block (hS c hc) h

/-- The same, with something in front of it, and after a note on the kernel stack. -/
theorem blockSuspended (hS : ∀ c, k.currentProcess = some c → S.leaves c) {reason : BlockReason}
    {res : WaitRef} {w : Pending}
    (h : TpeSo.blockCurrent (k₁.suspend w) reason res = .ok k') (hk : Prelude S k k₁)
    (hcur : k₁.currentProcess = k.currentProcess) : Handover S k k' := by
  have hsame := (suspend_currentProcess k₁ w).trans hcur
  exact .after (hk.trans (.suspend k₁ w)) hsame
    (blockCurrent (fun c hc => hS c (hsame.symm.trans hc)) h)

theorem blockProcessByPid {pid : Int} {r : Kernel × Option Int}
    (hS : ∀ p, getProcByPid k pid = .ok (some p) → S.leaves p)
    (h : blockProcessByPid k pid = .ok r) : Handover S k r.1 := by
  obtain ⟨proc, hproc, h⟩ := Outcome.bind_eq_ok.mp h
  split at h
  · cases h
    exact .of_turn rfl
  · rename_i p
    have hp : S.leaves p := hS p hproc
    split at h
    · cases h
      exact .of_turn rfl
    · split at h
      · cases h
        exact .of_turn rfl
      · split at h
        · obtain ⟨k₁, hb, he⟩ := Outcome.bind_eq_ok.mp h
          cases he
          exact .after (.suspend k .block) (suspend_currentProcess k .block) (block hp hb)
        · obtain ⟨k₁, hb, he⟩ := Outcome.bind_eq_ok.mp h
          cases he
          exact block hp hb

variable (hS : ∀ c, k.currentProcess = some c → S.leaves c)

include hS

theorem sleepHelper {n : Nat} (h : sleepHelper k n = .ok k') : Handover S k k' := by
  unfold TpeSo.sleepHelper at h
  split at h
  · cases h
  · dsimp only at h
    split at h
    · rename_i c hc _
      have hqueue : Prelude S k { k.alloc.alloc with
        sleepingProcs := enqueue k.alloc.kmalloc k.alloc.alloc.sleepingProcs
          { pid := (k.procs c).pid, wakeUpTick := wakeUpTick k.alloc.alloc n } } := .of_turn rfl
      exact blockSuspended hS h hqueue rfl
    · cases h

/-! ### Waiting for a pipe, for a semaphore, for a child and for a line -/

theorem pipeRead {size : Nat} {r : Kernel × Option (List UInt8)}
    (h : pipeRead k c pp size = .ok r) : Handover S k r.1 := by
  obtain ⟨k₁, hacq, h⟩ := Outcome.bind_eq_ok.mp h
  have hcur : k₁.currentProcess = k.currentProcess := (Quiet.acquirePipe hacq).current
  have hlock : Prelude S k k₁ := .acquirePipe hacq
  split at h
  · split at h
    · cases h
      exact .inl (hlock.trans (.of_turn rfl))
    · obtain ⟨k₂, hb, he⟩ := Outcome.bind_eq_ok.mp h
      cases he
      exact blockSuspended hS hb (hlock.trans (.of_turn rfl)) hcur
  · cases h
    have hserve : Prelude S k₁ (k₁.setPipe pp fun q => { q with
        buffer := (ringbufRead (k₁.pipes pp).buffer size).1
        writersWaitQueue := (dequeue (k₁.pipes pp).writersWaitQueue).2 }) := .of_turn rfl
    exact .inl (hlock.trans (hserve.trans ((Prelude.procReady _ _).trans (.of_turn rfl))))

theorem pipeWrite {buf : List UInt8} {r : Kernel × Option Int}
    (h : pipeWrite k c pp buf = .ok r) : Handover S k r.1 := by
  obtain ⟨k₁, hacq, h⟩ := Outcome.bind_eq_ok.mp h
  have hcur : k₁.currentProcess = k.currentProcess := (Quiet.acquirePipe hacq).current
  have hlock : Prelude S k k₁ := .acquirePipe hacq
  split at h
  · split at h
    · cases h
      exact .inl (hlock.trans (.of_turn rfl))
    · obtain ⟨k₂, hb, he⟩ := Outcome.bind_eq_ok.mp h
      cases he
      exact blockSuspended hS hb (hlock.trans (.of_turn rfl)) hcur
  · cases h
    have hserve : Prelude S k₁ (k₁.setPipe pp fun q => { q with
        buffer := (ringbufWrite (k₁.pipes pp).buffer buf).1
        readersWaitQueue := (dequeue (k₁.pipes pp).readersWaitQueue).2 }) := .of_turn rfl
    exact .inl (hlock.trans (hserve.trans ((Prelude.procReady _ _).trans (.of_turn rfl))))

theorem mySemWait {id : Nat} {r : Kernel × Option Int} (h : mySemWait k id = .ok r) :
    Handover S k r.1 := by
  unfold TpeSo.mySemWait at h
  split at h
  · obtain ⟨k₁, hacq, h⟩ := Outcome.bind_eq_ok.mp h
    have hcur : k₁.currentProcess = k.currentProcess := (Quiet.acquireSem hacq).current
    have hturn : k₁.turn = k.turn := by
      unfold acquireSem at hacq
      split at hacq
      · cases hacq
        rfl
      · cases hacq
    have hlock : Prelude S k k₁ := .of_turn hturn
    split at h
    · cases h
      exact .inl (hlock.trans (.of_turn rfl))
    · obtain ⟨k₂, hb, he⟩ := Outcome.bind_eq_ok.mp h
      cases he
      exact blockSuspended hS hb (hlock.trans (.of_turn rfl)) hcur
  · cases h
    exact .of_turn rfl

theorem waitChild {pid : Int} {r : Kernel × Option WaitResult}
    (h : waitChild k pid = .ok r) : Handover S k r.1 := by
  obtain ⟨k₁, hb, he⟩ := Outcome.bind_eq_ok.mp h
  cases he
  exact blockSuspended hS hb (.refl k) rfl

theorem waitPidLoop {pid : Int} {r : Kernel × Option WaitResult}
    (h : waitPidLoop k c pid = .ok r) : Handover S k r.1 := by
  have hcollect : ∀ {i : Nat} {child : ProcId} {k₁ : Kernel}, collect k c i child = .ok k₁ →
      Handover S k k₁ := by
    intro i child k₁ hcol
    obtain ⟨k₂, hr, he⟩ := Outcome.bind_eq_ok.mp hcol
    cases he
    exact .inl ((Prelude.procReap hr).trans (.setProc _ c rfl))
  unfold TpeSo.waitPidLoop at h
  split at h
  · obtain ⟨found, -, h⟩ := Outcome.bind_eq_ok.mp h
    split at h
    · obtain ⟨k₁, hcol, he⟩ := Outcome.bind_eq_ok.mp h
      cases he
      exact hcollect hcol
    · exact waitChild hS h
  · split at h
    · obtain ⟨found, -, h⟩ := Outcome.bind_eq_ok.mp h
      split at h
      · cases h
        exact .of_turn rfl
      · split at h
        · obtain ⟨k₁, hcol, he⟩ := Outcome.bind_eq_ok.mp h
          cases he
          exact hcollect hcol
        · exact waitChild hS h
    · cases h
      exact .of_turn rfl

theorem waitPid {pid : Int} {r : Kernel × Option WaitResult}
    (h : waitPid k pid = .ok r) : Handover S k r.1 := by
  unfold TpeSo.waitPid at h
  split at h
  · cases h
  · split at h
    · cases h
      exact .of_turn rfl
    · exact waitPidLoop hS h

theorem readLine {count : Nat} {buf0 : UInt8} {r : Kernel × Option LineResult}
    (h : readLine k c count buf0 = .ok r) : Handover S k r.1 := by
  obtain ⟨n, -, h⟩ := Outcome.bind_eq_ok.mp h
  split at h
  · split at h
    · cases h
      exact .of_turn rfl
    · obtain ⟨k₁, hb, he⟩ := Outcome.bind_eq_ok.mp h
      cases he
      exact blockSuspended hS hb (.of_turn rfl) rfl
  · cases h
    refine .of_turn ?_
    unfold getLine
    split
    · dsimp only
      split <;> rfl
    · rfl

theorem readFromKeyboard {count : Nat} {buf0 : UInt8} {r : Kernel × Option LineResult}
    (h : readFromKeyboard k c count buf0 = .ok r) : Handover S k r.1 := by
  unfold TpeSo.readFromKeyboard at h
  split at h
  · cases h
    exact .of_turn rfl
  · split at h
    · cases h
      exact .of_turn rfl
    · exact readLine hS h

end Handover

/-! ### The keyboard and the semaphores -/

namespace Prelude

/-- What a step does before it wakes the reader of the keyboard. -/
theorem wakeReader (h : Prelude S k k₁) : Prelude S k (wakeReader k₁) :=
  have hpop : Prelude S k₁ { k₁ with keyboardQueue := (dequeue k₁.keyboardQueue).2 } := .of_turn rfl
  h.trans (hpop.trans (.procReady _ _))

theorem wakeRaw (h : Prelude S k k₁) : Prelude S k (wakeRaw k₁) := by
  unfold TpeSo.wakeRaw
  split
  · exact wakeReader h
  · exact h

theorem handleCtrlD (k : Kernel) : Prelude S k (handleCtrlD k) := by
  unfold TpeSo.handleCtrlD
  split
  · refine wakeReader (.of_turn ?_)
    split <;> rfl
  · exact .refl k

theorem putLine (k : Kernel) (ch : UInt8) : Prelude S k (putLine k ch) := by
  have hput : Prelude S k (kbuffPut k ch) := .of_turn rfl
  unfold TpeSo.putLine
  dsimp only
  split
  · exact (wakeReader hput).trans (.of_turn rfl)
  · exact hput.trans (.of_turn rfl)

theorem handleChar (k : Kernel) (ch : UInt8) : Prelude S k (handleChar k ch) := by
  rw [handleChar_eq]
  split
  · split <;> exact .of_turn rfl
  · split
    · exact .of_turn (by simp only [putTab, kbuffPut, Kernel.turn])
    · split
      · exact wakeRaw (putLine k newline)
      · split
        · exact wakeRaw (.of_turn rfl)
        · exact wakeRaw (.refl k)

theorem handleKeyPress {sc : Nat} (hS : ∀ p ∈ killTarget k (.key sc), S.leaves p)
    (h : handleKeyPress k sc = .ok k') : Prelude S k k' := by
  rcases handleKeyPress_cases h with ⟨-, rfl | ⟨ch, rfl⟩ | ⟨_, _, _, _, _, rfl⟩⟩ | ⟨hctrl, hk⟩
  · exact handleCtrlD k
  · exact handleChar k ch
  · exact .of_turn rfl
  · refine procKill (fun p hp => hS p ?_) hk
    simpa only [killTarget, hctrl, and_self, if_true] using hp

theorem mySemCreate (k : Kernel) (id v : Nat) : Prelude S k (mySemCreate k id v).1 := by
  unfold TpeSo.mySemCreate
  split
  · dsimp only
    split <;> exact .of_turn rfl
  · exact .refl k

theorem mySemDestroy (k : Kernel) (id : Nat) : Prelude S k (mySemDestroy k id).1 := by
  unfold TpeSo.mySemDestroy
  split
  · exact .of_turn rfl
  · exact .refl k

theorem acquireSem {id : Nat} (h : acquireSem k id = .ok k') : Prelude S k k' := by
  unfold TpeSo.acquireSem at h
  split at h
  · cases h
    exact .of_turn rfl
  · cases h

theorem mySemPost {id : Nat} {r : Kernel × Int} (h : mySemPost k id = .ok r) :
    Prelude S k r.1 := by
  unfold TpeSo.mySemPost at h
  split at h
  · obtain ⟨k₁, hacq, h⟩ := Outcome.bind_eq_ok.mp h
    refine (acquireSem hacq).trans ?_
    dsimp only at h
    split at h
    · rename_i p _
      cases h
      have hpop : Prelude S k₁ (releaseSem (k₁.setSem id fun s =>
          { s with waitingQueue := (dequeue (k₁.semaphores id).waitingQueue).2 }) id) :=
        .of_turn rfl
      exact hpop.trans (procReady _ (some p))
    · cases h
      exact .of_turn rfl
  · cases h
    exact .refl k

theorem mySemTrywait {id : Nat} {r : Kernel × Int} (h : mySemTrywait k id = .ok r) :
    Prelude S k r.1 := by
  unfold TpeSo.mySemTrywait at h
  split at h
  · obtain ⟨k₁, hacq, h⟩ := Outcome.bind_eq_ok.mp h
    refine (acquireSem hacq).trans ?_
    split at h
    · cases h
      exact .of_turn rfl
    · cases h
      exact .of_turn rfl
  · cases h
    exact .refl k

end Prelude

/-! ### Every step -/

/-- The processes a step may take out of the ready queue: its caller, its victim, and the one it
    blocks. -/
def Touched (k : Kernel) (e : Event) (p : ProcId) : Prop :=
  k.currentProcess = some p ∨ killTarget k e = some p ∨ blockTarget k e = some p

/-- Whom a step may concern. -/
def Event.scope (k : Kernel) (e : Event) : Scope where
  leaves := Touched k e
  dies p := killTarget k e = some p
  newborn :=
    match e with
    | .sysSpawn _ => some k.nextProc
    | _ => none

namespace Handover

theorem withFd {fd : Int} {f : ProcId → FdEntry → Outcome StepResult} {r : StepResult}
    (hf : ∀ c d r, f c d = .ok r → Handover S k r.1) (h : withFd k fd f = .ok r) :
    Handover S k r.1 := by
  unfold TpeSo.withFd at h
  split at h
  · split at h
    · cases h
      exact .of_turn rfl
    · exact hf _ _ r h
  · cases h
    exact .of_turn rfl

theorem fdRead (hS : ∀ c, k.currentProcess = some c → S.leaves c) {d : FdEntry} {count : Nat}
    {buf0 : UInt8} {r : StepResult} (h : fdRead k c d count buf0 = .ok r) : Handover S k r.1 := by
  unfold TpeSo.fdRead at h
  split at h
  · obtain ⟨r₁, hr, he⟩ := Outcome.bind_eq_ok.mp h
    cases he
    exact pipeRead hS hr
  · cases h
  · obtain ⟨r₁, hr, he⟩ := Outcome.bind_eq_ok.mp h
    cases he
    exact readFromKeyboard hS hr
  · cases h
    exact .of_turn rfl

theorem fdWrite (hS : ∀ c, k.currentProcess = some c → S.leaves c) {d : FdEntry} {buf : List UInt8}
    {r : StepResult} (h : fdWrite k c d buf = .ok r) : Handover S k r.1 := by
  unfold TpeSo.fdWrite at h
  split at h
  · obtain ⟨r₁, hr, he⟩ := Outcome.bind_eq_ok.mp h
    cases he
    exact pipeWrite hS hr
  · cases h
  all_goals
    cases h
    exact .of_turn rfl

theorem sysPipeOpen {id junk : List UInt8} {mode : Int} {r : StepResult}
    (h : sysPipeOpen k id junk mode = .ok r) : Prelude S k r.1 := by
  unfold TpeSo.sysPipeOpen at h
  split at h
  · cases h
    exact .refl k
  · split at h
    · cases h
      exact .refl k
    · split at h
      · cases h
        exact .refl k
      · dsimp only at h
        split at h <;> cases h <;> exact .openPipe k _ _ id junk mode

/-- A system call entered from user mode, a change of priority apart. -/
theorem enter {r : StepResult} (hprio : ∀ pid prio, e ≠ .sysChangePriority pid prio)
    (huser : ∀ rsp, e ≠ .user rsp)
    (h : enter k e = .ok r) : Handover (e.scope k) k r.1 := by
  have hS : ∀ c, k.currentProcess = some c → (e.scope k).leaves c := fun _ => .inl
  cases e with
  | timer =>
    obtain ⟨k₁, ht, he⟩ := Outcome.bind_eq_ok.mp h
    cases he
    exact .inr ⟨k, .refl k, .inl rfl, ht⟩
  | key sc =>
    obtain ⟨k₁, hk, he⟩ := Outcome.bind_eq_ok.mp h
    cases he
    exact .inl (.handleKeyPress (fun p hp => .inr (.inl hp)) hk)
  | user rsp => exact absurd rfl (huser rsp)
  | resume => cases h
  | sysRead fd count buf0 =>
    change sysRead k fd count buf0 = .ok r at h
    exact withFd (fun _ _ _ hr => fdRead hS hr) h
  | sysWrite fd buf =>
    change sysWrite k fd buf = .ok r at h
    exact withFd (fun _ _ _ hr => fdWrite hS hr) h
  | sysSleep s =>
    obtain ⟨k₁, hk, he⟩ := Outcome.bind_eq_ok.mp h
    cases he
    exact sleepHelper hS hk
  | sysUsleep us =>
    simp only [TpeSo.enter, sysUsleep] at h
    split at h
    · cases h
      exact .of_turn rfl
    · obtain ⟨k₁, hk, he⟩ := Outcome.bind_eq_ok.mp h
      cases he
      exact sleepHelper hS hk
  | sysPipeCreate id junk =>
    have hcreate : Prelude (Event.scope k (.sysPipeCreate id junk)) k (createPipe k id junk).1 :=
      .createPipe k id junk
    simp only [TpeSo.enter, sysPipeCreate] at h
    split at h <;> cases h <;> exact .inl hcreate
  | sysPipeOpen id junk mode => exact .inl (sysPipeOpen h)
  | sysPipeClose id =>
    simp only [TpeSo.enter, sysPipeClose] at h
    split at h <;> cases h <;> exact .of_turn rfl
  | sysSpawn a =>
    obtain ⟨r₁, hr, he⟩ := Outcome.bind_eq_ok.mp h
    cases he
    exact .inl (.sysSpawnProcess rfl hr)
  | sysKillProc pid =>
    simp only [TpeSo.enter, sysKillProc] at h
    split at h
    · cases h
      exact .of_turn rfl
    · rename_i hpid
      obtain ⟨proc, hproc, h⟩ := Outcome.bind_eq_ok.mp h
      split at h
      · cases h
        exact .of_turn rfl
      · rename_i p
        obtain ⟨k₁, hk, he⟩ := Outcome.bind_eq_ok.mp h
        cases he
        refine .inl (.procKill (fun q hq => .inr (.inl ?_)) hk)
        simp only [killTarget, if_neg hpid, hproc]
        exact hq
  | sysChangePriority pid prio => exact absurd rfl (hprio pid prio)
  | sysExit code =>
    obtain ⟨k₁, hk, h⟩ := Outcome.bind_eq_ok.mp h
    obtain ⟨k₂, ht, he⟩ := Outcome.bind_eq_ok.mp h
    cases he
    have hsuspend : Prelude (Event.scope k (.sysExit code)) k (k.suspend .exit) := .suspend k .exit
    have hprocs : (k.suspend .exit).procs = k.procs := by
      unfold Kernel.suspend
      split <;> rfl
    refine .inr ⟨k₁, hsuspend.trans (.procKill (fun q hq => .inr (.inl ?_)) hk), ?_, ht⟩
    · rw [hprocs] at hq
      exact hq
    · -- `proc_kill` spares `idle` and `init`
      cases hc : k.currentProcess with
      | none =>
        rw [hc] at hk
        cases hk
        exact .inl ((suspend_currentProcess k .exit).trans hc)
      | some c =>
        rw [hc] at hk
        by_cases hpid : (k.procs c).pid = 0 ∨ (k.procs c).pid = 1
        · rw [procKill, if_pos (by rwa [hprocs])] at hk
          cases hk
          exact .inl ((suspend_currentProcess k .exit).trans hc)
        · refine .inr ⟨c, rfl, ?_⟩
          rw [not_or] at hpid
          simp [Event.scope, killTarget, hc, Option.filter, hpid]
  | sysBlock pid =>
    obtain ⟨r₁, hr, he⟩ := Outcome.bind_eq_ok.mp h
    cases he
    refine blockProcessByPid (fun p hp => .inr (.inr ?_)) hr
    simp only [blockTarget, hp]
  | sysUnblock pid =>
    obtain ⟨r₁, hr, he⟩ := Outcome.bind_eq_ok.mp h
    cases he
    exact .inl (.unblockProcessByPid hr)
  | sysCloseFd fd =>
    simp only [TpeSo.enter, sysCloseFd] at h
    split at h
    · cases h
      exact .of_turn rfl
    · split at h
      · cases h
        exact .inl (.closeSlot k _ _)
      · cases h
        exact .of_turn rfl
  | sysWaitPid pid =>
    obtain ⟨r₁, hr, he⟩ := Outcome.bind_eq_ok.mp h
    cases he
    exact waitPid hS hr
  | sysWait =>
    obtain ⟨r₁, hr, he⟩ := Outcome.bind_eq_ok.mp h
    cases he
    exact waitPid hS hr
  | sysYield =>
    obtain ⟨k₁, hy, he⟩ := Outcome.bind_eq_ok.mp h
    cases he
    exact .after (.suspend k .yield) (suspend_currentProcess k .yield) (yield hy)
  | sysSetCanonical b => cases h; exact .of_turn rfl
  | sysCreateSem id v => cases h; exact .inl (.mySemCreate k id v)
  | sysCloseSem id => cases h; exact .inl (.mySemDestroy k id)
  | sysSemPost id =>
    obtain ⟨r₁, hr, he⟩ := Outcome.bind_eq_ok.mp h
    cases he
    exact .inl (.mySemPost hr)
  | sysSemWait id =>
    obtain ⟨r₁, hr, he⟩ := Outcome.bind_eq_ok.mp h
    cases he
    exact mySemWait hS hr
  | sysSemTrywait id =>
    obtain ⟨r₁, hr, he⟩ := Outcome.bind_eq_ok.mp h
    cases he
    exact .inl (.mySemTrywait hr)

/-- Going on with a suspended system call. -/
theorem resume {w : Pending} {r : StepResult} (hS : ∀ c, k.currentProcess = some c → S.leaves c)
    (h : resume k c w = .ok r) : Handover S k r.1 := by
  have hpop : Prelude S k { k with kstack := Function.update k.kstack c none } := .of_turn rfl
  have hS' : ∀ d, ({ k with kstack := Function.update k.kstack c none } : Kernel).currentProcess =
      some d → S.leaves d := hS
  cases w with
  | yield => cases h; exact .inl hpop
  | sleep => cases h; exact .inl hpop
  | block => cases h; exact .inl hpop
  | exit => cases h
  | semWait id => cases h; exact .inl hpop
  | pipeRead pp size =>
    obtain ⟨r₁, hr, he⟩ := Outcome.bind_eq_ok.mp h
    cases he
    exact .after hpop rfl (pipeRead hS' hr)
  | pipeWrite pp buf =>
    obtain ⟨r₁, hr, he⟩ := Outcome.bind_eq_ok.mp h
    cases he
    exact .after hpop rfl (pipeWrite hS' hr)
  | waitPid pid =>
    obtain ⟨r₁, hr, he⟩ := Outcome.bind_eq_ok.mp h
    cases he
    exact .after hpop rfl (waitPidLoop hS' hr)
  | readLine count buf0 =>
    obtain ⟨r₁, hr, he⟩ := Outcome.bind_eq_ok.mp h
    cases he
    exact .after hpop rfl (readLine hS' hr)

end Handover

/-- **A step hands the processor on once at most**, at its very end. -/
theorem step_handover (hprio : ∀ pid prio, e ≠ .sysChangePriority pid prio)
    (huser : ∀ rsp, e ≠ .user rsp)
    (h : step k e = some (k', o)) : Handover (e.scope k) k k' := by
  rcases step_eq_some h with ⟨-, -, henter⟩ | ⟨rfl, c, w, -, -, hresume⟩
  · exact .enter hprio huser henter
  · exact .resume (S := Event.scope k .resume) (fun _ hc => .inl hc) hresume

end TpeSo
