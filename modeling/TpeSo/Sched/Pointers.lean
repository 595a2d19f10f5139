import TpeSo.Family.Spawning
import TpeSo.Sched.Overtaking
import TpeSo.Sched.Seat

namespace TpeSo

open Ds Lib

/-!
# Scheduling — where a process goes on

`schedule` puts the stack pointer of the interrupted process into its control block, and goes on at
the one it finds in the control block of the next.

* `callTimerTick_pointer` — one timer interrupt;
* `sysSpawnProcess_pointer` — a new process starts at the frame that `execv` has left;
* `step_evicts` — only a kill leaves the processor to nobody;
* `PointerStep`, `step_pointer` — **every step**: the processor stays where it is, or it goes on at
  the stack pointer of the next process, with that of the last one saved;
* `step_pointer_other` — the processes that wait go on where they did before.
-/

variable {k k' k₁ : Kernel} {c d p : ProcId} {e : Event} {o : Option Completion}

/-- The running code moves its stack pointer. -/
def Event.isUser : Event → Bool
  | .user _ => true
  | _ => false

/-- What `sys_spawn_process` is called with. -/
def Event.spawnArgs : Event → Option SpawnArgs
  | .sysSpawn a => some a
  | _ => none

theorem Event.ne_user (h : e.isUser = false) (rsp : Nat) : e ≠ .user rsp := by
  rintro rfl
  cases h

/-! ### The timer interrupt -/

/-- Where `p` goes on, once the current process is to go on at `rsp`. -/
def Kernel.savedAt (k : Kernel) (rsp : Nat) (p : ProcId) : Nat :=
  if k.currentProcess = some p then rsp else (k.procs p).stackPointer

theorem enqueueNextProcess_pointer (h : enqueueNextProcess k = .ok k') (p : ProcId) :
    (k'.procs p).stackPointer = (k.procs p).stackPointer := by
  obtain ⟨q, rest, -, rfl⟩ := enqueueNextProcess_eq_ok h
  exact Kernel.setProc_spares _ Proc.stackPointer rfl p

theorem procReady_pointer (k : Kernel) (o : Option ProcId) (p : ProcId) :
    ((procReady k o).procs p).stackPointer = (k.procs p).stackPointer := by
  cases o with
  | none => rfl
  | some q =>
    exact k.setProc_spares (p := q) (f := fun x =>
      { x with status := .ready, blockReason := .none, waitingOn := .readyQueue })
      Proc.stackPointer rfl p

theorem pickNext_pointer {rsp : Nat} (h : pickNext k rsp = .ok k') (p : ProcId) :
    (k'.procs p).stackPointer = k.savedAt rsp p := by
  unfold Kernel.savedAt
  cases hc : k.currentProcess with
  | none =>
    unfold pickNext at h
    rw [hc] at h
    dsimp only at h
    split at h
    · cases h
    · rw [if_neg (Option.some_ne_none p).symm]
      exact enqueueNextProcess_pointer h p
  | some c =>
    -- the control block of `c` holds `rsp`, whatever else is written into it
    have hsaved : ∀ f : Proc → Proc, (∀ q, (f q).stackPointer = rsp) →
        ((k.setProc c f).procs p).stackPointer =
          if some c = some p then rsp else (k.procs p).stackPointer := by
      intro f hf
      by_cases hpc : p = c
      · subst hpc
        rw [Kernel.procs_setProc_self, hf, if_pos rfl]
      · rw [Kernel.procs_setProc_ne k hpc, if_neg fun heq => hpc (Option.some.inj heq).symm]
    by_cases hr : k.readyProcesses = []
    · unfold pickNext at h
      rw [hc] at h
      dsimp only at h
      rw [if_pos (show (k.setProc c _).readyProcesses = [] from hr)] at h
      split at h
      · cases h
        rw [Kernel.setProc_setProc]
        exact hsaved _ fun _ => rfl
      · cases h
    · rw [pickNext_eq hc hr] at h
      have hint := hsaved (fun q => { q with stackPointer := rsp, hasQuantum := q.hasQuantum - 1 })
        fun _ => rfl
      split at h
      · split at h
        · rw [enqueueNextProcess_pointer h, procReady_pointer]
          exact (Kernel.setProc_spares _ Proc.stackPointer rfl p).trans hint
        · rw [enqueueNextProcess_pointer h]
          exact hint
      · cases h
        exact hint

/-- **One timer interrupt.**  Somebody has the processor afterwards and goes on at its stack
    pointer, and the stack pointer of the interrupted process is saved. -/
theorem callTimerTick_pointer (h : callTimerTick k = .ok k') :
    (∃ d, k'.currentProcess = some d ∧ k'.rsp = (k'.procs d).stackPointer) ∧
      k'.nextProc = k.nextProc ∧ k'.ticks = (k.ticks + 1) % word ∧
      ∀ p, (k'.procs p).stackPointer = k.savedAt k.rsp p := by
  have hnext : k'.fixed.nextProc = k.fixed.nextProc := by rw [fixed_callTimerTick h]
  simp only [callTimerTick, schedule, Outcome.bind_eq_ok] at h
  obtain ⟨k₁, hw, ⟨k₂, rsp⟩, ⟨k₃, hp, hs⟩, he⟩ := h
  have hwake : Prelude {} { k with ticks := (k.ticks + 1) % word } k₁ := .timerHandler hw
  have hticks : k₃.ticks = (k.ticks + 1) % word := (pickNext_picked hp).ticks.trans hwake.ticks
  have hcur : k₁.currentProcess = k.currentProcess :=
    current_wakeDue (k := { k with ticks := (k.ticks + 1) % word }) _ hw
  split at hs
  · cases hs
  · rename_i d hd
    cases hs
    cases he
    refine ⟨⟨d, hd, rfl⟩, hnext, hticks,
      fun p => (pickNext_pointer hp p).trans ?_⟩
    unfold Kernel.savedAt
    rw [hcur, hwake.rsp]
    split
    · rfl
    · rename_i hp
      exact hwake.pointer p hp (Option.some_ne_none p).symm

/-! ### A new process -/

/-- With memory for everything, the call makes no process, or one that starts at its initial
    frame. -/
theorem sysSpawnProcess_pointer (hheap : k.HeapOk) {a : SpawnArgs} {r : Kernel × Int}
    (h : sysSpawnProcess k a = .ok r) :
    r.1.nextProc = k.nextProc ∨ (r.1.procs k.nextProc).stackPointer = a.frame := by
  cases he : a.entry with
  | none =>
    rw [sysSpawnProcess, he] at h
    cases h
    exact .inl rfl
  | some entry =>
    by_cases hcount : (maxProcesses : Int) ≤ k.processCount
    · have hnew : procNew k = (k, none) := if_pos hcount
      rw [sysSpawnProcess, he] at h
      dsimp only at h
      rw [hnew] at h
      cases h
      exact .inl rfl
    · refine .inr ?_
      rw [spawn_eq he hcount (hheap 0)] at h
      obtain ⟨k₁, hexecv, hr⟩ := Outcome.bind_eq_ok.mp h
      cases hr
      rw [procReady_pointer]
      cases hi : procPidAlloc (newborn k) with
      | none =>
        -- no place, no stack: `execv` writes through `NULL`
        have hinit : (procInit (newborn k) k.nextProc a entry).1 =
            (newborn k).setProc k.nextProc fun q => { q with pid := -1 } := by
          rw [procInit, hi]
        rw [hinit] at hexecv
        obtain ⟨hno, -⟩ := execv_noStack (by simp [Kernel.setProc, newborn]) hexecv
        exact absurd (hheap 1) (ne_true_of_eq_false hno)
      | some i =>
        obtain ⟨-, hhas, -, -, -, hmalloc⟩ := procInit_full (p := k.nextProc) (a := a) hi (hheap 1)
        rw [execv_full (by rw [hmalloc]; exact hheap 2) (by rw [hhas]; simp [Kernel.setProc])]
          at hexecv
        cases hexecv
        simp [Kernel.setProc]

/-- The timer does not tick meanwhile. -/
theorem step_spawn_ticks {a : SpawnArgs} (hs : step k (.sysSpawn a) = some (k', o)) :
    k'.ticks = k.ticks := by
  rcases step_eq_some hs with ⟨-, -, henter⟩ | ⟨he, -⟩
  · obtain ⟨r, hr, hdone⟩ := Outcome.bind_eq_ok.mp henter
    cases hdone
    exact (Prelude.sysSpawnProcess (S := Event.scope k (.sysSpawn a)) rfl hr).ticks
  · cases he

/-- The process a step makes starts at its initial frame. -/
theorem step_spawn_pointer (hheap : k.HeapOk) {a : SpawnArgs}
    (hs : step k (.sysSpawn a) = some (k', o)) :
    k'.nextProc = k.nextProc ∨ (k'.procs k.nextProc).stackPointer = a.frame := by
  rcases step_eq_some hs with ⟨-, -, henter⟩ | ⟨he, -⟩
  · obtain ⟨r, hr, hdone⟩ := Outcome.bind_eq_ok.mp henter
    cases hdone
    exact sysSpawnProcess_pointer hheap hr
  · cases he

/-! ### Every step -/

/-- Nobody is pushed off the processor and not replaced but the victim of a kill. -/
theorem step_evicts (h : OneRunning k) (hs : step k e = some (k', o))
    (hc : k.currentProcess = some c) (hc' : k'.currentProcess = none) :
    killTarget k e = some c := by
  have hinv := (step_causes hs).invariant
    (fun _ k₁ => OneRunning k₁ ∧ (k₁.currentProcess = none → killTarget k e = some c)) ?_
    ⟨h, fun hnone => absurd (hc.symm.trans hnone) (Option.some_ne_none c)⟩
  · exact hinv.2 hc'
  · rintro φ k₁ a ψ k₂ ⟨halone, hI⟩ hC hm
    refine ⟨hm.oneRunning halone, fun hnone => ?_⟩
    by_cases hoff : a.offSched
    · exact hI ((hm.schedSame hoff).1.current.symm.trans hnone)
    cases hm with
    | dispatch | preempt => cases hnone
    | kill p code =>
      obtain ⟨⟨hcalm, ht⟩, -⟩ := hC
      have hcur : k₁.currentProcess = some c := hcalm.current.trans hc
      -- only a process that is `RUNNING` is taken off the processor
      by_cases hrun : (k₁.procs p).status = .running
      · obtain rfl := Option.some.inj (hcur.symm.trans (halone p hrun))
        exact ht
      · refine hI (Eq.trans ?_ hnone)
        show _ = (unlinkWaiting (rmCurrent k₁ p) p).currentProcess
        rw [unlinkWaiting_currentProcess, rmCurrent, if_neg hrun]
    | @blockSelf _ d w reason pend hd hw =>
      have hlink := SchedBase.linkWaiter k₁ w d
      have hleave : (leave (linkWaiter k₁ w d) d reason w pend).currentProcess =
          (linkWaiter k₁ w d).currentProcess := suspend_currentProcess _ pend
      exact hI (hlink.current.symm.trans (hleave.symm.trans hnone))
    | @blockSleep _ d t =>
      exact hI ((suspend_currentProcess (linkSleeper k₁ d t) .sleep).symm.trans hnone)
    | @wake _ _ w p =>
      exact hI ((SchedSame.popWaiter k₁ w).current.symm.trans hnone)
    | _ => first | exact absurd trivial hoff | exact hI hnone

/-- Where the processor and the processes go on after a step. -/
inductive PointerStep (k : Kernel) (e : Event) (k' : Kernel) : Prop where
  /-- The processor stays where it is, unless its process has died. -/
  | stays (ht : k'.ticks = k.ticks)
      (hc : k'.currentProcess = k.currentProcess ∨ k'.currentProcess = none) : PointerStep k e k'
  /-- The processor goes on with `d`, and the last process is saved. -/
  | moves (ht : k'.ticks ≠ k.ticks) (d : ProcId) (hd : k'.currentProcess = some d)
      (hrsp : k'.rsp = (k'.procs d).stackPointer)
      (hsaved : ∀ c, k.currentProcess = some c → killTarget k e ≠ some c →
        (k'.procs c).stackPointer = k.rsp) : PointerStep k e k'

theorem Event.scope_newborn {p : ProcId} (hp : p < k.nextProc) : (e.scope k).newborn ≠ some p := by
  unfold Event.scope
  dsimp only
  split
  · exact fun heq => Nat.ne_of_lt hp (Option.some.inj heq).symm
  · exact (Option.some_ne_none p).symm

/-- Nobody but `sys_spawn_process` makes a process, and it makes one at a time. -/
theorem Handover.nextProc (h : Handover (e.scope k) k k') :
    k'.nextProc = k.nextProc ∨ (∃ a, e = .sysSpawn a) ∧ k'.nextProc = k.nextProc + 1 := by
  have hspawn : ∀ {k₁ : Kernel}, Prelude (e.scope k) k k₁ → k₁.nextProc = k.nextProc ∨
      (∃ a, e = .sysSpawn a) ∧ k₁.nextProc = k.nextProc + 1 := by
    refine fun g => g.born.imp_right fun hnew => ⟨?_, hnew.2⟩
    have hscope := hnew.1
    unfold Event.scope at hscope
    dsimp only at hscope
    split at hscope
    · exact ⟨_, rfl⟩
    · cases hscope
  rcases h with h | ⟨k₁, h, -, ht⟩
  · exact hspawn h
  · rw [(callTimerTick_pointer ht).2.1]
    exact hspawn h

/-- A tick is noticed. -/
theorem ticks_ne (k : Kernel) : (k.ticks + 1) % word ≠ k.ticks := by
  have hword : 2 ≤ word := by decide
  rcases Nat.lt_or_ge (k.ticks + 1) word with hlt | hge
  · rw [Nat.mod_eq_of_lt hlt]
    exact Nat.succ_ne_self _
  · by_cases heq : k.ticks + 1 = word
    · rw [heq, Nat.mod_self]
      omega
    · have hlow := Nat.mod_lt (k.ticks + 1) (show 0 < word by omega)
      omega

/-- A process that does not have the processor goes on where it did before. -/
theorem Handover.pointer (h : Handover (e.scope k) k k') (hp : p < k.nextProc)
    (hc : k.currentProcess ≠ some p) : (k'.procs p).stackPointer = (k.procs p).stackPointer := by
  rcases h with h | ⟨k₁, h, -, ht⟩
  · exact h.pointer p hc (Event.scope_newborn hp)
  · have hc₁ : k₁.currentProcess ≠ some p := by
      rcases h.current with hcur | hcur
      · rwa [hcur]
      · rw [hcur]
        exact (Option.some_ne_none p).symm
    rw [(callTimerTick_pointer ht).2.2.2, Kernel.savedAt, if_neg hc₁]
    exact h.pointer p hc (Event.scope_newborn hp)

theorem Handover.pointerStep (h : Handover (e.scope k) k k') : PointerStep k e k' := by
  rcases h with h | ⟨k₁, h, hlate, ht⟩
  · exact .stays h.ticks h.current
  · obtain ⟨⟨d, hd, hrsp⟩, -, hticks, hsp⟩ := callTimerTick_pointer ht
    refine .moves (fun hsame => ticks_ne k₁ (hticks.symm.trans (hsame.trans h.ticks.symm))) d hd
      hrsp fun c hc hlives => ?_
    rcases hlate with hcur | ⟨c', hc', hdies⟩
    · rw [hsp, Kernel.savedAt, if_pos (hcur.trans hc)]
      exact h.rsp
    · obtain rfl := Option.some.inj (hc.symm.trans hc')
      exact absurd hdies hlives

/-- A change of priority moves no stack pointer. -/
theorem step_changePriority {pid prio : Int}
    (hs : step k (.sysChangePriority pid prio) = some (k', o)) :
    k'.currentProcess = k.currentProcess ∧ k'.nextProc = k.nextProc ∧ k'.ticks = k.ticks ∧
      ∀ p, (k'.procs p).stackPointer = (k.procs p).stackPointer := by
  rcases step_eq_some hs with ⟨-, -, henter⟩ | ⟨he, -⟩
  · obtain ⟨child, -, hdone⟩ := Outcome.bind_eq_ok.mp henter
    cases hdone
    rcases changePriority_cases k child prio with hk | ⟨q, n, -, -, -, hk⟩
    · rw [hk]
      exact ⟨rfl, rfl, rfl, fun _ => rfl⟩
    · rw [hk]
      exact ⟨rfl, rfl, rfl, fun p => k.setProc_spares Proc.stackPointer rfl p⟩
  · cases he

variable (huser : ∀ rsp, e ≠ .user rsp) (hs : step k e = some (k', o))

include huser hs

theorem step_nextProc :
    k'.nextProc = k.nextProc ∨ (∃ a, e = .sysSpawn a) ∧ k'.nextProc = k.nextProc + 1 := by
  by_cases he : ∃ pid prio, e = .sysChangePriority pid prio
  · obtain ⟨pid, prio, rfl⟩ := he
    exact .inl (step_changePriority hs).2.1
  · exact (step_handover (fun pid prio hp => he ⟨pid, prio, hp⟩) huser hs).nextProc

/-- A process that does not have the processor goes on where it did before. -/
theorem step_pointer_other (hp : p < k.nextProc) (hc : k.currentProcess ≠ some p) :
    (k'.procs p).stackPointer = (k.procs p).stackPointer := by
  by_cases he : ∃ pid prio, e = .sysChangePriority pid prio
  · obtain ⟨pid, prio, rfl⟩ := he
    exact (step_changePriority hs).2.2.2 p
  · exact (step_handover (fun pid prio hp => he ⟨pid, prio, hp⟩) huser hs).pointer hp hc

/-- **Every step**, moves of the stack pointer apart. -/
theorem step_pointer : PointerStep k e k' := by
  by_cases he : ∃ pid prio, e = .sysChangePriority pid prio
  · obtain ⟨pid, prio, rfl⟩ := he
    obtain ⟨hc, -, ht, -⟩ := step_changePriority hs
    exact .stays ht (.inl hc)
  · exact (step_handover (fun pid prio hp => he ⟨pid, prio, hp⟩) huser hs).pointerStep

end TpeSo
