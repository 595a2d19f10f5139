import TpeSo.Acts.Objects
import TpeSo.Sched.RoundRobin
import TpeSo.Sched.View

namespace TpeSo

open Ds Lib

/-!
# Scheduling — what a step does before it hands the processor on

A step of the machine works for the running process, or for an interrupt, and ends, if it gives
up the processor, with one timer interrupt.

* `Proc.Paced` — the priority of a process is one that `schedule` can count with;
* `Prelude S k k'` — nobody gains quantum, nobody comes up, in the ready queue nobody outside
  `S.leaves` loses its place or is overtaken, no stack pointer but the caller's and a newborn's
  changes, and no time passes;
* `Prelude.procKill`, `Prelude.sysSpawnProcess`, … — one lemma for each routine;
* `Handover S k k'`, `step_handover` — **a step is a prelude, or a prelude and one timer
  interrupt**.
-/

variable {k k' k₁ k₂ : Kernel} {c p : ProcId} {pp : PipeId} {S : Scope}

/-- The priority is at most `QUANTUM_MAX`, and positive once the process has a stack. -/
def Proc.Paced (q : Proc) : Prop :=
  q.priority ≤ quantumMax ∧ (q.hasStack = true → 0 < q.priority)

/-- What the pace of a process depends on, and where it goes on. -/
def Proc.pace (q : Proc) : Nat × Bool × Nat × Nat :=
  (q.priority, q.hasStack, q.hasQuantum, q.stackPointer)

/-- The part of the kernel that `schedule` decides by, and that it goes on with. -/
def Kernel.turn (k : Kernel) :
    (ProcId → Nat × Bool × Nat × Nat) × Option ProcId × List ProcId × Nat × ProcId × Nat :=
  (fun p => (k.procs p).pace, k.currentProcess, k.readyProcesses, k.rsp, k.nextProc, k.ticks)

/-- Whom a step may concern. -/
structure Scope where
  /-- Who may leave the ready queue. -/
  leaves : ProcId → Prop := fun _ => False
  /-- Who may die while it has the processor. -/
  dies : ProcId → Prop := fun _ => False
  /-- Who may be given a control block and a stack. -/
  newborn : Option ProcId := none

/-- What comes before the processor is handed on. -/
structure Prelude (S : Scope) (k k' : Kernel) : Prop where
  pace : ∀ p, (k.procs p).Paced → (k'.procs p).Paced
  quantum : ∀ p, (k'.procs p).hasQuantum ≤ (k.procs p).hasQuantum
  current : k'.currentProcess = k.currentProcess ∨ k'.currentProcess = none
  place : ∀ p, ¬ S.leaves p → p ∈ k.readyProcesses → p ∈ k'.readyProcesses ∧
    k'.readyProcesses.idxOf p ≤ k.readyProcesses.idxOf p
  rsp : k'.rsp = k.rsp
  pointer : ∀ p, k.currentProcess ≠ some p → S.newborn ≠ some p →
    (k'.procs p).stackPointer = (k.procs p).stackPointer
  born : k'.nextProc = k.nextProc ∨ S.newborn = some k.nextProc ∧ k'.nextProc = k.nextProc + 1
  ticks : k'.ticks = k.ticks

theorem turn_setProc (k : Kernel) (p : ProcId) {f : Proc → Proc}
    (h : (f (k.procs p)).pace = (k.procs p).pace) : (k.setProc p f).turn = k.turn := by
  unfold Kernel.turn
  rw [show (fun q => ((k.setProc p f).procs q).pace) = fun q => (k.procs q).pace from
    funext fun q => k.setProc_spares Proc.pace h q]
  rfl

theorem turn_setForegroundProcess (k : Kernel) (o caller : Option ProcId) :
    (setForegroundProcess k o caller).turn = k.turn := by
  have hmode : ∀ (k : Kernel) (p : ProcId) (m : Mode),
      (k.setProc p fun q => { q with mode := m }).turn = k.turn := fun k p m => turn_setProc k p rfl
  unfold setForegroundProcess
  repeat' split
  · rfl
  · exact hmode k _ .fg
  · rfl
  · exact (hmode _ _ .fg).trans (hmode k _ .bg)
  · rfl

theorem turn_setFd (k : Kernel) (p : ProcId) (i : Fin fdMax) (e : FdEntry) :
    (setFd k p i e).turn = k.turn :=
  turn_setProc k p rfl

theorem turn_fdAddRef (k : Kernel) (e : FdEntry) : (fdAddRef k e).turn = k.turn := by
  unfold fdAddRef
  split <;> rfl

theorem turn_inheritLoop (p s : ProcId) (fds : Fin fdMax → Int) (is : List (Fin fdMax)) :
    ∀ k : Kernel, (inheritLoop k p s fds is).turn = k.turn := by
  induction is with
  | nil => exact fun k => rfl
  | cons i is ih =>
    intro k
    unfold inheritLoop
    split
    · exact (ih _).trans ((turn_setFd _ p i _).trans (turn_fdAddRef k _))
    · rfl

theorem turn_initFds (k : Kernel) (p : ProcId) (parent : Option ProcId)
    (fds : Option (Fin fdMax → Int)) : (initFds k p parent fds).turn = k.turn := by
  unfold initFds
  split
  · unfold inheritFds
    split
    · rfl
    · exact turn_inheritLoop p _ _ _ k
  · exact (turn_setFd _ p 2 _).trans ((turn_setFd _ p 1 _).trans (turn_setFd k p 0 _))

theorem turn_initForeground (k : Kernel) (p : ProcId) (parent : Option ProcId) (b : Bool) :
    (initForeground k p parent b).turn = k.turn := by
  unfold initForeground
  split
  · rfl
  · exact turn_setForegroundProcess k _ _

namespace Prelude

theorem of_turn (h : k'.turn = k.turn) : Prelude S k k' := by
  have hproc : ∀ p, (k'.procs p).pace = (k.procs p).pace :=
    fun p => congrFun (congrArg Prod.fst h) p
  have hready : k'.readyProcesses = k.readyProcesses := congrArg (fun t => t.2.2.1) h
  refine ⟨fun p hp => ?_, fun p => ?_, .inl (congrArg (fun t => t.2.1) h), fun p _ hp => ?_,
    congrArg (fun t => t.2.2.2.1) h, fun p _ _ => congrArg (fun t => t.2.2.2) (hproc p),
    .inl (congrArg (fun t => t.2.2.2.2.1) h), congrArg (fun t => t.2.2.2.2.2) h⟩
  · have hprio : (k'.procs p).priority = (k.procs p).priority := congrArg (fun t => t.1) (hproc p)
    have hstack : (k'.procs p).hasStack = (k.procs p).hasStack :=
      congrArg (fun t => t.2.1) (hproc p)
    unfold Proc.Paced
    rw [hprio, hstack]
    exact hp
  · exact Nat.le_of_eq (congrArg (fun t => t.2.2.1) (hproc p))
  · rw [hready]
    exact ⟨hp, Nat.le_refl _⟩

theorem refl (k : Kernel) : Prelude S k k := .of_turn rfl

theorem trans (h : Prelude S k k₁) (g : Prelude S k₁ k') : Prelude S k k' where
  pace p hp := g.pace p (h.pace p hp)
  quantum p := (g.quantum p).trans (h.quantum p)
  current := by
    rcases g.current with hc | hc
    · rcases h.current with hc' | hc'
      · exact .inl (hc.trans hc')
      · exact .inr (hc.trans hc')
    · exact .inr hc
  place p hS hp := by
    obtain ⟨hp₁, hle₁⟩ := h.place p hS hp
    obtain ⟨hp₂, hle₂⟩ := g.place p hS hp₁
    exact ⟨hp₂, hle₂.trans hle₁⟩
  rsp := g.rsp.trans h.rsp
  pointer p hc hn := by
    have hc₁ : k₁.currentProcess ≠ some p := by
      rcases h.current with hcur | hcur
      · rwa [hcur]
      · rw [hcur]
        nofun
    exact (g.pointer p hc₁ hn).trans (h.pointer p hc hn)
  born := by
    rcases h.born with hsame | ⟨hnew, hsucc⟩
    · rw [← hsame]
      exact g.born
    · refine .inr ⟨hnew, ?_⟩
      rcases g.born with hsame | ⟨hnew', -⟩
      · exact hsame.trans hsucc
      · -- nobody is born twice
        have heq := Option.some.inj (hnew.symm.trans hnew')
        exact absurd (heq.trans hsucc).symm (Nat.succ_ne_self _)
  ticks := g.ticks.trans h.ticks

/-- An edit of one process that neither speeds it up nor slows it down. -/
theorem setProc (k : Kernel) (p : ProcId) {f : Proc → Proc}
    (h : (f (k.procs p)).pace = (k.procs p).pace) : Prelude S k (k.setProc p f) :=
  .of_turn (turn_setProc k p h)

/-- An edit of the ready queue alone. -/
theorem ready (hproc : ∀ p, (k'.procs p).pace = (k.procs p).pace)
    (hcur : k'.currentProcess = k.currentProcess)
    (hregs : k'.rsp = k.rsp ∧ k'.nextProc = k.nextProc ∧ k'.ticks = k.ticks)
    (hplace : ∀ p, ¬ S.leaves p → p ∈ k.readyProcesses → p ∈ k'.readyProcesses ∧
      k'.readyProcesses.idxOf p ≤ k.readyProcesses.idxOf p) : Prelude S k k' := by
  have hturn : ({ k' with readyProcesses := k.readyProcesses } : Kernel).turn = k.turn := by
    unfold Kernel.turn
    rw [show (fun p => (k'.procs p).pace) = fun p => (k.procs p).pace from funext hproc, ← hcur,
      ← hregs.1, ← hregs.2.1, ← hregs.2.2]
  have h : Prelude S k { k' with readyProcesses := k.readyProcesses } := .of_turn hturn
  exact ⟨h.pace, h.quantum, h.current, hplace, hregs.1, h.pointer, .inl hregs.2.1, hregs.2.2⟩

/-! ### The scheduler's own routines -/

/-- A process put at the end of the queue overtakes nobody. -/
theorem procReady (k : Kernel) (o : Option ProcId) : Prelude S k (procReady k o) := by
  cases o with
  | none => exact .refl k
  | some p =>
    refine .ready (k.setProc_spares (p := p) (f := fun q =>
      { q with status := .ready, blockReason := .none, waitingOn := .readyQueue }) Proc.pace rfl)
      rfl ⟨rfl, rfl, rfl⟩ fun q _ hq => ?_
    rw [procReady_ready]
    cases k.kmalloc with
    | false => exact ⟨hq, Nat.le_refl _⟩
    | true => exact ⟨List.mem_append_left _ hq, Nat.le_of_eq (List.idxOf_append_of_mem hq)⟩

/-- Taking out another process moves nobody back. -/
theorem queueRemove_place {xs : List ProcId} {q : ProcId} (hne : q ≠ p) (hq : q ∈ xs) :
    q ∈ queueRemove xs p ∧ (queueRemove xs p).idxOf q ≤ xs.idxOf q := by
  refine ⟨(List.mem_erase_of_ne hne).mpr hq, ?_⟩
  unfold queueRemove
  induction xs with
  | nil => cases hq
  | cons x xs ih =>
    by_cases hxp : x = p
    · subst hxp
      rw [List.erase_cons_head, List.idxOf_cons_ne xs hne.symm]
      exact Nat.le_succ _
    · rw [List.erase_cons_tail (by simpa using hxp)]
      by_cases hxq : x = q
      · subst hxq
        simp
      · rw [List.idxOf_cons_ne _ hxq, List.idxOf_cons_ne _ hxq]
        exact Nat.succ_le_succ (ih ((List.mem_cons.mp hq).resolve_left (Ne.symm hxq)))

theorem markBlocked (k : Kernel) (hp : S.leaves p) (reason : BlockReason) (w : WaitRef) :
    Prelude S k (markBlocked k p reason w) :=
  .ready (k.setProc_spares (p := p) (f := fun q =>
      { q with status := .blocked, blockReason := reason, waitingOn := w }) Proc.pace rfl)
    rfl ⟨rfl, rfl, rfl⟩ fun _ hS hq => queueRemove_place (fun h => hS (h ▸ hp)) hq

theorem unblockProcessByPid {pid : Int} {r : Kernel × Int}
    (h : unblockProcessByPid k pid = .ok r) : Prelude S k r.1 := by
  obtain ⟨o, -, h⟩ := Outcome.bind_eq_ok.mp h
  split at h
  · cases h
    exact .refl k
  · split at h
    · cases h
      exact .refl k
    · cases h
      exact .procReady k (some _)

theorem wakeDue (rest : List SleepingProc) :
    ∀ {k : Kernel}, wakeDue k rest = .ok k' → Prelude S k k' := by
  induction rest with
  | nil =>
    intro k h
    cases h
    exact .refl _
  | cons sp rest ih =>
    intro k h
    rw [TpeSo.wakeDue] at h
    split at h
    · obtain ⟨r, hr, h⟩ := Outcome.bind_eq_ok.mp h
      have hwake : Prelude S r.1 { r.1 with
        sleepingProcs := queueRemove r.1.sleepingProcs sp } := .of_turn rfl
      exact (unblockProcessByPid hr).trans (hwake.trans (ih h))
    · exact ih h

/-- After the tick itself. -/
theorem timerHandler (h : timerHandler k = .ok k') :
    Prelude S { k with ticks := (k.ticks + 1) % word } k' :=
  wakeDue _ h

theorem suspend (k : Kernel) (w : Pending) : Prelude S k (k.suspend w) := by
  refine .of_turn ?_
  unfold Kernel.suspend
  split <;> rfl

/-! ### Pipes and descriptors -/

theorem acquirePipe (h : acquirePipe k pp = .ok k') : Prelude S k k' := by
  unfold TpeSo.acquirePipe at h
  split at h
  · cases h
    exact .of_turn rfl
  · cases h

theorem wakeReaders (pp : PipeId) (n : Nat) :
    ∀ k : Kernel, Prelude S k (wakeReaders k pp n) := by
  induction n with
  | zero => exact fun k => .refl k
  | succ n ih =>
    intro k
    have hpop : Prelude S k (k.setPipe pp fun q =>
      { q with readersWaitQueue := (dequeue (k.pipes pp).readersWaitQueue).2 }) := .of_turn rfl
    exact hpop.trans ((Prelude.procReady _ _).trans (ih _))

theorem freeUnreferenced (k : Kernel) (pp : PipeId) : Prelude S k (freeUnreferenced k pp) := by
  unfold TpeSo.freeUnreferenced
  split
  · exact .of_turn rfl
  · exact .refl k

theorem pipeCloseWrite (k : Kernel) (pp : PipeId) : Prelude S k (pipeCloseWrite k pp) := by
  have hcount : Prelude S k (k.setPipe pp fun q => { q with writers := q.writers - 1 }) :=
    .of_turn rfl
  refine hcount.trans (.trans ?_ (freeUnreferenced _ pp))
  split
  · exact wakeReaders pp _ _
  · exact .refl _

theorem setFd (k : Kernel) (p : ProcId) (i : Fin fdMax) (e : FdEntry) :
    Prelude S k (setFd k p i e) :=
  .setProc k p rfl

theorem closeSlot (k : Kernel) (p : ProcId) (i : Fin fdMax) : Prelude S k (closeSlot k p i) := by
  have hclear : Prelude S (fdClose k ((k.procs p).fds i)) (TpeSo.closeSlot k p i) :=
    .setFd _ p i {}
  refine .trans ?_ hclear
  unfold fdClose
  split
  · rename_i pp _ _
    have hcount : Prelude S k (k.setPipe pp fun q => { q with readers := q.readers - 1 }) :=
      .of_turn rfl
    exact hcount.trans (freeUnreferenced _ _)
  · exact pipeCloseWrite k _
  · exact .refl k

theorem closeFds (p : ProcId) (is : List (Fin fdMax)) :
    ∀ k : Kernel, Prelude S k (closeFds k p is) := by
  induction is with
  | nil => exact fun k => .refl k
  | cons i is ih => exact fun k => (closeSlot k p i).trans (ih _)

theorem allocAll (n : Nat) : ∀ k : Kernel, Prelude S k (allocAll k n).1 := by
  induction n with
  | zero => exact fun k => .refl k
  | succ n ih =>
    intro k
    have halloc : Prelude S k k.alloc := .of_turn rfl
    rw [TpeSo.allocAll]
    split
    · exact halloc.trans (ih k.alloc)
    · exact halloc

theorem createPipe (k : Kernel) (id junk : List UInt8) : Prelude S k (createPipe k id junk).1 := by
  unfold TpeSo.createPipe
  split
  · exact .refl k
  · have halloc : Prelude S k (TpeSo.allocAll k 5).1 := allocAll 5 k
    dsimp only
    split
    · exact halloc.trans (.of_turn rfl)
    · exact halloc

theorem openPipe (k : Kernel) (c : ProcId) (i : Fin fdMax) (id junk : List UInt8) (mode : Int) :
    Prelude S k (openPipe k c i id junk mode).1 := by
  have hopen : ∀ (k₁ : Kernel) (pp : PipeId), Prelude S k k₁ → Prelude S k (if mode = 0 then
      (pipeAddRefRead (TpeSo.setFd k₁ c i (pipeEntry pp .pipeRead)) pp, (0 : Int))
      else (pipeAddRefWrite (TpeSo.setFd k₁ c i (pipeEntry pp .pipeWrite)) pp, 0)).1 := by
    intro k₁ pp hk₁
    split
    · exact hk₁.trans ((setFd k₁ c i _).trans (.of_turn rfl))
    · exact hk₁.trans ((setFd k₁ c i _).trans (.of_turn rfl))
  unfold TpeSo.openPipe
  split
  · exact .refl k
  · have hcreate : Prelude S k (TpeSo.createPipe k id junk).1 := createPipe k id junk
    cases findPipeById k id with
    | some pp => exact hopen k pp (.refl k)
    | none =>
      dsimp only
      split
      · exact hcreate
      · exact hopen _ _ hcreate

/-! ### Death and birth -/

theorem setForegroundProcess (k : Kernel) (o caller : Option ProcId) :
    Prelude S k (setForegroundProcess k o caller) :=
  .of_turn (turn_setForegroundProcess k o caller)

theorem unlinkWaiting (k : Kernel) (hp : S.leaves p) : Prelude S k (unlinkWaiting k p) := by
  unfold TpeSo.unlinkWaiting
  split
  · exact .ready (fun _ => rfl) rfl ⟨rfl, rfl, rfl⟩ fun q hS hq =>
      queueRemove_place (fun h => hS (h ▸ hp)) hq
  all_goals exact .of_turn rfl

theorem rmCurrent (k : Kernel) (p : ProcId) : Prelude S k (rmCurrent k p) := by
  unfold TpeSo.rmCurrent
  split
  · exact ⟨fun _ hq => hq, fun _ => Nat.le_refl _, .inr rfl, fun _ _ hq => ⟨hq, Nat.le_refl _⟩,
      rfl, fun _ _ _ => rfl, .inl rfl, rfl⟩
  · exact .refl k

theorem killUnlink (k : Kernel) (hp : S.leaves p) (code : Int) :
    Prelude S k (killUnlink k p code) :=
  (setForegroundProcess k (k.procs p).parent (some p)).trans
    ((rmCurrent _ p).trans ((unlinkWaiting _ hp).trans
      (.setProc _ p (f := fun q => { q with status := .zombie, exit := code }) rfl)))

theorem reparentToInit {child : ProcId} (h : reparentToInit k child = .ok k') :
    Prelude S k k' := by
  unfold TpeSo.reparentToInit at h
  split at h
  · cases h
  · rename_i i _
    have hparent : Prelude S k (k.setProc child fun q => { q with parent := some i }) :=
      .setProc k child rfl
    dsimp only at h
    split at h
    · cases h
      exact hparent.trans (.setProc _ i rfl)
    · cases h
      exact hparent.trans (.setProc _ child rfl)

theorem reparentAll (pids : List Int) :
    ∀ {k : Kernel}, reparentAll k pids = .ok k' → Prelude S k k' := by
  induction pids with
  | nil =>
    intro k h
    cases h
    exact .refl _
  | cons pid rest ih =>
    intro k h
    simp only [TpeSo.reparentAll, Outcome.bind_eq_ok] at h
    obtain ⟨o, -, h⟩ := h
    cases o with
    | none => exact ih h
    | some child =>
      obtain ⟨k₁, h₁, h₂⟩ := Outcome.bind_eq_ok.mp h
      exact (reparentToInit h₁).trans (ih h₂)

theorem procReap (h : procReap k p = .ok k') : Prelude S k k' := by
  rw [procReap_eq_ok h]
  exact .of_turn rfl

theorem killNotify (h : killNotify k p = .ok k') : Prelude S k k' := by
  unfold TpeSo.killNotify at h
  split at h
  · exact procReap h
  · split at h
    · cases h
      exact procReady k _
    · cases h
      exact .refl k

/-- A kill takes nobody but its victim out of the queue. -/
theorem procKill {proc : Option ProcId} {code : Int}
    (hS : ∀ p ∈ proc.filter fun p => (k.procs p).pid ≠ 0 ∧ (k.procs p).pid ≠ 1, S.leaves p)
    (h : procKill k proc code = .ok k') : Prelude S k k' := by
  cases proc with
  | none =>
    cases h
    exact .refl k
  | some p =>
    by_cases hpid : (k.procs p).pid = 0 ∨ (k.procs p).pid = 1
    · rw [TpeSo.procKill, if_pos hpid] at h
      cases h
      exact .refl k
    · obtain ⟨k₁, hr, hn⟩ := procKill_eq_ok hpid h
      have hp : S.leaves p := hS p (by simpa [not_or] using hpid)
      exact (killUnlink k hp code).trans
        ((closeFds p _ _).trans ((reparentAll _ hr).trans (killNotify hn)))

/-- A process gets a stack and a priority together. -/
theorem outfit (hp : S.newborn = some p) (hother : ∀ q ≠ p, (k'.procs q).pace = (k.procs q).pace)
    (hprio : (k'.procs p).priority = quantumDefault)
    (hquantum : (k'.procs p).hasQuantum = (k.procs p).hasQuantum)
    (hcur : k'.currentProcess = k.currentProcess) (hready : k'.readyProcesses = k.readyProcesses)
    (hregs : k'.rsp = k.rsp ∧ k'.nextProc = k.nextProc ∧ k'.ticks = k.ticks) :
    Prelude S k k' := by
  have hsame : ∀ q, q ≠ p → (k'.procs q).priority = (k.procs q).priority ∧
      (k'.procs q).hasStack = (k.procs q).hasStack ∧
      (k'.procs q).hasQuantum = (k.procs q).hasQuantum ∧
      (k'.procs q).stackPointer = (k.procs q).stackPointer := by
    intro q hq
    have h := hother q hq
    simp only [Proc.pace, Prod.mk.injEq] at h
    exact h
  refine ⟨fun q hq => ?_, fun q => ?_, .inl hcur, fun q _ hq => ?_, hregs.1,
    fun q _ hq => (hsame q fun hqp => hq (hp.trans (congrArg some hqp.symm))).2.2.2,
    .inl hregs.2.1, hregs.2.2⟩
  · by_cases hqp : q = p
    · subst hqp
      unfold Proc.Paced
      rw [hprio]
      exact ⟨by decide, fun _ => by decide⟩
    · obtain ⟨h₁, h₂, -⟩ := hsame q hqp
      unfold Proc.Paced
      rw [h₁, h₂]
      exact hq
  · by_cases hqp : q = p
    · subst hqp
      exact Nat.le_of_eq hquantum
    · exact Nat.le_of_eq (hsame q hqp).2.2.1
  · rw [hready]
    exact ⟨hq, Nat.le_refl _⟩

/-- `proc_init` gives the process its stack and its priority together. -/
theorem procSetup (k : Kernel) (hp : S.newborn = some p) (a : SpawnArgs) (entry : Nat) :
    Prelude S k (procSetup k p a entry).1 := by
  have hturn : (initForeground (initFds (k.setProc p fun q =>
      { q with hasStack := true, stackPointer := a.stackTop }) p k.currentProcess a.fds) p
        k.currentProcess a.background).turn = (k.setProc p fun q =>
      { q with hasStack := true, stackPointer := a.stackTop }).turn :=
    (turn_initForeground _ p _ _).trans (turn_initFds _ p _ _)
  show Prelude S k (initFamily _ p k.currentProcess entry).1
  generalize initForeground _ p _ _ = k₁ at hturn
  have hpace : ∀ q, (k₁.procs q).pace = ((k.setProc p fun q =>
      { q with hasStack := true, stackPointer := a.stackTop }).procs q).pace :=
    fun q => congrFun (congrArg Prod.fst hturn) q
  have hdefault : Prelude S k (k₁.setProc p fun q =>
      { q with
        parent := k.currentProcess, entry := entry, priority := quantumDefault, status := .ready,
        exit := -1, blockReason := .none, waitingOn := .null }) := by
    refine outfit hp (fun q hq => ?_) (by simp) ?_ (congrArg (fun t => t.2.1) hturn)
      (congrArg (fun t => t.2.2.1) hturn)
      ⟨congrArg (fun t => t.2.2.2.1) hturn, congrArg (fun t => t.2.2.2.2.1) hturn,
        congrArg (fun t => t.2.2.2.2.2) hturn⟩
    · rw [Kernel.procs_setProc_ne _ hq, hpace q, Kernel.procs_setProc_ne _ hq]
    · have hq : (k₁.procs p).hasQuantum = (k.procs p).hasQuantum := by
        have h := congrArg (fun t => t.2.2.1) (hpace p)
        simpa [Proc.pace] using h
      simpa using hq
  unfold initFamily
  dsimp only
  split
  · exact hdefault
  · rename_i c _
    split
    · refine hdefault.trans ?_
      dsimp only
      exact .setProc _ c rfl
    · exact hdefault

theorem procInit (k : Kernel) (hp : S.newborn = some p) (a : SpawnArgs) (entry : Nat) :
    Prelude S k (procInit k p a entry).1 := by
  unfold TpeSo.procInit
  split
  · exact .setProc k p (f := fun q => { q with pid := -1 }) rfl
  · rename_i i _
    have hpid : Prelude S k ({ k.setProc p (fun q => { q with pid := (i : Int) }) with
        processTable := Function.update k.processTable i (some p) } : Kernel).alloc :=
      .of_turn (turn_setProc k p (f := fun q => { q with pid := (i : Int) }) rfl)
    dsimp only
    split
    · exact hpid.trans (procSetup _ hp a entry)
    · exact hpid

theorem procNew (k : Kernel) (hn : S.newborn = some k.nextProc) : Prelude S k (procNew k).1 := by
  have halloc : Prelude S k k.alloc := .of_turn rfl
  unfold TpeSo.procNew
  split
  · exact .refl k
  · dsimp only
    split
    · refine halloc.trans ⟨fun q hq => ?_, fun q => ?_, .inl rfl,
        fun _ _ hq => ⟨hq, Nat.le_refl _⟩, rfl, fun q _ hq => ?_, .inr ⟨hn, rfl⟩, rfl⟩
      · by_cases hqn : q = k.nextProc
        · subst hqn
          simp [Proc.Paced, Kernel.alloc]
        · simpa [Kernel.alloc, hqn] using hq
      · by_cases hqn : q = k.nextProc
        · subst hqn
          simp [Kernel.alloc]
        · simp [Kernel.alloc, hqn]
      · have hqn : q ≠ k.nextProc := fun heq => hq (hn.trans (congrArg some heq.symm))
        simp [Kernel.alloc, hqn]
    · exact halloc

theorem execv {frame : Nat} (hp : S.newborn = some p) (h : execv k p frame = .ok k') :
    Prelude S k k' := by
  have halloc : Prelude S k k.alloc := .of_turn rfl
  unfold TpeSo.execv at h
  dsimp only at h
  split at h
  · split at h
    · cases h
      refine halloc.trans ⟨fun q hq => ?_, fun q => ?_, .inl rfl,
        fun _ _ hq => ⟨hq, Nat.le_refl _⟩, rfl, fun q _ hq => ?_, .inl rfl, rfl⟩
      · have hpaced : (k.alloc.procs q).Paced →
            ((k.alloc.setProc p fun q => { q with stackPointer := frame }).procs q).Paced := by
          intro hq
          have hsame := k.alloc.setProc_spares (p := p)
            (f := fun q => { q with stackPointer := frame })
            (fun q => (q.priority, q.hasStack)) rfl q
          unfold Proc.Paced
          rw [(Prod.mk.inj hsame).1, (Prod.mk.inj hsame).2]
          exact hq
        exact hpaced hq
      · exact Nat.le_of_eq (k.alloc.setProc_spares (p := p)
          (f := fun q => { q with stackPointer := frame }) Proc.hasQuantum rfl q)
      · have hqp : q ≠ p := fun heq => hq (hp.trans (congrArg some heq.symm))
        rw [Kernel.procs_setProc_ne _ hqp]
    · cases h
  · cases h
    exact halloc

/-- The process it hands out is the next one. -/
theorem procNew_eq_some (h : (TpeSo.procNew k).2 = some p) : p = k.nextProc := by
  unfold TpeSo.procNew at h
  split at h
  · cases h
  · dsimp only at h
    split at h
    · exact (Option.some.inj h).symm
    · cases h

theorem sysSpawnProcess {a : SpawnArgs} {r : Kernel × Int} (hn : S.newborn = some k.nextProc)
    (h : sysSpawnProcess k a = .ok r) : Prelude S k r.1 := by
  unfold TpeSo.sysSpawnProcess at h
  split at h
  · cases h
    exact .refl k
  · dsimp only at h
    split at h
    · cases h
      exact procNew k hn
    · rename_i hnew
      have hp := hn.trans (congrArg some (procNew_eq_some hnew).symm)
      obtain ⟨k₁, he, h⟩ := Outcome.bind_eq_ok.mp h
      cases h
      exact (procNew k hn).trans
        ((procInit _ hp a _).trans ((execv hp he).trans (procReady k₁ (some _))))

end Prelude

end TpeSo
