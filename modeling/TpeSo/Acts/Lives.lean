import TpeSo.Acts.Decompose

namespace TpeSo

open Ds Lib

/-!
# Acts — birth, death and collection of processes as sequences of edits

* `does_procKill` — `proc_kill`: the foreground, `Act.kill`, the descriptors, the children,
  the parent;
* `does_waitPidLoop` — one round of `wait_pid`;
* `does_sysSpawnProcess` — `sys_spawn_process`.  `proc_init` already writes the status
  `READY`, some time before `proc_ready` enqueues the process; as `proc_ready` writes it
  again, the sequence makes that edit only then.
-/

variable {C : Kernel → Act → Prop} {φ : Phase} {k k' : Kernel}

/-! ### Death -/

theorem Quiet.setForegroundProcess (k : Kernel) (proc caller : Option ProcId) :
    Quiet k (setForegroundProcess k proc caller) := by
  unfold TpeSo.setForegroundProcess
  split
  · exact .refl k
  · rename_i p
    split
    · exact .trans (.setProc p rfl id) (.setForeground _ _)
    · split
      · exact .refl k
      · rename_i c
        split
        · exact .trans (.setProc c rfl id) (.trans (.setProc p rfl id) (.setForeground _ _))
        · exact .refl k

theorem Quiet.reparentToInit {child : ProcId} (h : reparentToInit k child = .ok k') :
    Quiet k k' := by
  unfold TpeSo.reparentToInit at h
  split at h
  · cases h
  · simp only at h
    split at h
    · cases h
      exact .trans (.setProc _ rfl id) (.setProc _ rfl id)
    · cases h
      exact .trans (.setProc _ rfl id) (.setProc _ rfl id)

theorem Quiet.reparentAll (pids : List Int) :
    ∀ {k : Kernel}, reparentAll k pids = .ok k' → Quiet k k' := by
  induction pids with
  | nil =>
    intro k h
    cases h
    exact .refl _
  | cons pid rest ih =>
    intro k h
    simp only [TpeSo.reparentAll, Outcome.bind_eq_ok] at h
    obtain ⟨o, -, h⟩ := h
    cases o with
    | none => exact ih h
    | some child =>
      obtain ⟨k₁, h₁, h₂⟩ := Outcome.bind_eq_ok.mp h
      exact (Quiet.reparentToInit h₁).trans (ih h₂)

theorem procReap_eq_ok {p : ProcId} (h : procReap k p = .ok k') :
    k' = { forgetPid k p with processCount := k.processCount - 1 } := by
  unfold procReap at h
  simp only at h
  split at h
  · cases h
    rfl
  · cases h

theorem does_killNotify (hC : Common C) {p : ProcId} (h : killNotify k p = .ok k') :
    Does C (.dying p, k) (.run, k') := by
  unfold killNotify at h
  refine .then_one ?_ (.endKill (p := p)) (hC _ _ trivial)
  split at h
  · rw [procReap_eq_ok h]
    exact .trans (.one .reapSelf (hC _ _ trivial)) ((Quiet.setProcessCount _ _).does hC)
  · split at h
    · rename_i hq
      cases h
      exact .one (.wakeParent hq.1 hq.2) (hC _ _ trivial)
    · cases h
      exact .refl _

/-- The parts of a `proc_kill` that does not spare the process. -/
theorem procKill_eq_ok {p : ProcId} {code : Int} (hpid : ¬ ((k.procs p).pid = 0 ∨ (k.procs p).pid = 1))
    (h : procKill k (some p) code = .ok k') :
    ∃ k₁, reparentAll (closeFds (killUnlink k p code) p (List.finRange fdMax))
        ((closeFds (killUnlink k p code) p (List.finRange fdMax)).procs p).children = .ok k₁ ∧
      killNotify k₁ p = .ok k' := by
  simp only [procKill, hpid, if_false] at h
  exact Outcome.bind_eq_ok.mp h

/-- `proc_kill` makes edits only when it does not spare the process. -/
theorem does_procKill (hC : Common C) {proc : Option ProcId} {code : Int}
    (hkill : ∀ p k₁, proc.filter (fun p => (k.procs p).pid ≠ 0 ∧ (k.procs p).pid ≠ 1) = some p →
      Quiet k k₁ → C k₁ (.kill p))
    (h : procKill k proc code = .ok k') : Does C (.run, k) (.run, k') := by
  cases proc with
  | none =>
    cases h
    exact .refl _
  | some p =>
    by_cases hpid : (k.procs p).pid = 0 ∨ (k.procs p).pid = 1
    · simp only [procKill, hpid, if_true] at h
      cases h
      exact .refl _
    · obtain ⟨k₁, hr, hn⟩ := procKill_eq_ok hpid h
      have hfg := Quiet.setForegroundProcess k (k.procs p).parent (some p)
      have htarget : (some p).filter (fun p => (k.procs p).pid ≠ 0 ∧ (k.procs p).pid ≠ 1) =
          some p := by
        rw [not_or] at hpid
        simp [Option.filter, hpid]
      refine .trans (hfg.does hC) ?_
      refine .trans (.one (.kill p code) (hkill p _ htarget hfg)) ?_
      refine .trans (does_closeFds hC (.inr ⟨p, rfl⟩) p (List.finRange fdMax) _) ?_
      exact .trans ((Quiet.reparentAll _ hr).does hC) (does_killNotify hC hn)

/-- `proc_kill` hands the processor to nobody. -/
theorem current_procKill {proc : Option ProcId} {code : Int} (h : procKill k proc code = .ok k')
    {c : ProcId} (hc : k'.currentProcess = some c) : k.currentProcess = some c := by
  cases proc with
  | none =>
    cases h
    exact hc
  | some p =>
    by_cases hpid : (k.procs p).pid = 0 ∨ (k.procs p).pid = 1
    · simp only [procKill, hpid, if_true] at h
      cases h
      exact hc
    · obtain ⟨k₁, hr, hn⟩ := procKill_eq_ok hpid h
      have hnotify : k'.currentProcess = k₁.currentProcess := by
        unfold killNotify at hn
        split at hn
        · rw [procReap_eq_ok hn]
          rfl
        · split at hn <;> · cases hn; rfl
      rw [hnotify, (Quiet.reparentAll _ hr).current, current_closeFds] at hc
      change (unlinkWaiting (rmCurrent _ p) p).currentProcess = some c at hc
      have hunlink : ∀ k : Kernel, (unlinkWaiting k p).currentProcess = k.currentProcess := by
        intro k
        unfold unlinkWaiting
        split <;> rfl
      rw [hunlink] at hc
      unfold rmCurrent at hc
      split at hc
      · cases hc
      · rwa [(Quiet.setForegroundProcess k _ _).current] at hc

/-! ### Collection -/

theorem findZombie_eq_some {child : ProcId} {j : Nat} (pids : List Int) :
    ∀ i, findZombie k pids i = .ok (some (j, child)) →
      ∃ pid, getProcByPid k pid = .ok (some child) ∧ (k.procs child).status = .zombie := by
  induction pids with
  | nil =>
    intro i h
    cases h
  | cons pid rest ih =>
    intro i h
    simp only [findZombie, Outcome.bind_eq_ok] at h
    obtain ⟨o, ho, h⟩ := h
    cases o with
    | none => exact ih _ h
    | some q =>
      by_cases hz : (k.procs q).status = .zombie
      · simp only [hz, if_true, Outcome.ok.injEq, Option.some.injEq, Prod.mk.injEq] at h
        obtain ⟨-, rfl⟩ := h
        exact ⟨pid, ho, hz⟩
      · simp only [hz, if_false] at h
        exact ih _ h

theorem does_collect (hC : Common C) {c child : ProcId} {i : Nat} {pid : Int}
    (hp : getProcByPid k pid = .ok (some child)) (hz : (k.procs child).status = .zombie)
    (h : collect k c i child = .ok k') : Does C (.run, k) (.run, k') := by
  obtain ⟨k₁, hr, he⟩ := Outcome.bind_eq_ok.mp h
  cases he
  rw [procReap_eq_ok hr]
  exact .trans (.one (.reapChild hp hz) (hC _ _ trivial))
    (Quiet.does hC ((Quiet.setProcessCount _ _).trans (.setProc c rfl id)))

theorem does_waitPidLoop (hC : Common C) (hT : Preempts C k) {c : ProcId} {pid : Int}
    {r : Kernel × Option WaitResult} (hc : k.currentProcess = some c)
    (hblock : C k (.blockSelf c .null (.waitPid pid))) (h : waitPidLoop k c pid = .ok r) :
    Does C (.run, k) (.run, r.1) := by
  have hwait : ∀ {r : Kernel × Option WaitResult}, waitChild k pid = .ok r →
      Does C (.run, k) (.run, r.1) := by
    intro r hr
    obtain ⟨k₁, hb, he⟩ := Outcome.bind_eq_ok.mp hr
    cases he
    exact does_blockCurrent_null hC hT hc (by trivial) hblock hb
  unfold waitPidLoop at h
  split at h
  · obtain ⟨o, ho, h⟩ := Outcome.bind_eq_ok.mp h
    cases o with
    | none => exact hwait h
    | some jc =>
      obtain ⟨pid', hp, hz⟩ := findZombie_eq_some _ _ ho
      obtain ⟨k₁, hcol, he⟩ := Outcome.bind_eq_ok.mp h
      cases he
      exact does_collect hC hp hz hcol
  · split at h
    · obtain ⟨o, ho, h⟩ := Outcome.bind_eq_ok.mp h
      cases o with
      | none =>
        cases h
        exact .refl _
      | some child =>
        by_cases hz : (k.procs child).status = .zombie
        · simp only [hz, if_true] at h
          obtain ⟨k₁, hcol, he⟩ := Outcome.bind_eq_ok.mp h
          cases he
          exact does_collect hC ho hz hcol
        · simp only [hz, if_false] at h
          exact hwait h
    · cases h
      exact .refl _

theorem does_waitPid (hC : Common C) (hT : Preempts C k) {pid : Int} {r : Kernel × Option WaitResult}
    (hblock : ∀ c, k.currentProcess = some c → C k (.blockSelf c .null (.waitPid pid)))
    (h : waitPid k pid = .ok r) : Does C (.run, k) (.run, r.1) := by
  unfold waitPid at h
  split at h
  · cases h
  · rename_i c hc
    split at h
    · cases h
      exact .refl _
    · exact does_waitPidLoop hC hT hc (hblock c hc) h

/-! ### Birth -/

/-- What `proc_ready` writes into a process control block. -/
def overwrite (s : ProcState) (r : BlockReason) (w : WaitRef) (q : Proc) : Proc :=
  { q with status := s, blockReason := r, waitingOn := w }

theorem procReady_overwrite (k : Kernel) (p : ProcId) (s : ProcState) (r : BlockReason)
    (w : WaitRef) : procReady (k.setProc p (overwrite s r w)) (some p) = procReady k (some p) := by
  simp [procReady, overwrite, Kernel.setProc, Kernel.kmalloc, Kernel.alloc]

/-- Quiet changes stay quiet under an overwritten process. -/
theorem Quiet.overwrite (h : Quiet k k') (p : ProcId) (s : ProcState) (r : BlockReason)
    (w : WaitRef) : Quiet (k.setProc p (overwrite s r w)) (k'.setProc p (overwrite s r w)) := by
  have hproc : ∀ q, ((k'.setProc p (TpeSo.overwrite s r w)).procs q).watched =
      ((k.setProc p (TpeSo.overwrite s r w)).procs q).watched := by
    intro q
    by_cases hq : q = p
    · subst hq
      rw [Kernel.procs_setProc_self, Kernel.procs_setProc_self]
      simp only [Proc.watched, TpeSo.overwrite, h.pid, h.fds]
    · rw [Kernel.procs_setProc_ne _ hq, Kernel.procs_setProc_ne _ hq, h.proc]
  have hquantum : ∀ q, ((k.setProc p (TpeSo.overwrite s r w)).procs q).hasQuantum = 0 →
      ((k'.setProc p (TpeSo.overwrite s r w)).procs q).hasQuantum = 0 := by
    intro q
    rw [Kernel.setProc_spares k Proc.hasQuantum rfl, Kernel.setProc_spares k' Proc.hasQuantum rfl]
    exact h.quantum q
  exact ⟨⟨hproc, hquantum, h.sem, h.pipe, h.kernel, h.heap⟩, h.kstack⟩

theorem Quiet.execv {p : ProcId} {frame : Nat} (h : execv k p frame = .ok k') : Quiet k k' := by
  unfold TpeSo.execv at h
  simp only at h
  split at h
  · split at h
    · cases h
      exact .trans (.alloc k) (.setProc p rfl id)
    · cases h
  · cases h
    exact .alloc k

/-- Without a stack, `execv` only comes back when it gets no memory. -/
theorem execv_noStack {p : ProcId} {frame : Nat} (hs : (k.procs p).hasStack = false)
    (h : execv k p frame = .ok k') : k.kmalloc = false ∧ k' = k.alloc := by
  have hs' : (k.alloc.procs p).hasStack = false := hs
  unfold execv at h
  cases hm : k.kmalloc with
  | true => simp [hm, hs'] at h
  | false =>
    simp only [hm, Bool.false_eq_true, if_false, Outcome.ok.injEq] at h
    exact ⟨rfl, h.symm⟩

@[simp] theorem fdAddRef_procs (k : Kernel) (e : FdEntry) : (fdAddRef k e).procs = k.procs := by
  unfold fdAddRef
  split <;> rfl

@[simp] theorem fdAddRef_currentProcess (k : Kernel) (e : FdEntry) :
    (fdAddRef k e).currentProcess = k.currentProcess := by
  unfold fdAddRef
  split <;> rfl

theorem setFd_fds_self (k : Kernel) (p : ProcId) (i j : Fin fdMax) (e : FdEntry) :
    ((setFd k p i e).procs p).fds j = if j = i then e else (k.procs p).fds j := by
  simp [setFd, Function.update_apply]

theorem does_inheritLoop (hC : Common C) {p s : ProcId} {slot : Option Nat}
    {fds : Fin fdMax → Int} (is : List (Fin fdMax)) :
    ∀ k : Kernel, k.currentProcess = some s → (∀ i ∈ is, (k.procs p).fds i = {}) → is.Nodup →
      Does C (.spawning p slot, k) (.spawning p slot, inheritLoop k p s fds is) := by
  induction is with
  | nil =>
    intro k _ _ _
    exact .refl _
  | cons i is ih =>
    intro k hc hfree hnd
    rw [inheritLoop]
    split
    · refine .trans (.one (.inherit _ hc (hfree i (by simp))) (hC _ _ trivial)) (ih _ ?_ ?_ ?_)
      · show (fdAddRef k _).currentProcess = some s
        rw [fdAddRef_currentProcess, hc]
      · intro j hj
        have hji : j ≠ i := fun he => (List.nodup_cons.mp hnd).1 (he ▸ hj)
        rw [setFd_fds_self, if_neg hji, fdAddRef_procs]
        exact hfree j (by simp [hj])
      · exact (List.nodup_cons.mp hnd).2
    · exact .refl _

theorem does_setDefaultFds (hC : Common C) {p : ProcId} {slot : Option Nat}
    (hfree : ∀ i, (k.procs p).fds i = {}) :
    Does C (.spawning p slot, k) (.spawning p slot, setDefaultFds k p) := by
  refine .then_one (.then_one (.one (.setTerminal ?_ (hfree 0)) (hC _ _ trivial))
    (.setTerminal ?_ ?_) (hC _ _ trivial)) (.setTerminal ?_ ?_) (hC _ _ trivial)
  · exact id
  · exact id
  · rw [setFd_fds_self, if_neg (by decide), hfree]
  · exact id
  · rw [setFd_fds_self, if_neg (by decide), setFd_fds_self, if_neg (by decide), hfree]

theorem does_initFds (hC : Common C) {p : ProcId} {slot : Option Nat}
    (fds : Option (Fin fdMax → Int)) (hfree : ∀ i, (k.procs p).fds i = {}) :
    Does C (.spawning p slot, k) (.spawning p slot, initFds k p k.currentProcess fds) := by
  cases fds with
  | none => exact does_setDefaultFds hC hfree
  | some fds =>
    cases hc : k.currentProcess with
    | none => exact .refl _
    | some s => exact does_inheritLoop hC _ k hc (fun i _ => hfree i) (List.nodup_finRange _)

theorem Quiet.initForeground (k : Kernel) (p : ProcId) (parent : Option ProcId) (b : Bool) :
    Quiet k (initForeground k p parent b) := by
  unfold TpeSo.initForeground
  split
  · exact .refl k
  · exact .setForegroundProcess k _ _

/-- The end of `proc_init` is quiet up to what `proc_ready` overwrites. -/
theorem Quiet.initFamily (k : Kernel) (p : ProcId) (parent : Option ProcId) (entry : Nat) :
    Quiet k ((initFamily k p parent entry).1.setProc p
      (TpeSo.overwrite (k.procs p).status (k.procs p).blockReason (k.procs p).waitingOn)) := by
  have hset : Quiet k ((k.setProc p fun q =>
      { q with
        parent := parent, entry := entry, priority := quantumDefault, status := .ready,
        exit := -1, blockReason := .none, waitingOn := .null }).setProc p
      (TpeSo.overwrite (k.procs p).status (k.procs p).blockReason (k.procs p).waitingOn)) := by
    rw [Kernel.setProc_setProc]
    exact .setProc p rfl id
  unfold TpeSo.initFamily
  cases parent with
  | none => exact hset
  | some c =>
    simp only
    split
    · exact hset.trans (Quiet.overwrite (.setProc c rfl id) p _ _ _)
    · exact hset

/-- `proc_init` with a stack.  The edits lead to a kernel that agrees with the real one up
    to what `proc_ready` overwrites in `p`. -/
theorem does_procSetup (hC : Common C) {p : ProcId} (slot : Option Nat) (a : SpawnArgs)
    (entry : Nat) (hfree : ∀ i, (k.procs p).fds i = {}) :
    ∃ s r w, Does C (.spawning p slot, k)
      (.spawning p slot, (procSetup k p a entry).1.setProc p (overwrite s r w)) := by
  have hq : Quiet k (k.setProc p fun q => { q with hasStack := true, stackPointer := a.stackTop }) :=
    .setProc p rfl id
  refine ⟨_, _, _, .trans (hq.does hC) (.trans (does_initFds hC a.fds ?_)
    (.trans ((Quiet.initForeground _ p k.currentProcess a.background).does hC)
      ((Quiet.initFamily _ p k.currentProcess entry).does hC)))⟩
  intro i
  rw [hq.fds, hfree]

/-- `sys_spawn_process` from the claim of a table slot on. -/
theorem does_procInit (hC : Common C) {p : ProcId} {a : SpawnArgs} {entry : Nat}
    (hclaim : ∀ i, procPidAlloc k = some i → C k (.claimPid i))
    (hfree : ∀ i, (k.procs p).fds i = {}) (hs : (k.procs p).hasStack = false)
    (h : execv (procInit k p a entry).1 p a.frame = .ok k') :
    Does C (.spawning p none, k) (.run, procReady k' (some p)) := by
  unfold procInit at h
  cases hi : procPidAlloc k with
  | none =>
    -- the table is full
    simp only [hi] at h
    have hs' : ((k.setProc p fun q => { q with pid := -1 }).procs p).hasStack = false := by
      rw [Kernel.procs_setProc_self, ← hs]
    obtain ⟨hm, rfl⟩ := execv_noStack hs' h
    exact .trans (.one .noPid (hC _ _ trivial)) (.one (.startBare hm) (hC _ _ trivial))
  | some i =>
    simp only [hi] at h
    have hlt : i < maxProcesses := List.mem_range.mp (List.mem_of_find?_eq_some hi)
    have hslot : k.processTable i = none := by
      simpa using List.find?_some hi
    refine .trans (.one (.claimPid hlt hslot) (hclaim i hi)) ?_
    generalize hk₁ : ({ k.setProc p (fun q => { q with pid := i }) with
      processTable := Function.update k.processTable i (some p) } : Kernel) = k₁ at h ⊢
    have hfree₁ : ∀ j, (k₁.alloc.procs p).fds j = {} := by
      intro j
      subst hk₁
      show ((k.setProc p fun q => { q with pid := i }).procs p).fds j = {}
      rw [Kernel.procs_setProc_self, ← hfree j]
    refine .trans ((Quiet.alloc k₁).does hC) ?_
    split at h
    · obtain ⟨s, r, w, hd⟩ := does_procSetup (C := C) hC (some i) a entry hfree₁
      refine .trans hd (.trans (((Quiet.execv h).overwrite p s r w).does hC) ?_)
      rw [← procReady_overwrite k' p s r w]
      exact .one .start (hC _ _ trivial)
    · exact .trans ((Quiet.execv h).does hC) (.one .start (hC _ _ trivial))

/-- What `sys_spawn_process` returns; whoever it has spawned has just been readied. -/
theorem sysSpawnProcess_eq_ok {a : SpawnArgs} {r : Kernel × Int} (h : sysSpawnProcess k a = .ok r) :
    r.2 = -eNoEnt ∨ r.2 = -eNoMem ∨ ∃ k₁, r.1 = procReady k₁ (some k.nextProc) ∧
      r.2 = (r.1.procs k.nextProc).pid := by
  unfold sysSpawnProcess at h
  split at h
  · cases h
    exact .inl rfl
  · unfold procNew at h
    by_cases hcount : (maxProcesses : Int) ≤ k.processCount
    · simp only [hcount, if_true] at h
      cases h
      exact .inr (.inl rfl)
    · cases hm : k.kmalloc with
      | false =>
        simp only [hcount, if_false, hm, Bool.false_eq_true] at h
        cases h
        exact .inr (.inl rfl)
      | true =>
        simp only [hcount, if_false, hm, if_true] at h
        obtain ⟨k₁, -, hr⟩ := Outcome.bind_eq_ok.mp h
        cases hr
        exact .inr (.inr ⟨k₁, rfl, rfl⟩)

theorem does_sysSpawnProcess (hC : Common C) {a : SpawnArgs} {r : Kernel × Int}
    (hclaim : ∀ k₁ i, procPidAlloc k = some i → C k₁ (.claimPid i))
    (h : sysSpawnProcess k a = .ok r) : Does C (.run, k) (.run, r.1) := by
  unfold sysSpawnProcess at h
  split at h
  · cases h
    exact .refl _
  · rename_i entry _
    unfold procNew at h
    by_cases hcount : (maxProcesses : Int) ≤ k.processCount
    · simp only [hcount, if_true] at h
      cases h
      exact .refl _
    · simp only [hcount, if_false] at h
      cases hm : k.kmalloc with
      | false =>
        simp only [hm, Bool.false_eq_true, if_false] at h
        cases h
        exact (Quiet.alloc k).does hC
      | true =>
        simp only [hm, if_true] at h
        obtain ⟨k₁, he, hr⟩ := Outcome.bind_eq_ok.mp h
        cases hr
        refine .trans ((Quiet.alloc k).does hC) (.trans (.one .newProc (hC _ _ trivial)) ?_)
        refine does_procInit hC ?_ ?_ ?_ he
        · exact fun i hi => hclaim _ i hi
        · intro i
          simp
        · simp

end TpeSo
