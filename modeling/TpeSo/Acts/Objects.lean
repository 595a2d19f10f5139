import TpeSo.Acts.Completions
import TpeSo.Acts.Fixed
import TpeSo.Acts.Lives

namespace TpeSo

open Ds Lib

/-!
# Acts — what a step does to semaphores, pipes and the pending line

Most entries only move processes about.  The ones that serve a semaphore, a pipe or the
keyboard do so through a handful of routines.

* `Kernel.objects` — the semaphores, the pipes with their table, and the keyboard line;
* `ObjectStep k e k'` — the objects of `k'` are those of `k`, or what one of the routines
  leaves;
* `step_object` — **every step is one of these**, so that an invariant of the objects has
  to be shown for the routines only;
* `step_offPipes` — the same for what the calls on pipes leave alone.
-/

variable {k k' : Kernel} {c p : ProcId} {e : Event} {o : Option Completion} {id : Nat}

/-- The semaphores, the pipes with their table, and the keyboard line. -/
def Kernel.objects (k : Kernel) : (Nat → Semaphore) × (PipeId → Pipe) × (Nat → Option PipeId) ×
    PipeId × Ringbuf × Int × Bool :=
  (k.semaphores, k.pipes, k.pipesTable, k.nextPipe, k.kbuff, k.currentLineLen, k.canonicalMode)

section Parts

variable (h : k'.objects = k.objects)
include h

theorem semaphores_of_objects : k'.semaphores = k.semaphores := congrArg (·.1) h

theorem pipes_of_objects : k'.pipes = k.pipes := congrArg (·.2.1) h

theorem pipesTable_of_objects : k'.pipesTable = k.pipesTable := congrArg (·.2.2.1) h

theorem nextPipe_of_objects : k'.nextPipe = k.nextPipe := congrArg (·.2.2.2.1) h

theorem kbuff_of_objects : k'.kbuff = k.kbuff := congrArg (·.2.2.2.2.1) h

theorem canonicalMode_of_objects : k'.canonicalMode = k.canonicalMode :=
  congrArg (·.2.2.2.2.2.2) h

end Parts

/-! ### Routines that touch no object -/

theorem objects_of_fixed (h : k'.fixed = k.fixed) : k'.objects = k.objects := by
  show k'.fixed.objects = k.fixed.objects
  rw [h]

theorem objects_procReady (k : Kernel) (o : Option ProcId) : (procReady k o).objects = k.objects :=
  objects_of_fixed (fixed_procReady k o)

theorem objects_suspend (k : Kernel) (w : Pending) : (k.suspend w).objects = k.objects :=
  objects_of_fixed (fixed_suspend k w)

theorem objects_blockCurrent {w : Pending} {reason : BlockReason} {res : WaitRef}
    (h : blockCurrent (k.suspend w) reason res = .ok k') : k'.objects = k.objects :=
  objects_of_fixed ((fixed_blockCurrent h).trans (fixed_suspend k w))

theorem objects_procReap (h : procReap k p = .ok k') : k'.objects = k.objects := by
  rw [procReap_eq_ok h]
  rfl

theorem objects_killNotify (h : killNotify k p = .ok k') : k'.objects = k.objects := by
  unfold killNotify at h
  split at h
  · exact objects_procReap h
  · split at h
    · cases h
      exact objects_procReady k _
    · cases h
      rfl

theorem objects_setForegroundProcess (k : Kernel) (o caller : Option ProcId) :
    (setForegroundProcess k o caller).objects = k.objects := by
  unfold setForegroundProcess
  split
  · rfl
  · split
    · rfl
    · split
      · rfl
      · split <;> rfl

theorem objects_rmCurrent (k : Kernel) (p : ProcId) : (rmCurrent k p).objects = k.objects := by
  unfold rmCurrent
  split <;> rfl

theorem objects_reparentToInit {child : ProcId} (h : reparentToInit k child = .ok k') :
    k'.objects = k.objects := by
  unfold reparentToInit at h
  split at h
  · cases h
  · dsimp only at h
    split at h <;> · cases h; rfl

theorem objects_reparentAll (pids : List Int) :
    ∀ {k : Kernel}, reparentAll k pids = .ok k' → k'.objects = k.objects := by
  induction pids with
  | nil =>
    intro k h
    cases h
    rfl
  | cons pid rest ih =>
    intro k h
    obtain ⟨found, -, h⟩ := Outcome.bind_eq_ok.mp h
    split at h
    · exact ih h
    · obtain ⟨k₁, hr, h⟩ := Outcome.bind_eq_ok.mp h
      exact (ih h).trans (objects_reparentToInit hr)

theorem objects_collect {i : Nat} {child : ProcId} (h : collect k c i child = .ok k') :
    k'.objects = k.objects := by
  obtain ⟨k₁, hr, he⟩ := Outcome.bind_eq_ok.mp h
  cases he
  have hreap : k₁.objects = k.objects := objects_procReap hr
  exact hreap

theorem objects_waitChild {pid : Int} {r : Kernel × Option WaitResult}
    (h : waitChild k pid = .ok r) : r.1.objects = k.objects := by
  obtain ⟨k₁, hb, he⟩ := Outcome.bind_eq_ok.mp h
  cases he
  exact objects_blockCurrent hb

theorem objects_waitPidLoop {pid : Int} {r : Kernel × Option WaitResult}
    (h : waitPidLoop k c pid = .ok r) : r.1.objects = k.objects := by
  unfold waitPidLoop at h
  split at h
  · obtain ⟨found, -, h⟩ := Outcome.bind_eq_ok.mp h
    split at h
    · obtain ⟨k₁, hcol, he⟩ := Outcome.bind_eq_ok.mp h
      cases he
      exact objects_collect hcol
    · exact objects_waitChild h
  · split at h
    · obtain ⟨found, -, h⟩ := Outcome.bind_eq_ok.mp h
      split at h
      · cases h
        rfl
      · split at h
        · obtain ⟨k₁, hcol, he⟩ := Outcome.bind_eq_ok.mp h
          cases he
          exact objects_collect hcol
        · exact objects_waitChild h
    · cases h
      rfl

theorem objects_waitPid {pid : Int} {r : Kernel × Option WaitResult}
    (h : waitPid k pid = .ok r) : r.1.objects = k.objects := by
  unfold waitPid at h
  split at h
  · cases h
  · split at h
    · cases h
      rfl
    · exact objects_waitPidLoop h

theorem objects_changePriority (k : Kernel) (child : Option ProcId) (n : Int) :
    (changePriority k child n).1.objects = k.objects := by
  unfold changePriority
  split
  · rfl
  · dsimp only
    split
    · rfl
    · split <;> rfl

theorem objects_initFamily (k : Kernel) (p : ProcId) (parent : Option ProcId) (entry : Nat) :
    (initFamily k p parent entry).1.objects = k.objects := by
  unfold initFamily
  dsimp only
  split
  · rfl
  · split <;> rfl

theorem objects_initForeground (k : Kernel) (p : ProcId) (parent : Option ProcId) (bg : Bool) :
    (initForeground k p parent bg).objects = k.objects := by
  unfold initForeground
  split
  · rfl
  · exact objects_setForegroundProcess k _ _

theorem objects_execv {frame : Nat} (h : execv k p frame = .ok k') : k'.objects = k.objects := by
  unfold execv at h
  dsimp only at h
  split at h
  · split at h
    · cases h
      rfl
    · cases h
  · cases h
    rfl

theorem objects_procNew (k : Kernel) : (procNew k).1.objects = k.objects := by
  unfold procNew
  split
  · rfl
  · dsimp only
    split <;> rfl

theorem objects_allocAll (n : Nat) : ∀ k : Kernel, (allocAll k n).1.objects = k.objects := by
  induction n with
  | zero => exact fun _ => rfl
  | succ n ih =>
    intro k
    unfold allocAll
    split
    · exact ih k.alloc
    · rfl

/-! ### The calls on pipes -/

/-- The kernel a call goes on in: when its process is switched back in, the note of what is
    left to do is taken off its kernel stack. -/
def Kernel.entered (k : Kernel) : Event → Kernel
  | .resume =>
    match k.currentProcess with
    | none => k
    | some c => { k with kstack := Function.update k.kstack c none }
  | _ => k

/-- The call of `pipe_read` or `pipe_write` behind a descriptor. -/
def fdPipe (k : Kernel) (fd : Int) (ops : FileOps) : Option PipeId :=
  if h : 0 ≤ fd ∧ fd < fdMax then
    k.currentProcess.bind fun c =>
      let d := (k.procs c).fds ⟨fd.toNat, toNat_lt_fdMax h⟩
      if d.ops = some ops then d.resource else none
  else none

/-- What the current process has left to do in the kernel. -/
def Kernel.unfinished (k : Kernel) : Option Pending := k.currentProcess.bind k.kstack

/-- The `pipe_read` an entry runs, from the loop test on: the pipe and the size. -/
def readCall (k : Kernel) : Event → Option (PipeId × Nat)
  | .sysRead fd count _ => (fdPipe k fd .pipeRead).map fun pp => (pp, count)
  | .resume =>
    match k.unfinished with
    | some (.pipeRead pp size) => some (pp, size)
    | _ => none
  | _ => none

/-- The `pipe_write` an entry runs, from the loop test on: the pipe and the bytes. -/
def writeCall (k : Kernel) : Event → Option (PipeId × List UInt8)
  | .sysWrite fd buf => (fdPipe k fd .pipeWrite).map fun pp => (pp, buf)
  | .resume =>
    match k.unfinished with
    | some (.pipeWrite pp buf) => some (pp, buf)
    | _ => none
  | _ => none

theorem fdPipe_eq_some {fd : Int} {ops : FileOps} {pp : PipeId} (h : fdPipe k fd ops = some pp) :
    ∃ c i, k.currentProcess = some c ∧ fd = (i : Fin fdMax).val ∧
      ((k.procs c).fds i).ops = some ops ∧ ((k.procs c).fds i).resource = some pp := by
  unfold fdPipe at h
  split at h
  · rename_i hfd
    obtain ⟨c, hc, h⟩ := Option.bind_eq_some_iff.mp h
    dsimp only at h
    split at h
    · rename_i hops
      exact ⟨c, _, hc, (Int.toNat_of_nonneg hfd.1).symm, hops, h⟩
    · cases h
  · cases h

theorem fdPipe_of_current {fd : Int} {ops : FileOps} (hfd : 0 ≤ fd ∧ fd < fdMax)
    (hc : k.currentProcess = some c) : fdPipe k fd ops =
      if ((k.procs c).fds ⟨fd.toNat, toNat_lt_fdMax hfd⟩).ops = some ops then
        ((k.procs c).fds ⟨fd.toNat, toNat_lt_fdMax hfd⟩).resource else none := by
  rw [fdPipe, dif_pos hfd, hc]
  rfl

theorem unfinished_eq (hc : k.currentProcess = some c) : k.unfinished = k.kstack c := by
  rw [Kernel.unfinished, hc, Option.bind_some]

theorem objects_entered (k : Kernel) (e : Event) : (k.entered e).objects = k.objects := by
  unfold Kernel.entered
  split
  · split <;> rfl
  · rfl

theorem current_entered (k : Kernel) (e : Event) :
    (k.entered e).currentProcess = k.currentProcess := by
  unfold Kernel.entered
  split
  · split <;> rfl
  · rfl

theorem entered_resume (hc : k.currentProcess = some c) :
    k.entered .resume = { k with kstack := Function.update k.kstack c none } := by
  cases k
  cases hc
  rfl

/-- The call an event makes, or goes on with. -/
def attempt (k : Kernel) : Event → Outcome StepResult
  | .resume =>
    match k.currentProcess with
    | none => .fault
    | some c =>
      match k.kstack c with
      | none => .fault
      | some w => resume k c w
  | e => enter k e

theorem attempt_resume (hc : k.currentProcess = some c) {w : Pending} (hw : k.kstack c = some w) :
    attempt k .resume = resume k c w := by
  simp only [attempt, hc, hw]

/-- A step is what the call attempted leads to. -/
theorem step_attempt {r : StepResult} (hs : step k e = some r) : attempt k e = .ok r := by
  rcases step_eq_some hs with ⟨he, -, h⟩ | ⟨rfl, c, w, hc, hw, h⟩
  · cases e with
    | resume => exact absurd rfl he
    | _ => exact h
  · rw [attempt_resume hc hw, h]

theorem unfinished_cases {w : Pending} (hw : k.unfinished = some w) :
    ∃ c, k.currentProcess = some c ∧ attempt k .resume = resume k c w := by
  obtain ⟨c, hc, hw⟩ := Option.bind_eq_some_iff.mp hw
  exact ⟨c, hc, attempt_resume hc hw⟩

/-- **An event that runs `pipe_read`** is that call. -/
theorem attempt_readCall {pp : PipeId} {size : Nat} (hcall : readCall k e = some (pp, size)) :
    ∃ c, k.currentProcess = some c ∧ attempt k e =
      (pipeRead (k.entered e) c pp size >>= fun r => .ok (r.1, r.2.map (.pipeRead pp))) := by
  cases e with
  | sysRead fd count buf0 =>
    obtain ⟨pp', hpp, heq⟩ := Option.map_eq_some_iff.mp hcall
    obtain ⟨rfl, rfl⟩ := Prod.mk.inj heq
    obtain ⟨c, i, hc, rfl, hops, hres⟩ := fdPipe_eq_some hpp
    refine ⟨c, hc, ?_⟩
    simp only [attempt, enter, sysRead, withFd]
    rw [dif_pos ⟨by omega, by exact_mod_cast i.isLt⟩]
    simp only [hc, fdRead, Int.toNat_natCast, Fin.eta, hops, hres]
    rfl
  | resume =>
    simp only [readCall] at hcall
    split at hcall
    · rename_i pp' size' hw
      cases hcall
      obtain ⟨c, hc, heq⟩ := unfinished_cases hw
      refine ⟨c, hc, ?_⟩
      rw [heq, entered_resume hc]
      rfl
    · cases hcall
  | _ => cases hcall

/-- **An event that runs `pipe_write`** is that call. -/
theorem attempt_writeCall {pp : PipeId} {buf : List UInt8} (hcall : writeCall k e = some (pp, buf)) :
    ∃ c, k.currentProcess = some c ∧ attempt k e =
      (pipeWrite (k.entered e) c pp buf >>= fun r => .ok (r.1, r.2.map (.pipeWrite pp buf))) := by
  cases e with
  | sysWrite fd buf' =>
    obtain ⟨pp', hpp, heq⟩ := Option.map_eq_some_iff.mp hcall
    obtain ⟨rfl, rfl⟩ := Prod.mk.inj heq
    obtain ⟨c, i, hc, rfl, hops, hres⟩ := fdPipe_eq_some hpp
    refine ⟨c, hc, ?_⟩
    simp only [attempt, enter, sysWrite, withFd]
    rw [dif_pos ⟨by omega, by exact_mod_cast i.isLt⟩]
    simp only [hc, fdWrite, Int.toNat_natCast, Fin.eta, hops, hres]
    rfl
  | resume =>
    simp only [writeCall] at hcall
    split at hcall
    · rename_i pp' buf' hw
      cases hcall
      obtain ⟨c, hc, heq⟩ := unfinished_cases hw
      refine ⟨c, hc, ?_⟩
      rw [heq, entered_resume hc]
      rfl
    · cases hcall
  | _ => cases hcall

theorem step_readCall {pp : PipeId} {size : Nat} (hcall : readCall k e = some (pp, size))
    (hs : step k e = some (k', o)) : ∃ c r, k.currentProcess = some c ∧
      pipeRead (k.entered e) c pp size = .ok r ∧ k' = r.1 ∧ o = r.2.map (.pipeRead pp) := by
  obtain ⟨c, hc, heq⟩ := attempt_readCall hcall
  obtain ⟨r, hr, he⟩ := Outcome.bind_eq_ok.mp (heq.symm.trans (step_attempt hs))
  obtain ⟨rfl, rfl⟩ := Prod.mk.inj (Outcome.ok.inj he)
  exact ⟨c, r, hc, hr, rfl, rfl⟩

theorem step_writeCall {pp : PipeId} {buf : List UInt8} (hcall : writeCall k e = some (pp, buf))
    (hs : step k e = some (k', o)) : ∃ c r, k.currentProcess = some c ∧
      pipeWrite (k.entered e) c pp buf = .ok r ∧ k' = r.1 ∧ o = r.2.map (.pipeWrite pp buf) := by
  obtain ⟨c, hc, heq⟩ := attempt_writeCall hcall
  obtain ⟨r, hr, he⟩ := Outcome.bind_eq_ok.mp (heq.symm.trans (step_attempt hs))
  obtain ⟨rfl, rfl⟩ := Prod.mk.inj (Outcome.ok.inj he)
  exact ⟨c, r, hc, hr, rfl, rfl⟩

/-! ### What a step does -/

/-- What a key press comes down to. -/
inductive Pressed where
  /-- At most a modifier key, which is noted. -/
  | noted
  | ctrlD
  | ctrlC
  | char (ch : UInt8)
  deriving DecidableEq

/-- The reading of the scan code `sc` with the modifier keys as noted.  Four codes of the
    table are those of modifier keys. -/
def pressed (k : Kernel) (sc : Nat) : Pressed :=
  if sc ∈ [0x01, 0x1D, 0x2A, 0x36] then .noted
  else
    match printableAscii[sc]? with
    | none => .noted
    | some key =>
      if k.ctrl ∧ key.1 = 100 then .ctrlD
      else if k.ctrl ∧ key.1 = 99 then .ctrlC
      else if k.arrow then .noted
      else .char (if k.shift ^^ k.capsLock then key.2 else key.1)

/-- The objects after a step: those before it, or what one routine makes of them. -/
inductive ObjectStep (k : Kernel) (e : Event) (k' : Kernel) : Prop where
  | same (h : k'.objects = k.objects)
  -- semaphores
  | semCreate (id v : Nat) (he : e = .sysCreateSem id v)
      (h : k'.objects = (mySemCreate k id v).1.objects)
  | semDestroy (id : Nat) (he : e = .sysCloseSem id)
      (h : k'.objects = (mySemDestroy k id).1.objects)
  | semPost (id : Nat) (he : e = .sysSemPost id) (r : Kernel × Int) (hr : mySemPost k id = .ok r)
      (h : k'.objects = r.1.objects)
  | semWait (id : Nat) (he : e = .sysSemWait id) (r : Kernel × Option Int)
      (hr : mySemWait k id = .ok r) (h : k'.objects = r.1.objects)
  | semTrywait (id : Nat) (he : e = .sysSemTrywait id) (r : Kernel × Int)
      (hr : mySemTrywait k id = .ok r) (h : k'.objects = r.1.objects)
  -- pipes
  | pipeRead (pp : PipeId) (size : Nat) (hcall : readCall k e = some (pp, size)) (c : ProcId)
      (hc : k.currentProcess = some c) (r : Kernel × Option (List UInt8))
      (hr : pipeRead (k.entered e) c pp size = .ok r) (h : k'.objects = r.1.objects)
  | pipeWrite (pp : PipeId) (buf : List UInt8) (hcall : writeCall k e = some (pp, buf)) (c : ProcId)
      (hc : k.currentProcess = some c) (r : Kernel × Option Int)
      (hr : pipeWrite (k.entered e) c pp buf = .ok r) (h : k'.objects = r.1.objects)
  | createPipe (id junk : List UInt8) (he : e = .sysPipeCreate id junk)
      (h : k'.objects = (createPipe k id junk).1.objects)
  | openPipe (id junk : List UInt8) (mode : Int) (he : e = .sysPipeOpen id junk mode) (c : ProcId)
      (hc : k.currentProcess = some c) (i : Fin fdMax) (hi : findFreeFd k c = some i)
      (h : k'.objects = (openPipe k c i id junk mode).1.objects)
  | closeName (id : List UInt8) (he : e = .sysPipeClose id) (pp : PipeId)
      (hpp : findPipeById k id = some pp) (h : k'.objects = (pipeFree k pp).objects)
  | closeFd (i : Fin fdMax) (he : e = .sysCloseFd i.val) (c : ProcId)
      (hc : k.currentProcess = some c) (h : k'.objects = (closeSlot k c i).objects)
  | kill (p : ProcId) (hp : killTarget k e = some p) (k₁ : Kernel)
      (hk₁ : k₁ = k ∨ k₁ = k.suspend .exit) (code : Int)
      (h : k'.objects = (closeFds (killUnlink k₁ p code) p (List.finRange fdMax)).objects)
  | inherit (a : SpawnArgs) (he : e = .sysSpawn a) (k₁ : Kernel) (hk₁ : k₁.objects = k.objects)
      (p s : ProcId) (fds : Fin fdMax → Int)
      (h : k'.objects = (inheritLoop k₁ p s fds (List.finRange fdMax)).objects)
  -- the keyboard
  | char (sc : Nat) (ch : UInt8) (he : e = .key sc) (hch : pressed k sc = .char ch)
      (h : k'.objects = (handleChar k ch).objects)
  | ctrlD (sc : Nat) (he : e = .key sc) (hch : pressed k sc = .ctrlD)
      (h : k'.objects = (handleCtrlD k).objects)
  | line (count n : Nat) (hkey : ∀ sc, e ≠ .key sc) (hn : nextLineLength k = .ok n) (h0 : n ≠ 0)
      (h : k'.objects = (getLine k count).1.objects)
  | canonical (b : Bool) (he : e = .sysSetCanonical b)
      (h : k'.objects = { k with canonicalMode := b }.objects)

/-- `proc_kill` unlinks its victim and closes its descriptors. -/
theorem objects_procKill {code : Int} (hpid : ¬ ((k.procs p).pid = 0 ∨ (k.procs p).pid = 1))
    (h : procKill k (some p) code = .ok k') :
    k'.objects = (closeFds (killUnlink k p code) p (List.finRange fdMax)).objects := by
  obtain ⟨k₁, hr, hn⟩ := procKill_eq_ok hpid h
  exact (objects_killNotify hn).trans (objects_reparentAll _ hr)

/-- A kill in a kernel that differs from `k` in its kernel stacks at most. -/
theorem ObjectStep.procKill {k₁ k₂ : Kernel} {proc : Option ProcId} {code : Int}
    (hk₁ : k₁ = k ∨ k₁ = k.suspend .exit)
    (hp : killTarget k e = proc.filter fun p => (k.procs p).pid ≠ 0 ∧ (k.procs p).pid ≠ 1)
    (h : TpeSo.procKill k₁ proc code = .ok k₂) (hk' : k'.objects = k₂.objects) :
    ObjectStep k e k' := by
  have hobj : k₁.objects = k.objects := by
    rcases hk₁ with rfl | rfl
    · rfl
    · exact objects_suspend k .exit
  have hprocs : k₁.procs = k.procs := by
    rcases hk₁ with rfl | rfl
    · rfl
    · unfold Kernel.suspend
      split <;> rfl
  cases proc with
  | none =>
    cases h
    exact .same (hk'.trans hobj)
  | some p =>
    by_cases hpid : (k.procs p).pid = 0 ∨ (k.procs p).pid = 1
    · have hpid₁ := hpid
      rw [← hprocs] at hpid₁
      rw [TpeSo.procKill, if_pos hpid₁] at h
      cases h
      exact .same (hk'.trans hobj)
    · have hpid₁ := hpid
      rw [← hprocs] at hpid₁
      refine .kill p ?_ k₁ hk₁ code (hk'.trans (objects_procKill hpid₁ h))
      rw [not_or] at hpid
      rw [hp]
      simp [Option.filter, hpid]

/-- A read of the keyboard takes a line, or nothing. -/
theorem ObjectStep.readLine {count : Nat} {buf0 : UInt8} {r : Kernel × Option LineResult} {k₁ : Kernel}
    (hk₁ : k₁.objects = k.objects) (hkey : ∀ sc, e ≠ .key sc)
    (h : readLine k₁ c count buf0 = .ok r) (hk' : k'.objects = r.1.objects) :
    ObjectStep k e k' := by
  obtain ⟨n, hn, h⟩ := Outcome.bind_eq_ok.mp h
  split at h
  · split at h
    · cases h
      exact .same (hk'.trans hk₁)
    · obtain ⟨k₂, hb, he⟩ := Outcome.bind_eq_ok.mp h
      cases he
      exact .same (hk'.trans ((objects_blockCurrent hb).trans hk₁))
  · rename_i h0
    cases h
    have hmode := canonicalMode_of_objects hk₁
    have hbuf := kbuff_of_objects hk₁
    rw [nextLineLength, hmode, hbuf] at hn
    refine .line count n hkey hn h0 (hk'.trans ?_)
    simp only [Kernel.objects, Prod.mk.injEq] at hk₁
    unfold getLine
    rw [hmode, hbuf]
    split
    · dsimp only
      split <;> simp [Kernel.objects, hk₁]
    · simp [Kernel.objects, hk₁]

theorem ObjectStep.spawn {a : SpawnArgs} {r : Kernel × Int} (hr : sysSpawnProcess k a = .ok r) :
    ObjectStep k (.sysSpawn a) r.1 := by
  unfold sysSpawnProcess at hr
  split at hr
  · cases hr
    exact .same rfl
  · rename_i entry _
    have hnew := objects_procNew k
    dsimp only at hr
    split at hr
    · cases hr
      exact .same hnew
    · rename_i p _
      obtain ⟨k₁, he, hd⟩ := Outcome.bind_eq_ok.mp hr
      cases hd
      have hend : (TpeSo.procReady k₁ (some p)).objects = (procInit (procNew k).1 p a entry).1.objects :=
        (objects_procReady k₁ _).trans (objects_execv he)
      unfold procInit at hend
      split at hend
      · exact .same (hend.trans hnew)
      · dsimp only at hend
        split at hend
        · -- the stack is there: descriptors are inherited, or the terminal's are set
          unfold procSetup initFds inheritFds at hend
          dsimp only at hend
          rw [objects_initFamily, objects_initForeground] at hend
          split at hend
          · split at hend
            · exact .same (hend.trans hnew)
            · refine .inherit a rfl _ ?_ _ _ _ hend
              exact hnew
          · exact .same (hend.trans hnew)
        · exact .same (hend.trans hnew)

theorem ObjectStep.openCall {id junk : List UInt8} {mode : Int} {r : StepResult}
    (hr : sysPipeOpen k id junk mode = .ok r) :
    ObjectStep k (.sysPipeOpen id junk mode) r.1 := by
  unfold sysPipeOpen at hr
  split at hr
  · cases hr
    exact .same rfl
  · split at hr
    · cases hr
      exact .same rfl
    · rename_i c hc
      split at hr
      · cases hr
        exact .same rfl
      · rename_i i hi
        refine .openPipe id junk mode rfl c hc i hi ?_
        dsimp only at hr
        split at hr <;> · cases hr; rfl

/-- A key press comes down to what is `pressed`. -/
theorem handleKeyPress_pressed {sc : Nat} (h : handleKeyPress k sc = .ok k') :
    match pressed k sc with
    | .noted => ∃ ctrl shift capsLock arrow esc, k' = { k with
        ctrl := ctrl, shift := shift, capsLock := capsLock, arrow := arrow, esc := esc }
    | .ctrlD => k' = handleCtrlD k
    | .ctrlC => procKill k k.foregroundProcess 0 = .ok k'
    | .char ch => k' = handleChar k ch := by
  unfold handleKeyPress at h
  split at h
  any_goals
    cases h
    exact ⟨_, _, _, _, _, rfl⟩
  rename_i hctrl _ hlshift hrshift _ _ _ hesc _ _ _ _
  have hnote : sc ∉ [0x01, 0x1D, 0x2A, 0x36] := by
    simp only [List.mem_cons, List.not_mem_nil, or_false, not_or]
    exact ⟨hesc, hctrl, hlshift, hrshift⟩
  split at h
  · rename_i hkey
    have hp : pressed k sc = .noted := by rw [pressed, if_neg hnote, hkey]
    cases h
    rw [hp]
    exact ⟨_, _, _, _, _, rfl⟩
  · rename_i key hkey
    have hp : pressed k sc = if k.ctrl ∧ key.1 = 100 then .ctrlD
        else if k.ctrl ∧ key.1 = 99 then .ctrlC
        else if k.arrow then .noted
        else .char (if k.shift ^^ k.capsLock then key.2 else key.1) := by
      rw [pressed, if_neg hnote, hkey]
    unfold handleKey at h
    split at h
    · rename_i hd
      cases h
      rw [hp, if_pos hd]
    · rename_i hd
      rw [if_neg hd] at hp
      split at h
      · rename_i hc
        rw [hp, if_pos hc]
        exact h
      · rename_i hc
        rw [if_neg hc] at hp
        split at h
        · rename_i ha
          cases h
          rw [hp, if_pos ha]
          exact ⟨_, _, _, _, _, rfl⟩
        · rename_i ha
          cases h
          rw [hp, if_neg ha]

/-- Ctrl-C in terms of the key. -/
theorem pressed_eq_ctrlC {sc : Nat} :
    pressed k sc = .ctrlC ↔ k.ctrl ∧ printableAscii[sc]?.map Prod.fst = some 99 := by
  unfold pressed
  split
  · rename_i hnote
    simp only [List.mem_cons, List.not_mem_nil, or_false] at hnote
    rcases hnote with rfl | rfl | rfl | rfl <;> simp [printableAscii]
  · cases hkey : printableAscii[sc]? with
    | none => simp
    | some key =>
      dsimp only
      by_cases hd : k.ctrl ∧ key.1 = 100
      · simp [hd]
      · rw [if_neg hd]
        by_cases hc : k.ctrl ∧ key.1 = 99
        · simp [hc]
        · rw [if_neg hc]
          simp only [Option.map_some, Option.some.injEq, hc, iff_false]
          split <;> simp

/-- A key press comes down to one of four things. -/
theorem handleKeyPress_cases {sc : Nat} (h : handleKeyPress k sc = .ok k') :
    (¬ (k.ctrl ∧ printableAscii[sc]?.map Prod.fst = some 99) ∧
      (k' = handleCtrlD k ∨ (∃ ch, k' = handleChar k ch) ∨
        ∃ ctrl shift capsLock arrow esc, k' = { k with
          ctrl := ctrl, shift := shift, capsLock := capsLock, arrow := arrow, esc := esc })) ∨
    (k.ctrl ∧ printableAscii[sc]?.map Prod.fst = some 99) ∧
      procKill k k.foregroundProcess 0 = .ok k' := by
  have hpress := handleKeyPress_pressed h
  rw [← pressed_eq_ctrlC]
  cases hch : pressed k sc with
  | noted => rw [hch] at hpress; exact .inl ⟨nofun, .inr (.inr hpress)⟩
  | ctrlD => rw [hch] at hpress; exact .inl ⟨nofun, .inl hpress⟩
  | ctrlC => rw [hch] at hpress; exact .inr ⟨rfl, hpress⟩
  | char ch => rw [hch] at hpress; exact .inl ⟨nofun, .inr (.inl ⟨ch, hpress⟩)⟩

theorem ObjectStep.keyPress {sc : Nat} (h : handleKeyPress k sc = .ok k') :
    ObjectStep k (.key sc) k' := by
  have hpress := handleKeyPress_pressed h
  cases hch : pressed k sc with
  | noted =>
    rw [hch] at hpress
    obtain ⟨_, _, _, _, _, rfl⟩ := hpress
    exact .same rfl
  | ctrlD =>
    rw [hch] at hpress
    exact .ctrlD sc rfl hch (by rw [hpress])
  | ctrlC =>
    rw [hch] at hpress
    refine .procKill (.inl rfl) ?_ hpress rfl
    simp only [killTarget, pressed_eq_ctrlC.mp hch, and_self, if_true]
  | char ch =>
    rw [hch] at hpress
    exact .char sc ch rfl hch (by rw [hpress])

theorem ObjectStep.read {fd : Int} {count : Nat} {buf0 : UInt8} {r : StepResult}
    (h : sysRead k fd count buf0 = .ok r) (hs : step k (.sysRead fd count buf0) = some r) :
    ObjectStep k (.sysRead fd count buf0) r.1 := by
  cases hcall : readCall k (.sysRead fd count buf0) with
  | some call =>
    obtain ⟨c, r', hc, hr, hk', -⟩ := step_readCall (show _ = some (call.1, call.2) from hcall) hs
    exact .pipeRead _ _ hcall c hc r' hr (by rw [hk'])
  | none =>
    unfold sysRead withFd at h
    split at h
    · rename_i hfd
      split at h
      · cases h
        exact .same rfl
      · rename_i c hc
        dsimp only [fdRead] at h
        split at h
        · rename_i hops hres
          rw [readCall, fdPipe_of_current hfd hc, if_pos hops, hres] at hcall
          cases hcall
        · cases h
        · obtain ⟨r₁, hr₁, he⟩ := Outcome.bind_eq_ok.mp h
          cases he
          unfold readFromKeyboard at hr₁
          split at hr₁
          · cases hr₁
            exact .same rfl
          · split at hr₁
            · cases hr₁
              exact .same rfl
            · exact .readLine rfl (fun _ he => nomatch he) hr₁ rfl
        · cases h
          exact .same rfl
    · cases h
      exact .same rfl

theorem ObjectStep.write {fd : Int} {buf : List UInt8} {r : StepResult}
    (h : sysWrite k fd buf = .ok r) (hs : step k (.sysWrite fd buf) = some r) :
    ObjectStep k (.sysWrite fd buf) r.1 := by
  cases hcall : writeCall k (.sysWrite fd buf) with
  | some call =>
    obtain ⟨c, r', hc, hr, hk', -⟩ := step_writeCall (show _ = some (call.1, call.2) from hcall) hs
    exact .pipeWrite _ _ hcall c hc r' hr (by rw [hk'])
  | none =>
    unfold sysWrite withFd at h
    split at h
    · rename_i hfd
      split at h
      · cases h
        exact .same rfl
      · rename_i c hc
        dsimp only [fdWrite] at h
        split at h
        · rename_i hops hres
          rw [writeCall, fdPipe_of_current hfd hc, if_pos hops, hres] at hcall
          cases hcall
        · cases h
        all_goals
          cases h
          exact .same rfl
    · cases h
      exact .same rfl

theorem ObjectStep.enter {r : StepResult} (h : TpeSo.enter k e = .ok r) (hs : step k e = some r) :
    ObjectStep k e r.1 := by
  cases e with
  | timer =>
    obtain ⟨k₁, hk, he⟩ := Outcome.bind_eq_ok.mp h
    cases he
    exact .same (objects_of_fixed (fixed_callTimerTick hk))
  | key sc =>
    obtain ⟨k₁, hk, he⟩ := Outcome.bind_eq_ok.mp h
    cases he
    exact .keyPress hk
  | user rsp => cases h; exact .same rfl
  | resume => cases h
  | sysRead fd count buf0 => exact .read h hs
  | sysWrite fd buf => exact .write h hs
  | sysSleep s =>
    obtain ⟨k₁, hk, he⟩ := Outcome.bind_eq_ok.mp h
    cases he
    exact .same (objects_of_fixed (fixed_sleepHelper hk))
  | sysUsleep us =>
    simp only [TpeSo.enter, sysUsleep] at h
    split at h
    · cases h
      exact .same rfl
    · obtain ⟨k₁, hk, he⟩ := Outcome.bind_eq_ok.mp h
      cases he
      exact .same (objects_of_fixed (fixed_sleepHelper hk))
  | sysPipeCreate id junk =>
    refine .createPipe id junk rfl ?_
    simp only [TpeSo.enter, sysPipeCreate] at h
    split at h <;> · cases h; rfl
  | sysPipeOpen id junk mode => exact .openCall h
  | sysPipeClose id =>
    simp only [TpeSo.enter, sysPipeClose] at h
    split at h
    · cases h
      exact .same rfl
    · rename_i pp hpp
      cases h
      exact .closeName id rfl pp hpp rfl
  | sysSpawn a =>
    obtain ⟨r₁, hr₁, he⟩ := Outcome.bind_eq_ok.mp h
    cases he
    exact .spawn hr₁
  | sysKillProc pid =>
    simp only [TpeSo.enter, sysKillProc] at h
    split at h
    · cases h
      exact .same rfl
    · rename_i hpid
      obtain ⟨found, hfound, h⟩ := Outcome.bind_eq_ok.mp h
      split at h
      · cases h
        exact .same rfl
      · obtain ⟨k₁, hk, he⟩ := Outcome.bind_eq_ok.mp h
        cases he
        refine .procKill (.inl rfl) ?_ hk rfl
        simp only [killTarget, hpid, if_false, hfound]
  | sysChangePriority pid prio =>
    obtain ⟨found, -, he⟩ := Outcome.bind_eq_ok.mp h
    cases he
    exact .same (objects_changePriority k found prio)
  | sysExit code =>
    obtain ⟨k₁, hk, h⟩ := Outcome.bind_eq_ok.mp h
    obtain ⟨k₂, ht, he⟩ := Outcome.bind_eq_ok.mp h
    cases he
    exact .procKill (.inr rfl) rfl hk (objects_of_fixed (fixed_callTimerTick ht))
  | sysBlock pid =>
    obtain ⟨r₁, hr₁, he⟩ := Outcome.bind_eq_ok.mp h
    cases he
    exact .same (objects_of_fixed (fixed_blockProcessByPid hr₁))
  | sysUnblock pid =>
    obtain ⟨r₁, hr₁, he⟩ := Outcome.bind_eq_ok.mp h
    cases he
    exact .same (objects_of_fixed (fixed_unblockProcessByPid hr₁))
  | sysCloseFd fd =>
    simp only [TpeSo.enter, sysCloseFd] at h
    split at h
    · cases h
      exact .same rfl
    · rename_i c hc
      split at h
      · rename_i hfd
        cases h
        refine .closeFd ⟨fd.toNat, toNat_lt_fdMax hfd⟩ ?_ c hc rfl
        rw [Int.toNat_of_nonneg hfd.1]
      · cases h
        exact .same rfl
  | sysWaitPid pid =>
    obtain ⟨r₁, hr₁, he⟩ := Outcome.bind_eq_ok.mp h
    cases he
    exact .same (objects_waitPid hr₁)
  | sysWait =>
    obtain ⟨r₁, hr₁, he⟩ := Outcome.bind_eq_ok.mp h
    cases he
    exact .same (objects_waitPid hr₁)
  | sysYield =>
    obtain ⟨k₁, hk, he⟩ := Outcome.bind_eq_ok.mp h
    cases he
    exact .same (objects_of_fixed ((fixed_yield hk).trans (fixed_suspend k .yield)))
  | sysSetCanonical b => cases h; exact .canonical b rfl rfl
  | sysCreateSem id v => cases h; exact .semCreate id v rfl rfl
  | sysCloseSem id => cases h; exact .semDestroy id rfl rfl
  | sysSemPost id =>
    obtain ⟨r₁, hr₁, he⟩ := Outcome.bind_eq_ok.mp h
    cases he
    exact .semPost id rfl r₁ hr₁ rfl
  | sysSemWait id =>
    obtain ⟨r₁, hr₁, he⟩ := Outcome.bind_eq_ok.mp h
    cases he
    exact .semWait id rfl r₁ hr₁ rfl
  | sysSemTrywait id =>
    obtain ⟨r₁, hr₁, he⟩ := Outcome.bind_eq_ok.mp h
    cases he
    exact .semTrywait id rfl r₁ hr₁ rfl

theorem ObjectStep.resume {w : Pending} {r : StepResult} (hc : k.currentProcess = some c)
    (hw : k.kstack c = some w) (h : TpeSo.resume k c w = .ok r) (hs : step k .resume = some r) :
    ObjectStep k .resume r.1 := by
  have hwork := (unfinished_eq hc).trans hw
  cases w with
  | yield => cases h; exact .same rfl
  | sleep => cases h; exact .same rfl
  | block => cases h; exact .same rfl
  | exit => cases h
  | semWait id => cases h; exact .same rfl
  | pipeRead pp size =>
    have hcall : readCall k .resume = some (pp, size) := by simp only [readCall, hwork]
    obtain ⟨d, r₁, hd, hr₁, hk', -⟩ := step_readCall hcall hs
    exact .pipeRead pp size hcall d hd r₁ hr₁ (by rw [hk'])
  | pipeWrite pp buf =>
    have hcall : writeCall k .resume = some (pp, buf) := by simp only [writeCall, hwork]
    obtain ⟨d, r₁, hd, hr₁, hk', -⟩ := step_writeCall hcall hs
    exact .pipeWrite pp buf hcall d hd r₁ hr₁ (by rw [hk'])
  | waitPid pid =>
    obtain ⟨r₁, hr₁, he⟩ := Outcome.bind_eq_ok.mp h
    cases he
    have hsame : r₁.1.objects = { k with kstack := _ }.objects := objects_waitPidLoop hr₁
    exact .same hsame
  | readLine count buf0 =>
    obtain ⟨r₁, hr₁, he⟩ := Outcome.bind_eq_ok.mp h
    cases he
    have hsame : { k with kstack := Function.update k.kstack c none }.objects = k.objects := rfl
    exact .readLine hsame (fun _ he => nomatch he) hr₁ rfl

/-- **What a step does to the objects** is the work of one routine at most. -/
theorem step_object (hs : step k e = some (k', o)) : ObjectStep k e k' := by
  rcases step_eq_some hs with ⟨-, -, h⟩ | ⟨rfl, c, w, hc, hw, h⟩
  · exact .enter h hs
  · exact .resume hc hw h hs

/-! ### What the calls on semaphores leave alone -/

/-- The pipes with their table, and the keyboard line. -/
def Kernel.offSems (k : Kernel) : (PipeId → Pipe) × (Nat → Option PipeId) × PipeId ×
    Ringbuf × Int × Bool :=
  (k.pipes, k.pipesTable, k.nextPipe, k.kbuff, k.currentLineLen, k.canonicalMode)

theorem offSems_of_objects (h : k'.objects = k.objects) : k'.offSems = k.offSems :=
  congrArg Prod.snd h

theorem offSems_acquireSem (h : acquireSem k id = .ok k') : k'.offSems = k.offSems := by
  unfold acquireSem at h
  split at h
  · cases h
    rfl
  · cases h

theorem offSems_mySemPost {r : Kernel × Int} (h : mySemPost k id = .ok r) :
    r.1.offSems = k.offSems := by
  unfold mySemPost at h
  split at h
  · obtain ⟨k₁, hacq, h⟩ := Outcome.bind_eq_ok.mp h
    refine Eq.trans ?_ (offSems_acquireSem hacq)
    dsimp only at h
    split at h
    · cases h
      exact (offSems_of_objects (objects_procReady _ _)).trans rfl
    · cases h
      rfl
  · cases h
    rfl

theorem offSems_mySemWait {r : Kernel × Option Int} (h : mySemWait k id = .ok r) :
    r.1.offSems = k.offSems := by
  unfold mySemWait at h
  split at h
  · obtain ⟨k₁, hacq, h⟩ := Outcome.bind_eq_ok.mp h
    refine Eq.trans ?_ (offSems_acquireSem hacq)
    split at h
    · cases h
      rfl
    · obtain ⟨k₂, hb, he⟩ := Outcome.bind_eq_ok.mp h
      cases he
      exact (offSems_of_objects (objects_blockCurrent hb)).trans rfl
  · cases h
    rfl

theorem offSems_mySemTrywait {r : Kernel × Int} (h : mySemTrywait k id = .ok r) :
    r.1.offSems = k.offSems := by
  unfold mySemTrywait at h
  split at h
  · obtain ⟨k₁, hacq, h⟩ := Outcome.bind_eq_ok.mp h
    refine Eq.trans ?_ (offSems_acquireSem hacq)
    split at h <;> · cases h; rfl
  · cases h
    rfl

theorem offSems_mySemCreate (k : Kernel) (id v : Nat) :
    (mySemCreate k id v).1.offSems = k.offSems := by
  unfold mySemCreate
  split
  · dsimp only
    split <;> rfl
  · rfl

theorem offSems_mySemDestroy (k : Kernel) (id : Nat) :
    (mySemDestroy k id).1.offSems = k.offSems := by
  unfold mySemDestroy
  split <;> rfl

/-! ### What the keyboard leaves alone -/

/-- The semaphores and the pipes with their table. -/
def Kernel.offLine (k : Kernel) : (Nat → Semaphore) × (PipeId → Pipe) × (Nat → Option PipeId) ×
    PipeId :=
  (k.semaphores, k.pipes, k.pipesTable, k.nextPipe)

theorem offLine_of_objects (h : k'.objects = k.objects) : k'.offLine = k.offLine :=
  congrArg (fun x => (x.1, x.2.1, x.2.2.1, x.2.2.2.1)) h

theorem offLine_wakeReader (k : Kernel) : (wakeReader k).offLine = k.offLine :=
  offLine_of_objects (objects_procReady { k with keyboardQueue := (dequeue k.keyboardQueue).2 } _)

theorem offLine_handleCtrlD (k : Kernel) : (handleCtrlD k).offLine = k.offLine := by
  unfold handleCtrlD
  split
  · refine (offLine_wakeReader _).trans ?_
    split <;> rfl
  · rfl

/-- The last lines of `handle_key_press`: without line editing every byte wakes a reader. -/
def wakeRaw (k : Kernel) : Kernel :=
  if ringbufAvailable k.kbuff ≠ 0 ∧ k.canonicalMode = false then wakeReader k else k

/-- The branch of `handle_key_press` for a newline. -/
def putLine (k : Kernel) (ch : UInt8) : Kernel :=
  let k := kbuffPut k ch
  let k := if k.canonicalMode then wakeReader k else k
  { k with currentLineLen := 0 }

/-- The branch of `handle_key_press` for a tab. -/
def putTab (k : Kernel) : Kernel :=
  let k := kbuffPut (kbuffPut (kbuffPut (kbuffPut k space) space) space) space
  { k with currentLineLen := k.currentLineLen + 4 }

/-- The branch of `handle_key_press` for a printable character. -/
def putPrintable (k : Kernel) (ch : UInt8) : Kernel :=
  { kbuffPut k ch with currentLineLen := k.currentLineLen + 1 }

/-- The branches of `handle_key_press` behind the modifier keys exclude each other. -/
theorem handleChar_eq (k : Kernel) (ch : UInt8) : handleChar k ch =
    if ch = backspace then
      if 0 < k.currentLineLen then
        { k with kbuff := ringbufUnwrite k.kbuff, currentLineLen := k.currentLineLen - 1 }
      else k
    else if ch = tab then putTab k
    else if ch = newline then wakeRaw (putLine k newline)
    else if 32 ≤ ch ∧ ch ≤ 126 then wakeRaw (putPrintable k ch)
    else wakeRaw k := by
  have hshape : handleChar k ch = if ch = backspace then
      if 0 < k.currentLineLen then
        { k with kbuff := ringbufUnwrite k.kbuff, currentLineLen := k.currentLineLen - 1 }
      else k
    else if ch = tab then putTab k
    else wakeRaw (if ch = newline then
        putLine (if 32 ≤ ch ∧ ch ≤ 126 then putPrintable k ch else k) ch
      else if 32 ≤ ch ∧ ch ≤ 126 then putPrintable k ch else k) := rfl
  rw [hshape]
  by_cases hnl : ch = newline
  · subst hnl
    rfl
  · rw [if_neg hnl, if_neg hnl]
    split
    · rfl
    · split
      · rfl
      · split <;> rfl

theorem offLine_wakeRaw (k : Kernel) : (wakeRaw k).offLine = k.offLine := by
  unfold wakeRaw
  split
  · exact offLine_wakeReader k
  · rfl

theorem offLine_putLine (k : Kernel) : (putLine k newline).offLine = k.offLine := by
  show (if (kbuffPut k newline).canonicalMode then wakeReader (kbuffPut k newline)
    else kbuffPut k newline).offLine = k.offLine
  split
  · exact offLine_wakeReader (kbuffPut k newline)
  · rfl

theorem offLine_kbuffPut (k : Kernel) (ch : UInt8) : (kbuffPut k ch).offLine = k.offLine := rfl

theorem offLine_putTab (k : Kernel) : (putTab k).offLine = k.offLine := by
  simp only [putTab, Kernel.offLine, kbuffPut]

theorem offLine_handleChar (k : Kernel) (ch : UInt8) : (handleChar k ch).offLine = k.offLine := by
  rw [handleChar_eq]
  split
  · split <;> rfl
  · split
    · exact offLine_putTab k
    · split
      · exact (offLine_wakeRaw _).trans (offLine_putLine k)
      · split
        · exact (offLine_wakeRaw _).trans (offLine_kbuffPut k ch)
        · exact offLine_wakeRaw k

theorem offLine_getLine (k : Kernel) (count : Nat) : (getLine k count).1.offLine = k.offLine := by
  unfold getLine
  split
  · dsimp only
    split <;> rfl
  · rfl

/-! ### What the calls on pipes leave alone -/

/-- The semaphores and the keyboard line. -/
def Kernel.offPipes (k : Kernel) : (Nat → Semaphore) × Ringbuf × Int × Bool :=
  (k.semaphores, k.kbuff, k.currentLineLen, k.canonicalMode)

theorem offPipes_of_objects (h : k'.objects = k.objects) : k'.offPipes = k.offPipes :=
  congrArg (fun x => (x.1, x.2.2.2.2.1, x.2.2.2.2.2)) h

theorem offPipes_procReady (k : Kernel) (q : Option ProcId) :
    (procReady k q).offPipes = k.offPipes := offPipes_of_objects (objects_procReady k q)

theorem offPipes_wakeReaders (pp : PipeId) (n : Nat) : ∀ k : Kernel,
    (wakeReaders k pp n).offPipes = k.offPipes := by
  induction n with
  | zero => exact fun _ => rfl
  | succ n ih => exact fun k => (ih (wakeFirstReader k pp)).trans (offPipes_procReady _ _)

theorem offPipes_freeUnreferenced (k : Kernel) (pp : PipeId) :
    (freeUnreferenced k pp).offPipes = k.offPipes := by
  unfold freeUnreferenced
  split <;> rfl

theorem offPipes_closeSlot (k : Kernel) (p : ProcId) (i : Fin fdMax) :
    (closeSlot k p i).offPipes = k.offPipes := by
  show (fdClose k ((k.procs p).fds i)).offPipes = k.offPipes
  unfold fdClose
  split
  · exact offPipes_freeUnreferenced _ _
  · refine (offPipes_freeUnreferenced _ _).trans ?_
    split
    · exact offPipes_wakeReaders _ _ _
    · rfl
  · rfl

theorem offPipes_closeFds (p : ProcId) (is : List (Fin fdMax)) : ∀ k : Kernel,
    (closeFds k p is).offPipes = k.offPipes := by
  induction is with
  | nil => exact fun _ => rfl
  | cons i is ih => exact fun k => (ih (closeSlot k p i)).trans (offPipes_closeSlot k p i)

theorem offPipes_killUnlink (k : Kernel) (p : ProcId) (code : Int) :
    (killUnlink k p code).offPipes = k.offPipes := by
  have hfg := offPipes_of_objects (objects_setForegroundProcess k (k.procs p).parent (some p))
  refine Eq.trans ?_ ((offPipes_of_objects (objects_rmCurrent _ p)).trans hfg)
  show (unlinkWaiting _ p).offPipes = _
  unfold unlinkWaiting
  split <;> rfl

theorem offPipes_inheritLoop (p s : ProcId) (fds : Fin fdMax → Int) (is : List (Fin fdMax)) :
    ∀ k : Kernel, (inheritLoop k p s fds is).offPipes = k.offPipes := by
  induction is with
  | nil => exact fun _ => rfl
  | cons i is ih =>
    intro k
    unfold inheritLoop
    split
    · refine (ih _).trans ?_
      show (fdAddRef k _).offPipes = k.offPipes
      unfold fdAddRef
      split <;> rfl
    · rfl

theorem offPipes_createPipe (k : Kernel) (id junk : List UInt8) :
    (createPipe k id junk).1.offPipes = k.offPipes := by
  have halloc := offPipes_of_objects (objects_allocAll 5 k)
  unfold createPipe
  split
  · rfl
  · dsimp only
    split <;> exact halloc

theorem offPipes_openPipe (k : Kernel) (p : ProcId) (i : Fin fdMax) (id junk : List UInt8)
    (mode : Int) : (openPipe k p i id junk mode).1.offPipes = k.offPipes := by
  unfold openPipe
  split
  · rfl
  · cases hfind : findPipeById k id with
    | some pp =>
      dsimp only
      split <;> rfl
    | none =>
      have hcreate := offPipes_createPipe k id junk
      dsimp only
      split
      · exact hcreate
      · split <;> exact hcreate

theorem offPipes_pipeRead {pp : PipeId} {size : Nat} {r : Kernel × Option (List UInt8)}
    (hr : pipeRead k c pp size = .ok r) : r.1.offPipes = k.offPipes := by
  obtain ⟨k₁, hacq, hr⟩ := Outcome.bind_eq_ok.mp hr
  unfold acquirePipe at hacq
  split at hacq
  · cases hacq
    split at hr
    · split at hr
      · cases hr
        rfl
      · obtain ⟨k₂, hb, he⟩ := Outcome.bind_eq_ok.mp hr
        cases he
        exact (offPipes_of_objects (objects_blockCurrent hb)).trans rfl
    · cases hr
      exact (offPipes_procReady _ _).trans rfl
  · cases hacq

theorem offPipes_pipeWrite {pp : PipeId} {buf : List UInt8} {r : Kernel × Option Int}
    (hr : pipeWrite k c pp buf = .ok r) : r.1.offPipes = k.offPipes := by
  obtain ⟨k₁, hacq, hr⟩ := Outcome.bind_eq_ok.mp hr
  unfold acquirePipe at hacq
  split at hacq
  · cases hacq
    split at hr
    · split at hr
      · cases hr
        rfl
      · obtain ⟨k₂, hb, he⟩ := Outcome.bind_eq_ok.mp hr
        cases he
        exact (offPipes_of_objects (objects_blockCurrent hb)).trans rfl
    · cases hr
      exact (offPipes_procReady _ _).trans rfl
  · cases hacq

/-- What a step does to the semaphores and the keyboard line. -/
inductive OffPipeStep (k : Kernel) (e : Event) (k' : Kernel) : Prop where
  | same (h : k'.offPipes = k.offPipes)
  | semCreate (id v : Nat) (he : e = .sysCreateSem id v)
      (h : k'.offPipes = (mySemCreate k id v).1.offPipes)
  | semDestroy (id : Nat) (he : e = .sysCloseSem id)
      (h : k'.offPipes = (mySemDestroy k id).1.offPipes)
  | semPost (id : Nat) (he : e = .sysSemPost id) (r : Kernel × Int) (hr : mySemPost k id = .ok r)
      (h : k'.offPipes = r.1.offPipes)
  | semWait (id : Nat) (he : e = .sysSemWait id) (r : Kernel × Option Int)
      (hr : mySemWait k id = .ok r) (h : k'.offPipes = r.1.offPipes)
  | semTrywait (id : Nat) (he : e = .sysSemTrywait id) (r : Kernel × Int)
      (hr : mySemTrywait k id = .ok r) (h : k'.offPipes = r.1.offPipes)
  | char (sc : Nat) (ch : UInt8) (he : e = .key sc) (hch : pressed k sc = .char ch)
      (h : k'.offPipes = (handleChar k ch).offPipes)
  | ctrlD (sc : Nat) (he : e = .key sc) (hch : pressed k sc = .ctrlD)
      (h : k'.offPipes = (handleCtrlD k).offPipes)
  | line (count n : Nat) (hkey : ∀ sc, e ≠ .key sc) (hn : nextLineLength k = .ok n) (h0 : n ≠ 0)
      (h : k'.offPipes = (getLine k count).1.offPipes)
  | canonical (b : Bool) (he : e = .sysSetCanonical b)
      (h : k'.offPipes = { k with canonicalMode := b }.offPipes)

/-- **Only the calls on semaphores and the keyboard** change semaphores and the keyboard line. -/
theorem step_offPipes (hs : step k e = some (k', o)) : OffPipeStep k e k' := by
  have hentered := offPipes_of_objects (objects_entered k e)
  cases step_object hs with
  | same h => exact .same (offPipes_of_objects h)
  | semCreate id v he h => exact .semCreate id v he (offPipes_of_objects h)
  | semDestroy id he h => exact .semDestroy id he (offPipes_of_objects h)
  | semPost id he r hr h => exact .semPost id he r hr (offPipes_of_objects h)
  | semWait id he r hr h => exact .semWait id he r hr (offPipes_of_objects h)
  | semTrywait id he r hr h => exact .semTrywait id he r hr (offPipes_of_objects h)
  | pipeRead pp size hcall c hc r hr h =>
    exact .same ((offPipes_of_objects h).trans ((offPipes_pipeRead hr).trans hentered))
  | pipeWrite pp buf hcall c hc r hr h =>
    exact .same ((offPipes_of_objects h).trans ((offPipes_pipeWrite hr).trans hentered))
  | createPipe id junk he h =>
    exact .same ((offPipes_of_objects h).trans (offPipes_createPipe k id junk))
  | openPipe id junk mode he c hc i hi h =>
    exact .same ((offPipes_of_objects h).trans (offPipes_openPipe k c i id junk mode))
  | closeName id he pp hpp h => exact .same ((offPipes_of_objects h).trans rfl)
  | closeFd i he c hc h =>
    exact .same ((offPipes_of_objects h).trans (offPipes_closeSlot k c i))
  | kill p hp k₁ hk₁ code h =>
    have h₁ : k₁.offPipes = k.offPipes := by
      rcases hk₁ with rfl | rfl
      · rfl
      · exact offPipes_of_objects (objects_suspend k .exit)
    exact .same ((offPipes_of_objects h).trans ((offPipes_closeFds p _ _).trans
      ((offPipes_killUnlink k₁ p code).trans h₁)))
  | inherit a he k₁ hk₁ p s fds h =>
    exact .same ((offPipes_of_objects h).trans ((offPipes_inheritLoop p s fds _ k₁).trans
      (offPipes_of_objects hk₁)))
  | char sc ch he hch h => exact .char sc ch he hch (offPipes_of_objects h)
  | ctrlD sc he hch h => exact .ctrlD sc he hch (offPipes_of_objects h)
  | line count n hkey hn h0 h => exact .line count n hkey hn h0 (offPipes_of_objects h)
  | canonical b he h => exact .canonical b he (offPipes_of_objects h)

end TpeSo
