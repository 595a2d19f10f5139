import TpeSo.Kernel.Keyboard
import TpeSo.Kernel.Semaphore
import TpeSo.Lib.Trace

namespace TpeSo

open Ds Lib

/-!
# `interrupts/syscall_dispatcher.c` — the entries into the kernel, and the whole machine

`Event` lists the ways the kernel is entered: the two hardware interrupts, the system
calls, and the continuation of a system call whose process has been switched back in
(`resume`).  `step` runs one of them to the point where the processor is back in user mode
or has been handed to another process.  A system call that ends in this step shows its
result as a `Completion`.
-/

/-- A system call that has returned to its caller. -/
inductive Completion where
  | other (ret : Int)
  | semWait (id : Nat) (ret : Int)
  | semTrywait (id : Nat) (ret : Int)
  | semPost (id : Nat) (ret : Int)
  | pipeRead (pipe : PipeId) (bytes : List UInt8)
  | pipeWrite (pipe : PipeId) (buf : List UInt8) (ret : Int)
  | keyboardRead (bytes : List UInt8) (ret : Int)
  | waitPid (ret : Int) (exitStatus : Option Int)
  deriving DecidableEq, Repr

/-- The entries into the kernel. -/
inductive Event where
  /-- The hardware timer interrupt. -/
  | timer
  /-- The keyboard interrupt. -/
  | key (scanCode : Nat)
  /-- The running code moves its stack pointer. -/
  | user (rsp : Nat)
  /-- The current process goes on with the system call it was switched out of. -/
  | resume
  | sysRead (fd : Int) (count : Nat) (buf0 : UInt8)
  | sysWrite (fd : Int) (buf : List UInt8)
  | sysSleep (seconds : Nat)
  | sysUsleep (microseconds : Nat)
  | sysPipeCreate (id junk : List UInt8)
  | sysPipeOpen (id junk : List UInt8) (mode : Int)
  | sysPipeClose (id : List UInt8)
  | sysSpawn (args : SpawnArgs)
  | sysKillProc (pid : Int)
  | sysChangePriority (pid priority : Int)
  | sysExit (code : Int)
  | sysBlock (pid : Int)
  | sysUnblock (pid : Int)
  | sysCloseFd (fd : Int)
  | sysWaitPid (pid : Int)
  | sysWait
  | sysYield
  | sysSetCanonical (enable : Bool)
  | sysCreateSem (id value : Nat)
  | sysCloseSem (id : Nat)
  | sysSemPost (id : Nat)
  | sysSemWait (id : Nat)
  | sysSemTrywait (id : Nat)

/-- The kernel after a step, and the system call that returned in it. -/
abbrev StepResult := Kernel × Option Completion

def eBadF : Int := 9
def eFault : Int := 14
def eSrch : Int := 3

/-- A system call that has returned `ret`. -/
def done (k : Kernel) (ret : Int) : Outcome StepResult := .ok (k, some (.other ret))

/-! ### Reading and writing -/

/-- Show the end of a `pipe_read`. -/
def finishRead (pp : PipeId) (r : Kernel × Option (List UInt8)) : StepResult :=
  (r.1, r.2.map (Completion.pipeRead pp))

/-- Show the end of a `pipe_write`. -/
def finishWrite (pp : PipeId) (buf : List UInt8) (r : Kernel × Option Int) : StepResult :=
  (r.1, r.2.map (Completion.pipeWrite pp buf))

/-- Show the end of a keyboard read. -/
def finishLine (r : Kernel × Option LineResult) : StepResult :=
  (r.1, r.2.map fun l => Completion.keyboardRead l.1 l.2)

/-- Show the end of a `wait_pid`. -/
def finishWait (r : Kernel × Option WaitResult) : StepResult :=
  (r.1, r.2.map fun w => Completion.waitPid w.1 w.2)

/-- Show the end of a `my_sem_wait`. -/
def finishSemWait (id : Nat) (r : Kernel × Option Int) : StepResult :=
  (r.1, r.2.map (Completion.semWait id))

/-- `ops->read` of the descriptor `e`. -/
def fdRead (k : Kernel) (c : ProcId) (e : FdEntry) (count : Nat) (buf0 : UInt8) :
    Outcome StepResult :=
  match e.ops, e.resource with
  | some .pipeRead, some pp => do .ok (finishRead pp (← pipeRead k c pp count))
  | some .pipeRead, none => .fault
  | some .keyboard, _ => do .ok (finishLine (← readFromKeyboard k c count buf0))
  | _, _ => done k (-eBadF)

/-- `ops->write` of the descriptor `e`; the screen is not part of the state. -/
def fdWrite (k : Kernel) (c : ProcId) (e : FdEntry) (buf : List UInt8) :
    Outcome StepResult :=
  match e.ops, e.resource with
  | some .pipeWrite, some pp => do .ok (finishWrite pp buf (← pipeWrite k c pp buf))
  | some .pipeWrite, none => .fault
  | some .video, _ => done k buf.length
  | some .videoErr, _ => done k buf.length
  | _, _ => done k (-eBadF)

theorem toNat_lt_fdMax {fd : Int} (h : 0 ≤ fd ∧ fd < fdMax) : fd.toNat < fdMax := by omega

/-- The checks `sys_read` and `sys_write` share: a descriptor in range and a running
    process. -/
def withFd (k : Kernel) (fd : Int) (f : ProcId → FdEntry → Outcome StepResult) :
    Outcome StepResult :=
  if h : 0 ≤ fd ∧ fd < fdMax then
    match k.currentProcess with
    | none => done k (-eFault)
    | some c => f c ((k.procs c).fds ⟨fd.toNat, toNat_lt_fdMax h⟩)
  else done k (-eInval)

def sysRead (k : Kernel) (fd : Int) (count : Nat) (buf0 : UInt8) : Outcome StepResult :=
  withFd k fd fun c e => fdRead k c e count buf0

def sysWrite (k : Kernel) (fd : Int) (buf : List UInt8) : Outcome StepResult :=
  withFd k fd fun c e => fdWrite k c e buf

/-! ### Pipes and descriptors -/

def sysPipeCreate (k : Kernel) (id junk : List UInt8) : Outcome StepResult :=
  let r := createPipe k id junk
  match r.2 with
  | none => done r.1 (-eNoMem)
  | some _ => done r.1 0

def sysPipeOpen (k : Kernel) (id junk : List UInt8) (mode : Int) : Outcome StepResult :=
  if mode ≠ 0 ∧ mode ≠ 1 then done k (-eInval)
  else
    match k.currentProcess with
    | none => done k (-eFault)
    | some c =>
      match findFreeFd k c with
      | none => done k (-eNoEnt)
      | some i =>
        let r := openPipe k c i id junk mode
        if r.2 < 0 then done r.1 r.2 else done r.1 i.val

def sysPipeClose (k : Kernel) (id : List UInt8) : Outcome StepResult :=
  match findPipeById k id with
  | none => done k (-eNoEnt)
  | some pp => done (pipeFree k pp) 0

def sysCloseFd (k : Kernel) (fd : Int) : Outcome StepResult :=
  match k.currentProcess with
  | none => done k (-eFault)
  | some c =>
    if h : 0 ≤ fd ∧ fd < fdMax then done (closeSlot k c ⟨fd.toNat, toNat_lt_fdMax h⟩) 0
    else done k (-eInval)

/-! ### Processes -/

def sysKillProc (k : Kernel) (pid : Int) : Outcome StepResult :=
  if pid = 0 ∨ pid = 1 then done k (-ePerm)
  else do
    match ← getProcByPid k (toPid pid) with
    | none => done k (-eSrch)
    | some p =>
      let k ← procKill k (some p) (128 + 9)
      done k 0

def sysChangePriority (k : Kernel) (pid priority : Int) : Outcome StepResult := do
  let p ← getProcByPid k (toPid pid)
  let r := changePriority k p priority
  done r.1 r.2

/-- `sys_exit`: the call does not return; should its process ever run again, it spins. -/
def sysExit (k : Kernel) (code : Int) : Outcome StepResult := do
  let k ← procKill (k.suspend .exit) k.currentProcess code
  let k ← callTimerTick k
  .ok (k, none)

def sysBlock (k : Kernel) (pid : Int) : Outcome StepResult := do
  let r ← blockProcessByPid k (toPid pid)
  .ok (r.1, r.2.map Completion.other)

def sysUnblock (k : Kernel) (pid : Int) : Outcome StepResult := do
  let r ← unblockProcessByPid k (toPid pid)
  done r.1 r.2

def sysYield (k : Kernel) : Outcome StepResult := do
  let k ← yield (k.suspend .yield)
  .ok (k, none)

def sysSleep (k : Kernel) (seconds : Nat) : Outcome StepResult := do
  let k ← sleepHelper k (secondsToTicks seconds)
  .ok (k, none)

def sysUsleep (k : Kernel) (microseconds : Nat) : Outcome StepResult :=
  if usleepTicks microseconds = 0 then done k 0
  else do
    let k ← sleepHelper k (usleepTicks microseconds)
    .ok (k, none)

/-! ### The machine -/

/-- Go on with the work that is left on the kernel stack of the current process. -/
def resume (k : Kernel) (c : ProcId) (w : Pending) : Outcome StepResult :=
  let k := { k with kstack := Function.update k.kstack c none }
  match w with
  | .yield | .sleep | .block => done k 0
  | .exit => .hang
  | .semWait id => .ok (k, some (.semWait id 0))
  | .pipeRead pp size => do .ok (finishRead pp (← pipeRead k c pp size))
  | .pipeWrite pp buf => do .ok (finishWrite pp buf (← pipeWrite k c pp buf))
  | .waitPid pid => do .ok (finishWait (← waitPidLoop k c pid))
  | .readLine count buf0 => do .ok (finishLine (← readLine k c count buf0))

/-- The effect of an entry from user mode. -/
def enter (k : Kernel) : Event → Outcome StepResult
  | .timer => do .ok (← callTimerTick k, none)
  | .key sc => do .ok (← handleKeyPress k sc, none)
  | .user rsp => .ok ({ k with rsp := rsp }, none)
  | .resume => .fault
  | .sysRead fd count buf0 => sysRead k fd count buf0
  | .sysWrite fd buf => sysWrite k fd buf
  | .sysSleep s => sysSleep k s
  | .sysUsleep us => sysUsleep k us
  | .sysPipeCreate id junk => sysPipeCreate k id junk
  | .sysPipeOpen id junk mode => sysPipeOpen k id junk mode
  | .sysPipeClose id => sysPipeClose k id
  | .sysSpawn a => do
    let r ← sysSpawnProcess k a
    done r.1 r.2
  | .sysKillProc pid => sysKillProc k pid
  | .sysChangePriority pid prio => sysChangePriority k pid prio
  | .sysExit code => sysExit k code
  | .sysBlock pid => sysBlock k pid
  | .sysUnblock pid => sysUnblock k pid
  | .sysCloseFd fd => sysCloseFd k fd
  | .sysWaitPid pid => do .ok (finishWait (← waitPid k (toPid pid)))
  | .sysWait => do .ok (finishWait (← waitPid k (-1)))
  | .sysYield => sysYield k
  | .sysSetCanonical b => done { k with canonicalMode := b } 0
  | .sysCreateSem id v => done (mySemCreate k id v).1 (mySemCreate k id v).2
  | .sysCloseSem id => done (mySemDestroy k id).1 (mySemDestroy k id).2
  | .sysSemPost id => do
    let r ← mySemPost k id
    .ok (r.1, some (.semPost id r.2))
  | .sysSemWait id => do .ok (finishSemWait id (← mySemWait k id))
  | .sysSemTrywait id => do
    let r ← mySemTrywait k id
    .ok (r.1, some (.semTrywait id r.2))

/-- **One step of the machine.**  Inside the kernel only the suspended system call can go
    on; in user mode every entry is possible.  `none` when the event cannot happen or the
    kernel does not come back from it. -/
def step (k : Kernel) (e : Event) : Option StepResult :=
  match e with
  | .resume =>
    match k.currentProcess with
    | none => none
    | some c =>
      match k.kstack c with
      | none => none
      | some w => (resume k c w).toOption
  | e => if k.inKernel then none else (enter k e).toOption

/-- The kernel as `main` finds it after `initialize_scheduler`, with the given outcomes of
    `kmalloc`: no process yet.  `idle` and `init` are spawned by the first events. -/
def boot (mallocOk : Nat → Bool) : Kernel := { mallocOk := mallocOk }

/-- A run of the kernel from `boot` whose steps meet `ok`. -/
abbrev Run (mallocOk : Nat → Bool) (ok : Kernel → Event → Prop)
    (tr : List (Kernel × Event × Option Completion)) (k : Kernel) : Prop :=
  Trace step ok (boot mallocOk) tr k

end TpeSo
