import TpeSo.Kernel.Pipe

namespace TpeSo

open Ds Lib

/-!
# `proc/process.c` — creation, death and collection of processes

`proc_kill` is cut along its own comments: returning the foreground and leaving the
scheduler (`killUnlink`), closing the descriptors (`closeFds`), handing the children to
`init` (`reparentAll`), and waking or replacing the parent (`killNotify`).
`drivers/tty.c` contributes `set_foreground_process`.
-/

/-! ### The foreground -/

/-- `set_foreground_process`. -/
def setForegroundProcess (k : Kernel) (proc caller : Option ProcId) : Kernel :=
  match proc with
  | none => k
  | some p =>
    if (k.procs p).pid = 1 then
      { k.setProc p (fun q => { q with mode := .fg }) with foregroundProcess := some p }
    else
      match caller with
      | none => k
      | some c =>
        if (k.procs c).mode = .fg then
          let k := k.setProc c fun q => { q with mode := .bg }
          { k.setProc p (fun q => { q with mode := .fg }) with foregroundProcess := some p }
        else k

/-! ### Creation -/

/-- `proc_pid_alloc`: the first free slot of the table. -/
def procPidAlloc (k : Kernel) : Option Nat :=
  (List.range maxProcesses).find? fun i => (k.processTable i).isNone

/-- `proc_new`; `process_count` is only ever decremented, by `proc_reap`. -/
def procNew (k : Kernel) : Kernel × Option ProcId :=
  if (maxProcesses : Int) ≤ k.processCount then (k, none)
  else
    let ok := k.kmalloc
    let k := k.alloc
    if ok then
      ({ k with
          nextProc := k.nextProc + 1
          procs := Function.update k.procs k.nextProc {} }, some k.nextProc)
    else (k, none)

/-- What `sys_spawn_process` is given, with the addresses the new stack brings about. -/
structure SpawnArgs where
  /-- The result of `fs_get_entry`. -/
  entry : Option Nat
  /-- The caller's array of descriptors to inherit, or `NULL`. -/
  fds : Option (Fin fdMax → Int)
  background : Bool
  /-- `stack_start + STACK_SIZE`. -/
  stackTop : Nat := 0
  /-- The stack pointer `execv` leaves, below the arguments and the initial frame. -/
  frame : Nat := 0

/-- The descriptors `proc_init` gives the process. -/
def initFds (k : Kernel) (p : ProcId) (parent : Option ProcId) :
    Option (Fin fdMax → Int) → Kernel
  | some fds => inheritFds k p parent fds
  | none => setDefaultFds k p

/-- The foreground `proc_init` gives the process. -/
def initForeground (k : Kernel) (p : ProcId) (parent : Option ProcId) (background : Bool) :
    Kernel :=
  if background then k else setForegroundProcess k (some p) parent

/-- The end of `proc_init`: defaults and family. -/
def initFamily (k : Kernel) (p : ProcId) (parent : Option ProcId) (entry : Nat) :
    Kernel × Int :=
  let k := k.setProc p fun q =>
    { q with
      parent := parent, entry := entry, priority := quantumDefault, status := .ready,
      exit := -1, blockReason := .none, waitingOn := .null }
  match parent with
  | none => (k, 0)
  | some c =>
    if (k.procs c).children.length < maxProcesses then
      (k.setProc c fun q => { q with children := q.children ++ [(k.procs p).pid] }, 0)
    else (k, -1)

/-- `proc_init` once the stack is there. -/
def procSetup (k : Kernel) (p : ProcId) (a : SpawnArgs) (entry : Nat) : Kernel × Int :=
  let parent := k.currentProcess
  let k := k.setProc p fun q => { q with hasStack := true, stackPointer := a.stackTop }
  let k := initFds k p parent a.fds
  let k := initForeground k p parent a.background
  initFamily k p parent entry

/-- `proc_init`. -/
def procInit (k : Kernel) (p : ProcId) (a : SpawnArgs) (entry : Nat) : Kernel × Int :=
  match procPidAlloc k with
  | none => (k.setProc p fun q => { q with pid := -1 }, -1)
  | some i =>
    let k := { k.setProc p (fun q => { q with pid := i }) with
      processTable := Function.update k.processTable i (some p) }
    let stack := k.kmalloc
    let k := k.alloc
    if stack then procSetup k p a entry else (k, -1)

/-- `execv`: it needs a buffer for the argument pointers, and writes below the stack
    pointer of the process, which is `NULL` when `proc_init` failed. -/
def execv (k : Kernel) (p : ProcId) (frame : Nat) : Outcome Kernel :=
  let buf := k.kmalloc
  let k := k.alloc
  if buf then
    if (k.procs p).hasStack then .ok (k.setProc p fun q => { q with stackPointer := frame })
    else .fault
  else .ok k

def eNoEnt : Int := 2
def eNoMem : Int := 12

/-- `sys_spawn_process`; the results of `proc_init` and `execv` are not looked at. -/
def sysSpawnProcess (k : Kernel) (a : SpawnArgs) : Outcome (Kernel × Int) :=
  match a.entry with
  | none => .ok (k, -eNoEnt)
  | some entry =>
    let r := procNew k
    match r.2 with
    | none => .ok (r.1, -eNoMem)
    | some p => do
      let k := (procInit r.1 p a entry).1
      let k ← execv k p a.frame
      let k := procReady k (some p)
      .ok (k, (k.procs p).pid)

/-! ### Collection -/

/-- `proc_reap`: an unchecked index into `process_table`. -/
def procReap (k : Kernel) (p : ProcId) : Outcome Kernel :=
  let pid := (k.procs p).pid
  if 0 ≤ pid ∧ pid < maxProcesses then
    .ok { k with
      processTable := Function.update k.processTable pid.toNat none
      processCount := k.processCount - 1 }
  else .fault

/-! ### Death -/

/-- `queue_remove(proc->waiting_on, proc)`.  For a process that waits on a semaphore the
    pointer leads to the `semaphore_t`, whose second word (`users`, always `0`) is read as
    the head of a queue; for a sleeper, to a queue of `sleeping_proc_t`.  Neither holds the
    process. -/
def unlinkWaiting (k : Kernel) (p : ProcId) : Kernel :=
  match (k.procs p).waitingOn with
  | .readyQueue => { k with readyProcesses := queueRemove k.readyProcesses p }
  | .pipeReaders pp => k.setPipe pp fun q =>
      { q with readersWaitQueue := queueRemove q.readersWaitQueue p }
  | .pipeWriters pp => k.setPipe pp fun q =>
      { q with writersWaitQueue := queueRemove q.writersWaitQueue p }
  | .keyboard => { k with keyboardQueue := queueRemove k.keyboardQueue p }
  | .null | .semaphore _ | .sleepers => k

/-- `sched_rm_current`, when the process is the running one. -/
def rmCurrent (k : Kernel) (p : ProcId) : Kernel :=
  if (k.procs p).status = .running then { k with currentProcess := none } else k

/-- `proc_kill`, first part: foreground, scheduler, status, stack. -/
def killUnlink (k : Kernel) (p : ProcId) (code : Int) : Kernel :=
  let k := setForegroundProcess k (k.procs p).parent (some p)
  let k := unlinkWaiting (rmCurrent k p) p
  k.setProc p fun q => { q with status := .zombie, exit := code }

/-- `proc_kill`, second part: close and clear every descriptor. -/
def closeFds (k : Kernel) (p : ProcId) : List (Fin fdMax) → Kernel
  | [] => k
  | i :: is => closeFds (closeSlot k p i) p is

/-- `reparent_to_init`. -/
def reparentToInit (k : Kernel) (child : ProcId) : Outcome Kernel :=
  match k.processTable 1 with
  | none => .fault
  | some i =>
    let k := k.setProc child fun q => { q with parent := some i }
    if (k.procs i).children.length < maxProcesses then
      .ok (k.setProc i fun q => { q with children := q.children ++ [(k.procs child).pid] })
    else .ok (k.setProc child fun q => { q with parent := none })

/-- `proc_kill`, third part: reparent every child that is still in the table. -/
def reparentAll (k : Kernel) : List Int → Outcome Kernel
  | [] => .ok k
  | pid :: rest => do
    match ← getProcByPid k pid with
    | none => reparentAll k rest
    | some child => do
      let k ← reparentToInit k child
      reparentAll k rest

/-- `proc_kill`, last part: wake the parent that waits for a child; a process without a
    parent is collected at once. -/
def killNotify (k : Kernel) (p : ProcId) : Outcome Kernel :=
  match (k.procs p).parent with
  | none => procReap k p
  | some q =>
    if (k.procs q).status = .blocked ∧ (k.procs q).blockReason = .child then
      .ok (procReady k (some q))
    else .ok k

/-- `proc_kill`. -/
def procKill (k : Kernel) (proc : Option ProcId) (code : Int) : Outcome Kernel :=
  match proc with
  | none => .ok k
  | some p =>
    if (k.procs p).pid = 0 ∨ (k.procs p).pid = 1 then .ok k
    else do
      let k := closeFds (killUnlink k p code) p (List.finRange fdMax)
      let k ← reparentAll k (k.procs p).children
      killNotify k p

/-! ### Waiting for children -/

/-- The scan of `wait_pid(-1)`: the first `ZOMBIE` child and its place in the array. -/
def findZombie (k : Kernel) : List Int → Nat → Outcome (Option (Nat × ProcId))
  | [], _ => .ok none
  | pid :: rest, i => do
    match ← getProcByPid k pid with
    | none => findZombie k rest (i + 1)
    | some child =>
      if (k.procs child).status = .zombie then .ok (some (i, child))
      else findZombie k rest (i + 1)

/-- Collect the child at place `i` of the array of `c`: reap it and shift the array. -/
def collect (k : Kernel) (c : ProcId) (i : Nat) (child : ProcId) : Outcome Kernel := do
  let k ← procReap k child
  .ok (k.setProc c fun q => { q with children := q.children.eraseIdx i })

/-- What a completed `wait_pid` hands back: its result and the exit status stored. -/
abbrev WaitResult := Int × Option Int

/-- `block_current(BLK_CHILD, NULL)` inside `wait_pid`. -/
def waitChild (k : Kernel) (pid : Int) : Outcome (Kernel × Option WaitResult) := do
  let k ← blockCurrent (k.suspend (.waitPid pid)) .child .null
  .ok (k, none)

/-- One round of the loop of `wait_pid`, for the current process `c`. -/
def waitPidLoop (k : Kernel) (c : ProcId) (pid : Int) :
    Outcome (Kernel × Option WaitResult) := do
  if pid = -1 then
    match ← findZombie k (k.procs c).children 0 with
    | some (i, child) =>
      let res := ((k.procs child).pid, some (k.procs child).exit)
      let k ← collect k c i child
      .ok (k, some res)
    | none => waitChild k pid
  else if pid ∈ (k.procs c).children then
    match ← getProcByPid k pid with
    | none => .ok (k, some (-1, none))
    | some child =>
      if (k.procs child).status = .zombie then do
        let res := (pid, some (k.procs child).exit)
        let k ← collect k c ((k.procs c).children.idxOf pid) child
        .ok (k, some res)
      else waitChild k pid
  else .ok (k, some (-1, none))

/-- `wait_pid`. -/
def waitPid (k : Kernel) (pid : Int) : Outcome (Kernel × Option WaitResult) :=
  match k.currentProcess with
  | none => .fault
  | some c =>
    if (k.procs c).children = [] then .ok (k, some (-1, none)) else waitPidLoop k c pid

/-- `change_priority` (`priority_t` is `uint8_t`). -/
def changePriority (k : Kernel) (child : Option ProcId) (newPriority : Int) : Kernel × Int :=
  match child with
  | none => (k, -1)
  | some p =>
    let prio := (newPriority % 256).toNat
    if (k.procs p).parent ≠ k.currentProcess then (k, -1)
    else if prio = 0 ∨ quantumMax < prio then (k, -1)
    else (k.setProc p fun q => { q with priority := prio, hasQuantum := prio }, 0)

end TpeSo
