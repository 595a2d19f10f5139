import TpeSo.Kernel.State

namespace TpeSo

open Ds Lib

/-!
# `proc/scheduler.c` and `lib/time_rtc.c` — readiness, dispatch, blocking, the timer

The processor changes hands in one place only, `schedule`, which the timer interrupt
handler calls after `timer_handler`.  A voluntary switch (`yield`, and through it `block`)
raises the same interrupt by software, so it also counts a tick and wakes the sleepers
that have become due.  `initialize_scheduler` has run, so the `scheduler` record and its
two queues exist.
-/

/-- `proc_ready`. -/
def procReady (k : Kernel) : Option ProcId → Kernel
  | none => k
  | some p =>
    let k := k.setProc p fun q =>
      { q with status := .ready, blockReason := .none, waitingOn := .readyQueue }
    let node := k.kmalloc
    let k := k.alloc
    { k with
      readyProcesses := enqueue node k.readyProcesses p
      blockedProcesses := queueRemove k.blockedProcesses p }

/-- `enqueue_next_process`: dispatch the head of the ready queue; with none there the
    kernel stops. -/
def enqueueNextProcess (k : Kernel) : Outcome Kernel :=
  let r := dequeue k.readyProcesses
  let k := { k with readyProcesses := r.2, currentProcess := r.1 }
  match r.1 with
  | none => .hang
  | some p => .ok (k.setProc p fun q => { q with status := .running, hasQuantum := q.priority })

/-- The branch of `schedule` taken when some process is ready and `c` is current. -/
def scheduleCurrent (k : Kernel) (c : ProcId) : Outcome Kernel :=
  let k := k.setProc c fun q => { q with hasQuantum := q.hasQuantum - 1 }
  if (k.procs c).hasQuantum = 0 then
    let st := (k.procs c).status
    let k :=
      if st ≠ .blocked ∧ st ≠ .zombie ∧ st ≠ .dead then
        procReady (k.setProc c fun q => { q with status := .ready }) (some c)
      else k
    enqueueNextProcess k
  else .ok k

/-- `schedule` up to the choice of the next process, `lastRsp` being the stack pointer of
    the interrupted one. -/
def pickNext (k : Kernel) (lastRsp : Nat) : Outcome Kernel :=
  match k.currentProcess with
  | none => if k.readyProcesses = [] then .hang else enqueueNextProcess k
  | some c =>
    let k := k.setProc c fun q => { q with stackPointer := lastRsp }
    if k.readyProcesses = [] then
      if (k.procs c).status = .running then
        .ok (k.setProc c fun q => { q with hasQuantum := q.priority })
      else .hang
    else scheduleCurrent k c

/-- `schedule`: the kernel afterwards and the stack pointer to continue on. -/
def schedule (k : Kernel) (lastRsp : Nat) : Outcome (Kernel × Nat) := do
  let k ← pickNext k lastRsp
  match k.currentProcess with
  | none => .fault
  | some c => .ok (k, (k.procs c).stackPointer)

/-- `unblock_process_by_pid`. -/
def unblockProcessByPid (k : Kernel) (pid : Int) : Outcome (Kernel × Int) := do
  match ← getProcByPid k pid with
  | none => .ok (k, -1)
  | some p => if (k.procs p).status ≠ .blocked then .ok (k, 0) else .ok (procReady k (some p), 0)

/-- The loop of `timer_handler` over the nodes `rest` of the sleep queue: unblock the
    process of an entry that is due, and unlink its node. -/
def wakeDue (k : Kernel) : List SleepingProc → Outcome Kernel
  | [] => .ok k
  | sp :: rest =>
    if sp.wakeUpTick ≤ k.ticks then do
      let (k, _) ← unblockProcessByPid k sp.pid
      wakeDue { k with sleepingProcs := queueRemove k.sleepingProcs sp } rest
    else wakeDue k rest

/-- `timer_handler`. -/
def timerHandler (k : Kernel) : Outcome Kernel :=
  wakeDue { k with ticks := (k.ticks + 1) % word } k.sleepingProcs

/-- `_irq00Handler`, entered by the hardware timer or by `call_timer_tick`. -/
def callTimerTick (k : Kernel) : Outcome Kernel := do
  let k ← timerHandler k
  let (k, rsp) ← schedule k k.rsp
  .ok { k with rsp := rsp }

/-- `yield`. -/
def yield (k : Kernel) : Outcome Kernel :=
  match k.currentProcess with
  | none => .fault
  | some c => callTimerTick (k.setProc c fun q => { q with hasQuantum := 0 })

/-- The bookkeeping of `block`, before the switch. -/
def markBlocked (k : Kernel) (p : ProcId) (reason : BlockReason) (res : WaitRef) : Kernel :=
  let k := k.setProc p fun q =>
    { q with status := .blocked, blockReason := reason, waitingOn := res }
  let k := { k with readyProcesses := queueRemove k.readyProcesses p }
  let node := k.kmalloc
  let k := k.alloc
  { k with blockedProcesses := enqueue node k.blockedProcesses p }

/-- `block`: a process that blocks itself gives up the processor. -/
def block (k : Kernel) (p : ProcId) (reason : BlockReason) (res : WaitRef) : Outcome Kernel :=
  let k := markBlocked k p reason res
  match k.currentProcess with
  | none => .ok k
  | some c => if (k.procs c).pid = (k.procs p).pid then yield k else .ok k

/-- `block_current`. -/
def blockCurrent (k : Kernel) (reason : BlockReason) (res : WaitRef) : Outcome Kernel :=
  match k.currentProcess with
  | none => .ok k
  | some c => block k c reason res

/-- Does `block` of `p` switch away from the caller? -/
def blocksItself (k : Kernel) (p : ProcId) : Bool :=
  match k.currentProcess with
  | none => false
  | some c => (k.procs c).pid = (k.procs p).pid

/-- `block_process_by_pid`; no result yet when the caller blocked itself. -/
def blockProcessByPid (k : Kernel) (pid : Int) : Outcome (Kernel × Option Int) := do
  match ← getProcByPid k pid with
  | none => .ok (k, some (-1))
  | some p =>
    if (k.procs p).status = .zombie ∨ (k.procs p).status = .dead then .ok (k, some (-1))
    else if (k.procs p).status = .blocked then .ok (k, some 0)
    else if blocksItself k p then do
      let k ← block (k.suspend .block) p .arbitrary .null
      .ok (k, none)
    else do
      let k ← block k p .arbitrary .null
      .ok (k, some 0)

/-- `seconds_to_ticks`, at the PIT's 18 Hz. -/
def secondsToTicks (seconds : Nat) : Nat := seconds * 18 % word

/-- The wake-up tick `sleep_helper` stores. -/
def wakeUpTick (k : Kernel) (ticksToWait : Nat) : Nat := (k.ticks + ticksToWait) % word

/-- `sleep_helper`: without a running process, or without memory for the entry, the code
    dereferences `NULL`. -/
def sleepHelper (k : Kernel) (ticksToWait : Nat) : Outcome Kernel :=
  match k.currentProcess with
  | none => .fault
  | some c =>
    let entry := k.kmalloc
    let k := k.alloc
    if entry then
      let node := k.kmalloc
      let k := k.alloc
      let sp : SleepingProc :=
        { pid := (k.procs c).pid, wakeUpTick := wakeUpTick k ticksToWait }
      let k := { k with sleepingProcs := enqueue node k.sleepingProcs sp }
      blockCurrent (k.suspend .sleep) .sleep .sleepers
    else .fault

/-- The number of ticks `sleep` and `usleep` wait for; `usleep` returns at once on `0`. -/
def usleepTicks (microseconds : Nat) : Nat := secondsToTicks microseconds / 1000000

end TpeSo
