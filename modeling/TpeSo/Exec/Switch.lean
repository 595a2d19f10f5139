import TpeSo.Exec.Bounds
import TpeSo.Exec.Interrupt
import TpeSo.Sched.Pointers

namespace TpeSo.Exec

open Lib

/-!
# `_irq00Handler` — the processor changes hands

The kernel only keeps a stack pointer for each process; everything else that a process leaves
behind is on its stack.  `Machine` puts the two together: the kernel's records, the registers and
the memory.

* `Slice` — what the running code does between one entry into the kernel and the next;
* `Machine.irq00Handler` — `pushState`, `schedule`, `popState`, `iretq`;
* `Machine.step` — one slice;
* `Disciplined` — what a slice must not do: write into the stacks of others, overflow its own, or
  move a stack pointer to where no frame is.
-/

/-- The kernel's records, the processor and the memory. -/
structure Machine where
  kernel : Kernel
  regs : Registers
  mem : Memory
  /-- `stack_start` of each process. -/
  stackStart : ProcId → Nat

/-- What the running code does until it is back from the next entry into the kernel. -/
structure Slice where
  event : Event
  /-- The registers when the timer is raised, or when the entry is over. -/
  regs : Registers
  /-- What is written up to then, by the process and by the kernel for it. -/
  writes : List (Chunk 64) := []
  /-- What `irqDispatcher` and `schedule` write. -/
  handlerWrites : List (Chunk 64) := []
  /-- The stack that a new process is given. -/
  block : StackBlock
  /-- The arguments of a new process. -/
  argv : Argv

variable {processWrapper : Ptr} {m m' : Machine} {x : Slice} {k : Kernel} {p q c : ProcId}
  {o : Option Completion}

namespace Machine

/-- The addresses of the stack of a process. -/
def stack (m : Machine) (p : ProcId) : Span := ⟨m.stackStart p, stackSize⟩

/-- The process exists and has not died. -/
def Alive (m : Machine) (p : ProcId) : Prop :=
  p < m.kernel.nextProc ∧ (m.kernel.procs p).status ≠ .zombie

/-- The process waits for the processor, or for something else. -/
def Parked (m : Machine) (p : ProcId) : Prop := m.Alive p ∧ m.kernel.currentProcess ≠ some p

/-- The kernel in the slice `x`, with `rsp` where `_irq00Handler` hands it to `schedule`. -/
def entered (m : Machine) (x : Slice) : Kernel :=
  { m.kernel with rsp := (framePointer x.regs).toNat }

/-- A process was made in the step to `k`. -/
abbrev Bears (m : Machine) (k : Kernel) : Prop := k.nextProc ≠ m.kernel.nextProc

/-- The slice up to the timer interrupt: the writes, and the arguments and the first frame of a
    new process. -/
def ran (processWrapper : Ptr) (m : Machine) (x : Slice) (k : Kernel) : Machine where
  kernel := k
  regs := x.regs
  mem :=
    if m.Bears k then
      writeAll (writeAll m.mem x.writes)
        (execv processWrapper true (stackTop (some x.block)) x.argv).writes
    else writeAll m.mem x.writes
  stackStart :=
    if m.Bears k then Function.update m.stackStart m.kernel.nextProc x.block.start
    else m.stackStart

/-- `_irq00Handler`, `schedule` having returned `rsp`. -/
def irq00Handler (m : Machine) (handlerWrites : List (Chunk 64)) : Machine :=
  let mem := writeAll (saveState m.mem m.regs) handlerWrites
  { m with mem := mem, regs := restoreState mem (BitVec.ofNat 64 m.kernel.rsp) m.regs }

/-- The slice `x`, in which the kernel goes to `k`; the timer has ticked if it was raised. -/
def after (processWrapper : Ptr) (m : Machine) (x : Slice) (k : Kernel) : Machine :=
  if k.ticks = m.kernel.ticks then m.ran processWrapper x k
  else (m.ran processWrapper x k).irq00Handler x.handlerWrites

/-- One slice. -/
def step (processWrapper : Ptr) (m : Machine) (x : Slice) : Option (Machine × Option Completion) :=
  (TpeSo.step (m.entered x) x.event).map fun r => (m.after processWrapper x r.1, r.2)

/-- The machine before the first process. -/
def boot (regs : Registers) (mem : Memory) : Machine :=
  ⟨TpeSo.boot fun _ => true, regs, mem, fun _ => 0⟩

theorem step_eq_some (hs : m.step processWrapper x = some (m', o)) : ∃ k,
    TpeSo.step (m.entered x) x.event = some (k, o) ∧ m' = m.after processWrapper x k := by
  obtain ⟨⟨k, o'⟩, hk, hr⟩ := Option.map_eq_some_iff.mp hs
  cases hr
  exact ⟨k, hk, rfl⟩

@[simp] theorem kernel_after (processWrapper : Ptr) (m : Machine) (x : Slice) (k : Kernel) :
    (m.after processWrapper x k).kernel = k := by
  unfold after
  split <;> rfl

theorem stackStart_after (processWrapper : Ptr) (m : Machine) (x : Slice) (k : Kernel) :
    (m.after processWrapper x k).stackStart = (m.ran processWrapper x k).stackStart := by
  unfold after
  split <;> rfl

/-- Nobody's stack is moved. -/
theorem stack_after (hp : p < m.kernel.nextProc) :
    (m.after processWrapper x k).stack p = m.stack p := by
  have hstart : (m.ran processWrapper x k).stackStart p = m.stackStart p := by
    unfold ran
    dsimp only
    split
    · rw [Function.update_of_ne (Nat.ne_of_lt hp)]
    · rfl
  unfold stack
  rw [stackStart_after, hstart]

/-- A new process has the stack it was given. -/
theorem stack_newborn (hb : m.Bears k) :
    (m.after processWrapper x k).stack m.kernel.nextProc = ⟨x.block.start, stackSize⟩ := by
  have hstart : (m.ran processWrapper x k).stackStart m.kernel.nextProc = x.block.start := by
    unfold ran
    dsimp only
    rw [if_pos hb, Function.update_self]
  unfold stack
  rw [stackStart_after, hstart]

end Machine

/-- A new process starts at the stack pointer that `execv` leaves, and its stack is nobody else's
    and holds its arguments. -/
structure Fresh (processWrapper : Ptr) (m : Machine) (x : Slice) (a : SpawnArgs) : Prop where
  frame : a.frame = (execv processWrapper true (stackTop (some x.block)) x.argv).stackPointer.toNat
  room : needed (stackTop (some x.block)) x.argv ≤ stackSize
  apart : ∀ p, m.Alive p → (m.stack p).Apart ⟨x.block.start, stackSize⟩

/-- Nobody writes into a stack that is not its own or past the end of its own. -/
structure RespectsStacks (processWrapper : Ptr) (m : Machine) (x : Slice) : Prop where
  user : x.event.isUser = false
  fits : ∀ c ∈ x.writes ++ x.handlerWrites, c.fits
  apart : ∀ p, m.Parked p → ∀ c ∈ x.writes ++ x.handlerWrites, c.span.Apart (m.stack p)
  /-- There is room for the frame of an interrupt. -/
  room : (framePointer x.regs).toNat + 160 < 2 ^ 64
  inside : ∀ c, m.kernel.currentProcess = some c →
    (frameSpan (framePointer x.regs)).Inside (m.stack c)
  /-- Who has just been killed may still be running, on a stack that has been given back. -/
  outside : m.kernel.currentProcess = none → ∀ p, m.Parked p →
    (frameSpan (framePointer x.regs)).Apart (m.stack p)
  /-- The handler works below the frame. -/
  below : ∀ c ∈ x.handlerWrites, c.span.Apart (frameSpan (framePointer x.regs))
  spawn : ∀ a, x.event.spawnArgs = some a → Fresh processWrapper m x a

/-- Besides, kills are clean. -/
structure Disciplined (processWrapper : Ptr) (m : Machine) (x : Slice) : Prop extends
    RespectsStacks processWrapper m x where
  clean : CleanStep m.kernel x.event

/-! ### Checking a slice -/

instance (m : Machine) (p : ProcId) : Decidable (m.Alive p) := inferInstanceAs (Decidable (_ ∧ _))

instance (m : Machine) (p : ProcId) : Decidable (m.Parked p) := inferInstanceAs (Decidable (_ ∧ _))

section

variable (m : Machine) (P : ProcId → Prop) [DecidablePred P]

instance : Decidable (∀ p, m.Alive p → P p) :=
  decidable_of_iff (∀ p < m.kernel.nextProc, m.Alive p → P p)
    ⟨fun h p hp => h p hp.1 hp, fun h p _ hp => h p hp⟩

instance : Decidable (∀ p, m.Parked p → P p) :=
  decidable_of_iff (∀ p < m.kernel.nextProc, m.Parked p → P p)
    ⟨fun h p hp => h p hp.1.1 hp, fun h p _ hp => h p hp⟩

instance : Decidable (∀ c, m.kernel.currentProcess = some c → P c) :=
  inferInstanceAs (Decidable (∀ c ∈ m.kernel.currentProcess, P c))

end

instance (processWrapper : Ptr) (m : Machine) (x : Slice) (a : SpawnArgs) :
    Decidable (Fresh processWrapper m x a) :=
  decidable_of_iff (_ ∧ _ ∧ _) ⟨fun h => ⟨h.1, h.2.1, h.2.2⟩, fun h => ⟨h.frame, h.room, h.apart⟩⟩

instance (e : Event) (P : SpawnArgs → Prop) [DecidablePred P] :
    Decidable (∀ a, e.spawnArgs = some a → P a) :=
  inferInstanceAs (Decidable (∀ a ∈ e.spawnArgs, P a))

instance (processWrapper : Ptr) (m : Machine) (x : Slice) :
    Decidable (RespectsStacks processWrapper m x) :=
  decidable_of_iff (_ ∧ _ ∧ _ ∧ _ ∧ _ ∧ _ ∧ _ ∧ _)
    ⟨fun ⟨h₁, h₂, h₃, h₄, h₅, h₆, h₇, h₈⟩ => ⟨h₁, h₂, h₃, h₄, h₅, h₆, h₇, h₈⟩,
      fun h => ⟨h.user, h.fits, h.apart, h.room, h.inside, h.outside, h.below, h.spawn⟩⟩

end TpeSo.Exec
