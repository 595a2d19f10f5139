import TpeSo.Exec.Switch
import TpeSo.Sems.Tokens

namespace TpeSo.Exec

open Lib

/-!
# Each process has a processor of its own

There is one set of registers, and the kernel keeps nothing of it but the stack pointer.  Still a
process finds in its registers what it left there, whoever had the processor meanwhile.

* `contexts` — the registers that each process would have on a processor of its own;
* `Saved` — a frame on the stack of a process, where its stack pointer leads, holds its registers;
* `Kept`, `Kept.step` — the invariant, and **one slice**;
* `multiplexed_run` — whoever has the processor has its own registers in it, and the registers of
  everybody else are on their stacks.
-/

variable {processWrapper : Ptr} {m m' : Machine} {x : Slice} {k : Kernel} {p q c : ProcId}
  {o : Option Completion} {ctx : ProcId → Registers} {regs : Registers}

/-! ### One processor for each -/

/-- What a slice does with these processors: it runs on that of the current process, and a new
    process gets one with its first registers. -/
def Slice.contexts (processWrapper : Ptr) (m : Machine) (x : Slice) (ctx : ProcId → Registers)
    (p : ProcId) : Registers :=
  if m.kernel.currentProcess = some p then x.regs
  else if p = m.kernel.nextProc then
    startRegisters processWrapper (stackTop (some x.block)) x.argv
  else ctx p

/-- The registers of each process after a run, were there a processor for each. -/
def contexts (processWrapper : Ptr) (tr : List (Machine × Slice × Option Completion)) :
    ProcId → Registers :=
  tr.foldl (fun ctx y => y.2.1.contexts processWrapper y.1 ctx) fun _ _ => 0

theorem contexts_snoc (tr : List (Machine × Slice × Option Completion)) (m : Machine) (x : Slice)
    (o : Option Completion) : contexts processWrapper (tr ++ [(m, x, o)]) =
      x.contexts processWrapper m (contexts processWrapper tr) :=
  List.foldl_append

/-- The registers `regs` are in a frame on the stack of `p`, and its stack pointer leads there. -/
def Saved (m : Machine) (p : ProcId) (regs : Registers) : Prop :=
  ∃ sp : Ptr, (m.kernel.procs p).stackPointer = sp.toNat ∧ (frameSpan sp).Inside (m.stack p) ∧
    ∀ before, restoreState m.mem sp before = regs

/-! ### Memory -/

/-- The frame of an interrupt is on no stack but that of the current process. -/
theorem Disciplined.frame_apart (h : Disciplined processWrapper m x)
    (hcur : ∀ c, m.kernel.currentProcess = some c → m.Alive c)
    (hapart : ∀ p q, m.Alive p → m.Alive q → p ≠ q → (m.stack p).Apart (m.stack q))
    (hp : m.Parked p) : (frameSpan (framePointer x.regs)).Apart (m.stack p) := by
  cases hc : m.kernel.currentProcess with
  | none => exact h.outside hc p hp
  | some c =>
    have hne : c ≠ p := fun heq => hp.2 (heq ▸ hc)
    exact (h.inside c hc).apart_left (hapart c p (hcur c hc) hp.1 hne)

/-- Up to the interrupt nothing is written into the stack of a process that is parked. -/
theorem agreeOn_ran (h : Disciplined processWrapper m x)
    (hfresh : m.Bears k → ∃ a, x.event = .sysSpawn a) (hp : m.Parked p) :
    AgreeOn (m.stack p).lo (m.stack p).len m.mem (m.ran processWrapper x k).mem := by
  have hwrites : AgreeOn (m.stack p).lo (m.stack p).len m.mem (writeAll m.mem x.writes) :=
    agreeOn_writeAll fun c hc =>
      ⟨h.fits c (List.mem_append_left _ hc), h.apart p hp c (List.mem_append_left _ hc)⟩
  unfold Machine.ran
  dsimp only
  split
  · rename_i hb
    obtain ⟨a, ha⟩ := hfresh hb
    have hspawn := h.spawn a (congrArg Event.spawnArgs ha)
    refine hwrites.trans (agreeOn_writeAll fun c hc => ?_)
    have htop := toNat_stackTop x.block
    -- the arguments and the first frame are within the new stack
    have hdesc := @execv_descends processWrapper (stackTop (some x.block)) x.argv
      (hspawn.room.trans (by omega))
    have hin := hdesc.inside (List.mem_map_of_mem hc)
    have hroom := hspawn.room
    have hlow : x.block.start ≤ (execv processWrapper true (stackTop (some x.block))
        x.argv).stackPointer.toNat := by
      rw [execv_stackPointer, toNat_sub_ofNat (by omega), htop]
      omega
    have hblock : c.span.Inside ⟨x.block.start, stackSize⟩ :=
      ⟨hlow.trans hin.1, hin.2.trans (le_of_eq htop)⟩
    exact ⟨lt_of_le_of_lt hin.2 (BitVec.isLt _), hblock.apart_left (hspawn.apart p hp.1).symm⟩
  · exact hwrites

/-- Nor by the interrupt. -/
theorem agreeOn_irq00Handler (h : Disciplined processWrapper m x)
    (hframe : (frameSpan (framePointer x.regs)).Apart (m.stack p)) (hp : m.Parked p)
    (hm : m'.regs = x.regs) : AgreeOn (m.stack p).lo (m.stack p).len m'.mem
      (m'.irq00Handler x.handlerWrites).mem := by
  have hsave : AgreeOn (m.stack p).lo (m.stack p).len m'.mem (saveState m'.mem m'.regs) := by
    rw [hm]
    exact agreeOn_saveState h.room hframe
  exact hsave.trans (agreeOn_writeAll fun c hc =>
    ⟨h.fits c (List.mem_append_right _ hc), h.apart p hp c (List.mem_append_right _ hc)⟩)

theorem agreeOn_after (h : Disciplined processWrapper m x)
    (hfresh : m.Bears k → ∃ a, x.event = .sysSpawn a)
    (hframe : (frameSpan (framePointer x.regs)).Apart (m.stack p)) (hp : m.Parked p) :
    AgreeOn (m.stack p).lo (m.stack p).len m.mem (m.after processWrapper x k).mem := by
  have hran := agreeOn_ran h hfresh hp
  unfold Machine.after
  split
  · exact hran
  · exact hran.trans (agreeOn_irq00Handler h hframe hp rfl)

/-- The interrupted process finds its registers in the frame. -/
theorem restoreState_irq00Handler (h : Disciplined processWrapper m x) (hm : m'.regs = x.regs)
    (before : Registers) : restoreState (m'.irq00Handler x.handlerWrites).mem
      (framePointer x.regs) before = x.regs := by
  have hbelow : AgreeOn (frameSpan (framePointer x.regs)).lo (frameSpan (framePointer x.regs)).len
      (saveState m'.mem x.regs) (m'.irq00Handler x.handlerWrites).mem := by
    rw [← hm]
    exact agreeOn_writeAll fun c hc =>
      ⟨h.fits c (List.mem_append_right _ hc), by rw [hm]; exact h.below c hc⟩
  rw [restoreState_congr h.room hbelow, restoreState_saveState h.room]

/-! ### The invariant -/

/-- The registers of the current process are in the processor, those of the others on their
    stacks, which lie apart. -/
structure Kept (ctx : ProcId → Registers) (m : Machine) : Prop where
  final : Final .run m.kernel
  heap : m.kernel.HeapOk
  alone : OneRunning m.kernel
  current : ∀ c, m.kernel.currentProcess = some c → m.regs = ctx c
  parked : ∀ p, m.Parked p → Saved m p (ctx p)
  space : ∀ p, m.Alive p → (m.stack p).hi < 2 ^ 64
  apart : ∀ p q, m.Alive p → m.Alive q → p ≠ q → (m.stack p).Apart (m.stack q)

/-- What the kernel's invariants say of one slice. -/
structure Advances (m : Machine) (x : Slice) (k : Kernel) : Prop where
  final : Final .run k
  heap : k.HeapOk
  alone : OneRunning k
  zombies : Keeps m.kernel k
  killed : ∀ p, killTarget m.kernel x.event = some p → (k.procs p).status = .zombie
  evicted : ∀ c, m.kernel.currentProcess = some c → k.currentProcess = none →
    killTarget m.kernel x.event = some c
  births : k.nextProc = m.kernel.nextProc ∨
    (∃ a, x.event = .sysSpawn a) ∧ k.nextProc = m.kernel.nextProc + 1
  other : ∀ p, p < m.kernel.nextProc → m.kernel.currentProcess ≠ some p →
    (k.procs p).stackPointer = (m.kernel.procs p).stackPointer
  pointer : PointerStep (m.entered x) x.event k
  newborn : m.Bears k → ∀ a, x.event = .sysSpawn a →
    k.ticks = m.kernel.ticks ∧ (k.procs m.kernel.nextProc).stackPointer = a.frame

theorem Final.entered (h : Final .run m.kernel) (x : Slice) : Final .run (m.entered x) :=
  ⟨h.unborn, fun w p hp => h.born w p (by cases w <;> exact hp),
    fun p hz w hp => h.unlinked p hz w (by cases w <;> exact hp), h.current, h.spawning⟩

/-- Clean kills do not depend on `rsp`. -/
theorem cleanStep_entered (h : CleanStep m.kernel x.event) :
    CleanStep (m.entered x) x.event := by
  intro p hp
  have hclean := h p hp
  exact ⟨fun w hw => hclean.named w (by cases w <;> exact hw), hclean.noSemaphore,
    by
      have honce := hclean.once
      show (waiters (m.entered x) (m.kernel.procs p).waitingOn).count p ≤ 1
      cases hw : (m.kernel.procs p).waitingOn <;> rw [hw] at honce <;> exact honce,
    hclean.current⟩

theorem Kept.advances (h : Kept ctx m) (hd : Disciplined processWrapper m x)
    (hs : TpeSo.step (m.entered x) x.event = some (k, o)) : Advances m x k := by
  have hfinal := Final.entered h.final x
  have hclean := cleanStep_entered hd.clean
  obtain ⟨hfinal', hkeep⟩ := hfinal.step hclean hs
  have halone : OneRunning k :=
    (step_does hs).invariant (fun _ k => OneRunning k) (fun _ _ _ _ _ hI _ hm => hm.oneRunning hI)
      h.alone
  refine ⟨hfinal', step_heapOk (k := m.entered x) h.heap hs, halone, hkeep,
    fun p hp => step_victim_zombie hfinal hclean hs hp,
    fun c hc hc' => step_evicts (k := m.entered x) h.alone hs hc hc',
    step_nextProc (k := m.entered x) (Event.ne_user hd.user) hs,
    fun p hp hc => step_pointer_other (k := m.entered x) (Event.ne_user hd.user) hs hp hc,
    step_pointer (Event.ne_user hd.user) hs, fun hb a ha => ?_⟩
  rw [ha] at hs
  exact ⟨step_spawn_ticks (k := m.entered x) hs,
    (step_spawn_pointer (k := m.entered x) h.heap hs).resolve_left hb⟩

namespace Advances

variable (h : Advances m x k)

include h

theorem bears (hb : m.Bears k) : ∃ a, x.event = .sysSpawn a := (h.births.resolve_left hb).1

/-- Whoever lives afterwards lived before, or is new. -/
theorem alive_cases (hp : (m.after processWrapper x k).Alive p) :
    m.Alive p ∨ m.Bears k ∧ p = m.kernel.nextProc := by
  obtain ⟨hlt, hs⟩ := hp
  rw [Machine.kernel_after] at hlt hs
  have hold : p < m.kernel.nextProc → m.Alive p := fun hp => ⟨hp, fun hz => hs (h.zombies p hz)⟩
  rcases h.births with hsame | ⟨-, hsucc⟩
  · exact .inl (hold (hsame ▸ hlt))
  · rcases Nat.lt_or_ge p m.kernel.nextProc with hp | hp
    · exact .inl (hold hp)
    · have hb : m.Bears k := by
        unfold Machine.Bears
        rw [hsucc]
        exact Nat.succ_ne_self _
      exact .inr ⟨hb, Nat.le_antisymm (Nat.le_of_lt_succ (lt_of_lt_of_eq hlt hsucc)) hp⟩

/-- Nobody but the current process has the processor until the timer is raised. -/
theorem current_of_ticks (ht : k.ticks = m.kernel.ticks) (hc : k.currentProcess = some c) :
    m.kernel.currentProcess = some c := by
  cases h.pointer with
  | stays _ hcur =>
    rcases hcur with hcur | hcur
    · exact hcur.symm.trans hc
    · cases hc.symm.trans hcur
  | moves hne => exact absurd ht hne

/-- The processor goes on where the stack pointer of its process leads. -/
theorem rsp_of_ticks (ht : k.ticks ≠ m.kernel.ticks) (hc : k.currentProcess = some c) :
    k.rsp = (k.procs c).stackPointer := by
  cases h.pointer with
  | stays hsame => exact absurd hsame ht
  | moves _ d hd hrsp =>
    obtain rfl := Option.some.inj (hd.symm.trans hc)
    exact hrsp

/-- A process that loses the processor and lives on was interrupted by the timer, and its stack
    pointer leads to the frame. -/
theorem saved (hc : m.kernel.currentProcess = some p) (hs : (k.procs p).status ≠ .zombie)
    (hlost : k.currentProcess ≠ some p ∨ k.ticks ≠ m.kernel.ticks) : k.ticks ≠ m.kernel.ticks ∧
      (k.procs p).stackPointer = (framePointer x.regs).toNat := by
  have hlives : killTarget m.kernel x.event ≠ some p := fun ht => hs (h.killed p ht)
  cases h.pointer with
  | stays ht hcur =>
    rcases hcur with hcur | hcur
    · exact hlost.elim (absurd (hcur.trans hc)) (absurd ht)
    · exact absurd (h.evicted p hc hcur) hlives
  | moves ht d hd hrsp hsaved => exact ⟨ht, hsaved p hc hlives⟩

end Advances

/-! ### One slice -/

theorem Saved.congr (h : Saved m p regs) (hspace : (m.stack p).hi < 2 ^ 64)
    (hsp : (m'.kernel.procs p).stackPointer = (m.kernel.procs p).stackPointer)
    (hstack : m'.stack p = m.stack p)
    (hmem : AgreeOn (m.stack p).lo (m.stack p).len m.mem m'.mem) : Saved m' p regs := by
  obtain ⟨sp, hlead, hin, hregs⟩ := h
  refine ⟨sp, hsp.trans hlead, hstack ▸ hin, fun before => ?_⟩
  have hfit : sp.toNat + 160 < 2 ^ 64 := lt_of_le_of_lt hin.hi hspace
  rw [restoreState_congr hfit (hmem.mono hin.lo hin.hi), hregs]

/-- A process that was parked stays so. -/
theorem Kept.still (h : Kept ctx m) (hd : Disciplined processWrapper m x) (ha : Advances m x k)
    (hp : m.Parked p) : Saved (m.after processWrapper x k) p (ctx p) := by
  have hcur : ∀ c, m.kernel.currentProcess = some c → m.Alive c := h.final.current
  refine (h.parked p hp).congr (h.space p hp.1) ?_ (Machine.stack_after hp.1.1)
    (agreeOn_after hd ha.bears (hd.frame_apart hcur h.apart hp) hp)
  rw [Machine.kernel_after]
  exact ha.other p hp.1.1 hp.2

/-- The interrupted process. -/
theorem Advances.interrupted (ha : Advances m x k) (hd : Disciplined processWrapper m x)
    (hlt : p < m.kernel.nextProc) (hc : m.kernel.currentProcess = some p)
    (hs : (k.procs p).status ≠ .zombie)
    (hlost : k.currentProcess ≠ some p ∨ k.ticks ≠ m.kernel.ticks) :
    Saved (m.after processWrapper x k) p x.regs := by
  obtain ⟨ht, hsp⟩ := ha.saved hc hs hlost
  refine ⟨framePointer x.regs, ?_, ?_, fun before => ?_⟩
  · rw [Machine.kernel_after]
    exact hsp
  · rw [Machine.stack_after hlt]
    exact hd.inside p hc
  · rw [Machine.after, if_neg ht]
    exact restoreState_irq00Handler hd rfl before

/-- A new process waits on its first frame. -/
theorem Advances.onFirstFrame (ha : Advances m x k) (hd : Disciplined processWrapper m x)
    (hb : m.Bears k) : Saved (m.after processWrapper x k) m.kernel.nextProc
      (startRegisters processWrapper (stackTop (some x.block)) x.argv) := by
  obtain ⟨a, he⟩ := ha.bears hb
  obtain ⟨ht, hsp⟩ := ha.newborn hb a he
  have hspawn := hd.spawn a (congrArg Event.spawnArgs he)
  have hroom := hspawn.room
  have htop := toNat_stackTop x.block
  have hneeded := needed_eq (stackTop (some x.block)) x.argv
  have hlow : (execv processWrapper true (stackTop (some x.block)) x.argv).stackPointer.toNat =
      x.block.start + stackSize - needed (stackTop (some x.block)) x.argv := by
    rw [execv_stackPointer, toNat_sub_ofNat (by omega), htop]
  refine ⟨(execv processWrapper true (stackTop (some x.block)) x.argv).stackPointer, ?_, ?_,
    fun before => ?_⟩
  · rw [Machine.kernel_after]
    exact hsp.trans hspawn.frame
  · rw [Machine.stack_newborn hb]
    constructor
    · show x.block.start ≤ BitVec.toNat _
      omega
    · show BitVec.toNat _ + 160 ≤ x.block.start + stackSize
      omega
  · rw [Machine.after, if_pos ht, Machine.ran]
    dsimp only
    rw [if_pos hb]
    exact restoreState_execv (hroom.trans (by omega)) before

namespace Kept

variable (h : Kept ctx m) (hd : Disciplined processWrapper m x) (ha : Advances m x k)

include h hd ha

/-- The registers of a process that does not have the processor, or has had to give it up, are on
    its stack. -/
theorem saved (hp : (m.after processWrapper x k).Alive p)
    (hlost : k.currentProcess ≠ some p ∨ k.ticks ≠ m.kernel.ticks) :
    Saved (m.after processWrapper x k) p (x.contexts processWrapper m ctx p) := by
  have hs : (k.procs p).status ≠ .zombie := by
    have hlive := hp.2
    rwa [Machine.kernel_after] at hlive
  rcases ha.alive_cases hp with hold | ⟨hb, rfl⟩
  · unfold Slice.contexts
    split
    · rename_i hc
      exact ha.interrupted hd hold.1 hc hs hlost
    · rename_i hc
      rw [if_neg (Nat.ne_of_lt hold.1)]
      exact h.still hd ha ⟨hold, hc⟩
  · have hc : m.kernel.currentProcess ≠ some m.kernel.nextProc := fun hc =>
      absurd (h.final.current _ hc).1 (Nat.lt_irrefl _)
    rw [Slice.contexts, if_neg hc, if_pos rfl]
    exact ha.onFirstFrame hd hb

/-- Whoever has the processor has its own registers in it. -/
theorem regs_after (hc : k.currentProcess = some c) :
    (m.after processWrapper x k).regs = x.contexts processWrapper m ctx c := by
  by_cases ht : k.ticks = m.kernel.ticks
  · rw [Machine.after, if_pos ht, Slice.contexts, if_pos (ha.current_of_ticks ht hc)]
    rfl
  · have halive : (m.after processWrapper x k).Alive c := by
      unfold Machine.Alive
      rw [Machine.kernel_after]
      exact ha.final.current c hc
    -- the frame that is restored is the one that the stack pointer of `c` leads to
    obtain ⟨sp, hlead, -, hregs⟩ := h.saved hd ha halive (.inr ht)
    rw [Machine.kernel_after, ← ha.rsp_of_ticks ht hc] at hlead
    have hrestored := hregs x.regs
    rw [Machine.after, if_neg ht] at hrestored ⊢
    show restoreState _ (BitVec.ofNat 64 k.rsp) x.regs = _
    rw [hlead, BitVec.ofNat_toNat, BitVec.setWidth_eq]
    exact hrestored

/-- The stacks are where they were, and the stack of a new process is apart from them. -/
theorem stacks_after (hp : (m.after processWrapper x k).Alive p) :
    ((m.after processWrapper x k).stack p).hi < 2 ^ 64 ∧
      ∀ q, (m.after processWrapper x k).Alive q → p ≠ q →
        ((m.after processWrapper x k).stack p).Apart ((m.after processWrapper x k).stack q) := by
  rcases ha.alive_cases hp with hold | ⟨hb, rfl⟩
  · rw [Machine.stack_after hold.1]
    refine ⟨h.space p hold, fun q hq hne => ?_⟩
    rcases ha.alive_cases hq with hq | ⟨hb, rfl⟩
    · rw [Machine.stack_after hq.1]
      exact h.apart p q hold hq hne
    · obtain ⟨a, he⟩ := ha.bears hb
      rw [Machine.stack_newborn hb]
      exact (hd.spawn a (congrArg Event.spawnArgs he)).apart p hold
  · rw [Machine.stack_newborn hb]
    refine ⟨x.block.inSpace, fun q hq hne => ?_⟩
    rcases ha.alive_cases hq with hq | ⟨-, rfl⟩
    · obtain ⟨a, he⟩ := ha.bears hb
      rw [Machine.stack_after hq.1]
      exact ((hd.spawn a (congrArg Event.spawnArgs he)).apart q hq).symm
    · exact absurd rfl hne

end Kept

/-- **One slice.** -/
theorem Kept.step (h : Kept ctx m) (hd : Disciplined processWrapper m x)
    (hs : m.step processWrapper x = some (m', o)) :
    Kept (x.contexts processWrapper m ctx) m' := by
  obtain ⟨k, hk, rfl⟩ := Machine.step_eq_some hs
  have ha := h.advances hd hk
  refine ⟨?_, ?_, ?_, fun c hc => ?_, fun p hp => ?_, fun p hp => (h.stacks_after hd ha hp).1,
    fun p q hp hq hne => (h.stacks_after hd ha hp).2 q hq hne⟩
  · rw [Machine.kernel_after]
    exact ha.final
  · rw [Machine.kernel_after]
    exact ha.heap
  · rw [Machine.kernel_after]
    exact ha.alone
  · rw [Machine.kernel_after] at hc
    exact h.regs_after hd ha hc
  · have hlost := hp.2
    rw [Machine.kernel_after] at hlost
    exact h.saved hd ha hp.1 (.inl hlost)

theorem Kept.boot (regs : Registers) (mem : Memory) : Kept ctx (Machine.boot regs mem) where
  final := .boot _
  heap := fun _ => rfl
  alone := .boot _
  current c hc := by cases hc
  parked := fun _ hp => absurd hp.1.1 (Nat.not_lt_zero _)
  space := fun _ hp => absurd hp.1 (Nat.not_lt_zero _)
  apart := fun _ _ hp => absurd hp.1 (Nat.not_lt_zero _)

theorem kept_run {mem : Memory} {tr : List (Machine × Slice × Option Completion)}
    (h : Trace (Machine.step processWrapper) (Disciplined processWrapper) (.boot regs mem) tr m) :
    Kept (contexts processWrapper tr) m := by
  refine h.invariant_history (fun tr m => Kept (contexts processWrapper tr) m) (.boot regs mem) ?_
  intro tr m x m' o _ hI hd hs
  rw [contexts_snoc]
  exact hI.step hd hs

/-- Registers that differ in `rbx` and `rsp` alone. -/
def someRegs (rbx rsp : BitVec 64) : Registers
  | .rbx => rbx
  | .rsp => rsp
  | _ => 0

/-- The stacks of two processes. -/
def blockA : StackBlock := ⟨0x700000, by decide⟩
def blockB : StackBlock := ⟨0x702000, by decide⟩

/-- A slice without writes. -/
def plainSlice (event : Event) (regs : Registers) (block : StackBlock) : Slice :=
  { event, regs, block, argv := ⟨[], by decide⟩ }

/-- Two processes are made without arguments and the timer ticks: the first runs until its quantum
    is over, then the second, then the first again. -/
def twoProcesses : List Slice :=
  let spawn (b : StackBlock) : Slice := plainSlice
    (.sysSpawn { entry := some 0, fds := none, background := true, stackTop := b.start + stackSize,
                 frame := b.start + stackSize - 184 }) (someRegs 0 0x500000) b
  let tick (rbx rsp : BitVec 64) : Slice := plainSlice .timer (someRegs rbx rsp) blockA
  [spawn blockA, spawn blockB, tick 0 0x500000, tick 1 0x701F00, tick 7 0x701E00, tick 2 0x703F00,
    tick 3 0x703E00]

/-- The condition of the run, where nobody is killed. -/
abbrev CalmSlice (m : Machine) (x : Slice) : Prop :=
  RespectsStacks 0x400000 m x ∧ killTarget m.kernel x.event = none

end TpeSo.Exec
