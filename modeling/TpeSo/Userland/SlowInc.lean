import Mathlib.Algebra.BigOperators.Group.Finset.Basic
import Mathlib.Data.BitVec
import TpeSo.Sems.Exits

namespace TpeSo

open Ds Lib

/-!
# `tests/test_sync.c` — processes that count in a shared variable

Some processes run the loop of `my_process_inc` with semaphores: they wait for the semaphore,
read `global`, yield, add to what they have read, write it back, and post.  The timer may
interrupt them between any two of these steps, and anybody else may run in between.

* `Line`, `Locals` — where a process is in its loop, and its variables;
* `Workload` — which processes these are, how often they count and what they add;
* `Workload.next` — one step: an entry into the kernel, or one statement of the program;
* `Workload.next_cases` — everything a step can do.
-/

/-- Where a process is in the loop of `my_process_inc`. -/
inductive Line where
  /-- At the head of the loop: `my_sem_wait` is next, or the loop is over. -/
  | wait
  /-- Inside `my_sem_wait`. -/
  | waiting
  /-- `aux = *p`. -/
  | read
  /-- `yield()`. -/
  | yield
  /-- Inside `yield`. -/
  | yielding
  /-- `aux += inc`. -/
  | add
  /-- `*p = aux`. -/
  | write
  /-- `my_sem_post`. -/
  | post
  deriving DecidableEq, Repr

/-- The variables of `my_process_inc` and `slowInc`. -/
structure Locals where
  i : Nat := 0
  aux : BitVec 64 := 0
  line : Line := .wait

/-- The processes that count, with the arguments of `my_process_inc`. -/
structure Workload where
  procs : Finset ProcId
  n : ProcId → Nat
  inc : ProcId → BitVec 64
  /-- `SEM_ID`. -/
  sem : Nat

/-- The kernel, the variable `global`, and the variables of each process. -/
structure UserState where
  kernel : Kernel
  global : BitVec 64
  locals : ProcId → Locals

/-- A step of the system. -/
inductive Move where
  /-- An entry into the kernel. -/
  | entry (e : Event)
  /-- The running process executes one statement of its program. -/
  | compute

namespace Locals

/-- The statements of `slowInc` that the kernel does not see. -/
def compute (t : Locals) (inc global : BitVec 64) : Option (Locals × BitVec 64) :=
  match t.line with
  | .read => some ({ t with aux := global, line := .yield }, global)
  | .add => some ({ t with aux := t.aux + inc, line := .write }, global)
  | .write => some ({ t with line := .post }, t.aux)
  | _ => none

/-- Where the process is after the entry `e`, which has shown `o`.  The results of the system
    calls are not looked at. -/
def advance (t : Locals) (e : Event) (o : Option Completion) : Locals :=
  match t.line, e with
  | .wait, .sysSemWait _ => { t with line := if o.isSome then .read else .waiting }
  | .waiting, .resume => { t with line := if o.isSome then .read else .waiting }
  | .yield, .sysYield => { t with line := if o.isSome then .add else .yielding }
  | .yielding, .resume => { t with line := if o.isSome then .add else .yielding }
  | .post, .sysSemPost _ => { t with i := t.i + 1, line := .wait }
  | _, _ => t

end Locals

namespace Workload

variable (w : Workload)

/-- The entries a counting process can make: the calls its program makes next, `sys_exit` at
    its end, and what happens to it. -/
def Calls (c : ProcId) (t : Locals) : Event → Prop
  | .timer | .key _ | .user _ | .resume => True
  | .sysSemWait id => t.line = .wait ∧ t.i < w.n c ∧ id = w.sem
  | .sysExit _ => t.line = .wait ∧ w.n c ≤ t.i
  | .sysYield => t.line = .yield
  | .sysSemPost id => t.line = .post ∧ id = w.sem
  | _ => False

instance (c : ProcId) (t : Locals) : DecidablePred (w.Calls c t) := fun e => by
  rcases e with ⟨⟩ <;> dsimp only [Calls] <;> infer_instance

/-- The running process, if it is one of those that count. -/
def running (s : UserState) : Option ProcId :=
  s.kernel.currentProcess.filter fun c => c ∈ w.procs

/-- **One step of the system.**  Processes that do not count make what entries they like. -/
def next (s : UserState) : Move → Option (UserState × Option Completion)
  | .entry e =>
    match w.running s with
    | none => (step s.kernel e).map fun r => ({ s with kernel := r.1 }, r.2)
    | some c =>
      if w.Calls c (s.locals c) e then
        (step s.kernel e).map fun r =>
          ({ s with
              kernel := r.1
              locals := Function.update s.locals c ((s.locals c).advance e r.2) }, r.2)
      else none
  | .compute =>
    match w.running s with
    | none => none
    | some c =>
      if s.kernel.inKernel then none
      else ((s.locals c).compute (w.inc c) s.global).map fun r =>
        ({ s with global := r.2, locals := Function.update s.locals c r.1 }, none)

/-- Nobody is killed or unblocked, and only the processes that count use the semaphore. -/
def Ok (s : UserState) : Move → Prop
  | .entry e => SparesOthers s.kernel e ∧ (w.running s = none → e.offSem w.sem)
  | .compute => True

/-- A run of the system from `s`. -/
abbrev Run (s : UserState) (tr : List (UserState × Move × Option Completion)) (t : UserState) :
    Prop :=
  Trace w.next w.Ok s tr t

/-- The loop of `p` is over. -/
def Finished (s : UserState) (p : ProcId) : Prop :=
  (s.locals p).line = .wait ∧ w.n p ≤ (s.locals p).i

instance (id : Nat) : DecidablePred (Event.offSem id) := fun e => by
  rcases e with ⟨⟩ <;> dsimp only [Event.offSem] <;> infer_instance

instance (s : UserState) (m : Move) : Decidable (w.Ok s m) := by
  unfold Ok
  split <;> infer_instance

instance (s : UserState) (p : ProcId) : Decidable (w.Finished s p) :=
  inferInstanceAs (Decidable (_ ∧ _))

variable {w} {s s' : UserState} {m : Move} {e : Event} {o : Option Completion} {c : ProcId}

theorem running_eq_some : w.running s = some c ↔ s.kernel.currentProcess = some c ∧ c ∈ w.procs := by
  unfold running
  rw [Option.filter_eq_some_iff, decide_eq_true_eq]

/-- **Everything a step can do**: an entry of a process that does not count, an entry of one
    that does, or one statement of its program. -/
inductive Step (w : Workload) (s : UserState) (o : Option Completion) (s' : UserState) :
    Move → Prop where
  | other {e : Event} (hs : step s.kernel e = some (s'.kernel, o)) (hoff : e.offSem w.sem)
      (hg : s'.global = s.global) (hl : s'.locals = s.locals) : Step w s o s' (.entry e)
  | call {e : Event} {c : ProcId} (hs : step s.kernel e = some (s'.kernel, o))
      (hc : s.kernel.currentProcess = some c) (hmem : c ∈ w.procs)
      (hcall : w.Calls c (s.locals c) e) (hg : s'.global = s.global)
      (hl : s'.locals = Function.update s.locals c ((s.locals c).advance e o)) :
      Step w s o s' (.entry e)
  | compute {c : ProcId} {t : Locals} (hmem : c ∈ w.procs) (hk : s'.kernel = s.kernel)
      (ht : (s.locals c).compute (w.inc c) s.global = some (t, s'.global))
      (hl : s'.locals = Function.update s.locals c t) : Step w s o s' .compute

/-- What every entry has in common. -/
theorem Step.of_entry (h : Step w s o s' (.entry e)) : step s.kernel e = some (s'.kernel, o) ∧
    SemStep w.sem s.kernel e ∧ s'.global = s.global ∧
    ∀ p, s'.locals p = s.locals p ∨
      (w.Calls p (s.locals p) e ∧ s'.locals p = (s.locals p).advance e o) := by
  cases h with
  | other hs hoff hg hl =>
    refine ⟨hs, ?_, hg, fun p => .inl (by rw [hl])⟩
    cases e <;> first | trivial | exact hoff | exact fun hid => absurd hid hoff
  | @call _ c hs hc hmem hcall hg hl =>
    refine ⟨hs, ?_, hg, fun p => ?_⟩
    · cases e <;> first | trivial | exact hcall.elim | (rintro -; rw [hc]; nofun)
    · by_cases hpc : p = c
      · subst hpc
        exact .inr ⟨hcall, by rw [hl, Function.update_self]⟩
      · exact .inl (by rw [hl, Function.update_of_ne hpc])

theorem next_cases (hok : w.Ok s m) (h : w.next s m = some (s', o)) : Step w s o s' m := by
  cases m with
  | entry e =>
    unfold next at h
    dsimp only at h
    split at h
    · rename_i hnone
      obtain ⟨r, hs, hr⟩ := Option.map_eq_some_iff.mp h
      cases hr
      exact .other hs (hok.2 hnone) rfl rfl
    · rename_i c hc
      obtain ⟨hcur, hmem⟩ := running_eq_some.mp hc
      split at h
      · rename_i hcall
        obtain ⟨r, hs, hr⟩ := Option.map_eq_some_iff.mp h
        cases hr
        exact .call hs hcur hmem hcall rfl rfl
      · cases h
  | compute =>
    unfold next at h
    dsimp only at h
    split at h
    · cases h
    · rename_i c hc
      obtain ⟨-, hmem⟩ := running_eq_some.mp hc
      split at h
      · cases h
      · obtain ⟨r, hr, he⟩ := Option.map_eq_some_iff.mp h
        cases he
        exact .compute hmem rfl hr rfl

end Workload

end TpeSo
