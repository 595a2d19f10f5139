import TpeSo.Kernel.Syscall

namespace TpeSo

open Ds Lib

/-!
# Acts — which results an entry may show

`Event.completes` and `Pending.completes` say of which kind the result of an entry, or of a
system call that goes on, can be; `step_completes` reads them off a step.
-/

variable {k k' : Kernel}

/-- The results of an entry from user mode that returns in the same step. -/
def Event.completes : Event → Completion → Prop
  | .sysRead _ _ _, .pipeRead _ _ => True
  | .sysRead _ _ _, .keyboardRead _ _ => True
  | .sysWrite _ _, .pipeWrite _ _ _ => True
  | .sysWaitPid _, .waitPid _ _ => True
  | .sysWait, .waitPid _ _ => True
  | .sysSemPost id, .semPost id' _ => id' = id
  | .sysSemWait id, .semWait id' _ => id' = id
  | .sysSemTrywait id, .semTrywait id' _ => id' = id
  | _, .other _ => True
  | _, _ => False

/-- The results of a system call that goes on. -/
def Pending.completes : Pending → Completion → Prop
  | .pipeRead pp _, .pipeRead pp' _ => pp' = pp
  | .pipeWrite pp _, .pipeWrite pp' _ _ => pp' = pp
  | .waitPid _, .waitPid _ _ => True
  | .readLine _ _, .keyboardRead _ _ => True
  | .semWait id, .semWait id' ret => id' = id ∧ ret = 0
  | .yield, .other _ => True
  | .sleep, .other _ => True
  | .block, .other _ => True
  | _, _ => False

/-- If `x` comes back with a result, it satisfies `Q`. -/
def Ends (x : Outcome StepResult) (Q : Completion → Prop) : Prop :=
  x.Ensures fun r => ∀ c ∈ r.2, Q c

namespace Ends

variable {Q : Completion → Prop} {α : Type}

theorem done {ret : Int} (h : Q (.other ret)) : Ends (TpeSo.done k ret) Q := by
  refine .ok ?_
  rintro c ⟨⟩
  exact h

theorem bind {x : Outcome α} {f : α → Outcome StepResult} (h : ∀ a, Ends (f a) Q) :
    Ends (x >>= f) Q :=
  Outcome.Ensures.bind (fun _ _ => trivial) fun a (_ : True) => h a

/-- The common end: a result that is still missing, or of one kind. -/
theorem map {o : Option α} {g : α → Completion} (h : ∀ a, Q (g a)) :
    Ends (.ok (k, o.map g)) Q := by
  refine .ok ?_
  intro c hc
  obtain ⟨a, -, rfl⟩ := Option.map_eq_some_iff.mp hc
  exact h a

theorem some {c : Completion} (h : Q c) : Ends (.ok (k, Option.some c)) Q := by
  refine .ok ?_
  rintro d ⟨⟩
  exact h

theorem none : Ends (.ok (k, Option.none)) Q := .ok fun _ hc => nomatch hc

theorem ite {p : Prop} [Decidable p] {x y : Outcome StepResult} (hx : Ends x Q) (hy : Ends y Q) :
    Ends (if p then x else y) Q := by
  split
  · exact hx
  · exact hy

end Ends

theorem fdRead_ends (k : Kernel) (c : ProcId) (d : FdEntry) (count : Nat) (buf0 : UInt8) (fd : Int) :
    Ends (fdRead k c d count buf0) (Event.sysRead fd count buf0).completes := by
  unfold fdRead
  split
  · exact .bind fun r => .map fun _ => trivial
  · exact Outcome.Ensures.fault
  · exact .bind fun r => .map fun _ => trivial
  · exact .done trivial

theorem fdWrite_ends (k : Kernel) (c : ProcId) (d : FdEntry) (buf : List UInt8) (fd : Int) :
    Ends (fdWrite k c d buf) (Event.sysWrite fd buf).completes := by
  unfold fdWrite
  split
  · exact .bind fun r => .map fun _ => trivial
  · exact Outcome.Ensures.fault
  · exact .done trivial
  · exact .done trivial
  · exact .done trivial

theorem withFd_ends {fd : Int} {f : ProcId → FdEntry → Outcome StepResult} {Q : Completion → Prop}
    (hf : ∀ c d, Ends (f c d) Q) (hother : ∀ ret, Q (.other ret)) : Ends (withFd k fd f) Q := by
  unfold withFd
  split
  · split
    · exact .done (hother _)
    · exact hf _ _
  · exact .done (hother _)

theorem enter_ends (k : Kernel) (e : Event) : Ends (enter k e) e.completes := by
  cases e with
  | timer => exact .bind fun _ => .none
  | key sc => exact .bind fun _ => .none
  | user rsp => exact .none
  | resume => exact Outcome.Ensures.fault
  | sysRead fd count buf0 =>
    exact withFd_ends (fun c d => fdRead_ends k c d count buf0 fd) fun _ => trivial
  | sysWrite fd buf => exact withFd_ends (fun c d => fdWrite_ends k c d buf fd) fun _ => trivial
  | sysSleep s => exact .bind fun _ => .none
  | sysUsleep us => exact .ite (.done trivial) (.bind fun _ => .none)
  | sysPipeCreate id junk =>
    simp only [enter, sysPipeCreate]
    split
    · exact .done trivial
    · exact .done trivial
  | sysPipeOpen id junk mode =>
    refine .ite (.done trivial) ?_
    split
    · exact .done trivial
    · split
      · exact .done trivial
      · exact .ite (.done trivial) (.done trivial)
  | sysPipeClose id =>
    simp only [enter, sysPipeClose]
    split
    · exact .done trivial
    · exact .done trivial
  | sysSpawn a => exact .bind fun _ => .done trivial
  | sysKillProc pid =>
    refine .ite (.done trivial) (.bind fun o => ?_)
    split
    · exact .done trivial
    · exact .bind fun _ => .done trivial
  | sysChangePriority pid prio => exact .bind fun _ => .done trivial
  | sysExit code => exact .bind fun _ => .bind fun _ => .none
  | sysBlock pid => exact .bind fun _ => .map fun _ => trivial
  | sysUnblock pid => exact .bind fun _ => .done trivial
  | sysCloseFd fd =>
    simp only [enter, sysCloseFd]
    split
    · exact .done trivial
    · split
      · exact .done trivial
      · exact .done trivial
  | sysWaitPid pid => exact .bind fun _ => .map fun _ => trivial
  | sysWait => exact .bind fun _ => .map fun _ => trivial
  | sysYield => exact .bind fun _ => .none
  | sysSetCanonical b => exact .done trivial
  | sysCreateSem id v => exact .done trivial
  | sysCloseSem id => exact .done trivial
  | sysSemPost id => exact .bind fun _ => .some rfl
  | sysSemWait id => exact .bind fun _ => .map fun _ => rfl
  | sysSemTrywait id => exact .bind fun _ => .some rfl

theorem resume_ends (k : Kernel) (c : ProcId) (w : Pending) :
    Ends (resume k c w) w.completes := by
  cases w with
  | yield => exact .done trivial
  | sleep => exact .done trivial
  | block => exact .done trivial
  | exit => exact Outcome.Ensures.hang
  | semWait id => exact .some ⟨rfl, rfl⟩
  | pipeRead pp size => exact .bind fun _ => .map fun _ => rfl
  | pipeWrite pp buf => exact .bind fun _ => .map fun _ => rfl
  | waitPid pid => exact .bind fun _ => .map fun _ => trivial
  | readLine count buf0 => exact .bind fun _ => .map fun _ => trivial

/-- A step is an entry from user mode, or goes on with a suspended system call. -/
theorem step_eq_some {e : Event} {r : StepResult} (h : step k e = some r) :
    (e ≠ .resume ∧ k.inKernel = false ∧ enter k e = .ok r) ∨
      (e = .resume ∧ ∃ c w, k.currentProcess = some c ∧ k.kstack c = some w ∧
        resume k c w = .ok r) := by
  by_cases he : e = .resume
  · subst he
    simp only [step] at h
    split at h
    · cases h
    · rename_i c hc
      split at h
      · cases h
      · rename_i w hw
        exact .inr ⟨rfl, c, w, hc, hw, Outcome.toOption_eq_some.mp h⟩
  · have h' : (if k.inKernel then none else (enter k e).toOption) = some r := by
      cases e <;> first | exact h | exact absurd rfl he
    split at h'
    · cases h'
    · rename_i hk
      exact .inl ⟨he, by simpa using hk, Outcome.toOption_eq_some.mp h'⟩

end TpeSo
