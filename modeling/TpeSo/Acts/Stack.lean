import TpeSo.Acts.Store

namespace TpeSo

open Ds Lib

/-!
# Acts — the kernel stacks

`Micro.kstack` — an edit leaves work on a kernel stack only when the current process is
about to leave the processor; what it leaves fits the queue it has been linked into.
-/

variable {φ ψ : Phase} {k k' : Kernel}

@[simp] theorem kstack_procReady (k : Kernel) (o : Option ProcId) :
    (procReady k o).kstack = k.kstack := by
  cases o <;> rfl

@[simp] theorem kstack_popWaiter (k : Kernel) (w : WaitRef) :
    (popWaiter k w).kstack = k.kstack := by
  cases w <;> rfl

@[simp] theorem kstack_linkWaiter (k : Kernel) (w : WaitRef) (c : ProcId) :
    (linkWaiter k w c).kstack = k.kstack := by
  cases w <;> rfl

@[simp] theorem kstack_addRef (k : Kernel) (ops : FileOps) (pp : PipeId) :
    (addRef k ops pp).kstack = k.kstack := by
  cases ops <;> rfl

@[simp] theorem kstack_subRef (k : Kernel) (ops : FileOps) (pp : PipeId) :
    (subRef k ops pp).kstack = k.kstack := by
  cases ops <;> rfl

@[simp] theorem kstack_fdAddRef (k : Kernel) (e : FdEntry) :
    (fdAddRef k e).kstack = k.kstack := by
  unfold fdAddRef
  split <;> rfl

@[simp] theorem kstack_bury (k : Kernel) (p : ProcId) (code : Int) :
    (bury k p code).kstack = k.kstack := by
  show (unlinkWaiting (rmCurrent k p) p).kstack = k.kstack
  have hrm : (rmCurrent k p).kstack = k.kstack := by
    unfold rmCurrent
    split <;> rfl
  rw [← hrm]
  unfold unlinkWaiting
  split <;> rfl

/-- What `suspend` notes is the work of the current process. -/
theorem kstack_suspend {w v : Pending} {p : ProcId} (h : (k.suspend w).kstack p = some v) :
    k.kstack p = some v ∨ (k.currentProcess = some p ∧ v = w) := by
  unfold Kernel.suspend at h
  split at h
  · exact .inl h
  · rename_i c hc
    by_cases hp : p = c
    · subst hp
      simp only [Function.update_self, Option.some.injEq] at h
      exact .inr ⟨hc, h.symm⟩
    · simp only [Function.update_of_ne hp] at h
      exact .inl h

/-- What is on the kernel stack of `p` was there before, or is left there by an edit that
    takes `p` off the processor. -/
theorem Micro.kstack {a : Act} (h : Micro φ k a ψ k') {p : ProcId} {v : Pending}
    (hv : k'.kstack p = some v) :
    k.kstack p = some v ∨ (k.currentProcess = some p ∧
      (v.plain ∨ ∃ reason w, a = .blockSelf p w v ∧ BlocksOn reason w v)) := by
  cases h with
  | quiet hq =>
    rw [hq.kstack] at hv
    exact .inl hv
  | suspend hw =>
    rcases kstack_suspend hv with hv | ⟨hcur, rfl⟩
    · exact .inl hv
    · exact .inr ⟨hcur, .inl hw⟩
  | @finish _ c =>
    left
    by_cases hp : p = c
    · subst hp
      simp at hv
    · simpa [hp] using hv
  | @blockSelf _ c w reason pend hc hw =>
    change ((linkWaiter k w c).suspend pend).kstack p = some v at hv
    rcases kstack_suspend hv with hv | ⟨hcur, rfl⟩
    · rw [kstack_linkWaiter] at hv
      exact .inl hv
    · have hcp : c = p := by
        rw [show (linkWaiter k w c).currentProcess = k.currentProcess by cases w <;> rfl, hc] at hcur
        exact Option.some.inj hcur
      subst hcp
      exact .inr ⟨hc, .inr ⟨reason, w, rfl, hw⟩⟩
  | @blockSleep _ c t hc =>
    change ((linkSleeper k c t).suspend .sleep).kstack p = some v at hv
    rcases kstack_suspend hv with hv | ⟨hcur, rfl⟩
    · exact .inl hv
    · exact .inr ⟨hcur, .inl trivial⟩
  | wake => simp only [kstack_procReady, kstack_popWaiter] at hv; exact .inl hv
  | semInc => exact .inl hv
  | kill => simp only [kstack_bury] at hv; exact .inl hv
  | inherit =>
    change (fdAddRef k _).kstack p = some v at hv
    rw [kstack_fdAddRef] at hv
    exact .inl hv
  | openRef => rw [kstack_addRef] at hv; exact .inl hv
  | dropRef => rw [kstack_subRef] at hv; exact .inl hv
  | _ => exact .inl hv

end TpeSo
