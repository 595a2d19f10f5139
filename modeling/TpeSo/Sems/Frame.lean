import TpeSo.Acts.Entries

namespace TpeSo

open Ds Lib

/-!
# Semaphores — what each call does to the table

* `Act.offSem`, `Micro.sem_watched`, `step_offSem` — everything but the calls on semaphore
  `id` leaves its value and its queue alone;
* `mySemPost_hand`, `mySemPost_raise`, `mySemWait_take`, `mySemWait_call`, `mySemTrywait_take`,
  ... — the calls on an open semaphore, one lemma for each branch.
-/

variable {φ ψ : Phase} {k k' : Kernel} {e : Event} {o : Option Completion} {id : Nat}

/-! ### Other edits -/

@[simp] theorem semaphores_procReady (k : Kernel) (o : Option ProcId) :
    (procReady k o).semaphores = k.semaphores := by
  cases o <;> rfl

@[simp] theorem semaphores_suspend (k : Kernel) (w : Pending) :
    (k.suspend w).semaphores = k.semaphores := by
  unfold Kernel.suspend
  split <;> rfl

@[simp] theorem semaphores_setSem_ne {f : Semaphore → Semaphore} {i j : Nat} (h : i ≠ j) :
    (k.setSem j f).semaphores i = k.semaphores i := by
  simp [Kernel.setSem, h]

@[simp] theorem semaphores_setSem_self (k : Kernel) (f : Semaphore → Semaphore) (i : Nat) :
    (k.setSem i f).semaphores i = f (k.semaphores i) := by
  simp [Kernel.setSem]

@[simp] theorem semaphores_leave (k : Kernel) (c : ProcId) (r : BlockReason) (w : WaitRef)
    (pend : Pending) : (leave k c r w pend).semaphores = k.semaphores :=
  semaphores_suspend k pend

@[simp] theorem semaphores_addRef (k : Kernel) (ops : FileOps) (pp : PipeId) :
    (addRef k ops pp).semaphores = k.semaphores := by
  cases ops <;> rfl

@[simp] theorem semaphores_subRef (k : Kernel) (ops : FileOps) (pp : PipeId) :
    (subRef k ops pp).semaphores = k.semaphores := by
  cases ops <;> rfl

@[simp] theorem semaphores_fdAddRef (k : Kernel) (d : FdEntry) :
    (fdAddRef k d).semaphores = k.semaphores := by
  unfold fdAddRef
  split <;> rfl

/-- `proc_kill` leaves a dead waiter in the queue of its semaphore. -/
@[simp] theorem semaphores_bury (k : Kernel) (p : ProcId) (code : Int) :
    (bury k p code).semaphores = k.semaphores := by
  show (unlinkWaiting (rmCurrent k p) p).semaphores = k.semaphores
  have hrm : (rmCurrent k p).semaphores = k.semaphores := by
    unfold rmCurrent
    split <;> rfl
  rw [← hrm]
  unfold unlinkWaiting
  split <;> rfl

theorem semaphores_linkWaiter {w : WaitRef} (h : w ≠ .semaphore id) (c : ProcId) :
    (linkWaiter k w c).semaphores id = k.semaphores id := by
  cases w with
  | semaphore i =>
    have hi : id ≠ i := fun he => h (congrArg WaitRef.semaphore he.symm)
    simp [linkWaiter, hi, Kernel.alloc]
  | _ => rfl

theorem semaphores_popWaiter {w : WaitRef} (h : w ≠ .semaphore id) :
    (popWaiter k w).semaphores id = k.semaphores id := by
  cases w with
  | semaphore i =>
    have hi : id ≠ i := fun he => h (congrArg WaitRef.semaphore he.symm)
    simp [popWaiter, hi]
  | _ => rfl

/-- The edit does not concern semaphore `id`. -/
def Act.offSem (id : Nat) : Act → Prop
  | .blockSelf _ w _ | .wake w _ => w ≠ .semaphore id
  | .semCreate i _ | .semDestroy i | .semTake i | .semInc i | .semLinkNull i => i ≠ id
  | _ => True

theorem Routine.offSem (id : Nat) : Routine fun _ a => a.offSem id := by
  intro k a ha
  cases a with
  | blockSelf c w pend =>
    rintro rfl
    exact ha
  | wake w p =>
    rintro rfl
    exact ha
  | semCreate | semDestroy | semTake | semInc | semLinkNull => exact ha.elim
  | _ => trivial

/-- **Such an edit leaves the value and the queue of `id` alone.** -/
theorem Micro.sem_watched {a : Act} (h : Micro φ k a ψ k') (ha : a.offSem id) :
    (k'.semaphores id).watched = (k.semaphores id).watched := by
  cases h with
  | quiet hq => exact hq.sem id
  | suspend => rw [semaphores_suspend]
  | blockSelf => rw [semaphores_leave, semaphores_linkWaiter ha]
  | blockSleep =>
    rw [semaphores_leave]
    rfl
  | wake => rw [semaphores_procReady, semaphores_popWaiter ha]
  | semCreate => rw [semaphores_setSem_ne (Ne.symm ha)]
  | semDestroy => rw [semaphores_setSem_ne (Ne.symm ha)]
  | semTake => rw [semaphores_setSem_ne (Ne.symm ha)]
  | semInc =>
    rw [semaphores_setSem_ne (Ne.symm ha), semaphores_popWaiter]
    rintro ⟨⟩
    exact ha rfl
  | semLinkNull =>
    rw [semaphores_setSem_ne (Ne.symm ha)]
    rfl
  | kill p code => rw [semaphores_bury]
  | inherit => exact congrArg (fun s => (s id).watched) (semaphores_fdAddRef k _)
  | openRef =>
    rw [semaphores_addRef]
    rfl
  | dropRef =>
    rw [semaphores_subRef]
    rfl
  | _ => rfl

theorem Does.sem_watched {C : Kernel → Act → Prop} (hC : ∀ k a, C k a → a.offSem id)
    (h : Does C (φ, k) (ψ, k')) : (k'.semaphores id).watched = (k.semaphores id).watched :=
  h.invariant (fun _ k₁ => (k₁.semaphores id).watched = (k.semaphores id).watched)
    (fun _ _ _ _ _ heq ha hm => (hm.sem_watched (hC _ _ ha)).trans heq) rfl

/-- What `block_current` does to a process that has been linked is no call on `id`. -/
theorem blockCurrent_sem_watched {c : ProcId} {reason : BlockReason} {w : WaitRef}
    {pend : Pending} (hc : k.currentProcess = some c)
    (h : blockCurrent (k.suspend pend) reason w = .ok k') :
    (k'.semaphores id).watched = (k.semaphores id).watched := by
  simp only [blockCurrent, suspend_currentProcess, hc] at h
  have hdoes := does_leave (Routine.offSem id).common ((Routine.offSem id).preempts _) hc h
  have hleave := hdoes.sem_watched fun _ _ ha => ha
  rwa [semaphores_leave] at hleave

/-- The entry is no call on semaphore `id`. -/
def Event.offSem (id : Nat) : Event → Prop
  | .sysCreateSem i _ | .sysCloseSem i | .sysSemPost i | .sysSemWait i | .sysSemTrywait i => i ≠ id
  | _ => True

/-- **Every other entry leaves the value and the queue of `id` alone.** -/
theorem step_offSem (hs : step k e = some (k', o)) (he : e.offSem id) :
    (k'.semaphores id).watched = (k.semaphores id).watched := by
  refine (step_does hs).sem_watched fun k₁ a ha => ?_
  cases a with
  | blockSelf c w pend =>
    rintro rfl
    cases ha
    exact he rfl
  | wake w p =>
    rintro rfl
    cases ha
    exact he rfl
  | semCreate | semDestroy | semInc | semLinkNull =>
    cases ha
    exact he
  | semTake i => rcases ha with rfl | rfl <;> exact he
  | _ => trivial

/-! ### The calls on an open semaphore -/

section Calls

variable (hopen : semIsOpen k id = true)

include hopen

/-- A post that finds a waiter hands it the token. -/
theorem mySemPost_hand {r : Kernel × Int} {p : ProcId}
    (hq : firstWaiter k (.semaphore id) = some p) (h : mySemPost k id = .ok r) :
    r.2 = 0 ∧ (r.1.semaphores id).watched =
      ((k.semaphores id).value, (k.semaphores id).inUse, (k.semaphores id).waitingQueue.tail) := by
  simp only [mySemPost, if_pos hopen] at h
  obtain ⟨k₁, hacq, h⟩ := Outcome.bind_eq_ok.mp h
  have hsem := (Quiet.acquireSem hacq).toCalm
  simp only [hsem.semQueue id, dequeue, show (k.semaphores id).waitingQueue.head?.join = some p
    from hq] at h
  cases h
  refine ⟨rfl, ?_⟩
  rw [semaphores_procReady]
  simp [releaseSem, Semaphore.watched, hsem.semValue id, hsem.semInUse id]

/-- A post that finds nobody waiting raises the value. -/
theorem mySemPost_raise {r : Kernel × Int} (hq : firstWaiter k (.semaphore id) = none)
    (h : mySemPost k id = .ok r) :
    r.2 = 0 ∧ (r.1.semaphores id).watched = (((k.semaphores id).value + 1) % word,
      (k.semaphores id).inUse, (k.semaphores id).waitingQueue.tail) := by
  simp only [mySemPost, if_pos hopen] at h
  obtain ⟨k₁, hacq, h⟩ := Outcome.bind_eq_ok.mp h
  have hsem := (Quiet.acquireSem hacq).toCalm
  simp only [hsem.semQueue id, dequeue, show (k.semaphores id).waitingQueue.head?.join = none
    from hq] at h
  cases h
  refine ⟨rfl, ?_⟩
  simp [releaseSem, Semaphore.watched, hsem.semValue id, hsem.semInUse id]

theorem mySemWait_take {r : Kernel × Option Int} (hv : 0 < (k.semaphores id).value)
    (h : mySemWait k id = .ok r) :
    r.2 = some 0 ∧ (r.1.semaphores id).watched =
      ((k.semaphores id).value - 1, (k.semaphores id).inUse, (k.semaphores id).waitingQueue) := by
  simp only [mySemWait, if_pos hopen] at h
  obtain ⟨k₁, hacq, h⟩ := Outcome.bind_eq_ok.mp h
  have hsem := (Quiet.acquireSem hacq).toCalm
  rw [if_pos (by rwa [hsem.semValue id])] at h
  cases h
  refine ⟨rfl, ?_⟩
  simp [releaseSem, Semaphore.watched, hsem.semValue id, hsem.semInUse id, hsem.semQueue id]

/-- A process that finds no token enqueues itself and leaves. -/
theorem mySemWait_call {r : Kernel × Option Int} {c : ProcId}
    (hv : (k.semaphores id).value = 0) (hc : k.currentProcess = some c)
    (h : mySemWait k id = .ok r) :
    r.2 = none ∧ (r.1.semaphores id).watched =
      ((k.semaphores id).value, (k.semaphores id).inUse,
        enqueue k.kmalloc (k.semaphores id).waitingQueue (some c)) := by
  simp only [mySemWait, if_pos hopen] at h
  obtain ⟨k₁, hacq, h⟩ := Outcome.bind_eq_ok.mp h
  have hq := Quiet.acquireSem hacq
  have hmalloc : k₁.kmalloc = k.kmalloc := by
    unfold acquireSem at hacq
    split at hacq
    · cases hacq
      rfl
    · cases hacq
  rw [if_neg (by rw [hq.semValue id, hv]; exact lt_irrefl 0)] at h
  simp only [hq.current.trans hc, Option.isSome_some, if_true] at h
  obtain ⟨k₂, hb, he⟩ := Outcome.bind_eq_ok.mp h
  cases he
  refine ⟨rfl, ?_⟩
  have hcur : (releaseSem (k₁.alloc.setSem id fun s =>
      { s with waitingQueue := enqueue k₁.kmalloc s.waitingQueue (some c) }) id).currentProcess =
      some c := hq.current.trans hc
  rw [blockCurrent_sem_watched hcur hb]
  simp [releaseSem, Semaphore.watched, Kernel.alloc, hmalloc, hq.semValue id, hq.semInUse id,
    hq.semQueue id]

theorem mySemTrywait_take {r : Kernel × Int} (hv : 0 < (k.semaphores id).value)
    (h : mySemTrywait k id = .ok r) :
    r.2 = 0 ∧ (r.1.semaphores id).watched =
      ((k.semaphores id).value - 1, (k.semaphores id).inUse, (k.semaphores id).waitingQueue) := by
  simp only [mySemTrywait, if_pos hopen] at h
  obtain ⟨k₁, hacq, h⟩ := Outcome.bind_eq_ok.mp h
  have hsem := (Quiet.acquireSem hacq).toCalm
  rw [if_pos (by rwa [hsem.semValue id])] at h
  cases h
  refine ⟨rfl, ?_⟩
  simp [releaseSem, Semaphore.watched, hsem.semValue id, hsem.semInUse id, hsem.semQueue id]

theorem mySemTrywait_fail {r : Kernel × Int} (hv : (k.semaphores id).value = 0)
    (h : mySemTrywait k id = .ok r) :
    r.2 = 1 ∧ (r.1.semaphores id).watched = (k.semaphores id).watched := by
  simp only [mySemTrywait, if_pos hopen] at h
  obtain ⟨k₁, hacq, h⟩ := Outcome.bind_eq_ok.mp h
  have hq := Quiet.acquireSem hacq
  rw [if_neg (by rw [hq.semValue id, hv]; exact lt_irrefl 0)] at h
  cases h
  exact ⟨rfl, (hq.trans (.releaseSem k₁ id)).sem id⟩

end Calls

end TpeSo
