import TpeSo.Acts.Entries

namespace TpeSo

open Ds Lib

/-!
# Acts — what the kernel's objects hold

* `Store`, `Kernel.store` — the descriptor slots, the pipes and the semaphores, without
  the locks, the wait queues and everything else that says who runs and who waits;
* `Act.offStore`, `Micro.store` — the edits that only move processes around leave the store
  alone;
* `Store.setSlot`, `Store.setPipe`, `Store.setSem` — the edits of the store, and what the
  edits of the kernel are in these terms.
-/

variable {φ ψ : Phase} {k k' : Kernel}

/-- A pipe without its lock and its queues. -/
structure PipeBody where
  buffer : Ringbuf
  readers : Nat
  writers : Nat
  inUse : Bool
  freed : Bool

/-- A semaphore without its lock and its queue. -/
structure SemBody where
  value : Nat
  inUse : Bool

def Pipe.body (q : Pipe) : PipeBody := ⟨q.buffer, q.readers, q.writers, q.inUse, q.freed⟩

def Semaphore.body (s : Semaphore) : SemBody := ⟨s.value, s.inUse⟩

/-- What the objects of the kernel hold. -/
structure Store where
  nextProc : ProcId
  slot : ProcId × Fin fdMax → FdEntry
  nextPipe : PipeId
  pipe : PipeId → PipeBody
  sem : Nat → SemBody

/-- The store of a kernel. -/
def Kernel.store (k : Kernel) : Store where
  nextProc := k.nextProc
  slot x := (k.procs x.1).fds x.2
  nextPipe := k.nextPipe
  pipe pp := (k.pipes pp).body
  sem id := (k.semaphores id).body

namespace Store

/-- Overwrite one slot. -/
def setSlot (s : Store) (x : ProcId × Fin fdMax) (e : FdEntry) : Store :=
  { s with slot := Function.update s.slot x e }

/-- Update one pipe. -/
def setPipe (s : Store) (pp : PipeId) (f : PipeBody → PipeBody) : Store :=
  { s with pipe := Function.update s.pipe pp (f (s.pipe pp)) }

/-- Update one semaphore. -/
def setSem (s : Store) (id : Nat) (f : SemBody → SemBody) : Store :=
  { s with sem := Function.update s.sem id (f (s.sem id)) }

/-- The number of references on an end of a pipe. -/
def refs (s : Store) (ops : FileOps) (pp : PipeId) : Nat :=
  match ops with
  | .pipeRead => (s.pipe pp).readers
  | .pipeWrite => (s.pipe pp).writers
  | _ => 0

/-- Change the number of references on an end of a pipe. -/
def setRefs (s : Store) (ops : FileOps) (pp : PipeId) (f : Nat → Nat) : Store :=
  match ops with
  | .pipeRead => s.setPipe pp fun q => { q with readers := f q.readers }
  | .pipeWrite => s.setPipe pp fun q => { q with writers := f q.writers }
  | _ => s

/-- `pipe_free`. -/
def free (s : Store) (pp : PipeId) : Store :=
  s.setPipe pp fun q => { q with inUse := false, freed := true }

/-- The last lines of both close operations. -/
def freeUnreferenced (s : Store) (pp : PipeId) : Store :=
  if (s.pipe pp).readers = 0 ∧ (s.pipe pp).writers = 0 then s.free pp else s

end Store

/-! ### Edits of one record -/

theorem store_congr (hn : k'.nextProc = k.nextProc)
    (hf : ∀ p, (k'.procs p).fds = (k.procs p).fds) (hnp : k'.nextPipe = k.nextPipe)
    (hp : ∀ pp, (k'.pipes pp).body = (k.pipes pp).body)
    (hs : ∀ id, (k'.semaphores id).body = (k.semaphores id).body) : k'.store = k.store := by
  simp only [Kernel.store, hn, hf, hnp, hp, hs]

theorem Calm.store (h : Calm k k') : k'.store = k.store := by
  refine store_congr h.nextProc h.fds h.nextPipe (fun pp => ?_) (fun id => ?_)
  · simp only [Pipe.body, h.buffer, h.readers, h.writers, h.pipeInUse, h.freed]
  · simp only [Semaphore.body, h.semValue, h.semInUse]

theorem store_setProc (k : Kernel) (p : ProcId) {f : Proc → Proc}
    (h : (f (k.procs p)).fds = (k.procs p).fds) : (k.setProc p f).store = k.store :=
  store_congr rfl (k.setProc_spares Proc.fds h) rfl (fun _ => rfl) fun _ => rfl

theorem store_setPipe (k : Kernel) (pp : PipeId) {f : Pipe → Pipe}
    (h : (f (k.pipes pp)).body = (k.pipes pp).body) : (k.setPipe pp f).store = k.store :=
  store_congr rfl (fun _ => rfl) rfl (k.setPipe_spares Pipe.body h) fun _ => rfl

theorem store_setSem (k : Kernel) (id : Nat) {f : Semaphore → Semaphore}
    (h : (f (k.semaphores id)).body = (k.semaphores id).body) :
    (k.setSem id f).store = k.store :=
  store_congr rfl (fun _ => rfl) rfl (fun _ => rfl) (k.setSem_spares Semaphore.body h)

/-- An edit of a pipe, as the store sees it. -/
theorem store_setPipe_body (k : Kernel) (pp : PipeId) {f : Pipe → Pipe} {g : PipeBody → PipeBody}
    (h : (f (k.pipes pp)).body = g (k.pipes pp).body) :
    (k.setPipe pp f).store = k.store.setPipe pp g := by
  simp only [Kernel.store, Kernel.setPipe, Store.setPipe, Store.mk.injEq, true_and, and_true]
  funext i
  by_cases hi : i = pp
  · subst hi
    simp [h]
  · simp [hi]

theorem store_setSem_body (k : Kernel) (id : Nat) {f : Semaphore → Semaphore}
    {g : SemBody → SemBody} (h : (f (k.semaphores id)).body = g (k.semaphores id).body) :
    (k.setSem id f).store = k.store.setSem id g := by
  simp only [Kernel.store, Kernel.setSem, Store.setSem, Store.mk.injEq, true_and]
  funext i
  by_cases hi : i = id
  · subst hi
    simp [h]
  · simp [hi]

theorem store_setFd (k : Kernel) (p : ProcId) (i : Fin fdMax) (e : FdEntry) :
    (setFd k p i e).store = k.store.setSlot (p, i) e := by
  simp only [Kernel.store, setFd, Kernel.setProc, Store.setSlot, Store.mk.injEq, true_and,
    and_true]
  funext x
  obtain ⟨q, j⟩ := x
  by_cases hq : q = p
  · subst hq
    by_cases hj : j = i
    · subst hj
      simp
    · simp [hj]
  · simp [hq]

theorem store_addRef (k : Kernel) (ops : FileOps) (pp : PipeId) :
    (addRef k ops pp).store = k.store.setRefs ops pp (· + 1) := by
  unfold addRef pipeAddRefRead pipeAddRefWrite Store.setRefs
  cases ops with
  | pipeRead => exact store_setPipe_body k pp rfl
  | pipeWrite => exact store_setPipe_body k pp rfl
  | _ => rfl

theorem store_subRef (k : Kernel) (ops : FileOps) (pp : PipeId) :
    (subRef k ops pp).store = k.store.setRefs ops pp (· - 1) := by
  unfold subRef Store.setRefs
  cases ops with
  | pipeRead => exact store_setPipe_body k pp rfl
  | pipeWrite => exact store_setPipe_body k pp rfl
  | _ => rfl

theorem store_pipeFree (k : Kernel) (pp : PipeId) : (pipeFree k pp).store = k.store.free pp :=
  store_setPipe_body k pp rfl

theorem store_freeUnreferenced (k : Kernel) (pp : PipeId) :
    (freeUnreferenced k pp).store = k.store.freeUnreferenced pp := by
  show _ = if (k.pipes pp).readers = 0 ∧ (k.pipes pp).writers = 0 then k.store.free pp
    else k.store
  unfold freeUnreferenced
  split
  · exact store_pipeFree k pp
  · rfl

theorem store_newProc (k : Kernel) : ({ k with
      nextProc := k.nextProc + 1
      procs := Function.update k.procs k.nextProc {} } : Kernel).store =
    { k.store with
      nextProc := k.nextProc + 1
      slot := fun x => if x.1 = k.nextProc then {} else k.store.slot x } := by
  simp only [Kernel.store, Store.mk.injEq, and_true, true_and]
  funext x
  by_cases hx : x.1 = k.nextProc
  · simp [hx]
  · simp [hx]

theorem store_newPipe (k : Kernel) (id junk : List UInt8) (table : Nat → Option PipeId) : ({ k with
      nextPipe := k.nextPipe + 1
      pipes := Function.update k.pipes k.nextPipe
        { id := id, inUse := true, lock := true, junk := junk }
      pipesTable := table } : Kernel).store =
    { k.store with
      nextPipe := k.nextPipe + 1
      pipe := Function.update k.store.pipe k.nextPipe
        ⟨ringbufNew pipeBufferSize, 0, 0, true, false⟩ } := by
  simp only [Kernel.store, Store.mk.injEq, and_true, true_and]
  funext i
  by_cases hi : i = k.nextPipe
  · subst hi
    simp [Pipe.body]
  · simp [hi]

/-! ### Moving processes around -/

@[simp] theorem store_procReady (k : Kernel) (o : Option ProcId) :
    (procReady k o).store = k.store := by
  cases o with
  | none => rfl
  | some p =>
    exact store_setProc k p (f := fun q =>
      { q with status := .ready, blockReason := .none, waitingOn := .readyQueue }) rfl

@[simp] theorem store_markBlocked (k : Kernel) (p : ProcId) (r : BlockReason) (w : WaitRef) :
    (markBlocked k p r w).store = k.store :=
  store_setProc k p (f := fun q => { q with status := .blocked, blockReason := r, waitingOn := w })
    rfl

@[simp] theorem store_suspend (k : Kernel) (w : Pending) : (k.suspend w).store = k.store := by
  unfold Kernel.suspend
  split <;> rfl

@[simp] theorem store_popWaiter (k : Kernel) (w : WaitRef) :
    (popWaiter k w).store = k.store := by
  cases w with
  | semaphore id => exact store_setSem k id rfl
  | pipeReaders pp => exact store_setPipe k pp rfl
  | pipeWriters pp => exact store_setPipe k pp rfl
  | _ => rfl

@[simp] theorem store_linkWaiter (k : Kernel) (w : WaitRef) (c : ProcId) :
    (linkWaiter k w c).store = k.store := by
  cases w with
  | semaphore id => exact store_setSem k.alloc id rfl
  | pipeReaders pp => exact store_setPipe k.alloc pp rfl
  | pipeWriters pp => exact store_setPipe k.alloc pp rfl
  | _ => rfl

@[simp] theorem store_leave (k : Kernel) (c : ProcId) (r : BlockReason) (w : WaitRef)
    (pend : Pending) : (leave k c r w pend).store = k.store := by
  unfold leave
  rw [store_setProc _ _ rfl, store_markBlocked, store_suspend]

@[simp] theorem store_dispatchTo (k : Kernel) (p : ProcId) (rest : List ProcId) :
    (dispatchTo k p rest).store = k.store :=
  store_setProc _ p rfl

@[simp] theorem store_unlinkWaiting (k : Kernel) (p : ProcId) :
    (unlinkWaiting k p).store = k.store := by
  unfold unlinkWaiting
  split
  · rfl
  · exact store_setPipe k _ rfl
  · exact store_setPipe k _ rfl
  all_goals rfl

@[simp] theorem store_rmCurrent (k : Kernel) (p : ProcId) : (rmCurrent k p).store = k.store := by
  unfold rmCurrent
  split <;> rfl

@[simp] theorem store_bury (k : Kernel) (p : ProcId) (code : Int) :
    (bury k p code).store = k.store := by
  unfold bury
  rw [store_setProc _ _ rfl, store_unlinkWaiting, store_rmCurrent]

/-- The edits that leave the store alone. -/
def Act.offStore : Act → Prop
  | .semCreate _ _ | .semDestroy _ | .semTake _ | .semInc _ | .newProc | .inherit | .setTerminal
  | .newPipe _ | .openRef _ | .dropRef _ | .clearSlot | .freeUnref _ | .freeNamed _ | .take _
  | .put _ => False
  | _ => True

/-- **Moving processes around leaves the store alone.** -/
theorem Micro.store {a : Act} (h : Micro φ k a ψ k') (ha : a.offStore) : k'.store = k.store := by
  cases h with
  | quiet hq => exact hq.toCalm.store
  | quantum p n => exact store_setProc k p rfl
  | suspend => exact store_suspend k _
  | finish => rfl
  | tick => rfl
  | tickLeaving => rfl
  | wakeSleeper => exact store_procReady k _
  | dropSleeper => rfl
  | stay => rfl
  | refill => exact store_setProc k _ rfl
  | dispatch => exact store_dispatchTo k _ _
  | preempt => rw [store_dispatchTo, store_procReady]
  | blockSelf => rw [store_leave, store_linkWaiter]
  | blockSleep => exact store_leave _ _ _ _ _
  | blockOther => exact store_markBlocked k _ _ _
  | unblock => exact store_procReady k _
  | wake => rw [store_procReady, store_popWaiter]
  | wakeParent => exact store_procReady k _
  | semLinkNull => exact store_setSem k.alloc _ rfl
  | kill p code => exact store_bury k p code
  | endKill => rfl
  | reapSelf => rfl
  | reapChild => rfl
  | noPid => exact store_setProc k _ rfl
  | claimPid => exact store_setProc k _ (f := fun q => { q with pid := _ }) rfl
  | start => exact store_procReady k _
  | startBare => exact store_procReady k.alloc _
  | _ => exact ha.elim

/-! ### Closing a slot -/

@[simp] theorem store_wakeReaders (pp : PipeId) (n : Nat) :
    ∀ k : Kernel, (wakeReaders k pp n).store = k.store := by
  induction n with
  | zero => intro k; rfl
  | succ n ih =>
    intro k
    rw [wakeReaders, ih]
    exact (store_procReady _ _).trans (store_setPipe k pp rfl)

/-- Closing a slot that refers to a pipe drops the reference, and the pipe with it when
    that was the last one. -/
theorem store_closeSlot {p : ProcId} {i : Fin fdMax} {ops : FileOps} {pp : PipeId}
    (he : ((k.procs p).fds i).refers ops pp) :
    (closeSlot k p i).store =
      ((k.store.setSlot (p, i) {}).setRefs ops pp (· - 1)).freeUnreferenced pp := by
  obtain ⟨hops, ho, hr⟩ := he
  rw [← store_setFd, ← store_subRef]
  cases ops with
  | pipeRead =>
    simp only [closeSlot, fdClose, ho, hr, pipeCloseRead, setFd_freeUnreferenced,
      store_freeUnreferenced]
    rfl
  | pipeWrite =>
    simp only [closeSlot, fdClose, ho, hr, pipeCloseWrite, setFd_freeUnreferenced,
      store_freeUnreferenced]
    split
    · rw [setFd_wakeReaders, store_wakeReaders]
      rfl
    · rfl
  | keyboard => exact hops.elim
  | video => exact hops.elim
  | videoErr => exact hops.elim

/-- Closing any other slot only clears it. -/
theorem store_closeSlot_of_not_refers {p : ProcId} {i : Fin fdMax}
    (he : ∀ ops pp, ¬ ((k.procs p).fds i).refers ops pp) :
    (closeSlot k p i).store = k.store.setSlot (p, i) {} := by
  rw [← store_setFd]
  unfold closeSlot fdClose
  split
  · rename_i pp ho hr
    exact (he .pipeRead pp ⟨trivial, ho, hr⟩).elim
  · rename_i pp ho hr
    exact (he .pipeWrite pp ⟨trivial, ho, hr⟩).elim
  · rfl

end TpeSo
