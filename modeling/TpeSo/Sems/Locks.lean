import TpeSo.Pipes.EndOfFile
import TpeSo.Sems.Frame

namespace TpeSo

open Ds Lib

/-!
# Locks — none is held when the processor changes hands

Every semaphore and every pipe has a lock byte that its calls take and give back.  A call
that has to wait gives it back first, so that with interrupts off nobody ever finds a lock
taken.

* `LocksFree k` — the lock byte of every semaphore in use and of every live pipe is `1`;
* `Leaves x` — the call `x` either returns, or reaches `block_current`, and does so with all
  locks free;
* `locksFree_run` — **no lock is held across a switch**.
-/

variable {k k' : Kernel} {c p : ProcId} {id : Nat} {pp : PipeId} {e : Event}
  {o : Option Completion}

/-- The lock byte of every semaphore in use and of every live pipe is `1`. -/
structure LocksFree (k : Kernel) : Prop where
  sem : ∀ id, (k.semaphores id).inUse = true → (k.semaphores id).lock = true
  pipe : ∀ pp, (k.pipes pp).inUse = true → (k.pipes pp).lock = true

/-- A call returns, or leaves the processor, in both cases with all locks free. -/
inductive Leaves {α : Type} (x : Outcome (Kernel × Option α)) : Prop
  | returns (r : Kernel × Option α) (h : x = .ok r) (hret : r.2.isSome) (hfree : LocksFree r.1)
  | blocks (kb : Kernel) (reason : BlockReason) (res : WaitRef) (ret : Option α)
      (hfree : LocksFree kb)
      (h : x = (blockCurrent kb reason res >>= fun k => .ok (k, ret)))

namespace Leaves

variable {α β : Type} {x : Outcome (Kernel × Option α)}

/-- What is made of the result does not matter. -/
theorem map (h : Leaves x) (g : α → β) : Leaves (x >>= fun r => .ok (r.1, r.2.map g)) := by
  cases h with
  | returns r h hret hfree =>
    rw [h]
    exact .returns (r.1, r.2.map g) rfl (by simpa using hret) hfree
  | blocks kb reason res ret hfree h =>
    refine .blocks kb reason res (ret.map g) hfree ?_
    rw [h]
    exact Outcome.bind_assoc _ _ _

end Leaves

/-- The event creates, waits on, tries or posts a semaphore, opens a pipe, or reads or writes
    a live one, from the start or after a wake-up. -/
def IpcCall (k : Kernel) : Event → Prop
  | .sysCreateSem _ _ | .sysSemWait _ | .sysSemPost _ | .sysSemTrywait _ => True
  | .sysPipeOpen _ _ _ => True
  | e => (∃ id, e = .resume ∧ k.unfinished = some (.semWait id)) ∨
      (∃ pp size, readCall k e = some (pp, size) ∧ (k.pipes pp).inUse = true) ∨
      ∃ pp buf, writeCall k e = some (pp, buf) ∧ (k.pipes pp).inUse = true

namespace LocksFree

theorem of_objects (h : LocksFree k) (hobj : k'.objects = k.objects) : LocksFree k' where
  sem := by
    rw [semaphores_of_objects hobj]
    exact h.sem
  pipe := by
    rw [pipes_of_objects hobj]
    exact h.pipe

theorem entered (h : LocksFree k) (e : Event) : LocksFree (k.entered e) :=
  h.of_objects (objects_entered k e)

/-- One semaphore is rewritten. -/
theorem editSem (h : LocksFree k) (id : Nat) {s : Semaphore}
    (hs : k'.semaphores = Function.update k.semaphores id s) (hp : k'.pipes = k.pipes)
    (hlock : s.inUse = true → s.lock = true) : LocksFree k' where
  sem i := by
    rw [hs]
    by_cases hi : i = id
    · subst hi
      simpa using hlock
    · simpa [hi] using h.sem i
  pipe := by
    rw [hp]
    exact h.pipe

/-- One pipe is rewritten. -/
theorem editPipe (h : LocksFree k) (pp : PipeId) {q : Pipe}
    (hp : k'.pipes = Function.update k.pipes pp q) (hs : k'.semaphores = k.semaphores)
    (hlock : q.inUse = true → q.lock = true) : LocksFree k' where
  sem := by
    rw [hs]
    exact h.sem
  pipe i := by
    rw [hp]
    by_cases hi : i = pp
    · subst hi
      simpa using hlock
    · simpa [hi] using h.pipe i

/-! ### Semaphores -/

theorem mySemCreate (h : LocksFree k) (id v : Nat) : LocksFree (TpeSo.mySemCreate k id v).1 := by
  unfold TpeSo.mySemCreate
  split
  · dsimp only
    split
    · exact h.editSem id rfl rfl fun _ => rfl
    · exact h.of_objects rfl
  · exact h

theorem mySemDestroy (h : LocksFree k) (id : Nat) : LocksFree (TpeSo.mySemDestroy k id).1 := by
  unfold TpeSo.mySemDestroy
  split
  · exact h.editSem id rfl rfl fun hu => nomatch hu
  · exact h

end LocksFree

theorem semIsOpen_inUse (h : semIsOpen k id = true) : (k.semaphores id).inUse = true := by
  unfold semIsOpen at h
  exact (Bool.and_eq_true_iff.mp h).2

/-- A free lock is taken. -/
theorem acquireSem_of_free (h : (k.semaphores id).lock = true) :
    acquireSem k id = .ok (k.setSem id fun s => { s with lock := false }) := if_pos h

/-- Whatever has been done to a semaphore, its lock is free after the release. -/
theorem LocksFree.releaseSem {f : Semaphore → Semaphore} (h : LocksFree k) (id : Nat) :
    LocksFree (TpeSo.releaseSem (k.setSem id f) id) where
  sem i := by
    by_cases hi : i = id
    · subst hi
      simp [TpeSo.releaseSem, Kernel.setSem]
    · simpa [TpeSo.releaseSem, Kernel.setSem, hi] using h.sem i
  pipe := h.pipe

theorem setSem_setSem (k : Kernel) (id : Nat) (f g : Semaphore → Semaphore) :
    (k.setSem id f).setSem id g = k.setSem id fun s => g (f s) := by
  simp [Kernel.setSem]

/-- `my_sem_post` returns. -/
theorem mySemPost_leaves (h : LocksFree k) (id : Nat) :
    ∃ r, mySemPost k id = .ok r ∧ LocksFree r.1 := by
  unfold mySemPost
  split
  · rename_i hopen
    rw [acquireSem_of_free (h.sem id (semIsOpen_inUse hopen)), Outcome.ok_bind]
    dsimp only
    split
    · refine ⟨_, rfl, ?_⟩
      rw [setSem_setSem]
      refine LocksFree.of_objects ?_ (objects_procReady _ _)
      exact h.releaseSem id
    · refine ⟨_, rfl, ?_⟩
      rw [setSem_setSem, setSem_setSem]
      exact h.releaseSem id
  · exact ⟨_, rfl, h⟩

/-- `my_sem_trywait` returns. -/
theorem mySemTrywait_leaves (h : LocksFree k) (id : Nat) :
    ∃ r, mySemTrywait k id = .ok r ∧ LocksFree r.1 := by
  unfold mySemTrywait
  split
  · rename_i hopen
    rw [acquireSem_of_free (h.sem id (semIsOpen_inUse hopen)), Outcome.ok_bind]
    split
    · refine ⟨_, rfl, ?_⟩
      dsimp only
      rw [setSem_setSem]
      exact h.releaseSem id
    · exact ⟨_, rfl, h.releaseSem id⟩
  · exact ⟨_, rfl, h⟩

/-- `my_sem_wait` returns, or is about to wait. -/
theorem mySemWait_leaves (h : LocksFree k) (id : Nat) : Leaves (mySemWait k id) := by
  unfold mySemWait
  split
  · rename_i hopen
    rw [acquireSem_of_free (h.sem id (semIsOpen_inUse hopen)), Outcome.ok_bind]
    split
    · refine .returns _ rfl rfl ?_
      dsimp only
      rw [setSem_setSem]
      exact h.releaseSem id
    · refine .blocks _ _ _ _ (LocksFree.of_objects ?_ (objects_suspend _ _)) rfl
      have halloc : LocksFree k.alloc := h.of_objects rfl
      have heq : ((k.setSem id fun s => { s with lock := false }).alloc) =
          k.alloc.setSem id fun s => { s with lock := false } := rfl
      rw [heq, setSem_setSem]
      exact halloc.releaseSem id
  · exact .returns _ rfl rfl h

/-! ### Pipes -/

namespace LocksFree

theorem linkWaiter (h : LocksFree k) (w : WaitRef) (c : ProcId) :
    LocksFree (TpeSo.linkWaiter k w c) := by
  cases w with
  | semaphore id => exact h.editSem id rfl rfl (h.sem id)
  | pipeReaders pp => exact h.editPipe pp rfl rfl (h.pipe pp)
  | pipeWriters pp => exact h.editPipe pp rfl rfl (h.pipe pp)
  | keyboard => exact h.of_objects rfl
  | _ => exact h

theorem suspend (h : LocksFree k) (w : Pending) : LocksFree (k.suspend w) :=
  h.of_objects (objects_suspend k w)

end LocksFree

/-- `pipe_read` returns, or is about to wait. -/
theorem pipeRead_leaves (h : LocksFree k) (hl : (k.pipes pp).lock = true) (c : ProcId) (size : Nat) :
    Leaves (pipeRead k c pp size) := by
  rw [pipeRead_eq hl]
  split
  · split
    · exact .returns _ rfl rfl h
    · exact .blocks _ _ _ _ ((h.linkWaiter (.pipeReaders pp) c).suspend _) rfl
  · refine .returns _ rfl rfl (LocksFree.of_objects ?_ (objects_procReady _ _))
    exact h.editPipe pp rfl rfl (h.pipe pp)

/-- `pipe_write` returns, or is about to wait. -/
theorem pipeWrite_leaves (h : LocksFree k) (hl : (k.pipes pp).lock = true) (c : ProcId)
    (buf : List UInt8) : Leaves (pipeWrite k c pp buf) := by
  rw [pipeWrite_eq hl]
  split
  · split
    · exact .returns _ rfl rfl h
    · exact .blocks _ _ _ _ ((h.linkWaiter (.pipeWriters pp) c).suspend _) rfl
  · refine .returns _ rfl rfl (LocksFree.of_objects ?_ (objects_procReady _ _))
    exact h.editPipe pp rfl rfl (h.pipe pp)

namespace LocksFree

theorem wakeReaders (pp : PipeId) (n : Nat) : ∀ {k : Kernel}, LocksFree k →
    LocksFree (TpeSo.wakeReaders k pp n) := by
  induction n with
  | zero => exact fun h => h
  | succ n ih =>
    intro k h
    refine ih (of_objects ?_ (objects_procReady _ _))
    exact h.editPipe pp rfl rfl (h.pipe pp)

theorem pipeFree (h : LocksFree k) (pp : PipeId) : LocksFree (TpeSo.pipeFree k pp) :=
  h.editPipe pp rfl rfl fun hu => nomatch hu

theorem freeUnreferenced (h : LocksFree k) (pp : PipeId) :
    LocksFree (TpeSo.freeUnreferenced k pp) := by
  unfold TpeSo.freeUnreferenced
  split
  · exact h.pipeFree pp
  · exact h

theorem closeSlot (h : LocksFree k) (p : ProcId) (i : Fin fdMax) :
    LocksFree (TpeSo.closeSlot k p i) := by
  refine of_objects (k := fdClose k ((k.procs p).fds i)) ?_ rfl
  unfold fdClose
  split
  · rename_i pp _ _
    refine freeUnreferenced ?_ pp
    exact h.editPipe pp rfl rfl (h.pipe pp)
  · rename_i pp _ _
    have hsub : LocksFree (k.setPipe pp fun q => { q with writers := q.writers - 1 }) :=
      h.editPipe pp rfl rfl (h.pipe pp)
    refine freeUnreferenced ?_ pp
    split
    · exact wakeReaders pp _ hsub
    · exact hsub
  · exact h

theorem closeFds (p : ProcId) (is : List (Fin fdMax)) : ∀ {k : Kernel}, LocksFree k →
    LocksFree (TpeSo.closeFds k p is) := by
  induction is with
  | nil => exact fun h => h
  | cons i is ih => exact fun h => ih (h.closeSlot p i)

theorem killUnlink (h : LocksFree k) (p : ProcId) (code : Int) :
    LocksFree (TpeSo.killUnlink k p code) := by
  have hfg := h.of_objects (objects_setForegroundProcess k (k.procs p).parent (some p))
  have hrm := hfg.of_objects (objects_rmCurrent _ p)
  refine of_objects (k := unlinkWaiting (rmCurrent _ p) p) ?_ rfl
  unfold unlinkWaiting
  split
  · exact hrm.of_objects rfl
  · exact hrm.editPipe _ rfl rfl (hrm.pipe _)
  · exact hrm.editPipe _ rfl rfl (hrm.pipe _)
  all_goals exact hrm.of_objects rfl

theorem inheritLoop (p s : ProcId) (fds : Fin fdMax → Int) (is : List (Fin fdMax)) :
    ∀ {k : Kernel}, LocksFree k → LocksFree (TpeSo.inheritLoop k p s fds is) := by
  induction is with
  | nil => exact fun h => h
  | cons i is ih =>
    intro k h
    unfold TpeSo.inheritLoop
    split
    · refine ih (of_objects (k := fdAddRef k _) ?_ rfl)
      unfold fdAddRef
      split
      · exact h.editPipe _ rfl rfl (h.pipe _)
      · exact h.editPipe _ rfl rfl (h.pipe _)
      · exact h
    · exact h

theorem createPipe (h : LocksFree k) (id junk : List UInt8) :
    LocksFree (TpeSo.createPipe k id junk).1 := by
  have halloc := h.of_objects (objects_allocAll 5 k)
  unfold TpeSo.createPipe
  split
  · exact h
  · dsimp only
    split
    · exact halloc.editPipe _ rfl rfl fun _ => rfl
    · exact halloc

theorem openPipe (h : LocksFree k) (p : ProcId) (i : Fin fdMax) (id junk : List UInt8) (mode : Int) :
    LocksFree (TpeSo.openPipe k p i id junk mode).1 := by
  have hend : ∀ (k₁ : Kernel) (pp : PipeId), LocksFree k₁ → LocksFree (if mode = 0 then
      (pipeAddRefRead (setFd k₁ p i (pipeEntry pp .pipeRead)) pp, (0 : Int))
      else (pipeAddRefWrite (setFd k₁ p i (pipeEntry pp .pipeWrite)) pp, 0)).1 := by
    intro k₁ pp h₁
    split
    · exact h₁.editPipe pp rfl rfl (h₁.pipe pp)
    · exact h₁.editPipe pp rfl rfl (h₁.pipe pp)
  unfold TpeSo.openPipe
  split
  · exact h
  · cases findPipeById k id with
    | some pp => exact hend k pp h
    | none =>
      have hcreate := h.createPipe id junk
      generalize TpeSo.createPipe k id junk = r at hcreate
      obtain ⟨k₁, found⟩ := r
      cases found with
      | none => exact hcreate
      | some pp => exact hend k₁ pp hcreate

end LocksFree

/-! ### Whole runs -/

/-- All locks are free when a call has come back, at once or from a switch. -/
theorem Leaves.free {α : Type} {x : Outcome (Kernel × Option α)} {r : Kernel × Option α}
    (h : Leaves x) (hr : x = .ok r) : LocksFree r.1 := by
  cases h with
  | returns r' h hret hfree =>
    cases h.symm.trans hr
    exact hfree
  | blocks kb reason res ret hfree h =>
    obtain ⟨k₁, hb, he⟩ := Outcome.bind_eq_ok.mp (h.symm.trans hr)
    cases he
    exact hfree.of_objects (objects_of_fixed (fixed_blockCurrent hb))

theorem LocksFree.of_offLine (h : LocksFree k) (hoff : k'.offLine = k.offLine) : LocksFree k' where
  sem := by
    rw [(Prod.mk.inj hoff).1]
    exact h.sem
  pipe := by
    rw [(Prod.mk.inj (Prod.mk.inj hoff).2).1]
    exact h.pipe

/-- **Every step leaves all locks free.** -/
theorem LocksFree.step (h : LocksFree k) (hs : TpeSo.step k e = some (k', o)) : LocksFree k' := by
  cases step_object hs with
  | same hobj => exact h.of_objects hobj
  | semCreate id v he hobj => exact (h.mySemCreate id v).of_objects hobj
  | semDestroy id he hobj => exact (h.mySemDestroy id).of_objects hobj
  | semPost id he r hr hobj =>
    obtain ⟨r', hr', hfree⟩ := mySemPost_leaves h id
    cases hr'.symm.trans hr
    exact hfree.of_objects hobj
  | semWait id he r hr hobj => exact ((mySemWait_leaves h id).free hr).of_objects hobj
  | semTrywait id he r hr hobj =>
    obtain ⟨r', hr', hfree⟩ := mySemTrywait_leaves h id
    cases hr'.symm.trans hr
    exact hfree.of_objects hobj
  | pipeRead pp size hcall c hc r hr hobj =>
    exact ((pipeRead_leaves (h.entered e) (lock_of_pipeRead hr) c size).free hr).of_objects hobj
  | pipeWrite pp buf hcall c hc r hr hobj =>
    exact ((pipeWrite_leaves (h.entered e) (lock_of_pipeWrite hr) c buf).free hr).of_objects hobj
  | createPipe id junk he hobj => exact (h.createPipe id junk).of_objects hobj
  | openPipe id junk mode he c hc i hi hobj => exact (h.openPipe c i id junk mode).of_objects hobj
  | closeName id he pp hpp hobj => exact (h.pipeFree pp).of_objects hobj
  | closeFd i he c hc hobj => exact (h.closeSlot c i).of_objects hobj
  | kill p hp k₁ hk₁ code hobj =>
    have h₁ : LocksFree k₁ := by
      rcases hk₁ with rfl | rfl
      · exact h
      · exact h.suspend .exit
    exact (closeFds p _ (h₁.killUnlink p code)).of_objects hobj
  | inherit a he k₁ hk₁ p s fds hobj =>
    exact (inheritLoop p s fds _ (h.of_objects hk₁)).of_objects hobj
  | char sc ch he hch hobj =>
    exact (h.of_offLine (offLine_handleChar k ch)).of_objects hobj
  | ctrlD sc he hch hobj =>
    exact (h.of_offLine (offLine_handleCtrlD k)).of_objects hobj
  | line count n hkey hn h0 hobj =>
    exact (h.of_offLine (offLine_getLine k count)).of_objects hobj
  | canonical b he hobj =>
    have hmode : LocksFree { k with canonicalMode := b } := h.of_offLine rfl
    exact hmode.of_objects hobj

/-- `sys_pipe_open` always returns. -/
theorem LocksFree.sysPipeOpen (h : LocksFree k) (id junk : List UInt8) (mode : Int) :
    Leaves (TpeSo.sysPipeOpen k id junk mode) := by
  unfold TpeSo.sysPipeOpen
  split
  · exact .returns _ rfl rfl h
  · split
    · exact .returns _ rfl rfl h
    · split
      · exact .returns _ rfl rfl h
      · rename_i c _ _ i _
        have hopen := h.openPipe c i id junk mode
        dsimp only
        split
        · exact .returns _ rfl rfl hopen
        · exact .returns _ rfl rfl hopen

/-- A call on a semaphore or a live pipe leaves with all locks free. -/
theorem LocksFree.ipcCall (h : LocksFree k) (hcall : IpcCall k e) : Leaves (attempt k e) := by
  have hother : ((∃ id, e = .resume ∧ k.unfinished = some (.semWait id)) ∨
      (∃ pp size, readCall k e = some (pp, size) ∧ (k.pipes pp).inUse = true) ∨
      ∃ pp buf, writeCall k e = some (pp, buf) ∧ (k.pipes pp).inUse = true) →
      Leaves (attempt k e) := by
    have hlock : ∀ pp, (k.pipes pp).inUse = true → ((k.entered e).pipes pp).lock = true := by
      intro pp hl
      rw [pipes_of_objects (objects_entered k e)]
      exact h.pipe pp hl
    rintro (⟨id, rfl, hw⟩ | ⟨pp, size, hread, hl⟩ | ⟨pp, buf, hwrite, hl⟩)
    · obtain ⟨c, hc, hw⟩ := Option.bind_eq_some_iff.mp hw
      rw [attempt_resume hc hw]
      have hent := h.entered .resume
      rw [entered_resume hc] at hent
      exact .returns _ rfl rfl hent
    · obtain ⟨c, -, heq⟩ := attempt_readCall hread
      rw [heq]
      exact (pipeRead_leaves (h.entered e) (hlock pp hl) c size).map _
    · obtain ⟨c, -, heq⟩ := attempt_writeCall hwrite
      rw [heq]
      exact (pipeWrite_leaves (h.entered e) (hlock pp hl) c buf).map _
  cases e with
  | sysCreateSem id v => exact .returns _ rfl rfl (h.mySemCreate id v)
  | sysSemWait id => exact (mySemWait_leaves h id).map _
  | sysSemPost id =>
    obtain ⟨r, hr, hfree⟩ := mySemPost_leaves h id
    refine .returns (r.1, some (.semPost id r.2)) ?_ rfl hfree
    simp only [attempt, enter, hr, Outcome.ok_bind]
  | sysSemTrywait id =>
    obtain ⟨r, hr, hfree⟩ := mySemTrywait_leaves h id
    refine .returns (r.1, some (.semTrywait id r.2)) ?_ rfl hfree
    simp only [attempt, enter, hr, Outcome.ok_bind]
  | sysPipeOpen id junk mode => exact h.sysPipeOpen id junk mode
  | _ => exact hother hcall

/-- **No lock is held across a switch.**  In every reachable state all locks are free, so that
    `acquire` never spins, and every call on a semaphore or a live pipe, on its way in or
    after a wake-up, returns or reaches `block_current` with all locks free. -/
theorem locksFree_run {f : Nat → Bool} {ok : Kernel → Event → Prop}
    {tr : List (Kernel × Event × Option Completion)} (h : Run f ok tr k) :
    LocksFree k ∧
    (∀ id, (k.semaphores id).inUse = true → ∃ k', acquireSem k id = .ok k') ∧
    (∀ pp, (k.pipes pp).inUse = true → ∃ k', acquirePipe k pp = .ok k') ∧
    ∀ e, IpcCall k e → Leaves (attempt k e) := by
  have hboot : LocksFree (boot f) := ⟨fun _ hu => absurd hu Bool.false_ne_true,
    fun _ hu => absurd hu Bool.false_ne_true⟩
  have hfree : LocksFree k := h.invariant LocksFree hboot fun _ _ _ _ hI _ hs => hI.step hs
  exact ⟨hfree, fun id hu => ⟨_, if_pos (hfree.sem id hu)⟩,
    fun pp hu => ⟨_, if_pos (hfree.pipe pp hu)⟩, fun e => hfree.ipcCall⟩

/-- A reader that has been woken is about to look at its pipe again, beside a semaphore. -/
theorem locksFree_run_reader : ∃ tr k, Run (fun _ => true) (fun _ _ => True) tr k ∧
    (k.semaphores 5).inUse = true ∧ (k.pipes 0).inUse = true ∧ LocksFree k ∧
    Leaves (attempt k .resume) := by
  have hcheck : execCheck step (fun _ _ => True)
      (fun _ k => (k.semaphores 5).inUse && (k.pipes 0).inUse &&
        decide (readCall k .resume = some (0, 5)))
      (boot fun _ => true) (.sysCreateSem 5 1 :: lonelyReaderEvents) = true := by decide +kernel
  obtain ⟨tr, k, hrun, hQ⟩ := Trace.of_execCheck hcheck
  simp only [Bool.and_eq_true, decide_eq_true_eq] at hQ
  obtain ⟨⟨hsem, hpipe⟩, hcall⟩ := hQ
  obtain ⟨hfree, -, -, hleaves⟩ := locksFree_run hrun
  exact ⟨tr, k, hrun, hsem, hpipe, hfree, hleaves .resume (.inr (.inl ⟨0, 5, hcall, hpipe⟩))⟩

end TpeSo
