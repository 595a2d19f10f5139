import TpeSo.Acts.Origin

namespace TpeSo

open Ds Lib

/-!
# Acts — every function of the kernel as a sequence of edits

One lemma for each function: if it comes back, it has made a sequence of edits.  The
functions that only make routine edits are stated for every `C` that allows these; the
entries themselves are put together in `step_does`.
-/

variable {C : Kernel → Act → Prop} {φ : Phase} {k k' : Kernel}

/-- `C` allows the routine edits. -/
def Routine (C : Kernel → Act → Prop) : Prop := ∀ k a, a.routine → C k a

theorem Routine.origin (k₀ : Kernel) (e : Event) : Routine (Origin k₀ e) :=
  fun _ _ h => .of_routine h

/-- `C` allows the common edits. -/
def Common (C : Kernel → Act → Prop) : Prop := ∀ k a, a.common → C k a

theorem Act.common.routine {a : Act} (h : a.common) : a.routine := by
  unfold Act.common at h
  split at h
  case h_6 => exact h
  all_goals exact h.elim

theorem Routine.common (h : Routine C) : Common C := fun k a ha => h k a ha.routine

theorem Common.cause (k₀ : Kernel) (e : Event) : Common (Cause k₀ e) :=
  fun _ _ h => .of_common h

/-- `C` allows to preempt the current process of `k`. -/
def Preempts (C : Kernel → Act → Prop) (k : Kernel) : Prop :=
  ∀ k₁ c p, k.currentProcess = some c → C k₁ (.preempt c p)

theorem Preempts.congr (h : Preempts C k) (hcur : k'.currentProcess = k.currentProcess) : Preempts C k' :=
  fun k₁ c p hc => h k₁ c p (hcur.symm.trans hc)

theorem Routine.preempts (h : Routine C) (k : Kernel) : Preempts C k := fun _ _ _ _ => h _ _ trivial

theorem Preempts.cause {k₀ : Kernel} {e : Event}
    (h : ∀ c, k.currentProcess = some c → k₀.currentProcess = some c) : Preempts (Cause k₀ e) k :=
  fun _ c _ hc => ⟨trivial, h c hc⟩

/-- A quiet change is a sequence of edits. -/
theorem Quiet.does (hC : Common C) (h : Quiet k k') : Does C (φ, k) (φ, k') :=
  .one (.quiet h) (hC _ _ trivial)

/-! ### The timer -/

theorem does_wakeDue (hC : Common C) (hφ : φ.ticking) (rest : List SleepingProc) :
    ∀ (k : Kernel) (pre : List SleepingProc), k.sleepingProcs = pre ++ rest →
      (∀ sp ∈ pre, ¬ sp.wakeUpTick ≤ k.ticks) → wakeDue k rest = .ok k' →
      Does C (φ, k) (φ, k') := by
  induction rest with
  | nil =>
    intro k pre _ _ h
    cases h
    exact .refl _
  | cons sp rest ih =>
    intro k pre hk hpre h
    by_cases hdue : sp.wakeUpTick ≤ k.ticks
    · have hmem : sp ∈ k.sleepingProcs := by simp [hk]
      have hnot : sp ∉ pre := fun hin => hpre sp hin hdue
      have hrm : queueRemove k.sleepingProcs sp = pre ++ rest := by
        rw [hk, queueRemove, List.erase_append_right _ hnot, List.erase_cons_head]
      simp only [wakeDue, hdue, if_true, unblockProcessByPid, Outcome.bind_eq_ok] at h
      obtain ⟨⟨k₁, n⟩, ⟨o, ho, hu⟩, hrest⟩ := h
      cases o with
      | none =>
        simp only [Outcome.ok.injEq, Prod.mk.injEq] at hu
        obtain ⟨rfl, rfl⟩ := hu
        refine .trans (.one (.dropSleeper hφ hmem ?_) (hC _ _ trivial))
          (ih { k with sleepingProcs := queueRemove k.sleepingProcs sp } pre hrm hpre hrest)
        intro p hp
        rw [ho] at hp
        cases hp
      | some p =>
        by_cases hs : (k.procs p).status = .blocked
        · simp only [hs, ne_eq, not_true_eq_false, if_false, Outcome.ok.injEq,
            Prod.mk.injEq] at hu
          obtain ⟨rfl, rfl⟩ := hu
          exact .trans (.one (.wakeSleeper hφ hmem hdue ho hs) (hC _ _ trivial))
            (ih { procReady k (some p) with sleepingProcs := queueRemove k.sleepingProcs sp }
              pre hrm hpre hrest)
        · simp only [ne_eq, hs, not_false_eq_true, if_true, Outcome.ok.injEq,
            Prod.mk.injEq] at hu
          obtain ⟨rfl, rfl⟩ := hu
          refine .trans (.one (.dropSleeper hφ hmem ?_) (hC _ _ trivial))
            (ih { k with sleepingProcs := queueRemove k.sleepingProcs sp } pre hrm hpre hrest)
          intro q hq
          rw [ho] at hq
          cases hq
          exact hs
    · rw [wakeDue, if_neg hdue] at h
      refine ih k (pre ++ [sp]) (by simp [hk]) ?_ h
      intro x hx
      rcases List.mem_append.mp hx with hx | hx
      · exact hpre x hx
      · rw [List.mem_singleton.mp hx]
        exact hdue

theorem current_wakeDue (rest : List SleepingProc) :
    ∀ {k : Kernel}, wakeDue k rest = .ok k' → k'.currentProcess = k.currentProcess := by
  induction rest with
  | nil =>
    intro k h
    cases h
    rfl
  | cons sp rest ih =>
    intro k h
    rw [wakeDue] at h
    split at h
    · obtain ⟨⟨k₁, n⟩, hu, h⟩ := Outcome.bind_eq_ok.mp h
      obtain ⟨o, -, hu⟩ := Outcome.bind_eq_ok.mp hu
      refine (ih h).trans ?_
      cases o with
      | none =>
        cases hu
        rfl
      | some p =>
        dsimp only at hu
        split at hu <;> · cases hu; rfl
    · exact ih h

theorem enqueueNextProcess_eq_ok (h : enqueueNextProcess k = .ok k') :
    ∃ p rest, k.readyProcesses = p :: rest ∧ k' = dispatchTo k p rest := by
  cases hr : k.readyProcesses with
  | nil => simp [enqueueNextProcess, hr] at h
  | cons p rest =>
    simp only [enqueueNextProcess, hr, dequeue_cons, Outcome.ok.injEq] at h
    exact ⟨p, rest, rfl, h.symm⟩

/-- The status `proc_ready` is given does not matter: it writes its own. -/
theorem procReady_setStatus (k : Kernel) (p : ProcId) (s : ProcState) :
    procReady (k.setProc p fun q => { q with status := s }) (some p) = procReady k (some p) := by
  simp [procReady, Kernel.setProc, Kernel.kmalloc, Kernel.alloc]

theorem does_pickNext (hC : Common C) (hT : Preempts C k) (hφ : φ.ticking) {rsp : Nat}
    (h : pickNext k rsp = .ok k') : Does C (φ, k) (.run, k') := by
  unfold pickNext at h
  cases hc : k.currentProcess with
  | none =>
    simp only [hc] at h
    split at h
    · cases h
    · obtain ⟨p, rest, hr, rfl⟩ := enqueueNextProcess_eq_ok h
      exact .one (.dispatch hφ (by simp [hc]) hr) (hC _ _ trivial)
  | some c =>
    simp only [hc] at h
    have hq : Quiet k (k.setProc c fun q => { q with stackPointer := rsp }) :=
      .setProc c rfl id
    refine .trans (hq.does hC) ?_
    generalize hk₁ : k.setProc c (fun q => { q with stackPointer := rsp }) = k₁ at h hq ⊢
    have hc₁ : k₁.currentProcess = some c := by rw [hq.current, hc]
    split at h
    · split at h
      · rename_i hs
        cases h
        exact .one (.refill _ hφ hc₁ hs) (hC _ _ trivial)
      · cases h
    · unfold scheduleCurrent at h
      have hq₂ : Quiet k₁ (k₁.setProc c fun q => { q with hasQuantum := q.hasQuantum - 1 }) :=
        .setProc c rfl fun hq => by simp [hq]
      refine .trans (hq₂.does hC) ?_
      generalize k₁.setProc c (fun q => { q with hasQuantum := q.hasQuantum - 1 }) = k₂ at h hq₂ ⊢
      have hc₂ : k₂.currentProcess = some c := by rw [hq₂.current, hc₁]
      simp only at h
      split at h
      · split at h
        · rename_i hs
          rw [procReady_setStatus] at h
          obtain ⟨p, rest, hr, rfl⟩ := enqueueNextProcess_eq_ok h
          exact .one (.preempt hφ hc₂ hs hr) (hT _ _ _ hc)
        · rename_i hs
          obtain ⟨p, rest, hr, rfl⟩ := enqueueNextProcess_eq_ok h
          refine .one (.dispatch hφ ?_ hr) (hC _ _ trivial)
          intro c' hc'
          rw [hc₂] at hc'
          cases hc'
          tauto
      · rename_i hn
        cases h
        exact .one (.stay hφ hc₂ hn) (hC _ _ trivial)

theorem does_callTimerTick {ψ : Phase} (hC : Common C) (hT : Preempts C k) (hψ : ψ.ticking)
    (htick : Micro φ k .tick ψ { k with ticks := (k.ticks + 1) % word })
    (h : callTimerTick k = .ok k') : Does C (φ, k) (.run, k') := by
  simp only [callTimerTick, timerHandler, schedule, Outcome.bind_eq_ok] at h
  obtain ⟨k₁, hw, ⟨k₂, rsp⟩, ⟨k₃, hp, hs⟩, he⟩ := h
  refine .trans (.one htick (hC _ _ trivial)) ?_
  refine .trans (does_wakeDue hC hψ _ _ [] rfl (by simp) hw) ?_
  have hcur := current_wakeDue _ hw
  refine .trans (does_pickNext hC (hT.congr hcur) hψ hp) ?_
  split at hs
  · cases hs
  · cases hs
    cases he
    exact Quiet.does hC (.unwatched rfl rfl rfl rfl rfl id)

/-- The timer interrupt, while nothing else is going on. -/
theorem does_timer (hC : Common C) (hT : Preempts C k) (h : callTimerTick k = .ok k') :
    Does C (.run, k) (.run, k') :=
  does_callTimerTick hC hT (.inl rfl) .tick h

/-- The timer interrupt a process raises that has blocked itself. -/
theorem does_switch (hC : Common C) (hT : Preempts C k) (h : callTimerTick k = .ok k') :
    Does C (.leaving, k) (.run, k') :=
  does_callTimerTick hC hT (.inr rfl) .tickLeaving h

theorem does_yield (hC : Common C) (hT : Preempts C k) (h : yield k = .ok k') :
    Does C (.run, k) (.run, k') := by
  unfold yield at h
  split at h
  · cases h
  · rename_i c _
    have hq : Quiet k (k.setProc c fun q => { q with hasQuantum := 0 }) :=
      .setProc c rfl fun _ => rfl
    exact .trans (hq.does hC) (does_timer hC hT h)

@[simp] theorem suspend_currentProcess (k : Kernel) (w : Pending) :
    (k.suspend w).currentProcess = k.currentProcess := by
  unfold Kernel.suspend
  split <;> rfl

/-- `block` of the current process switches away from it. -/
theorem does_leave (hC : Common C) (hT : Preempts C k) {c : ProcId} {reason : BlockReason} {w : WaitRef}
    {pend : Pending} (hc : k.currentProcess = some c)
    (h : block (k.suspend pend) c reason w = .ok k') :
    Does C (.leaving, leave k c reason w pend) (.run, k') := by
  have hc' : (markBlocked (k.suspend pend) c reason w).currentProcess = some c := by
    show (k.suspend pend).currentProcess = some c
    rw [suspend_currentProcess, hc]
  simp only [block, hc', if_true, yield] at h
  exact does_switch hC (hT.congr (hc'.trans hc.symm)) h

/-! ### Wait queues -/

theorem procReady_setSem (k : Kernel) (o : Option ProcId) (id : Nat) (f : Semaphore → Semaphore) :
    procReady (k.setSem id f) o = (procReady k o).setSem id f := by
  cases o <;> rfl

/-- `proc_ready(dequeue(..))` on a queue of a pipe or of the keyboard. -/
theorem does_serve (hC : Common C) (hφ : φ.serving) (k : Kernel) {w : WaitRef}
    (hw : (∃ pp, w = .pipeReaders pp) ∨ (∃ pp, w = .pipeWriters pp) ∨ w = .keyboard) :
    Does C (φ, k) (φ, procReady (popWaiter k w) (firstWaiter k w)) := by
  cases hf : firstWaiter k w with
  | some p =>
    refine .one (.wake hφ hf) (hC _ _ ?_)
    rcases hw with ⟨pp, rfl⟩ | ⟨pp, rfl⟩ | rfl <;> trivial
  | none =>
    -- an empty queue stays as it is
    refine Quiet.does hC ?_
    have hk : popWaiter k w = k := by
      rcases hw with ⟨pp, rfl⟩ | ⟨pp, rfl⟩ | rfl
      · have he : (k.pipes pp).readersWaitQueue = [] := List.head?_eq_none_iff.mp hf
        rw [popWaiter]
        refine Kernel.setPipe_eq_self k ?_
        rw [he]
        exact congrArg (fun q => { k.pipes pp with readersWaitQueue := q }) he.symm
      · have he : (k.pipes pp).writersWaitQueue = [] := List.head?_eq_none_iff.mp hf
        rw [popWaiter]
        refine Kernel.setPipe_eq_self k ?_
        rw [he]
        exact congrArg (fun q => { k.pipes pp with writersWaitQueue := q }) he.symm
      · have he : k.keyboardQueue = [] := List.head?_eq_none_iff.mp hf
        rw [popWaiter, he]
        exact congrArg (fun q => { k with keyboardQueue := q }) he.symm
    rw [hk]
    exact .refl k

/-- `block_current` of a process that has just linked itself into `w`. -/
theorem does_blockCurrent (hC : Common C) (hT : Preempts C k) {c : ProcId} {reason : BlockReason} (w : WaitRef)
    (pend : Pending) (hc : k.currentProcess = some c) (hw : BlocksOn reason w pend)
    (hallow : C k (.blockSelf c w pend))
    (h : blockCurrent ((linkWaiter k w c).suspend pend) reason w = .ok k') :
    Does C (.run, k) (.run, k') := by
  have hc' : (linkWaiter k w c).currentProcess = some c := by
    cases w <;> exact hc
  simp only [blockCurrent, suspend_currentProcess, hc'] at h
  exact .trans (.one (.blockSelf reason pend hc hw) hallow)
    (does_leave hC (hT.congr (hc'.trans hc.symm)) hc' h)

/-- The same for a process that waits on no queue. -/
theorem does_blockCurrent_null (hC : Common C) (hT : Preempts C k) {c : ProcId} {reason : BlockReason}
    {pend : Pending} (hc : k.currentProcess = some c) (hw : BlocksOn reason .null pend)
    (hallow : C k (.blockSelf c .null pend))
    (h : blockCurrent (k.suspend pend) reason .null = .ok k') : Does C (.run, k) (.run, k') :=
  does_blockCurrent hC hT .null pend hc hw hallow h

/-! ### Descriptors -/

theorem setFd_procReady (k : Kernel) (o : Option ProcId) (p : ProcId) (i : Fin fdMax)
    (e : FdEntry) : setFd (procReady k o) p i e = procReady (setFd k p i e) o := by
  cases o with
  | none => rfl
  | some q =>
    by_cases hq : q = p
    · subst hq
      simp [setFd, procReady, Kernel.setProc, Kernel.kmalloc, Kernel.alloc]
    · simp [setFd, procReady, Kernel.setProc, Kernel.kmalloc, Kernel.alloc, hq, Ne.symm hq,
        Function.update_comm hq]

theorem setFd_wakeReaders (p : ProcId) (i : Fin fdMax) (e : FdEntry) (pp : PipeId) (n : Nat) :
    ∀ k : Kernel, setFd (wakeReaders k pp n) p i e = wakeReaders (setFd k p i e) pp n := by
  induction n with
  | zero => intro k; rfl
  | succ n ih =>
    intro k
    rw [wakeReaders, wakeReaders, ih]
    show wakeReaders (setFd (procReady _ _) p i e) pp n = _
    rw [setFd_procReady]
    rfl

theorem setFd_freeUnreferenced (k : Kernel) (pp : PipeId) (p : ProcId) (i : Fin fdMax)
    (e : FdEntry) :
    setFd (freeUnreferenced k pp) p i e = freeUnreferenced (setFd k p i e) pp := by
  show _ = if (k.pipes pp).readers = 0 ∧ (k.pipes pp).writers = 0 then
    pipeFree (setFd k p i e) pp else setFd k p i e
  unfold freeUnreferenced
  split <;> rfl

theorem current_procReady (k : Kernel) (o : Option ProcId) :
    (procReady k o).currentProcess = k.currentProcess := by
  cases o <;> rfl

theorem current_wakeReaders (pp : PipeId) (n : Nat) : ∀ k : Kernel,
    (wakeReaders k pp n).currentProcess = k.currentProcess := by
  induction n with
  | zero => exact fun _ => rfl
  | succ n ih => exact fun k => (ih (wakeFirstReader k pp)).trans (current_procReady _ _)

theorem current_closeSlot (k : Kernel) (p : ProcId) (i : Fin fdMax) :
    (closeSlot k p i).currentProcess = k.currentProcess := by
  have hfree : ∀ k pp, (freeUnreferenced k pp).currentProcess = k.currentProcess := by
    intro k pp
    unfold freeUnreferenced
    split <;> rfl
  show (fdClose k ((k.procs p).fds i)).currentProcess = k.currentProcess
  unfold fdClose
  split
  · exact hfree _ _
  · refine (hfree _ _).trans ?_
    split
    · exact current_wakeReaders _ _ _
    · rfl
  · rfl

theorem current_closeFds (p : ProcId) (is : List (Fin fdMax)) : ∀ k : Kernel,
    (closeFds k p is).currentProcess = k.currentProcess := by
  induction is with
  | nil => exact fun _ => rfl
  | cons i is ih => exact fun k => (ih (closeSlot k p i)).trans (current_closeSlot k p i)

theorem does_wakeReaders (hC : Common C) (hφ : φ.serving) (pp : PipeId) (n : Nat) :
    ∀ k : Kernel, Does C (φ, k) (φ, wakeReaders k pp n) := by
  induction n with
  | zero => intro k; exact .refl _
  | succ n ih =>
    intro k
    exact .trans (does_serve hC hφ k (.inl ⟨pp, rfl⟩)) (ih _)

theorem does_freeUnreferenced (hC : Common C) (hφ : φ.serving) (k : Kernel) (pp : PipeId) :
    Does C (φ, k) (φ, freeUnreferenced k pp) := by
  unfold freeUnreferenced
  split
  · rename_i h
    exact .one (.freeUnref hφ h.1 h.2) (hC _ _ trivial)
  · exact .refl _

/-- Closing a slot: the reference goes first, then the readers are woken, then the pipe is
    released if that was its last reference. -/
theorem does_closeSlot (hC : Common C) (hφ : φ.serving) (k : Kernel) (p : ProcId)
    (i : Fin fdMax) : Does C (φ, k) (φ, closeSlot k p i) := by
  by_cases href : ∃ ops pp, ((k.procs p).fds i).refers ops pp
  · obtain ⟨ops, pp, hops, ho, hr⟩ := href
    have hdrop : Does C (φ, k) (φ, subRef (setFd k p i {}) ops pp) :=
      .one (.dropRef hφ ⟨hops, ho, hr⟩) (hC _ _ trivial)
    cases ops with
    | pipeRead =>
      have hk : closeSlot k p i = freeUnreferenced (subRef (setFd k p i {}) .pipeRead pp) pp := by
        simp only [closeSlot, fdClose, ho, hr, pipeCloseRead, setFd_freeUnreferenced]
        rfl
      rw [hk]
      exact hdrop.trans (does_freeUnreferenced hC hφ _ pp)
    | pipeWrite =>
      simp only [closeSlot, fdClose, ho, hr, pipeCloseWrite, setFd_freeUnreferenced]
      refine .trans ?_ (does_freeUnreferenced hC hφ _ pp)
      split
      · rw [setFd_wakeReaders]
        exact hdrop.trans (does_wakeReaders hC hφ pp _ _)
      · exact hdrop
    | keyboard => exact hops.elim
    | video => exact hops.elim
    | videoErr => exact hops.elim
  · have hk : closeSlot k p i = setFd k p i {} := by
      unfold closeSlot fdClose
      split
      · rename_i pp ho hr
        exact (href ⟨.pipeRead, pp, trivial, ho, hr⟩).elim
      · rename_i pp ho hr
        exact (href ⟨.pipeWrite, pp, trivial, ho, hr⟩).elim
      · rfl
    rw [hk]
    exact .one (.clearSlot hφ fun ops pp h => href ⟨ops, pp, h⟩) (hC _ _ trivial)

theorem does_closeFds (hC : Common C) (hφ : φ.serving) (p : ProcId) (is : List (Fin fdMax)) :
    ∀ k : Kernel, Does C (φ, k) (φ, closeFds k p is) := by
  induction is with
  | nil => intro k; exact .refl _
  | cons i is ih =>
    intro k
    exact .trans (does_closeSlot hC hφ k p i) (ih _)

end TpeSo
