import TpeSo.Pipes.Waiting
import TpeSo.Sched.Finality

namespace TpeSo

open Ds Lib

/-!
# Scheduling — what a kill unlinks

A blocked process is linked in `blocked_processes` and in the queue of what it waits for;
`proc_kill` unlinks it from the one queue `waiting_on` names.

* `Nowhere k p` — `p` is in no queue of the kernel;
* `Unlinks k p` — the queue `waiting_on` names is the only place `p` is linked in;
* `Nowhere.closeSlot_iff`, `Nowhere.killNotify_iff`, … — the rest of `proc_kill` links `p`
  nowhere, and unlinks it from nothing;
* `procKill_nowhere` — **a kill removes `p` from every queue exactly when `Unlinks` holds**;
* `Part.unlinks_iff` — while the scheduler's books are in order, that is whenever `p` is not
  `BLOCKED`.
-/

variable {k k' : Kernel} {p q : ProcId} {pp : PipeId}

/-- `p` is in no queue of the kernel. -/
structure Nowhere (k : Kernel) (p : ProcId) : Prop where
  ready : p ∉ k.readyProcesses
  blocked : p ∉ k.blockedProcesses
  semaphore : ∀ id, some p ∉ (k.semaphores id).waitingQueue
  readers : ∀ pp, p ∉ (k.pipes pp).readersWaitQueue
  writers : ∀ pp, p ∉ (k.pipes pp).writersWaitQueue
  keyboard : p ∉ k.keyboardQueue

/-- `p` is linked in the queue `waiting_on` names at most, there once, and that is not the
    queue of a semaphore. -/
structure Unlinks (k : Kernel) (p : ProcId) : Prop where
  blocked : p ∉ k.blockedProcesses
  named : ∀ w, p ∈ waiters k w → w = (k.procs p).waitingOn
  noSemaphore : ∀ id, p ∉ waiters k (.semaphore id)
  once : (waiters k (k.procs p).waitingOn).count p ≤ 1

namespace Nowhere

theorem iff_waiters : Nowhere k p ↔ p ∉ k.blockedProcesses ∧ ∀ w, p ∉ waiters k w := by
  constructor
  · intro h
    refine ⟨h.blocked, fun w => ?_⟩
    cases w with
    | null => exact List.not_mem_nil
    | readyQueue => exact h.ready
    | semaphore id =>
      intro hp
      exact h.semaphore id (List.reduceOption_mem_iff.mp hp)
    | pipeReaders pp => exact h.readers pp
    | pipeWriters pp => exact h.writers pp
    | sleepers => exact List.not_mem_nil
    | keyboard => exact h.keyboard
  · rintro ⟨hb, hw⟩
    exact ⟨hw .readyQueue, hb, fun id hp => hw (.semaphore id) (List.reduceOption_mem_iff.mpr hp),
      fun pp => hw (.pipeReaders pp), fun pp => hw (.pipeWriters pp), hw .keyboard⟩

theorem congr (h : Nowhere k p) (hb : k'.blockedProcesses = k.blockedProcesses)
    (hw : ∀ w, waiters k' w = waiters k w) : Nowhere k' p := by
  obtain ⟨hblocked, hwaiters⟩ := iff_waiters.mp h
  refine iff_waiters.mpr ⟨by rwa [hb], fun w => ?_⟩
  rw [hw]
  exact hwaiters w

end Nowhere

theorem Unlinks.congr (h : Unlinks k p) (hb : k'.blockedProcesses = k.blockedProcesses)
    (hw : ∀ w, waiters k' w = waiters k w)
    (ho : (k'.procs p).waitingOn = (k.procs p).waitingOn) : Unlinks k' p where
  blocked := by
    rw [hb]
    exact h.blocked
  named w hp := by
    rw [hw] at hp
    rw [ho]
    exact h.named w hp
  noSemaphore id := by
    rw [hw]
    exact h.noSemaphore id
  once := by
    rw [ho, hw]
    exact h.once

/-! ### The first part of `proc_kill` -/

/-- **Burying `p` unlinks it** exactly when `waiting_on` names the only place it is in. -/
theorem nowhere_bury (code : Int) : Nowhere (bury k p code) p ↔ Unlinks k p := by
  have hwaitOn : ((rmCurrent k p).procs p).waitingOn = (k.procs p).waitingOn := by
    rw [rmCurrent_procs]
  have hblocked : (bury k p code).blockedProcesses = k.blockedProcesses := by
    show (unlinkWaiting (rmCurrent k p) p).blockedProcesses = _
    unfold unlinkWaiting rmCurrent
    split <;> split <;> rfl
  have hself : (∀ id, (k.procs p).waitingOn ≠ .semaphore id) →
      waiters (bury k p code) (k.procs p).waitingOn =
        (waiters k (k.procs p).waitingOn).erase p := by
    intro hsem
    rw [waiters_bury, waiters_unlinkWaiting_self _ p hwaitOn hsem, waiters_rmCurrent]
  have hother : ∀ w, w ≠ (k.procs p).waitingOn ∨ (∃ id, (k.procs p).waitingOn = .semaphore id) →
      waiters (bury k p code) w = waiters k w := by
    intro w hw
    rw [waiters_bury, waiters_unlinkWaiting_ne _ p hwaitOn hw, waiters_rmCurrent]
  rw [Nowhere.iff_waiters, hblocked]
  constructor
  · rintro ⟨hb, hw⟩
    refine ⟨hb, fun w hp => ?_, fun id hp => ?_, ?_⟩
    · by_contra hne
      exact hw w (by rwa [hother w (.inl hne)])
    · refine hw (.semaphore id) ?_
      by_cases hid : WaitRef.semaphore id = (k.procs p).waitingOn
      · rwa [hother _ (.inr ⟨id, hid.symm⟩)]
      · rwa [hother _ (.inl hid)]
    · have hp := hw (k.procs p).waitingOn
      by_cases hsem : ∃ id, (k.procs p).waitingOn = .semaphore id
      · rw [hother _ (.inr hsem)] at hp
        rw [List.count_eq_zero_of_not_mem hp]
        exact Nat.zero_le 1
      · rw [hself fun id hid => hsem ⟨id, hid⟩, ← List.count_pos_iff, List.count_erase_self] at hp
        omega
  · intro h
    refine ⟨h.blocked, fun w hp => ?_⟩
    by_cases hsem : ∃ id, (k.procs p).waitingOn = .semaphore id
    · rw [hother w (.inr hsem)] at hp
      obtain ⟨id, hid⟩ := hsem
      rw [h.named w hp, hid] at hp
      exact h.noSemaphore id hp
    · by_cases hw : w = (k.procs p).waitingOn
      · subst hw
        -- `p` was there at most once, and that node is dropped
        rw [hself fun id hid => hsem ⟨id, hid⟩, ← List.count_pos_iff, List.count_erase_self] at hp
        have honce := h.once
        omega
      · rw [hother w (.inl hw)] at hp
        exact hw (h.named w hp)

theorem nowhere_killUnlink (code : Int) : Nowhere (killUnlink k p code) p ↔ Unlinks k p := by
  have hq := (Quiet.setForegroundProcess k (k.procs p).parent (some p)).toCalm
  show Nowhere (bury (setForegroundProcess k (k.procs p).parent (some p)) p code) p ↔ _
  rw [nowhere_bury]
  exact ⟨fun h => h.congr hq.blocked.symm (fun w => (hq.waiters w).symm) (hq.waitingOn p).symm,
    fun h => h.congr hq.blocked hq.waiters (hq.waitingOn p)⟩

/-! ### The rest of `proc_kill` -/

/-- On the way from `k` to `k'` nothing links `p` or changes its status unless it is linked,
    and with a heap that never runs out nothing unlinks it from its last queue. -/
structure Neutral (p : ProcId) (k k' : Kernel) : Prop where
  keeps : Nowhere k p → Nowhere k' p ∧ (k'.procs p).status = (k.procs p).status
  loses : k.HeapOk → Nowhere k' p → Nowhere k p
  heap : k.HeapOk → k'.HeapOk

namespace Neutral

variable {k₁ k₂ : Kernel}

theorem refl (k : Kernel) : Neutral p k k := ⟨fun h => ⟨h, rfl⟩, fun _ => id, id⟩

theorem trans (h : Neutral p k k₁) (g : Neutral p k₁ k₂) : Neutral p k k₂ where
  keeps hn :=
    have h₁ := h.keeps hn
    have h₂ := g.keeps h₁.1
    ⟨h₂.1, h₂.2.trans h₁.2⟩
  loses hheap hn := h.loses hheap (g.loses (h.heap hheap) hn)
  heap hheap := g.heap (h.heap hheap)

theorem of_congr (hb : k'.blockedProcesses = k.blockedProcesses)
    (hw : ∀ w, waiters k' w = waiters k w) (hs : (k'.procs p).status = (k.procs p).status)
    (hheap : k.HeapOk → k'.HeapOk) : Neutral p k k' where
  keeps h := ⟨h.congr hb hw, hs⟩
  loses _ h := h.congr hb.symm fun w => (hw w).symm
  heap := hheap

theorem of_calm (hq : Calm k k') : Neutral p k k' :=
  .of_congr hq.blocked hq.waiters (hq.status p) hq.heap

/-- An edit of a pipe that spares its wait queues. -/
theorem setPipe (pp : PipeId) {f : Pipe → Pipe}
    (hr : (f (k.pipes pp)).readersWaitQueue = (k.pipes pp).readersWaitQueue)
    (hw : (f (k.pipes pp)).writersWaitQueue = (k.pipes pp).writersWaitQueue) :
    Neutral p k (k.setPipe pp f) := by
  refine .of_congr rfl (fun w => ?_) rfl id
  cases w with
  | pipeReaders i => exact k.setPipe_spares Pipe.readersWaitQueue hr i
  | pipeWriters i => exact k.setPipe_spares Pipe.writersWaitQueue hw i
  | _ => rfl

/-- With a heap that never runs out, `proc_ready` links its process and unlinks nobody
    else. -/
theorem procReady_loses (hheap : k.HeapOk) (h : Nowhere (procReady k (some q)) p) :
    q ≠ p ∧ Nowhere k p := by
  have hready := h.ready
  have hblocked := h.blocked
  rw [procReady_ready, hheap.kmalloc, enqueue_true, List.mem_append, not_or,
    List.mem_singleton] at hready
  rw [procReady_blocked] at hblocked
  have hqp : q ≠ p := fun he => hready.2 he.symm
  exact ⟨hqp, hready.1, fun hp => hblocked ((List.mem_erase_of_ne hqp.symm).mpr hp), h.semaphore,
    h.readers, h.writers, h.keyboard⟩

/-- `proc_ready` of another process. -/
theorem procReady (hq : q ≠ p) : Neutral p k (procReady k (some q)) where
  keeps h := by
    refine ⟨⟨fun hp => ?_, fun hp => h.blocked (mem_of_mem_queueRemove hp), h.semaphore,
      h.readers, h.writers, h.keyboard⟩, by rw [procReady_procs_ne k hq.symm]⟩
    rcases mem_of_mem_enqueue hp with hp | rfl
    · exact h.ready hp
    · exact hq rfl
  loses hheap h := (procReady_loses hheap h).2
  heap hheap := hheap.alloc

/-- One round of the loop of `pipe_close_write`. -/
theorem wakeFirstReader (k : Kernel) (pp : PipeId) : Neutral p k (wakeFirstReader k pp) := by
  unfold TpeSo.wakeFirstReader
  cases hq : (k.pipes pp).readersWaitQueue with
  | nil =>
    have hk : (k.setPipe pp fun q => { q with readersWaitQueue := (dequeue ([] : List ProcId)).2 }) =
        k := k.setPipe_eq_self (by rw [dequeue_nil, ← hq])
    rw [dequeue_nil] at hk ⊢
    dsimp only [TpeSo.procReady]
    rw [hk]
    exact .refl k
  | cons x rest =>
    rw [dequeue_cons]
    dsimp only
    have hqueue : ∀ i, ((k.setPipe pp fun q => { q with readersWaitQueue := rest }).pipes
        i).readersWaitQueue = if i = pp then rest else (k.pipes i).readersWaitQueue := by
      intro i
      by_cases hi : i = pp
      · subst hi
        simp [Kernel.setPipe]
      · simp [Kernel.setPipe, hi]
    have hwrite : ∀ i, ((k.setPipe pp fun q => { q with readersWaitQueue := rest }).pipes
        i).writersWaitQueue = (k.pipes i).writersWaitQueue :=
      k.setPipe_spares Pipe.writersWaitQueue rfl
    by_cases hx : x = p
    · -- `p` itself is woken: it was linked, and it is linked
      subst hx
      refine ⟨fun h => ?_, fun hheap h => ?_, fun hheap => hheap.alloc⟩
      · exact absurd (h.readers pp) (by rw [hq]; simp)
      · exact absurd rfl (procReady_loses (k := k.setPipe pp _) hheap h).1
    · have hpop : Neutral p k (k.setPipe pp fun q => { q with readersWaitQueue := rest }) := by
        refine ⟨fun h => ⟨⟨h.ready, h.blocked, h.semaphore, fun i => ?_, fun i => ?_,
          h.keyboard⟩, rfl⟩, fun _ h => ⟨h.ready, h.blocked, h.semaphore, fun i => ?_,
          fun i => ?_, h.keyboard⟩, id⟩
        · have hi := h.readers i
          rw [hqueue]
          split
          · rename_i hip
            rw [hip, hq, List.mem_cons, not_or] at hi
            exact hi.2
          · exact hi
        · rw [hwrite]
          exact h.writers i
        · have hi := h.readers i
          rw [hqueue] at hi
          split at hi
          · rename_i hip
            rw [hip, hq, List.mem_cons, not_or]
            exact ⟨Ne.symm hx, hi⟩
          · exact hi
        · have hi := h.writers i
          rwa [hwrite] at hi
      exact hpop.trans (procReady hx)

theorem wakeReaders (pp : PipeId) (n : Nat) : ∀ k : Kernel,
    Neutral p k (wakeReaders k pp n) := by
  induction n with
  | zero => exact refl
  | succ n ih => exact fun k => (wakeFirstReader k pp).trans (ih _)

/-- A pipe without writers whose queues are in order is released with nobody waiting. -/
theorem freeUnreferenced (h : WaitsOk k) (pp : PipeId) : Neutral p k (freeUnreferenced k pp) := by
  unfold TpeSo.freeUnreferenced
  split
  · rename_i hfree
    refine setPipe pp ?_ (h pp).writers.symm
    by_contra hne
    exact absurd ((h pp).readers fun hnil => hne hnil.symm) (by omega)
  · exact .refl k

theorem pipeCloseRead (h : WaitsOk k) (pp : PipeId) : Neutral p k (pipeCloseRead k pp) :=
  (setPipe pp rfl rfl).trans
    (freeUnreferenced (h.setPipe pp ⟨(h pp).readers, (h pp).writers⟩) pp)

theorem pipeCloseWrite (h : WaitsOk k) (pp : PipeId) : Neutral p k (pipeCloseWrite k pp) := by
  refine .trans ?_ (freeUnreferenced (h.dropWriter pp) pp)
  have hdrop : Neutral p k (k.setPipe pp fun q => { q with writers := q.writers - 1 }) :=
    setPipe pp rfl rfl
  split
  · exact hdrop.trans (wakeReaders pp _ _)
  · exact hdrop

theorem closeSlot (h : WaitsOk k) (d : ProcId) (i : Fin fdMax) :
    Neutral p k (closeSlot k d i) := by
  have hset : ∀ k₁ : Kernel, Neutral p k₁ (setFd k₁ d i {}) := fun k₁ =>
    .of_congr rfl (fun w => by cases w <;> rfl) (k₁.setProc_spares Proc.status rfl p) id
  refine .trans ?_ (hset _)
  unfold fdClose
  split
  · exact pipeCloseRead h _
  · exact pipeCloseWrite h _
  · exact .refl k

theorem closeFds (d : ProcId) (is : List (Fin fdMax)) :
    ∀ {k : Kernel}, WaitsOk k → Neutral p k (closeFds k d is) := by
  induction is with
  | nil => exact fun _ => .refl _
  | cons i is ih => exact fun h => (closeSlot h d i).trans (ih (h.closeSlot d i))

end Neutral

/-! ### The whole of `proc_kill` -/

/-- **Kill and the queues.**  In every reachable kernel, for every process that `proc_kill`
    does not spare: if `waiting_on` names the only queue it is linked in, it is in no queue
    afterwards; and with a heap that never runs out, only then. -/
theorem procKill_nowhere {f : Nat → Bool} {ok : Kernel → Event → Prop}
    {tr : List (Kernel × Event × Option Completion)} (h : Run f ok tr k) {code : Int}
    (hpid : (k.procs p).pid ≠ 0 ∧ (k.procs p).pid ≠ 1) (hk : procKill k (some p) code = .ok k') :
    (Unlinks k p → Nowhere k' p) ∧ (k.HeapOk → Nowhere k' p → Unlinks k p) := by
  obtain ⟨k₃, hr, hn⟩ := procKill_eq_ok (not_or.mpr hpid) hk
  have hwaits := (waitsOk_run h).killUnlink p code
  have hclose : Neutral p (killUnlink k p code) k₃ :=
    (Neutral.closeFds p _ hwaits).trans (.of_calm (Quiet.reparentAll _ hr).toCalm)
  have hzombie : ((killUnlink k p code).procs p).status = .zombie := by
    simp [killUnlink]
  have hheap : k.HeapOk → (killUnlink k p code).HeapOk := by
    intro hheap
    have hfg := (Quiet.setForegroundProcess k (k.procs p).parent (some p)).heap hheap
    show (unlinkWaiting (rmCurrent _ p) p).HeapOk
    unfold unlinkWaiting rmCurrent
    split <;> split <;> exact hfg
  unfold killNotify at hn
  constructor
  · intro hu
    obtain ⟨hnow, hs⟩ := hclose.keeps ((nowhere_killUnlink code).mpr hu)
    split at hn
    · rw [procReap_eq_ok hn]
      exact hnow.congr rfl fun w => by cases w <;> rfl
    · split at hn
      · rename_i q _ hq
        cases hn
        have hqp : q ≠ p := by
          rintro rfl
          rw [hs, hzombie] at hq
          exact absurd hq.1 (by decide)
        exact ((Neutral.procReady hqp).keeps hnow).1
      · cases hn
        exact hnow
  · intro hmem hnow
    refine (nowhere_killUnlink code).mp (hclose.loses (hheap hmem) ?_)
    split at hn
    · rw [procReap_eq_ok hn] at hnow
      exact hnow.congr rfl fun w => by cases w <;> rfl
    · split at hn
      · cases hn
        exact (Neutral.procReady_loses (hclose.heap (hheap hmem)) hnow).2
      · cases hn
        exact hnow

/-- **Which processes are unlinked**: while the books of the scheduler are in order, all but
    the `BLOCKED` ones. -/
theorem Part.unlinks_iff (h : Part .run k) :
    Unlinks k p ↔ (k.procs p).status ≠ .blocked := by
  constructor
  · exact fun hu hb => hu.blocked ((h.blocked p).mpr hb)
  · intro hs
    have hclean : CleanKill k p := by
      refine h.cleanKill_iff.mpr fun id hmem => hs ?_
      exact (h.waiting _ (by simp) p hmem).1
    exact ⟨fun hmem => hs ((h.blocked p).mp hmem), hclean.named, hclean.noSemaphore, hclean.once⟩

/-- `idle`, `init` and a child that waits to run. -/
def readyChildEvents : List Event :=
  [.sysSpawn { entry := some 1, fds := none, background := false }, .timer,
   .sysSpawn { entry := some 2, fds := none, background := true },
   .sysSpawn { entry := some 3, fds := none, background := true }]

/-- The child is killed where it waits to run. -/
theorem procKill_nowhere_ready : ∃ tr k k', Run (fun _ => true) SchedStep tr k ∧
    procKill k (some 2) 137 = .ok k' ∧ 2 ∈ k.readyProcesses ∧ Nowhere k' 2 := by
  have hcheck : execCheck step SchedStep
      (fun _ k => (procKill k (some 2) 137).toOption.isSome && decide (2 ∈ k.readyProcesses) &&
        decide ((k.procs 2).status ≠ .blocked ∧ (k.procs 2).pid = 2))
      (boot fun _ => true) readyChildEvents = true := by decide +kernel
  obtain ⟨tr, k, hrun, hQ⟩ := Trace.of_execCheck hcheck
  simp only [Bool.and_eq_true, decide_eq_true_eq] at hQ
  obtain ⟨⟨hkill, hready⟩, hs, hpid⟩ := hQ
  obtain ⟨k', hk'⟩ := Option.isSome_iff_exists.mp hkill
  have hkill := Outcome.toOption_eq_some.mp hk'
  have hpart : Part .run k :=
    hrun.invariant (Part .run) (.boot fun _ => rfl) fun _ _ _ _ hI hok hs => hI.step hok hs
  exact ⟨tr, k, k', hrun, hkill, hready,
    (procKill_nowhere hrun (by rw [hpid]; decide) hkill).1 (hpart.unlinks_iff.mpr hs)⟩

/-- The child waits on a semaphore instead. -/
def waitingChildEvents : List Event :=
  readyChildEvents ++ [.sysCreateSem 5 0, .sysYield, .sysYield, .sysSemWait 5]

/-- **Killed where it waits, the child stays** in `blocked_processes` and in the queue of its
    semaphore. -/
theorem procKill_blocked : ∃ tr k k', Run (fun _ => true) (fun _ _ => True) tr k ∧
    (k.procs 2).pid = 2 ∧ procKill k (some 2) 137 = .ok k' ∧ 2 ∈ k'.blockedProcesses ∧
    some 2 ∈ (k'.semaphores 5).waitingQueue ∧ ¬ Nowhere k' 2 := by
  have hcheck : execCheck step (fun _ _ => True)
      (fun _ k => decide ((k.procs 2).pid = 2) &&
        decide ((procKill k (some 2) 137).toOption.map
          (fun k' => decide (2 ∈ k'.blockedProcesses ∧ some 2 ∈ (k'.semaphores 5).waitingQueue))
            = some true))
      (boot fun _ => true) waitingChildEvents = true := by decide +kernel
  obtain ⟨tr, k, hrun, hQ⟩ := Trace.of_execCheck hcheck
  rw [Bool.and_eq_true, decide_eq_true_eq, decide_eq_true_eq] at hQ
  obtain ⟨k', hk', hmem⟩ := Option.map_eq_some_iff.mp hQ.2
  rw [decide_eq_true_eq] at hmem
  exact ⟨tr, k, k', hrun, hQ.1, Outcome.toOption_eq_some.mp hk', hmem.1, hmem.2,
    fun hn => hn.blocked hmem.1⟩

end TpeSo
