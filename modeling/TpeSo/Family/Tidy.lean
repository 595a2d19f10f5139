import TpeSo.Acts.Stack
import TpeSo.Sched.Born
import TpeSo.Sched.Finality

namespace TpeSo

open Ds Lib

/-!
# Family — runs of spawns, exits, kills and waits

In a run in which processes are spawned, exit, are killed, wait for their children and give
up the processor, nobody waits for a semaphore or sleeps.  Then every kill finds the one
queue its victim is in, without any assumption on `kmalloc`.

* `familyEvent` — the entries of such a run;
* `Tidy φ k` — whoever is in a queue has the status that goes with it;
* `Micro.tidy` — every edit of such an entry keeps this;
* `Tidy.cleanKill` — every kill is clean, so `termination_final` applies;
* `settled_run` — both, for every run.
-/

variable {f : Nat → Bool} {ok : Kernel → Event → Prop} {φ ψ : Phase} {k k' k₀ : Kernel}
  {e : Event} {o : Option Completion} {p q c : ProcId} {w : WaitRef}
  {tr : List (Kernel × Event × Option Completion)}

/-- Spawns, exits, kills (also by Ctrl-C), waits for children, and what moves the processor. -/
def familyEvent : Event → Bool
  | .timer | .key _ | .user _ | .resume | .sysSpawn _ | .sysKillProc _ | .sysExit _
  | .sysWaitPid _ | .sysWait | .sysYield => true
  | _ => false

/-- What is known of the process that has the processor. -/
def CurrentTidy (φ : Phase) (k : Kernel) (c : ProcId) : Prop :=
  match φ with
  | .leaving | .switching => (k.procs c).status = .blocked ∧ (k.procs c).hasQuantum = 0
  | _ => (k.procs c).status = .running

/-- Whoever is in a queue is in it once, and has the status that goes with it; nobody waits
    on a semaphore or sleeps. -/
structure Tidy (φ : Phase) (k : Kernel) : Prop where
  ready : ∀ p ∈ k.readyProcesses, (k.procs p).status = .ready ∧ (k.procs p).waitingOn = .readyQueue
  readyNodup : k.readyProcesses.Nodup
  waiting : ∀ w, w ≠ .readyQueue → ∀ p ∈ waiters k w,
    (k.procs p).status = .blocked ∧ (k.procs p).waitingOn = w
  waitNodup : ∀ w, w ≠ .readyQueue → (waiters k w).Nodup
  noSemaphore : ∀ id, waiters k (.semaphore id) = []
  noSleeper : k.sleepingProcs = []
  /-- Who waits for a child is in no queue. -/
  child : ∀ p, (k.procs p).status = .blocked → (k.procs p).blockReason = .child →
    (k.procs p).waitingOn = .null
  current : ∀ c, k.currentProcess = some c → CurrentTidy φ k c
  spawning : ∀ p slot, φ = .spawning p slot → (k.procs p).status = .dead

namespace Tidy

/-- A process whose status goes with no queue is in none. -/
theorem notMem_waiters (h : Tidy φ k) (hr : (k.procs p).status ≠ .ready)
    (hb : (k.procs p).status ≠ .blocked) (w : WaitRef) : p ∉ waiters k w := by
  intro hp
  by_cases hw : w = .readyQueue
  · subst hw
    exact hr (h.ready p hp).1
  · exact hb (h.waiting w hw p hp).1

/-- A process in a wait queue is not in the ready queue. -/
theorem notMem_ready_of_waiter (h : Tidy φ k) (hw : w ≠ .readyQueue) (hp : p ∈ waiters k w) :
    p ∉ k.readyProcesses := by
  intro hr
  have hs := (h.ready p hr).1
  rw [(h.waiting w hw p hp).1] at hs
  cases hs

/-- **Every kill is clean.** -/
theorem cleanKill (h : Tidy .run k) (p : ProcId) : CleanKill k p := by
  refine ⟨fun w hp => ?_, fun id => ?_, ?_, fun hc => h.current p hc⟩
  · by_cases hw : w = .readyQueue
    · subst hw
      exact (h.ready p hp).2.symm
    · exact (h.waiting w hw p hp).2.symm
  · rw [h.noSemaphore id]
    exact List.not_mem_nil
  · by_cases hw : (k.procs p).waitingOn = .readyQueue
    · rw [hw]
      exact List.nodup_iff_count_le_one.mp h.readyNodup p
    · exact List.nodup_iff_count_le_one.mp (h.waitNodup _ hw) p

/-- An edit that the scheduler sees as a loss of members of wait queues at most. -/
theorem of_schedView (h : Tidy φ k) (s : SchedView k k')
    (hcur : ∀ c, k.currentProcess = some c → CurrentTidy ψ k' c)
    (hψ : ∀ p slot, ψ = .spawning p slot → (k.procs p).status = .dead) : Tidy ψ k' where
  ready p hp := by
    rw [s.status, s.waitingOn]
    exact h.ready p (s.ready ▸ hp)
  readyNodup := by
    rw [s.ready]
    exact h.readyNodup
  waiting w hw p hp := by
    rw [s.status, s.waitingOn]
    exact h.waiting w hw p ((s.waiters w).subset hp)
  waitNodup w hw := (s.waiters w).nodup (h.waitNodup w hw)
  noSemaphore id := List.sublist_nil.mp (h.noSemaphore id ▸ s.waiters (.semaphore id))
  noSleeper := s.sleepers.trans h.noSleeper
  child p := by
    rw [s.status, s.blockReason, s.waitingOn]
    exact h.child p
  current c hc := hcur c (s.current ▸ hc)
  spawning p slot hp := by
    rw [s.status]
    exact hψ p slot hp

theorem of_schedSame (h : Tidy φ k) (s : SchedSame k k') : Tidy φ k' := by
  refine h.of_schedView s.toSchedView (fun c hc => ?_) h.spawning
  have hcur := h.current c hc
  unfold CurrentTidy at hcur ⊢
  split at hcur
  · rw [s.status]
    exact ⟨hcur.1, s.quantum c hcur.2⟩
  · rw [s.status]
    exact ⟨hcur.1, s.quantum c hcur.2⟩
  · rw [s.status]
    exact hcur

/-- An edit that moves nobody. -/
theorem same (h : Tidy φ k) (hprocs : k'.procs = k.procs) (hw : ∀ w, waiters k' w = waiters k w)
    (hsleep : k'.sleepingProcs = k.sleepingProcs)
    (hcur : ∀ c, k'.currentProcess = some c → CurrentTidy ψ k' c)
    (hψ : ∀ d slot, ψ = .spawning d slot → (k.procs d).status = .dead) : Tidy ψ k' where
  ready p hp := by
    have hp' : p ∈ waiters k .readyQueue := hw .readyQueue ▸ hp
    rw [hprocs]
    exact h.ready p hp'
  readyNodup := by
    have hr : k'.readyProcesses = k.readyProcesses := hw .readyQueue
    rw [hr]
    exact h.readyNodup
  waiting w hne p hp := by
    rw [hprocs]
    exact h.waiting w hne p (hw w ▸ hp)
  waitNodup w hne := (hw w).symm ▸ h.waitNodup w hne
  noSemaphore id := (hw _).trans (h.noSemaphore id)
  noSleeper := hsleep.trans h.noSleeper
  child := by
    rw [hprocs]
    exact h.child
  current := hcur
  spawning d slot hd := by
    rw [hprocs]
    exact hψ d slot hd

/-- **One process changes.**  The others keep their fields and their places. -/
theorem change (h : Tidy φ k) (p : ProcId) (hother : ∀ q, q ≠ p → k'.procs q = k.procs q)
    (hready : ∀ q ∈ k'.readyProcesses, q ∈ k.readyProcesses ∨ q = p)
    (hpready : p ∈ k'.readyProcesses →
      (k'.procs p).status = .ready ∧ (k'.procs p).waitingOn = .readyQueue)
    (hreadyNodup : k'.readyProcesses.Nodup)
    (hwait : ∀ w, w ≠ .readyQueue → ∀ q ∈ waiters k' w, q ∈ waiters k w ∨ q = p)
    (hpwait : ∀ w, w ≠ .readyQueue → p ∈ waiters k' w →
      (k'.procs p).status = .blocked ∧ (k'.procs p).waitingOn = w)
    (hwaitNodup : ∀ w, w ≠ .readyQueue → (waiters k' w).Nodup)
    (hsem : ∀ id, waiters k' (.semaphore id) = []) (hsleep : k'.sleepingProcs = [])
    (hpchild : (k'.procs p).status = .blocked → (k'.procs p).blockReason = .child →
      (k'.procs p).waitingOn = .null)
    (hcur : ∀ c, k'.currentProcess = some c → CurrentTidy ψ k' c)
    (hψ : ∀ d slot, ψ = .spawning d slot → (k'.procs d).status = .dead) : Tidy ψ k' where
  ready q hq := by
    by_cases hqp : q = p
    · subst hqp
      exact hpready hq
    · rw [hother q hqp]
      exact h.ready q ((hready q hq).resolve_right hqp)
  readyNodup := hreadyNodup
  waiting w hw q hq := by
    by_cases hqp : q = p
    · subst hqp
      exact hpwait w hw hq
    · rw [hother q hqp]
      exact h.waiting w hw q ((hwait w hw q hq).resolve_right hqp)
  waitNodup := hwaitNodup
  noSemaphore := hsem
  noSleeper := hsleep
  child q hb hr := by
    by_cases hqp : q = p
    · subst hqp
      exact hpchild hb hr
    · rw [hother q hqp] at hb hr ⊢
      exact h.child q hb hr
  current := hcur
  spawning := hψ

/-- `proc_ready` of a process that is in no queue. -/
theorem procReady (h : Tidy φ k) (hp : ∀ w, p ∉ waiters k w)
    (hcur : ∀ c, k.currentProcess = some c → c ≠ p → CurrentTidy ψ k c)
    (hpcur : k.currentProcess = some p → CurrentTidy ψ (procReady k (some p)) p)
    (hψ : ∀ d slot, ψ = .spawning d slot → (k.procs d).status = .dead ∧ d ≠ p) :
    Tidy ψ (procReady k (some p)) := by
  refine h.change p (fun q hq => procReady_procs_ne k hq) (fun q hq => mem_of_mem_enqueue hq)
    (fun _ => by simp) ?_ (fun w hw q hq => ?_) (fun w hw hq => ?_) (fun w hw => ?_)
    h.noSemaphore h.noSleeper (by simp) (fun c hc => ?_) (fun d slot hd => ?_)
  · rw [procReady_ready]
    cases k.kmalloc with
    | false => exact h.readyNodup
    | true =>
      rw [enqueue_true, List.nodup_append]
      refine ⟨h.readyNodup, List.nodup_singleton p, fun a ha b hb hab => ?_⟩
      rw [List.mem_singleton.mp hb] at hab
      exact hp .readyQueue (hab ▸ ha)
  · rw [procReady_waiters k p hw] at hq
    exact .inl hq
  · rw [procReady_waiters k p hw] at hq
    exact absurd hq (hp w)
  · rw [procReady_waiters k p hw]
    exact h.waitNodup w hw
  · by_cases hcp : c = p
    · subst hcp
      exact hpcur hc
    · have htidy := hcur c hc hcp
      unfold CurrentTidy at htidy ⊢
      rwa [procReady_procs_ne k hcp]
  · rw [procReady_procs_ne k (hψ d slot hd).2]
    exact (hψ d slot hd).1

/-- Dispatching the head of the ready queue. -/
theorem dispatchTo (h : Tidy φ k) {rest : List ProcId} (hr : k.readyProcesses = p :: rest) :
    Tidy .run (dispatchTo k p rest) := by
  have hmem : p ∈ k.readyProcesses := by simp [hr]
  have hnodup : (p :: rest).Nodup := hr ▸ h.readyNodup
  obtain ⟨hnot, hrest⟩ := List.nodup_cons.mp hnodup
  refine h.change p (fun q hq => ?_) (fun q hq => ?_) (fun hp => absurd hp hnot) hrest
    (fun w hw q hq => ?_) (fun w hw hq => ?_) (fun w hw => ?_) h.noSemaphore h.noSleeper ?_
    (fun c hc => ?_) (fun d slot hd => by cases hd)
  · simp [TpeSo.dispatchTo, Kernel.setProc, hq]
  · left
    rw [hr]
    exact List.mem_cons_of_mem p hq
  · left
    cases w <;> first | exact hq | exact absurd rfl hw
  · have hq' : p ∈ waiters k w := by cases w <;> first | exact hq | exact absurd rfl hw
    exact absurd hmem (h.notMem_ready_of_waiter hw hq')
  · cases w <;> first | exact h.waitNodup _ hw | exact absurd rfl hw
  · simp [TpeSo.dispatchTo]
  · cases hc
    simp [CurrentTidy, TpeSo.dispatchTo]

/-- A process that was in the ready queue at most is blocked, and perhaps linked into `w`. -/
theorem blocked (h : Tidy φ k) (hrun : (k.procs p).status ≠ .blocked)
    (hother : ∀ q, q ≠ p → k'.procs q = k.procs q)
    (hself : (k'.procs p).status = .blocked ∧ (k'.procs p).waitingOn = w)
    (hreason : (k'.procs p).blockReason = .child → w = .null)
    (hready : k'.readyProcesses = k.readyProcesses.erase p)
    (hsleep : k'.sleepingProcs = k.sleepingProcs) (hsem : ∀ id, w ≠ .semaphore id)
    (hlink : ∀ v, v ≠ .readyQueue → waiters k' v = waiters k v ∨
      (v = w ∧ waiters k' v = waiters k v ++ [p]))
    (hcur : ∀ c, k'.currentProcess = some c → CurrentTidy ψ k' c)
    (hψ : ∀ d slot, ψ ≠ .spawning d slot) : Tidy ψ k' := by
  have hnot : ∀ v, v ≠ .readyQueue → p ∉ waiters k v :=
    fun v hv hp => hrun (h.waiting v hv p hp).1
  refine h.change p hother (fun q hq => ?_) (fun hp => ?_) ?_ (fun v hv q hq => ?_)
    (fun v hv hq => ?_) (fun v hv => ?_) (fun id => ?_) (hsleep.trans h.noSleeper)
    (fun _ hr => hself.2.trans (hreason hr)) hcur (fun d slot hd => absurd hd (hψ d slot))
  · rw [hready] at hq
    exact .inl (List.mem_of_mem_erase hq)
  · rw [hready] at hp
    exact absurd hp h.readyNodup.not_mem_erase
  · rw [hready]
    exact h.readyNodup.erase p
  · rcases hlink v hv with hl | ⟨-, hl⟩
    · exact .inl (hl ▸ hq)
    · rw [hl, List.mem_append, List.mem_singleton] at hq
      exact hq
  · rcases hlink v hv with hl | ⟨rfl, -⟩
    · exact absurd (hl ▸ hq) (hnot v hv)
    · exact hself
  · rcases hlink v hv with hl | ⟨-, hl⟩
    · rw [hl]
      exact h.waitNodup v hv
    · rw [hl, List.nodup_append]
      refine ⟨h.waitNodup v hv, List.nodup_singleton p, fun a ha b hb hab => ?_⟩
      rw [List.mem_singleton.mp hb] at hab
      exact hnot v hv (hab ▸ ha)
  · rcases hlink (.semaphore id) (by simp) with hl | ⟨hv, -⟩
    · rw [hl]
      exact h.noSemaphore id
    · exact absurd hv.symm (hsem id)

/-- Another process is blocked by `sys_block`. -/
theorem blockOther (h : Tidy .run k) (hc : k.currentProcess ≠ some p)
    (hs : (k.procs p).status ≠ .blocked) : Tidy .run (markBlocked k p .arbitrary .null) := by
  have hprocs : ∀ q, q ≠ p → (markBlocked k p .arbitrary .null).procs q = k.procs q := by
    intro q hq
    simp [markBlocked, Kernel.setProc, Kernel.alloc, hq]
  refine h.blocked (w := .null) hs hprocs ?_ ?_ rfl rfl (by simp) (fun v hv => ?_)
    (fun c hcur => ?_) (fun d slot hd => by cases hd)
  · simp [markBlocked, Kernel.setProc, Kernel.alloc]
  · simp [markBlocked, Kernel.setProc, Kernel.alloc]
  · left
    cases v <;> first | rfl | exact absurd rfl hv
  · have hcp : c ≠ p := by
      rintro rfl
      exact hc hcur
    show _ = _
    rw [hprocs c hcp]
    exact h.current c hcur

/-- The current process gives up the processor, having linked itself into `w`. -/
theorem blockSelf (h : Tidy .run k) (hc : k.currentProcess = some c) {reason : BlockReason}
    {pend : Pending} (hw : BlocksOn reason w pend) (hsem : ∀ id, w ≠ .semaphore id) :
    Tidy .leaving (leave (linkWaiter k w c) c reason w pend) := by
  have hrun : (k.procs c).status = .running := h.current c hc
  have hsusp := SchedSame.suspend (linkWaiter k w c) pend
  have hb := (SchedBase.linkWaiter k w c).trans hsusp.toSchedBase
  have hprocs : ((linkWaiter k w c).suspend pend).procs = k.procs := by
    rw [suspend_procs, linkWaiter_procs]
  have hself : ((leave (linkWaiter k w c) c reason w pend).procs c).status = .blocked ∧
      ((leave (linkWaiter k w c) c reason w pend).procs c).hasQuantum = 0 := by
    simp [leave, markBlocked, Kernel.setProc, Kernel.alloc]
  refine h.blocked (p := c) (w := w) (by simp [hrun]) (fun q hq => ?_) ?_ (fun hr => ?_)
    (congrArg (fun l => l.erase c) hb.ready) ?_ hsem (fun v hv => ?_) (fun c' hc' => ?_)
    (fun d slot hd => by cases hd)
  · simp [leave, markBlocked, Kernel.setProc, Kernel.alloc, hq]
  · simp [leave, markBlocked, Kernel.setProc, Kernel.alloc]
  · have hreason : reason = .child := by
      simpa [leave, markBlocked, Kernel.setProc, Kernel.alloc] using hr
    subst hreason
    cases w <;> first | rfl | exact hw.elim
  · exact (hsusp.sleepers).trans (linkWaiter_sleepingProcs k w c)
  · have hv' : waiters (leave (linkWaiter k w c) c reason w pend) v =
        waiters (linkWaiter k w c) v := by
      rw [← waiters_suspend (linkWaiter k w c) pend]
      cases v <;> first | rfl | exact absurd rfl hv
    rw [hv']
    exact waiters_linkWaiter k w c hw.ne_readyQueue v
  · have hcc : c' = c := by
      have hcur : k.currentProcess = some c' := hb.current.symm.trans hc'
      rw [hc] at hcur
      exact (Option.some.inj hcur).symm
    rw [hcc]
    exact hself

/-- A kill: its victim is in one queue at most, which `waiting_on` names. -/
theorem bury (h : Tidy .run k) (p : ProcId) (code : Int) :
    Tidy (.dying p) (bury k p code) := by
  have hsub := waiters_bury_sublist k p code
  have hnot := fun v => (h.cleanKill p).notMem_bury code v
  refine h.change p (fun q hq => bury_procs_ne k code hq) (fun q hq => ?_) (fun hp => ?_)
    ((hsub .readyQueue).nodup h.readyNodup) (fun v _ q hq => .inl ((hsub v).subset hq))
    (fun v _ hp => absurd hp (hnot v)) (fun v hv => (hsub v).nodup (h.waitNodup v hv))
    (fun id => ?_) ?_ (fun hb => ?_) (fun c hc => ?_) (fun d slot hd => by cases hd)
  · exact .inl ((hsub .readyQueue).subset hq)
  · exact absurd hp (hnot .readyQueue)
  · exact List.sublist_nil.mp (h.noSemaphore id ▸ hsub (.semaphore id))
  · rw [bury_sleepingProcs, h.noSleeper]
  · simp [TpeSo.bury] at hb
  · obtain ⟨hc', hs⟩ := current_of_bury hc
    have hrun : (k.procs c).status = .running := h.current c hc'
    have hcp : c ≠ p := by
      rintro rfl
      exact hs hrun
    show _ = _
    rw [bury_procs_ne k code hcp]
    exact hrun

/-- The control block of the process that is being set up may be written to. -/
theorem setSpawning {slot slot' : Option Nat} (h : Tidy (.spawning p slot) k) {f : Proc → Proc}
    (hf : (f (k.procs p)).status = .dead) : Tidy (.spawning p slot') (k.setProc p f) := by
  have hd := h.spawning p slot rfl
  have hnot := h.notMem_waiters (p := p) (by simp [hd]) (by simp [hd])
  have hwaiters : ∀ v, waiters (k.setProc p f) v = waiters k v := waiters_congr rfl rfl rfl rfl
  refine h.change p (fun q hq => k.procs_setProc_ne hq) (fun q hq => .inl hq)
    (fun hp => absurd hp (hnot .readyQueue)) h.readyNodup (fun v _ q hq => .inl (hwaiters v ▸ hq))
    (fun v _ hp => absurd (hwaiters v ▸ hp) (hnot v)) (fun v hv => (hwaiters v).symm ▸ h.waitNodup v hv)
    h.noSemaphore h.noSleeper (fun hb => ?_) (fun c hc => ?_) ?_
  · rw [k.procs_setProc_self, hf] at hb
    cases hb
  · have hrun : (k.procs c).status = .running := h.current c hc
    have hcp : c ≠ p := by
      rintro rfl
      rw [hd] at hrun
      cases hrun
    show _ = _
    rw [k.procs_setProc_ne hcp]
    exact hrun
  · rintro _ _ ⟨⟩
    rw [k.procs_setProc_self]
    exact hf

/-- A new process control block. -/
theorem newProc (h : Tidy .run k) (hborn : Born .run k) : Tidy (.spawning k.nextProc none)
    { k with nextProc := k.nextProc + 1, procs := Function.update k.procs k.nextProc {} } := by
  have hnot : ∀ v, k.nextProc ∉ waiters k v := fun v hp => (hborn.waiting v _ hp).false
  have hself : (Function.update k.procs k.nextProc ({} : Proc) k.nextProc) = {} :=
    Function.update_self ..
  have hwaiters : ∀ v, waiters { k with
      nextProc := k.nextProc + 1, procs := Function.update k.procs k.nextProc {} } v =
        waiters k v := waiters_congr rfl rfl rfl rfl
  refine h.change k.nextProc (fun q hq => Function.update_of_ne hq _ _) (fun q hq => .inl hq)
    (fun hp => absurd hp (hnot .readyQueue)) h.readyNodup (fun v _ q hq => .inl (hwaiters v ▸ hq))
    (fun v _ hp => absurd (hwaiters v ▸ hp) (hnot v)) (fun v hv => (hwaiters v).symm ▸ h.waitNodup v hv)
    h.noSemaphore h.noSleeper (fun hb => ?_) (fun c hc => ?_) ?_
  · have hdead := (congrArg Proc.status hself).symm.trans hb
    cases hdead
  · have hne : c ≠ k.nextProc := (hborn.current c hc).ne
    show (Function.update k.procs k.nextProc {} c).status = _
    rw [Function.update_of_ne hne]
    exact h.current c hc
  · rintro _ _ ⟨⟩
    exact congrArg Proc.status hself

end Tidy

/-! ### Every edit -/

theorem familyEvent.sleepTick (he : familyEvent e = true) (k : Kernel) : sleepTick k e = none := by
  cases e <;> first | rfl | cases he

theorem familyEvent.unblockTarget (he : familyEvent e = true) (k : Kernel) :
    unblockTarget k e = none := by
  cases e <;> first | rfl | cases he

/-- **Every edit of such an entry** keeps the queues tidy. -/
theorem Micro.tidy {a : Act} (he : familyEvent e = true) (hborn : Born φ k) (h : Tidy φ k)
    (ho : Origin k₀ e k a) (hm : Micro φ k a ψ k') : Tidy ψ k' := by
  by_cases hoff : a.offSched
  · obtain ⟨hs, rfl⟩ := hm.schedSame hoff
    exact h.of_schedSame hs
  cases hm with
  | quantum p n =>
    refine h.of_schedView (.setProc p rfl) (fun c hc => ?_) h.spawning
    show _ = _
    rw [k.setProc_spares Proc.status rfl]
    exact h.current c hc
  | tick => exact h.same rfl (waiters_congr rfl rfl rfl rfl) rfl h.current h.spawning
  | tickLeaving =>
    exact h.same rfl (waiters_congr rfl rfl rfl rfl) rfl h.current fun _ _ hd => nomatch hd
  | wakeSleeper hφ hmem =>
    rw [h.noSleeper] at hmem
    cases hmem
  | dropSleeper hφ hmem =>
    rw [h.noSleeper] at hmem
    cases hmem
  | @stay φ k c hφ hc hq =>
    rcases hφ with rfl | rfl
    · exact h
    · exact absurd (h.current c hc).2 hq
  | @refill φ k c n hφ hc hs =>
    rcases hφ with rfl | rfl
    · refine h.of_schedView (.setProc c rfl) (fun c' hc' => ?_) h.spawning
      show _ = _
      rw [k.setProc_spares Proc.status rfl]
      exact h.current c' hc'
    · have hb := (h.current c hc).1
      rw [hs] at hb
      cases hb
  | dispatch hφ hc hr => exact h.dispatchTo hr
  | @preempt φ k c p rest hφ hc hs hr =>
    rcases hφ with rfl | rfl
    · have hrun : (k.procs c).status = .running := h.current c hc
      -- `c` joins the ready queue, and is current until the next process is dispatched
      have hoff : Tidy .run { k with currentProcess := none } :=
        h.same rfl (waiters_congr rfl rfl rfl rfl) rfl (fun _ hd => nomatch hd)
          fun _ _ hd => nomatch hd
      have hready := hoff.procReady (ψ := .run)
        (hoff.notMem_waiters (p := c) (by simp [hrun]) (by simp [hrun]))
        (fun _ hd => nomatch hd) (fun hd => nomatch hd) fun _ _ hd => nomatch hd
      exact hready.dispatchTo hr
    · exact absurd (h.current c hc).1 hs.1
  | @blockSelf k c w reason pend hc hw =>
    refine h.blockSelf hc hw fun id hid => ?_
    subst hid
    rw [show e = .sysSemWait id from ho] at he
    cases he
  | blockSleep t hc =>
    have ht := ho.2
    rw [familyEvent.sleepTick he] at ht
    cases ht
  | blockOther hc hs => exact h.blockOther hc hs.2.2
  | unblock hs =>
    have ht := ho.2
    rw [familyEvent.unblockTarget he] at ht
    cases ht
  | @wake φ k w p hφ hw =>
    obtain ⟨hwr, hcons⟩ := waiters_of_firstWaiter hw
    have hmem : p ∈ waiters k w := by simp [hcons]
    have hb := h.waiting w hwr p hmem
    have hpop := h.of_schedSame (.popWaiter k w)
    have hs := SchedSame.popWaiter k w
    have hblocked : ((popWaiter k w).procs p).status = .blocked := (hs.status p).trans hb.1
    have hcurrent : (popWaiter k w).currentProcess ≠ some p := by
      intro hc
      have hrun := hpop.current p hc
      rcases hφ with rfl | ⟨d, rfl⟩ <;>
        exact absurd (hblocked.symm.trans hrun) (by decide)
    refine hpop.procReady (fun v hv => ?_) (fun c hc _ => hpop.current c hc)
      (fun hc => absurd hc hcurrent) (fun d slot hd => ?_)
    · -- `p` was in `w` only, and only once
      by_cases hvr : v = .readyQueue
      · subst hvr
        have hs' := (hpop.ready p hv).1
        rw [hblocked] at hs'
        cases hs'
      · have hvw : v = w := ((hpop.waiting v hvr p hv).2.symm.trans (hs.waitingOn p)).trans hb.2
        subst hvw
        have hnodup := h.waitNodup v hwr
        rw [hcons, List.nodup_cons] at hnodup
        exact hnodup.1 hv
    · rcases hφ with rfl | ⟨d', rfl⟩ <;> cases hd
  | @wakeParent p k q hs hr =>
    refine h.procReady (fun v hv => ?_) (fun c hc _ => h.current c hc) (fun hc => ?_)
      (fun d slot hd => by cases hd)
    · by_cases hvr : v = .readyQueue
      · subst hvr
        have hready := (h.ready q hv).1
        rw [hs] at hready
        cases hready
      · have hnull := (h.waiting v hvr q hv).2.symm.trans (h.child q hs hr)
        subst hnull
        cases hv
    · have hrun : (k.procs q).status = .running := h.current q hc
      rw [hs] at hrun
      cases hrun
  | kill p code => exact h.bury p code
  | endKill => exact h.same rfl (fun _ => rfl) rfl h.current fun _ _ hd => nomatch hd
  | reapSelf => exact h.same rfl (waiters_congr rfl rfl rfl rfl) rfl h.current h.spawning
  | reapChild => exact h.same rfl (waiters_congr rfl rfl rfl rfl) rfl h.current h.spawning
  | newProc => exact h.newProc hborn
  | noPid => exact h.setSpawning (h.spawning _ _ rfl)
  | @claimPid p k i hi hslot =>
    have hset : Tidy (.spawning p (some i)) (k.setProc p fun q => { q with pid := i }) :=
      h.setSpawning (h.spawning _ _ rfl)
    exact hset.same rfl (waiters_congr rfl rfl rfl rfl) rfl hset.current hset.spawning
  | @start p i k =>
    have hd := h.spawning p (some i) rfl
    refine h.procReady (h.notMem_waiters (by simp [hd]) (by simp [hd])) (fun c hc _ => h.current c hc)
      (fun hc => ?_) fun _ _ hd => nomatch hd
    exact absurd (hd.symm.trans (h.current p hc)) (by decide)
  | @startBare p k hm =>
    have halloc := h.of_schedSame (.alloc k)
    have hd := halloc.spawning p none rfl
    refine halloc.procReady (halloc.notMem_waiters (by simp [hd]) (by simp [hd]))
      (fun c hc _ => halloc.current c hc) (fun hc => ?_) fun _ _ hd => nomatch hd
    exact absurd (hd.symm.trans (halloc.current p hc)) (by decide)
  | _ => exact absurd trivial hoff

/-! ### Zombies and kernel stacks -/

/-- Only a kill makes a zombie. -/
theorem Micro.zombie {a : Act} (hm : Micro φ k a ψ k') (hz : (k'.procs q).status = .zombie) :
    (k.procs q).status = .zombie ∨ a = .kill q := by
  by_cases hoff : a.offSched
  · obtain ⟨hs, rfl⟩ := hm.schedSame hoff
    rw [hs.status] at hz
    exact .inl hz
  have hready : ∀ {K : Kernel} {p : ProcId}, ((procReady K (some p)).procs q).status = .zombie →
      (K.procs q).status = .zombie := by
    intro K p h
    rw [procReady_status] at h
    split at h
    · cases h
    · exact h
  have hset : ∀ {K : Kernel} {p : ProcId} {f : Proc → Proc}, (f (K.procs p)).status ≠ .zombie →
      ((K.setProc p f).procs q).status = .zombie → (K.procs q).status = .zombie := by
    intro K p f hf h
    by_cases hqp : q = p
    · subst hqp
      rw [K.procs_setProc_self] at h
      exact absurd h hf
    · rwa [K.procs_setProc_ne hqp] at h
  have hdispatch : ∀ {K : Kernel} {p : ProcId} {rest : List ProcId},
      ((dispatchTo K p rest).procs q).status = .zombie → (K.procs q).status = .zombie := by
    intro K p rest h
    have h' := hset (K := { K with readyProcesses := rest, currentProcess := some p })
      (f := fun q => { q with status := .running, hasQuantum := q.priority }) (by simp) h
    exact h'
  cases hm with
  | quantum p n =>
    rw [k.setProc_spares Proc.status rfl] at hz
    exact .inl hz
  | wakeSleeper => exact .inl (hready hz)
  | refill =>
    rw [k.setProc_spares Proc.status rfl] at hz
    exact .inl hz
  | dispatch => exact .inl (hdispatch hz)
  | preempt => exact .inl (hready (hdispatch hz))
  | @blockSelf k c w reason pend hc hw =>
    unfold leave at hz
    rw [Kernel.setProc_spares _ Proc.status rfl] at hz
    have hz' := hset (K := (linkWaiter k w c).suspend pend) (f := fun q =>
      { q with status := .blocked, blockReason := reason, waitingOn := w }) (by simp) hz
    rw [suspend_procs, linkWaiter_procs] at hz'
    exact .inl hz'
  | @blockSleep k c t hc =>
    unfold leave at hz
    rw [Kernel.setProc_spares _ Proc.status rfl] at hz
    have hz' := hset (K := (linkSleeper k c t).suspend .sleep) (f := fun q =>
      { q with status := .blocked, blockReason := .sleep, waitingOn := .sleepers }) (by simp) hz
    rw [suspend_procs] at hz'
    exact .inl hz'
  | blockOther => exact .inl (hset (f := fun q =>
      { q with status := .blocked, blockReason := .arbitrary, waitingOn := .null }) (by simp) hz)
  | unblock => exact .inl (hready hz)
  | @wake φ k w p hφ hw =>
    have hz' := hready hz
    rw [(SchedSame.popWaiter k w).status] at hz'
    exact .inl hz'
  | wakeParent => exact .inl (hready hz)
  | kill p code =>
    by_cases hqp : q = p
    · exact .inr (by rw [hqp])
    · rw [bury_procs_ne k code hqp] at hz
      exact .inl hz
  | newProc => exact .inl (hset (f := fun _ => {}) (by simp) hz)
  | noPid =>
    rw [k.setProc_spares Proc.status rfl] at hz
    exact .inl hz
  | @claimPid p k i hi hslot =>
    have hz' : ((k.setProc p fun q => { q with pid := i }).procs q).status = .zombie := hz
    rw [k.setProc_spares Proc.status rfl] at hz'
    exact .inl hz'
  | start => exact .inl (hready hz)
  | startBare => exact .inl (hready hz)
  | _ => first | exact .inl hz | exact absurd trivial hoff

/-- Nobody is in the middle of reading from a pipe or writing to one. -/
def NoPipeWork (k : Kernel) : Prop := ∀ p w, k.kstack p = some w → w.pipeEnd = none

theorem Micro.noPipeWork {a : Act} (he : familyEvent e = true) (h₀ : NoPipeWork k₀)
    (h : NoPipeWork k) (ho : Origin k₀ e k a) (hm : Micro φ k a ψ k') : NoPipeWork k' := by
  -- the end of a pipe is reached only by a read, a write, or the rest of one
  have hreach : ∀ ops pp, ¬ Reaches k₀ e ops pp := by
    rintro ops pp ⟨c, -, ⟨⟨fd, n, b, rfl⟩ | ⟨fd, buf, rfl⟩, -⟩ | ⟨-, w, hw, hend⟩⟩
    · cases he
    · cases he
    · rw [h₀ c w hw] at hend
      cases hend
  intro p v hv
  rcases hm.kstack hv with hv | ⟨-, hplain | ⟨reason, w, rfl, hw⟩⟩
  · exact h p v hv
  · cases v <;> first | rfl | exact hplain.elim
  · cases v with
    | pipeRead pp n =>
      cases w <;> cases reason <;> first | exact hw.elim | exact absurd ho (hreach _ _)
    | pipeWrite pp buf =>
      cases w <;> cases reason <;> first | exact hw.elim | exact absurd ho (hreach _ _)
    | _ => rfl

/-! ### Whole runs -/

/-- Between two entries: the queues are tidy, no zombie is linked or current, and nobody is in
    the middle of a transfer. -/
structure Settled (k : Kernel) : Prop where
  born : Born .run k
  tidy : Tidy .run k
  final : Final .run k
  noPipeWork : NoPipeWork k

theorem Settled.boot (f : Nat → Bool) : Settled (boot f) where
  born := .boot f
  tidy :=
    { ready := fun _ hp => nomatch hp
      readyNodup := List.nodup_nil
      waiting := fun w _ p hp => by cases w <;> cases hp
      waitNodup := fun w _ => by cases w <;> exact List.nodup_nil
      noSemaphore := fun _ => rfl
      noSleeper := rfl
      child := fun p hb => by simp [TpeSo.boot] at hb
      current := fun _ hc => nomatch hc
      spawning := fun _ _ hd => nomatch hd }
  final := .boot f
  noPipeWork _ _ hw := nomatch hw

/-- **The edits of an entry.**  Every zombie stays one, and the only new one is whom the entry
    kills. -/
theorem Settled.does (h : Settled k) (he : familyEvent e = true)
    (hd : Does (Origin k e) (.run, k) (.run, k')) :
    Settled k' ∧ Keeps k k' ∧ ∀ q, (k'.procs q).status = .zombie →
      (k.procs q).status = .zombie ∨ killTarget k e = some q := by
  have hclean : CleanStep k e := fun p _ => h.tidy.cleanKill p
  let I : Phase → Kernel → Prop := fun φ k' => (Born φ k' ∧ Tidy φ k' ∧ Final φ k' ∧ NoPipeWork k') ∧
    Keeps k k' ∧ ∀ q, (k'.procs q).status = .zombie →
      (k.procs q).status = .zombie ∨ killTarget k e = some q
  obtain ⟨⟨hborn, htidy, hfinal, hpipe⟩, hrest⟩ : I .run k' := by
    refine Does.invariant I ?_ hd ⟨⟨h.born, h.tidy, h.final, h.noPipeWork⟩, fun _ hq => hq, fun _ => .inl⟩
    rintro φ k₁ a ψ k₂ ⟨⟨hborn, htidy, hfinal, hpipe⟩, hkeep, hnew⟩ ho hm
    obtain ⟨hfinal', hkeep'⟩ := hm.final hclean hfinal ho
    refine ⟨⟨hborn.step hm, hm.tidy he hborn htidy ho, hfinal', hm.noPipeWork he h.noPipeWork hpipe ho⟩,
      fun q hq => hkeep' q (hkeep q hq), fun q hq => ?_⟩
    rcases hm.zombie hq with hq | rfl
    · exact hnew q hq
    · exact .inr ho.2
  exact ⟨⟨hborn, htidy, hfinal, hpipe⟩, hrest⟩

theorem Settled.step (h : Settled k) (he : familyEvent e = true) (hs : step k e = some (k', o)) :
    Settled k' :=
  (h.does he (step_does hs)).1

/-- **Runs of families are settled** between two entries. -/
theorem settled_run (hok : ∀ k e, ok k e → familyEvent e = true) (h : Run f ok tr k) : Settled k :=
  h.invariant Settled (.boot f) fun _ _ _ _ hI he hs => hI.step (hok _ _ he) hs

end TpeSo
