import TpeSo.Sched.Partition

namespace TpeSo

open Ds Lib

/-!
# Scheduling — termination is final

`proc_kill` frees the stack of a process and marks it `ZOMBIE`; from then on nobody may
hand it the processor.  That holds as long as `proc_kill` finds every queue the process is
in, which it does through `waiting_on`.  A process that waits on a semaphore is not found:
`waiting_on` leads to the `semaphore_t`, not to its queue.

* `CleanKill k p` — `proc_kill` of `p` leaves it in no queue and off the processor;
* `Final φ k` — no zombie is linked anywhere or current;
* `Micro.final` — every edit keeps `Final` and every zombie a zombie;
* `termination_final` — the statement about whole runs;
* `termination_semaphore` — the run in which a post revives a zombie.
-/

variable {φ ψ : Phase} {k k' k₀ : Kernel} {e : Event} {p c : ProcId}

/-- `proc_kill` of `p` leaves `p` in no queue and off the processor: `p` is only in the queue
    `waiting_on` names, there once, and that is not the queue of a semaphore; and if `p` has
    the processor, its status says so. -/
structure CleanKill (k : Kernel) (p : ProcId) : Prop where
  named : ∀ w, p ∈ waiters k w → w = (k.procs p).waitingOn
  noSemaphore : ∀ id, p ∉ waiters k (.semaphore id)
  once : (waiters k (k.procs p).waitingOn).count p ≤ 1
  current : k.currentProcess = some p → (k.procs p).status = .running

/-- Every kill and every exit of the step is clean. -/
def CleanStep (k : Kernel) (e : Event) : Prop := ∀ p ∈ killTarget k e, CleanKill k p

/-- No zombie is in a queue or on the processor. -/
structure Final (φ : Phase) (k : Kernel) : Prop where
  unborn : ∀ p, k.nextProc ≤ p → (k.procs p).status = .dead ∧ (k.procs p).pid = 0
  born : ∀ w, ∀ p ∈ waiters k w, p < k.nextProc
  unlinked : ∀ p, (k.procs p).status = .zombie → ∀ w, p ∉ waiters k w
  current : ∀ c, k.currentProcess = some c → c < k.nextProc ∧ (k.procs c).status ≠ .zombie
  spawning : ∀ p slot, φ = .spawning p slot → (k.procs p).status = .dead ∧ p < k.nextProc

/-- Every zombie stays one. -/
def Keeps (k k' : Kernel) : Prop :=
  ∀ q, (k.procs q).status = .zombie → (k'.procs q).status = .zombie

theorem Final.alive_born (h : Final φ k) (hs : (k.procs p).status ≠ .dead) : p < k.nextProc := by
  by_contra hp
  exact hs (h.unborn p (not_lt.mp hp)).1

/-! ### Edits that touch no status, and edits that touch one -/

theorem Final.schedView (h : Final φ k) (s : SchedView k k')
    (hψ : ∀ p slot, ψ = .spawning p slot → φ = .spawning p slot) : Final ψ k' ∧ Keeps k k' := by
  refine ⟨⟨?_, ?_, ?_, ?_, ?_⟩, ?_⟩
  · intro p
    rw [s.nextProc, s.status, s.pid]
    exact h.unborn p
  · intro w p hp
    rw [s.nextProc]
    exact h.born w p ((s.waiters w).subset hp)
  · intro p hz w hp
    rw [s.status] at hz
    exact h.unlinked p hz w ((s.waiters w).subset hp)
  · intro c hc
    rw [s.current] at hc
    rw [s.nextProc, s.status]
    exact h.current c hc
  · intro p slot hp
    rw [s.status, s.nextProc]
    exact h.spawning p slot (hψ p slot hp)
  · intro q hq
    rw [s.status]
    exact hq

/-- **One process changes.**  A zombie stays one, and whoever is a zombie afterwards is then
    linked nowhere and not current. -/
theorem Final.change (h : Final φ k) (p : ProcId) (hborn : p < k.nextProc)
    (hs : (k.procs p).status = .zombie → (k'.procs p).status = .zombie) (hnext : k'.nextProc = k.nextProc)
    (hother : ∀ q, q ≠ p → k'.procs q = k.procs q)
    (hwait : ∀ w, ∀ q ∈ waiters k' w, q ∈ waiters k w ∨ q = p)
    (hcur : ∀ c, k'.currentProcess = some c → k.currentProcess = some c ∨ c = p)
    (hz : (k'.procs p).status = .zombie →
      (∀ w, p ∉ waiters k' w) ∧ k'.currentProcess ≠ some p)
    (hψ : ∀ d slot, ψ = .spawning d slot → (k'.procs d).status = .dead ∧ d < k.nextProc) :
    Final ψ k' ∧ Keeps k k' := by
  refine ⟨⟨?_, ?_, ?_, ?_, ?_⟩, ?_⟩
  · intro q hq
    rw [hnext] at hq
    have hqp : q ≠ p := by
      rintro rfl
      exact absurd hborn (not_lt.mpr hq)
    rw [hother q hqp]
    exact h.unborn q hq
  · intro w q hq
    rw [hnext]
    rcases hwait w q hq with hq | rfl
    · exact h.born w q hq
    · exact hborn
  · intro q hqz w hq
    by_cases hqp : q = p
    · subst hqp
      exact (hz hqz).1 w hq
    · rw [hother q hqp] at hqz
      exact h.unlinked q hqz w ((hwait w q hq).resolve_right hqp)
  · intro c hc
    rw [hnext]
    by_cases hcp : c = p
    · subst hcp
      exact ⟨hborn, fun hcz => (hz hcz).2 hc⟩
    · rw [hother c hcp]
      exact h.current c ((hcur c hc).resolve_right hcp)
  · intro d slot hd
    rw [hnext]
    exact hψ d slot hd
  · intro q hq
    by_cases hqp : q = p
    · subst hqp
      exact hs hq
    · rw [hother q hqp]
      exact hq

theorem Final.procReady (h : Final φ k) (hborn : p < k.nextProc)
    (hs : (k.procs p).status ≠ .zombie)
    (hψ : ∀ d slot, ψ = .spawning d slot → φ = .spawning d slot ∧ d ≠ p) :
    Final ψ (procReady k (some p)) ∧ Keeps k (TpeSo.procReady k (some p)) := by
  refine h.change p hborn (fun hz => absurd hz hs) rfl (fun q hq => procReady_procs_ne k hq) ?_ (fun c hc => .inl hc)
    (by simp) ?_
  swap
  · intro d slot hd
    obtain ⟨hd', hdp⟩ := hψ d slot hd
    rw [procReady_procs_ne k hdp]
    exact h.spawning d slot hd'
  intro w q hq
  by_cases hw : w = .readyQueue
  · subst hw
    exact mem_of_mem_enqueue hq
  · rw [procReady_waiters k p hw] at hq
    exact .inl hq

theorem Final.markBlocked {K : Kernel} (h : Final φ k) (b : SchedBase k K)
    (hK : K.procs = k.procs) (hborn : p < k.nextProc) (hs : (k.procs p).status ≠ .zombie)
    (reason : BlockReason) (w : WaitRef)
    (hlink : ∀ v, ∀ q ∈ waiters K v, q ∈ waiters k v ∨ q = p)
    (hψ : ∀ d slot, ψ ≠ .spawning d slot) :
    Final ψ (markBlocked K p reason w) ∧ Keeps k (TpeSo.markBlocked K p reason w) := by
  refine h.change p hborn (fun hz => absurd hz hs) b.nextProc ?_ ?_ ?_ ?_ fun d slot hd => absurd hd (hψ d slot)
  · intro q hq
    simp [TpeSo.markBlocked, Kernel.setProc, Kernel.alloc, hq, hK]
  · intro v q hq
    by_cases hv : v = .readyQueue
    · subst hv
      have hq' : q ∈ K.readyProcesses := mem_of_mem_queueRemove hq
      rw [b.ready] at hq'
      exact .inl hq'
    · refine hlink v q ?_
      cases v <;> first | exact hq | exact absurd rfl hv
  · intro c hc
    exact .inl (b.current ▸ hc)
  · simp [TpeSo.markBlocked, Kernel.setProc, Kernel.alloc]

theorem Final.dispatchTo (h : Final φ k) {rest : List ProcId}
    (hr : k.readyProcesses = p :: rest) :
    Final .run (dispatchTo k p rest) ∧ Keeps k (TpeSo.dispatchTo k p rest) := by
  have hmem : p ∈ waiters k .readyQueue := by
    show p ∈ k.readyProcesses
    simp [hr]
  refine h.change p (h.born _ p hmem) (fun hz => absurd hmem (h.unlinked p hz _)) rfl ?_ ?_ ?_ ?_
    (fun d slot hd => nomatch hd)
  · intro q hq
    simp [TpeSo.dispatchTo, Kernel.setProc, hq]
  · intro w q hq
    by_cases hw : w = .readyQueue
    · subst hw
      left
      show q ∈ k.readyProcesses
      rw [hr]
      exact List.mem_cons_of_mem _ hq
    · left
      cases w <;> first | exact hq | exact absurd rfl hw
  · intro c hc
    exact .inr (Option.some.inj hc).symm
  · simp [TpeSo.dispatchTo, Kernel.setProc]

theorem Final.leave {K : Kernel} (h : Final .run k) (hc : k.currentProcess = some c)
    (b : SchedBase k K) (hK : K.procs = k.procs) {reason : BlockReason} {w : WaitRef}
    (pend : Pending) (hlink : ∀ v, ∀ q ∈ waiters K v, q ∈ waiters k v ∨ q = c) :
    Final .leaving (leave K c reason w pend) ∧ Keeps k (TpeSo.leave K c reason w pend) := by
  obtain ⟨hborn, hnz⟩ := h.current c hc
  obtain ⟨hf, hkeep⟩ := h.markBlocked (ψ := .leaving)
    (b.trans (SchedSame.suspend K pend).toSchedBase) ((suspend_procs K pend).trans hK) hborn hnz
    reason w
    (fun v q hq => hlink v q (by rwa [waiters_suspend] at hq)) (fun d slot hd => nomatch hd)
  obtain ⟨hf', hkeep'⟩ := hf.schedView (ψ := .leaving)
    (.setProc (f := fun q => { q with hasQuantum := 0 }) c rfl) fun _ _ hp => hp
  exact ⟨hf', fun q hq => hkeep' q (hkeep q hq)⟩

theorem Final.newProc (h : Final φ k) : Final (.spawning k.nextProc none) { k with
    nextProc := k.nextProc + 1, procs := Function.update k.procs k.nextProc {} } ∧
    Keeps k { k with
      nextProc := k.nextProc + 1, procs := Function.update k.procs k.nextProc {} } := by
  have hold : ∀ q, q < k.nextProc → Function.update k.procs k.nextProc {} q = k.procs q :=
    fun q hq => Function.update_of_ne (ne_of_lt hq) _ _
  refine ⟨⟨?_, ?_, ?_, ?_, ?_⟩, ?_⟩
  · intro q hq
    have hne : q ≠ k.nextProc := ne_of_gt hq
    simpa [hne] using h.unborn q (le_of_lt hq)
  · intro w q hq
    exact Nat.lt_succ_of_lt (h.born w q hq)
  · intro q hq w hw
    have hlt := h.born w q hw
    refine h.unlinked q ?_ w hw
    rw [← hold q hlt]
    exact hq
  · intro c hc
    obtain ⟨hlt, hnz⟩ := h.current c hc
    refine ⟨Nat.lt_succ_of_lt hlt, ?_⟩
    show (Function.update k.procs k.nextProc {} c).status ≠ _
    rw [hold c hlt]
    exact hnz
  · rintro p slot ⟨⟩
    refine ⟨by simp, Nat.lt_succ_self _⟩
  · intro q hq
    have hlt : q < k.nextProc := h.alive_born (by simp [hq])
    show (Function.update k.procs k.nextProc {} q).status = _
    rw [hold q hlt]
    exact hq

/-- The control block of the process that is being set up may be written to. -/
theorem Final.setSpawning {slot : Option Nat} (h : Final (.spawning p slot) k)
    (slot' : Option Nat) {f : Proc → Proc} (hf : (f (k.procs p)).status = .dead) :
    Final (.spawning p slot') (k.setProc p f) ∧ Keeps k (k.setProc p f) := by
  obtain ⟨hd, hlt⟩ := h.spawning p slot rfl
  refine h.change p hlt (fun hz => ?_) rfl (fun q hq => Kernel.procs_setProc_ne k hq)
    (fun w q hq => .inl ?_) (fun c hc => .inl hc) (fun hz => ?_) ?_
  · rw [hd] at hz
    cases hz
  · cases w <;> exact hq
  · rw [Kernel.procs_setProc_self, hf] at hz
    cases hz
  · rintro d s ⟨⟩
    rw [Kernel.procs_setProc_self]
    exact ⟨hf, hlt⟩

/-! ### The kill -/

/-- After a clean kill, `p` is in no queue. -/
theorem CleanKill.notMem_bury (h : CleanKill k p) (code : Int) (w : WaitRef) :
    p ∉ waiters (bury k p code) w := by
  have hwaitOn : ((rmCurrent k p).procs p).waitingOn = (k.procs p).waitingOn := by
    rw [rmCurrent_procs]
  rw [waiters_bury]
  intro hp
  by_cases hw : w = (k.procs p).waitingOn
  · by_cases hsem : ∃ id, w = .semaphore id
    · obtain ⟨id, rfl⟩ := hsem
      rw [waiters_unlinkWaiting_ne _ p hwaitOn (.inr ⟨id, hw.symm⟩), waiters_rmCurrent] at hp
      exact h.noSemaphore id hp
    · -- `p` was there at most once, and that node is dropped
      rw [waiters_unlinkWaiting_self _ p (hwaitOn.trans hw.symm) fun id hid => hsem ⟨id, hid⟩,
        waiters_rmCurrent] at hp
      have hcount := h.once
      rw [← hw] at hcount
      rw [← List.count_pos_iff, List.count_erase_self] at hp
      omega
  · rw [waiters_unlinkWaiting_ne _ p hwaitOn (.inl hw), waiters_rmCurrent] at hp
    exact hw (h.named w hp)

/-- **`proc_kill`**, when it finds every queue its victim is in. -/
theorem Final.bury (h : Final φ k) (hk : CleanKill k p) (hpid : (k.procs p).pid ≠ 0)
    (code : Int) : Final (.dying p) (bury k p code) ∧ Keeps k (TpeSo.bury k p code) := by
  have hborn : p < k.nextProc := by
    by_contra hp
    exact hpid (h.unborn p (not_lt.mp hp)).2
  have hcur : ∀ c, (TpeSo.bury k p code).currentProcess = some c →
      k.currentProcess = some c ∧ c ≠ p := by
    intro c hc
    obtain ⟨hc', hs⟩ := current_of_bury hc
    refine ⟨hc', ?_⟩
    rintro rfl
    exact hs (hk.current hc')
  refine h.change p hborn ?_ ?_ ?_ ?_ (fun c hc => .inl (hcur c hc).1) ?_ (fun d slot hd => nomatch hd)
  · intro _
    simp [TpeSo.bury]
  · exact bury_nextProc k p code
  · intro q hq
    exact bury_procs_ne k code hq
  · intro w q hq
    exact .inl (mem_waiters_bury hq)
  · intro _
    exact ⟨hk.notMem_bury code, fun hc => (hcur p hc).2 rfl⟩

/-! ### Every edit -/

theorem CleanKill.calm (h : Calm k k') (hk : CleanKill k p) : CleanKill k' p := by
  have hw := h.waiters
  refine ⟨?_, ?_, ?_, ?_⟩
  · intro w hp
    rw [h.waitingOn]
    exact hk.named w (hw w ▸ hp)
  · intro id
    rw [hw]
    exact hk.noSemaphore id
  · rw [h.waitingOn, hw]
    exact hk.once
  · rw [h.current, h.status]
    exact hk.current

/-- **Every edit of a clean step** keeps zombies out of every queue and off the processor. -/
theorem Micro.final {a : Act} (hstep : CleanStep k₀ e) (h : Final φ k) (ho : Origin k₀ e k a)
    (hm : Micro φ k a ψ k') : Final ψ k' ∧ Keeps k k' := by
  by_cases hoff : a.offSched
  · obtain ⟨hs, rfl⟩ := hm.schedSame hoff
    exact h.schedView hs.toSchedView fun _ _ hp => hp
  cases hm with
  | quantum p n => exact h.schedView (.setProc p rfl) fun _ _ hp => hp
  | tick => exact ⟨{ h with }, fun _ hq => hq⟩
  | tickLeaving => exact ⟨{ h with spawning := fun _ _ hp => nomatch hp }, fun _ hq => hq⟩
  | @wakeSleeper φ k sp p hφ hmem hdue hp hs =>
    obtain ⟨hf, hkeep⟩ := h.procReady (ψ := φ) (h.alive_born (p := p) (by simp [hs])) (by simp [hs])
      fun d slot hd => ⟨hd, by rintro rfl; simp [h.spawning _ slot hd] at hs⟩
    exact ⟨{ hf with born := fun w => hf.born w, unlinked := fun q hq w => hf.unlinked q hq w }, hkeep⟩
  | dropSleeper hφ hmem hp => exact ⟨{ h with }, fun _ hq => hq⟩
  | stay hφ hc hq => exact ⟨{ h with spawning := fun _ _ hp => nomatch hp }, fun _ hq => hq⟩
  | refill n hφ hc hs => exact h.schedView (.setProc _ rfl) fun _ _ hp => nomatch hp
  | dispatch hφ hc hr => exact h.dispatchTo hr
  | @preempt φ k c p rest hφ hc hs hr =>
    have hcur := h.current c hc
    obtain ⟨hf, hkeep⟩ := h.procReady (ψ := .run) hcur.1 hcur.2 fun d slot hd => nomatch hd
    obtain ⟨hf', hkeep'⟩ := hf.dispatchTo hr
    exact ⟨hf', fun q hq => hkeep' q (hkeep q hq)⟩
  | @blockSelf k c w reason pend hc hw =>
    refine h.leave hc (.linkWaiter k w c) (linkWaiter_procs k w c) pend fun v q hq => ?_
    rcases waiters_linkWaiter k w c hw.ne_readyQueue v with hl | ⟨-, hl⟩
    · exact .inl (hl ▸ hq)
    · rw [hl, List.mem_append, List.mem_singleton] at hq
      exact hq
  | @blockSleep k c t hc =>
    refine h.leave (K := linkSleeper k c t) hc (.of_alloc rfl rfl rfl) rfl .sleep
      fun v q hq => .inl ?_
    cases v <;> exact hq
  | @blockOther k p hc hs =>
    exact h.markBlocked (.refl k) rfl (h.alive_born hs.2.1) hs.1 _ _ (fun v q hq => .inl hq)
      fun d slot hd => nomatch hd
  | unblock hs =>
    exact h.procReady (h.alive_born (by simp [hs])) (by simp [hs]) fun d slot hd => nomatch hd
  | @wake φ k w p hφ hw =>
    obtain ⟨-, hcons⟩ := waiters_of_firstWaiter hw
    have hmem : p ∈ waiters k w := by simp [hcons]
    have hpop := SchedSame.popWaiter k w
    obtain ⟨hf, hkeep⟩ := h.schedView (ψ := φ) hpop.toSchedView fun _ _ hp => hp
    have hnz : ((popWaiter k w).procs p).status ≠ .zombie := by
      rw [hpop.status]
      exact fun hz => h.unlinked p hz w hmem
    have hborn : p < (popWaiter k w).nextProc := by
      rw [hpop.nextProc]
      exact h.born w p hmem
    obtain ⟨hf', hkeep'⟩ := hf.procReady (ψ := φ) hborn hnz fun d slot hd => by
      rcases hφ with rfl | ⟨d', rfl⟩ <;> cases hd
    exact ⟨hf', fun q hq => hkeep' q (hkeep q hq)⟩
  | wakeParent hs hr =>
    exact h.procReady (h.alive_born (by simp [hs])) (by simp [hs]) fun d slot hd => nomatch hd
  | @kill k p code =>
    have hpid := (Option.filter_eq_some_iff.mp ho.2).2
    rw [← ho.1.pid] at hpid
    simp only [ne_eq, decide_eq_true_eq] at hpid
    exact h.bury ((hstep p ho.2).calm ho.1) hpid.1 code
  | endKill => exact ⟨{ h with spawning := fun _ _ hp => nomatch hp }, fun _ hq => hq⟩
  | reapSelf => exact ⟨{ h with }, fun _ hq => hq⟩
  | reapChild hp hs => exact ⟨{ h with }, fun _ hq => hq⟩
  | newProc => exact h.newProc
  | @noPid p k => exact h.setSpawning none (h.spawning p none rfl).1
  | @claimPid p k i hi hslot =>
    obtain ⟨hf, hkeep⟩ := h.setSpawning (some i) (f := fun q => { q with pid := i })
      (h.spawning p none rfl).1
    exact ⟨{ hf with born := fun w => hf.born w, unlinked := fun q hq w => hf.unlinked q hq w },
      hkeep⟩
  | @start p i k =>
    obtain ⟨hd, hlt⟩ := h.spawning p (some i) rfl
    exact h.procReady hlt (by simp [hd]) fun d slot hd => nomatch hd
  | @startBare p k hm =>
    obtain ⟨hf, hkeep⟩ := h.schedView (ψ := .spawning p none) (SchedSame.alloc k).toSchedView
      fun _ _ hp => hp
    obtain ⟨hd, hlt⟩ := hf.spawning p none rfl
    obtain ⟨hf', hkeep'⟩ := hf.procReady (ψ := .run) hlt (by simp [hd]) fun d slot hd => nomatch hd
    exact ⟨hf', fun q hq => hkeep' q (hkeep q hq)⟩
  | _ => exact absurd trivial hoff

/-! ### Whole runs -/

theorem Final.boot (mallocOk : Nat → Bool) : Final .run (boot mallocOk) where
  unborn _ _ := ⟨rfl, rfl⟩
  born w p hp := by cases w <;> simp [TpeSo.boot, waiters] at hp
  unlinked _ hz := nomatch hz
  current _ hc := nomatch hc
  spawning _ _ hp := nomatch hp

theorem Final.does (h : Final φ k) (hok : CleanStep k₀ e)
    (hd : Does (Origin k₀ e) (φ, k) (ψ, k')) : Final ψ k' ∧ Keeps k k' := by
  refine Does.invariant (fun φ k₁ => Final φ k₁ ∧ Keeps k k₁) ?_ hd ⟨h, fun _ hq => hq⟩
  intro φ k₁ a ψ k₂ hI hC hm
  obtain ⟨hf, hkeep⟩ := hm.final hok hI.1 hC
  exact ⟨hf, fun q hq => hkeep q (hI.2 q hq)⟩

theorem Final.step {o : Option Completion} (h : Final .run k) (hok : CleanStep k e)
    (hs : step k e = some (k', o)) : Final .run k' ∧ Keeps k k' :=
  h.does hok (step_does hs)

/-- While the books of the scheduler are in order, a kill is clean unless its victim waits
    on a semaphore. -/
theorem Part.cleanKill_iff (h : Part .run k) :
    CleanKill k p ↔ ∀ id, p ∉ waiters k (.semaphore id) := by
  constructor
  · exact fun hk => hk.noSemaphore
  · intro hsem
    refine ⟨?_, hsem, ?_, fun hc => h.current p hc⟩
    · intro w hp
      by_cases hw : w = .readyQueue
      · subst hw
        exact (h.runnable p (.inl ((h.ready p).mp hp))).symm
      · exact (h.waiting w hw p hp).2.symm
    · by_cases hw : (k.procs p).waitingOn = .readyQueue
      · rw [hw]
        exact List.nodup_iff_count_le_one.mp h.readyNodup p
      · exact List.nodup_iff_count_le_one.mp (h.waitNodup _ hw) p

/-- The steps under which the partition invariant holds only make clean kills. -/
theorem SchedStep.cleanStep (h : Part .run k) (hok : SchedStep k e) : CleanStep k e := by
  intro p hp
  refine h.cleanKill_iff.mpr fun id hmem => ?_
  exact (hok.kill p hp).1 (h.waiting _ (by simp) p hmem).1

/-- Spawns, kills, exits, semaphores, pipes, sleeps, the timer and `wait_pid`. -/
def lifeEvent : Event → Bool
  | .timer | .user _ | .resume | .sysRead .. | .sysWrite .. | .sysSleep _ | .sysUsleep _
  | .sysPipeCreate .. | .sysPipeOpen .. | .sysPipeClose _ | .sysCloseFd _ | .sysSpawn _
  | .sysKillProc _ | .sysExit _ | .sysWaitPid _ | .sysWait | .sysYield | .sysCreateSem ..
  | .sysSemPost _ | .sysSemWait _ | .sysSemTrywait _ => true
  | _ => false

/-- A child waits on a semaphore and is killed there; then the semaphore is posted. -/
def revivalEvents : List Event :=
  [.sysSpawn { entry := some 1, fds := none, background := false },
   .sysSpawn { entry := some 2, fds := none, background := true },
   .sysSpawn { entry := some 3, fds := none, background := true },
   .timer, .sysCreateSem 5 0, .sysYield, .sysYield, .sysSemWait 5, .resume, .sysKillProc 2,
   .sysSemPost 5]

end TpeSo
