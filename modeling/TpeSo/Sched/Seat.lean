import TpeSo.Acts.Objects
import TpeSo.Sched.Born
import TpeSo.Sched.RoundRobin

namespace TpeSo

open Ds Lib

/-!
# Scheduling — `idle` has the processor or is ready

`idle` is there so that `schedule` always finds somebody: it only halts, and nothing is to block
it.  `proc_kill` spares it by its pid.  `block_process_by_pid` does not.

* `Seated φ k` — `idle` is running, or ready and in the ready queue, and waits nowhere;
* `Act.sparesIdle` — the edits that do not take it away; `Micro.seated`;
* `SparesIdle k e` — the steps made of such edits; `Seated.step`.
-/

variable {φ ψ : Phase} {k k' k₀ : Kernel} {e : Event} {a : Act} {p c : ProcId}
  {o : Option Completion}

/-! ### Who is `RUNNING` -/

/-- Nobody but the current process is `RUNNING`. -/
def OneRunning (k : Kernel) : Prop :=
  ∀ p, (k.procs p).status = .running → k.currentProcess = some p

namespace OneRunning

theorem boot (f : Nat → Bool) : OneRunning (boot f) := fun _ h => nomatch h

theorem of_status (h : OneRunning k) (hs : ∀ p, (k'.procs p).status = (k.procs p).status)
    (hc : k'.currentProcess = k.currentProcess) : OneRunning k' := by
  intro p hp
  rw [hs] at hp
  rw [hc]
  exact h p hp

/-- A process that does not run afterwards changes. -/
theorem change (h : OneRunning k) (p : ProcId) (hother : ∀ q, q ≠ p → k'.procs q = k.procs q)
    (hself : (k'.procs p).status ≠ .running) (hc : k'.currentProcess = k.currentProcess) :
    OneRunning k' := by
  intro q hq
  by_cases hqp : q = p
  · subst hqp
    exact absurd hq hself
  · rw [hother q hqp] at hq
    rw [hc]
    exact h q hq

theorem procReady (h : OneRunning k) (p : ProcId) : OneRunning (procReady k (some p)) :=
  h.change p (fun _ hq => procReady_procs_ne k hq) (by simp) rfl

theorem markBlocked (h : OneRunning k) (p : ProcId) (reason : BlockReason) (w : WaitRef) :
    OneRunning (markBlocked k p reason w) := by
  refine h.change p (fun q hq => ?_) ?_ rfl
  · simp [TpeSo.markBlocked, Kernel.setProc, Kernel.alloc, hq]
  · simp [TpeSo.markBlocked, Kernel.setProc, Kernel.alloc]

theorem leave (h : OneRunning k) (c : ProcId) (reason : BlockReason) (w : WaitRef)
    (pend : Pending) : OneRunning (leave k c reason w pend) := by
  have hsus : OneRunning (k.suspend pend) :=
    h.of_status (SchedSame.suspend k pend).status (SchedSame.suspend k pend).current
  exact (hsus.markBlocked c reason w).of_status (Kernel.setProc_spares _ Proc.status rfl) rfl

/-- The head of the ready queue comes up, when nobody is `RUNNING`. -/
theorem dispatchTo (hnone : ∀ q, (k.procs q).status ≠ .running) (p : ProcId) (rest : List ProcId) :
    OneRunning (dispatchTo k p rest) := by
  intro q hq
  by_cases hqp : q = p
  · subst hqp
    rfl
  · simp only [TpeSo.dispatchTo, Kernel.procs_setProc_ne _ hqp] at hq
    exact absurd hq (hnone q)

theorem bury (h : OneRunning k) (p : ProcId) (code : Int) : OneRunning (bury k p code) := by
  intro q hq
  by_cases hqp : q = p
  · subst hqp
    simp [TpeSo.bury] at hq
  · rw [bury_procs_ne k code hqp] at hq
    have hnot : (k.procs p).status ≠ .running := fun hr =>
      hqp (Option.some.inj ((h q hq).symm.trans (h p hr)))
    show (unlinkWaiting (rmCurrent k p) p).currentProcess = some q
    rw [unlinkWaiting_currentProcess, rmCurrent, if_neg hnot]
    exact h q hq

/-- When the current process gives way, nobody is `RUNNING`. -/
theorem none_of_current (h : OneRunning k)
    (hc : ∀ c, k.currentProcess = some c → (k.procs c).status ≠ .running) (q : ProcId) :
    (k.procs q).status ≠ .running :=
  fun hq => hc q (h q hq) hq

/-- When the current process has been readied, nobody is `RUNNING`. -/
theorem none_of_preempt (h : OneRunning k) (hc : k.currentProcess = some c) (q : ProcId) :
    ((TpeSo.procReady k (some c)).procs q).status ≠ .running := by
  refine (h.procReady c).none_of_current (fun c' hc' => ?_) q
  cases hc.symm.trans hc'
  simp

end OneRunning

/-- **Every edit.** -/
theorem Micro.oneRunning (h : OneRunning k) (hm : Micro φ k a ψ k') : OneRunning k' := by
  by_cases hoff : a.offSched
  · obtain ⟨hs, -⟩ := hm.schedSame hoff
    exact h.of_status hs.status hs.current
  cases hm with
  | quantum | refill => exact h.of_status (k.setProc_spares Proc.status rfl) rfl
  | dispatch hφ hc hr =>
    refine .dispatchTo (h.none_of_current fun c hc' => ?_) _ _
    rcases hc c hc' with hs | hs | hs <;> simp [hs]
  | preempt hφ hc hs hr => exact .dispatchTo (h.none_of_preempt hc) _ _
  | @blockSelf _ c w reason pend hc hw =>
    have hlink := SchedBase.linkWaiter k w c
    exact (h.of_status hlink.status hlink.current).leave c reason w pend
  | @blockSleep _ c t =>
    have hlink : OneRunning (linkSleeper k c t) := h
    exact hlink.leave c .sleep .sleepers .sleep
  | blockOther => exact h.markBlocked _ _ _
  | wakeSleeper | unblock | wakeParent | start => exact h.procReady _
  | @wake _ _ w p =>
    have hpop := SchedSame.popWaiter k w
    exact (h.of_status hpop.status hpop.current).procReady p
  | @startBare p =>
    have halloc : OneRunning k.alloc := h
    exact halloc.procReady p
  | kill p code => exact h.bury p code
  | newProc => exact h.change k.nextProc (fun q hq => Function.update_of_ne hq _ _) (by simp) rfl
  | noPid => exact h.of_status (k.setProc_spares Proc.status rfl) rfl
  | @claimPid p _ i =>
    exact h.of_status (k.setProc_spares Proc.status (f := fun q => { q with pid := i }) rfl) rfl
  | tick | tickLeaving | dropSleeper | stay | endKill | reapSelf | reapChild => exact h
  | _ => exact absurd trivial hoff

/-! ### Who waits -/

/-- The edits of the scheduler's own queues. -/
theorem waiters_markBlocked (k : Kernel) (p : ProcId) (reason : BlockReason) (v : WaitRef)
    {w : WaitRef} (hw : w ≠ .readyQueue) : waiters (markBlocked k p reason v) w = waiters k w := by
  cases w <;> first | rfl | exact absurd rfl hw

theorem waiters_leave (k : Kernel) (c : ProcId) (reason : BlockReason) (v : WaitRef) (pend : Pending)
    {w : WaitRef} (hw : w ≠ .readyQueue) : waiters (leave k c reason v pend) w = waiters k w := by
  have hset : waiters (leave k c reason v pend) w =
      waiters (markBlocked (k.suspend pend) c reason v) w := by
    cases w <;> rfl
  rw [hset, waiters_markBlocked _ c reason v hw, waiters_suspend]

theorem waiters_dispatchTo (k : Kernel) (p : ProcId) (rest : List ProcId) {w : WaitRef}
    (hw : w ≠ .readyQueue) : waiters (dispatchTo k p rest) w = waiters k w := by
  cases w <;> first | rfl | exact absurd rfl hw

/-- **Only a process that blocks itself** enters a wait queue. -/
theorem Micro.linked (hm : Micro φ k a ψ k') {w : WaitRef} (hw : w ≠ .readyQueue)
    (hp : p ∈ waiters k' w) : p ∈ waiters k w ∨ ∃ pend, a = .blockSelf p w pend := by
  by_cases hoff : a.offSched
  · exact .inl (((hm.schedSame hoff).1.waiters w).subset hp)
  cases hm with
  | @blockSelf _ c v reason pend hc hv =>
    rw [waiters_leave _ c reason v pend hw] at hp
    rcases waiters_linkWaiter k v c hv.ne_readyQueue w with hl | ⟨rfl, hl⟩
    · exact .inl (hl ▸ hp)
    · rw [hl, List.mem_append, List.mem_singleton] at hp
      exact hp.imp_right fun hpc => ⟨pend, by rw [hpc]⟩
  | blockSleep =>
    rw [waiters_leave _ _ _ _ _ hw] at hp
    exact .inl (by cases w <;> exact hp)
  | @wakeSleeper _ _ sp q =>
    left
    rw [← procReady_waiters k q hw]
    cases w <;> exact hp
  | dispatch => exact .inl (by rwa [waiters_dispatchTo _ _ _ hw] at hp)
  | preempt =>
    rw [waiters_dispatchTo _ _ _ hw, procReady_waiters k _ hw] at hp
    exact .inl hp
  | @wake _ _ v q =>
    rw [procReady_waiters _ q hw] at hp
    exact .inl (((SchedSame.popWaiter k v).waiters w).subset hp)
  | blockOther => exact .inl (by rwa [waiters_markBlocked k _ _ _ hw] at hp)
  | kill => exact .inl (mem_waiters_bury hp)
  | unblock | wakeParent | start => exact .inl (by rwa [procReady_waiters k _ hw] at hp)
  | startBare =>
    rw [procReady_waiters _ _ hw] at hp
    exact .inl (by cases w <;> exact hp)
  | _ => first | exact absurd trivial hoff | exact .inl (by cases w <;> exact hp)

/-! ### The seat -/

/-- The first process that is handed out. -/
abbrev idle : ProcId := 0

/-- `idle` is on the processor, or ready and waiting for it. -/
def HasSeat (k : Kernel) : Prop :=
  (k.currentProcess = some idle ∧ (k.procs idle).status = .running) ∨
    (idle ∈ k.readyProcesses ∧ (k.procs idle).status = .ready)

/-- `idle` has its seat, is in no other queue, and nobody but the current process is `RUNNING`,
    so that a kill takes nobody else off the processor. -/
structure Seated (φ : Phase) (k : Kernel) : Prop where
  born : idle < k.nextProc
  setup : ∀ slot, φ ≠ .spawning idle slot
  pid : (k.procs idle).pid = 0
  alone : OneRunning k
  unlinked : ∀ w, w ≠ .readyQueue → idle ∉ waiters k w
  seat : HasSeat k

/-- The edit blocks, preempts and kills somebody else, if anybody. -/
def Act.sparesIdle : Act → Prop
  | .preempt c _ | .blockSelf c _ _ | .blockSleep c _ | .blockOther c | .kill c => c ≠ idle
  | _ => True

/-- The seat, and the record of `idle`, after an edit of somebody else. -/
structure KeepsIdle (k k' : Kernel) : Prop where
  record : (k'.procs idle).pid = (k.procs idle).pid ∧ (k'.procs idle).status = (k.procs idle).status
  seat : HasSeat k → HasSeat k'

namespace KeepsIdle

variable {k₁ : Kernel}

theorem trans (h : KeepsIdle k k₁) (g : KeepsIdle k₁ k') : KeepsIdle k k' :=
  ⟨⟨g.record.1.trans h.record.1, g.record.2.trans h.record.2⟩, fun hs => g.seat (h.seat hs)⟩

theorem of_base (hb : SchedBase k k') : KeepsIdle k k' := by
  refine ⟨⟨hb.pid idle, hb.status idle⟩, fun hs => ?_⟩
  unfold HasSeat
  rw [hb.current, hb.status, hb.ready]
  exact hs

/-- **Somebody else changes**, and `idle` is not lost from the ready queue. -/
theorem of_other (hp : k'.procs idle = k.procs idle)
    (hcur : k.currentProcess = some idle → (k.procs idle).status = .running →
      k'.currentProcess = some idle)
    (hready : idle ∈ k.readyProcesses → idle ∈ k'.readyProcesses) : KeepsIdle k k' := by
  refine ⟨by rw [hp]; exact ⟨rfl, rfl⟩, fun hs => ?_⟩
  unfold HasSeat
  rw [hp]
  exact hs.imp (fun hs => ⟨hcur hs.1 hs.2, hs.2⟩) fun hs => ⟨hready hs.1, hs.2⟩

theorem procReady (k : Kernel) (hp : p ≠ idle) : KeepsIdle k (procReady k (some p)) := by
  refine of_other (procReady_procs_ne k hp.symm) (fun hc _ => hc) fun hmem => ?_
  rw [procReady_ready]
  cases k.kmalloc with
  | false => exact hmem
  | true => exact List.mem_append_left _ hmem

theorem markBlocked (k : Kernel) (hp : p ≠ idle) (reason : BlockReason) (w : WaitRef) :
    KeepsIdle k (markBlocked k p reason w) := by
  refine of_other ?_ (fun hc _ => hc) fun hmem => (List.mem_erase_of_ne hp.symm).mpr hmem
  simp [TpeSo.markBlocked, Kernel.setProc, Kernel.alloc, hp.symm]

theorem setProc (k : Kernel) (p : ProcId) {f : Proc → Proc}
    (h : (f (k.procs p)).sched = (k.procs p).sched) : KeepsIdle k (k.setProc p f) :=
  of_base ⟨k.setProc_spares Proc.sched h, rfl, id⟩

theorem leave (k : Kernel) (hp : p ≠ idle) (reason : BlockReason) (w : WaitRef) (pend : Pending) :
    KeepsIdle k (leave k p reason w pend) :=
  ((of_base (SchedSame.suspend k pend).toSchedBase).trans (markBlocked _ hp reason w)).trans
    (setProc (f := fun q => { q with hasQuantum := 0 }) _ p rfl)

/-- A kill of somebody else takes nobody else off the processor. -/
theorem bury (h : OneRunning k) (hp : p ≠ idle) (code : Int) : KeepsIdle k (bury k p code) := by
  refine of_other (bury_procs_ne k code hp.symm) (fun _ hs => ?_) fun hmem => ?_
  · have hs' : ((TpeSo.bury k p code).procs idle).status = .running := by
      rw [bury_procs_ne k code hp.symm]
      exact hs
    exact h.bury p code idle hs'
  · show idle ∈ (unlinkWaiting (rmCurrent k p) p).readyProcesses
    have hready : (rmCurrent k p).readyProcesses = k.readyProcesses :=
      waiters_rmCurrent k p .readyQueue
    unfold unlinkWaiting
    split
    · exact (List.mem_erase_of_ne hp.symm).mpr (hready ▸ hmem)
    all_goals exact hready ▸ hmem

end KeepsIdle

/-- **The head of the ready queue comes up**, when nobody is `RUNNING`. -/
theorem HasSeat.dispatchTo (h : HasSeat k) (hnone : ∀ q, (k.procs q).status ≠ .running)
    {rest : List ProcId} (hr : k.readyProcesses = p :: rest) : HasSeat (dispatchTo k p rest) := by
  have hidle : idle ∈ k.readyProcesses ∧ (k.procs idle).status = .ready :=
    h.resolve_left fun hs => hnone idle hs.2
  by_cases hp : idle = p
  · subst hp
    exact .inl ⟨rfl, by simp [TpeSo.dispatchTo]⟩
  · refine .inr ⟨?_, ?_⟩
    · rw [hr] at hidle
      exact (List.mem_cons.mp hidle.1).resolve_left hp
    · simpa [TpeSo.dispatchTo, Kernel.setProc, hp] using hidle.2

theorem dispatchTo_pid (k : Kernel) (p q : ProcId) (rest : List ProcId) :
    ((dispatchTo k p rest).procs q).pid = (k.procs q).pid :=
  Kernel.setProc_spares { k with readyProcesses := rest, currentProcess := some p } Proc.pid rfl q

namespace Seated

theorem ne_of_blocked (h : Seated φ k) (hs : (k.procs p).status = .blocked) : p ≠ idle := by
  rintro rfl
  rcases h.seat with ⟨-, hs'⟩ | ⟨-, hs'⟩ <;> cases hs.symm.trans hs'

theorem ne_of_spawning {slot : Option Nat} (h : Seated (.spawning p slot) k) : p ≠ idle := by
  rintro rfl
  exact h.setup slot rfl

theorem quiet (h : Seated φ k) (hq : Quiet k k') : Seated φ k' := by
  have hs := SchedSame.of_quiet hq
  have hkeep := KeepsIdle.of_base hs.toSchedBase
  exact ⟨hs.nextProc ▸ h.born, h.setup, hkeep.record.1.trans h.pid,
    h.alone.of_status hs.status hs.current,
    fun w hw hmem => h.unlinked w hw ((hs.waiters w).subset hmem), hkeep.seat h.seat⟩

end Seated

/-- The seat and the pid after an edit that spares `idle`. -/
theorem Micro.keepsSeat (h : Seated φ k) (ha : a.sparesIdle) (hm : Micro φ k a ψ k') :
    (k'.procs idle).pid = 0 ∧ HasSeat k' := by
  have keeps : ∀ {k'}, KeepsIdle k k' → (k'.procs idle).pid = 0 ∧ HasSeat k' :=
    fun hk => ⟨hk.record.1.trans h.pid, hk.seat h.seat⟩
  by_cases hoff : a.offSched
  · exact keeps (.of_base (hm.schedSame hoff).1.toSchedBase)
  cases hm with
  | quantum p n => exact keeps (.setProc k p rfl)
  | refill n => exact keeps (.setProc k _ rfl)
  | dispatch hφ hc hr =>
    refine ⟨(dispatchTo_pid k _ idle _).trans h.pid, h.seat.dispatchTo ?_ hr⟩
    refine h.alone.none_of_current fun c hc' => ?_
    rcases hc c hc' with hs | hs | hs <;> simp [hs]
  | @preempt _ _ c p rest hφ hc hs hr =>
    obtain ⟨hpid, hseat⟩ := keeps (.procReady k ha)
    exact ⟨(dispatchTo_pid _ p idle rest).trans hpid,
      hseat.dispatchTo (h.alone.none_of_preempt hc) hr⟩
  | @blockSelf _ c w reason pend hc hw =>
    exact keeps ((KeepsIdle.of_base (.linkWaiter k w c)).trans (.leave _ ha reason w pend))
  | @blockSleep _ c t =>
    have hlink : KeepsIdle k (linkSleeper k c t) := .of_base (.of_alloc rfl rfl rfl)
    exact keeps (hlink.trans (.leave _ ha .sleep .sleepers .sleep))
  | blockOther => exact keeps (.markBlocked k ha _ _)
  | wakeSleeper hφ hmem hdue hp hs =>
    have hready := KeepsIdle.procReady k (h.ne_of_blocked hs)
    exact keeps ⟨hready.record, hready.seat⟩
  | unblock hs => exact keeps (.procReady k (h.ne_of_blocked hs))
  | wakeParent hs => exact keeps (.procReady k (h.ne_of_blocked hs))
  | @wake _ _ w p hφ hw =>
    obtain ⟨hne, hcons⟩ := waiters_of_firstWaiter hw
    have hp : p ≠ idle := by
      rintro rfl
      exact h.unlinked w hne (by simp [hcons])
    have hpop := KeepsIdle.of_base (SchedSame.popWaiter k w).toSchedBase
    exact keeps (hpop.trans (.procReady _ hp))
  | kill p code => exact keeps (.bury h.alone ha code)
  | newProc =>
    have hne : idle ≠ k.nextProc := h.born.ne
    exact keeps (.of_other (Function.update_of_ne hne _ _) (fun hc _ => hc) id)
  | @noPid p =>
    exact keeps (.of_other (k.procs_setProc_ne h.ne_of_spawning.symm) (fun hc _ => hc) id)
  | @claimPid p _ i =>
    have hset : (k.setProc p fun q => { q with pid := i }).procs idle = k.procs idle :=
      k.procs_setProc_ne h.ne_of_spawning.symm
    exact keeps (.of_other hset (fun hc _ => hc) id)
  | start => exact keeps (.procReady k h.ne_of_spawning)
  | startBare =>
    have halloc := KeepsIdle.of_base (SchedSame.alloc k).toSchedBase
    exact keeps (halloc.trans (.procReady _ h.ne_of_spawning))
  | tick | tickLeaving | dropSleeper | stay | endKill | reapSelf | reapChild => exact ⟨h.pid, h.seat⟩
  | _ => exact absurd trivial hoff

/-- `idle` is not set up a second time. -/
theorem Micro.setup (h : Seated φ k) (hm : Micro φ k a ψ k') (slot : Option Nat) :
    ψ ≠ .spawning idle slot := by
  intro hψ
  cases hm with
  | newProc => exact h.born.ne' (Phase.spawning.inj hψ).1
  | claimPid => exact h.ne_of_spawning (Phase.spawning.inj hψ).1
  | _ => first | exact h.setup _ hψ | exact nomatch hψ

/-- **Every edit that spares `idle`** leaves it its seat. -/
theorem Micro.seated (h : Seated φ k) (ha : a.sparesIdle) (hm : Micro φ k a ψ k') :
    Seated ψ k' := by
  obtain ⟨hpid, hseat⟩ := hm.keepsSeat h ha
  refine ⟨h.born.trans_le hm.nextProc_le, hm.setup h, hpid, hm.oneRunning h.alone,
    fun w hw hmem => ?_, hseat⟩
  rcases hm.linked hw hmem with hmem' | ⟨pend, rfl⟩
  · exact h.unlinked w hw hmem'
  · exact ha rfl

/-- A sequence of edits that spare `idle`. -/
theorem Seated.does {C : Kernel → Act → Prop} (h : Seated φ k)
    (hC : ∀ φ k a, Seated φ k → C k a → a.sparesIdle) (hd : Does C (φ, k) (ψ, k')) :
    Seated ψ k' :=
  hd.invariant Seated (fun φ _ a _ _ hI ha hm => hm.seated hI (hC φ _ a hI ha)) h

/-! ### The steps -/

/-- The switch that takes the processor from `idle` finds a node to queue it with: its quantum is
    not used up, or nobody else is ready, or the `kmalloc` of `proc_ready` succeeds. -/
def idleRequeued (k : Kernel) : Bool :=
  match timerHandler k with
  | .ok k₁ => decide (1 < (k₁.procs idle).hasQuantum) || k₁.readyProcesses.isEmpty || k₁.kmalloc
  | _ => true

/-- `idle_main` only halts: while it runs the kernel is entered by interrupts, not by calls. -/
def IdleHalts (k : Kernel) (e : Event) : Prop :=
  k.currentProcess = some idle →
    match e with
    | .timer | .key _ | .user _ => True
    | _ => False

/-- A tick that takes the processor from `idle` queues it again. -/
def QueuesIdle (k : Kernel) (e : Event) : Prop :=
  k.currentProcess = some idle →
    match e with
    | .timer => idleRequeued k = true
    | _ => True

/-- **The steps that leave `idle` its seat**: it makes no system call, `sys_block` is not called on
    it, and it is queued again when it is preempted. -/
structure SparesIdle (k : Kernel) (e : Event) : Prop where
  halts : IdleHalts k e
  block : blockTarget k e ≠ some idle
  queues : QueuesIdle k e

instance (k : Kernel) (e : Event) : Decidable (IdleHalts k e) := by
  rcases e with ⟨⟩ <;> dsimp only [IdleHalts] <;> infer_instance

instance (k : Kernel) (e : Event) : Decidable (QueuesIdle k e) := by
  rcases e with ⟨⟩ <;> dsimp only [QueuesIdle] <;> infer_instance

instance (k : Kernel) (e : Event) : Decidable (SparesIdle k e) :=
  decidable_of_iff (IdleHalts k e ∧ blockTarget k e ≠ some idle ∧ QueuesIdle k e)
    ⟨fun h => ⟨h.1, h.2.1, h.2.2⟩, fun h => ⟨h.halts, h.block, h.queues⟩⟩

namespace Seated

/-- The kill of an entry spares `idle` by its pid. -/
theorem killTarget_ne (h : Seated φ k) (ht : killTarget k e = some p) : p ≠ idle := by
  rintro rfl
  exact killTarget_pid ht (.inl h.pid)

/-- A step made by another process. -/
theorem step_other (h : Seated .run k) (hc : k.currentProcess ≠ some idle)
    (hb : blockTarget k e ≠ some idle) (hs : step k e = some (k', o)) : Seated .run k' := by
  refine h.does (fun φ k₁ a h₁ ho => ?_) (step_causes hs)
  have hcur : ∀ c, k.currentProcess = some c → c ≠ idle := fun c hc' hi => hc (hi ▸ hc')
  cases a with
  | preempt c p => exact hcur c ho.2
  | blockSelf c w pend => exact hcur c ho.2
  | blockSleep c t => exact hcur c ho.2
  | blockOther p => exact fun hi => hb (hi ▸ ho.2)
  | kill p => exact h.killTarget_ne ho.1.2
  | _ => trivial

theorem common_sparesIdle : Common fun _ a => a.sparesIdle := by
  intro _ a ha
  cases a with
  | preempt c p => exact ha.elim
  | blockSelf c w pend => exact ha.elim
  | blockSleep c t => exact ha.elim
  | blockOther p => exact ha.elim
  | kill p => exact ha.elim
  | _ => trivial

/-- `timer_handler` wakes sleepers only, and `idle` does not sleep. -/
theorem timerHandler (h : Seated φ k) (ht : timerHandler k = .ok k') : Seated .run k' := by
  have htick : Seated .run { k with ticks := (k.ticks + 1) % word } :=
    { h with setup := fun _ hs => nomatch hs }
  exact htick.does (fun _ _ _ _ ha => ha)
    (does_wakeDue common_sparesIdle (.inl rfl) _ _ [] rfl (by simp) ht)

/-- `idle` gives up the processor and is queued again. -/
theorem preemptIdle (h : Seated .run k) (hc : k.currentProcess = some idle) (hm : k.kmalloc = true)
    (ht : enqueueNextProcess (TpeSo.procReady k (some idle)) = .ok k') : Seated .run k' := by
  obtain ⟨p, rest, hr, rfl⟩ := enqueueNextProcess_eq_ok ht
  have hnone := h.alone.none_of_preempt hc
  have hseat : HasSeat (TpeSo.procReady k (some idle)) := by
    refine .inr ⟨?_, by simp⟩
    rw [procReady_ready, hm]
    exact List.mem_append_right _ (List.mem_singleton.mpr rfl)
  refine ⟨h.born, fun _ hs => (nomatch hs), ?_, .dispatchTo hnone p rest, fun w hw => ?_,
    hseat.dispatchTo hnone hr⟩
  · rw [dispatchTo_pid, procReady_pid]
    exact h.pid
  · rw [waiters_dispatchTo _ p rest hw, procReady_waiters k idle hw]
    exact h.unlinked w hw

/-- `schedule`, when `idle` is current. -/
theorem pickNext_idle (h : Seated .run k) (hc : k.currentProcess = some idle)
    (hreq : 1 < (k.procs idle).hasQuantum ∨ k.readyProcesses = [] ∨ k.kmalloc = true) {rsp : Nat}
    (ht : pickNext k rsp = .ok k') : Seated .run k' := by
  by_cases hr : k.readyProcesses = []
  · have hsp : Seated .run (k.setProc idle fun q => { q with stackPointer := rsp }) :=
      h.quiet (.setProc idle rfl id)
    have hs := (hsp.seat.resolve_right fun hs => List.ne_nil_of_mem hs.1 hr).2
    unfold pickNext at ht
    rw [hc] at ht
    dsimp only at ht
    rw [if_pos (show (k.setProc idle _).readyProcesses = [] from hr), if_pos hs] at ht
    cases ht
    exact Micro.seated (a := .refill) hsp trivial (.refill _ (.inl rfl) hc hs)
  · have hint : Seated .run (interrupted k idle rsp) :=
      h.quiet (.setProc idle rfl fun hq => by simp [hq])
    rw [pickNext_eq hc hr] at ht
    split at ht
    · have hm : k.kmalloc = true := (hreq.resolve_left (by omega)).resolve_left hr
      split at ht
      · rw [procReady_setStatus] at ht
        exact hint.preemptIdle hc hm ht
      · rename_i hs
        -- `idle` is running or ready, so that it is queued again in any case
        rcases h.seat with ⟨-, hs'⟩ | ⟨-, hs'⟩ <;> simp [hs'] at hs
    · cases ht
      exact hint

/-- **The timer interrupts `idle`.** -/
theorem timer_idle (h : Seated .run k) (hc : k.currentProcess = some idle)
    (hreq : idleRequeued k = true) (ht : callTimerTick k = .ok k') : Seated .run k' := by
  simp only [callTimerTick, schedule, Outcome.bind_eq_ok] at ht
  obtain ⟨k₁, hw, ⟨k₂, rsp⟩, ⟨k₃, hp, hs⟩, he⟩ := ht
  have hcur : k₁.currentProcess = some idle := (current_wakeDue _ hw).trans hc
  unfold idleRequeued at hreq
  rw [hw] at hreq
  simp only [Bool.or_eq_true, decide_eq_true_eq, List.isEmpty_iff, or_assoc] at hreq
  have h₃ := (h.timerHandler hw).pickNext_idle hcur hreq hp
  split at hs
  · cases hs
  · cases hs
    cases he
    exact h₃.quiet (.unwatched rfl rfl rfl rfl rfl id)

/-- **One step** that spares `idle`. -/
theorem step (h : Seated .run k) (hok : SparesIdle k e) (hs : step k e = some (k', o)) :
    Seated .run k' := by
  by_cases hc : k.currentProcess = some idle
  · have hhalts := hok.halts hc
    have hcall := step_attempt hs
    cases e with
    | timer =>
      obtain ⟨k₁, ht, he⟩ := Outcome.bind_eq_ok.mp hcall
      cases he
      exact h.timer_idle hc (hok.queues hc) ht
    | key sc =>
      obtain ⟨k₁, ht, he⟩ := Outcome.bind_eq_ok.mp hcall
      cases he
      exact h.does (fun _ _ _ _ ha => ha) (does_handleKeyPress common_sparesIdle
        (fun p k₂ hp _ => h.killTarget_ne hp) ht)
    | user rsp =>
      cases hcall
      exact h.quiet (.unwatched rfl rfl rfl rfl rfl id)
    | _ => exact hhalts.elim
  · exact h.step_other hc hok.block hs

end Seated

/-! ### The start -/

/-- The first spawn has returned the pid `0`, and the process is in the ready queue. -/
def IdleSpawned (f : Nat → Bool) (k : Kernel) : Prop :=
  ∃ a, step (boot f) (.sysSpawn a) = some (k, some (.other 0)) ∧ idle ∈ k.readyProcesses

theorem Seated.start {f : Nat → Bool} (h : IdleSpawned f k) : Seated .run k := by
  obtain ⟨a, hs, hmem⟩ := h
  have hborn : Born .run k :=
    (step_does hs).invariant Born (fun _ _ _ _ _ hI _ hm => hI.step hm) (.boot f)
  have halone : OneRunning k :=
    (step_does hs).invariant (fun _ k => OneRunning k) (fun _ _ _ _ _ hI _ hm => hm.oneRunning hI)
      (.boot f)
  have hunlinked : ∀ w, w ≠ .readyQueue → idle ∉ waiters k w := by
    refine (step_causes hs).invariant (fun _ k => ∀ w, w ≠ .readyQueue → idle ∉ waiters k w) ?_
      fun w _ hw => by cases w <;> cases hw
    intro φ k₁ a ψ k₂ hI hC hm w hw hmem
    rcases hm.linked hw hmem with hmem | ⟨pend, rfl⟩
    · exact hI w hw hmem
    · exact nomatch hC.2
  obtain ⟨r, hr, he⟩ := Outcome.bind_eq_ok.mp (step_attempt hs)
  simp only [done, Outcome.ok.injEq, Prod.mk.injEq, Option.some.injEq, Completion.other.injEq] at he
  obtain ⟨rfl, hret⟩ := he
  rcases sysSpawnProcess_eq_ok hr with hpid | hpid | ⟨k₁, hk, hpid⟩
  · cases hret.symm.trans hpid
  · cases hret.symm.trans hpid
  · refine ⟨hborn.waiting .readyQueue idle hmem, fun _ hφ => (nomatch hφ), hpid.symm.trans hret,
      halone, hunlinked, .inr ⟨hmem, ?_⟩⟩
    rw [hk]
    exact congrArg Proc.status (procReady_procs_self k₁ idle)

/-- **`idle` keeps its seat** in every run whose steps spare it. -/
theorem Seated.run {f : Nat → Bool} {k₁ : Kernel} {tr : List (Kernel × Event × Option Completion)}
    (h₁ : IdleSpawned f k₁) (h : Trace TpeSo.step SparesIdle k₁ tr k) : Seated .run k :=
  h.invariant (Seated .run) (.start h₁) fun _ _ _ _ hI hok hs => hI.step hok hs

end TpeSo
