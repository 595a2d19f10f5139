import TpeSo.Acts.Stack
import TpeSo.Sched.Born

namespace TpeSo

open Ds Lib

/-!
# Semaphores — who waits, when `sys_unblock` spares the waiters

In runs without kills and sleeps in which `sys_unblock` only readies processes that wait for
no resource, nobody but a post ends a wait on a semaphore.  Nothing is asked of the heap: a
waiter that gets no node is linked nowhere, and waits for ever.

* `Linked k` — whoever is linked in a queue is in the state that goes with it;
* `Waits φ k` — the same with what the phase adds;
* `Micro.waits` — every edit keeps `Waits`;
* `Micro.awaits` — every edit but the hand-over of a token keeps a process waiting.
-/

variable {φ ψ : Phase} {k k' k₀ K : Kernel} {e : Event} {p c : ProcId} {id : Nat}

/-- Whoever is linked in a queue is in the state that goes with it. -/
structure Linked (k : Kernel) : Prop where
  readyNodup : k.readyProcesses.Nodup
  ready : ∀ p ∈ k.readyProcesses, (k.procs p).status = .ready
  noSleep : k.sleepingProcs = []
  waiting : ∀ w, w ≠ .readyQueue → ∀ p ∈ waiters k w,
    (k.procs p).status = .blocked ∧ (k.procs p).waitingOn = w
  waitNodup : ∀ w, w ≠ .readyQueue → (waiters k w).Nodup
  /-- Blocked for no resource of the kernel. -/
  idle : ∀ p, (k.procs p).status = .blocked →
    (k.procs p).blockReason = .arbitrary ∨ (k.procs p).blockReason = .child →
    (k.procs p).waitingOn = .null

namespace Linked

theorem notMem_waiters (h : Linked k) (hs : (k.procs p).status ≠ .blocked) (w : WaitRef)
    (hw : w ≠ .readyQueue) : p ∉ waiters k w := fun hp => hs (h.waiting w hw p hp).1

theorem schedView (h : Linked k) (s : SchedView k k') : Linked k' where
  readyNodup := by
    rw [s.ready]
    exact h.readyNodup
  ready p hp := by
    rw [s.ready] at hp
    rw [s.status]
    exact h.ready p hp
  noSleep := s.sleepers.trans h.noSleep
  waiting w hw p hp := by
    rw [s.status, s.waitingOn]
    exact h.waiting w hw p ((s.waiters w).subset hp)
  waitNodup w hw := (h.waitNodup w hw).sublist (s.waiters w)
  idle p := by
    rw [s.status, s.blockReason, s.waitingOn]
    exact h.idle p

/-- **One process changes its state.**  It is linked nowhere before; afterwards it may be
    linked in the one queue it then waits on. -/
theorem change (h : Linked k) (p : ProcId) (hother : ∀ q, q ≠ p → k'.procs q = k.procs q)
    (hfree : ∀ w, w ≠ .readyQueue → p ∉ waiters k w) (hreadyNodup : k'.readyProcesses.Nodup)
    (hready : ∀ q ∈ k'.readyProcesses,
      if q = p then (k'.procs p).status = .ready else q ∈ k.readyProcesses)
    (hsleep : k'.sleepingProcs = k.sleepingProcs)
    (hlink : ∀ v, v ≠ .readyQueue → waiters k' v = waiters k v ∨
      ((k'.procs p).status = .blocked ∧ (k'.procs p).waitingOn = v ∧
        waiters k' v = waiters k v ++ [p]))
    (hidle : (k'.procs p).status = .blocked →
      (k'.procs p).blockReason = .arbitrary ∨ (k'.procs p).blockReason = .child →
      (k'.procs p).waitingOn = .null) : Linked k' where
  readyNodup := hreadyNodup
  ready q hq := by
    have hq' := hready q hq
    split at hq'
    · rename_i hqp
      rw [hqp]
      exact hq'
    · rename_i hqp
      rw [hother q hqp]
      exact h.ready q hq'
  noSleep := hsleep.trans h.noSleep
  waiting v hv q hq := by
    by_cases hqp : q = p
    · subst hqp
      rcases hlink v hv with hl | ⟨hb, hw, -⟩
      · rw [hl] at hq
        exact absurd hq (hfree v hv)
      · exact ⟨hb, hw⟩
    · rw [hother q hqp]
      refine h.waiting v hv q ?_
      rcases hlink v hv with hl | ⟨-, -, hl⟩
      · rwa [hl] at hq
      · rw [hl, List.mem_append, List.mem_singleton] at hq
        exact hq.resolve_right hqp
  waitNodup v hv := by
    rcases hlink v hv with hl | ⟨-, -, hl⟩
    · rw [hl]
      exact h.waitNodup v hv
    · rw [hl, ← List.concat_eq_append]
      exact (h.waitNodup v hv).concat (hfree v hv)
  idle q := by
    by_cases hqp : q = p
    · subst hqp
      exact hidle
    · rw [hother q hqp]
      exact h.idle q

/-- `proc_ready` of a process that is linked nowhere. -/
theorem procReady (h : Linked k) (hs : (k.procs p).status ≠ .ready)
    (hw : ∀ w, w ≠ .readyQueue → p ∉ waiters k w) : Linked (procReady k (some p)) := by
  have hnot : p ∉ k.readyProcesses := fun hp => hs (h.ready p hp)
  refine h.change p (fun q hq => procReady_procs_ne k hq) hw ?_ ?_ rfl
    (fun v hv => .inl (procReady_waiters k p hv)) (by simp)
  · rw [procReady_ready]
    cases k.kmalloc with
    | false => exact h.readyNodup
    | true =>
      rw [enqueue_true, ← List.concat_eq_append]
      exact h.readyNodup.concat hnot
  · intro q hq
    split
    · simp
    · rename_i hqp
      exact (mem_of_mem_enqueue hq).resolve_right hqp

/-- **`block`**, up to the switch: `p` may have linked itself into `w` before. -/
theorem markBlocked (h : Linked k) (b : SchedBase k K) (hK : K.procs = k.procs)
    (hs : (k.procs p).status ≠ .blocked) {reason : BlockReason} {w : WaitRef}
    (hr : reason = .arbitrary ∨ reason = .child → w = .null)
    (hlink : ∀ v, v ≠ .readyQueue → waiters K v = waiters k v ∨
      (v = w ∧ waiters K v = waiters k v ++ [p]))
    (hsleep : K.sleepingProcs = k.sleepingProcs) :
    Linked (TpeSo.markBlocked K p reason w) := by
  have hself : (TpeSo.markBlocked K p reason w).procs p =
      { k.procs p with status := .blocked, blockReason := reason, waitingOn := w } := by
    simp [TpeSo.markBlocked, Kernel.setProc, Kernel.alloc, hK]
  have hready : (TpeSo.markBlocked K p reason w).readyProcesses = k.readyProcesses.erase p := by
    show K.readyProcesses.erase p = _
    rw [b.ready]
  refine h.change p ?_ (h.notMem_waiters hs) ?_ ?_ hsleep ?_ ?_
  · intro q hq
    simp [TpeSo.markBlocked, Kernel.setProc, Kernel.alloc, hq, hK]
  · rw [hready]
    exact h.readyNodup.erase p
  · intro q hq
    rw [hready, h.readyNodup.mem_erase_iff] at hq
    rw [if_neg hq.1]
    exact hq.2
  · intro v hv
    have hwaiters : waiters (TpeSo.markBlocked K p reason w) v = waiters K v := by
      cases v <;> first | rfl | exact absurd rfl hv
    rw [hwaiters, hself]
    exact (hlink v hv).imp id fun hl => ⟨rfl, hl.1.symm, hl.2⟩
  · rw [hself]
    exact fun _ => hr

/-- **`enqueue_next_process`** of the head of the ready queue. -/
theorem dispatchTo (h : Linked k) {rest : List ProcId} (hr : k.readyProcesses = p :: rest) :
    Linked (TpeSo.dispatchTo k p rest) := by
  have hready : (k.procs p).status = .ready := h.ready p (by rw [hr]; simp)
  have hnd : p ∉ rest ∧ rest.Nodup := List.nodup_cons.mp (hr ▸ h.readyNodup)
  refine h.change p ?_ (h.notMem_waiters (by simp [hready])) hnd.2 ?_ rfl (fun v hv => .inl ?_) ?_
  · intro q hq
    simp [TpeSo.dispatchTo, Kernel.setProc, hq]
  · intro q (hq : q ∈ rest)
    have hqp : q ≠ p := by
      rintro rfl
      exact hnd.1 hq
    rw [if_neg hqp, hr]
    exact List.mem_cons_of_mem p hq
  · cases v <;> first | rfl | exact absurd rfl hv
  · simp [TpeSo.dispatchTo, Kernel.setProc]

end Linked

/-! ### The phases -/

/-- What is known of the current process. -/
def Phase.currentStatus : Phase → ProcState
  | .leaving | .switching => .blocked
  | _ => .running

/-- What is known of the process the phase is about; nobody is killed. -/
def SetupOk (k : Kernel) : Phase → Prop
  | .dying _ => False
  | .spawning p _ => (k.procs p).status = .dead
  | _ => True

/-- The links of a kernel, and what the phase adds. -/
structure Waits (φ : Phase) (k : Kernel) : Prop extends Linked k where
  born : Born φ k
  current : ∀ c, k.currentProcess = some c → (k.procs c).status = φ.currentStatus
  /-- A process that leaves has no quantum left. -/
  leaver : ∀ c, k.currentProcess = some c → φ.currentStatus = .blocked →
    (k.procs c).hasQuantum = 0
  setup : SetupOk k φ

/-- Nobody is killed, nobody goes to sleep, and `sys_unblock` is only used on processes that
    wait for no resource. -/
structure SparesWaiters (k : Kernel) (e : Event) : Prop where
  noKill : killTarget k e = none
  noSleep : sleepTick k e = none
  unblock : ∀ p ∈ unblockTarget k e, (k.procs p).status = .blocked →
    (k.procs p).blockReason = .arbitrary ∨ (k.procs p).blockReason = .child

instance (k : Kernel) (e : Event) : Decidable (SparesWaiters k e) :=
  decidable_of_iff
    (killTarget k e = none ∧ sleepTick k e = none ∧
      ∀ p ∈ unblockTarget k e, (k.procs p).status = .blocked →
        (k.procs p).blockReason = .arbitrary ∨ (k.procs p).blockReason = .child)
    ⟨fun h => ⟨h.1, h.2.1, h.2.2⟩, fun h => ⟨h.noKill, h.noSleep, h.unblock⟩⟩

namespace Waits

theorem boot (f : Nat → Bool) : Waits .run (boot f) where
  readyNodup := List.nodup_nil
  ready _ hp := nomatch hp
  noSleep := rfl
  waiting w _ p hp := by cases w <;> simp [TpeSo.boot, waiters] at hp
  waitNodup w _ := by cases w <;> simp [TpeSo.boot, waiters]
  idle _ hs := nomatch hs
  born := .boot f
  current _ hc := nomatch hc
  leaver _ hc := nomatch hc
  setup := trivial

theorem setupOk_congr (hs : ∀ q, (k'.procs q).status = (k.procs q).status) (h : SetupOk k φ) :
    SetupOk k' φ := by
  cases φ with
  | dying q => exact h
  | spawning q slot => exact (hs q).trans h
  | _ => trivial

/-- The process that is being set up is dead, and nobody is being killed. -/
theorem setupOk_change (hs : ∀ q, q ≠ p → k'.procs q = k.procs q)
    (hd : (k.procs p).status ≠ .dead) (h : SetupOk k φ) : SetupOk k' φ := by
  cases φ with
  | dying q => exact h
  | spawning q slot =>
    have hqp : q ≠ p := by
      rintro rfl
      exact hd h
    show (k'.procs q).status = .dead
    rw [hs q hqp]
    exact h
  | _ => trivial

/-- Outside a switch: the scheduler sees no difference. -/
theorem schedView (h : Waits φ k) (s : SchedView k k') (hborn : Born ψ k')
    (hφ : φ.currentStatus = .running) (hψ : ψ.currentStatus = .running)
    (hsetup : SetupOk k' ψ) : Waits ψ k' where
  toLinked := h.toLinked.schedView s
  born := hborn
  current c hc := by
    rw [s.status, hψ, ← hφ]
    exact h.current c (s.current ▸ hc)
  leaver c hc hb := by
    rw [hψ] at hb
    cases hb
  setup := hsetup

theorem schedSame (h : Waits φ k) (s : SchedSame k k') (hborn : Born φ k') : Waits φ k' where
  toLinked := h.toLinked.schedView s.toSchedView
  born := hborn
  current c hc := by
    rw [s.status]
    exact h.current c (s.current ▸ hc)
  leaver c hc hb := s.quantum c (h.leaver c (s.current ▸ hc) hb)
  setup := setupOk_congr s.status h.setup

/-- Waking a process that is linked nowhere. -/
theorem procReady (h : Waits φ k) (hb : (k.procs p).status = .blocked)
    (hw : ∀ w, w ≠ .readyQueue → p ∉ waiters k w) (hφ : φ.currentStatus = .running) :
    Waits φ (procReady k (some p)) where
  toLinked := h.toLinked.procReady (by simp [hb]) hw
  born := h.born.procReady (h.born.lt_of_blocked hb)
  current c hc := by
    have hcur := h.current c hc
    have hcp : c ≠ p := by
      rintro rfl
      rw [hb, hφ] at hcur
      cases hcur
    rw [procReady_procs_ne k hcp, hcur]
  leaver c _ hb := by
    rw [hφ] at hb
    cases hb
  setup := setupOk_change (fun _ hq => procReady_procs_ne k hq) (by simp [hb]) h.setup

/-- The head of the ready queue gets the processor. -/
theorem dispatchTo (h : Linked k) {rest : List ProcId}
    (hborn : Born .run (TpeSo.dispatchTo k p rest)) (hr : k.readyProcesses = p :: rest) :
    Waits .run (TpeSo.dispatchTo k p rest) where
  toLinked := h.dispatchTo hr
  born := hborn
  current c hc := by
    cases hc
    simp [TpeSo.dispatchTo, Kernel.setProc, Phase.currentStatus]
  leaver _ _ hb := nomatch hb
  setup := trivial

/-- The current process blocks itself. -/
theorem leave (h : Waits .run k) (hc : k.currentProcess = some c) {reason : BlockReason}
    {w : WaitRef} {pend : Pending} (hw : BlocksOn reason w pend)
    (hborn : Born .leaving (TpeSo.leave (linkWaiter k w c) c reason w pend)) :
    Waits .leaving (TpeSo.leave (linkWaiter k w c) c reason w pend) := by
  have hrun : (k.procs c).status = .running := h.current c hc
  have hbase := SchedBase.linkWaiter k w c
  have hsusp := SchedSame.suspend (linkWaiter k w c) pend
  have hmark : Linked (markBlocked ((linkWaiter k w c).suspend pend) c reason w) := by
    refine h.toLinked.markBlocked (hbase.trans hsusp.toSchedBase) (by simp) (by simp [hrun])
      (fun hr => ?_) (fun v _ => ?_) ?_
    · rcases hr with rfl | rfl
      · cases w <;> first | rfl | exact hw.elim
      · cases w <;> first | rfl | exact hw.elim
    · rw [waiters_suspend]
      exact waiters_linkWaiter k w c hw.ne_readyQueue v
    · rw [hsusp.sleepers, linkWaiter_sleepingProcs]
  have hcur : ∀ d, (TpeSo.leave (linkWaiter k w c) c reason w pend).currentProcess = some d →
      d = c := by
    intro d (hd : ((linkWaiter k w c).suspend pend).currentProcess = some d)
    rw [hsusp.current, hbase.current, hc] at hd
    exact (Option.some.inj hd).symm
  refine ⟨hmark.schedView (.setProc c rfl), hborn, fun d hd => ?_, fun d hd _ => ?_, trivial⟩
  · rw [hcur d hd]
    simp [TpeSo.leave, TpeSo.markBlocked, Kernel.setProc, Kernel.alloc, Phase.currentStatus]
  · rw [hcur d hd]
    simp [TpeSo.leave]

/-- The process that is being set up is dead. -/
theorem dead {slot : Option Nat} (h : Waits (.spawning p slot) k) : (k.procs p).status = .dead :=
  h.setup

/-- A process that is dead is set up. -/
theorem setDead (h : Waits φ k) {slot : Option Nat}
    (hs : (k.procs p).status = .dead ∨ (k.procs p).status = .zombie)
    (hother : ∀ q, q ≠ p → k'.procs q = k.procs q) (hs' : (k'.procs p).status = .dead)
    (hready : k'.readyProcesses = k.readyProcesses) (hsleep : k'.sleepingProcs = k.sleepingProcs)
    (hc : k'.currentProcess = k.currentProcess) (hw : ∀ w, waiters k' w = waiters k w)
    (hφ : φ.currentStatus = .running) (hψ : ψ = .spawning p slot) (hborn : Born ψ k') :
    Waits ψ k' := by
  subst hψ
  have hne : ∀ s, s ≠ .dead → s ≠ .zombie → ∀ q, (k.procs q).status = s → q ≠ p := by
    rintro s hd hz q hq rfl
    rcases hs with hs | hs
    · exact hd (hq.symm.trans hs)
    · exact hz (hq.symm.trans hs)
  refine ⟨h.toLinked.change p hother ?_ (by rw [hready]; exact h.readyNodup) ?_ hsleep
    (fun v _ => .inl (hw v)) (by simp [hs']), hborn, fun c hcur => ?_, nofun, hs'⟩
  · refine h.notMem_waiters fun hb => ?_
    exact hne .blocked (by decide) (by decide) p hb rfl
  · intro q hq
    rw [hready] at hq
    rw [if_neg (hne .ready (by decide) (by decide) q (h.ready q hq))]
    exact hq
  · rw [hc] at hcur
    have hrun := (h.current c hcur).trans hφ
    rw [hother c (hne .running (by decide) (by decide) c hrun)]
    exact hrun

/-- A process that has been set up becomes ready. -/
theorem start (h : Waits φ k) {slot : Option Nat} (hφ : φ = .spawning p slot) (hψ : ψ = .run)
    (hborn : Born ψ (TpeSo.procReady k (some p))) : Waits ψ (TpeSo.procReady k (some p)) := by
  subst hφ hψ
  have hd : (k.procs p).status = .dead := h.setup
  refine ⟨h.toLinked.procReady (by simp [hd]) (h.notMem_waiters (by simp [hd])), hborn,
    fun c hc => ?_, nofun, trivial⟩
  have hrun : (k.procs c).status = .running := h.current c hc
  have hcp : c ≠ p := by
    rintro rfl
    rw [hd] at hrun
    cases hrun
  rw [procReady_procs_ne k hcp]
  exact hrun

end Waits

/-- **Every edit keeps the links** in a step that spares the waiters. -/
theorem Micro.waits {a : Act} (hstep : SparesWaiters k₀ e) (h : Waits φ k) (ho : Origin k₀ e k a)
    (hm : Micro φ k a ψ k') : Waits ψ k' := by
  have hborn : Born ψ k' := h.born.step hm
  by_cases hoff : a.offSched
  · obtain ⟨hs, rfl⟩ := hm.schedSame hoff
    exact h.schedSame hs hborn
  have htick : ∀ t, Linked { k with ticks := t } := fun t =>
    { h.toLinked with waiting := fun w => h.waiting w, waitNodup := fun w => h.waitNodup w }
  cases hm with
  | quantum p n => exact h.schedView (.setProc p rfl) hborn rfl rfl trivial
  | tick => exact ⟨htick _, hborn, h.current, h.leaver, h.setup⟩
  | tickLeaving => exact ⟨htick _, hborn, h.current, h.leaver, trivial⟩
  | wakeSleeper hφ hmem => exact absurd (h.noSleep ▸ hmem) List.not_mem_nil
  | dropSleeper hφ hmem => exact absurd (h.noSleep ▸ hmem) List.not_mem_nil
  | stay hφ hc hq =>
    rcases hφ with rfl | rfl
    · exact h
    · exact absurd (h.leaver _ hc rfl) hq
  | refill n hφ hc hs =>
    rcases hφ with rfl | rfl
    · exact h.schedView (.setProc _ rfl) hborn rfl rfl trivial
    · exact absurd (hs.symm.trans (h.current _ hc)) (by decide)
  | dispatch hφ hc hr => exact .dispatchTo h.toLinked hborn hr
  | preempt hφ hc hs hr =>
    refine .dispatchTo (h.toLinked.procReady ?_ (h.notMem_waiters hs.1)) hborn hr
    have hcur := h.current _ hc
    rcases hφ with rfl | rfl
    · rw [hcur]
      decide
    · rw [hcur]
      decide
  | blockSelf reason pend hc hw => exact h.leave hc hw hborn
  | blockSleep t hc =>
    have ht := ho.2
    rw [hstep.noSleep] at ht
    cases ht
  | @blockOther _ p hc hs =>
    refine ⟨h.toLinked.markBlocked (.refl k) rfl hs.2.2 (fun _ => rfl) (fun _ _ => .inl rfl) rfl,
      hborn, fun c hcur => ?_, nofun, trivial⟩
    have hcp : c ≠ p := by
      rintro rfl
      exact hc hcur
    have hrun := h.current c hcur
    simpa [markBlocked, Kernel.setProc, Kernel.alloc, hcp] using hrun
  | @unblock _ p hs =>
    have hr := hstep.unblock p ho.2 ((ho.1.status p).symm.trans hs)
    rw [← ho.1.blockReason] at hr
    refine h.procReady hs (fun w hw hp => ?_) rfl
    have hnull := (h.waiting w hw p hp).2
    rw [h.idle p hs hr] at hnull
    subst hnull
    cases hp
  | @wake _ _ w p hφ hw =>
    obtain ⟨hne, hcons⟩ := waiters_of_firstWaiter hw
    have hpop := SchedSame.popWaiter k w
    have hb := h.waiting w hne p (by rw [hcons]; exact List.mem_cons_self)
    have hrun : φ.currentStatus = .running := by
      rcases hφ with rfl | ⟨q, rfl⟩ <;> rfl
    refine (h.schedSame hpop (h.born.of_schedSame hpop)).procReady
      ((hpop.status p).trans hb.1) (fun v hv hp => ?_) hrun
    by_cases hvw : v = w
    · subst hvw
      exact (List.nodup_cons.mp (hcons ▸ h.waitNodup v hv)).1 hp
    · exact hvw ((h.waiting v hv p ((hpop.waiters v).subset hp)).2.symm.trans hb.2)
  | wakeParent hs hr => exact h.setup.elim
  | kill p code =>
    have hp := ho.2
    rw [hstep.noKill] at hp
    cases hp
  | endKill => exact h.setup.elim
  | reapSelf => exact h.setup.elim
  | reapChild hp hs =>
    exact ⟨{ h.toLinked with waiting := fun w => h.waiting w, waitNodup := fun w => h.waitNodup w },
      hborn, h.current, h.leaver, h.setup⟩
  | newProc =>
    refine h.setDead (p := k.nextProc) (h.born.unborn _ le_rfl) (fun q hq => ?_) ?_ rfl rfl rfl
      (waiters_congr rfl rfl rfl rfl) rfl rfl hborn
    · simp [hq]
    · simp
  | @noPid p =>
    exact h.setDead (p := p) (.inl h.setup) (fun q hq => k.procs_setProc_ne hq)
      (by simpa using h.dead) rfl rfl rfl (waiters_congr rfl rfl rfl rfl) rfl rfl hborn
  | @claimPid p _ i =>
    exact h.setDead (p := p) (.inl h.setup)
      (fun q hq => k.procs_setProc_ne (f := fun q => { q with pid := i }) hq)
      (by simpa using h.dead) rfl rfl rfl (waiters_congr rfl rfl rfl rfl) rfl rfl
      hborn
  | start => exact h.start rfl rfl hborn
  | startBare hm => exact (h.schedSame (.alloc k) (h.born.of_schedSame (.alloc k))).start rfl rfl hborn
  | _ => exact absurd trivial hoff

/-! ### Waiting for a token -/

/-- `p` waits for a token of semaphore `id`. -/
def Awaits (k : Kernel) (id : Nat) (p : ProcId) : Prop :=
  (k.procs p).status = .blocked ∧ (k.procs p).waitingOn = .semaphore id

/-- `p` is inside `my_sem_wait`, and nothing keeps it there any more. -/
def Released (k : Kernel) (id : Nat) (p : ProcId) : Prop :=
  k.kstack p = some (.semWait id) ∧ ¬ Awaits k id p

instance (k : Kernel) (id : Nat) : DecidablePred (Awaits k id) := fun p =>
  inferInstanceAs (Decidable ((k.procs p).status = .blocked ∧ _))

instance (k : Kernel) (id : Nat) : DecidablePred (Released k id) := fun p =>
  inferInstanceAs (Decidable (k.kstack p = some (.semWait id) ∧ _))

theorem Awaits.congr (hp : Awaits k id p) (h : k'.procs p = k.procs p) : Awaits k' id p := by
  unfold Awaits
  rw [h]
  exact hp

/-- **Only the hand-over of a token** ends a wait. -/
theorem Micro.awaits {a : Act} (hstep : SparesWaiters k₀ e) (h : Waits φ k)
    (ho : Origin k₀ e k a) (hm : Micro φ k a ψ k') (ha : ∀ q, a ≠ .wake (.semaphore id) q)
    (hp : Awaits k id p) : Awaits k' id p := by
  have hne : ∀ q s, (k.procs q).status = s → s ≠ .blocked → p ≠ q := by
    rintro q s hs hsb rfl
    exact hsb (hs.symm.trans hp.1)
  by_cases hoff : a.offSched
  · obtain ⟨hs, -⟩ := hm.schedSame hoff
    exact ⟨(hs.status p).trans hp.1, (hs.waitingOn p).trans hp.2⟩
  cases hm with
  | quantum q n =>
    exact ⟨(k.setProc_spares Proc.status rfl p).trans hp.1,
      (k.setProc_spares Proc.waitingOn rfl p).trans hp.2⟩
  | tick => exact hp
  | tickLeaving => exact hp
  | wakeSleeper hφ hmem => exact absurd (h.noSleep ▸ hmem) List.not_mem_nil
  | dropSleeper hφ hmem => exact absurd (h.noSleep ▸ hmem) List.not_mem_nil
  | stay => exact hp
  | refill n =>
    exact ⟨(k.setProc_spares Proc.status rfl p).trans hp.1,
      (k.setProc_spares Proc.waitingOn rfl p).trans hp.2⟩
  | @dispatch _ _ q _ hφ hc hr =>
    have hpq : p ≠ q := hne q .ready (h.ready q (by rw [hr]; exact List.mem_cons_self)) (by decide)
    exact hp.congr (by simp [dispatchTo, Kernel.setProc, hpq])
  | @preempt _ _ c q _ hφ hc hs hr =>
    have hpc : p ≠ c := hne c _ rfl hs.1
    have hpq : p ≠ q := by
      have hq : q ∈ (procReady k (some c)).readyProcesses := by
        rw [hr]
        exact List.mem_cons_self
      rcases mem_of_mem_enqueue hq with hq | rfl
      · exact hne q .ready (h.ready q hq) (by decide)
      · exact hpc
    have hready := procReady_procs_ne k hpc
    exact hp.congr (by simpa [dispatchTo, Kernel.setProc, hpq] using hready)
  | @blockSelf _ c w reason pend hc hw =>
    have hpc : p ≠ c := hne c .running (h.current c hc) (by decide)
    exact hp.congr (by simp [leave, markBlocked, Kernel.setProc, Kernel.alloc, hpc])
  | blockSleep t hc =>
    have ht := ho.2
    rw [hstep.noSleep] at ht
    cases ht
  | @blockOther _ q hc hs =>
    have hpq : p ≠ q := hne q _ rfl hs.2.2
    exact hp.congr (by simp [markBlocked, Kernel.setProc, Kernel.alloc, hpq])
  | @unblock _ q hs =>
    have hr := hstep.unblock q ho.2 ((ho.1.status q).symm.trans hs)
    rw [← ho.1.blockReason] at hr
    have hpq : p ≠ q := by
      rintro rfl
      have hnull := hp.2
      rw [h.idle p hs hr] at hnull
      cases hnull
    exact hp.congr (procReady_procs_ne k hpq)
  | @wake _ _ w q hφ hw =>
    obtain ⟨hrq, hcons⟩ := waiters_of_firstWaiter hw
    have hb := h.waiting w hrq q (by rw [hcons]; exact List.mem_cons_self)
    have hpq : p ≠ q := by
      rintro rfl
      exact ha p (by rw [← hb.2, hp.2])
    have hpop := SchedSame.popWaiter k w
    have hp' : Awaits (popWaiter k w) id p :=
      ⟨(hpop.status p).trans hp.1, (hpop.waitingOn p).trans hp.2⟩
    exact hp'.congr (procReady_procs_ne _ hpq)
  | wakeParent hs hr => exact h.setup.elim
  | kill q code =>
    have hq := ho.2
    rw [hstep.noKill] at hq
    cases hq
  | endKill => exact hp
  | reapSelf => exact hp
  | reapChild => exact hp
  | newProc =>
    have hlt := h.born.lt_of_blocked hp.1
    exact hp.congr (by simp [hlt.ne])
  | @noPid q => exact hp.congr (k.procs_setProc_ne (hne q .dead h.dead (by decide)))
  | @claimPid q _ i =>
    exact hp.congr (k.procs_setProc_ne (f := fun q => { q with pid := i })
      (hne q .dead h.dead (by decide)))
  | @start q => exact hp.congr (procReady_procs_ne k (hne q .dead h.dead (by decide)))
  | @startBare q => exact hp.congr (procReady_procs_ne k.alloc (hne q .dead h.dead (by decide)))
  | _ => exact absurd trivial hoff

/-- So nobody is released by anything else. -/
theorem Micro.released {a : Act} (hstep : SparesWaiters k₀ e) (h : Waits φ k)
    (ho : Origin k₀ e k a) (hm : Micro φ k a ψ k') (ha : ∀ q, a ≠ .wake (.semaphore id) q)
    (hp : Released k' id p) : Released k id p := by
  refine ⟨?_, fun hw => hp.2 (hm.awaits hstep h ho ha hw)⟩
  rcases hm.kstack hp.1 with hk | ⟨-, hplain | ⟨reason, w, rfl, hw⟩⟩
  · exact hk
  · exact hplain.elim
  · -- who has just linked itself is blocked
    refine absurd ?_ hp.2
    cases hm
    cases w <;> cases reason <;> first | exact hw.elim | skip
    cases hw
    simp [Awaits, leave, markBlocked, Kernel.setProc, Kernel.alloc]

/-- Work on a kernel stack belongs to a process that exists. -/
theorem Micro.stackBorn {a : Act} (h : Born φ k) (hm : Micro φ k a ψ k')
    (hk : ∀ p v, k.kstack p = some v → p < k.nextProc) {v : Pending}
    (hv : k'.kstack p = some v) : p < k'.nextProc := by
  refine lt_of_lt_of_le ?_ hm.nextProc_le
  rcases hm.kstack hv with hv | ⟨hc, -⟩
  · exact hk p v hv
  · exact h.current p hc

end TpeSo
