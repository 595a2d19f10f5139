import TpeSo.Sched.Born
import TpeSo.Sched.Finality
import TpeSo.Timer.Sleep

namespace TpeSo

open Ds Lib

/-!
# Timer — whom a sleep entry wakes

An entry of the sleep queue names its sleeper by pid.  The sleeper may be killed and
collected while the entry is pending, and the next process that is spawned is given the
lowest free pid.

* `MayNap k c` — `c` goes to sleep undisturbed: its pid finds it, it is linked nowhere else,
  and no entry of its pid is pending;
* `NapStep` — the step lets only such processes go to sleep, spawns nobody under the pid of a
  pending entry, and unblocks no sleeper;
* `Naps own k₀ e φ k` — `own` tells the caller of each pending entry, which is asleep or
  dead, and in no queue;
* `Micro.naps` — every edit of a `NapStep` keeps this;
* `timer_wakes_sleeper` — **the timer only wakes the process instance that called `sleep`,
  and only in that sleep**;
* `SchedStep.napStep` — the steps that keep the scheduler's books in order are such steps.
-/

variable {f : Nat → Bool} {φ ψ : Phase} {k k' k₀ k₁ : Kernel} {e : Event} {p q c : ProcId}
  {sp : SleepingProc} {own : Int → ProcId}

/-- `p` is blocked in a sleep. -/
def Asleep (k : Kernel) (p : ProcId) : Prop :=
  (k.procs p).status = .blocked ∧ (k.procs p).blockReason = .sleep ∧
    (k.procs p).waitingOn = .sleepers

/-- The caller `c` of a sleep is the process its pid finds, is in no wait queue and at most
    once in the ready queue, and no entry of its pid is pending. -/
structure MayNap (k : Kernel) (c : ProcId) : Prop where
  found : ∀ q, getProcByPid k (k.procs c).pid = .ok (some q) → q = c
  unlinked : ∀ w, w ≠ .readyQueue → c ∉ waiters k w
  once : k.readyProcesses.count c ≤ 1
  fresh : ∀ sp ∈ k.sleepingProcs, sp.pid ≠ (k.procs c).pid

/-- Only undisturbed processes go to sleep, nobody is spawned under the pid of a pending
    entry, and no sleeper is unblocked by `sys_unblock`. -/
structure NapStep (k : Kernel) (e : Event) : Prop where
  sleep : ∀ t ∈ sleepTick k e, ∀ c ∈ k.currentProcess, MayNap k c
  spawn : (∃ a, e = .sysSpawn a) → ∀ i ∈ procPidAlloc k, ∀ sp ∈ k.sleepingProcs, sp.pid ≠ i
  unblock : ∀ p ∈ unblockTarget k e, (k.procs p).status = .blocked →
    (k.procs p).blockReason ≠ .sleep

/-! ### The callers of the pending entries -/

/-- The pending entry `sp` was made by `p`, which is asleep or dead, and linked nowhere. -/
structure Napping (k : Kernel) (sp : SleepingProc) (p : ProcId) : Prop where
  pid : (k.procs p).pid = sp.pid
  found : ∀ q, getProcByPid k sp.pid = .ok (some q) → q = p
  unlinked : ∀ w, p ∉ waiters k w
  born : p < k.nextProc
  asleep : (k.procs p).status = .zombie ∨ Asleep k p

/-- In the middle of the step `e` from `k₀`, `own` tells the caller of each pending entry. -/
structure Naps (own : Int → ProcId) (k₀ : Kernel) (e : Event) (φ : Phase) (k : Kernel) :
    Prop where
  nap : ∀ sp ∈ k.sleepingProcs, Napping k sp (own sp.pid)
  nodup : (k.sleepingProcs.map SleepingProc.pid).Nodup
  /-- No caller has the processor, but the one that is about to give it up. -/
  away : φ ≠ .leaving → φ ≠ .switching → ∀ sp ∈ k.sleepingProcs,
    k.currentProcess ≠ some (own sp.pid)
  quantum : φ = .leaving ∨ φ = .switching → ∀ c, k.currentProcess = some c →
    (k.procs c).hasQuantum = 0
  spawning : ∀ q slot, φ = .spawning q slot → ∀ sp ∈ k.sleepingProcs, own sp.pid ≠ q
  /-- An entry is old, and then its caller sleeps since before the step, or made by the step. -/
  since : ∀ sp ∈ k.sleepingProcs,
    (sp ∈ k₀.sleepingProcs ∧ (Asleep k (own sp.pid) → Asleep k₀ (own sp.pid))) ∨
    ∃ t c, sleepTick k₀ e = some t ∧ k₀.currentProcess = some c ∧ sp = sleepEntry k₀ c t ∧
      own sp.pid = c

namespace Naps

/-- A process that is neither asleep nor dead is nobody's caller. -/
theorem ne_of_status (h : Naps own k₀ e φ k) (hz : (k.procs p).status ≠ .zombie)
    (ha : ¬ Asleep k p) : ∀ sp ∈ k.sleepingProcs, own sp.pid ≠ p := by
  rintro sp hsp rfl
  exact (h.nap sp hsp).asleep.elim hz ha

/-- A process in a queue is nobody's caller. -/
theorem ne_of_waiter (h : Naps own k₀ e φ k) {w : WaitRef} (hw : p ∈ waiters k w) :
    ∀ sp ∈ k.sleepingProcs, own sp.pid ≠ p := by
  rintro sp hsp rfl
  exact (h.nap sp hsp).unlinked w hw

/-- The callers of two entries are two processes. -/
theorem own_injective (h : Naps own k₀ e φ k) {sp' : SleepingProc} (hsp : sp ∈ k.sleepingProcs)
    (hsp' : sp' ∈ k.sleepingProcs) (hown : own sp.pid = own sp'.pid) : sp = sp' := by
  refine List.inj_on_of_nodup_map h.nodup hsp hsp' ?_
  rw [← (h.nap sp hsp).pid, ← (h.nap sp' hsp').pid, hown]

/-- **An edit that puts nobody to sleep** and that, of the callers of the entries it leaves
    pending, changes nothing or makes a zombie. -/
theorem change (h : Naps own k₀ e φ k) (hsub : k'.sleepingProcs.Sublist k.sleepingProcs)
    (hproc : ∀ sp ∈ k'.sleepingProcs, (k'.procs (own sp.pid)).pid = (k.procs (own sp.pid)).pid ∧
      ((k'.procs (own sp.pid)).status = .zombie ∨
        (k'.procs (own sp.pid)).sched = (k.procs (own sp.pid)).sched))
    (hfound : ∀ sp ∈ k'.sleepingProcs, ∀ q, getProcByPid k' sp.pid = .ok (some q) →
      getProcByPid k sp.pid = .ok (some q))
    (hwait : ∀ sp ∈ k'.sleepingProcs, ∀ w, own sp.pid ∈ waiters k' w → own sp.pid ∈ waiters k w)
    (hnext : k.nextProc ≤ k'.nextProc)
    (haway : ψ ≠ .leaving → ψ ≠ .switching → ∀ sp ∈ k'.sleepingProcs,
      k'.currentProcess ≠ some (own sp.pid))
    (hquantum : ψ = .leaving ∨ ψ = .switching → ∀ c, k'.currentProcess = some c →
      (k'.procs c).hasQuantum = 0)
    (hspawning : ∀ q slot, ψ = .spawning q slot → ∀ sp ∈ k'.sleepingProcs, own sp.pid ≠ q) :
    Naps own k₀ e ψ k' := by
  have hasleep : ∀ sp ∈ k'.sleepingProcs, Asleep k' (own sp.pid) → Asleep k (own sp.pid) := by
    intro sp hsp ha
    rcases (hproc sp hsp).2 with hz | hs
    · rw [ha.1] at hz
      cases hz
    · simp only [Proc.sched, Prod.mk.injEq] at hs
      unfold Asleep at ha ⊢
      rwa [← hs.2.1, ← hs.2.2.1, ← hs.2.2.2]
  refine ⟨fun sp hsp => ?_, (hsub.map _).nodup h.nodup, haway, hquantum, hspawning, fun sp hsp => ?_⟩
  · have hnap := h.nap sp (hsub.subset hsp)
    refine ⟨(hproc sp hsp).1.trans hnap.pid, fun q hq => hnap.found q (hfound sp hsp q hq),
      fun w hw => hnap.unlinked w (hwait sp hsp w hw), hnap.born.trans_le hnext, ?_⟩
    rcases (hproc sp hsp).2 with hz | hs
    · exact .inl hz
    · simp only [Proc.sched, Prod.mk.injEq] at hs
      unfold Asleep
      rw [hs.2.1, hs.2.2.1, hs.2.2.2]
      exact hnap.asleep
  · rcases h.since sp (hsub.subset hsp) with ⟨hold, himp⟩ | hnew
    · exact .inl ⟨hold, fun ha => himp (hasleep sp hsp ha)⟩
    · exact .inr hnew

/-- An edit that the scheduler does not see, or only as a loss of members of wait queues. -/
theorem of_schedView (h : Naps own k₀ e φ k) (s : SchedView k k')
    (haway : ψ ≠ .leaving → ψ ≠ .switching → ∀ sp ∈ k.sleepingProcs,
      k.currentProcess ≠ some (own sp.pid))
    (hquantum : ψ = .leaving ∨ ψ = .switching → ∀ c, k.currentProcess = some c →
      (k'.procs c).hasQuantum = 0)
    (hspawning : ∀ q slot, ψ = .spawning q slot → ∀ sp ∈ k.sleepingProcs, own sp.pid ≠ q) :
    Naps own k₀ e ψ k' := by
  have hsleep := s.sleepers
  refine h.change (by rw [hsleep]) (fun sp _ => ⟨s.pid _, .inr (s.proc _)⟩)
    (fun sp _ q hq => ?_) (fun sp _ w hw => (s.waiters w).subset hw) s.nextProc.ge ?_ ?_ ?_
  · rwa [← getProcByPid_congr s.table]
  · rw [hsleep, s.current]
    exact haway
  · rw [s.current]
    exact hquantum
  · rw [hsleep]
    exact hspawning

theorem of_schedSame (h : Naps own k₀ e φ k) (s : SchedSame k k') : Naps own k₀ e φ k' :=
  h.of_schedView s.toSchedView h.away
    (fun hφ c hc => s.quantum c (h.quantum hφ c hc)) h.spawning

/-- `proc_ready` of a process that is nobody's caller. -/
theorem procReady (h : Naps own k₀ e φ k) (hp : ∀ sp ∈ k.sleepingProcs, own sp.pid ≠ p) :
    Naps own k₀ e φ (procReady k (some p)) := by
  refine h.change (List.Sublist.refl _) (fun sp hsp => ?_) (fun sp _ q hq => ?_)
    (fun sp hsp w hw => ?_) le_rfl h.away (fun hφ c hc => ?_) h.spawning
  · rw [procReady_procs_ne k (hp sp hsp)]
    exact ⟨rfl, .inr rfl⟩
  · exact (getProcByPid_congr rfl sp.pid).symm.trans hq
  · by_cases hr : w = .readyQueue
    · subst hr
      exact (mem_of_mem_enqueue hw).resolve_right (hp sp hsp)
    · rwa [procReady_waiters k p hr] at hw
  · by_cases hcp : c = p
    · subst hcp
      rw [procReady_procs_self]
      exact h.quantum hφ c hc
    · rw [procReady_procs_ne k hcp]
      exact h.quantum hφ c hc

/-- Dispatching the head of the ready queue. -/
theorem dispatchTo (h : Naps own k₀ e φ k) {rest : List ProcId}
    (hr : k.readyProcesses = p :: rest) : Naps own k₀ e .run (dispatchTo k p rest) := by
  have hp : ∀ sp ∈ k.sleepingProcs, own sp.pid ≠ p := by
    refine h.ne_of_waiter (w := .readyQueue) ?_
    show p ∈ k.readyProcesses
    simp [hr]
  refine h.change (List.Sublist.refl _) (fun sp hsp => ?_) (fun sp _ q hq => ?_)
    (fun sp hsp w hw => ?_) le_rfl (fun _ _ sp hsp hc => ?_)
    (fun hφ => by rcases hφ with hφ | hφ <;> cases hφ) (fun q slot hφ => by cases hφ)
  · rw [TpeSo.dispatchTo, Kernel.procs_setProc_ne _ (hp sp hsp)]
    exact ⟨rfl, .inr rfl⟩
  · exact (getProcByPid_congr rfl sp.pid).symm.trans hq
  · by_cases hw' : w = .readyQueue
    · subst hw'
      show own sp.pid ∈ k.readyProcesses
      rw [hr]
      exact List.mem_cons_of_mem p hw
    · cases w <;> first | exact hw | exact absurd rfl hw'
  · exact hp sp hsp (Option.some.inj hc).symm

/-- Blocking a process that is nobody's caller. -/
theorem markBlocked (h : Naps own k₀ e φ k) (hp : ∀ sp ∈ k.sleepingProcs, own sp.pid ≠ p)
    (reason : BlockReason) (w : WaitRef) : Naps own k₀ e φ (markBlocked k p reason w) := by
  refine h.change (List.Sublist.refl _) (fun sp hsp => ?_) (fun sp _ q hq => ?_)
    (fun sp hsp v hv => ?_) le_rfl h.away (fun hφ c hc => ?_) h.spawning
  · have hother : (TpeSo.markBlocked k p reason w).procs (own sp.pid) = k.procs (own sp.pid) :=
      k.procs_setProc_ne (f := fun q =>
        { q with status := .blocked, blockReason := reason, waitingOn := w }) (hp sp hsp)
    rw [hother]
    exact ⟨rfl, .inr rfl⟩
  · exact (getProcByPid_congr rfl sp.pid).symm.trans hq
  · cases v with
    | readyQueue => exact mem_of_mem_queueRemove hv
    | _ => exact hv
  · rw [← h.quantum hφ c hc]
    exact k.setProc_spares Proc.hasQuantum (f := fun q =>
      { q with status := .blocked, blockReason := reason, waitingOn := w }) rfl c

/-- The current process, nobody's caller, gives up the processor. -/
theorem leave (h : Naps own k₀ e .run k) (hc : k.currentProcess = some c) (reason : BlockReason)
    (w : WaitRef) (pend : Pending) : Naps own k₀ e .leaving (leave k c reason w pend) := by
  have hne : ∀ sp ∈ k.sleepingProcs, own sp.pid ≠ c := by
    rintro sp hsp rfl
    exact h.away (by simp) (by simp) sp hsp hc
  have hsusp := h.of_schedSame (.suspend k pend)
  have hblock := hsusp.markBlocked (p := c)
    (by rwa [(SchedSame.suspend k pend).sleepers]) reason w
  have hcur : (TpeSo.markBlocked (k.suspend pend) c reason w).currentProcess = some c := by
    show (k.suspend pend).currentProcess = some c
    rw [suspend_currentProcess, hc]
  refine hblock.of_schedView (.setProc c rfl) (fun hl => absurd rfl hl) ?_
    (fun q slot hφ => by cases hφ)
  intro _ c' hc'
  rw [hcur] at hc'
  cases hc'
  rw [TpeSo.leave, Kernel.procs_setProc_self]

/-- The current process links itself into a wait queue. -/
theorem linkWaiter (h : Naps own k₀ e .run k) (hc : k.currentProcess = some c) {w : WaitRef}
    (hw : w ≠ .readyQueue) : Naps own k₀ e .run (linkWaiter k w c) := by
  have hne : ∀ sp ∈ k.sleepingProcs, own sp.pid ≠ c := by
    rintro sp hsp rfl
    exact h.away (by simp) (by simp) sp hsp hc
  have hb := SchedBase.linkWaiter k w c
  have hsleep := linkWaiter_sleepingProcs k w c
  refine h.change (by rw [hsleep]) (fun sp _ => ⟨hb.pid _, .inr (hb.proc _)⟩)
    (fun sp _ q hq => ?_) (fun sp hsp v hv => ?_) hb.nextProc.ge ?_
    (fun hφ => by rcases hφ with hφ | hφ <;> cases hφ) (fun q slot hφ => by cases hφ)
  · rwa [← getProcByPid_congr hb.table]
  · rw [hsleep] at hsp
    rcases waiters_linkWaiter k w c hw v with hl | ⟨-, hl⟩
    · rwa [← hl]
    · rw [hl, List.mem_append, List.mem_singleton] at hv
      exact hv.resolve_right (hne sp hsp)
  · rw [hsleep, hb.current]
    exact h.away

/-- The new entry of a process that has just given up the processor to sleep. -/
theorem addSleeper (h : Naps own k₀ e .leaving k) (b : Bool) (hnew : Napping k sp (own sp.pid))
    (hfresh : ∀ x ∈ k.sleepingProcs, x.pid ≠ sp.pid)
    (hsince : ∃ t c, sleepTick k₀ e = some t ∧ k₀.currentProcess = some c ∧
      sp = sleepEntry k₀ c t ∧ own sp.pid = c) :
    Naps own k₀ e .leaving { k with sleepingProcs := enqueue b k.sleepingProcs sp } := by
  refine ⟨fun x hx => ?_, ?_, fun hl => absurd rfl hl, h.quantum, fun q slot hφ => (by cases hφ),
    fun x hx => ?_⟩
  · have hnap : Napping k x (own x.pid) := by
      rcases mem_of_mem_enqueue hx with hx | rfl
      · exact h.nap x hx
      · exact hnew
    exact ⟨hnap.pid, fun q hq => hnap.found q ((getProcByPid_congr rfl x.pid).symm.trans hq),
      fun w hw => hnap.unlinked w (by cases w <;> exact hw), hnap.born, hnap.asleep⟩
  · cases b with
    | false => exact h.nodup
    | true =>
      rw [enqueue_true, List.map_append, List.nodup_append]
      refine ⟨h.nodup, List.nodup_singleton _, fun i hi j hj hij => ?_⟩
      obtain ⟨x, hx, rfl⟩ := List.mem_map.mp hi
      rw [List.map_singleton, List.mem_singleton] at hj
      exact hfresh x hx (hij.trans hj)
  · rcases mem_of_mem_enqueue hx with hx | rfl
    · exact h.since x hx
    · exact .inr hsince

/-- An entry is dropped. -/
theorem dropSleeper (h : Naps own k₀ e φ k) (sp : SleepingProc) :
    Naps own k₀ e φ { k with sleepingProcs := queueRemove k.sleepingProcs sp } := by
  have hsub : (queueRemove k.sleepingProcs sp).Sublist k.sleepingProcs := List.erase_sublist
  exact h.change hsub (fun _ _ => ⟨rfl, .inr rfl⟩) (fun _ _ _ hq => hq)
    (fun _ _ w hw => by cases w <;> exact hw) le_rfl
    (fun hl hs x hx => h.away hl hs x (hsub.subset hx)) h.quantum
    (fun q slot hφ x hx => h.spawning q slot hφ x (hsub.subset hx))

/-- The control block of the process that is being set up is nobody's. -/
theorem setSpawning {slot : Option Nat} (h : Naps own k₀ e (.spawning p slot) k)
    (slot' : Option Nat) (f : Proc → Proc) : Naps own k₀ e (.spawning p slot') (k.setProc p f) := by
  have hp := h.spawning p slot rfl
  refine h.change (List.Sublist.refl _) (fun sp hsp => ?_) (fun sp _ q hq => hq)
    (fun _ _ w hw => by cases w <;> exact hw) le_rfl (fun _ _ => h.away (by simp) (by simp))
    (fun hφ => by rcases hφ with hφ | hφ <;> cases hφ) ?_
  · rw [Kernel.procs_setProc_ne _ (hp sp hsp)]
    exact ⟨rfl, .inr rfl⟩
  · rintro _ _ ⟨⟩
    exact hp

/-- Burying a process leaves the others as they are. -/
theorem bury (h : Naps own k₀ e .run k) (p : ProcId) (code : Int) :
    Naps own k₀ e (.dying p) (bury k p code) := by
  have hsleep : (TpeSo.bury k p code).sleepingProcs = k.sleepingProcs := by
    show (unlinkWaiting (rmCurrent k p) p).sleepingProcs = _
    unfold unlinkWaiting rmCurrent
    split <;> split <;> rfl
  have htable : (TpeSo.bury k p code).processTable = k.processTable := by
    show (unlinkWaiting (rmCurrent k p) p).processTable = _
    unfold unlinkWaiting rmCurrent
    split <;> split <;> rfl
  refine h.change (by rw [hsleep]) (fun sp _ => ?_) (fun sp _ q hq => ?_)
    (fun sp _ w hw => mem_waiters_bury hw) (bury_nextProc k p code).ge (fun _ _ sp hsp hc => ?_)
    (fun hφ => by rcases hφ with hφ | hφ <;> cases hφ) (fun q slot hφ => by cases hφ)
  · by_cases hp : own sp.pid = p
    · rw [hp]
      simp [TpeSo.bury]
    · rw [bury_procs_ne k code hp]
      exact ⟨rfl, .inr rfl⟩
  · rwa [← getProcByPid_congr htable]
  · rw [hsleep] at hsp
    exact h.away (by simp) (by simp) sp hsp (current_of_bury hc).1

/-- The table loses a process. -/
theorem forgetPid (h : Naps own k₀ e φ k) (p : ProcId) : Naps own k₀ e φ (forgetPid k p) := by
  refine h.change (List.Sublist.refl _) (fun sp _ => ⟨rfl, .inr rfl⟩) (fun sp _ q hq => ?_)
    (fun sp _ w hw => (by cases w <;> exact hw)) le_rfl h.away h.quantum h.spawning
  unfold getProcByPid at hq ⊢
  split at hq
  · rename_i hrange
    rw [if_pos hrange]
    by_cases hi : sp.pid.toNat = (k.procs p).pid.toNat
    · simp [TpeSo.forgetPid, hi] at hq
    · simpa [TpeSo.forgetPid, hi] using hq
  · cases hq

end Naps

/-! ### Every edit -/

theorem not_asleep_of_status (hs : (k.procs p).status ≠ .blocked) : ¬ Asleep k p :=
  fun ha => hs ha.1

theorem not_asleep_of_reason (hr : (k.procs p).blockReason ≠ .sleep) : ¬ Asleep k p :=
  fun ha => hr ha.2.1

/-- What `block` of a sleeper does commutes with the entry it has appended. -/
theorem leave_linkSleeper (hc : k.currentProcess = some c) (t : Nat) (reason : BlockReason)
    (w : WaitRef) (pend : Pending) : leave (linkSleeper k c t) c reason w pend =
      { leave k.alloc c reason w pend with
        sleepingProcs := enqueue k.kmalloc k.sleepingProcs (sleepEntry k c t) } := by
  have hl : (linkSleeper k c t).suspend pend =
      { linkSleeper k c t with kstack := Function.update k.kstack c (some pend) } := by
    simp [Kernel.suspend, linkSleeper, Kernel.alloc, hc]
  have ha : k.alloc.suspend pend =
      { k.alloc with kstack := Function.update k.kstack c (some pend) } := by
    simp [Kernel.suspend, Kernel.alloc, hc]
  rw [leave, leave, hl, ha]
  rfl

/-- **An undisturbed process goes to sleep.** -/
theorem Naps.blockSleep (hstep : NapStep k₀ e)
    (hown : ∀ t ∈ sleepTick k₀ e, ∀ c ∈ k₀.currentProcess, own (k₀.procs c).pid = c)
    (hborn : Born .run k) (h : Naps own k₀ e .run k) {t : Nat} (hc : k.currentProcess = some c)
    (hcalm : Calm k₀ k) (ht : sleepTick k₀ e = some t) :
    Naps own k₀ e .leaving (TpeSo.leave (linkSleeper k c t) c .sleep .sleepers .sleep) := by
  have hc₀ : k₀.currentProcess = some c := hcalm.current.symm.trans hc
  have hmay := hstep.sleep t ht c hc₀
  have hentry : sleepEntry k c t = sleepEntry k₀ c t := by
    simp only [sleepEntry, hcalm.pid]
  have howner : own (sleepEntry k c t).pid = c := by
    rw [hentry]
    exact hown t ht c hc₀
  rw [leave_linkSleeper hc]
  have hleave := (h.of_schedSame (.alloc k)).leave hc .sleep .sleepers .sleep
  have hsusp := SchedSame.suspend k.alloc .sleep
  generalize hL : TpeSo.leave k.alloc c .sleep .sleepers .sleep = L at hleave ⊢
  have hsleep : L.sleepingProcs = k.sleepingProcs := by
    rw [← hL]
    exact hsusp.sleepers
  rw [← hsleep]
  refine hleave.addSleeper k.kmalloc ?_ ?_ ⟨t, c, ht, hc₀, hentry, howner⟩
  · rw [howner]
    refine ⟨?_, fun q hq => ?_, fun w hw => ?_, ?_, .inr ?_⟩
    · rw [← hL]
      simp [TpeSo.leave, TpeSo.markBlocked, Kernel.setProc, Kernel.alloc, sleepEntry]
    · have htable : L.processTable = k₀.processTable := by
        rw [← hL]
        exact hsusp.table.trans hcalm.table
      rw [getProcByPid_congr htable] at hq
      exact hmay.found q (by rwa [hentry] at hq)
    · by_cases hr : w = .readyQueue
      · -- `block` removes the one node `c` may have there
        subst hr
        have hready : L.readyProcesses = k₀.readyProcesses.erase c := by
          rw [← hL, ← hcalm.ready]
          exact congrArg (fun q => queueRemove q c) hsusp.ready
        have hmem : c ∈ L.readyProcesses := hw
        have hone := hmay.once
        rw [hready, ← List.count_pos_iff, List.count_erase_self] at hmem
        omega
      · have hw' : c ∈ waiters (k.alloc.suspend .sleep) w := by
          rw [← hL] at hw
          cases w <;> first | exact hw | exact absurd rfl hr
        refine hmay.unlinked w hr ?_
        rwa [← hcalm.waiters w, ← (Quiet.alloc k).waiters w, ← waiters_suspend k.alloc .sleep w]
    · rw [← hL]
      exact (hborn.current c hc).trans_eq hsusp.nextProc.symm
    · rw [← hL]
      simp [Asleep, TpeSo.leave, TpeSo.markBlocked, Kernel.setProc, Kernel.alloc]
  · intro x hx
    rw [hsleep, ← hcalm.sleepers.symm] at hx
    rw [hentry]
    exact hmay.fresh x hx

/-- **Every edit of the step** keeps the callers of the pending entries asleep or dead. -/
theorem Micro.naps {a : Act} (hstep : NapStep k₀ e)
    (hown : ∀ t ∈ sleepTick k₀ e, ∀ c ∈ k₀.currentProcess, own (k₀.procs c).pid = c)
    (hborn : Born φ k) (h : Naps own k₀ e φ k) (ho : Origin k₀ e k a) (hm : Micro φ k a ψ k') :
    Naps own k₀ e ψ k' := by
  by_cases hoff : a.offSched
  · obtain ⟨hs, rfl⟩ := hm.schedSame hoff
    exact h.of_schedSame hs
  cases hm with
  | quantum p n =>
    exact h.of_schedView (.setProc p rfl) h.away (fun hφ => by rcases hφ with hφ | hφ <;> cases hφ)
      h.spawning
  | tick =>
    exact h.change (List.Sublist.refl _) (fun _ _ => ⟨rfl, .inr rfl⟩) (fun _ _ _ hq => hq)
      (fun _ _ w hw => by cases w <;> exact hw) le_rfl h.away h.quantum h.spawning
  | tickLeaving =>
    exact h.change (List.Sublist.refl _) (fun _ _ => ⟨rfl, .inr rfl⟩) (fun _ _ _ hq => hq)
      (fun _ _ w hw => by cases w <;> exact hw) le_rfl (fun _ hs => absurd rfl hs)
      (fun _ => h.quantum (.inl rfl)) (fun q slot hφ => by cases hφ)
  | @wakeSleeper φ k sp p hφ hmem hdue hp hs =>
    -- the entry that wakes `p` is the only one of which `p` is the caller
    refine (h.dropSleeper sp).procReady fun x hx hx' => ?_
    have hx₁ : x ∈ k.sleepingProcs := mem_of_mem_queueRemove hx
    have hxsp : x = sp := h.own_injective hx₁ hmem (hx'.trans ((h.nap sp hmem).found p hp))
    rw [hxsp, ← List.count_pos_iff] at hx
    have hone := List.nodup_iff_count_le_one.mp (List.Nodup.of_map _ h.nodup) sp
    rw [queueRemove, List.count_erase_self] at hx
    omega
  | dropSleeper hφ hmem hp => exact h.dropSleeper _
  | @stay φ k c hφ hc hq =>
    rcases hφ with rfl | rfl
    · exact h
    · exact absurd (h.quantum (.inr rfl) c hc) hq
  | @refill φ k c n hφ hc hs =>
    refine h.of_schedView (.setProc c rfl) (fun _ _ sp hsp hcur => ?_)
      (fun hφ => by rcases hφ with hφ | hφ <;> cases hφ) (fun q slot hφ => by cases hφ)
    rw [hc] at hcur
    exact h.ne_of_status (by simp [hs]) (not_asleep_of_status (by simp [hs])) sp hsp
      (Option.some.inj hcur).symm
  | dispatch hφ hc hr => exact h.dispatchTo hr
  | @preempt φ k c p rest hφ hc hs hr =>
    exact (h.procReady (h.ne_of_status hs.2.1 (not_asleep_of_status hs.1))).dispatchTo hr
  | @blockSelf k c w reason pend hc hw =>
    refine (h.linkWaiter hc hw.ne_readyQueue).leave ?_ reason w pend
    rw [(SchedBase.linkWaiter k w c).current, hc]
  | @blockSleep k c t hc => exact h.blockSleep hstep hown hborn hc ho.1 ho.2
  | @blockOther k p hc hs =>
    exact h.markBlocked (h.ne_of_status hs.1 (not_asleep_of_status hs.2.2)) _ _
  | @unblock k p hs =>
    refine h.procReady (h.ne_of_status (by simp [hs]) (not_asleep_of_reason ?_))
    rw [ho.1.blockReason]
    refine hstep.unblock p ho.2 ?_
    rw [← ho.1.status, hs]
  | @wake φ k w p hφ hw =>
    have hmem : p ∈ waiters k w := by simp [(waiters_of_firstWaiter hw).2]
    refine (h.of_schedSame (.popWaiter k w)).procReady ?_
    rw [(SchedSame.popWaiter k w).sleepers]
    exact h.ne_of_waiter hmem
  | @wakeParent p k q hs hr =>
    refine h.procReady (h.ne_of_status (by simp [hs]) (not_asleep_of_reason (by simp [hr])))
  | kill p code => exact h.bury p code
  | endKill =>
    exact h.of_schedView (SchedSame.refl k).toSchedView (fun _ _ => h.away (by simp) (by simp))
      (fun hφ => by rcases hφ with hφ | hφ <;> cases hφ) (fun q slot hφ => by cases hφ)
  | reapSelf => exact h.forgetPid _
  | reapChild => exact h.forgetPid _
  | newProc =>
    have hne : ∀ sp ∈ k.sleepingProcs, own sp.pid ≠ k.nextProc :=
      fun sp hsp => (h.nap sp hsp).born.ne
    refine h.change (List.Sublist.refl _) (fun sp hsp => ?_) (fun _ _ _ hq => hq)
      (fun _ _ w hw => by cases w <;> exact hw) (Nat.le_succ _)
      (fun _ _ => h.away (by simp) (by simp)) (fun hφ => by rcases hφ with hφ | hφ <;> cases hφ) ?_
    · show (Function.update k.procs k.nextProc {} (own sp.pid)).pid = _ ∧
        ((Function.update k.procs k.nextProc {} (own sp.pid)).status = _ ∨
          (Function.update k.procs k.nextProc {} (own sp.pid)).sched = _)
      rw [Function.update_of_ne (hne sp hsp)]
      exact ⟨rfl, .inr rfl⟩
    · rintro _ _ ⟨⟩
      exact hne
  | @noPid p k => exact h.setSpawning none _
  | @claimPid p k i hi hslot =>
    -- nobody is spawned under the pid of a pending entry
    have hpid : ∀ sp ∈ k.sleepingProcs, sp.pid ≠ i := by
      intro sp hsp
      rcases h.since sp hsp with ⟨hold, -⟩ | ⟨t, c, ht, -⟩
      · exact hstep.spawn ho.1 i ho.2 sp hold
      · obtain ⟨a, rfl⟩ := ho.1
        cases ht
    have hset := h.setSpawning (some i) fun q => { q with pid := i }
    refine hset.change (List.Sublist.refl _) (fun _ _ => ⟨rfl, .inr rfl⟩) (fun sp hsp q hq => ?_)
      (fun _ _ w hw => by cases w <;> exact hw) le_rfl hset.away hset.quantum hset.spawning
    unfold getProcByPid at hq ⊢
    split at hq
    · rename_i hrange
      have hi : sp.pid.toNat ≠ i := by
        intro hi
        refine hpid sp hsp ?_
        rw [← hi]
        exact (Int.toNat_of_nonneg hrange.1).symm
      have hslot : k.processTable sp.pid.toNat = some q := by simpa [hi] using hq
      rw [if_pos hrange]
      exact congrArg Outcome.ok hslot
    · cases hq
  | @start p i k =>
    exact (h.procReady (h.spawning p (some i) rfl)).of_schedView (SchedSame.refl _).toSchedView
      (fun _ _ => h.away (by simp) (by simp)) (fun hφ => by rcases hφ with hφ | hφ <;> cases hφ)
      (fun q slot hφ => by cases hφ)
  | @startBare p k hm =>
    exact ((h.of_schedSame (.alloc k)).procReady (h.spawning p none rfl)).of_schedView
      (SchedSame.refl _).toSchedView (fun _ _ => h.away (by simp) (by simp))
      (fun hφ => by rcases hφ with hφ | hφ <;> cases hφ) (fun q slot hφ => by cases hφ)
  | _ => exact absurd trivial hoff

/-! ### Whole runs -/

/-- The entry `e` from `j` is a sleep of `p`, which appends `sp`. -/
def SleepCall (j : Kernel) (e : Event) (p : ProcId) (sp : SleepingProc) : Prop :=
  j.currentProcess = some p ∧ ∃ t, sleepTick j e = some t ∧ sp = sleepEntry j p t

/-- The process instance `p` made the entry `sp` when it went to sleep, and is asleep since;
    or it is going to sleep in the step `e` from `k`. -/
inductive OwnSleep (tr : List (Kernel × Event × Option Completion)) (k : Kernel) (e : Event)
    (sp : SleepingProc) (p : ProcId) : Prop where
  | earlier {tr₁ tr₂ j e₀ o} (htr : tr = tr₁ ++ (j, e₀, o) :: tr₂) (hcall : SleepCall j e₀ p sp)
      (hsince : ∀ i ∈ tr₂.map Prod.fst ++ [k], Asleep i p) : OwnSleep tr k e sp p
  | now (hcall : SleepCall k e p sp) : OwnSleep tr k e sp p

/-- The caller of a pending entry, if it is asleep now, is asleep since it made the entry. -/
def SleptSince (tr : List (Kernel × Event × Option Completion)) (k : Kernel) (sp : SleepingProc)
    (p : ProcId) : Prop :=
  ∃ tr₁ j e₀ o tr₂, tr = tr₁ ++ (j, e₀, o) :: tr₂ ∧ SleepCall j e₀ p sp ∧
    (Asleep k p → ∀ i ∈ tr₂.map Prod.fst, Asleep i p)

/-- At the beginning of a step the callers are known, also the one that goes to sleep in it. -/
theorem Naps.enter {e' : Event} (h : Naps own k₀ e .run k) (hstep : NapStep k e') :
    ∃ own', (∀ t ∈ sleepTick k e', ∀ c ∈ k.currentProcess, own' (k.procs c).pid = c) ∧
      (∀ sp ∈ k.sleepingProcs, own' sp.pid = own sp.pid) ∧ Naps own' k e' .run k := by
  have hkeep : ∀ own' : Int → ProcId, (∀ sp ∈ k.sleepingProcs, own' sp.pid = own sp.pid) →
      Naps own' k e' .run k := by
    intro own' hsame
    refine ⟨fun sp hsp => ?_, h.nodup, fun hl hs sp hsp => ?_, h.quantum,
      fun q slot hφ => (by cases hφ), fun sp hsp => .inl ⟨hsp, id⟩⟩
    · rw [hsame sp hsp]
      exact h.nap sp hsp
    · rw [hsame sp hsp]
      exact h.away hl hs sp hsp
  by_cases hnew : ∃ t c, sleepTick k e' = some t ∧ k.currentProcess = some c
  · obtain ⟨t, c, ht, hc⟩ := hnew
    have hsame : ∀ sp ∈ k.sleepingProcs,
        Function.update own (k.procs c).pid c sp.pid = own sp.pid :=
      fun sp hsp => Function.update_of_ne ((hstep.sleep t ht c hc).fresh sp hsp) _ _
    refine ⟨Function.update own (k.procs c).pid c, fun t' _ c' hc' => ?_, hsame, hkeep _ hsame⟩
    have hcc : c' = c := Option.some.inj (hc'.symm.trans hc)
    rw [hcc, Function.update_self]
  · exact ⟨own, fun t ht c hc => absurd ⟨t, c, ht, hc⟩ hnew, fun _ _ => rfl,
      hkeep own fun _ _ => rfl⟩

/-- The edits of a step. -/
theorem Naps.does (hstep : NapStep k e)
    (hown : ∀ t ∈ sleepTick k e, ∀ c ∈ k.currentProcess, own (k.procs c).pid = c)
    (hborn : Born .run k) (h : Naps own k e .run k) (hd : Does (Origin k e) (.run, k) (φ, k₁)) :
    Born φ k₁ ∧ Naps own k e φ k₁ :=
  Does.invariant (fun φ k₁ => Born φ k₁ ∧ Naps own k e φ k₁)
    (fun _ _ _ _ _ hI ho hm => ⟨hI.1.step hm, hm.naps hstep hown hI.1 hI.2 ho⟩) hd ⟨hborn, h⟩

/-- The callers of the pending entries along a run. -/
theorem naps_run {tr : List (Kernel × Event × Option Completion)} (h : Run f NapStep tr k) :
    ∃ own, Born .run k ∧ Naps own k .resume .run k ∧
      ∀ sp ∈ k.sleepingProcs, SleptSince tr k sp (own sp.pid) := by
  refine h.invariant_history (fun tr k => ∃ own, Born .run k ∧ Naps own k .resume .run k ∧
    ∀ sp ∈ k.sleepingProcs, SleptSince tr k sp (own sp.pid)) ?_ ?_
  · refine ⟨fun _ => 0, .boot f, ⟨?_, List.nodup_nil, ?_, ?_, ?_, ?_⟩, ?_⟩
    · intro sp hsp
      cases hsp
    · intro _ _ sp hsp
      cases hsp
    · intro hφ
      rcases hφ with hφ | hφ <;> cases hφ
    · intro _ _ hφ
      cases hφ
    · intro sp hsp
      cases hsp
    · intro sp hsp
      cases hsp
  · rintro tr t e u o _ ⟨own, hborn, hnaps, hhist⟩ hok hs
    obtain ⟨own', hown, hsame, hnaps'⟩ := hnaps.enter hok
    obtain ⟨hbornu, hnapsu⟩ := hnaps'.does hok hown hborn (step_does hs)
    refine ⟨own', hbornu, ⟨hnapsu.nap, hnapsu.nodup, hnapsu.away, hnapsu.quantum,
      hnapsu.spawning, fun sp hsp => .inl ⟨hsp, id⟩⟩, fun sp hsp => ?_⟩
    rcases hnapsu.since sp hsp with ⟨hold, himp⟩ | ⟨t', c, ht', hc, hsp', hownc⟩
    · obtain ⟨tr₁, j, e₀, o₀, tr₂, rfl, hcall, hsince⟩ := hhist sp hold
      rw [hsame sp hold] at himp ⊢
      refine ⟨tr₁, j, e₀, o₀, tr₂ ++ [(t, e, o)], by simp, hcall, fun ha i hi => ?_⟩
      rw [List.map_append, List.mem_append] at hi
      rcases hi with hi | hi
      · exact hsince (himp ha) i hi
      · rw [List.map_singleton, List.mem_singleton] at hi
        rw [hi]
        exact himp ha
    · refine ⟨tr, t, e, o, [], rfl, ?_, fun _ i hi => by cases hi⟩
      rw [hownc]
      exact ⟨hc, t', ht', hsp'⟩

/-- The running process may go to sleep. -/
theorem Part.mayNap (h : Part .run k) (hc : k.currentProcess = some c) : MayNap k c := by
  have hrun : (k.procs c).status = .running := h.current c hc
  have hlook := h.lookup (p := c) (by simp [hrun]) (by simp [hrun])
  refine ⟨fun q hq => ?_, fun w hw hmem => ?_, List.nodup_iff_count_le_one.mp h.readyNodup c,
    fun sp hsp hpid => ?_⟩
  · rw [hlook] at hq
    cases hq
    rfl
  · have hs := (h.waiting w hw c hmem).1
    rw [hrun] at hs
    cases hs
  · obtain ⟨p, hp, hs, -⟩ := h.sleeping sp hsp
    rw [hpid, hlook] at hp
    cases hp
    rw [hrun] at hs
    cases hs

/-- The steps under which the partition invariant holds disturb no sleeper. -/
theorem SchedStep.napStep (h : Part .run k) (hok : SchedStep k e) : NapStep k e := by
  refine ⟨fun t _ c hc => h.mayNap hc, fun _ i hi sp hsp hpid => ?_, fun p hp hs => ?_⟩
  · have hfree : k.processTable i = none := by simpa using List.find?_some hi
    obtain ⟨p, hp, -⟩ := h.sleeping sp hsp
    have hslot := (getProcByPid_eq hp).2
    rw [hpid, Int.toNat_natCast, hfree] at hslot
    cases hslot
  · rw [hok.unblock p hp hs]
    decide

/-- A child sleeps, is killed and collected; the next child gets its pid and waits on a
    semaphore. -/
def reusedPidEvents : List Event :=
  [.sysSpawn { entry := some 1, fds := none, background := false }, .timer,
   .sysSpawn { entry := some 2, fds := none, background := true },
   .sysSpawn { entry := some 3, fds := none, background := true },
   .sysCreateSem 5 0, .sysYield, .sysYield, .sysUsleep 277778, .resume, .sysKillProc 2,
   .sysWaitPid 2, .sysSpawn { entry := some 4, fds := none, background := true },
   .sysYield, .resume, .sysYield, .sysSemWait 5, .resume]

end TpeSo
