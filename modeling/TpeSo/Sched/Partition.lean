import TpeSo.Sched.Books

namespace TpeSo

open Ds Lib

/-!
# Scheduling — the partition invariant

Between two entries the current process is `RUNNING` and in neither queue, the ready queue
holds exactly the `READY` processes and the blocked queue exactly the `BLOCKED` ones, each
once.  The kernel keeps this as long as no process goes to sleep with a wake-up tick that
the switch of its own sleep already reaches: `timer_handler` would then ready it while it
is still the current process, and `schedule` would ready it again.

* `Part φ k` — the books of the scheduler together with what the phase adds;
* `Micro.part` — every edit keeps `Part`;
* `schedulerPartition_run` — the invariant over whole runs;
* `schedulerPartition_sleep` — the run that breaks it: `sleep(0)`.
-/

variable {φ ψ : Phase} {k k' k₀ : Kernel} {e : Event} {p c : ProcId}

/-- What the phase says about the current process. -/
def CurrentOk (φ : Phase) (k : Kernel) (c : ProcId) : Prop :=
  match φ with
  | .leaving => (k.procs c).status = .blocked ∧ (k.procs c).hasQuantum = 0 ∧
      ∀ sp ∈ k.sleepingProcs, sp.pid = (k.procs c).pid → ¬ sp.wakeUpTick ≤ (k.ticks + 1) % word
  | .switching => (k.procs c).status = .blocked ∧ (k.procs c).hasQuantum = 0 ∧
      ∀ sp ∈ k.sleepingProcs, sp.pid = (k.procs c).pid → ¬ sp.wakeUpTick ≤ k.ticks
  | _ => (k.procs c).status = .running

/-- The process the phase is about. -/
def Phase.subject : Phase → Option ProcId
  | .dying p => some p
  | .spawning p _ => some p
  | _ => none

/-- What the phase says about its subject. -/
def PhaseOk (φ : Phase) (k : Kernel) : Prop :=
  match φ with
  | .dying p => (k.procs p).status = .zombie ∧
      ∀ q, k.processTable (k.procs p).pid.toNat = some q → q = p
  | .spawning p slot => (k.procs p).status = .dead ∧ p < k.nextProc ∧
      match slot with
      | none => ∀ i, k.processTable i ≠ some p
      | some i => k.processTable i = some p
  | _ => True

/-- The books of the scheduler, and what the phase adds. -/
structure Part (φ : Phase) (k : Kernel) : Prop extends Books k where
  noDead : ∀ p, p < k.nextProc → (k.procs p).status = .dead → ∃ slot, φ = .spawning p slot
  current : ∀ c, k.currentProcess = some c → CurrentOk φ k c
  phase : PhaseOk φ k

/-- Kills are of processes that are neither blocked nor zombies, and `sys_unblock` is only
    used on processes that were blocked by `sys_block`. -/
structure AdminStep (k : Kernel) (e : Event) : Prop where
  kill : ∀ p ∈ killTarget k e, (k.procs p).status ≠ .blocked ∧ (k.procs p).status ≠ .zombie
  unblock : ∀ p ∈ unblockTarget k e, (k.procs p).status = .blocked →
    (k.procs p).blockReason = .arbitrary

/-- In addition, no caller goes to sleep until a tick that the switch of this sleep itself
    reaches. -/
structure SchedStep (k : Kernel) (e : Event) : Prop extends AdminStep k e where
  sleep : ∀ t ∈ sleepTick k e, ¬ t ≤ (k.ticks + 1) % word

instance (k : Kernel) (e : Event) : Decidable (AdminStep k e) :=
  decidable_of_iff
    ((∀ p ∈ killTarget k e, (k.procs p).status ≠ .blocked ∧ (k.procs p).status ≠ .zombie) ∧
      ∀ p ∈ unblockTarget k e, (k.procs p).status = .blocked →
        (k.procs p).blockReason = .arbitrary)
    ⟨fun h => ⟨h.1, h.2⟩, fun h => ⟨h.kill, h.unblock⟩⟩

instance (k : Kernel) (e : Event) : Decidable (SchedStep k e) :=
  decidable_of_iff (AdminStep k e ∧ ∀ t ∈ sleepTick k e, ¬ t ≤ (k.ticks + 1) % word)
    ⟨fun h => ⟨h.1, h.2⟩, fun h => ⟨h.toAdminStep, h.sleep⟩⟩

/-- **The partition invariant** between two entries. -/
structure SchedulerPartition (k : Kernel) : Prop where
  current : ∀ c, k.currentProcess = some c → (k.procs c).status = .running ∧
    c ∉ k.readyProcesses ∧ c ∉ k.blockedProcesses
  readyNodup : k.readyProcesses.Nodup
  ready : ∀ p, p ∈ k.readyProcesses ↔
    (∃ pid, getProcByPid k pid = .ok (some p)) ∧ (k.procs p).status = .ready
  blockedNodup : k.blockedProcesses.Nodup
  blocked : ∀ p, p ∈ k.blockedProcesses ↔
    (∃ pid, getProcByPid k pid = .ok (some p)) ∧ (k.procs p).status = .blocked

/-! ### Edits outside the scheduler -/

theorem CurrentOk.schedSame (s : SchedSame k k') (h : CurrentOk φ k c) : CurrentOk φ k' c := by
  unfold CurrentOk at h ⊢
  split at h
  · rw [s.status, s.pid, s.sleepers, s.ticks]
    exact ⟨h.1, s.quantum c h.2.1, h.2.2⟩
  · rw [s.status, s.pid, s.sleepers, s.ticks]
    exact ⟨h.1, s.quantum c h.2.1, h.2.2⟩
  · rw [s.status]
    exact h

theorem PhaseOk.schedSame (s : SchedSame k k') (h : PhaseOk φ k) : PhaseOk φ k' := by
  unfold PhaseOk at h ⊢
  split at h
  · rw [s.status, s.pid, s.table]
    exact h
  · rw [s.status, s.nextProc, s.table]
    exact h
  · exact h

theorem CurrentOk.congr (hprocs : k'.procs c = k.procs c)
    (hsleep : k'.sleepingProcs = k.sleepingProcs) (hticks : k'.ticks = k.ticks)
    (h : CurrentOk φ k c) : CurrentOk φ k' c := by
  unfold CurrentOk at h ⊢
  rw [hprocs, hsleep, hticks]
  exact h

theorem PhaseOk.congr (hprocs : ∀ d, φ.subject = some d → k'.procs d = k.procs d)
    (htable : k'.processTable = k.processTable) (hnext : k'.nextProc = k.nextProc)
    (h : PhaseOk φ k) : PhaseOk φ k' := by
  unfold PhaseOk at h ⊢
  split at h
  · rw [hprocs _ rfl, htable]
    exact h
  · rw [hprocs _ rfl, htable, hnext]
    exact h
  · trivial

/-- The subject of a phase is a zombie or not yet alive. -/
theorem PhaseOk.subject_status (h : PhaseOk φ k) {d : ProcId} (hd : φ.subject = some d) :
    (k.procs d).status = .zombie ∨ (k.procs d).status = .dead := by
  unfold PhaseOk at h
  split at h
  · cases hd
    exact .inl h.1
  · cases hd
    exact .inr h.1
  · rename_i hdy hsp
    cases φ with
    | dying p => exact absurd rfl (hdy p)
    | spawning p slot => exact absurd rfl (hsp p slot)
    | _ => cases hd

theorem Part.schedSame (h : Part φ k) (s : SchedSame k k') : Part φ k' where
  toBooks := h.toBooks.schedView s.toSchedView
  noDead p := by
    rw [s.nextProc, s.status]
    exact h.noDead p
  current c hc := (h.current c (s.current ▸ hc)).schedSame s
  phase := h.phase.schedSame s

/-! ### Waking -/

/-- In every phase the current process is running or blocked. -/
theorem Part.current_status (h : Part φ k) (hc : k.currentProcess = some c) :
    (k.procs c).status = .running ∨ (k.procs c).status = .blocked := by
  have hok := h.current c hc
  unfold CurrentOk at hok
  split at hok
  · exact .inr hok.1
  · exact .inr hok.1
  · exact .inl hok

/-- Where wait queues are served, the current process is running. -/
theorem Part.current_running (h : Part φ k) (hφ : φ ≠ .leaving ∧ φ ≠ .switching)
    (hc : k.currentProcess = some c) : (k.procs c).status = .running := by
  have hok := h.current c hc
  unfold CurrentOk at hok
  split at hok
  · exact absurd rfl hφ.1
  · exact absurd rfl hφ.2
  · exact hok

theorem Phase.serving.calm (hφ : φ.serving) : φ ≠ .leaving ∧ φ ≠ .switching := by
  rcases hφ with rfl | ⟨p, rfl⟩
  · simp
  · simp

/-- `proc_ready` of a blocked process that is linked nowhere and not the current one. -/
theorem Part.procReady (h : Part φ k) (hs : (k.procs p).status = .blocked)
    (hw : ∀ w, w ≠ .readyQueue → p ∉ waiters k w)
    (hsl : ∀ sp ∈ k.sleepingProcs, getProcByPid k sp.pid ≠ .ok (some p))
    (hc : k.currentProcess ≠ some p) : Part φ (procReady k (some p)) := by
  have hpid := procReady_pid k p
  have ht := h.live p (by simp [hs]) (by simp [hs])
  refine ⟨h.toBooks.procReady (by simp [hs]) ht hw hsl, ?_, ?_, ?_⟩
  · intro q hq
    rw [procReady_status]
    by_cases hqp : q = p
    · simp [hqp]
    · rw [if_neg hqp]
      exact h.noDead q hq
  · intro c hcur
    have hcp : c ≠ p := fun he => hc (he ▸ hcur)
    exact (h.current c hcur).congr (procReady_procs_ne k hcp) rfl rfl
  · refine h.phase.congr (fun d hd => procReady_procs_ne k ?_) rfl rfl
    rintro rfl
    have hst := h.phase.subject_status hd
    simp [hs] at hst

/-- Waking the head of a wait queue. -/
theorem Part.wake (h : Part φ k) (hφ : φ.serving) {w : WaitRef}
    (hw : firstWaiter k w = some p) : Part φ (TpeSo.procReady (popWaiter k w) (some p)) := by
  obtain ⟨hne, hcons⟩ := waiters_of_firstWaiter hw
  have hpop := SchedSame.popWaiter k w
  have hmem : p ∈ waiters k w := by simp [hcons]
  obtain ⟨hb, hwait⟩ := h.waiting w hne p hmem
  have hnd := h.waitNodup w hne
  rw [hcons] at hnd
  refine (h.schedSame hpop).procReady ((hpop.status p).trans hb) ?_ ?_ ?_
  · intro v hv hp
    by_cases hvw : v = w
    · rw [hvw] at hp
      exact (List.nodup_cons.mp hnd).1 hp
    · have hv' := (h.waiting v hv p ((hpop.waiters v).subset hp)).2
      exact hvw (hv'.symm.trans hwait)
  · intro sp hsp hp
    rw [hpop.sleepers] at hsp
    obtain ⟨q, hq, -, hqw⟩ := h.sleeping sp hsp
    rw [getProcByPid_congr hpop.table, hq] at hp
    cases hp
    rw [hwait] at hqw
    rw [hqw] at hcons
    simp [waiters] at hcons
  · rw [hpop.current]
    intro hc
    have hrun := h.current_running hφ.calm hc
    rw [hb] at hrun
    cases hrun

/-- Waking a process that is blocked for no resource. -/
theorem Part.wakeIdle (h : Part φ k) (hφ : φ.serving) (hb : (k.procs p).status = .blocked)
    (hr : (k.procs p).blockReason = .arbitrary ∨ (k.procs p).blockReason = .child) :
    Part φ (TpeSo.procReady k (some p)) := by
  have hwait := h.idle p hb hr
  refine h.procReady hb ?_ ?_ ?_
  · intro w hw hp
    have hw' := (h.waiting w hw p hp).2
    rw [hwait] at hw'
    rw [← hw'] at hp
    simp [waiters] at hp
  · intro sp hsp hp
    obtain ⟨q, hq, -, hqw⟩ := h.sleeping sp hsp
    rw [hp] at hq
    cases hq
    rw [hwait] at hqw
    cases hqw
  · intro hc
    have hrun := h.current_running hφ.calm hc
    rw [hb] at hrun
    cases hrun

/-! ### The timer -/

/-- Only the count of ticks and the sleep queue change. -/
theorem Part.setTime (h : Part φ k) {q : List SleepingProc} (hq : q.Sublist k.sleepingProcs)
    (t : Nat) (hcur : ∀ c, k.currentProcess = some c →
      CurrentOk ψ { k with ticks := t, sleepingProcs := q } c)
    (hsub : ψ.subject = φ.subject) (hφ : φ.subject = none) :
    Part ψ { k with ticks := t, sleepingProcs := q } := by
  refine ⟨?_, ?_, hcur, ?_⟩
  · have hb := h.toBooks.setSleepers hq
    exact { hb with waiting := fun w => hb.waiting w, waitNodup := fun w => hb.waitNodup w }
  · intro p hp hd
    obtain ⟨slot, rfl⟩ := h.noDead p hp hd
    cases hφ
  · rw [hφ] at hsub
    unfold PhaseOk
    split <;> first | cases hsub | trivial

/-- `timer_handler` wakes a sleeper, which is not the process that has just gone to sleep. -/
theorem Part.wakeSleeper (h : Part φ k) (hφ : φ.ticking) {sp : SleepingProc}
    (hmem : sp ∈ k.sleepingProcs) (hdue : sp.wakeUpTick ≤ k.ticks)
    (hp : getProcByPid k sp.pid = .ok (some p)) (hs : (k.procs p).status = .blocked) :
    Part φ { TpeSo.procReady k (some p) with
      sleepingProcs := queueRemove k.sleepingProcs sp } := by
  obtain ⟨q, hq, -, hwait⟩ := h.sleeping sp hmem
  rw [hp] at hq
  cases hq
  have hpid : (k.procs p).pid = sp.pid := h.pid_of_lookup hp
  have hsubj : φ.subject = none := by rcases hφ with rfl | rfl <;> rfl
  have hsub : (queueRemove k.sleepingProcs sp).Sublist k.sleepingProcs := List.erase_sublist
  have hpart : Part φ { k with ticks := k.ticks, sleepingProcs := queueRemove k.sleepingProcs sp } := by
    refine h.setTime hsub k.ticks (fun c hc => ?_) rfl hsubj
    have hok := h.current c hc
    unfold CurrentOk at hok ⊢
    split at hok
    · exact ⟨hok.1, hok.2.1, fun x hx => hok.2.2 x (hsub.subset hx)⟩
    · exact ⟨hok.1, hok.2.1, fun x hx => hok.2.2 x (hsub.subset hx)⟩
    · exact hok
  refine hpart.procReady (p := p) hs ?_ ?_ ?_
  · intro w hw hin
    have hw' := (h.waiting w hw p hin).2
    rw [hwait] at hw'
    rw [← hw'] at hin
    simp [waiters] at hin
  · intro x hx hxp
    -- a second entry for `p` would carry the same pid
    have hxp' : (k.procs p).pid = x.pid := h.pid_of_lookup hxp
    have hnd := h.sleepNodup
    have hxmem : x ∈ k.sleepingProcs := hsub.subset hx
    have hxe : x = sp := List.inj_on_of_nodup_map hnd hxmem hmem (hxp'.symm.trans hpid)
    rw [hxe, queueRemove] at hx
    exact ((h.sleepNodup.of_map _).mem_erase_iff.mp hx).1 rfl
  · intro hc
    have hok := h.current p hc
    rcases hφ with rfl | rfl
    · simp [CurrentOk, hs] at hok
    · exact hok.2.2 sp hmem hpid.symm hdue

/-- `schedule` picks the head of the ready queue. -/
theorem Part.dispatchTo (h : Part φ k) (hφ : φ.ticking) {rest : List ProcId}
    (hr : k.readyProcesses = p :: rest) : Part .run (TpeSo.dispatchTo k p rest) := by
  refine ⟨h.toBooks.dispatchTo hr, ?_, ?_, trivial⟩
  · intro q hq hd
    have hdead : (k.procs q).status = .dead := by
      by_cases hqp : q = p
      · subst hqp
        simp [TpeSo.dispatchTo, Kernel.setProc] at hd
      · simpa [TpeSo.dispatchTo, Kernel.setProc, hqp] using hd
    obtain ⟨slot, rfl⟩ := h.noDead q hq hdead
    rcases hφ with hφ | hφ <;> cases hφ
  · intro c hc
    cases hc
    simp [CurrentOk, TpeSo.dispatchTo, Kernel.setProc]

/-- `schedule` sends the running process to the end of the ready queue first. -/
theorem Part.preempt (h : Part φ k) (hφ : φ.ticking) (hc : k.currentProcess = some c)
    (hs : (k.procs c).status ≠ .blocked) {rest : List ProcId}
    (hr : (TpeSo.procReady k (some c)).readyProcesses = p :: rest) :
    Part .run (TpeSo.dispatchTo (TpeSo.procReady k (some c)) p rest) := by
  have hrun : (k.procs c).status = .running := (h.current_status hc).resolve_right hs
  have hb : Books (TpeSo.procReady k (some c)) := by
    refine h.toBooks.procReady (by simp [hrun]) ?_ (h.notMem_waiters hs) (h.awake hs)
    exact h.live c (by simp [hrun]) (by simp [hrun])
  refine ⟨hb.dispatchTo hr, ?_, ?_, trivial⟩
  · intro q hq hd
    have hdead : (k.procs q).status = .dead := by
      by_cases hqp : q = p
      · subst hqp
        simp [TpeSo.dispatchTo, Kernel.setProc] at hd
      · have hd' : ((TpeSo.procReady k (some c)).procs q).status = .dead := by
          simpa [TpeSo.dispatchTo, Kernel.setProc, hqp] using hd
        rw [procReady_status] at hd'
        split at hd'
        · cases hd'
        · exact hd'
    obtain ⟨slot, rfl⟩ := h.noDead q hq hdead
    rcases hφ with hφ | hφ <;> cases hφ
  · intro c' hc'
    cases hc'
    simp [CurrentOk, TpeSo.dispatchTo, Kernel.setProc]

/-! ### Blocking -/

theorem BlocksOn.idle {reason : BlockReason} {w : WaitRef} {pend : Pending}
    (h : BlocksOn reason w pend) (hr : reason = .arbitrary ∨ reason = .child) : w = .null := by
  rcases hr with rfl | rfl
  · cases w <;> first | rfl | exact h.elim
  · cases w <;> first | rfl | exact h.elim

/-- The current process blocks itself: it is linked where it waits and nowhere else. -/
theorem Part.leave (h : Part .run k) (hc : k.currentProcess = some c) {K : Kernel}
    (b : SchedBase k K) (hK : K.procs = k.procs) {reason : BlockReason} {w : WaitRef}
    (pend : Pending) (hr : reason = .arbitrary ∨ reason = .child → w = .null)
    (hlink : ∀ v, v ≠ .readyQueue → waiters K v = waiters k v ∨
      (v = w ∧ waiters K v = waiters k v ++ [c]))
    (hsleep : K.sleepingProcs = k.sleepingProcs ∨ w = .sleepers ∧
      ∃ t, ¬ t ≤ (k.ticks + 1) % word ∧
        K.sleepingProcs = k.sleepingProcs ++ [{ pid := (k.procs c).pid, wakeUpTick := t }]) :
    Part .leaving (TpeSo.leave K c reason w pend) := by
  have hrun : (k.procs c).status = .running := h.current c hc
  have hs := SchedSame.suspend K pend
  have hprocs : (K.suspend pend).procs = k.procs := by rw [suspend_procs, hK]
  have hmark : Books (markBlocked (K.suspend pend) c reason w) := by
    refine h.toBooks.markBlocked (b.trans hs.toSchedBase) hprocs (.inr hrun) hr ?_ ?_
    · intro v hv
      rw [waiters_suspend]
      exact hlink v hv
    · rw [hs.sleepers]
      exact hsleep.imp id fun hl => ⟨hl.1, hl.2.imp fun _ ht => ht.2⟩
  have hprocsC : (TpeSo.leave K c reason w pend).procs c =
      { k.procs c with
        status := .blocked, blockReason := reason, waitingOn := w, hasQuantum := 0 } := by
    simp [TpeSo.leave, markBlocked, Kernel.setProc, Kernel.alloc, hK]
  refine ⟨hmark.schedView (.setProc c rfl), ?_, ?_, trivial⟩
  · intro q hq hd
    have hq' : q < k.nextProc := by
      rw [← (b.trans hs.toSchedBase).nextProc]
      exact hq
    by_cases hqc : q = c
    · rw [hqc, hprocsC] at hd
      cases hd
    · have hd' : (k.procs q).status = .dead := by
        simpa [TpeSo.leave, markBlocked, Kernel.setProc, Kernel.alloc, hqc, hK] using hd
      obtain ⟨slot, hslot⟩ := h.noDead q hq' hd'
      cases hslot
  · intro c' hc'
    have hcc : c' = c := by
      have hcur : (K.suspend pend).currentProcess = some c' := hc'
      rw [hs.current, b.current, hc] at hcur
      exact (Option.some.inj hcur).symm
    subst hcc
    refine ⟨by rw [hprocsC], by rw [hprocsC], ?_⟩
    intro sp hsp hpid
    rw [hprocsC] at hpid
    have hsp' : sp ∈ K.sleepingProcs := by
      rw [← hs.sleepers]
      exact hsp
    show ¬ sp.wakeUpTick ≤ ((K.suspend pend).ticks + 1) % word
    rw [hs.ticks, b.ticks]
    -- an older entry with this pid would belong to a blocked process
    have hold : sp ∉ k.sleepingProcs := by
      intro hmem
      obtain ⟨q, hq, hb, -⟩ := h.sleeping sp hmem
      rw [show sp.pid = (k.procs c').pid from hpid,
        h.lookup (by simp [hrun]) (by simp [hrun])] at hq
      cases hq
      rw [hrun] at hb
      cases hb
    rcases hsleep with hsl | ⟨-, t, ht, hsl⟩
    · exact absurd (hsl ▸ hsp') hold
    · rw [hsl, List.mem_append, List.mem_singleton] at hsp'
      rw [hsp'.resolve_left hold]
      exact ht

/-- Another process is blocked. -/
theorem Part.blockOther (h : Part .run k) (hp : k.currentProcess ≠ some p)
    (hs : (k.procs p).status ≠ .zombie ∧ (k.procs p).status ≠ .dead ∧
      (k.procs p).status ≠ .blocked) : Part .run (markBlocked k p .arbitrary .null) := by
  have hst : (k.procs p).status = .ready ∨ (k.procs p).status = .running := by
    cases hk : (k.procs p).status with
    | ready => exact .inl rfl
    | running => exact .inr rfl
    | dead => exact absurd hk hs.2.1
    | zombie => exact absurd hk hs.1
    | blocked => exact absurd hk hs.2.2
  have hother : ∀ q, q ≠ p → (markBlocked k p .arbitrary .null).procs q = k.procs q := by
    intro q hq
    simp [markBlocked, Kernel.setProc, Kernel.alloc, hq]
  refine ⟨h.toBooks.markBlocked (.refl k) rfl hst (fun _ => rfl) (fun _ _ => .inl rfl) (.inl rfl), ?_, ?_,
    trivial⟩
  · intro q hq hd
    by_cases hqp : q = p
    · subst hqp
      simp [markBlocked, Kernel.setProc, Kernel.alloc] at hd
    · rw [hother q hqp] at hd
      obtain ⟨slot, hslot⟩ := h.noDead q hq hd
      cases hslot
  · intro c hc
    have hcp : c ≠ p := by
      rintro rfl
      exact hp hc
    show ((markBlocked k p .arbitrary .null).procs c).status = .running
    rw [hother c hcp]
    exact h.current c hc

/-! ### Death and birth -/

theorem Part.kill (h : Part .run k)
    (hs : (k.procs p).status = .ready ∨ (k.procs p).status = .running) (code : Int) :
    Part (.dying p) (bury k p code) := by
  have hnd : (k.procs p).status ≠ .dead := by rcases hs with hs | hs <;> simp [hs]
  have hnz : (k.procs p).status ≠ .zombie := by rcases hs with hs | hs <;> simp [hs]
  refine ⟨h.toBooks.bury hs code, ?_, ?_, ?_⟩
  · rw [h.bury_eq hs]
    intro q hq hd
    by_cases hqp : q = p
    · subst hqp
      simp at hd
    · rw [Kernel.procs_setProc_ne _ hqp] at hd
      obtain ⟨slot, hslot⟩ := h.noDead q hq hd
      cases hslot
  · intro c hc
    rw [h.bury_eq hs] at hc ⊢
    have hc' : (rmCurrent k p).currentProcess = some c := hc
    have hcp : c ≠ p := by
      rintro rfl
      unfold rmCurrent at hc'
      split at hc'
      · cases hc'
      · rename_i hnr
        exact hnr (h.current c hc')
    have hcur : k.currentProcess = some c := by
      unfold rmCurrent at hc'
      split at hc'
      · cases hc'
      · exact hc'
    show (Kernel.procs (Kernel.setProc _ p _) c).status = .running
    rw [Kernel.procs_setProc_ne _ hcp]
    exact h.current c hcur
  · rw [h.bury_eq hs]
    refine ⟨by rw [Kernel.procs_setProc_self], fun q hq => ?_⟩
    rw [Kernel.procs_setProc_self] at hq
    have ht : k.processTable (k.procs p).pid.toNat = some q := hq
    rw [h.live p hnd hnz] at ht
    exact (Option.some.inj ht).symm

/-- The table forgets a zombie. -/
theorem Part.forgetPid (h : Part φ k) (hφ : φ = .run ∨ φ = .dying p)
    (hz : (k.procs p).status = .zombie)
    (hown : ∀ q, k.processTable (k.procs p).pid.toNat = some q → q = p) :
    Part φ (TpeSo.forgetPid k p) := by
  refine ⟨h.toBooks.forgetPid hz hown, h.noDead, ?_, ?_⟩
  · intro c hc
    exact (h.current c hc).congr rfl rfl rfl
  · rcases hφ with rfl | rfl
    · trivial
    · refine ⟨hz, fun q hq => ?_⟩
      have hq' : (TpeSo.forgetPid k p).processTable (k.procs p).pid.toNat = some q := hq
      simp [TpeSo.forgetPid] at hq'

theorem Part.newProc (h : Part .run k) : Part (.spawning k.nextProc none) { k with
    nextProc := k.nextProc + 1, procs := Function.update k.procs k.nextProc {} } := by
  refine ⟨h.toBooks.newProc, ?_, ?_, ?_⟩
  · intro q hq hd
    by_cases hqn : q = k.nextProc
    · exact ⟨none, by rw [hqn]⟩
    · have hq' : q < k.nextProc := lt_of_le_of_ne (Nat.lt_succ_iff.mp hq) hqn
      have hd' : (k.procs q).status = .dead := by simpa [hqn] using hd
      obtain ⟨slot, hslot⟩ := h.noDead q hq' hd'
      cases hslot
  · intro c hc
    have hrun : (k.procs c).status = .running := h.current c hc
    have hcn : c ≠ k.nextProc := ne_of_lt (h.born (by simp [hrun]))
    show (Function.update k.procs k.nextProc {} c).status = .running
    rw [Function.update_of_ne hcn]
    exact hrun
  · refine ⟨by simp, Nat.lt_succ_self _, fun i hi => ?_⟩
    exact absurd (h.table i _ hi).2.2 (lt_irrefl _)

/-- The control block of the process that is being set up may be written to. -/
theorem Part.setSpawning {slot : Option Nat} (h : Part (.spawning p none) k) {f : Proc → Proc}
    (hf : (f (k.procs p)).status = .dead) {k' : Kernel} (hb : Books k')
    (hprocs : k'.procs = (k.setProc p f).procs) (hcur : k'.currentProcess = k.currentProcess)
    (hnext : k'.nextProc = k.nextProc)
    (hslot : match slot with
      | none => ∀ i, k'.processTable i ≠ some p
      | some i => k'.processTable i = some p) : Part (.spawning p slot) k' := by
  obtain ⟨hd, hlt, -⟩ := h.phase
  refine ⟨hb, ?_, ?_, ?_, ?_, ?_⟩
  · intro q hq hdq
    by_cases hqp : q = p
    · exact ⟨slot, by rw [hqp]⟩
    · rw [hprocs, Kernel.procs_setProc_ne k hqp] at hdq
      obtain ⟨slot', hs⟩ := h.noDead q (hnext ▸ hq) hdq
      cases hs
      exact absurd rfl hqp
  · intro c hc
    have hrun : (k.procs c).status = .running := h.current c (hcur ▸ hc)
    have hcp : c ≠ p := by
      rintro rfl
      rw [hd] at hrun
      cases hrun
    show (k'.procs c).status = .running
    rw [hprocs, Kernel.procs_setProc_ne k hcp]
    exact hrun
  · rw [hprocs, Kernel.procs_setProc_self]
    exact hf
  · rw [hnext]
    exact hlt
  · exact hslot

theorem Part.start {i : Nat} (h : Part (.spawning p (some i)) k) :
    Part .run (TpeSo.procReady k (some p)) := by
  obtain ⟨hd, -, ht⟩ := h.phase
  have ht : k.processTable i = some p := ht
  have hpid : (k.procs p).pid = i := (h.table i p ht).2.1
  have hb : Books (TpeSo.procReady k (some p)) := by
    refine h.toBooks.procReady (by simp [hd]) ?_ (h.notMem_waiters (by simp [hd]))
      (h.awake (by simp [hd]))
    rw [hpid, Int.toNat_natCast]
    exact ht
  refine ⟨hb, ?_, ?_, trivial⟩
  · intro q hq hdq
    rw [procReady_status] at hdq
    split at hdq
    · cases hdq
    · rename_i hqp
      obtain ⟨slot, hslot⟩ := h.noDead q hq hdq
      cases hslot
      exact absurd rfl hqp
  · intro c hc
    have hrun : (k.procs c).status = .running := h.current c hc
    have hcp : c ≠ p := by
      rintro rfl
      rw [hd] at hrun
      cases hrun
    show ((TpeSo.procReady k (some p)).procs c).status = .running
    rw [procReady_procs_ne k hcp]
    exact hrun

/-! ### Every edit keeps the books -/

/-- A change of quantum outside a switch. -/
theorem Part.setQuantum (h : Part .run k) (p : ProcId) (n : Nat) :
    Part .run (k.setProc p fun q => { q with hasQuantum := n }) := by
  have hstatus : ∀ q, ((k.setProc p fun q => { q with hasQuantum := n }).procs q).status =
      (k.procs q).status := k.setProc_spares Proc.status rfl
  refine ⟨h.toBooks.schedView (.setProc p rfl), ?_, ?_, trivial⟩
  · intro q hq
    rw [hstatus]
    exact h.noDead q hq
  · intro c hc
    show _ = _
    rw [hstatus]
    exact h.current c hc

/-- **Every edit keeps the invariant** in a step that meets `SchedStep`. -/
theorem Micro.part {a : Act} (hstep : SchedStep k₀ e) (h : Part φ k) (ho : Origin k₀ e k a)
    (hm : Micro φ k a ψ k') : Part ψ k' := by
  by_cases hoff : a.offSched
  · obtain ⟨hs, rfl⟩ := hm.schedSame hoff
    exact h.schedSame hs
  cases hm with
  | quantum p n => exact h.setQuantum p n
  | tick => exact h.setTime (List.Sublist.refl _) _ (fun c hc => h.current c hc) rfl rfl
  | tickLeaving => exact h.setTime (List.Sublist.refl _) _ (fun c hc => h.current c hc) rfl rfl
  | wakeSleeper hφ hmem hdue hp hs => exact h.wakeSleeper hφ hmem hdue hp hs
  | dropSleeper hφ hmem hp =>
    obtain ⟨q, hq, hb, -⟩ := h.sleeping _ hmem
    exact absurd hb (hp q hq)
  | stay hφ hc hq =>
    rcases hφ with rfl | rfl
    · exact h
    · exact absurd (h.current _ hc).2.1 hq
  | refill n hφ hc hs =>
    rcases hφ with rfl | rfl
    · exact h.setQuantum _ n
    · have hb := (h.current _ hc).1
      rw [hs] at hb
      cases hb
  | dispatch hφ hc hr => exact h.dispatchTo hφ hr
  | preempt hφ hc hs hr => exact h.preempt hφ hc hs.1 hr
  | @blockSelf k c w reason pend hc hw =>
    exact h.leave hc (.linkWaiter k w c) (linkWaiter_procs k w c) pend hw.idle
      (fun v _ => waiters_linkWaiter k w c hw.ne_readyQueue v)
      (.inl (linkWaiter_sleepingProcs k w c))
  | @blockSleep k c t hc =>
    have ht : ¬ t ≤ (k.ticks + 1) % word := by
      rw [ho.1.ticks]
      exact hstep.sleep t ho.2
    refine h.leave (K := linkSleeper k c t) hc (.of_alloc rfl rfl rfl) rfl .sleep ?_
      (fun v _ => ?_)
      (.inr ⟨rfl, t, ht, ?_⟩)
    · simp
    · left
      cases v <;> rfl
    · show enqueue k.kmalloc _ _ = _
      rw [h.heap.kmalloc, enqueue_true]
  | blockOther hc hs => exact h.blockOther hc hs
  | unblock hs =>
    have hs₀ := (ho.1.status _).symm.trans hs
    have hr := hstep.unblock _ ho.2 hs₀
    exact h.wakeIdle (.inl rfl) hs (.inl ((ho.1.blockReason _).trans hr))
  | wake hφ hw => exact h.wake hφ hw
  | @wakeParent p k q hs hr => exact h.wakeIdle (.inr ⟨p, rfl⟩) hs (.inr hr)
  | @kill k p code =>
    obtain ⟨hnb, hnz⟩ := hstep.kill p ho.2
    rw [← ho.1.status] at hnb hnz
    refine h.kill ?_ code
    cases hk : (k.procs p).status with
    | ready => exact .inl rfl
    | running => exact .inr rfl
    | blocked => exact absurd hk hnb
    | zombie => exact absurd hk hnz
    | dead =>
      -- a control block that was never handed out has pid 0, which `proc_kill` spares
      exfalso
      have hpid := (Option.filter_eq_some_iff.mp ho.2).2
      rw [← ho.1.pid] at hpid
      by_cases hlt : p < k.nextProc
      · obtain ⟨slot, hslot⟩ := h.noDead p hlt hk
        cases hslot
      · simp [(h.unborn p (not_lt.mp hlt)).2] at hpid
  | endKill => exact ⟨h.toBooks, fun p hp hd => (nomatch h.noDead p hp hd), h.current, trivial⟩
  | @reapSelf p k => exact h.forgetPid (.inr rfl) h.phase.1 h.phase.2
  | reapChild hp hs =>
    refine h.forgetPid (.inl rfl) hs fun q hq => ?_
    rw [h.pid_of_lookup hp, (getProcByPid_eq hp).2] at hq
    exact (Option.some.inj hq).symm
  | newProc => exact h.newProc
  | @noPid p k =>
    obtain ⟨hd, hlt, hfree⟩ := h.phase
    exact h.setSpawning hd (h.toBooks.setDead hd hd hlt hfree) rfl rfl rfl hfree
  | @claimPid p k i hi hslot =>
    obtain ⟨hd, hlt, hfree⟩ := h.phase
    refine h.setSpawning (f := fun q => { q with pid := i }) hd
      (h.toBooks.claimPid hi hslot hd hlt hfree) rfl rfl rfl ?_
    exact Function.update_self ..
  | start => exact h.start
  | startBare hm => exact absurd (h.heap.kmalloc.symm.trans hm) (by simp)
  | _ => exact absurd trivial hoff

/-! ### Whole runs -/

theorem Part.boot {mallocOk : Nat → Bool} (hm : ∀ n, mallocOk n = true) :
    Part .run (boot mallocOk) where
  heap := hm
  table _ _ h := nomatch h
  live _ h := absurd rfl h
  unborn _ _ := ⟨rfl, rfl⟩
  readyNodup := List.nodup_nil
  ready p := by simp [TpeSo.boot]
  blockedNodup := List.nodup_nil
  blocked p := by simp [TpeSo.boot]
  runnable _ h := by simp [TpeSo.boot] at h
  waiting w _ p hp := by cases w <;> simp [TpeSo.boot, waiters] at hp
  waitNodup w _ := by cases w <;> simp [TpeSo.boot, waiters]
  sleepNodup := List.nodup_nil
  sleeping _ h := nomatch h
  idle _ h := nomatch h
  noDead _ h := absurd h (Nat.not_lt_zero _)
  current _ h := nomatch h
  phase := trivial

/-- A step that meets `SchedStep` leads from books to books. -/
theorem Part.step {o : Option Completion} (h : Part .run k) (hok : SchedStep k e)
    (hs : step k e = some (k', o)) : Part .run k' :=
  Does.invariant Part (fun _ _ _ _ _ hI hC hm => hm.part hok hI hC) (step_does hs) h

theorem Part.schedulerPartition (h : Part .run k) : SchedulerPartition k where
  current c hc := by
    have hrun : (k.procs c).status = .running := h.current c hc
    exact ⟨hrun, h.notMem_ready (by simp [hrun]), h.notMem_blocked (by simp [hrun])⟩
  readyNodup := h.readyNodup
  ready p := by
    rw [h.ready]
    exact ⟨fun hs => ⟨⟨_, h.lookup (by simp [hs]) (by simp [hs])⟩, hs⟩, fun hs => hs.2⟩
  blockedNodup := h.blockedNodup
  blocked p := by
    rw [h.blocked]
    exact ⟨fun hs => ⟨⟨_, h.lookup (by simp [hs]) (by simp [hs])⟩, hs⟩, fun hs => hs.2⟩

/-- **The partition invariant.**  With a heap that never runs out, it holds after every run
    whose steps meet `SchedStep`. -/
theorem schedulerPartition_run {mallocOk : Nat → Bool}
    {tr : List (Kernel × Event × Option Completion)} (hm : ∀ n, mallocOk n = true)
    (h : Run mallocOk SchedStep tr k) : SchedulerPartition k :=
  (h.invariant (Part .run) (.boot hm) fun _ _ _ _ hI hok hs => hI.step hok hs).schedulerPartition

/-- `idle`, `init` and three more; one sleeps for a second, one waits on a semaphore, one is
    killed while it is ready, and `idle` is blocked and unblocked. -/
def busyEvents : List Event :=
  [.sysSpawn { entry := some 1, fds := none, background := false },
   .sysSpawn { entry := some 2, fds := none, background := true },
   .timer,
   .sysSpawn { entry := some 3, fds := none, background := true },
   .sysSpawn { entry := some 4, fds := none, background := true },
   .sysSpawn { entry := some 5, fds := none, background := true },
   .sysCreateSem 5 0, .sysYield, .sysSleep 1, .sysSemWait 5, .sysBlock 0, .sysKillProc 4,
   .sysUnblock 0]

theorem schedulerPartition_run_busy : ∃ tr k, Run (fun _ => true) SchedStep tr k ∧
    tr.length = 13 ∧ k.sleepingProcs.length = 1 ∧ SchedulerPartition k := by
  have hcheck : execCheck step SchedStep
      (fun tr k => tr.length == 13 && k.sleepingProcs.length == 1) (boot fun _ => true)
      busyEvents = true := by decide +kernel
  obtain ⟨tr, k, hrun, hQ⟩ := Trace.of_execCheck hcheck
  simp only [Bool.and_eq_true, beq_iff_eq] at hQ
  exact ⟨tr, k, hrun, hQ.1, hQ.2, schedulerPartition_run (fun _ => rfl) hrun⟩

/-- `init` and a child; `init` hands over, and the child sleeps for no time at all. -/
def sleepZeroEvents : List Event :=
  [.sysSpawn { entry := some 1, fds := none, background := false },
   .sysSpawn { entry := some 2, fds := none, background := true },
   .timer, .sysYield, .sysSleep 0]

/-- **`sleep(0)` breaks the partition**: the child ends up twice in the ready queue. -/
theorem schedulerPartition_sleep : ¬ ∀ tr k, Run (fun _ => true) AdminStep tr k →
    SchedulerPartition k := by
  intro hall
  have hcheck : execCheck step AdminStep (fun _ k => k.readyProcesses == [1, 1])
      (boot fun _ => true) sleepZeroEvents = true := by decide +kernel
  obtain ⟨tr, k, hrun, hQ⟩ := Trace.of_execCheck hcheck
  have hnd := (hall tr k hrun).readyNodup
  rw [beq_iff_eq.mp hQ] at hnd
  simp at hnd

end TpeSo
