import TpeSo.Sched.View

namespace TpeSo

open Ds Lib

/-!
# Scheduling — the books of the scheduler

`Books k` says that the two queues of the scheduler hold the `READY` and the `BLOCKED`
processes, once each, and what has to be known beside it for the edits to keep that: where
a blocked process is linked, that the table finds every live process, and that the entries
of the sleep queue belong to sleepers.  It holds between any two edits; what depends on
the phase is added in `Sched/Partition.lean`.

One lemma per edit: `Books.procReady`, `Books.markBlocked`, `Books.dispatchTo`,
`Books.bury`, `Books.forgetPid`, `Books.claimPid`, ...
-/

variable {k k' K : Kernel} {p c : ProcId}

/-- **The books of the scheduler.** -/
structure Books (k : Kernel) : Prop where
  heap : k.HeapOk
  table : ∀ i p, k.processTable i = some p →
    i < maxProcesses ∧ (k.procs p).pid = i ∧ p < k.nextProc
  /-- The table finds every live process. -/
  live : ∀ p, (k.procs p).status ≠ .dead → (k.procs p).status ≠ .zombie →
    k.processTable (k.procs p).pid.toNat = some p
  unborn : ∀ p, k.nextProc ≤ p → (k.procs p).status = .dead ∧ (k.procs p).pid = 0
  readyNodup : k.readyProcesses.Nodup
  ready : ∀ p, p ∈ k.readyProcesses ↔ (k.procs p).status = .ready
  blockedNodup : k.blockedProcesses.Nodup
  blocked : ∀ p, p ∈ k.blockedProcesses ↔ (k.procs p).status = .blocked
  runnable : ∀ p, (k.procs p).status = .ready ∨ (k.procs p).status = .running →
    (k.procs p).waitingOn = .readyQueue
  /-- Whoever is in a wait queue is blocked and waits on that queue. -/
  waiting : ∀ w, w ≠ .readyQueue → ∀ p ∈ waiters k w,
    (k.procs p).status = .blocked ∧ (k.procs p).waitingOn = w
  waitNodup : ∀ w, w ≠ .readyQueue → (waiters k w).Nodup
  sleepNodup : (k.sleepingProcs.map SleepingProc.pid).Nodup
  sleeping : ∀ sp ∈ k.sleepingProcs, ∃ p, getProcByPid k sp.pid = .ok (some p) ∧
    (k.procs p).status = .blocked ∧ (k.procs p).waitingOn = .sleepers
  /-- Blocked for no resource of the kernel. -/
  idle : ∀ p, (k.procs p).status = .blocked →
    (k.procs p).blockReason = .arbitrary ∨ (k.procs p).blockReason = .child →
    (k.procs p).waitingOn = .null

theorem getProcByPid_eq {pid : Int} (h : getProcByPid k pid = .ok (some p)) :
    0 ≤ pid ∧ k.processTable pid.toNat = some p := by
  unfold getProcByPid at h
  split at h
  · rename_i hpid
    exact ⟨hpid.1, Outcome.ok.inj h⟩
  · cases h

theorem getProcByPid_congr (h : k'.processTable = k.processTable) (pid : Int) :
    getProcByPid k' pid = getProcByPid k pid := by
  rw [getProcByPid, getProcByPid, h]

namespace Books

/-- A live process has a pid in the range of the table. -/
theorem pid_range (h : Books k) (hd : (k.procs p).status ≠ .dead)
    (hz : (k.procs p).status ≠ .zombie) :
    ∃ i, i < maxProcesses ∧ (k.procs p).pid = (i : Nat) ∧ k.processTable i = some p := by
  have ht := h.live p hd hz
  obtain ⟨hi, hpid, -⟩ := h.table _ _ ht
  exact ⟨_, hi, hpid, ht⟩

/-- The table finds a live process under its own pid. -/
theorem lookup (h : Books k) (hd : (k.procs p).status ≠ .dead)
    (hz : (k.procs p).status ≠ .zombie) : getProcByPid k (k.procs p).pid = .ok (some p) := by
  obtain ⟨i, hi, hpid, ht⟩ := h.pid_range hd hz
  rw [hpid, getProcByPid, if_pos ⟨by omega, by omega⟩]
  simp [ht]

/-- What the table finds under a pid has this pid. -/
theorem pid_of_lookup (h : Books k) {pid : Int} (hp : getProcByPid k pid = .ok (some p)) :
    (k.procs p).pid = pid := by
  obtain ⟨h0, ht⟩ := getProcByPid_eq hp
  rw [(h.table _ _ ht).2.1]
  omega

theorem born (h : Books k) (hs : (k.procs p).status ≠ .dead) : p < k.nextProc := by
  by_contra hp
  exact hs (h.unborn p (not_lt.mp hp)).1

theorem notMem_ready (h : Books k) (hs : (k.procs p).status ≠ .ready) :
    p ∉ k.readyProcesses := fun hp => hs ((h.ready p).mp hp)

theorem notMem_blocked (h : Books k) (hs : (k.procs p).status ≠ .blocked) :
    p ∉ k.blockedProcesses := fun hp => hs ((h.blocked p).mp hp)

theorem notMem_waiters (h : Books k) (hs : (k.procs p).status ≠ .blocked) (w : WaitRef)
    (hw : w ≠ .readyQueue) : p ∉ waiters k w := fun hp => hs (h.waiting w hw p hp).1

/-- The books fit every kernel that looks the same to the scheduler. -/
theorem schedView (h : Books k) (s : SchedView k k') : Books k' where
  heap := s.heap h.heap
  table i p hi := by
    rw [s.table] at hi
    rw [s.pid, s.nextProc]
    exact h.table i p hi
  live p := by
    rw [s.status, s.pid, s.table]
    exact h.live p
  unborn p := by
    rw [s.status, s.pid, s.nextProc]
    exact h.unborn p
  readyNodup := by
    rw [s.ready]
    exact h.readyNodup
  ready p := by
    rw [s.ready, s.status]
    exact h.ready p
  blockedNodup := by
    rw [s.blocked]
    exact h.blockedNodup
  blocked p := by
    rw [s.blocked, s.status]
    exact h.blocked p
  runnable p := by
    rw [s.status, s.waitingOn]
    exact h.runnable p
  waiting w hw p hp := by
    rw [s.status, s.waitingOn]
    exact h.waiting w hw p ((s.waiters w).subset hp)
  waitNodup w hw := (h.waitNodup w hw).sublist (s.waiters w)
  sleepNodup := by
    rw [s.sleepers]
    exact h.sleepNodup
  sleeping sp hsp := by
    rw [s.sleepers] at hsp
    obtain ⟨p, hp, hb, hw⟩ := h.sleeping sp hsp
    exact ⟨p, (getProcByPid_congr s.table _).trans hp, (s.status p).trans hb,
      (s.waitingOn p).trans hw⟩
  idle p := by
    rw [s.status, s.blockReason, s.waitingOn]
    exact h.idle p

/-- Entries may leave the sleep queue. -/
theorem setSleepers (h : Books k) {q : List SleepingProc} (hq : q.Sublist k.sleepingProcs) :
    Books { k with sleepingProcs := q } where
  heap := h.heap
  table := h.table
  live := h.live
  unborn := h.unborn
  readyNodup := h.readyNodup
  ready := h.ready
  blockedNodup := h.blockedNodup
  blocked := h.blocked
  runnable := h.runnable
  waiting w := h.waiting w
  waitNodup w := h.waitNodup w
  sleepNodup := h.sleepNodup.sublist (hq.map _)
  sleeping sp hsp := h.sleeping sp (hq.subset hsp)
  idle := h.idle

/-- **One process changes its status.**  `p` is linked nowhere before; afterwards it may be
    linked in the one queue it then waits on.  All edits of the scheduler are of this form. -/
theorem change (h : Books k) (p : ProcId) (hheap : k'.HeapOk)
    (htable : k'.processTable = k.processTable) (hnext : k'.nextProc = k.nextProc)
    (hother : ∀ q, q ≠ p → k'.procs q = k.procs q)
    (hpid : (k'.procs p).pid = (k.procs p).pid) (hborn : p < k.nextProc)
    (hlive : (k'.procs p).status ≠ .dead → (k'.procs p).status ≠ .zombie →
      k.processTable (k.procs p).pid.toNat = some p)
    (hfree : ∀ w, w ≠ .readyQueue → p ∉ waiters k w)
    (hawake : ∀ sp ∈ k.sleepingProcs, getProcByPid k sp.pid ≠ .ok (some p))
    (hreadyNodup : k'.readyProcesses.Nodup)
    (hready : ∀ q, q ∈ k'.readyProcesses ↔
      if q = p then (k'.procs p).status = .ready else q ∈ k.readyProcesses)
    (hblockedNodup : k'.blockedProcesses.Nodup)
    (hblocked : ∀ q, q ∈ k'.blockedProcesses ↔
      if q = p then (k'.procs p).status = .blocked else q ∈ k.blockedProcesses)
    (hrun : (k'.procs p).status = .ready ∨ (k'.procs p).status = .running →
      (k'.procs p).waitingOn = .readyQueue)
    (hlink : ∀ v, v ≠ .readyQueue → waiters k' v = waiters k v ∨
      ((k'.procs p).status = .blocked ∧ (k'.procs p).waitingOn = v ∧
        waiters k' v = waiters k v ++ [p]))
    (hsleep : k'.sleepingProcs = k.sleepingProcs ∨
      ((k'.procs p).status = .blocked ∧ (k'.procs p).waitingOn = .sleepers ∧
        ∃ t, k'.sleepingProcs = k.sleepingProcs ++ [{ pid := (k.procs p).pid, wakeUpTick := t }]))
    (hidle : (k'.procs p).status = .blocked →
      (k'.procs p).blockReason = .arbitrary ∨ (k'.procs p).blockReason = .child →
      (k'.procs p).waitingOn = .null) : Books k' where
  heap := hheap
  table i q hi := by
    rw [htable] at hi
    rw [hnext]
    by_cases hq : q = p
    · subst hq
      rw [hpid]
      exact h.table i q hi
    · rw [hother q hq]
      exact h.table i q hi
  live q := by
    rw [htable]
    by_cases hq : q = p
    · subst hq
      rw [hpid]
      exact hlive
    · rw [hother q hq]
      exact h.live q
  unborn q hq := by
    rw [hnext] at hq
    have hne : q ≠ p := by
      rintro rfl
      exact absurd hborn (not_lt.mpr hq)
    rw [hother q hne]
    exact h.unborn q hq
  readyNodup := hreadyNodup
  ready q := by
    rw [hready]
    by_cases hq : q = p
    · rw [if_pos hq, hq]
    · rw [if_neg hq, hother q hq]
      exact h.ready q
  blockedNodup := hblockedNodup
  blocked q := by
    rw [hblocked]
    by_cases hq : q = p
    · rw [if_pos hq, hq]
    · rw [if_neg hq, hother q hq]
      exact h.blocked q
  runnable q := by
    by_cases hq : q = p
    · subst hq
      exact hrun
    · rw [hother q hq]
      exact h.runnable q
  waiting v hv q hq := by
    have hold : q ∈ waiters k v → (k'.procs q).status = .blocked ∧ (k'.procs q).waitingOn = v := by
      intro hmem
      have hne : q ≠ p := fun he => hfree v hv (he ▸ hmem)
      rw [hother q hne]
      exact h.waiting v hv q hmem
    rcases hlink v hv with hl | ⟨hb, hw, hl⟩
    · exact hold (hl ▸ hq)
    · rw [hl, List.mem_append, List.mem_singleton] at hq
      rcases hq with hq | rfl
      · exact hold hq
      · exact ⟨hb, hw⟩
  waitNodup v hv := by
    rcases hlink v hv with hl | ⟨-, -, hl⟩
    · rw [hl]
      exact h.waitNodup v hv
    · rw [hl, ← List.concat_eq_append]
      exact (h.waitNodup v hv).concat (hfree v hv)
  sleepNodup := by
    rcases hsleep with hsl | ⟨hb, -, t, hsl⟩
    · rw [hsl]
      exact h.sleepNodup
    · rw [hsl, List.map_append, List.map_singleton, ← List.concat_eq_append]
      refine h.sleepNodup.concat fun hmem => ?_
      -- an entry with the pid of `p` would be an entry for `p`
      obtain ⟨sp, hsp, hpidsp⟩ := List.mem_map.mp hmem
      obtain ⟨q, hq, -, -⟩ := h.sleeping sp hsp
      have ht := hlive (by simp [hb]) (by simp [hb])
      have hqt := (getProcByPid_eq hq).2
      rw [hpidsp, ht] at hqt
      cases hqt
      exact hawake sp hsp hq
  sleeping sp hsp := by
    have hold : sp ∈ k.sleepingProcs → ∃ q, getProcByPid k' sp.pid = .ok (some q) ∧
        (k'.procs q).status = .blocked ∧ (k'.procs q).waitingOn = .sleepers := by
      intro hmem
      obtain ⟨q, hq, hb, hw⟩ := h.sleeping sp hmem
      have hne : q ≠ p := fun he => hawake sp hmem (he ▸ hq)
      exact ⟨q, (getProcByPid_congr htable _).trans hq, by rw [hother q hne]; exact hb,
        by rw [hother q hne]; exact hw⟩
    rcases hsleep with hsl | ⟨hb, hw, t, hsl⟩
    · exact hold (hsl ▸ hsp)
    · rw [hsl, List.mem_append, List.mem_singleton] at hsp
      rcases hsp with hsp | rfl
      · exact hold hsp
      · refine ⟨p, ?_, hb, hw⟩
        have ht := hlive (by simp [hb]) (by simp [hb])
        obtain ⟨hi, hpi, -⟩ := h.table _ _ ht
        rw [getProcByPid_congr htable]
        show getProcByPid k (k.procs p).pid = _
        rw [getProcByPid, if_pos ⟨by omega, by omega⟩, ht]
  idle q := by
    by_cases hq : q = p
    · subst hq
      exact hidle
    · rw [hother q hq]
      exact h.idle q

/-- A process that is not blocked has no entry in the sleep queue. -/
theorem awake (h : Books k) (hs : (k.procs p).status ≠ .blocked) :
    ∀ sp ∈ k.sleepingProcs, getProcByPid k sp.pid ≠ .ok (some p) := by
  intro sp hsp hp
  obtain ⟨q, hq, hb, -⟩ := h.sleeping sp hsp
  rw [hp] at hq
  cases hq
  exact hs hb

/-- **`proc_ready`** of a process in the table that is not ready and is linked nowhere. -/
theorem procReady (h : Books k) (hs : (k.procs p).status ≠ .ready)
    (ht : k.processTable (k.procs p).pid.toNat = some p)
    (hw : ∀ w, w ≠ .readyQueue → p ∉ waiters k w)
    (hsl : ∀ sp ∈ k.sleepingProcs, getProcByPid k sp.pid ≠ .ok (some p)) :
    Books (procReady k (some p)) := by
  refine h.change p h.heap.alloc rfl rfl (fun q hq => by simp [hq]) (procReady_pid k p p)
    (h.table _ _ ht).2.2 (fun _ _ => ht) hw hsl ?_ ?_ (h.blockedNodup.erase p) ?_ (by simp)
    (fun v hv => .inl (procReady_waiters k p hv)) (.inl rfl) (by simp)
  · rw [procReady_ready, h.heap.kmalloc, enqueue_true, ← List.concat_eq_append]
    exact h.readyNodup.concat (h.notMem_ready hs)
  · intro q
    rw [procReady_ready, h.heap.kmalloc, enqueue_true]
    by_cases hq : q = p
    · simp [hq]
    · simp [hq]
  · intro q
    rw [procReady_blocked, h.blockedNodup.mem_erase_iff]
    by_cases hq : q = p
    · simp [hq]
    · simp [hq]

/-- **`block`**, up to the switch: `p` may have linked itself into `w` before. -/
theorem markBlocked (h : Books k) (b : SchedBase k K) (hK : K.procs = k.procs)
    (hs : (k.procs p).status = .ready ∨ (k.procs p).status = .running)
    {reason : BlockReason} {w : WaitRef}
    (hr : reason = .arbitrary ∨ reason = .child → w = .null)
    (hlink : ∀ v, v ≠ .readyQueue → waiters K v = waiters k v ∨
      (v = w ∧ waiters K v = waiters k v ++ [p]))
    (hsleep : K.sleepingProcs = k.sleepingProcs ∨ w = .sleepers ∧
      ∃ t, K.sleepingProcs = k.sleepingProcs ++ [{ pid := (k.procs p).pid, wakeUpTick := t }]) :
    Books (TpeSo.markBlocked K p reason w) := by
  have hheap : K.HeapOk := b.heap h.heap
  have hnb : (k.procs p).status ≠ .blocked := by rcases hs with hs | hs <;> simp [hs]
  have hnd : (k.procs p).status ≠ .dead := by rcases hs with hs | hs <;> simp [hs]
  have hnz : (k.procs p).status ≠ .zombie := by rcases hs with hs | hs <;> simp [hs]
  have hself : ((TpeSo.markBlocked K p reason w).procs p) =
      { k.procs p with status := .blocked, blockReason := reason, waitingOn := w } := by
    simp [TpeSo.markBlocked, Kernel.setProc, Kernel.alloc, hK]
  have hwaiters : ∀ v, v ≠ .readyQueue →
      waiters (TpeSo.markBlocked K p reason w) v = waiters K v := by
    intro v hv
    cases v <;> first | rfl | exact absurd rfl hv
  have hready : (TpeSo.markBlocked K p reason w).readyProcesses = k.readyProcesses.erase p := by
    show K.readyProcesses.erase p = _
    rw [b.ready]
  have hblocked : (TpeSo.markBlocked K p reason w).blockedProcesses =
      k.blockedProcesses ++ [p] := by
    show enqueue K.kmalloc K.blockedProcesses p = _
    rw [hheap.kmalloc, enqueue_true, b.blocked]
  refine h.change p hheap.alloc b.table b.nextProc ?_ (by rw [hself]) (h.born hnd)
    (fun _ _ => h.live p hnd hnz) (h.notMem_waiters hnb) (h.awake hnb) ?_ ?_ ?_ ?_ ?_ ?_ ?_ ?_
  · intro q hq
    simp [TpeSo.markBlocked, Kernel.setProc, Kernel.alloc, hq, hK]
  · rw [hready]
    exact h.readyNodup.erase p
  · intro q
    rw [hready, h.readyNodup.mem_erase_iff, hself]
    by_cases hq : q = p
    · simp [hq]
    · simp [hq]
  · rw [hblocked, ← List.concat_eq_append]
    exact h.blockedNodup.concat (h.notMem_blocked hnb)
  · intro q
    rw [hblocked, List.mem_append, List.mem_singleton, hself]
    by_cases hq : q = p
    · simp [hq]
    · simp [hq]
  · rw [hself]
    simp
  · intro v hv
    rw [hwaiters v hv, hself]
    exact (hlink v hv).imp id fun hl => ⟨rfl, hl.1.symm, hl.2⟩
  · rw [hself]
    exact hsleep.imp id fun hl => ⟨rfl, hl.1, hl.2⟩
  · rw [hself]
    exact fun _ => hr

/-- **`enqueue_next_process`** of the head of the ready queue. -/
theorem dispatchTo (h : Books k) {rest : List ProcId} (hr : k.readyProcesses = p :: rest) :
    Books (TpeSo.dispatchTo k p rest) := by
  have hready : (k.procs p).status = .ready := (h.ready p).mp (by rw [hr]; simp)
  have hnb : (k.procs p).status ≠ .blocked := by simp [hready]
  have hnd : p ∉ rest ∧ rest.Nodup := List.nodup_cons.mp (hr ▸ h.readyNodup)
  have hself : (TpeSo.dispatchTo k p rest).procs p =
      { k.procs p with status := .running, hasQuantum := (k.procs p).priority } := by
    simp [TpeSo.dispatchTo, Kernel.setProc]
  refine h.change p h.heap rfl rfl ?_ (by rw [hself]) (h.born (by simp [hready]))
    (fun _ _ => h.live p (by simp [hready]) (by simp [hready])) (h.notMem_waiters hnb)
    (h.awake hnb) hnd.2 ?_ h.blockedNodup ?_ ?_ ?_ (.inl rfl) (by simp [hself])
  · intro q hq
    simp [TpeSo.dispatchTo, Kernel.setProc, hq]
  · intro q
    show q ∈ rest ↔ _
    rw [hself, hr, List.mem_cons]
    by_cases hq : q = p
    · simp [hq, hnd.1]
    · simp [hq]
  · intro q
    show q ∈ k.blockedProcesses ↔ _
    rw [hself]
    by_cases hq : q = p
    · simp [hq, h.notMem_blocked hnb]
    · simp [hq]
  · rw [hself]
    exact fun _ => h.runnable p (.inl hready)
  · intro v hv
    left
    cases v <;> first | rfl | exact absurd rfl hv

/-- For a process that is ready or running, `proc_kill` looks into the ready queue. -/
theorem bury_eq (h : Books k) (hs : (k.procs p).status = .ready ∨ (k.procs p).status = .running)
    (code : Int) : TpeSo.bury k p code = { k with
      readyProcesses := k.readyProcesses.erase p
      currentProcess := (rmCurrent k p).currentProcess }.setProc
        p fun q => { q with status := .zombie, exit := code } := by
  have hwait := h.runnable p hs
  unfold TpeSo.bury rmCurrent
  split
  · simp [unlinkWaiting, hwait, queueRemove]
  · simp [unlinkWaiting, hwait, queueRemove]

/-- **`proc_kill`** of a process that is ready or running takes it out of the books. -/
theorem bury (h : Books k) (hs : (k.procs p).status = .ready ∨ (k.procs p).status = .running)
    (code : Int) : Books (TpeSo.bury k p code) := by
  have hnb : (k.procs p).status ≠ .blocked := by rcases hs with hs | hs <;> simp [hs]
  have hnd : (k.procs p).status ≠ .dead := by rcases hs with hs | hs <;> simp [hs]
  rw [h.bury_eq hs]
  refine h.change p h.heap rfl rfl ?_ ?_ (h.born hnd) ?_ (h.notMem_waiters hnb) (h.awake hnb)
    (h.readyNodup.erase p) ?_ h.blockedNodup ?_ ?_ ?_ (.inl rfl) ?_
  · intro q hq
    rw [Kernel.procs_setProc_ne _ hq]
  · rw [Kernel.procs_setProc_self]
  · rw [Kernel.procs_setProc_self]
    exact fun _ hz => absurd rfl hz
  · intro q
    show q ∈ k.readyProcesses.erase p ↔ _
    rw [h.readyNodup.mem_erase_iff, Kernel.procs_setProc_self]
    by_cases hq : q = p
    · simp [hq]
    · simp [hq]
  · intro q
    show q ∈ k.blockedProcesses ↔ _
    rw [Kernel.procs_setProc_self]
    by_cases hq : q = p
    · simp [hq, h.notMem_blocked hnb]
    · simp [hq]
  · rw [Kernel.procs_setProc_self]
    simp
  · intro v hv
    left
    cases v <;> first | rfl | exact absurd rfl hv
  · rw [Kernel.procs_setProc_self]
    simp

/-- **`proc_reap`** of a zombie frees no slot but its own. -/
theorem forgetPid (h : Books k) (hz : (k.procs p).status = .zombie)
    (hown : ∀ q, k.processTable (k.procs p).pid.toNat = some q → q = p) :
    Books (TpeSo.forgetPid k p) := by
  -- a slot that holds another process is not the one that is freed
  have hkeep : ∀ i q, q ≠ p → k.processTable i = some q →
      (TpeSo.forgetPid k p).processTable i = some q := by
    intro i q hq hi
    have hne : i ≠ (k.procs p).pid.toNat := fun he => hq (hown q (he ▸ hi))
    simp [TpeSo.forgetPid, hne, hi]
  refine
    { heap := h.heap
      table := ?_, live := ?_, unborn := h.unborn, readyNodup := h.readyNodup, ready := h.ready
      blockedNodup := h.blockedNodup, blocked := h.blocked, runnable := h.runnable
      waiting := fun w => h.waiting w, waitNodup := fun w => h.waitNodup w
      sleepNodup := h.sleepNodup, sleeping := ?_, idle := h.idle }
  · intro i q hi
    refine h.table i q ?_
    by_cases hne : i = (k.procs p).pid.toNat
    · simp [TpeSo.forgetPid, hne] at hi
    · simpa [TpeSo.forgetPid, hne] using hi
  · intro q hd hnz
    refine hkeep _ q ?_ (h.live q hd hnz)
    rintro rfl
    exact hnz hz
  · intro sp hsp
    obtain ⟨q, hq, hb, hw⟩ := h.sleeping sp hsp
    refine ⟨q, ?_, hb, hw⟩
    obtain ⟨h0, ht⟩ := getProcByPid_eq hq
    have hne : q ≠ p := by
      rintro rfl
      rw [hz] at hb
      cases hb
    have hlt := (h.table _ _ ht).1
    rw [getProcByPid, if_pos ⟨h0, by omega⟩, hkeep _ q hne ht]

/-! ### Birth -/

/-- A control block that stays dead may be written to. -/
theorem setDead (h : Books k) (hd : (k.procs p).status = .dead) {f : Proc → Proc}
    (hf : (f (k.procs p)).status = .dead) (hlt : p < k.nextProc)
    (hfree : ∀ i, k.processTable i ≠ some p) : Books (k.setProc p f) := by
  have hstatus : ∀ q, ((k.setProc p f).procs q).status = (k.procs q).status := by
    intro q
    by_cases hq : q = p
    · subst hq
      rw [Kernel.procs_setProc_self, hf, hd]
    · rw [Kernel.procs_setProc_ne k hq]
  have hother : ∀ q, (k.procs q).status ≠ .dead → (k.setProc p f).procs q = k.procs q := by
    intro q hq
    refine Kernel.procs_setProc_ne k ?_
    rintro rfl
    exact hq hd
  refine
    { heap := h.heap
      table := ?_, live := ?_, unborn := ?_, readyNodup := h.readyNodup, ready := ?_
      blockedNodup := h.blockedNodup, blocked := ?_, runnable := ?_, waiting := ?_
      waitNodup := fun w => h.waitNodup w, sleepNodup := h.sleepNodup, sleeping := ?_, idle := ?_ }
  · intro i q hi
    have hq : q ≠ p := by
      rintro rfl
      exact hfree i hi
    rw [Kernel.procs_setProc_ne k hq]
    exact h.table i q hi
  · intro q hd' hz
    rw [hstatus] at hd' hz
    rw [hother q hd']
    exact h.live q hd' hz
  · intro q hq
    have hqp : q ≠ p := by
      rintro rfl
      exact absurd hlt (not_lt.mpr hq)
    rw [Kernel.procs_setProc_ne k hqp]
    exact h.unborn q hq
  · intro q
    rw [hstatus]
    exact h.ready q
  · intro q
    rw [hstatus]
    exact h.blocked q
  · intro q hq
    rw [hstatus] at hq
    rw [hother q (by rcases hq with hq | hq <;> simp [hq])]
    exact h.runnable q hq
  · intro w hw q hq
    have hb := h.waiting w hw q hq
    rw [hother q (by simp [hb.1])]
    exact hb
  · intro sp hsp
    obtain ⟨q, hq, hb, hw⟩ := h.sleeping sp hsp
    exact ⟨q, hq, by rw [hother q (by simp [hb])]; exact hb,
      by rw [hother q (by simp [hb])]; exact hw⟩
  · intro q hq
    rw [hstatus] at hq
    rw [hother q (by simp [hq])]
    exact h.idle q hq

/-- `proc_new`. -/
theorem newProc (h : Books k) : Books { k with
    nextProc := k.nextProc + 1, procs := Function.update k.procs k.nextProc {} } := by
  have hfree : ∀ i, k.processTable i ≠ some k.nextProc := by
    intro i hi
    exact absurd (h.table i _ hi).2.2 (lt_irrefl _)
  have hup : Books { k with nextProc := k.nextProc + 1 } :=
    { h with
      table := fun i q hi => ⟨(h.table i q hi).1, (h.table i q hi).2.1,
        Nat.lt_succ_of_lt (h.table i q hi).2.2⟩
      unborn := fun q hq => h.unborn q (Nat.le_of_succ_le hq)
      waiting := fun w => h.waiting w
      waitNodup := fun w => h.waitNodup w }
  exact hup.setDead (p := k.nextProc) (f := fun _ => {}) (h.unborn _ (le_refl _)).1 rfl
    (Nat.lt_succ_self _) hfree

/-- `proc_pid_alloc`: the new process takes a free slot. -/
theorem claimPid (h : Books k) {i : Nat} (hi : i < maxProcesses) (hslot : k.processTable i = none)
    (hd : (k.procs p).status = .dead) (hlt : p < k.nextProc)
    (hfree : ∀ i, k.processTable i ≠ some p) :
    Books { k.setProc p (fun q => { q with pid := i }) with
      processTable := Function.update k.processTable i (some p) } := by
  have hset : Books (k.setProc p fun q => { q with pid := i }) := h.setDead hd hd hlt hfree
  have hkeep : ∀ j q, k.processTable j = some q →
      Function.update k.processTable i (some p) j = some q := by
    intro j q hj
    have hne : j ≠ i := by
      rintro rfl
      rw [hslot] at hj
      cases hj
    rw [Function.update_of_ne hne, hj]
  refine
    { hset with
      table := ?_, live := ?_, sleeping := ?_
      waiting := fun w => hset.waiting w
      waitNodup := fun w => hset.waitNodup w }
  · intro j q hj
    by_cases hji : j = i
    · subst hji
      rw [show ({ k.setProc p (fun q => { q with pid := (j : Int) }) with
        processTable := Function.update k.processTable j (some p) } : Kernel).processTable j =
          some p from Function.update_self ..] at hj
      cases hj
      refine ⟨hi, ?_, hlt⟩
      simp [Kernel.setProc]
    · refine hset.table j q ?_
      rw [show ({ k.setProc p (fun q => { q with pid := (i : Int) }) with
        processTable := Function.update k.processTable i (some p) } : Kernel).processTable j =
          k.processTable j from Function.update_of_ne hji ..] at hj
      exact hj
  · intro q hq hz
    exact hkeep _ q (hset.live q hq hz)
  · intro sp hsp
    obtain ⟨q, hq, hb, hw⟩ := hset.sleeping sp hsp
    refine ⟨q, ?_, hb, hw⟩
    obtain ⟨h0, ht⟩ := getProcByPid_eq hq
    have hlt' := (hset.table _ _ ht).1
    rw [getProcByPid, if_pos ⟨h0, by omega⟩]
    exact congrArg Outcome.ok (hkeep _ q ht)

end Books

end TpeSo
