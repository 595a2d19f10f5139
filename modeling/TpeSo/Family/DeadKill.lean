import TpeSo.Family.Remains
import TpeSo.Family.Step
import TpeSo.Kernel.HeapLedger

namespace TpeSo

open Ds Lib

/-!
# Family — killing the dead

Nothing keeps `sys_kill_proc` and Ctrl-C from killing a process that is a zombie already, and
`proc_kill` then goes through all of its steps once more.

* `KillNoOp k l p code` — the call changes neither the allocated blocks, nor the status of `p`,
  nor a child array, nor a queue;
* `Harmless k l p code` — what the state must be for that;
* `killNoOp_iff` — for a zombie that has closed its descriptors the two are the same;
* `Graves` — what a death leaves, in every later state: no descriptor and a pid above 1;
* `FirstStatuses tr` — the statuses `wait_pid` hands back are those of the first deaths.

As long as no queue changes, no node of a queue is allocated or freed; so the ledger may list the
nodes as well.
-/

variable {φ ψ : Phase} {k k' k₁ k₂ : Kernel} {l : HeapLedger} {e : Event} {o : Option Completion}
  {p q c child i : ProcId} {x code : Int} {xs : List Int}

/-- Every queue of the kernel. -/
def Kernel.queues (k : Kernel) : List ProcId × List ProcId × List SleepingProc × List ProcId ×
    (Nat → List (Option ProcId)) × (PipeId → List ProcId × List ProcId) :=
  (k.readyProcesses, k.blockedProcesses, k.sleepingProcs, k.keyboardQueue,
    fun id => (k.semaphores id).waitingQueue,
    fun pp => ((k.pipes pp).readersWaitQueue, (k.pipes pp).writersWaitQueue))

/-- `proc_kill(p, code)` comes back, and the allocated blocks, the exit status of `p`, every child
    array and every queue are as before. -/
def KillNoOp (k : Kernel) (l : HeapLedger) (p : ProcId) (code : Int) : Prop :=
  ∃ k' l', procKill k (some p) code = .ok k' ∧ procKillLedger k l p code = .ok l' ∧
    l'.blocks = l.blocks ∧ (k'.procs p).exit = (k.procs p).exit ∧
    (∀ q, (k'.procs q).children = (k.procs q).children) ∧ k'.queues = k.queues

/-- `p` is among the processes its own child array leads to. -/
def SelfChild (k : Kernel) (p : ProcId) : Prop :=
  ∃ x ∈ (k.procs p).children, getProcByPid k x = .ok (some p)

/-- The pid `x` leads to nobody any more, or `init` has no room for another child. -/
def PassedOver (k : Kernel) (x : Int) : Prop :=
  getProcByPid k x = .ok none ∨ ∃ child i, getProcByPid k x = .ok (some child) ∧
    k.processTable 1 = some i ∧ maxProcesses ≤ (k.procs i).children.length

/-- What the state must be for a second `proc_kill` to change nothing. -/
structure Harmless (k : Kernel) (l : HeapLedger) (p : ProcId) (code : Int) : Prop where
  exit : code = (k.procs p).exit
  /-- The address of its stack has not been handed out again. -/
  stack : l.stackAt p ∉ l.blocks
  unlinked : (∀ id, (k.procs p).waitingOn ≠ .semaphore id) →
    p ∉ waiters k (k.procs p).waitingOn
  children : ∀ x ∈ (k.procs p).children, PassedOver k x
  /-- A process without a parent is collected again. -/
  orphan : (k.procs p).parent = none ∨ SelfChild k p →
    (0 ≤ (k.procs p).pid ∧ (k.procs p).pid < maxProcesses) ∧ l.procAt p ∉ l.blocks
  /-- A parent that waits for a child is woken. -/
  parent : ∀ q, (k.procs p).parent = some q → ¬ SelfChild k p →
    (k.procs q).status = .blocked ∧ (k.procs q).blockReason = .child →
      k.kmalloc = false ∧ q ∉ k.blockedProcesses

/-! ### What the parts of `proc_kill` leave alone -/

/-- What `proc_kill` looks at in a process, but for its parent. -/
def Proc.housed (q : Proc) : Int × List Int × ProcState × BlockReason :=
  (q.pid, q.children, q.status, q.blockReason)

/-- The table, the heap, and the processes but for their parents. -/
structure SameHouse (k k' : Kernel) : Prop where
  table : k'.processTable = k.processTable
  mallocOk : k'.mallocOk = k.mallocOk
  proc : ∀ q, (k'.procs q).housed = (k.procs q).housed

namespace SameHouse

theorem refl (k : Kernel) : SameHouse k k := ⟨rfl, rfl, fun _ => rfl⟩

theorem trans (h : SameHouse k k₁) (g : SameHouse k₁ k₂) : SameHouse k k₂ where
  table := g.table.trans h.table
  mallocOk := g.mallocOk.trans h.mallocOk
  proc q := (g.proc q).trans (h.proc q)

theorem setProc (k : Kernel) (p : ProcId) {f : Proc → Proc}
    (h : (f (k.procs p)).housed = (k.procs p).housed) : SameHouse k (k.setProc p f) :=
  ⟨rfl, rfl, k.setProc_spares Proc.housed h⟩

theorem pid (h : SameHouse k k₁) (q : ProcId) : (k₁.procs q).pid = (k.procs q).pid :=
  congrArg (fun x => x.1) (h.proc q)

theorem children (h : SameHouse k k₁) (q : ProcId) :
    (k₁.procs q).children = (k.procs q).children := congrArg (fun x => x.2.1) (h.proc q)

theorem status (h : SameHouse k k₁) (q : ProcId) : (k₁.procs q).status = (k.procs q).status :=
  congrArg (fun x => x.2.2.1) (h.proc q)

theorem blockReason (h : SameHouse k k₁) (q : ProcId) :
    (k₁.procs q).blockReason = (k.procs q).blockReason := congrArg (fun x => x.2.2.2) (h.proc q)

theorem getProcByPid (h : SameHouse k k₁) (x : Int) :
    getProcByPid k₁ x = TpeSo.getProcByPid k x := by
  unfold TpeSo.getProcByPid
  rw [h.table]

theorem passedOver (h : SameHouse k k₁) : PassedOver k₁ x ↔ PassedOver k x := by
  unfold PassedOver
  rw [h.getProcByPid, h.table]
  simp only [h.children]

end SameHouse

/-! ### Reparenting -/

/-- `child` is an orphan, and nothing else has changed. -/
structure Orphaned (child : ProcId) (k k' : Kernel) : Prop extends SameHouse k k' where
  queues : k'.queues = k.queues
  parent : (k'.procs child).parent = none
  others : ∀ q ≠ child, (k'.procs q).parent = (k.procs q).parent

/-- The array of `init` is full: the child becomes an orphan. -/
theorem reparentToInit_full (hi : k.processTable 1 = some i)
    (hfull : maxProcesses ≤ (k.procs i).children.length) (child : ProcId) :
    ∃ k', reparentToInit k child = .ok k' ∧ Orphaned child k k' := by
  have hchildren : ((k.setProc child fun q => { q with parent := some i }).procs i).children =
      (k.procs i).children := k.setProc_spares Proc.children rfl i
  refine ⟨(k.setProc child fun q => { q with parent := some i }).setProc child
    fun q => { q with parent := none }, ?_, (SameHouse.setProc k child rfl).trans
    (.setProc _ child rfl), rfl, by simp, fun q hq => ?_⟩
  · rw [reparentToInit, hi]
    dsimp only
    rw [if_neg (by rw [hchildren]; exact Nat.not_lt_of_le hfull)]
  · rw [Kernel.procs_setProc_ne _ hq, Kernel.procs_setProc_ne _ hq]

/-- The array of `init` has room: it takes the child. -/
theorem reparentToInit_room (hi : k.processTable 1 = some i)
    (hroom : (k.procs i).children.length < maxProcesses) (h : reparentToInit k child = .ok k') :
    (∀ q, (k.procs q).children.length ≤ (k'.procs q).children.length) ∧
      (k.procs i).children.length < (k'.procs i).children.length := by
  have hchildren : ∀ q, ((k.setProc child fun q =>
      { q with parent := some i }).procs q).children = (k.procs q).children :=
    fun q => k.setProc_spares Proc.children rfl q
  rw [reparentToInit, hi] at h
  dsimp only at h
  rw [hchildren, if_pos hroom] at h
  cases h
  refine ⟨fun q => ?_, ?_⟩
  · by_cases hq : q = i
    · subst hq
      rw [Kernel.procs_setProc_self, ← hchildren q]
      simp
    · rw [Kernel.procs_setProc_ne _ hq, hchildren]
  · rw [Kernel.procs_setProc_self, ← hchildren i]
    simp

/-- A child is handed to `init`, which takes it, or has no room and leaves it an orphan. -/
theorem reparentToInit_cases (h : reparentToInit k child = .ok k') :
    ∃ i, k.processTable 1 = some i ∧
      (((∀ q, (k.procs q).children.length ≤ (k'.procs q).children.length) ∧
          (k.procs i).children.length < (k'.procs i).children.length) ∨
        (maxProcesses ≤ (k.procs i).children.length ∧ Orphaned child k k')) := by
  cases hi : k.processTable 1 with
  | none =>
    rw [reparentToInit, hi] at h
    cases h
  | some i =>
    refine ⟨i, rfl, ?_⟩
    rcases Nat.lt_or_ge (k.procs i).children.length maxProcesses with hroom | hfull
    · exact .inl (reparentToInit_room hi hroom h)
    · obtain ⟨k₁, hk₁, horphan⟩ := reparentToInit_full hi hfull child
      rw [hk₁] at h
      cases h
      exact .inr ⟨hfull, horphan⟩

/-- Child arrays only grow. -/
theorem reparentAll_grows (xs : List Int) : ∀ {k k' : Kernel}, reparentAll k xs = .ok k' →
    ∀ q, (k.procs q).children.length ≤ (k'.procs q).children.length := by
  induction xs with
  | nil =>
    intro k k' h q
    cases h
    exact le_rfl
  | cons x xs ih =>
    intro k k' h q
    obtain ⟨found, -, h⟩ := Outcome.bind_eq_ok.mp h
    cases found with
    | none => exact ih h q
    | some child =>
      obtain ⟨k₁, hr, h⟩ := Outcome.bind_eq_ok.mp h
      obtain ⟨i, -, ⟨hgrow, -⟩ | ⟨-, hsame⟩⟩ := reparentToInit_cases hr
      · exact (hgrow q).trans (ih h q)
      · rw [← hsame.children q]
        exact ih h q

/-- If no child array has changed, every pid was passed over. -/
theorem passedOver_of_reparentAll (xs : List Int) : ∀ {k k' : Kernel},
    reparentAll k xs = .ok k' → (∀ q, (k'.procs q).children = (k.procs q).children) →
    ∀ x ∈ xs, PassedOver k x := by
  induction xs with
  | nil => exact fun _ _ _ hx => nomatch hx
  | cons x xs ih =>
    intro k k' h hsame y hy
    obtain ⟨found, hfound, h⟩ := Outcome.bind_eq_ok.mp h
    cases found with
    | none =>
      rcases List.mem_cons.mp hy with rfl | hy
      · exact .inl hfound
      · exact ih h hsame y hy
    | some child =>
      obtain ⟨k₁, hr, h⟩ := Outcome.bind_eq_ok.mp h
      obtain ⟨i, hi, ⟨-, hnew⟩ | ⟨hfull, hsame'⟩⟩ := reparentToInit_cases hr
      · -- `init` has taken the child, and its array has not shrunk since
        have hlen := reparentAll_grows xs h i
        rw [hsame i] at hlen
        exact absurd hnew (Nat.not_lt_of_le hlen)
      · rcases List.mem_cons.mp hy with rfl | hy
        · exact .inr ⟨child, i, hfound, hi, hfull⟩
        · refine hsame'.passedOver.mp (ih h (fun q => ?_) y hy)
          rw [hsame, hsame'.children]

/-- Whoever the pids `xs` lead to is an orphan, and nothing else has changed. -/
structure AllOrphaned (xs : List Int) (k k' : Kernel) : Prop extends SameHouse k k' where
  queues : k'.queues = k.queues
  parent : ∀ q, (∃ x ∈ xs, getProcByPid k x = .ok (some q)) → (k'.procs q).parent = none
  others : ∀ q, (¬ ∃ x ∈ xs, getProcByPid k x = .ok (some q)) →
    (k'.procs q).parent = (k.procs q).parent

/-- **Nobody is reparented** when every pid is passed over. -/
theorem reparentAll_passed (xs : List Int) : ∀ {k : Kernel}, (∀ x ∈ xs, PassedOver k x) →
    ∃ k', reparentAll k xs = .ok k' ∧ AllOrphaned xs k k' := by
  induction xs with
  | nil =>
    exact fun {k} _ => ⟨k, rfl, .refl k, rfl, fun q hq => by simp at hq, fun _ _ => rfl⟩
  | cons x xs ih =>
    intro k hall
    have hrest : ∀ y ∈ xs, PassedOver k y := fun y hy => hall y (List.mem_cons_of_mem x hy)
    rcases hall x List.mem_cons_self with hx | ⟨child, i, hx, hi, hfull⟩
    · obtain ⟨k', hr, ho⟩ := ih hrest
      refine ⟨k', by rw [reparentAll, hx]; exact hr, ho.toSameHouse, ho.queues, fun q hq => ?_,
        fun q hq => ?_⟩
      · exact ho.parent q (by simpa [hx] using hq)
      · exact ho.others q (by simpa [hx] using hq)
    · obtain ⟨k₁, hk₁, hone⟩ := reparentToInit_full hi hfull child
      obtain ⟨k', hr, ho⟩ := ih fun y hy => hone.passedOver.mpr (hrest y hy)
      have hfind : ∀ q, (∃ y ∈ xs, getProcByPid k₁ y = .ok (some q)) ↔
          ∃ y ∈ xs, getProcByPid k y = .ok (some q) := fun q => by simp only [hone.getProcByPid]
      refine ⟨k', ?_, hone.toSameHouse.trans ho.toSameHouse, ho.queues.trans hone.queues,
        fun q hq => ?_, fun q hq => ?_⟩
      · rw [reparentAll, hx, Outcome.ok_bind]
        dsimp only
        rw [hk₁, Outcome.ok_bind]
        exact hr
      · by_cases hmem : ∃ y ∈ xs, getProcByPid k y = .ok (some q)
        · exact ho.parent q ((hfind q).mpr hmem)
        · -- then `q` is the child, and stays the orphan it has become
          have hqc : q = child := by
            obtain ⟨y, hy, hyq⟩ := hq
            rcases List.mem_cons.mp hy with rfl | hy
            · rw [hx] at hyq
              exact (Option.some.inj (Outcome.ok.inj hyq)).symm
            · exact absurd ⟨y, hy, hyq⟩ hmem
          rw [ho.others q (mt (hfind q).mp hmem), hqc, hone.parent]
      · have hmem : ¬ ∃ y ∈ xs, getProcByPid k y = .ok (some q) := by
          rintro ⟨y, hy, hyq⟩
          exact hq ⟨y, List.mem_cons_of_mem x hy, hyq⟩
        have hqc : q ≠ child := by
          rintro rfl
          exact hq ⟨x, List.mem_cons_self, hx⟩
        rw [ho.others q (mt (hfind q).mp hmem), hone.others q hqc]

/-! ### The parts of a second `proc_kill` -/

/-- Nothing `proc_kill` looks at has changed. -/
structure Unmoved (k k' : Kernel) : Prop extends SameHouse k k' where
  queues : k'.queues = k.queues
  parent : ∀ q, (k'.procs q).parent = (k.procs q).parent

theorem setProc_eq_self (k : Kernel) (p : ProcId) {f : Proc → Proc}
    (h : f (k.procs p) = k.procs p) : k.setProc p f = k := by
  rw [Kernel.setProc, h, Function.update_eq_self]

/-- A process whose `waiting_on` does not hold it is not unlinked. -/
theorem unlinkWaiting_eq_self (h : (∀ id, (k.procs p).waitingOn ≠ .semaphore id) →
    p ∉ waiters k (k.procs p).waitingOn) : unlinkWaiting k p = k := by
  unfold unlinkWaiting
  cases hw : (k.procs p).waitingOn with
  | null | semaphore id | sleepers => rfl
  | readyQueue =>
    have hp := h (by simp [hw])
    rw [hw] at hp
    dsimp only
    rw [queueRemove, List.erase_of_not_mem (show p ∉ k.readyProcesses from hp)]
  | keyboard =>
    have hp := h (by simp [hw])
    rw [hw] at hp
    dsimp only
    rw [queueRemove, List.erase_of_not_mem (show p ∉ k.keyboardQueue from hp)]
  | pipeReaders pp =>
    have hp := h (by simp [hw])
    rw [hw] at hp
    refine k.setPipe_eq_self ?_
    rw [queueRemove, List.erase_of_not_mem (show p ∉ (k.pipes pp).readersWaitQueue from hp)]
  | pipeWriters pp =>
    have hp := h (by simp [hw])
    rw [hw] at hp
    refine k.setPipe_eq_self ?_
    rw [queueRemove, List.erase_of_not_mem (show p ∉ (k.pipes pp).writersWaitQueue from hp)]

/-- An empty slot is closed without a trace. -/
theorem closeSlot_eq_self (h : (k.procs p).fds = fun _ => {}) (i : Fin fdMax) :
    closeSlot k p i = k := by
  rw [closeSlot, h]
  refine setProc_eq_self k p ?_
  rw [h, Function.update_eq_self_iff.mpr rfl, ← h]

theorem closeFds_eq_self (h : (k.procs p).fds = fun _ => {}) (is : List (Fin fdMax)) :
    closeFds k p is = k := by
  induction is with
  | nil => rfl
  | cons i is ih => rw [closeFds, closeSlot_eq_self h, ih]

theorem closeFdsLedger_eq_self (h : (k.procs p).fds = fun _ => {}) (is : List (Fin fdMax)) :
    closeFdsLedger k l p is = l := by
  induction is with
  | nil => rfl
  | cons i is ih =>
    rw [closeFdsLedger, closeSlot_eq_self h, h]
    exact ih

theorem Unmoved.refl (k : Kernel) : Unmoved k k := ⟨.refl k, rfl, fun _ => rfl⟩

theorem Unmoved.trans (h : Unmoved k k₁) (g : Unmoved k₁ k₂) : Unmoved k k₂ where
  toSameHouse := h.toSameHouse.trans g.toSameHouse
  queues := g.queues.trans h.queues
  parent q := (g.parent q).trans (h.parent q)

theorem Unmoved.setMode (k : Kernel) (q : ProcId) (m : Mode) :
    Unmoved k (k.setProc q fun q => { q with mode := m }) :=
  ⟨.setProc k q rfl, rfl, k.setProc_spares Proc.parent rfl⟩

theorem Unmoved.setForeground (k : Kernel) (o : Option ProcId) :
    Unmoved k { k with foregroundProcess := o } :=
  ⟨⟨rfl, rfl, fun _ => rfl⟩, rfl, fun _ => rfl⟩

theorem Unmoved.setForegroundProcess (k : Kernel) (o caller : Option ProcId) :
    Unmoved k (setForegroundProcess k o caller) := by
  unfold TpeSo.setForegroundProcess
  repeat' split
  · exact .refl k
  · exact (setMode k _ .fg).trans (setForeground _ _)
  · exact .refl k
  · exact ((setMode k _ .bg).trans (setMode _ _ .fg)).trans (setForeground _ _)
  · exact .refl k

/-- The first part of `proc_kill`, for a zombie: it is at most unlinked once more. -/
theorem killUnlink_zombie (hz : (k.procs p).status = .zombie) (code : Int) :
    ∃ K, Unmoved k K ∧ (K.procs p).waitingOn = (k.procs p).waitingOn ∧
      killUnlink k p code = (unlinkWaiting K p).setProc p fun q =>
        { q with status := .zombie, exit := code } := by
  have hmove := Unmoved.setForegroundProcess k (k.procs p).parent (some p)
  refine ⟨setForegroundProcess k (k.procs p).parent (some p), hmove, ?_, ?_⟩
  · exact congrArg (fun w => w.2.2.2.1) ((Quiet.setForegroundProcess k _ _).proc p)
  · have hstatus := (hmove.status p).trans hz
    rw [killUnlink, rmCurrent, if_neg (by rw [hstatus]; decide)]

theorem SameHouse.unlinkWaiting (k : Kernel) (p : ProcId) : SameHouse k (unlinkWaiting k p) := by
  unfold TpeSo.unlinkWaiting
  split <;> exact ⟨rfl, rfl, fun _ => rfl⟩

/-- The wait queues are among the queues. -/
theorem waiters_of_queues (h : k'.queues = k.queues) (w : WaitRef) :
    waiters k' w = waiters k w := by
  simp only [Kernel.queues, Prod.mk.injEq, funext_iff] at h
  obtain ⟨hready, -, -, hkeyboard, hsem, hpipe⟩ := h
  cases w with
  | null | sleepers => rfl
  | readyQueue => exact hready
  | keyboard => exact hkeyboard
  | semaphore id => exact congrArg List.reduceOption (hsem id)
  | pipeReaders pp => exact (hpipe pp).1
  | pipeWriters pp => exact (hpipe pp).2

/-- The zombie keeps its household. -/
theorem killUnlink_house (hz : (k.procs p).status = .zombie) (code : Int) :
    SameHouse k (killUnlink k p code) ∧
      ∀ q, ((killUnlink k p code).procs q).parent = (k.procs q).parent := by
  obtain ⟨K, hmove, -, hK⟩ := killUnlink_zombie hz code
  rw [hK]
  have hstatus : ((unlinkWaiting K p).procs p).status = .zombie := by
    rw [unlinkWaiting_procs, hmove.status, hz]
  refine ⟨hmove.toSameHouse.trans ((SameHouse.unlinkWaiting K p).trans (.setProc _ p ?_)),
    fun q => ?_⟩
  · rw [Proc.housed, Proc.housed, hstatus]
  · rw [Kernel.setProc_spares _ Proc.parent rfl, unlinkWaiting_procs]
    exact hmove.parent q

/-- A zombie that is not in the queue it waits on: nothing happens to the queues. -/
theorem killUnlink_queues (hz : (k.procs p).status = .zombie)
    (hout : (∀ id, (k.procs p).waitingOn ≠ .semaphore id) →
      p ∉ waiters k (k.procs p).waitingOn) (code : Int) :
    (killUnlink k p code).queues = k.queues := by
  obtain ⟨K, hmove, hwait, hK⟩ := killUnlink_zombie hz code
  rw [hK, unlinkWaiting_eq_self (by rw [hwait, waiters_of_queues hmove.queues]; exact hout)]
  exact hmove.queues

/-- A zombie that is in it is taken out. -/
theorem killUnlink_linked (hz : (k.procs p).status = .zombie)
    (hsem : ∀ id, (k.procs p).waitingOn ≠ .semaphore id)
    (hmem : p ∈ waiters k (k.procs p).waitingOn) (code : Int) :
    (waiters (killUnlink k p code) (k.procs p).waitingOn).count p <
      (waiters k (k.procs p).waitingOn).count p := by
  obtain ⟨K, hmove, hwait, hK⟩ := killUnlink_zombie hz code
  have hlinked : waiters (killUnlink k p code) (k.procs p).waitingOn =
      (waiters k (k.procs p).waitingOn).erase p := by
    rw [hK, ← waiters_of_queues hmove.queues, ← waiters_unlinkWaiting_self K p hwait hsem]
    exact waiters_congr rfl rfl rfl rfl _
  rw [hlinked, List.count_erase_self]
  have hpos := List.count_pos_iff.mpr hmem
  omega

/-- **`proc_kill` of a zombie without descriptors.** -/
theorem procKill_zombie (hz : (k.procs p).status = .zombie)
    (hfds : (k.procs p).fds = fun _ => {})
    (hpid : ¬ ((k.procs p).pid = 0 ∨ (k.procs p).pid = 1)) (code : Int) :
    procKill k (some p) code = (do
      let k₂ ← reparentAll (killUnlink k p code) (k.procs p).children
      killNotify k₂ p) ∧
    procKillLedger k l p code = (do
      let k₂ ← reparentAll (killUnlink k p code) (k.procs p).children
      .ok (killNotifyLedger k₂ (l.kmmFree (l.stackAt p)) p)) := by
  have hempty : ((killUnlink k p code).procs p).fds = fun _ => {} := by
    have hp := congrFun (remains_killUnlink k p code) p
    rw [Function.update_self] at hp
    rw [show ((killUnlink k p code).procs p).fds = (k.procs p).fds from
      congrArg (fun x => x.2.2) hp, hfds]
  have hchildren := (killUnlink_house hz code).1.children p
  constructor
  · rw [procKill, if_neg hpid]
    dsimp only
    rw [closeFds_eq_self hempty, hchildren]
  · rw [procKillLedger, if_neg hpid]
    dsimp only
    rw [closeFds_eq_self hempty, closeFdsLedger_eq_self hempty, hchildren]

/-- The end of `proc_kill` puts nobody into a queue but a parent that is blocked. -/
theorem killNotify_cases (h : killNotify k p = .ok k') :
    (∀ q, (k'.procs q).children = (k.procs q).children) ∧
    (((k.procs p).parent = none ∧ (0 ≤ (k.procs p).pid ∧ (k.procs p).pid < maxProcesses) ∧
        k'.queues = k.queues) ∨
      ∃ q, (k.procs p).parent = some q ∧
        if (k.procs q).status = .blocked ∧ (k.procs q).blockReason = .child then
          k' = procReady k (some q)
        else k'.queues = k.queues) := by
  unfold killNotify at h
  split at h
  · rename_i hparent
    refine ⟨?_, .inl ⟨hparent, ?_⟩⟩
    · rw [procReap_eq_ok h]
      exact fun _ => rfl
    · unfold procReap at h
      dsimp only at h
      split at h
      · rename_i hrange
        cases h
        exact ⟨hrange, rfl⟩
      · cases h
  · rename_i q hparent
    split at h
    · rename_i hwaits
      cases h
      refine ⟨fun r => ?_, .inr ⟨q, hparent, ?_⟩⟩
      · have hr : ((procReady k (some q)).procs r).fixed = (k.procs r).fixed :=
          congrFun (people_procReady k (some q)) r
        have hc := congrArg Proc.children hr
        exact hc
      · rw [if_pos hwaits]
    · rename_i hwaits
      cases h
      refine ⟨fun _ => rfl, .inr ⟨q, hparent, ?_⟩⟩
      rw [if_neg hwaits]

/-- `proc_ready` leaves the queues alone when it gets no node and finds the process in no list
    of blocked ones. -/
theorem procReady_queues_iff : (procReady k (some q)).queues = k.queues ↔
    k.kmalloc = false ∧ q ∉ k.blockedProcesses := by
  constructor
  · intro h
    have hready : enqueue k.kmalloc k.readyProcesses q = k.readyProcesses := congrArg (·.1) h
    have hblocked : queueRemove k.blockedProcesses q = k.blockedProcesses := congrArg (·.2.1) h
    refine ⟨?_, List.erase_eq_self_iff.mp hblocked⟩
    by_contra hm
    rw [Bool.not_eq_false] at hm
    rw [hm, enqueue_true] at hready
    simp at hready
  · rintro ⟨hm, hq⟩
    have hready : enqueue k.kmalloc k.readyProcesses q = k.readyProcesses := by
      rw [hm, enqueue_false]
    have hblocked : queueRemove k.blockedProcesses q = k.blockedProcesses :=
      List.erase_of_not_mem hq
    exact Prod.ext hready (Prod.ext hblocked rfl)

/-- A parent that is woken is not the zombie. -/
theorem killNotify_count (hz : (k.procs p).status = .zombie) (h : killNotify k p = .ok k')
    (w : WaitRef) : (waiters k' w).count p = (waiters k w).count p := by
  obtain ⟨-, ⟨-, -, hq⟩ | ⟨q, -, hq⟩⟩ := killNotify_cases h
  · rw [waiters_of_queues hq]
  · split at hq
    · rename_i hwaits
      subst hq
      have hne : q ≠ p := by
        rintro rfl
        exact absurd (hz.symm.trans hwaits.1) (by decide)
      by_cases hw : w = .readyQueue
      · subst hw
        show (enqueue k.kmalloc k.readyProcesses q).count p = k.readyProcesses.count p
        cases k.kmalloc with
        | false => rfl
        | true =>
          rw [enqueue_true, List.count_append, List.count_singleton, beq_false_of_ne hne]
          rfl
      · rw [procReady_waiters k q hw]
    · rw [waiters_of_queues hq]

/-- Two blocks that are given back were not allocated. -/
theorem erase_erase_eq_self {xs : List Nat} {a b : Nat} :
    (xs.erase a).erase b = xs ↔ a ∉ xs ∧ b ∉ xs := by
  constructor
  · intro h
    have ha : a ∉ xs := by
      intro ha
      have hlen : ((xs.erase a).erase b).length ≤ (xs.erase a).length :=
        List.erase_sublist.length_le
      rw [h, List.length_erase_of_mem ha] at hlen
      have hpos := List.length_pos_of_mem ha
      omega
    rw [List.erase_of_not_mem ha] at h
    exact ⟨ha, List.erase_eq_self_iff.mp h⟩
  · rintro ⟨ha, hb⟩
    rw [List.erase_of_not_mem ha, List.erase_of_not_mem hb]

/-- The parent `proc_kill` finds in the end. -/
theorem AllOrphaned.parent_iff (h : AllOrphaned (k.procs p).children k₁ k₂)
    (hhouse : SameHouse k k₁) (hparent : ∀ q, (k₁.procs q).parent = (k.procs q).parent) :
    ((k₂.procs p).parent = none ↔ (k.procs p).parent = none ∨ SelfChild k p) ∧
      ∀ q, (k₂.procs p).parent = some q ↔
        (k.procs p).parent = some q ∧ ¬ SelfChild k p := by
  have hself : SelfChild k p ↔
      ∃ x ∈ (k.procs p).children, getProcByPid k₁ x = .ok (some p) := by
    simp only [SelfChild, hhouse.getProcByPid]
  by_cases hs : SelfChild k p
  · have hnone := h.parent p (hself.mp hs)
    simp [hnone, hs]
  · have hsame := (h.others p (mt hself.mpr hs)).trans (hparent p)
    simp [hsame, hs]

/-- A call that comes back has set the exit status. -/
theorem procKill_exit (hpid : ¬ ((k.procs p).pid = 0 ∨ (k.procs p).pid = 1))
    (h : procKill k (some p) code = .ok k') : (k'.procs p).exit = code := by
  have hp := congrFun (remains_procKill hpid h) p
  rw [Function.update_self] at hp
  exact congrArg (fun x => x.2.1) hp

theorem KillNoOp.harmless (hz : (k.procs p).status = .zombie)
    (hfds : (k.procs p).fds = fun _ => {}) (hpid : ¬ ((k.procs p).pid = 0 ∨ (k.procs p).pid = 1))
    (h : KillNoOp k l p code) : Harmless k l p code := by
  obtain ⟨k', l', hk', hl', hblocks, hstatus, hchildren, hqueues⟩ := h
  obtain ⟨hkill, hledger⟩ := procKill_zombie (l := l) hz hfds hpid code
  obtain ⟨hhouse, hparents⟩ := killUnlink_house hz code
  have hcode := procKill_exit hpid hk'
  rw [hkill] at hk'
  obtain ⟨k₂, hr, hn⟩ := Outcome.bind_eq_ok.mp hk'
  rw [hledger, hr, Outcome.ok_bind] at hl'
  obtain rfl := Outcome.ok.inj hl'
  obtain ⟨hchildren₂, hend⟩ := killNotify_cases hn
  have hpassed : ∀ x ∈ (k.procs p).children, PassedOver k x := fun x hx =>
    hhouse.passedOver.mp (passedOver_of_reparentAll _ hr (fun q => (hchildren₂ q).symm.trans
      ((hchildren q).trans (hhouse.children q).symm)) x hx)
  obtain ⟨k₂', hr', ho⟩ := reparentAll_passed (k := killUnlink k p code) _ fun x hx =>
    hhouse.passedOver.mpr (hpassed x hx)
  obtain rfl := Outcome.ok.inj (hr.symm.trans hr')
  obtain ⟨hnone, hsome⟩ := ho.parent_iff hhouse hparents
  have hhouse₂ := hhouse.trans ho.toSameHouse
  -- the zombie was not linked, for otherwise one of the queues would have lost it
  have hout : (∀ id, (k.procs p).waitingOn ≠ .semaphore id) →
      p ∉ waiters k (k.procs p).waitingOn := by
    intro hsem hmem
    have hlt := killUnlink_linked hz hsem hmem code
    have hcount := killNotify_count ((hhouse₂.status p).trans hz) hn (k.procs p).waitingOn
    rw [waiters_of_queues hqueues, waiters_of_queues ho.queues] at hcount
    omega
  have hqueues₂ : k₂.queues = k.queues := ho.queues.trans (killUnlink_queues hz hout code)
  rcases hend with ⟨hparent, hrange, -⟩ | ⟨q, hparent, hq⟩
  · rw [killNotifyLedger, hparent] at hblocks
    obtain ⟨hstack, hproc⟩ := erase_erase_eq_self.mp hblocks
    rw [hhouse₂.pid] at hrange
    refine ⟨hcode.symm.trans hstatus, hstack, hout, hpassed, fun _ => ⟨hrange, hproc⟩,
      fun q hq hs => ?_⟩
    rw [(hsome q).mpr ⟨hq, hs⟩] at hparent
    cases hparent
  · rw [killNotifyLedger, hparent] at hblocks
    have hstack : l.stackAt p ∉ l.blocks := List.erase_eq_self_iff.mp hblocks
    refine ⟨hcode.symm.trans hstatus, hstack, hout, hpassed, fun hor => ?_,
      fun q' hq' hs hwaits => ?_⟩
    · rw [hnone.mpr hor] at hparent
      cases hparent
    · have hqq := (hsome q').mpr ⟨hq', hs⟩
      rw [hparent] at hqq
      obtain rfl := Option.some.inj hqq
      rw [← hhouse₂.status, ← hhouse₂.blockReason] at hwaits
      rw [if_pos hwaits] at hq
      rw [hq, ← hqueues₂] at hqueues
      obtain ⟨hm, hblocked⟩ := procReady_queues_iff.mp hqueues
      refine ⟨?_, ?_⟩
      · rw [← hm, Kernel.kmalloc, Kernel.kmalloc, hhouse₂.mallocOk]
      · rwa [show k₂.blockedProcesses = k.blockedProcesses from congrArg (·.2.1) hqueues₂]
          at hblocked

theorem Harmless.killNoOp (hz : (k.procs p).status = .zombie)
    (hfds : (k.procs p).fds = fun _ => {}) (hpid : ¬ ((k.procs p).pid = 0 ∨ (k.procs p).pid = 1))
    (h : Harmless k l p code) : KillNoOp k l p code := by
  obtain ⟨hkill, hledger⟩ := procKill_zombie (l := l) hz hfds hpid code
  obtain ⟨hhouse, hparents⟩ := killUnlink_house hz code
  obtain ⟨k₂, hr, ho⟩ := reparentAll_passed (k := killUnlink k p code) _ fun x hx =>
    hhouse.passedOver.mpr (h.children x hx)
  obtain ⟨hnone, hsome⟩ := ho.parent_iff hhouse hparents
  have hhouse₂ := hhouse.trans ho.toSameHouse
  have hqueues₂ : k₂.queues = k.queues :=
    ho.queues.trans (killUnlink_queues hz h.unlinked code)
  -- what is left is the end of `proc_kill`
  suffices hend : ∃ k', killNotify k₂ p = .ok k' ∧
      (killNotifyLedger k₂ (l.kmmFree (l.stackAt p)) p).blocks = l.blocks ∧
      k'.queues = k₂.queues by
    obtain ⟨k', hn, hblocks, hqueues⟩ := hend
    have hk' : procKill k (some p) code = .ok k' := by
      rw [hkill, hr, Outcome.ok_bind]
      exact hn
    refine ⟨k', _, hk', by rw [hledger, hr, Outcome.ok_bind], hblocks,
      (procKill_exit hpid hk').trans h.exit, fun q => ?_, hqueues.trans hqueues₂⟩
    rw [(killNotify_cases hn).1, hhouse₂.children]
  have hstack : (l.kmmFree (l.stackAt p)).blocks = l.blocks := List.erase_of_not_mem h.stack
  cases hparent : (k₂.procs p).parent with
  | none =>
    obtain ⟨hrange, hproc⟩ := h.orphan (hnone.mp hparent)
    have hreap : ∃ k', procReap k₂ p = .ok k' ∧ k'.queues = k₂.queues := by
      rw [procReap, hhouse₂.pid]
      exact ⟨_, if_pos hrange, rfl⟩
    obtain ⟨k', hk', hqueues⟩ := hreap
    refine ⟨k', ?_, ?_, hqueues⟩
    · rw [killNotify, hparent]
      exact hk'
    · rw [killNotifyLedger, hparent]
      exact erase_erase_eq_self.mpr ⟨h.stack, hproc⟩
  | some q =>
    obtain ⟨hq, hs⟩ := (hsome q).mp hparent
    rw [killNotify, killNotifyLedger, hparent]
    by_cases hwaits : (k₂.procs q).status = .blocked ∧ (k₂.procs q).blockReason = .child
    · refine ⟨procReady k₂ (some q), if_pos hwaits, hstack, procReady_queues_iff.mpr ?_⟩
      rw [hhouse₂.status, hhouse₂.blockReason] at hwaits
      obtain ⟨hm, hblocked⟩ := h.parent q hq hs hwaits
      refine ⟨?_, ?_⟩
      · rw [← hm, Kernel.kmalloc, Kernel.kmalloc, hhouse₂.mallocOk]
      · rwa [show k₂.blockedProcesses = k.blockedProcesses from congrArg (·.2.1) hqueues₂]
    · exact ⟨k₂, if_neg hwaits, hstack, rfl⟩

/-- **When a second kill changes nothing.** -/
theorem killNoOp_iff (hz : (k.procs p).status = .zombie) (hfds : (k.procs p).fds = fun _ => {})
    (hpid : ¬ ((k.procs p).pid = 0 ∨ (k.procs p).pid = 1)) :
    KillNoOp k l p code ↔ Harmless k l p code :=
  ⟨KillNoOp.harmless hz hfds hpid, Harmless.killNoOp hz hfds hpid⟩

/-! ### The dead between two entries -/

/-- Whoever an entry kills while it has the processor is `RUNNING`. -/
def KillsRunning (k : Kernel) (e : Event) : Prop :=
  ∀ p ∈ killTarget k e, k.currentProcess = some p → (k.procs p).status = .running

/-- No zombie has the processor, and nobody is dead before its birth. -/
structure Interred (k : Kernel) : Prop where
  unborn : ∀ p, k.nextProc ≤ p → (k.procs p).pid = 0 ∧ (k.procs p).status ≠ .zombie
  current : ∀ c, k.currentProcess = some c → (k.procs c).status ≠ .zombie

/-- The processor is handed to a process that is `RUNNING` then. -/
theorem Micro.current {a : Act} (hm : Micro φ k a ψ k') (hc : k'.currentProcess = some c) :
    k.currentProcess = some c ∨ (k'.procs c).status = .running := by
  by_cases hoff : a.offSched
  · obtain ⟨hs, rfl⟩ := hm.schedSame hoff
    exact .inl (hs.current ▸ hc)
  cases hm with
  | dispatch =>
    cases hc
    exact .inr (by simp [dispatchTo])
  | preempt =>
    cases hc
    exact .inr (by simp [dispatchTo])
  | @blockSelf k c' w reason pend hc' hw =>
    left
    have hb := SchedBase.linkWaiter k w c'
    rw [← hb.current, ← suspend_currentProcess _ pend]
    exact hc
  | @blockSleep k c' t hc' =>
    left
    have hlink : (linkSleeper k c' t).currentProcess = k.currentProcess := rfl
    rw [← hlink, ← suspend_currentProcess _ .sleep]
    exact hc
  | @wake φ k w p hφ hw =>
    left
    rw [← (SchedSame.popWaiter k w).current]
    exact hc
  | kill p code => exact .inl (current_of_bury hc).1
  | _ => first | exact .inl hc | exact absurd trivial hoff

/-! ### Edits that leave the ids alone -/

/-- The edits that write no id, neither into a process nor into the table. -/
def Act.offIds : Act → Prop
  | .reap _ | .newProc | .noPid | .claimPid _ => False
  | _ => True

/-- The ids are the same. -/
structure SameIds (k k' : Kernel) : Prop where
  pid : ∀ p, (k'.procs p).pid = (k.procs p).pid
  table : k'.processTable = k.processTable
  next : k'.nextProc = k.nextProc

namespace SameIds

theorem trans {k₁ : Kernel} (h : SameIds k k₁) (g : SameIds k₁ k') : SameIds k k' where
  pid p := (g.pid p).trans (h.pid p)
  table := g.table.trans h.table
  next := g.next.trans h.next

theorem of_base (h : SchedBase k k') : SameIds k k' := ⟨h.pid, h.table, h.nextProc⟩

theorem setProc (k : Kernel) (p : ProcId) {g : Proc → Proc} (h : ∀ q, (g q).pid = q.pid) :
    SameIds k (k.setProc p g) := ⟨k.setProc_spares Proc.pid (h _), rfl, rfl⟩

theorem procReady (k : Kernel) (p : ProcId) : SameIds k (procReady k (some p)) :=
  ⟨procReady_pid k p, rfl, rfl⟩

theorem dispatchTo (k : Kernel) (p : ProcId) (rest : List ProcId) :
    SameIds k (dispatchTo k p rest) :=
  ⟨Kernel.setProc_spares { k with readyProcesses := rest, currentProcess := some p } Proc.pid
    (f := fun q => { q with status := .running, hasQuantum := q.priority }) rfl, rfl, rfl⟩

theorem markBlocked (k : Kernel) (p : ProcId) (reason : BlockReason) (w : WaitRef) :
    SameIds k (markBlocked k p reason w) :=
  ⟨k.setProc_spares Proc.pid
    (f := fun q => { q with status := .blocked, blockReason := reason, waitingOn := w }) rfl,
    rfl, rfl⟩

theorem leave (k : Kernel) (c : ProcId) (reason : BlockReason) (w : WaitRef) (pend : Pending) :
    SameIds k (leave k c reason w pend) := by
  refine .trans (.of_base (SchedSame.suspend k pend).toSchedBase) ?_
  exact (markBlocked (k.suspend pend) c reason w).trans (.setProc _ c fun _ => rfl)

theorem bury (k : Kernel) (p : ProcId) (code : Int) : SameIds k (bury k p code) := by
  have hunlink : SameIds k (unlinkWaiting (rmCurrent k p) p) := by
    unfold unlinkWaiting rmCurrent
    split <;> split <;> exact ⟨fun _ => rfl, rfl, rfl⟩
  exact hunlink.trans (.setProc _ p fun _ => rfl)

end SameIds

theorem Micro.sameIds {a : Act} (hm : Micro φ k a ψ k') (ha : a.offIds) : SameIds k k' := by
  by_cases hoff : a.offSched
  · exact .of_base (hm.schedSame hoff).1.toSchedBase
  cases hm with
  | quantum p n => exact .setProc k p fun _ => rfl
  | @wakeSleeper _ _ sp p => exact ⟨procReady_pid k p, rfl, rfl⟩
  | refill => exact .setProc k _ fun _ => rfl
  | dispatch => exact .dispatchTo k _ _
  | preempt => exact (SameIds.procReady k _).trans (.dispatchTo _ _ _)
  | blockSelf => exact (SameIds.of_base (.linkWaiter k _ _)).trans (.leave _ _ _ _ _)
  | @blockSleep _ c t =>
    have hlink : SameIds k (linkSleeper k c t) := ⟨fun _ => rfl, rfl, rfl⟩
    exact hlink.trans (.leave _ _ _ _ _)
  | blockOther => exact .markBlocked k _ _ _
  | unblock | wakeParent | start => exact .procReady k _
  | @wake _ _ w =>
    exact (SameIds.of_base (SchedSame.popWaiter k w).toSchedBase).trans (.procReady _ _)
  | kill p code => exact .bury k p code
  | @startBare p => exact ⟨procReady_pid k.alloc p, rfl, rfl⟩
  | tick | tickLeaving | dropSleeper | stay | endKill => exact ⟨fun _ => rfl, rfl, rfl⟩
  | _ => first | exact absurd trivial hoff | exact ha.elim

/-! ### The dead stay interred -/

/-- The pid of a process that is not born yet does not change. -/
theorem Micro.pid_unborn {a : Act} (hb : Born φ k) (hm : Micro φ k a ψ k')
    (hp : k.nextProc ≤ p) : (k'.procs p).pid = (k.procs p).pid ∨ (k'.procs p).pid = 0 := by
  by_cases ha : a.offIds
  · exact .inl ((hm.sameIds ha).pid p)
  cases hm with
  | newProc =>
    by_cases hpn : p = k.nextProc
    · subst hpn
      exact .inr (by simp)
    · exact .inl (by simp [hpn])
  | @noPid q k =>
    have hlt := hb.setup q none rfl
    exact .inl (by rw [Kernel.procs_setProc_ne k (hlt.trans_le hp).ne'])
  | @claimPid q k i hi hslot =>
    have hlt := hb.setup q none rfl
    left
    show ((k.setProc q fun q => { q with pid := i }).procs p).pid = _
    rw [Kernel.procs_setProc_ne k (hlt.trans_le hp).ne']
  | _ => first | exact .inl rfl | exact absurd trivial ha

/-- **Every edit keeps the dead interred.** -/
theorem Interred.step {k₀ : Kernel} {a : Act} (hstep : KillsRunning k₀ e) (hb : Born φ k)
    (h : Interred k) (ho : Origin k₀ e k a) (hm : Micro φ k a ψ k') : Interred k' := by
  have hnext : k.nextProc ≤ k'.nextProc := hm.nextProc_le
  -- an unborn process has pid 0, and `proc_kill` spares that
  have hkill : ∀ p, a = .kill p → p < k.nextProc ∧
      (k.currentProcess = some p → (k.procs p).status = .running) := by
    rintro p rfl
    have htarget := ho.2
    refine ⟨?_, fun hc => ?_⟩
    · by_contra hp
      have hpid := (h.unborn p (not_lt.mp hp)).1
      rw [ho.1.pid] at hpid
      exact killTarget_pid htarget (.inl hpid)
    · rw [ho.1.status]
      exact hstep p htarget (ho.1.current ▸ hc)
  refine ⟨fun p hp => ⟨?_, fun hz => ?_⟩, fun c hc hz => ?_⟩
  · have hp' := hnext.trans hp
    rcases hm.pid_unborn hb hp' with hpid | hpid
    · rw [hpid]
      exact (h.unborn p hp').1
    · exact hpid
  · have hp' := hnext.trans hp
    rcases hm.zombie hz with hz | ha
    · exact (h.unborn p hp').2 hz
    · exact absurd (hkill p ha).1 (Nat.not_lt_of_le hp')
  · rcases hm.zombie hz with hz' | ha
    · rcases hm.current hc with hc' | hrun
      · exact h.current c hc' hz'
      · exact absurd (hz.symm.trans hrun) (by decide)
    · subst ha
      cases hm with
      | kill p code =>
        obtain ⟨hc', hs⟩ := current_of_bury hc
        exact hs ((hkill _ rfl).2 hc')

/-- What `proc_kill` leaves of its victims, from then on: no descriptor, and a pid it does not
    spare. -/
def Buried (k : Kernel) : Prop := ∀ p, (k.procs p).status = .zombie →
  (k.procs p).fds = (fun _ => {}) ∧ ¬ ((k.procs p).pid = 0 ∨ (k.procs p).pid = 1)

/-- Between two entries of a run whose victims, when they have the processor, are `RUNNING`. -/
structure Graves (k : Kernel) : Prop where
  born : Born .run k
  interred : Interred k
  buried : Buried k

theorem Graves.boot (f : Nat → Bool) : Graves (boot f) where
  born := .boot f
  interred := ⟨fun _ _ => ⟨rfl, by simp [TpeSo.boot]⟩, fun _ hc => nomatch hc⟩
  buried _ hz := nomatch hz

/-- A new zombie is the victim of the step. -/
theorem step_zombie (hs : step k e = some (k', o)) (hz : (k'.procs p).status = .zombie) :
    (k.procs p).status = .zombie ∨ killTarget k e = some p := by
  refine Does.invariant (fun _ k₁ => (k₁.procs p).status = .zombie →
    (k.procs p).status = .zombie ∨ killTarget k e = some p) ?_ (step_does hs) .inl hz
  intro φ k₁ a ψ k₂ hI ho hm hz
  rcases hm.zombie hz with hz | rfl
  · exact hI hz
  · exact .inr ho.2

/-- What the victim of a step leaves. -/
theorem step_victim (hs : step k e = some (k', o)) (ht : killTarget k e = some p) :
    k'.remains p = ((k.procs p).pid, e.deathCode, fun _ => {}) := by
  cases step_remains hs with
  | same hno | caller hno | spawn hno => exact nomatch hno.symm.trans ht
  | kill q hq hrem =>
    obtain rfl := Option.some.inj (hq.symm.trans ht)
    rw [hrem, Function.update_self]

/-- **A step writes nothing into a grave**, unless it kills the process again. -/
theorem step_grave (h : Graves k) (hs : step k e = some (k', o))
    (hz : (k.procs p).status = .zombie) (ht : killTarget k e ≠ some p) :
    k'.remains p = k.remains p := by
  cases step_remains hs with
  | same hno hrem => exact congrFun hrem p
  | caller hno c hc hrem =>
    refine hrem p ?_
    rintro rfl
    exact h.interred.current p hc hz
  | spawn hno hrem =>
    refine hrem p ?_
    rintro rfl
    exact (h.interred.unborn _ le_rfl).2 hz
  | kill q hq hrem =>
    have hpq : p ≠ q := by
      rintro rfl
      exact ht hq
    rw [hrem, Function.update_of_ne hpq]

theorem Graves.step (h : Graves k) (hok : KillsRunning k e) (hs : step k e = some (k', o)) :
    Graves k' := by
  obtain ⟨hborn, hinterred⟩ : Born .run k' ∧ Interred k' :=
    Does.invariant (fun φ k₁ => Born φ k₁ ∧ Interred k₁)
      (fun _ _ _ _ _ hI ho hm => ⟨hI.1.step hm, hI.2.step hok hI.1 ho hm⟩) (step_does hs)
      ⟨h.born, h.interred⟩
  refine ⟨hborn, hinterred, fun p hz => ?_⟩
  by_cases ht : killTarget k e = some p
  · have hrem := step_victim hs ht
    simp only [Kernel.remains, Prod.mk.injEq] at hrem
    rw [hrem.1]
    exact ⟨hrem.2.2, killTarget_pid ht⟩
  · have hz₀ := (step_zombie hs hz).resolve_right ht
    have hrem := step_grave h hs hz₀ ht
    simp only [Kernel.remains, Prod.mk.injEq] at hrem
    rw [hrem.1, hrem.2.2]
    exact h.buried p hz₀

theorem graves_run {f : Nat → Bool} {tr : List (Kernel × Event × Option Completion)}
    (h : Run f KillsRunning tr k) : Graves k :=
  h.invariant Graves (.boot f) fun _ _ _ _ hI hok hs => hI.step hok hs

/-! ### The status of the first death -/

/-- The status with which the step kills `p`. -/
def deathIn (p : ProcId) (x : Kernel × Event × Option Completion) : Option Int :=
  if killTarget x.1 x.2.1 = some p then some x.2.1.deathCode else none

/-- The status with which `p` is first killed, or exits. -/
def firstDeath (tr : List (Kernel × Event × Option Completion)) (p : ProcId) : Option Int :=
  tr.findSome? (deathIn p)

/-- The step makes clean kills, and gives a zombie it kills the status it has already. -/
structure RespectsDead (k : Kernel) (e : Event) : Prop where
  clean : CleanStep k e
  status : ∀ p ∈ killTarget k e, (k.procs p).status = .zombie → e.deathCode = (k.procs p).exit

theorem firstDeath_append (tr : List (Kernel × Event × Option Completion))
    (x : Kernel × Event × Option Completion) (p : ProcId) :
    firstDeath (tr ++ [x]) p = (firstDeath tr p).or (deathIn p x) := by
  rw [firstDeath, List.findSome?_append]
  simp [firstDeath]

/-- A zombie has the status of its first death, and nobody else has died yet. -/
structure FirstDeaths (tr : List (Kernel × Event × Option Completion)) (k : Kernel) : Prop where
  final : Final .run k
  graves : Graves k
  dead : ∀ p, (k.procs p).status = .zombie → firstDeath tr p = some (k.procs p).exit
  alive : ∀ p, (k.procs p).status ≠ .zombie → firstDeath tr p = none

theorem FirstDeaths.boot (f : Nat → Bool) : FirstDeaths [] (boot f) where
  final := .boot f
  graves := .boot f
  dead _ hz := nomatch hz
  alive _ _ := rfl

theorem CleanStep.killsRunning (h : CleanStep k e) : KillsRunning k e :=
  fun p hp hc => (h p hp).current hc

/-- A step with a victim is one `proc_kill`, with nothing before it that a queue or a process
    could notice. -/
theorem step_kills (hs : step k e = some (k', o)) (ht : killTarget k e = some p) :
    ∃ k₁ k₂, Calm k k₁ ∧ Does (Origin k e) (.run, k) (.run, k₁) ∧
      procKill k₁ (some p) e.deathCode = .ok k₂ ∧ Does (Origin k e) (.run, k₂) (.run, k') := by
  have hproc := (Option.filter_eq_some_iff.mp ht).1
  rcases step_eq_some hs with ⟨-, -, henter⟩ | ⟨rfl, -⟩
  · cases e with
    | key sc =>
      obtain ⟨k₁, hkey, he⟩ := Outcome.bind_eq_ok.mp henter
      cases he
      dsimp only at hproc
      rcases handleKeyPress_cases hkey with ⟨hnot, -⟩ | ⟨hctrl, hk⟩
      · rw [if_neg hnot] at hproc
        cases hproc
      · rw [if_pos hctrl] at hproc
        rw [hproc] at hk
        exact ⟨k, k', (Quiet.refl k).toCalm, .refl _, hk, .refl _⟩
    | sysKillProc pid =>
      change sysKillProc k pid = _ at henter
      unfold sysKillProc at henter
      dsimp only at hproc
      split at henter
      · rename_i hpid
        rw [if_pos hpid] at hproc
        cases hproc
      · rename_i hpid
        rw [if_neg hpid] at hproc
        obtain ⟨proc, hfound, henter⟩ := Outcome.bind_eq_ok.mp henter
        rw [hfound] at hproc
        dsimp only at hproc
        subst hproc
        obtain ⟨k₁, hk, he⟩ := Outcome.bind_eq_ok.mp henter
        cases he
        exact ⟨k, k', (Quiet.refl k).toCalm, .refl _, hk, .refl _⟩
    | sysExit code =>
      obtain ⟨k₂, hk, henter⟩ := Outcome.bind_eq_ok.mp henter
      obtain ⟨k₃, htick, he⟩ := Outcome.bind_eq_ok.mp henter
      cases he
      rw [show k.currentProcess = some p from hproc] at hk
      have hsuspend : Does (Origin k (.sysExit code)) (.run, k) (.run, k.suspend .exit) :=
        .one (.suspend trivial) (Routine.origin _ _ _ _ trivial)
      have hroutine := Routine.origin k (.sysExit code)
      exact ⟨_, k₂, Quiet.calm_suspend k .exit, hsuspend, hk,
        does_timer hroutine.common (hroutine.preempts _) htick⟩
    | _ => cases hproc
  · cases hproc

/-- The victim of a step is a zombie afterwards. -/
theorem step_victim_zombie (h : Final .run k) (hok : CleanStep k e)
    (hs : step k e = some (k', o)) (ht : killTarget k e = some p) :
    (k'.procs p).status = .zombie := by
  obtain ⟨k₁, k₂, hcalm, hbefore, hk, hafter⟩ := step_kills hs ht
  have hpid := killTarget_pid ht
  rw [← hcalm.pid] at hpid
  obtain ⟨hfinal, hz⟩ := (h.does hok hbefore).1.procKill ((hok p ht).calm hcalm) hpid hk
  exact (hfinal.does hok hafter).2 p hz

theorem FirstDeaths.step {tr : List (Kernel × Event × Option Completion)} (h : FirstDeaths tr k)
    (hok : RespectsDead k e) (hs : TpeSo.step k e = some (k', o)) :
    FirstDeaths (tr ++ [(k, e, o)]) k' := by
  obtain ⟨hfinal, hkeep⟩ := h.final.step hok.clean hs
  refine ⟨hfinal, h.graves.step hok.clean.killsRunning hs, fun p hz => ?_, fun p hz => ?_⟩
  · rw [firstDeath_append, deathIn]
    by_cases ht : killTarget k e = some p
    · have hexit : (k'.procs p).exit = e.deathCode := congrArg (fun x => x.2.1) (step_victim hs ht)
      by_cases hz₀ : (k.procs p).status = .zombie
      · rw [h.dead p hz₀, hexit, hok.status p ht hz₀, Option.some_or]
      · rw [h.alive p hz₀, Option.none_or, if_pos ht, hexit]
    · have hz₀ := (step_zombie hs hz).resolve_right ht
      have hexit : (k'.procs p).exit = (k.procs p).exit :=
        congrArg (fun x => x.2.1) (step_grave h.graves hs hz₀ ht)
      rw [h.dead p hz₀, hexit, Option.some_or]
  · have hz₀ : (k.procs p).status ≠ .zombie := fun hz₀ => hz (hkeep p hz₀)
    rw [firstDeath_append, deathIn, h.alive p hz₀, Option.none_or, if_neg]
    exact fun ht => hz (step_victim_zombie h.final hok.clean hs ht)

/-- `wait_pid` only hands back statuses of first deaths. -/
def FirstStatuses (tr : List (Kernel × Event × Option Completion)) : Prop :=
  ∀ before k e x st, before ++ [(k, e, some (.waitPid x (some st)))] <+: tr →
    ∃ y child, getProcByPid k y = .ok (some child) ∧ (x = y ∨ x = (k.procs child).pid) ∧
      firstDeath before child = some st

/-- **A run that respects the dead hands back the statuses of their first deaths.** -/
theorem firstStatuses_run {f : Nat → Bool} {ok : Kernel → Event → Prop}
    {tr : List (Kernel × Event × Option Completion)} (h : Run f ok tr k)
    (hdead : ∀ y ∈ tr, RespectsDead y.1 y.2.1) : FirstDeaths tr k ∧ FirstStatuses tr := by
  refine h.invariant_history (fun tr k => (∀ y ∈ tr, RespectsDead y.1 y.2.1) →
    FirstDeaths tr k ∧ FirstStatuses tr) (fun _ => ⟨.boot f, fun before _ _ _ _ hb => ?_⟩) ?_ hdead
  · simp at hb
  · intro tr k e k' o _ hI _ hs hdead
    obtain ⟨hdeaths, hstatuses⟩ := hI fun y hy => hdead y (List.mem_append_left _ hy)
    refine ⟨hdeaths.step (hdead (k, e, o) (by simp)) hs, fun before k₁ e₁ x st hb => ?_⟩
    rcases List.prefix_concat_iff.mp hb with heq | hb
    · obtain ⟨rfl, hlast⟩ := List.append_inj' heq rfl
      simp only [List.cons.injEq, Prod.mk.injEq, and_true] at hlast
      obtain ⟨rfl, rfl, rfl⟩ := hlast
      obtain ⟨y, child, hy, hz, rfl, hx⟩ := step_waitStatus hs
      exact ⟨y, child, hy, hx, hdeaths.dead child hz⟩
    · exact hstatuses before k₁ e₁ x st hb

/-- An entry of a family that gives a zombie it kills the status it has already. -/
def AlikeStep (k : Kernel) (e : Event) : Prop :=
  familyEvent e = true ∧
    ∀ p ∈ killTarget k e, (k.procs p).status = .zombie → e.deathCode = (k.procs p).exit

instance (k : Kernel) (e : Event) : Decidable (AlikeStep k e) :=
  inferInstanceAs (Decidable (_ ∧ _))

theorem Settled.respectsDead (h : Settled k) (hok : AlikeStep k e) : RespectsDead k e :=
  ⟨fun p _ => h.tidy.cleanKill p, hok.2⟩

/-- `init` has a child. -/
def childEvents : List Event :=
  [.sysSpawn { entry := some 1, fds := none, background := false },
   .sysSpawn { entry := some 2, fds := none, background := false }, .timer, .sysYield,
   .sysSpawn { entry := some 3, fds := none, background := true }]

/-- The child exits with status 7, and is killed after that. -/
def exitEvents : List Event := childEvents ++ [.sysYield, .resume, .sysYield, .sysExit 7, .resume]

end TpeSo
