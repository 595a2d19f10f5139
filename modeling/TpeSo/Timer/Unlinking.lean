import TpeSo.Ds.Links
import TpeSo.Kernel.Syscall
import TpeSo.Timer.Clock

namespace TpeSo

open Ds Lib

/-!
# Timer — waking the sleepers while their nodes are unlinked

`timer_handler` walks along the nodes of the sleep queue, frees those of the sleepers that
are due and goes on from the freed node, whose bytes are still there.

* `timerLoop`, `timerHandlerLinked` — the loop, with the nodes;
* `unblockAll` — the kernel side of it: `unblock_process_by_pid` for each sleeper in turn;
* `timerLoop_eq` — **the loop ends, unblocks those that are due and leaves the nodes of the
  others**;
* `timerHandler_linked` — it does what `timerHandler` does to the list of the sleepers;
* `wakesDue_iff` — the tick wakes exactly the due sleepers if and only if each of them is
  given a node in the ready queue.
-/

variable {k k' : Kernel} {sp : SleepingProc} {p : ProcId}

/-- The sleep queue: each node leads to a `sleeping_proc_t`. -/
abbrev SleepQueue := LinkedQueue SleepingProc

/-- The loop of `timer_handler`, from `node` on. -/
def timerLoop : Nat → Kernel → SleepQueue → Option Nat → Outcome (Kernel × SleepQueue)
  | 0, _, _, _ => .hang
  | _ + 1, k, q, none => .ok (k, q)
  | fuel + 1, k, q, some node =>
    if (q.value node).wakeUpTick ≤ k.ticks then do
      let (k, _) ← unblockProcessByPid k (q.value node).pid
      let q := queueNodeRemove q node
      timerLoop fuel k q (q.chain.next node)
    else timerLoop fuel k q (q.chain.next node)

/-- `timer_handler`.  Every iteration leaves one node behind it, so `count + 1` steps do. -/
def timerHandlerLinked (k : Kernel) (q : SleepQueue) : Outcome (Kernel × SleepQueue) :=
  timerLoop (q.count + 1) { k with ticks := (k.ticks + 1) % word } q q.chain.head

/-- The sleeper is due. -/
def SleepingProc.due (ticks : Nat) (sp : SleepingProc) : Bool := sp.wakeUpTick ≤ ticks

/-- `unblock_process_by_pid` for each of the sleepers. -/
def unblockAll (k : Kernel) : List SleepingProc → Outcome Kernel
  | [] => .ok k
  | sp :: sps => do
    let (k, _) ← unblockProcessByPid k sp.pid
    unblockAll k sps

/-! ### The loop -/

theorem ticks_unblock {pid : Int} {r : Kernel × Int} (h : unblockProcessByPid k pid = .ok r) :
    r.1.ticks = k.ticks := congrArg Alarm.now (clock_unblockProcessByPid h)

/-- **The loop**, which has come to the nodes `ys` and has left the nodes `xs` behind. -/
theorem timerLoop_eq (ys : List Nat) : ∀ (xs : List Nat) {k : Kernel} {q : SleepQueue}
    {fuel : Nat}, q.Holds (xs ++ ys) → ys.length < fuel →
    ∃ q' : SleepQueue, q'.value = q.value ∧
      q'.Holds (xs ++ ys.filter fun a => !(q.value a).due k.ticks) ∧
      timerLoop fuel k q ys.head? =
        unblockAll k ((ys.map q.value).filter (SleepingProc.due k.ticks)) >>=
          fun k => .ok (k, q') := by
  induction ys with
  | nil =>
    intro xs k q fuel h hfuel
    obtain ⟨fuel, rfl⟩ : ∃ f, fuel = f + 1 := ⟨fuel - 1, by simp at hfuel; omega⟩
    exact ⟨q, rfl, h, rfl⟩
  | cons node ys ih =>
    intro xs k q fuel h hfuel
    obtain ⟨fuel, rfl⟩ : ∃ f, fuel = f + 1 := ⟨fuel - 1, by simp at hfuel; omega⟩
    rw [List.length_cons] at hfuel
    rw [List.head?_cons, timerLoop, List.map_cons]
    by_cases hdue : (q.value node).wakeUpTick ≤ k.ticks
    · -- the node goes, and the loop reads `next` from the freed node
      have hd : (q.value node).due k.ticks = true := decide_eq_true hdue
      obtain ⟨hholds, hnext⟩ := h.remove
      rw [if_pos hdue, List.filter_cons_of_pos hd, List.filter_cons_of_neg (by simp [hd])]
      have hlen : ys.length < fuel := by omega
      cases hu : unblockProcessByPid k (q.value node).pid with
      | ok r =>
        obtain ⟨k₁, n⟩ := r
        have hticks : k₁.ticks = k.ticks := ticks_unblock hu
        obtain ⟨q', hval, hholds', heq⟩ := ih xs (k := k₁) hholds hlen
        rw [queueNodeRemove_value, hticks] at hholds' heq
        refine ⟨q', hval.trans (queueNodeRemove_value q node), hholds', ?_⟩
        rw [unblockAll, hu, Outcome.ok_bind, Outcome.ok_bind]
        dsimp only
        rw [hnext]
        exact heq
      | hang =>
        -- both sides stop here, and any queue will do
        obtain ⟨q', hval, hholds', -⟩ := ih xs (k := k) hholds hlen
        rw [queueNodeRemove_value] at hholds'
        exact ⟨q', hval.trans (queueNodeRemove_value q node), hholds', by rw [unblockAll, hu]; rfl⟩
      | fault =>
        obtain ⟨q', hval, hholds', -⟩ := ih xs (k := k) hholds hlen
        rw [queueNodeRemove_value] at hholds'
        exact ⟨q', hval.trans (queueNodeRemove_value q node), hholds', by rw [unblockAll, hu]; rfl⟩
    · -- the node stays, among those left behind
      have hd : ¬ (q.value node).due k.ticks = true := by simpa [SleepingProc.due] using hdue
      rw [if_neg hdue, List.filter_cons_of_neg hd, List.filter_cons_of_pos (by simp [hd]), h.next]
      obtain ⟨q', hval, hholds, heq⟩ := ih (xs ++ [node]) (k := k) (by simpa using h)
        (by omega : ys.length < fuel)
      exact ⟨q', hval, by simpa using hholds, heq⟩

/-! ### The list of the sleepers -/

/-- The kernel with this list of sleepers. -/
def Kernel.withSleepers (k : Kernel) (sps : List SleepingProc) : Kernel :=
  { k with sleepingProcs := sps }

@[simp] theorem ticks_withSleepers (k : Kernel) (sps : List SleepingProc) :
    (k.withSleepers sps).ticks = k.ticks := rfl

/-- `unblock_process_by_pid` does not look at the sleepers. -/
theorem unblock_withSleepers (k : Kernel) (sps : List SleepingProc) (pid : Int) :
    unblockProcessByPid (k.withSleepers sps) pid =
      unblockProcessByPid k pid >>= fun r => .ok (r.1.withSleepers sps, r.2) := by
  unfold unblockProcessByPid
  have hproc : getProcByPid (k.withSleepers sps) pid = getProcByPid k pid := rfl
  rw [hproc]
  cases getProcByPid k pid with
  | hang => rfl
  | fault => rfl
  | ok o =>
    cases o with
    | none => rfl
    | some p =>
      show (if (k.procs p).status ≠ .blocked then _ else _) = (if _ then _ else _) >>= _
      split <;> rfl

/-- The loop over the list, when the sleepers `pre` have been passed and stay. -/
theorem wakeDue_eq (rest : List SleepingProc) : ∀ (k : Kernel) (pre : List SleepingProc),
    (∀ sp ∈ pre, ¬ sp.due k.ticks = true) →
    wakeDue (k.withSleepers (pre ++ rest)) rest =
      unblockAll k (rest.filter (SleepingProc.due k.ticks)) >>= fun k' =>
        .ok (k'.withSleepers (pre ++ rest.filter fun sp => !sp.due k.ticks)) := by
  induction rest with
  | nil => exact fun _ _ _ => rfl
  | cons sp rest ih =>
    intro k pre hpre
    rw [wakeDue]
    by_cases hdue : sp.wakeUpTick ≤ k.ticks
    · have hd : sp.due k.ticks = true := decide_eq_true hdue
      have hrm : queueRemove (pre ++ sp :: rest) sp = pre ++ rest := by
        rw [queueRemove, List.erase_append_right _ (fun hin => hpre sp hin hd),
          List.erase_cons_head]
      rw [ticks_withSleepers, if_pos hdue, List.filter_cons_of_pos hd,
        List.filter_cons_of_neg (by simp [hd]), unblock_withSleepers, unblockAll]
      cases hu : unblockProcessByPid k sp.pid with
      | hang => rfl
      | fault => rfl
      | ok r =>
        obtain ⟨k₁, n⟩ := r
        have hticks : k₁.ticks = k.ticks := ticks_unblock hu
        have hrest := ih k₁ pre (by rw [hticks]; exact hpre)
        rw [hticks] at hrest
        simp only [Outcome.ok_bind]
        show wakeDue (k₁.withSleepers (queueRemove (pre ++ sp :: rest) sp)) rest = _
        rw [hrm]
        exact hrest
    · have hd : ¬ sp.due k.ticks = true := by simpa [SleepingProc.due] using hdue
      rw [ticks_withSleepers, if_neg hdue, List.filter_cons_of_neg hd,
        List.filter_cons_of_pos (by simp [hd])]
      have hrest := ih k (pre ++ [sp]) fun x hx => by
        rcases List.mem_append.mp hx with hx | hx
        · exact hpre x hx
        · rwa [List.mem_singleton.mp hx]
      simpa using hrest

/-- The kernel at the next tick. -/
def Kernel.ticked (k : Kernel) : Kernel := { k with ticks := (k.ticks + 1) % word }

/-- The interrupt on a sleep queue with the nodes `as`. -/
theorem timerHandlerLinked_eq {q : SleepQueue} {as : List Nat} (h : q.Holds as) (k : Kernel) :
    ∃ q' : SleepQueue, q'.value = q.value ∧
      q'.Holds (as.filter fun a => !(q.value a).due k.ticked.ticks) ∧
      timerHandlerLinked k q =
        unblockAll k.ticked ((as.map q.value).filter (SleepingProc.due k.ticked.ticks)) >>=
          fun k' => .ok (k', q') := by
  unfold timerHandlerLinked
  rw [h.spells.head]
  exact timerLoop_eq as [] (k := k.ticked) h (by rw [h.count_eq]; exact Nat.lt_succ_self _)

/-- **The linked loop does what `timerHandler` does** to the list of the sleepers. -/
theorem timerHandler_linked {q : SleepQueue} {as : List Nat} (h : q.Holds as) (k : Kernel) :
    timerHandler (k.withSleepers (as.map q.value)) = timerHandlerLinked k q >>= fun r =>
      .ok (r.1.withSleepers ((as.map q.value).filter fun sp => !sp.due k.ticked.ticks)) := by
  obtain ⟨q', -, -, heq⟩ := timerHandlerLinked_eq h k
  have hlist := wakeDue_eq (as.map q.value) k.ticked [] (fun _ hsp => nomatch hsp)
  rw [heq, Outcome.bind_assoc]
  exact hlist

/-! ### The processes that wake up -/

/-- The process of a sleeper. -/
def sleeperOf (k : Kernel) (sp : SleepingProc) : Option ProcId :=
  (getProcByPid k sp.pid).toOption.join

/-- Each entry belongs to a process that is blocked, and no two to the same. -/
structure AllAsleep (k : Kernel) (sps : List SleepingProc) : Prop where
  blocked : ∀ sp ∈ sps, ∃ p, getProcByPid k sp.pid = .ok (some p) ∧
    (k.procs p).status = .blocked
  distinct : (sps.filterMap (sleeperOf k)).Nodup

/-- The process control block of a process that has been made ready. -/
def Proc.readied (q : Proc) : Proc :=
  { q with status := .ready, blockReason := .none, waitingOn := .readyQueue }

/-- `proc_ready` for each of the processes. -/
def readyAll (k : Kernel) (ps : List ProcId) : Kernel :=
  ps.foldl (fun k p => procReady k (some p)) k

theorem sleeperOf_eq {sp : SleepingProc} (h : getProcByPid k sp.pid = .ok (some p)) :
    sleeperOf k sp = some p := by
  rw [sleeperOf, h]
  rfl

theorem procs_procReady (k : Kernel) (p r : ProcId) : (procReady k (some p)).procs r =
    if r = p then (k.procs r).readied else k.procs r := by
  show Function.update k.procs p _ r = _
  rw [Function.update_apply]
  split
  · rename_i h
    rw [h]
    rfl
  · rfl

theorem AllAsleep.tail {sps : List SleepingProc} (h : AllAsleep k (sp :: sps))
    (hp : getProcByPid k sp.pid = .ok (some p)) : AllAsleep (procReady k (some p)) sps := by
  have hdistinct := h.distinct
  rw [List.filterMap_cons_some (sleeperOf_eq hp), List.nodup_cons] at hdistinct
  refine ⟨fun x hx => ?_, hdistinct.2⟩
  obtain ⟨r, hr, hblocked⟩ := h.blocked x (List.mem_cons_of_mem _ hx)
  have hne : r ≠ p := by
    rintro rfl
    exact hdistinct.1 (List.mem_filterMap.mpr ⟨x, hx, sleeperOf_eq hr⟩)
  refine ⟨r, hr, ?_⟩
  rw [procs_procReady, if_neg hne]
  exact hblocked

/-- **Sleepers that are blocked are made ready**, one after the other. -/
theorem unblockAll_asleep (sps : List SleepingProc) : ∀ {k : Kernel}, AllAsleep k sps →
    unblockAll k sps = .ok (readyAll k (sps.filterMap (sleeperOf k))) := by
  induction sps with
  | nil => exact fun _ => rfl
  | cons sp sps ih =>
    intro k h
    obtain ⟨p, hp, hblocked⟩ := h.blocked sp List.mem_cons_self
    have hunblock : unblockProcessByPid k sp.pid = .ok (procReady k (some p), 0) := by
      unfold unblockProcessByPid
      rw [hp, Outcome.ok_bind]
      exact if_neg (fun hne => hne hblocked)
    rw [unblockAll, hunblock, Outcome.ok_bind, List.filterMap_cons_some (sleeperOf_eq hp)]
    exact ih (h.tail hp)

theorem readyAll_procs (ps : List ProcId) : ∀ (k : Kernel) (r : ProcId),
    (readyAll k ps).procs r = if r ∈ ps then (k.procs r).readied else k.procs r := by
  induction ps with
  | nil => exact fun _ _ => rfl
  | cons p ps ih =>
    intro k r
    show (readyAll (procReady k (some p)) ps).procs r = _
    rw [ih, procs_procReady]
    by_cases hrp : r = p
    · rw [if_pos hrp, if_pos (List.mem_cons.mpr (.inl hrp))]
      split <;> rfl
    · rw [if_neg hrp]
      simp only [List.mem_cons, hrp, false_or]

theorem readyAll_length (ps : List ProcId) : ∀ k : Kernel,
    (readyAll k ps).readyProcesses.length ≤ k.readyProcesses.length + ps.length := by
  induction ps with
  | nil => exact fun _ => Nat.le_refl _
  | cons p ps ih =>
    intro k
    have hone : (procReady k (some p)).readyProcesses.length ≤ k.readyProcesses.length + 1 := by
      show (enqueue k.kmalloc k.readyProcesses p).length ≤ _
      cases k.kmalloc <;> simp
    have hrest := ih (procReady k (some p))
    rw [List.length_cons]
    show (readyAll (procReady k (some p)) ps).readyProcesses.length ≤ _
    omega

/-- The processes are appended to the ready queue exactly if each is given a node. -/
theorem readyAll_ready_iff (ps : List ProcId) : ∀ k : Kernel,
    (readyAll k ps).readyProcesses = k.readyProcesses ++ ps ↔
      ∀ n < ps.length, k.mallocOk n = true := by
  induction ps with
  | nil => exact fun k => iff_of_true (List.append_nil _).symm nofun
  | cons p ps ih =>
    intro k
    have hnodes : (∀ n < (p :: ps).length, k.mallocOk n = true) ↔
        k.kmalloc = true ∧ ∀ n < ps.length, k.mallocOk (n + 1) = true := by
      rw [List.length_cons]
      exact Nat.forall_lt_succ_left'
    rw [hnodes]
    show (readyAll (procReady k (some p)) ps).readyProcesses = _ ↔ _
    cases hnode : k.kmalloc with
    | true =>
      have hfirst : (procReady k (some p)).readyProcesses = k.readyProcesses ++ [p] := by
        show enqueue k.kmalloc k.readyProcesses p = _
        rw [hnode, enqueue_true]
      have hrest := ih (procReady k (some p))
      rw [hfirst, List.append_assoc, List.singleton_append] at hrest
      rw [hrest, eq_self, true_and]
      rfl
    | false =>
      -- the first process is lost, and what follows cannot make up for it
      refine iff_of_false (fun heq => ?_) (fun h => nomatch h.1)
      have hfirst : (procReady k (some p)).readyProcesses = k.readyProcesses := by
        show enqueue k.kmalloc k.readyProcesses p = _
        rw [hnode, enqueue_false]
      have hlen := readyAll_length ps (procReady k (some p))
      rw [heq, hfirst, List.length_append, List.length_cons] at hlen
      omega

/-! ### The tick -/

/-- The processes that the next tick wakes, in the order of the sleep queue. -/
def dueProcs (k : Kernel) (sps : List SleepingProc) : List ProcId :=
  (sps.filter (SleepingProc.due k.ticked.ticks)).filterMap (sleeperOf k)

/-- The tick leaves the entries that are not due, and readies the processes of the others. -/
def WakesDue (k : Kernel) (q : SleepQueue) (as : List Nat) : Prop :=
  ∃ k' q', timerHandlerLinked k q = .ok (k', q') ∧
    q'.value = q.value ∧
    q'.Holds (as.filter fun a => k.ticked.ticks < (q.value a).wakeUpTick) ∧
    (∀ r, k'.procs r = if r ∈ dueProcs k (as.map q.value) then (k.procs r).readied
      else k.procs r) ∧
    k'.readyProcesses = k.readyProcesses ++ dueProcs k (as.map q.value)

theorem AllAsleep.due {sps : List SleepingProc} (h : AllAsleep k sps) :
    AllAsleep k.ticked (sps.filter (SleepingProc.due k.ticked.ticks)) where
  blocked sp hsp := h.blocked sp (List.mem_of_mem_filter hsp)
  distinct := h.distinct.sublist (List.filter_sublist.filterMap _)

/-- **One tick wakes exactly the sleepers that are due**, if and only if each of them is
    given a node in the ready queue. -/
theorem wakesDue_iff {q : SleepQueue} {as : List Nat} (hq : q.Holds as)
    (hs : AllAsleep k (as.map q.value)) :
    WakesDue k q as ↔ ∀ n < (dueProcs k (as.map q.value)).length, k.mallocOk n = true := by
  obtain ⟨q', hval, hholds, heq⟩ := timerHandlerLinked_eq hq k
  rw [unblockAll_asleep _ hs.due, Outcome.ok_bind] at heq
  have hready : (readyAll k.ticked (dueProcs k (as.map q.value))).readyProcesses =
      k.readyProcesses ++ dueProcs k (as.map q.value) ↔
        ∀ n < (dueProcs k (as.map q.value)).length, k.mallocOk n = true :=
    readyAll_ready_iff _ k.ticked
  rw [← hready]
  constructor
  · rintro ⟨k', q'', h, -, -, -, happend⟩
    obtain ⟨rfl, rfl⟩ := Prod.mk.inj (Outcome.ok.inj (heq.symm.trans h))
    exact happend
  · intro happend
    refine ⟨_, q', heq, hval, ?_, readyAll_procs _ k.ticked, happend⟩
    simpa [SleepingProc.due, ← decide_not] using hholds

/-! ### One sleeper -/

/-- A process sleeps until tick 1, and no memory is left, or some is. -/
def nappingKernel (memory : Bool) : Kernel :=
  { boot fun _ => memory with
    processTable := fun i => if i = 2 then some 0 else none
    procs := fun _ => { pid := 2, status := .blocked } }

/-- Its entry hangs on a node at address `0`. -/
def nappingQueue : SleepQueue where
  chain := { prev := fun _ => none, next := fun _ => none, head := some 0, tail := some 0 }
  value := fun _ => { pid := 2, wakeUpTick := 1 }
  count := 1

theorem nappingQueue_holds : nappingQueue.Holds [0] := by
  refine ⟨⟨by decide, rfl, rfl, fun xs a ys he => ?_⟩, rfl⟩
  cases xs with
  | nil =>
    obtain ⟨-, rfl⟩ := List.cons_eq_cons.mp he
    exact ⟨rfl, rfl⟩
  | cons x xs => simp at he

theorem nappingKernel_asleep (memory : Bool) :
    AllAsleep (nappingKernel memory) ([0].map nappingQueue.value) := by
  refine ⟨fun sp hsp => ?_, List.nodup_singleton 0⟩
  obtain rfl := List.mem_singleton.mp hsp
  exact ⟨0, rfl, rfl⟩

/-- Without memory the process is readied and joins no queue. -/
theorem nap_without_memory : nappingQueue.Holds [0] ∧
    AllAsleep (nappingKernel false) ([0].map nappingQueue.value) ∧
    ¬ WakesDue (nappingKernel false) nappingQueue [0] := by
  refine ⟨nappingQueue_holds, nappingKernel_asleep false, ?_⟩
  rintro ⟨k', q', h, -, -, -, happend⟩
  have hlost : (timerHandlerLinked (nappingKernel false) nappingQueue).toOption.map
      (fun r => r.1.readyProcesses) = some [] := by decide
  rw [h] at hlost
  have hempty : k'.readyProcesses = [] := Option.some.inj hlost
  rw [hempty] at happend
  exact absurd happend (by decide)

theorem wakesDue_nap : WakesDue (nappingKernel true) nappingQueue [0] :=
  (wakesDue_iff nappingQueue_holds (nappingKernel_asleep true)).mpr fun _ _ => rfl

end TpeSo
