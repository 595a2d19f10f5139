import TpeSo.Sched.Exhaustion
import TpeSo.Sems.Exits

namespace TpeSo

open Ds Lib

/-!
# Semaphores — nobody waits for a semaphore that is gone

* `NobodyStranded k` — whoever is blocked for a token is in the queue of exactly one semaphore,
  which is open;
* `StrandsNobody k e` — no semaphore is destroyed while somebody waits for it, and who waits gets
  a node for the queue;
* `Record` — what an edit does to why a process is blocked, and on what;
* `nobodyStranded_run` — in a run whose steps meet the condition nobody is ever stranded, and the
  first step that does not meet it strands somebody.
-/

variable {f : Nat → Bool} {φ ψ : Phase} {k k' : Kernel} {e : Event} {o : Option Completion}
  {p c : ProcId} {id : Nat} {tr : List (Kernel × Event × Option Completion)}

/-- `p` is blocked for a token. -/
def SemBlocked (k : Kernel) (p : ProcId) : Prop :=
  (k.procs p).status = .blocked ∧ (k.procs p).blockReason = .semaphore

/-- Some later post to `id` can wake `p`. -/
def Wakable (k : Kernel) (id : Nat) (p : ProcId) : Prop :=
  semIsOpen k id = true ∧ some p ∈ (k.semaphores id).waitingQueue

/-- **Whoever waits can be woken.** -/
def NobodyStranded (k : Kernel) : Prop := ∀ p, SemBlocked k p → ∃! id, Wakable k id p

/-- Nobody waits for a semaphore that is destroyed, and a process that has to wait gets a node. -/
def StrandsNobody (k : Kernel) : Event → Prop
  | .sysCloseSem id => semIsOpen k id = true → waiters k (.semaphore id) = []
  | .sysSemWait id => semIsOpen k id = true → (k.semaphores id).value = 0 →
      k.currentProcess = none ∨ k.kmalloc = true
  | _ => True

instance (k : Kernel) (e : Event) : Decidable (StrandsNobody k e) := by
  rcases e with ⟨⟩ <;> dsimp only [StrandsNobody] <;> infer_instance

theorem mem_waiters_semaphore :
    p ∈ waiters k (.semaphore id) ↔ some p ∈ (k.semaphores id).waitingQueue :=
  List.reduceOption_mem_iff

theorem Wakable.of_inUse (h : semIsOpen k id = true)
    (huse : (k'.semaphores id).inUse = (k.semaphores id).inUse)
    (hp : some p ∈ (k'.semaphores id).waitingQueue) : Wakable k' id p := by
  refine ⟨?_, hp⟩
  unfold semIsOpen at h ⊢
  rwa [huse]

theorem Wakable.of_watched (h : Wakable k id p)
    (hsame : (k'.semaphores id).watched = (k.semaphores id).watched) : Wakable k' id p := by
  have hqueue : (k'.semaphores id).waitingQueue = (k.semaphores id).waitingQueue :=
    congrArg (fun s => s.2.2) hsame
  exact .of_inUse h.1 (congrArg (fun s => s.2.1) hsame) (hqueue ▸ h.2)

/-! ### Why a process is blocked -/

/-- What the edit `a` does to why `p` is blocked, and on what. -/
inductive Record (a : Act) (p : ProcId) (q q' : Proc) : Prop
  /-- Nothing, but that `p` may stop being blocked. -/
  | same (hs : q'.status = q.status ∨ q'.status ≠ .blocked)
      (hr : q'.blockReason = q.blockReason) (hw : q'.waitingOn = q.waitingOn)
  | unblocked (hs : q'.status ≠ .blocked) (hw : ∀ id, q'.waitingOn ≠ .semaphore id)
  | blocked {w : WaitRef} {pend : Pending} (ha : a = .blockSelf p w pend)
      (hon : BlocksOn q'.blockReason w pend) (hw : q'.waitingOn = w)
  | aside (hr : q'.blockReason ≠ .semaphore) (hw : ∀ id, q'.waitingOn ≠ .semaphore id)

namespace Record

variable {a : Act} {q q' : Proc}

/-- An edit of one process. -/
theorem setProc (k : Kernel) (r : ProcId) {g : Proc → Proc}
    (h : p = r → Record a p (k.procs p) (g (k.procs p))) :
    Record a p (k.procs p) ((k.setProc r g).procs p) := by
  by_cases hp : p = r
  · subst hp
    rw [k.procs_setProc_self]
    exact h rfl
  · rw [k.procs_setProc_ne hp]
    exact .same (.inl rfl) rfl rfl

theorem procReady (k : Kernel) (r : ProcId) :
    Record a p (k.procs p) ((procReady k (some r)).procs p) := by
  have hset := setProc (a := a) (p := p) k r (g := fun q =>
    { q with status := .ready, blockReason := .none, waitingOn := .readyQueue }) fun _ =>
      .unblocked (fun h => nomatch h) fun _ h => nomatch h
  exact hset

/-- Getting the processor ends a block. -/
theorem running (h : Record a p q q') (n : Nat) :
    Record a p q { q' with status := .running, hasQuantum := n } := by
  cases h with
  | same _ hr hw => exact .same (.inr fun h => nomatch h) hr hw
  | unblocked _ hw => exact .unblocked (fun h => nomatch h) hw
  | blocked ha hon hw => exact .blocked ha hon hw
  | aside hr hw => exact .aside hr hw

theorem dispatchTo {k₀ : Kernel} (h : Record a p q (k.procs p)) (r : ProcId)
    (rest : List ProcId) (hk : k₀ = dispatchTo k r rest) : Record a p q (k₀.procs p) := by
  subst hk
  by_cases hp : p = r
  · subst hp
    have hself : (TpeSo.dispatchTo k p rest).procs p = { k.procs p with
        status := .running, hasQuantum := (k.procs p).priority } := by
      simp [TpeSo.dispatchTo, Kernel.setProc]
    rw [hself]
    exact h.running _
  · have hother : (TpeSo.dispatchTo k r rest).procs p = k.procs p := by
      simp [TpeSo.dispatchTo, Kernel.setProc, hp]
    rw [hother]
    exact h

theorem markBlocked (k : Kernel) (r : ProcId) (reason : BlockReason) (w : WaitRef)
    (h : p = r → Record a p (k.procs p)
      { k.procs p with status := .blocked, blockReason := reason, waitingOn := w }) :
    Record a p (k.procs p) ((markBlocked k r reason w).procs p) := by
  have hset := setProc (a := a) (p := p) k r (g := fun q =>
    { q with status := .blocked, blockReason := reason, waitingOn := w }) h
  exact hset

/-- The quantum says nothing about blocking. -/
theorem quantum (h : Record a p q q') (n : Nat) : Record a p q { q' with hasQuantum := n } := by
  cases h with
  | same hs hr hw => exact .same hs hr hw
  | unblocked hs hw => exact .unblocked hs hw
  | blocked ha hon hw => exact .blocked ha hon hw
  | aside hr hw => exact .aside hr hw

theorem leave {k₀ : Kernel} (hk : k₀.procs = k.procs) (r : ProcId) (reason : BlockReason)
    (w : WaitRef) (pend : Pending) (h : p = r → Record a p (k.procs p)
      { k.procs p with status := .blocked, blockReason := reason, waitingOn := w }) :
    Record a p (k.procs p) ((leave k₀ r reason w pend).procs p) := by
  have hprocs : (k₀.suspend pend).procs p = k.procs p := by rw [suspend_procs, hk]
  have hmark := markBlocked (a := a) (p := p) (k₀.suspend pend) r reason w
  rw [hprocs] at hmark
  by_cases hp : p = r
  · have hself : (TpeSo.leave k₀ r reason w pend).procs p =
        { (TpeSo.markBlocked (k₀.suspend pend) r reason w).procs p with hasQuantum := 0 } := by
      rw [hp]
      exact Kernel.procs_setProc_self _ _ _
    rw [hself]
    exact (hmark h).quantum 0
  · have hother : (TpeSo.leave k₀ r reason w pend).procs p =
        (TpeSo.markBlocked (k₀.suspend pend) r reason w).procs p := Kernel.procs_setProc_ne _ hp
    rw [hother]
    exact hmark h

end Record

/-- **Every edit.** -/
theorem Micro.record {a : Act} (hm : Micro φ k a ψ k') (p : ProcId) :
    Record a p (k.procs p) (k'.procs p) := by
  by_cases hoff : a.offSched
  · obtain ⟨hs, -⟩ := hm.schedSame hoff
    exact .same (.inl (hs.status p)) (hs.blockReason p) (hs.waitingOn p)
  cases hm with
  | quantum r n => exact .setProc k r fun _ => .same (.inl rfl) rfl rfl
  | refill n => exact .setProc k _ fun _ => .same (.inl rfl) rfl rfl
  | @wakeSleeper _ _ sp r => exact .procReady k r
  | dispatch => exact .dispatchTo (k := k) (.same (.inl rfl) rfl rfl) _ _ rfl
  | @preempt _ _ c r rest => exact .dispatchTo (.procReady k c) _ _ rfl
  | @blockSelf _ c w reason pend hc hw =>
    exact .leave (linkWaiter_procs k w c) c reason w pend fun hp => .blocked (by rw [hp]) hw rfl
  | @blockSleep _ c t =>
    have hlink : (linkSleeper k c t).procs = k.procs := rfl
    exact .leave hlink c .sleep .sleepers .sleep fun _ =>
      .aside (by simp) (by simp)
  | @blockOther _ r =>
    exact .markBlocked k r .arbitrary .null fun _ =>
      .aside (by simp) (by simp)
  | unblock | wakeParent | start => exact .procReady k _
  | @wake _ _ w r =>
    have hpop := SchedSame.popWaiter k w
    have hready := Record.procReady (a := .wake w r) (p := p) (popWaiter k w) r
    have hprocs : (popWaiter k w).procs p = k.procs p := by cases w <;> rfl
    rwa [hprocs] at hready
  | @startBare r => exact .procReady k.alloc r
  | kill r code =>
    by_cases hp : p = r
    · subst hp
      have hself : (bury k p code).procs p =
          { k.procs p with status := .zombie, exit := code } := by
        rw [bury, Kernel.procs_setProc_self, unlinkWaiting_procs, rmCurrent_procs]
      rw [hself]
      exact .same (.inr (by simp)) rfl rfl
    · rw [bury_procs_ne k code hp]
      exact .same (.inl rfl) rfl rfl
  | newProc =>
    by_cases hp : p = k.nextProc
    · subst hp
      dsimp only
      rw [Function.update_self]
      exact .unblocked (by simp) (by simp)
    · dsimp only
      rw [Function.update_of_ne hp]
      exact .same (.inl rfl) rfl rfl
  | @noPid r => exact .setProc k r fun _ => .same (.inl rfl) rfl rfl
  | @claimPid r _ i =>
    exact .setProc k r (g := fun q => { q with pid := i }) fun _ => .same (.inl rfl) rfl rfl
  | tick | tickLeaving | dropSleeper | stay | endKill | reapSelf | reapChild =>
    exact .same (.inl rfl) rfl rfl
  | _ => exact absurd trivial hoff

/-- **Only `my_sem_wait` blocks for a token**, and only its caller. -/
theorem step_semBlocked (hs : step k e = some (k', o)) (h : SemBlocked k' p) :
    SemBlocked k p ∨ ∃ id, e = .sysSemWait id ∧ k.currentProcess = some p := by
  refine (step_causes hs).invariant (fun _ k₁ => ∀ p, SemBlocked k₁ p →
    SemBlocked k p ∨ ∃ id, e = .sysSemWait id ∧ k.currentProcess = some p)
    (fun φ k₁ a ψ k₂ hI hC hm p hp => ?_) (fun _ hp => .inl hp) p h
  obtain ⟨hb, hr⟩ := hp
  cases hm.record p with
  | same hs hr' _ =>
    exact hI p ⟨(hs.resolve_right fun hs => hs hb).symm.trans hb, hr'.symm.trans hr⟩
  | unblocked hs => exact absurd hb hs
  | @blocked w pend ha hon =>
    subst ha
    rw [hr] at hon
    cases w with
    | semaphore id => exact .inr ⟨id, hC.1, hC.2⟩
    | _ => exact hon.elim
  | aside hr' => exact absurd hr hr'

/-- Whoever was last blocked on a semaphore was blocked for a token. -/
def Tagged (k : Kernel) : Prop :=
  ∀ p id, (k.procs p).waitingOn = .semaphore id → (k.procs p).blockReason = .semaphore

theorem Micro.tagged {a : Act} (h : Tagged k) (hm : Micro φ k a ψ k') : Tagged k' := by
  intro p id hw
  cases hm.record p with
  | same _ hr hw' => exact hr.trans (h p id (hw'.symm.trans hw))
  | unblocked _ hw' => exact absurd hw (hw' id)
  | @blocked w pend _ hon hw' =>
    rw [← hw', hw] at hon
    revert hon
    cases (k'.procs p).blockReason <;> first | exact fun _ => rfl | exact fun h => h.elim
  | aside _ hw' => exact absurd hw (hw' id)

theorem Tagged.step (h : Tagged k) (hs : TpeSo.step k e = some (k', o)) : Tagged k' :=
  (step_does hs).invariant (fun _ k => Tagged k) (fun _ _ _ _ _ hI _ hm => hm.tagged hI) h

/-! ### Who stays in the queue -/

/-- The edits that may take somebody out of the queue of `id`, or close it. -/
def Act.empties (id : Nat) : Act → Prop
  | .wake w _ => w = .semaphore id
  | .semCreate i _ | .semDestroy i | .semInc i => i = id
  | _ => False

/-- Every other edit leaves `p` in the queue, and the semaphore open. -/
theorem Micro.staysWakable {a : Act} (hm : Micro φ k a ψ k') (ha : ¬ a.empties id)
    (h : Wakable k id p) : Wakable k' id p := by
  by_cases hoff : a.offSem id
  · exact h.of_watched (hm.sem_watched hoff)
  cases hm with
  | @blockSelf _ c w reason pend hc hw =>
    obtain rfl : w = .semaphore id := not_not.mp hoff
    have hsem : (leave (linkWaiter k (.semaphore id) c) c reason (.semaphore id)
        pend).semaphores id = { k.semaphores id with
          waitingQueue := enqueue k.kmalloc (k.semaphores id).waitingQueue (some c) } := by
      rw [semaphores_leave]
      exact Function.update_self _ _ _
    refine .of_inUse h.1 (by rw [hsem]) ?_
    rw [hsem]
    cases k.kmalloc <;> simp [h.2]
  | @semTake _ i =>
    obtain rfl : i = id := not_not.mp hoff
    have hsem := semaphores_setSem_self k (fun s => { s with value := s.value - 1 }) i
    refine .of_inUse h.1 (by rw [hsem]) ?_
    rw [hsem]
    exact h.2
  | @semLinkNull _ i =>
    obtain rfl : i = id := not_not.mp hoff
    have hsem := semaphores_setSem_self k.alloc (fun s =>
      { s with waitingQueue := enqueue k.kmalloc s.waitingQueue none }) i
    refine .of_inUse h.1 (by rw [hsem]; rfl) ?_
    rw [hsem]
    have hmem : some p ∈ (k.alloc.semaphores i).waitingQueue := h.2
    cases k.kmalloc <;> simp [hmem]
  | wake => exact absurd (not_not.mp hoff) ha
  | semCreate | semDestroy | semInc => exact absurd (not_not.mp hoff) ha
  | _ => exact absurd trivial hoff

/-- The calls that may take somebody out of the queue of `id`, or close it. -/
def Event.empties (id : Nat) : Event → Prop
  | .sysCreateSem i _ | .sysCloseSem i | .sysSemPost i => i = id
  | _ => False

theorem step_staysWakable (hs : step k e = some (k', o)) (he : ¬ e.empties id)
    (h : Wakable k id p) : Wakable k' id p := by
  refine (step_does hs).invariant (fun _ k => Wakable k id p)
    (fun φ k₁ a ψ k₂ hI hC hm => hm.staysWakable (fun ha => he ?_) hI) h
  cases a with
  | wake w q =>
    cases ha
    cases hC
    rfl
  | semCreate i v | semDestroy i | semInc i =>
    cases ha
    cases hC
    rfl
  | _ => exact ha.elim

/-! ### The three calls -/

/-- A post wakes the first waiter, and leaves the others in the queue. -/
theorem mySemPost_stays {r : Kernel × Int} (h : mySemPost k id = .ok r) (hp : Wakable k id p) :
    (r.1.procs p).status = .ready ∨ Wakable r.1 id p := by
  obtain ⟨hopen, hp⟩ := hp
  have hqueue : ∀ v, (r.1.semaphores id).watched =
      (v, (k.semaphores id).inUse, (k.semaphores id).waitingQueue.tail) →
      some p ∈ (k.semaphores id).waitingQueue.tail → Wakable r.1 id p := by
    intro v hwatched hmem
    have htail : (r.1.semaphores id).waitingQueue = (k.semaphores id).waitingQueue.tail :=
      congrArg (fun s => s.2.2) hwatched
    exact .of_inUse hopen (congrArg (fun s => s.2.1) hwatched) (htail ▸ hmem)
  obtain ⟨hd, tl, htl⟩ := List.exists_cons_of_ne_nil (List.ne_nil_of_mem hp)
  have hfirst : firstWaiter k (.semaphore id) = hd := by
    show (k.semaphores id).waitingQueue.head?.join = hd
    rw [htl]
    rfl
  rw [htl] at hp
  cases hd with
  | none =>
    refine .inr (hqueue _ (mySemPost_raise hopen hfirst h).2 ?_)
    rw [htl]
    exact (List.mem_cons.mp hp).resolve_left fun h => nomatch h
  | some q =>
    rcases List.mem_cons.mp hp with hpq | hp
    · obtain rfl := Option.some.inj hpq
      left
      simp only [mySemPost, if_pos hopen] at h
      obtain ⟨k₁, hacq, h⟩ := Outcome.bind_eq_ok.mp h
      have hsem := Quiet.acquireSem hacq
      simp only [hsem.semQueue id, dequeue,
        show (k.semaphores id).waitingQueue.head?.join = some p from hfirst] at h
      cases h
      rw [procReady_procs_self]
    · refine .inr (hqueue _ (mySemPost_hand hopen hfirst h).2 ?_)
      rw [htl]
      exact hp

/-- An open semaphore is not created again. -/
theorem mySemCreate_open (hopen : semIsOpen k id = true) (v : Nat) :
    mySemCreate k id v = (k, -1) := by
  unfold semIsOpen at hopen
  rw [Bool.and_eq_true] at hopen
  exact if_neg fun h => nomatch h.2.symm.trans hopen.2

/-- A wait that finds a token, or no open semaphore, changes no process. -/
theorem mySemWait_procs {r : Kernel × Option Int} (h : mySemWait k id = .ok r)
    (hno : ¬ (semIsOpen k id = true ∧ (k.semaphores id).value = 0)) : r.1.procs = k.procs := by
  unfold mySemWait at h
  split at h
  · rename_i hopen
    obtain ⟨k₁, hacq, h⟩ := Outcome.bind_eq_ok.mp h
    have hq := Quiet.acquireSem hacq
    have hv : 0 < (k₁.semaphores id).value := by
      rw [hq.semValue id]
      exact Nat.pos_of_ne_zero fun hv => hno ⟨hopen, hv⟩
    rw [if_pos hv] at h
    cases h
    unfold acquireSem at hacq
    split at hacq
    · cases hacq
      rfl
    · cases hacq
  · cases h
    rfl

/-! ### One step -/

theorem Guarded.waitingOn (h : Guarded k) (hp : Wakable k id p) :
    (k.procs p).status = .blocked ∧ (k.procs p).waitingOn = .semaphore id :=
  h.waits.waiting (.semaphore id) (fun h => nomatch h) p (mem_waiters_semaphore.mpr hp.2)

/-- One queue is enough: nobody is in two. -/
theorem Guarded.wakable_unique (h : Guarded k) (hp : Wakable k id p) : ∃! id, Wakable k id p := by
  refine ⟨id, hp, fun i hi => ?_⟩
  have hw := (h.waitingOn hi).2.symm.trans (h.waitingOn hp).2
  exact WaitRef.semaphore.inj hw

/-- Who has just blocked is in the queue. -/
theorem wakable_of_semWait (hg : Guarded k) (hok : StrandsNobody k (.sysSemWait id))
    (hc : k.currentProcess = some p) (hs : step k (.sysSemWait id) = some (k', o))
    (hp : SemBlocked k' p) : Wakable k' id p := by
  obtain ⟨r, hr, he⟩ := Outcome.bind_eq_ok.mp (step_attempt hs)
  obtain ⟨rfl, -⟩ := Prod.mk.inj (Outcome.ok.inj he)
  by_cases hwaits : semIsOpen k id = true ∧ (k.semaphores id).value = 0
  · obtain ⟨hopen, hv⟩ := hwaits
    have hm : k.kmalloc = true := (hok hopen hv).resolve_left (by rw [hc]; exact fun h => nomatch h)
    have hwatched := (mySemWait_call hopen hv hc hr).2
    have hqueue : (r.1.semaphores id).waitingQueue =
        enqueue k.kmalloc (k.semaphores id).waitingQueue (some p) :=
      congrArg (fun s => s.2.2) hwatched
    refine .of_inUse hopen (congrArg (fun s => s.2.1) hwatched) ?_
    rw [hqueue, hm]
    simp
  · have hrun := hg.waits.current p hc
    have hb := hp.1
    rw [mySemWait_procs hr hwaits, hrun] at hb
    cases hb

/-- **A step that meets the condition strands nobody.** -/
theorem NobodyStranded.step (hg : Guarded k) (hg' : Guarded k') (h : NobodyStranded k)
    (hok : StrandsNobody k e) (hs : TpeSo.step k e = some (k', o)) : NobodyStranded k' := by
  intro p hp
  rcases step_semBlocked hs hp with hold | ⟨id, rfl, hc⟩
  · obtain ⟨id, hwakable, -⟩ := h p hold
    suffices hkept : Wakable k' id p from hg'.wakable_unique hkept
    by_cases he : e.empties id
    · cases e with
      | sysCreateSem i v =>
        obtain rfl : i = id := he
        have hcall := step_attempt hs
        change done (mySemCreate k i v).1 (mySemCreate k i v).2 = _ at hcall
        rw [mySemCreate_open hwakable.1] at hcall
        obtain ⟨rfl, -⟩ := Prod.mk.inj (Outcome.ok.inj hcall)
        exact hwakable
      | sysCloseSem i =>
        obtain rfl : i = id := he
        have hmem := mem_waiters_semaphore.mpr hwakable.2
        rw [hok hwakable.1] at hmem
        cases hmem
      | sysSemPost i =>
        obtain rfl : i = id := he
        obtain ⟨r, hr, hd⟩ := Outcome.bind_eq_ok.mp (step_attempt hs)
        obtain ⟨rfl, -⟩ := Prod.mk.inj (Outcome.ok.inj hd)
        refine (mySemPost_stays hr hwakable).resolve_left fun hready => ?_
        cases hready.symm.trans hp.1
      | _ => exact he.elim
    · exact step_staysWakable hs he hwakable
  · exact hg'.wakable_unique (wakable_of_semWait hg hok hc hs hp)

/-- Whoever was last blocked on a semaphore, and is in no queue of one, is stranded. -/
theorem Tagged.stranded (ht : Tagged k) (hp : Awaits k id p) (hno : ∀ i, ¬ Wakable k i p) :
    ¬ NobodyStranded k := by
  intro h
  obtain ⟨i, hi, -⟩ := h p ⟨hp.1, ht p id hp.2⟩
  exact hno i hi

/-- **A step that does not meet the condition strands somebody.** -/
theorem StrandsNobody.of_step (hg : Guarded k) (hg' : Guarded k') (ht' : Tagged k')
    (hs : TpeSo.step k e = some (k', o)) (h : NobodyStranded k') : StrandsNobody k e := by
  by_contra hno
  have hothers : ∀ id p, Awaits k' id p → ¬ Wakable k' id p → ∀ i, ¬ Wakable k' i p := by
    intro id p hp hnot i hi
    obtain rfl : i = id := WaitRef.semaphore.inj ((hg'.waitingOn hi).2.symm.trans hp.2)
    exact hnot hi
  cases e with
  | sysCloseSem id =>
    obtain ⟨hopen, hne⟩ := Classical.not_imp.mp hno
    obtain ⟨p, hp⟩ := List.exists_mem_of_ne_nil _ hne
    have hwaits := hg.waits.waiting (.semaphore id) (fun h => nomatch h) p hp
    have hcall := step_attempt hs
    change done (mySemDestroy k id).1 (mySemDestroy k id).2 = _ at hcall
    rw [mySemDestroy, if_pos hopen] at hcall
    obtain ⟨rfl, -⟩ := Prod.mk.inj (Outcome.ok.inj hcall)
    refine ht'.stranded (show Awaits _ id p from hwaits) (hothers id p hwaits fun hq => ?_) h
    have hmem := hq.2
    dsimp only at hmem
    rw [semaphores_setSem_self] at hmem
    cases hmem
  | sysSemWait id =>
    obtain ⟨hopen, hno⟩ := Classical.not_imp.mp hno
    obtain ⟨hv, hno⟩ := Classical.not_imp.mp hno
    rw [not_or] at hno
    obtain ⟨c, hc⟩ := Option.ne_none_iff_exists'.mp hno.1
    obtain ⟨r, hr, he⟩ := Outcome.bind_eq_ok.mp (step_attempt hs)
    obtain ⟨rfl, -⟩ := Prod.mk.inj (Outcome.ok.inj he)
    have hwaits : Awaits r.1 id c := mySemWait_awaits hg.waits hopen hv hc hr
    refine ht'.stranded hwaits (hothers id c hwaits fun hq => ?_) h
    have hret := (mySemWait_call hopen hv hc hr).1
    have hr' : mySemWait k id = .ok (r.1, none) := by rw [hr, ← hret]
    rcases (mySemWait_recorded hc hr').mp (mem_waiters_semaphore.mpr hq.2) with hm | hmem
    · exact hno.2 hm
    · have hb := (hg.waits.waiting (.semaphore id) (fun h => nomatch h) c hmem).1
      rw [hg.waits.current c hc] at hb
      cases hb
  | _ => exact hno trivial

/-! ### Every run -/

/-- A step of a run in which nobody else touches the waiters, and that strands nobody. -/
def SparesSems (k : Kernel) (e : Event) : Prop := SparesOthers k e ∧ StrandsNobody k e

instance (k : Kernel) (e : Event) : Decidable (SparesSems k e) :=
  inferInstanceAs (Decidable (_ ∧ _))

/-- **Nobody is stranded.**  In every run in which no semaphore is destroyed while somebody waits
    for it, and each process that has to wait gets its node, whoever is blocked for a token is in
    the queue of exactly one semaphore, which is open; and after such a run a step that does not
    meet the condition strands somebody. -/
theorem nobodyStranded_run (h : Run f SparesSems tr k) : NobodyStranded k ∧
    ∀ e k' o, SparesOthers k e → step k e = some (k', o) →
      (NobodyStranded k' ↔ StrandsNobody k e) := by
  obtain ⟨hg, ht, hn⟩ := h.invariant (fun k => Guarded k ∧ Tagged k ∧ NobodyStranded k)
    ⟨.boot f, (fun _ _ hw => nomatch hw), fun _ hp => nomatch hp.1⟩
    fun k e k' o hI hok hs =>
      have hg' := hI.1.others hok.1 hs
      ⟨hg', hI.2.1.step hs, hI.2.2.step hI.1 hg' hok.2 hs⟩
  refine ⟨hn, fun e k' o hok hs => ?_⟩
  have hg' := hg.others hok hs
  exact ⟨fun h' => .of_step hg hg' (ht.step hs) hs h', fun hstr => hn.step hg hg' hstr hs⟩

/-- `init` waits for a token, and its child has the processor. -/
def waitingInitEvents : List Event :=
  initRunsEvents ++ [.sysCreateSem 0 0,
    .sysSpawn { entry := some 3, fds := none, background := true }, .sysSemWait 0, .resume,
    .sysYield]

theorem nobodyStranded_waitingInit : ∃ tr k, Run (fun _ => true) SparesSems tr k ∧
    SemBlocked k 1 ∧ NobodyStranded k := by
  have hcheck : execCheck step SparesSems (fun _ k => (k.procs 1).status == .blocked &&
      (k.procs 1).blockReason == .semaphore) (boot fun _ => true) waitingInitEvents = true := by
    decide +kernel
  obtain ⟨tr, k, hrun, hQ⟩ := Trace.of_execCheck hcheck
  simp only [Bool.and_eq_true, beq_iff_eq] at hQ
  exact ⟨tr, k, hrun, hQ, (nobodyStranded_run hrun).1⟩

/-- **A semaphore is destroyed under its waiter**: `init` waits, and the child closes the
    semaphore. -/
theorem destroy_strands : ¬ ∀ tr k, Run (fun _ => true) SparesOthers tr k → NobodyStranded k := by
  intro hall
  have hcheck : execCheck step SparesOthers (fun _ k => (k.procs 1).status == .blocked &&
      (k.procs 1).blockReason == .semaphore && (k.procs 1).waitingOn == .semaphore 0 &&
      !semIsOpen k 0) (boot fun _ => true) (waitingInitEvents ++ [.sysCloseSem 0]) = true := by
    decide +kernel
  obtain ⟨tr, k, hrun, hQ⟩ := Trace.of_execCheck hcheck
  simp only [Bool.and_eq_true, beq_iff_eq, Bool.not_eq_true'] at hQ
  obtain ⟨⟨hblocked, hwaits⟩, hclosed⟩ := hQ
  have hg : Guarded k :=
    hrun.invariant Guarded (.boot _) fun _ _ _ _ hI hok hs => hI.others hok hs
  obtain ⟨id, hwakable, -⟩ := hall tr k hrun 1 hblocked
  obtain rfl : id = 0 := WaitRef.semaphore.inj ((hg.waitingOn hwakable).2.symm.trans hwaits)
  cases hclosed.symm.trans hwakable.1

end TpeSo
