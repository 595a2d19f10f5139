import Mathlib.Data.Finset.Card
import TpeSo.Sems.Tokens
import TpeSo.Sems.Waiting

namespace TpeSo

open Ds Lib

/-!
# Semaphores — returned calls

How many waits and trywaits have returned success is compared with the tokens that were put
in.  `sys_unblock` on a process that waits for a token makes its `my_sem_wait` return without
one; as long as that does not happen, every return is backed by a token.

* `unreturned k id` — how many processes have been released from `my_sem_wait` and have not
  run since;
* `step_backed` — a step that spares the waiters never spends more than it gains;
* `semReturns_run` — **returned calls never exceed the tokens**;
* `semReturns_unblock` — the run that breaks it: two processes inside a mutex.
-/

variable {k k' : Kernel} {e : Event} {o : Option Completion} {id v : Nat} {p c : ProcId}
  {tr : List (Kernel × Event × Option Completion)}

/-! ### What holds between two steps -/

/-- Waiting processes are linked as they should be, and exist. -/
structure Guarded (k : Kernel) : Prop where
  waits : Waits .run k
  stack : ∀ p v, k.kstack p = some v → p < k.nextProc

namespace Guarded

theorem boot (f : Nat → Bool) : Guarded (boot f) := ⟨.boot f, nofun⟩

theorem step (h : Guarded k) (hok : SparesWaiters k e) (hs : step k e = some (k', o)) :
    Guarded k' := by
  have hrun := (step_does hs).invariant
    (fun φ k₁ => Waits φ k₁ ∧ ∀ p v, k₁.kstack p = some v → p < k₁.nextProc)
    (fun _ _ _ _ _ hI hC hm => ⟨hm.waits hok hI.1 hC, fun _ _ hv => hm.stackBorn hI.1.born hI.2 hv⟩)
    ⟨h.waits, h.stack⟩
  exact ⟨hrun.1, hrun.2⟩

/-- Only a post on `id` releases a process that waits on it. -/
theorem released (h : Guarded k) (hok : SparesWaiters k e) (hs : TpeSo.step k e = some (k', o))
    (he : e ≠ .sysSemPost id) (p : ProcId) (hp : Released k' id p) : Released k id p := by
  have hrun := (step_does hs).invariant
    (fun φ k₁ => Waits φ k₁ ∧ (Released k₁ id p → Released k id p)) ?_ ⟨h.waits, fun hp => hp⟩
  · exact hrun.2 hp
  rintro φ k₁ a ψ k₂ ⟨hw, hrel⟩ hC hm
  refine ⟨hm.waits hok hw hC, fun hp => hrel (hm.released hok hw hC ?_ hp)⟩
  rintro q rfl
  exact he hC

end Guarded

/-! ### Counting -/

/-- How many processes have been released from a wait on `id` and have not returned yet. -/
def unreturned (k : Kernel) (id : Nat) : Nat :=
  ((Finset.range k.nextProc).filter (Released k id)).card

theorem mem_unreturned (h : Guarded k) :
    p ∈ (Finset.range k.nextProc).filter (Released k id) ↔ Released k id p := by
  rw [Finset.mem_filter, Finset.mem_range]
  exact and_iff_right_of_imp fun hp => h.stack p _ hp.1

theorem unreturned_le (id : Nat) (h : Guarded k) (hrel : ∀ p, Released k' id p → Released k id p) :
    unreturned k' id ≤ unreturned k id :=
  Finset.card_le_card fun p hp => (mem_unreturned h).mpr (hrel p (Finset.mem_filter.mp hp).2)

theorem unreturned_le_succ (h : Guarded k)
    (hrel : ∀ q, Released k' id q → q = p ∨ Released k id q) :
    unreturned k' id ≤ unreturned k id + 1 := by
  refine (Finset.card_le_card fun q hq => ?_).trans (Finset.card_insert_le p _)
  rw [Finset.mem_insert, mem_unreturned h]
  exact hrel q (Finset.mem_filter.mp hq).2

theorem unreturned_lt (h : Guarded k) (hrel : ∀ p, Released k' id p → Released k id p)
    (hc : Released k id c) (hc' : ¬ Released k' id c) : unreturned k' id < unreturned k id := by
  refine Finset.card_lt_card (Finset.ssubset_iff_subset_ne.mpr ⟨fun p hp => ?_, fun he => ?_⟩)
  · exact (mem_unreturned h).mpr (hrel p (Finset.mem_filter.mp hp).2)
  · have hmem := (mem_unreturned h).mpr hc
    rw [← he] at hmem
    exact hc' (Finset.mem_filter.mp hmem).2

/-! ### Reading a history -/

/-- A wait or trywait that has returned success. -/
def returns (id : Nat) : Kernel × Event × Option Completion → Bool
  | (_, _, some (.semWait i ret)) => i == id && ret == 0
  | (_, _, some (.semTrywait i ret)) => i == id && ret == 0
  | _ => false

/-- The value a semaphore is created with. -/
def created (id : Nat) : Kernel × Event × Option Completion → Option Nat
  | (_, .sysCreateSem i v, some (.other ret)) => if i = id ∧ ret = 0 then some v else none
  | _ => none

/-- What an entry spends: a call that returns success. -/
def spends (id : Nat) (x : Kernel × Event × Option Completion) : Nat :=
  if returns id x then 1 else 0

/-- What an entry puts in. -/
def gains (id : Nat) (x : Kernel × Event × Option Completion) : Nat :=
  ((created id x).getD 0) + if posts id x then 1 else 0

/-- The tokens of `id` are in its value or with a process that is about to return. -/
def backing (k : Kernel) (id : Nat) : Nat := unreturned k id + (k.semaphores id).value

/-! ### One step -/

theorem value_of_watched {s s' : Semaphore} (h : s'.watched = s.watched) : s'.value = s.value :=
  congrArg Prod.fst h

/-- Only the calls on `id`, and the return from a wait on it, show a return. -/
theorem returns_eq_false (hs : step k e = some (k', o)) (he : e.offSem id)
    (hres : ∀ c, k.currentProcess = some c → e = .resume → k.kstack c ≠ some (.semWait id)) :
    returns id (k, e, o) = false := by
  cases o with
  | none => rfl
  | some d =>
    rcases step_eq_some hs with ⟨-, -, h⟩ | ⟨hr, c, w, hc, hw, h⟩
    · have hends : e.completes d := enter_ends k e _ h d rfl
      cases d with
      | semWait i ret =>
        cases e <;> first | exact hends.elim | skip
        cases hends
        simp [returns, show i ≠ id from he]
      | semTrywait i ret =>
        cases e <;> first | exact hends.elim | skip
        cases hends
        simp [returns, show i ≠ id from he]
      | _ => rfl
    · have hends : w.completes d := resume_ends k c w _ h d rfl
      cases d with
      | semWait i ret =>
        cases w <;> first | exact hends.elim | skip
        obtain ⟨rfl, -⟩ := hends
        have hne : i ≠ id := by
          rintro rfl
          exact hres c hc hr hw
        simp [returns, hne]
      | semTrywait i ret => cases w <;> exact hends.elim
      | _ => rfl

/-- A process returns from `my_sem_wait`. -/
theorem backed_resume (h : Guarded k) (hc : k.currentProcess = some c)
    (hw : k.kstack c = some (.semWait id)) (hs : step k .resume = some (k', o)) :
    spends id (k, .resume, o) + backing k' id ≤ backing k id := by
  rcases step_eq_some hs with ⟨he, -⟩ | ⟨-, c', w', hc', hw', hr⟩
  · exact absurd rfl he
  · cases hc.symm.trans hc'
    cases hw.symm.trans hw'
    obtain ⟨rfl, rfl⟩ := Prod.mk.inj (Outcome.ok.inj hr)
    have hlt : unreturned { k with kstack := Function.update k.kstack c none } id <
        unreturned k id := by
      refine unreturned_lt h (fun p hp => ?_) ⟨hw, fun hb => ?_⟩ (c := c)
        fun hp => by simpa using hp.1
      · by_cases hpc : p = c
        · subst hpc
          exact absurd hp.1 (by simp)
        · exact ⟨by simpa [hpc] using hp.1, hp.2⟩
      · exact absurd (hb.1.symm.trans (h.waits.current c hc)) (by decide)
    have hspend : spends id (k, .resume, some (.semWait id 0)) ≤ 1 := by
      unfold spends
      split <;> decide
    unfold backing
    dsimp only at hlt ⊢
    omega

theorem backed_create (h : Guarded k) (hok : SparesWaiters k (.sysCreateSem id v))
    (hs : step k (.sysCreateSem id v) = some (k', o)) :
    spends id (k, .sysCreateSem id v, o) + backing k' id ≤
      backing k id + gains id (k, .sysCreateSem id v, o) := by
  have hle := unreturned_le id h (h.released hok hs nofun)
  unfold backing
  rcases step_eq_some hs with ⟨-, -, hr⟩ | ⟨he, -⟩
  · simp only [enter, mySemCreate, done] at hr
    split at hr
    · split at hr
      · obtain ⟨rfl, rfl⟩ := Prod.mk.inj (Outcome.ok.inj hr)
        have hgain : gains id (k, .sysCreateSem id v, some (.other 0)) = v := by
          simp [gains, created, posts]
        rw [hgain, semaphores_setSem_self]
        show 0 + (_ + v) ≤ _
        omega
      · obtain ⟨rfl, rfl⟩ := Prod.mk.inj (Outcome.ok.inj hr)
        show 0 + (_ + (k.semaphores id).value) ≤ _
        omega
    · obtain ⟨rfl, rfl⟩ := Prod.mk.inj (Outcome.ok.inj hr)
      show 0 + (_ + (k.semaphores id).value) ≤ _
      omega
  · cases he

/-- What a post leaves alone, when it hands its token to `p`. -/
theorem mySemPost_hand_frame {r : Kernel × Int} (hopen : semIsOpen k id = true)
    (hq : firstWaiter k (.semaphore id) = some p) (h : mySemPost k id = .ok r) :
    r.1.kstack = k.kstack ∧ ∀ q, q ≠ p → r.1.procs q = k.procs q := by
  simp only [mySemPost, if_pos hopen] at h
  obtain ⟨k₁, hacq, h⟩ := Outcome.bind_eq_ok.mp h
  have hsem := Quiet.acquireSem hacq
  simp only [hsem.semQueue id, dequeue, show (k.semaphores id).waitingQueue.head?.join = some p
    from hq] at h
  cases h
  have hprocs : k₁.procs = k.procs := by
    unfold acquireSem at hacq
    split at hacq
    · cases hacq
      rfl
    · cases hacq
  refine ⟨(kstack_procReady _ _).trans hsem.kstack, fun q hqp => ?_⟩
  rw [procReady_procs_ne _ hqp]
  exact congrFun hprocs q

/-- What a post leaves alone, when nobody waits. -/
theorem mySemPost_raise_frame {r : Kernel × Int} (hopen : semIsOpen k id = true)
    (hq : firstWaiter k (.semaphore id) = none) (h : mySemPost k id = .ok r) :
    r.1.kstack = k.kstack ∧ r.1.procs = k.procs := by
  simp only [mySemPost, if_pos hopen] at h
  obtain ⟨k₁, hacq, h⟩ := Outcome.bind_eq_ok.mp h
  have hsem := Quiet.acquireSem hacq
  simp only [hsem.semQueue id, dequeue, show (k.semaphores id).waitingQueue.head?.join = none
    from hq] at h
  cases h
  unfold acquireSem at hacq
  split at hacq
  · cases hacq
    exact ⟨rfl, rfl⟩
  · cases hacq

theorem backed_post (h : Guarded k) (hs : step k (.sysSemPost id) = some (k', o)) :
    spends id (k, .sysSemPost id, o) + backing k' id ≤
      backing k id + gains id (k, .sysSemPost id, o) := by
  rcases step_eq_some hs with ⟨-, -, hent⟩ | ⟨he, -⟩
  · obtain ⟨r, hr, he⟩ := Outcome.bind_eq_ok.mp hent
    clear hent
    obtain ⟨rfl, rfl⟩ := Prod.mk.inj (Outcome.ok.inj he)
    by_cases hopen : semIsOpen k id = true
    · cases hq : firstWaiter k (.semaphore id) with
      | some p =>
        obtain ⟨hret, hsem⟩ := mySemPost_hand hopen hq hr
        obtain ⟨hstack, hprocs⟩ := mySemPost_hand_frame hopen hq hr
        have hle : unreturned r.1 id ≤ unreturned k id + 1 := by
          refine unreturned_le_succ (p := p) h fun q hrel => or_iff_not_imp_left.mpr fun hqp => ?_
          unfold Released Awaits at hrel
          rwa [hstack, hprocs q hqp] at hrel
        have hgain : gains id (k, .sysSemPost id, some (.semPost id r.2)) = 1 := by
          simp [gains, created, posts, hret]
        have hvalue : (r.1.semaphores id).value = (k.semaphores id).value := congrArg Prod.fst hsem
        rw [hgain, backing, backing, hvalue]
        show 0 + _ ≤ _
        omega
      | none =>
        obtain ⟨hret, hsem⟩ := mySemPost_raise hopen hq hr
        obtain ⟨hstack, hprocs⟩ := mySemPost_raise_frame hopen hq hr
        have hle : unreturned r.1 id ≤ unreturned k id := by
          refine unreturned_le id h fun q hrel => ?_
          unfold Released Awaits at hrel
          rwa [hstack, hprocs] at hrel
        have hgain : gains id (k, .sysSemPost id, some (.semPost id r.2)) = 1 := by
          simp [gains, created, posts, hret]
        have hvalue : (r.1.semaphores id).value = ((k.semaphores id).value + 1) % word :=
          congrArg Prod.fst hsem
        have hmod := Nat.mod_le ((k.semaphores id).value + 1) word
        rw [hgain, backing, backing, hvalue]
        show 0 + _ ≤ _
        omega
    · simp only [mySemPost, if_neg hopen] at hr
      cases hr
      show 0 + backing k id ≤ _
      omega
  · cases he

theorem backed_wait (h : Guarded k) (hok : SparesWaiters k (.sysSemWait id))
    (hc : k.currentProcess ≠ none) (hs : step k (.sysSemWait id) = some (k', o)) :
    spends id (k, .sysSemWait id, o) + backing k' id ≤ backing k id := by
  have hle := unreturned_le id h (h.released hok hs nofun)
  rcases step_eq_some hs with ⟨-, -, hent⟩ | ⟨he, -⟩
  · obtain ⟨r, hr, he⟩ := Outcome.bind_eq_ok.mp hent
    clear hent
    obtain ⟨rfl, rfl⟩ := Prod.mk.inj (Outcome.ok.inj he)
    unfold backing
    by_cases hopen : semIsOpen k id = true
    · obtain ⟨c, hc⟩ := Option.ne_none_iff_exists'.mp hc
      by_cases hv : (k.semaphores id).value = 0
      · obtain ⟨hret, hsem⟩ := mySemWait_call hopen hv hc hr
        have hvalue : (r.1.semaphores id).value = (k.semaphores id).value := congrArg Prod.fst hsem
        rw [hret, hvalue]
        show 0 + _ ≤ _
        omega
      · obtain ⟨hret, hsem⟩ := mySemWait_take hopen (Nat.pos_of_ne_zero hv) hr
        have hvalue : (r.1.semaphores id).value = (k.semaphores id).value - 1 :=
          congrArg Prod.fst hsem
        have hspend : spends id (k, .sysSemWait id, r.2.map (.semWait id)) = 1 := by
          simp [spends, returns, hret]
        rw [hspend, hvalue]
        omega
    · simp only [mySemWait, if_neg hopen] at hr
      cases hr
      have hspend : spends id (k, .sysSemWait id, some (.semWait id (-1))) = 0 := by
        simp [spends, returns]
      show spends id (k, .sysSemWait id, some (.semWait id (-1))) + (unreturned k id + _) ≤ _
      rw [hspend, Nat.zero_add]
  · cases he

theorem backed_trywait (h : Guarded k) (hok : SparesWaiters k (.sysSemTrywait id))
    (hs : step k (.sysSemTrywait id) = some (k', o)) :
    spends id (k, .sysSemTrywait id, o) + backing k' id ≤ backing k id := by
  have hle := unreturned_le id h (h.released hok hs nofun)
  rcases step_eq_some hs with ⟨-, -, hent⟩ | ⟨he, -⟩
  · obtain ⟨r, hr, he⟩ := Outcome.bind_eq_ok.mp hent
    clear hent
    obtain ⟨rfl, rfl⟩ := Prod.mk.inj (Outcome.ok.inj he)
    unfold backing
    by_cases hopen : semIsOpen k id = true
    · by_cases hv : (k.semaphores id).value = 0
      · obtain ⟨hret, hsem⟩ := mySemTrywait_fail hopen hv hr
        have hspend : spends id (k, .sysSemTrywait id, some (.semTrywait id r.2)) = 0 := by
          simp [spends, returns, hret]
        rw [hspend, value_of_watched hsem]
        omega
      · obtain ⟨hret, hsem⟩ := mySemTrywait_take hopen (Nat.pos_of_ne_zero hv) hr
        have hvalue : (r.1.semaphores id).value = (k.semaphores id).value - 1 :=
          congrArg Prod.fst hsem
        have hspend : spends id (k, .sysSemTrywait id, some (.semTrywait id r.2)) = 1 := by
          simp [spends, returns, hret]
        rw [hspend, hvalue]
        omega
    · simp only [mySemTrywait, if_neg hopen] at hr
      cases hr
      have hspend : spends id (k, .sysSemTrywait id, some (.semTrywait id (-1))) = 0 := by
        simp [spends, returns]
      rw [hspend, Nat.zero_add]
  · cases he

/-- **Who finds no token waits for one.** -/
theorem mySemWait_awaits (h : Waits .run k) (hopen : semIsOpen k id = true)
    (hv : (k.semaphores id).value = 0) (hc : k.currentProcess = some c) {r : Kernel × Option Int}
    (hr : mySemWait k id = .ok r) : Awaits r.1 id c := by
  simp only [mySemWait, if_pos hopen] at hr
  obtain ⟨k₁, hacq, hr⟩ := Outcome.bind_eq_ok.mp hr
  have hq := Quiet.acquireSem hacq
  rw [if_neg (by rw [hq.semValue id, hv]; exact lt_irrefl 0)] at hr
  obtain ⟨k₂, hb, he⟩ := Outcome.bind_eq_ok.mp hr
  cases he
  have hc₁ : (releaseSem k₁ id).currentProcess = some c := hq.current.trans hc
  have hk : releaseSem (k₁.alloc.setSem id fun s =>
      { s with waitingQueue := enqueue k₁.kmalloc s.waitingQueue k₁.currentProcess }) id =
      linkWaiter (releaseSem k₁ id) (.semaphore id) c := by
    simp [releaseSem, linkWaiter, Kernel.setSem, Kernel.alloc, Kernel.kmalloc, hq.current, hc]
  rw [hk] at hb
  have hsame := SchedSame.of_quiet (hq.trans (.releaseSem k₁ id))
  have h₁ : Waits .run (releaseSem k₁ id) := h.schedSame hsame (h.born.of_schedSame hsame)
  have hblocks : BlocksOn .semaphore (.semaphore id) (.semWait id) := rfl
  have hleave := h₁.leave hc₁ hblocks (h₁.born.step (.blockSelf .semaphore (.semWait id) hc₁ hblocks))
  have hc₂ : (linkWaiter (releaseSem k₁ id) (.semaphore id) c).currentProcess = some c := hc₁
  simp only [blockCurrent, suspend_currentProcess, hc₂] at hb
  -- the process is blocked now, and the switch leaves it so
  have hspares : SparesWaiters k (.sysSemWait id) := ⟨rfl, rfl, by simp [unblockTarget]⟩
  refine ((does_leave (Routine.origin k (.sysSemWait id)).common ((Routine.origin k (.sysSemWait id)).preempts _)
    hc₂ hb).invariant
    (fun φ k => Waits φ k ∧ Awaits k id c) ?_ ⟨hleave, ?_⟩).2
  · rintro φ k₃ a ψ k₄ ⟨hw, ha⟩ hC hm
    refine ⟨hm.waits hspares hw hC, hm.awaits hspares hw hC ?_ ha⟩
    rintro q rfl
    cases hC
  · simp [Awaits, leave, markBlocked, Kernel.setProc, Kernel.alloc]

/-- **No step spends more than it gains.** -/
theorem step_backed (h : Guarded k) (hok : SparesWaiters k e) (hsem : SemStep id k e)
    (hs : step k e = some (k', o)) :
    spends id (k, e, o) + backing k' id ≤ backing k id + gains id (k, e, o) := by
  by_cases hres : ∃ c, k.currentProcess = some c ∧ e = .resume ∧ k.kstack c = some (.semWait id)
  · obtain ⟨c, hc, rfl, hw⟩ := hres
    exact (backed_resume h hc hw hs).trans (Nat.le_add_right _ _)
  by_cases he : e.offSem id
  · have hle := unreturned_le id h (h.released hok hs fun hp => by
      subst hp
      exact he rfl)
    have hspend : spends id (k, e, o) = 0 := by
      have hret := returns_eq_false hs he fun c hc hr hw => hres ⟨c, hc, hr, hw⟩
      simp [spends, hret]
    rw [hspend, backing, backing, value_of_watched (step_offSem hs he)]
    omega
  · cases e with
    | sysCreateSem i n =>
      obtain rfl : i = id := not_not.mp he
      exact backed_create h hok hs
    | sysCloseSem i => exact absurd hsem he
    | sysSemPost i =>
      obtain rfl : i = id := not_not.mp he
      exact backed_post h hs
    | sysSemWait i =>
      obtain rfl : i = id := not_not.mp he
      exact (backed_wait h hok (hsem rfl) hs).trans (Nat.le_add_right _ _)
    | sysSemTrywait i =>
      obtain rfl : i = id := not_not.mp he
      exact (backed_trywait h hok hs).trans (Nat.le_add_right _ _)
    | _ => exact absurd trivial he

/-! ### Whole runs -/

theorem countP_posts_append (x : Kernel × Event × Option Completion) :
    (tr ++ [x]).countP (posts id) = tr.countP (posts id) + if posts id x then 1 else 0 := by
  rw [List.countP_append, List.countP_singleton]

/-- Only `my_sem_destroy` closes a semaphore. -/
theorem Micro.semInUse {φ ψ : Phase} {a : Act} (hm : Micro φ k a ψ k') (ha : a ≠ .semDestroy id)
    (h : (k.semaphores id).inUse = true) : (k'.semaphores id).inUse = true := by
  by_cases hoff : a.offSem id
  · exact (congrArg (fun s => s.2.1) (hm.sem_watched hoff)).trans h
  cases hm with
  | @blockSelf _ c w =>
    obtain rfl : w = .semaphore id := not_not.mp hoff
    rw [semaphores_leave]
    simpa [linkWaiter, Kernel.alloc] using h
  | @wake _ _ w p =>
    obtain rfl : w = .semaphore id := not_not.mp hoff
    rw [semaphores_procReady]
    simpa [popWaiter] using h
  | @semCreate _ i =>
    obtain rfl : i = id := not_not.mp hoff
    simp
  | semDestroy i => exact absurd (congrArg Act.semDestroy (not_not.mp hoff)) ha
  | @semTake _ i =>
    obtain rfl : i = id := not_not.mp hoff
    simpa using h
  | @semInc _ i =>
    obtain rfl : i = id := not_not.mp hoff
    simpa [popWaiter] using h
  | @semLinkNull _ i =>
    obtain rfl : i = id := not_not.mp hoff
    simpa [Kernel.alloc] using h
  | _ => exact absurd trivial hoff

theorem step_semInUse (hsem : SemStep id k e) (hs : step k e = some (k', o))
    (h : (k.semaphores id).inUse = true) : (k'.semaphores id).inUse = true := by
  refine (step_does hs).invariant (fun _ k => (k.semaphores id).inUse = true) ?_ h
  intro φ k₁ a ψ k₂ h₁ hC hm
  refine hm.semInUse ?_ h₁
  rintro rfl
  cases hC
  exact hsem rfl

/-- A semaphore is only created while it is not in use. -/
theorem step_created (hs : step k e = some (k', o)) (hv : created id (k, e, o) = some v) :
    (k.semaphores id).inUse = false ∧ (k'.semaphores id).inUse = true := by
  cases e <;> try cases hv
  rename_i i n
  cases o with
  | none => cases hv
  | some c =>
    cases c <;> try cases hv
    rename_i ret
    simp only [created] at hv
    split at hv
    · rename_i hid
      obtain ⟨rfl, rfl⟩ := hid
      rcases step_eq_some hs with ⟨-, -, hr⟩ | ⟨he, -⟩
      · simp only [enter, mySemCreate, done] at hr
        split at hr
        · rename_i hfree
          split at hr
          · obtain ⟨rfl, -⟩ := Prod.mk.inj (Outcome.ok.inj hr)
            exact ⟨hfree.2, by simp⟩
          · cases hr
        · cases hr
      · cases he
    · cases hv

/-- No return is unbacked: what has been spent is covered by what was put in. -/
theorem backed_run {f : Nat → Bool}
    (h : Run f (fun k e => SparesWaiters k e ∧ SemStep id k e) tr k) :
    tr.countP (returns id) + backing k id ≤
      (tr.filterMap (created id)).sum + tr.countP (posts id) := by
  have hinv := h.invariant_history (fun tr k => Guarded k ∧
    tr.countP (returns id) + backing k id ≤
      (tr.filterMap (created id)).sum + tr.countP (posts id)) ?_ ?_
  · exact hinv.2
  · exact ⟨.boot f, le_rfl⟩
  · rintro tr k e k' o - ⟨hg, hle⟩ ⟨hok, hsem⟩ hs
    refine ⟨hg.step hok hs, ?_⟩
    have hstep := step_backed hg hok hsem hs
    have hcreated : ((tr ++ [(k, e, o)]).filterMap (created id)).sum =
        (tr.filterMap (created id)).sum + (created id (k, e, o)).getD 0 := by
      rw [List.filterMap_append, List.sum_append]
      cases hx : created id (k, e, o) <;> simp [hx]
    rw [countP_posts_append, hcreated, List.countP_append, List.countP_singleton]
    unfold spends gains at hstep
    omega

/-- The creations in a run without destruction: at most one, and only of a semaphore in
    use. -/
theorem created_run {f : Nat → Bool} {ok : Kernel → Event → Prop}
    (h : Run f (fun k e => ok k e ∧ SemStep id k e) tr k)
    (hv : v ∈ tr.filterMap (created id)) : tr.filterMap (created id) = [v] := by
  have hinv := h.invariant_history (fun tr k => tr.filterMap (created id) = [] ∨
    ((k.semaphores id).inUse = true ∧ ∃ v, tr.filterMap (created id) = [v])) (.inl rfl) ?_
  · rcases hinv with hnil | ⟨-, w, hw⟩
    · rw [hnil] at hv
      cases hv
    · rw [hw] at hv ⊢
      rw [List.mem_singleton.mp hv]
  · rintro tr k e k' o - hI ⟨-, hsem⟩ hs
    rw [List.filterMap_append]
    cases hx : created id (k, e, o) with
    | none =>
      rcases hI with hnil | ⟨huse, w, hw⟩
      · exact .inl (by simp [hnil, hx])
      · exact .inr ⟨step_semInUse hsem hs huse, w, by simp [hw, hx]⟩
    | some w =>
      obtain ⟨hfree, huse⟩ := step_created hs hx
      rcases hI with hnil | ⟨huse', -⟩
      · exact .inr ⟨huse, w, by simp [hnil, hx]⟩
      · rw [hfree] at huse'
        cases huse'

/-- **Returns are backed by tokens.**  In every run in which nobody is killed or sleeps, and
    in which `sys_unblock` only readies processes that wait for no resource: of a semaphore
    created with `v` tokens, no more waits and trywaits have returned success than there were
    tokens and posts. -/
theorem semReturns_run {f : Nat → Bool}
    (h : Run f (fun k e => SparesWaiters k e ∧ SemStep id k e) tr k)
    (hcreate : v ∈ tr.filterMap (created id)) :
    tr.countP (returns id) ≤ v + tr.countP (posts id) := by
  have hbacked := backed_run h
  rw [created_run h hcreate, List.sum_singleton] at hbacked
  omega

/-- `idle` creates a mutex, takes it and posts; `init` has waited in the meantime, and
    returns. -/
def mutexEvents : List Event :=
  [.sysSpawn { entry := some 1, fds := none, background := false },
   .sysSpawn { entry := some 2, fds := none, background := true },
   .timer, .sysCreateSem 5 1, .sysSemWait 5, .sysYield, .sysSemWait 5, .resume, .sysSemPost 5,
   .timer, .timer, .resume]

theorem semReturns_run_mutex : ∃ tr k,
    Run (fun _ => true) (fun k e => SparesWaiters k e ∧ SemStep 5 k e) tr k ∧
    tr.filterMap (created 5) = [1] ∧ tr.countP (returns 5) = 2 ∧
    tr.countP (returns 5) ≤ 1 + tr.countP (posts 5) := by
  have hcheck : execCheck step (fun k e => SparesWaiters k e ∧ SemStep 5 k e)
      (fun tr _ => tr.filterMap (created 5) == [1] && tr.countP (returns 5) == 2)
      (boot fun _ => true) mutexEvents = true := by decide +kernel
  obtain ⟨tr, k, hrun, hQ⟩ := Trace.of_execCheck hcheck
  simp only [Bool.and_eq_true, beq_iff_eq] at hQ
  exact ⟨tr, k, hrun, hQ.1, hQ.2, semReturns_run hrun (by simp [hQ.1])⟩

/-- The semaphore calls, `sys_block` and `sys_unblock`, with what it takes to have processes
    and to switch between them. -/
def semAdminEvent : Event → Bool
  | .timer | .user _ | .resume | .sysSpawn _ | .sysYield | .sysBlock _ | .sysUnblock _
  | .sysCreateSem _ _ | .sysSemPost _ | .sysSemWait _ | .sysSemTrywait _ => true
  | _ => false

/-- `init` waits for the mutex that `idle` has taken; `idle` unblocks it. -/
def unblockEvents : List Event :=
  [.sysSpawn { entry := some 1, fds := none, background := false },
   .sysSpawn { entry := some 2, fds := none, background := true },
   .timer, .sysCreateSem 5 1, .sysSemWait 5, .sysYield, .sysSemWait 5, .resume, .sysUnblock 1,
   .timer, .timer, .resume]

/-- **`sys_unblock` lets two processes into a mutex.** -/
theorem semReturns_unblock : ¬ ∀ tr k,
    Run (fun _ => true) (fun k e => semAdminEvent e ∧ SemStep 5 k e) tr k →
    ∀ v ∈ tr.filterMap (created 5), tr.countP (returns 5) ≤ v + tr.countP (posts 5) := by
  intro hall
  have hcheck : execCheck step (fun k e => semAdminEvent e = true ∧ SemStep 5 k e)
      (fun tr _ => tr.filterMap (created 5) == [1] && tr.countP (returns 5) == 2 &&
        tr.countP (posts 5) == 0)
      (boot fun _ => true) unblockEvents = true := by decide +kernel
  obtain ⟨tr, k, hrun, hQ⟩ := Trace.of_execCheck hcheck
  simp only [Bool.and_eq_true, beq_iff_eq] at hQ
  obtain ⟨⟨hcreated, hreturns⟩, hposts⟩ := hQ
  have hle := hall tr k hrun 1 (by simp [hcreated])
  rw [hreturns, hposts] at hle
  exact absurd hle (by decide)

end TpeSo
