import TpeSo.Sems.Returns

namespace TpeSo

open Ds Lib

/-!
# Semaphores — runs in which processes exit

An exit takes away the process that runs, which is in no queue; whoever waits goes on
waiting.  So what `Waits` says also holds in runs in which processes end, as long as nobody
is killed by somebody else.

* `SparesOthers k e` — nobody is killed but by its own exit;
* `Phase.outside` — while a process dies, the rest of the kernel is as in user mode;
* `Micro.exit` — the edits of an exit keep the links and the waits;
* `Guarded.others`, `Guarded.awaits` — what an entry keeps;
* `step_semWait`, `step_semPost` — what the two calls do to value and waiters.
-/

variable {φ ψ : Phase} {k k' k₀ : Kernel} {e : Event} {o : Option Completion} {p c : ProcId}
  {id : Nat} {code : Int}

/-- Nobody is killed but by its own exit, nobody goes to sleep, and `sys_unblock` is only used
    on processes that wait for no resource. -/
structure SparesOthers (k : Kernel) (e : Event) : Prop where
  noKill : killTarget k e = none ∨ ∃ code, e = .sysExit code
  noSleep : sleepTick k e = none
  unblock : ∀ p ∈ unblockTarget k e, (k.procs p).status = .blocked →
    (k.procs p).blockReason = .arbitrary ∨ (k.procs p).blockReason = .child

/-- The entry is a `sys_exit`. -/
def Event.isExit : Event → Bool
  | .sysExit _ => true
  | _ => false

theorem Event.isExit_iff : e.isExit = true ↔ ∃ code, e = .sysExit code := by
  cases e <;> simp [isExit]

instance (k : Kernel) (e : Event) : Decidable (SparesOthers k e) :=
  decidable_of_iff
    ((killTarget k e = none ∨ e.isExit = true) ∧ sleepTick k e = none ∧
      ∀ p ∈ unblockTarget k e, (k.procs p).status = .blocked →
        (k.procs p).blockReason = .arbitrary ∨ (k.procs p).blockReason = .child)
    ⟨fun h => ⟨h.1.imp_right Event.isExit_iff.mp, h.2.1, h.2.2⟩,
      fun h => ⟨h.noKill.imp_right Event.isExit_iff.mpr, h.noSleep, h.unblock⟩⟩

/-- An entry either spares the waiters, or is an exit. -/
theorem SparesOthers.cases (h : SparesOthers k e) :
    SparesWaiters k e ∨ ∃ code, e = .sysExit code :=
  h.noKill.imp_left fun hk => ⟨hk, h.noSleep, h.unblock⟩

theorem SparesWaiters.timer (k : Kernel) : SparesWaiters k .timer := ⟨rfl, rfl, nofun⟩

/-- Whatever an exit does apart from the kill, a tick of the timer may do. -/
theorem Origin.of_exit {a : Act} (h : Origin k₀ (.sysExit code) k a) (ha : ∀ q, a ≠ .kill q) :
    Origin k₀ .timer k a := by
  unfold Origin
  split
  all_goals first
    | trivial
    | exact absurd rfl (ha _)
    | simp [Origin, Reaches] at h

/-! ### While a process dies -/

/-- While a process dies, the rest of the kernel is as in user mode. -/
def Phase.outside : Phase → Phase
  | .dying _ => .run
  | φ => φ

/-- Nobody is being killed where `Waits` holds. -/
theorem Waits.outside (h : Waits φ k) : Waits φ.outside k := by
  cases φ with
  | dying p => exact h.setup.elim
  | _ => exact h

/-- The current process is buried. -/
theorem Waits.bury (h : Waits .run k) (hc : k.currentProcess = some p) (code : Int)
    (hborn : Born .run (bury k p code)) : Waits .run (TpeSo.bury k p code) := by
  have hrun : (k.procs p).status = .running := h.current p hc
  have hfree := h.toLinked.notMem_waiters (p := p) (by simp [hrun])
  have hready : p ∉ k.readyProcesses := fun hp => by
    have hs := h.ready p hp
    rw [hrun] at hs
    cases hs
  have hsub := waiters_bury_sublist k p code
  refine ⟨h.toLinked.change p (fun q hq => bury_procs_ne k code hq) hfree
    ((hsub .readyQueue).nodup h.readyNodup) (fun q hq => ?_) (bury_sleepingProcs k p code)
    (fun v hv => .inl ?_) (fun hb => ?_), hborn, fun c hc' => ?_, nofun, trivial⟩
  · have hq' := (hsub .readyQueue).subset hq
    have hqp : q ≠ p := by
      rintro rfl
      exact hready hq'
    rw [if_neg hqp]
    exact hq'
  · -- `p` is in no queue, so nothing is unlinked
    rw [waiters_bury, ← waiters_rmCurrent k p]
    by_cases hself : v = ((rmCurrent k p).procs p).waitingOn ∧ ∀ id, v ≠ .semaphore id
    · rw [waiters_unlinkWaiting_self _ p hself.1.symm hself.2]
      exact List.erase_of_not_mem (by simpa using hfree v hv)
    · refine waiters_unlinkWaiting_ne _ p rfl ?_
      by_contra hno
      rw [not_or, not_not] at hno
      exact hself ⟨hno.1, fun id hid => hno.2 ⟨id, hid ▸ hno.1.symm⟩⟩
  · simp [TpeSo.bury] at hb
  · exact absurd hrun (current_of_bury hc').2

/-- What `proc_kill` does to the rest of the kernel: what might be done in user mode, or
    nothing, or it wakes a process that waits for a child, or clears a place in the table. -/
theorem Micro.of_dying {a : Act} (hm : Micro (.dying p) k a ψ k') : ψ.outside = .run ∧
    (Micro .run k a .run k' ∨ k' = k ∨
      (∃ q, (k.procs q).status = .blocked ∧ (k.procs q).blockReason = .child ∧
        k' = procReady k (some q)) ∨ ∃ q, k' = forgetPid k q) := by
  have hrun : Phase.serving .run := .inl rfl
  cases hm with
  | quiet h => exact ⟨rfl, .inl (.quiet h)⟩
  | wake hφ hw => exact ⟨rfl, .inl (.wake hrun hw)⟩
  | dropRef hφ he => exact ⟨rfl, .inl (.dropRef hrun he)⟩
  | clearSlot hφ he => exact ⟨rfl, .inl (.clearSlot hrun he)⟩
  | freeUnref hφ hr hw => exact ⟨rfl, .inl (.freeUnref hrun hr hw)⟩
  | wakeParent hs hr => exact ⟨rfl, .inr (.inr (.inl ⟨_, hs, hr, rfl⟩))⟩
  | endKill => exact ⟨rfl, .inr (.inl rfl)⟩
  | reapSelf => exact ⟨rfl, .inr (.inr (.inr ⟨p, rfl⟩))⟩
  | wakeSleeper hφ => rcases hφ with hφ | hφ <;> cases hφ
  | dropSleeper hφ => rcases hφ with hφ | hφ <;> cases hφ
  | stay hφ => rcases hφ with hφ | hφ <;> cases hφ
  | refill n hφ => rcases hφ with hφ | hφ <;> cases hφ
  | dispatch hφ => rcases hφ with hφ | hφ <;> cases hφ
  | preempt hφ => rcases hφ with hφ | hφ <;> cases hφ

/-- A process that waits for a child is woken. -/
theorem Waits.wakeParent (h : Waits .run k) (hs : (k.procs p).status = .blocked)
    (hr : (k.procs p).blockReason = .child) : Waits .run (TpeSo.procReady k (some p)) := by
  refine h.procReady hs (fun w hw hp => ?_) rfl
  have hnull := (h.waiting w hw p hp).2
  rw [h.idle p hs (.inr hr)] at hnull
  subst hnull
  cases hp

/-- **Every edit of an exit** keeps the links, and keeps whoever waits for a token waiting. -/
theorem Micro.exit {a : Act} (h : Waits φ.outside k) (ho : Origin k₀ (.sysExit code) k a)
    (hm : Micro φ k a ψ k') : Waits ψ.outside k' ∧ ∀ id p, Awaits k id p → Awaits k' id p := by
  by_cases hkill : ∃ q, a = .kill q
  · obtain ⟨q, rfl⟩ := hkill
    obtain ⟨hcalm, hq⟩ := ho
    have hborn := hm
    cases hm with
    | kill _ code =>
      have hc : k.currentProcess = some q := by
        rw [hcalm.current]
        exact (Option.filter_eq_some_iff.mp hq).1
      refine ⟨h.bury hc code ((h.born.step hborn).phase nofun), fun id p hp => ?_⟩
      have hpq : p ≠ q := by
        rintro rfl
        exact absurd (hp.1.symm.trans (h.current p hc)) (by decide)
      exact hp.congr (bury_procs_ne k code hpq)
  · have hspares := SparesWaiters.timer k₀
    have ho' := ho.of_exit fun q hq => hkill ⟨q, hq⟩
    have hwake : ∀ id q, a ≠ .wake (.semaphore id) q := by
      rintro id q rfl
      cases ho
    have houtside : ∀ {χ χ'}, Waits χ k → Micro χ k a χ' k' →
        Waits χ'.outside k' ∧ ∀ id p, Awaits k id p → Awaits k' id p := fun hχ hμ =>
      ⟨(hμ.waits hspares hχ ho').outside, fun id p => hμ.awaits hspares hχ ho' (hwake id)⟩
    cases φ with
    | dying q =>
      obtain ⟨hψ, hm⟩ := hm.of_dying
      rw [hψ]
      rcases hm with hm | rfl | ⟨r, hs, hr, rfl⟩ | ⟨r, rfl⟩
      · exact houtside h hm
      · exact ⟨h, fun _ _ hp => hp⟩
      · refine ⟨h.wakeParent hs hr, fun id p hp => ?_⟩
        have hpr : p ≠ r := by
          rintro rfl
          have hnull := hp.2
          rw [h.idle p hs (.inr hr)] at hnull
          cases hnull
        exact hp.congr (procReady_procs_ne k hpr)
      · exact ⟨⟨{ h.toLinked with waiting := fun w => h.waiting w, waitNodup := fun w => h.waitNodup w },
          { h.born with waiting := h.born.waiting }, h.current, h.leaver, h.setup⟩, fun _ _ hp => hp⟩
    | _ => exact houtside h hm

/-! ### Whole entries -/

/-- **What an entry keeps**, when nobody is killed by somebody else. -/
theorem Guarded.others (h : Guarded k) (hok : SparesOthers k e) (hs : TpeSo.step k e = some (k', o)) :
    Guarded k' := by
  rcases hok.cases with hok | ⟨code, rfl⟩
  · exact h.step hok hs
  have hrun := (step_does hs).invariant
    (fun φ k => Waits φ.outside k ∧ ∀ p v, k.kstack p = some v → p < k.nextProc)
    (fun φ _ _ _ _ hI hC hm => ⟨(hm.exit hI.1 hC).1, fun _ _ hv => hm.stackBorn ?_ hI.2 hv⟩)
    ⟨h.waits, h.stack⟩
  · exact ⟨hrun.1, hrun.2⟩
  · have hborn := hI.1.born
    cases φ with
    | dying p => exact hborn.phase nofun
    | _ => exact hborn

/-- **Who waits for a token goes on waiting**, unless one is posted. -/
theorem Guarded.awaits (h : Guarded k) (hok : SparesOthers k e) (hs : TpeSo.step k e = some (k', o))
    (he : e ≠ .sysSemPost id) (hp : Awaits k id p) : Awaits k' id p := by
  rcases hok.cases with hok | ⟨code, rfl⟩
  · have hrun := (step_does hs).invariant (fun φ k => Waits φ k ∧ Awaits k id p) ?_ ⟨h.waits, hp⟩
    · exact hrun.2
    rintro φ k₁ a ψ k₂ ⟨hw, hp⟩ hC hm
    refine ⟨hm.waits hok hw hC, hm.awaits hok hw hC ?_ hp⟩
    rintro q rfl
    exact he hC
  · have hrun := (step_does hs).invariant (fun φ k => Waits φ.outside k ∧ Awaits k id p)
      (fun _ _ _ _ _ hI hC hm => ⟨(hm.exit hI.1 hC).1, (hm.exit hI.1 hC).2 id p hI.2⟩) ⟨h.waits, hp⟩
    exact hrun.2

/-! ### The two calls -/

/-- Who runs does not wait. -/
theorem Guarded.not_awaits (h : Guarded k) (hc : k.currentProcess = some c) : ¬ Awaits k id c :=
  fun ha => absurd (ha.1.symm.trans (h.waits.current c hc)) (by decide)

/-- `my_sem_wait` takes a token and returns, or blocks its caller. -/
theorem step_semWait (h : Guarded k) (hopen : semIsOpen k id = true) (hc : k.currentProcess = some c)
    (hs : step k (.sysSemWait id) = some (k', o)) :
    (0 < (k.semaphores id).value ∧ o.isSome ∧
      (k'.semaphores id).value = (k.semaphores id).value - 1) ∨
    (o = none ∧ (k'.semaphores id).value = (k.semaphores id).value ∧ Awaits k' id c) := by
  rcases step_eq_some hs with ⟨-, -, hent⟩ | ⟨he, -⟩
  · obtain ⟨r, hr, he⟩ := Outcome.bind_eq_ok.mp hent
    clear hent
    obtain ⟨rfl, rfl⟩ := Prod.mk.inj (Outcome.ok.inj he)
    by_cases hv : (k.semaphores id).value = 0
    · obtain ⟨hret, hsem⟩ := mySemWait_call hopen hv hc hr
      rw [hret]
      exact .inr ⟨rfl, congrArg Prod.fst hsem, mySemWait_awaits h.waits hopen hv hc hr⟩
    · obtain ⟨hret, hsem⟩ := mySemWait_take hopen (Nat.pos_of_ne_zero hv) hr
      rw [hret]
      exact .inl ⟨Nat.pos_of_ne_zero hv, rfl, congrArg Prod.fst hsem⟩
  · cases he

/-- `my_sem_post` wakes one waiter, or raises the value. -/
theorem step_semPost (hopen : semIsOpen k id = true)
    (hs : step k (.sysSemPost id) = some (k', o)) :
    (∃ q, (k'.semaphores id).value = (k.semaphores id).value ∧ ∀ p, p ≠ q → k'.procs p = k.procs p) ∨
    ((k'.semaphores id).value = ((k.semaphores id).value + 1) % word ∧ k'.procs = k.procs) := by
  rcases step_eq_some hs with ⟨-, -, hent⟩ | ⟨he, -⟩
  · obtain ⟨r, hr, he⟩ := Outcome.bind_eq_ok.mp hent
    clear hent
    obtain ⟨rfl, rfl⟩ := Prod.mk.inj (Outcome.ok.inj he)
    cases hq : firstWaiter k (.semaphore id) with
    | some q =>
      exact .inl ⟨q, congrArg Prod.fst (mySemPost_hand hopen hq hr).2,
        (mySemPost_hand_frame hopen hq hr).2⟩
    | none =>
      exact .inr ⟨congrArg Prod.fst (mySemPost_raise hopen hq hr).2,
        (mySemPost_raise_frame hopen hq hr).2⟩
  · cases he

end TpeSo
