import TpeSo.Acts.Entries
import TpeSo.Acts.Stack
import TpeSo.Sched.View

namespace TpeSo

open Ds Lib

/-!
# Scheduler — who is left alone

A routine of the kernel blocks nobody but its caller, and touches no kernel stack but that of
its caller; others it may only wake.

* `LeftAlone q k k'` — the work `q` has left is the same, and if `q` is blocked, it was so
  before, and waits for the same;
* `Spares q k a` — the edit `a` neither blocks `q` nor touches its kernel stack;
* `Micro.leftAlone`, `LeftAlone.of_does` — edits that spare `q` leave it alone;
* `step_leftAlone` — **a step leaves alone whoever is not current** and not blocked by pid.
-/

variable {φ ψ : Phase} {k k' : Kernel} {e : Event} {o : Option Completion} {p q c : ProcId}

/-- The work `q` has left is the same; `q` may have been woken, but it has not been blocked. -/
structure LeftAlone (q : ProcId) (k k' : Kernel) : Prop where
  kstack : k'.kstack q = k.kstack q
  blocked : (k'.procs q).status = .blocked → (k.procs q).status = .blocked ∧
    (k'.procs q).blockReason = (k.procs q).blockReason ∧
    (k'.procs q).waitingOn = (k.procs q).waitingOn

namespace LeftAlone

variable {k₁ k₂ k₃ : Kernel}

theorem refl (q : ProcId) (k : Kernel) : LeftAlone q k k := ⟨rfl, fun h => ⟨h, rfl, rfl⟩⟩

theorem trans (h : LeftAlone q k₁ k₂) (g : LeftAlone q k₂ k₃) : LeftAlone q k₁ k₃ where
  kstack := g.kstack.trans h.kstack
  blocked hb := by
    obtain ⟨hb₂, hr₂, hw₂⟩ := g.blocked hb
    obtain ⟨hb₁, hr₁, hw₁⟩ := h.blocked hb₂
    exact ⟨hb₁, hr₂.trans hr₁, hw₂.trans hw₁⟩

theorem of_status (hk : k'.kstack q = k.kstack q)
    (h : ((k'.procs q).status, (k'.procs q).blockReason, (k'.procs q).waitingOn) =
      ((k.procs q).status, (k.procs q).blockReason, (k.procs q).waitingOn)) :
    LeftAlone q k k' := by
  simp only [Prod.mk.injEq] at h
  exact ⟨hk, fun hb => ⟨h.1 ▸ hb, h.2⟩⟩

/-- The scheduler sees no difference. -/
theorem of_sched (hk : k'.kstack q = k.kstack q) (h : (k'.procs q).sched = (k.procs q).sched) :
    LeftAlone q k k' :=
  of_status hk (congrArg Prod.snd h)

theorem of_procs (hk : k'.kstack q = k.kstack q) (hp : k'.procs q = k.procs q) :
    LeftAlone q k k' :=
  of_sched hk (by rw [hp])

theorem of_quiet (q : ProcId) (h : Quiet k k') : LeftAlone q k k' :=
  of_sched (congrFun h.kstack q) ((SchedSame.of_quiet h).proc q)

/-- An edit of fields the scheduler does not look at. -/
theorem setProc_same (q : ProcId) (k : Kernel) (p : ProcId) {f : Proc → Proc}
    (h : (f (k.procs p)).sched = (k.procs p).sched) : LeftAlone q k (k.setProc p f) :=
  of_sched rfl (k.setProc_spares Proc.sched h q)

theorem procReady (q : ProcId) (k : Kernel) (o : Option ProcId) :
    LeftAlone q k (procReady k o) := by
  refine ⟨congrFun (kstack_procReady k o) q, fun hb => ?_⟩
  cases o with
  | none => exact ⟨hb, rfl, rfl⟩
  | some p =>
    by_cases hqp : q = p
    · subst hqp
      rw [procReady_procs_self] at hb
      cases hb
    · rw [procReady_procs_ne _ hqp] at hb ⊢
      exact ⟨hb, rfl, rfl⟩

/-- Somebody else is marked blocked. -/
theorem markBlocked (hqp : q ≠ p) (k : Kernel) (r : BlockReason) (w : WaitRef) :
    LeftAlone q k (markBlocked k p r w) :=
  of_procs rfl (by simp [TpeSo.markBlocked, Kernel.setProc, Kernel.alloc, hqp])

/-- Somebody else takes itself off the processor. -/
theorem leave (hqc : q ≠ c) (hc : k.currentProcess = some c) (r : BlockReason) (w : WaitRef)
    (pend : Pending) : LeftAlone q k (leave k c r w pend) := by
  refine of_procs ?_ ?_
  · show (k.suspend pend).kstack q = k.kstack q
    simp [Kernel.suspend, hc, hqc]
  · simp [TpeSo.leave, TpeSo.markBlocked, Kernel.setProc, Kernel.alloc, hqc]

theorem dispatchTo (q : ProcId) (k : Kernel) (p : ProcId) (rest : List ProcId) :
    LeftAlone q k (dispatchTo k p rest) := by
  by_cases hqp : q = p
  · subst hqp
    exact ⟨rfl, fun hb => by simp [TpeSo.dispatchTo] at hb⟩
  · exact of_procs rfl (by simp [TpeSo.dispatchTo, Kernel.setProc, hqp])

theorem bury (q : ProcId) (k : Kernel) (p : ProcId) (code : Int) :
    LeftAlone q k (bury k p code) := by
  refine ⟨congrFun (kstack_bury k p code) q, fun hb => ?_⟩
  by_cases hqp : q = p
  · subst hqp
    simp [TpeSo.bury] at hb
  · rw [bury_procs_ne k code hqp] at hb ⊢
    exact ⟨hb, rfl, rfl⟩

end LeftAlone

/-! ### Edits that spare a process -/

/-- The edit neither blocks `q` nor touches its kernel stack. -/
def Spares (q : ProcId) (k : Kernel) : Act → Prop
  | .suspend _ => k.currentProcess ≠ some q
  | .finish c _ | .blockSelf c _ _ | .blockSleep c _ | .blockOther c => c ≠ q
  | _ => True

theorem Common.spares (q : ProcId) : Common (Spares q) := by
  intro k a ha
  cases a <;> first | exact trivial | exact ha.elim

theorem Preempts.spares (q : ProcId) (k : Kernel) : Preempts (Spares q) k := fun _ _ _ _ => trivial

/-- **An edit that spares `q`** leaves it alone. -/
theorem Micro.leftAlone {a : Act} (hm : Micro φ k a ψ k') (ha : Spares q k a) :
    LeftAlone q k k' := by
  have hsame : a.offSched → k'.kstack q = k.kstack q → LeftAlone q k k' :=
    fun hoff hk => .of_sched hk ((hm.schedSame hoff).1.proc q)
  cases hm with
  | quiet hq => exact .of_quiet q hq
  | suspend =>
    refine hsame trivial ?_
    unfold Kernel.suspend
    split
    · rfl
    · rename_i c hc
      refine Function.update_of_ne ?_ _ _
      rintro rfl
      exact ha hc
  | finish => exact hsame trivial (Function.update_of_ne (Ne.symm ha) _ _)
  | quantum p n => exact .setProc_same q k p rfl
  | tick => exact .of_procs rfl rfl
  | tickLeaving => exact .of_procs rfl rfl
  | @wakeSleeper _ _ _ p =>
    have hready := LeftAlone.procReady q k (some p)
    exact hready.trans (.of_procs rfl rfl)
  | dropSleeper => exact .of_procs rfl rfl
  | stay => exact .refl q k
  | refill => exact .setProc_same q k _ rfl
  | dispatch => exact .dispatchTo q k _ _
  | preempt => exact .trans (.procReady q k _) (.dispatchTo q _ _ _)
  | @blockSelf _ c w reason pend hc hw =>
    have hc' : (linkWaiter k w c).currentProcess = some c := by cases w <;> exact hc
    refine .trans (.of_procs ?_ ?_) (.leave (Ne.symm ha) hc' _ _ _)
    · rw [kstack_linkWaiter]
    · rw [linkWaiter_procs]
  | @blockSleep _ c t hc =>
    have hc' : (linkSleeper k c t).currentProcess = some c := hc
    have hlink : LeftAlone q k (linkSleeper k c t) := .of_procs rfl rfl
    exact hlink.trans (.leave (Ne.symm ha) hc' _ _ _)
  | blockOther => exact .markBlocked (Ne.symm ha) k _ _
  | unblock => exact .procReady q k _
  | @wake _ _ w p =>
    refine .trans (.of_sched ?_ ((SchedSame.popWaiter k w).proc q)) (.procReady q _ _)
    rw [kstack_popWaiter]
  | wakeParent => exact .procReady q k _
  | kill p code => exact .bury q k p code
  | endKill => exact .refl q k
  | reapSelf => exact .of_procs rfl rfl
  | reapChild => exact .of_procs rfl rfl
  | newProc =>
    by_cases hq : q = k.nextProc
    · subst hq
      exact ⟨rfl, fun hb => by simp at hb⟩
    · exact .of_procs rfl (Function.update_of_ne hq _ _)
  | @noPid p =>
    exact .of_status rfl (k.setProc_spares (fun b => (b.status, b.blockReason, b.waitingOn)) rfl q)
  | @claimPid p _ i =>
    exact .of_status rfl (k.setProc_spares (fun b => (b.status, b.blockReason, b.waitingOn))
      (f := fun q => { q with pid := i }) rfl q)
  | inherit => exact hsame trivial (congrFun (kstack_fdAddRef k _) q)
  | start => exact .procReady q k _
  | startBare =>
    have halloc : LeftAlone q k k.alloc := .of_procs rfl rfl
    exact halloc.trans (.procReady q k.alloc _)
  | openRef => exact hsame trivial (congrFun (kstack_addRef _ _ _) q)
  | dropRef => exact hsame trivial (congrFun (kstack_subRef _ _ _) q)
  | _ => exact hsame trivial rfl

/-- **Edits that spare `q`** leave it alone. -/
theorem LeftAlone.of_does {s t : Phase × Kernel} (h : Does (Spares q) s t) :
    LeftAlone q s.2 t.2 :=
  h.invariant (fun _ k => LeftAlone q s.2 k) (fun _ _ _ _ _ hI hC hm => hI.trans (hm.leftAlone hC))
    (.refl q s.2)

theorem LeftAlone.collect {i : Nat} {child : ProcId} (q : ProcId)
    (h : collect k c i child = .ok k') : LeftAlone q k k' := by
  obtain ⟨k₁, hr, he⟩ := Outcome.bind_eq_ok.mp h
  cases he
  have hreap : LeftAlone q k k₁ := by
    rw [procReap_eq_ok hr]
    exact .of_procs rfl rfl
  exact hreap.trans (.setProc_same q k₁ c rfl)

/-- `block_current` notes nothing by itself. -/
theorem LeftAlone.kstack_blockCurrent {reason : BlockReason} {res : WaitRef}
    (h : blockCurrent k reason res = .ok k') : k'.kstack = k.kstack := by
  unfold blockCurrent block at h
  split at h
  · cases h
    rfl
  · dsimp only at h
    split at h
    · cases h
      rfl
    · split at h
      · funext q
        exact (LeftAlone.of_does (does_yield (.spares q) (.spares q _) h)).kstack
      · cases h
        rfl

/-- **A step leaves alone whoever is not current**, unless it is `sys_block` on that process. -/
theorem step_leftAlone (hs : step k e = some (k', o)) (hq : k.currentProcess ≠ some q)
    (hblock : blockTarget k e ≠ some q) : LeftAlone q k k' := by
  refine .of_does (s := (.run, k)) (t := (.run, k')) ((step_causes hs).mono fun k₁ a ⟨ho, hby⟩ => ?_)
  have hne : ∀ {c : ProcId}, k.currentProcess = some c → c ≠ q := fun hc he => hq (he ▸ hc)
  cases a with
  | suspend => exact fun hc => hq (hby.symm.trans hc)
  | finish => exact hne ho.2.1
  | blockSelf => exact hne hby
  | blockSleep => exact hne hby
  | blockOther p =>
    rintro rfl
    exact hblock hby
  | _ => trivial

end TpeSo
