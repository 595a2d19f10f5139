import TpeSo.Family.Tree
import TpeSo.Sched.LeftAlone

namespace TpeSo

open Ds Lib

/-!
# Family — who waits for a child

* `AwaitsChild k p pid` — `p` is blocked inside `wait_pid(pid)`;
* `Rouses k k'` — nobody waits for a child in `k'` who did not in `k`;
* `Rouses.of_leftAlone` — only `wait_pid` itself makes a process wait;
* `Rouses.blockCurrent`, `rouses_waitChild` — and then only the caller, for what it has asked
  for.
-/

variable {k k' : Kernel} {p c : ProcId} {pid : Int}

/-- `p` is blocked inside `wait_pid(pid)`. -/
def AwaitsChild (k : Kernel) (p : ProcId) (pid : Int) : Prop :=
  (k.procs p).status = .blocked ∧ (k.procs p).blockReason = .child ∧
    k.kstack p = some (.waitPid pid)

/-- Waiting processes may have been woken, and no other waits for a child. -/
def Rouses (k k' : Kernel) : Prop := ∀ p pid, AwaitsChild k' p pid → AwaitsChild k p pid

namespace Rouses

variable {k₁ k₂ k₃ : Kernel}

theorem refl (k : Kernel) : Rouses k k := fun _ _ h => h

theorem trans (h : Rouses k₁ k₂) (g : Rouses k₂ k₃) : Rouses k₁ k₃ :=
  fun p pid hp => h p pid (g p pid hp)

theorem of_leftAlone (h : ∀ q, LeftAlone q k k') : Rouses k k' := by
  intro q pid hq
  obtain ⟨hb, hr, -⟩ := (h q).blocked hq.1
  exact ⟨hb, hr.symm.trans hq.2.1, (h q).kstack.symm.trans hq.2.2⟩

/-- The note of a process that is not blocked. -/
theorem suspend (k : Kernel) (w : Pending)
    (hc : ∀ c, k.currentProcess = some c → (k.procs c).status ≠ .blocked) :
    Rouses k (k.suspend w) := by
  intro q pid hq
  obtain ⟨hs, hb, hk⟩ := hq
  rw [suspend_procs] at hs hb
  rcases kstack_suspend hk with hk | ⟨hcur, -⟩
  · exact ⟨hs, hb, hk⟩
  · exact absurd hs (hc q hcur)

/-- `block_current`: only the caller is blocked. -/
theorem blockCurrent {reason : BlockReason} {res : WaitRef} (hc : k.currentProcess = some c)
    (h : blockCurrent k reason res = .ok k') (q : ProcId) (pid : Int) (hq : AwaitsChild k' q pid) :
    AwaitsChild k q pid ∨ (q = c ∧ reason = .child ∧ k.kstack c = some (.waitPid pid)) := by
  have hcur : (markBlocked k c reason res).currentProcess = some c := hc
  simp only [TpeSo.blockCurrent, hc, block, hcur, if_true] at h
  obtain ⟨hs, hb, hk⟩ := of_leftAlone (fun q => .of_does (does_yield (.spares q) (.spares q _) h)) q pid hq
  by_cases hqc : q = c
  · subst hqc
    have hreason : reason = .child := by
      simpa [markBlocked, Kernel.setProc, Kernel.alloc] using hb
    exact .inr ⟨rfl, hreason, hk⟩
  · simp only [markBlocked, Kernel.setProc, Kernel.alloc, Function.update_of_ne hqc] at hs hb
    exact .inl ⟨hs, hb, hk⟩

/-- **A kill** wakes the parent of its victim, if that waits for a child. -/
theorem procKill {code : Int} (hpid : ¬ ((k.procs p).pid = 0 ∨ (k.procs p).pid = 1))
    (h : procKill k (some p) code = .ok k') :
    Rouses k k' ∧ ∀ q pid, (k'.procs p).parent = some q → ¬ AwaitsChild k' q pid := by
  refine ⟨of_leftAlone fun q => ?_, fun q pid hq ha => ?_⟩
  · exact .of_does (does_procKill (.spares q) (fun _ _ _ _ => trivial) h)
  obtain ⟨k₁, -, hn⟩ := procKill_eq_ok hpid h
  unfold killNotify at hn
  cases hp : (k₁.procs p).parent with
  | none =>
    rw [hp] at hn
    obtain ⟨-, rfl⟩ := procReap_eq_ok hn
    rw [show ((forgetPid k₁ p).procs p).parent = none from hp] at hq
    cases hq
  | some r =>
    rw [hp] at hn
    dsimp only at hn
    split at hn
    · cases hn
      have hparent : ((TpeSo.procReady k₁ (some r)).procs p).parent = some r :=
        (congrArg (fun s : Family => (s.kin p).parent) (family_procReady k₁ (some r))).trans hp
      rw [hparent] at hq
      cases hq
      have hs := ha.1
      rw [procReady_status, if_pos rfl] at hs
      cases hs
    · rename_i hs
      cases hn
      rw [hp] at hq
      cases hq
      exact hs ⟨ha.1, ha.2.1⟩

end Rouses

end TpeSo
