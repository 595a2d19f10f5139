import TpeSo.Acts.Entries
import TpeSo.Lib.Alarm

namespace TpeSo

open Ds Lib

/-!
# Timer — the clock of the kernel

`ticks` and the sleep queue form an alarm clock: only `timer_handler` counts and drops
entries, only `sleep_helper` appends one, and each step of the machine calls them at most
once.

* `Kernel.clock` — the counter and the queue;
* `clock_callTimerTick` — the timer interrupt is one tick of the clock;
* `Lapse` — the clock stands still or makes one tick;
* `clock_blockCurrent`, `clock_sleepHelper` — blocking, and going to sleep.
-/

variable {k k' : Kernel} {p : ProcId}

/-- The counter of `timer_handler` and the sleep queue. -/
def Kernel.clock (k : Kernel) : Alarm SleepingProc := ⟨k.ticks, k.sleepingProcs⟩

/-- One tick of the kernel's clock. -/
abbrev tickClock (a : Alarm SleepingProc) : Alarm SleepingProc :=
  a.tick word SleepingProc.wakeUpTick

/-! ### The timer interrupt -/

theorem clock_procReady (k : Kernel) (o : Option ProcId) : (procReady k o).clock = k.clock := by
  cases o <;> rfl

theorem clock_suspend (k : Kernel) (w : Pending) : (k.suspend w).clock = k.clock := by
  unfold Kernel.suspend
  split <;> rfl

theorem Calm.clock (h : Calm k k') : k'.clock = k.clock := by
  unfold Kernel.clock
  rw [h.ticks, h.sleepers]

theorem clock_unblockProcessByPid {pid : Int} {r : Kernel × Int}
    (h : unblockProcessByPid k pid = .ok r) : r.1.clock = k.clock := by
  obtain ⟨o, -, h⟩ := Outcome.bind_eq_ok.mp h
  split at h
  · cases h
    rfl
  · split at h
    · cases h
      rfl
    · cases h
      exact clock_procReady k _

/-- `timer_handler` drops the entries that are due: those before the node it has reached are
    not, so the first entry equal to that node is the node itself. -/
theorem clock_wakeDue (rest : List SleepingProc) :
    ∀ (k : Kernel) (pre : List SleepingProc), k.sleepingProcs = pre ++ rest →
      (∀ sp ∈ pre, ¬ sp.wakeUpTick ≤ k.ticks) → wakeDue k rest = .ok k' →
      k'.clock = ⟨k.ticks, pre ++ rest.filter fun sp => decide (k.ticks < sp.wakeUpTick)⟩ := by
  induction rest with
  | nil =>
    intro k pre hk _ h
    cases h
    rw [Kernel.clock, hk]
    rfl
  | cons sp rest ih =>
    intro k pre hk hpre h
    by_cases hdue : sp.wakeUpTick ≤ k.ticks
    · have hnot : sp ∉ pre := fun hin => hpre sp hin hdue
      have hrm : queueRemove k.sleepingProcs sp = pre ++ rest := by
        rw [hk, queueRemove, List.erase_append_right _ hnot, List.erase_cons_head]
      rw [wakeDue, if_pos hdue] at h
      obtain ⟨⟨k₁, n⟩, hu, hrest⟩ := Outcome.bind_eq_ok.mp h
      have hclock : k₁.clock = k.clock := clock_unblockProcessByPid hu
      have hticks : k₁.ticks = k.ticks := congrArg Alarm.now hclock
      have hsleep : k₁.sleepingProcs = k.sleepingProcs := congrArg Alarm.pending hclock
      have hdone := ih { k₁ with sleepingProcs := queueRemove k₁.sleepingProcs sp } pre
        (by rw [← hrm, ← hsleep]) (by rw [hticks]; exact hpre) hrest
      rw [hdone, List.filter_cons_of_neg (by simpa using hdue)]
      show Alarm.mk k₁.ticks _ = _
      rw [hticks]
    · rw [wakeDue, if_neg hdue] at h
      have hdone := ih k (pre ++ [sp]) (by simp [hk]) ?_ h
      · rw [hdone, List.filter_cons_of_pos (by simpa using hdue), List.append_assoc,
          List.singleton_append]
      · intro x hx
        rcases List.mem_append.mp hx with hx | hx
        · exact hpre x hx
        · rwa [List.mem_singleton.mp hx]

theorem clock_enqueueNextProcess (h : enqueueNextProcess k = .ok k') : k'.clock = k.clock := by
  obtain ⟨p, rest, -, rfl⟩ := enqueueNextProcess_eq_ok h
  rfl

theorem clock_pickNext {rsp : Nat} (h : pickNext k rsp = .ok k') : k'.clock = k.clock := by
  unfold pickNext at h
  split at h
  · split at h
    · cases h
    · exact clock_enqueueNextProcess h
  · dsimp only at h
    split at h
    · split at h
      · cases h
        rfl
      · cases h
    · unfold scheduleCurrent at h
      dsimp only at h
      split at h
      · refine (clock_enqueueNextProcess h).trans ?_
        split <;> rfl
      · cases h
        rfl

/-- **The timer interrupt is one tick.** -/
theorem clock_callTimerTick (h : callTimerTick k = .ok k') : k'.clock = tickClock k.clock := by
  simp only [callTimerTick, timerHandler, schedule, Outcome.bind_eq_ok] at h
  obtain ⟨k₁, hw, ⟨k₂, rsp⟩, ⟨k₃, hp, hs⟩, he⟩ := h
  have hwake := clock_wakeDue _ { k with ticks := (k.ticks + 1) % word } [] rfl (by simp) hw
  have hpick := clock_pickNext hp
  split at hs
  · cases hs
  · cases hs
    cases he
    exact hpick.trans hwake

/-! ### Blocking and switching -/

/-- The clock stands still or makes one tick. -/
def Lapse (k k' : Kernel) : Prop := k'.clock = k.clock ∨ k'.clock = tickClock k.clock

namespace Lapse

variable {k₁ : Kernel}

theorem still (h : k'.clock = k.clock) : Lapse k k' := .inl h

theorem after (h : k₁.clock = k.clock) (g : Lapse k₁ k') : Lapse k k' := by
  unfold Lapse at g
  rwa [h] at g

end Lapse

theorem clock_yield (h : yield k = .ok k') : k'.clock = tickClock k.clock := by
  unfold yield at h
  split at h
  · cases h
  · have htick := clock_callTimerTick h
    exact htick

theorem clock_block {reason : BlockReason} {res : WaitRef} (h : block k p reason res = .ok k') :
    Lapse k k' := by
  unfold block at h
  dsimp only at h
  split at h
  · cases h
    exact .inl rfl
  · split at h
    · have hyield := clock_yield h
      exact .inr hyield
    · cases h
      exact .inl rfl

theorem clock_blockCurrent {reason : BlockReason} {res : WaitRef}
    (h : blockCurrent k reason res = .ok k') : Lapse k k' := by
  unfold blockCurrent at h
  split at h
  · cases h
    exact .inl rfl
  · exact clock_block h

/-- `block_current` of a process that has noted what it has left to do. -/
theorem clock_blockCurrent_suspend {w : Pending} {reason : BlockReason} {res : WaitRef}
    (h : blockCurrent (k.suspend w) reason res = .ok k') : Lapse k k' :=
  .after (clock_suspend k w) (clock_blockCurrent h)

theorem clock_blockProcessByPid {pid : Int} {r : Kernel × Option Int}
    (h : blockProcessByPid k pid = .ok r) : Lapse k r.1 := by
  obtain ⟨o, -, h⟩ := Outcome.bind_eq_ok.mp h
  split at h
  · cases h
    exact .inl rfl
  · split at h
    · cases h
      exact .inl rfl
    · split at h
      · cases h
        exact .inl rfl
      · split at h
        · obtain ⟨k₁, hb, he⟩ := Outcome.bind_eq_ok.mp h
          cases he
          exact .after (clock_suspend k .block) (clock_block hb)
        · obtain ⟨k₁, hb, he⟩ := Outcome.bind_eq_ok.mp h
          cases he
          exact clock_block hb

/-- The entry `sleep_helper` appends when `c` goes to sleep until `tick`. -/
def sleepEntry (k : Kernel) (c : ProcId) (tick : Nat) : SleepingProc :=
  { pid := (k.procs c).pid, wakeUpTick := tick }

/-- `sleep_helper` appends its entry, and its switch is one tick. -/
theorem clock_sleepHelper {n : Nat} (h : sleepHelper k n = .ok k') :
    ∃ c node, k.currentProcess = some c ∧ k'.clock = tickClock ⟨k.ticks,
      enqueue node k.sleepingProcs (sleepEntry k c (wakeUpTick k n))⟩ := by
  unfold sleepHelper at h
  split at h
  · cases h
  · rename_i c hc
    dsimp only at h
    split at h
    · refine ⟨c, k.alloc.kmalloc, hc, ?_⟩
      generalize hk₁ : ({ k.alloc.alloc with
        sleepingProcs := enqueue _ _ _ } : Kernel) = k₁ at h
      have hc₁ : (k₁.suspend .sleep).currentProcess = some c := by
        rw [suspend_currentProcess, ← hk₁]
        exact hc
      have hm : (markBlocked (k₁.suspend .sleep) c .sleep .sleepers).currentProcess = some c := hc₁
      simp only [blockCurrent, hc₁, block, hm, if_true] at h
      refine (clock_yield h).trans (congrArg tickClock ?_)
      refine (clock_suspend k₁ .sleep).trans ?_
      rw [← hk₁]
      rfl
    · cases h

end TpeSo
