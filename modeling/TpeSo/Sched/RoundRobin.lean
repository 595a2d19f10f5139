import TpeSo.Acts.Micro
import TpeSo.Lib.Wheel

namespace TpeSo

open Ds Lib

/-!
# Scheduling — weighted round robin

`schedule` on consecutive timer ticks, with nothing else happening.

* `scheduled k rsp n` — the kernel after `n` such ticks, the stack pointer `rsp i` being
  passed in at tick `i`;
* `Turns` — the scheduler's record read as a `Wheel` weighted by the priorities;
* `schedule_turns` — **one `schedule` is one tick of the wheel**, and saves and restores one
  stack pointer;
* `scheduled_roundRobin` — the claim about whole rotations.
-/

variable {k k' : Kernel} {c p : ProcId} {rsp : Nat}

/-- The kernel after `n` ticks of the timer; a `schedule` that does not come back leaves it
    as it is. -/
def scheduled (k : Kernel) (rsp : Nat → Nat) : Nat → Kernel
  | 0 => k
  | n + 1 =>
    match schedule (scheduled k rsp n) (rsp n) with
    | .ok r => r.1
    | .hang => scheduled k rsp n
    | .fault => scheduled k rsp n

/-- The weight of a process on the wheel. -/
def priorityOf (k : Kernel) (p : ProcId) : Nat := (k.procs p).priority

/-- The scheduler's record is the wheel `s`, with at least two processes on it. -/
structure Turns (k₀ : Kernel) (s : Wheel ProcId) (c : ProcId) (q : List ProcId) (k : Kernel) :
    Prop where
  order : s.order = c :: q
  others : q ≠ []
  current : k.currentProcess = some c
  ready : k.readyProcesses = q
  running : (k.procs c).status = .running
  quantum : (k.procs c).hasQuantum = s.left
  priority : ∀ p, (k.procs p).priority = priorityOf k₀ p
  heap : k.HeapOk

/-- The stack pointers after a tick that interrupted `c`. -/
def SavedIn (k k' : Kernel) (c : ProcId) (rsp : Nat) : Prop :=
  ∀ p, (k'.procs p).stackPointer = if p = c then rsp else (k.procs p).stackPointer

theorem schedule_eq_ok {c' : ProcId} (h : pickNext k rsp = .ok k')
    (hc : k'.currentProcess = some c') :
    schedule k rsp = .ok (k', (k'.procs c').stackPointer) := by
  unfold schedule
  rw [h, Outcome.ok_bind, hc]

/-- The current process has been interrupted with `rsp`, and a tick of its quantum is gone. -/
def interrupted (k : Kernel) (c : ProcId) (rsp : Nat) : Kernel :=
  k.setProc c fun p => { p with stackPointer := rsp, hasQuantum := p.hasQuantum - 1 }

/-- `schedule` with some process ready. -/
theorem pickNext_eq (hc : k.currentProcess = some c) (hr : k.readyProcesses ≠ []) :
    pickNext k rsp =
      if (k.procs c).hasQuantum - 1 = 0 then
        if (k.procs c).status ≠ .blocked ∧ (k.procs c).status ≠ .zombie ∧
            (k.procs c).status ≠ .dead then
          enqueueNextProcess (procReady ((interrupted k c rsp).setProc c fun q =>
            { q with status := .ready }) (some c))
        else enqueueNextProcess (interrupted k c rsp)
      else .ok (interrupted k c rsp) := by
  unfold pickNext
  rw [hc]
  dsimp only
  rw [if_neg (show (k.setProc c _).readyProcesses ≠ [] from hr)]
  unfold scheduleCurrent interrupted
  dsimp only
  rw [Kernel.setProc_setProc, Kernel.procs_setProc_self]
  dsimp only
  split
  · split <;> rfl
  · rfl

/-- The quantum is not used up: `c` goes on. -/
theorem schedule_stays {s : Wheel ProcId} {q : List ProcId} {k₀ : Kernel}
    (h : Turns k₀ s c q k) (hleft : s.left - 1 ≠ 0) (rsp : Nat) :
    ∃ k', schedule k rsp = .ok (k', (k'.procs c).stackPointer) ∧
      Turns k₀ { s with left := s.left - 1 } c q k' ∧ SavedIn k k' c rsp := by
  have hpick : pickNext k rsp = .ok (interrupted k c rsp) := by
    rw [pickNext_eq h.current (by rw [h.ready]; exact h.others),
      if_neg (by rw [h.quantum]; exact hleft)]
  refine ⟨_, schedule_eq_ok hpick h.current, ⟨h.order, h.others, h.current, h.ready, ?_, ?_, ?_,
    h.heap⟩, ?_⟩
  · simpa [interrupted] using h.running
  · simp [interrupted, h.quantum]
  · intro p
    rw [← h.priority p]
    exact k.setProc_spares Proc.priority rfl p
  · intro p
    by_cases hp : p = c
    · subst hp
      simp [interrupted]
    · simp [interrupted, hp]

/-- The quantum is used up: the head of the ready queue comes up, `c` moves to its end. -/
theorem schedule_turns {s : Wheel ProcId} {q : List ProcId} {x : ProcId} {k₀ : Kernel}
    (h : Turns k₀ s c (x :: q) k) (hleft : s.left - 1 = 0) (rsp : Nat) :
    ∃ k', schedule k rsp = .ok (k', (k'.procs x).stackPointer) ∧
      Turns k₀ (Wheel.start (priorityOf k₀) (x :: (q ++ [c]))) x (q ++ [c]) k' ∧
      SavedIn k k' c rsp := by
  obtain ⟨k₁, hk₁⟩ : ∃ k₁, k₁ = procReady ((interrupted k c rsp).setProc c fun q =>
    { q with status := .ready }) (some c) := ⟨_, rfl⟩
  have hready : k₁.readyProcesses = x :: (q ++ [c]) := by
    have henq : k₁.readyProcesses = enqueue k.kmalloc k.readyProcesses c := by
      rw [hk₁]
      rfl
    rw [henq, h.heap.kmalloc, h.ready]
    rfl
  have hpick : pickNext k rsp = .ok (dispatchTo k₁ x (q ++ [c])) := by
    rw [pickNext_eq h.current (by rw [h.ready]; exact h.others),
      if_pos (by rw [h.quantum]; exact hleft), if_pos (by rw [h.running]; decide), ← hk₁]
    unfold enqueueNextProcess
    rw [hready]
    rfl
  have hprocs : k₁.procs = (k.setProc c fun p =>
      { p with stackPointer := rsp, hasQuantum := p.hasQuantum - 1, status := .ready,
               blockReason := .none, waitingOn := .readyQueue }).procs := by
    rw [hk₁]
    simp only [procReady, interrupted, Kernel.setProc_setProc]
    rfl
  have hprio : ∀ p, (k₁.procs p).priority = (k.procs p).priority := by
    intro p
    rw [hprocs]
    exact k.setProc_spares Proc.priority rfl p
  have hsave : SavedIn k k₁ c rsp := by
    intro p
    rw [hprocs]
    by_cases hp : p = c
    · subst hp
      simp
    · simp [hp]
  refine ⟨_, schedule_eq_ok hpick rfl, ⟨rfl, by simp, rfl, rfl, ?_, ?_, fun p => ?_, ?_⟩,
    fun p => ?_⟩
  · simp [dispatchTo]
  · simp only [dispatchTo, Kernel.procs_setProc_self, Wheel.start_cons]
    exact (hprio x).trans (h.priority x)
  · rw [← h.priority p, ← hprio p]
    exact Kernel.setProc_spares _ Proc.priority rfl p
  · rw [hk₁]
    exact h.heap.alloc
  · rw [← hsave p]
    exact Kernel.setProc_spares _ Proc.stackPointer rfl p

/-- **One `schedule` is one tick of the wheel.**  It returns the saved stack pointer of the
    process that runs next. -/
theorem schedule_tick {s : Wheel ProcId} {q : List ProcId} {k₀ : Kernel}
    (h : Turns k₀ s c q k) (rsp : Nat) :
    ∃ k' c' q', schedule k rsp = .ok (k', (k'.procs c').stackPointer) ∧
      Turns k₀ (s.tick (priorityOf k₀)) c' q' k' ∧ SavedIn k k' c rsp := by
  unfold Wheel.tick
  by_cases hleft : s.left - 1 = 0
  · cases q with
    | nil => exact absurd rfl h.others
    | cons x q =>
      obtain ⟨k', hs, ht, hsave⟩ := schedule_turns h hleft rsp
      rw [if_pos hleft, h.order]
      exact ⟨k', x, q ++ [c], hs, ht, hsave⟩
  · obtain ⟨k', hs, ht, hsave⟩ := schedule_stays h hleft rsp
    rw [if_neg hleft]
    exact ⟨k', c, q, hs, ht, hsave⟩

/-! ### Many ticks -/

/-- `c` has just been dispatched. -/
structure JustDispatched (k : Kernel) (c : ProcId) : Prop where
  current : k.currentProcess = some c
  running : (k.procs c).status = .running
  quantum : (k.procs c).hasQuantum = (k.procs c).priority

/-- `ret` is the stack pointer passed in at the last of the first `n` calls that interrupted
    `x`, or the one `x` had at the start when none of them did. -/
def LastPassed (k : Kernel) (rsp : Nat → Nat) (x : ProcId) (n ret : Nat) : Prop :=
  (∃ j < n, (scheduled k rsp j).currentProcess = some x ∧
      (∀ i, j < i → i < n → (scheduled k rsp i).currentProcess ≠ some x) ∧ ret = rsp j) ∨
    ((∀ i < n, (scheduled k rsp i).currentProcess ≠ some x) ∧ ret = (k.procs x).stackPointer)

variable {q : List ProcId}

/-- After `n` ticks the kernel is the wheel after `n` ticks, and the next call comes back. -/
theorem scheduled_turns (hc : JustDispatched k c) (hr : k.readyProcesses = q) (hne : q ≠ [])
    (hheap : k.HeapOk) (rsp : Nat → Nat) (n : Nat) :
    ∃ c' q', Turns k ((Wheel.tick (priorityOf k))^[n] (Wheel.start (priorityOf k) (c :: q)))
      c' q' (scheduled k rsp n) := by
  induction n with
  | zero =>
    exact ⟨c, q, rfl, hne, hc.current, hr, hc.running, hc.quantum, fun _ => rfl, hheap⟩
  | succ n ih =>
    obtain ⟨c', q', hT⟩ := ih
    obtain ⟨k', c'', q'', hs, hT', -⟩ := schedule_tick hT (rsp n)
    rw [Function.iterate_succ_apply']
    refine ⟨c'', q'', ?_⟩
    simp only [scheduled, hs]
    exact hT'

/-- What one call does to the stack pointers keeps them the last ones passed in. -/
theorem LastPassed.succ {rsp : Nat → Nat} {n ret ret' : Nat} (h : LastPassed k rsp p n ret)
    (hc : (scheduled k rsp n).currentProcess = some c)
    (hret : ret' = if p = c then rsp n else ret) : LastPassed k rsp p (n + 1) ret' := by
  by_cases hp : p = c
  · rw [if_pos hp] at hret
    refine .inl ⟨n, Nat.lt_succ_self n, by rw [hc, hp], fun i h1 h2 => ?_, hret⟩
    omega
  · rw [if_neg hp] at hret
    -- the call interrupted another process
    have hlast : ∀ i, i = n → (scheduled k rsp i).currentProcess ≠ some p := by
      rintro i rfl he
      rw [hc] at he
      exact hp (Option.some.inj he).symm
    rcases h with ⟨j, hj, hcur, hsince, hrj⟩ | ⟨hnone, hrk⟩
    · refine .inl ⟨j, hj.trans (Nat.lt_succ_self n), hcur, fun i h1 h2 => ?_, hret.trans hrj⟩
      rcases Nat.lt_succ_iff_lt_or_eq.mp h2 with h2 | h2
      · exact hsince i h1 h2
      · exact hlast i h2
    · refine .inr ⟨fun i h2 => ?_, hret.trans hrk⟩
      rcases Nat.lt_succ_iff_lt_or_eq.mp h2 with h2 | h2
      · exact hnone i h2
      · exact hlast i h2

/-- **Weighted round robin.**  `c` has just been dispatched, `q` is ready and not empty, and
    every priority is positive.  On consecutive ticks of the timer
    * the current process is the next one of the list in which `c` and then the processes of
      `q` are each repeated as often as their priority says, over and over again;
    * after as many ticks as the priorities add up to, or a multiple of that, `c` is current
      and the ready queue is `q` again;
    * every call of `schedule` comes back with the stack pointer passed in when the process
      it dispatches was last interrupted, or with its initial one. -/
theorem scheduled_roundRobin (hc : JustDispatched k c) (hr : k.readyProcesses = q) (hne : q ≠ [])
    (hprio : ∀ p ∈ c :: q, 0 < priorityOf k p) (hheap : k.HeapOk) (rsp : Nat → Nat) :
    (∀ n, (scheduled k rsp n).currentProcess =
      (turns (priorityOf k) (c :: q))[n % ((c :: q).map (priorityOf k)).sum]?) ∧
    (∀ m, (scheduled k rsp (((c :: q).map (priorityOf k)).sum * m)).currentProcess = some c ∧
      (scheduled k rsp (((c :: q).map (priorityOf k)).sum * m)).readyProcesses = q) ∧
    ∀ n, ∃ x ret, schedule (scheduled k rsp n) (rsp n) = .ok (scheduled k rsp (n + 1), ret) ∧
      (scheduled k rsp (n + 1)).currentProcess = some x ∧ LastPassed k rsp x (n + 1) ret := by
  have hturns := scheduled_turns hc hr hne hheap rsp
  have hlen := length_turns (priorityOf k) (c :: q)
  refine ⟨fun n => ?_, fun m => ?_, fun n => ?_⟩
  · obtain ⟨c', q', hT⟩ := hturns n
    rw [← hlen, ← Wheel.current_iterate _ hprio (by simp), hT.order, hT.current]
    rfl
  · obtain ⟨c', q', hT⟩ := hturns (((c :: q).map (priorityOf k)).sum * m)
    have hround := ((Wheel.full_turn (c :: q) hprio).mul_const m).eq
    rw [hlen] at hround
    have horder := hT.order
    rw [hround, Wheel.start_cons, List.cons.injEq] at horder
    exact ⟨by rw [hT.current, horder.1], by rw [hT.ready, horder.2]⟩
  · have hsaved : ∀ n p, LastPassed k rsp p n ((scheduled k rsp n).procs p).stackPointer := by
      intro n
      induction n with
      | zero => exact fun p => .inr ⟨fun i hi => absurd hi (Nat.not_lt_zero i), rfl⟩
      | succ n ih =>
        intro p
        obtain ⟨c', q', hT⟩ := hturns n
        obtain ⟨k', c'', q'', hs, -, hsave⟩ := schedule_tick hT (rsp n)
        have hk' : scheduled k rsp (n + 1) = k' := by simp only [scheduled, hs]
        exact (ih p).succ hT.current (by rw [hk']; exact hsave p)
    obtain ⟨c', q', hT⟩ := hturns n
    obtain ⟨k', c'', q'', hs, hT', -⟩ := schedule_tick hT (rsp n)
    have hk' : scheduled k rsp (n + 1) = k' := by simp only [scheduled, hs]
    refine ⟨c'', _, by rw [hs, ← hk'], by rw [hk']; exact hT'.current, hsaved (n + 1) c''⟩

/-- Two processes of the priorities `2` and `3`. -/
def twoReady : Kernel where
  procs p := if p = 0 then { status := .running, priority := 2, hasQuantum := 2, stackPointer := 100 }
    else { status := .ready, priority := 3, stackPointer := 200 }
  currentProcess := some 0
  readyProcesses := [1]

theorem scheduled_roundRobin_two :
    (scheduled twoReady (fun n => n) 7).currentProcess =
      (turns (priorityOf twoReady) [0, 1])[7 % ([0, 1].map (priorityOf twoReady)).sum]? ∧
    (scheduled twoReady (fun n => n) 7).currentProcess = some 1 :=
  ⟨(scheduled_roundRobin (c := 0) (q := [1]) ⟨rfl, rfl, rfl⟩ rfl (by decide)
    (by decide) (fun _ => rfl) fun n => n).1 7, by decide⟩

end TpeSo
