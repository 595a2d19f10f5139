import TpeSo.Timer.Lapse

namespace TpeSo

open Ds Lib

/-!
# Timer — how long a sleep lasts

`sleep(s)` asks for `18 * s` ticks of the counter that `timer_handler` keeps.  That handler
also runs on every voluntary switch, the one of the sleep itself included, so the counter
is ahead of the hardware timer.

* `TimerWakes` — `timer_handler` makes a process `READY` because of an entry;
* `hardwareTicks` — the hardware timer interrupts among some events;
* `early_run` — between two entries no pending sleep is due;
* `pending_ticks` — while a sleep is pending, the counter has moved by at least the number
  of hardware interrupts, and one more;
* `sleep_wake` — **a sleeper is woken after `18 * s` hardware interrupts only for `s = 0`.**
-/

variable {f : Nat → Bool} {ok : Kernel → Event → Prop} {k k₁ j : Kernel} {e : Event}
  {o : Option Completion} {p : ProcId} {sp : SleepingProc} {s : Nat}
  {tr tr₁ tr₂ : List (Kernel × Event × Option Completion)}

/-- In the kernel `k₁`, in the middle of the step `e` from `k`, `timer_handler` finds the
    entry `sp` due and makes the process `p` its pid leads to `READY`. -/
structure TimerWakes (k : Kernel) (e : Event) (k₁ : Kernel) (sp : SleepingProc) (p : ProcId) :
    Prop where
  edits : ∃ φ : Phase, φ.ticking ∧ Does (Origin k e) (.run, k) (φ, k₁)
  pending : sp ∈ k₁.sleepingProcs
  due : sp.wakeUpTick ≤ k₁.ticks
  found : getProcByPid k₁ sp.pid = .ok (some p)
  blocked : (k₁.procs p).status = .blocked

/-- The event is an interrupt of the hardware timer. -/
def Event.isTimer : Event → Bool
  | .timer => true
  | _ => false

/-- The number of hardware timer interrupts among the events. -/
def hardwareTicks (es : List Event) : Nat := es.countP Event.isTimer

/-- The entry that `sleep(s)` of the process `p` appends. -/
abbrev napEntry (j : Kernel) (p : ProcId) (s : Nat) : SleepingProc :=
  sleepEntry j p (wakeUpTick j (secondsToTicks s))

/-- The sleep whose entry is `sp` has been pending since the history `tr` began, and in the
    step `e` from `k` `timer_handler` makes the sleeper `p` `READY`. -/
structure WokenAfter (sp : SleepingProc) (p : ProcId)
    (tr : List (Kernel × Event × Option Completion)) (k : Kernel) (e : Event) : Prop where
  pending : ∀ i ∈ tr.map Prod.fst ++ [k], sp ∈ i.sleepingProcs
  woken : ∃ k₁ sp', TimerWakes k e k₁ sp' p

/-! ### The counter -/

/-- One step moves the counter by one tick at most. -/
theorem step_ticks {u : Kernel} (h : step k e = some (u, o)) :
    u.ticks = k.ticks ∨ u.ticks = (k.ticks + 1) % word := by
  cases he : sleepTick k e with
  | none => exact (step_lapse he h).imp (congrArg Alarm.now) (congrArg Alarm.now)
  | some t =>
    obtain ⟨c, node, -, hclock⟩ := step_sleep he h
    exact .inr (congrArg Alarm.now hclock)

/-- **Between two entries no pending sleep is due.** -/
theorem early_run (h : Run f ok tr k) : k.clock.Early SleepingProc.wakeUpTick := by
  refine h.invariant (fun k => k.clock.Early SleepingProc.wakeUpTick) ?_ ?_
  · intro x hx
    cases hx
  · intro t e u o hI _ hs
    show u.clock.Early _
    cases he : sleepTick t e with
    | none =>
      rcases step_lapse he hs with hclock | hclock
      · rw [hclock]
        exact hI
      · rw [hclock]
        exact Alarm.early_tick
    | some t =>
      obtain ⟨c, node, -, hclock⟩ := step_sleep he hs
      rw [hclock]
      exact Alarm.early_tick

/-- While a sleep is pending, every hardware interrupt has moved the counter, and so has the
    switch of the sleep itself. -/
theorem pending_ticks (h : Run f ok (tr₁ ++ (j, .sysSleep s, o) :: tr₂) k)
    (hs : 0 < s) (hfit : s * 18 + j.ticks < word)
    (hpend : ∀ i ∈ tr₂.map Prod.fst, napEntry j p s ∈ i.sleepingProcs) :
    hardwareTicks (tr₂.map fun x => x.2.1) + j.ticks + 1 ≤ k.ticks := by
  refine h.since (fun tr k => (∀ i ∈ tr.map Prod.fst, napEntry j p s ∈ i.sleepingProcs) →
    hardwareTicks (tr.map fun x => x.2.1) + j.ticks + 1 ≤ k.ticks) ?_ ?_ hpend
  · intro u _ _ hstep _
    -- the switch of the sleep
    obtain ⟨c, node, -, hclock⟩ := step_sleep rfl hstep
    have hticks : u.ticks = (j.ticks + 1) % word := congrArg Alarm.now hclock
    rw [hticks, Nat.mod_eq_of_lt (by omega)]
    simp [hardwareTicks]
  · intro tr t e u o hr hJ _ hstep hpend
    have hticks := hJ fun i hi => hpend i (by simp [hi])
    have hmem : napEntry j p s ∈ t.sleepingProcs := hpend t (by simp)
    have hnow : (t.ticks + 1) % word = t.ticks + 1 :=
      Alarm.now_tick (early_run hr) hmem (Nat.mod_lt _ (by decide))
    have hle : t.ticks ≤ u.ticks := by
      rcases step_ticks hstep with hu | hu
      · omega
      · omega
    have hcount : hardwareTicks ((tr ++ [(t, e, o)]).map fun x => x.2.1) =
        hardwareTicks (tr.map fun x => x.2.1) + if e.isTimer then 1 else 0 := by
      simp [hardwareTicks, List.countP_append, List.countP_singleton]
    rw [hcount]
    cases e with
    | timer =>
      have hu : u.ticks = (t.ticks + 1) % word := congrArg Alarm.now (step_timer hstep)
      simp only [Event.isTimer, if_true]
      omega
    | _ =>
      simp only [Event.isTimer, Bool.false_eq_true, if_false]
      omega

/-- **How long a sleep lasts.**  A process `p` calls `sleep(s)` with `18 * s + ticks < 2 ^ 64`;
    whenever `timer_handler` makes it `READY` while that sleep is pending, at least `18 * s`
    hardware timer interrupts have occurred since the call exactly when `s = 0`. -/
theorem sleep_wake (h : Run f ok (tr₁ ++ (j, .sysSleep s, o) :: tr₂) k)
    (hfit : s * 18 + j.ticks < word) (hw : WokenAfter (napEntry j p s) p tr₂ k e) :
    18 * s ≤ hardwareTicks ((tr₂.map fun x => x.2.1) ++ [e]) ↔ s = 0 := by
  constructor
  · intro hlong
    by_contra hs
    have hticks := pending_ticks h (by omega) hfit fun i hi => hw.pending i (by simp [hi])
    have hlt : k.ticks < (napEntry j p s).wakeUpTick := early_run h _ (hw.pending k (by simp))
    have hwake : (napEntry j p s).wakeUpTick = j.ticks + s * 18 := by
      show (j.ticks + s * 18 % word) % word = _
      rw [Nat.mod_eq_of_lt (a := s * 18) (by omega), Nat.mod_eq_of_lt (by omega)]
    have hone : hardwareTicks [e] ≤ 1 := List.countP_le_length
    have hsum : hardwareTicks ((tr₂.map fun x => x.2.1) ++ [e]) =
        hardwareTicks (tr₂.map fun x => x.2.1) + hardwareTicks [e] := List.countP_append
    omega
  · rintro rfl
    exact Nat.zero_le _

/-- `idle` sleeps for a second, and meanwhile `init` yields sixteen times. -/
def yieldingEvents : List Event :=
  [.sysSpawn { entry := some 1, fds := none, background := false },
   .sysSpawn { entry := some 2, fds := none, background := true }, .timer, .sysSleep 1] ++
  (List.replicate 16 [.sysYield, .resume]).flatten

/-- The sleep of `yieldingEvents` is due at the next hardware interrupt. -/
def dueNext (tr : List (Kernel × Event × Option Completion)) (k : Kernel) : Bool :=
  match tr.drop 3 with
  | (j, .sysSleep 1, _) :: tr₂ =>
    decide (j.currentProcess = some 0) && decide (18 + j.ticks < word) &&
      (tr₂.map Prod.fst ++ [k]).all (fun i => decide (napEntry j 0 1 ∈ i.sleepingProcs)) &&
      tr₂.all (fun x => !x.2.1.isTimer) &&
      decide ((napEntry j 0 1).wakeUpTick ≤ (k.ticks + 1) % word) &&
      decide ((getProcByPid k (napEntry j 0 1).pid).toOption = some (some 0)) &&
      decide ((k.procs 0).status = .blocked)
  | _ => false

/-- What `dueNext` has checked. -/
theorem wokenAfter_of_dueNext (h : dueNext tr k = true) : ∃ tr₁ j o tr₂,
    tr = tr₁ ++ (j, .sysSleep 1, o) :: tr₂ ∧ j.currentProcess = some 0 ∧
    1 * 18 + j.ticks < word ∧ WokenAfter (napEntry j 0 1) 0 tr₂ k .timer ∧
    hardwareTicks ((tr₂.map fun x => x.2.1) ++ [.timer]) = 1 := by
  unfold dueNext at h
  split at h
  swap
  · cases h
  rename_i j o tr₂ htr
  simp only [Bool.and_eq_true, decide_eq_true_eq] at h
  obtain ⟨⟨⟨⟨⟨⟨hc, hfit⟩, hpend⟩, hquiet⟩, hdue⟩, hfound⟩, hblocked⟩ := h
  have hpend' : ∀ i ∈ tr₂.map Prod.fst ++ [k], napEntry j 0 1 ∈ i.sleepingProcs :=
    fun i hi => of_decide_eq_true (List.all_eq_true.mp hpend i hi)
  refine ⟨tr.take 3, j, o, tr₂, ?_, hc, hfit, ⟨hpend', ?_⟩, ?_⟩
  · rw [← htr, List.take_append_drop]
  · refine ⟨{ k with ticks := (k.ticks + 1) % word }, napEntry j 0 1,
      ⟨.run, .inl rfl, .one .tick trivial⟩, hpend' k (by simp), hdue,
      Outcome.toOption_eq_some.mp hfound, hblocked⟩
  · have hzero : hardwareTicks (tr₂.map fun x => x.2.1) = 0 := by
      refine List.countP_eq_zero.mpr fun e he => ?_
      obtain ⟨x, hx, rfl⟩ := List.mem_map.mp he
      simpa using List.all_eq_true.mp hquiet x hx
    rw [hardwareTicks, List.countP_append, ← hardwareTicks, hzero]
    rfl

/-- A process sleeps for a second, and the first hardware interrupt wakes it. -/
theorem exists_dueNext : ∃ tr k, Run (fun _ => true) (fun _ _ => True) tr k ∧
    dueNext tr k = true := by
  have hcheck : execCheck step (fun _ _ => True) dueNext (boot fun _ => true) yieldingEvents =
      true := by decide +kernel
  exact Trace.of_execCheck hcheck

theorem sleep_wake_early : ∃ tr₁ j o tr₂ k,
    Run (fun _ => true) (fun _ _ => True) (tr₁ ++ (j, .sysSleep 1, o) :: tr₂) k ∧
    ¬ 18 * 1 ≤ hardwareTicks ((tr₂.map fun x => x.2.1) ++ [.timer]) := by
  obtain ⟨tr, k, hrun, hdue⟩ := exists_dueNext
  obtain ⟨tr₁, j, o, tr₂, rfl, -, hfit, hwoken, -⟩ := wokenAfter_of_dueNext hdue
  exact ⟨tr₁, j, o, tr₂, k, hrun, fun hlong =>
    absurd ((sleep_wake hrun hfit hwoken).mp hlong) (by decide)⟩

/-- **A second of sleep may end at the first hardware interrupt.** -/
theorem sleep_not_hardware : ¬ ∀ tr₁ j s o tr₂ k p e,
    Run (fun _ => true) (fun _ _ => True) (tr₁ ++ (j, .sysSleep s, o) :: tr₂) k →
    j.currentProcess = some p → s * 18 + j.ticks < word →
    WokenAfter (napEntry j p s) p tr₂ k e →
    18 * s ≤ hardwareTicks ((tr₂.map fun x => x.2.1) ++ [e]) := by
  intro hall
  obtain ⟨tr, k, hrun, hdue⟩ := exists_dueNext
  obtain ⟨tr₁, j, o, tr₂, rfl, hc, hfit, hwoken, hone⟩ := wokenAfter_of_dueNext hdue
  have hlong := hall tr₁ j 1 o tr₂ k 0 .timer hrun hc hfit hwoken
  omega

end TpeSo
