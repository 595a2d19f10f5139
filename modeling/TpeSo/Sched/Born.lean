import TpeSo.Sched.View

namespace TpeSo

open Ds Lib

/-!
# Scheduling — only processes that exist run or wait

`Born φ k` holds after every run of the kernel, whatever the entries: the queues, the
processor and the phase only name processes that have been handed out.
-/

variable {φ ψ : Phase} {k k' : Kernel}

/-- The kernel names only processes that have been handed out. -/
structure Born (φ : Phase) (k : Kernel) : Prop where
  unborn : ∀ p, k.nextProc ≤ p → (k.procs p).status = .dead ∨ (k.procs p).status = .zombie
  waiting : ∀ w, ∀ p ∈ waiters k w, p < k.nextProc
  current : ∀ c, k.currentProcess = some c → c < k.nextProc
  setup : ∀ p slot, φ = .spawning p slot → p < k.nextProc

namespace Born

theorem boot (f : Nat → Bool) : Born .run (boot f) where
  unborn _ _ := .inl rfl
  waiting w p hp := by
    cases w <;> cases hp
  current _ hc := nomatch hc
  setup _ _ hφ := nomatch hφ

theorem lt_of_status (h : Born φ k) {p : ProcId} (hd : (k.procs p).status ≠ .dead)
    (hz : (k.procs p).status ≠ .zombie) : p < k.nextProc := by
  by_contra hp
  rcases h.unborn p (Nat.le_of_not_lt hp) with hs | hs
  · exact hd hs
  · exact hz hs

theorem lt_of_blocked (h : Born φ k) {p : ProcId} (hs : (k.procs p).status = .blocked) :
    p < k.nextProc :=
  h.lt_of_status (by simp [hs]) (by simp [hs])

theorem lt_of_firstWaiter (h : Born φ k) {w : WaitRef} {p : ProcId}
    (hw : firstWaiter k w = some p) : p < k.nextProc := by
  refine h.waiting w p ?_
  rw [(waiters_of_firstWaiter hw).2]
  exact List.mem_cons_self

/-- An edit that hands out nothing and moves only existing processes. -/
theorem change (h : Born φ k) (hn : k'.nextProc = k.nextProc)
    (hs : ∀ p, k.nextProc ≤ p → (k'.procs p).status = (k.procs p).status ∨
      (k'.procs p).status = .zombie)
    (hw : ∀ w, ∀ p ∈ waiters k' w, p ∈ waiters k w ∨ p < k.nextProc)
    (hc : ∀ c, k'.currentProcess = some c → k.currentProcess = some c ∨ c < k.nextProc)
    (hψ : ∀ p slot, ψ = .spawning p slot → p < k.nextProc) : Born ψ k' where
  unborn p hp := by
    rw [hn] at hp
    rcases hs p hp with he | he
    · rw [he]
      exact h.unborn p hp
    · exact .inr he
  waiting w p hp := by
    rw [hn]
    rcases hw w p hp with hp | hp
    · exact h.waiting w p hp
    · exact hp
  current c hcur := by
    rw [hn]
    rcases hc c hcur with hcur | hcur
    · exact h.current c hcur
    · exact hcur
  setup p slot he := by
    rw [hn]
    exact hψ p slot he

/-- An edit that moves no process. -/
theorem same (h : Born φ k) (hn : k'.nextProc = k.nextProc)
    (hs : ∀ p, (k'.procs p).status = (k.procs p).status)
    (hw : ∀ w, waiters k' w = waiters k w) (hc : k'.currentProcess = k.currentProcess)
    (hψ : ∀ p slot, ψ = .spawning p slot → p < k.nextProc) : Born ψ k' :=
  h.change hn (fun p _ => .inl (hs p)) (fun w _ hp => .inl (hw w ▸ hp))
    (fun _ hcur => .inl (hc ▸ hcur)) hψ

theorem of_schedSame (h : Born φ k) (hs : SchedSame k k') : Born φ k' :=
  h.change hs.nextProc (fun p _ => .inl (hs.status p))
    (fun w _ hp => .inl ((hs.waiters w).mem hp)) (fun _ hc => .inl (hs.current ▸ hc)) h.setup

/-- The phase may change to one that sets up no process. -/
theorem phase (h : Born φ k) (hψ : ∀ p slot, ψ ≠ .spawning p slot) : Born ψ k :=
  { h with setup := fun p slot he => (hψ p slot he).elim }

theorem of_ticking (h : Born φ k) (_ : φ.ticking) : Born .run k :=
  h.phase fun _ _ he => nomatch he

/-- `proc_ready` of an existing process. -/
theorem procReady (h : Born φ k) {p : ProcId} (hp : p < k.nextProc) :
    Born φ (procReady k (some p)) := by
  refine h.change rfl (fun q hq => ?_) (fun w q hq => ?_) (fun _ hc => .inl hc) h.setup
  · left
    rw [procReady_procs_ne k (hp.trans_le hq).ne']
  · by_cases hw : w = .readyQueue
    · subst hw
      rcases mem_of_mem_enqueue hq with hq | rfl
      · exact .inl hq
      · exact .inr hp
    · rw [procReady_waiters k p hw] at hq
      exact .inl hq

/-- `block` marks a process. -/
theorem markBlocked (h : Born φ k) {p : ProcId} (hp : p < k.nextProc) (r : BlockReason)
    (w : WaitRef) : Born φ (markBlocked k p r w) := by
  refine h.change rfl (fun q hq => .inl ?_) (fun v q hq => .inl ?_) (fun _ hc => .inl hc) h.setup
  · show (Function.update k.procs p _ q).status = _
    rw [Function.update_of_ne (hp.trans_le hq).ne']
  · cases v with
    | readyQueue => exact mem_of_mem_queueRemove hq
    | _ => exact hq

/-- Dispatching the head of the ready queue. -/
theorem dispatchTo (h : Born φ k) (hφ : φ.ticking) {p : ProcId} {rest : List ProcId}
    (hr : k.readyProcesses = p :: rest) : Born .run (dispatchTo k p rest) := by
  have hp : p < k.nextProc := h.waiting .readyQueue p (by simp [waiters, hr])
  refine (h.of_ticking hφ).change rfl (fun q hq => .inl ?_) (fun w q hq => .inl ?_)
    (fun c hc => .inr ?_) (by simp)
  · show (Function.update k.procs p _ q).status = _
    rw [Function.update_of_ne (hp.trans_le hq).ne']
  · cases w with
    | readyQueue =>
      show q ∈ k.readyProcesses
      rw [hr]
      exact List.mem_cons_of_mem p hq
    | _ => exact hq
  · cases hc
    exact hp

/-- An existing process gives up the processor. -/
theorem leave (h : Born .run k) {c : ProcId} (hc : c < k.nextProc) (r : BlockReason)
    (w : WaitRef) (pend : Pending) : Born .leaving (leave k c r w pend) := by
  have hc' : c < (k.suspend pend).nextProc := by
    rwa [(SchedSame.suspend k pend).nextProc]
  exact ((h.of_schedSame (.suspend k pend)).markBlocked hc' r w).same rfl
    (Kernel.setProc_spares _ Proc.status rfl) (waiters_congr rfl rfl rfl rfl) rfl
    fun _ _ he => nomatch he

/-- A new process control block. -/
theorem newProc (h : Born φ k) : Born (.spawning k.nextProc none) { k with
    nextProc := k.nextProc + 1, procs := Function.update k.procs k.nextProc {} } where
  unborn p hp := by
    have hne : p ≠ k.nextProc := (Nat.lt_of_succ_le hp).ne'
    simpa [hne] using h.unborn p (Nat.le_of_succ_le hp)
  waiting w p hp := by
    refine Nat.lt_succ_of_lt (h.waiting w p ?_)
    cases w <;> exact hp
  current c hc := Nat.lt_succ_of_lt (h.current c hc)
  setup p slot he := by
    cases he
    exact Nat.lt_succ_self _

/-- **Every edit keeps `Born`.** -/
theorem step (h : Born φ k) {a : Act} (hm : Micro φ k a ψ k') : Born ψ k' := by
  by_cases ha : a.offSched
  · obtain ⟨hs, rfl⟩ := hm.schedSame ha
    exact h.of_schedSame hs
  cases hm with
  | quantum p n =>
    exact h.same rfl (k.setProc_spares Proc.status rfl) (waiters_congr rfl rfl rfl rfl) rfl h.setup
  | tick => exact h.same rfl (fun _ => rfl) (waiters_congr rfl rfl rfl rfl) rfl h.setup
  | tickLeaving =>
    exact h.same rfl (fun _ => rfl) (waiters_congr rfl rfl rfl rfl) rfl fun _ _ he => nomatch he
  | wakeSleeper _ _ _ _ hs =>
    exact (h.procReady (h.lt_of_blocked hs)).same rfl (fun _ => rfl)
      (waiters_congr rfl rfl rfl rfl) rfl h.setup
  | dropSleeper => exact h.same rfl (fun _ => rfl) (waiters_congr rfl rfl rfl rfl) rfl h.setup
  | stay hφ => exact h.of_ticking hφ
  | refill n hφ =>
    exact (h.of_ticking hφ).same rfl (k.setProc_spares Proc.status rfl)
      (waiters_congr rfl rfl rfl rfl) rfl fun _ _ he => nomatch he
  | dispatch hφ _ hr => exact h.dispatchTo hφ hr
  | preempt hφ hc _ hr => exact (h.procReady (h.current _ hc)).dispatchTo hφ hr
  | @blockSelf _ c w reason pend hc hw =>
    have hb := SchedBase.linkWaiter k w c
    refine Born.leave (k := linkWaiter k w c) ?_ ?_ reason w pend
    · refine h.change hb.nextProc (fun q _ => .inl (hb.status q)) (fun v q hq => ?_)
        (fun _ hc => .inl (hb.current ▸ hc)) h.setup
      rcases waiters_linkWaiter k w c hw.ne_readyQueue v with he | ⟨-, he⟩
      · exact .inl (he ▸ hq)
      · rw [he, List.mem_append, List.mem_singleton] at hq
        rcases hq with hq | rfl
        · exact .inl hq
        · exact .inr (h.current q hc)
    · rw [hb.nextProc]
      exact h.current c hc
  | @blockSleep _ c t hc =>
    refine Born.leave (k := linkSleeper k c t) ?_ (h.current c hc) .sleep .sleepers .sleep
    exact h.same rfl (fun _ => rfl) (waiters_congr rfl rfl rfl rfl) rfl h.setup
  | blockOther _ hs => exact h.markBlocked (h.lt_of_status hs.2.1 hs.1) _ _
  | unblock hs => exact h.procReady (h.lt_of_blocked hs)
  | @wake _ _ w p _ hw =>
    have hp := h.lt_of_firstWaiter hw
    refine (h.of_schedSame (.popWaiter k w)).procReady ?_
    rwa [(SchedSame.popWaiter k w).nextProc]
  | wakeParent hs => exact h.procReady (h.lt_of_blocked hs)
  | kill p code =>
    refine h.change (bury_nextProc k p code) (fun q _ => ?_)
      (fun w q hq => .inl (mem_waiters_bury hq)) (fun c hc => .inl (current_of_bury hc).1)
      fun _ _ he => nomatch he
    by_cases hqp : q = p
    · subst hqp
      exact .inr (by simp [bury])
    · exact .inl (by rw [bury_procs_ne k code hqp])
  | endKill => exact h.phase fun _ _ he => nomatch he
  | reapSelf => exact h.same rfl (fun _ => rfl) (waiters_congr rfl rfl rfl rfl) rfl h.setup
  | reapChild => exact h.same rfl (fun _ => rfl) (waiters_congr rfl rfl rfl rfl) rfl h.setup
  | newProc => exact h.newProc
  | noPid =>
    exact h.same rfl (k.setProc_spares Proc.status rfl) (waiters_congr rfl rfl rfl rfl) rfl h.setup
  | @claimPid p _ i =>
    have hlt := h.setup p none rfl
    refine h.same rfl (k.setProc_spares Proc.status (f := fun q => { q with pid := i }) rfl)
      (waiters_congr rfl rfl rfl rfl) rfl ?_
    rintro _ _ ⟨⟩
    exact hlt
  | start => exact (h.procReady (h.setup _ _ rfl)).phase fun _ _ he => nomatch he
  | @startBare p _ _ =>
    refine ((h.of_schedSame (.alloc k)).procReady ?_).phase fun _ _ he => nomatch he
    exact h.setup p none rfl
  | _ => exact absurd trivial ha

end Born

/-- No edit takes back a process. -/
theorem Micro.nextProc_le {a : Act} (hm : Micro φ k a ψ k') : k.nextProc ≤ k'.nextProc := by
  by_cases hoff : a.offSched
  · exact (hm.schedSame hoff).1.nextProc.ge
  cases hm with
  | @blockSelf _ c w reason pend =>
    show _ ≤ ((linkWaiter k w c).suspend pend).nextProc
    rw [(SchedSame.suspend _ pend).nextProc, (SchedBase.linkWaiter k w c).nextProc]
  | @blockSleep _ c t =>
    show _ ≤ ((linkSleeper k c t).suspend .sleep).nextProc
    rw [(SchedSame.suspend _ .sleep).nextProc]
    exact le_rfl
  | @wake _ _ w p =>
    show _ ≤ (popWaiter k w).nextProc
    rw [(SchedSame.popWaiter k w).nextProc]
  | kill p code => rw [bury_nextProc]
  | newProc => exact Nat.le_succ _
  | _ => first | exact le_rfl | exact absurd trivial hoff

end TpeSo
