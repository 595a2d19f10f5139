import TpeSo.Family.Remains
import TpeSo.Pipes.ByName

namespace TpeSo

open Ds Lib

/-!
# Descriptors — where an entry comes from

* `SlotStep k e k' q i` — the ways slot `i` of `q` may have come to hold what it holds after the
  step `e`;
* `sysSpawnProcess_fds` — the descriptors of a new process;
* `step_slot` — **every step is one of these ways for every slot of every process.**
-/

variable {k k' : Kernel} {e : Event} {o : Option Completion} {c p q : ProcId} {i : Fin fdMax}

/-- The table of the end that `open_pipe` opens. -/
def endOf (mode : Int) : FileOps := if mode = 0 then .pipeRead else .pipeWrite

theorem endOf_isPipe (mode : Int) : (endOf mode).isPipe := by
  unfold endOf
  split <;> trivial

/-- The pipe that an open of the name `id` attaches to. -/
def OpensTo (k : Kernel) (id : List UInt8) (pp : PipeId) : Prop :=
  findPipeById k id = some pp ∨ findPipeById k id = none ∧ pp = k.nextPipe

/-- The entry of a slot that a new process has not inherited. -/
def FdEntry.Initial (d : FdEntry) : Prop :=
  d = {} ∨ ∃ ops, ¬ FileOps.isPipe ops ∧ d = { ops := some ops, type := .terminal }

theorem FdEntry.Initial.not_refers {d : FdEntry} (h : d.Initial) (ops : FileOps) (pp : PipeId) :
    ¬ d.refers ops pp := by
  rcases h with rfl | ⟨ops', hops', rfl⟩
  · exact FdEntry.not_refers_empty
  · exact FdEntry.not_refers_terminal

/-- What the step has written into slot `i` of `q`, if anything. -/
inductive SlotStep (k : Kernel) (e : Event) (k' : Kernel) (q : ProcId) (i : Fin fdMax) : Prop where
  | same (h : (k'.procs q).fds i = (k.procs q).fds i)
  | closed (he : e = .sysCloseFd i.val) (hc : k.currentProcess = some q)
      (h : (k'.procs q).fds i = {})
  | killed (hq : killTarget k e = some q) (h : (k'.procs q).fds i = {})
  | opened (id junk : List UInt8) (mode : Int) (he : e = .sysPipeOpen id junk mode)
      (hc : k.currentProcess = some q) (hi : findFreeFd k q = some i) (pp : PipeId)
      (hpp : OpensTo k id pp) (h : (k'.procs q).fds i = pipeEntry pp (endOf mode))
  | inherited (a : SpawnArgs) (he : e = .sysSpawn a) (hq : q = k.nextProc) (c : ProcId)
      (hc : k.currentProcess = some c) (fds : Fin fdMax → Int) (hfds : a.fds = some fds)
      (hlow : ∀ y < i, 0 ≤ fds y) (j : Fin fdMax) (hj : fds i = j.val)
      (h : (k'.procs q).fds i = (k.procs c).fds j)
  | born (a : SpawnArgs) (he : e = .sysSpawn a) (hq : q = k.nextProc)
      (h : ((k'.procs q).fds i).Initial)

theorem fds_of_remains (h : k'.remains = k.remains) (q : ProcId) :
    (k'.procs q).fds = (k.procs q).fds :=
  congrArg (fun x => x.2.2) (congrFun h q)

theorem fds_of_remains_at (h : k'.remains q = k.remains q) : (k'.procs q).fds = (k.procs q).fds :=
  congrArg (fun x => x.2.2) h

theorem SlotStep.of_remains (h : k'.remains = k.remains) : SlotStep k e k' q i :=
  .same (by rw [fds_of_remains h])

theorem SlotStep.of_people (h : k'.people = k.people) : SlotStep k e k' q i :=
  .of_remains (remains_of_people h)

theorem SlotStep.of_fixed (h : k'.fixed = k.fixed) : SlotStep k e k' q i :=
  .of_people (people_of_fixed h)

/-! ### Opening -/

theorem setFd_fds (k : Kernel) (p : ProcId) (i : Fin fdMax) (d : FdEntry) (q : ProcId)
    (j : Fin fdMax) : ((setFd k p i d).procs q).fds j =
      if q = p ∧ j = i then d else (k.procs q).fds j := by
  unfold setFd
  by_cases hq : q = p
  · subst hq
    by_cases hj : j = i <;> simp [hj]
  · simp [hq]

theorem fds_attachEnd (k : Kernel) (c : ProcId) (i : Fin fdMax) (pp : PipeId) (mode : Int)
    (q : ProcId) (j : Fin fdMax) : ((attachEnd k c i pp mode).procs q).fds j =
      if q = c ∧ j = i then pipeEntry pp (endOf mode) else (k.procs q).fds j := by
  unfold attachEnd endOf
  split
  · exact setFd_fds k c i _ q j
  · exact setFd_fds k c i _ q j

/-- **What `open_pipe` writes**: the free slot of its caller if it succeeds, and nothing else. -/
theorem openPipe_fds (k : Kernel) (c : ProcId) (i : Fin fdMax) (id junk : List UInt8) (mode : Int) :
    ((openPipe k c i id junk mode).2 = 0 ∧ ∃ pp, OpensTo k id pp ∧
      ∀ q j, ((openPipe k c i id junk mode).1.procs q).fds j =
        if q = c ∧ j = i then pipeEntry pp (endOf mode) else (k.procs q).fds j) ∨
    ((openPipe k c i id junk mode).2 = -1 ∧
      ∀ q, ((openPipe k c i id junk mode).1.procs q).fds = (k.procs q).fds) := by
  have hcreate := fds_of_remains (remains_of_people (people_createPipe k id junk))
  have hres := openPipe_result k c i id junk mode
  generalize openPipe k c i id junk mode = r at hres ⊢
  cases hres with
  | badMode => exact .inr ⟨rfl, fun _ => rfl⟩
  | noRoom hf hnone => exact .inr ⟨rfl, hcreate⟩
  | found pp hf => exact .inl ⟨rfl, pp, .inl hf, fds_attachEnd k c i pp mode⟩
  | created pp hf hpp =>
    have hnew : pp = k.nextPipe := by
      rcases createPipe_cases k id junk with ⟨hnone, -⟩ | ⟨x, -, hsome, -⟩
      · rw [hnone] at hpp
        cases hpp
      · exact Option.some.inj (hpp.symm.trans hsome)
    refine .inl ⟨rfl, pp, .inr ⟨hf, hnew⟩, fun q j => ?_⟩
    rw [fds_attachEnd, hcreate]

/-! ### Birth -/

theorem fds_fdAddRef (k : Kernel) (d : FdEntry) (q : ProcId) :
    ((fdAddRef k d).procs q).fds = (k.procs q).fds :=
  fds_of_remains (remains_of_people (people_fdAddRef k d)) q

/-- **What `inherit_fds` writes**: into a slot of the new process, the descriptor of its parent
    that the array names for this slot, unless the array has ended before. -/
theorem inheritLoop_fds {s : ProcId} (hps : p ≠ s) (fds : Fin fdMax → Int)
    (is : List (Fin fdMax)) : ∀ (k : Kernel) (i : Fin fdMax), is.Pairwise (· < ·) →
      ((inheritLoop k p s fds is).procs p).fds i = (k.procs p).fds i ∨
        i ∈ is ∧ (∀ y ∈ is, y < i → 0 ≤ fds y) ∧ ∃ j : Fin fdMax, fds i = j.val ∧
          ((inheritLoop k p s fds is).procs p).fds i = (k.procs s).fds j := by
  induction is with
  | nil => exact fun _ _ _ => .inl rfl
  | cons x is ih =>
    intro k i hsorted
    obtain ⟨hx_lt, hsorted⟩ := List.pairwise_cons.mp hsorted
    unfold inheritLoop
    split
    · rename_i hx
      -- one round: slot `x` is filled, and the parent keeps its descriptors
      have hstep : ∀ (q : ProcId) (j : Fin fdMax), ((setFd (fdAddRef k ((k.procs s).fds
          ⟨(fds x).toNat, toNat_lt_fdMax hx⟩)) p x
            ((k.procs s).fds ⟨(fds x).toNat, toNat_lt_fdMax hx⟩)).procs q).fds j =
          if q = p ∧ j = x then (k.procs s).fds ⟨(fds x).toNat, toNat_lt_fdMax hx⟩
          else (k.procs q).fds j := by
        intro q j
        rw [setFd_fds, fds_fdAddRef]
      rcases ih (setFd (fdAddRef k ((k.procs s).fds ⟨(fds x).toNat, toNat_lt_fdMax hx⟩)) p x
          ((k.procs s).fds ⟨(fds x).toNat, toNat_lt_fdMax hx⟩)) i hsorted with
        hi | ⟨hmem, hlow, j, hj, hi⟩
      · by_cases hix : i = x
        · subst hix
          rw [hstep, if_pos ⟨rfl, rfl⟩] at hi
          refine .inr ⟨List.mem_cons_self, fun y hy hlt => ?_,
            ⟨(fds i).toNat, toNat_lt_fdMax hx⟩, (Int.toNat_of_nonneg hx.1).symm, hi⟩
          rcases List.mem_cons.mp hy with rfl | hy
          · exact absurd hlt (lt_irrefl _)
          · exact absurd (hx_lt y hy) (not_lt.mpr hlt.le)
        · rw [hstep, if_neg fun h => hix h.2] at hi
          exact .inl hi
      · rw [hstep, if_neg fun h => hps h.1.symm] at hi
        refine .inr ⟨List.mem_cons_of_mem x hmem, fun y hy hlt => ?_, j, hj, hi⟩
        rcases List.mem_cons.mp hy with rfl | hy
        · exact hx.1
        · exact hlow y hy hlt
    · exact .inl rfl

/-- The descriptors `proc_init` gives a process without any. -/
theorem initFds_fds (hp : ∀ i, (k.procs p).fds i = {}) {parent : Option ProcId}
    (hparent : ∀ s, parent = some s → p ≠ s) (fds : Option (Fin fdMax → Int)) (i : Fin fdMax) :
    (((initFds k p parent fds).procs p).fds i).Initial ∨
      ∃ s f j, parent = some s ∧ fds = some f ∧ (∀ y < i, 0 ≤ f y) ∧ f i = (j : Fin fdMax).val ∧
        ((initFds k p parent fds).procs p).fds i = (k.procs s).fds j := by
  cases fds with
  | none =>
    refine .inl ?_
    show (((setFd (setFd (setFd k p 0 _) p 1 _) p 2 _).procs p).fds i).Initial
    rw [setFd_fds, setFd_fds, setFd_fds, hp]
    split
    · exact .inr ⟨.videoErr, id, rfl⟩
    · split
      · exact .inr ⟨.video, id, rfl⟩
      · split
        · exact .inr ⟨.keyboard, id, rfl⟩
        · exact .inl rfl
  | some f =>
    cases parent with
    | none => exact .inl (.inl (hp i))
    | some s =>
      rcases inheritLoop_fds (hparent s rfl) f (List.finRange fdMax) k i
        (List.pairwise_lt_finRange fdMax) with hi | ⟨-, hlow, j, hj, hi⟩
      · exact .inl (.inl (hi.trans (hp i)))
      · exact .inr ⟨s, f, j, rfl, rfl, fun y hy => hlow y (List.mem_finRange y) hy, hj, hi⟩

theorem fds_setProc (k : Kernel) (p q : ProcId) {f : Proc → Proc} (hf : ∀ x, (f x).fds = x.fds) :
    ((k.setProc p f).procs q).fds = (k.procs q).fds :=
  k.setProc_spares Proc.fds (hf _) q

theorem fds_initFamily (k : Kernel) (p q : ProcId) (parent : Option ProcId) (entry : Nat) :
    ((initFamily k p parent entry).1.procs q).fds = (k.procs q).fds := by
  unfold initFamily
  cases parent with
  | none =>
    dsimp only
    rw [fds_setProc]
    exact fun _ => rfl
  | some c =>
    dsimp only
    split
    · dsimp only
      rw [fds_setProc, fds_setProc] <;> exact fun _ => rfl
    · dsimp only
      rw [fds_setProc]
      exact fun _ => rfl

/-- The descriptors of a new process, after `proc_init`. -/
theorem procInit_fds (hp : ∀ i, (k.procs p).fds i = {})
    (hcur : ∀ s, k.currentProcess = some s → p ≠ s) (a : SpawnArgs) (entry : Nat) (i : Fin fdMax) :
    (((procInit k p a entry).1.procs p).fds i).Initial ∨
      ∃ s f j, k.currentProcess = some s ∧ a.fds = some f ∧ (∀ y < i, 0 ≤ f y) ∧
        f i = (j : Fin fdMax).val ∧
        ((procInit k p a entry).1.procs p).fds i = (k.procs s).fds j := by
  have hpid : ∀ (n : Int) (q : ProcId), ((k.setProc p fun x => { x with pid := n }).procs q).fds =
      (k.procs q).fds := by
    intro n q
    rw [fds_setProc]
    exact fun _ => rfl
  unfold procInit
  split
  · refine .inl (.inl ?_)
    show ((k.setProc p fun x => { x with pid := -1 }).procs p).fds i = {}
    rw [hpid, hp]
  · rename_i n _
    -- the process with its pid, which is in the table now
    generalize hk₁ : ({ k.setProc p (fun q => { q with pid := n }) with
        processTable := Function.update k.processTable n (some p) } : Kernel) = k₁
    have hslot : ∀ q, (k₁.alloc.procs q).fds = (k.procs q).fds := by
      intro q
      rw [← hk₁]
      exact hpid n q
    have hcur₁ : k₁.alloc.currentProcess = k.currentProcess := by
      rw [← hk₁]
      rfl
    dsimp only
    split
    · unfold procSetup
      dsimp only
      rw [fds_initFamily, fds_of_remains (remains_initForeground _ p _ a.background), hcur₁]
      have hstack : ∀ q, ((k₁.alloc.setProc p fun q =>
          { q with hasStack := true, stackPointer := a.stackTop }).procs q).fds =
          (k.procs q).fds := by
        intro q
        rw [fds_setProc]
        · exact hslot q
        · exact fun _ => rfl
      rcases initFds_fds (fun i => (congrFun (hstack p) i).trans (hp i)) hcur a.fds i with
        hi | ⟨s, f, j, hs, hf, hlow, hj, hi⟩
      · exact .inl hi
      · rw [hstack] at hi
        exact .inr ⟨s, f, j, hs, hf, hlow, hj, hi⟩
    · rw [hslot]
      exact .inl (.inl (hp i))

/-- **The descriptors of a new process** are initial ones, or those of its parent that the call
    names. -/
theorem sysSpawnProcess_fds (hcur : k.currentProcess ≠ some k.nextProc) {a : SpawnArgs}
    {r : Kernel × Int} (h : sysSpawnProcess k a = .ok r) (i : Fin fdMax) :
    (r.1.procs k.nextProc).fds i = (k.procs k.nextProc).fds i ∨
      ((r.1.procs k.nextProc).fds i).Initial ∨
      ∃ s f j, k.currentProcess = some s ∧ a.fds = some f ∧ (∀ y < i, 0 ≤ f y) ∧
        f i = (j : Fin fdMax).val ∧
        (r.1.procs k.nextProc).fds i = (k.procs s).fds j := by
  unfold sysSpawnProcess at h
  split at h
  · cases h
    exact .inl rfl
  · rename_i entry _
    dsimp only at h
    unfold procNew at h
    by_cases hcount : (maxProcesses : Int) ≤ k.processCount
    · simp only [hcount, if_true] at h
      cases h
      exact .inl rfl
    · simp only [hcount, if_false] at h
      cases hm : k.kmalloc with
      | false =>
        simp only [hm, Bool.false_eq_true, if_false] at h
        cases h
        exact .inl rfl
      | true =>
        simp only [hm, if_true] at h
        obtain ⟨k₁, he, hr⟩ := Outcome.bind_eq_ok.mp h
        cases hr
        refine .inr ?_
        have hfds : ((procReady k₁ (some k.nextProc)).procs k.nextProc).fds =
            (k₁.procs k.nextProc).fds :=
          fds_of_remains (remains_of_people (people_procReady k₁ _)) _
        show (((procReady k₁ (some k.nextProc)).procs k.nextProc).fds i).Initial ∨ ∃ s f j, _ ∧ _ ∧
          _ ∧ _ ∧ ((procReady k₁ (some k.nextProc)).procs k.nextProc).fds i = _
        rw [hfds, fds_of_remains (remains_execv he)]
        have hnew : ∀ s, k.currentProcess = some s → k.nextProc ≠ s := by
          rintro s hs rfl
          exact hcur hs
        rcases procInit_fds (k := { k.alloc with
            nextProc := k.nextProc + 1
            procs := Function.update k.procs k.nextProc {} }) (p := k.nextProc)
            (fun i => by simp) hnew a entry i with hi | ⟨s, f, j, hs, hf, hlow, hj, hi⟩
        · exact .inl hi
        · refine .inr ⟨s, f, j, hs, hf, hlow, hj, hi.trans ?_⟩
          simp [Function.update_of_ne (hnew s hs).symm]

/-! ### Every entry -/

theorem SlotStep.openPipe {id junk : List UInt8} {mode : Int} (he : e = .sysPipeOpen id junk mode)
    (hc : k.currentProcess = some c) {j : Fin fdMax} (hj : findFreeFd k c = some j)
    (hk' : k' = (openPipe k c j id junk mode).1) : SlotStep k e k' q i := by
  subst hk'
  rcases openPipe_fds k c j id junk mode with ⟨-, pp, hpp, h⟩ | ⟨-, h⟩
  · by_cases hslot : q = c ∧ i = j
    · obtain ⟨rfl, rfl⟩ := hslot
      exact .opened id junk mode he hc hj pp hpp (by rw [h, if_pos ⟨rfl, rfl⟩])
    · exact .same (by rw [h, if_neg hslot])
  · exact .same (by rw [h])

theorem SlotStep.closeSlot (hc : k.currentProcess = some c) (j : Fin fdMax)
    (he : e = .sysCloseFd j.val) (hk' : k' = closeSlot k c j) : SlotStep k e k' q i := by
  subst hk'
  have hrem := congrFun (remains_closeSlot k c j) q
  by_cases hq : q = c
  · subst hq
    rw [Function.update_self] at hrem
    have hfds : ((TpeSo.closeSlot k q j).procs q).fds = Function.update (k.procs q).fds j {} :=
      congrArg (fun x => x.2.2) hrem
    by_cases hij : i = j
    · subst hij
      exact .closed he hc (by rw [hfds, Function.update_self])
    · exact .same (by rw [hfds, Function.update_of_ne hij])
  · rw [Function.update_of_ne hq] at hrem
    exact .same (by rw [fds_of_remains_at hrem])

theorem SlotStep.withFd {fd : Int} {f : ProcId → FdEntry → Outcome StepResult} {r : StepResult}
    (h : TpeSo.withFd k fd f = .ok r) (hf : ∀ c d r, f c d = .ok r → r.1.people = k.people) :
    SlotStep k e r.1 q i := by
  unfold TpeSo.withFd at h
  split at h
  · split at h
    · cases h
      exact .of_people rfl
    · exact .of_people (hf _ _ r h)
  · cases h
    exact .of_people rfl

/-- A kill in a kernel that has the processes of `k`. -/
theorem SlotStep.procKill {k₁ k₂ : Kernel} {proc : Option ProcId} {code : Int}
    (hk₁ : k₁.procs = k.procs)
    (hp : killTarget k e = proc.filter fun p => (k.procs p).pid ≠ 0 ∧ (k.procs p).pid ≠ 1)
    (h : TpeSo.procKill k₁ proc code = .ok k₂) (hk' : k'.people = k₂.people) :
    SlotStep k e k' q i := by
  have hrem : k₁.remains = k.remains := by
    unfold Kernel.remains
    rw [hk₁]
  have hrem' := remains_of_people hk'
  cases proc with
  | none =>
    cases h
    exact .of_remains (hrem'.trans hrem)
  | some p =>
    by_cases hpid : (k.procs p).pid = 0 ∨ (k.procs p).pid = 1
    · rw [TpeSo.procKill, if_pos (by rwa [hk₁])] at h
      cases h
      exact .of_remains (hrem'.trans hrem)
    · have hkilled := remains_procKill (by rwa [hk₁]) h
      rw [hrem] at hkilled
      have hat := congrFun (hrem'.trans hkilled) q
      by_cases hq : q = p
      · subst hq
        rw [Function.update_self] at hat
        refine .killed ?_ (congrFun (congrArg (fun x => x.2.2) hat) i)
        rw [hp]
        rw [not_or] at hpid
        simp [Option.filter, hpid]
      · rw [Function.update_of_ne hq] at hat
        exact .same (by rw [fds_of_remains_at hat])

theorem SlotStep.waitPidLoop {k₁ : Kernel} {pid : Int} {r : Kernel × Option WaitResult}
    (hprocs : k₁.procs = k.procs) (h : TpeSo.waitPidLoop k₁ c pid = .ok r) :
    SlotStep k e r.1 q i := by
  refine .of_remains ((waitPidLoop_status h).1.trans ?_)
  unfold Kernel.remains
  rw [hprocs]

theorem SlotStep.waitPid {pid : Int} {r : Kernel × Option WaitResult}
    (h : TpeSo.waitPid k pid = .ok r) : SlotStep k e r.1 q i :=
  .of_remains (waitPid_status h).1

theorem SlotStep.keyPress {sc : Nat} (h : handleKeyPress k sc = .ok k') :
    SlotStep k (.key sc) k' q i := by
  rcases handleKeyPress_cases h with ⟨-, hline⟩ | ⟨hctrl, hk⟩
  · refine .of_people ?_
    rcases hline with rfl | ⟨ch, rfl⟩ | ⟨_, _, _, _, _, rfl⟩
    · exact people_handleCtrlD k
    · exact people_handleChar k ch
    · rfl
  · refine .procKill rfl ?_ hk rfl
    simp only [killTarget, hctrl, and_self, if_true]

theorem SlotStep.spawn {a : SpawnArgs} (he : e = .sysSpawn a)
    (hcur : k.currentProcess ≠ some k.nextProc) {r : Kernel × Int}
    (h : sysSpawnProcess k a = .ok r) : SlotStep k e r.1 q i := by
  by_cases hq : q = k.nextProc
  · subst hq
    rcases sysSpawnProcess_fds hcur h i with hi | hi | ⟨s, f, j, hs, hf, hlow, hj, hi⟩
    · exact .same hi
    · exact .born a he rfl hi
    · exact .inherited a he rfl s hs f hf hlow j hj hi
  · exact .same (by rw [fds_of_remains_at (remains_sysSpawnProcess h hq)])

theorem SlotStep.enter (hcur : k.currentProcess ≠ some k.nextProc) {r : StepResult}
    (h : TpeSo.enter k e = .ok r) : SlotStep k e r.1 q i := by
  cases e with
  | timer =>
    obtain ⟨k₁, hk, he⟩ := Outcome.bind_eq_ok.mp h
    cases he
    exact .of_fixed (fixed_callTimerTick hk)
  | key sc =>
    obtain ⟨k₁, hk, he⟩ := Outcome.bind_eq_ok.mp h
    cases he
    exact .keyPress hk
  | resume => cases h
  | sysRead fd count buf0 =>
    change sysRead k fd count buf0 = _ at h
    exact .withFd h fun c d r hr => people_fdRead hr
  | sysWrite fd buf =>
    change sysWrite k fd buf = _ at h
    exact .withFd h fun c d r hr => people_fdWrite hr
  | sysSleep s =>
    obtain ⟨k₁, hk, he⟩ := Outcome.bind_eq_ok.mp h
    cases he
    exact .of_fixed (fixed_sleepHelper hk)
  | sysUsleep us =>
    simp only [TpeSo.enter, sysUsleep] at h
    split at h
    · cases h
      exact .of_people rfl
    · obtain ⟨k₁, hk, he⟩ := Outcome.bind_eq_ok.mp h
      cases he
      exact .of_fixed (fixed_sleepHelper hk)
  | sysPipeCreate id junk =>
    refine .of_people (Eq.trans ?_ (people_createPipe k id junk))
    simp only [TpeSo.enter, sysPipeCreate] at h
    split at h <;> · cases h; rfl
  | sysPipeOpen id junk mode =>
    simp only [TpeSo.enter, sysPipeOpen] at h
    split at h
    · cases h
      exact .of_people rfl
    · split at h
      · cases h
        exact .of_people rfl
      · rename_i c hc
        split at h
        · cases h
          exact .of_people rfl
        · rename_i j hj
          refine .openPipe rfl hc hj ?_
          split at h <;> · cases h; rfl
  | sysPipeClose id =>
    simp only [TpeSo.enter, sysPipeClose] at h
    split at h <;> · cases h; exact .of_people rfl
  | sysSpawn a =>
    obtain ⟨r₁, hr₁, he⟩ := Outcome.bind_eq_ok.mp h
    cases he
    exact .spawn rfl hcur hr₁
  | sysKillProc pid =>
    simp only [TpeSo.enter, sysKillProc] at h
    split at h
    · cases h
      exact .of_people rfl
    · rename_i hpid
      obtain ⟨found, hfound, h⟩ := Outcome.bind_eq_ok.mp h
      split at h
      · cases h
        exact .of_people rfl
      · obtain ⟨k₁, hk, he⟩ := Outcome.bind_eq_ok.mp h
        cases he
        refine .procKill rfl ?_ hk rfl
        simp only [killTarget, hpid, if_false, hfound]
  | sysChangePriority pid prio =>
    obtain ⟨found, -, he⟩ := Outcome.bind_eq_ok.mp h
    cases he
    unfold changePriority
    split
    · exact .of_people rfl
    · rename_i p
      dsimp only
      split
      · exact .of_people rfl
      · split
        · exact .of_people rfl
        · have hrem : (k.setProc p fun q => { q with
              priority := (prio % 256).toNat,
              hasQuantum := (prio % 256).toNat }).remains = k.remains :=
            remains_setProc k p fun _ => rfl
          exact .of_remains hrem
  | sysExit code =>
    obtain ⟨k₁, hk, h⟩ := Outcome.bind_eq_ok.mp h
    obtain ⟨k₂, ht, he⟩ := Outcome.bind_eq_ok.mp h
    cases he
    have hsuspend : (k.suspend .exit).procs = k.procs := by
      unfold Kernel.suspend
      split <;> rfl
    exact .procKill hsuspend rfl hk (people_of_fixed (fixed_callTimerTick ht))
  | sysBlock pid =>
    obtain ⟨r₁, hr₁, he⟩ := Outcome.bind_eq_ok.mp h
    cases he
    exact .of_fixed (fixed_blockProcessByPid hr₁)
  | sysUnblock pid =>
    obtain ⟨r₁, hr₁, he⟩ := Outcome.bind_eq_ok.mp h
    cases he
    exact .of_fixed (fixed_unblockProcessByPid hr₁)
  | sysCloseFd fd =>
    simp only [TpeSo.enter, sysCloseFd] at h
    split at h
    · cases h
      exact .of_people rfl
    · rename_i c hc
      split at h
      · rename_i hfd
        cases h
        refine .closeSlot hc ⟨fd.toNat, toNat_lt_fdMax hfd⟩ ?_ rfl
        rw [show ((⟨fd.toNat, toNat_lt_fdMax hfd⟩ : Fin fdMax).val : Int) = fd from
          Int.toNat_of_nonneg hfd.1]
      · cases h
        exact .of_people rfl
  | sysWaitPid pid =>
    obtain ⟨r₁, hr₁, he⟩ := Outcome.bind_eq_ok.mp h
    cases he
    exact .waitPid hr₁
  | sysWait =>
    obtain ⟨r₁, hr₁, he⟩ := Outcome.bind_eq_ok.mp h
    cases he
    exact .waitPid hr₁
  | sysYield =>
    obtain ⟨k₁, hk, he⟩ := Outcome.bind_eq_ok.mp h
    cases he
    exact .of_fixed ((fixed_yield hk).trans (fixed_suspend k .yield))
  | sysCreateSem id v => cases h; exact .of_people (people_mySemCreate k id v)
  | sysCloseSem id => cases h; exact .of_people (people_mySemDestroy k id)
  | sysSemPost id =>
    obtain ⟨r₁, hr₁, he⟩ := Outcome.bind_eq_ok.mp h
    cases he
    exact .of_people (people_mySemPost hr₁)
  | sysSemWait id =>
    obtain ⟨r₁, hr₁, he⟩ := Outcome.bind_eq_ok.mp h
    cases he
    exact .of_people (people_mySemWait hr₁)
  | sysSemTrywait id =>
    obtain ⟨r₁, hr₁, he⟩ := Outcome.bind_eq_ok.mp h
    cases he
    exact .of_people (people_mySemTrywait hr₁)
  | user _ | sysSetCanonical _ => cases h; exact .of_people rfl

theorem SlotStep.resume {w : Pending} {r : StepResult} (h : TpeSo.resume k c w = .ok r) :
    SlotStep k .resume r.1 q i := by
  have hstack : { k with kstack := Function.update k.kstack c none }.people = k.people := rfl
  cases w with
  | yield | sleep | block | semWait id =>
    cases h
    exact .of_people rfl
  | exit => cases h
  | pipeRead pp size =>
    obtain ⟨r₁, hr₁, he⟩ := Outcome.bind_eq_ok.mp h
    cases he
    exact .of_people ((people_pipeRead hr₁).trans hstack)
  | pipeWrite pp buf =>
    obtain ⟨r₁, hr₁, he⟩ := Outcome.bind_eq_ok.mp h
    cases he
    exact .of_people ((people_pipeWrite hr₁).trans hstack)
  | waitPid pid =>
    obtain ⟨r₁, hr₁, he⟩ := Outcome.bind_eq_ok.mp h
    cases he
    have hprocs : { k with kstack := Function.update k.kstack c none }.procs = k.procs := rfl
    exact .waitPidLoop hprocs hr₁
  | readLine count buf0 =>
    obtain ⟨r₁, hr₁, he⟩ := Outcome.bind_eq_ok.mp h
    cases he
    exact .of_people ((people_readLine hr₁).trans hstack)

/-- A step keeps what a run keeps between steps. -/
theorem Born.run_step (h : Born .run k) (hs : TpeSo.step k e = some (k', o)) : Born .run k' :=
  Does.invariant Born (fun _ _ _ _ _ hI _ hm => hI.step hm) (step_does hs) h

/-- **Where an entry comes from**, for every slot of every process. -/
theorem step_slot (hcur : k.currentProcess ≠ some k.nextProc) (hs : step k e = some (k', o))
    (q : ProcId) (i : Fin fdMax) : SlotStep k e k' q i := by
  rcases step_eq_some hs with ⟨-, -, h⟩ | ⟨rfl, c, w, -, -, h⟩
  · exact .enter hcur h
  · exact .resume h

/-! ### Opening and closing by the running process -/

/-- `find_free_fd` finds a slot that is free. -/
theorem findFreeFd_type (h : findFreeFd k p = some i) : ((k.procs p).fds i).type = .none := by
  have hfree := List.find?_some h
  exact of_decide_eq_true hfree

/-- **What `sys_pipe_open` returns**: the slot it has filled, or a negative number. -/
theorem step_open {id junk : List UInt8} {mode : Int} (hc : k.currentProcess = some c)
    (hs : step k (.sysPipeOpen id junk mode) = some (k', o)) : ∃ ret, o = some (.other ret) ∧
      ((∃ i pp, findFreeFd k c = some i ∧ OpensTo k id pp ∧ ret = i.val ∧
        ∀ q j, (k'.procs q).fds j =
          if q = c ∧ j = i then pipeEntry pp (endOf mode) else (k.procs q).fds j) ∨
      (ret < 0 ∧ ∀ q, (k'.procs q).fds = (k.procs q).fds)) := by
  have hcall : sysPipeOpen k id junk mode = .ok (k', o) := step_attempt hs
  unfold sysPipeOpen at hcall
  split at hcall
  · cases hcall
    exact ⟨_, rfl, .inr ⟨by decide, fun _ => rfl⟩⟩
  · rw [hc] at hcall
    dsimp only at hcall
    split at hcall
    · cases hcall
      exact ⟨_, rfl, .inr ⟨by decide, fun _ => rfl⟩⟩
    · rename_i i hi
      rcases openPipe_fds k c i id junk mode with ⟨hret, pp, hpp, hfds⟩ | ⟨hret, hfds⟩
      · rw [if_neg (by rw [hret]; decide)] at hcall
        cases hcall
        exact ⟨_, rfl, .inl ⟨i, pp, hi, hpp, rfl, hfds⟩⟩
      · rw [if_pos (by rw [hret]; decide)] at hcall
        cases hcall
        exact ⟨_, rfl, .inr ⟨by rw [hret]; decide, hfds⟩⟩

/-- `sys_close_fd` leaves the slot empty. -/
theorem step_closeFd {i : Fin fdMax} (hc : k.currentProcess = some c)
    (hs : step k (.sysCloseFd i.val) = some (k', o)) : (k'.procs c).fds i = {} := by
  have hcall : sysCloseFd k i.val = .ok (k', o) := step_attempt hs
  have hrange : 0 ≤ (i.val : Int) ∧ (i.val : Int) < fdMax := by omega
  unfold sysCloseFd at hcall
  rw [hc] at hcall
  dsimp only at hcall
  rw [dif_pos hrange] at hcall
  cases hcall
  exact (setFd_fds _ c i {} c i).trans (if_pos ⟨rfl, rfl⟩)

end TpeSo
