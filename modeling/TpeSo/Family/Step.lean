import TpeSo.Acts.Objects
import TpeSo.Family.Tidy
import TpeSo.Family.Wakes

namespace TpeSo

open Ds Lib

/-!
# Family — one entry is one change of the family

* `Kernel.zombies` — who is dead and not collected, or long gone;
* `FamilyStep k e k'` — an entry lets the family be, puts its caller to wait, collects one
  child, kills one process, or adds one;
* `step_family` — every entry of a run of families does one of these.
-/

variable {f : Nat → Bool} {ok : Kernel → Event → Prop} {k k' k₁ : Kernel} {e : Event}
  {o : Option Completion} {p c : ProcId}

/-- The processes `proc_kill` has been through. -/
def Kernel.zombies (k : Kernel) : Set ProcId := {p | (k.procs p).status = .zombie}

/-- **What an entry makes of the family.** -/
inductive FamilyStep (k : Kernel) (e : Event) (k' : Kernel) : Prop where
  | steady (hfam : k'.family = k.family) (hz : k'.zombies = k.zombies) (hr : Rouses k k')
  /-- `c` blocks inside `wait_pid(pid)`. -/
  | wait {c : ProcId} {pid : Int} (hc : k.currentProcess = some c) (hfam : k'.family = k.family)
      (hz : k'.zombies = k.zombies)
      (hr : ∀ q pid', AwaitsChild k' q pid' → AwaitsChild k q pid' ∨ q = c ∧ pid' = pid)
      (hnone : pid = -1 → ∀ x ∈ (k.procs c).children, ∀ z, k.family.find x = .ok (some z) →
        z ∉ k.zombies)
  /-- `c` collects the zombie `child`, which it finds at place `i` of its array. -/
  | collect {c child : ProcId} {i : Nat} {pid : Int} (hc : k.currentProcess = some c)
      (hpid : (k.procs c).children[i]? = some pid) (hchild : k.family.find pid = .ok (some child))
      (hdead : child ∈ k.zombies) (hfam : k.family.collect c i child = .ok k'.family)
      (hz : k'.zombies = k.zombies) (hr : Rouses k k')
  | kill {p : ProcId} (ht : killTarget k e = some p) (hfam : k.family.kill p = .ok k'.family)
      (hz : k'.zombies = insert p k.zombies) (hr : Rouses k k')
      (hparent : ∀ q pid, (k'.procs p).parent = some q → ¬ AwaitsChild k' q pid)
  | spawn {a : SpawnArgs} (he : e = .sysSpawn a) (hroom : k.HeapOk → procPidAlloc k ≠ none)
      (hfam : k'.family =
        k.family.birth (procPidAlloc k) (k.mallocOk 1) k.currentProcess a.background)
      (hz : k'.zombies = k.zombies) (hr : Rouses k k')

/-! ### Routines that let the family be -/

theorem family_wakeReader (k : Kernel) : (wakeReader k).family = k.family :=
  family_procReady { k with keyboardQueue := _ } _

theorem family_handleCtrlD (k : Kernel) : (handleCtrlD k).family = k.family := by
  unfold handleCtrlD
  split
  · refine (family_wakeReader _).trans ?_
    split <;> rfl
  · rfl

theorem family_handleChar (k : Kernel) (ch : UInt8) : (handleChar k ch).family = k.family := by
  have hwake := family_wakeReader
  have hprocs : ∀ k p, ((wakeReader k).procs p).kin = (k.procs p).kin :=
    fun k p => congrArg (fun s => s.kin p) (hwake k)
  have htable : ∀ k, (wakeReader k).processTable = k.processTable :=
    fun k => congrArg Family.table (hwake k)
  have hfg : ∀ k, (wakeReader k).foregroundProcess = k.foregroundProcess :=
    fun k => congrArg Family.foreground (hwake k)
  have hnext : ∀ k, (wakeReader k).nextProc = k.nextProc :=
    fun k => congrArg Family.next (hwake k)
  unfold handleChar Kernel.family
  simp only [apply_ite Kernel.procs, apply_ite Kernel.processTable, apply_ite Kernel.nextProc,
    apply_ite Kernel.foregroundProcess, htable, hfg, hnext, kbuffPut, ite_self, ite_apply,
    apply_ite Proc.kin, hprocs]

theorem family_getLine (k : Kernel) (count : Nat) : (getLine k count).1.family = k.family := by
  unfold getLine
  split
  · dsimp only
    split <;> rfl
  · rfl

/-! ### Waiting -/

/-- The scan of `wait_pid(-1)` stops at a zombie, and passes over everybody else. -/
theorem findZombie_at {child : ProcId} {j : Nat} (pids : List Int) :
    ∀ i, findZombie k pids i = .ok (some (j, child)) →
      ∃ n pid, j = i + n ∧ pids[n]? = some pid ∧ getProcByPid k pid = .ok (some child) ∧
        (k.procs child).status = .zombie := by
  induction pids with
  | nil =>
    intro i h
    cases h
  | cons pid rest ih =>
    intro i h
    have hrest : findZombie k rest (i + 1) = .ok (some (j, child)) →
        ∃ n pid', j = i + n ∧ (pid :: rest)[n]? = some pid' ∧
          getProcByPid k pid' = .ok (some child) ∧ (k.procs child).status = .zombie := by
      intro hr
      obtain ⟨n, pid', hj, hn, hp, hz⟩ := ih _ hr
      exact ⟨n + 1, pid', by omega, hn, hp, hz⟩
    obtain ⟨o, ho, h⟩ := Outcome.bind_eq_ok.mp h
    cases o with
    | none => exact hrest h
    | some q =>
      by_cases hz : (k.procs q).status = .zombie
      · simp only [hz, if_true, Outcome.ok.injEq, Option.some.injEq, Prod.mk.injEq] at h
        obtain ⟨rfl, rfl⟩ := h
        exact ⟨0, pid, rfl, rfl, ho, hz⟩
      · simp only [hz, if_false] at h
        exact hrest h

theorem findZombie_none (pids : List Int) : ∀ i, findZombie k pids i = .ok none →
    ∀ x ∈ pids, ∀ z, k.family.find x = .ok (some z) → z ∉ k.zombies := by
  induction pids with
  | nil =>
    intro i h x hx
    cases hx
  | cons pid rest ih =>
    intro i h x hx z hfind hz
    obtain ⟨o, ho, h⟩ := Outcome.bind_eq_ok.mp h
    rcases List.mem_cons.mp hx with rfl | hx
    · rw [← family_find, ho] at hfind
      cases hfind
      simp only [show (k.procs z).status = .zombie from hz, if_true] at h
      cases h
    · cases o with
      | none => exact ih _ h x hx z hfind hz
      | some q =>
        by_cases hq : (k.procs q).status = .zombie
        · simp only [hq, if_true] at h
          cases h
        · simp only [hq, if_false] at h
          exact ih _ h x hx z hfind hz

theorem family_blockCurrent {reason : BlockReason} {res : WaitRef}
    (h : blockCurrent k reason res = .ok k') : k'.family = k.family :=
  family_of_fixed (fixed_blockCurrent h)

/-- `block_current(BLK_CHILD, NULL)`: only the caller comes to wait, for `pid`. -/
theorem waitChild_spec {pid : Int} {r : Kernel × Option WaitResult}
    (hc : k.currentProcess = some c) (hs : (k.procs c).status = .running)
    (h : waitChild k pid = .ok r) : r.1.family = k.family ∧
      ∀ q pid', AwaitsChild r.1 q pid' → AwaitsChild k q pid' ∨ q = c ∧ pid' = pid := by
  obtain ⟨k₁, hb, he⟩ := Outcome.bind_eq_ok.mp h
  cases he
  refine ⟨(family_blockCurrent hb).trans (family_suspend k _), fun q pid' hq => ?_⟩
  have hc' : (k.suspend (.waitPid pid)).currentProcess = some c :=
    (suspend_currentProcess k _).trans hc
  rcases Rouses.blockCurrent hc' hb q pid' hq with hq | ⟨rfl, -, hw⟩
  · refine .inl (Rouses.suspend k _ (fun c' hc' => ?_) q pid' hq)
    rw [hc] at hc'
    cases hc'
    rw [hs]
    decide
  · simp only [Kernel.suspend, hc, Function.update_self, Option.some.injEq, Pending.waitPid.injEq]
      at hw
    exact .inr ⟨rfl, hw.symm⟩

/-- **One round of `wait_pid`.** -/
theorem waitPidLoop_cases {pid : Int} {r : Kernel × Option WaitResult}
    (hc : k.currentProcess = some c) (hs : (k.procs c).status = .running)
    (h : waitPidLoop k c pid = .ok r) :
    r.1 = k ∨
    (r.1.family = k.family ∧
      (∀ q pid', AwaitsChild r.1 q pid' → AwaitsChild k q pid' ∨ q = c ∧ pid' = pid) ∧
      (pid = -1 → ∀ x ∈ (k.procs c).children, ∀ z, k.family.find x = .ok (some z) →
        z ∉ k.zombies)) ∨
    ∃ i x child, (k.procs c).children[i]? = some x ∧ k.family.find x = .ok (some child) ∧
      child ∈ k.zombies ∧ collect k c i child = .ok r.1 := by
  unfold waitPidLoop at h
  split at h
  · obtain ⟨o, ho, h⟩ := Outcome.bind_eq_ok.mp h
    cases o with
    | none =>
      obtain ⟨hfam, hw⟩ := waitChild_spec hc hs h
      exact .inr (.inl ⟨hfam, hw, fun _ => findZombie_none _ 0 ho⟩)
    | some jc =>
      obtain ⟨n, x, hj, hn, hp, hz⟩ := findZombie_at _ 0 ho
      obtain ⟨k₁, hcol, he⟩ := Outcome.bind_eq_ok.mp h
      cases he
      refine .inr (.inr ⟨jc.1, x, jc.2, ?_, hp, hz, hcol⟩)
      rw [hj, Nat.zero_add]
      exact hn
  · rename_i hpid
    split at h
    · rename_i hmem
      obtain ⟨o, ho, h⟩ := Outcome.bind_eq_ok.mp h
      cases o with
      | none =>
        cases h
        exact .inl rfl
      | some child =>
        by_cases hz : (k.procs child).status = .zombie
        · simp only [hz, if_true] at h
          obtain ⟨k₁, hcol, he⟩ := Outcome.bind_eq_ok.mp h
          cases he
          exact .inr (.inr ⟨_, pid, child, List.getElem?_idxOf hmem, ho, hz, hcol⟩)
        · simp only [hz, if_false] at h
          obtain ⟨hfam, hw⟩ := waitChild_spec hc hs h
          exact .inr (.inl ⟨hfam, hw, fun hpid' => absurd hpid' hpid⟩)
    · cases h
      exact .inl rfl

/-- A process that waits for a line waits for no child. -/
theorem readLine_aside {count : Nat} {buf0 : UInt8} {r : Kernel × Option LineResult}
    (hc : k.currentProcess = some c) (hs : (k.procs c).status = .running)
    (h : readLine k c count buf0 = .ok r) : r.1.family = k.family ∧ Rouses k r.1 := by
  obtain ⟨n, -, h⟩ := Outcome.bind_eq_ok.mp h
  split at h
  · split at h
    · cases h
      exact ⟨rfl, .refl k⟩
    · obtain ⟨k₁, hb, he⟩ := Outcome.bind_eq_ok.mp h
      cases he
      change blockCurrent ((linkWaiter k .keyboard c).suspend _) _ _ = _ at hb
      have hc' : (linkWaiter k .keyboard c).currentProcess = some c := hc
      refine ⟨(family_blockCurrent hb).trans (family_suspend _ _), fun q pid hq => ?_⟩
      rcases Rouses.blockCurrent ((suspend_currentProcess _ _).trans hc') hb q pid hq with
        hq | ⟨-, hreason, -⟩
      · refine Rouses.suspend (linkWaiter k .keyboard c) _ (fun c' hc'' => ?_) q pid hq
        cases hc'.symm.trans hc''
        exact fun hb => absurd (hs.symm.trans hb) (by decide)
      · cases hreason
  · cases h
    exact ⟨family_getLine k count, .of_leftAlone fun q => .of_quiet q (.getLine k count)⟩

/-- A round of `wait_pid`, as a change of the family. -/
theorem FamilyStep.of_waitPidLoop {pid : Int} {r : Kernel × Option WaitResult} {k₀ : Kernel}
    (hfam : k.family = k₀.family) (hz : r.1.zombies = k₀.zombies) (hrouse : Rouses k₀ k)
    (hzk : k.zombies = k₀.zombies) (hcur : k.currentProcess = k₀.currentProcess)
    (hc : k.currentProcess = some c) (hs : (k.procs c).status = .running)
    (h : waitPidLoop k c pid = .ok r) : FamilyStep k₀ e r.1 := by
  have hchildren : (k₀.procs c).children = (k.procs c).children :=
    congrArg (fun s : Family => (s.kin c).children) hfam.symm
  rcases waitPidLoop_cases hc hs h with hr | ⟨hfam', hw, hnone⟩ | ⟨i, x, child, hi, hx, hdead, hcol⟩
  · rw [hr] at hz ⊢
    exact .steady hfam hz hrouse
  · have hwaits : ∀ q pid', AwaitsChild r.1 q pid' → AwaitsChild k₀ q pid' ∨ q = c ∧ pid' = pid :=
      fun q pid' hq => (hw q pid' hq).imp_left (hrouse q pid')
    refine .wait (hcur ▸ hc) (hfam'.trans hfam) hz hwaits ?_
    rw [hchildren, ← hfam, ← hzk]
    exact hnone
  · refine .collect (hcur ▸ hc) (hchildren ▸ hi) (hfam ▸ hx) (hzk ▸ hdead) ?_ hz
      (hrouse.trans (.of_leftAlone fun q => .collect q hcol))
    rw [← hfam]
    exact family_collect hcol

/-! ### Dying -/

/-- The victim of a clean kill is a zombie at its end, and no zombie is linked then. -/
theorem Final.procKill (h : Final .run k) (hkill : CleanKill k p) {code : Int}
    (hpid : ¬ ((k.procs p).pid = 0 ∨ (k.procs p).pid = 1))
    (hk : TpeSo.procKill k (some p) code = .ok k') :
    Final .run k' ∧ (k'.procs p).status = .zombie := by
  obtain ⟨k₂, hr, hn⟩ := procKill_eq_ok hpid hk
  have hC := (Routine.origin k .timer).common
  have hclean : CleanStep k .timer := fun q hq => nomatch hq
  have hquiet := Quiet.setForegroundProcess k (k.procs p).parent (some p)
  obtain ⟨hfinal, -⟩ := h.schedView (ψ := .run) (SchedSame.of_quiet hquiet).toSchedView
    fun _ _ hp => hp
  have hpid₁ : ((setForegroundProcess k (k.procs p).parent (some p)).procs p).pid ≠ 0 := by
    rw [hquiet.pid]
    exact fun h0 => hpid (.inl h0)
  obtain ⟨hbury, -⟩ := hfinal.bury (hkill.calm hquiet.toCalm) hpid₁ code
  have hzombie : ((killUnlink k p code).procs p).status = .zombie := by
    simp [killUnlink]
  -- what is left of `proc_kill` keeps zombies zombies
  have hrest : Does (Origin k .timer) (.dying p, killUnlink k p code) (.run, k') := by
    refine .trans (does_closeFds hC (.inr ⟨p, rfl⟩) p (List.finRange fdMax) _) ?_
    exact .trans ((Quiet.reparentAll _ hr).does hC) (does_killNotify hC hn)
  obtain ⟨hfinal', hkeep⟩ := hbury.does hclean hrest
  exact ⟨hfinal', hkeep p hzombie⟩

/-- Who is a zombie after an entry without a victim was one before it. -/
theorem Settled.zombies_eq (h : Settled k) (he : familyEvent e = true)
    (hd : Does (Origin k e) (.run, k) (.run, k')) (ht : killTarget k e = none) :
    k'.zombies = k.zombies := by
  obtain ⟨-, hkeep, hnew⟩ := h.does he hd
  refine Set.ext fun q => ⟨fun hq => (hnew q hq).resolve_right ?_, hkeep q⟩
  rw [ht]
  exact fun hq => nomatch hq

theorem Settled.zombies_insert (h : Settled k) (he : familyEvent e = true)
    (hd : Does (Origin k e) (.run, k) (.run, k')) (ht : killTarget k e = some p)
    (hz : (k'.procs p).status = .zombie) : k'.zombies = insert p k.zombies := by
  obtain ⟨-, hkeep, hnew⟩ := h.does he hd
  refine Set.ext fun q => ⟨fun hq => ?_, ?_⟩
  · rcases hnew q hq with hq | hq
    · exact .inr hq
    · rw [ht] at hq
      exact .inl (Option.some.inj hq).symm
  · rintro (rfl | hq)
    · exact hz
    · exact hkeep q hq

/-- **`proc_kill`**, as a change of the family. -/
theorem Settled.procKill_cases (h : Settled k) {proc : Option ProcId} {code : Int}
    (hk : procKill k proc code = .ok k') :
    ((proc.filter fun p => (k.procs p).pid ≠ 0 ∧ (k.procs p).pid ≠ 1) = none ∧ k' = k) ∨
    ∃ p, (proc.filter fun p => (k.procs p).pid ≠ 0 ∧ (k.procs p).pid ≠ 1) = some p ∧
      k.family.kill p = .ok k'.family ∧ (k'.procs p).status = .zombie ∧ Rouses k k' ∧
      ∀ q pid, (k'.procs p).parent = some q → ¬ AwaitsChild k' q pid := by
  cases proc with
  | none =>
    cases hk
    exact .inl ⟨rfl, rfl⟩
  | some p =>
    by_cases hpid : (k.procs p).pid = 0 ∨ (k.procs p).pid = 1
    · simp only [TpeSo.procKill, hpid, if_true] at hk
      cases hk
      refine .inl ⟨?_, rfl⟩
      rcases hpid with hpid | hpid <;> simp [Option.filter, hpid]
    · obtain ⟨-, hz⟩ := h.final.procKill (h.tidy.cleanKill p) hpid hk
      refine .inr ⟨p, ?_, family_procKill hpid hk, hz, Rouses.procKill hpid hk⟩
      rw [not_or] at hpid
      simp [Option.filter, hpid]

/-- An entry that comes down to one `proc_kill`. -/
theorem FamilyStep.of_procKill (h : Settled k) (he : familyEvent e = true)
    (hd : Does (Origin k e) (.run, k) (.run, k')) {proc : Option ProcId} {code : Int}
    (ht : killTarget k e = proc.filter fun p => (k.procs p).pid ≠ 0 ∧ (k.procs p).pid ≠ 1)
    (hk : procKill k proc code = .ok k') : FamilyStep k e k' := by
  rcases h.procKill_cases hk with ⟨-, rfl⟩ | ⟨p, hp, hfam, hz, hr, hparent⟩
  · exact .steady rfl rfl (.refl _)
  · have htarget := ht.trans hp
    exact .kill htarget hfam (h.zombies_insert he hd htarget hz) hr hparent

/-- `sys_exit`: the caller dies, and the processor goes to somebody else. -/
theorem FamilyStep.sysExit (h : Settled k) {code : Int} {r : StepResult}
    (hs : sysExit k code = .ok r) : FamilyStep k (.sysExit code) r.1 := by
  have hd := (does_sysExit hs).mono fun _ _ hC => hC.1
  obtain ⟨k₁, hk, hs⟩ := Outcome.bind_eq_ok.mp hs
  obtain ⟨k₂, htick, he⟩ := Outcome.bind_eq_ok.mp hs
  cases he
  have hsuspend : Does (Origin k (.sysExit code)) (.run, k) (.run, k.suspend .exit) :=
    .one (.suspend trivial) (Routine.origin _ _ _ _ trivial)
  obtain ⟨hset, -⟩ := h.does rfl hsuspend
  have hrouse : Rouses k (k.suspend .exit) := .suspend k .exit fun c hc => by
    rw [show (k.procs c).status = .running from h.tidy.current c hc]
    decide
  have hfam₀ := family_suspend k .exit
  have hfam₂ : k₂.family = k₁.family := family_of_fixed (fixed_callTimerTick htick)
  have htimer : Rouses k₁ k₂ := .of_leftAlone fun q => .of_does (does_timer (.spares q) (.spares q _) htick)
  have hcases := hset.procKill_cases hk
  simp only [suspend_procs] at hcases
  rcases hcases with ⟨hnone, rfl⟩ | ⟨p, hp, hfam, hz, hr, hparent⟩
  · exact .steady (hfam₂.trans hfam₀) (h.zombies_eq rfl hd hnone) (hrouse.trans htimer)
  · -- the timer leaves the dead process dead and its parent awake
    have hd₁ : Does (Origin (k.suspend .exit) (.sysExit code)) (.run, k.suspend .exit) (.run, k₁) := by
      refine does_procKill (Routine.origin _ _).common (fun q k₃ hq hquiet => ⟨hquiet.toCalm, ?_⟩) hk
      rw [← hq]
      simp only [killTarget, suspend_currentProcess]
    have hset₁ := (hset.does rfl hd₁).1
    obtain ⟨-, hkeep, -⟩ := hset₁.does (e := .timer) rfl
      (does_timer (Routine.origin _ _).common ((Routine.origin _ _).preempts _) htick)
    refine .kill hp ?_ (h.zombies_insert rfl hd hp (hkeep p hz)) (hrouse.trans (hr.trans htimer)) ?_
    · rw [hfam₂, ← hfam₀]
      exact hfam
    · intro q pid hq ha
      have hparents : (k₂.procs p).parent = (k₁.procs p).parent :=
        congrArg (fun s : Family => (s.kin p).parent) hfam₂
      exact hparent q pid (hparents ▸ hq) (htimer q pid ha)

/-! ### Every entry -/

/-- `wait_pid`, as a change of the family. -/
theorem FamilyStep.waitPid (h : Settled k) {pid : Int} {r : Kernel × Option WaitResult}
    (hz : r.1.zombies = k.zombies) (hw : waitPid k pid = .ok r) : FamilyStep k e r.1 := by
  unfold TpeSo.waitPid at hw
  split at hw
  · cases hw
  · rename_i c hc
    split at hw
    · cases hw
      exact .steady rfl rfl (.refl k)
    · exact .of_waitPidLoop rfl hz (.refl k) rfl rfl hc (h.tidy.current c hc) hw

/-- What a switched-out system call still does, as a change of the family. -/
theorem FamilyStep.resume (h : Settled k) {w : Pending} {r : StepResult}
    (hz : r.1.zombies = k.zombies) (hc : k.currentProcess = some c) (hw : k.kstack c = some w)
    (hr : resume k c w = .ok r) : FamilyStep k e r.1 := by
  have hrouse : Rouses k { k with kstack := Function.update k.kstack c none } := by
    rintro q pid ⟨hs, hb, hk⟩
    by_cases hq : q = c
    · subst hq
      simp at hk
    · simp only [Function.update_of_ne hq] at hk
      exact ⟨hs, hb, hk⟩
  have hrun : (k.procs c).status = .running := h.tidy.current c hc
  have hpipe := h.noPipeWork c w hw
  cases w with
  | yield | sleep | block =>
    cases hr
    exact .steady rfl rfl hrouse
  | exit => cases hr
  | semWait id =>
    cases hr
    exact .steady rfl rfl hrouse
  | pipeRead pp size => cases hpipe
  | pipeWrite pp buf => cases hpipe
  | waitPid pid =>
    obtain ⟨r₁, hl, he⟩ := Outcome.bind_eq_ok.mp hr
    cases he
    exact .of_waitPidLoop (k := { k with kstack := Function.update k.kstack c none }) rfl hz hrouse
      rfl rfl hc hrun hl
  | readLine count buf0 =>
    obtain ⟨r₁, hl, he⟩ := Outcome.bind_eq_ok.mp hr
    cases he
    obtain ⟨hfam, hline⟩ := readLine_aside
      (k := { k with kstack := Function.update k.kstack c none }) hc hrun hl
    exact .steady hfam hz (hrouse.trans hline)

/-- **One entry is one change of the family.** -/
theorem step_family (h : Settled k) (he : familyEvent e = true) (hs : step k e = some (k', o)) :
    FamilyStep k e k' := by
  have hd := step_does hs
  have hz := h.zombies_eq he hd
  have hrun : ∀ c, k.currentProcess = some c → (k.procs c).status = .running := h.tidy.current
  rcases step_eq_some hs with ⟨hne, -, henter⟩ | ⟨rfl, c, w, hc, hw, hres⟩
  · cases e with
    | timer =>
      obtain ⟨k₁, htick, he'⟩ := Outcome.bind_eq_ok.mp henter
      cases he'
      exact .steady (family_of_fixed (fixed_callTimerTick htick)) (hz rfl)
        (.of_leftAlone fun q => .of_does (does_timer (.spares q) (.spares q _) htick))
    | key sc =>
      obtain ⟨k₁, hkey, he'⟩ := Outcome.bind_eq_ok.mp henter
      cases he'
      rcases handleKeyPress_cases hkey with ⟨hnot, hline⟩ | ⟨hctrl, hk⟩
      · have hfam : k'.family = k.family := by
          rcases hline with rfl | ⟨ch, rfl⟩ | ⟨_, _, _, _, _, rfl⟩
          · exact family_handleCtrlD k
          · exact family_handleChar k ch
          · rfl
        refine .steady hfam (hz ?_) (.of_leftAlone fun q =>
          .of_does (does_handleKeyPress (.spares q) (fun _ _ _ _ => trivial) hkey))
        simp only [killTarget, hnot, if_false]
        rfl
      · refine .of_procKill h rfl hd ?_ hk
        simp only [killTarget, hctrl, and_self, if_true]
    | user rsp =>
      cases henter
      exact .steady rfl (hz rfl) (.of_leftAlone fun _ => .of_procs rfl rfl)
    | resume => exact absurd rfl hne
    | sysSpawn a =>
      obtain ⟨r, hr, he'⟩ := Outcome.bind_eq_ok.mp henter
      cases he'
      have hrouse : Rouses k r.1 := .of_leftAlone fun q =>
        .of_does (does_sysSpawnProcess (.spares q) (fun _ _ _ => trivial) hr)
      rcases family_sysSpawnProcess hr with hfam | ⟨hroom, hfam⟩
      · exact .steady hfam (hz rfl) hrouse
      · exact .spawn rfl hroom hfam (hz rfl) hrouse
    | sysKillProc pid =>
      change sysKillProc k pid = _ at henter
      unfold sysKillProc at henter
      split at henter
      · rename_i hpid
        cases henter
        exact .steady rfl rfl (.refl k)
      · rename_i hpid
        obtain ⟨proc, hproc, henter⟩ := Outcome.bind_eq_ok.mp henter
        cases proc with
        | none =>
          cases henter
          exact .steady rfl rfl (.refl k)
        | some p =>
          obtain ⟨k₁, hk, he'⟩ := Outcome.bind_eq_ok.mp henter
          cases he'
          refine .of_procKill h rfl hd ?_ hk
          simp only [killTarget, hpid, if_false, hproc]
    | sysExit code => exact .sysExit h henter
    | sysWaitPid pid =>
      obtain ⟨r, hr, he'⟩ := Outcome.bind_eq_ok.mp henter
      cases he'
      exact .waitPid h (hz rfl) hr
    | sysWait =>
      obtain ⟨r, hr, he'⟩ := Outcome.bind_eq_ok.mp henter
      cases he'
      exact .waitPid h (hz rfl) hr
    | sysYield =>
      obtain ⟨k₁, hy, he'⟩ := Outcome.bind_eq_ok.mp henter
      cases he'
      refine .steady ((family_of_fixed (fixed_yield hy)).trans (family_suspend k _)) (hz rfl)
        (.trans (.suspend k _ fun c hc => ?_)
          (.of_leftAlone fun q => .of_does (does_yield (.spares q) (.spares q _) hy)))
      rw [hrun c hc]
      decide
    | _ => cases he
  · exact .resume h (hz rfl) hc hw hres

end TpeSo
