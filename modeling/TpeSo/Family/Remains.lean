import Mathlib.Order.Fin.Basic
import TpeSo.Family.Tree
import TpeSo.Pipes.Calls

namespace TpeSo

open Ds Lib

/-!
# Family — what a dead process leaves behind

`wait_pid` reads the exit status of a zombie, and `proc_kill` its pid and its descriptors.

* `Kernel.people` — the processes without what the scheduler writes; most routines keep it;
* `Kernel.remains` — pid, exit status and descriptors of a process;
* `PeopleStep k e k'`, `step_people` — which routine of the code a step changes processes by;
* `RemainsStep k e k'`, `step_remains` — a step changes them for its caller, for a new process,
  or for the process it kills.
-/

variable {k k' k₁ : Kernel} {e : Event} {o : Option Completion} {c p : ProcId}

/-- The processes without what the scheduler writes into them. -/
def Kernel.people (k : Kernel) (p : ProcId) : Proc := (k.procs p).fixed

/-- The pid, the exit status and the descriptors of `p`. -/
def Kernel.remains (k : Kernel) (p : ProcId) : Int × Int × (Fin fdMax → FdEntry) :=
  ((k.procs p).pid, (k.procs p).exit, (k.procs p).fds)

theorem people_of_fixed (h : k'.fixed = k.fixed) : k'.people = k.people :=
  congrArg Kernel.procs h

theorem people_of_procs (h : k'.procs = k.procs) : k'.people = k.people := by
  unfold Kernel.people
  rw [h]

theorem remains_of_people (h : k'.people = k.people) : k'.remains = k.remains := by
  funext p
  have hp : (k'.procs p).fixed = (k.procs p).fixed := congrFun h p
  have hrem := congrArg (fun q : Proc => (q.pid, q.exit, q.fds)) hp
  exact hrem

/-- The relations of every process. -/
def Kernel.kins (k : Kernel) (p : ProcId) : Kin := (k.procs p).kin

theorem kins_of_people (h : k'.people = k.people) : k'.kins = k.kins := by
  funext p
  have hp : (k'.procs p).fixed = (k.procs p).fixed := congrFun h p
  have hkin := congrArg (fun q : Proc => q.kin) hp
  exact hkin

theorem kins_of_family (h : k'.family = k.family) : k'.kins = k.kins := congrArg Family.kin h

/-- An update of the control block of `p` that spares the three. -/
theorem remains_setProc (k : Kernel) (p : ProcId) {f : Proc → Proc}
    (h : ∀ q, ((f q).pid, (f q).exit, (f q).fds) = (q.pid, q.exit, q.fds)) :
    (k.setProc p f).remains = k.remains :=
  funext fun q => k.setProc_spares (fun x => (x.pid, x.exit, x.fds)) (h _) q

theorem remains_setProc_ne (k : Kernel) {p q : ProcId} (f : Proc → Proc) (hq : q ≠ p) :
    (k.setProc p f).remains q = k.remains q := by
  unfold Kernel.remains
  rw [k.procs_setProc_ne hq]

/-! ### Semaphores -/

theorem people_procReady (k : Kernel) (o : Option ProcId) : (procReady k o).people = k.people :=
  people_of_fixed (fixed_procReady k o)

theorem people_blockCurrent {w : Pending} {reason : BlockReason} {res : WaitRef}
    (h : blockCurrent (k.suspend w) reason res = .ok k') : k'.people = k.people :=
  people_of_fixed ((fixed_blockCurrent h).trans (fixed_suspend k w))

theorem people_acquireSem {id : Nat} (h : acquireSem k id = .ok k') : k'.people = k.people := by
  unfold acquireSem at h
  split at h
  · cases h
    rfl
  · cases h

theorem people_mySemCreate (k : Kernel) (id v : Nat) :
    (mySemCreate k id v).1.people = k.people := by
  unfold mySemCreate
  split
  · dsimp only
    split <;> rfl
  · rfl

theorem people_mySemDestroy (k : Kernel) (id : Nat) : (mySemDestroy k id).1.people = k.people := by
  unfold mySemDestroy
  split <;> rfl

theorem people_mySemPost {id : Nat} {r : Kernel × Int} (h : mySemPost k id = .ok r) :
    r.1.people = k.people := by
  unfold mySemPost at h
  split at h
  · obtain ⟨k₁, hacq, h⟩ := Outcome.bind_eq_ok.mp h
    refine Eq.trans ?_ (people_acquireSem hacq)
    dsimp only at h
    split at h <;> cases h
    · dsimp only
      rw [people_procReady]
      rfl
    · rfl
  · cases h
    rfl

theorem people_mySemWait {id : Nat} {r : Kernel × Option Int} (h : mySemWait k id = .ok r) :
    r.1.people = k.people := by
  unfold mySemWait at h
  split at h
  · obtain ⟨k₁, hacq, h⟩ := Outcome.bind_eq_ok.mp h
    refine Eq.trans ?_ (people_acquireSem hacq)
    split at h
    · cases h
      rfl
    · obtain ⟨k₂, hb, he⟩ := Outcome.bind_eq_ok.mp h
      cases he
      exact (people_blockCurrent hb).trans rfl
  · cases h
    rfl

theorem people_mySemTrywait {id : Nat} {r : Kernel × Int} (h : mySemTrywait k id = .ok r) :
    r.1.people = k.people := by
  unfold mySemTrywait at h
  split at h
  · obtain ⟨k₁, hacq, h⟩ := Outcome.bind_eq_ok.mp h
    refine Eq.trans ?_ (people_acquireSem hacq)
    split at h <;> · cases h; rfl
  · cases h
    rfl

/-! ### Pipes -/

theorem people_pipeRead {pp : PipeId} {size : Nat} {r : Kernel × Option (List UInt8)}
    (h : pipeRead k c pp size = .ok r) : r.1.people = k.people := by
  rw [pipeRead_eq (lock_of_pipeRead h)] at h
  split at h
  · split at h
    · cases h
      rfl
    · obtain ⟨k₁, hb, he⟩ := Outcome.bind_eq_ok.mp h
      cases he
      exact (people_blockCurrent hb).trans rfl
  · cases h
    exact (people_procReady _ _).trans rfl

theorem people_pipeWrite {pp : PipeId} {buf : List UInt8} {r : Kernel × Option Int}
    (h : pipeWrite k c pp buf = .ok r) : r.1.people = k.people := by
  rw [pipeWrite_eq (lock_of_pipeWrite h)] at h
  split at h
  · split at h
    · cases h
      rfl
    · obtain ⟨k₁, hb, he⟩ := Outcome.bind_eq_ok.mp h
      cases he
      exact (people_blockCurrent hb).trans rfl
  · cases h
    exact (people_procReady _ _).trans rfl

theorem people_wakeReaders (pp : PipeId) (n : Nat) :
    ∀ k : Kernel, (wakeReaders k pp n).people = k.people := by
  induction n with
  | zero => exact fun _ => rfl
  | succ n ih => exact fun k => (ih _).trans ((people_procReady _ _).trans rfl)

theorem people_freeUnreferenced (k : Kernel) (pp : PipeId) :
    (freeUnreferenced k pp).people = k.people := by
  unfold freeUnreferenced
  split <;> rfl

theorem people_fdClose (k : Kernel) (d : FdEntry) : (fdClose k d).people = k.people := by
  unfold fdClose
  split
  · exact (people_freeUnreferenced _ _).trans rfl
  · unfold pipeCloseWrite
    dsimp only
    refine (people_freeUnreferenced _ _).trans ?_
    split
    · exact (people_wakeReaders _ _ _).trans rfl
    · rfl
  · rfl

theorem people_fdAddRef (k : Kernel) (d : FdEntry) : (fdAddRef k d).people = k.people :=
  people_of_procs (fdAddRef_procs k d)

theorem people_allocAll (n : Nat) : ∀ k : Kernel, (allocAll k n).1.people = k.people := by
  induction n with
  | zero => exact fun _ => rfl
  | succ n ih =>
    intro k
    unfold allocAll
    split
    · exact (ih k.alloc).trans rfl
    · rfl

theorem people_createPipe (k : Kernel) (id junk : List UInt8) :
    (createPipe k id junk).1.people = k.people := by
  unfold createPipe
  split
  · rfl
  · dsimp only
    split <;> exact people_allocAll 5 k

/-! ### The keyboard -/

theorem people_getLine (k : Kernel) (count : Nat) : (getLine k count).1.people = k.people := by
  unfold getLine
  split
  · dsimp only
    split <;> rfl
  · rfl

theorem people_readLine {count : Nat} {buf0 : UInt8} {r : Kernel × Option LineResult}
    (h : readLine k c count buf0 = .ok r) : r.1.people = k.people := by
  obtain ⟨n, -, h⟩ := Outcome.bind_eq_ok.mp h
  split at h
  · split at h
    · cases h
      rfl
    · obtain ⟨k₁, hb, he⟩ := Outcome.bind_eq_ok.mp h
      cases he
      exact (people_blockCurrent hb).trans rfl
  · cases h
    exact people_getLine k count

theorem people_readFromKeyboard {count : Nat} {buf0 : UInt8} {r : Kernel × Option LineResult}
    (h : readFromKeyboard k c count buf0 = .ok r) : r.1.people = k.people := by
  unfold readFromKeyboard at h
  split at h
  · cases h
    rfl
  · split at h
    · cases h
      rfl
    · exact people_readLine h

theorem people_wakeReader (k : Kernel) : (wakeReader k).people = k.people :=
  (people_procReady _ _).trans rfl

theorem people_handleCtrlD (k : Kernel) : (handleCtrlD k).people = k.people := by
  unfold handleCtrlD
  split
  · refine (people_wakeReader _).trans ?_
    split <;> rfl
  · rfl

theorem people_wakeRaw (k : Kernel) : (wakeRaw k).people = k.people := by
  unfold wakeRaw
  split
  · exact people_wakeReader k
  · rfl

theorem people_putLine (k : Kernel) : (putLine k newline).people = k.people := by
  show (if (kbuffPut k newline).canonicalMode then wakeReader (kbuffPut k newline)
    else kbuffPut k newline).people = k.people
  split
  · exact people_wakeReader (kbuffPut k newline)
  · rfl

theorem people_putTab (k : Kernel) : (putTab k).people = k.people :=
  people_of_procs (by simp only [putTab, kbuffPut])

theorem people_handleChar (k : Kernel) (ch : UInt8) : (handleChar k ch).people = k.people := by
  rw [handleChar_eq]
  split
  · split <;> rfl
  · split
    · exact people_putTab k
    · split
      · exact (people_wakeRaw _).trans (people_putLine k)
      · split
        · exact (people_wakeRaw _).trans rfl
        · exact people_wakeRaw k

/-! ### Waiting for children -/

theorem remains_collect {i : Nat} {child : ProcId} (h : collect k c i child = .ok k') :
    k'.remains = k.remains := by
  obtain ⟨k₁, hr, he⟩ := Outcome.bind_eq_ok.mp h
  cases he
  rw [procReap_eq_ok hr]
  exact remains_setProc _ c fun _ => rfl

theorem remains_waitChild {pid : Int} {r : Kernel × Option WaitResult}
    (h : waitChild k pid = .ok r) : r.1.remains = k.remains ∧ r.2 = none := by
  obtain ⟨k₁, hb, he⟩ := Outcome.bind_eq_ok.mp h
  cases he
  exact ⟨remains_of_people (people_blockCurrent hb), rfl⟩

/-- A round of `wait_pid` collects a child, or leaves the processes as they are. -/
theorem waitPidLoop_people {pid : Int} {r : Kernel × Option WaitResult}
    (h : waitPidLoop k c pid = .ok r) :
    r.1.people = k.people ∨ ∃ i child, collect k c i child = .ok r.1 := by
  have hwait : waitChild k pid = .ok r → r.1.people = k.people := by
    intro h
    obtain ⟨k₁, hb, he⟩ := Outcome.bind_eq_ok.mp h
    cases he
    exact people_blockCurrent hb
  unfold waitPidLoop at h
  split at h
  · obtain ⟨found, -, h⟩ := Outcome.bind_eq_ok.mp h
    cases found with
    | none => exact .inl (hwait h)
    | some jc =>
      obtain ⟨k₁, hcol, he⟩ := Outcome.bind_eq_ok.mp h
      cases he
      exact .inr ⟨_, _, hcol⟩
  · split at h
    · obtain ⟨found, -, h⟩ := Outcome.bind_eq_ok.mp h
      cases found with
      | none =>
        cases h
        exact .inl rfl
      | some child =>
        by_cases hz : (k.procs child).status = .zombie
        · simp only [hz, if_true] at h
          obtain ⟨k₁, hcol, he⟩ := Outcome.bind_eq_ok.mp h
          cases he
          exact .inr ⟨_, _, hcol⟩
        · simp only [hz, if_false] at h
          exact .inl (hwait h)
    · cases h
      exact .inl rfl

/-- **One round of `wait_pid`**: a status it hands back is that of a zombie in the table. -/
theorem waitPidLoop_status {pid : Int} {r : Kernel × Option WaitResult}
    (h : waitPidLoop k c pid = .ok r) : r.1.remains = k.remains ∧
      ∀ x st, r.2 = some (x, some st) → ∃ y child, getProcByPid k y = .ok (some child) ∧
        (k.procs child).status = .zombie ∧ st = (k.procs child).exit ∧
        (x = y ∨ x = (k.procs child).pid) := by
  unfold waitPidLoop at h
  split at h
  · obtain ⟨found, hfound, h⟩ := Outcome.bind_eq_ok.mp h
    cases found with
    | none =>
      obtain ⟨hrem, hnone⟩ := remains_waitChild h
      exact ⟨hrem, fun x st hr => absurd (hnone.symm.trans hr) (by simp)⟩
    | some jc =>
      obtain ⟨y, hy, hz⟩ := findZombie_eq_some _ 0 hfound
      obtain ⟨k₁, hcol, he⟩ := Outcome.bind_eq_ok.mp h
      cases he
      refine ⟨remains_collect hcol, fun x st hr => ⟨y, jc.2, hy, hz, ?_⟩⟩
      cases hr
      exact ⟨rfl, .inr rfl⟩
  · split at h
    · obtain ⟨found, hfound, h⟩ := Outcome.bind_eq_ok.mp h
      cases found with
      | none =>
        cases h
        exact ⟨rfl, fun x st hr => nomatch hr⟩
      | some child =>
        by_cases hz : (k.procs child).status = .zombie
        · simp only [hz, if_true] at h
          obtain ⟨k₁, hcol, he⟩ := Outcome.bind_eq_ok.mp h
          cases he
          refine ⟨remains_collect hcol, fun x st hr => ⟨pid, child, hfound, hz, ?_⟩⟩
          cases hr
          exact ⟨rfl, .inl rfl⟩
        · simp only [hz, if_false] at h
          obtain ⟨hrem, hnone⟩ := remains_waitChild h
          exact ⟨hrem, fun x st hr => absurd (hnone.symm.trans hr) (by simp)⟩
    · cases h
      exact ⟨rfl, fun x st hr => nomatch hr⟩

theorem waitPid_status {pid : Int} {r : Kernel × Option WaitResult} (h : waitPid k pid = .ok r) :
    r.1.remains = k.remains ∧ ∀ x st, r.2 = some (x, some st) → ∃ y child,
      getProcByPid k y = .ok (some child) ∧ (k.procs child).status = .zombie ∧
        st = (k.procs child).exit ∧ (x = y ∨ x = (k.procs child).pid) := by
  unfold waitPid at h
  split at h
  · cases h
  · split at h
    · cases h
      exact ⟨rfl, fun x st hr => nomatch hr⟩
    · exact waitPidLoop_status h

/-! ### Death -/

theorem remains_setForegroundProcess (k : Kernel) (o caller : Option ProcId) :
    (setForegroundProcess k o caller).remains = k.remains := by
  have hmode : ∀ (k : Kernel) (x : ProcId) (m : Mode),
      (k.setProc x fun q => { q with mode := m }).remains = k.remains :=
    fun k x m => remains_setProc k x fun _ => rfl
  unfold setForegroundProcess
  repeat' split
  · rfl
  · exact hmode k _ .fg
  · rfl
  · exact (hmode _ _ .fg).trans (hmode k _ .bg)
  · rfl

theorem people_unlinkWaiting (k : Kernel) (p : ProcId) : (unlinkWaiting k p).people = k.people := by
  unfold unlinkWaiting
  split <;> rfl

theorem people_rmCurrent (k : Kernel) (p : ProcId) : (rmCurrent k p).people = k.people := by
  unfold rmCurrent
  split <;> rfl

theorem remains_killUnlink (k : Kernel) (p : ProcId) (code : Int) : (killUnlink k p code).remains =
    Function.update k.remains p ((k.procs p).pid, code, (k.procs p).fds) := by
  have hsame : (unlinkWaiting (rmCurrent (setForegroundProcess k (k.procs p).parent (some p)) p)
      p).remains = k.remains :=
    (remains_of_people ((people_unlinkWaiting _ p).trans (people_rmCurrent _ p))).trans
      (remains_setForegroundProcess k _ _)
  have hp := congrFun hsame p
  unfold killUnlink
  dsimp only
  generalize unlinkWaiting _ p = k₁ at hsame hp ⊢
  rw [← hsame]
  funext q
  by_cases hq : q = p
  · subst hq
    rw [Function.update_self]
    have hpid : (k₁.procs q).pid = (k.procs q).pid := congrArg Prod.fst hp
    have hfds : (k₁.procs q).fds = (k.procs q).fds := congrArg (fun x => x.2.2) hp
    simp [Kernel.remains, Kernel.setProc, hpid, hfds]
  · rw [Function.update_of_ne hq, remains_setProc_ne k₁ _ hq]

theorem remains_closeSlot (k : Kernel) (p : ProcId) (i : Fin fdMax) : (closeSlot k p i).remains =
    Function.update k.remains p
      ((k.procs p).pid, (k.procs p).exit, Function.update (k.procs p).fds i {}) := by
  have hsame := remains_of_people (people_fdClose k ((k.procs p).fds i))
  have hp := congrFun hsame p
  unfold closeSlot
  generalize fdClose k _ = k₁ at hsame hp ⊢
  rw [← hsame]
  funext q
  by_cases hq : q = p
  · subst hq
    rw [Function.update_self]
    have hpid : (k₁.procs q).pid = (k.procs q).pid := congrArg Prod.fst hp
    have hexit : (k₁.procs q).exit = (k.procs q).exit := congrArg (fun x => x.2.1) hp
    have hfds : (k₁.procs q).fds = (k.procs q).fds := congrArg (fun x => x.2.2) hp
    simp [Kernel.remains, setFd, Kernel.setProc, hpid, hexit, hfds]
  · rw [Function.update_of_ne hq]
    exact remains_setProc_ne k₁ _ hq

/-- The slots `is` of `p` are empty afterwards. -/
theorem remains_closeFds (p : ProcId) (is : List (Fin fdMax)) : ∀ k : Kernel,
    (closeFds k p is).remains = Function.update k.remains p ((k.procs p).pid, (k.procs p).exit,
      fun i => if i ∈ is then {} else (k.procs p).fds i) := by
  induction is with
  | nil =>
    intro k
    exact (Function.update_eq_self p k.remains).symm
  | cons i is ih =>
    intro k
    have hslot := remains_closeSlot k p i
    have hp := congrFun hslot p
    rw [Function.update_self] at hp
    have hpid : ((closeSlot k p i).procs p).pid = (k.procs p).pid := congrArg Prod.fst hp
    have hexit : ((closeSlot k p i).procs p).exit = (k.procs p).exit :=
      congrArg (fun x => x.2.1) hp
    have hfds : ((closeSlot k p i).procs p).fds = Function.update (k.procs p).fds i {} :=
      congrArg (fun x => x.2.2) hp
    refine (ih (closeSlot k p i)).trans ?_
    rw [hslot, Function.update_idem, hpid, hexit, hfds]
    congr 3
    funext j
    by_cases hj : j = i
    · subst hj
      simp
    · simp [hj]

theorem remains_reparentAll (pids : List Int) :
    ∀ {k k' : Kernel}, reparentAll k pids = .ok k' → k'.remains = k.remains := by
  induction pids with
  | nil =>
    intro k k' h
    cases h
    rfl
  | cons pid rest ih =>
    intro k k' h
    obtain ⟨found, -, h⟩ := Outcome.bind_eq_ok.mp h
    cases found with
    | none => exact ih h
    | some child =>
      obtain ⟨k₁, hr, h⟩ := Outcome.bind_eq_ok.mp h
      refine (ih h).trans ?_
      unfold reparentToInit at hr
      split at hr
      · cases hr
      · dsimp only at hr
        split at hr
        all_goals
          cases hr
          rw [remains_setProc, remains_setProc] <;> exact fun _ => rfl

theorem remains_killNotify (h : killNotify k p = .ok k') : k'.remains = k.remains := by
  unfold killNotify at h
  split at h
  · rw [procReap_eq_ok h]
    rfl
  · split at h
    · cases h
      exact remains_of_people (people_procReady _ _)
    · cases h
      rfl

/-- **What `proc_kill` leaves of `p`**: its pid and the exit status, and no descriptor. -/
theorem remains_procKill {code : Int} (hpid : ¬ ((k.procs p).pid = 0 ∨ (k.procs p).pid = 1))
    (h : procKill k (some p) code = .ok k') :
    k'.remains = Function.update k.remains p ((k.procs p).pid, code, fun _ => {}) := by
  obtain ⟨k₁, hr, hn⟩ := procKill_eq_ok hpid h
  have hunlink := remains_killUnlink k p code
  have hp := congrFun hunlink p
  rw [Function.update_self] at hp
  rw [remains_killNotify hn, remains_reparentAll _ hr, remains_closeFds, hunlink,
    Function.update_idem]
  have hpid' : ((killUnlink k p code).procs p).pid = (k.procs p).pid := congrArg Prod.fst hp
  have hexit : ((killUnlink k p code).procs p).exit = code := congrArg (fun x => x.2.1) hp
  rw [hpid', hexit]
  simp [List.mem_finRange]

/-! ### Birth -/

theorem remains_inheritLoop {p s : ProcId} {fds : Fin fdMax → Int} (is : List (Fin fdMax)) :
    ∀ k : Kernel, ∀ q ≠ p, (inheritLoop k p s fds is).remains q = k.remains q := by
  induction is with
  | nil => exact fun _ _ _ => rfl
  | cons i is ih =>
    intro k q hq
    unfold inheritLoop
    split
    · refine (ih _ q hq).trans ((remains_setProc_ne _ _ hq).trans ?_)
      exact congrFun (remains_of_people (people_fdAddRef k _)) q
    · rfl

theorem remains_initFds (k : Kernel) {p q : ProcId} (hq : q ≠ p) (parent : Option ProcId)
    (fds : Option (Fin fdMax → Int)) : (initFds k p parent fds).remains q = k.remains q := by
  cases fds with
  | none =>
    show (setFd (setFd (setFd k p 0 _) p 1 _) p 2 _).remains q = _
    unfold setFd
    rw [remains_setProc_ne _ _ hq, remains_setProc_ne _ _ hq, remains_setProc_ne _ _ hq]
  | some fds =>
    cases parent with
    | none => rfl
    | some s => exact remains_inheritLoop _ k q hq

theorem remains_initForeground (k : Kernel) (p : ProcId) (parent : Option ProcId) (b : Bool) :
    (initForeground k p parent b).remains = k.remains := by
  unfold initForeground
  split
  · rfl
  · exact remains_setForegroundProcess k _ _

theorem remains_initFamily (k : Kernel) {p q : ProcId} (hq : q ≠ p) (parent : Option ProcId)
    (entry : Nat) : (initFamily k p parent entry).1.remains q = k.remains q := by
  unfold initFamily
  cases parent with
  | none =>
    dsimp only
    rw [remains_setProc_ne k _ hq]
  | some c =>
    dsimp only
    split
    · dsimp only
      rw [remains_setProc, remains_setProc_ne k _ hq]
      exact fun _ => rfl
    · dsimp only
      rw [remains_setProc_ne k _ hq]

theorem remains_procInit (k : Kernel) {p q : ProcId} (hq : q ≠ p) (a : SpawnArgs) (entry : Nat) :
    (procInit k p a entry).1.remains q = k.remains q := by
  unfold procInit
  split
  · dsimp only
    rw [remains_setProc_ne k _ hq]
  · rename_i i _
    have hslot : ({ k.setProc p (fun q => { q with pid := i }) with
        processTable := Function.update k.processTable i (some p) } : Kernel).alloc.remains q =
        k.remains q := by
      show (k.setProc p fun q => { q with pid := i }).remains q = _
      rw [remains_setProc_ne k _ hq]
    dsimp only
    split
    · unfold procSetup
      dsimp only
      rw [remains_initFamily _ hq, remains_initForeground, remains_initFds _ hq,
        remains_setProc_ne _ _ hq]
      exact hslot
    · exact hslot

theorem remains_execv {frame : Nat} (h : execv k p frame = .ok k') : k'.remains = k.remains := by
  unfold execv at h
  dsimp only at h
  split at h
  · split at h
    · cases h
      exact remains_setProc k.alloc p fun _ => rfl
    · cases h
  · cases h
    rfl

/-- Only the new process is written to. -/
theorem remains_sysSpawnProcess {a : SpawnArgs} {r : Kernel × Int}
    (h : sysSpawnProcess k a = .ok r) {q : ProcId} (hq : q ≠ k.nextProc) :
    r.1.remains q = k.remains q := by
  unfold sysSpawnProcess at h
  split at h
  · cases h
    rfl
  · rename_i entry _
    dsimp only at h
    unfold procNew at h
    by_cases hcount : (maxProcesses : Int) ≤ k.processCount
    · simp only [hcount, if_true] at h
      cases h
      rfl
    · simp only [hcount, if_false] at h
      cases hm : k.kmalloc with
      | false =>
        simp only [hm, Bool.false_eq_true, if_false] at h
        cases h
        rfl
      | true =>
        simp only [hm, if_true] at h
        obtain ⟨k₁, he, hr⟩ := Outcome.bind_eq_ok.mp h
        cases hr
        show (procReady k₁ (some k.nextProc)).remains q = _
        rw [remains_of_people (people_procReady k₁ _), remains_execv he,
          remains_procInit _ (show q ≠ k.alloc.nextProc from hq)]
        simp [Function.update_of_ne hq, Kernel.remains, Kernel.alloc]

/-! ### Every entry -/

/-- The exit status an entry gives the process it kills. -/
def Event.deathCode : Event → Int
  | .sysExit code => code
  | .sysKillProc _ => 128 + 9
  | _ => 0

/-- The routine by which a step changes processes: none that concerns their relations, or one
    that collects, adds or kills a process. -/
inductive PeopleStep (k : Kernel) (e : Event) (k' : Kernel) : Prop
  | same (ht : killTarget k e = none) (hrem : k'.remains = k.remains) (hkin : k'.kins = k.kins)
  | caller (ht : killTarget k e = none) (c : ProcId) (hc : k.currentProcess = some c)
      (hrem : ∀ p ≠ c, k'.remains p = k.remains p) (hkin : k'.kins = k.kins)
  | collect (ht : killTarget k e = none) {k₁ : Kernel} (hprocs : k₁.procs = k.procs) (c : ProcId)
      (i : Nat) (child : ProcId) (h : collect k₁ c i child = .ok k')
  | spawn (ht : killTarget k e = none) {a : SpawnArgs} {ret : Int}
      (h : sysSpawnProcess k a = .ok (k', ret))
  | kill {k₁ k₂ : Kernel} {proc : Option ProcId} (hprocs : k₁.procs = k.procs)
      (htable : k₁.processTable = k.processTable)
      (hp : killTarget k e = proc.filter fun p => (k.procs p).pid ≠ 0 ∧ (k.procs p).pid ≠ 1)
      (h : procKill k₁ proc e.deathCode = .ok k₂) (hk' : k'.people = k₂.people)

theorem PeopleStep.of_people (ht : killTarget k e = none) (h : k'.people = k.people) :
    PeopleStep k e k' := .same ht (remains_of_people h) (kins_of_people h)

theorem PeopleStep.of_fixed (ht : killTarget k e = none) (h : k'.fixed = k.fixed) :
    PeopleStep k e k' := .of_people ht (people_of_fixed h)

/-- The checks of `sys_read` and `sys_write`, with what comes behind them. -/
theorem PeopleStep.withFd {fd : Int} {f : ProcId → FdEntry → Outcome StepResult}
    {r : StepResult} (ht : killTarget k e = none) (h : TpeSo.withFd k fd f = .ok r)
    (hf : ∀ c d r, f c d = .ok r → r.1.people = k.people) : PeopleStep k e r.1 := by
  unfold TpeSo.withFd at h
  split at h
  · split at h
    · cases h
      exact .of_people ht rfl
    · exact .of_people ht (hf _ _ r h)
  · cases h
    exact .of_people ht rfl

theorem people_fdRead {d : FdEntry} {count : Nat} {buf0 : UInt8} {r : StepResult}
    (h : fdRead k c d count buf0 = .ok r) : r.1.people = k.people := by
  unfold fdRead at h
  split at h
  · obtain ⟨r₁, hr, he⟩ := Outcome.bind_eq_ok.mp h
    cases he
    exact people_pipeRead hr
  · cases h
  · obtain ⟨r₁, hr, he⟩ := Outcome.bind_eq_ok.mp h
    cases he
    exact people_readFromKeyboard hr
  · cases h
    rfl

theorem people_fdWrite {d : FdEntry} {buf : List UInt8} {r : StepResult}
    (h : fdWrite k c d buf = .ok r) : r.1.people = k.people := by
  unfold fdWrite at h
  split at h
  · obtain ⟨r₁, hr, he⟩ := Outcome.bind_eq_ok.mp h
    cases he
    exact people_pipeWrite hr
  · cases h
  all_goals
    cases h
    rfl

theorem remains_openPipe (k : Kernel) {p q : ProcId} (hq : q ≠ p) (i : Fin fdMax)
    (id junk : List UInt8) (mode : Int) :
    (openPipe k p i id junk mode).1.remains q = k.remains q := by
  have hset : ∀ (k : Kernel) (d : FdEntry), (setFd k p i d).remains q = k.remains q :=
    fun k d => remains_setProc_ne k _ hq
  have hcreate := congrFun (remains_of_people (people_createPipe k id junk)) q
  unfold openPipe
  split
  · rfl
  · cases findPipeById k id with
    | some pp =>
      dsimp only
      split <;> exact hset k _
    | none =>
      dsimp only
      split
      · exact hcreate
      · split <;> exact (hset _ _).trans hcreate

theorem kins_openPipe (k : Kernel) (p : ProcId) (i : Fin fdMax) (id junk : List UInt8)
    (mode : Int) : (openPipe k p i id junk mode).1.kins = k.kins := by
  have hset : ∀ (k : Kernel) (d : FdEntry), (setFd k p i d).kins = k.kins :=
    fun k d => kins_of_family (family_setFd k p i d)
  have hcreate := kins_of_people (people_createPipe k id junk)
  unfold openPipe
  split
  · rfl
  · cases findPipeById k id with
    | some pp =>
      dsimp only
      split <;> exact hset k _
    | none =>
      dsimp only
      split
      · exact hcreate
      · split <;> exact (hset _ _).trans hcreate

/-- A round of `wait_pid` in a kernel that has the processes of `k`. -/
theorem PeopleStep.waitPidLoop {k₁ : Kernel} {pid : Int} {r : Kernel × Option WaitResult}
    (ht : killTarget k e = none) (hprocs : k₁.procs = k.procs)
    (h : TpeSo.waitPidLoop k₁ c pid = .ok r) : PeopleStep k e r.1 := by
  rcases waitPidLoop_people h with hsame | ⟨i, child, hcol⟩
  · exact .of_people ht (hsame.trans (people_of_procs hprocs))
  · exact .collect ht hprocs c i child hcol

theorem PeopleStep.waitPid {pid : Int} {r : Kernel × Option WaitResult}
    (ht : killTarget k e = none) (h : TpeSo.waitPid k pid = .ok r) : PeopleStep k e r.1 := by
  unfold TpeSo.waitPid at h
  split at h
  · cases h
  · split at h
    · cases h
      exact .of_people ht rfl
    · exact .waitPidLoop ht rfl h

theorem PeopleStep.keyPress {sc : Nat} (h : handleKeyPress k sc = .ok k') :
    PeopleStep k (.key sc) k' := by
  rcases handleKeyPress_cases h with ⟨hnot, hline⟩ | ⟨hctrl, hk⟩
  · have ht : killTarget k (.key sc) = none := by
      simp only [killTarget, hnot, if_false]
      rfl
    refine .of_people ht ?_
    rcases hline with rfl | ⟨ch, rfl⟩ | ⟨_, _, _, _, _, rfl⟩
    · exact people_handleCtrlD k
    · exact people_handleChar k ch
    · rfl
  · refine .kill rfl rfl ?_ hk rfl
    simp only [killTarget, hctrl, and_self, if_true]

theorem PeopleStep.enter {r : StepResult} (h : TpeSo.enter k e = .ok r) :
    PeopleStep k e r.1 := by
  cases e with
  | timer =>
    obtain ⟨k₁, hk, he⟩ := Outcome.bind_eq_ok.mp h
    cases he
    exact .of_fixed rfl (fixed_callTimerTick hk)
  | key sc =>
    obtain ⟨k₁, hk, he⟩ := Outcome.bind_eq_ok.mp h
    cases he
    exact .keyPress hk
  | user rsp => cases h; exact .of_people rfl rfl
  | resume => cases h
  | sysRead fd count buf0 =>
    change sysRead k fd count buf0 = _ at h
    exact .withFd rfl h fun c d r hr => people_fdRead hr
  | sysWrite fd buf =>
    change sysWrite k fd buf = _ at h
    exact .withFd rfl h fun c d r hr => people_fdWrite hr
  | sysSleep s =>
    obtain ⟨k₁, hk, he⟩ := Outcome.bind_eq_ok.mp h
    cases he
    exact .of_fixed rfl (fixed_sleepHelper hk)
  | sysUsleep us =>
    simp only [TpeSo.enter, sysUsleep] at h
    split at h
    · cases h
      exact .of_people rfl rfl
    · obtain ⟨k₁, hk, he⟩ := Outcome.bind_eq_ok.mp h
      cases he
      exact .of_fixed rfl (fixed_sleepHelper hk)
  | sysPipeCreate id junk =>
    refine .of_people rfl (Eq.trans ?_ (people_createPipe k id junk))
    simp only [TpeSo.enter, sysPipeCreate] at h
    split at h <;> · cases h; rfl
  | sysPipeOpen id junk mode =>
    simp only [TpeSo.enter, sysPipeOpen] at h
    split at h
    · cases h
      exact .of_people rfl rfl
    · split at h
      · cases h
        exact .of_people rfl rfl
      · rename_i c hc
        split at h
        · cases h
          exact .of_people rfl rfl
        · rename_i i _
          have hopen : r.1 = (openPipe k c i id junk mode).1 := by
            split at h <;> · cases h; rfl
          rw [hopen]
          exact .caller rfl c hc (fun p hp => remains_openPipe k hp i id junk mode)
            (kins_openPipe k c i id junk mode)
  | sysPipeClose id =>
    simp only [TpeSo.enter, sysPipeClose] at h
    split at h <;> · cases h; exact .of_people rfl rfl
  | sysSpawn a =>
    obtain ⟨r₁, hr₁, he⟩ := Outcome.bind_eq_ok.mp h
    cases he
    exact .spawn rfl hr₁
  | sysKillProc pid =>
    simp only [TpeSo.enter, sysKillProc] at h
    split at h
    · rename_i hpid
      cases h
      exact .of_people (by simp [killTarget, hpid]) rfl
    · rename_i hpid
      obtain ⟨found, hfound, h⟩ := Outcome.bind_eq_ok.mp h
      split at h
      · cases h
        exact .of_people (by simp [killTarget, hpid, hfound]) rfl
      · obtain ⟨k₁, hk, he⟩ := Outcome.bind_eq_ok.mp h
        cases he
        refine .kill rfl rfl ?_ hk rfl
        simp only [killTarget, hpid, if_false, hfound]
  | sysChangePriority pid prio =>
    obtain ⟨found, -, he⟩ := Outcome.bind_eq_ok.mp h
    cases he
    unfold changePriority
    split
    · exact .of_people rfl rfl
    · rename_i p
      dsimp only
      split
      · exact .of_people rfl rfl
      · split
        · exact .of_people rfl rfl
        · have hrem : (k.setProc p fun q => { q with
              priority := (prio % 256).toNat,
              hasQuantum := (prio % 256).toNat }).remains = k.remains :=
            remains_setProc k p fun _ => rfl
          have hfam : (k.setProc p fun q => { q with
              priority := (prio % 256).toNat,
              hasQuantum := (prio % 256).toNat }).family = k.family :=
            family_setProc_same k p rfl
          exact .same rfl hrem (kins_of_family hfam)
  | sysExit code =>
    obtain ⟨k₁, hk, h⟩ := Outcome.bind_eq_ok.mp h
    obtain ⟨k₂, ht, he⟩ := Outcome.bind_eq_ok.mp h
    cases he
    have hsuspend : (k.suspend .exit).procs = k.procs ∧
        (k.suspend .exit).processTable = k.processTable := by
      unfold Kernel.suspend
      split <;> exact ⟨rfl, rfl⟩
    exact .kill hsuspend.1 hsuspend.2 rfl hk (people_of_fixed (fixed_callTimerTick ht))
  | sysBlock pid =>
    obtain ⟨r₁, hr₁, he⟩ := Outcome.bind_eq_ok.mp h
    cases he
    exact .of_fixed rfl (fixed_blockProcessByPid hr₁)
  | sysUnblock pid =>
    obtain ⟨r₁, hr₁, he⟩ := Outcome.bind_eq_ok.mp h
    cases he
    exact .of_fixed rfl (fixed_unblockProcessByPid hr₁)
  | sysCloseFd fd =>
    simp only [TpeSo.enter, sysCloseFd] at h
    split at h
    · cases h
      exact .of_people rfl rfl
    · rename_i c hc
      split at h
      · cases h
        refine .caller rfl c hc (fun p hp => ?_) (kins_of_family (family_closeSlot k c _))
        dsimp only
        rw [remains_closeSlot, Function.update_of_ne hp]
      · cases h
        exact .of_people rfl rfl
  | sysWaitPid pid =>
    obtain ⟨r₁, hr₁, he⟩ := Outcome.bind_eq_ok.mp h
    cases he
    exact .waitPid rfl hr₁
  | sysWait =>
    obtain ⟨r₁, hr₁, he⟩ := Outcome.bind_eq_ok.mp h
    cases he
    exact .waitPid rfl hr₁
  | sysYield =>
    obtain ⟨k₁, hk, he⟩ := Outcome.bind_eq_ok.mp h
    cases he
    exact .of_fixed rfl ((fixed_yield hk).trans (fixed_suspend k .yield))
  | sysSetCanonical b => cases h; exact .of_people rfl rfl
  | sysCreateSem id v => cases h; exact .of_people rfl (people_mySemCreate k id v)
  | sysCloseSem id => cases h; exact .of_people rfl (people_mySemDestroy k id)
  | sysSemPost id =>
    obtain ⟨r₁, hr₁, he⟩ := Outcome.bind_eq_ok.mp h
    cases he
    exact .of_people rfl (people_mySemPost hr₁)
  | sysSemWait id =>
    obtain ⟨r₁, hr₁, he⟩ := Outcome.bind_eq_ok.mp h
    cases he
    exact .of_people rfl (people_mySemWait hr₁)
  | sysSemTrywait id =>
    obtain ⟨r₁, hr₁, he⟩ := Outcome.bind_eq_ok.mp h
    cases he
    exact .of_people rfl (people_mySemTrywait hr₁)

theorem PeopleStep.resume {w : Pending} {r : StepResult} (h : TpeSo.resume k c w = .ok r) :
    PeopleStep k .resume r.1 := by
  have hstack : { k with kstack := Function.update k.kstack c none }.people = k.people := rfl
  cases w with
  | yield | sleep | block | semWait id =>
    cases h
    exact .of_people rfl rfl
  | exit => cases h
  | pipeRead pp size =>
    obtain ⟨r₁, hr₁, he⟩ := Outcome.bind_eq_ok.mp h
    cases he
    exact .of_people rfl ((people_pipeRead hr₁).trans hstack)
  | pipeWrite pp buf =>
    obtain ⟨r₁, hr₁, he⟩ := Outcome.bind_eq_ok.mp h
    cases he
    exact .of_people rfl ((people_pipeWrite hr₁).trans hstack)
  | waitPid pid =>
    obtain ⟨r₁, hr₁, he⟩ := Outcome.bind_eq_ok.mp h
    cases he
    have hprocs : { k with kstack := Function.update k.kstack c none }.procs = k.procs := rfl
    exact .waitPidLoop rfl hprocs hr₁
  | readLine count buf0 =>
    obtain ⟨r₁, hr₁, he⟩ := Outcome.bind_eq_ok.mp h
    cases he
    exact .of_people rfl ((people_readLine hr₁).trans hstack)

/-- Which routine a step changes processes by. -/
theorem step_people (hs : step k e = some (k', o)) : PeopleStep k e k' := by
  rcases step_eq_some hs with ⟨-, -, h⟩ | ⟨rfl, c, w, -, -, h⟩
  · exact .enter h
  · exact .resume h

/-- What a step does to pids, exit statuses and descriptors. -/
inductive RemainsStep (k : Kernel) (e : Event) (k' : Kernel) : Prop
  | same (ht : killTarget k e = none) (h : k'.remains = k.remains)
  | caller (ht : killTarget k e = none) (c : ProcId) (hc : k.currentProcess = some c)
      (h : ∀ p ≠ c, k'.remains p = k.remains p)
  | spawn (ht : killTarget k e = none) (h : ∀ p ≠ k.nextProc, k'.remains p = k.remains p)
  | kill (p : ProcId) (hp : killTarget k e = some p) (h : k'.remains =
      Function.update k.remains p ((k.procs p).pid, e.deathCode, fun _ => {}))

/-- A kill in a kernel that has the processes of `k`. -/
theorem RemainsStep.procKill {k₁ k₂ : Kernel} {proc : Option ProcId}
    (hk₁ : k₁.procs = k.procs)
    (hp : killTarget k e = proc.filter fun p => (k.procs p).pid ≠ 0 ∧ (k.procs p).pid ≠ 1)
    (h : TpeSo.procKill k₁ proc e.deathCode = .ok k₂) (hk' : k'.remains = k₂.remains) :
    RemainsStep k e k' := by
  have hrem : k₁.remains = k.remains := by
    unfold Kernel.remains
    rw [hk₁]
  cases proc with
  | none =>
    cases h
    exact .same hp (hk'.trans hrem)
  | some p =>
    by_cases hpid : (k.procs p).pid = 0 ∨ (k.procs p).pid = 1
    · rw [TpeSo.procKill, if_pos (by rwa [hk₁])] at h
      cases h
      refine .same ?_ (hk'.trans hrem)
      rw [hp]
      rcases hpid with hpid | hpid <;> simp [Option.filter, hpid]
    · refine .kill p ?_ ?_
      · rw [hp]
        rw [not_or] at hpid
        simp [Option.filter, hpid]
      · rw [hk', remains_procKill (by rwa [hk₁]) h, hrem, hk₁]

/-- **A step writes the remains of one process at most.** -/
theorem step_remains (hs : step k e = some (k', o)) : RemainsStep k e k' := by
  cases step_people hs with
  | same ht hrem => exact .same ht hrem
  | caller ht c hc hrem => exact .caller ht c hc hrem
  | collect ht hprocs c i child h =>
    refine .same ht ((remains_collect h).trans ?_)
    unfold Kernel.remains
    rw [hprocs]
  | spawn ht h => exact .spawn ht fun p hp => remains_sysSpawnProcess h hp
  | kill hprocs _ hp h hk' => exact .procKill hprocs hp h (remains_of_people hk')

/-- A status that `wait_pid` hands back is that of a zombie in the table. -/
theorem step_waitStatus {x st : Int} (hs : step k e = some (k', some (.waitPid x (some st)))) :
    ∃ y child, getProcByPid k y = .ok (some child) ∧ (k.procs child).status = .zombie ∧
      st = (k.procs child).exit ∧ (x = y ∨ x = (k.procs child).pid) := by
  have hfinish : ∀ {r : Kernel × Option WaitResult},
      finishWait r = (k', some (.waitPid x (some st))) → r.2 = some (x, some st) := by
    rintro ⟨k₁, _ | ⟨y, s⟩⟩ hr
    · cases hr
    · cases hr
      rfl
  rcases step_eq_some hs with ⟨-, -, h⟩ | ⟨rfl, c, w, -, -, h⟩
  · have hkind : e.completes (.waitPid x (some st)) := enter_ends k e _ h _ rfl
    cases e with
    | sysWaitPid pid =>
      obtain ⟨r, hr, he⟩ := Outcome.bind_eq_ok.mp h
      exact (waitPid_status hr).2 x st (hfinish (Outcome.ok.inj he))
    | sysWait =>
      obtain ⟨r, hr, he⟩ := Outcome.bind_eq_ok.mp h
      exact (waitPid_status hr).2 x st (hfinish (Outcome.ok.inj he))
    | _ => exact hkind.elim
  · have hkind : w.completes (.waitPid x (some st)) := resume_ends k c w _ h _ rfl
    cases w with
    | waitPid pid =>
      obtain ⟨r, hr, he⟩ := Outcome.bind_eq_ok.mp h
      exact (waitPidLoop_status hr).2 x st (hfinish (Outcome.ok.inj he))
    | _ => exact hkind.elim

end TpeSo
