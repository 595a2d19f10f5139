import TpeSo.Acts.Fixed
import TpeSo.Acts.Lives

namespace TpeSo

open Ds Lib

/-!
# Family — the family tree behind the process control blocks

Parent pointers, arrays of children, the process table and the owner of the terminal, without
what the scheduler writes next to them.

* `Kin`, `Family` — one process's relations, and all of them;
* `Kernel.family` — what is kept of a kernel;
* `Family.birth`, `Family.kill`, `Family.collect` — what a spawn, a death and a completed wait
  make of a family;
* `family_procKill`, `family_collect`, `family_sysSpawnProcess` — the code does that.
-/

variable {k k' : Kernel} {p c : ProcId}

/-- Who a process is, and to whom it belongs. -/
structure Kin where
  pid : Int := 0
  parent : Option ProcId := none
  children : List Int := []
  mode : Mode := .bg

/-- The processes' relations, the process table, the owner of the terminal. -/
structure Family where
  kin : ProcId → Kin
  table : Nat → Option ProcId
  foreground : Option ProcId
  next : ProcId

def Proc.kin (q : Proc) : Kin := ⟨q.pid, q.parent, q.children, q.mode⟩

def Kernel.family (k : Kernel) : Family where
  kin p := (k.procs p).kin
  table := k.processTable
  foreground := k.foregroundProcess
  next := k.nextProc

namespace Family

/-- Update one process. -/
def set (s : Family) (p : ProcId) (f : Kin → Kin) : Family :=
  { s with kin := Function.update s.kin p (f (s.kin p)) }

/-- The place of a process id in the table. -/
def find (s : Family) (pid : Int) : Outcome (Option ProcId) :=
  if 0 ≤ pid ∧ pid < maxProcesses then .ok (s.table pid.toNat) else .fault

/-! ### Death -/

/-- `caller` hands the terminal to `proc`; `init` is given it in any case. -/
def setForeground (s : Family) (proc caller : Option ProcId) : Family :=
  match proc with
  | none => s
  | some p =>
    if (s.kin p).pid = 1 then { s.set p (fun q => { q with mode := .fg }) with foreground := some p }
    else
      match caller with
      | none => s
      | some c =>
        if (s.kin c).mode = .fg then
          let s := s.set c fun q => { q with mode := .bg }
          { s.set p (fun q => { q with mode := .fg }) with foreground := some p }
        else s

/-- `init` becomes the parent of `child`, if it has room for one more child. -/
def reparentToInit (s : Family) (child : ProcId) : Outcome Family :=
  match s.table 1 with
  | none => .fault
  | some i =>
    let s := s.set child fun q => { q with parent := some i }
    if (s.kin i).children.length < maxProcesses then
      .ok (s.set i fun q => { q with children := q.children ++ [(s.kin child).pid] })
    else .ok (s.set child fun q => { q with parent := none })

/-- `init` becomes the parent of whoever is found under these process ids. -/
def reparentAll (s : Family) : List Int → Outcome Family
  | [] => .ok s
  | pid :: rest => do
    match ← s.find pid with
    | none => reparentAll s rest
    | some child => do
      let s ← s.reparentToInit child
      reparentAll s rest

/-- Take `p` out of the table. -/
def reap (s : Family) (p : ProcId) : Outcome Family :=
  if 0 ≤ (s.kin p).pid ∧ (s.kin p).pid < maxProcesses then
    .ok { s with table := Function.update s.table (s.kin p).pid.toNat none }
  else .fault

/-- `p` dies: its parent may have the terminal back, its children go to `init`, and without a
    parent it leaves the table at once. -/
def kill (s : Family) (p : ProcId) : Outcome Family := do
  let s := s.setForeground (s.kin p).parent (some p)
  let s ← s.reparentAll (s.kin p).children
  match (s.kin p).parent with
  | none => s.reap p
  | some _ => .ok s

/-- `c` collects the child at place `i` of its array. -/
def collect (s : Family) (c : ProcId) (i : Nat) (child : ProcId) : Outcome Family := do
  let s ← s.reap child
  .ok (s.set c fun q => { q with children := q.children.eraseIdx i })

/-! ### Birth -/

/-- The family side of `proc_init` once the stack is there. -/
def adopt (s : Family) (p : ProcId) (parent : Option ProcId) (background : Bool) : Family :=
  let s := if background then s else s.setForeground (some p) parent
  let s := s.set p fun q => { q with parent := parent }
  match parent with
  | none => s
  | some c =>
    if (s.kin c).children.length < maxProcesses then
      s.set c fun q => { q with children := q.children ++ [(s.kin p).pid] }
    else s

/-- The family side of `proc_init`: `slot` is the first free place in the table, and `stack`
    tells whether there is memory for a stack. -/
def enrol (s : Family) (p : ProcId) (slot : Option Nat) (stack : Bool) (parent : Option ProcId)
    (background : Bool) : Family :=
  match slot with
  | none => s.set p fun q => { q with pid := -1 }
  | some i =>
    let s := { s.set p (fun q => { q with pid := i }) with
      table := Function.update s.table i (some p) }
    if stack then s.adopt p parent background else s

/-- A new control block, which `proc_init` then fills in. -/
def birth (s : Family) (slot : Option Nat) (stack : Bool) (parent : Option ProcId)
    (background : Bool) : Family :=
  enrol { s with next := s.next + 1, kin := Function.update s.kin s.next {} } s.next slot stack
    parent background

end Family

/-! ### What leaves the family alone -/

theorem family_of_fixed (h : k'.fixed = k.fixed) : k'.family = k.family := by
  show k'.fixed.family = k.fixed.family
  rw [h]

theorem family_setProc (k : Kernel) (p : ProcId) {f : Proc → Proc} {g : Kin → Kin}
    (h : (f (k.procs p)).kin = g (k.procs p).kin) :
    (k.setProc p f).family = k.family.set p g := by
  have hkin : (fun q => ((k.setProc p f).procs q).kin) =
      Function.update (fun q => (k.procs q).kin) p (g (k.procs p).kin) := by
    funext q
    by_cases hq : q = p
    · subst hq
      simpa [Kernel.setProc] using h
    · simp [Kernel.setProc, hq]
  unfold Kernel.family Family.set
  rw [hkin]
  rfl

/-- An update that keeps a process's relations. -/
theorem family_setProc_same (k : Kernel) (p : ProcId) {f : Proc → Proc}
    (h : (f (k.procs p)).kin = (k.procs p).kin) : (k.setProc p f).family = k.family := by
  rw [family_setProc k p (g := id) h]
  simp [Family.set, Kernel.family]

theorem family_setFd (k : Kernel) (p : ProcId) (i : Fin fdMax) (e : FdEntry) :
    (setFd k p i e).family = k.family :=
  family_setProc_same k p
    (f := fun q => { q with fds := Function.update q.fds i e }) rfl

theorem family_procReady (k : Kernel) (o : Option ProcId) : (procReady k o).family = k.family :=
  family_of_fixed (fixed_procReady k o)

theorem family_suspend (k : Kernel) (w : Pending) : (k.suspend w).family = k.family :=
  family_of_fixed (fixed_suspend k w)

theorem family_wakeReaders (pp : PipeId) (n : Nat) :
    ∀ k : Kernel, (wakeReaders k pp n).family = k.family := by
  induction n with
  | zero => intro k; rfl
  | succ n ih =>
    intro k
    exact (ih _).trans (family_procReady _ _)

theorem family_freeUnreferenced (k : Kernel) (pp : PipeId) :
    (freeUnreferenced k pp).family = k.family := by
  unfold freeUnreferenced
  split <;> rfl

theorem family_closeSlot (k : Kernel) (p : ProcId) (i : Fin fdMax) :
    (closeSlot k p i).family = k.family := by
  refine (family_setFd _ p i {}).trans ?_
  unfold fdClose
  split
  · exact family_freeUnreferenced _ _
  · refine (family_freeUnreferenced _ _).trans ?_
    split
    · exact family_wakeReaders _ _ _
    · rfl
  · rfl

theorem family_closeFds (p : ProcId) (is : List (Fin fdMax)) :
    ∀ k : Kernel, (closeFds k p is).family = k.family := by
  induction is with
  | nil => intro k; rfl
  | cons i is ih =>
    intro k
    exact (ih _).trans (family_closeSlot k p i)

/-! ### Death -/

theorem family_setForegroundProcess (k : Kernel) (proc caller : Option ProcId) :
    (setForegroundProcess k proc caller).family = k.family.setForeground proc caller := by
  have hset : ∀ (k : Kernel) (p : ProcId),
      (k.setProc p fun q => { q with mode := .fg }).family =
        k.family.set p fun q => { q with mode := .fg } :=
    fun k p => family_setProc k p (f := fun q => { q with mode := .fg }) rfl
  cases proc with
  | none => rfl
  | some p =>
    unfold setForegroundProcess Family.setForeground
    dsimp only
    by_cases hpid : (k.procs p).pid = 1
    · rw [if_pos hpid, if_pos (show (k.family.kin p).pid = 1 from hpid), ← hset]
      rfl
    · rw [if_neg hpid, if_neg (show ¬ (k.family.kin p).pid = 1 from hpid)]
      cases caller with
      | none => rfl
      | some c =>
        dsimp only
        by_cases hmode : (k.procs c).mode = .fg
        · rw [if_pos hmode, if_pos (show (k.family.kin c).mode = .fg from hmode),
            ← family_setProc k c (f := fun q => { q with mode := .bg }) rfl, ← hset]
          rfl
        · rw [if_neg hmode, if_neg (show ¬ (k.family.kin c).mode = .fg from hmode)]

theorem family_unlinkWaiting (k : Kernel) (p : ProcId) : (unlinkWaiting k p).family = k.family := by
  unfold unlinkWaiting
  split <;> rfl

theorem family_killUnlink (k : Kernel) (p : ProcId) (code : Int) :
    (killUnlink k p code).family = k.family.setForeground (k.procs p).parent (some p) := by
  unfold killUnlink
  dsimp only
  rw [family_setProc_same _ p rfl, family_unlinkWaiting, ← family_setForegroundProcess]
  unfold rmCurrent
  split <;> rfl

theorem family_find (k : Kernel) (pid : Int) : getProcByPid k pid = k.family.find pid := rfl

theorem family_reparentToInit {child : ProcId} (h : reparentToInit k child = .ok k') :
    k.family.reparentToInit child = .ok k'.family := by
  unfold reparentToInit at h
  unfold Family.reparentToInit
  cases ht : k.processTable 1 with
  | none =>
    rw [ht] at h
    cases h
  | some i =>
    rw [ht] at h
    rw [show k.family.table 1 = some i from ht]
    dsimp only at h ⊢
    have hset := family_setProc k child (f := fun q => { q with parent := some i })
      (g := fun q => { q with parent := some i }) rfl
    rw [← hset]
    generalize k.setProc child (fun q => { q with parent := some i }) = k₁ at h ⊢
    split at h
    · rename_i hlen
      cases h
      rw [if_pos (show (k₁.family.kin i).children.length < maxProcesses from hlen),
        family_setProc k₁ i (f := fun q => { q with children := q.children ++ [_] })
          (g := fun q => { q with children := q.children ++ [(k₁.procs child).pid] }) rfl]
      rfl
    · rename_i hlen
      cases h
      rw [if_neg (show ¬ (k₁.family.kin i).children.length < maxProcesses from hlen),
        family_setProc k₁ child (f := fun q => { q with parent := none })
          (g := fun q => { q with parent := none }) rfl]

theorem family_reparentAll (pids : List Int) :
    ∀ {k : Kernel}, reparentAll k pids = .ok k' → k.family.reparentAll pids = .ok k'.family := by
  induction pids with
  | nil =>
    intro k h
    cases h
    rfl
  | cons pid rest ih =>
    intro k h
    obtain ⟨o, ho, h⟩ := Outcome.bind_eq_ok.mp h
    refine Outcome.bind_eq_ok.mpr ⟨o, (family_find k pid).symm.trans ho, ?_⟩
    cases o with
    | none => exact ih h
    | some child =>
      obtain ⟨k₁, hr, h⟩ := Outcome.bind_eq_ok.mp h
      exact Outcome.bind_eq_ok.mpr ⟨k₁.family, family_reparentToInit hr, ih h⟩

theorem family_procReap (h : procReap k p = .ok k') : k.family.reap p = .ok k'.family := by
  unfold procReap at h
  unfold Family.reap
  dsimp only at h
  split at h
  · rename_i hpid
    cases h
    rw [if_pos (show 0 ≤ (k.family.kin p).pid ∧ (k.family.kin p).pid < maxProcesses from hpid)]
    rfl
  · cases h

/-- **A kill that is not refused.** -/
theorem family_procKill {code : Int} (hpid : ¬ ((k.procs p).pid = 0 ∨ (k.procs p).pid = 1))
    (h : procKill k (some p) code = .ok k') : k.family.kill p = .ok k'.family := by
  obtain ⟨k₁, hr, hn⟩ := procKill_eq_ok hpid h
  have hfam : (closeFds (killUnlink k p code) p (List.finRange fdMax)).family =
      k.family.setForeground (k.procs p).parent (some p) :=
    (family_closeFds p _ _).trans (family_killUnlink k p code)
  have hall := family_reparentAll _ hr
  rw [hfam] at hall
  refine Outcome.bind_eq_ok.mpr ⟨k₁.family, ?_, ?_⟩
  · rw [← hall]
    refine congrArg _ ?_
    exact congrArg (fun s : Family => (s.kin p).children) hfam.symm
  · unfold killNotify at hn
    cases hp : (k₁.procs p).parent with
    | none =>
      rw [hp] at hn
      rw [show (k₁.family.kin p).parent = none from hp]
      exact family_procReap hn
    | some q =>
      rw [hp] at hn
      rw [show (k₁.family.kin p).parent = some q from hp]
      dsimp only at hn ⊢
      split at hn
      · cases hn
        exact congrArg _ (family_procReady k₁ (some q)).symm
      · cases hn
        rfl

theorem family_collect {i : Nat} {child : ProcId} (h : collect k c i child = .ok k') :
    k.family.collect c i child = .ok k'.family := by
  obtain ⟨k₁, hr, h⟩ := Outcome.bind_eq_ok.mp h
  refine Outcome.bind_eq_ok.mpr ⟨k₁.family, family_procReap hr, ?_⟩
  cases h
  exact congrArg _ (family_setProc k₁ c (f := fun q => { q with children := q.children.eraseIdx i })
    rfl).symm

/-! ### Birth -/

theorem family_fdAddRef (k : Kernel) (e : FdEntry) : (fdAddRef k e).family = k.family := by
  unfold fdAddRef
  split <;> rfl

theorem family_initFds (k : Kernel) (p : ProcId) (parent : Option ProcId)
    (fds : Option (Fin fdMax → Int)) : (initFds k p parent fds).family = k.family := by
  cases fds with
  | none =>
    exact (family_setFd _ p _ _).trans ((family_setFd _ p _ _).trans (family_setFd k p _ _))
  | some fds =>
    cases parent with
    | none => rfl
    | some s =>
      show (inheritLoop k p s fds (List.finRange fdMax)).family = k.family
      generalize List.finRange fdMax = is
      induction is generalizing k with
      | nil => rfl
      | cons i is ih =>
        unfold inheritLoop
        split
        · exact (ih _).trans ((family_setFd _ p i _).trans (family_fdAddRef k _))
        · rfl

theorem family_initForeground (k : Kernel) (p : ProcId) (parent : Option ProcId) (b : Bool) :
    (initForeground k p parent b).family =
      if b then k.family else k.family.setForeground (some p) parent := by
  unfold initForeground
  split
  · rfl
  · exact family_setForegroundProcess k (some p) parent

theorem family_procSetup (k : Kernel) (p : ProcId) (a : SpawnArgs) (entry : Nat) :
    (procSetup k p a entry).1.family = k.family.adopt p k.currentProcess a.background := by
  have hfam : (initForeground (initFds (k.setProc p fun q =>
      { q with hasStack := true, stackPointer := a.stackTop }) p k.currentProcess a.fds) p
      k.currentProcess a.background).family = if a.background then k.family
        else k.family.setForeground (some p) k.currentProcess := by
    rw [family_initForeground, family_initFds, family_setProc_same _ p rfl]
  unfold procSetup Family.adopt
  dsimp only
  rw [← hfam]
  generalize initForeground _ p k.currentProcess a.background = k₁
  unfold initFamily
  dsimp only
  rw [← family_setProc k₁ p (f := fun q =>
    { q with
      parent := k.currentProcess, entry := entry, priority := quantumDefault, status := .ready,
      exit := -1, blockReason := .none, waitingOn := .null }) rfl]
  generalize k₁.setProc p _ = k₂
  cases k.currentProcess with
  | none => rfl
  | some c =>
    dsimp only
    by_cases hlen : (k₂.procs c).children.length < maxProcesses
    · rw [if_pos hlen, if_pos (show (k₂.family.kin c).children.length < maxProcesses from hlen)]
      exact family_setProc k₂ c (f := fun q => { q with children := q.children ++ [_] }) rfl
    · rw [if_neg hlen, if_neg (show ¬ (k₂.family.kin c).children.length < maxProcesses from hlen)]

theorem family_execv {frame : Nat} (h : execv k p frame = .ok k') : k'.family = k.family := by
  unfold execv at h
  dsimp only at h
  split at h
  · split at h
    · cases h
      exact family_setProc_same k.alloc p rfl
    · cases h
  · cases h
    rfl

theorem family_procInit (k : Kernel) (p : ProcId) (a : SpawnArgs) (entry : Nat) :
    (procInit k p a entry).1.family =
      k.family.enrol p (procPidAlloc k) k.kmalloc k.currentProcess a.background := by
  unfold procInit Family.enrol
  cases procPidAlloc k with
  | none => exact family_setProc k p (f := fun q => { q with pid := -1 }) rfl
  | some i =>
    have hset : ({ k.setProc p (fun q => { q with pid := i }) with
        processTable := Function.update k.processTable i (some p) } : Kernel).family =
        { k.family.set p (fun q => { q with pid := i }) with
          table := Function.update k.family.table i (some p) } := by
      rw [← family_setProc k p (f := fun q => { q with pid := i }) rfl]
      rfl
    dsimp only
    rw [← hset]
    generalize hk₁ : ({ k.setProc p (fun q => { q with pid := i }) with
      processTable := Function.update k.processTable i (some p) } : Kernel) = k₁
    have hm : k₁.kmalloc = k.kmalloc := by rw [← hk₁]; rfl
    have hc : k₁.currentProcess = k.currentProcess := by rw [← hk₁]; rfl
    rw [hm]
    split
    · rw [family_procSetup, show k₁.alloc.currentProcess = k.currentProcess from hc]
      rfl
    · rfl

/-- Without a place in the table, `execv` has no stack to write to. -/
theorem procInit_noStack {a : SpawnArgs} {entry : Nat} (hs : (k.procs p).hasStack = false)
    (h : execv (procInit k p a entry).1 p a.frame = .ok k') :
    k.HeapOk → procPidAlloc k ≠ none := by
  intro hheap hnone
  unfold procInit at h
  rw [hnone] at h
  obtain ⟨hm, -⟩ := execv_noStack (by simpa [Kernel.setProc] using hs) h
  exact absurd ((hheap 0).symm.trans hm) (by decide)

/-- **A spawn** leaves the family alone when it finds no memory for a control block, and else
    adds one process to it; with memory for all it asks for, the new process has a place. -/
theorem family_sysSpawnProcess {a : SpawnArgs} {r : Kernel × Int}
    (h : sysSpawnProcess k a = .ok r) :
    r.1.family = k.family ∨ (k.HeapOk → procPidAlloc k ≠ none) ∧
      r.1.family =
        k.family.birth (procPidAlloc k) (k.mallocOk 1) k.currentProcess a.background := by
  unfold sysSpawnProcess at h
  split at h
  · cases h
    exact .inl rfl
  · rename_i entry _
    unfold procNew at h
    by_cases hcount : (maxProcesses : Int) ≤ k.processCount
    · simp only [hcount, if_true] at h
      cases h
      exact .inl rfl
    · simp only [hcount, if_false] at h
      cases hm : k.kmalloc with
      | false =>
        simp only [hm, Bool.false_eq_true, if_false] at h
        cases h
        exact .inl rfl
      | true =>
        simp only [hm, if_true] at h
        obtain ⟨k₁, he, hr⟩ := Outcome.bind_eq_ok.mp h
        cases hr
        refine .inr ⟨fun hheap => ?_, ?_⟩
        · have hroom := procInit_noStack (by simp) he
          exact hroom fun n => hheap (n + 1)
        · refine (family_procReady k₁ (some k.nextProc)).trans ((family_execv he).trans ?_)
          refine (family_procInit _ k.nextProc a entry).trans ?_
          have hkin : (fun q => (Function.update k.procs k.nextProc ({} : Proc) q).kin) =
              Function.update (fun q => (k.procs q).kin) k.nextProc {} := by
            funext q
            by_cases hq : q = k.nextProc
            · subst hq
              simp [Proc.kin]
            · simp [hq]
          unfold Family.birth
          show Family.enrol ⟨fun q => (Function.update k.procs k.nextProc ({} : Proc) q).kin, _, _, _⟩
            _ _ _ _ _ = _
          rw [hkin]
          rfl

end TpeSo
