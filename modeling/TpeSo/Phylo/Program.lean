import Mathlib.Logic.Function.Basic
import TpeSo.Lib.Circle
import TpeSo.Lib.Fifo
import TpeSo.Lib.Trace

namespace TpeSo.Phylo

open Lib

/-!
# `programs/phylo.c` — the philosophers at the table

The program as a table of statements: each line names what is executed there and the lines that
may follow.  A step executes one statement of one process, and any process may take the next
step.  `print_status` and the other messages are left out, and so are the names of the programs.

* `Table` — the shared variables; `PhyloLine`, `MainLine` — where a philosopher and the main
  program are;
* `phyloStmt`, `mainStmt` — the functions of the source, statement by statement;
* `Dinner.exec`, `next` — one step.
-/

def maxPhy : Nat := 10
def minPhy : Nat := 3
def noPid : Int := -1

/-- `PHYLO_STATE`. -/
inductive PhyloState where
  | none | driving | waiting | thinking
  deriving DecidableEq, Repr

/-- `SEM_ID` and `SEM_PHYLO(i)`. -/
inductive SemId where
  | table
  | phylo (i : Nat)
  deriving DecidableEq, Repr

/-- `phylo_states`, `phylo_pids` and `phylo_count`. -/
structure Table where
  phyloStates : Nat → PhyloState := fun _ => .none
  phyloPids : Nat → Int := fun _ => noPid
  phyloCount : Nat := 0

namespace Table

variable (t : Table)

/-- `LEFT_PHYLO`. -/
def left (i : Nat) : Nat := Circle.left t.phyloCount i

/-- `RIGHT_PHYLO`. -/
def right (i : Nat) : Nat := Circle.right t.phyloCount i

def Driving (i : Nat) : Prop := t.phyloStates i = .driving

def Waiting (i : Nat) : Prop := t.phyloStates i = .waiting

def Seated (i : Nat) : Prop := t.phyloPids i ≠ noPid

instance : DecidablePred t.Driving := fun _ => inferInstanceAs (Decidable (_ = _))

instance : DecidablePred t.Waiting := fun _ => inferInstanceAs (Decidable (_ = _))

instance : DecidablePred t.Seated := fun _ => inferInstanceAs (Decidable (_ ≠ _))

end Table

/-! ### Statements -/

/-- A statement, with the lines that may follow it. -/
inductive Stmt (L : Type) where
  /-- `my_sem_wait`. -/
  | wait (s : SemId) (l : L)
  /-- `my_sem_post`. -/
  | post (s : SemId) (l : L)
  /-- `phylo_states[i] = st`. -/
  | setState (i : Nat) (st : PhyloState) (l : L)
  /-- A condition on the shared variables. -/
  | test (b : Bool) (l l' : L)
  /-- A choice that the program leaves to its surroundings. -/
  | ask (l l' : L)
  /-- `my_sem_create(SEM_PHYLO(i), 0)`, which may fail. -/
  | create (i : Nat) (l l' : L)
  /-- `phylo_pids[i] = spawn_process_bg(..)`. -/
  | spawn (i : Nat) (l : L)
  /-- `kill_proc(phylo_pids[i])`, and `wait_pid` for it. -/
  | kill (i : Nat) (l : L)
  /-- `my_sem_close`. -/
  | close (s : SemId) (l : L)
  /-- `phylo_pids[i] = NO_PID`. -/
  | clearPid (i : Nat) (l : L)
  /-- `phylo_count = n`. -/
  | setCount (n : Nat) (l : L)
  | halt

/-! ### A philosopher -/

/-- Where a philosopher is: in `phylo_process`, in `take_pedals` or in `leave_pedals`. -/
inductive PhyloLine where
  | start | loop
  | takeWait | takeWaiting | takeTest | takeDriving | takePost | takeUnlock | takeOwn
  | leaveWait | leaveThinking | leaveTestLeft | leaveDriveLeft | leavePostLeft
  | leaveTestRight | leaveDriveRight | leavePostRight | leaveUnlock
  deriving DecidableEq, Repr

/-- `phylo_process` of philosopher `i`, with the two functions it calls.  At its loop it may call
    either of them. -/
def phyloStmt (t : Table) (i : Nat) : PhyloLine → Stmt PhyloLine
  | .start => .setState i .thinking .loop
  | .loop => .ask .takeWait .leaveWait
  -- `take_pedals`
  | .takeWait => .wait .table .takeWaiting
  | .takeWaiting => .setState i .waiting .takeTest
  | .takeTest =>
    .test (¬ t.Driving (t.left i) ∧ ¬ t.Driving (t.right i)) .takeDriving .takeUnlock
  | .takeDriving => .setState i .driving .takePost
  | .takePost => .post (.phylo i) .takeUnlock
  | .takeUnlock => .post .table .takeOwn
  | .takeOwn => .wait (.phylo i) .loop
  -- `leave_pedals`
  | .leaveWait => .wait .table .leaveThinking
  | .leaveThinking => .setState i .thinking .leaveTestLeft
  | .leaveTestLeft =>
    .test (t.Waiting (t.left i) ∧ ¬ t.Driving (t.left (t.left i))) .leaveDriveLeft .leaveTestRight
  | .leaveDriveLeft => .setState (t.left i) .driving .leavePostLeft
  | .leavePostLeft => .post (.phylo (t.left i)) .leaveTestRight
  | .leaveTestRight =>
    .test (t.Waiting (t.right i) ∧ ¬ t.Driving (t.right (t.right i))) .leaveDriveRight .leaveUnlock
  | .leaveDriveRight => .setState (t.right i) .driving .leavePostRight
  | .leavePostRight => .post (.phylo (t.right i)) .leaveUnlock
  | .leaveUnlock => .post .table .loop

/-! ### The main program -/

/-- Where the main program is in `new_phylo`. -/
inductive NewLine where
  | wait | create | spawn | count | unlock
  deriving DecidableEq, Repr

/-- Where the main program is in `remove_phylo`. -/
inductive RemoveLine where
  | wait | test | release | sleep | retake | kill | close | pid | state | count | unlock
  deriving DecidableEq, Repr

/-- Who has called `remove_phylo`: the main loop, or `remove_all(max)` on the way out. -/
inductive Caller where
  | loop
  | removeAll (max : Nat) (quit : Bool)
  deriving DecidableEq, Repr

/-- Where the main program is, with its arguments and where it has been called from. -/
inductive MainLine where
  /-- The first loop of `phylo_main`. -/
  | seating (i : Nat)
  | newPhylo (line : NewLine) (idx : Nat) (seating : Bool)
  | removePhylo (line : RemoveLine) (idx : Nat) (caller : Caller)
  | removeAll (i max : Nat) (quit : Bool)
  /-- The three checks of the main loop, each with what it does when it finds a token. -/
  | pollAdd | add | pollRemove | remove | pollQuit
  /-- `wait_pid(input_pid)` and the closing of `SEM_ID`. -/
  | closing
  | returned
  deriving DecidableEq, Repr

/-- Where the main program goes on after `new_phylo(idx)`. -/
def afterNew (idx : Nat) (seating ok : Bool) : MainLine :=
  if seating then if ok then .seating (idx + 1) else .removeAll 0 idx false
  else .pollRemove

/-- Where the main program goes on after `remove_phylo(idx)`. -/
def afterRemove (idx : Nat) : Caller → MainLine
  | .loop => .pollQuit
  | .removeAll max quit => .removeAll (idx + 1) max quit

/-- `phylo_main` from its first loop on, with the functions it calls. -/
def mainStmt (t : Table) : MainLine → Stmt MainLine
  | .seating i => .test (i < minPhy) (.newPhylo .wait i true) .pollAdd
  -- `new_phylo`
  | .newPhylo .wait idx seating => .wait .table (.newPhylo .create idx seating)
  | .newPhylo .create idx seating =>
    .create idx (.newPhylo .spawn idx seating) (afterNew idx seating false)
  | .newPhylo .spawn idx seating => .spawn idx (.newPhylo .count idx seating)
  | .newPhylo .count idx seating =>
    .setCount (if t.Seated idx then t.phyloCount + 1 else t.phyloCount)
      (.newPhylo .unlock idx seating)
  | .newPhylo .unlock idx seating => .post .table (afterNew idx seating (t.Seated idx))
  -- `remove_phylo`
  | .removePhylo .wait idx c => .wait .table (.removePhylo .test idx c)
  | .removePhylo .test idx c =>
    .test (t.Driving (t.left idx) ∧ t.Driving (t.right idx))
      (.removePhylo .release idx c) (.removePhylo .kill idx c)
  | .removePhylo .release idx c => .post .table (.removePhylo .sleep idx c)
  | .removePhylo .sleep idx c => .wait (.phylo idx) (.removePhylo .retake idx c)
  | .removePhylo .retake idx c => .wait .table (.removePhylo .test idx c)
  | .removePhylo .kill idx c => .kill idx (.removePhylo .close idx c)
  | .removePhylo .close idx c => .close (.phylo idx) (.removePhylo .pid idx c)
  | .removePhylo .pid idx c => .clearPid idx (.removePhylo .state idx c)
  | .removePhylo .state idx c => .setState idx .none (.removePhylo .count idx c)
  | .removePhylo .count idx c => .setCount (t.phyloCount - 1) (.removePhylo .unlock idx c)
  | .removePhylo .unlock idx c => .post .table (afterRemove idx c)
  -- `remove_all`
  | .removeAll i max quit =>
    .test (i < max) (.removePhylo .wait i (.removeAll max quit))
      (if quit then .closing else .returned)
  -- the main loop
  | .pollAdd => .ask .add .pollRemove
  | .add => .test (t.phyloCount < maxPhy) (.newPhylo .wait t.phyloCount false) .pollRemove
  | .pollRemove => .ask .remove .pollQuit
  | .remove =>
    .test (minPhy < t.phyloCount) (.removePhylo .wait (t.phyloCount - 1) .loop) .pollQuit
  | .pollQuit => .ask (.removeAll 0 t.phyloCount true) .pollAdd
  | .closing => .close .table .returned
  | .returned => .halt

/-! ### The system -/

/-- The processes of the program. -/
inductive Who where
  | main
  | phylo (i : Nat)
  deriving DecidableEq, Repr

abbrev Who.Line : Who → Type
  | .main => MainLine
  | .phylo _ => PhyloLine

instance : (w : Who) → DecidableEq w.Line
  | .main => inferInstanceAs (DecidableEq MainLine)
  | .phylo _ => inferInstanceAs (DecidableEq PhyloLine)

/-- The table, the semaphores that exist, and the processes that run. -/
structure Dinner extends Table where
  sems : SemId → Option (Fifo Who)
  lines : (w : Who) → Option w.Line

/-- What the surroundings decide: the choice of a process, the success of a creation, the result
    of a spawn. -/
structure Reply where
  yes : Bool := false
  pid : Int := noPid

namespace Dinner

variable (k : Dinner)

/-- The statement of `w` at a line. -/
def stmt : (w : Who) → w.Line → Stmt w.Line
  | .main, l => mainStmt k.toTable l
  | .phylo i, l => phyloStmt k.toTable i l

def goto (w : Who) (l : w.Line) : Dinner :=
  { k with lines := Function.update k.lines w (some l) }

def setSem (s : SemId) (sem : Option (Fifo Who)) : Dinner :=
  { k with sems := Function.update k.sems s sem }

/-- A process that a post has handed over to goes on behind its `my_sem_wait`. -/
def wake (w : Who) : Dinner :=
  match k.lines w with
  | none => k
  | some l =>
    match k.stmt w l with
    | .wait _ l' => k.goto w l'
    | _ => k

/-- `my_sem_post`; on a semaphore that does not exist it fails. -/
def post (s : SemId) : Dinner :=
  match k.sems s with
  | none => k
  | some sem =>
    match sem.post.2 with
    | none => k.setSem s (some sem.post.1)
    | some w => (k.setSem s (some sem.post.1)).wake w

/-- `w` runs no longer, and waits for no semaphore. -/
def stop (w : Who) : Dinner :=
  { k with
      sems := fun s => (k.sems s).map fun sem => sem.drop w
      lines := Function.update k.lines w none }

/-- One statement of `w`.  A process in a queue takes no step; a wait for a semaphore that does
    not exist fails, and the program goes on. -/
def exec (w : Who) (r : Reply) : Stmt w.Line → Option Dinner
  | .wait s l =>
    match k.sems s with
    | none => some (k.goto w l)
    | some sem =>
      if w ∈ sem.queue then none
      else
        let k' := k.setSem s (some (sem.wait w).1)
        some (if (sem.wait w).2 then k'.goto w l else k')
  | .post s l => some ((k.goto w l).post s)
  | .setState i st l =>
    some ({ k with phyloStates := Function.update k.phyloStates i st }.goto w l)
  | .test b l l' => some (k.goto w (if b then l else l'))
  | .ask l l' => some (k.goto w (if r.yes then l else l'))
  | .create i l l' =>
    if r.yes ∧ k.sems (.phylo i) = none then
      some ((k.setSem (.phylo i) (some {})).goto w l)
    else some (k.goto w l')
  | .spawn i l =>
    let k' := { k with phyloPids := Function.update k.phyloPids i r.pid }.goto w l
    some (if r.pid = noPid then k' else k'.goto (.phylo i) .start)
  | .kill i l => some ((if k.Seated i then k.stop (.phylo i) else k).goto w l)
  | .close s l => some ((k.setSem s none).goto w l)
  | .clearPid i l =>
    some ({ k with phyloPids := Function.update k.phyloPids i noPid }.goto w l)
  | .setCount n l => some ({ k with phyloCount := n }.goto w l)
  | .halt => none

end Dinner

/-- A step of the system: whose it is, and what its surroundings decide. -/
structure Event where
  who : Who
  reply : Reply := {}

/-- **One step.** -/
def next (k : Dinner) (e : Event) : Option (Dinner × Unit) :=
  match k.lines e.who with
  | none => none
  | some l => (k.exec e.who e.reply (k.stmt e.who l)).map fun k' => (k', ())

/-- The state in which the first loop of `phylo_main` begins. -/
def start : Dinner where
  sems
    | .table => some { value := 1 }
    | .phylo _ => none
  lines
    | .main => some (.seating 0)
    | .phylo _ => none

/-- A run of the program. -/
abbrev Run (ok : Dinner → Event → Prop) (tr : List (Dinner × Event × Unit)) (k : Dinner) : Prop :=
  Trace next ok start tr k

end TpeSo.Phylo
