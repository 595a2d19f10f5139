import TpeSo.Pipes.Confined

namespace TpeSo

open Ds Lib

/-!
# `core/shell.c` — `execute_pipe_commands`

For a line with a `|` the shell creates the pipe `pipe_cmd`, opens both ends, spawns the program
on the left with the write end as its output and the one on the right with the read end as its
input, closes its own two descriptors, and waits for both.  If the first program cannot be spawned
the shell returns without closing anything.

* `ShellLine`, `ShellState` — where the shell is, and the variables of the function;
* `ShellState.Calls`, `ShellState.advance` — the entries the shell makes, and their effect on the
  variables;
* `shellNext`, `shellNext_cases` — one step of the system: of the shell, or of anybody else;
* `ShellState.fd` — the descriptors that the shell has opened and not closed yet.
-/

/-- `"pipe_cmd"`. -/
def pipeCmd : List UInt8 := [112, 105, 112, 101, 95, 99, 109, 100]

/-- Where the shell is. -/
inductive ShellLine where
  /-- Outside of `execute_pipe_commands`. -/
  | prompt
  /-- `pipe_open("pipe_cmd", READ_PIPE)`. -/
  | openRead
  /-- `pipe_open("pipe_cmd", WRITE_PIPE)`. -/
  | openWrite
  /-- `spawn_process(parsed_left->cmd, …, fds_left)`. -/
  | spawnLeft
  /-- `spawn_process_bg(parsed_right->cmd, …, fds_right)`. -/
  | spawnRight
  /-- `close_fd(write_fd)`. -/
  | closeWrite
  /-- `close_fd(read_fd)`. -/
  | closeRead
  /-- `wait_pid(pid_left, NULL)`, and inside that call. -/
  | waitLeft | waitingLeft
  /-- `wait_pid(pid_right, NULL)`, and inside that call. -/
  | waitRight | waitingRight
  /-- `pipe_close("pipe_cmd")`. -/
  | closePipe
  deriving DecidableEq, Repr

/-- The kernel, and the shell with its variables. -/
structure ShellState where
  kernel : Kernel
  line : ShellLine := .prompt
  readFd : Int := -1
  writeFd : Int := -1
  pidLeft : Int := -1
  pidRight : Int := -1

/-- The value a system call has returned in `rax`. -/
def Completion.value : Option Completion → Int
  | some (.other ret) => ret
  | _ => 0

/-- An array of descriptors for `spawn_process` that begins with `a`, `b` and `-1`. -/
def BeginsWith (a b : Int) : Option (Fin fdMax → Int) → Prop
  | none => False
  | some fds => ∀ i : Fin fdMax,
      (i.val = 0 → fds i = a) ∧ (i.val = 1 → fds i = b) ∧ (i.val = 2 → fds i = -1)

instance (a b : Int) (fds : Option (Fin fdMax → Int)) : Decidable (BeginsWith a b fds) := by
  rcases fds with ⟨⟩ <;> dsimp only [BeginsWith] <;> infer_instance

namespace ShellState

/-- What the shell calls at its prompt: it starts a pipeline with `pipe_create`, and its other
    commands open and close nothing and leave their children the default descriptors. -/
def CallsAtPrompt : Event → Prop
  | .sysPipeCreate id _ => id = pipeCmd
  | .sysPipeOpen _ _ _ | .sysPipeClose _ | .sysCloseFd _ | .sysExit _ => False
  | .sysSpawn a => a.fds = none
  | _ => True

/-- The entries the shell can make, and the interrupts. -/
def Calls (s : ShellState) (e : Event) : Prop :=
  match s.line, e with
  | .prompt, e => CallsAtPrompt e
  | _, .timer | _, .key _ | _, .user _ | _, .resume => True
  | .openRead, .sysPipeOpen id _ mode => id = pipeCmd ∧ mode = 0
  | .openWrite, .sysPipeOpen id _ mode => id = pipeCmd ∧ mode = 1
  | .spawnLeft, .sysSpawn a => BeginsWith 0 s.writeFd a.fds ∧ a.background = false
  | .spawnRight, .sysSpawn a => BeginsWith s.readFd 1 a.fds ∧ a.background = true
  | .closeWrite, .sysCloseFd fd => fd = s.writeFd
  | .closeRead, .sysCloseFd fd => fd = s.readFd
  | .waitLeft, .sysWaitPid pid => pid = s.pidLeft
  | .waitRight, .sysWaitPid pid => pid = s.pidRight
  | .closePipe, .sysPipeClose id => id = pipeCmd
  | _, _ => False

instance (e : Event) : Decidable (CallsAtPrompt e) := by
  rcases e with ⟨⟩ <;> dsimp only [CallsAtPrompt] <;> infer_instance

instance (s : ShellState) (e : Event) : Decidable (s.Calls e) := by
  unfold Calls
  split <;> infer_instance

/-- Where the shell is after the entry `e` of its own, which has shown `o` and led to `k`. -/
def advance (s : ShellState) (e : Event) (o : Option Completion) (k : Kernel) : ShellState :=
  let s := { s with kernel := k }
  match s.line, e with
  | .prompt, .sysPipeCreate _ _ => { s with line := .openRead }
  | .openRead, .sysPipeOpen _ _ _ =>
    { s with readFd := Completion.value o, line := .openWrite }
  | .openWrite, .sysPipeOpen _ _ _ =>
    { s with writeFd := Completion.value o, line := .spawnLeft }
  | .spawnLeft, .sysSpawn _ =>
    { s with
        pidLeft := Completion.value o
        line := if Completion.value o < 0 then .prompt else .spawnRight }
  | .spawnRight, .sysSpawn _ =>
    { s with
        pidRight := Completion.value o
        line := if Completion.value o < 0 then .prompt else .closeWrite }
  | .closeWrite, .sysCloseFd _ => { s with line := .closeRead }
  | .closeRead, .sysCloseFd _ => { s with line := .waitLeft }
  | .waitLeft, .sysWaitPid _ | .waitingLeft, .resume =>
    { s with line := if o.isSome then .waitRight else .waitingLeft }
  | .waitRight, .sysWaitPid _ | .waitingRight, .resume =>
    { s with line := if o.isSome then .closePipe else .waitingRight }
  | .closePipe, .sysPipeClose _ => { s with line := .prompt }
  | _, _ => s

end ShellState

/-- **One step of the system.**  Everybody but the shell `sh` makes what entries they like. -/
def shellNext (sh : ProcId) (s : ShellState) (e : Event) :
    Option (ShellState × Option Completion) :=
  if s.kernel.currentProcess = some sh then
    if s.Calls e then (step s.kernel e).map fun r => (s.advance e r.2 r.1, r.2) else none
  else (step s.kernel e).map fun r => ({ s with kernel := r.1 }, r.2)

namespace ShellState

/-- The descriptor on that end that the shell has opened and not closed yet. -/
def fd (s : ShellState) : FileOps → Option Int
  | .pipeRead =>
    match s.line with
    | .openWrite | .spawnLeft | .spawnRight | .closeWrite | .closeRead => some s.readFd
    | _ => none
  | .pipeWrite =>
    match s.line with
    | .spawnLeft | .spawnRight | .closeWrite => some s.writeFd
    | _ => none
  | _ => none

/-- The shell has started both programs and closed its descriptors. -/
def Started (s : ShellState) : Prop :=
  match s.line with
  | .waitLeft | .waitingLeft | .waitRight | .waitingRight | .closePipe => True
  | _ => False

theorem Started.line {s : ShellState} (h : s.Started) : s.line ≠ .prompt := by
  intro hline
  simp [Started, hline] at h

theorem Started.fd {s : ShellState} (h : s.Started) (ops : FileOps) : s.fd ops = none := by
  obtain ⟨k, line, rd, wr, pl, pr⟩ := s
  cases ops with
  | pipeRead => cases line <;> first | rfl | exact h.elim
  | pipeWrite => cases line <;> first | rfl | exact h.elim
  | _ => rfl

end ShellState

/-- The entry is neither `pipe_open` nor `close_fd`. -/
def Event.sparesFds : Event → Prop
  | .sysPipeOpen _ _ _ | .sysCloseFd _ => False
  | _ => True

/-- **Everything an entry of the shell can do.** -/
inductive ShellCall (s : ShellState) (o : Option Completion) (s' : ShellState) : Event → Prop where
  | prompt {e : Event} (hline : s.line = .prompt) (hcall : ShellState.CallsAtPrompt e)
      (hrd : s'.readFd = s.readFd) (hwr : s'.writeFd = s.writeFd)
      (h : s'.line = .prompt ∨ s'.line = .openRead) : ShellCall s o s' e
  | quiet {e : Event} (hline : s.line ≠ .prompt) (he : e.sparesFds) (hspawn : ∀ a, e ≠ .sysSpawn a)
      (h : s'.fd = s.fd) : ShellCall s o s' e
  | openRead (junk : List UInt8) (hline : s.line = .openRead)
      (h : s' = { s with
        kernel := s'.kernel, readFd := Completion.value o, line := .openWrite }) :
      ShellCall s o s' (.sysPipeOpen pipeCmd junk 0)
  | openWrite (junk : List UInt8) (hline : s.line = .openWrite)
      (h : s' = { s with
        kernel := s'.kernel, writeFd := Completion.value o, line := .spawnLeft }) :
      ShellCall s o s' (.sysPipeOpen pipeCmd junk 1)
  | spawnLeft (a : SpawnArgs) (hline : s.line = .spawnLeft) (ha : BeginsWith 0 s.writeFd a.fds)
      (h : s' = { s with
        kernel := s'.kernel, pidLeft := Completion.value o,
        line := if Completion.value o < 0 then .prompt else .spawnRight }) :
      ShellCall s o s' (.sysSpawn a)
  | spawnRight (a : SpawnArgs) (hline : s.line = .spawnRight) (ha : BeginsWith s.readFd 1 a.fds)
      (h : s' = { s with
        kernel := s'.kernel, pidRight := Completion.value o,
        line := if Completion.value o < 0 then .prompt else .closeWrite }) :
      ShellCall s o s' (.sysSpawn a)
  | closeWrite (hline : s.line = .closeWrite)
      (h : s' = { s with kernel := s'.kernel, line := .closeRead }) :
      ShellCall s o s' (.sysCloseFd s.writeFd)
  | closeRead (hline : s.line = .closeRead)
      (h : s' = { s with kernel := s'.kernel, line := .waitLeft }) :
      ShellCall s o s' (.sysCloseFd s.readFd)

variable {sh : ProcId} {s s' : ShellState} {e : Event} {o : Option Completion}

theorem ShellState.kernel_advance (s : ShellState) (e : Event) (o : Option Completion)
    (k : Kernel) : (s.advance e o k).kernel = k := by
  unfold advance
  dsimp only
  split <;> rfl

/-- A call of the shell is one of its cases. -/
theorem ShellState.Calls.cases (h : s.Calls e) (k : Kernel) :
    ShellCall s o (s.advance e o k) e := by
  obtain ⟨k₀, line, rd, wr, pl, pr⟩ := s
  cases line with
  | prompt =>
    refine .prompt rfl h ?_ ?_ ?_
    · cases e <;> rfl
    · cases e <;> rfl
    · cases e <;> first | exact .inl rfl | exact .inr rfl
  | openRead =>
    cases e with
    | sysPipeOpen id junk mode =>
      obtain ⟨rfl, rfl⟩ := h
      exact .openRead junk rfl rfl
    | _ => first | exact h.elim | exact .quiet nofun trivial nofun rfl
  | openWrite =>
    cases e with
    | sysPipeOpen id junk mode =>
      obtain ⟨rfl, rfl⟩ := h
      exact .openWrite junk rfl rfl
    | _ => first | exact h.elim | exact .quiet nofun trivial nofun rfl
  | spawnLeft =>
    cases e with
    | sysSpawn a => exact .spawnLeft a rfl h.1 rfl
    | _ => first | exact h.elim | exact .quiet nofun trivial nofun rfl
  | spawnRight =>
    cases e with
    | sysSpawn a => exact .spawnRight a rfl h.1 rfl
    | _ => first | exact h.elim | exact .quiet nofun trivial nofun rfl
  | closeWrite =>
    cases e with
    | sysCloseFd x =>
      obtain rfl := h
      exact .closeWrite rfl rfl
    | _ => first | exact h.elim | exact .quiet nofun trivial nofun rfl
  | closeRead =>
    cases e with
    | sysCloseFd x =>
      obtain rfl := h
      exact .closeRead rfl rfl
    | _ => first | exact h.elim | exact .quiet nofun trivial nofun rfl
  -- from here on the shell has nothing open, and only waits
  | waitLeft | waitingLeft | waitRight | waitingRight | closePipe =>
    refine .quiet nofun ?_ ?_ ?_
    · cases e <;> first | exact h.elim | trivial
    · rintro a rfl
      exact h.elim
    · funext ops
      cases e <;> first | exact h.elim | skip
      all_goals cases ops <;> cases o <;> rfl

/-- A step is an entry of somebody else, or of the shell. -/
theorem shellNext_cases (h : shellNext sh s e = some (s', o)) :
    step s.kernel e = some (s'.kernel, o) ∧
      (s.kernel.currentProcess ≠ some sh ∧ s' = { s with kernel := s'.kernel } ∨
        s.kernel.currentProcess = some sh ∧ ShellCall s o s' e) := by
  unfold shellNext at h
  split at h
  · rename_i hc
    split at h
    · rename_i hcall
      obtain ⟨r, hs, hr⟩ := Option.map_eq_some_iff.mp h
      cases hr
      refine ⟨?_, .inr ⟨hc, hcall.cases r.1⟩⟩
      rw [ShellState.kernel_advance]
      exact hs
    · cases h
  · rename_i hc
    obtain ⟨r, hs, hr⟩ := Option.map_eq_some_iff.mp h
    cases hr
    exact ⟨hs, .inl ⟨hc, rfl⟩⟩

end TpeSo
