import TpeSo.Pipes.EndOfFile
import TpeSo.Userland.Pipeline

namespace TpeSo

open Ds Lib

/-!
# `core/shell.c` — when the right side of a pipeline sees the end of file

Once the shell has closed its two descriptors, only what the left program has become holds the
write end of the pipe, and only what the right program has become holds the read end.  A reader
that finds the pipe empty is told so exactly when the whole left side has gone.

* `InPipeline sh pp` — the shell `sh` is in `execute_pipe_commands` and lives, and nobody else opens
  the pipe `pp` by its name;
* `OnSide` — the program started for an end, and whoever has been handed a descriptor from there;
* `Piped` — the invariant; `Piped.step` — every step keeps it;
* `pipeline_eof` — **the two sides hold one end each, and the end of file is exact.**
-/

variable {f : Nat → Bool} {sh : ProcId} {pp : PipeId} {ops : FileOps} {s s' t : ShellState}
  {e : Event} {o : Option Completion} {p q : ProcId} {k k' : Kernel}
  {tr : List (ShellState × Event × Option Completion)}

/-- The entry does not attach a descriptor to `pp` by name. -/
def NamesNot (pp : PipeId) (k : Kernel) : Event → Prop
  | .sysPipeOpen id _ _ => ¬ OpensTo k id pp
  | _ => True

instance (id : List UInt8) : Decidable (OpensTo k id pp) :=
  inferInstanceAs (Decidable (_ ∨ _ ∧ _))

instance (e : Event) : Decidable (NamesNot pp k e) := by
  rcases e with ⟨⟩ <;> dsimp only [NamesNot] <;> infer_instance

/-- The shell is in the middle of `execute_pipe_commands` and is not killed, nobody else opens `pp`
    by name, and `sys_pipe_close` names no pipe with references. -/
structure InPipeline (sh : ProcId) (pp : PipeId) (s : ShellState) (e : Event) : Prop where
  line : s.line ≠ .prompt
  alive : killTarget s.kernel e ≠ some sh
  others : s.kernel.currentProcess ≠ some sh → NamesNot pp s.kernel e
  closes : ClosesUnreferenced s.kernel e

instance (sh : ProcId) (pp : PipeId) (s : ShellState) (e : Event) :
    Decidable (InPipeline sh pp s e) :=
  decidable_of_iff (s.line ≠ .prompt ∧ killTarget s.kernel e ≠ some sh ∧
      (s.kernel.currentProcess ≠ some sh → NamesNot pp s.kernel e) ∧
        ClosesUnreferenced s.kernel e)
    ⟨fun h => ⟨h.1, h.2.1, h.2.2.1, h.2.2.2⟩, fun h => ⟨h.line, h.alive, h.others, h.closes⟩⟩

/-- The shell has its input and its output, is about to open the pipe, and nobody holds an end
    of `pp`. -/
structure Begins (sh : ProcId) (pp : PipeId) (s : ShellState) : Prop where
  line : s.line = .openRead
  shell : sh < s.kernel.nextProc
  input : ((s.kernel.procs sh).fds 0).type ≠ .none
  output : ((s.kernel.procs sh).fds 1).type ≠ .none
  fresh : ∀ ops q, ¬ HoldsEnd ops pp s.kernel q

/-- The line at which the shell starts the program for that end. -/
def spawnLine : FileOps → ShellLine
  | .pipeWrite => .spawnLeft
  | _ => .spawnRight

/-- The shell has started, at that line, a program of which `q` is a part: the process itself, or
    one that has been handed a descriptor on the end from there. -/
def OnSide (sh : ProcId) (ops : FileOps) (pp : PipeId)
    (tr : List (ShellState × Event × Option Completion)) (q : ProcId) : Prop :=
  ∃ x ∈ tr, x.1.kernel.currentProcess = some sh ∧ x.1.line = spawnLine ops ∧
    (∃ a, x.2.1 = .sysSpawn a) ∧
    Handed (fun s e => PassesEnd ops pp s.kernel e) tr x.1.kernel.nextProc q

theorem OnSide.snoc (h : OnSide sh ops pp tr q) (x : ShellState × Event × Option Completion) :
    OnSide sh ops pp (tr ++ [x]) q := by
  obtain ⟨y, hy, hc, hline, he, hhand⟩ := h
  exact ⟨y, List.mem_append_left _ hy, hc, hline, he, hhand.snoc⟩

/-- Whoever is handed the end from a side belongs to that side. -/
theorem OnSide.pass (h : OnSide sh ops pp tr p) (hp : PassesEnd ops pp s.kernel e p q) :
    OnSide sh ops pp (tr ++ [(s, e, o)]) q := by
  obtain ⟨y, hy, hc, hline, he, hhand⟩ := h
  exact ⟨y, List.mem_append_left _ hy, hc, hline, he, hhand.snoc_give hp⟩

/-! ### The invariant -/

/-- Who holds the ends of `pp`: the shell only in the slots its variables name, and everybody else
    on the side of that end. -/
structure Piped (sh : ProcId) (pp : PipeId)
    (tr : List (ShellState × Event × Option Completion)) (s : ShellState) : Prop where
  born : Born .run s.kernel
  shell : sh < s.kernel.nextProc
  input : ((s.kernel.procs sh).fds 0).type ≠ .none
  output : ((s.kernel.procs sh).fds 1).type ≠ .none
  own : ∀ ops (i : Fin fdMax), ((s.kernel.procs sh).fds i).refers ops pp → s.fd ops = some i.val
  taken : ∀ ops (i : Fin fdMax), s.fd ops = some i.val →
    ((s.kernel.procs sh).fds i).type ≠ .none ∧ i ≠ 0 ∧ i ≠ 1
  apart : ∀ i : Fin fdMax, s.fd .pipeRead = some i.val → s.fd .pipeWrite ≠ some i.val
  side : ∀ ops q, q ≠ sh → HoldsEnd ops pp s.kernel q → OnSide sh ops pp tr q

theorem Begins.piped (h : Begins sh pp s) (hb : Born .run s.kernel) : Piped sh pp [] s where
  born := hb
  shell := h.shell
  input := h.input
  output := h.output
  own ops i hi := (h.fresh ops sh ⟨i, hi⟩).elim
  taken ops i hi := by
    cases ops <;> simp [ShellState.fd, h.line] at hi
  apart i hi := by simp [ShellState.fd, h.line] at hi
  side ops q _ hq := (h.fresh ops q hq).elim

/-- The descriptors of the shell stay as they are, unless the shell itself opens or closes. -/
theorem shell_fds (hb : Born .run k) (hsh : sh < k.nextProc) (halive : killTarget k e ≠ some sh)
    (hs : step k e = some (k', o)) (hspare : k.currentProcess ≠ some sh ∨ e.sparesFds)
    (i : Fin fdMax) : (k'.procs sh).fds i = (k.procs sh).fds i := by
  cases step_slot (current_ne_nextProc hb) hs sh i with
  | same h => exact h
  | closed he hc h =>
    subst he
    exact (hspare.elim (fun hn => hn hc) fun hspare => hspare).elim
  | killed hq h => exact (halive hq).elim
  | opened id junk mode he hc =>
    subst he
    exact (hspare.elim (fun hn => hn hc) fun hspare => hspare).elim
  | inherited a he hq => exact absurd hsh (hq ▸ lt_irrefl _)
  | born a he hq => exact absurd hsh (hq ▸ lt_irrefl _)

/-- A slot of the shell after it has closed a descriptor. -/
theorem shell_close (sh : ProcId) (hb : Born .run k) {x : Int}
    (hs : step k (.sysCloseFd x) = some (k', o)) (i : Fin fdMax) :
    (k'.procs sh).fds i = (k.procs sh).fds i ∨ x = i.val ∧ (k'.procs sh).fds i = {} := by
  cases step_slot (current_ne_nextProc hb) hs sh i with
  | same h => exact .inl h
  | closed he hc h => exact .inr ⟨Event.sysCloseFd.inj he, h⟩
  | killed hq h => cases hq
  | opened id junk mode he => cases he
  | inherited a he => cases he
  | born a he => cases he

/-- The ways another process may come by an end of `pp`. -/
theorem other_holds (hb : Born .run k)
    (hok : k.currentProcess ≠ some sh → NamesNot pp k e) (hs : step k e = some (k', o))
    (hq : q ≠ sh) (h : HoldsEnd ops pp k' q) : HoldsEnd ops pp k q ∨
      ∃ p, HoldsEnd ops pp k p ∧ PassesEnd ops pp k e p q := by
  rcases step_holds (current_ne_nextProc hb) hs h with h | ⟨hc, id, junk, mode, rfl, hend, ho⟩ | h
  · exact .inl h
  · have hne : k.currentProcess ≠ some sh := fun hsh => hq (Option.some.inj (hc.symm.trans hsh))
    exact (hok hne ho).elim
  · exact .inr h

/-- What is left to show of a step that leaves the descriptors of the shell alone. -/
theorem Piped.keep (h : Piped sh pp tr s) (hb : Born .run s'.kernel)
    (hn : s.kernel.nextProc ≤ s'.kernel.nextProc)
    (hfds : ∀ i, (s'.kernel.procs sh).fds i = (s.kernel.procs sh).fds i) (hfd : s'.fd = s.fd)
    {x : ShellState × Event × Option Completion}
    (hside : ∀ ops q, q ≠ sh → HoldsEnd ops pp s'.kernel q → OnSide sh ops pp (tr ++ [x]) q) :
    Piped sh pp (tr ++ [x]) s' where
  born := hb
  shell := h.shell.trans_le hn
  input := by rw [hfds]; exact h.input
  output := by rw [hfds]; exact h.output
  own ops i hi := by
    rw [hfds] at hi
    rw [hfd]
    exact h.own ops i hi
  taken ops i hi := by
    rw [hfd] at hi
    rw [hfds]
    exact h.taken ops i hi
  apart i hi := by
    rw [hfd] at hi ⊢
    exact h.apart i hi
  side := hside

/-- The descriptors of others, in a step in which the shell spawns nothing. -/
theorem Piped.side_step (h : Piped sh pp tr s) (hok : InPipeline sh pp s e)
    (hs : step s.kernel e = some (s'.kernel, o)) (hspare : s.kernel.currentProcess ≠ some sh ∨
      ∀ a, e ≠ .sysSpawn a) (ops : FileOps) (q : ProcId) (hq : q ≠ sh)
    (hh : HoldsEnd ops pp s'.kernel q) : OnSide sh ops pp (tr ++ [(s, e, o)]) q := by
  rcases other_holds h.born hok.others hs hq hh with hh | ⟨p, hp, hpass⟩
  · exact (h.side ops q hq hh).snoc _
  · have hne : p ≠ sh := by
      rintro rfl
      obtain ⟨hc, -, a, fds, he, -⟩ := hpass
      exact hspare.elim (fun hn => hn hc) fun hn => hn a he
    exact (h.side ops p hne hp).pass hpass

/-- Of an array that begins with `a`, `b` and `-1`, only `a` and `b` are looked at. -/
theorem BeginsWith.slot {a b : Int} {fds : Fin fdMax → Int} (h : BeginsWith a b (some fds))
    {i j : Fin fdMax} (hlow : ∀ y < i, 0 ≤ fds y) (hj : fds i = j.val) :
    a = j.val ∨ b = j.val := by
  have h0 := (h 0).1 rfl
  have h1 := (h 1).2.1 rfl
  have h2 := (h 2).2.2 rfl
  rcases lt_trichotomy i 2 with hlt | heq | hgt
  · have hi : i = 0 ∨ i = 1 := by
      have hval : i.val < 2 := hlt
      rcases Nat.lt_succ_iff_lt_or_eq.mp hval with h | h
      · exact .inl (Fin.ext (Nat.lt_one_iff.mp h))
      · exact .inr (Fin.ext h)
    rcases hi with rfl | rfl
    · exact .inl (h0.symm.trans hj)
    · exact .inr (h1.symm.trans hj)
  · subst heq
    omega
  · have hneg := hlow 2 hgt
    omega

/-- A program that the shell starts is handed the end that is meant for it, and no other. -/
theorem Piped.passes_left (h : Piped sh pp tr s) (hline : s.line = .spawnLeft) {a : SpawnArgs}
    (ha : BeginsWith 0 s.writeFd a.fds) (hp : PassesEnd ops pp s.kernel (.sysSpawn a) sh q) :
    ops = .pipeWrite := by
  obtain ⟨-, -, a', fds, he, hfds, i, j, hlow, hj, hr⟩ := hp
  cases he
  rw [hfds] at ha
  have hown := h.own ops j hr
  obtain ⟨-, hj0, -⟩ := h.taken ops j hown
  have hwrite : s.fd .pipeWrite = some s.writeFd := by simp [ShellState.fd, hline]
  rcases ha.slot hlow hj with h0 | hw
  · have hval : j.val = 0 := by omega
    exact (hj0 (Fin.ext hval)).elim
  · rw [hw] at hwrite
    cases ops with
    | pipeWrite => rfl
    | pipeRead => exact (h.apart j hown hwrite).elim
    | _ => cases hown

theorem Piped.passes_right (h : Piped sh pp tr s) (hline : s.line = .spawnRight) {a : SpawnArgs}
    (ha : BeginsWith s.readFd 1 a.fds) (hp : PassesEnd ops pp s.kernel (.sysSpawn a) sh q) :
    ops = .pipeRead := by
  obtain ⟨-, -, a', fds, he, hfds, i, j, hlow, hj, hr⟩ := hp
  cases he
  rw [hfds] at ha
  have hown := h.own ops j hr
  obtain ⟨-, -, hj1⟩ := h.taken ops j hown
  have hread : s.fd .pipeRead = some s.readFd := by simp [ShellState.fd, hline]
  rcases ha.slot hlow hj with hr' | h1
  · rw [hr'] at hread
    cases ops with
    | pipeRead => rfl
    | pipeWrite => exact (h.apart j hread hown).elim
    | _ => cases hown
  · have hval : j.val = 1 := by omega
    exact (hj1 (Fin.ext hval)).elim

theorem nextProc_le_of_step (hs : step k e = some (k', o)) : k.nextProc ≤ k'.nextProc :=
  Does.invariant (fun _ j => k.nextProc ≤ j.nextProc)
    (fun _ _ _ _ _ hI _ hm => hI.trans hm.nextProc_le) (step_does hs) (Nat.le_refl _)

/-- The shell opens an end. -/
theorem Piped.opens (h : Piped sh pp tr s) (hc : s.kernel.currentProcess = some sh)
    {id junk : List UInt8} {mode : Int}
    (hs : step s.kernel (.sysPipeOpen id junk mode) = some (s'.kernel, o))
    (hnone : s.fd (endOf mode) = none) (hfd : ∀ ops, s'.fd ops =
      if ops = endOf mode then some (Completion.value o) else s.fd ops)
    {x : ShellState × Event × Option Completion}
    (hside : ∀ ops q, q ≠ sh → HoldsEnd ops pp s'.kernel q → OnSide sh ops pp (tr ++ [x]) q) :
    Piped sh pp (tr ++ [x]) s' := by
  have hold : ∀ ops (i : Fin fdMax), s.fd ops = some i.val → ops ≠ endOf mode := by
    rintro ops i hi rfl
    rw [hnone] at hi
    cases hi
  have hborn := h.born.run_step hs
  have hshell := h.shell.trans_le (nextProc_le_of_step hs)
  obtain ⟨ret, rfl, hopen⟩ := step_open hc hs
  rcases hopen with ⟨i, pp', hi, -, rfl, hfds⟩ | ⟨hneg, hfds⟩
  · have hfree := findFreeFd_type hi
    have hslot : ∀ j, (s'.kernel.procs sh).fds j =
        if j = i then pipeEntry pp' (endOf mode) else (s.kernel.procs sh).fds j := by
      intro j
      rw [hfds]
      simp
    -- the slots in use are others than `i`, which was free
    have hused : ∀ {j}, ((s.kernel.procs sh).fds j).type ≠ .none → j ≠ i := by
      rintro j hj rfl
      exact hj hfree
    have hnew : ∀ {j : Fin fdMax}, some (i.val : Int) = some j.val → j = i :=
      fun hj => (Fin.ext (Int.ofNat.inj (Option.some.inj hj))).symm
    refine ⟨hborn, hshell, ?_, ?_, ?_, ?_, ?_, hside⟩
    · rw [hslot, if_neg (hused h.input)]
      exact h.input
    · rw [hslot, if_neg (hused h.output)]
      exact h.output
    · intro ops j hj
      rw [hslot] at hj
      split at hj
      · rename_i hji
        obtain ⟨rfl, -⟩ := (FdEntry.refers_pipeEntry_iff (endOf_isPipe mode)).mp hj
        rw [hfd, if_pos rfl, hji]
        rfl
      · have hown := h.own ops j hj
        rw [hfd, if_neg (hold ops j hown)]
        exact hown
    · intro ops j hj
      rw [hfd] at hj
      rw [hslot]
      split at hj
      · rw [if_pos (hnew hj), hnew hj]
        exact ⟨nofun, (hused h.input).symm, (hused h.output).symm⟩
      · obtain ⟨htype, hj0, hj1⟩ := h.taken ops j hj
        rw [if_neg (hused htype)]
        exact ⟨htype, hj0, hj1⟩
    · intro j hr hw
      rw [hfd] at hr hw
      split at hr
      · split at hw
        · rename_i hr' hw'
          exact nomatch hr'.trans hw'.symm
        · exact hused (h.taken _ j hw).1 (hnew hr)
      · split at hw
        · exact hused (h.taken _ j hr).1 (hnew hw)
        · exact h.apart j hr hw
  · -- nothing is opened, and the variable holds no descriptor
    have hvoid : ∀ j : Fin fdMax, some ret ≠ some (j.val : Int) := by
      intro j hj
      have hret := Option.some.inj hj
      omega
    refine ⟨hborn, hshell, ?_, ?_, ?_, ?_, ?_, hside⟩
    · rw [hfds]
      exact h.input
    · rw [hfds]
      exact h.output
    · intro ops j hj
      rw [hfds] at hj
      have hown := h.own ops j hj
      rw [hfd, if_neg (hold ops j hown)]
      exact hown
    · intro ops j hj
      rw [hfd] at hj
      rw [hfds]
      split at hj
      · exact (hvoid j hj).elim
      · exact h.taken ops j hj
    · intro j hr hw
      rw [hfd] at hr hw
      split at hr
      · exact hvoid j hr
      · split at hw
        · exact hvoid j hw
        · exact h.apart j hr hw

/-- The shell closes an end. -/
theorem Piped.closes (h : Piped sh pp tr s) (hc : s.kernel.currentProcess = some sh) {y : Int}
    (hs : step s.kernel (.sysCloseFd y) = some (s'.kernel, o)) {ops₀ : FileOps}
    (hy : s.fd ops₀ = some y)
    (hother : ∀ ops, ops ≠ ops₀ → ∀ i : Fin fdMax, s.fd ops = some i.val → y ≠ i.val)
    (hfd : ∀ ops, s'.fd ops = if ops = ops₀ then none else s.fd ops)
    {x : ShellState × Event × Option Completion}
    (hside : ∀ ops q, q ≠ sh → HoldsEnd ops pp s'.kernel q → OnSide sh ops pp (tr ++ [x]) q) :
    Piped sh pp (tr ++ [x]) s' := by
  have hclose := shell_close sh h.born hs
  have hkeep : ∀ i : Fin fdMax, y ≠ i.val →
      (s'.kernel.procs sh).fds i = (s.kernel.procs sh).fds i :=
    fun i hi => (hclose i).resolve_right fun hcl => hi hcl.1
  -- the slot that is closed is none of the first two
  have hlow : ∀ i : Fin fdMax, i = 0 ∨ i = 1 → y ≠ i.val := by
    rintro i hi rfl
    obtain ⟨-, hi0, hi1⟩ := h.taken ops₀ i hy
    exact hi.elim hi0 hi1
  refine ⟨h.born.run_step hs, h.shell.trans_le (nextProc_le_of_step hs), ?_, ?_, ?_, ?_, ?_, hside⟩
  · rw [hkeep 0 (hlow 0 (.inl rfl))]
    exact h.input
  · rw [hkeep 1 (hlow 1 (.inr rfl))]
    exact h.output
  · intro ops j hj
    by_cases hyj : y = j.val
    · subst hyj
      rw [step_closeFd hc hs] at hj
      exact (FdEntry.not_refers_empty hj).elim
    · rw [hkeep j hyj] at hj
      have hown := h.own ops j hj
      rw [hfd, if_neg]
      · exact hown
      · rintro rfl
        exact hyj (Option.some.inj (hy.symm.trans hown))
  · intro ops j hj
    rw [hfd] at hj
    split at hj
    · cases hj
    · rename_i hops
      rw [hkeep j (hother ops hops j hj)]
      exact h.taken ops j hj
  · intro j hr hw
    rw [hfd] at hr hw
    split at hr
    · cases hr
    · split at hw
      · cases hw
      · exact h.apart j hr hw

/-- The shell starts a program, and hands the end `ops₀` to it. -/
theorem Piped.spawns (h : Piped sh pp tr s) (hok : InPipeline sh pp s e)
    (hc : s.kernel.currentProcess = some sh) {a : SpawnArgs} (he : e = .sysSpawn a)
    (hs : step s.kernel e = some (s'.kernel, o)) (ops₀ : FileOps) (hline : s.line = spawnLine ops₀)
    (hpasses : ∀ ops q, PassesEnd ops pp s.kernel e sh q → ops = ops₀) (hfd : s'.fd = s.fd) :
    Piped sh pp (tr ++ [(s, e, o)]) s' := by
  have hspare : e.sparesFds := by
    rw [he]
    trivial
  refine h.keep (h.born.run_step hs) (nextProc_le_of_step hs)
    (shell_fds h.born h.shell hok.alive hs (.inr hspare)) hfd fun ops q hq hh => ?_
  rcases other_holds h.born hok.others hs hq hh with hh | ⟨p, hp, hpass⟩
  · exact (h.side ops q hq hh).snoc _
  · by_cases hpsh : p = sh
    · -- a descriptor of the shell itself
      subst hpsh
      obtain rfl := hpasses ops q hpass
      obtain ⟨-, hnew, -⟩ := hpass
      subst hnew
      exact ⟨(s, e, o), List.mem_append_right _ (List.mem_singleton_self _), hc, hline, ⟨a, he⟩,
        .refl _⟩
    · exact (h.side ops p hpsh hp).pass hpass

/-- **Every step inside `execute_pipe_commands` keeps the invariant**, as long as it does not
    return early. -/
theorem Piped.step (h : Piped sh pp tr s) (hok : InPipeline sh pp s e)
    (hnext : shellNext sh s e = some (s', o)) (hline' : s'.line ≠ .prompt) :
    Piped sh pp (tr ++ [(s, e, o)]) s' := by
  obtain ⟨hs, hcases⟩ := shellNext_cases hnext
  rcases hcases with ⟨hc, hs'⟩ | ⟨hc, hcall⟩
  · have hfd : s'.fd = s.fd := by
      rw [hs']
      rfl
    exact h.keep (h.born.run_step hs) (nextProc_le_of_step hs)
      (shell_fds h.born h.shell hok.alive hs (.inl hc)) hfd (h.side_step hok hs (.inl hc))
  · cases hcall with
    | prompt hline => exact (hok.line hline).elim
    | quiet hline hspare hspawn hfd =>
      exact h.keep (h.born.run_step hs) (nextProc_le_of_step hs)
        (shell_fds h.born h.shell hok.alive hs (.inr hspare)) hfd
        (h.side_step hok hs (.inr hspawn))
    | openRead junk hline hs' =>
      refine h.opens hc hs (by simp [endOf, ShellState.fd, hline]) (fun ops => ?_)
        (h.side_step hok hs (.inr nofun))
      rw [hs']
      cases ops <;> simp [endOf, ShellState.fd, hline]
    | openWrite junk hline hs' =>
      refine h.opens hc hs (by simp [endOf, ShellState.fd, hline]) (fun ops => ?_)
        (h.side_step hok hs (.inr nofun))
      rw [hs']
      cases ops <;> simp [endOf, ShellState.fd, hline]
    | spawnLeft a hline ha hs' =>
      refine h.spawns hok hc rfl hs .pipeWrite hline
        (fun ops q hp => h.passes_left hline ha hp) ?_
      rw [hs'] at hline' ⊢
      dsimp only at hline' ⊢
      split at hline'
      · exact (hline' rfl).elim
      · funext ops
        rw [if_neg (by assumption)]
        cases ops <;> simp [ShellState.fd, hline]
    | spawnRight a hline ha hs' =>
      refine h.spawns hok hc rfl hs .pipeRead hline
        (fun ops q hp => h.passes_right hline ha hp) ?_
      rw [hs'] at hline' ⊢
      dsimp only at hline' ⊢
      split at hline'
      · exact (hline' rfl).elim
      · funext ops
        rw [if_neg (by assumption)]
        cases ops <;> simp [ShellState.fd, hline]
    | closeWrite hline hs' =>
      have hwrite : s.fd .pipeWrite = some s.writeFd := by simp [ShellState.fd, hline]
      refine h.closes hc hs hwrite (fun ops hops i hi hy => ?_) (fun ops => ?_)
        (h.side_step hok hs (.inr nofun))
      · rw [hy] at hwrite
        cases ops with
        | pipeRead => exact h.apart i hi hwrite
        | pipeWrite => exact hops rfl
        | _ => cases hi
      · rw [hs']
        cases ops <;> simp [ShellState.fd, hline]
    | closeRead hline hs' =>
      have hread : s.fd .pipeRead = some s.readFd := by simp [ShellState.fd, hline]
      refine h.closes hc hs hread (fun ops hops i hi _ => ?_) (fun ops => ?_)
        (h.side_step hok hs (.inr nofun))
      · cases ops with
        | pipeRead => exact hops rfl
        | pipeWrite => simp [ShellState.fd, hline] at hi
        | _ => cases hi
      · rw [hs']
        cases ops <;> simp [ShellState.fd, hline]

/-! ### The two sides -/

/-- A read of at least one byte ends as `ReadResult` says, whatever has happened before. -/
theorem readResult_of_step (hring : RingsOk k) {size : Nat} (hs : step k e = some (k', o))
    (hcall : readCall k e = some (pp, size)) (hsize : 1 ≤ size) : ReadResult k pp size k' o := by
  obtain ⟨c, r, hc, hr, rfl, rfl⟩ := step_readCall hcall hs
  have hpipes := pipes_of_objects (objects_entered k e)
  have hres := pipeRead_result (k := k.entered e) (fun i => by rw [hpipes]; exact hring i)
    ((current_entered k e).trans hc) hsize hr
  generalize r.2.map (Completion.pipeRead pp) = o at hres ⊢
  cases hres with
  | eof hempty hw => exact .eof (hpipes ▸ hempty) (hpipes ▸ hw)
  | data bytes hdata hpos hle => exact .data bytes (hpipes ▸ hdata) hpos hle
  | blocks d hempty hw hd kb hkb hblock =>
    exact .blocks d (hpipes ▸ hempty) (hpipes ▸ hw) ((current_entered k e).symm.trans hd) kb hkb
      hblock

/-- The counter of the write ends is zero exactly when nobody holds one. -/
theorem Refs.writers_eq_zero_iff (h : Refs k.store) (hu : (k.pipes pp).inUse = true) :
    (k.pipes pp).writers = 0 ↔ ∀ q, ¬ HoldsEnd .pipeWrite pp k q := by
  have hcount : (k.pipes pp).writers = (k.store.slotsOn .pipeWrite pp).card :=
    h.count .pipeWrite pp trivial (h.inUse pp hu).2
  rw [hcount, Finset.card_eq_zero, Finset.eq_empty_iff_forall_notMem]
  constructor
  · rintro hnone q ⟨i, hi⟩
    exact hnone (q, i) (h.mem_slotsOn.mpr hi)
  · intro hnone x hx
    exact hnone x.1 ⟨x.2, h.mem_slotsOn.mp hx⟩

variable {tr₀ : List (Kernel × Event × Option Completion)}

/-- What holds while the shell is in `execute_pipe_commands`. -/
theorem piped_run (h₀ : Run f ClosesUnreferenced tr₀ s.kernel) (hb : Begins sh pp s)
    (h : Trace (shellNext sh) (InPipeline sh pp) s tr t) :
    (∃ tr', Run f ClosesUnreferenced tr' t.kernel) ∧ (t.line ≠ .prompt → Piped sh pp tr t) := by
  refine h.invariant_history (fun tr t => (∃ tr', Run f ClosesUnreferenced tr' t.kernel) ∧
    (t.line ≠ .prompt → Piped sh pp tr t)) ⟨⟨tr₀, h₀⟩, fun _ => hb.piped ?_⟩ ?_
  · exact h₀.invariant (Born .run) (.boot f) fun _ _ _ _ hI _ hs => hI.run_step hs
  · rintro tr u e u' o - ⟨⟨tr', hrun⟩, hpiped⟩ hok hnext
    exact ⟨⟨_, .snoc hrun hok.closes (shellNext_cases hnext).1⟩,
      (hpiped hok.line).step hok hnext⟩

/-- The array `fds` of a call of `spawn_process`. -/
def fdArray (l : List Int) : Option (Fin fdMax → Int) := some fun i => l.getD i (-1)

/-- The shell, process `2`, starts a pipeline. -/
def shellEvents : List Event :=
  [.sysSpawn { entry := some 1, fds := none, background := false },
   .sysSpawn { entry := some 2, fds := none, background := false }, .timer, .sysYield,
   .sysSpawn { entry := some 3, fds := none, background := false }, .sysWait, .resume,
   .sysYield, .sysPipeCreate pipeCmd []]

/-- The left program writes a byte and exits, and the right one reads it. -/
def pipelineEvents : List Event :=
  [.sysPipeOpen pipeCmd [] 0, .sysPipeOpen pipeCmd [] 1,
   .sysSpawn { entry := some 4, fds := fdArray [0, 4, -1], background := false },
   .sysSpawn { entry := some 5, fds := fdArray [3, 1, -1], background := true },
   .sysCloseFd 4, .sysCloseFd 3, .sysWaitPid 3, .resume, .sysYield, .sysWrite 1 [7], .sysExit 0,
   .sysRead 0 5 0]

/-- The next read finds nothing. -/
def readsNothing (t : ShellState) : Bool :=
  t.line == .waitingLeft && (t.kernel.pipes 0).inUse &&
    ringbufAvailable (t.kernel.pipes 0).buffer == 0 &&
    decide (readCall t.kernel (.sysRead 0 5 0) = some (0, 5)) &&
    decide ((step t.kernel (.sysRead 0 5 0)).map Prod.snd = some (some (.pipeRead 0 [])))

/-- The shell is where a pipeline begins, and the pipe is new. -/
def beginsPipeline (k : Kernel) : Bool :=
  decide (2 < k.nextProc) &&
    decide (∀ i : Fin fdMax, i.val ≤ 1 → ((k.procs 2).fds i).type ≠ .none) &&
    (k.pipes 0).readers == 0 && (k.pipes 0).writers == 0 &&
    execCheck (shellNext 2) (InPipeline 2 0) (fun _ t => readsNothing t)
      { kernel := k, line := .openRead } pipelineEvents

end TpeSo
