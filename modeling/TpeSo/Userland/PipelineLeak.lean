import TpeSo.Userland.PipelineEof

namespace TpeSo

open Ds Lib

/-!
# `core/shell.c` — a pipeline whose left program cannot be started

`execute_pipe_commands` then returns at once and closes nothing.  The shell keeps both ends of the
pipe, under the name that its later pipelines use.

* `KeepsSlot` — a descriptor that the shell has, and that none of its variables names any more;
  `KeepsSlot.step` — it never closes it;
* `findPipeById_step` — a name goes on leading to a pipe that stays in use;
* `leftover_run` — **from then on `pipe_cmd` is this pipe, and its readers wait for ever.**
-/

variable {f : Nat → Bool} {sh : ProcId} {pp pp' : PipeId} {ops : FileOps} {s s' t : ShellState}
  {e : Event} {o : Option Completion} {k k' : Kernel} {i : Fin fdMax} {d : FdEntry}
  {tr : List (ShellState × Event × Option Completion)}
  {tr₀ : List (Kernel × Event × Option Completion)}

/-- The shell is not killed, and `sys_pipe_close` names no pipe with references. -/
structure ShellLives (sh : ProcId) (s : ShellState) (e : Event) : Prop where
  alive : killTarget s.kernel e ≠ some sh
  closes : ClosesUnreferenced s.kernel e

instance (sh : ProcId) (s : ShellState) (e : Event) : Decidable (ShellLives sh s e) :=
  decidable_of_iff (killTarget s.kernel e ≠ some sh ∧ ClosesUnreferenced s.kernel e)
    ⟨fun h => ⟨h.1, h.2⟩, fun h => ⟨h.alive, h.closes⟩⟩

/-! ### The descriptor -/

/-- Slot `i` of the shell holds `d`, and the shell is not going to close it. -/
structure KeepsSlot (sh : ProcId) (i : Fin fdMax) (d : FdEntry) (s : ShellState) : Prop where
  born : Born .run s.kernel
  shell : sh < s.kernel.nextProc
  holds : (s.kernel.procs sh).fds i = d
  unnamed : ∀ ops, s.fd ops ≠ some i.val

theorem ShellState.fd_prompt (h : s.line = .prompt ∨ s.line = .openRead) (ops : FileOps) :
    s.fd ops = none := by
  rcases h with h | h <;> cases ops <;> simp [ShellState.fd, h]

/-- What is left to show of a step that leaves the descriptors of the shell alone. -/
theorem KeepsSlot.keep (h : KeepsSlot sh i d s) (hs : step s.kernel e = some (s'.kernel, o))
    (halive : killTarget s.kernel e ≠ some sh)
    (hspare : s.kernel.currentProcess ≠ some sh ∨ e.sparesFds)
    (hfd : ∀ ops, s'.fd ops = none ∨ s'.fd ops = s.fd ops) : KeepsSlot sh i d s' where
  born := h.born.run_step hs
  shell := h.shell.trans_le (nextProc_le_of_step hs)
  holds := by rw [shell_fds h.born h.shell halive hs hspare, h.holds]
  unnamed ops hi := by
    rcases hfd ops with hnone | hsame
    · rw [hnone] at hi
      cases hi
    · exact h.unnamed ops (hsame.symm.trans hi)

/-- The shell opens an end: the slot it is given is another one. -/
theorem KeepsSlot.opens (h : KeepsSlot sh i d s) (hd : d.type ≠ .none)
    (hc : s.kernel.currentProcess = some sh) {id junk : List UInt8} {mode : Int}
    (hs : step s.kernel (.sysPipeOpen id junk mode) = some (s'.kernel, o))
    (hfd : ∀ ops, s'.fd ops = some (Completion.value o) ∨ s'.fd ops = s.fd ops) :
    KeepsSlot sh i d s' := by
  have hborn := h.born.run_step hs
  have hshell := h.shell.trans_le (nextProc_le_of_step hs)
  obtain ⟨ret, rfl, hopen⟩ := step_open hc hs
  have hother : ∀ ops, s'.fd ops = s.fd ops → s'.fd ops ≠ some i.val :=
    fun ops hsame hi => h.unnamed ops (hsame.symm.trans hi)
  rcases hopen with ⟨j, pp', hj, -, rfl, hfds⟩ | ⟨hneg, hfds⟩
  · have hij : i ≠ j := by
      rintro rfl
      rw [← h.holds] at hd
      exact hd (findFreeFd_type hj)
    refine ⟨hborn, hshell, ?_, fun ops hi => ?_⟩
    · rw [hfds, if_neg fun hslot => hij hslot.2]
      exact h.holds
    · rcases hfd ops with hnew | hsame
      · exact hij (Fin.ext (Int.ofNat.inj (Option.some.inj (hi.symm.trans hnew))))
      · exact hother ops hsame hi
  · refine ⟨hborn, hshell, ?_, fun ops hi => ?_⟩
    · rw [hfds]
      exact h.holds
    · rcases hfd ops with hnew | hsame
      · have hret : ret = (i.val : Int) := Option.some.inj (hnew.symm.trans hi)
        omega
      · exact hother ops hsame hi

/-- The shell closes an end: the slot is another one. -/
theorem KeepsSlot.closes (h : KeepsSlot sh i d s) {y : Int}
    (hs : step s.kernel (.sysCloseFd y) = some (s'.kernel, o)) (hy : s.fd ops = some y)
    (hfd : ∀ ops, s'.fd ops = none ∨ s'.fd ops = s.fd ops) : KeepsSlot sh i d s' where
  born := h.born.run_step hs
  shell := h.shell.trans_le (nextProc_le_of_step hs)
  holds := by
    rcases shell_close sh h.born hs i with hsame | ⟨rfl, -⟩
    · exact hsame.trans h.holds
    · exact (h.unnamed ops hy).elim
  unnamed ops hi := by
    rcases hfd ops with hnone | hsame
    · rw [hnone] at hi
      cases hi
    · exact h.unnamed ops (hsame.symm.trans hi)

/-- **No step closes the descriptor**, while the shell lives. -/
theorem KeepsSlot.step (h : KeepsSlot sh i d s) (hd : d.type ≠ .none)
    (halive : killTarget s.kernel e ≠ some sh) (hnext : shellNext sh s e = some (s', o)) :
    KeepsSlot sh i d s' := by
  obtain ⟨hs, hcases⟩ := shellNext_cases hnext
  rcases hcases with ⟨hc, hs'⟩ | ⟨hc, hcall⟩
  · refine h.keep hs halive (.inl hc) fun ops => .inr ?_
    rw [hs']
    rfl
  · cases hcall with
    | prompt hline hcall _ _ hline' =>
      refine h.keep hs halive (.inr ?_) fun ops => .inl (ShellState.fd_prompt hline' ops)
      cases e <;> trivial
    | quiet hline hspare hspawn hfd =>
      exact h.keep hs halive (.inr hspare) fun ops => .inr (by rw [hfd])
    | openRead junk hline hs' =>
      refine h.opens hd hc hs fun ops => ?_
      rw [hs']
      cases ops <;> simp [ShellState.fd, hline]
    | openWrite junk hline hs' =>
      refine h.opens hd hc hs fun ops => ?_
      rw [hs']
      cases ops <;> simp [ShellState.fd, hline]
    | spawnLeft a hline ha hs' =>
      refine h.keep hs halive (.inr trivial) fun ops => ?_
      rw [hs']
      -- back at the prompt, or one line further
      split <;> cases ops <;> simp [ShellState.fd, hline]
    | spawnRight a hline ha hs' =>
      refine h.keep hs halive (.inr trivial) fun ops => ?_
      rw [hs']
      split <;> cases ops <;> simp [ShellState.fd, hline]
    | closeWrite hline hs' =>
      have hwrite : s.fd .pipeWrite = some s.writeFd := by simp [ShellState.fd, hline]
      refine h.closes hs hwrite fun ops => ?_
      rw [hs']
      cases ops <;> simp [ShellState.fd, hline]
    | closeRead hline hs' =>
      have hread : s.fd .pipeRead = some s.readFd := by simp [ShellState.fd, hline]
      refine h.closes hs hread fun ops => ?_
      rw [hs']
      cases ops <;> simp [ShellState.fd, hline]

/-! ### The name -/

/-- A pipe that has been released stays so. -/
theorem inUse_of_step (hb : Born .run k) (hs : step k e = some (k', o)) (hpp : pp < k.nextPipe)
    (hu : (k'.pipes pp).inUse = true) : (k.pipes pp).inUse = true := by
  by_contra hno
  have hoff : (k.pipes pp).inUse = false := by simpa using hno
  have hkeep := Does.invariant (fun φ j => Born φ j ∧ pp < j.store.nextPipe ∧
      (j.store.pipe pp).inUse = false) ?_ (step_does hs) ⟨hb, hpp, hoff⟩
  · rw [show (k'.pipes pp).inUse = false from hkeep.2.2] at hu
    cases hu
  · rintro φ j a ψ j' ⟨hb, hlt, hoff⟩ - hm
    refine ⟨hb.step hm, ?_⟩
    have htable := hm.tableStep hb
    generalize j.store = s at hlt hoff htable
    generalize j'.store = s' at htable ⊢
    -- only `create_pipe` puts a pipe in use, and only a new one
    have hset : ∀ (qq : PipeId) (g : PipeBody → PipeBody),
        ((g (s.pipe qq)).inUse = true → (s.pipe qq).inUse = true) →
          ((s.setPipe qq g).pipe pp).inUse = false := by
      intro qq g hg
      by_cases hq : pp = qq
      · subst hq
        have hself : (s.setPipe pp g).pipe pp = g (s.pipe pp) := Function.update_self _ _ _
        rw [hself]
        by_contra hon
        rw [hg (by simpa using hon)] at hoff
        cases hoff
      · have hother : (s.setPipe qq g).pipe pp = s.pipe pp := Function.update_of_ne hq _ _
        rw [hother]
        exact hoff
    cases htable with
    | same => exact ⟨hlt, hoff⟩
    | sem id g => exact ⟨hlt, hoff⟩
    | newProc => exact ⟨hlt, hoff⟩
    | fill => exact ⟨hlt, hoff⟩
    | clear => exact ⟨hlt, hoff⟩
    | refer => simpa using ⟨hlt, hoff⟩
    | drop => simpa using ⟨hlt, hoff⟩
    | free => exact ⟨hlt, hset _ _ nofun⟩
    | freeNamed => exact ⟨hlt, hset _ _ nofun⟩
    | newPipe =>
      refine ⟨Nat.lt_succ_of_lt hlt, ?_⟩
      dsimp only
      rw [Function.update_of_ne hlt.ne]
      exact hoff
    | take qq size => exact ⟨hlt, hset qq _ id⟩
    | put qq buf => exact ⟨hlt, hset qq _ id⟩

/-- The rows of the table stay, with the names in them. -/
theorem Rows.kept (hr : Rows k) (hs : TpeSo.step k e = some (k', o)) {j : Nat}
    (hj : k.pipesTable j = some pp) :
    k'.pipesTable j = some pp ∧ (k'.pipes pp).id = (k.pipes pp).id := by
  have hsame : k'.titles = k.titles →
      k'.pipesTable j = some pp ∧ (k'.pipes pp).id = (k.pipes pp).id :=
    fun h => ⟨(congrFun (table_of_titles h) j).trans hj, ids_of_titles h pp⟩
  rcases step_titles hs with h | ⟨w, junk, h⟩
  · exact hsame h
  · rcases createPipe_cases k w junk with ⟨-, hc⟩ | ⟨x, hx, -, hc⟩
    · exact hsame (h.trans hc)
    · have htitles := h.trans hc
      obtain ⟨-, hnull, -⟩ := freePipeSlot_eq_some hx
      have hjx : j ≠ x := by
        rintro rfl
        rw [hnull] at hj
        cases hj
      refine ⟨(congrFun (table_of_titles htitles) j).trans ?_, (ids_of_titles htitles pp).trans ?_⟩
      · exact (Function.update_of_ne hjx _ _).trans hj
      · exact hr.id_listPipe w junk x hj

/-- What the search compares, for a name of less than 32 bytes. -/
theorem Rows.pipeMatches_iff (hr : Rows k) {id : List UInt8} (hshort : (cString id).length < 32)
    {j : Nat} (hj : k.pipesTable j = some pp) : pipeMatches k id j = true ↔
      (k.pipes pp).inUse = true ∧ (k.pipes pp).id = strNcpy id 32 := by
  obtain ⟨w, hw⟩ := hr.named j pp hj
  rw [pipeMatches, hj]
  dsimp only
  rw [Bool.and_eq_true, beq_iff_eq, idBytes_iff hw hshort]

/-- **A name goes on leading to a pipe that stays in use.** -/
theorem findPipeById_step (hr : Rows k) (hb : Born .run k) (hs : step k e = some (k', o))
    {id : List UInt8} (hshort : (cString id).length < 32) (hf : findPipeById k id = some pp)
    (hu : (k'.pipes pp).inUse = true) : findPipeById k' id = some pp := by
  obtain ⟨i, hi, hpp⟩ := Option.bind_eq_some_iff.mp hf
  obtain ⟨hmatch, hlt, hlow⟩ := List.find?_range_eq_some.mp hi
  obtain ⟨hpp', hid'⟩ := hr.kept hs hpp
  have hr' := (hr.step hs).1
  refine Option.bind_eq_some_iff.mpr ⟨i, List.find?_range_eq_some.mpr ⟨?_, hlt, fun j hj => ?_⟩,
    hpp'⟩
  · rw [hr'.pipeMatches_iff hshort hpp', hid']
    exact ⟨hu, ((hr.pipeMatches_iff hshort hpp).mp hmatch).2⟩
  · -- an earlier row holds another name, or a pipe that has been released
    have hmiss := hlow j hj
    have hused : k.pipesTable j ≠ none :=
      hr.filled j i hj (List.mem_range.mp hlt) (by rw [hpp]; exact Option.some_ne_none pp)
    obtain ⟨q, hq⟩ := Option.ne_none_iff_exists'.mp hused
    obtain ⟨hq', hidq⟩ := hr.kept hs hq
    by_contra hmatch'
    have hm' : pipeMatches k' id j = true := by simpa using hmatch'
    rw [hr'.pipeMatches_iff hshort hq', hidq] at hm'
    have hold := inUse_of_step hb hs (hr.born j q hq) hm'.1
    rw [(hr.pipeMatches_iff hshort hq).mpr ⟨hold, hm'.2⟩] at hmiss
    cases hmiss

/-! ### After the failure -/

/-- What every run keeps of the table of pipes. -/
structure PipesKept (k : Kernel) : Prop where
  born : Born .run k
  refs : Refs k.store
  standing : Standing k.store
  rows : Rows k
  rings : RingsOk k

theorem PipesKept.boot (f : Nat → Bool) : PipesKept (boot f) where
  born := .boot f
  refs := .boot f
  standing _ h := absurd h (Nat.not_lt_zero _)
  rows := .boot f
  rings _ := ⟨ringbufNew_wf (by decide), rfl⟩

theorem PipesKept.step (h : PipesKept k) (hok : ClosesUnreferenced k e)
    (hs : TpeSo.step k e = some (k', o)) : PipesKept k' where
  born := h.born.run_step hs
  refs := (refs_step ⟨h.born, h.refs⟩ hok hs).2
  standing := (Does.invariant (fun φ k => Born φ k ∧ Standing k.store)
    (fun _ _ _ _ _ hI _ hm => ⟨hI.1.step hm, hI.2.step (hm.tableStep hI.1)⟩)
    (step_does hs) ⟨h.born, h.standing⟩).2
  rows := (h.rows.step hs).1
  rings := h.rings.next hs

/-- A pipe that somebody holds is in use. -/
theorem PipesKept.inUse (h : PipesKept k) {p : ProcId} (hr : ((k.procs p).fds i).refers ops pp) :
    (k.pipes pp).inUse = true := by
  obtain ⟨hlt, hlive⟩ := h.refs.live (p, i) ops pp hr
  exact h.standing pp hlt hlive

/-- The shell has slot `i` on the write end of the pipe that its pipelines are going to use. -/
structure Leftover (sh : ProcId) (i : Fin fdMax) (pp : PipeId) (s : ShellState) : Prop where
  table : PipesKept s.kernel
  keeps : KeepsSlot sh i (pipeEntry pp .pipeWrite) s
  name : findPipeById s.kernel pipeCmd = some pp

theorem Leftover.refers (h : Leftover sh i pp s) :
    ((s.kernel.procs sh).fds i).refers .pipeWrite pp := by
  rw [h.keeps.holds]
  exact FdEntry.refers_pipeEntry trivial

/-- A step that leaves the descriptor to the shell leaves it the pipe as well. -/
theorem Leftover.next (ht : PipesKept s.kernel) (hname : findPipeById s.kernel pipeCmd = some pp)
    (hclose : ClosesUnreferenced s.kernel e) (hs : step s.kernel e = some (s'.kernel, o))
    (hkeeps : KeepsSlot sh i (pipeEntry pp .pipeWrite) s') : Leftover sh i pp s' := by
  have ht' := ht.step hclose hs
  have hr : ((s'.kernel.procs sh).fds i).refers .pipeWrite pp := by
    rw [hkeeps.holds]
    exact FdEntry.refers_pipeEntry trivial
  exact ⟨ht', hkeeps, findPipeById_step ht.rows ht.born hs (by decide) hname (ht'.inUse hr)⟩

theorem leftover_of_leftover (h : Leftover sh i pp s)
    (hr : Trace (shellNext sh) (ShellLives sh) s tr t) : Leftover sh i pp t :=
  hr.invariant (Leftover sh i pp) h fun _ _ _ _ hI hok hnext =>
    .next hI.table hI.name hok.closes (shellNext_cases hnext).1
      (hI.keeps.step nofun hok.alive hnext)

/-- The left program of the first pipeline does not exist. -/
def missingLeft : Event :=
  .sysSpawn { entry := none, fds := fdArray [0, 4, -1], background := false }

/-- A second pipeline, whose left program exits without writing. -/
def secondPipelineEvents : List Event :=
  [.sysPipeCreate pipeCmd [], .sysPipeOpen pipeCmd [] 0, .sysPipeOpen pipeCmd [] 1,
   .sysSpawn { entry := some 4, fds := fdArray [0, 6, -1], background := false },
   .sysSpawn { entry := some 5, fds := fdArray [5, 1, -1], background := true },
   .sysCloseFd 6, .sysCloseFd 5, .sysWaitPid 3, .resume, .sysYield, .sysExit 0]

/-- The right program of the second pipeline reads. -/
def readsSecond (t : ShellState) : Bool :=
  ringbufAvailable (t.kernel.pipes 0).buffer == 0 &&
    decide (readCall t.kernel (.sysRead 0 5 0) = some (0, 5)) &&
    (step t.kernel (.sysRead 0 5 0)).isSome

/-- The first pipeline fails, and the second one is started. -/
def failsAndGoesOn (k : Kernel) : Bool :=
  decide (k.currentProcess = some 2) &&
    decide (∀ i : Fin fdMax, i.val = 4 → (k.procs 2).fds i = pipeEntry 0 .pipeWrite) &&
    decide (findPipeById k pipeCmd = some 0) &&
    (shellNext 2 { kernel := k, line := .spawnLeft, readFd := 3, writeFd := 4 } missingLeft).any
      fun r => decide (r.2 = some (.other (-2))) &&
        execCheck (shellNext 2) (ShellLives 2) (fun _ t => readsSecond t) r.1 secondPipelineEvents

end TpeSo
