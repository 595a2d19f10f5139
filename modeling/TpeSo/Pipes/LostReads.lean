import TpeSo.Pipes.Calls
import TpeSo.Pipes.Full
import TpeSo.Sched.LeftAlone
import TpeSo.Sems.Returns

namespace TpeSo

open Ds Lib

/-!
# Pipes — readers that nobody wakes

A write wakes one reader, and a reader that leaves bytes behind wakes nobody.

* `Woken k pp p` — `p` has been woken inside `pipe_read` of `pp` and has not run since;
* `NoLostRead k` — when all woken readers have run, nobody waits for a byte that is there;
* `TakesAll k e` — a read that nobody comes after leaves no byte to those who wait;
* `noLostRead_run` — **no wake-up is lost** where every read is such;
* `takesAll_of_noLostRead` — and one is lost in the first step whose read is not;
* `lostRead_partial` — a run that comes to such a step.
-/

variable {k k' : Kernel} {e : Event} {o : Option Completion} {p q c : ProcId} {pp pp' : PipeId}
  {size : Nat} {buf : List UInt8}

/-! ### Readers -/

/-- `p` is inside a `pipe_read` of `pp`, off the processor. -/
def InRead (k : Kernel) (pp : PipeId) (p : ProcId) : Prop :=
  (k.kstack p).bind Pending.pipeEnd = some (.pipeRead, pp)

/-- `p` has been woken inside a `pipe_read` of `pp`: it has neither come to the end of it nor
    blocked again. -/
def Woken (k : Kernel) (pp : PipeId) (p : ProcId) : Prop :=
  InRead k pp p ∧ ¬ ((k.procs p).status = .blocked ∧ (k.procs p).waitingOn = .pipeReaders pp)

instance (k : Kernel) (pp : PipeId) : DecidablePred (Woken k pp) := fun p =>
  inferInstanceAs (Decidable ((k.kstack p).bind Pending.pipeEnd = _ ∧ _))

/-- When all woken readers have run, nobody waits for a byte that is there. -/
def NoLostRead (k : Kernel) : Prop := ∀ pp, (∀ p, ¬ Woken k pp p) →
  1 ≤ ringbufAvailable (k.pipes pp).buffer → (k.pipes pp).readersWaitQueue = []

/-- The entries through which processes come to be, take turns, and use pipes. -/
def Traffic : Event → Prop
  | .timer | .user _ | .resume | .sysRead _ _ _ | .sysWrite _ _ | .sysPipeCreate _ _
  | .sysPipeOpen _ _ _ | .sysSpawn _ | .sysYield => True
  | _ => False

instance : DecidablePred Traffic := fun e => by
  rcases e with ⟨⟩ <;> dsimp only [Traffic] <;> infer_instance

/-- A read that finds other readers waiting, and none that has been woken and is still to run,
    asks for every byte there is. -/
def TakesAll (k : Kernel) (e : Event) : Prop :=
  ∀ pp size, readCall k e = some (pp, size) → (k.pipes pp).readersWaitQueue ≠ [] →
    (∀ p, Woken k pp p → k.currentProcess = some p) → ringbufAvailable (k.pipes pp).buffer ≤ size

theorem inRead_iff : InRead k pp p ↔ ∃ size, k.kstack p = some (.pipeRead pp size) := by
  unfold InRead
  cases hw : k.kstack p with
  | none => simp
  | some w => cases w <;> simp [Pending.pipeEnd, eq_comm]

theorem Traffic.spares (he : Traffic e) : SparesWaiters k e := by
  cases e <;> first | exact he.elim | exact ⟨rfl, rfl, nofun⟩

theorem InRead.leftAlone (h : LeftAlone p k k') (hp : InRead k pp p) : InRead k' pp p := by
  unfold InRead
  rw [h.kstack]
  exact hp

theorem Woken.leftAlone (h : LeftAlone p k k') (hp : Woken k pp p) : Woken k' pp p := by
  refine ⟨hp.1.leftAlone h, fun hd => hp.2 ?_⟩
  obtain ⟨hb, -, hw⟩ := h.blocked hd.1
  exact ⟨hb, hw.symm.trans hd.2⟩

/-- Others stay as they are in a step of `Traffic`. -/
theorem Traffic.leftAlone (he : Traffic e) (hs : step k e = some (k', o))
    (hq : k.currentProcess ≠ some q) : LeftAlone q k k' := by
  refine step_leftAlone hs hq ?_
  cases e <;> first | exact he.elim | exact nofun

/-- Who is current inside a read goes on with it. -/
theorem readCall_of_inRead (hs : step k e = some (k', o)) (hc : k.currentProcess = some c)
    (hp : InRead k pp c) : ∃ size, readCall k e = some (pp, size) := by
  obtain ⟨size, hw⟩ := inRead_iff.mp hp
  rcases step_eq_some hs with ⟨-, hk, -⟩ | ⟨rfl, -⟩
  · simp [Kernel.inKernel, hc, hw] at hk
  · refine ⟨size, ?_⟩
    simp only [readCall, (unfinished_eq hc).trans hw]

/-! ### What the calls do to a pipe -/

/-- What `pipe_read` does to its pipe: it leaves an empty ring as it is, or takes what it gets;
    only a reader that finds nothing joins the waiting ones. -/
theorem pipeRead_pipe {r : Kernel × Option (List UInt8)} (hc : k.currentProcess = some c)
    (hr : pipeRead k c pp size = .ok r) :
    (ringbufAvailable (k.pipes pp).buffer = 0 ∧ (r.1.pipes pp).buffer = (k.pipes pp).buffer ∧
      ∀ p ∈ (r.1.pipes pp).readersWaitQueue,
        p ∈ (k.pipes pp).readersWaitQueue ∨ InRead r.1 pp p) ∨
    ((r.1.pipes pp).buffer = (ringbufRead (k.pipes pp).buffer size).1 ∧
      (r.1.pipes pp).readersWaitQueue = (k.pipes pp).readersWaitQueue) := by
  rw [pipeRead_eq (lock_of_pipeRead hr)] at hr
  split at hr
  · rename_i hempty
    left
    refine ⟨hempty, ?_⟩
    split at hr
    · cases hr
      exact ⟨rfl, fun _ => .inl⟩
    · obtain ⟨k₁, hb, he⟩ := Outcome.bind_eq_ok.mp hr
      cases he
      have hpipe : k₁.pipes pp = { k.pipes pp with
          readersWaitQueue := enqueue k.kmalloc (k.pipes pp).readersWaitQueue c } := by
        rw [pipes_of_objects (objects_blockCurrent hb)]
        simp [linkWaiter, Kernel.setPipe, Kernel.alloc]
      have hstack : InRead k₁ pp c := by
        have hcur : (linkWaiter k (.pipeReaders pp) c).currentProcess = some c := hc
        refine inRead_iff.mpr ⟨size, ?_⟩
        rw [LeftAlone.kstack_blockCurrent hb]
        simp [Kernel.suspend, hcur]
      rw [hpipe]
      refine ⟨rfl, fun p hp => (mem_of_mem_enqueue hp).imp_right ?_⟩
      rintro rfl
      exact hstack
  · cases hr
    right
    dsimp only
    rw [pipes_of_objects (objects_procReady _ _)]
    simp [Kernel.setPipe]

/-- What `pipe_write` does to its pipe: it leaves it as it is, or wakes the first reader. -/
theorem pipeWrite_pipe {r : Kernel × Option Int} (hr : pipeWrite k c pp buf = .ok r) :
    ((r.1.pipes pp).buffer = (k.pipes pp).buffer ∧
      (r.1.pipes pp).readersWaitQueue = (k.pipes pp).readersWaitQueue) ∨
    ((r.1.pipes pp).readersWaitQueue = (k.pipes pp).readersWaitQueue.tail ∧
      ∀ p ∈ (k.pipes pp).readersWaitQueue.head?, (r.1.procs p).status = .ready) := by
  rw [pipeWrite_eq (lock_of_pipeWrite hr)] at hr
  split at hr
  · left
    split at hr
    · cases hr
      exact ⟨rfl, rfl⟩
    · obtain ⟨k₁, hb, he⟩ := Outcome.bind_eq_ok.mp hr
      cases he
      dsimp only
      rw [pipes_of_objects (objects_blockCurrent hb)]
      simp [linkWaiter, Kernel.setPipe, Kernel.alloc]
  · cases hr
    right
    refine ⟨?_, fun p hp => ?_⟩
    · dsimp only
      rw [pipes_of_objects (objects_procReady _ _)]
      simp [Kernel.setPipe]
    · dsimp only
      rw [Option.mem_def.mp hp, procReady_status, if_pos rfl]

theorem pipeRead_pipe_ne (hpp : pp' ≠ pp) {r : Kernel × Option (List UInt8)}
    (hr : pipeRead k c pp size = .ok r) : r.1.pipes pp' = k.pipes pp' := by
  rw [pipeRead_eq (lock_of_pipeRead hr)] at hr
  split at hr
  · split at hr
    · cases hr
      rfl
    · obtain ⟨k₁, hb, he⟩ := Outcome.bind_eq_ok.mp hr
      cases he
      dsimp only
      rw [pipes_of_objects (objects_blockCurrent hb)]
      simp [linkWaiter, Kernel.setPipe, Kernel.alloc, hpp]
  · cases hr
    dsimp only
    rw [pipes_of_objects (objects_procReady _ _)]
    simp [Kernel.setPipe, hpp]

theorem pipeWrite_pipe_ne (hpp : pp' ≠ pp) {r : Kernel × Option Int}
    (hr : pipeWrite k c pp buf = .ok r) : r.1.pipes pp' = k.pipes pp' := by
  rw [pipeWrite_eq (lock_of_pipeWrite hr)] at hr
  split at hr
  · split at hr
    · cases hr
      rfl
    · obtain ⟨k₁, hb, he⟩ := Outcome.bind_eq_ok.mp hr
      cases he
      dsimp only
      rw [pipes_of_objects (objects_blockCurrent hb)]
      simp [linkWaiter, Kernel.setPipe, Kernel.alloc, hpp]
  · cases hr
    dsimp only
    rw [pipes_of_objects (objects_procReady _ _)]
    simp [Kernel.setPipe, hpp]

/-- What the readers of a pipe see: its bytes, and who waits for some. -/
def Pipe.readSide (q : Pipe) : Ringbuf × List ProcId := (q.buffer, q.readersWaitQueue)

/-- A pipe is new, or its readers see no difference. -/
def ReadSame (pp : PipeId) (k k' : Kernel) : Prop :=
  (k'.pipes pp).readSide = (k.pipes pp).readSide ∨ (k'.pipes pp).readersWaitQueue = []

theorem readSame_createPipe (k : Kernel) (id junk : List UInt8) (pp : PipeId) :
    ReadSame pp k (createPipe k id junk).1 := by
  have halloc := pipes_of_objects (objects_allocAll 5 k)
  unfold createPipe
  split
  · exact .inl rfl
  · dsimp only
    split
    · by_cases hpp : pp = (allocAll k 5).1.nextPipe
      · right
        simp [hpp]
      · left
        simp [hpp, halloc]
    · left
      rw [halloc]

theorem readSide_addRef (k : Kernel) (ops : FileOps) (pp i : PipeId) :
    ((addRef k ops pp).pipes i).readSide = (k.pipes i).readSide := by
  cases ops with
  | pipeRead =>
    exact k.setPipe_spares Pipe.readSide (f := fun q => { q with readers := q.readers + 1 }) rfl i
  | pipeWrite =>
    exact k.setPipe_spares Pipe.readSide (f := fun q => { q with writers := q.writers + 1 }) rfl i
  | _ => rfl

theorem readSame_openPipe (k : Kernel) (p : ProcId) (i : Fin fdMax) (id junk : List UInt8)
    (mode : Int) (pp : PipeId) : ReadSame pp k (openPipe k p i id junk mode).1 := by
  have hadd : ∀ (k₁ : Kernel) (pp' : PipeId), ReadSame pp k k₁ → ReadSame pp k
      (if mode = 0 then (pipeAddRefRead (setFd k₁ p i (pipeEntry pp' .pipeRead)) pp', (0 : Int))
        else (pipeAddRefWrite (setFd k₁ p i (pipeEntry pp' .pipeWrite)) pp', 0)).1 := by
    intro k₁ pp' h
    have hside : ∀ ops, ((addRef (setFd k₁ p i (pipeEntry pp' ops)) ops pp').pipes pp).readSide =
        (k₁.pipes pp).readSide := fun ops => readSide_addRef _ ops pp' pp
    refine h.imp (fun h => ?_) fun h => ?_
    · split
      · exact (hside .pipeRead).trans h
      · exact (hside .pipeWrite).trans h
    · split
      · exact (congrArg Prod.snd (hside .pipeRead)).trans h
      · exact (congrArg Prod.snd (hside .pipeWrite)).trans h
  unfold openPipe
  split
  · exact .inl rfl
  · cases findPipeById k id with
    | some pp' => exact hadd k pp' (.inl rfl)
    | none =>
      have hcreate := readSame_createPipe k id junk pp
      dsimp only
      split
      · exact hcreate
      · exact hadd _ _ hcreate

theorem readSide_inheritLoop (p s : ProcId) (fds : Fin fdMax → Int) (pp : PipeId)
    (is : List (Fin fdMax)) : ∀ k : Kernel,
    ((inheritLoop k p s fds is).pipes pp).readSide = (k.pipes pp).readSide := by
  induction is with
  | nil => exact fun _ => rfl
  | cons i is ih =>
    intro k
    unfold inheritLoop
    split
    · refine (ih _).trans ?_
      show ((fdAddRef k _).pipes pp).readSide = _
      unfold fdAddRef
      split
      · exact k.setPipe_spares Pipe.readSide rfl pp
      · exact k.setPipe_spares Pipe.readSide rfl pp
      · rfl
    · rfl

/-- Every other entry of `Traffic` keeps what the readers of a pipe see. -/
theorem Traffic.readSame (he : Traffic e) (hs : step k e = some (k', o))
    (hread : ∀ size, readCall k e ≠ some (pp, size))
    (hwrite : ∀ buf, writeCall k e ≠ some (pp, buf)) : ReadSame pp k k' := by
  have hentered := pipes_of_objects (objects_entered k e)
  have hof : ∀ {k₁ : Kernel}, k'.pipeSide = k₁.pipeSide → ReadSame pp k k₁ → ReadSame pp k k' := by
    intro k₁ h h₁
    have hpipes : k'.pipes = k₁.pipes := congrArg Prod.fst h
    unfold ReadSame
    rwa [hpipes]
  cases step_pipe hs with
  | same h => exact hof h (.inl rfl)
  | pipeRead pp' size hcall c hc r hr h =>
    have hpp : pp ≠ pp' := by
      rintro rfl
      exact hread size hcall
    refine hof h (.inl ?_)
    rw [pipeRead_pipe_ne hpp hr, hentered]
  | pipeWrite pp' buf hcall c hc r hr h =>
    have hpp : pp ≠ pp' := by
      rintro rfl
      exact hwrite buf hcall
    refine hof h (.inl ?_)
    rw [pipeWrite_pipe_ne hpp hr, hentered]
  | createPipe id junk he h => exact hof h (readSame_createPipe k id junk pp)
  | openPipe id junk mode he c hc i hi h => exact hof h (readSame_openPipe k c i id junk mode pp)
  | closeName id he' =>
    subst he'
    exact he.elim
  | closeFd i he' =>
    subst he'
    exact he.elim
  | kill p hp =>
    rw [(he.spares (k := k)).noKill] at hp
    cases hp
  | inherit a he k₁ hk₁ p s fds h =>
    have hk₁ : k₁.pipes = k.pipes := congrArg Prod.fst hk₁
    refine hof h (.inl ?_)
    rw [readSide_inheritLoop p s fds pp _ k₁, hk₁]

/-! ### One step -/

/-- Who waits to read is inside a read. -/
def Parked (k : Kernel) : Prop := ∀ pp, ∀ p ∈ (k.pipes pp).readersWaitQueue, InRead k pp p

/-- Waiting readers are blocked, so none of them is current. -/
theorem Guarded.current_ne (h : Guarded k) (hp : p ∈ (k.pipes pp).readersWaitQueue) :
    k.currentProcess ≠ some p := by
  intro hc
  have hb := (h.waits.waiting (.pipeReaders pp) (by simp) p hp).1
  exact absurd (hb.symm.trans (h.waits.current p hc)) (by decide)

theorem Parked.step (hg : Guarded k) (h : Parked k) (he : Traffic e)
    (hs : step k e = some (k', o)) : Parked k' := by
  intro pp p hp
  have hold : p ∈ (k.pipes pp).readersWaitQueue → InRead k' pp p := fun hp =>
    (h pp p hp).leftAlone (he.leftAlone hs (hg.current_ne hp))
  have hpipes := pipes_of_objects (objects_entered k e)
  by_cases hread : ∃ size, readCall k e = some (pp, size)
  · obtain ⟨size, hcall⟩ := hread
    obtain ⟨c, r, hc, hr, rfl, -⟩ := step_readCall hcall hs
    rcases pipeRead_pipe ((current_entered k e).trans hc) hr with ⟨-, -, hq⟩ | ⟨-, hq⟩
    · rcases hq p hp with hp | hp
      · rw [hpipes] at hp
        exact hold hp
      · exact hp
    · rw [hq, hpipes] at hp
      exact hold hp
  by_cases hwrite : ∃ buf, writeCall k e = some (pp, buf)
  · obtain ⟨buf, hcall⟩ := hwrite
    obtain ⟨c, r, hc, hr, rfl, -⟩ := step_writeCall hcall hs
    rcases pipeWrite_pipe hr with ⟨-, hq⟩ | ⟨hq, -⟩
    · rw [hq, hpipes] at hp
      exact hold hp
    · rw [hq, hpipes] at hp
      exact hold (List.mem_of_mem_tail hp)
  · rcases he.readSame hs (not_exists.mp hread) (not_exists.mp hwrite) with hside | hnil
    · rw [show (k'.pipes pp).readersWaitQueue = (k.pipes pp).readersWaitQueue from
        congrArg Prod.snd hside] at hp
      exact hold hp
    · rw [hnil] at hp
      cases hp

theorem available_ringbufRead {r : Ringbuf} (n : Nat) (h : r.Wf) :
    ringbufAvailable (ringbufRead r n).1 = ringbufAvailable r - n := by
  obtain ⟨-, -, -, -, hrest⟩ := ringbufRead_front n h.live fun hov => h.not_rewound hov.1
  rw [← contents_length, hrest, List.length_drop, contents_length]

/-- A read of `pp` that leaves bytes behind finds nobody waiting, or somebody woken. -/
theorem NoLostRead.read (hring : RingsOk k) (hok : TakesAll k e)
    (hcall : readCall k e = some (pp, size)) (hs : step k e = some (k', o))
    (hwoken : ∀ p, Woken k pp p → k.currentProcess = some p)
    (hpos : 1 ≤ ringbufAvailable (k'.pipes pp).buffer) : (k'.pipes pp).readersWaitQueue = [] := by
  have hpipes := pipes_of_objects (objects_entered k e)
  obtain ⟨c, r, hc, hr, rfl, -⟩ := step_readCall hcall hs
  rcases pipeRead_pipe ((current_entered k e).trans hc) hr with ⟨hempty, hb, -⟩ | ⟨hb, hq⟩
  · rw [hb] at hpos
    omega
  · rw [hq, hpipes]
    by_contra hne
    have hall := hok pp size hcall hne hwoken
    rw [hb, hpipes, available_ringbufRead size (hring pp).1] at hpos
    omega

/-- **No step loses a wake-up**, when its reads take all they have to. -/
theorem NoLostRead.step (hg : Guarded k) (hpark : Parked k) (hring : RingsOk k) (h : NoLostRead k)
    (he : Traffic e) (hok : TakesAll k e) (hs : step k e = some (k', o)) : NoLostRead k' := by
  intro pp hnone hpos
  have hwoken : ∀ p, Woken k pp p → k.currentProcess = some p := by
    intro p hp
    by_contra hc
    exact hnone p (hp.leftAlone (he.leftAlone hs hc))
  have hpipes := pipes_of_objects (objects_entered k e)
  by_cases hread : ∃ size, readCall k e = some (pp, size)
  · obtain ⟨size, hcall⟩ := hread
    exact NoLostRead.read hring hok hcall hs hwoken hpos
  -- nobody else has been woken before, so what was there before was waited for by nobody
  have hnone' : ∀ p, ¬ Woken k pp p := fun p hp =>
    hread (readCall_of_inRead hs (hwoken p hp) hp.1)
  have hsame : ReadSame pp k k' → (k'.pipes pp).readersWaitQueue = [] := by
    rintro (hside | hnil)
    · have hb : (k'.pipes pp).buffer = (k.pipes pp).buffer := congrArg Prod.fst hside
      have hq : (k'.pipes pp).readersWaitQueue = (k.pipes pp).readersWaitQueue :=
        congrArg Prod.snd hside
      rw [hb] at hpos
      rw [hq]
      exact h pp hnone' hpos
    · exact hnil
  by_cases hwrite : ∃ buf, writeCall k e = some (pp, buf)
  · obtain ⟨buf, hcall⟩ := hwrite
    obtain ⟨c, r, hc, hr, rfl, -⟩ := step_writeCall hcall hs
    rcases pipeWrite_pipe hr with ⟨hb, hq⟩ | ⟨hq, hready⟩
    · refine hsame (.inl ?_)
      rw [Pipe.readSide, hb, hq, hpipes]
      rfl
    · rw [hq, hpipes]
      rw [hpipes] at hready
      cases hqueue : (k.pipes pp).readersWaitQueue with
      | nil => rfl
      | cons p rest =>
        -- the first reader has been woken, and has not run
        have hp : p ∈ (k.pipes pp).readersWaitQueue := by
          rw [hqueue]
          exact List.mem_cons_self
        have hst := hready p (by rw [hqueue]; rfl)
        refine absurd ⟨(hpark pp p hp).leftAlone (he.leftAlone hs (hg.current_ne hp)), ?_⟩ (hnone p)
        rw [hst]
        exact fun hd => nomatch hd.1
  · exact hsame (he.readSame hs (not_exists.mp hread) (not_exists.mp hwrite))

/-- Whoever goes on with a call has nothing left on its kernel stack. -/
theorem kstack_entered (hs : step k e = some (k', o)) (hc : k.currentProcess = some c) :
    (k.entered e).kstack c = none := by
  rcases step_eq_some hs with ⟨he, hk, -⟩ | ⟨rfl, -⟩
  · have hsame : k.entered e = k := by
      cases e <;> first | rfl | exact absurd rfl he
    rw [hsame]
    simpa [Kernel.inKernel, hc] using hk
  · rw [entered_resume hc]
    exact Function.update_self _ _ _

theorem procs_entered (k : Kernel) (e : Event) : (k.entered e).procs = k.procs := by
  unfold Kernel.entered
  split
  · split <;> rfl
  · rfl

/-- **A read that leaves bytes behind** where nobody else comes loses the wake-up. -/
theorem takesAll_of_noLostRead (hg : Guarded k) (hring : RingsOk k) (he : Traffic e) (hs : step k e = some (k', o))
    (h' : NoLostRead k') : TakesAll k e := by
  intro pp size hcall hne hwoken
  by_contra hlt
  have hpipes := pipes_of_objects (objects_entered k e)
  obtain ⟨c, r, hc, hr, rfl, -⟩ := step_readCall hcall hs
  rw [pipeRead_eq (lock_of_pipeRead hr), if_neg (by rw [hpipes]; omega)] at hr
  obtain ⟨writer, hwriter, hk'⟩ : ∃ w, w = (k.pipes pp).writersWaitQueue.head? ∧
      r.1 = procReady ((k.entered e).setPipe pp fun q => { q with
        buffer := (ringbufRead q.buffer size).1, writersWaitQueue := q.writersWaitQueue.tail }) w :=
    ⟨_, rfl, by rw [← Outcome.ok.inj hr, hpipes]⟩
  have hpipe : r.1.pipes pp = { k.pipes pp with
      buffer := (ringbufRead (k.pipes pp).buffer size).1
      writersWaitQueue := (k.pipes pp).writersWaitQueue.tail } := by
    rw [hk', pipes_of_objects (objects_procReady _ _)]
    simp [Kernel.setPipe, hpipes]
  have hnone : ∀ p, ¬ Woken r.1 pp p := by
    rintro p ⟨hin, hup⟩
    have hpc : p ≠ c := by
      rintro rfl
      have hstack : r.1.kstack p = none := by
        rw [hk', kstack_procReady]
        exact kstack_entered hs hc
      rw [InRead, hstack] at hin
      cases hin
    -- `p` is still as blocked as before, for only a writer has been woken
    have hin' : InRead k pp p := by
      have hstack := (he.leftAlone hs (q := p) fun h => hpc (Option.some.inj (hc.symm.trans h)).symm).kstack
      unfold InRead
      rwa [← hstack]
    by_cases hdoze : (k.procs p).status = .blocked ∧ (k.procs p).waitingOn = .pipeReaders pp
    · refine hup ?_
      have hprocs : r.1.procs p = k.procs p := by
        rw [hk']
        cases writer with
        | none => exact congrFun (procs_entered k e) p
        | some w =>
          have hpw : p ≠ w := by
            rintro rfl
            have hmem : p ∈ (k.pipes pp).writersWaitQueue :=
              List.mem_of_mem_head? (Option.mem_def.mpr hwriter.symm)
            have hon := (hg.waits.waiting (.pipeWriters pp) (by simp) p hmem).2
            rw [hdoze.2] at hon
            cases hon
          rw [procReady_procs_ne _ hpw]
          exact congrFun (procs_entered k e) p
      rwa [hprocs]
    · have hcur := hwoken p ⟨hin', hdoze⟩
      exact hpc (Option.some.inj (hc.symm.trans hcur)).symm
  have hq := h' pp hnone
  rw [hpipe, available_ringbufRead size (hring pp).1] at hq
  exact hne (hq (by omega))

/-! ### Whole runs -/

/-- **No wake-up is lost** in a run of reads and writes, when every read that nobody comes after
    asks for every byte there is. -/
theorem noLostRead_run {f : Nat → Bool} {tr : List (Kernel × Event × Option Completion)}
    (h : Run f (fun k e => Traffic e ∧ TakesAll k e) tr k) : NoLostRead k := by
  have hinv : (Guarded k ∧ RingsOk k) ∧ Parked k ∧ NoLostRead k := by
    refine h.invariant (fun k => (Guarded k ∧ RingsOk k) ∧ Parked k ∧ NoLostRead k) ?_ ?_
    · refine ⟨⟨.boot f, fun _ => ⟨ringbufNew_wf (by decide), rfl⟩⟩, ?_, fun _ _ _ => rfl⟩
      intro pp p hp
      cases hp
    · rintro k e k' o ⟨⟨hg, hring⟩, hpark, hlost⟩ ⟨he, hok⟩ hs
      exact ⟨⟨hg.step he.spares hs, hring.next hs⟩, hpark.step hg he hs,
        hlost.step hg hpark hring he hok hs⟩
  exact hinv.2.2

/-- `idle` opens both ends of a pipe and spawns two children that inherit the read end; both
    want one byte and have to wait; then `idle` writes `bytes` and hands over. -/
def twoReadersEvents (bytes : List UInt8) : List Event :=
  [.sysSpawn { entry := some 1, fds := none, background := false }, .timer,
   .sysPipeOpen [65] [] 0, .sysPipeOpen [65] [] 1,
   .sysSpawn { entry := some 2, fds := some fun i => [0, 1, 2, 3].getD i (-1), background := true },
   .sysSpawn { entry := some 3, fds := some fun i => [0, 1, 2, 3].getD i (-1), background := true },
   .sysYield, .sysRead 3 1 0, .sysRead 3 1 0, .resume, .sysWrite 4 bytes, .sysYield, .resume]

/-- A read that asks for every byte there is. -/
def AsksAll (k : Kernel) (e : Event) : Prop :=
  ∀ call ∈ readCall k e, ringbufAvailable (k.pipes call.1).buffer ≤ call.2

instance (k : Kernel) (e : Event) : Decidable (AsksAll k e) :=
  inferInstanceAs (Decidable (∀ call ∈ readCall k e, _))

theorem AsksAll.takesAll (h : AsksAll k e) : TakesAll k e := fun pp size hcall _ _ =>
  h (pp, size) hcall

theorem noLostRead_run_oneByte : ∃ tr k,
    Run (fun _ => true) (fun k e => Traffic e ∧ TakesAll k e) tr k ∧
    (k.pipes 0).readersWaitQueue = [2] ∧ NoLostRead k := by
  have hcheck : execCheck step (fun k e => Traffic e ∧ AsksAll k e)
      (fun _ k => (k.pipes 0).readersWaitQueue == [2]) (boot fun _ => true) (twoReadersEvents [7]) =
      true := by decide +kernel
  obtain ⟨tr, k, hrun, hq⟩ := Trace.of_execCheck hcheck
  have hrun' : Run (fun _ => true) (fun k e => Traffic e ∧ TakesAll k e) tr k :=
    hrun.imp fun _ _ h => ⟨h.1, h.2.takesAll⟩
  exact ⟨tr, k, hrun', beq_iff_eq.mp hq, noLostRead_run hrun'⟩

/-- **A wake-up that is lost**: of two bytes the reader that has been woken takes one. -/
theorem lostRead_partial : ¬ ∀ tr k, Run (fun _ => true) (fun _ e => Traffic e) tr k →
    NoLostRead k := by
  have hcheck : execCheck step (fun _ e => Traffic e)
      (fun _ k => (k.pipes 0).readersWaitQueue == [2] &&
        decide (1 ≤ ringbufAvailable (k.pipes 0).buffer) &&
        (List.range k.nextProc).all fun p => decide ¬ Woken k 0 p)
      (boot fun _ => true) (twoReadersEvents [7, 8]) = true := by decide +kernel
  obtain ⟨tr, k, hrun, hQ⟩ := Trace.of_execCheck hcheck
  simp only [Bool.and_eq_true, beq_iff_eq, decide_eq_true_eq, List.all_eq_true, List.mem_range] at hQ
  obtain ⟨⟨hq, hpos⟩, hnone⟩ := hQ
  have hg : Guarded k := hrun.invariant Guarded (.boot _) fun _ _ _ _ hI he hs => hI.step he.spares hs
  intro hall
  have hnil := hall tr k hrun 0 (fun p hp => ?_) hpos
  · rw [hq] at hnil
    cases hnil
  · obtain ⟨size, hw⟩ := inRead_iff.mp hp.1
    exact hnone p (hg.stack p _ hw) hp

end TpeSo
