import TpeSo.Pipes.Calls
import TpeSo.Pipes.Full

namespace TpeSo

open Ds Lib

/-!
# Pipes — who may wait at one

`pipe_read` lets its caller wait only while there is a writer, and the last writer that
leaves wakes all readers.  Nobody ever waits to write (`pipeWrite_result`).

* `PipeWait`, `WaitsOk` — both facts, for one pipe and for all;
* `WaitsOk.closeSlot`, `WaitsOk.pipeRead`, … — the routines that serve the wait queues;
* `waitsOk_run` — the wait queues are in order after every run.
-/

variable {k k' : Kernel} {c p : ProcId} {pp : PipeId} {e : Event}

/-- Readers wait only while there is a writer, and no writer waits. -/
structure PipeWait (q : Pipe) : Prop where
  readers : q.readersWaitQueue ≠ [] → 0 < q.writers
  writers : q.writersWaitQueue = []

/-- The wait queues of all pipes are in order. -/
def WaitsOk (k : Kernel) : Prop := ∀ pp, PipeWait (k.pipes pp)

theorem WaitsOk.of_pipes (h : WaitsOk k) (hp : k'.pipes = k.pipes) : WaitsOk k' := by
  intro pp
  rw [hp]
  exact h pp

/-- One pipe is rewritten. -/
theorem WaitsOk.update (h : WaitsOk k) (pp : PipeId) {q : Pipe} (hq : PipeWait q)
    (hp : k'.pipes = Function.update k.pipes pp q) : WaitsOk k' := by
  intro i
  rw [hp]
  by_cases hi : i = pp
  · subst hi
    rwa [Function.update_self]
  · rw [Function.update_of_ne hi]
    exact h i

/-- The wait queues and the counts of writers are watched. -/
theorem WaitsOk.of_calm (h : WaitsOk k) (hq : Calm k k') : WaitsOk k' := by
  intro pp
  constructor
  · rw [hq.pipeReaders, hq.writers]
    exact (h pp).readers
  · rw [hq.pipeWriters]
    exact (h pp).writers

/-! ### Serving the wait queues -/

/-- `n` rounds of the loop of `pipe_close_write` take the first `n` readers off the queue. -/
theorem pipes_wakeReaders (pp : PipeId) (n : Nat) : ∀ k : Kernel,
    (wakeReaders k pp n).pipes = Function.update k.pipes pp
      { k.pipes pp with readersWaitQueue := (k.pipes pp).readersWaitQueue.drop n } := by
  induction n with
  | zero => intro k; exact (Function.update_eq_self pp k.pipes).symm
  | succ n ih =>
    intro k
    rw [wakeReaders, ih, wakeFirstReader]
    dsimp only
    rw [pipes_of_objects (objects_procReady _ _)]
    simp [Kernel.setPipe, dequeue]

namespace WaitsOk

/-- An edit of one pipe. -/
theorem setPipe (h : WaitsOk k) (pp : PipeId) {f : Pipe → Pipe} (hf : PipeWait (f (k.pipes pp))) :
    WaitsOk (k.setPipe pp f) := h.update pp hf rfl

theorem pipeFree (h : WaitsOk k) (pp : PipeId) : WaitsOk (pipeFree k pp) :=
  h.setPipe pp ⟨fun hne => absurd rfl hne, rfl⟩

theorem freeUnreferenced (h : WaitsOk k) (pp : PipeId) : WaitsOk (freeUnreferenced k pp) := by
  unfold TpeSo.freeUnreferenced
  split
  · exact h.pipeFree pp
  · exact h

theorem pipeCloseRead (h : WaitsOk k) (pp : PipeId) : WaitsOk (pipeCloseRead k pp) :=
  (h.setPipe pp ⟨(h pp).readers, (h pp).writers⟩).freeUnreferenced pp

/-- The last writer that leaves wakes all readers. -/
theorem dropWriter (h : WaitsOk k) (pp : PipeId) :
    let k₁ := k.setPipe pp fun q => { q with writers := q.writers - 1 }
    WaitsOk (if (k₁.pipes pp).writers = 0 then
      wakeReaders k₁ pp (k₁.pipes pp).readersWaitQueue.length else k₁) := by
  dsimp only
  split
  · refine h.update pp (q := { k.pipes pp with
      writers := (k.pipes pp).writers - 1, readersWaitQueue := [] })
      ⟨fun hne => absurd rfl hne, (h pp).writers⟩ ?_
    rw [pipes_wakeReaders]
    simp [Kernel.setPipe]
  · rename_i hw
    have hleft : ¬ (k.pipes pp).writers - 1 = 0 := by simpa [Kernel.setPipe] using hw
    exact h.setPipe pp ⟨fun _ => Nat.pos_of_ne_zero hleft, (h pp).writers⟩

theorem pipeCloseWrite (h : WaitsOk k) (pp : PipeId) : WaitsOk (pipeCloseWrite k pp) :=
  (h.dropWriter pp).freeUnreferenced pp

theorem fdClose (h : WaitsOk k) (e : FdEntry) : WaitsOk (fdClose k e) := by
  unfold TpeSo.fdClose
  split
  · exact h.pipeCloseRead _
  · exact h.pipeCloseWrite _
  · exact h

theorem closeSlot (h : WaitsOk k) (p : ProcId) (i : Fin fdMax) : WaitsOk (closeSlot k p i) :=
  (h.fdClose ((k.procs p).fds i)).of_pipes rfl

theorem closeFds (p : ProcId) (is : List (Fin fdMax)) :
    ∀ {k : Kernel}, WaitsOk k → WaitsOk (closeFds k p is) := by
  induction is with
  | nil => exact id
  | cons i is ih => exact fun h => ih (h.closeSlot p i)

theorem unlinkWaiting (h : WaitsOk k) (p : ProcId) : WaitsOk (unlinkWaiting k p) := by
  unfold TpeSo.unlinkWaiting
  split
  · exact h
  · rename_i pp _
    refine h.setPipe pp ⟨fun hne => (h pp).readers fun hnil => hne ?_, (h pp).writers⟩
    rw [hnil]
    rfl
  · rename_i pp _
    refine h.setPipe pp ⟨(h pp).readers, ?_⟩
    rw [(h pp).writers]
    rfl
  all_goals exact h

theorem killUnlink (h : WaitsOk k) (p : ProcId) (code : Int) : WaitsOk (killUnlink k p code) := by
  have hfg := h.of_calm (Quiet.setForegroundProcess k (k.procs p).parent (some p)).toCalm
  have hrm : ∀ k₁ : Kernel, (rmCurrent k₁ p).pipes = k₁.pipes := by
    intro k₁
    unfold rmCurrent
    split <;> rfl
  exact ((hfg.of_pipes (hrm _)).unlinkWaiting p).of_pipes rfl

theorem pipeRead (h : WaitsOk k) {size : Nat} {r : Kernel × Option (List UInt8)}
    (hr : pipeRead k c pp size = .ok r) : WaitsOk r.1 := by
  obtain ⟨k₁, hacq, hr⟩ := Outcome.bind_eq_ok.mp hr
  unfold acquirePipe at hacq
  split at hacq
  swap
  · cases hacq
  cases hacq
  have h₁ := h.setPipe pp (f := fun q => { q with lock := false }) ⟨(h pp).readers, (h pp).writers⟩
  generalize k.setPipe pp (fun q => { q with lock := false }) = k₁ at h₁ hr
  have hrelease : ∀ {k₂ : Kernel}, WaitsOk k₂ → WaitsOk (releasePipe k₂ pp) :=
    fun h₂ => h₂.setPipe pp ⟨(h₂ pp).readers, (h₂ pp).writers⟩
  split at hr
  · split at hr
    · cases hr
      exact hrelease h₁
    · rename_i hw
      obtain ⟨k₂, hb, he⟩ := Outcome.bind_eq_ok.mp hr
      cases he
      -- the caller waits, as there is a writer
      refine of_pipes ?_ (pipes_of_objects (objects_blockCurrent hb))
      have halloc : WaitsOk (releasePipe k₁ pp).alloc := (hrelease h₁).of_pipes rfl
      refine halloc.setPipe pp
        ⟨fun _ => ?_, (hrelease h₁ pp).writers⟩
      refine Nat.pos_of_ne_zero ?_
      simpa [releasePipe, Kernel.alloc, Kernel.setPipe] using hw
  · cases hr
    refine hrelease (of_pipes ?_ (pipes_of_objects (objects_procReady _ _)))
    refine h₁.setPipe pp ⟨(h₁ pp).readers, ?_⟩
    rw [(h₁ pp).writers]
    rfl

theorem pipeWrite (h : WaitsOk k) (hring : RingsOk k) {buf : List UInt8}
    {r : Kernel × Option Int} (hr : pipeWrite k c pp buf = .ok r) : WaitsOk r.1 := by
  have hres := pipeWrite_result hring hr
  obtain ⟨k₁, hacq, hr⟩ := Outcome.bind_eq_ok.mp hr
  unfold acquirePipe at hacq
  split at hacq
  swap
  · cases hacq
  cases hacq
  have h₁ := h.setPipe pp (f := fun q => { q with lock := false }) ⟨(h pp).readers, (h pp).writers⟩
  generalize k.setPipe pp (fun q => { q with lock := false }) = k₁ at h₁ hr
  have hrelease : ∀ {k₂ : Kernel}, WaitsOk k₂ → WaitsOk (releasePipe k₂ pp) :=
    fun h₂ => h₂.setPipe pp ⟨(h₂ pp).readers, (h₂ pp).writers⟩
  split at hr
  · split at hr
    · cases hr
      exact hrelease h₁
    · obtain ⟨k₂, hb, he⟩ := Outcome.bind_eq_ok.mp hr
      cases he
      cases hres
  · cases hr
    refine hrelease (of_pipes ?_ (pipes_of_objects (objects_procReady _ _)))
    refine h₁.setPipe pp ⟨fun hne => (h₁ pp).readers fun hnil => hne ?_, (h₁ pp).writers⟩
    rw [hnil]
    rfl

/-! ### Opening and inheriting -/

theorem addRef (h : WaitsOk k) (pp : PipeId) :
    WaitsOk (pipeAddRefRead k pp) ∧ WaitsOk (pipeAddRefWrite k pp) :=
  ⟨h.setPipe pp ⟨(h pp).readers, (h pp).writers⟩,
    h.setPipe pp ⟨fun _ => Nat.succ_pos _, (h pp).writers⟩⟩

theorem createPipe (h : WaitsOk k) (id junk : List UInt8) : WaitsOk (createPipe k id junk).1 := by
  unfold TpeSo.createPipe
  split
  · exact h
  · have hq := h.of_calm (Quiet.allocAll 5 k).toCalm
    dsimp only
    split
    · exact hq.update _ ⟨fun hne => absurd rfl hne, rfl⟩ rfl
    · exact hq

theorem openPipe (h : WaitsOk k) (p : ProcId) (i : Fin fdMax) (id junk : List UInt8) (mode : Int) :
    WaitsOk (openPipe k p i id junk mode).1 := by
  have hend : ∀ (k₁ : Kernel) (pp : PipeId), WaitsOk k₁ → WaitsOk (if mode = 0 then
      (pipeAddRefRead (setFd k₁ p i (pipeEntry pp .pipeRead)) pp, (0 : Int))
      else (pipeAddRefWrite (setFd k₁ p i (pipeEntry pp .pipeWrite)) pp, 0)).1 := by
    intro k₁ pp h₁
    split
    · have hset : WaitsOk (setFd k₁ p i (pipeEntry pp .pipeRead)) := h₁.of_pipes rfl
      exact (hset.addRef pp).1
    · have hset : WaitsOk (setFd k₁ p i (pipeEntry pp .pipeWrite)) := h₁.of_pipes rfl
      exact (hset.addRef pp).2
  unfold TpeSo.openPipe
  split
  · exact h
  · cases hf : findPipeById k id with
    | some pp => exact hend k pp h
    | none =>
      have hcreate := h.createPipe id junk
      generalize TpeSo.createPipe k id junk = r at hcreate
      obtain ⟨k₁, o⟩ := r
      cases o with
      | none => exact hcreate
      | some pp => exact hend k₁ pp hcreate

theorem inheritLoop (target source : ProcId) (fds : Fin fdMax → Int) (is : List (Fin fdMax)) :
    ∀ {k : Kernel}, WaitsOk k → WaitsOk (inheritLoop k target source fds is) := by
  induction is with
  | nil => exact id
  | cons i is ih =>
    intro k h
    rw [TpeSo.inheritLoop]
    split
    · refine ih (of_pipes ?_ rfl)
      unfold fdAddRef
      split
      · exact (h.addRef _).1
      · exact (h.addRef _).2
      · exact h
    · exact h

/-- **A step keeps the wait queues in order.** -/
theorem step (h : WaitsOk k) (hring : RingsOk k) (hs : PipeStep k e k') : WaitsOk k' := by
  have hof : ∀ {k₁ k₂ : Kernel}, k₂.pipeSide = k₁.pipeSide → WaitsOk k₁ → WaitsOk k₂ :=
    fun hp h₁ => h₁.of_pipes (Prod.mk.inj hp).1
  have hentered : WaitsOk (k.entered e) := h.of_pipes (pipes_of_objects (objects_entered k e))
  cases hs with
  | same hp => exact hof hp h
  | pipeRead pp size hcall c hc r hr hp => exact hof hp (hentered.pipeRead hr)
  | pipeWrite pp buf hcall c hc r hr hp =>
    refine hof hp (hentered.pipeWrite (fun i => ?_) hr)
    rw [pipes_of_objects (objects_entered k e)]
    exact hring i
  | createPipe id junk he hp => exact hof hp (h.createPipe id junk)
  | openPipe id junk mode he c hc i hi hp => exact hof hp (h.openPipe c i id junk mode)
  | closeName id he pp hpp hp => exact hof hp (h.pipeFree pp)
  | closeFd i he c hc hp => exact hof hp (h.closeSlot c i)
  | kill p hkill k₁ hk₁ code hp =>
    have h₁ : WaitsOk k₁ := by
      rcases hk₁ with rfl | rfl
      · exact h
      · exact h.of_pipes (pipes_of_objects (objects_suspend k .exit))
    exact hof hp (closeFds p _ (h₁.killUnlink p code))
  | inherit a he k₁ hk₁ p s fds hp => exact hof hp (inheritLoop p s fds _ (hof hk₁ h))

end WaitsOk

/-- **The wait queues of the pipes are in order after every run.** -/
theorem waitsOk_run {f : Nat → Bool} {ok : Kernel → Event → Prop}
    {tr : List (Kernel × Event × Option Completion)} (h : Run f ok tr k) : WaitsOk k := by
  have hboth := h.invariant (fun k => RingsOk k ∧ WaitsOk k) ?_ ?_
  · exact hboth.2
  · exact ⟨fun _ => ⟨ringbufNew_wf (by decide), rfl⟩, fun _ => ⟨fun hne => absurd rfl hne, rfl⟩⟩
  · rintro k e k' o ⟨hring, hwait⟩ - hs
    exact ⟨Does.invariant (fun _ => RingsOk) (fun _ _ _ _ _ hI _ hm => hI.step hm)
      (step_does hs) hring, hwait.step hring (step_pipe hs)⟩

end TpeSo
