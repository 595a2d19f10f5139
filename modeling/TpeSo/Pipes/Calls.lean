import TpeSo.Acts.Objects

namespace TpeSo

open Ds Lib

/-!
# Pipes — the calls that reach the pipes

* `Kernel.pipeSide` — the pipes, their table, and the next fresh pipe;
* `PipeStep k e k'`, `step_pipe` — a step either leaves them alone or is one of the calls of
  `pipe.c`;
* `pipeRead_eq`, `pipeWrite_eq` — reading and writing a pipe whose lock is free.
-/

variable {k k' : Kernel} {e : Event} {o : Option Completion} {c p : ProcId} {id : Nat}
  {pp : PipeId} {size : Nat} {buf : List UInt8}

/-- The pipes, their table, and the next fresh pipe. -/
def Kernel.pipeSide (k : Kernel) : (PipeId → Pipe) × (Nat → Option PipeId) × PipeId :=
  (k.pipes, k.pipesTable, k.nextPipe)

theorem pipeSide_of_objects (h : k'.objects = k.objects) : k'.pipeSide = k.pipeSide :=
  congrArg (fun x => (x.2.1, x.2.2.1, x.2.2.2.1)) h

/-- The calls on semaphores leave the pipes alone. -/
theorem pipeSide_of_offSems (h : k'.offSems = k.offSems) : k'.pipeSide = k.pipeSide :=
  congrArg (fun x => (x.1, x.2.1, x.2.2.1)) h

theorem pipeSide_of_offLine (h : k'.offLine = k.offLine) : k'.pipeSide = k.pipeSide :=
  congrArg Prod.snd h

/-- What a step does to the pipes. -/
inductive PipeStep (k : Kernel) (e : Event) (k' : Kernel) : Prop where
  | same (h : k'.pipeSide = k.pipeSide)
  | pipeRead (pp : PipeId) (size : Nat) (hcall : readCall k e = some (pp, size)) (c : ProcId)
      (hc : k.currentProcess = some c) (r : Kernel × Option (List UInt8))
      (hr : pipeRead (k.entered e) c pp size = .ok r) (h : k'.pipeSide = r.1.pipeSide)
  | pipeWrite (pp : PipeId) (buf : List UInt8) (hcall : writeCall k e = some (pp, buf)) (c : ProcId)
      (hc : k.currentProcess = some c) (r : Kernel × Option Int)
      (hr : pipeWrite (k.entered e) c pp buf = .ok r) (h : k'.pipeSide = r.1.pipeSide)
  | createPipe (id junk : List UInt8) (he : e = .sysPipeCreate id junk)
      (h : k'.pipeSide = (createPipe k id junk).1.pipeSide)
  | openPipe (id junk : List UInt8) (mode : Int) (he : e = .sysPipeOpen id junk mode) (c : ProcId)
      (hc : k.currentProcess = some c) (i : Fin fdMax) (hi : findFreeFd k c = some i)
      (h : k'.pipeSide = (openPipe k c i id junk mode).1.pipeSide)
  | closeName (id : List UInt8) (he : e = .sysPipeClose id) (pp : PipeId)
      (hpp : findPipeById k id = some pp) (h : k'.pipeSide = (pipeFree k pp).pipeSide)
  | closeFd (i : Fin fdMax) (he : e = .sysCloseFd i.val) (c : ProcId)
      (hc : k.currentProcess = some c) (h : k'.pipeSide = (closeSlot k c i).pipeSide)
  | kill (p : ProcId) (hp : killTarget k e = some p) (k₁ : Kernel)
      (hk₁ : k₁ = k ∨ k₁ = k.suspend .exit) (code : Int)
      (h : k'.pipeSide = (closeFds (killUnlink k₁ p code) p (List.finRange fdMax)).pipeSide)
  | inherit (a : SpawnArgs) (he : e = .sysSpawn a) (k₁ : Kernel) (hk₁ : k₁.pipeSide = k.pipeSide)
      (p s : ProcId) (fds : Fin fdMax → Int)
      (h : k'.pipeSide = (inheritLoop k₁ p s fds (List.finRange fdMax)).pipeSide)

/-- **A step leaves the pipes alone, or is one call of `pipe.c`.** -/
theorem step_pipe (hs : step k e = some (k', o)) : PipeStep k e k' := by
  cases step_object hs with
  | same h => exact .same (pipeSide_of_objects h)
  | semCreate id v he h =>
    exact .same ((pipeSide_of_objects h).trans (pipeSide_of_offSems (offSems_mySemCreate k id v)))
  | semDestroy id he h =>
    exact .same ((pipeSide_of_objects h).trans (pipeSide_of_offSems (offSems_mySemDestroy k id)))
  | semPost id he r hr h =>
    exact .same ((pipeSide_of_objects h).trans (pipeSide_of_offSems (offSems_mySemPost hr)))
  | semWait id he r hr h =>
    exact .same ((pipeSide_of_objects h).trans (pipeSide_of_offSems (offSems_mySemWait hr)))
  | semTrywait id he r hr h =>
    exact .same ((pipeSide_of_objects h).trans (pipeSide_of_offSems (offSems_mySemTrywait hr)))
  | pipeRead pp size hcall c hc r hr h =>
    exact .pipeRead pp size hcall c hc r hr (pipeSide_of_objects h)
  | pipeWrite pp buf hcall c hc r hr h =>
    exact .pipeWrite pp buf hcall c hc r hr (pipeSide_of_objects h)
  | createPipe id junk he h => exact .createPipe id junk he (pipeSide_of_objects h)
  | openPipe id junk mode he c hc i hi h =>
    exact .openPipe id junk mode he c hc i hi (pipeSide_of_objects h)
  | closeName id he pp hpp h => exact .closeName id he pp hpp (pipeSide_of_objects h)
  | closeFd i he c hc h => exact .closeFd i he c hc (pipeSide_of_objects h)
  | kill p hp k₁ hk₁ code h => exact .kill p hp k₁ hk₁ code (pipeSide_of_objects h)
  | inherit a he k₁ hk₁ p s fds h =>
    exact .inherit a he k₁ (pipeSide_of_objects hk₁) p s fds (pipeSide_of_objects h)
  | char sc ch he hch h =>
    exact .same ((pipeSide_of_objects h).trans (pipeSide_of_offLine (offLine_handleChar k ch)))
  | ctrlD sc he hch h =>
    exact .same ((pipeSide_of_objects h).trans (pipeSide_of_offLine (offLine_handleCtrlD k)))
  | line count n hkey hn h0 h =>
    exact .same ((pipeSide_of_objects h).trans (pipeSide_of_offLine (offLine_getLine k count)))
  | canonical b he h => exact .same ((pipeSide_of_objects h).trans rfl)

/-! ### The calls, with the lock free -/

theorem setPipe_setPipe (k : Kernel) (pp : PipeId) (f g : Pipe → Pipe) :
    (k.setPipe pp f).setPipe pp g = k.setPipe pp fun q => g (f q) := by
  simp [Kernel.setPipe]

theorem releasePipe_procReady (k : Kernel) (p : Option ProcId) (pp : PipeId) :
    releasePipe (procReady k p) pp = procReady (releasePipe k pp) p := by
  cases p <;> rfl

theorem setPipe_congr {f g : Pipe → Pipe} (h : f (k.pipes pp) = g (k.pipes pp)) :
    k.setPipe pp f = k.setPipe pp g := by
  rw [Kernel.setPipe, Kernel.setPipe, h]

/-- Taking a free lock and releasing it. -/
theorem releasePipe_acquired (h : (k.pipes pp).lock = true) :
    releasePipe (k.setPipe pp fun q => { q with lock := false }) pp = k := by
  rw [releasePipe, setPipe_setPipe]
  apply k.setPipe_eq_self
  rw [← h]

/-- **`pipe_read` with the lock free.** -/
theorem pipeRead_eq (h : (k.pipes pp).lock = true) : pipeRead k c pp size =
    if ringbufAvailable (k.pipes pp).buffer = 0 then
      if (k.pipes pp).writers = 0 then .ok (k, some [])
      else do
        let k ← blockCurrent ((linkWaiter k (.pipeReaders pp) c).suspend (.pipeRead pp size))
          .pipeRead (.pipeReaders pp)
        .ok (k, none)
    else .ok (procReady (k.setPipe pp fun q => { q with
        buffer := (ringbufRead q.buffer size).1, writersWaitQueue := q.writersWaitQueue.tail })
        (k.pipes pp).writersWaitQueue.head?, some (ringbufRead (k.pipes pp).buffer size).2) := by
  have hself : ((k.setPipe pp fun q => { q with lock := false }).pipes pp) =
      { k.pipes pp with lock := false } := by simp [Kernel.setPipe]
  unfold pipeRead acquirePipe
  rw [if_pos h, Outcome.ok_bind, releasePipe_acquired h, hself]
  dsimp only [dequeue]
  split
  · rfl
  · rw [releasePipe_procReady, setPipe_setPipe, releasePipe, setPipe_setPipe]
    congr 3
    apply setPipe_congr
    dsimp only
    rw [h]

/-- **`pipe_write` with the lock free.** -/
theorem pipeWrite_eq (h : (k.pipes pp).lock = true) : pipeWrite k c pp buf =
    if pipeBufferSize ≤ ringbufAvailable (k.pipes pp).buffer then
      if (k.pipes pp).readers = 0 then .ok (k, some (-ePipe))
      else do
        let k ← blockCurrent ((linkWaiter k (.pipeWriters pp) c).suspend (.pipeWrite pp buf))
          .pipeWrite (.pipeWriters pp)
        .ok (k, none)
    else .ok (procReady (k.setPipe pp fun q => { q with
        buffer := (ringbufWrite q.buffer buf).1, readersWaitQueue := q.readersWaitQueue.tail })
        (k.pipes pp).readersWaitQueue.head?, some ((ringbufWrite (k.pipes pp).buffer buf).2 : Int)) := by
  have hself : ((k.setPipe pp fun q => { q with lock := false }).pipes pp) =
      { k.pipes pp with lock := false } := by simp [Kernel.setPipe]
  unfold pipeWrite acquirePipe
  rw [if_pos h, Outcome.ok_bind, releasePipe_acquired h, hself]
  dsimp only [dequeue]
  split
  · rfl
  · rw [releasePipe_procReady, setPipe_setPipe, releasePipe, setPipe_setPipe]
    congr 3
    apply setPipe_congr
    dsimp only
    rw [h]

/-- A call that comes back has found the lock free. -/
theorem lock_of_pipeRead {r : Kernel × Option (List UInt8)} (hr : pipeRead k c pp size = .ok r) :
    (k.pipes pp).lock = true := by
  by_contra hl
  rw [pipeRead, acquirePipe, if_neg hl] at hr
  cases hr

theorem lock_of_pipeWrite {r : Kernel × Option Int} (hr : pipeWrite k c pp buf = .ok r) :
    (k.pipes pp).lock = true := by
  by_contra hl
  rw [pipeWrite, acquirePipe, if_neg hl] at hr
  cases hr

end TpeSo
