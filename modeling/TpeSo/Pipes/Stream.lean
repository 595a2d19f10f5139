import TpeSo.Acts.Stack
import TpeSo.Pipes.Table

namespace TpeSo

open Ds Lib

/-!
# Pipes — stream integrity

The ring of a pipe is compared with the history of the run.

* `PipesBorn` — descriptors and suspended system calls only name pipes that have been
  handed out;
* `RingStep r r' rd wr` — the ring went from `r` to `r'` while the bytes `rd` were read and
  `wr` written;
* `pipeRead_ring`, `pipeWrite_ring` — what one call does to the rings;
* `pipeStream_run` — **what was read, followed by what is in the ring, is what was
  written**, for every pipe after every run.
-/

variable {φ ψ : Phase} {k k' : Kernel} {e : Event} {o : Option Completion}

/-! ### Pipes that have been handed out -/

/-- No edit takes back a pipe. -/
theorem TableStep.nextPipe_le {a : Act} {s s' : Store} (h : TableStep a s s') :
    s.nextPipe ≤ s'.nextPipe := by
  cases h with
  | refer => simp [Store.setSlot]
  | drop => simp [Store.setSlot]
  | newPipe => exact Nat.le_succ _
  | _ => exact le_rfl

/-- Descriptors and open pipes only name pipes that exist. -/
structure Known (s : Store) : Prop where
  slot : ∀ x ops pp, (s.slot x).refers ops pp → pp < s.nextPipe
  inUse : ∀ pp, (s.pipe pp).inUse = true → pp < s.nextPipe

namespace Known

variable {s s' : Store}

/-- Overwriting one slot, and perhaps counters. -/
theorem setSlot (h : Known s) {x : ProcId × Fin fdMax} {e : FdEntry}
    (hslot : s'.slot = Function.update s.slot x e) (hn : s'.nextPipe = s.nextPipe)
    (hu : ∀ pp, (s'.pipe pp).inUse = (s.pipe pp).inUse)
    (he : ∀ ops pp, e.refers ops pp → pp < s.nextPipe) : Known s' where
  slot y ops pp hy := by
    rw [hslot] at hy
    rw [hn]
    by_cases hyx : y = x
    · subst hyx
      rw [Function.update_self] at hy
      exact he ops pp hy
    · rw [Function.update_of_ne hyx] at hy
      exact h.slot y ops pp hy
  inUse pp hp := by
    rw [hn]
    exact h.inUse pp (hu pp ▸ hp)

/-- An edit of a pipe that does not open it. -/
theorem setPipe (h : Known s) (pp : PipeId) {f : PipeBody → PipeBody}
    (hf : (f (s.pipe pp)).inUse = true → (s.pipe pp).inUse = true) : Known (s.setPipe pp f) where
  slot := h.slot
  inUse i hi := by
    by_cases hip : i = pp
    · subst hip
      refine h.inUse i (hf ?_)
      simpa [Store.setPipe] using hi
    · refine h.inUse i ?_
      simpa [Store.setPipe, hip] using hi

/-- **Every edit of the table keeps `Known`.** -/
theorem step (h : Known s) {a : Act} (hm : TableStep a s s') : Known s' := by
  cases hm with
  | same => exact h
  | sem id f => exact ⟨h.slot, h.inUse⟩
  | newProc =>
    refine ⟨fun x ops pp hx => ?_, h.inUse⟩
    dsimp only at hx
    split at hx
    · exact (FdEntry.not_refers_empty hx).elim
    · exact h.slot x ops pp hx
  | fill _ _ _ hnew => exact h.setSlot rfl rfl (fun _ => rfl) fun ops pp hr => (hnew ops pp hr).elim
  | @refer _ _ x e ops pp _ _ hr he =>
    refine h.setSlot (x := x) (e := e) (by simp [Store.setSlot]) (by simp [Store.setSlot])
      (by simp [Store.setSlot]) fun ops' pp' hr' => ?_
    rcases he with ⟨y, rfl⟩ | ⟨-, hu⟩
    · exact h.slot y ops' pp' hr'
    · rw [(FdEntry.refers_unique hr hr').2]
      exact h.inUse pp hu
  | @drop _ _ x =>
    exact h.setSlot (x := x) (e := {}) (by simp [Store.setSlot]) (by simp [Store.setSlot])
      (by simp [Store.setSlot]) fun _ _ hr => (FdEntry.not_refers_empty hr).elim
  | clear =>
    exact h.setSlot rfl rfl (fun _ => rfl) fun _ _ hr => (FdEntry.not_refers_empty hr).elim
  | free | freeNamed =>
    refine h.setPipe _ fun hi => ?_
    cases hi
  | newPipe =>
    refine ⟨fun x ops pp hx => Nat.lt_succ_of_lt (h.slot x ops pp hx), fun i hi => ?_⟩
    by_cases hin : i = s.nextPipe
    · exact hin.le.trans_lt (Nat.lt_succ_self _)
    · dsimp only at hi
      rw [Function.update_of_ne hin] at hi
      exact Nat.lt_succ_of_lt (h.inUse i hi)
  | take pp size => exact h.setPipe pp id
  | put pp buf => exact h.setPipe pp id

end Known

/-- Descriptors, open pipes and suspended system calls only name pipes that exist. -/
structure PipesBorn (k : Kernel) : Prop where
  born : Born .run k
  known : Known k.store
  stack : ∀ p w ops pp, k.kstack p = some w → w.pipeEnd = some (ops, pp) → pp < k.nextPipe

namespace PipesBorn

theorem boot (f : Nat → Bool) : PipesBorn (boot f) where
  born := .boot f
  known := ⟨fun _ _ _ h => (FdEntry.not_refers_empty h).elim, fun _ h => nomatch h⟩
  stack _ _ _ _ h := nomatch h

theorem lt_of_reaches (h : PipesBorn k) (ops : FileOps) {pp : PipeId}
    (hr : Reaches k e ops pp) : pp < k.nextPipe := by
  obtain ⟨c, -, ⟨-, i, hi⟩ | ⟨-, w, hw, hend⟩⟩ := hr
  · exact h.known.slot (c, i) ops pp hi
  · exact h.stack c w ops pp hw hend

theorem step (h : PipesBorn k) (hs : TpeSo.step k e = some (k', o)) :
    PipesBorn k' ∧ k.nextPipe ≤ k'.nextPipe := by
  have hrun := Does.invariant (fun φ k₁ => Born φ k₁ ∧ Known k₁.store ∧ k.nextPipe ≤ k₁.nextPipe ∧
    ∀ p w ops pp, k₁.kstack p = some w → w.pipeEnd = some (ops, pp) → pp < k₁.nextPipe) ?_
    (step_does hs) ⟨h.born, h.known, le_rfl, h.stack⟩
  · exact ⟨⟨hrun.1, hrun.2.1, hrun.2.2.2⟩, hrun.2.2.1⟩
  rintro φ k₁ a ψ k₂ ⟨hb, hknown, hle, hstack⟩ hC hm
  have hle' : k₁.nextPipe ≤ k₂.nextPipe := (hm.tableStep hb).nextPipe_le
  refine ⟨hb.step hm, hknown.step (hm.tableStep hb), hle.trans hle', ?_⟩
  intro p v ops pp hv hend
  refine lt_of_lt_of_le ?_ hle'
  rcases hm.kstack hv with hv | ⟨-, hplain | ⟨reason, w, rfl, hw⟩⟩
  · exact hstack p v ops pp hv hend
  · cases v <;> first | exact hplain.elim | cases hend
  · -- whoever waits on a pipe has reached it through a descriptor, or waited on it before
    refine (h.lt_of_reaches (e := e) ops ?_).trans_le hle
    cases v with
    | pipeRead q size =>
      cases hend
      cases w <;> cases reason <;> first | exact hw.elim | (cases hw; exact hC)
    | pipeWrite q buf =>
      cases hend
      cases w <;> cases reason <;> first | exact hw.elim | (cases hw; exact hC)
    | _ => cases hend

end PipesBorn

/-! ### The rings -/

/-- The ring went from `r` to `r'` while `rd` was read and `wr` was written. -/
def RingStep (r r' : Ringbuf) (rd wr : List UInt8) : Prop :=
  r.Wf → r'.Wf ∧ rd ++ contents r' = contents r ++ wr

theorem RingStep.refl {r r' : Ringbuf} (h : r' = r) : RingStep r r' [] [] := by
  subst h
  exact fun hr => ⟨hr, by simp⟩

/-- The edits that leave the rings alone. -/
def Act.offRings : Act → Prop
  | .take _ | .put _ | .newPipe _ => False
  | _ => True

theorem Micro.buffer {a : Act} (h : Micro φ k a ψ k') (ha : a.offRings) (pp : PipeId) :
    (k'.pipes pp).buffer = (k.pipes pp).buffer := by
  by_cases hoff : a.offStore
  · exact congrArg (fun s => (s.pipe pp).buffer) (h.store hoff)
  have haddRef : ∀ (k : Kernel) (e : FdEntry),
      ((fdAddRef k e).pipes pp).buffer = (k.pipes pp).buffer := by
    intro k e
    unfold fdAddRef
    split
    · exact k.setPipe_spares Pipe.buffer rfl pp
    · exact k.setPipe_spares Pipe.buffer rfl pp
    · rfl
  cases h with
  | inherit => exact haddRef k _
  | openRef =>
    show ((addRef _ _ _).store.pipe pp).buffer = _
    rw [store_addRef, Store.setRefs_buffer]
    rfl
  | dropRef =>
    show ((subRef _ _ _).store.pipe pp).buffer = _
    rw [store_subRef, Store.setRefs_buffer]
    rfl
  | freeUnref => exact k.setPipe_spares Pipe.buffer rfl pp
  | freeNamed => exact k.setPipe_spares Pipe.buffer rfl pp
  | newPipe => exact ha.elim
  | take => exact ha.elim
  | put => exact ha.elim
  | semCreate => rfl
  | semDestroy => rfl
  | semTake => rfl
  | semInc => rfl
  | newProc => rfl
  | setTerminal => rfl
  | clearSlot => rfl
  | _ => exact (hoff trivial).elim

theorem Routine.offRings : Routine fun _ a => a.offRings := by
  intro _ a ha
  cases a <;> first | exact ha.elim | trivial

theorem Does.buffer {s t : Phase × Kernel} (h : Does (fun _ a => a.offRings) s t) (pp : PipeId) :
    (t.2.pipes pp).buffer = (s.2.pipes pp).buffer :=
  Does.invariant (fun _ k => (k.pipes pp).buffer = (s.2.pipes pp).buffer)
    (fun _ _ _ _ _ hI hC hm => (hm.buffer hC pp).trans hI) h rfl

/-- The last lines of `pipe_read` and `pipe_write` leave the rings alone. -/
theorem buffer_releasePipe_procReady (k : Kernel) (w : Option ProcId) (pp i : PipeId) :
    ((releasePipe (procReady k w) pp).pipes i).buffer = (k.pipes i).buffer :=
  ((Quiet.releasePipe (procReady k w) pp).buffer i).trans
    (congrArg (fun s => (s.pipe i).buffer) (store_procReady k w))

/-- Waiting at a pipe leaves the rings alone. -/
theorem buffer_blockCurrent {c : ProcId} {reason : BlockReason} (w : WaitRef) (pend : Pending)
    (hc : k.currentProcess = some c) (hw : BlocksOn reason w pend)
    (h : blockCurrent ((linkWaiter k w c).suspend pend) reason w = .ok k') (i : PipeId) :
    (k'.pipes i).buffer = (k.pipes i).buffer :=
  (does_blockCurrent Routine.offRings.common (Routine.offRings.preempts _) w pend hc hw trivial h).buffer i

/-- **`pipe_read`** takes the bytes it hands out from the front of the one ring. -/
theorem pipeRead_ring {c : ProcId} {pp : PipeId} {size : Nat}
    {r : Kernel × Option (List UInt8)} (hc : k.currentProcess = some c)
    (h : pipeRead k c pp size = .ok r) :
    (∀ i, i ≠ pp → (r.1.pipes i).buffer = (k.pipes i).buffer) ∧
      RingStep (k.pipes pp).buffer (r.1.pipes pp).buffer (r.2.getD []) [] := by
  obtain ⟨k₁, hacq, h⟩ := Outcome.bind_eq_ok.mp h
  have hq := Quiet.acquirePipe hacq
  have hsame : ∀ k₂ : Kernel, (∀ i, (k₂.pipes i).buffer = (k₁.pipes i).buffer) →
      (∀ i, i ≠ pp → (k₂.pipes i).buffer = (k.pipes i).buffer) ∧
        RingStep (k.pipes pp).buffer (k₂.pipes pp).buffer [] [] :=
    fun k₂ hk₂ => ⟨fun i _ => (hk₂ i).trans (hq.buffer i), .refl ((hk₂ pp).trans (hq.buffer pp))⟩
  split at h
  · split at h
    · cases h
      exact hsame _ (Quiet.releasePipe k₁ pp).buffer
    · obtain ⟨k₂, hb, he⟩ := Outcome.bind_eq_ok.mp h
      cases he
      have hc₁ : (releasePipe k₁ pp).currentProcess = some c := hq.current.trans hc
      have hblock := buffer_blockCurrent (.pipeReaders pp) (.pipeRead pp size) hc₁ (by rfl) hb
      exact hsame k₂ fun i => (hblock i).trans ((Quiet.releasePipe k₁ pp).buffer i)
  · cases h
    refine ⟨fun i hi => ?_, fun hwf => ?_⟩
    · rw [buffer_releasePipe_procReady, ← hq.buffer i]
      simp [Kernel.setPipe, hi]
    · rw [buffer_releasePipe_procReady]
      rw [← hq.buffer pp] at hwf ⊢
      obtain ⟨hwf', -, hc'⟩ := ringbufRead_spec size hwf
      simpa [Kernel.setPipe] using And.intro hwf' hc'

/-- **`pipe_write`** appends to the one ring as many bytes as it says. -/
theorem pipeWrite_ring {c : ProcId} {pp : PipeId} {buf : List UInt8} {r : Kernel × Option Int}
    (hc : k.currentProcess = some c) (h : pipeWrite k c pp buf = .ok r) :
    (∀ i, i ≠ pp → (r.1.pipes i).buffer = (k.pipes i).buffer) ∧
      RingStep (k.pipes pp).buffer (r.1.pipes pp).buffer []
        (r.2.elim [] fun n => buf.take n.toNat) := by
  obtain ⟨k₁, hacq, h⟩ := Outcome.bind_eq_ok.mp h
  have hq := Quiet.acquirePipe hacq
  have hsame : ∀ k₂ : Kernel, (∀ i, (k₂.pipes i).buffer = (k₁.pipes i).buffer) →
      (∀ i, i ≠ pp → (k₂.pipes i).buffer = (k.pipes i).buffer) ∧
        RingStep (k.pipes pp).buffer (k₂.pipes pp).buffer [] [] :=
    fun k₂ hk₂ => ⟨fun i _ => (hk₂ i).trans (hq.buffer i), .refl ((hk₂ pp).trans (hq.buffer pp))⟩
  split at h
  · split at h
    · cases h
      exact hsame _ (Quiet.releasePipe k₁ pp).buffer
    · obtain ⟨k₂, hb, he⟩ := Outcome.bind_eq_ok.mp h
      cases he
      have hc₁ : (releasePipe k₁ pp).currentProcess = some c := hq.current.trans hc
      have hblock := buffer_blockCurrent (.pipeWriters pp) (.pipeWrite pp buf) hc₁ (by rfl) hb
      exact hsame k₂ fun i => (hblock i).trans ((Quiet.releasePipe k₁ pp).buffer i)
  · cases h
    refine ⟨fun i hi => ?_, fun hwf => ?_⟩
    · rw [buffer_releasePipe_procReady, ← hq.buffer i]
      simp [Kernel.setPipe, hi]
    · rw [buffer_releasePipe_procReady]
      rw [← hq.buffer pp] at hwf ⊢
      obtain ⟨hwf', -, hc'⟩ := ringbufWrite_spec buf hwf
      simpa [Kernel.setPipe] using And.intro hwf' hc'

/-! ### The history -/

/-- The bytes a completed `pipe_read` of `pp` handed out. -/
def readBytes (pp : PipeId) : Option Completion → List UInt8
  | some (.pipeRead q bytes) => if q = pp then bytes else []
  | _ => []

/-- The first bytes of the buffer of a completed `pipe_write` to `pp`, as many as its return
    value says. -/
def writtenBytes (pp : PipeId) : Option Completion → List UInt8
  | some (.pipeWrite q buf ret) => if q = pp then buf.take ret.toNat else []
  | _ => []

/-- What the calls of a run have read from `pp`, in the order of their completion. -/
def bytesRead (pp : PipeId) (tr : List (Kernel × Event × Option Completion)) : List UInt8 :=
  tr.flatMap fun x => readBytes pp x.2.2

/-- What the calls of a run have written to `pp`, in the order of their completion. -/
def bytesWritten (pp : PipeId) (tr : List (Kernel × Event × Option Completion)) : List UInt8 :=
  tr.flatMap fun x => writtenBytes pp x.2.2

/-- What a step does to the rings: a live one makes the step its history shows; an address
    that has not been handed out has no history, and may only receive a new ring. -/
structure StreamStep (k k' : Kernel) (o : Option Completion) : Prop where
  live : ∀ pp, pp < k.nextPipe →
    RingStep (k.pipes pp).buffer (k'.pipes pp).buffer (readBytes pp o) (writtenBytes pp o)
  unborn : ∀ pp, k.nextPipe ≤ pp → readBytes pp o = [] ∧ writtenBytes pp o = [] ∧
    ((k'.pipes pp).buffer = (k.pipes pp).buffer ∨
      (k'.pipes pp).buffer = ringbufNew pipeBufferSize)

/-- A step that leaves the rings alone and shows no transfer. -/
theorem StreamStep.of_same (hr : ∀ pp, readBytes pp o = []) (hw : ∀ pp, writtenBytes pp o = [])
    (h : ∀ pp, (k'.pipes pp).buffer = (k.pipes pp).buffer) : StreamStep k k' o where
  live pp _ := by
    rw [hr, hw]
    exact .refl (h pp)
  unborn pp _ := ⟨hr pp, hw pp, .inl (h pp)⟩

/-- A call of `pipe_read` by the current process. -/
theorem StreamStep.pipeRead {c : ProcId} {pp : PipeId} {size : Nat}
    {r : Kernel × Option (List UInt8)} (hpp : pp < k.nextPipe) (hc : k.currentProcess = some c)
    (h : pipeRead k c pp size = .ok r) :
    StreamStep k r.1 (r.2.map (Completion.pipeRead pp)) := by
  obtain ⟨hother, hring⟩ := pipeRead_ring hc h
  have hw : ∀ i, writtenBytes i (r.2.map (Completion.pipeRead pp)) = [] := by
    intro i
    cases r.2 <;> rfl
  have hr : ∀ i, i ≠ pp → readBytes i (r.2.map (Completion.pipeRead pp)) = [] := by
    intro i hi
    cases r.2 with
    | none => rfl
    | some bytes => simp [readBytes, Ne.symm hi]
  have hrd : readBytes pp (r.2.map (Completion.pipeRead pp)) = r.2.getD [] := by
    cases r.2 with
    | none => rfl
    | some bytes => simp [readBytes]
  constructor
  · intro i _
    rw [hw]
    by_cases hi : i = pp
    · subst hi
      rwa [hrd]
    · rw [hr i hi]
      exact .refl (hother i hi)
  · intro i hi
    have hne : i ≠ pp := (hpp.trans_le hi).ne'
    exact ⟨hr i hne, hw i, .inl (hother i hne)⟩

/-- A call of `pipe_write` by the current process. -/
theorem StreamStep.pipeWrite {c : ProcId} {pp : PipeId} {buf : List UInt8}
    {r : Kernel × Option Int} (hpp : pp < k.nextPipe) (hc : k.currentProcess = some c)
    (h : pipeWrite k c pp buf = .ok r) :
    StreamStep k r.1 (r.2.map (Completion.pipeWrite pp buf)) := by
  obtain ⟨hother, hring⟩ := pipeWrite_ring hc h
  have hr : ∀ i, readBytes i (r.2.map (Completion.pipeWrite pp buf)) = [] := by
    intro i
    cases r.2 <;> rfl
  have hw : ∀ i, i ≠ pp → writtenBytes i (r.2.map (Completion.pipeWrite pp buf)) = [] := by
    intro i hi
    cases r.2 with
    | none => rfl
    | some n => simp [writtenBytes, Ne.symm hi]
  have hwr : writtenBytes pp (r.2.map (Completion.pipeWrite pp buf)) =
      r.2.elim [] fun n => buf.take n.toNat := by
    cases r.2 with
    | none => rfl
    | some n => simp [writtenBytes]
  constructor
  · intro i _
    rw [hr]
    by_cases hi : i = pp
    · subst hi
      rwa [hwr]
    · rw [hw i hi]
      exact .refl (hother i hi)
  · intro i hi
    have hne : i ≠ pp := (hpp.trans_le hi).ne'
    exact ⟨hr i, hw i hne, .inl (hother i hne)⟩

/-! ### Every step -/

/-- Every other entry leaves the live rings alone. -/
theorem StreamStep.of_does (hb : PipesBorn k) (hr : ∀ pp, readBytes pp o = [])
    (hw : ∀ pp, writtenBytes pp o = []) (hno : ∀ ops pp, ¬ Reaches k e ops pp)
    (h : Does (Origin k e) (.run, k) (.run, k')) : StreamStep k k' o := by
  have hrun := Does.invariant (fun φ k₁ => Born φ k₁ ∧ k.nextPipe ≤ k₁.nextPipe ∧
    ∀ pp, (k₁.pipes pp).buffer = (k.pipes pp).buffer ∨
      (k.nextPipe ≤ pp ∧ (k₁.pipes pp).buffer = ringbufNew pipeBufferSize)) ?_ h
    ⟨hb.born, le_rfl, fun _ => .inl rfl⟩
  · refine ⟨fun pp hpp => ?_, fun pp _ => ⟨hr pp, hw pp, (hrun.2.2 pp).imp id And.right⟩⟩
    rw [hr, hw]
    exact .refl ((hrun.2.2 pp).resolve_right fun hn => absurd hpp (not_lt.mpr hn.1))
  rintro φ k₁ a ψ k₂ ⟨hb₁, hle, hbuf⟩ hC hm
  refine ⟨hb₁.step hm, hle.trans (hm.tableStep hb₁).nextPipe_le, fun pp => ?_⟩
  by_cases hoff : a.offRings
  · rw [hm.buffer hoff]
    exact hbuf pp
  cases hm with
  | newPipe id junk =>
    by_cases hpp : pp = k₁.nextPipe
    · subst hpp
      exact .inr ⟨hle, by simp⟩
    · simpa [hpp] using hbuf pp
  | take q => exact (hno _ _ hC).elim
  | put q => exact (hno _ _ hC).elim
  | _ => exact (hoff trivial).elim

theorem StreamStep.sysRead (hb : PipesBorn k) {fd : Int} {count : Nat} {buf0 : UInt8}
    {r : StepResult} (h : sysRead k fd count buf0 = .ok r) : StreamStep k r.1 r.2 := by
  unfold TpeSo.sysRead withFd at h
  split at h
  · split at h
    · cases h
      exact .of_same (fun _ => rfl) (fun _ => rfl) fun _ => rfl
    · rename_i c hc
      dsimp only [fdRead] at h
      split at h
      · rename_i pp ho hp
        obtain ⟨r₁, hr, hd⟩ := Outcome.bind_eq_ok.mp h
        cases hd
        exact .pipeRead (hb.known.slot (c, _) .pipeRead pp ⟨trivial, ho, hp⟩) hc hr
      · cases h
      · obtain ⟨r₁, hr, hd⟩ := Outcome.bind_eq_ok.mp h
        cases hd
        have hring := (does_readFromKeyboard Routine.offRings.common (Routine.offRings.preempts _) hc
          (fun _ => trivial) hr).buffer
        obtain ⟨k₁, r₁⟩ := r₁
        exact .of_same (fun _ => by cases r₁ <;> rfl) (fun _ => by cases r₁ <;> rfl) hring
      · cases h
        exact .of_same (fun _ => rfl) (fun _ => rfl) fun _ => rfl
  · cases h
    exact .of_same (fun _ => rfl) (fun _ => rfl) fun _ => rfl

theorem StreamStep.sysWrite (hb : PipesBorn k) {fd : Int} {buf : List UInt8} {r : StepResult}
    (h : sysWrite k fd buf = .ok r) : StreamStep k r.1 r.2 := by
  unfold TpeSo.sysWrite withFd at h
  split at h
  · split at h
    · cases h
      exact .of_same (fun _ => rfl) (fun _ => rfl) fun _ => rfl
    · rename_i c hc
      dsimp only [fdWrite] at h
      split at h
      · rename_i pp ho hp
        obtain ⟨r₁, hr, hd⟩ := Outcome.bind_eq_ok.mp h
        cases hd
        exact .pipeWrite (hb.known.slot (c, _) .pipeWrite pp ⟨trivial, ho, hp⟩) hc hr
      · cases h
      all_goals
        cases h
        exact .of_same (fun _ => rfl) (fun _ => rfl) fun _ => rfl
  · cases h
    exact .of_same (fun _ => rfl) (fun _ => rfl) fun _ => rfl

/-- Taking a system call off the kernel stack changes no ring and no address. -/
theorem StreamStep.finish {c : ProcId} {r : StepResult}
    (h : StreamStep { k with kstack := Function.update k.kstack c none } r.1 r.2) :
    StreamStep k r.1 r.2 :=
  ⟨h.live, h.unborn⟩

theorem StreamStep.resume (hb : PipesBorn k) {c : ProcId} {w : Pending} {r : StepResult}
    (hc : k.currentProcess = some c) (hw : k.kstack c = some w) (h : resume k c w = .ok r) :
    StreamStep k r.1 r.2 := by
  have hc' : ({ k with kstack := Function.update k.kstack c none } : Kernel).currentProcess =
      some c := hc
  refine .finish (c := c) ?_
  cases w with
  | yield => cases h; exact .of_same (fun _ => rfl) (fun _ => rfl) fun _ => rfl
  | sleep => cases h; exact .of_same (fun _ => rfl) (fun _ => rfl) fun _ => rfl
  | block => cases h; exact .of_same (fun _ => rfl) (fun _ => rfl) fun _ => rfl
  | exit => cases h
  | semWait id => cases h; exact .of_same (fun _ => rfl) (fun _ => rfl) fun _ => rfl
  | pipeRead pp size =>
    obtain ⟨r₁, hr, he⟩ := Outcome.bind_eq_ok.mp h
    cases he
    exact .pipeRead (hb.stack c _ .pipeRead pp hw rfl) hc' hr
  | pipeWrite pp buf =>
    obtain ⟨r₁, hr, he⟩ := Outcome.bind_eq_ok.mp h
    cases he
    exact .pipeWrite (hb.stack c _ .pipeWrite pp hw rfl) hc' hr
  | waitPid pid =>
    obtain ⟨r₁, hr, he⟩ := Outcome.bind_eq_ok.mp h
    cases he
    have hring := (does_waitPidLoop Routine.offRings.common (Routine.offRings.preempts _) hc'
      trivial hr).buffer
    obtain ⟨k₁, r₁⟩ := r₁
    exact .of_same (fun _ => by cases r₁ <;> rfl) (fun _ => by cases r₁ <;> rfl) hring
  | readLine count buf0 =>
    obtain ⟨r₁, hr, he⟩ := Outcome.bind_eq_ok.mp h
    cases he
    have hring := (does_readLine Routine.offRings.common (Routine.offRings.preempts _) hc'
      (fun _ => trivial) hr).buffer
    obtain ⟨k₁, r₁⟩ := r₁
    exact .of_same (fun _ => by cases r₁ <;> rfl) (fun _ => by cases r₁ <;> rfl) hring

/-- **Every step moves the rings as its result says.** -/
theorem step_stream (hb : PipesBorn k) (hs : step k e = some (k', o)) : StreamStep k k' o := by
  rcases step_eq_some hs with ⟨he, -, h⟩ | ⟨rfl, c, w, hc, hw, h⟩
  · by_cases hrw : (∃ fd count buf0, e = .sysRead fd count buf0) ∨ ∃ fd buf, e = .sysWrite fd buf
    · rcases hrw with ⟨fd, count, buf0, rfl⟩ | ⟨fd, buf, rfl⟩
      · exact .sysRead hb h
      · exact .sysWrite hb h
    · have hsilent : ∀ pp, readBytes pp o = [] ∧ writtenBytes pp o = [] := by
        intro pp
        cases o with
        | none => exact ⟨rfl, rfl⟩
        | some c =>
          have hc : e.completes c := enter_ends k e _ h c rfl
          cases c with
          | pipeRead q bytes =>
            cases e <;> first | exact hc.elim | exact absurd (.inl ⟨_, _, _, rfl⟩) hrw
          | pipeWrite q buf ret =>
            cases e <;> first | exact hc.elim | exact absurd (.inr ⟨_, _, rfl⟩) hrw
          | _ => exact ⟨rfl, rfl⟩
      refine .of_does (e := e) hb (fun pp => (hsilent pp).1) (fun pp => (hsilent pp).2) ?_
        (step_does hs)
      rintro ops pp ⟨c, -, ⟨hio, -⟩ | ⟨hres, -⟩⟩
      · exact hrw hio
      · exact he hres
  · exact .resume hb hc hw h

/-! ### Whole runs -/

/-- **Stream integrity.**  For every pipe, after every run: what the reads have returned, in
    the order they completed, followed by what is still in the ring, is what the writes say
    they have written. -/
theorem pipeStream_run {f : Nat → Bool} {ok : Kernel → Event → Prop}
    {tr : List (Kernel × Event × Option Completion)} (h : Run f ok tr k) (pp : PipeId) :
    bytesRead pp tr ++ contents (k.pipes pp).buffer = bytesWritten pp tr := by
  have hinv := h.invariant_history (fun tr k => PipesBorn k ∧ (k.pipes pp).buffer.Wf ∧
    bytesRead pp tr ++ contents (k.pipes pp).buffer = bytesWritten pp tr ∧
    (k.nextPipe ≤ pp → bytesRead pp tr = [] ∧ bytesWritten pp tr = [])) ?_ ?_
  · exact hinv.2.2.1
  · exact ⟨.boot f, ringbufNew_wf (by decide), contents_ringbufNew pipeBufferSize,
      fun _ => ⟨rfl, rfl⟩⟩
  · rintro tr k e k' o - ⟨hb, hwf, heq, hun⟩ - hs
    have hstream := step_stream hb hs
    obtain ⟨hb', hle⟩ := hb.step hs
    have hrd : bytesRead pp (tr ++ [(k, e, o)]) = bytesRead pp tr ++ readBytes pp o := by
      simp [bytesRead]
    have hwr : bytesWritten pp (tr ++ [(k, e, o)]) = bytesWritten pp tr ++ writtenBytes pp o := by
      simp [bytesWritten]
    refine ⟨hb', ?_⟩
    rw [hrd, hwr]
    by_cases hpp : pp < k.nextPipe
    · obtain ⟨hwf', hstep⟩ := hstream.live pp hpp hwf
      refine ⟨hwf', ?_, fun hn => absurd hpp (not_lt.mpr (hle.trans hn))⟩
      rw [List.append_assoc, hstep, ← List.append_assoc, heq]
    · obtain ⟨hr, hw, hbuf⟩ := hstream.unborn pp (not_lt.mp hpp)
      obtain ⟨hr₀, hw₀⟩ := hun (not_lt.mp hpp)
      have hempty : contents (k.pipes pp).buffer = [] := by
        rw [hr₀, hw₀, List.nil_append] at heq
        exact heq
      rw [hr, hw, hr₀, hw₀]
      rcases hbuf with hbuf | hbuf
      · rw [hbuf]
        exact ⟨hwf, hempty, fun _ => ⟨rfl, rfl⟩⟩
      · rw [hbuf]
        exact ⟨ringbufNew_wf (by decide), contents_ringbufNew pipeBufferSize, fun _ => ⟨rfl, rfl⟩⟩

/-- `idle` opens both ends of a pipe, hands them to a child and waits in `pipe_read`; the
    child writes, `idle` takes up its read and then writes itself. -/
def blockedReadEvents : List Event :=
  [.sysSpawn { entry := some 1, fds := none, background := false },
   .sysSpawn { entry := some 2, fds := none, background := true },
   .timer, .sysPipeCreate [65] [], .sysPipeOpen [65] [] 0, .sysPipeOpen [65] [] 1,
   .sysSpawn { entry := some 3, fds := some fun i => [0, 1, 2, 3, 4].getD i (-1), background := true },
   .sysRead 3 2 0, .timer, .timer, .sysWrite 4 [7, 8, 9], .timer, .timer, .timer, .timer, .resume,
   .sysWrite 4 [10]]

theorem pipeStream_run_blocked : ∃ tr k, Run (fun _ => true) (fun _ _ => True) tr k ∧
    bytesRead 0 tr = [7, 8] ∧ contents (k.pipes 0).buffer = [9, 10] ∧
    bytesRead 0 tr ++ contents (k.pipes 0).buffer = bytesWritten 0 tr := by
  have hcheck : execCheck step (fun _ _ => True)
      (fun tr k => bytesRead 0 tr == [7, 8] && contents (k.pipes 0).buffer == [9, 10])
      (boot fun _ => true) blockedReadEvents = true := by decide +kernel
  obtain ⟨tr, k, hrun, hQ⟩ := Trace.of_execCheck hcheck
  simp only [Bool.and_eq_true, beq_iff_eq] at hQ
  exact ⟨tr, k, hrun, hQ.1, hQ.2, pipeStream_run hrun 0⟩

end TpeSo
