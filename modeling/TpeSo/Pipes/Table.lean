import TpeSo.Acts.Store
import TpeSo.Sched.Born

namespace TpeSo

open Ds Lib

/-!
# Pipes — the table of descriptors as a machine of its own

* `FdEntry.refers`, `FdEntry.Typed` — what a slot refers to, and that its type agrees;
* `TableStep a s s'` — the edits of the store, without the processes and queues around
  them;
* `Micro.tableStep` — **every edit of the kernel is one of them**, so that an invariant of
  the store is shown kept by every run by showing it kept by `TableStep`.
-/

variable {φ ψ : Phase} {k k' : Kernel}

/-! ### Slots that refer to a pipe -/

instance : DecidablePred FileOps.isPipe := fun ops => by
  rcases ops with ⟨⟩ <;> dsimp only [FileOps.isPipe] <;> infer_instance

instance (e : FdEntry) (ops : FileOps) (pp : PipeId) : Decidable (e.refers ops pp) :=
  inferInstanceAs (Decidable (_ ∧ _ ∧ _))

namespace FdEntry

variable {e : FdEntry} {ops ops' : FileOps} {pp pp' : PipeId}

theorem refers_unique (h : e.refers ops pp) (h' : e.refers ops' pp') : ops' = ops ∧ pp' = pp :=
  ⟨Option.some.inj (h'.2.1.symm.trans h.2.1), Option.some.inj (h'.2.2.symm.trans h.2.2)⟩

theorem not_refers_empty : ¬ ({} : FdEntry).refers ops pp := fun h => nomatch h.2.1

theorem not_refers_terminal :
    ¬ ({ ops := some ops, type := .terminal } : FdEntry).refers ops' pp := fun h => nomatch h.2.2

theorem refers_pipeEntry (hops : ops.isPipe) : (pipeEntry pp ops).refers ops pp :=
  ⟨hops, rfl, rfl⟩

/-- The type of a slot agrees with what it refers to. -/
structure Typed (e : FdEntry) : Prop where
  none : e.type = .none → ∀ ops pp, ¬ e.refers ops pp
  pipe : e.type = .pipe → ∃ ops pp, e.refers ops pp

theorem Typed.empty : Typed {} := ⟨fun _ _ _ => not_refers_empty, nofun⟩

theorem Typed.terminal (ops : FileOps) : Typed { ops := some ops, type := .terminal } :=
  ⟨nofun, nofun⟩

theorem Typed.pipeEntry (pp : PipeId) (hops : ops.isPipe) : Typed (pipeEntry pp ops) :=
  ⟨nofun, fun _ => ⟨ops, pp, refers_pipeEntry hops⟩⟩

end FdEntry

/-! ### The counters -/

namespace Store

variable {s : Store}

theorem refs_setRefs (s : Store) {ops : FileOps} (hops : ops.isPipe) (pp : PipeId) (f : Nat → Nat)
    (ops' : FileOps) (pp' : PipeId) :
    (s.setRefs ops pp f).refs ops' pp' =
      if ops' = ops ∧ pp' = pp then f (s.refs ops pp) else s.refs ops' pp' := by
  by_cases hp : pp' = pp
  · subst hp
    cases ops <;> cases ops' <;> first | exact hops.elim | simp [setRefs, refs, setPipe]
  · cases ops <;> cases ops' <;> first | exact hops.elim | simp [setRefs, refs, setPipe, hp]

@[simp] theorem setRefs_slot (ops : FileOps) (pp : PipeId) (f : Nat → Nat) :
    (s.setRefs ops pp f).slot = s.slot := by
  cases ops <;> rfl

@[simp] theorem setRefs_nextProc (ops : FileOps) (pp : PipeId) (f : Nat → Nat) :
    (s.setRefs ops pp f).nextProc = s.nextProc := by
  cases ops <;> rfl

@[simp] theorem setRefs_nextPipe (ops : FileOps) (pp : PipeId) (f : Nat → Nat) :
    (s.setRefs ops pp f).nextPipe = s.nextPipe := by
  cases ops <;> rfl

theorem setPipe_spares {β : Type} (g : PipeBody → β) {f : PipeBody → PipeBody} {pp : PipeId}
    (h : g (f (s.pipe pp)) = g (s.pipe pp)) (i : PipeId) :
    g ((s.setPipe pp f).pipe i) = g (s.pipe i) := by
  by_cases hi : i = pp
  · subst hi
    simp [setPipe, h]
  · simp [setPipe, hi]

@[simp] theorem setRefs_freed (ops : FileOps) (pp : PipeId) (f : Nat → Nat) (i : PipeId) :
    ((s.setRefs ops pp f).pipe i).freed = (s.pipe i).freed := by
  unfold Store.setRefs
  cases ops with
  | pipeRead => exact setPipe_spares PipeBody.freed rfl i
  | pipeWrite => exact setPipe_spares PipeBody.freed rfl i
  | _ => rfl

@[simp] theorem setRefs_buffer (ops : FileOps) (pp : PipeId) (f : Nat → Nat) (i : PipeId) :
    ((s.setRefs ops pp f).pipe i).buffer = (s.pipe i).buffer := by
  unfold Store.setRefs
  cases ops with
  | pipeRead => exact setPipe_spares PipeBody.buffer rfl i
  | pipeWrite => exact setPipe_spares PipeBody.buffer rfl i
  | _ => rfl

@[simp] theorem setRefs_inUse (ops : FileOps) (pp : PipeId) (f : Nat → Nat) (i : PipeId) :
    ((s.setRefs ops pp f).pipe i).inUse = (s.pipe i).inUse := by
  unfold Store.setRefs
  cases ops with
  | pipeRead => exact setPipe_spares PipeBody.inUse rfl i
  | pipeWrite => exact setPipe_spares PipeBody.inUse rfl i
  | _ => rfl

end Store

/-! ### The edits -/

theorem fdAddRef_of_refers {e : FdEntry} {ops : FileOps} {pp : PipeId} (h : e.refers ops pp)
    (k : Kernel) : fdAddRef k e = addRef k ops pp := by
  obtain ⟨hops, ho, hr⟩ := h
  cases ops <;> first | exact hops.elim | simp only [fdAddRef, ho, hr, addRef]

theorem fdAddRef_of_not_refers {e : FdEntry} (h : ∀ ops pp, ¬ e.refers ops pp) (k : Kernel) :
    fdAddRef k e = k := by
  unfold fdAddRef
  split
  · rename_i pp ho hr
    exact (h .pipeRead pp ⟨trivial, ho, hr⟩).elim
  · rename_i pp ho hr
    exact (h .pipeWrite pp ⟨trivial, ho, hr⟩).elim
  · rfl

theorem Store.setSlot_setRefs (s : Store) (x : ProcId × Fin fdMax) (e : FdEntry) (ops : FileOps)
    (pp : PipeId) (f : Nat → Nat) :
    (s.setRefs ops pp f).setSlot x e = (s.setSlot x e).setRefs ops pp f := by
  cases ops <;> rfl

/-- The edits of the store.  Only a release by name goes without a check. -/
inductive TableStep : Act → Store → Store → Prop where
  | same {a s} : TableStep a s s
  | sem {a s} (id : Nat) (f : SemBody → SemBody) : TableStep a s (s.setSem id f)
  | newProc {a s} : TableStep a s { s with
      nextProc := s.nextProc + 1
      slot := fun x => if x.1 = s.nextProc then {} else s.slot x }
  | fill {a s x e} (hx : x.1 < s.nextProc) (hold : (s.slot x).type = .none)
      (he : (∃ y, s.slot y = e) ∨ e.Typed) (hnew : ∀ ops pp, ¬ e.refers ops pp) :
      TableStep a s (s.setSlot x e)
  | refer {a s x e ops pp} (hx : x.1 < s.nextProc) (hold : (s.slot x).type = .none)
      (hr : e.refers ops pp) (he : (∃ y, s.slot y = e) ∨ (e.Typed ∧ (s.pipe pp).inUse = true)) :
      TableStep a s ((s.setSlot x e).setRefs ops pp (· + 1))
  | drop {a s x ops pp} (hr : (s.slot x).refers ops pp) :
      TableStep a s ((s.setSlot x {}).setRefs ops pp (· - 1))
  | clear {a s x} (hr : ∀ ops pp, ¬ (s.slot x).refers ops pp) : TableStep a s (s.setSlot x {})
  | free {a s pp} (hr : (s.pipe pp).readers = 0) (hw : (s.pipe pp).writers = 0) :
      TableStep a s (s.free pp)
  | freeNamed {s pp} : TableStep (.freeNamed pp) s (s.free pp)
  | newPipe {s} : TableStep (.newPipe s.nextPipe) s { s with
      nextPipe := s.nextPipe + 1
      pipe := Function.update s.pipe s.nextPipe ⟨ringbufNew pipeBufferSize, 0, 0, true, false⟩ }
  | take {s} (pp : PipeId) (size : Nat) : TableStep (.take pp) s
      (s.setPipe pp fun q => { q with buffer := (ringbufRead q.buffer size).1 })
  | put {s} (pp : PipeId) (buf : List UInt8) : TableStep (.put pp) s
      (s.setPipe pp fun q => { q with buffer := (ringbufWrite q.buffer buf).1 })

/-- A child inherits a descriptor. -/
theorem tableStep_inherit {p q : ProcId} (hp : p < k.nextProc) {i : Fin fdMax}
    (hi : (k.procs p).fds i = {}) (j : Fin fdMax) :
    TableStep .inherit k.store
      (setFd (fdAddRef k ((k.procs q).fds j)) p i ((k.procs q).fds j)).store := by
  have hold : (k.store.slot (p, i)).type = .none := by
    show ((k.procs p).fds i).type = .none
    rw [hi]
  rw [store_setFd]
  by_cases hr : ∃ ops pp, ((k.procs q).fds j).refers ops pp
  · obtain ⟨ops, pp, hr⟩ := hr
    rw [fdAddRef_of_refers hr, store_addRef, Store.setSlot_setRefs]
    exact .refer hp hold hr (.inl ⟨(q, j), rfl⟩)
  · rw [fdAddRef_of_not_refers fun ops pp hr' => hr ⟨ops, pp, hr'⟩]
    exact .fill hp hold (.inl ⟨(q, j), rfl⟩) fun ops pp hr' => hr ⟨ops, pp, hr'⟩

/-- **Every edit of the kernel is an edit of the store.** -/
theorem Micro.tableStep {a : Act} (hb : Born φ k) (hm : Micro φ k a ψ k') :
    TableStep a k.store k'.store := by
  by_cases ha : a.offStore
  · rw [hm.store ha]
    exact .same
  cases hm with
  | semCreate =>
    rw [store_setSem_body (g := fun _ => ⟨_, true⟩) k _ rfl]
    exact .sem _ _
  | semDestroy id =>
    rw [store_setSem_body (g := fun b => { b with inUse := false }) k _ rfl]
    exact .sem _ _
  | semTake =>
    rw [store_setSem_body (g := fun b => { b with value := b.value - 1 }) k _ rfl]
    exact .sem _ _
  | semInc =>
    rw [store_setSem_body (g := fun b => { b with value := (b.value + 1) % word }) _ _ rfl,
      store_popWaiter]
    exact .sem _ _
  | newProc =>
    rw [store_newProc]
    exact .newProc
  | inherit j _ hi => exact tableStep_inherit (hb.setup _ _ rfl) hi j
  | @setTerminal p _ _ i ops _ hi =>
    rw [store_setFd]
    refine .fill (hb.setup _ _ rfl) ?_ (.inr (.terminal ops)) fun _ _ => FdEntry.not_refers_terminal
    show ((k.procs p).fds i).type = .none
    rw [hi]
  | newPipe id junk =>
    rw [store_newPipe]
    exact TableStep.newPipe (s := k.store)
  | @openRef _ c i pp ops hc hi hu hops =>
    rw [store_addRef, store_setFd]
    exact .refer (hb.current c hc) hi (FdEntry.refers_pipeEntry hops)
      (.inr ⟨.pipeEntry pp hops, hu⟩)
  | @dropRef _ _ p i ops pp _ he =>
    rw [store_subRef, store_setFd]
    exact .drop (x := (p, i)) he
  | @clearSlot _ _ p i _ he =>
    rw [store_setFd]
    exact .clear (x := (p, i)) he
  | freeUnref _ hr hw =>
    rw [store_pipeFree]
    exact .free hr hw
  | freeNamed =>
    rw [store_pipeFree]
    exact .freeNamed
  | take pp size =>
    rw [store_setPipe_body (g := fun q => { q with buffer := (ringbufRead q.buffer size).1 }) k pp
      rfl]
    exact .take pp size
  | put pp buf =>
    rw [store_setPipe_body (g := fun q => { q with buffer := (ringbufWrite q.buffer buf).1 }) k pp
      rfl]
    exact .put pp buf
  | _ => exact (ha trivial).elim

end TpeSo
