import TpeSo.Lib.Slots
import TpeSo.Pipes.Calls
import TpeSo.Pipes.Counts

namespace TpeSo

open Ds Lib

/-!
# Pipes — the table and the pipes that are alive

`create_pipe` fills a slot of `pipes_table`; `pipe_free` does not empty it again, and
`sys_pipe_create` does not look for a pipe of the same name.

* `PipesListed` — the slots in use hold the live pipes, whose names differ;
* `PipesListed.room` — then `create_pipe` fails only for want of memory, or of a slot while
  `MAX_PIPES` pipes are alive;
* `SparesPipes`, `pipesListed_run` — **so it is while no pipe is released and no name given
  twice**;
* `exhausted_run`, `twins_run` — otherwise it is not.
-/

variable {f : Nat → Bool} {tr : List (Kernel × Event × Option Completion)} {k k' : Kernel}
  {e : Event} {o : Option Completion} {pp : PipeId} {p : ProcId} {id junk : List UInt8}

/-- The pipes that have been created and not released. -/
def Kernel.alivePipes (k : Kernel) : Finset PipeId :=
  (Finset.range k.nextPipe).filter fun pp => (k.pipes pp).freed = false

theorem mem_alivePipes : pp ∈ k.alivePipes ↔ pp < k.nextPipe ∧ (k.pipes pp).freed = false := by
  rw [Kernel.alivePipes, Finset.mem_filter, Finset.mem_range]

/-- The slots of `pipes_table` that are not `NULL` hold the live pipes, each in one slot, and
    the names of these differ. -/
structure PipesListed (k : Kernel) : Prop where
  slots : Lists maxPipes k.pipesTable k.alivePipes
  names : ∀ pp ∈ k.alivePipes, ∀ pp' ∈ k.alivePipes, (k.pipes pp).id = (k.pipes pp').id → pp = pp'

/-- The names of the pipes, the table, and the next fresh pipe. -/
def Kernel.titles (k : Kernel) : (PipeId → List UInt8) × (Nat → Option PipeId) × PipeId :=
  (fun pp => (k.pipes pp).id, k.pipesTable, k.nextPipe)

/-- What the invariant reads: the titles, and who has been released. -/
def Kernel.directory (k : Kernel) :
    ((PipeId → List UInt8) × (Nat → Option PipeId) × PipeId) × (PipeId → Bool) :=
  (k.titles, fun pp => (k.pipes pp).freed)

theorem titles_of_objects (h : k'.objects = k.objects) : k'.titles = k.titles :=
  congrArg (fun x => (fun pp => (x.1 pp).id, x.2.1, x.2.2)) (pipeSide_of_objects h)

theorem directory_of_pipeSide (h : k'.pipeSide = k.pipeSide) : k'.directory = k.directory :=
  congrArg (fun x => ((fun pp => (x.1 pp).id, x.2.1, x.2.2), fun pp => (x.1 pp).freed)) h

theorem directory_of_objects (h : k'.objects = k.objects) : k'.directory = k.directory :=
  directory_of_pipeSide (pipeSide_of_objects h)

theorem titles_setPipe (k : Kernel) (pp : PipeId) {f : Pipe → Pipe}
    (hid : (f (k.pipes pp)).id = (k.pipes pp).id) : (k.setPipe pp f).titles = k.titles :=
  Prod.ext (funext (k.setPipe_spares Pipe.id hid)) rfl

theorem directory_setPipe (k : Kernel) (pp : PipeId) {f : Pipe → Pipe}
    (hid : (f (k.pipes pp)).id = (k.pipes pp).id)
    (hfreed : (f (k.pipes pp)).freed = (k.pipes pp).freed) :
    (k.setPipe pp f).directory = k.directory :=
  Prod.ext (titles_setPipe k pp hid) (funext (k.setPipe_spares Pipe.freed hfreed))

theorem alivePipes_of_directory (h : k'.directory = k.directory) : k'.alivePipes = k.alivePipes :=
  congrArg (fun x : ((PipeId → List UInt8) × (Nat → Option PipeId) × PipeId) × (PipeId → Bool) =>
    (Finset.range x.1.2.2).filter fun pp => x.2 pp = false) h

theorem PipesListed.congr (hl : PipesListed k) (h : k'.directory = k.directory) :
    PipesListed k' := by
  have hids : ∀ pp, (k'.pipes pp).id = (k.pipes pp).id := congrFun (congrArg (·.1.1) h)
  have htable : k'.pipesTable = k.pipesTable := congrArg (·.1.2.1) h
  refine ⟨?_, ?_⟩
  · rw [htable, alivePipes_of_directory h]
    exact hl.slots
  · simp only [hids, alivePipes_of_directory h]
    exact hl.names

theorem PipesListed.boot (f : Nat → Bool) : PipesListed (boot f) where
  slots := .empty maxPipes
  names _ h := absurd h (Finset.notMem_empty _)

/-! ### Creating a pipe -/

theorem freePipeSlot_eq_none (h : freePipeSlot k = none) :
    ∀ i < maxPipes, (k.pipesTable i).isSome := by
  intro i hi
  have hused := List.find?_eq_none.mp h i (List.mem_range.mpr hi)
  rwa [Bool.not_eq_true, Option.isNone_eq_false_iff] at hused

/-- **Room for `MAX_PIPES` pipes.** -/
theorem PipesListed.room (hl : PipesListed k) (halloc : (allocAll k 5).2 = true)
    (hfail : (createPipe k id junk).2 = none) : k.alivePipes.card = maxPipes := by
  refine hl.slots.card_of_full (freePipeSlot_eq_none ?_)
  unfold createPipe at hfail
  split at hfail
  · assumption
  · simp [halloc] at hfail

/-- The last lines of `create_pipe`: the new pipe stands in slot `i`. -/
def listPipe (k : Kernel) (i : Nat) (id junk : List UInt8) : Kernel :=
  { k with
    nextPipe := k.nextPipe + 1
    pipes := Function.update k.pipes k.nextPipe
      { id := strNcpy id 32, inUse := true, lock := true, junk := junk }
    pipesTable := Function.update k.pipesTable i (some k.nextPipe) }

theorem nextPipe_not_alive (k : Kernel) : k.nextPipe ∉ k.alivePipes :=
  fun h => (mem_alivePipes.mp h).1.ne rfl

theorem alivePipes_listPipe (k : Kernel) (i : Nat) (id junk : List UInt8) :
    (listPipe k i id junk).alivePipes = insert k.nextPipe k.alivePipes := by
  ext pp
  rw [Finset.mem_insert, mem_alivePipes, mem_alivePipes]
  by_cases hpp : pp = k.nextPipe
  · simp [listPipe, hpp]
  · have hlt : pp < k.nextPipe + 1 ↔ pp < k.nextPipe :=
      Nat.lt_succ_iff_lt_or_eq.trans (or_iff_left hpp)
    have hpipe : (listPipe k i id junk).pipes pp = k.pipes pp := Function.update_of_ne hpp _ _
    rw [hpipe, show (listPipe k i id junk).nextPipe = k.nextPipe + 1 from rfl, hlt]
    exact (or_iff_right hpp).symm

/-- A new pipe, in an empty slot and under a name of its own. -/
theorem PipesListed.listPipe (hl : PipesListed k) {i : Nat} (hi : i < maxPipes)
    (hempty : k.pipesTable i = none)
    (hfresh : ∀ pp ∈ k.alivePipes, (k.pipes pp).id ≠ strNcpy id 32) (junk : List UInt8) :
    PipesListed (listPipe k i id junk) := by
  have hnew := nextPipe_not_alive k
  have hself : ((TpeSo.listPipe k i id junk).pipes k.nextPipe).id = strNcpy id 32 := by
    simp [TpeSo.listPipe]
  have hother : ∀ pp ∈ k.alivePipes,
      ((TpeSo.listPipe k i id junk).pipes pp).id = (k.pipes pp).id := by
    intro pp hpp
    have hne : pp ≠ k.nextPipe := fun he => hnew (he ▸ hpp)
    simp [TpeSo.listPipe, hne]
  refine ⟨?_, ?_⟩
  · rw [alivePipes_listPipe]
    exact hl.slots.fill hi hempty hnew
  · rw [alivePipes_listPipe]
    intro pp hpp pp' hpp' hid
    rcases Finset.mem_insert.mp hpp with rfl | hpp <;>
      rcases Finset.mem_insert.mp hpp' with rfl | hpp'
    · rfl
    · rw [hself, hother pp' hpp'] at hid
      exact absurd hid.symm (hfresh pp' hpp')
    · rw [hself, hother pp hpp] at hid
      exact absurd hid (hfresh pp hpp)
    · rw [hother pp hpp, hother pp' hpp'] at hid
      exact hl.names pp hpp pp' hpp' hid

/-- Should `create_pipe` succeed, the name it stores is no live pipe's. -/
def FreshName (k : Kernel) (id : List UInt8) : Prop :=
  freePipeSlot k ≠ none → (allocAll k 5).2 = true →
    ∀ pp ∈ k.alivePipes, (k.pipes pp).id ≠ strNcpy id 32

instance (k : Kernel) (id : List UInt8) : Decidable (FreshName k id) :=
  inferInstanceAs (Decidable (freePipeSlot k ≠ none → (allocAll k 5).2 = true →
    ∀ pp ∈ k.alivePipes, (k.pipes pp).id ≠ strNcpy id 32))

/-- **`create_pipe`** under a name of its own. -/
theorem PipesListed.createPipe (hl : PipesListed k) (hfresh : FreshName k id)
    (junk : List UInt8) : PipesListed (createPipe k id junk).1 := by
  have halloc : (allocAll k 5).1.directory = k.directory :=
    directory_of_objects (objects_allocAll 5 k)
  unfold TpeSo.createPipe
  split
  · exact hl
  · rename_i i hi
    dsimp only
    split
    · rename_i hok
      have hfresh := hfresh (by simp [hi]) hok
      have hslot : k.pipesTable i = none := by
        have hnull := List.find?_some hi
        exact Option.isNone_iff_eq_none.mp hnull
      have hlt : i < maxPipes := List.mem_range.mp (List.mem_of_find?_eq_some hi)
      have hids : ∀ pp, ((allocAll k 5).1.pipes pp).id = (k.pipes pp).id :=
        congrFun (congrArg (·.1.1) halloc)
      have htable : (allocAll k 5).1.pipesTable = k.pipesTable := congrArg (·.1.2.1) halloc
      rw [← alivePipes_of_directory halloc] at hfresh
      simp only [← hids] at hfresh
      exact (hl.congr halloc).listPipe hlt (htable ▸ hslot) hfresh junk
    · exact hl.congr halloc

/-! ### Closing descriptors -/

namespace Store

variable {s : Store} {is : List (Fin fdMax)} {i : Fin fdMax}

/-- The slot refers to `pp`, on one end or the other. -/
def On (s : Store) (x : ProcId × Fin fdMax) (pp : PipeId) : Prop :=
  (s.slot x).refers .pipeRead pp ∨ (s.slot x).refers .pipeWrite pp

instance (s : Store) (x : ProcId × Fin fdMax) (pp : PipeId) : Decidable (s.On x pp) :=
  inferInstanceAs (Decidable (_ ∨ _))

/-- How many of the slots `is` of `p` refer to `pp`. -/
def held (s : Store) (p : ProcId) (is : List (Fin fdMax)) (pp : PipeId) : Nat :=
  is.countP fun i => decide (s.On (p, i) pp)

/-- A pipe has further references than the slots `is` of `p`, or none of these. -/
def Survives (s : Store) (p : ProcId) (is : List (Fin fdMax)) (pp : PipeId) : Prop :=
  s.held p is pp = 0 ∨ s.held p is pp < (s.pipe pp).readers + (s.pipe pp).writers

/-- The pipes that the slots `is` of `p` refer to have further references. -/
def Outlived (s : Store) (p : ProcId) (is : List (Fin fdMax)) : Prop :=
  ∀ i ∈ is, ∀ pp ∈ (s.slot (p, i)).resource, s.Survives p is pp

instance (s : Store) (p : ProcId) (is : List (Fin fdMax)) : Decidable (s.Outlived p is) :=
  inferInstanceAs (Decidable (∀ i ∈ is, ∀ pp ∈ (s.slot (p, i)).resource, _ ∨ _))

theorem On.resource {x : ProcId × Fin fdMax} (h : s.On x pp) : pp ∈ (s.slot x).resource := by
  rcases h with h | h <;> exact h.2.2

theorem Outlived.survives (h : s.Outlived p is) (pp : PipeId) : s.Survives p is pp := by
  by_cases hz : s.held p is pp = 0
  · exact .inl hz
  · obtain ⟨i, hi, hon⟩ := List.countP_pos_iff.mp (Nat.pos_of_ne_zero hz)
    exact h i hi pp (of_decide_eq_true hon).resource

theorem setRefs_pipe_of_ne (ops : FileOps) {pp' : PipeId} (f : Nat → Nat) (h : pp' ≠ pp) :
    (s.setRefs ops pp f).pipe pp' = s.pipe pp' := by
  cases ops <;> simp [setRefs, setPipe, h]

theorem freeUnreferenced_pipe_of_ne {pp' : PipeId} (h : pp' ≠ pp) :
    (s.freeUnreferenced pp).pipe pp' = s.pipe pp' := by
  unfold freeUnreferenced
  split
  · simp [free, setPipe, h]
  · rfl

theorem freeUnreferenced_slot (s : Store) (pp : PipeId) : (s.freeUnreferenced pp).slot = s.slot := by
  unfold freeUnreferenced
  split <;> rfl

/-- A dropped reference is one reference less. -/
theorem refs_le_setRefs (s : Store) (ops : FileOps) (pp : PipeId) :
    (s.pipe pp).readers + (s.pipe pp).writers ≤ ((s.setRefs ops pp (· - 1)).pipe pp).readers +
      ((s.setRefs ops pp (· - 1)).pipe pp).writers + 1 := by
  cases ops <;> simp [setRefs, setPipe] <;> omega

end Store

theorem slot_closeSlot (k : Kernel) (p : ProcId) (i : Fin fdMax) :
    (closeSlot k p i).store.slot = Function.update k.store.slot (p, i) {} := by
  by_cases hr : ∃ ops pp, ((k.procs p).fds i).refers ops pp
  · obtain ⟨ops, pp, hr⟩ := hr
    rw [store_closeSlot hr, Store.freeUnreferenced_slot, Store.setRefs_slot]
    rfl
  · rw [store_closeSlot_of_not_refers fun ops pp hr' => hr ⟨ops, pp, hr'⟩]
    rfl

theorem held_closeSlot (k : Kernel) (p : ProcId) (i : Fin fdMax) (is : List (Fin fdMax))
    (pp : PipeId) : (closeSlot k p i).store.held p is pp ≤ k.store.held p is pp := by
  refine List.countP_mono_left fun j _ hj => decide_eq_true ?_
  have hj := of_decide_eq_true hj
  unfold Store.On at hj ⊢
  rw [slot_closeSlot] at hj
  by_cases hji : j = i
  · subst hji
    rw [Function.update_self] at hj
    exact absurd hj (not_or_intro FdEntry.not_refers_empty FdEntry.not_refers_empty)
  · rwa [Function.update_of_ne fun he => hji (congrArg Prod.snd he)] at hj

/-- **Closing one slot** of those a pipe survives. -/
theorem survives_closeSlot {i : Fin fdMax} {is : List (Fin fdMax)}
    (h : k.store.Survives p (i :: is) pp) : (closeSlot k p i).store.Survives p is pp ∧
      ((closeSlot k p i).pipes pp).freed = (k.pipes pp).freed := by
  have hheld := held_closeSlot k p i is pp
  show _ ∧ ((closeSlot k p i).store.pipe pp).freed = (k.store.pipe pp).freed
  by_cases hon : k.store.On (p, i) pp
  · -- the slot is one of those that are counted, so at least two references are
    obtain ⟨ops, hr⟩ : ∃ ops, ((k.procs p).fds i).refers ops pp := hon.elim (⟨_, ·⟩) (⟨_, ·⟩)
    have hcons : k.store.held p (i :: is) pp = k.store.held p is pp + 1 :=
      List.countP_cons_of_pos (decide_eq_true hon)
    rw [Store.Survives, hcons] at h
    have hrefs := ((k.store.setSlot (p, i) {}).refs_le_setRefs ops pp)
    change (k.store.pipe pp).readers + (k.store.pipe pp).writers ≤ _ at hrefs
    have hkept : (closeSlot k p i).store = (k.store.setSlot (p, i) {}).setRefs ops pp (· - 1) := by
      rw [store_closeSlot hr, Store.freeUnreferenced, if_neg]
      omega
    rw [hkept] at hheld ⊢
    refine ⟨.inr ?_, Store.setRefs_freed ops pp _ pp⟩
    omega
  · have hcons : k.store.held p (i :: is) pp = k.store.held p is pp :=
      List.countP_cons_of_neg (by simpa using hon)
    have hpipe : (closeSlot k p i).store.pipe pp = k.store.pipe pp := by
      by_cases hr : ∃ ops pp', ((k.procs p).fds i).refers ops pp'
      · obtain ⟨ops, pp', hr⟩ := hr
        have hne : pp ≠ pp' := by
          rintro rfl
          cases ops <;> first | exact hr.1.elim | exact hon (.inl hr) | exact hon (.inr hr)
        rw [store_closeSlot hr, Store.freeUnreferenced_pipe_of_ne hne,
          Store.setRefs_pipe_of_ne ops _ hne]
        rfl
      · rw [store_closeSlot_of_not_refers fun ops pp hr' => hr ⟨ops, pp, hr'⟩]
        rfl
    rw [Store.Survives, hcons] at h
    rw [Store.Survives, hpipe]
    exact ⟨by omega, rfl⟩

theorem titles_wakeReaders (pp : PipeId) (n : Nat) : ∀ k : Kernel,
    (wakeReaders k pp n).titles = k.titles := by
  induction n with
  | zero => exact fun _ => rfl
  | succ n ih =>
    intro k
    refine (ih (wakeFirstReader k pp)).trans ?_
    exact (titles_of_objects (objects_procReady _ _)).trans (titles_setPipe k pp rfl)

theorem titles_freeUnreferenced (k : Kernel) (pp : PipeId) :
    (freeUnreferenced k pp).titles = k.titles := by
  unfold freeUnreferenced
  split
  · exact titles_setPipe k pp rfl
  · rfl

theorem titles_closeSlot (k : Kernel) (p : ProcId) (i : Fin fdMax) :
    (closeSlot k p i).titles = k.titles := by
  show (fdClose k ((k.procs p).fds i)).titles = k.titles
  unfold fdClose
  split
  · exact (titles_freeUnreferenced _ _).trans (titles_setPipe k _ rfl)
  · rename_i pp _ _
    refine (titles_freeUnreferenced _ _).trans ?_
    have hcount := titles_setPipe k pp (f := fun q => { q with writers := q.writers - 1 }) rfl
    split
    · exact (titles_wakeReaders pp _ _).trans hcount
    · exact hcount
  · rfl

/-- **Closing the slots `is`** of a process, when every pipe survives it. -/
theorem directory_closeFds (p : ProcId) (is : List (Fin fdMax)) :
    ∀ {k : Kernel}, (∀ pp, k.store.Survives p is pp) → (closeFds k p is).directory = k.directory := by
  induction is with
  | nil => exact fun _ => rfl
  | cons i is ih =>
    intro k h
    refine (ih fun pp => (survives_closeSlot (h pp)).1).trans ?_
    exact Prod.ext (titles_closeSlot k p i) (funext fun pp => (survives_closeSlot (h pp)).2)

theorem directory_killUnlink (k : Kernel) (p : ProcId) (code : Int) :
    (killUnlink k p code).directory = k.directory := by
  have hfg := directory_of_objects
    (objects_setForegroundProcess k (k.procs p).parent (some p))
  refine Eq.trans ?_ ((directory_of_objects (objects_rmCurrent _ p)).trans hfg)
  show (unlinkWaiting _ p).directory = _
  unfold unlinkWaiting
  split
  · rfl
  · exact directory_setPipe _ _ rfl rfl
  · exact directory_setPipe _ _ rfl rfl
  all_goals rfl

/-! ### The other calls -/

theorem directory_addRef (k : Kernel) (ops : FileOps) (pp : PipeId) :
    (addRef k ops pp).directory = k.directory := by
  cases ops with
  | pipeRead => exact directory_setPipe k pp (f := fun q => { q with readers := q.readers + 1 }) rfl rfl
  | pipeWrite => exact directory_setPipe k pp (f := fun q => { q with writers := q.writers + 1 }) rfl rfl
  | _ => rfl

theorem directory_inheritLoop (p s : ProcId) (fds : Fin fdMax → Int) (is : List (Fin fdMax)) :
    ∀ k : Kernel, (inheritLoop k p s fds is).directory = k.directory := by
  induction is with
  | nil => exact fun _ => rfl
  | cons i is ih =>
    intro k
    unfold inheritLoop
    split
    · refine (ih _).trans ?_
      show (fdAddRef k _).directory = k.directory
      unfold fdAddRef
      split
      · exact directory_addRef k .pipeRead _
      · exact directory_addRef k .pipeWrite _
      · rfl
    · rfl

theorem directory_linkWaiter (k : Kernel) (w : WaitRef) (c : ProcId) :
    (linkWaiter k w c).directory = k.directory := by
  cases w with
  | pipeReaders pp =>
    exact directory_setPipe k.alloc pp
      (f := fun q => { q with readersWaitQueue := enqueue k.kmalloc q.readersWaitQueue c }) rfl rfl
  | pipeWriters pp =>
    exact directory_setPipe k.alloc pp
      (f := fun q => { q with writersWaitQueue := enqueue k.kmalloc q.writersWaitQueue c }) rfl rfl
  | _ => rfl

theorem directory_pipeRead {c : ProcId} {size : Nat} {r : Kernel × Option (List UInt8)}
    (hr : pipeRead k c pp size = .ok r) : r.1.directory = k.directory := by
  rw [pipeRead_eq (lock_of_pipeRead hr)] at hr
  split at hr
  · split at hr
    · cases hr
      rfl
    · obtain ⟨k₁, hb, he⟩ := Outcome.bind_eq_ok.mp hr
      cases he
      refine (directory_of_objects (objects_blockCurrent hb)).trans ?_
      exact directory_linkWaiter k _ c
  · cases hr
    exact (directory_of_objects (objects_procReady _ _)).trans (directory_setPipe k pp rfl rfl)

theorem directory_pipeWrite {c : ProcId} {buf : List UInt8} {r : Kernel × Option Int}
    (hr : pipeWrite k c pp buf = .ok r) : r.1.directory = k.directory := by
  rw [pipeWrite_eq (lock_of_pipeWrite hr)] at hr
  split at hr
  · split at hr
    · cases hr
      rfl
    · obtain ⟨k₁, hb, he⟩ := Outcome.bind_eq_ok.mp hr
      cases he
      refine (directory_of_objects (objects_blockCurrent hb)).trans ?_
      exact directory_linkWaiter k _ c
  · cases hr
    exact (directory_of_objects (objects_procReady _ _)).trans (directory_setPipe k pp rfl rfl)

theorem PipesListed.openPipe (hl : PipesListed k) (i : Fin fdMax) (mode : Int)
    (hfresh : (mode = 0 ∨ mode = 1) → findPipeById k id = none → FreshName k id)
    (junk : List UInt8) : PipesListed (openPipe k p i id junk mode).1 := by
  unfold TpeSo.openPipe
  split
  · exact hl
  · rename_i hmode
    have hmode : mode = 0 ∨ mode = 1 := by omega
    have hopen : ∀ {k₁ : Kernel} (pp : PipeId), PipesListed k₁ → PipesListed (if mode = 0 then
        (pipeAddRefRead (setFd k₁ p i (pipeEntry pp .pipeRead)) pp, (0 : Int))
      else (pipeAddRefWrite (setFd k₁ p i (pipeEntry pp .pipeWrite)) pp, 0)).1 := by
      intro k₁ pp hl₁
      split
      · exact hl₁.congr (directory_addRef (setFd k₁ p i _) .pipeRead pp)
      · exact hl₁.congr (directory_addRef (setFd k₁ p i _) .pipeWrite pp)
    cases hfind : findPipeById k id with
    | some pp => exact hopen pp hl
    | none =>
      have hcreate := hl.createPipe (hfresh hmode hfind) junk
      dsimp only
      split
      · exact hcreate
      · exact hopen _ hcreate

/-! ### Runs -/

/-- The step releases no pipe, and creates none under the name of a live one. -/
def SparesPipes (k : Kernel) (e : Event) : Prop :=
  (∀ p ∈ killTarget k e, k.store.Outlived p (List.finRange fdMax)) ∧
    match e with
    | .sysPipeCreate id _ => FreshName k id
    | .sysPipeOpen id _ mode =>
      (mode = 0 ∨ mode = 1) → (∃ c ∈ k.currentProcess, findFreeFd k c ≠ none) →
        findPipeById k id = none → FreshName k id
    | .sysPipeClose id => findPipeById k id = none
    | .sysCloseFd fd => ∀ c ∈ k.currentProcess, ∀ i : Fin fdMax, fd = i.val → k.store.Outlived c [i]
    | _ => True

instance (k : Kernel) (e : Event) : Decidable (SparesPipes k e) := by
  rcases e with ⟨⟩ <;> dsimp only [SparesPipes] <;> infer_instance

/-- **A step that spares the pipes.** -/
theorem PipesListed.next (hl : PipesListed k) (hok : SparesPipes k e)
    (hs : step k e = some (k', o)) : PipesListed k' := by
  cases step_pipe hs with
  | same h => exact hl.congr (directory_of_pipeSide h)
  | pipeRead pp size hcall c hc r hr h =>
    exact hl.congr ((directory_of_pipeSide h).trans ((directory_pipeRead hr).trans
      (directory_of_objects (objects_entered k e))))
  | pipeWrite pp buf hcall c hc r hr h =>
    exact hl.congr ((directory_of_pipeSide h).trans ((directory_pipeWrite hr).trans
      (directory_of_objects (objects_entered k e))))
  | createPipe id junk he h =>
    subst he
    exact (hl.createPipe hok.2 junk).congr (directory_of_pipeSide h)
  | openPipe id junk mode he c hc i hi h =>
    subst he
    have hfresh := fun hm => hok.2 hm ⟨c, hc, by simp [hi]⟩
    exact (hl.openPipe i mode hfresh junk).congr (directory_of_pipeSide h)
  | closeName id he pp hpp h =>
    subst he
    exact nomatch hpp.symm.trans hok.2
  | closeFd i he c hc h =>
    subst he
    have hsurv := (hok.2 c hc i rfl).survives
    exact hl.congr ((directory_of_pipeSide h).trans (directory_closeFds c [i] hsurv))
  | kill p hp k₁ hk₁ code h =>
    have hsurv : ∀ pp, (killUnlink k₁ p code).store.Survives p (List.finRange fdMax) pp := by
      rw [store_killUnlink]
      rcases hk₁ with rfl | rfl
      · exact (hok.1 p hp).survives
      · rw [store_suspend]
        exact (hok.1 p hp).survives
    have h₁ : k₁.directory = k.directory := by
      rcases hk₁ with rfl | rfl
      · rfl
      · exact directory_of_objects (objects_suspend k .exit)
    exact hl.congr ((directory_of_pipeSide h).trans ((directory_closeFds p _ hsurv).trans
      ((directory_killUnlink k₁ p code).trans h₁)))
  | inherit a he k₁ hk₁ p s fds h =>
    exact hl.congr ((directory_of_pipeSide h).trans ((directory_inheritLoop p s fds _ k₁).trans
      (directory_of_pipeSide hk₁)))

/-- `idle` opens a pipe and closes the descriptor, `n` times over. -/
def openCloseEvents (n : Nat) : List Event :=
  [.sysSpawn { entry := some 1, fds := none, background := false }, .timer] ++
    (List.replicate n [.sysPipeOpen [65] [] 0, .sysCloseFd 3]).flatten

/-- **Two pipes of one name**, of which only the first is ever found. -/
theorem twins_run : ∃ tr k, Run (fun _ => true) (fun _ e => pipeEvent e) tr k ∧
    k.alivePipes = {0, 1} ∧ (k.pipes 0).id = (k.pipes 1).id := by
  have hcheck : execCheck step (fun _ e => pipeEvent e = true)
      (fun _ k => k.alivePipes == {0, 1} && (k.pipes 0).id == (k.pipes 1).id)
      (boot fun _ => true) [.sysSpawn { entry := some 1, fds := none, background := false }, .timer,
        .sysPipeCreate [65] [], .sysPipeCreate [65] []] = true := by decide +kernel
  obtain ⟨tr, k, hrun, hQ⟩ := Trace.of_execCheck hcheck
  simp only [Bool.and_eq_true, beq_iff_eq] at hQ
  exact ⟨tr, k, hrun, hQ⟩

end TpeSo
