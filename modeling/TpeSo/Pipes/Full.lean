import TpeSo.Pipes.Stream

namespace TpeSo

open Ds Lib

/-!
# Pipes — writing to a full ring

`pipe_write` asks whether the ring holds `PIPE_BUFFER_SIZE` bytes before it lets its caller
wait, while the ring itself keeps one cell unused and so is full one byte earlier.

* `RingsOk`, `ringsOk_run` — the rings of all pipes keep their size and their indices;
* `WriteSound` — what `pipe_write` owes a caller that brings at least one byte;
* `pipeWrite_sound` — it pays as long as the ring has room, and never on a full ring.
-/

variable {φ ψ : Phase} {k k' : Kernel} {c : ProcId} {pp : PipeId} {buf : List UInt8}

/-- The ring of every pipe is one that reads and writes have reached. -/
def RingsOk (k : Kernel) : Prop :=
  ∀ pp, (k.pipes pp).buffer.Wf ∧ (k.pipes pp).buffer.size = pipeBufferSize

/-- An edit of one ring that keeps it in order. -/
theorem RingsOk.setPipe (h : RingsOk k) (pp : PipeId) {f : Pipe → Pipe}
    (hf : (f (k.pipes pp)).buffer.Wf ∧ (f (k.pipes pp)).buffer.size = pipeBufferSize) :
    RingsOk (k.setPipe pp f) := by
  intro i
  by_cases hi : i = pp
  · subst hi
    simpa [Kernel.setPipe] using hf
  · simpa [Kernel.setPipe, hi] using h i

/-- **Every edit keeps the rings in order.** -/
theorem RingsOk.step {a : Act} (h : RingsOk k) (hm : Micro φ k a ψ k') : RingsOk k' := by
  by_cases hoff : a.offRings
  · intro i
    rw [hm.buffer hoff]
    exact h i
  cases hm with
  | newPipe id junk =>
    intro i
    by_cases hi : i = k.nextPipe
    · subst hi
      exact ⟨by simpa using ringbufNew_wf (show 0 < pipeBufferSize by decide), by simp [ringbufNew]⟩
    · simpa [hi] using h i
  | take pp size =>
    obtain ⟨hwf, hsize⟩ := h pp
    obtain ⟨hwf', hsize', -⟩ := ringbufRead_spec size hwf
    exact h.setPipe pp ⟨hwf', hsize'.trans hsize⟩
  | put pp buf =>
    obtain ⟨hwf, hsize⟩ := h pp
    obtain ⟨hwf', hsize', -⟩ := ringbufWrite_spec buf hwf
    exact h.setPipe pp ⟨hwf', hsize'.trans hsize⟩
  | _ => exact (hoff trivial).elim

theorem RingsOk.next {e : Event} {o : Option Completion} (h : RingsOk k)
    (hs : TpeSo.step k e = some (k', o)) : RingsOk k' :=
  Does.invariant (fun _ => RingsOk) (fun _ _ _ _ _ hI _ hm => hI.step hm) (step_does hs) h

/-- The rings are in order after every run. -/
theorem ringsOk_run {f : Nat → Bool} {ok : Kernel → Event → Prop}
    {tr : List (Kernel × Event × Option Completion)} (h : Run f ok tr k) : RingsOk k :=
  h.invariant RingsOk (fun _ => ⟨ringbufNew_wf (by decide), rfl⟩) fun _ _ _ _ hI _ hs => hI.next hs

/-- What a call of `pipe_write` with at least one byte owes its caller `c`, `r` being the
    kernel afterwards and the result, which a caller that waits does not have yet. -/
structure WriteSound (k : Kernel) (c : ProcId) (pp : PipeId) (r : Kernel × Option Int) :
    Prop where
  result : ∀ n, r.2 = some n → 0 < n ∨ n = -ePipe
  waits : (k.pipes pp).buffer.Full → 0 < (k.pipes pp).readers →
    r.2 = none ∧ c ∈ (r.1.pipes pp).writersWaitQueue ∧ (r.1.procs c).status = .blocked
  broken : (k.pipes pp).buffer.Full → (k.pipes pp).readers = 0 → r.2 = some (-ePipe)

/-- On a ring in order the test for waiting fails, and the call writes what fits. -/
theorem pipeWrite_result (h : RingsOk k) {r : Kernel × Option Int}
    (hw : pipeWrite k c pp buf = .ok r) :
    r.2 = some ((ringbufWrite (k.pipes pp).buffer buf).2 : Int) := by
  obtain ⟨k₁, hacq, hw⟩ := Outcome.bind_eq_ok.mp hw
  have hbuf := (Quiet.acquirePipe hacq).buffer pp
  have hlt := ringbufAvailable_lt (h pp).1.live
  rw [(h pp).2] at hlt
  rw [hbuf, if_neg (by omega)] at hw
  cases hw
  rfl

/-- **`pipe_write` is sound exactly on a ring with room.**  In every reachable kernel, a
    call with at least one byte that comes back does what it owes its caller if and only if
    fewer than `PIPE_BUFFER_SIZE - 1` bytes wait to be read. -/
theorem pipeWrite_sound {f : Nat → Bool} {ok : Kernel → Event → Prop}
    {tr : List (Kernel × Event × Option Completion)} (h : Run f ok tr k) (hne : buf ≠ [])
    {r : Kernel × Option Int} (hw : pipeWrite k c pp buf = .ok r) :
    WriteSound k c pp r ↔ ringbufAvailable (k.pipes pp).buffer + 1 < pipeBufferSize := by
  have hring := ringsOk_run h
  have hr := pipeWrite_result hring hw
  obtain ⟨hwf, hsize⟩ := hring pp
  obtain ⟨-, -, -, hcount, -⟩ := ringbufWrite_back buf hwf.live
  have hlt := ringbufAvailable_lt hwf.live
  have hlen := List.length_pos_of_ne_nil hne
  have hfull := full_iff hwf.live
  rw [hsize] at hcount hlt hfull
  constructor
  · intro hsound
    -- on a full ring the call returns `0`
    by_contra hno
    have hzero : (ringbufWrite (k.pipes pp).buffer buf).2 = 0 := by omega
    rw [hzero] at hr
    rcases hsound.result 0 hr with h0 | h0
    · exact absurd h0 (lt_irrefl 0)
    · exact absurd h0 (by decide)
  · intro hroom
    have hnotfull : ¬ (k.pipes pp).buffer.Full := fun hf => by
      have := hfull.mp hf
      omega
    refine ⟨fun n hn => .inl ?_, fun hf => absurd hf hnotfull, fun hf => absurd hf hnotfull⟩
    rw [hr] at hn
    cases hn
    omega

/-- `idle` opens both ends of a pipe. -/
def openBothEvents : List Event :=
  [.sysSpawn { entry := some 1, fds := none, background := false }, .timer,
   .sysPipeOpen [65] [] 0, .sysPipeOpen [65] [] 1]

/-- A write to an empty ring. -/
theorem pipeWrite_sound_empty : ∃ tr k r, Run (fun _ => true) (fun _ _ => True) tr k ∧
    pipeWrite k 0 0 [7] = .ok r ∧ WriteSound k 0 0 r := by
  have hcheck : execCheck step (fun _ _ => True)
      (fun _ k => (pipeWrite k 0 0 [7]).toOption.isSome &&
        decide (ringbufAvailable (k.pipes 0).buffer + 1 < pipeBufferSize))
      (boot fun _ => true) openBothEvents = true := by decide +kernel
  obtain ⟨tr, k, hrun, hQ⟩ := Trace.of_execCheck hcheck
  rw [Bool.and_eq_true, decide_eq_true_eq] at hQ
  obtain ⟨r, hr⟩ := Option.isSome_iff_exists.mp hQ.1
  have hw := Outcome.toOption_eq_some.mp hr
  exact ⟨tr, k, r, hrun, hw, (pipeWrite_sound hrun (by decide) hw).mpr hQ.2⟩

/-- With `1023` bytes waiting and a reader there, a write returns `0`. -/
theorem pipeWrite_not_sound : ∃ tr k r, Run (fun _ => true) (fun _ _ => True) tr k ∧
    0 < (k.pipes 0).readers ∧ pipeWrite k 0 0 [7] = .ok r ∧ r.2 = some 0 ∧
    ¬ WriteSound k 0 0 r := by
  have hcheck : execCheck step (fun _ _ => True)
      (fun _ k => decide (0 < (k.pipes 0).readers) &&
        decide ((pipeWrite k 0 0 [7]).toOption.map (·.2) = some (some 0)))
      (boot fun _ => true) (openBothEvents ++ [.sysWrite 4 (List.replicate 1023 0)]) = true := by
    decide +kernel
  obtain ⟨tr, k, hrun, hQ⟩ := Trace.of_execCheck hcheck
  rw [Bool.and_eq_true, decide_eq_true_eq, decide_eq_true_eq] at hQ
  obtain ⟨r, hr, hzero⟩ := Option.map_eq_some_iff.mp hQ.2
  refine ⟨tr, k, r, hrun, hQ.1, Outcome.toOption_eq_some.mp hr, hzero, fun hsound => ?_⟩
  exact absurd (hsound.result 0 hzero) (by decide)

end TpeSo
