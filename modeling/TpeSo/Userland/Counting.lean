import Mathlib.Tactic.Ring
import TpeSo.Lib.Token
import TpeSo.Userland.SlowInc

namespace TpeSo

open Ds Lib

/-!
# `tests/test_sync.c` — no update of the counter is lost

Between its wait and its post a process is alone, so nobody writes to `global` between its
read and its write.

* `Workload.Holds w s p` — `p` is between a wait that has been granted and its post;
* `Workload.entry_token`, `Workload.entry_counted` — an entry moves the token of the semaphore
  with the process, and leaves the counter alone;
* `Counting w g s` — what holds in every state of a run;
* `no_lost_update` — the statement about whole runs.
-/

variable {w : Workload} {s s' : UserState} {m : Move} {e : Event} {o : Option Completion}
  {t t' : Locals} {p c : ProcId} {g g' g₁ : BitVec 64}

/-! ### One process -/

/-- Between a wait that has been granted and the post. -/
def Line.inside : Line → Prop
  | .wait | .waiting => False
  | _ => True

/-- How often the process has added to the counter. -/
def Locals.written (t : Locals) : Nat := t.i + if t.line = .post then 1 else 0

/-- What `aux` is, when the process is alone. -/
def Locals.Copied (t : Locals) (inc global : BitVec 64) : Prop :=
  match t.line with
  | .yield | .yielding | .add => t.aux = global
  | .write => t.aux = global + inc
  | _ => True

/-- The process keeps to its number of iterations. -/
def Locals.Bounded (t : Locals) (n : Nat) : Prop := t.i ≤ n ∧ (t.line ≠ .wait → t.i < n)

namespace Locals

theorem inside_of_copied (h : ¬ t.line.inside) (inc global : BitVec 64) : t.Copied inc global := by
  unfold Copied
  cases hl : t.line <;> simp_all [Line.inside]

/-- What an entry does to the variables of its process: its line may change, and `i`. -/
theorem advance_cases (t : Locals) (e : Event) (o : Option Completion) :
    t.advance e o = t ∨
    (t.line = .wait ∧ ∃ id, e = .sysSemWait id ∧
      t.advance e o = { t with line := if o.isSome then .read else .waiting }) ∨
    (t.line = .waiting ∧ e = .resume ∧
      t.advance e o = { t with line := if o.isSome then .read else .waiting }) ∨
    ((t.line = .yield ∨ t.line = .yielding) ∧
      t.advance e o = { t with line := if o.isSome then .add else .yielding }) ∨
    (t.line = .post ∧ ∃ id, e = .sysSemPost id ∧
      t.advance e o = { t with i := t.i + 1, line := .wait }) := by
  unfold advance
  split
  · exact .inr (.inl ⟨by assumption, _, rfl, rfl⟩)
  · exact .inr (.inr (.inl ⟨by assumption, rfl, rfl⟩))
  · exact .inr (.inr (.inr (.inl ⟨.inl (by assumption), rfl⟩)))
  · exact .inr (.inr (.inr (.inl ⟨.inr (by assumption), rfl⟩)))
  · exact .inr (.inr (.inr (.inr ⟨by assumption, _, rfl, rfl⟩)))
  · exact .inl rfl

theorem written_advance (t : Locals) (e : Event) (o : Option Completion) :
    (t.advance e o).written = t.written := by
  unfold written
  rcases t.advance_cases e o with he | ⟨hl, -, -, he⟩ | ⟨hl, -, he⟩ | ⟨hl | hl, he⟩ | ⟨hl, -, -, he⟩ <;>
    rw [he]
  all_goals cases o <;> simp [hl]

theorem copied_advance (h : t.Copied g g') (e : Event) (o : Option Completion) :
    (t.advance e o).Copied g g' := by
  unfold Copied at *
  rcases t.advance_cases e o with he | ⟨hl, -, -, he⟩ | ⟨hl, -, he⟩ | ⟨hl | hl, he⟩ | ⟨hl, -, -, he⟩ <;>
    rw [he]
  · exact h
  all_goals
    rw [hl] at h
    cases o <;> trivial

/-- The three statements the kernel does not see. -/
theorem compute_cases (h : t.compute g g' = some (t', g₁)) :
    (t.line = .read ∧ t' = { t with aux := g', line := .yield } ∧ g₁ = g') ∨
    (t.line = .add ∧ t' = { t with aux := t.aux + g, line := .write } ∧ g₁ = g') ∨
    (t.line = .write ∧ t' = { t with line := .post } ∧ g₁ = t.aux) := by
  unfold compute at h
  split at h
  · cases h
    exact .inl ⟨by assumption, rfl, rfl⟩
  · cases h
    exact .inr (.inl ⟨by assumption, rfl, rfl⟩)
  · cases h
    exact .inr (.inr ⟨by assumption, rfl, rfl⟩)
  · cases h

end Locals

/-! ### The token of the semaphore -/

namespace Workload

/-- `p` counts, and has been granted the token: it is about to return from its wait, or it has
    not posted yet. -/
def Holds (w : Workload) (s : UserState) (p : ProcId) : Prop :=
  p ∈ w.procs ∧ (((s.locals p).line = .waiting ∧ ¬ Awaits s.kernel w.sem p) ∨
    (s.locals p).line.inside)

/-- Who stays where it is gets no token while it goes on waiting. -/
theorem Holds.of_same (h : w.Holds s' p) (hl : s'.locals p = s.locals p)
    (ha : Awaits s.kernel w.sem p → Awaits s'.kernel w.sem p) : w.Holds s p := by
  refine ⟨h.1, ?_⟩
  rw [← hl]
  exact h.2.imp (And.imp_right (mt ha)) id

/-- An entry that does not touch the semaphore grants no token. -/
theorem holds_of_offSem (hg : Guarded s.kernel) (hok : SparesOthers s.kernel e)
    (hoff : e.offSem w.sem) (hstep : Step w s o s' (.entry e)) (hp : w.Holds s' p) : w.Holds s p := by
  have hne : e ≠ .sysSemPost w.sem := by
    rintro rfl
    exact hoff rfl
  cases hstep with
  | other hs _ _ hl => exact hp.of_same (by rw [hl]) (hg.awaits hok hs hne)
  | @call _ c hs hc hmem hcall _ hl =>
    by_cases hpc : p = c
    · subst hpc
      rcases (s.locals p).advance_cases e o with he | ⟨-, id, rfl, -⟩ | ⟨hline, -, -⟩ | ⟨hline, -⟩ |
        ⟨-, id, rfl, -⟩
      · refine hp.of_same ?_ (hg.awaits hok hs hne)
        rw [hl, Function.update_self, he]
      · exact absurd hcall.2.2 hoff
      · exact ⟨hmem, .inl ⟨hline, hg.not_awaits hc⟩⟩
      · refine ⟨hmem, .inr ?_⟩
        rcases hline with hline | hline <;> rw [hline] <;> trivial
      · exact absurd hcall.2 hoff
    · refine hp.of_same ?_ (hg.awaits hok hs hne)
      rw [hl, Function.update_of_ne hpc]

/-- **An entry moves the token** with the process it is granted to. -/
theorem entry_token (hg : Guarded s.kernel) (hok : SparesOthers s.kernel e)
    (hopen : semIsOpen s.kernel w.sem = true)
    (h : OneToken (s.kernel.semaphores w.sem).value (w.Holds s))
    (hstep : Step w s o s' (.entry e)) :
    OneToken (s'.kernel.semaphores w.sem).value (w.Holds s') := by
  by_cases hoff : e.offSem w.sem
  · have hvalue : (s'.kernel.semaphores w.sem).value = (s.kernel.semaphores w.sem).value := by
      cases hstep with
      | other hs => exact value_of_watched (step_offSem hs hoff)
      | call hs => exact value_of_watched (step_offSem hs hoff)
    rw [hvalue]
    exact h.mono fun p => holds_of_offSem hg hok hoff hstep
  cases hstep with
  | other _ hoff' => exact absurd hoff' hoff
  | @call _ c hs hc hmem hcall _ hl =>
    have hself : s'.locals c = (s.locals c).advance e o := by
      rw [hl, Function.update_self]
    have hother : ∀ p, p ≠ c → s'.locals p = s.locals p := by
      intro p hp
      rw [hl, Function.update_of_ne hp]
    cases e with
    | sysSemWait id =>
      obtain ⟨hline, -, rfl⟩ := hcall
      have hkeep : ∀ p, p ≠ c → w.Holds s' p → w.Holds s p := fun p hp hp' =>
        hp'.of_same (hother p hp) (hg.awaits hok hs nofun)
      rcases step_semWait hg hopen hc hs with ⟨hv, -, hvalue⟩ | ⟨rfl, hvalue, ha⟩
      · rw [hvalue]
        exact h.take hv fun p hp => or_iff_not_imp_right.mpr fun hpc => hkeep p hpc hp
      · rw [hvalue]
        refine h.mono fun p hp => ?_
        by_cases hpc : p = c
        · subst hpc
          have hwait : (s'.locals p).line = .waiting := by
            simp [hself, Locals.advance, hline]
          rcases hp.2 with ⟨-, hno⟩ | hin
          · exact absurd ha hno
          · rw [hwait] at hin
            exact hin.elim
        · exact hkeep p hpc hp
    | sysSemPost id =>
      obtain ⟨hline, rfl⟩ := hcall
      have hholds : w.Holds s c := ⟨hmem, .inr (by rw [hline]; trivial)⟩
      -- the caller is outside again
      have hout : ¬ w.Holds s' c := by
        have hwait : (s'.locals c).line = .wait := by
          simp [hself, Locals.advance, hline]
        rintro ⟨-, ⟨hw, -⟩ | hin⟩
        · rw [hwait] at hw
          cases hw
        · rw [hwait] at hin
          exact hin.elim
      have hne : ∀ p, w.Holds s' p → p ≠ c := by
        rintro p hp rfl
        exact hout hp
      rcases step_semPost hopen hs with ⟨q, hvalue, hprocs⟩ | ⟨hvalue, hprocs⟩
      · rw [hvalue]
        refine h.pass (q := q) hholds fun p hp => or_iff_not_imp_right.mpr fun hpq => ?_
        exact ⟨hp.of_same (hother p (hne p hp)) fun ha => ha.congr (hprocs p hpq), hne p hp⟩
      · rw [hvalue, h.eq_zero hholds]
        have hput : OneToken ((s.kernel.semaphores w.sem).value + 1) (w.Holds s') :=
          h.put hholds fun p hp =>
            ⟨hp.of_same (hother p (hne p hp)) fun ha => ha.congr (by rw [hprocs]), hne p hp⟩
        rwa [h.eq_zero hholds] at hput
    | _ => first | exact absurd trivial hoff | exact hcall.elim

/-! ### The counter -/

/-- What has been added to the counter. -/
def total (w : Workload) (s : UserState) : BitVec 64 :=
  ∑ p ∈ w.procs, ((s.locals p).written : BitVec 64) * w.inc p

/-- Nothing is added when nobody writes. -/
theorem total_congr (h : ∀ p ∈ w.procs, (s'.locals p).written = (s.locals p).written) :
    w.total s' = w.total s :=
  Finset.sum_congr rfl fun p hp => by rw [h p hp]

/-- `c` writes once more. -/
theorem total_succ (hc : c ∈ w.procs) (hother : ∀ p, p ≠ c → s'.locals p = s.locals p)
    (hself : (s'.locals c).written = (s.locals c).written + 1) :
    w.total s' = w.total s + w.inc c := by
  unfold total
  rw [← Finset.add_sum_erase _ _ hc, ← Finset.add_sum_erase _ _ hc, hself]
  have hrest : ∀ p ∈ w.procs.erase c, ((s'.locals p).written : BitVec 64) * w.inc p =
      ((s.locals p).written : BitVec 64) * w.inc p := by
    intro p hp
    rw [hother p (Finset.ne_of_mem_erase hp)]
  rw [Finset.sum_congr rfl hrest, Nat.cast_succ]
  ring

end Workload

/-- **What holds in every state of a run** that began with `g` in the counter. -/
structure Counting (w : Workload) (g : BitVec 64) (s : UserState) : Prop where
  guarded : Guarded s.kernel
  isOpen : semIsOpen s.kernel w.sem = true
  token : OneToken (s.kernel.semaphores w.sem).value (w.Holds s)
  bounded : ∀ p ∈ w.procs, (s.locals p).Bounded (w.n p)
  copied : ∀ p ∈ w.procs, (s.locals p).Copied (w.inc p) s.global
  counted : s.global = g + w.total s

namespace Counting

/-- An entry keeps a process to its number of iterations. -/
theorem bounded_call (hb : t.Bounded (w.n c)) (hcall : w.Calls c t e) :
    (t.advance e o).Bounded (w.n c) := by
  obtain ⟨hle, hlt⟩ := hb
  rcases t.advance_cases e o with he | ⟨-, id, rfl, he⟩ | ⟨hl, -, he⟩ | ⟨hl, he⟩ | ⟨hl, -, -, he⟩ <;>
    rw [he]
  · exact ⟨hle, hlt⟩
  · exact ⟨hle, fun _ => hcall.2.1⟩
  · exact ⟨hle, fun _ => hlt (by simp [hl])⟩
  · refine ⟨hle, fun _ => hlt ?_⟩
    rcases hl with hl | hl <;> simp [hl]
  · exact ⟨hlt (by simp [hl]), fun hw => absurd rfl hw⟩

/-- **An entry into the kernel.** -/
theorem entry (h : Counting w g s) (hok : w.Ok s (.entry e))
    (hstep : Workload.Step w s o s' (.entry e)) : Counting w g s' := by
  have htoken := Workload.entry_token h.guarded hok.1 h.isOpen h.token hstep
  obtain ⟨hs, hsem, hg, hl⟩ := hstep.of_entry
  refine ⟨h.guarded.others hok.1 hs, ?_, htoken, fun p hp => ?_, fun p hp => ?_, ?_⟩
  · have huse := Bool.and_eq_true_iff.mp h.isOpen
    exact Bool.and_eq_true_iff.mpr ⟨huse.1, step_semInUse hsem hs huse.2⟩
  · rcases hl p with he | ⟨hcall, he⟩ <;> rw [he]
    · exact h.bounded p hp
    · exact bounded_call (h.bounded p hp) hcall
  · rw [hg]
    rcases hl p with he | ⟨-, he⟩ <;> rw [he]
    · exact h.copied p hp
    · exact Locals.copied_advance (h.copied p hp) e o
  · rw [hg, h.counted, Workload.total_congr fun p _ => ?_]
    rcases hl p with he | ⟨-, he⟩ <;> rw [he]
    exact (Locals.written_advance _ e o).symm

/-- **A statement of the program.**  Whoever writes is alone, so the others have nothing
    copied. -/
theorem compute (h : Counting w g s) (hc : c ∈ w.procs) (hk : s'.kernel = s.kernel)
    (ht : (s.locals c).compute (w.inc c) s.global = some (t, s'.global))
    (hl : s'.locals = Function.update s.locals c t) : Counting w g s' := by
  have hself : s'.locals c = t := by
    rw [hl, Function.update_self]
  have hother : ∀ p, p ≠ c → s'.locals p = s.locals p := by
    intro p hp
    rw [hl, Function.update_of_ne hp]
  -- the process is inside before and after
  have hcases := Locals.compute_cases ht
  obtain ⟨hin, hin', hi⟩ : (s.locals c).line.inside ∧ t.line.inside ∧ t.i = (s.locals c).i := by
    rcases hcases with ⟨hline, rfl, -⟩ | ⟨hline, rfl, -⟩ | ⟨hline, rfl, -⟩ <;> rw [hline] <;>
      exact ⟨trivial, trivial, rfl⟩
  have hholds : w.Holds s c := ⟨hc, .inr hin⟩
  have halone : ∀ p ∈ w.procs, p ≠ c → ¬ (s.locals p).line.inside := fun p hp hpc hin =>
    hpc (h.token.alone p c ⟨hp, .inr hin⟩ hholds)
  refine ⟨hk ▸ h.guarded, hk ▸ h.isOpen, ?_, fun p hp => ?_, fun p hp => ?_, ?_⟩
  · rw [hk]
    refine h.token.mono fun p hp => ?_
    by_cases hpc : p = c
    · exact hpc ▸ hholds
    · exact hp.of_same (hother p hpc) fun ha => hk ▸ ha
  · by_cases hpc : p = c
    · subst hpc
      have hline : (s.locals p).line ≠ .wait := by
        intro hw
        rw [hw] at hin
        exact hin
      rw [hself]
      unfold Locals.Bounded
      rw [hi]
      exact ⟨(h.bounded p hp).1, fun _ => (h.bounded p hp).2 hline⟩
    · rw [hother p hpc]
      exact h.bounded p hp
  · by_cases hpc : p = c
    · subst hpc
      have hcopied := h.copied p hp
      rw [hself]
      rcases hcases with ⟨-, rfl, hg⟩ | ⟨hline, rfl, hg⟩ | ⟨-, rfl, -⟩
      · exact hg.symm
      · unfold Locals.Copied at hcopied ⊢
        rw [hline] at hcopied
        show (s.locals p).aux + w.inc p = s'.global + w.inc p
        rw [hg, show (s.locals p).aux = s.global from hcopied]
      · trivial
    · rw [hother p hpc]
      exact Locals.inside_of_copied (halone p hp hpc) _ _
  · -- a read and an addition leave the counter alone
    have hsame : s'.global = s.global → t.written = (s.locals c).written →
        s'.global = g + w.total s' := by
      intro hg hwritten
      rw [hg, h.counted, Workload.total_congr fun p _ => ?_]
      by_cases hpc : p = c
      · rw [hpc, hself, hwritten]
      · rw [hother p hpc]
    rcases hcases with ⟨hline, rfl, hg⟩ | ⟨hline, rfl, hg⟩ | ⟨hline, rfl, hg⟩
    · exact hsame hg (by simp [Locals.written, hline])
    · exact hsame hg (by simp [Locals.written, hline])
    · have hcopied := h.copied c hc
      unfold Locals.Copied at hcopied
      rw [hline] at hcopied
      have hwritten : (s'.locals c).written = (s.locals c).written + 1 := by
        simp [hself, Locals.written, hline]
      rw [hg, show (s.locals c).aux = s.global + w.inc c from hcopied,
        Workload.total_succ hc hother hwritten, h.counted]
      ring

theorem step (h : Counting w g s) (hok : w.Ok s m) (hs : w.next s m = some (s', o)) :
    Counting w g s' := by
  have hstep := Workload.next_cases hok hs
  cases m with
  | entry e => exact h.entry hok hstep
  | compute =>
    cases hstep with
    | compute hc hk ht hl => exact h.compute hc hk ht hl

/-- The semaphore has just been created with one token, and nobody has begun to count. -/
theorem start {k₀ k : Kernel} (hg : Guarded k₀)
    (hs : TpeSo.step k₀ (.sysCreateSem w.sem 1) = some (k, some (.other 0))) :
    Counting w g ⟨k, g, fun _ => {}⟩ := by
  have hspares : SparesOthers k₀ (.sysCreateSem w.sem 1) := ⟨.inl rfl, rfl, nofun⟩
  have hguarded : Guarded k := hg.others hspares hs
  obtain ⟨hopen, hvalue⟩ : semIsOpen k w.sem = true ∧ (k.semaphores w.sem).value = 1 := by
    rcases step_eq_some hs with ⟨-, -, hr⟩ | ⟨he, -⟩
    · simp only [enter, mySemCreate, done] at hr
      split at hr
      · rename_i hid
        split at hr
        · obtain ⟨rfl, -⟩ := Prod.mk.inj (Outcome.ok.inj hr)
          exact ⟨by simp [semIsOpen, hid.1], by simp⟩
        · cases hr
      · cases hr
    · cases he
  have hnobody : ∀ p, ¬ w.Holds ⟨k, g, fun _ => {}⟩ p := by
    rintro p ⟨-, ⟨hline, -⟩ | hin⟩
    · cases hline
    · exact hin
  refine ⟨hguarded, hopen, ?_, fun p _ => ⟨Nat.zero_le _, fun hw => absurd rfl hw⟩, fun _ _ => trivial,
    by simp [Workload.total, Locals.written]⟩
  show OneToken (k.semaphores w.sem).value _
  rw [hvalue]
  exact ⟨le_rfl, fun p _ hp => absurd hp (hnobody p), fun _ => hnobody⟩

end Counting

/-- **No update is lost**: whatever the schedule, when all processes have finished, the counter
    has changed by what they have added. -/
theorem no_lost_update {f : Nat → Bool} {tr₀ : List (Kernel × Event × Option Completion)}
    {tr : List (UserState × Move × Option Completion)} {k₀ k : Kernel}
    (hrun : Run f SparesOthers tr₀ k₀)
    (hcreate : step k₀ (.sysCreateSem w.sem 1) = some (k, some (.other 0)))
    (h : w.Run ⟨k, g, fun _ => {}⟩ tr s) (hdone : ∀ p ∈ w.procs, w.Finished s p) :
    s.global = g + ∑ p ∈ w.procs, (w.n p : BitVec 64) * w.inc p := by
  have hguarded : Guarded k₀ :=
    hrun.invariant Guarded (.boot f) fun _ _ _ _ hg hok hs => hg.others hok hs
  have hI : Counting w g s :=
    h.invariant (Counting w g) (.start hguarded hcreate) fun _ _ _ _ hI hok hs => hI.step hok hs
  rw [hI.counted]
  refine congrArg _ (Finset.sum_congr rfl fun p hp => ?_)
  obtain ⟨hline, hle⟩ := hdone p hp
  have hwritten : (s.locals p).written = w.n p := by
    simp only [Locals.written, hline]
    exact Nat.le_antisymm (hI.bounded p hp).1 hle
  rw [hwritten]

/-- One process adds `1` twice, the other subtracts `1` once. -/
def syncWorkload : Workload where
  procs := {2, 3}
  n p := if p = 2 then 2 else 1
  inc p := if p = 2 then 1 else -1
  sem := 20

/-- The others run in turn, until the process that is to go on is back. -/
def syncTurn : List Move :=
  [.entry .resume, .entry .sysYield, .entry .resume, .entry .sysYield, .entry .resume]

/-- The second process asks for the semaphore while the first is inside, and the first asks
    again while the second is; the second exits while the first waits. -/
def syncMoves : List Move :=
  [.entry (.sysSpawn { entry := some 3, fds := none, background := true }),
   .entry (.sysSpawn { entry := some 3, fds := none, background := true }), .entry .sysYield,
   .entry .resume, .entry .sysYield,
   .entry (.sysSemWait 20), .compute, .entry .sysYield, .entry (.sysSemWait 20)] ++ syncTurn ++
  [.compute, .compute, .entry (.sysSemPost 20), .entry (.sysSemWait 20)] ++ syncTurn ++
  [.compute, .entry .sysYield] ++ syncTurn ++
  [.compute, .compute, .entry (.sysSemPost 20), .entry (.sysExit 0)] ++ syncTurn ++
  [.compute, .entry .sysYield] ++ syncTurn ++ [.compute, .compute, .entry (.sysSemPost 20)]

/-- From here the semaphore is created, and the two count to the end. -/
def syncCounts (k : Kernel) : Bool :=
  match step k (.sysCreateSem 20 1) with
  | some (k, some (.other 0)) => execCheck syncWorkload.next syncWorkload.Ok
      (fun _ s => decide (∀ p ∈ syncWorkload.procs, syncWorkload.Finished s p) && s.global == 6)
      ⟨k, 5, fun _ => {}⟩ syncMoves
  | _ => false

theorem no_lost_update_sync : ∃ tr₀ k₀ k tr s, Run (fun _ => true) SparesOthers tr₀ k₀ ∧
    step k₀ (.sysCreateSem 20 1) = some (k, some (.other 0)) ∧
    syncWorkload.Run ⟨k, 5, fun _ => {}⟩ tr s ∧ s.global = 6 ∧
    s.global = 5 + ∑ p ∈ syncWorkload.procs, (syncWorkload.n p : BitVec 64) * syncWorkload.inc p := by
  have hcheck : execCheck step SparesOthers (fun _ k => syncCounts k) (boot fun _ => true)
      [.sysSpawn { entry := some 1, fds := none, background := true },
       .sysSpawn { entry := some 2, fds := none, background := true }, .timer, .sysYield] = true := by
    decide +kernel
  obtain ⟨tr₀, k₀, hrun, hQ⟩ := Trace.of_execCheck hcheck
  unfold syncCounts at hQ
  split at hQ
  · rename_i k hcreate
    obtain ⟨tr, s, hrun', hQ⟩ := Trace.of_execCheck hQ
    obtain ⟨hdone, hglobal⟩ := Bool.and_eq_true_iff.mp hQ
    exact ⟨tr₀, k₀, k, tr, s, hrun, hcreate, hrun', beq_iff_eq.mp hglobal,
      no_lost_update hrun hcreate hrun' (of_decide_eq_true hdone)⟩
  · cases hQ

end TpeSo
