import TpeSo.Family.Census
import TpeSo.Timer.DueSleepers

namespace TpeSo

open Ds Lib Family

/-!
# Family — process ids that come from outside

Five system calls narrow their 64-bit argument to a `pid_t` and index the process table with the
result, which nothing compares with the size of the table.

* `Listed k x` — `x` is the id of a process in the table;
* `Contained k e x` — what the call `e` is to do with the argument `x`: read no place outside the
  table, and refuse an `x` that is not listed;
* `StaysInTable k e` — when it does;
* `procKill_ne_fault`, `waitPidLoop_fault` — what comes behind the first look-up stays inside the
  table by itself, but for the sleepers that a switch wakes;
* `pidArgs_contained_iff` — in every reachable kernel the two are the same, and a later round of
  `wait_pid` goes outside the table through a sleeper only.
-/

variable {f : Nat → Bool} {k k' : Kernel} {e : Event} {p c : ProcId} {x n : Int}
  {tr : List (Kernel × Event × Option Completion)}

/-- `x` is the id of a process in the table. -/
def Listed (k : Kernel) (x : Int) : Prop := ∃ i p, k.processTable i = some p ∧ (k.procs p).pid = x

/-- The process id that a call is given. -/
def Event.pidArg : Event → Option Int
  | .sysKillProc x | .sysChangePriority x _ | .sysBlock x | .sysUnblock x | .sysWaitPid x => some x
  | _ => none

/-- `wait_pid(-1)` names no process: it waits for any child. -/
def Event.anyChild : Event → Prop
  | .sysWaitPid x => x = -1
  | _ => False

/-- A negative result, and no exit status stored. -/
def Completion.negative : Completion → Prop
  | .other ret => ret < 0
  | .waitPid ret exitStatus => ret < 0 ∧ exitStatus = none
  | _ => False

/-- The call returns a negative value and changes nothing. -/
def Refuses (k : Kernel) (e : Event) : Prop := ∃ r, enter k e = .ok (k, some r) ∧ r.negative

/-- **What the call is to do.** -/
structure Contained (k : Kernel) (e : Event) (x : Int) : Prop where
  inside : enter k e ≠ .fault
  stranger : ¬ Listed k x → ¬ e.anyChild → Refuses k e

/-! ### The condition -/

/-- The narrowed argument is a place of the table, and the process found there meets `P`. -/
def Lands (k : Kernel) (x : Int) (P : ProcId → Prop) : Prop :=
  (0 ≤ toPid x ∧ toPid x < maxProcesses) ∧ ∀ p, k.processTable (toPid x).toNat = some p → P p

/-- `change_priority` refuses `p`, or the priority. -/
def PriorityRefused (k : Kernel) (p : ProcId) (prio : Int) : Prop :=
  (k.procs p).parent ≠ k.currentProcess ∨ prio % 256 = 0 ∨ quantumMax < (prio % 256).toNat

/-- A round of `wait_pid` finds nothing to wait for. -/
def RoundRefuses (k : Kernel) (c : ProcId) (n : Int) : Prop :=
  n ≠ -1 ∧ (n ∈ (k.procs c).children → k.processTable n.toNat = none)

/-- A round of `wait_pid` blocks the caller: whom it waits for is not a zombie yet. -/
def RoundBlocks (k : Kernel) (c : ProcId) (n : Int) : Prop :=
  if n = -1 then
    ∀ y ∈ (k.procs c).children, ∀ z, k.processTable y.toNat = some z → (k.procs z).status ≠ .zombie
  else n ∈ (k.procs c).children ∧
    ∃ z, k.processTable n.toNat = some z ∧ (k.procs z).status ≠ .zombie

/-- **When a call keeps to the table.**  Whoever it finds must be the process that the whole
    argument names, unless the call refuses it anyway; and a caller that is switched out must not
    leave a sleeper from outside the table to the timer interrupt. -/
def StaysInTable (k : Kernel) : Event → Prop
  | .sysKillProc x => x = 0 ∨ x = 1 ∨ Lands k x fun _ => toPid x = x
  | .sysChangePriority x prio => Lands k x fun p => toPid x = x ∨ PriorityRefused k p prio
  | .sysBlock x => Lands k x fun p =>
      (k.procs p).status = .zombie ∨ (k.procs p).status = .dead ∨
        (toPid x = x ∧ ((k.procs p).status = .blocked ∨ blocksItself k p = false ∨ DueInside k))
  | .sysUnblock x => Lands k x fun _ => toPid x = x
  | .sysWaitPid x => ∃ c, k.currentProcess = some c ∧ ((k.procs c).children = [] ∨
      ((RoundRefuses k c (toPid x) ∨ toPid x = x) ∧ (RoundBlocks k c (toPid x) → DueInside k)))
  | _ => True

/-! ### Narrowing and looking up -/

theorem toPid_small (h : 0 ≤ x ∧ x < maxProcesses) : toPid x = x := by
  obtain ⟨h0, h1⟩ := h
  have hlt : x < 64 := h1
  exact Int.bmod_eq_of_le (by omega) (by omega)

theorem Census.listed_iff (h : Census .run k) :
    Listed k x ↔ (0 ≤ x ∧ x < maxProcesses) ∧ k.processTable x.toNat ≠ none := by
  constructor
  · rintro ⟨i, p, hi, rfl⟩
    obtain ⟨hr, hpid, -⟩ := h.table i p hi
    rw [hpid, Int.toNat_natCast, hi]
    exact ⟨⟨by omega, by omega⟩, by simp⟩
  · rintro ⟨⟨h0, -⟩, hslot⟩
    obtain ⟨p, hp⟩ := Option.ne_none_iff_exists'.mp hslot
    exact ⟨_, p, hp, (h.table _ p hp).2.1.trans (Int.toNat_of_nonneg h0)⟩

/-- With somebody found under the narrowed argument, the argument is listed when narrowing did
    not change it. -/
theorem Census.listed_iff_toPid (h : Census .run k)
    (hin : 0 ≤ toPid x ∧ toPid x < maxProcesses) (hp : k.processTable (toPid x).toNat = some p) :
    Listed k x ↔ toPid x = x := by
  rw [h.listed_iff]
  constructor
  · exact fun hx => toPid_small hx.1
  · intro hx
    rw [hx] at hin hp
    exact ⟨hin, by simp [hp]⟩

/-- Found under the narrowed argument, the process has it for its id. -/
theorem Census.pid_toPid (h : Census .run k) (hin : 0 ≤ n ∧ n < maxProcesses)
    (hp : k.processTable n.toNat = some p) : (k.procs p).pid = n :=
  (h.table _ p hp).2.1.trans (Int.toNat_of_nonneg hin.1)

/-- A call that found somebody is contained when it comes back, and refuses unless the whole
    argument names who was found. -/
theorem Census.contained_iff (h : Census .run k) (hany : ¬ e.anyChild)
    (hin : 0 ≤ toPid x ∧ toPid x < maxProcesses) (hp : k.processTable (toPid x).toNat = some p) :
    Contained k e x ↔ enter k e ≠ .fault ∧ (toPid x = x ∨ Refuses k e) := by
  have hlisted := h.listed_iff_toPid hin hp
  constructor
  · rintro ⟨hinside, hstranger⟩
    refine ⟨hinside, ?_⟩
    by_cases hx : toPid x = x
    · exact .inl hx
    · exact .inr (hstranger (fun hl => hx (hlisted.mp hl)) hany)
  · rintro ⟨hinside, hx | hrefuse⟩
    · exact ⟨hinside, fun hl => absurd (hlisted.mpr hx) hl⟩
    · exact ⟨hinside, fun _ _ => hrefuse⟩

theorem Refuses.of_done {ret : Int} (h : enter k e = done k ret) (hneg : ret < 0) : Refuses k e :=
  ⟨.other ret, h, hneg⟩

theorem done_ne_fault {o : Outcome (Kernel × Option Completion)} {ret : Int}
    (h : o = done k ret) : o ≠ .fault := by
  rw [h]
  exact fun h => nomatch h

/-- A call that returns `0` does not refuse. -/
theorem not_refuses_of_done (h : enter k e = done k' 0) : ¬ Refuses k e := by
  rintro ⟨r, hr, hneg⟩
  have hret : (k', some (.other 0)) = (k, some r) := Outcome.ok.inj (h.symm.trans hr)
  obtain rfl := Option.some.inj (Prod.mk.inj hret).2
  exact Int.lt_irrefl 0 hneg

theorem Refuses.ne_fault (h : Refuses k e) : enter k e ≠ .fault := by
  obtain ⟨r, hr, -⟩ := h
  rw [hr]
  exact fun h => nomatch h

/-- **One look-up.**  A call that starts with the look-up goes wrong outside the table, refuses
    at an empty place, and else depends on the process found. -/
theorem contained_iff_lands {P : ProcId → Prop}
    (hout : ¬ (0 ≤ toPid x ∧ toPid x < maxProcesses) → enter k e = .fault)
    (hnone : (0 ≤ toPid x ∧ toPid x < maxProcesses) → k.processTable (toPid x).toNat = none →
      Refuses k e)
    (hsome : ∀ p, (0 ≤ toPid x ∧ toPid x < maxProcesses) →
      k.processTable (toPid x).toNat = some p → (Contained k e x ↔ P p)) :
    Contained k e x ↔ Lands k x P := by
  by_cases hin : 0 ≤ toPid x ∧ toPid x < maxProcesses
  · cases hslot : k.processTable (toPid x).toNat with
    | none =>
      have hrefuse := hnone hin hslot
      refine iff_of_true ⟨hrefuse.ne_fault, fun _ _ => hrefuse⟩ ⟨hin, fun p hp => ?_⟩
      rw [hslot] at hp
      cases hp
    | some p =>
      refine (hsome p hin hslot).trans ⟨fun hP => ⟨hin, fun q hq => ?_⟩, fun hP => hP.2 p hslot⟩
      rw [hslot] at hq
      cases hq
      exact hP
  · exact iff_of_false (fun hc => hc.inside (hout hin)) fun hl => hin hl.1

/-! ### `sys_kill_proc` -/

/-- `reparent_to_init` of places of the table. -/
theorem reparentAll_ne_fault (pids : List Int) : ∀ k : Kernel,
    (∀ y ∈ pids, 0 ≤ y ∧ y < maxProcesses) → k.processTable 1 ≠ none →
      reparentAll k pids ≠ .fault := by
  induction pids with
  | nil => exact fun _ _ _ h => nomatch h
  | cons y rest ih =>
    intro k hids hinit
    have hrest : ∀ z ∈ rest, 0 ≤ z ∧ z < maxProcesses := fun z hz => hids z (.tail _ hz)
    unfold reparentAll
    rw [getProcByPid_inside (hids y (.head _)), Outcome.ok_bind]
    cases k.processTable y.toNat with
    | none => exact ih k hrest hinit
    | some child =>
      obtain ⟨i, hi⟩ := Option.ne_none_iff_exists'.mp hinit
      refine Outcome.bind_ne_fault (fun hr => ?_) fun k₁ hr => ih k₁ hrest ?_
      · unfold reparentToInit at hr
        rw [hi] at hr
        dsimp only at hr
        split at hr <;> cases hr
      · obtain ⟨i', -, hrep⟩ := reparentToInit_eq_ok (family_reparentToInit hr)
        have htable : k₁.processTable = k.processTable := hrep.table
        rwa [htable]

theorem killNotify_ne_fault (hpid : 0 ≤ (k.procs p).pid ∧ (k.procs p).pid < maxProcesses) :
    killNotify k p ≠ .fault := by
  unfold killNotify procReap
  split
  · dsimp only
    rw [if_pos hpid]
    exact fun h => nomatch h
  · split <;> exact fun h => nomatch h

/-- **A kill reads the table inside**: the victim has a place above `init`'s, `init` is there to
    take the children, and the ids of children are places of the table. -/
theorem procKill_ne_fault {code : Int} (hcensus : Census .run k) (hroot : Rooted k)
    (hids : ChildIds k) (hin : 1 < n ∧ n < maxProcesses)
    (hp : k.processTable n.toNat = some p) : procKill k (some p) code ≠ .fault := by
  have hpid := hcensus.pid_toPid ⟨by omega, hin.2⟩ hp
  have hnot : ¬ ((k.procs p).pid = 0 ∨ (k.procs p).pid = 1) := by
    rw [hpid]
    omega
  have hinit : k.processTable 1 ≠ none := hroot n.toNat (by omega) (by simp [hp])
  have hfam : (closeFds (killUnlink k p code) p (List.finRange fdMax)).family =
      k.family.setForeground (k.procs p).parent (some p) :=
    (family_closeFds p _ _).trans (family_killUnlink k p code)
  have ht := k.family.sameTree_setForeground (k.procs p).parent (some p)
  rw [← hfam] at ht
  generalize hk₁ : closeFds (killUnlink k p code) p (List.finRange fdMax) = k₁ at ht
  have htable : k₁.processTable = k.processTable := ht.table
  have hchildren : (k₁.procs p).children = (k.procs p).children := ht.children p
  have hpid₁ : (k₁.procs p).pid = n := (ht.pid p).trans hpid
  unfold procKill
  dsimp only
  rw [if_neg hnot, hk₁]
  refine Outcome.bind_ne_fault ?_ fun k₂ hall => killNotify_ne_fault ?_
  · refine reparentAll_ne_fault _ k₁ (fun y hy => ?_) (htable ▸ hinit)
    rw [hchildren] at hy
    exact hids p y hy
  · have hpid₂ : (k₂.procs p).pid = (k₁.procs p).pid :=
      congrArg Prod.fst (congrFun (remains_reparentAll _ hall) p)
    rw [hpid₂, hpid₁]
    exact ⟨by omega, hin.2⟩

theorem contained_kill (hcensus : Census .run k) (hroot : Rooted k) (hids : ChildIds k) :
    Contained k (.sysKillProc x) x ↔ StaysInTable k (.sysKillProc x) := by
  show _ ↔ x = 0 ∨ x = 1 ∨ Lands k x fun _ => toPid x = x
  by_cases hx : x = 0 ∨ x = 1
  · have hrefuse : Refuses k (.sysKillProc x) :=
      .of_done (if_pos hx) (by decide)
    exact iff_of_true ⟨hrefuse.ne_fault, fun _ _ => hrefuse⟩ (hx.imp_right .inl)
  have henter : enter k (.sysKillProc x) = sysKillProc k x := rfl
  rw [← or_assoc, or_iff_right hx]
  refine contained_iff_lands (fun hout => ?_) (fun hin hslot => ?_) fun p hin hp => ?_
  · rw [henter, sysKillProc, if_neg hx, getProcByPid_fault.mpr hout]
    rfl
  · refine Refuses.of_done (?_ : _ = done k (-eSrch)) (by decide)
    rw [henter, sysKillProc, if_neg hx, getProcByPid_inside hin, hslot]
    rfl
  · rw [hcensus.contained_iff id hin hp]
    have hval : enter k (.sysKillProc x) =
        (procKill k (some p) (128 + 9) >>= fun k => done k 0) := by
      rw [henter, sysKillProc, if_neg hx, getProcByPid_inside hin, hp]
      rfl
    constructor
    · rintro ⟨-, hsame | ⟨r, hr, hneg⟩⟩
      · exact hsame
      · obtain ⟨k₁, hk, -⟩ := Outcome.bind_eq_ok.mp (hval.symm.trans hr)
        have hdone : enter k (.sysKillProc x) = done k₁ 0 := by
          rw [hval, hk]
          rfl
        exact absurd ⟨r, hr, hneg⟩ (not_refuses_of_done hdone)
    · intro hsame
      rw [hsame] at hin hp
      have habove : 1 < x := by
        have h0 := hin.1
        rw [not_or] at hx
        omega
      refine ⟨?_, .inl hsame⟩
      rw [hval]
      exact Outcome.bind_ne_fault (procKill_ne_fault hcensus hroot hids ⟨habove, hin.2⟩ hp)
        fun _ _ => done_ne_fault rfl

/-! ### `sys_change_priority`, `sys_unblock`, `sys_block` -/

theorem changePriority_refused {prio : Int} (h : PriorityRefused k p prio) :
    changePriority k (some p) prio = (k, -1) := by
  unfold changePriority
  dsimp only
  split
  · rfl
  · rename_i hparent
    refine if_pos ((h.resolve_left hparent).imp_left fun h0 => ?_)
    rw [h0]
    rfl

theorem changePriority_granted {prio : Int} (h : ¬ PriorityRefused k p prio) :
    (changePriority k (some p) prio).2 = 0 := by
  unfold PriorityRefused at h
  unfold changePriority
  dsimp only
  rw [if_neg fun hparent => h (.inl hparent), if_neg]
  exact fun hprio => h (.inr (hprio.imp_left fun h0 => by omega))

theorem contained_changePriority (hcensus : Census .run k) {prio : Int} :
    Contained k (.sysChangePriority x prio) x ↔ StaysInTable k (.sysChangePriority x prio) := by
  have henter : enter k (.sysChangePriority x prio) = (getProcByPid k (toPid x) >>= fun p =>
      done (changePriority k p prio).1 (changePriority k p prio).2) := rfl
  refine contained_iff_lands (fun hout => ?_) (fun hin hslot => ?_) fun p hin hp => ?_
  · rw [henter, getProcByPid_fault.mpr hout]
    rfl
  · refine Refuses.of_done (?_ : _ = done k (-1)) (by decide)
    rw [henter, getProcByPid_inside hin, hslot]
    rfl
  · rw [hcensus.contained_iff id hin hp]
    have hval : enter k (.sysChangePriority x prio) =
        done (changePriority k (some p) prio).1 (changePriority k (some p) prio).2 := by
      rw [henter, getProcByPid_inside hin, hp]
      rfl
    rw [and_iff_right (done_ne_fault hval)]
    refine or_congr_right ?_
    by_cases hrefused : PriorityRefused k p prio
    · rw [changePriority_refused hrefused] at hval
      exact iff_of_true (.of_done hval (Int.negSucc_lt_zero 0)) hrefused
    · rw [changePriority_granted hrefused] at hval
      exact iff_of_false (not_refuses_of_done hval) hrefused

theorem contained_unblock (hcensus : Census .run k) :
    Contained k (.sysUnblock x) x ↔ StaysInTable k (.sysUnblock x) := by
  have henter : enter k (.sysUnblock x) = (unblockProcessByPid k (toPid x) >>= fun r =>
      done r.1 r.2) := rfl
  refine contained_iff_lands (fun hout => ?_) (fun hin hslot => ?_) fun p hin hp => ?_
  · rw [henter, unblockProcessByPid, getProcByPid_fault.mpr hout]
    rfl
  · refine Refuses.of_done (?_ : _ = done k (-1)) (by decide)
    rw [henter, unblockProcessByPid, getProcByPid_inside hin, hslot]
    rfl
  · rw [hcensus.contained_iff id hin hp]
    have hval : ∃ k', enter k (.sysUnblock x) = done k' 0 := by
      rw [henter, unblockProcessByPid, getProcByPid_inside hin, hp, Outcome.ok_bind]
      dsimp only
      split <;> exact ⟨_, rfl⟩
    obtain ⟨k', hval⟩ := hval
    rw [or_iff_left (not_refuses_of_done hval)]
    exact and_iff_right (done_ne_fault hval)

theorem contained_block (hcensus : Census .run k) :
    Contained k (.sysBlock x) x ↔ StaysInTable k (.sysBlock x) := by
  have henter : enter k (.sysBlock x) = (blockProcessByPid k (toPid x) >>= fun r =>
      .ok (r.1, r.2.map Completion.other)) := rfl
  refine contained_iff_lands (fun hout => ?_) (fun hin hslot => ?_) fun p hin hp => ?_
  · rw [henter, blockProcessByPid, getProcByPid_fault.mpr hout]
    rfl
  · refine Refuses.of_done (?_ : _ = done k (-1)) (by decide)
    rw [henter, blockProcessByPid, getProcByPid_inside hin, hslot]
    rfl
  · rw [hcensus.contained_iff id hin hp]
    by_cases hdead : (k.procs p).status = .zombie ∨ (k.procs p).status = .dead
    · have hrefuse : Refuses k (.sysBlock x) := by
        refine Refuses.of_done (?_ : _ = done k (-1)) (by decide)
        rw [henter, blockProcessByPid, getProcByPid_inside hin, hp, Outcome.ok_bind]
        dsimp only
        rw [if_pos hdead]
        rfl
      exact iff_of_true ⟨hrefuse.ne_fault, .inr hrefuse⟩ (hdead.imp_right .inl)
    rw [← or_assoc, or_iff_right hdead]
    by_cases hblocked : (k.procs p).status = .blocked
    · have hval : enter k (.sysBlock x) = done k 0 := by
        rw [henter, blockProcessByPid, getProcByPid_inside hin, hp, Outcome.ok_bind]
        dsimp only
        rw [if_neg hdead, if_pos hblocked]
        rfl
      rw [or_iff_left (not_refuses_of_done hval), and_iff_right (done_ne_fault hval)]
      exact (and_iff_left (.inl hblocked)).symm
    · rw [or_iff_right hblocked]
      cases hself : blocksItself k p with
      | false =>
        have hval : enter k (.sysBlock x) = done (markBlocked k p .arbitrary .null) 0 := by
          rw [henter, blockProcessByPid, getProcByPid_inside hin, hp, Outcome.ok_bind]
          dsimp only
          rw [if_neg hdead, if_neg hblocked, if_neg (by rw [hself]; decide), block_other hself]
          rfl
        rw [or_iff_left (not_refuses_of_done hval), and_iff_right (done_ne_fault hval)]
        exact (and_iff_left (.inl rfl)).symm
      | true =>
        have hval : enter k (.sysBlock x) = (block (k.suspend .block) p .arbitrary .null >>=
            fun k => .ok (k, none)) := by
          rw [henter, blockProcessByPid, getProcByPid_inside hin, hp, Outcome.ok_bind]
          dsimp only
          rw [if_neg hdead, if_neg hblocked, if_pos hself]
          exact Outcome.bind_assoc _ _ _
        have hself' : blocksItself (k.suspend .block) p = true := by
          unfold blocksItself at hself ⊢
          rwa [suspend_currentProcess, suspend_procs]
        have hfault : block (k.suspend .block) p .arbitrary .null = .fault ↔ ¬ DueInside k :=
          (block_fault hself').trans (not_congr (dueInside_of_clock (clock_suspend k _)))
        have hinside : enter k (.sysBlock x) ≠ .fault ↔ DueInside k := by
          rw [hval]
          exact (not_congr (Outcome.bind_ok_eq_fault.trans hfault)).trans not_not
        rw [hinside]
        constructor
        · rintro ⟨hdue, hsame | ⟨r, hr, -⟩⟩
          · exact ⟨hsame, .inr hdue⟩
          · obtain ⟨k₁, -, hd⟩ := Outcome.bind_eq_ok.mp (hval.symm.trans hr)
            cases hd
        · rintro ⟨hsame, hdue⟩
          exact ⟨hdue.resolve_left (by decide), .inl hsame⟩

/-! ### `sys_wait_pid` -/

theorem findZombie_ne_fault (pids : List Int) (hids : ∀ y ∈ pids, 0 ≤ y ∧ y < maxProcesses) :
    ∀ i, (findZombie k pids i = .ok none ∧ ∀ y ∈ pids, ∀ z, k.processTable y.toNat = some z →
      (k.procs z).status ≠ .zombie) ∨ ∃ j child y, findZombie k pids i = .ok (some (j, child)) ∧
        y ∈ pids ∧ k.processTable y.toNat = some child ∧ (k.procs child).status = .zombie := by
  induction pids with
  | nil => exact fun _ => .inl ⟨rfl, fun _ hy => nomatch hy⟩
  | cons y rest ih =>
    intro i
    have hrest := ih (fun z hz => hids z (.tail _ hz)) (i + 1)
    unfold findZombie
    rw [getProcByPid_inside (hids y (.head _)), Outcome.ok_bind]
    cases hslot : k.processTable y.toNat with
    | none =>
      rcases hrest with ⟨hnone, hno⟩ | ⟨j, child, z, hfound, hz, hchild⟩
      · refine .inl ⟨hnone, fun z hz q hq => ?_⟩
        rcases List.mem_cons.mp hz with rfl | hz
        · cases hslot.symm.trans hq
        · exact hno z hz q hq
      · exact .inr ⟨j, child, z, hfound, .tail _ hz, hchild⟩
    | some child =>
      dsimp only
      by_cases hzombie : (k.procs child).status = .zombie
      · rw [if_pos hzombie]
        exact .inr ⟨i, child, y, rfl, .head _, hslot, hzombie⟩
      · rw [if_neg hzombie]
        rcases hrest with ⟨hnone, hno⟩ | ⟨j, q, z, hfound, hz, hq⟩
        · refine .inl ⟨hnone, fun z hz q hq => ?_⟩
          rcases List.mem_cons.mp hz with rfl | hz
          · cases hslot.symm.trans hq
            exact hzombie
          · exact hno z hz q hq
        · exact .inr ⟨j, q, z, hfound, .tail _ hz, hq⟩

/-- Everybody in the table has its place for id, and the children of `c` have places. -/
structure RoundSafe (k : Kernel) (c : ProcId) : Prop where
  current : k.currentProcess = some c
  children : ∀ y ∈ (k.procs c).children, 0 ≤ y ∧ y < maxProcesses
  pid : ∀ (y : Int) p, 0 ≤ y ∧ y < maxProcesses → k.processTable y.toNat = some p →
    (k.procs p).pid = y

theorem collect_inside {i : Nat} {child : ProcId}
    (hpid : 0 ≤ (k.procs child).pid ∧ (k.procs child).pid < maxProcesses) :
    ∃ k', collect k c i child = .ok k' := by
  unfold collect procReap
  dsimp only
  rw [if_pos hpid]
  exact ⟨_, rfl⟩

/-- What a round of `wait_pid` may come to. -/
inductive Round (k : Kernel) (c : ProcId) (n : Int) : Outcome (Kernel × Option WaitResult) → Prop
  | refused (h : RoundRefuses k c n) (hno : ¬ RoundBlocks k c n) :
      Round k c n (.ok (k, some (-1, none)))
  | collected (h : ¬ RoundRefuses k c n) (hno : ¬ RoundBlocks k c n) (k' : Kernel) (x st : Int) :
      Round k c n (.ok (k', some (x, some st)))
  | waits (h : ¬ RoundRefuses k c n) (hb : RoundBlocks k c n) : Round k c n (waitChild k n)

/-- **One round of `wait_pid`**, with every child's id within the table. -/
theorem RoundSafe.round (h : RoundSafe k c) (n : Int) : Round k c n (waitPidLoop k c n) := by
  unfold waitPidLoop
  by_cases hany : n = -1
  · have hrefuses : ¬ RoundRefuses k c n := fun hr => hr.1 hany
    rw [if_pos hany]
    rcases findZombie_ne_fault (k := k) (k.procs c).children h.children 0 with
      ⟨hnone, hno⟩ | ⟨j, child, y, hfound, hy, hchild, hzombie⟩
    · rw [hnone, Outcome.ok_bind]
      exact .waits hrefuses (by rwa [RoundBlocks, if_pos hany])
    · rw [hfound, Outcome.ok_bind]
      have hin := h.children y hy
      have hcollect : ∃ k', collect k c j child = .ok k' :=
        collect_inside (by rwa [h.pid y child hin hchild])
      obtain ⟨k', hcol⟩ := hcollect
      dsimp only
      rw [hcol]
      refine .collected hrefuses (fun hb => ?_) k' _ _
      rw [RoundBlocks, if_pos hany] at hb
      exact hb y hy child hchild hzombie
  · rw [if_neg hany]
    by_cases hmem : n ∈ (k.procs c).children
    · have hin := h.children n hmem
      rw [if_pos hmem, getProcByPid_inside hin, Outcome.ok_bind]
      cases hslot : k.processTable n.toNat with
      | none =>
        refine .refused ⟨hany, fun _ => hslot⟩ fun hb => ?_
        rw [RoundBlocks, if_neg hany] at hb
        obtain ⟨-, z, hz, -⟩ := hb
        cases hslot.symm.trans hz
      | some child =>
        have hrefuses : ¬ RoundRefuses k c n := fun hr => nomatch hslot.symm.trans (hr.2 hmem)
        dsimp only
        by_cases hzombie : (k.procs child).status = .zombie
        · rw [if_pos hzombie]
          have hcollect : ∃ k', collect k c ((k.procs c).children.idxOf n) child = .ok k' :=
            collect_inside (by rwa [h.pid n child hin hslot])
          obtain ⟨k', hcol⟩ := hcollect
          rw [hcol]
          refine .collected hrefuses (fun hb => ?_) k' _ _
          rw [RoundBlocks, if_neg hany] at hb
          obtain ⟨-, z, hz, hnot⟩ := hb
          cases hslot.symm.trans hz
          exact hnot hzombie
        · rw [if_neg hzombie]
          refine .waits hrefuses ?_
          rw [RoundBlocks, if_neg hany]
          exact ⟨hmem, child, hslot, hzombie⟩
    · rw [if_neg hmem]
      refine .refused ⟨hany, fun hm => absurd hm hmem⟩ fun hb => ?_
      rw [RoundBlocks, if_neg hany] at hb
      exact hmem hb.1

theorem waitChild_fault (hc : k.currentProcess = some c) :
    waitChild k n = .fault ↔ ¬ DueInside k := by
  unfold waitChild
  exact Outcome.bind_ok_eq_fault.trans (blockCurrent_fault hc)

/-- A round goes outside the table through a sleeper only. -/
theorem RoundSafe.fault_iff (h : RoundSafe k c) :
    waitPidLoop k c n = .fault ↔ RoundBlocks k c n ∧ ¬ DueInside k := by
  have hround := h.round n
  generalize waitPidLoop k c n = r at hround ⊢
  cases hround with
  | refused _ hno => exact iff_of_false (fun h => nomatch h) fun hb => hno hb.1
  | collected _ hno => exact iff_of_false (fun h => nomatch h) fun hb => hno hb.1
  | waits _ hb => exact (waitChild_fault h.current).trans (and_iff_right hb).symm

theorem roundSafe (hcensus : Census .run k) (hids : ChildIds k)
    (hc : k.currentProcess = some c) : RoundSafe k c :=
  ⟨hc, hids c, fun _ _ hin hp => hcensus.pid_toPid hin hp⟩

theorem enter_sysWaitPid (k : Kernel) (x : Int) :
    enter k (.sysWaitPid x) = (waitPid k (toPid x) >>= fun r => .ok (finishWait r)) := rfl

theorem refuses_of_waitPid {r : Int} (hr : r < 0)
    (hw : waitPid k (toPid x) = .ok (k, some (r, none))) : Refuses k (.sysWaitPid x) := by
  refine ⟨.waitPid r none, ?_, hr, rfl⟩
  rw [enter_sysWaitPid, hw]
  rfl

/-- A process with children goes into the loop. -/
theorem RoundSafe.waitPid_eq (h : RoundSafe k c) (hchildren : (k.procs c).children ≠ []) (n : Int) :
    waitPid k n = waitPidLoop k c n := by
  rw [waitPid, h.current]
  exact if_neg hchildren

/-- The call refuses exactly when its first round does: a round that waits has no result yet. -/
theorem RoundSafe.refuses_iff (h : RoundSafe k c) (hchildren : (k.procs c).children ≠ []) :
    Refuses k (.sysWaitPid x) ↔ RoundRefuses k c (toPid x) := by
  have hround := h.round (toPid x)
  rw [← h.waitPid_eq hchildren] at hround
  generalize hw : waitPid k (toPid x) = r at hround
  cases hround with
  | refused hrefused => exact iff_of_true (refuses_of_waitPid (by decide) hw) hrefused
  | collected hrefused _ k' y st =>
    refine iff_of_false ?_ hrefused
    rintro ⟨r, hr, hneg⟩
    rw [enter_sysWaitPid, hw] at hr
    cases hr
    exact absurd hneg.2 (by simp)
  | waits hrefused =>
    refine iff_of_false ?_ hrefused
    rintro ⟨r, hr, -⟩
    rw [enter_sysWaitPid, hw, waitChild] at hr
    obtain ⟨r₁, hr₁, hd⟩ := Outcome.bind_eq_ok.mp hr
    obtain ⟨k₁, -, hd₁⟩ := Outcome.bind_eq_ok.mp hr₁
    cases hd₁
    cases hd

/-- The call keeps to the table unless its first round waits with a sleeper due that has no
    place there. -/
theorem RoundSafe.inside_iff (h : RoundSafe k c) (hchildren : (k.procs c).children ≠ []) :
    enter k (.sysWaitPid x) ≠ .fault ↔ (RoundBlocks k c (toPid x) → DueInside k) := by
  rw [enter_sysWaitPid, h.waitPid_eq hchildren]
  exact (not_congr (Outcome.bind_ok_eq_fault.trans h.fault_iff)).trans not_and_not_right

/-- An argument that stands for another process cannot be told from it. -/
theorem contained_waitPid (hcensus : Census .run k) (hids : ChildIds k) :
    Contained k (.sysWaitPid x) x ↔ StaysInTable k (.sysWaitPid x) := by
  cases hc : k.currentProcess with
  | none =>
    have hfault : enter k (.sysWaitPid x) = .fault := by
      rw [enter_sysWaitPid, waitPid, hc]
      rfl
    refine iff_of_false (fun h => h.inside hfault) ?_
    rintro ⟨c, hc', -⟩
    cases hc.symm.trans hc'
  | some c =>
    have hstays : StaysInTable k (.sysWaitPid x) ↔ ((k.procs c).children = [] ∨
        ((RoundRefuses k c (toPid x) ∨ toPid x = x) ∧
          (RoundBlocks k c (toPid x) → DueInside k))) := by
      constructor
      · rintro ⟨c', hc', h⟩
        cases hc.symm.trans hc'
        exact h
      · exact fun h => ⟨c, hc, h⟩
    rw [hstays]
    by_cases hchildless : (k.procs c).children = []
    · have hrefuse : Refuses k (.sysWaitPid x) := by
        refine refuses_of_waitPid (r := -1) (by decide) ?_
        rw [waitPid, hc]
        exact if_pos hchildless
      exact iff_of_true ⟨hrefuse.ne_fault, fun _ _ => hrefuse⟩ (.inl hchildless)
    rw [or_iff_right hchildless]
    have hsafe := roundSafe hcensus hids hc
    have hinside := hsafe.inside_iff (x := x) hchildless
    have hrefuses := hsafe.refuses_iff (x := x) hchildless
    -- a stranger among the arguments is `-1`, or narrowing changed it, or nobody is there
    constructor
    · rintro ⟨hin, hstranger⟩
      refine ⟨?_, hinside.mp hin⟩
      by_cases hx : toPid x = x
      · exact .inr hx
      · refine .inl (hrefuses.mp (hstranger (fun hl => hx ?_) fun hany => hx ?_))
        · exact toPid_small ((hcensus.listed_iff).mp hl).1
        · have hminus : x = -1 := hany
          rw [hminus]
          decide
    · rintro ⟨hor, hdue⟩
      refine ⟨hinside.mpr hdue, fun hl hany => hrefuses.mpr ?_⟩
      rcases hor with hr | hx
      · exact hr
      · refine ⟨fun hn => hany (hx.symm.trans hn), fun hmem => ?_⟩
        by_contra hslot
        rw [hx] at hmem hslot
        exact hl (hcensus.listed_iff.mpr ⟨hids c x hmem, hslot⟩)

/-! ### The calls, in every run -/

/-- **Process ids from outside.**  In every reachable kernel, a call keeps to the table and
    refuses ids that are not listed exactly when `StaysInTable` holds; and when the caller of
    `wait_pid` goes on with it, the round keeps to the table unless it waits again with a sleeper
    due that has no place. -/
theorem pidArgs_contained_iff (h : Run f (fun _ _ => True) tr k) :
    (∀ e x, e.pidArg = some x → (Contained k e x ↔ StaysInTable k e)) ∧
      ∀ c n, k.currentProcess = some c → (resume k c (.waitPid n) ≠ .fault ↔
        (RoundBlocks k c n → DueInside k)) := by
  have hcensus := census_run h
  have hids := childIds_run h
  refine ⟨fun e x he => ?_, fun c n hc => ?_⟩
  · cases e with
    | sysKillProc => cases he; exact contained_kill hcensus (rooted_run h) hids
    | sysChangePriority => cases he; exact contained_changePriority hcensus
    | sysBlock => cases he; exact contained_block hcensus
    | sysUnblock => cases he; exact contained_unblock hcensus
    | sysWaitPid => cases he; exact contained_waitPid hcensus hids
    | _ => cases he
  · have hsafe : RoundSafe { k with kstack := Function.update k.kstack c none } c :=
      ⟨hc, hids c, fun _ _ hin hp => hcensus.pid_toPid hin hp⟩
    have hround := hsafe.fault_iff (n := n)
    change _ ↔ RoundBlocks k c n ∧ ¬ DueInside k at hround
    have hfault : resume k c (.waitPid n) = .fault ↔ RoundBlocks k c n ∧ ¬ DueInside k :=
      Outcome.bind_ok_eq_fault.trans hround
    exact (not_congr hfault).trans not_and_not_right

/-- `idle`, `init` and a child, which `init` may kill. -/
theorem pidArgs_contained_child : ∃ tr k, Run (fun _ => true) (fun _ _ => True) tr k ∧
    Listed k 2 ∧ Contained k (.sysKillProc 2) 2 := by
  have hcheck : execCheck step (fun _ _ => True)
      (fun _ k => k.processTable 2 == some 2 && (k.procs 2).pid == 2)
      (boot fun _ => true) childEvents = true := by decide +kernel
  obtain ⟨tr, k, hrun, hQ⟩ := Trace.of_execCheck hcheck
  simp only [Bool.and_eq_true, beq_iff_eq] at hQ
  refine ⟨tr, k, hrun, ⟨2, 2, hQ⟩, ((pidArgs_contained_iff hrun).1 _ 2 rfl).mpr ?_⟩
  exact .inr (.inr ⟨by decide, fun _ _ => show toPid 2 = 2 by decide⟩)

/-- **Two ways out**: `64` is read behind the end of the table, and `2^32 + 2`, which is nobody's
    id, kills the process with the id 2. -/
theorem pidArgs_escape :
    (¬ ∀ tr k, Run (fun _ => true) (fun _ _ => True) tr k → ∀ e x, e.pidArg = some x →
      -2 ^ 63 ≤ x → x < 2 ^ 63 → enter k e ≠ .fault) ∧
    ¬ ∀ tr k, Run (fun _ => true) (fun _ _ => True) tr k → ∀ e x, e.pidArg = some x →
      -2 ^ 63 ≤ x → x < 2 ^ 63 → ¬ Listed k x → ¬ e.anyChild → Refuses k e := by
  refine ⟨fun hall => ?_, fun hall => ?_⟩
  · exact hall [] _ .nil (.sysKillProc 64) 64 rfl (by decide) (by decide) rfl
  · have hcheck : execCheck step (fun _ _ => True) (fun _ k => k.processTable 2 == some 2)
        (boot fun _ => true) childEvents = true := by decide +kernel
    obtain ⟨tr, k, hrun, hQ⟩ := Trace.of_execCheck hcheck
    rw [beq_iff_eq] at hQ
    have hcensus := census_run hrun
    have hin : 0 ≤ toPid (2 ^ 32 + 2) ∧ toPid (2 ^ 32 + 2) < maxProcesses := by decide
    have hslot : k.processTable (toPid (2 ^ 32 + 2)).toNat = some 2 := hQ
    have hlisted : ¬ Listed k (2 ^ 32 + 2) := fun hl =>
      absurd ((hcensus.listed_iff_toPid hin hslot).mp hl) (by decide)
    have hrefuse := hall tr k hrun (.sysKillProc (2 ^ 32 + 2)) (2 ^ 32 + 2) rfl (by decide)
      (by decide) hlisted id
    have hstays := (contained_kill hcensus (rooted_run hrun) (childIds_run hrun)).mp
      ⟨hrefuse.ne_fault, fun _ _ => hrefuse⟩
    rcases hstays with h0 | h1 | hlands
    · exact absurd h0 (by decide)
    · exact absurd h1 (by decide)
    · exact absurd (hlands.2 2 hslot) (by decide)

end TpeSo
